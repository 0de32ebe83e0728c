import LightGraph.Proof.Caller
import LightGraph.Proof.Crash
import LightGraph.Proof.WalProgress

/-!
# What a process that dies leaves behind

A store calls its WAL thread, the thread writes a file, and the next process opens it. Each of the
three has its theorem: what is in the file lags behind what was sent (`WalThread.Lagging`), what is
sent is what the calls did (`Logging`), and a log of whole records replays to the map they make.
Here they are one. A process that dies at any moment leaves a file that stands for a first part of
its calls, with everything that was sent before a flush that has been answered. If it dies in the
middle of an append there is a torn record behind that: with less than a length field of it the file
opens all the same, with more it does not (`file_reopens`).
-/

set_option autoImplicit false

namespace LightGraph

open Lib

/-! ## Opening what has arrived -/

/-- A log of which a torn record has arrived last. -/
theorem openedRecords_received {log sent rs : List LogRecord} {bytes part : Bytes}
    (hfit : ∀ r ∈ log ++ sent, r.Fits) (h : Received sent bytes rs part) :
    openedRecords (magic ++ encodeRecords log ++ bytes) =
      if part.length < 4 then .ok (log ++ rs) else .error .unexpectedEof := by
  have hline : magic ++ encodeRecords log ++ bytes
      = magic ++ (encodeRecords (log ++ rs) ++ part) := by
    rw [h.split, encodeRecords_append, List.append_assoc, List.append_assoc]
  have hfits : ∀ r ∈ log ++ rs, r.Fits := by
    intro r hr
    refine hfit r ((List.mem_append.mp hr).elim (List.mem_append_left _) fun hr => ?_)
    exact List.mem_append_right _ (h.whole.subset hr)
  rw [hline]
  split
  · rename_i hshort
    exact (openedRecords_magic_iff _ _).mpr ⟨part, rfl, hshort, hfits⟩
  · rename_i hlong
    rcases h.torn with rfl | ⟨r, hr, hpart, hne⟩
    · exact absurd (show ([] : Bytes).length < 4 by decide) hlong
    · have hfitr : r.Fits :=
        hfit r (List.mem_append_right _ (hr.subset (List.mem_append_right _ (by simp))))
      have hone : encodeRecords [r] = walFormat.encode r.body := by simp [encodeRecords]
      have htake : part = (walFormat.encode r.body).take part.length := by
        rw [← hone]
        exact List.prefix_iff_eq_take.mp hpart
      have hsize : part.length < walFormat.size r.body := by
        have hlt := Nat.lt_of_le_of_ne hpart.length_le fun heq => hne (hpart.eq_of_length heq)
        rwa [hone, FrameFormat.length_encode] at hlt
      have hread : walFormat.read part = ⟨[], .short⟩ := by
        rw [htake]
        exact walFormat.read_cut_frame walFormat_width_pos (r.fits_body_iff.mpr hfitr)
          (Nat.not_lt.mp hlong) hsize
      have hseen : replayWal (fun seen r => seen ++ [r])
          (magic ++ (encodeRecords (log ++ rs) ++ part)) []
          = (log ++ rs, .error .unexpectedEof) := by
        show replayedRecords _ = _
        rw [replayedRecords_magic, encodeRecords, walFormat.read_encodeAll_append
          walFormat_width_pos (forall_fits_body hfits), hread, List.append_nil,
          map_decodeBody_map_body]
        rfl
      have hgt : (magic ++ (encodeRecords (log ++ rs) ++ part)).length > 4 := by
        have hm : magic.length = 4 := rfl
        simp only [List.length_append, hm]
        omega
      rw [openedRecords, replayIfAny, if_pos hgt, hseen]

section Open
variable {ρ : Type} [Bincode ρ] {file : Bytes}

theorem openReplay_of_opened {rs : List LogRecord} (h : openedRecords file = .ok rs) :
    ∃ (s : RecordStore ρ) (n : UInt64), RecordStore.openReplay file = .ok (s, n) ∧
      s.records = rs.foldl applyRecord ∅ := by
  rw [RecordStore.openReplay, replayIfAny_eq, h]
  exact ⟨_, _, rfl, Replay.ofLog_records rs⟩

theorem openReplay_of_error {e : IoError} (h : openedRecords file = .error e) :
    (RecordStore.openReplay file : Except IoError (RecordStore ρ × UInt64)) = .error e := by
  rw [RecordStore.openReplay, replayIfAny_eq, h]
  rfl

end Open

/-! ## Calls that log what they do -/

/-- What a call sends does to a replayed map what the call did to the live one. -/
structure Logging {ρ σ ω : Type} [Bincode ρ] (view : σ → RecordStore ρ) (A : Sender σ ω) :
    Prop where
  wal : ∀ s, A.logged s → ∃ w, (view s).wal = some w
  sent : ∀ s, A.sent s = (view s).sent
  logs : ∀ s op t, A.logged s → A.perform s op = some t →
    (view s).Logs (view t) (A.commands s op)

section Logging
variable {ρ σ ω : Type} [Bincode ρ] {view : σ → RecordStore ρ} {A : Sender σ ω}

/-- It is enough that there are such commands. -/
theorem Logging.of_logs (hwal : ∀ s, A.logged s → ∃ w, (view s).wal = some w)
    (hsent : ∀ s, A.sent s = (view s).sent)
    (hlogs : ∀ s op t, A.logged s → A.perform s op = some t →
      ∃ cmds, (view s).Logs (view t) cmds) : Logging view A := by
  refine ⟨hwal, hsent, fun s op t hlogged hs => ?_⟩
  obtain ⟨cmds, hcmds⟩ := hlogs s op t hlogged hs
  have hgrown : A.sent t = A.sent s ++ cmds := by rw [hsent, hsent, hcmds.sent]
  rw [A.commands_of_sent hs hgrown]
  exact hcmds

theorem Logging.performAll (h : Logging view A) {ops : List ω} : ∀ {s t : σ}, A.logged s →
    A.performAll s ops = some t → ∃ cmds, (view s).Logs (view t) cmds := by
  induction ops with
  | nil =>
    intro s t hlogged hrun
    obtain rfl := Option.some.inj hrun
    obtain ⟨w, hw⟩ := h.wal s hlogged
    exact ⟨[], RecordStore.Logs.refl hw⟩
  | cons op ops ih =>
    intro s t hlogged hrun
    obtain ⟨u, hu, hrest⟩ := Option.bind_eq_some_iff.mp hrun
    obtain ⟨cmds, hcmds⟩ := ih (A.sends s op u hlogged hu).1 hrest
    exact ⟨_, (h.logs s op u hlogged hu).trans hcmds⟩

/-- The first of the records that a sequence of calls has sent are those of the first calls, and the
first of one call more. -/
theorem Logging.split (h : Logging view A) {ops : List ω} : ∀ {s t : σ} {rs : List LogRecord},
    A.logged s → A.performAll s ops = some t → (view s).history <+: rs →
    rs <+: (view t).history →
    ∃ before u first, before <+: ops ∧ A.performAll s before = some u ∧
      rs = (view u).history ++ first ∧
      (first = [] ∨ ∃ op, before ++ [op] <+: ops ∧ first <+: records (A.commands u op)) := by
  induction ops with
  | nil =>
    intro s t rs hlogged hrun hlow hhigh
    obtain rfl := Option.some.inj hrun
    refine ⟨[], s, [], List.prefix_rfl, rfl, ?_, Or.inl rfl⟩
    rw [List.append_nil]
    exact (hlow.eq_of_length (Nat.le_antisymm hlow.length_le hhigh.length_le)).symm
  | cons op ops ih =>
    intro s t rs hlogged hrun hlow hhigh
    obtain ⟨u, hu, hrest⟩ := Option.bind_eq_some_iff.mp hrun
    have hlogu := (A.sends s op u hlogged hu).1
    have hfirst := (h.logs s op u hlogged hu).history
    obtain ⟨cmds, hcmds⟩ := h.performAll hlogu hrest
    have hmore : (view u).history <+: (view t).history := by
      rw [hcmds.history]
      exact List.prefix_append _ _
    rcases List.prefix_or_prefix_of_prefix hmore hhigh with hle | hle
    · obtain ⟨before, v, first, hbefore, hv, hsplit, hnext⟩ := ih hlogu hrest hle hhigh
      refine ⟨op :: before, v, first, (List.prefix_cons_inj op).mpr hbefore, ?_, hsplit,
        hnext.imp_right ?_⟩
      · rw [Sender.performAll, hu]
        exact hv
      · rintro ⟨next, hnext, hpart⟩
        exact ⟨next, (List.prefix_cons_inj op).mpr hnext, hpart⟩
    · -- they end within this call
      obtain ⟨first, rfl⟩ := hlow
      rw [hfirst, List.prefix_append_right_inj] at hle
      exact ⟨[], s, first, List.nil_prefix, rfl, rfl,
        Or.inr ⟨op, (List.prefix_cons_inj op).mpr List.nil_prefix, hle⟩⟩

/-! ## What a dead process has left -/

/-- The file stands for the calls `before`, after which the store is `u`, and the records `first` of
the one behind them; `part` of one record more is there. Everything that was sent before an answered
flush is in it whole. -/
structure Leaves (view : σ → RecordStore ρ) (A : Sender σ ω) (opened : Bytes) (s₀ : σ)
    (calls : List ω) (wal : WalThread) (file : Bytes) (before : List ω) (u : σ)
    (first : List LogRecord) (part : Bytes) : Prop where
  isPrefix : before <+: calls
  done : A.performAll s₀ before = some u
  next : first = [] ∨ ∃ op, before ++ [op] <+: calls ∧ first <+: records (A.commands u op)
  bytes : ∃ bytes, file = spawnFile opened ++ bytes ∧
    Received (records wal.history) bytes ((view u).history ++ first) part
  synced : ∀ reply ∈ wal.replies,
    records (WalThread.beforeFlush reply wal.history) <+: (view u).history ++ first

/-- Opening the file: the map it stands for, or the end of the file in the torn record. -/
def Reopens (view : σ → RecordStore ρ) (A : Sender σ ω) (reopen : Bytes → Except IoError σ)
    (opened : Bytes) (s₀ : σ) (calls : List ω) (wal : WalThread) (file : Bytes) : Prop :=
  ∃ before u first part, Leaves view A opened s₀ calls wal file before u first part ∧
    if part.length < 4 then
      ∃ s, reopen file = .ok s ∧ (view s).records = first.foldl applyRecord (view u).records
    else reopen file = .error .unexpectedEof

/-- What was sent before an answered flush is in what has been written. -/
theorem WalThread.Lagging.answered {base : Bytes} {s : WalThread}
    {written batched fresh : List WalCmd} (h : Lagging base s written batched fresh)
    (hlive : Live base s) {reply : Nat} (hreply : reply ∈ s.replies) :
    records (beforeFlush reply s.history) <+: records written := by
  obtain ⟨before, after, hsplit, hpre⟩ := hlive.replied reply hreply
  have hone := hlive.flushOnce reply
  rw [hsplit] at hone
  rw [hsplit, beforeFlush_eq hone]
  rw [h.file, List.prefix_append_right_inj, encodeCmds_eq, encodeCmds_eq] at hpre
  have hwritten : written <+: s.history := by
    rw [h.history, List.append_assoc, List.append_assoc]
    exact List.prefix_append _ _
  have hbefore : before <+: s.history := ⟨_, hsplit.symm⟩
  rcases List.prefix_or_prefix_of_prefix hbefore hwritten with ⟨rest, rfl⟩ | ⟨more, rfl⟩
  · rw [records_append]
    exact List.prefix_append _ _
  · -- what was sent after the last written command leaves no record
    have hlen := hpre.length_le
    rw [records_append, encodeRecords_append, List.length_append] at hlen
    have hnone : encodeRecords (records more) = [] := List.length_eq_zero_iff.mp (by omega)
    rw [records_append, encodeRecords_eq_nil_iff.mp hnone, List.append_nil]

theorem leaves_of_run (h : Logging view A) {opened file : Bytes} {s₀ : σ}
    (hlogged : A.logged s₀) (hnil : (view s₀).sent = []) {consistency : Consistency}
    {steps : List (CallerStep ω)} {c : Caller σ}
    (hrun : run (Caller.step A) (Caller.start s₀ opened consistency) steps = some c)
    (hfile : c.wal.FileDuring file) :
    ∃ before u first part,
      Leaves view A opened s₀ (Caller.callsMade steps) c.wal file before u first part := by
  have hrunning := Caller.Running.of_run hlogged ((h.sent s₀).trans hnil) hrun
  obtain ⟨acts, hacts⟩ := Caller.wal_of_run hrun
  obtain ⟨written, batched, fresh, hlag⟩ := WalThread.Lagging.of_run hacts hrunning.opened
  obtain ⟨bytes, rs, part, hbytes, hreceived, hwritten⟩ := hlag.during hfile
  have hempty : (view s₀).history = [] := by rw [RecordStore.history, hnil, records_nil]
  have hsent : rs <+: (view c.store).history := by
    have hall := hrunning.sent
    rw [h.sent] at hall
    rw [RecordStore.history, hall]
    exact hreceived.whole.trans (List.prefix_append _ _)
  obtain ⟨before, u, first, hbefore, hu, rfl, hnext⟩ :=
    h.split hlogged (Caller.store_of_run hrun) (hempty ▸ List.nil_prefix) hsent
  exact ⟨before, u, first, part, hbefore, hu, hnext, ⟨bytes, hbytes, hreceived⟩,
    fun reply hreply => (hlag.answered hrunning.live hreply).trans hwritten⟩

/-- **A process that dies** at any moment leaves a file that opens to the map behind a first part of
its calls, or that ends in a torn record. -/
theorem reopens_of_run (h : Logging view A) {reopen : Bytes → Except IoError σ}
    (hopen : ∀ file rs, openedRecords file = .ok rs →
      ∃ s, reopen file = .ok s ∧ (view s).records = rs.foldl applyRecord ∅)
    (herror : ∀ file e, openedRecords file = .error e → reopen file = .error e)
    {opened file : Bytes} {log : List LogRecord} {s₀ : σ} (hholds : LogHolds opened log)
    (hlogged : A.logged s₀) (hsynced : (view s₀).Synced log) (hnil : (view s₀).sent = [])
    {consistency : Consistency} {steps : List (CallerStep ω)} {c : Caller σ}
    (hrun : run (Caller.step A) (Caller.start s₀ opened consistency) steps = some c)
    (hfit : ∀ r ∈ log ++ (view c.store).history, r.Fits) (hfile : c.wal.FileDuring file) :
    Reopens view A reopen opened s₀ (Caller.callsMade steps) c.wal file := by
  obtain ⟨before, u, first, part, hleaves⟩ := leaves_of_run h hlogged hnil hrun hfile
  refine ⟨before, u, first, part, hleaves, ?_⟩
  have hfits : ∀ r ∈ log ++ records c.wal.history, r.Fits := by
    have hall := (Caller.Running.of_run hlogged ((h.sent s₀).trans hnil) hrun).sent
    rw [h.sent] at hall
    intro r hr
    refine hfit r ((List.mem_append.mp hr).elim (List.mem_append_left _) fun hr => ?_)
    rw [RecordStore.history, hall]
    exact List.mem_append_right _ (List.mem_append_left _ hr)
  obtain ⟨bytes, hbytes, hreceived⟩ := hleaves.bytes
  have hread := openedRecords_received hfits hreceived
  rw [← hholds.content, ← hbytes] at hread
  split
  · rename_i hshort
    rw [if_pos hshort] at hread
    obtain ⟨s, hs, hrecords⟩ := hopen file _ hread
    obtain ⟨cmds, hcmds⟩ := h.performAll hlogged hleaves.done
    refine ⟨s, hs, ?_⟩
    rw [hrecords, (hsynced.logs hcmds).records, ← List.append_assoc, List.foldl_append]
  · rename_i hlong
    rw [if_neg hlong] at hread
    exact herror file _ hread

end Logging

/-! ## The two stores -/

theorem NodeStore.logging [Bincode Node] : Logging NodeStore.toRecordStore nodeSender := by
  refine .of_logs (fun _ h => h) (fun _ => rfl) ?_
  rintro s op t ⟨w, hw⟩ hs
  obtain ⟨cmds, -, hlogs⟩ := NodeStore.perform_logs hw op
  exact ⟨cmds, Option.some.inj hs ▸ hlogs⟩

theorem EdgeStore.logging [Bincode Edge] : Logging (fun s : EdgeStore => s) edgeSender := by
  refine .of_logs (fun _ h => h) (fun _ => rfl) ?_
  rintro s c t ⟨w, hw⟩ hs
  exact EdgeStore.performCall_logs hw hs

/-- **A store's file reopens**, whenever its process dies, or ends in a torn record: for both
stores, opened on whatever log earlier processes have left. -/
theorem file_reopens [Bincode Node] [Bincode Edge] :
    (∀ (opened file : Bytes) (log : List LogRecord) (s₀ : NodeStore) (consistency : Consistency)
      (steps : List (CallerStep NodeOp)) (c : Caller NodeStore), LogHolds opened log →
      NodeStore.open opened = .ok s₀ →
      run (Caller.step nodeSender) (Caller.start s₀ opened consistency) steps = some c →
      (∀ r ∈ log ++ c.store.history, r.Fits) → c.wal.FileDuring file →
      Reopens NodeStore.toRecordStore nodeSender NodeStore.open opened s₀ (Caller.callsMade steps)
        c.wal file) ∧
    (∀ (opened file : Bytes) (log : List LogRecord) (s₀ : EdgeStore) (consistency : Consistency)
      (steps : List (CallerStep EdgeCall)) (c : Caller EdgeStore), LogHolds opened log →
      EdgeStore.open opened = .ok s₀ →
      run (Caller.step edgeSender) (Caller.start s₀ opened consistency) steps = some c →
      (∀ r ∈ log ++ RecordStore.history c.store, r.Fits) → c.wal.FileDuring file →
      Reopens (fun s : EdgeStore => s) edgeSender EdgeStore.open opened s₀ (Caller.callsMade steps)
        c.wal file) := by
  constructor
  · intro opened file log s₀ consistency steps c hholds hopen hrun hfit hfile
    obtain ⟨hlogged, hnil⟩ := NodeStore.open_logged hopen
    refine reopens_of_run NodeStore.logging (fun file rs h => ?_) (fun file e h => ?_) hholds
      hlogged (NodeStore.open_synced hholds hopen).1 hnil hrun hfit hfile
    · obtain ⟨s, n, hs, hrecords⟩ := openReplay_of_opened (ρ := Node) h
      rw [NodeStore.open, hs]
      exact ⟨_, rfl, hrecords⟩
    · rw [NodeStore.open, openReplay_of_error h]
  · intro opened file log s₀ consistency steps c hholds hopen hrun hfit hfile
    obtain ⟨hlogged, hnil⟩ := EdgeStore.open_logged hopen
    refine reopens_of_run EdgeStore.logging (fun file rs h => ?_) (fun file e h => ?_) hholds
      hlogged (EdgeStore.open_synced hholds hopen).1 hnil hrun hfit hfile
    · obtain ⟨s, n, hs, hrecords⟩ := openReplay_of_opened (ρ := Edge) h
      rw [EdgeStore.open, hs]
      exact ⟨_, rfl, hrecords⟩
    · rw [EdgeStore.open, openReplay_of_error h]

/-- A record is inserted and flushed; the process dies with a second one in the channel. -/
def flushedThenSent {ω : Type} (first second : ω) : List (CallerStep ω) :=
  [.call first, .send, .ret, .wal .flushSend, .wal .recvCmd, .wal .process, .wal (.sync false),
    .wal .recvCmd, .wal .process, .wal (.flushReturn 0), .call second, .send]

/-- Two inserts; the process dies in the middle of writing the second. -/
def tornSecond {ω : Type} (first second : ω) : List (CallerStep ω) :=
  [.call first, .send, .ret, .wal .recvCmd, .wal .process, .wal (.sync true), .call second, .send,
    .ret, .wal .recvCmd, .wal .process]

theorem file_reopens_two :
    (∃ c, run (Caller.step nodeSender) (Caller.start NodeStore.fresh [] Consistency.balanced)
        (flushedThenSent (.insertNode [1] 0 1) (.insertNode [2] 0 1)) = some c ∧
      Reopens NodeStore.toRecordStore nodeSender NodeStore.open [] NodeStore.fresh
        (Caller.callsMade (flushedThenSent (.insertNode [1] 0 1) (.insertNode [2] 0 1))) c.wal
        c.wal.file) ∧
    ∃ c, run (Caller.step edgeSender) (Caller.start EdgeStore.fresh [] Consistency.balanced)
        (tornSecond (.op (.insertEdge 0 1 0 0 1)) (.op (.insertEdge 1 2 0 0 1))) = some c ∧
      Reopens (fun s : EdgeStore => s) edgeSender EdgeStore.open [] EdgeStore.fresh
        (Caller.callsMade (tornSecond (.op (.insertEdge 0 1 0 0 1)) (.op (.insertEdge 1 2 0 0 1))))
        c.wal (c.wal.file ++ c.wal.buffer.take 9) := by
  refine ⟨⟨_, rfl, file_reopens.1 [] _ [] NodeStore.fresh Consistency.balanced _ _ LogHolds.empty
      NodeStore.open_nil rfl (by decide) (Or.inl rfl)⟩,
    _, rfl, file_reopens.2 [] _ [] EdgeStore.fresh Consistency.balanced _ _ LogHolds.empty
      EdgeStore.open_nil rfl (by decide) (Or.inr ⟨.sync true, _, rfl, ?_, ?_⟩)⟩
  · exact List.prefix_append _ _
  · exact (List.prefix_append_right_inj _).mpr (List.take_prefix 9 _)

end LightGraph
