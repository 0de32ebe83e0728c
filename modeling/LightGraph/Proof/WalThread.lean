import LightGraph.Proof.LogFormat

/-!
# What the WAL thread does with its commands

Up to the moment somebody calls `shutdown` or `drop`, the thread moves bytes along one line:
channel, hand, buffer, file. Nothing on the line is lost, doubled or overtaken, so the line
read from the file's end backwards is the history of the channel (`Live.stream`). The loop has
a dozen steps that move something along; `Live.advance` is the one fact about all of them.

Once the running flag is down the loop encodes nothing any more. What it then holds or finds in
the channel it drops, and the last theorem says so exactly.
-/

set_option autoImplicit false

namespace LightGraph

open Lib

namespace WalThread

/-! ## Small facts about the steps -/

@[simp] theorem flushAndSync_file (s : WalThread) : s.flushAndSync.file = s.file ++ s.buffer := by
  unfold flushAndSync
  split
  · rename_i h
    rw [List.isEmpty_iff.mp h, List.append_nil]
  · rfl

@[simp] theorem flushAndSync_buffer (s : WalThread) : s.flushAndSync.buffer = [] := by
  unfold flushAndSync
  split
  · rename_i h
    exact List.isEmpty_iff.mp h
  · rfl

@[simp] theorem flushAndSync_history (s : WalThread) : s.flushAndSync.history = s.history := by
  unfold flushAndSync
  split <;> rfl

@[simp] theorem flushAndSync_queue (s : WalThread) : s.flushAndSync.queue = s.queue := by
  unfold flushAndSync
  split <;> rfl

@[simp] theorem flushAndSync_replies (s : WalThread) : s.flushAndSync.replies = s.replies := by
  unfold flushAndSync
  split <;> rfl

@[simp] theorem flushAndSync_nextReply (s : WalThread) :
    s.flushAndSync.nextReply = s.nextReply := by
  unfold flushAndSync
  split <;> rfl

@[simp] theorem flushAndSync_running (s : WalThread) : s.flushAndSync.running = s.running := by
  unfold flushAndSync
  split <;> rfl

@[simp] theorem flushAndSync_closing (s : WalThread) : s.flushAndSync.closing = s.closing := by
  unfold flushAndSync
  split <;> rfl

@[simp] theorem flushAndSync_flushing (s : WalThread) : s.flushAndSync.flushing = s.flushing := by
  unfold flushAndSync
  split <;> rfl

@[simp] theorem handle_closing (s : WalThread) (cmd : WalCmd) :
    (s.handle cmd).closing = s.closing := by
  unfold handle
  split
  · exact flushAndSync_closing s
  · cases cmd with
    | insert id record => rfl
    | delete id => rfl
    | flush reply => exact flushAndSync_closing s
    | shutdown reply => exact flushAndSync_closing s

@[simp] theorem syncRound_closing (s : WalThread) (timedOut : Bool) :
    (s.syncRound timedOut).closing = s.closing := by
  unfold syncRound
  dsimp only
  split
  · exact flushAndSync_closing s
  · rfl

@[simp] theorem handle_history (s : WalThread) (cmd : WalCmd) :
    (s.handle cmd).history = s.history := by
  unfold handle
  split
  · exact flushAndSync_history s
  · cases cmd with
    | insert id record => rfl
    | delete id => rfl
    | flush reply => exact flushAndSync_history s
    | shutdown reply => exact flushAndSync_history s

@[simp] theorem syncRound_history (s : WalThread) (timedOut : Bool) :
    (s.syncRound timedOut).history = s.history := by
  unfold syncRound
  dsimp only
  split
  · exact flushAndSync_history s
  · rfl

/-- The command the loop holds. -/
def hand (s : WalThread) : List WalCmd :=
  match s.pc with
  | .taken cmd => [cmd]
  | _ => []

theorem inFlight_eq (s : WalThread) : s.inFlight = s.hand ++ s.queue := by
  unfold inFlight hand
  cases s.pc <;> rfl

/-! ## What a step does -/

/-- With a command put into the channel. -/
def withSent (s : WalThread) (cmd : WalCmd) (bytes : UInt64) : WalThread :=
  { s with
    queue := s.queue ++ [cmd]
    pendingBytes := s.pendingBytes + bytes
    history := s.history ++ [cmd] }

/-- Every way a step can go, with what must hold before it. -/
inductive Step (s : WalThread) : WalAct → WalThread → Prop
  | sendInsert {id : UInt64} {record : Bytes} (hopen : s.closing = .live) :
    Step s (.sendInsert id record)
      (s.withSent (.insert id record) (UInt64.ofNat record.length + 9))
  | sendDelete {id : UInt64} (hopen : s.closing = .live) :
    Step s (.sendDelete id) (s.withSent (.delete id) 9)
  | flushSend (hopen : s.closing = .live) :
    Step s .flushSend { s.withSent (.flush s.nextReply) 0 with
      flushing := s.flushing ++ [s.nextReply], nextReply := s.nextReply + 1 }
  | flushReturn {reply : Nat} (hwaits : reply ∈ s.flushing) (hreplied : reply ∈ s.replies) :
    Step s (.flushReturn reply)
      { s with flushing := s.flushing.erase reply, pendingBytes := 0 }
  | recvCmd {cmd : WalCmd} {queue : List WalCmd} (hpc : s.pc = .recv)
    (hqueue : s.queue = cmd :: queue) : Step s .recvCmd { s with queue, pc := .taken cmd }
  | recvTimeout (hpc : s.pc = .recv) (hqueue : s.queue = []) :
    Step s .recvTimeout { s with pc := .timedOut }
  | process {cmd : WalCmd} (hpc : s.pc = .taken cmd) : Step s .process (s.handle cmd)
  | exits (hpc : s.pc = .timedOut) (hrun : s.running = false) (hbuf : s.buffer = []) :
    Step s .idle { s with pc := .exited }
  | idles (hpc : s.pc = .timedOut) : Step s .idle { s with pc := .syncCheck }
  | sync {timedOut : Bool} (hpc : s.pc = .syncCheck) :
    Step s (.sync timedOut) (s.syncRound timedOut)
  | shutdown (hopen : s.closing = .live) (hflush : s.flushing = []) :
    Step s .shutdown { s with running := false, closing := .shutdownSend }
  | shutdownGone (hclosing : s.closing = .shutdownSend) :
    Step s .shutdownSend { s with closing := .joining }
  | shutdownSent (hclosing : s.closing = .shutdownSend) :
    Step s .shutdownSend { s with
      queue := s.queue ++ [.shutdown s.nextReply]
      nextReply := s.nextReply + 1
      closing := .shutdownWait s.nextReply }
  | shutdownReply {reply : Nat} (hclosing : s.closing = .shutdownWait reply)
    (hback : reply ∈ s.replies ∨ s.pc = .exited ∧ .shutdown reply ∉ s.queue) :
    Step s .shutdownReply { s with closing := .joining }
  | drop (hopen : s.closing = .live) (hflush : s.flushing = []) :
    Step s .drop { s with running := false, closing := .dropWake }
  | dropSent (hclosing : s.closing = .dropWake) :
    Step s .dropWake { s with
      queue := s.queue ++ [.delete 0xFFFFFFFFFFFFFFFF], closing := .joining }
  | dropGone (hclosing : s.closing = .dropWake) : Step s .dropWake { s with closing := .joining }
  | join (hclosing : s.closing = .joining) (hpc : s.pc = .exited) :
    Step s .join { s with closing := .closed }

theorem send_cases {s t : WalThread} {cmd : WalCmd} {bytes : UInt64}
    (h : s.send cmd bytes = some t) : s.closing = .live ∧ t = s.withSent cmd bytes := by
  unfold send at h
  split at h
  · rename_i hcond
    exact ⟨hcond.1, (Option.some.inj h).symm⟩
  · exact absurd h (by simp)

theorem step_cases {s t : WalThread} {a : WalAct} (hs : s.step a = some t) : Step s a t := by
  cases a with
  | sendInsert id record =>
    obtain ⟨hopen, rfl⟩ := send_cases hs
    exact .sendInsert hopen
  | sendDelete id =>
    obtain ⟨hopen, rfl⟩ := send_cases hs
    exact .sendDelete hopen
  | flushSend =>
    obtain ⟨u, hu, rfl⟩ := Option.map_eq_some_iff.mp hs
    obtain ⟨hopen, rfl⟩ := send_cases hu
    exact .flushSend hopen
  | flushReturn reply =>
    simp only [step] at hs
    split at hs
    · rename_i hcond
      obtain rfl := Option.some.inj hs
      exact .flushReturn hcond.1 hcond.2
    · exact absurd hs (by simp)
  | recvCmd =>
    simp only [step] at hs
    split at hs
    · rename_i hpc hqueue
      obtain rfl := Option.some.inj hs
      exact .recvCmd hpc hqueue
    · exact absurd hs (by simp)
  | recvTimeout =>
    simp only [step] at hs
    split at hs
    · rename_i hcond
      obtain rfl := Option.some.inj hs
      exact .recvTimeout hcond.1 hcond.2
    · exact absurd hs (by simp)
  | process =>
    simp only [step] at hs
    split at hs
    · rename_i hpc
      obtain rfl := Option.some.inj hs
      exact .process hpc
    · exact absurd hs (by simp)
  | idle =>
    simp only [step] at hs
    split at hs
    · rename_i hpc
      split at hs
      · rename_i hend
        obtain rfl := Option.some.inj hs
        rw [Bool.and_eq_true, Bool.not_eq_true', List.isEmpty_iff] at hend
        exact .exits hpc hend.1 hend.2
      · obtain rfl := Option.some.inj hs
        exact .idles hpc
    · exact absurd hs (by simp)
  | sync timedOut =>
    simp only [step] at hs
    split at hs
    · rename_i hpc
      obtain rfl := Option.some.inj hs
      exact .sync hpc
    · exact absurd hs (by simp)
  | shutdown =>
    simp only [step] at hs
    split at hs
    · rename_i hcond
      obtain rfl := Option.some.inj hs
      exact .shutdown hcond.1 hcond.2
    · exact absurd hs (by simp)
  | shutdownSend =>
    simp only [step] at hs
    split at hs
    · rename_i hclosing
      split at hs
      · obtain rfl := Option.some.inj hs
        exact .shutdownGone hclosing
      · split at hs
        · obtain rfl := Option.some.inj hs
          exact .shutdownSent hclosing
        · exact absurd hs (by simp)
    · exact absurd hs (by simp)
  | shutdownReply =>
    simp only [step] at hs
    split at hs
    · rename_i hclosing
      split at hs
      · rename_i hback
        obtain rfl := Option.some.inj hs
        exact .shutdownReply hclosing hback
      · exact absurd hs (by simp)
    · exact absurd hs (by simp)
  | drop =>
    simp only [step] at hs
    split at hs
    · rename_i hcond
      obtain rfl := Option.some.inj hs
      exact .drop hcond.1 hcond.2
    · exact absurd hs (by simp)
  | dropWake =>
    simp only [step] at hs
    split at hs
    · rename_i hclosing
      split at hs
      · obtain rfl := Option.some.inj hs
        exact .dropSent hclosing
      · obtain rfl := Option.some.inj hs
        exact .dropGone hclosing
    · exact absurd hs (by simp)
  | join =>
    simp only [step] at hs
    split at hs
    · rename_i hcond
      obtain rfl := Option.some.inj hs
      exact .join hcond.1 hcond.2
    · exact absurd hs (by simp)

/-! ## While nobody has closed it -/

/-- The state of a thread that has been neither shut down nor dropped; `base` is the file it
was spawned on. -/
structure Live (base : Bytes) (s : WalThread) : Prop where
  running : s.running = true
  notExited : s.pc ≠ .exited
  noShutdown : ∀ reply, .shutdown reply ∉ s.inFlight
  /-- file and buffer hold what is no longer in flight -/
  stream : ∃ done, s.history = done ++ s.inFlight ∧ s.file ++ s.buffer = base ++ encodeCmds done
  flushOnce : ∀ reply, s.history.count (.flush reply) ≤ 1
  flushOld : ∀ reply, .flush reply ∈ s.history → reply < s.nextReply
  /-- a reply is sent when everything before its flush is in the file -/
  replied : ∀ reply ∈ s.replies, ∃ before after,
    s.history = before ++ .flush reply :: after ∧ base ++ encodeCmds before <+: s.file

theorem Live.spawn (existing : Bytes) (batchSize channelCap : Nat) :
    Live (spawnFile existing) (spawn existing batchSize channelCap) where
  running := rfl
  notExited := by simp [WalThread.spawn]
  noShutdown := by simp [WalThread.spawn, inFlight]
  stream := ⟨[], by simp [WalThread.spawn, inFlight], by simp [WalThread.spawn]⟩
  flushOnce := by simp [WalThread.spawn]
  flushOld := by simp [WalThread.spawn]
  replied := by simp [WalThread.spawn]

section Steps
variable {base : Bytes} {s t : WalThread}

/-- A step of the loop takes `cmds` off the front of what is in flight and moves bytes on. -/
theorem Live.advance (h : Live base s) (cmds : List WalCmd)
    (hflight : s.inFlight = cmds ++ t.inFlight) (hhist : t.history = s.history)
    (hnext : t.nextReply = s.nextReply) (hrun : t.running = s.running) (hpc : t.pc ≠ .exited)
    (hbytes : t.file ++ t.buffer = s.file ++ s.buffer ++ encodeCmds cmds)
    (hfile : s.file <+: t.file)
    (hrep : ∀ reply ∈ t.replies, reply ∈ s.replies ∨ cmds = [.flush reply] ∧ t.buffer = []) :
    Live base t := by
  obtain ⟨done, hdone, hstream⟩ := h.stream
  rw [hflight] at hdone
  refine ⟨hrun ▸ h.running, hpc, ?_, ⟨done ++ cmds, ?_, ?_⟩, ?_, ?_, ?_⟩
  · intro reply hm
    exact h.noShutdown reply (by rw [hflight]; exact List.mem_append_right cmds hm)
  · rw [hhist, hdone, List.append_assoc]
  · rw [hbytes, hstream, encodeCmds_append, List.append_assoc]
  · rw [hhist]
    exact h.flushOnce
  · rw [hhist, hnext]
    exact h.flushOld
  · intro reply hm
    rw [hhist]
    rcases hrep reply hm with hm | ⟨hcmds, hbuf⟩
    · obtain ⟨before, after, hsplit, hpre⟩ := h.replied reply hm
      exact ⟨before, after, hsplit, hpre.trans hfile⟩
    · -- the flush that has just been handled
      refine ⟨done, t.inFlight, by rw [hdone, hcmds]; rfl, ?_⟩
      rw [hbuf, List.append_nil, hcmds, hstream] at hbytes
      rw [hbytes]
      exact List.prefix_append _ _

/-- A command enters the channel. -/
theorem Live.send (h : Live base s) {cmd : WalCmd} (hshut : ∀ reply, cmd ≠ .shutdown reply)
    (hflush : ∀ reply, cmd = .flush reply → reply = s.nextReply)
    (hflight : t.inFlight = s.inFlight ++ [cmd]) (hhist : t.history = s.history ++ [cmd])
    (hnext : t.nextReply = if cmd = .flush s.nextReply then s.nextReply + 1 else s.nextReply)
    (hrun : t.running = s.running) (hpc : t.pc = s.pc) (hfile : t.file = s.file)
    (hbuf : t.buffer = s.buffer) (hrep : t.replies = s.replies) : Live base t := by
  obtain ⟨done, hdone, hstream⟩ := h.stream
  have hold : ∀ reply, .flush reply ∈ t.history → .flush reply ∈ s.history ∨
      cmd = .flush s.nextReply ∧ reply = s.nextReply := by
    intro reply hm
    rw [hhist] at hm
    rcases List.mem_append.mp hm with hm | hm
    · exact Or.inl hm
    · have hcmd := (List.mem_singleton.mp hm).symm
      have hr := hflush reply hcmd
      exact Or.inr ⟨hr ▸ hcmd, hr⟩
  refine ⟨hrun ▸ h.running, hpc ▸ h.notExited, ?_, ⟨done, ?_, ?_⟩, ?_, ?_, ?_⟩
  · intro reply hm
    rw [hflight] at hm
    rcases List.mem_append.mp hm with hm | hm
    · exact h.noShutdown reply hm
    · exact hshut reply (List.mem_singleton.mp hm).symm
  · rw [hhist, hflight, hdone, List.append_assoc]
  · rw [hfile, hbuf, hstream]
  · intro reply
    rw [hhist, List.count_append]
    -- a new flush has a reply of its own, larger than all before it
    by_cases hcmd : cmd = .flush reply
    · have hnot : .flush reply ∉ s.history := fun hm =>
        absurd (h.flushOld reply hm) (by rw [hflush reply hcmd]; exact Nat.lt_irrefl _)
      rw [List.count_eq_zero.mpr hnot, hcmd]
      simp
    · have hzero : [cmd].count (.flush reply) = 0 := by
        rw [List.count_eq_zero, List.mem_singleton]
        exact fun heq => hcmd heq.symm
      rw [hzero]
      exact h.flushOnce reply
  · intro reply hm
    rw [hnext]
    rcases hold reply hm with hm | ⟨hcmd, rfl⟩
    · have := h.flushOld reply hm
      split <;> omega
    · rw [if_pos hcmd]
      exact Nat.lt_succ_self _
  · intro reply hm
    rw [hrep] at hm
    obtain ⟨before, after, hsplit, hpre⟩ := h.replied reply hm
    refine ⟨before, after ++ [cmd], ?_, by rw [hfile]; exact hpre⟩
    rw [hhist, hsplit, List.append_assoc, List.cons_append]

theorem inFlight_snoc {cmd : WalCmd} (hpc : t.pc = s.pc) (hqueue : t.queue = s.queue ++ [cmd]) :
    t.inFlight = s.inFlight ++ [cmd] := by
  simp only [inFlight_eq, hand, hpc, hqueue, List.append_assoc]

/-- The `Ok` arm of a live loop. -/
theorem Live.handle (h : Live base s) {cmd : WalCmd} (hpc : s.pc = .taken cmd) :
    Live base (s.handle cmd) := by
  have hflight : s.inFlight = [cmd] ++ s.queue := by rw [inFlight_eq, hand, hpc]
  have hrun : ¬ (!s.running) = true := by simp [h.running]
  unfold WalThread.handle
  rw [if_neg hrun]
  cases cmd with
  | insert id record =>
    refine h.advance [.insert id record] hflight rfl rfl rfl (by simp) ?_
      List.prefix_rfl (fun reply hm => Or.inl hm)
    simp only [encodeCmds_singleton, encodeCmd, encodeInsert, List.append_assoc, List.nil_append]
  | delete id =>
    refine h.advance [.delete id] hflight rfl rfl rfl (by simp) ?_
      List.prefix_rfl (fun reply hm => Or.inl hm)
    simp only [encodeCmds_singleton, encodeCmd, encodeDelete, List.append_assoc, List.nil_append]
  | flush reply =>
    refine h.advance [.flush reply] ?_ ?_ ?_ ?_ ?_ ?_ ?_ ?_
    · simp [inFlight_eq, hand, hpc]
    · simp
    · simp
    · simp
    · simp
    · simp [encodeCmds_singleton, encodeCmd]
    · simp
    · intro reply' hm
      simp only [flushAndSync_replies, List.mem_append, List.mem_singleton] at hm
      rcases hm with hm | rfl
      · exact Or.inl hm
      · exact Or.inr ⟨rfl, by simp⟩
  | shutdown reply =>
    exact absurd (show WalCmd.shutdown reply ∈ s.inFlight by rw [hflight]; simp)
      (h.noShutdown reply)

/-- The end of a round. -/
theorem Live.syncRound (h : Live base s) (hpc : s.pc = .syncCheck) (timedOut : Bool) :
    Live base (s.syncRound timedOut) := by
  have hflight : s.inFlight = [] ++ s.queue := by rw [inFlight_eq, hand, hpc]
  unfold WalThread.syncRound
  dsimp only
  split
  · refine h.advance [] ?_ ?_ ?_ ?_ ?_ ?_ ?_ ?_
    · simp [inFlight_eq, hand, hpc]
    · simp
    · simp
    · simp
    · simp
    · simp
    · simp
    · intro reply hm
      exact Or.inl (by simpa using hm)
  · exact h.advance [] hflight rfl rfl rfl (by simp) (by simp)
      List.prefix_rfl (fun reply hm => Or.inl hm)

/-- Every step that leaves the thread open keeps it live. -/
theorem Live.step (h : Live base s) (hlive : s.closing = .live) {a : WalAct}
    (hs : s.step a = some t) (hopen : t.closing = .live) : Live base t := by
  have hclosed : ∀ c, c ≠ .live → s.closing ≠ c := fun c hc hs => hc (hs.symm.trans hlive)
  cases step_cases hs with
  | sendInsert =>
    exact h.send (by simp) (by simp) (inFlight_snoc rfl rfl) rfl (by simp [withSent]) rfl rfl rfl
      rfl rfl
  | sendDelete =>
    exact h.send (by simp) (by simp) (inFlight_snoc rfl rfl) rfl (by simp [withSent]) rfl rfl rfl
      rfl rfl
  | flushSend =>
    exact h.send (by simp) (fun reply hr => (WalCmd.flush.inj hr).symm) (inFlight_snoc rfl rfl)
      rfl (by simp) rfl rfl rfl rfl rfl
  | flushReturn hwaits hreplied =>
    exact h.advance [] rfl rfl rfl rfl h.notExited (by simp) List.prefix_rfl
      (fun reply hm => Or.inl hm)
  | recvCmd hpc hqueue =>
    -- from the channel to the hand: as much in flight as before
    refine h.advance [] ?_ rfl rfl rfl (by simp) (by simp) List.prefix_rfl
      (fun reply hm => Or.inl hm)
    simp [inFlight, hpc, hqueue]
  | recvTimeout hpc hqueue =>
    refine h.advance [] ?_ rfl rfl rfl (by simp) (by simp) List.prefix_rfl
      (fun reply hm => Or.inl hm)
    simp [inFlight, hpc]
  | process hpc => exact h.handle hpc
  | exits hpc hrun hbuf => exact absurd h.running (by simp [hrun])
  | idles hpc =>
    refine h.advance [] ?_ rfl rfl rfl (by simp) (by simp) List.prefix_rfl
      (fun reply hm => Or.inl hm)
    simp [inFlight, hpc]
  | sync hpc => exact h.syncRound hpc _
  | shutdown => exact absurd hopen (by simp)
  | shutdownGone hclosing => exact absurd hclosing (hclosed _ (by simp))
  | shutdownSent hclosing => exact absurd hclosing (hclosed _ (by simp))
  | shutdownReply hclosing => exact absurd hclosing (hclosed _ (by simp))
  | drop => exact absurd hopen (by simp)
  | dropSent hclosing => exact absurd hclosing (hclosed _ (by simp))
  | dropGone hclosing => exact absurd hclosing (hclosed _ (by simp))
  | join hclosing => exact absurd hclosing (hclosed _ (by simp))

/-- The thread is never opened again. -/
theorem step_closing {a : WalAct} (hs : s.step a = some t) (hopen : t.closing = .live) :
    s.closing = .live := by
  cases step_cases hs with
  | process => exact (handle_closing s _).symm.trans hopen
  | sync => exact (syncRound_closing s _).symm.trans hopen
  | shutdown hlive => exact hlive
  | drop hlive => exact hlive
  | shutdownGone => exact absurd hopen (by simp)
  | shutdownSent => exact absurd hopen (by simp)
  | shutdownReply => exact absurd hopen (by simp)
  | dropSent => exact absurd hopen (by simp)
  | dropGone => exact absurd hopen (by simp)
  | join => exact absurd hopen (by simp)
  -- every other step keeps `closing`
  | _ => exact hopen

end Steps

/-- Every state a thread reaches before it is closed is live. -/
theorem Live.of_run {existing : Bytes} {batchSize channelCap : Nat} {acts : List WalAct}
    {s : WalThread}
    (h : run WalThread.step (WalThread.spawn existing batchSize channelCap) acts = some s)
    (hopen : s.closing = .live) : Live (spawnFile existing) s := by
  have hinv : s.closing = .live → Live (spawnFile existing) s :=
    run_invariant (I := fun s => s.closing = .live → Live (spawnFile existing) s)
      (fun s a t hs hst ht => (hs (step_closing hst ht)).step (step_closing hst ht) hst ht)
      (fun _ => Live.spawn existing batchSize channelCap) h
  exact hinv hopen

/-- An open thread with nothing in its buffer and no record in flight has written everything. -/
theorem Live.drained {base : Bytes} {s : WalThread} (h : Live base s) (hbuf : s.buffer = [])
    (hflight : records s.inFlight = []) : s.file = base ++ encodeCmds s.history := by
  obtain ⟨done, hdone, hstream⟩ := h.stream
  rw [hbuf, List.append_nil] at hstream
  rw [hstream, hdone, encodeCmds_append, encodeCmds_eq s.inFlight, hflight, encodeRecords_nil,
    List.append_nil]

/-- The commands that entered the channel before the flush with this reply. -/
def beforeFlush (reply : Nat) (history : List WalCmd) : List WalCmd :=
  history.takeWhile fun cmd => cmd ≠ .flush reply

theorem beforeFlush_eq {reply : Nat} {before after : List WalCmd}
    (hone : (before ++ .flush reply :: after).count (.flush reply) ≤ 1) :
    beforeFlush reply (before ++ .flush reply :: after) = before := by
  have hnot : .flush reply ∉ before := by
    intro hm
    have hpos := List.count_pos_iff.mpr hm
    rw [List.count_append, List.count_cons_self] at hone
    omega
  have hall : ∀ cmd ∈ before, decide (cmd ≠ .flush reply) = true := by
    intro cmd hm
    exact decide_eq_true fun heq => hnot (heq ▸ hm)
  rw [beforeFlush, List.takeWhile_append_of_pos hall, List.takeWhile_cons]
  simp

/-- **Group commit keeps the order, and a flush is a sync point.** Whatever the clients, the
clock and the loop do, file, buffer and what is in flight are the history of the channel; and
when a flush returns, everything that entered the channel before it is in the file. -/
theorem group_commit (existing : Bytes) (batchSize channelCap : Nat) (acts : List WalAct)
    (s : WalThread) (h : run step (spawn existing batchSize channelCap) acts = some s)
    (hopen : s.closing = .live) :
    s.file ++ s.buffer ++ encodeCmds s.inFlight
      = spawnFile existing ++ encodeCmds s.history ∧
    ∀ reply t, s.step (.flushReturn reply) = some t →
      spawnFile existing ++ encodeCmds (beforeFlush reply t.history) <+: t.file := by
  have hlive := Live.of_run h hopen
  constructor
  · obtain ⟨done, hdone, hstream⟩ := hlive.stream
    rw [hstream, hdone, encodeCmds_append, List.append_assoc]
  · intro reply t ht
    simp only [step] at ht
    split at ht
    · rename_i hcond
      rw [← Option.some.inj ht]
      obtain ⟨before, after, hsplit, hpre⟩ := hlive.replied reply hcond.2
      have hone := hlive.flushOnce reply
      rw [hsplit] at hone
      rw [hsplit, beforeFlush_eq hone]
      exact hpre
    · exact absurd ht (by simp)

/-- One client inserts and flushes, and the loop takes both commands. -/
theorem group_commit_flushed :
    ∃ s, run step (spawn [] 64 8) [.sendInsert 7 [1], .flushSend, .recvCmd, .process,
        .sync false, .recvCmd, .process] = some s ∧
      s.file ++ s.buffer ++ encodeCmds s.inFlight = spawnFile [] ++ encodeCmds s.history ∧
      ∀ reply t, s.step (.flushReturn reply) = some t →
        spawnFile [] ++ encodeCmds (beforeFlush reply t.history) <+: t.file :=
  ⟨_, rfl, group_commit [] 64 8 [.sendInsert 7 [1], .flushSend, .recvCmd, .process, .sync false,
    .recvCmd, .process] _ rfl rfl⟩

/-! ## After the flag has gone down -/

/-- Nothing is encoded any more: file and buffer together stay what they are, and when the loop
has ended it is all in the file. -/
structure Closing (bytes : Bytes) (history : List WalCmd) (s : WalThread) : Prop where
  running : s.running = false
  notLive : s.closing ≠ .live
  flushing : s.flushing = []
  kept : s.file ++ s.buffer = bytes
  ended : s.pc = .exited → s.buffer = []
  history : s.history = history

section Closing
variable {bytes : Bytes} {history : List WalCmd} {s t : WalThread}

theorem Closing.step (h : Closing bytes history s) {a : WalAct} (hs : s.step a = some t) :
    Closing bytes history t := by
  obtain ⟨hrun, hne, hflush, hkept, hend, hhist⟩ := h
  cases step_cases hs with
  | sendInsert hopen => exact absurd hopen hne
  | sendDelete hopen => exact absurd hopen hne
  | flushSend hopen => exact absurd hopen hne
  | flushReturn hwaits => exact absurd hwaits (by simp [hflush])
  | recvCmd => exact ⟨hrun, hne, hflush, hkept, by simp, hhist⟩
  | recvTimeout => exact ⟨hrun, hne, hflush, hkept, by simp, hhist⟩
  | process hpc =>
    -- whatever was taken, the loop syncs and returns
    unfold handle
    rw [if_pos (by simp [hrun])]
    exact ⟨by simp [hrun], by simpa using hne, by simp [hflush], by simpa using hkept,
      by simp, by simpa using hhist⟩
  | exits hpc _ hbuf => exact ⟨hrun, hne, hflush, hkept, fun _ => hbuf, hhist⟩
  | idles => exact ⟨hrun, hne, hflush, hkept, by simp, hhist⟩
  | sync hpc =>
    unfold syncRound
    dsimp only
    split
    · exact ⟨by simp [hrun], by simpa using hne, by simp [hflush], by simpa using hkept,
        by simp, by simpa using hhist⟩
    · exact ⟨hrun, hne, hflush, hkept, by simp, hhist⟩
  | shutdown hopen => exact absurd hopen hne
  | shutdownGone => exact ⟨hrun, by simp, hflush, hkept, hend, hhist⟩
  | shutdownSent => exact ⟨hrun, by simp, hflush, hkept, hend, hhist⟩
  | shutdownReply => exact ⟨hrun, by simp, hflush, hkept, hend, hhist⟩
  | drop hopen => exact absurd hopen hne
  | dropSent => exact ⟨hrun, by simp, hflush, hkept, hend, hhist⟩
  | dropGone => exact ⟨hrun, by simp, hflush, hkept, hend, hhist⟩
  | join => exact ⟨hrun, by simp, hflush, hkept, hend, hhist⟩

/-- Both `shutdown` and `drop` begin by taking the flag down. -/
theorem Closing.of_close {close : WalAct} (hclose : close = .shutdown ∨ close = .drop)
    (hpc : s.closing = .live → s.pc ≠ .exited) (hs : s.step close = some t) :
    s.closing = .live ∧ t.closing ≠ .closed ∧ Closing (s.file ++ s.buffer) s.history t := by
  rcases hclose with rfl | rfl
  · cases step_cases hs with
    | shutdown hopen hflush =>
      exact ⟨hopen, by simp, rfl, by simp, hflush, rfl, fun hexit => absurd hexit (hpc hopen), rfl⟩
  · cases step_cases hs with
    | drop hopen hflush =>
      exact ⟨hopen, by simp, rfl, by simp, hflush, rfl, fun hexit => absurd hexit (hpc hopen), rfl⟩

/-- A closed thread's loop has ended. -/
theorem step_closed {a : WalAct} (hs : s.step a = some t)
    (h : s.closing = .closed → s.pc = .exited) : t.closing = .closed → t.pc = .exited := by
  intro ht
  have hjoined : s.closing = .closed → ∀ c, c ≠ .exited → s.pc ≠ c :=
    fun hc c hne hpc => hne (hpc.symm.trans (h hc))
  cases step_cases hs with
  | join _ hpc => exact hpc
  | exits => rfl
  | sendInsert => exact h ht
  | sendDelete => exact h ht
  | flushSend => exact h ht
  | flushReturn => exact h ht
  | recvCmd hpc => exact absurd hpc (hjoined ht _ (by simp))
  | recvTimeout hpc => exact absurd hpc (hjoined ht _ (by simp))
  | process hpc => exact absurd hpc (hjoined ((handle_closing s _).symm.trans ht) _ (by simp))
  | idles hpc => exact absurd hpc (hjoined ht _ (by simp))
  | sync hpc => exact absurd hpc (hjoined ((syncRound_closing s _).symm.trans ht) _ (by simp))
  -- a call that is still closing the thread
  | _ => exact absurd ht (by simp)

end Closing

/-- **What a shutdown without a flush keeps.** A thread is closed by `shutdown` or `drop` in
the state `s`; when the call returns, the file holds everything ever sent exactly when nothing
that leaves a record was in flight at that moment. -/
theorem shutdown_keeps_iff (existing : Bytes) (batchSize channelCap : Nat)
    (acts acts' : List WalAct) (s s₁ t : WalThread) (close : WalAct)
    (h : run step (spawn existing batchSize channelCap) acts = some s)
    (hclose : close = .shutdown ∨ close = .drop) (h₁ : s.step close = some s₁)
    (h' : run step s₁ acts' = some t) (hclosed : t.closing = .closed) :
    t.file = spawnFile existing ++ encodeCmds s.history ↔ records s.inFlight = [] := by
  obtain ⟨hlive, hnot, hclosing⟩ :=
    Closing.of_close hclose (fun hl => (Live.of_run h hl).notExited) h₁
  obtain ⟨done, hdone, hstream⟩ := (Live.of_run h hlive).stream
  have hkept : Closing (s.file ++ s.buffer) s.history t :=
    run_invariant (fun _ _ _ hi hst => hi.step hst) hclosing h'
  have hexit : t.closing = .closed → t.pc = .exited :=
    run_invariant (I := fun s => s.closing = .closed → s.pc = .exited)
      (fun _ _ _ hi hst => step_closed hst hi) (fun hc => absurd hc hnot) h'
  have hfile : t.file = spawnFile existing ++ encodeCmds done := by
    rw [← hstream, ← hkept.kept, hkept.ended (hexit hclosed), List.append_nil]
  have hsplit : spawnFile existing ++ encodeCmds s.history
      = spawnFile existing ++ encodeCmds done ++ encodeCmds s.inFlight := by
    rw [hdone, encodeCmds_append, List.append_assoc]
  -- what is lost is what was in flight
  rw [hfile, hsplit, List.self_eq_append_right, encodeCmds_eq, encodeRecords_eq_nil_iff]

/-- An insert still in the channel when `shutdown` is called: the loop takes it, sees the flag
down and returns. -/
theorem shutdown_loses_insert :
    ¬ ∀ (existing : Bytes) (batchSize channelCap : Nat) (acts acts' : List WalAct)
      (s s₁ t : WalThread) (close : WalAct),
      run step (spawn existing batchSize channelCap) acts = some s →
      close = .shutdown ∨ close = .drop → s.step close = some s₁ →
      run step s₁ acts' = some t → t.closing = .closed →
      t.file = spawnFile existing ++ encodeCmds s.history := by
  intro h
  have hrun := h [] 64 8 [.sendInsert 7 [1]] [.recvCmd, .process, .shutdownSend, .join] _ _ _
    .shutdown rfl (Or.inl rfl) rfl rfl rfl
  exact absurd hrun (by decide)

/-- A delete the loop has encoded, and a batch that is not full, at the moment of a `drop`. -/
theorem shutdown_keeps_iff_drop :
    ∃ s s₁ t, run step (spawn [] 64 8) [.sendDelete 9, .recvCmd, .process, .sync false] = some s ∧
      s.step .drop = some s₁ ∧
      run step s₁ [.dropWake, .recvCmd, .process, .join] = some t ∧
      (t.file = spawnFile [] ++ encodeCmds s.history ↔ records s.inFlight = []) :=
  ⟨_, _, _, rfl, rfl, rfl,
    shutdown_keeps_iff [] 64 8 [.sendDelete 9, .recvCmd, .process, .sync false]
      [.dropWake, .recvCmd, .process, .join] _ _ _ .drop rfl (Or.inr rfl) rfl rfl rfl⟩

end WalThread
end LightGraph
