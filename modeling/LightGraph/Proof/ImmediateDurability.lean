import LightGraph.Proof.Caller
import LightGraph.Proof.WalProgress

/-!
# A call that has returned is not in the file

A store's call sends its records and returns; the WAL thread takes them out of the channel when it
gets to it. A batch of one byte makes the thread write each record as soon as it has encoded it,
and makes nobody wait for that. So whatever call it is, if it sends a record at all there is an
interleaving in which it returns while its last record is still in the channel
(`Caller.exists_early_return`): the thread is given time to write out everything else, and not that.
-/

set_option autoImplicit false

namespace LightGraph

open Lib

/-! ## The thread can write out what it has -/

namespace WalThread
variable {base : Bytes} {s : WalThread}

/-- All that was sent is in the file exactly if no record is on the way. -/
theorem inFile_iff (h : s.Live base) :
    base ++ encodeCmds s.history <+: s.file ↔ s.buffer = [] ∧ records s.inFlight = [] := by
  obtain ⟨done, hdone, hstream⟩ := h.stream
  have hline : base ++ encodeCmds s.history = s.file ++ (s.buffer ++ encodeCmds s.inFlight) := by
    rw [hdone, encodeCmds_append, ← List.append_assoc, ← hstream, List.append_assoc]
  rw [hline, ← encodeRecords_eq_nil_iff, ← encodeCmds_eq, ← List.append_eq_nil_iff]
  constructor
  · intro hpre
    have hlen := hpre.length_le
    rw [List.length_append] at hlen
    exact List.length_eq_zero_iff.mp (Nat.le_zero.mp (Nat.add_le_add_iff_left.mp hlen))
  · intro hnil
    rw [hnil, List.append_nil]

/-- The loop waits for a command, and there is none. -/
def AtRest (s : WalThread) : Prop := s.pc = .recv ∧ s.queue = []

/-- The steps the loop has left in a round. -/
def roundLeft : LoopPc → Nat
  | .recv => 0
  | .syncCheck => 1
  | .timedOut => 2
  | .taken _ => 3
  | .exited => 0

theorem roundLeft_handle (h : s.running = true) (cmd : WalCmd) :
    roundLeft (s.handle cmd).pc ≤ 1 := by
  unfold handle
  rw [if_neg (by simp [h])]
  cases cmd with
  | insert id record => exact Nat.le_refl 1
  | delete id => exact Nat.le_refl 1
  | flush reply => exact Nat.zero_le 1
  | shutdown reply => exact Nat.zero_le 1

/-- A loop that is not at rest has a step that brings it nearer. -/
theorem Live.nearer (h : s.Live base) (hnot : ¬ s.AtRest) : ∃ act t, act.ofLoop = true ∧
    s.step act = some t ∧
      4 * t.queue.length + roundLeft t.pc < 4 * s.queue.length + roundLeft s.pc := by
  cases hpc : s.pc with
  | recv =>
    cases hqueue : s.queue with
    | nil => exact absurd ⟨hpc, hqueue⟩ hnot
    | cons cmd queue =>
      refine ⟨.recvCmd, { s with queue, pc := .taken cmd }, rfl, ?_, ?_⟩
      · simp only [WalThread.step, hpc, hqueue]
      · simp only [roundLeft, List.length_cons]
        omega
  | taken cmd =>
    refine ⟨.process, s.handle cmd, rfl, by simp only [WalThread.step, hpc], ?_⟩
    have hround := roundLeft_handle h.running cmd
    rw [(handle_frame s cmd).2.2.1]
    simp only [roundLeft] at hround ⊢
    omega
  | timedOut =>
    have hrun : ¬ (!s.running && s.buffer.isEmpty) = true := by simp [h.running]
    refine ⟨.idle, { s with pc := .syncCheck }, rfl, ?_, ?_⟩
    · rw [WalThread.step, if_pos hpc, if_neg hrun]
    · simp only [roundLeft]
      omega
  | syncCheck =>
    refine ⟨.sync true, s.syncRound true, rfl, by rw [WalThread.step, if_pos hpc], ?_⟩
    rw [(syncRound_frame s true).2.2.1, (syncRound_frame s true).2.2.2.2.2]
    simp only [roundLeft]
    omega
  | exited => exact absurd hpc h.notExited

/-- A thread at rest takes a command, and then has it in its channel. -/
theorem sendCmd_of_atRest (hopen : s.closing = .live) (hrest : s.AtRest) {cmd : WalCmd}
    (hrecord : cmd.record?.isSome = true) :
    ∃ t, s.sendCmd cmd = some t ∧ t.queue = [cmd] := by
  have hroom : s.hasRoom = true := by
    unfold hasRoom
    split
    · simp [hrest.1, hrest.2]
    · rename_i hcap
      rw [hrest.2]
      exact decide_eq_true (Nat.pos_of_ne_zero hcap)
  have hsend : ∀ bytes, s.send cmd bytes = some { s with
      queue := s.queue ++ [cmd]
      pendingBytes := s.pendingBytes + bytes
      history := s.history ++ [cmd] } := fun bytes => if_pos ⟨hopen, hroom⟩
  have hqueue : s.queue ++ [cmd] = [cmd] := by rw [hrest.2, List.nil_append]
  cases cmd with
  | insert id record => exact ⟨_, hsend _, hqueue⟩
  | delete id => exact ⟨_, hsend _, hqueue⟩
  | flush reply => exact absurd hrecord (by simp [WalCmd.record?])
  | shutdown reply => exact absurd hrecord (by simp [WalCmd.record?])

end WalThread

/-! ## A call can return too early -/

namespace Caller
variable {σ ω : Type} {A : Sender σ ω} {base : Bytes} {s t : Caller σ}

/-- The file has the records of every call that has returned, each behind all that was sent before
it. -/
def AllInFile (base : Bytes) (s : Caller σ) : Prop :=
  ∀ c ∈ s.returned, records c.2 = [] ∨ base ++ encodeCmds (c.1 ++ c.2) <+: s.wal.file

theorem callsMade_append (as bs : List (CallerStep ω)) :
    callsMade (as ++ bs) = callsMade as ++ callsMade bs := List.filterMap_append

/-- Steps of the loop, with the caller standing still. -/
theorem exists_atRest (h : s.Running A base) :
    ∃ steps t, run (step A) s steps = some t ∧ callsMade steps = [] ∧ t.Running A base ∧
      t.store = s.store ∧ t.call = s.call ∧ t.returned = s.returned ∧ t.wal.AtRest := by
  have hnext : ∀ u : Caller σ,
      (u.Running A base ∧ u.store = s.store ∧ u.call = s.call ∧ u.returned = s.returned) →
      ¬ u.wal.AtRest → ∃ (a : CallerStep ω) (v : Caller σ), callsMade [a] = [] ∧
        step A u a = some v ∧
        (v.Running A base ∧ v.store = s.store ∧ v.call = s.call ∧ v.returned = s.returned) ∧
        4 * v.wal.queue.length + WalThread.roundLeft v.wal.pc
          < 4 * u.wal.queue.length + WalThread.roundLeft u.wal.pc := by
    rintro u ⟨hu, hstore, hcall, hret⟩ hnot
    obtain ⟨act, wal, hloop, hact, hlt⟩ := hu.live.nearer hnot
    have hstep : u.step A (.wal act) = some { u with wal } := by
      rw [Caller.step, if_pos (Or.inl hloop), hact]
      rfl
    exact ⟨.wal act, _, rfl, hstep, ⟨(hu.step hstep).1, hstore, hcall, hret⟩, hlt⟩
  obtain ⟨steps, t, hsteps, hrun, ⟨ht, hstore, hcall, hret⟩, hrest, -⟩ :=
    exists_run_of hnext ⟨h, rfl, rfl, rfl⟩
  refine ⟨steps, t, hrun, ?_, ht, hstore, hcall, hret, hrest⟩
  refine List.filterMap_eq_nil_iff.mpr fun a ha => ?_
  have hnone := hsteps a ha
  cases a with
  | call op => exact absurd hnone (List.cons_ne_nil _ _)
  | _ => rfl

/-- A call with something to send can send it all, and the last of it be still in the channel. -/
theorem exists_sent {before : List WalCmd} {cmd : WalCmd} {todo : List WalCmd}
    (hrecorded : ∀ c ∈ cmd :: todo, c.record?.isSome = true) :
    ∀ {s : Caller σ} {sent : List WalCmd}, s.Running A base → s.wal.AtRest →
      s.call = some { before, sent, todo := cmd :: todo } →
      ∃ steps t, run (step A) s steps = some t ∧ callsMade steps = [] ∧ t.Running A base ∧
        t.store = s.store ∧ t.returned = s.returned ∧
        t.call = some { before, sent := sent ++ cmd :: todo, todo := [] } ∧
        ∃ c, t.wal.queue = [c] ∧ c.record?.isSome = true := by
  induction todo generalizing cmd with
  | nil =>
    intro s sent h hrest hcall
    obtain ⟨wal, hsend, hqueue⟩ := WalThread.sendCmd_of_atRest h.opened hrest
      (hrecorded cmd (List.mem_singleton_self _))
    have hstep : s.step A .send
        = some { s with wal, call := some { before, sent := sent ++ [cmd], todo := [] } } := by
      simp only [Caller.step, hcall, hsend, Option.map_some]
    exact ⟨[.send], _, (run_cons_of_step hstep).trans (run_nil _), rfl, (h.step hstep).1, rfl, rfl,
      rfl, cmd, hqueue, hrecorded cmd (List.mem_singleton_self _)⟩
  | cons next todo ih =>
    intro s sent h hrest hcall
    obtain ⟨wal, hsend, -⟩ := WalThread.sendCmd_of_atRest h.opened hrest
      (hrecorded cmd List.mem_cons_self)
    have hstep : s.step A .send = some { s with
        wal, call := some { before, sent := sent ++ [cmd], todo := next :: todo } } := by
      simp only [Caller.step, hcall, hsend, Option.map_some]
    -- the loop writes this one out before the next is sent
    obtain ⟨waits, u, hwaits, hnone, hu, hstore, hcallu, hret, hrestu⟩ :=
      exists_atRest (h.step hstep).1
    obtain ⟨steps, t, hrun, hmade, ht, hstore', hret', hcall', hlast⟩ :=
      ih (fun c hc => hrecorded c (List.mem_cons_of_mem _ hc)) hu hrestu hcallu
    refine ⟨.send :: (waits ++ steps), t, ?_, ?_, ht, hstore'.trans hstore, hret'.trans hret, ?_,
      hlast⟩
    · rw [run_cons_of_step hstep, run_append hwaits, hrun]
    · show callsMade (waits ++ steps) = []
      rw [callsMade_append, hnone, hmade, List.append_nil]
    · rw [hcall', List.append_assoc, List.singleton_append]

/-! ## What is in the file when a sequence of calls returns -/

/-- In every interleaving of the calls, or a first part of them, with the thread: the records of the
calls that have returned are in the file. -/
def AlwaysInFile (A : Sender σ ω) (store : σ) (file : Bytes) (consistency : Consistency)
    (ops : List ω) : Prop :=
  ∀ (steps : List (CallerStep ω)) (s : Caller σ),
    run (step A) (start store file consistency) steps = some s → callsMade steps <+: ops →
    s.AllInFile (spawnFile file)

end Caller

/-- None of the calls sends a record; one that does not return ends the sequence. -/
def AllSilent {σ ω : Type} (perform : σ → ω → Option σ) (silent : σ → ω → Prop) :
    σ → List ω → Prop
  | _, [] => True
  | s, op :: ops => ∀ t, perform s op = some t → silent s op ∧ AllSilent perform silent t ops

/-- What `silent` says of a call is what the store does. -/
def Sender.TellsSilent {σ ω : Type} (A : Sender σ ω) (silent : σ → ω → Prop) : Prop :=
  ∀ s op t, A.logged s → A.perform s op = some t → (A.commands s op = [] ↔ silent s op)

theorem Sender.tellsSilent_of {σ ω : Type} {A : Sender σ ω} {silent : σ → ω → Prop}
    (h : ∀ s op t, A.logged s → A.perform s op = some t →
      ∃ cmds, A.sent t = A.sent s ++ cmds ∧ (cmds = [] ↔ silent s op)) : A.TellsSilent silent := by
  intro s op t hlogged hs
  obtain ⟨cmds, hsent, hiff⟩ := h s op t hlogged hs
  rw [A.commands_of_sent hs hsent]
  exact hiff

namespace Caller
variable {σ ω : Type} {A : Sender σ ω} {silent : σ → ω → Prop} {base : Bytes} {s t : Caller σ}

theorem step_call_of_perform {op : ω} {store : σ} (hcall : s.call = none)
    (hs : A.perform s.store op = some store) :
    s.step A (.call op) = some { s with
      store
      call := some { before := s.wal.history, sent := [], todo := A.commands s.store op } } := by
  simp only [Caller.step, hcall, hs]

theorem step_ret_of_done {before sent : List WalCmd}
    (hcall : s.call = some { before, sent, todo := [] }) :
    s.step A .ret = some { s with call := none, returned := s.returned ++ [(before, sent)] } := by
  simp only [Caller.step, hcall]

/-- **A call that sends a record can return too early.** -/
theorem exists_early_return (h : s.Running A base) (hrest : s.wal.AtRest) (hcall : s.call = none)
    {op : ω} {store : σ} (hperform : A.perform s.store op = some store)
    (hsends : A.commands s.store op ≠ []) :
    ∃ steps t, run (step A) s steps = some t ∧ callsMade steps = [op] ∧ ¬ t.AllInFile base := by
  have hrecorded := (sent_of_perform A h.logged hperform).2.2
  have hstep := step_call_of_perform hcall hperform
  obtain ⟨cmd, todo, htodo⟩ := List.exists_cons_of_ne_nil hsends
  rw [htodo] at hstep hrecorded
  obtain ⟨steps, t, hrun, hmade, ht, -, -, hcallt, c, hqueue, hc⟩ :=
    exists_sent hrecorded (h.step hstep).1 hrest rfl
  have hcalls : callsMade (steps ++ [.ret]) = [] := by
    rw [callsMade_append, hmade]
    rfl
  refine ⟨.call op :: (steps ++ [.ret]),
    { t with call := none, returned := t.returned ++ [(s.wal.history, [] ++ cmd :: todo)] },
    ?_, ?_, fun hall => ?_⟩
  · rw [run_cons_of_step hstep, run_append hrun, run_cons_of_step (step_ret_of_done hcallt),
      run_nil]
  · show op :: callsMade (steps ++ [.ret]) = [op]
    rw [hcalls]
  · have hlast := hall (s.wal.history, [] ++ cmd :: todo)
      (List.mem_append_right _ (List.mem_singleton_self _))
    rcases hlast with hnone | hin
    · have hgone := List.filterMap_eq_nil_iff.mp hnone cmd List.mem_cons_self
      exact absurd (hrecorded cmd List.mem_cons_self) (by simp [hgone])
    · -- the last record is in the channel, so not in the file
      have hhist : t.wal.history = s.wal.history ++ ([] ++ cmd :: todo) := ht.call _ hcallt
      have hall : base ++ encodeCmds t.wal.history <+: t.wal.file := hhist ▸ hin
      have hflight := ((WalThread.inFile_iff ht.live).mp hall).2
      rw [WalThread.inFlight_eq, hqueue] at hflight
      have hgone := List.filterMap_eq_nil_iff.mp hflight c
        (List.mem_append_right _ (List.mem_singleton_self _))
      exact absurd hc (by simp [hgone])

theorem allSilent_of_always (hA : A.TellsSilent silent) (ops : List ω) :
    ∀ {s : Caller σ}, s.Running A base → s.wal.AtRest → s.call = none →
      (∀ steps t, run (step A) s steps = some t → callsMade steps <+: ops → t.AllInFile base) →
      AllSilent A.perform silent s.store ops := by
  induction ops with
  | nil => exact fun _ _ _ _ => trivial
  | cons op ops ih =>
    intro s h hrest hcall halways store hperform
    have hnone : A.commands s.store op = [] := by
      by_contra hsends
      obtain ⟨steps, t, hrun, hmade, hnot⟩ := exists_early_return h hrest hcall hperform hsends
      exact hnot (halways steps t hrun (hmade ▸ ⟨ops, rfl⟩))
    refine ⟨(hA _ _ _ h.logged hperform).mp hnone, ?_⟩
    have hstep := step_call_of_perform hcall hperform
    rw [hnone] at hstep
    have hret := step_ret_of_done (A := A) (s := { s with
      store, call := some { before := s.wal.history, sent := [], todo := [] } }) rfl
    refine ih (((h.step hstep).1.step hret).1) hrest rfl fun steps t hrun hmade => ?_
    refine halways (.call op :: .ret :: steps) t ?_ ?_
    · rw [run_cons_of_step hstep, run_cons_of_step hret, hrun]
    · exact List.cons_prefix_cons.mpr ⟨rfl, hmade⟩

/-- Nothing has been sent by any call. -/
structure Quiet (s : Caller σ) : Prop where
  returned : ∀ c ∈ s.returned, c.2 = []
  call : ∀ c, s.call = some c → c.sent = [] ∧ c.todo = []

theorem Quiet.allInFile (h : s.Quiet) : s.AllInFile base := by
  intro c hc
  rw [h.returned c hc]
  exact Or.inl rfl

theorem Quiet.of_run (hA : A.TellsSilent silent) {steps : List (CallerStep ω)} :
    ∀ {s : Caller σ} {ops : List ω}, s.Running A base → s.Quiet →
      AllSilent A.perform silent s.store ops → run (step A) s steps = some t →
      callsMade steps <+: ops → t.Quiet := by
  induction steps with
  | nil =>
    intro s ops _ hq _ hrun _
    rw [run_nil, Option.some.injEq] at hrun
    exact hrun ▸ hq
  | cons a steps ih =>
    intro s ops h hq hsilent hrun hmade
    obtain ⟨u, hu, hrest⟩ := run_cons_inv hrun
    have hnext := (h.step hu).1
    cases a with
    | call op =>
      obtain ⟨store, hcall, hperform, rfl⟩ := step_call_inv hu
      obtain ⟨ops, rfl⟩ : ∃ ops', ops = op :: ops' := by
        obtain ⟨rest, rfl⟩ := hmade
        exact ⟨_, rfl⟩
      obtain ⟨hop, hops⟩ := hsilent store hperform
      refine ih hnext ⟨hq.returned, fun c hc => ?_⟩ hops hrest (List.cons_prefix_cons.mp hmade).2
      rw [← Option.some.inj hc]
      exact ⟨rfl, (hA _ _ _ h.logged hperform).mpr hop⟩
    | send =>
      obtain ⟨_, _, _, _, _, hcall, -, -⟩ := step_send_inv hu
      exact absurd (hq.call _ hcall).2 (List.cons_ne_nil _ _)
    | ret =>
      obtain ⟨before, sent, hcall, rfl⟩ := step_ret_inv hu
      refine ih hnext ⟨fun c hc => ?_, fun c hc => absurd hc (by simp)⟩ hsilent hrest hmade
      rcases List.mem_append.mp hc with hold | hnew
      · exact hq.returned c hold
      · rw [List.mem_singleton.mp hnew]
        exact (hq.call _ hcall).1
    | wal act =>
      obtain ⟨wal, -, -, rfl⟩ := step_wal_inv hu
      exact ih hnext ⟨hq.returned, hq.call⟩ hsilent hrest hmade

/-- Of a store that has sent nothing yet. -/
theorem alwaysInFile_iff (hA : A.TellsSilent silent) {store : σ} (hlogged : A.logged store)
    (hstore : A.sent store = []) (file : Bytes) (consistency : Consistency) (ops : List ω) :
    AlwaysInFile A store file consistency ops ↔ AllSilent A.perform silent store ops := by
  have hstart := start_running A hlogged hstore file consistency
  constructor
  · exact fun halways => allSilent_of_always hA ops hstart ⟨rfl, rfl⟩ rfl halways
  · intro hsilent steps s hrun hmade
    have hq : (start store file consistency).Quiet :=
      ⟨fun c hc => absurd hc List.not_mem_nil, fun c hc => absurd hc (by simp [start])⟩
    exact (Quiet.of_run hA hstart hq hsilent hrun hmade).allInFile

end Caller

/-! ## The three stores -/

namespace NodeStore
variable [Bincode Node]

/-- A call that sends no record: an id is handed out, or the node to change is not there. -/
def Silent (s : NodeStore) : NodeOp → Prop
  | .allocIdDirect => True
  | .updateLabels id _ _ | .updatePropsRow id _ | .setFirstOut id _ | .setFirstIn id _
  | .softDelete id _ => s.records.get id = none
  | .insertNode _ _ _ | .insertWithId _ _ _ _ | .hardDelete _ => False

theorem perform_silent {s : NodeStore} {w : WalLog} (hwal : s.wal = some w) (op : NodeOp) :
    ∃ cmds, s.toRecordStore.Logs (s.perform op).toRecordStore cmds ∧ (cmds = [] ↔ s.Silent op) := by
  have hmodify : ∀ (id : NodeId) (f : Node → Node), ∃ cmds,
      s.toRecordStore.Logs (s.toRecordStore.modify id f).1 cmds ∧
        (cmds = [] ↔ s.records.get id = none) := fun id f => by
    obtain ⟨cmds, -, hlogs⟩ := RecordStore.modify_logs_iff hwal id f
    exact ⟨cmds, hlogs⟩
  have hone : ∀ cmd : WalCmd, [cmd] = [] ↔ False := fun cmd => by simp
  cases op with
  | insertNode labels propsRow txId =>
    exact ⟨_, RecordStore.insert_logs hwal fun id => Node.new id labels propsRow txId, hone _⟩
  | allocIdDirect => exact ⟨[], RecordStore.allocId_logs hwal, iff_of_true rfl trivial⟩
  | insertWithId id labels propsRow txId =>
    exact ⟨_, RecordStore.insertWithId_logs hwal id (Node.new id labels propsRow txId), hone _⟩
  | updateLabels id labels txId => exact hmodify id _
  | updatePropsRow id propsRow => exact hmodify id _
  | setFirstOut id edgeId => exact hmodify id _
  | setFirstIn id edgeId => exact hmodify id _
  | softDelete id txId => exact hmodify id _
  | hardDelete id => exact ⟨_, RecordStore.hardDelete_logs hwal id, hone _⟩

theorem tellsSilent : nodeSender.TellsSilent NodeStore.Silent := by
  refine Sender.tellsSilent_of ?_
  rintro s op t ⟨w, hw⟩ hs
  obtain ⟨cmds, hlogs, hiff⟩ := perform_silent hw op
  exact ⟨cmds, Option.some.inj hs ▸ hlogs.sent, hiff⟩

end NodeStore

namespace EdgeStore
variable [Bincode Edge]

/-- A call that sends no record: an id is handed out, the edge to change is not there, or nothing
leads to the edge to unlink. -/
def Silent (s : EdgeStore) : EdgeCall → Prop
  | .op .allocIdDirect => True
  | .op (.linkIntoChains id _ _) | .op (.softDelete id _) => s.records.get id = none
  | .op (.insertEdge _ _ _ _ _) | .op (.insertWithId _ _ _ _ _ _) | .op (.hardDelete _) => False
  | .unlinkFromChains edgeId srcFirstOut dstFirstIn =>
    UnlinkSilent s edgeId srcFirstOut dstFirstIn

theorem performCall_silent {s t : EdgeStore} {w : WalLog} (hwal : s.wal = some w) {c : EdgeCall}
    (hs : s.performCall c = some t) :
    ∃ cmds, RecordStore.Logs s t cmds ∧ (cmds = [] ↔ Silent s c) := by
  have hone : ∀ cmd : WalCmd, [cmd] = [] ↔ False := fun cmd => by simp
  cases c with
  | unlinkFromChains edgeId srcFirstOut dstFirstIn =>
    obtain ⟨⟨u, head, head', found⟩, hunlink, rfl⟩ := Option.map_eq_some_iff.mp hs
    exact unlinkFromChains_logs hwal hunlink
  | op o =>
    obtain rfl := Option.some.inj hs
    cases o with
    | insertEdge src dst etype propsRow txId =>
      exact ⟨_, RecordStore.insert_logs hwal fun id => Edge.new id src dst etype propsRow txId,
        hone _⟩
    | allocIdDirect => exact ⟨[], RecordStore.allocId_logs hwal, iff_of_true rfl trivial⟩
    | insertWithId id src dst etype propsRow txId =>
      exact ⟨_, RecordStore.insertWithId_logs hwal id (Edge.new id src dst etype propsRow txId),
        hone _⟩
    | linkIntoChains newEdge srcFirstOut dstFirstIn =>
      obtain ⟨cmds, -, hlogs⟩ := RecordStore.modify_logs_iff hwal newEdge
        fun e => { e with nextOut := srcFirstOut, nextIn := dstFirstIn }
      rw [← EdgeStore.linkIntoChains_eq] at hlogs
      exact ⟨cmds, hlogs⟩
    | softDelete id txId =>
      obtain ⟨cmds, -, hlogs⟩ := RecordStore.modify_logs_iff hwal id
        fun e : Edge => { e with deletedTx := txId }
      exact ⟨cmds, hlogs⟩
    | hardDelete id => exact ⟨_, RecordStore.hardDelete_logs hwal id, hone _⟩

theorem tellsSilent : edgeSender.TellsSilent EdgeStore.Silent := by
  refine Sender.tellsSilent_of ?_
  rintro s op t ⟨w, hw⟩ hs
  obtain ⟨cmds, hlogs, hiff⟩ := performCall_silent hw hs
  exact ⟨cmds, hlogs.sent, hiff⟩

end EdgeStore

theorem PropStore.tellsSilent [Bincode (Option Value)] :
    propSender.TellsSilent PropStore.Silent := by
  refine Sender.tellsSilent_of ?_
  rintro s op t ⟨w, hw⟩ hs
  obtain ⟨cmds, hsends, hiff⟩ := PropStore.perform_sends hw op
  exact ⟨cmds, Option.some.inj hs ▸ hsends.sent, hiff⟩

/-- `Durability::Immediate`, with any capacity of the channel. -/
def immediateWith (walChannelCapacity : UInt64) : Consistency :=
  { durability := .immediate, walChannelCapacity }

/-- **What an immediate store has returned is always in the file**, of a sequence of calls, exactly
if none of them sends a record. -/
theorem immediate_durable_iff [Bincode Node] [Bincode Edge] [Bincode (Option Value)]
    (capacity : UInt64) :
    (∀ file s₀ ops, NodeStore.open file = .ok s₀ →
      (Caller.AlwaysInFile nodeSender s₀ file (immediateWith capacity) ops ↔
        AllSilent nodeSender.perform NodeStore.Silent s₀ ops)) ∧
    (∀ file s₀ ops, EdgeStore.open file = .ok s₀ →
      (Caller.AlwaysInFile edgeSender s₀ file (immediateWith capacity) ops ↔
        AllSilent edgeSender.perform EdgeStore.Silent s₀ ops)) ∧
    ∀ file s₀ ops, PropStore.open file = .ok s₀ →
      (Caller.AlwaysInFile propSender s₀ file (immediateWith capacity) ops ↔
        AllSilent propSender.perform PropStore.Silent s₀ ops) := by
  refine ⟨fun file s₀ ops h => ?_, fun file s₀ ops h => ?_, fun file s₀ ops h => ?_⟩
  · obtain ⟨hlogged, hsent⟩ := NodeStore.open_logged h
    exact Caller.alwaysInFile_iff NodeStore.tellsSilent hlogged hsent file _ ops
  · obtain ⟨hlogged, hsent⟩ := EdgeStore.open_logged h
    exact Caller.alwaysInFile_iff EdgeStore.tellsSilent hlogged hsent file _ ops
  · obtain ⟨hlogged, hsent⟩ := PropStore.open_logged h
    exact Caller.alwaysInFile_iff PropStore.tellsSilent hlogged hsent file _ ops

/-! ## One call -/

/-- A node is inserted, and the call returns while the record is in the channel. -/
def insertAndReturn : List (CallerStep NodeOp) := [.call (.insertNode [1] 0 1), .send, .ret]

theorem returned_not_in_file :
    ¬ ∀ (file : Bytes) (s₀ : NodeStore) (capacity : UInt64) (steps : List (CallerStep NodeOp))
      (s : Caller NodeStore), NodeStore.open file = .ok s₀ →
      run (Caller.step nodeSender) (Caller.start s₀ file (immediateWith capacity)) steps = some s →
      s.AllInFile (spawnFile file) := by
  intro h
  have hall := h [] _ 8 insertAndReturn _ NodeStore.open_nil rfl
  exact absurd (hall _ (List.mem_singleton_self _)) (by decide +kernel)

/-- Of an empty directory: an id is handed out and a node that is not there is deleted softly; or a
node is inserted. -/
theorem immediate_durable_iff_one :
    Caller.AlwaysInFile nodeSender NodeStore.fresh [] (immediateWith 8)
        [.allocIdDirect, .softDelete 3 1] ∧
      ¬ Caller.AlwaysInFile nodeSender NodeStore.fresh [] (immediateWith 8)
        [.allocIdDirect, .insertNode [1] 0 1] := by
  refine ⟨((immediate_durable_iff 8).1 [] _ _ NodeStore.open_nil).mpr ?_, fun halways => ?_⟩
  · intro t ht
    refine ⟨trivial, fun u hu => ⟨?_, trivial⟩⟩
    rw [← Option.some.inj ht]
    rfl
  · have hsilent := ((immediate_durable_iff 8).1 [] _ _ NodeStore.open_nil).mp halways
    exact (((hsilent _ rfl).2) _ rfl).1

end LightGraph
