import LightGraph.Proof.PropCells
import LightGraph.Proof.UnlinkLog
import LightGraph.Proof.WalThread
import LightGraph.Storage.Consistency

/-!
# A store, its WAL thread and the one that calls it

A call changes the store and hands its records to the thread, one after the other; then it returns.
The thread takes them when it gets to it. Between two calls the caller can flush.

What a store does is a parameter (`Sender`): its calls, and the commands it has sent. The thread
stays open in all of it, and what it has been sent is what the store says it has (`Running`).
-/

set_option autoImplicit false

namespace LightGraph

open Lib

/-- A store, seen by its WAL. -/
structure Sender (σ ω : Type) where
  /-- `none` where the call does not return -/
  perform : σ → ω → Option σ
  /-- it has a log -/
  logged : σ → Prop
  sent : σ → List WalCmd
  /-- a call sends inserts and deletes -/
  sends : ∀ s op t, logged s → perform s op = some t →
    logged t ∧ ∃ cmds, sent t = sent s ++ cmds ∧ ∀ cmd ∈ cmds, cmd.record?.isSome = true

namespace Sender
variable {σ ω : Type}

/-- The commands of one call. -/
def commands (A : Sender σ ω) (s : σ) (op : ω) : List WalCmd :=
  match A.perform s op with
  | none => []
  | some t => (A.sent t).drop (A.sent s).length

/-- A sequence of calls; `none` where one of them does not return. -/
def performAll (A : Sender σ ω) : σ → List ω → Option σ
  | s, [] => some s
  | s, op :: ops => (A.perform s op).bind fun t => A.performAll t ops

theorem commands_of_sent (A : Sender σ ω) {s t : σ} {op : ω} {cmds : List WalCmd}
    (hs : A.perform s op = some t) (hsent : A.sent t = A.sent s ++ cmds) :
    A.commands s op = cmds := by
  rw [Sender.commands, hs]
  dsimp only
  rw [hsent, List.drop_left]

end Sender

/-- A call under way: what the thread had been sent before it, what the call has sent, and what it
has yet to send. -/
structure StoreCall where
  before : List WalCmd
  sent : List WalCmd
  todo : List WalCmd

structure Caller (σ : Type) where
  store : σ
  wal : WalThread
  call : Option StoreCall
  /-- of each call that has returned, what had been sent before it and what it has sent -/
  returned : List (List WalCmd × List WalCmd)

inductive CallerStep (ω : Type)
  | call (op : ω)
  | send
  | ret
  /-- a step of the loop, or of a `flush` between two calls -/
  | wal (act : WalAct)

namespace Caller
variable {σ ω : Type}

def step (A : Sender σ ω) (s : Caller σ) : CallerStep ω → Option (Caller σ)
  | .call op =>
    match s.call, A.perform s.store op with
    | none, some store =>
      some { s with
        store, call := some { before := s.wal.history, sent := [], todo := A.commands s.store op } }
    | _, _ => none
  | .send =>
    match s.call with
    | some { before, sent, todo := cmd :: todo } =>
      (s.wal.sendCmd cmd).map fun wal =>
        { s with wal, call := some { before, sent := sent ++ [cmd], todo } }
    | _ => none
  | .ret =>
    match s.call with
    | some { before, sent, todo := [] } =>
      some { s with call := none, returned := s.returned ++ [(before, sent)] }
    | _ => none
  | .wal act =>
    if act.ofLoop ∨ (act.ofFlush ∧ s.call.isNone) then (s.wal.step act).map ({ s with wal := · })
    else none

/-- A store and its thread, just opened. -/
def start (store : σ) (file : Bytes) (consistency : Consistency) : Caller σ :=
  { store, wal := .spawnWith file consistency, call := none, returned := [] }

/-- The calls of a schedule, in their order. -/
def callsMade (steps : List (CallerStep ω)) : List ω :=
  steps.filterMap fun
    | .call op => some op
    | _ => none

end Caller

/-! ## The file grows -/

namespace WalThread
variable {s t : WalThread}

theorem flushAndSync_grows (s : WalThread) : s.file <+: s.flushAndSync.file := by
  rw [flushAndSync_file]
  exact List.prefix_append _ _

theorem handle_grows (s : WalThread) (cmd : WalCmd) : s.file <+: (s.handle cmd).file := by
  unfold handle
  split
  · exact flushAndSync_grows s
  · cases cmd with
    | insert id record => exact List.prefix_rfl
    | delete id => exact List.prefix_rfl
    | flush reply => exact flushAndSync_grows s
    | shutdown reply => exact flushAndSync_grows s

theorem syncRound_grows (s : WalThread) (timedOut : Bool) :
    s.file <+: (s.syncRound timedOut).file := by
  unfold syncRound
  dsimp only
  split
  · exact flushAndSync_grows s
  · exact List.prefix_rfl

/-- A step of the loop or of a flush: nothing is taken out of the file, the history grows by a
flush at most, and the thread stays open. -/
theorem step_own {act : WalAct} (hact : act.ofLoop = true ∨ act.ofFlush = true)
    (hs : s.step act = some t) :
    s.file <+: t.file ∧ t.closing = s.closing ∧
      (act.ofFlush = false → t.history = s.history) ∧ records t.history = records s.history := by
  have hnone : ∀ {act : WalAct}, act.ofLoop = false → act.ofFlush = false →
      ¬ (act.ofLoop = true ∨ act.ofFlush = true) := by
    intro act hloop hflush
    simp [hloop, hflush]
  cases step_cases hs with
  | recvCmd => exact ⟨List.prefix_rfl, rfl, fun _ => rfl, rfl⟩
  | recvTimeout => exact ⟨List.prefix_rfl, rfl, fun _ => rfl, rfl⟩
  | process =>
    exact ⟨handle_grows s _, handle_closing s _, fun _ => handle_history s _,
      congrArg records (handle_history s _)⟩
  | exits => exact ⟨List.prefix_rfl, rfl, fun _ => rfl, rfl⟩
  | idles => exact ⟨List.prefix_rfl, rfl, fun _ => rfl, rfl⟩
  | sync =>
    exact ⟨syncRound_grows s _, syncRound_closing s _, fun _ => syncRound_history s _,
      congrArg records (syncRound_history s _)⟩
  | flushSend =>
    refine ⟨List.prefix_rfl, rfl, fun h => absurd h (by simp [WalAct.ofFlush]), ?_⟩
    exact (records_append _ _).trans (List.append_nil _)
  | flushReturn =>
    exact ⟨List.prefix_rfl, rfl, fun h => absurd h (by simp [WalAct.ofFlush]), rfl⟩
  -- the others are steps of another call
  | _ => exact absurd hact (hnone rfl rfl)

theorem sendCmd_eq_some {cmd : WalCmd} (hs : s.sendCmd cmd = some t) :
    t.file = s.file ∧ t.closing = s.closing ∧ t.history = s.history ++ [cmd] ∧
      ∃ act, s.step act = some t := by
  cases cmd with
  | insert id record =>
    obtain ⟨-, rfl⟩ := send_cases hs
    exact ⟨rfl, rfl, rfl, .sendInsert id record, hs⟩
  | delete id =>
    obtain ⟨-, rfl⟩ := send_cases hs
    exact ⟨rfl, rfl, rfl, .sendDelete id, hs⟩
  | flush reply => exact absurd hs (by simp [sendCmd])
  | shutdown reply => exact absurd hs (by simp [sendCmd])

end WalThread

/-! ## Runs -/

namespace Caller
variable {σ ω : Type} {A : Sender σ ω} {base : Bytes} {s t : Caller σ} {a : CallerStep ω}

/-- The thread is live, and has been sent what the store says it sends. -/
structure Running (A : Sender σ ω) (base : Bytes) (s : Caller σ) : Prop where
  logged : A.logged s.store
  live : s.wal.Live base
  opened : s.wal.closing = .live
  call : ∀ c, s.call = some c → s.wal.history = c.before ++ c.sent
  sent : records (A.sent s.store)
    = records s.wal.history ++ (s.call.map fun c => records c.todo).getD []

theorem sent_of_perform (A : Sender σ ω) {s t : σ} {op : ω} (hlogged : A.logged s)
    (hs : A.perform s op = some t) : A.logged t ∧ A.sent t = A.sent s ++ A.commands s op ∧
      ∀ cmd ∈ A.commands s op, cmd.record?.isSome = true := by
  obtain ⟨ht, cmds, hsent, hrecorded⟩ := A.sends s op t hlogged hs
  rw [A.commands_of_sent hs hsent]
  exact ⟨ht, hsent, hrecorded⟩

theorem step_call_inv {op : ω} (hs : s.step A (.call op) = some t) :
    ∃ store, s.call = none ∧ A.perform s.store op = some store ∧
      t = { s with
        store
        call := some { before := s.wal.history, sent := [], todo := A.commands s.store op } } := by
  rw [Caller.step] at hs
  split at hs
  · rename_i store hcall hperform
    exact ⟨store, hcall, hperform, (Option.some.inj hs).symm⟩
  · exact absurd hs (by simp)

theorem step_send_inv (hs : s.step A .send = some t) : ∃ before sent cmd todo wal,
    s.call = some { before, sent, todo := cmd :: todo } ∧ s.wal.sendCmd cmd = some wal ∧
      t = { s with wal, call := some { before, sent := sent ++ [cmd], todo } } := by
  rw [Caller.step] at hs
  split at hs
  · rename_i before sent cmd todo hcall
    obtain ⟨wal, hwal, rfl⟩ := Option.map_eq_some_iff.mp hs
    exact ⟨before, sent, cmd, todo, wal, hcall, hwal, rfl⟩
  · exact absurd hs (by simp)

theorem step_ret_inv (hs : s.step A .ret = some t) : ∃ before sent,
    s.call = some { before, sent, todo := [] } ∧
      t = { s with call := none, returned := s.returned ++ [(before, sent)] } := by
  rw [Caller.step] at hs
  split at hs
  · rename_i before sent hcall
    exact ⟨before, sent, hcall, (Option.some.inj hs).symm⟩
  · exact absurd hs (by simp)

theorem step_wal_inv {act : WalAct} (hs : s.step A (.wal act) = some t) : ∃ wal,
    (act.ofLoop = true ∨ act.ofFlush = true ∧ s.call.isNone = true) ∧
      s.wal.step act = some wal ∧ t = { s with wal } := by
  rw [Caller.step] at hs
  split at hs
  · rename_i hact
    obtain ⟨wal, hwal, rfl⟩ := Option.map_eq_some_iff.mp hs
    exact ⟨wal, hact, hwal, rfl⟩
  · exact absurd hs (by simp)

/-- **A step** of the caller or of the thread. -/
theorem Running.step (h : s.Running A base) (hs : s.step A a = some t) :
    t.Running A base ∧ s.wal.file <+: t.wal.file := by
  cases a with
  | call op =>
    obtain ⟨store, hcall, hperform, rfl⟩ := step_call_inv hs
    obtain ⟨hlogged, hsends, -⟩ := sent_of_perform A h.logged hperform
    refine ⟨⟨hlogged, h.live, h.opened, fun c hc => ?_, ?_⟩, List.prefix_rfl⟩
    · rw [← Option.some.inj hc]
      exact (List.append_nil _).symm
    · have hsent := h.sent
      rw [hcall, Option.map_none, Option.getD_none, List.append_nil] at hsent
      show records (A.sent store) = _
      rw [hsends, records_append, hsent]
      rfl
  | send =>
    obtain ⟨before, sent, cmd, todo, wal, hcall, hwal, rfl⟩ := step_send_inv hs
    obtain ⟨hfile, hclosing, hhist, act, hact⟩ := WalThread.sendCmd_eq_some hwal
    have hopen : wal.closing = .live := hclosing.trans h.opened
    refine ⟨⟨h.logged, h.live.step h.opened hact hopen, hopen, fun c hc => ?_, ?_⟩, ?_⟩
    · rw [← Option.some.inj hc]
      show wal.history = before ++ (sent ++ [cmd])
      rw [hhist, h.call _ hcall, List.append_assoc]
    · have hsent := h.sent
      rw [hcall] at hsent
      show records (A.sent s.store) = records wal.history ++ records todo
      rw [hsent, hhist, records_append, List.append_assoc, ← records_append]
      rfl
    · show s.wal.file <+: wal.file
      rw [hfile]
  | ret =>
    obtain ⟨before, sent, hcall, rfl⟩ := step_ret_inv hs
    refine ⟨⟨h.logged, h.live, h.opened, fun c hc => absurd hc (by simp), ?_⟩, List.prefix_rfl⟩
    have hsent := h.sent
    rw [hcall] at hsent
    exact hsent
  | wal act =>
    obtain ⟨wal, hact, hwal, rfl⟩ := step_wal_inv hs
    obtain ⟨hfile, hclosing, hhist, hrec⟩ := WalThread.step_own (hact.imp_right And.left) hwal
    have hopen : wal.closing = .live := hclosing.trans h.opened
    refine ⟨⟨h.logged, h.live.step h.opened hwal hopen, hopen, fun c hc => ?_, ?_⟩, hfile⟩
    · have hc' : s.call = some c := hc
      have hflush : act.ofFlush = false := by
        rcases hact with hloop | ⟨-, hnone⟩
        · cases act with
          | flushSend => exact absurd hloop (by simp [WalAct.ofLoop])
          | flushReturn reply => exact absurd hloop (by simp [WalAct.ofLoop])
          | _ => rfl
        · rw [hc'] at hnone
          exact absurd hnone (by simp)
      exact (hhist hflush).trans (h.call c hc')
    · show records (A.sent s.store) = records wal.history ++ _
      rw [hrec]
      exact h.sent

theorem start_running (A : Sender σ ω) {store : σ} (hlogged : A.logged store)
    (hstore : A.sent store = []) (file : Bytes) (consistency : Consistency) :
    (start store file consistency).Running A (spawnFile file) := by
  refine ⟨hlogged, WalThread.Live.spawn _ _ _, rfl, fun c hc => absurd hc (by simp [start]), ?_⟩
  show records (A.sent store) = [] ++ []
  rw [hstore]
  rfl

theorem Running.of_run {store : σ} {file : Bytes} {consistency : Consistency}
    {steps : List (CallerStep ω)} (hlogged : A.logged store) (hstore : A.sent store = [])
    (hrun : run (Caller.step A) (start store file consistency) steps = some s) :
    s.Running A (spawnFile file) :=
  run_invariant (fun _ _ _ h hs => (h.step hs).1) (start_running A hlogged hstore file consistency)
    hrun

/-- What the store has done is what was called. -/
theorem store_of_run {steps : List (CallerStep ω)} : ∀ {s : Caller σ},
    run (step A) s steps = some t → A.performAll s.store (callsMade steps) = some t.store := by
  induction steps with
  | nil =>
    intro s h
    rw [run_nil, Option.some.injEq] at h
    rw [← h]
    rfl
  | cons a steps ih =>
    intro s h
    obtain ⟨u, hu, hrest⟩ := run_cons_inv h
    have hlast := ih hrest
    have hsame : ∀ {act : CallerStep ω}, u.store = s.store →
        callsMade (act :: steps) = callsMade steps →
        A.performAll s.store (callsMade (act :: steps)) = some t.store := by
      intro act hstore hcalls
      rw [hcalls, ← hstore, hlast]
    cases a with
    | call op =>
      obtain ⟨store, -, hperform, rfl⟩ := step_call_inv hu
      show A.performAll s.store (op :: callsMade steps) = _
      rw [Sender.performAll, hperform]
      exact hlast
    | send =>
      obtain ⟨_, _, _, _, wal, -, -, rfl⟩ := step_send_inv hu
      exact hsame rfl rfl
    | ret =>
      obtain ⟨_, _, -, rfl⟩ := step_ret_inv hu
      exact hsame rfl rfl
    | wal act =>
      obtain ⟨wal, -, -, rfl⟩ := step_wal_inv hu
      exact hsame rfl rfl

/-- What the thread has done is a run of the thread. -/
theorem wal_of_run {steps : List (CallerStep ω)} : ∀ {s : Caller σ},
    run (step A) s steps = some t → ∃ acts, run WalThread.step s.wal acts = some t.wal := by
  induction steps with
  | nil =>
    intro s h
    rw [run_nil, Option.some.injEq] at h
    exact ⟨[], by rw [h]; rfl⟩
  | cons a steps ih =>
    intro s h
    obtain ⟨u, hu, hrest⟩ := run_cons_inv h
    obtain ⟨acts, hacts⟩ := ih hrest
    cases a with
    | call op =>
      obtain ⟨store, -, -, rfl⟩ := step_call_inv hu
      exact ⟨acts, hacts⟩
    | send =>
      obtain ⟨_, _, _, _, wal, -, hwal, rfl⟩ := step_send_inv hu
      obtain ⟨-, -, -, act, hact⟩ := WalThread.sendCmd_eq_some hwal
      exact ⟨act :: acts, (run_cons_of_step hact).trans hacts⟩
    | ret =>
      obtain ⟨_, _, -, rfl⟩ := step_ret_inv hu
      exact ⟨acts, hacts⟩
    | wal act =>
      obtain ⟨wal, -, hwal, rfl⟩ := step_wal_inv hu
      exact ⟨act :: acts, (run_cons_of_step hwal).trans hacts⟩

end Caller

/-! ## The three stores -/

theorem RecordStore.Logs.sends {ρ : Type} [Bincode ρ] {s t : RecordStore ρ} {cmds : List WalCmd}
    (h : s.Logs t cmds) : (∃ w, t.wal = some w) ∧
      ∃ cmds, t.sent = s.sent ++ cmds ∧ ∀ cmd ∈ cmds, cmd.record?.isSome = true :=
  ⟨h.isSome, cmds, h.sent, h.recorded⟩

def nodeSender [Bincode Node] : Sender NodeStore NodeOp where
  perform s op := some (s.perform op)
  logged s := ∃ w, s.wal = some w
  sent s := s.toRecordStore.sent
  sends s op t := by
    rintro ⟨w, hw⟩ hs
    obtain ⟨cmds, -, hlogs⟩ := NodeStore.perform_logs hw op
    exact Option.some.inj hs ▸ hlogs.sends

def edgeSender [Bincode Edge] : Sender EdgeStore EdgeCall where
  perform := EdgeStore.performCall
  logged s := ∃ w, s.wal = some w
  sent s := RecordStore.sent s
  sends s c t := by
    rintro ⟨w, hw⟩ hs
    obtain ⟨cmds, hlogs⟩ := EdgeStore.performCall_logs hw hs
    exact hlogs.sends

section Props
variable [Bincode (Option Value)]

/-- From `s` to `t` these commands were sent, one for each cell that was written. -/
structure PropStore.Sends (s t : PropStore) (cmds : List WalCmd) : Prop where
  wal : ∃ w, s.wal = some w ∧ t.wal = some { w with sent := w.sent ++ cmds }
  recorded : ∀ cmd ∈ cmds, cmd.record?.isSome = true

namespace PropStore
variable {s t u : PropStore} {w : WalLog} {cs ds : List WalCmd}

omit [Bincode (Option Value)] in
theorem Sends.refl (hw : s.wal = some w) : s.Sends s [] := by
  refine ⟨⟨w, hw, ?_⟩, fun _ hcmd => absurd hcmd List.not_mem_nil⟩
  rw [List.append_nil]
  exact hw

omit [Bincode (Option Value)] in
theorem Sends.trans (h : s.Sends t cs) (h' : t.Sends u ds) : s.Sends u (cs ++ ds) := by
  obtain ⟨w, hs, ht⟩ := h.wal
  obtain ⟨w', ht', hu⟩ := h'.wal
  rw [ht, Option.some.injEq] at ht'
  subst ht'
  refine ⟨⟨w, hs, ?_⟩, List.forall_mem_append.mpr ⟨h.recorded, h'.recorded⟩⟩
  rw [hu, List.append_assoc]

omit [Bincode (Option Value)] in
theorem Sends.sent (h : s.Sends t cs) : t.sent = s.sent ++ cs := by
  obtain ⟨w, hs, ht⟩ := h.wal
  rw [PropStore.sent, PropStore.sent, hs, ht]
  rfl

theorem insertProp_sends (hw : s.wal = some w) (label : LabelId) (prop : String) (row : UInt32)
    (value : Option Value) : ∃ cmd, s.Sends (s.insertProp label prop row value) [cmd] := by
  refine ⟨.insert label.toUInt64 (cellHeader label prop row ++ Bincode.bytes value),
    ⟨w, hw, ?_⟩, by simp [WalCmd.record?]⟩
  have hput : ({ s with columns := s.columns.putCell label prop row value } : PropStore).wal
      = some w := hw
  exact walSendCell_wal hput label prop row value

/-- The loop of `insert_row` sends a record for each property. -/
theorem foldl_insertProp_sends (label : LabelId) (row : UInt32) (props : List (String × Value)) :
    ∀ {s : PropStore} {w : WalLog}, s.wal = some w →
    ∃ cmds, cmds.length = props.length ∧
      s.Sends (props.foldl (fun s p => s.insertProp label p.1 row (some p.2)) s) cmds := by
  induction props with
  | nil => exact fun hw => ⟨[], rfl, .refl hw⟩
  | cons p props ih =>
    intro s w hw
    obtain ⟨cmd, hone⟩ := insertProp_sends hw label p.1 row (some p.2)
    obtain ⟨w', -, hw'⟩ := hone.wal
    obtain ⟨cmds, hlen, hrest⟩ := ih hw'
    exact ⟨cmd :: cmds, by rw [List.length_cons, hlen, List.length_cons], hone.trans hrest⟩

/-- A call that sends no record: no row, or nothing to put into one. -/
def Silent (s : PropStore) : PropOp → Prop
  | .insertProp _ _ _ _ => False
  | .setProp label prop row _ => ¬ s.HasRow label prop row
  | .insertRow _ props => props = []

theorem perform_sends (hw : s.wal = some w) (op : PropOp) :
    ∃ cmds, s.Sends (s.perform op) cmds ∧ (cmds = [] ↔ s.Silent op) := by
  cases op with
  | insertProp label prop row value =>
    obtain ⟨cmd, hone⟩ := insertProp_sends hw label prop row value
    exact ⟨[cmd], hone, iff_of_false (List.cons_ne_nil _ _) id⟩
  | setProp label prop row value =>
    by_cases hrow : s.HasRow label prop row
    · obtain ⟨cmd, hone⟩ := insertProp_sends hw label prop row value
      refine ⟨[cmd], ?_, iff_of_false (List.cons_ne_nil _ _) (not_not_intro hrow)⟩
      rw [PropStore.perform, setProp_of_hasRow hrow]
      exact hone
    · have hwal := (setProp_of_not_hasRow hrow value).2
      refine ⟨[], ⟨⟨w, hw, ?_⟩, by simp⟩, iff_of_true rfl hrow⟩
      rw [PropStore.perform, hwal, List.append_nil]
      exact hw
  | insertRow label props =>
    have halloc : (s.allocRow label).2.wal = some w := hw
    obtain ⟨cmds, hlen, hsends⟩ := foldl_insertProp_sends label (s.allocRow label).1 props halloc
    have hwal : s.Sends (s.perform (.insertRow label props)) cmds := by
      obtain ⟨w', hw', hafter⟩ := hsends.wal
      exact ⟨⟨w', hw', hafter⟩, hsends.recorded⟩
    refine ⟨cmds, hwal, ?_⟩
    rw [Silent, ← List.length_eq_zero_iff, hlen, List.length_eq_zero_iff]

end PropStore

def propSender : Sender PropStore PropOp where
  perform s op := some (s.perform op)
  logged s := ∃ w, s.wal = some w
  sent := PropStore.sent
  sends s op t := by
    rintro ⟨w, hw⟩ hs
    obtain ⟨cmds, hsends, -⟩ := PropStore.perform_sends hw op
    obtain ⟨w', -, ht⟩ := hsends.wal
    exact Option.some.inj hs ▸ ⟨⟨_, ht⟩, cmds, hsends.sent, hsends.recorded⟩

theorem PropStore.open_logged {file : Bytes} {s : PropStore} (h : PropStore.open file = .ok s) :
    (∃ w, s.wal = some w) ∧ s.sent = [] := by
  unfold PropStore.open at h
  split at h
  · exact absurd h (by simp)
  · rw [← Except.ok.inj h]
    exact ⟨⟨_, rfl⟩, rfl⟩

end Props

theorem RecordStore.openReplay_logged {ρ : Type} [Bincode ρ] {file : Bytes} {s : RecordStore ρ}
    {n : UInt64} (h : RecordStore.openReplay file = .ok (s, n)) :
    (∃ w, s.wal = some w) ∧ s.sent = [] := by
  unfold RecordStore.openReplay at h
  split at h
  · exact absurd h (by simp)
  · obtain ⟨rfl, -⟩ := Prod.mk.inj (Except.ok.inj h)
    exact ⟨⟨_, rfl⟩, rfl⟩

theorem NodeStore.open_logged [Bincode Node] {file : Bytes} {s : NodeStore}
    (h : NodeStore.open file = .ok s) : (∃ w, s.wal = some w) ∧ s.toRecordStore.sent = [] := by
  unfold NodeStore.open at h
  split at h
  · exact absurd h (by simp)
  · rename_i hopen
    rw [← Except.ok.inj h]
    exact RecordStore.openReplay_logged hopen

theorem EdgeStore.open_logged [Bincode Edge] {file : Bytes} {s : EdgeStore}
    (h : EdgeStore.open file = .ok s) : (∃ w, s.wal = some w) ∧ RecordStore.sent s = [] := by
  unfold EdgeStore.open at h
  split at h
  · exact absurd h (by simp)
  · rename_i hopen
    rw [← Except.ok.inj h]
    exact RecordStore.openReplay_logged hopen

end LightGraph
