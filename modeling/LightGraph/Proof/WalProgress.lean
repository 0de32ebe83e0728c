import LightGraph.Lib.Progress
import LightGraph.Proof.WalThread

/-!
# How long the WAL thread keeps anybody waiting

What the loop does to its commands is in `Proof/WalThread.lean`; here is how much of it there can be
before somebody gets what he waits for. A caller of `flush` waits for the commands in front of his,
three rounds' parts for each, and the channel's capacity bounds how many there are
(`flush_answered`). A caller of `shutdown` or `drop` waits for what the loop is doing at the
moment, which is eight steps at most, and the clock's rounds; a `shutdown` whose command the loop
has left in the channel waits for ever (`closing_ends`). And what has not reached the file is
bounded at all times: less than a batch, and what the channel and the two ends of it hold
(`loss_window`).
-/

set_option autoImplicit false

namespace LightGraph

open Lib

namespace WalThread

/-! ## The channel stays within its capacity -/

@[simp] theorem flushAndSync_channelCap (s : WalThread) :
    s.flushAndSync.channelCap = s.channelCap := by
  unfold flushAndSync
  split <;> rfl

@[simp] theorem flushAndSync_batchSize (s : WalThread) :
    s.flushAndSync.batchSize = s.batchSize := by
  unfold flushAndSync
  split <;> rfl

/-- What the arm of a command leaves alone, and where it goes. -/
theorem handle_frame (s : WalThread) (cmd : WalCmd) :
    (s.handle cmd).channelCap = s.channelCap ∧ (s.handle cmd).batchSize = s.batchSize ∧
    (s.handle cmd).queue = s.queue ∧ (s.handle cmd).flushing = s.flushing := by
  unfold handle
  split
  · simp
  · cases cmd with
    | insert id record => simp
    | delete id => simp
    | flush reply => simp
    | shutdown reply => simp

theorem syncRound_frame (s : WalThread) (timedOut : Bool) :
    (s.syncRound timedOut).channelCap = s.channelCap ∧
    (s.syncRound timedOut).batchSize = s.batchSize ∧
    (s.syncRound timedOut).queue = s.queue ∧ (s.syncRound timedOut).flushing = s.flushing ∧
    (s.syncRound timedOut).replies = s.replies ∧ (s.syncRound timedOut).pc = .recv := by
  unfold syncRound
  dsimp only
  split
  · simp
  · simp

/-- The two sizes a thread is spawned with stay. -/
theorem step_sizes {s t : WalThread} {a : WalAct} (hs : s.step a = some t) :
    t.channelCap = s.channelCap ∧ t.batchSize = s.batchSize := by
  cases step_cases hs with
  | process => exact ⟨(handle_frame s _).1, (handle_frame s _).2.1⟩
  | sync => exact ⟨(syncRound_frame s _).1, (syncRound_frame s _).2.1⟩
  | _ => exact ⟨rfl, rfl⟩

/-- Where there is room the channel has not reached its capacity; one of capacity zero takes a
single command. -/
theorem queue_of_hasRoom {s : WalThread} (h : s.hasRoom = true) :
    s.queue.length + 1 ≤ max s.channelCap 1 := by
  unfold hasRoom at h
  split at h
  · rw [Bool.and_eq_true, List.isEmpty_iff] at h
    rw [h.1, List.length_nil]
    exact Nat.le_max_right _ _
  · exact Nat.le_trans (of_decide_eq_true h) (Nat.le_max_left _ _)

theorem send_queue {s t : WalThread} {cmd : WalCmd} {bytes : UInt64}
    (h : s.send cmd bytes = some t) : t.queue.length ≤ max s.channelCap 1 := by
  unfold send at h
  split at h
  · rename_i hcond
    rw [← Option.some.inj h, List.length_append]
    exact queue_of_hasRoom hcond.2
  · exact absurd h (by simp)

/-- Whoever puts a command into the channel has found room for it. -/
theorem step_queue {s t : WalThread} {a : WalAct} (hs : s.step a = some t)
    (h : s.queue.length ≤ max s.channelCap 1) : t.queue.length ≤ max s.channelCap 1 := by
  cases a with
  | sendInsert id record => exact send_queue hs
  | sendDelete id => exact send_queue hs
  | flushSend =>
    obtain ⟨u, hu, rfl⟩ := Option.map_eq_some_iff.mp hs
    exact send_queue (t := u) hu
  | recvCmd =>
    cases step_cases hs with
    | recvCmd hpc hqueue =>
      rw [hqueue, List.length_cons] at h
      exact Nat.le_of_succ_le h
  | process =>
    cases step_cases hs with
    | process =>
      rw [(handle_frame s _).2.2.1]
      exact h
  | sync timedOut =>
    cases step_cases hs with
    | sync =>
      rw [(syncRound_frame s _).2.2.1]
      exact h
  | shutdownSend =>
    simp only [step] at hs
    split at hs
    · split at hs
      · exact Option.some.inj hs ▸ h
      · split at hs
        · rename_i hroom
          rw [← Option.some.inj hs, List.length_append]
          exact queue_of_hasRoom hroom
        · exact absurd hs (by simp)
    · exact absurd hs (by simp)
  | dropWake =>
    simp only [step] at hs
    split at hs
    · split at hs
      · rename_i hroom
        rw [← Option.some.inj hs, List.length_append]
        exact queue_of_hasRoom hroom.2
      · exact Option.some.inj hs ▸ h
    · exact absurd hs (by simp)
  | flushReturn reply => cases step_cases hs with | flushReturn => exact h
  | recvTimeout => cases step_cases hs with | recvTimeout => exact h
  | idle =>
    cases step_cases hs with
    | exits => exact h
    | idles => exact h
  | shutdown => cases step_cases hs with | shutdown => exact h
  | shutdownReply => cases step_cases hs with | shutdownReply => exact h
  | drop => cases step_cases hs with | drop => exact h
  | join => cases step_cases hs with | join => exact h

/-! ## A flush is answered -/

/-- What holds of a thread from its start on, for the callers that wait. -/
structure Serving (base : Bytes) (cap : Nat) (s : WalThread) : Prop where
  live : s.closing = .live → Live base s
  /-- nobody closes a thread under a flush -/
  open_of_flushing : ∀ reply ∈ s.flushing, s.closing = .live
  capacity : s.channelCap = cap
  room : s.queue.length ≤ max cap 1
  /-- a flush that has not been answered is on its way -/
  asked : ∀ reply ∈ s.flushing, reply ∈ s.replies ∨ .flush reply ∈ s.inFlight

theorem Serving.spawn (existing : Bytes) (batchSize channelCap : Nat) :
    Serving (spawnFile existing) channelCap (spawn existing batchSize channelCap) where
  live := fun _ => Live.spawn existing batchSize channelCap
  open_of_flushing := by simp [WalThread.spawn]
  capacity := rfl
  room := Nat.zero_le _
  asked := by simp [WalThread.spawn]

/-- An answer is not taken back. -/
theorem step_replies {s t : WalThread} {a : WalAct} (hs : s.step a = some t) {reply : Nat}
    (h : reply ∈ s.replies) : reply ∈ t.replies := by
  cases step_cases hs with
  | process =>
    unfold handle
    split
    · simpa using h
    · rename_i cmd _ _
      cases cmd with
      | insert id record => exact h
      | delete id => exact h
      | flush r => simp [h]
      | shutdown r => simp [h]
  | sync =>
    rw [(syncRound_frame s _).2.2.2.2.1]
    exact h
  | _ => exact h

/-- What the arm of a command does with a flush that is in flight. -/
theorem handle_flush {s : WalThread} {cmd : WalCmd} {reply : Nat} (hpc : s.pc = .taken cmd)
    (hrun : s.running = true) (h : .flush reply ∈ s.inFlight) :
    reply ∈ (s.handle cmd).replies ∨
      cmd ≠ .flush reply ∧ (s.handle cmd).inFlight = s.queue ∧ .flush reply ∈ s.queue := by
  have hflight : s.inFlight = cmd :: s.queue := by rw [inFlight_eq, hand, hpc]; rfl
  by_cases hcmd : cmd = .flush reply
  · subst hcmd
    left
    unfold handle
    rw [if_neg (by simp [hrun])]
    simp
  · right
    refine ⟨hcmd, ?_, ?_⟩
    · unfold handle
      rw [if_neg (by simp [hrun])]
      cases cmd with
      | insert id record => rfl
      | delete id => rfl
      | flush r => simp [inFlight]
      | shutdown r => simp [inFlight]
    · rw [hflight, List.mem_cons] at h
      exact h.resolve_left fun heq => hcmd heq.symm

theorem inFlight_syncRound {s : WalThread} (hpc : s.pc = .syncCheck) (timedOut : Bool) :
    (s.syncRound timedOut).inFlight = s.inFlight := by
  rw [inFlight, inFlight, (syncRound_frame s timedOut).2.2.2.2.2, hpc,
    (syncRound_frame s timedOut).2.2.1]

section Flush
variable {base : Bytes} {cap : Nat} {s t : WalThread}

theorem mem_inFlight_snoc {cmd c : WalCmd} (hpc : t.pc = s.pc)
    (hqueue : t.queue = s.queue ++ [cmd]) (h : c ∈ s.inFlight) : c ∈ t.inFlight := by
  rw [inFlight_snoc hpc hqueue]
  exact List.mem_append_left _ h

theorem snoc_mem_inFlight {cmd : WalCmd} (hpc : t.pc = s.pc)
    (hqueue : t.queue = s.queue ++ [cmd]) : cmd ∈ t.inFlight := by
  rw [inFlight_snoc hpc hqueue]
  exact List.mem_append_right _ (List.mem_singleton_self _)

theorem Serving.step (h : Serving base cap s) {a : WalAct} (hs : s.step a = some t) :
    Serving base cap t := by
  have hsizes := step_sizes hs
  have hlive : t.closing = .live → Live base t := fun ht =>
    (h.live (step_closing hs ht)).step (step_closing hs ht) hs ht
  have hroom : t.queue.length ≤ max cap 1 := h.capacity ▸ step_queue hs (h.capacity.symm ▸ h.room)
  have hnotLive : ∀ c, c ≠ .live → s.closing = c → s.flushing = [] := by
    intro c hc hclosing
    refine List.eq_nil_iff_forall_not_mem.mpr fun reply hm => ?_
    exact hc (hclosing.symm.trans (h.open_of_flushing reply hm))
  refine ⟨hlive, ?_, hsizes.1.trans h.capacity, hroom, ?_⟩
  · -- a flush is only begun on an open thread, and no open thread with a flush is closed
    cases step_cases hs with
    | flushSend hopen => exact fun _ _ => hopen
    | flushReturn => exact fun reply hm => h.open_of_flushing reply (List.mem_of_mem_erase hm)
    | process =>
      rw [(handle_frame s _).2.2.2, handle_closing]
      exact h.open_of_flushing
    | sync =>
      rw [(syncRound_frame s _).2.2.2.1, syncRound_closing]
      exact h.open_of_flushing
    | shutdown _ hflush => simp [hflush]
    | drop _ hflush => simp [hflush]
    | shutdownGone hc => simp [hnotLive _ (by simp) hc]
    | shutdownSent hc => simp [hnotLive _ (by simp) hc]
    | shutdownReply hc => simp [hnotLive _ (by simp) hc]
    | dropSent hc => simp [hnotLive _ (by simp) hc]
    | dropGone hc => simp [hnotLive _ (by simp) hc]
    | join hc => simp [hnotLive _ (by simp) hc]
    | sendInsert => exact h.open_of_flushing
    | sendDelete => exact h.open_of_flushing
    | recvCmd => exact h.open_of_flushing
    | recvTimeout => exact h.open_of_flushing
    | exits => exact h.open_of_flushing
    | idles => exact h.open_of_flushing
  · intro reply hm
    have hkept : reply ∈ s.flushing → (.flush reply ∈ s.inFlight → .flush reply ∈ t.inFlight) →
        reply ∈ t.replies ∨ .flush reply ∈ t.inFlight :=
      fun hold hflight => (h.asked reply hold).imp (step_replies hs) hflight
    cases step_cases hs with
    | sendInsert => exact hkept hm (mem_inFlight_snoc rfl rfl)
    | sendDelete => exact hkept hm (mem_inFlight_snoc rfl rfl)
    | flushSend =>
      rcases List.mem_append.mp hm with hold | hnew
      · exact hkept hold (mem_inFlight_snoc rfl rfl)
      · rw [List.mem_singleton.mp hnew]
        exact Or.inr (snoc_mem_inFlight (s := s) rfl rfl)
    | flushReturn => exact hkept (List.mem_of_mem_erase hm) id
    | recvCmd hpc hqueue => exact hkept hm (by simp [inFlight, hpc, hqueue])
    | recvTimeout hpc hqueue => exact hkept hm (by simp [inFlight, hpc])
    | process hpc =>
      rw [(handle_frame s _).2.2.2] at hm
      refine (h.asked reply hm).elim (fun hdone => Or.inl (step_replies hs hdone)) fun hflight => ?_
      have hopen := h.open_of_flushing reply hm
      rcases handle_flush hpc (h.live hopen).running hflight with hdone | ⟨-, heq, hmem⟩
      · exact Or.inl hdone
      · exact Or.inr (heq ▸ hmem)
    | exits hpc hrun =>
      have hopen := h.open_of_flushing reply hm
      exact absurd (h.live hopen).running (by simp [hrun])
    | idles hpc => exact hkept hm (by simp [inFlight, hpc])
    | sync hpc =>
      rw [(syncRound_frame s _).2.2.2.1] at hm
      exact hkept hm (by rw [inFlight_syncRound hpc]; exact id)
    | shutdown _ hflush => exact absurd hm (by simp [hflush])
    | drop _ hflush => exact absurd hm (by simp [hflush])
    | shutdownGone hc => exact absurd hm (by simp [hnotLive _ (by simp) hc])
    | shutdownSent hc => exact absurd hm (by simp [hnotLive _ (by simp) hc])
    | shutdownReply hc => exact absurd hm (by simp [hnotLive _ (by simp) hc])
    | dropSent hc => exact absurd hm (by simp [hnotLive _ (by simp) hc])
    | dropGone hc => exact absurd hm (by simp [hnotLive _ (by simp) hc])
    | join hc => exact absurd hm (by simp [hnotLive _ (by simp) hc])

/-- The steps the loop makes from a point until it has dealt with one more command. -/
def stepsToNext : LoopPc → Nat
  | .taken _ => 1
  | .recv => 2
  | .syncCheck => 3
  | .timedOut => 4
  | .exited => 0

theorem stepsToNext_pos {pc : LoopPc} (h : pc ≠ .exited) : 0 < stepsToNext pc := by
  cases pc with
  | exited => exact absurd rfl h
  | _ => exact Nat.zero_lt_succ _

/-- The steps the loop makes before it has answered a flush: three for each command in front. -/
def stepsBefore (reply : Nat) (s : WalThread) : Nat :=
  3 * s.inFlight.idxOf (.flush reply) + stepsToNext s.pc

theorem stepsBefore_snoc {reply : Nat} {cmd : WalCmd} (hpc : t.pc = s.pc)
    (hqueue : t.queue = s.queue ++ [cmd]) (h : .flush reply ∈ s.inFlight) :
    stepsBefore reply t = stepsBefore reply s := by
  rw [stepsBefore, stepsBefore, inFlight_snoc hpc hqueue, List.idxOf_append_of_mem h, hpc]

theorem stepsBefore_of_same {reply n : Nat} (hflight : t.inFlight = s.inFlight)
    (hpc : stepsToNext t.pc + n ≤ stepsToNext s.pc) :
    stepsBefore reply t + n ≤ stepsBefore reply s := by
  rw [stepsBefore, stepsBefore, hflight]
  omega

/-- What is in flight is bounded by the channel's capacity, and so is the wait for it. -/
theorem Serving.stepsBefore_le (h : Serving base cap s) {reply : Nat}
    (hflight : .flush reply ∈ s.inFlight) (hpc : s.pc ≠ .exited) :
    stepsBefore reply s ≤ 3 * max cap 1 + 1 := by
  have hroom := h.room
  have hidx := List.idxOf_lt_length_of_mem hflight
  have hlen : s.inFlight.length = s.hand.length + s.queue.length := by
    rw [inFlight_eq, List.length_append]
  rw [stepsBefore]
  cases hcase : s.pc with
  | taken cmd =>
    have hhand : s.hand.length = 1 := by rw [hand, hcase]; rfl
    simp only [stepsToNext]
    omega
  | recv =>
    have hhand : s.hand.length = 0 := by rw [hand, hcase]; rfl
    simp only [stepsToNext]
    omega
  | syncCheck =>
    have hhand : s.hand.length = 0 := by rw [hand, hcase]; rfl
    simp only [stepsToNext]
    omega
  | timedOut =>
    have hhand : s.hand.length = 0 := by rw [hand, hcase]; rfl
    simp only [stepsToNext]
    omega
  | exited => exact absurd hcase hpc

/-- A step of the loop brings the answer nearer, and nobody else's puts it off. -/
theorem Serving.charged (h : Serving base cap s) {reply : Nat} (hm : reply ∈ s.flushing)
    (hno : reply ∉ s.replies) {a : WalAct} (hs : s.step a = some t) :
    reply ∈ t.replies ∨
      stepsBefore reply t + (if a.ofLoop then 1 else 0) ≤ stepsBefore reply s := by
  have hopen := h.open_of_flushing reply hm
  have hflight : .flush reply ∈ s.inFlight := (h.asked reply hm).resolve_left hno
  have hclosed : ∀ c, c ≠ .live → s.closing ≠ c := fun c hc hs => hc (hs.symm.trans hopen)
  cases step_cases hs with
  | sendInsert => exact Or.inr (Nat.le_of_eq (stepsBefore_snoc rfl rfl hflight))
  | sendDelete => exact Or.inr (Nat.le_of_eq (stepsBefore_snoc rfl rfl hflight))
  | flushSend => exact Or.inr (Nat.le_of_eq (stepsBefore_snoc rfl rfl hflight))
  | flushReturn => exact Or.inr (Nat.le_refl _)
  | recvCmd hpc hqueue =>
    refine Or.inr (stepsBefore_of_same ?_ ?_)
    · simp [inFlight, hpc, hqueue]
    · simp [stepsToNext, hpc, WalAct.ofLoop]
  | recvTimeout hpc hqueue =>
    -- the channel is not empty while the flush is in it
    have hnone : s.inFlight = [] := by rw [inFlight, hpc]; exact hqueue
    exact absurd hflight (by simp [hnone])
  | process hpc =>
    rcases handle_flush hpc (h.live hopen).running hflight with hdone | ⟨hne, heq, hmem⟩
    · exact Or.inl hdone
    · rename_i cmd
      refine Or.inr ?_
      have hold : s.inFlight = cmd :: s.queue := by rw [inFlight, hpc]
      have hidx : s.inFlight.idxOf (.flush reply) = s.queue.idxOf (.flush reply) + 1 := by
        rw [hold, List.idxOf_cons_ne _ hne]
      have hpc' : stepsToNext (s.handle cmd).pc ≤ 3 := by
        unfold handle
        rw [if_neg (by simp [(h.live hopen).running])]
        cases cmd with
        | insert id record => exact Nat.le_refl 3
        | delete id => exact Nat.le_refl 3
        | flush r => exact Nat.le_succ 2
        | shutdown r => exact Nat.zero_le 3
      have hnow : stepsToNext s.pc = 1 := by rw [hpc]; rfl
      rw [stepsBefore, stepsBefore, heq, hidx, hnow]
      simp only [WalAct.ofLoop, if_true]
      omega
  | exits hpc hrun => exact absurd (h.live hopen).running (by simp [hrun])
  | idles hpc =>
    refine Or.inr (stepsBefore_of_same ?_ ?_)
    · simp [inFlight, hpc]
    · simp [stepsToNext, hpc, WalAct.ofLoop]
  | sync hpc =>
    refine Or.inr (stepsBefore_of_same (inFlight_syncRound hpc _) ?_)
    rw [(syncRound_frame s _).2.2.2.2.2]
    simp [stepsToNext, hpc, WalAct.ofLoop]
  | shutdown _ hflush => exact absurd hm (by simp [hflush])
  | drop _ hflush => exact absurd hm (by simp [hflush])
  | shutdownGone hc => exact absurd hc (hclosed _ (by simp))
  | shutdownSent hc => exact absurd hc (hclosed _ (by simp))
  | shutdownReply hc => exact absurd hc (hclosed _ (by simp))
  | dropSent hc => exact absurd hc (hclosed _ (by simp))
  | dropGone hc => exact absurd hc (hclosed _ (by simp))
  | join hc => exact absurd hc (hclosed _ (by simp))

/-- A loop that has not ended has a step to make. -/
theorem loop_moves (h : s.pc ≠ .exited) : ∃ a u, a.ofLoop = true ∧ s.step a = some u := by
  cases hpc : s.pc with
  | recv =>
    cases hqueue : s.queue with
    | nil => exact ⟨.recvTimeout, _, rfl, by rw [WalThread.step, if_pos ⟨hpc, hqueue⟩]⟩
    | cons cmd queue => exact ⟨.recvCmd, _, rfl, by simp only [WalThread.step, hpc, hqueue]; rfl⟩
  | taken cmd => exact ⟨.process, _, rfl, by simp only [WalThread.step, hpc]; rfl⟩
  | timedOut =>
    cases hend : !s.running && s.buffer.isEmpty with
    | true => exact ⟨.idle, _, rfl, by rw [WalThread.step, if_pos hpc, if_pos hend]⟩
    | false => exact ⟨.idle, _, rfl, by rw [WalThread.step, if_pos hpc, if_neg (by simp [hend])]⟩
  | syncCheck => exact ⟨.sync true, _, rfl, by rw [WalThread.step, if_pos hpc]⟩
  | exited => exact absurd hpc h

/-- A call of `flush` stays one until it is answered. -/
theorem flushing_or_replied {reply : Nat} (h : reply ∈ s.flushing ∨ reply ∈ s.replies)
    {a : WalAct} (hs : s.step a = some t) : reply ∈ t.flushing ∨ reply ∈ t.replies := by
  rcases h with h | h
  · cases step_cases hs with
    | flushSend => exact Or.inl (List.mem_append_left _ h)
    | @flushReturn reply' _ hreplied =>
      by_cases heq : reply = reply'
      · exact Or.inr (heq ▸ hreplied)
      · exact Or.inl ((List.mem_erase_of_ne heq).mpr h)
    | process =>
      rw [(handle_frame s _).2.2.2]
      exact Or.inl h
    | sync =>
      rw [(syncRound_frame s _).2.2.2.1]
      exact Or.inl h
    | _ => exact Or.inl h
  · exact Or.inr (step_replies hs h)

end Flush

/-- Everything a thread reaches from its start serves its callers. -/
theorem Serving.of_run {existing : Bytes} {batchSize channelCap : Nat} {acts : List WalAct}
    {s : WalThread}
    (h : run WalThread.step (WalThread.spawn existing batchSize channelCap) acts = some s) :
    Serving (spawnFile existing) channelCap s :=
  run_invariant (fun _ _ _ hi hst => hi.step hst) (Serving.spawn existing batchSize channelCap) h

/-- **A flush is answered** before the loop has made three steps for each place in the channel and
one more, whoever else does what in the meantime, and the loop never stops before that. -/
theorem flush_answered (existing : Bytes) (batchSize channelCap : Nat) (acts acts' : List WalAct)
    (s t : WalThread) (reply : Nat)
    (h : run step (spawn existing batchSize channelCap) acts = some s)
    (hwaits : reply ∈ s.flushing) (h' : run step s acts' = some t) :
    (3 * max channelCap 1 + 1 ≤ acts'.countP WalAct.ofLoop → reply ∈ t.replies) ∧
    (reply ∉ t.replies → ∃ a u, a.ofLoop = true ∧ t.step a = some u) := by
  have hs := Serving.of_run h
  have hrun : (Serving (spawnFile existing) channelCap t) ∧
      (reply ∈ t.flushing ∨ reply ∈ t.replies) :=
    run_invariant (I := fun s => Serving (spawnFile existing) channelCap s ∧
        (reply ∈ s.flushing ∨ reply ∈ s.replies))
      (fun _ _ _ hi hst => ⟨hi.1.step hst, flushing_or_replied hi.2 hst⟩) ⟨hs, Or.inl hwaits⟩ h'
  constructor
  · intro hcount
    by_cases hnow : reply ∈ s.replies
    · exact run_invariant (I := fun s => reply ∈ s.replies)
        (fun _ _ _ hi hst => step_replies hst hi) hnow h'
    · have hle := hs.stepsBefore_le ((hs.asked reply hwaits).resolve_left hnow)
        (hs.live (hs.open_of_flushing reply hwaits)).notExited
      have hpaid := run_charged (D := fun s => reply ∈ s.replies) (m := stepsBefore reply)
        (c := fun a => if a.ofLoop then 1 else 0) (r := fun _ => 0)
        (I := fun s => Serving (spawnFile existing) channelCap s ∧
          (reply ∈ s.flushing ∨ reply ∈ s.replies))
        (fun _ _ _ hi hst => ⟨hi.1.step hst, flushing_or_replied hi.2 hst⟩)
        (fun _ _ _ _ hd hst => step_replies hst hd)
        (fun _ _ _ hi hno hst => hi.1.charged (hi.2.resolve_right hno) hno hst)
        ⟨hs, Or.inl hwaits⟩ h'
      rcases hpaid with hdone | hpaid
      · exact hdone
      · -- no state short of the answer has nothing left to do
        by_contra hno
        have hlive := hrun.1.live (hrun.1.open_of_flushing reply (hrun.2.resolve_right hno))
        have hleft := stepsToNext_pos hlive.notExited
        rw [sum_map_ite, Nat.one_mul] at hpaid
        simp only [List.map_const', List.sum_replicate_nat, Nat.mul_zero, Nat.add_zero] at hpaid
        rw [stepsBefore] at hpaid
        omega
  · intro hno
    exact loop_moves
      (hrun.1.live (hrun.1.open_of_flushing reply (hrun.2.resolve_right hno))).notExited


/-- A channel of one place, and a flush behind the insert in the loop's hand: four steps. -/
theorem flush_answered_behind_insert :
    ∃ s t, run step (spawn [] 64 1) [.sendInsert 7 [1], .recvCmd, .flushSend] = some s ∧
      run step s [.process, .sync false, .recvCmd, .process] = some t ∧ 0 ∈ t.replies :=
  ⟨_, _, rfl, rfl, (flush_answered [] 64 1 [.sendInsert 7 [1], .recvCmd, .flushSend]
    [.process, .sync false, .recvCmd, .process] _ _ 0 rfl (by decide) rfl).1 (by decide)⟩

/-! ## Closing ends -/

/-- The end of a round in which the clock has not run out. -/
def inTime : WalAct → Bool
  | .sync timedOut => !timedOut
  | _ => false

/-- The steps the loop has left from a point, once the flag is down and no clock keeps it: more
where there is something in the buffer. -/
def loopLeft : LoopPc → Bool → Nat
  | .exited, _ => 0
  | .taken _, _ => 1
  | .timedOut, false => 1
  | .timedOut, true => 4
  | .recv, false => 2
  | .recv, true => 5
  | .syncCheck, _ => 3

/-- The steps the caller has left. -/
def callLeft : ClosePc → Nat
  | .live => 0
  | .shutdownSend => 3
  | .shutdownWait _ => 2
  | .dropWake => 2
  | .joining => 1
  | .closed => 0

/-- The steps loop and caller have left together. -/
def closeLeft (s : WalThread) : Nat := loopLeft s.pc (!s.buffer.isEmpty) + callLeft s.closing

theorem loopLeft_le (pc : LoopPc) (held : Bool) : loopLeft pc held ≤ 5 := by
  cases pc <;> cases held <;> simp [loopLeft]

theorem callLeft_le (c : ClosePc) : callLeft c ≤ 3 := by
  cases c <;> simp [callLeft]

theorem handle_exits {s : WalThread} (hrun : s.running = false) (cmd : WalCmd) :
    (s.handle cmd).pc = .exited := by
  unfold handle
  rw [if_pos (by simp [hrun])]

section Closing
variable {bytes : Bytes} {history : List WalCmd} {s t : WalThread}

/-- With the flag down a round that found nothing ends the loop, unless the buffer holds
something. -/
theorem step_idle (hrun : s.running = false) (hs : s.step .idle = some t) :
    s.pc = .timedOut ∧ t.closing = s.closing ∧
      (s.buffer.isEmpty = true ∧ t.pc = .exited ∨
        s.buffer.isEmpty = false ∧ t.pc = .syncCheck) := by
  simp only [WalThread.step] at hs
  split at hs
  · rename_i hpc
    cases hbuf : s.buffer.isEmpty with
    | true =>
      rw [if_pos (by simp [hrun, hbuf]), Option.some.injEq] at hs
      subst hs
      exact ⟨hpc, rfl, Or.inl ⟨rfl, rfl⟩⟩
    | false =>
      rw [if_neg (by simp [hbuf]), Option.some.injEq] at hs
      subst hs
      exact ⟨hpc, rfl, Or.inr ⟨rfl, rfl⟩⟩
  · exact absurd hs (by simp)

/-- A round leaves an empty buffer, or the clock has not run out. -/
theorem buffer_syncRound (s : WalThread) (timedOut : Bool) :
    (s.syncRound timedOut).buffer.isEmpty = true ∨ timedOut = false := by
  cases timedOut with
  | false => exact Or.inr rfl
  | true =>
    left
    unfold syncRound
    dsimp only
    split
    · simp
    · rename_i h
      simpa using h

/-- Every step of a thread that is being closed takes it nearer to its end, except that a round the
clock did not end is two steps further. -/
theorem Closing.charged (h : Closing bytes history s) {a : WalAct} (hs : s.step a = some t) :
    closeLeft t + 1 ≤ closeLeft s + (if inTime a then 3 else 0) := by
  unfold closeLeft
  cases a with
  | idle =>
    obtain ⟨hpc, hclosing, ⟨hbuf, hpc'⟩ | ⟨hbuf, hpc'⟩⟩ := step_idle h.running hs
    · simp only [hpc, hpc', hbuf, hclosing, loopLeft, inTime, Bool.not_true]
      omega
    · simp only [hpc, hpc', hbuf, hclosing, loopLeft, inTime, Bool.not_false]
      omega
  | sync timedOut =>
    cases step_cases hs with
    | sync hpc =>
      rw [(syncRound_frame s timedOut).2.2.2.2.2, syncRound_closing, hpc]
      rcases buffer_syncRound s timedOut with hbuf | rfl
      · rw [hbuf]
        simp only [loopLeft, Bool.not_true]
        omega
      · have hle : loopLeft .recv (!(s.syncRound false).buffer.isEmpty) ≤ 5 := loopLeft_le _ _
        have hnow : ∀ held, loopLeft .syncCheck held = 3 := fun _ => rfl
        rw [hnow]
        simp only [inTime, Bool.not_false, if_true]
        omega
  | recvCmd =>
    cases step_cases hs with
    | recvCmd hpc =>
      rw [hpc]
      cases !s.buffer.isEmpty
      · simp only [loopLeft]
        omega
      · simp only [loopLeft]
        omega
  | recvTimeout =>
    cases step_cases hs with
    | recvTimeout hpc =>
      rw [hpc]
      cases !s.buffer.isEmpty
      · simp only [loopLeft]
        omega
      · simp only [loopLeft]
        omega
  | process =>
    cases step_cases hs with
    | process hpc =>
      rw [hpc, handle_exits h.running, handle_closing]
      simp only [loopLeft]
      omega
  | shutdownSend =>
    cases step_cases hs with
    | shutdownGone hc => simp [hc, callLeft, inTime]
    | shutdownSent hc => simp [hc, callLeft, inTime]
  | shutdownReply => cases step_cases hs with | shutdownReply hc => simp [hc, callLeft, inTime]
  | dropWake =>
    cases step_cases hs with
    | dropSent hc => simp [hc, callLeft, inTime]
    | dropGone hc => simp [hc, callLeft, inTime]
  | join => cases step_cases hs with | join hc => simp [hc, callLeft, inTime]
  -- nobody sends, flushes or closes any more
  | sendInsert id record =>
    cases step_cases hs with | sendInsert hopen => exact absurd hopen h.notLive
  | sendDelete id => cases step_cases hs with | sendDelete hopen => exact absurd hopen h.notLive
  | flushSend => cases step_cases hs with | flushSend hopen => exact absurd hopen h.notLive
  | flushReturn reply =>
    cases step_cases hs with | flushReturn hwaits => exact absurd hwaits (by simp [h.flushing])
  | shutdown => cases step_cases hs with | shutdown hopen => exact absurd hopen h.notLive
  | drop => cases step_cases hs with | drop hopen => exact absurd hopen h.notLive

/-- A call of `shutdown` that waits for ever: the loop has ended, and its command is still in the
channel, with the sender of the reply in it. -/
def LeftBehind (s : WalThread) : Prop :=
  ∃ reply, s.closing = .shutdownWait reply ∧ reply ∉ s.replies ∧ s.pc = .exited ∧
    .shutdown reply ∈ s.queue

/-- A thread that is being closed and is not closed has a step to make, unless it waits for a
command the loop has left behind. -/
theorem Closing.moves (h : Closing bytes history s) (hnot : s.closing ≠ .closed)
    (hleft : ¬ s.LeftBehind) : ∃ a u, s.step a = some u := by
  by_cases hpc : s.pc = .exited
  · cases hc : s.closing with
    | live => exact absurd hc h.notLive
    | shutdownSend => exact ⟨.shutdownSend, _, by rw [WalThread.step, if_pos hc, if_pos hpc]⟩
    | shutdownWait reply =>
      have hback : reply ∈ s.replies ∨ s.pc = .exited ∧ .shutdown reply ∉ s.queue := by
        by_contra hno
        rw [not_or, not_and, not_not] at hno
        exact hleft ⟨reply, hc, hno.1, hpc, hno.2 hpc⟩
      exact ⟨.shutdownReply, { s with closing := .joining },
        by simp only [WalThread.step, hc, if_pos hback]⟩
    | dropWake =>
      exact ⟨.dropWake, _, by rw [WalThread.step, if_pos hc, if_neg (fun hw => hw.1 hpc)]⟩
    | joining => exact ⟨.join, _, by rw [WalThread.step, if_pos ⟨hc, hpc⟩]⟩
    | closed => exact absurd hc hnot
  · obtain ⟨a, u, -, hu⟩ := loop_moves hpc
    exact ⟨a, u, hu⟩

/-- Nobody has a step to make then: not the loop, which has ended, and not the caller. -/
theorem Closing.stuck (h : Closing bytes history s) (hleft : s.LeftBehind) (a : WalAct) :
    s.step a = none := by
  obtain ⟨reply, hc, hreply, hpc, hqueue⟩ := hleft
  cases hs : s.step a with
  | none => rfl
  | some u =>
    exfalso
    cases step_cases hs with
    | sendInsert hopen => exact h.notLive hopen
    | sendDelete hopen => exact h.notLive hopen
    | flushSend hopen => exact h.notLive hopen
    | flushReturn hwaits => exact absurd hwaits (by simp [h.flushing])
    | recvCmd hrecv => exact absurd (hrecv.symm.trans hpc) (by simp)
    | recvTimeout hrecv => exact absurd (hrecv.symm.trans hpc) (by simp)
    | process htaken => exact absurd (htaken.symm.trans hpc) (by simp)
    | exits htime => exact absurd (htime.symm.trans hpc) (by simp)
    | idles htime => exact absurd (htime.symm.trans hpc) (by simp)
    | sync hcheck => exact absurd (hcheck.symm.trans hpc) (by simp)
    | shutdown hopen => exact h.notLive hopen
    | shutdownGone hsend => exact absurd (hsend.symm.trans hc) (by simp)
    | shutdownSent hsend => exact absurd (hsend.symm.trans hc) (by simp)
    | shutdownReply hwait hback =>
      obtain rfl := ClosePc.shutdownWait.inj (hwait.symm.trans hc)
      rcases hback with hreplied | ⟨-, hgone⟩
      · exact hreply hreplied
      · exact hgone hqueue
    | drop hopen => exact h.notLive hopen
    | dropSent hwake => exact absurd (hwake.symm.trans hc) (by simp)
    | dropGone hwake => exact absurd (hwake.symm.trans hc) (by simp)
    | join hjoin => exact absurd (hjoin.symm.trans hc) (by simp)

/-- A call of `drop` sends no command it waits for. -/
theorem step_dropping {a : WalAct} (hs : s.step a = some t)
    (h : s.closing = .dropWake ∨ s.closing = .joining ∨ s.closing = .closed) :
    t.closing = .dropWake ∨ t.closing = .joining ∨ t.closing = .closed := by
  have hother : ∀ c, c ≠ .dropWake → c ≠ .joining → c ≠ .closed → s.closing ≠ c := by
    rintro c h₁ h₂ h₃ rfl
    rcases h with h | h | h
    · exact h₁ h
    · exact h₂ h
    · exact h₃ h
  cases step_cases hs with
  | process =>
    rw [handle_closing]
    exact h
  | sync =>
    rw [syncRound_closing]
    exact h
  | shutdown hopen => exact absurd hopen (hother _ (by simp) (by simp) (by simp))
  | shutdownGone hc => exact absurd hc (hother _ (by simp) (by simp) (by simp))
  | shutdownSent hc => exact absurd hc (hother _ (by simp) (by simp) (by simp))
  | shutdownReply hc => exact absurd hc (hother _ (by simp) (by simp) (by simp))
  | drop => exact Or.inl rfl
  | dropSent => exact Or.inr (Or.inl rfl)
  | dropGone => exact Or.inr (Or.inl rfl)
  | join => exact Or.inr (Or.inr rfl)
  | _ => exact h

end Closing

/-- A thread is live, or being closed. -/
theorem closing_of_run {existing : Bytes} {batchSize channelCap : Nat} {acts : List WalAct}
    {s : WalThread} (h : run step (spawn existing batchSize channelCap) acts = some s)
    (hclosing : s.closing ≠ .live) : ∃ bytes history, Closing bytes history s := by
  have hinv := run_invariant (I := fun s => Serving (spawnFile existing) channelCap s ∧
      (s.closing ≠ .live → ∃ bytes history, Closing bytes history s))
    (fun s a t hi hst => ⟨hi.1.step hst, fun ht => ?_⟩)
    ⟨Serving.spawn existing batchSize channelCap, fun hne => absurd rfl hne⟩ h
  · exact hinv.2 hclosing
  · by_cases hlive : s.closing = .live
    · have hpc : s.closing = .live → s.pc ≠ .exited := fun hl => (hi.1.live hl).notExited
      cases step_cases hst with
      | shutdown => exact ⟨_, _, (Closing.of_close (Or.inl rfl) hpc hst).2.2⟩
      | drop => exact ⟨_, _, (Closing.of_close (Or.inr rfl) hpc hst).2.2⟩
      | process => exact absurd ((handle_closing s _).trans hlive) ht
      | sync => exact absurd ((syncRound_closing s _).trans hlive) ht
      | shutdownGone hc => exact absurd (hc.symm.trans hlive) (by simp)
      | shutdownSent hc => exact absurd (hc.symm.trans hlive) (by simp)
      | shutdownReply hc => exact absurd (hc.symm.trans hlive) (by simp)
      | dropSent hc => exact absurd (hc.symm.trans hlive) (by simp)
      | dropGone hc => exact absurd (hc.symm.trans hlive) (by simp)
      | join hc => exact absurd (hc.symm.trans hlive) (by simp)
      | _ => exact absurd hlive ht
    · obtain ⟨bytes, history, hclose⟩ := hi.2 hlive
      exact ⟨bytes, history, hclose.step hst⟩

/-- **Closing ends, or waits for a command left behind.** From the moment `shutdown` or `drop` has
taken the flag down, there are at most eight steps for anybody to make, and three more for each
round the clock did not end. Until the call has returned there is one to make, unless the loop has
ended with the command of the `shutdown` still in the channel; a `drop` always returns. -/
theorem closing_ends (existing : Bytes) (batchSize channelCap : Nat) (acts acts' : List WalAct)
    (s t : WalThread) (h : run step (spawn existing batchSize channelCap) acts = some s)
    (hclosing : s.closing ≠ .live) (h' : run step s acts' = some t) :
    acts'.length ≤ 8 + 3 * acts'.countP inTime ∧
      (t.closing ≠ .closed → ((∀ a, t.step a = none) ↔ t.LeftBehind)) ∧
      (s.closing = .dropWake → ¬ t.LeftBehind) := by
  obtain ⟨bytes, history, hs⟩ := closing_of_run h hclosing
  have ht : Closing bytes history t := run_invariant (fun _ _ _ hi hst => hi.step hst) hs h'
  refine ⟨?_, fun hnot => ⟨fun hstuck => ?_, ht.stuck⟩, fun hdrop hleft => ?_⟩
  · have hpaid := run_charged (I := Closing bytes history) (D := fun _ => False) (m := closeLeft)
      (c := fun _ => 1) (r := fun a => if inTime a then 3 else 0)
      (fun _ _ _ hi hst => hi.step hst) (fun _ _ _ _ hd _ => hd)
      (fun _ _ _ hi _ hst => Or.inr (hi.charged hst)) hs h'
    have hstart : closeLeft s ≤ 8 := Nat.add_le_add (loopLeft_le _ _) (callLeft_le _)
    rw [sum_map_ite] at hpaid
    simp only [List.map_const', List.sum_replicate_nat, Nat.mul_one, false_or] at hpaid
    omega
  · by_contra hleft
    obtain ⟨a, u, hu⟩ := ht.moves hnot hleft
    exact absurd (hu.symm.trans (hstuck a)) (by simp)
  · obtain ⟨reply, hwait, -⟩ := hleft
    have hdropping := run_invariant (I := fun s : WalThread =>
        s.closing = .dropWake ∨ s.closing = .joining ∨ s.closing = .closed)
      (fun _ _ _ hi hst => step_dropping hst hi) (Or.inl hdrop) h'
    rw [hwait] at hdropping
    simp at hdropping

/-- A delete the loop has encoded, and a batch that is not full, at the moment of a `drop`; and an
insert in the channel in front of the command of a `shutdown`, which waits for ever. -/
theorem closing_ends_two :
    (∃ s t, run step (spawn [] 64 8) [.sendDelete 9, .recvCmd, .process, .sync false, .drop]
        = some s ∧
      run step s [.dropWake, .recvCmd, .process] = some t ∧ t.closing ≠ .closed ∧
      ¬ ∀ a, t.step a = none) ∧
    ∃ s t, run step (spawn [] 64 8) [.sendInsert 7 [1], .shutdown] = some s ∧
      run step s [.shutdownSend, .recvCmd, .process] = some t ∧ ∀ a, t.step a = none := by
  constructor
  · refine ⟨_, _, rfl, rfl, by decide, fun hstuck => ?_⟩
    obtain ⟨-, hiff, hdrop⟩ := closing_ends [] 64 8
      [.sendDelete 9, .recvCmd, .process, .sync false, .drop] [.dropWake, .recvCmd, .process] _ _
      rfl (by simp) rfl
    exact hdrop rfl ((hiff (by decide)).mp hstuck)
  · refine ⟨_, _, rfl, rfl, ?_⟩
    exact ((closing_ends [] 64 8 [.sendInsert 7 [1], .shutdown]
      [.shutdownSend, .recvCmd, .process] _ _ rfl (by simp) rfl).2.1 (by decide)).mpr
      ⟨0, rfl, by decide, rfl, by decide⟩

/-! ## What a crash can lose -/

/-- How the history lies between file, buffer, loop and channel: the file and the buffer hold whole
commands, and at the end of a round less than a batch is left in the buffer. `fresh` is the command
the loop has encoded since. -/
structure Lagging (base : Bytes) (s : WalThread) (written batched fresh : List WalCmd) :
    Prop where
  history : s.history = written ++ batched ++ fresh ++ s.inFlight
  file : s.file = base ++ encodeCmds written
  buffer : s.buffer = encodeCmds (batched ++ fresh)
  small : (encodeCmds batched).length < max s.batchSize 1
  one : fresh.length ≤ 1
  rounded : s.pc ≠ .syncCheck → fresh = []

theorem Lagging.spawn (existing : Bytes) (batchSize channelCap : Nat) :
    Lagging (spawnFile existing) (spawn existing batchSize channelCap) [] [] [] where
  history := rfl
  file := by simp [WalThread.spawn, encodeCmds]
  buffer := rfl
  small := Nat.lt_of_lt_of_le Nat.zero_lt_one (Nat.le_max_right _ _)
  one := Nat.zero_le 1
  rounded := fun _ => rfl

section Lagging
variable {base : Bytes} {s t : WalThread} {written batched fresh : List WalCmd}

/-- Nothing is left where everything has been written. -/
theorem Lagging.synced (hhist : t.history = written ++ t.inFlight)
    (hfile : t.file = base ++ encodeCmds written) (hbuf : t.buffer = []) :
    Lagging base t written [] [] where
  history := by rw [hhist, List.append_nil, List.append_nil]
  file := hfile
  buffer := hbuf
  small := Nat.lt_of_lt_of_le Nat.zero_lt_one (Nat.le_max_right _ _)
  one := Nat.zero_le 1
  rounded := fun _ => rfl

/-- A step that moves nothing but commands in flight. -/
theorem Lagging.same (h : Lagging base s written batched fresh) {new : List WalCmd}
    (hhist : t.history = s.history ++ new) (hflight : t.inFlight = s.inFlight ++ new)
    (hfile : t.file = s.file) (hbuf : t.buffer = s.buffer) (hsize : t.batchSize = s.batchSize)
    (hpc : s.pc = .syncCheck → t.pc = .syncCheck) : Lagging base t written batched fresh where
  history := by rw [hhist, h.history, hflight]; simp only [List.append_assoc]
  file := hfile.trans h.file
  buffer := hbuf.trans h.buffer
  small := by rw [hsize]; exact h.small
  one := h.one
  rounded := fun hne => h.rounded fun hs => hne (hpc hs)

/-- The `Ok` arm of a live loop: a record is encoded, or everything is written out. -/
theorem Lagging.handle (h : Lagging base s written batched fresh) (hlive : Live base s)
    {cmd : WalCmd} (hpc : s.pc = .taken cmd) :
    ∃ written batched fresh, Lagging base (s.handle cmd) written batched fresh := by
  have hflight : s.inFlight = cmd :: s.queue := by rw [inFlight, hpc]
  have hfresh : fresh = [] := h.rounded (by simp [hpc])
  subst hfresh
  have hhist : s.history = written ++ batched ++ cmd :: s.queue := by
    rw [h.history, hflight, List.append_nil]
  have hbuf : s.buffer = encodeCmds batched := by rw [h.buffer, List.append_nil]
  have hencoded : ∀ c, encodeCmds (batched ++ [c]) = encodeCmd s.buffer c := by
    intro c
    rw [hbuf, encodeCmds, List.foldl_append]
    rfl
  unfold WalThread.handle
  rw [if_neg (by simp [hlive.running])]
  cases cmd with
  | insert id record =>
    refine ⟨written, batched, [.insert id record], ?_, h.file,
      (hencoded (.insert id record)).symm, h.small, Nat.le_refl 1, fun hne => absurd rfl hne⟩
    rw [hhist, List.append_assoc _ [_]]
    rfl
  | delete id =>
    refine ⟨written, batched, [.delete id], ?_, h.file, (hencoded (.delete id)).symm, h.small,
      Nat.le_refl 1, fun hne => absurd rfl hne⟩
    rw [hhist, List.append_assoc _ [_]]
    rfl
  | flush reply =>
    refine ⟨written ++ (batched ++ [.flush reply]), [], [], Lagging.synced ?_ ?_ ?_⟩
    · simp [inFlight, hhist]
    · simp [h.file, hbuf, hencoded, encodeCmds_append, encodeCmd]
    · simp
  | shutdown reply =>
    exact absurd (show WalCmd.shutdown reply ∈ s.inFlight by rw [hflight]; simp)
      (hlive.noShutdown reply)

/-- The end of a round: what is left is less than a batch. -/
theorem Lagging.syncRound (h : Lagging base s written batched fresh) (hpc : s.pc = .syncCheck)
    (timedOut : Bool) :
    ∃ written batched fresh, Lagging base (s.syncRound timedOut) written batched fresh := by
  have hflight : s.inFlight = s.queue := by rw [inFlight, hpc]
  have hhist := h.history
  rw [hflight] at hhist
  unfold WalThread.syncRound
  dsimp only
  split
  · refine ⟨written ++ (batched ++ fresh), [], [], Lagging.synced ?_ ?_ ?_⟩
    · simp [inFlight, hhist]
    · simp [h.file, h.buffer, encodeCmds_append]
    · simp
  · rename_i hnot
    refine ⟨written, batched ++ fresh, [], ?_, h.file, ?_, ?_, Nat.zero_le 1, fun _ => rfl⟩
    · simp [inFlight, hhist]
    · rw [List.append_nil]
      exact h.buffer
    · show (encodeCmds (batched ++ fresh)).length < max s.batchSize 1
      rw [← h.buffer]
      by_cases hempty : s.buffer = []
      · rw [hempty]
        exact Nat.lt_of_lt_of_le Nat.zero_lt_one (Nat.le_max_right _ _)
      · have hsmall : ¬ s.batchSize ≤ s.buffer.length := by
          intro hfull
          exact hnot (by simp [hfull, hempty])
        omega

theorem Lagging.step (h : Lagging base s written batched fresh) (hlive : Live base s)
    {a : WalAct} (hs : s.step a = some t) (hopen : t.closing = .live) :
    ∃ written batched fresh, Lagging base t written batched fresh := by
  have hclosed : ∀ c, c ≠ .live → s.closing ≠ c :=
    fun c hc heq => hc (heq.symm.trans (step_closing hs hopen))
  have hsame : ∀ {u : WalThread} (new : List WalCmd), u.history = s.history ++ new →
      u.inFlight = s.inFlight ++ new → u.file = s.file → u.buffer = s.buffer →
      u.batchSize = s.batchSize → (s.pc = .syncCheck → u.pc = .syncCheck) →
      ∃ written batched fresh, Lagging base u written batched fresh :=
    fun new h₁ h₂ h₃ h₄ h₅ h₆ => ⟨written, batched, fresh, h.same h₁ h₂ h₃ h₄ h₅ h₆⟩
  cases step_cases hs with
  | sendInsert => exact hsame [_] rfl (inFlight_snoc rfl rfl) rfl rfl rfl id
  | sendDelete => exact hsame [_] rfl (inFlight_snoc rfl rfl) rfl rfl rfl id
  | flushSend => exact hsame [_] rfl (inFlight_snoc rfl rfl) rfl rfl rfl id
  | flushReturn => exact hsame [] (by simp) (by simp [inFlight]) rfl rfl rfl id
  | recvCmd hpc hqueue =>
    exact hsame [] (by simp) (by simp [inFlight, hpc, hqueue]) rfl rfl rfl (by simp [hpc])
  | recvTimeout hpc =>
    exact hsame [] (by simp) (by simp [inFlight, hpc]) rfl rfl rfl (by simp [hpc])
  | process hpc => exact h.handle hlive hpc
  | exits hpc hrun => exact absurd hlive.running (by simp [hrun])
  | idles hpc => exact hsame [] (by simp) (by simp [inFlight, hpc]) rfl rfl rfl (by simp [hpc])
  | sync hpc => exact h.syncRound hpc _
  | shutdown => exact absurd hopen (by simp)
  | shutdownGone hc => exact absurd hc (hclosed _ (by simp))
  | shutdownSent hc => exact absurd hc (hclosed _ (by simp))
  | shutdownReply hc => exact absurd hc (hclosed _ (by simp))
  | drop => exact absurd hopen (by simp)
  | dropSent hc => exact absurd hc (hclosed _ (by simp))
  | dropGone hc => exact absurd hc (hclosed _ (by simp))
  | join hc => exact absurd hc (hclosed _ (by simp))

end Lagging

theorem Lagging.of_run {existing : Bytes} {batchSize channelCap : Nat} {acts : List WalAct}
    {s : WalThread} (h : run WalThread.step (WalThread.spawn existing batchSize channelCap) acts
      = some s) (hopen : s.closing = .live) :
    ∃ written batched fresh, Lagging (spawnFile existing) s written batched fresh := by
  have hinv := run_invariant (I := fun s => Serving (spawnFile existing) channelCap s ∧
      (s.closing = .live → ∃ written batched fresh,
        Lagging (spawnFile existing) s written batched fresh))
    (fun s a t hi hst => ⟨hi.1.step hst, fun ht => ?_⟩)
    ⟨Serving.spawn existing batchSize channelCap,
      fun _ => ⟨_, _, _, Lagging.spawn existing batchSize channelCap⟩⟩ h
  · exact hinv.2 hopen
  · have hlive := step_closing hst ht
    obtain ⟨written, batched, fresh, hlag⟩ := hi.2 hlive
    exact hlag.step (hi.1.live hlive) hst ht

theorem batchSize_of_run {existing : Bytes} {batchSize channelCap : Nat} {acts : List WalAct}
    {s : WalThread} (h : run step (spawn existing batchSize channelCap) acts = some s) :
    s.batchSize = batchSize :=
  run_invariant (I := fun s => s.batchSize = batchSize)
    (fun _ _ _ hi hst => (step_sizes hst).2.trans hi) rfl h

/-- All a step can do to the file is to append the buffer. -/
theorem step_file {s t : WalThread} {a : WalAct} (hs : s.step a = some t) :
    t.file <+: s.file ++ s.buffer := by
  have hsame : s.file <+: s.file ++ s.buffer := List.prefix_append _ _
  cases step_cases hs with
  | process =>
    unfold handle
    split
    · rw [flushAndSync_file]
    · rename_i cmd _ _
      cases cmd with
      | insert id record => exact hsame
      | delete id => exact hsame
      | flush reply => simp
      | shutdown reply => simp
  | sync =>
    unfold syncRound
    dsimp only
    split
    · simp
    · exact hsame
  | _ => exact hsame

/-- The file at any moment: the first of the records that were sent, and of the next one a part or
nothing. What has been written before is among them. -/
theorem Lagging.during {base file : Bytes} {s : WalThread} {written batched fresh : List WalCmd}
    (h : Lagging base s written batched fresh) (hfile : s.FileDuring file) :
    ∃ bytes rs part, file = base ++ bytes ∧ Received (records s.history) bytes rs part ∧
      records written <+: rs := by
  have hfirst : s.file <+: file := by
    rcases hfile with rfl | ⟨-, -, -, hfile, -⟩
    · exact List.prefix_rfl
    · exact hfile
  have hlast : file <+: s.file ++ s.buffer := by
    rcases hfile with rfl | ⟨act, t, hs, -, hfile⟩
    · exact List.prefix_append _ _
    · exact hfile.trans (step_file hs)
  rw [h.file] at hfirst hlast
  obtain ⟨rest, rfl⟩ := hfirst
  rw [List.append_assoc] at hlast ⊢
  rw [List.append_assoc, List.prefix_append_right_inj, h.buffer] at hlast
  have hbytes : encodeCmds written ++ rest <+: encodeRecords (records s.history) := by
    refine hlast.trans ?_
    rw [← encodeCmds_append, ← encodeCmds_eq, h.history, ← List.append_assoc, encodeCmds_append _
      s.inFlight]
    exact List.prefix_append _ _
  obtain ⟨rs, part, hreceived⟩ := exists_received hbytes
  refine ⟨_, rs, part, rfl, hreceived, hreceived.holds ?_ ?_⟩
  · rw [h.history, List.append_assoc, List.append_assoc, records_append]
    exact List.prefix_append _ _
  · rw [← encodeCmds_eq]
    exact List.prefix_append _ _

/-- **The loss window.** At every moment before a thread is closed, the middle of an append
included, the file holds the first of the records sent to it, whole, and of the next one a part or
nothing; and what it may not hold whole is less than one batch of encoded commands and, behind them,
no more commands than the channel takes and one. -/
theorem loss_window (existing : Bytes) (batchSize channelCap : Nat) (acts : List WalAct)
    (s : WalThread) (file : Bytes)
    (h : run step (spawn existing batchSize channelCap) acts = some s)
    (hopen : s.closing = .live) (hfile : s.FileDuring file) :
    ∃ bytes rs part, file = spawnFile existing ++ bytes ∧
      Received (records s.history) bytes rs part ∧
      ∃ written batched last, s.history = written ++ batched ++ last ∧ records written <+: rs ∧
        (encodeCmds batched).length < max batchSize 1 ∧ last.length ≤ max channelCap 1 + 1 := by
  obtain ⟨written, batched, fresh, hlag⟩ := Lagging.of_run h hopen
  obtain ⟨bytes, rs, part, hbytes, hreceived, hwritten⟩ := hlag.during hfile
  have hroom := (Serving.of_run h).room
  refine ⟨bytes, rs, part, hbytes, hreceived, written, batched, fresh ++ s.inFlight, ?_, hwritten,
    batchSize_of_run h ▸ hlag.small, ?_⟩
  · rw [hlag.history, List.append_assoc _ fresh]
  · rw [List.length_append]
    by_cases hpc : s.pc = .syncCheck
    · have hflight : s.inFlight = s.queue := by rw [inFlight, hpc]
      rw [hflight, Nat.add_comm]
      exact Nat.add_le_add hroom hlag.one
    · have hhand : s.hand.length ≤ 1 := by
        unfold hand
        split
        · exact Nat.le_refl 1
        · exact Nat.zero_le 1
      rw [hlag.rounded hpc, inFlight_eq, List.length_append, List.length_nil]
      omega

/-- A channel that is full, a batch of two, and the first half of the second record in the file. -/
theorem loss_window_full :
    ∃ s, run step (spawn [] 26 1) [.sendDelete 9, .recvCmd, .process, .sync false, .sendDelete 8,
        .recvCmd, .process, .sendDelete 7] = some s ∧
      ∃ bytes rs part, (s.file ++ s.buffer).take 24 = spawnFile [] ++ bytes ∧
        Received (records s.history) bytes rs part ∧
        ∃ written batched last, s.history = written ++ batched ++ last ∧ records written <+: rs ∧
          (encodeCmds batched).length < max 26 1 ∧ last.length ≤ max 1 1 + 1 :=
  ⟨_, rfl, loss_window [] 26 1 [.sendDelete 9, .recvCmd, .process, .sync false, .sendDelete 8,
    .recvCmd, .process, .sendDelete 7] _ _ rfl rfl
    (Or.inr ⟨.sync false, _, rfl, by decide, by decide⟩)⟩

end WalThread
end LightGraph
