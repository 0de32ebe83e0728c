import LightGraph.Proof.Acyclic
import LightGraph.Proof.Crash
import LightGraph.Proof.DurableChains

/-!
# Chains after a crash

A crash leaves the first records of the log, and what they replay to need not be a state the store
has ever been in: an unlink logs two predecessors, one record each. But with the first of the two
alone an edge is out of one of its chains and in the other as before, and both are chains that the
store did have. So no prefix of the log closes a circle (`NoCircleIn`), provided no call did, and
whatever a crash leaves can be traversed from everywhere (`crashes_close_no_circle`).
-/

set_option autoImplicit false

namespace LightGraph

open Lib

/-! ## Prefixes of a log -/

section Prefixes
variable [Bincode Edge] {m : FiniteMap EdgeId Edge} {rs rs' : List LogRecord}

/-- However many of the records are replayed, no edge is reached from itself. -/
def NoCircleIn (m : FiniteMap EdgeId Edge) (rs : List LogRecord) : Prop :=
  ∀ n side, Acyclic (follow side ((rs.take n).foldl applyRecord m))

theorem NoCircleIn.take (h : NoCircleIn m rs) (k : Nat) : NoCircleIn m (rs.take k) := by
  intro n side
  rw [List.take_take]
  exact h _ side

theorem NoCircleIn.last (h : NoCircleIn m rs) (side : ChainSide) :
    Acyclic (follow side (rs.foldl applyRecord m)) := by
  have hall := h rs.length side
  rwa [List.take_length] at hall

theorem NoCircleIn.append (h : NoCircleIn m rs) (h' : NoCircleIn (rs.foldl applyRecord m) rs') :
    NoCircleIn m (rs ++ rs') := by
  intro n side
  rw [List.take_append, List.foldl_append]
  by_cases hle : n ≤ rs.length
  · rw [Nat.sub_eq_zero_of_le hle, List.take_zero, List.foldl_nil]
    exact h n side
  · rw [List.take_of_length_le (by omega)]
    exact h' _ side

/-- One record at most has no prefix that is neither nothing nor all. -/
theorem NoCircleIn.of_short (hlen : rs.length ≤ 1) (hfirst : ∀ side, Acyclic (follow side m))
    (hlast : ∀ side, Acyclic (follow side (rs.foldl applyRecord m))) : NoCircleIn m rs := by
  intro n side
  cases n with
  | zero => exact hfirst side
  | succ n =>
    rw [List.take_of_length_le (by omega)]
    exact hlast side

end Prefixes

/-! ## What a call logs -/

namespace EdgeStore

section Persistent
variable [Bincode Edge] {s t : EdgeStore} {w : WalLog}

theorem modifySilently_persist (s : EdgeStore) (id : EdgeId) (f : Edge → Edge) :
    (s.modifySilently id f).persist id = (RecordStore.modify s id f).1 := by
  unfold EdgeStore.modifySilently EdgeStore.persist RecordStore.modify
  cases hg : s.records.get id with
  | none => simp only [hg]
  | some e =>
    simp only [FiniteMap.get_put_self]

theorem LogsOnce.noCircleIn (h : s.LogsOnce t) (hs : s.NoCycle) (ht : t.NoCycle) :
    ∃ cmds, RecordStore.Logs s t cmds ∧ NoCircleIn s.records (records cmds) := by
  obtain ⟨cmds, hlen, hlogs⟩ := h
  refine ⟨cmds, hlogs, .of_short ?_ hs ?_⟩
  · exact Nat.le_trans (List.length_filterMap_le _ _) hlen
  · rw [← hlogs.records]
    exact ht

omit [Bincode Edge] in
/-- The log between the two records of an unlink: one of the two chains is as it was before, or
both are as they will be. -/
theorem follow_between {p q edgeId next next' head head' head₁ head₂ : EdgeId} {u v : EdgeStore}
    (hout : s.unlinkFrom .outgoing edgeId next head = some (u, head₁, some p))
    (hin : u.unlinkFrom .incoming edgeId next' head' = some (v, head₂, some q)) {r : Edge}
    (hr : v.records.get p = some r) (side : ChainSide) :
    follow side (s.records.put p r) = follow side v.records ∨
      follow side (s.records.put p r) = follow side s.records := by
  have hbut := unlinkFrom_sameBut hout
  have hbut' := unlinkFrom_sameBut hin
  -- what either half did not change
  have hother : ∀ x, x ≠ p → u.records.get x = s.records.get x := by
    intro x hne
    rcases unlinkFrom_pred hout with ⟨-, hnone, -⟩ | ⟨p', hp', -, -, rfl⟩
    · exact absurd hnone (by simp)
    · obtain rfl := Option.some.inj hp'
      rw [modifySilently_records, FiniteMap.get_alter, if_neg hne]
  have hother' : ∀ x, x ≠ q → v.records.get x = u.records.get x := by
    intro x hne
    rcases unlinkFrom_pred hin with ⟨-, hnone, -⟩ | ⟨q', hq', -, -, rfl⟩
    · exact absurd hnone (by simp)
    · obtain rfl := Option.some.inj hq'
      rw [modifySilently_records, FiniteMap.get_alter, if_neg hne]
  cases side with
  | outgoing =>
    left
    funext x
    refine follow_congr ?_
    rw [hbut'.next .outgoing (by decide) x, FiniteMap.get_put]
    split
    · rename_i heq
      rw [heq, ← hr, hbut'.next .outgoing (by decide) p]
    · rename_i hne
      rw [hother x hne]
  | incoming =>
    by_cases hpq : p = q
    · left
      funext x
      refine follow_congr ?_
      rw [FiniteMap.get_put]
      split
      · rename_i heq
        rw [heq, hr]
      · rename_i hne
        rw [hother' x (hpq ▸ hne), hother x hne]
    · right
      funext x
      refine follow_congr ?_
      rw [FiniteMap.get_put]
      split
      · rename_i heq
        rw [heq, ← hr, hother' p hpq]
        exact hbut.next .incoming (by decide) p
      · rfl

/-- Two predecessors changed, two records. -/
theorem persist_both_noCircleIn (hwal : s.wal = some w) (hs : s.NoCycle)
    {p q edgeId next next' head head' head₁ head₂ : EdgeId} {u v : EdgeStore}
    (hout : s.unlinkFrom .outgoing edgeId next head = some (u, head₁, some p))
    (hin : u.unlinkFrom .incoming edgeId next' head' = some (v, head₂, some q))
    (hv : v.NoCycle) :
    ∃ cmds, RecordStore.Logs s ((v.persist p).persist q) cmds ∧
      NoCircleIn s.records (records cmds) := by
  obtain ⟨hfirst, hsrc⟩ := (Ahead.refl hwal).unlinkFrom hout
  obtain ⟨hsecond, hdst⟩ := hfirst.unlinkFrom hin
  have hpv : (v.records.get p).isSome = true :=
    (isSome_of_node ((unlinkFrom_sameBut hin).node .outgoing p)).trans (hsrc p rfl)
  obtain ⟨r, hr⟩ := Option.isSome_iff_exists.mp hpv
  obtain ⟨r', hr'⟩ := Option.isSome_iff_exists.mp (hdst q rfl)
  have hr'' : (v.persist p).records.get q = some r' := by
    rw [persist_records]
    exact hr'
  -- memory is ahead at both predecessors, and each record makes up for one
  have hlogged := (hsecond.persist hr).persist hr''
  have hnone : (((some q).toList ++ ((some p).toList ++ [])).filter (· ≠ p)).filter (· ≠ q)
      = [] := by
    by_cases hqp : q = p
    · simp [hqp]
    · simp [hqp]
  rw [hnone] at hlogged
  refine ⟨_, hlogged.logs, fun n side => ?_⟩
  have hone : applyRecord s.records ⟨1, p, Bincode.bytes r⟩ = s.records.put p r :=
    applyRecord_insert s.records p r
  rcases n with _ | _ | n
  · exact hs side
  · show Acyclic (follow side (applyRecord s.records ⟨1, p, Bincode.bytes r⟩))
    rw [hone]
    rcases follow_between hout hin hr side with hthen | hbefore
    · rw [hthen]
      exact hv side
    · rw [hbefore]
      exact hs side
  · rw [List.take_of_length_le (by simp [records, WalCmd.record?]), ← hlogged.logs.records,
      persist_records, persist_records]
    exact hv side

/-- An unlink logs nothing that closes a circle on the way. -/
theorem unlinkFromChains_noCircleIn (hwal : s.wal = some w) (hs : s.NoCycle) (ht : t.NoCycle)
    {edgeId srcFirstOut dstFirstIn head head' : EdgeId} {found : Bool}
    (hrun : s.unlinkFromChains edgeId srcFirstOut dstFirstIn = some (t, head, head', found)) :
    ∃ cmds, RecordStore.Logs s t cmds ∧ NoCircleIn s.records (records cmds) := by
  have honce : ∀ id f, RecordStore.LogsOnce s ((s.modifySilently id f).persist id) := by
    intro id f
    rw [modifySilently_persist]
    exact RecordStore.modify_logs hwal id f
  have hnothing : RecordStore.LogsOnce s s := ⟨[], by simp, .refl hwal⟩
  unfold unlinkFromChains at hrun
  split at hrun
  · simp only [Option.some.injEq, Prod.mk.injEq] at hrun
    exact LogsOnce.noCircleIn (hrun.1 ▸ hnothing) hs ht
  · split at hrun
    · exact absurd hrun (by simp)
    · rename_i u head₁ srcPred hout
      split at hrun
      · exact absurd hrun (by simp)
      · rename_i v head₂ dstPred hin
        simp only [Option.some.injEq, Prod.mk.injEq] at hrun
        obtain ⟨rfl, -⟩ := hrun
        have hv : v.NoCycle := by
          intro side
          have hside := ht side
          rwa [persistPred_records, persistPred_records] at hside
        cases srcPred with
        | none =>
          obtain ⟨rfl, -⟩ | ⟨p, hp, -⟩ := unlinkFrom_pred hout
          · cases dstPred with
            | none =>
              obtain ⟨rfl, -⟩ | ⟨q, hq, -⟩ := unlinkFrom_pred hin
              · exact LogsOnce.noCircleIn hnothing hs ht
              · exact absurd hq (by simp)
            | some q =>
              obtain ⟨-, hq, -⟩ | ⟨q', hq, -, -, rfl⟩ := unlinkFrom_pred hin
              · exact absurd hq (by simp)
              · obtain rfl := Option.some.inj hq
                exact LogsOnce.noCircleIn (honce q _) hs ht
          · exact absurd hp (by simp)
        | some p =>
          cases dstPred with
          | none =>
            obtain ⟨rfl, -⟩ | ⟨q, hq, -⟩ := unlinkFrom_pred hin
            · obtain ⟨-, hp, -⟩ | ⟨p', hp, -, -, rfl⟩ := unlinkFrom_pred hout
              · exact absurd hp (by simp)
              · obtain rfl := Option.some.inj hp
                exact LogsOnce.noCircleIn (honce p _) hs ht
            · exact absurd hq (by simp)
          | some q => exact persist_both_noCircleIn hwal hs hout hin hv

/-- The call closes no circle: a link is not under a head that leads to the edge, and an edge stored
under `NULL_EDGE` is not unlinked. The other calls close none. -/
def CallClosesNone (s : EdgeStore) : EdgeCall → Prop
  | .op (.linkIntoChains newEdge srcFirstOut dstFirstIn) =>
    s.ClosesNone (.linkIntoChains newEdge srcFirstOut dstFirstIn)
  | .op _ => True
  | .unlinkFromChains edgeId srcFirstOut dstFirstIn =>
    s.ClosesNone (.unlinkFromChains edgeId srcFirstOut dstFirstIn)

/-- An edge that is inserted, under a new id or over an old edge, points at nothing. -/
theorem NoCycle.insertWithId (h : s.NoCycle) (id : EdgeId) (src dst : NodeId) (etype : TypeId)
    (propsRow : UInt32) (txId : TxId) :
    (insertEdgeWithId s id src dst etype propsRow txId).NoCycle := by
  intro side
  refine (h side).of_paths fun x y hxy => ?_
  obtain ⟨hnull, e, hget, rfl⟩ := follow_inv hxy
  rw [insertEdgeWithId, RecordStore.insertWithId_records, FiniteMap.get_alter] at hget
  split at hget
  · obtain rfl := Option.some.inj hget
    right
    cases side <;> exact follow_null _ _
  · exact Or.inl (Relation.TransGen.single (follow_of_get hnull hget))

theorem NoCycle.performCall (h : s.NoCycle) {c : EdgeCall} (hc : s.CallClosesNone c)
    (hs : s.performCall c = some t) : t.NoCycle := by
  have hcall : ∀ op, s.ClosesNone op → s.callStep op = some t → t.NoCycle := fun _ =>
    h.callStep
  cases c with
  | unlinkFromChains edgeId srcFirstOut dstFirstIn =>
    exact hcall (.unlinkFromChains edgeId srcFirstOut dstFirstIn) hc hs
  | op o =>
    cases o with
    | insertEdge src dst etype propsRow txId =>
      exact hcall (.insertEdge src dst etype propsRow txId) trivial hs
    | allocIdDirect =>
      obtain rfl := Option.some.inj hs
      intro side
      rw [show (EdgeStore.perform s .allocIdDirect).records = s.records from
        RecordStore.allocId_records s]
      exact h side
    | insertWithId id src dst etype propsRow txId =>
      obtain rfl := Option.some.inj hs
      exact h.insertWithId id src dst etype propsRow txId
    | linkIntoChains newEdge srcFirstOut dstFirstIn =>
      exact hcall (.linkIntoChains newEdge srcFirstOut dstFirstIn) hc hs
    | softDelete id txId => exact hcall (.softDelete id txId) trivial hs
    | hardDelete id => exact hcall (.hardDelete id) trivial hs

/-- Every call returns. -/
theorem NoCycle.performs (h : s.NoCycle) (c : EdgeCall) : ∃ t, s.performCall c = some t := by
  cases c with
  | op o => exact ⟨_, rfl⟩
  | unlinkFromChains edgeId srcFirstOut dstFirstIn =>
    exact h.returns (.unlinkFromChains edgeId srcFirstOut dstFirstIn)

/-- **What a call logs closes no circle on the way**, if the call closes none. -/
theorem performCall_noCircleIn (hwal : s.wal = some w) (hs : s.NoCycle) {c : EdgeCall}
    (hc : s.CallClosesNone c) (hrun : s.performCall c = some t) :
    ∃ cmds, RecordStore.Logs s t cmds ∧ NoCircleIn s.records (records cmds) := by
  have ht := hs.performCall hc hrun
  cases c with
  | op o =>
    obtain rfl := Option.some.inj hrun
    exact LogsOnce.noCircleIn (EdgeStore.perform_logs hwal o) hs ht
  | unlinkFromChains edgeId srcFirstOut dstFirstIn =>
    obtain ⟨⟨u, head, head', found⟩, hunlink, rfl⟩ := Option.map_eq_some_iff.mp hrun
    exact unlinkFromChains_noCircleIn hwal hs ht hunlink

end Persistent
end EdgeStore

/-! ## Opening what is left -/

section Opening
variable {rs read : List LogRecord}

/-- What `open` reads of a cut log are its first records. -/
theorem prefix_of_opened_cut (hfit : ∀ r ∈ rs, r.Fits) {k : Nat}
    (hopen : openedRecords ((magic ++ encodeRecords rs).take k) = .ok read) : read <+: rs := by
  by_cases hk : 4 ≤ k
  · obtain ⟨j, rfl⟩ : ∃ j, k = 4 + j := ⟨k - 4, by omega⟩
    rw [take_magic_append, openedRecords_magic_iff, ← replayedRecords_magic_iff,
      replayedRecords_magic, encodeRecords,
      walFormat.read_take walFormat_width_pos j (forall_fits_body hfit), Prod.mk.injEq,
      whole_map LogRecord.size walFormat.size LogRecord.body LogRecord.size_body,
      map_decodeBody_map_body] at hopen
    rw [← hopen.1]
    exact whole_isPrefix _ j rs
  · have hlen : ¬ ((magic ++ encodeRecords rs).take k).length > 4 := by
      rw [List.length_take]
      omega
    rw [openedRecords, replayIfAny, if_neg hlen, Except.ok.injEq] at hopen
    rw [← hopen]
    exact List.nil_prefix

theorem EdgeStore.records_of_open [Bincode Edge] {file : Bytes} {t : EdgeStore}
    (hopen : EdgeStore.open file = .ok t) : ∃ read, openedRecords file = .ok read ∧
      t.records = read.foldl applyRecord ∅ := by
  rw [EdgeStore.open, RecordStore.openReplay, replayIfAny_eq] at hopen
  cases hread : openedRecords file with
  | error e =>
    rw [hread] at hopen
    exact absurd hopen (by simp [Except.map])
  | ok read =>
    rw [hread] at hopen
    simp only [Except.map, Except.ok.injEq] at hopen
    exact ⟨read, rfl, hopen ▸ Replay.ofLog_records read⟩

end Opening

/-! ## Calls and crashes -/

/-- What happens to a store in use. -/
inductive CrashStep
  | call (c : EdgeCall)
  /-- a crash leaves the first `k` bytes of the log, and the store is opened again -/
  | crash (k : Nat)

namespace EdgeStore

section Persistent
variable [Bincode Edge] {s t : EdgeStore}

def crashStep (s : EdgeStore) : CrashStep → Option EdgeStore
  | .call c => s.performCall c
  | .crash k => (EdgeStore.open (s.file.take k)).toOption

/-- No call closes a circle, and what a crash leaves is whole records. (Behind a torn one the
store would write on, and no reader would find what it writes.) -/
def CrashOk (s : EdgeStore) : CrashStep → Prop
  | .call c => s.CallClosesNone c
  | .crash k => (∀ r ∈ s.history, r.Fits) ∧ ∀ rs, openedRecords (s.file.take k) = .ok rs →
      s.file.take k = magic ++ encodeRecords rs

/-- Whatever a crash leaves of the log, it closes no circle. -/
structure CrashSafe (s : EdgeStore) (log : List LogRecord) : Prop where
  fits : ∀ r ∈ log, r.Fits
  synced : RecordStore.Synced log s
  noCircle : NoCircleIn ∅ (log ++ s.history)

variable {log : List LogRecord}

theorem CrashSafe.noCycle (h : s.CrashSafe log) : s.NoCycle := by
  intro side
  rw [h.synced.records]
  exact h.noCircle.last side

theorem fresh_crashSafe : EdgeStore.fresh.CrashSafe [] where
  fits := by simp
  synced := (EdgeStore.open_synced LogHolds.empty EdgeStore.open_nil).1
  noCircle := .of_short (by decide) new_noCycle new_noCycle

theorem CrashSafe.call (h : s.CrashSafe log) {c : EdgeCall} (hc : s.CallClosesNone c)
    (hs : s.performCall c = some t) : t.CrashSafe log := by
  obtain ⟨w, hwal⟩ := h.synced.wal
  obtain ⟨cmds, hlogs, hcircle⟩ := performCall_noCircleIn hwal h.noCycle hc hs
  refine ⟨h.fits, h.synced.logs hlogs, ?_⟩
  rw [hlogs.history, ← List.append_assoc]
  refine h.noCircle.append ?_
  rw [← h.synced.records]
  exact hcircle

/-- What a crash leaves is the start of the log. -/
theorem CrashSafe.opened (h : s.CrashSafe log) (hfit : ∀ r ∈ s.history, r.Fits) {k : Nat}
    (hopen : EdgeStore.open (s.file.take k) = .ok t) :
    ∃ n, openedRecords (s.file.take k) = .ok ((log ++ s.history).take n) ∧
      t.records = ((log ++ s.history).take n).foldl applyRecord ∅ := by
  obtain ⟨read, hread, hrecords⟩ := records_of_open hopen
  have hstart := hread
  rw [h.synced.file] at hstart
  have hprefix := prefix_of_opened_cut (List.forall_mem_append.mpr ⟨h.fits, hfit⟩) hstart
  rw [List.prefix_iff_eq_take] at hprefix
  exact ⟨read.length, hprefix ▸ hread, hprefix ▸ hrecords⟩

theorem CrashSafe.opened_noCycle (h : s.CrashSafe log) (hfit : ∀ r ∈ s.history, r.Fits) {k : Nat}
    (hopen : EdgeStore.open (s.file.take k) = .ok t) : t.NoCycle := by
  obtain ⟨n, -, hrecords⟩ := h.opened hfit hopen
  intro side
  rw [hrecords]
  exact h.noCircle n side

theorem CrashSafe.step (h : s.CrashSafe log) {a : CrashStep} (hg : s.CrashOk a)
    (hs : s.crashStep a = some t) : ∃ log', t.CrashSafe log' := by
  cases a with
  | call c => exact ⟨log, h.call hg hs⟩
  | crash k =>
    obtain ⟨hfit, hwhole⟩ := hg
    cases hopen : EdgeStore.open (s.file.take k) with
    | error e =>
      rw [crashStep, hopen] at hs
      exact absurd hs (by simp [Except.toOption])
    | ok u =>
      rw [crashStep, hopen] at hs
      obtain rfl := Option.some.inj hs
      obtain ⟨n, hread, -⟩ := h.opened hfit hopen
      have hkept : ∀ r ∈ (log ++ s.history).take n, r.Fits := fun r hr =>
        List.forall_mem_append.mpr ⟨h.fits, hfit⟩ r (List.mem_of_mem_take hr)
      rw [hwhole _ hread] at hopen
      obtain ⟨hsync, hnil⟩ := EdgeStore.open_synced (LogHolds.encode hkept) hopen
      refine ⟨_, hkept, hsync, ?_⟩
      rw [hnil, List.append_nil]
      exact h.noCircle.take n

omit [Bincode Edge] in
theorem NoCycle.traversals (h : s.NoCycle) (start : EdgeId) :
    (∃ l, s.outEdges start = some l) ∧ (∃ l, s.inEdges start = some l) ∧
      ∀ tx, ∃ l, s.outEdgesVisible start tx = some l :=
  ⟨h.collect_ends .outgoing _ start, h.collect_ends .incoming _ start,
    fun _ => h.collect_ends .outgoing _ start⟩

end Persistent
end EdgeStore

/-- **Crashes close no circle.** In every run of calls and crashes in which no call closes one
(`CallClosesNone`), the calls return and the traversals end from everywhere, and they do in whatever
is opened after one crash more, wherever it cuts the log: between the records of an unlink, or
inside of one. -/
theorem crashes_close_no_circle [Bincode Edge] {steps : List CrashStep} {s : EdgeStore}
    (hg : Guarded EdgeStore.crashStep EdgeStore.CrashOk EdgeStore.fresh steps)
    (hrun : run EdgeStore.crashStep EdgeStore.fresh steps = some s) :
    (∀ c, ∃ t, s.performCall c = some t) ∧
    (∀ start, (∃ l, s.outEdges start = some l) ∧ (∃ l, s.inEdges start = some l) ∧
      ∀ tx, ∃ l, s.outEdgesVisible start tx = some l) ∧
    ((∀ r ∈ s.history, r.Fits) → ∀ k t, EdgeStore.open (s.file.take k) = .ok t →
      (∀ c, ∃ u, t.performCall c = some u) ∧
      ∀ start, (∃ l, t.outEdges start = some l) ∧ (∃ l, t.inEdges start = some l) ∧
        ∀ tx, ∃ l, t.outEdgesVisible start tx = some l) := by
  obtain ⟨log, h⟩ : ∃ log, s.CrashSafe log :=
    guarded_invariant (I := fun s => ∃ log, EdgeStore.CrashSafe s log)
      (fun _ _ _ h hg hs => h.elim fun _ h => h.step hg hs) ⟨[], EdgeStore.fresh_crashSafe⟩ hg hrun
  refine ⟨h.noCycle.performs, h.noCycle.traversals, fun hfit k t hopen => ?_⟩
  have ht := h.opened_noCycle hfit hopen
  exact ⟨ht.performs, ht.traversals⟩

/-- Of three linked edges the middle one is unlinked, and the crash comes between the two records
of that. -/
def crashWithinUnlink : List CrashStep :=
  [.call (.op (.insertEdge 1 2 0 0 1)), .call (.op (.linkIntoChains 0 nullEdge nullEdge)),
    .call (.op .allocIdDirect), .call (.op (.insertWithId 1 1 2 0 0 1)),
    .call (.op (.linkIntoChains 1 0 0)), .call (.op (.insertEdge 1 2 0 0 1)),
    .call (.op (.linkIntoChains 2 1 1)), .call (.unlinkFromChains 1 2 2), .crash 543,
    .call (.op (.softDelete 0 5))]

def EdgeStore.afterCrash : EdgeStore :=
  (run EdgeStore.crashStep EdgeStore.fresh crashWithinUnlink).getD EdgeStore.fresh

set_option maxRecDepth 8000 in
theorem crashes_close_no_circle_within :
    EdgeStore.afterCrash.outEdges 2 = some [2, 0] ∧
    (∃ l, EdgeStore.afterCrash.outEdgesVisible 2 7 = some l) ∧
    ∃ t, EdgeStore.open (EdgeStore.afterCrash.file.take 161) = .ok t ∧
      ∃ l, t.inEdges 1 = some l := by
  have hg : Guarded EdgeStore.crashStep EdgeStore.CrashOk EdgeStore.fresh crashWithinUnlink := by
    refine Guarded.cons rfl trivial (Guarded.cons rfl (fun hnull hsome => ?_)
      (Guarded.cons rfl trivial (Guarded.cons rfl trivial
        (Guarded.cons rfl (fun hnull hsome => ?_)
          (Guarded.cons rfl trivial (Guarded.cons rfl (fun hnull hsome => ?_)
            (Guarded.cons rfl (fun hnull => absurd hnull (by decide))
              (Guarded.cons rfl ⟨by decide, fun rs hrs => ?_⟩
                (Guarded.cons rfl trivial trivial)))))))))
    · exact ⟨mt (EdgeStore.leadsTo_iff_mem (n := 1) (l := []) rfl hnull hsome).mp (by decide),
        mt (EdgeStore.leadsTo_iff_mem (n := 1) (l := []) rfl hnull hsome).mp (by decide)⟩
    · exact ⟨mt (EdgeStore.leadsTo_iff_mem (n := 2) (l := [0]) rfl hnull hsome).mp (by decide),
        mt (EdgeStore.leadsTo_iff_mem (n := 2) (l := [0]) rfl hnull hsome).mp (by decide)⟩
    · exact ⟨mt (EdgeStore.leadsTo_iff_mem (n := 3) (l := [1, 0]) rfl hnull hsome).mp (by decide),
        mt (EdgeStore.leadsTo_iff_mem (n := 3) (l := [1, 0]) rfl hnull hsome).mp (by decide)⟩
    · obtain rfl := Except.ok.inj hrs
      decide
  obtain ⟨-, hends, hcut⟩ := crashes_close_no_circle (s := EdgeStore.afterCrash) hg rfl
  obtain ⟨-, hopened⟩ := hcut (by decide) 161 _ rfl
  exact ⟨by decide, (hends 2).2.2 7, _, rfl, (hopened 1).2.1⟩

end LightGraph
