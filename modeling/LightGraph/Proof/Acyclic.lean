import LightGraph.Lib.Machine
import LightGraph.Proof.Chains
import LightGraph.Storage.Bincode

/-!
# When traversals end

The loops of the edge store have no memory of where they have been, and none of its operations
looks before it sets a pointer. So a chain ends because it is no circle, and it is no circle as
long as nobody links an edge under a head that already leads to it: linked twice, or in the
place of a deleted one that others still point at. That condition is exact for every single
link (`acyclic_link_iff`). No other operation can close a circle: an insert and a hard delete cut
a pointer off, and an unlink leads one past the edge to where it led before.
-/

set_option autoImplicit false

namespace LightGraph

open Lib Relation

/-- A call on an edge store, with whatever arguments. -/
inductive ChainOp
  | insertEdge (src dst : NodeId) (etype : TypeId) (propsRow : UInt32) (txId : TxId)
  | linkIntoChains (newEdge srcFirstOut dstFirstIn : EdgeId)
  | unlinkFromChains (edgeId srcFirstOut dstFirstIn : EdgeId)
  | softDelete (id : EdgeId) (txId : TxId)
  | hardDelete (id : EdgeId)

namespace EdgeStore

/-- The store after a call; `none` where the call does not return. -/
def callStep [Bincode Edge] (s : EdgeStore) : ChainOp → Option EdgeStore
  | .insertEdge src dst etype propsRow txId => some (s.insertEdge src dst etype propsRow txId).2
  | .linkIntoChains newEdge srcFirstOut dstFirstIn =>
    some (s.linkIntoChains newEdge srcFirstOut dstFirstIn).1
  | .unlinkFromChains edgeId srcFirstOut dstFirstIn =>
    (s.unlinkFromChains edgeId srcFirstOut dstFirstIn).map fun r => r.1
  | .softDelete id txId => some (s.softDelete id txId).1
  | .hardDelete id => some (RecordStore.hardDelete s id).1

/-- No edge is reached from itself, on either side. -/
def NoCycle (s : EdgeStore) : Prop := ∀ side, Acyclic (follow side s.records)

/-- The chain from one edge leads to the other. -/
def LeadsTo (side : ChainSide) (s : EdgeStore) (start e : EdgeId) : Prop :=
  ReflTransGen (Follows (follow side s.records)) start e

/-- The call closes no circle: an edge is linked under heads that do not lead to it. (An edge
may be stored under `NULL_EDGE`, where no traversal gets to; that one is not unlinked.) -/
def ClosesNone (s : EdgeStore) : ChainOp → Prop
  | .linkIntoChains newEdge srcFirstOut dstFirstIn =>
    newEdge ≠ nullEdge → (s.records.get newEdge).isSome = true →
      ¬ s.LeadsTo .outgoing srcFirstOut newEdge ∧ ¬ s.LeadsTo .incoming dstFirstIn newEdge
  | .unlinkFromChains edgeId _ _ => edgeId = nullEdge → s.records.get edgeId = none
  | _ => True

variable {s t : EdgeStore} {side : ChainSide}

/-! ## What ends without a circle -/

theorem NoCycle.walk_ends (h : s.NoCycle) (side : ChainSide) (start : EdgeId) :
    ∃ l, walk (follow side s.records) s.rounds start = some l :=
  (h side).walk_ends s.records.keys start fun _ _ hne => mem_keys_of_follow hne

theorem NoCycle.collect_ends (h : s.NoCycle) (side : ChainSide) (keep : Edge → Bool)
    (start : EdgeId) : ∃ l, s.collect side.next keep s.rounds start = some l := by
  obtain ⟨l, hl⟩ := h.walk_ends side start
  exact ⟨_, by rw [collect_eq, hl, Option.map_some]⟩

/-- Traversals end from everywhere, in however many rounds, only without a circle. -/
theorem noCycle_iff_collect_ends (s : EdgeStore) : s.NoCycle ↔ ∀ (side : ChainSide) start,
    ∃ n l, s.collect side.next (fun _ => true) n start = some l := by
  constructor
  · exact fun h side start => ⟨_, h.collect_ends side _ start⟩
  · intro h side
    apply (acyclic_iff_walk_ends s.records.keys fun _ => mem_keys_of_follow).mpr
    intro start
    obtain ⟨n, l, hl⟩ := h side start
    rw [collect_eq] at hl
    obtain ⟨l', hl', -⟩ := Option.map_eq_some_iff.mp hl
    exact ⟨n, l', hl'⟩

/-- The loop that looks for a predecessor. -/
theorem NoCycle.unlinkFrom_ends (h : Acyclic (follow side s.records)) (edgeId next head : EdgeId) :
    ∃ r, s.unlinkFrom side edgeId next head = some r := by
  obtain ⟨l, hl⟩ := h.walk_ends s.records.keys head fun _ _ hne => mem_keys_of_follow hne
  obtain ⟨r, hr⟩ := seek_of_walk edgeId hl
  unfold unlinkFrom
  split
  · exact ⟨_, rfl⟩
  · rw [findPred_eq, show s.rounds = s.records.keys.card + 1 from rfl, hr]
    cases r <;> exact ⟨_, rfl⟩

/-- An edge leads to a stored one exactly when a traversal from it comes by. -/
theorem leadsTo_iff_mem {start e : EdgeId} {l : List EdgeId} {n : Nat}
    (h : walk (follow side s.records) n start = some l) (hnull : e ≠ nullEdge)
    (hsome : (s.records.get e).isSome = true) : s.LeadsTo side start e ↔ e ∈ l := by
  obtain ⟨edge, hget⟩ := Option.isSome_iff_exists.mp hsome
  rw [mem_walk_iff h, follow_of_get hnull hget]
  simp [LeadsTo]

/-! ## One pointer at a time -/

/-- A change in place of one edge's pointer. -/
theorem follow_alter (s : EdgeStore) {f : Edge → Edge} {e next : EdgeId}
    (hf : ∀ edge, side.next (f edge) = next) :
    follow side (s.records.alter e (Option.map f)) =
      if e ≠ nullEdge ∧ (s.records.get e).isSome = true then
        Function.update (follow side s.records) e (some next)
      else follow side s.records := by
  split
  · rename_i h
    obtain ⟨edge, hget⟩ := Option.isSome_iff_exists.mp h.2
    rw [FiniteMap.alter, hget, Option.map_some, follow_put h.1, hf]
  · rename_i h
    funext x
    by_cases hx : x = e
    · by_cases hnull : e = nullEdge
      · rw [hx, hnull, follow_null, follow_null]
      · have hnone : s.records.get e = none := by
          by_contra hne
          exact h ⟨hnull, Option.isSome_iff_ne_none.mpr hne⟩
        rw [FiniteMap.alter, hnone, Option.map_none, FiniteMap.remove_of_get_none hnone]
    · exact follow_congr (by rw [FiniteMap.get_alter, if_neg hx])

theorem acyclic_alter_iff (h : Acyclic (follow side s.records)) (e : EdgeId) {f : Edge → Edge}
    {next : EdgeId} (hf : ∀ edge, side.next (f edge) = next) :
    Acyclic (follow side (s.records.alter e (Option.map f))) ↔
      (e ≠ nullEdge → (s.records.get e).isSome = true → ¬ s.LeadsTo side next e) := by
  rw [follow_alter s hf]
  split
  · rename_i hcond
    rw [acyclic_update_iff h]
    exact ⟨fun hreach _ _ => hreach, fun hreach => hreach hcond.1 hcond.2⟩
  · rename_i hcond
    exact ⟨fun _ hnull hsome => absurd ⟨hnull, hsome⟩ hcond, fun _ => h⟩

/-- **A link closes a circle exactly when it is under a head that leads to the edge.** -/
theorem noCycle_link_iff [Bincode Edge] (h : s.NoCycle) (newEdge srcFirstOut dstFirstIn : EdgeId) :
    (s.linkIntoChains newEdge srcFirstOut dstFirstIn).1.NoCycle ↔
      s.ClosesNone (.linkIntoChains newEdge srcFirstOut dstFirstIn) := by
  let linked (e : Edge) : Edge := { e with nextOut := srcFirstOut, nextIn := dstFirstIn }
  have hout := acyclic_alter_iff (h .outgoing) newEdge
    (show ∀ e, ChainSide.outgoing.next (linked e) = srcFirstOut from fun _ => rfl)
  have hin := acyclic_alter_iff (h .incoming) newEdge
    (show ∀ e, ChainSide.incoming.next (linked e) = dstFirstIn from fun _ => rfl)
  simp only [NoCycle, linkIntoChains_records, ClosesNone]
  constructor
  · intro hall hnull hsome
    exact ⟨hout.mp (hall .outgoing) hnull hsome, hin.mp (hall .incoming) hnull hsome⟩
  · intro hclose side
    cases side with
    | outgoing => exact hout.mpr fun hnull hsome => (hclose hnull hsome).1
    | incoming => exact hin.mpr fun hnull hsome => (hclose hnull hsome).2

/-- Taking an edge out of one chain leads its predecessor where the edge led. -/
theorem acyclic_unlinkFrom (h : Acyclic (follow side s.records)) {e head head' : EdgeId}
    {edge : Edge} (hnull : e ≠ nullEdge) (hget : s.records.get e = some edge)
    {pred : Option EdgeId}
    (hrun : s.unlinkFrom side e (side.next edge) head = some (t, head', pred)) :
    Acyclic (follow side t.records) := by
  rcases unlinkFrom_cases hrun with rfl | ⟨p, hp, rfl⟩
  · exact h
  · have hfollow : follow side s.records e = some (side.next edge) := follow_of_get hnull hget
    rw [modifySilently_records, follow_alter s fun pedge => ChainSide.next_setNext side _ pedge]
    split
    · refine h.of_paths fun x y hxy => Or.inl ?_
      by_cases hx : x = p
      · subst hx
        rw [Function.update_self, Option.some.injEq] at hxy
        subst hxy
        exact TransGen.tail (TransGen.single hp) (show Follows _ e _ from hfollow)
      · rw [Function.update_of_ne hx] at hxy
        exact TransGen.single hxy
    · exact h

theorem follow_sameBut {other : ChainSide} (h : SameBut side s t) (hne : other ≠ side) :
    follow other t.records = follow other s.records :=
  funext fun id => follow_congr (h.next other hne id)

/-- An unlink returns, and closes no circle. -/
theorem NoCycle.unlink [Bincode Edge] (h : s.NoCycle) (edgeId srcFirstOut dstFirstIn : EdgeId) :
    ∃ t heads, s.unlinkFromChains edgeId srcFirstOut dstFirstIn = some (t, heads) ∧
      (s.ClosesNone (.unlinkFromChains edgeId srcFirstOut dstFirstIn) → t.NoCycle) := by
  unfold unlinkFromChains
  cases hget : s.records.get edgeId with
  | none => exact ⟨s, _, rfl, fun _ => h⟩
  | some edge =>
    obtain ⟨⟨u, head, pred⟩, hout⟩ :=
      NoCycle.unlinkFrom_ends (h .outgoing) edgeId edge.nextOut srcFirstOut
    have hsame := unlinkFrom_sameBut hout
    have hin₁ : follow .incoming u.records = follow .incoming s.records :=
      follow_sameBut hsame (by decide)
    have hu : Acyclic (follow .incoming u.records) := hin₁ ▸ h .incoming
    obtain ⟨⟨t, head', pred'⟩, hin⟩ := NoCycle.unlinkFrom_ends hu edgeId edge.nextIn dstFirstIn
    have hsame' := unlinkFrom_sameBut hin
    simp only [hout, hin]
    refine ⟨_, _, rfl, fun hclose side => ?_⟩
    rw [persistPred_records, persistPred_records]
    have hnull : edgeId ≠ nullEdge := by
      intro heq
      have hnone := hclose heq
      rw [hget] at hnone
      exact absurd hnone (by simp)
    cases side with
    | outgoing =>
      rw [follow_sameBut hsame' (by decide)]
      exact acyclic_unlinkFrom (h .outgoing) hnull hget hout
    | incoming =>
      -- the edge as it is after the first half, its incoming pointer as before
      obtain ⟨edge', hget'⟩ : ∃ edge', u.records.get edgeId = some edge' :=
        Option.isSome_iff_exists.mp
          (by rw [isSome_of_node (hsame.node .outgoing edgeId), hget]; rfl)
      have hnext := hsame.next .incoming (by decide) edgeId
      rw [hget', hget, Option.map_some, Option.map_some, Option.some.injEq] at hnext
      have hin' : unlinkFrom .incoming u edgeId (ChainSide.incoming.next edge') dstFirstIn
          = some (t, head', pred') := by
        rw [hnext]
        exact hin
      exact acyclic_unlinkFrom hu hnull hget' hin'

/-! ## A call and a run of calls -/

section Persistent
variable [Bincode Edge]

/-- **No call closes a circle** but a link under a head that leads to the edge. -/
theorem NoCycle.callStep (h : s.NoCycle) {op : ChainOp} (hop : s.ClosesNone op)
    (hs : s.callStep op = some t) : t.NoCycle := by
  cases op with
  | insertEdge src dst etype propsRow txId =>
    obtain rfl := Option.some.inj hs
    intro side
    refine (h side).of_paths fun x y hxy => ?_
    obtain ⟨hnull, e, hget, rfl⟩ := follow_inv hxy
    rw [insertEdge, RecordStore.insert_records, FiniteMap.get_put] at hget
    split at hget
    · -- the new edge points at nothing
      obtain rfl := Option.some.inj hget
      right
      cases side <;> exact follow_null _ _
    · exact Or.inl (TransGen.single (follow_of_get hnull hget))
  | linkIntoChains newEdge srcFirstOut dstFirstIn =>
    obtain rfl := Option.some.inj hs
    exact (noCycle_link_iff h newEdge srcFirstOut dstFirstIn).mpr hop
  | unlinkFromChains edgeId srcFirstOut dstFirstIn =>
    obtain ⟨u, heads, hrun, hacyclic⟩ := h.unlink edgeId srcFirstOut dstFirstIn
    rw [EdgeStore.callStep, hrun, Option.map_some, Option.some.injEq] at hs
    exact hs ▸ hacyclic hop
  | softDelete id txId =>
    obtain rfl := Option.some.inj hs
    intro side
    rw [softDelete_follow]
    exact h side
  | hardDelete id =>
    obtain rfl := Option.some.inj hs
    intro side
    refine (h side).of_paths fun x y hxy => Or.inl (TransGen.single ?_)
    obtain ⟨hnull, e, hget, rfl⟩ := follow_inv hxy
    rw [RecordStore.hardDelete_records, FiniteMap.get_remove] at hget
    split at hget
    · exact absurd hget (by simp)
    · exact follow_of_get hnull hget

/-- Every call returns. -/
theorem NoCycle.returns (h : s.NoCycle) (op : ChainOp) : ∃ t, s.callStep op = some t := by
  cases op with
  | unlinkFromChains edgeId srcFirstOut dstFirstIn =>
    obtain ⟨t, heads, hrun, -⟩ := h.unlink edgeId srcFirstOut dstFirstIn
    exact ⟨t, by rw [EdgeStore.callStep, hrun, Option.map_some]⟩
  | insertEdge src dst etype propsRow txId => exact ⟨_, rfl⟩
  | linkIntoChains newEdge srcFirstOut dstFirstIn => exact ⟨_, rfl⟩
  | softDelete id txId => exact ⟨_, rfl⟩
  | hardDelete id => exact ⟨_, rfl⟩

omit [Bincode Edge] in
theorem new_noCycle : EdgeStore.new.NoCycle := by
  intro side x hcycle
  obtain ⟨y, hxy, -⟩ := TransGen.head'_iff.mp hcycle
  obtain ⟨-, e, hget, -⟩ := follow_inv hxy
  exact absurd hget (by simp [EdgeStore.new, RecordStore.new])

end Persistent
end EdgeStore

/-- **Traversals end** while no link closes a circle: no edge is reached from itself, the
traversals and every call return from everywhere — and the first link that does close one is the
end of that. -/
theorem traversal_terminates [Bincode Edge] {ops : List ChainOp} {s : EdgeStore}
    (hg : Guarded EdgeStore.callStep EdgeStore.ClosesNone EdgeStore.new ops)
    (hrun : run EdgeStore.callStep EdgeStore.new ops = some s) :
    s.NoCycle ∧
    (∀ start, (∃ l, s.outEdges start = some l) ∧ (∃ l, s.inEdges start = some l) ∧
      ∀ tx, ∃ l, s.outEdgesVisible start tx = some l) ∧
    (∀ op, ∃ t, s.callStep op = some t) ∧
    ∀ e out into t, s.callStep (.linkIntoChains e out into) = some t →
      (t.NoCycle ↔ s.ClosesNone (.linkIntoChains e out into)) := by
  have h : s.NoCycle :=
    guarded_invariant (fun _ _ _ h hop hs => h.callStep hop hs) EdgeStore.new_noCycle hg hrun
  refine ⟨h, fun start => ⟨h.collect_ends .outgoing _ start, h.collect_ends .incoming _ start,
    fun tx => h.collect_ends .outgoing _ start⟩, h.returns, fun e out into t ht => ?_⟩
  obtain rfl := Option.some.inj ht
  exact EdgeStore.noCycle_link_iff h e out into

/-! ## A deleted edge that is still linked -/

/-- Two edges of one source are linked, the first is deleted for good while the second points at
it, its id comes back and is linked. -/
def relinkRecycled : List ChainOp :=
  [.insertEdge 1 2 0 0 1, .linkIntoChains 0 nullEdge nullEdge, .insertEdge 1 3 0 0 1,
    .linkIntoChains 1 0 nullEdge, .hardDelete 0, .insertEdge 1 4 0 0 2,
    .linkIntoChains 0 1 nullEdge]

def EdgeStore.afterRelink : EdgeStore :=
  (run EdgeStore.callStep EdgeStore.new relinkRecycled).getD EdgeStore.new

/-- The two point at each other. -/
theorem recycled_edge_closes_circle :
    ¬ ∀ (ops : List ChainOp) (s : EdgeStore), run EdgeStore.callStep EdgeStore.new ops = some s →
      s.NoCycle := by
  intro h
  obtain ⟨l, hl⟩ := (h relinkRecycled EdgeStore.afterRelink rfl).collect_ends .outgoing
    (fun _ => true) 1
  have hloop : EdgeStore.afterRelink.outEdges 1 = none := by decide
  rw [show EdgeStore.afterRelink.outEdges 1 = some l from hl] at hloop
  exact absurd hloop (by simp)

/-- Linked under heads that do not lead to them, the edges make a chain. -/
def linkTwo : List ChainOp :=
  [.insertEdge 1 2 0 0 1, .linkIntoChains 0 nullEdge nullEdge, .insertEdge 1 2 0 0 1,
    .linkIntoChains 1 0 0]

def EdgeStore.afterLinkTwo : EdgeStore :=
  (run EdgeStore.callStep EdgeStore.new linkTwo).getD EdgeStore.new

theorem traversal_terminates_two :
    EdgeStore.afterLinkTwo.NoCycle ∧ EdgeStore.afterLinkTwo.outEdges 1 = some [1, 0] := by
  have hg : Guarded EdgeStore.callStep EdgeStore.ClosesNone EdgeStore.new linkTwo := by
    refine Guarded.cons rfl trivial (Guarded.cons rfl (fun hnull hsome => ?_)
      (Guarded.cons rfl trivial (Guarded.cons rfl (fun hnull hsome => ?_) trivial)))
    · exact ⟨mt (EdgeStore.leadsTo_iff_mem (n := 1) (l := []) rfl hnull hsome).mp (by decide),
        mt (EdgeStore.leadsTo_iff_mem (n := 1) (l := []) rfl hnull hsome).mp (by decide)⟩
    · exact ⟨mt (EdgeStore.leadsTo_iff_mem (n := 2) (l := [0]) rfl hnull hsome).mp (by decide),
        mt (EdgeStore.leadsTo_iff_mem (n := 2) (l := [0]) rfl hnull hsome).mp (by decide)⟩
  exact ⟨(traversal_terminates (s := EdgeStore.afterLinkTwo) hg rfl).1, by decide⟩

end LightGraph
