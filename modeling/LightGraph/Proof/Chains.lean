import LightGraph.Lib.Chain
import LightGraph.Storage.EdgeStore

/-!
# The chains as pointers

The edge store's loops are the library's traversals of a heap of pointers (`follow`), one heap
for each side. What an operation does to the chains is what it does to these two heaps, and to
them it does little: an insert and a hard delete cut a pointer off, a link sets one, an unlink
leads one past the edge. None of them touches the side it does not work on.
-/

set_option autoImplicit false

namespace LightGraph

open Lib

/-- The pointer a loop follows from an edge: none from `NULL_EDGE` and none from an id that is
not stored. -/
def follow (side : ChainSide) (edges : FiniteMap EdgeId Edge) (cur : EdgeId) : Option EdgeId :=
  if cur = nullEdge then none else (edges.get cur).map side.next

namespace ChainSide

@[simp] theorem next_setNext (side : ChainSide) (next : EdgeId) (e : Edge) :
    side.next (side.setNext next e) = next := by
  cases side <;> rfl

theorem next_setNext_of_ne {side other : ChainSide} (h : other ≠ side) (next : EdgeId)
    (e : Edge) : other.next (side.setNext next e) = other.next e := by
  cases side <;> cases other <;> first | rfl | exact absurd rfl h

@[simp] theorem node_setNext (side other : ChainSide) (next : EdgeId) (e : Edge) :
    other.node (side.setNext next e) = other.node e := by
  cases side <;> cases other <;> rfl

end ChainSide

section Follow
variable {side : ChainSide} {edges : FiniteMap EdgeId Edge} {id : EdgeId} {e : Edge}

@[simp] theorem follow_null (side : ChainSide) (edges : FiniteMap EdgeId Edge) :
    follow side edges nullEdge = none := if_pos rfl

theorem follow_of_get (hid : id ≠ nullEdge) (h : edges.get id = some e) :
    follow side edges id = some (side.next e) := by
  rw [follow, if_neg hid, h, Option.map_some]

theorem follow_inv {x : EdgeId} (h : follow side edges id = some x) :
    id ≠ nullEdge ∧ ∃ e, edges.get id = some e ∧ side.next e = x := by
  unfold follow at h
  split at h
  · exact absurd h (by simp)
  · exact ⟨by assumption, Option.map_eq_some_iff.mp h⟩

/-- Pointers start at stored edges. -/
theorem mem_keys_of_follow (h : follow side edges id ≠ none) : id ∈ edges.keys := by
  obtain ⟨x, hx⟩ := Option.ne_none_iff_exists'.mp h
  obtain ⟨-, e, he, -⟩ := follow_inv hx
  have hmem : (Finmap.lookup id edges).isSome = true := by
    rw [show Finmap.lookup id edges = some e from he]
    rfl
  exact Finmap.mem_keys.mpr (Finmap.lookup_isSome.mp hmem)

/-- The heap sees of a map the `next` fields and nothing else. -/
theorem follow_congr {edges' : FiniteMap EdgeId Edge}
    (h : (edges'.get id).map side.next = (edges.get id).map side.next) :
    follow side edges' id = follow side edges id := by
  rw [follow, follow, h]

theorem follow_put (hid : id ≠ nullEdge) (e : Edge) :
    follow side (edges.put id e) = Function.update (follow side edges) id (some (side.next e)) := by
  funext x
  by_cases hx : x = id
  · rw [hx, Function.update_self, follow_of_get hid (FiniteMap.get_put_self edges id e)]
  · rw [Function.update_of_ne hx]
    exact follow_congr (by rw [FiniteMap.get_put_ne edges e hx])

end Follow

namespace EdgeStore
variable {s : EdgeStore} {side : ChainSide}

/-! ## The loops -/

theorem findPred_eq (side : ChainSide) (s : EdgeStore) (edgeId : EdgeId) (n : Nat) :
    ∀ cur, s.findPred side edgeId n cur = seek (follow side s.records) edgeId n cur := by
  induction n with
  | zero => exact fun _ => rfl
  | succ n ih =>
    intro cur
    by_cases hcur : cur = nullEdge
    · simp only [hcur, findPred, seek, follow_null, if_true]
    · cases hget : s.records.get cur with
      | none =>
        have hf : follow side s.records cur = none := by
          rw [follow, if_neg hcur, hget, Option.map_none]
        simp only [findPred, if_neg hcur, hget, seek, hf]
      | some e => simp only [findPred, if_neg hcur, hget, seek, follow_of_get hcur hget, ih]

theorem collect_eq (side : ChainSide) (keep : Edge → Bool) (s : EdgeStore) (n : Nat) :
    ∀ cur, s.collect side.next keep n cur =
      (walk (follow side s.records) n cur).map
        (List.filter fun id => (s.records.get id).any keep) := by
  induction n with
  | zero => exact fun _ => rfl
  | succ n ih =>
    intro cur
    by_cases hcur : cur = nullEdge
    · simp only [hcur, collect, walk, follow_null, if_true]
      rfl
    · cases hget : s.records.get cur with
      | none =>
        have hf : follow side s.records cur = none := by
          rw [follow, if_neg hcur, hget, Option.map_none]
        simp only [collect, if_neg hcur, hget, walk, hf]
        rfl
      | some e =>
        simp only [collect, if_neg hcur, hget, walk, follow_of_get hcur hget, ih, Option.map_map]
        congr 1
        funext l
        simp [List.filter_cons, hget]

/-- **The rounds are enough**: a loop that ends at all ends within them. -/
theorem collect_rounds {keep : Edge → Bool} {n : Nat} {start : EdgeId} {r : List EdgeId}
    (h : s.collect side.next keep n start = some r) :
    s.collect side.next keep s.rounds start = some r := by
  rw [collect_eq] at h ⊢
  obtain ⟨l, hl, rfl⟩ := Option.map_eq_some_iff.mp h
  rw [rounds, walk_rounds s.records.keys (fun _ => mem_keys_of_follow) hl, Option.map_some]

/-- A traversal that drops nothing visits a segment. -/
theorem collect_all {n : Nat} {start : EdgeId} {l : List EdgeId}
    (h : walk (follow side s.records) n start = some l) :
    s.collect side.next (fun _ => true) s.rounds start = some l := by
  have hrounds := walk_rounds s.records.keys (fun _ => mem_keys_of_follow) h
  rw [collect_eq, rounds, hrounds, Option.map_some, Option.some.injEq, List.filter_eq_self]
  intro id hid
  obtain ⟨stop, hseg, -⟩ := segment_of_walk h
  obtain ⟨x, hx⟩ := Option.ne_none_iff_exists'.mp (hseg.follows hid)
  obtain ⟨-, e, he, -⟩ := follow_inv hx
  rw [he]
  rfl

/-! ## The operations -/

theorem modifySilently_records (s : EdgeStore) (id : EdgeId) (f : Edge → Edge) :
    (s.modifySilently id f).records = s.records.alter id (Option.map f) := by
  unfold modifySilently FiniteMap.alter
  cases h : s.records.get id with
  | none => exact (FiniteMap.remove_of_get_none h).symm
  | some e => rfl

/-- Ids are not the chains' concern. -/
structure SameIds (s t : EdgeStore) : Prop where
  nextId : t.nextId = s.nextId
  freeList : t.freeList = s.freeList

theorem SameIds.refl (s : EdgeStore) : SameIds s s := ⟨rfl, rfl⟩

theorem SameIds.trans {s t u : EdgeStore} (h : SameIds s t) (h' : SameIds t u) : SameIds s u :=
  ⟨h'.nextId.trans h.nextId, h'.freeList.trans h.freeList⟩

theorem modifySilently_sameIds (s : EdgeStore) (id : EdgeId) (f : Edge → Edge) :
    SameIds s (s.modifySilently id f) := by
  unfold modifySilently
  split <;> exact ⟨rfl, rfl⟩

section Persistent
variable [Bincode Edge]

@[simp] theorem persist_records (s : EdgeStore) (id : EdgeId) :
    (s.persist id).records = s.records := by
  unfold persist
  split <;> simp

theorem persist_sameIds (s : EdgeStore) (id : EdgeId) : SameIds s (s.persist id) := by
  unfold persist
  split <;> exact ⟨by simp, by simp⟩

@[simp] theorem persistPred_records (s : EdgeStore) (pred : Option EdgeId) :
    (s.persistPred pred).records = s.records := by
  cases pred <;> simp [persistPred]

theorem persistPred_sameIds (s : EdgeStore) (pred : Option EdgeId) :
    SameIds s (s.persistPred pred) := by
  cases pred with
  | none => exact SameIds.refl s
  | some id => exact persist_sameIds s id

/-- A link sets both pointers of the edge. -/
theorem linkIntoChains_records (s : EdgeStore) (newEdge srcFirstOut dstFirstIn : EdgeId) :
    (s.linkIntoChains newEdge srcFirstOut dstFirstIn).1.records =
      s.records.alter newEdge (Option.map fun e =>
        { e with nextOut := srcFirstOut, nextIn := dstFirstIn }) := by
  apply FiniteMap.ext
  intro id
  simp only [linkIntoChains, persist_records, modifySilently_records, FiniteMap.get_alter]
  by_cases hid : id = newEdge
  · simp only [if_pos hid, if_true, Option.map_map]
    rfl
  · simp only [if_neg hid]

theorem softDelete_records (s : EdgeStore) (id : EdgeId) (txId : TxId) :
    (s.softDelete id txId).1.records =
      s.records.alter id (Option.map fun e => { e with deletedTx := txId }) :=
  RecordStore.modify_records s id _

/-- A soft delete leaves the pointers. -/
theorem softDelete_follow (s : EdgeStore) (id : EdgeId) (txId : TxId) (side : ChainSide) :
    follow side (s.softDelete id txId).1.records = follow side s.records := by
  funext x
  apply follow_congr
  rw [softDelete_records]
  apply FiniteMap.map_get_alter
  intro e
  cases side <;> rfl

theorem linkIntoChains_sameIds (s : EdgeStore) (newEdge srcFirstOut dstFirstIn : EdgeId) :
    SameIds s (s.linkIntoChains newEdge srcFirstOut dstFirstIn).1 :=
  ((modifySilently_sameIds _ _ _).trans (modifySilently_sameIds _ _ _)).trans
    (persist_sameIds _ _)

end Persistent

/-- **What taking an edge out of one chain does**: nothing to the store, or one pointer of this
side, of a predecessor that pointed at the edge, is set anew. -/
theorem unlinkFrom_cases {t : EdgeStore} {edgeId next head head' : EdgeId} {pred : Option EdgeId}
    (h : s.unlinkFrom side edgeId next head = some (t, head', pred)) :
    t = s ∨ ∃ p, follow side s.records p = some edgeId ∧
      t = s.modifySilently p (side.setNext next) := by
  unfold unlinkFrom at h
  split at h
  · rw [Option.some.injEq, Prod.mk.injEq] at h
    exact Or.inl h.1.symm
  · split at h
    · exact absurd h (by simp)
    · rw [Option.some.injEq, Prod.mk.injEq] at h
      exact Or.inl h.1.symm
    · rename_i p hp
      rw [Option.some.injEq, Prod.mk.injEq] at h
      rw [findPred_eq] at hp
      exact Or.inr ⟨p, follows_of_seek hp, h.1.symm⟩

/-- A predecessor that is inside the chain is found, and led past the edge. -/
theorem unlinkFrom_middle {edgeId head p : EdgeId} {a b : List EdgeId} (next : EdgeId)
    (h : Segment (follow side s.records) head (a ++ p :: edgeId :: b) nullEdge) :
    s.unlinkFrom side edgeId next head
        = some (s.modifySilently p (side.setNext next), head, some p) ∧
      follow side s.records p = some edgeId := by
  have hnull := follow_null side s.records
  have hhead : head ≠ edgeId := by
    rintro rfl
    -- from the edge on there is one way to the end, and it is shorter than the chain
    have hdrop : Segment (follow side s.records) head (head :: b) nullEdge :=
      Segment.drop (a := a ++ [p]) (by simpa using h)
    have hlen := congrArg List.length (h.unique hnull hdrop hnull)
    simp only [List.length_append, List.length_cons] at hlen
    omega
  have hrounds : a.length < s.rounds := by
    have hle := h.length_le hnull s.records.keys fun _ => mem_keys_of_follow
    simp only [List.length_append, List.length_cons] at hle
    rw [rounds]
    omega
  have hpred := h.seek_eq (h.nodup hnull) hrounds
  exact ⟨by rw [unlinkFrom, if_neg hhead, findPred_eq, hpred], follows_of_seek hpred⟩

/-- The stores differ in the pointers of one side at most. -/
structure SameBut (side : ChainSide) (s t : EdgeStore) : Prop where
  ids : SameIds s t
  node : ∀ other id, (t.records.get id).map (ChainSide.node other)
    = (s.records.get id).map (ChainSide.node other)
  next : ∀ other, other ≠ side → ∀ id, (t.records.get id).map (ChainSide.next other)
    = (s.records.get id).map (ChainSide.next other)

theorem SameBut.refl (side : ChainSide) (s : EdgeStore) : SameBut side s s :=
  ⟨SameIds.refl s, fun _ _ => rfl, fun _ _ _ => rfl⟩

theorem isSome_of_node {t : EdgeStore} {side : ChainSide} {id : EdgeId}
    (h : (t.records.get id).map side.node = (s.records.get id).map side.node) :
    (t.records.get id).isSome = (s.records.get id).isSome := by
  have hmap := congrArg Option.isSome h
  rwa [Option.isSome_map, Option.isSome_map] at hmap

theorem unlinkFrom_sameBut {t : EdgeStore} {edgeId next head head' : EdgeId}
    {pred : Option EdgeId} (h : s.unlinkFrom side edgeId next head = some (t, head', pred)) :
    SameBut side s t := by
  rcases unlinkFrom_cases h with rfl | ⟨p, -, rfl⟩
  · exact SameBut.refl side t
  · refine ⟨modifySilently_sameIds s p _, fun other id => ?_, fun other hne id => ?_⟩
    · rw [modifySilently_records]
      exact FiniteMap.map_get_alter (ChainSide.node_setNext side other next) _ _ _
    · rw [modifySilently_records]
      exact FiniteMap.map_get_alter (ChainSide.next_setNext_of_ne hne next) _ _ _

end EdgeStore
end LightGraph
