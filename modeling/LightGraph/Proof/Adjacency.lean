import LightGraph.Proof.Chains
import LightGraph.Proof.FreeList
import LightGraph.Storage.Adjacency

/-!
# Adjacency chains hold the linked edges

The two lists of every node run through the same records, unlinked edges keep the pointers they
had, and ids come back. What keeps the lists apart is that a list is made of linked edges only
and that an edge's two ends say which lists it is in (`Threaded`): a pointer of one side set at
one linked edge is in one list.
-/

set_option autoImplicit false

namespace LightGraph

open Lib

/-! ## One side -/

/-- The linked edges at a node. -/
def edgesAt (side : ChainSide) (edges : FiniteMap EdgeId Edge) (linked : List EdgeId)
    (v : NodeId) : List EdgeId :=
  linked.filter fun e => (edges.get e).map side.node = some v

/-- From every head there is a segment of the linked edges of the node. -/
def Threaded (side : ChainSide) (edges : FiniteMap EdgeId Edge) (head : NodeId → EdgeId)
    (linked : List EdgeId) : Prop :=
  ∀ v, Segment (follow side edges) (head v) (edgesAt side edges linked v) nullEdge

section Side
variable {side : ChainSide} {edges edges' : FiniteMap EdgeId Edge} {head : NodeId → EdgeId}
  {linked : List EdgeId} {e : EdgeId} {edge : Edge} {v : NodeId}

theorem mem_edgesAt {x : EdgeId} :
    x ∈ edgesAt side edges linked v ↔ x ∈ linked ∧ (edges.get x).map side.node = some v := by
  simp [edgesAt]

theorem edgesAt_congr (h : ∀ x ∈ linked, (edges'.get x).map side.node
    = (edges.get x).map side.node) : edgesAt side edges' linked v = edgesAt side edges linked v :=
  List.filter_congr fun x hx => by rw [h x hx]

/-- What does not touch the linked edges' pointers and ends leaves the lists alone. -/
theorem Threaded.congr (h : Threaded side edges head linked)
    (hnode : ∀ x ∈ linked, (edges'.get x).map side.node = (edges.get x).map side.node)
    (hnext : ∀ x ∈ linked, (edges'.get x).map side.next = (edges.get x).map side.next) :
    Threaded side edges' head linked := by
  intro v
  rw [edgesAt_congr hnode]
  exact (h v).congr fun x hx => follow_congr (hnext x (mem_edgesAt.mp hx).1)

/-- Linking at the head. -/
theorem Threaded.link (h : Threaded side edges head linked)
    (hnull : e ≠ nullEdge) (hnew : e ∉ linked) {edge' : Edge} (hget' : edges'.get e = some edge')
    (hnext' : side.next edge' = head (side.node edge)) (hnode' : side.node edge' = side.node edge)
    (hother : ∀ x, x ≠ e → edges'.get x = edges.get x) :
    Threaded side edges' (Function.update head (side.node edge) e) (e :: linked) := by
  have hold : ∀ x ∈ linked, edges'.get x = edges.get x := fun x hx =>
    hother x fun heq => hnew (heq ▸ hx)
  intro v
  have hseg : Segment (follow side edges') (head v) (edgesAt side edges' linked v) nullEdge :=
    h.congr (fun x hx => by rw [hold x hx]) (fun x hx => by rw [hold x hx]) v
  have hfollow : follow side edges' e = some (head (side.node edge)) := by
    rw [follow_of_get hnull hget', hnext']
  have hcons : edgesAt side edges' (e :: linked) v =
      if side.node edge = v then e :: edgesAt side edges' linked v
      else edgesAt side edges' linked v := by
    simp only [edgesAt, List.filter_cons, hget', Option.map_some, hnode', Option.some.injEq,
      decide_eq_true_eq]
  rw [hcons]
  by_cases hv : side.node edge = v
  · subst hv
    rw [if_pos rfl, Function.update_self]
    exact Segment.cons hfollow hseg
  · rw [if_neg hv, Function.update_of_ne (Ne.symm hv)]
    exact hseg

/-- The list without an edge of it. -/
theorem edgesAt_erase (hnodup : linked.Nodup) :
    edgesAt side edges (linked.erase e) v = (edgesAt side edges linked v).erase e := by
  have hfilter : (edgesAt side edges linked v).Nodup := hnodup.filter _
  rw [hnodup.erase_eq_filter, hfilter.erase_eq_filter, edgesAt, edgesAt, List.filter_filter,
    List.filter_filter]
  exact List.filter_congr fun x _ => Bool.and_comm _ _

/-- Another node's list does not have the edge. -/
theorem edgesAt_erase_of_ne (hnodup : linked.Nodup) (hget : edges.get e = some edge)
    (hv : side.node edge ≠ v) :
    edgesAt side edges (linked.erase e) v = edgesAt side edges linked v := by
  rw [edgesAt_erase hnodup]
  refine List.erase_of_not_mem fun hmem => hv ?_
  have h := (mem_edgesAt.mp hmem).2
  rw [hget, Option.map_some, Option.some.injEq] at h
  exact h

/-- A linked edge is stored, and not under `NULL_EDGE`. -/
theorem Threaded.follow_eq (h : Threaded side edges head linked) (hmem : e ∈ linked)
    (hget : edges.get e = some edge) : follow side edges e = some (side.next edge) := by
  have hlist : e ∈ edgesAt side edges linked (side.node edge) :=
    mem_edgesAt.mpr ⟨hmem, by rw [hget, Option.map_some]⟩
  obtain ⟨x, hx⟩ := Option.ne_none_iff_exists'.mp ((h _).follows hlist)
  exact follow_of_get (follow_inv hx).1 hget

/-- Taking the first edge of a list out. -/
theorem Threaded.pop (h : Threaded side edges head linked) (hnodup : linked.Nodup)
    (hmem : e ∈ linked) (hget : edges.get e = some edge) {b : List EdgeId}
    (hsplit : edgesAt side edges linked (side.node edge) = e :: b) :
    Threaded side edges (Function.update head (side.node edge) (side.next edge))
      (linked.erase e) := by
  intro v
  by_cases hv : side.node edge = v
  · subst hv
    have hseg := h (side.node edge)
    rw [hsplit] at hseg
    obtain ⟨-, y, hy, htail⟩ := hseg
    rw [h.follow_eq hmem hget, Option.some.injEq] at hy
    rw [Function.update_self, edgesAt_erase hnodup, hsplit, List.erase_cons_head, hy]
    exact htail
  · rw [Function.update_of_ne (Ne.symm hv), edgesAt_erase_of_ne hnodup hget hv]
    exact h v

/-- Taking an edge out behind its predecessor. -/
theorem Threaded.remove (h : Threaded side edges head linked) (hnodup : linked.Nodup)
    (hmem : e ∈ linked) (hget : edges.get e = some edge) {a b : List EdgeId} {p : EdgeId}
    {pedge : Edge} (hsplit : edgesAt side edges linked (side.node edge) = a ++ p :: e :: b)
    (hpnull : p ≠ nullEdge) (hp : edges.get p = some pedge) :
    Threaded side (edges.put p (side.setNext (side.next edge) pedge)) head (linked.erase e) := by
  have hnode : ∀ x ∈ linked.erase e,
      ((edges.put p (side.setNext (side.next edge) pedge)).get x).map side.node
        = (edges.get x).map side.node := by
    intro x _
    rw [FiniteMap.get_put]
    split
    · rename_i hx
      rw [hx, hp, Option.map_some, Option.map_some, ChainSide.node_setNext]
    · rfl
  intro v
  rw [edgesAt_congr hnode, follow_put hpnull, ChainSide.next_setNext]
  have hseg := h (side.node edge)
  rw [hsplit] at hseg
  by_cases hv : side.node edge = v
  · subst hv
    have hlist := hseg.nodup (follow_null side edges)
    have herase : (a ++ p :: e :: b).erase e = a ++ p :: b := by
      rw [List.nodup_append] at hlist
      obtain ⟨-, htail, hdisj⟩ := hlist
      have hne : p ≠ e := by
        rintro rfl
        simp at htail
      rw [List.erase_append_right _ fun hmem => hdisj e hmem e (by simp) rfl,
        List.erase_cons_tail (by simpa using hne), List.erase_cons_head]
    rw [edgesAt_erase hnodup, hsplit, herase]
    exact hseg.remove hlist (h.follow_eq hmem hget)
  · -- the predecessor is in the list of its own node only
    rw [edgesAt_erase_of_ne hnodup hget hv]
    refine (h v).congr fun x hx => Function.update_of_ne ?_ _ _
    rintro rfl
    have hpnode : x ∈ edgesAt side edges linked (side.node edge) := by
      rw [hsplit]
      simp
    have hx' := (mem_edgesAt.mp hx).2
    rw [(mem_edgesAt.mp hpnode).2, Option.some.injEq] at hx'
    exact hv hx'

end Side

namespace EdgeStore
variable {s : EdgeStore} {side : ChainSide} {head : NodeId → EdgeId} {linked : List EdgeId}
  {e : EdgeId} {edge : Edge}

/-- **Taking an edge out of one chain** ends, and leaves the other edges linked in their order. -/
theorem unlinkFrom_threaded (h : Threaded side s.records head linked) (hnodup : linked.Nodup)
    (hmem : e ∈ linked) (hget : s.records.get e = some edge) :
    ∃ t head' pred,
      s.unlinkFrom side e (side.next edge) (head (side.node edge)) = some (t, head', pred) ∧
      Threaded side t.records (Function.update head (side.node edge) head') (linked.erase e) := by
  have hnull := follow_null side s.records
  have hlist : e ∈ edgesAt side s.records linked (side.node edge) :=
    mem_edgesAt.mpr ⟨hmem, by rw [hget, Option.map_some]⟩
  obtain ⟨a, b, hsplit⟩ := List.append_of_mem hlist
  have hseg := h (side.node edge)
  rcases List.eq_nil_or_concat a with rfl | ⟨a, p, rfl⟩
  · -- the edge is the first of the list
    rw [hsplit] at hseg
    exact ⟨s, side.next edge, none, by rw [unlinkFrom, if_pos hseg.1],
      h.pop hnodup hmem hget hsplit⟩
  · -- it stands behind another one, which the loop finds
    rw [List.concat_eq_append, List.append_assoc, List.singleton_append] at hsplit
    rw [hsplit] at hseg
    obtain ⟨hrun, hpred⟩ := unlinkFrom_middle (side.next edge) hseg
    obtain ⟨hpnull, pedge, hpedge, -⟩ := follow_inv hpred
    refine ⟨s.modifySilently p (side.setNext (side.next edge)), head (side.node edge), some p,
      hrun, ?_⟩
    have hrecords : (s.modifySilently p (side.setNext (side.next edge))).records
        = s.records.put p (side.setNext (side.next edge) pedge) := by
      simp only [modifySilently, hpedge]
    rw [Function.update_eq_self, hrecords]
    exact h.remove hnodup hmem hget hsplit hpnull hpedge

/-- **Unlinking a linked edge** ends, takes it out of its two lists, and leaves the rest. -/
theorem unlinkFromChains_threaded [Bincode Edge] {firstOut firstIn : NodeId → EdgeId}
    (hout : Threaded .outgoing s.records firstOut linked)
    (hin : Threaded .incoming s.records firstIn linked) (hnodup : linked.Nodup)
    (hmem : e ∈ linked) (hget : s.records.get e = some edge) :
    ∃ t head head',
      s.unlinkFromChains e (firstOut edge.src) (firstIn edge.dst) = some (t, head, head', true) ∧
      Threaded .outgoing t.records (Function.update firstOut edge.src head) (linked.erase e) ∧
      Threaded .incoming t.records (Function.update firstIn edge.dst head') (linked.erase e) ∧
      SameIds s t ∧ ∀ side id, (t.records.get id).map (ChainSide.node side)
        = (s.records.get id).map (ChainSide.node side) := by
  obtain ⟨t, head, pred, hrun, hout'⟩ := unlinkFrom_threaded hout hnodup hmem hget
  have hsame := unlinkFrom_sameBut hrun
  have hne : ChainSide.incoming ≠ .outgoing := by decide
  have hin' : Threaded .incoming t.records firstIn linked :=
    hin.congr (fun x _ => hsame.node .incoming x) fun x _ => hsame.next .incoming hne x
  -- the edge itself may have been changed, but not on the other side
  obtain ⟨edge', hget'⟩ : ∃ edge', t.records.get e = some edge' :=
    Option.isSome_iff_exists.mp (by rw [isSome_of_node (hsame.node .outgoing e), hget]; rfl)
  have hnode : edge'.dst = edge.dst := by
    have h := hsame.node .incoming e
    rw [hget', hget, Option.map_some, Option.map_some, Option.some.injEq] at h
    exact h
  have hnext : edge'.nextIn = edge.nextIn := by
    have h := hsame.next .incoming hne e
    rw [hget', hget, Option.map_some, Option.map_some, Option.some.injEq] at h
    exact h
  obtain ⟨u, head', pred', hrun', hin''⟩ := unlinkFrom_threaded hin' hnodup hmem hget'
  have hsame' := unlinkFrom_sameBut hrun'
  have hrun'' : t.unlinkFrom .incoming e edge.nextIn (firstIn edge.dst)
      = some (u, head', pred') := by
    rw [← hnext, ← hnode]
    exact hrun'
  have hout'' : Threaded .outgoing u.records (Function.update firstOut edge.src head)
      (linked.erase e) :=
    hout'.congr (fun x _ => hsame'.node .outgoing x) fun x _ =>
      hsame'.next .outgoing (by decide) x
  refine ⟨(u.persistPred pred).persistPred pred', head, head', ?_, ?_, ?_, ?_,
    fun other id => ?_⟩
  · have hrun₁ : s.unlinkFrom .outgoing e edge.nextOut (firstOut edge.src)
        = some (t, head, pred) := hrun
    simp only [unlinkFromChains, hget, hrun₁, hrun'']
  · rw [persistPred_records, persistPred_records]
    exact hout''
  · rw [persistPred_records, persistPred_records, ← hnode]
    exact hin''
  · exact (hsame.ids.trans hsame'.ids).trans
      ((persistPred_sameIds _ _).trans (persistPred_sameIds _ _))
  · rw [persistPred_records, persistPred_records, hsame'.node, hsame.node]

end EdgeStore

/-! ## The machine -/

namespace Adjacency
variable [Bincode Edge]

/-- The invariant. -/
structure Linked (s : Adjacency) : Prop where
  sound : RecordStore.Sound s.store
  nodup : s.linked.Nodup
  present : ∀ e ∈ s.linked, (s.store.records.get e).isSome = true
  outgoing : Threaded .outgoing s.store.records s.firstOut s.linked
  incoming : Threaded .incoming s.store.records s.firstIn s.linked

/-- There are ids left, so that none is `NULL_EDGE`. -/
def HasIds (s : Adjacency) : AdjacencyStep → Prop
  | .insertEdge .. => s.store.nextId < maxTxId
  | _ => True

omit [Bincode Edge] in
theorem start_linked : start.Linked :=
  ⟨RecordStore.new_sound, List.nodup_nil, fun _ h => absurd h List.not_mem_nil, fun _ => rfl,
    fun _ => rfl⟩

variable {s s' : Adjacency} {e : EdgeId}

omit [Bincode Edge] in
theorem Linked.ne_null (h : s.Linked) {edge : Edge} (hget : s.store.records.get e = some edge) :
    e ≠ nullEdge := by
  rintro rfl
  have hlt := UInt64.lt_iff_toNat_lt.mp (h.sound.keyBelow nullEdge (by rw [hget]; rfl))
  have hmax : s.store.nextId.toNat < 2 ^ 64 := s.store.nextId.toNat_lt
  have hnull : nullEdge.toNat = 2 ^ 64 - 1 := by decide
  omega

omit [Bincode Edge] in
/-- The store changes where no linked edge is. -/
theorem Linked.ofStore (h : s.Linked) {store : EdgeStore} (hsound : RecordStore.Sound store)
    (hnode : ∀ side, ∀ x ∈ s.linked, (store.records.get x).map (ChainSide.node side)
      = (s.store.records.get x).map (ChainSide.node side))
    (hnext : ∀ side, ∀ x ∈ s.linked, (store.records.get x).map (ChainSide.next side)
      = (s.store.records.get x).map (ChainSide.next side)) :
    ({ s with store } : Adjacency).Linked := by
  refine ⟨hsound, h.nodup, fun x hx => ?_, h.outgoing.congr (hnode _) (hnext _),
    h.incoming.congr (hnode _) (hnext _)⟩
  exact (EdgeStore.isSome_of_node (hnode .outgoing x hx)).trans (h.present x hx)

theorem Linked.link (h : s.Linked) {edge : Edge} (hget : s.store.records.get e = some edge)
    (hnew : e ∉ s.linked) :
    Linked {
      store := (EdgeStore.linkIntoChains s.store e (s.firstOut edge.src) (s.firstIn edge.dst)).1
      firstOut := Function.update s.firstOut edge.src e
      firstIn := Function.update s.firstIn edge.dst e
      linked := e :: s.linked } := by
  have hids := EdgeStore.linkIntoChains_sameIds s.store e (s.firstOut edge.src)
    (s.firstIn edge.dst)
  have hrecords := EdgeStore.linkIntoChains_records s.store e (s.firstOut edge.src)
    (s.firstIn edge.dst)
  generalize (EdgeStore.linkIntoChains s.store e (s.firstOut edge.src) (s.firstIn edge.dst)).1
    = store at hids hrecords
  have hget' : store.records.get e = some
      { edge with nextOut := s.firstOut edge.src, nextIn := s.firstIn edge.dst } := by
    rw [hrecords, FiniteMap.get_alter, if_pos rfl, hget, Option.map_some]
  have hother : ∀ x, x ≠ e → store.records.get x = s.store.records.get x := by
    intro x hx
    rw [hrecords, FiniteMap.get_alter, if_neg hx]
  refine ⟨?_, List.nodup_cons.mpr ⟨hnew, h.nodup⟩, fun x hx => ?_, ?_, ?_⟩
  · refine h.sound.of_keys (fun id hid => ?_) hids.freeList hids.nextId
    by_cases heq : id = e
    · rw [heq, hget]
      rfl
    · rwa [hother id heq] at hid
  · by_cases heq : x = e
    · rw [heq, hget']
      rfl
    · rw [hother x heq]
      exact h.present x ((List.mem_cons.mp hx).resolve_left heq)
  · exact h.outgoing.link (h.ne_null hget) hnew hget' rfl rfl hother
  · exact h.incoming.link (h.ne_null hget) hnew hget' rfl rfl hother

/-- An unlink returns, and keeps the invariant. -/
theorem Linked.unlink (h : s.Linked) (hmem : e ∈ s.linked) :
    ∃ t, s.step (.unlink e) = some t ∧ t.Linked ∧ t.linked = s.linked.erase e ∧
      ∀ side id, (t.store.records.get id).map (ChainSide.node side)
        = (s.store.records.get id).map (ChainSide.node side) := by
  obtain ⟨edge, hget⟩ := Option.isSome_iff_exists.mp (h.present e hmem)
  obtain ⟨t, head, head', hrun, hout, hin, hids, hnode⟩ :=
    EdgeStore.unlinkFromChains_threaded h.outgoing h.incoming h.nodup hmem hget
  have hsome : ∀ id, (t.records.get id).isSome = (s.store.records.get id).isSome := fun id =>
    EdgeStore.isSome_of_node (hnode .outgoing id)
  refine ⟨{ store := t, firstOut := Function.update s.firstOut edge.src head,
            firstIn := Function.update s.firstIn edge.dst head', linked := s.linked.erase e },
    ?_, ⟨?_, h.nodup.erase e, fun x hx => ?_, hout, hin⟩, rfl, hnode⟩
  · simp only [step, hget, if_pos hmem, hrun]
  · exact h.sound.of_keys (fun id hid => hsome id ▸ hid) hids.freeList hids.nextId
  · rw [hsome]
    exact h.present x (List.mem_of_mem_erase hx)

theorem Linked.step (h : s.Linked) {a : AdjacencyStep} (hg : s.HasIds a)
    (hs : s.step a = some s') : s'.Linked := by
  cases a with
  | insertEdge src dst etype propsRow txId =>
    obtain rfl := Option.some.inj hs
    have habsent := h.sound.allocId_absent
    have hroom : s.store.nextId.toNat + 1 < 2 ^ 64 := by
      have hlt : s.store.nextId.toNat < 2 ^ 64 - 1 := UInt64.lt_iff_toNat_lt.mp hg
      omega
    have hsound := (RecordStore.Sound.insert h.sound
      (fun id => Edge.new id src dst etype propsRow txId) hroom).1
    have hold : ∀ x ∈ s.linked, (EdgeStore.insertEdge s.store src dst etype propsRow
        txId).2.records.get x = s.store.records.get x := by
      intro x hx
      have hne : x ≠ (RecordStore.allocId s.store).1 := by
        rintro rfl
        have hpresent := h.present _ hx
        rw [habsent] at hpresent
        exact absurd hpresent (by simp)
      rw [EdgeStore.insertEdge, RecordStore.insert_records, FiniteMap.get_put_ne _ _ hne]
    exact h.ofStore hsound (fun _ x hx => by rw [hold x hx]) fun _ x hx => by rw [hold x hx]
  | link e =>
    simp only [Adjacency.step] at hs
    split at hs
    · exact absurd hs (by simp)
    · rename_i edge hget
      split at hs
      · exact absurd hs (by simp)
      · rename_i hnew
        obtain rfl := Option.some.inj hs
        exact h.link hget hnew
  | unlink e =>
    have hmem : e ∈ s.linked := by
      by_contra hnot
      simp only [Adjacency.step, if_neg hnot] at hs
      split at hs <;> exact absurd hs (by simp)
    obtain ⟨t, ht, hlinked, -⟩ := h.unlink hmem
    rw [ht, Option.some.injEq] at hs
    exact hs ▸ hlinked
  | softDelete id txId =>
    obtain rfl := Option.some.inj hs
    have hsame : ∀ {β : Type} (f : Edge → β), (∀ e, f { e with deletedTx := txId } = f e) →
        ∀ x, ((EdgeStore.softDelete s.store id txId).1.records.get x).map f
          = (s.store.records.get x).map f := by
      intro β f hf x
      rw [EdgeStore.softDelete_records]
      exact FiniteMap.map_get_alter hf _ _ _
    have hsound : RecordStore.Sound (EdgeStore.softDelete s.store id txId).1 :=
      h.sound.of_keys (fun _ => RecordStore.isSome_of_modify)
        (RecordStore.modify_freeList s.store id _) (RecordStore.modify_nextId s.store id _)
    refine h.ofStore hsound (fun side x _ => hsame side.node (fun _ => ?_) x)
      fun side x _ => hsame side.next (fun _ => ?_) x
    · cases side <;> rfl
    · cases side <;> rfl
  | hardDelete id =>
    simp only [Adjacency.step] at hs
    split at hs
    · exact absurd hs (by simp)
    · rename_i hnot
      obtain rfl := Option.some.inj hs
      have hold : ∀ x ∈ s.linked, (s.store.hardDelete id).1.records.get x
          = s.store.records.get x := by
        intro x hx
        rw [RecordStore.hardDelete_records, FiniteMap.get_remove_ne]
        rintro rfl
        exact hnot hx
      exact h.ofStore (h.sound.hardDelete id) (fun _ x hx => by rw [hold x hx])
        fun _ x hx => by rw [hold x hx]

theorem run_linked {steps : List AdjacencyStep} (hg : Guarded Adjacency.step HasIds start steps)
    (hrun : run Adjacency.step start steps = some s) : s.Linked :=
  guarded_invariant (fun _ _ _ h hg hs => h.step hg hs) start_linked hg hrun

omit [Bincode Edge] in
/-- The traversals from the heads. -/
theorem Linked.lists (h : s.Linked) (v : NodeId) :
    s.outList v = some (s.linkedAt .outgoing v) ∧ s.inList v = some (s.linkedAt .incoming v) :=
  have hout := EdgeStore.collect_all ((h.outgoing v).walk_eq (follow_null _ _))
  have hin := EdgeStore.collect_all ((h.incoming v).walk_eq (follow_null _ _))
  ⟨hout, hin⟩

end Adjacency

/-- **Adjacency chains hold the linked edges**: the traversals end and list the linked edges of
the node, the latest first; an unlink ends, takes its edge out of the lists and changes nothing
else in them. -/
theorem adjacency_lists [Bincode Edge] {steps : List AdjacencyStep} {s : Adjacency}
    (hg : Guarded Adjacency.step Adjacency.HasIds .start steps)
    (hrun : run Adjacency.step .start steps = some s) :
    (∀ side v, (s.linkedAt side v).Nodup) ∧
    (∀ v, s.outList v = some (s.linkedAt .outgoing v) ∧
      s.inList v = some (s.linkedAt .incoming v)) ∧
    ∀ e ∈ s.linked, ∃ t, s.step (.unlink e) = some t ∧
      ∀ v, t.outList v = (s.outList v).map (List.erase · e) ∧
        t.inList v = (s.inList v).map (List.erase · e) := by
  have h := Adjacency.run_linked hg hrun
  refine ⟨fun _ _ => h.nodup.filter _, h.lists, fun e he => ?_⟩
  obtain ⟨t, ht, hlinked, herase, hnode⟩ := h.unlink he
  have hat : ∀ side v, t.linkedAt side v = (s.linkedAt side v).erase e := by
    intro side v
    show edgesAt side t.store.records t.linked v = (edgesAt side s.store.records s.linked v).erase e
    rw [herase, edgesAt_congr fun x _ => hnode side x, edgesAt_erase h.nodup]
  refine ⟨t, ht, fun v => ?_⟩
  rw [(hlinked.lists v).1, (hlinked.lists v).2, (h.lists v).1, (h.lists v).2, hat, hat]
  exact ⟨rfl, rfl⟩

/-- Two parallel edges and a self-loop between them, which is unlinked from the middle of its
outgoing list; its id comes back. -/
def linkAndUnlink : List AdjacencyStep :=
  [.insertEdge 1 2 0 0 1, .insertEdge 1 1 0 0 1, .insertEdge 1 2 0 0 1, .link 0, .link 1, .link 2,
    .unlink 1, .hardDelete 1, .insertEdge 2 1 0 0 2, .link 1]

def Adjacency.afterUnlink : Adjacency := (run Adjacency.step .start linkAndUnlink).getD .start

theorem adjacency_lists_three :
    Adjacency.afterUnlink.outList 1 = some [2, 0] ∧ Adjacency.afterUnlink.inList 1 = some [1] := by
  have hg : Guarded Adjacency.step Adjacency.HasIds .start linkAndUnlink :=
    Guarded.cons rfl (show (0 : UInt64) < maxTxId by decide)
      (Guarded.cons rfl (show (1 : UInt64) < maxTxId by decide)
        (Guarded.cons rfl (show (2 : UInt64) < maxTxId by decide)
          (Guarded.cons rfl trivial (Guarded.cons rfl trivial (Guarded.cons rfl trivial
            (Guarded.cons rfl trivial (Guarded.cons rfl trivial
              (Guarded.cons rfl (show (3 : UInt64) < maxTxId by decide)
                (Guarded.cons rfl trivial trivial)))))))))
  obtain ⟨-, hlists, -⟩ := adjacency_lists (s := Adjacency.afterUnlink) hg rfl
  have hout : Adjacency.afterUnlink.linkedAt .outgoing 1 = [2, 0] := by decide
  have hin : Adjacency.afterUnlink.linkedAt .incoming 1 = [1] := by decide
  rw [← hout, ← hin]
  exact hlists 1

end LightGraph
