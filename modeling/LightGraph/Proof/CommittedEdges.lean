import LightGraph.Proof.DatabaseLogs

/-!
# Committed edges and the chains

A node's `first_out` is documented as the head of the chain of its outgoing edges, and an edge's
`next_out` as the next edge with the same source. The edge store has the operation that makes this
so, `link_into_chains`; `commit` never calls it. It puts the edge into the edge store with both
pointers null and leaves the heads in the node store as they were, which is null (`Unlinked`). So
what the chains show of the committed edges is nothing, and that is right where there are none.
-/

set_option autoImplicit false

namespace LightGraph

open Lib

/-- A database, and the edges its committed transactions have created. -/
structure EdgeRun where
  db : Database
  created : List (EdgeId × NodeId × NodeId × LabelId × UInt32)

/-- A traversal ends, and has visited exactly these edges, each once. -/
def VisitsExactly (visited : Option (List EdgeId)) (edges : List EdgeId) : Prop :=
  ∃ l, visited = some l ∧ l.Nodup ∧ ∀ e, e ∈ l ↔ e ∈ edges

namespace EdgeRun

/-- The created edges with this source, and those with this target. -/
def createdFrom (s : EdgeRun) (v : NodeId) : List EdgeId :=
  (s.created.filter fun e => e.2.1 = v).map Prod.fst

def createdTo (s : EdgeRun) (v : NodeId) : List EdgeId :=
  (s.created.filter fun e => e.2.2.1 = v).map Prod.fst

/-- From the heads of every node the traversals visit the edges created at it. -/
def EdgesReachable (s : EdgeRun) : Prop :=
  ∀ id n, s.db.nodes.get id = some n →
    VisitsExactly (EdgeStore.outEdges s.db.edges n.firstOut) (s.createdFrom n.id) ∧
    VisitsExactly (EdgeStore.inEdges s.db.edges n.firstIn) (s.createdTo n.id)

def start (db : Database) : EdgeRun := { db, created := [] }

end EdgeRun

/-- The calls that create. -/
def TxCall.Creates : TxCall → Prop
  | .createNode _ _ => True
  | .createEdge _ _ _ _ => True
  | _ => False

def TxCall.CreatesEdge : TxCall → Prop
  | .createEdge _ _ _ _ => True
  | _ => False

section Persistent
variable [Bincode Node] [Bincode Edge] [Bincode (Option Value)]

/-- One transaction, with no other under way. -/
def EdgeRun.step (s : EdgeRun) (script : TxScript) : Option EdgeRun :=
  match s.db.runTx script with
  | none => none
  | some db => some { db, created := s.created ++ (s.db.prepare script).1.edgeInserts }

/-- The transaction commits, creates nodes and edges, and the ends of its edges are in the node
store then. -/
def TxScript.CreatesBetweenNodes (s : EdgeRun) (script : TxScript) : Prop :=
  script.commits = true ∧ (∀ c ∈ script.calls, c.Creates) ∧
    ∀ db, s.db.runTx script = some db → ∀ e ∈ (s.db.prepare script).1.edgeInserts,
      (db.nodes.get e.2.1).isSome = true ∧ (db.nodes.get e.2.2.1).isSome = true

/-! ## What a commit does to the nodes -/

/-- Every node is filed under its id and has no chain. -/
def Maps.Unlinked (m : Maps) : Prop :=
  ∀ id n, m.nodes.get id = some n → n.id = id ∧ n.firstOut = nullEdge ∧ n.firstIn = nullEdge

omit [Bincode Node] [Bincode Edge] [Bincode (Option Value)] in
/-- What a write leaves of a node that was there, and what it puts where there was none. -/
theorem Maps.write_node (m : Maps) (txId : TxId) (w : StoreWrite) (id : NodeId) :
    (m.write txId w).nodes.get id = m.nodes.get id ∨
    (∃ labels propsRow, (m.write txId w).nodes.get id
      = some (Node.new id labels propsRow txId)) ∨
    ∃ f : Node → Node, (m.write txId w).nodes.get id = (m.nodes.get id).map f ∧
      ∀ n, (f n).id = n.id ∧ (f n).firstOut = n.firstOut ∧ (f n).firstIn = n.firstIn := by
  cases w with
  | insertNode id' labels propsRow =>
    simp only [write, FiniteMap.get_alter]
    split
    · rename_i heq
      exact Or.inr (Or.inl ⟨labels, propsRow, by rw [heq]⟩)
    · exact Or.inl rfl
  | updateLabels id' labels =>
    simp only [write, FiniteMap.get_alter]
    split
    · rename_i heq
      exact Or.inr (Or.inr ⟨fun n => { n with labels, createdTx := txId }, by rw [heq],
        fun n => ⟨rfl, rfl, rfl⟩⟩)
    · exact Or.inl rfl
  | deleteNode id' =>
    simp only [write, FiniteMap.get_alter]
    split
    · rename_i heq
      exact Or.inr (Or.inr ⟨fun n => { n with deletedTx := txId }, by rw [heq],
        fun n => ⟨rfl, rfl, rfl⟩⟩)
    · exact Or.inl rfl
  | insertEdge id' src dst etype propsRow => exact Or.inl rfl
  | deleteEdge id' => exact Or.inl rfl
  | insertProp label prop row value => exact Or.inl rfl

omit [Bincode Node] [Bincode Edge] [Bincode (Option Value)] in
theorem Maps.Unlinked.write {m : Maps} (h : m.Unlinked) (txId : TxId) (w : StoreWrite) :
    (m.write txId w).Unlinked := by
  intro id n hn
  rcases m.write_node txId w id with hsame | ⟨labels, propsRow, hnew⟩ | ⟨f, hmap, hf⟩
  · exact h id n (hsame.symm.trans hn)
  · rw [hnew, Option.some.injEq] at hn
    subst hn
    exact ⟨rfl, rfl, rfl⟩
  · rw [hmap, Option.map_eq_some_iff] at hn
    obtain ⟨old, hold, rfl⟩ := hn
    obtain ⟨hid, hout, hin⟩ := h id old hold
    obtain ⟨hid', hout', hin'⟩ := hf old
    exact ⟨hid'.trans hid, hout'.trans hout, hin'.trans hin⟩

omit [Bincode Node] [Bincode Edge] [Bincode (Option Value)] in
/-- No write takes a node away. -/
theorem Maps.isSome_write {m : Maps} {id : NodeId} (h : (m.nodes.get id).isSome = true)
    (txId : TxId) (w : StoreWrite) : ((m.write txId w).nodes.get id).isSome = true := by
  rcases m.write_node txId w id with hsame | ⟨labels, propsRow, hnew⟩ | ⟨f, hmap, -⟩
  · rw [hsame]
    exact h
  · rw [hnew]
    rfl
  · rw [hmap, Option.isSome_map]
    exact h

omit [Bincode Node] [Bincode Edge] [Bincode (Option Value)] in
theorem Maps.unlinked_writeAll (txId : TxId) (ws : List StoreWrite) : ∀ {m : Maps}, m.Unlinked →
    (m.writeAll txId ws).Unlinked ∧ ∀ id, (m.nodes.get id).isSome = true →
      ((m.writeAll txId ws).nodes.get id).isSome = true := by
  induction ws with
  | nil => exact fun h => ⟨h, fun _ hid => hid⟩
  | cons w ws ih =>
    intro m h
    obtain ⟨hun, hkeep⟩ := ih (h.write txId w)
    exact ⟨hun, fun id hid => hkeep id (Maps.isSome_write hid txId w)⟩

/-- A transaction that commits writes its buffers to the maps. -/
theorem Database.maps_of_runTx {db db' : Database} {script : TxScript}
    (hcommits : script.commits = true) (h : db.runTx script = some db') :
    db'.maps = db.maps.writeAll (db.prepare script).1.txId (db.prepare script).1.writes := by
  obtain ⟨hsame, -, -, hw, hc⟩ := prepare_same db script
  unfold runTx at h
  dsimp only at h
  rw [if_pos hcommits, Transaction.commit, if_neg (by simp [hw]), if_neg (by simp [hc])] at h
  cases hm : (db.prepare script).2.txManager.commit (db.prepare script).1.txId with
  | error e =>
    rw [hm] at h
    exact absurd h (by simp)
  | ok m =>
    rw [hm] at h
    rw [← Option.some.inj h, performAll_maps]
    exact congrArg (Maps.writeAll _ · _) hsame.maps

omit [Bincode Node] [Bincode Edge] [Bincode (Option Value)] in
/-- The buffer of created edges is empty as long as no call creates one. -/
theorem edgeInserts_eq_nil_iff (calls : List TxCall) : ∀ p : Transaction × Database,
    (calls.foldl TxCall.apply p).1.edgeInserts = [] ↔
      p.1.edgeInserts = [] ∧ ∀ c ∈ calls, ¬ c.CreatesEdge := by
  induction calls with
  | nil => exact fun p => ⟨fun h => ⟨h, fun c hc => absurd hc List.not_mem_nil⟩, fun h => h.1⟩
  | cons c calls ih =>
    intro p
    rw [List.foldl_cons, ih, List.forall_mem_cons, ← and_assoc]
    refine and_congr_left fun _ => ?_
    obtain ⟨tx, db⟩ := p
    cases c with
    | createEdge src dst etype propsRow =>
      have hne : (TxCall.apply (tx, db) (.createEdge src dst etype propsRow)).1.edgeInserts ≠ [] :=
        List.append_ne_nil_of_right_ne_nil _ (List.cons_ne_nil _ _)
      exact ⟨fun h => absurd h hne, fun h => absurd trivial h.2⟩
    | createNode labels propsRow => exact (and_iff_left id).symm
    | updateNodeLabels id' labels => exact (and_iff_left id).symm
    | deleteNode id' => exact (and_iff_left id).symm
    | deleteEdge id' => exact (and_iff_left id).symm
    | setProp label prop row value => exact (and_iff_left id).symm

/-! ## Runs -/

namespace EdgeRun
variable {s t : EdgeRun} {script : TxScript}

theorem step_inv (h : s.step script = some t) :
    s.db.runTx script = some t.db ∧
      t.created = s.created ++ (s.db.prepare script).1.edgeInserts := by
  unfold step at h
  split at h
  · exact absurd h (by simp)
  · rename_i db hdb
    obtain rfl := Option.some.inj h
    exact ⟨hdb, rfl⟩

/-- No node has a chain, and the ends of the created edges are nodes. -/
structure Unlinked (s : EdgeRun) : Prop where
  nodes : s.db.maps.Unlinked
  ends : ∀ e ∈ s.created,
    (s.db.nodes.get e.2.1).isSome = true ∧ (s.db.nodes.get e.2.2.1).isSome = true

theorem Unlinked.step (h : s.Unlinked) (hscript : script.CreatesBetweenNodes s)
    (hs : s.step script = some t) : t.Unlinked := by
  obtain ⟨hrun, hcreated⟩ := step_inv hs
  obtain ⟨hcommits, -, hends⟩ := hscript
  have hmaps := Database.maps_of_runTx hcommits hrun
  obtain ⟨hun, hkeep⟩ := Maps.unlinked_writeAll (s.db.prepare script).1.txId
    (s.db.prepare script).1.writes h.nodes
  rw [← hmaps] at hun hkeep
  refine ⟨hun, fun e he => ?_⟩
  rw [hcreated] at he
  rcases List.mem_append.mp he with hold | hnew
  · obtain ⟨hsrc, hdst⟩ := h.ends e hold
    exact ⟨hkeep _ hsrc, hkeep _ hdst⟩
  · exact hends t.db hrun e hnew

/-- There are created edges exactly where a call was made that creates one. -/
theorem created_eq_nil_iff (scripts : List TxScript) : ∀ {s t : EdgeRun},
    run EdgeRun.step s scripts = some t →
    (t.created = [] ↔
      s.created = [] ∧ ∀ script ∈ scripts, ∀ c ∈ script.calls, ¬ c.CreatesEdge) := by
  induction scripts with
  | nil =>
    intro s t h
    obtain rfl := Option.some.inj h
    exact ⟨fun h => ⟨h, fun _ hs => absurd hs List.not_mem_nil⟩, fun h => h.1⟩
  | cons script scripts ih =>
    intro s t h
    obtain ⟨u, hu, hrest⟩ := run_cons_inv h
    rw [ih hrest, (step_inv hu).2, List.append_eq_nil_iff, List.forall_mem_cons, and_assoc]
    refine and_congr_right fun _ => and_congr_left fun _ => ?_
    exact (edgeInserts_eq_nil_iff script.calls s.db.beginWrite).trans (and_iff_right rfl)

omit [Bincode Node] [Bincode Edge] [Bincode (Option Value)] in
/-- From a null head there is nothing. -/
theorem outEdges_null (edges : EdgeStore) : EdgeStore.outEdges edges nullEdge = some [] := rfl

omit [Bincode Node] [Bincode Edge] [Bincode (Option Value)] in
theorem inEdges_null (edges : EdgeStore) : EdgeStore.inEdges edges nullEdge = some [] := rfl

omit [Bincode Node] [Bincode Edge] [Bincode (Option Value)] in
/-- What the chains show is right where there is nothing to show. -/
theorem Unlinked.reachable_iff (h : s.Unlinked) : s.EdgesReachable ↔ s.created = [] := by
  constructor
  · intro hreach
    by_contra hne
    obtain ⟨e, he⟩ := List.exists_mem_of_ne_nil _ hne
    obtain ⟨n, hn⟩ := Option.isSome_iff_exists.mp (h.ends e he).1
    obtain ⟨hid, hout, -⟩ := h.nodes _ n hn
    obtain ⟨⟨l, hl, -, hmem⟩, -⟩ := hreach _ n hn
    rw [hout, outEdges_null, Option.some.injEq] at hl
    have hin : e.1 ∈ s.createdFrom n.id := by
      rw [hid]
      exact List.mem_map_of_mem (List.mem_filter.mpr ⟨he, decide_eq_true rfl⟩)
    rw [← hmem, ← hl] at hin
    exact absurd hin List.not_mem_nil
  · intro hnil id n hn
    obtain ⟨-, hout, hin⟩ := h.nodes id n hn
    have hfrom : s.createdFrom n.id = [] := by rw [createdFrom, hnil]; rfl
    have hto : s.createdTo n.id = [] := by rw [createdTo, hnil]; rfl
    rw [hout, hin, hfrom, hto]
    exact ⟨⟨[], outEdges_null _, List.nodup_nil, fun _ => Iff.rfl⟩,
      ⟨[], inEdges_null _, List.nodup_nil, fun _ => Iff.rfl⟩⟩

omit [Bincode Node] [Bincode Edge] [Bincode (Option Value)] in
/-- A database with no node in it. -/
theorem start_unlinked {db : Database} (h : db.nodes.records = ∅) : (start db).Unlinked := by
  refine ⟨fun id n hn => ?_, fun e he => absurd he List.not_mem_nil⟩
  have hnone : db.nodes.records.get id = none := by rw [h, FiniteMap.get_empty]
  rw [show db.nodes.records.get id = some n from hn] at hnone
  exact absurd hnone (by simp)

end EdgeRun

/-- **Committed edges are reachable from their nodes** exactly in the runs that create no edge. -/
theorem committed_edges_reachable_iff {db : Database}
    (hdb : db = Database.memory ∨ Database.open Directory.fresh = .ok db)
    (scripts : List TxScript) (s : EdgeRun)
    (hrun : run EdgeRun.step (EdgeRun.start db) scripts = some s)
    (hscripts : Guarded EdgeRun.step (fun s script => script.CreatesBetweenNodes s)
      (EdgeRun.start db) scripts) :
    s.EdgesReachable ↔ ∀ script ∈ scripts, ∀ c ∈ script.calls, ¬ c.CreatesEdge := by
  have hempty : db.nodes.records = ∅ := by
    rcases hdb with rfl | hopen
    · rfl
    · rw [← Except.ok.inj hopen]
      rfl
  have hun : s.Unlinked :=
    guarded_invariant (fun _ _ _ h hg hs => h.step hg hs) (EdgeRun.start_unlinked hempty) hscripts
      hrun
  rw [hun.reachable_iff, EdgeRun.created_eq_nil_iff scripts hrun]
  exact and_iff_right rfl

end Persistent

/-! ## One transaction -/

/-- Two nodes. -/
def twoNodes : TxScript := { calls := [.createNode [] 0, .createNode [] 1], commits := true }

/-- Two nodes and an edge between them. -/
def nodesAndEdge : TxScript :=
  { calls := [.createNode [] 0, .createNode [] 1, .createEdge 0 1 7 0], commits := true }

theorem nodesAndEdge_guarded :
    Guarded EdgeRun.step (fun s script => script.CreatesBetweenNodes s)
      (EdgeRun.start Database.memory) [nodesAndEdge] := by
  refine Guarded.cons rfl ⟨rfl, ?_, fun db hdb => ?_⟩ trivial
  · intro c hc
    simp only [nodesAndEdge, List.mem_cons, List.not_mem_nil, or_false] at hc
    rcases hc with rfl | rfl | rfl <;> trivial
  · obtain rfl := Option.some.inj hdb
    intro e he
    obtain rfl := List.mem_singleton.mp he
    exact ⟨by decide, by decide⟩

/-- The edge is committed, and neither node's chain has it. -/
theorem committed_edge_unreachable :
    ¬ ∀ (scripts : List TxScript) (s : EdgeRun),
      run EdgeRun.step (EdgeRun.start Database.memory) scripts = some s →
      Guarded EdgeRun.step (fun s script => script.CreatesBetweenNodes s)
        (EdgeRun.start Database.memory) scripts → s.EdgesReachable := by
  intro h
  have hreach := h [nodesAndEdge] _ rfl nodesAndEdge_guarded
  obtain ⟨⟨l, hl, -, hmem⟩, -⟩ := hreach 0 (Node.new 0 [] 0 1) rfl
  obtain rfl := Option.some.inj hl
  exact absurd ((hmem 0).mpr (by decide)) List.not_mem_nil

theorem committed_edges_reachable_iff_two :
    ∃ s, run EdgeRun.step (EdgeRun.start Database.memory) [twoNodes] = some s ∧
      (s.EdgesReachable ↔ ∀ script ∈ [twoNodes], ∀ c ∈ script.calls, ¬ c.CreatesEdge) := by
  refine ⟨_, rfl, committed_edges_reachable_iff (Or.inl rfl) [twoNodes] _ rfl ?_⟩
  refine Guarded.cons rfl ⟨rfl, ?_, fun db _ e he => absurd he List.not_mem_nil⟩ trivial
  intro c hc
  simp only [twoNodes, List.mem_cons, List.not_mem_nil, or_false] at hc
  rcases hc with rfl | rfl <;> trivial

end LightGraph
