import LightGraph.Lib.Threads
import LightGraph.SnapshotFormat

/-!
# Snapshots are numbered without gap

One directory, one manager at a time, and any number of managers one after another. The number of
the next snapshot comes from the manager's manifest, which is the one on disk (`Numbered.read`),
so a new manager goes on counting where the last one stopped. A number is a file of its own
(`snapshotName_inj`), beyond four digits too, so a snapshot once written is never touched again.
-/

set_option autoImplicit false

namespace LightGraph

open Lib

structure SnapshotSession where
  manager : SnapshotManager
  dir : Files
  /-- what the calls of `take_snapshot` were given, oldest first -/
  given : List SnapshotInput
  /-- what they returned -/
  returned : List UInt64

inductive SnapshotSessionStep
  | takeSnapshot (input : SnapshotInput)
  /-- the manager is dropped, and a new one opened -/
  | reopen

/-- What a step passes to `take_snapshot`. -/
def SnapshotSessionStep.input? : SnapshotSessionStep → Option SnapshotInput
  | .takeSnapshot input => some input
  | .reopen => none

namespace SnapshotSession

/-- An empty directory and its first manager. -/
def start : SnapshotSession :=
  { manager :=
      { manifest := .empty, walBytesSinceSnapshot := 0, snapshotIntervalBytes := 536870912 }
    dir := ∅
    given := []
    returned := [] }

section Persistent
variable [Bincode SnapshotData] [SerdeJson Manifest]

def step (s : SnapshotSession) : SnapshotSessionStep → Option SnapshotSession
  | .takeSnapshot input =>
    let (id, manager, dir) := s.manager.takeSnapshot s.dir input
    some { manager, dir, given := s.given ++ [input], returned := s.returned ++ [id] }
  | .reopen =>
    match SnapshotManager.new s.dir with
    | .ok manager => some { s with manager }
    | .error _ => none

omit [Bincode SnapshotData] in
theorem new_start : SnapshotManager.new start.dir = .ok start.manager := by
  have hread : Manifest.read start.dir = .ok .empty :=
    Manifest.read_of_get_none (FiniteMap.get_empty _)
  rw [SnapshotManager.new, hread]
  rfl

/-- The `j`-th snapshot, counted from zero. -/
def number (j : Nat) : UInt64 := UInt64.ofNat (j + 1)

/-- The session is the list of what it was given: the `j`-th call wrote the file of its number,
no file has a later one, and the manifest in memory and on disk has the last. -/
structure Numbered (s : SnapshotSession) : Prop where
  latest : s.manager.manifest.latestSnapshotId = UInt64.ofNat s.given.length
  read : Manifest.read s.dir = .ok s.manager.manifest
  returned : s.returned = (List.range s.given.length).map number
  written : ∀ j input, s.given[j]? = some input →
    s.dir.get (snapshotName (number j)) = some (Bincode.bytes (input.data (number j)))
  unwritten : ∀ id : UInt64, s.given.length < id.toNat → s.dir.get (snapshotName id) = none

theorem start_numbered : start.Numbered where
  latest := rfl
  read := SnapshotManager.manifest_of_new new_start
  returned := rfl
  written := fun j input h => absurd h (by simp [start])
  unwritten := fun id _ => FiniteMap.get_empty _

variable {s : SnapshotSession}

/-- The number of the next call. -/
theorem Numbered.nextId (h : s.Numbered) : s.manager.nextId = number s.given.length := by
  show s.manager.manifest.latestSnapshotId + 1 = _
  rw [h.latest, number, UInt64.ofNat_add]
  rfl

omit [Bincode SnapshotData] [SerdeJson Manifest] in
theorem toNat_number {j : Nat} (h : j + 1 < 2 ^ 64) : (number j).toNat = j + 1 := by
  rw [number, UInt64.toNat_ofNat']
  exact Nat.mod_eq_of_lt h

/-- The next call writes to a file that is not there. -/
theorem Numbered.fresh (h : s.Numbered) (hcount : s.given.length + 1 < 2 ^ 64) :
    s.dir.get (snapshotName s.manager.nextId) = none := by
  apply h.unwritten
  rw [h.nextId, toNat_number hcount]
  exact Nat.lt_succ_self _

/-! ## One step -/

theorem Numbered.takeSnapshot (h : s.Numbered) (hcount : s.given.length + 1 < 2 ^ 64)
    (input : SnapshotInput) :
    ∃ t, s.step (.takeSnapshot input) = some t ∧ t.Numbered ∧ t.given = s.given ++ [input] := by
  refine ⟨{ manager := (s.manager.takeSnapshot s.dir input).2.1
            dir := (s.manager.takeSnapshot s.dir input).2.2
            given := s.given ++ [input]
            returned := s.returned ++ [s.manager.nextId] }, rfl, ?_, rfl⟩
  have hlen : (s.given ++ [input]).length = s.given.length + 1 := by
    rw [List.length_append]
    rfl
  have hfiles := takeSnapshot_files s.manager s.dir input
  have hget : ∀ id, (s.manager.takeSnapshot s.dir input).2.2.get (snapshotName id)
      = (s.dir.put (snapshotName (number s.given.length))
          (Bincode.bytes (input.data (number s.given.length)))).get (snapshotName id) := by
    intro id
    rw [hfiles, FiniteMap.get_put_ne _ _ (snapshotName_ne_manifest id), h.nextId]
  refine ⟨?_, ?_, ?_, ?_, ?_⟩
  · rw [hlen]
    exact h.nextId
  · refine Manifest.read_of_get ?_
    rw [hfiles]
    exact FiniteMap.get_put_self _ _ _
  · rw [hlen, List.range_succ, List.map_append, ← h.returned]
    exact congrArg (s.returned ++ [·]) h.nextId
  · intro j old hj
    rw [hget]
    rcases getElem?_concat_eq_some.mp hj with hj | ⟨rfl, rfl⟩
    · -- an earlier snapshot: another number, another file
      have hlt := (List.getElem?_eq_some_iff.mp hj).1
      rw [FiniteMap.get_put_ne _ _ ?_]
      · exact h.written j old hj
      · intro hname
        have hnat := congrArg UInt64.toNat (snapshotName_inj hname)
        rw [toNat_number (by omega), toNat_number hcount] at hnat
        omega
    · exact FiniteMap.get_put_self _ _ _
  · intro id hid
    rw [hlen] at hid
    rw [hget, FiniteMap.get_put_ne _ _ ?_]
    · exact h.unwritten id (by omega)
    · intro hname
      have hnat := congrArg UInt64.toNat (snapshotName_inj hname)
      rw [toNat_number hcount] at hnat
      omega

/-- A new manager has the manifest the last one had. -/
theorem Numbered.reopen (h : s.Numbered) :
    ∃ t, s.step .reopen = some t ∧ t.Numbered ∧ t.given = s.given := by
  have hnew : ∃ manager, SnapshotManager.new s.dir = .ok manager ∧
      manager.manifest = s.manager.manifest := by
    rw [SnapshotManager.new, h.read]
    exact ⟨_, rfl, rfl⟩
  obtain ⟨manager, hmanager, hmanifest⟩ := hnew
  refine ⟨{ s with manager }, ?_, ⟨?_, ?_, h.returned, h.written, h.unwritten⟩, rfl⟩
  · simp only [step, hmanager]
  · rw [hmanifest]
    exact h.latest
  · rw [hmanifest]
    exact h.read

/-! ## A whole run -/

theorem Numbered.run (steps : List SnapshotSessionStep) : ∀ {s : SnapshotSession}, s.Numbered →
    s.given.length + (steps.filterMap SnapshotSessionStep.input?).length < 2 ^ 64 →
    ∃ t, Lib.run step s steps = some t ∧ t.Numbered ∧
      t.given = s.given ++ steps.filterMap SnapshotSessionStep.input? := by
  induction steps with
  | nil =>
    intro s h _
    exact ⟨s, rfl, h, (List.append_nil _).symm⟩
  | cons a steps ih =>
    intro s h hcount
    cases a with
    | takeSnapshot input =>
      have hinputs : (SnapshotSessionStep.takeSnapshot input :: steps).filterMap
          SnapshotSessionStep.input?
          = input :: steps.filterMap SnapshotSessionStep.input? := rfl
      rw [hinputs, List.length_cons] at hcount
      obtain ⟨u, hu, hnum, hgiven⟩ := h.takeSnapshot (by omega) input
      obtain ⟨t, ht, hnum', hgiven'⟩ := ih hnum (by
        rw [hgiven, List.length_append, List.length_singleton]
        omega)
      refine ⟨t, by rw [run_cons_of_step hu, ht], hnum', ?_⟩
      rw [hgiven', hgiven, hinputs, List.append_assoc, List.singleton_append]
    | reopen =>
      obtain ⟨u, hu, hnum, hgiven⟩ := h.reopen
      obtain ⟨t, ht, hnum', hgiven'⟩ := ih hnum (by rw [hgiven]; exact hcount)
      refine ⟨t, by rw [run_cons_of_step hu, ht], hnum', ?_⟩
      rw [hgiven', hgiven]
      rfl

/-- What `recover` returns is the last that was given. -/
theorem Numbered.recover (h : s.Numbered) (hcount : s.given.length < 2 ^ 64) :
    ∃ walFiles, s.manager.recover s.dir = .ok
      (s.given.getLast?.map fun input => input.data (UInt64.ofNat s.given.length), walFiles) := by
  refine ⟨_, SnapshotManager.recover_of_loadLatest ?_⟩
  rcases List.eq_nil_or_concat s.given with hnil | ⟨before, last, hlast⟩
  · rw [SnapshotReader.loadLatest_zero (by rw [h.latest, hnil]; rfl), hnil]
    rfl
  · have hlen : s.given.length = before.length + 1 := by
      rw [hlast, List.length_concat]
    have hnumber : UInt64.ofNat s.given.length = number before.length := by
      rw [hlen]
      rfl
    have hget : s.given[before.length]? = some last := by
      rw [hlast, List.concat_eq_append, List.getElem?_concat_length]
    have hne : s.manager.manifest.latestSnapshotId ≠ 0 := by
      rw [h.latest, hnumber]
      intro hzero
      have hnat := congrArg UInt64.toNat hzero
      rw [toNat_number (by omega)] at hnat
      exact absurd hnat (Nat.succ_ne_zero _)
    have hfile := h.written _ _ hget
    rw [← hnumber, ← h.latest] at hfile
    rw [SnapshotReader.loadLatest_of_get hne hfile, ← h.latest, hlast, List.concat_eq_append,
      List.getLast?_concat]
    rfl

theorem Numbered.readSnapshot (h : s.Numbered) {j : Nat} {input : SnapshotInput}
    (hj : s.given[j]? = some input) :
    SnapshotReader.readSnapshot s.dir (number j) = .ok (input.data (number j)) := by
  rw [SnapshotReader.readSnapshot, h.written j input hj]
  simp only [Bincode.deserialize_bytes]

/-- **Snapshots are kept apart and the last one wins**: whatever is taken and however often the
manager is replaced, the ids are 1, 2, 3, ..., the next call writes to a new file, `recover`
returns what the last call was given and `read_snapshot` what the call of that number was. -/
theorem snapshots_kept_apart (steps : List SnapshotSessionStep)
    (hcount : (steps.filterMap SnapshotSessionStep.input?).length < 2 ^ 64) :
    ∃ s, Lib.run step start steps = some s ∧
      s.given = steps.filterMap SnapshotSessionStep.input? ∧
      s.returned = (List.range s.given.length).map (fun j => UInt64.ofNat (j + 1)) ∧
      (s.given.length + 1 < 2 ^ 64 → s.dir.get (snapshotName s.manager.nextId) = none) ∧
      (∃ walFiles, s.manager.recover s.dir = .ok
        (s.given.getLast?.map fun input => input.data (UInt64.ofNat s.given.length),
          walFiles)) ∧
      ∀ j input, s.given[j]? = some input →
        SnapshotReader.readSnapshot s.dir (UInt64.ofNat (j + 1))
          = .ok (input.data (UInt64.ofNat (j + 1))) := by
  have hstart : start.given.length = 0 := rfl
  obtain ⟨s, hrun, hnum, hgiven⟩ :=
    start_numbered.run steps (by rw [hstart, Nat.zero_add]; exact hcount)
  have hbound : s.given.length < 2 ^ 64 := by
    rw [hgiven]
    exact hcount
  exact ⟨s, hrun, hgiven, hnum.returned, hnum.fresh, hnum.recover hbound,
    fun j input hj => hnum.readSnapshot hj⟩

end Persistent

/-- Three snapshots, the third by another manager. -/
theorem snapshots_kept_apart_three :
    let input (id : NodeId) : SnapshotInput :=
      { nodes := [Node.new id [1] 0 1], edges := [], propColumns := [], nextNodeId := id + 1,
        nextEdgeId := 0 }
    ∃ s, Lib.run step start
        [.takeSnapshot (input 0), .takeSnapshot (input 1), .reopen, .takeSnapshot (input 2)]
        = some s ∧
      s.returned = [1, 2, 3] ∧
      SnapshotReader.readSnapshot s.dir 2 = .ok ((input 1).data 2) ∧
      ∃ walFiles, s.manager.recover s.dir = .ok (some ((input 2).data 3), walFiles) := by
  intro input
  obtain ⟨s, hrun, hgiven, hreturned, -, hrecover, hread⟩ := snapshots_kept_apart
    [.takeSnapshot (input 0), .takeSnapshot (input 1), .reopen, .takeSnapshot (input 2)]
    (by decide)
  have hthree : s.given = [input 0, input 1, input 2] := hgiven
  rw [hthree] at hreturned hrecover
  exact ⟨s, hrun, hreturned, hread 1 (input 1) (by rw [hthree]; rfl), hrecover⟩

end SnapshotSession
end LightGraph
