import LightGraph.SnapshotFaults
import LightGraph.Proof.SnapshotRecovery

/-!
# Failed snapshots and what the manager remembers of them

A call that fails while the snapshot's own file is written leaves the manager as it was, and the
file is one that nobody reads before the next call has written it anew (`SameBut`): no later call
can tell. One that fails while the manifest is written has changed the manifest in memory already.
-/

set_option autoImplicit false

namespace LightGraph

open Lib

/-! ## Directories that differ in one file -/

/-- The directories have the same files, `name` aside. -/
def SameBut (name : String) (files files' : Files) : Prop :=
  ∀ f, f ≠ name → files.get f = files'.get f

namespace SameBut
variable {name : String} {files files' : Files}

theorem refl (name : String) (files : Files) : SameBut name files files := fun _ _ => rfl

theorem put (h : SameBut name files files') (f : String) (data : Bytes) :
    SameBut name (files.put f data) (files'.put f data) := by
  intro g hg
  rw [FiniteMap.get_put, FiniteMap.get_put, h g hg]

/-- The file they differ in is written over. -/
theorem put_self (h : SameBut name files files') (data : Bytes) :
    files.put name data = files'.put name data := by
  apply FiniteMap.ext
  intro g
  rw [FiniteMap.get_put, FiniteMap.get_put]
  split
  · rfl
  · rename_i hg
    exact h g hg

end SameBut

/-- Writing a file does nothing or writes that file, whatever is in the directory. -/
theorem writeFile_cases (name : String) (data : Bytes) (fault : WriteFault) :
    (∀ dir, writeFile (writeInPlace name data) dir fault = (false, dir)) ∨
    ∃ written, ∀ dir, writeFile (writeInPlace name data) dir fault
      = (fault.isNone, dir.put name written) := by
  cases fault with
  | none => exact Or.inr ⟨data, fun dir => Prod.ext rfl (apply_writeInPlace name data dir)⟩
  | some done =>
    cases done with
    | zero => exact Or.inl fun _ => rfl
    | succ n =>
      exact Or.inr ⟨data.take n, fun dir => Prod.ext rfl (apply_writeInPlace_take name data n dir)⟩

/-! ## The two calls -/

section Calls
variable [Bincode SnapshotData] [SerdeJson Manifest]

/-- The call as a choice between three ends. -/
theorem tryTakeSnapshot_eq (m : SnapshotManager) (dir : Files) (input : SnapshotInput)
    (faults : TakeFaults) {snapshot manifest : Bool × Files}
    (hsnapshot : writeFile
      (writeInPlace (snapshotName m.nextId) (Bincode.bytes (input.data m.nextId))) dir
      faults.snapshot = snapshot)
    (hmanifest : writeFile
      (writeInPlace Manifest.fileName (SerdeJson.toStringPretty m.nextManifest)) snapshot.2
      faults.manifest = manifest) :
    m.tryTakeSnapshot dir input faults =
      if !snapshot.1 then (none, m, snapshot.2)
      else if !manifest.1 then (none, { m with manifest := m.nextManifest }, manifest.2)
      else (some m.nextId, { m with manifest := m.nextManifest, walBytesSinceSnapshot := 0 },
        manifest.2) := by
  subst hsnapshot hmanifest
  rfl

end Calls

/-! ## What no later call can tell -/

section Unnoticed
variable [Bincode SnapshotData] [SerdeJson Manifest]

/-- The manager is as it was before the call, and answers every later call as it would have. -/
structure Unnoticed (before after : ManagedDir) : Prop where
  manifest : after.manager.manifest = before.manager.manifest
  walBytes : after.manager.walBytesSinceSnapshot = before.manager.walBytesSinceSnapshot
  recovers : after.manager.recover after.files = before.manager.recover before.files
  later : ∀ calls, answers ManagedDir.call after calls = answers ManagedDir.call before calls

/-- One manager on two directories that differ in the file of its next snapshot. -/
structure Alike (d d' : ManagedDir) : Prop where
  manager : d.manager = d'.manager
  files : SameBut (snapshotName d.manager.nextId) d.files d'.files

omit [Bincode SnapshotData] [SerdeJson Manifest] in
theorem Alike.refl (d : ManagedDir) : Alike d d := ⟨rfl, SameBut.refl _ _⟩

omit [Bincode SnapshotData] [SerdeJson Manifest] in
/-- The latest snapshot is not the next one. -/
theorem SnapshotManager.latest_ne_next (m : SnapshotManager) :
    snapshotName m.manifest.latestSnapshotId ≠ snapshotName m.nextId := by
  intro h
  have heq : m.manifest.latestSnapshotId = m.manifest.latestSnapshotId + 1 := snapshotName_inj h
  exact absurd (UInt64.left_eq_add.mp heq) (by decide)

omit [SerdeJson Manifest] in
theorem SnapshotManager.recover_congr (m : SnapshotManager) {files files' : Files}
    (h : SameBut (snapshotName m.nextId) files files') : m.recover files = m.recover files' := by
  have hload : SnapshotReader.loadLatest files m.manifest
      = SnapshotReader.loadLatest files' m.manifest := by
    rw [SnapshotReader.loadLatest, SnapshotReader.loadLatest, SnapshotReader.readSnapshot,
      SnapshotReader.readSnapshot, h _ m.latest_ne_next]
  have hlist : (walFiles.filter fun f =>
        !m.manifest.mergedWalFiles.contains f && (files.get f).isSome)
      = walFiles.filter fun f =>
        !m.manifest.mergedWalFiles.contains f && (files'.get f).isSome := by
    refine List.filter_congr fun f hf => ?_
    rw [h f (snapshotName_ne_wal _ hf).symm]
  rw [recover, recover, hload, hlist]

theorem Alike.takeSnapshot {d d' : ManagedDir} (h : Alike d d') (input : SnapshotInput)
    (faults : TakeFaults) :
    (d.call (.takeSnapshot input faults)).1 = (d'.call (.takeSnapshot input faults)).1 ∧
      Alike (d.call (.takeSnapshot input faults)).2 (d'.call (.takeSnapshot input faults)).2 := by
  obtain ⟨m, files⟩ := d
  obtain ⟨m', files'⟩ := d'
  obtain rfl : m = m' := h.manager
  rcases writeFile_cases (snapshotName m.nextId) (Bincode.bytes (input.data m.nextId))
    faults.snapshot with hnone | ⟨written, hput⟩
  · have hfail : ∀ dir, m.tryTakeSnapshot dir input faults = (none, m, dir) := by
      intro dir
      rw [tryTakeSnapshot_eq m dir input faults (hnone dir) rfl]
      rfl
    simp only [ManagedDir.call, hfail]
    exact ⟨trivial, h⟩
  · have hsame : m.tryTakeSnapshot files input faults = m.tryTakeSnapshot files' input faults := by
      have hput' := hput files'
      rw [← SameBut.put_self h.files] at hput'
      rw [tryTakeSnapshot_eq m files input faults (hput files) rfl,
        tryTakeSnapshot_eq m files' input faults hput' rfl]
    simp only [ManagedDir.call, hsame]
    exact ⟨trivial, Alike.refl _⟩

omit [Bincode SnapshotData] in
theorem tryMergeWal_eq (m : SnapshotManager) (dir : Files) (walFile : String) (fault : WriteFault) :
    m.tryMergeWal dir walFile fault =
      ((writeFile (m.mergeWal dir walFile).1.manifest.writeEffects dir fault).1,
        (m.mergeWal dir walFile).1,
        (writeFile (m.mergeWal dir walFile).1.manifest.writeEffects dir fault).2) := rfl

theorem Alike.mergeWal {d d' : ManagedDir} (h : Alike d d') (walFile : String)
    (fault : WriteFault) :
    (d.call (.mergeWal walFile fault)).1 = (d'.call (.mergeWal walFile fault)).1 ∧
      Alike (d.call (.mergeWal walFile fault)).2 (d'.call (.mergeWal walFile fault)).2 := by
  obtain ⟨m, files⟩ := d
  obtain ⟨m', files'⟩ := d'
  obtain rfl : m = m' := h.manager
  have hmanager : (m.mergeWal files' walFile).1 = (m.mergeWal files walFile).1 := rfl
  simp only [ManagedDir.call, tryMergeWal_eq, hmanager]
  rcases writeFile_cases Manifest.fileName
    (SerdeJson.toStringPretty (m.mergeWal files walFile).1.manifest) fault with
    hnone | ⟨written, hput⟩
  · have hnone' : ∀ dir, writeFile (m.mergeWal files walFile).1.manifest.writeEffects dir fault
        = (false, dir) := hnone
    simp only [hnone']
    exact ⟨trivial, rfl, h.files⟩
  · have hput' : ∀ dir, writeFile (m.mergeWal files walFile).1.manifest.writeEffects dir fault
        = (fault.isNone, dir.put Manifest.fileName written) := hput
    simp only [hput']
    exact ⟨trivial, rfl, SameBut.put h.files _ _⟩

/-- **No call tells them apart.** -/
theorem Alike.call {d d' : ManagedDir} (h : Alike d d') (call : SnapshotCall) :
    (d.call call).1 = (d'.call call).1 ∧ Alike (d.call call).2 (d'.call call).2 := by
  cases call with
  | takeSnapshot input faults => exact h.takeSnapshot input faults
  | mergeWal walFile fault => exact h.mergeWal walFile fault
  | addWalBytes bytes => exact ⟨rfl, congrArg (·.addWalBytes bytes) h.manager, h.files⟩
  | shouldSnapshot =>
    have hshould : d.manager.shouldSnapshot = d'.manager.shouldSnapshot := by rw [h.manager]
    exact ⟨congrArg SnapshotAnswer.should hshould, h⟩
  | manifest =>
    have hmanifest : d.manager.manifest = d'.manager.manifest := by rw [h.manager]
    exact ⟨congrArg SnapshotAnswer.manifest hmanifest, h⟩
  | recover =>
    have hrecover : d.manager.recover d.files = d'.manager.recover d'.files := by
      rw [d.manager.recover_congr h.files, h.manager]
    exact ⟨congrArg SnapshotAnswer.recovered hrecover, h⟩

theorem Alike.unnoticed {d d' : ManagedDir} (h : Alike d d') : Unnoticed d d' where
  manifest := by rw [h.manager]
  walBytes := by rw [h.manager]
  recovers := by rw [d.manager.recover_congr h.files, h.manager]
  later calls := (answers_eq (fun _ _ call h => h.call call) h calls).symm

/-- A call that fails in the snapshot's own file. -/
def SnapshotCall.FailsInSnapshot : SnapshotCall → Prop
  | .takeSnapshot _ faults => faults.snapshot.isSome = true
  | _ => False

/-- A failure in the snapshot's file leaves the manager, and the file. -/
theorem alike_of_failed_snapshot (d : ManagedDir) (input : SnapshotInput) {faults : TakeFaults}
    (h : faults.snapshot.isSome = true) : Alike d (d.call (.takeSnapshot input faults)).2 := by
  obtain ⟨m, files⟩ := d
  have hfault : faults.snapshot.isNone = false := by
    rw [← Option.not_isSome, h]
    rfl
  rcases writeFile_cases (snapshotName m.nextId) (Bincode.bytes (input.data m.nextId))
    faults.snapshot with hnone | ⟨written, hput⟩
  · simp only [ManagedDir.call, tryTakeSnapshot_eq m files input faults (hnone files) rfl]
    exact Alike.refl _
  · have hput' := hput files
    rw [hfault] at hput'
    simp only [ManagedDir.call, tryTakeSnapshot_eq m files input faults hput' rfl]
    exact ⟨rfl, fun f hf => (FiniteMap.get_put_ne _ _ hf).symm⟩

/-- A failure in the manifest comes when the manifest in memory has the new number. -/
theorem manifest_of_failed_manifest (d : ManagedDir) (input : SnapshotInput) {faults : TakeFaults}
    (h : faults.snapshot = none) :
    (d.call (.takeSnapshot input faults)).2.manager.manifest = d.manager.nextManifest := by
  have hwritten : writeFile (writeInPlace (snapshotName d.manager.nextId)
      (Bincode.bytes (input.data d.manager.nextId))) d.files faults.snapshot
      = (true, d.files.put (snapshotName d.manager.nextId)
          (Bincode.bytes (input.data d.manager.nextId))) := by
    rw [h]
    exact Prod.ext rfl (apply_writeInPlace _ _ _)
  simp only [ManagedDir.call, tryTakeSnapshot_eq d.manager d.files input faults hwritten rfl]
  split
  · rename_i hfalse
    exact absurd hfalse (by simp)
  · split <;> rfl

/-- **A call that fails goes unnoticed** exactly when it fails while the snapshot's own file is
written. -/
theorem failed_call_unnoticed_iff (d : ManagedDir) (call : SnapshotCall)
    (hfail : (d.call call).1.Failed) :
    Unnoticed d (d.call call).2 ↔ call.FailsInSnapshot := by
  cases call with
  | takeSnapshot input faults =>
    constructor
    · intro h
      by_contra hsnapshot
      have hmanifest := h.manifest
      rw [manifest_of_failed_manifest d input
        (by simpa [SnapshotCall.FailsInSnapshot] using hsnapshot)] at hmanifest
      have hnumber : d.manager.nextId = d.manager.manifest.latestSnapshotId :=
        congrArg Manifest.latestSnapshotId hmanifest
      exact d.manager.latest_ne_next (congrArg snapshotName hnumber.symm)
    · intro h
      exact (alike_of_failed_snapshot d input h).unnoticed
  | mergeWal walFile fault =>
    refine iff_of_false (fun h => ?_) id
    have hmerged := congrArg (fun m => m.mergedWalFiles.length) h.manifest
    simp [ManagedDir.call, tryMergeWal_eq, SnapshotManager.mergeWal] at hmerged
  | addWalBytes bytes => exact absurd hfail id
  | shouldSnapshot => exact absurd hfail id
  | manifest => exact absurd hfail id
  | recover => exact absurd hfail id

end Unnoticed

/-- The first snapshot of a directory, of nothing. -/
def noInput : SnapshotInput :=
  { nodes := [], edges := [], propColumns := [], nextNodeId := 0, nextEdgeId := 0 }

/-- The snapshot is written, and the manifest cannot be. -/
theorem failed_manifest_is_remembered :
    ¬ ∀ (files : Files) (m : SnapshotManager) (call : SnapshotCall),
      SnapshotManager.new files = .ok m → (ManagedDir.call ⟨m, files⟩ call).1.Failed →
      Unnoticed ⟨m, files⟩ (ManagedDir.call ⟨m, files⟩ call).2 := by
  intro h
  have hnew : SnapshotManager.new ∅ = .ok DataDir.fresh.manager := by
    rw [SnapshotManager.new, Manifest.read_of_get_none (FiniteMap.get_empty _)]
    rfl
  have hmanifest := (h ∅ DataDir.fresh.manager
    (.takeSnapshot noInput { snapshot := none, manifest := some 0 }) hnew rfl).manifest
  rw [manifest_of_failed_manifest ⟨DataDir.fresh.manager, ∅⟩ noInput rfl] at hmanifest
  exact absurd (congrArg Manifest.latestSnapshotId hmanifest) (by decide)

theorem failed_call_unnoticed_iff_five :
    Unnoticed ⟨DataDir.fresh.manager, ∅⟩ (ManagedDir.call ⟨DataDir.fresh.manager, ∅⟩
      (.takeSnapshot noInput { snapshot := some 5, manifest := none })).2 :=
  (failed_call_unnoticed_iff ⟨DataDir.fresh.manager, ∅⟩
    (.takeSnapshot noInput { snapshot := some 5, manifest := none }) rfl).mpr rfl

end LightGraph
