import LightGraph.SnapshotFormat

/-!
# A crash while a snapshot is taken

`take_snapshot` writes the snapshot, then the manifest, each in place. The directory between two
calls holds the manifest of the last snapshot and that snapshot whole (`Holds`), whichever
managers took them. A crash leaves a beginning of the bytes of one more call.

> **the old or the new snapshot is there unless the crash falls between cutting `manifest.json`
> to nothing and its last byte.**

In that window the manifest does not parse, and no manager opens the directory. What else can go
wrong has to do with numbers: a manager that has not seen the last snapshot gives its number once
more and writes over it, and the number 0 means that there is no snapshot.
-/

set_option autoImplicit false

namespace LightGraph

open Lib

section SnapshotCrash
variable [Bincode SnapshotData] [SerdeJson Manifest]

/-- A directory after some completed calls, each by the manager it names. -/
def SnapshotManager.takeAll (dir : Files) (taken : List (SnapshotManager × SnapshotInput)) :
    Files :=
  taken.foldl (fun dir call => (call.1.takeSnapshot dir call.2).2.2) dir

/-- What the last of some completed calls wrote. -/
def lastTaken (taken : List (SnapshotManager × SnapshotInput)) : Option SnapshotData :=
  taken.getLast?.map fun call => call.2.data call.1.nextId

/-- A directory after a crash that let the first `k` effects of a call through. -/
def SnapshotManager.crashed (m : SnapshotManager) (dir : Files) (input : SnapshotInput) (k : Nat) :
    Files :=
  ((m.takeEffects input).take k).foldl FileEffect.apply dir

/-- A manager opens the directory, and finds the previous snapshot or the next one. -/
def RecoversOneOf (previous : Option SnapshotData) (next : SnapshotData) (dir : Files) : Prop :=
  ∃ m snapshot walFiles, SnapshotManager.new dir = .ok m ∧
    m.recover dir = .ok (snapshot, walFiles) ∧ (snapshot = previous ∨ snapshot = some next)

/-- The crash points that leave the manifest whole: up to the end of the snapshot's file, and
the end of the call. Before the manifest is touched it names the previous snapshot, whose file
must not be the one that is being written. -/
def SafeCrashPoint (previous : Option SnapshotData) (m : SnapshotManager) (input : SnapshotInput)
    (k : Nat) : Prop :=
  let inSnapshot := (SnapshotWriter.writeEffects m.nextId input).length
  (k ≤ inSnapshot ∧
    ∀ d, previous = some d → d.snapshotId ≠ 0 ∧ (d.snapshotId = m.nextId → k = 0 ∨ k = inSnapshot))
  ∨ (k = (m.takeEffects input).length ∧ (m.nextId = 0 → previous = none))

/-! ## A directory between two calls -/

/-- The manifest names the last snapshot, and its file is whole. -/
def Holds (dir : Files) : Option SnapshotData → Prop
  | none => dir.get Manifest.fileName = none
  | some d =>
    (∃ manifest : Manifest, manifest.latestSnapshotId = d.snapshotId ∧
      dir.get Manifest.fileName = some (SerdeJson.toStringPretty manifest)) ∧
    dir.get (snapshotName d.snapshotId) = some (Bincode.bytes d)

/-- One call, on whatever there was. -/
theorem holds_takeSnapshot (m : SnapshotManager) (dir : Files) (input : SnapshotInput) :
    Holds (m.takeSnapshot dir input).2.2 (some (input.data m.nextId)) := by
  rw [takeSnapshot_files]
  refine ⟨⟨m.nextManifest, rfl, FiniteMap.get_put_self _ _ _⟩, ?_⟩
  rw [FiniteMap.get_put_ne _ _ (snapshotName_ne_manifest _)]
  exact FiniteMap.get_put_self _ _ _

theorem holds_takeAll {dir : Files} (hfresh : dir.get Manifest.fileName = none)
    (taken : List (SnapshotManager × SnapshotInput)) :
    Holds (SnapshotManager.takeAll dir taken) (lastTaken taken) := by
  rcases List.eq_nil_or_concat taken with rfl | ⟨before, call, rfl⟩
  · exact hfresh
  · rw [List.concat_eq_append, SnapshotManager.takeAll, List.foldl_append, List.foldl_cons,
      List.foldl_nil, lastTaken, List.getLast?_concat]
    exact holds_takeSnapshot call.1 _ call.2

/-! ## What a crash leaves -/

section Crashed
variable (m : SnapshotManager) (dir : Files) (input : SnapshotInput)

theorem length_takeEffects :
    (m.takeEffects input).length
      = (SnapshotWriter.writeEffects m.nextId input).length
        + ((SerdeJson.toStringPretty m.nextManifest).length + 1) := by
  rw [SnapshotManager.takeEffects, List.length_append, Manifest.writeEffects, writeInPlace,
    List.length_cons, List.length_map]
  rfl

omit [SerdeJson Manifest] in
theorem length_writeEffects (id : UInt64) :
    (SnapshotWriter.writeEffects id input).length = (Bincode.bytes (input.data id)).length + 1 := by
  rw [SnapshotWriter.writeEffects, writeInPlace, List.length_cons, List.length_map]

theorem crashed_zero : m.crashed dir input 0 = dir := rfl

/-- The crash came while the snapshot was written, or behind it. -/
theorem crashed_in_snapshot {n : Nat} (h : n ≤ (Bincode.bytes (input.data m.nextId)).length) :
    m.crashed dir input (n + 1)
      = dir.put (snapshotName m.nextId) ((Bincode.bytes (input.data m.nextId)).take n) := by
  have hle : n + 1 ≤ (SnapshotWriter.writeEffects m.nextId input).length := by
    rw [length_writeEffects]
    omega
  rw [SnapshotManager.crashed, SnapshotManager.takeEffects]
  refine Eq.trans (congrArg (List.foldl FileEffect.apply dir) ?_)
    (apply_writeInPlace_take _ _ n dir)
  exact List.take_append_of_le_length hle

/-- The crash came while the manifest was written, or behind it. -/
theorem crashed_in_manifest (n : Nat) :
    m.crashed dir input ((SnapshotWriter.writeEffects m.nextId input).length + (n + 1))
      = (dir.put (snapshotName m.nextId) (Bincode.bytes (input.data m.nextId))).put
          Manifest.fileName ((SerdeJson.toStringPretty m.nextManifest).take n) := by
  rw [SnapshotManager.crashed, SnapshotManager.takeEffects]
  refine Eq.trans (congrArg (List.foldl FileEffect.apply dir) (List.take_length_add_append _)) ?_
  rw [List.foldl_append, Manifest.writeEffects, apply_writeInPlace_take,
    SnapshotWriter.writeEffects, apply_writeInPlace]

end Crashed

/-! ## What a manager finds -/

theorem recoversOneOf_iff {dir : Files} {manifest : Manifest} {previous : Option SnapshotData}
    {next : SnapshotData} (hread : Manifest.read dir = .ok manifest) :
    RecoversOneOf previous next dir ↔
      ∃ snapshot, SnapshotReader.loadLatest dir manifest = .ok snapshot ∧
        (snapshot = previous ∨ snapshot = some next) := by
  constructor
  · rintro ⟨m, snapshot, walFiles, hnew, hrecover, hone⟩
    rw [SnapshotManager.new, hread, Except.ok.injEq] at hnew
    subst hnew
    refine ⟨snapshot, ?_, hone⟩
    rw [SnapshotManager.recover] at hrecover
    cases hload : SnapshotReader.loadLatest dir manifest with
    | error e =>
      simp only [hload] at hrecover
      exact absurd hrecover (by simp)
    | ok found =>
      simp only [hload, Except.ok.injEq, Prod.mk.injEq] at hrecover
      rw [hrecover.1]
  · rintro ⟨snapshot, hload, hone⟩
    exact ⟨{ manifest, walBytesSinceSnapshot := 0, snapshotIntervalBytes := 536870912 },
      snapshot, _, by rw [SnapshotManager.new, hread],
      SnapshotManager.recover_of_loadLatest hload, hone⟩

theorem not_recoversOneOf {dir : Files} {e : SnapshotError} (hread : Manifest.read dir = .error e)
    (previous : Option SnapshotData) (next : SnapshotData) : ¬ RecoversOneOf previous next dir := by
  rintro ⟨m, snapshot, walFiles, hnew, -, -⟩
  rw [SnapshotManager.new, hread] at hnew
  exact absurd hnew (by simp)

/-! ## The crash points, one piece of the call after the other -/

section CrashPoints
variable {dir : Files} {previous : Option SnapshotData} {next : SnapshotData}

/-- Nothing was ever taken, and the manifest is not there yet. -/
theorem recovers_nothing (h : dir.get Manifest.fileName = none) : RecoversOneOf none next dir :=
  (recoversOneOf_iff (Manifest.read_of_get_none h)).mpr
    ⟨none, SnapshotReader.loadLatest_zero rfl, Or.inl rfl⟩

/-- The manifest says that there is no snapshot. -/
theorem recovers_number_zero {manifest : Manifest} (hid : manifest.latestSnapshotId = 0)
    (hget : dir.get Manifest.fileName = some (SerdeJson.toStringPretty manifest)) :
    RecoversOneOf previous next dir ↔ previous = none := by
  rw [recoversOneOf_iff (Manifest.read_of_get hget), SnapshotReader.loadLatest_zero hid]
  constructor
  · rintro ⟨snapshot, hload, hone⟩
    rw [← Except.ok.inj hload] at hone
    rcases hone with h | h
    · exact h.symm
    · exact absurd h (by simp)
  · intro hprevious
    exact ⟨none, rfl, Or.inl hprevious.symm⟩

theorem recovers_before (hholds : Holds dir previous) :
    RecoversOneOf previous next dir ↔ ∀ d, previous = some d → d.snapshotId ≠ 0 := by
  cases previous with
  | none => exact ⟨fun _ d hd => absurd hd (by simp), fun _ => recovers_nothing hholds⟩
  | some d =>
    obtain ⟨⟨manifest, hid, hget⟩, hfile⟩ := hholds
    by_cases hzero : d.snapshotId = 0
    · rw [recovers_number_zero (hid.trans hzero) hget]
      exact ⟨fun h => absurd h (by simp), fun h => absurd hzero (h d rfl)⟩
    · refine ⟨fun _ d' hd' => Option.some.inj hd' ▸ hzero, fun _ => ?_⟩
      rw [← hid] at hfile hzero
      exact (recoversOneOf_iff (Manifest.read_of_get hget)).mpr
        ⟨some d, SnapshotReader.loadLatest_of_get hzero hfile, Or.inl rfl⟩

/-- The file the manifest names is written over: it is a snapshot again when all of it is there. -/
theorem recovers_overwritten {manifest : Manifest} {data : Bytes} {d : SnapshotData}
    (hread : Manifest.read dir = .ok manifest) (hid : manifest.latestSnapshotId ≠ 0)
    (hdata : data <+: Bincode.bytes next)
    (hfile : dir.get (snapshotName manifest.latestSnapshotId) = some data) :
    RecoversOneOf (some d) next dir ↔ data = Bincode.bytes next := by
  rw [recoversOneOf_iff hread]
  constructor
  · rintro ⟨snapshot, hload, -⟩
    by_contra hne
    rw [SnapshotReader.loadLatest_of_cut hid hdata hne hfile] at hload
    exact absurd hload (by simp)
  · intro hall
    rw [hall] at hfile
    exact ⟨some next, SnapshotReader.loadLatest_of_get hid hfile, Or.inr rfl⟩

/-- Within the snapshot's file or at its end the manifest is still the previous one. -/
theorem recovers_in_snapshot (hholds : Holds dir previous) {data : Bytes}
    (hdata : data <+: Bincode.bytes next) :
    RecoversOneOf previous next (dir.put (snapshotName next.snapshotId) data) ↔
      ∀ d, previous = some d →
        d.snapshotId ≠ 0 ∧ (d.snapshotId = next.snapshotId → data = Bincode.bytes next) := by
  have hsame : (dir.put (snapshotName next.snapshotId) data).get Manifest.fileName
      = dir.get Manifest.fileName :=
    FiniteMap.get_put_ne _ _ (snapshotName_ne_manifest _).symm
  cases previous with
  | none =>
    exact ⟨fun _ d hd => absurd hd (by simp), fun _ => recovers_nothing (hsame.trans hholds)⟩
  | some d =>
    obtain ⟨⟨manifest, hid, hget⟩, hfile⟩ := hholds
    have hread := Manifest.read_of_get (hsame.trans hget)
    have hsome : (∀ d', some d = some d' → d'.snapshotId ≠ 0 ∧
        (d'.snapshotId = next.snapshotId → data = Bincode.bytes next)) ↔ d.snapshotId ≠ 0 ∧
        (d.snapshotId = next.snapshotId → data = Bincode.bytes next) :=
      ⟨fun h => h d rfl, fun h d' hd' => Option.some.inj hd' ▸ h⟩
    rw [hsome]
    by_cases hzero : d.snapshotId = 0
    · rw [recovers_number_zero (hid.trans hzero) (hsame.trans hget)]
      exact ⟨fun h => absurd h (by simp), fun h => absurd hzero h.1⟩
    · have hidzero : manifest.latestSnapshotId ≠ 0 := hid ▸ hzero
      rw [and_iff_right hzero]
      by_cases hover : d.snapshotId = next.snapshotId
      · rw [forall_prop_of_true hover]
        refine recovers_overwritten hread hidzero hdata ?_
        rw [hid, hover]
        exact FiniteMap.get_put_self _ _ _
      · refine ⟨fun _ h => absurd h hover, fun _ => (recoversOneOf_iff hread).mpr
          ⟨some d, SnapshotReader.loadLatest_of_get hidzero ?_, Or.inl rfl⟩⟩
        rw [hid, FiniteMap.get_put_ne _ _ fun h => hover (snapshotName_inj h)]
        exact hfile

/-- Behind the last byte. -/
theorem recovers_behind (hholds : Holds dir (some next)) :
    RecoversOneOf previous next dir ↔ (next.snapshotId = 0 → previous = none) := by
  obtain ⟨⟨manifest, hid, hget⟩, hfile⟩ := hholds
  by_cases hzero : next.snapshotId = 0
  · rw [recovers_number_zero (hid.trans hzero) hget]
    exact ⟨fun h _ => h, fun h => h hzero⟩
  · refine ⟨fun _ h => absurd h hzero, fun _ => ?_⟩
    rw [← hid] at hfile hzero
    exact (recoversOneOf_iff (Manifest.read_of_get hget)).mpr
      ⟨some next, SnapshotReader.loadLatest_of_get hzero hfile, Or.inr rfl⟩

end CrashPoints

/-! ## The crash points of a whole call -/

/-- A call that was not interrupted. -/
theorem crashed_length (m : SnapshotManager) (dir : Files) (input : SnapshotInput) :
    m.crashed dir input (m.takeEffects input).length = (m.takeSnapshot dir input).2.2 := by
  rw [SnapshotManager.crashed, List.take_length]
  rfl

/-- Within the manifest's file, wherever the snapshots are. -/
theorem not_recovers_in_manifest (m : SnapshotManager) (dir : Files) (input : SnapshotInput)
    (previous : Option SnapshotData) (next : SnapshotData) {n : Nat}
    (hn : n < (SerdeJson.toStringPretty m.nextManifest).length) :
    ¬ RecoversOneOf previous next
      (m.crashed dir input ((SnapshotWriter.writeEffects m.nextId input).length + (n + 1))) := by
  have hcut : Manifest.read
      (m.crashed dir input ((SnapshotWriter.writeEffects m.nextId input).length + (n + 1)))
      = .error .undecodable := by
    rw [crashed_in_manifest]
    exact Manifest.read_of_cut hn (FiniteMap.get_put_self _ _ _)
  exact not_recoversOneOf hcut previous next

/-- The previous or the new snapshot is found after a crash exactly at the safe crash points. -/
theorem crash_keeps_snapshot {dir : Files} (hfresh : dir.get Manifest.fileName = none)
    (taken : List (SnapshotManager × SnapshotInput)) (m : SnapshotManager) (input : SnapshotInput)
    {k : Nat} (hk : k ≤ (m.takeEffects input).length) :
    RecoversOneOf (lastTaken taken) (input.data m.nextId)
        (m.crashed (SnapshotManager.takeAll dir taken) input k)
      ↔ SafeCrashPoint (lastTaken taken) m input k := by
  have hholds := holds_takeAll hfresh taken
  have htotal := length_takeEffects m input
  have hwrite := length_writeEffects input m.nextId
  rw [SafeCrashPoint]
  rcases Nat.lt_or_ge k (m.takeEffects input).length with hlt | hge
  · have hnot : ¬ (k = (m.takeEffects input).length ∧ (m.nextId = 0 → lastTaken taken = none)) :=
      fun h => absurd h.1 (Nat.ne_of_lt hlt)
    rw [or_iff_left hnot]
    rcases Nat.lt_or_ge (SnapshotWriter.writeEffects m.nextId input).length k with hin | hin
    · obtain ⟨n, rfl⟩ : ∃ n, k = (SnapshotWriter.writeEffects m.nextId input).length + (n + 1) :=
        ⟨k - (SnapshotWriter.writeEffects m.nextId input).length - 1, by omega⟩
      exact ⟨fun h => absurd h (not_recovers_in_manifest m _ input _ _ (by omega)),
        fun h => absurd h.1 (by omega)⟩
    · rw [and_iff_right hin]
      cases k with
      | zero =>
        rw [crashed_zero, recovers_before hholds]
        exact ⟨fun h d hd => ⟨h d hd, fun _ => Or.inl rfl⟩, fun h d hd => (h d hd).1⟩
      | succ n =>
        rw [crashed_in_snapshot m _ input (by omega)]
        have hall : (Bincode.bytes (input.data m.nextId)).take n
              = Bincode.bytes (input.data m.nextId) ↔
            n = (Bincode.bytes (input.data m.nextId)).length := by
          rw [List.take_eq_self_iff]
          omega
        have hin := recovers_in_snapshot hholds
          (List.take_prefix n (Bincode.bytes (input.data m.nextId)))
        refine hin.trans ?_
        refine forall_congr' fun d => forall_congr' fun _ => and_congr_right fun _ =>
          forall_congr' fun _ => hall.trans ?_
        omega
  · have heq : k = (m.takeEffects input).length := Nat.le_antisymm hk hge
    have hnot : ¬ (k ≤ (SnapshotWriter.writeEffects m.nextId input).length ∧
        ∀ d, lastTaken taken = some d → d.snapshotId ≠ 0 ∧ (d.snapshotId = m.nextId →
          k = 0 ∨ k = (SnapshotWriter.writeEffects m.nextId input).length)) :=
      fun h => absurd h.1 (by omega)
    rw [or_iff_right hnot, and_iff_right heq, heq, crashed_length]
    exact recovers_behind (holds_takeSnapshot m _ input)

end SnapshotCrash

/-- One snapshot was taken, and the next call gets through to its end. -/
theorem crash_keeps_snapshot_one :
    let input : SnapshotInput :=
      { nodes := [Node.new 0 [1] 0 1], edges := [], propColumns := [], nextNodeId := 1,
        nextEdgeId := 0 }
    let m : SnapshotManager :=
      { manifest := .empty, walBytesSinceSnapshot := 0, snapshotIntervalBytes := 536870912 }
    let next := (m.takeSnapshot ∅ input).2.1
    RecoversOneOf (some (input.data 1)) (input.data 2)
      (next.crashed (SnapshotManager.takeAll ∅ [(m, input)]) input
        (next.takeEffects input).length) := by
  intro input m next
  refine (crash_keeps_snapshot (FiniteMap.get_empty _) [(m, input)] next input
    (Nat.le_refl _)).mpr (Or.inr ⟨rfl, fun hzero => absurd hzero ?_⟩)
  decide

/-- One snapshot was taken, and the next call is cut off when it has emptied the manifest's
file: both snapshots are on disk, and no manager opens the directory. -/
theorem crash_in_manifest_loses_snapshot :
    let input : SnapshotInput :=
      { nodes := [Node.new 0 [1] 0 1], edges := [], propColumns := [], nextNodeId := 1,
        nextEdgeId := 0 }
    let m : SnapshotManager :=
      { manifest := .empty, walBytesSinceSnapshot := 0, snapshotIntervalBytes := 536870912 }
    let next := (m.takeSnapshot ∅ input).2.1
    let k := (SnapshotWriter.writeEffects next.nextId input).length + 1
    SnapshotManager.new ∅ = .ok m ∧ k ≤ (next.takeEffects input).length ∧
      ¬ RecoversOneOf (lastTaken [(m, input)]) (input.data next.nextId)
        (next.crashed (SnapshotManager.takeAll ∅ [(m, input)]) input k) := by
  intro input m next k
  have hnew : SnapshotManager.new ∅ = .ok m := by
    rw [SnapshotManager.new, Manifest.read_of_get_none (FiniteMap.get_empty _)]
  have hpos : 0 < (SerdeJson.toStringPretty next.nextManifest).length := by decide +kernel
  have htotal := length_takeEffects next input
  exact ⟨hnew, by omega, not_recovers_in_manifest next _ input _ _ hpos⟩

end LightGraph
