import LightGraph.Proof.SnapshotFaults

/-!
# Snapshots over a disk that fails now and then

One directory, one manager at a time; any call may fail at any byte of either file it writes, and
a new manager can be opened on what is there. `Intact` is what survives all of it: the manifest in
memory, and the one on disk wherever it can be read, each name a snapshot that was written whole,
and neither is older than the last number `take_snapshot` returned. A call writes the file of a
number that no manifest has yet, which is why a failure there costs nothing.

The manager counts the bytes of the WAL only in memory (`announced`): the count starts over with
a manager, and goes on when a snapshot fails.
-/

set_option autoImplicit false

namespace LightGraph

open Lib

structure FaultySession where
  dir : ManagedDir
  /-- what the calls of `take_snapshot` were given, oldest first -/
  given : List SnapshotInput
  /-- what was last written whole under a number -/
  whole : FiniteMap UInt64 SnapshotInput
  /-- the number `take_snapshot` last returned -/
  acknowledged : UInt64
  /-- the WAL bytes since `take_snapshot` last returned a number, or the manager was opened -/
  announced : Nat

inductive FaultyStep
  | call (call : SnapshotCall)
  /-- the manager is dropped, and a new one opened -/
  | reopen

def SnapshotAnswer.number : SnapshotAnswer → Option UInt64
  | .taken id => id
  | _ => none

/-- The snapshot a manifest with this number stands for. -/
def snapshotOf (whole : FiniteMap UInt64 SnapshotInput) (id : UInt64) : Option SnapshotData :=
  if id = 0 then none else (whole.get id).map (·.data id)

namespace FaultySession

/-- An empty directory and its first manager. -/
def start : FaultySession :=
  { dir := ⟨DataDir.fresh.manager, ∅⟩
    given := []
    whole := ∅
    acknowledged := 0
    announced := 0 }

/-- What is written down of a call and its answer. -/
def note (s : FaultySession) : SnapshotCall → SnapshotAnswer → FaultySession
  | .takeSnapshot input faults, answer =>
    { s with
      given := s.given ++ [input]
      whole := if faults.snapshot.isNone then s.whole.put s.dir.manager.nextId input else s.whole
      acknowledged := answer.number.getD s.acknowledged
      announced := if answer.number.isSome then 0 else s.announced }
  | .addWalBytes bytes, _ => { s with announced := s.announced + bytes.toNat }
  | _, _ => s

section Persistent
variable [Bincode SnapshotData] [SerdeJson Manifest]

def step (s : FaultySession) : FaultyStep → Option FaultySession
  | .call call => some { s.note call (s.dir.call call).1 with dir := (s.dir.call call).2 }
  | .reopen =>
    match SnapshotManager.new s.dir.files with
    | .ok manager => some { s with dir := { s.dir with manager }, announced := 0 }
    | .error _ => none

end Persistent
end FaultySession

/-! ## A manifest and its snapshot -/

section Loads
variable [Bincode SnapshotData]

/-- The manifest's snapshot can be read, and is the one written whole. -/
def Loads (files : Files) (whole : FiniteMap UInt64 SnapshotInput) (manifest : Manifest) : Prop :=
  SnapshotReader.loadLatest files manifest = .ok (snapshotOf whole manifest.latestSnapshotId)

variable {files : Files} {whole : FiniteMap UInt64 SnapshotInput} {manifest : Manifest}

/-- Only the file of its number matters. -/
theorem Loads.congr {files' : Files} {whole' : FiniteMap UInt64 SnapshotInput}
    {manifest' : Manifest} (h : Loads files whole manifest)
    (hid : manifest'.latestSnapshotId = manifest.latestSnapshotId)
    (hfile : files'.get (snapshotName manifest.latestSnapshotId)
      = files.get (snapshotName manifest.latestSnapshotId))
    (hwhole : whole'.get manifest.latestSnapshotId = whole.get manifest.latestSnapshotId) :
    Loads files' whole' manifest' := by
  have hload : SnapshotReader.loadLatest files' manifest'
      = SnapshotReader.loadLatest files manifest := by
    rw [SnapshotReader.loadLatest, SnapshotReader.loadLatest, SnapshotReader.readSnapshot,
      SnapshotReader.readSnapshot, hid, hfile]
  have hsnapshot : snapshotOf whole' manifest'.latestSnapshotId
      = snapshotOf whole manifest.latestSnapshotId := by
    rw [snapshotOf, snapshotOf, hid, hwhole]
  rw [Loads, hload, hsnapshot]
  exact h

theorem Loads.of_file {input : SnapshotInput} (hid : manifest.latestSnapshotId ≠ 0)
    (hwhole : whole.get manifest.latestSnapshotId = some input)
    (hfile : files.get (snapshotName manifest.latestSnapshotId)
      = some (Bincode.bytes (input.data manifest.latestSnapshotId))) :
    Loads files whole manifest := by
  rw [Loads, SnapshotReader.loadLatest_of_get hid hfile, snapshotOf, if_neg hid, hwhole]
  rfl

/-- There is none exactly before the first. -/
theorem Loads.none_iff (h : Loads files whole manifest) :
    snapshotOf whole manifest.latestSnapshotId = none ↔ manifest.latestSnapshotId = 0 := by
  constructor
  · intro hnone
    by_contra hid
    rw [Loads, hnone, SnapshotReader.loadLatest, if_neg hid] at h
    cases hread : SnapshotReader.readSnapshot files manifest.latestSnapshotId with
    | error e => rw [hread] at h; exact absurd h (by simp [Except.map])
    | ok data => rw [hread] at h; exact absurd h (by simp [Except.map])
  · intro hid
    rw [snapshotOf, if_pos hid]

end Loads

/-! ## What survives -/

section Files
variable [Bincode SnapshotData] [SerdeJson Manifest]

/-- The manifest in memory, and the one on disk if it can be read, name whole snapshots that are
no older than the one acknowledged. -/
structure Intact (files : Files) (whole : FiniteMap UInt64 SnapshotInput) (acknowledged : UInt64)
    (manifest : Manifest) : Prop where
  loads : Loads files whole manifest
  acked : acknowledged ≤ manifest.latestSnapshotId
  disk : ∀ m, Manifest.read files = .ok m → m.latestSnapshotId ≤ manifest.latestSnapshotId ∧
    acknowledged ≤ m.latestSnapshotId ∧ Loads files whole m

variable {files : Files} {whole : FiniteMap UInt64 SnapshotInput} {acknowledged : UInt64}
  {manifest : Manifest}

omit [Bincode SnapshotData] in
/-- The manifest is in no snapshot's file. -/
theorem Manifest.read_put_snapshot (files : Files) (id : UInt64) (data : Bytes) :
    Manifest.read (files.put (snapshotName id) data) = Manifest.read files := by
  rw [Manifest.read, Manifest.read, FiniteMap.get_put_ne _ _ (snapshotName_ne_manifest id).symm]

/-- Something is in the file of a later number. -/
theorem Intact.snapshotFile (h : Intact files whole acknowledged manifest) {id : UInt64}
    (hid : manifest.latestSnapshotId < id) (data : Bytes) :
    Intact (files.put (snapshotName id) data) whole acknowledged manifest := by
  have hkeep : ∀ m : Manifest, m.latestSnapshotId ≤ manifest.latestSnapshotId →
      Loads files whole m → Loads (files.put (snapshotName id) data) whole m := by
    intro m hm hload
    have hne : snapshotName m.latestSnapshotId ≠ snapshotName id := fun heq =>
      absurd (snapshotName_inj heq) (UInt64.ne_of_lt (UInt64.lt_of_le_of_lt hm hid))
    exact hload.congr rfl (FiniteMap.get_put_ne _ _ hne) rfl
  refine ⟨hkeep manifest (UInt64.le_refl _) h.loads, h.acked, fun m hm => ?_⟩
  rw [Manifest.read_put_snapshot] at hm
  obtain ⟨hle, hacked, hload⟩ := h.disk m hm
  exact ⟨hle, hacked, hkeep m hle hload⟩

/-- The file of a later number is written, and may fail. -/
theorem Intact.snapshotWritten (h : Intact files whole acknowledged manifest) {id : UInt64}
    (hid : manifest.latestSnapshotId < id) (data : Bytes) (fault : WriteFault) :
    Intact (writeFile (writeInPlace (snapshotName id) data) files fault).2 whole acknowledged
      manifest := by
  rcases writeFile_cases (snapshotName id) data fault with hnone | ⟨written, hput⟩
  · rw [hnone]
    exact h
  · rw [hput]
    exact h.snapshotFile hid written

/-- A later number is written down. -/
theorem Intact.noted (h : Intact files whole acknowledged manifest) {id : UInt64}
    (hid : manifest.latestSnapshotId < id) (input : SnapshotInput) :
    Intact files (whole.put id input) acknowledged manifest := by
  have hkeep : ∀ m : Manifest, m.latestSnapshotId ≤ manifest.latestSnapshotId →
      Loads files whole m → Loads files (whole.put id input) m := by
    intro m hm hload
    exact hload.congr rfl rfl
      (FiniteMap.get_put_ne _ _ (UInt64.ne_of_lt (UInt64.lt_of_le_of_lt hm hid)))
  refine ⟨hkeep manifest (UInt64.le_refl _) h.loads, h.acked, fun m hm => ?_⟩
  obtain ⟨hle, hacked, hload⟩ := h.disk m hm
  exact ⟨hle, hacked, hkeep m hle hload⟩

/-- The manifest in memory goes on to a whole snapshot. -/
theorem Intact.renumber (h : Intact files whole acknowledged manifest) (manifest' : Manifest)
    (hle : manifest.latestSnapshotId ≤ manifest'.latestSnapshotId)
    (hloads : Loads files whole manifest') : Intact files whole acknowledged manifest' where
  loads := hloads
  acked := UInt64.le_trans h.acked hle
  disk := by
    intro m hm
    obtain ⟨hmle, hacked, hload⟩ := h.disk m hm
    exact ⟨UInt64.le_trans hmle hle, hacked, hload⟩

omit [Bincode SnapshotData] in
/-- What writing the manifest leaves to read: what was there, all of it, or nothing. -/
theorem Manifest.read_writeFile (manifest : Manifest) (files : Files) (fault : WriteFault) :
    Manifest.read (writeFile manifest.writeEffects files fault).2 = Manifest.read files ∨
    Manifest.read (writeFile manifest.writeEffects files fault).2 = .ok manifest ∨
    Manifest.read (writeFile manifest.writeEffects files fault).2 = .error .undecodable := by
  cases fault with
  | none => exact Or.inr (Or.inl (Manifest.read_of_get (by
      rw [writeFile, Manifest.writeEffects, apply_writeInPlace, FiniteMap.get_put_self])))
  | some done =>
    cases done with
    | zero => exact Or.inl rfl
    | succ n =>
      have hfile : (writeFile manifest.writeEffects files (some (n + 1))).2.get Manifest.fileName
          = some ((SerdeJson.toStringPretty manifest).take n) := by
        rw [writeFile, Manifest.writeEffects, apply_writeInPlace_take, FiniteMap.get_put_self]
      by_cases hn : n < (SerdeJson.toStringPretty manifest).length
      · exact Or.inr (Or.inr (Manifest.read_of_cut hn hfile))
      · rw [List.take_of_length_le (Nat.le_of_not_lt hn)] at hfile
        exact Or.inr (Or.inl (Manifest.read_of_get hfile))

/-- The manifest is written, whatever comes of it. -/
theorem Intact.manifestFile (h : Intact files whole acknowledged manifest) (fault : WriteFault) :
    Intact (writeFile manifest.writeEffects files fault).2 whole acknowledged manifest := by
  have hget : ∀ id, (writeFile manifest.writeEffects files fault).2.get (snapshotName id)
      = files.get (snapshotName id) := by
    intro id
    rcases writeFile_cases Manifest.fileName (SerdeJson.toStringPretty manifest) fault with
      hnone | ⟨written, hput⟩
    · rw [Manifest.writeEffects, hnone]
    · rw [Manifest.writeEffects, hput]
      exact FiniteMap.get_put_ne _ _ (snapshotName_ne_manifest id)
  have hkeep : ∀ m, Loads files whole m →
      Loads (writeFile manifest.writeEffects files fault).2 whole m :=
    fun m hload => hload.congr rfl (hget _) rfl
  refine ⟨hkeep _ h.loads, h.acked, fun m hm => ?_⟩
  rcases Manifest.read_writeFile manifest files fault with hold | hnew | hcut
  · rw [hold] at hm
    obtain ⟨hle, hacked, hload⟩ := h.disk m hm
    exact ⟨hle, hacked, hkeep m hload⟩
  · rw [hnew, Except.ok.injEq] at hm
    subst hm
    exact ⟨UInt64.le_refl _, h.acked, hkeep _ h.loads⟩
  · rw [hcut] at hm
    exact absurd hm (by simp)

/-- The manifest is on disk, and its number is returned. -/
theorem Intact.acknowledge (h : Intact files whole acknowledged manifest)
    (hread : Manifest.read files = .ok manifest) :
    Intact files whole manifest.latestSnapshotId manifest where
  loads := h.loads
  acked := UInt64.le_refl _
  disk := by
    intro m hm
    obtain rfl : manifest = m := Except.ok.inj (hread.symm.trans hm)
    exact ⟨UInt64.le_refl _, UInt64.le_refl _, h.loads⟩

/-- The manifest in memory is lost, and the one on disk takes its place. -/
theorem Intact.reopen (h : Intact files whole acknowledged manifest) {m : Manifest}
    (hread : Manifest.read files = .ok m) : Intact files whole acknowledged m where
  loads := (h.disk m hread).2.2
  acked := (h.disk m hread).2.1
  disk := by
    intro m' hm'
    obtain rfl : m = m' := Except.ok.inj (hread.symm.trans hm')
    exact ⟨UInt64.le_refl _, (h.disk m hread).2⟩

end Files

/-! ## One call -/

namespace FaultySession

section Run
variable [Bincode SnapshotData] [SerdeJson Manifest]

/-- What holds of a session at any time. -/
structure Sound (s : FaultySession) : Prop where
  counted : s.dir.manager.manifest.latestSnapshotId.toNat ≤ s.given.length
  kept : Intact s.dir.files s.whole s.acknowledged s.dir.manager.manifest
  interval : s.dir.manager.snapshotIntervalBytes = 536870912
  walBytes : s.dir.manager.walBytesSinceSnapshot = UInt64.ofNat s.announced

theorem start_sound : start.Sound where
  counted := Nat.le_refl _
  kept :=
    { loads := SnapshotReader.loadLatest_zero rfl
      acked := UInt64.le_refl _
      disk := by
        intro m hm
        have hread : Manifest.read start.dir.files = .ok .empty :=
          Manifest.read_of_get_none (FiniteMap.get_empty _)
        obtain rfl : Manifest.empty = m := Except.ok.inj (hread.symm.trans hm)
        exact ⟨UInt64.le_refl _, UInt64.le_refl _, SnapshotReader.loadLatest_zero rfl⟩ }
  interval := rfl
  walBytes := rfl

variable {s : FaultySession}

/-- The next number is one more, and no manifest's. -/
theorem Sound.nextId (h : s.Sound) (hcount : s.given.length + 1 < 2 ^ 64) :
    s.dir.manager.nextId.toNat = s.dir.manager.manifest.latestSnapshotId.toNat + 1 := by
  have hle := h.counted
  show (s.dir.manager.manifest.latestSnapshotId + 1).toNat = _
  rw [UInt64.toNat_add]
  exact Nat.mod_eq_of_lt (Nat.lt_of_le_of_lt (Nat.succ_le_succ hle) hcount)

theorem Sound.takeSnapshot (h : s.Sound) (hcount : s.given.length + 1 < 2 ^ 64)
    (input : SnapshotInput) (faults : TakeFaults) {t : FaultySession}
    (ht : s.step (.call (.takeSnapshot input faults)) = some t) : t.Sound := by
  obtain rfl := Option.some.inj ht
  have hnext := h.nextId hcount
  have hlt : s.dir.manager.manifest.latestSnapshotId < s.dir.manager.nextId := by
    rw [UInt64.lt_iff_toNat_lt, hnext]
    exact Nat.lt_succ_self _
  have hlen : (s.given ++ [input]).length = s.given.length + 1 := by simp
  have hcounted : s.dir.manager.manifest.latestSnapshotId.toNat ≤ (s.given ++ [input]).length := by
    rw [hlen]
    exact Nat.le_succ_of_le h.counted
  have hzero : s.dir.manager.nextManifest.latestSnapshotId ≠ 0 := by
    intro hid
    have hzero : s.dir.manager.nextId.toNat = 0 := congrArg UInt64.toNat hid
    omega
  -- the snapshot's file, then the manifest with its number
  have hwritten := h.kept.snapshotWritten hlt (Bincode.bytes (input.data s.dir.manager.nextId))
  have hfile : (writeFile (writeInPlace (snapshotName s.dir.manager.nextId)
      (Bincode.bytes (input.data s.dir.manager.nextId))) s.dir.files none).2.get
        (snapshotName s.dir.manager.nextId)
      = some (Bincode.bytes (input.data s.dir.manager.nextId)) := by
    rw [writeFile, apply_writeInPlace, FiniteMap.get_put_self]
  have hnumbered := ((hwritten none).noted hlt input).renumber
    s.dir.manager.nextManifest (UInt64.le_of_lt hlt)
    (Loads.of_file hzero (FiniteMap.get_put_self _ _ _) hfile)
  have hcounted' : s.dir.manager.nextManifest.latestSnapshotId.toNat
      ≤ (s.given ++ [input]).length := by
    rw [hlen]
    exact hnext.le.trans (Nat.succ_le_succ h.counted)
  obtain ⟨snapshot, manifest⟩ := faults
  cases snapshot with
  | some done => exact ⟨hcounted, hwritten (some done), h.interval, h.walBytes⟩
  | none =>
    cases manifest with
    | some done => exact ⟨hcounted', hnumbered.manifestFile (some done), h.interval, h.walBytes⟩
    | none =>
      refine ⟨hcounted', (hnumbered.manifestFile none).acknowledge ?_, h.interval, rfl⟩
      exact Manifest.read_of_get (by
        rw [writeFile, Manifest.writeEffects, apply_writeInPlace, FiniteMap.get_put_self])

theorem Sound.mergeWal (h : s.Sound) (walFile : String) (fault : WriteFault) {t : FaultySession}
    (ht : s.step (.call (.mergeWal walFile fault)) = some t) : t.Sound := by
  obtain rfl := Option.some.inj ht
  have hmerged := h.kept.renumber
    (s.dir.manager.mergeWal s.dir.files walFile).1.manifest (UInt64.le_refl _)
    (h.kept.loads.congr rfl rfl rfl)
  exact ⟨h.counted, hmerged.manifestFile fault, h.interval, h.walBytes⟩

/-- **A call keeps it**, whether it fails or not. -/
theorem Sound.call (h : s.Sound) {call : SnapshotCall} {t : FaultySession}
    (ht : s.step (.call call) = some t) (hcount : t.given.length < 2 ^ 64) : t.Sound := by
  cases call with
  | takeSnapshot input faults =>
    refine h.takeSnapshot ?_ input faults ht
    obtain rfl := Option.some.inj ht
    simpa [note] using hcount
  | mergeWal walFile fault => exact h.mergeWal walFile fault ht
  | addWalBytes bytes =>
    obtain rfl := Option.some.inj ht
    refine ⟨h.counted, h.kept, h.interval, ?_⟩
    show s.dir.manager.walBytesSinceSnapshot + bytes = UInt64.ofNat (s.announced + bytes.toNat)
    rw [h.walBytes, UInt64.ofNat_add, UInt64.ofNat_toNat]
  | shouldSnapshot => exact Option.some.inj ht ▸ h
  | manifest => exact Option.some.inj ht ▸ h
  | recover => exact Option.some.inj ht ▸ h

/-- **A new manager keeps it.** -/
theorem Sound.reopen (h : s.Sound) {t : FaultySession} (ht : s.step .reopen = some t) :
    t.Sound := by
  rw [step] at ht
  cases hread : Manifest.read s.dir.files with
  | error e => rw [SnapshotManager.new, hread] at ht; exact absurd ht (by simp)
  | ok m =>
    rw [SnapshotManager.new, hread] at ht
    obtain rfl := Option.some.inj ht
    have hle := UInt64.le_iff_toNat_le.mp (h.kept.disk m hread).1
    exact ⟨hle.trans h.counted, h.kept.reopen hread, rfl, rfl⟩

/-- Calls are only added. -/
theorem given_le {a : FaultyStep} {t : FaultySession} (ht : s.step a = some t) :
    s.given.length ≤ t.given.length := by
  cases a with
  | call call =>
    obtain rfl := Option.some.inj ht
    cases call <;> simp [note]
  | reopen =>
    rw [step] at ht
    cases hnew : SnapshotManager.new s.dir.files with
    | error e => rw [hnew] at ht; exact absurd ht (by simp)
    | ok m => rw [hnew] at ht; exact Option.some.inj ht ▸ Nat.le_refl _

theorem sound {actions : List FaultyStep} (h : run step start actions = some s)
    (hcount : s.given.length < 2 ^ 64) : s.Sound := by
  refine run_invariant (I := fun s => s.given.length < 2 ^ 64 → s.Sound) ?_
    (fun _ => start_sound) h hcount
  intro s a t hs ht hcount
  have hsound := hs (Nat.lt_of_le_of_lt (given_le ht) hcount)
  cases a with
  | call call => exact hsound.call ht hcount
  | reopen => exact hsound.reopen ht

/-! ## What a manager finds -/

omit [SerdeJson Manifest] in
theorem recover_of_loads {m : SnapshotManager} {files : Files}
    {whole : FiniteMap UInt64 SnapshotInput} (h : Loads files whole m.manifest) :
    ∃ logs, m.recover files = .ok (snapshotOf whole m.manifest.latestSnapshotId, logs) :=
  ⟨_, SnapshotManager.recover_of_loadLatest h⟩

/-- **A snapshot once acknowledged is not lost to a failing disk.** Whatever calls have failed,
the manager recovers, and so does every new one that can be opened: each the snapshot of its
number, which was written whole and is no older than the last one `take_snapshot` returned. -/
theorem acknowledged_recovers {actions : List FaultyStep} (h : run step start actions = some s)
    (hcount : s.given.length < 2 ^ 64) :
    s.acknowledged ≤ s.dir.manager.manifest.latestSnapshotId ∧
    (∃ logs, s.dir.manager.recover s.dir.files
      = .ok (snapshotOf s.whole s.dir.manager.manifest.latestSnapshotId, logs)) ∧
    ∀ m, SnapshotManager.new s.dir.files = .ok m →
      s.acknowledged ≤ m.manifest.latestSnapshotId ∧
      ∃ logs, m.recover s.dir.files
        = .ok (snapshotOf s.whole m.manifest.latestSnapshotId, logs) := by
  have hkept := (sound h hcount).kept
  refine ⟨hkept.acked, recover_of_loads hkept.loads, fun m hm => ?_⟩
  obtain ⟨_, hacked, hloads⟩ := hkept.disk m.manifest (SnapshotManager.manifest_of_new hm)
  exact ⟨hacked, recover_of_loads hloads⟩

/-- **The trigger.** A snapshot is asked for while there is none to recover, and once the WAL has
grown by 512 MB since the last one acknowledged, or since the manager was opened. -/
theorem should_snapshot_iff {actions : List FaultyStep} (h : run step start actions = some s)
    (hcount : s.given.length < 2 ^ 64) (hbytes : s.announced < 2 ^ 64) :
    s.dir.manager.shouldSnapshot = true ↔
      (∃ logs, s.dir.manager.recover s.dir.files = .ok (none, logs)) ∨
      536870912 ≤ s.announced := by
  have hsound := sound h hcount
  have hnone : s.dir.manager.manifest.latestSnapshotId = 0 ↔
      ∃ logs, s.dir.manager.recover s.dir.files = .ok (none, logs) := by
    obtain ⟨logs, hrecover⟩ := recover_of_loads hsound.kept.loads
    rw [hrecover, ← hsound.kept.loads.none_iff]
    constructor
    · intro hsnapshot
      exact ⟨logs, by rw [hsnapshot]⟩
    · intro ⟨_, hsnapshot⟩
      exact (Prod.mk.inj (Except.ok.inj hsnapshot)).1
  have hbytes' : s.dir.manager.walBytesSinceSnapshot ≥ s.dir.manager.snapshotIntervalBytes ↔
      536870912 ≤ s.announced := by
    rw [hsound.walBytes, hsound.interval, ge_iff_le, UInt64.le_iff_toNat_le, UInt64.toNat_ofNat']
    rw [Nat.mod_eq_of_lt hbytes]
    exact Iff.rfl
  rw [SnapshotManager.shouldSnapshot, Bool.or_eq_true, beq_iff_eq, decide_eq_true_eq, hnone,
    hbytes']

end Run

/-- A snapshot of one node. -/
def oneNode : SnapshotInput :=
  { nodes := [Node.new 0 [1] 0 1], edges := [], propColumns := [], nextNodeId := 1,
    nextEdgeId := 0 }

/-- The manifest of the first snapshot cannot be written, and the second snapshot can. -/
def secondTry : List FaultyStep :=
  [.call (.takeSnapshot oneNode { snapshot := none, manifest := some 9 }),
    .call (.addWalBytes 70),
    .call (.takeSnapshot oneNode { snapshot := none, manifest := none })]

def secondTried : FaultySession := (run step start secondTry).getD start

theorem run_secondTry : run step start secondTry = some secondTried := rfl

theorem secondTried_new : SnapshotManager.new secondTried.dir.files
    = .ok { secondTried.dir.manager with walBytesSinceSnapshot := 0 } := by
  have hread : Manifest.read secondTried.dir.files = .ok secondTried.dir.manager.manifest :=
    Manifest.read_of_get (by
      show (writeFile (secondTried.dir.manager.manifest.writeEffects) _ none).2.get
        Manifest.fileName = _
      rw [writeFile, Manifest.writeEffects, apply_writeInPlace, FiniteMap.get_put_self])
  rw [SnapshotManager.new, hread]
  rfl

/-- The second snapshot is recovered, by its own manager and by the next. -/
theorem acknowledged_recovers_second :
    secondTried.acknowledged = 2 ∧
    (∃ logs, secondTried.dir.manager.recover secondTried.dir.files
      = .ok (some (oneNode.data 2), logs)) ∧
    ∃ m, SnapshotManager.new secondTried.dir.files = .ok m ∧ 2 ≤ m.manifest.latestSnapshotId ∧
      ∃ logs, m.recover secondTried.dir.files = .ok (some (oneNode.data 2), logs) := by
  have hcount : secondTried.given.length < 2 ^ 64 := by decide
  obtain ⟨-, hrecover, hnew⟩ := acknowledged_recovers run_secondTry hcount
  exact ⟨rfl, hrecover, _, secondTried_new, hnew _ secondTried_new⟩

/-- A manager opened behind the second try, and the WAL bytes it is told of. -/
def thenReopened (bytes : UInt64) : FaultySession :=
  { secondTried with
    dir :=
      { secondTried.dir with
        manager :=
          { secondTried.dir.manager with walBytesSinceSnapshot := 0 + bytes } }
    announced := 0 + bytes.toNat }

theorem run_thenReopened (bytes : UInt64) :
    run step start (secondTry ++ [.reopen, .call (.addWalBytes bytes)])
      = some (thenReopened bytes) := by
  have hreopen : step secondTried .reopen = some
      { secondTried with
        dir :=
          { secondTried.dir with
            manager := { secondTried.dir.manager with walBytesSinceSnapshot := 0 } }
        announced := 0 } := by
    rw [step, secondTried_new]
  rw [run_append run_secondTry, run_cons_of_step hreopen]
  simp only [run, step, note, ManagedDir.call, SnapshotManager.addWalBytes, thenReopened]

/-- Behind the second snapshot none is asked for, until the next manager has counted 512 MB. -/
theorem should_snapshot_iff_second :
    secondTried.dir.manager.shouldSnapshot = false ∧
    run step start (secondTry ++ [.reopen, .call (.addWalBytes 536870912)])
      = some (thenReopened 536870912) ∧
    (thenReopened 536870912).dir.manager.shouldSnapshot = true := by
  have hcount : secondTried.given.length < 2 ^ 64 := by decide
  have hloads : Loads secondTried.dir.files secondTried.whole secondTried.dir.manager.manifest :=
    (sound run_secondTry hcount).kept.loads
  obtain ⟨logs, hrecover⟩ := recover_of_loads hloads
  refine ⟨?_, run_thenReopened 536870912, ?_⟩
  · rw [Bool.eq_false_iff, Ne,
      should_snapshot_iff run_secondTry hcount (show (0 : Nat) < 2 ^ 64 by decide)]
    rintro (⟨_, hnone⟩ | hbytes)
    · rw [hrecover, Except.ok.injEq, Prod.mk.injEq, hloads.none_iff] at hnone
      exact absurd hnone.1 (by decide)
    · exact absurd hbytes (by decide)
  · exact (should_snapshot_iff (run_thenReopened 536870912) hcount (by decide)).mpr
      (.inr (by decide))

end FaultySession
end LightGraph
