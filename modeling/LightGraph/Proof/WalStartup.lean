import LightGraph.Storage.Consistency

/-!
# Starting a WAL thread

The batch size of a durability level is a number the user chooses, and `usize::MAX` where there is
no batch. It is doubled for the writer's buffer and taken as it is for the thread's. Both fit in
memory's address range for sizes below 2⁶²; for any other, in particular where there is no batch,
`spawn` panics or leaves a dead thread, whether arithmetic is checked or wraps.
-/

set_option autoImplicit false

namespace LightGraph

/-! ## Times -/

namespace Duration

/-- No millisecond is lost. -/
theorem toNanos_fromMillis (ms : UInt64) : (fromMillis ms).toNanos = ms.toNat * 1000000 := by
  have hsecs : (ms / 1000).toNat = ms.toNat / 1000 := UInt64.toNat_div ms 1000
  rw [toNanos, fromMillis, toNat_subsecNanos, hsecs]
  omega

theorem toNanos_le_max (a b : Duration) : b.toNanos ≤ (a.max b).toNanos := by
  have ha := a.nanos_lt
  have hb := b.nanos_lt
  unfold max
  split
  · exact Nat.le_refl _
  · rename_i hmax
    unfold toNanos
    have hsecs : ¬ a.secs.toNat < b.secs.toNat := fun h => hmax (Or.inl h)
    by_cases heq : a.secs.toNat = b.secs.toNat
    · have hnanos : ¬ a.nanos.toNat ≤ b.nanos.toNat :=
        fun h => hmax (Or.inr ⟨UInt64.toNat_inj.mp heq, h⟩)
      omega
    · omega

end Duration

/-! ## Sizes -/

/-- The level's arithmetic is in range, and the thread runs: its buffers are as large as the level
says, and it waits for a millisecond at the least. -/
structure Durability.StartsWell (d : Durability) (checked : Bool) : Prop where
  noOverflow : d.batchBytes.toNat * 2 < 2 ^ 64
  writer : d.batchBytes.toNat * 2 ≤ isizeMax
  buffer : d.batchBytes.toNat ≤ isizeMax
  runs : ∃ s, WalThread.start checked d = .runs s ∧
    s.writerCapacity = d.batchBytes.toNat * 2 ∧ s.bufferCapacity = d.batchBytes.toNat ∧
    s.batchSize = d.batchBytes.toNat ∧ 1000000 ≤ s.recvTimeout.toNanos ∧
    s.fsyncTimeout = d.batchTimeout ∧ s.fsyncEnabled = d.fsyncEnabled

/-- The levels with a batch size, and that one below 2⁶². -/
def Durability.FitsMemory : Durability → Prop
  | .immediate => True
  | .batch _ bytes => bytes.toNat < 2 ^ 62
  | .async => False

theorem Durability.fitsMemory_iff (d : Durability) :
    d.FitsMemory ↔ d.batchBytes.toNat < 2 ^ 62 := by
  cases d with
  | immediate => exact iff_of_true trivial (by decide)
  | batch intervalMs bytes => exact Iff.rfl
  | async => exact iff_of_false id (by decide)

theorem start_of_small {d : Durability} (h : d.batchBytes.toNat < 2 ^ 62) (checked : Bool) :
    WalThread.start checked d = .runs
      { writerCapacity := d.batchBytes.toNat * 2
        bufferCapacity := d.batchBytes.toNat
        batchSize := d.batchBytes.toNat
        recvTimeout := d.batchTimeout.max (.fromMillis 1)
        fsyncTimeout := d.batchTimeout
        fsyncEnabled := d.fsyncEnabled } := by
  have hdouble : (d.batchBytes * 2).toNat = d.batchBytes.toNat * 2 := by
    rw [UInt64.toNat_mul]
    exact Nat.mod_eq_of_lt (show _ * 2 < _ by omega)
  have hmul : usizeMul checked d.batchBytes 2 = some (d.batchBytes * 2) := by
    rw [usizeMul, if_neg]
    rw [Bool.and_eq_true, decide_eq_true_iff]
    exact fun hand => absurd hand.2 (show ¬ 2 ^ 64 ≤ _ * 2 by omega)
  have hwriter : withCapacity (d.batchBytes * 2) = some (d.batchBytes.toNat * 2) := by
    rw [withCapacity, hdouble, if_pos (by unfold isizeMax; omega)]
  have hbuffer : withCapacity d.batchBytes = some d.batchBytes.toNat := by
    rw [withCapacity, if_pos (by unfold isizeMax; omega)]
  simp only [WalThread.start, hmul, hwriter, hbuffer]

/-- Where it does not, there is no thread: doubled, a size wraps to a small one only if it is too
large for the thread's own buffer. -/
theorem start_of_large {d : Durability} (h : ¬ d.FitsMemory) (checked : Bool) :
    WalThread.start checked d = .panics ∨ WalThread.start checked d = .dead := by
  rw [d.fitsMemory_iff] at h
  have hlt := d.batchBytes.toNat_lt
  have hdouble : (d.batchBytes * 2).toNat = d.batchBytes.toNat * 2 % 2 ^ 64 := UInt64.toNat_mul _ _
  by_cases hmul : usizeMul checked d.batchBytes 2 = none
  · exact Or.inl (by simp only [WalThread.start, hmul])
  · have hsome : usizeMul checked d.batchBytes 2 = some (d.batchBytes * 2) := by
      unfold usizeMul at hmul ⊢
      split
      · rename_i hover
        exact absurd (if_pos hover) hmul
      · rfl
    by_cases hwriter : (d.batchBytes * 2).toNat ≤ isizeMax
    · have hbuffer : withCapacity d.batchBytes = none := by
        rw [withCapacity, if_neg]
        unfold isizeMax at hwriter ⊢
        omega
      have hcap : withCapacity (d.batchBytes * 2) = some (d.batchBytes * 2).toNat := if_pos hwriter
      exact Or.inr (by simp only [WalThread.start, hsome, hcap, hbuffer])
    · have hcap : withCapacity (d.batchBytes * 2) = none := if_neg hwriter
      exact Or.inl (by simp only [WalThread.start, hsome, hcap])

/-- **A durability level starts** exactly when it has a batch size below 2⁶², and no other level has
a thread that runs. -/
theorem level_starts_iff (d : Durability) (checked : Bool) :
    (d.StartsWell checked ↔ d.FitsMemory) ∧
    (¬ d.FitsMemory → WalThread.start checked d = .panics ∨ WalThread.start checked d = .dead) := by
  refine ⟨?_, fun h => start_of_large h checked⟩
  rw [d.fitsMemory_iff]
  constructor
  · intro h
    have hwriter := h.writer
    unfold isizeMax at hwriter
    omega
  · intro h
    have hsecond : 1000000 ≤ (d.batchTimeout.max (.fromMillis 1)).toNanos := by
      have hmax := Duration.toNanos_le_max d.batchTimeout (.fromMillis 1)
      rwa [Duration.toNanos_fromMillis] at hmax
    refine ⟨by omega, by unfold isizeMax; omega, by unfold isizeMax; omega, _, start_of_small h _,
      rfl, rfl, rfl, hsecond, rfl, rfl⟩

/-- A store opened for high throughput. -/
theorem high_throughput_panics :
    ¬ ∀ (d : Durability) (checked : Bool), d.StartsWell checked := by
  intro h
  obtain ⟨s, hs, -⟩ := (h Consistency.highThroughput.durability true).runs
  have hpanics : WalThread.start true Consistency.highThroughput.durability = .panics := rfl
  rw [hpanics] at hs
  cases hs

end LightGraph
