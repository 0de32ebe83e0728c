import LightGraph.Storage.WalThread

/-!
# The consistency contract

`consistency.rs`: how eagerly a store's WAL thread writes out what it has been sent. `usize` is
of 64 bits.
-/

set_option autoImplicit false

namespace LightGraph

open Lib

/-! ## Durations -/

/-- `std::time::Duration`. -/
structure Duration where
  secs : UInt64
  nanos : UInt32
  nanos_lt : nanos.toNat < 1000000000

namespace Duration

def zero : Duration := ⟨0, 0, by decide⟩

/-- `Duration::MAX`. -/
def maxValue : Duration := ⟨0xFFFFFFFFFFFFFFFF, 999999999, by decide⟩

theorem toNat_subsecNanos (ms : UInt64) :
    ((ms % 1000).toUInt32 * 1000000).toNat = ms.toNat % 1000 * 1000000 := by
  have hms : (ms % 1000).toNat = ms.toNat % 1000 := UInt64.toNat_mod ms 1000
  rw [UInt32.toNat_mul, UInt64.toNat_toUInt32, hms]
  show ms.toNat % 1000 % 2 ^ 32 * 1000000 % 2 ^ 32 = _
  omega

/-- `Duration::from_millis`. -/
def fromMillis (ms : UInt64) : Duration where
  secs := ms / 1000
  nanos := (ms % 1000).toUInt32 * 1000000
  nanos_lt := by
    rw [toNat_subsecNanos]
    omega

/-- `Ord::max`. -/
def max (a b : Duration) : Duration :=
  if a.secs < b.secs ∨ a.secs = b.secs ∧ a.nanos ≤ b.nanos then b else a

def toNanos (d : Duration) : Nat := d.secs.toNat * 1000000000 + d.nanos.toNat

end Duration

/-! ## The contract -/

inductive Durability
  /-- every write is fsynced before returning -/
  | immediate
  | batch (intervalMs : UInt64) (bytes : UInt64)
  | async

namespace Durability

def batchBytes : Durability → UInt64
  | .immediate => 1
  | .batch _ bytes => bytes
  | .async => 0xFFFFFFFFFFFFFFFF

/-- How often to fsync. -/
def batchTimeout : Durability → Duration
  | .immediate => .zero
  | .batch intervalMs _ => .fromMillis intervalMs
  | .async => .maxValue

def fsyncEnabled : Durability → Bool
  | .async => false
  | _ => true

end Durability

structure Consistency where
  durability : Durability
  walChannelCapacity : UInt64

namespace Consistency

/-- Maximum durability. -/
def immediate : Consistency := { durability := .immediate, walChannelCapacity := 1024 }

/-- The default. -/
def balanced : Consistency := { durability := .batch 5 65536, walChannelCapacity := 4096 }

/-- High throughput, no fsync. -/
def highThroughput : Consistency := { durability := .async, walChannelCapacity := 8192 }

/-- Custom batch window. -/
def batch (intervalMs bytes : UInt64) : Consistency :=
  { durability := .batch intervalMs bytes, walChannelCapacity := 4096 }

end Consistency

/-- `WalThread::spawn`, as the stores call it. -/
def WalThread.spawnWith (existing : Bytes) (consistency : Consistency) : WalThread :=
  .spawn existing consistency.durability.batchBytes.toNat consistency.walChannelCapacity.toNat


/-! ## What a level asks of the machine -/

/-- The largest size of an allocation. -/
def isizeMax : Nat := 2 ^ 63 - 1

/-- `a * b` of two `usize`. Where arithmetic is checked an overflow is a panic, `none` here;
elsewhere it wraps. -/
def usizeMul (checked : Bool) (a b : UInt64) : Option UInt64 :=
  if checked && 2 ^ 64 ≤ a.toNat * b.toNat then none else some (a * b)

/-- The room `with_capacity` makes for bytes. A larger capacity than any allocation is a panic. -/
def withCapacity (capacity : UInt64) : Option Nat :=
  if capacity.toNat ≤ isizeMax then some capacity.toNat else none

/-- What the WAL thread starts its loop with. -/
structure WalStartup where
  writerCapacity : Nat
  bufferCapacity : Nat
  batchSize : Nat
  recvTimeout : Duration
  fsyncTimeout : Duration
  fsyncEnabled : Bool

inductive WalStart
  /-- in `spawn`, before there is a thread -/
  | panics
  /-- the thread panics before its loop, and `spawn` has returned -/
  | dead
  | runs (startup : WalStartup)

/-- The sizes and times of `WalThread::spawn`, and of `wal_loop` before its loop. -/
def WalThread.start (checked : Bool) (durability : Durability) : WalStart :=
  match usizeMul checked durability.batchBytes 2 with
  | none => .panics
  | some capacity =>
    match withCapacity capacity with
    | none => .panics
    | some writerCapacity =>
      let batchBytes := durability.batchBytes
      let fsyncEnabled := durability.fsyncEnabled
      -- at least a millisecond, to avoid a busy loop
      let recvTimeout := durability.batchTimeout.max (.fromMillis 1)
      match withCapacity batchBytes with
      | none => .dead
      | some bufferCapacity =>
        .runs { writerCapacity, bufferCapacity, batchSize := batchBytes.toNat, recvTimeout,
                fsyncTimeout := durability.batchTimeout, fsyncEnabled }

end LightGraph
