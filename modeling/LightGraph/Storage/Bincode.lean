import LightGraph.Lib.Codec
import LightGraph.Storage.Types

/-!
# The serializer

The format `bincode::serialize` writes and `bincode::deserialize` reads for the types the stores
log: fixed-width little-endian words, an eight-byte count in front of a sequence, a four-byte
number in front of an enum's variant, and bytes behind the value ignored. No theorem about the
stores looks at it — they rest on the two laws of `Bincode` — but it is the format their
instances run with.
-/

set_option autoImplicit false

namespace LightGraph

open Lib

/-- A codec is a serializer that obeys the laws. -/
@[reducible] def Codec.toBincode {α : Type} (c : Codec α) : Bincode α where
  serialize a := some (c.put a)
  deserialize data := (c.get data).map Prod.fst
  roundtrip a := ⟨c.put a, rfl, by rw [c.get_put_self]; rfl⟩
  truncated a data h start hpre hne := by
    rw [Option.some.injEq] at h
    subst h
    rw [c.get_of_cut a hpre hne]
    rfl

def nodeCodec : Codec Node :=
  (Codec.u64.pair ((Codec.list Codec.u32).pair (Codec.u64.pair (Codec.u64.pair
    (Codec.u32.pair (Codec.u64.pair Codec.u64)))))).map
    (fun (id, labels, firstOut, firstIn, propsRow, createdTx, deletedTx) =>
      { id, labels, firstOut, firstIn, propsRow, createdTx, deletedTx })
    (fun n => (n.id, n.labels, n.firstOut, n.firstIn, n.propsRow, n.createdTx, n.deletedTx))
    fun _ => rfl

def edgeCodec : Codec Edge :=
  (Codec.u64.pair (Codec.u64.pair (Codec.u64.pair (Codec.u32.pair (Codec.u64.pair
    (Codec.u64.pair (Codec.u32.pair (Codec.u64.pair Codec.u64)))))))).map
    (fun (id, src, dst, etype, nextOut, nextIn, propsRow, createdTx, deletedTx) =>
      { id, src, dst, etype, nextOut, nextIn, propsRow, createdTx, deletedTx })
    (fun e => (e.id, e.src, e.dst, e.etype, e.nextOut, e.nextIn, e.propsRow, e.createdTx,
      e.deletedTx))
    fun _ => rfl

/-! ## Values

A list of values holds values, so reading one is a recursion on the input. Each level takes at
least the four bytes of a variant number, and the length of the input is enough fuel. -/

mutual
def Value.put : Value → Bytes
  | .null => Codec.u32.put 0
  | .bool b => Codec.u32.put 1 ++ Codec.bool.put b
  | .int v => Codec.u32.put 2 ++ Codec.u64.put v.toUInt64
  | .float bits => Codec.u32.put 3 ++ Codec.u64.put bits
  | .string s => Codec.u32.put 4 ++ Codec.string.put s
  | .list vs => Codec.u32.put 5 ++ (Codec.putCount vs.length ++ Value.putAll vs)
  | .vector bits => Codec.u32.put 6 ++ (Codec.list Codec.u32).put bits

def Value.putAll : List Value → Bytes
  | [] => []
  | v :: vs => v.put ++ Value.putAll vs
end

/-- What stands behind the number of a variant. -/
def Value.getVariant (get : Bytes → Option (Value × Bytes)) (variant : UInt32) (bs : Bytes) :
    Option (Value × Bytes) :=
  if variant = 0 then some (.null, bs)
  else if variant = 1 then (Codec.bool.get bs).map fun p => (.bool p.1, p.2)
  else if variant = 2 then (Codec.u64.get bs).map fun p => (.int p.1.toInt64, p.2)
  else if variant = 3 then (Codec.u64.get bs).map fun p => (.float p.1, p.2)
  else if variant = 4 then (Codec.string.get bs).map fun p => (.string p.1, p.2)
  else if variant = 5 then
    (Codec.getCount bs).bind fun p =>
      (Codec.getMany get p.1 p.2).map fun q => (.list q.1, q.2)
  else if variant = 6 then
    ((Codec.list Codec.u32).get bs).map fun p => (.vector p.1, p.2)
  else none

def Value.getFuel : Nat → Bytes → Option (Value × Bytes)
  | 0, _ => none
  | fuel + 1, bs => (Codec.u32.get bs).bind fun p => Value.getVariant (Value.getFuel fuel) p.1 p.2

theorem Value.putAll_eq (vs : List Value) : Value.putAll vs = vs.flatMap Value.put := by
  induction vs with
  | nil => rfl
  | cons v vs ih => rw [Value.putAll, List.flatMap_cons, ih]

theorem Value.length_put_le {v : Value} {vs : List Value} (h : v ∈ vs) :
    v.put.length ≤ (Value.putAll vs).length := by
  induction vs with
  | nil => exact absurd h List.not_mem_nil
  | cons w vs ih =>
    rw [Value.putAll, List.length_append]
    rcases List.mem_cons.mp h with rfl | h
    · exact Nat.le_add_right _ _
    · exact Nat.le_trans (ih h) (Nat.le_add_left _ _)

theorem Value.length_put_pos (v : Value) : 0 < v.put.length := by
  cases v <;> simp [Value.put, Codec.u32, Codec.word]

theorem Value.getFuel_put : ∀ (v : Value) (fuel : Nat) (rest : Bytes), v.put.length ≤ fuel →
    Value.getFuel fuel (v.put ++ rest) = some (v, rest)
  | v, 0, _, h => absurd h (Nat.not_le.mpr v.length_put_pos)
  | .null, fuel + 1, rest, _ => by
    rw [Value.getFuel, Value.put, Codec.get_put]
    rfl
  | .bool b, fuel + 1, rest, _ => by
    rw [Value.getFuel, Value.put, List.append_assoc, Codec.get_put, Option.bind_some]
    simp [Value.getVariant, Codec.get_put]
  | .int v, fuel + 1, rest, _ => by
    rw [Value.getFuel, Value.put, List.append_assoc, Codec.get_put, Option.bind_some]
    simp [Value.getVariant, Codec.get_put]
  | .float bits, fuel + 1, rest, _ => by
    rw [Value.getFuel, Value.put, List.append_assoc, Codec.get_put, Option.bind_some]
    simp [Value.getVariant, Codec.get_put]
  | .string s, fuel + 1, rest, _ => by
    rw [Value.getFuel, Value.put, List.append_assoc, Codec.get_put, Option.bind_some]
    simp [Value.getVariant, Codec.get_put]
  | .list vs, fuel + 1, rest, h => by
    have hfuel : ∀ v ∈ vs, v.put.length ≤ fuel := by
      intro v hv
      have hle := Value.length_put_le hv
      simp only [Value.put, List.length_append] at h
      have hfour : (Codec.u32.put 5).length = 4 := rfl
      omega
    have hmany : Codec.getMany (Value.getFuel fuel) vs.length (vs.flatMap Value.put ++ rest)
        = some (vs, rest) :=
      Codec.getMany_flatMap vs (fun v hv rest => Value.getFuel_put v fuel rest (hfuel v hv)) rest
    rw [Value.getFuel, Value.put, List.append_assoc, Codec.get_put, Option.bind_some]
    simp [Value.getVariant, Codec.getCount_putCount, Value.putAll_eq, hmany]
  | .vector bits, fuel + 1, rest, _ => by
    rw [Value.getFuel, Value.put, List.append_assoc, Codec.get_put, Option.bind_some]
    simp [Value.getVariant, Codec.get_put]
  termination_by v _ _ _ => sizeOf v
  decreasing_by
    have := List.sizeOf_lt_of_mem hv
    simp only [Value.list.sizeOf_spec]
    omega

theorem map_more {α β : Type} {c : Codec α} {f : α → β} {bs rest : Bytes} {b : β} (more : Bytes)
    (h : (c.get bs).map (fun p => (f p.1, p.2)) = some (b, rest)) :
    (c.get (bs ++ more)).map (fun p => (f p.1, p.2)) = some (b, rest ++ more) := by
  rw [Option.map_eq_some_iff] at h ⊢
  obtain ⟨⟨a, r⟩, hg, heq⟩ := h
  rw [Prod.mk.injEq] at heq
  exact ⟨_, c.get_more bs a r more hg, by rw [← heq.1, ← heq.2]⟩

/-- More input and more fuel change nothing about a value that was read. -/
theorem Value.getFuel_more : ∀ (fuel fuel' : Nat) (bs : Bytes) (v : Value) (rest more : Bytes),
    fuel ≤ fuel' → Value.getFuel fuel bs = some (v, rest) →
    Value.getFuel fuel' (bs ++ more) = some (v, rest ++ more) := by
  intro fuel
  induction fuel with
  | zero =>
    intro fuel' bs v rest more _ h
    exact absurd h (by simp [Value.getFuel])
  | succ fuel ih =>
    intro fuel' bs v rest more hle h
    obtain ⟨fuel', rfl⟩ : ∃ n, fuel' = n + 1 := ⟨fuel' - 1, by omega⟩
    rw [Value.getFuel, Option.bind_eq_some_iff] at h ⊢
    obtain ⟨⟨variant, mid⟩, hu, h⟩ := h
    refine ⟨_, Codec.u32.get_more bs variant mid more hu, ?_⟩
    dsimp only at h ⊢
    unfold Value.getVariant at h ⊢
    split_ifs at h ⊢
    · rw [Option.some.injEq, Prod.mk.injEq] at h ⊢
      exact ⟨h.1, by rw [h.2]⟩
    · exact map_more more h
    · exact map_more (f := fun x : UInt64 => Value.int x.toInt64) more h
    · exact map_more more h
    · exact map_more more h
    · rw [Option.bind_eq_some_iff] at h ⊢
      obtain ⟨⟨n, tail⟩, hn, h⟩ := h
      rw [Option.map_eq_some_iff] at h
      obtain ⟨⟨vs, r⟩, hm, heq⟩ := h
      rw [Prod.mk.injEq] at heq
      refine ⟨_, Codec.getCount_more mid n tail more hn, ?_⟩
      have hmany := Codec.getMany_mono
        (fun bs a rest hg => ih fuel' bs a rest more (by omega) hg) n tail vs r hm
      rw [hmany, Option.map_some, ← heq.1, ← heq.2]
    · exact map_more more h

def valueCodec : Codec Value where
  put := Value.put
  get bs := Value.getFuel bs.length bs
  get_put v rest := Value.getFuel_put v _ rest (by simp)
  get_more bs v rest more h :=
    Value.getFuel_more bs.length _ bs v rest more (by simp) h

/-! ## The instances -/

instance : Bincode Node := Codec.toBincode nodeCodec

/-- Of a node the labels vary in number. -/
theorem Node.length_bytes (n : Node) (h : n.labels.length < 2 ^ 64 - 1) :
    (Bincode.bytes n).length = 52 + 4 * n.labels.length := by
  have hlabels : ∀ labels : List LabelId,
      (labels.flatMap Codec.u32.put).length = 4 * labels.length := by
    intro labels
    induction labels with
    | nil => rfl
    | cons label labels ih =>
      rw [List.flatMap_cons, List.length_append, ih, List.length_cons]
      show 4 + 4 * labels.length = _
      omega
  have hcount : (Codec.putCount n.labels.length).length = 8 := by
    rw [Codec.putCount, Nat.div_eq_of_lt h]
    rfl
  show (Codec.u64.put n.id ++ ((Codec.putCount n.labels.length ++ n.labels.flatMap Codec.u32.put)
    ++ _)).length = _
  rw [List.length_append, List.length_append, List.length_append, hcount, hlabels]
  show 8 + (8 + 4 * n.labels.length + 36) = _
  omega

instance : Bincode Edge := Codec.toBincode edgeCodec

/-- Nothing in an edge varies in size. -/
theorem Edge.length_bytes (e : Edge) : (Bincode.bytes e).length = 64 := rfl

instance : Bincode (Option Value) := Codec.toBincode (Codec.option valueCodec)

end LightGraph
