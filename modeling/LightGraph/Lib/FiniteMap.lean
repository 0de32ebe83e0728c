import Mathlib.Data.Finmap

/-!
# Finite maps

What a concurrent hash map holds at one moment: finitely many keys, one value each, and no
order. Mathlib's `Finmap` is that object; this file gives it the three operations of a hash
map under one spelling each, with the lookup of every operation as a simp lemma. Everything
else about a map follows from `FiniteMap.ext`.
-/

set_option autoImplicit false

namespace Lib

abbrev FiniteMap (κ ν : Type) := Finmap fun _ : κ => ν

namespace FiniteMap

variable {κ ν : Type} [DecidableEq κ]

def get (m : FiniteMap κ ν) (k : κ) : Option ν := Finmap.lookup k m

def put (m : FiniteMap κ ν) (k : κ) (v : ν) : FiniteMap κ ν := Finmap.insert k v m

def remove (m : FiniteMap κ ν) (k : κ) : FiniteMap κ ν := Finmap.erase k m

theorem ext {m m' : FiniteMap κ ν} (h : ∀ k, m.get k = m'.get k) : m = m' :=
  Finmap.ext_lookup h

@[simp] theorem get_empty (k : κ) : (∅ : FiniteMap κ ν).get k = none :=
  Finmap.lookup_empty k

@[simp] theorem get_put_self (m : FiniteMap κ ν) (k : κ) (v : ν) : (m.put k v).get k = some v :=
  Finmap.lookup_insert m

theorem get_put_ne (m : FiniteMap κ ν) {k k' : κ} (v : ν) (h : k' ≠ k) :
    (m.put k v).get k' = m.get k' :=
  Finmap.lookup_insert_of_ne m h

theorem get_put (m : FiniteMap κ ν) (k k' : κ) (v : ν) :
    (m.put k v).get k' = if k' = k then some v else m.get k' := by
  by_cases h : k' = k
  · rw [if_pos h, h, get_put_self]
  · rw [if_neg h, get_put_ne m v h]

@[simp] theorem get_remove_self (m : FiniteMap κ ν) (k : κ) : (m.remove k).get k = none :=
  Finmap.lookup_erase k m

theorem get_remove_ne (m : FiniteMap κ ν) {k k' : κ} (h : k' ≠ k) :
    (m.remove k).get k' = m.get k' :=
  Finmap.lookup_erase_ne h

theorem get_remove (m : FiniteMap κ ν) (k k' : κ) :
    (m.remove k).get k' = if k' = k then none else m.get k' := by
  by_cases h : k' = k
  · rw [if_pos h, h, get_remove_self]
  · rw [if_neg h, get_remove_ne m h]

theorem put_put_self (m : FiniteMap κ ν) (k : κ) (v w : ν) : (m.put k v).put k w = m.put k w :=
  Finmap.insert_insert m

/-- Removing an absent key changes nothing. -/
theorem remove_of_get_none {m : FiniteMap κ ν} {k : κ} (h : m.get k = none) :
    m.remove k = m := by
  apply ext
  intro k'
  rw [get_remove]
  split
  · rename_i heq
    rw [heq, h]
  · rfl

/-- Change what is at a key, `none` standing for nothing there. -/
def alter (m : FiniteMap κ ν) (k : κ) (f : Option ν → Option ν) : FiniteMap κ ν :=
  match f (m.get k) with
  | some v => m.put k v
  | none => m.remove k

theorem get_alter (m : FiniteMap κ ν) (k k' : κ) (f : Option ν → Option ν) :
    (m.alter k f).get k' = if k' = k then f (m.get k) else m.get k' := by
  unfold alter
  cases hf : f (m.get k) with
  | none => simp only [get_remove]
  | some v => simp only [get_put]

/-- A change in place that what is looked at does not show. -/
theorem map_get_alter {β : Type} {f : ν → β} {g : ν → ν} (h : ∀ v, f (g v) = f v)
    (m : FiniteMap κ ν) (k k' : κ) :
    ((m.alter k (Option.map g)).get k').map f = (m.get k').map f := by
  rw [get_alter]
  split
  · rename_i hk
    rw [hk, Option.map_map]
    exact congrArg (Option.map · _) (funext h)
  · rfl

theorem alter_comm (m : FiniteMap κ ν) {k k' : κ} (f g : Option ν → Option ν) (h : k ≠ k') :
    (m.alter k f).alter k' g = (m.alter k' g).alter k f := by
  apply ext
  intro x
  simp only [get_alter, if_neg h, if_neg (Ne.symm h)]
  by_cases hx : x = k
  · simp [hx, h]
  · simp [hx]

/-- A change that is made again is not seen twice, whatever was changed in between. -/
theorem alter_between (m : FiniteMap κ ν) {k k' : κ} {f g : Option ν → Option ν}
    (hf : ∀ o, f (f o) = f o) (hfg : k = k' → ∀ o, f (g (f o)) = f (g o)) :
    ((m.alter k f).alter k' g).alter k f = (m.alter k' g).alter k f := by
  apply ext
  intro x
  simp only [get_alter]
  by_cases hx : x = k
  · by_cases hk : k = k'
    · subst hk
      simp only [if_pos hx, if_true, hfg rfl]
    · simp only [if_pos hx, if_neg hk, if_true, hf]
  · by_cases hk : x = k'
    · simp only [if_neg hx, if_pos hk, if_neg (hk ▸ hx)]
    · simp only [if_neg hx, if_neg hk]

theorem alter_again (m : FiniteMap κ ν) (k : κ) {f : Option ν → Option ν}
    (hf : ∀ o, f (f o) = f o) : (m.alter k f).alter k f = m.alter k f := by
  apply ext
  intro x
  simp only [get_alter]
  by_cases hx : x = k
  · simp only [if_pos hx, if_true, hf]
  · simp only [if_neg hx]

theorem put_eq_alter (m : FiniteMap κ ν) (k : κ) (v : ν) :
    m.put k v = m.alter k fun _ => some v := rfl

theorem eq_empty_iff {m : FiniteMap κ ν} : m = ∅ ↔ ∀ k, m.get k = none := by
  constructor
  · rintro rfl k
    exact get_empty k
  · intro h
    exact ext fun k => by rw [h k, get_empty]

theorem get_eq_some_iff {m : FiniteMap κ ν} {k : κ} {v : ν} :
    m.get k = some v ↔ ⟨k, v⟩ ∈ m.entries := Finmap.lookup_eq_some_iff

/-- The entries whose value passes the test under their key. -/
def retain (m : FiniteMap κ ν) (p : κ → ν → Bool) : FiniteMap κ ν where
  entries := m.entries.filter fun e => p e.1 e.2
  nodupKeys := Multiset.nodup_keys.mp
    (Multiset.nodup_of_le (Multiset.map_le_map (Multiset.filter_le _ _))
      (Multiset.nodup_keys.mpr m.nodupKeys))

theorem get_retain (m : FiniteMap κ ν) (p : κ → ν → Bool) (k : κ) :
    (m.retain p).get k = (m.get k).filter (p k) := by
  apply Option.ext
  intro v
  rw [get_eq_some_iff, Option.filter_eq_some_iff, get_eq_some_iff]
  exact Multiset.mem_filter

/-! ## Keys -/

theorem mem_keys_iff {m : FiniteMap κ ν} {k : κ} : k ∈ m.keys ↔ ∃ v, m.get k = some v := by
  rw [Finmap.mem_keys, Finmap.mem_iff]
  exact Iff.rfl

theorem keys_put (m : FiniteMap κ ν) (k : κ) (v : ν) : (m.put k v).keys = insert k m.keys := by
  ext k'
  rw [Finset.mem_insert, Finmap.mem_keys, Finmap.mem_keys, put, Finmap.mem_insert]

/-- A loop each of whose rounds sets one key. -/
theorem keys_foldl {β : Type} {step : FiniteMap κ ν → β → FiniteMap κ ν} {key : β → κ}
    (hstep : ∀ m b, (step m b).keys = insert (key b) m.keys) (bs : List β) :
    ∀ m, (bs.foldl step m).keys = (bs.map key).toFinset ∪ m.keys := by
  induction bs with
  | nil => exact fun m => (Finset.empty_union _).symm
  | cons b bs ih =>
    intro m
    rw [List.foldl_cons, ih, hstep, List.map_cons, List.toFinset_cons, Finset.insert_union,
      Finset.union_insert]

/-- An order in which a hash map may be iterated: every entry, once. -/
structure IterOrder (κ ν : Type) [DecidableEq κ] where
  entries : FiniteMap κ ν → List (κ × ν)
  nodup : ∀ m, ((entries m).map Prod.fst).Nodup
  mem_entries : ∀ m k v, (k, v) ∈ entries m ↔ m.get k = some v

theorem IterOrder.toFinset_entries (order : IterOrder κ ν) (m : FiniteMap κ ν) :
    ((order.entries m).map Prod.fst).toFinset = m.keys := by
  ext k
  rw [List.mem_toFinset, List.mem_map, mem_keys_iff]
  constructor
  · intro ⟨e, he, hk⟩
    exact ⟨e.2, (order.mem_entries m k e.2).mp (hk ▸ he)⟩
  · intro ⟨v, hv⟩
    exact ⟨(k, v), (order.mem_entries m k v).mpr hv, rfl⟩

theorem IterOrder.length_entries (order : IterOrder κ ν) (m : FiniteMap κ ν) :
    (order.entries m).length = m.keys.card := by
  rw [← order.toFinset_entries m, List.toFinset_card_of_nodup (order.nodup m), List.length_map]

/-- The keys of the entries that pass a test, collected in an iteration. -/
theorem IterOrder.mem_filter_entries (order : IterOrder κ ν) (m : FiniteMap κ ν) (p : ν → Bool)
    (k : κ) : k ∈ ((order.entries m).filter fun e => p e.2).map Prod.fst ↔
      ∃ v, m.get k = some v ∧ p v = true := by
  rw [List.mem_map]
  constructor
  · intro ⟨e, he, hk⟩
    obtain ⟨hmem, hp⟩ := List.mem_filter.mp he
    exact ⟨e.2, (order.mem_entries m k e.2).mp (hk ▸ hmem), hp⟩
  · intro ⟨v, hv, hp⟩
    exact ⟨(k, v), List.mem_filter.mpr ⟨(order.mem_entries m k v).mpr hv, hp⟩, rfl⟩

theorem IterOrder.nodup_filter_entries (order : IterOrder κ ν) (m : FiniteMap κ ν)
    (p : ν → Bool) : (((order.entries m).filter fun e => p e.2).map Prod.fst).Nodup :=
  (order.nodup m).sublist (List.filter_sublist.map Prod.fst)

/-- There is an order. -/
noncomputable def IterOrder.choice (κ ν : Type) [DecidableEq κ] : IterOrder κ ν where
  entries m := m.entries.toList.map fun e => (e.1, e.2)
  nodup m := by
    rw [List.map_map]
    have hkeys := Multiset.nodup_keys.mpr m.nodupKeys
    rw [← Multiset.coe_toList m.entries] at hkeys
    exact hkeys
  mem_entries m k v := by
    rw [get_eq_some_iff, List.mem_map]
    constructor
    · intro ⟨e, he, heq⟩
      obtain ⟨rfl, rfl⟩ := Prod.mk.inj heq
      exact Multiset.mem_toList.mp he
    · intro he
      exact ⟨⟨k, v⟩, Multiset.mem_toList.mpr he, rfl⟩

/-! ## Lists of entries -/

section OfList
variable {α : Type}

/-- The map of a list, a later entry of a key in the place of an earlier one. -/
def ofList (key : α → κ) (val : α → ν) (as : List α) : FiniteMap κ ν :=
  as.foldl (fun m a => m.put (key a) (val a)) ∅

theorem get_foldl_put (key : α → κ) (val : α → ν) (k : κ) (as : List α) :
    ∀ m : FiniteMap κ ν,
      (∃ a ∈ as, key a = k ∧
        (as.foldl (fun m a => m.put (key a) (val a)) m).get k = some (val a)) ∨
      ((∀ a ∈ as, key a ≠ k) ∧
        (as.foldl (fun m a => m.put (key a) (val a)) m).get k = m.get k) := by
  induction as with
  | nil => exact fun _ => Or.inr ⟨fun _ ha => absurd ha List.not_mem_nil, rfl⟩
  | cons a as ih =>
    intro m
    rcases ih (m.put (key a) (val a)) with ⟨b, hb, hkey, hget⟩ | ⟨hnone, hget⟩
    · exact Or.inl ⟨b, List.mem_cons_of_mem a hb, hkey, hget⟩
    · by_cases hk : key a = k
      · refine Or.inl ⟨a, List.mem_cons_self, hk, hget.trans ?_⟩
        rw [hk, get_put_self]
      · refine Or.inr ⟨fun b hb => ?_, hget.trans (get_put_ne m _ (Ne.symm hk))⟩
        rcases List.mem_cons.mp hb with rfl | hb
        · exact hk
        · exact hnone b hb

theorem ofList_append (key : α → κ) (val : α → ν) (as : List α) (a : α) :
    ofList key val (as ++ [a]) = (ofList key val as).put (key a) (val a) := by
  rw [ofList, List.foldl_append, List.foldl_cons, List.foldl_nil, ofList]

/-- What is found under a key is an entry of the list, and nothing is found where there is none. -/
theorem get_ofList_eq_some {key : α → κ} {val : α → ν} {as : List α} {k : κ} {v : ν}
    (h : (ofList key val as).get k = some v) : ∃ a ∈ as, key a = k ∧ val a = v := by
  rcases get_foldl_put key val k as ∅ with ⟨a, ha, hkey, hget⟩ | ⟨-, hget⟩
  · exact ⟨a, ha, hkey, Option.some.inj (hget.symm.trans h)⟩
  · rw [ofList, hget, get_empty] at h
    exact absurd h (by simp)

theorem exists_get_ofList {key : α → κ} (val : α → ν) {as : List α} {a : α} (ha : a ∈ as) :
    ∃ v, (ofList key val as).get (key a) = some v := by
  rcases get_foldl_put key val (key a) as ∅ with ⟨b, -, -, hget⟩ | ⟨hnone, -⟩
  · exact ⟨val b, hget⟩
  · exact absurd rfl (hnone a ha)

/-- A list that has the entries of a map and no others gives the map. -/
theorem ofList_eq {key : α → κ} {val : α → ν} {as : List α} {m : FiniteMap κ ν}
    (h : ∀ k v, m.get k = some v ↔ ∃ a ∈ as, key a = k ∧ val a = v) : ofList key val as = m := by
  apply ext
  intro k
  rcases get_foldl_put key val k as ∅ with ⟨a, ha, hkey, hget⟩ | ⟨hnone, hget⟩
  · exact hget.trans ((h k (val a)).mpr ⟨a, ha, hkey, rfl⟩).symm
  · refine hget.trans ?_
    rw [get_empty]
    cases hm : m.get k with
    | none => rfl
    | some v =>
      obtain ⟨a, ha, hkey, -⟩ := (h k v).mp hm
      exact absurd hkey (hnone a ha)

end OfList
end FiniteMap
end Lib
