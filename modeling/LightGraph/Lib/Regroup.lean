import Mathlib.Data.List.DropRight
import Mathlib.Tactic.Common

/-!
# Operations on one record, regrouped by kind

A record can be inserted, updated and deleted, any number of times and in any order. A writer that
keeps the operations in one list for each kind loses their order between the kinds. When does it
not matter?

An insert forgets everything before it. So the record is what it was inserted as last, amended by
the last update behind that and by a deletion behind that (`applyAll_eq`); regrouped, it is amended
by the last update and by a deletion *wherever they stood* (`applyAll_regroup`). That is all the
difference there is: `regroup_eq_iff`.
-/

set_option autoImplicit false

namespace Lib

inductive RecordOp (ρ υ : Type)
  | insert (r : ρ)
  | update (u : υ)
  | delete

namespace RecordOp
variable {ρ υ : Type}

def isInsert : RecordOp ρ υ → Bool
  | .insert _ => true
  | _ => false

def isUpdate : RecordOp ρ υ → Bool
  | .update _ => true
  | _ => false

def isDelete : RecordOp ρ υ → Bool
  | .delete => true
  | _ => false

def inserted? : RecordOp ρ υ → Option ρ
  | .insert r => some r
  | _ => none

def updated? : RecordOp ρ υ → Option υ
  | .update u => some u
  | _ => none

/-- Inserts, then updates, then deletes. -/
def regroup (ops : List (RecordOp ρ υ)) : List (RecordOp ρ υ) :=
  ops.filter isInsert ++ ops.filter isUpdate ++ ops.filter isDelete

def lastInsert (ops : List (RecordOp ρ υ)) : Option ρ := (ops.filterMap inserted?).getLast?

def lastUpdate (ops : List (RecordOp ρ υ)) : Option υ := (ops.filterMap updated?).getLast?

def deleted (ops : List (RecordOp ρ υ)) : Bool := ops.any isDelete

/-- The operations behind the last insert. -/
def since (ops : List (RecordOp ρ υ)) : List (RecordOp ρ υ) := ops.rtakeWhile fun op => !op.isInsert

/-! ## Among operations on other records -/

/-- A fold seen through `g`, where every element does to what is seen what `f` makes of it, or
nothing. -/
theorem foldl_through {σ τ α β : Type} {step : σ → α → σ} {step' : τ → β → τ} {g : σ → τ}
    {f : α → Option β} (h : ∀ s a, g (step s a) = ((f a).map (step' (g s))).getD (g s))
    (as : List α) : ∀ s, g (as.foldl step s) = (as.filterMap f).foldl step' (g s) := by
  induction as with
  | nil => exact fun _ => rfl
  | cons a as ih =>
    intro s
    rw [List.foldl_cons, ih, h, List.filterMap_cons]
    cases f a with
    | none => rfl
    | some b => rfl

/-- Selecting before and selecting afterwards. -/
theorem filterMap_filter_eq {α β : Type} {f : α → Option β} {p : α → Bool} {q : β → Bool}
    (h : ∀ a b, f a = some b → p a = q b) (as : List α) :
    (as.filter p).filterMap f = (as.filterMap f).filter q := by
  induction as with
  | nil => rfl
  | cons a as ih =>
    rw [List.filter_cons, List.filterMap_cons]
    cases hf : f a with
    | none =>
      cases p a with
      | false => exact ih
      | true => simpa [hf] using ih
    | some b =>
      rw [List.filter_cons, ← h a b hf]
      cases p a with
      | false => exact ih
      | true => simpa [hf] using ih

theorem filterMap_filter_self {α β : Type} {as : List α} {f : α → Option β} {p : α → Bool}
    (h : ∀ a, p a = false → f a = none) : (as.filter p).filterMap f = as.filterMap f := by
  rw [List.filterMap_filter]
  refine List.filterMap_congr fun a _ => ?_
  cases hp : p a with
  | true => rfl
  | false => exact (h a hp).symm

theorem filterMap_filter_nil {α β : Type} {as : List α} {f : α → Option β} {p : α → Bool}
    (h : ∀ a, p a = true → f a = none) : (as.filter p).filterMap f = [] :=
  List.filterMap_eq_nil_iff.mpr fun a ha => h a (List.mem_filter.mp ha).2

/-! ## One operation more -/

section Concat
variable (ops : List (RecordOp ρ υ)) (op : RecordOp ρ υ)

theorem lastInsert_concat : lastInsert (ops ++ [op]) = op.inserted?.or (lastInsert ops) := by
  rw [lastInsert, List.filterMap_append, List.getLast?_append]
  cases op with
  | insert r => rfl
  | update u => rfl
  | delete => rfl

theorem lastUpdate_concat : lastUpdate (ops ++ [op]) = op.updated?.or (lastUpdate ops) := by
  rw [lastUpdate, List.filterMap_append, List.getLast?_append]
  cases op with
  | insert r => rfl
  | update u => rfl
  | delete => rfl

theorem deleted_concat : deleted (ops ++ [op]) = (deleted ops || op.isDelete) := by
  simp [deleted]

theorem since_concat : since (ops ++ [op]) = if op.isInsert then [] else since ops ++ [op] := by
  rw [since, List.rtakeWhile_concat]
  cases op with
  | insert r => rfl
  | update u => rfl
  | delete => rfl

end Concat

theorem since_append {ops rest : List (RecordOp ρ υ)} (h : ∀ op ∈ rest, op.isInsert = false) :
    since (ops ++ rest) = since ops ++ rest := by
  induction rest using List.reverseRecOn with
  | nil => rw [List.append_nil, List.append_nil]
  | append_singleton rest op ih =>
    have hrest := ih fun op' hop' => h op' (List.mem_append_left _ hop')
    have hop : op.isInsert = false := h op (List.mem_append_right _ List.mem_cons_self)
    rw [← List.append_assoc, since_concat, hop, if_neg (by simp), hrest, List.append_assoc]

/-- Where the only insert comes first, it is all that is not behind it. -/
theorem since_insert_cons {r : ρ} {rest : List (RecordOp ρ υ)}
    (h : ∀ op ∈ rest, op.isInsert = false) : since (.insert r :: rest) = rest := by
  have hfirst : since [(.insert r : RecordOp ρ υ)] = [] := since_concat [] (.insert r)
  rw [← List.singleton_append, since_append h, hfirst, List.nil_append]

/-- Without an insert, all operations count. -/
theorem since_of_lastInsert_none {ops : List (RecordOp ρ υ)} (h : lastInsert ops = none) :
    since ops = ops := by
  have hnone := List.filterMap_eq_nil_iff.mp (List.getLast?_eq_none_iff.mp h)
  apply List.rtakeWhile_eq_self_iff.mpr
  intro op hop
  cases op with
  | insert r => exact absurd (hnone _ hop) (by simp [inserted?])
  | update u => rfl
  | delete => rfl

theorem mem_of_lastInsert {ops : List (RecordOp ρ υ)} {r : ρ} (h : lastInsert ops = some r) :
    .insert r ∈ ops := by
  obtain ⟨op, hop, hr⟩ := List.mem_filterMap.mp (List.mem_of_getLast? h)
  cases op with
  | insert r' =>
    obtain rfl := Option.some.inj hr
    exact hop
  | update u => exact absurd hr (by simp [inserted?])
  | delete => exact absurd hr (by simp [inserted?])

theorem deleted_of_since {ops : List (RecordOp ρ υ)} (h : deleted (since ops) = true) :
    deleted ops = true := by
  obtain ⟨op, hop, hdel⟩ := List.any_eq_true.mp h
  exact List.any_eq_true.mpr ⟨op, (List.rtakeWhile_suffix _ ops).mem hop, hdel⟩

/-! ## The regrouped operations -/

section Regroup
variable (ops : List (RecordOp ρ υ))

theorem lastInsert_regroup : lastInsert (regroup ops) = lastInsert ops := by
  rw [lastInsert, lastInsert, regroup, List.filterMap_append, List.filterMap_append,
    filterMap_filter_self (by rintro (r | u | -) h <;> trivial),
    filterMap_filter_nil (by rintro (r | u | -) h <;> trivial),
    filterMap_filter_nil (by rintro (r | u | -) h <;> trivial),
    List.append_nil, List.append_nil]

/-- Behind the last insert stand all updates and all deletes. -/
theorem since_regroup : since (regroup ops) = ops.filter isUpdate ++ ops.filter isDelete := by
  have hfront : since (ops.filter isInsert) = [] := by
    apply List.rtakeWhile_eq_nil_iff.mpr
    intro hne
    simpa using (List.mem_filter.mp (List.getLast_mem hne)).2
  have hrest : ∀ op ∈ ops.filter isUpdate ++ ops.filter isDelete, op.isInsert = false := by
    intro op hop
    cases op with
    | insert r => simp [isUpdate, isDelete] at hop
    | update u => rfl
    | delete => rfl
  rw [regroup, List.append_assoc, since_append hrest, hfront, List.nil_append]

theorem lastUpdate_since_regroup : lastUpdate (since (regroup ops)) = lastUpdate ops := by
  rw [since_regroup, lastUpdate, lastUpdate, List.filterMap_append,
    filterMap_filter_self (by rintro (r | u | -) h <;> trivial),
    filterMap_filter_nil (by rintro (r | u | -) h <;> trivial), List.append_nil]

theorem deleted_since_regroup : deleted (since (regroup ops)) = deleted ops := by
  have hupdates : (ops.filter isUpdate).any isDelete = false := by
    apply List.any_eq_false.mpr
    intro op hop
    cases op with
    | insert r => simp [isDelete]
    | update u => simp [isDelete]
    | delete => simp [isUpdate] at hop
  rw [since_regroup, deleted, deleted, List.any_append, hupdates, Bool.false_or, List.any_filter]
  simp

end Regroup
end RecordOp

/-- What the operations do to a record of the type `ρ`: the later of two updates holds, and an
update and a delete do not interfere. -/
structure RecordKind (ρ υ : Type) where
  update : υ → ρ → ρ
  delete : ρ → ρ
  update_update : ∀ u v r, update u (update v r) = update u r
  delete_delete : ∀ r, delete (delete r) = delete r
  update_delete : ∀ u r, update u (delete r) = delete (update u r)

namespace RecordKind
open RecordOp
variable {ρ υ : Type} (K : RecordKind ρ υ)

/-- An update or a delete of an absent record is nothing. -/
def apply (o : Option ρ) : RecordOp ρ υ → Option ρ
  | .insert r => some r
  | .update u => o.map (K.update u)
  | .delete => o.map K.delete

def applyAll (o : Option ρ) (ops : List (RecordOp ρ υ)) : Option ρ := ops.foldl K.apply o

/-- A record after an update, if there was one, and a deletion, if there was one. -/
def amend (u : Option υ) (d : Bool) (r : ρ) : ρ :=
  let r := match u with
    | some u => K.update u r
    | none => r
  if d then K.delete r else r

theorem update_amend (u : υ) (v : Option υ) (d : Bool) (r : ρ) :
    K.update u (K.amend v d r) = K.amend (some u) d r := by
  cases v with
  | none =>
    cases d with
    | false => rfl
    | true => exact K.update_delete u r
  | some v =>
    cases d with
    | false => exact K.update_update u v r
    | true => exact (K.update_delete u _).trans (congrArg K.delete (K.update_update u v r))

theorem delete_amend (v : Option υ) (d : Bool) (r : ρ) :
    K.delete (K.amend v d r) = K.amend v true r := by
  cases d with
  | false => rfl
  | true => exact K.delete_delete _

/-- **What a list of operations comes to.** -/
theorem applyAll_eq (o : Option ρ) (ops : List (RecordOp ρ υ)) :
    K.applyAll o ops =
      ((lastInsert ops).or o).map (K.amend (lastUpdate (since ops)) (deleted (since ops))) := by
  induction ops using List.reverseRecOn with
  | nil => exact Option.map_id'.symm
  | append_singleton ops op ih =>
    rw [applyAll, List.foldl_concat, ← applyAll, ih, lastInsert_concat, since_concat]
    cases op with
    | insert r => rfl
    | update u =>
      simp only [isInsert, Bool.false_eq_true, if_false, inserted?, Option.none_or,
        lastUpdate_concat, deleted_concat, isDelete, Bool.or_false, updated?, Option.some_or]
      rw [apply, Option.map_map]
      exact congrArg (Option.map · _) (funext fun r => K.update_amend u _ _ r)
    | delete =>
      simp only [isInsert, Bool.false_eq_true, if_false, inserted?, Option.none_or,
        lastUpdate_concat, deleted_concat, isDelete, Bool.or_true, updated?]
      rw [apply, Option.map_map]
      exact congrArg (Option.map · _) (funext fun r => K.delete_amend _ _ r)

theorem applyAll_regroup (o : Option ρ) (ops : List (RecordOp ρ υ)) :
    K.applyAll o (regroup ops) =
      ((lastInsert ops).or o).map (K.amend (lastUpdate ops) (deleted ops)) := by
  rw [applyAll_eq, lastInsert_regroup, lastUpdate_since_regroup, deleted_since_regroup]

/-- **When the order between the kinds does not matter.** -/
theorem regroup_eq_iff (o : Option ρ) (ops : List (RecordOp ρ υ)) :
    K.applyAll o (regroup ops) = K.applyAll o ops ↔
      ∀ r, lastInsert ops = some r →
        K.amend (lastUpdate ops) (deleted ops) r
          = K.amend (lastUpdate (since ops)) (deleted (since ops)) r := by
  rw [applyAll_regroup, applyAll_eq]
  cases hlast : lastInsert ops with
  | none =>
    rw [since_of_lastInsert_none hlast]
    exact iff_of_true rfl fun r hr => absurd hr (by simp)
  | some r => simp

end RecordKind
end Lib
