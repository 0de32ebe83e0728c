import LightGraph.Lib.Linear
import LightGraph.Proof.FreshRows
import LightGraph.Storage.RowThreads

/-!
# Rows that belong to one thread

The counter of a label gives each row to one thread, and if the threads write only what they were
given, no two of them ever write the same cell. So whatever the others do a thread finds in its
rows what it wrote there last, at every moment and not only when all are done (`rows_private`).

With it goes the trouble with the log. A cell's records are sent by the one thread that writes the
cell, each before the next write, and so come in the order of the writes: reopening the store gives
back every cell (`rows_logged`), which threads that share a cell cannot count on.
-/

set_option autoImplicit false

namespace LightGraph

open Lib
open scoped List

/-- The row a cell is in. -/
def rowOf (c : PropCell) : LabelId × UInt32 := (c.1, c.2.2)

/-- What a thread has written last to a cell. -/
def RowThread.lastWritten (th : RowThread) (c : PropCell) : Option (Option Value) :=
  (FiniteMap.ofList Prod.fst Prod.snd th.written).get c

/-- The update a thread has made and not yet logged. -/
def RowThread.unlogged (th : RowThread) : Option (PropCell × Option Value) :=
  match th.cell with
  | .idle => none
  | .send _ label prop row value => some ((label, prop, row), value)

/-! ## One step -/

section Steps
variable [Bincode (Option Value)] {sh sh' : SharedCells} {th th' : RowThread} {m : RowMove}

/-- A step of a thread writes the cell: in the loop of `insert_row`, or called for it. -/
def RowThread.Writes (th : RowThread) (m : RowMove) (label : LabelId) (prop : String)
    (row : UInt32) (value : Option Value)
    (loop : Option (LabelId × UInt32 × List (String × Value))) : Prop :=
  (∃ p props, m = .next ∧ th.loop = some (label, row, p :: props) ∧ prop = p.1 ∧
    value = some p.2 ∧ loop = some (label, row, props)) ∨
  (th.loop = none ∧ loop = none ∧
    (m = .insertProp label prop row value ∨ m = .setProp label prop row value))

/-- What a step can do. -/
inductive RowThread.Fires (sh : SharedCells) (th : RowThread) :
    RowMove → SharedCells → RowThread → Prop
  | take {m : RowMove} {label : LabelId}
    {loop : UInt32 → Option (LabelId × UInt32 × List (String × Value))} {sh' : SharedCells}
    {th' : RowThread} (hcell : th.cell = .idle)
    (hm : m = .allocRow label ∧ loop = (fun _ => none) ∨
      ∃ props, m = .insertRow label props ∧ loop = fun row => some (label, row, props))
    (htake : sh.takeRow th label loop = (sh', th')) : Fires sh th m sh' th'
  | write {m : RowMove} {label : LabelId} {prop : String} {row : UInt32} {value : Option Value}
    {loop : Option (LabelId × UInt32 × List (String × Value))} (hcell : th.cell = .idle)
    (hwrites : th.Writes m label prop row value loop) :
    Fires sh th m
      (sh.update (sh.store.columns.putCell label prop row value) label prop row value).1
      { th with
        cell := .send sh.updated.length label prop row value
        loop
        written := th.written ++ [((label, prop, row), value)] }
  | done {label : LabelId} {row : UInt32} (hcell : th.cell = .idle)
    (hloop : th.loop = some (label, row, [])) : Fires sh th .next sh { th with loop := none }
  /-- `set_prop` finds no row -/
  | refused {label : LabelId} {prop : String} {row : UInt32} {value : Option Value}
    (hcell : th.cell = .idle) (hloop : th.loop = none) :
    Fires sh th (.setProp label prop row value) sh th
  | send {n : Nat} {label : LabelId} {prop : String} {row : UInt32}
    {value : Option Value} (hcell : th.cell = .send n label prop row value) :
    Fires sh th .send
      { sh with
        store := sh.store.walSendCell label prop row value
        sent := sh.sent ++ [((label, prop, row), n)] }
      { th with cell := .idle }

namespace SharedCells

/-- What a step of a write leaves the thread with. -/
theorem execCell_inv {m : CellMove} (h : sh.execCell th m = some (sh', th')) :
    ∃ cell, sh.exec th.cell m = some (sh', cell) ∧
      th' = { th with cell, written := th.written ++ sh'.updated.drop sh.updated.length } := by
  unfold execCell at h
  cases hexec : sh.exec th.cell m with
  | none =>
    rw [hexec] at h
    exact absurd h (by simp)
  | some next =>
    rw [hexec, Option.some.injEq] at h
    obtain ⟨rfl, rfl⟩ := Prod.mk.inj h
    exact ⟨next.2, rfl, rfl⟩

theorem execCell_insertProp {label : LabelId} {prop : String} {row : UInt32} {value : Option Value}
    (hcell : th.cell = .idle)
    (h : sh.execCell th (.insertProp label prop row value) = some (sh', th')) :
    sh' = (sh.update (sh.store.columns.putCell label prop row value) label prop row value).1 ∧
      th' = { th with
        cell := .send sh.updated.length label prop row value
        written := th.written ++ [((label, prop, row), value)] } := by
  obtain ⟨cell, hexec, rfl⟩ := execCell_inv h
  rw [hcell] at hexec
  obtain ⟨rfl, rfl⟩ := Prod.mk.inj (Option.some.inj hexec)
  have hnew : (sh.updated ++ [((label, prop, row), value)]).drop sh.updated.length
      = [((label, prop, row), value)] := List.drop_left
  exact ⟨rfl, congrArg (fun new => ({ th with
    cell := .send sh.updated.length label prop row value
    written := th.written ++ new } : RowThread)) hnew⟩

/-- `set_prop` does the same, or finds no row. -/
theorem execCell_setProp {label : LabelId} {prop : String} {row : UInt32} {value : Option Value}
    (hcell : th.cell = .idle)
    (h : sh.execCell th (.setProp label prop row value) = some (sh', th')) :
    sh.execCell th (.insertProp label prop row value) = some (sh', th') ∨
      sh' = sh ∧ th' = th := by
  by_cases hrow : sh.store.HasRow label prop row
  · unfold execCell at h ⊢
    rw [hcell, exec_setProp_of_hasRow hrow] at h
    rw [hcell]
    exact Or.inl h
  · obtain ⟨cell, hexec, rfl⟩ := execCell_inv h
    rw [hcell, exec_setProp_of_not_hasRow hrow] at hexec
    obtain ⟨rfl, rfl⟩ := Prod.mk.inj (Option.some.inj hexec)
    exact Or.inr ⟨rfl, by rw [List.drop_length, List.append_nil, ← hcell]⟩

theorem execCell_send {n : Nat} {label : LabelId} {prop : String} {row : UInt32}
    {value : Option Value} (hcell : th.cell = .send n label prop row value)
    (h : sh.execCell th .send = some (sh', th')) :
    sh' = { sh with
        store := sh.store.walSendCell label prop row value
        sent := sh.sent ++ [((label, prop, row), n)] } ∧
      th' = { th with cell := .idle } := by
  obtain ⟨cell, hexec, rfl⟩ := execCell_inv h
  rw [hcell] at hexec
  obtain ⟨rfl, rfl⟩ := Prod.mk.inj (Option.some.inj hexec)
  exact ⟨rfl, by rw [List.drop_length, List.append_nil]⟩

theorem execRow_fires (h : sh.execRow th m = some (sh', th')) : th.Fires sh m sh' th' := by
  unfold execRow at h
  split at h
  · rename_i label hcell hloop
    exact .take hcell (Or.inl ⟨rfl, rfl⟩) (Option.some.inj h)
  · rename_i label props hcell hloop
    exact .take hcell (Or.inr ⟨props, rfl, rfl⟩) (Option.some.inj h)
  · rename_i label prop row value hcell hloop
    obtain ⟨rfl, rfl⟩ := execCell_insertProp hcell h
    exact .write hcell (Or.inr ⟨hloop, hloop, Or.inl rfl⟩)
  · rename_i label prop row value hcell hloop
    rcases execCell_setProp hcell h with h | ⟨rfl, rfl⟩
    · obtain ⟨rfl, rfl⟩ := execCell_insertProp hcell h
      exact .write hcell (Or.inr ⟨hloop, hloop, Or.inr rfl⟩)
    · exact .refused hcell hloop
  · rename_i hcell hloop
    obtain ⟨rfl, rfl⟩ := Prod.mk.inj (Option.some.inj h)
    exact .done hcell hloop
  · rename_i label row p props hcell hloop
    have hnext : ({ th with loop := some (label, row, props) } : RowThread).cell = .idle := hcell
    obtain ⟨rfl, rfl⟩ := execCell_insertProp hnext h
    exact .write hcell (Or.inl ⟨p, props, rfl, hloop, rfl, rfl, rfl⟩)
  · rename_i n label prop row value hcell
    obtain ⟨rfl, rfl⟩ := execCell_send hcell h
    exact .send hcell
  · exact absurd h (by simp)

end SharedCells
end Steps

theorem PropStore.walSendCell_schemas [Bincode (Option Value)] (s : PropStore) (label : LabelId)
    (prop : String) (row : UInt32) (value : Option Value) :
    (s.walSendCell label prop row value).schemas = s.schemas := by
  unfold walSendCell
  split
  · rfl
  · split
    · rfl
    · rfl

/-! ## Who has a row -/

/-- The threads write rows they were given, no row was given twice, and what a thread reads in its
own rows is what it wrote there. -/
structure RowsOwned (s₀ : PropStore) (s : Threads SharedCells RowThread) : Prop where
  grown : ∀ label, nextRow s₀.schemas label ≤ nextRow s.shared.store.schemas label
  rows : ∀ label, rowsGiven s label ~ List.range' (nextRow s₀.schemas label)
    (nextRow s.shared.store.schemas label - nextRow s₀.schemas label)
  inLoop : ∀ th ∈ s.threads, ∀ l, th.loop = some l → (l.1, l.2.1) ∈ th.given
  wrote : ∀ th ∈ s.threads, ∀ w ∈ th.written, rowOf w.1 ∈ th.given
  cells : ∀ th ∈ s.threads, ∀ c, rowOf c ∈ th.given →
    s.shared.store.getCell c = (th.lastWritten c).getD none
  old : ∀ c, c.2.2.toNat < nextRow s₀.schemas c.1 → s.shared.store.getCell c = s₀.getCell c
  ahead : s.shared.store.NoneAhead

theorem mem_rowsGiven {s : Threads SharedCells RowThread} {th : RowThread} {c : PropCell}
    (hth : th ∈ s.threads) (hc : rowOf c ∈ th.given) : c.2.2.toNat ∈ rowsGiven s c.1 :=
  List.mem_map.mpr ⟨rowOf c, List.mem_filter.mpr
    ⟨List.mem_flatMap.mpr ⟨th, hth, hc⟩, decide_eq_true rfl⟩, rfl⟩

theorem rowsGiven_congr {s t : Threads SharedCells RowThread}
    (h : t.threads.flatMap RowThread.given = s.threads.flatMap RowThread.given)
    (label : LabelId) : rowsGiven t label = rowsGiven s label := by
  rw [rowsGiven, rowsGiven, h]

namespace RowsOwned
variable {s₀ : PropStore} {s : Threads SharedCells RowThread} {th : RowThread} {i : Nat}

/-- A row that was given is between the counter at the start and the counter now. -/
theorem given_range (h : RowsOwned s₀ s) (hth : th ∈ s.threads) {c : PropCell}
    (hc : rowOf c ∈ th.given) :
    nextRow s₀.schemas c.1 ≤ c.2.2.toNat ∧ c.2.2.toNat < nextRow s.shared.store.schemas c.1 := by
  have hmem := (h.rows c.1).mem_iff.mp (mem_rowsGiven hth hc)
  obtain ⟨hlo, hhi⟩ := List.mem_range'_1.mp hmem
  have hgrown := h.grown c.1
  exact ⟨hlo, by omega⟩

theorem nodup (h : RowsOwned s₀ s) : (s.threads.flatMap RowThread.given).Nodup := by
  rw [List.nodup_iff_count_le_one]
  intro g
  have hcount : (s.threads.flatMap RowThread.given).count g
      ≤ (rowsGiven s g.1).count g.2.toNat := by
    have hfilter : ((s.threads.flatMap RowThread.given).filter fun g' => g'.1 = g.1).count g
        = (s.threads.flatMap RowThread.given).count g := List.count_filter (decide_eq_true rfl)
    rw [← hfilter]
    exact List.count_le_count_map (f := fun g : LabelId × UInt32 => g.2.toNat)
  have honce := List.nodup_iff_count_le_one.mp
    ((h.rows g.1).nodup_iff.mpr List.nodup_range') g.2.toNat
  exact Nat.le_trans hcount honce

/-- A cell in a row of one thread is in no row of another. -/
theorem others (h : RowsOwned s₀ s) (hi : s.threads[i]? = some th) {j : Nat} {th' : RowThread}
    (hj : s.threads[j]? = some th') (hne : i ≠ j) {c c' : PropCell} (hc : rowOf c ∈ th.given)
    (hc' : rowOf c' ∈ th'.given) : c' ≠ c := by
  rintro rfl
  exact flatMap_unique h.nodup hi hj hne hc hc'

/-- Nothing was written in a row before it was given. -/
theorem lastWritten_none (h : RowsOwned s₀ s) (hth : th ∈ s.threads) {c : PropCell}
    (hc : nextRow s.shared.store.schemas c.1 ≤ c.2.2.toNat) : th.lastWritten c = none := by
  cases hlast : th.lastWritten c with
  | none => rfl
  | some v =>
    obtain ⟨w, hw, rfl, -⟩ := FiniteMap.get_ofList_eq_some hlast
    exact absurd (h.given_range hth (h.wrote th hth w hw)).2 (Nat.not_lt_of_le hc)

/-- A step that gives nothing and writes nothing. -/
theorem same (h : RowsOwned s₀ s) (hi : s.threads[i]? = some th) {sh : SharedCells}
    {th' : RowThread} (hcol : sh.store.columns = s.shared.store.columns)
    (hsch : sh.store.schemas = s.shared.store.schemas) (hgiven : th'.given = th.given)
    (hwritten : th'.written = th.written) (hloop : ∀ l, th'.loop = some l → th.loop = some l) :
    RowsOwned s₀ { shared := sh, threads := s.threads.set i th' } := by
  have hth := List.mem_of_getElem? hi
  have hcell : ∀ c, sh.store.getCell c = s.shared.store.getCell c := fun c =>
    PropStore.getProp_congr hcol _ _ _
  refine ⟨fun label => ?_, fun label => ?_, fun q hq l hl => ?_, fun q hq w hw => ?_,
    fun q hq c hc => ?_, fun c hc => ?_, fun label prop row hrow => ?_⟩
  · rw [hsch]
    exact h.grown label
  · rw [rowsGiven_congr (flatMap_set_eq RowThread.given hi hgiven), hsch]
    exact h.rows label
  · rcases List.mem_or_eq_of_mem_set hq with hq | rfl
    · exact h.inLoop q hq l hl
    · rw [hgiven]
      exact h.inLoop th hth l (hloop l hl)
  · rcases List.mem_or_eq_of_mem_set hq with hq | rfl
    · exact h.wrote q hq w hw
    · rw [hgiven]
      exact h.wrote th hth w (hwritten ▸ hw)
  · rw [hcell]
    rcases List.mem_or_eq_of_mem_set hq with hq | rfl
    · exact h.cells q hq c hc
    · rw [RowThread.lastWritten, hwritten]
      exact h.cells th hth c (hgiven ▸ hc)
  · rw [hcell]
    exact h.old c hc
  · rw [hsch] at hrow
    exact (hcell (label, prop, row)).trans (h.ahead label prop row hrow)

/-- A step that takes a row. -/
theorem take (h : RowsOwned s₀ s) (hi : s.threads[i]? = some th) {label : LabelId}
    {loop : UInt32 → Option (LabelId × UInt32 × List (String × Value))} {sh : SharedCells}
    {th' : RowThread} (hloop : ∀ row l, loop row = some l → (l.1, l.2.1) = (label, row))
    (hnext : nextRow s.shared.store.schemas label + 1 < 2 ^ 32)
    (htake : s.shared.takeRow th label loop = (sh, th')) :
    RowsOwned s₀ { shared := sh, threads := s.threads.set i th' } := by
  obtain ⟨rfl, hth'⟩ := Prod.mk.inj htake
  have hgiven : th'.given = th.given ++ [(label, s.shared.store.rowCount label)] := by
    rw [← hth']
    rfl
  have hwritten : th'.written = th.written := by rw [← hth']
  have hth := List.mem_of_getElem? hi
  have hafter : ∀ label', nextRow (s.shared.store.allocRow label).2.schemas label'
      = if label' = label then nextRow s.shared.store.schemas label + 1
        else nextRow s.shared.store.schemas label' := PropStore.nextRow_allocRow hnext
  refine ⟨fun label' => ?_, fun label' => ?_, fun q hq l hl => ?_, fun q hq w hw => ?_,
    fun q hq c hc => ?_, h.old, h.ahead.allocRow hnext⟩
  · have hgrown := h.grown label'
    show _ ≤ nextRow (s.shared.store.allocRow label).2.schemas label'
    rw [hafter]
    split
    · rename_i heq
      subst heq
      exact Nat.le_succ_of_le hgrown
    · exact hgrown
  · -- the new row is the next of its label
    have hperm : (s.threads.set i th').flatMap RowThread.given
        ~ s.threads.flatMap RowThread.given ++ [(label, s.shared.store.rowCount label)] := by
      refine (flatMap_set_perm RowThread.given th' hi).trans ?_
      refine List.Perm.trans ?_ ((flatMap_perm RowThread.given hi).symm.append_right _)
      rw [hgiven, List.append_assoc, List.append_assoc]
      exact List.perm_append_comm.append_left _
    have hrows := (hperm.filter fun g => g.1 = label').map fun g => g.2.toNat
    rw [List.filter_append, List.map_append] at hrows
    have hgrown := h.grown label'
    refine hrows.trans ?_
    show _ ~ List.range' _ (nextRow (s.shared.store.allocRow label).2.schemas label' - _)
    rw [hafter]
    by_cases heq : label' = label
    · subst heq
      rw [if_pos rfl, Nat.succ_sub hgrown, List.range'_1_concat, Nat.add_sub_cancel' hgrown]
      refine (h.rows label').append ?_
      rw [List.filter_cons_of_pos (by simp)]
      exact List.Perm.refl _
    · rw [if_neg heq, List.filter_cons_of_neg (by simpa using Ne.symm heq), List.filter_nil,
        List.map_nil, List.append_nil]
      exact h.rows label'
  · rcases List.mem_or_eq_of_mem_set hq with hq | rfl
    · exact h.inLoop q hq l hl
    · rw [← hth'] at hl
      rw [hloop _ l hl, hgiven]
      exact List.mem_append_right _ (List.mem_singleton_self _)
  · rcases List.mem_or_eq_of_mem_set hq with hq | rfl
    · exact h.wrote q hq w hw
    · rw [hgiven]
      exact List.mem_append_left _ (h.wrote th hth w (hwritten ▸ hw))
  · rcases List.mem_or_eq_of_mem_set hq with hq | rfl
    · exact h.cells q hq c hc
    · rw [RowThread.lastWritten, hwritten]
      rw [hgiven] at hc
      rcases List.mem_append.mp hc with hold | hnew
      · exact h.cells th hth c hold
      · -- the new row is empty
        obtain ⟨hl, hr⟩ := Prod.mk.inj (List.mem_singleton.mp hnew)
        have hahead : nextRow s.shared.store.schemas c.1 ≤ c.2.2.toNat := by
          rw [hl, hr]
          exact Nat.le_refl _
        have hnone := h.lastWritten_none hth hahead
        rw [RowThread.lastWritten] at hnone
        rw [hnone]
        exact h.ahead c.1 c.2.1 c.2.2 hahead

/-- A step that writes a cell of a row of its own. -/
theorem write (h : RowsOwned s₀ s) (hi : s.threads[i]? = some th) {label : LabelId}
    {prop : String} {row : UInt32} {value : Option Value} {cell : CellPc}
    {loop : Option (LabelId × UInt32 × List (String × Value))} (hown : (label, row) ∈ th.given)
    (hloop : ∀ l, loop = some l → (l.1, l.2.1) = (label, row)) :
    RowsOwned s₀
      { shared := (s.shared.update (s.shared.store.columns.putCell label prop row value) label prop
          row value).1
        threads := s.threads.set i { th with
          cell
          loop
          written := th.written ++ [((label, prop, row), value)] } } := by
  have hth := List.mem_of_getElem? hi
  have hrange := h.given_range hth (c := (label, prop, row)) hown
  have hcell : ∀ c, (s.shared.store.columns.putCell label prop row value).cell c
      = if c = (label, prop, row) then value else s.shared.store.getCell c :=
    Columns.cell_putCell _ label prop row value
  refine ⟨h.grown, fun label' => ?_, fun q hq l hl => ?_, fun q hq w hw => ?_, fun q hq c hc => ?_,
    fun c hc => ?_, fun label' prop' row' hrow' => ?_⟩
  · refine (List.Perm.of_eq ?_).trans (h.rows label')
    exact rowsGiven_congr (flatMap_set_eq RowThread.given hi (by rfl)) label'
  · rcases List.mem_or_eq_of_mem_set hq with hq | rfl
    · exact h.inLoop q hq l hl
    · rw [hloop l hl]
      exact hown
  · rcases List.mem_or_eq_of_mem_set hq with hq | rfl
    · exact h.wrote q hq w hw
    · rcases List.mem_append.mp hw with hw | hw
      · exact h.wrote th hth w hw
      · rw [List.mem_singleton.mp hw]
        exact hown
  · show (s.shared.store.columns.putCell label prop row value).cell c = _
    rw [hcell]
    obtain ⟨j, hj⟩ := List.mem_iff_getElem?.mp hq
    rcases getElem?_set_eq_some hj with ⟨hne, hj⟩ | ⟨-, rfl⟩
    · rw [if_neg (h.others (c := (label, prop, row)) hi hj hne hown hc)]
      exact h.cells q (List.mem_of_getElem? hj) c hc
    · rw [RowThread.lastWritten, FiniteMap.ofList_append, FiniteMap.get_put]
      split
      · rfl
      · exact h.cells th hth c hc
  · show (s.shared.store.columns.putCell label prop row value).cell c = _
    rw [hcell, if_neg fun heq => ?_]
    · exact h.old c hc
    · rw [heq] at hc
      exact absurd hc (Nat.not_lt_of_le hrange.1)
  · show (s.shared.store.columns.putCell label prop row value).cell (label', prop', row') = none
    rw [hcell, if_neg fun heq => ?_]
    · exact h.ahead label' prop' row' hrow'
    · cases heq
      exact absurd hrow' (Nat.not_le_of_gt hrange.2)

theorem start {s₀ : PropStore} (hahead : s₀.NoneAhead) (n : Nat) :
    RowsOwned s₀ (rowThreads s₀ n) := by
  have hnew : ∀ th ∈ (rowThreads s₀ n).threads, th = .new := fun th => List.eq_of_mem_replicate
  refine ⟨fun label => Nat.le_refl _, fun label => ?_, fun th hth l hl => ?_, fun th hth w hw => ?_,
    fun th hth c hc => ?_, fun c _ => rfl, hahead⟩
  · have hnone : (rowThreads s₀ n).threads.flatMap RowThread.given = [] := by
      refine List.flatMap_eq_nil_iff.mpr fun th hth => ?_
      rw [hnew th hth]
      rfl
    rw [rowsGiven, hnone]
    show [] ~ List.range' _ (nextRow s₀.schemas label - nextRow s₀.schemas label)
    rw [Nat.sub_self]
    exact List.Perm.refl _
  · rw [hnew th hth] at hl
    cases hl
  · rw [hnew th hth] at hw
    exact absurd hw List.not_mem_nil
  · rw [hnew th hth] at hc
    exact absurd hc List.not_mem_nil

/-- A thread that writes a cell has its row. -/
theorem owns (h : RowsOwned s₀ s) (hi : s.threads[i]? = some th) {m : RowMove}
    (ha : RowMove.Allowed s (i, m)) {label : LabelId} {prop : String} {row : UInt32}
    {value : Option Value} {loop : Option (LabelId × UInt32 × List (String × Value))}
    (hw : th.Writes m label prop row value loop) :
    (label, row) ∈ th.given ∧ ∀ l, loop = some l → (l.1, l.2.1) = (label, row) := by
  rcases hw with ⟨p, props, rfl, hloop, -, -, rfl⟩ | ⟨-, rfl, rfl | rfl⟩
  · refine ⟨h.inLoop th (List.mem_of_getElem? hi) _ hloop, fun l hl => ?_⟩
    rw [← Option.some.inj hl]
  · exact ⟨ha th hi, fun l hl => by cases hl⟩
  · exact ⟨ha th hi, fun l hl => by cases hl⟩

variable [Bincode (Option Value)] {t : Threads SharedCells RowThread}

/-- **A step** of any thread. -/
theorem step (h : RowsOwned s₀ s) {a : Nat × RowMove} (ha : RowMove.Allowed s a)
    (hs : SharedCells.rowStep s a = some t) : RowsOwned s₀ t := by
  obtain ⟨i, m⟩ := a
  obtain ⟨th, sh, th', hi, hexec, rfl⟩ := Threads.step_inv hs
  cases SharedCells.execRow_fires hexec with
  | take hcell hm htake =>
    rcases hm with ⟨rfl, rfl⟩ | ⟨props, rfl, rfl⟩
    · exact h.take hi (fun row l hl => by cases hl) (ha th hi) htake
    · exact h.take hi (fun row l hl => by cases hl; rfl) (ha th hi) htake
  | write hcell hwrites =>
    obtain ⟨hown, hloop⟩ := h.owns hi ha hwrites
    exact h.write hi hown hloop
  | done hcell hloop => exact h.same hi rfl rfl rfl rfl fun l hl => by cases hl
  | refused hcell hloop => exact h.same hi rfl rfl rfl rfl fun l hl => hl
  | send hcell =>
    exact h.same hi (PropStore.walSendCell_columns _ _ _ _ _)
      (PropStore.walSendCell_schemas _ _ _ _ _) rfl rfl fun l hl => hl

end RowsOwned

/-! ## One call of `insert_row` -/

/-- An `insert_row` under way or over: the thread has been given one row more, and has written in it
the properties that the loop is through with. -/
def RowThread.Inserting (th₀ : RowThread) (label : LabelId) (props : List (String × Value))
    (th : RowThread) : Prop :=
  ∃ row done rest, props = done ++ rest ∧ th.given = th₀.given ++ [(label, row)] ∧
    th.written = th₀.written
      ++ done.map (fun p => (((label, p.1, row) : PropCell), some p.2)) ∧
    (th.loop = some (label, row, rest) ∨ th.loop = none ∧ rest = [])

theorem RowThread.Inserting.step [Bincode (Option Value)] {th₀ th th' : RowThread} {label : LabelId}
    {props : List (String × Value)} (h : RowThread.Inserting th₀ label props th)
    {sh sh' : SharedCells} {m : RowMove} (hm : m = .next ∨ m = .send)
    (hf : th.Fires sh m sh' th') : RowThread.Inserting th₀ label props th' := by
  obtain ⟨row, done, rest, rfl, hgiven, hwritten, hloop⟩ := h
  cases hf with
  | take hcell hcall =>
    rcases hcall with ⟨rfl, -⟩ | ⟨_, rfl, -⟩
    · exact absurd hm (by simp)
    · exact absurd hm (by simp)
  | write hcell hwrites =>
    rcases hwrites with ⟨p, props, rfl, hnow, rfl, rfl, rfl⟩ | ⟨-, -, hcall⟩
    · rcases hloop with hloop | ⟨hloop, -⟩
      · -- one property more is written
        cases hloop.symm.trans hnow
        refine ⟨row, done ++ [p], props, ?_, hgiven, ?_, Or.inl rfl⟩
        · rw [List.append_assoc]
          rfl
        · rw [hwritten, List.map_append, List.append_assoc]
          rfl
      · cases hloop.symm.trans hnow
    · rcases hcall with rfl | rfl
      · exact absurd hm (by simp)
      · exact absurd hm (by simp)
  | done hcell hnow =>
    rcases hloop with hloop | ⟨hloop, -⟩
    · cases hloop.symm.trans hnow
      exact ⟨row, done, [], rfl, hgiven, hwritten, Or.inr ⟨rfl, rfl⟩⟩
    · cases hloop.symm.trans hnow
  | refused hcell => exact absurd hm (by simp)
  | send hcell => exact ⟨row, done, rest, rfl, hgiven, hwritten, hloop⟩

/-- A thread whose moves are one call of `insert_row` is in it, whatever the others do. -/
theorem inserting_of_run [Bincode (Option Value)] {s t : Threads SharedCells RowThread}
    {moves : List (Nat × RowMove)} (h : run SharedCells.rowStep s moves = some t) {i : Nat}
    {th₀ : RowThread} (hi : s.threads[i]? = some th₀) {label : LabelId}
    {props : List (String × Value)} {rest : List RowMove}
    (hcall : Threads.ofThread i moves = .insertRow label props :: rest)
    (hrest : ∀ m ∈ rest, m = .next ∨ m = .send) :
    ∃ th, t.threads[i]? = some th ∧ RowThread.Inserting th₀ label props th := by
  let J : List RowMove → RowThread → Prop := fun ms th =>
    (ms = [] → th = th₀) ∧ ∀ rest, ms = .insertRow label props :: rest →
      (∀ m ∈ rest, m = .next ∨ m = .send) → RowThread.Inserting th₀ label props th
  have hstep : ∀ sh th m sh' th' ms, J ms th →
      SharedCells.execRow sh th m = some (sh', th') → J (ms ++ [m]) th' := by
    intro sh th m sh' th' ms ⟨hnew, hin⟩ hexec
    refine ⟨fun h => absurd h (by simp), fun rest' hms hrest' => ?_⟩
    have hf := SharedCells.execRow_fires hexec
    cases ms with
    | nil =>
      obtain ⟨rfl, rfl⟩ := List.cons.inj hms
      rw [hnew rfl] at hf
      cases hf with
      | take hcell hm htake =>
        obtain ⟨rfl, rfl⟩ := Prod.mk.inj htake
        rcases hm with ⟨hm, -⟩ | ⟨_, hm, rfl⟩
        · cases hm
        · cases hm
          exact ⟨_, [], props, rfl, rfl, (List.append_nil _).symm, Or.inl rfl⟩
      | write hcell hwrites =>
        rcases hwrites with ⟨_, _, hm, -⟩ | ⟨-, -, hm | hm⟩
        · cases hm
        · cases hm
        · cases hm
    | cons m₀ ms =>
      obtain ⟨rfl, rfl⟩ := List.cons.inj hms
      refine (hin ms rfl fun m' hm' => hrest' m' (List.mem_append_left _ hm')).step ?_ hf
      exact hrest' m (List.mem_append_right _ (List.mem_singleton_self m))
  have hstart : J [] th₀ := ⟨fun _ => rfl, fun rest hnil => by cases hnil⟩
  obtain ⟨th, hth, -, hin⟩ := Threads.own_run hstep h hi hstart
  exact ⟨th, hth, hin rest hcall hrest⟩

/-! ## The log -/

/-- The threads as writers of cells. -/
def cellsOf (s : Threads SharedCells RowThread) : Threads SharedCells CellPc :=
  { shared := s.shared, threads := s.threads.map RowThread.cell }

/-- A call that writes under names whose lengths fit their byte. -/
def RowMove.ShortName : RowMove → Prop
  | .insertRow _ props => ∀ p ∈ props, (utf8Bytes p.1).length < 256
  | .insertProp _ prop _ _ => (utf8Bytes prop).length < 256
  | .setProp _ prop _ _ => (utf8Bytes prop).length < 256
  | _ => True

/-- The update a thread has not logged is the last of its cell, and of every other cell the last
update is the one logged last. -/
structure RowsLogged (s : Threads SharedCells RowThread) : Prop where
  held : ∀ th ∈ s.threads, ∀ w, th.unlogged = some w →
    rowOf w.1 ∈ th.given ∧ s.shared.lastUpdate w.1 = some w.2
  logged : ∀ c, (∀ th ∈ s.threads, ∀ w, th.unlogged = some w → w.1 ≠ c) →
    s.shared.recorded c = s.shared.lastUpdate c
  short : ∀ th ∈ s.threads, ∀ l, th.loop = some l → ∀ p ∈ l.2.2, (utf8Bytes p.1).length < 256

/-- An update is not in the log yet. -/
theorem Settled.recorded_update [Bincode (Option Value)] {log : List LogRecord}
    {base : PropCell → Option Value} {s : Threads SharedCells CellPc} (h : Settled log base s)
    (columns : Columns) (label : LabelId) (prop : String) (row : UInt32) (value : Option Value)
    (c : PropCell) :
    (s.shared.update columns label prop row value).1.recorded c = s.shared.recorded c := by
  show (s.shared.lastSent c).bind _ = (s.shared.lastSent c).bind _
  cases hlast : s.shared.lastSent c with
  | none => rfl
  | some n =>
    obtain ⟨v, hv⟩ := h.lastSent_known hlast
    show ((s.shared.updated ++ [_])[n]?).map Prod.snd = (s.shared.updated[n]?).map Prod.snd
    rw [Settled.getElem?_of_some hv, hv]

namespace SharedCells

theorem lastUpdate_update (sh : SharedCells) (columns : Columns) (label : LabelId)
    (prop : String) (row : UInt32) (value : Option Value) (c : PropCell) :
    (sh.update columns label prop row value).1.lastUpdate c
      = if c = (label, prop, row) then some value else sh.lastUpdate c := by
  show (FiniteMap.ofList Prod.fst Prod.snd (sh.updated ++ [_])).get c = _
  rw [FiniteMap.ofList_append, FiniteMap.get_put]
  rfl

theorem recorded_send {sh : SharedCells} {n : Nat} {label : LabelId} {prop : String}
    {row : UInt32} {value : Option Value}
    (hn : sh.updated[n]? = some ((label, prop, row), value)) (store : PropStore) (c : PropCell) :
    ({ sh with store, sent := sh.sent ++ [((label, prop, row), n)] } : SharedCells).recorded c
      = if c = (label, prop, row) then some value else sh.recorded c := by
  rw [recorded, lastSent, FiniteMap.ofList_append, FiniteMap.get_put]
  by_cases hc : c = (label, prop, row)
  · rw [if_pos hc, if_pos hc, Option.bind_some, hn, Option.map_some]
  · rw [if_neg hc, if_neg hc]
    rfl

end SharedCells

namespace RowsLogged
variable {s₀ : PropStore} {s : Threads SharedCells RowThread} {th : RowThread} {i : Nat}

/-- Nobody else's cell is anybody's after a step that was not before it. -/
theorem nobody_of_set (hi : s.threads[i]? = some th) {th' : RowThread} {c : PropCell}
    (h : ∀ q ∈ s.threads.set i th', ∀ w, q.unlogged = some w → w.1 ≠ c)
    (hth : ∀ w, th.unlogged = some w → w.1 ≠ c) :
    ∀ q ∈ s.threads, ∀ w, q.unlogged = some w → w.1 ≠ c := by
  intro q hq w hw
  obtain ⟨j, hj⟩ := List.mem_iff_getElem?.mp hq
  by_cases hij : i = j
  · subst hij
    obtain rfl := Option.some.inj (hi.symm.trans hj)
    exact hth w hw
  · refine h q (List.mem_iff_getElem?.mpr ⟨j, ?_⟩) w hw
    rw [List.getElem?_set_ne hij, hj]

theorem unlogged_of_idle (h : th.cell = .idle) : th.unlogged = none := by
  rw [RowThread.unlogged, h]

/-- A step that updates and logs nothing. -/
theorem same (h : RowsLogged s) (hi : s.threads[i]? = some th) {sh : SharedCells}
    {th' : RowThread} (hupdated : sh.updated = s.shared.updated) (hsent : sh.sent = s.shared.sent)
    (hcell : th.cell = .idle) (hcell' : th'.cell = .idle)
    (hloop : ∀ l, th'.loop = some l → ∀ p ∈ l.2.2, (utf8Bytes p.1).length < 256) :
    RowsLogged { shared := sh, threads := s.threads.set i th' } := by
  have hlast : ∀ c, sh.lastUpdate c = s.shared.lastUpdate c := fun c => by
    rw [SharedCells.lastUpdate, hupdated, SharedCells.lastUpdate]
  have hrec : ∀ c, sh.recorded c = s.shared.recorded c := fun c => by
    rw [SharedCells.recorded, SharedCells.lastSent, hupdated, hsent]
    rfl
  refine ⟨fun q hq w hw => ?_, fun c hc => ?_, fun q hq l hl => ?_⟩
  · rcases List.mem_or_eq_of_mem_set hq with hq | rfl
    · rw [hlast]
      exact h.held q hq w hw
    · rw [unlogged_of_idle hcell'] at hw
      cases hw
  · rw [hlast, hrec]
    refine h.logged c (nobody_of_set hi hc fun w hw => ?_)
    rw [unlogged_of_idle hcell] at hw
    cases hw
  · rcases List.mem_or_eq_of_mem_set hq with hq | rfl
    · exact h.short q hq l hl
    · exact hloop l hl

/-- A step that updates a cell of a row of its own. -/
theorem write [Bincode (Option Value)] {log : List LogRecord} {base : PropCell → Option Value}
    (h : RowsLogged s) (ho : RowsOwned s₀ s)
    (hsettled : Settled log base (cellsOf s)) (hi : s.threads[i]? = some th)
    (hcell : th.cell = .idle) {label : LabelId} {prop : String} {row : UInt32}
    {value : Option Value} (hown : (label, row) ∈ th.given) {columns : Columns} {n : Nat}
    {loop : Option (LabelId × UInt32 × List (String × Value))}
    {written : List (PropCell × Option Value)}
    (hloop : ∀ l, loop = some l → ∀ p ∈ l.2.2, (utf8Bytes p.1).length < 256) :
    RowsLogged
      { shared := (s.shared.update columns label prop row value).1
        threads := s.threads.set i { th with
          cell := .send n label prop row value
          loop
          written } } := by
  have hlast := SharedCells.lastUpdate_update s.shared columns label prop row value
  refine ⟨fun q hq w hw => ?_, fun c hc => ?_, fun q hq l hl => ?_⟩
  · rw [hlast]
    obtain ⟨j, hj⟩ := List.mem_iff_getElem?.mp hq
    rcases getElem?_set_eq_some hj with ⟨hne, hj⟩ | ⟨-, rfl⟩
    · obtain ⟨hrow, hup⟩ := h.held q (List.mem_of_getElem? hj) w hw
      rw [if_neg (ho.others (c := (label, prop, row)) hi hj hne hown hrow)]
      exact ⟨hrow, hup⟩
    · obtain rfl := Option.some.inj hw
      exact ⟨hown, if_pos rfl⟩
  · have hne : c ≠ (label, prop, row) := by
      obtain ⟨hlt, -⟩ := List.getElem?_eq_some_iff.mp hi
      exact (hc _ (List.mem_set hlt _) _ rfl).symm
    rw [hlast, if_neg hne]
    refine (hsettled.recorded_update columns label prop row value c).trans ?_
    refine h.logged c (nobody_of_set hi hc fun w hw => ?_)
    rw [unlogged_of_idle hcell] at hw
    cases hw
  · rcases List.mem_or_eq_of_mem_set hq with hq | rfl
    · exact h.short q hq l hl
    · exact hloop l hl

/-- A step that logs the update its thread has made. -/
theorem send (h : RowsLogged s) (hi : s.threads[i]? = some th) {n : Nat} {label : LabelId}
    {prop : String} {row : UInt32} {value : Option Value}
    (hcell : th.cell = .send n label prop row value)
    (hn : s.shared.updated[n]? = some ((label, prop, row), value)) (store : PropStore) :
    RowsLogged
      { shared := { s.shared with store, sent := s.shared.sent ++ [((label, prop, row), n)] }
        threads := s.threads.set i { th with cell := .idle } } := by
  have hth := List.mem_of_getElem? hi
  have hheld : th.unlogged = some ((label, prop, row), value) := by
    rw [RowThread.unlogged, hcell]
  refine ⟨fun q hq w hw => ?_, fun c hc => ?_, fun q hq l hl => ?_⟩
  · rcases List.mem_or_eq_of_mem_set hq with hq | rfl
    · exact h.held q hq w hw
    · cases hw
  · rw [SharedCells.recorded_send hn]
    split
    · rename_i heq
      rw [heq]
      exact ((h.held th hth _ hheld).2).symm
    · rename_i hne
      refine h.logged c (nobody_of_set hi hc fun w hw => ?_)
      rw [hheld, Option.some.injEq] at hw
      rw [← hw]
      exact Ne.symm hne
  · rcases List.mem_or_eq_of_mem_set hq with hq | rfl
    · exact h.short q hq l hl
    · exact h.short th hth l hl

end RowsLogged

theorem cellsOf_set {s : Threads SharedCells RowThread} {th : RowThread} {i : Nat}
    (hi : s.threads[i]? = some th) : (cellsOf s).threads[i]? = some th.cell := by
  rw [cellsOf, List.getElem?_map, hi]
  rfl

/-- What is kept of the threads that own their rows, and of the log. -/
structure RowsKept [Bincode (Option Value)] (s₀ : PropStore) (log : List LogRecord)
    (s : Threads SharedCells RowThread) : Prop where
  owned : RowsOwned s₀ s
  logged : RowsLogged s
  settled : Settled log s₀.getCell (cellsOf s)

section Step
variable [Bincode (Option Value)] {s₀ : PropStore} {log : List LogRecord}
  {s t : Threads SharedCells RowThread} {th : RowThread} {i : Nat}

/-- The cell threads do not see a row being taken, nor the end of a loop. -/
theorem Settled.same {base : PropCell → Option Value} (h : Settled log base (cellsOf s))
    (hi : s.threads[i]? = some th) {th' : RowThread} (hcell : th'.cell = th.cell)
    (schemas : FiniteMap LabelId UInt32) :
    Settled log base (cellsOf
      { shared := { s.shared with store := { s.shared.store with schemas } }
        threads := s.threads.set i th' }) := by
  have hthreads : (s.threads.set i th').map RowThread.cell = s.threads.map RowThread.cell := by
    obtain ⟨hlt, rfl⟩ := List.getElem?_eq_some_iff.mp hi
    have hlt' : i < (s.threads.map RowThread.cell).length := by rwa [List.length_map]
    have hget : (s.threads.map RowThread.cell)[i] = s.threads[i].cell := List.getElem_map ..
    rw [List.map_set, hcell, ← hget, List.set_getElem_self]
  refine ⟨h.logged.of_wal rfl, h.memory, h.disk, h.sent, fun p hp => ?_, fun n hn => ?_⟩
  · rw [cellsOf, hthreads] at hp
    exact h.threads p hp
  · rcases h.all n hn with hsent | hheld
    · exact Or.inl hsent
    · refine Or.inr ?_
      rw [cellsOf, hthreads]
      exact hheld

omit [Bincode (Option Value)] in
theorem shortName_of_writes (h : RowsLogged s) (hi : s.threads[i]? = some th) {m : RowMove}
    (hm : m.ShortName) {label : LabelId} {prop : String} {row : UInt32} {value : Option Value}
    {loop : Option (LabelId × UInt32 × List (String × Value))}
    (hw : th.Writes m label prop row value loop) :
    (utf8Bytes prop).length < 256 ∧
      ∀ l, loop = some l → ∀ p ∈ l.2.2, (utf8Bytes p.1).length < 256 := by
  rcases hw with ⟨p, props, rfl, hloop, rfl, -, rfl⟩ | ⟨-, rfl, rfl | rfl⟩
  · have hshort := h.short th (List.mem_of_getElem? hi) _ hloop
    refine ⟨hshort p List.mem_cons_self, fun l hl q hq => ?_⟩
    cases hl
    exact hshort q (List.mem_cons_of_mem p hq)
  · exact ⟨hm, fun l hl => by cases hl⟩
  · exact ⟨hm, fun l hl => by cases hl⟩

/-- **A step** of any thread. -/
theorem RowsKept.step (h : RowsKept s₀ log s) {a : Nat × RowMove} (ha : RowMove.Allowed s a)
    (hshort : a.2.ShortName) (hs : SharedCells.rowStep s a = some t) : RowsKept s₀ log t := by
  have howned := h.owned.step ha hs
  suffices hrest : RowsLogged t ∧ Settled log s₀.getCell (cellsOf t) from
    ⟨howned, hrest.1, hrest.2⟩
  obtain ⟨i, m⟩ := a
  obtain ⟨th, sh, th', hi, hexec, rfl⟩ := Threads.step_inv hs
  cases SharedCells.execRow_fires hexec with
  | take hcell hm htake =>
    obtain ⟨rfl, rfl⟩ := Prod.mk.inj htake
    refine ⟨h.logged.same hi rfl rfl hcell hcell fun l hl => ?_, h.settled.same hi (by rfl) _⟩
    rcases hm with ⟨rfl, rfl⟩ | ⟨props, rfl, rfl⟩
    · cases hl
    · cases hl
      exact hshort
  | write hcell hwrites =>
    obtain ⟨hown, -⟩ := h.owned.owns hi ha hwrites
    obtain ⟨hname, hloop⟩ := shortName_of_writes h.logged hi hshort hwrites
    have hidle := cellsOf_set hi
    rw [hcell] at hidle
    refine ⟨h.logged.write h.owned h.settled hi hcell hown hloop, ?_⟩
    rw [cellsOf, List.map_set]
    exact h.settled.update hidle _ _ _ hname rfl
  | done hcell hloop =>
    refine ⟨h.logged.same hi rfl rfl hcell hcell fun l hl => ?_, h.settled.same hi (by rfl) _⟩
    cases hl
  | refused hcell hloop =>
    refine ⟨h.logged.same hi rfl rfl hcell hcell fun l hl => ?_, h.settled.same hi rfl _⟩
    rw [hloop] at hl
    cases hl
  | send hcell =>
    have hsending := cellsOf_set hi
    rw [hcell] at hsending
    have hn := (h.settled.threads _ (List.mem_of_getElem? hsending)).1
    refine ⟨h.logged.send hi hcell hn _, ?_⟩
    rw [cellsOf, List.map_set]
    exact h.settled.send hsending

end Step

section Runs
variable [Bincode (Option Value)] {s₀ : PropStore} {s : Threads SharedCells RowThread}

theorem RowsOwned.of_run (hahead : s₀.NoneAhead) {n : Nat} {moves : List (Nat × RowMove)}
    (hg : Guarded SharedCells.rowStep RowMove.Allowed (rowThreads s₀ n) moves)
    (hrun : run SharedCells.rowStep (rowThreads s₀ n) moves = some s) : RowsOwned s₀ s :=
  guarded_invariant (fun _ _ _ h ha hs => h.step ha hs) (RowsOwned.start hahead n) hg hrun

theorem RowsKept.of_run {file : Bytes} {log : List LogRecord} (hfile : LogHolds file log)
    (hopen : PropStore.open file = .ok s₀) (hahead : s₀.NoneAhead) {n : Nat}
    {moves : List (Nat × RowMove)}
    (hg : Guarded SharedCells.rowStep RowMove.Allowed (rowThreads s₀ n) moves)
    (hshort : ∀ a ∈ moves, a.2.ShortName)
    (hrun : run SharedCells.rowStep (rowThreads s₀ n) moves = some s) : RowsKept s₀ log s := by
  obtain ⟨t, ht, hlog, hmir, -⟩ := PropStore.open_eq hfile
  obtain rfl : t = s₀ := Except.ok.inj (ht.symm.trans hopen)
  have hnew : ∀ th ∈ (rowThreads t n).threads, th = .new := fun th => List.eq_of_mem_replicate
  have hlogged : RowsLogged (rowThreads t n) := by
    refine ⟨fun th hth w hw => ?_, fun c _ => rfl, fun th hth l hl => ?_⟩
    · rw [hnew th hth] at hw
      cases hw
    · rw [hnew th hth] at hl
      cases hl
  have hsettled : Settled log t.getCell (cellsOf (rowThreads t n)) := by
    have hcells : cellsOf (rowThreads t n) = cellThreads t n := by
      rw [cellsOf, rowThreads, cellThreads, List.map_replicate]
      rfl
    rw [hcells]
    exact Settled.start hlog hmir n
  exact guarded_invariant (fun _ _ _ h ha hs => RowsKept.step h ha.1 ha.2 hs)
    ⟨RowsOwned.start hahead n, hlogged, hsettled⟩ (hg.and hshort) hrun

/-- **A row belongs to the thread it was given to.** However the calls of any number of threads
are interleaved, a label's rows are given out one by one, each of them once; a thread that reads a
row it was given finds in every cell what it has written there last, and nothing in the others; and
the rows from before are as they were. -/
theorem rows_private (hahead : s₀.NoneAhead) (n : Nat) {moves : List (Nat × RowMove)}
    (hg : Guarded SharedCells.rowStep RowMove.Allowed (rowThreads s₀ n) moves)
    (hrun : run SharedCells.rowStep (rowThreads s₀ n) moves = some s) :
    (∀ label, rowsGiven s label ~ List.range' (s₀.rowCount label).toNat
      ((s.shared.store.rowCount label).toNat - (s₀.rowCount label).toNat)) ∧
    (∀ th ∈ s.threads, ∀ c, rowOf c ∈ th.given →
      s.shared.store.getCell c = (th.lastWritten c).getD none) ∧
    (∀ c, c.2.2.toNat < (s₀.rowCount c.1).toNat →
      s.shared.store.getCell c = s₀.getCell c) := by
  have h := RowsOwned.of_run hahead hg hrun
  exact ⟨h.rows, h.cells, h.old⟩

omit [Bincode (Option Value)] in
/-- Behind the loop of `insert_row` the last property of a name stays. -/
theorem lastWritten_inserted {written : List (PropCell × Option Value)} {label : LabelId}
    {row : UInt32} {prop : String}
    (hnone : (FiniteMap.ofList Prod.fst Prod.snd written).get (label, prop, row) = none)
    (props : List (String × Value)) :
    ((FiniteMap.ofList Prod.fst Prod.snd
        (written ++ props.map fun p => (((label, p.1, row) : PropCell), some p.2))).get
      (label, prop, row)).getD none = (FiniteMap.ofList Prod.fst Prod.snd props).get prop := by
  induction props using List.reverseRecOn with
  | nil =>
    rw [List.map_nil, List.append_nil, hnone]
    rfl
  | append_singleton props p ih =>
    rw [List.map_append, ← List.append_assoc, List.map_cons, List.map_nil, FiniteMap.ofList_append,
      FiniteMap.ofList_append, FiniteMap.get_put, FiniteMap.get_put]
    by_cases hprop : prop = p.1
    · rw [if_pos hprop, if_pos (by rw [hprop]), Option.getD_some]
    · rw [if_neg hprop, if_neg (by simpa using hprop), ih]

/-- **`insert_row` is whole.** A thread that calls it is given one row more, and when it is back the
row holds the properties it gave, of a name the last one, and no others, whatever calls other
threads made between its own steps, as long as nobody writes a row it was not given. -/
theorem inserted_row_whole (hahead : s₀.NoneAhead) (n : Nat) (before moves : List (Nat × RowMove))
    {t : Threads SharedCells RowThread}
    (hg : Guarded SharedCells.rowStep RowMove.Allowed (rowThreads s₀ n) (before ++ moves))
    (hs : run SharedCells.rowStep (rowThreads s₀ n) before = some s)
    (ht : run SharedCells.rowStep s moves = some t) {i : Nat} {th₀ : RowThread}
    (hi : s.threads[i]? = some th₀) {label : LabelId} {props : List (String × Value)}
    {rest : List RowMove} (hcall : Threads.ofThread i moves = .insertRow label props :: rest)
    (hrest : ∀ m ∈ rest, m = .next ∨ m = .send) :
    ∃ th, t.threads[i]? = some th ∧ (th.AtRest → ∃ row, th.given = th₀.given ++ [(label, row)] ∧
      ∀ prop, t.shared.store.getProp label prop row
        = (FiniteMap.ofList Prod.fst Prod.snd props).get prop) := by
  obtain ⟨th, hth, row, done, rest', hprops, hgiven, hwritten, hloop⟩ :=
    inserting_of_run ht hi hcall hrest
  refine ⟨th, hth, fun hatRest => ⟨row, hgiven, fun prop => ?_⟩⟩
  have hall : done = props := by
    rcases hloop with hloop | ⟨-, hnil⟩
    · cases hloop.symm.trans hatRest.2
    · rw [hprops, hnil, List.append_nil]
  subst hall
  have hbefore := RowsOwned.of_run hahead hg.of_append hs
  have hafter := RowsOwned.of_run hahead hg ((run_append hs moves).trans ht)
  have hmem := List.mem_of_getElem? hth
  have hown : rowOf (label, prop, row) ∈ th.given := by
    rw [hgiven]
    exact List.mem_append_right _ (List.mem_singleton_self _)
  -- the row was not the thread's before
  have hfresh : (FiniteMap.ofList Prod.fst Prod.snd th₀.written).get (label, prop, row) = none := by
    have hnodup : th.given.Nodup := List.nodup_flatMap.mp hafter.nodup |>.1 th hmem
    rw [hgiven] at hnodup
    cases hget : (FiniteMap.ofList Prod.fst Prod.snd th₀.written).get (label, prop, row) with
    | none => rfl
    | some v =>
      obtain ⟨w, hw, hcell, -⟩ := FiniteMap.get_ofList_eq_some hget
      have hold := hbefore.wrote th₀ (List.mem_of_getElem? hi) w hw
      rw [hcell] at hold
      exact absurd rfl ((List.nodup_append.mp hnodup).2.2 _ hold _ (List.mem_singleton_self _))
  have hread := hafter.cells th hmem (label, prop, row) hown
  rw [RowThread.lastWritten, hwritten, lastWritten_inserted hfresh] at hread
  exact hread

/-- **Threads that keep to their rows need no order in the log**: while none of them is between an
update and its record, the flushed file reopens to every cell as it is. A name's length is one byte
of its record, so the names have to be shorter than 256 bytes. -/
theorem rows_logged {file : Bytes} {log : List LogRecord} (hfile : LogHolds file log)
    (hopen : PropStore.open file = .ok s₀) (hahead : s₀.NoneAhead) (n : Nat)
    {moves : List (Nat × RowMove)}
    (hg : Guarded SharedCells.rowStep RowMove.Allowed (rowThreads s₀ n) moves)
    (hshort : ∀ a ∈ moves, a.2.ShortName)
    (hrun : run SharedCells.rowStep (rowThreads s₀ n) moves = some s)
    (hidle : ∀ th ∈ s.threads, th.cell = .idle)
    (hfit : ∀ r ∈ log ++ s.shared.store.history, r.Fits) :
    ∃ t, PropStore.open s.shared.store.file = .ok t ∧
      ∀ c, t.getCell c = s.shared.store.getCell c := by
  have hkept := RowsKept.of_run hfile hopen hahead hg hshort hrun
  obtain ⟨t, ht, hcol⟩ := PropStore.reopen_columns hkept.settled.logged hfit
  refine ⟨t, ht, fun c => ?_⟩
  have hnobody : s.shared.recorded c = s.shared.lastUpdate c := by
    refine hkept.logged.logged c fun th hth w hw => ?_
    rw [RowsLogged.unlogged_of_idle (hidle th hth)] at hw
    cases hw
  calc t.getCell c = s.shared.store.replayedCell log c := by
        rw [PropStore.getCell_eq, hcol]
        rfl
    _ = (s.shared.recorded c).getD (s₀.getCell c) := hkept.settled.disk c
    _ = (s.shared.lastUpdate c).getD (s₀.getCell c) := by rw [hnobody]
    _ = s.shared.store.getCell c := (hkept.settled.memory c).symm

end Runs

/-! ## Two threads -/

theorem PropStore.noneAhead_fresh : PropStore.fresh.NoneAhead := by
  intro label prop row _
  rw [getProp, show PropStore.fresh.columns = ∅ from rfl, FiniteMap.get_empty]

/-- Each inserts a row of one label, and each runs between the steps of the other. -/
def rowsSideBySide : List (Nat × RowMove) :=
  [(0, .insertRow 0 [("a", .int 1), ("b", .int 2)]), (1, .insertRow 0 [("a", .int 3)]), (0, .next),
    (1, .next), (1, .send), (0, .send), (1, .next), (0, .next), (0, .send), (0, .next)]

theorem rowsSideBySide_allowed :
    Guarded SharedCells.rowStep RowMove.Allowed (rowThreads PropStore.fresh 2) rowsSideBySide := by
  have hfirst : (0 : UInt32).toNat + 1 < 2 ^ 32 := by decide
  have hsecond : (1 : UInt32).toNat + 1 < 2 ^ 32 := by decide
  refine Guarded.cons rfl (fun _ _ => hfirst) (Guarded.cons rfl (fun _ _ => hsecond) ?_)
  exact Guarded.cons rfl (fun _ _ => trivial) <| Guarded.cons rfl (fun _ _ => trivial) <|
    Guarded.cons rfl (fun _ _ => trivial) <| Guarded.cons rfl (fun _ _ => trivial) <|
    Guarded.cons rfl (fun _ _ => trivial) <| Guarded.cons rfl (fun _ _ => trivial) <|
    Guarded.cons rfl (fun _ _ => trivial) <| Guarded.cons rfl (fun _ _ => trivial) trivial

theorem rows_private_two :
    ∃ s, run SharedCells.rowStep (rowThreads PropStore.fresh 2) rowsSideBySide = some s ∧
      (∀ label, rowsGiven s label ~ List.range' (PropStore.fresh.rowCount label).toNat
        ((s.shared.store.rowCount label).toNat - (PropStore.fresh.rowCount label).toNat)) ∧
      (∀ th ∈ s.threads, ∀ c, rowOf c ∈ th.given →
        s.shared.store.getCell c = (th.lastWritten c).getD none) ∧
      (∀ c, c.2.2.toNat < (PropStore.fresh.rowCount c.1).toNat →
        s.shared.store.getCell c = PropStore.fresh.getCell c) :=
  ⟨_, rfl, rows_private PropStore.noneAhead_fresh 2 rowsSideBySide_allowed rfl⟩

theorem inserted_row_whole_two :
    ∃ t th row, run SharedCells.rowStep (rowThreads PropStore.fresh 2) rowsSideBySide = some t ∧
      t.threads[0]? = some th ∧ (0, row) ∈ th.given ∧
      ∀ prop, t.shared.store.getProp 0 prop row
        = (FiniteMap.ofList Prod.fst Prod.snd [("a", .int 1), ("b", .int 2)]).get prop := by
  have hrest : ∀ m ∈ [RowMove.next, .send, .next, .send, .next], m = .next ∨ m = .send := by simp
  have hcall : Threads.ofThread 0 rowsSideBySide
      = .insertRow 0 [("a", .int 1), ("b", .int 2)] :: [.next, .send, .next, .send, .next] := rfl
  obtain ⟨th, hth, hwhole⟩ := inserted_row_whole PropStore.noneAhead_fresh 2 [] rowsSideBySide
    rowsSideBySide_allowed rfl rfl (show _ = some RowThread.new from rfl) hcall hrest
  cases hth
  obtain ⟨row, hgiven, hread⟩ := hwhole ⟨rfl, rfl⟩
  refine ⟨_, _, row, rfl, rfl, ?_, hread⟩
  rw [hgiven]
  exact List.mem_append_right _ (List.mem_singleton_self _)

theorem rows_logged_two :
    ∃ s, run SharedCells.rowStep (rowThreads PropStore.fresh 2) rowsSideBySide = some s ∧
      ∃ t, PropStore.open s.shared.store.file = .ok t ∧
        ∀ c, t.getCell c = s.shared.store.getCell c := by
  have hname : (utf8Bytes "a").length < 256 ∧ (utf8Bytes "b").length < 256 := by decide
  have hshort : ∀ a ∈ rowsSideBySide, a.2.ShortName := by
    intro a ha
    simp only [rowsSideBySide, List.mem_cons, List.not_mem_nil, or_false] at ha
    rcases ha with rfl | rfl | rfl | rfl | rfl | rfl | rfl | rfl | rfl | rfl
    · intro p hp
      simp only [List.mem_cons, List.not_mem_nil, or_false] at hp
      rcases hp with rfl | rfl
      · exact hname.1
      · exact hname.2
    · intro p hp
      rw [List.mem_singleton.mp hp]
      exact hname.1
    all_goals trivial
  obtain ⟨s, hrun, hcells, hfit⟩ :
      ∃ s, run SharedCells.rowStep (rowThreads PropStore.fresh 2) rowsSideBySide = some s ∧
        s.threads.map RowThread.cell = [.idle, .idle] ∧
        ∀ r ∈ [] ++ s.shared.store.history, r.Fits := ⟨_, rfl, rfl, by decide +kernel⟩
  have hidle : ∀ th ∈ s.threads, th.cell = .idle := by
    intro th hth
    have hmem := List.mem_map_of_mem (f := RowThread.cell) hth
    rw [hcells] at hmem
    simpa using hmem
  exact ⟨s, hrun, rows_logged .empty PropStore.open_nil PropStore.noneAhead_fresh 2
    rowsSideBySide_allowed hshort hrun hidle hfit⟩

end LightGraph
