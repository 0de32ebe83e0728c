import LightGraph.Proof.PropCells
import LightGraph.Storage.PropThreads

/-!
# The log of the properties under concurrency

The records of a cell are sent behind its updates and in any order, and the one sent last is what
a restart brings back. So log and memory agree on a cell exactly when that record is of the last
update (`InOrder`), or of one that wrote the same value. Both sides are what the threads have
written over what the store was opened with (`Settled`): the memory in the order of the updates,
the log in the order of the sends.
-/

set_option autoImplicit false

namespace LightGraph

open Lib

/-! ## Cells -/

/-- A cell as the columns have it. -/
def Columns.cell (columns : Columns) (c : PropCell) : Option Value :=
  match columns.get (c.1, c.2.1) with
  | some col => (col.get c.2.2).getD none
  | none => none

theorem PropertyColumn.get_put (col : PropertyColumn) (row row' : UInt32) (val : Option Value) :
    ((col.put row val).get row').getD none
      = if row' = row then val else (col.get row').getD none := by
  rw [get, get, getElem?_put]
  by_cases hrow : row' = row
  · rw [if_pos hrow, if_pos (congrArg UInt32.toNat hrow), Option.getD_some]
  · rw [if_neg hrow, if_neg fun h => hrow (UInt32.toNat_inj.mp h)]
    by_cases hlt : row'.toNat < row.toNat
    · rw [if_pos hlt, Option.getD_some]
    · rw [if_neg hlt]

/-- A write changes its cell and no other. -/
theorem Columns.cell_putCell (columns : Columns) (label : LabelId) (prop : String) (row : UInt32)
    (val : Option Value) (c : PropCell) :
    (columns.putCell label prop row val).cell c
      = if c = (label, prop, row) then val else columns.cell c := by
  obtain ⟨label', prop', row'⟩ := c
  unfold cell putCell
  rw [FiniteMap.get_put]
  by_cases hcol : (label', prop') = (label, prop)
  · obtain ⟨rfl, rfl⟩ := Prod.mk.inj hcol
    rw [if_pos rfl]
    dsimp only
    rw [PropertyColumn.get_put]
    by_cases hrow : row' = row
    · rw [if_pos hrow, if_pos (by rw [hrow])]
    · rw [if_neg hrow, if_neg (by simpa using hrow)]
      cases columns.get (label', prop') with
      | none => rfl
      | some col => rfl
  · have hcell : ¬ (label', prop', row') = (label, prop, row) := by
      intro h
      obtain ⟨rfl, hrest⟩ := Prod.mk.inj h
      exact hcol (congrArg (label', ·) (Prod.mk.inj hrest).1)
    rw [if_neg hcol, if_neg hcell]

theorem PropStore.getCell_eq (s : PropStore) (c : PropCell) : s.getCell c = s.columns.cell c := rfl

/-! ## One step -/

namespace SharedCells
variable [Bincode (Option Value)] {sh sh' : SharedCells} {p p' : CellPc} {m : CellMove}

theorem exec_setProp_of_hasRow {label : LabelId} {prop : String} {row : UInt32}
    (h : sh.store.HasRow label prop row) (value : Option Value) :
    sh.exec .idle (.setProp label prop row value)
      = sh.exec .idle (.insertProp label prop row value) := by
  obtain ⟨col, hcol, hrow⟩ := h
  have hput : sh.store.columns.put (label, prop) (col.set row value).1
      = sh.store.columns.putCell label prop row value := by
    rw [Columns.putCell, hcol, Option.getD_some, PropertyColumn.put_of_lt hrow]
  have hok : (col.set row value).2 = true := by
    rw [PropertyColumn.set, if_pos hrow]
  simp only [exec, hcol, hok, if_true, hput]

theorem exec_setProp_of_not_hasRow {label : LabelId} {prop : String} {row : UInt32}
    (h : ¬ sh.store.HasRow label prop row) (value : Option Value) :
    sh.exec .idle (.setProp label prop row value) = some (sh, .idle) := by
  unfold exec
  cases hcol : sh.store.columns.get (label, prop) with
  | none => simp only [hcol]
  | some col =>
    have hset : col.set row value = (col, false) := by
      rw [PropertyColumn.set, if_neg fun hlt => h ⟨col, hcol, hlt⟩]
    have hput : sh.store.columns.put (label, prop) col = sh.store.columns := by
      refine FiniteMap.ext fun k => ?_
      rw [FiniteMap.get_put]
      split
      · rename_i hk
        rw [hk, hcol]
      · rfl
    simp only [hcol, hset, hput, Bool.false_eq_true, if_false]

/-- What a step can do: a call writes its cell or finds no row, and a writer sends. -/
theorem exec_cases (h : sh.exec p m = some (sh', p')) :
    (∃ label prop row value, p = .idle ∧ (m = .insertProp label prop row value ∨
        m = .setProp label prop row value) ∧
      (sh', p') = sh.update (sh.store.columns.putCell label prop row value) label prop row value) ∨
    (sh' = sh ∧ p = .idle ∧ p' = .idle) ∨
    ∃ n label prop row value, p = .send n label prop row value ∧ p' = .idle ∧
      sh' = { sh with
        store := sh.store.walSendCell label prop row value
        sent := sh.sent ++ [((label, prop, row), n)] } := by
  cases p with
  | idle =>
    cases m with
    | insertProp label prop row value =>
      exact Or.inl ⟨label, prop, row, value, rfl, Or.inl rfl, (Option.some.inj h).symm⟩
    | setProp label prop row value =>
      by_cases hrow : sh.store.HasRow label prop row
      · rw [exec_setProp_of_hasRow hrow] at h
        exact Or.inl ⟨label, prop, row, value, rfl, Or.inr rfl, (Option.some.inj h).symm⟩
      · rw [exec_setProp_of_not_hasRow hrow, Option.some.injEq] at h
        obtain ⟨rfl, rfl⟩ := Prod.mk.inj h
        exact Or.inr (Or.inl ⟨rfl, rfl, rfl⟩)
    | send => exact absurd h (by simp [exec])
  | send n label prop row value =>
    cases m with
    | insertProp label' prop' row' value' => exact absurd h (by simp [exec])
    | setProp label' prop' row' value' => exact absurd h (by simp [exec])
    | send =>
      obtain ⟨rfl, rfl⟩ := Prod.mk.inj (Option.some.inj h)
      exact Or.inr (Or.inr ⟨n, label, prop, row, value, rfl, rfl, rfl⟩)

/-- With nobody in between, the steps of a call are the call of the store. -/
theorem alone_insertProp (sh : SharedCells) (label : LabelId) (prop : String) (row : UInt32)
    (value : Option Value) :
    ∃ sh', Threads.alone exec (sh, .idle) [.insertProp label prop row value, .send]
        = some (sh', .idle) ∧ sh'.store = sh.store.insertProp label prop row value :=
  ⟨_, rfl, rfl⟩

theorem alone_setProp (sh : SharedCells) (label : LabelId) (prop : String) (row : UInt32)
    (value : Option Value) :
    ∃ sh' moves, (moves = [] ∨ moves = [.send]) ∧
      Threads.alone exec (sh, .idle) (.setProp label prop row value :: moves)
        = some (sh', .idle) ∧
      sh'.store.columns = (sh.store.setProp label prop row value).1.columns ∧
      sh'.store.wal = (sh.store.setProp label prop row value).1.wal := by
  by_cases hrow : sh.store.HasRow label prop row
  · obtain ⟨sh', halone, hstore⟩ := alone_insertProp sh label prop row value
    refine ⟨sh', [.send], Or.inr rfl, ?_, ?_⟩
    · rw [Threads.alone, run, exec_setProp_of_hasRow hrow]
      exact halone
    · rw [PropStore.setProp_of_hasRow hrow, hstore]
      exact ⟨rfl, rfl⟩
  · obtain ⟨hcol, hwal⟩ := PropStore.setProp_of_not_hasRow hrow value
    refine ⟨sh, [], Or.inl rfl, ?_, hcol.symm, hwal.symm⟩
    rw [Threads.alone, run, exec_setProp_of_not_hasRow hrow]
    rfl

end SharedCells

/-! ## Memory and log -/

/-- The value written last to a cell, and the number of the update whose record was sent last. -/
def SharedCells.lastUpdate (sh : SharedCells) (c : PropCell) : Option (Option Value) :=
  (FiniteMap.ofList Prod.fst Prod.snd sh.updated).get c

def SharedCells.lastSent (sh : SharedCells) (c : PropCell) : Option Nat :=
  (FiniteMap.ofList Prod.fst Prod.snd sh.sent).get c

/-- The value in the record sent last for a cell. -/
def SharedCells.recorded (sh : SharedCells) (c : PropCell) : Option (Option Value) :=
  (sh.lastSent c).bind fun n => (sh.updated[n]?).map Prod.snd

/-- Of every cell the record sent last is of the last update, or of one that wrote the same. -/
def SharedCells.InOrder (sh : SharedCells) : Prop :=
  ∀ c n, sh.lastSent c = some n → (sh.updated[n]?).map Prod.snd = sh.lastUpdate c

/-- Reopening the flushed file gives every cell that was written the value it has in memory. -/
def SharedCells.LogAgrees [Bincode (Option Value)] (sh : SharedCells) : Prop :=
  ∃ t, PropStore.open sh.store.file = .ok t ∧ ∀ u ∈ sh.updated, t.getCell u.1 = sh.store.getCell u.1

/-- The updates that have yet to be logged. -/
def CellPc.pending : CellPc → List Nat
  | .idle => []
  | .send n _ _ _ _ => [n]

/-- A call that writes under a name whose length fits its byte. -/
def CellMove.ShortName : CellMove → Prop
  | .insertProp _ prop _ _ => (utf8Bytes prop).length < 256
  | .setProp _ prop _ _ => (utf8Bytes prop).length < 256
  | .send => True

/-- The thread has its update's number, and can log it. -/
def CellPc.Knows (updated : List (PropCell × Option Value)) : CellPc → Prop
  | .idle => True
  | .send n label prop row value =>
    updated[n]? = some ((label, prop, row), value) ∧ (utf8Bytes prop).length < 256

section Runs
variable [Bincode (Option Value)] {log : List LogRecord} {base : PropCell → Option Value}
  {s t : Threads SharedCells CellPc}

/-- What the log replays a cell to. -/
def PropStore.replayedCell (log : List LogRecord) (s : PropStore) (c : PropCell) : Option Value :=
  ((log ++ s.history).foldl PropReplay.onRecord PropReplay.empty).columns.cell c

/-- Memory and log are what was written over the cells the store was opened with, each in its own
order, and every update has been logged or has yet to be. -/
structure Settled (log : List LogRecord) (base : PropCell → Option Value)
    (s : Threads SharedCells CellPc) : Prop where
  logged : s.shared.store.Logged log
  memory : ∀ c, s.shared.store.getCell c = (s.shared.lastUpdate c).getD (base c)
  disk : ∀ c, s.shared.store.replayedCell log c = (s.shared.recorded c).getD (base c)
  sent : ∀ r ∈ s.shared.sent, ∃ value, s.shared.updated[r.2]? = some (r.1, value)
  threads : ∀ p ∈ s.threads, p.Knows s.shared.updated
  all : ∀ n < s.shared.updated.length,
    (∃ c, (c, n) ∈ s.shared.sent) ∨ n ∈ s.threads.flatMap CellPc.pending

theorem PropStore.replayedCell_walSendCell {s : PropStore} (hlog : s.Logged log) {label : LabelId}
    {prop : String} {row : UInt32} (value : Option Value)
    (hname : (utf8Bytes prop).length < 256) (c : PropCell) :
    (s.walSendCell label prop row value).replayedCell log c
      = if c = (label, prop, row) then value else s.replayedCell log c := by
  obtain ⟨w, hw⟩ := hlog.wal
  rw [replayedCell, walSendCell_history hw, ← List.append_assoc, List.foldl_append,
    List.foldl_cons, List.foldl_nil, onRecord_cellRecord _ value hname, Columns.cell_putCell,
    replayedCell]

namespace Settled

omit [Bincode (Option Value)] in
/-- Nothing known of an update is changed by a later one. -/
theorem getElem?_of_some {updated : List (PropCell × Option Value)} {n : Nat}
    {u : PropCell × Option Value} (h : updated[n]? = some u) (v : PropCell × Option Value) :
    (updated ++ [v])[n]? = some u := by
  obtain ⟨hlt, -⟩ := List.getElem?_eq_some_iff.mp h
  rw [List.getElem?_append_left hlt, h]

theorem lastSent_known (h : Settled log base s) {c : PropCell} {n : Nat}
    (hn : s.shared.lastSent c = some n) : ∃ value, s.shared.updated[n]? = some (c, value) := by
  obtain ⟨r, hr, rfl, rfl⟩ := FiniteMap.get_ofList_eq_some hn
  exact h.sent r hr

/-- A step that writes a cell. -/
theorem update (h : Settled log base s) {i : Nat} (hp : s.threads[i]? = some .idle)
    (label : LabelId) {prop : String} (row : UInt32) (value : Option Value)
    (hname : (utf8Bytes prop).length < 256) {sh : SharedCells} {p' : CellPc}
    (hsh : (sh, p') = s.shared.update (s.shared.store.columns.putCell label prop row value)
      label prop row value) :
    Settled log base { shared := sh, threads := s.threads.set i p' } := by
  obtain ⟨rfl, rfl⟩ := Prod.mk.inj hsh
  refine ⟨h.logged.of_wal rfl, fun c => ?_, fun c => ?_, fun r hr => ?_, fun p hp' => ?_,
    fun n hn => ?_⟩
  · show (s.shared.store.columns.putCell label prop row value).cell c
      = ((FiniteMap.ofList Prod.fst Prod.snd (s.shared.updated ++ [_])).get c).getD (base c)
    rw [Columns.cell_putCell, FiniteMap.ofList_append, FiniteMap.get_put]
    by_cases hc : c = (label, prop, row)
    · rw [if_pos hc, if_pos hc, Option.getD_some]
    · rw [if_neg hc, if_neg hc]
      exact h.memory c
  · refine (h.disk c).trans (congrArg (fun o => Option.getD o (base c)) ?_)
    show (s.shared.lastSent c).bind _ = (s.shared.lastSent c).bind _
    cases hlast : s.shared.lastSent c with
    | none => rfl
    | some n =>
      obtain ⟨v, hv⟩ := h.lastSent_known hlast
      show (s.shared.updated[n]?).map Prod.snd = ((s.shared.updated ++ [_])[n]?).map Prod.snd
      rw [getElem?_of_some hv, hv]
  · obtain ⟨v, hv⟩ := h.sent r hr
    exact ⟨v, getElem?_of_some hv _⟩
  · rcases List.mem_or_eq_of_mem_set hp' with hold | rfl
    · have hknows := h.threads p hold
      cases p with
      | idle => trivial
      | send n label' prop' row' value' => exact ⟨getElem?_of_some hknows.1 _, hknows.2⟩
    · exact ⟨List.getElem?_concat_length, hname⟩
  · rw [List.length_append, List.length_singleton, Nat.lt_succ_iff] at hn
    rcases Nat.lt_or_eq_of_le hn with hlt | rfl
    · rcases h.all n hlt with hsent | hheld
      · exact Or.inl hsent
      · rcases Threads.held_step CellPc.pending hp (.send _ label prop row value) hheld with
          hheld | ⟨hidle, -⟩
        · exact Or.inr hheld
        · exact absurd hidle List.not_mem_nil
    · exact Or.inr (Threads.held_of_mover CellPc.pending hp (List.mem_singleton_self _))

/-- A step that sends a record. -/
theorem send (h : Settled log base s) {i n : Nat} {label : LabelId} {prop : String} {row : UInt32}
    {value : Option Value} (hp : s.threads[i]? = some (.send n label prop row value)) :
    Settled log base
      { shared := { s.shared with
          store := s.shared.store.walSendCell label prop row value
          sent := s.shared.sent ++ [((label, prop, row), n)] }
        threads := s.threads.set i .idle } := by
  obtain ⟨hn, hname⟩ := h.threads _ (List.mem_of_getElem? hp)
  refine ⟨h.logged.walSendCell label prop row value, fun c => ?_, fun c => ?_, fun r hr => ?_,
    fun p hp' => ?_, fun k hk => ?_⟩
  · rw [PropStore.getCell_eq, PropStore.walSendCell_columns]
    exact h.memory c
  · rw [PropStore.replayedCell_walSendCell h.logged value hname]
    have hrec : ({ s.shared with
          store := s.shared.store.walSendCell label prop row value
          sent := s.shared.sent ++ [((label, prop, row), n)] } : SharedCells).recorded c
        = if c = (label, prop, row) then some value else s.shared.recorded c := by
      rw [SharedCells.recorded, SharedCells.lastSent, FiniteMap.ofList_append, FiniteMap.get_put]
      by_cases hc : c = (label, prop, row)
      · rw [if_pos hc, if_pos hc, Option.bind_some, hn, Option.map_some]
      · rw [if_neg hc, if_neg hc]
        rfl
    rw [hrec]
    by_cases hc : c = (label, prop, row)
    · rw [if_pos hc, if_pos hc, Option.getD_some]
    · rw [if_neg hc, if_neg hc]
      exact h.disk c
  · rcases List.mem_append.mp hr with hold | hnew
    · exact h.sent r hold
    · obtain rfl := List.mem_singleton.mp hnew
      exact ⟨value, hn⟩
  · rcases List.mem_or_eq_of_mem_set hp' with hold | rfl
    · exact h.threads p hold
    · trivial
  · rcases h.all k hk with ⟨c, hsent⟩ | hheld
    · exact Or.inl ⟨c, List.mem_append_left _ hsent⟩
    · rcases Threads.held_step CellPc.pending hp .idle hheld with hheld | ⟨hown, -⟩
      · exact Or.inr hheld
      · obtain rfl := List.mem_singleton.mp hown
        exact Or.inl ⟨_, List.mem_append_right _ (List.mem_singleton_self _)⟩

/-- **A step** of any thread. -/
theorem step (h : Settled log base s) {a : Nat × CellMove} (ha : a.2.ShortName)
    (hs : SharedCells.step s a = some t) : Settled log base t := by
  obtain ⟨i, m⟩ := a
  obtain ⟨p, sh, p', hp, hexec, rfl⟩ := Threads.step_inv hs
  rcases SharedCells.exec_cases hexec with ⟨label, prop, row, value, rfl, hm, hsh⟩ |
    ⟨rfl, rfl, rfl⟩ | ⟨n, label, prop, row, value, rfl, rfl, rfl⟩
  · refine h.update hp label row value ?_ hsh
    rcases hm with rfl | rfl
    · exact ha
    · exact ha
  · have hsame : s.threads.set i .idle = s.threads := by
      obtain ⟨hlt, hget⟩ := List.getElem?_eq_some_iff.mp hp
      rw [← hget, List.set_getElem_self hlt]
    rw [hsame]
    exact h
  · exact h.send hp

theorem start {store : PropStore} (hlog : store.Logged log) (hmir : store.Mirrored log) (n : Nat) :
    Settled log store.getCell (cellThreads store n) := by
  refine ⟨hlog, fun c => rfl, fun c => ?_, fun r hr => absurd hr List.not_mem_nil, fun p hp => ?_,
    fun n hn => absurd hn (Nat.not_lt_zero n)⟩
  · show PropStore.replayedCell log store c = store.getCell c
    rw [PropStore.getCell_eq, show store.columns = _ from hmir, PropStore.replayedCell]
  · rw [List.eq_of_mem_replicate hp]
    trivial

/-- When all calls have returned, a cell was logged if it was written. -/
theorem lastSent_of_idle (h : Settled log base s) (hidle : ∀ p ∈ s.threads, p = .idle)
    {u : PropCell × Option Value} (hu : u ∈ s.shared.updated) :
    ∃ n, s.shared.lastSent u.1 = some n := by
  obtain ⟨n, hn⟩ := List.mem_iff_getElem?.mp hu
  rcases h.all n (List.getElem?_eq_some_iff.mp hn).1 with ⟨c, hsent⟩ | hheld
  · obtain ⟨v, hv⟩ := h.sent _ hsent
    obtain rfl : u = (c, v) := Option.some.inj (hn.symm.trans hv)
    exact FiniteMap.exists_get_ofList Prod.snd hsent
  · obtain ⟨p, hp, hmem⟩ := List.mem_flatMap.mp hheld
    rw [hidle p hp] at hmem
    exact absurd hmem List.not_mem_nil

/-- **Log and memory agree** on the cells that were written exactly when their records are in
order. -/
theorem agree_iff (h : Settled log base s) (hidle : ∀ p ∈ s.threads, p = .idle) :
    (∀ u ∈ s.shared.updated, s.shared.store.replayedCell log u.1 = s.shared.store.getCell u.1) ↔
      s.shared.InOrder := by
  -- at a cell whose record sent last is of update `n`
  have hat : ∀ c n, s.shared.lastSent c = some n →
      (s.shared.store.replayedCell log c = s.shared.store.getCell c ↔
        (s.shared.updated[n]?).map Prod.snd = s.shared.lastUpdate c) := by
    intro c n hn
    obtain ⟨v, hv⟩ := h.lastSent_known hn
    obtain ⟨v', hv'⟩ : ∃ v', s.shared.lastUpdate c = some v' :=
      FiniteMap.exists_get_ofList Prod.snd (List.mem_of_getElem? hv)
    rw [h.disk, h.memory, SharedCells.recorded, hn, Option.bind_some, hv, hv', Option.map_some,
      Option.getD_some, Option.getD_some, Option.some.injEq]
  constructor
  · intro hagree c n hn
    obtain ⟨v, hv⟩ := h.lastSent_known hn
    exact (hat c n hn).mp (hagree (c, v) (List.mem_of_getElem? hv))
  · intro horder u hu
    obtain ⟨n, hn⟩ := h.lastSent_of_idle hidle hu
    exact (hat u.1 n hn).mpr (horder u.1 n hn)

end Settled

theorem SharedCells.logAgrees_iff {sh : SharedCells} (hlog : sh.store.Logged log)
    (hfit : ∀ r ∈ log ++ sh.store.history, r.Fits) :
    sh.LogAgrees ↔
      ∀ u ∈ sh.updated, sh.store.replayedCell log u.1 = sh.store.getCell u.1 := by
  obtain ⟨t, ht, hcol⟩ := PropStore.reopen_columns hlog hfit
  have hcell : ∀ c, t.getCell c = sh.store.replayedCell log c := by
    intro c
    rw [PropStore.getCell_eq, hcol, PropStore.replayedCell]
  rw [SharedCells.LogAgrees, ht]
  constructor
  · intro ⟨t', ht', hsame⟩ u hu
    obtain rfl := Except.ok.inj ht'
    exact (hcell u.1).symm.trans (hsame u hu)
  · exact fun hsame => ⟨t, rfl, fun u hu => (hcell u.1).trans (hsame u hu)⟩

theorem Settled.of_run {file : Bytes} (hfile : LogHolds file log) {s₀ : PropStore}
    (hopen : PropStore.open file = .ok s₀) (n : Nat) {moves : List (Nat × CellMove)}
    (hrun : run SharedCells.step (cellThreads s₀ n) moves = some s)
    (hmoves : ∀ a ∈ moves, a.2.ShortName) : Settled log s₀.getCell s := by
  obtain ⟨t, ht, hlog, hmir, -⟩ := PropStore.open_eq hfile
  obtain rfl : t = s₀ := Except.ok.inj (ht.symm.trans hopen)
  have hg : Guarded SharedCells.step (fun _ a => a.2.ShortName) (cellThreads t n) moves :=
    Guarded.of_forall hmoves _
  exact guarded_invariant (fun _ _ _ h ha hs => Settled.step h ha hs)
    (Settled.start hlog hmir n) hg hrun

/-- **The property log agrees with memory** when all calls have returned, exactly if of every cell
the record sent last is of the last update, or of one that wrote the same. -/
theorem prop_log_agrees_iff {file : Bytes} (hfile : LogHolds file log) {s₀ : PropStore}
    (hopen : PropStore.open file = .ok s₀) (n : Nat) (moves : List (Nat × CellMove))
    (hrun : run SharedCells.step (cellThreads s₀ n) moves = some s)
    (hmoves : ∀ a ∈ moves, a.2.ShortName) (hidle : ∀ p ∈ s.threads, p = .idle)
    (hfit : ∀ r ∈ log ++ s.shared.store.history, r.Fits) :
    s.shared.LogAgrees ↔ s.shared.InOrder := by
  have h := Settled.of_run hfile hopen n hrun hmoves
  rw [SharedCells.logAgrees_iff h.logged hfit, h.agree_iff hidle]

end Runs

/-! ## Two threads -/

/-- Both write the cell, and the first to write is the last to send. -/
def overtakenCell : List (Nat × CellMove) :=
  [(0, .insertProp 0 "age" 0 (some (.int 1))), (1, .insertProp 0 "age" 0 (some (.int 2))),
    (1, .send), (0, .send)]

/-- Both write the cell, and send in the same order. -/
def orderedCell : List (Nat × CellMove) :=
  [(0, .insertProp 0 "age" 0 (some (.int 1))), (1, .setProp 0 "age" 0 (some (.int 2))),
    (0, .send), (1, .send)]

theorem overtakenCell_short : ∀ a ∈ overtakenCell ++ orderedCell, a.2.ShortName := by
  have hshort : (utf8Bytes "age").length < 256 := by decide
  simp [overtakenCell, orderedCell, CellMove.ShortName, hshort]

theorem overtaken_cell_differs :
    ¬ ∀ (n : Nat) (moves : List (Nat × CellMove)) (s : Threads SharedCells CellPc),
      run SharedCells.step (cellThreads PropStore.fresh n) moves = some s →
      (∀ a ∈ moves, a.2.ShortName) → (∀ p ∈ s.threads, p = .idle) →
      (∀ r ∈ s.shared.store.history, r.Fits) → s.shared.LogAgrees := by
  intro h
  have hmoves : ∀ a ∈ overtakenCell, a.2.ShortName :=
    fun a ha => overtakenCell_short a (List.mem_append_left _ ha)
  have hidle : ∀ p ∈ [CellPc.idle, .idle], p = .idle := by simp
  have hsettled := Settled.of_run .empty PropStore.open_nil 2
    (show run SharedCells.step _ overtakenCell = some _ from rfl) hmoves
  have hagrees := h 2 overtakenCell _ rfl hmoves hidle (by decide +kernel)
  have horder := (hsettled.agree_iff hidle).mp
    ((SharedCells.logAgrees_iff hsettled.logged (by decide +kernel)).mp hagrees)
  have hone : some (some (Value.int 1)) = some (some (Value.int 2)) := horder (0, "age", 0) 0 rfl
  exact absurd hone (by simp)

theorem prop_log_agrees_iff_two :
    ∃ s, run SharedCells.step (cellThreads PropStore.fresh 2) orderedCell = some s ∧
      s.shared.LogAgrees := by
  have hmoves : ∀ a ∈ orderedCell, a.2.ShortName :=
    fun a ha => overtakenCell_short a (List.mem_append_right _ ha)
  have hidle : ∀ p ∈ [CellPc.idle, .idle], p = .idle := by simp
  refine ⟨_, rfl, (prop_log_agrees_iff .empty PropStore.open_nil 2 orderedCell rfl hmoves hidle
    (by decide +kernel)).mpr fun c n hn => ?_⟩
  obtain ⟨r, hr, rfl, -⟩ := FiniteMap.get_ofList_eq_some hn
  have hcell : r.1 = (0, "age", 0) := by
    have hr' : r ∈ [(((0, "age", 0) : PropCell), 0), ((0, "age", 0), 1)] := hr
    simp only [List.mem_cons, List.not_mem_nil, or_false] at hr'
    rcases hr' with rfl | rfl <;> rfl
  rw [hcell] at hn ⊢
  obtain rfl : 1 = n := Option.some.inj hn
  rfl

end LightGraph
