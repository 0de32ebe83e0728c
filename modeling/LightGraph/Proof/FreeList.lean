import Mathlib.Data.List.Basic
import LightGraph.Proof.UnlinkLog

/-!
# Which ids a reopened store hands out

`open` rebuilds the free list by folding over the log. An INSERT takes nothing out of it — only
`alloc_id` does, and `alloc_id` leaves no record — so an id that was freed and handed out again
comes back from the log as a key **and** as a free id. This file proves that this is the only
way, besides an INSERT of the last id there is, after which `max_id + 1` is zero.

The proof looks at one id at a time. What the log does to an id is a list of events, what the
replay keeps of it is one bit and one count, and three subsequences of the events decide the
two (`IdState.ofEvents_spec`).
-/

set_option autoImplicit false

namespace LightGraph

open Lib
open scoped List

/-! ## The property -/

/-- A call whose effect on ids is in question. -/
inductive IdCall (ρ : Type)
  | insert (make : UInt64 → ρ)
  | hardDelete (id : UInt64)

def IdCall.isInsert {ρ : Type} : IdCall ρ → Bool
  | .insert _ => true
  | .hardDelete _ => false

namespace RecordStore
variable {ρ : Type}

/-- Map, free list and counter agree. -/
structure Sound (s : RecordStore ρ) : Prop where
  disjoint : ∀ id, (s.records.get id).isSome → id ∉ s.freeList
  nodup : s.freeList.Nodup
  keyBelow : ∀ id, (s.records.get id).isSome → id < s.nextId
  freeBelow : ∀ id ∈ s.freeList, id < s.nextId

theorem new_sound : (RecordStore.new : RecordStore ρ).Sound := by
  refine ⟨fun id hkey => ?_, List.nodup_nil, fun id hkey => ?_, fun id hmem => ?_⟩
  · exact absurd hkey (by simp [RecordStore.new])
  · exact absurd hkey (by simp [RecordStore.new])
  · exact absurd hmem List.not_mem_nil

def call [Bincode ρ] (s : RecordStore ρ) : IdCall ρ → RecordStore ρ
  | .insert make => (s.insert make).2
  | .hardDelete id => (s.hardDelete id).1

/-- As long as fresh ids are left, no insert overwrites a record or returns an id that an
earlier insert returned and no hard delete has freed since. -/
structure InsertsSafe [Bincode ρ] (s : RecordStore ρ) : Prop where
  noOverwrite : ∀ (calls : List (IdCall ρ)) (make : UInt64 → ρ),
    s.nextId.toNat + calls.countP IdCall.isInsert < 2 ^ 64 →
    (calls.foldl call s).records.get ((calls.foldl call s).insert make).1 = none
  noTwice : ∀ (before : List (IdCall ρ)) (make : UInt64 → ρ) (between : List (IdCall ρ))
    (make' : UInt64 → ρ),
    s.nextId.toNat + (before ++ .insert make :: between).countP IdCall.isInsert < 2 ^ 64 →
    (∀ id, .hardDelete id ∈ between → id ≠ ((before.foldl call s).insert make).1) →
    (((before ++ .insert make :: between).foldl call s).insert make').1
      ≠ ((before.foldl call s).insert make).1

/-- What recovery promises of the ids of the store it returns. -/
structure SafeIds [Bincode ρ] (s : RecordStore ρ) : Prop where
  sound : s.Sound
  inserts : s.InsertsSafe

end RecordStore

/-! ## What a log does to one id -/

inductive IdEvent
  | inserted
  | deleted
  deriving DecidableEq

section Events
variable (ρ : Type) [Bincode ρ]

/-- The event a record is for an id; an INSERT that does not deserialize is none. -/
def idEvent (id : UInt64) (r : LogRecord) : Option IdEvent :=
  if r.id = id then
    if r.opcode = 1 then
      match (Bincode.deserialize r.payload : Option ρ) with
      | some _ => some .inserted
      | none => none
    else if r.opcode = 2 then some .deleted
    else none
  else none

def idEvents (id : UInt64) (log : List LogRecord) : List IdEvent := log.filterMap (idEvent ρ id)

/-- The id was inserted, deleted and inserted again. -/
def Recycled (id : UInt64) (log : List LogRecord) : Prop :=
  [.inserted, .deleted, .inserted] <+ idEvents ρ id log

instance (id : UInt64) (log : List LogRecord) : Decidable (Recycled ρ id log) :=
  inferInstanceAs (Decidable (_ <+ _))

/-- No id was recycled, and the last id there is was never inserted. -/
def NeverRecycled (log : List LogRecord) : Prop :=
  (∀ id, ¬ Recycled ρ id log) ∧ .inserted ∉ idEvents ρ 0xFFFFFFFFFFFFFFFF log

end Events

/-- What a replay keeps of an id: whether it is a key, and how often it is in the free list. -/
structure IdState where
  present : Bool
  freed : Nat

namespace IdState

def step (s : IdState) : IdEvent → IdState
  | .inserted => { s with present := true }
  | .deleted => if s.present then { present := false, freed := s.freed + 1 } else s

def ofEvents (es : List IdEvent) : IdState := es.foldl step { present := false, freed := 0 }

theorem ofEvents_append (es es' : List IdEvent) :
    ofEvents (es ++ es') = es'.foldl step (ofEvents es) :=
  List.foldl_append ..

theorem sublist_snoc_iff {α : Type} {l m : List α} {a b : α} :
    l ++ [a] <+ m ++ [b] ↔ l ++ [a] <+ m ∨ a = b ∧ l <+ m := by
  have hrev : l ++ [a] <+ m ↔ a :: l.reverse <+ m.reverse := by
    rw [← List.reverse_sublist, List.reverse_append, List.reverse_singleton,
      List.singleton_append]
  rw [hrev, ← List.reverse_sublist, List.reverse_append, List.reverse_append,
    List.reverse_singleton, List.reverse_singleton, List.singleton_append,
    List.singleton_append, List.cons_sublist_cons', List.reverse_sublist]

/-- **What was done to an id, from what is left of it.** -/
theorem ofEvents_spec (es : List IdEvent) :
    ([.inserted] <+ es ↔ (ofEvents es).present = true ∨ 0 < (ofEvents es).freed) ∧
    ([.inserted, .deleted] <+ es ↔ 0 < (ofEvents es).freed) ∧
    ([.inserted, .deleted, .inserted] <+ es ↔
      (ofEvents es).present = true ∧ 0 < (ofEvents es).freed ∨ 1 < (ofEvents es).freed) := by
  induction es using List.reverseRecOn with
  | nil => simp [ofEvents]
  | append_singleton es e ih =>
    obtain ⟨h₁, h₂, h₃⟩ := ih
    have s₁ := sublist_snoc_iff (l := []) (m := es) (a := IdEvent.inserted) (b := e)
    have s₂ := sublist_snoc_iff (l := [.inserted]) (m := es) (a := IdEvent.deleted) (b := e)
    have s₃ := sublist_snoc_iff (l := [.inserted, .deleted]) (m := es) (a := IdEvent.inserted)
      (b := e)
    simp only [List.nil_append, List.cons_append] at s₁ s₂ s₃
    rw [ofEvents_append, List.foldl_cons, List.foldl_nil, s₁, s₂, s₃, h₁, h₂, h₃]
    cases e with
    | inserted =>
      simp [step]
      omega
    | deleted =>
      by_cases hp : (ofEvents es).present = true
      · simp [step, hp]
        omega
      · simp [step, hp]

end IdState

/-! ## What the replay keeps of it -/

section Replayed
variable {ρ : Type} [Bincode ρ]

theorem idEvents_append (id : UInt64) (log log' : List LogRecord) :
    idEvents ρ id (log ++ log') = idEvents ρ id log ++ idEvents ρ id log' := by
  simp [idEvents]

theorem Replay.ofLog_snoc (log : List LogRecord) (r : LogRecord) :
    (Replay.ofLog (log ++ [r]) : Replay ρ) = (Replay.ofLog log).onRecord r := by
  rw [Replay.ofLog, List.foldl_append]
  rfl

/-- What is left of an id is what its events leave of it. -/
structure Replay.Tracks (st : Replay ρ) (id : UInt64) (s : IdState) : Prop where
  present : (st.records.get id).isSome = s.present
  freed : st.freeList.count id = s.freed

theorem Replay.Tracks.onRecord {st : Replay ρ} {id : UInt64} {s : IdState}
    (h : st.Tracks id s) (r : LogRecord) :
    (st.onRecord r).Tracks id ((idEvent ρ id r).toList.foldl IdState.step s) := by
  unfold Replay.onRecord idEvent
  by_cases h1 : r.opcode = 1
  · simp only [h1, if_true]
    cases (Bincode.deserialize r.payload : Option ρ) with
    | none => simpa using h
    | some rec =>
      by_cases hid : r.id = id
      · subst hid
        exact ⟨by simp [IdState.step], by simpa [IdState.step] using h.freed⟩
      · refine ⟨?_, by simpa [hid] using h.freed⟩
        simpa [hid, FiniteMap.get_put, Ne.symm hid] using h.present
  · by_cases h2 : r.opcode = 2
    · simp only [h2, if_true]
      cases hg : st.records.get r.id with
      | none =>
        by_cases hid : r.id = id
        · subst hid
          have hp : s.present = false := by rw [← h.present, hg]; rfl
          simpa [IdState.step, hp] using h
        · simpa [hid] using h
      | some rec =>
        by_cases hid : r.id = id
        · subst hid
          have hp : s.present = true := by rw [← h.present, hg]; rfl
          refine ⟨by simp [IdState.step, hp], ?_⟩
          simp [IdState.step, hp, List.count_append, h.freed]
        · refine ⟨?_, ?_⟩
          · simpa [hid, FiniteMap.get_remove, Ne.symm hid] using h.present
          · simpa [hid, List.count_append, List.count_singleton] using h.freed
    · simpa [h1, h2] using h

theorem Replay.ofLog_tracks (id : UInt64) (log : List LogRecord) :
    (Replay.ofLog log : Replay ρ).Tracks id (IdState.ofEvents (idEvents ρ id log)) := by
  induction log using List.reverseRecOn with
  | nil => exact ⟨by simp [ofLog, empty, idEvents, IdState.ofEvents], rfl⟩
  | append_singleton log r ih =>
    have hone : idEvents ρ id [r] = (idEvent ρ id r).toList := by
      cases h : idEvent ρ id r <;> simp [idEvents, h]
    rw [idEvents_append, IdState.ofEvents_append, Replay.ofLog_snoc, hone]
    exact ih.onRecord r

theorem max_spec (a b : UInt64) :
    a ≤ max a b ∧ b ≤ max a b ∧ (max a b = a ∨ max a b = b) := by
  have hmax : max a b = if a ≤ b then b else a := rfl
  rw [hmax]
  split
  · rename_i h
    exact ⟨h, UInt64.le_refl b, Or.inr rfl⟩
  · rename_i h
    exact ⟨UInt64.le_refl a, by rw [UInt64.le_iff_toNat_le] at h ⊢; omega, Or.inl rfl⟩

/-- `max_id` is the largest id an INSERT was replayed for. -/
theorem Replay.le_maxId (log : List LogRecord) :
    (∀ id, .inserted ∈ idEvents ρ id log → id ≤ (Replay.ofLog log : Replay ρ).maxId) ∧
    ((Replay.ofLog log : Replay ρ).maxId = 0 ∨
      .inserted ∈ idEvents ρ (Replay.ofLog log : Replay ρ).maxId log) := by
  induction log using List.reverseRecOn with
  | nil => exact ⟨by simp [idEvents], Or.inl rfl⟩
  | append_singleton log r ih =>
    obtain ⟨hle, hmem⟩ := ih
    have hsplit : ∀ id, .inserted ∈ idEvents ρ id (log ++ [r]) ↔
        .inserted ∈ idEvents ρ id log ∨ idEvent ρ id r = some .inserted := by
      intro id
      rw [idEvents_append, List.mem_append]
      simp [idEvents]
    simp only [hsplit, Replay.ofLog_snoc]
    by_cases hins : r.opcode = 1 ∧ (Bincode.deserialize r.payload : Option ρ).isSome
    · -- an INSERT that is taken
      obtain ⟨h1, hsome⟩ := hins
      obtain ⟨rec, hrec⟩ := Option.isSome_iff_exists.mp hsome
      have hmax : ((Replay.ofLog log : Replay ρ).onRecord r).maxId
          = max (Replay.ofLog log : Replay ρ).maxId r.id := by
        simp [Replay.onRecord, h1, hrec]
      have hev : ∀ id, idEvent ρ id r = some .inserted ↔ r.id = id := by
        intro id
        simp [idEvent, h1, hrec]
      rw [hmax]
      simp only [hev]
      obtain ⟨hleft, hright, hcase⟩ := max_spec (Replay.ofLog log : Replay ρ).maxId r.id
      refine ⟨?_, ?_⟩
      · rintro id (hid | rfl)
        · exact UInt64.le_trans (hle id hid) hleft
        · exact hright
      · rcases hcase with h | h
        · rw [h]
          rcases hmem with h0 | hm
          · exact Or.inl h0
          · exact Or.inr (Or.inl hm)
        · rw [h]
          exact Or.inr (Or.inr rfl)
    · -- any other record
      have hmax : ((Replay.ofLog log : Replay ρ).onRecord r).maxId
          = (Replay.ofLog log : Replay ρ).maxId := by
        unfold Replay.onRecord
        split
        · rename_i h1
          cases hd : (Bincode.deserialize r.payload : Option ρ) with
          | none => rfl
          | some rec => exact absurd ⟨h1, by rw [hd]; rfl⟩ hins
        · split
          · split <;> rfl
          · rfl
      have hev : ∀ id, idEvent ρ id r ≠ some .inserted := by
        intro id h
        unfold idEvent at h
        split at h
        · split at h
          · rename_i h1
            cases hd : (Bincode.deserialize r.payload : Option ρ) with
            | none => rw [hd] at h; exact absurd h (by simp)
            | some rec => exact hins ⟨h1, by rw [hd]; rfl⟩
          · split at h <;> exact absurd h (by simp)
        · exact absurd h (by simp)
      rw [hmax]
      simp only [hev, or_false]
      exact ⟨hle, hmem⟩

/-- **When the rebuilt free list is right.** -/
theorem sound_ofLog_iff {s : RecordStore ρ} {log : List LogRecord}
    (hrec : s.records = (Replay.ofLog log : Replay ρ).records)
    (hfree : s.freeList = (Replay.ofLog log : Replay ρ).freeList)
    (hnext : s.nextId = if log = [] then 0 else (Replay.ofLog log : Replay ρ).maxId + 1) :
    s.Sound ↔ NeverRecycled ρ log := by
  have htrack : ∀ id, (s.records.get id).isSome = (IdState.ofEvents (idEvents ρ id log)).present ∧
      s.freeList.count id = (IdState.ofEvents (idEvents ρ id log)).freed := by
    intro id
    rw [hrec, hfree]
    exact ⟨(Replay.ofLog_tracks id log).present, (Replay.ofLog_tracks id log).freed⟩
  have hspec := fun id => IdState.ofEvents_spec (idEvents ρ id log)
  have hins : ∀ id, .inserted ∈ idEvents ρ id log ↔
      (s.records.get id).isSome = true ∨ id ∈ s.freeList := by
    intro id
    rw [← List.singleton_sublist, (hspec id).1, ← (htrack id).1, ← (htrack id).2,
      List.count_pos_iff]
  have hrecycled : ∀ id, Recycled ρ id log ↔
      (s.records.get id).isSome = true ∧ id ∈ s.freeList ∨ 1 < s.freeList.count id := by
    intro id
    rw [Recycled, (hspec id).2.2, ← (htrack id).1, ← (htrack id).2, List.count_pos_iff]
  constructor
  · intro hs
    refine ⟨fun id hid => ?_, fun hlast => ?_⟩
    · rcases (hrecycled id).mp hid with ⟨hkey, hmem⟩ | hcount
      · exact hs.disjoint id hkey hmem
      · have hone := List.nodup_iff_count_le_one.mp hs.nodup id
        omega
    · -- no id is above the last one
      have hbelow : (0xFFFFFFFFFFFFFFFF : UInt64) < s.nextId := by
        rcases (hins _).mp hlast with hkey | hmem
        · exact hs.keyBelow _ hkey
        · exact hs.freeBelow _ hmem
      have hle := s.nextId.toNat_lt
      rw [UInt64.lt_iff_toNat_lt] at hbelow
      simp at hbelow
      omega
  · rintro ⟨hnever, hlast⟩
    -- `max_id + 1` wraps for the last id only, and that one was never inserted
    have hbelow : ∀ id, .inserted ∈ idEvents ρ id log → id < s.nextId := by
      intro id hid
      have hlog : log ≠ [] := by
        rintro rfl
        exact absurd hid (by simp [idEvents])
      obtain ⟨hle, hmax⟩ := Replay.le_maxId (ρ := ρ) log
      have hid' := hle id hid
      have hne : (Replay.ofLog log : Replay ρ).maxId ≠ 0xFFFFFFFFFFFFFFFF := by
        intro heq
        rcases hmax with h0 | hm
        · rw [heq] at h0
          exact absurd h0 (by decide)
        · rw [heq] at hm
          exact hlast hm
      rw [hnext, if_neg hlog]
      rw [UInt64.le_iff_toNat_le] at hid'
      rw [UInt64.lt_iff_toNat_lt, UInt64.toNat_add]
      have hlt := (Replay.ofLog log : Replay ρ).maxId.toNat_lt
      have hne' : (Replay.ofLog log : Replay ρ).maxId.toNat ≠ 2 ^ 64 - 1 :=
        fun h => hne (UInt64.toNat_inj.mp h)
      have hone : (1 : UInt64).toNat = 1 := rfl
      rw [hone]
      omega
    refine ⟨fun id hkey hmem => ?_, ?_, fun id hkey => ?_, fun id hmem => ?_⟩
    · exact hnever id ((hrecycled id).mpr (Or.inl ⟨hkey, hmem⟩))
    · rw [List.nodup_iff_count_le_one]
      intro id
      by_contra hcount
      exact hnever id ((hrecycled id).mpr (Or.inr (by omega)))
    · exact hbelow id ((hins id).mpr (Or.inl hkey))
    · exact hbelow id ((hins id).mpr (Or.inr hmem))

end Replayed

/-! ## What follows for later inserts -/

namespace RecordStore
variable {ρ : Type} [Bincode ρ]

omit [Bincode ρ] in
/-- A change that makes no new key. -/
theorem Sound.of_keys {s t : RecordStore ρ} (h : s.Sound)
    (hkeys : ∀ id, (t.records.get id).isSome = true → (s.records.get id).isSome = true)
    (hfree : t.freeList = s.freeList) (hnext : t.nextId = s.nextId) : t.Sound := by
  refine ⟨fun id hkey hmem => ?_, by rw [hfree]; exact h.nodup, fun id hkey => ?_,
    fun id hmem => ?_⟩
  · exact h.disjoint id (hkeys id hkey) (hfree ▸ hmem)
  · rw [hnext]
    exact h.keyBelow id (hkeys id hkey)
  · rw [hnext]
    exact h.freeBelow id (hfree ▸ hmem)

omit [Bincode ρ] in
/-- A sound store allocates an id that is no key. -/
theorem Sound.allocId_absent {s : RecordStore ρ} (h : s.Sound) :
    s.records.get s.allocId.1 = none := by
  cases hget : s.records.get s.allocId.1 with
  | none => rfl
  | some r =>
    exfalso
    have hkey : (s.records.get s.allocId.1).isSome = true := by rw [hget]; rfl
    unfold allocId at hkey
    split at hkey
    · rename_i id rest hfree
      exact h.disjoint id hkey (by rw [hfree]; exact List.mem_cons_self)
    · exact UInt64.lt_irrefl _ (h.keyBelow _ hkey)

omit [Bincode ρ] in
theorem Sound.hardDelete {s : RecordStore ρ} (h : s.Sound) (id : UInt64) :
    (s.hardDelete id).1.Sound := by
  have hkey : ∀ id', ((s.records.remove id).get id').isSome = true →
      id' ≠ id ∧ (s.records.get id').isSome = true := by
    intro id' hk
    rw [FiniteMap.get_remove] at hk
    split at hk
    · exact absurd hk (by simp)
    · rename_i hne
      exact ⟨hne, hk⟩
  have hmem : ∀ id', id' ∈ (s.hardDelete id).1.freeList →
      id' ∈ s.freeList ∨ id' = id ∧ (s.records.get id).isSome = true := by
    intro id' hm
    rw [hardDelete_freeList] at hm
    split at hm
    · rename_i hsome
      rcases List.mem_append.mp hm with hm | hm
      · exact Or.inl hm
      · exact Or.inr ⟨List.mem_singleton.mp hm, hsome⟩
    · exact Or.inl hm
  refine ⟨fun id' hk hm => ?_, ?_, fun id' hk => ?_, fun id' hm => ?_⟩
  · rw [hardDelete_records] at hk
    obtain ⟨hne, hk⟩ := hkey id' hk
    rcases hmem id' hm with hm | ⟨heq, _⟩
    · exact h.disjoint id' hk hm
    · exact hne heq
  · rw [hardDelete_freeList]
    split
    · rename_i hsome
      rw [List.nodup_append]
      refine ⟨h.nodup, List.nodup_singleton id, fun a ha b hb heq => ?_⟩
      rw [heq, List.mem_singleton.mp hb] at ha
      exact h.disjoint id hsome ha
    · exact h.nodup
  · rw [hardDelete_records] at hk
    rw [hardDelete_nextId]
    exact h.keyBelow id' (hkey id' hk).2
  · rw [hardDelete_nextId]
    rcases hmem id' hm with hm | ⟨rfl, hsome⟩
    · exact h.freeBelow id' hm
    · exact h.keyBelow _ hsome

theorem Sound.insert {s : RecordStore ρ} (h : s.Sound) (make : UInt64 → ρ)
    (hroom : s.nextId.toNat + 1 < 2 ^ 64) :
    (s.insert make).2.Sound ∧ (s.insert make).2.nextId.toNat ≤ s.nextId.toNat + 1 := by
  have hone : (1 : UInt64).toNat = 1 := rfl
  have hkey : ∀ id, ((s.insert make).2.records.get id).isSome = true →
      id = s.allocId.1 ∨ (s.records.get id).isSome = true := by
    intro id hk
    rw [insert_records, FiniteMap.get_put] at hk
    split at hk
    · rename_i heq
      exact Or.inl heq
    · exact Or.inr hk
  cases hfree : s.freeList with
  | nil =>
    -- a fresh id
    have halloc : s.allocId = (s.nextId, { s with nextId := s.nextId + 1 }) := by
      rw [allocId, hfree]
    have hnext : (s.insert make).2.nextId = s.nextId + 1 := by rw [insert_nextId, halloc]
    have hlist : (s.insert make).2.freeList = [] := by rw [insert_freeList, halloc]; exact hfree
    have hnat : (s.nextId + 1).toNat = s.nextId.toNat + 1 := by
      rw [UInt64.toNat_add, hone]
      exact Nat.mod_eq_of_lt hroom
    refine ⟨⟨?_, ?_, ?_, ?_⟩, by rw [hnext, hnat]⟩
    · intro id _
      rw [hlist]
      exact List.not_mem_nil
    · rw [hlist]
      exact List.nodup_nil
    · intro id hk
      rw [hnext, UInt64.lt_iff_toNat_lt, hnat]
      rcases hkey id hk with rfl | hk
      · rw [halloc]
        exact Nat.lt_succ_self _
      · have := UInt64.lt_iff_toNat_lt.mp (h.keyBelow id hk)
        omega
    · intro id hm
      rw [hlist] at hm
      exact absurd hm List.not_mem_nil
  | cons id rest =>
    -- the oldest freed id
    have halloc : s.allocId
        = (id, { s with freeList := rest, freeCount := s.freeCount - 1 }) := by
      rw [allocId, hfree]
    have hnext : (s.insert make).2.nextId = s.nextId := by rw [insert_nextId, halloc]
    have hlist : (s.insert make).2.freeList = rest := by rw [insert_freeList, halloc]
    have hnodup := h.nodup
    rw [hfree, List.nodup_cons] at hnodup
    refine ⟨⟨?_, ?_, ?_, ?_⟩, by rw [hnext]; exact Nat.le_succ _⟩
    · intro id' hk hm
      rw [hlist] at hm
      rcases hkey id' hk with rfl | hk
      · rw [halloc] at hm
        exact hnodup.1 hm
      · exact h.disjoint id' hk (by rw [hfree]; exact List.mem_cons_of_mem id hm)
    · rw [hlist]
      exact hnodup.2
    · intro id' hk
      rw [hnext]
      rcases hkey id' hk with rfl | hk
      · rw [halloc]
        exact h.freeBelow id (by rw [hfree]; exact List.mem_cons_self)
      · exact h.keyBelow id' hk
    · intro id' hm
      rw [hlist] at hm
      rw [hnext]
      exact h.freeBelow id' (by rw [hfree]; exact List.mem_cons_of_mem id hm)

/-- Calls keep a store sound as long as fresh ids are left. -/
theorem Sound.calls {s : RecordStore ρ} (h : s.Sound) (calls : List (IdCall ρ))
    (hroom : s.nextId.toNat + calls.countP IdCall.isInsert < 2 ^ 64) :
    (calls.foldl call s).Sound ∧
      (calls.foldl call s).nextId.toNat ≤ s.nextId.toNat + calls.countP IdCall.isInsert := by
  induction calls generalizing s with
  | nil => exact ⟨h, Nat.le_refl _⟩
  | cons c calls ih =>
    cases c with
    | insert make =>
      rw [List.countP_cons_of_pos (by rfl)] at hroom ⊢
      obtain ⟨hs, hle⟩ := h.insert make (by omega)
      obtain ⟨hs', hle'⟩ := ih hs (by omega)
      exact ⟨hs', by rw [List.foldl_cons]; exact Nat.le_trans hle' (by omega)⟩
    | hardDelete id =>
      rw [List.countP_cons_of_neg (by simp [IdCall.isInsert])] at hroom ⊢
      have hnext : (s.call (.hardDelete id)).nextId = s.nextId := hardDelete_nextId s id
      have hs := ih (h.hardDelete id) (by rw [← hnext] at hroom; exact hroom)
      rw [hardDelete_nextId] at hs
      exact hs

/-- A key stays one until it is hard-deleted. -/
theorem key_calls (calls : List (IdCall ρ)) (id : UInt64) :
    ∀ s : RecordStore ρ, (s.records.get id).isSome = true →
      (∀ id', .hardDelete id' ∈ calls → id' ≠ id) →
      ((calls.foldl call s).records.get id).isSome = true := by
  induction calls with
  | nil => exact fun s h _ => h
  | cons c calls ih =>
    intro s h hne
    refine ih _ ?_ fun id' hm => hne id' (List.mem_cons_of_mem c hm)
    cases c with
    | insert make =>
      rw [call, insert_records, FiniteMap.get_put]
      split
      · rfl
      · exact h
    | hardDelete id' =>
      rw [call, hardDelete_records, FiniteMap.get_remove,
        if_neg (Ne.symm (hne id' List.mem_cons_self))]
      exact h

theorem Sound.insertsSafe {s : RecordStore ρ} (h : s.Sound) : s.InsertsSafe := by
  have habsent : ∀ (calls : List (IdCall ρ)) (make : UInt64 → ρ),
      s.nextId.toNat + calls.countP IdCall.isInsert < 2 ^ 64 →
      (calls.foldl call s).records.get ((calls.foldl call s).insert make).1 = none := by
    intro calls make hroom
    rw [insert_id]
    exact (h.calls calls hroom).1.allocId_absent
  refine ⟨habsent, fun before make between make' hroom hkept heq => ?_⟩
  -- the first id is still a key when the second insert is made
  have hkey : (((before.foldl call s).insert make).2.records.get
      ((before.foldl call s).insert make).1).isSome = true := by
    rw [insert_records, insert_id, FiniteMap.get_put_self]
    rfl
  have hlater := key_calls between _ _ hkey hkept
  have hnone := habsent (before ++ .insert make :: between) make' hroom
  rw [heq, List.foldl_append, List.foldl_cons] at hnone
  rw [call] at hnone
  rw [hnone] at hlater
  exact absurd hlater (by simp)

theorem safeIds_iff_sound {s : RecordStore ρ} : s.SafeIds ↔ s.Sound :=
  ⟨SafeIds.sound, fun h => ⟨h, h.insertsSafe⟩⟩

end RecordStore

/-! ## Reopened stores -/

theorem NodeStore.reopen_safeIds [Bincode Node] {file : Bytes} {log : List LogRecord}
    {s₀ : NodeStore} (hfile : LogHolds file log) (hopen : NodeStore.open file = .ok s₀)
    (ops : List NodeOp) (hfit : ∀ r ∈ (ops.foldl NodeStore.perform s₀).history, r.Fits) :
    ∃ s, NodeStore.open (ops.foldl NodeStore.perform s₀).file = .ok s ∧
      (s.toRecordStore.SafeIds ↔
        NeverRecycled Node (log ++ (ops.foldl NodeStore.perform s₀).history)) := by
  have hsync := NodeStore.loggedCalls.synced (NodeStore.open_synced hfile hopen).1 ops
  have hall : ∀ r ∈ log ++ (ops.foldl NodeStore.perform s₀).history, r.Fits :=
    List.forall_mem_append.mpr ⟨hfile.fits, hfit⟩
  obtain ⟨t, ht, hrec, -, hfree, hnext⟩ := NodeStore.open_eq (hsync.logHolds hall)
  rw [← Replay.ofLog_records] at hrec
  exact ⟨t, ht, RecordStore.safeIds_iff_sound.trans (sound_ofLog_iff hrec hfree hnext)⟩

theorem EdgeStore.reopen_safeIds [Bincode Edge] {file : Bytes} {log : List LogRecord}
    {s₀ t : EdgeStore} (hfile : LogHolds file log) (hopen : EdgeStore.open file = .ok s₀)
    {calls : List EdgeCall} (hrun : calls.foldlM EdgeStore.performCall s₀ = some t)
    (hfit : ∀ r ∈ RecordStore.history t, r.Fits) :
    ∃ s, EdgeStore.open t.file = .ok s ∧
      (s.SafeIds ↔ NeverRecycled Edge (log ++ RecordStore.history t)) := by
  have hstart := (EdgeStore.open_synced hfile hopen).1
  obtain ⟨w, hwal⟩ := hstart.wal
  obtain ⟨cmds, hlogs⟩ := EdgeStore.performCalls_logs calls hwal hrun
  have hall : ∀ r ∈ log ++ RecordStore.history t, r.Fits :=
    List.forall_mem_append.mpr ⟨hfile.fits, hfit⟩
  obtain ⟨s, hs, hrec, -, hfree, hnext⟩ :=
    EdgeStore.open_eq ((hstart.logs hlogs).logHolds hall)
  rw [← Replay.ofLog_records] at hrec
  exact ⟨s, hs, RecordStore.safeIds_iff_sound.trans (sound_ofLog_iff hrec hfree hnext)⟩

/-- **The ids of a reopened store are safe exactly when its log never recycled one.** The
calls are those of a node store or an edge store opened on any log, `log` the records found
there; those of the edge store, an unlink among them, return. -/
theorem reopened_safeIds_iff [Bincode Node] [Bincode Edge] :
    (∀ (file : Bytes) (log : List LogRecord) (s₀ : NodeStore) (ops : List NodeOp),
      LogHolds file log → NodeStore.open file = .ok s₀ →
      (∀ r ∈ (ops.foldl NodeStore.perform s₀).history, r.Fits) →
      ∃ s, NodeStore.open (ops.foldl NodeStore.perform s₀).file = .ok s ∧
        (s.toRecordStore.SafeIds ↔
          NeverRecycled Node (log ++ (ops.foldl NodeStore.perform s₀).history))) ∧
    (∀ (file : Bytes) (log : List LogRecord) (s₀ t : EdgeStore) (calls : List EdgeCall),
      LogHolds file log → EdgeStore.open file = .ok s₀ →
      calls.foldlM EdgeStore.performCall s₀ = some t →
      (∀ r ∈ RecordStore.history t, r.Fits) →
      ∃ s, EdgeStore.open t.file = .ok s ∧
        (s.SafeIds ↔ NeverRecycled Edge (log ++ RecordStore.history t))) :=
  ⟨fun _ _ _ ops hfile hopen hfit => NodeStore.reopen_safeIds hfile hopen ops hfit,
    fun _ _ _ _ _ hfile hopen hrun hfit => EdgeStore.reopen_safeIds hfile hopen hrun hfit⟩

/-- A node is inserted, hard-deleted, and its id handed out again. -/
theorem reopened_unsafe_after_recycling :
    ¬ ∀ (file : Bytes) (log : List LogRecord) (s₀ : NodeStore) (ops : List NodeOp),
      LogHolds file log → NodeStore.open file = .ok s₀ →
      (∀ r ∈ (ops.foldl NodeStore.perform s₀).history, r.Fits) →
      ∃ s, NodeStore.open (ops.foldl NodeStore.perform s₀).file = .ok s ∧
        s.toRecordStore.SafeIds := by
  intro h
  have hfit : ∀ r ∈ ([.insertNode [] 0 1, .hardDelete 0, .insertNode [] 0 2].foldl
      NodeStore.perform (NodeStore.fresh)).history, r.Fits := by decide
  obtain ⟨s, hs, hsafe⟩ := h [] [] _ [.insertNode [] 0 1, .hardDelete 0, .insertNode [] 0 2]
    LogHolds.empty rfl hfit
  obtain ⟨t, ht, hiff⟩ := NodeStore.reopen_safeIds LogHolds.empty rfl
    [.insertNode [] 0 1, .hardDelete 0, .insertNode [] 0 2] hfit
  rw [hs, Except.ok.injEq] at ht
  subst ht
  exact (hiff.mp hsafe).1 0 (by decide)

/-- Two edges are inserted and linked, and one of them is unlinked and deleted. -/
def unlinkFirstEdge : List EdgeCall :=
  [.op (.insertEdge 0 1 0 0 1), .op (.linkIntoChains 0 nullEdge nullEdge),
    .op (.insertEdge 0 1 0 0 1), .op (.linkIntoChains 1 0 0), .unlinkFromChains 0 1 1,
    .op (.hardDelete 0)]

/-- Three calls on an empty node store, and six on an edge store; none of them reuses an id. -/
theorem reopened_safeIds_iff_three :
    (∃ s, NodeStore.open ([.insertNode [] 0 1, .insertNode [] 0 1, .hardDelete 0].foldl
        NodeStore.perform NodeStore.fresh).file = .ok s ∧
      (s.toRecordStore.SafeIds ↔ NeverRecycled Node ([] ++ ([.insertNode [] 0 1,
        .insertNode [] 0 1, .hardDelete 0].foldl NodeStore.perform NodeStore.fresh).history))) ∧
    ∃ t, unlinkFirstEdge.foldlM EdgeStore.performCall EdgeStore.fresh = some t ∧
      ∃ s, EdgeStore.open t.file = .ok s ∧
        (s.SafeIds ↔ NeverRecycled Edge ([] ++ RecordStore.history t)) :=
  ⟨reopened_safeIds_iff.1 [] [] _ _ LogHolds.empty rfl (by decide), _, rfl,
    reopened_safeIds_iff.2 [] [] _ _ unlinkFirstEdge LogHolds.empty rfl rfl (by decide +kernel)⟩

end LightGraph
