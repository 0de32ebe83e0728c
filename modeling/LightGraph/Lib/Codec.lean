import LightGraph.Lib.LittleEndian
import LightGraph.Lib.Utf8

/-!
# Self-delimiting binary codecs

A codec writes a value as bytes that tell their own end: a reader takes the value off the
front of any input that starts with them, and never looks further. Two laws say so, and both
pass through every combinator below, so a codec for a record type is the product of the codecs
of its fields and needs no proof of its own.

`get_of_cut` is what makes such a format safe in a log: **bytes that stop too early are no
value at all.**
-/

set_option autoImplicit false

namespace Lib

structure Codec (α : Type) where
  put : α → Bytes
  get : Bytes → Option (α × Bytes)
  get_put : ∀ a rest, get (put a ++ rest) = some (a, rest)
  get_more : ∀ bs a rest more, get bs = some (a, rest) → get (bs ++ more) = some (a, rest ++ more)

namespace Codec

variable {α β : Type}

theorem get_put_self (c : Codec α) (a : α) : c.get (c.put a) = some (a, []) := by
  have h := c.get_put a []
  rwa [List.append_nil] at h

theorem get_of_cut (c : Codec α) (a : α) {start : Bytes} (hpre : start <+: c.put a)
    (hne : start ≠ c.put a) : c.get start = none := by
  obtain ⟨more, hmore⟩ := hpre
  cases hg : c.get start with
  | none => rfl
  | some p =>
    obtain ⟨b, rest⟩ := p
    have h := c.get_more start b rest more hg
    rw [hmore, c.get_put_self, Option.some.injEq, Prod.mk.injEq] at h
    have hnil : more = [] := (List.append_eq_nil_iff.mp h.2.symm).2
    rw [hnil, List.append_nil] at hmore
    exact absurd hmore hne

/-! ## Words -/

/-- The first `n` bytes and those behind them. -/
def takeBytes (n : Nat) (bs : Bytes) : Option (Bytes × Bytes) :=
  if n ≤ bs.length then some (bs.take n, bs.drop n) else none

theorem takeBytes_append (front rest : Bytes) :
    takeBytes front.length (front ++ rest) = some (front, rest) := by
  rw [takeBytes, if_pos (by simp), List.take_left, List.drop_left]

theorem takeBytes_more {n : Nat} {bs front rest : Bytes} (more : Bytes)
    (h : takeBytes n bs = some (front, rest)) :
    takeBytes n (bs ++ more) = some (front, rest ++ more) := by
  unfold takeBytes at h
  split at h
  · rename_i hle
    rw [Option.some.injEq, Prod.mk.injEq] at h
    rw [takeBytes, if_pos (by rw [List.length_append]; omega),
      List.take_append_of_le_length hle, List.drop_append_of_le_length hle, h.1, h.2]
  · exact absurd h (by simp)

/-- A machine word of `w` bytes, little-endian. -/
def word (w : Nat) (toNat : α → Nat) (ofNat : Nat → α) (hlt : ∀ a, toNat a < 256 ^ w)
    (hof : ∀ a, ofNat (toNat a) = a) : Codec α where
  put a := leBytes w (toNat a)
  get bs := (takeBytes w bs).map fun p => (ofNat (leNat p.1), p.2)
  get_put a rest := by
    have h := takeBytes_append (leBytes w (toNat a)) rest
    rw [length_leBytes] at h
    rw [h, Option.map_some, leNat_leBytes_of_lt (hlt a), hof]
  get_more bs a rest more h := by
    rw [Option.map_eq_some_iff] at h ⊢
    obtain ⟨⟨front, rest'⟩, htake, heq⟩ := h
    rw [Prod.mk.injEq] at heq
    exact ⟨_, takeBytes_more more htake, by rw [← heq.1, ← heq.2]⟩

def u32 : Codec UInt32 :=
  word 4 UInt32.toNat UInt32.ofNat UInt32.toNat_lt fun _ => UInt32.ofNat_toNat

def u64 : Codec UInt64 :=
  word 8 UInt64.toNat UInt64.ofNat UInt64.toNat_lt fun _ => UInt64.ofNat_toNat

/-! ## Products -/

/-- One value behind the other. -/
def pair (c : Codec α) (d : Codec β) : Codec (α × β) where
  put p := c.put p.1 ++ d.put p.2
  get bs := (c.get bs).bind fun p => (d.get p.2).map fun q => ((p.1, q.1), q.2)
  get_put p rest := by
    rw [List.append_assoc, c.get_put, Option.bind_some, d.get_put]
    rfl
  get_more bs p rest more h := by
    rw [Option.bind_eq_some_iff] at h ⊢
    obtain ⟨⟨a, mid⟩, hc, h⟩ := h
    rw [Option.map_eq_some_iff] at h
    obtain ⟨⟨b, rest'⟩, hd, heq⟩ := h
    rw [Prod.mk.injEq] at heq
    refine ⟨_, c.get_more bs a mid more hc, ?_⟩
    rw [d.get_more mid b rest' more hd, Option.map_some, ← heq.1, ← heq.2]

/-- The same bytes for another type. -/
def map (c : Codec α) (f : α → β) (g : β → α) (hfg : ∀ b, f (g b) = b) : Codec β where
  put b := c.put (g b)
  get bs := (c.get bs).map fun p => (f p.1, p.2)
  get_put b rest := by
    rw [c.get_put, Option.map_some, hfg]
  get_more bs b rest more h := by
    rw [Option.map_eq_some_iff] at h ⊢
    obtain ⟨⟨a, rest'⟩, hc, heq⟩ := h
    rw [Prod.mk.injEq] at heq
    exact ⟨_, c.get_more bs a rest' more hc, by rw [← heq.1, ← heq.2]⟩

/-! ## Counts and lists -/

/-- An eight-byte count. The largest word is not a count but says that the count goes on: no
list in a machine's memory is that long, but the codec has to serve every list there is. -/
def putCount (n : Nat) : Bytes :=
  List.flatten (List.replicate (n / (2 ^ 64 - 1)) (leBytes 8 (2 ^ 64 - 1)))
    ++ leBytes 8 (n % (2 ^ 64 - 1))

def getCount : Bytes → Option (Nat × Bytes)
  | b₀ :: b₁ :: b₂ :: b₃ :: b₄ :: b₅ :: b₆ :: b₇ :: rest =>
    let n := leNat [b₀, b₁, b₂, b₃, b₄, b₅, b₆, b₇]
    if n = 2 ^ 64 - 1 then (getCount rest).map fun p => (2 ^ 64 - 1 + p.1, p.2)
    else some (n, rest)
  | _ => none

theorem getCount_leBytes (n : Nat) (hn : n < 256 ^ 8) (rest : Bytes) :
    getCount (leBytes 8 n ++ rest) =
      if n = 2 ^ 64 - 1 then (getCount rest).map fun p => (2 ^ 64 - 1 + p.1, p.2)
      else some (n, rest) := by
  have hle := leNat_leBytes_of_lt hn
  simp only [leBytes] at hle ⊢
  simp only [List.cons_append, List.nil_append, getCount, hle]

theorem getCount_putCount (n : Nat) (rest : Bytes) :
    getCount (putCount n ++ rest) = some (n, rest) := by
  have hpow : (256 : Nat) ^ 8 = 2 ^ 64 := by decide
  have key : ∀ q r : Nat, r < 2 ^ 64 - 1 →
      getCount (List.flatten (List.replicate q (leBytes 8 (2 ^ 64 - 1))) ++ leBytes 8 r ++ rest)
        = some (q * (2 ^ 64 - 1) + r, rest) := by
    intro q r hr
    induction q with
    | zero =>
      rw [List.replicate_zero, List.flatten_nil, List.nil_append,
        getCount_leBytes r (by omega), if_neg (by omega)]
      simp
    | succ q ih =>
      rw [List.replicate_succ, List.flatten_cons, List.append_assoc, List.append_assoc,
        getCount_leBytes _ (by omega), if_pos rfl, ← List.append_assoc, ih]
      simp only [Option.map_some, Option.some.injEq, Prod.mk.injEq, and_true]
      omega
  have hmod : n % (2 ^ 64 - 1) < 2 ^ 64 - 1 := Nat.mod_lt _ (by decide)
  rw [putCount, key _ _ hmod, Nat.div_add_mod']

theorem getCount_more (bs : Bytes) : ∀ (n : Nat) (rest more : Bytes),
    getCount bs = some (n, rest) → getCount (bs ++ more) = some (n, rest ++ more) := by
  induction bs using getCount.induct with
  | case1 b₀ b₁ b₂ b₃ b₄ b₅ b₆ b₇ rest m hm ih =>
    intro n rest' more h
    simp only [getCount, List.cons_append] at h ⊢
    rw [if_pos hm] at h ⊢
    rw [Option.map_eq_some_iff] at h ⊢
    obtain ⟨⟨k, r⟩, hk, heq⟩ := h
    rw [Prod.mk.injEq] at heq
    exact ⟨_, ih k r more hk, by rw [← heq.1, ← heq.2]⟩
  | case2 b₀ b₁ b₂ b₃ b₄ b₅ b₆ b₇ rest m hm =>
    intro n rest' more h
    simp only [getCount, List.cons_append] at h ⊢
    rw [if_neg hm] at h ⊢
    simp only [Option.some.injEq, Prod.mk.injEq] at h ⊢
    exact ⟨h.1, by rw [h.2]⟩
  | case3 bs hshort =>
    intro n rest more h
    rw [getCount] at h
    · exact absurd h (by simp)
    · exact hshort

/-- `n` values one behind the other. -/
def getMany (get : Bytes → Option (α × Bytes)) : Nat → Bytes → Option (List α × Bytes)
  | 0, bs => some ([], bs)
  | n + 1, bs =>
    match get bs with
    | none => none
    | some (a, bs) => (getMany get n bs).map fun p => (a :: p.1, p.2)

theorem getMany_flatMap {get : Bytes → Option (α × Bytes)} {put : α → Bytes} (as : List α)
    (h : ∀ a ∈ as, ∀ rest, get (put a ++ rest) = some (a, rest)) (rest : Bytes) :
    getMany get as.length (as.flatMap put ++ rest) = some (as, rest) := by
  induction as with
  | nil => rfl
  | cons a as ih =>
    rw [List.length_cons, List.flatMap_cons, List.append_assoc, getMany,
      h a List.mem_cons_self]
    simp only [ih fun b hb => h b (List.mem_cons_of_mem a hb), Option.map_some]

theorem getMany_mono {get get' : Bytes → Option (α × Bytes)} {more : Bytes}
    (h : ∀ bs a rest, get bs = some (a, rest) → get' (bs ++ more) = some (a, rest ++ more)) :
    ∀ (n : Nat) (bs : Bytes) (as : List α) (rest : Bytes), getMany get n bs = some (as, rest) →
      getMany get' n (bs ++ more) = some (as, rest ++ more) := by
  intro n
  induction n with
  | zero =>
    intro bs as rest hg
    simp only [getMany, Option.some.injEq, Prod.mk.injEq] at hg ⊢
    exact ⟨hg.1, by rw [hg.2]⟩
  | succ n ih =>
    intro bs as rest hg
    rw [getMany] at hg ⊢
    cases hb : get bs with
    | none => rw [hb] at hg; exact absurd hg (by simp)
    | some p =>
      obtain ⟨a, mid⟩ := p
      rw [hb] at hg
      rw [h bs a mid hb]
      simp only [Option.map_eq_some_iff] at hg ⊢
      obtain ⟨⟨as', r⟩, hm, heq⟩ := hg
      rw [Prod.mk.injEq] at heq
      exact ⟨_, ih mid as' r hm, by rw [← heq.1, ← heq.2]⟩

/-- A count, then the elements. -/
def list (c : Codec α) : Codec (List α) where
  put as := putCount as.length ++ as.flatMap c.put
  get bs := (getCount bs).bind fun p => getMany c.get p.1 p.2
  get_put as rest := by
    rw [List.append_assoc, getCount_putCount, Option.bind_some]
    exact getMany_flatMap as (fun a _ => c.get_put a) rest
  get_more bs as rest more h := by
    rw [Option.bind_eq_some_iff] at h ⊢
    obtain ⟨⟨n, mid⟩, hn, hm⟩ := h
    exact ⟨_, getCount_more bs n mid more hn,
      getMany_mono (fun bs a rest => c.get_more bs a rest more) n mid as rest hm⟩

/-! ## Text and options -/

/-- A count of bytes, then the bytes; bytes that are no text are refused. -/
def string : Codec String where
  put s := putCount (utf8Bytes s).length ++ utf8Bytes s
  get bs := (getCount bs).bind fun p => (takeBytes p.1 p.2).bind fun q =>
    if utf8Bytes (fromUtf8Lossy q.1) = q.1 then some (fromUtf8Lossy q.1, q.2) else none
  get_put s rest := by
    rw [List.append_assoc, getCount_putCount, Option.bind_some, takeBytes_append,
      Option.bind_some]
    simp only [fromUtf8Lossy_utf8Bytes, if_true]
  get_more bs s rest more h := by
    rw [Option.bind_eq_some_iff] at h ⊢
    obtain ⟨⟨n, mid⟩, hn, h⟩ := h
    rw [Option.bind_eq_some_iff] at h
    obtain ⟨⟨front, rest'⟩, ht, h⟩ := h
    refine ⟨_, getCount_more bs n mid more hn, ?_⟩
    rw [Option.bind_eq_some_iff]
    refine ⟨_, takeBytes_more more ht, ?_⟩
    dsimp only at h ⊢
    split at h
    · rename_i hutf
      rw [Option.some.injEq, Prod.mk.injEq] at h
      rw [if_pos hutf, h.1, h.2]
    · exact absurd h (by simp)

/-- A byte 0, or a byte 1 and the value. -/
def option (c : Codec α) : Codec (Option α) where
  put o := match o with
    | none => [0]
    | some a => 1 :: c.put a
  get bs := match bs with
    | [] => none
    | 0 :: rest => some (none, rest)
    | b :: rest => if b = 1 then (c.get rest).map fun p => (some p.1, p.2) else none
  get_put o rest := by
    cases o with
    | none => rfl
    | some a =>
      show (if (1 : UInt8) = 1 then (c.get (c.put a ++ rest)).map _ else none) = _
      rw [if_pos rfl, c.get_put, Option.map_some]
  get_more bs o rest more h := by
    match bs with
    | [] => exact absurd h (by simp)
    | b :: bs =>
      by_cases h0 : b = 0
      · subst h0
        simp only [List.cons_append, Option.some.injEq, Prod.mk.injEq] at h ⊢
        exact ⟨h.1, by rw [h.2]⟩
      · rw [List.cons_append]
        split at h
        · rename_i heq
          exact absurd heq (by simp)
        · rename_i heq
          exact absurd (List.cons.inj heq).1 h0
        · rename_i b' rest' hne heq
          obtain ⟨rfl, rfl⟩ := List.cons.inj heq
          split at h
          · rename_i h1
            subst h1
            rw [Option.map_eq_some_iff] at h
            obtain ⟨⟨a, r⟩, hg, heq⟩ := h
            rw [Prod.mk.injEq] at heq
            show (if (1 : UInt8) = 1 then (c.get (bs ++ more)).map _ else none) = _
            rw [if_pos rfl, c.get_more bs a r more hg, Option.map_some, ← heq.1, ← heq.2]
          · exact absurd h (by simp)

/-- No byte at all. -/
def unit : Codec Unit where
  put _ := []
  get bs := some ((), bs)
  get_put _ _ := rfl
  get_more bs a rest more h := by
    rw [Option.some.injEq, Prod.mk.injEq] at h ⊢
    exact ⟨h.1, by rw [h.2]⟩

/-- A byte 0 or 1. -/
def bool : Codec Bool :=
  (option unit).map Option.isSome (fun b => if b then some () else none) (by decide)

/-! ## Variants -/

/-- The variants of an enum from the `n`-th on: the number of a value's variant, and the bytes
behind it. -/
structure Variants (n : Nat) (α : Type) where
  put : α → Nat × Bytes
  get : Nat → Bytes → Option (α × Bytes)
  le_number : ∀ a, n ≤ (put a).1
  number_lt : ∀ a, (put a).1 < 256 ^ 4
  get_put : ∀ a rest, get (put a).1 ((put a).2 ++ rest) = some (a, rest)
  get_more : ∀ m bs a rest more, get m bs = some (a, rest) →
    get m (bs ++ more) = some (a, rest ++ more)

/-- There are no more. -/
def Variants.none (n : Nat) : Variants n Empty where
  put a := a.elim
  get _ _ := Option.none
  le_number a := a.elim
  number_lt a := a.elim
  get_put a := a.elim
  get_more _ _ _ _ _ h := absurd h (by simp)

/-- One more in front. -/
def Variants.cons {n : Nat} (hn : n < 256 ^ 4) (c : Codec α) (v : Variants (n + 1) β) :
    Variants n (α ⊕ β) where
  put
    | .inl a => (n, c.put a)
    | .inr b => v.put b
  get m bs :=
    if m = n then (c.get bs).map fun p => (.inl p.1, p.2)
    else (v.get m bs).map fun p => (.inr p.1, p.2)
  le_number
    | .inl _ => Nat.le_refl n
    | .inr b => Nat.le_of_succ_le (v.le_number b)
  number_lt
    | .inl _ => hn
    | .inr b => v.number_lt b
  get_put
    | .inl a, rest => by
      dsimp only
      rw [if_pos rfl, c.get_put, Option.map_some]
    | .inr b, rest => by
      dsimp only
      rw [if_neg (Nat.ne_of_gt (v.le_number b)), v.get_put, Option.map_some]
  get_more m bs a rest more h := by
    by_cases hm : m = n
    · rw [if_pos hm, Option.map_eq_some_iff] at h ⊢
      obtain ⟨⟨x, r⟩, hg, heq⟩ := h
      rw [Prod.mk.injEq] at heq
      exact ⟨_, c.get_more bs x r more hg, by rw [← heq.1, ← heq.2]⟩
    · rw [if_neg hm, Option.map_eq_some_iff] at h ⊢
      obtain ⟨⟨x, r⟩, hg, heq⟩ := h
      rw [Prod.mk.injEq] at heq
      exact ⟨_, v.get_more m bs x r more hg, by rw [← heq.1, ← heq.2]⟩

/-- Four bytes for the number of the variant, then its fields; a number that is none is
refused. -/
def Variants.codec (v : Variants 0 α) : Codec α where
  put a := leBytes 4 (v.put a).1 ++ (v.put a).2
  get bs := (takeBytes 4 bs).bind fun p => v.get (leNat p.1) p.2
  get_put a rest := by
    have htake := takeBytes_append (leBytes 4 (v.put a).1) ((v.put a).2 ++ rest)
    rw [length_leBytes] at htake
    rw [List.append_assoc, htake, Option.bind_some, leNat_leBytes_of_lt (v.number_lt a),
      v.get_put]
  get_more bs a rest more h := by
    rw [Option.bind_eq_some_iff] at h ⊢
    obtain ⟨⟨front, mid⟩, htake, hget⟩ := h
    exact ⟨_, takeBytes_more more htake, v.get_more _ mid a rest more hget⟩

end Codec
end Lib
