import BmcCache.TextCommands

/-!
# The numbers of a command line

`safe_strtoul`, `safe_strtol`, `safe_strtoull` and `safe_strtoll` of util.c read a number of a command line with
`strtoul`, `strtol`, `strtoull` and `strtoll`, whose results have 64 bits.

* `Denotes` says which integer a string denotes, in terms of its pieces: white space, a sign, digits, and behind them
  the end or white space;
* `strtoNumber_eq_some_iff` and `denotes_iff` relate it to what `strtol` reads;
* `Exact` says that a function accepts a string if and only if it denotes an integer of the output type, and returns
  that integer.  `safe_strtoll` is exact.  The others are exact except on the strings that `Confused` describes: the
  32 bit functions keep the low bits of a longer number, the unsigned ones accept a negative number below `-2^63`, and
  a minus sign behind a number of `2^63` or more makes them reject it (`number_exact_iff`).
-/

namespace BmcCache

/-! ### What a string denotes -/

/-- The bytes of an optional sign, and whether it is a minus sign. -/
def SignBytes (sign : Bytes) (negative : Bool) : Prop :=
  sign = [] ∧ negative = false ∨ sign = [43] ∧ negative = false ∨ sign = [45] ∧ negative = true

/-- **A number in front of a string**: white space, a sign, at least one digit, and the rest of the string. -/
def NumberFront (str : Bytes) (negative : Bool) (m : ℕ) (rest : Bytes) : Prop :=
  ∃ space sign digits, str = space ++ (sign ++ (digits ++ rest)) ∧ (∀ b ∈ space, isSpace b = true) ∧
    SignBytes sign negative ∧ digits ≠ [] ∧ (∀ b ∈ digits, isDigit b = true) ∧ digitsValue digits = m

def signedValue (negative : Bool) (m : ℕ) : ℤ := if negative then -m else m

/-- **The integer a string denotes**: behind the number is the end of the string, or white space. -/
def Denotes (str : Bytes) (z : ℤ) : Prop :=
  ∃ negative m rest, NumberFront str negative m rest ∧ (∀ b ∈ rest.head?, isSpace b = true) ∧
    z = signedValue negative m

theorem isSpace_of_isDigit {b : UInt8} (h : isDigit b = true) : isSpace b = false := by
  simp only [isDigit, Bool.and_eq_true, decide_eq_true_eq, UInt8.le_iff_toNat_le] at h
  simp only [isSpace, Bool.or_eq_false_iff, beq_eq_false_iff_ne, ne_eq, ← UInt8.toNat_inj, Bool.and_eq_false_iff,
    decide_eq_false_iff_not, UInt8.le_iff_toNat_le]
  simp at h ⊢
  omega

theorem isDigit_of_isSpace {b : UInt8} (h : isSpace b = true) : isDigit b = false := by
  cases hd : isDigit b with
  | false => rfl
  | true => rw [isSpace_of_isDigit hd] at h; cases h

theorem dropWhile_of_head {α : Type} {p : α → Bool} {front rest : List α} (hfront : ∀ b ∈ front, p b = true)
    (hrest : ∀ b ∈ rest.head?, p b = false) :
    (front ++ rest).dropWhile p = rest ∧ (front ++ rest).takeWhile p = front := by
  rw [List.dropWhile_append_of_pos hfront, List.takeWhile_append_of_pos hfront]
  cases rest with
  | nil => simp
  | cons r rest => simp [hrest r (by simp)]

/-- The head of what follows the white space: a sign or a digit, never white space. -/
theorem head_of_sign {sign digits rest : Bytes} {negative : Bool} (hsign : SignBytes sign negative)
    (hne : digits ≠ []) (hdigits : ∀ b ∈ digits, isDigit b = true) :
    ∀ b ∈ (sign ++ (digits ++ rest)).head?, isSpace b = false := by
  obtain ⟨d, ds, rfl⟩ := List.exists_cons_of_ne_nil hne
  rcases hsign with ⟨rfl, -⟩ | ⟨rfl, -⟩ | ⟨rfl, -⟩
  · intro b hb
    obtain rfl : d = b := by simpa using hb
    exact isSpace_of_isDigit (hdigits d (by simp))
  · intro b hb
    obtain rfl : 43 = b := by simpa using hb
    decide
  · intro b hb
    obtain rfl : 45 = b := by simpa using hb
    decide

theorem sign_read {sign digits rest : Bytes} {negative : Bool} (hsign : SignBytes sign negative)
    (hne : digits ≠ []) (hdigits : ∀ b ∈ digits, isDigit b = true) :
    decide ((sign ++ (digits ++ rest)).head? = some 45) = negative ∧
      (if (sign ++ (digits ++ rest)).head? = some 45 ∨ (sign ++ (digits ++ rest)).head? = some 43
        then (sign ++ (digits ++ rest)).tail else sign ++ (digits ++ rest)) = digits ++ rest := by
  obtain ⟨d, ds, rfl⟩ := List.exists_cons_of_ne_nil hne
  rcases hsign with ⟨rfl, rfl⟩ | ⟨rfl, rfl⟩ | ⟨rfl, rfl⟩
  · have hd := hdigits d (by simp)
    have hminus : d ≠ 45 := by rintro rfl; exact absurd hd (by decide)
    have hplus : d ≠ 43 := by rintro rfl; exact absurd hd (by decide)
    simp [hminus, hplus]
  · simp
  · simp

theorem sign_split (s : Bytes) : ∃ sign, SignBytes sign (decide (s.head? = some 45)) ∧
    s = sign ++ (if s.head? = some 45 ∨ s.head? = some 43 then s.tail else s) ∧
    (sign = [] → s.head? ≠ some 45 ∧ s.head? ≠ some 43) := by
  by_cases hminus : s.head? = some 45
  · obtain ⟨tail, rfl⟩ := List.head?_eq_some_iff.mp hminus
    exact ⟨[45], Or.inr (Or.inr ⟨rfl, by simp⟩), by simp, by simp⟩
  by_cases hplus : s.head? = some 43
  · obtain ⟨tail, rfl⟩ := List.head?_eq_some_iff.mp hplus
    exact ⟨[43], Or.inr (Or.inl ⟨rfl, by simp⟩), by simp, by simp⟩
  · exact ⟨[], Or.inl ⟨rfl, by simp [hminus]⟩, by simp [hminus, hplus], fun _ => ⟨hminus, hplus⟩⟩

theorem head_dropWhile {α : Type} (p : α → Bool) (s : List α) : ∀ b ∈ (s.dropWhile p).head?, p b = false := by
  intro b hb
  have h := List.head?_dropWhile_not p s
  rw [Option.mem_def] at hb
  simpa only [hb] using h

/-- **`strtol` reads the number in front of the string**, up to the first byte that is not a digit. -/
theorem strtoNumber_eq_some_iff {str rest : Bytes} {negative : Bool} {m : ℕ} :
    strtoNumber str = some (negative, m, rest) ↔
      NumberFront str negative m rest ∧ ∀ b ∈ rest.head?, isDigit b = false := by
  constructor
  · intro h
    obtain ⟨sign, hsign, hsplit, -⟩ := sign_split (str.dropWhile isSpace)
    unfold strtoNumber at h
    dsimp only at h
    generalize (if (str.dropWhile isSpace).head? = some 45 ∨ (str.dropWhile isSpace).head? = some 43
      then (str.dropWhile isSpace).tail else str.dropWhile isSpace) = s at h hsplit
    by_cases hdigits : s.takeWhile isDigit = []
    · rw [if_pos hdigits] at h
      cases h
    rw [if_neg hdigits] at h
    simp only [Option.some.injEq, Prod.mk.injEq] at h
    obtain ⟨rfl, rfl, rfl⟩ := h
    refine ⟨⟨str.takeWhile isSpace, sign, s.takeWhile isDigit, ?_, fun b hb => List.mem_takeWhile_imp hb, hsign,
      hdigits, fun b hb => List.mem_takeWhile_imp hb, rfl⟩, head_dropWhile isDigit s⟩
    rw [List.takeWhile_append_dropWhile, ← hsplit, List.takeWhile_append_dropWhile]
  · rintro ⟨⟨space, sign, digits, rfl, hspace, hsign, hne, hdigits, hval⟩, hrest⟩
    obtain ⟨hneg, htail⟩ := @sign_read _ _ rest _ hsign hne hdigits
    obtain ⟨hdrop, htake⟩ := dropWhile_of_head hdigits hrest
    unfold strtoNumber
    dsimp only
    rw [(dropWhile_of_head hspace (head_of_sign hsign hne hdigits)).1, htail, htake, hdrop, hneg, if_neg hne, hval]

/-- **The integer a string denotes is the one `strtol` reads.** -/
theorem denotes_iff {str : Bytes} {z : ℤ} :
    Denotes str z ↔ ∃ negative m rest, strtoNumber str = some (negative, m, rest) ∧ endsNumber rest = true ∧
      z = signedValue negative m := by
  have hends : ∀ rest : Bytes, endsNumber rest = true ↔ ∀ b ∈ rest.head?, isSpace b = true := by
    intro rest
    cases rest with
    | nil => simp [endsNumber]
    | cons r rest => simp [endsNumber]
  constructor
  · rintro ⟨negative, m, rest, hfront, hspace, hz⟩
    exact ⟨negative, m, rest,
      strtoNumber_eq_some_iff.mpr ⟨hfront, fun b hb => isDigit_of_isSpace (hspace b hb)⟩,
        (hends rest).mpr hspace, hz⟩
  · rintro ⟨negative, m, rest, hread, hrest, hz⟩
    exact ⟨negative, m, rest, (strtoNumber_eq_some_iff.mp hread).1, (hends rest).mp hrest, hz⟩

theorem not_denotes_of_none {str : Bytes} (h : strtoNumber str = none) (z : ℤ) : ¬ Denotes str z := by
  rw [denotes_iff, h]
  rintro ⟨negative, m, rest, hread, -⟩
  cases hread

theorem denotes_of_some {str rest : Bytes} {negative : Bool} {m : ℕ}
    (h : strtoNumber str = some (negative, m, rest)) (z : ℤ) :
    Denotes str z ↔ endsNumber rest = true ∧ z = signedValue negative m := by
  rw [denotes_iff, h]
  constructor
  · rintro ⟨negative', m', rest', hread, hz⟩
    cases hread
    exact hz
  · intro hz
    exact ⟨negative, m, rest, rfl, hz⟩

theorem Denotes.unique {str : Bytes} {z z' : ℤ} (h : Denotes str z) (h' : Denotes str z') : z = z' := by
  obtain ⟨negative, m, rest, hread, -, rfl⟩ := denotes_iff.mp h
  exact ((denotes_of_some hread z').mp h').2.symm

theorem safeStrtol_eq_some_iff {str : Bytes} {v : ℤ} :
    safeStrtol str = some v ↔ ∃ z, Denotes str z ∧ -2 ^ 63 ≤ z ∧ z < 2 ^ 63 ∧ v = toInt32 z := by
  unfold safeStrtol
  cases hread : strtoNumber str with
  | none => simp [not_denotes_of_none hread]
  | some r =>
    simp only [denotes_of_some hread, signedValue]
    split_ifs <;> grind

theorem safeStrtoll_eq_some_iff {str : Bytes} {v : ℤ} :
    safeStrtoll str = some v ↔ Denotes str v ∧ -2 ^ 63 ≤ v ∧ v < 2 ^ 63 := by
  unfold safeStrtoll
  cases hread : strtoNumber str with
  | none => simp [not_denotes_of_none hread]
  | some r =>
    simp only [denotes_of_some hread, signedValue]
    split_ifs <;> grind

/-! ### The four functions -/

/-- The type of `*out`. -/
inductive NumberType where
  | uint32
  | int32
  | uint64
  | int64
  deriving DecidableEq, Repr

def NumberType.min : NumberType → ℤ
  | .uint32 => 0
  | .int32 => -2 ^ 31
  | .uint64 => 0
  | .int64 => -2 ^ 63

def NumberType.max : NumberType → ℤ
  | .uint32 => 2 ^ 32 - 1
  | .int32 => 2 ^ 31 - 1
  | .uint64 => 2 ^ 64 - 1
  | .int64 => 2 ^ 63 - 1

/-- The function of util.c for the type: `*out` when it returns true. -/
def NumberType.safeStrto : NumberType → Bytes → Option ℤ
  | .uint32, str => (safeStrtoul str).map Nat.cast
  | .int32, str => safeStrtol str
  | .uint64, str => (safeStrtoull str).map Nat.cast
  | .int64, str => safeStrtoll str

/-- **Exact**: the string is accepted if and only if it denotes an integer of the type, and that integer is the
result. -/
def NumberType.Exact (t : NumberType) (str : Bytes) : Prop :=
  ∀ z, t.safeStrto str = some z ↔ Denotes str z ∧ t.min ≤ z ∧ z ≤ t.max

/-- **The numbers a function takes for others.**  An `int32_t` keeps the low bits of a longer number, and so does a
`uint32_t`.  `strtoul` negates the magnitude of a negative number, and the sign is only looked for when the result has
the top bit: what is below `-2^63` passes, and a minus sign anywhere makes a number with the top bit fail. -/
def NumberType.Confused : NumberType → Bytes → ℤ → Prop
  | .uint32, str, z => (-2 ^ 64 < z ∧ z < -2 ^ 63) ∨ (2 ^ 32 ≤ z ∧ z < 2 ^ 63) ∨
      (2 ^ 63 ≤ z ∧ z < 2 ^ 64 ∧ 45 ∉ str)
  | .int32, _, z => (-2 ^ 63 ≤ z ∧ z < -2 ^ 31) ∨ (2 ^ 31 ≤ z ∧ z < 2 ^ 63)
  | .uint64, str, z => (-2 ^ 64 < z ∧ z < -2 ^ 63) ∨ (2 ^ 63 ≤ z ∧ z < 2 ^ 64 ∧ 45 ∈ str)
  | .int64, _, _ => False

section Exactness

variable {str rest : Bytes} {negative : Bool} {m : ℕ}

theorem minus_mem (hread : strtoNumber str = some (true, m, rest)) : 45 ∈ str := by
  obtain ⟨⟨space, sign, digits, rfl, -, hsign, -⟩, -⟩ := strtoNumber_eq_some_iff.mp hread
  rcases hsign with ⟨-, hneg⟩ | ⟨-, hneg⟩ | ⟨rfl, -⟩
  · cases hneg
  · cases hneg
  · simp

/-- Nothing is read: the string denotes no integer, and all four functions return false. -/
theorem NumberType.safeStrto_none (t : NumberType) (h : strtoNumber str = none ∨
    ∃ negative m rest, strtoNumber str = some (negative, m, rest) ∧ endsNumber rest = false) :
    t.safeStrto str = none := by
  rcases h with h | ⟨negative, m, rest, h, hends⟩
  · cases t <;> simp [NumberType.safeStrto, safeStrtoul, safeStrtoull, safeStrtol, safeStrtoll, h]
  · cases t <;> simp [NumberType.safeStrto, safeStrtoul, safeStrtoull, safeStrtol, safeStrtoll, h, hends]

theorem safeStrtol_read (hread : strtoNumber str = some (negative, m, rest)) (hends : endsNumber rest = true) :
    safeStrtol str = if signedValue negative m < -2 ^ 63 ∨ 2 ^ 63 ≤ signedValue negative m then none
      else some (toInt32 (signedValue negative m)) := by
  unfold safeStrtol
  rw [hread]
  dsimp only
  rw [if_pos hends]
  rfl

theorem safeStrtoll_read (hread : strtoNumber str = some (negative, m, rest)) (hends : endsNumber rest = true) :
    safeStrtoll str = if signedValue negative m < -2 ^ 63 ∨ 2 ^ 63 ≤ signedValue negative m then none
      else some (signedValue negative m) := by
  unfold safeStrtoll
  rw [hread]
  dsimp only
  rw [if_pos hends]
  rfl

theorem safeStrtoull_read (hread : strtoNumber str = some (negative, m, rest)) (hends : endsNumber rest = true) :
    safeStrtoull str = if 2 ^ 64 ≤ m then none
      else if 2 ^ 63 ≤ (if negative then (2 ^ 64 - m) % 2 ^ 64 else m) ∧ 45 ∈ str then none
      else some (if negative then (2 ^ 64 - m) % 2 ^ 64 else m) := by
  unfold safeStrtoull
  rw [hread]
  dsimp only
  rw [if_pos hends]

/-- What a string denotes is one integer, so that exactness is one equation. -/
theorem NumberType.exact_iff_eq {t : NumberType} {lo hi : ℤ} (hlo : t.min = lo) (hhi : t.max = hi)
    (hread : strtoNumber str = some (negative, m, rest)) (hends : endsNumber rest = true) :
    t.Exact str ↔ t.safeStrto str
      = if lo ≤ signedValue negative m ∧ signedValue negative m ≤ hi then some (signedValue negative m)
        else none := by
  subst hlo hhi
  have hden : ∀ z, Denotes str z ∧ t.min ≤ z ∧ z ≤ t.max ↔
      (if t.min ≤ signedValue negative m ∧ signedValue negative m ≤ t.max
        then some (signedValue negative m) else none)
        = some z := by
    intro z
    rw [denotes_of_some hread]
    split
    · rename_i hrange
      constructor
      · rintro ⟨⟨-, rfl⟩, -⟩
        rfl
      · intro hz
        cases hz
        exact ⟨⟨hends, rfl⟩, hrange⟩
    · rename_i hrange
      constructor
      · rintro ⟨⟨-, rfl⟩, hz⟩
        exact absurd hz hrange
      · intro hz
        cases hz
  unfold NumberType.Exact
  constructor
  · intro h
    exact Option.ext fun z => (h z).trans (hden z)
  · intro h z
    rw [h, hden]

theorem int64_exact (hread : strtoNumber str = some (negative, m, rest)) (hends : endsNumber rest = true) :
    NumberType.int64.Exact str := by
  rw [NumberType.exact_iff_eq (show NumberType.int64.min = -2 ^ 63 from rfl)
    (show NumberType.int64.max = 2 ^ 63 - 1 from rfl)
    hread hends]
  show safeStrtoll str = _
  rw [safeStrtoll_read hread hends]
  generalize signedValue negative m = v
  by_cases hlong : v < -2 ^ 63 ∨ 2 ^ 63 ≤ v
  · rw [if_pos hlong, if_neg (by omega)]
  · rw [if_neg hlong, if_pos (by omega)]

theorem int32_exact_iff (hread : strtoNumber str = some (negative, m, rest)) (hends : endsNumber rest = true) :
    NumberType.int32.Exact str ↔ ¬ NumberType.int32.Confused str (signedValue negative m) := by
  rw [NumberType.exact_iff_eq (show NumberType.int32.min = -2 ^ 31 from rfl)
    (show NumberType.int32.max = 2 ^ 31 - 1 from rfl)
    hread hends]
  show safeStrtol str = _ ↔ _
  rw [safeStrtol_read hread hends]
  generalize signedValue negative m = v
  simp only [NumberType.Confused]
  by_cases hlong : v < -2 ^ 63 ∨ 2 ^ 63 ≤ v
  · rw [if_pos hlong, if_neg (by omega)]
    exact iff_of_true rfl (by omega)
  rw [if_neg hlong]
  by_cases hint : -2 ^ 31 ≤ v ∧ v ≤ 2 ^ 31 - 1
  · rw [if_pos hint]
    refine iff_of_true ?_ (by omega)
    unfold toInt32
    rw [Option.some.injEq]
    split <;> omega
  · rw [if_neg hint]
    exact iff_of_false ((by intro h; cases h)) (by omega)

/-- The result of `safe_strtoull` in the four ranges of a number. -/
theorem safeStrtoull_cases (hread : strtoNumber str = some (negative, m, rest)) (hends : endsNumber rest = true)
    {v : ℤ} (hv : v = signedValue negative m) :
    (v ≤ -2 ^ 64 ∨ -2 ^ 63 ≤ v ∧ v < 0 ∨ 2 ^ 64 ≤ v) ∧ safeStrtoull str = none ∨
    (-2 ^ 64 < v ∧ v < -2 ^ 63) ∧ safeStrtoull str = some (v + 2 ^ 64).toNat ∨
    (0 ≤ v ∧ v < 2 ^ 63) ∧ safeStrtoull str = some v.toNat ∨
    (2 ^ 63 ≤ v ∧ v < 2 ^ 64) ∧ safeStrtoull str = if 45 ∈ str then none else some v.toNat := by
  rw [safeStrtoull_read hread hends]
  cases negative with
  | true =>
    have hminus := minus_mem hread
    obtain rfl : v = -(m : ℤ) := hv
    simp only [if_true, hminus, and_true]
    by_cases hrange : 2 ^ 64 ≤ m
    · rw [if_pos hrange]
      exact Or.inl ⟨by omega, rfl⟩
    rw [if_neg hrange]
    by_cases htop : 2 ^ 63 ≤ (2 ^ 64 - m) % 2 ^ 64
    · rw [if_pos htop]
      exact Or.inl ⟨by omega, rfl⟩
    rw [if_neg htop]
    by_cases hzero : m = 0
    · exact Or.inr (Or.inr (Or.inl ⟨by omega, by subst hzero; rfl⟩))
    · exact Or.inr (Or.inl ⟨by omega, by rw [Option.some.injEq]; omega⟩)
  | false =>
    obtain rfl : v = (m : ℤ) := hv
    simp only [Bool.false_eq_true, if_false, Int.toNat_natCast]
    by_cases hrange : 2 ^ 64 ≤ m
    · rw [if_pos hrange]
      exact Or.inl ⟨by omega, rfl⟩
    rw [if_neg hrange]
    by_cases htop : 2 ^ 63 ≤ m
    · exact Or.inr (Or.inr (Or.inr ⟨by omega, by simp only [htop, true_and]⟩))
    · rw [if_neg (fun h => htop h.1)]
      exact Or.inr (Or.inr (Or.inl ⟨by omega, rfl⟩))

theorem uint64_exact_iff (hread : strtoNumber str = some (negative, m, rest)) (hends : endsNumber rest = true) :
    NumberType.uint64.Exact str ↔ ¬ NumberType.uint64.Confused str (signedValue negative m) := by
  rw [NumberType.exact_iff_eq (show NumberType.uint64.min = 0 from rfl)
    (show NumberType.uint64.max = 2 ^ 64 - 1 from rfl)
    hread hends]
  show (safeStrtoull str).map Nat.cast = _ ↔ _
  have hcases := safeStrtoull_cases hread hends rfl
  generalize signedValue negative m = v at hcases
  simp only [NumberType.Confused]
  rcases hcases with ⟨hv, hres⟩ | ⟨hv, hres⟩ | ⟨hv, hres⟩ | ⟨hv, hres⟩
  · rw [hres, if_neg (by omega)]
    exact iff_of_true rfl (by omega)
  · rw [hres, if_neg (by omega)]
    exact iff_of_false ((by intro h; cases h)) (by omega)
  · rw [hres, if_pos (by omega)]
    refine iff_of_true ?_ (by omega)
    rw [Option.map_some, Int.toNat_of_nonneg hv.1]
  · rw [hres, if_pos (show 0 ≤ v ∧ v ≤ 2 ^ 64 - 1 by omega)]
    by_cases hminus : 45 ∈ str
    · rw [if_pos hminus]
      exact iff_of_false ((by intro h; cases h)) (fun h => h (Or.inr ⟨hv.1, hv.2, hminus⟩))
    · rw [if_neg hminus]
      refine iff_of_true ?_ (fun h => h.elim (fun h => by omega) (fun h => hminus h.2.2))
      rw [Option.map_some, Int.toNat_of_nonneg (by omega)]

theorem uint32_exact_iff (hread : strtoNumber str = some (negative, m, rest)) (hends : endsNumber rest = true) :
    NumberType.uint32.Exact str ↔ ¬ NumberType.uint32.Confused str (signedValue negative m) := by
  rw [NumberType.exact_iff_eq (show NumberType.uint32.min = 0 from rfl)
    (show NumberType.uint32.max = 2 ^ 32 - 1 from rfl)
    hread hends]
  show ((safeStrtoull str).map (· % 2 ^ 32)).map Nat.cast = _ ↔ _
  have hcases := safeStrtoull_cases hread hends rfl
  generalize signedValue negative m = v at hcases
  simp only [NumberType.Confused]
  rcases hcases with ⟨hv, hres⟩ | ⟨hv, hres⟩ | ⟨hv, hres⟩ | ⟨hv, hres⟩
  · rw [hres, if_neg (by omega)]
    exact iff_of_true rfl (by omega)
  · rw [hres, if_neg (by omega)]
    exact iff_of_false ((by intro h; cases h)) (by omega)
  · rw [hres]
    by_cases hlow : v < 2 ^ 32
    · rw [if_pos (by omega)]
      refine iff_of_true ?_ (by omega)
      rw [Option.map_some, Option.map_some, Nat.mod_eq_of_lt (by omega), Int.toNat_of_nonneg hv.1]
    · rw [if_neg (by omega)]
      exact iff_of_false ((by intro h; cases h)) (by omega)
  · rw [hres, if_neg (show ¬ (0 ≤ v ∧ v ≤ 2 ^ 32 - 1) by omega)]
    by_cases hminus : 45 ∈ str
    · rw [if_pos hminus]
      exact iff_of_true rfl (fun h => by
        rcases h with h | h | h
        · omega
        · omega
        · exact h.2.2 hminus)
    · rw [if_neg hminus]
      exact iff_of_false ((by intro h; cases h)) (fun h => h (Or.inr (Or.inr ⟨hv.1, hv.2, hminus⟩)))

end Exactness

/-- **Which strings are read exactly**, for each of the four functions. -/
theorem number_exact_iff (t : NumberType) (str : Bytes) :
    t.Exact str ↔ ∀ z, Denotes str z → ¬ t.Confused str z := by
  cases hread : strtoNumber str with
  | none =>
    refine iff_of_true (fun z => ?_) (fun z hz => absurd hz (not_denotes_of_none hread z))
    rw [t.safeStrto_none (Or.inl hread)]
    exact iff_of_false ((by intro h; cases h)) (fun h => not_denotes_of_none hread z h.1)
  | some r =>
    obtain ⟨negative, m, rest⟩ := r
    cases hends : endsNumber rest with
    | false =>
      have hnot : ∀ z, ¬ Denotes str z := by
        intro z hz
        rw [denotes_of_some hread, hends] at hz
        cases hz.1
      refine iff_of_true (fun z => ?_) (fun z hz => absurd hz (hnot z))
      rw [t.safeStrto_none (Or.inr ⟨negative, m, rest, hread, hends⟩)]
      exact iff_of_false ((by intro h; cases h)) (fun h => hnot z h.1)
    | true =>
      have hone : (∀ z, Denotes str z → ¬ t.Confused str z) ↔ ¬ t.Confused str (signedValue negative m) := by
        constructor
        · intro h
          exact h _ ((denotes_of_some hread _).mpr ⟨hends, rfl⟩)
        · intro h z hz
          rw [((denotes_of_some hread z).mp hz).2]
          exact h
      rw [hone]
      cases t with
      | uint32 => exact uint32_exact_iff hread hends
      | int32 => exact int32_exact_iff hread hends
      | uint64 => exact uint64_exact_iff hread hends
      | int64 => exact iff_of_true (int64_exact hread hends) (fun h => h)

def overlongLength : Bytes := [52, 50, 57, 52, 57, 54, 55, 50, 57, 55]

/-- **A length of `2^32 + 1` is read as 1**, and so are flags of `2^32 + 1`. -/
theorem number_wraps :
    Denotes overlongLength 4294967297 ∧ safeStrtol overlongLength = some 1 ∧ safeStrtoul overlongLength = some 1 ∧
      ¬ NumberType.int32.Exact overlongLength ∧ ¬ NumberType.uint32.Exact overlongLength := by
  have hread : strtoNumber overlongLength = some (false, 4294967297, []) := by decide
  have hden : Denotes overlongLength 4294967297 := denotes_iff.mpr ⟨false, 4294967297, [], hread, by decide, rfl⟩
  have hint : safeStrtol overlongLength = some 1 := by decide
  have huint : safeStrtoul overlongLength = some 1 := by decide
  refine ⟨hden, hint, huint, ?_, ?_⟩
  · intro h
    have hone := ((h 1).mp hint).1
    exact absurd ((denotes_of_some hread 1).mp hone).2 (by decide)
  · intro h
    have hone := ((h 1).mp (show (safeStrtoul overlongLength).map Nat.cast = some 1 by rw [huint]; rfl)).1
    exact absurd ((denotes_of_some hread 1).mp hone).2 (by decide)

end BmcCache
