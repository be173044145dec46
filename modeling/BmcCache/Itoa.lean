import Mathlib.Tactic.IntervalCases
import BmcCache.TextCommands
import BmcCache.Memcached

/-!
# Numbers as text: `itoa_ljust.c`

* `padded` — a number with a fixed count of digits; how decimal texts are put together (`itoa_append_padded`);
* `itoaU32`, `itoaU64` — the conversions, two digits at a time; they are `itoa` (`itoaU32_eq`, `itoaU64_eq`);
* what `strtoull` reads is what was written (`digitsValue_itoa`).
-/

namespace BmcCache

open List

/-! ### Decimal texts -/

/-- `'0' + d` -/
def decDigit (d : ℕ) : UInt8 := UInt8.ofNat (48 + d)

variable {d n u : ℕ}

theorem digitChar_toUInt8 (hd : d < 10) : UInt8.ofNat (Nat.digitChar d).toNat = decDigit d := by
  interval_cases d <;> rfl

theorem itoa_eq_if (n : ℕ) : itoa n = if n < 10 then [decDigit n] else itoa (n / 10) ++ [decDigit (n % 10)] := by
  unfold itoa
  rw [Nat.toDigits_eq_if (by omega)]
  split
  · rename_i hlt
    rw [map_cons, map_nil, digitChar_toUInt8 hlt]
  · rw [map_append, map_cons, map_nil, digitChar_toUInt8 (Nat.mod_lt _ (by omega))]

theorem itoa_of_lt (hn : n < 10) : itoa n = [decDigit n] := by rw [itoa_eq_if, if_pos hn]

/-- The last `k` digits. -/
def padded : ℕ → ℕ → Bytes
  | 0, _ => []
  | k + 1, n => padded k (n / 10) ++ [decDigit (n % 10)]

theorem padded_mod (k n : ℕ) : padded k (n % 10 ^ k) = padded k n := by
  induction k generalizing n with
  | zero => rfl
  | succ k ih =>
    have hhigh : n % 10 ^ (k + 1) / 10 = n / 10 % 10 ^ k := by
      rw [Nat.pow_succ']
      exact Nat.mod_mul_right_div_self n 10 (10 ^ k)
    have hlow : n % 10 ^ (k + 1) % 10 = n % 10 := Nat.mod_mod_of_dvd n (Dvd.intro_left _ rfl)
    rw [padded, padded, hhigh, hlow, ih]

theorem padded_add (a b n : ℕ) : padded (a + b) n = padded a (n / 10 ^ b) ++ padded b n := by
  induction b generalizing n with
  | zero => simp [padded]
  | succ b ih =>
    rw [show a + (b + 1) = a + b + 1 from rfl, padded, padded, ih, append_assoc, Nat.div_div_eq_div_mul,
      Nat.pow_succ']

/-- **A decimal text cut at its last `k` digits.** -/
theorem itoa_append_padded (k : ℕ) (h : 10 ^ k ≤ n) : itoa n = itoa (n / 10 ^ k) ++ padded k n := by
  induction k generalizing n with
  | zero => simp [padded]
  | succ k ih =>
    have hpos : 0 < 10 ^ k := Nat.pos_of_ne_zero (by simp)
    rw [Nat.pow_succ] at h
    have hge : 10 ^ k ≤ n / 10 := by omega
    rw [itoa_eq_if, if_neg (by omega), ih hge, padded, append_assoc, Nat.div_div_eq_div_mul, Nat.pow_succ']

theorem itoa_length_le {k : ℕ} (hk : 1 ≤ k) (h : n < 10 ^ k) : (itoa n).length ≤ k := by
  induction k generalizing n with
  | zero => omega
  | succ k ih =>
    rw [itoa_eq_if]
    split
    · simp
    · rename_i hge
      rw [Nat.pow_succ] at h
      have hk' : 1 ≤ k := by
        by_contra hzero
        obtain rfl : k = 0 := by omega
        omega
      have := ih hk' (n := n / 10) (by omega)
      rw [length_append, length_singleton]
      omega

theorem itoa_ne_nil (n : ℕ) : itoa n ≠ [] := by
  rw [itoa_eq_if]
  split <;> simp

theorem decDigit_toNat (hd : d < 10) : (decDigit d).toNat = 48 + d := by
  rw [decDigit, UInt8.toNat_ofNat_of_lt' (by rw [UInt8.size]; omega)]

theorem isDigit_decDigit (hd : d < 10) : isDigit (decDigit d) = true := by
  have h := decDigit_toNat hd
  simp only [isDigit, Bool.and_eq_true, decide_eq_true_eq, UInt8.le_iff_toNat_le, h]
  constructor
  · simp
  · simp
    omega

theorem isDigit_itoa (n : ℕ) : ∀ b ∈ itoa n, isDigit b = true := by
  induction n using Nat.strongRecOn with
  | ind n ih =>
    intro b hb
    rw [itoa_eq_if] at hb
    split at hb
    · rename_i hlt
      rw [mem_singleton.mp hb]
      exact isDigit_decDigit hlt
    · rcases mem_append.mp hb with hb | hb
      · exact ih (n / 10) (by omega) b hb
      · rw [mem_singleton.mp hb]
        exact isDigit_decDigit (Nat.mod_lt _ (by omega))

theorem digitsValue_append_digit (ds : Bytes) (hd : d < 10) :
    digitsValue (ds ++ [decDigit d]) = 10 * digitsValue ds + d := by
  rw [digitsValue, foldl_append, foldl_cons, foldl_nil, decDigit_toNat hd, Nat.add_sub_cancel_left]
  rfl

/-- **What is written is read back.** -/
theorem digitsValue_itoa (n : ℕ) : digitsValue (itoa n) = n := by
  induction n using Nat.strongRecOn with
  | ind n ih =>
    rw [itoa_eq_if]
    split
    · rename_i hlt
      have h := digitsValue_append_digit [] hlt
      rw [nil_append] at h
      rw [h]
      simp [digitsValue]
    · rw [digitsValue_append_digit _ (Nat.mod_lt n (by omega)), ih (n / 10) (by omega)]
      omega

/-! ### `itoa_ljust.c` -/

/-- `out2`: the two characters of the table `lut` -/
def out2 (d : ℕ) : Bytes := [decDigit (d / 10), decDigit (d % 10)]

/-- The even cases of the `switch` in `itoa`, from case `2 * j` on: two digits, and what is left of `u`. -/
def outPairs : ℕ → ℕ → Bytes
  | 0, _ => []
  | j + 1, u =>
    let d := u / 100 ^ j
    out2 d ++ outPairs j (u - d * 100 ^ j)

/-- `digits(u, 100 ^ j, &d, &p, 2 * j + 2)` and then `itoa`: an odd number of digits begins with a single one, which
is taken off `u` in case `2 * j + 1`. -/
def digitsAndItoa (j u : ℕ) : Bytes :=
  if u < 100 ^ j * 10 then
    let d := u / 100 ^ j
    decDigit d :: outPairs j (u - d * 100 ^ j)
  else outPairs (j + 1) u

def itoaU32 (u : ℕ) : Bytes :=
  if 100000000 ≤ u then digitsAndItoa 4 u
  else if u < 100 then digitsAndItoa 0 u
  else if u < 10000 then digitsAndItoa 1 u
  else if u < 1000000 then digitsAndItoa 2 u
  else digitsAndItoa 3 u

/-- `itoa_u64`; a number of 64 bits needs at most three calls. -/
def itoaU64 : ℕ → ℕ → Bytes
  | 0, _ => []
  | calls + 1, u =>
    if u < 2 ^ 32 then itoaU32 u
    else
      let upper := u / 1000000000
      let lower := u - upper * 1000000000
      let d := lower / 100000000
      itoaU64 calls upper ++ decDigit d :: outPairs 4 (lower - d * 100000000)

theorem out2_eq (hd : d < 100) : out2 d = padded 2 d := by
  simp only [out2, padded, nil_append, cons_append]
  rw [Nat.mod_eq_of_lt (show d / 10 < 10 by omega)]

theorem sub_div_mul (u m : ℕ) : u - u / m * m = u % m := by
  have := Nat.div_add_mod u m
  rw [Nat.mul_comm] at this
  omega

theorem outPairs_eq (j : ℕ) (hu : u < 100 ^ j) : outPairs j u = padded (2 * j) u := by
  induction j generalizing u with
  | zero => rfl
  | succ j ih =>
    have hpow : 100 ^ j = 10 ^ (2 * j) := by rw [Nat.pow_mul]
    have hpos : 0 < 100 ^ j := Nat.pos_of_ne_zero (by simp)
    have hd : u / 100 ^ j < 100 := by
      rw [Nat.div_lt_iff_lt_mul hpos, ← Nat.pow_succ']
      exact hu
    rw [outPairs, out2_eq hd, sub_div_mul, ih (Nat.mod_lt _ hpos), show 2 * (j + 1) = 2 + 2 * j from by omega,
      padded_add, hpow, padded_mod]

theorem digit_cons_padded (k : ℕ) (hu : u < 10 ^ k * 10) : decDigit (u / 10 ^ k) :: padded k u =
    padded (k + 1) u := by
  have hd : u / 10 ^ k < 10 := (Nat.div_lt_iff_lt_mul (Nat.pos_of_ne_zero (by simp))).mpr (by omega)
  rw [Nat.add_comm k 1, padded_add]
  simp [padded, Nat.mod_eq_of_lt hd]

theorem itoa_eq_padded (k : ℕ) (hlow : k = 0 ∨ 10 ^ k ≤ u) (hhigh : u < 10 ^ k * 10) :
    itoa u = padded (k + 1) u := by
  have hd : u / 10 ^ k < 10 := (Nat.div_lt_iff_lt_mul (Nat.pos_of_ne_zero (by simp))).mpr (by omega)
  rw [← digit_cons_padded k hhigh]
  rcases hlow with rfl | hlow
  · rw [Nat.pow_zero, Nat.div_one] at hd ⊢
    rw [itoa_of_lt hd]
    rfl
  · rw [itoa_append_padded k hlow, itoa_of_lt hd]
    rfl

/-- **The digits of a number of `2 * j + 1` or `2 * j + 2` of them.** -/
theorem digitsAndItoa_eq (j : ℕ) (hlow : j = 0 ∨ 100 ^ j ≤ u) (hhigh : u < 100 ^ (j + 1)) :
    digitsAndItoa j u = itoa u := by
  have hpow : 100 ^ j = 10 ^ (2 * j) := by rw [Nat.pow_mul]
  have hpos : 0 < 100 ^ j := Nat.pos_of_ne_zero (by simp)
  unfold digitsAndItoa
  split
  · rename_i hsingle
    dsimp only
    rw [sub_div_mul, outPairs_eq j (Nat.mod_lt _ hpos)]
    rw [hpow] at hlow hsingle ⊢
    rw [padded_mod, digit_cons_padded _ hsingle, itoa_eq_padded (2 * j) (by omega) hsingle]
  · rename_i hmany
    rw [outPairs_eq _ hhigh, show 2 * (j + 1) = 2 * j + 1 + 1 from by omega, itoa_eq_padded]
    · right
      rw [Nat.pow_succ, ← hpow]
      omega
    · rw [Nat.pow_succ, ← hpow]
      rw [Nat.pow_succ] at hhigh
      omega

theorem itoaU32_eq (hu : u < 2 ^ 32) : itoaU32 u = itoa u := by
  unfold itoaU32
  split
  · exact digitsAndItoa_eq 4 (.inr (by omega)) (by omega)
  split
  · exact digitsAndItoa_eq 0 (.inl rfl) (by omega)
  split
  · exact digitsAndItoa_eq 1 (.inr (by omega)) (by omega)
  split
  · exact digitsAndItoa_eq 2 (.inr (by omega)) (by omega)
  · exact digitsAndItoa_eq 3 (.inr (by omega)) (by omega)

/-- **`itoa_u64`** writes the decimal text.  The induction is on the calls. -/
theorem itoaU64_eq (calls : ℕ) (hu : u < 2 ^ 32 * 1000000000 ^ calls) : itoaU64 (calls + 1) u = itoa u := by
  induction calls generalizing u with
  | zero =>
    rw [itoaU64, if_pos (by omega), itoaU32_eq (by omega)]
  | succ calls ih =>
    rw [itoaU64]
    split
    · rename_i hsmall
      exact itoaU32_eq hsmall
    · rename_i hbig
      dsimp only
      have hupper : u / 1000000000 < 2 ^ 32 * 1000000000 ^ calls := by
        rw [Nat.div_lt_iff_lt_mul (by omega), Nat.mul_assoc, ← Nat.pow_succ]
        exact hu
      have hlow := sub_div_mul u 1000000000
      have hdigit : decDigit (u % 1000000000 / 100000000) :: padded 8 (u % 1000000000) = padded 9 (u % 1000000000) :=
        digit_cons_padded 8 (by omega)
      have hpairs : outPairs 4 (u % 1000000000 % 100000000) = padded 8 (u % 1000000000) :=
        (outPairs_eq 4 (by omega)).trans (padded_mod 8 _)
      have hcut : itoa u = itoa (u / 1000000000) ++ padded 9 u := itoa_append_padded 9 (by omega)
      rw [ih hupper, hlow, sub_div_mul (u % 1000000000) 100000000, hpairs, hdigit, hcut]
      exact congrArg _ (padded_mod 9 u)

end BmcCache
