import Mathlib.Data.Nat.ModEq
import Mathlib.Algebra.BigOperators.Group.List.Basic
import Mathlib.Tactic.Ring

/-!
# One's-complement sums

Words run from 0 to `m`, which is one less than a power of the base; a carry out of a word is added at its lower end.
So a sum is known modulo `m`, and 0 and `m` are the two ways to write zero.

* `sum_modEq`, `sum_le`, `sum_eq_zero` — a sum is the number between 0 and `m` with the residue of the ordinary
  sum, and it is 0 only if every word is;
* `sum_eq_top` — the test of a receiver;
* `sum_swap_eq_top` — the test does not depend on the order of the two halves of each word.
-/

namespace OnesComplement

def add (m a b : ℕ) : ℕ := if a + b ≤ m then a + b else a + b - m

def sum (m : ℕ) (words : List ℕ) : ℕ := words.foldl (add m) 0

variable {m a b : ℕ} {words : List ℕ}

theorem add_modEq (m a b : ℕ) : add m a b ≡ a + b [MOD m] := by
  unfold add
  split
  · exact Nat.ModEq.refl _
  · rename_i hcarry
    exact (Nat.modEq_iff_dvd' (by omega)).mpr (by rw [Nat.sub_sub_self (by omega)])

theorem add_le (ha : a ≤ m) (hb : b ≤ m) : add m a b ≤ m := by
  unfold add
  split
  · assumption
  · omega

theorem add_eq_zero : add m a b = 0 ↔ a + b = 0 := by
  unfold add
  split
  · exact Iff.rfl
  · omega

theorem foldl_modEq (m acc : ℕ) (words : List ℕ) : words.foldl (add m) acc ≡ acc + words.sum [MOD m] := by
  induction words generalizing acc with
  | nil => exact Nat.ModEq.refl _
  | cons w words ih =>
    rw [List.foldl_cons, List.sum_cons, ← Nat.add_assoc]
    exact (ih _).trans ((add_modEq m acc w).add_right _)

theorem foldl_le {acc : ℕ} (hacc : acc ≤ m) (hwords : ∀ w ∈ words, w ≤ m) :
    words.foldl (add m) acc ≤ m := by
  induction words generalizing acc with
  | nil => exact hacc
  | cons w words ih =>
    exact ih (add_le hacc (hwords w List.mem_cons_self)) fun x hx => hwords x (List.mem_cons_of_mem _ hx)

theorem foldl_eq_zero {acc : ℕ} : words.foldl (add m) acc = 0 ↔ acc + words.sum = 0 := by
  induction words generalizing acc with
  | nil => exact Iff.rfl
  | cons w words ih =>
    rw [List.foldl_cons, ih, List.sum_cons, Nat.add_eq_zero_iff, add_eq_zero]
    omega

theorem sum_modEq (m : ℕ) (words : List ℕ) : sum m words ≡ words.sum [MOD m] := by
  have h := foldl_modEq m 0 words
  rwa [Nat.zero_add] at h

theorem sum_le (hwords : ∀ w ∈ words, w ≤ m) : sum m words ≤ m := foldl_le (Nat.zero_le m) hwords

theorem sum_eq_zero : sum m words = 0 ↔ words.sum = 0 := by
  rw [sum, foldl_eq_zero, Nat.zero_add]

/-- **The test of a receiver.** -/
theorem sum_eq_top (hm : 0 < m) (hwords : ∀ w ∈ words, w ≤ m) :
    sum m words = m ↔ 0 < words.sum ∧ m ∣ words.sum := by
  have hmod : m ∣ sum m words ↔ m ∣ words.sum := (sum_modEq m words).dvd_iff dvd_rfl
  constructor
  · intro htop
    refine ⟨?_, hmod.mp (dvd_of_eq htop.symm)⟩
    by_contra hzero
    have hsum : sum m words = 0 := sum_eq_zero.mpr (by omega)
    omega
  · rintro ⟨hpos, hdvd⟩
    have hne : sum m words ≠ 0 := fun hzero => hpos.ne' (sum_eq_zero.mp hzero)
    exact (sum_le hwords).antisymm (Nat.le_of_dvd (Nat.pos_of_ne_zero hne) (hmod.mpr hdvd))

/-! ### The order of the halves -/

def swap (base w : ℕ) : ℕ := w % base * base + w / base

variable {base : ℕ}

theorem base_sq_modEq (hbase : 1 < base) : base * base ≡ 1 [MOD base * base - 1] := by
  have hpos : 1 ≤ base * base := Nat.mul_pos (by omega) (by omega)
  exact ((Nat.modEq_iff_dvd' hpos).mpr dvd_rfl).symm

theorem swap_modEq (hbase : 1 < base) (w : ℕ) : swap base w ≡ base * w [MOD base * base - 1] := by
  have hcarry : w / base ≡ base * base * (w / base) [MOD base * base - 1] := by
    have h := (base_sq_modEq hbase).symm.mul_right (w / base)
    rwa [Nat.one_mul] at h
  have hdigits : base * w = w % base * base + base * base * (w / base) := by
    conv_lhs => rw [← Nat.div_add_mod w base]
    ring
  rw [swap, hdigits]
  exact hcarry.add_left _

theorem dvd_base_mul (hbase : 1 < base) (n : ℕ) : base * base - 1 ∣ base * n ↔ base * base - 1 ∣ n := by
  refine ⟨fun h => ?_, fun h => h.mul_left base⟩
  have htwice : base * (base * n) ≡ n [MOD base * base - 1] := by
    have hn := (base_sq_modEq hbase).mul_right n
    rwa [Nat.one_mul, Nat.mul_assoc] at hn
  exact (htwice.dvd_iff dvd_rfl).mp (h.mul_left base)

theorem sum_map_swap_modEq (hbase : 1 < base) (words : List ℕ) :
    (words.map (swap base)).sum ≡ base * words.sum [MOD base * base - 1] := by
  induction words with
  | nil => exact Nat.ModEq.refl _
  | cons w words ih =>
    rw [List.map_cons, List.sum_cons, List.sum_cons, Nat.mul_add]
    exact (swap_modEq hbase w).add ih

theorem swap_eq_zero (hbase : 1 < base) {w : ℕ} : swap base w = 0 ↔ w = 0 := by
  rw [swap, Nat.add_eq_zero_iff, Nat.mul_eq_zero, Nat.div_eq_zero_iff]
  constructor
  · rintro ⟨hmod, hlt⟩
    have hlt' : w < base := by omega
    rw [Nat.mod_eq_of_lt hlt'] at hmod
    omega
  · rintro rfl
    exact ⟨.inl (Nat.zero_mod _), .inr (by omega)⟩

theorem sum_map_swap_eq_zero (hbase : 1 < base) (words : List ℕ) :
    (words.map (swap base)).sum = 0 ↔ words.sum = 0 := by
  induction words with
  | nil => exact Iff.rfl
  | cons w words ih =>
    rw [List.map_cons, List.sum_cons, List.sum_cons, Nat.add_eq_zero_iff, Nat.add_eq_zero_iff, swap_eq_zero hbase, ih]

theorem swap_le (hbase : 1 < base) {w : ℕ} (hw : w < base * base) : swap base w ≤ base * base - 1 := by
  have hlow : w % base + 1 ≤ base := Nat.mod_lt _ (by omega)
  have hhigh : w / base + 1 ≤ base := Nat.div_lt_of_lt_mul hw
  have hmul : (w % base + 1) * base ≤ base * base := Nat.mul_le_mul_right _ hlow
  rw [Nat.add_one_mul] at hmul
  unfold swap
  omega

/-- **The byte order does not matter** for the test. -/
theorem sum_swap_eq_top (hbase : 1 < base) (hwords : ∀ w ∈ words, w < base * base) :
    sum (base * base - 1) (words.map (swap base)) = base * base - 1 ↔
      sum (base * base - 1) words = base * base - 1 := by
  have hsquare : 2 * 2 ≤ base * base := Nat.mul_le_mul hbase hbase
  have hswapped : ∀ w ∈ words.map (swap base), w ≤ base * base - 1 := by
    intro w hw
    obtain ⟨x, hx, rfl⟩ := List.mem_map.mp hw
    exact swap_le hbase (hwords x hx)
  rw [sum_eq_top (by omega) hswapped, sum_eq_top (by omega) fun w hw => Nat.le_sub_one_of_lt (hwords w hw),
    Nat.pos_iff_ne_zero, Nat.pos_iff_ne_zero, Ne, sum_map_swap_eq_zero hbase,
    (sum_map_swap_modEq hbase words).dvd_iff dvd_rfl, dvd_base_mul hbase]

end OnesComplement
