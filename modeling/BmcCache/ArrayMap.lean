import Mathlib.Data.Fin.Basic

/-!
# Array maps

A fixed-size array whose elements are reached through a checked lookup: an index inside the array gives the
element, an index beyond it gives nothing.  `set` is the store through the reference a lookup returned.
-/

/-- An array of `n` cells, all of which always exist. -/
def ArrayMap (n : ℕ) (α : Type*) : Type _ := Fin n → α

namespace ArrayMap

variable {n : ℕ} {α : Type*}

/-- The array with every cell equal to `a`. -/
def replicate (n : ℕ) (a : α) : ArrayMap n α := fun _ => a

/-- Checked lookup: `none` beyond the array. -/
def lookup (m : ArrayMap n α) (i : ℕ) : Option α := if h : i < n then some (m ⟨i, h⟩) else none

/-- Store `a` in cell `i`; no cell beyond the array exists to be changed. -/
def set (m : ArrayMap n α) (i : ℕ) (a : α) : ArrayMap n α := fun j => if j.val = i then a else m j

theorem lookup_of_lt (m : ArrayMap n α) {i : ℕ} (h : i < n) : m.lookup i = some (m ⟨i, h⟩) := by
  rw [lookup, dif_pos h]

theorem lookup_of_ge (m : ArrayMap n α) {i : ℕ} (h : n ≤ i) : m.lookup i = none := by
  rw [lookup, dif_neg (by omega)]

theorem lookup_set_self (m : ArrayMap n α) {i : ℕ} (a : α) (h : i < n) :
    (m.set i a).lookup i = some a := by
  rw [lookup_of_lt _ h, set, if_pos rfl]

theorem lookup_set_ne (m : ArrayMap n α) {i j : ℕ} (a : α) (h : j ≠ i) :
    (m.set i a).lookup j = m.lookup j := by
  unfold lookup
  split
  · rw [set, if_neg h]
  · rfl

theorem set_eq_self (m : ArrayMap n α) {i : ℕ} {a : α} (h : m.lookup i = some a) : m.set i a = m := by
  funext j
  unfold set
  split
  · rename_i hj
    subst hj
    rw [lookup_of_lt m j.isLt] at h
    exact (Option.some.inj h).symm
  · rfl

end ArrayMap
