import Mathlib.Data.List.Basic
import Mathlib.Data.List.Count

/-!
# Cutting a list behind its n-th delimiter

`takeThrough d n l` is the front of `l` up to and including its `n`-th `d`, or all of `l` when it has fewer.  This is
what a copy loop keeps that counts delimiters and stops at the `n`-th.
-/

namespace Delimited

variable {α : Type*} [DecidableEq α]

def takeThrough (d : α) : ℕ → List α → List α
  | 0, _ => []
  | _ + 1, [] => []
  | n + 1, b :: rest => b :: takeThrough d (if b = d then n else n + 1) rest

theorem takeThrough_zero (d : α) (l : List α) : takeThrough d 0 l = [] := by
  cases l <;> rfl

theorem takeThrough_nil (d : α) (n : ℕ) : takeThrough d n ([] : List α) = [] := by
  cases n <;> rfl

theorem takeThrough_append (d : α) (n : ℕ) (a rest : List α) (h : d ∉ a) :
    takeThrough d (n + 1) (a ++ rest) = a ++ takeThrough d (n + 1) rest := by
  induction a with
  | nil => rfl
  | cons b a ih =>
    have hb : b ≠ d := fun hbd => h (by simp [hbd])
    rw [List.cons_append, takeThrough, if_neg hb, ih (fun hm => h (by simp [hm])), List.cons_append]

theorem takeThrough_line (d : α) (n : ℕ) (a rest : List α) (h : d ∉ a) :
    takeThrough d (n + 1) (a ++ d :: rest) = a ++ d :: takeThrough d n rest := by
  rw [takeThrough_append d n a _ h, takeThrough, if_pos rfl]

theorem takeThrough_one_append (d : α) (l r : List α) (h : d ∈ l) :
    takeThrough d 1 (l ++ r) = takeThrough d 1 l := by
  obtain ⟨a, b, rfl, hnot⟩ := List.eq_append_cons_of_mem h
  rw [List.append_assoc, List.cons_append, takeThrough_line d 0 a _ hnot, takeThrough_line d 0 a _ hnot,
    takeThrough_zero, takeThrough_zero]

theorem takeThrough_isFront (d : α) (l : List α) : ∀ n, takeThrough d n l <+: l := by
  induction l with
  | nil => intro n; simp [takeThrough_nil]
  | cons b rest ih =>
    intro n
    cases n with
    | zero => rw [takeThrough_zero]; exact List.nil_prefix
    | succ n => rw [takeThrough]; exact List.prefix_cons_inj b |>.mpr (ih _)

theorem takeThrough_ends (d : α) (l : List α) : ∀ n, (takeThrough d (n + 1) l).count d = n + 1 →
    ∃ a, takeThrough d (n + 1) l = a ++ [d] := by
  induction l with
  | nil => intro n h; rw [takeThrough_nil] at h; simp at h
  | cons b rest ih =>
    intro n h
    rw [takeThrough] at h ⊢
    by_cases hb : b = d
    · rw [if_pos hb] at h ⊢
      cases n with
      | zero => exact ⟨[], by rw [takeThrough_zero, hb]; rfl⟩
      | succ n =>
        rw [List.count_cons, if_pos (by simp [hb])] at h
        obtain ⟨a, ha⟩ := ih n (by omega)
        exact ⟨b :: a, by rw [ha]; rfl⟩
    · rw [if_neg hb] at h ⊢
      rw [List.count_cons, if_neg (by simpa using hb)] at h
      obtain ⟨a, ha⟩ := ih n h
      exact ⟨b :: a, by rw [ha]; rfl⟩

end Delimited
