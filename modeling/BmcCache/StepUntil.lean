import Mathlib.Data.Nat.Notation

/-!
# The first state with a property

A machine is a function on states.  `Passes s t` says that the run from `s` comes to `t` and that no state before `t`
has the property `P`; `Until s t` that `t` has it.

* `Passes.trans`, `Passes.until` — runs are put together from pieces;
* `until_runUntil` — a run of bounded length that has found such a state has found the first.
-/

namespace StepUntil

variable {σ : Type*} (step : σ → σ) (P : σ → Prop)

/-- The run from `s` comes to `t`, with no `P` before. -/
inductive Passes : σ → σ → Prop
  | refl (s : σ) : Passes s s
  | next {s t : σ} (h : ¬ P s) (ht : Passes (step s) t) : Passes s t

/-- `t` is the first state with `P` on the run from `s`. -/
def Until (s t : σ) : Prop := Passes step P s t ∧ P t

/-- At most `n` steps, none from a state with `P`. -/
def runUntil [DecidablePred P] : ℕ → σ → σ
  | 0, s => s
  | n + 1, s => if P s then s else runUntil n (step s)

variable {step P}

theorem Passes.one {s : σ} (h : ¬ P s) : Passes step P s (step s) := .next h (.refl _)

theorem Passes.trans {s t u : σ} (h₁ : Passes step P s t) (h₂ : Passes step P t u) : Passes step P s u := by
  induction h₁ with
  | refl _ => exact h₂
  | next h _ ih => exact .next h (ih h₂)

theorem Passes.until {s t u : σ} (h₁ : Passes step P s t) (h₂ : Until step P t u) : Until step P s u :=
  ⟨h₁.trans h₂.1, h₂.2⟩

theorem until_here {s : σ} (h : P s) : Until step P s s := ⟨.refl s, h⟩

theorem until_next {s t : σ} (h : ¬ P s) (ht : Until step P (step s) t) : Until step P s t :=
  ⟨.next h ht.1, ht.2⟩

theorem until_runUntil [DecidablePred P] (n : ℕ) : ∀ s, P (runUntil step P n s) →
    Until step P s (runUntil step P n s) := by
  induction n with
  | zero => intro s h; exact until_here h
  | succ n ih =>
    intro s h
    rw [runUntil] at h ⊢
    split
    · rename_i hs
      exact until_here hs
    · rename_i hs
      rw [if_neg hs] at h
      exact until_next hs (ih _ h)

end StepUntil
