import Mathlib.Data.Nat.Notation
import Mathlib.Tactic.TypeStar

/-!
# Chains of tail-called programs

A program runs to its end and either returns a verdict or hands over to another program.  The hand-over can
fail: the called slot may be empty, or the chain may have used up its budget of tail calls.  A failed call
falls through to the caller's own return, so every tail call carries the verdict it falls back to.

`run` executes a chain; its second argument counts the tail calls made so far, so that a program can depend
on its place in the chain (what other agents did in the meantime).  The induction over the budget is packaged
once: `run_ret`, `run_tailCall`, `run_fallThrough` are the three ways a program ends, and `run_post` derives a
property of the end of every chain from an invariant that each program hands to the next.  `entries` lists the programs
a chain enters, with the states; by `entries_history` an invariant that may speak of the programs before holds at each
of them, and by `run_of_entry` the chain ends at the one that returns.
-/

namespace TailChain

inductive Outcome (P V : Type*) where
  | ret (v : V) : Outcome P V
  | tailCall (p : P) (orElse : V) : Outcome P V
  deriving DecidableEq, Repr

variable {P V σ : Type*}

/-- Run program `p`, the `n`-th of its chain, with `budget` tail calls left. -/
def run (exec : ℕ → P → σ → σ × Outcome P V) (loaded : P → Bool) : ℕ → ℕ → P → σ → σ × V
  | 0, n, p, s =>
    match exec n p s with
    | (s', .ret v) => (s', v)
    | (s', .tailCall _ v) => (s', v)
  | budget + 1, n, p, s =>
    match exec n p s with
    | (s', .ret v) => (s', v)
    | (s', .tailCall q v) => if loaded q then run exec loaded budget (n + 1) q s' else (s', v)

/-- The programs such a chain enters, each with its place and the state. -/
def entries (exec : ℕ → P → σ → σ × Outcome P V) (loaded : P → Bool) : ℕ → ℕ → P →
    σ → List (ℕ × P × σ)
  | 0, n, p, s => [(n, p, s)]
  | budget + 1, n, p, s =>
    (n, p, s) ::
      match exec n p s with
      | (_, .ret _) => []
      | (s', .tailCall q _) => if loaded q then entries exec loaded budget (n + 1) q s' else []

section

variable {exec : ℕ → P → σ → σ × Outcome P V} {loaded : P → Bool}

variable {budget n : ℕ} {p q : P} {s s' : σ} {v : V}

theorem run_ret (h : exec n p s = (s', .ret v)) :
    run exec loaded budget n p s = (s', v) := by
  cases budget <;> simp only [run, h]

theorem run_tailCall
    (h : exec n p s = (s', .tailCall q v)) (hq : loaded q = true) :
    run exec loaded (budget + 1) n p s = run exec loaded budget (n + 1) q s' := by
  simp only [run, h, hq, if_true]

theorem run_fallThrough
    (h : exec n p s = (s', .tailCall q v)) (hq : budget = 0 ∨ loaded q = false) :
    run exec loaded budget n p s = (s', v) := by
  cases budget with
  | zero => simp only [run, h]
  | succ b =>
    rcases hq with hb | hl
    · omega
    · simp [run, h, hl]

/-- **The chain rule.**  `I n p s` is what holds when `p` is entered as the `n`-th program of a chain of at most
`limit` tail calls.  If every return and every failed call from such a state establishes `post`, and every tail call
establishes `I` for its callee, then `post` holds where the chain ends. -/
theorem run_post (exec : ℕ → P → σ → σ × Outcome P V) (loaded : P → Bool) (limit : ℕ)
    (I : ℕ → P → σ → Prop) (post : σ → V → Prop)
    (hret : ∀ n p s s' v, n ≤ limit → I n p s → exec n p s = (s', .ret v) → post s' v)
    (hfall : ∀ n p s s' q v, n ≤ limit → I n p s → exec n p s = (s', .tailCall q v) → post s' v)
    (htail : ∀ n p s s' q v, n < limit → I n p s → exec n p s = (s', .tailCall q v) → I (n + 1) q s')
    (budget n : ℕ) (p : P) (s : σ) (hn : n + budget ≤ limit) (hI : I n p s) :
    post (run exec loaded budget n p s).1 (run exec loaded budget n p s).2 := by
  induction budget generalizing n p s with
  | zero =>
    rcases h : exec n p s with ⟨s', o⟩
    cases o with
    | ret v => rw [run_ret h]; exact hret n p s s' v hn hI h
    | tailCall q v => rw [run_fallThrough h (Or.inl rfl)]; exact hfall n p s s' q v hn hI h
  | succ b ih =>
    rcases h : exec n p s with ⟨s', o⟩
    cases o with
    | ret v => rw [run_ret h]; exact hret n p s s' v (by omega) hI h
    | tailCall q v =>
      cases hq : loaded q with
      | true =>
        rw [run_tailCall h hq]
        exact ih (n + 1) q s' (by omega) (htail n p s s' q v (by omega) hI h)
      | false =>
        rw [run_fallThrough h (Or.inr hq)]
        exact hfall n p s s' q v (by omega) hI h

/-- An invariant that knows the programs entered before, at every program the chain enters. -/
theorem entries_history (limit : ℕ) (I : List (ℕ × P × σ) → ℕ → P → σ → Prop)
    (htail : ∀ before n p s s' q v, n < limit → I before n p s → exec n p s = (s', .tailCall q v) →
      I (before ++ [(n, p, s)]) (n + 1) q s')
    (past : List (ℕ × P × σ)) (hn : n + budget ≤ limit) (hI : I past n p s)
    {before after : List (ℕ × P × σ)}
    {m : ℕ} {t : σ} (hsplit : entries exec loaded budget n p s = before ++ (m, q, t) :: after) :
    I (past ++ before) m q t := by
  induction budget generalizing n p s past before with
  | zero =>
    cases before with
    | nil =>
      obtain ⟨⟨rfl, rfl, rfl⟩, -⟩ : (n = m ∧ p = q ∧ s = t) ∧
        [] = after := by simpa [entries] using hsplit
      rwa [List.append_nil]
    | cons b bs => simp [entries] at hsplit
  | succ b ih =>
    rw [entries] at hsplit
    cases before with
    | nil =>
      obtain ⟨⟨rfl, rfl, rfl⟩, -⟩ : (n = m ∧ p = q ∧ s = t) ∧ _ = after := by simpa using hsplit
      rwa [List.append_nil]
    | cons e es =>
      rw [List.cons_append, List.cons.injEq] at hsplit
      obtain ⟨rfl, hrest⟩ := hsplit
      rcases h : exec n p s with ⟨s', o⟩
      rw [h] at hrest
      cases o with
      | ret v => simp at hrest
      | tailCall r v =>
        dsimp only at hrest
        split at hrest
        · have hnext := ih (past ++ [(n, p, s)]) (by omega) (htail past n p s s' r v (by omega) hI h) hrest
          rwa [List.append_assoc] at hnext
        · simp at hrest

theorem entries_invariant (limit : ℕ) (I : ℕ → P → σ → Prop)
    (htail : ∀ n p s s' q v, n < limit → I n p s → exec n p s = (s', .tailCall q v) → I (n + 1) q s')
    (hn : n + budget ≤ limit) (hI : I n p s) {m : ℕ} {t : σ}
    (hmem : (m, q, t) ∈ entries exec loaded budget n p s) : I m q t := by
  obtain ⟨before, after, hsplit⟩ := List.append_of_mem hmem
  exact entries_history limit (fun _ => I) (fun _ => htail) [] hn hI hsplit

theorem run_of_entry {m : ℕ} {t t' : σ}
    (hmem : (m, q, t) ∈ entries exec loaded budget n p s) (hret : exec m q t = (t', .ret v)) :
    run exec loaded budget n p s = (t', v) := by
  induction budget generalizing n p s with
  | zero =>
    obtain ⟨rfl, rfl, rfl⟩ : m = n ∧ q = p ∧ t = s := by simpa [entries] using hmem
    exact run_ret hret
  | succ b ih =>
    rw [entries, List.mem_cons] at hmem
    rcases hmem with hfirst | hrest
    · obtain ⟨rfl, rfl, rfl⟩ : m = n ∧ q = p ∧ t = s := by simpa using hfirst
      exact run_ret hret
    · rcases h : exec n p s with ⟨s', o⟩
      rw [h] at hrest
      cases o with
      | ret w => exact absurd hrest List.not_mem_nil
      | tailCall r w =>
        dsimp only at hrest
        split at hrest
        · rename_i hload
          rw [run_tailCall h hload]
          exact ih hrest
        · exact absurd hrest List.not_mem_nil

end

end TailChain
