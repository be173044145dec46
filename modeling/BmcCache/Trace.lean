import Mathlib.Data.List.Induction

/-!
# Runs of a deterministic system

A system is a step function on states and events; a run is a list of events.  `All` says that every event of a run
meets a condition in the state in which it happens.

* `run_append`, `all_append` — a run can be cut anywhere;
* `all_and`, `All.mono` — two conditions at once, and a weaker one;
* `all_iff_fronts` — `All` read as a statement about every place of the run;
* `Sometime` — something holds in a state of the run;
* `run_history` — an invariant that may mention the events that have happened so far;
* `run_invariant` — what holds at the start and survives every event that meets the condition holds in the end.
  As every front of such a run is such a run, it holds in every state the run passes through;
* `outputs`, `run_simulation` — two systems with related states that answer every event alike;
* `AllPartial`, `foldlM_invariant` — the condition and the invariant rule for steps that may fail;
* `isSome_foldlM_iff` — the runs that do not fail.
-/

namespace Trace

variable {σ ε : Type*} (step : σ → ε → σ) (guard : σ → ε → Prop)

def run (s : σ) (es : List ε) : σ := es.foldl step s

def All : σ → List ε → Prop
  | _, [] => True
  | s, e :: es => guard s e ∧ All (step s e) es

@[simp] theorem run_nil (s : σ) : run step s [] = s := rfl

@[simp] theorem run_cons (s : σ) (e : ε) (es : List ε) : run step s (e :: es) = run step (step s e) es := rfl

theorem run_append (s : σ) (es fs : List ε) : run step s (es ++ fs) = run step (run step s es) fs :=
  List.foldl_append

theorem all_append (s : σ) (es fs : List ε) :
    All step guard s (es ++ fs) ↔ All step guard s es ∧ All step guard (run step s es) fs := by
  induction es generalizing s with
  | nil => simp [All]
  | cons e es ih => simp only [List.cons_append, All, ih, run_cons, and_assoc]

/-- Every event meets the condition in the state behind the events before it. -/
theorem all_iff_fronts (s : σ) (es : List ε) :
    All step guard s es ↔ ∀ front e, front ++ [e] <+: es → guard (run step s front) e := by
  induction es generalizing s with
  | nil => simp [All]
  | cons a es ih =>
    rw [All, ih]
    constructor
    · intro h front e hfront
      cases front with
      | nil =>
        obtain ⟨rfl, -⟩ := List.cons_prefix_cons.mp hfront
        exact h.1
      | cons b front =>
        obtain ⟨rfl, htail⟩ := List.cons_prefix_cons.mp hfront
        exact h.2 front e htail
    · intro h
      refine ⟨h [] a (by simp), fun front e hfront => ?_⟩
      exact h (a :: front) e (List.cons_prefix_cons.mpr ⟨rfl, hfront⟩)

theorem all_and (guard' : σ → ε → Prop) (s : σ) (es : List ε) :
    All step (fun s e => guard s e ∧ guard' s e) s es ↔ All step guard s es ∧ All step guard' s es := by
  induction es generalizing s with
  | nil => simp [All]
  | cons e es ih =>
    rw [All, All, All, ih]
    tauto

/-- `P` holds in the first state of the run or in one it passes through. -/
def Sometime (P : σ → Prop) (s : σ) (es : List ε) : Prop := ∃ front, front <+: es ∧ P (run step s front)

variable {step guard}

variable {P : σ → Prop} {s : σ} {es : List ε}

theorem Sometime.append (h : Sometime step P s es) (fs : List ε) :
    Sometime step P s (es ++ fs) := by
  obtain ⟨front, hfront, hP⟩ := h
  exact ⟨front, hfront.trans (List.prefix_append _ _), hP⟩

theorem Sometime.mono {Q : σ → Prop} (h : Sometime step P s es) (hPQ : ∀ s, P s → Q s) :
    Sometime step Q s es := by
  obtain ⟨front, hfront, hP⟩ := h
  exact ⟨front, hfront, hPQ _ hP⟩

theorem All.mono {guard' : σ → ε → Prop} (h : ∀ s e, guard s e → guard' s e)
    (hall : All step guard s es) : All step guard' s es := by
  induction es generalizing s with
  | nil => trivial
  | cons e es ih => exact ⟨h s e hall.1, ih hall.2⟩

/-- **The history rule.**  The induction is on the run from its end. -/
theorem run_history (I : List ε → σ → Prop)
    (hstep : ∀ es s e, I es s → guard s e → I (es ++ [e]) (step s e)) (s : σ) (es : List ε) (hI : I [] s)
    (hall : All step guard s es) : I es (run step s es) := by
  induction es using List.reverseRecOn with
  | nil => exact hI
  | append_singleton es e ih =>
    rw [all_append] at hall
    rw [run_append]
    exact hstep es _ e (ih hall.1) hall.2.1

/-- **The invariant rule.** -/
theorem run_invariant (I : σ → Prop) (hstep : ∀ s e, I s → guard s e → I (step s e)) (s : σ) (es : List ε)
    (hI : I s) (hall : All step guard s es) : I (run step s es) :=
  run_history (fun _ => I) (fun _ => hstep) s es hI hall

def outputs {ρ : Type*} (step : σ → ε → σ) (out : σ → ε → ρ) : σ → List ε → List ρ
  | _, [] => []
  | s, e :: es => out s e :: outputs step out (step s e) es

/-- **The simulation rule.**  The condition is one on the states of the second system. -/
theorem run_simulation {τ ρ : Type*} {step' : τ → ε → τ} {guard' : τ → ε → Prop}
    {out : σ → ε → ρ} {out' : τ → ε → ρ}
    (R : σ → τ → Prop)
    (hstep : ∀ s t e, R s t → guard' t e → out s e = out' t e ∧ R (step s e) (step' t e)) (s : σ)
    (t : τ) (es : List ε)
    (hR : R s t) (hall : All step' guard' t es) :
    outputs step out s es = outputs step' out' t es ∧ R (run step s es) (run step' t es) := by
  induction es generalizing s t with
  | nil => exact ⟨rfl, hR⟩
  | cons e es ih =>
    obtain ⟨hout, hnext⟩ := hstep s t e hR hall.1
    obtain ⟨houts, hend⟩ := ih _ _ hnext hall.2
    exact ⟨by rw [outputs, outputs, hout, houts], hend⟩

/-! ### Steps that may fail -/

/-- Every event meets the condition in the state in which it happens, as far as the run comes. -/
def AllPartial (step : σ → ε → Option σ) (guard : σ → ε → Prop) : σ → List ε → Prop
  | _, [] => True
  | s, e :: es => guard s e ∧ ∀ s', step s e = some s' → AllPartial step guard s' es

theorem allPartial_of_forall {step : σ → ε → Option σ} {P : ε → Prop} (h : ∀ e ∈ es, P e) :
    AllPartial step (fun _ e => P e) s es := by
  induction es generalizing s with
  | nil => trivial
  | cons e es ih => exact ⟨h e List.mem_cons_self, fun _ _ => ih fun x hx => h x (List.mem_cons_of_mem _ hx)⟩

/-- **The invariant rule with progress**: no event of the run fails. -/
theorem foldlM_invariant {step : σ → ε → Option σ} {guard : σ → ε → Prop} (I : σ → Prop)
    (hstep : ∀ s e, I s → guard s e → ∃ s', step s e = some s' ∧ I s') (s : σ) (es : List ε) (hI : I s)
    (hall : AllPartial step guard s es) : ∃ s', es.foldlM step s = some s' ∧ I s' := by
  induction es generalizing s with
  | nil => exact ⟨s, rfl, hI⟩
  | cons e es ih =>
    obtain ⟨s₁, hs₁, hI₁⟩ := hstep s e hI hall.1
    obtain ⟨s', hs', hI'⟩ := ih s₁ hI₁ (hall.2 s₁ hs₁)
    refine ⟨s', ?_, hI'⟩
    rw [List.foldlM_cons, hs₁]
    exact hs'

/-- **Failing runs.**  If the events that do not fail are those that meet a condition, then so it is with runs.  The
invariant may count the events that are left. -/
theorem isSome_foldlM_iff {step : σ → ε → Option σ} {guard P : σ → ε → Prop} (I : ℕ → σ → Prop)
    (hiff : ∀ n s e, I (n + 1) s → guard s e → ((step s e).isSome ↔ P s e))
    (hstep : ∀ n s e s', I (n + 1) s → guard s e → step s e = some s' → I n s') (s : σ) (es : List ε)
    (hI : I es.length s) (hall : AllPartial step guard s es) :
    (es.foldlM step s).isSome ↔ AllPartial step P s es := by
  induction es generalizing s with
  | nil => simp [AllPartial]
  | cons e es ih =>
    rw [AllPartial, ← hiff es.length s e hI hall.1, List.foldlM_cons]
    cases hs : step s e with
    | none => simp
    | some s' =>
      have hrest := ih s' (hstep es.length s e s' hI hall.1 hs) (hall.2 s' hs)
      simpa using hrest

end Trace
