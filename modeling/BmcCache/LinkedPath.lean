import Mathlib.Data.List.Nodup
import Mathlib.Logic.Function.Basic

/-!
# Linked lists in memory

Nodes are addresses and `next` is the content of their link fields; `none` is the null pointer.

* `Path next p l` — from the pointer `p` one passes the nodes `l` and comes to an end;
* `Path.unique`, `Path.nodup` — the nodes are determined, and none is passed twice;
* `Path.congr`, `Path.push`, `Path.unlink` — a store to another node, a node put in front, a node taken out;
* `search` — the loop that looks for a node, with a bound on its steps; `Path.search` says what it finds.
-/

namespace LinkedPath

open Function

variable {A : Type*}

/-- From `p` one passes the nodes `l` and comes to an end. -/
def Path (next : A → Option A) : Option A → List A → Prop
  | p, [] => p = none
  | p, a :: l => p = some a ∧ Path next (next a) l

variable {next next' : A → Option A} {p : Option A} {a b : A} {l l' : List A}

theorem path_none : Path next none l ↔ l = [] := by
  cases l with
  | nil => exact iff_of_true rfl rfl
  | cons a l => exact iff_of_false (fun h => nomatch h.1) (fun h => nomatch h)

theorem path_some : Path next (some a) l ↔ ∃ l', l = a :: l' ∧ Path next (next a) l' := by
  cases l with
  | nil => exact iff_of_false (fun h => nomatch h) (fun ⟨_, h, _⟩ => nomatch h)
  | cons b l =>
    constructor
    · rintro ⟨hb, hl⟩
      obtain rfl := Option.some.inj hb
      exact ⟨l, rfl, hl⟩
    · rintro ⟨l', h, hl⟩
      obtain ⟨rfl, rfl⟩ := List.cons.inj h
      exact ⟨rfl, hl⟩

theorem Path.congr (h : Path next p l) (hnext : ∀ a ∈ l, next' a = next a) : Path next' p l := by
  induction l generalizing p with
  | nil => exact h
  | cons a l ih =>
    refine ⟨h.1, ?_⟩
    rw [hnext a List.mem_cons_self]
    exact ih h.2 fun b hb => hnext b (List.mem_cons_of_mem _ hb)

theorem Path.unique (h : Path next p l) (h' : Path next p l') : l = l' := by
  induction l generalizing p l' with
  | nil =>
    obtain rfl : p = none := h
    exact (path_none.mp h').symm
  | cons a l ih =>
    obtain ⟨rfl, hl⟩ := h
    obtain ⟨r, rfl, hr⟩ := path_some.mp h'
    rw [ih hl hr]

theorem Path.behind {s t : List A} (h : Path next p (s ++ a :: t)) : Path next (next a) t := by
  induction s generalizing p with
  | nil => exact h.2
  | cons b s ih => exact ih h.2

/-- **No node is passed twice**: behind the second time the path would be as long as behind the first. -/
theorem Path.nodup (h : Path next p l) : l.Nodup := by
  induction l generalizing p with
  | nil => exact List.nodup_nil
  | cons a l ih =>
    refine List.nodup_cons.mpr ⟨fun ha => ?_, ih h.2⟩
    obtain ⟨s, t, rfl⟩ := List.append_of_mem ha
    have hlen := congrArg List.length (h.2.unique (Path.behind h.2))
    simp only [List.length_append, List.length_cons] at hlen
    omega

variable [DecidableEq A]

theorem Path.push (h : Path next p l) (ha : a ∉ l) : Path (update next a p) (some a) (a :: l) := by
  refine ⟨rfl, ?_⟩
  rw [update_self]
  refine h.congr fun b hb => update_of_ne ?_ _ _
  rintro rfl
  exact ha hb

theorem Path.unlink {s t : List A} (h : Path next p (s ++ b :: a :: t)) :
    Path (update next b (next a)) p (s ++ b :: t) := by
  induction s generalizing p with
  | nil =>
    obtain ⟨rfl, hnext, ht⟩ := h
    have hnodup := Path.nodup (show Path next (some b) (b :: a :: t) from ⟨rfl, hnext, ht⟩)
    refine ⟨rfl, ?_⟩
    rw [update_self]
    refine ht.congr fun c hc => update_of_ne ?_ _ _
    rintro rfl
    exact (List.nodup_cons.mp hnodup).1 (List.mem_cons_of_mem _ hc)
  | cons c s ih =>
    have hnodup := h.nodup
    have hne : c ≠ b := by
      rintro rfl
      exact (List.nodup_cons.mp hnodup).1 (by simp)
    refine ⟨h.1, ?_⟩
    rw [update_of_ne hne]
    exact ih h.2

omit [DecidableEq A]

/-- The first node for which `P` holds; `none` when the steps are used up. -/
def search (next : A → Option A) (P : A → Bool) : ℕ → Option A → Option (Option A)
  | _, none => some none
  | 0, some _ => none
  | fuel + 1, some a => if P a then some (some a) else search next P fuel (next a)

/-- **The search** finds what is on the path, with as many steps as there are nodes. -/
theorem Path.search (h : Path next p l) (P : A → Bool) {fuel : ℕ} (hfuel : l.length ≤ fuel) :
    search next P fuel p = some (l.find? P) := by
  induction l generalizing p fuel with
  | nil =>
    obtain rfl : p = none := h
    cases fuel with
    | zero => rfl
    | succ fuel => rfl
  | cons a l ih =>
    obtain ⟨rfl, hl⟩ := h
    cases fuel with
    | zero => exact absurd hfuel (by simp)
    | succ fuel =>
      rw [LinkedPath.search, List.find?_cons]
      by_cases hP : P a = true
      · rw [if_pos hP, hP]
      · rw [if_neg hP, Bool.eq_false_iff.mpr hP]
        exact ih hl (Nat.le_of_succ_le_succ hfuel)

end LinkedPath
