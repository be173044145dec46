import Mathlib.Data.List.Basic

/-!
# Locks of one thread

What a thread does with locks is a list of actions. `run` keeps the locks that are held; it fails where a lock is
acquired a second time, where a lock is released that is not held, and where something is accessed without its lock.

* `run_append` — actions one after the other;
* `run_acquire`, `run_release`, `run_access` — the single actions;
* `run_section` — a critical section.
-/

namespace LockTrace

variable {L : Type*}

/-- An action of a thread; `access l` is an access to what `l` protects. -/
inductive Act (L : Type*) where
  | acquire (l : L)
  | release (l : L)
  | access (l : L)

variable [DecidableEq L]

def step (held : List L) : Act L → Option (List L)
  | .acquire l => if l ∈ held then none else some (l :: held)
  | .release l => if l ∈ held then some (held.erase l) else none
  | .access l => if l ∈ held then some held else none

def run (held : List L) (acts : List (Act L)) : Option (List L) := acts.foldlM step held

variable {held held' : List L} {l : L} {acts : List (Act L)}

@[simp] theorem run_nil (held : List L) : run held [] = some held := rfl

theorem run_append (h : run held acts = some held') (acts' : List (Act L)) :
    run held (acts ++ acts') = run held' acts' := by
  unfold run at h ⊢
  rw [List.foldlM_append, h]
  rfl

theorem run_acquire (h : l ∉ held) (acts : List (Act L)) : run held (.acquire l :: acts) = run (l :: held) acts := by
  unfold run
  rw [List.foldlM_cons, step, if_neg h]
  rfl

theorem run_release (h : l ∈ held) (acts : List (Act L)) :
    run held (.release l :: acts) = run (held.erase l) acts := by
  unfold run
  rw [List.foldlM_cons, step, if_pos h]
  rfl

theorem run_release_head (acts : List (Act L)) : run (l :: held) (.release l :: acts) = run held acts := by
  rw [run_release List.mem_cons_self, List.erase_cons_head]

theorem run_access (h : l ∈ held) (acts : List (Act L)) : run held (.access l :: acts) = run held acts := by
  unfold run
  rw [List.foldlM_cons, step, if_pos h]
  rfl

/-- **A critical section.** -/
theorem run_section (h : l ∉ held) (hbody : run (l :: held) acts = some (l :: held)) :
    run held (.acquire l :: (acts ++ [.release l])) = some held := by
  rw [run_acquire h, run_append hbody, run_release_head, run_nil]

end LockTrace
