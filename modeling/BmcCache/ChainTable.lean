import Mathlib.Algebra.Ring.Nat
import Mathlib.Data.List.Nodup
import Mathlib.Logic.Function.Basic

/-!
# Chained hash tables that double one bucket at a time

A table has `2 ^ power` chains.  While it is expanding, the chains of the smaller table it comes from that have not
been moved are still in `old`; `expandBucket` says how far the move has come.

* `find`, `insert`, `delete`, `modify` — the operations on the chain a key leads to;
* `expand`, `moveBucket` — the table is doubled, and one old chain is distributed;
* `Good` — every element stands where its key leads to, and no two elements of a chain have one key.

For a good table `find` is a map: each operation changes it at one key (`find_insert`, `find_delete`, `find_modify`),
and the move of a chain changes nothing (`find_expand`, `find_moveBucket`).
-/

/-- The chains of a table, and those of the table before it while it is expanding. -/
structure ChainTable (α : Type*) where
  power : ℕ
  expanding : Bool
  expandBucket : ℕ
  primary : ℕ → List α
  old : ℕ → List α

namespace ChainTable

open List

open Function

variable {α κ : Type*} (key : α → κ) (hash : κ → ℕ)

def empty (power : ℕ) : ChainTable α := ⟨power, false, 0, fun _ => [], fun _ => []⟩

def InOld (t : ChainTable α) (hv : ℕ) : Prop := t.expanding = true ∧ t.expandBucket ≤ hv % 2 ^ (t.power - 1)

instance (t : ChainTable α) (hv : ℕ) : Decidable (t.InOld hv) := inferInstanceAs (Decidable (_ ∧ _))

def chain (t : ChainTable α) (hv : ℕ) : List α :=
  if t.InOld hv then t.old (hv % 2 ^ (t.power - 1)) else t.primary (hv % 2 ^ t.power)

def setChain (t : ChainTable α) (hv : ℕ) (l : List α) : ChainTable α :=
  if t.InOld hv then { t with old := update t.old (hv % 2 ^ (t.power - 1)) l }
  else { t with primary := update t.primary (hv % 2 ^ t.power) l }

def find [DecidableEq κ] (t : ChainTable α) (k : κ) : Option α :=
    (t.chain (hash k)).find? (fun a => decide (key a = k))

def insert (t : ChainTable α) (a : α) : ChainTable α :=
  t.setChain (hash (key a)) (a :: t.chain (hash (key a)))

def delete [DecidableEq κ] (t : ChainTable α) (k : κ) : ChainTable α :=
  t.setChain (hash k) ((t.chain (hash k)).eraseP (fun a => decide (key a = k)))

/-- The element that `find` finds is changed. -/
def modify [DecidableEq κ] (t : ChainTable α) (k : κ) (f : α → α) : ChainTable α :=
  t.setChain (hash k) ((t.chain (hash k)).replaceF fun a => if key a = k then some (f a) else none)

def expand (t : ChainTable α) : ChainTable α := ⟨t.power + 1, true, 0, fun _ => [], t.primary⟩

def push (power : ℕ) (primary : ℕ → List α) (a : α) : ℕ → List α :=
  update primary (hash (key a) % 2 ^ power) (a :: primary (hash (key a) % 2 ^ power))

def moveBucket (t : ChainTable α) : ChainTable α :=
  { t with
    primary := (t.old t.expandBucket).foldl (push key hash t.power) t.primary
    old := update t.old t.expandBucket []
    expandBucket := t.expandBucket + 1
    expanding := decide (t.expandBucket + 1 ≠ 2 ^ (t.power - 1)) }

/-- Every element stands where its key leads to, and no chain has a key twice. -/
structure Good (t : ChainTable α) : Prop where
  bucket_lt : t.expanding = true → 0 < t.power ∧ t.expandBucket < 2 ^ (t.power - 1)
  primary_hash : ∀ b, ∀ a ∈ t.primary b, hash (key a) % 2 ^ t.power = b
  primary_moved : t.expanding = true → ∀ b, ∀ a ∈ t.primary b, hash (key a) % 2 ^ (t.power - 1) < t.expandBucket
  old_hash : t.expanding = true → ∀ b, ∀ a ∈ t.old b, hash (key a) % 2 ^ (t.power - 1) = b
  distinct : ∀ hv, ((t.chain hv).map key).Nodup

variable {key hash} {t : ChainTable α}

theorem good_empty (power : ℕ) : (empty power : ChainTable α).Good key hash where
  bucket_lt := by simp [empty]
  primary_hash := by simp [empty]
  primary_moved := by simp [empty]
  old_hash := by simp [empty]
  distinct := by simp [empty, chain, InOld]

/-! ### One chain is replaced -/

@[simp] theorem inOld_setChain (hv hv' : ℕ) (l : List α) : (t.setChain hv l).InOld hv' ↔ t.InOld hv' := by
  unfold setChain
  split <;> rfl

def SameChain (t : ChainTable α) (hv hv' : ℕ) : Prop :=
  if t.InOld hv then hv' % 2 ^ (t.power - 1) = hv % 2 ^ (t.power - 1) else hv' % 2 ^ t.power = hv % 2 ^ t.power

/-- The number of a chain of the larger table determines that of the smaller. -/
theorem mod_pred_eq {m n p : ℕ} (h : m % 2 ^ p = n % 2 ^ p) : m % 2 ^ (p - 1) = n % 2 ^ (p - 1) := by
  have hdvd : 2 ^ (p - 1) ∣ 2 ^ p := Nat.pow_dvd_pow 2 (Nat.sub_le p 1)
  rw [← Nat.mod_mod_of_dvd m hdvd, h, Nat.mod_mod_of_dvd n hdvd]

variable {hv hv' : ℕ}

theorem SameChain.inOld (h : t.SameChain hv hv') : t.InOld hv' ↔ t.InOld hv := by
  unfold SameChain at h
  split at h
  · unfold InOld
    rw [h]
  · unfold InOld
    rw [mod_pred_eq h]

theorem chain_setChain_of_same (l : List α) (h : t.SameChain hv hv') :
    (t.setChain hv l).chain hv' = l := by
  unfold chain
  simp only [inOld_setChain, h.inOld]
  unfold SameChain at h
  unfold setChain
  split
  · rename_i hold
    rw [if_pos hold] at h
    simp [h]
  · rename_i hold
    rw [if_neg hold] at h
    simp [h]

theorem chain_setChain_of_not_same (l : List α) (h : ¬ t.SameChain hv hv') :
    (t.setChain hv l).chain hv' = t.chain hv' := by
  unfold chain
  simp only [inOld_setChain]
  unfold SameChain at h
  unfold setChain
  by_cases hold : t.InOld hv
  · rw [if_pos hold] at h ⊢
    split
    · exact update_of_ne h _ _
    · rfl
  · rw [if_neg hold] at h ⊢
    split
    · rfl
    · exact update_of_ne h _ _

theorem sameChain_self (hv : ℕ) : t.SameChain hv hv := by
  unfold SameChain
  split <;> rfl

theorem chain_of_same (h : t.SameChain hv hv') : t.chain hv' = t.chain hv := by
  unfold chain
  simp only [h.inOld]
  unfold SameChain at h
  split
  · rename_i hold
    rw [if_pos hold] at h
    rw [h]
  · rename_i hold
    rw [if_neg hold] at h
    rw [h]

/-- A good table stays good when a chain is replaced by one of elements that belong there and have different keys. -/
theorem Good.setChain (hg : t.Good key hash) {l : List α} (hl : ∀ a ∈ l, t.SameChain hv (hash (key a)))
    (hnodup : (l.map key).Nodup) : (t.setChain hv l).Good key hash where
  bucket_lt := by
    have h := hg.bucket_lt
    unfold ChainTable.setChain
    split <;> exact h
  primary_hash := by
    intro b a ha
    unfold ChainTable.setChain at ha ⊢
    split at ha
    · rename_i hold
      rw [if_pos hold]
      exact hg.primary_hash b a ha
    · rename_i hold
      rw [if_neg hold]
      by_cases hb : b = hv % 2 ^ t.power
      · subst hb
        simp only [update_self] at ha
        have h := hl a ha
        rwa [SameChain, if_neg hold] at h
      · simp only [update_of_ne hb] at ha
        exact hg.primary_hash b a ha
  primary_moved := by
    intro he b a ha
    have he' : t.expanding = true := by
      unfold ChainTable.setChain at he
      split at he <;> exact he
    unfold ChainTable.setChain at ha ⊢
    split at ha
    · rename_i hold
      rw [if_pos hold]
      exact hg.primary_moved he' b a ha
    · rename_i hold
      rw [if_neg hold]
      by_cases hb : b = hv % 2 ^ t.power
      · subst hb
        simp only [update_self] at ha
        have h := (hl a ha).inOld
        have hnot : ¬ t.InOld (hash (key a)) := fun hin => hold (h.mp hin)
        exact Nat.lt_of_not_le fun hle => hnot ⟨he', hle⟩
      · simp only [update_of_ne hb] at ha
        exact hg.primary_moved he' b a ha
  old_hash := by
    intro he b a ha
    have he' : t.expanding = true := by
      unfold ChainTable.setChain at he
      split at he <;> exact he
    unfold ChainTable.setChain at ha ⊢
    split at ha
    · rename_i hold
      rw [if_pos hold]
      by_cases hb : b = hv % 2 ^ (t.power - 1)
      · subst hb
        simp only [update_self] at ha
        have h := hl a ha
        rwa [SameChain, if_pos hold] at h
      · simp only [update_of_ne hb] at ha
        exact hg.old_hash he' b a ha
    · rename_i hold
      rw [if_neg hold]
      exact hg.old_hash he' b a ha
  distinct := by
    intro hv'
    by_cases h : t.SameChain hv hv'
    · rw [chain_setChain_of_same l h]
      exact hnodup
    · rw [chain_setChain_of_not_same l h]
      exact hg.distinct hv'

theorem Good.mem_chain (hg : t.Good key hash) {a : α} (ha : a ∈ t.chain hv) :
    t.SameChain hv (hash (key a)) := by
  unfold chain at ha
  unfold SameChain
  split at ha
  · rename_i hold
    rw [if_pos hold]
    exact hg.old_hash hold.1 _ a ha
  · rename_i hold
    rw [if_neg hold]
    exact hg.primary_hash _ a ha

/-! ### Finding -/

section Find

variable [DecidableEq κ]

variable {l : List α} {a : α} {k : κ}

theorem find?_eq_some_of_mem (hnodup : (l.map key).Nodup) (ha : a ∈ l) :
    l.find? (fun b => decide (key b = key a)) = some a := by
  induction l with
  | nil => simp at ha
  | cons b l ih =>
    rw [map_cons, nodup_cons] at hnodup
    rcases mem_cons.mp ha with rfl | ha
    · simp
    · have hne : key b ≠ key a := by
        intro heq
        exact hnodup.1 (heq ▸ mem_map_of_mem ha)
      rw [find?_cons_of_neg (by simpa using hne)]
      exact ih hnodup.2 ha

theorem find_key (h : t.find key hash k = some a) : key a = k := by
  have hdec := find?_some h
  exact of_decide_eq_true hdec

theorem Good.find_eq_some_iff (hg : t.Good key hash) :
    t.find key hash k = some a ↔ key a = k ∧ a ∈ t.chain (hash k) := by
  constructor
  · intro h
    exact ⟨find_key h, mem_of_find?_eq_some h⟩
  · rintro ⟨rfl, ha⟩
    exact find?_eq_some_of_mem (hg.distinct _) ha

theorem find_setChain_of_not_same {hv : ℕ} (h : ¬ t.SameChain hv (hash k)) :
    (t.setChain hv l).find key hash k = t.find key hash k := by
  unfold find
  rw [chain_setChain_of_not_same l h]

theorem find_setChain_of_same {hv : ℕ} (h : t.SameChain hv (hash k)) :
    (t.setChain hv l).find key hash k = l.find? (fun a => decide (key a = k)) := by
  unfold find
  rw [chain_setChain_of_same l h]

/-- **An insertion changes the map at one key.** -/
theorem find_insert (a : α) (k : κ) :
    (t.insert key hash a).find key hash k = if key a = k then some a else t.find key hash k := by
  unfold insert
  by_cases hs : t.SameChain (hash (key a)) (hash k)
  · rw [find_setChain_of_same hs, find?_cons]
    unfold find
    rw [chain_of_same hs]
    by_cases hk : key a = k <;> simp [hk]
  · have hk : key a ≠ k := by
      intro heq
      exact hs (heq ▸ sameChain_self _)
    rw [find_setChain_of_not_same hs, if_neg hk]

theorem Good.insert (hg : t.Good key hash) (habsent : t.find key hash (key a) = none) :
    (t.insert key hash a).Good key hash := by
  refine hg.setChain ?_ ?_
  · intro b hb
    rcases mem_cons.mp hb with rfl | hb
    · exact sameChain_self _
    · exact hg.mem_chain hb
  · rw [map_cons, nodup_cons]
    refine ⟨?_, hg.distinct _⟩
    intro hmem
    obtain ⟨b, hb, hkey⟩ := mem_map.mp hmem
    have h := find?_eq_none.mp habsent b hb
    simp [hkey] at h

/-- Without the first element with the key, a list with different keys has none. -/
theorem find?_eraseP (hnodup : (l.map key).Nodup) (k k' : κ) :
    (l.eraseP (fun a => decide (key a = k))).find? (fun a => decide (key a = k'))
      = if k = k' then none else l.find? (fun a => decide (key a = k')) := by
  induction l with
  | nil => simp
  | cons b l ih =>
    rw [map_cons, nodup_cons] at hnodup
    by_cases hb : key b = k
    · rw [eraseP_cons_of_pos (by simpa using hb)]
      by_cases hk : k = k'
      · rw [if_pos hk, find?_eq_none]
        intro a ha hkey
        have hkey' : key a = k' := of_decide_eq_true hkey
        exact hnodup.1 (mem_map.mpr ⟨a, ha, by rw [hkey', hb, hk]⟩)
      · rw [if_neg hk, find?_cons_of_neg (by simpa [hb] using hk)]
    · rw [eraseP_cons_of_neg (by simpa using hb), find?_cons, find?_cons, ih hnodup.2]
      by_cases hk' : key b = k'
      · have hne : k ≠ k' := fun heq => hb (by rw [hk', heq])
        simp [hk', hne]
      · simp [hk']

/-- **A deletion changes the map at one key.** -/
theorem Good.find_delete (hg : t.Good key hash) (k k' : κ) :
    (t.delete key hash k).find key hash k' = if k = k' then none else t.find key hash k' := by
  unfold ChainTable.delete
  by_cases hs : t.SameChain (hash k) (hash k')
  · rw [find_setChain_of_same hs, find?_eraseP (hg.distinct _)]
    unfold find
    rw [chain_of_same hs]
  · have hk : k ≠ k' := by
      intro heq
      exact hs (heq ▸ sameChain_self _)
    rw [find_setChain_of_not_same hs, if_neg hk]

theorem Good.delete (hg : t.Good key hash) (k : κ) : (t.delete key hash k).Good key hash := by
  have hsub := eraseP_sublist (p := fun a => decide (key a = k)) (l := t.chain (hash k))
  refine hg.setChain (fun a ha => hg.mem_chain (hsub.mem ha)) ?_
  exact (hg.distinct _).sublist (hsub.map key)

/-- **A change in place** that keeps the key. -/
theorem find_modify (k' : κ) {f : α → α} (hf : ∀ a, key a = k → key (f a) = k) :
    (t.modify key hash k f).find key hash k'
      = if k = k' then (t.find key hash k').map f else t.find key hash k' := by
  have hlist : ∀ l : List α, (l.replaceF fun a => if key a = k then some (f a) else none).find?
      (fun a => decide (key a = k')) = if k = k' then (l.find? (fun a => decide (key a = k'))).map f
        else l.find? (fun a => decide (key a = k')) := by
    intro l
    induction l with
    | nil => simp
    | cons b l ih =>
      by_cases hb : key b = k
      · have hfb := hf b hb
        rw [replaceF_cons_of_some _ (by rw [if_pos hb]), find?_cons, find?_cons]
        by_cases hk : k = k' <;> simp [hb, hfb, hk]
      · rw [replaceF_cons_of_none _ (by rw [if_neg hb]), find?_cons, find?_cons, ih]
        by_cases hb' : key b = k'
        · have hne : k ≠ k' := fun heq => hb (by rw [hb', heq])
          simp [hb', hne]
        · simp [hb']
  unfold modify
  by_cases hs : t.SameChain (hash k) (hash k')
  · rw [find_setChain_of_same hs, hlist]
    unfold find
    rw [chain_of_same hs]
  · have hk : k ≠ k' := by
      intro heq
      exact hs (heq ▸ sameChain_self _)
    rw [find_setChain_of_not_same hs, if_neg hk]

theorem Good.modify (hg : t.Good key hash) {f : α → α} (hf : ∀ a, key a = k → key (f a) = k) :
    (t.modify key hash k f).Good key hash := by
  have hkeys : ∀ l : List α, (l.replaceF fun a => if key a = k then some (f a) else none).map key = l.map key := by
    intro l
    induction l with
    | nil => rfl
    | cons b l ih =>
      by_cases hb : key b = k
      · rw [replaceF_cons_of_some _ (by rw [if_pos hb]), map_cons, map_cons, hf b hb, hb]
      · rw [replaceF_cons_of_none _ (by rw [if_neg hb]), map_cons, map_cons, ih]
  refine hg.setChain ?_ ?_
  · intro b hb
    have hmem := mem_map_of_mem (f := key) hb
    rw [hkeys] at hmem
    obtain ⟨a, ha, hkey⟩ := mem_map.mp hmem
    rw [← hkey]
    exact hg.mem_chain ha
  · rw [hkeys]
    exact hg.distinct _

end Find

/-! ### Expanding -/

theorem chain_expand (hexp : t.expanding = false) (hv : ℕ) : t.expand.chain hv = t.chain hv := by
  simp [chain, InOld, expand, hexp]

/-- **The larger table holds the same map.** -/
theorem find_expand [DecidableEq κ] (hexp : t.expanding = false) (k : κ) :
    t.expand.find key hash k = t.find key hash k := by
  unfold find
  rw [chain_expand hexp]

theorem Good.expand (hg : t.Good key hash) (hexp : t.expanding = false) : t.expand.Good key hash where
  bucket_lt := by
    intro _
    exact ⟨Nat.succ_pos _, Nat.pow_pos (by omega)⟩
  primary_hash := by simp [ChainTable.expand]
  primary_moved := by simp [ChainTable.expand]
  old_hash := by
    intro _ b a ha
    exact hg.primary_hash b a ha
  distinct := by
    intro hv
    rw [chain_expand hexp]
    exact hg.distinct hv

/-- What the chains of the larger table receive, the last element first. -/
theorem foldl_push (power : ℕ) (l : List α) (primary : ℕ → List α) (b : ℕ) :
    l.foldl (push key hash power) primary b
      = (l.filter fun a => decide (hash (key a) % 2 ^ power = b)).reverse ++ primary b := by
  induction l generalizing primary with
  | nil => simp
  | cons a l ih =>
    rw [foldl_cons, ih, filter_cons]
    by_cases hb : hash (key a) % 2 ^ power = b
    · subst hb
      simp [push]
    · simp [push, hb, update_of_ne (Ne.symm hb)]

/-- Behind the move, the old chains from the next one on are still in the old table. -/
theorem inOld_moveBucket (hg : t.Good key hash) (hexp : t.expanding = true) (hv : ℕ) :
    (t.moveBucket key hash).InOld hv ↔ t.expandBucket < hv % 2 ^ (t.power - 1) := by
  have hmod : hv % 2 ^ (t.power - 1) < 2 ^ (t.power - 1) := Nat.mod_lt _ (Nat.pow_pos (by omega))
  have hb := (hg.bucket_lt hexp).2
  unfold InOld moveBucket
  simp only [ne_eq, decide_not, Bool.not_eq_eq_eq_not, Bool.not_true, decide_eq_false_iff_not]
  omega

/-- The chain of every hash value has the elements it had, in another order if it was the one that was moved. -/
theorem Good.chain_moveBucket (hg : t.Good key hash) (hexp : t.expanding = true) (hv : ℕ) :
    (t.moveBucket key hash).chain hv
      = if hv % 2 ^ (t.power - 1) = t.expandBucket then
          ((t.chain hv).filter fun a => decide (hash (key a) % 2 ^ t.power = hv % 2 ^ t.power)).reverse
        else t.chain hv := by
  have hIn := inOld_moveBucket hg hexp hv
  have hInOld : t.InOld hv ↔ t.expandBucket ≤ hv % 2 ^ (t.power - 1) := by
    unfold InOld
    simp [hexp]
  rcases Nat.lt_trichotomy (hv % 2 ^ (t.power - 1)) t.expandBucket with hlt | heq | hgt
  · -- moved before: nothing of the chain that is moved now belongs here
    rw [if_neg (by omega)]
    unfold chain
    rw [if_neg (by rw [hIn]; omega), if_neg (by rw [hInOld]; omega)]
    show (t.old t.expandBucket).foldl (push key hash t.power) t.primary (hv % 2 ^ t.power) = _
    rw [foldl_push]
    have hnone : (t.old t.expandBucket).filter (fun a =>
      decide (hash (key a) % 2 ^ t.power = hv % 2 ^ t.power)) = [] := by
      rw [filter_eq_nil_iff]
      intro a ha hdec
      have h1 := hg.old_hash hexp _ a ha
      have h2 := mod_pred_eq (of_decide_eq_true hdec)
      omega
    rw [hnone, reverse_nil, nil_append]
  · rw [if_pos heq]
    unfold chain
    rw [if_neg (by rw [hIn]; omega), if_pos (by rw [hInOld]; omega)]
    show (t.old t.expandBucket).foldl (push key hash t.power) t.primary (hv % 2 ^ t.power) = _
    rw [foldl_push, heq]
    have hnone : t.primary (hv % 2 ^ t.power) = [] := by
      rw [eq_nil_iff_forall_not_mem]
      intro a ha
      have h1 := hg.primary_moved hexp _ a ha
      have h2 := mod_pred_eq (hg.primary_hash _ a ha)
      omega
    rw [hnone, append_nil]
  · rw [if_neg (by omega)]
    unfold chain
    rw [if_pos (by rw [hIn]; omega), if_pos (by rw [hInOld]; omega)]
    show update t.old t.expandBucket [] (hv % 2 ^ (t.power - 1)) = _
    rw [update_of_ne (by omega)]

theorem Good.moveBucket (hg : t.Good key hash) (hexp : t.expanding = true) :
    (t.moveBucket key hash).Good key hash where
  bucket_lt := by
    have hb := hg.bucket_lt hexp
    simp only [ChainTable.moveBucket, ne_eq, decide_not, Bool.not_eq_eq_eq_not, Bool.not_true,
      decide_eq_false_iff_not]
    omega
  primary_hash := by
    intro b a ha
    change a ∈ (t.old t.expandBucket).foldl (push key hash t.power) t.primary b at ha
    rw [foldl_push, mem_append, mem_reverse, mem_filter] at ha
    rcases ha with ha | ha
    · exact of_decide_eq_true ha.2
    · exact hg.primary_hash b a ha
  primary_moved := by
    intro _ b a ha
    change a ∈ (t.old t.expandBucket).foldl (push key hash t.power) t.primary b at ha
    show hash (key a) % 2 ^ (t.power - 1) < t.expandBucket + 1
    rw [foldl_push, mem_append, mem_reverse, mem_filter] at ha
    rcases ha with ha | ha
    · rw [hg.old_hash hexp _ a ha.1]
      exact Nat.lt_succ_self _
    · exact Nat.lt_succ_of_lt (hg.primary_moved hexp b a ha)
  old_hash := by
    intro _ b a ha
    change a ∈ update t.old t.expandBucket [] b at ha
    by_cases hb : b = t.expandBucket
    · simp [hb] at ha
    · rw [update_of_ne hb] at ha
      exact hg.old_hash hexp b a ha
  distinct := by
    intro hv
    rw [hg.chain_moveBucket hexp]
    split
    · rw [map_reverse, nodup_reverse]
      exact (hg.distinct hv).sublist (filter_sublist.map key)
    · exact hg.distinct hv

/-- **The move of a chain changes nothing.** -/
theorem Good.find_moveBucket [DecidableEq κ] (hg : t.Good key hash) (hexp : t.expanding = true) (k : κ) :
    (t.moveBucket key hash).find key hash k = t.find key hash k := by
  have hmem : ∀ a, key a = k → (a ∈ (t.moveBucket key hash).chain (hash k) ↔ a ∈ t.chain (hash k)) := by
    intro a hk
    rw [hg.chain_moveBucket hexp]
    split
    · simp [hk]
    · rfl
  apply Option.ext
  intro a
  rw [(hg.moveBucket hexp).find_eq_some_iff, hg.find_eq_some_iff]
  constructor
  · rintro ⟨hk, ha⟩
    exact ⟨hk, (hmem a hk).mp ha⟩
  · rintro ⟨hk, ha⟩
    exact ⟨hk, (hmem a hk).mpr ha⟩

end ChainTable
