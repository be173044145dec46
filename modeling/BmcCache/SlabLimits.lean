import BmcCache.SlabPages
import Mathlib.Algebra.BigOperators.Group.Finset.Basic
import Mathlib.Algebra.Order.BigOperators.Group.Finset
import Mathlib.Order.Interval.Finset.Nat

/-!
# Slab memory: the counter and the limit

`mem_malloced` counts the bytes of the slab pages. `memory_allocate` adds to it, whether `malloc` succeeds or not, and
`memory_release` takes from it what it frees. `do_slabs_newslab` compares it with `mem_limit`, except for a class that
has no page yet.

* `newslab_counts`, `releaseLoop_drift`, `finish_counts` — what the critical sections do to the numbers of pages;
* `memory_accounting_iff` — along a run the counter is the size of all pages exactly as long as no `malloc` fails and
  no page is taken from a pool that has run empty;
* `memory_limit_bound` — as long as the counter does not wrap, all pages together stay within the limit and one page
  for each class.
-/

namespace BmcCache

open Function

/-- Pages may be moved, so that every page has `slab_page_size` bytes, and there is no preallocation. -/
def reassigning (powerLargest : ℕ) : PageConfig where
  powerLargest := powerLargest
  len _ := slabPageSize
  len_pos _ := slabPageSize_pos
  slabReassign := true
  preallocated := false

theorem reassigning_len (n id : ℕ) : (reassigning n).len id = slabPageSize := rfl

namespace PageState

/-! ### Numbers of pages -/

/-- `slabs` of every class. -/
def slabCount (s : PageState) (id : ℕ) : ℕ := (s.cls id).slabs

@[simp] theorem slabCount_setCls (s : PageState) (id : ℕ) (p : SlabList) :
    (s.setCls id p).slabCount = update s.slabCount id p.slabs := by
  funext i
  by_cases hi : i = id
  · subst hi
    rw [slabCount, setCls_cls_self, update_self]
  · rw [slabCount, setCls_cls_of_ne s hi, update_of_ne hi, slabCount]

@[simp] theorem slabCount_freePage (s : PageState) (ptr : ℕ) : (s.freePage ptr).slabCount = s.slabCount := by
  funext i
  rw [slabCount, freePage_cls, slabCount]

/-- The pages of all classes up to `n` and of the pool. -/
def heldPages (n : ℕ) (count : ℕ → ℕ) : ℕ := ∑ id ∈ Finset.range (n + 1), count id

variable {id x : ℕ}

theorem heldPages_update {n : ℕ} (hid : id ≤ n) (count : ℕ → ℕ) (v : ℕ) :
    heldPages n (update count id v) + count id = heldPages n count + v := by
  have hmem : id ∈ Finset.range (n + 1) := Finset.mem_range.mpr (by omega)
  rw [heldPages, heldPages, ← Finset.add_sum_erase _ _ hmem, ← Finset.add_sum_erase _ count hmem,
    update_self]
  have hrest : ∑ i ∈ (Finset.range (n + 1)).erase id, update count id v i =
      ∑ i ∈ (Finset.range (n + 1)).erase id, count i :=
    Finset.sum_congr rfl fun i hi => update_of_ne (Finset.ne_of_mem_erase hi) _ _
  rw [hrest]
  omega

theorem heldPages_mono {n : ℕ} {count count' : ℕ → ℕ} (h : ∀ id, count id ≤ count' id) :
    heldPages n count ≤ heldPages n count' :=
  Finset.sum_le_sum fun id _ => h id

theorem heldPages_move {n i j : ℕ} (hi : i ≤ n) (hj : j ≤ n) (hne : i ≠ j) {count : ℕ → ℕ}
    (hpos : 0 < count i) :
    heldPages n (update (update count i (count i - 1)) j (count j + 1)) = heldPages n count := by
  have h1 := heldPages_update hi count (count i - 1)
  have h2 := heldPages_update hj (update count i (count i - 1)) (count j + 1)
  rw [update_of_ne hne.symm] at h2
  omega

variable {n : ℕ} {s s' : PageState}

/-! ### Allocations -/

theorem growSlabList_counts (s : PageState) (id : ℕ) (realloc : Bool) :
    (s.growSlabList id realloc).2.slabCount = s.slabCount ∧
      (s.growSlabList id realloc).2.memMalloced = s.memMalloced ∧ Worked s (s.growSlabList id realloc).2 ∧
      (s.growSlabList id realloc).2.memLimit = s.memLimit := by
  obtain ⟨size, hsize, hgrow, -⟩ := growSlabList_spec s id realloc
  rw [hgrow]
  refine ⟨?_, rfl, Worked.grow s hsize, rfl⟩
  rw [slabCount_setCls]
  exact update_eq_self _ _

theorem memoryAllocate_malloc (n : ℕ) (s : PageState) (size : ℕ) (malloc : Option ℕ) :
    s.memoryAllocate (reassigning n) size malloc =
      (malloc, { s with memMalloced := (s.memMalloced + size) % 2 ^ 64
                        live := malloc.elim s.live (insert · s.live) }) := by
  unfold memoryAllocate
  rw [if_neg (show ¬ (reassigning n).preallocated = true from Bool.false_ne_true)]
  cases malloc <;> rfl

/-- `do_slabs_newslab` gets to the page: the limit does not forbid it and the array has room. -/
def Attempts (s : PageState) (id : ℕ) (realloc : Bool) : Prop :=
  ¬ (s.memLimit ≠ 0 ∧ s.memLimit < (s.memMalloced + slabPageSize) % 2 ^ 64 ∧ 0 < s.slabCount id ∧
    s.slabCount 0 = 0) ∧ (s.growSlabList id realloc).1 = true

/-- What an allocation does to the numbers of pages and to the counter. -/
inductive Allocated (s s' : PageState) (id : ℕ) (realloc : Bool) (malloc : Option ℕ) : Prop where
  | refused (hcount : s'.slabCount = s.slabCount) (hmem : s'.memMalloced = s.memMalloced)
      (hnot : ¬ s.Attempts id realloc)
  | reused (hpos : 0 < s.slabCount 0) (hmem : s'.memMalloced = s.memMalloced)
      (hcount : s'.slabCount =
        update (update s.slabCount 0 (s.slabCount 0 - 1)) id (s.slabCount id + 1))
  | grown (ptr : ℕ) (hptr : malloc = some ptr) (hpool : s.slabCount 0 = 0) (hatt : s.Attempts id realloc)
      (hmem : s'.memMalloced = (s.memMalloced + slabPageSize) % 2 ^ 64)
      (hcount : s'.slabCount = update s.slabCount id (s.slabCount id + 1))
  | failed (hptr : malloc = none) (hpool : s.slabCount 0 = 0) (hatt : s.Attempts id realloc)
      (hmem : s'.memMalloced = (s.memMalloced + slabPageSize) % 2 ^ 64) (hcount : s'.slabCount = s.slabCount)

/-- **An allocation** is refused, takes a page of the pool, gets a new page or fails to. -/
theorem newslab_counts (n : ℕ) (s : PageState) (hid : id ≠ 0) (realloc : Bool) (malloc : Option ℕ) :
    Allocated s (s.doSlabsNewslab (reassigning n) id realloc malloc) id realloc malloc ∧
      Worked s (s.doSlabsNewslab (reassigning n) id realloc malloc) ∧
      (s.doSlabsNewslab (reassigning n) id realloc malloc).memLimit = s.memLimit := by
  rw [doSlabsNewslab, reassigning_len]
  split
  · rename_i hdenied
    exact ⟨.refused rfl rfl fun hatt => hatt.1 hdenied, Worked.refl s, rfl⟩
  rename_i hallowed
  obtain ⟨hcount, hmem, hworked, hlimit⟩ := growSlabList_counts s id realloc
  have hatt : (s.growSlabList id realloc).1 = true → s.Attempts id realloc := fun h => ⟨hallowed, h⟩
  cases hres : s.growSlabList id realloc with
  | mk grown s₁ =>
    rw [hres] at hcount hmem hworked hlimit hatt
    dsimp only at hcount hmem hworked hlimit hatt ⊢
    cases grown with
    | false =>
      refine ⟨.refused hcount hmem fun h => ?_, hworked, hlimit⟩
      rw [Attempts, hres] at h
      cases h.2
    | true =>
      have hpool : (s₁.cls 0).slabs = s.slabCount 0 := congrFun hcount 0
      dsimp only [newPage]
      cases hget : s₁.getPageFromGlobalPool with
      | some r =>
        obtain ⟨ptr, s₂⟩ := r
        obtain ⟨hpos, rfl, rfl⟩ := getPageFromGlobalPool_eq_some hget
        refine ⟨.reused (hpool ▸ hpos) hmem ?_,
          hworked.trans ((Worked.pop s₁).trans (Worked.push _ hid _)), hlimit⟩
        show (PageState.setCls _ id _).slabCount = _
        rw [slabCount_setCls, slabCount_setCls, hcount, setCls_cls_of_ne s₁ hid]
        show update (update s.slabCount 0 ((s₁.cls 0).slabs - 1)) id ((s₁.cls id).slabs + 1) = _
        rw [hpool, show (s₁.cls id).slabs = s.slabCount id from congrFun hcount id]
      | none =>
        have hset : ∀ m live, Worked s₁ { s₁ with memMalloced := m, live := live } :=
          fun _ _ => Worked.of_cls rfl rfl rfl rfl
        have hempty : s.slabCount 0 = 0 := by
          rw [getPageFromGlobalPool] at hget
          split at hget
          · omega
          · cases hget
        -- the counter is opaque from here on
        obtain ⟨m, hm⟩ : ∃ m, m = (s.memMalloced + slabPageSize) % 2 ^ 64 := ⟨_, rfl⟩
        rw [reassigning_len, memoryAllocate_malloc, hmem, ← hm]
        cases malloc with
        | none => exact ⟨.failed rfl hempty (hatt rfl) hm hcount, hworked.trans (hset m _), hlimit⟩
        | some ptr =>
          refine ⟨.grown ptr rfl hempty (hatt rfl) hm ?_,
            hworked.trans ((hset m _).trans (Worked.push _ hid _)), hlimit⟩
          show (PageState.setCls _ id _).slabCount = _
          rw [slabCount_setCls]
          show update s₁.slabCount id (s₁.slabCount id + 1) = _
          rw [hcount]

/-! ### Releases -/

/-- The counter is off by `x` from the size of all pages. -/
structure Drift (n x : ℕ) (s : PageState) : Prop where
  eq : s.memMalloced = slabPageSize * heldPages n s.slabCount + x
  lt : s.memMalloced < 2 ^ 64

theorem Drift.congr (h : Drift n x s) (hmem : s'.memMalloced = s.memMalloced)
    (hheld : heldPages n s'.slabCount = heldPages n s.slabCount) : Drift n x s' := by
  refine ⟨?_, hmem ▸ h.lt⟩
  rw [hmem, hheld]
  exact h.eq

theorem Drift.grown (h : Drift n x s) (hid : id ≤ n) (hwrap : s.memMalloced + slabPageSize < 2 ^ 64)
    (hmem : s'.memMalloced = (s.memMalloced + slabPageSize) % 2 ^ 64)
    (hcount : s'.slabCount = update s.slabCount id (s.slabCount id + 1)) :
    Drift n x s' ∧ heldPages n s'.slabCount = heldPages n s.slabCount + 1 := by
  have hheld := heldPages_update hid s.slabCount (s.slabCount id + 1)
  have heq := h.eq
  rw [Nat.mod_eq_of_lt hwrap] at hmem
  rw [← hcount] at hheld
  refine ⟨⟨?_, by omega⟩, by omega⟩
  rw [hmem, heq, show heldPages n s'.slabCount = heldPages n s.slabCount + 1 by omega, Nat.mul_add]
  omega

theorem Drift.failed (h : Drift n x s) (hwrap : s.memMalloced + slabPageSize < 2 ^ 64)
    (hmem : s'.memMalloced = (s.memMalloced + slabPageSize) % 2 ^ 64) (hcount : s'.slabCount = s.slabCount) :
    Drift n (x + slabPageSize) s' := by
  have heq := h.eq
  rw [Nat.mod_eq_of_lt hwrap] at hmem
  refine ⟨?_, by omega⟩
  rw [hmem, heq, hcount, Nat.add_assoc]

/-- **A release** takes as much from the counter as it frees, and takes pages of the pool only. -/
theorem releaseLoop_drift (k : ℕ) (h : Drift n x s) :
    Drift n x (releaseLoop k s) ∧ Worked s (releaseLoop k s) ∧ (releaseLoop k s).memLimit = s.memLimit ∧
      ∀ id, id ≠ 0 → (releaseLoop k s).slabCount id = s.slabCount id := by
  induction k generalizing s with
  | zero => exact ⟨h, Worked.refl s, rfl, fun _ _ => rfl⟩
  | succ k ih =>
    rw [releaseLoop]
    split
    · cases hpool : s.getPageFromGlobalPool with
      | none => exact ⟨h, Worked.refl s, rfl, fun _ _ => rfl⟩
      | some r =>
        obtain ⟨ptr, s'⟩ := r
        obtain ⟨hpos, rfl, rfl⟩ := getPageFromGlobalPool_eq_some hpool
        have hheld := heldPages_update (Nat.zero_le n) s.slabCount ((s.cls 0).slabs - 1)
        have hcount : ∀ ptr, ((s.setCls 0 (s.cls 0).pop).freePage ptr).slabCount =
            update s.slabCount 0 ((s.cls 0).slabs - 1) := by
          intro ptr
          rw [slabCount_freePage, slabCount_setCls]
          rfl
        have hdrift : ∀ ptr, Drift n x ((s.setCls 0 (s.cls 0).pop).freePage ptr) := by
          intro ptr
          have heq := h.eq
          have hlt := h.lt
          have hc : s.slabCount 0 = (s.cls 0).slabs := rfl
          have hmem : ((s.setCls 0 (s.cls 0).pop).freePage ptr).memMalloced =
              (s.memMalloced + 2 ^ 64 - slabPageSize) % 2 ^ 64 := by
            simp only [freePage, setCls]
          have hsub : (s.memMalloced + 2 ^ 64 - slabPageSize) % 2 ^ 64 = s.memMalloced - slabPageSize := by
            simp only [slabPageSize] at heq ⊢
            omega
          refine ⟨?_, by rw [hmem, hsub]; omega⟩
          rw [hmem, hsub, hcount]
          simp only [slabPageSize] at heq ⊢
          omega
        obtain ⟨hrest, hworked, hlimit, hothers⟩ := ih (hdrift ((s.cls 0).slabList ((s.cls 0).slabs - 1)))
        refine ⟨hrest, ((Worked.pop s).trans (Worked.freePage _ _)).trans hworked, hlimit, fun id hid => ?_⟩
        rw [hothers id hid, hcount, update_of_ne hid]
    · exact ⟨h, Worked.refl s, rfl, fun _ _ => rfl⟩

theorem memoryRelease_drift (h : Drift n x s) :
    Drift n x (s.memoryRelease (reassigning n)) ∧ Worked s (s.memoryRelease (reassigning n)) ∧
      (s.memoryRelease (reassigning n)).memLimit = s.memLimit ∧
      ∀ id, id ≠ 0 → (s.memoryRelease (reassigning n)).slabCount id = s.slabCount id := by
  rw [memoryRelease, if_neg (by simp [reassigning])]
  exact releaseLoop_drift _ h

/-! ### Moves -/

/-- A move under way is between two classes, and its source keeps a page if it is not the pool. -/
structure MoveSound (n : ℕ) (s : PageState) : Prop where
  running : s.signal = .running → s.rebal.sClsid ≤ n ∧ s.rebal.dClsid ≤ n ∧
    s.rebal.sClsid ≠ s.rebal.dClsid ∧
    (s.rebal.sClsid ≠ 0 → 2 ≤ s.slabCount s.rebal.sClsid)
  done : s.rebal.done = true → s.signal = .running
  pending : s.pending.isSome → s.signal = .idle

theorem MoveSound.worked (h : MoveSound n s) (hw : Worked s s') : MoveSound n s' := by
  refine ⟨?_, ?_, ?_⟩
  · rw [hw.signal, hw.rebal]
    intro hr
    obtain ⟨hs, hd, hne, htwo⟩ := h.running hr
    exact ⟨hs, hd, hne, fun h0 => (htwo h0).trans (hw.slabs _ h0)⟩
  · rw [hw.signal, hw.rebal]
    exact h.done
  · rw [hw.signal, hw.pending]
    exact h.pending

structure Quiet (s s' : PageState) : Prop where
  slabCount : s'.slabCount = s.slabCount
  memMalloced : s'.memMalloced = s.memMalloced
  memLimit : s'.memLimit = s.memLimit

theorem quiet_reassign (h : MoveSound n s) (cfg : PageConfig) (src dst : ℤ) :
    Quiet s (s.doSlabsReassign cfg src dst) ∧ MoveSound n (s.doSlabsReassign cfg src dst) := by
  obtain ⟨cur, pending, heq, hpending⟩ := doSlabsReassign_eq cfg s src dst
  rw [heq]
  refine ⟨⟨rfl, rfl, rfl⟩, h.running, h.done, fun hp => ?_⟩
  rcases hpending with rfl | hidle
  · exact h.pending hp
  · exact hidle

theorem quiet_pass (h : MoveSound n s) : Quiet s s.passRequest ∧ MoveSound n s.passRequest := by
  rw [passRequest]
  cases hp : s.pending with
  | none => exact ⟨⟨rfl, rfl, rfl⟩, h⟩
  | some r =>
    refine ⟨⟨rfl, rfl, rfl⟩, (by intro hr; cases hr), fun hd => ?_, (by intro hs; cases hs)⟩
    have hrun := h.done hd
    rw [h.pending (by rw [hp]; rfl)] at hrun
    cases hrun

theorem quiet_start (h : MoveSound n s) (realloc : Bool) :
    Quiet s (s.slabRebalanceStart (reassigning n) realloc) ∧
      MoveSound n (s.slabRebalanceStart (reassigning n) realloc) := by
  rw [slabRebalanceStart]
  split
  · exact ⟨⟨rfl, rfl, rfl⟩, h⟩
  rename_i hreq
  obtain ⟨hcount, hmem, hworked, hlimit⟩ := growSlabList_counts s s.rebal.dClsid realloc
  cases hres : s.growSlabList s.rebal.dClsid realloc with
  | mk grown s₁ =>
    rw [hres] at hcount hmem hworked hlimit
    dsimp only at hcount hmem hworked hlimit ⊢
    have hsound := h.worked hworked
    have hsignal : s₁.signal = .requested := hworked.signal.trans (not_not.mp hreq)
    have hnotdone : s₁.rebal.done ≠ true := fun hd => by cases hsignal.symm.trans (hsound.done hd)
    have hpending : s₁.pending.isSome ≠ true := fun hp => by cases hsignal.symm.trans (hsound.pending hp)
    split
    · exact ⟨⟨hcount, hmem, hlimit⟩, (by intro hr; cases hr), fun hd => absurd hd hnotdone, fun _ => rfl⟩
    · rename_i hgo
      push Not at hgo
      obtain ⟨hs, hd, hne, -, htwo⟩ := hgo
      exact ⟨⟨hcount, hmem, hlimit⟩, fun _ => ⟨hs, hd, hne, fun _ => htwo⟩, fun _ => rfl,
        fun hp => absurd hp hpending⟩

theorem quiet_move (h : MoveSound n s) (clear : Bool) :
    Quiet s (s.slabRebalanceMove clear) ∧ MoveSound n (s.slabRebalanceMove clear) := by
  rw [slabRebalanceMove]
  split
  · rename_i hrun
    exact ⟨⟨rfl, rfl, rfl⟩, h.running, fun _ => hrun.1, h.pending⟩
  · exact ⟨⟨rfl, rfl, rfl⟩, h⟩

/-- The numbers of pages when one has gone from the source of the move to its destination. -/
def movedCount (s : PageState) : ℕ → ℕ :=
  update (update s.slabCount s.rebal.sClsid (s.slabCount s.rebal.sClsid - 1)) s.rebal.dClsid
    (s.slabCount s.rebal.dClsid + 1)

theorem slabCount_movePage (hne : s.rebal.sClsid ≠ s.rebal.dClsid) (ptr : ℕ) :
    (s.movePage ptr).slabCount = s.movedCount := by
  show (PageState.setCls _ _ _).slabCount = _
  rw [slabCount_setCls, slabCount_setCls, movedCount]
  congr 1
  show ((s.setCls s.rebal.sClsid (s.cls s.rebal.sClsid).shift).cls s.rebal.dClsid).slabs + 1 = _
  rw [setCls_cls_of_ne s hne.symm]
  rfl

/-- **The end of a move** whose source has a page: no page is gained or lost, but for those released from the pool. -/
theorem finish_counts (h : MoveSound n s) (hdrift : Drift n x s) (hdone : s.rebal.done = true)
    (hpool : s.rebal.sClsid = 0 → 0 < s.slabCount 0) :
    Drift n x (s.slabRebalanceFinish (reassigning n)) ∧
      (s.slabRebalanceFinish (reassigning n)).memLimit = s.memLimit ∧
      MoveSound n (s.slabRebalanceFinish (reassigning n)) ∧
      heldPages n (s.slabRebalanceFinish (reassigning n)).slabCount ≤ heldPages n s.slabCount ∧
      ∀ id, id ≠ 0 → (s.slabRebalanceFinish (reassigning n)).slabCount id = s.movedCount id := by
  obtain ⟨hs, hd, hne, htwo⟩ := h.running (h.done hdone)
  have hpos : 0 < s.slabCount s.rebal.sClsid := by
    by_cases h0 : s.rebal.sClsid = 0
    · rw [h0]
      exact hpool h0
    · exact Nat.lt_of_lt_of_le Nat.two_pos (htwo h0)
  have hcount := slabCount_movePage hne
  have hheld : heldPages n s.movedCount = heldPages n s.slabCount := heldPages_move hs hd hne hpos
  have hmoved : ∀ ptr, Drift n x (s.movePage ptr) := by
    intro ptr
    refine ⟨?_, hdrift.lt⟩
    rw [hcount, hheld]
    exact hdrift.eq
  rw [slabRebalanceFinish, if_neg (by rw [hdone]; decide),
    if_neg (show (s.cls s.rebal.sClsid).slabs ≠ 0 from Nat.pos_iff_ne_zero.mp hpos)]
  dsimp only
  split
  · obtain ⟨hrel, hworked, hlimit, hothers⟩ := memoryRelease_drift (hmoved (s.rebal.slabStart.getD 0))
    refine ⟨⟨hrel.eq, hrel.lt⟩, hlimit, ⟨(by intro hr; cases hr), (by intro hd; cases hd), fun _ => rfl⟩, ?_,
      fun id hid => (hothers id hid).trans (congrFun (hcount _) id)⟩
    rw [← hheld, ← hcount (s.rebal.slabStart.getD 0)]
    refine heldPages_mono fun id => ?_
    by_cases hid : id = 0
    · rw [hid]
      exact hworked.pool_slabs
    · exact (hothers id hid).le
  · have hdrift' := hmoved (s.rebal.slabStart.getD 0)
    refine ⟨⟨hdrift'.eq, hdrift'.lt⟩, rfl,
      ⟨(by intro hr; cases hr), (by intro hd; cases hd), fun _ => rfl⟩, ?_,
      fun id _ => congrFun (hcount _) id⟩
    rw [← hheld, ← hcount (s.rebal.slabStart.getD 0)]
    exact le_rfl

/-- The end of a move from a pool that has run empty: its number of pages wraps. -/
theorem finish_counts_empty (hdone : s.rebal.done = true) (hs : s.rebal.sClsid = 0) (hempty : s.slabCount 0 = 0) :
    (s.slabRebalanceFinish (reassigning n)).memMalloced = s.memMalloced ∧
      heldPages n (s.slabRebalanceFinish (reassigning n)).slabCount = heldPages n s.slabCount + (2 ^ 32 - 1) := by
  rw [slabRebalanceFinish, if_neg (by rw [hdone]; decide), hs, if_pos (show (s.cls 0).slabs = 0 from hempty)]
  refine ⟨rfl, ?_⟩
  show heldPages n (s.setCls 0 { s.cls 0 with slabs := 2 ^ 32 - 1 }).slabCount = _
  rw [slabCount_setCls]
  have hheld := heldPages_update (Nat.zero_le n) s.slabCount (2 ^ 32 - 1)
  rw [hempty] at hheld
  exact hheld

/-! ### Accounting -/

/-- `mem_malloced` is the size of all pages. -/
def Accounted (n : ℕ) (s : PageState) : Prop := s.memMalloced = slabPageSize * heldPages n s.slabCount

instance (n : ℕ) (s : PageState) : Decidable (Accounted n s) := inferInstanceAs (Decidable (_ = _))

/-- What keeps the counter right: no `malloc` fails, and a page that is to leave the pool is still there. -/
def NoDrift (s : PageState) : PageEvent → Prop
  | .newslab id realloc malloc => malloc = none → s.slabCount 0 = 0 → ¬ s.Attempts id realloc
  | .finish => s.rebal.done = true → s.rebal.sClsid = 0 → 0 < s.slabCount 0
  | _ => True

/-- `malloc` finds a page only where all pages still fit into the address space. -/
def FitsMemory (n : ℕ) (s : PageState) : PageEvent → Prop
  | .newslab _ _ malloc => malloc.isSome → slabPageSize * (heldPages n s.slabCount + 1) < 2 ^ 64
  | _ => True

theorem Quiet.drift (h : Quiet s s') (hdrift : Drift n x s) : Drift n x s' :=
  hdrift.congr h.memMalloced (by rw [h.slabCount])

theorem Drift.accounted (h : Drift n 0 s) : Accounted n s := h.eq

/-- **One section** keeps the counter right exactly under the condition. -/
theorem accounted_step (h : MoveSound n s) (hdrift : Drift n 0 s) {e : PageEvent}
    (hallowed : e.Allowed (reassigning n) s) (hfits : FitsMemory n s e) :
    (Accounted n (pageStep (reassigning n) s e) ↔ NoDrift s e) ∧
      (NoDrift s e → Drift n 0 (pageStep (reassigning n) s e) ∧ MoveSound n (pageStep (reassigning n) s e)) := by
  -- every section but a failed allocation and a move from an empty pool keeps the difference
  have hkeep : NoDrift s e → Drift n 0 (pageStep (reassigning n) s e) ∧
      MoveSound n (pageStep (reassigning n) s e) →
      (Accounted n (pageStep (reassigning n) s e) ↔ NoDrift s e) ∧
        (NoDrift s e → Drift n 0 (pageStep (reassigning n) s e) ∧ MoveSound n (pageStep (reassigning n) s e)) :=
    fun hno hgood => ⟨iff_of_true hgood.1.accounted hno, fun _ => hgood⟩
  cases e with
  | newslab id realloc malloc =>
    have hid : id ≠ 0 := Nat.one_le_iff_ne_zero.mp hallowed.1.1
    obtain ⟨halloc, hworked, -⟩ :
        Allocated s (pageStep (reassigning n) s (.newslab id realloc malloc)) id realloc malloc ∧
          Worked s (pageStep (reassigning n) s (.newslab id realloc malloc)) ∧ _ :=
      newslab_counts n s hid realloc malloc
    have hsound := h.worked hworked
    cases halloc with
    | refused hcount hmem hnot => exact hkeep (fun _ _ => hnot) ⟨hdrift.congr hmem (by rw [hcount]), hsound⟩
    | reused hpos hmem hcount =>
      refine hkeep (fun _ h0 => absurd h0 (Nat.pos_iff_ne_zero.mp hpos)) ⟨hdrift.congr hmem ?_, hsound⟩
      rw [hcount]
      exact heldPages_move (Nat.zero_le n) hallowed.1.2 hid.symm hpos
    | grown ptr hptr hpool hatt hmem hcount =>
      subst hptr
      have hwrap : s.memMalloced + slabPageSize < 2 ^ 64 := by
        have hroom := hfits rfl
        rw [hdrift.eq, Nat.add_zero, ← Nat.mul_succ]
        exact hroom
      exact hkeep (fun hnone => nomatch hnone) ⟨(hdrift.grown hallowed.1.2 hwrap hmem hcount).1, hsound⟩
    | failed hptr hpool hatt hmem hcount =>
      have hno : ¬ NoDrift s (.newslab id realloc malloc) := fun hno => hno hptr hpool hatt
      refine ⟨iff_of_false (fun hacc => ?_) hno, fun h => absurd h hno⟩
      have hacc' : (s.memMalloced + slabPageSize) % 2 ^ 64 = s.memMalloced := by
        rw [← hmem, hacc, hcount, hdrift.eq, Nat.add_zero]
      have hlt := hdrift.lt
      simp only [slabPageSize] at hacc'
      omega
  | reassign src dst =>
    obtain ⟨hquiet, hsound⟩ := quiet_reassign h (reassigning n) src dst
    exact hkeep trivial ⟨hquiet.drift hdrift, hsound⟩
  | pass =>
    obtain ⟨hquiet, hsound⟩ := quiet_pass h
    exact hkeep trivial ⟨hquiet.drift hdrift, hsound⟩
  | start realloc =>
    obtain ⟨hquiet, hsound⟩ := quiet_start h realloc
    exact hkeep trivial ⟨hquiet.drift hdrift, hsound⟩
  | move clear =>
    obtain ⟨hquiet, hsound⟩ := quiet_move h clear
    exact hkeep trivial ⟨hquiet.drift hdrift, hsound⟩
  | finish =>
    by_cases hdone : s.rebal.done = true
    · by_cases hpool : s.rebal.sClsid = 0 → 0 < s.slabCount 0
      · obtain ⟨hgood, -, hsound, -, -⟩ := finish_counts h hdrift hdone hpool
        exact hkeep (fun _ => hpool) ⟨hgood, hsound⟩
      · have hno : ¬ NoDrift s .finish := fun hno => hpool (hno hdone)
        refine ⟨iff_of_false (fun hacc => ?_) hno, fun h => absurd h hno⟩
        push Not at hpool
        obtain ⟨hmem, hheld⟩ := finish_counts_empty (n := n) hdone hpool.1 (Nat.le_zero.mp hpool.2)
        have hacc' : s.memMalloced = slabPageSize * (heldPages n s.slabCount + (2 ^ 32 - 1)) := by
          rw [← hmem, ← hheld]
          exact hacc
        have heq := hdrift.eq
        simp only [slabPageSize] at hacc' heq
        omega
    · have hsame : pageStep (reassigning n) s .finish = s := if_pos (by simpa using hdone)
      rw [hsame] at hkeep ⊢
      exact hkeep (fun hd => absurd hd hdone) ⟨hdrift, h⟩
  | memLimit newMemLimit =>
    have hset : Drift n 0 { s with memLimit := newMemLimit } := ⟨hdrift.eq, hdrift.lt⟩
    obtain ⟨hgood, hworked, -, -⟩ := memoryRelease_drift hset
    have hsound : MoveSound n { s with memLimit := newMemLimit } := ⟨h.running, h.done, h.pending⟩
    exact hkeep trivial ⟨hgood, hsound.worked hworked⟩

theorem Settled.moveSound {cfg : PageConfig} (h : s.Settled cfg) : MoveSound n s := by
  refine ⟨fun hr => ?_, fun hd => ?_, fun _ => h.signal⟩
  · rw [h.signal] at hr
    cases hr
  · rw [h.done] at hd
    cases hd

end PageState

open PageState in
/-- **Memory accounting.** From a settled server whose counter is right, along every run of critical sections: the
counter is the size of all pages in every state if and only if no `malloc` fails and no move takes a page from an
empty pool. -/
theorem memory_accounting_iff (n : ℕ) {s : PageState} (h : s.Settled (reassigning n)) (hacc : Drift n 0 s)
    (es : List PageEvent)
    (hallowed : Trace.All (pageStep (reassigning n)) (fun s e => e.Allowed (reassigning n) s ∧
      FitsMemory n s e) s es) :
    Trace.All (pageStep (reassigning n)) (fun s e => Accounted n (pageStep (reassigning n) s e)) s es ↔
      Trace.All (pageStep (reassigning n)) NoDrift s es := by
  have hsound : MoveSound n s := h.moveSound
  clear h
  induction es generalizing s with
  | nil => exact Iff.rfl
  | cons e es ih =>
    obtain ⟨hiff, hgood⟩ := accounted_step hsound hacc hallowed.1.1 hallowed.1.2
    constructor
    · rintro ⟨hnow, hrest⟩
      have hno := hiff.mp hnow
      obtain ⟨hacc', hsound'⟩ := hgood hno
      exact ⟨hno, (ih hacc' hallowed.2 hsound').mp hrest⟩
    · rintro ⟨hno, hrest⟩
      obtain ⟨hacc', hsound'⟩ := hgood hno
      exact ⟨hiff.mpr hno, (ih hacc' hallowed.2 hsound').mpr hrest⟩

open PageState in
/-- Two pages for class 1, one of which moves to class 2. -/
theorem memory_accounting_move :
    noPages.Settled (reassigning 3) ∧ Drift 3 0 noPages ∧
      Trace.All (pageStep (reassigning 3)) (fun s e => Accounted 3 (pageStep (reassigning 3) s e)) noPages
        moveOnePage ∧ (Trace.run (pageStep (reassigning 3)) noPages moveOnePage).memMalloced = 2 * slabPageSize := by
  have hdrift : Drift 3 0 noPages := ⟨by decide, by decide⟩
  have hallowed : Trace.All (pageStep (reassigning 3))
      (fun s e => e.Allowed (reassigning 3) s ∧ FitsMemory 3 s e) noPages moveOnePage := by
    refine ⟨⟨⟨by decide, by decide⟩, fun _ => by decide⟩,
      ⟨⟨by decide, ?_⟩, fun _ => by decide⟩, ⟨trivial, trivial⟩,
      ⟨trivial, trivial⟩, ⟨trivial, trivial⟩, ⟨trivial, trivial⟩, ⟨trivial, trivial⟩, trivial⟩
    intro ptr hptr
    obtain rfl := Option.some.inj hptr
    decide
  refine ⟨noPages_settled _, hdrift,
    (memory_accounting_iff 3 (noPages_settled _) hdrift _ hallowed).mpr ?_, by decide⟩
  refine ⟨(by intro h; cases h), (by intro h; cases h), trivial, trivial, trivial, trivial, fun _ h => ?_, trivial⟩
  exact absurd h (by decide)

open PageState in
/-- A failed `malloc` leaves a megabyte in the counter and no page; a move from the emptied pool wraps the number of its
pages, and the server crashes. -/
theorem memory_accounting_broken :
    PageEvent.Allowed (reassigning 3) noPages (.newslab 1 true none) ∧
      (pageStep (reassigning 3) noPages (.newslab 1 true none)).memMalloced = slabPageSize ∧
      heldPages 3 (pageStep (reassigning 3) noPages (.newslab 1 true none)).slabCount = 0 ∧
      ¬ Accounted 3 (pageStep (reassigning 3) noPages (.newslab 1 true none)) ∧
      (Trace.run (pageStep (reassigning 3)) noPages poolEmptied).slabCount 0 = 2 ^ 32 - 1 ∧
      (Trace.run (pageStep (reassigning 3)) noPages poolEmptied).crashed = true ∧
      ¬ Accounted 3 (Trace.run (pageStep (reassigning 3)) noPages poolEmptied) := by
  exact ⟨⟨by decide, fun ptr h => nomatch h⟩, by decide, by decide, by decide, by decide +kernel,
    by decide +kernel,
    by decide +kernel⟩

/-! ### The limit -/

namespace PageState

variable {n : ℕ} {s s' : PageState}

def classesWithPages (n : ℕ) (count : ℕ → ℕ) : Finset ℕ := (Finset.Icc 1 n).filter fun id => 0 < count id

theorem card_classesWithPages_le (n : ℕ) (count : ℕ → ℕ) : (classesWithPages n count).card ≤ n := by
  refine (Finset.card_filter_le _ _).trans ?_
  rw [Nat.card_Icc, Nat.add_sub_cancel]

theorem card_classesWithPages_mono {count count' : ℕ → ℕ}
    (h : ∀ id, 1 ≤ id → id ≤ n → 0 < count id → 0 < count' id) :
    (classesWithPages n count).card ≤ (classesWithPages n count').card := by
  refine Finset.card_le_card fun id hid => ?_
  obtain ⟨hmem, hpos⟩ := Finset.mem_filter.mp hid
  obtain ⟨h1, hn⟩ := Finset.mem_Icc.mp hmem
  exact Finset.mem_filter.mpr ⟨hmem, h id h1 hn hpos⟩

theorem card_classesWithPages_first {id : ℕ} (h1 : 1 ≤ id) (hn : id ≤ n) {count : ℕ → ℕ}
    (h0 : count id = 0) :
    (classesWithPages n (update count id 1)).card = (classesWithPages n count).card + 1 := by
  have hnot : id ∉ classesWithPages n count := by
    intro hmem
    have := (Finset.mem_filter.mp hmem).2
    omega
  have hinsert : classesWithPages n (update count id 1) = insert id (classesWithPages n count) := by
    ext i
    simp only [classesWithPages, Finset.mem_insert, Finset.mem_filter, Finset.mem_Icc]
    by_cases hi : i = id
    · subst hi
      simp [h1, hn]
    · simp [hi]
  rw [hinsert, Finset.card_insert_of_notMem hnot]

/-- **The invariant.** The counter is at least the size of all pages, and what exceeds the limit are first pages. -/
structure Bounded (n limit : ℕ) (s : PageState) : Prop where
  drift : ∃ x, Drift n x s
  memLimit : s.memLimit = limit
  held : slabPageSize * heldPages n s.slabCount ≤
    limit + slabPageSize * (classesWithPages n s.slabCount).card

def NoWrap (s : PageState) : PageEvent → Prop
  | .newslab _ _ _ => s.memMalloced + slabPageSize < 2 ^ 64
  | _ => True

/-- Sections with a fixed limit, whose moves do not come from the pool. -/
def FixedLimit (s : PageState) : PageEvent → Prop
  | .memLimit _ => False
  | .finish => s.rebal.done = true → s.rebal.sClsid ≠ 0
  | _ => True

/-- Only the first page of a class is obtained beyond the limit. -/
def BeyondOnlyFirst (n limit : ℕ) (s : PageState) (e : PageEvent) : Prop :=
  let held := heldPages n s.slabCount
  let held' := heldPages n (pageStep (reassigning n) s e).slabCount
  held < held' → limit < slabPageSize * held' → ∃ id realloc malloc, e = .newslab id realloc malloc ∧
    s.slabCount id = 0

theorem Quiet.bounded {limit : ℕ} (h : Quiet s s') (hb : Bounded n limit s) : Bounded n limit s' := by
  obtain ⟨x, hx⟩ := hb.drift
  refine ⟨⟨x, h.drift hx⟩, h.memLimit.trans hb.memLimit, ?_⟩
  rw [h.slabCount]
  exact hb.held

/-- **One section** keeps the bound as long as the counter does not wrap. -/
theorem bounded_step {limit : ℕ} (hlimit : limit ≠ 0) (h : MoveSound n s) (hb : Bounded n limit s) {e : PageEvent}
    (hallowed : e.Allowed (reassigning n) s) (hfixed : FixedLimit s e) (hwrap : NoWrap s e) :
    Bounded n limit (pageStep (reassigning n) s e) ∧ BeyondOnlyFirst n limit s e ∧
      MoveSound n (pageStep (reassigning n) s e) := by
  obtain ⟨x, hdrift⟩ := hb.drift
  have hsame : heldPages n (pageStep (reassigning n) s e).slabCount ≤ heldPages n s.slabCount →
      BeyondOnlyFirst n limit s e := fun hle hlt => absurd hlt (Nat.not_lt.mpr hle)
  have hquiet : Quiet s (pageStep (reassigning n) s e) ∧ MoveSound n (pageStep (reassigning n) s e) →
      Bounded n limit (pageStep (reassigning n) s e) ∧ BeyondOnlyFirst n limit s e ∧
        MoveSound n (pageStep (reassigning n) s e) :=
    fun hq => ⟨hq.1.bounded hb, hsame (by rw [hq.1.slabCount]), hq.2⟩
  cases e with
  | newslab id realloc malloc =>
    obtain ⟨h1, hn⟩ : 1 ≤ id ∧ id ≤ n := hallowed.1
    have hid : id ≠ 0 := Nat.one_le_iff_ne_zero.mp h1
    obtain ⟨halloc, hworked, hmemLimit⟩ :
        Allocated s (pageStep (reassigning n) s (.newslab id realloc malloc)) id realloc malloc ∧
          Worked s (pageStep (reassigning n) s (.newslab id realloc malloc)) ∧
          (pageStep (reassigning n) s (.newslab id realloc malloc)).memLimit = s.memLimit :=
      newslab_counts n s hid realloc malloc
    have hsound := h.worked hworked
    have hlimit' := hmemLimit.trans hb.memLimit
    have hheld := hb.held
    cases halloc with
    | refused hcount hmem _ => exact hquiet ⟨⟨hcount, hmem, hmemLimit⟩, hsound⟩
    | reused hpos hmem hcount =>
      have hsum : heldPages n (pageStep (reassigning n) s (.newslab id realloc malloc)).slabCount =
          heldPages n s.slabCount := by
        rw [hcount]
        exact heldPages_move (Nat.zero_le n) hn hid.symm hpos
      refine ⟨⟨⟨x, hdrift.congr hmem hsum⟩, hlimit', ?_⟩, hsame hsum.le, hsound⟩
      have hmono : (classesWithPages n s.slabCount).card ≤ (classesWithPages n
          (pageStep (reassigning n) s (.newslab id realloc malloc)).slabCount).card :=
        card_classesWithPages_mono fun i hi _ hipos =>
          Nat.lt_of_lt_of_le hipos (hworked.slabs i (Nat.one_le_iff_ne_zero.mp hi))
      rw [hsum]
      exact hheld.trans (Nat.add_le_add_left (Nat.mul_le_mul_left _ hmono) _)
    | grown ptr hptr hpool hatt hmem hcount =>
      obtain ⟨hdrift', hsum⟩ := hdrift.grown hn hwrap hmem hcount
      have heq := hdrift.eq
      have hgo := hatt.1
      rw [Nat.mod_eq_of_lt hwrap, hb.memLimit] at hgo
      -- the limit is kept, or this is the first page of the class
      have hcase : s.memMalloced + slabPageSize ≤ limit ∨ s.slabCount id = 0 := by
        by_contra hno
        push Not at hno
        exact hgo ⟨hlimit, hno.1, Nat.pos_of_ne_zero hno.2, hpool⟩
      refine ⟨⟨⟨x, hdrift'⟩, hlimit', ?_⟩, fun _ hbeyond => ⟨id, realloc, malloc, rfl, ?_⟩, hsound⟩
      · rcases hcase with hle | hzero
        · rw [hsum, Nat.mul_add, Nat.mul_one]
          omega
        · have hfirst := card_classesWithPages_first h1 hn hzero
          rw [hzero, Nat.zero_add] at hcount
          rw [hsum, hcount, hfirst, Nat.mul_add, Nat.mul_add]
          omega
      · rcases hcase with hle | hzero
        · rw [hsum, Nat.mul_add, Nat.mul_one] at hbeyond
          omega
        · exact hzero
    | failed hptr hpool hatt hmem hcount =>
      refine ⟨⟨⟨_, hdrift.failed hwrap hmem hcount⟩, hlimit', by rw [hcount]; exact hheld⟩,
        hsame (by rw [hcount]), hsound⟩
  | reassign src dst => exact hquiet (quiet_reassign h (reassigning n) src dst)
  | pass => exact hquiet (quiet_pass h)
  | start realloc => exact hquiet (quiet_start h realloc)
  | move clear => exact hquiet (quiet_move h clear)
  | memLimit newMemLimit => exact absurd hfixed id
  | finish =>
    by_cases hdone : s.rebal.done = true
    · obtain ⟨-, hd, hne, htwo⟩ := h.running (h.done hdone)
      have hs0 := hfixed hdone
      obtain ⟨hdrift', hmemLimit, hsound, hle, hothers⟩ :=
        finish_counts h hdrift hdone (fun h0 => absurd h0 hs0)
      have hmono : (classesWithPages n s.slabCount).card ≤
          (classesWithPages n (s.slabRebalanceFinish (reassigning n)).slabCount).card := by
        refine card_classesWithPages_mono fun i hi _ hipos => ?_
        rw [hothers i (Nat.one_le_iff_ne_zero.mp hi), movedCount]
        by_cases hdest : i = s.rebal.dClsid
        · rw [hdest, update_self]
          exact Nat.succ_pos _
        · rw [update_of_ne hdest]
          by_cases hsource : i = s.rebal.sClsid
          · have := htwo hs0
            rw [hsource, update_self]
            omega
          · rw [update_of_ne hsource]
            exact hipos
      refine ⟨⟨⟨x, hdrift'⟩, hmemLimit.trans hb.memLimit, ?_⟩, hsame hle, hsound⟩
      exact (Nat.mul_le_mul_left _ hle).trans (hb.held.trans (Nat.add_le_add_left (Nat.mul_le_mul_left _ hmono) _))
    · have hstay : pageStep (reassigning n) s .finish = s := if_pos (by simpa using hdone)
      exact hquiet ⟨by rw [hstay]; exact ⟨rfl, rfl, rfl⟩, by rw [hstay]; exact h⟩

def started (limit : ℕ) : PageState := { noPages with memLimit := limit }

theorem started_settled (cfg : PageConfig) (limit : ℕ) : (started limit).Settled cfg :=
  ⟨(noPages_settled cfg).owned, (noPages_settled cfg).fresh, rfl, rfl⟩

theorem heldPages_started (n limit : ℕ) : heldPages n (started limit).slabCount = 0 :=
  Finset.sum_eq_zero fun _ _ => rfl

theorem bounded_started (n limit : ℕ) : Bounded n limit (started limit) := by
  refine ⟨⟨0, ?_, Nat.two_pow_pos 64⟩, rfl, ?_⟩
  · rw [heldPages_started]
    rfl
  · rw [heldPages_started, Nat.mul_zero]
    exact Nat.zero_le _

end PageState

open PageState in
/-- **The memory limit.** From the start of the server with a limit, along every run of critical sections in which
the limit is not changed, no move comes from the pool and the counter does not wrap: all pages together stay within
the limit and one page for each class, and only the first page of a class is obtained beyond the limit. -/
theorem memory_limit_bound (n limit : ℕ) (hlimit : limit ≠ 0) (es : List PageEvent)
    (hrun : Trace.All (pageStep (reassigning n)) (fun s e => e.Allowed (reassigning n) s ∧ FixedLimit s e)
      (started limit) es)
    (hwrap : Trace.All (pageStep (reassigning n)) NoWrap (started limit) es) :
    Trace.All (pageStep (reassigning n)) (fun s e =>
      slabPageSize * heldPages n (pageStep (reassigning n) s e).slabCount ≤ limit + n * slabPageSize ∧
        BeyondOnlyFirst n limit s e) (started limit) es := by
  have hb : Bounded n limit (started limit) := bounded_started n limit
  have hsound : MoveSound n (started limit) := (started_settled (reassigning n) limit).moveSound
  generalize started limit = s at *
  induction es generalizing s with
  | nil => trivial
  | cons e es ih =>
    obtain ⟨hb', hfirst, hsound'⟩ := bounded_step hlimit hsound hb hrun.1.1 hrun.1.2 hwrap.1
    refine ⟨⟨?_, hfirst⟩, ih _ hrun.2 hwrap.2 hb' hsound'⟩
    refine hb'.held.trans (Nat.add_le_add_left ?_ limit)
    rw [Nat.mul_comm n]
    exact Nat.mul_le_mul_left _ (card_classesWithPages_le n _)

open PageState in
/-- A second class gets its first page beyond a limit of one page. -/
theorem memory_limit_bound_first :
    Trace.All (pageStep (reassigning 3)) (fun s e =>
      slabPageSize * heldPages 3 (pageStep (reassigning 3) s e).slabCount ≤ slabPageSize + 3 * slabPageSize ∧
        BeyondOnlyFirst 3 slabPageSize s e) (started slabPageSize)
        [.newslab 1 true (some 1), .newslab 2 true (some 2), .newslab 1 true (some 3)] ∧
      heldPages 3 (Trace.run (pageStep (reassigning 3)) (started slabPageSize)
        [.newslab 1 true (some 1), .newslab 2 true (some 2), .newslab 1 true (some 3)]).slabCount = 2 := by
  have hnew : ∀ (ptr : ℕ) (s : PageState), ptr ∉ s.live → ∀ q ∈ some ptr, q ∉ s.live := by
    intro ptr s hptr q hq
    obtain rfl := Option.some.inj hq
    exact hptr
  refine ⟨memory_limit_bound 3 slabPageSize (by decide) _ ?_ ?_, by decide⟩
  · exact ⟨⟨⟨by decide, hnew _ _ (by decide)⟩, trivial⟩,
      ⟨⟨by decide, hnew _ _ (by decide)⟩, trivial⟩,
      ⟨⟨by decide, hnew _ _ (by decide)⟩, trivial⟩, trivial⟩
  · exact ⟨by unfold NoWrap; decide, by unfold NoWrap; decide, by unfold NoWrap; decide, trivial⟩

/-! ### A counter that wraps -/

namespace PageState

variable {id : ℕ}

/-- A `malloc` that fails for a class without pages, whose array has room. -/
theorem newslab_failed_eq (n : ℕ) (s : PageState) (hid : s.slabCount id = 0) (hroom : (s.cls id).listSize ≠ 0)
    (hpool : s.slabCount 0 = 0) (realloc : Bool) :
    pageStep (reassigning n) s (.newslab id realloc none) =
      { s with memMalloced := (s.memMalloced + slabPageSize) % 2 ^ 64 } := by
  have hslabs : (s.cls id).slabs = 0 := hid
  have hgrow : s.growSlabList id realloc = (true, s) := by
    rw [growSlabList]
    simp only [hslabs, if_neg hroom.symm]
  have hget : s.getPageFromGlobalPool = none := if_pos (by rw [show (s.cls 0).slabs = 0 from hpool]; decide)
  rw [pageStep, doSlabsNewslab, if_neg (by omega), hgrow]
  simp only [newPage, hget]
  rw [reassigning_len, memoryAllocate_malloc]
  rfl

theorem run_failed (n : ℕ) (k : ℕ) :
    ∀ s : PageState, s.slabCount id = 0 → (s.cls id).listSize ≠ 0 → s.slabCount 0 = 0 →
    s.memMalloced < 2 ^ 64 →
      Trace.run (pageStep (reassigning n)) s (List.replicate k (.newslab id true none)) =
        { s with memMalloced := (s.memMalloced + k * slabPageSize) % 2 ^ 64 } := by
  induction k with
  | zero =>
    intro s _ _ _ hlt
    rw [Nat.zero_mul, Nat.add_zero, Nat.mod_eq_of_lt hlt]
    rfl
  | succ k ih =>
    intro s hid hroom hpool hlt
    have hmod : (s.memMalloced + slabPageSize) % 2 ^ 64 < 2 ^ 64 := Nat.mod_lt _ (Nat.two_pow_pos 64)
    rw [List.replicate_succ, Trace.run_cons, newslab_failed_eq n s hid hroom hpool]
    obtain ⟨m, hm⟩ : ∃ m, m = (s.memMalloced + slabPageSize) % 2 ^ 64 := ⟨_, rfl⟩
    rw [← hm] at hmod ⊢
    rw [ih { s with memMalloced := m } hid hroom hpool hmod]
    have hsum : (m + k * slabPageSize) % 2 ^ 64 = (s.memMalloced + (k + 1) * slabPageSize) % 2 ^ 64 := by
      rw [hm, Nat.mod_add_mod, Nat.add_mul, Nat.one_mul]
      congr 1
      omega
    show { s with memMalloced := (m + k * slabPageSize) % 2 ^ 64 } = _
    rw [hsum]

theorem all_failed {n : ℕ} (h1 : 1 ≤ id) (hn : id ≤ n) (k : ℕ) :
    ∀ s : PageState, Trace.All (pageStep (reassigning n)) (fun s e => e.Allowed (reassigning n) s ∧
      FixedLimit s e) s
      (List.replicate k (.newslab id true none)) := by
  induction k with
  | zero => exact fun _ => trivial
  | succ k ih => exact fun s => ⟨⟨⟨⟨h1, hn⟩, fun _ h => nomatch h⟩, trivial⟩, ih _⟩

def pagesFor (ptrs : List ℕ) : List PageEvent := ptrs.map fun ptr => .newslab 1 true (some ptr)

/-- Four pages for class 1, failed allocations for class 2 and four more pages for class 1. -/
def wrapRun (k : ℕ) : List PageEvent :=
  pagesFor [1, 2, 3, 4] ++ [.newslab 2 true none] ++ List.replicate k (.newslab 2 true none) ++ pagesFor [5, 6, 7, 8]

def fourPages : PageState :=
  Trace.run (pageStep (reassigning 3)) (started (4 * slabPageSize)) (pagesFor [1, 2, 3, 4] ++ [.newslab 2 true none])

end PageState

open PageState in
/-- **Beyond the limit.** Each failed `malloc` adds a megabyte to the counter. After `2 ^ 44 - 4` of them it is back
at zero, and class 1 gets four more pages: eight in all, with a limit of four and three classes. -/
theorem memory_limit_exceeded :
    Trace.All (pageStep (reassigning 3)) (fun s e => e.Allowed (reassigning 3) s ∧ FixedLimit s e)
        (started (4 * slabPageSize)) (wrapRun (2 ^ 44 - 5)) ∧
      4 * slabPageSize + 3 * slabPageSize < slabPageSize * heldPages 3 (Trace.run (pageStep (reassigning 3))
        (started (4 * slabPageSize)) (wrapRun (2 ^ 44 - 5))).slabCount := by
  obtain ⟨k, hk⟩ : ∃ k, k = 2 ^ 44 - 5 := ⟨_, rfl⟩
  rw [← hk]
  have hmem : fourPages.memMalloced = 5 * slabPageSize := by decide +kernel
  have hwrapped : (fourPages.memMalloced + k * slabPageSize) % 2 ^ 64 = 0 := by
    rw [hmem, hk]
    decide +kernel
  have hmid : Trace.run (pageStep (reassigning 3)) fourPages (List.replicate k (.newslab 2 true none)) =
      { fourPages with memMalloced := 0 } := by
    rw [run_failed 3 k fourPages (by decide +kernel) (by decide +kernel) (by decide +kernel)
      (by rw [hmem]; decide +kernel), hwrapped]
  have hnew : ∀ (ptr : ℕ) (s : PageState), ptr ∉ s.live → ∀ q ∈ some ptr, q ∉ s.live := by
    intro ptr s hptr q hq
    obtain rfl := Option.some.inj hq
    exact hptr
  constructor
  · rw [wrapRun, Trace.all_append, Trace.all_append]
    refine ⟨⟨?_, all_failed (by decide) (by decide) k _⟩, ?_⟩
    · exact ⟨⟨⟨by decide, hnew _ _ (by decide +kernel)⟩, trivial⟩,
        ⟨⟨by decide, hnew _ _ (by decide +kernel)⟩, trivial⟩,
        ⟨⟨by decide, hnew _ _ (by decide +kernel)⟩, trivial⟩,
          ⟨⟨by decide, hnew _ _ (by decide +kernel)⟩, trivial⟩,
        ⟨⟨by decide, fun _ h => nomatch h⟩, trivial⟩, trivial⟩
    · rw [Trace.run_append, show Trace.run (pageStep (reassigning 3)) (started (4 * slabPageSize))
        (pagesFor [1, 2, 3, 4] ++ [.newslab 2 true none]) = fourPages from rfl, hmid]
      exact ⟨⟨⟨by decide, hnew _ _ (by decide +kernel)⟩, trivial⟩,
        ⟨⟨by decide, hnew _ _ (by decide +kernel)⟩, trivial⟩,
        ⟨⟨by decide, hnew _ _ (by decide +kernel)⟩, trivial⟩,
          ⟨⟨by decide, hnew _ _ (by decide +kernel)⟩, trivial⟩, trivial⟩
  · rw [wrapRun, Trace.run_append, Trace.run_append, show Trace.run (pageStep (reassigning 3))
      (started (4 * slabPageSize)) (pagesFor [1, 2, 3, 4] ++ [.newslab 2 true none]) = fourPages from rfl, hmid]
    decide +kernel

end BmcCache
