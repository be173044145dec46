import BmcCache.ListPartition
import BmcCache.SlabSizes
import BmcCache.Trace
import Mathlib.Data.Finset.Basic

/-!
# Slab pages: `do_slabs_newslab`, `slab_rebalance_start`, `slab_rebalance_finish`

Every slab class has an array of the pages it owns, of which the first `slabs` entries count; class 0 is the global page
pool. Workers append pages to a class, from the pool or from new memory; the rebalance thread takes the first page of a
class and appends it to another, choosing it in one critical section and moving it in another; a lower memory limit
releases pages of the pool.

* `PageEvent`, `pageStep` — the critical sections under `slabs_lock`;
* `Owned` — every page is on exactly one list, and no list is longer than its array;
* `FinishReady` — the condition under which `slab_rebalance_finish` may run: a page is left in the pool if that is the
  source, and the array of the destination has room;
* `page_ownership_iff` — along a run every state is `Owned` and every finish moves the page that was chosen if and
  only if every finish is ready.
-/

namespace BmcCache

open ListPartition Function List

/-! ### Lists of pages -/

/-- The list of pages of a `slabclass_t`: an array of `list_size` addresses. -/
structure SlabList where
  slabs : ℕ
  listSize : ℕ
  slabList : ℕ → ℕ

/-- `slab_list[0..slabs)` -/
def SlabList.pages (p : SlabList) : List ℕ := (range p.slabs).map p.slabList

/-- `slab_list[slabs++] = ptr` -/
def SlabList.push (p : SlabList) (ptr : ℕ) : SlabList :=
  { p with slabs := p.slabs + 1, slabList := update p.slabList p.slabs ptr }

/-- The array after a `realloc`. -/
def SlabList.resize (p : SlabList) (size : ℕ) : SlabList := { p with listSize := size }

/-- `slabs--`, where there is a page. -/
def SlabList.pop (p : SlabList) : SlabList := { p with slabs := p.slabs - 1 }

/-- `slabs--` where there is a page, and the entries moved down. -/
def SlabList.shift (p : SlabList) : SlabList :=
  { p with slabs := p.slabs - 1, slabList := fun x => if x < p.slabs - 1 then p.slabList (x + 1) else p.slabList x }

namespace SlabList

variable (p : SlabList)

theorem pages_push (ptr : ℕ) : (p.push ptr).pages = p.pages ++ [ptr] := by
  have hsame : (range p.slabs).map (update p.slabList p.slabs ptr) = (range p.slabs).map p.slabList := by
    refine map_congr_left fun x hx => update_of_ne ?_ _ _
    exact ne_of_lt (mem_range.mp hx)
  rw [pages, push, range_succ, map_append, hsame]
  show p.pages ++ [update p.slabList p.slabs ptr p.slabs] = p.pages ++ [ptr]
  rw [update_self]

variable {p}

theorem pages_pop (h : 0 < p.slabs) : p.pages = p.pop.pages ++ [p.slabList (p.slabs - 1)] := by
  obtain ⟨n, hn⟩ : ∃ n, p.slabs = n + 1 := ⟨p.slabs - 1, by omega⟩
  rw [pages, pages, pop, hn, range_succ, map_append, map_singleton]
  rfl

theorem pages_shift (h : 0 < p.slabs) : p.pages = p.slabList 0 :: p.shift.pages := by
  have hsame : (range (p.slabs - 1)).map p.shift.slabList =
      (range (p.slabs - 1)).map (p.slabList ∘ Nat.succ) :=
    map_congr_left fun x hx => if_pos (mem_range.mp hx)
  obtain ⟨n, hn⟩ : ∃ n, p.slabs = n + 1 := ⟨p.slabs - 1, by omega⟩
  show _ = p.slabList 0 :: (range (p.slabs - 1)).map p.shift.slabList
  rw [pages, hsame, hn, range_succ_eq_map, map_cons, map_map, Nat.add_sub_cancel]

end SlabList

/-! ### State -/

/-- What does not change: `power_largest`, the bytes `do_slabs_newslab` asks for, whether pages may be moved and whether
all memory was allocated at the start (`mem_base != NULL`). -/
structure PageConfig where
  powerLargest : ℕ
  len : ℕ → ℕ
  len_pos : ∀ id, 0 < len id
  slabReassign : Bool
  preallocated : Bool

/-- `slab_rebalance_signal` -/
inductive RebalanceSignal where
  | idle
  | requested
  | running
  deriving DecidableEq

/-- `struct slab_rebalance`, as far as pages go. -/
structure SlabRebal where
  slabStart : Option ℕ
  sClsid : ℕ
  dClsid : ℕ
  done : Bool

/-- The variables of slabs.c that `slabs_lock` and `slabs_rebalance_lock` protect. `live` lists the pages obtained and
not released; `pending` is a request that has been checked but not yet passed on; `cur` is the static variable of
`slabs_reassign_pick_any`.  `crashed` says that the rebalance thread has run off an array, which ends the server. -/
structure PageState where
  cls : ℕ → SlabList
  memMalloced : ℕ
  memLimit : ℕ
  memCurrent : ℕ
  memAvail : ℕ
  live : Finset ℕ
  rebal : SlabRebal
  signal : RebalanceSignal
  pending : Option (ℕ × ℕ)
  cur : ℕ
  crashed : Bool

namespace PageState

variable (cfg : PageConfig) (s : PageState)

def setCls (id : ℕ) (p : SlabList) : PageState := { s with cls := update s.cls id p }

@[simp] theorem setCls_cls_self (id : ℕ) (p : SlabList) : (s.setCls id p).cls id = p := update_self _ _ _

theorem setCls_cls_of_ne {id i : ℕ} (h : i ≠ id) (p : SlabList) : (s.setCls id p).cls i = s.cls i :=
  update_of_ne h _ _

/-! ### Critical sections -/

/-- `grow_slab_list`, with what `realloc` answers. -/
def growSlabList (id : ℕ) (realloc : Bool) : Bool × PageState :=
  let p := s.cls id
  if p.slabs = p.listSize then
    if realloc then (true, s.setCls id (p.resize (if p.listSize ≠ 0 then p.listSize * 2 else 16)))
    else (false, s)
  else (true, s)

def getPageFromGlobalPool : Option (ℕ × PageState) :=
  let p := s.cls 0
  if p.slabs < 1 then none else some (p.slabList (p.slabs - 1), s.setCls 0 p.pop)

/-- `memory_allocate`, with what `malloc` answers; a failed `malloc` is counted too. -/
def memoryAllocate (size : ℕ) (malloc : Option ℕ) : Option ℕ × PageState :=
  if cfg.preallocated then
    if s.memAvail < size then (none, s)
    else
      let size := if size % chunkAlignBytes ≠ 0 then size + (chunkAlignBytes - size % chunkAlignBytes) else size
      (some s.memCurrent,
        { s with memCurrent := s.memCurrent + size
                 memAvail := if size < s.memAvail then s.memAvail - size else 0
                 memMalloced := (s.memMalloced + size) % 2 ^ 64, live := insert s.memCurrent s.live })
  else
    match malloc with
    | none => (none, { s with memMalloced := (s.memMalloced + size) % 2 ^ 64 })
    | some ptr => (some ptr, { s with memMalloced := (s.memMalloced + size) % 2 ^ 64, live := insert ptr s.live })

/-- The page for `do_slabs_newslab`: from the global pool or from `memory_allocate`. -/
def newPage (id : ℕ) (malloc : Option ℕ) : Option ℕ × PageState :=
  match s.getPageFromGlobalPool with
  | some (ptr, s) => (some ptr, s)
  | none => s.memoryAllocate cfg (cfg.len id) malloc

def doSlabsNewslab (id : ℕ) (realloc : Bool) (malloc : Option ℕ) : PageState :=
  if s.memLimit ≠ 0 ∧ s.memLimit < (s.memMalloced + cfg.len id) % 2 ^ 64 ∧ 0 < (s.cls id).slabs ∧
      (s.cls 0).slabs = 0 then s
  else
    match s.growSlabList id realloc with
    | (false, s) => s
    | (true, s) =>
      match s.newPage cfg id malloc with
      | (none, s) => s
      | (some ptr, s) => s.setCls id ((s.cls id).push ptr)

/-- `free` of a page, and what `memory_release` counts for it. -/
def freePage (ptr : ℕ) : PageState :=
  { s with live := s.live.erase ptr, memMalloced := (s.memMalloced + 2 ^ 64 - slabPageSize) % 2 ^ 64 }

@[simp] theorem freePage_cls (ptr : ℕ) : (s.freePage ptr).cls = s.cls := by rw [freePage]

/-- The loop of `memory_release`, at most once for every page of the pool. -/
def releaseLoop : ℕ → PageState → PageState
  | 0, s => s
  | n + 1, s =>
    if s.memLimit < s.memMalloced then
      match s.getPageFromGlobalPool with
      | none => s
      | some (ptr, s) => releaseLoop n (s.freePage ptr)
    else s

def memoryRelease : PageState :=
  if cfg.preallocated ∨ cfg.slabReassign = false then s else releaseLoop (s.cls 0).slabs s

def doSlabsAdjustMemLimit (newMemLimit : ℕ) : PageState :=
  if cfg.preallocated then s else { s with memLimit := newMemLimit }.memoryRelease cfg

/-- The loop of `slabs_reassign_pick_any`: the tries that are left and `cur`. -/
def slabsReassignPickAny (dst : ℤ) : ℕ → ℕ → Option ℕ × ℕ
  | 0, cur => (none, cur)
  | tries + 1, cur =>
    let cur := if cfg.powerLargest < cur + 1 then 1 else cur + 1
    if cur = dst then slabsReassignPickAny dst tries cur
    else if 1 < (s.cls cur).slabs then (some cur, cur)
    else slabsReassignPickAny dst tries cur

/-- `do_slabs_reassign` up to the end of its critical section; a request that passes is pending. -/
def doSlabsReassign (src dst : ℤ) : PageState :=
  if s.signal ≠ .idle ∨ s.pending.isSome then s
  else if src = dst then s
  else
    let pick := s.slabsReassignPickAny cfg dst cfg.powerLargest s.cur
    let s := if src = -1 then { s with cur := pick.2 } else s
    let src : ℤ := if src = -1 then pick.1.elim (-1) Nat.cast else src
    if src < 0 ∨ cfg.powerLargest < src ∨ dst < 0 ∨ cfg.powerLargest < dst then s
    else if (s.cls src.toNat).slabs < 2 then s
    else { s with pending := some (src.toNat, dst.toNat) }

/-- The end of `do_slabs_reassign`, outside of the critical section. -/
def passRequest : PageState :=
  match s.pending with
  | none => s
  | some (src, dst) =>
    { s with rebal := { s.rebal with sClsid := src, dClsid := dst }, signal := .requested, pending := none }

/-- `slab_rebalance_start`, and what the thread does with its result. -/
def slabRebalanceStart (realloc : Bool) : PageState :=
  if s.signal ≠ .requested then s
  else
    match s.growSlabList s.rebal.dClsid realloc with
    | (grown, s) =>
      if cfg.powerLargest < s.rebal.sClsid ∨ cfg.powerLargest < s.rebal.dClsid ∨ s.rebal.sClsid = s.rebal.dClsid ∨
          grown = false ∨ (s.cls s.rebal.sClsid).slabs < 2 then
        { s with signal := .idle }
      else
        { s with signal := .running
                 rebal := { s.rebal with slabStart := some ((s.cls s.rebal.sClsid).slabList 0)
                                         done := decide (s.rebal.sClsid = 0) } }

/-- `slab_rebalance_move`: the page is clear, or not yet. -/
def slabRebalanceMove (clear : Bool) : PageState :=
  if s.signal = .running ∧ s.rebal.done = false then { s with rebal := { s.rebal with done := clear } } else s

/-- The lists after `slab_rebalance_finish` has moved the page. -/
def movePage (ptr : ℕ) : PageState :=
  let s := s.setCls s.rebal.sClsid (s.cls s.rebal.sClsid).shift
  s.setCls s.rebal.dClsid ((s.cls s.rebal.dClsid).push ptr)

/-- `slab_rebalance_finish`, which the thread calls when the page is clear. Where the source has no page, `slabs--`
of the `unsigned int` wraps, and the loop over the entries runs off the array. -/
def slabRebalanceFinish : PageState :=
  if s.rebal.done = false then s
  else if (s.cls s.rebal.sClsid).slabs = 0 then
    { s.setCls s.rebal.sClsid { s.cls s.rebal.sClsid with slabs := 2 ^ 32 - 1 } with crashed := true }
  else
    let s' := s.movePage (s.rebal.slabStart.getD 0)
    let s' := if s.rebal.dClsid = 0 then s'.memoryRelease cfg else s'
    { s' with rebal := ⟨none, 0, 0, false⟩, signal := .idle }

end PageState

/-- A critical section: an allocation by a worker with the answers of `realloc` and `malloc`, a request and its passing
on, the steps of the rebalance thread, a new memory limit. -/
inductive PageEvent where
  | newslab (id : ℕ) (realloc : Bool) (malloc : Option ℕ)
  | reassign (src dst : ℤ)
  | pass
  | start (realloc : Bool)
  | move (clear : Bool)
  | finish
  | memLimit (newMemLimit : ℕ)

def pageStep (cfg : PageConfig) (s : PageState) : PageEvent → PageState
  | .newslab id realloc malloc => s.doSlabsNewslab cfg id realloc malloc
  | .reassign src dst => s.doSlabsReassign cfg src dst
  | .pass => s.passRequest
  | .start realloc => s.slabRebalanceStart cfg realloc
  | .move clear => s.slabRebalanceMove clear
  | .finish => s.slabRebalanceFinish cfg
  | .memLimit newMemLimit => s.doSlabsAdjustMemLimit cfg newMemLimit

/-- Workers allocate in the classes from `POWER_SMALLEST` on, and `malloc` returns memory that is not in use. -/
def PageEvent.Allowed (cfg : PageConfig) (s : PageState) : PageEvent → Prop
  | .newslab id _ malloc => (1 ≤ id ∧ id ≤ cfg.powerLargest) ∧ ∀ ptr ∈ malloc, ptr ∉ s.live
  | _ => True

/-! ### Ownership -/

/-- **Ownership.** Every page of `live` is on exactly one of the lists, once, the lists hold nothing else, and no
list is longer than its array. -/
structure OwnedBy (powerLargest : ℕ) (cls : ℕ → SlabList) (live : Finset ℕ) : Prop where
  splits : Splits (Set.Iic powerLargest) (fun id => (cls id).pages) live
  slabs_le : ∀ id ≤ powerLargest, (cls id).slabs ≤ (cls id).listSize

def PageState.Owned (cfg : PageConfig) (s : PageState) : Prop := OwnedBy cfg.powerLargest s.cls s.live

namespace OwnedBy

variable {n : ℕ} {cls : ℕ → SlabList} {live : Finset ℕ}

theorem slabs_le_update (h : OwnedBy n cls live) (id : ℕ) {p : SlabList} (hp : p.slabs ≤ p.listSize) :
    ∀ i ≤ n, (update cls id p i).slabs ≤ (update cls id p i).listSize := by
  intro i hi
  by_cases hid : i = id
  · subst hid
    rw [update_self]
    exact hp
  · rw [update_of_ne hid]
    exact h.slabs_le i hi

theorem grow (h : OwnedBy n cls live) {id size : ℕ} (hsize : (cls id).listSize ≤ size) :
    OwnedBy n (update cls id ((cls id).resize size)) live := by
  constructor
  · refine h.splits.congr fun i _ => ?_
    by_cases hid : i = id
    · subst hid
      rw [update_self]
      rfl
    · rw [update_of_ne hid]
  · intro i hi
    by_cases hid : i = id
    · subst hid
      rw [update_self]
      exact (h.slabs_le i hi).trans hsize
    · rw [update_of_ne hid]
      exact h.slabs_le i hi

theorem push (h : OwnedBy n cls live) {id ptr : ℕ} (hid : id ≤ n) (hptr : ptr ∉ live)
    (hroom : (cls id).slabs < (cls id).listSize) :
    OwnedBy n (update cls id ((cls id).push ptr)) (insert ptr live) := by
  refine ⟨h.splits.add hid hptr ?_ fun i _ hne => ?_, h.slabs_le_update id hroom⟩
  · rw [update_self, SlabList.pages_push]
    exact perm_append_singleton ptr _
  · rw [update_of_ne hne]

theorem pop (h : OwnedBy n cls live) (hpos : 0 < (cls 0).slabs) :
    OwnedBy n (update cls 0 (cls 0).pop) (live.erase ((cls 0).slabList ((cls 0).slabs - 1))) := by
  have hle := h.slabs_le 0 (Nat.zero_le n)
  refine ⟨h.splits.remove (Nat.zero_le n) ?_ fun i _ hne => ?_, h.slabs_le_update 0 ?_⟩
  · rw [update_self, SlabList.pages_pop hpos]
    exact perm_append_singleton _ _
  · rw [update_of_ne hne]
  · show (cls 0).slabs - 1 ≤ (cls 0).listSize
    omega

theorem shift (h : OwnedBy n cls live) {id : ℕ} (hid : id ≤ n) (hpos : 0 < (cls id).slabs) :
    OwnedBy n (update cls id (cls id).shift) (live.erase ((cls id).slabList 0)) := by
  have hle := h.slabs_le id hid
  refine ⟨h.splits.remove hid ?_ fun i _ hne => ?_, h.slabs_le_update id ?_⟩
  · rw [update_self, SlabList.pages_shift hpos]
  · rw [update_of_ne hne]
  · show (cls id).slabs - 1 ≤ (cls id).listSize
    omega

theorem mem_live (h : OwnedBy n cls live) {id x : ℕ} (hid : id ≤ n) (hx : x < (cls id).slabs) :
    (cls id).slabList x ∈ live :=
  h.splits.mem hid (mem_map.mpr ⟨x, mem_range.mpr hx, rfl⟩)

end OwnedBy

/-! ### What workers do to a move that is under way -/

namespace PageState

variable {cfg : PageConfig} {s s' : PageState}

/-- What the sections of other threads do: pages leave the pool at its end, and the other lists grow at theirs. -/
structure Worked (s s' : PageState) : Prop where
  rebal : s'.rebal = s.rebal
  signal : s'.signal = s.signal
  pending : s'.pending = s.pending
  pool_slabs : (s'.cls 0).slabs ≤ (s.cls 0).slabs
  pool_listSize : (s.cls 0).listSize ≤ (s'.cls 0).listSize
  pool_slabList : (s'.cls 0).slabList = (s.cls 0).slabList
  slabs : ∀ id, id ≠ 0 → (s.cls id).slabs ≤ (s'.cls id).slabs
  slabList : ∀ id, id ≠ 0 → ∀ x < (s.cls id).slabs, (s'.cls id).slabList x = (s.cls id).slabList x

theorem Worked.refl (s : PageState) : Worked s s :=
  ⟨rfl, rfl, rfl, le_rfl, le_rfl, rfl, fun _ _ => le_rfl, fun _ _ _ _ => rfl⟩

theorem Worked.trans {s'' : PageState} (h : Worked s s') (h' : Worked s' s'') : Worked s s'' where
  rebal := h'.rebal.trans h.rebal
  signal := h'.signal.trans h.signal
  pending := h'.pending.trans h.pending
  pool_slabs := h'.pool_slabs.trans h.pool_slabs
  pool_listSize := h.pool_listSize.trans h'.pool_listSize
  pool_slabList := h'.pool_slabList.trans h.pool_slabList
  slabs id hid := (h.slabs id hid).trans (h'.slabs id hid)
  slabList id hid x hx := (h'.slabList id hid x (hx.trans_le (h.slabs id hid))).trans (h.slabList id hid x hx)

theorem Worked.of_cls (hcls : s'.cls = s.cls) (hrebal : s'.rebal = s.rebal) (hsignal : s'.signal = s.signal)
    (hpending : s'.pending = s.pending) : Worked s s' := by
  refine ⟨hrebal, hsignal, hpending, ?_, ?_, ?_, ?_, ?_⟩ <;> simp [hcls]

/-- **A move under way.** The page that was chosen is the first of the source, unless the source is the pool and has run
empty; the pool has room if it is the destination. -/
structure Running (cfg : PageConfig) (s : PageState) (ptr : ℕ) : Prop where
  slabStart : s.rebal.slabStart = some ptr
  sClsid_le : s.rebal.sClsid ≤ cfg.powerLargest
  dClsid_le : s.rebal.dClsid ≤ cfg.powerLargest
  ne : s.rebal.sClsid ≠ s.rebal.dClsid
  source_pos : s.rebal.sClsid ≠ 0 → 0 < (s.cls s.rebal.sClsid).slabs
  source_head : 0 < (s.cls s.rebal.sClsid).slabs → (s.cls s.rebal.sClsid).slabList 0 = ptr
  dest_room : s.rebal.dClsid = 0 → (s.cls 0).slabs < (s.cls 0).listSize

theorem Running.worked {ptr : ℕ} (h : Running cfg s ptr) (hw : Worked s s') : Running cfg s' ptr := by
  refine ⟨?_, ?_, ?_, ?_, ?_, ?_, ?_⟩ <;> rw [hw.rebal]
  · exact h.slabStart
  · exact h.sClsid_le
  · exact h.dClsid_le
  · exact h.ne
  · exact fun hs => (h.source_pos hs).trans_le (hw.slabs _ hs)
  · intro hpos
    by_cases hs : s.rebal.sClsid = 0
    · have hhead := h.source_head
      rw [hs] at hpos hhead ⊢
      rw [hw.pool_slabList]
      exact hhead (hpos.trans_le hw.pool_slabs)
    · rw [hw.slabList _ hs 0 (h.source_pos hs)]
      exact h.source_head (h.source_pos hs)
  · intro hd
    exact (hw.pool_slabs.trans_lt (h.dest_room hd)).trans_le hw.pool_listSize

/-- **The invariant.** The pages are owned, memory allocated at the start is handed out upwards, a page that is clear
belongs to a move under way, and a request is pending only while nothing else is going on. -/
structure Inv (cfg : PageConfig) (s : PageState) : Prop where
  owned : s.Owned cfg
  fresh : cfg.preallocated → ∀ ptr ∈ s.live, ptr < s.memCurrent
  running : s.signal = .running → ∃ ptr, s.Running cfg ptr
  done : s.rebal.done = true → s.signal = .running
  pending : s.pending.isSome → s.signal = .idle

theorem Inv.worked (h : s.Inv cfg) (hw : Worked s s') (howned : s'.Owned cfg)
    (hfresh : cfg.preallocated → ∀ ptr ∈ s'.live, ptr < s'.memCurrent) : s'.Inv cfg := by
  refine ⟨howned, hfresh, fun hr => ?_, ?_, ?_⟩
  · rw [hw.signal] at hr
    obtain ⟨ptr, hrun⟩ := h.running hr
    exact ⟨ptr, hrun.worked hw⟩
  · rw [hw.signal, hw.rebal]
    exact h.done
  · rw [hw.signal, hw.pending]
    exact h.pending

/-! ### Sections of workers -/

theorem growSlabList_spec (s : PageState) (id : ℕ) (realloc : Bool) :
    ∃ size, (s.cls id).listSize ≤ size ∧
      (s.growSlabList id realloc).2 = s.setCls id ((s.cls id).resize size) ∧
      ((s.growSlabList id realloc).1 = true → (s.cls id).slabs ≤ (s.cls id).listSize →
        (s.cls id).slabs < size) := by
  have hself : s.setCls id ((s.cls id).resize (s.cls id).listSize) = s := by
    show s.setCls id (s.cls id) = s
    rw [setCls, update_eq_self]
  rw [growSlabList]
  by_cases hfull : (s.cls id).slabs = (s.cls id).listSize
  · simp only [if_pos hfull]
    cases realloc with
    | false => exact ⟨_, le_rfl, hself.symm, fun h => nomatch h⟩
    | true =>
      refine ⟨_, ?_, rfl, fun _ _ => ?_⟩ <;> split <;> omega
  · simp only [if_neg hfull]
    exact ⟨_, le_rfl, hself.symm, fun _ hle => lt_of_le_of_ne hle hfull⟩

theorem Worked.grow (s : PageState) {id size : ℕ} (hsize : (s.cls id).listSize ≤ size) :
    Worked s (s.setCls id ((s.cls id).resize size)) := by
  have hcls : ∀ i, ((s.setCls id ((s.cls id).resize size)).cls i).slabs = (s.cls i).slabs ∧
      ((s.setCls id ((s.cls id).resize size)).cls i).slabList = (s.cls i).slabList ∧
      (s.cls i).listSize ≤ ((s.setCls id ((s.cls id).resize size)).cls i).listSize := by
    intro i
    by_cases hid : i = id
    · subst hid
      rw [setCls_cls_self]
      exact ⟨rfl, rfl, hsize⟩
    · rw [setCls_cls_of_ne s hid]
      exact ⟨rfl, rfl, le_rfl⟩
  exact ⟨rfl, rfl, rfl, (hcls 0).1.le, (hcls 0).2.2, (hcls 0).2.1, fun i _ => (hcls i).1.ge,
    fun i _ x _ => congrFun (hcls i).2.1 x⟩

theorem Worked.pop (s : PageState) : Worked s (s.setCls 0 (s.cls 0).pop) := by
  refine ⟨rfl, rfl, rfl, ?_, ?_, ?_, fun id hid => ?_, fun id hid x hx => ?_⟩
  · rw [setCls_cls_self]
    exact Nat.sub_le _ _
  · rw [setCls_cls_self]
    exact le_rfl
  · rw [setCls_cls_self]
    rfl
  · rw [setCls_cls_of_ne s hid]
  · rw [setCls_cls_of_ne s hid]

theorem Worked.push (s : PageState) {id : ℕ} (hid : id ≠ 0) (ptr : ℕ) :
    Worked s (s.setCls id ((s.cls id).push ptr)) := by
  have hcls : ∀ i, (s.cls i).slabs ≤ ((s.setCls id ((s.cls id).push ptr)).cls i).slabs ∧
      ∀ x < (s.cls i).slabs, ((s.setCls id ((s.cls id).push ptr)).cls i).slabList x = (s.cls i).slabList x := by
    intro i
    by_cases h : i = id
    · subst h
      rw [setCls_cls_self]
      exact ⟨Nat.le_succ _, fun x hx => update_of_ne (ne_of_lt hx) _ _⟩
    · rw [setCls_cls_of_ne s h]
      exact ⟨le_rfl, fun _ _ => rfl⟩
  refine ⟨rfl, rfl, rfl, ?_, ?_, ?_, fun i _ => (hcls i).1, fun i _ => (hcls i).2⟩
    <;> rw [setCls_cls_of_ne s hid.symm]

theorem getPageFromGlobalPool_eq_some {ptr : ℕ} (h : s.getPageFromGlobalPool = some (ptr, s')) :
    0 < (s.cls 0).slabs ∧ ptr = (s.cls 0).slabList ((s.cls 0).slabs - 1) ∧ s' = s.setCls 0 (s.cls 0).pop := by
  rw [getPageFromGlobalPool] at h
  split at h
  · cases h
  · rename_i hpos
    obtain ⟨rfl, rfl⟩ := Prod.mk.inj (Option.some.inj h)
    exact ⟨by omega, rfl, rfl⟩

/-- The page for `do_slabs_newslab` is not on a list; the others are owned. -/
theorem newPage_spec (h : s.Inv cfg) (id : ℕ) {malloc : Option ℕ} (hmalloc : ∀ ptr ∈ malloc, ptr ∉ s.live) :
    Worked s (s.newPage cfg id malloc).2 ∧ (∀ i, i ≠ 0 → (s.newPage cfg id malloc).2.cls i = s.cls i) ∧
      (cfg.preallocated → ∀ ptr ∈ (s.newPage cfg id malloc).2.live,
        ptr < (s.newPage cfg id malloc).2.memCurrent) ∧
      match (s.newPage cfg id malloc).1 with
      | none => (s.newPage cfg id malloc).2.Owned cfg
      | some ptr => ∃ live, OwnedBy cfg.powerLargest (s.newPage cfg id malloc).2.cls live ∧ ptr ∉ live ∧
          insert ptr live = (s.newPage cfg id malloc).2.live := by
  rw [newPage]
  cases hpool : s.getPageFromGlobalPool with
  | some r =>
    obtain ⟨ptr, s'⟩ := r
    obtain ⟨hpos, rfl, rfl⟩ := getPageFromGlobalPool_eq_some hpool
    exact ⟨Worked.pop s, fun i hi => setCls_cls_of_ne s hi _, h.fresh, _, h.owned.pop hpos, Finset.notMem_erase _ _,
      Finset.insert_erase (h.owned.mem_live (Nat.zero_le _) (by omega))⟩
  | none =>
    simp only [memoryAllocate]
    split
    · rename_i hpre
      split
      · exact ⟨Worked.refl s, fun _ _ => rfl, h.fresh, h.owned⟩
      · have hlen := cfg.len_pos id
        have hnew : s.memCurrent ∉ s.live := fun hmem => lt_irrefl _ (h.fresh hpre _ hmem)
        refine ⟨Worked.of_cls rfl rfl rfl rfl, fun _ _ => rfl, fun _ ptr hptr => ?_, s.live, h.owned, hnew, rfl⟩
        rcases Finset.mem_insert.mp hptr with rfl | hmem
        · dsimp only
          split <;> omega
        · have := h.fresh hpre ptr hmem
          dsimp only
          split <;> omega
    · rename_i hpre
      cases malloc with
      | none => exact ⟨Worked.of_cls rfl rfl rfl rfl, fun _ _ => rfl, fun hp => absurd hp hpre, h.owned⟩
      | some ptr =>
        exact ⟨Worked.of_cls rfl rfl rfl rfl, fun _ _ => rfl, fun hp => absurd hp hpre, s.live, h.owned,
          hmalloc ptr rfl, rfl⟩

theorem Inv.grow (h : s.Inv cfg) {id size : ℕ} (hsize : (s.cls id).listSize ≤ size) :
    (s.setCls id ((s.cls id).resize size)).Inv cfg :=
  h.worked (Worked.grow s hsize) (h.owned.grow hsize) h.fresh

theorem Inv.newslab (h : s.Inv cfg) {id : ℕ} (hid : 1 ≤ id ∧ id ≤ cfg.powerLargest) (realloc : Bool)
    {malloc : Option ℕ} (hmalloc : ∀ ptr ∈ malloc, ptr ∉ s.live) :
    (s.doSlabsNewslab cfg id realloc malloc).Inv cfg := by
  rw [doSlabsNewslab]
  split
  · exact h
  obtain ⟨size, hsize, hgrow, hroom⟩ := growSlabList_spec s id realloc
  cases hres : s.growSlabList id realloc with
  | mk grown s₁ =>
    rw [hres] at hgrow hroom
    dsimp only at hgrow hroom ⊢
    subst hgrow
    have hinv := h.grow hsize
    cases grown with
    | false => exact hinv
    | true =>
      obtain ⟨hworked, hcls, hfresh, hpage⟩ := newPage_spec hinv id hmalloc
      dsimp only
      generalize hnew : (s.setCls id ((s.cls id).resize size)).newPage cfg id malloc =
        r at hworked hcls hfresh hpage ⊢
      obtain ⟨_ | ptr, s₂⟩ := r
      · exact hinv.worked hworked hpage hfresh
      · obtain ⟨live, howned, hnot, hlive⟩ := hpage
        have hslot : (s₂.cls id).slabs < (s₂.cls id).listSize := by
          rw [hcls id (by omega), setCls_cls_self]
          exact hroom rfl (h.owned.slabs_le id hid.2)
        refine hinv.worked (hworked.trans (Worked.push s₂ (by omega) ptr)) ?_ hfresh
        have hpush := howned.push hid.2 hnot hslot
        rw [hlive] at hpush
        exact hpush

/-! ### Releasing memory -/

theorem Worked.freePage (s : PageState) (ptr : ℕ) : Worked s (s.freePage ptr) :=
  Worked.of_cls (freePage_cls s ptr) (by rw [PageState.freePage]) (by rw [PageState.freePage])
    (by rw [PageState.freePage])

/-- The end of the pool is released, and the other lists stay as they are. -/
structure Released (s s' : PageState) : Prop where
  pool : ∃ rest, (s.cls 0).pages = (s'.cls 0).pages ++ rest
  others : ∀ id, id ≠ 0 → s'.cls id = s.cls id

theorem Released.refl (s : PageState) : Released s s := ⟨⟨[], (append_nil _).symm⟩, fun _ _ => rfl⟩

/-- The pages are owned, and memory allocated at the start is handed out upwards. -/
def Sound (cfg : PageConfig) (s : PageState) : Prop :=
  s.Owned cfg ∧ (cfg.preallocated → ∀ ptr ∈ s.live, ptr < s.memCurrent)

theorem Sound.freeLast (h : s.Sound cfg) (hpos : 0 < (s.cls 0).slabs) :
    ((s.setCls 0 (s.cls 0).pop).freePage ((s.cls 0).slabList ((s.cls 0).slabs - 1))).Sound cfg := by
  refine ⟨h.1.pop hpos, ?_⟩
  intro hpre ptr hptr
  exact h.2 hpre ptr (Finset.mem_of_mem_erase hptr)

theorem releaseLoop_spec (n : ℕ) (h : s.Sound cfg) :
    (releaseLoop n s).Sound cfg ∧ Worked s (releaseLoop n s) ∧ Released s (releaseLoop n s) := by
  induction n generalizing s with
  | zero => exact ⟨h, Worked.refl s, Released.refl s⟩
  | succ n ih =>
    rw [releaseLoop]
    split
    · cases hpool : s.getPageFromGlobalPool with
      | none => exact ⟨h, Worked.refl s, Released.refl s⟩
      | some r =>
        obtain ⟨ptr, s'⟩ := r
        obtain ⟨hpos, rfl, rfl⟩ := getPageFromGlobalPool_eq_some hpool
        obtain ⟨hsound, hworked, ⟨rest, hrest⟩, hothers⟩ := ih (h.freeLast hpos)
        rw [freePage_cls, setCls_cls_self] at hrest
        dsimp only
        refine ⟨hsound, ?_, ⟨rest ++ [(s.cls 0).slabList ((s.cls 0).slabs - 1)], ?_⟩, fun id hid => ?_⟩
        · exact ((Worked.pop s).trans (Worked.freePage _ _)).trans hworked
        · rw [SlabList.pages_pop hpos, hrest, append_assoc]
        · rw [hothers id hid, freePage_cls, setCls_cls_of_ne s hid]
    · exact ⟨h, Worked.refl s, Released.refl s⟩

theorem memoryRelease_spec (h : s.Sound cfg) :
    (s.memoryRelease cfg).Sound cfg ∧ Worked s (s.memoryRelease cfg) ∧ Released s (s.memoryRelease cfg) := by
  rw [memoryRelease]
  split
  · exact ⟨h, Worked.refl s, Released.refl s⟩
  · exact releaseLoop_spec _ h

theorem Inv.memLimit (h : s.Inv cfg) (newMemLimit : ℕ) : (s.doSlabsAdjustMemLimit cfg newMemLimit).Inv cfg := by
  rw [doSlabsAdjustMemLimit]
  split
  · exact h
  · have hlimit : Sound cfg { s with memLimit := newMemLimit } := ⟨h.owned, h.fresh⟩
    obtain ⟨hsound, hworked, -⟩ := memoryRelease_spec hlimit
    have hset : Worked s { s with memLimit := newMemLimit } := Worked.of_cls rfl rfl rfl rfl
    exact h.worked (hset.trans hworked) hsound.1 hsound.2

/-! ### Sections of the rebalance thread -/

/-- A request changes `cur`, and is pending afterwards only if nothing was going on. -/
theorem doSlabsReassign_eq (cfg : PageConfig) (s : PageState) (src dst : ℤ) :
    ∃ cur pending, s.doSlabsReassign cfg src dst = { s with cur := cur, pending := pending } ∧
      (pending = s.pending ∨ s.signal = .idle) := by
  rw [doSlabsReassign]
  split
  · exact ⟨s.cur, s.pending, rfl, .inl rfl⟩
  rename_i hfree
  have hidle : s.signal = .idle := by
    by_contra hne
    exact hfree (.inl hne)
  split
  · exact ⟨s.cur, s.pending, rfl, .inl rfl⟩
  generalize s.slabsReassignPickAny cfg dst cfg.powerLargest s.cur = pick
  by_cases hsrc : src = -1
  · simp only [if_pos hsrc]
    split
    · exact ⟨pick.2, s.pending, rfl, .inl rfl⟩
    split
    · exact ⟨pick.2, s.pending, rfl, .inl rfl⟩
    · exact ⟨pick.2, _, rfl, .inr hidle⟩
  · simp only [if_neg hsrc]
    split
    · exact ⟨s.cur, s.pending, rfl, .inl rfl⟩
    split
    · exact ⟨s.cur, s.pending, rfl, .inl rfl⟩
    · exact ⟨s.cur, _, rfl, .inr hidle⟩

theorem Inv.reassign (h : s.Inv cfg) (src dst : ℤ) : (s.doSlabsReassign cfg src dst).Inv cfg := by
  obtain ⟨cur, pending, heq, hpending⟩ := doSlabsReassign_eq cfg s src dst
  rw [heq]
  refine ⟨h.owned, h.fresh, fun hr => ?_, h.done, fun hp => ?_⟩
  · obtain ⟨ptr, hrun⟩ := h.running hr
    exact ⟨ptr, hrun.slabStart, hrun.sClsid_le, hrun.dClsid_le, hrun.ne, hrun.source_pos, hrun.source_head,
      hrun.dest_room⟩
  · rcases hpending with rfl | hidle
    · exact h.pending hp
    · exact hidle

theorem Inv.pass (h : s.Inv cfg) : s.passRequest.Inv cfg := by
  rw [passRequest]
  cases hp : s.pending with
  | none => exact h
  | some r =>
    refine ⟨h.owned, h.fresh, (by intro hr; cases hr), fun hd => ?_, (by intro hs; cases hs)⟩
    have hrun := h.done hd
    rw [h.pending (by rw [hp]; rfl)] at hrun
    cases hrun

theorem Inv.start (h : s.Inv cfg) (realloc : Bool) : (s.slabRebalanceStart cfg realloc).Inv cfg := by
  rw [slabRebalanceStart]
  split
  · exact h
  rename_i hreq
  obtain ⟨size, hsize, hgrow, hroom⟩ := growSlabList_spec s s.rebal.dClsid realloc
  cases hres : s.growSlabList s.rebal.dClsid realloc with
  | mk grown s₁ =>
    rw [hres] at hgrow hroom
    dsimp only at hgrow hroom ⊢
    have hinv : s₁.Inv cfg := by
      rw [hgrow]
      exact h.grow hsize
    have hworked : Worked s s₁ := by
      rw [hgrow]
      exact Worked.grow s hsize
    have hsignal : s₁.signal = .requested := hworked.signal.trans (not_not.mp hreq)
    have hnotdone : s₁.rebal.done ≠ true := fun hd => by cases hsignal.symm.trans (hinv.done hd)
    have hpending : s₁.pending.isSome ≠ true := fun hp => by cases hsignal.symm.trans (hinv.pending hp)
    split
    · exact ⟨hinv.owned, hinv.fresh, (by intro hr; cases hr), fun hd => absurd hd hnotdone, fun _ => rfl⟩
    · rename_i hgo
      push Not at hgo
      obtain ⟨hs, hd, hne, hgrown, htwo⟩ := hgo
      refine ⟨hinv.owned, hinv.fresh, fun _ =>
        ⟨(s₁.cls s₁.rebal.sClsid).slabList 0, rfl, hs, hd, hne, fun _ => ?_,
        fun _ => rfl, fun hd0 => ?_⟩, fun _ => rfl, fun hp => absurd hp hpending⟩
      · show 0 < (s₁.cls s₁.rebal.sClsid).slabs
        omega
      · show (s₁.cls 0).slabs < (s₁.cls 0).listSize
        have hzero : s.rebal.dClsid = 0 := by
          rw [← hworked.rebal]
          exact hd0
        rw [hzero] at hroom hgrow
        rw [hgrow, setCls_cls_self]
        exact hroom (by simpa using hgrown) (h.owned.slabs_le 0 (Nat.zero_le _))

theorem Inv.move (h : s.Inv cfg) (clear : Bool) : (s.slabRebalanceMove clear).Inv cfg := by
  rw [slabRebalanceMove]
  split
  · rename_i hrun
    refine ⟨h.owned, h.fresh, fun hr => ?_, fun _ => hrun.1, h.pending⟩
    obtain ⟨ptr, hptr⟩ := h.running hr
    exact ⟨ptr, hptr.slabStart, hptr.sClsid_le, hptr.dClsid_le, hptr.ne, hptr.source_pos, hptr.source_head,
      hptr.dest_room⟩
  · exact h

/-! ### The end of a move -/

/-- **A finish is ready** if the pool still has a page where it is the source, and the array of the destination has
room. -/
def FinishReady (s : PageState) : Prop :=
  (s.rebal.sClsid = 0 → 0 < (s.cls 0).slabs) ∧
    (s.rebal.dClsid ≠ 0 → (s.cls s.rebal.dClsid).slabs < (s.cls s.rebal.dClsid).listSize)

/-- **The page that was chosen is moved**: it leaves the front of the source's list for the end of the
destination's, from where the pool may release pages at once; nothing else changes. -/
def FinishMoves (s s' : PageState) : Prop :=
  ∃ ptr, s.rebal.slabStart = some ptr ∧
    (s.cls s.rebal.sClsid).pages = ptr :: (s'.cls s.rebal.sClsid).pages ∧
    (∃ rest, (s.cls s.rebal.dClsid).pages ++ [ptr] = (s'.cls s.rebal.dClsid).pages ++ rest ∧
      (s.rebal.dClsid ≠ 0 → rest = [])) ∧
    ∀ id, id ≠ s.rebal.sClsid → id ≠ s.rebal.dClsid → (s'.cls id).pages = (s.cls id).pages

section movePage

variable (hne : s.rebal.sClsid ≠ s.rebal.dClsid) (ptr : ℕ)
include hne

theorem movePage_cls_source : (s.movePage ptr).cls s.rebal.sClsid = (s.cls s.rebal.sClsid).shift :=
  (setCls_cls_of_ne _ hne _).trans (setCls_cls_self _ _ _)

theorem movePage_cls_dest : (s.movePage ptr).cls s.rebal.dClsid = (s.cls s.rebal.dClsid).push ptr := by
  refine (setCls_cls_self _ _ _).trans (congrArg (SlabList.push · ptr) ?_)
  exact setCls_cls_of_ne s hne.symm _

omit hne in
theorem movePage_cls_other {id : ℕ} (hs : id ≠ s.rebal.sClsid) (hd : id ≠ s.rebal.dClsid) :
    (s.movePage ptr).cls id = s.cls id :=
  (setCls_cls_of_ne _ hd _).trans (setCls_cls_of_ne _ hs _)

end movePage

theorem Running.owned_movePage {ptr : ℕ} (h : s.Owned cfg) (hrun : Running cfg s ptr)
    (hsource : 0 < (s.cls s.rebal.sClsid).slabs)
    (hroom : (s.cls s.rebal.dClsid).slabs < (s.cls s.rebal.dClsid).listSize) : (s.movePage ptr).Owned cfg := by
  have hhead := hrun.source_head hsource
  have hmem : ptr ∈ s.live := by
    rw [← hhead]
    exact h.mem_live hrun.sClsid_le hsource
  have hshift := h.shift hrun.sClsid_le hsource
  have hdest : (s.setCls s.rebal.sClsid (s.cls s.rebal.sClsid).shift).cls s.rebal.dClsid = s.cls s.rebal.dClsid :=
    setCls_cls_of_ne s hrun.ne.symm _
  rw [hhead] at hshift
  have hpush := hshift.push hrun.dClsid_le (Finset.notMem_erase ptr s.live) (by
    show ((s.setCls s.rebal.sClsid (s.cls s.rebal.sClsid).shift).cls s.rebal.dClsid).slabs <
      ((s.setCls s.rebal.sClsid (s.cls s.rebal.sClsid).shift).cls s.rebal.dClsid).listSize
    rw [hdest]
    exact hroom)
  rw [Finset.insert_erase hmem] at hpush
  exact hpush

/-- **A ready finish.** -/
theorem Inv.finish (h : s.Inv cfg) (hdone : s.rebal.done = true) (hready : s.FinishReady) :
    (s.slabRebalanceFinish cfg).Inv cfg ∧ FinishMoves s (s.slabRebalanceFinish cfg) := by
  obtain ⟨ptr, hrun⟩ := h.running (h.done hdone)
  have hsource : 0 < (s.cls s.rebal.sClsid).slabs := by
    by_cases h0 : s.rebal.sClsid = 0
    · rw [h0]
      exact hready.1 h0
    · exact hrun.source_pos h0
  have hroom : (s.cls s.rebal.dClsid).slabs < (s.cls s.rebal.dClsid).listSize := by
    by_cases h0 : s.rebal.dClsid = 0
    · rw [h0]
      exact hrun.dest_room h0
    · exact hready.2 h0
  have howned := hrun.owned_movePage h.owned hsource hroom
  have hpages : (s.cls s.rebal.sClsid).pages = ptr :: ((s.movePage ptr).cls s.rebal.sClsid).pages := by
    rw [movePage_cls_source hrun.ne, SlabList.pages_shift hsource, hrun.source_head hsource]
  have hdest : (s.cls s.rebal.dClsid).pages ++ [ptr] = ((s.movePage ptr).cls s.rebal.dClsid).pages := by
    rw [movePage_cls_dest hrun.ne, SlabList.pages_push]
  rw [slabRebalanceFinish, if_neg (by rw [hdone]; decide), if_neg (by omega), hrun.slabStart]
  simp only [Option.getD_some]
  by_cases h0 : s.rebal.dClsid = 0
  · simp only [if_pos h0]
    have hsound : (s.movePage ptr).Sound cfg := ⟨howned, h.fresh⟩
    obtain ⟨hsound', -, ⟨rest, hrest⟩, hothers⟩ := memoryRelease_spec hsound
    refine ⟨⟨hsound'.1, hsound'.2, (by intro hr; cases hr), (by intro hd; cases hd), fun _ => rfl⟩,
      ptr, hrun.slabStart, ?_,
      ⟨rest, ?_, fun hd => absurd h0 hd⟩, fun id hs hd => ?_⟩
    · rw [hpages]
      exact congrArg (ptr :: ·.pages) (hothers _ (by rw [← h0]; exact hrun.ne)).symm
    · rw [hdest, h0, hrest]
    · exact congrArg SlabList.pages ((hothers id (by rwa [← h0])).trans (movePage_cls_other ptr hs hd))
  · simp only [if_neg h0]
    refine ⟨⟨howned, h.fresh, (by intro hr; cases hr), (by intro hd; cases hd), fun _ => rfl⟩, ptr,
      hrun.slabStart, hpages,
      ⟨[], by rw [hdest, append_nil], fun _ => rfl⟩, fun id hs hd => ?_⟩
    exact congrArg SlabList.pages (movePage_cls_other ptr hs hd)

/-- **A finish that is not ready** moves no page, or leaves the list of the destination longer than its array. -/
theorem Inv.ready_of_moves (h : s.Inv cfg) (hdone : s.rebal.done = true)
    (howned : (s.slabRebalanceFinish cfg).Owned cfg) (hmoves : FinishMoves s (s.slabRebalanceFinish cfg)) :
    s.FinishReady := by
  obtain ⟨ptr, hrun⟩ := h.running (h.done hdone)
  have hsource : 0 < (s.cls s.rebal.sClsid).slabs := by
    obtain ⟨_, -, hpages, -⟩ := hmoves
    refine Nat.pos_of_ne_zero fun hzero => ?_
    rw [SlabList.pages, hzero] at hpages
    cases hpages
  refine ⟨fun hs => hs ▸ hsource, fun hd => ?_⟩
  rw [slabRebalanceFinish, if_neg (by rw [hdone]; decide), if_neg (by omega), hrun.slabStart] at howned
  simp only [Option.getD_some, if_neg hd] at howned
  have hle : ((s.movePage ptr).cls s.rebal.dClsid).slabs ≤ _ := howned.slabs_le _ hrun.dClsid_le
  rw [movePage_cls_dest hrun.ne] at hle
  exact hle

end PageState

/-! ### Whole runs -/

/-- A server without a move or request under way, whose pages are owned. -/
structure PageState.Settled (cfg : PageConfig) (s : PageState) : Prop where
  owned : s.Owned cfg
  fresh : cfg.preallocated → ∀ ptr ∈ s.live, ptr < s.memCurrent
  signal : s.signal = .idle
  done : s.rebal.done = false

theorem PageState.Settled.inv {cfg : PageConfig} {s : PageState} (h : s.Settled cfg) : s.Inv cfg := by
  refine ⟨h.owned, h.fresh, fun hr => ?_, fun hd => ?_, fun _ => h.signal⟩
  · rw [h.signal] at hr
    cases hr
  · rw [h.done] at hd
    cases hd

theorem PageState.Inv.step {cfg : PageConfig} {s : PageState} (h : s.Inv cfg) {e : PageEvent}
    (hallowed : e.Allowed cfg s)
    (hready : e = .finish → s.rebal.done = true → s.FinishReady) : (pageStep cfg s e).Inv cfg := by
  cases e with
  | newslab id realloc malloc => exact h.newslab hallowed.1 realloc hallowed.2
  | reassign src dst => exact h.reassign src dst
  | pass => exact h.pass
  | start realloc => exact h.start realloc
  | move clear => exact h.move clear
  | memLimit newMemLimit => exact h.memLimit newMemLimit
  | finish =>
    by_cases hdone : s.rebal.done = true
    · exact (h.finish hdone (hready rfl hdone)).1
    · rw [pageStep, slabRebalanceFinish, if_pos (by simpa using hdone)]
      exact h

/-- **Page ownership.** From a settled server, along every run of critical sections: every state owns its pages and
every finish moves the page that was chosen if and only if every finish is ready. -/
theorem page_ownership_iff (cfg : PageConfig) {s : PageState} (h : s.Settled cfg) (es : List PageEvent)
    (hallowed : Trace.All (pageStep cfg) (fun s e => e.Allowed cfg s) s es) :
    Trace.All (pageStep cfg) (fun s e => (pageStep cfg s e).Owned cfg ∧
        (e = .finish → s.rebal.done = true → s.FinishMoves (pageStep cfg s e))) s es ↔
      Trace.All (pageStep cfg) (fun s e => e = .finish → s.rebal.done = true → s.FinishReady) s es := by
  have hinv := h.inv
  clear h
  induction es generalizing s with
  | nil => exact Iff.rfl
  | cons e es ih =>
    constructor
    · rintro ⟨⟨howned, hmoves⟩, hrest⟩
      have hready : e = .finish → s.rebal.done = true → s.FinishReady := by
        rintro rfl hdone
        exact hinv.ready_of_moves hdone howned (hmoves rfl hdone)
      exact ⟨hready, (ih hallowed.2 (hinv.step hallowed.1 hready)).mp hrest⟩
    · rintro ⟨hready, hrest⟩
      have hnext := hinv.step hallowed.1 hready
      refine ⟨⟨hnext.owned, ?_⟩, (ih hallowed.2 hnext).mpr hrest⟩
      rintro rfl hdone
      exact (hinv.finish hdone (hready rfl hdone)).2

/-! ### Runs -/

/-- Three classes, pages that may be moved, memory from `malloc`. -/
def threeClasses : PageConfig where
  powerLargest := 3
  len _ := slabPageSize
  len_pos _ := slabPageSize_pos
  slabReassign := true
  preallocated := false

/-- A server that has just started, with a limit of 64 megabytes. -/
def noPages : PageState where
  cls _ := ⟨0, 0, fun _ => 0⟩
  memMalloced := 0
  memLimit := 67108864
  memCurrent := 0
  memAvail := 0
  live := ∅
  rebal := ⟨none, 0, 0, false⟩
  signal := .idle
  pending := none
  cur := 0
  crashed := false

theorem noPages_settled (cfg : PageConfig) : noPages.Settled cfg := by
  refine ⟨⟨⟨fun _ _ => nodup_nil, fun _ _ _ _ _ a ha => (nomatch ha), fun a => ?_⟩, fun _ _ => le_rfl⟩,
    fun _ a ha => absurd ha (Finset.notMem_empty a), rfl, rfl⟩
  refine iff_of_false (Finset.notMem_empty a) ?_
  rintro ⟨id, -, ha⟩
  cases ha

def request (src dst : ℤ) : List PageEvent := [.reassign src dst, .pass, .start true]

def moveOnePage : List PageEvent :=
  [.newslab 1 true (some 1), .newslab 1 true (some 2)] ++ request 1 2 ++ [.move true, .finish]

/-- A page moved from class 1 to class 2. -/
theorem page_ownership_move :
    noPages.Settled threeClasses ∧
      Trace.All (pageStep threeClasses) (fun s e => (pageStep threeClasses s e).Owned threeClasses ∧
        (e = .finish → s.rebal.done = true → s.FinishMoves (pageStep threeClasses s e))) noPages moveOnePage ∧
      ((Trace.run (pageStep threeClasses) noPages moveOnePage).cls 2).pages = [1] := by
  have hallowed : Trace.All (pageStep threeClasses) (fun s e => e.Allowed threeClasses s) noPages moveOnePage := by
    refine ⟨⟨by decide, by decide⟩, ⟨by decide, ?_⟩, trivial, trivial, trivial, trivial, trivial, trivial⟩
    intro ptr hptr
    obtain rfl := Option.some.inj hptr
    decide
  refine ⟨noPages_settled _, (page_ownership_iff threeClasses (noPages_settled _) _ hallowed).mpr ?_, by decide⟩
  refine ⟨(by intro h; cases h), (by intro h; cases h), (by intro h; cases h), (by intro h; cases h),
    (by intro h; cases h),
    (by intro h; cases h), fun _ _ => ⟨fun h => ?_, fun _ => ?_⟩, trivial⟩
  · exact absurd h (by decide)
  · decide

/-- Four pages for class 1, two of which move to the pool; while a page of the pool is to move to class 2, class 3 takes
both of them. -/
def poolEmptied : List PageEvent :=
  [.newslab 1 true (some 1), .newslab 1 true (some 2), .newslab 1 true (some 3), .newslab 1 true (some 4)] ++
    request 1 0 ++ [.move true, .finish] ++ request 1 0 ++ [.move true, .finish] ++
    request 0 2 ++ [.newslab 3 true none, .newslab 3 true none, .finish]

/-- Two pages for class 1 and fifteen for class 2; while one of class 1 is to move to class 2, that gets its
sixteenth. -/
def arrayFilled : List PageEvent :=
  [.newslab 1 true (some 1), .newslab 1 true (some 2)] ++
    (range 15).map (fun x => .newslab 2 true (some (x + 3))) ++
    request 1 2 ++ [.newslab 2 true (some 18), .move true, .finish]

/-- After the first run page 1 is in class 3 and not in class 2, the length of the pool's list has wrapped, and the
server has crashed; after the second the list of class 2 is longer than its array. -/
theorem page_ownership_broken :
    let emptied := Trace.run (pageStep threeClasses) noPages poolEmptied
    let filled := Trace.run (pageStep threeClasses) noPages arrayFilled
    noPages.Settled threeClasses ∧ emptied.crashed = true ∧ (emptied.cls 0).slabs = 2 ^ 32 - 1 ∧
      (emptied.cls 0).listSize = 16 ∧ (emptied.cls 2).pages = [] ∧ (emptied.cls 3).pages = [2, 1] ∧
      ¬ emptied.Owned threeClasses ∧ (filled.cls 2).slabs = 17 ∧ (filled.cls 2).listSize = 16 ∧
      ¬ filled.Owned threeClasses := by
  intro emptied filled
  have hwrapped : (emptied.cls 0).slabs = 2 ^ 32 - 1 := by decide +kernel
  have hpool : (emptied.cls 0).listSize = 16 := by decide +kernel
  have hslabs : (filled.cls 2).slabs = 17 := by decide +kernel
  have hsize : (filled.cls 2).listSize = 16 := by decide +kernel
  refine ⟨noPages_settled _, by decide +kernel, hwrapped, hpool, by decide +kernel, by decide +kernel,
    fun h => ?_, hslabs,
    hsize, fun h => ?_⟩
  · have hle := h.slabs_le 0 (by decide)
    rw [hwrapped, hpool] at hle
    exact absurd hle (by decide)
  · have hle := h.slabs_le 2 (by decide)
    rw [hslabs, hsize] at hle
    exact absurd hle (by decide)

end BmcCache
