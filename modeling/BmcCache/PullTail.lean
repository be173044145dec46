import BmcCache.LockTrace
import BmcCache.LruRuns

/-!
# What `lru_pull_tail` acquires and gives back

`lru_pull_tail` has some ten ways through its loop. Some release the item in the loop, others leave it to the end,
with the lock of the list already dropped.

* `tracePullItem`, `tracePullLoop`, `traceLruPullTail` — the function with what it does to locks and the items it
  examines; `traceLruPullTail_erase` says that it is `lruPullTail` otherwise;
* `PullCase` — everything that can be done with an item;
* `PullKept` — what may become of an item: it has its references back, or it is unlinked for a reason;
* `pull_tail_balanced` — the function is balanced.
-/

namespace BmcCache

open AssocState DoublyLinked LockTrace Function List

namespace LruState

/-! ### The function with its locks -/

/-- The locks: of a list, the item lock of a hash value, and the pointer that is no lock. -/
inductive PullLock where
  | lru (id : UInt8)
  | item (hv : ℕ)
  | null
  deriving DecidableEq, Repr

def holdLock : Option ℕ → PullLock
  | none => .null
  | some hv => .item hv

/-- The body of the loop, with the item locked and `refcount_incr` done, and what it does to locks. -/
def tracePullItem (cfg : LruSettings) (p : PullTail) (fuel search hv removed : ℕ) (s : LruState) :
    Option (PullStep × List (Act PullLock)) :=
  let stop (s : LruState) (removed : ℕ) : PullStep := .done ⟨s, some search, 0, removed, none, false⟩
  let move (s : LruState) (lru : LruId) : PullStep :=
    .done ⟨s.itemUnlinkQ search, some search, lruBits lru, removed + 1, none, false⟩
  if (s.hdr search).refcount ≠ 2 ∧ cfg.tailRepairTime ≠ 0 ∧
      (s.hdr search).time + cfg.tailRepairTime < cfg.currentTime then
    let s := s.modify search fun h => { h with refcount := 1 }
    match s.doItemUnlinkNolock fuel search hv with
    | none => none
    | some s => some (.next s removed, [.release (.item hv)])
  else if expired cfg (s.hdr search) then
    match s.doItemUnlinkNolock fuel search hv with
    | none => none
    | some s => some (.next (s.doItemRemove search) (removed + 1), [.release (.item hv)])
  else
    match p.curLru with
    | .hot | .warm =>
      if (s.hdr search).flags.active then
        let s := s.clearActive search
        if p.curLru = .warm then
          some (.next (((s.itemUnlinkQ search).itemLinkQ search).doItemRemove search) (removed + 1),
            [.release (.item hv)])
        else some (move s .warm, [])
      else if pullLimit cfg p < s.q.sizesBytes p.id ∨ p.maxAge < cfg.currentTime - (s.hdr search).time then
        some (move s .cold, [])
      else some (stop s removed, [])
    | .cold =>
      if p.evict then
        if cfg.evictToFree then
          match s.doItemUnlinkNolock fuel search hv with
          | none => none
          | some s => some (stop s (removed + 1), [])
        else some (stop s removed, [])
      else if p.returnItem then some (.done ⟨s, some search, 0, removed, some (search, hv), false⟩, [])
      else if (s.hdr search).flags.active = true ∧ cfg.lruSegmented = true then
        some (move (s.clearActive search) .warm, [])
      else some (stop s removed, [])
    | .temp => some (stop s removed, [])

/-- What is known behind the loop: its variables, `hold_lock` among them, the actions on locks, and the items that
have been examined. -/
structure PullTrace where
  exit : PullExit
  hold : Option ℕ
  locks : List (Act PullLock)
  examined : List ℕ

def PullTrace.before (locks : List (Act PullLock)) (examined : ℕ) (t : PullTrace) : PullTrace :=
  { t with locks := locks ++ t.locks, examined := examined :: t.examined }

/-- The loop of `lru_pull_tail`, with its locks. -/
def tracePullLoop (hash : Bytes → ℕ) (cfg : LruSettings) (p : PullTail) (fuel : ℕ) :
    ℕ → ℕ → Option ℕ → ℕ → Option ℕ → LruState → Option PullTrace
  | _, 0, _, removed, hold, s => some ⟨⟨s, none, 0, removed, none, false⟩, hold, [], []⟩
  | _, _ + 1, none, removed, hold, s => some ⟨⟨s, none, 0, removed, none, false⟩, hold, [], []⟩
  | 0, _ + 1, some _, _, _, _ => none
  | steps + 1, tries + 1, some search, removed, hold, s =>
    let nextIt := s.q.prev search
    if s.isCrawler search then
      if p.crawlBlocks then some ⟨⟨s, none, 0, 0, none, true⟩, hold, [.release (.lru p.id)], []⟩
      else tracePullLoop hash cfg p fuel steps (tries + 1) nextIt removed hold s
    else
      let hv := hash (s.assoc.key search)
      if p.trylock (tries + 1) hv then
        match (s.refcountIncr search).tracePullItem cfg p fuel search hv removed with
        | none => none
        | some (.next s removed, locks) =>
          (tracePullLoop hash cfg p fuel steps tries nextIt removed (some hv) s).map
            (.before (.acquire (.item hv) :: locks) search)
        | some (.done e, locks) => some ⟨e, some hv, .acquire (.item hv) :: locks, [search]⟩
      else (tracePullLoop hash cfg p fuel steps tries nextIt removed none s).map (.before [] search)

/-- `lru_pull_tail` behind its loop, the locks. -/
def finishLocks (p : PullTail) (t : PullTrace) : List (Act PullLock) :=
  match t.exit.blocked, t.exit.it with
  | true, _ => []
  | false, none => [.release (.lru p.id)]
  | false, some it =>
    let id := (t.exit.state.setLru it t.exit.moveToLru).q.slabsClsid it
    .release (.lru p.id) ::
      ((if t.exit.moveToLru = 0 then [] else [.acquire (.lru id), .release (.lru id)]) ++
        if p.returnItem then [] else [.release (holdLock t.hold)])

/-- What `lru_pull_tail` returns, the item it may hand out, the state, the actions on locks, the items examined. -/
structure PullResult where
  removed : ℕ
  retIt : Option (ℕ × ℕ)
  state : LruState
  locks : List (Act PullLock)
  examined : List ℕ

/-- `lru_pull_tail` with its locks. -/
def traceLruPullTail (hash : Bytes → ℕ) (cfg : LruSettings) (fuel : ℕ) (p : PullTail) (s : LruState) :
    Option PullResult :=
  if p.origId = 0 then some ⟨0, none, s, [], []⟩
  else
    match tracePullLoop hash cfg p fuel fuel 5 (s.q.tails p.id) 0 none s with
    | none => none
    | some t =>
      some ⟨t.exit.removed, t.exit.retIt, pullFinish p t.exit, .acquire (.lru p.id) :: (t.locks ++ finishLocks p t),
        t.examined⟩

/-! ### Without the locks -/

section Erase

variable {hash : Bytes → ℕ} {cfg : LruSettings} {p : PullTail} {fuel : ℕ}

theorem tracePullItem_erase (search hv removed : ℕ) (s : LruState) :
    (s.tracePullItem cfg p fuel search hv removed).map Prod.fst = s.pullItem cfg p fuel search hv removed := by
  unfold tracePullItem pullItem
  dsimp only
  split
  · cases (s.modify search fun h => { h with refcount := 1 }).doItemUnlinkNolock fuel search hv <;> rfl
  split
  · cases s.doItemUnlinkNolock fuel search hv <;> rfl
  cases p.curLru with
  | hot | warm =>
    dsimp only
    split
    · split <;> rfl
    · split <;> rfl
  | cold =>
    dsimp only
    split
    · split
      · cases s.doItemUnlinkNolock fuel search hv <;> rfl
      · rfl
    · split
      · rfl
      · split <;> rfl
  | temp => rfl

theorem tracePullLoop_erase {steps tries removed : ℕ} {search : Option ℕ} (hold : Option ℕ) {s : LruState} :
    (tracePullLoop hash cfg p fuel steps tries search removed hold s).map PullTrace.exit =
      pullLoop hash cfg p fuel steps tries search removed s := by
  induction steps generalizing tries search removed hold s with
  | zero =>
    cases tries with
    | zero => rfl
    | succ tries => cases search <;> rfl
  | succ steps ih =>
    cases tries with
    | zero => rfl
    | succ tries =>
      cases search with
      | none => rfl
      | some search =>
        rw [tracePullLoop, pullLoop]
        dsimp only
        split
        · split
          · rfl
          · exact ih _
        split
        · rw [← tracePullItem_erase]
          cases (s.refcountIncr search).tracePullItem cfg p fuel search (hash (s.assoc.key search)) removed with
          | none => rfl
          | some r =>
            obtain ⟨step, locks⟩ := r
            cases step with
            | next s' removed' =>
              dsimp only [Option.map_some]
              rw [Option.map_map]
              exact ih _
            | done e => rfl
        · rw [Option.map_map]
          exact ih _

/-- **Without its locks it is `lru_pull_tail`.** -/
theorem traceLruPullTail_erase (s : LruState) :
    (traceLruPullTail hash cfg fuel p s).map (fun r => (r.removed, r.retIt, r.state)) =
      s.lruPullTail hash cfg fuel p := by
  unfold traceLruPullTail LruState.lruPullTail
  split
  · rfl
  · rw [← tracePullLoop_erase none]
    cases tracePullLoop hash cfg p fuel fuel 5 (s.q.tails p.id) 0 none s <;> rfl

end Erase

/-! ### What becomes of an item -/

def PullReason (cfg : LruSettings) (p : PullTail) (h : ItemHeader) : Prop :=
  expired cfg h = true ∨ (p.curLru = .cold ∧ p.evict = true ∧ cfg.evictToFree = true)

/-- **What may become of the header of an item**: it has the references it had; or it is unlinked for a reason and
has lost one; or it is unlinked, and freed because there was no other. -/
inductive PullKept (cfg : LruSettings) (p : PullTail) (h h' : ItemHeader) : Prop
  | kept (hlinked : h'.flags.linked = h.flags.linked) (hslabbed : h'.flags.slabbed = h.flags.slabbed)
      (href : h'.refcount = h.refcount) (hexpired : expired cfg h' = expired cfg h)
  | unlinked (hlinked : h.flags.linked = true) (hreason : PullReason cfg p h) (hoff : h'.flags.linked = false)
      (hslabbed : h'.flags.slabbed = h.flags.slabbed) (href : h'.refcount + 1 = h.refcount) (hpos : h'.refcount ≠ 0)
  | freed (hlinked : h.flags.linked = true) (hreason : PullReason cfg p h) (hoff : h'.flags.linked = false)
      (hslabbed : h'.flags.slabbed = true) (hlast : h.refcount = 1)

section Kept

variable {cfg : LruSettings} {p : PullTail} {h h' h'' : ItemHeader}

theorem PullKept.refl (h : ItemHeader) : PullKept cfg p h h := .kept rfl rfl rfl rfl

theorem PullKept.trans (hfirst : PullKept cfg p h h') (hnext : PullKept cfg p h' h'') : PullKept cfg p h h'' := by
  cases hfirst with
  | kept hlinked hslabbed href hexpired =>
    have hreason : PullReason cfg p h' → PullReason cfg p h := fun hr => by
      rwa [PullReason, hexpired] at hr
    cases hnext with
    | kept hlinked' hslabbed' href' hexpired' =>
      exact .kept (hlinked'.trans hlinked) (hslabbed'.trans hslabbed) (href'.trans href) (hexpired'.trans hexpired)
    | unlinked hlinked' hreason' hoff hslabbed' href' hpos =>
      exact .unlinked (hlinked ▸ hlinked') (hreason hreason') hoff (hslabbed'.trans hslabbed) (href'.trans href) hpos
    | freed hlinked' hreason' hoff hslabbed' hlast =>
      exact .freed (hlinked ▸ hlinked') (hreason hreason') hoff hslabbed' (href ▸ hlast)
  | unlinked hlinked hreason hoff hslabbed href hpos =>
    cases hnext with
    | kept hlinked' hslabbed' href' hexpired' =>
      exact .unlinked hlinked hreason (hlinked'.trans hoff) (hslabbed'.trans hslabbed) (by omega) (by omega)
    | unlinked hlinked' => exact absurd (hoff.symm.trans hlinked') Bool.false_ne_true
    | freed hlinked' => exact absurd (hoff.symm.trans hlinked') Bool.false_ne_true
  | freed hlinked hreason hoff hslabbed hlast =>
    cases hnext with
    | kept hlinked' hslabbed' href' hexpired' =>
      exact .freed hlinked hreason (hlinked'.trans hoff) (hslabbed'.trans hslabbed) hlast
    | unlinked hlinked' => exact absurd (hoff.symm.trans hlinked') Bool.false_ne_true
    | freed hlinked' => exact absurd (hoff.symm.trans hlinked') Bool.false_ne_true

end Kept

/-! ### One item -/

section Item

variable {hash : Bytes → ℕ} {s s₁ : LruState} {lists : UInt8 → List ℕ} {linked : Finset ℕ}
  {it fuel hv removed : ℕ}
  {id : UInt8} {l r : List ℕ} {cfg : LruSettings} {p : PullTail}

/-- **Everything that can be done with an item**, if tail repair is disabled. -/
inductive PullCase (cfg : LruSettings) (p : PullTail) (fuel it hv removed : ℕ) (s : LruState) :
    PullStep → List (Act PullLock) → Prop
  | expired (s₁ : LruState) (hexpired : LruState.expired cfg (s.hdr it) = true)
      (hunlink : s.doItemUnlinkNolock fuel it hv = some s₁) :
      PullCase cfg p fuel it hv removed s (.next (s₁.doItemRemove it) (removed + 1)) [.release (.item hv)]
  | bump : PullCase cfg p fuel it hv removed s
      (.next ((((s.clearActive it).itemUnlinkQ it).itemLinkQ it).doItemRemove it) (removed + 1)) [.release (.item hv)]
  | move (active : Bool) (lru : UInt8) : PullCase cfg p fuel it hv removed s
      (.done ⟨(if active then s.clearActive it else s).itemUnlinkQ it, some it, lru, removed + 1, none, false⟩) []
  | evict (s₁ : LruState) (hreason : p.curLru = .cold ∧ p.evict = true ∧ cfg.evictToFree = true)
      (hunlink : s.doItemUnlinkNolock fuel it hv = some s₁) :
      PullCase cfg p fuel it hv removed s (.done ⟨s₁, some it, 0, removed + 1, none, false⟩) []
  | stop : PullCase cfg p fuel it hv removed s (.done ⟨s, some it, 0, removed, none, false⟩) []

theorem tracePullItem_cases (removed : ℕ) (hrepair : cfg.tailRepairTime = 0) (hret : p.returnItem = false)
    (hunlink : s.doItemUnlinkNolock fuel it hv = some s₁) :
    ∃ step locks, s.tracePullItem cfg p fuel it hv removed = some (step, locks) ∧
      PullCase cfg p fuel it hv removed s step locks := by
  unfold tracePullItem
  rw [if_neg (fun hand => hand.2.1 hrepair)]
  dsimp only
  split
  · rename_i hexpired
    rw [hunlink]
    exact ⟨_, _, rfl, .expired s₁ hexpired hunlink⟩
  cases hlru : p.curLru with
  | hot | warm =>
    dsimp only
    split
    · split
      · exact ⟨_, _, rfl, .bump⟩
      · exact ⟨_, _, rfl, .move true _⟩
    · split
      · exact ⟨_, _, rfl, .move false _⟩
      · exact ⟨_, _, rfl, .stop⟩
  | cold =>
    dsimp only
    split
    · rename_i hevict
      split
      · rename_i hfree
        rw [hunlink]
        exact ⟨_, _, rfl, .evict s₁ ⟨hlru, hevict, hfree⟩ hunlink⟩
      · exact ⟨_, _, rfl, .stop⟩
    · rw [hret, if_neg Bool.false_ne_true]
      split
      · exact ⟨_, _, rfl, .move true _⟩
      · exact ⟨_, _, rfl, .stop⟩
  | temp => exact ⟨_, _, rfl, .stop⟩

/-! The headers behind the functions. -/

theorem doItemRemove_hdr (s : LruState) (it : ℕ) : (s.doItemRemove it).hdr = update s.hdr it
    (if (s.hdr it).refcount - 1 = 0 then
      { s.hdr it with refcount := (s.hdr it).refcount - 1, flags := { ItemFlags.zero with slabbed := true } }
    else { s.hdr it with refcount := (s.hdr it).refcount - 1 }) := by
  unfold LruState.doItemRemove
  dsimp only
  rw [modify_hdr_self]
  by_cases hzero : (s.hdr it).refcount - 1 = 0
  · rw [if_pos hzero, if_pos hzero]
    simp only [itemFree, LruState.modify, update_self, update_idem]
  · rw [if_neg hzero, if_neg hzero]
    rfl

theorem doItemUnlinkNolock_hdr (h : s.doItemUnlinkNolock fuel it hv = some s₁)
    (hlinked : (s.hdr it).flags.linked = true)
    (href : 2 ≤ (s.hdr it).refcount) : s₁.hdr = update s.hdr it
      { s.hdr it with
        refcount := (s.hdr it).refcount - 1
        flags := { (s.hdr it).flags with linked := false } } := by
  unfold LruState.doItemUnlinkNolock at h
  rw [if_pos hlinked] at h
  dsimp only at h
  split at h
  · cases h
  · obtain rfl := Option.some.inj h
    rw [doItemRemove_hdr]
    simp only [itemUnlinkQ, LruState.modify, update_self, update_idem]
    rw [if_neg (by omega)]

/-- The header behind an item that is unlinked and let go; `h` is the header before the reference was taken. -/
def letGo (h : ItemHeader) : ItemHeader :=
  if h.refcount - 1 = 0 then
    { h with refcount := h.refcount - 1, flags := { ItemFlags.zero with slabbed := true } }
  else { h with refcount := h.refcount - 1, flags := { h.flags with linked := false } }

theorem PullKept.of_letGo {h : ItemHeader} (hlinked : h.flags.linked = true) (href : h.refcount ≠ 0)
    (hreason : PullReason cfg p h) : PullKept cfg p h (letGo h) := by
  unfold letGo
  split
  · exact .freed hlinked hreason rfl rfl (by omega)
  · exact .unlinked hlinked hreason rfl rfl (by dsimp only; omega) (by assumption)

theorem unlink_remove_hdr (hunlink : (s.refcountIncr it).doItemUnlinkNolock fuel it hv = some s₁)
    (hlinked : (s.hdr it).flags.linked = true) (href : (s.hdr it).refcount ≠ 0) :
    (s₁.doItemRemove it).hdr = update s.hdr it (letGo (s.hdr it)) := by
  have hincr : (s.refcountIncr it).hdr = update s.hdr it { s.hdr it with refcount := (s.hdr it).refcount + 1 } :=
    rfl
  have hunlinked := doItemUnlinkNolock_hdr hunlink (by rw [hincr, update_self]; exact hlinked)
    (by rw [hincr, update_self]; dsimp only; omega)
  rw [doItemRemove_hdr, hunlinked, hincr]
  simp only [update_self, update_idem, Nat.add_sub_cancel]
  rfl

/-- The item is left as it is but for its flag, and the reference of the walk dropped. -/
theorem kept_remove_hdr {s' : LruState} (active : Bool) (href : (s.hdr it).refcount ≠ 0)
    (hs' : s'.hdr = (if active then (s.refcountIncr it).clearActive it else s.refcountIncr it).hdr) :
    (s'.doItemRemove it).hdr = update s.hdr it
      (if active then { s.hdr it with flags := { (s.hdr it).flags with active := false } } else s.hdr it) := by
  rw [doItemRemove_hdr, hs']
  cases active with
  | true =>
    simp only [if_true, LruState.clearActive, LruState.refcountIncr, LruState.modify, update_self,
      update_idem, Nat.add_sub_cancel]
    rw [if_neg href]
  | false =>
    simp only [Bool.false_eq_true, if_false, LruState.refcountIncr, LruState.modify, update_self,
      update_idem, Nat.add_sub_cancel]
    rw [if_neg href]

/-- **The items behind a round**: only the one that is examined changes. -/
structure Round (cfg : LruSettings) (p : PullTail) (examined : List ℕ) (s s' : LruState) : Prop where
  others : ∀ a, a ∉ examined → s'.hdr a = s.hdr a
  kept : ∀ a, PullKept cfg p (s.hdr a) (s'.hdr a)

theorem Round.of_update {s' : LruState} {h : ItemHeader} (hs' : s'.hdr = update s.hdr it h)
    (hkept : PullKept cfg p (s.hdr it) h) : Round cfg p [it] s s' where
  others := by
    intro a ha
    rw [hs', update_of_ne (mem_singleton.not.mp ha)]
  kept := by
    intro a
    rw [hs']
    by_cases heq : a = it
    · rw [heq, update_self]
      exact hkept
    · rw [update_of_ne heq]
      exact .refl _

/-- A round that the loop goes on behind, or the last one and the end of the function. -/
def PullStep.final (p : PullTail) : PullStep → LruState
  | .next s _ => s
  | .done e => pullFinish p e

/-- **Whatever is done with an item**, it is one of the things that may become of an item. -/
theorem PullCase.round {step : PullStep} {locks : List (Act PullLock)}
    (hcase : PullCase cfg p fuel it hv removed (s.refcountIncr it) step locks) (hret : p.returnItem = false)
    (hlinked : (s.hdr it).flags.linked = true) (href : (s.hdr it).refcount ≠ 0) :
    Round cfg p [it] s (step.final p) := by
  have hactive : PullKept cfg p (s.hdr it) { s.hdr it with flags := { (s.hdr it).flags with active := false } } :=
    .kept rfl rfl rfl rfl
  cases hcase with
  | expired s₁ hexpired hunlink =>
    refine .of_update (unlink_remove_hdr hunlink hlinked href) (.of_letGo hlinked href (.inl ?_))
    rw [LruState.refcountIncr, modify_hdr_self] at hexpired
    exact hexpired
  | bump => exact .of_update (kept_remove_hdr true href rfl) hactive
  | move active lru =>
    have hfinal : (PullStep.final p (.done ⟨(if active then (s.refcountIncr it).clearActive it
        else s.refcountIncr it).itemUnlinkQ it, some it, lru, removed + 1, none, false⟩)) =
          LruState.doItemRemove (if lru = 0
        then (if active then (s.refcountIncr it).clearActive it else s.refcountIncr it).itemUnlinkQ it
        else (((if active then (s.refcountIncr it).clearActive it else s.refcountIncr it).itemUnlinkQ it).setLru it
          lru).itemLinkQ it) it := by
      rw [PullStep.final, pullFinish, hret]
      rfl
    rw [hfinal]
    refine .of_update (kept_remove_hdr active href ?_) ?_
    · split <;> rfl
    · cases active with
      | true => exact hactive
      | false => exact .refl _
  | evict s₁ hreason hunlink =>
    have hfinal : (PullStep.final p (.done ⟨s₁, some it, 0, removed + 1, none, false⟩)) =
      s₁.doItemRemove it := by
      rw [PullStep.final, pullFinish, hret]
      rfl
    rw [hfinal]
    exact .of_update (unlink_remove_hdr hunlink hlinked href) (.of_letGo hlinked href (.inr hreason))
  | stop =>
    have hfinal : (PullStep.final p (.done ⟨s.refcountIncr it, some it, 0, removed, none, false⟩)) =
        (s.refcountIncr it).doItemRemove it := by
      rw [PullStep.final, pullFinish, hret]
      rfl
    rw [hfinal]
    exact .of_update (kept_remove_hdr false href rfl) (.refl _)

/-- A round that the loop goes on behind: the list may have gained the item at its head. -/
theorem PullCase.next {s' : LruState} {removed' : ℕ} {locks : List (Act PullLock)} (h : Inv hash s lists linked none)
    (hfuel : linked.card ≤ fuel) (hit : it ∈ linked) (hlist : lists id = l ++ it :: r)
    (hcase : PullCase cfg p fuel it (hash (s.assoc.key it)) removed (s.refcountIncr it) (.next s' removed') locks) :
    locks = [.release (.item (hash (s.assoc.key it)))] ∧ ∃ lists' linked' m r', linked' ⊆ linked ∧
      Inv hash s' lists' linked' none ∧ lists' id = m ++ l ++ r' ∧ (m = [] ∨ m = [it]) := by
  have hitem := h.isItem it hit
  have hinc := h.refcountIncr hitem
  cases hcase with
  | expired s₁ hexpired hunlink =>
    obtain ⟨s₂, hunlink₂, hinv⟩ := hinc.doItemUnlinkNolock hfuel hit hlist
    obtain rfl : s₁ = s₂ := Option.some.inj (hunlink.symm.trans hunlink₂)
    refine ⟨rfl, _, linked.erase it, [], r, Finset.erase_subset _ _,
      hinv.doItemRemove hitem fun hmem => absurd hmem (Finset.notMem_erase it linked), ?_, .inl rfl⟩
    rw [update_self, nil_append]
  | bump =>
    have hback := ((hinc.clearActive hitem).takeOff hitem hlist).putBack hit
    refine ⟨rfl, _, linked, [it], r, subset_rfl, hback.doItemRemove hitem fun _ => ?_, ?_, .inr rfl⟩
    · have hpos := h.refcount it hit
      show (((s.refcountIncr it).clearActive it).hdr it).refcount - 1 ≠ 0
      rw [LruState.clearActive, modify_hdr_self, LruState.refcountIncr, modify_hdr_self]
      exact hpos
    · show update _ (s.q.slabsClsid it) _ id = _
      rw [h.holds.clsid_eq hlist, update_self]
      show it :: update lists id (l ++ r) (s.q.slabsClsid it) = _
      rw [h.holds.clsid_eq hlist, update_self]
      rfl

end Item

/-! ### The walk -/

section Walk

variable {hash : Bytes → ℕ} {s s' s'' : LruState} {lists : UInt8 → List ℕ} {linked : Finset ℕ}
  {fuel : ℕ}
  {cfg : LruSettings} {p : PullTail} {near : ℕ → Prop}

theorem Round.refl (examined : List ℕ) (s : LruState) : Round cfg p examined s s :=
    ⟨fun _ _ => rfl, fun _ => .refl _⟩

theorem Round.trans {it : ℕ} {examined : List ℕ} (h : Round cfg p [it] s s') (h' : Round cfg p examined s' s'') :
    Round cfg p (it :: examined) s s'' where
  others := by
    intro a ha
    rw [mem_cons, not_or] at ha
    rw [h'.others a ha.2, h.others a (mem_singleton.not.mpr ha.1)]
  kept := fun a => (h.kept a).trans (h'.kept a)

def heldBehind (p : PullTail) (t : PullTrace) : List PullLock :=
  if t.exit.blocked then [] else if t.exit.it.isSome then [holdLock t.hold, .lru p.id] else [.lru p.id]

/-- **What the loop guarantees**: at most `tries` items are examined, all of them near the tail. -/
structure PullTrace.Good (cfg : LruSettings) (p : PullTail) (near : ℕ → Prop) (tries : ℕ) (s : LruState)
    (t : PullTrace) : Prop where
  locks : LockTrace.run [.lru p.id] t.locks = some (heldBehind p t)
  hold : t.exit.it.isSome = true → t.hold.isSome = true
  blocked : t.exit.blocked = true → t.exit.it = none
  retIt : t.exit.retIt = none
  round : Round cfg p t.examined s (pullFinish p t.exit)
  length_le : t.examined.length ≤ tries
  near : ∀ a ∈ t.examined, near a

theorem PullTrace.Good.before {t : PullTrace} {tries it : ℕ} {locks : List (Act PullLock)}
    (h : t.Good cfg p near tries s')
    (hround : Round cfg p [it] s s') (hlocks : LockTrace.run [.lru p.id] locks = some [.lru p.id]) (hnear : near it) :
    (t.before locks it).Good cfg p near (tries + 1) s where
  locks := by
    show LockTrace.run [.lru p.id] (locks ++ t.locks) = _
    rw [run_append hlocks]
    exact h.locks
  hold := h.hold
  blocked := h.blocked
  retIt := h.retIt
  round := hround.trans h.round
  length_le := Nat.succ_le_succ h.length_le
  near := by
    intro a ha
    rcases mem_cons.mp ha with rfl | ha
    · exact hnear
    · exact h.near a ha

theorem PullTrace.good_end (tries removed : ℕ) (hold : Option ℕ) :
    (⟨⟨s, none, 0, removed, none, false⟩, hold, [], []⟩ : PullTrace).Good cfg p near tries s :=
  ⟨rfl, nofun, fun _ => rfl, rfl, .refl _ _, Nat.zero_le _, nofun⟩

/-- The last `n` items of a list. -/
def lastItems (n : ℕ) (l : List ℕ) : List ℕ := (itemsOf l).reverse.take n

theorem lastItems_crawler {a n : ℕ} {l : List ℕ} (ha : ¬ IsItem a) : lastItems n (l ++ [a]) = lastItems n l := by
  rw [lastItems, LruLists.itemsOf_append, LruLists.itemsOf_cons_crawler ha]
  exact congrArg _ (congrArg _ (append_nil _))

theorem lastItems_item {a n : ℕ} {l : List ℕ} (ha : IsItem a) :
    lastItems (n + 1) (l ++ [a]) = a :: lastItems n l := by
  rw [lastItems, LruLists.itemsOf_append, LruLists.itemsOf_cons_item ha, reverse_append]
  rfl

theorem lastItems_front {a b n : ℕ} {m l : List ℕ} (hm : m = [] ∨ m = [a]) (hb : b ∈ lastItems n (m ++ l)) :
    b = a ∨ b ∈ lastItems n l := by
  rcases hm with rfl | rfl
  · exact .inr hb
  · rw [lastItems, LruLists.itemsOf_append, reverse_append, take_append] at hb
    rcases mem_append.mp hb with hl | ha
    · exact .inr hl
    · have hmem := mem_reverse.mp (mem_of_mem_take ha)
      exact .inl (mem_singleton.mp (mem_of_mem_filter hmem))

/-- **The loop of `lru_pull_tail`.** The induction is on the bound, as for `Inv.pullLoop`; what has not been visited
ends in items that are near the tail. -/
theorem tracePullLoop_good {steps tries : ℕ} {search : Option ℕ} (removed : ℕ) (hold : Option ℕ)
    (h : Inv hash s lists linked none)
    (hfuel : linked.card ≤ fuel) (hrepair : cfg.tailRepairTime = 0) (hret : p.returnItem = false)
    (hsearch : ∀ a, search = some a → ∃ l r, lists p.id = l ++ a :: r ∧ l.length + tries < steps ∧
      ∀ b ∈ lastItems tries (l ++ [a]), near b) :
    ∃ t, tracePullLoop hash cfg p fuel steps tries search removed hold s = some t ∧ t.Good cfg p near tries s := by
  induction steps generalizing s lists linked tries search removed hold with
  | zero =>
    cases tries with
    | zero => exact ⟨_, rfl, PullTrace.good_end _ _ _⟩
    | succ tries =>
      cases search with
      | none => exact ⟨_, rfl, PullTrace.good_end _ _ _⟩
      | some a =>
        obtain ⟨l, r, -, hlt, -⟩ := hsearch a rfl
        exact absurd hlt (Nat.not_lt_zero _)
  | succ steps ih =>
    cases tries with
    | zero => exact ⟨_, rfl, PullTrace.good_end _ _ _⟩
    | succ tries =>
      cases search with
      | none => exact ⟨_, rfl, PullTrace.good_end _ _ _⟩
      | some a =>
        obtain ⟨l, r, hlist, hlt, hnear⟩ := hsearch a rfl
        have hmem : a ∈ lists p.id := by
          rw [hlist]
          exact mem_append_right _ mem_cons_self
        -- where the walk goes on
        have hnext : ∀ {lists' : UInt8 → List ℕ} {m r' : List ℕ} {tries' : ℕ}, lists' p.id = m ++ l ++ r' →
            m.length + tries' ≤ tries + 1 → (∀ b ∈ lastItems tries' (m ++ l), near b) → ∀ b,
              s.q.prev a = some b →
              ∃ l' r, lists' p.id = l' ++ b :: r ∧ l'.length + tries' < steps ∧
                ∀ b' ∈ lastItems tries' (l' ++ [b]), near b' := by
          intro lists' m r' tries' hlist' hle hnear' b hb
          rw [h.prev_eq hlist] at hb
          obtain ⟨l', rfl⟩ := getLast?_eq_some_iff.mp hb
          refine ⟨m ++ l', r', by rw [hlist']; simp, ?_, by rwa [append_assoc]⟩
          simp only [length_append, length_cons, length_nil] at hlt ⊢
          omega
        rw [tracePullLoop]
        by_cases hcrawler : s.isCrawler a = true
        · rw [if_pos hcrawler]
          have hnot : ¬ IsItem a := fun hitem => by
            have hlinked := (h.isCrawler_iff hmem).mp hcrawler
            rw [← h.holds.clsid p.id a hmem] at hmem
            exact hlinked ((h.on_list a hitem).mp hmem).1
          split
          · exact ⟨_, rfl, run_release_head _, nofun, fun _ => rfl, rfl, .refl _ _, Nat.zero_le _, nofun⟩
          · rw [lastItems_crawler hnot] at hnear
            exact ih _ _ h hfuel (hnext (m := []) hlist (by simp) hnear)
        · rw [if_neg hcrawler]
          have hlinked : a ∈ linked := by
            by_contra hnot
            exact hcrawler ((h.isCrawler_iff hmem).mpr hnot)
          have hitem := h.isItem a hlinked
          rw [lastItems_item hitem] at hnear
          have hneara : near a := hnear a mem_cons_self
          have hnearl : ∀ b ∈ lastItems tries l, near b := fun b hb => hnear b (mem_cons_of_mem _ hb)
          dsimp only
          split
          · obtain ⟨s₁, hunlink, -⟩ := (h.refcountIncr hitem).doItemUnlinkNolock hfuel hlinked hlist
            obtain ⟨step, locks, hstep, hcase⟩ := tracePullItem_cases removed hrepair hret hunlink
            have hstep' : (s.refcountIncr a).tracePullItem cfg p fuel a (hash (s.assoc.key a)) removed =
                some (step, locks) := hstep
            have hround := PullCase.round hcase hret ((h.flag a hitem).mpr hlinked) (h.refcount a hlinked)
            rw [hstep']
            cases step with
            | next s' removed' =>
              obtain ⟨rfl, lists', linked', m, r', hsub, hinv, hlist', hm⟩ :=
                PullCase.next h hfuel hlinked hlist hcase
              have hmlen : m.length ≤ 1 := by
                rcases hm with rfl | rfl
                · exact Nat.zero_le 1
                · exact le_refl 1
              have hnear' : ∀ b ∈ lastItems tries (m ++ l), near b := fun b hb =>
                (lastItems_front hm hb).elim (fun heq => heq ▸ hneara) (hnearl b)
              obtain ⟨t, ht, hgood⟩ := ih removed' (some (hash (s.assoc.key a))) hinv
                ((Finset.card_le_card hsub).trans hfuel) (hnext hlist' (by omega) hnear')
              refine ⟨_, by dsimp only; rw [ht]; rfl, hgood.before hround ?_ hneara⟩
              rw [run_acquire (by simp), run_release_head, run_nil]
            | done e =>
              have hlocks : locks = [] ∧ e.it = some a ∧ e.blocked = false ∧ e.retIt = none := by
                cases hcase <;> exact ⟨rfl, rfl, rfl, rfl⟩
              obtain ⟨rfl, hit, hblocked, hretIt⟩ := hlocks
              refine ⟨_, rfl, ?_, fun _ => rfl, fun hb => ?_, hretIt, hround, ?_, ?_⟩
              · rw [run_acquire (by simp), run_nil, heldBehind, hblocked, if_neg Bool.false_ne_true, hit]
                rfl
              · exact absurd (hblocked.symm.trans hb) Bool.false_ne_true
              · exact Nat.succ_le_succ (Nat.zero_le _)
              · exact fun b hb => (mem_singleton.mp hb).symm ▸ hneara
          · obtain ⟨t, ht, hgood⟩ := ih removed none h hfuel
              (hnext (m := []) hlist (by simp) hnearl)
            exact ⟨_, by rw [ht]; rfl, hgood.before (.refl _ _) rfl hneara⟩

end Walk

/-! ### The function -/

section Balanced

variable {hash : Bytes → ℕ} {s : LruState} {cfg : LruSettings} {p : PullTail} {near : ℕ → Prop}

/-- **Behind the loop** the lock of the list and that of the item are released. -/
theorem PullTrace.Good.finish {t : PullTrace} {tries : ℕ} (h : t.Good cfg p near tries s)
    (hret : p.returnItem = false) :
    LockTrace.run [] (.acquire (.lru p.id) :: (t.locks ++ finishLocks p t)) = some [] := by
  rw [run_acquire not_mem_nil, run_append h.locks]
  have hhold := h.hold
  have hblocked := h.blocked
  unfold heldBehind finishLocks
  obtain ⟨⟨state, it, moveToLru, removed, retIt, blocked⟩, hold, locks, examined⟩ := t
  dsimp only at hhold hblocked ⊢
  cases blocked with
  | true => rfl
  | false =>
    cases it with
    | none => exact run_release_head _
    | some it =>
      obtain ⟨hv, rfl⟩ := Option.isSome_iff_exists.mp (hhold rfl)
      have herase : ([holdLock (some hv), .lru p.id] : List PullLock).erase (.lru p.id) = [.item hv] := by
        rw [holdLock, erase_cons_tail (by simp), erase_cons_head]
      dsimp only [Option.isSome_some]
      rw [if_neg Bool.false_ne_true, if_pos rfl, run_release (mem_cons_of_mem _ mem_cons_self), herase, hret,
        if_neg Bool.false_ne_true]
      split
      · exact run_release_head _
      · rw [cons_append, run_acquire (by simp), cons_append, run_release_head]
        exact run_release_head _

end Balanced

end LruState

open LruState

/-- **`lru_pull_tail` is balanced.** Without `LRU_PULL_RETURN_ITEM` and tail repair, whatever the lists, the
arguments, the settings and the item locks that are taken: it returns; every lock it acquires it releases, once and
when it holds it; the items examined are at most five, among the last five items of the list, and the others are as
they were; an item has the references it had, or is unlinked because it was expired or flushed or evicted from
COLD_LRU, and has one less. -/
theorem pull_tail_balanced (hash : Bytes → ℕ) (cfg : LruSettings) (p : PullTail) {fuel : ℕ} {s : LruState}
    {lists : UInt8 → List ℕ} {linked : Finset ℕ} (h : Inv hash s lists linked none)
    (hfuel : linked.card + 6 ≤ fuel)
    (hrepair : cfg.tailRepairTime = 0) (hret : p.returnItem = false) :
    ∃ res, traceLruPullTail hash cfg fuel p s = some res ∧ res.retIt = none ∧
      LockTrace.run [] res.locks = some [] ∧
      res.examined.length ≤ 5 ∧ (∀ a ∈ res.examined, a ∈ lastItems 5 (lists p.id)) ∧
      (∀ a, a ∉ res.examined → res.state.hdr a = s.hdr a) ∧ ∀ a, PullKept cfg p (s.hdr a)
        (res.state.hdr a) := by
  unfold traceLruPullTail
  split
  · exact ⟨_, rfl, rfl, rfl, Nat.zero_le _, nofun, fun _ _ => rfl, fun _ => .refl _⟩
  · have hsearch : ∀ a, s.q.tails p.id = some a → ∃ l r, lists p.id = l ++ a :: r ∧ l.length + 5 < fuel ∧
        ∀ b ∈ lastItems 5 (l ++ [a]), b ∈ lastItems 5 (lists p.id) := by
      intro a ha
      rw [(h.holds.dll p.id).tail_eq] at ha
      obtain ⟨l, hl⟩ := getLast?_eq_some_iff.mp ha
      have hlen := h.length_le p.id
      rw [hl, length_append, length_cons, length_nil] at hlen
      exact ⟨l, [], hl, by omega, fun b hb => hl ▸ hb⟩
    have hcard : linked.card ≤ fuel := by omega
    obtain ⟨t, ht, hgood⟩ := tracePullLoop_good 0 none h hcard hrepair hret hsearch
    rw [ht]
    exact ⟨_, rfl, hgood.retIt, hgood.finish hret, hgood.length_le, hgood.near, hgood.round.others,
      hgood.round.kept⟩

/-- An expired item of class 1 is found at the tail of HOT_LRU. -/
theorem pull_tail_balanced_expired :
    let cfg : LruSettings := ⟨true, true, true, 20, 40, 0, 0, 0, 10⟩
    let w : Fields := ⟨⟨5, 7, 7, 0, 0, .zero⟩, [107], none, none, none, 1⟩
    let pull : PullTail := ⟨1, .hot, 0, false, false, false, 0, fun _ _ => true⟩
    let s := ((LruState.init 4).rewrite 300 w).doItemLink cfg 300 1
    (∃ res, traceLruPullTail length cfg 7 pull s = some res ∧ LockTrace.run [] res.locks = some [] ∧
      ∀ a, PullKept cfg pull (s.hdr a) (res.state.hdr a)) ∧
      (traceLruPullTail length cfg 7 pull s).map (fun res => (res.removed, res.examined)) = some (1, [300]) := by
  dsimp only
  refine ⟨?_, by decide +kernel⟩
  have hitem : IsItem 300 := by decide
  have hwritten := (inv_init length (show 4 ≤ 31 by decide)).rewrite hitem (Finset.notMem_empty _)
    (w := ⟨⟨5, 7, 7, 0, 0, .zero⟩, [107], none, none, none, 1⟩) rfl
  obtain ⟨lists, hlinked⟩ := hwritten.doItemLink ⟨true, true, true, 20, 40, 0, 0, 0, 10⟩ hitem
    (Finset.notMem_empty _)
    (fun b hb => absurd hb (Finset.notMem_empty b)) (by decide)
  obtain ⟨res, hres, -, hlocks, -, -, -, hkept⟩ :=
    pull_tail_balanced length ⟨true, true, true, 20, 40, 0, 0, 0, 10⟩
      ⟨1, .hot, 0, false, false, false, 0, fun _ _ => true⟩ hlinked (show _ ≤ 7 by decide) rfl rfl
  exact ⟨res, hres, hlocks, hkept⟩

end BmcCache
