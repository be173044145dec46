import BmcCache.LinkedItems
import Mathlib.Data.FinEnum
import Mathlib.Data.List.Perm.Subperm

/-!
# Pulling tails, crawling, and whole runs

* `lruPullTail` — `lru_pull_tail` walks up from the tail of a list and reclaims, moves or evicts what it finds;
* `doLruCrawlerStart`, `crawlStep`, `lruCrawlerClassDone` — a crawler enters a list at its tail, swings in front
  of one item after the other, and leaves;
* `LruEvent`, `lruStep` — everything that happens to linked items;
* `linked_item_invariant` — in every state of every run an item is linked iff the table finds it iff it is on
  exactly one list, the one of its id, and the counters count the items of the lists.

A walk has a bound on its steps; it is never reached.
-/

namespace BmcCache

open AssocState DoublyLinked Function List

namespace LruState

/-! ### `lru_pull_tail` -/

/-- The arguments of `lru_pull_tail`, and whether `item_trylock` gets the lock of a hash value at each of the tries. -/
structure PullTail where
  origId : UInt8
  curLru : LruId
  totalBytes : UInt64
  /-- `LRU_PULL_EVICT` -/
  evict : Bool
  /-- `LRU_PULL_CRAWL_BLOCKS` -/
  crawlBlocks : Bool
  /-- `LRU_PULL_RETURN_ITEM` -/
  returnItem : Bool
  maxAge : UInt32
  trylock : ℕ → ℕ → Bool

/-- `id |= cur_lru` -/
def PullTail.id (p : PullTail) : UInt8 := p.origId ||| lruBits p.curLru

/-- The variables behind the loop; `blocked` is the return from within it. -/
structure PullExit where
  state : LruState
  it : Option ℕ
  moveToLru : UInt8
  removed : ℕ
  retIt : Option (ℕ × ℕ)
  blocked : Bool

inductive PullStep where
  | next (s : LruState) (removed : ℕ)
  | done (e : PullExit)

/-- `search->nbytes == 0 && search->nkey == 0 && search->it_flags == 1` -/
def isCrawler (s : LruState) (a : ℕ) : Bool :=
  decide ((s.hdr a).nbytes = 0 ∧ (s.assoc.key a).length = 0 ∧ (s.hdr a).flags = .one)

def expired (cfg : LruSettings) (h : ItemHeader) : Bool :=
  decide (h.exptime ≠ 0 ∧ h.exptime < cfg.currentTime) || cfg.itemIsFlushed h

def refcountIncr (s : LruState) (it : ℕ) : LruState := s.modify it fun h => { h with refcount := h.refcount + 1 }

def refcountDecr (s : LruState) (it : ℕ) : LruState := s.modify it fun h => { h with refcount := h.refcount - 1 }

/-- `search->it_flags &= ~ITEM_ACTIVE` -/
def clearActive (s : LruState) (it : ℕ) : LruState :=
  s.modify it fun h => { h with flags := { h.flags with active := false } }

/-- `limit`: the case of HOT_LRU falls through, and takes the limit of WARM_LRU if its own is zero. -/
def pullLimit (cfg : LruSettings) (p : PullTail) : UInt64 :=
  let limit := if p.curLru = .hot then p.totalBytes * cfg.hotLruPct / 100 else 0
  if limit = 0 then p.totalBytes * cfg.warmLruPct / 100 else limit

/-- The body of the loop of `lru_pull_tail`, with the item locked and `refcount_incr` done -/
def pullItem (cfg : LruSettings) (p : PullTail) (fuel search hv removed : ℕ) (s : LruState) : Option PullStep :=
  let stop (s : LruState) (removed : ℕ) : PullStep := .done ⟨s, some search, 0, removed, none, false⟩
  let move (s : LruState) (lru : LruId) : PullStep :=
    .done ⟨s.itemUnlinkQ search, some search, lruBits lru, removed + 1, none, false⟩
  if (s.hdr search).refcount ≠ 2 ∧ cfg.tailRepairTime ≠ 0 ∧
      (s.hdr search).time + cfg.tailRepairTime < cfg.currentTime then
    let s := s.modify search fun h => { h with refcount := 1 }
    match s.doItemUnlinkNolock fuel search hv with
    | none => none
    | some s => some (.next s removed)
  else if expired cfg (s.hdr search) then
    match s.doItemUnlinkNolock fuel search hv with
    | none => none
    | some s => some (.next (s.doItemRemove search) (removed + 1))
  else
    match p.curLru with
    | .hot | .warm =>
      -- rescue ACTIVE items aggressively
      if (s.hdr search).flags.active then
        let s := s.clearActive search
        if p.curLru = .warm then
          some (.next (((s.itemUnlinkQ search).itemLinkQ search).doItemRemove search) (removed + 1))
        else some (move s .warm)
      else if pullLimit cfg p < s.q.sizesBytes p.id ∨ p.maxAge < cfg.currentTime - (s.hdr search).time then
        some (move s .cold)
      else some (stop s removed)
    | .cold =>
      if p.evict then
        if cfg.evictToFree then
          match s.doItemUnlinkNolock fuel search hv with
          | none => none
          | some s => some (stop s (removed + 1))
        else some (stop s removed)
      else if p.returnItem then some (.done ⟨s, some search, 0, removed, some (search, hv), false⟩)
      else if (s.hdr search).flags.active = true ∧ cfg.lruSegmented = true then
        some (move (s.clearActive search) .warm)
      else some (stop s removed)
    | .temp => some (stop s removed)

/-- The loop of `lru_pull_tail` -/
def pullLoop (hash : Bytes → ℕ) (cfg : LruSettings) (p : PullTail) (fuel : ℕ) :
    ℕ → ℕ → Option ℕ → ℕ → LruState → Option PullExit
  | _, 0, _, removed, s => some ⟨s, none, 0, removed, none, false⟩
  | _, _ + 1, none, removed, s => some ⟨s, none, 0, removed, none, false⟩
  | 0, _ + 1, some _, _, _ => none
  | steps + 1, tries + 1, some search, removed, s =>
    -- we might relink search mid-loop, so search->prev isn't reliable
    let nextIt := s.q.prev search
    if s.isCrawler search then
      if p.crawlBlocks then some ⟨s, none, 0, 0, none, true⟩
      else pullLoop hash cfg p fuel steps (tries + 1) nextIt removed s
    else
      let hv := hash (s.assoc.key search)
      if p.trylock (tries + 1) hv then
        match (s.refcountIncr search).pullItem cfg p fuel search hv removed with
        | none => none
        | some (.next s removed) => pullLoop hash cfg p fuel steps tries nextIt removed s
        | some (.done e) => some e
      else pullLoop hash cfg p fuel steps tries nextIt removed s

/-- `lru_pull_tail` behind its loop -/
def pullFinish (p : PullTail) (e : PullExit) : LruState :=
  match e.blocked, e.it with
  | true, _ => e.state
  | false, none => e.state
  | false, some it =>
    let s := if e.moveToLru = 0 then e.state else (e.state.setLru it e.moveToLru).itemLinkQ it
    if p.returnItem then s else s.doItemRemove it

/-- `lru_pull_tail`: what it returns, the item it may hand out, and the state -/
def lruPullTail (hash : Bytes → ℕ) (cfg : LruSettings) (fuel : ℕ) (p : PullTail) (s : LruState) :
    Option (ℕ × Option (ℕ × ℕ) × LruState) :=
  if p.origId = 0 then some (0, none, s)
  else
    match pullLoop hash cfg p fuel fuel 5 (s.q.tails p.id) 0 s with
    | none => none
    | some e => some (e.removed, e.retIt, pullFinish p e)

/-! ### The crawler -/

def lruCrawlerClassDone (i : UInt8) (s : LruState) : LruState :=
  let s := s.modify (crawlerAt i) fun h => { h with flags := .zero }
  { s with q := s.q.doItemUnlinktailQ (crawlerAt i) }

/-- `do_lru_crawler_start`; `LRU_CRAWLER_CAP_REMAINING` is `-1`. -/
def doLruCrawlerStart (sid : UInt8) (remaining : UInt32) (s : LruState) : LruState :=
  let it := crawlerAt sid
  if (s.hdr it).flags = .zero then
    let remaining := if remaining = 0xFFFFFFFF then s.q.sizes sid else remaining
    let s := s.rewrite it ⟨{ s.hdr it with nbytes := 0, flags := .one, time := 0 }, [], s.assoc.hNext it,
      none, none, sid⟩
    { s with
      q := s.q.doItemLinktailQ it
      remaining := update s.remaining sid (if remaining ≠ 0 then remaining + 1 else remaining) }
  else s

/-- `crawler_expired_eval` and `crawler_metadump_eval`, as far as items are concerned -/
def crawlerEval (cfg : LruSettings) (metadump : Bool) (fuel search hv : ℕ) (s : LruState) : Option LruState :=
  if metadump = false ∧ expired cfg (s.hdr search) = true then
    match s.doItemUnlinkNolock fuel search hv with
    | none => none
    | some s => some (s.doItemRemove search)
  else some (s.refcountDecr search)

/-- `crawlers[i].remaining && --crawlers[i].remaining < 1` -/
def countDown (i : UInt8) (s : LruState) : Bool × LruState :=
  let remaining := s.remaining i
  if remaining = 0 then (false, s)
  else (decide (remaining - 1 < 1), { s with remaining := update s.remaining i (remaining - 1) })

/-- `item_crawler_thread`, when there is an item in front of the crawler -/
def crawlItem (hash : Bytes → ℕ) (cfg : LruSettings) (fuel : ℕ) (i : UInt8) (metadump : Bool)
    (trylock : ℕ → Bool)
    (search : ℕ) (s : LruState) : Option LruState :=
  let (last, s) := s.countDown i
  if last then some (s.lruCrawlerClassDone i)
  else
    let hv := hash (s.assoc.key search)
    if trylock hv then
      let s := s.refcountIncr search
      if (s.hdr search).refcount ≠ 2 then some (s.refcountDecr search)
      else s.crawlerEval cfg metadump fuel search hv
    else some s

/-- `item_crawler_thread`, one round for the list `i` -/
def crawlStep (hash : Bytes → ℕ) (cfg : LruSettings) (fuel : ℕ) (i : UInt8) (metadump : Bool)
    (trylock : ℕ → Bool)
    (s : LruState) : Option LruState :=
  if (s.hdr (crawlerAt i)).flags ≠ .one then some s
  else
    let (search, q) := s.q.doItemCrawlQ (crawlerAt i)
    let s := { s with q := q }
    match search with
    | none => some (s.lruCrawlerClassDone i)
    | some search => s.crawlItem hash cfg fuel i metadump trylock search

end LruState

open LruState

/-! ### Runs -/

inductive LruEvent where
  /-- the memory of an item that is not linked is written: it is allocated, filled, freed -/
  | rewrite (it : ℕ) (w : Fields)
  /-- an item is used: its references, times and other flags change -/
  | use (it : ℕ) (h : ItemHeader)
  | link (it : ℕ)
  | unlink (it : ℕ)
  | unlinkNolock (it : ℕ)
  | replace (it newIt : ℕ)
  | update (it : ℕ)
  | pullTail (p : PullTail)
  | crawlerStart (sid : UInt8) (remaining : UInt32)
  | crawl (i : UInt8) (metadump : Bool) (trylock : ℕ → Bool)
  /-- the client of a crawler is gone -/
  | crawlerDone (i : UInt8)
  /-- the maintenance thread of the hash table -/
  | expand (calloc : Bool)
  | migrate

/-- One event, with the settings and the time at which it happens -/
def lruStep (hash : Bytes → ℕ) (fuel : ℕ) (s : LruState) : LruSettings × LruEvent → Option LruState
  | (_, .rewrite it w) => some (s.rewrite it w)
  | (_, .use it h) => some (s.modify it fun _ => h)
  | (cfg, .link it) => some (s.doItemLink cfg it (hash (s.assoc.key it)))
  | (_, .unlink it) => s.doItemUnlink fuel it (hash (s.assoc.key it))
  | (_, .unlinkNolock it) => s.doItemUnlinkNolock fuel it (hash (s.assoc.key it))
  | (cfg, .replace it newIt) => s.doItemReplace cfg fuel it newIt (hash (s.assoc.key it))
  | (cfg, .update it) => some (s.doItemUpdate cfg it)
  | (cfg, .pullTail p) => (s.lruPullTail hash cfg fuel p).map fun r => r.2.2
  | (_, .crawlerStart sid remaining) => some (s.doLruCrawlerStart sid remaining)
  | (cfg, .crawl i metadump trylock) => s.crawlStep hash cfg fuel i metadump trylock
  | (_, .crawlerDone i) =>
    some (if (s.hdr (crawlerAt i)).flags = .one then s.lruCrawlerClassDone i else s)
  | (_, .expand calloc) => (s.assoc.assocStep hash fuel (.expand calloc)).map fun assoc => { s with assoc := assoc }
  | (_, .migrate) => (s.assoc.assocStep hash fuel .migrate).map fun assoc => { s with assoc := assoc }

def Linkable (s : LruState) (it : ℕ) : Prop :=
  IsItem it ∧ (s.hdr it).flags.linked = false ∧ (s.hdr it).nbytes ≠ 0

/-- The steps that are allowed. Only memory that is not linked is written; a linked item keeps its size and a
reference; an item is linked if no other is under its key, which is the precondition of `assoc_insert` (`mg` with
`N` breaks it for an item above `IT_REFCOUNT_LIMIT`), and replaced by one of the same key. Tail repair is disabled.
-/
def LruEvent.Allowed (s : LruState) : LruSettings × LruEvent → Prop
  | (_, .rewrite it w) => IsItem it ∧ (s.hdr it).flags.linked = false ∧ w.hdr.flags.linked = false
  | (_, .use it h) => IsItem it ∧ (s.hdr it).SameKind h ∧ h.refcount ≠ 0
  | (_, .link it) => Linkable s it ∧
      ∀ b, IsItem b → (s.hdr b).flags.linked = true → s.assoc.key b ≠ s.assoc.key it
  | (_, .replace it newIt) => IsItem it ∧ Linkable s newIt ∧ s.assoc.key newIt = s.assoc.key it ∧
      ∀ b, IsItem b → (s.hdr b).flags.linked = true → s.assoc.key b = s.assoc.key it → b = it
  | (_, .unlink it) | (_, .unlinkNolock it) | (_, .update it) => IsItem it
  | (cfg, .pullTail _) => cfg.tailRepairTime = 0
  | (_, .expand _) => s.assoc.hashpower < 31
  | _ => True

def LruAllowedRun (hash : Bytes → ℕ) (fuel : ℕ) : LruState → List (LruSettings × LruEvent) → Prop
  | _, [] => True
  | s, e :: es => LruEvent.Allowed s e ∧ ∀ s', lruStep hash fuel s e = some s' → LruAllowedRun hash fuel s' es

/-! ### One item of the walk -/

namespace LruState

variable {hash : Bytes → ℕ} {s s' : LruState} {lists lists' : UInt8 → List ℕ} {linked : Finset ℕ}
  {out : Option ℕ}
  {it fuel : ℕ} {id : UInt8} {l r : List ℕ} {cfg : LruSettings} {p : PullTail}

/-- Behind the loop the item found is referenced, and is off the lists if it is to move. -/
def PullExit.Ok (hash : Bytes → ℕ) (linked : Finset ℕ) (e : PullExit) : Prop :=
  ∃ lists linked', linked' ⊆ linked ∧
    Inv hash e.state lists linked' (if e.moveToLru = 0 then none else e.it) ∧
    (e.blocked = true → e.it = none) ∧
    ∀ it, e.it = some it → IsItem it ∧ (e.moveToLru ≠ 0 → it ∈ linked') ∧
      (it ∈ linked' → 2 ≤ (e.state.hdr it).refcount)

/-- In front of the items `l` that come next, the list may have gained the one just seen. -/
def PullStep.Ok (hash : Bytes → ℕ) (id : UInt8) (l : List ℕ) (linked : Finset ℕ) : PullStep → Prop
  | .next s _ => ∃ lists linked' m r, linked' ⊆ linked ∧ Inv hash s lists linked' none ∧
      lists id = m ++ l ++ r ∧
      m.length ≤ 1
  | .done e => e.Ok hash linked

theorem PullExit.Ok.mono {linked' : Finset ℕ} {e : PullExit} (h : e.Ok hash linked') (hsub : linked' ⊆ linked) :
    e.Ok hash linked := by
  obtain ⟨lists, linked₁, hsub₁, hrest⟩ := h
  exact ⟨lists, linked₁, hsub₁.trans hsub, hrest⟩

theorem Inv.stop (h : Inv hash s lists linked none) (hitem : IsItem it)
    (href : it ∈ linked → 2 ≤ (s.hdr it).refcount)
    (removed : ℕ) (retIt : Option (ℕ × ℕ)) :
    PullExit.Ok hash linked ⟨s, some it, 0, removed, retIt, false⟩ := by
  refine ⟨lists, linked, subset_rfl, by rwa [if_pos rfl], nofun, ?_⟩
  intro a ha
  obtain rfl := Option.some.inj ha
  exact ⟨hitem, fun hne => absurd rfl hne, href⟩

theorem Inv.moveOff (h : Inv hash s lists linked none) (hit : it ∈ linked) (href : 2 ≤ (s.hdr it).refcount)
    (hlist : lists id = l ++ it :: r) {lru : UInt8} (hlru : lru ≠ 0) (removed : ℕ) :
    PullExit.Ok hash linked ⟨s.itemUnlinkQ it, some it, lru, removed, none, false⟩ := by
  refine ⟨update lists id (l ++ r), linked, subset_rfl, ?_, nofun, ?_⟩
  · rw [if_neg hlru]
    exact h.takeOff (h.isItem it hit) hlist
  · intro a ha
    obtain rfl := Option.some.inj ha
    exact ⟨h.isItem _ hit, fun _ => hit, fun _ => href⟩

theorem Inv.clearActive (h : Inv hash s lists linked out) (hitem : IsItem it) :
    Inv hash (s.clearActive it) lists linked out :=
  h.modify hitem ⟨rfl, rfl, rfl, rfl⟩ (h.refcount it)

/-- **One item of the walk.** -/
theorem Inv.pullItem (h : Inv hash s lists linked none) (hfuel : linked.card ≤ fuel)
    (hrepair : cfg.tailRepairTime = 0)
    (hit : it ∈ linked) (href : 2 ≤ (s.hdr it).refcount) (hlist : lists id = l ++ it :: r) (removed : ℕ) :
    ∃ step, s.pullItem cfg p fuel it (hash (s.assoc.key it)) removed = some step ∧ step.Ok hash id l linked := by
  have hitem := h.isItem it hit
  obtain ⟨s₁, hunlink, hinv₁⟩ := h.doItemUnlinkNolock hfuel hit hlist
  have hgone : it ∉ linked.erase it := Finset.notMem_erase it linked
  have hactive := h.clearActive hitem
  have hactref : ((s.clearActive it).hdr it).refcount = (s.hdr it).refcount := by
    rw [LruState.clearActive, modify_hdr_self]
  rw [LruState.pullItem, if_neg (fun hand => hand.2.1 hrepair)]
  split
  · -- expired or flushed
    rw [hunlink]
    refine ⟨_, rfl, _, linked.erase it, [], r, Finset.erase_subset _ _,
      hinv₁.doItemRemove hitem fun hmem => absurd hmem hgone, ?_, Nat.zero_le _⟩
    rw [update_self, nil_append]
  · cases p.curLru with
    | hot =>
      dsimp only
      split
      · rw [if_neg nofun]
        exact ⟨_, rfl, hactive.moveOff hit (hactref.ge.trans' href) hlist (by decide) _⟩
      · split
        · exact ⟨_, rfl, h.moveOff hit href hlist (by decide) _⟩
        · exact ⟨_, rfl, h.stop hitem (fun _ => href) _ _⟩
    | warm =>
      dsimp only
      split
      · rw [if_pos rfl]
        -- the item goes to the front of the list it is on
        have hback := (hactive.takeOff hitem hlist).putBack hit
        refine ⟨_, rfl, _, linked, [it], r, subset_rfl, hback.doItemRemove hitem fun _ => ?_, ?_, le_rfl⟩
        · show ((s.clearActive it).hdr it).refcount - 1 ≠ 0
          omega
        · show update _ (s.q.slabsClsid it) _ id = _
          rw [h.holds.clsid_eq hlist, update_self]
          show it :: update lists id (l ++ r) (s.q.slabsClsid it) = _
          rw [h.holds.clsid_eq hlist, update_self]
          rfl
      · split
        · exact ⟨_, rfl, h.moveOff hit href hlist (by decide) _⟩
        · exact ⟨_, rfl, h.stop hitem (fun _ => href) _ _⟩
    | cold =>
      dsimp only
      split
      · split
        · rw [hunlink]
          exact ⟨_, rfl, (hinv₁.stop hitem (fun hmem => absurd hmem hgone) _ _).mono (Finset.erase_subset _ _)⟩
        · exact ⟨_, rfl, h.stop hitem (fun _ => href) _ _⟩
      · split
        · exact ⟨_, rfl, h.stop hitem (fun _ => href) _ _⟩
        · split
          · exact ⟨_, rfl, hactive.moveOff hit (hactref.ge.trans' href) hlist (by decide) _⟩
          · exact ⟨_, rfl, h.stop hitem (fun _ => href) _ _⟩
    | temp => exact ⟨_, rfl, h.stop hitem (fun _ => href) _ _⟩

/-! ### The walk -/

variable {a : ℕ} {i : UInt8}

/-- A node of a list is a linked item or the crawler of the list. -/
theorem Inv.mem_list (h : Inv hash s lists linked none) (ha : a ∈ lists id) :
    a ∈ linked ∨ a = crawlerAt id ∧ (s.hdr a).flags = .one ∧ (s.hdr a).nbytes = 0 ∧ s.assoc.key a = [] := by
  by_cases hitem : IsItem a
  · rw [← h.holds.clsid id a ha] at ha
    exact .inl ((h.on_list a hitem).mp ha).1
  · have hlt : a < 256 := Nat.not_le.mp hitem
    have hat : crawlerAt (UInt8.ofNat a) = a := UInt8.toNat_ofNat_of_lt' hlt
    rcases h.crawlers (UInt8.ofNat a) with ⟨hmem, hon⟩ | ⟨hoff, -⟩
    · rw [hat] at hmem hon
      have hid : id = UInt8.ofNat a := (h.holds.clsid id a ha).symm.trans (h.holds.clsid _ a hmem)
      exact .inr ⟨hid ▸ hat.symm, hon⟩
    · rw [hat] at hoff
      exact absurd ha (hoff id)

theorem Inv.isCrawler_iff (h : Inv hash s lists linked none) (ha : a ∈ lists id) :
    s.isCrawler a = true ↔ a ∉ linked := by
  rw [isCrawler, decide_eq_true_iff]
  constructor
  · rintro ⟨hzero, -⟩ hmem
    exact h.nbytes a hmem hzero
  · intro hnot
    obtain ⟨-, hflags, hzero, hkey⟩ := (h.mem_list ha).resolve_left hnot
    exact ⟨hzero, by rw [hkey]; rfl, hflags⟩

theorem Inv.prev_eq (h : Inv hash s lists linked none) (hlist : lists id = l ++ a :: r) : s.q.prev a = l.getLast? := by
  have hdll := h.holds.dll id
  rw [hlist] at hdll
  exact hdll.links.1

theorem Inv.refcountIncr (h : Inv hash s lists linked out) (hitem : IsItem it) :
    Inv hash (s.refcountIncr it) lists linked out :=
  h.modify hitem ⟨rfl, rfl, rfl, rfl⟩ fun _ => Nat.succ_ne_zero _

/-- **The loop of `lru_pull_tail`.**  With each round a try is used up, or a crawler is passed; the induction is on the
bound. -/
theorem Inv.pullLoop {steps tries removed : ℕ} {search : Option ℕ} (h : Inv hash s lists linked none)
    (hfuel : linked.card ≤ fuel) (hrepair : cfg.tailRepairTime = 0)
    (hsearch : ∀ a, search = some a → ∃ l r, lists p.id = l ++ a :: r ∧ l.length + tries < steps) :
    ∃ e, pullLoop hash cfg p fuel steps tries search removed s = some e ∧ e.Ok hash linked := by
  have hend : PullExit.Ok hash linked ⟨s, none, 0, removed, none, false⟩ :=
    ⟨lists, linked, subset_rfl, h, fun _ => rfl, nofun⟩
  induction steps generalizing s lists linked tries search removed with
  | zero =>
    cases tries with
    | zero => exact ⟨_, rfl, hend⟩
    | succ tries =>
      cases search with
      | none => exact ⟨_, rfl, hend⟩
      | some a =>
        obtain ⟨l, r, -, hlt⟩ := hsearch a rfl
        exact absurd hlt (Nat.not_lt_zero _)
  | succ steps ih =>
    cases tries with
    | zero => exact ⟨_, rfl, hend⟩
    | succ tries =>
      cases search with
      | none => exact ⟨_, rfl, hend⟩
      | some a =>
        obtain ⟨l, r, hlist, hlt⟩ := hsearch a rfl
        have hmem : a ∈ lists p.id := by rw [hlist]; exact mem_append_right _ mem_cons_self
        -- where the walk goes on, in a list that still holds what comes before the node
        have hnext : ∀ {lists' : UInt8 → List ℕ} {m r' : List ℕ} {tries' : ℕ}, lists' p.id = m ++ l ++ r' →
            m.length + tries' ≤ tries + 1 → ∀ b, s.q.prev a = some b →
              ∃ l' r, lists' p.id = l' ++ b :: r ∧ l'.length + tries' < steps := by
          intro lists' m r' tries' hlist' hle b hb
          rw [h.prev_eq hlist] at hb
          obtain ⟨l', rfl⟩ := getLast?_eq_some_iff.mp hb
          refine ⟨m ++ l', r', by rw [hlist']; simp, ?_⟩
          simp only [length_append, length_cons, length_nil] at hlt ⊢
          omega
        rw [LruState.pullLoop]
        by_cases hcrawler : s.isCrawler a = true
        · rw [if_pos hcrawler]
          split
          · exact ⟨_, rfl, lists, linked, subset_rfl, h, fun _ => rfl, nofun⟩
          · exact ih h hfuel (hnext (m := []) hlist (by simp)) ⟨lists, linked, subset_rfl, h, fun _ => rfl, nofun⟩
        · rw [if_neg hcrawler]
          have hlinked : a ∈ linked := by
            by_contra hnot
            exact hcrawler ((h.isCrawler_iff hmem).mpr hnot)
          have hitem := h.isItem a hlinked
          dsimp only
          split
          · have hinc := h.refcountIncr hitem
            have href : 2 ≤ ((s.refcountIncr a).hdr a).refcount := by
              rw [LruState.refcountIncr, modify_hdr_self]
              have hpos := h.refcount a hlinked
              show 2 ≤ (s.hdr a).refcount + 1
              omega
            obtain ⟨step, hstep, hok⟩ := hinc.pullItem (p := p) hfuel hrepair hlinked href hlist removed
            have hstep' : (s.refcountIncr a).pullItem cfg p fuel a (hash (s.assoc.key a)) removed = some step := hstep
            rw [hstep']
            cases step with
            | next s' removed' =>
              obtain ⟨lists', linked', m, r', hsub, hinv, hlist', hm⟩ := hok
              have hcard := (Finset.card_le_card hsub).trans hfuel
              obtain ⟨e, he, hoke⟩ := ih hinv hcard (hnext hlist' (show m.length + tries ≤ tries + 1 by omega))
                ⟨lists', linked', subset_rfl, hinv, fun _ => rfl, nofun⟩
              exact ⟨e, he, hoke.mono hsub⟩
            | done e => exact ⟨e, rfl, hok⟩
          · exact ih h hfuel (hnext (m := []) hlist (by simp)) ⟨lists, linked, subset_rfl, h, fun _ => rfl, nofun⟩

/-- **Behind the loop.** -/
theorem PullExit.Ok.finish {e : PullExit} (h : e.Ok hash linked) :
    ∃ lists linked', linked' ⊆ linked ∧ Inv hash (pullFinish p e) lists linked' none := by
  obtain ⟨lists, linked', hsub, hinv, hblocked, hit⟩ := h
  obtain ⟨state, it, moveToLru, removed, retIt, blocked⟩ := e
  cases it with
  | none =>
    refine ⟨lists, linked', hsub, ?_⟩
    rw [ite_self] at hinv
    cases blocked with
    | true => exact hinv
    | false => exact hinv
  | some it =>
    cases blocked with
    | true => exact absurd (hblocked rfl) (Option.some_ne_none it)
    | false =>
      obtain ⟨hitem, hmove, href⟩ := hit it rfl
      -- the item is put on the list it moves to, if it moves
      obtain ⟨lists', hback⟩ : ∃ lists', Inv hash
          (if moveToLru = 0 then state else (state.setLru it moveToLru).itemLinkQ it) lists' linked' none := by
        by_cases hzero : moveToLru = 0
        · rw [if_pos hzero]
          exact ⟨lists, by simpa only [hzero, if_true] using hinv⟩
        · rw [if_neg hzero]
          simp only [if_neg hzero] at hinv
          exact ⟨_, (hinv.setLru hitem moveToLru).putBack (hmove hzero)⟩
      have hsame : ((if moveToLru = 0 then state else (state.setLru it moveToLru).itemLinkQ it).hdr it).refcount =
          (state.hdr it).refcount := by
        split
        · rfl
        · rfl
      refine ⟨lists', linked', hsub, ?_⟩
      rw [pullFinish]
      dsimp only
      split
      · exact hback
      · refine hback.doItemRemove hitem fun hmem => ?_
        rw [hsame]
        have hle := href hmem
        dsimp only at hle
        omega

theorem Inv.length_le (h : Inv hash s lists linked none) (id : UInt8) : (lists id).length ≤ linked.card + 1 := by
  have hsub : lists id ⊆ crawlerAt id :: linked.toList := by
    intro a ha
    rcases h.mem_list ha with hmem | ⟨rfl, -⟩
    · exact mem_cons_of_mem _ (Finset.mem_toList.mpr hmem)
    · exact mem_cons_self
  have hlen := (subperm_of_subset (h.holds.nodup id) hsub).length_le
  rwa [length_cons, Finset.length_toList] at hlen

/-- **`lru_pull_tail`** -/
theorem Inv.lruPullTail (h : Inv hash s lists linked none) (hfuel : linked.card + 6 ≤ fuel)
    (hrepair : cfg.tailRepairTime = 0) (p : PullTail) :
    ∃ res lists' linked', s.lruPullTail hash cfg fuel p = some res ∧ linked' ⊆ linked ∧
      Inv hash res.2.2 lists' linked' none := by
  rw [LruState.lruPullTail]
  split
  · exact ⟨_, lists, linked, rfl, subset_rfl, h⟩
  · have hsearch : ∀ a, s.q.tails p.id = some a → ∃ l r, lists p.id = l ++ a :: r ∧ l.length + 5 < fuel := by
      intro a ha
      rw [(h.holds.dll p.id).tail_eq] at ha
      obtain ⟨l, hl⟩ := getLast?_eq_some_iff.mp ha
      have hlen := h.length_le p.id
      rw [hl, length_append, length_cons, length_nil] at hlen
      exact ⟨l, [], hl, by omega⟩
    have hcard : linked.card ≤ fuel := by omega
    obtain ⟨e, he, hok⟩ : ∃ e, LruState.pullLoop hash cfg p fuel fuel 5 (s.q.tails p.id) 0 s = some e ∧
        e.Ok hash linked := h.pullLoop hcard hrepair hsearch
    rw [he]
    obtain ⟨lists', linked', hsub, hinv⟩ := hok.finish (p := p)
    exact ⟨_, lists', linked', rfl, hsub, hinv⟩

/-! ### Crawlers -/

/-- **What a crawler does**: it leaves the fields of items, the counters and the places of items alone. -/
theorem Inv.crawler (h : Inv hash s lists linked none)
    (hfields : ∀ a, IsItem a → s'.hdr a = s.hdr a ∧ s'.assoc.key a = s.assoc.key a ∧
      s'.q.slabsClsid a = s.q.slabsClsid a)
    (hholds : s'.q.Holds s.ntotal lists') (hmem : ∀ a, IsItem a → ∀ id, a ∈ lists' id ↔ a ∈ lists id)
    (hcrawlers : s'.Crawlers lists') (htable : TableOf hash s'.assoc linked) (hitems : s'.currItems = s.currItems)
    (hbytes : s'.currBytes = s.currBytes) : Inv hash s' lists' linked none := by
  have hn : ∀ a, IsItem a → s'.ntotal a = s.ntotal a := fun a ha => by
    rw [ntotal, ntotal, (hfields a ha).1, (hfields a ha).2.1]
  refine ⟨hholds.congr_ntotal fun _ a _ ha => hn a ha, fun a ha => ?_, h.isItem, fun a ha => ?_, hcrawlers, htable,
    fun a ha => ?_, fun a ha => ?_, hitems.trans h.currItems, ?_⟩
  · rw [(hfields a ha).1]
    exact h.flag a ha
  · rw [hmem a ha, (hfields a ha).2.2]
    exact h.on_list a ha
  · rw [(hfields a (h.isItem a ha)).1]
    exact h.nbytes a ha
  · rw [(hfields a (h.isItem a ha)).1]
    exact h.refcount a ha
  · rw [hbytes, h.currBytes, Finset.sum_congr rfl fun a ha => hn a (h.isItem a ha)]

theorem Crawlers.update (h : s.Crawlers lists)
    (hother : ∀ a, a ≠ crawlerAt i → s'.hdr a = s.hdr a ∧ s'.assoc.key a = s.assoc.key a)
    (hl : ∀ a, a ≠ crawlerAt i → (a ∈ l ↔ a ∈ lists i))
    (hi : (crawlerAt i ∈ update lists i l i ∧ (s'.hdr (crawlerAt i)).flags = .one ∧
        (s'.hdr (crawlerAt i)).nbytes = 0 ∧ s'.assoc.key (crawlerAt i) = []) ∨
      ((∀ id, crawlerAt i ∉ update lists i l id) ∧ (s'.hdr (crawlerAt i)).flags = .zero)) :
    s'.Crawlers (update lists i l) := by
  intro j
  by_cases hj : j = i
  · rw [hj]
    exact hi
  · have hne : crawlerAt j ≠ crawlerAt i := fun heq => hj (UInt8.toNat_inj.mp heq)
    simp only [mem_update_iff (hl _ hne), (hother _ hne).1, (hother _ hne).2]
    exact h j

theorem Inv.crawler_not_mem (h : Inv hash s lists linked none) {j : UInt8} (hj : j ≠ i) :
    crawlerAt i ∉ lists j := by
  intro hmem
  rcases h.mem_list hmem with hlinked | ⟨heq, -⟩
  · exact not_isItem_crawlerAt i (h.isItem _ hlinked)
  · exact hj (UInt8.toNat_inj.mp heq).symm

/-- **The crawler leaves its list**: the one of a state `q` that holds the lists without it. -/
theorem Inv.crawlerOff (h : Inv hash s lists linked none) {q : LruLists}
    (hq : q.Holds s.ntotal (update lists i l)) (hclsid : q.slabsClsid = s.q.slabsClsid)
    (hl : ∀ a, a ≠ crawlerAt i → (a ∈ l ↔ a ∈ lists i)) (hi : crawlerAt i ∉ l)
    (remaining : UInt8 → UInt32) :
    Inv hash { s.modify (crawlerAt i) fun h => { h with flags := .zero } with q := q, remaining := remaining }
      (update lists i l) linked none := by
  refine h.crawler (fun a ha => ⟨?_, rfl, congrFun hclsid a⟩) hq (fun a ha => mem_update_iff (hl a ?_))
    ?_ h.table rfl rfl
  · exact update_of_ne (ne_of_isItem ha (not_isItem_crawlerAt i)).symm _ _
  · exact (ne_of_isItem ha (not_isItem_crawlerAt i)).symm
  · refine h.crawlers.update (fun a ha => ⟨update_of_ne ha _ _, rfl⟩) hl (.inr ⟨fun j => ?_, ?_⟩)
    · by_cases hj : j = i
      · rwa [hj, update_self]
      · rw [update_of_ne hj]
        exact h.crawler_not_mem hj
    · simp only [modify_hdr_self]

theorem Inv.crawler_place (h : Inv hash s lists linked none) (hflags : (s.hdr (crawlerAt i)).flags = .one) :
    ∃ l r, lists i = l ++ crawlerAt i :: r := by
  rcases h.crawlers i with ⟨hmem, -⟩ | ⟨-, hzero⟩
  · exact append_of_mem hmem
  · rw [hflags] at hzero
    exact absurd hzero (by decide)

theorem not_mem_of_nodup_middle (h : (l ++ a :: r).Nodup) : a ∉ l ++ r :=
  (nodup_cons.mp (perm_middle.nodup_iff.mp h)).1

theorem mem_middle_iff {b : ℕ} (hb : b ≠ a) : b ∈ l ++ r ↔ b ∈ l ++ a :: r := by
  rw [mem_append, mem_append, mem_cons]
  tauto

/-- **`lru_crawler_class_done`** -/
theorem Inv.lruCrawlerClassDone (h : Inv hash s lists linked none)
    (hlist : lists i = l ++ crawlerAt i :: r) :
    Inv hash (s.lruCrawlerClassDone i) (update lists i (l ++ r)) linked none := by
  have hnodup := h.holds.nodup i
  rw [hlist] at hnodup
  refine h.crawlerOff (h.holds.unlinktailQ (not_isItem_crawlerAt i) hlist) rfl (fun a ha => ?_)
    (not_mem_of_nodup_middle hnodup) s.remaining
  rw [hlist]
  exact mem_middle_iff ha

/-- **`do_lru_crawler_start`** -/
theorem Inv.doLruCrawlerStart (h : Inv hash s lists linked none) (sid : UInt8) (remaining : UInt32) :
    ∃ lists', Inv hash (s.doLruCrawlerStart sid remaining) lists' linked none := by
  rw [LruState.doLruCrawlerStart]
  dsimp only
  split
  · rename_i hzero
    have hoff : ∀ id, crawlerAt sid ∉ lists id := by
      rcases h.crawlers sid with ⟨-, hone, -⟩ | ⟨hoff, -⟩
      · rw [hone] at hzero
        exact absurd hzero (by decide)
      · exact hoff
    have hnot := not_isItem_crawlerAt sid
    have hout : crawlerAt sid ∉ linked := fun hmem => hnot (h.isItem _ hmem)
    -- the fields of the crawler are written
    generalize hw : (⟨{ s.hdr (crawlerAt sid) with nbytes := 0, flags := .one, time := 0 }, [],
      s.assoc.hNext (crawlerAt sid), none, none, sid⟩ : Fields) = w
    have hne : ∀ id, ∀ a ∈ lists id, a ≠ crawlerAt sid := fun id a ha => ne_of_mem_of_not_mem ha (hoff id)
    have hq : (s.rewrite (crawlerAt sid) w).q.Holds s.ntotal lists := by
      refine ⟨fun id => ?_, h.holds.nodup, fun id a ha => ?_, h.holds.sizes, h.holds.sizesBytes⟩
      · exact (h.holds.dll id).frame (fun a ha => update_of_ne (hne id a ha) _ _)
          fun a ha => update_of_ne (hne id a ha) _ _
      · exact (update_of_ne (hne id a ha) _ _).trans (h.holds.clsid id a ha)
    have hclsid : (s.rewrite (crawlerAt sid) w).q.slabsClsid (crawlerAt sid) = sid := by
      rw [← hw]
      exact update_self _ _ _
    have hlink := hq.linktailQ hnot (hoff _)
    rw [hclsid] at hlink
    have hmem : ∀ a, a ≠ crawlerAt sid → (a ∈ lists sid ++ [crawlerAt sid] ↔ a ∈ lists sid) :=
      fun a ha => by
      rw [mem_append, mem_singleton]
      exact ⟨fun hor => hor.resolve_right ha, .inl⟩
    refine ⟨_, h.crawler (fun a ha => ?_) hlink (fun a ha => mem_update_iff (hmem a ?_)) ?_
      (h.table.rewrite hout _ _) rfl
      rfl⟩
    · have hna := (ne_of_isItem ha hnot).symm
      exact ⟨update_of_ne hna _ _, update_of_ne hna _ _, update_of_ne hna _ _⟩
    · exact (ne_of_isItem ha hnot).symm
    · refine h.crawlers.update (fun a ha => ⟨update_of_ne ha _ _, update_of_ne ha _ _⟩) hmem (.inl ?_)
      rw [update_self, ← hw]
      simp only [LruState.rewrite, update_self, mem_append, mem_singleton, or_true, and_self]
  · exact ⟨lists, h⟩

theorem doItemCrawlQ_slabsClsid (q : LruLists) (a : ℕ) : (q.doItemCrawlQ a).2.slabsClsid = q.slabsClsid := by
  rw [LruLists.doItemCrawlQ]
  split
  · split
    · rfl
    · rfl
  · rfl

/-- The count of the rounds that remain is no part of the invariant. -/
theorem Inv.countDown (h : Inv hash s lists linked out) (i : UInt8) : Inv hash (s.countDown i).2 lists linked out := by
  rw [LruState.countDown]
  split
  · exact h
  · exact ⟨h.holds, h.flag, h.isItem, h.on_list, h.crawlers, h.table, h.nbytes, h.refcount, h.currItems,
      h.currBytes⟩

theorem Inv.refcountDecr (h : Inv hash s lists linked out) (hitem : IsItem it) (href : 2 ≤ (s.hdr it).refcount) :
    Inv hash (s.refcountDecr it) lists linked out :=
  h.modify hitem ⟨rfl, rfl, rfl, rfl⟩ fun _ => Nat.sub_ne_zero_of_lt href

theorem Inv.crawlQ (h : Inv hash s lists linked none) {before : ℕ}
    (hlist : lists i = l ++ before :: crawlerAt i :: r) :
    before ∈ linked ∧ (s.q.doItemCrawlQ (crawlerAt i)).1 = some before ∧
      Inv hash { s with q := (s.q.doItemCrawlQ (crawlerAt i)).2 }
        (update lists i (l ++ crawlerAt i :: before :: r)) linked none := by
  have hnot := not_isItem_crawlerAt i
  have hnodup := h.holds.nodup i
  rw [hlist] at hnodup
  obtain ⟨hsome, hholds⟩ := h.holds.crawlQ hnot hlist
  have hmem : ∀ a, a ∈ l ++ crawlerAt i :: before :: r ↔ a ∈ lists i := fun a => by
    rw [hlist]
    exact ((List.Perm.swap _ _ _).append_left l).mem_iff
  refine ⟨?_, hsome, ?_⟩
  · refine (h.mem_list (show before ∈ lists i by rw [hlist]; simp)).resolve_right fun heq => ?_
    refine not_mem_of_nodup_middle hnodup (mem_append_right _ ?_)
    rw [heq.1]
    exact mem_cons_self
  · refine h.crawler (fun a _ => ⟨rfl, rfl, congrFun (doItemCrawlQ_slabsClsid _ _) a⟩) hholds
      (fun a _ => mem_update_iff (hmem a)) ?_ h.table rfl rfl
    exact h.crawlers.congr (fun a _ => mem_update_iff (hmem a)) fun a _ => ⟨rfl, rfl⟩

/-- **One item under the crawler.** -/
theorem Inv.crawlerEval (h : Inv hash s lists linked none) (hfuel : linked.card ≤ fuel) (metadump : Bool)
    (hit : it ∈ linked) (href : 2 ≤ (s.hdr it).refcount) :
    ∃ s' lists' linked', s.crawlerEval cfg metadump fuel it (hash (s.assoc.key it)) = some s' ∧
      linked' ⊆ linked ∧
      Inv hash s' lists' linked' none := by
  have hitem := h.isItem it hit
  rw [LruState.crawlerEval]
  split
  · obtain ⟨l, r, hlist⟩ := h.place hit
    obtain ⟨s₁, hunlink, hinv⟩ := h.doItemUnlinkNolock hfuel hit hlist
    rw [hunlink]
    exact ⟨_, _, linked.erase it, rfl, Finset.erase_subset _ _,
      hinv.doItemRemove hitem fun hmem => absurd hmem (Finset.notMem_erase it linked)⟩
  · exact ⟨_, lists, linked, rfl, subset_rfl, h.refcountDecr hitem href⟩

theorem Inv.crawlItem (h : Inv hash s lists linked none) (hfuel : linked.card ≤ fuel) (metadump : Bool)
    (trylock : ℕ → Bool) (hit : it ∈ linked) (hlist : lists i = l ++ crawlerAt i :: r) :
    ∃ s' lists' linked', s.crawlItem hash cfg fuel i metadump trylock it = some s' ∧ linked' ⊆ linked ∧
      Inv hash s' lists' linked' none := by
  have hcount := h.countDown i
  have hitem := h.isItem it hit
  rw [LruState.crawlItem]
  generalize s.countDown i = next at hcount ⊢
  obtain ⟨last, s₁⟩ := next
  dsimp only at hcount ⊢
  have href : 2 ≤ ((s₁.refcountIncr it).hdr it).refcount := by
    rw [LruState.refcountIncr, modify_hdr_self]
    have hpos := hcount.refcount it hit
    show 2 ≤ (s₁.hdr it).refcount + 1
    omega
  have hinc := hcount.refcountIncr hitem
  split
  · exact ⟨_, _, linked, rfl, subset_rfl, hcount.lruCrawlerClassDone hlist⟩
  · split
    · split
      · exact ⟨_, _, linked, rfl, subset_rfl, hinc.refcountDecr hitem href⟩
      · exact hinc.crawlerEval hfuel metadump hit href
    · exact ⟨_, _, linked, rfl, subset_rfl, hcount⟩

/-- **A round of the crawler thread.** -/
theorem Inv.crawlStep (h : Inv hash s lists linked none) (hfuel : linked.card ≤ fuel) (i : UInt8) (metadump : Bool)
    (trylock : ℕ → Bool) :
    ∃ s' lists' linked', s.crawlStep hash cfg fuel i metadump trylock = some s' ∧ linked' ⊆ linked ∧
      Inv hash s' lists' linked' none := by
  rw [LruState.crawlStep]
  split
  · exact ⟨s, lists, linked, rfl, subset_rfl, h⟩
  · rename_i hflags
    obtain ⟨l, r, hlist⟩ := h.crawler_place (not_not.mp hflags)
    have hnodup := h.holds.nodup i
    rw [hlist] at hnodup
    rcases eq_nil_or_concat l with rfl | ⟨l, before, rfl⟩
    · -- the crawler is at the head
      obtain ⟨hnone, hholds⟩ := h.holds.crawlQ_head (not_isItem_crawlerAt i) hlist
      dsimp only
      rw [hnone]
      refine ⟨_, _, linked, rfl, subset_rfl, h.crawlerOff hholds (doItemCrawlQ_slabsClsid _ _) (fun a ha => ?_)
        (nodup_cons.mp hnodup).1 s.remaining⟩
      rw [hlist]
      exact mem_middle_iff (l := []) ha
    · rw [concat_eq_append, append_assoc, singleton_append] at hlist
      obtain ⟨hbefore, hsome, hinv⟩ := h.crawlQ hlist
      dsimp only
      rw [hsome]
      exact hinv.crawlItem hfuel metadump trylock hbefore (update_self _ _ _)

/-! ### Events -/

theorem Inv.setAssoc (h : Inv hash s lists linked none) {assoc : AssocState} (hkey : assoc.key = s.assoc.key)
    (htable : TableOf hash assoc linked) : Inv hash { s with assoc := assoc } lists linked none := by
  have hn : LruState.ntotal { s with assoc := assoc } = s.ntotal := by
    funext a
    rw [ntotal, ntotal, hkey]
  refine ⟨by rw [hn]; exact h.holds, h.flag, h.isItem, h.on_list, ?_, htable, h.nbytes, h.refcount, h.currItems,
    by rw [hn]; exact h.currBytes⟩
  exact h.crawlers.congr (fun _ _ _ => Iff.rfl) fun a _ => ⟨rfl, congrFun hkey a⟩

theorem doItemUnlinkNolock_frame {hv : ℕ} (h : s.doItemUnlinkNolock fuel it hv = some s') :
    s'.assoc.key = s.assoc.key ∧ ∀ a, (s'.hdr a).nbytes = (s.hdr a).nbytes := by
  have hmodify : ∀ (s : LruState) (f : ItemHeader → ItemHeader), (f (s.hdr it)).nbytes = (s.hdr it).nbytes →
      ∀ a, ((s.modify it f).hdr a).nbytes = (s.hdr a).nbytes := by
    intro s f hf a
    by_cases ha : a = it
    · rw [ha, modify_hdr_self, hf]
    · rw [modify_hdr_of_ne s ha]
  have hremove : ∀ s : LruState, (s.doItemRemove it).assoc = s.assoc ∧
      ∀ a, ((s.doItemRemove it).hdr a).nbytes = (s.hdr a).nbytes := by
    intro s
    rw [doItemRemove]
    split
    · exact ⟨rfl, fun a => (hmodify _ _ (by rfl) a).trans (hmodify _ _ (by rfl) a)⟩
    · exact ⟨rfl, fun a => hmodify _ _ (by rfl) a⟩
  rw [LruState.doItemUnlinkNolock] at h
  split at h
  · dsimp only at h
    split at h
    · cases h
    · rename_i assoc hdelete
      rw [← Option.some.inj h, (hremove _).1]
      refine ⟨assocDelete_key hdelete, fun a => ((hremove _).2 a).trans ?_⟩
      exact hmodify s (fun h => { h with flags := { h.flags with linked := false } }) rfl a
  · rw [← Option.some.inj h]
    exact ⟨rfl, fun _ => rfl⟩

/-- **One event.**  At most one more item is linked behind it. -/
theorem Inv.step (h : Inv hash s lists linked none) (hfuel : linked.card + 6 ≤ fuel) {e : LruSettings × LruEvent}
    (hallowed : LruEvent.Allowed s e) :
    ∃ s' lists' linked', lruStep hash fuel s e = some s' ∧ linked'.card ≤ linked.card + 1 ∧
      Inv hash s' lists' linked' none := by
  obtain ⟨cfg, e⟩ := e
  have hcard : linked.card ≤ fuel := by omega
  have hflag : ∀ {a : ℕ}, IsItem a → (s.hdr a).flags.linked = false → a ∉ linked := fun ha hfalse hmem => by
    rw [(h.flag _ ha).mpr hmem] at hfalse
    exact Bool.noConfusion hfalse
  cases e with
  | rewrite it w =>
    obtain ⟨hitem, hoff, hw⟩ := hallowed
    exact ⟨_, lists, linked, rfl, Nat.le_succ _, h.rewrite hitem (hflag hitem hoff) hw⟩
  | use it hdr =>
    obtain ⟨hitem, hsame, href⟩ := hallowed
    exact ⟨_, lists, linked, rfl, Nat.le_succ _, h.modify hitem hsame fun _ => href⟩
  | link it =>
    obtain ⟨⟨hitem, hoff, hnbytes⟩, hkey⟩ := hallowed
    obtain ⟨lists', hinv⟩ := h.doItemLink cfg hitem (hflag hitem hoff)
      (fun b hb => hkey b (h.isItem b hb) ((h.flag b (h.isItem b hb)).mpr hb)) hnbytes
    exact ⟨_, lists', _, rfl, Finset.card_insert_le _ _, hinv⟩
  | unlink it =>
    obtain ⟨s', lists', hs', hinv⟩ := h.doItemUnlink hcard hallowed
    exact ⟨s', lists', _, hs', (Finset.card_erase_le).trans (Nat.le_succ _), hinv⟩
  | unlinkNolock it =>
    obtain ⟨s', lists', hs', hinv⟩ := h.doItemUnlink hcard hallowed
    exact ⟨s', lists', _, hs', (Finset.card_erase_le).trans (Nat.le_succ _), hinv⟩
  | replace it newIt =>
    obtain ⟨hitem, ⟨hnew, hoff, hnbytes⟩, hsame, hkey⟩ := hallowed
    obtain ⟨s₁, lists₁, hs₁, hinv₁⟩ := h.doItemUnlink hcard hitem
    obtain ⟨hkeys, hsizes⟩ := doItemUnlinkNolock_frame hs₁
    have hgone : newIt ∉ linked.erase it := fun hmem => hflag hnew hoff (Finset.mem_of_mem_erase hmem)
    have hother : ∀ b ∈ linked.erase it, s₁.assoc.key b ≠ s₁.assoc.key newIt := by
      intro b hb
      obtain ⟨hne, hb⟩ := Finset.mem_erase.mp hb
      rw [hkeys, hsame]
      exact fun heq => hne (hkey b (h.isItem b hb) ((h.flag b (h.isItem b hb)).mpr hb) heq)
    obtain ⟨lists', hinv⟩ := hinv₁.doItemLink cfg hnew hgone hother (by rwa [hsizes])
    refine ⟨_, lists', _, ?_, (Finset.card_insert_le _ _).trans (Nat.succ_le_succ Finset.card_erase_le), hinv⟩
    rw [lruStep, doItemReplace, hs₁, hkeys, hsame]
  | update it =>
    obtain ⟨lists', hinv⟩ := h.doItemUpdate cfg hallowed
    exact ⟨_, lists', linked, rfl, Nat.le_succ _, hinv⟩
  | pullTail p =>
    obtain ⟨res, lists', linked', hres, hsub, hinv⟩ := h.lruPullTail hfuel hallowed p
    refine ⟨res.2.2, lists', linked', ?_, (Finset.card_le_card hsub).trans (Nat.le_succ _), hinv⟩
    rw [lruStep, hres, Option.map_some]
  | crawlerStart sid remaining =>
    obtain ⟨lists', hinv⟩ := h.doLruCrawlerStart sid remaining
    exact ⟨_, lists', linked, rfl, Nat.le_succ _, hinv⟩
  | crawl i metadump trylock =>
    obtain ⟨s', lists', linked', hs', hsub, hinv⟩ := h.crawlStep hcard i metadump trylock
    exact ⟨s', lists', linked', hs', (Finset.card_le_card hsub).trans (Nat.le_succ _), hinv⟩
  | crawlerDone i =>
    rw [lruStep]
    split
    · rename_i hone
      obtain ⟨l, r, hlist⟩ := h.crawler_place hone
      exact ⟨_, _, linked, rfl, Nat.le_succ _, h.lruCrawlerClassDone hlist⟩
    · exact ⟨_, lists, linked, rfl, Nat.le_succ _, h⟩
  | expand calloc =>
    obtain ⟨assoc, hstep, hkey, htable⟩ := h.table.expand fuel hallowed calloc
    refine ⟨_, lists, linked, ?_, Nat.le_succ _, h.setAssoc hkey htable⟩
    rw [lruStep, hstep, Option.map_some]
  | migrate =>
    obtain ⟨assoc, hstep, hkey, htable⟩ := h.table.migrate hcard
    refine ⟨_, lists, linked, ?_, Nat.le_succ _, h.setAssoc hkey htable⟩
    rw [lruStep, hstep, Option.map_some]

/-- **Whole runs.**  The induction is on the events. -/
theorem Inv.run {es : List (LruSettings × LruEvent)} (h : Inv hash s lists linked none)
    (hfuel : linked.card + es.length + 6 ≤ fuel) (hall : LruAllowedRun hash fuel s es) :
    ∃ s' lists' linked', es.foldlM (lruStep hash fuel) s = some s' ∧ linked'.card ≤ fuel ∧
      Inv hash s' lists' linked' none := by
  induction es generalizing s lists linked with
  | nil => exact ⟨s, lists, linked, rfl, by omega, h⟩
  | cons e es ih =>
    rw [length_cons] at hfuel
    have hcard : linked.card + 6 ≤ fuel := by omega
    obtain ⟨s₁, lists₁, linked₁, hs₁, hlen, hinv⟩ := h.step hcard hall.1
    obtain ⟨s', lists', linked', hrun, hle, hinv'⟩ := ih hinv (by omega) (hall.2 s₁ hs₁)
    refine ⟨s', lists', linked', ?_, hle, hinv'⟩
    rw [foldlM_cons, hs₁]
    exact hrun

/-! ### What the invariant says -/

theorem Inv.linked_eq (h : Inv hash s lists linked none) :
    linked = Finset.univ.biUnion fun id : UInt8 => (itemsOf (lists id)).toFinset := by
  ext a
  simp only [Finset.mem_biUnion, Finset.mem_univ, true_and, mem_toFinset, itemsOf, mem_filter,
    decide_eq_true_iff]
  constructor
  · intro ha
    exact ⟨_, (h.on_list a (h.isItem a ha)).mpr ⟨ha, nofun⟩, h.isItem a ha⟩
  · rintro ⟨id, ha, hitem⟩
    rw [← h.holds.clsid id a ha] at ha
    exact ((h.on_list a hitem).mp ha).1

/-- **The totals over all lists.** -/
theorem Inv.sum_linked (h : Inv hash s lists linked none) (f : ℕ → ℕ) :
    ∑ a ∈ linked, f a = ∑ id : UInt8, ((itemsOf (lists id)).map f).sum := by
  rw [h.linked_eq, Finset.sum_biUnion]
  · refine Finset.sum_congr rfl fun id _ => ?_
    exact sum_toFinset f ((h.holds.nodup id).filter _)
  · intro i _ j _ hij
    rw [onFun, Finset.disjoint_left]
    intro a hai haj
    have hai' := (mem_filter.mp (mem_toFinset.mp hai)).1
    have haj' := (mem_filter.mp (mem_toFinset.mp haj)).1
    exact hij ((h.holds.clsid i a hai').symm.trans (h.holds.clsid j a haj'))

end LruState

/-- **Everything agrees.**  `lists` are the lists as they stand in memory, each from its head to its tail. -/
structure WellLinked (hash : Bytes → ℕ) (fuel : ℕ) (s : LruState) (lists : UInt8 → List ℕ) : Prop where
  well_formed : ∀ id, Dll s.q.next s.q.prev (s.q.heads id) (s.q.tails id) (lists id) ∧ (lists id).Nodup
  linked_iff_found : ∀ a, IsItem a → ((s.hdr a).flags.linked = true ↔
    s.assoc.assocFind fuel (s.assoc.key a) (hash (s.assoc.key a)) = some (some a))
  linked_iff_listed : ∀ a, IsItem a → ((s.hdr a).flags.linked = true ↔ ∃! id, a ∈ lists id)
  own_list : ∀ id, ∀ a ∈ lists id, s.q.slabsClsid a = id
  others : ∀ id, ∀ a ∈ lists id, ¬IsItem a → a = crawlerAt id
  sizes : ∀ id, s.q.sizes id = UInt32.ofNat (itemsOf (lists id)).length
  sizesBytes : ∀ id, s.q.sizesBytes id = UInt64.ofNat ((itemsOf (lists id)).map s.ntotal).sum
  currItems : s.currItems = UInt64.ofNat (∑ id : UInt8, (itemsOf (lists id)).length)
  currBytes : s.currBytes = UInt64.ofNat (∑ id : UInt8, ((itemsOf (lists id)).map s.ntotal).sum)

theorem LruState.Inv.wellLinked {hash : Bytes → ℕ} {s : LruState} {lists : UInt8 → List ℕ}
    {linked : Finset ℕ}
    (h : Inv hash s lists linked none) {fuel : ℕ} (hfuel : linked.card ≤ fuel) : WellLinked hash fuel s lists where
  well_formed := fun id => ⟨h.holds.dll id, h.holds.nodup id⟩
  linked_iff_found := by
    intro a ha
    obtain ⟨found, hfound, hiff⟩ := h.table.find hfuel (s.assoc.key a)
    rw [h.flag a ha, hfound, Option.some.injEq, hiff]
    exact ⟨fun hmem => ⟨hmem, rfl⟩, fun hand => hand.1⟩
  linked_iff_listed := by
    intro a ha
    have hlist := h.on_list a ha
    rw [h.flag a ha]
    constructor
    · intro hmem
      exact ⟨_, hlist.mpr ⟨hmem, nofun⟩, fun id hid => (h.holds.clsid id a hid).symm⟩
    · rintro ⟨id, hid, -⟩
      rw [← h.holds.clsid id a hid] at hid
      exact (hlist.mp hid).1
  own_list := h.holds.clsid
  others := fun id a ha hnot => ((h.mem_list ha).resolve_left fun hmem => hnot (h.isItem a hmem)).1
  sizes := h.holds.sizes
  sizesBytes := h.holds.sizesBytes
  currItems := by
    have hsum := h.sum_linked fun _ => 1
    simp only [map_const', sum_replicate, nsmul_one, Nat.cast_id] at hsum
    rw [h.currItems, Finset.card_eq_sum_ones, hsum]
  currBytes := by rw [h.currBytes, h.sum_linked]

/-- **The linked-item invariant.** In every state of every run of links, unlinks, replacements, updates, pulls of
tails and steps of the crawler, and of the maintenance thread of the hash table: an item is linked iff the table
finds it under its key iff it is on exactly one list, which is the one of its id; every list is well formed; and the
counters are those of the lists. -/
theorem linked_item_invariant (hash : Bytes → ℕ) {power fuel : ℕ} (hpower : power ≤ 31)
    (es : List (LruSettings × LruEvent)) (hfuel : es.length + 6 ≤ fuel)
    (hall : LruAllowedRun hash fuel (LruState.init power) es) :
    ∃ s lists, es.foldlM (lruStep hash fuel) (LruState.init power) = some s ∧ WellLinked hash fuel s lists := by
  obtain ⟨s, lists, linked, hrun, hcard, hinv⟩ := (inv_init hash hpower).run (by simpa using hfuel) hall
  exact ⟨s, lists, hrun, hinv.wellLinked hcard⟩

/-- An item of class 1 is written and linked, a crawler enters its list, the item is pulled to COLD_LRU, and the
crawler is left alone on its list. -/
theorem linked_item_invariant_pull :
    let cfg : LruSettings := ⟨true, true, true, 20, 40, 0, 0, 0, 10⟩
    let w : Fields := ⟨⟨5, 0, 7, 1, 0, .zero⟩, [107], none, none, none, 1⟩
    let pull : PullTail := ⟨1, .hot, 0, false, false, false, 0, fun _ _ => true⟩
    let es := [(cfg, .rewrite 300 w), (cfg, .link 300), (cfg, .crawlerStart 1 0), (cfg, .pullTail pull)]
    (∃ s lists, es.foldlM (lruStep length 10) (LruState.init 4) = some s ∧ WellLinked length 10 s lists) ∧
      ((es.foldlM (lruStep length 10) (LruState.init 4)).map fun s =>
        (s.q.heads 1, s.q.tails 1, s.q.heads 129, s.q.tails 129, s.q.sizes 129, s.currItems)) =
        some (some 1, some 1, some 300, some 300, 1, 1) := by
  refine ⟨linked_item_invariant length (by decide) _ (by decide) ?_, by rfl⟩
  refine ⟨⟨by decide, rfl, rfl⟩, fun s₁ h₁ =>
    ⟨?_, fun _ _ => ⟨trivial, fun _ _ => ⟨rfl, fun _ _ => trivial⟩⟩⟩⟩
  obtain rfl := Option.some.inj h₁
  refine ⟨⟨by decide, rfl, by decide⟩, fun b _ hb => ?_⟩
  by_cases h300 : b = 300
  · rw [h300] at hb
    exact absurd hb (by decide)
  · have hflags : ((LruState.init 4).rewrite 300 ⟨⟨5, 0, 7, 1, 0, .zero⟩, [107], none, none, none, 1⟩).hdr b =
        (LruState.init 4).hdr b := update_of_ne h300 _ _
    rw [hflags] at hb
    exact absurd hb Bool.false_ne_true

end BmcCache
