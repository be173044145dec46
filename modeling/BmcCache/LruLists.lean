import BmcCache.DoublyLinked
import Mathlib.Algebra.BigOperators.Group.List.Basic
import Mathlib.Algebra.Ring.Nat

/-!
# `items.c`: the LRU lists

Each of the 256 LRUs is a doubly linked list of items with a pointer to its head and one to its tail, and with two
counters. A crawler is a pseudo-item that sits on a list and is not counted.

* `doItemLinkQ`, `doItemUnlinkQ`, `doItemLinktailQ`, `doItemUnlinktailQ`, `doItemCrawlQ` — the functions, on a
  memory of link fields;
* `LruLists.Holds` — the memory holds the lists `lists`, each under the id of its items, and the counters count them;
* `Holds.linkQ`, `Holds.unlinkQ`, `Holds.linktailQ`, `Holds.unlinktailQ`, `Holds.crawlQ`, `Holds.crawlQ_head` —
  what each function does to the lists; `Holds.setClsid` — an item that is on none of them may get another id.
-/

namespace BmcCache

open DoublyLinked Function List

/-- The link fields and the id of each item, and the arrays of `items.c`. -/
structure LruLists where
  next : ℕ → Option ℕ
  prev : ℕ → Option ℕ
  slabsClsid : ℕ → UInt8
  heads : UInt8 → Option ℕ
  tails : UInt8 → Option ℕ
  sizes : UInt8 → UInt32
  sizesBytes : UInt8 → UInt64

/-- `(item *)&crawlers[i]`: the crawlers are the first 256 addresses, items have the others. -/
def crawlerAt (i : UInt8) : ℕ := i.toNat

def IsItem (a : ℕ) : Prop := 256 ≤ a

instance (a : ℕ) : Decidable (IsItem a) := inferInstanceAs (Decidable (256 ≤ a))

theorem not_isItem_crawlerAt (i : UInt8) : ¬IsItem (crawlerAt i) := Nat.not_le.mpr i.toNat_lt

def itemsOf (l : List ℕ) : List ℕ := l.filter fun a => decide (IsItem a)

namespace LruLists

def init : LruLists where
  next := fun _ => none
  prev := fun _ => none
  slabsClsid := fun _ => 0
  heads := fun _ => none
  tails := fun _ => none
  sizes := fun _ => 0
  sizesBytes := fun _ => 0

/-- `do_item_link_q`: the item is the new head. -/
def doItemLinkQ (q : LruLists) (it ntotal : ℕ) : LruLists :=
  let id := q.slabsClsid it
  let links := attachFront q.next q.prev (q.heads id) it
  { q with
    next := links.1
    prev := links.2
    heads := update q.heads id (some it)
    tails := update q.tails id (if q.tails id = none then some it else q.tails id)
    sizes := update q.sizes id (q.sizes id + 1)
    sizesBytes := update q.sizesBytes id (q.sizesBytes id + UInt64.ofNat ntotal) }

def doItemUnlinktailQ (q : LruLists) (it : ℕ) : LruLists :=
  let id := q.slabsClsid it
  let ends := endsWithout q.next q.prev (q.heads id) (q.tails id) it
  let links := detach q.next q.prev it
  { q with
    next := links.1
    prev := links.2
    heads := update q.heads id ends.1
    tails := update q.tails id ends.2 }

/-- `do_item_unlink_q`: the same, and the counters. -/
def doItemUnlinkQ (q : LruLists) (it ntotal : ℕ) : LruLists :=
  let id := q.slabsClsid it
  { q.doItemUnlinktailQ it with
    sizes := update q.sizes id (q.sizes id - 1)
    sizesBytes := update q.sizesBytes id (q.sizesBytes id - UInt64.ofNat ntotal) }

/-- `do_item_linktail_q`: the item is the new tail. -/
def doItemLinktailQ (q : LruLists) (it : ℕ) : LruLists :=
  let id := q.slabsClsid it
  let links := attachBack q.next q.prev (q.tails id) it
  { q with
    next := links.1
    prev := links.2
    heads := update q.heads id (if q.heads id = none then some it else q.heads id)
    tails := update q.tails id (some it) }

/-- `do_item_crawl_q`: the crawler swings in front of the item before it, which is returned. -/
def doItemCrawlQ (q : LruLists) (it : ℕ) : Option ℕ × LruLists :=
  let id := q.slabsClsid it
  match q.prev it with
  | none =>
    -- we've hit the head, pop off
    match q.next it with
    | none => (none, q)
    | some nx => (none, { q with heads := update q.heads id (some nx), prev := update q.prev nx none })
  | some before =>
    let links := detach q.next q.prev it
    let links := insertBefore links.1 links.2 it before
    (some before, { q with
      next := links.1
      prev := links.2
      heads := update q.heads id (if q.heads id = some before then some it else q.heads id)
      tails := update q.tails id (if q.tails id = some it then some before else q.tails id) })

/-- `it->slabs_clsid = id` -/
def setClsid (q : LruLists) (it : ℕ) (id : UInt8) : LruLists :=
  { q with slabsClsid := update q.slabsClsid it id }

/-! ### The lists in memory -/

/-- **The memory holds the lists.**  The bytes of an item are given by `ntotal`. -/
structure Holds (q : LruLists) (ntotal : ℕ → ℕ) (lists : UInt8 → List ℕ) : Prop where
  dll : ∀ id, Dll q.next q.prev (q.heads id) (q.tails id) (lists id)
  nodup : ∀ id, (lists id).Nodup
  clsid : ∀ id, ∀ a ∈ lists id, q.slabsClsid a = id
  sizes : ∀ id, q.sizes id = UInt32.ofNat (itemsOf (lists id)).length
  sizesBytes : ∀ id, q.sizesBytes id = UInt64.ofNat ((itemsOf (lists id)).map ntotal).sum

theorem holds_init (ntotal : ℕ → ℕ) : init.Holds ntotal fun _ => [] where
  dll := fun _ => dll_nil _ _
  nodup := fun _ => nodup_nil
  clsid := fun _ _ ha => nomatch ha
  sizes := fun _ => rfl
  sizesBytes := fun _ => rfl

variable {q q' : LruLists} {ntotal ntotal' : ℕ → ℕ} {lists : UInt8 → List ℕ} {it : ℕ} {id : UInt8}
  {s t l : List ℕ}

theorem Holds.congr_ntotal (h : q.Holds ntotal lists)
    (hn : ∀ id, ∀ a ∈ lists id, IsItem a → ntotal' a = ntotal a) :
    q.Holds ntotal' lists := by
  refine ⟨h.dll, h.nodup, h.clsid, h.sizes, fun id => ?_⟩
  rw [h.sizesBytes id, map_congr_left]
  intro a ha
  obtain ⟨hmem, hitem⟩ := mem_filter.mp ha
  exact (hn id a hmem (of_decide_eq_true hitem)).symm

theorem Holds.not_mem (h : q.Holds ntotal lists) (hit : it ∉ lists (q.slabsClsid it)) (id : UInt8) :
    it ∉ lists id := by
  intro hmem
  rw [h.clsid id it hmem] at hit
  exact hit hmem

/-- **One list is replaced**; the nodes of the others are not touched. -/
theorem Holds.setList (h : q.Holds ntotal lists)
    (hdll : Dll q'.next q'.prev (q'.heads id) (q'.tails id) l) (hnodup : l.Nodup)
    (hclsid : q'.slabsClsid = q.slabsClsid) (hl : ∀ a ∈ l, q.slabsClsid a = id)
    (hsizes : q'.sizes id = UInt32.ofNat (itemsOf l).length)
    (hbytes : q'.sizesBytes id = UInt64.ofNat ((itemsOf l).map ntotal).sum)
    (hother : ∀ j, j ≠ id → q'.heads j = q.heads j ∧ q'.tails j = q.tails j ∧ q'.sizes j = q.sizes j ∧
      q'.sizesBytes j = q.sizesBytes j)
    (hframe : ∀ j, j ≠ id → ∀ a ∈ lists j, q'.next a = q.next a ∧ q'.prev a = q.prev a) :
    q'.Holds ntotal (update lists id l) := by
  refine ⟨fun j => ?_, fun j => ?_, fun j a ha => ?_, fun j => ?_, fun j => ?_⟩ <;> by_cases hj : j = id
  · subst hj
    rwa [update_self]
  · rw [update_of_ne hj, (hother j hj).1, (hother j hj).2.1]
    exact (h.dll j).frame (fun a ha => (hframe j hj a ha).1) fun a ha => (hframe j hj a ha).2
  · subst hj
    rwa [update_self]
  · rw [update_of_ne hj]
    exact h.nodup j
  · subst hj
    rw [update_self] at ha
    rw [hclsid]
    exact hl a ha
  · rw [update_of_ne hj] at ha
    rw [hclsid]
    exact h.clsid j a ha
  · subst hj
    rwa [update_self]
  · rw [update_of_ne hj, (hother j hj).2.2.1]
    exact h.sizes j
  · subst hj
    rwa [update_self]
  · rw [update_of_ne hj, (hother j hj).2.2.2]
    exact h.sizesBytes j

theorem Holds.disjoint (h : q.Holds ntotal lists) {j : UInt8} (hj : j ≠ id) {a b : ℕ} (ha : a ∈ lists j)
    (hb : b ∈ lists id) : a ≠ b := by
  rintro rfl
  exact hj ((h.clsid j a ha).symm.trans (h.clsid id a hb))

theorem itemsOf_append (s t : List ℕ) : itemsOf (s ++ t) = itemsOf s ++ itemsOf t := filter_append _ _

theorem itemsOf_cons_item (hit : IsItem it) (l : List ℕ) : itemsOf (it :: l) = it :: itemsOf l :=
  filter_cons_of_pos (decide_eq_true hit)

theorem itemsOf_cons_crawler (hit : ¬IsItem it) (l : List ℕ) : itemsOf (it :: l) = itemsOf l :=
  filter_cons_of_neg (by simpa using hit)

/-! ### Items -/

/-- **`do_item_link_q`** of an item that is on no list. -/
theorem Holds.linkQ (h : q.Holds ntotal lists) (hitem : IsItem it) (hit : it ∉ lists (q.slabsClsid it)) :
    (q.doItemLinkQ it (ntotal it)).Holds ntotal
      (update lists (q.slabsClsid it) (it :: lists (q.slabsClsid it))) := by
  generalize hid : q.slabsClsid it = id at hit
  have hdll := h.dll id
  refine h.setList ?_ (nodup_cons.mpr ⟨hit, h.nodup id⟩) rfl ?_ ?_ ?_ ?_ ?_
  · simp only [doItemLinkQ, hid, update_self]
    exact hdll.attachFront (h.nodup id) hit
  · intro a ha
    rcases mem_cons.mp ha with rfl | ha
    · exact hid
    · exact h.clsid id a ha
  · simp only [doItemLinkQ, hid, update_self]
    rw [h.sizes id, itemsOf_cons_item hitem, length_cons, UInt32.ofNat_add]
    rfl
  · simp only [doItemLinkQ, hid, update_self]
    rw [h.sizesBytes id, itemsOf_cons_item hitem, map_cons, sum_cons, UInt64.ofNat_add, UInt64.add_comm]
  · intro j hj
    simp only [doItemLinkQ, hid, update_of_ne hj, and_self]
  · intro j hj a ha
    simp only [doItemLinkQ, hid]
    refine attachFront_frame ?_ ?_
    · rintro rfl
      exact hj ((h.clsid j a ha).symm.trans hid)
    · rw [hdll.head_eq]
      exact fun hhead => h.disjoint hj ha (mem_of_mem_head? hhead) rfl

theorem Holds.detach_frame (h : q.Holds ntotal lists) (hlist : lists id = s ++ it :: t) {j : UInt8}
    (hj : j ≠ id) {a : ℕ}
    (ha : a ∈ lists j) : q.prev it ≠ some a ∧ q.next it ≠ some a := by
  have hdll := h.dll id
  rw [hlist] at hdll
  obtain ⟨hprev, hnext⟩ := hdll.links
  have hnot : a ∉ s ++ it :: t := by
    rw [← hlist]
    exact fun hmem => h.disjoint hj ha hmem rfl
  rw [hprev, hnext]
  refine ⟨getLast?_ne_of_not_mem fun hmem => hnot ?_, head?_ne_of_not_mem fun hmem => hnot ?_⟩
  · exact mem_append_left _ hmem
  · exact mem_append_right _ (mem_cons_of_mem _ hmem)

theorem Holds.clsid_eq (h : q.Holds ntotal lists) (hlist : lists id = s ++ it :: t) : q.slabsClsid it = id := by
  refine h.clsid id it ?_
  rw [hlist]
  exact mem_append_right _ mem_cons_self

theorem Holds.takeOut (h : q.Holds ntotal lists) (hlist : lists id = s ++ it :: t) {sizes : UInt8 → UInt32}
    {sizesBytes : UInt8 → UInt64} (hsizes : sizes id = UInt32.ofNat (itemsOf (s ++ t)).length)
    (hbytes : sizesBytes id = UInt64.ofNat ((itemsOf (s ++ t)).map ntotal).sum)
    (hother : ∀ j, j ≠ id → sizes j = q.sizes j ∧ sizesBytes j = q.sizesBytes j) :
    LruLists.Holds { q.doItemUnlinktailQ it with sizes := sizes, sizesBytes := sizesBytes } ntotal
      (update lists id (s ++ t)) := by
  have hid := h.clsid_eq hlist
  have hdll := h.dll id
  have hnodup := h.nodup id
  rw [hlist] at hdll hnodup
  have hsub : (s ++ t).Sublist (s ++ it :: t) := List.Sublist.append_left (sublist_cons_self _ _) _
  refine h.setList ?_ (hnodup.sublist hsub) rfl ?_ hsizes hbytes ?_ ?_
  · simp only [doItemUnlinktailQ, hid, update_self]
    exact hdll.detach hnodup
  · intro a ha
    refine h.clsid id a ?_
    rw [hlist]
    exact hsub.mem ha
  · intro j hj
    simp only [doItemUnlinktailQ, hid, update_of_ne hj, true_and]
    exact hother j hj
  · intro j hj a ha
    obtain ⟨hprev, hnext⟩ := h.detach_frame hlist hj ha
    exact DoublyLinked.detach_frame hprev hnext

/-- **`do_item_unlink_q`** of an item on a list. -/
theorem Holds.unlinkQ (h : q.Holds ntotal lists) (hitem : IsItem it) (hlist : lists id = s ++ it :: t) :
    (q.doItemUnlinkQ it (ntotal it)).Holds ntotal (update lists id (s ++ t)) := by
  have hid := h.clsid_eq hlist
  rw [doItemUnlinkQ, hid]
  refine h.takeOut hlist ?_ ?_ ?_
  · rw [update_self, h.sizes id, hlist, itemsOf_append, itemsOf_append, itemsOf_cons_item hitem,
      length_append, length_cons, ← Nat.add_assoc, UInt32.ofNat_add, length_append]
    exact UInt32.add_sub_cancel _ _
  · rw [update_self, h.sizesBytes id, hlist, itemsOf_append, itemsOf_append, itemsOf_cons_item hitem,
      map_append, map_append, map_cons, sum_append, sum_append, sum_cons,
      Nat.add_left_comm, Nat.add_comm (ntotal it), UInt64.ofNat_add, UInt64.add_sub_cancel]
  · intro j hj
    exact ⟨update_of_ne hj _ _, update_of_ne hj _ _⟩

/-! ### Crawlers -/

/-- **`do_item_unlinktail_q`** of a crawler on a list. -/
theorem Holds.unlinktailQ (h : q.Holds ntotal lists) (hitem : ¬IsItem it) (hlist : lists id = s ++ it :: t) :
    (q.doItemUnlinktailQ it).Holds ntotal (update lists id (s ++ t)) := by
  have hitems : itemsOf (s ++ t) = itemsOf (lists id) := by
    rw [hlist, itemsOf_append, itemsOf_append, itemsOf_cons_crawler hitem]
  refine h.takeOut hlist ?_ ?_ fun _ _ => ⟨rfl, rfl⟩
  · rw [hitems]
    exact h.sizes id
  · rw [hitems]
    exact h.sizesBytes id

/-- **`do_item_linktail_q`** of a crawler that is on no list. -/
theorem Holds.linktailQ (h : q.Holds ntotal lists) (hitem : ¬IsItem it) (hit : it ∉ lists (q.slabsClsid it)) :
    (q.doItemLinktailQ it).Holds ntotal
      (update lists (q.slabsClsid it) (lists (q.slabsClsid it) ++ [it])) := by
  generalize hid : q.slabsClsid it = id at hit
  have hdll := h.dll id
  have hitems : itemsOf (lists id ++ [it]) = itemsOf (lists id) := by
    rw [itemsOf_append, itemsOf_cons_crawler hitem]
    exact append_nil _
  refine h.setList ?_ (nodup_append.mpr ⟨h.nodup id, nodup_singleton _, ?_⟩) rfl ?_ ?_ ?_ ?_ ?_
  · simp only [doItemLinktailQ, hid, update_self]
    exact hdll.attachBack (h.nodup id) hit
  · intro a ha b hb hab
    rw [mem_singleton.mp hb] at hab
    exact hit (hab ▸ ha)
  · intro a ha
    rcases mem_append.mp ha with ha | ha
    · exact h.clsid id a ha
    · rw [mem_singleton.mp ha, hid]
  · rw [hitems]
    exact h.sizes id
  · rw [hitems]
    exact h.sizesBytes id
  · intro j hj
    simp only [doItemLinktailQ, hid, update_of_ne hj, and_self]
  · intro j hj a ha
    simp only [doItemLinktailQ, hid]
    refine attachBack_frame ?_ ?_
    · rintro rfl
      exact hj ((h.clsid j a ha).symm.trans hid)
    · rw [hdll.tail_eq]
      exact fun htail => h.disjoint hj ha (mem_of_mem_getLast? htail) rfl

/-- **`do_item_crawl_q`** changes places with the item before the crawler, and returns it. -/
theorem Holds.crawlQ (h : q.Holds ntotal lists) (hitem : ¬IsItem it) {before : ℕ}
    (hlist : lists id = s ++ before :: it :: t) :
    (q.doItemCrawlQ it).1 = some before ∧
      (q.doItemCrawlQ it).2.Holds ntotal (update lists id (s ++ it :: before :: t)) := by
  have hlist' : lists id = (s ++ [before]) ++ it :: t := by rw [hlist, append_assoc, singleton_append]
  have hid := h.clsid_eq hlist'
  have hdll := h.dll id
  have hnodup := h.nodup id
  rw [hlist'] at hdll hnodup
  have hprev : q.prev it = some before := by rw [hdll.links.1, getLast?_concat]
  have hswap : (s ++ it :: before :: t).Perm (lists id) := by
    rw [hlist]
    exact (List.Perm.swap _ _ _).append_left s
  have hout : it ∉ s ++ before :: t := by
    have hperm : ((s ++ [before]) ++ it :: t).Perm (it :: (s ++ before :: t)) := by
      rw [append_assoc, singleton_append]
      exact ((List.Perm.swap _ _ _).append_left s).trans perm_middle
    exact (nodup_cons.mp (hperm.nodup_iff.mp hnodup)).1
  have hwithout : (s ++ before :: t).Nodup := by
    refine hnodup.sublist ?_
    rw [append_assoc, singleton_append]
    exact List.Sublist.append_left ((sublist_cons_self _ _).cons_cons _) _
  -- the head is not the crawler, which has an item before it
  have hhead : q.heads id ≠ some it := by
    rw [hdll.head_eq]
    cases s with
    | nil => exact fun hh => hout (by rw [← Option.some.inj hh]; simp)
    | cons a s => exact fun hh => hout (by rw [← Option.some.inj hh]; simp)
  have hdetach := hdll.detach hnodup
  rw [append_assoc, singleton_append] at hdetach
  have hinsert := hdetach.insertBefore hwithout hout
  have hitems : itemsOf (s ++ it :: before :: t) = itemsOf (lists id) := by
    rw [hlist, itemsOf_append, itemsOf_append, itemsOf_cons_crawler hitem]
    by_cases hb : IsItem before
    · rw [itemsOf_cons_item hb, itemsOf_cons_item hb, itemsOf_cons_crawler hitem]
    · rw [itemsOf_cons_crawler hb, itemsOf_cons_crawler hb, itemsOf_cons_crawler hitem]
  refine ⟨by rw [doItemCrawlQ, hprev], ?_⟩
  rw [doItemCrawlQ, hprev]
  refine h.setList ?_ (hswap.nodup_iff.mpr (h.nodup id)) rfl (fun a ha => h.clsid id a (hswap.mem_iff.mp ha))
    ?_ ?_ ?_ ?_
  · simp only [hid, update_self]
    rw [endsWithout, if_neg hhead, hprev] at hinsert
    exact hinsert
  · rw [hitems]
    exact h.sizes id
  · rw [hitems]
    exact h.sizesBytes id
  · intro j hj
    simp only [hid, update_of_ne hj, and_self]
  · intro j hj a ha
    obtain ⟨hpa, hna⟩ := h.detach_frame hlist' hj ha
    obtain ⟨hnext, hprev'⟩ := DoublyLinked.detach_frame hpa hna
    have hne : ∀ b ∈ lists id, a ≠ b := fun b hb => h.disjoint hj ha hb
    have hb : (detach q.next q.prev it).2 before ≠ some a := by
      rw [hdetach.links.1]
      refine getLast?_ne_of_not_mem fun hmem => hne a ?_ rfl
      rw [hlist]
      exact mem_append_left _ hmem
    have hinsert' := @insertBefore_frame _ (detach q.next q.prev it).1 _ _ _ _ _ (hne it (by simp [hlist]))
      (hne before (by simp [hlist])) hb
    exact ⟨hinsert'.1.trans hnext, hinsert'.2.trans hprev'⟩

/-- **`do_item_crawl_q` at the head**: the crawler is popped off, `do_item_unlinktail_q` then only has to do
something if it was alone. -/
theorem Holds.crawlQ_head (h : q.Holds ntotal lists) (hitem : ¬IsItem it) (hlist : lists id = it :: t) :
    (q.doItemCrawlQ it).1 = none ∧
      ((q.doItemCrawlQ it).2.doItemUnlinktailQ it).Holds ntotal (update lists id t) := by
  have hid := h.clsid_eq (s := []) hlist
  have hdll := h.dll id
  have hnodup := h.nodup id
  rw [hlist] at hdll hnodup
  obtain ⟨hprev, hnext⟩ := hdll.links (s := [])
  cases t with
  | nil =>
    have hcrawl : q.doItemCrawlQ it = (none, q) := by rw [doItemCrawlQ, hprev, hnext]; rfl
    rw [hcrawl]
    exact ⟨rfl, h.unlinktailQ (s := []) hitem hlist⟩
  | cons c t =>
    have hcrawl : q.doItemCrawlQ it =
        (none, { q with heads := update q.heads id (some c), prev := update q.prev c none }) := by
      rw [doItemCrawlQ, hprev, hnext, hid]
      rfl
    rw [hcrawl]
    refine ⟨rfl, ?_⟩
    -- what the second function stores is there already
    have hne : it ≠ c := fun heq => (nodup_cons.mp hnodup).1 (heq ▸ mem_cons_self)
    have hprev' : update q.prev c none it = none := (update_of_ne hne _ _).trans hprev
    have htail : q.tails id ≠ some it := by
      rw [hdll.tail_eq, getLast?_cons_cons]
      exact getLast?_ne_of_not_mem (nodup_cons.mp hnodup).1
    have hhead : some c ≠ some it := fun heq => hne (Option.some.inj heq).symm
    have hsame : LruLists.doItemUnlinktailQ
        { q with heads := update q.heads id (some c), prev := update q.prev c none } it =
        { q.doItemUnlinktailQ it with sizes := q.sizes, sizesBytes := q.sizesBytes } := by
      simp only [doItemUnlinktailQ, hid, detach, endsWithout, update_self, hprev', hprev, hnext, if_neg htail,
        if_neg hhead, hdll.head_eq, head?_cons, if_pos, setAt, getLast?_nil, update_idem]
    rw [hsame]
    exact h.unlinktailQ (s := []) hitem hlist

/-! ### Ids -/

theorem Holds.setClsid (h : q.Holds ntotal lists) (hit : ∀ j, it ∉ lists j) (id : UInt8) :
    (q.setClsid it id).Holds ntotal lists := by
  refine ⟨h.dll, h.nodup, fun j a ha => ?_, h.sizes, h.sizesBytes⟩
  refine (update_of_ne ?_ _ _).trans (h.clsid j a ha)
  rintro rfl
  exact hit j ha

end LruLists

end BmcCache
