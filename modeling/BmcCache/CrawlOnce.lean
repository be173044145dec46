import BmcCache.LruRuns
import BmcCache.Trace

/-!
# A crawl sees every item once

The crawler of a list enters it at the tail, swings in front of one item after the other, and is taken out when it
comes to the head. Meanwhile other threads, under the lock of the list, put items at the head and take items out.

* `CrawlEvent`, `plainStep` — what the other threads do; `crawlStepQ` — the same with the crawler. The crawler
  holds the lock from `do_item_crawl_q` to `do_item_unlinktail_q` when it comes to the head, which is one step;
* `crawlStep_q` — the crawler of `LruState` makes these steps;
* `ListState`, `listStep` — the lists in the abstract;
* `Crawling` — where the crawler is and what it has seen: the items behind it;
* `crawl_sees_each_once` — the items that stay are seen once, from the tail to the head, and nothing else has changed.
-/

namespace BmcCache

open DoublyLinked LruLists Function List

/-! ### The functions -/

/-- What happens to the lists: an item that is on no list gets an id, an item is put at the head of its list, an item is
taken out, the crawler makes a step. -/
inductive CrawlEvent where
  | assign (it : ℕ) (id : UInt8)
  | link (it : ℕ)
  | unlink (it : ℕ)
  | crawl
  deriving DecidableEq

def plainStep (ntotal : ℕ → ℕ) (q : LruLists) : CrawlEvent → LruLists
  | .assign it id => q.setClsid it id
  | .link it => q.doItemLinkQ it (ntotal it)
  | .unlink it => q.doItemUnlinkQ it (ntotal it)
  | .crawl => q

/-- The lists, `it_flags` of the crawler, and what `do_item_crawl_q` has returned. -/
structure CrawlState where
  q : LruLists
  running : Bool
  seen : List ℕ

/-- `do_lru_crawler_start` with `remaining == 0`, for a crawler that is not running -/
def startCrawl (i : UInt8) (q : LruLists) : CrawlState where
  q := LruLists.doItemLinktailQ { q with
    next := update q.next (crawlerAt i) none
    prev := update q.prev (crawlerAt i) none
    slabsClsid := update q.slabsClsid (crawlerAt i) i } (crawlerAt i)
  running := true
  seen := []

/-- One event, the crawler of the list `i` being on its way. -/
def crawlStepQ (i : UInt8) (ntotal : ℕ → ℕ) (s : CrawlState) : CrawlEvent → CrawlState
  | .crawl =>
    if s.running then
      match s.q.doItemCrawlQ (crawlerAt i) with
      | (none, q) => { s with q := q.doItemUnlinktailQ (crawlerAt i), running := false }
      | (some search, q) => { s with q := q, seen := s.seen ++ [search] }
    else s
  | e => { s with q := plainStep ntotal s.q e }

theorem doItemRemove_q (s : LruState) (it : ℕ) : (s.doItemRemove it).q = s.q := by
  unfold LruState.doItemRemove
  dsimp only
  split <;> rfl

theorem doItemUnlinkNolock_q {s s' : LruState} {fuel it hv : ℕ} (h : s.doItemUnlinkNolock fuel it hv = some s') :
    s'.q = s.q ∨ s'.q = s.q.doItemUnlinkQ it (s.ntotal it) := by
  unfold LruState.doItemUnlinkNolock at h
  split at h
  · dsimp only at h
    split at h
    · cases h
    · rename_i assoc hdelete
      right
      rw [← Option.some.inj h, doItemRemove_q]
      simp [LruState.itemUnlinkQ, LruState.modify, LruState.ntotal, AssocState.assocDelete_key hdelete]
  · exact .inl (by rw [← Option.some.inj h])

/-- **The crawler of the whole model** is started and goes on as here; it may take out the item that it has come to. -/
theorem crawlStep_q {hash : Bytes → ℕ} {cfg : LruSettings} {fuel : ℕ} {i : UInt8} {metadump : Bool}
    {trylock : ℕ → Bool} (s : LruState) :
    ((s.hdr (crawlerAt i)).flags = .zero → (s.doLruCrawlerStart i 0).q = (startCrawl i s.q).q) ∧
      ∀ s' seen, (s.hdr (crawlerAt i)).flags = .one → s.remaining i = 0 →
        s.crawlStep hash cfg fuel i metadump trylock = some s' →
        ∃ es, (es = [] ∨ ∃ search, (s.q.doItemCrawlQ (crawlerAt i)).1 = some search ∧ es = [.unlink search]) ∧
          s'.q = (Trace.run (crawlStepQ i s.ntotal) ⟨s.q, true, seen⟩ (.crawl :: es)).q := by
  constructor
  · intro hflags
    unfold LruState.doLruCrawlerStart
    rw [if_pos hflags]
    rfl
  · intro s' seen hflags hall hstep
    rw [LruState.crawlStep, if_neg (not_not.mpr hflags)] at hstep
    have hfirst : ∀ es, Trace.run (crawlStepQ i s.ntotal) ⟨s.q, true, seen⟩ (.crawl :: es) =
        Trace.run (crawlStepQ i s.ntotal) (crawlStepQ i s.ntotal ⟨s.q, true, seen⟩ .crawl) es := fun _ => rfl
    simp only [hfirst, crawlStepQ, if_true]
    generalize s.q.doItemCrawlQ (crawlerAt i) = r at hstep ⊢
    obtain ⟨_ | search, q⟩ := r
    · exact ⟨[], .inl rfl, by rw [← Option.some.inj hstep]; rfl⟩
    have hcount : ({ s with q := q } : LruState).countDown i = (false, { s with q := q }) := if_pos hall
    simp only [LruState.crawlItem, hcount, Bool.false_eq_true, if_false] at hstep
    split at hstep
    · split at hstep
      · exact ⟨[], .inl rfl, by rw [← Option.some.inj hstep]; rfl⟩
      · unfold LruState.crawlerEval at hstep
        split at hstep
        · split at hstep
          · cases hstep
          · rename_i s₁ hunlink
            rw [← Option.some.inj hstep, doItemRemove_q]
            rcases doItemUnlinkNolock_q hunlink with hq | hq
            · exact ⟨[], .inl rfl, hq⟩
            · refine ⟨[.unlink search], .inr ⟨search, rfl, rfl⟩, hq.trans ?_⟩
              simp [LruState.refcountIncr, LruState.modify, LruState.ntotal, crawlStepQ, plainStep]
        · exact ⟨[], .inl rfl, by rw [← Option.some.inj hstep]; rfl⟩
    · exact ⟨[], .inl rfl, by rw [← Option.some.inj hstep]; rfl⟩

/-! ### The lists in the abstract -/

structure ListState where
  lists : UInt8 → List ℕ
  clsid : ℕ → UInt8

def listStep (a : ListState) : CrawlEvent → ListState
  | .assign it id => { a with clsid := update a.clsid it id }
  | .link it => { a with lists := update a.lists (a.clsid it) (it :: a.lists (a.clsid it)) }
  | .unlink it => { a with lists := update a.lists (a.clsid it) ((a.lists (a.clsid it)).erase it) }
  | .crawl => a

/-- What the callers see to: an item is linked and gets an id when it is on no list, and unlinked when it is on one. -/
def CrawlEvent.Allowed (a : ListState) : CrawlEvent → Prop
  | .assign it _ | .link it => IsItem it ∧ ∀ id, it ∉ a.lists id
  | .unlink it => IsItem it ∧ it ∈ a.lists (a.clsid it)
  | .crawl => True

def stays (first : List ℕ) (es : List CrawlEvent) (a : ℕ) : Bool :=
    decide (a ∈ first ∧ CrawlEvent.unlink a ∉ es)

theorem stays_snoc (first : List ℕ) (es : List CrawlEvent) (e : CrawlEvent) (a : ℕ) :
    stays first (es ++ [e]) a = (stays first es a && decide (e ≠ .unlink a)) := by
  unfold stays
  rw [← Bool.decide_and]
  refine decide_eq_decide.mpr ?_
  rw [mem_append, mem_singleton, not_or, and_assoc]
  exact and_congr_right fun _ => and_congr_right fun _ => ne_comm

theorem filter_stays_snoc (first : List ℕ) (es : List CrawlEvent) (e : CrawlEvent) (l : List ℕ) :
    l.filter (stays first (es ++ [e])) = (l.filter (stays first es)).filter fun a => decide (e ≠ .unlink a) := by
  rw [filter_filter]
  refine filter_congr fun a _ => ?_
  rw [stays_snoc, Bool.and_comm]

theorem filter_stays_erase {first : List ℕ} {es : List CrawlEvent} {it : ℕ} {l : List ℕ} (hl : l.Nodup) :
    (l.erase it).filter (stays first (es ++ [.unlink it])) = l.filter (stays first (es ++ [.unlink it])) := by
  rw [hl.erase_eq_filter, filter_filter]
  refine filter_congr fun a _ => ?_
  rw [stays_snoc]
  by_cases ha : a = it <;> simp [ha]

/-! ### The other threads -/

section Threads

variable {q : LruLists} {ntotal : ℕ → ℕ} {lists : UInt8 → List ℕ} {it : ℕ} {id i : UInt8} {a : ListState}
  {e : CrawlEvent}

theorem holds_unlink (h : q.Holds ntotal lists) (hitem : IsItem it) (hmem : it ∈ lists id) :
    (q.doItemUnlinkQ it (ntotal it)).Holds ntotal (update lists id ((lists id).erase it)) := by
  obtain ⟨s, t, hlist⟩ := append_of_mem hmem
  have hnodup := h.nodup id
  rw [hlist] at hnodup
  have hs : it ∉ s := fun hs => (nodup_append.mp hnodup).2.2 it hs it mem_cons_self rfl
  have hunlink := h.unlinkQ hitem hlist
  rwa [hlist, erase_append_right _ hs, erase_cons_head]

/-- **The lists in the abstract are those in memory.** -/
theorem holds_plainStep (h : q.Holds ntotal a.lists) (hclsid : ∀ x, IsItem x → q.slabsClsid x = a.clsid x)
    (he : e.Allowed a) : (plainStep ntotal q e).Holds ntotal (listStep a e).lists ∧
      ∀ x, IsItem x → (plainStep ntotal q e).slabsClsid x = (listStep a e).clsid x := by
  cases e with
  | assign it id =>
    refine ⟨h.setClsid he.2 id, fun x hx => ?_⟩
    show update q.slabsClsid it id x = update a.clsid it id x
    by_cases hne : x = it
    · rw [hne, update_self, update_self]
    · rw [update_of_ne hne, update_of_ne hne, hclsid x hx]
  | link it =>
    have hlink := h.linkQ he.1 (he.2 _)
    rw [hclsid it he.1] at hlink
    exact ⟨hlink, hclsid⟩
  | unlink it => exact ⟨holds_unlink h he.1 he.2, hclsid⟩
  | crawl => exact ⟨h, hclsid⟩

theorem holds_plainRun (h : q.Holds ntotal a.lists) (hclsid : ∀ x, IsItem x → q.slabsClsid x = a.clsid x)
    (es : List CrawlEvent) (hall : Trace.All listStep CrawlEvent.Allowed a es) :
    (Trace.run (plainStep ntotal) q es).Holds ntotal (Trace.run listStep a es).lists ∧
      ∀ x, IsItem x → (Trace.run (plainStep ntotal) q es).slabsClsid x = (Trace.run listStep a es).clsid x := by
  induction es generalizing q a with
  | nil => exact ⟨h, hclsid⟩
  | cons e es ih =>
    obtain ⟨hholds, hclsid'⟩ := holds_plainStep h hclsid hall.1
    exact ih hholds hclsid' hall.2

/-- A node that is on none of the lists, when one of them is replaced. -/
theorem not_mem_update {x : ℕ} {l : List ℕ} (hl : x ∉ l) (hoff : ∀ id, x ∉ lists id) (j id : UInt8) :
    x ∉ update lists j l id := by
  by_cases hid : id = j
  · rwa [hid, update_self]
  · rw [update_of_ne hid]
    exact hoff id

end Threads

/-! ### The crawler on its way -/

section Crawl

variable {i : UInt8} {ntotal : ℕ → ℕ} {first : List ℕ} {es : List CrawlEvent} {a : ListState} {s : CrawlState}
  {q : LruLists} {e : CrawlEvent}

/-- **Where the crawler is.** While it is running it stands in the list `i`, the items behind it are those it has
seen, and the list is as it would be otherwise; when it has ended it is on no list. -/
structure Crawling (i : UInt8) (ntotal : ℕ → ℕ) (first : List ℕ) (es : List CrawlEvent) (a : ListState)
    (s : CrawlState) : Prop where
  off : ∀ id, crawlerAt i ∉ a.lists id
  clsid : ∀ x, IsItem x → s.q.slabsClsid x = a.clsid x
  place : s.running = true → ∃ l r, a.lists i = l ++ r ∧
    s.q.Holds ntotal (update a.lists i (l ++ crawlerAt i :: r)) ∧
    (s.seen.filter (stays first es)).reverse = r.filter (stays first es)
  ended : s.running = false → s.q.Holds ntotal a.lists ∧
    s.seen.filter (stays first es) = (first.filter (stays first es)).reverse
  stayers : (a.lists i).filter (stays first es) = first.filter (stays first es)

theorem crawling_start (h : q.Holds ntotal a.lists) (hclsid : ∀ x, IsItem x → q.slabsClsid x = a.clsid x)
    (hoff : ∀ id, crawlerAt i ∉ a.lists id) : Crawling i ntotal (a.lists i) [] a (startCrawl i q) := by
  have hnot := not_isItem_crawlerAt i
  have hne : ∀ id, ∀ x ∈ a.lists id, x ≠ crawlerAt i := fun id x hx => ne_of_mem_of_not_mem hx (hoff id)
  have hreset : LruLists.Holds { q with
      next := update q.next (crawlerAt i) none
      prev := update q.prev (crawlerAt i) none
      slabsClsid := update q.slabsClsid (crawlerAt i) i } ntotal a.lists := by
    refine ⟨fun id => ?_, h.nodup, fun id x hx => ?_, h.sizes, h.sizesBytes⟩
    · exact (h.dll id).frame (fun x hx => update_of_ne (hne id x hx) _ _)
        fun x hx => update_of_ne (hne id x hx) _ _
    · exact (update_of_ne (hne id x hx) _ _).trans (h.clsid id x hx)
  have hlink := hreset.linktailQ hnot (hoff _)
  dsimp only at hlink
  rw [update_self] at hlink
  refine ⟨hoff, fun x hx => ?_, fun _ => ⟨a.lists i, [], (append_nil _).symm, hlink, rfl⟩, nofun, rfl⟩
  exact (update_of_ne (LruState.ne_of_isItem hx hnot).symm _ _).trans (hclsid x hx)

theorem edit_own {lists : UInt8 → List ℕ} {c : ℕ} {l r u v : List ℕ} {f : List ℕ → List ℕ}
    (hlist : lists i = l ++ r)
    (hf : f (l ++ r) = u ++ v) (hf' : f (l ++ c :: r) = u ++ c :: v) :
    update lists i (f (lists i)) i = u ++ v ∧
      update (update lists i (l ++ c :: r)) i (f (update lists i (l ++ c :: r) i)) =
        update (update lists i (f (lists i))) i (u ++ c :: v) := by
  rw [update_self, update_self, hlist, hf, hf', update_idem, update_idem]
  exact ⟨rfl, rfl⟩

theorem edit_other {lists : UInt8 → List ℕ} {j : UInt8} {l m : List ℕ} (f : List ℕ → List ℕ) (hj : j ≠ i)
    (hlist : lists i = l) : update lists j (f (lists j)) i = l ∧
      update (update lists i m) j (f (update lists i m j)) =
        update (update lists j (f (lists j))) i m := by
  rw [update_of_ne hj.symm, update_of_ne hj, hlist, update_comm hj.symm]
  exact ⟨rfl, rfl⟩

/-- **What the other threads do to the list** is what they would do to it without the crawler. -/
theorem listStep_place {l r : List ℕ} (hlist : a.lists i = l ++ r) (hnodup : (l ++ r).Nodup) (he : e.Allowed a) :
    ∃ l' r', (listStep a e).lists i = l' ++ r' ∧
      (listStep { a with lists := update a.lists i (l ++ crawlerAt i :: r) } e).lists =
        update (listStep a e).lists i (l' ++ crawlerAt i :: r') ∧
      ∀ first es, r'.filter (stays first (es ++ [e])) = r.filter (stays first (es ++ [e])) := by
  cases e with
  | assign it id => exact ⟨l, r, hlist, rfl, fun _ _ => rfl⟩
  | link it =>
    by_cases hi : a.clsid it = i
    · obtain ⟨hplain, hcrawler⟩ := edit_own (f := fun m => it :: m) (u := it :: l) (c := crawlerAt i) hlist rfl rfl
      refine ⟨it :: l, r, ?_, ?_, fun _ _ => rfl⟩
      · rw [listStep, hi]
        exact hplain
      · rw [listStep, listStep, hi]
        exact hcrawler
    · obtain ⟨hplain, hcrawler⟩ := edit_other (m := l ++ crawlerAt i :: r) (fun m => it :: m) hi hlist
      exact ⟨l, r, hplain, hcrawler, fun _ _ => rfl⟩
  | unlink it =>
    have hne : (crawlerAt i == it) = false := by
      simpa using LruState.ne_of_isItem he.1 (not_isItem_crawlerAt i)
    by_cases hi : a.clsid it = i
    · by_cases hmem : it ∈ l
      · obtain ⟨hplain, hcrawler⟩ := edit_own (f := fun m => m.erase it) (c := crawlerAt i) hlist
          (erase_append_left _ hmem) (erase_append_left _ hmem)
        refine ⟨l.erase it, r, ?_, ?_, fun _ _ => rfl⟩
        · rw [listStep, hi]
          exact hplain
        · rw [listStep, listStep, hi]
          exact hcrawler
      · obtain ⟨hplain, hcrawler⟩ := edit_own (f := fun m => m.erase it) (c := crawlerAt i) hlist
          (erase_append_right _ hmem) (by
            rw [erase_append_right _ hmem, erase_cons_tail (by rw [hne]; exact Bool.false_ne_true)])
        refine ⟨l, r.erase it, ?_, ?_, fun first es => filter_stays_erase (nodup_append.mp hnodup).2.1⟩
        · rw [listStep, hi]
          exact hplain
        · rw [listStep, listStep, hi]
          exact hcrawler
    · obtain ⟨hplain, hcrawler⟩ := edit_other (m := l ++ crawlerAt i :: r) (fun m => m.erase it) hi hlist
      exact ⟨l, r, hplain, hcrawler, fun _ _ => rfl⟩
  | crawl => exact ⟨l, r, hlist, rfl, fun _ _ => rfl⟩

theorem stayers_step (hstay : (a.lists i).filter (stays first es) = first.filter (stays first es))
    (hnodup : (a.lists i).Nodup) (he : e.Allowed a) :
    ((listStep a e).lists i).filter (stays first (es ++ [e])) = first.filter (stays first (es ++ [e])) := by
  have hsame : (a.lists i).filter (stays first (es ++ [e])) = first.filter (stays first (es ++ [e])) := by
    rw [filter_stays_snoc, filter_stays_snoc, hstay]
  cases e with
  | assign it id => exact hsame
  | crawl => exact hsame
  | link it =>
    rw [← hsame]
    show (update a.lists (a.clsid it) _ i).filter _ = _
    by_cases hi : a.clsid it = i
    · -- a first item that is linked has been unlinked before
      have hgone : ¬ stays first (es ++ [.link it]) it = true := by
        intro hstays
        have hmem : it ∈ first.filter (stays first (es ++ [.link it])) :=
          mem_filter.mpr ⟨(of_decide_eq_true hstays).1, hstays⟩
        rw [← hsame] at hmem
        exact he.2 i (mem_of_mem_filter hmem)
      rw [hi, update_self, filter_cons_of_neg hgone]
    · rw [update_of_ne (Ne.symm hi)]
  | unlink it =>
    rw [← hsame]
    show (update a.lists (a.clsid it) _ i).filter _ = _
    by_cases hi : a.clsid it = i
    · rw [hi, update_self, filter_stays_erase hnodup]
    · rw [update_of_ne (Ne.symm hi)]

theorem Crawling.nodup (h : Crawling i ntotal first es a s) (id : UInt8) : (a.lists id).Nodup := by
  cases hrunning : s.running with
  | false => exact (h.ended hrunning).1.nodup id
  | true =>
    obtain ⟨l, r, hlist, hholds, -⟩ := h.place hrunning
    have hnodup := hholds.nodup id
    by_cases hi : id = i
    · rw [hi, update_self] at hnodup
      rw [hi, hlist]
      exact hnodup.sublist (List.Sublist.append_left (sublist_cons_self _ _) _)
    · rwa [update_of_ne hi] at hnodup

theorem off_step (hoff : ∀ id, crawlerAt i ∉ a.lists id) (he : e.Allowed a) (id : UInt8) :
    crawlerAt i ∉ (listStep a e).lists id := by
  cases e with
  | assign it j => exact hoff id
  | crawl => exact hoff id
  | link it =>
    refine not_mem_update ?_ hoff _ id
    rw [mem_cons, not_or]
    exact ⟨LruState.ne_of_isItem he.1 (not_isItem_crawlerAt i), hoff _⟩
  | unlink it => exact not_mem_update (fun hmem => hoff _ (mem_of_mem_erase hmem)) hoff _ id

theorem allowed_place {l r : List ℕ} (hlist : a.lists i = l ++ r) (he : e.Allowed a) :
    e.Allowed { a with lists := update a.lists i (l ++ crawlerAt i :: r) } := by
  have hmem : ∀ it, IsItem it → ∀ id, it ∈ update a.lists i (l ++ crawlerAt i :: r) id ↔
    it ∈ a.lists id := by
    intro it hitem id
    refine LruState.mem_update_iff ?_ id
    rw [hlist]
    exact (LruState.mem_middle_iff (LruState.ne_of_isItem hitem (not_isItem_crawlerAt i)).symm).symm
  cases e with
  | assign it id => exact ⟨he.1, fun j hj => he.2 j ((hmem it he.1 j).mp hj)⟩
  | link it => exact ⟨he.1, fun j hj => he.2 j ((hmem it he.1 j).mp hj)⟩
  | unlink it => exact ⟨he.1, (hmem it he.1 _).mpr he.2⟩
  | crawl => trivial

/-- **Another thread makes a step.** -/
theorem Crawling.other (h : Crawling i ntotal first es a s) (he : e.Allowed a) :
    Crawling i ntotal first (es ++ [e]) (listStep a e) { s with q := plainStep ntotal s.q e } where
  off := off_step h.off he
  clsid := by
    cases hrunning : s.running with
    | false => exact (holds_plainStep (h.ended hrunning).1 h.clsid he).2
    | true =>
      obtain ⟨l, r, hlist, hholds, -⟩ := h.place hrunning
      have hclsid := (holds_plainStep (a := { a with lists := update a.lists i (l ++ crawlerAt i :: r) })
        hholds h.clsid (allowed_place hlist he)).2
      cases e <;> exact hclsid
  place := by
    intro hrunning
    obtain ⟨l, r, hlist, hholds, hseen⟩ := h.place hrunning
    have hnodup := h.nodup i
    rw [hlist] at hnodup
    obtain ⟨l', r', hlist', hplace, hfilter⟩ := listStep_place hlist hnodup he
    have hstep := (holds_plainStep (a := { a with lists := update a.lists i (l ++ crawlerAt i :: r) })
      hholds h.clsid (allowed_place hlist he)).1
    rw [hplace] at hstep
    refine ⟨l', r', hlist', hstep, ?_⟩
    rw [hfilter, filter_stays_snoc, filter_stays_snoc, ← hseen, filter_reverse]
  ended := by
    intro hrunning
    obtain ⟨hholds, hseen⟩ := h.ended hrunning
    refine ⟨(holds_plainStep hholds h.clsid he).1, ?_⟩
    rw [filter_stays_snoc, filter_stays_snoc, hseen, filter_reverse]
  stayers := stayers_step h.stayers (h.nodup i) he

theorem stays_crawl (first : List ℕ) (es : List CrawlEvent) : stays first (es ++ [.crawl]) = stays first es := by
  funext x
  rw [stays_snoc]
  exact Bool.and_true _

/-- **The crawler makes a step**: it swings in front of an item, or comes to the head and leaves. -/
theorem Crawling.crawl (h : Crawling i ntotal first es a s) :
    Crawling i ntotal first (es ++ [.crawl]) a (crawlStepQ i ntotal s .crawl) := by
  have hnot := not_isItem_crawlerAt i
  unfold crawlStepQ
  cases hrunning : s.running with
  | false =>
    rw [if_neg Bool.false_ne_true]
    refine ⟨h.off, h.clsid, ?_, ?_, ?_⟩ <;> rw [stays_crawl]
    · exact h.place
    · exact h.ended
    · exact h.stayers
  | true =>
    rw [if_pos rfl]
    obtain ⟨l, r, hlist, hholds, hseen⟩ := h.place hrunning
    have hclsid := LruState.doItemCrawlQ_slabsClsid s.q (crawlerAt i)
    have hat : update a.lists i (l ++ crawlerAt i :: r) i = l ++ crawlerAt i :: r := update_self _ _ _
    rcases eq_nil_or_concat l with rfl | ⟨l', before, rfl⟩
    · obtain ⟨hnone, hout⟩ := hholds.crawlQ_head hnot hat
      generalize s.q.doItemCrawlQ (crawlerAt i) = res at hnone hout hclsid
      obtain ⟨search, q⟩ := res
      obtain rfl : search = none := hnone
      rw [update_idem, ← nil_append r, ← hlist, update_eq_self] at hout
      refine ⟨h.off, fun x hx => (congrFun hclsid x).trans (h.clsid x hx), nofun, fun _ => ⟨hout, ?_⟩, ?_⟩ <;>
        rw [stays_crawl]
      · rw [← h.stayers, hlist, nil_append, ← hseen, reverse_reverse]
      · exact h.stayers
    · rw [concat_eq_append] at hlist hat hholds
      rw [append_assoc, singleton_append] at hat hholds
      obtain ⟨hsome, hswung⟩ := hholds.crawlQ hnot hat
      generalize s.q.doItemCrawlQ (crawlerAt i) = res at hsome hswung hclsid
      obtain ⟨search, q⟩ := res
      obtain rfl : search = some before := hsome
      rw [update_idem] at hswung
      refine ⟨h.off, fun x hx => (congrFun hclsid x).trans (h.clsid x hx), fun _ =>
        ⟨l', before :: r, ?_, hswung, ?_⟩,
        fun hr => absurd (show true = false from hr) Bool.false_ne_true.symm, ?_⟩
      · rw [hlist, append_assoc, singleton_append]
      · rw [stays_crawl, filter_append, reverse_append, hseen]
        by_cases hstays : stays first es before = true
        · rw [filter_cons_of_pos hstays, filter_cons_of_pos hstays]
          rfl
        · rw [filter_cons_of_neg hstays, filter_cons_of_neg hstays]
          rfl
      · rw [stays_crawl]
        exact h.stayers

theorem Crawling.step (h : Crawling i ntotal first es a s) (he : e.Allowed a) :
    Crawling i ntotal first (es ++ [e]) (listStep a e) (crawlStepQ i ntotal s e) := by
  cases e with
  | crawl => exact h.crawl
  | assign it id => exact h.other he
  | link it => exact h.other he
  | unlink it => exact h.other he

/-- **Whole runs.** -/
theorem Crawling.run (h : Crawling i ntotal first es a s) (fs : List CrawlEvent)
    (hall : Trace.All listStep CrawlEvent.Allowed a fs) :
    Crawling i ntotal first (es ++ fs) (Trace.run listStep a fs) (Trace.run (crawlStepQ i ntotal) s fs) := by
  induction fs generalizing es a s with
  | nil =>
    rw [append_nil]
    exact h
  | cons e fs ih =>
    have hrest := ih (h.step hall.1) hall.2
    rw [append_assoc, singleton_append] at hrest
    exact hrest

end Crawl

/-! ### Whole crawls -/

/-- **A crawl sees every item once.** The lists are `lists`, and the crawler of list `i`, which is on none of them,
is started. Behind any sequence of steps of the crawler and of other threads: without the crawler the lists are
`lists'`; with it they are the same but for the crawler, which stands in list `i` as long as it is running; and when
it has ended, it is on no list, each item that was there at the start and has not been taken out has been returned
exactly once, and these items have been returned from the tail to the head. -/
theorem crawl_sees_each_once (i : UInt8) (ntotal : ℕ → ℕ) {q : LruLists} {lists : UInt8 → List ℕ}
    (h : q.Holds ntotal lists) (hoff : ∀ id, crawlerAt i ∉ lists id) (es : List CrawlEvent)
    (hall : Trace.All listStep CrawlEvent.Allowed ⟨lists, q.slabsClsid⟩ es) :
    let s := Trace.run (crawlStepQ i ntotal) (startCrawl i q) es
    ∃ lists', (Trace.run (plainStep ntotal) q es).Holds ntotal lists' ∧ (∀ id, crawlerAt i ∉ lists' id) ∧
      (s.running = true → ∃ l r, lists' i = l ++ r ∧
        s.q.Holds ntotal (update lists' i (l ++ crawlerAt i :: r))) ∧
      (s.running = false → s.q.Holds ntotal lists' ∧
        (∀ a ∈ lists i, CrawlEvent.unlink a ∉ es → s.seen.count a = 1) ∧
        s.seen.filter (stays (lists i) es) = ((lists i).filter (stays (lists i) es)).reverse) := by
  intro s
  have hcrawling : Crawling i ntotal (lists i) es (Trace.run listStep ⟨lists, q.slabsClsid⟩ es) s :=
    (crawling_start (a := ⟨lists, q.slabsClsid⟩) h (fun _ _ => rfl) hoff).run es hall
  obtain ⟨hholds, -⟩ := holds_plainRun (a := ⟨lists, q.slabsClsid⟩) h (fun _ _ => rfl) es hall
  refine ⟨_, hholds, hcrawling.off, fun hrunning => ?_, fun hended => ?_⟩
  · obtain ⟨l, r, hlist, hplace, -⟩ := hcrawling.place hrunning
    exact ⟨l, r, hlist, hplace⟩
  · obtain ⟨hplace, hseen⟩ := hcrawling.ended hended
    refine ⟨hplace, fun a ha hstay => ?_, hseen⟩
    have hstays : stays (lists i) es a = true := decide_eq_true ⟨ha, hstay⟩
    rw [← count_filter hstays, hseen, count_reverse, count_filter hstays]
    exact count_eq_one_of_mem (h.nodup i) ha

/-- Two items are on list 1; while the crawler is on its way a third is linked and the first is taken out. -/
theorem crawl_sees_each_once_three :
    let q := Trace.run (plainStep fun _ => 50) LruLists.init [.assign 300 1, .link 300, .assign 301 1, .link 301]
    let es : List CrawlEvent := [.crawl, .assign 302 1, .link 302, .unlink 300, .crawl, .crawl, .crawl]
    let s := Trace.run (crawlStepQ 1 fun _ => 50) (startCrawl 1 q) es
    s.seen = [300, 301, 302] ∧ s.running = false ∧ s.seen.count 301 = 1 := by
  intro q es s
  have hseen : s.seen = [300, 301, 302] := by rfl
  have hended : s.running = false := by rfl
  have hitem : IsItem 300 ∧ IsItem 301 ∧ IsItem 302 := by decide
  have hempty : ∀ x : ℕ, ∀ id : UInt8, x ∉ (fun _ => [] : UInt8 → List ℕ) id := fun _ _ => not_mem_nil
  obtain ⟨hholds, -⟩ := holds_plainRun (a := ⟨fun _ => [], LruLists.init.slabsClsid⟩) (holds_init fun _ => 50)
    (fun _ _ => rfl) [.assign 300 1, .link 300, .assign 301 1, .link 301]
    ⟨⟨hitem.1, hempty 300⟩, ⟨hitem.1, hempty 300⟩, ⟨hitem.2.1, not_mem_update (by decide) (hempty 301) _⟩,
      ⟨hitem.2.1, not_mem_update (by decide) (hempty 301) _⟩, trivial⟩
  obtain ⟨lists, -, -, -, hcrawl⟩ := crawl_sees_each_once 1 (fun _ => 50) hholds
    (not_mem_update (by decide) (not_mem_update (by decide) (hempty 1) _) _) es
    ⟨trivial, ⟨hitem.2.2, not_mem_update (by decide) (not_mem_update (by decide) (hempty 302) _) _⟩,
      ⟨hitem.2.2, not_mem_update (by decide) (not_mem_update (by decide) (hempty 302) _) _⟩,
        ⟨hitem.1, by decide⟩,
      trivial, trivial, trivial, trivial⟩
  exact ⟨hseen, hended, (hcrawl hended).2.1 301 (by decide) (by decide)⟩

end BmcCache
