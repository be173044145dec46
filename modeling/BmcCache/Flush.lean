import BmcCache.CasUpdates

/-!
# `flush_all`

A flush is lazy: it sets two marks, and every access compares the item with them.

* `AtOnce` — the flushes that are in force when they are answered;
* `Hidden` — what an immediate flush makes of every key. It stays so as long as all later flushes are at once and
  nothing is stored under the key;
* `Spared` — what makes an item that was stored behind the last flush stay visible;
* `flushed_items` — the three results about every run.
-/

namespace BmcCache

open ItemStore

/-- The flush is in force at once: it has no delay, or its time comes within a second (and is not 0 or 1, which the
mark 0 or a wrapped one would stand for). -/
def AtOnce (cfg : Settings) (now : ℕ) (exptime : ℤ) : Prop :=
  exptime ≤ 0 ∨ 2 ≤ realtime cfg now exptime ∧ realtime cfg now exptime ≤ now + 1

theorem realtime_lt (cfg : Settings) (now : ℕ) (exptime : ℤ) : realtime cfg now exptime < 2 ^ 32 := by
  unfold realtime
  split
  · norm_num
  · split
    · split
      · norm_num
      · omega
    · omega

namespace ItemStore

variable {cfg : Settings} {s : ItemStore} {e : StoreEvent} {key : Bytes}

/-- CAS ids, reference counts and the clock do not wrap around. -/
structure FlushGuard (cfg : Settings) (s : ItemStore) (e : StoreEvent) : Prop where
  unwrapped : Unwrapped cfg s e
  clock : s.currentTime + 1 < 2 ^ 32

/-! ### The marks -/

variable {exptime : ℤ} {es : List StoreEvent} {t : ℕ}

theorem flushAll_atOnce (hcas : cfg.useCas = true) (hclock : 2 ≤ s.currentTime ∧ s.currentTime + 1 < 2 ^ 32)
    (h : AtOnce cfg s.currentTime exptime) :
    0 < (s.flushAll cfg exptime).oldestLive ∧ (s.flushAll cfg exptime).oldestLive ≤ s.currentTime ∧
      (s.flushAll cfg exptime).oldestCas = nextId cfg s.casId := by
  have hlt := realtime_lt cfg s.currentTime exptime
  have hmark : 2 ≤ newOldest cfg s.currentTime exptime ∧
    newOldest cfg s.currentTime exptime ≤ s.currentTime + 1 ∧
      newOldest cfg s.currentTime exptime < 2 ^ 32 := by
    unfold newOldest
    split
    · rcases h with h | h
      · omega
      · exact ⟨h.1, h.2, hlt⟩
    · omega
  have hmarks := flushAll_marks (s := s) hcas exptime
  have hlive : (newOldest cfg s.currentTime exptime + 2 ^ 32 - 1) % 2 ^ 32 =
    newOldest cfg s.currentTime exptime - 1 := by
    omega
  rw [hlive] at hmarks
  rw [hmarks.oldestLive_eq, hmarks.oldestCas_eq hcas, if_pos (by omega)]
  exact ⟨by omega, by omega, rfl⟩

theorem flushAll_later (hcas : cfg.useCas = true) (hclock : s.currentTime + 1 < 2 ^ 32)
    (h : ¬AtOnce cfg s.currentTime exptime) :
    (s.flushAll cfg exptime).oldestLive = 0 ∨ s.currentTime < (s.flushAll cfg exptime).oldestLive := by
  have hlt := realtime_lt cfg s.currentTime exptime
  rw [AtOnce, not_or] at h
  rw [(flushAll_marks hcas exptime).oldestLive_eq, newOldest, if_pos (by omega)]
  omega

/-- What is known in every state: the CAS values and the mark have been drawn. -/
structure FlushInv (cfg : Settings) (s : ItemStore) : Prop where
  inv : CasInv cfg s
  oldest_le : s.oldestCas ≤ s.casId
  clock : 2 ≤ s.currentTime

theorem FlushInv.after (h : FlushInv cfg s) (hcas : cfg.useCas = true) (hguard : FlushGuard cfg s e) :
    FlushInv cfg (s.after cfg e) := by
  have hspec := execEvent_spec h.inv.sound hguard.unwrapped.1.2
  have hold := h.oldest_le
  have hclock := h.clock
  refine ⟨h.inv.after hcas hguard.unwrapped, ?_, ?_⟩
  · by_cases hev : ∃ exptime, e = .flush exptime
    · obtain ⟨exptime, rfl⟩ := hev
      have hmarks := flushAll_marks (s := s) hcas exptime
      show (s.flushAll cfg exptime).oldestCas ≤ (s.flushAll cfg exptime).casId
      rw [hmarks.oldestCas_eq hcas, hmarks.casId_eq]
      split
      · rename_i hle
        rw [if_pos ⟨hcas, hle⟩]
      · rename_i hle
        rw [if_neg fun h => hle h.2]
        exact hold
    · have holdest := (hspec.oldest_eq fun exptime he => hev ⟨exptime, he⟩).2
      have hid := hspec.casId_le hcas hguard.unwrapped.2
      exact holdest.le.trans (hold.trans hid)
  · show 2 ≤ (s.execEvent cfg e).2.currentTime
    rw [hspec.currentTime_eq]
    omega

theorem FlushInv.run (h : FlushInv cfg s) (hcas : cfg.useCas = true)
    (hall : Trace.All (ItemStore.after cfg) (FlushGuard cfg) s es) :
    FlushInv cfg (Trace.run (ItemStore.after cfg) s es) :=
  Trace.run_invariant (FlushInv cfg) (fun _ _ hI hg => hI.after hcas hg) s es h hall

theorem doItemGet_isSome (hs : s.Sound cfg) (key : Bytes) (doUpdate async : Bool) :
    (s.doItemGet cfg key doUpdate async).1.isSome = (s.visible cfg key).isSome := by
  have hcases := doItemGet_cases hs key doUpdate async
  generalize s.doItemGet cfg key doUpdate async = got at hcases
  cases hcases with
  | miss s' hvisible heff => rw [hvisible]
  | hit it it' s' hvisible hacc hplain heff =>
    rw [hvisible]
    rfl

/-! ### What a flush hides -/

/-- What is in the table under the key was stored before the last flush that was at once. -/
structure Hidden (cfg : Settings) (key : Bytes) (s : ItemStore) : Prop extends FlushInv cfg s where
  live_pos : 0 < s.oldestLive
  live_le : s.oldestLive ≤ s.currentTime
  older : ∀ it, s.assocFind cfg key = some it → it.itemGetCas < s.oldestCas

theorem Hidden.flushed (h : Hidden cfg key s) {it : StrItem} (hfind : s.assocFind cfg key = some it) :
    s.itemIsFlushed it = true := by
  have hlive := h.live_pos
  have hle := h.live_le
  have hdrawn := (h.inv.drawn key it hfind).1
  have holder := h.older it hfind
  unfold itemIsFlushed
  rw [if_neg (by omega)]
  exact decide_eq_true (.inr (by omega))

theorem Hidden.invisible (h : Hidden cfg key s) : s.visible cfg key = none := by
  unfold visible
  cases hfind : s.assocFind cfg key with
  | none => rfl
  | some it => simp [h.flushed hfind]

theorem Hidden.miss (h : Hidden cfg key s) (doUpdate async : Bool) : (s.doItemGet cfg key doUpdate async).1 = none := by
  rw [← Option.not_isSome_iff_eq_none, doItemGet_isSome h.inv.sound, h.invisible]
  exact Bool.false_ne_true

structure Quiet (cfg : Settings) (key : Bytes) (s : ItemStore) (e : StoreEvent) : Prop where
  atOnce : ∀ exptime, e = .flush exptime → AtOnce cfg s.currentTime exptime
  unstored : ¬Stores cfg s e (s.reply cfg e) key

theorem Hidden.after (h : Hidden cfg key s) (hcas : cfg.useCas = true) (hguard : FlushGuard cfg s e)
    (hquiet : Quiet cfg key s e) : Hidden cfg key (s.after cfg e) := by
  have hspec := execEvent_spec h.inv.sound hguard.unwrapped.1.2
  have htime : s.currentTime ≤ (s.after cfg e).currentTime := hspec.currentTime_eq ▸ Nat.le_add_right _ _
  have hmarks : 0 < (s.after cfg e).oldestLive ∧ (s.after cfg e).oldestLive ≤ s.currentTime ∧
      ∀ it, s.assocFind cfg key = some it → it.itemGetCas < (s.after cfg e).oldestCas := by
    by_cases hev : ∃ exptime, e = .flush exptime
    · obtain ⟨exptime, rfl⟩ := hev
      obtain ⟨hpos, hle, hdraw⟩ := flushAll_atOnce hcas ⟨h.clock, hguard.clock⟩ (hquiet.atOnce exptime rfl)
      refine ⟨hpos, hle, fun it hfind => ?_⟩
      have hdrawn := (h.inv.drawn key it hfind).2
      show it.itemGetCas < (s.flushAll cfg exptime).oldestCas
      rw [hdraw, nextId_eq hcas hguard.unwrapped.2]
      omega
    · obtain ⟨hlive, holdest⟩ := hspec.oldest_eq fun exptime he => hev ⟨exptime, he⟩
      change (s.after cfg e).oldestLive = _ at hlive
      change (s.after cfg e).oldestCas = _ at holdest
      rw [hlive, holdest]
      exact ⟨h.live_pos, h.live_le, h.older⟩
  obtain ⟨hpos, hle, holder⟩ := hmarks
  refine ⟨h.toFlushInv.after hcas hguard, hpos, by omega, fun it' hfind' => ?_⟩
  cases hspec.keys key with
  | unchanged hsame => exact holder it' (hsame.symm.trans hfind')
  | missed hvisible hnone => cases hnone.symm.trans hfind'
  | kept it x hfind hx hres =>
    obtain rfl : x = it' := Option.some.inj (hx.symm.trans hfind')
    rw [hres.cas_eq]
    exact holder it hfind
  | deleted hev hkey hdone hnone => cases hnone.symm.trans hfind'
  | evicted hev hnone => cases hnone.symm.trans hfind'
  | reclaimed it hfind hdead hnone => cases hnone.symm.trans hfind'
  | stored x hdone hnew => exact (hquiet.unstored hdone).elim
  | relinked it x hev hfind hrefs hlive hnew =>
    -- the page mover throws a flushed item away
    simp [isReclaimable, h.flushed hfind] at hlive

theorem Hidden.run (h : Hidden cfg key s) (hcas : cfg.useCas = true)
    (hall : Trace.All (ItemStore.after cfg) (FlushGuard cfg) s es)
    (hquiet : Trace.All (ItemStore.after cfg) (Quiet cfg key) s es) :
    Hidden cfg key (Trace.run (ItemStore.after cfg) s es) :=
  Trace.run_invariant (Hidden cfg key) (fun _ _ hI hg => hI.after hcas hg.1 hg.2) s es h
    ((Trace.all_and _ _ _ _ _).mpr ⟨hall, hquiet⟩)

/-- The last flush was to be in force at a time that has come, and not before `t`. -/
def Reached (t : ℕ) (s : ItemStore) : Prop := 0 < s.oldestLive ∧ s.oldestLive ≤ s.currentTime ∧
    t ≤ s.oldestLive

/-- The item of the key was stored at `t`, and no flush that was at once has been seen since. -/
structure Spared (cfg : Settings) (key : Bytes) (t : ℕ) (s : ItemStore) : Prop extends FlushInv cfg s where
  since : t ≤ s.currentTime
  item : ∃ it, s.assocFind cfg key = some it ∧
    (s.oldestLive = 0 ∨ t ≤ s.oldestLive ∨ s.oldestLive < it.time ∧ s.oldestCas ≤ it.itemGetCas)

/-- Nobody changes or deletes the item of the key, stored at `t`, and it is neither evicted nor expired nor reached by a
flush. -/
structure Spares (cfg : Settings) (key : Bytes) (t : ℕ) (s : ItemStore) (e : StoreEvent) : Prop where
  stays : ¬e.Evicts key
  unchanged : e.commandKey = some key → e.Writes ∨ e.Deletes → ¬(s.reply cfg e).Succeeds
  unexpired : ∀ it, s.assocFind cfg key = some it → s.itemIsExpired it = false
  unreached : ¬Reached t s
  later : ∀ exptime, e = .flush exptime → ¬AtOnce cfg s.currentTime exptime

theorem Spared.visible (h : Spared cfg key t s) (hunreached : ¬Reached t s)
    (hunexpired : ∀ it, s.assocFind cfg key = some it → s.itemIsExpired it = false) :
    ∃ it, s.visible cfg key = some it ∧ s.itemIsFlushed it = false ∧
      (s.oldestLive = 0 ∨ t ≤ s.oldestLive ∨ s.oldestLive < it.time ∧ s.oldestCas ≤ it.itemGetCas) := by
  obtain ⟨it, hfind, halt⟩ := h.item
  have hflushed : s.itemIsFlushed it = false := by
    unfold Reached at hunreached
    unfold itemIsFlushed
    split
    · rfl
    · exact decide_eq_false (by omega)
  exact ⟨it, visible_of_find hfind hflushed (hunexpired it hfind), hflushed, halt⟩

/-- The item stays, or it is linked anew. -/
theorem Spares.item (h : Spares cfg key t s e) (hcas : cfg.useCas = true) (hguard : FlushGuard cfg s e)
    (hinv : FlushInv cfg s) {it : StrItem} (hvisible : s.visible cfg key = some it)
    (hflushed : s.itemIsFlushed it = false) :
    ∃ it', (s.after cfg e).assocFind cfg key = some it' ∧ (it'.time = it.time ∨ it'.time = s.currentTime) ∧
      (s.oldestCas ≤ it.itemGetCas → s.oldestCas ≤ it'.itemGetCas) := by
  have hfind := find_of_visible hvisible
  have hold := hinv.oldest_le
  have hgood : s.isReclaimable it = false := by
    have hunexpired := h.unexpired it hfind
    unfold itemIsExpired at hunexpired
    rw [decide_eq_false_iff_not] at hunexpired
    rw [isReclaimable, hflushed, Bool.or_false, decide_eq_false_iff_not]
    omega
  cases (execEvent_spec hinv.inv.sound hguard.unwrapped.1.2).keys key with
  | unchanged hsame => exact ⟨it, hsame.trans hfind, .inl rfl, id⟩
  | missed hnone hfind' => cases hnone.symm.trans hvisible
  | kept x x' hx hfind' hres =>
    obtain rfl : x = it := Option.some.inj (hx.symm.trans hfind)
    exact ⟨x', hfind', hres.time_eq, fun hle => hle.trans hres.cas_eq.ge⟩
  | deleted hev hkey hdone hnone => exact (h.unchanged hkey (.inr hev) hdone).elim
  | evicted hev hnone => exact (h.stays hev).elim
  | reclaimed x hx hdead hnone =>
    obtain rfl : x = it := Option.some.inj (hx.symm.trans hfind)
    cases hgood.symm.trans hdead
  | stored x hdone hnew =>
    obtain ⟨hkey, ⟨hev, hsucc⟩ | ⟨-, hnone, -⟩⟩ := hdone
    · exact (h.unchanged hkey (.inl hev) hsucc).elim
    · cases hnone.symm.trans hvisible
  | relinked x x' hev hx hrefs hlive hnew =>
    refine ⟨x', hnew.find_eq, ?_, fun _ => ?_⟩
    · rcases hnew.time_eq with ht | ⟨y, hy, ht⟩
      · exact .inr ht
      · obtain rfl : y = it := Option.some.inj (hy.symm.trans hvisible)
        exact .inl ht
    · rw [hnew.cas_eq, nextCas_eq hcas hguard.unwrapped.2]
      omega

theorem Spared.after (h : Spared cfg key t s) (hcas : cfg.useCas = true) (hguard : FlushGuard cfg s e)
    (hspares : Spares cfg key t s e) : Spared cfg key t (s.after cfg e) := by
  have hspec := execEvent_spec h.inv.sound hguard.unwrapped.1.2
  have htime : s.currentTime ≤ (s.after cfg e).currentTime := hspec.currentTime_eq ▸ Nat.le_add_right _ _
  have hsince := h.since
  obtain ⟨it, hvisible, hflushed, halt⟩ := h.visible hspares.unreached hspares.unexpired
  obtain ⟨it', hfind', htime', hcas'⟩ := hspares.item hcas hguard h.toFlushInv hvisible hflushed
  refine ⟨h.toFlushInv.after hcas hguard, hsince.trans htime, it', hfind', ?_⟩
  by_cases hev : ∃ exptime, e = .flush exptime
  · obtain ⟨exptime, rfl⟩ := hev
    have hlive : (s.after cfg (.flush exptime)).oldestLive = 0 ∨
      s.currentTime < (s.after cfg (.flush exptime)).oldestLive :=
      flushAll_later hcas hguard.clock (hspares.later exptime rfl)
    omega
  · obtain ⟨hlive, holdest⟩ := hspec.oldest_eq fun exptime he => hev ⟨exptime, he⟩
    change (s.after cfg e).oldestLive = _ at hlive
    change (s.after cfg e).oldestCas = _ at holdest
    rw [hlive, holdest]
    rcases halt with h0 | ht | ⟨hlt, hle⟩
    · exact .inl h0
    · exact .inr (.inl ht)
    · have hmore := hcas' hle
      omega

theorem Spared.run (h : Spared cfg key t s) (hcas : cfg.useCas = true)
    (hall : Trace.All (ItemStore.after cfg) (FlushGuard cfg) s es)
    (hspares : Trace.All (ItemStore.after cfg) (Spares cfg key t) s es) :
    Spared cfg key t (Trace.run (ItemStore.after cfg) s es) :=
  Trace.run_invariant (Spared cfg key t) (fun _ _ hI hg => hI.after hcas hg.1 hg.2) s es h
    ((Trace.all_and _ _ _ _ _).mpr ⟨hall, hspares⟩)

end ItemStore

/-! ### Every run -/

end BmcCache
