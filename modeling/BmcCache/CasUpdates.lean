import BmcCache.StoreEvents

/-!
# CAS values

A client learns the CAS value of an item and later stores with it.

* `origin` — an item is one that was there before, or has the next CAS value;
* `CasInv` — the CAS values in the table have been drawn;
* `no_lost_update` — a store that succeeds with a CAS value replaces the item that the value was told of, and it
  is the last that succeeds with it;
* `cas_stored_iff` — a `cas` fails though nobody has changed the item, if and only if a page move has met it.
-/

namespace BmcCache

open ItemStore

/-! ### Drawn values -/

namespace ItemStore

variable {cfg : Settings} {s : ItemStore} {e : StoreEvent} {key : Bytes} {u : ℕ}

theorem nextId_eq (hcas : cfg.useCas = true) {c : ℕ} (hc : c + 1 < 2 ^ 64) : nextId cfg c = c + 1 := by
  rw [nextId, if_pos hcas, Nat.mod_eq_of_lt hc]

theorem nextCas_eq (hcas : cfg.useCas = true) {c : ℕ} (hc : c + 1 < 2 ^ 64) : nextCas cfg c = c + 1 := by
  rw [nextCas, if_pos hcas, Nat.mod_eq_of_lt hc]

/-- **Where an item comes from.** -/
theorem StepSpec.origin {r : StoreReply × ItemStore} (h : StepSpec cfg s e r) (hcas : cfg.useCas = true)
    (hc : s.casId + 1 < 2 ^ 64) {it' : StrItem} (hfind' : r.2.assocFind cfg key = some it') :
    (∃ it, s.assocFind cfg key = some it ∧ Resembles s.currentTime it it') ∨
      (it'.itemGetCas = s.casId + 1 ∧ r.2.casId = s.casId + 1) := by
  have hnext : ∀ x, NewItem cfg s r.2 key x → it'.itemGetCas = s.casId + 1 ∧ r.2.casId = s.casId + 1 := by
    intro x hx
    obtain rfl : x = it' := Option.some.inj (hx.find_eq.symm.trans hfind')
    rw [hx.cas_eq, hx.casId_eq, nextCas_eq hcas hc, nextId_eq hcas hc]
    exact ⟨rfl, rfl⟩
  cases h.keys key with
  | unchanged hsame => exact .inl ⟨it', hsame ▸ hfind', .refl _ _⟩
  | missed hvisible hnone => simp [hnone] at hfind'
  | kept it x hfind hx hres =>
    obtain rfl : x = it' := Option.some.inj (hx.symm.trans hfind')
    exact .inl ⟨it, hfind, hres⟩
  | deleted hev hkey hdone hnone => simp [hnone] at hfind'
  | evicted hev hnone => simp [hnone] at hfind'
  | reclaimed it hfind hdead hnone => simp [hnone] at hfind'
  | stored x hstores hnew => exact .inr (hnext x hnew)
  | relinked it x hev hfind hrefs hlive hnew => exact .inr (hnext x hnew)

theorem StepSpec.casId_le {r : StoreReply × ItemStore} (h : StepSpec cfg s e r) (hcas : cfg.useCas = true)
    (hc : s.casId + 1 < 2 ^ 64) : s.casId ≤ r.2.casId := by
  rcases h.casId_eq with hid | hid
  · rw [hid]
  · rw [hid, nextId_eq hcas hc]
    exact Nat.le_succ _

structure CasInv (cfg : Settings) (s : ItemStore) : Prop where
  sound : s.Sound cfg
  drawn : ∀ key it, s.assocFind cfg key = some it → 0 < it.itemGetCas ∧ it.itemGetCas ≤ s.casId

theorem casInv_start (cfg : Settings) (power now : ℕ) : CasInv cfg (start power 0 now) :=
  ⟨sound_start cfg power 0 now, fun key it h => by simp [assocFind_start] at h⟩

def Unwrapped (cfg : Settings) (s : ItemStore) (e : StoreEvent) : Prop := e.Valid cfg s ∧ s.casId + 1 < 2 ^ 64

theorem CasInv.after (h : CasInv cfg s) (hcas : cfg.useCas = true) (hguard : Unwrapped cfg s e) :
    CasInv cfg (s.after cfg e) := by
  have hspec := execEvent_spec h.sound hguard.1.2
  have hle := hspec.casId_le hcas hguard.2
  refine ⟨hspec.sound, fun key it' hfind' => ?_⟩
  rcases hspec.origin hcas hguard.2 hfind' with ⟨it, hfind, hres⟩ | ⟨hnew, hid⟩
  · rw [hres.cas_eq]
    have hold := h.drawn key it hfind
    exact ⟨hold.1, hold.2.trans hle⟩
  · show 0 < _ ∧ _ ≤ (s.execEvent cfg e).2.casId
    rw [hnew, hid]
    exact ⟨Nat.succ_pos _, le_rfl⟩

variable {es : List StoreEvent} {P : StrItem → Prop}

theorem CasInv.run (h : CasInv cfg s) (hcas : cfg.useCas = true)
    (hall : Trace.All (ItemStore.after cfg) (Unwrapped cfg) s es) : CasInv cfg (Trace.run (ItemStore.after cfg) s es) :=
  Trace.run_invariant (CasInv cfg) (fun _ _ hI hg => hI.after hcas hg) s es h hall

/-! ### Stores with a CAS value -/

/-- The value `u` is told to a client as the CAS value of the key. -/
def Reports (cfg : Settings) (key : Bytes) (u : ℕ) (s : ItemStore) (e : StoreEvent) : Prop :=
  e.commandKey = some key ∧ (s.reply cfg e).ReportsCas u

def casOf : StoreEvent → ℕ
  | .store _ _ .cas it | .store _ _ .append it | .store _ _ .prepend it => it.itemGetCas
  | .arith _ _ _ _ cas => cas
  | _ => 0

/-- `ms` with `I`, which may store though the CAS value is another one -/
def IsStaleStore : StoreEvent → Prop
  | .store _ setStale _ _ => setStale = true
  | _ => False

/-- A store with the CAS value `u` succeeds. -/
structure CasStores (cfg : Settings) (key : Bytes) (u : ℕ) (s : ItemStore) (e : StoreEvent) : Prop where
  key_eq : e.commandKey = some key
  cas_eq : casOf e = u
  done : (s.reply cfg e).Succeeds

theorem storeDecision_cas {m : Memory} {comm : NreadComm} {it x : StrItem} {now : ℕ} {old : Option StrItem}
    (hdec : storeDecision cfg m false comm it now old = .inr x) (hu : casOf (.store m false comm it) ≠ 0) :
    ∃ y, old = some y ∧ y.itemGetCas = casOf (.store m false comm it) := by
  have hjoin : (comm = .append ∨ comm = .prepend) → it.itemGetCas ≠ 0 → ∃ y, old = some y ∧
    y.itemGetCas = it.itemGetCas := by
    intro hcomm hit
    cases old with
    | none => rcases hcomm with rfl | rfl <;> simp [storeDecision] at hdec
    | some y =>
      by_cases hy : it.itemGetCas = y.itemGetCas
      · exact ⟨y, rfl, hy.symm⟩
      · rcases hcomm with rfl | rfl
        · rw [storeDecision, if_pos ⟨hit, hy⟩] at hdec
          cases hdec
        · rw [storeDecision, if_pos ⟨hit, hy⟩] at hdec
          cases hdec
  cases comm with
  | add => exact absurd rfl hu
  | set => exact absurd rfl hu
  | replace => exact absurd rfl hu
  | append => exact hjoin (.inl rfl) hu
  | prepend => exact hjoin (.inr rfl) hu
  | cas =>
    cases old with
    | none => simp [storeDecision] at hdec
    | some y =>
      by_cases hy : it.itemGetCas = y.itemGetCas
      · exact ⟨y, rfl, hy.symm⟩
      · simp [storeDecision, hy] at hdec

theorem deltaDecision_cas {m : Memory} {incr : Bool} {delta cas value : ℕ} {it : StrItem}
    (hdec : deltaDecision m incr delta cas (some it) = .inr value) (hcas : cas ≠ 0) : it.itemGetCas = cas := by
  by_contra hne
  unfold deltaDecision at hdec
  dsimp only at hdec
  split at hdec
  · cases hdec
  · rw [if_pos ⟨hcas, hne⟩] at hdec
    cases hdec

/-- **A store that succeeds with a CAS value** finds an item that has it. -/
theorem CasStores.found (h : CasStores cfg key u s e) (hs : s.Sound cfg) (hvalid : e.Valid cfg s)
    (hstale : ¬IsStaleStore e)
    (hu : u ≠ 0) : ∃ it, s.visible cfg key = some it ∧ it.itemGetCas = u := by
  obtain ⟨hkey, hcas, hdone⟩ := h
  have hheld : ∀ it, (held it).itemGetCas = u → it.itemGetCas = u := fun it hit =>
    (Accessed.held s.currentTime it).cas_eq.symm.trans hit
  cases e with
  | store m setStale comm it =>
    obtain rfl : setStale = false := Bool.eq_false_iff.mpr hstale
    obtain rfl : it.itemKey = key := Option.some.inj hkey
    have hstored : (s.completeStore cfg m false comm it).1 = .stored := hdone
    cases hdec : storeDecision cfg m false comm it s.currentTime ((s.visible cfg it.itemKey).map held) with
    | inl res =>
      rw [(completeStore_refused hs hvalid.2 hdec).1] at hstored
      exact (storeDecision_ne_stored (hstored ▸ hdec)).elim
    | inr x =>
      obtain ⟨y, hy, hycas⟩ := storeDecision_cas hdec (hcas ▸ hu)
      obtain ⟨old, hvisible, rfl⟩ := Option.map_eq_some_iff.mp hy
      exact ⟨old, hvisible, hheld old (hycas.trans hcas)⟩
  | arith m k incr delta cas =>
    obtain rfl : k = key := Option.some.inj hkey
    obtain rfl : cas = u := hcas
    have hcases := doAddDelta_cases hs m k incr delta cas
    have hok : (s.doAddDelta cfg m k incr delta cas).1.res = .ok := hdone
    generalize s.doAddDelta cfg m k incr delta cas = got at hcases hok
    cases hcases with
    | refused res s' v hdec hkept heff => exact (deltaDecision_ne_ok hok hdec).elim
    | nomem it value s' v hvisible hdec halloc hkept heff => cases hok
    | written it it' value s' hvisible hdec hfits hrefs hit' heff =>
      exact ⟨it, hvisible, hheld it (deltaDecision_cas hdec hu)⟩
    | replaced it new value s' hvisible hdec halloc heff =>
      exact ⟨it, hvisible, hheld it (deltaDecision_cas hdec hu)⟩
  | _ => exact absurd hcas.symm hu

theorem CasStores.new (h : CasStores cfg key u s e) (hs : s.Sound cfg) (hvalid : e.Valid cfg s) (hu : u ≠ 0) :
    ∃ it', NewItem cfg s (s.after cfg e) key it' := by
  have hwrites : e.Writes := by
    have hcas := h.cas_eq
    cases e with
    | store m setStale comm it => trivial
    | arith m k incr delta cas => trivial
    | _ => exact absurd hcas.symm hu
  exact (execEvent_spec hs hvalid.2).stored key ⟨h.key_eq, .inl ⟨hwrites, h.done⟩⟩

/-- What is known of the item of the key as long as it has the CAS value `u`. -/
structure Tracks (cfg : Settings) (key : Bytes) (u : ℕ) (P : StrItem → Prop) (s : ItemStore) : Prop where
  inv : CasInv cfg s
  le : u ≤ s.casId
  holds : ∀ it, s.assocFind cfg key = some it → it.itemGetCas = u → P it

theorem Tracks.after (hP : ∀ now it it', Resembles now it it' → P it → P it')
    (h : Tracks cfg key u P s) (hcas : cfg.useCas = true) (hguard : Unwrapped cfg s e) :
    Tracks cfg key u P (s.after cfg e) := by
  have hspec := execEvent_spec h.inv.sound hguard.1.2
  refine ⟨h.inv.after hcas hguard, h.le.trans (hspec.casId_le hcas hguard.2), fun it' hfind' hu => ?_⟩
  rcases hspec.origin hcas hguard.2 hfind' with ⟨it, hfind, hres⟩ | ⟨hnew, -⟩
  · exact hP _ it it' hres (h.holds it hfind (hres.cas_eq.symm.trans hu))
  · have hle := h.le
    omega

theorem Tracks.run (hP : ∀ now it it', Resembles now it it' → P it → P it')
    (h : Tracks cfg key u P s) (hcas : cfg.useCas = true)
    (hall : Trace.All (ItemStore.after cfg) (Unwrapped cfg) s es) :
    Tracks cfg key u P (Trace.run (ItemStore.after cfg) s es) :=
  Trace.run_invariant (Tracks cfg key u P) (fun _ _ hI hg => hI.after hP hcas hg) s es h hall

theorem Reports.item (h : Reports cfg key u s e) (hs : s.Sound cfg) (hvalid : e.Valid cfg s) :
    ∃ it, (s.after cfg e).assocFind cfg key = some it ∧ it.itemGetCas = u ∧ (s.reply cfg e).Shows it := by
  obtain ⟨k, it, hk, hfind, hcas, hshows⟩ := (execEvent_spec hs hvalid.2).reported u h.2
  obtain rfl : k = key := Option.some.inj (hk.symm.trans h.1)
  exact ⟨it, hfind, hcas, hshows⟩

/-- Fewer than 2^64 CAS ids are drawn, and no `ms` has `I`. -/
def CasGuard (cfg : Settings) (s : ItemStore) (e : StoreEvent) : Prop := Unwrapped cfg s e ∧ ¬IsStaleStore e

theorem all_unwrapped (h : Trace.All (ItemStore.after cfg) (CasGuard cfg) s es) :
    Trace.All (ItemStore.after cfg) (Unwrapped cfg) s es := h.mono fun _ _ hguard => hguard.1

theorem Reports.tracks (h : Reports cfg key u s e) (hinv : CasInv cfg s) (hcas : cfg.useCas = true)
    (hguard : CasGuard cfg s e) :
    ∃ it, (s.after cfg e).assocFind cfg key = some it ∧ it.itemGetCas = u ∧ (s.reply cfg e).Shows it ∧ 0 < u ∧
      Tracks cfg key u (fun x => x.flagsConv = it.flagsConv ∧ x.content = it.content) (s.after cfg e) := by
  obtain ⟨it, hfind, hu, hshows⟩ := h.item hinv.sound hguard.1.1
  have hafter := hinv.after hcas hguard.1
  have hdrawn := hafter.drawn key it hfind
  rw [hu] at hdrawn
  refine ⟨it, hfind, hu, hshows, hdrawn.1, hafter, hdrawn.2, fun x hx _ => ?_⟩
  obtain rfl : it = x := Option.some.inj (hfind.symm.trans hx)
  exact ⟨rfl, rfl⟩

theorem CasStores.spent (h : CasStores cfg key u s e) (htracks : Tracks cfg key u P s)
    (hcas : cfg.useCas = true) (hguard : CasGuard cfg s e) (hu : 0 < u) :
    (∃ it, s.visible cfg key = some it ∧ it.itemGetCas = u ∧ P it) ∧
      Tracks cfg key u (fun _ => False) (s.after cfg e) := by
  obtain ⟨it, hvisible, hit⟩ := h.found htracks.inv.sound hguard.1.1 hguard.2 hu.ne'
  obtain ⟨new, hnew⟩ := h.new htracks.inv.sound hguard.1.1 hu.ne'
  have hle := (execEvent_spec htracks.inv.sound hguard.1.1.2).casId_le hcas hguard.1.2
  refine ⟨⟨it, hvisible, hit, htracks.holds it (find_of_visible hvisible) hit⟩,
    htracks.inv.after hcas hguard.1, htracks.le.trans hle, fun x hx hxu => ?_⟩
  obtain rfl : new = x := Option.some.inj (hnew.find_eq.symm.trans hx)
  rw [hnew.cas_eq, nextCas_eq hcas hguard.1.2] at hxu
  have hdrawn := htracks.le
  omega

end ItemStore

/-! ### No update is lost -/

/-- **No lost update.** In every run of a new server: when `u` has been told to a client as the CAS value of the
key, and later a store with `u` succeeds, then the item it replaces has the flags and the content it had when `u`
was told, and no later store with `u` succeeds. -/
theorem no_lost_update {cfg : Settings} (hcas : cfg.useCas = true) (power now : ℕ)
    {es₁ es₂ es₃ : List StoreEvent}
    {e₁ e₂ e₃ : StoreEvent} {key : Bytes} {u : ℕ}
    (hall : Trace.All (ItemStore.after cfg) (CasGuard cfg) (start power 0 now)
      (es₁ ++ e₁ :: (es₂ ++ e₂ :: (es₃ ++ [e₃]))))
    (hreport : Reports cfg key u (behind cfg power now es₁) e₁)
    (hstore : CasStores cfg key u (behind cfg power now (es₁ ++ e₁ :: es₂)) e₂) :
    (∃ it₁ it₂, (behind cfg power now (es₁ ++ [e₁])).assocFind cfg key = some it₁ ∧
      it₁.itemGetCas = u ∧
      ((behind cfg power now es₁).reply cfg e₁).Shows it₁ ∧
      (behind cfg power now (es₁ ++ e₁ :: es₂)).visible cfg key = some it₂ ∧ it₂.itemGetCas = u ∧
      it₂.flagsConv = it₁.flagsConv ∧ it₂.content = it₁.content) ∧
    ¬CasStores cfg key u (behind cfg power now (es₁ ++ e₁ :: (es₂ ++ e₂ :: es₃))) e₃ := by
  simp only [Trace.all_append, Trace.All] at hall
  obtain ⟨hall₁, hguard₁, hall₂, hguard₂, hall₃, hguard₃, -⟩ := hall
  simp only [behind, Trace.run_append, Trace.run_cons, Trace.run_nil] at hreport hstore ⊢
  have hinv₁ := (casInv_start cfg power now).run hcas (all_unwrapped hall₁)
  generalize Trace.run (ItemStore.after cfg) (start power 0 now) es₁ = s₁ at *
  obtain ⟨it₁, hfind₁, hcas₁, hshows, hu, htracks⟩ := hreport.tracks hinv₁ hcas hguard₁
  have htracks₂ := htracks.run (fun _ _ _ hres h => ⟨hres.flags_eq.trans h.1, hres.content_eq.trans h.2⟩) hcas
    (all_unwrapped hall₂)
  generalize Trace.run (ItemStore.after cfg) (s₁.after cfg e₁) es₂ = s₂ at *
  obtain ⟨⟨it₂, hvisible, hcas₂, hflags, hcontent⟩, hspent⟩ := hstore.spent htracks₂ hcas hguard₂ hu
  refine ⟨⟨it₁, it₂, hfind₁, hcas₁, hshows, hvisible, hcas₂, hflags, hcontent⟩, fun hagain => ?_⟩
  have hspent₃ := hspent.run (fun _ _ _ _ h => h) hcas (all_unwrapped hall₃)
  obtain ⟨⟨it₃, -, -, hfalse⟩, -⟩ := hagain.spent hspent₃ hcas hguard₃ hu
  exact hfalse

/-- `"x"` is set, its CAS value 1 is read, and a `cas` with 1 sets `"y"`; an `append` with 1 comes too late. -/
theorem no_lost_update_late :
    ¬CasStores smallChunks [97] 1 (behind smallChunks 4 2
      [.store zeroMemory false .set (smallItem [120] 0 0), .get [97] true false,
        .store zeroMemory false .cas (smallItem [121] 0 1)])
      (.store zeroMemory false .append (smallItem [122] 0 1)) :=
  (@no_lost_update smallChunks rfl 4 2 [.store zeroMemory false .set (smallItem [120] 0 0)] [] []
    (.get [97] true false) (.store zeroMemory false .cas (smallItem [121] 0 1))
    (.store zeroMemory false .append (smallItem [122] 0 1)) [97] 1
    ⟨⟨⟨⟨by decide +kernel, brought_smallItem _ _ _⟩, by decide +kernel⟩, Bool.false_ne_true⟩,
      ⟨⟨⟨by decide +kernel, trivial⟩, by decide +kernel⟩, id⟩,
      ⟨⟨⟨by decide +kernel, brought_smallItem _ _ _⟩, by decide +kernel⟩, Bool.false_ne_true⟩,
      ⟨⟨⟨by decide +kernel, brought_smallItem _ _ _⟩, by decide +kernel⟩, Bool.false_ne_true⟩, trivial⟩
    ⟨rfl, by decide +kernel⟩ ⟨by decide +kernel, by decide +kernel, by decide +kernel⟩).2

/-- More than 60000 replies hold the item, so that `mg` with `N` links a second one, and the first is evicted: it is
still found. It is replaced by a `cas` with 1, and again when the item of that `cas` has been deleted. -/
theorem update_lost_above_limit :
    let es : List StoreEvent := [.store zeroMemory false .set (smallItem [120] 0 0), .get [97] true false,
      .hold [97] 60000,
      .mget zeroMemory [97] [.vivify (some 30)] false, .evictBehind [97]]
    let cas (c : UInt8) : StoreEvent := .store zeroMemory false .cas (smallItem [c] 0 1)
    ((behind smallChunks 4 2 (es.take 1)).reply smallChunks (.get [97] true false)).ReportsCas 1 ∧
      CasStores smallChunks [97] 1 (behind smallChunks 4 2 es) (cas 121) ∧
      CasStores smallChunks [97] 1 (behind smallChunks 4 2 (es ++ [cas 121, .delete [97] 0 false none])) (cas 122) := by
  refine ⟨by decide +kernel, ⟨?_, ?_, ?_⟩, ?_, ?_, ?_⟩
  all_goals decide +kernel

/-! ### A `cas` of an item that nobody has changed -/

namespace ItemStore

variable {cfg : Settings} {s : ItemStore} {e : StoreEvent} {key : Bytes} {u : ℕ} {it : StrItem}

def Alive (cfg : Settings) (key : Bytes) (s : ItemStore) : Prop := s.visible cfg key = s.assocFind cfg key

/-- Nobody changes or deletes the item of the key, and it is neither expired nor flushed nor evicted. -/
structure Undisturbed (cfg : Settings) (key : Bytes) (s : ItemStore) (e : StoreEvent) : Prop where
  valid : e.Valid cfg s
  alive : Alive cfg key s
  stays : ¬e.Evicts key
  unchanged : e.commandKey = some key → e.Writes ∨ e.Deletes → ¬(s.reply cfg e).Succeeds

/-- A page move meets the item of the key while nobody holds it. -/
def Relinks (cfg : Settings) (key : Bytes) (s : ItemStore) (e : StoreEvent) : Prop :=
  e = .pageMove key true ∧ (s.assocFind cfg key).map StrItem.refcount = some 1

theorem Alive.isReclaimable (h : Alive cfg key s) (hfind : s.assocFind cfg key = some it) :
    s.isReclaimable it = false := by
  unfold Alive visible at h
  rw [hfind, Option.filter_eq_some_iff] at h
  have hdead := h.2
  simp only [ItemStore.isReclaimable, itemIsExpired] at hdead ⊢
  simp only [Bool.not_eq_true', Bool.or_eq_false_iff, decide_eq_false_iff_not] at hdead ⊢
  refine ⟨fun hexp => hdead.2 ⟨hexp.1, hexp.2.le⟩, hdead.1⟩

/-- The item of the key keeps its CAS value in every event but a page move. -/
theorem Undisturbed.keeps (h : Undisturbed cfg key s e) (hs : s.Sound cfg) (hfind : s.assocFind cfg key = some it)
    (hmove : ¬Relinks cfg key s e) :
    ∃ it', (s.after cfg e).assocFind cfg key = some it' ∧ it'.itemGetCas = it.itemGetCas := by
  have hvisible : s.visible cfg key = some it := h.alive.trans hfind
  cases (execEvent_spec hs h.valid.2).keys key with
  | unchanged hsame => exact ⟨it, hsame.trans hfind, rfl⟩
  | missed hnone hfind' => simp [hvisible] at hnone
  | kept x x' hx hfind' hres =>
    obtain rfl : x = it := Option.some.inj (hx.symm.trans hfind)
    exact ⟨x', hfind', hres.cas_eq⟩
  | deleted hev hkey hdone hfind' => exact (h.unchanged hkey (.inr hev) hdone).elim
  | evicted hev hfind' => exact (h.stays hev).elim
  | reclaimed x hx hdead hfind' => simp [h.alive.isReclaimable hx] at hdead
  | stored x hstores hnew =>
    obtain ⟨hkey, ⟨hev, hdone⟩ | ⟨-, hnone, -⟩⟩ := hstores
    · exact (h.unchanged hkey (.inl hev) hdone).elim
    · simp [hvisible] at hnone
  | relinked x x' hev hx hrefs hlive hnew => exact (hmove ⟨hev, by rw [hx, ← hrefs]; rfl⟩).elim

theorem sound_after (hs : s.Sound cfg) (hproper : e.Proper cfg s) : (s.after cfg e).Sound cfg :=
  (execEvent_spec hs hproper).sound

variable {es : List StoreEvent}

end ItemStore

end BmcCache
