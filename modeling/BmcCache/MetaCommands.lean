import BmcCache.AddDelta
import BmcCache.RefCounts

/-!
# Retrievals, meta commands, deletions, flushes

The parts of `memcached.c` and `slabs.c` that change items in place, and everything each of them can do.

* `realtime`; `getItem`, `touchItem`, `processMget`, `processDelete`, `flushAll`, `pageMove`;
* `Resembles` — the same item for a client, though its times, its place in the LRU and its marks may have changed;
* `ReadCase`, `MgetCase`, `DeleteCase`, `MarksSet` — everything that a retrieval, `mg`, a deletion and a flush can do.
-/

namespace BmcCache

open ByteBuffer ItemStore

/-! ### Clock values -/

@[simp] abbrev realtimeMaxdelta : ℤ := 60 * 60 * 24 * 30

/-- `realtime`; the sum and the difference are made as `time_t` and cut to 32 bits. -/
def realtime (cfg : Settings) (currentTime : ℕ) (exptime : ℤ) : ℕ :=
  if exptime = 0 then 0
  else if realtimeMaxdelta < exptime then
    if exptime ≤ cfg.processStarted then 1 else ((exptime - cfg.processStarted) % 2 ^ 32).toNat
  else ((exptime + currentTime) % 2 ^ 32).toNat

/-! ### Meta commands -/

/-- A flag of `mg` with its token; `none` is a token that is not a number. -/
inductive MetaFlag where
  /-- `N` -/
  | vivify (token : Option ℤ)
  /-- `T` -/
  | ttl (token : Option ℤ)
  /-- `R` -/
  | recache (token : Option ℤ)
  /-- `l` -/
  | lastAccess
  /-- `h` -/
  | hit
  /-- `u` -/
  | noUpdate
  /-- `O`, and whether its token is short enough -/
  | echo (fits : Bool)
  /-- `k`, `s`, `t`, `c`, `v`, `f`, `q` -/
  | other
  deriving DecidableEq, Repr

/-- `of->locked` -/
def MetaFlag.locks : MetaFlag → Bool
  | .vivify _ | .ttl _ | .recache _ | .lastAccess | .hit => true
  | .noUpdate | .echo _ | .other => false

/-- `of->vivify` -/
def MetaFlag.isVivify : MetaFlag → Bool
  | .vivify _ => true
  | _ => false

/-- The loop of `process_mget_command` over the flags: the item, `won_token`, and whether it went to `error`. -/
structure MgetLoop where
  it : StrItem
  won : Bool
  failed : Bool

/-- One flag; the remaining time of the item and the token of `R` are compared as unsigned numbers. -/
def mgetFlag (cfg : Settings) (now : ℕ) (created : Bool) (st : MgetLoop) (flag : MetaFlag) : MgetLoop :=
  if st.failed then st
  else
    match flag with
    | .ttl none => { st with failed := true }
    | .ttl (some e) => { st with it := { st.it with exptime := realtime cfg now e } }
    | .vivify token =>
      if created then
        match token with
        | none => { st with failed := true }
        | some e => { st with it := { st.it with exptime := realtime cfg now e }, won := true }
      else st
    | .recache token =>
      if st.it.tokenSent = false ∧ created = false ∧ st.it.exptime ≠ 0 then
        match token with
        | none => { st with failed := true }
        | some e => if (st.it.exptime + 2 ^ 32 - now) % 2 ^ 32 < (e % 2 ^ 32).toNat then { st with won := true } else st
      else st
    | .echo fits => if fits then st else { st with failed := true }
    | .lastAccess | .hit | .noUpdate | .other => st

/-- The flags in turn; a stale item whose token has not been sent is won before. -/
def mgetLoop (cfg : Settings) (now : ℕ) (created : Bool) (it : StrItem) (flags : List MetaFlag) : MgetLoop :=
  let st := flags.foldl (mgetFlag cfg now created) ⟨it, it.stale && !it.tokenSent, false⟩
  if st.failed = false ∧ st.won = true then { st with it := { st.it with tokenSent := true } } else st

/-- What `md` with `I` makes of an item. -/
def StrItem.madeStale (it : StrItem) (cas exptime : ℕ) : StrItem :=
  { it.itemSetCas cas with exptime := exptime, stale := true, tokenSent := false }

inductive DeleteResult where
  | deleted
  | notFound
  | exists
  deriving DecidableEq, Repr

namespace ItemStore

/-- A retrieval, with the release of the item when the reply has been sent. -/
def getItem (cfg : Settings) (key : Bytes) (doUpdate async : Bool) (s : ItemStore) : Option StrItem × ItemStore :=
  match s.doItemGet cfg key doUpdate async with
  | (none, s) => (none, s)
  | (some it, s) => (some it, (s.doItemRemove cfg it).2)

/-- `touch`, `gat` and `gats`, with the release of the item. -/
def touchItem (cfg : Settings) (key : Bytes) (exptime : ℤ) (async : Bool) (s : ItemStore) :
    Option StrItem × ItemStore :=
  match s.doItemTouch cfg key (realtime cfg s.currentTime exptime) async with
  | (none, s) => (none, s)
  | (some it, s) => (some it, (s.doItemRemove cfg it).2)

/-- `it->refcount > IT_REFCOUNT_LIMIT`; the counter has 16 bits. -/
def overLimit (it : StrItem) : Bool := decide (itRefcountLimit < it.refcount % 2 ^ 16)

/-- `limited_get` and `limited_get_locked` -/
def limitedGet (cfg : Settings) (key : Bytes) (doUpdate async : Bool) (s : ItemStore) :
    Option StrItem × ItemStore :=
  match s.doItemGet cfg key doUpdate async with
  | (none, s) => (none, s)
  | (some it, s) => if overLimit it then (none, (s.doItemRemove cfg it).2) else (some it, s)

/-- The item that `mg` looks at, and whether it has been created.  An item above the limit counts as none: with `N` a
second item is linked in front of it. -/
def mgetItem (cfg : Settings) (m : Memory) (key : Bytes) (flags : List MetaFlag) (async : Bool) (s : ItemStore) :
    Option (StrItem × Bool) × ItemStore :=
  match s.limitedGet cfg key (!flags.any MetaFlag.locks && !flags.contains .noUpdate) async with
  | (some it, s) => (some (it, false), s)
  | (none, s) =>
    if flags.any MetaFlag.isVivify then
      match doItemAlloc cfg m s.currentTime key 0 (realtime cfg s.currentTime 0) 2 with
      | none => (none, s)
      | some it =>
        let (it, s) := s.doItemLink cfg (it.writeData 0 crlf)
        (some (it, true), s)
    else (none, s)

/-- The delayed bump, and the release of the item when the reply has been sent. -/
def mgetFinish (cfg : Settings) (flags : List MetaFlag) (async : Bool) (it : StrItem) (s : ItemStore) : ItemStore :=
  if flags.any MetaFlag.locks && !flags.contains .noUpdate then
    let (it, s) := s.doItemBump cfg async it
    (s.doItemRemove cfg it).2
  else (s.doItemRemove cfg it).2

/-- `process_mget_command`; on the way to `error` nobody releases the item. -/
def processMget (cfg : Settings) (m : Memory) (key : Bytes) (flags : List MetaFlag) (async : Bool)
    (s : ItemStore) :
    Option MgetLoop × ItemStore :=
  match s.mgetItem cfg m key flags async with
  | (none, s) => (none, s)
  | (some (it, created), s) =>
    let st := mgetLoop cfg s.currentTime created it flags
    let s := s.put cfg st.it
    (some st, if st.failed then s else s.mgetFinish cfg flags async st.it)

/-- `process_delete_command`, `process_bin_delete` and `process_mdelete_command`: a CAS value other than 0 is compared;
with `I` the item is marked as stale and stays. -/
def processDelete (cfg : Settings) (key : Bytes) (cas : ℕ) (stale : Bool) (ttl : Option ℤ) (s : ItemStore) :
    DeleteResult × ItemStore :=
  match s.doItemGet cfg key false false with
  | (none, s) => (.notFound, s)
  | (some it, s) =>
    if cas ≠ 0 ∧ it.itemGetCas ≠ cas then (.exists, (s.doItemRemove cfg it).2)
    else if stale then
      let (c, s) := s.newCas cfg
      let it := it.madeStale c (ttl.elim it.exptime (realtime cfg s.currentTime))
      (.deleted, ((s.put cfg it).doItemRemove cfg it).2)
    else
      let (it, s) := s.doItemUnlink cfg it
      (.deleted, (s.doItemRemove cfg it).2)

/-- `settings.oldest_live` is set; if its time has come, `settings.oldest_cas` is a new CAS id. -/
def setOldestLive (live : ℕ) (s : ItemStore) : ItemStore :=
  let s := { s with oldestLive := live }
  if s.oldestLive ≤ s.currentTime then
    let (cas, s) := s.getCasId
    { s with oldestCas := cas }
  else s

/-- `new_oldest` of `flush_all` -/
def newOldest (cfg : Settings) (now : ℕ) (exptime : ℤ) : ℕ :=
  if 0 < exptime then realtime cfg now exptime else now

/-- `flush_all`, text or binary; `new_oldest - 1` is unsigned. -/
def flushAll (cfg : Settings) (exptime : ℤ) (s : ItemStore) : ItemStore :=
  if cfg.useCas then s.setOldestLive ((newOldest cfg s.currentTime exptime + 2 ^ 32 - 1) % 2 ^ 32)
  else { s with oldestLive := newOldest cfg s.currentTime exptime }

/-- `exptime != 0 && exptime < current_time || item_is_flushed(it)`, the test of the background threads -/
def isReclaimable (it : StrItem) (s : ItemStore) : Bool :=
  decide (it.exptime ≠ 0 ∧ it.exptime < s.currentTime) || s.itemIsFlushed it

/-- `slab_rebalance_move` at an item: if nobody holds it and there is memory, it is copied and linked anew. -/
def pageMove (cfg : Settings) (key : Bytes) (room : Bool) (s : ItemStore) : ItemStore :=
  match s.assocFind cfg key with
  | none => s
  | some it =>
    if it.refcount = 1 then
      if s.isReclaimable it = true ∨ room = false then (s.doItemUnlink cfg it).2
      else (s.doItemReplace cfg it { it with linked := false, refcount := 0 }).2.2
    else s

end ItemStore

/-! ### Items that stay -/

/-- The same item for a client: only its times, its place in the LRU, its references and its marks have changed. -/
structure Resembles (now : ℕ) (it it' : StrItem) : Prop where
  cas_eq : it'.itemGetCas = it.itemGetCas
  flags_eq : it'.flagsConv = it.flagsConv
  content_eq : it'.content = it.content
  time_eq : it'.time = it.time ∨ it'.time = now
  ntotal_eq : it'.itemNtotal = it.itemNtotal

namespace Resembles

variable {now : ℕ} {it it' it'' : StrItem}

theorem refl (now : ℕ) (it : StrItem) : Resembles now it it := ⟨rfl, rfl, rfl, .inl rfl, rfl⟩

theorem trans (h : Resembles now it it') (h' : Resembles now it' it'') : Resembles now it it'' where
  cas_eq := h'.cas_eq.trans h.cas_eq
  flags_eq := h'.flags_eq.trans h.flags_eq
  content_eq := h'.content_eq.trans h.content_eq
  time_eq := by
    rcases h'.time_eq with ht | ht
    · rw [ht]
      exact h.time_eq
    · exact .inr ht
  ntotal_eq := h'.ntotal_eq.trans h.ntotal_eq

theorem of_accessed (h : Accessed now it it') : Resembles now it it' := by
  obtain ⟨time, refcount, lruid, fetched, active, htime, hrefs⟩ := h
  exact ⟨rfl, rfl, rfl, htime, rfl⟩

end Resembles

inductive Marked (it : StrItem) : StrItem → Prop
  | mk (exptime : ℕ) (tokenSent : Bool) : Marked it { it with exptime := exptime, tokenSent := tokenSent }

namespace Marked

variable {it it' it'' : StrItem}

theorem refl (it : StrItem) : Marked it it := .mk it.exptime it.tokenSent

theorem trans (h : Marked it it') (h' : Marked it' it'') : Marked it it'' := by
  obtain ⟨exptime, tokenSent⟩ := h
  obtain ⟨exptime', tokenSent'⟩ := h'
  exact .mk exptime' tokenSent'

theorem resembles (h : Marked it it') (now : ℕ) : Resembles now it it' := by
  obtain ⟨exptime, tokenSent⟩ := h
  exact ⟨rfl, rfl, rfl, .inl rfl, rfl⟩

theorem refcount_eq (h : Marked it it') : it'.refcount = it.refcount := by
  obtain ⟨exptime, tokenSent⟩ := h
  rfl

end Marked

theorem marked_mgetFlag (cfg : Settings) (now : ℕ) (created : Bool) (st : MgetLoop) (flag : MetaFlag) :
    Marked st.it (mgetFlag cfg now created st flag).it := by
  have hsame : Marked st.it st.it := .refl _
  have hexptime : ∀ e, Marked st.it { st.it with exptime := e } := fun e => .mk e st.it.tokenSent
  unfold mgetFlag
  split
  · exact hsame
  cases flag with
  | ttl token =>
    cases token with
    | none => exact hsame
    | some e => exact hexptime _
  | vivify token =>
    dsimp only
    split
    · cases token with
      | none => exact hsame
      | some e => exact hexptime _
    · exact hsame
  | recache token =>
    dsimp only
    split
    · cases token with
      | none => exact hsame
      | some e =>
        dsimp only
        split
        · exact hsame
        · exact hsame
    · exact hsame
  | echo fits =>
    dsimp only
    split
    · exact hsame
    · exact hsame
  | lastAccess => exact hsame
  | hit => exact hsame
  | noUpdate => exact hsame
  | other => exact hsame

theorem marked_foldl (cfg : Settings) (now : ℕ) (created : Bool) (flags : List MetaFlag) (st : MgetLoop) :
    Marked st.it (flags.foldl (mgetFlag cfg now created) st).it := by
  induction flags generalizing st with
  | nil => exact .refl _
  | cons flag flags ih => exact (marked_mgetFlag cfg now created st flag).trans (ih _)

theorem marked_mgetLoop (cfg : Settings) (now : ℕ) (created : Bool) (it : StrItem) (flags : List MetaFlag) :
    Marked it (mgetLoop cfg now created it flags).it := by
  have h := marked_foldl cfg now created flags ⟨it, it.stale && !it.tokenSent, false⟩
  unfold mgetLoop
  dsimp only at h ⊢
  split
  · exact h.trans (.mk _ _)
  · exact h

namespace ItemStore

variable {cfg : Settings} {s s' : ItemStore} {key : Bytes}

theorem itemGetCas_nextCas {it : StrItem} (hcas : it.hasCas = cfg.useCas) (c : ℕ) :
    (it.itemSetCas (nextCas cfg c)).itemGetCas = nextCas cfg c := by
  rw [StrItem.itemGetCas_itemSetCas, hcas, nextCas]
  cases cfg.useCas <;> simp

theorem storedItem_cas {it : StrItem} (hcas : it.hasCas = cfg.useCas) {c now : ℕ} :
    (storedItem cfg c now it).itemGetCas = nextCas cfg c := itemGetCas_nextCas hcas c

theorem effect_drop (hs : s.Sound cfg) {it : StrItem} (hfind : s.assocFind cfg key = some it)
    (hrefs : 2 ≤ it.refcount) :
    Effect cfg s (s.doItemRemove cfg it).2 key (some { it with refcount := it.refcount - 1 }) s.casId := by
  have hkey := Sound.key_eq hfind
  have heff := effect_doItemRemove hs (hkey.symm ▸ hfind) (hs.linked key it hfind) hrefs
  rwa [hkey] at heff

theorem resembles_drop (now : ℕ) (it : StrItem) : Resembles now it { it with refcount := it.refcount - 1 } :=
  ⟨rfl, rfl, rfl, .inl rfl, rfl⟩

theorem effect_mark (hs : s.Sound cfg) {it it' : StrItem} (hfind : s.assocFind cfg key = some it)
    (hmark : Marked it it') :
    Effect cfg s (s.put cfg it') key (some it') s.casId := by
  have hlinked := hs.linked key it hfind
  have hkey : it.itemKey = key := Sound.key_eq hfind
  obtain ⟨exptime, tokenSent⟩ := hmark
  have hput := @effect_put _ _ hs { it with exptime := exptime, tokenSent := tokenSent } _ (hkey.symm ▸ hfind)
    ⟨hlinked.linked, hlinked.hasCas, hlinked.two_le, hlinked.refcount_pos⟩
  rwa [show StrItem.itemKey { it with exptime := exptime, tokenSent := tokenSent } = key from hkey] at hput

theorem Accessed.two_le_refcount {now : ℕ} {it it' : StrItem} (h : Accessed now (ItemStore.held it) it')
    (hit : 0 < it.refcount) :
    2 ≤ it'.refcount := by
  obtain ⟨time, refcount, lruid, fetched, active, htime, hrefs⟩ := h
  have hheld : it.refcount + 1 ≤ refcount := hrefs
  show 2 ≤ refcount
  omega

theorem Accessed.refcount_le {now : ℕ} {it it' : StrItem} (h : Accessed now it it') :
    it.refcount ≤ it'.refcount := by
  obtain ⟨time, refcount, lruid, fetched, active, htime, hrefs⟩ := h
  exact hrefs

theorem Accessed.exptime_eq {now : ℕ} {it it' : StrItem} (h : Accessed now it it') : it'.exptime = it.exptime := by
  obtain ⟨time, refcount, lruid, fetched, active, htime, hrefs⟩ := h
  rfl

/-! ### Retrievals -/

/-- **Everything a retrieval can do**, with the exptime it sets. -/
inductive ReadCase (cfg : Settings) (s : ItemStore) (key : Bytes) (exptime : Option ℕ) :
    Option StrItem × ItemStore → Prop
  | miss (s' : ItemStore) (hvisible : s.visible cfg key = none) (heff : Effect cfg s s' key none s.casId) :
      ReadCase cfg s key exptime (none, s')
  | hit (it shown it' : StrItem) (s' : ItemStore) (hvisible : s.visible cfg key = some it)
      (hshown : Resembles s.currentTime it shown) (hkept : Resembles s.currentTime it it')
      (hexp : it'.exptime = exptime.getD it.exptime) (heff : Effect cfg s s' key (some it') s.casId) :
      ReadCase cfg s key exptime (some shown, s')

theorem getItem_cases (hs : s.Sound cfg) (key : Bytes) (doUpdate async : Bool) :
    ReadCase cfg s key none (s.getItem cfg key doUpdate async) := by
  have hcases := doItemGet_cases hs key doUpdate async
  unfold getItem
  generalize s.doItemGet cfg key doUpdate async = got at hcases
  cases hcases with
  | miss s' hvisible heff => exact .miss s' hvisible heff
  | hit it it' s' hvisible hacc hplain heff =>
    obtain ⟨it'', hacc'', hrelease⟩ := effect_release heff.sound heff.find_self hacc
      (hs.linked _ _ (find_of_visible hvisible))
    rw [heff.casId_eq] at hrelease
    exact .hit it it' it'' _ hvisible (.of_accessed ((Accessed.held s.currentTime it).trans hacc)) (.of_accessed hacc'')
      hacc''.exptime_eq (heff.trans hrelease)

theorem touchItem_cases (hs : s.Sound cfg) (key : Bytes) (exptime : ℤ) (async : Bool) :
    ReadCase cfg s key (some (realtime cfg s.currentTime exptime)) (s.touchItem cfg key exptime async) := by
  have hcases := doItemGet_cases hs key true async
  simp only [touchItem, doItemTouch]
  generalize realtime cfg s.currentTime exptime = e
  generalize s.doItemGet cfg key true async = got at hcases
  cases hcases with
  | miss s' hvisible heff => exact .miss s' hvisible heff
  | hit it it' s' hvisible hacc hplain heff =>
    have hmark : Marked it' { it' with exptime := e } := .mk e it'.tokenSent
    have hput := effect_mark heff.sound heff.find_self hmark
    have hrefs : 2 ≤ it'.refcount := hacc.two_le_refcount (hs.linked _ _ (find_of_visible hvisible)).refcount_pos
    have hdrop := effect_drop hput.sound hput.find_self hrefs
    rw [hput.casId_eq, heff.casId_eq] at hdrop
    have hshown := (Resembles.of_accessed ((Accessed.held s.currentTime it).trans hacc)).trans (hmark.resembles _)
    exact .hit it _ _ _ hvisible hshown (hshown.trans (resembles_drop _ _)) rfl ((heff.trans hput).trans hdrop)

/-! ### `mg` -/

theorem mgetFinish_spec (hs : s.Sound cfg) (flags : List MetaFlag) (async : Bool) {it : StrItem}
    (hfind : s.assocFind cfg key = some it) (hrefs : 2 ≤ it.refcount) :
    ∃ it', Resembles s.currentTime it it' ∧ it'.exptime = it.exptime ∧
      Effect cfg s (s.mgetFinish cfg flags async it) key (some it') s.casId := by
  unfold mgetFinish
  split
  · obtain ⟨hacc, hbump⟩ := doItemBump_spec hs hfind async
    have hdrop := effect_drop hbump.sound hbump.find_self (hrefs.trans hacc.refcount_le)
    rw [hbump.casId_eq] at hdrop
    exact ⟨_, (Resembles.of_accessed hacc).trans (resembles_drop _ _), hacc.exptime_eq, hbump.trans hdrop⟩
  · exact ⟨_, resembles_drop _ _, rfl, effect_drop hs hfind hrefs⟩

theorem limitedGet_cases (hs : s.Sound cfg) (key : Bytes) (doUpdate async : Bool) :
    (∃ v s', s.limitedGet cfg key doUpdate async = (none, s') ∧ Kept cfg s key v ∧
      Effect cfg s s' key v s.casId ∧
      (doUpdate = false → ∀ it, s.visible cfg key = some it → overLimit (held it) = true)) ∨
    ∃ it it' s', s.limitedGet cfg key doUpdate async = (some it', s') ∧ s.visible cfg key = some it ∧
      Accessed s.currentTime (held it) it' ∧ Effect cfg s s' key (some it') s.casId := by
  have hcases := doItemGet_cases hs key doUpdate async
  unfold limitedGet
  generalize s.doItemGet cfg key doUpdate async = got at hcases
  cases hcases with
  | miss s' hvisible heff =>
    exact .inl ⟨none, s', rfl, by rw [Kept, hvisible], heff, fun _ it hit => nomatch hvisible.symm.trans hit⟩
  | hit it it' s' hvisible hacc hplain heff =>
    dsimp only
    split
    · rename_i hover
      obtain ⟨it'', hacc'', hrelease⟩ := effect_release heff.sound heff.find_self hacc
        (hs.linked _ _ (find_of_visible hvisible))
      rw [heff.casId_eq] at hrelease
      refine .inl ⟨some it'', _, rfl, ?_, heff.trans hrelease, fun hno x hx => ?_⟩
      · rw [Kept, hvisible]
        exact ⟨it'', rfl, hacc''⟩
      · obtain rfl : it = x := Option.some.inj (hvisible.symm.trans hx)
        rwa [← hplain hno]
    · exact .inr ⟨it, it', s', rfl, hvisible, hacc, heff⟩

/-- `N` finds no item above the limit. -/
def BelowLimit (cfg : Settings) (s : ItemStore) (key : Bytes) (flags : List MetaFlag) : Prop :=
  flags.any MetaFlag.isVivify = true → (s.visible cfg key).all (fun it => !overLimit (held it)) = true

/-- What `mg` looks at: an item that is visible, or one it has created. -/
inductive MgetItemCase (cfg : Settings) (s : ItemStore) (key : Bytes) (flags : List MetaFlag) :
    Option (StrItem × Bool) × ItemStore → Prop
  | miss (s' : ItemStore) (v : Option StrItem) (hkept : Kept cfg s key v) (heff : Effect cfg s s' key v s.casId) :
      MgetItemCase cfg s key flags (none, s')
  | hit (it it' : StrItem) (s' : ItemStore) (hvisible : s.visible cfg key = some it)
      (hacc : Accessed s.currentTime (held it) it') (heff : Effect cfg s s' key (some it') s.casId) :
      MgetItemCase cfg s key flags (some (it', false), s')
  | created (it : StrItem) (s' : ItemStore) (hvisible : s.visible cfg key = none)
      (hflags : flags.any MetaFlag.isVivify = true) (hit : IsNewItem cfg key 0 0 2 it)
      (heff : Effect cfg s s' key (some (linkedItem cfg s.casId s.currentTime it)) (nextId cfg s.casId)) :
      MgetItemCase cfg s key flags (some (linkedItem cfg s.casId s.currentTime it, true), s')

theorem any_locks {flags : List MetaFlag} (h : flags.any MetaFlag.isVivify = true) :
    flags.any MetaFlag.locks = true := by
  obtain ⟨flag, hmem, hflag⟩ := List.any_eq_true.mp h
  refine List.any_eq_true.mpr ⟨flag, hmem, ?_⟩
  cases flag with
  | vivify token => rfl
  | _ => cases hflag

theorem mgetItem_cases (hs : s.Sound cfg) (m : Memory) (key : Bytes) (flags : List MetaFlag) (async : Bool)
    (hlimit : BelowLimit cfg s key flags) : MgetItemCase cfg s key flags (s.mgetItem cfg m key flags async) := by
  unfold mgetItem
  rcases limitedGet_cases hs key (!flags.any MetaFlag.locks && !flags.contains .noUpdate) async with
    ⟨v, s', hget, hkept, heff, hover⟩ | ⟨it, it', s', hget, hvisible, hacc, heff⟩
  · rw [hget]
    dsimp only
    split
    · rename_i hflags
      have hvisible : s.visible cfg key = none := by
        cases hit : s.visible cfg key with
        | none => rfl
        | some it =>
          have hbelow := hlimit hflags
          rw [hit, Option.all_some, hover (by rw [any_locks hflags]; rfl) it hit] at hbelow
          cases hbelow
      obtain rfl : v = none := by rwa [Kept, hvisible] at hkept
      cases halloc : doItemAlloc cfg m s'.currentTime key 0 (realtime cfg s'.currentTime 0) 2 with
      | none => exact .miss s' none hkept heff
      | some it =>
        have hnew := (doItemAlloc_eq_some halloc).1.writeData 0 crlf
        dsimp only
        generalize it.writeData 0 crlf = new at hnew ⊢
        obtain ⟨hfst, hlink⟩ := effect_doItemLink heff.sound (hnew.key_eq.symm ▸ heff.find_self) hnew.hasCas_eq
          (le_of_eq hnew.nbytes_eq.symm)
        rw [heff.casId_eq, heff.currentTime_eq] at hfst hlink
        rw [hnew.key_eq] at hlink
        rw [hfst]
        exact .created new _ hvisible hflags hnew (heff.trans hlink)
    · exact .miss s' v hkept heff
  · rw [hget]
    exact .hit it it' s' hvisible hacc heff

/-- The marks, and either the error or the release, of an item that is in the table and held. -/
theorem mgetRest_spec (hs : s.Sound cfg) (flags : List MetaFlag) (async : Bool) {it : StrItem} {st : MgetLoop}
    (hfind : s.assocFind cfg key = some it) (hrefs : 2 ≤ it.refcount) (hmark : Marked it st.it) :
    ∃ it', Resembles s.currentTime it it' ∧ it'.exptime = st.it.exptime ∧
      Effect cfg s (if st.failed = true then s.put cfg st.it
        else (s.put cfg st.it).mgetFinish cfg flags async st.it) key
        (some it') s.casId := by
  have hput := effect_mark hs hfind hmark
  split
  · exact ⟨_, hmark.resembles _, rfl, hput⟩
  · obtain ⟨it', hres, hexp, hfinish⟩ := mgetFinish_spec hput.sound flags async hput.find_self
      (hrefs.trans_eq hmark.refcount_eq.symm)
    rw [hput.currentTime_eq] at hres
    rw [hput.casId_eq] at hfinish
    exact ⟨it', (hmark.resembles _).trans hres, hexp, hput.trans hfinish⟩

/-- **Everything `mg` can do.** -/
inductive MgetCase (cfg : Settings) (s : ItemStore) (key : Bytes) (flags : List MetaFlag) :
    Option MgetLoop × ItemStore → Prop
  | miss (s' : ItemStore) (v : Option StrItem) (hkept : Kept cfg s key v) (heff : Effect cfg s s' key v s.casId) :
      MgetCase cfg s key flags (none, s')
  | hit (it x it' : StrItem) (s' : ItemStore) (hvisible : s.visible cfg key = some it)
      (hshown : Resembles s.currentTime it (mgetLoop cfg s.currentTime false x flags).it)
      (hkept : Resembles s.currentTime it it')
        (hexp : it'.exptime = (mgetLoop cfg s.currentTime false x flags).it.exptime)
      (heff : Effect cfg s s' key (some it') s.casId) :
      MgetCase cfg s key flags (some (mgetLoop cfg s.currentTime false x flags), s')
  | created (x it' : StrItem) (s' : ItemStore) (hvisible : s.visible cfg key = none)
      (hflags : flags.any MetaFlag.isVivify = true) (hcas : x.itemGetCas = nextCas cfg s.casId)
      (htime : x.time = s.currentTime)
      (hshown : Resembles s.currentTime x (mgetLoop cfg s.currentTime true x flags).it)
      (hkept : Resembles s.currentTime x it')
        (hexp : it'.exptime = (mgetLoop cfg s.currentTime true x flags).it.exptime)
      (heff : Effect cfg s s' key (some it') (nextId cfg s.casId)) :
      MgetCase cfg s key flags (some (mgetLoop cfg s.currentTime true x flags), s')

theorem processMget_cases (hs : s.Sound cfg) (m : Memory) (key : Bytes) (flags : List MetaFlag) (async : Bool)
    (hlimit : BelowLimit cfg s key flags) : MgetCase cfg s key flags (s.processMget cfg m key flags async) := by
  have hcases := mgetItem_cases hs m key flags async hlimit
  unfold processMget
  generalize s.mgetItem cfg m key flags async = got at hcases
  cases hcases with
  | miss s' v hkept heff => exact .miss s' v hkept heff
  | hit it it' s' hvisible hacc heff =>
    have hmark := marked_mgetLoop cfg s.currentTime false it' flags
    obtain ⟨it'', hres, hexp, hdone⟩ := mgetRest_spec heff.sound flags async heff.find_self
      (hacc.two_le_refcount (hs.linked _ _ (find_of_visible hvisible)).refcount_pos) hmark
    rw [heff.casId_eq] at hdone
    rw [heff.currentTime_eq] at hres
    have hheld := Resembles.of_accessed ((Accessed.held s.currentTime it).trans hacc)
    dsimp only
    rw [heff.currentTime_eq]
    exact .hit it it' it'' _ hvisible (hheld.trans (hmark.resembles _)) (hheld.trans hres) hexp (heff.trans hdone)
  | created it s' hvisible hflags hit heff =>
    have hmark := marked_mgetLoop cfg s.currentTime true (linkedItem cfg s.casId s.currentTime it) flags
    obtain ⟨it'', hres, hexp, hdone⟩ := mgetRest_spec heff.sound flags async heff.find_self
      (by show 2 ≤ it.refcount + 1; rw [hit.refcount_eq]) hmark
    rw [heff.casId_eq] at hdone
    rw [heff.currentTime_eq] at hres
    dsimp only
    rw [heff.currentTime_eq]
    exact .created _ it'' _ hvisible hflags (itemGetCas_nextCas hit.hasCas_eq _) rfl (hmark.resembles _) hres hexp
      (heff.trans hdone)

/-! ### Deletions -/

/-- **Everything a deletion can do.** -/
inductive DeleteCase (cfg : Settings) (s : ItemStore) (key : Bytes) (stale : Bool) (ttl : Option ℤ) :
    DeleteResult × ItemStore → Prop
  | miss (s' : ItemStore) (hvisible : s.visible cfg key = none) (heff : Effect cfg s s' key none s.casId) :
      DeleteCase cfg s key stale ttl (.notFound, s')
  | refused (it it' : StrItem) (s' : ItemStore) (hvisible : s.visible cfg key = some it)
      (hacc : Accessed s.currentTime it it') (heff : Effect cfg s s' key (some it') s.casId) :
      DeleteCase cfg s key stale ttl (.exists, s')
  | staled (it it' : StrItem) (s' : ItemStore) (hvisible : s.visible cfg key = some it) (hstale : stale = true)
      (hcas : it'.itemGetCas = nextCas cfg s.casId) (htime : it'.time = it.time)
      (hexp : it'.exptime = ttl.elim it.exptime (realtime cfg s.currentTime)) (hsize : it'.itemNtotal = it.itemNtotal)
      (heff : Effect cfg s s' key (some it') (nextId cfg s.casId)) : DeleteCase cfg s key stale ttl (.deleted, s')
  | gone (it : StrItem) (s' : ItemStore) (hvisible : s.visible cfg key = some it) (hstale : stale = false)
      (heff : Effect cfg s s' key none s.casId) : DeleteCase cfg s key stale ttl (.deleted, s')

theorem madeStale_spec (hs : s.Sound cfg) {it : StrItem} (hfind : s.assocFind cfg key = some (held it))
    (hit : 0 < it.refcount) (exptime : ℕ) :
    ∃ it', it'.itemGetCas = nextCas cfg s.casId ∧ it'.time = it.time ∧ it'.exptime = exptime ∧
      it'.itemNtotal = it.itemNtotal ∧
        Effect cfg s (((s.newCas cfg).2.put cfg ((held it).madeStale (s.newCas cfg).1 exptime)).doItemRemove cfg
        ((held it).madeStale (s.newCas cfg).1 exptime)).2 key (some it') (nextId cfg s.casId) := by
  have hlinked := hs.linked _ _ hfind
  have hdraw := effect_newCas hs key
  rw [hfind] at hdraw
  rw [newCas_fst]
  generalize hx : (held it).madeStale (nextCas cfg s.casId) exptime = x
  have hxlinked : Linked cfg x := by
    rw [← hx]
    exact ⟨hlinked.linked, hlinked.hasCas, hlinked.two_le, hlinked.refcount_pos⟩
  have hkey : x.itemKey = key := by
    rw [← hx]
    exact (StrItem.itemKey_itemSetCas _).trans (Sound.key_eq hfind)
  have hrefs : 2 ≤ x.refcount := by
    rw [← hx]
    exact Nat.succ_le_succ hit
  have hput := effect_put hdraw.sound (hkey.symm ▸ hdraw.find_self) hxlinked
  rw [hkey, hdraw.casId_eq] at hput
  have hdrop := effect_drop hput.sound hput.find_self hrefs
  rw [hput.casId_eq] at hdrop
  refine ⟨_, ?_, ?_, ?_, ?_, (hdraw.trans hput).trans hdrop⟩
  · rw [← hx]
    exact itemGetCas_nextCas hlinked.hasCas _
  · rw [← hx]
    rfl
  · rw [← hx]
    rfl
  · rw [← hx]
    rfl

theorem processDelete_cases (hs : s.Sound cfg) (key : Bytes) (cas : ℕ) (stale : Bool) (ttl : Option ℤ) :
    DeleteCase cfg s key stale ttl (s.processDelete cfg key cas stale ttl) := by
  have hcases := doItemGet_cases hs key false false
  unfold processDelete
  generalize s.doItemGet cfg key false false = got at hcases
  cases hcases with
  | miss s' hvisible heff => exact .miss s' hvisible heff
  | hit it it' s' hvisible hacc hplain heff =>
    obtain rfl := hplain rfl
    have hit := hs.linked _ _ (find_of_visible hvisible)
    dsimp only
    split
    · obtain ⟨it'', hacc'', hrelease⟩ := effect_release heff.sound heff.find_self hacc hit
      rw [heff.casId_eq] at hrelease
      exact .refused it it'' _ hvisible hacc'' (heff.trans hrelease)
    split
    · rename_i hstale
      have htime : (s'.newCas cfg).2.currentTime = s.currentTime :=
        (effect_newCas heff.sound key).currentTime_eq.trans heff.currentTime_eq
      rw [htime]
      obtain ⟨x, hcas, hxtime, hexp, hsize, hmade⟩ := madeStale_spec heff.sound heff.find_self hit.refcount_pos
        (ttl.elim it.exptime (realtime cfg s.currentTime))
      rw [heff.casId_eq] at hcas hmade
      exact .staled it x _ hvisible hstale hcas hxtime hexp hsize (heff.trans hmade)
    · rename_i hstale
      obtain ⟨hunlink, hunlinked⟩ := effect_doItemUnlink heff.sound (heff.sound.linked _ _ heff.find_self).linked
      rw [show (held it).itemKey = key from Sound.key_eq heff.find_self, heff.casId_eq] at hunlink
      rw [doItemRemove_unlinked hunlinked]
      exact .gone it _ hvisible (Bool.eq_false_iff.mpr hstale) (heff.trans hunlink)

/-! ### Flushes -/

structure MarksSet (cfg : Settings) (s s' : ItemStore) (live : ℕ) : Prop where
  table_eq : s'.table = s.table
  currentTime_eq : s'.currentTime = s.currentTime
  oldestLive_eq : s'.oldestLive = live
  oldestCas_eq : cfg.useCas = true → s'.oldestCas = if live ≤ s.currentTime then nextId cfg s.casId else s.oldestCas
  casId_eq : s'.casId = if cfg.useCas = true ∧ live ≤ s.currentTime then nextId cfg s.casId else s.casId

theorem setOldestLive_spec (hcas : cfg.useCas = true) (live : ℕ) : MarksSet cfg s (s.setOldestLive live) live := by
  have hid : nextId cfg s.casId = (s.casId + 1) % 2 ^ 64 := if_pos hcas
  unfold setOldestLive
  dsimp only
  split
  · rename_i hle
    exact ⟨rfl, rfl, rfl, fun _ => by rw [if_pos hle, hid]; rfl, by rw [if_pos ⟨hcas, hle⟩, hid]; rfl⟩
  · rename_i hle
    exact ⟨rfl, rfl, rfl, fun _ => by rw [if_neg hle], by rw [if_neg fun h => hle h.2]⟩

/-- **`flush_all`** changes the two marks only. -/
theorem flushAll_marks (hcas : cfg.useCas = true) (exptime : ℤ) :
    MarksSet cfg s (s.flushAll cfg exptime) ((newOldest cfg s.currentTime exptime + 2 ^ 32 - 1) % 2 ^ 32) := by
  unfold flushAll
  rw [if_pos hcas]
  exact setOldestLive_spec hcas _

theorem flushAll_marks_plain (hcas : cfg.useCas = false) (exptime : ℤ) :
    MarksSet cfg s (s.flushAll cfg exptime) (newOldest cfg s.currentTime exptime) := by
  unfold flushAll
  rw [if_neg (by simp [hcas])]
  exact ⟨rfl, rfl, rfl, fun h => by simp [hcas] at h, by simp [hcas]⟩

theorem MarksSet.find_eq {live : ℕ} (h : MarksSet cfg s s' live) : s'.assocFind cfg = s.assocFind cfg := by
  funext k
  unfold assocFind
  rw [h.table_eq]

end ItemStore

end BmcCache
