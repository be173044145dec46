import BmcCache.ChainTable
import BmcCache.Connection
import BmcCache.ItemChunks

/-!
# The store: `items.c`, `assoc.c` and `do_store_item`

The state is the hash table and the globals that the commands read: the last CAS id, the clock and the two marks of the
last `flush_all`.  A pointer to a linked item is its value together with the table: `put` is a store through it.

* `doItemLink`, `doItemUnlink`, `doItemRemove`, `doItemUpdate`, `doItemReplace`, `doItemBump`, `doItemGet`,
  `doItemTouch` — `items.c`;
* `doStoreItem` — every branch of `do_store_item`.

Every function is described once by its `Effect`: what is found under one key afterwards, with everything else as it
was.  `doItemGet_cases` and `doStoreItem_cases` say everything these two functions can do.
-/

namespace BmcCache

open ByteBuffer Function

structure ItemStore where
  table : ChainTable StrItem
  casId : ℕ
  currentTime : ℕ
  oldestLive : ℕ
  oldestCas : ℕ

/-- `NREAD_ADD` and so on -/
inductive NreadComm where
  | add
  | set
  | replace
  | append
  | prepend
  | cas
  deriving DecidableEq, Repr

namespace ItemStore

/-! ### `assoc.c` -/

def assocFind (cfg : Settings) (s : ItemStore) (key : Bytes) : Option StrItem :=
  s.table.find StrItem.itemKey cfg.hash key

def assocInsert (cfg : Settings) (it : StrItem) (s : ItemStore) : ItemStore :=
  { s with table := s.table.insert StrItem.itemKey cfg.hash it }

def assocDelete (cfg : Settings) (key : Bytes) (s : ItemStore) : ItemStore :=
  { s with table := s.table.delete StrItem.itemKey cfg.hash key }

def put (cfg : Settings) (it : StrItem) (s : ItemStore) : ItemStore :=
  { s with table := s.table.modify StrItem.itemKey cfg.hash it.itemKey fun _ => it }

/-! ### `items.c` -/

@[simp] abbrev itemUpdateInterval : ℕ := 60

def getCasId (s : ItemStore) : ℕ × ItemStore := ((s.casId + 1) % 2 ^ 64, { s with casId := (s.casId + 1) % 2 ^ 64 })

/-- `(settings.use_cas) ? get_cas_id() : 0` -/
def newCas (cfg : Settings) (s : ItemStore) : ℕ × ItemStore := if cfg.useCas then s.getCasId else (0, s)

def itemIsFlushed (it : StrItem) (s : ItemStore) : Bool :=
  if s.oldestLive = 0 ∨ s.currentTime < s.oldestLive then false
  else decide (it.time ≤ s.oldestLive ∨ (s.oldestCas ≠ 0 ∧ it.itemGetCas ≠ 0 ∧ it.itemGetCas < s.oldestCas))

def doItemRemove (cfg : Settings) (it : StrItem) (s : ItemStore) : StrItem × ItemStore :=
  let it := { it with refcount := it.refcount - 1 }
  (it, if it.linked then s.put cfg it else s)

def doItemLink (cfg : Settings) (it : StrItem) (s : ItemStore) : StrItem × ItemStore :=
  let (cas, s') := s.newCas cfg
  let it := { it.itemSetCas cas with linked := true, time := s.currentTime, refcount := it.refcount + 1 }
  (it, s'.assocInsert cfg it)

def doItemUnlink (cfg : Settings) (it : StrItem) (s : ItemStore) : StrItem × ItemStore :=
  if it.linked then doItemRemove cfg { it with linked := false } (s.assocDelete cfg it.itemKey) else (it, s)

/-- `do_item_replace`: the old item, the new one and the store -/
def doItemReplace (cfg : Settings) (it new : StrItem) (s : ItemStore) : StrItem × StrItem × ItemStore :=
  let (it, s) := s.doItemUnlink cfg it
  (it, s.doItemLink cfg new)

/-- The item as `do_item_update` leaves it; `current_time - ITEM_UPDATE_INTERVAL` is unsigned. -/
def updated (cfg : Settings) (it : StrItem) (s : ItemStore) : StrItem :=
  if cfg.lruSegmented then
    if it.lruid = .cold ∧ it.active then { it with time := s.currentTime, lruid := .warm, active := false }
    else { it with time := s.currentTime }
  else if it.time < (s.currentTime + 2 ^ 32 - itemUpdateInterval) % 2 ^ 32 then { it with time := s.currentTime }
  else it

def doItemUpdate (cfg : Settings) (it : StrItem) (s : ItemStore) : StrItem × ItemStore :=
  if it.linked then (s.updated cfg it, s.put cfg (s.updated cfg it)) else (it, s)

/-- `do_item_bump`; `async` is the answer of `lru_bump_async`, which keeps a reference if it queues the item. -/
def doItemBump (cfg : Settings) (async : Bool) (it : StrItem) (s : ItemStore) : StrItem × ItemStore :=
  if cfg.lruSegmented then
    let it :=
      if it.active then it
      else if it.fetched = false then { it with fetched := true }
      else if it.lruid ≠ .cold then { it with active := true, time := s.currentTime }
      else if async then { it with active := true, refcount := it.refcount + 1 }
      else it
    (it, s.put cfg it)
  else doItemUpdate cfg { it with fetched := true } (s.put cfg { it with fetched := true })

/-- `it->exptime != 0 && it->exptime <= current_time` -/
def itemIsExpired (it : StrItem) (s : ItemStore) : Bool := decide (it.exptime ≠ 0 ∧ it.exptime ≤ s.currentTime)

def doItemGet (cfg : Settings) (key : Bytes) (doUpdate async : Bool) (s : ItemStore) :
    Option StrItem × ItemStore :=
  match s.assocFind cfg key with
  | none => (none, s)
  | some it =>
    let it := { it with refcount := it.refcount + 1 }
    let s := s.put cfg it
    if s.itemIsFlushed it ∨ s.itemIsExpired it then
      let (it, s) := s.doItemUnlink cfg it
      (none, (s.doItemRemove cfg it).2)
    else if doUpdate then
      let (it, s) := s.doItemBump cfg async it
      (some it, s)
    else (some it, s)

def doItemTouch (cfg : Settings) (key : Bytes) (exptime : ℕ) (async : Bool) (s : ItemStore) :
    Option StrItem × ItemStore :=
  match s.doItemGet cfg key true async with
  | (none, s) => (none, s)
  | (some it, s) => (some { it with exptime := exptime }, s.put cfg { it with exptime := exptime })

/-! ### `do_store_item` -/

/-- The new item of `append` and `prepend`, if there is memory for it and for its chunks. -/
def combined (cfg : Settings) (m : Memory) (currentTime : ℕ) (append : Bool) (it old : StrItem) : Option StrItem :=
  (doItemAlloc cfg m currentTime it.itemKey old.flagsConv old.exptime (it.nbytes + old.nbytes - 2)).bind
    fun new => storeItemCopyData cfg m append old new it

/-- `item_replace(old_it, it, hv)` and the release of the reference to `old_it`. -/
def replaceOld (cfg : Settings) (old it : StrItem) (s : ItemStore) : StrItem × ItemStore :=
  let (old, it, s) := s.doItemReplace cfg old it
  (it, (s.doItemRemove cfg old).2)

/-- `do_store_item`: what it returns, `it` at its end and the store.  `c->cas` becomes the CAS value of `it` when the
item is stored. -/
def doStoreItem (cfg : Settings) (m : Memory) (setStale : Bool) (comm : NreadComm) (it : StrItem) (s : ItemStore) :
    StoreItemType × StrItem × ItemStore :=
  match s.doItemGet cfg it.itemKey false false with
  | (none, s) =>
    match comm with
    | .replace | .append | .prepend => (.notStored, it, s)
    | .cas => (.notFound, it, s)
    | .add | .set => (.stored, s.doItemLink cfg it)
  | (some old, s) =>
    match comm with
    | .add =>
      -- add only adds a nonexistent item, but promotes it
      let (old, s) := s.doItemUpdate cfg old
      (.notStored, it, (s.doItemRemove cfg old).2)
    | .cas =>
      if it.itemGetCas = old.itemGetCas then (.stored, s.replaceOld cfg old it)
      else if setStale ∧ it.itemGetCas < old.itemGetCas then
        (.stored, s.replaceOld cfg old
          { it with exptime := old.exptime, stale := true, tokenSent := it.tokenSent || old.tokenSent })
      else (.exists, it, (s.doItemRemove cfg old).2)
    | .set | .replace => (.stored, s.replaceOld cfg old it)
    | .append | .prepend =>
      if it.itemGetCas ≠ 0 ∧ it.itemGetCas ≠ old.itemGetCas then (.exists, it, (s.doItemRemove cfg old).2)
      else
        match combined cfg m s.currentTime (decide (comm = .append)) it old with
        | none => (.notStored, it, (s.doItemRemove cfg old).2)
        | some new =>
          let (new, s) := s.replaceOld cfg old new
          (.stored, s.doItemRemove cfg new)

/-- A storage command when its item is there: `store_item`, and the release of `c->item`.  The item that `append` and
`prepend` bring is not the one they store. -/
def completeStore (cfg : Settings) (m : Memory) (setStale : Bool) (comm : NreadComm) (it : StrItem) (s : ItemStore) :
    StoreItemType × ℕ × ItemStore :=
  let (res, it, s) := s.doStoreItem cfg m setStale comm it
  (res, it.itemGetCas, if comm = .append ∨ comm = .prepend then s else (s.doItemRemove cfg it).2)

def start (power casId now : ℕ) : ItemStore := ⟨ChainTable.empty power, casId, now, 0, 0⟩

/-! ### What is found afterwards -/

variable {cfg : Settings} {s s' s'' : ItemStore}

structure Linked (cfg : Settings) (it : StrItem) : Prop where
  linked : it.linked = true
  hasCas : it.hasCas = cfg.useCas
  two_le : 2 ≤ it.nbytes
  refcount_pos : 0 < it.refcount

structure Sound (cfg : Settings) (s : ItemStore) : Prop where
  good : s.table.Good StrItem.itemKey cfg.hash
  linked : ∀ key it, s.assocFind cfg key = some it → Linked cfg it

theorem assocFind_start (cfg : Settings) (power casId now : ℕ) (key : Bytes) :
    (start power casId now).assocFind cfg key = none := by
  simp [start, assocFind, ChainTable.find, ChainTable.chain, ChainTable.InOld, ChainTable.empty]

theorem sound_start (cfg : Settings) (power casId now : ℕ) : (start power casId now).Sound cfg :=
  ⟨ChainTable.good_empty power, fun key it h => by simp [assocFind_start] at h⟩

/-- The step from `s` to `s'` leaves `v` under `key`, and `casId`; nothing else changes. -/
structure Effect (cfg : Settings) (s s' : ItemStore) (key : Bytes) (v : Option StrItem) (casId : ℕ) : Prop where
  sound : s'.Sound cfg
  find_eq : s'.assocFind cfg = update (s.assocFind cfg) key v
  casId_eq : s'.casId = casId
  currentTime_eq : s'.currentTime = s.currentTime
  oldestLive_eq : s'.oldestLive = s.oldestLive
  oldestCas_eq : s'.oldestCas = s.oldestCas

theorem Effect.find_self {key : Bytes} {v : Option StrItem} {c : ℕ} (h : Effect cfg s s' key v c) :
    s'.assocFind cfg key = v := by
  rw [h.find_eq, update_self]

theorem Effect.find_ne {key k : Bytes} {v : Option StrItem} {c : ℕ} (h : Effect cfg s s' key v c)
    (hk : k ≠ key) :
    s'.assocFind cfg k = s.assocFind cfg k := by
  rw [h.find_eq, update_of_ne hk]

theorem Effect.trans {key : Bytes} {v v' : Option StrItem} {c c' : ℕ} (h : Effect cfg s s' key v c)
    (h' : Effect cfg s' s'' key v' c') : Effect cfg s s'' key v' c' where
  sound := h'.sound
  find_eq := by rw [h'.find_eq, h.find_eq, update_idem]
  casId_eq := h'.casId_eq
  currentTime_eq := h'.currentTime_eq.trans h.currentTime_eq
  oldestLive_eq := h'.oldestLive_eq.trans h.oldestLive_eq
  oldestCas_eq := h'.oldestCas_eq.trans h.oldestCas_eq

theorem Effect.refl (hs : s.Sound cfg) (key : Bytes) : Effect cfg s s key (s.assocFind cfg key) s.casId :=
  ⟨hs, (update_eq_self key _).symm, rfl, rfl, rfl, rfl⟩

theorem Sound.of_find (hgood : s'.table.Good StrItem.itemKey cfg.hash) {key : Bytes} {v : Option StrItem}
    (hs : s.Sound cfg) (hfind : s'.assocFind cfg = update (s.assocFind cfg) key v)
    (hv : ∀ it, v = some it → Linked cfg it) : s'.Sound cfg := by
  refine ⟨hgood, fun k it hk => ?_⟩
  rw [hfind] at hk
  by_cases hkey : k = key
  · subst hkey
    rw [update_self] at hk
    exact hv it hk
  · rw [update_of_ne hkey] at hk
    exact hs.linked k it hk

theorem Sound.key_eq {key : Bytes} {it : StrItem} (hfind : s.assocFind cfg key = some it) : it.itemKey = key :=
  ChainTable.find_key hfind

theorem effect_put (hs : s.Sound cfg) {it old : StrItem} (hfind : s.assocFind cfg it.itemKey = some old)
    (hit : Linked cfg it) : Effect cfg s (s.put cfg it) it.itemKey (some it) s.casId := by
  have hupdate : (s.put cfg it).assocFind cfg = update (s.assocFind cfg) it.itemKey (some it) := by
    funext k
    show ChainTable.find _ _ (ChainTable.modify _ _ _ _ _) k = _
    rw [ChainTable.find_modify k (fun a _ => rfl)]
    by_cases hk : it.itemKey = k
    · subst hk
      rw [if_pos rfl, update_self]
      unfold assocFind at hfind
      rw [hfind]
      rfl
    · rw [if_neg hk, update_of_ne (Ne.symm hk)]
      rfl
  refine ⟨?_, hupdate, rfl, rfl, rfl, rfl⟩
  refine Sound.of_find (hs.good.modify fun a _ => rfl) hs hupdate ?_
  rintro _ ⟨⟩
  exact hit

theorem doItemRemove_linked {it : StrItem} (hit : it.linked = true) :
    (s.doItemRemove cfg it).2 = s.put cfg { it with refcount := it.refcount - 1 } := if_pos hit

theorem effect_doItemRemove (hs : s.Sound cfg) {it old : StrItem} (hfind : s.assocFind cfg it.itemKey = some old)
    (hit : Linked cfg it) (hrefs : 2 ≤ it.refcount) :
    Effect cfg s (s.doItemRemove cfg it).2 it.itemKey (some { it with refcount := it.refcount - 1 }) s.casId := by
  rw [doItemRemove_linked hit.linked]
  exact @effect_put _ _ hs { it with refcount := it.refcount - 1 } _ hfind
    { hit with refcount_pos := by show 0 < it.refcount - 1; omega }

theorem doItemRemove_unlinked {it : StrItem} (hit : it.linked = false) : (s.doItemRemove cfg it).2 = s :=
  if_neg (by simp [hit])

theorem effect_doItemUnlink (hs : s.Sound cfg) {it : StrItem} (hit : it.linked = true) :
    Effect cfg s (s.doItemUnlink cfg it).2 it.itemKey none s.casId ∧ (s.doItemUnlink cfg it).1.linked = false := by
  have hupdate : (s.assocDelete cfg it.itemKey).assocFind cfg = update (s.assocFind cfg) it.itemKey none := by
    funext k
    show ChainTable.find _ _ (ChainTable.delete _ _ _ _) k = _
    rw [hs.good.find_delete]
    by_cases hk : it.itemKey = k
    · subst hk
      rw [if_pos rfl, update_self]
    · rw [if_neg hk, update_of_ne (Ne.symm hk)]
      rfl
  have hsound : (s.assocDelete cfg it.itemKey).Sound cfg :=
    Sound.of_find (hs.good.delete _) hs hupdate (by simp)
  unfold doItemUnlink
  rw [if_pos hit]
  refine ⟨?_, rfl⟩
  rw [doItemRemove_unlinked rfl]
  exact ⟨hsound, hupdate, rfl, rfl, rfl, rfl⟩

/-- The last CAS id behind `newCas`. -/
def nextId (cfg : Settings) (casId : ℕ) : ℕ := if cfg.useCas then (casId + 1) % 2 ^ 64 else casId

/-- The CAS value that `newCas` gives. -/
def nextCas (cfg : Settings) (casId : ℕ) : ℕ := if cfg.useCas then (casId + 1) % 2 ^ 64 else 0

theorem newCas_fst : (s.newCas cfg).1 = nextCas cfg s.casId := by
  unfold newCas nextCas
  split <;> rfl

/-- The item as `do_item_link` puts it into the table. -/
def linkedItem (cfg : Settings) (casId now : ℕ) (it : StrItem) : StrItem :=
  { it.itemSetCas (nextCas cfg casId) with linked := true, time := now, refcount := it.refcount + 1 }

theorem doItemLink_eq (it : StrItem) : s.doItemLink cfg it
    = (linkedItem cfg s.casId s.currentTime it,
      (s.newCas cfg).2.assocInsert cfg (linkedItem cfg s.casId s.currentTime it)) := by
  rw [linkedItem, ← newCas_fst]
  rfl

theorem effect_doItemLink (hs : s.Sound cfg) {it : StrItem} (hfind : s.assocFind cfg it.itemKey = none)
    (hcas : it.hasCas = cfg.useCas) (htwo : 2 ≤ it.nbytes) :
    (s.doItemLink cfg it).1 = linkedItem cfg s.casId s.currentTime it ∧
      Effect cfg s (s.doItemLink cfg it).2 it.itemKey (some (linkedItem cfg s.casId s.currentTime it))
        (nextId cfg s.casId) := by
  rw [doItemLink_eq]
  generalize hnew : linkedItem cfg s.casId s.currentTime it = new
  have hkey : new.itemKey = it.itemKey := by rw [← hnew]; exact StrItem.itemKey_itemSetCas _
  have hupdate : ∀ s₀ : ItemStore, s₀.table = s.table →
      (s₀.assocInsert cfg new).assocFind cfg = update (s.assocFind cfg) it.itemKey (some new) := by
    intro s₀ htable
    funext k
    show ChainTable.find _ _ (ChainTable.insert _ _ s₀.table _) k = _
    rw [htable, ChainTable.find_insert, hkey]
    by_cases hk : it.itemKey = k
    · subst hk
      rw [if_pos rfl, update_self]
    · rw [if_neg hk, update_of_ne (Ne.symm hk)]
      rfl
  have hgood : (s.table.insert StrItem.itemKey cfg.hash new).Good StrItem.itemKey cfg.hash :=
    hs.good.insert (by rw [hkey]; exact hfind)
  have hlinked : ∀ v, some new = some v → Linked cfg v := by
    rintro _ ⟨⟩
    rw [← hnew]
    exact ⟨rfl, hcas, htwo, Nat.succ_pos _⟩
  refine ⟨rfl, ?_⟩
  cases hu : cfg.useCas with
  | false =>
    have hsame : (s.newCas cfg).2 = s := by simp [newCas, hu]
    rw [hsame, nextId, hu]
    exact ⟨Sound.of_find hgood hs (hupdate s rfl) hlinked, hupdate s rfl, rfl, rfl, rfl, rfl⟩
  | true =>
    have hdrawn : (s.newCas cfg).2 = s.getCasId.2 := by simp [newCas, hu]
    rw [hdrawn, nextId, hu]
    exact ⟨Sound.of_find hgood hs (hupdate _ rfl) hlinked, hupdate _ rfl, rfl, rfl, rfl, rfl⟩

/-! ### `do_item_get` -/

def visible (cfg : Settings) (s : ItemStore) (key : Bytes) : Option StrItem :=
  (s.assocFind cfg key).filter fun it => !(s.itemIsFlushed it || s.itemIsExpired it)

def held (it : StrItem) : StrItem := { it with refcount := it.refcount + 1 }

/-- An item after accesses: they change nothing but its references, its place in the LRU and its access time. -/
inductive Accessed (now : ℕ) (it : StrItem) : StrItem → Prop
  | mk (time refcount : ℕ) (lruid : LruId) (fetched active : Bool) (htime : time = it.time ∨ time = now)
      (hrefs : it.refcount ≤ refcount) :
      Accessed now it
        { it with time := time, refcount := refcount, lruid := lruid, fetched := fetched, active := active }

theorem Accessed.refl (now : ℕ) (it : StrItem) : Accessed now it it := .mk _ _ _ _ _ (.inl rfl) le_rfl

theorem Accessed.trans {now : ℕ} {it it' it'' : StrItem} (h : Accessed now it it') (h' : Accessed now it' it'') :
    Accessed now it it'' := by
  obtain ⟨time, refcount, lruid, fetched, active, htime, hrefs⟩ := h
  obtain ⟨time', refcount', lruid', fetched', active', htime', hrefs'⟩ := h'
  refine .mk _ _ _ _ _ ?_ (hrefs.trans hrefs')
  rcases htime' with rfl | rfl
  · exact htime
  · exact .inr rfl

theorem Accessed.linked {now : ℕ} {it it' : StrItem} (h : Accessed now it it') (hit : Linked cfg it) :
    Linked cfg it' := by
  obtain ⟨time, refcount, lruid, fetched, active, htime, hrefs⟩ := h
  exact ⟨hit.linked, hit.hasCas, hit.two_le, lt_of_lt_of_le hit.refcount_pos hrefs⟩

theorem Accessed.key_eq {now : ℕ} {it it' : StrItem} (h : Accessed now it it') : it'.itemKey = it.itemKey := by
  obtain ⟨time, refcount, lruid, fetched, active, htime, hrefs⟩ := h
  rfl

theorem Accessed.cas_eq {now : ℕ} {it it' : StrItem} (h : Accessed now it it') : it'.itemGetCas = it.itemGetCas := by
  obtain ⟨time, refcount, lruid, fetched, active, htime, hrefs⟩ := h
  rfl

theorem Accessed.held (now : ℕ) (it : StrItem) : Accessed now it (held it) := .mk _ _ _ _ _ (.inl rfl) (Nat.le_succ _)

theorem accessed_updated (it : StrItem) : Accessed s.currentTime it (s.updated cfg it) := by
  unfold updated
  split
  · split
    · exact .mk _ _ _ _ _ (.inr rfl) le_rfl
    · exact .mk _ _ _ _ _ (.inr rfl) le_rfl
  · split
    · exact .mk _ _ _ _ _ (.inr rfl) le_rfl
    · exact .refl _ it

theorem effect_access (hs : s.Sound cfg) {key : Bytes} {it it' : StrItem} (hfind : s.assocFind cfg key = some it)
    (hacc : Accessed s.currentTime it it') : Effect cfg s (s.put cfg it') key (some it') s.casId := by
  have hkey : it'.itemKey = key := hacc.key_eq.trans (Sound.key_eq hfind)
  have h := @effect_put _ _ hs it' _ (hkey ▸ hfind) (hacc.linked (hs.linked key it hfind))
  rwa [hkey] at h

theorem doItemUpdate_spec (hs : s.Sound cfg) {key : Bytes} {it : StrItem} (hfind : s.assocFind cfg key = some it) :
    Accessed s.currentTime it (s.doItemUpdate cfg it).1 ∧
      Effect cfg s (s.doItemUpdate cfg it).2 key (some (s.doItemUpdate cfg it).1) s.casId := by
  have hacc : Accessed s.currentTime it (s.updated cfg it) := accessed_updated it
  have hput := effect_access hs hfind hacc
  unfold doItemUpdate
  rw [if_pos (hs.linked key it hfind).linked]
  exact ⟨hacc, hput⟩

theorem doItemBump_spec (hs : s.Sound cfg) {key : Bytes} {it : StrItem} (hfind : s.assocFind cfg key = some it)
    (async : Bool) : Accessed s.currentTime it (s.doItemBump cfg async it).1 ∧
      Effect cfg s (s.doItemBump cfg async it).2 key (some (s.doItemBump cfg async it).1) s.casId := by
  unfold doItemBump
  split
  · have hacc : Accessed s.currentTime it (if it.active then it
        else if it.fetched = false then { it with fetched := true }
        else if it.lruid ≠ .cold then { it with active := true, time := s.currentTime }
        else if async then { it with active := true, refcount := it.refcount + 1 }
        else it) := by
      split
      · exact .refl _ it
      · split
        · exact .mk _ _ _ _ _ (.inl rfl) le_rfl
        · split
          · exact .mk _ _ _ _ _ (.inr rfl) le_rfl
          · split
            · exact .mk _ _ _ _ _ (.inl rfl) (Nat.le_succ _)
            · exact .refl _ it
    exact ⟨hacc, effect_access hs hfind hacc⟩
  · have hfetched : Accessed s.currentTime it { it with fetched := true } := .mk _ _ _ _ _ (.inl rfl) le_rfl
    have hput := effect_access hs hfind hfetched
    obtain ⟨hacc, heff⟩ := doItemUpdate_spec hput.sound hput.find_self
    have h := hput.trans heff
    rw [hput.casId_eq] at h
    exact ⟨hfetched.trans hacc, h⟩

/-- **What `do_item_get` does.**  It finds what is visible; what is not is gone. -/
inductive GetCase (cfg : Settings) (s : ItemStore) (key : Bytes) (doUpdate : Bool) :
    Option StrItem × ItemStore → Prop
  | miss (s' : ItemStore) (hvisible : s.visible cfg key = none) (heff : Effect cfg s s' key none s.casId) :
      GetCase cfg s key doUpdate (none, s')
  | hit (it it' : StrItem) (s' : ItemStore) (hvisible : s.visible cfg key = some it)
      (hacc : Accessed s.currentTime (held it) it') (hplain : doUpdate = false → it' = held it)
      (heff : Effect cfg s s' key (some it') s.casId) : GetCase cfg s key doUpdate (some it', s')

theorem find_of_visible {key : Bytes} {it : StrItem} (h : s.visible cfg key = some it) :
    s.assocFind cfg key = some it := by
  unfold visible at h
  exact (Option.filter_eq_some_iff.mp h).1

theorem visible_of_find {key : Bytes} {it : StrItem} (hfind : s.assocFind cfg key = some it)
    (hflushed : s.itemIsFlushed it = false) (hexpired : s.itemIsExpired it = false) : s.visible cfg key = some it := by
  rw [visible, hfind, Option.filter_some, hflushed, hexpired]
  rfl

theorem doItemGet_cases (hs : s.Sound cfg) (key : Bytes) (doUpdate async : Bool) :
    GetCase cfg s key doUpdate (s.doItemGet cfg key doUpdate async) := by
  unfold doItemGet
  cases hfind : s.assocFind cfg key with
  | none =>
    have hnone : s.visible cfg key = none := by rw [visible, hfind]; rfl
    have heff := Effect.refl hs key
    rw [hfind] at heff
    exact .miss s hnone heff
  | some it =>
    have hheld : Accessed s.currentTime it { it with refcount := it.refcount + 1 } := Accessed.held _ it
    have hput := effect_access hs hfind hheld
    have hkey : it.itemKey = key := Sound.key_eq hfind
    dsimp only
    split
    · rename_i hdead
      change s.itemIsFlushed it = true ∨ s.itemIsExpired it = true at hdead
      have hnone : s.visible cfg key = none := by
        rw [visible, hfind, Option.filter_some, if_neg]
        simpa [or_iff_not_imp_left] using hdead
      obtain ⟨hunlink, hunlinked⟩ := effect_doItemUnlink hput.sound (hheld.linked (hs.linked key it hfind)).linked
      rw [doItemRemove_unlinked hunlinked]
      have h := hput.trans (hkey ▸ hunlink)
      rw [hput.casId_eq] at h
      exact .miss _ hnone h
    · rename_i halive
      change ¬(s.itemIsFlushed it = true ∨ s.itemIsExpired it = true) at halive
      have hsome : s.visible cfg key = some it := by
        rw [visible, hfind, Option.filter_some, if_pos]
        simpa using halive
      split
      · obtain ⟨hacc, heff⟩ := doItemBump_spec hput.sound hput.find_self async
        have h := hput.trans heff
        rw [hput.casId_eq] at h
        exact .hit it _ _ hsome hacc (by simp_all) h
      · exact .hit it _ _ hsome (.refl _ _) (fun _ => rfl) hput

/-! ### `do_store_item` -/

/-- What `do_store_item` decides when it has looked for the key: an answer, or the item it stores. -/
def storeDecision (cfg : Settings) (m : Memory) (setStale : Bool) (comm : NreadComm) (it : StrItem)
    (currentTime : ℕ) :
    Option StrItem → StoreItemType ⊕ StrItem
  | none =>
    match comm with
    | .replace | .append | .prepend => .inl .notStored
    | .cas => .inl .notFound
    | .add | .set => .inr it
  | some old =>
    match comm with
    | .add => .inl .notStored
    | .cas =>
      if it.itemGetCas = old.itemGetCas then .inr it
      else if setStale ∧ it.itemGetCas < old.itemGetCas then
        .inr { it with exptime := old.exptime, stale := true, tokenSent := it.tokenSent || old.tokenSent }
      else .inl .exists
    | .set | .replace => .inr it
    | .append | .prepend =>
      if it.itemGetCas ≠ 0 ∧ it.itemGetCas ≠ old.itemGetCas then .inl .exists
      else
        match combined cfg m currentTime (decide (comm = .append)) it old with
        | none => .inl .notStored
        | some new => .inr new

/-- The item that has been stored, when the command has released its reference. -/
def storedItem (cfg : Settings) (casId now : ℕ) (it : StrItem) : StrItem :=
  { it.itemSetCas (nextCas cfg casId) with linked := true, time := now }

theorem itemData_storedItem (casId now : ℕ) (it : StrItem) : (storedItem cfg casId now it).itemData = it.itemData :=
  @StrItem.itemData_itemSetCas it (nextCas cfg casId)

structure Brought (cfg : Settings) (it : StrItem) : Prop where
  hasCas : it.hasCas = cfg.useCas
  two_le : 2 ≤ it.nbytes
  refcount_eq : it.refcount = 1
  linked_eq : it.linked = false

theorem combined_isNewItem {m : Memory} {now : ℕ} {append : Bool} {it old new : StrItem}
    (h : combined cfg m now append it old = some new) :
    IsNewItem cfg it.itemKey old.flagsConv old.exptime (it.nbytes + old.nbytes - 2) new := by
  obtain ⟨fresh, halloc, hcopy⟩ := Option.bind_eq_some_iff.mp h
  exact storeItemCopyData_isNewItem (doItemAlloc_eq_some halloc).1 hcopy

theorem brought_of_isNewItem {key : Bytes} {flags : UInt32} {exptime nbytes : ℕ} {it : StrItem}
    (h : IsNewItem cfg key flags exptime nbytes it) : Brought cfg it :=
  ⟨h.hasCas_eq, h.nbytes_eq ▸ h.two_le, h.refcount_eq, h.linked_eq⟩

theorem effect_release (hs : s.Sound cfg) {key : Bytes} {now : ℕ} {it it' : StrItem}
    (hfind : s.assocFind cfg key = some it') (hacc : Accessed now (held it) it') (hit : Linked cfg it) :
    ∃ it'', Accessed now it it'' ∧ Effect cfg s (s.doItemRemove cfg it').2 key (some it'') s.casId := by
  have hkey := Sound.key_eq hfind
  have hrefs : 2 ≤ it'.refcount := by
    obtain ⟨time, refcount, lruid, fetched, active, htime, hrefs⟩ := hacc
    have h1 := hit.refcount_pos
    have h2 : it.refcount + 1 ≤ refcount := hrefs
    show 2 ≤ refcount
    omega
  have heff := effect_doItemRemove hs (hkey.symm ▸ hfind) (hs.linked key it' hfind) hrefs
  rw [hkey] at heff
  refine ⟨_, ?_, heff⟩
  obtain ⟨time, refcount, lruid, fetched, active, htime, hheld⟩ := hacc
  exact .mk _ _ _ _ _ htime (Nat.le_sub_one_of_lt hheld)

theorem replaceOld_spec (hs : s.Sound cfg) {key : Bytes} {old it : StrItem}
    (hfind : s.assocFind cfg key = some old)
    (hkey : it.itemKey = key) (hit : Brought cfg it) :
    (s.replaceOld cfg old it).1 = linkedItem cfg s.casId s.currentTime it ∧
      Effect cfg s (s.replaceOld cfg old it).2 key (some (linkedItem cfg s.casId s.currentTime it))
        (nextId cfg s.casId) := by
  have hold : old.itemKey = key := Sound.key_eq hfind
  obtain ⟨hunlink, hunlinked⟩ := effect_doItemUnlink hs (hs.linked key old hfind).linked
  rw [hold] at hunlink
  obtain ⟨hfst, hlink⟩ := effect_doItemLink hunlink.sound (hkey ▸ hunlink.find_self) hit.hasCas hit.two_le
  rw [hunlink.casId_eq, hunlink.currentTime_eq] at hfst hlink
  rw [hkey] at hlink
  have hremove : (s.replaceOld cfg old it).2 = ((s.doItemUnlink cfg old).2.doItemLink cfg it).2 :=
    doItemRemove_unlinked hunlinked
  refine ⟨hfst, ?_⟩
  rw [hremove]
  exact hunlink.trans hlink

/-- The stored item, when the reference of the command is released. -/
theorem effect_storedItem {key : Bytes} {it : StrItem} (hkey : it.itemKey = key) (hit : Brought cfg it)
    (heff : Effect cfg s s' key (some (linkedItem cfg s.casId s.currentTime it)) (nextId cfg s.casId)) :
    Effect cfg s (s'.doItemRemove cfg (linkedItem cfg s.casId s.currentTime it)).2 key
      (some (storedItem cfg s.casId s.currentTime it)) (nextId cfg s.casId) := by
  have hkey' : (linkedItem cfg s.casId s.currentTime it).itemKey = key := (StrItem.itemKey_itemSetCas _).trans hkey
  have hlinked := heff.sound.linked key _ heff.find_self
  have hremove := effect_doItemRemove heff.sound (hkey'.symm ▸ heff.find_self) hlinked
    (by show 2 ≤ it.refcount + 1; rw [hit.refcount_eq])
  rw [hkey', heff.casId_eq] at hremove
  exact heff.trans hremove

section Store

variable {m : Memory} {setStale : Bool} {comm : NreadComm} {it : StrItem}

def Kept (cfg : Settings) (s : ItemStore) (key : Bytes) (v : Option StrItem) : Prop :=
  match s.visible cfg key with
  | none => v = none
  | some old => ∃ old', v = some old' ∧ Accessed s.currentTime old old'

/-- **Everything `do_store_item` can do.** -/
inductive StoreCase (cfg : Settings) (m : Memory) (setStale : Bool) (comm : NreadComm) (it : StrItem) (s : ItemStore) :
    StoreItemType × StrItem × ItemStore → Prop
  | refused (res : StoreItemType) (s' : ItemStore) (v : Option StrItem)
      (hdec : storeDecision cfg m setStale comm it s.currentTime ((s.visible cfg it.itemKey).map held) = .inl res)
      (hkept : Kept cfg s it.itemKey v) (heff : Effect cfg s s' it.itemKey v s.casId) :
      StoreCase cfg m setStale comm it s (res, it, s')
  | accepted (x : StrItem) (s' : ItemStore) (hcomm : ¬(comm = .append ∨ comm = .prepend)) (hx : Brought cfg x)
      (hkey : x.itemKey = it.itemKey)
      (hdec : storeDecision cfg m setStale comm it s.currentTime ((s.visible cfg it.itemKey).map held) = .inr x)
      (heff : Effect cfg s s' it.itemKey (some (linkedItem cfg s.casId s.currentTime x)) (nextId cfg s.casId)) :
      StoreCase cfg m setStale comm it s (.stored, linkedItem cfg s.casId s.currentTime x, s')
  | joined (x : StrItem) (s' : ItemStore) (hcomm : comm = .append ∨ comm = .prepend) (hx : Brought cfg x)
      (hkey : x.itemKey = it.itemKey)
      (hdec : storeDecision cfg m setStale comm it s.currentTime ((s.visible cfg it.itemKey).map held) = .inr x)
      (heff : Effect cfg s s' it.itemKey (some (storedItem cfg s.casId s.currentTime x)) (nextId cfg s.casId)) :
      StoreCase cfg m setStale comm it s (.stored, storedItem cfg s.casId s.currentTime x, s')

theorem storeCase_absent (hit : Brought cfg it) (hvisible : s.visible cfg it.itemKey = none)
    (heff : Effect cfg s s' it.itemKey none s.casId) (hget : s.doItemGet cfg it.itemKey false false = (none, s')) :
    StoreCase cfg m setStale comm it s (s.doStoreItem cfg m setStale comm it) := by
  have hkept : Kept cfg s it.itemKey none := by rw [Kept, hvisible]
  have hlink : Effect cfg s (s'.doItemLink cfg it).2 it.itemKey (some (linkedItem cfg s.casId s.currentTime it))
      (nextId cfg s.casId) ∧ (s'.doItemLink cfg it).1 = linkedItem cfg s.casId s.currentTime it := by
    obtain ⟨hfst, hlink⟩ := effect_doItemLink heff.sound heff.find_self hit.hasCas hit.two_le
    rw [heff.casId_eq, heff.currentTime_eq] at hfst hlink
    exact ⟨heff.trans hlink, hfst⟩
  unfold doStoreItem
  rw [hget]
  cases comm with
  | add =>
    have h : StoreCase cfg m setStale .add it s (.stored, _, (s'.doItemLink cfg it).2) :=
      .accepted it _ (by simp) hit rfl (by rw [hvisible]; rfl) hlink.1
    rwa [← hlink.2] at h
  | set =>
    have h : StoreCase cfg m setStale .set it s (.stored, _, (s'.doItemLink cfg it).2) :=
      .accepted it _ (by simp) hit rfl (by rw [hvisible]; rfl) hlink.1
    rwa [← hlink.2] at h
  | replace => exact .refused _ _ none (by rw [hvisible]; rfl) hkept heff
  | append => exact .refused _ _ none (by rw [hvisible]; rfl) hkept heff
  | prepend => exact .refused _ _ none (by rw [hvisible]; rfl) hkept heff
  | cas => exact .refused _ _ none (by rw [hvisible]; rfl) hkept heff

theorem replaceOld_found {old x : StrItem} (heff : Effect cfg s s' it.itemKey (some (held old)) s.casId)
    (hkey : x.itemKey = it.itemKey) (hx : Brought cfg x) :
    (s'.replaceOld cfg (held old) x).1 = linkedItem cfg s.casId s.currentTime x ∧
      Effect cfg s (s'.replaceOld cfg (held old) x).2 it.itemKey (some (linkedItem cfg s.casId s.currentTime x))
        (nextId cfg s.casId) := by
  obtain ⟨hfst, hrep⟩ := replaceOld_spec heff.sound heff.find_self hkey hx
  rw [heff.casId_eq, heff.currentTime_eq] at hfst hrep
  exact ⟨hfst, heff.trans hrep⟩

/-- `do_store_item` of `append` and `prepend` when the key is found -/
theorem storeCase_joined (hcomm : comm = .append ∨ comm = .prepend) {old : StrItem}
    (hvisible : s.visible cfg it.itemKey = some old)
    (heff : Effect cfg s s' it.itemKey (some (held old)) s.casId) (hkept : ∃ v, Kept cfg s it.itemKey v ∧
      Effect cfg s (s'.doItemRemove cfg (held old)).2 it.itemKey v s.casId) :
    StoreCase cfg m setStale comm it s
      (if it.itemGetCas ≠ 0 ∧ it.itemGetCas ≠ (held old).itemGetCas then
        (.exists, it, (s'.doItemRemove cfg (held old)).2)
      else
        match combined cfg m s'.currentTime (decide (comm = .append)) it (held old) with
        | none => (.notStored, it, (s'.doItemRemove cfg (held old)).2)
        | some new =>
          let (new, s) := s'.replaceOld cfg (held old) new
          (.stored, s.doItemRemove cfg new)) := by
  obtain ⟨v, hv, hrelease⟩ := hkept
  have hdec : storeDecision cfg m setStale comm it s.currentTime ((s.visible cfg it.itemKey).map held)
      = if it.itemGetCas ≠ 0 ∧ it.itemGetCas ≠ (held old).itemGetCas then .inl .exists
        else match combined cfg m s.currentTime (decide (comm = .append)) it (held old) with
          | none => .inl .notStored
          | some new => .inr new := by
    rw [hvisible]
    rcases hcomm with rfl | rfl <;> rfl
  rw [heff.currentTime_eq]
  split
  · rename_i hcas
    exact .refused _ _ v (by rw [hdec, if_pos hcas]) hv hrelease
  · rename_i hcas
    rw [if_neg hcas] at hdec
    cases hnew : combined cfg m s.currentTime (decide (comm = .append)) it (held old) with
    | none =>
      rw [hnew] at hdec
      exact .refused _ _ v hdec hv hrelease
    | some new =>
      rw [hnew] at hdec
      have hx := combined_isNewItem hnew
      have hbrought := brought_of_isNewItem hx
      obtain ⟨hfst, hrep⟩ := replaceOld_found heff hx.key_eq hbrought
      have hstored := effect_storedItem hx.key_eq hbrought hrep
      have h : StoreCase cfg m setStale comm it s (.stored, _, _) :=
        .joined new _ hcomm hbrought hx.key_eq hdec hstored
      have hpair : (s'.replaceOld cfg (held old) new).2.doItemRemove cfg (s'.replaceOld cfg (held old) new).1
          = (storedItem cfg s.casId s.currentTime new, ((s'.replaceOld cfg (held old) new).2.doItemRemove cfg
            (linkedItem cfg s.casId s.currentTime new)).2) := by
        rw [hfst]
        rfl
      show StoreCase cfg m setStale comm it s (.stored,
        (s'.replaceOld cfg (held old) new).2.doItemRemove cfg (s'.replaceOld cfg (held old) new).1)
      rw [hpair]
      exact h

theorem doStoreItem_cases (m : Memory) (setStale : Bool) (comm : NreadComm) (hs : s.Sound cfg) (hit : Brought cfg it) :
    StoreCase cfg m setStale comm it s (s.doStoreItem cfg m setStale comm it) := by
  have hcases := doItemGet_cases hs it.itemKey false false
  generalize hget : s.doItemGet cfg it.itemKey false false = got at hcases
  cases hcases with
  | miss s' hvisible heff => exact storeCase_absent hit hvisible heff hget
  | hit old old' s' hvisible hacc hplain heff =>
    obtain rfl := hplain rfl
    have hold : Linked cfg old := hs.linked _ _ (find_of_visible hvisible)
    -- an item that is looked at and released
    have hkept : ∀ old' s₁, Accessed s.currentTime (held old) old' →
        Effect cfg s s₁ it.itemKey (some old') s.casId →
        ∃ v, Kept cfg s it.itemKey v ∧ Effect cfg s (s₁.doItemRemove cfg old').2 it.itemKey v s.casId := by
      intro old' s₁ hacc' heff'
      obtain ⟨old'', hacc'', hrelease⟩ := effect_release heff'.sound heff'.find_self hacc' hold
      rw [heff'.casId_eq] at hrelease
      refine ⟨some old'', ?_, heff'.trans hrelease⟩
      rw [Kept, hvisible]
      exact ⟨old'', rfl, hacc''⟩
    -- an item that is stored in place of the one that is found
    have hrep : ∀ x, x.itemKey = it.itemKey → Brought cfg x → ¬(comm = .append ∨ comm = .prepend) →
        storeDecision cfg m setStale comm it s.currentTime ((s.visible cfg it.itemKey).map held) = .inr x →
        StoreCase cfg m setStale comm it s (.stored, s'.replaceOld cfg (held old) x) := by
      intro x hkey hx hcomm hdec
      obtain ⟨hfst, hrep⟩ := replaceOld_found heff hkey hx
      have h : StoreCase cfg m setStale comm it s (.stored, _, _) := .accepted x _ hcomm hx hkey hdec hrep
      rwa [← hfst] at h
    unfold doStoreItem
    rw [hget]
    cases comm with
    | add =>
      obtain ⟨hupd, heffu⟩ := doItemUpdate_spec heff.sound heff.find_self
      rw [heff.currentTime_eq] at hupd
      rw [heff.casId_eq] at heffu
      obtain ⟨v, hv, hrelease⟩ := hkept _ _ hupd (heff.trans heffu)
      exact .refused _ _ v (by rw [hvisible]; rfl) hv hrelease
    | set => exact hrep it rfl hit (by simp) (by rw [hvisible]; rfl)
    | replace => exact hrep it rfl hit (by simp) (by rw [hvisible]; rfl)
    | append => exact storeCase_joined (.inl rfl) hvisible heff (hkept _ _ (.refl _ _) heff)
    | prepend => exact storeCase_joined (.inr rfl) hvisible heff (hkept _ _ (.refl _ _) heff)
    | cas =>
      dsimp only
      split
      · rename_i hcas
        exact hrep it rfl hit (by simp) (by rw [hvisible, Option.map_some, storeDecision, if_pos hcas])
      · rename_i hcas
        split
        · rename_i hstale
          refine hrep _ rfl ⟨hit.hasCas, hit.two_le, hit.refcount_eq, hit.linked_eq⟩ (by simp) ?_
          rw [hvisible, Option.map_some, storeDecision, if_neg hcas, if_pos hstale]
        · rename_i hstale
          obtain ⟨v, hv, hrelease⟩ := hkept _ _ (.refl _ _) heff
          refine .refused _ _ v ?_ hv hrelease
          rw [hvisible, Option.map_some, storeDecision, if_neg hcas, if_neg hstale]

/-- **A storage command that does not store.** -/
theorem completeStore_refused (hs : s.Sound cfg) (hit : Brought cfg it) {res : StoreItemType}
    (hdec : storeDecision cfg m setStale comm it s.currentTime ((s.visible cfg it.itemKey).map held) = .inl res) :
    (s.completeStore cfg m setStale comm it).1 = res ∧ ∃ v, Kept cfg s it.itemKey v ∧
      Effect cfg s (s.completeStore cfg m setStale comm it).2.2 it.itemKey v s.casId := by
  have hcases := doStoreItem_cases m setStale comm hs hit
  unfold completeStore
  generalize s.doStoreItem cfg m setStale comm it = got at hcases
  cases hcases with
  | refused res' s' v hdec' hkept heff =>
    rw [hdec] at hdec'
    refine ⟨(Sum.inl.inj hdec').symm, v, hkept, ?_⟩
    show Effect cfg s (if comm = .append ∨ comm = .prepend then s' else (s'.doItemRemove cfg it).2) _ _ _
    rw [doItemRemove_unlinked hit.linked_eq, ite_self]
    exact heff
  | accepted x s' hcomm hx hkey hdec' heff => simp [hdec] at hdec'
  | joined x s' hcomm hx hkey hdec' heff => simp [hdec] at hdec'

/-- **A storage command that stores.** -/
theorem completeStore_accepted (hs : s.Sound cfg) (hit : Brought cfg it) {x : StrItem}
    (hdec : storeDecision cfg m setStale comm it s.currentTime ((s.visible cfg it.itemKey).map held) = .inr x) :
    (s.completeStore cfg m setStale comm it).1 = .stored ∧
      (s.completeStore cfg m setStale comm it).2.1 = (storedItem cfg s.casId s.currentTime x).itemGetCas ∧
      Effect cfg s (s.completeStore cfg m setStale comm it).2.2 it.itemKey
        (some (storedItem cfg s.casId s.currentTime x)) (nextId cfg s.casId) ∧
      Brought cfg x ∧ x.itemKey = it.itemKey := by
  have hcases := doStoreItem_cases m setStale comm hs hit
  unfold completeStore
  generalize s.doStoreItem cfg m setStale comm it = got at hcases
  cases hcases with
  | refused res' s' v hdec' hkept heff => simp [hdec] at hdec'
  | accepted y s' hcomm hx hkey hdec' heff =>
    rw [hdec] at hdec'
    obtain rfl := Sum.inr.inj hdec'
    refine ⟨rfl, rfl, ?_, hx, hkey⟩
    show Effect cfg s (if comm = .append ∨ comm = .prepend then s'
      else (s'.doItemRemove cfg (linkedItem cfg s.casId s.currentTime x)).2) _ _ _
    rw [if_neg hcomm]
    exact effect_storedItem hkey hx heff
  | joined y s' hcomm hx hkey hdec' heff =>
    rw [hdec] at hdec'
    obtain rfl := Sum.inr.inj hdec'
    refine ⟨rfl, rfl, ?_, hx, hkey⟩
    show Effect cfg s (if comm = .append ∨ comm = .prepend then s' else _) _ _ _
    rw [if_pos hcomm]
    exact heff

end Store

end ItemStore

end BmcCache
