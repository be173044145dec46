import BmcCache.Commands
import BmcCache.ItemStore
import BmcCache.TextParser
import BmcCache.Trace

/-!
# What the storage commands mean

The store of `items.c`, hash chains, reference counts and all, against a map from keys to flags, expiry time and value.

* `StorageOp`, `exec` — one command as the code executes it: the item is allocated and filled, and every reference
  that was taken is released; the clock and the expansion of the hash table may step in between;
* `AbsStore.exec` — the same command on the map;
* `Sim` — a store stands for a map.

**The main result** is `storage_refines_map`: along every sequence of commands the store answers as the map does, and
shows the map through `do_item_get` after every step.
-/

namespace BmcCache

open ByteBuffer ItemStore Function

/-! ### The map -/

@[ext] structure AbsItem where
  flags : UInt32
  exptime : ℕ
  value : Bytes
  deriving DecidableEq, Repr

structure AbsStore where
  items : Bytes → Option AbsItem
  now : ℕ

inductive StorageOp where
  | store (verb : StoreVerb) (key : Bytes) (flags : UInt32) (exptime : ℕ) (value : Bytes) (m : Memory)
  | get (key : Bytes) (doUpdate async : Bool)
  | touch (key : Bytes) (exptime : ℕ) (async : Bool)
  | delete (key : Bytes)
  | clock (now : ℕ)
  | expand
  | moveBucket

inductive StorageResult where
  | code (res : Option StoreItemType)
  | found (x : Option AbsItem)
  | deleted (found : Bool)
  | done
  deriving DecidableEq

namespace AbsStore

def put (a : AbsStore) (key : Bytes) (x : Option AbsItem) : AbsStore := { a with items := update a.items key x }

theorem put_items_self (a : AbsStore) (key : Bytes) (x : Option AbsItem) : (a.put key x).items key = x :=
  update_self _ _ _

theorem put_items_ne (a : AbsStore) {k key : Bytes} (x : Option AbsItem) (h : k ≠ key) :
    (a.put key x).items k = a.items k := update_of_ne h _ _

def stores (verb : StoreVerb) (x : AbsItem) : Option AbsItem → Option AbsItem
  | none =>
    match verb with
    | .set | .add => some x
    | .replace | .append | .prepend => none
  | some old =>
    match verb with
    | .set | .replace => some x
    | .add => none
    | .append => some { old with value := old.value ++ x.value }
    | .prepend => some { old with value := x.value ++ old.value }

def exec (a : AbsStore) : StorageOp → StorageResult × AbsStore
  | .store verb key flags exptime value _ =>
    match stores verb ⟨flags, exptime, value⟩ (a.items key) with
    | none => (.code (some .notStored), a)
    | some x => (.code (some .stored), a.put key (some x))
  | .get key _ _ => (.found (a.items key), a)
  | .touch key exptime _ =>
    (.found ((a.items key).map fun x => { x with exptime := exptime }),
      a.put key ((a.items key).map fun x => { x with exptime := exptime }))
  | .delete key => (.deleted (a.items key).isSome, a.put key none)
  | .clock now => (.done, { a with now := now })
  | .expand | .moveBucket => (.done, a)

end AbsStore

/-! ### The store -/

def StrItem.shown (it : StrItem) : AbsItem := ⟨it.flagsConv, it.exptime, it.value⟩

def bringItem (cfg : Settings) (m : Memory) (now : ℕ) (key : Bytes) (flags : UInt32) (exptime : ℕ)
    (value : Bytes) : Option StrItem :=
  (doItemAlloc cfg m now key flags exptime (value.length + 2)).map fun it =>
    (it.writeData 0 (value ++ crlf)).itemSetCas 0

/-- `do_store_item` without CAS value -/
def StoreVerb.comm : StoreVerb → NreadComm
  | .set => .set
  | .add => .add
  | .replace => .replace
  | .append => .append
  | .prepend => .prepend

namespace ItemStore

def exec (cfg : Settings) (s : ItemStore) : StorageOp → StorageResult × ItemStore
  | .store verb key flags exptime value m =>
    match bringItem cfg m s.currentTime key flags exptime value with
    | none => (.code none, s)
    | some it =>
      let (res, _, s) := s.completeStore cfg m false verb.comm it
      (.code (some res), s)
  | .get key doUpdate async =>
    match s.doItemGet cfg key doUpdate async with
    | (none, s) => (.found none, s)
    | (some it, s) => (.found (some it.shown), (s.doItemRemove cfg it).2)
  | .touch key exptime async =>
    match s.doItemTouch cfg key exptime async with
    | (none, s) => (.found none, s)
    | (some it, s) => (.found (some it.shown), (s.doItemRemove cfg it).2)
  | .delete key =>
    match s.doItemGet cfg key false false with
    | (none, s) => (.deleted false, s)
    | (some it, s) =>
      let (it, s) := s.doItemUnlink cfg it
      (.deleted true, (s.doItemRemove cfg it).2)
  | .clock now => (.done, { s with currentTime := now })
  | .expand => (.done, if s.table.expanding then s else { s with table := s.table.expand })
  | .moveBucket =>
    (.done, if s.table.expanding then { s with table := s.table.moveBucket StrItem.itemKey cfg.hash } else s)

/-- The map that `do_item_get` shows. -/
def view (cfg : Settings) (s : ItemStore) (key : Bytes) : Option AbsItem :=
  (s.doItemGet cfg key false false).1.map StrItem.shown

end ItemStore

/-! ### The store stands for the map -/

/-- An item without chunks that shows `x`. -/
structure Shows (it : StrItem) (x : AbsItem) : Prop where
  plain : it.chunks = none
  flags_eq : it.flagsConv = x.flags
  exptime_eq : it.exptime = x.exptime
  data_eq : it.itemData = x.value ++ crlf

def AbsItem.Alive (x : AbsItem) (now : ℕ) : Prop := x.exptime = 0 ∨ now < x.exptime

/-- **The simulation relation.** -/
structure Sim (cfg : Settings) (s : ItemStore) (a : AbsStore) : Prop where
  sound : s.Sound cfg
  noFlush : s.oldestLive = 0
  now_eq : s.currentTime = a.now
  alive : ∀ key x, a.items key = some x → x.Alive a.now
  items : ∀ key, Option.Rel Shows (s.assocFind cfg key) (a.items key)

/-- What is asked of a command: the keys and the sizes that the code accepts, memory, and no item that expires. -/
def StorageOp.Valid (cfg : Settings) (a : AbsStore) : StorageOp → Prop
  | .store verb key flags exptime value m =>
    key.length ≤ keyMaxLength ∧ m.Enough ∧ (exptime = 0 ∨ a.now < exptime) ∧
      itemSize cfg key.length flags (value.length + 2) ≤ cfg.slabChunkSizeMax ∧
      ∀ old, a.items key = some old → ∀ x, AbsStore.stores verb ⟨flags, exptime, value⟩ (some old) =
        some x →
        itemSize cfg key.length x.flags (x.value.length + 2) ≤ cfg.slabChunkSizeMax
  | .touch _ exptime _ => exptime = 0 ∨ a.now < exptime
  | .clock now => ∀ key x, a.items key = some x → x.Alive now
  | _ => True

namespace Shows

variable {it : StrItem} {x : AbsItem}

theorem nbytes_eq (h : Shows it x) : it.nbytes = x.value.length + 2 := by
  rw [← it.itemData_length h.plain, h.data_eq, List.length_append]
  rfl

theorem value_eq (h : Shows it x) : it.value = x.value := by
  rw [StrItem.value, h.nbytes_eq, h.data_eq, Nat.add_sub_cancel, List.take_left]

theorem shown_eq (h : Shows it x) : it.shown = x := by
  rw [StrItem.shown, h.flags_eq, h.exptime_eq, h.value_eq]

theorem content_eq (h : Shows it x) : it.content = x.value ++ crlf := by
  rw [StrItem.content, h.plain, Option.elim_none, h.data_eq]

theorem accessed (h : Shows it x) {now : ℕ} {it' : StrItem} (hacc : Accessed now it it') : Shows it' x := by
  obtain ⟨time, refcount, lruid, fetched, active, htime, hrefs⟩ := hacc
  exact ⟨h.plain, h.flags_eq, h.exptime_eq, h.data_eq⟩

theorem storedItem (h : Shows it x) (cfg : Settings) (casId now : ℕ) :
    Shows (storedItem cfg casId now it) x where
  plain := h.plain
  flags_eq := (StrItem.flagsConv_itemSetCas _).trans h.flags_eq
  exptime_eq := h.exptime_eq
  data_eq := (StrItem.itemData_itemSetCas _).trans h.data_eq

end Shows

theorem sim_start (cfg : Settings) (power casId now : ℕ) :
    Sim cfg (ItemStore.start power casId now) ⟨fun _ => none, now⟩ where
  sound := sound_start cfg power casId now
  noFlush := rfl
  now_eq := rfl
  alive := by simp
  items := fun key => by
    rw [assocFind_start]
    exact .none

namespace Sim

variable {cfg : Settings} {s s' : ItemStore} {a : AbsStore}

/-- Nothing is flushed and nothing has expired: everything in the table is visible. -/
theorem visible_eq (h : Sim cfg s a) (key : Bytes) : s.visible cfg key = s.assocFind cfg key := by
  have hrel := h.items key
  unfold visible
  cases hfind : s.assocFind cfg key with
  | none => rfl
  | some it =>
    rw [hfind] at hrel
    generalize hx : a.items key = ax at hrel
    cases hrel with
    | some hr =>
      rename_i x
      have halive := h.alive key x hx
      rw [Option.filter_some, if_pos]
      rw [AbsItem.Alive, ← h.now_eq, ← hr.exptime_eq] at halive
      simp only [itemIsFlushed, h.noFlush, true_or, if_true, itemIsExpired, Bool.false_or, Bool.not_eq_true',
        decide_eq_false_iff_not]
      omega

theorem step (h : Sim cfg s a) {key : Bytes} {v : Option StrItem} {x : Option AbsItem} {c : ℕ}
    (heff : Effect cfg s s' key v c) (hrel : Option.Rel Shows v x) (halive : ∀ y, x = some y → y.Alive a.now) :
    Sim cfg s' (a.put key x) where
  sound := heff.sound
  noFlush := heff.oldestLive_eq.trans h.noFlush
  now_eq := heff.currentTime_eq.trans h.now_eq
  alive := by
    intro k y hy
    by_cases hk : k = key
    · subst hk
      rw [AbsStore.put_items_self] at hy
      exact halive y hy
    · rw [AbsStore.put_items_ne _ _ hk] at hy
      exact h.alive k y hy
  items := by
    intro k
    by_cases hk : k = key
    · subst hk
      rw [heff.find_self, AbsStore.put_items_self]
      exact hrel
    · rw [heff.find_ne hk, AbsStore.put_items_ne _ _ hk]
      exact h.items k

end Sim

/-! ### Storing -/

section Storing

variable {cfg : Settings} {s : ItemStore} {a : AbsStore} {m : Memory}

/-- An item that stays within `slab_chunk_size_max` is allocated, and without chunks. -/
theorem alloc_within (hcfg : cfg.slabChunkSizeMax ≤ cfg.itemSizeMax) (hm : m.Enough) (now : ℕ) {key : Bytes}
    {flags : UInt32} (exptime : ℕ) {nbytes : ℕ} (htwo : 2 ≤ nbytes)
    (hsize : itemSize cfg key.length flags nbytes ≤ cfg.slabChunkSizeMax) :
    ∃ it, doItemAlloc cfg m now key flags exptime nbytes = some it ∧ IsNewItem cfg key flags exptime nbytes it ∧
      it.chunks = none := by
  obtain ⟨it, halloc⟩ := doItemAlloc_isSome hm now exptime htwo (hsize.trans hcfg)
  have hnew := (doItemAlloc_eq_some halloc).1
  refine ⟨it, halloc, hnew, ?_⟩
  have hsome := hnew.isSome_chunks
  rw [decide_eq_false (by omega)] at hsome
  exact Option.not_isSome_iff_eq_none.mp (by rw [hsome]; simp)

theorem bringItem_spec (hcfg : cfg.slabChunkSizeMax ≤ cfg.itemSizeMax) (hm : m.Enough) (now : ℕ) {key : Bytes}
    {flags : UInt32} (exptime : ℕ) {value : Bytes}
    (hsize : itemSize cfg key.length flags (value.length + 2) ≤ cfg.slabChunkSizeMax) :
    ∃ it, bringItem cfg m now key flags exptime value = some it ∧ Brought cfg it ∧ it.itemKey = key ∧
      Shows it ⟨flags, exptime, value⟩ ∧ it.itemGetCas = 0 := by
  obtain ⟨it, halloc, hnew, hplain⟩ := alloc_within hcfg hm now exptime (Nat.le_add_left 2 value.length) hsize
  have hfilled := hnew.writeData 0 (value ++ crlf)
  have hdata : (it.writeData 0 (value ++ crlf)).itemData = value ++ crlf := by
    have hlen := it.itemData_length hplain
    rw [hnew.nbytes_eq] at hlen
    have hall : (value ++ crlf).length = it.itemData.length := by rw [hlen, List.length_append]; rfl
    rw [StrItem.itemData_writeData, blit_all _ _ hall]
  refine ⟨(it.writeData 0 (value ++ crlf)).itemSetCas 0, by rw [bringItem, halloc]; rfl, ?_, ?_, ?_, ?_⟩
  · have h := brought_of_isNewItem hfilled
    exact ⟨h.hasCas, h.two_le, h.refcount_eq, h.linked_eq⟩
  · rw [StrItem.itemKey_itemSetCas]
    exact hfilled.key_eq
  · exact ⟨hplain, (StrItem.flagsConv_itemSetCas _).trans hfilled.flags_eq, hfilled.exptime_eq,
      (StrItem.itemData_itemSetCas _).trans hdata⟩
  · rw [StrItem.itemGetCas_itemSetCas]
    simp

theorem combined_spec (hcfg : cfg.slabChunkSizeMax ≤ cfg.itemSizeMax) (hm : m.Enough) (now : ℕ) (append : Bool)
    {it old : StrItem} {x y : AbsItem} (hit : Shows it x) (hold : Shows old y)
    (hsize : itemSize cfg it.itemKey.length y.flags (x.value.length + y.value.length + 2) ≤ cfg.slabChunkSizeMax) :
    ∃ new, combined cfg m now append it old = some new ∧
      Shows new { y with value := if append then y.value ++ x.value else x.value ++ y.value } := by
  have hitn := hit.nbytes_eq
  have holdn := hold.nbytes_eq
  have hsum : it.nbytes + old.nbytes - 2 = x.value.length + y.value.length + 2 := by omega
  obtain ⟨new, halloc, hnew, hplain⟩ := alloc_within hcfg hm now old.exptime
    (show 2 ≤ it.nbytes + old.nbytes - 2 by omega)
    (show itemSize cfg it.itemKey.length old.flagsConv _ ≤ _ by rw [hsum, hold.flags_eq]; exact hsize)
  obtain ⟨off, src₁, src₂, hcopy, hdata⟩ := storeItemCopyData_plain cfg m append hplain hold.plain
    hit.plain (by omega) (by omega) hnew.nbytes_eq
  have hfilled := (hnew.writeData 0 src₁).writeData off src₂
  refine ⟨_, by rw [combined, halloc, Option.bind_some, hcopy], ?_⟩
  refine ⟨hplain, hfilled.flags_eq.trans hold.flags_eq, hfilled.exptime_eq.trans hold.exptime_eq, ?_⟩
  rw [StrItem.itemData_writeData, StrItem.itemData_writeData, hdata, hold.content_eq, hit.content_eq, hitn, holdn]
  cases append with
  | true => simp
  | false => simp

/-- **The decision of `do_store_item` is that of the map.** -/
theorem storeDecision_spec (hcfg : cfg.slabChunkSizeMax ≤ cfg.itemSizeMax) (hm : m.Enough) (now : ℕ)
    (verb : StoreVerb)
    {it : StrItem} {x : AbsItem} (hit : Shows it x) (hcas : it.itemGetCas = 0) {old : Option StrItem}
    {y : Option AbsItem} (hold : Option.Rel Shows old y)
    (hsize : ∀ y', y = some y' → ∀ z, AbsStore.stores verb x (some y') = some z →
      itemSize cfg it.itemKey.length z.flags (z.value.length + 2) ≤ cfg.slabChunkSizeMax) :
    match AbsStore.stores verb x y with
    | none => storeDecision cfg m false verb.comm it now old = .inl .notStored
    | some z => ∃ it', storeDecision cfg m false verb.comm it now old = .inr it' ∧ Shows it' z := by
  cases hold with
  | none =>
    cases verb with
    | set => exact ⟨it, rfl, hit⟩
    | add => exact ⟨it, rfl, hit⟩
    | replace => rfl
    | append => rfl
    | prepend => rfl
  | some hr =>
    rename_i old y
    have hguard : ¬(it.itemGetCas ≠ 0 ∧ it.itemGetCas ≠ old.itemGetCas) := by simp [hcas]
    cases verb with
    | set => exact ⟨it, rfl, hit⟩
    | replace => exact ⟨it, rfl, hit⟩
    | add => rfl
    | append =>
      have h := hsize y rfl { y with value := y.value ++ x.value } rfl
      rw [List.length_append, Nat.add_comm y.value.length] at h
      obtain ⟨new, hnew, hshows⟩ := combined_spec hcfg hm now true hit hr h
      refine ⟨new, ?_, hshows⟩
      show (if it.itemGetCas ≠ 0 ∧ it.itemGetCas ≠ old.itemGetCas then _ else
        match combined cfg m now true it old with | none => _ | some new => _) = _
      rw [if_neg hguard, hnew]
    | prepend =>
      have h := hsize y rfl { y with value := x.value ++ y.value } rfl
      rw [List.length_append] at h
      obtain ⟨new, hnew, hshows⟩ := combined_spec hcfg hm now false hit hr h
      refine ⟨new, ?_, hshows⟩
      show (if it.itemGetCas ≠ 0 ∧ it.itemGetCas ≠ old.itemGetCas then _ else
        match combined cfg m now false it old with | none => _ | some new => _) = _
      rw [if_neg hguard, hnew]

end Storing

/-! ### One command -/

namespace Sim

variable {cfg : Settings} {s s' : ItemStore} {a : AbsStore}

theorem keep (h : Sim cfg s a) {key : Bytes} {v : Option StrItem} {c : ℕ} (heff : Effect cfg s s' key v c)
    (hrel : Option.Rel Shows v (a.items key)) : Sim cfg s' a := by
  have hput : a.put key (a.items key) = a := by rw [AbsStore.put, update_eq_self]
  rw [← hput]
  exact h.step heff hrel fun y hy => h.alive key y hy

theorem rel_visible (h : Sim cfg s a) (key : Bytes) : Option.Rel Shows (s.visible cfg key) (a.items key) := by
  rw [h.visible_eq]
  exact h.items key

theorem rel_held {old : Option StrItem} {y : Option AbsItem} (h : Option.Rel Shows old y) :
    Option.Rel Shows (old.map held) y := by
  cases h with
  | none => exact .none
  | some hr => exact .some (hr.accessed (Accessed.held 0 _))

theorem rel_kept {key : Bytes} {v : Option StrItem} (h : Sim cfg s a) (hkept : Kept cfg s key v) :
    Option.Rel Shows v (a.items key) := by
  have hrel := h.rel_visible key
  unfold Kept at hkept
  generalize s.visible cfg key = found at hrel hkept
  generalize a.items key = y at hrel
  cases hrel with
  | none =>
    subst hkept
    exact .none
  | some hr =>
    obtain ⟨old', rfl, hacc⟩ := hkept
    exact .some (hr.accessed hacc)

/-- `append` and `prepend` keep the expiry time of the item that was there. -/
theorem stores_alive {verb : StoreVerb} {x z : AbsItem} {y : Option AbsItem} {now : ℕ} (hx : x.Alive now)
    (hy : ∀ y', y = some y' → y'.Alive now) (h : AbsStore.stores verb x y = some z) : z.Alive now := by
  cases y with
  | none =>
    cases verb <;> simp only [AbsStore.stores, Option.some.injEq, reduceCtorEq] at h
    all_goals exact h ▸ hx
  | some y =>
    have hy' := hy y rfl
    cases verb <;> simp only [AbsStore.stores, Option.some.injEq, reduceCtorEq] at h
    · exact h ▸ hx
    · exact h ▸ hx
    · rw [← h]
      exact hy'
    · rw [← h]
      exact hy'

/-- **A storage command.** -/
theorem store (h : Sim cfg s a) (hcfg : cfg.slabChunkSizeMax ≤ cfg.itemSizeMax) {verb : StoreVerb} {key : Bytes}
    {flags : UInt32} {exptime : ℕ} {value : Bytes} {m : Memory}
    (hvalid : (StorageOp.store verb key flags exptime value m).Valid cfg a) :
    (s.exec cfg (.store verb key flags exptime value m)).1 = (a.exec (.store verb key flags exptime value m)).1 ∧
      Sim cfg (s.exec cfg (.store verb key flags exptime value m)).2
        (a.exec (.store verb key flags exptime value m)).2 := by
  obtain ⟨-, hm, hexp, hsize, hjoined⟩ := hvalid
  obtain ⟨it, hbring, hbrought, hkey, hshows, hcas⟩ := bringItem_spec hcfg hm s.currentTime exptime hsize
  have hheld : Option.Rel Shows ((s.visible cfg it.itemKey).map held) (a.items key) := by
    rw [hkey]
    exact rel_held (h.rel_visible key)
  have hdec := storeDecision_spec hcfg hm s.currentTime verb hshows hcas hheld
    (fun y' hy z hz => by rw [hkey]; exact hjoined y' hy z hz)
  simp only [ItemStore.exec, AbsStore.exec]
  rw [hbring]
  dsimp only
  cases hstores : AbsStore.stores verb ⟨flags, exptime, value⟩ (a.items key) with
  | none =>
    rw [hstores] at hdec
    obtain ⟨hres, v, hkept, heff⟩ := completeStore_refused h.sound hbrought hdec
    rw [hkey] at hkept heff
    exact ⟨by rw [hres], h.keep heff (h.rel_kept hkept)⟩
  | some z =>
    rw [hstores] at hdec
    obtain ⟨it', hinr, hshows'⟩ := hdec
    obtain ⟨hres, -, heff, -, -⟩ := completeStore_accepted h.sound hbrought hinr
    rw [hkey] at heff
    refine ⟨by rw [hres], h.step heff (.some (hshows'.storedItem _ _ _)) ?_⟩
    rintro y ⟨⟩
    exact stores_alive (x := ⟨flags, exptime, value⟩) hexp (h.alive key) hstores

/-- **A retrieval.** -/
theorem get (h : Sim cfg s a) (key : Bytes) (doUpdate async : Bool) :
    (s.exec cfg (.get key doUpdate async)).1 = (a.exec (.get key doUpdate async)).1 ∧
      Sim cfg (s.exec cfg (.get key doUpdate async)).2 (a.exec (.get key doUpdate async)).2 := by
  have hcases := doItemGet_cases h.sound key doUpdate async
  have hrel := h.rel_visible key
  simp only [ItemStore.exec, AbsStore.exec]
  generalize s.doItemGet cfg key doUpdate async = got at hcases ⊢
  cases hcases with
  | miss s' hvisible heff =>
    rw [hvisible] at hrel
    generalize hy : a.items key = y at hrel
    cases hrel with
    | none => exact ⟨rfl, h.keep heff (hy ▸ .none)⟩
  | hit it it' s' hvisible hacc hplain heff =>
    rw [hvisible] at hrel
    generalize hy : a.items key = y at hrel
    cases hrel with
    | some hr =>
      have hit : Linked cfg it := h.sound.linked _ _ (find_of_visible hvisible)
      obtain ⟨it'', hacc'', hrelease⟩ := effect_release heff.sound heff.find_self hacc hit
      have hshown := ((hr.accessed (Accessed.held s.currentTime it)).accessed hacc).shown_eq
      refine ⟨congrArg (fun x => StorageResult.found (some x)) hshown, h.keep (heff.trans hrelease) ?_⟩
      rw [hy]
      exact .some (hr.accessed hacc'')

/-- **`touch`.** -/
theorem touch (h : Sim cfg s a) {key : Bytes} {exptime : ℕ} {async : Bool}
    (hvalid : (StorageOp.touch key exptime async).Valid cfg a) :
    (s.exec cfg (.touch key exptime async)).1 = (a.exec (.touch key exptime async)).1 ∧
      Sim cfg (s.exec cfg (.touch key exptime async)).2 (a.exec (.touch key exptime async)).2 := by
  have hcases := doItemGet_cases h.sound key true async
  have hrel := h.rel_visible key
  simp only [ItemStore.exec, AbsStore.exec, doItemTouch]
  generalize s.doItemGet cfg key true async = got at hcases ⊢
  cases hcases with
  | miss s' hvisible heff =>
    rw [hvisible] at hrel
    generalize hy : a.items key = y at hrel
    cases hrel with
    | none => exact ⟨rfl, h.step heff .none (by simp)⟩
  | hit it it' s' hvisible hacc hplain heff =>
    rw [hvisible] at hrel
    generalize hy : a.items key = y at hrel
    cases hrel with
    | some hr =>
      rename_i x
      have hit : Linked cfg it := h.sound.linked _ _ (find_of_visible hvisible)
      have hit : Linked cfg { it with exptime := exptime } :=
        ⟨hit.linked, hit.hasCas, hit.two_le, hit.refcount_pos⟩
      have htouched : Shows { it with exptime := exptime } { x with exptime := exptime } :=
        ⟨hr.plain, hr.flags_eq, rfl, hr.data_eq⟩
      have hacc' : Accessed s.currentTime (held { it with exptime := exptime }) { it' with exptime := exptime } := by
        obtain ⟨time, refcount, lruid, fetched, active, htime, hrefs⟩ := hacc
        exact .mk _ _ _ _ _ htime hrefs
      have hkey : it'.itemKey = key := Sound.key_eq heff.find_self
      have hput := @effect_put _ _ heff.sound { it' with exptime := exptime } _ (hkey.symm ▸ heff.find_self)
        (hacc'.linked ((Accessed.held s.currentTime _).linked hit))
      rw [show StrItem.itemKey { it' with exptime := exptime } = key from hkey] at hput
      obtain ⟨it'', hacc'', hrelease⟩ := effect_release hput.sound hput.find_self hacc' hit
      have hshown := ((htouched.accessed (Accessed.held s.currentTime _)).accessed hacc').shown_eq
      refine ⟨congrArg (fun x => StorageResult.found (some x)) hshown, ?_⟩
      refine h.step ((heff.trans hput).trans hrelease) (.some (htouched.accessed hacc'')) ?_
      rintro y ⟨⟩
      exact hvalid

/-- **`delete`.** -/
theorem delete (h : Sim cfg s a) (key : Bytes) :
    (s.exec cfg (.delete key)).1 = (a.exec (.delete key)).1 ∧
      Sim cfg (s.exec cfg (.delete key)).2 (a.exec (.delete key)).2 := by
  have hcases := doItemGet_cases h.sound key false false
  have hrel := h.rel_visible key
  simp only [ItemStore.exec, AbsStore.exec]
  generalize s.doItemGet cfg key false false = got at hcases ⊢
  cases hcases with
  | miss s' hvisible heff =>
    rw [hvisible] at hrel
    generalize hy : a.items key = y at hrel
    cases hrel with
    | none => exact ⟨rfl, h.step heff .none (by simp)⟩
  | hit it it' s' hvisible hacc hplain heff =>
    rw [hvisible] at hrel
    generalize hy : a.items key = y at hrel
    cases hrel with
    | some hr =>
      have hkey : it'.itemKey = key := Sound.key_eq heff.find_self
      obtain ⟨hunlink, hunlinked⟩ := effect_doItemUnlink heff.sound (heff.sound.linked _ _ heff.find_self).linked
      rw [hkey] at hunlink
      refine ⟨rfl, ?_⟩
      dsimp only
      rw [doItemRemove_unlinked hunlinked]
      exact h.step (heff.trans hunlink) .none (by simp)

theorem of_find (h : Sim cfg s a) (hgood : s'.table.Good StrItem.itemKey cfg.hash)
    (hfind : s'.assocFind cfg = s.assocFind cfg) (hlive : s'.oldestLive = s.oldestLive)
    (hnow : s'.currentTime = s.currentTime) : Sim cfg s' a where
  sound := ⟨hgood, by rw [hfind]; exact h.sound.linked⟩
  noFlush := hlive.trans h.noFlush
  now_eq := hnow.trans h.now_eq
  alive := h.alive
  items := by rw [hfind]; exact h.items

/-- **One command**, or the clock, or a step of the expansion of the table. -/
theorem exec (hcfg : cfg.slabChunkSizeMax ≤ cfg.itemSizeMax) (h : Sim cfg s a) {op : StorageOp}
    (hvalid : op.Valid cfg a) :
    (s.exec cfg op).1 = (a.exec op).1 ∧ Sim cfg (s.exec cfg op).2 (a.exec op).2 := by
  cases op with
  | store verb key flags exptime value m => exact h.store hcfg hvalid
  | get key doUpdate async => exact h.get key doUpdate async
  | touch key exptime async => exact h.touch hvalid
  | delete key => exact h.delete key
  | clock now =>
    exact ⟨rfl, ⟨h.sound.good, h.sound.linked⟩, h.noFlush, rfl, hvalid, h.items⟩
  | expand =>
    refine ⟨rfl, ?_⟩
    simp only [ItemStore.exec, AbsStore.exec]
    split
    · exact h
    · rename_i hexp
      have hexp' : s.table.expanding = false := by simpa using hexp
      exact h.of_find (h.sound.good.expand hexp') (funext fun k => ChainTable.find_expand hexp' k) rfl rfl
  | moveBucket =>
    refine ⟨rfl, ?_⟩
    simp only [ItemStore.exec, AbsStore.exec]
    split
    · rename_i hexp
      exact h.of_find (h.sound.good.moveBucket hexp) (funext fun k => h.sound.good.find_moveBucket hexp k) rfl rfl
    · exact h

theorem view_eq (h : Sim cfg s a) : s.view cfg = a.items := by
  funext key
  have hcases := doItemGet_cases h.sound key false false
  have hrel := h.rel_visible key
  unfold ItemStore.view
  generalize s.doItemGet cfg key false false = got at hcases ⊢
  cases hcases with
  | miss s' hvisible heff =>
    rw [hvisible] at hrel
    generalize a.items key = y at hrel
    cases hrel with
    | none => rfl
  | hit it it' s' hvisible hacc hplain heff =>
    rw [hvisible] at hrel
    generalize a.items key = y at hrel
    cases hrel with
    | some hr =>
      have hshown := ((hr.accessed (Accessed.held s.currentTime it)).accessed hacc).shown_eq
      exact congrArg some hshown

end Sim

/-! ### Every sequence of commands -/

def ItemStore.step (cfg : Settings) (s : ItemStore) (op : StorageOp) : ItemStore := (s.exec cfg op).2

def ItemStore.answer (cfg : Settings) (s : ItemStore) (op : StorageOp) : StorageResult := (s.exec cfg op).1

def AbsStore.step (a : AbsStore) (op : StorageOp) : AbsStore := (a.exec op).2

def AbsStore.answer (a : AbsStore) (op : StorageOp) : StorageResult := (a.exec op).1

def AbsStore.start (now : ℕ) : AbsStore := ⟨fun _ => none, now⟩

/-- **The storage commands mean what the map says.**  From a store without items, whatever the hash function is: every
answer is that of the map, and after every step `do_item_get` shows the map. -/
theorem storage_refines_map (cfg : Settings) (hcfg : cfg.slabChunkSizeMax ≤ cfg.itemSizeMax) (power casId now : ℕ)
    (ops : List StorageOp)
    (hvalid : Trace.All AbsStore.step (fun a op => op.Valid cfg a) (AbsStore.start now) ops) :
    Trace.outputs (ItemStore.step cfg) (ItemStore.answer cfg) (ItemStore.start power casId now) ops
        = Trace.outputs AbsStore.step AbsStore.answer (AbsStore.start now) ops ∧
      ∀ front, front <+: ops →
        (Trace.run (ItemStore.step cfg) (ItemStore.start power casId now) front).view cfg
          = (Trace.run AbsStore.step (AbsStore.start now) front).items := by
  have hstep : ∀ s a op, Sim cfg s a → StorageOp.Valid cfg a op →
      ItemStore.answer cfg s op = a.answer op ∧ Sim cfg (ItemStore.step cfg s op) (a.step op) :=
    fun s a op h hop => h.exec hcfg hop
  have hstart : Sim cfg (ItemStore.start power casId now) (AbsStore.start now) := sim_start cfg power casId now
  refine ⟨(Trace.run_simulation (Sim cfg) hstep _ _ ops hstart hvalid).1, fun front hfront => ?_⟩
  obtain ⟨rest, rfl⟩ := hfront
  have hfront := ((Trace.all_append _ _ _ _ _).mp hvalid).1
  exact (Trace.run_simulation (Sim cfg) hstep _ _ front hstart hfront).2.view_eq

/-- Two keys in one chain: `"a"` is set and appended to, `"b"` is added in between. -/
theorem storage_refines_map_colliding :
    Trace.outputs (ItemStore.step smallChunks) (ItemStore.answer smallChunks) (ItemStore.start 4 0 2)
        [.store .set [97] 5 0 [49] zeroMemory, .store .add [98] 0 9 [50] zeroMemory,
          .store .append [97] 7 0 [51] zeroMemory]
      = [.code (some .stored), .code (some .stored), .code (some .stored)] ∧
    (Trace.run (ItemStore.step smallChunks) (ItemStore.start 4 0 2)
        [.store .set [97] 5 0 [49] zeroMemory, .store .add [98] 0 9 [50] zeroMemory,
          .store .append [97] 7 0 [51] zeroMemory]).view smallChunks [97]
      = some ⟨5, 0, [49, 51]⟩ := by
  have h := storage_refines_map smallChunks (by decide) 4 0 2
    [.store .set [97] 5 0 [49] zeroMemory, .store .add [98] 0 9 [50] zeroMemory,
      .store .append [97] 7 0 [51] zeroMemory]
    (by
      refine ⟨⟨by decide, zeroMemory_enough, .inl rfl, by decide, ?_⟩,
        ⟨by decide, zeroMemory_enough, .inr (by decide), by decide, ?_⟩,
        ⟨by decide, zeroMemory_enough, .inl rfl, by decide, ?_⟩, trivial⟩
      · rintro old ⟨⟩
      · rintro old ⟨⟩
      · rintro old ⟨⟩ x ⟨⟩
        decide)
  exact ⟨h.1.trans (by decide), (congrFun (h.2 _ List.prefix_rfl) [97]).trans (by decide)⟩

end BmcCache
