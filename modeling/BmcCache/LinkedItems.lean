import BmcCache.Assoc
import BmcCache.Items
import BmcCache.LruLists
import Mathlib.Algebra.BigOperators.Group.Finset.Basic
import Mathlib.Data.Finset.Basic

/-!
# `items.c`: linking and unlinking items

A linked item is in the hash table and on the LRU list of its `slabs_clsid`, and it is counted.

* `doItemLink`, `doItemUnlink`, `doItemUnlinkNolock`, `doItemReplace`, `doItemUpdate`, `doItemRemove` — the
  functions, on the lists, the table and the item headers;
* `TableOf` — the items of the table are those of a set, each under its key;
* `LruState.Inv` — the flags, the table, the lists and the counters agree on the set of linked items. A linked
  item may be off its list while it moves to another one;
* `Inv.enter`, `Inv.putBack` — a new item is entered, and put on the list of its id; `Inv.takeOff`, `Inv.leave`
  — the way back; `Inv.modify`, `Inv.rewrite` — the other fields of an item, and all fields of one that is not
  linked.

The functions are compositions of these.
-/

namespace BmcCache

open AssocState DoublyLinked Function

/-! ### Items -/

/-- `it_flags`: the bits that are read here, and the others. -/
structure ItemFlags where
  linked : Bool
  cas : Bool
  slabbed : Bool
  fetched : Bool
  active : Bool
  cflags : Bool
  other : ℕ
  deriving DecidableEq

/-- `it_flags = 0` -/
def ItemFlags.zero : ItemFlags := ⟨false, false, false, false, false, false, 0⟩

/-- `it_flags = 1` -/
def ItemFlags.one : ItemFlags := { ItemFlags.zero with linked := true }

/-- The header of an item; its links, its `slabs_clsid` and its key are kept with the lists and the table. -/
structure ItemHeader where
  time : UInt32
  exptime : UInt32
  nbytes : ℕ
  refcount : ℕ
  cas : UInt64
  flags : ItemFlags

def ItemHeader.itemGetCas (h : ItemHeader) : UInt64 := if h.flags.cas then h.cas else 0

def ItemHeader.itemSetCas (h : ItemHeader) (v : UInt64) : ItemHeader := if h.flags.cas then { h with cas := v } else h

/-- What `items.c` reads of `settings`, and `current_time`. -/
structure LruSettings where
  useCas : Bool
  lruSegmented : Bool
  evictToFree : Bool
  hotLruPct : UInt64
  warmLruPct : UInt64
  tailRepairTime : UInt32
  oldestLive : UInt32
  oldestCas : UInt64
  currentTime : UInt32

def LruSettings.itemIsFlushed (cfg : LruSettings) (h : ItemHeader) : Bool :=
  if cfg.oldestLive = 0 ∨ cfg.currentTime < cfg.oldestLive then false
  else decide (h.time ≤ cfg.oldestLive ∨
    (cfg.oldestCas ≠ 0 ∧ h.itemGetCas ≠ 0 ∧ h.itemGetCas < cfg.oldestCas))

/-- The lists, the table, the headers and the counters; `remaining` is a field of the crawlers. -/
structure LruState where
  q : LruLists
  assoc : AssocState
  hdr : ℕ → ItemHeader
  currItems : UInt64
  currBytes : UInt64
  casId : UInt64
  remaining : UInt8 → UInt32

namespace LruState

def init (hashpower : ℕ) : LruState where
  q := LruLists.init
  assoc := assocInit hashpower
  hdr := fun _ => ⟨0, 0, 0, 0, 0, .zero⟩
  currItems := 0
  currBytes := 0
  casId := 0
  remaining := fun _ => 0

/-- `ITEM_ntotal` -/
def ntotal (s : LruState) (it : ℕ) : ℕ :=
  sizeofItem + (s.assoc.key it).length + 1 + (s.hdr it).nbytes + flagsSize (s.hdr it).flags.cflags +
    casSize (s.hdr it).flags.cas

def modify (s : LruState) (it : ℕ) (f : ItemHeader → ItemHeader) : LruState :=
  { s with hdr := update s.hdr it (f (s.hdr it)) }

/-- `item_free`; what the slab allocator writes into the free chunk is a step of its own. -/
def itemFree (s : LruState) (it : ℕ) : LruState :=
  s.modify it fun h => { h with flags := { ItemFlags.zero with slabbed := true } }

def doItemRemove (s : LruState) (it : ℕ) : LruState :=
  let s := s.modify it fun h => { h with refcount := h.refcount - 1 }
  if (s.hdr it).refcount = 0 then s.itemFree it else s

def itemLinkQ (s : LruState) (it : ℕ) : LruState := { s with q := s.q.doItemLinkQ it (s.ntotal it) }

def itemUnlinkQ (s : LruState) (it : ℕ) : LruState := { s with q := s.q.doItemUnlinkQ it (s.ntotal it) }

/-- `it->slabs_clsid = ITEM_clsid(it); it->slabs_clsid |= lru` -/
def setLru (s : LruState) (it : ℕ) (lru : UInt8) : LruState :=
  { s with q := s.q.setClsid it (s.q.slabsClsid it &&& 63 ||| lru) }

def doItemLink (cfg : LruSettings) (it hv : ℕ) (s : LruState) : LruState :=
  let s := s.modify it fun h => { h with flags := { h.flags with linked := true }, time := cfg.currentTime }
  let s := { s with currBytes := s.currBytes + UInt64.ofNat (s.ntotal it), currItems := s.currItems + 1 }
  -- allocate a new CAS id on link
  let s := if cfg.useCas then { s with casId := s.casId + 1 } else s
  let s := s.modify it fun h => h.itemSetCas (if cfg.useCas then s.casId else 0)
  let s := { s with assoc := s.assoc.assocInsert it hv }
  let s := s.itemLinkQ it
  s.modify it fun h => { h with refcount := h.refcount + 1 }

/-- `do_item_unlink_nolock`, with the lock of the list held -/
def doItemUnlinkNolock (fuel it hv : ℕ) (s : LruState) : Option LruState :=
  if (s.hdr it).flags.linked then
    let s := s.modify it fun h => { h with flags := { h.flags with linked := false } }
    let s := { s with currBytes := s.currBytes - UInt64.ofNat (s.ntotal it), currItems := s.currItems - 1 }
    match s.assoc.assocDelete fuel (s.assoc.key it) hv with
    | none => none
    | some assoc => some (({ s with assoc := assoc }.itemUnlinkQ it).doItemRemove it)
  else some s

/-- `do_item_unlink` takes the lock of the list itself. -/
def doItemUnlink (fuel it hv : ℕ) (s : LruState) : Option LruState := s.doItemUnlinkNolock fuel it hv

def doItemReplace (cfg : LruSettings) (fuel it newIt hv : ℕ) (s : LruState) : Option LruState :=
  match s.doItemUnlink fuel it hv with
  | none => none
  | some s => some (s.doItemLink cfg newIt hv)

/-- `COLD_LRU` and the others -/
def lruBits : LruId → UInt8
  | .hot => 0
  | .warm => 64
  | .cold => 128
  | .temp => 192

def itemUpdateInterval : UInt32 := 60

def doItemUpdate (cfg : LruSettings) (it : ℕ) (s : LruState) : LruState :=
  if cfg.lruSegmented then
    if (s.hdr it).flags.linked then
      -- hits to COLD_LRU immediately move to WARM
      if s.q.slabsClsid it &&& 192 = lruBits .cold ∧ (s.hdr it).flags.active = true then
        let s := s.modify it fun h => { h with time := cfg.currentTime }
        let s := (s.itemUnlinkQ it).setLru it (lruBits .warm)
        let s := s.modify it fun h => { h with flags := { h.flags with active := false } }
        s.itemLinkQ it
      else s.modify it fun h => { h with time := cfg.currentTime }
    else s
  else if (s.hdr it).time < cfg.currentTime - itemUpdateInterval then
    if (s.hdr it).flags.linked then
      let s := s.modify it fun h => { h with time := cfg.currentTime }
      (s.itemUnlinkQ it).itemLinkQ it
    else s
  else s

end LruState

/-! ### The items of the table -/

section Table

variable {hash : Bytes → ℕ} {st st' : AssocState} {linked : Finset ℕ} {it fuel hv : ℕ} {key : Bytes}

theorem AssocState.write_key (st : AssocState) (v : Option ℕ) (cell : AssocCell) :
    (st.write v cell).key = st.key := by
  cases cell with
  | primary b => rfl
  | old b => rfl
  | next a => rfl

@[simp] theorem AssocState.assocInsert_key (st : AssocState) (it hv : ℕ) : (st.assocInsert it hv).key = st.key :=
  write_key _ _ _

theorem AssocState.assocDelete_key (h : st.assocDelete fuel key hv = some st') : st'.key = st.key := by
  rw [assocDelete] at h
  split at h
  · cases h
  · split at h
    · rw [← Option.some.inj h]
    · rw [← Option.some.inj h]
      exact write_key _ _ _

theorem AssocState.migrateLoop_key {p : Option ℕ} (h : migrateLoop hash fuel p st = some st') : st'.key = st.key := by
  induction fuel generalizing p st with
  | zero =>
    cases p with
    | none => rw [← Option.some.inj h]
    | some a => cases h
  | succ fuel ih =>
    cases p with
    | none => rw [← Option.some.inj h]
    | some a =>
      rw [migrateLoop] at h
      exact (ih h).trans rfl

theorem AssocState.migrateBucket_key (h : st.migrateBucket hash fuel = some st') : st'.key = st.key := by
  rw [migrateBucket] at h
  split at h
  · cases h
  · rename_i st₁ hloop
    rw [← Option.some.inj h, ← migrateLoop_key hloop]
    dsimp only
    split
    · rfl
    · rfl

/-- **The items of the table** are those of `linked`, each under its key. -/
def TableOf (hash : Bytes → ℕ) (st : AssocState) (linked : Finset ℕ) : Prop :=
  ∃ m items t, Keeps hash st m items t ∧ ∀ k a, m k = some a ↔ a ∈ linked ∧ st.key a = k

/-- A walk along a chain has at most as many steps as there are items. -/
theorem TableOf.keeps (h : TableOf hash st linked) :
    ∃ m items t, Keeps hash st m items t ∧ items.length = linked.card ∧ ∀ k a, m k = some a ↔
      a ∈ linked ∧ st.key a = k := by
  obtain ⟨m, items, t, hkeeps, hm⟩ := h
  refine ⟨m, linked.toList.map fun a => (a, st.key a), t,
    ⟨hkeeps.represents, hkeeps.find_eq, fun hv x hx => ?_⟩, ?_, hm⟩
  · have hgood := hkeeps.represents.good
    rw [← ChainTable.chain_of_same (hgood.mem_chain hx)] at hx
    obtain ⟨hlinked, hkey⟩ := (hm _ _).mp ((hkeeps.mem_chain_iff x).mp hx)
    refine List.mem_map.mpr ⟨x.1, Finset.mem_toList.mpr hlinked, ?_⟩
    rw [hkey]
  · rw [List.length_map, Finset.length_toList]

theorem TableOf.init (hash : Bytes → ℕ) {power : ℕ} (hpower : power ≤ 31) :
    TableOf hash (assocInit power) ∅ := by
  refine ⟨fun _ => none, [], ChainTable.empty power,
    ⟨represents_init hash hpower, fun _ => rfl, fun hv x hx => ?_⟩, ?_⟩
  · rwa [show (ChainTable.empty power : ChainTable (ℕ × Bytes)).chain hv = [] from ite_self _] at hx
  · simp

theorem TableOf.key_inj (h : TableOf hash st linked) {a b : ℕ} (ha : a ∈ linked) (hb : b ∈ linked)
    (hab : st.key a = st.key b) : a = b := by
  obtain ⟨m, -, -, -, hm⟩ := h
  exact Option.some.inj (((hm (st.key a) a).mpr ⟨ha, rfl⟩).symm.trans ((hm (st.key a) b).mpr ⟨hb, hab.symm⟩))

theorem TableOf.find (h : TableOf hash st linked) (hfuel : linked.card ≤ fuel) (key : Bytes) :
    ∃ found, st.assocFind fuel key (hash key) = some found ∧ ∀ a, found = some a ↔ a ∈ linked ∧
      st.key a = key := by
  obtain ⟨m, items, t, hkeeps, hlen, hm⟩ := h.keeps
  refine ⟨m key, ?_, hm key⟩
  rw [hkeeps.represents.find key ((hkeeps.chain_length_le _).trans (hlen.trans_le hfuel)), hkeeps.find_eq,
    Option.map_map]
  simp [comp_def]

theorem TableOf.insert (h : TableOf hash st linked) (hit : it ∉ linked)
    (hkey : ∀ b ∈ linked, st.key b ≠ st.key it) :
    TableOf hash (st.assocInsert it (hash (st.key it))) (insert it linked) := by
  obtain ⟨m, items, t, hkeeps, hlen, hm⟩ := h.keeps
  have hnone : m (st.key it) = none := by
    cases hfound : m (st.key it) with
    | none => rfl
    | some b => exact absurd ((hm _ b).mp hfound).2 (hkey b ((hm _ b).mp hfound).1)
  have hfresh : ∀ k, m k ≠ some it := fun k hk => hit ((hm k it).mp hk).1
  obtain ⟨st', items', t', hstep, -, hkeeps'⟩ :=
    hkeeps.step hlen.le (e := .insert it (st.key it)) ⟨hnone, hfresh⟩
  rw [assocStep, update_eq_self] at hstep
  obtain rfl := Option.some.inj hstep
  refine ⟨_, items', t', hkeeps', fun k a => ?_⟩
  rw [AssocEvent.onMap, assocInsert_key, Finset.mem_insert]
  by_cases hk : k = st.key it
  · subst hk
    rw [update_self]
    constructor
    · intro ha
      obtain rfl := Option.some.inj ha
      exact ⟨.inl rfl, rfl⟩
    · rintro ⟨rfl | ha, hka⟩
      · rfl
      · exact absurd hka (hkey a ha)
  · rw [update_of_ne hk, hm]
    refine ⟨fun ha => ⟨.inr ha.1, ha.2⟩, ?_⟩
    rintro ⟨rfl | ha, hka⟩
    · exact absurd hka.symm hk
    · exact ⟨ha, hka⟩

theorem TableOf.delete (h : TableOf hash st linked) (hit : it ∈ linked) (hfuel : linked.card ≤ fuel) :
    ∃ st', st.assocDelete fuel (st.key it) (hash (st.key it)) = some st' ∧ st'.key = st.key ∧
      TableOf hash st' (linked.erase it) := by
  obtain ⟨m, items, t, hkeeps, hlen, hm⟩ := h.keeps
  have hfound : m (st.key it) = some it := (hm _ _).mpr ⟨hit, rfl⟩
  obtain ⟨st', items', t', hstep, -, hkeeps'⟩ := hkeeps.step (hlen.trans_le hfuel) (e := .delete (st.key it))
    (show m (st.key it) ≠ none by rw [hfound]; exact Option.some_ne_none _)
  have hsame := assocDelete_key hstep
  refine ⟨st', hstep, hsame, _, items', t', hkeeps', fun k a => ?_⟩
  rw [AssocEvent.onMap, hsame, Finset.mem_erase]
  by_cases hk : k = st.key it
  · subst hk
    rw [update_self]
    exact ⟨fun ha => absurd ha.symm (Option.some_ne_none a), fun ha => absurd (h.key_inj ha.1.2 hit ha.2) ha.1.1⟩
  · rw [update_of_ne hk, hm]
    refine ⟨fun ha => ⟨⟨?_, ha.1⟩, ha.2⟩, fun ha => ⟨ha.1.2, ha.2⟩⟩
    rintro rfl
    exact hk ha.2.symm

theorem TableOf.expand (h : TableOf hash st linked) (fuel : ℕ) (hpower : st.hashpower < 31) (calloc : Bool) :
    ∃ st', st.assocStep hash fuel (.expand calloc) = some st' ∧ st'.key = st.key ∧ TableOf hash st' linked := by
  obtain ⟨m, items, t, hkeeps, hm⟩ := h
  obtain ⟨st', items', t', hstep, -, hkeeps'⟩ := hkeeps.step le_rfl (e := .expand calloc) hpower
  have hsame : st'.key = st.key := by
    rw [← Option.some.inj hstep]
    split
    · rfl
    · rw [assocExpand]
      split
      · rfl
      · rfl
  refine ⟨st', ?_, hsame, m, items', t', hkeeps', fun k a => ?_⟩
  · rw [← hstep]
    rfl
  · rw [hsame]
    exact hm k a

theorem TableOf.migrate (h : TableOf hash st linked) (hfuel : linked.card ≤ fuel) :
    ∃ st', st.assocStep hash fuel .migrate = some st' ∧ st'.key = st.key ∧ TableOf hash st' linked := by
  obtain ⟨m, items, t, hkeeps, hlen, hm⟩ := h.keeps
  obtain ⟨st', items', t', hstep, -, hkeeps'⟩ := hkeeps.step (hlen.trans_le hfuel) (e := .migrate) trivial
  have hsame : st'.key = st.key := by
    rw [assocStep] at hstep
    split at hstep
    · exact migrateBucket_key hstep
    · rw [← Option.some.inj hstep]
  refine ⟨st', hstep, hsame, m, items', t', hkeeps', fun k a => ?_⟩
  rw [hsame]
  exact hm k a

theorem TableOf.rewrite (h : TableOf hash st linked) (hit : it ∉ linked) (key : Bytes) (v : Option ℕ) :
    TableOf hash { st with key := update st.key it key, hNext := update st.hNext it v } linked := by
  obtain ⟨m, items, t, hkeeps, hm⟩ := h
  have hrep := hkeeps.represents
  have hchain : ∀ x ∈ t.chain (hash x.2), x.1 ≠ it := by
    rintro x hx rfl
    exact hit ((hm _ _).mp ((hkeeps.mem_chain_iff x).mp hx)).1
  refine ⟨m, items, t, ⟨⟨hrep.power_eq, hrep.expanding_eq, hrep.bucket_eq, hrep.power_le, hrep.good, hrep.moved,
    fun b => ?_, fun hexp b => ?_⟩, hkeeps.find_eq, hkeeps.mem_items⟩, fun k a => ?_⟩
  · refine (hrep.primary b).congr fun x hx => ?_
    have hne := hchain x (hrep.mem_primary hx).2
    exact ⟨update_of_ne hne _ _, update_of_ne hne _ _⟩
  · refine (hrep.old hexp b).congr fun x hx => ?_
    have hne := hchain x (hrep.mem_old hexp hx).2
    exact ⟨update_of_ne hne _ _, update_of_ne hne _ _⟩
  · rw [hm]
    refine and_congr_right fun ha => ?_
    dsimp only
    rw [update_of_ne (ne_of_mem_of_not_mem ha hit)]

end Table

/-! ### The invariant -/

/-- What the functions keep of a header: the bits and sizes on which the counters depend. -/
structure ItemHeader.SameKind (h h' : ItemHeader) : Prop where
  linked : h'.flags.linked = h.flags.linked
  cas : h'.flags.cas = h.flags.cas
  cflags : h'.flags.cflags = h.flags.cflags
  nbytes : h'.nbytes = h.nbytes

theorem ItemHeader.itemSetCas_eq (h : ItemHeader) (v : UInt64) :
    h.itemSetCas v = { h with cas := if h.flags.cas then v else h.cas } := by
  rw [itemSetCas]
  split
  · rfl
  · rfl

namespace LruState

/-- A crawler is on the list of its number, and looks as a crawler does; or it is on none and has no flags. -/
def Crawlers (s : LruState) (lists : UInt8 → List ℕ) : Prop :=
  ∀ i, (crawlerAt i ∈ lists i ∧ (s.hdr (crawlerAt i)).flags = .one ∧ (s.hdr (crawlerAt i)).nbytes = 0 ∧
      s.assoc.key (crawlerAt i) = []) ∨
    ((∀ id, crawlerAt i ∉ lists id) ∧ (s.hdr (crawlerAt i)).flags = .zero)

/-- **The flags, the table, the lists and the counters agree** on the set of linked items; the item `out` is on no
list. -/
structure Inv (hash : Bytes → ℕ) (s : LruState) (lists : UInt8 → List ℕ) (linked : Finset ℕ)
    (out : Option ℕ) :
    Prop where
  holds : s.q.Holds s.ntotal lists
  flag : ∀ a, IsItem a → ((s.hdr a).flags.linked = true ↔ a ∈ linked)
  isItem : ∀ a ∈ linked, IsItem a
  on_list : ∀ a, IsItem a → (a ∈ lists (s.q.slabsClsid a) ↔ a ∈ linked ∧ out ≠ some a)
  crawlers : s.Crawlers lists
  table : TableOf hash s.assoc linked
  nbytes : ∀ a ∈ linked, (s.hdr a).nbytes ≠ 0
  refcount : ∀ a ∈ linked, (s.hdr a).refcount ≠ 0
  currItems : s.currItems = UInt64.ofNat linked.card
  currBytes : s.currBytes = UInt64.ofNat (∑ a ∈ linked, s.ntotal a)

theorem inv_init (hash : Bytes → ℕ) {power : ℕ} (hpower : power ≤ 31) :
    Inv hash (init power) (fun _ => []) ∅ none where
  holds := LruLists.holds_init _
  flag := fun _ _ => by simp [init, ItemFlags.zero]
  isItem := fun _ ha => absurd ha (Finset.notMem_empty _)
  on_list := fun _ _ => by simp
  crawlers := fun _ => .inr ⟨fun _ => List.not_mem_nil, rfl⟩
  table := TableOf.init hash hpower
  nbytes := fun _ ha => absurd ha (Finset.notMem_empty _)
  refcount := fun _ ha => absurd ha (Finset.notMem_empty _)
  currItems := rfl
  currBytes := rfl

variable {hash : Bytes → ℕ} {s s' : LruState} {lists lists' : UInt8 → List ℕ} {linked : Finset ℕ}
  {out : Option ℕ}
  {it fuel : ℕ} {id : UInt8} {l r : List ℕ}

theorem Crawlers.congr (h : s.Crawlers lists)
    (hlists : ∀ a, ¬IsItem a → ∀ id, a ∈ lists' id ↔ a ∈ lists id)
    (hhdr : ∀ a, ¬IsItem a → s'.hdr a = s.hdr a ∧ s'.assoc.key a = s.assoc.key a) : s'.Crawlers lists' := by
  intro i
  have hi := not_isItem_crawlerAt i
  simp only [hlists _ hi, (hhdr _ hi).1, (hhdr _ hi).2]
  exact h i

variable {a : ℕ} {f : ItemHeader → ItemHeader}

/-- The nodes of a list in which one node has been taken out or put in. -/
theorem mem_update_iff (hl : a ∈ l ↔ a ∈ lists id) (j : UInt8) :
    a ∈ update lists id l j ↔ a ∈ lists j := by
  by_cases hj : j = id
  · subst hj
    rwa [update_self]
  · rw [update_of_ne hj]

theorem ne_of_isItem (hit : IsItem it) (ha : ¬IsItem a) : a ≠ it := by
  rintro rfl
  exact ha hit

/-! ### Fields of items -/

@[simp] theorem modify_hdr_self (s : LruState) (it : ℕ) (f : ItemHeader → ItemHeader) :
    (s.modify it f).hdr it = f (s.hdr it) := update_self _ _ _

theorem modify_hdr_of_ne (s : LruState) (ha : a ≠ it) (f : ItemHeader → ItemHeader) :
    (s.modify it f).hdr a = s.hdr a := update_of_ne ha _ _

theorem ntotal_modify (hf : (s.hdr it).SameKind (f (s.hdr it))) :
    (s.modify it f).ntotal = s.ntotal := by
  funext a
  rw [ntotal, ntotal, modify]
  by_cases ha : a = it
  · subst ha
    simp only [update_self, hf.cas, hf.cflags, hf.nbytes]
  · simp only [update_of_ne ha]

/-- **Other fields of an item.** -/
theorem Inv.modify (h : Inv hash s lists linked out) (hitem : IsItem it)
    (hf : (s.hdr it).SameKind (f (s.hdr it))) (href : it ∈ linked → (f (s.hdr it)).refcount ≠ 0) :
    Inv hash (s.modify it f) lists linked out := by
  have hn := ntotal_modify hf
  have hother : ∀ a, a ≠ it → (s.modify it f).hdr a = s.hdr a := fun a ha => modify_hdr_of_ne s ha f
  have hself := modify_hdr_self s it f
  refine ⟨by rw [hn]; exact h.holds, fun a ha => ?_, h.isItem, h.on_list, ?_, h.table, fun a ha => ?_, fun a ha => ?_,
    h.currItems, by rw [hn]; exact h.currBytes⟩
  · rw [← h.flag a ha]
    by_cases hne : a = it
    · rw [hne, hself, hf.linked]
    · rw [hother a hne]
  · exact h.crawlers.congr (fun _ _ _ => Iff.rfl) fun a ha => ⟨hother a (ne_of_isItem hitem ha), rfl⟩
  · by_cases hne : a = it
    · rw [hne, hself, hf.nbytes]
      exact h.nbytes it (hne ▸ ha)
    · rw [hother a hne]
      exact h.nbytes a ha
  · by_cases hne : a = it
    · rw [hne, hself]
      exact href (hne ▸ ha)
    · rw [hother a hne]
      exact h.refcount a ha

structure Fields where
  hdr : ItemHeader
  key : Bytes
  hNext : Option ℕ
  next : Option ℕ
  prev : Option ℕ
  slabsClsid : UInt8

def rewrite (s : LruState) (it : ℕ) (w : Fields) : LruState :=
  { s with
    q := { s.q with
      next := update s.q.next it w.next
      prev := update s.q.prev it w.prev
      slabsClsid := update s.q.slabsClsid it w.slabsClsid }
    assoc := { s.assoc with
      key := update s.assoc.key it w.key
      hNext := update s.assoc.hNext it w.hNext }
    hdr := update s.hdr it w.hdr }

/-- **All fields of an item that is not linked.** -/
theorem Inv.rewrite (h : Inv hash s lists linked out) (hitem : IsItem it) (hit : it ∉ linked) {w : Fields}
    (hw : w.hdr.flags.linked = false) : Inv hash (s.rewrite it w) lists linked out := by
  have hoff : ∀ id, it ∉ lists id := h.holds.not_mem fun hmem => hit ((h.on_list it hitem).mp hmem).1
  have hother : ∀ a, a ≠ it → (s.rewrite it w).hdr a = s.hdr a ∧
    (s.rewrite it w).assoc.key a = s.assoc.key a ∧
      (s.rewrite it w).q.slabsClsid a = s.q.slabsClsid a :=
    fun a ha => ⟨update_of_ne ha _ _, update_of_ne ha _ _, update_of_ne ha _ _⟩
  have hself : (s.rewrite it w).hdr it = w.hdr := update_self _ _ _
  have hn : ∀ a, a ≠ it → (s.rewrite it w).ntotal a = s.ntotal a := fun a ha => by
    rw [ntotal, ntotal, (hother a ha).1, (hother a ha).2.1]
  have hlinked : ∀ a ∈ linked, a ≠ it := fun a ha => ne_of_mem_of_not_mem ha hit
  have hlist : ∀ id, ∀ a ∈ lists id, a ≠ it := fun id a ha => ne_of_mem_of_not_mem ha (hoff id)
  refine ⟨⟨fun id => ?_, h.holds.nodup, fun id a ha => ?_, h.holds.sizes, fun id => ?_⟩, fun a ha => ?_, h.isItem,
    fun a ha => ?_, ?_, h.table.rewrite hit _ _, fun a ha => ?_, fun a ha => ?_, h.currItems, ?_⟩
  · exact (h.holds.dll id).frame (fun a ha => update_of_ne (hlist id a ha) _ _)
      fun a ha => update_of_ne (hlist id a ha) _ _
  · rw [(hother a (hlist id a ha)).2.2]
    exact h.holds.clsid id a ha
  · exact (h.holds.congr_ntotal fun id a ha _ => hn a (hlist id a ha)).sizesBytes id
  · by_cases hne : a = it
    · rw [hne, hself, hw]
      exact iff_of_false Bool.false_ne_true hit
    · rw [(hother a hne).1]
      exact h.flag a ha
  · by_cases hne : a = it
    · rw [hne]
      exact iff_of_false (hoff _) fun hand => hit hand.1
    · rw [(hother a hne).2.2]
      exact h.on_list a ha
  · refine h.crawlers.congr (fun _ _ _ => Iff.rfl) fun a ha => ?_
    have hne := ne_of_isItem hitem ha
    exact ⟨(hother a hne).1, (hother a hne).2.1⟩
  · rw [(hother a (hlinked a ha)).1]
    exact h.nbytes a ha
  · rw [(hother a (hlinked a ha)).1]
    exact h.refcount a ha
  · rw [Finset.sum_congr rfl fun a ha => hn a (hlinked a ha)]
    exact h.currBytes

theorem Inv.modify_unlinked (h : Inv hash s lists linked out) (hitem : IsItem it) (hit : it ∉ linked)
    (hf : (f (s.hdr it)).flags.linked = false) :
    Inv hash (s.modify it f) lists linked out := by
  have hrewrite := h.rewrite hitem hit (w :=
    ⟨f (s.hdr it), s.assoc.key it, s.assoc.hNext it, s.q.next it, s.q.prev it,
    s.q.slabsClsid it⟩) hf
  simp only [LruState.rewrite, update_eq_self] at hrewrite
  exact hrewrite

/-- **`do_item_remove`** drops a reference; a linked item keeps one. -/
theorem Inv.doItemRemove (h : Inv hash s lists linked out) (hitem : IsItem it)
    (href : it ∈ linked → (s.hdr it).refcount - 1 ≠ 0) : Inv hash (s.doItemRemove it) lists linked out := by
  have hdec : Inv hash (s.modify it fun h => { h with refcount := h.refcount - 1 }) lists linked out :=
    h.modify hitem ⟨rfl, rfl, rfl, rfl⟩ href
  rw [LruState.doItemRemove, modify_hdr_self]
  split
  · rename_i hzero
    exact hdec.modify_unlinked hitem (fun hit => href hit hzero) rfl
  · exact hdec

/-! ### Linking -/

/-- `do_item_link` without the list: the item is entered in the table and counted. -/
def enter (cfg : LruSettings) (it hv : ℕ) (s : LruState) : LruState :=
  let casId := if cfg.useCas then s.casId + 1 else s.casId
  { s.modify it fun h => { h with
      flags := { h.flags with linked := true }
      time := cfg.currentTime
      cas := if h.flags.cas then (if cfg.useCas then casId else 0) else h.cas
      refcount := h.refcount + 1 } with
    assoc := s.assoc.assocInsert it hv
    currItems := s.currItems + 1
    currBytes := s.currBytes + UInt64.ofNat (s.ntotal it)
    casId := casId }

theorem doItemLink_eq (cfg : LruSettings) (it hv : ℕ) (s : LruState) :
    s.doItemLink cfg it hv = (s.enter cfg it hv).itemLinkQ it := by
  rw [doItemLink, enter]
  cases cfg.useCas with
  | true => simp [modify, itemLinkQ, ntotal, ItemHeader.itemSetCas_eq]
  | false => simp [modify, itemLinkQ, ntotal, ItemHeader.itemSetCas_eq]

theorem Inv.enter (h : Inv hash s lists linked none) (cfg : LruSettings) (hitem : IsItem it) (hit : it ∉ linked)
    (hkey : ∀ b ∈ linked, s.assoc.key b ≠ s.assoc.key it) (hnbytes : (s.hdr it).nbytes ≠ 0) :
    Inv hash (s.enter cfg it (hash (s.assoc.key it))) lists (insert it linked) (some it) := by
  generalize hs' : s.enter cfg it (hash (s.assoc.key it)) = s'
  have hother : ∀ a, a ≠ it → s'.hdr a = s.hdr a := fun a ha => by
    rw [← hs', LruState.enter]
    simp only [modify_hdr_of_ne s ha]
  have hself : (s'.hdr it).flags = { (s.hdr it).flags with linked := true } ∧
    (s'.hdr it).nbytes = (s.hdr it).nbytes ∧
      (s'.hdr it).refcount = (s.hdr it).refcount + 1 := by
    rw [← hs', LruState.enter]
    simp only [modify_hdr_self, and_self]
  have hassoc : s'.assoc.key = s.assoc.key := by rw [← hs']; exact assocInsert_key _ _ _
  have hq : s'.q = s.q := by rw [← hs']; rfl
  have hntotal : s'.ntotal = s.ntotal := by
    funext a
    rw [ntotal, ntotal, hassoc]
    by_cases ha : a = it
    · rw [ha, hself.1, hself.2.1]
    · rw [hother a ha]
  have hoff : ∀ id, it ∉ lists id := h.holds.not_mem fun hmem => hit ((h.on_list it hitem).mp hmem).1
  refine ⟨by rw [hntotal, hq]; exact h.holds, fun a ha => ?_, fun a ha => ?_, fun a ha => ?_, ?_, ?_, fun a ha => ?_,
    fun a ha => ?_, ?_, ?_⟩
  · rw [Finset.mem_insert]
    by_cases hne : a = it
    · rw [hne, hself.1]
      exact iff_of_true rfl (.inl rfl)
    · rw [hother a hne, h.flag a ha]
      exact ⟨.inr, fun hmem => hmem.resolve_left hne⟩
  · rcases Finset.mem_insert.mp ha with rfl | ha
    · exact hitem
    · exact h.isItem a ha
  · rw [hq, h.on_list a ha, Finset.mem_insert]
    by_cases hne : a = it
    · rw [hne]
      exact iff_of_false (fun hand => hit hand.1) fun hand => hand.2 rfl
    · have hout : some it ≠ some a := fun heq => hne (Option.some.inj heq).symm
      simp only [hne, false_or, hout, ne_eq, not_false_iff, reduceCtorEq]
  · exact h.crawlers.congr (fun _ _ _ => Iff.rfl) fun a ha => ⟨hother a (ne_of_isItem hitem ha), by rw [hassoc]⟩
  · rw [← hs']
    exact h.table.insert hit hkey
  · by_cases hne : a = it
    · rwa [hne, hself.2.1]
    · rw [hother a hne]
      exact h.nbytes a ((Finset.mem_insert.mp ha).resolve_left hne)
  · by_cases hne : a = it
    · rw [hne, hself.2.2]
      exact Nat.succ_ne_zero _
    · rw [hother a hne]
      exact h.refcount a ((Finset.mem_insert.mp ha).resolve_left hne)
  · rw [Finset.card_insert_of_notMem hit, UInt64.ofNat_add, ← h.currItems, ← hs']
    rfl
  · rw [hntotal, Finset.sum_insert hit, UInt64.ofNat_add, ← h.currBytes, UInt64.add_comm, ← hs']
    rfl

/-- **`item_link_q`** of a linked item that is off the lists. -/
theorem Inv.putBack (h : Inv hash s lists linked (some it)) (hit : it ∈ linked) :
    Inv hash (s.itemLinkQ it) (update lists (s.q.slabsClsid it) (it :: lists (s.q.slabsClsid it))) linked none := by
  have hitem := h.isItem it hit
  have hoff : it ∉ lists (s.q.slabsClsid it) := fun hmem => ((h.on_list it hitem).mp hmem).2 rfl
  refine ⟨h.holds.linkQ hitem hoff, h.flag, h.isItem, fun a ha => ?_, ?_, h.table, h.nbytes, h.refcount, h.currItems,
    h.currBytes⟩
  · show a ∈ update lists (s.q.slabsClsid it) _ (s.q.slabsClsid a) ↔ _
    by_cases hne : a = it
    · rw [hne, update_self]
      exact iff_of_true List.mem_cons_self ⟨hit, nofun⟩
    · have hout : some it ≠ some a := fun heq => hne (Option.some.inj heq).symm
      rw [mem_update_iff (by rw [List.mem_cons]; exact ⟨fun hmem => hmem.resolve_left hne, .inr⟩), h.on_list a ha]
      simp only [hout, ne_eq, not_false_iff, reduceCtorEq]
  · refine h.crawlers.congr (fun a ha => mem_update_iff ?_) fun a ha => ⟨rfl, rfl⟩
    rw [List.mem_cons]
    exact ⟨fun hmem => hmem.resolve_left (ne_of_isItem hitem ha), .inr⟩

theorem Inv.setLru (h : Inv hash s lists linked (some it)) (hitem : IsItem it) (lru : UInt8) :
    Inv hash (s.setLru it lru) lists linked (some it) := by
  have hoff : ∀ id, it ∉ lists id := h.holds.not_mem fun hmem => ((h.on_list it hitem).mp hmem).2 rfl
  refine ⟨h.holds.setClsid hoff _, h.flag, h.isItem, fun a ha => ?_, h.crawlers, h.table, h.nbytes, h.refcount,
    h.currItems, h.currBytes⟩
  show a ∈ lists (update s.q.slabsClsid it _ a) ↔ _
  by_cases hne : a = it
  · rw [hne]
    exact iff_of_false (hoff _) fun hand => hand.2 rfl
  · rw [update_of_ne hne]
    exact h.on_list a ha

/-! ### Unlinking -/

/-- **`item_unlink_q`** of a linked item. -/
theorem Inv.takeOff (h : Inv hash s lists linked none) (hitem : IsItem it) (hlist : lists id = l ++ it :: r) :
    Inv hash (s.itemUnlinkQ it) (update lists id (l ++ r)) linked (some it) := by
  have hnodup := h.holds.nodup id
  rw [hlist] at hnodup
  have hgone : it ∉ l ++ r := (List.nodup_cons.mp (List.perm_middle.nodup_iff.mp hnodup)).1
  have hmem : ∀ a, a ≠ it → (a ∈ l ++ r ↔ a ∈ lists id) := fun a ha => by
    rw [hlist, List.mem_append, List.mem_append, List.mem_cons]
    tauto
  refine ⟨h.holds.unlinkQ hitem hlist, h.flag, h.isItem, fun a ha => ?_, ?_, h.table, h.nbytes, h.refcount,
    h.currItems,
    h.currBytes⟩
  · show a ∈ update lists id _ (s.q.slabsClsid a) ↔ _
    by_cases hne : a = it
    · rw [hne, h.holds.clsid_eq hlist, update_self]
      exact iff_of_false hgone fun hand => hand.2 rfl
    · have hout : some it ≠ some a := fun heq => hne (Option.some.inj heq).symm
      rw [mem_update_iff (hmem a hne), h.on_list a ha]
      simp only [hout, ne_eq, not_false_iff, reduceCtorEq]
  · exact h.crawlers.congr (fun a ha => mem_update_iff (hmem a (ne_of_isItem hitem ha))) fun a ha => ⟨rfl, rfl⟩

/-- `do_item_unlink` without the list and the reference: the item is no longer in the table nor counted. -/
def leave (it : ℕ) (assoc : AssocState) (s : LruState) : LruState :=
  { s.modify it fun h => { h with flags := { h.flags with linked := false } } with
    assoc := assoc
    currItems := s.currItems - 1
    currBytes := s.currBytes - UInt64.ofNat (s.ntotal it) }

theorem Inv.leave (h : Inv hash s lists linked (some it)) (hit : it ∈ linked) {assoc : AssocState}
    (hkey : assoc.key = s.assoc.key) (htable : TableOf hash assoc (linked.erase it)) :
    Inv hash (s.leave it assoc) lists (linked.erase it) none := by
  have hitem := h.isItem it hit
  generalize hs' : s.leave it assoc = s'
  have hother : ∀ a, a ≠ it → s'.hdr a = s.hdr a := fun a ha => by
    rw [← hs', LruState.leave]
    simp only [modify_hdr_of_ne s ha]
  have hself : (s'.hdr it).flags.linked = false := by
    rw [← hs', LruState.leave]
    simp only [modify_hdr_self]
  have hassoc : s'.assoc.key = s.assoc.key := by rw [← hs']; exact hkey
  have hq : s'.q = s.q := by rw [← hs']; rfl
  have hn : ∀ a, a ≠ it → s'.ntotal a = s.ntotal a := fun a ha => by rw [ntotal, ntotal, hassoc, hother a ha]
  have hoff : ∀ id, it ∉ lists id := h.holds.not_mem fun hmem => ((h.on_list it hitem).mp hmem).2 rfl
  have hlinked : ∀ a ∈ linked.erase it, a ≠ it ∧ a ∈ linked := fun a ha => Finset.mem_erase.mp ha
  refine ⟨?_, fun a ha => ?_, fun a ha => h.isItem a (hlinked a ha).2, fun a ha => ?_, ?_, ?_, fun a ha => ?_,
    fun a ha => ?_, ?_, ?_⟩
  · rw [hq]
    exact h.holds.congr_ntotal fun id a ha _ => hn a (ne_of_mem_of_not_mem ha (hoff id))
  · rw [Finset.mem_erase]
    by_cases hne : a = it
    · rw [hne, hself]
      exact iff_of_false Bool.false_ne_true fun hand => hand.1 rfl
    · rw [hother a hne, h.flag a ha]
      exact ⟨fun hmem => ⟨hne, hmem⟩, fun hand => hand.2⟩
  · rw [hq, h.on_list a ha, Finset.mem_erase]
    constructor
    · rintro ⟨hmem, hout⟩
      exact ⟨⟨fun heq => hout (congrArg some heq.symm), hmem⟩, nofun⟩
    · rintro ⟨⟨hne, hmem⟩, -⟩
      exact ⟨hmem, fun heq => hne (Option.some.inj heq).symm⟩
  · exact h.crawlers.congr (fun _ _ _ => Iff.rfl) fun a ha => ⟨hother a (ne_of_isItem hitem ha), by rw [hassoc]⟩
  · rw [← hs']
    exact htable
  · rw [hother a (hlinked a ha).1]
    exact h.nbytes a (hlinked a ha).2
  · rw [hother a (hlinked a ha).1]
    exact h.refcount a (hlinked a ha).2
  · have hcard := Finset.card_erase_add_one hit
    rw [← hs']
    show s.currItems - 1 = _
    rw [h.currItems, ← hcard, UInt64.ofNat_add]
    exact UInt64.add_sub_cancel _ _
  · have hsum := Finset.add_sum_erase linked s.ntotal hit
    rw [Finset.sum_congr rfl fun a ha => hn a (hlinked a ha).1, ← hs']
    show s.currBytes - UInt64.ofNat (s.ntotal it) = _
    rw [h.currBytes, ← hsum, Nat.add_comm, UInt64.ofNat_add, UInt64.add_sub_cancel]

/-! ### The functions -/

theorem Inv.place (h : Inv hash s lists linked none) (hit : it ∈ linked) :
    ∃ l r, lists (s.q.slabsClsid it) = l ++ it :: r :=
  List.append_of_mem ((h.on_list it (h.isItem it hit)).mpr ⟨hit, nofun⟩)

/-- **`do_item_link`** of an item that is not linked, under a key that is not present. -/
theorem Inv.doItemLink (h : Inv hash s lists linked none) (cfg : LruSettings) (hitem : IsItem it) (hit : it ∉ linked)
    (hkey : ∀ b ∈ linked, s.assoc.key b ≠ s.assoc.key it) (hnbytes : (s.hdr it).nbytes ≠ 0) :
    ∃ lists', Inv hash (s.doItemLink cfg it (hash (s.assoc.key it))) lists' (insert it linked) none := by
  rw [doItemLink_eq]
  exact ⟨_, (h.enter cfg hitem hit hkey hnbytes).putBack (Finset.mem_insert_self it linked)⟩

/-- **`do_item_unlink_nolock`** of a linked item. -/
theorem Inv.doItemUnlinkNolock (h : Inv hash s lists linked none) (hfuel : linked.card ≤ fuel) (hit : it ∈ linked)
    (hlist : lists id = l ++ it :: r) :
    ∃ s', s.doItemUnlinkNolock fuel it (hash (s.assoc.key it)) = some s' ∧
      Inv hash s' (update lists id (l ++ r)) (linked.erase it) none := by
  have hitem := h.isItem it hit
  obtain ⟨assoc, hdelete, hkey, htable⟩ := h.table.delete hit hfuel
  have hleave := (h.takeOff hitem hlist).leave hit hkey htable
  refine ⟨_, ?_, hleave.doItemRemove hitem fun hmem => absurd hmem (Finset.notMem_erase it linked)⟩
  rw [LruState.doItemUnlinkNolock, if_pos ((h.flag it hitem).mpr hit)]
  simp [LruState.modify, hdelete, LruState.leave, itemUnlinkQ, ntotal, hkey]

/-- **`do_item_unlink`**, also of an item that is not linked. -/
theorem Inv.doItemUnlink (h : Inv hash s lists linked none) (hfuel : linked.card ≤ fuel) (hitem : IsItem it) :
    ∃ s' lists', s.doItemUnlink fuel it (hash (s.assoc.key it)) = some s' ∧
      Inv hash s' lists' (linked.erase it) none := by
  rw [LruState.doItemUnlink]
  by_cases hit : it ∈ linked
  · obtain ⟨l, r, hlist⟩ := h.place hit
    obtain ⟨s', hs', hinv⟩ := h.doItemUnlinkNolock hfuel hit hlist
    exact ⟨s', _, hs', hinv⟩
  · refine ⟨s, lists, ?_, by rwa [Finset.erase_eq_of_notMem hit]⟩
    rw [LruState.doItemUnlinkNolock, if_neg]
    rwa [h.flag it hitem]

/-- **A linked item moves** to the front of a list. -/
theorem Inv.relink (h : Inv hash s lists linked none) (hit : it ∈ linked) :
    ∃ lists', Inv hash ((s.itemUnlinkQ it).itemLinkQ it) lists' linked none := by
  obtain ⟨l, r, hlist⟩ := h.place hit
  exact ⟨_, (h.takeOff (h.isItem it hit) hlist).putBack hit⟩

/-- **`do_item_update`** -/
theorem Inv.doItemUpdate (h : Inv hash s lists linked none) (cfg : LruSettings) (hitem : IsItem it) :
    ∃ lists', Inv hash (s.doItemUpdate cfg it) lists' linked none := by
  have hlinked := h.flag it hitem
  have htime := h.modify hitem (f := fun h => { h with time := cfg.currentTime }) ⟨rfl, rfl, rfl, rfl⟩
    (h.refcount it)
  rw [LruState.doItemUpdate]
  split
  · split
    · rename_i hflag
      have hit := hlinked.mp hflag
      split
      · obtain ⟨l, r, hlist⟩ := htime.place hit
        have hmoved := (htime.takeOff hitem hlist).setLru hitem (lruBits .warm)
        have hactive := hmoved.modify hitem (f := fun h => { h with flags := { h.flags with active := false } })
          ⟨rfl, rfl, rfl, rfl⟩ (hmoved.refcount it)
        exact ⟨_, hactive.putBack hit⟩
      · exact ⟨lists, htime⟩
    · exact ⟨lists, h⟩
  · split
    · split
      · rename_i hflag
        exact htime.relink (hlinked.mp hflag)
      · exact ⟨lists, h⟩
    · exact ⟨lists, h⟩

end LruState

end BmcCache
