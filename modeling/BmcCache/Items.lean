import BmcCache.ByteBuffer
import BmcCache.Memcached

/-!
# Items: `struct _stritem`, `do_item_alloc`

An item is a header and the bytes behind it, where optional fields shift one another:

  `[cas, 8 bytes, if ITEM_CAS] [key] ['\0'] [flags, 4 bytes, if ITEM_CFLAGS] [value and CRLF]`

A large item has no value there but a header chunk, from which a chain of chunks hangs.

* `StrItem` — the item; its bytes always have the length its header says;
* `itemKey`, `itemGetCas`, `itemSetCas`, `flagsConv`, `itemData` — the macros of `memcached.h`;
* `doItemAlloc` — a new item in memory of any contents; `doItemAlloc_eq_some` says what it is.

The lemmas on the macros say that the fields do not overlap: a store into one of them is read back from it and leaves
the others alone.
-/

namespace BmcCache

open ByteBuffer

/-! ### Settings -/

/-- What the store reads of `settings`, `process_started` and the hash function chosen at start. -/
structure Settings where
  processStarted : ℕ
  useCas : Bool
  lruSegmented : Bool
  tempLru : Bool
  temporaryTtl : ℕ
  slabChunkSizeMax : ℕ
  itemSizeMax : ℕ
  hash : Bytes → ℕ

/-- The default settings, but for a `slab_chunk_max` of 512 bytes and a hash function under which keys collide. -/
def smallChunks : Settings :=
  { processStarted := 1700000000, useCas := true, lruSegmented := true, tempLru := false, temporaryTtl := 61
    slabChunkSizeMax := 512, itemSizeMax := 1048576, hash := List.length }

/-- `sizeof(item)` -/
@[simp] abbrev sizeofItem : ℕ := 48

/-- `sizeof(item_chunk)` -/
@[simp] abbrev sizeofItemChunk : ℕ := 48

/-- `sizeof(uint64_t)` if the item has a CAS value -/
def casSize (hasCas : Bool) : ℕ := if hasCas then 8 else 0

/-- `sizeof(uint32_t)` if the item has client flags -/
def flagsSize (cflags : Bool) : ℕ := if cflags then 4 else 0

/-! ### Items -/

/-- `ITEM_lruid` -/
inductive LruId where
  | hot
  | warm
  | cold
  | temp
  deriving DecidableEq, Repr

/-- `item_chunk`: room for `size` bytes, of which the first are used. -/
@[ext] structure ItemChunk where
  size : ℕ
  data : Bytes
  used_le : data.length ≤ size
  deriving DecidableEq

/-- `item`; `refcount` and the bits of `it_flags` as the store uses them.  The chunks of a large item are given from the
header chunk on. -/
@[ext] structure StrItem where
  time : ℕ
  exptime : ℕ
  nbytes : ℕ
  refcount : ℕ
  nkey : ℕ
  lruid : LruId
  /-- `ITEM_LINKED` -/
  linked : Bool
  /-- `ITEM_CAS` -/
  hasCas : Bool
  /-- `ITEM_CFLAGS` -/
  cflags : Bool
  /-- `ITEM_FETCHED` -/
  fetched : Bool
  /-- `ITEM_ACTIVE` -/
  active : Bool
  /-- `ITEM_TOKEN_SENT` -/
  tokenSent : Bool
  /-- `ITEM_STALE` -/
  stale : Bool
  /-- `ITEM_CHUNKED` -/
  chunks : Option (List ItemChunk)
  /-- the bytes behind the header -/
  data : Bytes
  data_length : data.length
    = nkey + 1 + flagsSize cflags + casSize hasCas + (if chunks.isSome then sizeofItemChunk else nbytes)
  deriving DecidableEq

namespace StrItem

variable (it : StrItem)

/-- `ITEM_suffix`, as an offset -/
def suffixPos : ℕ := it.nkey + 1 + casSize it.hasCas

/-- `ITEM_data`, as an offset -/
def dataPos : ℕ := it.nkey + 1 + flagsSize it.cflags + casSize it.hasCas

def itemNtotal : ℕ := sizeofItem + it.nkey + 1 + it.nbytes + flagsSize it.cflags + casSize it.hasCas

def itemKey : Bytes := slice it.data (casSize it.hasCas) it.nkey

def itemGetCas : ℕ := if it.hasCas then ofLeBytes (slice it.data 0 8) else 0

def write (pos : ℕ) (src : Bytes) : StrItem :=
  { it with data := blit it.data pos src, data_length := by rw [blit_length]; exact it.data_length }

def itemSetCas (v : ℕ) : StrItem :=
  { it with
    data := if it.hasCas then blit it.data 0 (leBytes 8 v) else it.data
    data_length := by
      rw [← it.data_length]
      split
      · rw [blit_length]
      · rfl }

def flagsConv : UInt32 := if it.cflags then UInt32.ofNat (ofLeBytes (slice it.data it.suffixPos 4)) else 0

/-- The bytes of the item from `ITEM_data` on. -/
def itemData : Bytes := it.data.drop it.dataPos

/-- `memcpy` to `ITEM_data(it) + off` -/
def writeData (off : ℕ) (src : Bytes) : StrItem := it.write (it.dataPos + off) src

/-- The value, which `"\r\n"` ends. -/
def value : Bytes := it.itemData.take (it.nbytes - 2)

/-! ### The fields do not overlap -/

theorem dataPos_le : it.dataPos ≤ it.data.length := by
  rw [it.data_length, dataPos]
  omega

theorem itemData_length (hplain : it.chunks = none) : it.itemData.length = it.nbytes := by
  rw [itemData, List.length_drop, it.data_length, hplain, dataPos]
  simp

variable {it}

variable {pos : ℕ} {src : Bytes}

theorem itemKey_write (h : casSize it.hasCas + it.nkey ≤ pos) :
    (it.write pos src).itemKey = it.itemKey := slice_blit_before _ _ _ h

theorem itemGetCas_write (h : casSize it.hasCas ≤ pos) :
    (it.write pos src).itemGetCas = it.itemGetCas := by
  unfold itemGetCas
  cases hc : it.hasCas with
  | false => simp [write, hc]
  | true =>
    rw [casSize, hc, if_pos rfl] at h
    show (if it.hasCas then ofLeBytes (slice (blit it.data pos src) 0 8) else 0) = _
    rw [hc, slice_blit_before _ _ _ (by omega)]

theorem flagsConv_write_behind (h : it.dataPos ≤ pos) :
    (it.write pos src).flagsConv = it.flagsConv := by
  unfold flagsConv
  cases hf : it.cflags with
  | false => simp [write, hf]
  | true =>
    have hpos : it.suffixPos + 4 ≤ pos := by
      rw [dataPos, flagsSize, hf, if_pos rfl] at h
      rw [suffixPos]
      omega
    show (if it.cflags then UInt32.ofNat (ofLeBytes (slice (blit it.data pos src) it.suffixPos 4)) else 0) = _
    rw [hf, slice_blit_before _ _ _ hpos]

@[simp] theorem itemKey_writeData (off : ℕ) (src : Bytes) : (it.writeData off src).itemKey = it.itemKey :=
  itemKey_write (by rw [dataPos]; omega)

@[simp] theorem itemGetCas_writeData (off : ℕ) (src : Bytes) :
    (it.writeData off src).itemGetCas = it.itemGetCas := itemGetCas_write (by rw [dataPos]; omega)

@[simp] theorem flagsConv_writeData (off : ℕ) (src : Bytes) :
    (it.writeData off src).flagsConv = it.flagsConv := flagsConv_write_behind (by omega)

@[simp] theorem itemData_writeData (off : ℕ) (src : Bytes) :
    (it.writeData off src).itemData = blit it.itemData off src := drop_blit _ _ _ _ it.dataPos_le

theorem itemGetCas_itemSetCas (v : ℕ) :
    (it.itemSetCas v).itemGetCas = if it.hasCas then v % 2 ^ 64 else 0 := by
  show (if it.hasCas then ofLeBytes (slice (if it.hasCas then blit it.data 0 (leBytes 8 v) else it.data) 0 8)
    else 0) = _
  cases hc : it.hasCas with
  | false => simp
  | true =>
    have hfits : 0 + (leBytes 8 v).length ≤ it.data.length := by
      rw [leBytes_length, it.data_length, hc, casSize, if_pos rfl]
      omega
    have hread := slice_blit_self it.data 0 (leBytes 8 v) hfits
    rw [leBytes_length] at hread
    simp only [if_true]
    rw [hread, ofLeBytes_leBytes]
    norm_num

theorem drop_itemSetCas (v : ℕ) {q : ℕ} (hq : casSize it.hasCas ≤ q) :
    (it.itemSetCas v).data.drop q = it.data.drop q := by
  show (if it.hasCas then blit it.data 0 (leBytes 8 v) else it.data).drop q = it.data.drop q
  cases hc : it.hasCas with
  | false => simp
  | true =>
    rw [casSize, hc, if_pos rfl] at hq
    have hfits : 0 + (leBytes 8 v).length ≤ it.data.length := by
      rw [leBytes_length, it.data_length, hc, casSize, if_pos rfl]
      omega
    simp only [if_true]
    rw [blit_eq_overwrite _ _ _ hfits, drop_overwrite _ _ _ _ (by rw [leBytes_length]; omega) (by omega)]

@[simp] theorem itemKey_itemSetCas (v : ℕ) : (it.itemSetCas v).itemKey = it.itemKey := by
  show slice (it.itemSetCas v).data (casSize it.hasCas) it.nkey = _
  rw [slice, drop_itemSetCas v le_rfl]
  rfl

@[simp] theorem flagsConv_itemSetCas (v : ℕ) : (it.itemSetCas v).flagsConv = it.flagsConv := by
  show (if it.cflags then UInt32.ofNat (ofLeBytes (slice (it.itemSetCas v).data it.suffixPos 4)) else 0) = _
  rw [slice, drop_itemSetCas v (by rw [suffixPos]; omega)]
  rfl

@[simp] theorem itemData_itemSetCas (v : ℕ) : (it.itemSetCas v).itemData = it.itemData := by
  show (it.itemSetCas v).data.drop it.dataPos = _
  rw [drop_itemSetCas v (by rw [dataPos]; omega)]
  rfl

end StrItem

/-! ### Allocation -/

/-- What the slab allocator hands out, with whatever was there before. -/
structure Memory where
  /-- `do_item_alloc_pull` for an item: the bytes behind its header -/
  item : (n : ℕ) → Option { data : Bytes // data.length = n }
  /-- whether `do_item_alloc_pull` finds memory for one more chunk of a chain -/
  chunk : List ItemChunk → ℕ → Bool
  /-- the memory behind an item -/
  beyond : StrItem → Bytes

/-- `item_make_header` and the CAS value: the size of an item -/
def itemSize (cfg : Settings) (nkey : ℕ) (flags : UInt32) (nbytes : ℕ) : ℕ :=
  sizeofItem + (nkey + 1 + flagsSize (decide (flags ≠ 0)) + casSize cfg.useCas + nbytes)

/-- `slabs_clsid(size) != 0` -/
def hasSlabClass (cfg : Settings) (size : ℕ) : Bool := decide (size ≠ 0 ∧ size ≤ cfg.itemSizeMax)

/-- The LRU a new item is for; `exptime - current_time` is unsigned. -/
def newLruid (cfg : Settings) (currentTime exptime : ℕ) : LruId :=
  if cfg.tempLru ∧ (exptime + 2 ^ 32 - currentTime) % 2 ^ 32 ≤ cfg.temporaryTtl then .temp
  else if cfg.lruSegmented then .hot
  else .cold

def headerChunk : ItemChunk := ⟨0, [], le_rfl⟩

/-- `do_item_alloc`; `time` is set when the item is linked. -/
def doItemAlloc (cfg : Settings) (m : Memory) (currentTime : ℕ) (key : Bytes) (flags : UInt32)
    (exptime nbytes : ℕ) :
    Option StrItem :=
  let ntotal := itemSize cfg key.length flags nbytes
  let cflags := decide (flags ≠ 0)
  let chunks := if cfg.slabChunkSizeMax < ntotal then some [headerChunk] else none
  if nbytes < 2 ∨ hasSlabClass cfg ntotal = false then none
  else
    match m.item (key.length + 1 + flagsSize cflags + casSize cfg.useCas
        + (if chunks.isSome then sizeofItemChunk else nbytes)) with
    | none => none
    | some mem =>
      let it : StrItem :=
        { time := 0, exptime := exptime, nbytes := nbytes, refcount := 1, nkey := key.length
          lruid := newLruid cfg currentTime exptime, linked := false, hasCas := cfg.useCas, cflags := cflags
          fetched := false, active := false, tokenSent := false, stale := false, chunks := chunks
          data := mem.1, data_length := mem.2 }
      let it := it.write (casSize cfg.useCas) key
      some (if cflags then it.write it.suffixPos (leBytes 4 flags.toNat) else it)

/-- What `do_item_alloc` returns, with any value. -/
structure IsNewItem (cfg : Settings) (key : Bytes) (flags : UInt32) (exptime nbytes : ℕ) (it : StrItem) :
    Prop where
  key_eq : it.itemKey = key
  nkey_eq : it.nkey = key.length
  flags_eq : it.flagsConv = flags
  cflags_eq : it.cflags = decide (flags ≠ 0)
  exptime_eq : it.exptime = exptime
  nbytes_eq : it.nbytes = nbytes
  two_le : 2 ≤ nbytes
  hasCas_eq : it.hasCas = cfg.useCas
  isSome_chunks : it.chunks.isSome = decide (cfg.slabChunkSizeMax < itemSize cfg key.length flags nbytes)
  refcount_eq : it.refcount = 1
  linked_eq : it.linked = false
  tokenSent_eq : it.tokenSent = false
  stale_eq : it.stale = false

variable {cfg : Settings} {key : Bytes} {flags : UInt32} {nbytes : ℕ}

theorem doItemAlloc_eq_some {m : Memory} {currentTime : ℕ}
    {exptime : ℕ} {it : StrItem} (h : doItemAlloc cfg m currentTime key flags exptime nbytes = some it) :
    IsNewItem cfg key flags exptime nbytes it ∧ ∀ chain, it.chunks = some chain → chain = [headerChunk] := by
  have hsome : ∀ p : Prop, ∀ [Decidable p], (if p then some [headerChunk] else none).isSome = decide p := by
    intro p _
    split <;> simp_all
  have hchain : ∀ p : Prop, ∀ [Decidable p], ∀ chain, (if p then some [headerChunk] else none) = some chain →
      chain = [headerChunk] := by
    intro p _ chain
    split
    · intro h
      exact (Option.some.inj h).symm
    · intro h
      simp at h
  unfold doItemAlloc at h
  simp only at h
  split at h
  · simp at h
  rename_i hok
  split at h
  · simp at h
  rename_i mem hmem
  have hit := (Option.some.inj h).symm
  have hfits : casSize cfg.useCas + key.length ≤ mem.1.length := by rw [mem.2]; omega
  have hkey := slice_blit_self mem.1 (casSize cfg.useCas) key hfits
  by_cases hflags : flags = 0
  · subst hflags
    simp only [ne_eq, not_true_eq_false, decide_false, Bool.false_eq_true, if_false] at hit
    subst hit
    exact ⟨{ key_eq := hkey, nkey_eq := rfl, flags_eq := rfl, cflags_eq := rfl, exptime_eq := rfl, nbytes_eq := rfl
             two_le := by omega, hasCas_eq := rfl, isSome_chunks := hsome _, refcount_eq := rfl, linked_eq := rfl
             tokenSent_eq := rfl, stale_eq := rfl }, hchain _⟩
  · have hdec : decide (flags ≠ 0) = true := by simpa using hflags
    simp only [hdec, if_true] at hit
    subst hit
    refine ⟨{ key_eq := ?_, nkey_eq := rfl, flags_eq := ?_, cflags_eq := hdec.symm, exptime_eq := rfl
              nbytes_eq := rfl, two_le := by omega, hasCas_eq := rfl, isSome_chunks := hsome _, refcount_eq := rfl
              linked_eq := rfl, tokenSent_eq := rfl, stale_eq := rfl }, hchain _⟩
    · have hpos : casSize cfg.useCas + key.length ≤ key.length + 1 + casSize cfg.useCas := by omega
      exact (StrItem.itemKey_write hpos).trans hkey
    · have hlen : key.length + 1 + casSize cfg.useCas + (leBytes 4 flags.toNat).length
          ≤ (blit mem.1 (casSize cfg.useCas) key).length := by
        rw [blit_length, mem.2, leBytes_length, hdec, flagsSize, if_pos rfl]
        omega
      have hread := slice_blit_self _ _ _ hlen
      rw [leBytes_length] at hread
      show UInt32.ofNat (ofLeBytes (slice (blit (blit mem.1 (casSize cfg.useCas) key)
        (key.length + 1 + casSize cfg.useCas) (leBytes 4 flags.toNat)) (key.length + 1 + casSize cfg.useCas) 4)) = flags
      rw [hread, ofLeBytes_leBytes, Nat.mod_eq_of_lt (by have := flags.toNat_lt; omega), UInt32.ofNat_toNat]

theorem IsNewItem.writeData {exptime : ℕ} {it : StrItem}
    (h : IsNewItem cfg key flags exptime nbytes it) (off : ℕ) (src : Bytes) :
    IsNewItem cfg key flags exptime nbytes (it.writeData off src) :=
  { h with
    key_eq := by rw [StrItem.itemKey_writeData]; exact h.key_eq
    flags_eq := by rw [StrItem.flagsConv_writeData]; exact h.flags_eq }

structure Memory.Enough (m : Memory) : Prop where
  item : ∀ n, (m.item n).isSome
  chunk : ∀ chain n, m.chunk chain n = true

def zeroMemory : Memory :=
  ⟨fun n => some ⟨List.replicate n 0, List.length_replicate⟩, fun _ _ => true, fun _ => []⟩

theorem zeroMemory_enough : zeroMemory.Enough := ⟨fun _ => rfl, fun _ _ => rfl⟩

theorem doItemAlloc_isSome {m : Memory} (hm : m.Enough) (currentTime : ℕ) (exptime : ℕ) (h2 : 2 ≤ nbytes)
    (hsize : itemSize cfg key.length flags nbytes ≤ cfg.itemSizeMax) :
    ∃ it, doItemAlloc cfg m currentTime key flags exptime nbytes = some it := by
  have hclass : hasSlabClass cfg (itemSize cfg key.length flags nbytes) = true := by
    rw [hasSlabClass, decide_eq_true_iff]
    exact ⟨by rw [itemSize]; simp, hsize⟩
  unfold doItemAlloc
  simp only
  rw [if_neg (by rw [hclass]; simp; omega)]
  obtain ⟨mem, hmem⟩ := Option.isSome_iff_exists.mp (hm.item (key.length + 1 + flagsSize (decide (flags ≠ 0))
    + casSize cfg.useCas + (if (if cfg.slabChunkSizeMax < itemSize cfg key.length flags nbytes then some [headerChunk]
      else none).isSome then sizeofItemChunk else nbytes)))
  rw [hmem]
  exact ⟨_, rfl⟩

end BmcCache
