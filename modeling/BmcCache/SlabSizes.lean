import BmcCache.TextCommands
import BmcCache.Items
import Mathlib.Data.Nat.Prime.Basic

/-!
# Slab classes: `slabs_init`, `slabs_clsid` and the sizes of an allocation

`main` accepts the options from which `slabs_init` derives the chunk sizes of the slab classes; `do_item_alloc` and
`do_item_alloc_chunk` pick a class by the size they ask for and write into the chunk they get.

* `SlabOptions.Accepted` — the checks of `main`;
* `slabsInit`, `slabsClsid` — the classes, and the class for a size: the largest one if none is large enough;
* `itemAlloc`, `chunkAlloc` — the class asked for, and how far the chunk is written;
* `alloc_fits_iff` — the chunk of an item, of the header of a large item and of its data is large enough unless the
  header is larger than `slab_chunk_max`, or `slab_chunk_max` is negative and the item is for the largest class.
-/

namespace BmcCache

/-! ### Options -/

/-- An `int` as a `size_t` -/
def toSizeT (n : ℤ) : ℕ := (n % 2 ^ 64).toNat

/-- An `int` or a `size_t` as an `unsigned int` -/
def toUnsigned (n : ℤ) : ℕ := (n % 2 ^ 32).toNat

/-- `settings.slab_page_size`, which no option changes -/
def slabPageSize : ℕ := 1048576

theorem slabPageSize_pos : 0 < slabPageSize := by decide

@[simp] abbrev chunkAlignBytes : ℕ := 8

@[simp] abbrev maxNumberOfSlabClasses : ℕ := 64

/-- What `slabs_init` computes in floating point with a growth factor, which is above one: the quotient of a positive
`slab_chunk_max` is not larger than that. -/
structure GrowthFactor where
  /-- `size >= settings.slab_chunk_size_max / factor` -/
  stops : ℤ → ℕ → Bool
  /-- `size *= factor` -/
  grow : ℕ → ℕ
  stops_of_lt : ∀ {max : ℤ} {size : ℕ}, 0 < max → max < size → stops max size = true

/-- The options; `slabSizes` has the tokens of the option `slab_sizes`. -/
structure SlabOptions where
  chunkSize : ℤ
  slabChunkSizeMax : ℤ
  itemSizeMax : ℤ
  maxbytes : ℕ
  factor : GrowthFactor
  slabSizes : Option (List Bytes)
  useCas : Bool
  slabReassign : Bool
  /-- `NEED_ALIGN` -/
  needAlign : Bool

namespace SlabOptions

variable (o : SlabOptions)

def parseSlabSizes : ℕ → ℕ → List Bytes → Option (List ℕ)
  | _, _, [] => some []
  | lastSize, i, p :: ps =>
    match safeStrtoul p with
    | none => none
    | some size =>
      if size < toUnsigned o.chunkSize ∨ toUnsigned o.slabChunkSizeMax < size then none
      else if size ≤ lastSize then none
      else if size ≤ (lastSize + chunkAlignBytes) % 2 ^ 32 then none
      else if maxNumberOfSlabClasses - 1 ≤ i + 1 then none
      else (parseSlabSizes size (i + 1) ps).map (size :: ·)

def sizes : Option (List ℕ) := o.slabSizes.bind (o.parseSlabSizes 0 0)

/-- **The options `main` accepts.** -/
structure Accepted : Prop where
  chunkSize_ne : o.chunkSize ≠ 0
  itemSizeMax_ge : 1024 ≤ o.itemSizeMax
  itemSizeMax_le_half : toSizeT o.itemSizeMax ≤ o.maxbytes / 2
  itemSizeMax_le : o.itemSizeMax ≤ 1024 * 1024 * 1024
  slabChunkSizeMax_le : o.slabChunkSizeMax ≤ o.itemSizeMax
  /-- the remainders are computed -/
  slabChunkSizeMax_ne : o.slabChunkSizeMax ≠ 0
  itemSizeMax_mod : o.itemSizeMax.tmod o.slabChunkSizeMax = 0
  slabPageSize_mod : (slabPageSize : ℤ).tmod o.slabChunkSizeMax = 0
  slabSizes_parse : ∀ tokens ∈ o.slabSizes, (o.parseSlabSizes 0 0 tokens).isSome

end SlabOptions

/-! ### Classes -/

/-- `slabclass_t`: the size of a chunk and the number of chunks in a page -/
structure SlabClass where
  size : ℕ
  perslab : ℕ
  deriving DecidableEq

/-- The next multiple of `CHUNK_ALIGN_BYTES`. -/
def alignSize (size : ℕ) : ℕ :=
  if size % chunkAlignBytes ≠ 0 then (size + (chunkAlignBytes - size % chunkAlignBytes)) % 2 ^ 32 else size

/-- A class of the loop of `slabs_init`. -/
def slabClass (size : ℕ) : SlabClass := ⟨alignSize size, slabPageSize / alignSize size⟩

namespace SlabOptions

variable (o : SlabOptions)

/-- The loop of `slabs_init` with a growth factor: as many classes as are left, and the size of the next one. -/
def factorClasses : ℕ → ℕ → List SlabClass
  | 0, _ => []
  | n + 1, size =>
    if o.factor.stops o.slabChunkSizeMax size then []
    else slabClass size :: factorClasses n (o.factor.grow (alignSize size))

/-- The classes below `power_largest`. -/
def lowerClasses : List SlabClass :=
  match o.sizes with
  | some sizes => ((sizes.takeWhile (· ≠ 0)).take (maxNumberOfSlabClasses - 2)).map slabClass
  | none => o.factorClasses (maxNumberOfSlabClasses - 2) (toUnsigned (sizeofItem + o.chunkSize))

/-- The class `power_largest`; the quotient of `int`s is assigned to an `unsigned int`. -/
def largestClass : SlabClass :=
  ⟨toUnsigned o.slabChunkSizeMax, toUnsigned ((slabPageSize : ℤ).tdiv o.slabChunkSizeMax)⟩

/-- `slabs_init`: the classes from `POWER_SMALLEST` to `power_largest`. -/
def slabsInit : List SlabClass := o.lowerClasses ++ [o.largestClass]

/-- The loop of `slabs_clsid`: the class `res` and those behind it. -/
def clsidFrom (size : ℕ) : ℕ → List SlabClass → ℕ
  | res, [] => res
  | res, p :: ps => if p.size < size then (if ps = [] then res else clsidFrom size (res + 1) ps) else res

def slabsClsid (size : ℕ) : ℕ :=
  if size = 0 ∨ toSizeT o.itemSizeMax < size then 0 else clsidFrom size 1 o.slabsInit

/-- `&slabclass[id]`, if `do_slabs_alloc` accepts `id` -/
def slabclassAt (id : ℕ) : Option SlabClass := if id = 0 then none else o.slabsInit[id - 1]?

/-- `len` of `do_slabs_newslab`: the bytes of a page of the class -/
def pageLen (p : SlabClass) : ℕ :=
  if o.slabReassign ∨ o.slabChunkSizeMax ≠ slabPageSize then slabPageSize else p.size * p.perslab

/-! ### Allocations -/

/-- `offsetof(item_chunk, data)`: what is written of the header of a chunk -/
@[simp] abbrev offsetofChunkData : ℕ := 42

/-- `item_make_header`; the length of the key is passed as a `uint8_t`. -/
def itemMakeHeader (nkey : ℕ) (flags : UInt32) (nbytes : ℕ) : ℕ :=
  sizeofItem + nkey % 2 ^ 8 + flagsSize (decide (flags ≠ 0)) + nbytes

/-- `ntotal` of `do_item_alloc` -/
def ntotal (nkey : ℕ) (flags : UInt32) (nbytes : ℤ) : ℕ :=
  itemMakeHeader (nkey + 1) flags nbytes.toNat + casSize o.useCas

/-- The padding of `NEED_ALIGN`. -/
def pad (n : ℕ) : ℕ := if o.needAlign ∧ n % 8 ≠ 0 then n + (8 - n % 8) else n

/-- `htotal` of `do_item_alloc` -/
def htotal (nkey : ℕ) (flags : UInt32) : ℕ :=
  o.pad (nkey + 1 + flagsSize (decide (flags ≠ 0)) + sizeofItem + sizeofItemChunk + casSize o.useCas)

/-- The end of the header of a large item: `ITEM_schunk` and the fields of the chunk there. -/
def headerEnd (nkey : ℕ) (flags : UInt32) : ℕ :=
  sizeofItem + o.pad (nkey + 1 + flagsSize (decide (flags ≠ 0)) + casSize o.useCas) + offsetofChunkData

/-- A chunk that `do_item_alloc` asks for: its class, the end of what is written into it, and whether it is the
header of a large item. -/
structure ItemAlloc where
  clsid : ℕ
  written : ℕ
  chunked : Bool
  deriving DecidableEq

/-- The chunk that `do_item_alloc` asks for; an item that is not large is written up to the end of its value. -/
def itemAlloc (nkey : ℕ) (flags : UInt32) (nbytes : ℤ) : Option ItemAlloc :=
  if nbytes < 2 then none
  else if o.slabsClsid (o.ntotal nkey flags nbytes) = 0 then none
  else if toSizeT o.slabChunkSizeMax < o.ntotal nkey flags nbytes then
    some ⟨o.slabsClsid (o.htotal nkey flags), o.headerEnd nkey flags, true⟩
  else
    some ⟨o.slabsClsid (o.ntotal nkey flags nbytes),
      sizeofItem + (nkey + 1 + flagsSize (decide (flags ≠ 0)) + casSize o.useCas) + nbytes.toNat, false⟩

/-- The chunk that `do_item_alloc_chunk` asks for: its class, and `item_chunk.size`, an `int`. -/
def chunkAlloc (bytesRemain : ℕ) : ℕ × ℤ :=
  let size := min (bytesRemain + sizeofItemChunk) (toSizeT o.slabChunkSizeMax)
  (o.slabsClsid size, toInt32 ((size : ℤ) - sizeofItemChunk))

/-- **A chunk is large enough.** If a page of the class has chunks, they have room for the bytes and lie in the page. -/
def Fits (id bytes : ℕ) : Prop :=
  ∀ p ∈ o.slabclassAt id, 0 < p.perslab → bytes ≤ p.size ∧ p.perslab * p.size ≤ o.pageLen p

/-- **Every allocation fits its chunk**: that of the item, and those of the data of a large item, whose capacity is not
negative. -/
def AllocFits (nkey : ℕ) (flags : UInt32) (nbytes : ℤ) : Prop :=
  ∀ a ∈ o.itemAlloc nkey flags nbytes, o.Fits a.clsid a.written ∧
    (a.chunked → ∀ bytesRemain, 0 ≤ (o.chunkAlloc bytesRemain).2 ∧
      o.Fits (o.chunkAlloc bytesRemain).1 (offsetofChunkData + (o.chunkAlloc bytesRemain).2.toNat))

/-! ### The class that is chosen -/

/-- The loop of `slabs_clsid` finds the first class that is large enough, or the last one. -/
theorem clsidFrom_spec (size : ℕ) (last : SlabClass) (lower : List SlabClass) (res : ℕ) :
    res ≤ clsidFrom size res (lower ++ [last]) ∧
      (lower ++ [last])[clsidFrom size res (lower ++ [last]) - res]? =
        some ((lower.find? (fun p => size ≤ p.size)).getD last) := by
  induction lower generalizing res with
  | nil => simp [clsidFrom]
  | cons p ps ih =>
    rw [List.cons_append, clsidFrom]
    by_cases hp : p.size < size
    · rw [if_pos hp, if_neg (by simp)]
      obtain ⟨hle, hget⟩ := ih (res + 1)
      have hidx : clsidFrom size (res + 1) (ps ++ [last]) - res =
          (clsidFrom size (res + 1) (ps ++ [last]) - (res + 1)) + 1 := by omega
      refine ⟨by omega, ?_⟩
      rw [hidx, List.getElem?_cons_succ, hget, List.find?_cons_of_neg (by simpa using hp)]
    · rw [if_neg hp]
      refine ⟨le_rfl, ?_⟩
      rw [Nat.sub_self, List.getElem?_cons_zero, List.find?_cons_of_pos (by simpa using hp), Option.getD_some]

variable {o}

variable {size m nkey : ℕ}

theorem slabclassAt_slabsClsid (h0 : size ≠ 0) (hmax : size ≤ toSizeT o.itemSizeMax) :
    o.slabclassAt (o.slabsClsid size) =
      some ((o.lowerClasses.find? (fun p => size ≤ p.size)).getD o.largestClass) := by
  obtain ⟨hle, hget⟩ := clsidFrom_spec size o.largestClass o.lowerClasses 1
  rw [slabsClsid, if_neg (by omega), slabclassAt, if_neg (by rw [slabsInit]; omega)]
  exact hget

/-- As many chunks of a size as a page has room for lie in a page. -/
theorem le_pageLen (size : ℕ) : slabPageSize / size * size ≤ o.pageLen ⟨size, slabPageSize / size⟩ := by
  rw [pageLen]
  split
  · exact Nat.div_mul_le_self _ _
  · rw [Nat.mul_comm]

theorem page_of_mem_lower {p : SlabClass} (hp : p ∈ o.lowerClasses) : p.perslab * p.size ≤ o.pageLen p := by
  have hclass : ∃ size, p = slabClass size := by
    rw [lowerClasses] at hp
    split at hp
    · obtain ⟨size, -, rfl⟩ := List.mem_map.mp hp
      exact ⟨size, rfl⟩
    · have hloop : ∀ n size, p ∈ o.factorClasses n size → ∃ size, p = slabClass size := by
        intro n
        induction n with
        | zero => intro size h; cases h
        | succ n ih =>
          intro size h
          rw [factorClasses] at h
          split at h
          · cases h
          · rcases List.mem_cons.mp h with rfl | h
            · exact ⟨size, rfl⟩
            · exact ih _ h
      exact hloop _ _ hp
  obtain ⟨size, rfl⟩ := hclass
  exact le_pageLen _

/-! ### Accepted options -/

theorem toUnsigned_natCast (h : m < 2 ^ 32) : toUnsigned m = m := by
  rw [toUnsigned, Int.emod_eq_of_lt (by omega) (by omega), Int.toNat_natCast]

theorem toSizeT_natCast (h : m < 2 ^ 64) : toSizeT m = m := by
  rw [toSizeT, Int.emod_eq_of_lt (by omega) (by omega), Int.toNat_natCast]

theorem toUnsigned_neg (h0 : 0 < m) (h : m < 2 ^ 32) : toUnsigned (-m) = 2 ^ 32 - m := by
  rw [toUnsigned]
  omega

theorem toSizeT_neg (h0 : 0 < m) (h : m < 2 ^ 64) : toSizeT (-m) = 2 ^ 64 - m := by
  rw [toSizeT]
  omega

theorem Accepted.toSizeT_itemSizeMax (h : o.Accepted) : (toSizeT o.itemSizeMax : ℤ) = o.itemSizeMax := by
  have hge := h.itemSizeMax_ge
  have hle := h.itemSizeMax_le
  rw [toSizeT]
  omega

/-- `slab_chunk_max` is a divisor of the page size or the negative of one. -/
theorem Accepted.chunkMax_cases (h : o.Accepted) :
    ∃ m : ℕ, 0 < m ∧ m ∣ slabPageSize ∧ m ≤ slabPageSize ∧
      (o.slabChunkSizeMax = m ∨ o.slabChunkSizeMax = -m) := by
  have hdvd := Int.dvd_of_tmod_eq_zero h.slabPageSize_mod
  have hnat : o.slabChunkSizeMax.natAbs ∣ slabPageSize := by
    simpa using Int.natAbs_dvd_natAbs.mpr hdvd
  have h0 := h.slabChunkSizeMax_ne
  exact ⟨_, by omega, hnat, Nat.le_of_dvd (by decide) hnat, by omega⟩

/-- A divisor of the page size is a power of two: eight divides it if it is not smaller. -/
theorem eight_dvd (hdvd : m ∣ slabPageSize) (h8 : 8 ≤ m) : 8 ∣ m := by
  obtain ⟨k, -, rfl⟩ := (Nat.dvd_prime_pow Nat.prime_two (m := 20)).mp hdvd
  have hk : 3 ≤ k := by
    by_contra hlt
    have : 2 ^ k ≤ 2 ^ 2 := Nat.pow_le_pow_right (by decide) (by omega)
    omega
  exact pow_dvd_pow 2 hk

theorem alignSize_le (hsize : size ≤ m) (hm : m ≤ slabPageSize) :
    alignSize size < m + 8 ∧ (8 ∣ m → alignSize size ≤ m) := by
  have hpage : slabPageSize = 1048576 := rfl
  simp only [alignSize, chunkAlignBytes]
  split
  · rw [Nat.mod_eq_of_lt (by omega)]
    omega
  · omega

theorem parseSlabSizes_le {tokens : List Bytes} {lastSize i : ℕ} {sizes : List ℕ}
    (h : o.parseSlabSizes lastSize i tokens = some sizes) : ∀ size ∈ sizes,
    size ≤ toUnsigned o.slabChunkSizeMax := by
  induction tokens generalizing lastSize i sizes with
  | nil =>
    cases Option.some.inj h
    intro size hs
    cases hs
  | cons p ps ih =>
    rw [parseSlabSizes] at h
    split at h
    · cases h
    · rename_i n _
      split_ifs at h with hrange _ _ _
      obtain ⟨rest, hrest, rfl⟩ := Option.map_eq_some_iff.mp h
      intro size hs
      rcases List.mem_cons.mp hs with rfl | hs
      · omega
      · exact ih hrest size hs

/-- With a positive `slab_chunk_max` the lower classes are made from sizes up to that. -/
theorem exists_size_of_mem_lower (h0 : 0 < m) (hm : m ≤ slabPageSize) (hmax : o.slabChunkSizeMax = m)
    {p : SlabClass} (hp : p ∈ o.lowerClasses) : ∃ size, size ≤ m ∧ p.size = alignSize size := by
  have hpage : slabPageSize = 1048576 := rfl
  rw [lowerClasses] at hp
  split at hp
  · rename_i sizes hsizes
    obtain ⟨size, hsize, rfl⟩ := List.mem_map.mp hp
    have hmem : size ∈ sizes := List.takeWhile_subset _ (List.mem_of_mem_take hsize)
    obtain ⟨tokens, -, hparse⟩ := Option.bind_eq_some_iff.mp hsizes
    have hle := parseSlabSizes_le hparse size hmem
    rw [hmax, toUnsigned_natCast (by omega)] at hle
    exact ⟨size, hle, rfl⟩
  · have hloop : ∀ n size, p ∈ o.factorClasses n size → ∃ size, size ≤ m ∧ p.size = alignSize size := by
      intro n
      induction n with
      | zero => intro size h; cases h
      | succ n ih =>
        intro size h
        rw [factorClasses] at h
        split at h
        · cases h
        · rename_i hstop
          rcases List.mem_cons.mp h with rfl | h
          · refine ⟨size, ?_, rfl⟩
            by_contra hlt
            exact hstop (o.factor.stops_of_lt (by omega) (by omega))
          · exact ih _ h
    exact hloop _ _ hp

theorem largestClass_of_pos (hm : m ≤ slabPageSize) (hmax : o.slabChunkSizeMax = m) :
    o.largestClass = ⟨m, slabPageSize / m⟩ := by
  have hpage : slabPageSize = 1048576 := rfl
  have hdiv : slabPageSize / m ≤ slabPageSize := Nat.div_le_self _ _
  rw [largestClass, hmax, toUnsigned_natCast (by omega), ← Int.ofNat_tdiv, toUnsigned_natCast (by omega)]

theorem largestClass_of_neg (h0 : 0 < m) (hm : m ≤ slabPageSize) (hmax : o.slabChunkSizeMax = -m) :
    o.largestClass = ⟨2 ^ 32 - m, 2 ^ 32 - slabPageSize / m⟩ := by
  have hpage : slabPageSize = 1048576 := rfl
  have hdiv : slabPageSize / m ≤ slabPageSize := Nat.div_le_self _ _
  have hpos : 0 < slabPageSize / m := Nat.div_pos hm h0
  rw [largestClass, hmax, toUnsigned_neg h0 (by omega), Int.tdiv_neg, ← Int.ofNat_tdiv,
    toUnsigned_neg hpos (by omega)]

/-! ### Which allocations fit -/

/-- The class chosen for a size: a lower one that is large enough, or the largest if none is. -/
theorem slabsClsid_cases (h0 : size ≠ 0) (hmax : size ≤ toSizeT o.itemSizeMax) :
    (∃ p ∈ o.lowerClasses, size ≤ p.size ∧ o.slabclassAt (o.slabsClsid size) = some p) ∨
      ((∀ p ∈ o.lowerClasses, p.size < size) ∧ o.slabclassAt (o.slabsClsid size) = some o.largestClass) := by
  rw [slabclassAt_slabsClsid h0 hmax]
  cases hfind : o.lowerClasses.find? (fun p => size ≤ p.size) with
  | some q => exact .inl ⟨q, List.mem_of_find?_eq_some hfind, by simpa using List.find?_some hfind, rfl⟩
  | none => exact .inr ⟨fun p hp => by simpa using List.find?_eq_none.mp hfind p hp, rfl⟩

theorem fits_of_le {bytes : ℕ} (hm : m ≤ slabPageSize) (hmax : o.slabChunkSizeMax = m)
    (h0 : size ≠ 0) (hitem : size ≤ toSizeT o.itemSizeMax) (hsize : size ≤ m) (hbytes : bytes ≤ size) :
    o.Fits (o.slabsClsid size) bytes := by
  intro p hp _
  rcases slabsClsid_cases h0 hitem with ⟨q, hq, hle, hat⟩ | ⟨-, hat⟩
  · obtain rfl := Option.some.inj (hat.symm.trans hp)
    exact ⟨le_trans hbytes hle, page_of_mem_lower hq⟩
  · obtain rfl := Option.some.inj (hat.symm.trans hp)
    rw [largestClass_of_pos hm hmax]
    exact ⟨le_trans hbytes hsize, le_pageLen m⟩

theorem pad_add (n : ℕ) : o.pad (n + 96) = o.pad n + 96 := by
  have hmod : (n + 96) % 8 = n % 8 := by omega
  simp only [pad, hmod]
  split <;> omega

theorem htotal_eq (nkey : ℕ) (flags : UInt32) : o.htotal nkey flags = o.headerEnd nkey flags + 6 := by
  have hsum : nkey + 1 + flagsSize (decide (flags ≠ 0)) + sizeofItem + sizeofItemChunk + casSize o.useCas =
      (nkey + 1 + flagsSize (decide (flags ≠ 0)) + casSize o.useCas) + 96 := by
    simp only [sizeofItem, sizeofItemChunk]
    omega
  rw [htotal, hsum, pad_add, headerEnd]
  simp only [sizeofItem, offsetofChunkData]
  omega

theorem headerEnd_bounds (hk : nkey ≤ keyMaxLength) (flags : UInt32) :
    91 ≤ o.headerEnd nkey flags ∧ o.headerEnd nkey flags ≤ 360 := by
  have hf : flagsSize (decide (flags ≠ 0)) ≤ 4 := by
    rw [flagsSize]
    split <;> omega
  have hc : casSize o.useCas ≤ 8 := by
    rw [casSize]
    split <;> omega
  simp only [headerEnd, pad, sizeofItem, offsetofChunkData, keyMaxLength] at hk ⊢
  split <;> omega

/-- The header of a large item fits its chunk iff it is not larger than `slab_chunk_max`. -/
theorem fits_header_iff (h : o.Accepted) (h0 : 0 < m) (hdvd : m ∣ slabPageSize) (hm : m ≤ slabPageSize)
    (hmax : o.slabChunkSizeMax = m) (hk : nkey ≤ keyMaxLength) (flags : UInt32) :
    o.Fits (o.slabsClsid (o.htotal nkey flags)) (o.headerEnd nkey flags) ↔ o.headerEnd nkey flags ≤ m := by
  obtain ⟨hlow, hhigh⟩ := headerEnd_bounds (o := o) hk flags
  have hitem := h.toSizeT_itemSizeMax
  have hge := h.itemSizeMax_ge
  have hh := htotal_eq (o := o) nkey flags
  have hlower : ∀ p ∈ o.lowerClasses, p.size < m + 8 ∧ (8 ≤ m → p.size ≤ m) := by
    intro p hp
    obtain ⟨size, hsize, heq⟩ := exists_size_of_mem_lower h0 hm hmax hp
    rw [heq]
    obtain ⟨hlt, hle⟩ := alignSize_le hsize hm
    exact ⟨hlt, fun h8 => hle (eight_dvd hdvd h8)⟩
  have hsize : o.htotal nkey flags ≠ 0 := by omega
  have hitem : o.htotal nkey flags ≤ toSizeT o.itemSizeMax := by omega
  rcases slabsClsid_cases hsize hitem with ⟨p, hp, hle, hat⟩ | ⟨-, hat⟩
  · -- a lower class is not larger than `slab_chunk_max`, unless both are smaller than any header
    obtain ⟨hlt, h8⟩ := hlower p hp
    refine iff_of_true ?_ (by omega)
    intro q hq _
    obtain rfl := Option.some.inj (hat.symm.trans hq)
    exact ⟨by omega, page_of_mem_lower hp⟩
  · rw [largestClass_of_pos hm hmax] at hat
    constructor
    · intro hfits
      exact (hfits _ hat (Nat.div_pos hm h0)).1
    · intro hle q hq _
      obtain rfl := Option.some.inj (hat.symm.trans hq)
      exact ⟨hle, le_pageLen m⟩

/-- The chunks of the data of a large item fit if `slab_chunk_max` has room for their header. -/
theorem fits_chunk (h : o.Accepted) (hm : m ≤ slabPageSize) (hmax : o.slabChunkSizeMax = m)
    (h48 : sizeofItemChunk ≤ m) (bytesRemain : ℕ) :
    0 ≤ (o.chunkAlloc bytesRemain).2 ∧
      o.Fits (o.chunkAlloc bytesRemain).1 (offsetofChunkData + (o.chunkAlloc bytesRemain).2.toNat) := by
  have hpage : slabPageSize = 1048576 := rfl
  have hitem := h.toSizeT_itemSizeMax
  have hle := h.slabChunkSizeMax_le
  simp only [chunkAlloc, sizeofItemChunk, offsetofChunkData] at h48 ⊢
  rw [hmax, toSizeT_natCast (by omega)]
  generalize hsize : min (bytesRemain + 48) m = size
  have hint : toInt32 ((size : ℤ) - (48 : ℕ)) = size - 48 := by
    rw [toInt32]
    split <;> omega
  rw [hint]
  exact ⟨by omega, fits_of_le hm hmax (by omega) (by omega) (by omega) (by omega)⟩

/-- With a negative `slab_chunk_max` an allocation fits iff one of the lower classes is large enough. -/
theorem fits_iff_of_neg (h0 : 0 < m) (hm : m ≤ slabPageSize) (hmax : o.slabChunkSizeMax = -m)
    (hsize : size ≠ 0) (hitem : size ≤ toSizeT o.itemSizeMax) :
    o.Fits (o.slabsClsid size) size ↔ ∃ p ∈ o.lowerClasses, size ≤ p.size := by
  have hpage : slabPageSize = 1048576 := rfl
  rcases slabsClsid_cases hsize hitem with ⟨p, hp, hle, hat⟩ | ⟨hlt, hat⟩
  · refine iff_of_true ?_ ⟨p, hp, hle⟩
    intro q hq _
    obtain rfl := Option.some.inj (hat.symm.trans hq)
    exact ⟨hle, page_of_mem_lower hp⟩
  · refine iff_of_false ?_ ?_
    · intro hfits
      rw [largestClass_of_neg h0 hm hmax] at hat
      have hdiv : slabPageSize / m ≤ slabPageSize := Nat.div_le_self _ _
      obtain ⟨-, hin⟩ := hfits _ hat (by dsimp only; omega)
      rw [pageLen, if_pos (.inr (by rw [hmax]; omega))] at hin
      have hone : 1 * (2 ^ 32 - m) ≤ (2 ^ 32 - slabPageSize / m) * (2 ^ 32 - m) :=
        Nat.mul_le_mul_right _ (by omega)
      dsimp only at hin
      omega
    · rintro ⟨p, hp, hle⟩
      have := hlt p hp
      omega

/-- **Which allocations fit.** For accepted options and the keys the protocols accept: those of an item that is refused,
with a positive `slab_chunk_max` those of an item that is not large or whose header is not larger than that, and with a
negative one those of an item for which a lower class is large enough. -/
theorem alloc_fits_iff (h : o.Accepted) (hk : nkey ≤ keyMaxLength) (flags : UInt32) (nbytes : ℤ) :
    o.AllocFits nkey flags nbytes ↔
      (nbytes < 2 ∨ o.itemSizeMax < o.ntotal nkey flags nbytes) ∨
      (0 < o.slabChunkSizeMax ∧
        (o.ntotal nkey flags nbytes ≤ o.slabChunkSizeMax ∨ o.headerEnd nkey flags ≤ o.slabChunkSizeMax)) ∨
      (o.slabChunkSizeMax < 0 ∧ ∃ p ∈ o.lowerClasses, o.ntotal nkey flags nbytes ≤ p.size) := by
  have hpage : slabPageSize = 1048576 := rfl
  have hitem := h.toSizeT_itemSizeMax
  have hle := h.itemSizeMax_le
  obtain ⟨hlow, hhigh⟩ := headerEnd_bounds (o := o) hk flags
  have hwritten : sizeofItem + (nkey + 1 + flagsSize (decide (flags ≠ 0)) + casSize o.useCas) + nbytes.toNat =
      o.ntotal nkey flags nbytes := by
    simp only [keyMaxLength] at hk
    simp only [ntotal, itemMakeHeader, sizeofItem]
    rw [Nat.mod_eq_of_lt (by omega)]
    omega
  have hpos : o.ntotal nkey flags nbytes ≠ 0 := by
    rw [← hwritten]
    simp only [sizeofItem]
    omega
  rw [AllocFits, itemAlloc, hwritten]
  by_cases h2 : nbytes < 2
  · rw [if_pos h2]
    simp [h2]
  rw [if_neg h2]
  generalize hn : o.ntotal nkey flags nbytes = n at hpos
  by_cases hbig : o.itemSizeMax < n
  · rw [if_pos (by rw [slabsClsid, if_pos (.inr (by omega))])]
    simp [hbig]
  have hclass : o.slabsClsid n ≠ 0 := by
    rw [slabsClsid, if_neg (by omega)]
    have := (clsidFrom_spec n o.largestClass o.lowerClasses 1).1
    rw [slabsInit]
    omega
  rw [if_neg hclass]
  obtain ⟨m, h0, hdvd, hm, hmax | hmax⟩ := h.chunkMax_cases
  · have hsize : toSizeT o.slabChunkSizeMax = m := by rw [hmax, toSizeT_natCast (by omega)]
    rw [hsize]
    by_cases hlarge : m < n
    · rw [if_pos hlarge]
      simp only [Option.mem_some_iff, forall_eq', forall_const]
      rw [fits_header_iff h h0 hdvd hm hmax hk]
      constructor
      · rintro ⟨hfit, -⟩
        exact .inr (.inl ⟨by omega, .inr (by omega)⟩)
      · intro hcond
        have hfit : o.headerEnd nkey flags ≤ m := by omega
        exact ⟨hfit, fits_chunk h hm hmax (by simp only [sizeofItemChunk]; omega)⟩
    · rw [if_neg hlarge]
      simp only [Option.mem_some_iff, forall_eq', Bool.false_eq_true, false_implies, and_true]
      exact iff_of_true (fits_of_le hm hmax hpos (by omega) (by omega) le_rfl)
        (.inr (.inl ⟨by omega, .inl (by omega)⟩))
  · have hsize : toSizeT o.slabChunkSizeMax = 2 ^ 64 - m := by rw [hmax, toSizeT_neg h0 (by omega)]
    rw [hsize, if_neg (by omega)]
    simp only [Option.mem_some_iff, forall_eq', Bool.false_eq_true, false_implies, and_true]
    rw [fits_iff_of_neg h0 hm hmax hpos (by omega)]
    constructor
    · intro hex
      exact .inr (.inr ⟨by omega, hex⟩)
    · rintro ((h2' | hbig') | ⟨hlt, -⟩ | ⟨-, hex⟩)
      · exact absurd h2' h2
      · exact absurd hbig' hbig
      · omega
      · exact hex

/-! ### Examples of options -/

def defaultFactor : GrowthFactor where
  stops max size := decide (max * 4 ≤ size * 5)
  grow size := size * 5 / 4
  stops_of_lt := by
    intro max size h0 hlt
    rw [decide_eq_true_iff]
    omega

/-- The default options with a given `slab_chunk_max`. -/
def withChunkMax (max : ℤ) : SlabOptions where
  chunkSize := 48
  slabChunkSizeMax := max
  itemSizeMax := 1048576
  maxbytes := 67108864
  factor := defaultFactor
  slabSizes := none
  useCas := true
  slabReassign := true
  needAlign := false

theorem accepted_withChunkMax {max : ℤ} (hle : max ≤ 1048576) (h0 : max ≠ 0)
    (hmod : (1048576 : ℤ).tmod max = 0) :
    (withChunkMax max).Accepted where
  chunkSize_ne := (by decide : (48 : ℤ) ≠ 0)
  itemSizeMax_ge := (by decide : (1024 : ℤ) ≤ 1048576)
  itemSizeMax_le_half := (by decide : toSizeT 1048576 ≤ 67108864 / 2)
  itemSizeMax_le := (by decide : (1048576 : ℤ) ≤ 1024 * 1024 * 1024)
  slabChunkSizeMax_le := hle
  slabChunkSizeMax_ne := h0
  itemSizeMax_mod := hmod
  slabPageSize_mod := hmod
  slabSizes_parse := by
    intro tokens h
    cases h

/-- A large item with the longest key fits with the default options. -/
theorem alloc_fits_default :
    (withChunkMax 524288).Accepted ∧ (withChunkMax 524288).AllocFits 250 1 600000 := by
  have hacc : (withChunkMax 524288).Accepted := accepted_withChunkMax (by decide) (by decide) (by decide)
  refine ⟨hacc, (alloc_fits_iff hacc (by decide) 1 600000).mpr (.inr (.inl ⟨by decide, .inr ?_⟩))⟩
  decide

/-- With a `slab_chunk_max` of 64 bytes the header of an item with a key of ten bytes is written up to byte 109 of its
chunk. -/
theorem alloc_header_overflow :
    (withChunkMax 64).Accepted ∧ (withChunkMax 64).itemAlloc 10 0 100 = some ⟨1, 109, true⟩ ∧
      (withChunkMax 64).slabclassAt 1 = some ⟨64, 16384⟩ ∧ ¬ (withChunkMax 64).AllocFits 10 0 100 := by
  have halloc : (withChunkMax 64).itemAlloc 10 0 100 = some ⟨1, 109, true⟩ := by decide +kernel
  have hclass : (withChunkMax 64).slabclassAt 1 = some ⟨64, 16384⟩ := by decide +kernel
  refine ⟨accepted_withChunkMax (by decide) (by decide) (by decide), halloc, hclass, ?_⟩
  intro hfits
  have hroom := ((hfits _ halloc).1 _ hclass (by decide)).1
  exact absurd hroom (by decide)

end SlabOptions

end BmcCache
