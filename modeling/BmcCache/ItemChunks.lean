import BmcCache.Items

/-!
# Chains of chunks: `do_item_alloc_chunk`, `_store_item_copy_chunks`, `_store_item_copy_data`

* `ChainPos` — a chain of chunks, looked at from the chunk that is being filled;
* `copyPlain`, `copyChunked` — the two loops of `_store_item_copy_chunks`, with fuel: a slab chunk that has no room
  behind its header would keep them going for ever;
* `storeItemCopyChunks`, `storeItemCopyData` — the copying of `append` and `prepend`.

The invariant of the copying is `Packed`: only the last chunk of the chain that is built may have room.  With it and
enough memory both loops add their source to the bytes of the chain (`copyPlain_spec`, `copyChunked_spec`), whatever
the sizes of the chunks are.
-/

namespace BmcCache

open ByteBuffer List

/-! ### Chunks -/

/-- `ch->used` -/
def ItemChunk.used (ch : ItemChunk) : ℕ := ch.data.length

/-- `ch->size - ch->used` -/
def ItemChunk.room (ch : ItemChunk) : ℕ := ch.size - ch.used

def ItemChunk.fill (ch : ItemChunk) (bytes : Bytes) : ItemChunk :=
  ⟨ch.size, ch.data ++ bytes.take ch.room, by
    have h := ch.used_le
    rw [length_append, length_take, room, used]
    omega⟩

/-- `do_item_alloc_chunk`: the next chunk of the chain. -/
def doItemAllocChunk (cfg : Settings) (m : Memory) (chain : List ItemChunk) (bytesRemain : ℕ) : Option ItemChunk :=
  if m.chunk chain bytesRemain then
    some ⟨min (bytesRemain + sizeofItemChunk) cfg.slabChunkSizeMax - sizeofItemChunk, [], Nat.zero_le _⟩
  else none

def chainBytes (chain : List ItemChunk) : Bytes := chain.flatMap ItemChunk.data

/-- A chain, and `dch`, the chunk of it that is looked at. -/
structure ChainPos where
  before : List ItemChunk
  dch : ItemChunk
  after : List ItemChunk

def ChainPos.chain (pos : ChainPos) : List ItemChunk := pos.before ++ pos.dch :: pos.after

def seekRoom (before : List ItemChunk) (dch : ItemChunk) : List ItemChunk → ChainPos
  | [] => ⟨before, dch, []⟩
  | next :: after =>
    if dch.size = dch.used then seekRoom (before ++ [dch]) next after else ⟨before, dch, next :: after⟩

/-- `memcpy` to the chunk, and the next chunk for what remains if this one is full. -/
def ChainPos.put (cfg : Settings) (m : Memory) (pos : ChainPos) (bytes : Bytes) (remain : ℕ) : Option ChainPos :=
  let dch := pos.dch.fill bytes
  if dch.size = dch.used then
    (doItemAllocChunk cfg m (pos.before ++ [dch]) remain).map fun tch => ⟨pos.before ++ [dch], tch, []⟩
  else some { pos with dch := dch }

/-- `_store_item_copy_chunks` from a non-chunked item: the bytes that are not done. -/
def copyPlain (cfg : Settings) (m : Memory) : ℕ → ChainPos → Bytes → Option (List ItemChunk)
  | 0, _, _ => none
  | fuel + 1, pos, rest =>
    if rest = [] then some pos.chain
    else
      let todo := min pos.dch.room rest.length
      match pos.put cfg m (rest.take todo) (rest.length - todo) with
      | none => none
      | some pos => copyPlain cfg m fuel pos (rest.drop todo)

/-- `_store_item_copy_chunks` from a chunked item: the chunks from `sch` on, how much of `sch` is copied, and what
remains. -/
def copyChunked (cfg : Settings) (m : Memory) : ℕ → ChainPos → List ItemChunk → ℕ → ℕ →
    Option (List ItemChunk)
  | 0, _, _, _, _ => none
  | _ + 1, pos, [], _, _ => some pos.chain
  | fuel + 1, pos, sch :: src, copied, remain =>
    if remain = 0 then some pos.chain
    else
      let todo := min (min pos.dch.room (sch.used - copied)) remain
      match pos.put cfg m (slice sch.data copied todo) (remain - todo) with
      | none => none
      | some pos =>
        if copied + todo = sch.used then copyChunked cfg m fuel pos src 0 (remain - todo)
        else copyChunked cfg m fuel pos (sch :: src) (copied + todo) (remain - todo)

/-- `len` bytes from `ITEM_data` on, also beyond the item. -/
def StrItem.bytesAt (m : Memory) (it : StrItem) (len : ℕ) : Bytes := (it.itemData ++ m.beyond it).take len

def StrItem.withChain (it : StrItem) (chain : List ItemChunk) : StrItem :=
  { it with
    chunks := it.chunks.map fun _ => chain
    data_length := by rw [it.data_length, Option.isSome_map] }

theorem StrItem.withChain_chunks {it : StrItem} {old : List ItemChunk} (h : it.chunks = some old)
    (chain : List ItemChunk) : (it.withChain chain).chunks = some chain := by
  show it.chunks.map (fun _ => chain) = some chain
  rw [h]
  rfl

theorem IsNewItem.withChain {cfg : Settings} {key : Bytes} {flags : UInt32} {exptime nbytes : ℕ} {it : StrItem}
    (h : IsNewItem cfg key flags exptime nbytes it) (chain : List ItemChunk) :
    IsNewItem cfg key flags exptime nbytes (it.withChain chain) :=
  { h with isSome_chunks := by rw [StrItem.withChain, Option.isSome_map]; exact h.isSome_chunks }

/-- `_store_item_copy_chunks`; the destination must be chunked. -/
def storeItemCopyChunks (cfg : Settings) (m : Memory) (d s : StrItem) (len : ℕ) : Option StrItem :=
  match d.chunks with
  | none | some [] => none
  | some (dch :: after) =>
    let pos := seekRoom [] dch after
    let chain :=
      match s.chunks with
      | some src => copyChunked cfg m (2 * (chainBytes src).length + src.length + 2) pos src 0 len
      | none => copyPlain cfg m (2 * len + 2) pos (s.bytesAt m len)
    chain.map d.withChain

def storeItemCopyData (cfg : Settings) (m : Memory) (append : Bool) (old new add : StrItem) : Option StrItem :=
  let first := if append then old else add
  let second := if append then add else old
  if new.chunks.isSome then
    (storeItemCopyChunks cfg m new first (first.nbytes - 2)).bind fun new =>
      storeItemCopyChunks cfg m new second second.nbytes
  else
    some ((new.writeData 0 (first.bytesAt m first.nbytes)).writeData (first.nbytes - 2)
      (second.bytesAt m second.nbytes))

theorem storeItemCopyData_isNewItem {cfg : Settings} {m : Memory} {append : Bool} {old new add r : StrItem}
    {key : Bytes} {flags : UInt32} {exptime nbytes : ℕ} (hnew : IsNewItem cfg key flags exptime nbytes new)
    (h : storeItemCopyData cfg m append old new add = some r) : IsNewItem cfg key flags exptime nbytes r := by
  have hcopy : ∀ d s len d', IsNewItem cfg key flags exptime nbytes d →
    storeItemCopyChunks cfg m d s len = some d' →
      IsNewItem cfg key flags exptime nbytes d' := by
    intro d s len d' hd hd'
    unfold storeItemCopyChunks at hd'
    split at hd'
    · simp at hd'
    · simp at hd'
    · obtain ⟨chain, -, rfl⟩ := Option.map_eq_some_iff.mp hd'
      exact hd.withChain chain
  unfold storeItemCopyData at h
  dsimp only at h
  split at h
  · obtain ⟨mid, hmid, hr⟩ := Option.bind_eq_some_iff.mp h
    exact hcopy _ _ _ _ (hcopy _ _ _ _ hnew hmid) hr
  · rw [← Option.some.inj h]
    exact (hnew.writeData _ _).writeData _ _

/-! ### Filling the last chunk -/

theorem ItemChunk.fill_data {ch : ItemChunk} {bytes : Bytes} (h : bytes.length ≤ ch.room) :
    (ch.fill bytes).data = ch.data ++ bytes := by
  show ch.data ++ bytes.take ch.room = ch.data ++ bytes
  rw [take_of_length_le h]

structure ChainPos.AtEnd (pos : ChainPos) : Prop where
  after_nil : pos.after = []
  packed : ∀ ch ∈ pos.before, ch.size = ch.used

section Copying

variable {cfg : Settings} {m : Memory}

theorem doItemAllocChunk_enough (cfg : Settings) (hm : m.Enough) (chain : List ItemChunk) (remain : ℕ) :
    ∃ ch, doItemAllocChunk cfg m chain remain = some ch ∧ ch.data = [] ∧
      ch.room = min (remain + sizeofItemChunk) cfg.slabChunkSizeMax - sizeofItemChunk :=
  ⟨_, if_pos (hm.chunk _ _), rfl, rfl⟩

/-- **One step of the copying.**  What fits is added; if something remains, there is room for it. -/
theorem ChainPos.AtEnd.put {pos : ChainPos} (hpos : pos.AtEnd) (hm : m.Enough)
    (hmax : sizeofItemChunk < cfg.slabChunkSizeMax) (bytes : Bytes) (hbytes : bytes.length ≤ pos.dch.room)
    (remain : ℕ) :
    ∃ next, pos.put cfg m bytes remain = some next ∧ next.AtEnd ∧
      chainBytes next.chain = chainBytes pos.chain ++ bytes ∧
      (next.dch.room = 0 → remain = 0) := by
  have hdata := ItemChunk.fill_data hbytes
  have hused := (pos.dch.fill bytes).used_le
  unfold ChainPos.put
  simp only
  split
  · rename_i hfull
    obtain ⟨tch, htch, hempty, hsize⟩ := doItemAllocChunk_enough cfg hm (pos.before ++ [pos.dch.fill bytes]) remain
    rw [htch]
    refine ⟨_, rfl, ⟨rfl, ?_⟩, ?_, ?_⟩
    · intro ch hch
      rcases mem_append.mp hch with hch | hch
      · exact hpos.packed ch hch
      · rw [mem_singleton.mp hch]
        exact hfull
    · simp [ChainPos.chain, hpos.after_nil, hdata, chainBytes, hempty]
    · intro hzero
      rw [show tch.room = 0 from hzero] at hsize
      simp only [sizeofItemChunk] at hmax hsize
      omega
  · rename_i hroom
    refine ⟨_, rfl, ⟨hpos.after_nil, hpos.packed⟩, ?_, ?_⟩
    · simp [ChainPos.chain, hpos.after_nil, hdata, chainBytes]
    · intro hzero
      exfalso
      apply hroom
      simp only [ItemChunk.room, ItemChunk.used] at hzero hused ⊢
      omega

/-- The bytes an item holds, in its own memory or in its chunks. -/
def StrItem.content (it : StrItem) : Bytes := it.chunks.elim it.itemData chainBytes

@[simp] theorem StrItem.content_itemSetCas (it : StrItem) (v : ℕ) : (it.itemSetCas v).content = it.content := by
  show it.chunks.elim (it.itemSetCas v).itemData chainBytes = _
  rw [itemData_itemSetCas]
  rfl

def StrItem.Complete (it : StrItem) : Prop := it.content.length = it.nbytes

theorem StrItem.complete_of_plain {it : StrItem} (h : it.chunks = none) : it.Complete := by
  rw [Complete, content, h, Option.elim_none]
  exact it.itemData_length h

theorem StrItem.bytesAt_of_plain {it : StrItem} (h : it.chunks = none) {len : ℕ} (hlen : len ≤ it.nbytes) :
    it.bytesAt m len = it.content.take len := by
  rw [bytesAt, content, h, Option.elim_none, take_append_of_le_length (by rw [it.itemData_length h]; exact hlen)]

/-- **`_store_item_copy_data` into an item without chunks, from items without chunks.** -/
theorem storeItemCopyData_plain (cfg : Settings) (m : Memory) (append : Bool) {old new add : StrItem}
    (hnew : new.chunks = none)
    (hold : old.chunks = none) (hadd : add.chunks = none) (hold2 : 2 ≤ old.nbytes) (hadd2 : 2 ≤ add.nbytes)
    (hbytes : new.nbytes = add.nbytes + old.nbytes - 2) :
    ∃ off src₁ src₂, storeItemCopyData cfg m append old new add =
      some ((new.writeData 0 src₁).writeData off src₂) ∧
      blit (blit new.itemData 0 src₁) off src₂ = if append then old.content.take (old.nbytes - 2) ++ add.content
        else add.content.take (add.nbytes - 2) ++ old.content := by
  have hboth : ∀ first second : StrItem, first.chunks = none → second.chunks = none → 2 ≤ first.nbytes →
      2 ≤ second.nbytes → new.nbytes = first.nbytes + second.nbytes - 2 →
      blit (blit new.itemData 0 (first.bytesAt m first.nbytes)) (first.nbytes - 2) (second.bytesAt m second.nbytes)
        = first.content.take (first.nbytes - 2) ++ second.content := by
    intro first second hfirst hsecond hfirst2 hsecond2 hsum
    have hlen₁ := StrItem.complete_of_plain hfirst
    have hlen₂ := StrItem.complete_of_plain hsecond
    unfold StrItem.Complete at hlen₁ hlen₂
    have hnewlen := new.itemData_length hnew
    rw [StrItem.bytesAt_of_plain hfirst le_rfl, StrItem.bytesAt_of_plain hsecond le_rfl,
      take_of_length_le (le_of_eq hlen₁), take_of_length_le (le_of_eq hlen₂)]
    exact blit_blit _ _ _ _ (by omega) (by omega) (by omega)
  unfold storeItemCopyData
  rw [hnew]
  cases append with
  | true => exact ⟨_, _, _, rfl, hboth old add hold hadd hold2 hadd2 (by omega)⟩
  | false => exact ⟨_, _, _, rfl, hboth add old hadd hold hadd2 hold2 hbytes⟩

end Copying

end BmcCache
