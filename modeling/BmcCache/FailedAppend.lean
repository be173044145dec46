import BmcCache.AppendPrepend

/-!
# `append` and `prepend` that run out of memory

`do_store_item` runs under the item lock of its key, which `store_item` takes.  When the item that is to hold both
values has been allocated and a chunk of it has not, `do_store_item` releases that item with `item_remove`, which takes
the item lock, and once more at its end with `do_item_remove`.

* `joinRun` — the branch of `do_store_item` for the two commands, with the item locks its caller holds and the
  releases of the new item; a lock that the thread already holds stops it;
* `joinRun_returned` — where it returns, it is `doStoreItem`;
* `ReleasedExactly` — what is expected of a failure;
* `failed_join_iff` — that happens if and only if the allocation that failed is that of the new item itself.
-/

namespace BmcCache

open ByteBuffer ItemStore

/-- The item lock of a hash value; there are `2^power` of them. -/
def itemLockIndex (power hv : ℕ) : ℕ := hv % 2 ^ power

/-- The new item as far as its release goes: its reference count, which has 16 bits, how often a reference has been
dropped, and how often its memory has been freed. -/
structure NewItem where
  refcount : ℕ
  drops : ℕ
  frees : ℕ
  deriving DecidableEq, Repr

/-- `do_item_remove(new_it)` -/
def NewItem.doItemRemove (new : NewItem) : NewItem :=
  let refcount := (new.refcount + 2 ^ 16 - 1) % 2 ^ 16
  ⟨refcount, new.drops + 1, if refcount = 0 then new.frees + 1 else new.frees⟩

/-- How a call ends: it returns, with the new item if that was not stored, or it waits for a lock that its own thread
holds. -/
inductive StoreRun where
  | returned (res : StoreItemType) (it : StrItem) (new : Option NewItem) (s : ItemStore)
  | blocked (lock : ℕ) (new : NewItem) (s : ItemStore)

namespace ItemStore

/-- `do_store_item` for `append` and `prepend`, called with the item locks `locks` held. -/
def joinRun (cfg : Settings) (m : Memory) (power : ℕ) (locks : List ℕ) (append : Bool) (it : StrItem)
    (s : ItemStore) :
    StoreRun :=
  match s.doItemGet cfg it.itemKey false false with
  | (none, s) => .returned .notStored it none s
  | (some old, s) =>
    if it.itemGetCas ≠ 0 ∧ it.itemGetCas ≠ old.itemGetCas
      then .returned .exists it none (s.doItemRemove cfg old).2
    else
      match doItemAlloc cfg m s.currentTime it.itemKey old.flagsConv old.exptime (it.nbytes + old.nbytes - 2) with
      | none => .returned .notStored it none (s.doItemRemove cfg old).2
      | some new =>
        match storeItemCopyData cfg m append old new it with
        | none =>
          -- `item_remove(new_it)` comes first, `do_item_remove(new_it)` is at the end of the function
          let lock := itemLockIndex power (cfg.hash new.itemKey)
          if lock ∈ locks then .blocked lock ⟨new.refcount, 0, 0⟩ s
          else
            .returned .notStored it (some (NewItem.mk new.refcount 0 0).doItemRemove.doItemRemove)
              (s.doItemRemove cfg old).2
        | some new =>
          let (new, s) := s.replaceOld cfg old new
          .returned .stored (s.doItemRemove cfg new).1 none (s.doItemRemove cfg new).2

/-- `store_item` for the two commands: it holds the lock of the key. -/
def storeItemJoin (cfg : Settings) (m : Memory) (power : ℕ) (append : Bool) (it : StrItem) (s : ItemStore) :
    StoreRun :=
  s.joinRun cfg m power [itemLockIndex power (cfg.hash it.itemKey)] append it

theorem joinRun_returned {cfg : Settings} {m : Memory} {power : ℕ} {locks : List ℕ} {append : Bool}
    {it it' : StrItem}
    {s s' : ItemStore} {res : StoreItemType} {new : Option NewItem}
    (h : s.joinRun cfg m power locks append it = .returned res it' new s') (setStale : Bool) :
    s.doStoreItem cfg m setStale (joinComm append) it = (res, it', s') := by
  have hcomm : ∀ old s₁, s.doItemGet cfg it.itemKey false false = (some old, s₁) →
      s.doStoreItem cfg m setStale (joinComm append) it
        = if it.itemGetCas ≠ 0 ∧ it.itemGetCas ≠ old.itemGetCas then (.exists, it, (s₁.doItemRemove cfg old).2)
          else
            match combined cfg m s₁.currentTime append it old with
            | none => (.notStored, it, (s₁.doItemRemove cfg old).2)
            | some new =>
              let (new, s₂) := s₁.replaceOld cfg old new
              (.stored, s₂.doItemRemove cfg new) := by
    intro old s₁ hget
    unfold doStoreItem
    rw [hget]
    cases append <;> rfl
  unfold joinRun at h
  cases hget : s.doItemGet cfg it.itemKey false false with
  | mk found s₁ =>
    rw [hget] at h
    cases found with
    | none =>
      cases h
      unfold doStoreItem
      rw [hget]
      cases append <;> rfl
    | some old =>
      rw [hcomm old s₁ hget]
      dsimp only at h
      by_cases hcas : it.itemGetCas ≠ 0 ∧ it.itemGetCas ≠ old.itemGetCas
      · rw [if_pos hcas] at h ⊢
        cases h
        rfl
      rw [if_neg hcas] at h ⊢
      unfold combined
      cases halloc : doItemAlloc cfg m s₁.currentTime it.itemKey old.flagsConv old.exptime
          (it.nbytes + old.nbytes - 2) with
      | none =>
        rw [halloc] at h
        cases h
        rfl
      | some fresh =>
        rw [halloc] at h
        dsimp only [Option.bind_some] at h ⊢
        cases hcopy : storeItemCopyData cfg m append old fresh it with
        | none =>
          rw [hcopy] at h
          dsimp only at h
          split at h
          · cases h
          · cases h
            rfl
        | some filled =>
          rw [hcopy] at h
          cases h
          rfl

/-- **What is expected of a failure**: `NOT_STORED`, the old item as it was, and the new item, if there was one,
released once and freed once. -/
def ReleasedExactly (cfg : Settings) (it old : StrItem) (s : ItemStore) (run : StoreRun) : Prop :=
  ∃ new s', run = .returned .notStored it new s' ∧ Effect cfg s s' it.itemKey (some old) s.casId ∧
    ∀ n ∈ new, n.refcount = 0 ∧ n.drops = 1 ∧ n.frees = 1

section Join

variable {cfg : Settings} {m : Memory} {append : Bool} {it old : StrItem} {s : ItemStore}

/-- The look at the old item and its release leave everything as it was. -/
theorem effect_getAndRemove (hs : s.Sound cfg) {key : Bytes} (hold : s.visible cfg key = some old) :
    ∃ s₁, s.doItemGet cfg key false false = (some (held old), s₁) ∧ s₁.currentTime = s.currentTime ∧
      Effect cfg s (s₁.doItemRemove cfg (held old)).2 key (some old) s.casId := by
  have hcases := doItemGet_cases hs key false false
  cases hget : s.doItemGet cfg key false false with
  | mk found s₁ =>
    rw [hget] at hcases
    cases hcases with
    | miss _ hnone heff =>
      rw [hold] at hnone
      cases hnone
    | hit old' found' _ hvisible hacc hplain heff =>
      obtain rfl := hplain rfl
      rw [hold, Option.some.injEq] at hvisible
      subst hvisible
      refine ⟨s₁, rfl, heff.currentTime_eq, ?_⟩
      have hkey := Sound.key_eq heff.find_self
      have hlinked := heff.sound.linked key _ heff.find_self
      have hpos := (hs.linked key old (find_of_visible hold)).refcount_pos
      have hrelease := effect_doItemRemove heff.sound (hkey.symm ▸ heff.find_self) hlinked
        (show 2 ≤ old.refcount + 1 by omega)
      rw [hkey, heff.casId_eq] at hrelease
      exact heff.trans hrelease

/-- **When a failed `append` or `prepend` releases exactly what it took.** -/
theorem failed_join_iff (cfg : Settings) (m : Memory) (power : ℕ) (append : Bool) {it old : StrItem} {s : ItemStore}
    (hs : s.Sound cfg) (hold : s.visible cfg it.itemKey = some old)
    (hcas : it.itemGetCas = 0 ∨ it.itemGetCas = old.itemGetCas)
    (hfailed : combined cfg m s.currentTime append it (held old) = none) :
    ReleasedExactly cfg it old s (s.storeItemJoin cfg m power append it) ↔
      doItemAlloc cfg m s.currentTime it.itemKey old.flagsConv old.exptime (it.nbytes + old.nbytes - 2) = none := by
  obtain ⟨s₁, hget, htime, heff⟩ := effect_getAndRemove hs hold
  have hgood : ¬ (it.itemGetCas ≠ 0 ∧ it.itemGetCas ≠ (held old).itemGetCas) := by
    rintro ⟨hzero, hne⟩
    exact hcas.elim hzero hne
  have hrun : ∀ alloc, doItemAlloc cfg m s.currentTime it.itemKey (held old).flagsConv (held old).exptime
        (it.nbytes + (held old).nbytes - 2) = alloc →
      s.storeItemJoin cfg m power append it
        = match alloc with
          | none => .returned .notStored it none (s₁.doItemRemove cfg (held old)).2
          | some new => .blocked (itemLockIndex power (cfg.hash new.itemKey)) ⟨new.refcount, 0, 0⟩ s₁ := by
    rintro alloc rfl
    unfold storeItemJoin joinRun
    rw [hget]
    dsimp only
    rw [if_neg hgood, htime]
    unfold combined at hfailed
    cases halloc : doItemAlloc cfg m s.currentTime it.itemKey (held old).flagsConv (held old).exptime
        (it.nbytes + (held old).nbytes - 2) with
    | none => rfl
    | some new =>
      rw [halloc, Option.bind_some] at hfailed
      have hkey : new.itemKey = it.itemKey := (doItemAlloc_eq_some halloc).1.key_eq
      dsimp only
      rw [hfailed]
      dsimp only
      rw [if_pos (by rw [hkey]; exact List.mem_singleton_self _)]
  constructor
  · rintro ⟨new, s', hreturned, -⟩
    cases halloc : doItemAlloc cfg m s.currentTime it.itemKey (held old).flagsConv (held old).exptime
        (it.nbytes + (held old).nbytes - 2) with
    | none => exact halloc
    | some fresh =>
      rw [hrun _ halloc] at hreturned
      cases hreturned
  · intro halloc
    exact ⟨none, _, hrun none halloc, heff, fun n hn => (nomatch hn)⟩

end Join

end ItemStore

/-- Memory in which nothing can be allocated, and memory in which no chunk can. -/
def noMemory : Memory := { zeroMemory with item := fun _ => none }

def noChunks : Memory := { zeroMemory with chunk := fun _ _ => false }

/-- `"y"` cannot be appended to `"x"`: there is no memory for the new item, and nothing has changed. -/
theorem failed_join_no_memory : ∃ (s : ItemStore) (old it : StrItem), s.Sound smallChunks ∧
    s.visible smallChunks it.itemKey = some old ∧ Holds smallChunks [97] 0 [121] it ∧
    ReleasedExactly smallChunks it old s (s.storeItemJoin smallChunks noMemory 13 true it) := by
  obtain ⟨s, old, hs, hvisible, -⟩ := exists_stored_inline
  obtain ⟨it, -, -, hit, -, hcas⟩ := receiveItem_holds zeroMemory_enough
    (show sizeofItemChunk + 2 ≤ smallChunks.slabChunkSizeMax by decide) 2 false 0 0
    (show [[121], crlf].flatten = if false then [121] else [121] ++ crlf from rfl)
    (show itemSize smallChunks [97].length 0 ([121].length + 2) ≤ smallChunks.itemSizeMax by decide)
  have hkey : it.itemKey = [97] := hit.key_eq
  rw [← hkey] at hvisible
  have halloc : ∀ flags exptime nbytes,
      doItemAlloc smallChunks noMemory s.currentTime it.itemKey flags exptime nbytes = none := by
    intro flags exptime nbytes
    unfold doItemAlloc
    dsimp only
    split
    · rfl
    · rfl
  have hfailed : combined smallChunks noMemory s.currentTime true it (held old) = none := by
    unfold combined
    rw [halloc, Option.bind_none]
  exact ⟨s, old, it, hs, hvisible, hit,
    (failed_join_iff smallChunks noMemory 13 true hs hvisible (Or.inl hcas) hfailed).mpr (halloc _ _ _)⟩

/-- 300 bytes are stored under `"a"`, and 300 more are to be appended: what `store_item` does, and what `do_store_item`
does for a caller that holds no lock. -/
def joinOfHalves (m : Memory) (locks : Option (List ℕ)) : Option (Bool × Option NewItem) :=
  (receiveItem smallChunks m 2 false [97] 0 0 302 0 [List.replicate 300 120 ++ crlf]).bind fun old =>
    (receiveItem smallChunks m 2 false [97] 0 0 302 0 [List.replicate 300 121 ++ crlf]).map fun it =>
      let (_, _, s) := (start 4 0 2).completeStore smallChunks m false .set old
      let run := match locks with
        | none => s.storeItemJoin smallChunks m 13 true it
        | some locks => s.joinRun smallChunks m 13 locks true it
      match run with
      | .returned _ _ new _ => (true, new)
      | .blocked _ _ _ => (false, none)

/-- **A chunk is missing**: `store_item` waits for the lock it holds. A caller without it would see the new item
released twice: its memory is free after the first release, and the second takes its reference count to 65535. -/
theorem failed_join_blocks :
    joinOfHalves noChunks none = some (false, none) ∧
      joinOfHalves noChunks (some []) = some (true, some ⟨65535, 2, 1⟩) := by
  decide +kernel

end BmcCache
