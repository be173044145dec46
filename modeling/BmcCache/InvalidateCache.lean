import BmcCache.Xdp
import Mathlib.Data.List.GetD

/-!
# `bmc_invalidate_cache`: the scan of a TCP segment for SET commands

The scanner walks over the bytes behind a 20-byte TCP header.  It looks for the letters `set`, steps over them and
one more byte, skips spaces, and takes everything up to the next space as a key whose entry it marks invalid.

The loop of the source works with an offset and two flags.  `scanKeys` says the same over the list of the scanned
bytes: it returns the keys the scanner takes out of them, and `invalidateLoop_kcache` shows that the loop
invalidates exactly their entries.

* `scanKeys_set` — a command `set <key> ` at the place where the scanner searches is found;
* `scanKeys_search_none` — without the letters `set` nothing is;
* `invalidateKeys_entry` — what invalidating a list of keys does to each entry;
* `invalidateCache_spec` — the whole program.
-/

namespace BmcCache

open List

structure SetScan where
  setFound : Bool
  keyFound : Bool
  hash : UInt32
  kcache : KCache
  stats : BmcStats

/-- The body of the lock section: `if (entry->valid) { entry->valid = 0; stats->invalidation_count++; }` -/
def invalidateEntry (st : SetScan) (entry : BmcCacheEntry) : SetScan :=
  if entry.valid then
    { st with
      kcache := st.kcache.set (cacheIdx st.hash) entry.invalidate
      stats := { st.stats with invalidationCount := u32 (st.stats.invalidationCount + 1) } }
  else st

/-- The scanning loop.  An iteration moves `off` by one, or by four behind the letters `set`, so `fuel` iterations
are enough as soon as `fuel` covers the bound on `off`. -/
def invalidateLoop (payload : Bytes) : ℕ → ℕ → SetScan → SetScan
  | 0, _, st => st
  | fuel + 1, off, st =>
    if off < bmcMaxPacketLength ∧ off + 1 ≤ payload.length then
      let b := payload.getD off 0
      if st.setFound = false ∧ b = 115 ∧ off + 3 ≤ payload.length ∧
          payload.getD (off + 1) 0 = 101 ∧ payload.getD (off + 2) 0 = 116 then
        -- move offset after the set keyword
        invalidateLoop payload fuel (off + 3 + 1)
          { st with
            setFound := true
            stats := { st.stats with setRecvCount := u32 (st.stats.setRecvCount + 1) } }
      else if st.keyFound = false ∧ st.setFound = true ∧ b ≠ space then
        if b = cr then -- end of packet
          invalidateLoop payload fuel (off + 1) { st with setFound := false, keyFound := false }
        else -- found the start of the key
          invalidateLoop payload fuel (off + 1)
            { st with hash := fnvStep fnvOffsetBasis32 b, keyFound := true }
      else if st.keyFound = true then
        if b = space then -- found the end of the key
          match st.kcache.lookup (cacheIdx st.hash) with
          | none => st
          | some entry =>
            invalidateLoop payload fuel (off + 1)
              { invalidateEntry st entry with setFound := false, keyFound := false }
        else
          invalidateLoop payload fuel (off + 1) { st with hash := fnvStep st.hash b }
      else invalidateLoop payload fuel (off + 1) st
    else st

/-- `bmc_invalidate_cache_main`; `hash` has no initial value in the source and is written before it is read. -/
def bmcInvalidateCacheMain (s : XdpState) : XdpState × XdpOutcome :=
  let payload := s.ctx.packet.drop (sizeofEthhdr + sizeofIphdr + sizeofTcphdr)
  if payload.length = 0 then (s, .ret .pass)
  else
    match s.stats.lookup 0 with
    | none => (s, .ret .pass)
    | some stats =>
      let st := invalidateLoop payload bmcMaxPacketLength 0 ⟨false, false, 0, s.kcache, stats⟩
      ({ s with kcache := st.kcache, stats := s.stats.set 0 st.stats }, .ret .pass)

/-! ### The keys a scan takes -/

/-- Where the scanner stands: searching, behind `set`, or inside a key of which it has read `w`. -/
inductive ScanMode where
  | search
  | keyStart
  | inKey (w : Bytes)
  deriving DecidableEq, Repr

/-- The keys the scanner takes from the remaining bytes; `skip` bytes are stepped over unread. -/
def scanKeys : ScanMode → ℕ → Bytes → List Bytes
  | _, _, [] => []
  | m, skip + 1, _ :: rest => scanKeys m skip rest
  | .search, 0, b :: rest =>
    if b = 115 ∧ rest.take 2 = [101, 116] then scanKeys .keyStart 3 rest else scanKeys .search 0 rest
  | .keyStart, 0, b :: rest =>
    if b = space then scanKeys .keyStart 0 rest
    else if b = cr then scanKeys .search 0 rest
    else scanKeys (.inKey [b]) 0 rest
  | .inKey w, 0, b :: rest =>
    if b = space then w :: scanKeys .search 0 rest else scanKeys (.inKey (w ++ [b])) 0 rest

/-- `"set"` -/
def setLetters : Bytes := [115, 101, 116]

def invalidateKeys (kc : KCache) (keys : List Bytes) : KCache :=
  keys.foldl (fun kc w => kc.set (cacheIdx (fnv1a w)) (kc.entryAt (fnv1a w)).invalidate) kc

theorem scanKeys_nil (m : ScanMode) (skip : ℕ) : scanKeys m skip [] = [] := by
  cases m <;> cases skip <;> rfl

theorem scanKeys_skip (m : ScanMode) : ∀ (skip : ℕ) (l : Bytes),
    scanKeys m skip l = scanKeys m 0 (l.drop skip) := by
  intro skip
  induction skip with
  | zero => intro l; rfl
  | succ n ih =>
    intro l
    cases l with
    | nil => simp only [scanKeys_nil, drop_nil]
    | cons b rest => rw [scanKeys, ih, drop_succ_cons]

/-- The letters `set`, one more byte and a key need more than two bytes. -/
theorem scanKeys_search_short (l : Bytes) (h : l.length ≤ 2) : scanKeys .search 0 l = [] := by
  match l, h with
  | [], _ => rfl
  | [a], _ => simp [scanKeys]
  | [a, b], _ => simp [scanKeys]

theorem scanKeys_search_none (l : Bytes) (h : ¬ setLetters <:+: l) : scanKeys .search 0 l = [] := by
  induction l with
  | nil => rfl
  | cons b rest ih =>
    have hno : ¬ (b = 115 ∧ rest.take 2 = [101, 116]) := by
      intro hcase
      obtain ⟨rfl, htake⟩ := hcase
      refine h (List.IsPrefix.isInfix ⟨rest.drop 2, ?_⟩)
      rw [← take_append_drop 2 rest, htake]
      rfl
    rw [scanKeys, if_neg hno]
    exact ih fun hin => h (infix_cons hin)

theorem scanKeys_inKey (k : Bytes) (hk : ∀ b ∈ k, b ≠ space) (rest : Bytes) : ∀ w : Bytes,
    scanKeys (.inKey w) 0 (k ++ space :: rest) = (w ++ k) :: scanKeys .search 0 rest := by
  induction k with
  | nil => intro w; simp [scanKeys]
  | cons b k ih =>
    intro w
    have hb : b ≠ space := hk b (by simp)
    rw [cons_append, scanKeys, if_neg hb, ih (fun c hc => hk c (by simp [hc])), append_assoc,
      singleton_append]

/-- **A SET command met while searching is found.** -/
theorem scanKeys_set (k : Bytes) (hne : k ≠ []) (hk : ∀ b ∈ k, b ≠ space ∧ b ≠ cr) (x : UInt8)
    (rest : Bytes) :
    scanKeys .search 0 (115 :: 101 :: 116 :: x :: (k ++ space :: rest)) = k :: scanKeys .search 0 rest := by
  obtain ⟨b, k', rfl⟩ := exists_cons_of_ne_nil hne
  have hb := hk b (by simp)
  rw [scanKeys, if_pos ⟨rfl, rfl⟩, scanKeys_skip]
  simp only [drop_succ_cons, drop_zero, cons_append]
  rw [scanKeys, if_neg hb.1, if_neg hb.2, scanKeys_inKey k' (fun c hc => (hk c (by simp [hc])).1)]
  rfl

/-! ### The loop invalidates exactly those keys -/

/-- The flags and the running hash stand for a mode of the scanner. -/
def SetScan.InMode (st : SetScan) : ScanMode → Prop
  | .search => st.setFound = false ∧ st.keyFound = false
  | .keyStart => st.setFound = true ∧ st.keyFound = false
  | .inKey w => st.setFound = true ∧ st.keyFound = true ∧ st.hash = fnv1a w

theorem invalidateKeys_cons (kc : KCache) (w : Bytes) (ws : List Bytes) :
    invalidateKeys kc (w :: ws) =
      invalidateKeys (kc.set (cacheIdx (fnv1a w)) (kc.entryAt (fnv1a w)).invalidate) ws := rfl

/-- Invalidating an entry that is not valid changes nothing, so the test of `entry->valid` can be left out. -/
theorem invalidateEntry_kcache (st : SetScan) :
    (invalidateEntry st (st.kcache.entryAt st.hash)).kcache
      = st.kcache.set (cacheIdx st.hash) (st.kcache.entryAt st.hash).invalidate := by
  unfold invalidateEntry
  split
  · rfl
  · rename_i hv
    have he : (st.kcache.entryAt st.hash).invalidate = st.kcache.entryAt st.hash := by
      rw [BmcCacheEntry.invalidate]
      cases h : st.kcache.entryAt st.hash
      simp_all
    rw [he, ArrayMap.set_eq_self _ (KCache.lookup_cacheIdx _ _)]

theorem fnv1a_snoc (w : Bytes) (b : UInt8) : fnv1a (w ++ [b]) = fnvStep (fnv1a w) b := by
  simp [fnv1a, foldl_append]

/-- The letters `et` behind an `s`, read through the offset or off the list of scanned bytes. -/
theorem take_two_drop (l : Bytes) (off : ℕ) (a b : UInt8) :
    (l.drop off).take 2 = [a, b] ↔ off + 2 ≤ l.length ∧ l.getD off 0 = a ∧ l.getD (off + 1) 0 = b := by
  constructor
  · intro h
    have hlen : off + 2 ≤ l.length := by
      have := congrArg length h
      simp only [length_take, length_drop, length_cons, length_nil] at this
      omega
    have h0 : ((l.drop off).take 2)[0]? = some a := by rw [h]; rfl
    have h1 : ((l.drop off).take 2)[1]? = some b := by rw [h]; rfl
    rw [getElem?_take_of_lt (by omega), getElem?_drop] at h0 h1
    refine ⟨hlen, ?_, ?_⟩
    · rw [getD_eq_getElem?_getD, show off = off + 0 from rfl, h0, Option.getD_some]
    · rw [getD_eq_getElem?_getD, h1, Option.getD_some]
  · intro hcase
    obtain ⟨hlen, h0, h1⟩ := hcase
    rw [drop_eq_getElem_cons (by omega), drop_eq_getElem_cons (by omega)]
    rw [getD_eq_getElem _ _ (by omega)] at h0 h1
    simp [h0, h1]

/-! ### Step lemmas -/

section

variable {payload : Bytes} (fuel : ℕ) {off : ℕ} {st : SetScan}

/-- Searching, at the letters `set`: step over them and one more byte. -/
theorem invalidateLoop_set (hg : off < bmcMaxPacketLength ∧ off + 1 ≤ payload.length)
    (hm : st.InMode .search) (hset : payload.getD off 0 = 115 ∧ off + 3 ≤ payload.length ∧
      payload.getD (off + 1) 0 = 101 ∧ payload.getD (off + 2) 0 = 116) :
    ∃ st', invalidateLoop payload (fuel + 1) off st = invalidateLoop payload fuel (off + 3 + 1) st' ∧
      st'.InMode .keyStart ∧ st'.kcache = st.kcache := by
  rw [invalidateLoop, if_pos hg]
  simp only [hm.1, true_and, if_pos hset]
  exact ⟨_, rfl, ⟨rfl, hm.2⟩, rfl⟩

theorem invalidateLoop_search (hg : off < bmcMaxPacketLength ∧ off + 1 ≤ payload.length)
    (hm : st.InMode .search) (hset : ¬ (payload.getD off 0 = 115 ∧ off + 3 ≤ payload.length ∧
      payload.getD (off + 1) 0 = 101 ∧ payload.getD (off + 2) 0 = 116)) :
    invalidateLoop payload (fuel + 1) off st = invalidateLoop payload fuel (off + 1) st := by
  rw [invalidateLoop, if_pos hg]
  simp only [hm.1, hm.2, true_and, if_neg hset, Bool.false_eq_true, false_and, and_false, if_false]

theorem invalidateLoop_skip (hg : off < bmcMaxPacketLength ∧ off + 1 ≤ payload.length)
    (hm : st.InMode .keyStart) (hb : payload.getD off 0 = space) :
    invalidateLoop payload (fuel + 1) off st = invalidateLoop payload fuel (off + 1) st := by
  rw [invalidateLoop, if_pos hg]
  simp only [hm.1, hm.2, hb, Bool.true_eq_false, false_and, if_false, ne_eq, not_true_eq_false, and_false,
    Bool.false_eq_true]

theorem invalidateLoop_cr (hg : off < bmcMaxPacketLength ∧ off + 1 ≤ payload.length)
    (hm : st.InMode .keyStart) (hb : payload.getD off 0 = cr) :
    ∃ st', invalidateLoop payload (fuel + 1) off st = invalidateLoop payload fuel (off + 1) st' ∧
      st'.InMode .search ∧ st'.kcache = st.kcache := by
  have hne : cr ≠ space := by decide
  rw [invalidateLoop, if_pos hg]
  simp only [hm.1, hm.2, hb, Bool.true_eq_false, false_and, if_false, true_and, if_pos hne, if_true]
  exact ⟨_, rfl, ⟨rfl, rfl⟩, rfl⟩

theorem invalidateLoop_start (hg : off < bmcMaxPacketLength ∧ off + 1 ≤ payload.length)
    (hm : st.InMode .keyStart) (hsp : payload.getD off 0 ≠ space) (hcr : payload.getD off 0 ≠ cr) :
    ∃ st', invalidateLoop payload (fuel + 1) off st = invalidateLoop payload fuel (off + 1) st' ∧
      st'.InMode (.inKey [payload.getD off 0]) ∧ st'.kcache = st.kcache := by
  rw [invalidateLoop, if_pos hg]
  simp only [hm.1, hm.2, Bool.true_eq_false, false_and, if_false, true_and, if_pos hsp, if_neg hcr]
  exact ⟨_, rfl, ⟨rfl, rfl, rfl⟩, rfl⟩

theorem invalidateLoop_end {w : Bytes} (hg : off < bmcMaxPacketLength ∧ off + 1 ≤ payload.length)
    (hm : st.InMode (.inKey w)) (hb : payload.getD off 0 = space) :
    ∃ st', invalidateLoop payload (fuel + 1) off st = invalidateLoop payload fuel (off + 1) st' ∧
      st'.InMode .search ∧
      st'.kcache = st.kcache.set (cacheIdx (fnv1a w)) (st.kcache.entryAt (fnv1a w)).invalidate := by
  obtain ⟨hs, hk, hh⟩ := hm
  rw [invalidateLoop, if_pos hg]
  simp only [hs, hk, hb, Bool.true_eq_false, false_and, if_false, if_true, KCache.lookup_cacheIdx]
  refine ⟨_, rfl, ⟨rfl, rfl⟩, ?_⟩
  rw [← hh]
  exact invalidateEntry_kcache st

theorem invalidateLoop_byte {w : Bytes} (hg : off < bmcMaxPacketLength ∧ off + 1 ≤ payload.length)
    (hm : st.InMode (.inKey w)) (hb : payload.getD off 0 ≠ space) :
    ∃ st', invalidateLoop payload (fuel + 1) off st = invalidateLoop payload fuel (off + 1) st' ∧
      st'.InMode (.inKey (w ++ [payload.getD off 0])) ∧ st'.kcache = st.kcache := by
  obtain ⟨hs, hk, hh⟩ := hm
  rw [invalidateLoop, if_pos hg]
  simp only [hs, hk, Bool.true_eq_false, false_and, if_false, if_true, if_neg hb]
  exact ⟨_, rfl, ⟨rfl, rfl, by rw [fnv1a_snoc, ← hh]⟩, rfl⟩

end

/-- The three letters, looked up through the offset or off the list of scanned bytes.  They agree unless the
letters straddle the bound. -/
theorem set_at_iff (payload : Bytes) (off : ℕ) (hin : off + 2 < bmcMaxPacketLength) :
    (payload.getD off 0 = 115 ∧ off + 3 ≤ payload.length ∧
      payload.getD (off + 1) 0 = 101 ∧ payload.getD (off + 2) 0 = 116) ↔
    (payload.getD off 0 = 115 ∧ ((payload.take bmcMaxPacketLength).drop (off + 1)).take 2 = [101, 116]) := by
  have hget : ∀ i, i < bmcMaxPacketLength →
      (payload.take bmcMaxPacketLength).getD i 0 = payload.getD i 0 := by
    intro i hi
    rw [getD_eq_getElem?_getD, getElem?_take_of_lt hi, ← getD_eq_getElem?_getD]
  rw [take_two_drop, hget (off + 1) (by omega), hget (off + 1 + 1) (by omega), length_take]
  constructor
  · intro hcase
    obtain ⟨h1, h2, h3, h4⟩ := hcase
    exact ⟨h1, by omega, h3, h4⟩
  · intro hcase
    obtain ⟨h1, h2, h3, h4⟩ := hcase
    exact ⟨h1, by omega, h3, h4⟩

/-- **The loop over the offset is the scan over the list.**  The bound on `off` cuts the scanned bytes; a `set`
whose letters straddle the bound is followed by nothing that is still looked at. -/
theorem invalidateLoop_kcache (payload : Bytes) : ∀ (fuel off : ℕ) (st : SetScan) (m : ScanMode),
    bmcMaxPacketLength ≤ off + fuel → st.InMode m →
    (invalidateLoop payload fuel off st).kcache =
      invalidateKeys st.kcache (scanKeys m 0 ((payload.take bmcMaxPacketLength).drop off)) := by
  intro fuel
  induction fuel with
  | zero =>
    intro off st m hfuel _
    rw [invalidateLoop, drop_eq_nil_of_le (by rw [length_take]; omega), scanKeys_nil]
    rfl
  | succ fuel ih =>
    intro off st m hfuel hm
    by_cases hg : off < bmcMaxPacketLength ∧ off + 1 ≤ payload.length
    · have hlen : (payload.take bmcMaxPacketLength).length = min bmcMaxPacketLength payload.length :=
        length_take
      have hcons : (payload.take bmcMaxPacketLength).drop off
          = payload.getD off 0 :: (payload.take bmcMaxPacketLength).drop (off + 1) := by
        rw [drop_eq_getElem_cons (by omega), getD_eq_getElem _ _ (by omega), getElem_take]
      rw [hcons]
      cases m with
      | search =>
        rw [scanKeys]
        by_cases hset : payload.getD off 0 = 115 ∧ off + 3 ≤ payload.length ∧
            payload.getD (off + 1) 0 = 101 ∧ payload.getD (off + 2) 0 = 116
        · obtain ⟨st', hstep, hm', hkc⟩ := invalidateLoop_set fuel hg hm hset
          rw [hstep, ih _ st' .keyStart (by omega) hm', hkc]
          rcases Nat.lt_or_ge (off + 2) bmcMaxPacketLength with hin | hout
          · rw [if_pos ((set_at_iff payload off hin).mp hset), scanKeys_skip .keyStart 3, drop_drop]
          · rw [drop_eq_nil_of_le (by omega), scanKeys_nil, if_neg, scanKeys_search_short]
            · rw [length_drop]; omega
            · intro hcase
              obtain ⟨-, h2⟩ := hcase
              have := ((take_two_drop _ _ _ _).mp h2).1
              omega
        · rw [invalidateLoop_search fuel hg hm hset, ih _ st .search (by omega) hm]
          rcases Nat.lt_or_ge (off + 2) bmcMaxPacketLength with hin | hout
          · rw [if_neg (fun h => hset ((set_at_iff payload off hin).mpr h))]
          · rw [if_neg]
            intro hcase
            obtain ⟨-, h2⟩ := hcase
            have := ((take_two_drop _ _ _ _).mp h2).1
            omega
      | keyStart =>
        rw [scanKeys]
        by_cases hsp : payload.getD off 0 = space
        · rw [invalidateLoop_skip fuel hg hm hsp, ih _ st .keyStart (by omega) hm, if_pos hsp]
        · by_cases hcr : payload.getD off 0 = cr
          · obtain ⟨st', hstep, hm', hkc⟩ := invalidateLoop_cr fuel hg hm hcr
            rw [hstep, ih _ st' .search (by omega) hm', hkc, if_neg hsp, if_pos hcr]
          · obtain ⟨st', hstep, hm', hkc⟩ := invalidateLoop_start fuel hg hm hsp hcr
            rw [hstep, ih _ st' _ (by omega) hm', hkc, if_neg hsp, if_neg hcr]
      | inKey w =>
        rw [scanKeys]
        by_cases hsp : payload.getD off 0 = space
        · obtain ⟨st', hstep, hm', hkc⟩ := invalidateLoop_end fuel hg hm hsp
          rw [hstep, ih _ st' .search (by omega) hm', hkc, if_pos hsp, invalidateKeys_cons]
        · obtain ⟨st', hstep, hm', hkc⟩ := invalidateLoop_byte fuel hg hm hsp
          rw [hstep, ih _ st' _ (by omega) hm', hkc, if_neg hsp]
    · rw [invalidateLoop, if_neg hg, drop_eq_nil_of_le (by rw [length_take]; omega), scanKeys_nil]
      rfl

/-! ### The whole program -/

def scannedBytes (pkt : Bytes) : Bytes :=
  (pkt.drop (sizeofEthhdr + sizeofIphdr + sizeofTcphdr)).take bmcMaxPacketLength

/-- **The program** passes the frame untouched and invalidates the entries of the keys it scans. -/
theorem invalidateCache_spec (s : XdpState) :
    ∃ stats, bmcInvalidateCacheMain s =
      ({ s with
          kcache := invalidateKeys s.kcache (scanKeys .search 0 (scannedBytes s.ctx.packet))
          stats := stats }, .ret .pass) := by
  simp only [bmcInvalidateCacheMain]
  split
  · rename_i h0
    refine ⟨s.stats, ?_⟩
    rw [scannedBytes, eq_nil_of_length_eq_zero h0, take_nil, scanKeys_nil]
    rfl
  · simp only [ArrayMap.lookup_of_lt s.stats Nat.one_pos]
    rw [invalidateLoop_kcache _ bmcMaxPacketLength 0 _ .search (by omega) ⟨rfl, rfl⟩, drop_zero]
    exact ⟨_, rfl⟩

/-- What invalidating a list of keys does to the entry at index `i`. -/
theorem invalidateKeys_entry (keys : List Bytes) : ∀ (kc : KCache) (i : Fin bmcCacheEntryCount),
    invalidateKeys kc keys i =
      if ∃ w ∈ keys, cacheIdx (fnv1a w) = i.val then (kc i).invalidate else kc i := by
  induction keys with
  | nil => intro kc i; simp [invalidateKeys]
  | cons w ws ih =>
    intro kc i
    rw [invalidateKeys_cons, ih]
    by_cases hi : cacheIdx (fnv1a w) = i.val
    · have hset : kc.set (cacheIdx (fnv1a w)) (kc.entryAt (fnv1a w)).invalidate i = (kc i).invalidate := by
        have hfin : (⟨cacheIdx (fnv1a w), cacheIdx_lt _⟩ : Fin bmcCacheEntryCount) = i := Fin.ext hi
        rw [ArrayMap.set, if_pos hi.symm, KCache.entryAt, hfin]
      rw [hset, if_pos (⟨w, mem_cons_self, hi⟩ : ∃ v ∈ w :: ws, cacheIdx (fnv1a v) = i.val)]
      split <;> rfl
    · have hset : kc.set (cacheIdx (fnv1a w)) (kc.entryAt (fnv1a w)).invalidate i = kc i := by
        rw [ArrayMap.set, if_neg (fun h => hi h.symm)]
      rw [hset]
      have hiff : (∃ v ∈ w :: ws, cacheIdx (fnv1a v) = i.val) ↔ ∃ v ∈ ws, cacheIdx (fnv1a v) = i.val := by
        simp [hi]
      simp only [hiff]

end BmcCache
