import BmcCache.Memcached

/-!
# The four places that hash a key

`bmc_hash_keys` hashes the words of a request, `bmc_update_cache` the key a reply names, `bmc_invalidate_cache` the
key of a `set` command, and `fnv1a_hash32` of `bmc_user.c` any key it is given.  The loops start in different states
and stop for different reasons: the request's word at a space or `'\r'`, the reply's key at a space or behind 250
bytes, the scanned key at a space, its first byte being hashed by a statement of its own.

* `fnv1aHash32_eq`, `hashKeys_hash`, `updateHash_named`, `invalidateLoop_hash` — each of them computes `fnv1a`;
* `hashers_agree` — so all of them agree, and the comparison of an `int` with a `u32` tells exactly equal hashes.

The scanner looks at 1500 bytes.  A key that ends behind them is not hashed at all: `set_far_key_kept`.
-/

namespace BmcCache

open List

/-- `fnv1a_hash32` of `bmc_user.c`: `for (int i = 0; i < length; i++) { hash ^= key[i]; hash *= FNV_PRIME_32; }`. -/
def fnv1aHash32 (key : Bytes) (length : ℕ) (hash : UInt32) : UInt32 :=
  (range length).foldl (fun hash i => fnvStep hash (key.getD i 0)) hash

theorem fnv1aHash32_take (key : Bytes) (hash : UInt32) (n : ℕ) (hn : n ≤ key.length) :
    fnv1aHash32 key n hash = (key.take n).foldl fnvStep hash := by
  induction n with
  | zero => rfl
  | succ n ih =>
    have hstep : fnv1aHash32 key (n + 1) hash = fnvStep (fnv1aHash32 key n hash) (key.getD n 0) := by
      rw [fnv1aHash32, range_succ, foldl_append]
      rfl
    rw [hstep, ih (by omega), take_add_one, getElem?_eq_getElem (by omega), foldl_append,
      getD_eq_getElem _ _ (by omega)]
    rfl

theorem fnv1aHash32_eq (key : Bytes) : fnv1aHash32 key key.length fnvOffsetBasis32 = fnv1a key := by
  rw [fnv1aHash32_take key _ _ le_rfl, take_length, fnv1a]

/-! ### The request -/

theorem nextWord_key (key rest : Bytes) (b : UInt8) (hkey : IsKeyWord key) (hb : b = space ∨ b = cr) :
    nextWord (key ++ b :: rest) = key := by
  have hsep : keyByte b = false := by
    rcases hb with rfl | rfl
    · decide
    · decide
  rw [nextWord, takeWhile_append_of_pos hkey.all, takeWhile_cons, hsep]
  simp

/-- **A word of a request.**  Wherever in the request the cursor stands, the call that finds it on a key leaves the
key's hash in the record it fills. -/
theorem hashKeys_hash (s : XdpState) (pc : ParsingContext) (key rest : Bytes) (b : UInt8)
    (hp : s.pctx.lookup 0 = some pc) (hlt : pc.keyCount < bmcMaxKeyInPacket) (hkey : IsKeyWord key)
    (hb : b = space ∨ b = cr) (hpkt : s.ctx.packet = key ++ b :: rest) :
    ∃ r, (bmcHashKeysMain s).1.keys.lookup pc.keyCount = some r ∧ r.hash = fnv1a key := by
  have hword : nextWord s.ctx.packet = key := by rw [hpkt, nextWord_key key rest b hkey hb]
  have hplen : ¬ s.ctx.packet.length = 0 := by rw [hpkt]; simp
  have hscan : hashLoop 0 0 fnvOffsetBasis32 s.ctx.packet =
      ⟨key.length, decide (s.ctx.packet[key.length]? = some cr), key.length, fnv1a key⟩ := by
    rw [hashLoop_word _ 0 0 _ (by rw [hword, Nat.zero_add]; exact hkey.length_le), hword]
    simp [fnv1a]
  have hpos : 0 < key.length := length_pos_iff.mpr hkey.ne_nil
  have hok : ¬ (key.length = 0 ∨ bmcMaxKeyLength < key.length) := by
    have := hkey.length_le
    omega
  have hnext : ∀ t pc' scan, (hashKeysNext t pc' scan).1.keys = t.keys := by
    intro t pc' scan
    unfold hashKeysNext
    split
    · simp only
      split <;> rfl
    · simp only
      split <;> rfl
  simp only [bmcHashKeysMain, if_neg hplen, hp, ArrayMap.lookup_of_lt s.keys hlt, hscan, if_neg hok,
    KCache.lookup_cacheIdx]
  split
  · rw [hnext]
    exact ⟨_, ArrayMap.lookup_set_self _ _ hlt, rfl⟩
  · simp only [ArrayMap.lookup_of_lt s.stats Nat.one_pos, hnext]
    exact ⟨_, ArrayMap.lookup_set_self _ _ hlt, rfl⟩

/-! ### The reply -/

/-- **The key of a reply.** -/
theorem updateHash_named (key rest : Bytes) (hkey : IsKeyWord key) :
    updateHashLoop 0 fnvOffsetBasis32 ((valueWord ++ key ++ space :: rest).drop 6) = fnv1a key := by
  have hsp : space ∉ key := fun h => (keyByte_eq_true.mp (hkey.all _ h)).1 rfl
  rw [updateHash_eq, replyKey_named key rest hkey.length_le hsp]

/-! ### The `set` command -/

section

variable {payload : Bytes} {st : SetScan}

theorem getD_of_drop {off : ℕ} {b : UInt8} {l : Bytes} (h : payload.drop off = b :: l) :
    payload.getD off 0 = b ∧ off + 1 ≤ payload.length ∧ payload.drop (off + 1) = l := by
  have hlen := congrArg length h
  rw [length_drop, length_cons] at hlen
  refine ⟨?_, by omega, ?_⟩
  · rw [drop_eq_getElem_cons (by omega)] at h
    rw [getD_eq_getElem _ _ (by omega)]
    exact (cons.inj h).1
  · rw [← drop_drop, h]
    rfl

theorem invalidateLoop_spaces (extra : ℕ) : ∀ (fuel off : ℕ) (l : Bytes),
    off + extra < bmcMaxPacketLength → st.InMode .keyStart →
    payload.drop off = replicate extra space ++ l →
    invalidateLoop payload (fuel + extra) off st = invalidateLoop payload fuel (off + extra) st ∧
      payload.drop (off + extra) = l := by
  induction extra with
  | zero => intro fuel off l _ _ h; exact ⟨rfl, by simpa using h⟩
  | succ n ih =>
    intro fuel off l hoff hm h
    obtain ⟨hb, hlen, hdrop⟩ := getD_of_drop (h.trans (by rw [replicate_succ, cons_append]))
    obtain ⟨hrun, hl⟩ := ih fuel (off + 1) l (by omega) hm hdrop
    rw [← Nat.add_assoc, invalidateLoop_skip (fuel + n) ⟨by omega, hlen⟩ hm hb, hrun,
      show off + 1 + n = off + (n + 1) from by omega]
    refine ⟨rfl, ?_⟩
    rw [← hl, show off + 1 + n = off + (n + 1) from by omega]

theorem invalidateLoop_keyBytes (k : Bytes) : ∀ (fuel off : ℕ) (w l : Bytes) (st : SetScan),
    off + k.length < bmcMaxPacketLength → (∀ b ∈ k, b ≠ space) → st.InMode (.inKey w) →
    payload.drop off = k ++ l →
    ∃ st', invalidateLoop payload (fuel + k.length) off st = invalidateLoop payload fuel (off + k.length) st' ∧
      st'.InMode (.inKey (w ++ k)) := by
  induction k with
  | nil => intro fuel off w l st _ _ hm _; exact ⟨st, rfl, by simpa using hm⟩
  | cons b k ih =>
    intro fuel off w l st hoff hk hm h
    rw [length_cons] at hoff ⊢
    obtain ⟨hb, hlen, hdrop⟩ := getD_of_drop (h.trans (cons_append ..))
    obtain ⟨st₁, hstep, hm₁, -⟩ := invalidateLoop_byte (fuel + k.length) ⟨by omega, hlen⟩ hm
      (by rw [hb]; exact hk b (by simp))
    rw [hb] at hm₁
    obtain ⟨st', hrun, hm'⟩ := ih fuel (off + 1) (w ++ [b]) l st₁ (by omega) (fun c hc => hk c (by simp [hc]))
      hm₁ hdrop
    refine ⟨st', ?_, by simpa using hm'⟩
    rw [← Nat.add_assoc, hstep, hrun, show off + 1 + k.length = off + (k.length + 1) from by omega]

end

/-- **The key of a `set` command.**  With any number of extra spaces, and with the space behind the key inside the
scanned bytes, the loop arrives there with the key's hash and enough rounds left to look its entry up. -/
theorem invalidateLoop_hash (key rest : Bytes) (extra : ℕ) (st : SetScan) (hkey : IsKeyWord key)
    (hm : st.InMode .search) (hin : 4 + extra + key.length < bmcMaxPacketLength) :
    ∃ fuel st',
      invalidateLoop (setWord ++ replicate extra space ++ key ++ space :: rest) bmcMaxPacketLength 0 st =
        invalidateLoop (setWord ++ replicate extra space ++ key ++ space :: rest) fuel
          (4 + extra + key.length) st' ∧
      bmcMaxPacketLength ≤ 4 + extra + key.length + fuel ∧ st'.keyFound = true ∧ st'.hash = fnv1a key := by
  set payload := setWord ++ replicate extra space ++ key ++ space :: rest with hpay
  have hspace : ∀ b ∈ key, b ≠ space := fun b hb => (keyByte_eq_true.mp (hkey.all b hb)).1
  obtain ⟨b, k, rfl⟩ := exists_cons_of_ne_nil hkey.ne_nil
  have hbk := keyByte_eq_true.mp (hkey.all b (by simp))
  rw [length_cons] at hin ⊢
  -- the rounds: one for the letters, one for each space, one for each byte of the key
  obtain ⟨fuel, hfuel⟩ : ∃ fuel, bmcMaxPacketLength = fuel + k.length + 1 + extra + 1 :=
    ⟨bmcMaxPacketLength - (k.length + 1 + extra + 1), by omega⟩
  have hlong : 4 ≤ payload.length := by rw [hpay]; simp [setWord]
  have hfour : payload = 115 :: 101 :: 116 :: 32 :: (replicate extra space ++ (b :: k ++ space :: rest)) := by
    simp [hpay, setWord]
  have hletters : payload.getD 0 0 = 115 ∧ 0 + 3 ≤ payload.length ∧ payload.getD (0 + 1) 0 = 101 ∧
      payload.getD (0 + 2) 0 = 116 := by
    refine ⟨by rw [hfour]; rfl, by omega, by rw [hfour]; rfl, by rw [hfour]; rfl⟩
  obtain ⟨st₁, hset, hm₁, -⟩ := invalidateLoop_set (fuel + k.length + 1 + extra)
    ⟨by omega, by omega⟩ hm hletters
  have hdrop : payload.drop (0 + 3 + 1) = replicate extra space ++ (b :: k ++ space :: rest) := by
    rw [hfour]; rfl
  obtain ⟨hskip, hat⟩ := invalidateLoop_spaces extra (fuel + k.length + 1) (0 + 3 + 1) _ (by omega) hm₁ hdrop
  obtain ⟨hb, hlen, htail⟩ := getD_of_drop (hat.trans (cons_append ..))
  obtain ⟨st₂, hstart, hm₂, -⟩ := invalidateLoop_start (fuel + k.length) ⟨by omega, hlen⟩ hm₁
    (by rw [hb]; exact hbk.1) (by rw [hb]; exact hbk.2)
  rw [hb] at hm₂
  obtain ⟨st₃, hkeyrun, hm₃⟩ := invalidateLoop_keyBytes k fuel (0 + 3 + 1 + extra + 1) [b] _ st₂ (by omega)
    (fun c hc => hspace c (by simp [hc])) hm₂ htail
  refine ⟨fuel, st₃, ?_, by omega, hm₃.2.1, hm₃.2.2⟩
  rw [show invalidateLoop payload bmcMaxPacketLength 0 st
      = invalidateLoop payload (fuel + k.length + 1 + extra + 1) 0 st from by rw [hfuel],
    hset, hskip, hstart, hkeyrun, show 0 + 3 + 1 + extra + 1 + k.length = 4 + extra + (k.length + 1) from by omega]

/-! ### Agreement -/

/-- **The four hashers agree.**  For a key of 1 to 250 bytes, none of them a space or `'\r'`: the record
`bmc_hash_keys` fills at any place of a request, the hash of `bmc_update_cache` for a reply that names the key, and
the hash with which `bmc_invalidate_cache` reaches the space behind the key of a `set` command, as long as that space
lies in the scanned 1500 bytes, are the value of `fnv1a_hash32`.  An entry filled under this hash compares equal with
exactly this hash. -/
theorem hashers_agree (key : Bytes) (hkey : IsKeyWord key) :
    (∀ (s : XdpState) (pc : ParsingContext) (b : UInt8) (rest : Bytes), s.pctx.lookup 0 = some pc →
      pc.keyCount < bmcMaxKeyInPacket → (b = space ∨ b = cr) → s.ctx.packet = key ++ b :: rest →
      ∃ r, (bmcHashKeysMain s).1.keys.lookup pc.keyCount = some r ∧
        r.hash = fnv1aHash32 key key.length fnvOffsetBasis32) ∧
    (∀ rest, updateHashLoop 0 fnvOffsetBasis32 ((valueWord ++ key ++ space :: rest).drop 6) =
      fnv1aHash32 key key.length fnvOffsetBasis32) ∧
    (∀ (extra : ℕ) (rest : Bytes) (st : SetScan), st.setFound = false → st.keyFound = false →
      4 + extra + key.length < bmcMaxPacketLength →
      ∃ fuel st',
        invalidateLoop (setWord ++ replicate extra space ++ key ++ space :: rest) bmcMaxPacketLength 0 st =
          invalidateLoop (setWord ++ replicate extra space ++ key ++ space :: rest) fuel
            (4 + extra + key.length) st' ∧
        bmcMaxPacketLength ≤ 4 + extra + key.length + fuel ∧ st'.keyFound = true ∧
        st'.hash = fnv1aHash32 key key.length fnvOffsetBasis32) ∧
    (∀ (entry : BmcCacheEntry) (rest : Bytes) (hash : UInt32),
      (entry.publish (valueWord ++ key ++ space :: rest)).holdsHash hash = true ↔
        hash = fnv1aHash32 key key.length fnvOffsetBasis32) := by
  rw [fnv1aHash32_eq]
  refine ⟨?_, fun rest => updateHash_named key rest hkey, ?_, ?_⟩
  · intro s pc b rest hp hlt hb hpkt
    exact hashKeys_hash s pc key rest b hp hlt hkey hb hpkt
  · intro extra rest st hset hfound hin
    exact invalidateLoop_hash key rest extra st hkey ⟨hset, hfound⟩ hin
  · intro entry rest hash
    have hsp : space ∉ key := fun h => (keyByte_eq_true.mp (hkey.all _ h)).1 rfl
    rw [BmcCacheEntry.holdsHash_iff, BmcCacheEntry.publish_hash, replyKey_named key rest hkey.length_le hsp]
    exact ⟨fun h => h.2.symm, fun h => ⟨rfl, h.symm⟩⟩

/-- For `abc` the common value is the published one, `0x1a47e90b`. -/
theorem hashers_agree_abc :
    IsKeyWord [97, 98, 99] ∧ fnv1aHash32 [97, 98, 99] 3 fnvOffsetBasis32 = 440920331 ∧
      updateHashLoop 0 fnvOffsetBasis32 ((valueWord ++ [97, 98, 99] ++ space :: [48]).drop 6) = 440920331 := by
  have hall : ∀ b ∈ ([97, 98, 99] : Bytes), keyByte b = true := by
    intro b hb
    simp only [mem_cons, not_mem_nil, or_false] at hb
    rcases hb with rfl | rfl | rfl <;> decide
  have hkey : IsKeyWord [97, 98, 99] := ⟨by decide, by decide, hall⟩
  have hval : fnv1aHash32 [97, 98, 99] 3 fnvOffsetBasis32 = 440920331 := by decide +kernel
  exact ⟨hkey, hval, ((hashers_agree _ hkey).2.1 [48]).trans hval⟩

/-! ### Behind the scanned bytes -/

theorem scanKeys_replicate_space (n : ℕ) : scanKeys .keyStart 0 (replicate n space) = [] := by
  induction n with
  | zero => rfl
  | succ n ih => rw [replicate_succ, scanKeys, if_pos rfl, ih]

/-- **A key behind the scanned bytes is not hashed.**  With 1496 extra spaces the key of the command starts at byte
1500; the scan ends in front of it, and the entry of the key stays valid. -/
theorem set_far_key_kept :
    let kc := updateKCache KCache.zeroed (valueBlock [97] [48] [120] ++ endLine)
    let text := setWord ++ replicate 1496 space ++ ([97] ++ space :: [48, 32, 48, 32, 49] ++ crlf ++ [121] ++ crlf)
    let s := XdpState.received kc (tcpFrame text)
    (kc.entryAt (fnv1a [97])).holdsHash (fnv1a [97]) = true ∧
      ((bmcInvalidateCacheMain s).1.kcache.entryAt (fnv1a [97])).holdsHash (fnv1a [97]) = true := by
  intro kc text s
  have hheld : (kc.entryAt (fnv1a [97])).holdsHash (fnv1a [97]) = true := by decide +kernel
  have hscanned : scannedBytes s.ctx.packet = setWord ++ replicate 1496 space := by
    have htext : (tcpFrame text).drop (sizeofEthhdr + sizeofIphdr + sizeofTcphdr) = text :=
      (isSegment_tcpFrame text).text_eq
    have hlen : (setWord ++ replicate 1496 space).length = bmcMaxPacketLength := by
      rw [length_append, length_replicate]; rfl
    show ((tcpFrame text).drop _).take _ = _
    rw [htext, ← hlen]
    exact take_left
  have hnone : scanKeys .search 0 (setWord ++ replicate 1496 space) = [] := by
    rw [show setWord ++ replicate 1496 space = 115 :: 101 :: 116 :: 32 :: replicate 1496 space from rfl,
      scanKeys, if_pos ⟨rfl, rfl⟩, scanKeys_skip]
    exact scanKeys_replicate_space 1496
  obtain ⟨stats, hrun⟩ := invalidateCache_spec s
  refine ⟨hheld, ?_⟩
  rw [hrun, hscanned, hnone]
  exact hheld

end BmcCache
