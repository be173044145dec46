import BmcCache.Delimited
import BmcCache.Xdp

/-!
# The TC side: `bmc_tx_filter` and `bmc_update_cache`

The egress filter recognises a GET reply by the first six bytes of its text and calls `bmc_update_cache`, which
hashes the key of the reply and, unless the entry already holds that key, copies the reply into it up to its second
`'\n'`.  Only a complete copy sets `valid` and `hash`; an incomplete one leaves both as they were, over data and
length that have changed.

* `updateHashLoop_eq`, `copyReplyLoop_eq` — the loops that hash and copy;
* `updateCache_spec` — the program as a function of the reply's text, `updateKCache`.
-/

namespace BmcCache

open ByteBuffer Delimited List

/-- A packet on its way out: `skb->len` and the linear bytes between `skb->data` and `skb->data_end`. -/
structure SkBuff where
  len : ℕ
  data : Bytes
  data_le : data.length ≤ len

structure TcState where
  skb : SkBuff
  stats : StatsMap
  kcache : KCache

inductive TcProg where
  | txFilter
  | updateCache
  deriving DecidableEq, Repr

/-- What the TC programs return.  Some paths return the constant `XDP_PASS`, whose value 2 is `TC_ACT_SHOT` here. -/
inductive TcAction where
  | ok
  | xdpPass
  deriving DecidableEq, Repr

abbrev TcOutcome : Type := TailChain.Outcome TcProg TcAction

def bmcTxFilterMain (s : TcState) : TcState × TcOutcome :=
  let data := s.skb.data
  let payload := data.drop sizeofHeaders
  -- if the size exceeds the size of a cache entry do not bother going further
  if bmcMaxCacheDataSize + sizeofHeaders < s.skb.len then (s, .ret .ok)
  else if data.length < sizeofEthhdr + sizeofIphdr then (s, .ret .xdpPass)
  else if data.getD 23 0 ≠ ipprotoUdp then (s, .ret .ok)
  else if data.length < sizeofEthhdr + sizeofIphdr + sizeofUdphdr then (s, .ret .ok)
  else if be16At data 34 = memcachedPort ∧ 5 + 1 ≤ payload.length ∧ payload.take 6 = valueWord then
    match s.stats.lookup 0 with
    | none => (s, .ret .xdpPass)
    | some stats =>
      ({ s with stats := s.stats.set 0 { stats with getRespCount := u32 (stats.getRespCount + 1) } },
        .tailCall .updateCache .ok)
  else (s, .ret .ok)

/-- `for (off = 6; off-6 < BMC_MAX_KEY_LENGTH && payload+off+1 <= data_end && payload[off] != ' '; off++)`, with
`i` for `off-6` and over the bytes from `payload[off]` on. -/
def updateHashLoop : ℕ → UInt32 → Bytes → UInt32
  | _, hash, [] => hash
  | i, hash, b :: rest =>
    if i < bmcMaxKeyLength ∧ b ≠ space then updateHashLoop (i + 1) (fnvStep hash b) rest else hash

/-- Loop until both bytes are spaces; the result is `diff`. -/
def diffLoop (len : ℕ) : ℕ → Bytes → Bytes → Bool
  | off, p :: ps, e :: es =>
    if off - 6 < bmcMaxKeyLength ∧ off < len ∧ (p ≠ space ∨ e ≠ space) then
      if e ≠ p then true else diffLoop len (off + 1) ps es
    else false
  | _, _, _ => false

/-- Store the reply from start to the `'\n'` that follows the data; the result is `count`, `entry->len` and
`entry->data`. -/
def copyReplyLoop : ℕ → ℕ → ℕ → Bytes → Bytes → ℕ × ℕ × Bytes
  | _, count, len, [], data => (count, len, data)
  | j, count, len, b :: rest, data =>
    if j < bmcMaxCacheDataSize ∧ count < 2 then
      copyReplyLoop (j + 1) (if b = lf then count + 1 else count) (len + 1) rest (data.set j b)
    else (count, len, data)

/-- As much of the reply as the copy loop takes: at most what the array holds, at most two lines. -/
def replyPart (payload : Bytes) : Bytes := takeThrough lf 2 (payload.take bmcMaxCacheDataSize)

variable (payload : Bytes)

theorem replyPart_length_le : (replyPart payload).length ≤ bmcMaxCacheDataSize := by
  have h := (takeThrough_isFront lf (payload.take bmcMaxCacheDataSize) 2).length_le
  rw [length_take] at h
  exact h.trans (Nat.min_le_left _ _)

/-- **The copy loop** counts the lines of what it takes and stores it over the front of the array. -/
theorem copyReplyLoop_eq (l : Bytes) : ∀ (j count : ℕ) (data : Bytes),
    data.length = bmcMaxCacheDataSize → count ≤ 2 → j ≤ bmcMaxCacheDataSize →
    copyReplyLoop j count j l data =
      (count + (takeThrough lf (2 - count) (l.take (bmcMaxCacheDataSize - j))).count lf,
        j + (takeThrough lf (2 - count) (l.take (bmcMaxCacheDataSize - j))).length,
        overwrite data j (takeThrough lf (2 - count) (l.take (bmcMaxCacheDataSize - j)))) := by
  induction l with
  | nil => intro j count data _ _ _; simp [copyReplyLoop, takeThrough_nil, overwrite_nil]
  | cons b rest ih =>
    intro j count data hdata hcount hj
    rw [copyReplyLoop]
    by_cases hg : j < bmcMaxCacheDataSize ∧ count < 2
    · have htake : bmcMaxCacheDataSize - j = (bmcMaxCacheDataSize - (j + 1)) + 1 := by omega
      have hcnt : 2 - count = (1 - count) + 1 := by omega
      have hset : ∀ src : Bytes, overwrite (data.set j b) (j + 1) src = overwrite data j (b :: src) := by
        intro src
        rw [set_eq_overwrite data j b (by omega)]
        exact overwrite_overwrite data j [b] src (by omega)
      rw [if_pos hg, ih (j + 1) _ (data.set j b) (by rw [length_set]; exact hdata)
        (by split <;> omega) (by omega), htake, take_succ_cons, hcnt, takeThrough]
      by_cases hb : b = lf
      · rw [if_pos hb, if_pos hb, show 2 - (count + 1) = 1 - count from by omega, hset, count_cons,
          if_pos (by simp [hb]), length_cons]
        simp only [Prod.mk.injEq, and_true]
        omega
      · rw [if_neg hb, if_neg hb, hcnt, hset, count_cons, if_neg (by simpa using hb), length_cons]
        simp only [Prod.mk.injEq, and_true]
        omega
    · rw [if_neg hg]
      rcases Nat.lt_or_ge count 2 with hc | hc
      · rw [show bmcMaxCacheDataSize - j = 0 from by omega, take_zero, takeThrough_nil, overwrite_nil]
        simp
      · rw [show 2 - count = 0 from by omega, takeThrough_zero, overwrite_nil]
        simp

theorem copyReplyLoop_start (data : Bytes) (h : data.length = bmcMaxCacheDataSize) :
    copyReplyLoop 0 0 0 payload data =
      ((replyPart payload).count lf, (replyPart payload).length, overwrite data 0 (replyPart payload)) := by
  rw [copyReplyLoop_eq payload 0 0 data h (by omega) (by omega)]
  simp only [Nat.sub_zero, Nat.zero_add, replyPart]

def refillEntry (entry : BmcCacheEntry) (payload : Bytes) : ℕ × BmcCacheEntry :=
  let r := copyReplyLoop 0 0 0 payload entry.data
  (r.1, { entry with
    len := r.2.1
    data := r.2.2
    len_le := by
      show (copyReplyLoop 0 0 0 payload entry.data).2.1 ≤ _
      rw [copyReplyLoop_start payload entry.data entry.data_length]
      exact replyPart_length_le payload
    data_length := by
      show (copyReplyLoop 0 0 0 payload entry.data).2.2.length = _
      rw [copyReplyLoop_start payload entry.data entry.data_length, overwrite_length, entry.data_length]
      rw [entry.data_length, Nat.zero_add]
      exact replyPart_length_le payload })

def bmcUpdateCacheMain (s : TcState) : TcState × TcOutcome :=
  let payload := s.skb.data.drop sizeofHeaders
  let hash := updateHashLoop 0 fnvOffsetBasis32 (payload.drop 6)
  match s.kcache.lookup (cacheIdx hash) with
  | none => (s, .ret .ok)
  | some entry =>
    -- cache is up-to-date; no need to update
    if entry.holdsHash hash && !diffLoop entry.len 6 (payload.drop 6) (entry.data.drop 6) then (s, .ret .ok)
    else
      let (count, entry) := refillEntry entry payload
      if count = 2 then -- copy OK
        let entry := { entry with valid := true, hash := hash.toInt32 }
        let s := { s with kcache := s.kcache.set (cacheIdx hash) entry }
        match s.stats.lookup 0 with
        | none => (s, .ret .xdpPass)
        | some stats =>
          ({ s with stats := s.stats.set 0 { stats with updateCount := u32 (stats.updateCount + 1) } }, .ret .ok)
      else ({ s with kcache := s.kcache.set (cacheIdx hash) entry }, .ret .ok)

/-! ### The program as a function of the reply -/

def replyKey (payload : Bytes) : Bytes :=
  ((payload.drop 6).take bmcMaxKeyLength).takeWhile (· != space)

theorem updateHashLoop_eq (l : Bytes) : ∀ (i : ℕ) (hash : UInt32), i ≤ bmcMaxKeyLength →
    updateHashLoop i hash l = ((l.take (bmcMaxKeyLength - i)).takeWhile (· != space)).foldl fnvStep hash := by
  induction l with
  | nil => intro i hash _; simp [updateHashLoop]
  | cons b rest ih =>
    intro i hash hi
    rw [updateHashLoop]
    by_cases hg : i < bmcMaxKeyLength ∧ b ≠ space
    · rw [if_pos hg, ih (i + 1) _ (by omega),
        show bmcMaxKeyLength - i = (bmcMaxKeyLength - (i + 1)) + 1 from by omega, take_succ_cons,
        takeWhile_cons, if_pos (by simpa using hg.2), foldl_cons]
    · rw [if_neg hg]
      rcases Nat.lt_or_ge i bmcMaxKeyLength with hlt | hge
      · have hb : b = space := by
          by_contra hb
          exact hg ⟨hlt, hb⟩
        rw [show bmcMaxKeyLength - i = (bmcMaxKeyLength - (i + 1)) + 1 from by omega, take_succ_cons,
          takeWhile_cons, if_neg (by simp [hb]), foldl_nil]
      · rw [show bmcMaxKeyLength - i = 0 from by omega, take_zero, takeWhile_nil, foldl_nil]

theorem updateHash_eq : updateHashLoop 0 fnvOffsetBasis32 (payload.drop 6) = fnv1a (replyKey payload) := by
  rw [updateHashLoop_eq _ 0 _ (by omega), Nat.sub_zero, replyKey, fnv1a]

def upToDate (entry : BmcCacheEntry) (payload : Bytes) : Bool :=
  entry.holdsHash (fnv1a (replyKey payload)) && !diffLoop entry.len 6 (payload.drop 6) (entry.data.drop 6)

/-- The entry with the taken part of the reply stored over its front. -/
def BmcCacheEntry.store (entry : BmcCacheEntry) (payload : Bytes) : BmcCacheEntry :=
  (refillEntry entry payload).2

variable (entry : BmcCacheEntry)

theorem BmcCacheEntry.store_len (payload : Bytes) : (entry.store payload).len = (replyPart payload).length := by
  show (copyReplyLoop 0 0 0 payload entry.data).2.1 = _
  rw [copyReplyLoop_start payload entry.data entry.data_length]

theorem BmcCacheEntry.store_data (payload : Bytes) :
    (entry.store payload).data = overwrite entry.data 0 (replyPart payload) := by
  show (copyReplyLoop 0 0 0 payload entry.data).2.2 = _
  rw [copyReplyLoop_start payload entry.data entry.data_length]

theorem BmcCacheEntry.store_valid (payload : Bytes) : (entry.store payload).valid = entry.valid := rfl

theorem BmcCacheEntry.store_stored (payload : Bytes) : (entry.store payload).stored = replyPart payload := by
  rw [BmcCacheEntry.stored, BmcCacheEntry.store_len, BmcCacheEntry.store_data, overwrite, take_zero,
    nil_append, take_left]

def BmcCacheEntry.publish (entry : BmcCacheEntry) (payload : Bytes) : BmcCacheEntry :=
  { entry.store payload with valid := true, hash := (fnv1a (replyKey payload)).toInt32 }

theorem BmcCacheEntry.publish_stored (payload : Bytes) :
    (entry.publish payload).stored = replyPart payload := entry.store_stored payload

theorem BmcCacheEntry.publish_data (payload : Bytes) :
    (entry.publish payload).data = overwrite entry.data 0 (replyPart payload) := entry.store_data payload

theorem BmcCacheEntry.publish_hash (payload : Bytes) :
    (entry.publish payload).hash.toUInt32 = fnv1a (replyKey payload) := by
  simp [BmcCacheEntry.publish]

def updateKCache (kc : KCache) (payload : Bytes) : KCache :=
  let hash := fnv1a (replyKey payload)
  let entry := kc.entryAt hash
  if upToDate entry payload then kc
  else if (replyPart payload).count lf = 2 then kc.set (cacheIdx hash) (entry.publish payload)
  else kc.set (cacheIdx hash) (entry.store payload)

/-- **The program** is `updateKCache` on the linear bytes behind the headers. -/
theorem updateCache_spec (s : TcState) : ∃ stats, bmcUpdateCacheMain s =
      ({ s with kcache := updateKCache s.kcache (s.skb.data.drop sizeofHeaders), stats := stats }, .ret .ok) := by
  set payload := s.skb.data.drop sizeofHeaders with hpay
  set entry := s.kcache.entryAt (fnv1a (replyKey payload)) with hentry
  have hcount : (refillEntry entry payload).1 = (replyPart payload).count lf := by
    show (copyReplyLoop 0 0 0 payload entry.data).1 = _
    rw [copyReplyLoop_start payload entry.data entry.data_length]
  simp only [bmcUpdateCacheMain, ← hpay, updateHash_eq, KCache.lookup_cacheIdx, updateKCache, upToDate, ← hentry]
  split
  · exact ⟨s.stats, rfl⟩
  · rw [hcount]
    split
    · simp only [ArrayMap.lookup_of_lt s.stats Nat.one_pos]
      exact ⟨_, rfl⟩
    · exact ⟨s.stats, rfl⟩

theorem KCache.entryAt_eq (kc : KCache) (hash : UInt32) (i : Fin bmcCacheEntryCount) (h : i.val = cacheIdx hash) :
    kc.entryAt hash = kc i := by
  obtain rfl : i = ⟨cacheIdx hash, cacheIdx_lt hash⟩ := Fin.ext h
  rfl

theorem updateKCache_entry (kc : KCache) (payload : Bytes) (i : Fin bmcCacheEntryCount) :
    updateKCache kc payload i =
      if i.val = cacheIdx (fnv1a (replyKey payload)) ∧ upToDate (kc i) payload = false then
        if (replyPart payload).count lf = 2 then (kc i).publish payload else (kc i).store payload
      else kc i := by
  by_cases hi : i.val = cacheIdx (fnv1a (replyKey payload))
  · have he := kc.entryAt_eq _ i hi
    cases hup : upToDate (kc i) payload with
    | true => simp [updateKCache, he, hup]
    | false =>
      rw [if_pos ⟨hi, rfl⟩]
      simp only [updateKCache, he, hup, Bool.false_eq_true, if_false]
      split <;> rw [ArrayMap.set, if_pos hi]
  · rw [if_neg (fun h => hi h.1)]
    simp only [updateKCache]
    split
    · rfl
    · split <;> rw [ArrayMap.set, if_neg hi]

end BmcCache
