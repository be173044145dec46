import BmcCache.HashKeys
import BmcCache.PreparePacket

/-!
# `bmc_write_reply`: one saved key of the reply per call

Each call takes one record of `map_keys`, compares it with the entry it addresses, and copies the entry's bytes to
the cursor, eight at a time and then one at a time.  Behind the last key the closing line is written, the cursor
goes back over everything written and the headers, and the lengths and checksum are filled in.

* `copyLoops_eq` — the two copy loops together store as much of the entry as fits into the packet;
* `serveBytes` — the bytes a call contributes to the reply;
* `writeReplyNext_more`, `writeReplyNext_last`, `writeReplyNext_noHit` — the ways a call ends without dropping the
  packet, `writeReplyNext_overflow` and `writeReplyNext_lastOverflow` the ones where an entry did not fit.
-/

namespace BmcCache

open ByteBuffer List

/-- `for (int i = 0; i < BMC_MAX_KEY_LENGTH && i < key->len; i++)` over `key->data[i]` and `entry->data[6+i]`;
`key->data` ends where the first bound does. -/
def keyCompareLoop (len : ℕ) : ℕ → Bytes → Bytes → Bool → Bool
  | i, k :: ks, e :: es, cacheHit =>
    if i < len then keyCompareLoop len (i + 1) ks es (if k ≠ e then false else cacheHit) else cacheHit
  | _, _, _, cacheHit => cacheHit

/-- The loop that copies eight bytes at a time; the result is `off`, `written` and the payload. -/
def copyWords (data : Bytes) (len : ℕ) : ℕ → ℕ → ℕ → Bytes → ℕ × ℕ × Bytes
  | 0, off, written, payload => (off, written, payload)
  | fuel + 1, off, written, payload =>
    if off + 8 < bmcMaxCacheDataSize ∧ off + 8 ≤ len ∧ off + 8 ≤ payload.length then
      copyWords data len fuel (off + 8) (written + 8) (overwrite payload off (slice data off 8))
    else (off, written, payload)

/-- The loop that copies the remaining bytes one at a time; the result is `written` and the payload. -/
def copyBytes (data : Bytes) (len : ℕ) : ℕ → ℕ → ℕ → Bytes → ℕ × Bytes
  | 0, _, written, payload => (written, payload)
  | fuel + 1, off, written, payload =>
    if off < bmcMaxCacheDataSize ∧ off < len ∧ off + 1 ≤ payload.length then
      copyBytes data len fuel (off + 1) (written + 1) (overwrite payload off (slice data off 1))
    else (written, payload)

def copyLoops (entry : BmcCacheEntry) (payload : Bytes) : ℕ × Bytes :=
  let (off, written, payload) := copyWords entry.data entry.len bmcMaxCacheDataSize 0 0 payload
  copyBytes entry.data entry.len (bmcMaxCacheDataSize + 1) off written payload

/-- `compute_ip_checksum`: the ten words of the header with the check field zeroed, added and folded once. -/
def computeIpChecksum (hdr : Bytes) : ℕ :=
  let hdr := overwrite hdr 10 [0, 0]
  let csum := ((range 10).map fun i => (hdr.getD (2 * i) 0).toNat + (hdr.getD (2 * i + 1) 0).toNat * 256).sum
  u16 (2 ^ 32 - 1 - (csum % 2 ^ 16 + csum / 2 ^ 16))

/-- `ip->tot_len`, `ip->check`, `udp->check` and `udp->len`, for a packet whose text ends `n` bytes behind the
headers. -/
def fillHeaders (pkt : Bytes) (n : ℕ) : Bytes :=
  let pkt := overwrite pkt 16 (be16Bytes (sizeofHeaders + n - sizeofEthhdr))
  let pkt := overwrite pkt 24 (le16Bytes (computeIpChecksum (slice pkt 14 20)))
  let pkt := overwrite pkt 40 (be16Bytes 0)
  overwrite pkt 38 (be16Bytes (sizeofHeaders + n - (sizeofEthhdr + sizeofIphdr)))

/-- The part of `bmc_write_reply_main` behind the last key of a reply that has something in it. -/
def finishReply (s : XdpState) (writePktOffset written : ℕ) : XdpState × XdpOutcome :=
  let payload := s.ctx.packet
  if written + 5 ≤ payload.length then
    let s := { s with ctx := { s.ctx with packet := overwrite payload written endLine } }
    let written := written + 5
    -- pop headers + previously written data
    match bpfXdpAdjustHead s.ctx (0 - ((sizeofHeaders + writePktOffset : ℕ) : ℤ)) with
    | none => (s, .ret .drop)
    | some ctx =>
      let s := { s with ctx := ctx }
      if ctx.packet.length < sizeofEthhdr + sizeofIphdr + sizeofUdphdr then (s, .ret .pass)
      else
        let ctx := { ctx with packet := fillHeaders ctx.packet (writePktOffset + written) }
        -- try to strip additional bytes
        let strip : ℤ := 0 - ((ctx.packet.length : ℤ) - (sizeofHeaders + writePktOffset + written : ℕ))
        ({ s with ctx := (bpfXdpAdjustTail ctx strip).getD ctx }, .ret .tx)
  else (s, .ret .drop)

/-- `bmc_write_reply_main` from the increment of `current_key` on. -/
def writeReplyNext (s : XdpState) (pctx : ParsingContext) (stats : BmcStats) (written : ℕ) :
    XdpState × XdpOutcome :=
  let pctx := { pctx with currentKey := u32 (pctx.currentKey + 1) }
  let s := { s with pctx := s.pctx.set 0 pctx }
  -- if all saved keys have been processed and a least one cache HIT
  if pctx.currentKey = pctx.keyCount ∧ (0 < pctx.writePktOffset ∨ 0 < written) then
    finishReply s pctx.writePktOffset written
  else if pctx.currentKey = pctx.keyCount then
    let stats := { stats with hitMisprediction := u32 (stats.hitMisprediction + pctx.keyCount) }
    let s := { s with stats := s.stats.set 0 stats }
    -- pop to the old headers and transmit to netstack
    ({ s with ctx := (bpfXdpAdjustHead s.ctx ((adjustHeadLen : ℤ) - sizeofHeaders)).getD s.ctx }, .ret .pass)
  else if pctx.currentKey < bmcMaxKeyInPacket then
    let pctx := { pctx with writePktOffset := u16 (pctx.writePktOffset + written) }
    let s := { s with pctx := s.pctx.set 0 pctx }
    match bpfXdpAdjustHead s.ctx written with
    | none => (s, .ret .drop)
    | some ctx => ({ s with ctx := ctx }, .tailCall .writeReply .drop)
  else (s, .ret .drop)

def bmcWriteReplyMain (s : XdpState) : XdpState × XdpOutcome :=
  let payload := s.ctx.packet
  if payload.length = 0 then (s, .ret .pass)
  else
    match s.pctx.lookup 0 with
    | none => (s, .ret .pass)
    | some pctx =>
      match s.keys.lookup pctx.currentKey with
      | none => (s, .ret .pass)
      | some key =>
        match s.kcache.lookup (cacheIdx key.hash) with
        | none => (s, .ret .drop)
        | some entry =>
          -- if saved key still matches its corresponding cache entry
          let holds := entry.holdsHash key.hash
          let cacheHit := if holds then keyCompareLoop key.len 0 key.data (entry.data.drop 6) true else true
          let (written, payload) := if holds && cacheHit then copyLoops entry payload else (0, payload)
          let s := { s with ctx := { s.ctx with packet := payload } }
          match s.stats.lookup 0 with
          | none => (s, .ret .pass)
          | some stats =>
            let stats :=
              if cacheHit then { stats with hitCount := u32 (stats.hitCount + 1) }
              else { stats with missCount := u32 (stats.missCount + 1) }
            writeReplyNext { s with stats := s.stats.set 0 stats } pctx stats written

/-! ### The loops -/

/-- The comparison loop accepts exactly when the saved key is where the entry's key starts. -/
theorem keyCompareLoop_eq (len : ℕ) : ∀ (ks es : Bytes) (i : ℕ) (hit : Bool),
    len - i ≤ ks.length → len - i ≤ es.length →
    keyCompareLoop len i ks es hit = (hit && decide (ks.take (len - i) = es.take (len - i))) := by
  intro ks
  induction ks with
  | nil =>
    intro es i hit hk _
    have h0 : len - i = 0 := by simpa using hk
    simp [keyCompareLoop, h0]
  | cons k ks ih =>
    intro es i hit hk he
    cases es with
    | nil =>
      have h0 : len - i = 0 := by simpa using he
      simp [keyCompareLoop, h0]
    | cons e es =>
      simp only [length_cons] at hk he
      rcases Nat.lt_or_ge i len with hi | hi
      · have hsucc : len - i = (len - (i + 1)) + 1 := by omega
        rw [keyCompareLoop, if_pos hi, ih es (i + 1) _ (by omega) (by omega), hsucc, take_succ_cons,
          take_succ_cons]
        by_cases hke : k = e
        · simp [hke]
        · simp [hke]
      · have h0 : len - i = 0 := by omega
        rw [keyCompareLoop, if_neg (by omega)]
        simp [h0]

/-- The eight-byte loop stores some whole front part of the entry. -/
theorem copyWords_eq (data p : Bytes) (len : ℕ) (hlen : len ≤ data.length) : ∀ (fuel off : ℕ),
    off ≤ len → off ≤ p.length →
    ∃ off', off' ≤ len ∧ off' ≤ p.length ∧
      copyWords data len fuel off off (overwrite p 0 (data.take off))
        = (off', off', overwrite p 0 (data.take off')) := by
  intro fuel
  induction fuel with
  | zero => intro off h1 h2; exact ⟨off, h1, h2, rfl⟩
  | succ fuel ih =>
    intro off h1 h2
    have hplen : (overwrite p 0 (data.take off)).length = p.length :=
      overwrite_length p 0 _ (by rw [length_take]; omega)
    simp only [copyWords, hplen]
    split
    · rename_i hc
      rw [overwrite_copy_step p data off 8 (by omega)]
      exact ih (off + 8) hc.2.1 hc.2.2
    · exact ⟨off, h1, h2, rfl⟩

/-- The one-byte loop goes on to the end of the entry or of the packet. -/
theorem copyBytes_eq (data p : Bytes) (len : ℕ) (hlen : len ≤ data.length)
    (hmax : len ≤ bmcMaxCacheDataSize) : ∀ (fuel off : ℕ),
    off ≤ min len p.length → min len p.length < off + fuel →
    copyBytes data len fuel off off (overwrite p 0 (data.take off))
      = (min len p.length, overwrite p 0 (data.take (min len p.length))) := by
  intro fuel
  induction fuel with
  | zero => intro off h1 h2; omega
  | succ fuel ih =>
    intro off h1 h2
    have hplen : (overwrite p 0 (data.take off)).length = p.length :=
      overwrite_length p 0 _ (by rw [length_take]; omega)
    simp only [copyBytes, hplen]
    split
    · rename_i hc
      rw [overwrite_copy_step p data off 1 (by omega)]
      exact ih (off + 1) (by omega) (by omega)
    · rename_i hc
      have hoff : off = min len p.length := by omega
      rw [← hoff]

/-- **The copy.**  As much of the entry as fits stands at the front of the payload. -/
theorem copyLoops_eq (e : BmcCacheEntry) (p : Bytes) :
    copyLoops e p = (min e.stored.length p.length, overwrite p 0 (e.stored.take p.length)) := by
  have hdl : e.len ≤ e.data.length := by rw [e.data_length]; exact e.len_le
  obtain ⟨off, h1, h2, hw⟩ := copyWords_eq e.data p e.len hdl bmcMaxCacheDataSize 0 (Nat.zero_le _) (Nat.zero_le _)
  rw [take_zero, overwrite_nil] at hw
  have hle := e.len_le
  rw [copyLoops, hw]
  simp only
  rw [copyBytes_eq e.data p e.len hdl hle _ off (by omega) (by omega), e.stored_length,
    BmcCacheEntry.stored, take_take, Nat.min_comm p.length]

/-! ### What a call contributes -/

/-- The entry was valid, hash-equal and key-prefix-equal when the program held its lock. -/
def serveHit (e : BmcCacheEntry) (key : Bytes) : Bool :=
  e.holdsHash (fnv1a key) && decide ((e.data.drop 6).take key.length = key)

/-- The bytes the call for `key` adds to the reply, when they fit. -/
def serveBytes (kc : KCache) (key : Bytes) : Bytes :=
  if serveHit (kc.entryAt (fnv1a key)) key then (kc.entryAt (fnv1a key)).stored else []

/-- `cache_hit` as the program leaves it: it stays set when the entry is not looked at. -/
def cacheHitFlag (kc : KCache) (key : Bytes) : Bool :=
  !(kc.entryAt (fnv1a key)).holdsHash (fnv1a key) || serveHit (kc.entryAt (fnv1a key)) key

/-- The statistics record behind the `cache_hit` test. -/
def countServe (stats : BmcStats) (cacheHit : Bool) : BmcStats :=
  if cacheHit then { stats with hitCount := u32 (stats.hitCount + 1) }
  else { stats with missCount := u32 (stats.missCount + 1) }

theorem serveBytes_length_le (kc : KCache) (key : Bytes) :
    (serveBytes kc key).length ≤ bmcMaxCacheDataSize := by
  unfold serveBytes
  split
  · rw [BmcCacheEntry.stored_length]; exact BmcCacheEntry.len_le _
  · exact Nat.zero_le _

theorem MemcachedKey.Holds.keyCompareLoop_eq {r : MemcachedKey} {key : Bytes} (h : r.Holds key)
    (hlen : key.length ≤ bmcMaxKeyLength) (e : BmcCacheEntry) :
    keyCompareLoop r.len 0 r.data (e.data.drop 6) true = decide ((e.data.drop 6).take key.length = key) := by
  rw [BmcCache.keyCompareLoop_eq, Nat.sub_zero, h.len, h.data, Bool.true_and]
  · exact decide_eq_decide.mpr eq_comm
  · rw [h.len, r.data_length]; omega
  · rw [h.len, length_drop, e.data_length]; simp at hlen ⊢; omega

variable (s : XdpState) (pc : ParsingContext)

/-- **One saved key.**  Up to the test of `current_key` a call stores what it serves, cut at the end of the packet. -/
theorem writeReply_key (r : MemcachedKey) (key : Bytes)
    (stats : BmcStats) (hp : s.pctx.lookup 0 = some pc) (hr : s.keys.lookup pc.currentKey = some r)
    (hkey : r.Holds key) (hlen : key.length ≤ bmcMaxKeyLength) (hst : s.stats.lookup 0 = some stats)
    (hne : s.ctx.packet ≠ []) :
    bmcWriteReplyMain s =
      writeReplyNext
        { s with
          ctx := ⟨s.ctx.head, overwrite s.ctx.packet 0 ((serveBytes s.kcache key).take s.ctx.packet.length)⟩
          stats := s.stats.set 0 (countServe stats (cacheHitFlag s.kcache key)) }
        pc (countServe stats (cacheHitFlag s.kcache key))
        (min (serveBytes s.kcache key).length s.ctx.packet.length) := by
  have hplen : ¬ s.ctx.packet.length = 0 := by simpa using hne
  simp only [bmcWriteReplyMain, if_neg hplen, hp, hr, hkey.hash, KCache.lookup_cacheIdx,
    hkey.keyCompareLoop_eq hlen, hst]
  cases hh : (s.kcache.entryAt (fnv1a key)).holdsHash (fnv1a key) with
  | false => simp [serveBytes, serveHit, cacheHitFlag, countServe, hh, overwrite_nil]
  | true =>
    by_cases hd : ((s.kcache.entryAt (fnv1a key)).data.drop 6).take key.length = key
    · simp [serveBytes, serveHit, cacheHitFlag, countServe, hh, hd, copyLoops_eq]
    · simp [serveBytes, serveHit, cacheHitFlag, countServe, hh, hd, overwrite_nil]

/-! ### The headers of the reply -/

/-- The header fields are filled in place, inside the first 42 bytes. -/
theorem fillHeaders_append (l r : Bytes) (n : ℕ) (h : 42 ≤ l.length) :
    (fillHeaders l n).length = l.length ∧ fillHeaders (l ++ r) n = fillHeaders l n ++ r := by
  have hstep : ∀ (k : Bytes) (pos : ℕ) (src : Bytes), k.length = l.length → src.length = 2 →
      pos ≤ 40 → (overwrite k pos src).length = l.length ∧
        overwrite (k ++ r) pos src = overwrite k pos src ++ r := by
    intro k pos src hk hs hpos
    exact ⟨(overwrite_length k pos src (by omega)).trans hk, overwrite_append_left k r pos src (by omega)⟩
  obtain ⟨h1, e1⟩ := hstep l 16 (be16Bytes (sizeofHeaders + n - sizeofEthhdr)) rfl rfl (by omega)
  set p1 := overwrite l 16 (be16Bytes (sizeofHeaders + n - sizeofEthhdr))
  obtain ⟨h2, e2⟩ := hstep p1 24 (le16Bytes (computeIpChecksum (slice p1 14 20))) h1 rfl (by omega)
  set p2 := overwrite p1 24 (le16Bytes (computeIpChecksum (slice p1 14 20)))
  obtain ⟨h3, e3⟩ := hstep p2 40 (be16Bytes 0) h2 rfl (by omega)
  set p3 := overwrite p2 40 (be16Bytes 0)
  obtain ⟨h4, e4⟩ := hstep p3 38 (be16Bytes (sizeofHeaders + n - (sizeofEthhdr + sizeofIphdr))) h3 rfl (by omega)
  refine ⟨h4, ?_⟩
  simp only [fillHeaders]
  rw [e1, slice_append_left p1 r 14 20 (by omega), e2, e3, e4]

theorem be16At_of_slice {l : Bytes} {pos v : ℕ} (h : slice l pos 2 = be16Bytes v) (hv : v < 65536) :
    be16At l pos = v := by
  have hb : ∀ i, i < 2 → l.getD (pos + i) 0 = (be16Bytes v).getD i 0 := by
    intro i hi
    rw [← h, getD_eq_getElem?_getD, getD_eq_getElem?_getD, getElem?_slice, if_pos hi]
  have h0 := hb 0 (by omega)
  have h1 := hb 1 (by omega)
  simp only [Nat.add_zero] at h0
  rw [be16At, h0, h1]
  simp only [be16Bytes, getD_cons_zero, getD_cons_succ, UInt8.toNat_ofNat']
  omega

/-- **The fields that are filled in**: `ip->tot_len`, `udp->len` and `udp->check`. -/
theorem slice_fillHeaders (l : Bytes) (n : ℕ) (h : 42 ≤ l.length) :
    slice (fillHeaders l n) 16 2 = be16Bytes (36 + n) ∧ slice (fillHeaders l n) 38 2 = be16Bytes (16 + n) ∧
      slice (fillHeaders l n) 40 2 = [0, 0] := by
  have htot : sizeofHeaders + n - sizeofEthhdr = 36 + n := by simp; omega
  have hudp : sizeofHeaders + n - (sizeofEthhdr + sizeofIphdr) = 16 + n := by simp; omega
  have hstep : ∀ (k : Bytes) (pos : ℕ) (src : Bytes), k.length = l.length → src.length = 2 →
    pos ≤ 40 →
      (overwrite k pos src).length = l.length ∧ slice (overwrite k pos src) pos 2 = src ∧
        ∀ p, p + 2 ≤ pos ∨ pos + 2 ≤ p → slice (overwrite k pos src) p 2 = slice k p 2 := by
    intro k pos src hk hs hpos
    refine ⟨(overwrite_length k pos src (by omega)).trans hk, ?_, fun p hp => ?_⟩
    · rw [← hs]
      exact slice_overwrite_self k pos src (by omega)
    · exact slice_overwrite_ne k pos src (by omega) (by omega)
  obtain ⟨h1, e1, -⟩ := hstep l 16 (be16Bytes (36 + n)) rfl rfl (by omega)
  obtain ⟨h2, -, f2⟩ := hstep _ 24
    (le16Bytes (computeIpChecksum (slice (overwrite l 16 (be16Bytes (36 + n))) 14 20)))
    h1 rfl (by omega)
  obtain ⟨h3, e3, f3⟩ := hstep _ 40 (be16Bytes 0) h2 rfl (by omega)
  obtain ⟨-, e4, f4⟩ := hstep _ 38 (be16Bytes (16 + n)) h3 rfl (by omega)
  simp only [fillHeaders, htot, hudp]
  refine ⟨?_, e4, ?_⟩
  · rw [f4 16 (by omega), f3 16 (by omega), f2 16 (by omega), e1]
  · rw [f4 40 (by omega), e3]
    rfl

/-! ### How a call ends -/

variable (stats : BmcStats)

/-- More saved keys follow and what was served leaves room: it is pushed and the program calls itself. -/
theorem writeReplyNext_more (E P : Bytes)
    (hpkt : s.ctx.packet = overwrite P 0 (E.take P.length)) (hmore : pc.currentKey + 1 < pc.keyCount)
    (hcount : pc.keyCount ≤ bmcMaxKeyInPacket) (hroom : E.length + 14 ≤ P.length)
    (hsmall : pc.writePktOffset + E.length < 65536) :
    ∃ pcm,
      writeReplyNext s pc stats (min E.length P.length) =
        ({ s with ctx := ⟨s.ctx.head ++ E, P.drop E.length⟩, pctx := pcm }, .tailCall .writeReply .drop) ∧
      pcm.lookup 0 = some
        { pc with currentKey := pc.currentKey + 1, writePktOffset := pc.writePktOffset + E.length } := by
  have hmin : min E.length P.length = E.length := by omega
  have hE : E.take P.length = E := take_of_length_le (by omega)
  have hcur : u32 (pc.currentKey + 1) = pc.currentKey + 1 := by
    apply u32_of_lt; simp at hcount; omega
  have hne : ¬ (pc.currentKey + 1 = pc.keyCount) := by omega
  have hlt : pc.currentKey + 1 < bmcMaxKeyInPacket := by omega
  have hpush : bpfXdpAdjustHead s.ctx E.length = some ⟨s.ctx.head ++ E, P.drop E.length⟩ := by
    rw [hE, overwrite, take_zero, nil_append, Nat.zero_add] at hpkt
    rw [adjustHead_push s.ctx E.length (by rw [hpkt, length_append, length_drop]; omega), hpkt,
      take_left, drop_left]
  simp only [writeReplyNext, hmin, hcur, hne, false_and, if_false, if_pos hlt, hpush, u16_of_lt hsmall]
  exact ⟨_, rfl, ArrayMap.lookup_set_self _ _ Nat.one_pos⟩

/-- More saved keys follow but what was served does not leave room for them: the packet is dropped. -/
theorem writeReplyNext_overflow (E P : Bytes)
    (hpkt : s.ctx.packet = overwrite P 0 (E.take P.length)) (hmore : pc.currentKey + 1 < pc.keyCount)
    (hcount : pc.keyCount ≤ bmcMaxKeyInPacket) (hroom : P.length < E.length + 14) :
    ∃ s', writeReplyNext s pc stats (min E.length P.length) = (s', .ret .drop) := by
  have hcur : u32 (pc.currentKey + 1) = pc.currentKey + 1 := by
    apply u32_of_lt; simp at hcount; omega
  have hne : ¬ (pc.currentKey + 1 = pc.keyCount) := by omega
  have hlt : pc.currentKey + 1 < bmcMaxKeyInPacket := by omega
  have hpush : bpfXdpAdjustHead s.ctx (min E.length P.length : ℕ) = none := by
    apply adjustHead_push_fail
    rw [hpkt, overwrite_length P 0 _ (by rw [length_take]; omega)]
    omega
  simp only [writeReplyNext, hcur, hne, false_and, if_false, if_pos hlt, hpush]
  exact ⟨_, rfl⟩

/-- No saved key was served: the cursor goes back to the untouched request, which is passed. -/
theorem writeReplyNext_noHit (T F : Bytes)
    (hpkt : s.ctx.packet = T ++ F) (hT : T.length = adjustHeadLen - sizeofHeaders) (hF : 14 ≤ F.length)
    (hlast : pc.currentKey + 1 = pc.keyCount) (hcount : pc.keyCount ≤ bmcMaxKeyInPacket)
    (hoff : pc.writePktOffset = 0) :
    ∃ pcm st, writeReplyNext s pc stats 0 =
      ({ s with ctx := ⟨s.ctx.head ++ T, F⟩, pctx := pcm, stats := st }, .ret .pass) := by
  have hcur : u32 (pc.currentKey + 1) = pc.keyCount := by
    rw [u32_of_lt (by simp at hcount; omega), hlast]
  have hpush : bpfXdpAdjustHead s.ctx ((adjustHeadLen : ℤ) - sizeofHeaders) = some ⟨s.ctx.head ++ T, F⟩ := by
    have hn : ((adjustHeadLen : ℤ) - sizeofHeaders) = (T.length : ℕ) := by rw [hT]; rfl
    rw [hn, adjustHead_push s.ctx T.length (by rw [hpkt, length_append]; omega), hpkt, take_left,
      drop_left]
  simp only [writeReplyNext, hcur, hoff, lt_irrefl, or_self, and_false, if_false, if_true, hpush,
    Option.getD_some]
  exact ⟨_, _, rfl⟩

/-- The last key was served, or an earlier one, and the closing line fits: the reply is transmitted.  It consists
of the filled-in headers, what earlier calls wrote, what this one serves and the closing line. -/
theorem writeReplyNext_last (H hdr W E P : Bytes)
    (hhead : s.ctx.head = H ++ (hdr ++ W)) (hhdr : hdr.length = sizeofHeaders)
    (hW : W.length = pc.writePktOffset) (hpkt : s.ctx.packet = overwrite P 0 (E.take P.length))
    (hlast : pc.currentKey + 1 = pc.keyCount) (hcount : pc.keyCount ≤ bmcMaxKeyInPacket)
    (hsome : W ++ E ≠ []) (hroom : E.length + 5 ≤ P.length) :
    ∃ pcm,
      writeReplyNext s pc stats (min E.length P.length) =
        ({ s with
            ctx := ⟨H, fillHeaders hdr (W ++ E ++ endLine).length ++ (W ++ E ++ endLine)⟩
            pctx := pcm }, .ret .tx) := by
  have hcur : u32 (pc.currentKey + 1) = pc.keyCount := by
    rw [u32_of_lt (by simp at hcount; omega), hlast]
  have hmin : min E.length P.length = E.length := by omega
  have hE : E.take P.length = E := take_of_length_le (by omega)
  have hsome' : 0 < pc.writePktOffset ∨ 0 < E.length := by
    rw [← hW]
    by_contra hno
    apply hsome
    rw [eq_nil_of_length_eq_zero (show W.length = 0 by omega),
      eq_nil_of_length_eq_zero (show E.length = 0 by omega)]
    rfl
  have hplen : s.ctx.packet.length = P.length := by
    rw [hpkt, overwrite_length P 0 _ (by rw [length_take]; omega)]
  have hend : endLine.length = 5 := rfl
  -- the closing line goes right behind the served bytes
  have hpkt' : overwrite s.ctx.packet E.length endLine = E ++ endLine ++ P.drop (E.length + 5) := by
    have h := overwrite_overwrite P 0 E endLine (Nat.zero_le _)
    rw [Nat.zero_add] at h
    rw [hpkt, hE, h, overwrite, take_zero, nil_append, Nat.zero_add, length_append, hend]
  set rest := P.drop (E.length + 5)
  set text := W ++ E ++ endLine with htext
  have hpop : bpfXdpAdjustHead ⟨s.ctx.head, E ++ endLine ++ rest⟩
      (0 - ((sizeofHeaders + pc.writePktOffset : ℕ) : ℤ)) = some ⟨H, hdr ++ (text ++ rest)⟩ := by
    rw [hhead, adjustHead_pop H (hdr ++ W) _ _ (by rw [length_append, hhdr, hW]; omega)
      (by rw [length_append, hhdr]; simp; omega)]
    simp only [htext, append_assoc]
  have hlong : ¬ ((hdr ++ (text ++ rest)).length < sizeofEthhdr + sizeofIphdr + sizeofUdphdr) := by
    rw [length_append, hhdr]; simp; omega
  have hn : pc.writePktOffset + (E.length + 5) = text.length := by
    simp only [htext, length_append, hend, hW]; omega
  obtain ⟨hflen, hfill⟩ := fillHeaders_append hdr (text ++ rest) text.length (by rw [hhdr]; decide)
  have hstrip := adjustTail_strip H (fillHeaders hdr text.length ++ text) rest
    (sizeofHeaders + pc.writePktOffset + (E.length + 5))
    (by rw [length_append, hflen, hhdr, ← hn]; omega) (by simp; omega)
  rw [append_assoc] at hstrip
  simp only [writeReplyNext, hcur, hmin, hsome', and_self, if_true, finishReply, hplen, if_pos hroom, hpkt', hpop,
    if_neg hlong, hn, hfill, hstrip]
  exact ⟨_, rfl⟩

/-- Behind the last key the closing line does not fit: the packet is dropped. -/
theorem writeReplyNext_lastOverflow (E P : Bytes)
    (hpkt : s.ctx.packet = overwrite P 0 (E.take P.length)) (hlast : pc.currentKey + 1 = pc.keyCount)
    (hcount : pc.keyCount ≤ bmcMaxKeyInPacket) (hsome : 0 < pc.writePktOffset ∨ E ≠ []) (hne : P ≠ [])
    (hroom : P.length < E.length + 5) :
    ∃ s', writeReplyNext s pc stats (min E.length P.length) = (s', .ret .drop) := by
  have hcur : u32 (pc.currentKey + 1) = pc.keyCount := by
    rw [u32_of_lt (by simp at hcount; omega), hlast]
  have hpos : 0 < P.length := length_pos_iff.mpr hne
  have hsome' : 0 < pc.writePktOffset ∨ 0 < min E.length P.length := by
    rcases hsome with h | h
    · exact Or.inl h
    · right
      have := length_pos_iff.mpr h
      omega
  have hplen : s.ctx.packet.length = P.length := by
    rw [hpkt, overwrite_length P 0 _ (by rw [length_take]; omega)]
  have hno : ¬ (min E.length P.length + 5 ≤ P.length) := by omega
  simp only [writeReplyNext, hcur, hsome', and_self, if_true, finishReply, hplen, if_neg hno]
  exact ⟨_, rfl⟩

end BmcCache
