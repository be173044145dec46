import BmcCache.HitAccounting

/-!
# The packet cursor of the GET chain

Where in the buffer a program of the chain works is kept in three places: `ctx->data`, and the two 16-bit offsets of
the parsing context.  The programs move them one after the other.

* `Checked` — the programs of the GET chain with every access to the packet, `key->data` and `entry->data` checked
  against the bounds of its array; `checkedExec_eq` says that no check ever fails;
* `writtenBy` — the entry bytes a program of the chain copies into the packet;
* `CursorPoint` — `ChainPoint` with the bytes copied so far; `CursorPoint.step` is one program;
* `packet_cursor` — what the three have to do with each other at every program a chain on a GET frame enters.
-/

namespace BmcCache

open ByteBuffer

/-! ### Checked accesses -/

namespace Checked

/-- The loop over the spaces behind the keyword, by index. -/
def skipSpaces (payload : Bytes) : ℕ → ℕ → Option ℕ
  | 0, _ => none
  | rounds + 1, off =>
    if off < bmcMaxPacketLength ∧ off + 1 ≤ payload.length then do
      let b ← payload[off]?
      if b = space then skipSpaces payload rounds (off + 1) else some off
    else some off

/-- The hashing loop, by index. -/
def hashLoop (payload : Bytes) : ℕ → ℕ → ℕ → UInt32 → Option KeyScan
  | 0, _, _, _ => none
  | rounds + 1, off, keyLen, hash =>
    if off < bmcMaxKeyLength + 1 ∧ off + 1 ≤ payload.length then do
      let b ← payload[off]?
      if b = cr then some ⟨off, true, keyLen, hash⟩
      else if b = space then some ⟨off, false, keyLen, hash⟩
      else hashLoop payload rounds (off + 1) (keyLen + 1) (fnvStep hash b)
    else some ⟨off, false, keyLen, hash⟩

/-- The loop that saves the key, by index. -/
def copyKeyLoop (keyLen : ℕ) (payload : Bytes) : ℕ → ℕ → Bytes → Option Bytes
  | 0, _, _ => none
  | rounds + 1, i, data =>
    if i < keyLen ∧ i + 1 ≤ payload.length then do
      let b ← payload[i]?
      let data ← storeBlock data i [b]
      copyKeyLoop keyLen payload rounds (i + 1) data
    else some data

/-- The loop that compares the saved key with the entry, by index. -/
def keyCompareLoop (len : ℕ) (key entry : Bytes) : ℕ → ℕ → Bool → Option Bool
  | 0, _, _ => none
  | rounds + 1, i, cacheHit =>
    if i < bmcMaxKeyLength ∧ i < len then do
      let k ← key[i]?
      let e ← entry[6 + i]?
      keyCompareLoop len key entry rounds (i + 1) (if k ≠ e then false else cacheHit)
    else some cacheHit

/-- The loop that copies eight bytes at a time. -/
def copyWords (data : Bytes) (len : ℕ) : ℕ → ℕ → ℕ → Bytes → Option (ℕ × ℕ × Bytes)
  | 0, _, _, _ => none
  | rounds + 1, off, written, payload =>
    if off + 8 < bmcMaxCacheDataSize ∧ off + 8 ≤ len ∧ off + 8 ≤ payload.length then do
      let word ← loadBlock data off 8
      let payload ← storeBlock payload off word
      copyWords data len rounds (off + 8) (written + 8) payload
    else some (off, written, payload)

/-- The loop that copies one byte at a time. -/
def copyBytes (data : Bytes) (len : ℕ) : ℕ → ℕ → ℕ → Bytes → Option (ℕ × Bytes)
  | 0, _, _, _ => none
  | rounds + 1, off, written, payload =>
    if off < bmcMaxCacheDataSize ∧ off < len ∧ off + 1 ≤ payload.length then do
      let byte ← loadBlock data off 1
      let payload ← storeBlock payload off byte
      copyBytes data len rounds (off + 1) (written + 1) payload
    else some (written, payload)

def copyLoops (entry : BmcCacheEntry) (payload : Bytes) : Option (ℕ × Bytes) := do
  let (off, written, payload) ← copyWords entry.data entry.len (bmcMaxCacheDataSize + 1) 0 0 payload
  copyBytes entry.data entry.len (bmcMaxCacheDataSize + 1) off written payload

/-- A 16-bit field in network byte order. -/
def be16At (pkt : Bytes) (pos : ℕ) : Option ℕ := do
  let hi ← pkt[pos]?
  let lo ← pkt[pos + 1]?
  some (hi.toNat * 256 + lo.toNat)

def rxDispatch (s : XdpState) (protocol : UInt8) (dport : ℕ) (payload : Bytes) :
    Option (XdpState × XdpOutcome) :=
  if dport = memcachedPort ∧ 4 ≤ payload.length then do
    let word ← loadBlock payload 0 4
    if protocol = ipprotoUdp ∧ word = getWord then
      match s.stats.lookup 0 with
      | none => some (s, .ret .pass)
      | some stats =>
        let s := { s with stats := s.stats.set 0 { stats with getRecvCount := u32 (stats.getRecvCount + 1) } }
        match s.pctx.lookup 0 with
        | none => some (s, .ret .pass)
        | some pctx => do
          let pctx := { pctx with keyCount := 0, currentKey := 0, writePktOffset := 0 }
          let off ← skipSpaces payload (bmcMaxPacketLength + 1) 4
          if off < bmcMaxPacketLength then
            let pctx := { pctx with readPktOffset := u16 off }
            let s := { s with pctx := s.pctx.set 0 pctx }
            match bpfXdpAdjustHead s.ctx (sizeofHeaders + off : ℕ) with
            | none => some (s, .ret .pass)
            | some ctx => some ({ s with ctx := ctx }, .tailCall .hashKeys .pass)
          else some ({ s with pctx := s.pctx.set 0 pctx }, .ret .pass)
    else if protocol = ipprotoTcp then some (s, .tailCall .invalidateCache .pass)
    else some (s, .ret .pass)
  else some (s, .ret .pass)

def bmcRxFilterMain (s : XdpState) : Option (XdpState × XdpOutcome) :=
  let pkt := s.ctx.packet
  if pkt.length < sizeofEthhdr + sizeofIphdr then some (s, .ret .pass)
  else do
    let protocol ← pkt[23]?
    if protocol = ipprotoUdp then
      if pkt.length < sizeofEthhdr + sizeofIphdr + sizeofUdphdr then some (s, .ret .pass)
      else do
        let dport ← be16At pkt 36
        rxDispatch s protocol dport (pkt.drop sizeofHeaders)
    else if protocol = ipprotoTcp then
      if pkt.length < sizeofEthhdr + sizeofIphdr + sizeofTcphdr then some (s, .ret .pass)
      else do
        let dport ← be16At pkt 36
        rxDispatch s protocol dport (pkt.drop (sizeofEthhdr + sizeofIphdr + sizeofTcphdr))
    else some (s, .ret .pass)

/-- Behind the scanning loop the packet is only read to save the key. -/
def bmcHashKeysMain (s : XdpState) : Option (XdpState × XdpOutcome) :=
  let payload := s.ctx.packet
  if payload.length = 0 then some (s, .ret .pass)
  else
    match s.pctx.lookup 0 with
    | none => some (s, .ret .pass)
    | some pctx =>
      match s.keys.lookup pctx.keyCount with
      | none => some (s, .ret .pass)
      | some key => do
        let scan ← hashLoop payload (bmcMaxKeyLength + 2) 0 0 fnvOffsetBasis32
        let key := { key with hash := scan.hash }
        let s := { s with keys := s.keys.set pctx.keyCount key }
        if scan.keyLen = 0 ∨ bmcMaxKeyLength < scan.keyLen then
          some ({ s with ctx := popToStart s.ctx pctx.readPktOffset }, .ret .pass)
        else
          match s.kcache.lookup (cacheIdx key.hash) with
          | none => some (s, .ret .pass)
          | some entry =>
            if entry.holdsHash key.hash then do
              let data ← copyKeyLoop scan.keyLen payload (bmcMaxKeyLength + 1) 0 key.data
              if hdata : data.length = bmcMaxKeyLength then
                let key : MemcachedKey := ⟨key.hash, data, scan.keyLen, hdata⟩
                let pctx' := { pctx with keyCount := u32 (pctx.keyCount + 1) }
                some (hashKeysNext
                  { s with keys := s.keys.set pctx.keyCount key, pctx := s.pctx.set 0 pctx' } pctx' scan)
              else none
            else
              match s.stats.lookup 0 with
              | none => some (s, .ret .pass)
              | some stats =>
                some (hashKeysNext
                  { s with stats := s.stats.set 0 { stats with missCount := u32 (stats.missCount + 1) } } pctx scan)

def bmcPreparePacketMain (s : XdpState) : Option (XdpState × XdpOutcome) :=
  match bpfXdpAdjustHead s.ctx (-(adjustHeadLen : ℤ)) with
  | none => some (s, .ret .pass)
  | some ctx =>
    let s := { s with ctx := ctx }
    let pkt := ctx.packet
    if pkt.length ≤ sizeofHeaders ∨ pkt.length ≤ adjustHeadLen + sizeofHeaders + 1 then some (s, .ret .pass)
    else do
      let hdr ← loadBlock pkt adjustHeadLen sizeofHeaders
      let pkt ← storeBlock pkt 0 hdr
      let pkt ← exchangeBlocks pkt 6 0 6
      let pkt ← exchangeBlocks pkt 26 30 4
      let pkt ← exchangeBlocks pkt 34 36 2
      let s := { s with ctx := { ctx with packet := pkt } }
      match bpfXdpAdjustHead s.ctx (sizeofHeaders : ℕ) with
      | none => some (s, .ret .pass)
      | some ctx => some ({ s with ctx := ctx }, .tailCall .writeReply .pass)

def fillHeaders (pkt : Bytes) (n : ℕ) : Option Bytes := do
  let pkt ← storeBlock pkt 16 (be16Bytes (sizeofHeaders + n - sizeofEthhdr))
  let hdr ← loadBlock pkt 14 20
  let pkt ← storeBlock pkt 24 (le16Bytes (computeIpChecksum hdr))
  let pkt ← storeBlock pkt 40 (be16Bytes 0)
  storeBlock pkt 38 (be16Bytes (sizeofHeaders + n - (sizeofEthhdr + sizeofIphdr)))

def finishReply (s : XdpState) (writePktOffset written : ℕ) : Option (XdpState × XdpOutcome) :=
  let payload := s.ctx.packet
  if written + 5 ≤ payload.length then do
    let packet ← storeBlock payload written endLine
    let s := { s with ctx := { s.ctx with packet := packet } }
    let written := written + 5
    match bpfXdpAdjustHead s.ctx (0 - ((sizeofHeaders + writePktOffset : ℕ) : ℤ)) with
    | none => some (s, .ret .drop)
    | some ctx =>
      let s := { s with ctx := ctx }
      if ctx.packet.length < sizeofEthhdr + sizeofIphdr + sizeofUdphdr then some (s, .ret .pass)
      else do
        let packet ← fillHeaders ctx.packet (writePktOffset + written)
        let ctx := { ctx with packet := packet }
        let strip : ℤ := 0 - ((ctx.packet.length : ℤ) - (sizeofHeaders + writePktOffset + written : ℕ))
        some ({ s with ctx := (bpfXdpAdjustTail ctx strip).getD ctx }, .ret .tx)
  else some (s, .ret .drop)

/-- Only the branch that finishes the reply touches the packet. -/
def writeReplyNext (s : XdpState) (pctx : ParsingContext) (stats : BmcStats) (written : ℕ) :
    Option (XdpState × XdpOutcome) :=
  let pctx' := { pctx with currentKey := u32 (pctx.currentKey + 1) }
  if pctx'.currentKey = pctx'.keyCount ∧ (0 < pctx'.writePktOffset ∨ 0 < written) then
    finishReply { s with pctx := s.pctx.set 0 pctx' } pctx'.writePktOffset written
  else some (BmcCache.writeReplyNext s pctx stats written)

def bmcWriteReplyMain (s : XdpState) : Option (XdpState × XdpOutcome) :=
  let payload := s.ctx.packet
  if payload.length = 0 then some (s, .ret .pass)
  else
    match s.pctx.lookup 0 with
    | none => some (s, .ret .pass)
    | some pctx =>
      match s.keys.lookup pctx.currentKey with
      | none => some (s, .ret .pass)
      | some key =>
        match s.kcache.lookup (cacheIdx key.hash) with
        | none => some (s, .ret .drop)
        | some entry => do
          let holds := entry.holdsHash key.hash
          let cacheHit ←
            (if holds then keyCompareLoop key.len key.data entry.data (bmcMaxKeyLength + 1) 0 true else some true)
          let copied ← (if holds && cacheHit then copyLoops entry payload else some (0, payload))
          let s := { s with ctx := { s.ctx with packet := copied.2 } }
          match s.stats.lookup 0 with
          | none => some (s, .ret .pass)
          | some stats =>
            let stats :=
              if cacheHit then { stats with hitCount := u32 (stats.hitCount + 1) }
              else { stats with missCount := u32 (stats.missCount + 1) }
            writeReplyNext { s with stats := s.stats.set 0 stats } pctx stats copied.1

/-! ### No check fails -/

theorem skipSpaces_eq (payload : Bytes) : ∀ rounds off, bmcMaxPacketLength - off < rounds →
    skipSpaces payload rounds off = some (BmcCache.skipSpaces off (payload.drop off)) := by
  intro rounds
  induction rounds with
  | zero => intro off h; omega
  | succ rounds ih =>
    intro off h
    rw [skipSpaces]
    rcases Nat.lt_or_ge off payload.length with hlt | hge
    · rw [List.drop_eq_getElem_cons hlt, BmcCache.skipSpaces, List.getElem?_eq_getElem hlt]
      by_cases hmax : off < bmcMaxPacketLength
      · have hnext := ih (off + 1) (by omega)
        by_cases hsp : payload[off] = space
        · simp only [hmax, hsp, true_and, if_pos (show off + 1 ≤ payload.length from hlt), Option.bind_eq_bind,
            Option.bind_some, if_true, hnext]
        · simp only [hmax, hsp, true_and, if_pos (show off + 1 ≤ payload.length from hlt), Option.bind_eq_bind,
            Option.bind_some, if_false]
      · rw [if_neg fun hh => hmax hh.1, if_neg fun hh => hmax hh.1]
    · rw [List.drop_eq_nil_of_le hge, if_neg fun hh => by omega]
      rfl

theorem hashLoop_eq (payload : Bytes) : ∀ rounds off keyLen hash, bmcMaxKeyLength + 1 - off < rounds →
    hashLoop payload rounds off keyLen hash = some (BmcCache.hashLoop off keyLen hash (payload.drop off)) := by
  intro rounds
  induction rounds with
  | zero => intro off keyLen hash h; omega
  | succ rounds ih =>
    intro off keyLen hash h
    rw [hashLoop]
    rcases Nat.lt_or_ge off payload.length with hlt | hge
    · rw [List.drop_eq_getElem_cons hlt, BmcCache.hashLoop, List.getElem?_eq_getElem hlt]
      by_cases hmax : off < bmcMaxKeyLength + 1
      · have hnext := ih (off + 1) (keyLen + 1) (fnvStep hash payload[off]) (by omega)
        rw [if_pos ⟨hmax, hlt⟩, if_pos hmax, Option.bind_eq_bind, Option.bind_some, hnext]
        split
        · rfl
        · split
          · rfl
          · rfl
      · rw [if_neg fun hh => hmax hh.1, if_neg hmax]
    · rw [List.drop_eq_nil_of_le hge, if_neg fun hh => by omega]
      rfl

theorem copyKeyLoop_eq (keyLen : ℕ) (payload : Bytes) : ∀ rounds i data, keyLen ≤ data.length →
    keyLen - i < rounds →
    copyKeyLoop keyLen payload rounds i data = some (BmcCache.copyKeyLoop keyLen i (payload.drop i) data) := by
  intro rounds
  induction rounds with
  | zero => intro i data _ h; omega
  | succ rounds ih =>
    intro i data hdata h
    rw [copyKeyLoop]
    rcases Nat.lt_or_ge i payload.length with hlt | hge
    · rw [List.drop_eq_getElem_cons hlt, BmcCache.copyKeyLoop, List.getElem?_eq_getElem hlt]
      by_cases hi : i < keyLen
      · rw [if_pos ⟨hi, hlt⟩, if_pos hi, Option.bind_eq_bind, Option.bind_some,
          storeBlock_eq data i _ (by simp only [List.length_singleton]; omega), Option.bind_eq_bind, Option.bind_some,
          ← set_eq_overwrite data i _ (by omega)]
        exact ih (i + 1) _ (by rwa [List.length_set]) (by omega)
      · rw [if_neg fun hh => hi hh.1, if_neg hi]
    · rw [List.drop_eq_nil_of_le hge, if_neg fun hh => by omega]
      rfl

theorem keyCompareLoop_eq (len : ℕ) (key entry : Bytes) (hkey : key.length = bmcMaxKeyLength)
    (hentry : entry.length = bmcMaxCacheDataSize) : ∀ rounds i hit, bmcMaxKeyLength - i < rounds →
    keyCompareLoop len key entry rounds i hit =
      some (BmcCache.keyCompareLoop len i (key.drop i) (entry.drop (6 + i)) hit) := by
  intro rounds
  induction rounds with
  | zero => intro i hit h; omega
  | succ rounds ih =>
    intro i hit h
    rw [keyCompareLoop]
    rcases Nat.lt_or_ge i bmcMaxKeyLength with hlt | hge
    · have hkey' : i < key.length := by omega
      have hentry' : 6 + i < entry.length := by simp at hlt hentry; omega
      rw [List.drop_eq_getElem_cons hkey', List.drop_eq_getElem_cons hentry', BmcCache.keyCompareLoop,
        List.getElem?_eq_getElem hkey', List.getElem?_eq_getElem hentry']
      by_cases hi : i < len
      · rw [if_pos ⟨hlt, hi⟩, if_pos hi, Option.bind_eq_bind, Option.bind_some, Option.bind_some]
        exact ih (i + 1) _ (by omega)
      · rw [if_neg fun hh => hi hh.2, if_neg hi]
    · rw [List.drop_eq_nil_of_le (hkey.trans_le hge), if_neg fun hh => by omega]
      rfl

theorem copyWords_eq (data : Bytes) (len : ℕ) (hdata : data.length = bmcMaxCacheDataSize) :
    ∀ rounds off written payload, bmcMaxCacheDataSize - off < rounds → ∀ fuel,
    bmcMaxCacheDataSize - off ≤ fuel →
    copyWords data len rounds off written payload = some (BmcCache.copyWords data len fuel off written payload) := by
  intro rounds
  induction rounds with
  | zero => intro off written payload h; omega
  | succ rounds ih =>
    intro off written payload h fuel hfuel
    rw [copyWords]
    cases fuel with
    | zero =>
      rw [if_neg fun hh => by omega]
      rfl
    | succ fuel =>
      rw [BmcCache.copyWords]
      split
      · rename_i hc
        have hslice : (slice data off 8).length = 8 := slice_length data off 8 (by omega)
        rw [loadBlock_eq data off 8 (by omega), Option.bind_eq_bind, Option.bind_some,
          storeBlock_eq payload off _ (by omega), Option.bind_some]
        exact ih (off + 8) (written + 8) _ (by omega) fuel (by omega)
      · rfl

theorem copyBytes_eq (data : Bytes) (len : ℕ) (hdata : data.length = bmcMaxCacheDataSize) :
    ∀ rounds off written payload, bmcMaxCacheDataSize - off < rounds →
    copyBytes data len rounds off written payload = some (BmcCache.copyBytes data len rounds off written payload) := by
  intro rounds
  induction rounds with
  | zero => intro off written payload h; omega
  | succ rounds ih =>
    intro off written payload h
    rw [copyBytes, BmcCache.copyBytes]
    split
    · rename_i hc
      have hslice : (slice data off 1).length = 1 := slice_length data off 1 (by omega)
      rw [loadBlock_eq data off 1 (by omega), Option.bind_eq_bind, Option.bind_some,
        storeBlock_eq payload off _ (by omega), Option.bind_some]
      exact ih (off + 1) (written + 1) _ (by omega)
    · rfl

theorem copyLoops_eq (entry : BmcCacheEntry) (payload : Bytes) :
    copyLoops entry payload = some (BmcCache.copyLoops entry payload) := by
  have hwords := copyWords_eq entry.data entry.len entry.data_length (bmcMaxCacheDataSize + 1) 0 0 payload (by omega)
    bmcMaxCacheDataSize (by omega)
  rw [copyLoops, BmcCache.copyLoops, hwords]
  exact copyBytes_eq _ _ entry.data_length _ _ _ _ (by omega)

theorem be16At_eq (pkt : Bytes) (pos : ℕ) (h : pos + 2 ≤ pkt.length) :
    be16At pkt pos = some (BmcCache.be16At pkt pos) := by
  rw [be16At, BmcCache.be16At, List.getElem?_eq_getElem (by omega), List.getElem?_eq_getElem (by omega),
    List.getD_eq_getElem _ _ (by omega), List.getD_eq_getElem _ _ (by omega)]
  rfl

theorem rxDispatch_eq (s : XdpState) (protocol : UInt8) (dport : ℕ) (payload : Bytes) :
    rxDispatch s protocol dport payload = some (BmcCache.rxDispatch s protocol dport payload) := by
  have hslice : slice payload 0 4 = payload.take 4 := by rw [slice, List.drop_zero]
  unfold rxDispatch BmcCache.rxDispatch
  split
  · rename_i hport
    rw [loadBlock_eq payload 0 4 (by omega), hslice, Option.bind_eq_bind, Option.bind_some,
      skipSpaces_eq payload (bmcMaxPacketLength + 1) 4 (by simp)]
    simp only [ArrayMap.lookup_of_lt _ Nat.one_pos, Option.bind_eq_bind, Option.bind_some]
    split
    · split
      · cases bpfXdpAdjustHead s.ctx _ with
        | none => rfl
        | some ctx => rfl
      · rfl
    · split
      · rfl
      · rfl
  · rfl

theorem bmcRxFilterMain_eq (s : XdpState) : bmcRxFilterMain s = some (BmcCache.bmcRxFilterMain s) := by
  unfold bmcRxFilterMain BmcCache.bmcRxFilterMain
  dsimp only
  split
  · rfl
  · rename_i hip
    rw [List.getElem?_eq_getElem (show 23 < s.ctx.packet.length by simp at hip; omega),
      List.getD_eq_getElem _ _ (show 23 < s.ctx.packet.length by simp at hip; omega), Option.bind_eq_bind,
      Option.bind_some]
    split
    · split
      · rfl
      · rename_i hudp
        rw [be16At_eq s.ctx.packet 36 (by simp at hudp; omega), Option.bind_eq_bind, Option.bind_some, rxDispatch_eq]
    · split
      · split
        · rfl
        · rename_i htcp
          rw [be16At_eq s.ctx.packet 36 (by simp at htcp; omega), Option.bind_eq_bind, Option.bind_some, rxDispatch_eq]
      · rfl

theorem bmcHashKeysMain_eq (s : XdpState) : bmcHashKeysMain s = some (BmcCache.bmcHashKeysMain s) := by
  have hscan := hashLoop_eq s.ctx.packet (bmcMaxKeyLength + 2) 0 0 fnvOffsetBasis32 (by simp)
  rw [List.drop_zero] at hscan
  unfold bmcHashKeysMain BmcCache.bmcHashKeysMain
  simp only [ArrayMap.lookup_of_lt _ Nat.one_pos, hscan, KCache.lookup_cacheIdx, Option.bind_eq_bind, Option.bind_some]
  split
  · rfl
  · cases s.keys.lookup (s.pctx ⟨0, Nat.one_pos⟩).keyCount with
    | none => rfl
    | some key =>
      dsimp only
      split
      · rfl
      · rename_i hlen
        have hcopy := copyKeyLoop_eq (BmcCache.hashLoop 0 0 fnvOffsetBasis32 s.ctx.packet).keyLen s.ctx.packet
          (bmcMaxKeyLength + 1) 0 key.data (by rw [key.data_length]; omega) (by omega)
        rw [List.drop_zero] at hcopy
        split
        · rw [hcopy, Option.bind_some, dif_pos ((copyKeyLoop_length _ _ _ _).trans key.data_length)]
        · rfl

theorem bmcPreparePacketMain_eq (s : XdpState) :
    bmcPreparePacketMain s = some (BmcCache.bmcPreparePacketMain s) := by
  unfold bmcPreparePacketMain BmcCache.bmcPreparePacketMain
  cases bpfXdpAdjustHead s.ctx (-(adjustHeadLen : ℤ)) with
  | none => rfl
  | some ctx =>
    dsimp only
    split
    · rfl
    · rename_i hlong
      have hlen : 178 < ctx.packet.length := by simp at hlong; omega
      have hhdr : (slice ctx.packet adjustHeadLen sizeofHeaders).length = sizeofHeaders :=
        slice_length _ _ _ (by simp; omega)
      have h1 : (overwrite ctx.packet 0 (slice ctx.packet adjustHeadLen sizeofHeaders)).length = ctx.packet.length :=
        overwrite_length _ _ _ (by rw [hhdr]; simp; omega)
      have h2 := (swapBlocks_length _ 6 0 6 (by omega) (by omega)).trans h1
      have h3 := (swapBlocks_length _ 26 30 4 (by omega) (by omega)).trans h2
      have hload := loadBlock_eq ctx.packet adjustHeadLen sizeofHeaders (by simp; omega)
      have hstore := storeBlock_eq ctx.packet 0 _ (by rw [hhdr]; simp; omega)
      have hmac := exchangeBlocks_eq _ 6 0 6 (by rw [h1]; omega) (by omega)
      have hip := exchangeBlocks_eq _ 26 30 4 (by rw [h2]; omega) (by omega)
      have hport := exchangeBlocks_eq _ 34 36 2 (by rw [h3]; omega) (by omega)
      simp only [hload, hstore, hmac, hip, hport, Option.bind_eq_bind, Option.bind_some, swapAddresses]
      cases bpfXdpAdjustHead _ _ with
      | none => rfl
      | some ctx => rfl

theorem fillHeaders_eq (pkt : Bytes) (n : ℕ) (h : 42 ≤ pkt.length) :
    fillHeaders pkt n = some (BmcCache.fillHeaders pkt n) := by
  have hstore : ∀ (k : Bytes) (pos : ℕ) (src : Bytes), k.length = pkt.length → src.length = 2 → pos ≤ 40 →
      storeBlock k pos src = some (overwrite k pos src) ∧ (overwrite k pos src).length = pkt.length := by
    intro k pos src hk hs hpos
    exact ⟨storeBlock_eq k pos src (by omega), (overwrite_length k pos src (by omega)).trans hk⟩
  obtain ⟨e1, h1⟩ := hstore pkt 16 (be16Bytes (sizeofHeaders + n - sizeofEthhdr)) rfl rfl (by omega)
  obtain ⟨e2, h2⟩ := hstore _ 24 (le16Bytes (computeIpChecksum (slice _ 14 20))) h1 rfl (by omega)
  obtain ⟨e3, h3⟩ := hstore _ 40 (be16Bytes 0) h2 rfl (by omega)
  obtain ⟨e4, -⟩ := hstore _ 38 (be16Bytes (sizeofHeaders + n - (sizeofEthhdr + sizeofIphdr))) h3 rfl (by omega)
  rw [fillHeaders, e1, Option.bind_eq_bind, Option.bind_some, loadBlock_eq _ 14 20 (by omega), Option.bind_some, e2,
    Option.bind_some, e3, Option.bind_some, e4]
  rfl

theorem finishReply_eq (s : XdpState) (writePktOffset written : ℕ) :
    finishReply s writePktOffset written = some (BmcCache.finishReply s writePktOffset written) := by
  unfold finishReply BmcCache.finishReply
  dsimp only
  split
  · rename_i hroom
    rw [storeBlock_eq _ _ _ hroom, Option.bind_eq_bind, Option.bind_some]
    cases bpfXdpAdjustHead _ _ with
    | none => rfl
    | some ctx =>
      dsimp only
      split
      · rfl
      · rename_i hlong
        rw [fillHeaders_eq _ _ (by simp at hlong; omega), Option.bind_some]
  · rfl

theorem writeReplyNext_eq (s : XdpState) (pctx : ParsingContext) (stats : BmcStats) (written : ℕ) :
    writeReplyNext s pctx stats written = some (BmcCache.writeReplyNext s pctx stats written) := by
  unfold writeReplyNext
  dsimp only
  split
  · rename_i hlast
    rw [finishReply_eq, BmcCache.writeReplyNext, if_pos hlast]
  · rfl

theorem bmcWriteReplyMain_eq (s : XdpState) : bmcWriteReplyMain s = some (BmcCache.bmcWriteReplyMain s) := by
  unfold bmcWriteReplyMain BmcCache.bmcWriteReplyMain
  simp only [ArrayMap.lookup_of_lt _ Nat.one_pos, KCache.lookup_cacheIdx, copyLoops_eq, writeReplyNext_eq]
  split
  · rfl
  · cases s.keys.lookup (s.pctx ⟨0, Nat.one_pos⟩).currentKey with
    | none => rfl
    | some key =>
      have hcompare := keyCompareLoop_eq key.len key.data (s.kcache.entryAt key.hash).data key.data_length
        (s.kcache.entryAt key.hash).data_length (bmcMaxKeyLength + 1) 0 true (by omega)
      rw [List.drop_zero] at hcompare
      dsimp only
      cases (s.kcache.entryAt key.hash).holdsHash key.hash with
      | false => rfl
      | true =>
        simp only [hcompare, Bool.true_and, if_true, Option.bind_eq_bind, Option.bind_some]
        cases BmcCache.keyCompareLoop key.len 0 key.data ((s.kcache.entryAt key.hash).data.drop (6 + 0)) true with
        | false => rfl
        | true => rfl

end Checked

/-- Run one program of the GET chain with its accesses checked. -/
def checkedExec (kcacheAt : ℕ → KCache) (n : ℕ) (p : XdpProg) (s : XdpState) : Option (XdpState × XdpOutcome) :=
  let s := { s with kcache := kcacheAt n }
  match p with
  | .rxFilter => Checked.bmcRxFilterMain s
  | .hashKeys => Checked.bmcHashKeysMain s
  | .preparePacket => Checked.bmcPreparePacketMain s
  | .writeReply => Checked.bmcWriteReplyMain s
  | .invalidateCache => none

/-- **No check fails**: a program of the GET chain stays inside its arrays, whatever the state is. -/
theorem checkedExec_eq (kcacheAt : ℕ → KCache) (n : ℕ) (p : XdpProg) (s : XdpState)
    (hp : p ≠ .invalidateCache) :
    checkedExec kcacheAt n p s = some (xdpExec kcacheAt n p s) := by
  cases p with
  | rxFilter => exact Checked.bmcRxFilterMain_eq _
  | hashKeys => exact Checked.bmcHashKeysMain_eq _
  | preparePacket => exact Checked.bmcPreparePacketMain_eq _
  | writeReply => exact Checked.bmcWriteReplyMain_eq _
  | invalidateCache => exact absurd rfl hp

/-! ### The bytes copied from entries -/

/-- `written` behind the copy loops of `bmc_write_reply_main`, for the saved key `current_key`. -/
def entryBytes (kc : KCache) (s : XdpState) : Option ℕ := do
  let pctx ← s.pctx.lookup 0
  let key ← s.keys.lookup pctx.currentKey
  let entry ← kc.lookup (cacheIdx key.hash)
  some (if entry.holdsHash key.hash && keyCompareLoop key.len 0 key.data (entry.data.drop 6) true then
    (copyLoops entry s.ctx.packet).1 else 0)

/-- The entry bytes a program of the chain copies into the packet. -/
def writtenBy (kcacheAt : ℕ → KCache) : ℕ × XdpProg × XdpState → ℕ
  | (n, .writeReply, s) => (entryBytes (kcacheAt n) s).getD 0
  | _ => 0

/-- The entry bytes copied by the programs entered so far. -/
def writtenBefore (kcacheAt : ℕ → KCache) (before : List (ℕ × XdpProg × XdpState)) : ℕ :=
  (before.map (writtenBy kcacheAt)).sum

theorem writtenBefore_snoc (kcacheAt : ℕ → KCache) (before : List (ℕ × XdpProg × XdpState))
    (e : ℕ × XdpProg × XdpState) :
    writtenBefore kcacheAt (before ++ [e]) = writtenBefore kcacheAt before + writtenBy kcacheAt e := by
  simp [writtenBefore]

section

variable (H F : Bytes) (kcacheAt : ℕ → KCache)

/-- What holds when `p` is entered as the `n`-th program on a GET frame, with the entry bytes copied before. -/
def CursorPoint (before : List (ℕ × XdpProg × XdpState)) (n : ℕ) : XdpProg → XdpState → Prop
  | .rxFilter, s => n = 0 ∧ s.ctx = ⟨H, F⟩ ∧ IsGetFrame F ∧ before = []
  | .hashKeys, s =>
    ∃ ws, n = ws.length + 1 ∧ StartsGetChain F ∧ HashPoint H F kcacheAt ws s ∧ writtenBefore kcacheAt before = 0
  | .preparePacket, s =>
    ∃ ws, n = ws.length + 1 ∧ PreparePoint H F kcacheAt ws s ∧ writtenBefore kcacheAt before = 0
  | .writeReply, s =>
    ∃ ws i, n = ws.length + 2 + i ∧ WritePoint H F kcacheAt ws i s ∧ writtenBefore kcacheAt before =
      (servedBytes kcacheAt (ws.length + 2) ((savedKeys kcacheAt ws).take i)).length
  | .invalidateCache, _ => False

end

section

variable {H F : Bytes} {kcacheAt : ℕ → KCache} {ws : List Bytes} {i n : ℕ} {s s' : XdpState}
  {before : List (ℕ × XdpProg × XdpState)} {p q : XdpProg} {v : XdpAction}

theorem WritePoint.writtenBy (h : WritePoint H F kcacheAt ws i s) :
    writtenBy kcacheAt (ws.length + 2 + i, .writeReply, s) =
      min (servedAt kcacheAt ws i).length s.ctx.packet.length := by
  obtain ⟨r, hpc⟩ := h.context
  obtain ⟨rec, hrec, hholds, hlen⟩ := h.record
  have hserve : ∀ e : BmcCacheEntry, (e.holdsHash (fnv1a ((savedKeys kcacheAt ws).getD i [])) &&
      keyCompareLoop rec.len 0 rec.data (e.data.drop 6) true) = serveHit e ((savedKeys kcacheAt ws).getD i []) := by
    intro e
    rw [hholds.keyCompareLoop_eq hlen, serveHit]
  rw [BmcCache.writtenBy, entryBytes, hpc]
  simp only [Option.bind_eq_bind, Option.bind_some, hrec, hholds.hash, KCache.lookup_cacheIdx, Option.getD_some, hserve,
    servedAt, serveBytes]
  split
  · rw [copyLoops_eq]
  · exact (Nat.zero_min _).symm

theorem WritePoint.served_fits (h : WritePoint H F kcacheAt ws i s) (hnext : WritePoint H F kcacheAt ws (i + 1) s') :
    (servedAt kcacheAt ws i).length ≤ s.ctx.packet.length := by
  obtain ⟨H₁, T, -, hT, hctx⟩ := h.packet
  obtain ⟨H₂, T', -, hT', hctx'⟩ := hnext.packet
  have hroom := hnext.room
  rw [hctx', servedBytes_take_succ kcacheAt ws h.index_lt] at hroom
  rw [hctx]
  simp only [List.length_drop, List.length_append, hT, hT'] at hroom ⊢
  omega

/-- **One program of the chain.** -/
theorem CursorPoint.step (hn : n < maxTailCallCnt) (h : CursorPoint H F kcacheAt before n p s)
    (hex : xdpExec kcacheAt n p s = (s', .tailCall q v)) :
    CursorPoint H F kcacheAt (before ++ [(n, p, s)]) (n + 1) q s' := by
  cases p with
  | rxFilter =>
    obtain ⟨rfl, hctx, hget, rfl⟩ := h
    rcases rxFilter_calls hctx hex with ⟨rfl, hF, hpoint⟩ | ⟨rfl, htcp⟩
    · exact ⟨[], rfl, hF, hpoint, rfl⟩
    · exact absurd (hget.2.1.symm.trans htcp.2.1) (by decide)
  | hashKeys =>
    obtain ⟨ws, rfl, hF, hpoint, hsum⟩ := h
    have hsum' : writtenBefore kcacheAt (before ++ [(ws.length + 1, .hashKeys, s)]) = 0 :=
      (writtenBefore_snoc _ _ _).trans hsum
    obtain ⟨-, ⟨rfl, hprepare⟩ | ⟨rfl, hnext⟩⟩ := hpoint.calls hF hn.le hex
    · exact ⟨_, by simp, hprepare, hsum'⟩
    · exact ⟨_, by simp, hF, hnext, hsum'⟩
  | preparePacket =>
    obtain ⟨ws, rfl, hpoint, hsum⟩ := h
    obtain ⟨rfl, hwrite⟩ := hpoint.calls hex
    exact ⟨ws, 0, rfl, hwrite, (writtenBefore_snoc _ _ _).trans hsum⟩
  | writeReply =>
    obtain ⟨ws, i, rfl, hpoint, hsum⟩ := h
    obtain ⟨rfl, hnext⟩ := hpoint.calls hex
    refine ⟨ws, i + 1, by omega, hnext, ?_⟩
    rw [writtenBefore_snoc, hsum, hpoint.writtenBy, Nat.min_eq_left (hpoint.served_fits hnext),
      servedBytes_take_succ kcacheAt ws hpoint.index_lt, List.length_append]
  | invalidateCache => exact absurd hex invalidateCache_calls

end

/-! ### The cursor at every program -/

/-- The cursor when `p` is entered as the `n`-th program of a chain that began in `s`, behind the programs `before`:
the distance of `ctx->data` from the start of the frame, or from the headers written 128 bytes before it, is that of the
headers and the offset, and what the call adds to the offset leaves it below 2^16. -/
def AtCursor (kcacheAt : ℕ → KCache) (s : XdpState) (before : List (ℕ × XdpProg × XdpState))
    (n : ℕ) (p : XdpProg)
    (t : XdpState) : Prop :=
  match p with
  | .hashKeys => ∃ pctx, t.pctx.lookup 0 = some pctx ∧
      t.ctx.head.length = s.ctx.head.length + (sizeofHeaders + pctx.readPktOffset) ∧
      pctx.readPktOffset + ((hashLoop 0 0 fnvOffsetBasis32 t.ctx.packet).off + 1) < 2 ^ 16
  | .writeReply => ∃ pctx, t.pctx.lookup 0 = some pctx ∧
      t.ctx.head.length + adjustHeadLen = s.ctx.head.length + (sizeofHeaders + pctx.writePktOffset) ∧
      pctx.writePktOffset = writtenBefore kcacheAt before ∧
      pctx.writePktOffset + writtenBy kcacheAt (n, .writeReply, t) < 2 ^ 16
  | .rxFilter => t.ctx = s.ctx
  | .preparePacket => t.ctx = s.ctx
  | .invalidateCache => False

section

variable {H F : Bytes} {kcacheAt : ℕ → KCache} {ws : List Bytes} {i n : ℕ} {s t : XdpState}
  {before : List (ℕ × XdpProg × XdpState)} {p : XdpProg}

theorem hashLoop_off_le (l : Bytes) : ∀ (off keyLen : ℕ) (hash : UInt32), off ≤ bmcMaxKeyLength + 1 →
    (hashLoop off keyLen hash l).off ≤ bmcMaxKeyLength + 1 := by
  induction l with
  | nil => intro off keyLen hash h; exact h
  | cons b rest ih =>
    intro off keyLen hash h
    rw [hashLoop]
    split
    · split
      · exact h
      · split
        · exact h
        · exact ih (off + 1) _ _ (by omega)
    · exact h

theorem HashPoint.atCursor (h : HashPoint s.ctx.head s.ctx.packet kcacheAt ws t)
    (hn : ws.length + 1 ≤ maxTailCallCnt) : AtCursor kcacheAt s before (ws.length + 1) .hashKeys t := by
  obtain ⟨r, hpc, hat, hr⟩ := h.context
  have hoff := hashLoop_off_le t.ctx.packet 0 0 fnvOffsetBasis32 (Nat.zero_le _)
  refine ⟨_, hpc, ?_, ?_⟩
  · rw [hat.head, List.length_append, List.length_take, Nat.min_eq_left (by have := hat.room; omega)]
  · simp only
    simp at hr hn hoff
    omega

theorem WritePoint.atCursor (h : WritePoint s.ctx.head s.ctx.packet kcacheAt ws i t)
    (hsum : writtenBefore kcacheAt before =
      (servedBytes kcacheAt (ws.length + 2) ((savedKeys kcacheAt ws).take i)).length) :
    AtCursor kcacheAt s before (ws.length + 2 + i) .writeReply t := by
  obtain ⟨r, hpc⟩ := h.context
  obtain ⟨H', T, hH, hT, hctx⟩ := h.packet
  have hF := startsGetChain_length h.frame
  refine ⟨_, hpc, ?_, hsum.symm, ?_⟩
  · rw [hctx, hH]
    simp only [List.length_append,
      replyHeaders_length _ (show sizeofHeaders ≤ s.ctx.packet.length by simp; omega), hT]
    omega
  · have hle := servedBytes_length_le kcacheAt (ws.length + 2) ((savedKeys kcacheAt ws).take (i + 1))
    have hcount := h.saved_le
    rw [servedBytes_take_succ kcacheAt ws h.index_lt, List.length_append, List.length_take] at hle
    rw [h.writtenBy]
    simp at hle hcount ⊢
    omega

theorem CursorPoint.atCursor (hn : n ≤ maxTailCallCnt)
    (h : CursorPoint s.ctx.head s.ctx.packet kcacheAt before n p t) :
    AtCursor kcacheAt s before n p t ∧ p ≠ .invalidateCache := by
  cases p with
  | rxFilter => exact ⟨h.2.1, by simp⟩
  | hashKeys =>
    obtain ⟨ws, rfl, -, hpoint, -⟩ := h
    exact ⟨hpoint.atCursor hn, by simp⟩
  | preparePacket =>
    obtain ⟨ws, rfl, hpoint, -⟩ := h
    exact ⟨hpoint.packet, by simp⟩
  | writeReply =>
    obtain ⟨ws, i, rfl, hpoint, hsum⟩ := h
    exact ⟨hpoint.atCursor hsum, by simp⟩
  | invalidateCache => exact absurd h id

end

/-- **The packet cursor.** At every program that a chain on a GET frame enters, whatever the maps held and other
CPUs did to the cache, `ctx->data` and the two offsets are in step and the offsets do not wrap; and every access of
the program stays inside the packet, `key->data` or `entry->data`. -/
theorem packet_cursor (loaded : XdpProg → Bool) (kcacheAt : ℕ → KCache) (s t : XdpState) (n : ℕ) (p : XdpProg)
    (before after : List (ℕ × XdpProg × XdpState)) (hget : IsGetFrame s.ctx.packet)
    (hentry : chainEntries loaded kcacheAt s = before ++ (n, p, t) :: after) :
    AtCursor kcacheAt s before n p t ∧ checkedExec kcacheAt n p t = some (xdpExec kcacheAt n p t) := by
  have hstart : CursorPoint s.ctx.head s.ctx.packet kcacheAt [] 0 .rxFilter s := ⟨rfl, rfl, hget, rfl⟩
  have hpoint := TailChain.entries_history maxTailCallCnt
    (fun before n p t => n ≤ maxTailCallCnt ∧ CursorPoint s.ctx.head s.ctx.packet kcacheAt before n p t)
    (fun before n p t t' q v hn hI hex => ⟨hn, hI.2.step hn hex⟩) [] (by omega) ⟨Nat.zero_le _, hstart⟩ hentry
  obtain ⟨hcursor, hp⟩ := CursorPoint.atCursor hpoint.1 hpoint.2
  exact ⟨hcursor, checkedExec_eq kcacheAt n p t hp⟩

/-- A request for a cached key, at the program that writes the reply. -/
theorem packet_cursor_hit :
    ∃ before n t after,
      chainEntries (fun _ => true) (fun _ => cachedKey) cachedKeyRequest = before ++ (n, .writeReply, t) :: after ∧
      AtCursor (fun _ => cachedKey) cachedKeyRequest before n .writeReply t := by
  obtain ⟨n, t, -, hmem, -⟩ : ∃ n t t',
      (n, .writeReply, t) ∈ chainEntries (fun _ => true) (fun _ => cachedKey) cachedKeyRequest ∧
        xdpExec (fun _ => cachedKey) n .writeReply t = (t', .ret .tx) := exists_ending_entry (by decide +kernel)
  obtain ⟨before, after, hentry⟩ := List.append_of_mem hmem
  exact ⟨before, n, t, after, hentry,
    (packet_cursor (fun _ => true) (fun _ => cachedKey) cachedKeyRequest t n .writeReply
    before after (by decide +kernel) hentry).1⟩

end BmcCache
