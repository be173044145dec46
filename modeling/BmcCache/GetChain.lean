import BmcCache.Chain
import Mathlib.Data.List.Induction

/-!
# The GET chain from point to point

For a received frame `F` behind the headroom `H`: what holds before each program of the chain, and where each
program leads.  The text of the request, `keyBytes F`, is read word by word; `kcacheAt n` is the cache the `n`-th
program sees, so the word read as the `j`-th is looked up in `kcacheAt j` and the `i`-th saved key of a request of
`m` words is served from `kcacheAt (m + 2 + i)`.
-/

namespace BmcCache

open ByteBuffer List

section

variable (H F : Bytes) (kcacheAt : ℕ → KCache)

/-- Before a call of `bmc_hash_keys`, with the words `ws` behind it. -/
structure HashPoint (ws : List Bytes) (s : XdpState) : Prop where
  context : ∃ r, s.pctx.lookup 0 = some ⟨(savedKeys kcacheAt ws).length, 0, r, 0⟩ ∧ AtKey H F s.ctx r ∧
    r ≤ bmcMaxPacketLength + 251 * ws.length
  text : keyBytes F = joinWords ws ++ s.ctx.packet
  words : ∀ w ∈ ws, IsKeyWord w
  keys : KeysHold s.keys (savedKeys kcacheAt ws)
  saved_le : (savedKeys kcacheAt ws).length ≤ bmcMaxKeyInPacket

/-- Before `bmc_prepare_packet`, with all words `ws` read and at least one of them saved. -/
structure PreparePoint (ws : List Bytes) (s : XdpState) : Prop where
  context : ∃ r, s.pctx.lookup 0 = some ⟨(savedKeys kcacheAt ws).length, 0, r, 0⟩
  packet : s.ctx = ⟨H, F⟩
  frame : StartsGetChain F
  text : requestWords (keyBytes F) = ws
  words : ∀ w ∈ ws, IsKeyWord w
  keys : KeysHold s.keys (savedKeys kcacheAt ws)
  saved_le : (savedKeys kcacheAt ws).length ≤ bmcMaxKeyInPacket
  saved_pos : 0 < (savedKeys kcacheAt ws).length

/-- Before the call of `bmc_write_reply` for the `i`-th saved key: the headroom was `H' ++ T`, and the bytes served so
far stand behind the reply's headers. -/
structure WritePoint (ws : List Bytes) (i : ℕ) (s : XdpState) : Prop where
  context : ∃ r, s.pctx.lookup 0 = some ⟨(savedKeys kcacheAt ws).length, i, r,
    (servedBytes kcacheAt (ws.length + 2) ((savedKeys kcacheAt ws).take i)).length⟩
  packet : ∃ H' T, H = H' ++ T ∧ T.length = adjustHeadLen ∧ s.ctx =
    ⟨H' ++ (replyHeaders F ++ servedBytes kcacheAt (ws.length + 2) ((savedKeys kcacheAt ws).take i)),
      (T.drop sizeofHeaders ++ F).drop
        (servedBytes kcacheAt (ws.length + 2) ((savedKeys kcacheAt ws).take i)).length⟩
  room : 14 ≤ s.ctx.packet.length
  frame : StartsGetChain F
  text : requestWords (keyBytes F) = ws
  words : ∀ w ∈ ws, IsKeyWord w
  keys : KeysHold s.keys (savedKeys kcacheAt ws)
  saved_le : (savedKeys kcacheAt ws).length ≤ bmcMaxKeyInPacket
  index_lt : i < (savedKeys kcacheAt ws).length

end

section

variable {H F : Bytes} {kcacheAt : ℕ → KCache}

theorem servedBytes_length_le (kcacheAt : ℕ → KCache) (n : ℕ) (ks : List Bytes) :
    (servedBytes kcacheAt n ks).length ≤ bmcMaxCacheDataSize * ks.length := by
  induction ks using reverseRecOn with
  | nil => simp [servedBytes]
  | append_singleton ks k ih =>
    rw [servedBytes_snoc, length_append, length_append, length_singleton, Nat.mul_add]
    have := serveBytes_length_le (kcacheAt (n + ks.length)) k
    omega

/-! ### From the filter to the first key -/

theorem startsGetChain_length (h : StartsGetChain F) : 68 ≤ F.length := by
  have h4 := keysOffset_ge F
  have hroom := h.2.2
  simp at hroom
  omega

theorem xdp_rxFilter_get (kcacheAt : ℕ → KCache) (s : XdpState) (hctx : s.ctx = ⟨H, F⟩) (h : StartsGetChain F) :
    ∃ s', xdpExec kcacheAt 0 .rxFilter s = (s', .tailCall .hashKeys .pass) ∧ HashPoint H F kcacheAt [] s' := by
  obtain ⟨ctx, keys, pctx, stats, kcache⟩ := s
  obtain rfl : ctx = ⟨H, F⟩ := hctx
  obtain ⟨stats', pc, hrx, hpc⟩ := rxFilter_get ⟨⟨H, F⟩, keys, pctx, stats, kcacheAt 0⟩ h
  refine ⟨_, hrx, ⟨_, hpc, ⟨rfl, rfl, h.2.2⟩, ?_⟩, rfl, by simp, keysHold_nil _, Nat.zero_le _⟩
  exact h.2.1.le

theorem xdp_rxFilter_other (kcacheAt : ℕ → KCache) (s : XdpState) (hctx : s.ctx = ⟨H, F⟩)
    (h : ¬ StartsGetChain F) :
    ∃ s' o, xdpExec kcacheAt 0 .rxFilter s = (s', o) ∧ s'.ctx = ⟨H, F⟩ ∧ s'.keys = s.keys ∧
      s'.kcache = kcacheAt 0 ∧ (o = .ret .pass ∨ IsTcpFrame F ∧ o = .tailCall .invalidateCache .pass) := by
  obtain ⟨stats, pc, o, hrx, ho⟩ := rxFilter_other { s with kcache := kcacheAt 0 } (by rw [hctx]; exact h)
  rw [hctx] at ho
  exact ⟨_, o, hrx, hctx, rfl, rfl, ho⟩

theorem xdp_invalidateCache (kcacheAt : ℕ → KCache) (n : ℕ) (s : XdpState) :
    ∃ s', xdpExec kcacheAt n .invalidateCache s = (s', .ret .pass) ∧ s'.ctx = s.ctx ∧
      s'.kcache = invalidateKeys (kcacheAt n) (scanKeys .search 0 (scannedBytes s.ctx.packet)) := by
  obtain ⟨stats, h⟩ := invalidateCache_spec { s with kcache := kcacheAt n }
  exact ⟨_, h, rfl, rfl⟩

/-! ### From key to key -/

section

variable {ws : List Bytes} {s : XdpState}

theorem HashPoint.packet_ne_nil (h : HashPoint H F kcacheAt ws s) : s.ctx.packet ≠ [] := by
  obtain ⟨r, -, hat, -⟩ := h.context
  have hroom := hat.room
  intro hnil
  have := congrArg length (hat.packet.symm.trans hnil)
  rw [length_drop, length_nil] at this
  omega

theorem HashPoint.full (h : HashPoint H F kcacheAt ws s) (n : ℕ)
    (hfull : (savedKeys kcacheAt ws).length = bmcMaxKeyInPacket) :
    xdpExec kcacheAt n .hashKeys s = ({ s with kcache := kcacheAt n }, .ret .pass) := by
  obtain ⟨r, hpc, -, -⟩ := h.context
  exact hashKeys_full { s with kcache := kcacheAt n } _ hpc (by rw [hfull])

theorem HashPoint.unexpected (h : HashPoint H F kcacheAt ws s) (n : ℕ)
    (hlt : (savedKeys kcacheAt ws).length < bmcMaxKeyInPacket)
    (hw : nextWord s.ctx.packet = [] ∨ bmcMaxKeyLength < (nextWord s.ctx.packet).length) :
    ∃ s', xdpExec kcacheAt n .hashKeys s = (s', .ret .pass) ∧ s'.ctx = ⟨H, F⟩ := by
  obtain ⟨r, hpc, hat, -⟩ := h.context
  obtain ⟨keys, hk⟩ := hashKeys_unexpected { s with kcache := kcacheAt n } _ hpc hlt h.packet_ne_nil hw
  exact ⟨_, hk, hat.popToStart⟩

theorem isKeyWord_nextWord (l : Bytes) (hne : nextWord l ≠ [])
    (hle : (nextWord l).length ≤ bmcMaxKeyLength) : IsKeyWord (nextWord l) :=
  ⟨hne, hle, nextWord_all l⟩

theorem HashPoint.word (h : HashPoint H F kcacheAt ws s)
    (hlt : (savedKeys kcacheAt ws).length < bmcMaxKeyInPacket) (hne : nextWord s.ctx.packet ≠ [])
    (hle : (nextWord s.ctx.packet).length ≤ bmcMaxKeyLength) :
    ∃ s₁ r, xdpExec kcacheAt (ws.length + 1) .hashKeys s =
        hashKeysNext s₁ ⟨(savedKeys kcacheAt (ws ++ [nextWord s.ctx.packet])).length, 0, r, 0⟩
          ⟨(nextWord s.ctx.packet).length, decide (s.ctx.packet[(nextWord s.ctx.packet).length]? = some cr),
            (nextWord s.ctx.packet).length, fnv1a (nextWord s.ctx.packet)⟩ ∧
      s₁.ctx = s.ctx ∧ AtKey H F s.ctx r ∧ r ≤ bmcMaxPacketLength + 251 * ws.length ∧
      s₁.pctx.lookup 0 = some ⟨(savedKeys kcacheAt (ws ++ [nextWord s.ctx.packet])).length, 0, r, 0⟩ ∧
      KeysHold s₁.keys (savedKeys kcacheAt (ws ++ [nextWord s.ctx.packet])) := by
  obtain ⟨r, hpc, hat, hr⟩ := h.context
  obtain ⟨keys, pcm, hk, hpcm, hkeys⟩ := hashKeys_word { s with kcache := kcacheAt (ws.length + 1) } _
    (savedKeys kcacheAt ws) hpc rfl hlt h.keys hne hle
  rw [savedKeys_snoc]
  exact ⟨_, r, hk, rfl, hat, hr, hpcm, hkeys⟩

theorem HashPoint.stats (h : HashPoint H F kcacheAt ws s)
    (hlt : (savedKeys kcacheAt ws).length < bmcMaxKeyInPacket) (hne : nextWord s.ctx.packet ≠ [])
    (hle : (nextWord s.ctx.packet).length ≤ bmcMaxKeyLength) :
    (xdpExec kcacheAt (ws.length + 1) .hashKeys s).1.stats =
      if keyHit (kcacheAt (ws.length + 1)) (nextWord s.ctx.packet) then s.stats else countMiss s.stats := by
  obtain ⟨r, hpc, -, -⟩ := h.context
  obtain ⟨keys, pcm, hk, -, -⟩ := hashKeys_word { s with kcache := kcacheAt (ws.length + 1) } _
    (savedKeys kcacheAt ws) hpc rfl hlt h.keys hne hle
  change (bmcHashKeysMain { s with kcache := kcacheAt (ws.length + 1) }).1.stats = _
  rw [hk, hashKeysNext_stats]

/-- The next word ends the request: the frame is restored, and if any key was saved `bmc_prepare_packet` is called. -/
theorem HashPoint.last (h : HashPoint H F kcacheAt ws s) (hF : StartsGetChain F)
    (hlt : (savedKeys kcacheAt ws).length < bmcMaxKeyInPacket) (hne : nextWord s.ctx.packet ≠ [])
    (hle : (nextWord s.ctx.packet).length ≤ bmcMaxKeyLength)
    (hcr : s.ctx.packet[(nextWord s.ctx.packet).length]? = some cr) :
    ∃ s', s'.ctx = ⟨H, F⟩ ∧
      (savedKeys kcacheAt (ws ++ [nextWord s.ctx.packet]) = [] →
        xdpExec kcacheAt (ws.length + 1) .hashKeys s = (s', .ret .pass)) ∧
      (savedKeys kcacheAt (ws ++ [nextWord s.ctx.packet]) ≠ [] →
        xdpExec kcacheAt (ws.length + 1) .hashKeys s = (s', .tailCall .preparePacket .pass) ∧
        PreparePoint H F kcacheAt (ws ++ [nextWord s.ctx.packet]) s') := by
  obtain ⟨s₁, r, hex, hctx, hat, -, hpc, hkeys⟩ := h.word hlt hne hle
  rw [hex, hashKeysNext_done s₁ _ _ (by rw [hctx]; exact hat) (by simp [hcr])]
  refine ⟨{ s₁ with ctx := ⟨H, F⟩ }, rfl, ?_, ?_⟩
  · intro hnil
    rw [hnil]
    simp
  · intro hsome
    have hpos := length_pos_iff.mpr hsome
    have hwords : ∀ w ∈ ws ++ [nextWord s.ctx.packet], IsKeyWord w := by
      intro w hw
      rcases mem_append.mp hw with hw | hw
      · exact h.words w hw
      · rw [mem_singleton.mp hw]; exact isKeyWord_nextWord _ hne hle
    refine ⟨by simp only [if_pos hpos], ⟨r, hpc⟩, rfl, hF, ?_, hwords, hkeys, ?_, hpos⟩
    · have hreq := requestWords_eq ws (nextWord s.ctx.packet)
        (s.ctx.packet.drop ((nextWord s.ctx.packet).length + 1)) hwords
      rw [← (nextWord_split _ _ hcr).1, ← h.text] at hreq
      exact hreq
    · rw [savedKeys_snoc]
      have := saveKey_length_le (kcacheAt (ws.length + 1)) (savedKeys kcacheAt ws) (nextWord s.ctx.packet)
      omega

/-- The next word does not end the request and fewer than 14 bytes follow it: the chain ends on this key. -/
theorem HashPoint.short (h : HashPoint H F kcacheAt ws s)
    (hlt : (savedKeys kcacheAt ws).length < bmcMaxKeyInPacket) (hne : nextWord s.ctx.packet ≠ [])
    (hle : (nextWord s.ctx.packet).length ≤ bmcMaxKeyLength)
    (hcr : s.ctx.packet[(nextWord s.ctx.packet).length]? ≠ some cr)
    (hshort : s.ctx.packet.length < (nextWord s.ctx.packet).length + 1 + 14) :
    ∃ s', xdpExec kcacheAt (ws.length + 1) .hashKeys s = (s', .ret .pass) ∧ s'.ctx = s.ctx := by
  obtain ⟨s₁, r, hex, hctx, -, -, -, -⟩ := h.word hlt hne hle
  obtain ⟨pcm, hs⟩ := hashKeysNext_short s₁
    ⟨(savedKeys kcacheAt (ws ++ [nextWord s.ctx.packet])).length, 0, r, 0⟩
    ⟨(nextWord s.ctx.packet).length, decide (s.ctx.packet[(nextWord s.ctx.packet).length]? = some cr),
      (nextWord s.ctx.packet).length, fnv1a (nextWord s.ctx.packet)⟩ (by simp [hcr]) (by rw [hctx]; exact hshort)
  exact ⟨_, hex.trans hs, hctx⟩

/-- The next word does not end the request and enough bytes follow it: on to the next key. -/
theorem HashPoint.more (h : HashPoint H F kcacheAt ws s)
    (hlt : (savedKeys kcacheAt ws).length < bmcMaxKeyInPacket) (hne : nextWord s.ctx.packet ≠ [])
    (hle : (nextWord s.ctx.packet).length ≤ bmcMaxKeyLength)
    (hcr : s.ctx.packet[(nextWord s.ctx.packet).length]? ≠ some cr)
    (hroom : (nextWord s.ctx.packet).length + 1 + 14 ≤ s.ctx.packet.length)
    (hcount : ws.length < maxTailCallCnt) :
    ∃ s', xdpExec kcacheAt (ws.length + 1) .hashKeys s = (s', .tailCall .hashKeys .pass) ∧
      HashPoint H F kcacheAt (ws ++ [nextWord s.ctx.packet]) s' ∧
      s'.ctx.packet = s.ctx.packet.drop ((nextWord s.ctx.packet).length + 1) := by
  obtain ⟨s₁, r, hex, hctx, hat, hr, hpc, hkeys⟩ := h.word hlt hne hle
  obtain ⟨ctx', pcm, hs, hpcm, hat', hpkt⟩ := hashKeysNext_more (H := H) (F := F) s₁
    ⟨(savedKeys kcacheAt (ws ++ [nextWord s.ctx.packet])).length, 0, r, 0⟩
    ⟨(nextWord s.ctx.packet).length, decide (s.ctx.packet[(nextWord s.ctx.packet).length]? = some cr),
      (nextWord s.ctx.packet).length, fnv1a (nextWord s.ctx.packet)⟩ (by rw [hctx]; exact hat) (by simp [hcr])
    (by rw [hctx]; exact hroom) (by simp at hle hr hcount ⊢; omega)
  simp only [hctx] at hpkt
  refine ⟨_, hex.trans hs, ⟨⟨_, hpcm, hat', ?_⟩, ?_, ?_, hkeys, ?_⟩, hpkt⟩
  · simp only [length_append, length_singleton]
    simp at hle hr ⊢
    omega
  · obtain ⟨b, hb⟩ : ∃ b, s.ctx.packet[(nextWord s.ctx.packet).length]? = some b :=
      ⟨_, getElem?_eq_getElem (by omega)⟩
    obtain ⟨hsplit, hkb⟩ := nextWord_split _ _ hb
    have hsp : b = space := by
      by_contra hsp
      have hne' : b ≠ cr := fun hbc => hcr (by rw [hb, hbc])
      rw [keyByte_eq_true.mpr ⟨hsp, hne'⟩] at hkb
      exact absurd hkb (by simp)
    rw [h.text, joinWords_snoc, hpkt, append_assoc, append_assoc, singleton_append, ← hsp, ← hsplit]
  · intro w hw
    rcases mem_append.mp hw with hw | hw
    · exact h.words w hw
    · rw [mem_singleton.mp hw]; exact isKeyWord_nextWord _ hne hle
  · rw [savedKeys_snoc]
    have := saveKey_length_le (kcacheAt (ws.length + 1)) (savedKeys kcacheAt ws) (nextWord s.ctx.packet)
    omega

end

/-! ### The reply's headers -/

section

variable {ws : List Bytes} {s : XdpState}

theorem PreparePoint.noRoom (h : PreparePoint H F kcacheAt ws s) (n : ℕ) (hH : H.length < adjustHeadLen) :
    xdpExec kcacheAt n .preparePacket s = ({ s with kcache := kcacheAt n }, .ret .pass) := by
  apply preparePacket_noRoom
  simp only [h.packet]
  exact hH

theorem PreparePoint.ok (h : PreparePoint H F kcacheAt ws s) (n : ℕ) (hH : adjustHeadLen ≤ H.length) :
    ∃ s', xdpExec kcacheAt n .preparePacket s = (s', .tailCall .writeReply .pass) ∧
      WritePoint H F kcacheAt ws 0 s' := by
  have hF := startsGetChain_length h.frame
  set H' := H.take (H.length - adjustHeadLen) with hH'
  set T := H.drop (H.length - adjustHeadLen) with hT
  have hsplit : H = H' ++ T := (take_append_drop _ _).symm
  have hTlen : T.length = adjustHeadLen := by rw [hT, length_drop]; omega
  obtain ⟨r, hpc⟩ := h.context
  refine ⟨_, preparePacket_ok { s with kcache := kcacheAt n } H' T F (by rw [← hsplit]; exact h.packet) hTlen
    (by simp; omega), ⟨r, hpc⟩, ⟨H', T, hsplit, hTlen, ?_⟩, ?_, h.frame, h.text, h.words, h.keys, h.saved_le,
    h.saved_pos⟩
  · simp only [take_zero, servedBytes, zipIdx_nil, flatMap_nil, append_nil, length_nil,
      drop_zero]
  · simp only [length_append]
    omega

end

/-! ### From saved key to saved key -/

section

variable {ws : List Bytes} {i : ℕ} {s : XdpState}

def servedAt (kcacheAt : ℕ → KCache) (ws : List Bytes) (i : ℕ) : Bytes :=
  serveBytes (kcacheAt (ws.length + 2 + i)) ((savedKeys kcacheAt ws).getD i [])

/-- One more saved key is one more block behind what was served before. -/
theorem servedBytes_take_succ (kcacheAt : ℕ → KCache) (ws : List Bytes) {i : ℕ}
    (hi : i < (savedKeys kcacheAt ws).length) :
    servedBytes kcacheAt (ws.length + 2) ((savedKeys kcacheAt ws).take (i + 1))
      = servedBytes kcacheAt (ws.length + 2) ((savedKeys kcacheAt ws).take i) ++ servedAt kcacheAt ws i := by
  rw [take_add_one, getElem?_eq_getElem hi, Option.toList_some, servedBytes_snoc, length_take,
    Nat.min_eq_left hi.le, servedAt, getD_eq_getElem _ _ hi]

theorem WritePoint.record (h : WritePoint H F kcacheAt ws i s) :
    ∃ rec, s.keys.lookup i = some rec ∧ rec.Holds ((savedKeys kcacheAt ws).getD i []) ∧
      ((savedKeys kcacheAt ws).getD i []).length ≤ bmcMaxKeyLength := by
  have hget : (savedKeys kcacheAt ws)[i]? = some ((savedKeys kcacheAt ws).getD i []) := by
    rw [getElem?_eq_getElem h.index_lt, getD_eq_getElem _ _ h.index_lt]
  obtain ⟨rec, hrec, hholds⟩ := h.keys i _ hget
  exact ⟨rec, hrec, hholds, (h.words _ (savedKeys_subset kcacheAt ws _ (mem_of_getElem? hget))).length_le⟩

/-- The call up to the increment of `current_key`: as much of the block as fits is stored. -/
theorem WritePoint.key (h : WritePoint H F kcacheAt ws i s) :
    ∃ s₁ stats r, xdpExec kcacheAt (ws.length + 2 + i) .writeReply s =
        writeReplyNext s₁
          ⟨(savedKeys kcacheAt ws).length, i, r,
            (servedBytes kcacheAt (ws.length + 2) ((savedKeys kcacheAt ws).take i)).length⟩ stats
          (min (servedAt kcacheAt ws i).length s.ctx.packet.length) ∧
      s₁.ctx.head = s.ctx.head ∧
      s₁.ctx.packet = overwrite s.ctx.packet 0 ((servedAt kcacheAt ws i).take s.ctx.packet.length) ∧
      s₁.keys = s.keys := by
  obtain ⟨r, hpc⟩ := h.context
  obtain ⟨rec, hrec, hholds, hlen⟩ := h.record
  have hne : s.ctx.packet ≠ [] := by
    intro hnil
    have := h.room
    rw [hnil, length_nil] at this
    omega
  exact ⟨_, _, r, writeReply_key { s with kcache := kcacheAt (ws.length + 2 + i) } _ rec _ _ hpc hrec hholds
    hlen (ArrayMap.lookup_of_lt s.stats Nat.one_pos) hne, rfl, rfl, rfl⟩

theorem WritePoint.more (h : WritePoint H F kcacheAt ws i s) (hmore : i + 1 < (savedKeys kcacheAt ws).length)
    (hroom : (servedAt kcacheAt ws i).length + 14 ≤ s.ctx.packet.length) :
    ∃ s', xdpExec kcacheAt (ws.length + 2 + i) .writeReply s = (s', .tailCall .writeReply .drop) ∧
      WritePoint H F kcacheAt ws (i + 1) s' := by
  obtain ⟨s₁, stats, r, hex, hhead, hpkt, hkeys⟩ := h.key
  obtain ⟨H', T, hH, hT, hctx⟩ := h.packet
  have hserved := servedBytes_take_succ kcacheAt ws h.index_lt
  set W := servedBytes kcacheAt (ws.length + 2) ((savedKeys kcacheAt ws).take i) with hW
  set E := servedAt kcacheAt ws i with hE
  have hsmall : W.length + E.length < 65536 := by
    have hle := servedBytes_length_le kcacheAt (ws.length + 2) ((savedKeys kcacheAt ws).take (i + 1))
    rw [hserved, length_append, length_take] at hle
    have hcount := h.saved_le
    simp at hle hcount
    omega
  obtain ⟨pcm, hs, hpcm⟩ := writeReplyNext_more s₁ ⟨(savedKeys kcacheAt ws).length, i, r, W.length⟩ stats E
    s.ctx.packet hpkt hmore h.saved_le hroom hsmall
  refine ⟨_, hex.trans hs, ⟨r, ?_⟩, ⟨H', T, hH, hT, ?_⟩, ?_, h.frame, h.text, h.words, ?_,
    h.saved_le, hmore⟩
  · rw [hpcm, hserved, length_append]
  · rw [hserved, hhead, hctx]
    simp only [append_assoc, drop_drop, length_append]
  · simp only [length_drop]
    omega
  · simp only [hkeys]
    exact h.keys

theorem WritePoint.overflow (h : WritePoint H F kcacheAt ws i s) (hmore : i + 1 < (savedKeys kcacheAt ws).length)
    (hroom : s.ctx.packet.length < (servedAt kcacheAt ws i).length + 14) :
    ∃ s', xdpExec kcacheAt (ws.length + 2 + i) .writeReply s = (s', .ret .drop) := by
  obtain ⟨s₁, stats, r, hex, -, hpkt, -⟩ := h.key
  obtain ⟨s', hs⟩ := writeReplyNext_overflow s₁ ⟨(savedKeys kcacheAt ws).length, i, r, _⟩ stats
    _ s.ctx.packet hpkt
    hmore h.saved_le hroom
  exact ⟨s', hex.trans hs⟩

/-- Behind the last key, with something served and the closing line in place: the reply is transmitted. -/
theorem WritePoint.last (h : WritePoint H F kcacheAt ws i s) (hlast : i + 1 = (savedKeys kcacheAt ws).length)
    (hsome : servedBytes kcacheAt (ws.length + 2) (savedKeys kcacheAt ws) ≠ [])
    (hroom : (servedAt kcacheAt ws i).length + 5 ≤ s.ctx.packet.length) :
    ∃ s' H', xdpExec kcacheAt (ws.length + 2 + i) .writeReply s = (s', .ret .tx) ∧
      s'.ctx = ⟨H', fillHeaders (replyHeaders F)
          (servedBytes kcacheAt (ws.length + 2) (savedKeys kcacheAt ws) ++ endLine).length ++
        (servedBytes kcacheAt (ws.length + 2) (savedKeys kcacheAt ws) ++ endLine)⟩ := by
  obtain ⟨s₁, stats, r, hex, hhead, hpkt, -⟩ := h.key
  obtain ⟨H', T, -, -, hctx⟩ := h.packet
  have hserved := servedBytes_take_succ kcacheAt ws h.index_lt
  rw [hlast, take_length] at hserved
  rw [hserved] at hsome ⊢
  have hF := startsGetChain_length h.frame
  obtain ⟨pcm, hs⟩ := writeReplyNext_last s₁ ⟨(savedKeys kcacheAt ws).length, i, r, _⟩ stats H'
    (replyHeaders F)
    (servedBytes kcacheAt (ws.length + 2) ((savedKeys kcacheAt ws).take i)) (servedAt kcacheAt ws i) s.ctx.packet
    (by rw [hhead, hctx]) (replyHeaders_length F (by simp; omega)) rfl hpkt hlast h.saved_le hsome hroom
  exact ⟨_, H', hex.trans hs, rfl⟩

/-- Behind the last key, with something served but no room for the closing line. -/
theorem WritePoint.lastOverflow (h : WritePoint H F kcacheAt ws i s)
    (hlast : i + 1 = (savedKeys kcacheAt ws).length)
    (hsome : servedBytes kcacheAt (ws.length + 2) (savedKeys kcacheAt ws) ≠ [])
    (hroom : s.ctx.packet.length < (servedAt kcacheAt ws i).length + 5) :
    ∃ s', xdpExec kcacheAt (ws.length + 2 + i) .writeReply s = (s', .ret .drop) := by
  obtain ⟨s₁, stats, r, hex, -, hpkt, -⟩ := h.key
  have hserved := servedBytes_take_succ kcacheAt ws h.index_lt
  rw [hlast, take_length] at hserved
  have hsome' : 0 < (servedBytes kcacheAt (ws.length + 2) ((savedKeys kcacheAt ws).take i)).length ∨
      servedAt kcacheAt ws i ≠ [] := by
    by_contra hno
    simp only [not_or, not_lt, Nat.le_zero, length_eq_zero_iff, not_not] at hno
    rw [hserved, hno.1, hno.2] at hsome
    exact hsome rfl
  have hne : s.ctx.packet ≠ [] := by
    intro hnil
    have := h.room
    rw [hnil, length_nil] at this
    omega
  obtain ⟨s', hs⟩ := writeReplyNext_lastOverflow s₁ ⟨(savedKeys kcacheAt ws).length, i, r, _⟩
    stats _ s.ctx.packet
    hpkt hlast h.saved_le hsome' hne hroom
  exact ⟨s', hex.trans hs⟩

/-- Behind the last key with nothing served: the request, untouched, is passed. -/
theorem WritePoint.noHit (h : WritePoint H F kcacheAt ws i s) (hlast : i + 1 = (savedKeys kcacheAt ws).length)
    (hnone : servedBytes kcacheAt (ws.length + 2) (savedKeys kcacheAt ws) = []) :
    ∃ s', xdpExec kcacheAt (ws.length + 2 + i) .writeReply s = (s', .ret .pass) ∧ s'.ctx.packet = F := by
  obtain ⟨s₁, stats, r, hex, hhead, hpkt, -⟩ := h.key
  obtain ⟨H', T, -, hT, hctx⟩ := h.packet
  have hserved := servedBytes_take_succ kcacheAt ws h.index_lt
  rw [hlast, take_length, hnone] at hserved
  obtain ⟨hW, hE⟩ := append_eq_nil_iff.mp hserved.symm
  have hF := startsGetChain_length h.frame
  rw [hW, hE] at hex
  rw [hE, take_nil, overwrite_nil, hctx, hW] at hpkt
  simp only [length_nil, drop_zero, Nat.zero_min] at hex hpkt
  obtain ⟨pcm, st, hs⟩ := writeReplyNext_noHit s₁ ⟨(savedKeys kcacheAt ws).length, i, r, 0⟩ stats
    (T.drop sizeofHeaders) F hpkt (by rw [length_drop, hT]) (by omega) hlast h.saved_le rfl
  exact ⟨_, hex.trans hs, rfl⟩

end

end

end BmcCache
