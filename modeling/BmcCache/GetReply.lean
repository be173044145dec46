import BmcCache.GetChain
import BmcCache.Memcached

/-!
# The reply of a whole GET chain

`ChainPoint` collects what holds before every program of an ingress chain, and `ChainPoint.step` says once what a
program does from there: it returns, or it hands a point to the next program.  With the chain rule this gives, for
every frame, every content of the maps and every change of the cache between the programs, what a chain that ends in
`XDP_TX` has put into the packet.

* `replyText` — the text such a chain sends: for each saved key what its entry held when `bmc_write_reply` locked it,
  and the closing line;
* `runXdp_tx` — every transmitted packet carries exactly that text behind its headers;
* `runXdp_kcache_other` — only a TCP segment makes a chain write to the cache.
-/

namespace BmcCache

open ByteBuffer

section

variable (H F : Bytes) (kcacheAt : ℕ → KCache)

/-- What the programs from `bmc_write_reply` on have served when they are through with the request in `F`. -/
def replyBlocks : Bytes :=
  servedBytes kcacheAt ((requestWords (keyBytes F)).length + 2) (savedKeys kcacheAt (requestWords (keyBytes F)))

/-- The text of the reply: the served blocks and the closing line. -/
def replyText : Bytes := replyBlocks F kcacheAt ++ endLine

/-- A reply to the frame `F` has been put into the packet. -/
structure ReplySent (s : XdpState) : Prop where
  frame : StartsGetChain F
  words : ∀ w ∈ requestWords (keyBytes F), IsKeyWord w
  packet : s.ctx.packet = fillHeaders (replyHeaders F) (replyText F kcacheAt).length ++ replyText F kcacheAt
  saved_le : (savedKeys kcacheAt (requestWords (keyBytes F))).length ≤ bmcMaxKeyInPacket
  served : replyBlocks F kcacheAt ≠ []
  fits : (replyText F kcacheAt).length + sizeofHeaders ≤ adjustHeadLen + F.length

/-- What holds when `p` is entered as the `n`-th program of the chain. -/
def ChainPoint (n : ℕ) : XdpProg → XdpState → Prop
  | .rxFilter, s => n = 0 ∧ s.ctx = ⟨H, F⟩
  | .hashKeys, s => ∃ ws, n = ws.length + 1 ∧ StartsGetChain F ∧ HashPoint H F kcacheAt ws s
  | .preparePacket, s => ∃ ws, n = ws.length + 1 ∧ PreparePoint H F kcacheAt ws s
  | .writeReply, s => ∃ ws i, n = ws.length + 2 + i ∧ WritePoint H F kcacheAt ws i s
  | .invalidateCache, s => n = 1 ∧ IsTcpFrame F ∧ s.ctx = ⟨H, F⟩

/-- How a program that was entered at a point ends: it returns, with a reply in the packet if the verdict is
`XDP_TX`, or it calls the next program at its point. -/
def PointOutcome (n : ℕ) : XdpState × XdpOutcome → Prop
  | (s', .ret v) => v = .tx → ReplySent F kcacheAt s'
  | (s', .tailCall q v) => v ≠ .tx ∧ ChainPoint H F kcacheAt (n + 1) q s'

end

section

variable {H F : Bytes} {kcacheAt : ℕ → KCache} {ws : List Bytes} {i n : ℕ} {s : XdpState}

/-- **The ways a call of `bmc_hash_keys` ends**: it passes the packet, or its word was the last one or not the last one
of the request. -/
theorem HashPoint.cases (h : HashPoint H F kcacheAt ws s) (hF : StartsGetChain F)
    (hn : ws.length + 1 ≤ maxTailCallCnt) :
    (∃ s', xdpExec kcacheAt (ws.length + 1) .hashKeys s = (s', .ret .pass)) ∨
    (xdpExec kcacheAt (ws.length + 1) .hashKeys s).1.stats =
        (if keyHit (kcacheAt (ws.length + 1)) (nextWord s.ctx.packet) then s.stats else countMiss s.stats) ∧
      ((∃ s', xdpExec kcacheAt (ws.length + 1) .hashKeys s = (s', .tailCall .preparePacket .pass) ∧
          PreparePoint H F kcacheAt (ws ++ [nextWord s.ctx.packet]) s') ∨
        ∃ s', xdpExec kcacheAt (ws.length + 1) .hashKeys s = (s', .tailCall .hashKeys .pass) ∧
          HashPoint H F kcacheAt (ws ++ [nextWord s.ctx.packet]) s') := by
  rcases Nat.lt_or_ge (savedKeys kcacheAt ws).length bmcMaxKeyInPacket with hlt | hge
  · by_cases hw : nextWord s.ctx.packet = [] ∨ bmcMaxKeyLength < (nextWord s.ctx.packet).length
    · obtain ⟨s', hex, -⟩ := h.unexpected (ws.length + 1) hlt hw
      exact .inl ⟨s', hex⟩
    · rw [not_or, not_lt] at hw
      obtain ⟨hne, hle⟩ := hw
      have hstats := h.stats hlt hne hle
      by_cases hcr : s.ctx.packet[(nextWord s.ctx.packet).length]? = some cr
      · obtain ⟨s', -, hnone, hsome⟩ := h.last hF hlt hne hle hcr
        by_cases hsaved : savedKeys kcacheAt (ws ++ [nextWord s.ctx.packet]) = []
        · exact .inl ⟨s', hnone hsaved⟩
        · exact .inr ⟨hstats, .inl ⟨s', hsome hsaved⟩⟩
      · rcases Nat.lt_or_ge s.ctx.packet.length ((nextWord s.ctx.packet).length + 1 + 14) with hshort | hroom
        · obtain ⟨s', hex, -⟩ := h.short hlt hne hle hcr hshort
          exact .inl ⟨s', hex⟩
        · obtain ⟨s', hex, hpoint, -⟩ := h.more hlt hne hle hcr hroom (by omega)
          exact .inr ⟨hstats, .inr ⟨s', hex, hpoint⟩⟩
  · exact .inl ⟨_, h.full _ (Nat.le_antisymm h.saved_le hge)⟩

theorem HashPoint.outcome (h : HashPoint H F kcacheAt ws s) (hF : StartsGetChain F)
    (hn : ws.length + 1 ≤ maxTailCallCnt) :
    PointOutcome H F kcacheAt (ws.length + 1) (xdpExec kcacheAt (ws.length + 1) .hashKeys s) := by
  rcases h.cases hF hn with ⟨s', hex⟩ | ⟨-, ⟨s', hex, hpoint⟩ | ⟨s', hex, hpoint⟩⟩
  · simp [hex, PointOutcome]
  · rw [hex]
    exact ⟨by simp, _, by simp, hpoint⟩
  · rw [hex]
    exact ⟨by simp, _, by simp, hF, hpoint⟩

theorem PreparePoint.outcome (h : PreparePoint H F kcacheAt ws s) :
    PointOutcome H F kcacheAt (ws.length + 1) (xdpExec kcacheAt (ws.length + 1) .preparePacket s) := by
  rcases Nat.lt_or_ge H.length adjustHeadLen with hH | hH
  · simp [h.noRoom _ hH, PointOutcome]
  · obtain ⟨s', hex, hpoint⟩ := h.ok (ws.length + 1) hH
    rw [hex]
    exact ⟨by simp, ws, 0, rfl, hpoint⟩

/-- The reply is in the packet when the last call of `bmc_write_reply` transmits. -/
theorem WritePoint.replySent (h : WritePoint H F kcacheAt ws i s) (hlast : i + 1 = (savedKeys kcacheAt ws).length)
    (hsome : servedBytes kcacheAt (ws.length + 2) (savedKeys kcacheAt ws) ≠ [])
    (hroom : (servedAt kcacheAt ws i).length + 5 ≤ s.ctx.packet.length) :
    ∃ s', xdpExec kcacheAt (ws.length + 2 + i) .writeReply s = (s', .ret .tx) ∧ ReplySent F kcacheAt s' := by
  obtain ⟨s', H', hex, hctx⟩ := h.last hlast hsome hroom
  obtain ⟨_, T, -, hT, hpkt⟩ := h.packet
  have hserved := servedBytes_take_succ kcacheAt ws h.index_lt
  rw [hlast, List.take_length] at hserved
  have hblocks : replyBlocks F kcacheAt = servedBytes kcacheAt (ws.length + 2) (savedKeys kcacheAt ws) := by
    rw [replyBlocks, h.text]
  refine ⟨s', hex, h.frame, by rw [h.text]; exact h.words, ?_, by rw [h.text]; exact h.saved_le, ?_, ?_⟩
  · rw [hctx, replyText, hblocks]
  · rw [hblocks]; exact hsome
  · rw [hpkt, List.length_drop, List.length_append, List.length_drop, hT] at hroom
    rw [replyText, hblocks, hserved, List.length_append, List.length_append, show endLine.length = 5 from rfl]
    simp at hroom ⊢
    omega

/-- **The ways a call of `bmc_write_reply` ends**: on to the next saved key, a dropped packet, the untouched request,
or the reply. -/
theorem WritePoint.cases (h : WritePoint H F kcacheAt ws i s) :
    (∃ s', xdpExec kcacheAt (ws.length + 2 + i) .writeReply s = (s', .tailCall .writeReply .drop) ∧
      WritePoint H F kcacheAt ws (i + 1) s') ∨
    (∃ s', xdpExec kcacheAt (ws.length + 2 + i) .writeReply s = (s', .ret .drop)) ∨
    (∃ s', xdpExec kcacheAt (ws.length + 2 + i) .writeReply s = (s', .ret .pass) ∧ s'.ctx.packet = F) ∨
    (∃ s', xdpExec kcacheAt (ws.length + 2 + i) .writeReply s = (s', .ret .tx) ∧ ReplySent F kcacheAt s') := by
  rcases Nat.lt_or_ge (i + 1) (savedKeys kcacheAt ws).length with hmore | hge
  · rcases Nat.lt_or_ge s.ctx.packet.length ((servedAt kcacheAt ws i).length + 14) with hover | hroom
    · exact Or.inr (Or.inl (h.overflow hmore hover))
    · exact Or.inl (h.more hmore hroom)
  · have hlast : i + 1 = (savedKeys kcacheAt ws).length := Nat.le_antisymm h.index_lt hge
    by_cases hnone : servedBytes kcacheAt (ws.length + 2) (savedKeys kcacheAt ws) = []
    · exact Or.inr (Or.inr (Or.inl (h.noHit hlast hnone)))
    · rcases Nat.lt_or_ge s.ctx.packet.length ((servedAt kcacheAt ws i).length + 5) with hover | hroom
      · exact Or.inr (Or.inl (h.lastOverflow hlast hnone hover))
      · exact Or.inr (Or.inr (Or.inr (h.replySent hlast hnone hroom)))

theorem WritePoint.outcome (h : WritePoint H F kcacheAt ws i s) :
    PointOutcome H F kcacheAt (ws.length + 2 + i) (xdpExec kcacheAt (ws.length + 2 + i) .writeReply s) := by
  rcases h.cases with ⟨s', hex, hpoint⟩ | ⟨s', hex⟩ | ⟨s', hex, -⟩ | ⟨s', hex, hsent⟩
  · rw [hex]
    exact ⟨by simp, ws, i + 1, by omega, hpoint⟩
  · simp [hex, PointOutcome]
  · simp [hex, PointOutcome]
  · rw [hex]
    exact fun _ => hsent

/-- **Every program of the chain** ends in one of the two ways. -/
theorem ChainPoint.step {p : XdpProg} (h : ChainPoint H F kcacheAt n p s) (hn : n ≤ maxTailCallCnt) :
    PointOutcome H F kcacheAt n (xdpExec kcacheAt n p s) := by
  cases p with
  | rxFilter =>
    obtain ⟨rfl, hctx⟩ := h
    by_cases hF : StartsGetChain F
    · obtain ⟨s', hex, hpoint⟩ := xdp_rxFilter_get kcacheAt s hctx hF
      rw [hex]
      exact ⟨by simp, [], rfl, hF, hpoint⟩
    · obtain ⟨s', o, hex, hctx', -, -, rfl | ⟨htcp, rfl⟩⟩ := xdp_rxFilter_other kcacheAt s hctx hF
      · simp [hex, PointOutcome]
      · rw [hex]
        exact ⟨by simp, rfl, htcp, hctx'⟩
  | hashKeys =>
    obtain ⟨ws, rfl, hF, hpoint⟩ := h
    exact hpoint.outcome hF hn
  | preparePacket =>
    obtain ⟨ws, rfl, hpoint⟩ := h
    exact hpoint.outcome
  | writeReply =>
    obtain ⟨ws, i, rfl, hpoint⟩ := h
    exact hpoint.outcome
  | invalidateCache =>
    obtain ⟨s', hex, -⟩ := xdp_invalidateCache kcacheAt n s
    simp [hex, PointOutcome]

/-! ### Who calls whom -/

section

variable {s' : XdpState} {q : XdpProg} {v : XdpAction}

/-- The filter calls `bmc_hash_keys` on a GET frame and `bmc_invalidate_cache` on a TCP segment. -/
theorem rxFilter_calls (hctx : s.ctx = ⟨H, F⟩) (hex : xdpExec kcacheAt 0 .rxFilter s = (s', .tailCall q v)) :
    (q = .hashKeys ∧ StartsGetChain F ∧ HashPoint H F kcacheAt [] s') ∨
    (q = .invalidateCache ∧ IsTcpFrame F) := by
  by_cases hF : StartsGetChain F
  · obtain ⟨t, hget, hpoint⟩ := xdp_rxFilter_get kcacheAt s hctx hF
    cases hget.symm.trans hex
    exact .inl ⟨rfl, hF, hpoint⟩
  · obtain ⟨t, o, hother, -, -, -, rfl | ⟨htcp, rfl⟩⟩ := xdp_rxFilter_other kcacheAt s hctx hF
    · cases hother.symm.trans hex
    · cases hother.symm.trans hex
      exact .inr ⟨rfl, htcp⟩

/-- `bmc_hash_keys` calls itself for the next word, or `bmc_prepare_packet` behind the last one. -/
theorem HashPoint.calls (h : HashPoint H F kcacheAt ws s) (hF : StartsGetChain F)
    (hn : ws.length + 1 ≤ maxTailCallCnt)
    (hex : xdpExec kcacheAt (ws.length + 1) .hashKeys s = (s', .tailCall q v)) :
    s'.stats = (if keyHit (kcacheAt (ws.length + 1)) (nextWord s.ctx.packet) then s.stats else countMiss s.stats) ∧
      ((q = .preparePacket ∧ PreparePoint H F kcacheAt (ws ++ [nextWord s.ctx.packet]) s') ∨
        (q = .hashKeys ∧ HashPoint H F kcacheAt (ws ++ [nextWord s.ctx.packet]) s')) := by
  rcases h.cases hF hn with ⟨t, hpass⟩ | ⟨hstats, ⟨t, hlast, hprepare⟩ | ⟨t, hmore, hnext⟩⟩
  · cases hpass.symm.trans hex
  · cases hlast.symm.trans hex
    rw [hlast] at hstats
    exact ⟨hstats, .inl ⟨rfl, hprepare⟩⟩
  · cases hmore.symm.trans hex
    rw [hmore] at hstats
    exact ⟨hstats, .inr ⟨rfl, hnext⟩⟩

/-- `bmc_prepare_packet` calls `bmc_write_reply` for the first saved key. -/
theorem PreparePoint.calls (h : PreparePoint H F kcacheAt ws s)
    (hex : xdpExec kcacheAt n .preparePacket s = (s', .tailCall q v)) :
    q = .writeReply ∧ WritePoint H F kcacheAt ws 0 s' := by
  rcases Nat.lt_or_ge H.length adjustHeadLen with hH | hH
  · cases (h.noRoom _ hH).symm.trans hex
  · obtain ⟨t, hok, hwrite⟩ := h.ok n hH
    cases hok.symm.trans hex
    exact ⟨rfl, hwrite⟩

theorem WritePoint.calls (h : WritePoint H F kcacheAt ws i s)
    (hex : xdpExec kcacheAt (ws.length + 2 + i) .writeReply s = (s', .tailCall q v)) :
    q = .writeReply ∧ WritePoint H F kcacheAt ws (i + 1) s' := by
  rcases h.cases with ⟨t, hmore, hnext⟩ | ⟨t, hret⟩ | ⟨t, hret, -⟩ | ⟨t, hret, -⟩
  · cases hmore.symm.trans hex
    exact ⟨rfl, hnext⟩
  · cases hret.symm.trans hex
  · cases hret.symm.trans hex
  · cases hret.symm.trans hex

theorem invalidateCache_calls (hex : xdpExec kcacheAt n .invalidateCache s = (s', .tailCall q v)) : False := by
  obtain ⟨t, hret, -⟩ := xdp_invalidateCache kcacheAt n s
  cases hret.symm.trans hex

end

end

variable (loaded : XdpProg → Bool) (kcacheAt : ℕ → KCache) (s : XdpState)

/-- **A transmitted packet carries the reply**, whatever the frame, the maps and the other CPUs were. -/
theorem runXdp_tx
    (h : (runXdp loaded kcacheAt s).2 = .tx) : ReplySent s.ctx.packet kcacheAt (runXdp loaded kcacheAt s).1 := by
  have hpost := TailChain.run_post (xdpExec kcacheAt) loaded maxTailCallCnt
    (ChainPoint s.ctx.head s.ctx.packet kcacheAt) (fun s' v => v = .tx → ReplySent s.ctx.packet kcacheAt s')
    (by
      intro n p t t' v hn hI hex
      have := hI.step hn
      rwa [hex] at this)
    (by
      intro n p t t' q v hn hI hex
      have := hI.step hn
      rw [hex] at this
      exact fun hv => absurd hv this.1)
    (by
      intro n p t t' q v hn hI hex
      have := hI.step hn.le
      rw [hex] at this
      exact this.2)
    maxTailCallCnt 0 .rxFilter s (by omega) ⟨rfl, rfl⟩
  exact hpost h

theorem ReplySent.headers_length {F : Bytes} {kcacheAt : ℕ → KCache} {s : XdpState}
    (h : ReplySent F kcacheAt s) (n : ℕ) :
    (replyHeaders F).length = sizeofHeaders ∧ (fillHeaders (replyHeaders F) n).length = sizeofHeaders := by
  have hlen := startsGetChain_length h.frame
  have hhdr := replyHeaders_length F (by simp; omega)
  exact ⟨hhdr, (fillHeaders_append (replyHeaders F) [] n (by rw [hhdr]; decide)).1.trans hhdr⟩

theorem ReplySent.drop_headers {F : Bytes} {kcacheAt : ℕ → KCache} {s : XdpState}
    (h : ReplySent F kcacheAt s) : s.ctx.packet.drop sizeofHeaders = replyText F kcacheAt := by
  rw [h.packet, List.drop_left' (h.headers_length _).2]

theorem ReplySent.text_lt {F : Bytes} {kcacheAt : ℕ → KCache} {s : XdpState} (h : ReplySent F kcacheAt s) :
    36 + (replyText F kcacheAt).length < 65536 := by
  have hle := servedBytes_length_le kcacheAt ((requestWords (keyBytes F)).length + 2)
    (savedKeys kcacheAt (requestWords (keyBytes F)))
  have hcount : (savedKeys kcacheAt (requestWords (keyBytes F))).length ≤ 30 := h.saved_le
  rw [replyText, replyBlocks, List.length_append, show endLine.length = 5 from rfl]
  simp at hle
  omega

/-- **Content of a kernel reply.**  Behind the memcached header stands, in request order and one per saved key, the
whole stored text of the key's entry if that entry was a hit when `bmc_write_reply` locked it, and then the closing
line and nothing more; at least one byte comes from an entry, and everything fits into the enlarged packet. -/
theorem tx_payload_exact (loaded : XdpProg → Bool) (kcacheAt : ℕ → KCache) (s : XdpState)
    (h : (runXdp loaded kcacheAt s).2 = .tx) :
    let s' := (runXdp loaded kcacheAt s).1
    let ws := requestWords (keyBytes s.ctx.packet)
    let blocks := ((savedKeys kcacheAt ws).zipIdx (ws.length + 2)).flatMap fun p =>
      let entry := (kcacheAt p.2).entryAt (fnv1a p.1)
      if entry.holdsHash (fnv1a p.1) ∧ (entry.data.drop 6).take p.1.length = p.1 then entry.stored else []
    s'.ctx.packet.drop sizeofHeaders = blocks ++ endLine ∧ blocks ≠ [] ∧
      be16At s'.ctx.packet 38 = sizeofUdphdr + sizeofMemcachedUdpHeader + (blocks ++ endLine).length ∧
      (blocks ++ endLine).length + sizeofHeaders ≤ adjustHeadLen + s.ctx.packet.length := by
  intro s' ws blocks
  have hsent : ReplySent s.ctx.packet kcacheAt s' := runXdp_tx loaded kcacheAt s h
  have hblocks : replyBlocks s.ctx.packet kcacheAt = blocks := by
    simp only [replyBlocks, servedBytes, serveBytes, serveHit, Bool.and_eq_true, decide_eq_true_eq, blocks, ws]
  have htext : replyText s.ctx.packet kcacheAt = blocks ++ endLine := by rw [replyText, hblocks]
  obtain ⟨hhdr, hfill⟩ := hsent.headers_length (blocks ++ endLine).length
  have hpkt := hsent.packet
  rw [htext] at hpkt
  refine ⟨by rw [← htext]; exact hsent.drop_headers, hblocks ▸ hsent.served, ?_,
    by rw [← htext]; exact hsent.fits⟩
  · have hsmall : 16 + (blocks ++ endLine).length < 65536 := by
      have hlt := hsent.text_lt
      rw [htext] at hlt
      omega
    have hfield := be16At_of_slice (slice_fillHeaders (replyHeaders s.ctx.packet) (blocks ++ endLine).length
      (by rw [hhdr]; decide)).2.1 hsmall
    have hget : ∀ j, j < 50 → s'.ctx.packet.getD j 0
        = (fillHeaders (replyHeaders s.ctx.packet) (blocks ++ endLine).length).getD j 0 := by
      intro j hj
      rw [hpkt, List.getD_append _ _ _ _ (by rw [hfill]; exact hj)]
    rw [be16At, hget 38 (by omega), hget 39 (by omega)]
    exact hfield

/-- A GET of a cached key: the chain transmits, and the theorem says what. -/
theorem tx_payload_exact_hit :
    let kc := updateKCache KCache.zeroed
      (valueBlock [97, 98, 99, 100, 101, 102, 103, 104, 105, 106, 107, 108] [48] [120] ++ endLine)
    let s := XdpState.received kc
      (udpFrame (getWord ++ [97, 98, 99, 100, 101, 102, 103, 104, 105, 106, 107, 108] ++ crlf))
    let s' := (runXdp (fun _ => true) (fun _ => kc) s).1
    (runXdp (fun _ => true) (fun _ => kc) s).2 = .tx ∧
      be16At s'.ctx.packet 38 =
        sizeofUdphdr + sizeofMemcachedUdpHeader + (s'.ctx.packet.drop sizeofHeaders).length := by
  intro kc s s'
  have htx : (runXdp (fun _ => true) (fun _ => kc) s).2 = .tx := by decide +kernel
  obtain ⟨hpay, -, hlen, -⟩ := tx_payload_exact (fun _ => true) (fun _ => kc) s htx
  exact ⟨htx, by rw [hlen, hpay]⟩

/-! ### What a chain does to the cache -/

theorem hashKeysNext_kcache (pc : ParsingContext) (scan : KeyScan) :
    (hashKeysNext s pc scan).1.kcache = s.kcache := by
  unfold hashKeysNext
  split
  · simp only
    split <;> rfl
  · simp only
    split <;> rfl

theorem bmcHashKeysMain_kcache : (bmcHashKeysMain s).1.kcache = s.kcache := by
  unfold bmcHashKeysMain
  simp only
  repeat' split
  all_goals first | rfl | exact hashKeysNext_kcache _ _ _

theorem bmcPreparePacketMain_kcache : (bmcPreparePacketMain s).1.kcache = s.kcache := by
  unfold bmcPreparePacketMain
  simp only
  repeat' split
  all_goals rfl

theorem finishReply_kcache (writePktOffset written : ℕ) :
    (finishReply s writePktOffset written).1.kcache = s.kcache := by
  unfold finishReply
  simp only
  repeat' split
  all_goals rfl

theorem writeReplyNext_kcache (pc : ParsingContext) (stats : BmcStats) (written : ℕ) :
    (writeReplyNext s pc stats written).1.kcache = s.kcache := by
  unfold writeReplyNext
  simp only
  repeat' split
  all_goals first | rfl | exact finishReply_kcache _ _ _

theorem bmcWriteReplyMain_kcache : (bmcWriteReplyMain s).1.kcache = s.kcache := by
  unfold bmcWriteReplyMain
  simp only
  split
  · rfl
  · split
    · rfl
    · split
      · rfl
      · split
        · rfl
        · simp only [ArrayMap.lookup_of_lt s.stats Nat.one_pos]
          exact writeReplyNext_kcache _ _ _ _

/-- Of the programs of the chain only `bmc_invalidate_cache` writes to the cache. -/
theorem xdpExec_kcache (n : ℕ) (p : XdpProg) (s : XdpState) (hp : p ≠ .invalidateCache) :
    (xdpExec kcacheAt n p s).1.kcache = kcacheAt n := by
  cases p with
  | rxFilter =>
    by_cases h : StartsGetChain s.ctx.packet
    · obtain ⟨stats, pc, hrx, -⟩ := rxFilter_get { s with kcache := kcacheAt n } h
      simp only [xdpExec, hrx]
    · obtain ⟨stats, pc, o, hrx, -⟩ := rxFilter_other { s with kcache := kcacheAt n } h
      simp only [xdpExec, hrx]
  | hashKeys => exact bmcHashKeysMain_kcache _
  | preparePacket => exact bmcPreparePacketMain_kcache _
  | writeReply => exact bmcWriteReplyMain_kcache _
  | invalidateCache => exact absurd rfl hp

/-- A chain that does not start with a TCP segment to the server leaves the cache as the others left it. -/
theorem runXdp_kcache_other
    (h : ¬ IsTcpFrame s.ctx.packet) : ∃ n, (runXdp loaded kcacheAt s).1.kcache = kcacheAt n := by
  have hp : ∀ n p t, ChainPoint s.ctx.head s.ctx.packet kcacheAt n p t → p ≠ .invalidateCache := by
    intro n p t hI heq
    subst heq
    exact h hI.2.1
  have hkeep : ∀ n p t t' o, ChainPoint s.ctx.head s.ctx.packet kcacheAt n p t →
    xdpExec kcacheAt n p t = (t', o) →
      ∃ n, t'.kcache = kcacheAt n := by
    intro n p t t' o hI hex
    exact ⟨n, by rw [← xdpExec_kcache kcacheAt n p t (hp n p t hI), hex]⟩
  exact TailChain.run_post (xdpExec kcacheAt) loaded maxTailCallCnt
    (ChainPoint s.ctx.head s.ctx.packet kcacheAt) (fun t' _ => ∃ n, t'.kcache = kcacheAt n)
    (fun n p t t' v _ hI hex => hkeep n p t t' _ hI hex) (fun n p t t' q v _ hI hex => hkeep n p t t' _ hI hex)
    (by
      intro n p t t' q v hn hI hex
      have := hI.step hn.le
      rw [hex] at this
      exact this.2)
    maxTailCallCnt 0 .rxFilter s (by omega) ⟨rfl, rfl⟩

/-- **A TCP segment** passes, and the entries of the keys scanned from it are invalidated. -/
theorem runXdp_tcp (h : IsTcpFrame s.ctx.packet) (hloaded : loaded .invalidateCache = true) :
    (runXdp loaded kcacheAt s).2 = .pass ∧ (runXdp loaded kcacheAt s).1.kcache =
      invalidateKeys (kcacheAt 1) (scanKeys .search 0 (scannedBytes s.ctx.packet)) := by
  have hrx : xdpExec kcacheAt 0 .rxFilter s = ({ s with kcache := kcacheAt 0 }, .tailCall .invalidateCache .pass) :=
    rxFilter_tcp { s with kcache := kcacheAt 0 } h
  obtain ⟨s', hinv, -, hkc⟩ := xdp_invalidateCache kcacheAt 1 { s with kcache := kcacheAt 0 }
  have hrun : runXdp loaded kcacheAt s = (s', .pass) :=
    (TailChain.run_tailCall hrx hloaded).trans (TailChain.run_ret hinv)
  rw [hrun]
  exact ⟨rfl, hkc⟩

end BmcCache
