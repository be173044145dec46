import BmcCache.EntryInvariant
import BmcCache.PassTransparent

/-!
# When a GET is dropped

Once `bmc_write_reply` has started to overwrite the packet there is no way back: when what it serves does not fit, or
when no tail call is left for the next saved key, the packet is dropped and the request with it.  This file determines
exactly when that happens.

* `LastKey`, `ReplyBegins` — the requests for which `bmc_write_reply` is called at all;
* `ReplyFits` — the two bounds: the space behind the copied headers, which is the length of the frame and 78 bytes,
  and the 33 tail calls, of which the chain spends one on each requested and one on each saved key;
* `get_not_dropped_iff` — every request is answered or passed exactly when the bounds hold, whatever the cache was
  and however it changed;
* `get_dropped` — one key, whose entry is larger than the space.
-/

namespace BmcCache

open ByteBuffer

section

variable (kcacheAt : ℕ → KCache)

/-- The word `rest` starts with is the last key of the request, its call happens and finds a free record, some key of
the request has been saved, and a tail call is left for `bmc_prepare_packet`. -/
structure LastKey (ws : List Bytes) (rest : Bytes) : Prop where
  ends : EndsRequest rest
  room : 14 ≤ rest.length
  count : ws.length + 1 < maxTailCallCnt
  saved : (savedKeys kcacheAt ws).length < bmcMaxKeyInPacket
  hits : savedKeys kcacheAt (ws ++ [nextWord rest]) ≠ []

/-- The chain on the frame `F` gets as far as `bmc_write_reply`: the request is read to its last key, and a tail call
is left behind `bmc_prepare_packet`. -/
def ReplyBegins (F : Bytes) : Prop :=
  StartsGetChain F ∧ ReadsTo (LastKey kcacheAt) [] (keyBytes F) ∧
    (requestWords (keyBytes F)).length + 1 < maxTailCallCnt

/-- The bytes `bmc_write_reply` may fill: the frame, and what is left of the headroom behind the copied headers. -/
def replySpace (F : Bytes) : ℕ := adjustHeadLen - sizeofHeaders + F.length

/-- The number of bytes served for the first `i` saved keys of the words `ws`. -/
def servedLength (ws : List Bytes) (i : ℕ) : ℕ :=
  (servedBytes kcacheAt (ws.length + 2) ((savedKeys kcacheAt ws).take i)).length

/-- What is served from the `i`-th saved key on fits: behind each key but the last 14 bytes remain, behind the last
the closing line has its place, and there is a tail call for every saved key. -/
structure FitsFrom (F : Bytes) (ws : List Bytes) (i : ℕ) : Prop where
  more : ∀ j, i ≤ j → j + 1 < (savedKeys kcacheAt ws).length →
    servedLength kcacheAt ws (j + 1) + 14 ≤ replySpace F
  last : servedBytes kcacheAt (ws.length + 2) (savedKeys kcacheAt ws) ≠ [] →
    (servedBytes kcacheAt (ws.length + 2) (savedKeys kcacheAt ws)).length + 5 ≤ replySpace F
  calls : ws.length + (savedKeys kcacheAt ws).length < maxTailCallCnt

/-- **The bounds on a reply.**  What is served for all saved keys but the last leaves 14 bytes, the whole reply with
its closing line fits, and requested and saved keys together are at most 32. -/
structure ReplyFits (F : Bytes) : Prop where
  more : 1 < (savedKeys kcacheAt (requestWords (keyBytes F))).length →
    servedLength kcacheAt (requestWords (keyBytes F))
      ((savedKeys kcacheAt (requestWords (keyBytes F))).length - 1) + 14 ≤ replySpace F
  last : replyBlocks F kcacheAt ≠ [] → (replyText F kcacheAt).length ≤ replySpace F
  calls : (requestWords (keyBytes F)).length + (savedKeys kcacheAt (requestWords (keyBytes F))).length
    < maxTailCallCnt

end

section

variable {H F : Bytes} {kcacheAt : ℕ → KCache} {ws : List Bytes} {i : ℕ} {s : XdpState}

/-! ### From saved key to saved key -/

theorem servedLength_succ (kcacheAt : ℕ → KCache) (ws : List Bytes) {i : ℕ}
    (hi : i < (savedKeys kcacheAt ws).length) :
    servedLength kcacheAt ws (i + 1) = servedLength kcacheAt ws i + (servedAt kcacheAt ws i).length := by
  rw [servedLength, servedBytes_take_succ kcacheAt ws hi, List.length_append]
  rfl

theorem servedLength_all (kcacheAt : ℕ → KCache) (ws : List Bytes) :
    servedLength kcacheAt ws (savedKeys kcacheAt ws).length =
      (servedBytes kcacheAt (ws.length + 2) (savedKeys kcacheAt ws)).length := by
  rw [servedLength, List.take_length]

theorem servedLength_mono (kcacheAt : ℕ → KCache) (ws : List Bytes) {i j : ℕ} (hij : i ≤ j)
    (hj : j ≤ (savedKeys kcacheAt ws).length) : servedLength kcacheAt ws i ≤ servedLength kcacheAt ws j := by
  induction j with
  | zero => rw [show i = 0 from by omega]
  | succ j ih =>
    rcases Nat.eq_or_lt_of_le hij with rfl | hlt
    · exact le_rfl
    · rw [servedLength_succ kcacheAt ws (by omega)]
      have := ih (by omega) (by omega)
      omega

theorem WritePoint.packet_length (h : WritePoint H F kcacheAt ws i s) :
    s.ctx.packet.length = replySpace F - servedLength kcacheAt ws i := by
  obtain ⟨H', T, -, hT, hctx⟩ := h.packet
  rw [hctx, List.length_drop, List.length_append, List.length_drop, hT, replySpace, servedLength]

theorem WritePoint.last_not_dropped_iff (h : WritePoint H F kcacheAt ws i s) (budget : ℕ)
    (hb : ws.length + 2 + i + budget = maxTailCallCnt) (hlast : i + 1 = (savedKeys kcacheAt ws).length) :
    (TailChain.run (xdpExec kcacheAt) (fun _ => true) budget (ws.length + 2 + i) .writeReply s).2 ≠ .drop ↔
      FitsFrom kcacheAt F ws i := by
  have hcalls : ws.length + (savedKeys kcacheAt ws).length < maxTailCallCnt := by omega
  have hlen := h.packet_length
  have hroom := h.room
  have hall := servedLength_succ kcacheAt ws h.index_lt
  rw [hlast, servedLength_all] at hall
  by_cases hnone : servedBytes kcacheAt (ws.length + 2) (savedKeys kcacheAt ws) = []
  · obtain ⟨s', hex, -⟩ := h.noHit hlast hnone
    rw [TailChain.run_ret hex]
    exact ⟨fun _ => ⟨fun j hj hk => by omega, fun hne => absurd hnone hne, hcalls⟩, fun _ => by simp⟩
  · rcases Nat.lt_or_ge s.ctx.packet.length ((servedAt kcacheAt ws i).length + 5) with hover | hfit
    · obtain ⟨s', hex⟩ := h.lastOverflow hlast hnone hover
      rw [TailChain.run_ret hex]
      refine ⟨fun hd => absurd rfl hd, fun hf => ?_⟩
      have := hf.last hnone
      omega
    · obtain ⟨s', -, hex, -⟩ := h.last hlast hnone hfit
      rw [TailChain.run_ret hex]
      exact ⟨fun _ => ⟨fun j hj hk => by omega, fun _ => by omega, hcalls⟩, fun _ => by simp⟩

/-- **From a saved key on.**  The induction is on the tail calls that are left. -/
theorem WritePoint.not_dropped_iff (h : WritePoint H F kcacheAt ws i s) (budget : ℕ)
    (hb : ws.length + 2 + i + budget = maxTailCallCnt) :
    (TailChain.run (xdpExec kcacheAt) (fun _ => true) budget (ws.length + 2 + i) .writeReply s).2 ≠ .drop ↔
      FitsFrom kcacheAt F ws i := by
  induction budget generalizing i s with
  | zero =>
    rcases Nat.lt_or_ge (i + 1) (savedKeys kcacheAt ws).length with hmore | hge
    · -- no tail call is left for the next key, so it does not matter whether this one fits
      have hno : ¬ FitsFrom kcacheAt F ws i := fun hf => by have := hf.calls; omega
      have hdrop : (TailChain.run (xdpExec kcacheAt) (fun _ => true) 0 (ws.length + 2 + i) .writeReply s).2
          = .drop := by
        rcases Nat.lt_or_ge s.ctx.packet.length ((servedAt kcacheAt ws i).length + 14) with hover | hfit
        · obtain ⟨s', hex⟩ := h.overflow hmore hover
          rw [TailChain.run_ret hex]
        · obtain ⟨s', hex, -⟩ := h.more hmore hfit
          rw [TailChain.run_fallThrough hex (Or.inl rfl)]
      exact ⟨fun hd => absurd hdrop hd, fun hf => absurd hf hno⟩
    · exact h.last_not_dropped_iff 0 hb (Nat.le_antisymm h.index_lt hge)
  | succ budget ih =>
    rcases Nat.lt_or_ge (i + 1) (savedKeys kcacheAt ws).length with hmore | hge
    · have hlen := h.packet_length
      have hroom := h.room
      have hsucc := servedLength_succ kcacheAt ws h.index_lt
      rcases Nat.lt_or_ge s.ctx.packet.length ((servedAt kcacheAt ws i).length + 14) with hover | hfit
      · obtain ⟨s', hex⟩ := h.overflow hmore hover
        rw [TailChain.run_ret hex]
        refine ⟨fun hd => absurd rfl hd, fun hf => ?_⟩
        have := hf.more i le_rfl hmore
        omega
      · obtain ⟨s', hex, hpoint⟩ := h.more hmore hfit
        rw [TailChain.run_tailCall hex rfl, show ws.length + 2 + i + 1 = ws.length + 2 + (i + 1) from by omega,
          ih hpoint (by omega)]
        refine ⟨fun hf => ⟨fun j hj hk => ?_, hf.last, hf.calls⟩,
          fun hf => ⟨fun j hj hk => hf.more j (by omega) hk, hf.last, hf.calls⟩⟩
        rcases Nat.eq_or_lt_of_le hj with rfl | hlt
        · omega
        · exact hf.more j hlt hk
    · exact h.last_not_dropped_iff (budget + 1) hb (Nat.le_antisymm h.index_lt hge)

/-- From the first saved key on the bounds are those of the whole reply. -/
theorem fitsFrom_zero_iff (htext : requestWords (keyBytes F) = ws) :
    FitsFrom kcacheAt F ws 0 ↔ ReplyFits kcacheAt F := by
  subst htext
  have htextlen : (replyText F kcacheAt).length = (replyBlocks F kcacheAt).length + 5 := by
    rw [replyText, List.length_append]
    rfl
  constructor
  · intro hf
    refine ⟨fun hk => ?_, fun hne => ?_, hf.calls⟩
    · have := hf.more ((savedKeys kcacheAt (requestWords (keyBytes F))).length - 2) (Nat.zero_le _) (by omega)
      rwa [show (savedKeys kcacheAt (requestWords (keyBytes F))).length - 2 + 1
        = (savedKeys kcacheAt (requestWords (keyBytes F))).length - 1 from by omega] at this
    · rw [htextlen]
      exact hf.last hne
  · intro hf
    refine ⟨fun j _ hk => ?_, fun hne => ?_, hf.calls⟩
    · have hmore := hf.more (by omega)
      have := servedLength_mono kcacheAt (requestWords (keyBytes F)) (show j + 1
        ≤ (savedKeys kcacheAt (requestWords (keyBytes F))).length - 1 by omega) (by omega)
      omega
    · have := hf.last hne
      rw [htextlen] at this
      exact this

/-! ### From key to key -/

/-- Where the call of `bmc_hash_keys` does not go on to another word, it calls `bmc_prepare_packet` behind the last key
of a request with saved keys, and otherwise passes. -/
theorem HashPoint.stop_cases (h : HashPoint H F kcacheAt ws s) (hF : StartsGetChain F) (budget : ℕ)
    (hb : ws.length + 1 + budget = maxTailCallCnt) (hno : ¬ Continues kcacheAt ws s.ctx.packet) :
    (LastKey kcacheAt ws s.ctx.packet ∧ ∃ budget' s', budget = budget' + 1 ∧
        PreparePoint H F kcacheAt (ws ++ [nextWord s.ctx.packet]) s' ∧
        TailChain.run (xdpExec kcacheAt) (fun _ => true) budget (ws.length + 1) .hashKeys s =
          TailChain.run (xdpExec kcacheAt) (fun _ => true) budget' (ws.length + 1 + 1) .preparePacket s') ∨
      (¬ LastKey kcacheAt ws s.ctx.packet ∧
        (TailChain.run (xdpExec kcacheAt) (fun _ => true) budget (ws.length + 1) .hashKeys s).2 = .pass) := by
  rcases Nat.lt_or_ge (savedKeys kcacheAt ws).length bmcMaxKeyInPacket with hlt | hge
  · by_cases hw : UnexpectedWord s.ctx.packet
    · obtain ⟨s', hex, -⟩ := h.unexpected (ws.length + 1) hlt hw
      rw [TailChain.run_ret hex]
      exact Or.inr ⟨fun hl => hl.ends.1 hw, rfl⟩
    · have hword := hw
      rw [UnexpectedWord, not_or, not_lt] at hword
      by_cases hcr : s.ctx.packet[(nextWord s.ctx.packet).length]? = some cr
      · obtain ⟨s', -, hnone, hsome⟩ := h.last hF hlt hword.1 hword.2 hcr
        by_cases hsaved : savedKeys kcacheAt (ws ++ [nextWord s.ctx.packet]) = []
        · rw [TailChain.run_ret (hnone hsaved)]
          exact Or.inr ⟨fun hl => hl.hits hsaved, rfl⟩
        · obtain ⟨hex, hpoint⟩ := hsome hsaved
          cases budget with
          | zero =>
            rw [TailChain.run_fallThrough hex (Or.inl rfl)]
            exact Or.inr ⟨fun hl => by have := hl.count; omega, rfl⟩
          | succ budget =>
            rw [TailChain.run_tailCall hex rfl]
            exact Or.inl ⟨⟨⟨hw, hcr⟩, h.packet_room, by omega, hlt, hsaved⟩, budget, s', rfl, hpoint, rfl⟩
      · have hshort : s.ctx.packet.length < (nextWord s.ctx.packet).length + 1 + 14 := by
          by_contra hroom
          exact hno ⟨hlt, hw, hcr, by omega⟩
        obtain ⟨s', hex, -⟩ := h.short hlt hword.1 hword.2 hcr hshort
        rw [TailChain.run_ret hex]
        exact Or.inr ⟨fun hl => hcr hl.ends.2, rfl⟩
  · rw [TailChain.run_ret (h.full _ (Nat.le_antisymm h.saved_le hge))]
    exact Or.inr ⟨fun hl => absurd hl.saved (Nat.not_lt.mpr hge), rfl⟩

theorem PreparePoint.not_dropped_iff (h : PreparePoint H F kcacheAt ws s) (hH : adjustHeadLen ≤ H.length)
    (budget : ℕ) (hb : ws.length + 1 + budget = maxTailCallCnt) :
    (TailChain.run (xdpExec kcacheAt) (fun _ => true) budget (ws.length + 1) .preparePacket s).2 ≠ .drop ↔
      (ws.length + 1 < maxTailCallCnt → ReplyFits kcacheAt F) := by
  obtain ⟨s', hex, hpoint⟩ := h.ok (ws.length + 1) hH
  cases budget with
  | zero =>
    rw [TailChain.run_fallThrough hex (Or.inl rfl)]
    exact ⟨fun _ hlt => by omega, fun _ => by simp⟩
  | succ budget =>
    rw [TailChain.run_tailCall hex rfl, ← fitsFrom_zero_iff h.text]
    have hfrom := hpoint.not_dropped_iff budget (by omega)
    rw [Nat.add_zero] at hfrom
    rw [hfrom]
    exact ⟨fun hf _ => hf, fun hf => hf (by omega)⟩

theorem ReadsTo.lastKey_saved {text : Bytes} (h : ReadsTo (LastKey kcacheAt) ws text) :
    (savedKeys kcacheAt ws).length < bmcMaxKeyInPacket := by
  obtain ⟨vs, rest, -, -, hlast⟩ := h
  exact (savedKeys_length_append kcacheAt ws vs).trans_lt hlast.saved

theorem ReadsTo.lastKey_count {text : Bytes} (h : ReadsTo (LastKey kcacheAt) ws text) :
    ws.length + 1 < maxTailCallCnt := by
  obtain ⟨vs, rest, -, -, hlast⟩ := h
  have := hlast.count
  rw [List.length_append] at this
  omega

theorem ReadsTo.lastKey_room {text : Bytes} (h : ReadsTo (LastKey kcacheAt) ws text) : 14 ≤ text.length := by
  obtain ⟨vs, rest, rfl, -, hlast⟩ := h
  rw [List.length_append]
  exact hlast.room.trans (Nat.le_add_left _ _)

/-- A request that is read to its last key is read on at every word before it. -/
theorem ReadsTo.continues {text : Bytes} (h : ReadsTo (LastKey kcacheAt) ws text)
    (hno : ¬ LastKey kcacheAt ws text) : Continues kcacheAt ws text := by
  have hsaved := h.lastKey_saved
  obtain ⟨hword, hspace, hnext⟩ := (readsTo_cases.mp h).resolve_left hno
  have hroom := hnext.lastKey_room
  rw [List.length_drop] at hroom
  exact ⟨hsaved, hword, by rw [hspace]; decide, by omega⟩

/-- **From a key on.**  The induction is on the tail calls that are left. -/
theorem HashPoint.not_dropped_iff (hF : StartsGetChain F) (hH : adjustHeadLen ≤ H.length) (budget : ℕ) :
    ∀ (ws : List Bytes) (s : XdpState), HashPoint H F kcacheAt ws s →
    ws.length + 1 + budget = maxTailCallCnt →
    ((TailChain.run (xdpExec kcacheAt) (fun _ => true) budget (ws.length + 1) .hashKeys s).2 ≠ .drop ↔
      (ReadsTo (LastKey kcacheAt) ws s.ctx.packet → (requestWords (keyBytes F)).length + 1 < maxTailCallCnt →
        ReplyFits kcacheAt F)) := by
  have hstop : ∀ (budget : ℕ) (ws : List Bytes) (s : XdpState), HashPoint H F kcacheAt ws s →
      ws.length + 1 + budget = maxTailCallCnt → ¬ Continues kcacheAt ws s.ctx.packet →
      ((TailChain.run (xdpExec kcacheAt) (fun _ => true) budget (ws.length + 1) .hashKeys s).2 ≠ .drop ↔
        (ReadsTo (LastKey kcacheAt) ws s.ctx.packet → (requestWords (keyBytes F)).length + 1 < maxTailCallCnt →
          ReplyFits kcacheAt F)) := by
    intro budget ws s h hb hno
    rcases h.stop_cases hF budget hb hno with ⟨hlast, budget', s', rfl, hpoint, hrun⟩ | ⟨hlast, hpass⟩
    · have hlen : (ws ++ [nextWord s.ctx.packet]).length = ws.length + 1 := by simp
      have hprep := hpoint.not_dropped_iff hH budget' (by rw [hlen]; omega)
      rw [hlen] at hprep
      rw [hrun, hprep, hpoint.text, hlen]
      exact ⟨fun hf _ => hf, fun hf => hf (readsTo_cases.mpr (Or.inl hlast))⟩
    · rw [hpass]
      exact ⟨fun _ hreads => absurd (hreads.continues hlast) hno, fun _ => by simp⟩
  induction budget with
  | zero =>
    intro ws s h hb
    by_cases hgo : Continues kcacheAt ws s.ctx.packet
    · have hw := hgo.word
      rw [UnexpectedWord, not_or, not_lt] at hw
      obtain ⟨s', hex, -⟩ := h.more hgo.saved hw.1 hw.2 hgo.more hgo.room (by omega)
      rw [TailChain.run_fallThrough hex (Or.inl rfl)]
      refine ⟨fun _ hreads => ?_, fun _ => by simp⟩
      have := hreads.lastKey_count
      omega
    · exact hstop 0 ws s h hb hgo
  | succ budget ih =>
    intro ws s h hb
    by_cases hgo : Continues kcacheAt ws s.ctx.packet
    · have hw := hgo.word
      rw [UnexpectedWord, not_or, not_lt] at hw
      obtain ⟨s', hex, hpoint, hpkt⟩ := h.more hgo.saved hw.1 hw.2 hgo.more hgo.room (by omega)
      have hnext := ih _ s' hpoint (by rw [List.length_append, List.length_singleton]; omega)
      rw [List.length_append, List.length_singleton, hpkt] at hnext
      rw [TailChain.run_tailCall hex rfl, hnext, hgo.readsTo_iff fun hl => hgo.more hl.ends.2]
    · exact hstop (budget + 1) ws s h hb hgo

end

/-! ### The whole chain -/

/-- **When no GET is dropped.**  With every program loaded and 128 bytes of headroom, for every frame and every cache
each program sees: the chain ends with `XDP_TX` or `XDP_PASS` exactly when the reply, if one is begun, keeps to its
bounds. -/
theorem get_not_dropped_iff (kcacheAt : ℕ → KCache) (s : XdpState) (hH : adjustHeadLen ≤ s.ctx.head.length) :
    ((runXdp (fun _ => true) kcacheAt s).2 = .tx ∨ (runXdp (fun _ => true) kcacheAt s).2 = .pass) ↔
      (ReplyBegins kcacheAt s.ctx.packet → ReplyFits kcacheAt s.ctx.packet) := by
  have hverdict : ∀ v : XdpAction, (v = .tx ∨ v = .pass) ↔ v ≠ .drop := by
    intro v
    cases v <;> simp
  rw [hverdict, ReplyBegins]
  by_cases hF : StartsGetChain s.ctx.packet
  · obtain ⟨s', hex, hpoint⟩ := xdp_rxFilter_get kcacheAt s rfl hF
    have hrun : runXdp (fun _ => true) kcacheAt s =
        TailChain.run (xdpExec kcacheAt) (fun _ => true) 32 1 .hashKeys s' := TailChain.run_tailCall hex rfl
    have htext : keyBytes s.ctx.packet = s'.ctx.packet := hpoint.text
    have hiff := HashPoint.not_dropped_iff hF hH 32 [] s' hpoint rfl
    rw [← htext] at hiff
    rw [hrun]
    simp only [hF, true_and, and_imp]
    exact hiff
  · refine ⟨fun _ hreply => absurd hreply.1 hF, fun _ => ?_⟩
    obtain ⟨s', o, hex, -, -, -, rfl | ⟨-, rfl⟩⟩ := xdp_rxFilter_other kcacheAt s rfl hF
    · have hrun : runXdp (fun _ => true) kcacheAt s = (s', .pass) := TailChain.run_ret hex
      rw [hrun]
      simp
    · obtain ⟨s₂, hinv, -⟩ := xdp_invalidateCache kcacheAt 1 s'
      have hrun : runXdp (fun _ => true) kcacheAt s = (s₂, .pass) :=
        (TailChain.run_tailCall hex rfl).trans (TailChain.run_ret hinv)
      rw [hrun]
      simp

/-- The cache behind the reply to a GET of `abcdefghijkl` with `n` bytes of data. -/
def cachedValue (n : ℕ) : KCache :=
  CacheEvent.apply KCache.zeroed (.egress (SkBuff.ofFrame (udpFrame
    (valueBlock [97, 98, 99, 100, 101, 102, 103, 104, 105, 106, 107, 108] [48] (List.replicate n 120) ++ endLine)))
    StatsMap.zeroed)

/-- `get abcdefghijkl\r\n` -/
def getFrame : Bytes :=
  udpFrame (getWord ++ [97, 98, 99, 100, 101, 102, 103, 104, 105, 106, 107, 108] ++ crlf)

/-- One byte of data: the reply fits, and the request is answered. -/
theorem get_not_dropped_small :
    let s := XdpState.received (cachedValue 1) getFrame
    adjustHeadLen ≤ s.ctx.head.length ∧
      (ReplyBegins (fun _ => cachedValue 1) s.ctx.packet → ReplyFits (fun _ => cachedValue 1) s.ctx.packet) := by
  intro s
  have hH : adjustHeadLen ≤ s.ctx.head.length := by
    show adjustHeadLen ≤ (List.replicate 256 (0 : UInt8)).length
    rw [List.length_replicate]
    decide
  have htx : (runXdp (fun _ => true) (fun _ => cachedValue 1) s).2 = .tx := by decide +kernel
  exact ⟨hH, (get_not_dropped_iff (fun _ => cachedValue 1) s hH).mp (Or.inl htx)⟩

/-- **A GET that is swallowed.**  The entry of 148 bytes and the closing line do not fit into 146 bytes. -/
theorem get_dropped :
    (runXdp (fun _ => true) (fun _ => cachedValue 120) (XdpState.received (cachedValue 120) getFrame)).2 = .drop := by
  decide +kernel

end BmcCache
