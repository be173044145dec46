import BmcCache.GetReply

/-!
# The frame of a kernel reply

A chain that ends in `XDP_TX` has copied the headers of the request, exchanged addresses and ports, and filled in
lengths and checksums. Here is every header field of the transmitted frame.

* `getElem?_swapAddresses`, `getElem?_fillHeaders` — where each byte of the headers comes from;
* `reply_framing` — the whole frame.
-/

namespace BmcCache

open ByteBuffer

def headerSource (i : ℕ) : ℕ := swapIndex 6 0 6 (swapIndex 26 30 4 (swapIndex 34 36 2 i))

theorem getElem?_swapAddresses (pkt : Bytes) (h : 38 ≤ pkt.length) (i : ℕ) :
    (swapAddresses pkt)[i]? = pkt[headerSource i]? := by
  have h1 : (swapBlocks pkt 6 0 6).length = pkt.length := swapBlocks_length pkt 6 0 6 (by omega) (by omega)
  have h2 : (swapBlocks (swapBlocks pkt 6 0 6) 26 30 4).length = pkt.length := by
    rw [swapBlocks_length _ 26 30 4 (by omega) (by omega), h1]
  rw [swapAddresses, getElem?_swapBlocks _ 34 36 2 (by omega) (by omega),
    getElem?_swapBlocks _ 26 30 4 (by omega) (by omega), getElem?_swapBlocks _ 6 0 6 (by omega) (by omega)]
  rfl

theorem getElem?_fillHeaders (l : Bytes) (n : ℕ) (h : 42 ≤ l.length) {i : ℕ}
    (hi : i < 16 ∨ 18 ≤ i ∧ i < 24 ∨ 26 ≤ i ∧ i < 38 ∨ 42 ≤ i) : (fillHeaders l n)[i]? = l[i]? := by
  have hstep : ∀ (k : Bytes) (pos : ℕ) (src : Bytes), k.length = l.length → src.length = 2 →
    pos ≤ 40 →
      ¬(pos ≤ i ∧ i < pos + 2) → (overwrite k pos src).length = l.length ∧
        (overwrite k pos src)[i]? = k[i]? := by
    intro k pos src hk hs hpos hne
    refine ⟨(overwrite_length k pos src (by omega)).trans hk, ?_⟩
    rw [getElem?_overwrite k pos src (by omega), hs, if_neg hne]
  obtain ⟨h1, e1⟩ := hstep l 16 (be16Bytes (sizeofHeaders + n - sizeofEthhdr)) rfl rfl (by omega) (by omega)
  obtain ⟨h2, e2⟩ := hstep _ 24 (le16Bytes (computeIpChecksum (slice (overwrite l 16
    (be16Bytes (sizeofHeaders + n - sizeofEthhdr))) 14 20))) h1 rfl (by omega) (by omega)
  obtain ⟨h3, e3⟩ := hstep _ 40 (be16Bytes 0) h2 rfl (by omega) (by omega)
  obtain ⟨-, e4⟩ := hstep _ 38 (be16Bytes (sizeofHeaders + n - (sizeofEthhdr + sizeofIphdr))) h3 rfl
    (by omega) (by omega)
  rw [fillHeaders, e4, e3, e2, e1]

section

variable {F : Bytes} {kcacheAt : ℕ → KCache} {s : XdpState}

/-- A block of the transmitted headers that was not filled in, from where it was in the request. -/
theorem ReplySent.slice_eq (h : ReplySent F kcacheAt s) {p q n : ℕ}
    (hstay : ∀ i < n, p + i < 16 ∨ 18 ≤ p + i ∧ p + i < 24 ∨ 26 ≤ p + i ∧ p + i < 38 ∨
      42 ≤ p + i ∧ p + i < 50)
    (hsource : ∀ i < n, headerSource (p + i) = q + i) (hq : q + n ≤ 50) :
    slice s.ctx.packet p n = slice F q n := by
  have hlen := startsGetChain_length h.frame
  obtain ⟨hhdr, hfill⟩ : (replyHeaders F).length = 50 ∧ _ = 50 := h.headers_length (replyText F kcacheAt).length
  refine slice_congr fun i hi => ?_
  have hi50 : p + i < 50 := by have := hstay i hi; omega
  rw [h.packet, List.getElem?_append_left (by omega), getElem?_fillHeaders _ _ (by omega)
    (by have := hstay i hi; omega),
    replyHeaders, getElem?_swapAddresses _ (by rw [List.length_take]; simp; omega), hsource i hi,
    List.getElem?_take_of_lt (by simp; omega)]

theorem ReplySent.slice_filled (h : ReplySent F kcacheAt s) :
    slice s.ctx.packet 16 2 = be16Bytes (36 + (replyText F kcacheAt).length) ∧
      slice s.ctx.packet 38 2 = be16Bytes (16 + (replyText F kcacheAt).length) ∧
        slice s.ctx.packet 40 2 = [0, 0] := by
  obtain ⟨hhdr, hfill⟩ : (replyHeaders F).length = 50 ∧ _ = 50 := h.headers_length (replyText F kcacheAt).length
  rw [h.packet, slice_append_left _ _ 16 2 (by omega), slice_append_left _ _ 38 2 (by omega),
    slice_append_left _ _ 40 2 (by omega)]
  exact slice_fillHeaders _ _ (by omega)

theorem ReplySent.length_eq (h : ReplySent F kcacheAt s) :
    s.ctx.packet.length = sizeofHeaders + (replyText F kcacheAt).length := by
  rw [h.packet, List.length_append, (h.headers_length _).2]

end

/-- **The frame of a reply**: its lengths agree and count every byte written behind the headers; the addresses and ports
are those of the request exchanged; every other field is the request's, but for the two checksums. -/
theorem reply_framing (loaded : XdpProg → Bool) (kcacheAt : ℕ → KCache) (s : XdpState)
    (h : (runXdp loaded kcacheAt s).2 = .tx) :
    let F := s.ctx.packet
    let P := (runXdp loaded kcacheAt s).1.ctx.packet
    let ws := requestWords (keyBytes F)
    -- what each call of `bmc_write_reply` has copied
    let blocks := servedBytes kcacheAt (ws.length + 2) (savedKeys kcacheAt ws)
    P.length = 14 + be16At P 16 ∧ be16At P 38 = be16At P 16 - 20 ∧ be16At P 16 = 36 + (blocks.length + 5) ∧
      P.drop 50 = blocks ++ endLine ∧
      slice P 0 6 = slice F 6 6 ∧ slice P 6 6 = slice F 0 6 ∧
      slice P 26 4 = slice F 30 4 ∧ slice P 30 4 = slice F 26 4 ∧
      slice P 34 2 = slice F 36 2 ∧ slice P 36 2 = slice F 34 2 ∧
      slice P 12 4 = slice F 12 4 ∧ slice P 18 6 = slice F 18 6 ∧ slice P 42 8 = slice F 42 8 ∧
      slice P 40 2 = [0, 0] := by
  intro F P ws blocks
  have hsent : ReplySent F kcacheAt (runXdp loaded kcacheAt s).1 := runXdp_tx loaded kcacheAt s h
  have hlt := hsent.text_lt
  obtain ⟨htot, hudp, hcheck⟩ := hsent.slice_filled
  have htot' : be16At P 16 = 36 + (replyText F kcacheAt).length := be16At_of_slice htot hlt
  have hudp' : be16At P 38 = 16 + (replyText F kcacheAt).length := be16At_of_slice hudp (by omega)
  have htext : (replyText F kcacheAt).length = blocks.length + 5 := List.length_append
  have hlength : P.length = 50 + (replyText F kcacheAt).length := hsent.length_eq
  refine ⟨by omega, by omega, by omega, hsent.drop_headers, ?_, ?_, ?_, ?_, ?_, ?_, ?_, ?_, ?_, hcheck⟩
  all_goals exact hsent.slice_eq (by decide) (by decide) (by decide)

/-- A GET of a cached key is answered. -/
theorem reply_framing_hit :
    let kc := updateKCache KCache.zeroed
      (valueBlock [97, 98, 99, 100, 101, 102, 103, 104, 105, 106, 107, 108] [48] [120] ++ endLine)
    let s := XdpState.received kc
      (udpFrame (getWord ++ [97, 98, 99, 100, 101, 102, 103, 104, 105, 106, 107, 108] ++ crlf))
    let P := (runXdp (fun _ => true) (fun _ => kc) s).1.ctx.packet
    (runXdp (fun _ => true) (fun _ => kc) s).2 = .tx ∧ P.length = 14 + be16At P 16 := by
  intro kc s P
  have htx : (runXdp (fun _ => true) (fun _ => kc) s).2 = .tx := by decide +kernel
  exact ⟨htx, (reply_framing (fun _ => true) (fun _ => kc) s htx).1⟩

end BmcCache
