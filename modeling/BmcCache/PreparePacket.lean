import BmcCache.Xdp

/-!
# `bmc_prepare_packet`: room for the reply and its headers

The program takes 128 bytes of headroom, copies the request's headers to the new front of the packet, swaps the
MAC and IP addresses and the ports in the copy, and pushes the copied headers so that `bmc_write_reply` finds the
place of the reply's text.  The request itself stays where it was, 78 bytes behind the new cursor.

* `swapAddresses_append` — the swaps only touch the first 50 bytes;
* `preparePacket_ok`, `preparePacket_noRoom` — the two ways it ends.
-/

namespace BmcCache

open ByteBuffer

@[simp] abbrev adjustHeadLen : ℕ := 128

/-- `eth->h_source` with `eth->h_dest`, `ip->saddr` with `ip->daddr`, `udp->source` with `udp->dest`. -/
def swapAddresses (pkt : Bytes) : Bytes :=
  let pkt := swapBlocks pkt 6 0 6
  let pkt := swapBlocks pkt 26 30 4
  swapBlocks pkt 34 36 2

def bmcPreparePacketMain (s : XdpState) : XdpState × XdpOutcome :=
  -- pop empty packet buffer memory to increase the available packet size
  match bpfXdpAdjustHead s.ctx (-(adjustHeadLen : ℤ)) with
  | none => (s, .ret .pass)
  | some ctx =>
    let s := { s with ctx := ctx }
    let pkt := ctx.packet
    if pkt.length ≤ sizeofHeaders ∨ pkt.length ≤ adjustHeadLen + sizeofHeaders + 1 then (s, .ret .pass)
    else
      -- use old headers as a base; then update addresses and ports to create the new headers
      let pkt := overwrite pkt 0 (slice pkt adjustHeadLen sizeofHeaders)
      let pkt := swapAddresses pkt
      let s := { s with ctx := { ctx with packet := pkt } }
      match bpfXdpAdjustHead s.ctx (sizeofHeaders : ℕ) with
      | none => (s, .ret .pass)
      | some ctx => ({ s with ctx := ctx }, .tailCall .writeReply .pass)

/-! ### The swaps stay inside the headers -/

theorem swapAddresses_length (pkt : Bytes) (h : 38 ≤ pkt.length) :
    (swapAddresses pkt).length = pkt.length := by
  have h1 : (swapBlocks pkt 6 0 6).length = pkt.length := swapBlocks_length pkt 6 0 6 (by omega) (by omega)
  have h2 : (swapBlocks (swapBlocks pkt 6 0 6) 26 30 4).length = pkt.length := by
    rw [swapBlocks_length _ 26 30 4 (by omega) (by omega), h1]
  rw [swapAddresses, swapBlocks_length _ 34 36 2 (by omega) (by omega), h2]

theorem swapAddresses_append (l r : Bytes) (h : 38 ≤ l.length) :
    swapAddresses (l ++ r) = swapAddresses l ++ r := by
  have h1 : (swapBlocks l 6 0 6).length = l.length := swapBlocks_length l 6 0 6 (by omega) (by omega)
  have h2 : (swapBlocks (swapBlocks l 6 0 6) 26 30 4).length = l.length := by
    rw [swapBlocks_length _ 26 30 4 (by omega) (by omega), h1]
  simp only [swapAddresses]
  rw [swapBlocks_append_left l r 6 0 6 (by omega) (by omega),
    swapBlocks_append_left _ r 26 30 4 (by omega) (by omega),
    swapBlocks_append_left _ r 34 36 2 (by omega) (by omega)]

/-- The headers of the reply: those of the request with addresses and ports swapped. -/
def replyHeaders (frame : Bytes) : Bytes := swapAddresses (frame.take sizeofHeaders)

theorem replyHeaders_length (frame : Bytes) (h : sizeofHeaders ≤ frame.length) :
    (replyHeaders frame).length = sizeofHeaders := by
  have hlen : (frame.take sizeofHeaders).length = sizeofHeaders := by
    rw [List.length_take, Nat.min_eq_left h]
  rw [replyHeaders, swapAddresses_length _ (by rw [hlen]; decide), hlen]

/-! ### How the program ends -/

theorem preparePacket_noRoom (s : XdpState) (h : s.ctx.head.length < adjustHeadLen) :
    bmcPreparePacketMain s = (s, .ret .pass) := by
  simp only [bmcPreparePacketMain, adjustHead_pop_fail s.ctx (-(adjustHeadLen : ℤ)) (by omega)]

/-- **The reply's headers stand in front.**  `T` is the headroom taken; the request `F` is untouched behind what is
left of it. -/
theorem preparePacket_ok (s : XdpState) (H T F : Bytes) (hctx : s.ctx = ⟨H ++ T, F⟩)
    (hT : T.length = adjustHeadLen) (hF : sizeofHeaders + 2 ≤ F.length) :
    bmcPreparePacketMain s =
      ({ s with ctx := ⟨H ++ replyHeaders F, T.drop sizeofHeaders ++ F⟩ }, .tailCall .writeReply .pass) := by
  have hpop : bpfXdpAdjustHead s.ctx (-(adjustHeadLen : ℤ)) = some ⟨H, T ++ F⟩ := by
    rw [hctx]
    exact adjustHead_pop H T F _ (by rw [hT]) (by simp at hT; omega)
  have hlong : ¬((T ++ F).length ≤ sizeofHeaders ∨ (T ++ F).length ≤ adjustHeadLen + sizeofHeaders + 1) := by
    rw [List.length_append]
    omega
  have hslice : slice (T ++ F) adjustHeadLen sizeofHeaders = F.take sizeofHeaders := by
    rw [slice, ← hT, List.drop_left]
  have hhdr : (F.take sizeofHeaders).length = sizeofHeaders := by
    rw [List.length_take]; omega
  have hmove : overwrite (T ++ F) 0 (F.take sizeofHeaders)
      = F.take sizeofHeaders ++ (T.drop sizeofHeaders ++ F) := by
    rw [overwrite, List.take_zero, List.nil_append, hhdr, Nat.zero_add,
      List.drop_append_of_le_length (by rw [hT]; decide)]
  have hswap : swapAddresses (F.take sizeofHeaders ++ (T.drop sizeofHeaders ++ F))
      = replyHeaders F ++ (T.drop sizeofHeaders ++ F) :=
    swapAddresses_append _ _ (by rw [hhdr]; decide)
  have hrlen : (replyHeaders F).length = sizeofHeaders := replyHeaders_length F (by omega)
  have hpush : bpfXdpAdjustHead ⟨H, replyHeaders F ++ (T.drop sizeofHeaders ++ F)⟩ (sizeofHeaders : ℕ)
      = some ⟨H ++ replyHeaders F, T.drop sizeofHeaders ++ F⟩ := by
    rw [adjustHead_push _ sizeofHeaders
      (by simp only [List.length_append, List.length_drop, hrlen]; simp at hF; omega)]
    simp only
    rw [← hrlen, List.take_left, List.drop_left]
  simp only [bmcPreparePacketMain, hpop, if_neg hlong, hslice, hmove, hswap, hpush]

end BmcCache
