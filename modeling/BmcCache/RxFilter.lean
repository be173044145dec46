import BmcCache.Xdp

/-!
# `bmc_rx_filter`: the entry of the XDP chain

The filter looks at every received frame.  A UDP datagram to the memcached port whose text starts with `get `
starts the GET chain: the parsing context is reset, the headers, the keyword and the spaces behind it are pushed,
and `bmc_hash_keys` is called.  A TCP segment to that port goes to `bmc_invalidate_cache` untouched.  Every other
frame is passed.

* `rxFilter_get` — what the state is when the GET chain starts;
* `rxFilter_other` — every other frame leaves the packet, the key table and the cache as they are.
-/

namespace BmcCache

/-- `for (off = 4; off < BMC_MAX_PACKET_LENGTH && payload+off+1 <= data_end && payload[off] == ' '; off++) {}`,
over the bytes from `payload[off]` on. -/
def skipSpaces : ℕ → Bytes → ℕ
  | off, [] => off
  | off, b :: rest => if off < bmcMaxPacketLength ∧ b = space then skipSpaces (off + 1) rest else off

/-- The part of `bmc_rx_filter_main` behind the `switch`, with the values it sets. -/
def rxDispatch (s : XdpState) (protocol : UInt8) (dport : ℕ) (payload : Bytes) :
    XdpState × XdpOutcome :=
  if dport = memcachedPort ∧ 4 ≤ payload.length then
    -- is this a GET request
    if protocol = ipprotoUdp ∧ payload.take 4 = getWord then
      match s.stats.lookup 0 with
      | none => (s, .ret .pass)
      | some stats =>
        let s := { s with stats := s.stats.set 0 { stats with getRecvCount := u32 (stats.getRecvCount + 1) } }
        match s.pctx.lookup 0 with
        | none => (s, .ret .pass)
        | some pctx =>
          let pctx := { pctx with keyCount := 0, currentKey := 0, writePktOffset := 0 }
          let off := skipSpaces 4 (payload.drop 4)
          if off < bmcMaxPacketLength then
            let pctx := { pctx with readPktOffset := u16 off }
            let s := { s with pctx := s.pctx.set 0 pctx }
            match bpfXdpAdjustHead s.ctx (sizeofHeaders + off : ℕ) with
            | none => (s, .ret .pass)
            | some ctx => ({ s with ctx := ctx }, .tailCall .hashKeys .pass)
          else ({ s with pctx := s.pctx.set 0 pctx }, .ret .pass)
    else if protocol = ipprotoTcp then (s, .tailCall .invalidateCache .pass)
    else (s, .ret .pass)
  else (s, .ret .pass)

/-- `bmc_rx_filter_main`.  Both transport headers have the destination port at the same place. -/
def bmcRxFilterMain (s : XdpState) : XdpState × XdpOutcome :=
  let pkt := s.ctx.packet
  if pkt.length < sizeofEthhdr + sizeofIphdr then (s, .ret .pass)
  else
    let protocol := pkt.getD 23 0
    if protocol = ipprotoUdp then
      if pkt.length < sizeofEthhdr + sizeofIphdr + sizeofUdphdr then (s, .ret .pass)
      else rxDispatch s protocol (be16At pkt 36) (pkt.drop sizeofHeaders)
    else if protocol = ipprotoTcp then
      if pkt.length < sizeofEthhdr + sizeofIphdr + sizeofTcphdr then (s, .ret .pass)
      else rxDispatch s protocol (be16At pkt 36) (pkt.drop (sizeofEthhdr + sizeofIphdr + sizeofTcphdr))
    else (s, .ret .pass)

/-! ### What the filter recognises -/

def IsGetFrame (pkt : Bytes) : Prop :=
  54 ≤ pkt.length ∧ pkt.getD 23 0 = ipprotoUdp ∧ be16At pkt 36 = memcachedPort ∧
    (pkt.drop sizeofHeaders).take 4 = getWord

instance (pkt : Bytes) : Decidable (IsGetFrame pkt) := by
  unfold IsGetFrame; infer_instance

/-- The frames the filter hands to `bmc_invalidate_cache`. -/
def IsTcpFrame (pkt : Bytes) : Prop :=
  58 ≤ pkt.length ∧ pkt.getD 23 0 = ipprotoTcp ∧ be16At pkt 36 = memcachedPort

instance (pkt : Bytes) : Decidable (IsTcpFrame pkt) := by
  unfold IsTcpFrame; infer_instance

/-- Where the first key starts, counted from the memcached text. -/
def keysOffset (pkt : Bytes) : ℕ := skipSpaces 4 (pkt.drop 54)

theorem skipSpaces_le (l : Bytes) : ∀ off, off ≤ skipSpaces off l ∧ skipSpaces off l ≤ off + l.length := by
  induction l with
  | nil => intro off; simp [skipSpaces]
  | cons b rest ih =>
    intro off
    simp only [skipSpaces, List.length_cons]
    split
    · have := ih (off + 1)
      omega
    · omega

theorem skipSpaces_of_ne (off : ℕ) (b : UInt8) (rest : Bytes) (h : b ≠ space) :
    skipSpaces off (b :: rest) = off := by
  simp [skipSpaces, h]

theorem drop_headers_getWord (pkt : Bytes) : (pkt.drop sizeofHeaders).drop 4 = pkt.drop 54 := by
  rw [List.drop_drop]
  rfl

theorem keysOffset_ge (pkt : Bytes) : 4 ≤ keysOffset pkt := (skipSpaces_le _ 4).1

/-- The frames on which the GET chain really starts: the pushed headers must leave an Ethernet header's worth of
packet behind them. -/
def StartsGetChain (pkt : Bytes) : Prop :=
  IsGetFrame pkt ∧ keysOffset pkt < bmcMaxPacketLength ∧ sizeofHeaders + keysOffset pkt + 14 ≤ pkt.length

instance (pkt : Bytes) : Decidable (StartsGetChain pkt) := by
  unfold StartsGetChain; infer_instance

/-- The bytes the first `bmc_hash_keys` sees. -/
def keyBytes (pkt : Bytes) : Bytes := pkt.drop (sizeofHeaders + keysOffset pkt)

/-! ### What the filter does -/

/-- On a frame that is not too short for its transport header the filter is its dispatcher. -/
theorem rxFilter_udp (s : XdpState) (h : IsGetFrame s.ctx.packet) :
    bmcRxFilterMain s =
      rxDispatch s ipprotoUdp memcachedPort (s.ctx.packet.drop sizeofHeaders) := by
  obtain ⟨hlen, hproto, hport, -⟩ := h
  have h1 : ¬ s.ctx.packet.length < sizeofEthhdr + sizeofIphdr := by simp; omega
  have h2 : ¬ s.ctx.packet.length < sizeofEthhdr + sizeofIphdr + sizeofUdphdr := by simp; omega
  simp only [bmcRxFilterMain, if_neg h1, hproto, if_true, if_neg h2, hport]

/-- **The GET chain starts** with a fresh parsing context and the headers, keyword and spaces pushed. -/
theorem rxFilter_get (s : XdpState) (h : StartsGetChain s.ctx.packet) :
    ∃ stats pc,
      bmcRxFilterMain s =
        ({ s with
            ctx := ⟨s.ctx.head ++ s.ctx.packet.take (sizeofHeaders + keysOffset s.ctx.packet),
              keyBytes s.ctx.packet⟩
            pctx := pc
            stats := stats }, .tailCall .hashKeys .pass) ∧
      pc.lookup 0 = some ⟨0, 0, keysOffset s.ctx.packet, 0⟩ := by
  obtain ⟨hget, hoff, hroom⟩ := h
  have hpay : 4 ≤ (s.ctx.packet.drop sizeofHeaders).length := by
    rw [List.length_drop]; have := hget.1; simp; omega
  have hoff' : skipSpaces 4 (s.ctx.packet.drop 54) = keysOffset s.ctx.packet := rfl
  have hu : u16 (keysOffset s.ctx.packet) = keysOffset s.ctx.packet := by
    apply u16_of_lt; simp at hoff; omega
  rw [rxFilter_udp s hget]
  simp only [rxDispatch, hpay, hget.2.2.2, and_self, if_true, drop_headers_getWord, hoff', if_pos hoff, hu,
    ArrayMap.lookup_of_lt _ Nat.one_pos,
    adjustHead_push s.ctx (sizeofHeaders + keysOffset s.ctx.packet) (by omega)]
  exact ⟨_, _, rfl, ArrayMap.lookup_set_self _ _ Nat.one_pos⟩

/-- A TCP segment to the memcached port goes to `bmc_invalidate_cache`. -/
theorem rxFilter_tcp (s : XdpState) (h : IsTcpFrame s.ctx.packet) :
    bmcRxFilterMain s = (s, .tailCall .invalidateCache .pass) := by
  obtain ⟨hlen, hproto, hport⟩ := h
  have h1 : ¬ s.ctx.packet.length < sizeofEthhdr + sizeofIphdr := by simp; omega
  have h2 : ¬ s.ctx.packet.length < sizeofEthhdr + sizeofIphdr + sizeofTcphdr := by simp; omega
  have h3 : 4 ≤ (s.ctx.packet.drop (sizeofEthhdr + sizeofIphdr + sizeofTcphdr)).length := by
    rw [List.length_drop]; simp; omega
  have hne : ¬ (ipprotoTcp = ipprotoUdp) := by decide
  simp only [bmcRxFilterMain, rxDispatch, if_neg h1, hproto, if_true, if_neg h2, hport, h3,
    and_self, hne, false_and, if_false]

/-- What the dispatcher does on a frame that does not start the GET chain. -/
theorem rxDispatch_other (s : XdpState) (protocol : UInt8) (dport : ℕ) (payload : Bytes)
    (h : ¬(protocol = ipprotoUdp ∧ dport = memcachedPort ∧ 4 ≤ payload.length ∧
      payload.take 4 = getWord ∧ skipSpaces 4 (payload.drop 4) < bmcMaxPacketLength ∧
      sizeofHeaders + skipSpaces 4 (payload.drop 4) + 14 ≤ s.ctx.packet.length)) :
    ∃ stats pc o,
      rxDispatch s protocol dport payload = ({ s with pctx := pc, stats := stats }, o) ∧
      (o = .ret .pass ∨ protocol = ipprotoTcp ∧ dport = memcachedPort ∧ 4 ≤ payload.length ∧
        o = .tailCall .invalidateCache .pass) := by
  unfold rxDispatch
  split
  · rename_i hport
    split
    · rename_i hget
      simp only [ArrayMap.lookup_of_lt _ Nat.one_pos]
      split
      · rename_i hoff
        have hshort : s.ctx.packet.length < sizeofHeaders + skipSpaces 4 (payload.drop 4) + 14 := by
          by_contra hge
          exact h ⟨hget.1, hport.1, hport.2, hget.2, hoff, by omega⟩
        rw [adjustHead_push_fail s.ctx _ hshort]
        exact ⟨_, _, _, rfl, Or.inl rfl⟩
      · exact ⟨_, _, _, rfl, Or.inl rfl⟩
    · split
      · rename_i htcp
        exact ⟨s.stats, s.pctx, _, rfl, Or.inr ⟨htcp, hport.1, hport.2, rfl⟩⟩
      · exact ⟨s.stats, s.pctx, _, rfl, Or.inl rfl⟩
  · exact ⟨s.stats, s.pctx, _, rfl, Or.inl rfl⟩

/-- **Every other frame is left alone**: the packet, the key table and the cache do not change, and the filter
passes the frame or, if it is a TCP segment to the server, hands it to `bmc_invalidate_cache`. -/
theorem rxFilter_other (s : XdpState) (h : ¬ StartsGetChain s.ctx.packet) :
    ∃ stats pc o,
      bmcRxFilterMain s = ({ s with pctx := pc, stats := stats }, o) ∧
      (o = .ret .pass ∨ IsTcpFrame s.ctx.packet ∧ o = .tailCall .invalidateCache .pass) := by
  unfold bmcRxFilterMain
  have hstay : ∃ stats pc o, ((s, .ret .pass) : XdpState × XdpOutcome)
      = ({ s with pctx := pc, stats := stats }, o) ∧
      (o = .ret .pass ∨ IsTcpFrame s.ctx.packet ∧ o = .tailCall .invalidateCache .pass) :=
    ⟨s.stats, s.pctx, _, rfl, Or.inl rfl⟩
  simp only
  split
  · exact hstay
  · split
    · rename_i hproto
      split
      · exact hstay
      · obtain ⟨stats, pc, o, hd, ho⟩ := rxDispatch_other s (s.ctx.packet.getD 23 0) (be16At s.ctx.packet 36)
          (s.ctx.packet.drop sizeofHeaders) (by
            intro hcase
            obtain ⟨-, hport, hpay, hget, hoff, hroom⟩ := hcase
            rw [drop_headers_getWord] at hoff hroom
            rw [List.length_drop] at hpay
            refine h ⟨⟨?_, hproto, hport, hget⟩, hoff, hroom⟩
            simp at hpay; omega)
        refine ⟨stats, pc, o, hd, ho.imp_right fun ho => ?_⟩
        exact absurd (hproto.symm.trans ho.1) (by decide)
    · split
      · rename_i hnu htcp
        split
        · exact hstay
        · obtain ⟨stats, pc, o, hd, ho⟩ := rxDispatch_other s (s.ctx.packet.getD 23 0) (be16At s.ctx.packet 36)
            (s.ctx.packet.drop (sizeofEthhdr + sizeofIphdr + sizeofTcphdr)) (fun hh => hnu hh.1)
          refine ⟨stats, pc, o, hd, ho.imp_right fun ho => ⟨⟨?_, htcp, ho.2.1⟩, ho.2.2.2⟩⟩
          have hpay := ho.2.2.1
          rw [List.length_drop] at hpay
          simp at hpay; omega
      · exact hstay

end BmcCache
