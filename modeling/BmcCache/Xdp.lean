import BmcCache.ByteBuffer
import BmcCache.Common
import BmcCache.TailChain

/-!
# The XDP machine: packet context, per-CPU maps and helpers

The state the programs of the XDP chain work on.

* `XdpMd` is the packet buffer cut at `ctx->data`: `head` is what lies before it (headroom and bytes already
  pushed), `packet` what lies between `ctx->data` and `ctx->data_end`.
* `bpfXdpAdjustHead` moves the cut.  It fails, leaving the context alone, when the new `data` would lie before
  the headroom or after `data_end - ETH_HLEN`.
* `bpfXdpAdjustTail` (the kernels of that time) only shrinks.
* `XdpState` adds the maps: the per-CPU key table, parsing context and statistics, and `map_kcache`.

Pointer tests such as `payload + off + 1 <= data_end` become tests on the length of the remaining bytes.
Counters are natural numbers reduced modulo the width the source declares.
-/

namespace BmcCache

open ByteBuffer

/-! ### Layout of a frame -/

@[simp] abbrev sizeofEthhdr : ℕ := 14
@[simp] abbrev sizeofIphdr : ℕ := 20
@[simp] abbrev sizeofUdphdr : ℕ := 8
@[simp] abbrev sizeofTcphdr : ℕ := 20
@[simp] abbrev sizeofMemcachedUdpHeader : ℕ := 8

@[simp] abbrev sizeofHeaders : ℕ :=
  sizeofEthhdr + sizeofIphdr + sizeofUdphdr + sizeofMemcachedUdpHeader

@[simp] abbrev ipprotoTcp : UInt8 := 6
@[simp] abbrev ipprotoUdp : UInt8 := 17
@[simp] abbrev memcachedPort : ℕ := 11211

/-- The packet buffer, cut at `ctx->data`. -/
structure XdpMd where
  head : Bytes
  packet : Bytes
  deriving DecidableEq, Repr

/-- The whole buffer, from the start of the headroom to `data_end`. -/
def XdpMd.buffer (ctx : XdpMd) : Bytes := ctx.head ++ ctx.packet

/-- `bpf_xdp_adjust_head`; `none` is the error return. -/
def bpfXdpAdjustHead (ctx : XdpMd) (off : ℤ) : Option XdpMd :=
  let data : ℤ := ctx.head.length + off
  if data < 0 ∨ (ctx.buffer.length : ℤ) - sizeofEthhdr < data then none
  else some ⟨ctx.buffer.take data.toNat, ctx.buffer.drop data.toNat⟩

/-- `bpf_xdp_adjust_tail`; `none` is the error return. -/
def bpfXdpAdjustTail (ctx : XdpMd) (off : ℤ) : Option XdpMd :=
  let dataEnd : ℤ := ctx.packet.length + off
  if 0 ≤ off ∨ dataEnd < sizeofEthhdr then none
  else some { ctx with packet := ctx.packet.take dataEnd.toNat }

/-- Pushing `n` bytes succeeds exactly when an Ethernet header's worth of packet remains behind them. -/
theorem adjustHead_push (ctx : XdpMd) (n : ℕ) (h : n + 14 ≤ ctx.packet.length) :
    bpfXdpAdjustHead ctx n = some ⟨ctx.head ++ ctx.packet.take n, ctx.packet.drop n⟩ := by
  have hlen : ctx.buffer.length = ctx.head.length + ctx.packet.length := List.length_append
  have hnat : ((ctx.head.length : ℤ) + n).toNat = ctx.head.length + n := by omega
  have hok : ¬((ctx.head.length : ℤ) + n < 0 ∨
      (ctx.buffer.length : ℤ) - sizeofEthhdr < ctx.head.length + n) := by
    simp only [hlen, sizeofEthhdr]
    omega
  simp only [bpfXdpAdjustHead, if_neg hok, hnat]
  rw [XdpMd.buffer, List.take_append, List.drop_append, List.take_of_length_le (by omega),
    List.drop_eq_nil_of_le (by omega), Nat.add_sub_cancel_left, List.nil_append]

theorem adjustHead_push_fail (ctx : XdpMd) (n : ℕ) (h : ctx.packet.length < n + 14) :
    bpfXdpAdjustHead ctx n = none := by
  have hlen : ctx.buffer.length = ctx.head.length + ctx.packet.length := List.length_append
  have hbad : (ctx.head.length : ℤ) + n < 0 ∨
      (ctx.buffer.length : ℤ) - sizeofEthhdr < ctx.head.length + n := by
    simp only [hlen, sizeofEthhdr]
    omega
  simp only [bpfXdpAdjustHead, if_pos hbad]

theorem adjustHead_pop (h t p : Bytes) (n : ℤ) (hn : n = -(t.length : ℤ))
    (hp : 14 ≤ t.length + p.length) : bpfXdpAdjustHead ⟨h ++ t, p⟩ n = some ⟨h, t ++ p⟩ := by
  have hbuf : (XdpMd.mk (h ++ t) p).buffer = h ++ (t ++ p) := List.append_assoc _ _ _
  have hnat : (((h ++ t).length : ℤ) + n).toNat = h.length := by
    rw [List.length_append]; omega
  have hok : ¬(((h ++ t).length : ℤ) + n < 0 ∨
      ((h ++ (t ++ p)).length : ℤ) - sizeofEthhdr < (h ++ t).length + n) := by
    simp only [List.length_append, sizeofEthhdr]
    omega
  simp only [bpfXdpAdjustHead, hbuf, if_neg hok, hnat, List.take_left, List.drop_left]

theorem adjustHead_pop_fail (ctx : XdpMd) (n : ℤ) (h : (ctx.head.length : ℤ) + n < 0) :
    bpfXdpAdjustHead ctx n = none := by
  simp only [bpfXdpAdjustHead, if_pos (Or.inl h)]

/-- Stripping everything behind the first `n` bytes; when nothing is left to strip, the helper fails and changes
nothing, which comes to the same. -/
theorem adjustTail_strip (h a r : Bytes) (n : ℕ) (hn : a.length = n) (ha : 14 ≤ n) :
    (bpfXdpAdjustTail ⟨h, a ++ r⟩ (0 - (((a ++ r).length : ℤ) - n))).getD ⟨h, a ++ r⟩ = ⟨h, a⟩ := by
  rcases Nat.eq_zero_or_pos r.length with h0 | hpos
  · have hr : r = [] := List.eq_nil_of_length_eq_zero h0
    have hz : (0 : ℤ) ≤ 0 - ((a.length : ℤ) - n) := by omega
    rw [hr, List.append_nil]
    simp only [bpfXdpAdjustTail, if_pos (Or.inl hz), Option.getD_none]
  · have hnat : (((a ++ r).length : ℤ) + (0 - (((a ++ r).length : ℤ) - n))).toNat = a.length := by omega
    have hok : ¬ ((0 : ℤ) ≤ 0 - (((a ++ r).length : ℤ) - n) ∨
        ((a ++ r).length : ℤ) + (0 - (((a ++ r).length : ℤ) - n)) < sizeofEthhdr) := by
      simp only [List.length_append, sizeofEthhdr]
      omega
    simp only [bpfXdpAdjustTail, if_neg hok, Option.getD_some, hnat, List.take_left]

/-! ### Reading and writing header fields -/

def be16At (pkt : Bytes) (pos : ℕ) : ℕ := (pkt.getD pos 0).toNat * 256 + (pkt.getD (pos + 1) 0).toNat

/-- The two bytes `htons(v)` puts into memory; `v` is cut to 16 bits. -/
def be16Bytes (v : ℕ) : Bytes := [UInt8.ofNat (v / 256), UInt8.ofNat v]

/-- The two bytes of a `u16` in host byte order. -/
def le16Bytes (v : ℕ) : Bytes := [UInt8.ofNat v, UInt8.ofNat (v / 256)]

/-! ### Maps -/

/-- `struct memcached_key` -/
structure MemcachedKey where
  hash : UInt32
  data : Bytes
  len : ℕ
  data_length : data.length = bmcMaxKeyLength
  deriving DecidableEq

/-- `struct parsing_context` -/
structure ParsingContext where
  keyCount : ℕ
  currentKey : ℕ
  readPktOffset : ℕ
  writePktOffset : ℕ
  deriving DecidableEq, Repr

/-- `struct bmc_stats` -/
structure BmcStats where
  getRecvCount : ℕ
  setRecvCount : ℕ
  getRespCount : ℕ
  hitMisprediction : ℕ
  hitCount : ℕ
  missCount : ℕ
  updateCount : ℕ
  invalidationCount : ℕ
  deriving DecidableEq, Repr

/-- `unsigned short` arithmetic. -/
def u16 (n : ℕ) : ℕ := n % 2 ^ 16

/-- `unsigned int` arithmetic. -/
def u32 (n : ℕ) : ℕ := n % 2 ^ 32

theorem u16_of_lt {n : ℕ} (h : n < 65536) : u16 n = n := Nat.mod_eq_of_lt h
theorem u32_of_lt {n : ℕ} (h : n < 4294967296) : u32 n = n := Nat.mod_eq_of_lt h

abbrev KeyMap : Type := ArrayMap bmcMaxKeyInPacket MemcachedKey
abbrev ContextMap : Type := ArrayMap 1 ParsingContext
abbrev StatsMap : Type := ArrayMap 1 BmcStats

def StatsMap.zeroed : StatsMap := ArrayMap.replicate 1 ⟨0, 0, 0, 0, 0, 0, 0, 0⟩

structure XdpState where
  ctx : XdpMd
  keys : KeyMap
  pctx : ContextMap
  stats : StatsMap
  kcache : KCache

/-- The programs of the chain; all but the first are slots of `map_progs_xdp`. -/
inductive XdpProg where
  | rxFilter
  | hashKeys
  | preparePacket
  | writeReply
  | invalidateCache
  deriving DecidableEq, Repr

inductive XdpAction where
  | drop
  | pass
  | tx
  deriving DecidableEq, Repr

abbrev XdpOutcome : Type := TailChain.Outcome XdpProg XdpAction

end BmcCache
