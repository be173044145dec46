import BmcCache.HitAccounting

/-!
# What `bmc_rx_filter` takes for a request

The filter reads the protocol, the destination port and the text at the offsets they have in an untagged Ethernet frame
with an IPv4 header of 20 bytes.  It looks neither at the Ethertype nor at the version, the header length and the
fragment fields of the IP header, nor at the datagram count of the memcached UDP header.

* `IsGetRequest` — a single-datagram GET in an unfragmented IPv4 packet, with every header found through the one
  before it;
* `rxFilter_classifies_iff` — the chain starts on requests only, exactly for frames with the header fields that are
  not looked at as the offsets suppose them.
-/

namespace BmcCache

@[simp] abbrev ethPIp : ℕ := 0x0800

/-- The length of the IP header in bytes, from its `ihl` field. -/
def ipHeaderLen (pkt : Bytes) : ℕ := 4 * ((pkt.getD sizeofEthhdr 0).toNat % 16)

def transportOffset (pkt : Bytes) : ℕ := sizeofEthhdr + ipHeaderLen pkt

/-- A GET request in a single datagram, in an IPv4 packet without options that is no fragment. -/
structure IsGetRequest (pkt : Bytes) : Prop where
  ethertype : be16At pkt 12 = ethPIp
  version : (pkt.getD sizeofEthhdr 0).toNat / 16 = 4
  options : ipHeaderLen pkt = sizeofIphdr
  unfragmented : be16At pkt 20 % 2 ^ 14 = 0
  protocol : pkt.getD 23 0 = ipprotoUdp
  port : be16At pkt (transportOffset pkt + 2) = memcachedPort
  datagrams : be16At pkt (transportOffset pkt + sizeofUdphdr + 4) = 1
  text : (pkt.drop (transportOffset pkt + sizeofUdphdr + sizeofMemcachedUdpHeader)).take 4 = getWord

/-- The fields the filter does not look at: Ethertype IPv4, version 4 with a header of five words, neither the
more-fragments flag nor a fragment offset, and one datagram announced. -/
def PlainHeaders (pkt : Bytes) : Prop :=
  be16At pkt 12 = ethPIp ∧ pkt.getD sizeofEthhdr 0 = 0x45 ∧ be16At pkt 20 % 2 ^ 14 = 0 ∧ be16At pkt 46 = 1

/-- The filter calls `bmc_hash_keys` exactly on the frames it recognises. -/
theorem rxFilter_starts_iff (s : XdpState) :
    (bmcRxFilterMain s).2 = .tailCall .hashKeys .pass ↔ StartsGetChain s.ctx.packet := by
  constructor
  · intro hcall
    by_contra hF
    obtain ⟨stats, pc, o, hrx, rfl | ⟨-, rfl⟩⟩ := rxFilter_other s hF
    · rw [hrx] at hcall
      cases hcall
    · rw [hrx] at hcall
      cases hcall
  · intro hF
    obtain ⟨stats, pc, hrx, -⟩ := rxFilter_get s hF
    rw [hrx]

/-- With these headers the fixed offsets are where the fields are. -/
theorem PlainHeaders.isGetRequest {pkt : Bytes} (h : PlainHeaders pkt) (hget : IsGetFrame pkt) :
    IsGetRequest pkt := by
  obtain ⟨hether, hihl, hfrag, hcount⟩ := h
  obtain ⟨-, hproto, hport, htext⟩ := hget
  have hlen : ipHeaderLen pkt = 20 := by
    rw [ipHeaderLen, hihl]
    rfl
  have htransport : transportOffset pkt = 34 := by rw [transportOffset, hlen]
  refine ⟨hether, by rw [hihl]; rfl, hlen, hfrag, hproto, ?_, ?_, ?_⟩
  · rw [htransport]
    exact hport
  · rw [htransport]
    exact hcount
  · rw [htransport]
    exact htext

theorem IsGetRequest.plainHeaders {pkt : Bytes} (h : IsGetRequest pkt) : PlainHeaders pkt := by
  have hihl : pkt.getD sizeofEthhdr 0 = 0x45 := by
    have hversion := h.version
    have hoptions := h.options
    simp only [ipHeaderLen, sizeofIphdr] at hoptions
    apply UInt8.toNat_inj.mp
    show (pkt.getD sizeofEthhdr 0).toNat = 69
    omega
  have htransport : transportOffset pkt = sizeofEthhdr + sizeofIphdr := by rw [transportOffset, h.options]
  have hcount := h.datagrams
  rw [htransport] at hcount
  exact ⟨h.ethertype, hihl, h.unfragmented, hcount⟩

/-- **Ingress classification.**  On every frame: the GET chain starts on a request only, exactly when a frame that has
the protocol, the port and the keyword at the filter's offsets also has the header fields these offsets suppose. -/
theorem rxFilter_classifies_iff (s : XdpState) :
    ((bmcRxFilterMain s).2 = .tailCall .hashKeys .pass → IsGetRequest s.ctx.packet) ↔
      (StartsGetChain s.ctx.packet → PlainHeaders s.ctx.packet) := by
  rw [rxFilter_starts_iff]
  constructor
  · exact fun h hF => (h hF).plainHeaders
  · exact fun h hF => (h hF).isGetRequest hF.1

/-- A frame for `get abcdefghijkl` with the given Ethertype, first byte of the IP header, fragment fields and datagram
count. -/
def getFrameWith (ethertype : Bytes) (versionIhl : UInt8) (fragment datagrams : Bytes) : Bytes :=
  List.replicate 12 0 ++ ethertype ++ versionIhl :: List.replicate 5 0 ++ fragment ++ [64, 17] ++
    List.replicate 10 0 ++ [43, 203, 43, 203] ++ List.replicate 8 0 ++ datagrams ++ [0, 0] ++
    getWord ++ [97, 98, 99, 100, 101, 102, 103, 104, 105, 106, 107, 108] ++ crlf

/-- **Answered, but no requests**: a frame of another Ethertype, one with IP options, a fragment that is not the first
one and a part of a request of two datagrams.  The plain frame differs from each in one field. -/
theorem rxFilter_answers_others :
    (∀ pkt ∈ [getFrameWith [0x86, 0xdd] 0x45 [0, 0] [0, 1], getFrameWith [8, 0] 0x46 [0, 0] [0, 1],
        getFrameWith [8, 0] 0x45 [0, 1] [0, 1], getFrameWith [8, 0] 0x45 [0, 0] [0, 2]],
      (bmcRxFilterMain (XdpState.received cachedKey pkt)).2 = .tailCall .hashKeys .pass ∧ ¬ IsGetRequest pkt ∧
        (runXdp (fun _ => true) (fun _ => cachedKey) (XdpState.received cachedKey pkt)).2 = .tx) ∧
      IsGetRequest (getFrameWith [8, 0] 0x45 [0, 0] [0, 1]) := by
  have hfield : ∀ pkt : Bytes, be16At pkt 12 ≠ ethPIp ∨ pkt.getD sizeofEthhdr 0 ≠ 0x45 ∨
      be16At pkt 20 % 2 ^ 14 ≠ 0 ∨ be16At pkt 46 ≠ 1 → ¬ IsGetRequest pkt := by
    intro pkt h hreq
    obtain ⟨h1, h2, h3, h4⟩ := hreq.plainHeaders
    rcases h with h | h | h | h
    · exact h h1
    · exact h h2
    · exact h h3
    · exact h h4
  have hplain : PlainHeaders (getFrameWith [8, 0] 0x45 [0, 0] [0, 1]) :=
    ⟨by decide +kernel, by decide +kernel, by decide +kernel, by decide +kernel⟩
  refine ⟨?_, hplain.isGetRequest (by decide +kernel)⟩
  intro pkt hpkt
  simp only [List.mem_cons, List.not_mem_nil, or_false] at hpkt
  rcases hpkt with rfl | rfl | rfl | rfl <;>
    exact ⟨by decide +kernel, hfield _ (by decide +kernel), by decide +kernel⟩

end BmcCache
