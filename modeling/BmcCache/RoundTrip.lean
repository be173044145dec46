import BmcCache.Coherence

/-!
# From a reply into the cache and back

memcached delimits the data of an item by the length field of the `VALUE` line; `bmc_update_cache` delimits it by
counting two `'\n'`.  The two framings agree exactly on data without `'\n'`.

* `runXdp_single_hit` — a single-key GET of a key that is served, in a frame with enough room, is answered;
* `updateKCache_serves` — what is served for a key whose reply has just been admitted;
* `round_trip_iff` — the answer is the reply byte for byte exactly if the data contains no `'\n'`.
-/

namespace BmcCache

open ByteBuffer Delimited

/-! ### A single-key GET -/

structure GetLoaded (loaded : XdpProg → Bool) : Prop where
  hashKeys : loaded .hashKeys = true
  preparePacket : loaded .preparePacket = true
  writeReply : loaded .writeReply = true

/-- Room for a request's pushes and for a reply of `n` bytes: an Ethernet header's worth behind `get `, the headroom
the chain takes, and the reply in the enlarged packet. -/
structure HasRoom (ctx : XdpMd) (n : ℕ) : Prop where
  request : sizeofHeaders + 4 + 14 ≤ ctx.packet.length
  headroom : adjustHeadLen ≤ ctx.head.length
  reply : n + sizeofHeaders ≤ adjustHeadLen + ctx.packet.length

section

variable {loaded : XdpProg → Bool} {kc : KCache} {s : XdpState} {k : Key}

theorem IsGetOf.startsGetChain {pkt : Bytes} (h : IsGetOf [k] pkt)
    (hroom : sizeofHeaders + 4 + 14 ≤ pkt.length) : StartsGetChain pkt := by
  refine ⟨h.isGetFrame, ?_, ?_⟩
  · rw [h.keysOffset_eq (by simp)]; decide
  · rw [h.keysOffset_eq (by simp)]; exact hroom

/-- **A single-key GET of a served key** with enough room is answered. -/
theorem runXdp_single_hit (hloaded : GetLoaded loaded) (hget : IsGetOf [k] s.ctx.packet)
    (hhit : serveBytes kc k.bytes ≠ []) (hroom : HasRoom s.ctx ((serveBytes kc k.bytes).length + endLine.length)) :
    (runXdp loaded (fun _ => kc) s).2 = .tx := by
  have hF := hget.startsGetChain hroom.request
  have hsaved : savedKeys (fun _ => kc) [k.bytes] = [k.bytes] := by
    rw [savedKeys_const, List.filter_cons_of_pos (keyHit_of_served kc _ hhit), List.filter_nil]
  have hserved : servedBytes (fun _ => kc) ([k.bytes].length + 2) [k.bytes] = serveBytes kc k.bytes := by
    simp [servedBytes]
  obtain ⟨s₁, hex₁, hpoint₁⟩ := xdp_rxFilter_get (fun _ => kc) s rfl hF
  have htext : s₁.ctx.packet = s.ctx.packet.drop 54 :=
    hpoint₁.text.symm.trans (hget.keyBytes_eq (by simp))
  obtain ⟨rest, hdrop⟩ := hget.drop_text
  have hpkt : s₁.ctx.packet = k.bytes ++ cr :: rest := by rw [htext, hdrop]; simp
  -- the only key, which ends the request
  have hword : nextWord s₁.ctx.packet = k.bytes := by
    rw [hpkt, nextWord, List.takeWhile_append_of_pos k.isKeyWord.all, List.takeWhile_cons, if_neg (by decide),
      List.append_nil]
  obtain ⟨s₂, -, -, hlast⟩ := hpoint₁.last hF (by simp [savedKeys]) (by rw [hword]; exact k.ne_nil)
    (by rw [hword]; exact k.length_le) (by rw [hword, hpkt]; simp)
  rw [hword, List.nil_append, hsaved] at hlast
  obtain ⟨hex₂, hpoint₂⟩ := hlast (by simp)
  -- the headers and the reply
  obtain ⟨s₃, hex₃, hpoint₃⟩ := hpoint₂.ok 2 hroom.headroom
  have hlen : s₃.ctx.packet.length = adjustHeadLen - sizeofHeaders + s.ctx.packet.length := by
    obtain ⟨H', T, -, hT, hctx⟩ := hpoint₃.packet
    rw [hctx, List.take_zero]
    simp [servedBytes, hT]
  have hat : servedAt (fun _ => kc) [k.bytes] 0 = serveBytes kc k.bytes := by
    rw [servedAt, hsaved]
    rfl
  obtain ⟨s₄, H', hex₄, -⟩ := hpoint₃.last (by rw [hsaved]; rfl) (by rw [hsaved, hserved]; exact hhit) (by
    rw [hat, hlen]
    have := hroom.reply
    rw [show endLine.length = 5 from rfl] at this
    simp at this ⊢
    omega)
  have hrun : runXdp loaded (fun _ => kc) s = (s₄, .tx) :=
    (TailChain.run_tailCall hex₁ hloaded.hashKeys).trans <|
      (TailChain.run_tailCall hex₂ hloaded.preparePacket).trans <|
        (TailChain.run_tailCall hex₃ hloaded.writeReply).trans (TailChain.run_ret hex₄)
  rw [hrun]

theorem runXdp_single_text (hget : IsGetOf [k] s.ctx.packet) (htx : (runXdp loaded (fun _ => kc) s).2 = .tx) :
    (runXdp loaded (fun _ => kc) s).1.ctx.packet.drop sizeofHeaders = serveBytes kc k.bytes ++ endLine := by
  simpa using (runXdp_get_text (by simp) hget htx).1

end

/-! ### A reply and the GET behind it -/

/-- What is served for a key whose reply has just gone into a slot that was not valid. -/
theorem updateKCache_serves (kc : KCache) (k : Key) (text rest : Bytes)
    (hslot : (kc.entryAt (fnv1a k.bytes)).valid = false)
    (hpart : replyPart (valueWord ++ k.bytes ++ space :: rest) = valueWord ++ k.bytes ++ space :: text)
    (hlines : (replyPart (valueWord ++ k.bytes ++ space :: rest)).count lf = 2) :
    serveBytes (updateKCache kc (valueWord ++ k.bytes ++ space :: rest)) k.bytes
      = valueWord ++ k.bytes ++ space :: text := by
  set payload := valueWord ++ k.bytes ++ space :: rest with hpayload
  have hkey : replyKey payload = k.bytes := replyKey_named k.bytes rest k.length_le k.space_notMem
  have hup : upToDate (kc.entryAt (fnv1a k.bytes)) payload = false := by
    simp [upToDate, BmcCacheEntry.holdsHash, hslot]
  have hentry : (updateKCache kc payload).entryAt (fnv1a k.bytes) = (kc.entryAt (fnv1a k.bytes)).publish payload := by
    rw [KCache.entryAt, updateKCache_entry, hkey, if_pos hlines]
    exact if_pos ⟨rfl, hup⟩
  have hnames : ((kc.entryAt (fnv1a k.bytes)).publish payload).Names k text :=
    ⟨by rw [BmcCacheEntry.publish_stored, hpart], by rw [BmcCacheEntry.publish_hash, hkey]⟩
  have hhit := (hnames.serveHit_iff k.space_notMem).mpr ⟨rfl, rfl, List.prefix_rfl⟩
  rw [serveBytes, hentry, if_pos hhit, hnames.stored]

/-- **The cache round trip.**  The reply for an item that fits into an entry goes through `bmc_update_cache` into a
slot that was not valid; a GET of the key with enough room is then answered with that reply byte for byte exactly
if the data contains no `'\n'`. -/
theorem round_trip_iff (loaded : XdpProg → Bool) (hloaded : GetLoaded loaded) (k : Key) (flags value : Bytes)
    (hflags : lf ∉ flags) (hfit : (valueBlock k.bytes flags value).length ≤ bmcMaxCacheDataSize) (t : TcState)
    (htext : t.skb.data.drop sizeofHeaders = valueBlock k.bytes flags value ++ endLine)
    (hslot : (t.kcache.entryAt (fnv1a k.bytes)).valid = false) (s : XdpState) (hget : IsGetOf [k] s.ctx.packet)
    (hroom : HasRoom s.ctx (valueBlock k.bytes flags value ++ endLine).length) :
    ((runXdp loaded (fun _ => (bmcUpdateCacheMain t).1.kcache) s).2 = .tx ∧
      (runXdp loaded (fun _ => (bmcUpdateCacheMain t).1.kcache) s).1.ctx.packet.drop sizeofHeaders
        = valueBlock k.bytes flags value ++ endLine) ↔ lf ∉ value := by
  set kc := (bmcUpdateCacheMain t).1.kcache with hdef
  have hkc : kc = updateKCache t.kcache (valueBlock k.bytes flags value ++ endLine) := by
    obtain ⟨stats, hspec⟩ := updateCache_spec t
    rw [hdef, hspec, htext]
  obtain ⟨rest, hnamed⟩ := valueBlock_named k.bytes flags value
  obtain ⟨⟨text, hpart⟩, hlines⟩ :=
    replyPart_valueBlock_named k.bytes flags value endLine k.lf_notMem hflags hfit
  -- the served text is what the copy loop took
  have hserve : serveBytes kc k.bytes = replyPart (valueBlock k.bytes flags value ++ endLine) := by
    rw [hkc, hpart]
    rw [hnamed, List.append_assoc, List.cons_append] at hpart hlines ⊢
    exact updateKCache_serves t.kcache k text (rest ++ endLine) hslot hpart hlines
  constructor
  · intro hcase hmem
    obtain ⟨htx, hpay⟩ := hcase
    have hsent := runXdp_single_text hget htx
    rw [hpay, hserve] at hsent
    have hcut := replyPart_cut k.bytes flags value endLine k.lf_notMem hflags hmem hfit
    rw [← List.append_cancel_right hsent] at hcut
    exact absurd hcut (lt_irrefl _)
  · intro hno
    have hwhole : serveBytes kc k.bytes = valueBlock k.bytes flags value := by
      rw [hserve, replyPart_block k.bytes flags value endLine k.lf_notMem hflags hno hfit]
    have hne : serveBytes kc k.bytes ≠ [] := by
      rw [hwhole, hnamed]
      simp
    have htx : (runXdp loaded (fun _ => kc) s).2 = .tx := runXdp_single_hit hloaded hget hne (by
      rw [hwhole, ← List.length_append]
      exact hroom)
    exact ⟨htx, by rw [← hwhole]; exact runXdp_single_text hget htx⟩

/-- The round trip of one byte of data under a key of twelve. -/
theorem round_trip_plain :
    let k := Key.ofBytes [97, 98, 99, 100, 101, 102, 103, 104, 105, 106, 107, 108] (by decide)
    let t : TcState := ⟨SkBuff.ofFrame (udpFrame (valueBlock k.bytes [48] [120] ++ endLine)),
      StatsMap.zeroed, KCache.zeroed⟩
    let s := XdpState.received KCache.zeroed (udpFrame (getText [k] ++ []))
    (runXdp (fun _ => true) (fun _ => (bmcUpdateCacheMain t).1.kcache) s).2 = .tx ∧
      (runXdp (fun _ => true) (fun _ => (bmcUpdateCacheMain t).1.kcache) s).1.ctx.packet.drop sizeofHeaders
        = valueBlock k.bytes [48] [120] ++ endLine := by
  intro k t s
  have hfit : (valueBlock k.bytes [48] [120]).length ≤ bmcMaxCacheDataSize := by decide +kernel
  have htext : t.skb.data.drop sizeofHeaders = valueBlock k.bytes [48] [120] ++ endLine := by decide +kernel
  have hslot : (t.kcache.entryAt (fnv1a k.bytes)).valid = false := by decide +kernel
  have hroom : HasRoom s.ctx (valueBlock k.bytes [48] [120] ++ endLine).length :=
    ⟨by decide +kernel, by decide +kernel, by decide +kernel⟩
  exact (round_trip_iff (fun _ => true) ⟨rfl, rfl, rfl⟩ k [48] [120] (by decide) hfit t htext hslot s
    (isGetOf_udpFrame [k] []) hroom).mpr (by decide)

/-- Data with a `'\n'` in the middle: the answer stops behind it, although the length field announces more. -/
theorem round_trip_cut :
    let k := Key.ofBytes [97, 98, 99, 100, 101, 102, 103, 104, 105, 106, 107, 108] (by decide)
    let t : TcState := ⟨SkBuff.ofFrame (udpFrame (valueBlock k.bytes [48] [120, lf, 121] ++ endLine)),
      StatsMap.zeroed, KCache.zeroed⟩
    let kc := (bmcUpdateCacheMain t).1.kcache
    let r := runXdp (fun _ => true) (fun _ => kc) (XdpState.received kc (udpFrame (getText [k])))
    r.2 = .tx ∧ r.1.ctx.packet.drop sizeofHeaders ≠ valueBlock k.bytes [48] [120, lf, 121] ++ endLine := by
  decide +kernel

end BmcCache
