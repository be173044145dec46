import BmcCache.InvalidateCache
import BmcCache.UpdateCache
import BmcCache.WriteReply

/-!
# The two chains, and the GET chain from key to key

`runXdp` runs the ingress chain from `bmc_rx_filter` on, `runTc` the egress chain from `bmc_tx_filter` on.  Other CPUs
may change `map_kcache` between two programs of an ingress chain: `kcacheAt n` is the cache the `n`-th program sees.

The GET chain is followed through three kinds of points, each with everything that holds there:

* `HashPoint ws s` — before a call of `bmc_hash_keys`, when the words `ws` of the request have been read;
* `PreparePoint ws s` — before `bmc_prepare_packet`, when all words have;
* `WritePoint ws i s` — before the call of `bmc_write_reply` for the `i`-th saved key.

The step lemmas say where each program leads from its point and under which condition.  They are the only place
where the programs are looked at again; everything about whole chains is derived from them.
-/

namespace BmcCache

open ByteBuffer List

/-- `MAX_TAIL_CALL_CNT`: a chain makes at most this many tail calls. -/
@[simp] abbrev maxTailCallCnt : ℕ := 33

def xdpExec (kcacheAt : ℕ → KCache) (n : ℕ) (p : XdpProg) (s : XdpState) : XdpState × XdpOutcome :=
  let s := { s with kcache := kcacheAt n }
  match p with
  | .rxFilter => bmcRxFilterMain s
  | .hashKeys => bmcHashKeysMain s
  | .preparePacket => bmcPreparePacketMain s
  | .writeReply => bmcWriteReplyMain s
  | .invalidateCache => bmcInvalidateCacheMain s

/-- The ingress chain; `loaded` says which slots of `map_progs_xdp` are filled. -/
def runXdp (loaded : XdpProg → Bool) (kcacheAt : ℕ → KCache) (s : XdpState) : XdpState × XdpAction :=
  TailChain.run (xdpExec kcacheAt) loaded maxTailCallCnt 0 .rxFilter s

/-- A frame as the driver hands it over, with `XDP_PACKET_HEADROOM` before it and per-CPU maps still zeroed. -/
def XdpState.received (kc : KCache) (pkt : Bytes) : XdpState where
  ctx := ⟨replicate 256 0, pkt⟩
  keys := ArrayMap.replicate _ ⟨0, replicate bmcMaxKeyLength 0, 0, length_replicate⟩
  pctx := ArrayMap.replicate _ ⟨0, 0, 0, 0⟩
  stats := StatsMap.zeroed
  kcache := kc

def tcExec (_ : ℕ) (p : TcProg) (s : TcState) : TcState × TcOutcome :=
  match p with
  | .txFilter => bmcTxFilterMain s
  | .updateCache => bmcUpdateCacheMain s

def runTc (loaded : TcProg → Bool) (s : TcState) : TcState × TcAction :=
  TailChain.run tcExec loaded maxTailCallCnt 0 .txFilter s

/-- The datagrams `bmc_tx_filter` hands to `bmc_update_cache`. -/
def TxAccepts (skb : SkBuff) : Prop :=
  skb.len ≤ bmcMaxCacheDataSize + sizeofHeaders ∧ sizeofEthhdr + sizeofIphdr + sizeofUdphdr ≤ skb.data.length ∧
    skb.data.getD 23 0 = ipprotoUdp ∧ be16At skb.data 34 = memcachedPort ∧
    (skb.data.drop sizeofHeaders).take 6 = valueWord

instance (skb : SkBuff) : Decidable (TxAccepts skb) := by
  unfold TxAccepts; infer_instance

theorem txFilter_accepts (s : TcState) (h : TxAccepts s.skb) :
    ∃ stats, bmcTxFilterMain s = ({ s with stats := stats }, .tailCall .updateCache .ok) := by
  obtain ⟨hlen, hdata, hproto, hport, hword⟩ := h
  have hpay : 5 + 1 ≤ (s.skb.data.drop sizeofHeaders).length := by
    have := congrArg length hword
    rw [length_take, show valueWord.length = 6 from rfl] at this
    omega
  have h1 : ¬ bmcMaxCacheDataSize + sizeofHeaders < s.skb.len := by omega
  have h2 : ¬ s.skb.data.length < sizeofEthhdr + sizeofIphdr := by omega
  have h3 : ¬ s.skb.data.length < sizeofEthhdr + sizeofIphdr + sizeofUdphdr := by omega
  simp only [bmcTxFilterMain, if_neg h1, if_neg h2, hproto, ne_eq, not_true_eq_false, if_false, if_neg h3, hport,
    hpay, hword, and_self, if_true, ArrayMap.lookup_of_lt s.stats Nat.one_pos]
  exact ⟨_, rfl⟩

theorem txFilter_rejects (s : TcState) (h : ¬ TxAccepts s.skb) : ∃ v, bmcTxFilterMain s = (s, .ret v) := by
  unfold bmcTxFilterMain
  simp only
  split
  · exact ⟨_, rfl⟩
  · split
    · exact ⟨_, rfl⟩
    · split
      · exact ⟨_, rfl⟩
      · split
        · exact ⟨_, rfl⟩
        · rw [if_neg]
          · exact ⟨_, rfl⟩
          · intro hcase
            obtain ⟨hport, -, hword⟩ := hcase
            exact h ⟨by omega, by omega, by_contra fun hp => absurd hp (by assumption), hport, hword⟩

/-- **The egress chain** refreshes the cache from the datagrams the filter accepts. -/
theorem runTc_kcache (loaded : TcProg → Bool) (s : TcState) (hl : loaded .updateCache = true) :
    (runTc loaded s).1.kcache =
      if TxAccepts s.skb then updateKCache s.kcache (s.skb.data.drop sizeofHeaders) else s.kcache := by
  split
  · rename_i h
    obtain ⟨stats, hfilter⟩ := txFilter_accepts s h
    obtain ⟨stats', hupdate⟩ := updateCache_spec { s with stats := stats }
    have hfirst : tcExec 0 .txFilter s = _ := hfilter
    have hsecond : tcExec 1 .updateCache { s with stats := stats } = _ := hupdate
    have hrun : runTc loaded s = _ := (TailChain.run_tailCall hfirst hl).trans (TailChain.run_ret hsecond)
    rw [hrun]
  · rename_i h
    obtain ⟨v, hfilter⟩ := txFilter_rejects s h
    have hfirst : tcExec 0 .txFilter s = _ := hfilter
    have hrun : runTc loaded s = _ := TailChain.run_ret hfirst
    rw [hrun]

/-! ### The request's words -/

/-- Words the hashing program accepts: 1 to 250 bytes, none of them a separator. -/
structure IsKeyWord (w : Bytes) : Prop where
  ne_nil : w ≠ []
  length_le : w.length ≤ bmcMaxKeyLength
  all : ∀ b ∈ w, keyByte b = true

def joinWords (ws : List Bytes) : Bytes := ws.flatMap (· ++ [space])

theorem joinWords_snoc (ws : List Bytes) (w : Bytes) :
    joinWords (ws ++ [w]) = joinWords ws ++ (w ++ [space]) := by
  simp [joinWords]

theorem joinWords_append (ws : List Bytes) (w : Bytes) :
    joinWords ws ++ w = [space].intercalate (ws ++ [w]) := by
  induction ws with
  | nil => simp [joinWords]
  | cons v vs ih =>
    have hne : vs ++ [w] ≠ [] := by simp
    rw [cons_append, intercalate_cons_of_ne_nil hne, ← ih]
    simp [joinWords]

/-- The space-separated words of a request, up to the first carriage return. -/
def requestWords (text : Bytes) : List Bytes := (text.takeWhile (· != cr)).splitOn space

theorem requestWords_eq (ws : List Bytes) (w rest : Bytes) (hws : ∀ v ∈ ws ++ [w], IsKeyWord v) :
    requestWords (joinWords ws ++ (w ++ cr :: rest)) = ws ++ [w] := by
  have hcr : ∀ b ∈ joinWords ws ++ w, (b != cr) = true := by
    intro b hb
    have hkey : ∀ v ∈ ws ++ [w], b ∈ v → b ≠ cr := fun v hv hbv =>
      (keyByte_eq_true.mp ((hws v hv).all b hbv)).2
    simp only [joinWords, mem_append, mem_flatMap, mem_singleton] at hb
    rcases hb with ⟨v, hv, hbv | rfl⟩ | hbw
    · simpa using hkey v (by simp [hv]) hbv
    · decide
    · simpa using hkey w (by simp) hbw
  have htake : (joinWords ws ++ (w ++ cr :: rest)).takeWhile (· != cr) = joinWords ws ++ w := by
    rw [← append_assoc, takeWhile_append_of_pos hcr, takeWhile_cons, if_neg (by simp),
      append_nil]
  rw [requestWords, htake, joinWords_append]
  apply splitOn_intercalate
  · intro v hv hsp
    exact (keyByte_eq_true.mp ((hws v hv).all _ hsp)).1 rfl
  · simp

theorem nextWord_split (l : Bytes) (b : UInt8) (h : l[(nextWord l).length]? = some b) :
    l = nextWord l ++ b :: l.drop ((nextWord l).length + 1) ∧ keyByte b = false := by
  obtain ⟨hlt, hb⟩ := List.getElem?_eq_some_iff.mp h
  have hsplit : l = nextWord l ++ l.drop (nextWord l).length := by
    conv_lhs => rw [← take_append_drop (nextWord l).length l, take_nextWord]
  have hdrop : l.drop (nextWord l).length = b :: l.drop ((nextWord l).length + 1) := by
    rw [drop_eq_getElem_cons hlt, hb]
  refine ⟨by rw [← hdrop]; exact hsplit, ?_⟩
  have hdw : l.dropWhile keyByte = b :: l.drop ((nextWord l).length + 1) := by
    rw [← hdrop]
    have := takeWhile_append_dropWhile (p := keyByte) (l := l)
    exact (append_cancel_left (hsplit.symm.trans this.symm)).symm
  have hhead := head?_dropWhile_not keyByte l
  rw [hdw] at hhead
  simpa using hhead

/-! ### The saved keys and what is served for them -/

/-- The saved keys: those whose entry was valid with equal hash when their call of `bmc_hash_keys` ran. -/
def savedKeys (kcacheAt : ℕ → KCache) (ws : List Bytes) : List Bytes :=
  ((ws.zipIdx 1).filter fun p => keyHit (kcacheAt p.2) p.1).map Prod.fst

theorem savedKeys_snoc (kcacheAt : ℕ → KCache) (ws : List Bytes) (w : Bytes) :
    savedKeys kcacheAt (ws ++ [w]) = saveKey (kcacheAt (ws.length + 1)) (savedKeys kcacheAt ws) w := by
  unfold savedKeys saveKey
  rw [zipIdx_append, filter_append, map_append, Nat.add_comm 1]
  by_cases hh : keyHit (kcacheAt (ws.length + 1)) w = true <;> simp [hh]

theorem savedKeys_subset (kcacheAt : ℕ → KCache) (ws : List Bytes) :
    ∀ k ∈ savedKeys kcacheAt ws, k ∈ ws := by
  intro k hk
  obtain ⟨p, hp, rfl⟩ := mem_map.mp hk
  exact (mem_zipIdx (mem_filter.mp hp).1).2.2 ▸ getElem_mem _

/-- What the calls of `bmc_write_reply` from the `n`-th program on serve for the keys `ks`. -/
def servedBytes (kcacheAt : ℕ → KCache) (n : ℕ) (ks : List Bytes) : Bytes :=
  (ks.zipIdx n).flatMap fun p => serveBytes (kcacheAt p.2) p.1

theorem servedBytes_snoc (kcacheAt : ℕ → KCache) (n : ℕ) (ks : List Bytes) (k : Bytes) :
    servedBytes kcacheAt n (ks ++ [k])
      = servedBytes kcacheAt n ks ++ serveBytes (kcacheAt (n + ks.length)) k := by
  simp [servedBytes, zipIdx_append]

end BmcCache
