import BmcCache.GetReply
import BmcCache.Hashers

/-!
# The table of saved keys

`bmc_hash_keys` runs once for each word of the request.  What `bmc_prepare_packet` finds in `map_keys` when a chain gets
there, for every frame, every content of the maps and every change of the cache between the programs.

* `chainEntries` — the programs an ingress chain enters;
* `SavedPoint` — `ChainPoint` up to `bmc_prepare_packet` with the misses counted; `SavedPoint.step` is one program;
* `saved_key_table` — the whole table, and the miss counter.
-/

namespace BmcCache

def chainEntries (loaded : XdpProg → Bool) (kcacheAt : ℕ → KCache) (s : XdpState) :
    List (ℕ × XdpProg × XdpState) :=
  TailChain.entries (xdpExec kcacheAt) loaded maxTailCallCnt 0 .rxFilter s

/-- `stats->miss_count` of this CPU -/
def XdpState.missCount (s : XdpState) : ℕ := (s.stats ⟨0, Nat.one_pos⟩).missCount

/-- `stats->hit_count` of this CPU -/
def XdpState.hitCount (s : XdpState) : ℕ := (s.stats ⟨0, Nat.one_pos⟩).hitCount

/-! ### The counters -/

theorem rxDispatch_counts (s : XdpState) (protocol : UInt8) (dport : ℕ) (payload : Bytes) :
    (rxDispatch s protocol dport payload).1.hitCount = s.hitCount ∧
      (rxDispatch s protocol dport payload).1.missCount = s.missCount := by
  unfold rxDispatch
  simp only [ArrayMap.lookup_of_lt _ Nat.one_pos]
  split
  · split
    · split
      · split
        · exact ⟨rfl, rfl⟩
        · exact ⟨rfl, rfl⟩
      · exact ⟨rfl, rfl⟩
    · split
      · exact ⟨rfl, rfl⟩
      · exact ⟨rfl, rfl⟩
  · exact ⟨rfl, rfl⟩

theorem bmcRxFilterMain_counts (s : XdpState) :
    (bmcRxFilterMain s).1.hitCount = s.hitCount ∧ (bmcRxFilterMain s).1.missCount = s.missCount := by
  unfold bmcRxFilterMain
  dsimp only
  split
  · exact ⟨rfl, rfl⟩
  split
  · split
    · exact ⟨rfl, rfl⟩
    · exact rxDispatch_counts _ _ _ _
  split
  · split
    · exact ⟨rfl, rfl⟩
    · exact rxDispatch_counts _ _ _ _
  · exact ⟨rfl, rfl⟩

theorem savedKeys_length_le (kcacheAt : ℕ → KCache) (ws : List Bytes) :
    (savedKeys kcacheAt ws).length ≤ ws.length := by
  rw [savedKeys, List.length_map]
  exact (List.length_filter_le _ _).trans List.length_zipIdx.le

section

variable (H F : Bytes) (kcacheAt : ℕ → KCache) (m₀ : ℕ)

/-- The counter when the words `ws` have been read: it has grown by those that were not saved. -/
def MissesCounted (ws : List Bytes) (s : XdpState) : Prop :=
  s.missCount = u32 (m₀ + (ws.length - (savedKeys kcacheAt ws).length))

/-- What holds when `p` is entered as the `n`-th program; the misses are counted up to `bmc_prepare_packet`. -/
def SavedPoint (n : ℕ) : XdpProg → XdpState → Prop
  | .rxFilter, s => n = 0 ∧ s.ctx = ⟨H, F⟩ ∧ s.missCount = m₀
  | .hashKeys, s =>
    ∃ ws, n = ws.length + 1 ∧ StartsGetChain F ∧ HashPoint H F kcacheAt ws s ∧ MissesCounted kcacheAt m₀ ws s
  | .preparePacket, s => ∃ ws, n = ws.length + 1 ∧ PreparePoint H F kcacheAt ws s ∧
      MissesCounted kcacheAt m₀ ws s
  | .writeReply, s => ∃ ws i, n = ws.length + 2 + i ∧ WritePoint H F kcacheAt ws i s
  | .invalidateCache, _ => True

end

section

variable {H F : Bytes} {kcacheAt : ℕ → KCache} {m₀ n : ℕ} {ws : List Bytes} {s s' : XdpState}

theorem MissesCounted.snoc (h : MissesCounted kcacheAt m₀ ws s) (w : Bytes)
    (hstats : s'.stats = if keyHit (kcacheAt (ws.length + 1)) w then s.stats else countMiss s.stats) :
    MissesCounted kcacheAt m₀ (ws ++ [w]) s' := by
  have hle := savedKeys_length_le kcacheAt ws
  unfold MissesCounted at h ⊢
  rw [savedKeys_snoc, saveKey, List.length_append, List.length_singleton]
  by_cases hhit : keyHit (kcacheAt (ws.length + 1)) w = true
  · rw [if_pos hhit] at hstats
    rw [if_pos hhit, List.length_append, List.length_singleton, Nat.add_sub_add_right, ← h,
      XdpState.missCount, hstats]
    rfl
  · rw [if_neg hhit] at hstats
    have hcount : s'.missCount = u32 (s.missCount + 1) := by
      rw [XdpState.missCount, hstats]
      rfl
    rw [if_neg hhit, hcount, h, Nat.sub_add_comm hle, ← Nat.add_assoc]
    unfold u32
    omega

/-- **One program of the chain.** -/
theorem SavedPoint.step (hm : m₀ < 2 ^ 32) {p q : XdpProg} {v : XdpAction} (hn : n < maxTailCallCnt)
    (h : SavedPoint H F kcacheAt m₀ n p s) (hex : xdpExec kcacheAt n p s = (s', .tailCall q v)) :
    SavedPoint H F kcacheAt m₀ (n + 1) q s' := by
  cases p with
  | rxFilter =>
    obtain ⟨rfl, hctx, hcount⟩ := h
    have hcount' : s'.missCount = m₀ := by
      have hsame := (bmcRxFilterMain_counts { s with kcache := kcacheAt 0 }).2
      rw [show bmcRxFilterMain { s with kcache := kcacheAt 0 } = (s', .tailCall q v) from hex] at hsame
      exact hsame.trans hcount
    rcases rxFilter_calls hctx hex with ⟨rfl, hF, hpoint⟩ | ⟨rfl, -⟩
    · exact ⟨[], rfl, hF, hpoint, hcount'.trans (u32_of_lt hm).symm⟩
    · trivial
  | hashKeys =>
    obtain ⟨ws, rfl, hF, hpoint, hcount⟩ := h
    obtain ⟨hstats, ⟨rfl, hprepare⟩ | ⟨rfl, hnext⟩⟩ := hpoint.calls hF hn.le hex
    · exact ⟨_, by simp, hprepare, hcount.snoc _ hstats⟩
    · exact ⟨_, by simp, hF, hnext, hcount.snoc _ hstats⟩
  | preparePacket =>
    obtain ⟨ws, rfl, hpoint, -⟩ := h
    obtain ⟨rfl, hwrite⟩ := hpoint.calls hex
    exact ⟨ws, 0, rfl, hwrite⟩
  | writeReply =>
    obtain ⟨ws, i, rfl, hpoint⟩ := h
    obtain ⟨rfl, hnext⟩ := hpoint.calls hex
    exact ⟨ws, i + 1, by omega, hnext⟩
  | invalidateCache => exact absurd hex invalidateCache_calls

end

/-- **The table of saved keys** when a chain gets to `bmc_prepare_packet`. The words of the request up to the first
`'\r'` are keys of 1 to 250 bytes; those whose entry was valid with their hash when their program ran stand in
`map_keys`, in the order of the request, and the others were counted as misses. -/
theorem saved_key_table (loaded : XdpProg → Bool) (kcacheAt : ℕ → KCache) (s t : XdpState) (n : ℕ)
    (hcount : s.missCount < 2 ^ 32) (hreach : (n, .preparePacket, t) ∈ chainEntries loaded kcacheAt s) :
    let ws := requestWords (keyBytes s.ctx.packet)
    let saved := ((ws.zipIdx 1).filter fun p =>
      ((kcacheAt p.2).entryAt (fnv1a p.1)).holdsHash (fnv1a p.1)).map Prod.fst
    IsGetFrame s.ctx.packet ∧ (∀ w ∈ ws, 1 ≤ w.length ∧ w.length ≤ 250) ∧
      (∃ pc, t.pctx.lookup 0 = some pc ∧ pc.keyCount = saved.length) ∧ saved.length ≤ 30 ∧
      (∀ i w, saved[i]? = some w → ∃ r, t.keys.lookup i = some r ∧
        r.hash = fnv1aHash32 w w.length fnvOffsetBasis32 ∧ r.len = w.length ∧ r.data.take r.len = w) ∧
      t.missCount = (s.missCount + (ws.length - saved.length)) % 2 ^ 32 := by
  intro ws saved
  have hstart : SavedPoint s.ctx.head s.ctx.packet kcacheAt s.missCount 0 .rxFilter s := ⟨rfl, rfl, rfl⟩
  have hpoint := TailChain.entries_invariant maxTailCallCnt (SavedPoint s.ctx.head s.ctx.packet kcacheAt s.missCount)
    (fun m p a b q v hm hI hex => SavedPoint.step hcount hm hI hex) (by omega) hstart hreach
  obtain ⟨ws', -, hprepare, hmisses⟩ := hpoint
  obtain rfl : ws' = ws := hprepare.text.symm
  obtain ⟨r, hpc⟩ := hprepare.context
  refine ⟨hprepare.frame.1, fun w hw => ?_, ⟨_, hpc, rfl⟩, hprepare.saved_le, fun i w hi => ?_, hmisses⟩
  · have hword := hprepare.words w hw
    exact ⟨List.length_pos_iff.mpr hword.ne_nil, hword.length_le⟩
  · obtain ⟨rec, hrec, hholds⟩ := hprepare.keys i w hi
    refine ⟨rec, hrec, ?_, hholds.len, ?_⟩
    · rw [fnv1aHash32_eq]
      exact hholds.hash
    · rw [hholds.len]
      exact hholds.data

/-- A GET of a key that is not cached and of one that is: the first one is counted. -/
theorem saved_key_table_hit_miss :
    let kc := updateKCache KCache.zeroed
      (valueBlock [97, 98, 99, 100, 101, 102, 103, 104, 105, 106, 107, 108] [48] [120] ++ endLine)
    let s := XdpState.received kc
      (udpFrame (getWord ++ [122, space] ++ [97, 98, 99, 100, 101, 102, 103, 104, 105, 106, 107, 108] ++ crlf))
    ∃ n t, (n, .preparePacket, t) ∈ chainEntries (fun _ => true) (fun _ => kc) s ∧ t.missCount = 1 := by
  intro kc s
  have hany : (chainEntries (fun _ => true) (fun _ => kc) s).any (fun e => decide (e.2.1 = .preparePacket)) = true := by
    decide +kernel
  obtain ⟨⟨n, p, t⟩, hmem, hp⟩ := List.any_eq_true.mp hany
  obtain rfl : p = .preparePacket := of_decide_eq_true hp
  obtain ⟨-, -, -, -, -, hmisses⟩ := saved_key_table (fun _ => true) (fun _ => kc) s t n (by decide +kernel) hmem
  exact ⟨n, t, hmem, hmisses.trans (by decide +kernel)⟩

end BmcCache
