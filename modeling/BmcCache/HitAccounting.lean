import BmcCache.SavedKeys

/-!
# Hit and miss accounting of a GET chain

`bmc_hash_keys` counts a miss for every word it does not save, `bmc_write_reply` a hit or a miss for every saved key.
Its `cache_hit` starts at 1 and is lowered only where a valid entry with the key's hash holds other key bytes, so an
entry that was invalidated or replaced since `bmc_hash_keys` saved the key is counted as a hit.

* `FinishesRequest` — the programs that finish a request: the reply, or the request passed because nothing was served;
* `CountedPoint` — `ChainPoint` with both counters; `CountedPoint.step` is one program;
* `hit_accounting_iff` — every key is counted once, and the hits are the copied entries exactly when each saved key's
  entry still had its hash.
-/

namespace BmcCache

open List

/-- How far a `u32` counter has moved on. -/
def counterGrowth (before after : ℕ) : ℕ := (after + 2 ^ 32 - before) % 2 ^ 32

theorem counterGrowth_add {before d : ℕ} (hb : before < 2 ^ 32) (hd : d < 2 ^ 32) :
    counterGrowth before (u32 (before + d)) = d := by
  unfold counterGrowth u32
  omega

theorem u32_succ (n : ℕ) : u32 (u32 n + 1) = u32 (n + 1) := by
  unfold u32
  omega

/-- The entry of `key` is copied by the program that sees the cache `kc`. -/
def copiesEntry (kc : KCache) (key : Bytes) : Bool := serveHit (kc.entryAt (fnv1a key)) key

def holdsKeyHash (kc : KCache) (key : Bytes) : Bool := (kc.entryAt (fnv1a key)).holdsHash (fnv1a key)

/-- How many of the keys `ks`, taken up by the programs from the `n`-th on, satisfy a test on the cache. -/
def countServed (test : KCache → Bytes → Bool) (kcacheAt : ℕ → KCache) (n : ℕ)
    (ks : List Bytes) : ℕ :=
  (ks.zipIdx n).countP fun p => test (kcacheAt p.2) p.1

theorem countServed_snoc (test : KCache → Bytes → Bool) (kcacheAt : ℕ → KCache) (n : ℕ)
    (ks : List Bytes) (k : Bytes) :
    countServed test kcacheAt n (ks ++ [k]) =
      countServed test kcacheAt n ks + (test (kcacheAt (n + ks.length)) k).toNat := by
  rw [countServed, zipIdx_append, countP_append, countServed]
  cases h : test (kcacheAt (n + ks.length)) k <;> simp [h]

theorem countServed_le (test : KCache → Bytes → Bool) (kcacheAt : ℕ → KCache) (n : ℕ)
    (ks : List Bytes) : countServed test kcacheAt n ks ≤ ks.length := by
  exact countP_le_length.trans length_zipIdx.le

theorem cacheHitFlag_toNat (kc : KCache) (key : Bytes) :
    (cacheHitFlag kc key).toNat = (copiesEntry kc key).toNat + (!holdsKeyHash kc key).toNat := by
  unfold cacheHitFlag copiesEntry holdsKeyHash serveHit
  cases (kc.entryAt (fnv1a key)).holdsHash (fnv1a key) <;> simp

/-- **The counted hits are copied entries** exactly when every entry still had the key's hash. -/
theorem countServed_flag_eq_iff (kcacheAt : ℕ → KCache) (n : ℕ) (ks : List Bytes) :
    countServed cacheHitFlag kcacheAt n ks = countServed copiesEntry kcacheAt n ks ↔
      ∀ i k, ks[i]? = some k → holdsKeyHash (kcacheAt (n + i)) k = true := by
  have hsum : countServed cacheHitFlag kcacheAt n ks = countServed copiesEntry kcacheAt n ks +
      countServed (fun kc k => !holdsKeyHash kc k) kcacheAt n ks := by
    induction ks using reverseRecOn with
    | nil => rfl
    | append_singleton ks k ih =>
      rw [countServed_snoc, countServed_snoc, countServed_snoc, ih, cacheHitFlag_toNat]
      omega
  rw [hsum, Nat.add_eq_left, countServed, countP_eq_zero]
  constructor
  · intro h i k hi
    have hmem : (k, n + i) ∈ ks.zipIdx n := by
      rw [mk_mem_zipIdx_iff_le_and_getElem?_sub]
      exact ⟨Nat.le_add_right n i, by rwa [Nat.add_sub_cancel_left]⟩
    simpa using h _ hmem
  · intro h p hp
    obtain ⟨k, j⟩ := p
    obtain ⟨hle, hk⟩ := mk_mem_zipIdx_iff_le_and_getElem?_sub.mp hp
    have := h (j - n) k hk
    rw [Nat.add_sub_cancel' hle] at this
    simp [this]

/-! ### One saved key -/

theorem finishReply_stats (s : XdpState) (writePktOffset written : ℕ) :
    (finishReply s writePktOffset written).1.stats = s.stats := by
  unfold finishReply
  dsimp only
  split
  · split
    · rfl
    · split
      · rfl
      · rfl
  · rfl

theorem bmcPreparePacketMain_stats (s : XdpState) : (bmcPreparePacketMain s).1.stats = s.stats := by
  unfold bmcPreparePacketMain
  split
  · rfl
  · dsimp only
    split
    · rfl
    · split
      · rfl
      · rfl

/-- Behind the increment of `current_key` only `hit_misprediction` is counted. -/
theorem writeReplyNext_counts (s : XdpState) (pc : ParsingContext) (stats : BmcStats) (written : ℕ)
    (hst : s.stats ⟨0, Nat.one_pos⟩ = stats) :
    (writeReplyNext s pc stats written).1.hitCount = stats.hitCount ∧
      (writeReplyNext s pc stats written).1.missCount = stats.missCount := by
  subst hst
  unfold writeReplyNext
  dsimp only
  split
  · unfold XdpState.hitCount XdpState.missCount
    rw [finishReply_stats]
    exact ⟨rfl, rfl⟩
  · split
    · exact ⟨rfl, rfl⟩
    · split
      · split
        · exact ⟨rfl, rfl⟩
        · exact ⟨rfl, rfl⟩
      · exact ⟨rfl, rfl⟩

section

variable {H F : Bytes} {kcacheAt : ℕ → KCache} {ws : List Bytes} {i : ℕ} {s : XdpState}

/-- The call for a saved key counts a hit if `cache_hit` is left set, and a miss otherwise. -/
theorem WritePoint.counts (h : WritePoint H F kcacheAt ws i s) :
    let flag := cacheHitFlag (kcacheAt (ws.length + 2 + i)) ((savedKeys kcacheAt ws).getD i [])
    (xdpExec kcacheAt (ws.length + 2 + i) .writeReply s).1.hitCount =
        (if flag then u32 (s.hitCount + 1) else s.hitCount) ∧
      (xdpExec kcacheAt (ws.length + 2 + i) .writeReply s).1.missCount =
        if flag then s.missCount else u32 (s.missCount + 1) := by
  intro flag
  obtain ⟨r, hpc⟩ := h.context
  have hget : (savedKeys kcacheAt ws)[i]? = some ((savedKeys kcacheAt ws).getD i []) := by
    rw [getElem?_eq_getElem h.index_lt, getD_eq_getElem _ _ h.index_lt]
  obtain ⟨rec, hrec, hholds⟩ := h.keys i _ hget
  have hkey : IsKeyWord ((savedKeys kcacheAt ws).getD i []) :=
    h.words _ (savedKeys_subset kcacheAt ws _ (mem_of_getElem? hget))
  have hne : s.ctx.packet ≠ [] := by
    intro hnil
    have := h.room
    rw [hnil, length_nil] at this
    omega
  have hex := writeReply_key { s with kcache := kcacheAt (ws.length + 2 + i) } _ rec _ _ hpc hrec hholds
    hkey.length_le (ArrayMap.lookup_of_lt s.stats Nat.one_pos) hne
  change (bmcWriteReplyMain { s with kcache := kcacheAt (ws.length + 2 + i) }).1.hitCount = _ ∧
    (bmcWriteReplyMain { s with kcache := kcacheAt (ws.length + 2 + i) }).1.missCount = _
  rw [hex]
  refine ⟨(writeReplyNext_counts _ _ _ _ ?_).1.trans ?_, (writeReplyNext_counts _ _ _ _ ?_).2.trans ?_⟩
  · rfl
  · show (countServe _ flag).hitCount = _
    unfold countServe
    split <;> rfl
  · rfl
  · show (countServe _ flag).missCount = _
    unfold countServe
    split <;> rfl

end

/-! ### Both counters from point to point -/

section

variable (H F : Bytes) (kcacheAt : ℕ → KCache) (h₀ m₀ : ℕ)

/-- The counters when `a` hits and `b` misses have been counted. -/
structure CountsAre (a b : ℕ) (s : XdpState) : Prop where
  hits : s.hitCount = u32 (h₀ + a)
  misses : s.missCount = u32 (m₀ + b)

/-- The hits counted for the first `i` saved keys. -/
def hitsBefore (ws : List Bytes) (i : ℕ) : ℕ :=
  countServed cacheHitFlag kcacheAt (ws.length + 2) ((savedKeys kcacheAt ws).take i)

/-- What holds when `p` is entered as the `n`-th program, with both counters. -/
def CountedPoint (n : ℕ) (p : XdpProg) (s : XdpState) : Prop :=
  n ≤ maxTailCallCnt ∧
  match p with
  | .rxFilter => n = 0 ∧ s.ctx = ⟨H, F⟩ ∧ CountsAre h₀ m₀ 0 0 s
  | .hashKeys =>
    ∃ ws, n = ws.length + 1 ∧ StartsGetChain F ∧ HashPoint H F kcacheAt ws s ∧
      CountsAre h₀ m₀ 0 (ws.length - (savedKeys kcacheAt ws).length) s
  | .preparePacket =>
    ∃ ws, n = ws.length + 1 ∧ PreparePoint H F kcacheAt ws s ∧
      CountsAre h₀ m₀ 0 (ws.length - (savedKeys kcacheAt ws).length) s
  | .writeReply =>
    ∃ ws i, n = ws.length + 2 + i ∧ WritePoint H F kcacheAt ws i s ∧
      CountsAre h₀ m₀ (hitsBefore kcacheAt ws i)
        (ws.length - (savedKeys kcacheAt ws).length + (i - hitsBefore kcacheAt ws i)) s
  | .invalidateCache => True

end

section

variable {H F : Bytes} {kcacheAt : ℕ → KCache} {h₀ m₀ n i a b : ℕ} {ws : List Bytes}
  {s s' : XdpState}

theorem CountsAre.word (h : CountsAre h₀ m₀ 0 (ws.length - (savedKeys kcacheAt ws).length) s) (w : Bytes)
    (hstats : s'.stats = if keyHit (kcacheAt (ws.length + 1)) w then s.stats else countMiss s.stats) :
    CountsAre h₀ m₀ 0 ((ws ++ [w]).length - (savedKeys kcacheAt (ws ++ [w])).length) s' := by
  refine ⟨?_, MissesCounted.snoc h.misses w hstats⟩
  rw [← h.hits, XdpState.hitCount, hstats]
  split <;> rfl

theorem hitsBefore_succ (hi : i < (savedKeys kcacheAt ws).length) :
    hitsBefore kcacheAt ws (i + 1) = hitsBefore kcacheAt ws i +
      (cacheHitFlag (kcacheAt (ws.length + 2 + i)) ((savedKeys kcacheAt ws).getD i [])).toNat := by
  rw [hitsBefore, take_add_one, getElem?_eq_getElem hi, Option.toList_some, countServed_snoc,
    length_take, Nat.min_eq_left hi.le, hitsBefore, getD_eq_getElem _ _ hi]

theorem hitsBefore_le (kcacheAt : ℕ → KCache) (ws : List Bytes) (i : ℕ) : hitsBefore kcacheAt ws i ≤ i :=
  (countServed_le _ _ _ _).trans (length_take_le _ _)

theorem WritePoint.counted (h : WritePoint H F kcacheAt ws i s)
    (hc : CountsAre h₀ m₀ (hitsBefore kcacheAt ws i)
      (ws.length - (savedKeys kcacheAt ws).length + (i - hitsBefore kcacheAt ws i)) s) :
    CountsAre h₀ m₀ (hitsBefore kcacheAt ws (i + 1))
      (ws.length - (savedKeys kcacheAt ws).length + (i + 1 - hitsBefore kcacheAt ws (i + 1)))
      (xdpExec kcacheAt (ws.length + 2 + i) .writeReply s).1 := by
  obtain ⟨hhit, hmiss⟩ := h.counts
  have hle := hitsBefore_le kcacheAt ws i
  rw [hc.hits] at hhit
  rw [hc.misses] at hmiss
  rw [hitsBefore_succ h.index_lt]
  cases hflag : cacheHitFlag (kcacheAt (ws.length + 2 + i)) ((savedKeys kcacheAt ws).getD i []) with
  | true =>
    rw [hflag, if_pos rfl] at hhit hmiss
    refine ⟨hhit.trans ?_, hmiss.trans ?_⟩
    · rw [Bool.toNat_true, u32_succ, Nat.add_assoc]
    · rw [Bool.toNat_true, Nat.add_sub_add_right]
  | false =>
    rw [hflag, if_neg Bool.false_ne_true] at hhit hmiss
    refine ⟨hhit.trans ?_, hmiss.trans ?_⟩
    · rw [Bool.toNat_false, Nat.add_zero]
    · rw [Bool.toNat_false, Nat.add_zero, u32_succ]
      congr 1
      omega

/-- **One program of the chain.** -/
theorem CountedPoint.step {p q : XdpProg} {v : XdpAction} (hn : n < maxTailCallCnt)
    (h : CountedPoint H F kcacheAt h₀ m₀ n p s) (hex : xdpExec kcacheAt n p s = (s', .tailCall q v)) :
    CountedPoint H F kcacheAt h₀ m₀ (n + 1) q s' := by
  refine ⟨hn, ?_⟩
  obtain ⟨-, h⟩ := h
  cases p with
  | rxFilter =>
    obtain ⟨rfl, hctx, hc⟩ := h
    have hsame := bmcRxFilterMain_counts { s with kcache := kcacheAt 0 }
    rw [show bmcRxFilterMain { s with kcache := kcacheAt 0 } = (s', .tailCall q v) from hex] at hsame
    rcases rxFilter_calls hctx hex with ⟨rfl, hF, hpoint⟩ | ⟨rfl, -⟩
    · exact ⟨[], rfl, hF, hpoint, hsame.1.trans hc.hits, hsame.2.trans hc.misses⟩
    · trivial
  | hashKeys =>
    obtain ⟨ws, rfl, hF, hpoint, hc⟩ := h
    obtain ⟨hstats, ⟨rfl, hprepare⟩ | ⟨rfl, hnext⟩⟩ := hpoint.calls hF hn.le hex
    · exact ⟨_, by simp, hprepare, hc.word _ hstats⟩
    · exact ⟨_, by simp, hF, hnext, hc.word _ hstats⟩
  | preparePacket =>
    obtain ⟨ws, rfl, hpoint, hc⟩ := h
    obtain ⟨rfl, hwrite⟩ := hpoint.calls hex
    have hstats : s'.stats = s.stats := by
      have := bmcPreparePacketMain_stats { s with kcache := kcacheAt (ws.length + 1) }
      rwa [show bmcPreparePacketMain { s with kcache := kcacheAt (ws.length + 1) } = (s', _) from hex] at this
    have hzero : hitsBefore kcacheAt ws 0 = 0 := Nat.le_zero.mp (hitsBefore_le kcacheAt ws 0)
    refine ⟨ws, 0, rfl, hwrite, ?_⟩
    rw [hzero]
    exact ⟨by rw [XdpState.hitCount, hstats]; exact hc.hits, by rw [XdpState.missCount, hstats]; exact hc.misses⟩
  | writeReply =>
    obtain ⟨ws, i, rfl, hpoint, hc⟩ := h
    have hc' := hpoint.counted hc
    obtain ⟨rfl, hnext⟩ := hpoint.calls hex
    rw [hex] at hc'
    exact ⟨ws, i + 1, by omega, hnext, hc'⟩
  | invalidateCache => exact absurd hex invalidateCache_calls

/-! ### The end of a request -/

/-- The `n`-th program, entered in state `t`, finishes the request: `bmc_hash_keys` has read the `'\r'` behind a key and
passes the frame since nothing was saved, or `bmc_write_reply` transmits the reply or passes the frame since nothing was
served. -/
def FinishesRequest (kcacheAt : ℕ → KCache) (n : ℕ) (p : XdpProg) (t : XdpState) : Prop :=
  match p with
  | .hashKeys =>
    ∃ t' pc, xdpExec kcacheAt n .hashKeys t = (t', .ret .pass) ∧ t'.pctx.lookup 0 = some pc ∧ pc.keyCount = 0 ∧
      (hashLoop 0 0 fnvOffsetBasis32 t.ctx.packet).doneParsing = true ∧
      0 < (hashLoop 0 0 fnvOffsetBasis32 t.ctx.packet).keyLen ∧
      (hashLoop 0 0 fnvOffsetBasis32 t.ctx.packet).keyLen ≤ bmcMaxKeyLength
  | .writeReply =>
    ∃ t', xdpExec kcacheAt n .writeReply t = (t', .ret .tx) ∨ xdpExec kcacheAt n .writeReply t = (t', .ret .pass)
  | _ => False

/-- The state in which the request `ws` has been counted to its end. -/
def CountedToEnd (kcacheAt : ℕ → KCache) (h₀ m₀ : ℕ) (ws : List Bytes) (s : XdpState) : Prop :=
  let hits := countServed cacheHitFlag kcacheAt (ws.length + 2) (savedKeys kcacheAt ws)
  CountsAre h₀ m₀ hits (ws.length - hits) s

theorem HashPoint.countedToEnd (h : HashPoint H F kcacheAt ws s) (hF : StartsGetChain F)
    (hc : CountsAre h₀ m₀ 0 (ws.length - (savedKeys kcacheAt ws).length) s)
    (hend : FinishesRequest kcacheAt (ws.length + 1) .hashKeys s) :
    ∃ s', xdpExec kcacheAt (ws.length + 1) .hashKeys s = (s', .ret .pass) ∧
      requestWords (keyBytes F) = ws ++ [nextWord s.ctx.packet] ∧
      CountedToEnd kcacheAt h₀ m₀ (ws ++ [nextWord s.ctx.packet]) s' := by
  obtain ⟨s', pc, hex, hpc, hzero, hdone, hpos, hmax⟩ := hend
  have hlt : (savedKeys kcacheAt ws).length < bmcMaxKeyInPacket := by
    by_contra hge
    have hfull := h.full (ws.length + 1) (Nat.le_antisymm h.saved_le (Nat.le_of_not_lt hge))
    obtain ⟨rfl, -⟩ := Prod.mk.inj (hfull.symm.trans hex)
    obtain ⟨r, hcontext, -, -⟩ := h.context
    rw [Option.some.inj (hpc.symm.trans hcontext)] at hzero
    simp only at hzero
    rw [hzero] at hge
    exact hge (by decide)
  have hle : (nextWord s.ctx.packet).length ≤ bmcMaxKeyLength := by
    by_contra hlong
    rw [hashLoop_long _ 0 0 _ (Nat.zero_le _) (by omega)] at hmax
    simp at hmax
  rw [hashLoop_word _ 0 0 _ (by omega)] at hdone hpos
  have hcr : s.ctx.packet[(nextWord s.ctx.packet).length]? = some cr := by simpa using hdone
  have hne : nextWord s.ctx.packet ≠ [] := by
    intro hnil
    simp [hnil] at hpos
  have hstats := h.stats hlt hne hle
  rw [hex] at hstats
  obtain ⟨t, -, -, hsome⟩ := h.last hF hlt hne hle hcr
  have hnone : savedKeys kcacheAt (ws ++ [nextWord s.ctx.packet]) = [] := by
    by_contra hsaved
    cases (hsome hsaved).1.symm.trans hex
  have hwords : ∀ w ∈ ws ++ [nextWord s.ctx.packet], IsKeyWord w := by
    intro w hw
    rcases mem_append.mp hw with hw | hw
    · exact h.words w hw
    · rw [mem_singleton.mp hw]
      exact isKeyWord_nextWord _ hne hle
  have hreq := requestWords_eq ws (nextWord s.ctx.packet)
    (s.ctx.packet.drop ((nextWord s.ctx.packet).length + 1)) hwords
  rw [← (nextWord_split _ _ hcr).1, ← h.text] at hreq
  refine ⟨s', hex, hreq, ?_⟩
  have hcount := hc.word _ hstats
  rw [hnone, length_nil] at hcount
  rw [CountedToEnd, hnone]
  exact hcount

/-- Something was saved: every saved key was counted as a hit or a miss. -/
theorem WritePoint.countedToEnd (h : WritePoint H F kcacheAt ws i s)
    (hc : CountsAre h₀ m₀ (hitsBefore kcacheAt ws i)
      (ws.length - (savedKeys kcacheAt ws).length + (i - hitsBefore kcacheAt ws i)) s)
    (hend : FinishesRequest kcacheAt (ws.length + 2 + i) .writeReply s) :
    ∃ s' v, xdpExec kcacheAt (ws.length + 2 + i) .writeReply s = (s', .ret v) ∧
      CountedToEnd kcacheAt h₀ m₀ ws s' := by
  obtain ⟨s', hend⟩ := hend
  have hret : ∃ v, v ≠ .drop ∧ xdpExec kcacheAt (ws.length + 2 + i) .writeReply s = (s', .ret v) := by
    rcases hend with htx | hpass
    · exact ⟨.tx, by decide, htx⟩
    · exact ⟨.pass, by decide, hpass⟩
  obtain ⟨v, hv, hex⟩ := hret
  have hlast : i + 1 = (savedKeys kcacheAt ws).length := by
    rcases Nat.lt_or_ge (i + 1) (savedKeys kcacheAt ws).length with hmore | hge
    · rcases Nat.lt_or_ge s.ctx.packet.length ((servedAt kcacheAt ws i).length + 14) with hover | hroom
      · obtain ⟨t, hdrop⟩ := h.overflow hmore hover
        obtain ⟨-, hout⟩ := Prod.mk.inj (hdrop.symm.trans hex)
        exact absurd (TailChain.Outcome.ret.inj hout).symm hv
      · obtain ⟨t, hcall, -⟩ := h.more hmore hroom
        cases hcall.symm.trans hex
    · exact Nat.le_antisymm h.index_lt hge
  refine ⟨s', v, hex, ?_⟩
  have hcount := h.counted hc
  have hle := hitsBefore_le kcacheAt ws (i + 1)
  have hsaved := savedKeys_length_le kcacheAt ws
  rw [hex, show hitsBefore kcacheAt ws (i + 1) = countServed cacheHitFlag kcacheAt (ws.length + 2)
    (savedKeys kcacheAt ws) from by rw [hitsBefore, hlast, take_length], hlast] at hcount
  rw [hitsBefore, hlast, take_length] at hle
  rw [CountedToEnd]
  have hsplit : ws.length - countServed cacheHitFlag kcacheAt (ws.length + 2) (savedKeys kcacheAt ws) =
      ws.length - (savedKeys kcacheAt ws).length + ((savedKeys kcacheAt ws).length -
        countServed cacheHitFlag kcacheAt (ws.length + 2) (savedKeys kcacheAt ws)) := by omega
  rw [hsplit]
  exact hcount

/-- **The counters at the end of a request**, whichever program finishes it. -/
theorem CountedPoint.countedToEnd {p : XdpProg} (h : CountedPoint H F kcacheAt h₀ m₀ n p s)
    (hend : FinishesRequest kcacheAt n p s) :
    ∃ s' v, xdpExec kcacheAt n p s = (s', .ret v) ∧ (requestWords (keyBytes F)).length ≤ maxTailCallCnt ∧
      CountedToEnd kcacheAt h₀ m₀ (requestWords (keyBytes F)) s' := by
  obtain ⟨hn, h⟩ := h
  cases p with
  | hashKeys =>
    obtain ⟨ws, rfl, hF, hpoint, hc⟩ := h
    obtain ⟨s', hex, htext, hcount⟩ := hpoint.countedToEnd hF hc hend
    rw [htext]
    exact ⟨s', .pass, hex, by simpa using hn, hcount⟩
  | writeReply =>
    obtain ⟨ws, i, rfl, hpoint, hc⟩ := h
    obtain ⟨s', v, hex, hcount⟩ := hpoint.countedToEnd hc hend
    rw [hpoint.text]
    exact ⟨s', v, hex, by omega, hcount⟩
  | rxFilter => exact absurd hend id
  | preparePacket => exact absurd hend id
  | invalidateCache => exact absurd hend id

end

/-- **Hit accounting.**  For a GET frame handled to the end of the chain, with any changes of the cache between the
programs: every word of the request is counted once, as a hit or as a miss, and the hits are the copied entries exactly
when each saved key's entry is still valid with the key's hash when `bmc_write_reply` looks at it. -/
theorem hit_accounting_iff (loaded : XdpProg → Bool) (kcacheAt : ℕ → KCache) (s t : XdpState)
    (n : ℕ) (p : XdpProg)
    (hhit : s.hitCount < 2 ^ 32) (hmiss : s.missCount < 2 ^ 32)
    (hreach : (n, p, t) ∈ chainEntries loaded kcacheAt s) (hend : FinishesRequest kcacheAt n p t) :
    let ws := requestWords (keyBytes s.ctx.packet)
    let saved := savedKeys kcacheAt ws
    let hits := counterGrowth s.hitCount (runXdp loaded kcacheAt s).1.hitCount
    let misses := counterGrowth s.missCount (runXdp loaded kcacheAt s).1.missCount
    (hits = countServed copiesEntry kcacheAt (ws.length + 2) saved ∧ hits + misses = ws.length ↔
        ∀ i k, saved[i]? = some k → holdsKeyHash (kcacheAt (ws.length + 2 + i)) k = true) ∧
      hits + misses = ws.length := by
  intro ws saved hits misses
  have hstart : CountedPoint s.ctx.head s.ctx.packet kcacheAt s.hitCount s.missCount 0 .rxFilter s :=
    ⟨Nat.zero_le _, rfl, rfl, (u32_of_lt hhit).symm, (u32_of_lt hmiss).symm⟩
  have hpoint := TailChain.entries_invariant maxTailCallCnt
    (CountedPoint s.ctx.head s.ctx.packet kcacheAt s.hitCount s.missCount)
    (fun m p a b q v hm hI hex => CountedPoint.step hm hI hex) (by omega) hstart hreach
  obtain ⟨s', v, hex, hwords, hcount⟩ := hpoint.countedToEnd hend
  have hrun : (runXdp loaded kcacheAt s).1 = s' := congrArg Prod.fst (TailChain.run_of_entry hreach hex)
  have hle : countServed cacheHitFlag kcacheAt (ws.length + 2) saved ≤ ws.length :=
    (countServed_le _ _ _ _).trans (savedKeys_length_le kcacheAt ws)
  have hsmall : ws.length < 2 ^ 32 := lt_of_le_of_lt hwords (by decide)
  have hhits : hits = countServed cacheHitFlag kcacheAt (ws.length + 2) saved := by
    show counterGrowth s.hitCount (runXdp loaded kcacheAt s).1.hitCount = _
    rw [hrun, hcount.hits]
    exact counterGrowth_add hhit (lt_of_le_of_lt hle hsmall)
  have hmisses : misses = ws.length - countServed cacheHitFlag kcacheAt (ws.length + 2) saved := by
    show counterGrowth s.missCount (runXdp loaded kcacheAt s).1.missCount = _
    rw [hrun, hcount.misses]
    exact counterGrowth_add hmiss (lt_of_le_of_lt (Nat.sub_le _ _) hsmall)
  have hsum : hits + misses = ws.length := by omega
  refine ⟨?_, hsum⟩
  rw [← countServed_flag_eq_iff, ← hhits]
  exact and_iff_left hsum

/-- The cache behind a reply with the value `x` of `abcdefghijkl`, and a request for this key. -/
def cachedKey : KCache :=
  updateKCache KCache.zeroed
    (valueBlock [97, 98, 99, 100, 101, 102, 103, 104, 105, 106, 107, 108] [48] [120] ++ endLine)

def cachedKeyRequest : XdpState :=
  XdpState.received cachedKey
    (udpFrame (getWord ++ [97, 98, 99, 100, 101, 102, 103, 104, 105, 106, 107, 108] ++ crlf))

theorem exists_ending_entry {kcacheAt : ℕ → KCache} {s : XdpState} {v : XdpAction}
    (h : (chainEntries (fun _ => true) kcacheAt s).any (fun e => decide (e.2.1 = .writeReply ∧
      (xdpExec kcacheAt e.1 .writeReply e.2.2).2 = .ret v)) = true) :
    ∃ n t t', (n, .writeReply, t) ∈ chainEntries (fun _ => true) kcacheAt s ∧
      xdpExec kcacheAt n .writeReply t = (t', .ret v) := by
  obtain ⟨⟨n, p, t⟩, hmem, hp⟩ := any_eq_true.mp h
  obtain ⟨hp, hv⟩ := of_decide_eq_true hp
  obtain rfl : p = .writeReply := hp
  exact ⟨n, t, _, hmem, Prod.ext rfl hv⟩

/-- The entry stays: one hit, one copied entry. -/
theorem hit_accounting_iff_served :
    counterGrowth cachedKeyRequest.hitCount
        (runXdp (fun _ => true) (fun _ => cachedKey) cachedKeyRequest).1.hitCount = 1 ∧
      ∃ n t, (n, .writeReply, t) ∈ chainEntries (fun _ => true) (fun _ => cachedKey) cachedKeyRequest ∧
        FinishesRequest (fun _ => cachedKey) n .writeReply t := by
  obtain ⟨n, t, t', hmem, hret⟩ : ∃ n t t',
      (n, .writeReply, t) ∈ chainEntries (fun _ => true) (fun _ => cachedKey) cachedKeyRequest ∧
        xdpExec (fun _ => cachedKey) n .writeReply t = (t', .ret .tx) := exists_ending_entry (by decide +kernel)
  have hend : FinishesRequest (fun _ => cachedKey) n .writeReply t := ⟨t', Or.inl hret⟩
  obtain ⟨hiff, -⟩ := hit_accounting_iff (fun _ => true) (fun _ => cachedKey) cachedKeyRequest t n .writeReply
    (by decide +kernel) (by decide +kernel) hmem hend
  have hwords : requestWords (keyBytes cachedKeyRequest.ctx.packet) =
      [[97, 98, 99, 100, 101, 102, 103, 104, 105, 106, 107, 108]] := by decide +kernel
  have hsaved : savedKeys (fun _ => cachedKey) [[97, 98, 99, 100, 101, 102, 103, 104, 105, 106, 107, 108]] =
      [[97, 98, 99, 100, 101, 102, 103, 104, 105, 106, 107, 108]] := by decide +kernel
  rw [hwords, hsaved] at hiff
  obtain ⟨hhits, -⟩ := hiff.mpr (by
    intro i k hi
    obtain ⟨rfl, rfl⟩ : i = 0 ∧ k = [97, 98, 99, 100, 101, 102, 103, 104, 105, 106, 107, 108] := by
      rcases i with - | i
      · exact ⟨rfl, by simpa using hi.symm⟩
      · simp at hi
    decide +kernel)
  exact ⟨hhits.trans (by decide +kernel), n, t, hmem, hend⟩

/-- **A hit that was none.** The entry is invalidated after `bmc_prepare_packet`: the request is passed without a
reply, and `hit_count` has grown. -/
theorem hit_counted_without_copy :
    let kcacheAt : ℕ → KCache := fun n => if n ≤ 2 then cachedKey else KCache.zeroed
    (∃ n t, (n, .writeReply, t) ∈ chainEntries (fun _ => true) kcacheAt cachedKeyRequest ∧
        FinishesRequest kcacheAt n .writeReply t) ∧
      (runXdp (fun _ => true) kcacheAt cachedKeyRequest).2 = .pass ∧
      savedKeys kcacheAt (requestWords (keyBytes cachedKeyRequest.ctx.packet)) =
        [[97, 98, 99, 100, 101, 102, 103, 104, 105, 106, 107, 108]] ∧
      countServed copiesEntry kcacheAt 3 [[97, 98, 99, 100, 101, 102, 103, 104, 105, 106, 107, 108]] = 0 ∧
      counterGrowth cachedKeyRequest.hitCount
        (runXdp (fun _ => true) kcacheAt cachedKeyRequest).1.hitCount = 1 := by
  intro kcacheAt
  obtain ⟨n, t, t', hmem, hret⟩ : ∃ n t t',
      (n, .writeReply, t) ∈ chainEntries (fun _ => true) kcacheAt cachedKeyRequest ∧
        xdpExec kcacheAt n .writeReply t = (t', .ret .pass) := exists_ending_entry (by decide +kernel)
  exact ⟨⟨n, t, hmem, t', Or.inr hret⟩, by decide +kernel, by decide +kernel, by decide +kernel,
    by decide +kernel⟩

end BmcCache
