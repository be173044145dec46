import BmcCache.EntryInvariant
import BmcCache.GetReply

/-!
# How much demand an entry has seen when it becomes valid

`bmc_kern.c` declares a threshold of 10 and a map `map_request_count` from cache indices to request counts, and the
extension's README describes a count in the parser of GET keys and a check before an entry becomes valid.  No program
of the file reads or writes that map: what the programs do is what is modelled here, and the count is kept beside the
cache for the statement only.

* `DemandEvent` — a call of `bmc_hash_keys`, or a call of a program that writes to the cache, in any order;
* `AdmittedOnDemand` — in the run, entries become valid only behind ten parsed keys of their index;
* `admitted_on_demand_iff` — this is so exactly when every reply that fills an invalid slot comes that late by
  itself;
* `admitted_without_demand` — one reply, no request, a valid entry.
-/

namespace BmcCache

@[simp] abbrev bmcDemandThreshold : ℕ := 10

/-- The cache index of the key a call of `bmc_hash_keys` parses, if it finds one and has a record for it. -/
def parsedIdx (s : XdpState) : Option ℕ :=
  match s.pctx.lookup 0 with
  | none => none
  | some pctx =>
    match s.keys.lookup pctx.keyCount with
    | none => none
    | some _ =>
      let scan := hashLoop 0 0 fnvOffsetBasis32 s.ctx.packet
      if scan.keyLen = 0 ∨ bmcMaxKeyLength < scan.keyLen then none else some (cacheIdx scan.hash)

/-- One call of a program: a GET key is parsed, or the cache is written to. -/
inductive DemandEvent where
  | parse (s : XdpState)
  | cache (e : CacheEvent)

/-- The cache, and beside it how many keys of each index have been parsed. -/
structure DemandState where
  kcache : KCache
  parsed : ℕ → ℕ

def DemandState.init : DemandState := ⟨KCache.zeroed, fun _ => 0⟩

/-- One more key of the index `i`. -/
def countKey (parsed : ℕ → ℕ) (i : ℕ) : ℕ → ℕ := fun j => if j = i then parsed j + 1 else parsed j

def DemandState.step (st : DemandState) : DemandEvent → DemandState
  | .parse s =>
    ⟨(bmcHashKeysMain { s with kcache := st.kcache }).1.kcache,
      match parsedIdx s with
      | none => st.parsed
      | some i => countKey st.parsed i⟩
  | .cache e => ⟨e.apply st.kcache, st.parsed⟩

/-- In every state the run passes through, the next call makes the entry at `i` valid only behind ten parsed keys of
that index. -/
def AdmittedOnDemand (es : List DemandEvent) : Prop :=
  ∀ front e, front ++ [e] <+: es → ∀ i : Fin bmcCacheEntryCount,
    ((Trace.run DemandState.step DemandState.init front).kcache i).valid = false →
    ((Trace.run DemandState.step DemandState.init (front ++ [e])).kcache i).valid = true →
    bmcDemandThreshold ≤ (Trace.run DemandState.step DemandState.init front).parsed i

/-- The reply fills the slot it addresses: the filter accepts it, the slot is not valid, and the part that is copied
has two lines. -/
def FillsSlot (kc : KCache) (skb : SkBuff) : Prop :=
  TxAccepts skb ∧ (kc.entryAt (fnv1a (replyKey (skb.data.drop sizeofHeaders)))).valid = false ∧
    (replyPart (skb.data.drop sizeofHeaders)).count lf = 2

/-- A reply that fills a slot comes behind ten parsed keys of the slot. -/
def InDemand (st : DemandState) : DemandEvent → Prop
  | .parse _ => True
  | .cache (.segment _) => True
  | .cache (.egress skb _) => FillsSlot st.kcache skb →
      bmcDemandThreshold ≤ st.parsed (cacheIdx (fnv1a (replyKey (skb.data.drop sizeofHeaders))))

/-! ### One call -/

theorem step_parse_kcache (st : DemandState) (s : XdpState) : (st.step (.parse s)).kcache = st.kcache :=
  bmcHashKeysMain_kcache _

theorem step_segment_valid (st : DemandState) (s : XdpState) (i : Fin bmcCacheEntryCount)
    (h : (st.kcache i).valid = false) : ((st.step (.cache (.segment s))).kcache i).valid = false := by
  obtain ⟨stats, hrun⟩ := invalidateCache_spec { s with kcache := st.kcache }
  have hkc : (st.step (.cache (.segment s))).kcache =
      invalidateKeys st.kcache (scanKeys .search 0 (scannedBytes s.ctx.packet)) :=
    congrArg (fun r => r.1.kcache) hrun
  rw [hkc, invalidateKeys_entry]
  split
  · rfl
  · exact h

/-- A reply makes an invalid entry valid exactly when it fills that slot. -/
theorem step_egress_valid_iff (st : DemandState) (skb : SkBuff) (stats : StatsMap) (i : Fin bmcCacheEntryCount)
    (h : (st.kcache i).valid = false) :
    ((st.step (.cache (.egress skb stats))).kcache i).valid = true ↔
      FillsSlot st.kcache skb ∧ i.val = cacheIdx (fnv1a (replyKey (skb.data.drop sizeofHeaders))) := by
  set payload := skb.data.drop sizeofHeaders with hpay
  have hold : upToDate (st.kcache i) payload = false := by simp [upToDate, BmcCacheEntry.holdsHash, h]
  have hkc : (st.step (.cache (.egress skb stats))).kcache =
      if TxAccepts skb then updateKCache st.kcache payload else st.kcache :=
    runTc_kcache (fun _ => true) ⟨skb, stats, st.kcache⟩ rfl
  rw [hkc, FillsSlot, ← hpay]
  by_cases hacc : TxAccepts skb
  · rw [if_pos hacc, updateKCache_entry, hold]
    by_cases hi : i.val = cacheIdx (fnv1a (replyKey payload))
    · rw [if_pos ⟨hi, rfl⟩, st.kcache.entryAt_eq _ i hi]
      by_cases hcount : (replyPart payload).count lf = 2
      · simp only [if_pos hcount]
        exact ⟨fun _ => ⟨⟨hacc, h, hcount⟩, hi⟩, fun _ => rfl⟩
      · rw [if_neg hcount, BmcCacheEntry.store_valid, h]
        exact ⟨fun hf => absurd hf (by simp), fun hf => absurd hf.1.2.2 hcount⟩
    · rw [if_neg (fun hf => hi hf.1), h]
      exact ⟨fun hf => absurd hf (by simp), fun hf => absurd hf.2 hi⟩
  · rw [if_neg hacc, h]
    exact ⟨fun hf => absurd hf (by simp), fun hf => absurd hf.1.1 hacc⟩

/-- **One call.**  Whatever it makes valid has been in demand exactly when the call meets the condition. -/
theorem inDemand_iff (st : DemandState) (e : DemandEvent) :
    InDemand st e ↔ ∀ i : Fin bmcCacheEntryCount, (st.kcache i).valid = false →
      ((st.step e).kcache i).valid = true → bmcDemandThreshold ≤ st.parsed i := by
  cases e with
  | parse s =>
    refine ⟨fun _ i h hv => ?_, fun _ => trivial⟩
    rw [step_parse_kcache, h] at hv
    exact absurd hv (by simp)
  | cache e =>
    cases e with
    | segment s =>
      refine ⟨fun _ i h hv => ?_, fun _ => trivial⟩
      rw [step_segment_valid st s i h] at hv
      exact absurd hv (by simp)
    | egress skb stats =>
      constructor
      · intro hd i h hv
        obtain ⟨hfill, hi⟩ := (step_egress_valid_iff st skb stats i h).mp hv
        rw [hi]
        exact hd hfill
      · intro hall hfill
        exact hall ⟨cacheIdx _, cacheIdx_lt _⟩ hfill.2.1
          ((step_egress_valid_iff st skb stats ⟨cacheIdx _, cacheIdx_lt _⟩ hfill.2.1).mpr ⟨hfill, rfl⟩)

/-! ### Whole runs -/

/-- **When admission follows demand.**  In a run of any calls from empty maps, entries become valid only behind ten
parsed keys of their index exactly when every reply that fills an invalid slot comes behind ten parsed keys of that
slot. -/
theorem admitted_on_demand_iff (es : List DemandEvent) :
    AdmittedOnDemand es ↔ Trace.All DemandState.step InDemand DemandState.init es := by
  rw [Trace.all_iff_fronts]
  constructor
  · intro h front e hfront
    rw [inDemand_iff]
    intro i hbefore hafter
    exact h front e hfront i hbefore (by rw [Trace.run_append]; exact hafter)
  · intro h front e hfront i hbefore hafter
    rw [Trace.run_append] at hafter
    exact (inDemand_iff _ e).mp (h front e hfront) i hbefore hafter

/-- A single reply to an empty cache: its entry is valid though no key was ever parsed. -/
theorem admitted_without_demand :
    ¬ AdmittedOnDemand [.cache (.egress (SkBuff.ofFrame (udpFrame (valueBlock [97] [48] [120] ++ endLine)))
      StatsMap.zeroed)] := by
  intro h
  have hten := h [] _ List.prefix_rfl ⟨cacheIdx (fnv1a [97]), cacheIdx_lt _⟩ rfl (by decide +kernel)
  exact absurd hten (by decide)

end BmcCache
