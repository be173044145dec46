import BmcCache.Memcached
import BmcCache.Trace

/-!
# What a valid cache entry looks like

The cache starts zeroed and changes only in the two programs that write to it: `bmc_update_cache`, on the datagrams
the egress filter accepts, and `bmc_invalidate_cache`, on TCP segments.  `CacheEvent` is one such call, on any bytes.

* `WellFormed` — the two lines, the hashed key and the slot of a valid entry;
* `LeavesWellFormed` — the condition on a datagram and on the entry it meets under which `bmc_update_cache` leaves a
  well-formed entry behind: the entry is up to date, or the copy completes with the whole hashed key in it, or it
  does not complete but the entry was not valid;
* `entries_wellFormed` — in every run whose updates meet it, every state has only well-formed valid entries;
* `entries_not_wellFormed` — a run of two datagrams that breaks an entry, because the copy into a slot that is valid
  for another key stops early and leaves `valid` and `hash` as they were.
-/

namespace BmcCache

open ByteBuffer Delimited List

/-- What is expected of the valid entry at index `i`. -/
structure BmcCacheEntry.WellFormed (e : BmcCacheEntry) (i : ℕ) : Prop where
  len_le : e.len ≤ bmcMaxCacheDataSize
  starts : valueWord <+: e.stored
  lines : e.stored.count lf = 2
  ends : e.stored.getLast? = some lf
  key : fnv1a (replyKey e.data) = e.hash.toUInt32
  index : cacheIdx e.hash.toUInt32 = i

def KCache.WellFormed (kc : KCache) : Prop := ∀ i, (kc i).valid = true → (kc i).WellFormed i

/-- One call of a program that writes to the cache, with whatever else it is called on. -/
inductive CacheEvent where
  | egress (skb : SkBuff) (stats : StatsMap)
  | segment (s : XdpState)

/-- What the call does to the cache: a datagram goes through the egress chain, a segment to
`bmc_invalidate_cache`. -/
def CacheEvent.apply (kc : KCache) : CacheEvent → KCache
  | .egress skb stats => (runTc (fun _ => true) ⟨skb, stats, kc⟩).1.kcache
  | .segment s => (bmcInvalidateCacheMain { s with kcache := kc }).1.kcache

def LeavesWellFormed (entry : BmcCacheEntry) (payload : Bytes) : Prop :=
  upToDate entry payload = true ∨
    if (replyPart payload).count lf = 2 then
      -- every byte the hashing loop reads is copied as well
      6 + min ((replyKey payload).length + 1) bmcMaxKeyLength ≤ (replyPart payload).length
    else entry.valid = false

/-- The condition on a call: it only concerns accepted datagrams. -/
def CacheEvent.Clean (kc : KCache) : CacheEvent → Prop
  | .egress skb _ => TxAccepts skb →
      LeavesWellFormed (kc.entryAt (fnv1a (replyKey (skb.data.drop sizeofHeaders)))) (skb.data.drop sizeofHeaders)
  | .segment _ => True

/-! ### The copied key -/

/-- The hashed key is the same behind any front that contains every byte the loop reads. -/
theorem replyKey_congr (part r r' : Bytes)
    (h : 6 + min ((replyKey (part ++ r)).length + 1) bmcMaxKeyLength ≤ part.length) :
    replyKey (part ++ r') = replyKey (part ++ r) := by
  have hsplit : ∀ t : Bytes, replyKey (part ++ t) =
      ((part.drop 6).take bmcMaxKeyLength ++ t.take (bmcMaxKeyLength - (part.drop 6).length)).takeWhile
        (· != space) := by
    intro t
    rw [replyKey, drop_append_of_le_length (by omega), take_append]
  rw [hsplit] at h
  rw [hsplit, hsplit]
  set q := (part.drop 6).take bmcMaxKeyLength with hq
  have hqlen : q.length = min bmcMaxKeyLength (part.length - 6) := by
    rw [hq, length_take, length_drop]
  rcases Nat.lt_or_ge (part.drop 6).length bmcMaxKeyLength with hlt | hge
  · -- the loop stops inside the front
    rw [length_drop] at hlt
    rw [takeWhile_append] at h ⊢
    have hstop : ¬ (q.takeWhile (· != space)).length = q.length := by
      intro hall
      rw [if_pos hall, length_append] at h
      omega
    rw [if_neg hstop, takeWhile_append, if_neg hstop]
  · rw [Nat.sub_eq_zero_of_le hge, take_zero, take_zero]

/-- The front of an accepted reply is copied whenever the copy gets to a line end. -/
theorem valueWord_prefix_replyPart (payload : Bytes) (hword : payload.take 6 = valueWord)
    (hcount : (replyPart payload).count lf = 2) : valueWord <+: replyPart payload := by
  have h1 : valueWord <+: payload := by rw [← hword]; exact List.take_prefix 6 payload
  have h2 : replyPart payload <+: payload :=
    (takeThrough_isFront lf _ 2).trans (List.take_prefix _ payload)
  rcases prefix_or_prefix_of_prefix h1 h2 with h | h
  · exact h
  · have hle := h.sublist.count_le lf
    rw [hcount, show valueWord.count lf = 0 from by decide] at hle
    omega

theorem publish_wellFormed (entry : BmcCacheEntry) (payload : Bytes) (hword : payload.take 6 = valueWord)
    (hcount : (replyPart payload).count lf = 2)
    (hkey : 6 + min ((replyKey payload).length + 1) bmcMaxKeyLength ≤ (replyPart payload).length) :
    (entry.publish payload).WellFormed (cacheIdx (fnv1a (replyKey payload))) := by
  have hhash := entry.publish_hash payload
  obtain ⟨rest, hrest⟩ : replyPart payload <+: payload :=
    (takeThrough_isFront lf _ 2).trans (List.take_prefix _ payload)
  refine ⟨(entry.publish payload).len_le, ?_, ?_, ?_, ?_, by rw [hhash]⟩
  · rw [BmcCacheEntry.publish_stored]
    exact valueWord_prefix_replyPart payload hword hcount
  · rw [BmcCacheEntry.publish_stored, hcount]
  · rw [BmcCacheEntry.publish_stored]
    obtain ⟨a, ha⟩ := takeThrough_ends lf (payload.take bmcMaxCacheDataSize) 1 hcount
    rw [replyPart, ha, getLast?_concat]
  · rw [BmcCacheEntry.publish_data, overwrite, take_zero, nil_append, hhash]
    rw [← hrest] at hkey
    have hcongr := replyKey_congr (replyPart payload) rest (entry.data.drop (0 + (replyPart payload).length))
      (by rw [hrest] at hkey ⊢; exact hkey)
    rw [hcongr, hrest]

/-! ### Step lemmas -/

theorem updateKCache_wellFormed (kc : KCache) (payload : Bytes) (hkc : kc.WellFormed)
    (hword : payload.take 6 = valueWord)
    (hclean : LeavesWellFormed (kc.entryAt (fnv1a (replyKey payload))) payload) :
    (updateKCache kc payload).WellFormed := by
  intro i hv
  rw [updateKCache_entry] at hv ⊢
  by_cases hwrite : i.val = cacheIdx (fnv1a (replyKey payload)) ∧ upToDate (kc i) payload = false
  · obtain ⟨hi, hup⟩ := hwrite
    rw [kc.entryAt_eq _ i hi] at hclean
    have hclean := hclean.resolve_left (by rw [hup]; simp)
    rw [if_pos ⟨hi, hup⟩] at hv ⊢
    by_cases hcount : (replyPart payload).count lf = 2
    · rw [if_pos hcount] at hclean ⊢
      rw [hi]
      exact publish_wellFormed _ payload hword hcount hclean
    · rw [if_neg hcount] at hv hclean
      rw [BmcCacheEntry.store_valid, hclean] at hv
      exact absurd hv (by simp)
  · rw [if_neg hwrite] at hv ⊢
    exact hkc i hv

theorem invalidateKeys_wellFormed (kc : KCache) (keys : List Bytes) (hkc : kc.WellFormed) :
    (invalidateKeys kc keys).WellFormed := by
  intro i hv
  rw [invalidateKeys_entry] at hv ⊢
  split at hv
  · exact absurd hv (by simp [BmcCacheEntry.invalidate])
  · rename_i hno
    rw [if_neg hno]
    exact hkc i hv

/-- **One call.** -/
theorem CacheEvent.apply_wellFormed (kc : KCache) (e : CacheEvent) (hkc : kc.WellFormed) (hclean : e.Clean kc) :
    (e.apply kc).WellFormed := by
  cases e with
  | egress skb stats =>
    rw [CacheEvent.apply, runTc_kcache _ _ rfl]
    split
    · rename_i hacc
      exact updateKCache_wellFormed kc _ hkc hacc.2.2.2.2 (hclean hacc)
    · exact hkc
  | segment s =>
    obtain ⟨stats, hspec⟩ := invalidateCache_spec { s with kcache := kc }
    rw [CacheEvent.apply, hspec]
    exact invalidateKeys_wellFormed kc _ hkc

/-! ### Whole runs -/

theorem zeroed_wellFormed : KCache.zeroed.WellFormed := by
  intro i hv
  rw [KCache.zeroed_valid] at hv
  exact absurd hv (by simp)

/-- **The entry invariant of clean runs.**  From the zeroed cache, any sequence of datagrams and segments, of any
bytes and any linear length, whose updates are clean where they happen leaves only well-formed valid entries. -/
theorem entries_wellFormed (es : List CacheEvent)
    (hclean : Trace.All CacheEvent.apply CacheEvent.Clean KCache.zeroed es) :
    (Trace.run CacheEvent.apply KCache.zeroed es).WellFormed :=
  Trace.run_invariant KCache.WellFormed CacheEvent.apply_wellFormed KCache.zeroed es zeroed_wellFormed hclean

/-- The reply to a GET of `eqc`, and then one for `qbj`, which has the same slot, of which only the first line is
linear: the entry stays valid with the hash of `eqc` and holds a single line of `qbj`. -/
theorem entries_not_wellFormed :
    let whole := udpFrame (valueBlock [101, 113, 99] [48] [120] ++ endLine)
    let cut := udpFrame (valueLine [113, 98, 106] [48] 1 ++ [lf])
    let stats := StatsMap.zeroed
    let kc := Trace.run CacheEvent.apply KCache.zeroed
      [.egress ⟨whole.length, whole, le_rfl⟩ stats, .egress ⟨cut.length + 8, cut, by omega⟩ stats]
    ∃ i, (kc i).valid = true ∧ ¬ (kc i).WellFormed i := by
  intro whole cut stats kc
  refine ⟨⟨2582416, by decide⟩, by decide +kernel, fun h => ?_⟩
  have hlines : ((kc ⟨2582416, by decide⟩).stored).count lf = 1 := by decide +kernel
  rw [h.lines] at hlines
  exact absurd hlines (by decide)

/-- The first of the two datagrams alone is a clean run. -/
theorem entries_wellFormed_single :
    let whole := udpFrame (valueBlock [101, 113, 99] [48] [120] ++ endLine)
    let stats := StatsMap.zeroed
    let kc := Trace.run CacheEvent.apply KCache.zeroed [.egress ⟨whole.length, whole, le_rfl⟩ stats]
    (kc ⟨2582416, by decide⟩).valid = true ∧ kc.WellFormed := by
  intro whole stats kc
  refine ⟨by decide +kernel, entries_wellFormed _ ⟨fun _ => Or.inr ?_, trivial⟩⟩
  decide +kernel

end BmcCache
