import BmcCache.Coherence
import BmcCache.EntryInvariant

/-!
# Which blocks an answer from the cache contains

For a request the ingress chain answers, this file compares the blocks of the answer with the request and with the
server's own reply.

* `answer_names_requested_iff` — `bmc_write_reply` compares as many bytes of the stored key as the requested key
  has and does not look whether the stored key ends there.  The answer names a key that was not asked for exactly
  if a longer key with the hash of a requested one is cached.
* `multi_get_answer` — a request of which one key is cached is answered, without the blocks of the keys that are not.
-/

namespace BmcCache

open List

/-- The cache has a valid entry for `k`. -/
def KCache.hasKey (kc : KCache) (k : Key) : Bool :=
  (kc.entryAt (fnv1a k.bytes)).holdsHash (fnv1a k.bytes) &&
    decide (valueWord ++ k.bytes ++ [space] <+: (kc.entryAt (fnv1a k.bytes)).stored)

/-- The block names `w`: between `VALUE ` and the next space. -/
def BlockNames (b w : Bytes) : Prop := ∃ rest, b = valueWord ++ w ++ space :: rest

section

variable {kc : KCache} {R : Key → Bytes → Prop}

theorem KCache.hasKey_iff (k : Key) :
    kc.hasKey k = true ↔ (kc.entryAt (fnv1a k.bytes)).valid = true ∧
      ∃ text, (kc.entryAt (fnv1a k.bytes)).Names k text := by
  rw [KCache.hasKey, Bool.and_eq_true, BmcCacheEntry.holdsHash_iff, decide_eq_true_eq, and_assoc]
  refine and_congr_right fun _ => ⟨?_, ?_⟩
  · intro hcase
    obtain ⟨hhash, text, htext⟩ := hcase
    exact ⟨text, by rw [← htext]; simp, hhash⟩
  · intro hcase
    obtain ⟨text, hstored, hhash⟩ := hcase
    exact ⟨hhash, text, by rw [hstored]; simp⟩

theorem KCache.Holds.of_hasKey (h : kc.Holds R) {k : Key} (hk : kc.hasKey k = true) : ∃ text, R k text := by
  obtain ⟨hv, text, hn⟩ := (KCache.hasKey_iff k).mp hk
  obtain ⟨k', text', hn', -, hr⟩ := h _ hv
  obtain ⟨rfl, rfl⟩ := BmcCacheEntry.Names.unique hn hn'
  exact ⟨text, hr⟩

/-- A cached key is served for every front of it that has its hash. -/
theorem KCache.hasKey_served {k : Key} (hk : kc.hasKey k = true) (w : Bytes) (hw : space ∉ w)
    (hpre : w <+: k.bytes) (hhash : fnv1a k.bytes = fnv1a w) : BlockNames (serveBytes kc w) k.bytes := by
  obtain ⟨hv, text, hn⟩ := (KCache.hasKey_iff k).mp hk
  rw [hhash] at hv hn
  have hhit := (hn.serveHit_iff hw).mpr ⟨hv, hhash, hpre⟩
  exact ⟨text, by rw [serveBytes, if_pos hhit, hn.stored]⟩

theorem KCache.Holds.served_hasKey (h : kc.Holds R) (w : Bytes) (hw : space ∉ w) (hne : serveBytes kc w ≠ []) :
    ∃ k text, R k text ∧ kc.hasKey k = true ∧ w <+: k.bytes ∧ fnv1a k.bytes = fnv1a w ∧
      serveBytes kc w = valueWord ++ k.bytes ++ space :: text := by
  obtain ⟨k, text, hr, hpre, hhash, hserve⟩ := h.served w hw hne
  refine ⟨k, text, hr, ?_, hpre, hhash, hserve⟩
  have hhit := keyHit_of_served kc w hne
  have hstored : (kc.entryAt (fnv1a w)).stored = valueWord ++ k.bytes ++ space :: text := by
    rw [← hserve]
    unfold serveBytes at hne ⊢
    split at hne
    · rename_i hh
      rw [if_pos hh]
    · exact absurd rfl hne
  rw [KCache.hasKey, Bool.and_eq_true, hhash, decide_eq_true_eq, hstored]
  exact ⟨hhit, text, by simp⟩

/-! ### Wrong keys -/

/-- **Whose blocks a request is served**: all name requested keys exactly if every cached key that has the hash of a
requested word and starts with it is requested, too. -/
theorem KCache.Holds.blocks_named_iff (h : kc.Holds R) (ws : List Bytes) (hws : ∀ w ∈ ws, space ∉ w) :
    (∀ b ∈ servedBlocks kc ws, ∃ w ∈ ws, BlockNames b w) ↔
      ∀ w ∈ ws, ∀ k, kc.hasKey k = true → w <+: k.bytes → fnv1a k.bytes = fnv1a w → k.bytes ∈ ws := by
  constructor
  · intro hnamed w hw k hk hpre hhash
    obtain ⟨rest, hrest⟩ := KCache.hasKey_served hk w (hws w hw) hpre hhash
    have hmem : serveBytes kc w ∈ servedBlocks kc ws :=
      mem_filter.mpr ⟨mem_map_of_mem hw, by rw [hrest]; simp⟩
    obtain ⟨w', hw', rest', hrest'⟩ := hnamed _ hmem
    have heq := (named_inj k.space_notMem (hws w' hw') (hrest.symm.trans hrest')).1
    rwa [heq]
  · intro hcond b hb
    obtain ⟨hmem, hne⟩ := mem_filter.mp hb
    obtain ⟨w, hw, rfl⟩ := mem_map.mp hmem
    obtain ⟨k, text, -, hk, hpre, hhash, hserve⟩ := h.served_hasKey w (hws w hw) (by simpa using hne)
    exact ⟨k.bytes, hcond w hw k hk hpre hhash, text, hserve⟩

end

/-- A datagram is a reply of the server, from whatever it has stored; segments are arbitrary. -/
def CacheEvent.FromServer (_ : KCache) : CacheEvent → Prop
  | .egress skb _ => ∃ store ks, IsReply (getReply store ks) skb
  | .segment _ => True

/-- **One call.** -/
theorem CacheEvent.apply_holds (kc : KCache) (e : CacheEvent) (hkc : kc.Holds fun _ _ => True)
    (he : e.FromServer kc) : (e.apply kc).Holds fun _ _ => True := by
  cases e with
  | egress skb stats =>
    obtain ⟨store, ks, hreply⟩ := he
    exact holds_egress hkc store ks skb stats hreply fun _ _ _ _ => trivial
  | segment s =>
    obtain ⟨stats, hspec⟩ := invalidateCache_spec { s with kcache := kc }
    rw [CacheEvent.apply, hspec]
    exact (holds_invalidate hkc _).mono fun _ _ _ => trivial

/-- **No wrong key.**  On every cache that replies of the server and segments have built, an answer of the ingress
chain is made of the blocks served for the requested words, and they all name requested words exactly if no
requested word is the front of a cached key that has the same hash and is not requested itself. -/
theorem answer_names_requested_iff (es : List CacheEvent)
    (hes : Trace.All CacheEvent.apply CacheEvent.FromServer KCache.zeroed es) (loaded : XdpProg → Bool)
    (s : XdpState) (htx : (runXdp loaded (fun _ => Trace.run CacheEvent.apply KCache.zeroed es) s).2 = .tx) :
    let kc := Trace.run CacheEvent.apply KCache.zeroed es
    let ws := requestWords (keyBytes s.ctx.packet)
    (runXdp loaded (fun _ => kc) s).1.ctx.packet.drop sizeofHeaders = (servedBlocks kc ws).flatten ++ endLine ∧
      ((∀ b ∈ servedBlocks kc ws, ∃ w ∈ ws, BlockNames b w) ↔
        ∀ w ∈ ws, ∀ k, kc.hasKey k = true → w <+: k.bytes → fnv1a k.bytes = fnv1a w → k.bytes ∈ ws) := by
  intro kc ws
  have hkc : kc.Holds fun _ _ => True :=
    Trace.run_invariant (KCache.Holds fun _ _ => True) CacheEvent.apply_holds KCache.zeroed es (holds_zeroed _) hes
  obtain ⟨hblocks, hwords⟩ := runXdp_servedBlocks htx
  exact ⟨hblocks, hkc.blocks_named_iff ws hwords⟩

/-- `abcdefghijklk5pb95b` is cached, has the hash of `abcdefghijkl` and starts with it: a GET of the shorter key is
answered with the item of the longer one. -/
theorem answer_names_other_key :
    let short := Key.ofBytes [97, 98, 99, 100, 101, 102, 103, 104, 105, 106, 107, 108] (by decide)
    let long := Key.ofBytes
      [97, 98, 99, 100, 101, 102, 103, 104, 105, 106, 107, 108, 107, 53, 112, 98, 57, 53, 98] (by decide)
    let store := Store.put (fun _ => none) long (some ⟨0, [120]⟩)
    let es : List CacheEvent := [.egress (SkBuff.ofFrame (udpFrame (getReply store [long]))) StatsMap.zeroed]
    let kc := Trace.run CacheEvent.apply KCache.zeroed es
    let s := XdpState.received kc (udpFrame (getText [short]))
    Trace.All CacheEvent.apply CacheEvent.FromServer KCache.zeroed es ∧
      requestWords (keyBytes s.ctx.packet) = [short.bytes] ∧
      (runXdp (fun _ => true) (fun _ => kc) s).2 = .tx ∧
      (runXdp (fun _ => true) (fun _ => kc) s).1.ctx.packet.drop sizeofHeaders
        = (⟨0, [120]⟩ : Item).block long ++ endLine ∧
      ¬ BlockNames ((⟨0, [120]⟩ : Item).block long) short.bytes := by
  intro short long store es kc s
  refine ⟨⟨⟨store, [long], isReply_udpFrame _⟩, trivial⟩, by decide +kernel, by decide +kernel,
    by decide +kernel, ?_⟩
  intro hcase
  obtain ⟨rest, hrest⟩ := hcase
  rw [Item.block_eq] at hrest
  exact absurd (named_inj long.space_notMem short.space_notMem hrest).1 (by decide)

/-- A GET of both keys: both blocks of the answer name the longer one, which is requested. -/
theorem answer_names_requested_twice :
    let short := Key.ofBytes [97, 98, 99, 100, 101, 102, 103, 104, 105, 106, 107, 108] (by decide)
    let long := Key.ofBytes
      [97, 98, 99, 100, 101, 102, 103, 104, 105, 106, 107, 108, 107, 53, 112, 98, 57, 53, 98] (by decide)
    let store := Store.put (fun _ => none) long (some ⟨0, [120]⟩)
    let es : List CacheEvent := [.egress (SkBuff.ofFrame (udpFrame (getReply store [long]))) StatsMap.zeroed]
    let s := XdpState.received KCache.zeroed (udpFrame (getText [short, long]))
    (runXdp (fun _ => true) (fun _ => Trace.run CacheEvent.apply KCache.zeroed es) s).2 = .tx ∧
      ∀ b ∈ servedBlocks (Trace.run CacheEvent.apply KCache.zeroed es) (requestWords (keyBytes s.ctx.packet)),
        ∃ w ∈ requestWords (keyBytes s.ctx.packet), BlockNames b w := by
  intro short long store es s
  have htx : (runXdp (fun _ => true) (fun _ => Trace.run CacheEvent.apply KCache.zeroed es) s).2 = .tx := by
    decide +kernel
  have hlong : long.bytes ∈ requestWords (keyBytes s.ctx.packet) := by decide +kernel
  have honly : (Trace.run CacheEvent.apply KCache.zeroed es).Holds fun k _ => k = long :=
    holds_egress (holds_zeroed _) store [long] _ _ (isReply_udpFrame _) fun k hk _ _ => mem_singleton.mp hk
  refine ⟨htx, (answer_names_requested_iff es ⟨⟨store, [long], isReply_udpFrame _⟩, trivial⟩ _
    s htx).2.mpr ?_⟩
  intro w _ k hk _ _
  obtain ⟨_, rfl⟩ := honly.of_hasKey hk
  exact hlong

/-! ### Missing keys -/

section

variable {store : Store} {kc : KCache}

def IsCurrent (store : Store) (k : Key) (text : Bytes) : Prop := ∃ it, store k = some it ∧ text = it.text

/-- **What a requested key is served** when every valid entry holds the current item of its key: its block if it is
cached, and nothing if it is not. -/
theorem KCache.Holds.served_current (h : kc.Holds (IsCurrent store)) (k : Key)
    (htwin : ∀ k', kc.hasKey k' = true → k.bytes <+: k'.bytes → fnv1a k'.bytes = fnv1a k.bytes → k' = k) :
    serveBytes kc k.bytes = if kc.hasKey k then getBlocks store [k] else [] := by
  by_cases hne : serveBytes kc k.bytes = []
  · have hno : kc.hasKey k = false := by
      by_contra hk
      obtain ⟨rest, hrest⟩ := KCache.hasKey_served (by simpa using hk) k.bytes k.space_notMem prefix_rfl rfl
      rw [hne] at hrest
      simp [valueWord] at hrest
    rw [hne, hno]
    rfl
  · obtain ⟨k', text, ⟨it, hit, rfl⟩, hk', hpre, hhash, hserve⟩ := h.served_hasKey k.bytes k.space_notMem hne
    obtain rfl := htwin k' hk' hpre hhash
    rw [hserve, hk', if_pos rfl, ← it.block_eq]
    simp [getBlocks, hit]

theorem getBlocks_cons (k : Key) (ks : List Key) :
    getBlocks store (k :: ks) = getBlocks store [k] ++ getBlocks store ks := by
  simp [getBlocks]

theorem getBlocks_singleton_eq_nil_iff (k : Key) : getBlocks store [k] = [] ↔ store k = none := by
  cases hk : store k with
  | none => simp [getBlocks, hk]
  | some it => simp [getBlocks, hk, it.block_eq, valueWord]

/-- Leaving keys out of a request leaves the reply as it was exactly if they are not present. -/
theorem getBlocks_filter_eq_iff (p : Key → Bool) (ks : List Key) :
    getBlocks store (ks.filter p) = getBlocks store ks ↔ ∀ k ∈ ks, store k ≠ none → p k = true := by
  have hle : ∀ js : List Key, (getBlocks store (js.filter p)).length ≤ (getBlocks store js).length := by
    intro js
    induction js with
    | nil => exact le_rfl
    | cons k js ih =>
      rw [getBlocks_cons k js, length_append]
      by_cases hp : p k = true
      · rw [filter_cons_of_pos hp, getBlocks_cons k, length_append]
        omega
      · rw [filter_cons_of_neg hp]
        omega
  induction ks with
  | nil => simp
  | cons k ks ih =>
    rw [forall_mem_cons, getBlocks_cons k ks]
    refine Iff.trans ?_ (and_congr_right' ih)
    by_cases hp : p k = true
    · rw [filter_cons_of_pos hp, getBlocks_cons k]
      simp [hp]
    · rw [filter_cons_of_neg hp]
      constructor
      · intro heq
        -- the shorter request cannot make up for a block
        have hlen := congrArg length heq
        rw [length_append] at hlen
        have hnil : getBlocks store [k] = [] := eq_nil_of_length_eq_zero (by have := hle ks; omega)
        rw [hnil, nil_append] at heq
        exact ⟨fun hk => absurd ((getBlocks_singleton_eq_nil_iff k).mp hnil) hk, heq⟩
      · intro hcase
        obtain ⟨hk, heq⟩ := hcase
        have hnone : store k = none := by
          by_contra hne
          exact hp (hk hne)
        rw [heq, (getBlocks_singleton_eq_nil_iff k).mpr hnone, nil_append]

end

/-- **The answer to a multi-key GET.**  When every valid entry holds the current item of its key, and no requested key
is the front of another cached key with the same hash, an answer of the ingress chain is the server's reply to the
requested keys that are cached.  It is the server's reply to the whole request exactly if every requested key that is
present is cached. -/
theorem multi_get_answer (store : Store) (kc : KCache) (hcurrent : kc.Holds (IsCurrent store)) (ks : List Key)
    (hne : ks ≠ [])
    (htwin : ∀ k ∈ ks, ∀ k', kc.hasKey k' = true → k.bytes <+: k'.bytes →
      fnv1a k'.bytes = fnv1a k.bytes → k' = k)
    (loaded : XdpProg → Bool) (s : XdpState) (hget : IsGetOf ks s.ctx.packet)
    (htx : (runXdp loaded (fun _ => kc) s).2 = .tx) :
    (runXdp loaded (fun _ => kc) s).1.ctx.packet.drop sizeofHeaders = getReply store (ks.filter kc.hasKey) ∧
      ((runXdp loaded (fun _ => kc) s).1.ctx.packet.drop sizeofHeaders = getReply store ks ↔
        ∀ k ∈ ks, store k ≠ none → kc.hasKey k = true) := by
  have hserved : ∀ js : List Key, (∀ k ∈ js, k ∈ ks) →
      js.flatMap (fun k => serveBytes kc k.bytes) = getBlocks store (js.filter kc.hasKey) := by
    intro js
    induction js with
    | nil => intro _; rfl
    | cons k js ih =>
      intro hsub
      rw [flatMap_cons, ih fun j hj => hsub j (mem_cons_of_mem k hj),
        hcurrent.served_current k (htwin k (hsub k mem_cons_self))]
      by_cases hk : kc.hasKey k = true
      · rw [if_pos hk, filter_cons_of_pos hk, getBlocks_cons k (js.filter _)]
      · rw [if_neg hk, filter_cons_of_neg hk, nil_append]
  have hpay : (runXdp loaded (fun _ => kc) s).1.ctx.packet.drop sizeofHeaders
      = getReply store (ks.filter kc.hasKey) := by
    rw [(runXdp_get_text hne hget htx).1, hserved ks fun _ hk => hk, getReply]
  refine ⟨hpay, ?_⟩
  rw [hpay, getReply, getReply, append_left_inj, getBlocks_filter_eq_iff]

/-- One of two requested keys is cached, and the other is not present: the answer is the server's reply. -/
theorem multi_get_answer_complete :
    let k := Key.ofBytes [97, 98, 99, 100, 101, 102, 103, 104, 105, 106, 107, 108] (by decide)
    let j := Key.ofBytes [98, 99, 100, 101, 102, 103, 104, 105, 106, 107, 108, 109, 110, 111] (by decide)
    let store := Store.put (fun _ => none) k (some ⟨0, [120]⟩)
    let kc := (runTc (fun _ => true)
      ⟨SkBuff.ofFrame (udpFrame (getReply store [k])), StatsMap.zeroed, KCache.zeroed⟩).1.kcache
    let s := XdpState.received kc (udpFrame (getText [k, j] ++ []))
    (runXdp (fun _ => true) (fun _ => kc) s).2 = .tx ∧
      (runXdp (fun _ => true) (fun _ => kc) s).1.ctx.packet.drop sizeofHeaders = getReply store [k, j] := by
  intro k j store kc s
  have htx : (runXdp (fun _ => true) (fun _ => kc) s).2 = .tx := by decide +kernel
  have hkc : kc.Holds fun k' text => k' = k ∧ IsCurrent store k' text := by
    refine holds_egress (holds_zeroed _) store [k] _ _ (isReply_udpFrame _) ?_
    intro k' hk' it hit
    obtain rfl := mem_singleton.mp hk'
    obtain rfl : (⟨0, [120]⟩ : Item) = it := Option.some.inj ((Store.put_self _ k _).symm.trans hit)
    exact ⟨rfl, _, hit, Item.taken_eq_text _ (by decide)⟩
  have hcached : kc.hasKey k = true := by decide +kernel
  have hother : store j = none := Store.put_ne _ _ (by decide)
  refine ⟨htx, (multi_get_answer store kc (hkc.mono fun _ _ h => h.2) [k, j] (by simp) ?_ _ s
    (isGetOf_udpFrame [k, j] []) htx).2.mpr ?_⟩
  · intro i hi k' hk' hpre _
    obtain ⟨_, rfl, -⟩ := hkc.of_hasKey hk'
    rcases mem_pair.mp hi with rfl | rfl
    · rfl
    · exact absurd hpre (by decide)
  · intro i hi hpresent
    rcases mem_pair.mp hi with rfl | rfl
    · exact hcached
    · exact absurd hother hpresent

/-- Both requested keys are present and one is cached: the answer lacks the block of the other. -/
theorem multi_get_answer_incomplete :
    let k := Key.ofBytes [97, 98, 99, 100, 101, 102, 103, 104, 105, 106, 107, 108] (by decide)
    let j := Key.ofBytes [98, 99, 100, 101, 102, 103, 104, 105, 106, 107, 108, 109, 110, 111] (by decide)
    let store := Store.put (Store.put (fun _ => none) k (some ⟨0, [120]⟩)) j (some ⟨0, [121]⟩)
    let kc := (runTc (fun _ => true)
      ⟨SkBuff.ofFrame (udpFrame (getReply store [k])), StatsMap.zeroed, KCache.zeroed⟩).1.kcache
    let s := XdpState.received kc (udpFrame (getText [k, j] ++ []))
    kc.Holds (IsCurrent store) ∧ IsGetOf [k, j] s.ctx.packet ∧
      (runXdp (fun _ => true) (fun _ => kc) s).2 = .tx ∧
      getReply store [k, j] = (⟨0, [120]⟩ : Item).block k ++ ((⟨0, [121]⟩ : Item).block j ++ endLine) ∧
      (runXdp (fun _ => true) (fun _ => kc) s).1.ctx.packet.drop sizeofHeaders
        = (⟨0, [120]⟩ : Item).block k ++ endLine := by
  intro k j store kc s
  refine ⟨?_, isGetOf_udpFrame [k, j] [], by decide +kernel, by decide +kernel, by decide +kernel⟩
  refine holds_egress (holds_zeroed _) store [k] _ _ (isReply_udpFrame _) ?_
  intro k' hk' it hit
  obtain rfl := mem_singleton.mp hk'
  have hstore : store k = some ⟨0, [120]⟩ := (Store.put_ne _ _ (by decide)).trans (Store.put_self _ _ _)
  obtain rfl : (⟨0, [120]⟩ : Item) = it := Option.some.inj (hstore.symm.trans hit)
  exact ⟨_, hit, Item.taken_eq_text _ (by decide)⟩

end BmcCache
