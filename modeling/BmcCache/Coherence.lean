import BmcCache.GetReply

/-!
# Where the cached text comes from

The cache serves text that earlier replies left in it.  `KCache.Holds R` says that every valid entry stands at the
slot of the key it names and holds a text `R` allows for that key.  What `R` is depends on the property: any text
at all, the current item of the store, an item the key had since some instant.  The lemmas say once, for every `R`,
how the programs treat it.

* `holds_update` — a reply for `k` with an allowed text keeps it;
* `holds_invalidate` — a scanned segment keeps it, and removes the scanned keys from it;
* `Holds.served` — what is served for a requested word is the text of an entry whose key has that hash and starts
  with the word.  Only when no longer key collides with the word is it the word itself.
-/

namespace BmcCache

open ByteBuffer Delimited List

/-- The entry holds a text for `k`: `VALUE <k> <text>` with the hash of `k`. -/
structure BmcCacheEntry.Names (e : BmcCacheEntry) (k : Key) (text : Bytes) : Prop where
  stored : e.stored = valueWord ++ k.bytes ++ space :: text
  hash : e.hash.toUInt32 = fnv1a k.bytes

/-- Every valid entry holds a text that `R` allows for its key, at the slot of that key. -/
def KCache.Holds (R : Key → Bytes → Prop) (kc : KCache) : Prop :=
  ∀ i, (kc i).valid = true → ∃ k text, (kc i).Names k text ∧ i.val = cacheIdx (fnv1a k.bytes) ∧ R k text

section

variable {R S : Key → Bytes → Prop} {kc : KCache}

theorem holds_zeroed (R : Key → Bytes → Prop) : KCache.zeroed.Holds R := by
  intro i hv
  rw [KCache.zeroed_valid] at hv
  exact absurd hv (by simp)

theorem KCache.Holds.mono (h : kc.Holds R) (hRS : ∀ k text, R k text → S k text) : kc.Holds S := by
  intro i hv
  obtain ⟨k, text, hn, hi, hr⟩ := h i hv
  exact ⟨k, text, hn, hi, hRS k text hr⟩

/-- A text names one key: what stands between `VALUE ` and the next space. -/
theorem named_inj {w w' rest rest' : Bytes} (hw : space ∉ w) (hw' : space ∉ w')
    (h : valueWord ++ w ++ space :: rest = valueWord ++ w' ++ space :: rest') : w = w' ∧ rest = rest' := by
  rw [append_assoc, append_assoc] at h
  have heq := append_cancel_left h
  have hfront : ∀ v t : Bytes, space ∉ v → (v ++ space :: t).takeWhile (· != space) = v := by
    intro v t hv
    rw [takeWhile_append_of_pos, takeWhile_cons, if_neg (by simp), append_nil]
    intro b hb
    simpa using fun hbs : b = space => hv (hbs ▸ hb)
  have hww : w = w' := by rw [← hfront w rest hw, heq, hfront w' rest' hw']
  rw [hww] at heq
  exact ⟨hww, (cons.inj (append_cancel_left heq)).2⟩

theorem BmcCacheEntry.Names.unique {e : BmcCacheEntry} {k k' : Key} {text text' : Bytes}
    (h : e.Names k text) (h' : e.Names k' text') : k = k' ∧ text = text' := by
  obtain ⟨hk, htext⟩ := named_inj k.space_notMem k'.space_notMem (h.stored.symm.trans h'.stored)
  exact ⟨Key.ext hk, htext⟩

/-- **A reply with an allowed text keeps it.**  Either the entry was up to date, or it is replaced whole. -/
theorem holds_update (h : kc.Holds R) (k : Key) (text rest : Bytes)
    (hpart : replyPart (valueWord ++ k.bytes ++ space :: rest) = valueWord ++ k.bytes ++ space :: text)
    (hlines : (replyPart (valueWord ++ k.bytes ++ space :: rest)).count lf = 2) (hR : R k text) :
    (updateKCache kc (valueWord ++ k.bytes ++ space :: rest)).Holds R := by
  have hkey := replyKey_named k.bytes rest k.length_le k.space_notMem
  intro i hv
  rw [updateKCache_entry, hkey, if_pos hlines] at hv ⊢
  split at hv
  · rename_i hwrite
    rw [if_pos hwrite]
    refine ⟨k, text, ⟨?_, ?_⟩, hwrite.1, hR⟩
    · rw [BmcCacheEntry.publish_stored, hpart]
    · rw [BmcCacheEntry.publish_hash, hkey]
  · rename_i hkeep
    rw [if_neg hkeep]
    exact h i hv

/-- **A scanned segment** leaves only entries of keys whose slot no scanned word has. -/
theorem holds_invalidate (h : kc.Holds R) (words : List Bytes) :
    (invalidateKeys kc words).Holds fun k text =>
      R k text ∧ ∀ w ∈ words, cacheIdx (fnv1a w) ≠ cacheIdx (fnv1a k.bytes) := by
  intro i hv
  rw [invalidateKeys_entry] at hv ⊢
  split at hv
  · exact absurd hv (by simp [BmcCacheEntry.invalidate])
  · rename_i hno
    rw [if_neg hno]
    obtain ⟨k, text, hn, hi, hr⟩ := h i hv
    exact ⟨k, text, hn, hi, hr, fun w hw heq => hno ⟨w, hw, heq.trans hi.symm⟩⟩

/-! ### What is served from it -/

/-- A word without a space is a front of the stored text exactly if it is a front of the stored key. -/
theorem take_key_eq_iff (k w tail : Bytes) (hw : space ∉ w) :
    (k ++ space :: tail).take w.length = w ↔ w <+: k := by
  constructor
  · intro h
    have hpre : w <+: k ++ space :: tail := by rw [← h]; exact List.take_prefix _ _
    rcases prefix_or_prefix_of_prefix hpre (prefix_append k _) with hk | ⟨t, rfl⟩
    · exact hk
    · rw [prefix_append_right_inj] at hpre
      cases t with
      | nil => simp
      | cons b t =>
        rw [cons_prefix_cons] at hpre
        exact absurd (by simp [hpre.1]) hw
  · intro h
    rw [take_append_of_le_length h.length_le]
    exact (prefix_iff_eq_take.mp h).symm

theorem BmcCacheEntry.Names.serveHit_iff {e : BmcCacheEntry} {k : Key} {text w : Bytes} (h : e.Names k text)
    (hw : space ∉ w) :
    serveHit e w = true ↔ e.valid = true ∧ fnv1a k.bytes = fnv1a w ∧ w <+: k.bytes := by
  have hdata : e.data.drop 6 = k.bytes ++ space :: (text ++ e.data.drop e.len) := by
    conv_lhs => rw [← take_append_drop e.len e.data]
    show (e.stored ++ _).drop 6 = _
    rw [h.stored, append_assoc, append_assoc, drop_append_of_le_length (by decide)]
    simp [valueWord]
  rw [serveHit, Bool.and_eq_true, BmcCacheEntry.holdsHash_iff, decide_eq_true_eq, hdata, h.hash,
    take_key_eq_iff k.bytes w _ hw, and_assoc]

/-- **What a requested word is served.** -/
theorem KCache.Holds.served (h : kc.Holds R) (w : Bytes) (hw : space ∉ w) (hne : serveBytes kc w ≠ []) :
    ∃ k text, R k text ∧ w <+: k.bytes ∧ fnv1a k.bytes = fnv1a w ∧
      serveBytes kc w = valueWord ++ k.bytes ++ space :: text := by
  unfold serveBytes at hne ⊢
  split at hne
  · rename_i hhit
    have hv : (kc.entryAt (fnv1a w)).valid = true := by
      rw [serveHit, Bool.and_eq_true, BmcCacheEntry.holdsHash_iff] at hhit
      exact hhit.1.1
    obtain ⟨k, text, hn, -, hr⟩ := h ⟨cacheIdx (fnv1a w), cacheIdx_lt _⟩ hv
    obtain ⟨-, hhash, hpre⟩ := (BmcCacheEntry.Names.serveHit_iff hn hw).mp hhit
    exact ⟨k, text, hr, hpre, hhash, by rw [if_pos hhit]; exact hn.stored⟩
  · exact absurd rfl hne

end

/-! ### Replies and segments -/

def Item.text (it : Item) : Bytes :=
  it.flagsText ++ space :: itoa it.value.length ++ crlf ++ (it.value ++ crlf)

/-- What the copy loop takes of it: the data up to its first `'\n'`. -/
def Item.taken (it : Item) : Bytes :=
  it.flagsText ++ space :: itoa it.value.length ++ crlf ++ takeThrough lf 1 (it.value ++ crlf)

theorem Item.block_eq (it : Item) (k : Key) : it.block k = valueWord ++ k.bytes ++ space :: it.text := by
  simp [Item.block, Item.text, valueBlock, makeAsciiGetSuffix]

theorem Item.taken_eq_text (it : Item) (h : lf ∉ it.value) : it.taken = it.text := by
  have hcr : lf ∉ it.value ++ [cr] := by
    have hc : lf ≠ cr := by decide
    simp [h, hc]
  have hsplit : it.value ++ crlf = (it.value ++ [cr]) ++ lf :: [] := by simp [crlf]
  rw [Item.taken, Item.text, hsplit, takeThrough_line lf 0 _ [] hcr, takeThrough_zero]

theorem replyPart_item (it : Item) (k : Key) (rest : Bytes)
    (hfit : (it.block k).length ≤ bmcMaxCacheDataSize) :
    replyPart (it.block k ++ rest) = valueWord ++ k.bytes ++ space :: it.taken ∧
      (replyPart (it.block k ++ rest)).count lf = 2 := by
  have hflags := it.flagsText_notMem (c := lf) (by decide)
  refine ⟨?_, (replyPart_valueBlock_named _ _ _ rest k.lf_notMem hflags hfit).2⟩
  rw [Item.block, replyPart_valueBlock _ _ _ rest k.lf_notMem hflags hfit]
  simp [Item.taken, valueLine, crlf]

theorem IsReply.data_length {text : Bytes} {skb : SkBuff} (h : IsReply text skb) (hne : text ≠ []) :
    skb.data.length = sizeofHeaders + text.length := by
  have hlen := congrArg length h.text_eq
  have hpos := length_pos_iff.mpr hne
  rw [length_drop] at hlen
  omega

/-- What leaves the server for a GET: nothing but the closing line, or first the block of a requested key that is
present. -/
theorem getReply_cases (store : Store) (ks : List Key) :
    getReply store ks = endLine ∨
      ∃ k ∈ ks, ∃ it rest, store k = some it ∧ getReply store ks = it.block k ++ rest := by
  induction ks with
  | nil => exact Or.inl rfl
  | cons k ks ih =>
    cases hk : store k with
    | some it => exact Or.inr ⟨k, by simp, it, getReply store ks, hk, by simp [getReply, getBlocks, hk]⟩
    | none =>
      have heq : getReply store (k :: ks) = getReply store ks := by simp [getReply, getBlocks, hk]
      rw [heq]
      exact ih.imp_right fun ⟨j, hj, h⟩ => ⟨j, by simp [hj], h⟩

section

variable {R : Key → Bytes → Prop} {kc : KCache}

/-- **A reply of the server goes through the egress chain.**  If every item it reports is allowed, what the cache
holds stays allowed. -/
theorem holds_egress (h : kc.Holds R) (store : Store) (ks : List Key) (skb : SkBuff) (stats : StatsMap)
    (hreply : IsReply (getReply store ks) skb) (hR : ∀ k ∈ ks, ∀ it, store k = some it → R k it.taken) :
    (runTc (fun _ => true) ⟨skb, stats, kc⟩).1.kcache.Holds R := by
  rw [runTc_kcache _ _ rfl]
  split
  · rename_i hacc
    rw [hreply.text_eq]
    rcases getReply_cases store ks with hend | ⟨k, hk, it, rest, hit, htext⟩
    · -- the closing line alone is not accepted
      have hword := hacc.2.2.2.2
      rw [hreply.text_eq, hend] at hword
      exact absurd hword (by decide)
    · have hlen := hreply.data_length (by rw [htext, it.block_eq]; simp)
      have hsize := hacc.1
      rw [hreply.linear, hlen, htext, length_append] at hsize
      obtain ⟨hpart, hlines⟩ := replyPart_item it k rest (by omega)
      rw [htext]
      rw [it.block_eq, append_assoc, cons_append] at hpart hlines ⊢
      exact holds_update h k it.taken (it.text ++ rest) hpart hlines (hR k hk it hit)
  · exact h

/-- **A segment that starts with a `set` of `k`** removes `k` from the cache. -/
theorem holds_set_segment (h : kc.Holds R) (k : Key) (rest : Bytes) (s : XdpState)
    (hseg : IsSegment (setWord ++ k.bytes ++ space :: rest) s.ctx.packet) :
    (runXdp (fun _ => true) (fun _ => kc) s).1.kcache.Holds fun k' text => R k' text ∧ k' ≠ k := by
  have hk := length_pos_iff.mpr k.ne_nil
  have hle : k.bytes.length ≤ 250 := k.length_le
  have hlen := congrArg length hseg.text_eq
  rw [length_drop] at hlen
  simp only [length_append, length_cons, show setWord.length = 4 from rfl] at hlen
  have htcp : IsTcpFrame s.ctx.packet := ⟨by simp at hlen; omega, hseg.protocol, hseg.port⟩
  -- the bound on the scanned bytes lies behind the key
  have hscan : scannedBytes s.ctx.packet = setWord ++ k.bytes ++
      space :: rest.take (bmcMaxPacketLength - (4 + k.bytes.length + 1)) := by
    have hfront : (setWord ++ k.bytes).length = 4 + k.bytes.length := by
      rw [length_append]
      rfl
    have hshort : (setWord ++ k.bytes).length ≤ bmcMaxPacketLength := by
      rw [hfront]
      simp only [bmcMaxPacketLength]
      omega
    rw [scannedBytes, hseg.text_eq, take_append, hfront, take_of_length_le hshort,
      show bmcMaxPacketLength - (4 + k.bytes.length) = bmcMaxPacketLength - (4 + k.bytes.length + 1) + 1 from by
        simp; omega, take_succ_cons]
  rw [(runXdp_tcp _ _ s htcp rfl).2, hscan, scanKeys_setText]
  refine (holds_invalidate h _).mono fun k' text hr => ⟨hr.1, ?_⟩
  intro heq
  subst heq
  exact hr.2 k'.bytes (by simp) rfl

theorem holds_frame (h : kc.Holds R) (s : XdpState) :
    (runXdp (fun _ => true) (fun _ => kc) s).1.kcache.Holds R := by
  by_cases htcp : IsTcpFrame s.ctx.packet
  · rw [(runXdp_tcp _ _ s htcp rfl).2]
    exact (holds_invalidate h _).mono fun _ _ hr => hr.1
  · obtain ⟨n, hn⟩ := runXdp_kcache_other (fun _ => true) (fun _ => kc) s htcp
    rw [hn]
    exact h

end

/-! ### Requests on a cache that stays as it is -/

theorem savedKeys_const (kc : KCache) (ws : List Bytes) :
    savedKeys (fun _ => kc) ws = ws.filter (keyHit kc) := by
  induction ws using reverseRecOn with
  | nil => rfl
  | append_singleton ws w ih =>
    rw [savedKeys_snoc, saveKey, ih, filter_append]
    by_cases hh : keyHit kc w = true <;> simp [hh]

theorem servedBytes_const (kc : KCache) (n : ℕ) (ks : List Bytes) :
    servedBytes (fun _ => kc) n ks = ks.flatMap (serveBytes kc) := by
  induction ks using reverseRecOn with
  | nil => rfl
  | append_singleton ks k ih => rw [servedBytes_snoc, ih]; simp

theorem keyHit_of_served (kc : KCache) (w : Bytes) (h : serveBytes kc w ≠ []) : keyHit kc w = true := by
  unfold serveBytes at h
  split at h
  · rename_i hhit
    rw [serveHit, Bool.and_eq_true] at hhit
    exact hhit.1
  · exact absurd rfl h

theorem flatMap_filter_keyHit (kc : KCache) (ws : List Bytes) :
    (ws.filter (keyHit kc)).flatMap (serveBytes kc) = ws.flatMap (serveBytes kc) := by
  induction ws with
  | nil => rfl
  | cons w ws ih =>
    by_cases hh : keyHit kc w = true
    · rw [filter_cons_of_pos hh, flatMap_cons, flatMap_cons, ih]
    · have hnone : serveBytes kc w = [] := by
        by_contra hne
        exact hh (keyHit_of_served kc w hne)
      rw [filter_cons_of_neg hh, flatMap_cons, hnone, nil_append, ih]

theorem replyBlocks_const (F : Bytes) (kc : KCache) :
    replyBlocks F (fun _ => kc) = (requestWords (keyBytes F)).flatMap (serveBytes kc) := by
  rw [replyBlocks, savedKeys_const, servedBytes_const, flatMap_filter_keyHit]

/-- The blocks of an answer to the words `ws`: what is served for each, if anything. -/
def servedBlocks (kc : KCache) (ws : List Bytes) : List Bytes :=
  (ws.map (serveBytes kc)).filter (· ≠ [])

/-- **An answer of the ingress chain has one block for each requested word that is served.** -/
theorem runXdp_servedBlocks {loaded : XdpProg → Bool} {kc : KCache} {s : XdpState}
    (htx : (runXdp loaded (fun _ => kc) s).2 = .tx) :
    (runXdp loaded (fun _ => kc) s).1.ctx.packet.drop sizeofHeaders =
        (servedBlocks kc (requestWords (keyBytes s.ctx.packet))).flatten ++ endLine ∧
      ∀ w ∈ requestWords (keyBytes s.ctx.packet), space ∉ w := by
  have hsent := runXdp_tx loaded (fun _ => kc) s htx
  refine ⟨?_, fun w hw hsp => absurd ((hsent.words w hw).all space hsp) (by decide)⟩
  rw [hsent.drop_headers, replyText, replyBlocks_const, servedBlocks, flatten_filter_ne_nil, flatMap]

/-- **The text of an answer**, when nothing changes the cache meanwhile: for each requested key what is served. -/
theorem runXdp_get_text {loaded : XdpProg → Bool} {kc : KCache} {s : XdpState} {ks : List Key} (hne : ks ≠ [])
    (hget : IsGetOf ks s.ctx.packet) (htx : (runXdp loaded (fun _ => kc) s).2 = .tx) :
    (runXdp loaded (fun _ => kc) s).1.ctx.packet.drop sizeofHeaders =
        ks.flatMap (fun k => serveBytes kc k.bytes) ++ endLine ∧
      ks.flatMap (fun k => serveBytes kc k.bytes) ≠ [] := by
  have hsent := runXdp_tx loaded (fun _ => kc) s htx
  have hblocks : replyBlocks s.ctx.packet (fun _ => kc) = ks.flatMap fun k => serveBytes kc k.bytes := by
    rw [replyBlocks_const, hget.requestWords_eq hne, flatMap_map]
  exact ⟨by rw [hsent.drop_headers, replyText, hblocks], hblocks ▸ hsent.served⟩

end BmcCache
