import Mathlib.Data.List.Forall2
import BmcCache.Answers
import BmcCache.Trace
import BmcCache.UdpReply

/-!
# Replies of several datagrams in the egress filter

`bmc_tx_filter` recognises a reply by the first six bytes behind the headers of a datagram and does not look at its
sequence number.  The later datagrams of a long reply start somewhere in the data of the item, with bytes a client
chose.  Those that are full are too long for the cache; the last one may not be.

* `lastWindow` — the text of the last datagram;
* `sent_datagrams` — the egress programs see full datagrams, none of which they take, and the last one;
* `no_poisoning_iff` — a reply for `a` leaves entries for other keys alone exactly if its last datagram, when it
  is not the first, does not read like the reply for another key.
-/

namespace BmcCache

open Delimited List

/-- A key as `process_get_command` looks it up. -/
structure IsTextKey (k : Bytes) : Prop where
  ne_nil : k ≠ []
  length_le : k.length ≤ bmcMaxKeyLength
  space_notMem : space ∉ k
  lf_notMem : lf ∉ k

/-- The data of an item with its line end, in the buffers that hold it: one, or the chunks of a large item, of which
the one in the item's header is empty and the last may be short. -/
structure IsData (it : Item) (chunks : List Bytes) : Prop where
  flatten_eq : chunks.flatten = it.value ++ crlf
  short : Packing.shortCount chunks ≤ 256

/-- The buffers `process_get_command` hands to `add_iov` for one key that is present. -/
def getBuffers (key : Bytes) (it : Item) (chunks : List Bytes) : List Bytes :=
  [valueWord, key, makeAsciiGetSuffix it.flagsText (it.value.length + 2)] ++ chunks ++ [endLine]

def hitText (key : Bytes) (it : Item) : Bytes := valueBlock key it.flagsText it.value ++ endLine

/-- What is left of a text behind as many full datagrams as can be cut off it. -/
def lastWindow (text : Bytes) : Bytes := text.drop (udpMaxText * ((text.length - 1) / udpMaxText))

def sendSkb (s : TcState) (skb : SkBuff) : TcState := (runTc (fun _ => true) { s with skb := skb }).1

/-- An entry that afterwards names `b` was made valid or got other data. -/
def Poisons (kc kc' : KCache) (b : Bytes) : Prop :=
  ∃ i, BlockNames (kc' i).stored b ∧
    ((kc i).valid = false ∧ (kc' i).valid = true ∨ (kc' i).data ≠ (kc i).data)

/-- A datagram of a reply for `a` touches no entry for another key. -/
def SparesOthers (a : Bytes) (s : TcState) (skb : SkBuff) : Prop :=
  ∀ b, IsTextKey b → b ≠ a → ¬ Poisons s.kcache (sendSkb s skb).kcache b

/-! ### One datagram -/

section

variable {text : Bytes} {skb : SkBuff}

theorem IsReply.txAccepts_iff (h : IsReply text skb) (hne : text ≠ []) :
    TxAccepts skb ↔ text.length ≤ bmcMaxCacheDataSize ∧ text.take 6 = valueWord := by
  have hlen := h.data_length hne
  rw [TxAccepts, h.linear, hlen, h.text_eq]
  refine ⟨fun hacc => ⟨by omega, hacc.2.2.2.2⟩, fun hacc => ⟨by omega, ?_, h.protocol, h.port, hacc.2⟩⟩
  have := length_pos_iff.mpr hne
  simp
  omega

theorem sendSkb_kcache (h : IsReply text skb) (s : TcState) :
    (sendSkb s skb).kcache = if TxAccepts skb then updateKCache s.kcache text else s.kcache := by
  rw [sendSkb, runTc_kcache _ _ rfl, h.text_eq]

theorem sparesOthers_of_not_accepts (h : IsReply text skb) (hrej : ¬ TxAccepts skb) (a : Bytes) (s : TcState) :
    SparesOthers a s skb := by
  intro b _ _ hp
  obtain ⟨i, -, hcase⟩ := hp
  rw [sendSkb_kcache h, if_neg hrej] at hcase
  rcases hcase with hcase | hcase
  · rw [hcase.1] at hcase
    exact absurd hcase.2 (by simp)
  · exact hcase rfl

theorem updateKCache_touched (kc : KCache) (text : Bytes) (i : Fin bmcCacheEntryCount)
    (h : updateKCache kc text i ≠ kc i) : (updateKCache kc text i).stored = replyPart text := by
  rw [updateKCache_entry] at h ⊢
  split
  · split
    · exact (kc i).publish_stored text
    · exact (kc i).store_stored text
  · rename_i hno
    exact absurd (if_neg hno) h

variable {b : Bytes}

theorem BlockNames.of_replyPart (h : BlockNames (replyPart text) b) : BlockNames text b := by
  obtain ⟨rest, hrest⟩ := h
  obtain ⟨more, hmore⟩ := (takeThrough_isFront lf (text.take bmcMaxCacheDataSize) 2).trans (List.take_prefix _ _)
  refine ⟨rest ++ more, ?_⟩
  rw [← hmore, show takeThrough lf 2 (text.take bmcMaxCacheDataSize) = replyPart text from rfl, hrest]
  simp

/-- The line a key stands in is taken whole, so the taken part names the same key. -/
theorem BlockNames.replyPart (h : BlockNames text b) (hb : IsTextKey b)
    (hlen : text.length ≤ bmcMaxCacheDataSize) : BlockNames (replyPart text) b := by
  obtain ⟨rest, rfl⟩ := h
  have hlf : lf ∉ valueWord ++ b ++ [space] := by
    have hv : lf ∉ valueWord := by decide
    have hs : lf ≠ space := by decide
    simp [hv, hs, hb.lf_notMem]
  refine ⟨takeThrough lf 2 rest, ?_⟩
  rw [BmcCache.replyPart, take_of_length_le hlen,
    show valueWord ++ b ++ space :: rest = (valueWord ++ b ++ [space]) ++ rest from by simp,
    takeThrough_append lf 1 _ _ hlf]
  simp

theorem sparesOthers_of_names {a : Bytes} (h : IsReply text skb)
    (hnames : ∀ b, IsTextKey b → BlockNames text b → b = a) (s : TcState) : SparesOthers a s skb := by
  by_cases hacc : TxAccepts skb
  · intro b hb hba hp
    obtain ⟨i, hname, hcase⟩ := hp
    rw [sendSkb_kcache h, if_pos hacc] at hname hcase
    have htouched : updateKCache s.kcache text i ≠ s.kcache i := by
      intro heq
      rw [heq] at hcase
      rcases hcase with hcase | hcase
      · rw [hcase.1] at hcase
        exact absurd hcase.2 (by simp)
      · exact hcase rfl
    rw [updateKCache_touched s.kcache text i htouched] at hname
    exact hba (hnames b hb hname.of_replyPart)
  · exact sparesOthers_of_not_accepts h hacc a s

/-- A datagram that reads like the reply for `b` fills an empty entry for `b`. -/
theorem poisons_zeroed (h : IsReply text skb) (hb : IsTextKey b) (hname : BlockNames text b)
    (hlen : text.length ≤ bmcMaxCacheDataSize) (s : TcState) (hs : s.kcache = KCache.zeroed) :
    Poisons s.kcache (sendSkb s skb).kcache b := by
  obtain ⟨rest, htext⟩ := hname
  have hne : text ≠ [] := by rw [htext]; simp [valueWord]
  have hacc : TxAccepts skb := by
    refine (h.txAccepts_iff hne).mpr ⟨hlen, ?_⟩
    rw [htext, append_assoc, take_append_of_le_length (by decide)]
    rfl
  have hstored : (updateKCache KCache.zeroed text ⟨cacheIdx (fnv1a (replyKey text)), cacheIdx_lt _⟩).stored =
      replyPart text := by
    rw [updateKCache_entry, if_pos ⟨rfl, rfl⟩]
    split
    · exact BmcCacheEntry.publish_stored _ text
    · exact BmcCacheEntry.store_stored _ text
  have hname' := BlockNames.replyPart ⟨rest, htext⟩ hb hlen
  rw [← hstored] at hname'
  refine ⟨⟨cacheIdx (fnv1a (replyKey text)), cacheIdx_lt _⟩, ?_, Or.inr ?_⟩
  · rw [sendSkb_kcache h, if_pos hacc, hs]
    exact hname'
  · rw [sendSkb_kcache h, if_pos hacc, hs]
    intro hdata
    -- the array was all zeros
    obtain ⟨rest', hrest'⟩ := hname'
    rw [BmcCacheEntry.stored, hdata] at hrest'
    have hmem : (86 : UInt8) ∈ valueWord ++ b ++ space :: rest' := by simp [valueWord]
    rw [← hrest'] at hmem
    exact absurd (eq_of_mem_replicate (mem_of_mem_take hmem)) (by decide)

end

/-! ### The whole reply -/

variable {it : Item} {chunks : List Bytes}

theorem getBuffers_flatten (h : IsData it chunks) (key : Bytes) :
    (getBuffers key it chunks).flatten = hitText key it := by
  simp [getBuffers, hitText, valueBlock, h.flatten_eq]

theorem getBuffers_shortCount (h : IsData it chunks) (key : Bytes) :
    Packing.shortCount (getBuffers key it chunks) ≤ 300 := by
  have hthree : Packing.shortCount [valueWord, key, makeAsciiGetSuffix it.flagsText (it.value.length + 2)] ≤ 3 :=
    countP_le_length
  have hone := Packing.shortCount_singleton_le endLine
  have hchunks := h.short
  rw [getBuffers, Packing.shortCount_append, Packing.shortCount_append]
  omega

/-- The last message of a filled packing is the last window of the text. -/
theorem Packing.Filled.lastWindow_eq {s : Packing} {n : ℕ} (h : s.Filled n) (hne : s.cur.flatten ≠ []) :
    lastWindow s.text = s.cur.flatten := by
  have hsum : s.done.flatten.flatten.length = udpMaxText * s.done.length := by
    have hfull := h.full
    generalize s.done = done at hfull
    induction done with
    | nil => rfl
    | cons d done ih =>
      rw [flatten_cons, flatten_append, length_append, ih (fun d hd => hfull d (by simp [hd])),
        hfull d (by simp), length_cons, Nat.mul_succ, Nat.add_comm]
  have htext : s.text = s.done.flatten.flatten ++ s.cur.flatten := by simp [Packing.text, Packing.msgs]
  have hpos := length_pos_iff.mpr hne
  have hle : s.cur.flatten.length ≤ udpMaxText := h.fits s.cur (by simp [Packing.msgs])
  have hdiv : (s.text.length - 1) / udpMaxText = s.done.length := by
    rw [htext, length_append, hsum]
    simp only [udpMaxText, udpMaxPayloadSize, udpHeaderSize] at hle ⊢
    omega
  rw [lastWindow, hdiv, htext, drop_left' hsum]

theorem lastWindow_of_le {text : Bytes} (h : text.length ≤ udpMaxText) : lastWindow text = text := by
  rw [lastWindow, show (text.length - 1) / udpMaxText = 0 from Nat.div_eq_of_lt (by simp at h ⊢; omega), Nat.mul_zero,
    drop_zero]

/-- Lists related element by element, of which the first ends with `x`. -/
theorem forall₂_concat {α β : Type*} {R : α → β → Prop} {x : α} (l : List α) :
    ∀ ys, List.Forall₂ R (l ++ [x]) ys →
    ∃ init y, ys = init ++ [y] ∧ (∀ z ∈ init, ∃ a ∈ l, R a z) ∧ R x y := by
  induction l with
  | nil =>
    intro ys h
    obtain ⟨y, tail, hxy, htail, rfl⟩ := forall₂_cons_left_iff.mp h
    rw [forall₂_nil_left_iff.mp htail]
    exact ⟨[], y, rfl, by simp, hxy⟩
  | cons a l ih =>
    intro ys h
    obtain ⟨b, tail, hab, htail, rfl⟩ := forall₂_cons_left_iff.mp h
    obtain ⟨init, y, rfl, hinit, hxy⟩ := ih tail htail
    refine ⟨b :: init, y, rfl, ?_, hxy⟩
    intro z hz
    rcases mem_cons.mp hz with rfl | hz
    · exact ⟨a, by simp, hab⟩
    · obtain ⟨a', ha', hr⟩ := hinit z hz
      exact ⟨a', by simp [ha'], hr⟩

/-- **The datagrams of the reply on their way out.**  All but the last are full, and the last carries the last window
of the text. -/
theorem sent_datagrams {c : SendConn} (hc : c.Allocated) {a : Bytes}
    (hdata : IsData it chunks) {rs : List UdpSend}
    (hdone : (connMwrite rs (udpReply c (getBuffers a it chunks))).2.1 = true) {skbs : List SkBuff}
    (hskbs : List.Forall₂ (fun d skb => IsReply (d.drop udpHeaderSize) skb)
      (connMwrite rs (udpReply c (getBuffers a it chunks))).1 skbs) :
    ∃ full skb, skbs = full ++ [skb] ∧ (∀ f ∈ full, ∃ text, IsReply text f ∧ text.length = udpMaxText) ∧
      IsReply (lastWindow (hitText a it)) skb ∧ lastWindow (hitText a it) ≠ [] := by
  set bufs := getBuffers a it chunks with hbufs
  have hfilled := Packing.ofBuffers_filled bufs (getBuffers_shortCount hdata a)
  have hcur : (Packing.ofBuffers bufs).cur.flatten ≠ [] := by
    rw [Packing.ofBuffers, hbufs, getBuffers, foldl_append]
    exact Packing.add_cur_ne_nil _ endLine (by decide)
  have hlast := hfilled.lastWindow_eq hcur
  rw [Packing.ofBuffers_text, hbufs, getBuffers_flatten hdata, ← hbufs] at hlast
  -- all datagrams were sent, and behind their headers they are the messages
  obtain ⟨behind, hsent, -⟩ := connMwrite_udpReply hc bufs rs
  rw [hsent] at hdone hskbs
  have htexts : List.Forall₂ IsReply
      ((Packing.ofBuffers bufs).done.map flatten ++ [(Packing.ofBuffers bufs).cur.flatten]) skbs := by
    have hdrop := label_drop c.requestId (Packing.ofBuffers bufs).msgs.length 0 (Packing.ofBuffers bufs).msgs
    rw [take_of_length_le (of_decide_eq_true hdone)] at hskbs
    rw [← map_singleton, ← map_append, show (Packing.ofBuffers bufs).done ++ [(Packing.ofBuffers bufs).cur] =
      (Packing.ofBuffers bufs).msgs from rfl, ← hdrop]
    rw [replyDatagrams, forall₂_map_left_iff] at hskbs
    rwa [forall₂_map_left_iff]
  obtain ⟨full, skb, hsplit, hfull, hskb⟩ := forall₂_concat _ _ htexts
  refine ⟨full, skb, hsplit, ?_, by rw [hlast]; exact hskb, by rw [hlast]; exact hcur⟩
  intro f hf
  obtain ⟨text, htext, hreply⟩ := hfull f hf
  obtain ⟨d, hd, rfl⟩ := mem_map.mp htext
  exact ⟨d.flatten, hreply, hfilled.full d hd⟩

theorem full_spared {full : List SkBuff} (hfull : ∀ f ∈ full, ∃ text, IsReply text f ∧ text.length = udpMaxText)
    (a : Bytes) (s : TcState) :
    Trace.All sendSkb (SparesOthers a) s full ∧ (Trace.run sendSkb s full).kcache = s.kcache := by
  induction full generalizing s with
  | nil => exact ⟨trivial, rfl⟩
  | cons f full ih =>
    obtain ⟨text, hreply, hlen⟩ := hfull f (by simp)
    have hne : text ≠ [] := by
      intro hnil
      rw [hnil] at hlen
      exact absurd hlen (by decide)
    have hrej : ¬ TxAccepts f := by
      rw [hreply.txAccepts_iff hne, hlen]
      simp
    have hkc : (sendSkb s f).kcache = s.kcache := by rw [sendSkb_kcache hreply, if_neg hrej]
    obtain ⟨hall, hrun⟩ := ih (fun g hg => hfull g (by simp [hg])) (sendSkb s f)
    exact ⟨⟨sparesOthers_of_not_accepts hreply hrej a s, hall⟩, hrun.trans hkc⟩

/-- **No cross-key poisoning.**  The reply for `a`, sent by memcached and seen by the egress programs in any state,
leaves the entries of all other keys alone at every datagram exactly if it is not cut into several datagrams of which
the last fits an entry and reads like the reply for another key. -/
theorem no_poisoning_iff (c : SendConn) (hc : c.Allocated) (a : Bytes) (ha : IsTextKey a) (it : Item)
    (chunks : List Bytes) (hdata : IsData it chunks) (rs : List UdpSend)
    (hdone : (connMwrite rs (udpReply c (getBuffers a it chunks))).2.1 = true) (skbs : List SkBuff)
    (hskbs : List.Forall₂ (fun d skb => IsReply (d.drop udpHeaderSize) skb)
      (connMwrite rs (udpReply c (getBuffers a it chunks))).1 skbs) :
    (∀ s, Trace.All sendSkb (SparesOthers a) s skbs) ↔
      ¬ (udpMaxText < (hitText a it).length ∧ (lastWindow (hitText a it)).length ≤ bmcMaxCacheDataSize ∧
        ∃ b, IsTextKey b ∧ b ≠ a ∧ BlockNames (lastWindow (hitText a it)) b) := by
  obtain ⟨full, skb, rfl, hfull, hskb, hne⟩ := sent_datagrams hc hdata hdone hskbs
  constructor
  · intro h hcut
    obtain ⟨-, hlen, b, hb, hba, hname⟩ := hcut
    have hall := (Trace.all_append _ _ _ _ _).mp (h ⟨skb, StatsMap.zeroed, KCache.zeroed⟩)
    exact hall.2.1 b hb hba (poisons_zeroed hskb hb hname hlen _ (full_spared hfull a _).2)
  · intro h s
    refine (Trace.all_append _ _ _ _ _).mpr ⟨(full_spared hfull a s).1, ?_, trivial⟩
    by_cases hacc : TxAccepts skb
    · refine sparesOthers_of_names hskb ?_ _
      intro b hb hname
      by_contra hba
      rcases Nat.lt_or_ge udpMaxText (hitText a it).length with hlong | hshort
      · exact h ⟨hlong, ((hskb.txAccepts_iff hne).mp hacc).1, b, hb, hba, hname⟩
      · -- one datagram, which starts with the block of `a`
        rw [lastWindow_of_le hshort] at hname
        obtain ⟨rest, hrest⟩ := hname
        obtain ⟨rest', hblock⟩ := valueBlock_named a it.flagsText it.value
        rw [hitText, hblock, append_assoc, cons_append] at hrest
        exact hba (named_inj hb.space_notMem ha.space_notMem hrest.symm).1
    · exact sparesOthers_of_not_accepts hskb hacc a _

/-- A short value, sent at the second try. -/
theorem no_poisoning_short :
    (∀ s, Trace.All sendSkb (SparesOthers [97]) s [SkBuff.ofFrame (udpFrame (hitText [97] ⟨0, [88]⟩))]) ↔
      ¬ (udpMaxText < (hitText [97] ⟨0, [88]⟩).length ∧
        (lastWindow (hitText [97] ⟨0, [88]⟩)).length ≤ bmcMaxCacheDataSize ∧
        ∃ b, IsTextKey b ∧ b ≠ [97] ∧ BlockNames (lastWindow (hitText [97] ⟨0, [88]⟩)) b) :=
  no_poisoning_iff ⟨7, [[]], 0, [default], 0, 0, 0⟩ ⟨by decide, by decide⟩ [97]
    ⟨by decide, by decide, by decide, by decide⟩ ⟨0, [88]⟩ [[88, 13, 10]] ⟨by decide, by decide⟩
      [.again, .whole]
    (by decide +kernel) _ (by
      rw [show (connMwrite [.again, .whole] (udpReply ⟨7, [[]], 0, [default], 0, 0, 0⟩
        (getBuffers [97] ⟨0, [88]⟩ [[88, 13, 10]]))).1 = [udpHeader 7 0 1 ++ hitText [97] ⟨0, [88]⟩] from by
          decide +kernel]
      exact .cons (isReply_udpFrame (hitText [97] ⟨0, [88]⟩)) .nil)

/-- The egress programs see the reply for `a` with the given value in an empty cache. -/
def cacheBehindReply (value : Bytes) : KCache :=
  (Trace.run sendSkb ⟨SkBuff.ofFrame [], StatsMap.zeroed, KCache.zeroed⟩
    ((connMwrite [.whole, .again, .whole] (udpReply ⟨7, [[]], 0, [default], 0, 0, 0⟩
      (getBuffers [97] ⟨0, value⟩ [value ++ crlf]))).1.map fun d =>
        SkBuff.ofFrame (udpFrame (d.drop udpHeaderSize)))).kcache

/-- A value of `a` that has the reply for `b` where the second datagram starts: afterwards the cache holds it as the
item of `b`. -/
theorem poisoned_by_long_value :
    ((cacheBehindReply (replicate 1376 65 ++ valueWord ++ [98, 32, 48, 32, 49, 13, 10, 88])).entryAt
        (fnv1a [98])).valid = true ∧
      ((cacheBehindReply (replicate 1376 65 ++ valueWord ++ [98, 32, 48, 32, 49, 13, 10, 88])).entryAt
        (fnv1a [98])).stored = valueBlock [98] [48] [88] := by
  decide +kernel

end BmcCache
