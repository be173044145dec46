import BmcCache.GetReply

/-!
# When a passed frame is the received frame

A chain that ends in `XDP_PASS` hands the packet to the network stack.  Most of the early returns of the chain first
move `ctx->data` back; some do not.  This file determines exactly when the stack sees the received frame.

Reading stops cleanly at a word `rest` starts with, behind the words `ws`, when

* the call that reads it still happens (at most 33 tail calls) and finds a free record (fewer than 30 saved keys),
* the push in front of it succeeded (14 bytes remain), and
* the word is one the program gives back (empty or too long), or it ends the request and the chain behind it can
  finish: whenever `bmc_prepare_packet` succeeds, `bmc_write_reply` can be called.

`pass_transparent_iff` shows that this is the exact condition, for every frame, every content of the maps, every
set of loaded programs and every change of the cache between the programs.
-/

namespace BmcCache

open ByteBuffer List

/-- If the verdict is `XDP_PASS`, the packet is `F`. -/
def KeepsFrame (F : Bytes) (r : XdpState × XdpAction) : Prop := r.2 = .pass → r.1.ctx.packet = F

/-- The program gives a word back that is empty or longer than a key. -/
def UnexpectedWord (rest : Bytes) : Prop :=
  nextWord rest = [] ∨ bmcMaxKeyLength < (nextWord rest).length

def EndsRequest (rest : Bytes) : Prop :=
  ¬ UnexpectedWord rest ∧ rest[(nextWord rest).length]? = some cr

/-- The text, read behind the words `ws`, goes on with some keys, each followed by a space, and then with a part for
which `P` holds. -/
def ReadsTo (P : List Bytes → Bytes → Prop) (ws : List Bytes) (text : Bytes) : Prop :=
  ∃ vs rest, text = joinWords vs ++ rest ∧ (∀ v ∈ vs, IsKeyWord v) ∧ P (ws ++ vs) rest

section

variable (loaded : XdpProg → Bool) (kcacheAt : ℕ → KCache) (headroom : ℕ)

/-- Behind the last of the words `ws`: if the chain gets as far as writing the reply's headers, it also gets to the
program that writes the reply. -/
def ReplyReached (ws : List Bytes) : Prop :=
  savedKeys kcacheAt ws ≠ [] → loaded .preparePacket = true → ws.length < maxTailCallCnt →
    adjustHeadLen ≤ headroom → loaded .writeReply = true ∧ ws.length + 1 < maxTailCallCnt

/-- Reading stops cleanly at the word `rest` starts with, behind the words `ws`. -/
structure StopsClean (ws : List Bytes) (rest : Bytes) : Prop where
  count : ws.length < maxTailCallCnt
  saved : (savedKeys kcacheAt ws).length < bmcMaxKeyInPacket
  room : 14 ≤ rest.length
  stop : UnexpectedWord rest ∨ EndsRequest rest ∧ ReplyReached loaded kcacheAt headroom (ws ++ [nextWord rest])

/-- The text, read behind the words `ws`, has a word at which reading stops cleanly. -/
def HasCleanStop (ws : List Bytes) (text : Bytes) : Prop :=
  ∃ vs rest, text = joinWords vs ++ rest ∧ (∀ v ∈ vs, IsKeyWord v) ∧
    StopsClean loaded kcacheAt headroom (ws ++ vs) rest

/-- The frames the chain can only pass unchanged: those that do not start the GET chain, and requests with a clean
stop when the first program of the GET chain is loaded. -/
def PassClean (ctx : XdpMd) : Prop :=
  StartsGetChain ctx.packet → loaded .hashKeys = true ∧
    HasCleanStop loaded kcacheAt ctx.head.length [] (keyBytes ctx.packet)

end

section

variable {loaded : XdpProg → Bool} {H F : Bytes} {kcacheAt : ℕ → KCache} {ws : List Bytes} {i : ℕ}
  {s : XdpState}

/-! ### Behind the saved keys -/

/-- From the first call of `bmc_write_reply` on, a passed packet is the request.  A call that fails falls through to
`XDP_DROP`, so the budget does not matter. -/
theorem WritePoint.keepsFrame (h : WritePoint H F kcacheAt ws i s) (budget : ℕ) :
    KeepsFrame F (TailChain.run (xdpExec kcacheAt) loaded budget (ws.length + 2 + i) .writeReply s) := by
  induction budget generalizing i s with
  | zero =>
    rcases h.cases with ⟨s', hex, -⟩ | ⟨s', hex⟩ | ⟨s', hex, hpkt⟩ | ⟨s', hex, -⟩
    · rw [TailChain.run_fallThrough hex (Or.inl rfl)]; simp [KeepsFrame]
    · rw [TailChain.run_ret hex]; simp [KeepsFrame]
    · rw [TailChain.run_ret hex]; exact fun _ => hpkt
    · rw [TailChain.run_ret hex]; simp [KeepsFrame]
  | succ budget ih =>
    rcases h.cases with ⟨s', hex, hpoint⟩ | ⟨s', hex⟩ | ⟨s', hex, hpkt⟩ | ⟨s', hex, -⟩
    · cases hl : loaded .writeReply with
      | true => rw [TailChain.run_tailCall hex hl]; exact ih hpoint
      | false => rw [TailChain.run_fallThrough hex (Or.inr hl)]; simp [KeepsFrame]
    · rw [TailChain.run_ret hex]; simp [KeepsFrame]
    · rw [TailChain.run_ret hex]; exact fun _ => hpkt
    · rw [TailChain.run_ret hex]; simp [KeepsFrame]

/-- Before the first saved key the packet is longer than the request. -/
theorem WritePoint.packet_ne (h : WritePoint H F kcacheAt ws 0 s) : s.ctx.packet ≠ F := by
  obtain ⟨H', T, -, hT, hctx⟩ := h.packet
  intro heq
  have hlen := congrArg length heq
  rw [hctx, take_zero] at hlen
  simp [servedBytes, hT] at hlen

theorem PreparePoint.keepsFrame_iff (h : PreparePoint H F kcacheAt ws s) (loaded : XdpProg → Bool) (budget : ℕ)
    (hb : ws.length + 1 + budget = maxTailCallCnt) :
    KeepsFrame F (TailChain.run (xdpExec kcacheAt) loaded budget (ws.length + 1) .preparePacket s) ↔
      (adjustHeadLen ≤ H.length → loaded .writeReply = true ∧ ws.length + 1 < maxTailCallCnt) := by
  rcases Nat.lt_or_ge H.length adjustHeadLen with hH | hH
  · rw [TailChain.run_ret (h.noRoom _ hH)]
    exact ⟨fun _ hge => by omega, fun _ _ => by rw [h.packet]⟩
  · obtain ⟨s', hex, hpoint⟩ := h.ok (ws.length + 1) hH
    simp only [hH, true_imp_iff]
    by_cases hcall : loaded .writeReply = true ∧ ws.length + 1 < maxTailCallCnt
    · obtain ⟨budget, rfl⟩ : ∃ b, budget = b + 1 := ⟨budget - 1, by omega⟩
      rw [TailChain.run_tailCall hex hcall.1]
      exact ⟨fun _ => hcall, fun _ => hpoint.keepsFrame budget⟩
    · have hfall : budget = 0 ∨ loaded .writeReply = false := by
        rcases Nat.eq_zero_or_pos budget with h0 | hpos
        · exact Or.inl h0
        · right
          by_contra hl
          exact hcall ⟨by simpa using hl, by omega⟩
      rw [TailChain.run_fallThrough hex hfall]
      exact ⟨fun hkeep => absurd (hkeep rfl) hpoint.packet_ne, fun hc => absurd hc hcall⟩

/-! ### From key to key -/

theorem savedKeys_length_append (kcacheAt : ℕ → KCache) (ws vs : List Bytes) :
    (savedKeys kcacheAt ws).length ≤ (savedKeys kcacheAt (ws ++ vs)).length := by
  simp only [savedKeys, length_map, zipIdx_append, filter_append, length_append]
  omega

theorem HashPoint.packet_ne (h : HashPoint H F kcacheAt ws s) : s.ctx.packet ≠ F := by
  obtain ⟨r, -, hat, -⟩ := h.context
  have hroom := hat.room
  intro heq
  have hlen := congrArg length (hat.packet.symm.trans heq)
  rw [length_drop] at hlen
  simp at hlen hroom
  omega

theorem HashPoint.packet_room (h : HashPoint H F kcacheAt ws s) : 14 ≤ s.ctx.packet.length := by
  obtain ⟨r, -, hat, -⟩ := h.context
  have hroom := hat.room
  rw [hat.packet, length_drop]
  omega

theorem nextWord_word (v rest : Bytes) (hv : IsKeyWord v) :
    nextWord (v ++ space :: rest) = v ∧ (v ++ space :: rest)[v.length]? = some space := by
  refine ⟨?_, by simp⟩
  rw [nextWord, takeWhile_append_of_pos hv.all, takeWhile_cons, if_neg (by decide), append_nil]

variable {text : Bytes}

/-- The part is either where the next word starts, or behind that word when a space follows. -/
theorem readsTo_cases {P : List Bytes → Bytes → Prop} :
    ReadsTo P ws text ↔ P ws text ∨
      (¬ UnexpectedWord text ∧ text[(nextWord text).length]? = some space ∧
        ReadsTo P (ws ++ [nextWord text]) (text.drop ((nextWord text).length + 1))) := by
  constructor
  · intro hcase
    obtain ⟨vs, rest, rfl, hvs, hstop⟩ := hcase
    cases vs with
    | nil => exact Or.inl (by simpa [joinWords] using hstop)
    | cons v vs =>
      have hv := hvs v (by simp)
      have htext : joinWords (v :: vs) ++ rest = v ++ space :: (joinWords vs ++ rest) := by simp [joinWords]
      obtain ⟨hnext, hspace⟩ := nextWord_word v (joinWords vs ++ rest) hv
      rw [htext, UnexpectedWord, hnext]
      refine Or.inr ⟨?_, hspace, vs, rest, ?_, fun u hu => hvs u (by simp [hu]), ?_⟩
      · intro hcase
        rcases hcase with h | h
        · exact hv.ne_nil h
        · exact absurd h (Nat.not_lt.mpr hv.length_le)
      · rw [drop_append, drop_eq_nil_of_le (by omega), Nat.add_sub_cancel_left]
        rfl
      · rw [append_assoc]
        exact hstop
  · intro hcase
    rcases hcase with hstop | ⟨hword, hspace, vs, rest, hdrop, hvs, hstop⟩
    · exact ⟨[], text, rfl, by simp, by simpa using hstop⟩
    · rw [UnexpectedWord, not_or, not_lt] at hword
      have hv := isKeyWord_nextWord text hword.1 hword.2
      refine ⟨nextWord text :: vs, rest, ?_, ?_, by rw [append_assoc] at hstop; exact hstop⟩
      · have hsplit := (nextWord_split text space hspace).1
        rw [hdrop] at hsplit
        exact hsplit.trans (by simp [joinWords])
      · intro u hu
        rcases mem_cons.mp hu with rfl | hu
        · exact hv
        · exact hvs u hu

theorem hasCleanStop_cases {headroom : ℕ} :
    HasCleanStop loaded kcacheAt headroom ws text ↔
      StopsClean loaded kcacheAt headroom ws text ∨
      (¬ UnexpectedWord text ∧ text[(nextWord text).length]? = some space ∧
        HasCleanStop loaded kcacheAt headroom (ws ++ [nextWord text]) (text.drop ((nextWord text).length + 1))) :=
  readsTo_cases

/-- The byte behind a word that does not end the text is a separator. -/
theorem getElem?_nextWord (text : Bytes) (h : (nextWord text).length < text.length) :
    text[(nextWord text).length]? = some cr ∨ text[(nextWord text).length]? = some space := by
  obtain ⟨b, hb⟩ : ∃ b, text[(nextWord text).length]? = some b := ⟨_, getElem?_eq_getElem h⟩
  have hkey := (nextWord_split text b hb).2
  simp only [keyByte, Bool.and_eq_false_iff, bne_eq_false_iff_eq] at hkey
  rw [hb]
  rcases hkey with rfl | rfl
  · exact Or.inr rfl
  · exact Or.inl rfl

/-- The last word: from here on only the chain behind it matters. -/
theorem HashPoint.last_keepsFrame_iff (h : HashPoint H F kcacheAt ws s) (hF : StartsGetChain F) (budget : ℕ)
    (hb : ws.length + 1 + budget = maxTailCallCnt) (hlt : (savedKeys kcacheAt ws).length < bmcMaxKeyInPacket)
    (hend : EndsRequest s.ctx.packet) :
    KeepsFrame F (TailChain.run (xdpExec kcacheAt) loaded budget (ws.length + 1) .hashKeys s) ↔
      ReplyReached loaded kcacheAt H.length (ws ++ [nextWord s.ctx.packet]) := by
  obtain ⟨hword, hcr⟩ := hend
  rw [UnexpectedWord, not_or, not_lt] at hword
  have hlen : (ws ++ [nextWord s.ctx.packet]).length = ws.length + 1 := by simp
  obtain ⟨s', hctx, hnone, hsome⟩ := h.last hF hlt hword.1 hword.2 hcr
  have hkeep : KeepsFrame F (s', .pass) := fun _ => by rw [hctx]
  unfold ReplyReached
  by_cases hsaved : savedKeys kcacheAt (ws ++ [nextWord s.ctx.packet]) = []
  · rw [TailChain.run_ret (hnone hsaved)]
    exact ⟨fun _ hne => absurd hsaved hne, fun _ => hkeep⟩
  · obtain ⟨hex, hpoint⟩ := hsome hsaved
    by_cases hcall : loaded .preparePacket = true ∧ ws.length + 1 < maxTailCallCnt
    · obtain ⟨budget, rfl⟩ : ∃ b, budget = b + 1 := ⟨budget - 1, by omega⟩
      have hprep := hpoint.keepsFrame_iff loaded budget (by rw [hlen]; omega)
      rw [hlen] at hprep ⊢
      rw [TailChain.run_tailCall hex hcall.1, hprep]
      simp only [ne_eq, hsaved, not_false_eq_true, hcall.1, hcall.2, true_imp_iff]
    · have hfall : budget = 0 ∨ loaded .preparePacket = false := by
        rcases Nat.eq_zero_or_pos budget with h0 | hpos
        · exact Or.inl h0
        · right
          by_contra hl
          exact hcall ⟨by simpa using hl, by omega⟩
      rw [TailChain.run_fallThrough hex hfall, hlen]
      exact ⟨fun _ _ hl hn => absurd ⟨hl, hn⟩ hcall, fun _ => hkeep⟩

theorem HasCleanStop.saved_lt {headroom : ℕ}
    (h : HasCleanStop loaded kcacheAt headroom ws text) : (savedKeys kcacheAt ws).length < bmcMaxKeyInPacket := by
  obtain ⟨vs, rest, -, -, hstop⟩ := h
  exact (savedKeys_length_append kcacheAt ws vs).trans_lt hstop.saved

theorem HasCleanStop.count_lt {headroom : ℕ}
    (h : HasCleanStop loaded kcacheAt headroom ws text) : ws.length < maxTailCallCnt := by
  obtain ⟨vs, rest, -, -, hstop⟩ := h
  have := hstop.count
  rw [length_append] at this
  omega

theorem HasCleanStop.room {headroom : ℕ}
    (h : HasCleanStop loaded kcacheAt headroom ws text) : 14 ≤ text.length := by
  obtain ⟨vs, rest, rfl, -, hstop⟩ := h
  rw [length_append]
  exact hstop.room.trans (Nat.le_add_left _ _)

structure Continues (kcacheAt : ℕ → KCache) (ws : List Bytes) (text : Bytes) : Prop where
  saved : (savedKeys kcacheAt ws).length < bmcMaxKeyInPacket
  word : ¬ UnexpectedWord text
  more : text[(nextWord text).length]? ≠ some cr
  room : (nextWord text).length + 1 + 14 ≤ text.length

/-- Where the call goes on and `P` does not hold, it can only hold behind the word. -/
theorem Continues.readsTo_iff {P : List Bytes → Bytes → Prop}
    (h : Continues kcacheAt ws text) (hP : ¬ P ws text) :
    ReadsTo P ws text ↔ ReadsTo P (ws ++ [nextWord text]) (text.drop ((nextWord text).length + 1)) := by
  have hroom := h.room
  have hspace := (getElem?_nextWord text (by omega)).resolve_left h.more
  rw [readsTo_cases]
  exact ⟨fun hcase => (hcase.resolve_left hP).2.2, fun hnext => Or.inr ⟨h.word, hspace, hnext⟩⟩

theorem Continues.hasCleanStop_iff {headroom : ℕ} (h : Continues kcacheAt ws text) :
    HasCleanStop loaded kcacheAt headroom ws text ↔
      HasCleanStop loaded kcacheAt headroom (ws ++ [nextWord text]) (text.drop ((nextWord text).length + 1)) := by
  refine h.readsTo_iff fun hstop => ?_
  rcases hstop.stop with hw | ⟨hend, -⟩
  · exact h.word hw
  · exact h.more hend.2

/-- Where it does not go on, the two sides are decided on the spot. -/
theorem HashPoint.stop_keepsFrame_iff (h : HashPoint H F kcacheAt ws s) (hF : StartsGetChain F) (budget : ℕ)
    (hb : ws.length + 1 + budget = maxTailCallCnt) (hno : ¬ Continues kcacheAt ws s.ctx.packet) :
    KeepsFrame F (TailChain.run (xdpExec kcacheAt) loaded budget (ws.length + 1) .hashKeys s) ↔
      HasCleanStop loaded kcacheAt H.length ws s.ctx.packet := by
  have hcount : ws.length < maxTailCallCnt := by omega
  rcases Nat.lt_or_ge (savedKeys kcacheAt ws).length bmcMaxKeyInPacket with hlt | hge
  · by_cases hw : UnexpectedWord s.ctx.packet
    · obtain ⟨s', hex, hctx⟩ := h.unexpected (ws.length + 1) hlt hw
      rw [TailChain.run_ret hex, hasCleanStop_cases]
      exact ⟨fun _ => Or.inl ⟨hcount, hlt, h.packet_room, Or.inl hw⟩, fun _ _ => by rw [hctx]⟩
    · by_cases hcr : s.ctx.packet[(nextWord s.ctx.packet).length]? = some cr
      · rw [h.last_keepsFrame_iff hF budget hb hlt ⟨hw, hcr⟩, hasCleanStop_cases]
        constructor
        · exact fun hreach => Or.inl ⟨hcount, hlt, h.packet_room, Or.inr ⟨⟨hw, hcr⟩, hreach⟩⟩
        · intro hcase
          rcases hcase with hstop | ⟨-, hspace, -⟩
          · exact (hstop.stop.resolve_left hw).2
          · rw [hcr] at hspace
            exact absurd hspace (by decide)
      · have hshort : s.ctx.packet.length < (nextWord s.ctx.packet).length + 1 + 14 := by
          by_contra hroom
          exact hno ⟨hlt, hw, hcr, by omega⟩
        have hne : ¬ KeepsFrame F
            (TailChain.run (xdpExec kcacheAt) loaded budget (ws.length + 1) .hashKeys s) := by
          rw [UnexpectedWord, not_or, not_lt] at hw
          obtain ⟨s', hex, hctx⟩ := h.short hlt hw.1 hw.2 hcr hshort
          rw [TailChain.run_ret hex]
          exact fun hkeep => h.packet_ne (hctx ▸ hkeep rfl)
        refine ⟨fun hkeep => absurd hkeep hne, fun hstop => ?_⟩
        rcases hasCleanStop_cases.mp hstop with hstop | ⟨-, -, hnext⟩
        · rcases hstop.stop with hw' | ⟨hend, -⟩
          · exact absurd hw' hw
          · exact absurd hend.2 hcr
        · have := hnext.room
          rw [length_drop] at this
          omega
  · rw [TailChain.run_ret (h.full _ (Nat.le_antisymm h.saved_le hge))]
    exact ⟨fun hkeep => absurd (hkeep rfl) h.packet_ne, fun hstop => absurd hstop.saved_lt (Nat.not_lt.mpr hge)⟩

/-- **From a key on**: a passed packet is the frame exactly when the remaining text has a clean stop.  The induction
is on the tail calls that are left. -/
theorem HashPoint.keepsFrame_iff (hl : loaded .hashKeys = true) (hF : StartsGetChain F) (budget : ℕ) :
    ∀ (ws : List Bytes) (s : XdpState), HashPoint H F kcacheAt ws s →
    ws.length + 1 + budget = maxTailCallCnt →
    (KeepsFrame F (TailChain.run (xdpExec kcacheAt) loaded budget (ws.length + 1) .hashKeys s) ↔
      HasCleanStop loaded kcacheAt H.length ws s.ctx.packet) := by
  induction budget with
  | zero =>
    intro ws s h hb
    by_cases hgo : Continues kcacheAt ws s.ctx.packet
    · have hw := hgo.word
      rw [UnexpectedWord, not_or, not_lt] at hw
      obtain ⟨s', hex, hpoint, -⟩ := h.more hgo.saved hw.1 hw.2 hgo.more hgo.room (by omega)
      rw [TailChain.run_fallThrough hex (Or.inl rfl), hgo.hasCleanStop_iff]
      refine ⟨fun hkeep => absurd (hkeep rfl) hpoint.packet_ne, fun hstop => ?_⟩
      have := hstop.count_lt
      rw [length_append, length_singleton] at this
      omega
    · exact h.stop_keepsFrame_iff hF 0 hb hgo
  | succ budget ih =>
    intro ws s h hb
    by_cases hgo : Continues kcacheAt ws s.ctx.packet
    · have hw := hgo.word
      rw [UnexpectedWord, not_or, not_lt] at hw
      obtain ⟨s', hex, hpoint, hpkt⟩ := h.more hgo.saved hw.1 hw.2 hgo.more hgo.room (by omega)
      have hnext := ih _ s' hpoint (by rw [length_append, length_singleton]; omega)
      rw [length_append, length_singleton, hpkt] at hnext
      rw [TailChain.run_tailCall hex hl, hgo.hasCleanStop_iff]
      exact hnext
    · exact h.stop_keepsFrame_iff hF (budget + 1) hb hgo

end

/-! ### The whole chain -/

/-- **When `XDP_PASS` is transparent.**  A passed packet is byte for byte the received frame exactly for the frames of
`PassClean`. -/
theorem pass_transparent_iff (loaded : XdpProg → Bool) (kcacheAt : ℕ → KCache) (s : XdpState) :
    ((runXdp loaded kcacheAt s).2 = .pass → (runXdp loaded kcacheAt s).1.ctx.packet = s.ctx.packet) ↔
      PassClean loaded kcacheAt s.ctx := by
  show KeepsFrame s.ctx.packet (runXdp loaded kcacheAt s) ↔ _
  unfold PassClean
  by_cases hF : StartsGetChain s.ctx.packet
  · obtain ⟨s', hex, hpoint⟩ := xdp_rxFilter_get kcacheAt s rfl hF
    simp only [hF, true_imp_iff]
    cases hl : loaded .hashKeys with
    | true =>
      have hrun : runXdp loaded kcacheAt s = TailChain.run (xdpExec kcacheAt) loaded 32 1 .hashKeys s' :=
        TailChain.run_tailCall hex hl
      have htext : keyBytes s.ctx.packet = s'.ctx.packet := hpoint.text
      rw [hrun, htext]
      simpa using HashPoint.keepsFrame_iff hl hF 32 [] s' hpoint rfl
    | false =>
      have hrun : runXdp loaded kcacheAt s = (s', .pass) := TailChain.run_fallThrough hex (Or.inr hl)
      rw [hrun]
      exact ⟨fun hkeep => absurd (hkeep rfl) hpoint.packet_ne, fun h => absurd h.1 (by simp)⟩
  · simp only [hF, false_imp_iff, iff_true]
    obtain ⟨s', o, hex, hctx, -, -, rfl | ⟨htcp, rfl⟩⟩ := xdp_rxFilter_other kcacheAt s rfl hF
    · have hrun : runXdp loaded kcacheAt s = (s', .pass) := TailChain.run_ret hex
      rw [hrun]
      exact fun _ => by rw [hctx]
    · cases hl : loaded .invalidateCache with
      | true =>
        obtain ⟨s₂, hinv, hctx₂, -⟩ := xdp_invalidateCache kcacheAt 1 s'
        have hrun : runXdp loaded kcacheAt s = (s₂, .pass) :=
          (TailChain.run_tailCall hex hl).trans (TailChain.run_ret hinv)
        rw [hrun]
        exact fun _ => by rw [hctx₂, hctx]
      | false =>
        have hrun : runXdp loaded kcacheAt s = (s', .pass) := TailChain.run_fallThrough hex (Or.inr hl)
        rw [hrun]
        exact fun _ => by rw [hctx]

/-- `get abcdefghij b\r\n` with nothing cached and every program loaded: only three bytes follow the first key, the
push in front of the second fails, and what is passed starts in the middle of the request. -/
theorem pass_not_transparent :
    let frame := udpFrame
      (getWord ++ [97, 98, 99, 100, 101, 102, 103, 104, 105, 106] ++ space :: 98 :: crlf)
    let r := runXdp (fun _ => true) (fun _ => KCache.zeroed) (XdpState.received KCache.zeroed frame)
    r.2 = .pass ∧ r.1.ctx.packet ≠ frame := by
  decide +kernel

end BmcCache
