import BmcCache.GetReply
import BmcCache.TextParser

/-!
# The two request parsers

BMC reads the keys of a request up to the first `'\r'`, whatever stands behind it; memcached reads a line up to the
first `'\n'`, drops one `'\r'` in front of it, stops at a zero byte, refuses datagrams that say they are one of
several, and goes on with what follows the line.

* `runXdp_tx_text` — the text of a request that BMC answers, with its words and the `'\r'` behind them;
* `words_request` — memcached's words of a text that starts like this one;
* `parsers_agree_iff` — for a datagram BMC answers, memcached looks up the same keys and executes nothing else
  exactly if the datagram says it stands alone, the first `'\r'` is followed by `'\n'`, there is neither `'\n'` nor a
  zero byte in front of it and no other `'\n'` behind it.
-/

namespace BmcCache

open List

/-- memcached executes one command for the datagram, a GET that looks up `ks`. -/
def ExecutesOnlyGet (payload : Bytes) (ks : List Bytes) : Prop :=
  ∃ text command rest failed, tryReadUdp payload = some text ∧
    tryReadCommandUdp (text.getD 0 0) text = .line command rest ∧
    processGetCommand command = some (ks, failed) ∧
    ∀ command' rest', tryReadCommandUdp (text.getD 0 0) rest ≠ .line command' rest'

structure CleanRequest (payload : Bytes) : Prop where
  single : payload.getD 4 0 = 0 ∧ payload.getD 5 0 = 1
  line : ∃ front rest, payload.drop 8 = front ++ cr :: lf :: rest ∧ cr ∉ front ∧ lf ∉ front ∧
    0 ∉ front ∧ lf ∉ rest

/-! ### What BMC answers -/

section

variable {H F : Bytes} {kcacheAt : ℕ → KCache} {n : ℕ} {s s' : XdpState}

/-- The programs behind `bmc_hash_keys` are reached only by requests that have a `'\r'`. -/
def EndsAtCr (F : Bytes) (p : XdpProg) : Prop := p = .preparePacket ∨ p = .writeReply → cr ∈ keyBytes F

theorem HashPoint.endsAtCr {ws : List Bytes} (h : HashPoint H F kcacheAt ws s) (hF : StartsGetChain F)
    (hn : ws.length + 1 ≤ maxTailCallCnt) :
    (∃ s' v, xdpExec kcacheAt (ws.length + 1) .hashKeys s = (s', .ret v) ∧ v ≠ .tx) ∨
      ∃ s' q v, xdpExec kcacheAt (ws.length + 1) .hashKeys s = (s', .tailCall q v) ∧ EndsAtCr F q := by
  rcases Nat.lt_or_ge (savedKeys kcacheAt ws).length bmcMaxKeyInPacket with hlt | hge
  · by_cases hw : nextWord s.ctx.packet = [] ∨ bmcMaxKeyLength < (nextWord s.ctx.packet).length
    · obtain ⟨s', hex, -⟩ := h.unexpected (ws.length + 1) hlt hw
      exact Or.inl ⟨s', _, hex, by simp⟩
    · rw [not_or, not_lt] at hw
      obtain ⟨hne, hle⟩ := hw
      by_cases hcr : s.ctx.packet[(nextWord s.ctx.packet).length]? = some cr
      · obtain ⟨s', -, hnone, hsome⟩ := h.last hF hlt hne hle hcr
        by_cases hsaved : savedKeys kcacheAt (ws ++ [nextWord s.ctx.packet]) = []
        · exact Or.inl ⟨s', _, hnone hsaved, by simp⟩
        · refine Or.inr ⟨s', _, _, (hsome hsaved).1, fun _ => ?_⟩
          rw [h.text]
          exact mem_append_right _ (mem_of_getElem? hcr)
      · rcases Nat.lt_or_ge s.ctx.packet.length ((nextWord s.ctx.packet).length + 1 + 14) with hshort | hroom
        · obtain ⟨s', hex, -⟩ := h.short hlt hne hle hcr hshort
          exact Or.inl ⟨s', _, hex, by simp⟩
        · obtain ⟨s', hex, -, -⟩ := h.more hlt hne hle hcr hroom (by omega)
          exact Or.inr ⟨s', _, _, hex, fun hp => by simp at hp⟩
  · exact Or.inl ⟨_, _, h.full _ (Nat.le_antisymm h.saved_le hge), by simp⟩

/-- One program: a reply is sent, or the next programs are called, only with a `'\r'` in the request. -/
theorem ChainPoint.endsAtCr {p : XdpProg} (h : ChainPoint H F kcacheAt n p s) (hp : EndsAtCr F p)
    (hn : n ≤ maxTailCallCnt) :
    (∀ v, xdpExec kcacheAt n p s = (s', .ret v) → v = .tx → cr ∈ keyBytes F) ∧
      ∀ q v, xdpExec kcacheAt n p s = (s', .tailCall q v) → EndsAtCr F q := by
  cases p with
  | rxFilter =>
    obtain ⟨rfl, hctx⟩ := h
    by_cases hF : StartsGetChain F
    · obtain ⟨s', hex, -⟩ := xdp_rxFilter_get kcacheAt s hctx hF
      rw [hex]
      exact ⟨by simp, fun q v heq hq => by simp at heq; simp [← heq.2.1] at hq⟩
    · obtain ⟨s', o, hex, -, -, -, rfl | ⟨-, rfl⟩⟩ := xdp_rxFilter_other kcacheAt s hctx hF
      · rw [hex]
        exact ⟨fun v heq hv => by simp [hv] at heq, by simp⟩
      · rw [hex]
        exact ⟨by simp, fun q v heq hq => by simp at heq; simp [← heq.2.1] at hq⟩
  | hashKeys =>
    obtain ⟨ws, rfl, hF, hpoint⟩ := h
    rcases hpoint.endsAtCr hF hn with ⟨s'', v, hex, hv⟩ | ⟨s'', q, v, hex, hq⟩
    · rw [hex]
      exact ⟨fun v' heq hv' => absurd hv' (by simp at heq; rw [← heq.2]; exact hv), by simp⟩
    · rw [hex]
      exact ⟨by simp, fun q' v' heq => by simp at heq; rw [← heq.2.1]; exact hq⟩
  | preparePacket => exact ⟨fun _ _ _ => hp (Or.inl rfl), fun _ _ _ _ => hp (Or.inl rfl)⟩
  | writeReply => exact ⟨fun _ _ _ => hp (Or.inr rfl), fun _ _ _ _ => hp (Or.inr rfl)⟩
  | invalidateCache =>
    obtain ⟨s', hex, -⟩ := xdp_invalidateCache kcacheAt n s
    rw [hex]
    exact ⟨fun v heq hv => by simp [hv] at heq, by simp⟩

end

theorem runXdp_tx_cr (loaded : XdpProg → Bool) (kcacheAt : ℕ → KCache) (s : XdpState)
    (h : (runXdp loaded kcacheAt s).2 = .tx) : cr ∈ keyBytes s.ctx.packet := by
  have hpost := TailChain.run_post (xdpExec kcacheAt) loaded maxTailCallCnt
    (fun n p t => ChainPoint s.ctx.head s.ctx.packet kcacheAt n p t ∧ EndsAtCr s.ctx.packet p)
    (fun _ v => v = .tx → cr ∈ keyBytes s.ctx.packet)
    (by
      intro n p t t' v hn hI hex
      exact (hI.1.endsAtCr hI.2 hn).1 v hex)
    (by
      intro n p t t' q v hn hI hex
      have := hI.1.step hn
      rw [hex] at this
      exact fun hv => absurd hv this.1)
    (by
      intro n p t t' q v hn hI hex
      have := hI.1.step hn.le
      rw [hex] at this
      exact ⟨this.2, (hI.1.endsAtCr hI.2 hn.le).2 q v hex⟩)
    maxTailCallCnt 0 .rxFilter s (by omega) ⟨⟨rfl, rfl⟩, fun hp => by simp at hp⟩
  exact hpost h

theorem skipSpaces_split (l : Bytes) : ∀ off, ∃ k, skipSpaces off l = off + k ∧
    l = replicate k space ++ l.drop k := by
  induction l with
  | nil => intro off; exact ⟨0, rfl, rfl⟩
  | cons b l ih =>
    intro off
    by_cases hb : off < bmcMaxPacketLength ∧ b = space
    · obtain ⟨k, hk, hl⟩ := ih (off + 1)
      refine ⟨k + 1, by rw [skipSpaces, if_pos hb, hk]; omega, ?_⟩
      rw [replicate_succ, cons_append, drop_succ_cons, ← hl, hb.2]
    · exact ⟨0, by rw [skipSpaces, if_neg hb, Nat.add_zero], rfl⟩

/-- **The text of a request BMC answers**: the keyword, spaces, the words, `'\r'`. -/
theorem runXdp_tx_text (loaded : XdpProg → Bool) (kcacheAt : ℕ → KCache) (s : XdpState)
    (h : (runXdp loaded kcacheAt s).2 = .tx) :
    ∃ k init w rest, requestWords (keyBytes s.ctx.packet) = init ++ [w] ∧ (∀ v ∈ init ++ [w], IsKeyWord v) ∧
      s.ctx.packet.drop sizeofHeaders =
        (getWord ++ replicate k space ++ (joinWords init ++ w)) ++ cr :: rest := by
  have hsent := runXdp_tx loaded kcacheAt s h
  have hcr := runXdp_tx_cr loaded kcacheAt s h
  set F := s.ctx.packet with hF
  have hne : requestWords (keyBytes F) ≠ [] := splitOn_ne_nil _ _
  obtain ⟨init, w, hws⟩ : ∃ init w, requestWords (keyBytes F) = init ++ [w] :=
    ⟨_, _, (dropLast_append_getLast hne).symm⟩
  obtain ⟨k, hk, hspaces⟩ := skipSpaces_split (F.drop 54) 4
  have htake : (keyBytes F).takeWhile (· != cr) = joinWords init ++ w := by
    rw [joinWords_append, ← hws, requestWords, intercalate_splitOn]
  obtain ⟨rest, hrest⟩ : ∃ rest, keyBytes F = (joinWords init ++ w) ++ cr :: rest := by
    obtain ⟨a, b, hab, hnot⟩ := eq_append_cons_of_mem hcr
    refine ⟨b, ?_⟩
    rw [← htake, hab, takeWhile_append_of_pos, takeWhile_cons, if_neg (by simp), append_nil]
    intro c hc
    simpa using fun heq : c = cr => hnot (heq ▸ hc)
  refine ⟨k, init, w, rest, hws, ?_, ?_⟩
  · rw [← hws]
    exact hsent.words
  · have hword := hsent.frame.1.2.2.2
    rw [← take_append_drop 4 (F.drop sizeofHeaders), hword, drop_headers_getWord, hspaces, drop_drop,
      show 54 + k = sizeofHeaders + keysOffset F from by rw [keysOffset, hk]; simp; omega,
      show F.drop (sizeofHeaders + keysOffset F) = keyBytes F from rfl, hrest]
    simp

/-! ### memcached's words of such a text -/

section

variable {init : List Bytes} {w : Bytes}

theorem IsKeyWord.space_notMem {v : Bytes} (h : IsKeyWord v) : space ∉ v :=
  fun hm => (keyByte_eq_true.mp (h.all _ hm)).1 rfl

theorem IsKeyWord.cr_notMem {v : Bytes} (h : IsKeyWord v) : cr ∉ v :=
  fun hm => (keyByte_eq_true.mp (h.all _ hm)).2 rfl

/-- The words in front of the last one are found whole, whatever becomes of the last. -/
theorem words_joinWords (h : ∀ v ∈ init ++ [w], IsKeyWord v) (rest : Bytes) :
    words (joinWords init ++ w ++ rest) = init ++ wordsFrom w rest := by
  induction init with
  | nil =>
    rw [joinWords, flatMap_nil, nil_append, nil_append, words,
      wordsFrom_append _ _ _ (h w (by simp)).space_notMem, nil_append]
  | cons v init ih =>
    have hv := h v (by simp)
    have hsplit : joinWords (v :: init) ++ w ++ rest = v ++ (space :: (joinWords init ++ w ++ rest)) := by
      simp [joinWords]
    rw [hsplit, words, wordsFrom_append _ _ _ hv.space_notMem, nil_append, wordsFrom_space hv.ne_nil,
      ih (fun u hu => h u (by simp at hu ⊢; tauto)), cons_append]

theorem words_request (h : ∀ v ∈ init ++ [w], IsKeyWord v) (k : ℕ) (rest : Bytes) :
    words (getWord ++ replicate k space ++ (joinWords init ++ w) ++ rest) =
      getToken :: (init ++ wordsFrom w rest) := by
  have hsplit : getWord ++ replicate k space ++ (joinWords init ++ w) ++ rest =
      getToken ++ (space :: (replicate k space ++ (joinWords init ++ w ++ rest))) := by
    simp [getWord, getToken, space]
  rw [hsplit, words, wordsFrom_append _ _ _ (by decide), nil_append, wordsFrom_space (by decide), words_spaces,
    words_joinWords h]

end

/-! ### Agreement -/

theorem tryReadCommandAscii_crlf {front : Bytes} (rest : Bytes) (hne : front ≠ []) (hlf : lf ∉ front) :
    tryReadCommandAscii (front ++ cr :: lf :: rest) = .line front rest := by
  have hcut : (front ++ cr :: lf :: rest).takeWhile (· != lf) = front ++ [cr] := by
    rw [show front ++ cr :: lf :: rest = (front ++ [cr]) ++ lf :: rest from by simp, takeWhile_append_of_pos,
      takeWhile_cons, if_neg (by simp), append_nil]
    intro b hb
    have hcr : cr ≠ lf := by decide
    rcases mem_append.mp hb with hb | hb
    · simpa using fun heq : b = lf => hlf (heq ▸ hb)
    · rw [mem_singleton.mp hb]
      simpa using hcr
  have hpos := length_pos_iff.mpr hne
  rw [tryReadCommandAscii, if_pos (by simp)]
  simp only [hcut]
  rw [if_pos ⟨by simp; omega, by simp⟩, dropLast_concat]
  congr 1
  rw [show front ++ cr :: lf :: rest = (front ++ [cr, lf]) ++ rest from by simp, drop_left' (by simp)]

/-- A line is cut at the first `'\n'`; what is handed on is the line, perhaps without its last byte. -/
theorem tryReadCommandAscii_line {text command rest : Bytes} (h : tryReadCommandAscii text = .line command rest) :
    ∃ el, text = el ++ lf :: rest ∧ lf ∉ el ∧ (command = el ∨ el = command ++ [cr]) := by
  rw [tryReadCommandAscii] at h
  split at h
  · rename_i hmem
    obtain ⟨a, b, hab, hnot⟩ := eq_append_cons_of_mem hmem
    have hcut : text.takeWhile (· != lf) = a := by
      rw [hab, takeWhile_append_of_pos, takeWhile_cons, if_neg (by simp), append_nil]
      intro c hc
      simpa using fun heq : c = lf => hnot (heq ▸ hc)
    simp only [hcut, ReadCommand.line.injEq] at h
    refine ⟨a, ?_, hnot, ?_⟩
    · rw [← h.2, hab, show a ++ lf :: b = (a ++ [lf]) ++ b from by simp, drop_left' (by simp)]
      simp
    · rw [← h.1]
      split
      · rename_i hlast
        exact Or.inr (dropLast_append_getLast? _ hlast.2).symm
      · exact Or.inl rfl
  · split at h
    · simp only at h
      split at h <;> simp at h
    · simp at h

theorem tryReadCommandAscii_isLine {text : Bytes} (h : lf ∈ text) :
    ∃ command rest, tryReadCommandAscii text = .line command rest := by
  rw [tryReadCommandAscii, if_pos h]
  exact ⟨_, _, rfl⟩

theorem tryReadCommandAscii_none {text : Bytes} (h : lf ∉ text) (command rest : Bytes) :
    tryReadCommandAscii text ≠ .line command rest := by
  intro hline
  obtain ⟨el, htext, -, -⟩ := tryReadCommandAscii_line hline
  exact h (by rw [htext]; simp)

/-- A request BMC reads does not look like one of the binary protocol. -/
theorem tryReadCommandUdp_get (rest rcurr : Bytes) :
    tryReadCommandUdp ((getWord ++ rest).getD 0 0) rcurr = tryReadCommandAscii rcurr := by
  rw [tryReadCommandUdp, if_neg (by simp [getWord])]

theorem tryReadUdp_some {buf text : Bytes} (h : tryReadUdp buf = some text) :
    8 < buf.length ∧ (buf.getD 4 0 = 0 ∧ buf.getD 5 0 = 1) ∧ buf.drop 8 = text := by
  rw [tryReadUdp] at h
  split at h
  · rename_i hlen
    split at h
    · simp at h
    · rename_i hsingle
      rw [not_or, not_not, not_not] at hsingle
      exact ⟨hlen, hsingle, by simpa using h⟩
  · simp at h

theorem tryReadCommandUdp_line {b : UInt8} {rcurr command rest : Bytes}
    (h : tryReadCommandUdp b rcurr = .line command rest) :
    (∀ l, tryReadCommandUdp b l = tryReadCommandAscii l) ∧ tryReadCommandAscii rcurr = .line command rest := by
  have hb : b ≠ 0x80 := by
    intro hb
    rw [tryReadCommandUdp, if_pos hb] at h
    simp at h
  have hascii : ∀ l, tryReadCommandUdp b l = tryReadCommandAscii l := fun l => by rw [tryReadCommandUdp, if_neg hb]
  exact ⟨hascii, by rw [← hascii]; exact h⟩

theorem front_unique {a b l r : Bytes} (ha : cr ∉ a) (hb : cr ∉ b) (h : a ++ cr :: l = b ++ cr :: r) :
    a = b := by
  have hcut : ∀ x y : Bytes, cr ∉ x → (x ++ cr :: y).takeWhile (· != cr) = x := by
    intro x y hx
    rw [takeWhile_append_of_pos, takeWhile_cons, if_neg (by simp), append_nil]
    intro c hc
    simpa using fun heq : c = cr => hx (heq ▸ hc)
  rw [← hcut a l ha, h, hcut b r hb]

/-- A line that ends behind a front without `'\n'` goes on with the `'\r'` behind it. -/
theorem cut_behind_front {el front l r : Bytes} (h : el ++ lf :: l = front ++ cr :: r) (hlf : lf ∉ front) :
    ∃ c, el = front ++ cr :: c := by
  have hne : lf ≠ cr := by decide
  rcases append_eq_append_iff.mp h with ⟨a, hfront, hrest⟩ | ⟨c, hel, hrest⟩
  · cases a with
    | nil => exact absurd (cons.inj hrest).1 hne
    | cons x a =>
      rw [cons_append] at hrest
      exact absurd (by rw [hfront, ← (cons.inj hrest).1]; simp) hlf
  · cases c with
    | nil => exact absurd (cons.inj hrest).1.symm hne
    | cons x c =>
      rw [cons_append] at hrest
      exact ⟨c, by rw [hel, ← (cons.inj hrest).1]⟩

section

variable {k : ℕ} {init : List Bytes} {w : Bytes}

/-- The part of a request in front of its `'\r'`. -/
abbrev requestFront (k : ℕ) (init : List Bytes) (w : Bytes) : Bytes :=
  getWord ++ replicate k space ++ (joinWords init ++ w)

/-- A byte that is neither in the keyword nor in a word nor a space is not in the front. -/
theorem requestFront_notMem {c : UInt8} (hget : c ∉ getWord) (hsp : c ≠ space)
    (h : ∀ v ∈ init ++ [w], c ∉ v) :
    c ∉ requestFront k init w := by
  have hjoin : c ∉ joinWords init := by
    intro hm
    obtain ⟨v, hv, hcv⟩ := mem_flatMap.mp hm
    rcases mem_append.mp hcv with hcv | hcv
    · exact h v (by simp [hv]) hcv
    · exact hsp (mem_singleton.mp hcv)
  have hw := h w (by simp)
  have hrep : c ∉ replicate k space := fun hm => hsp (eq_of_mem_replicate hm)
  simp only [requestFront, mem_append, not_or]
  exact ⟨⟨hget, hrep⟩, hjoin, hw⟩

/-- memcached looks up the words of a line that is the front of the request. -/
theorem processGetCommand_front (h : ∀ v ∈ init ++ [w], IsKeyWord v) (h0 : (0 : UInt8) ∉ requestFront k init w) :
    ∃ failed, processGetCommand (requestFront k init w) = some (init ++ [w], failed) := by
  have hwords : words ((requestFront k init w).takeWhile (· != 0)) = getToken :: (init ++ [w]) := by
    have := words_request h k []
    rw [append_nil, wordsFrom, if_neg (h w (by simp)).ne_nil] at this
    rw [takeWhile_ne_zero h0]
    exact this
  have hlook : lookedUp (init ++ [w]) = init ++ [w] := by
    rw [lookedUp, takeWhile_eq_self_iff]
    intro v hv
    exact decide_eq_true (h v hv).length_le
  obtain ⟨key, keys, hkeys⟩ : ∃ key keys, init ++ [w] = key :: keys := exists_cons_of_ne_nil (by simp)
  rw [hkeys] at hwords hlook
  obtain ⟨failed, hget⟩ := processGetCommand_keys _ _ _ _ hwords (Or.inl rfl)
  rw [hlook] at hget
  exact ⟨failed, by rw [hget, hkeys]⟩

/-- Bytes behind the `'\r'` that stay in the line become part of the last word. -/
theorem processGetCommand_longer (h : ∀ v ∈ init ++ [w], IsKeyWord v) (h0 : (0 : UInt8) ∉ requestFront k init w)
    (rest : Bytes) {failed : Bool} :
    processGetCommand (requestFront k init w ++ cr :: rest) ≠ some (init ++ [w], failed) := by
  intro hget
  obtain ⟨verb, key, keys, hwords, -, hlook⟩ := processGetCommand_some hget
  have htake : (requestFront k init w ++ cr :: rest).takeWhile (· != 0) =
      requestFront k init w ++ cr :: rest.takeWhile (· != 0) := by
    rw [takeWhile_append_of_pos, takeWhile_cons, if_pos (by decide)]
    intro b hb
    simpa using fun heq : b = 0 => h0 (heq ▸ hb)
  rw [htake, words_request h k, wordsFrom, if_neg (by decide)] at hwords
  obtain ⟨w', ws, hw', hpre⟩ := wordsFrom_head (rest.takeWhile (· != 0)) (w ++ [cr]) (by simp)
  rw [hw', cons.injEq] at hwords
  rw [← hwords.2] at hlook
  -- the words in front are looked up, so the lists differ behind them
  have hinit : lookedUp (init ++ w' :: ws) = init ++ lookedUp (w' :: ws) := by
    rw [lookedUp, lookedUp, takeWhile_append_of_pos]
    intro v hv
    exact decide_eq_true (h v (by simp [hv])).length_le
  rw [hinit] at hlook
  have htail := append_cancel_left hlook
  have hlen := hpre.length_le
  rw [lookedUp, takeWhile_cons] at htail
  split at htail
  · have := (cons.inj htail).1
    rw [← this, length_append, length_singleton] at hlen
    omega
  · simp at htail

end

/-- **Parser agreement.**  For a datagram BMC answers, memcached would look up the same keys and execute nothing else
exactly if the datagram is a clean request.  Bytes may follow the datagram in the frame. -/
theorem parsers_agree_iff (loaded : XdpProg → Bool) (kcacheAt : ℕ → KCache) (s : XdpState)
    (htx : (runXdp loaded kcacheAt s).2 = .tx) (payload padding : Bytes)
    (hpayload : s.ctx.packet.drop (sizeofEthhdr + sizeofIphdr + sizeofUdphdr) = payload ++ padding) :
    ExecutesOnlyGet payload (requestWords (keyBytes s.ctx.packet)) ↔ CleanRequest payload := by
  obtain ⟨k, init, w, more, hws, hkey, htext⟩ := runXdp_tx_text loaded kcacheAt s htx
  rw [hws]
  have hdrop : requestFront k init w ++ cr :: more = (payload ++ padding).drop 8 := by
    rw [← htext, ← hpayload, drop_drop]
  have hcrFront : cr ∉ requestFront k init w :=
    requestFront_notMem (by decide) (by decide) fun v hv => (hkey v hv).cr_notMem
  constructor
  · intro hexec
    obtain ⟨text, command, rest, failed, hudp, hline, hget, hnone⟩ := hexec
    obtain ⟨hlen, hsingle, rfl⟩ := tryReadUdp_some hudp
    obtain ⟨hascii, hline⟩ := tryReadCommandUdp_line hline
    simp only [hascii] at hnone
    obtain ⟨el, hel, hlfEl, hcommand⟩ := tryReadCommandAscii_line hline
    have hsub : ∀ b ∈ command, b ∈ el := by
      intro b hb
      rcases hcommand with rfl | rfl
      · exact hb
      · simp [hb]
    -- the words memcached looks up have neither `'\n'` nor zero bytes
    obtain ⟨verb, key, keys, hwords, -, hlook⟩ := processGetCommand_some hget
    have hbytes : ∀ v ∈ init ++ [w], ∀ b ∈ v, b ≠ 0 ∧ b ≠ lf := by
      intro v hv b hb
      have hvk : v ∈ words (command.takeWhile (· != 0)) := by
        rw [hwords]
        have hv' : v ∈ lookedUp (key :: keys) := hlook ▸ hv
        exact mem_cons_of_mem verb ((List.takeWhile_prefix _).subset hv')
      have hmem := (mem_wordsFrom _ _ _ hvk b hb).resolve_left (by simp)
      exact ⟨by simpa using mem_takeWhile_imp hmem,
        fun heq => hlfEl (heq ▸ hsub b ((List.takeWhile_prefix _).subset hmem))⟩
    have h0 : (0 : UInt8) ∉ requestFront k init w :=
      requestFront_notMem (by decide) (by decide) fun v hv hm => (hbytes v hv 0 hm).1 rfl
    have hlf : lf ∉ requestFront k init w :=
      requestFront_notMem (by decide) (by decide) fun v hv hm => (hbytes v hv lf hm).2 rfl
    rw [drop_append_of_le_length (by omega), hel, append_assoc el, cons_append] at hdrop
    obtain ⟨c, rfl⟩ := cut_behind_front hdrop.symm hlf
    rcases hcommand with rfl | hcommand
    · exact absurd hget (processGetCommand_longer hkey h0 c)
    · rcases eq_nil_or_concat c with rfl | ⟨c', x, rfl⟩
      · refine ⟨hsingle, requestFront k init w, rest, by rw [hel]; simp, hcrFront, hlf, h0, fun hmem => ?_⟩
        obtain ⟨command', rest', hmore⟩ := tryReadCommandAscii_isLine hmem
        exact hnone command' rest' hmore
      · have hlonger : command = requestFront k init w ++ cr :: c' := by
          rw [concat_eq_append, show requestFront k init w ++ cr :: (c' ++ [x]) =
            (requestFront k init w ++ cr :: c') ++ [x] from by simp] at hcommand
          exact (append_inj_left' hcommand rfl).symm
        rw [hlonger] at hget
        exact absurd hget (processGetCommand_longer hkey h0 c')
  · intro hclean
    obtain ⟨front, rest, hfront, hcr, hlf, h0, hrest⟩ := hclean.line
    have hlen : 8 < payload.length := by
      have := congrArg length hfront
      simp at this
      omega
    rw [drop_append_of_le_length (by omega), hfront, append_assoc front] at hdrop
    obtain rfl : requestFront k init w = front := front_unique hcrFront hcr hdrop
    obtain ⟨failed, hget⟩ := processGetCommand_front hkey h0
    have hhead : ∀ l, tryReadCommandUdp ((payload.drop 8).getD 0 0) l = tryReadCommandAscii l := by
      intro l
      rw [hfront, requestFront, append_assoc, append_assoc]
      exact tryReadCommandUdp_get _ l
    refine ⟨payload.drop 8, requestFront k init w, rest, failed, ?_, ?_, hget, fun command' rest' => ?_⟩
    · rw [tryReadUdp, if_pos hlen, if_neg (by simp only [hclean.single]; simp)]
    · rw [hhead, hfront]
      exact tryReadCommandAscii_crlf rest (by simp [requestFront, getWord]) hlf
    · rw [hhead]
      exact tryReadCommandAscii_none hrest command' rest'

/-- `abcdefghijkl` -/
def sampleKey : Bytes := [97, 98, 99, 100, 101, 102, 103, 104, 105, 106, 107, 108]

def sampleCache : KCache := updateKCache KCache.zeroed (valueBlock sampleKey [48] [120] ++ endLine)

/-- The payload of a datagram that stands alone, with request id 7. -/
def samplePayload (text : Bytes) : Bytes := [0, 7, 0, 0, 0, 1, 0, 0] ++ text

def sampleFrame (text : Bytes) : XdpState :=
  XdpState.received sampleCache (udpHeaders.take 42 ++ samplePayload text)

/-- The request for the key alone. -/
theorem parsers_agree_sample :
    (runXdp (fun _ => true) (fun _ => sampleCache) (sampleFrame (getWord ++ sampleKey ++ crlf))).2 = .tx ∧
      ExecutesOnlyGet (samplePayload (getWord ++ sampleKey ++ crlf))
        (requestWords (keyBytes (sampleFrame (getWord ++ sampleKey ++ crlf)).ctx.packet)) := by
  have htx : (runXdp (fun _ => true) (fun _ => sampleCache) (sampleFrame (getWord ++ sampleKey ++ crlf))).2 = .tx := by
    decide +kernel
  refine ⟨htx, (parsers_agree_iff (fun _ => true) (fun _ => sampleCache) _ htx
    (samplePayload (getWord ++ sampleKey ++ crlf)) [] (by decide)).mpr ⟨by decide, getWord ++ sampleKey, [], ?_⟩⟩
  decide

/-- **A request with a second command.**  BMC answers the GET and the datagram is gone; memcached would have looked up
the same key and then read `flush_all`. -/
theorem parsers_disagree_second_command :
    (runXdp (fun _ => true) (fun _ => sampleCache)
        (sampleFrame (getWord ++ sampleKey ++ crlf ++ [102, 108, 117, 115, 104, 95, 97, 108, 108, 13, 10]))).2 = .tx ∧
      tryReadUdp (samplePayload (getWord ++ sampleKey ++ crlf ++ [102, 108, 117, 115, 104, 95, 97, 108, 108, 13, 10])) =
        some (getWord ++ sampleKey ++ crlf ++ [102, 108, 117, 115, 104, 95, 97, 108, 108, 13, 10]) ∧
      tryReadCommandUdp 103 (getWord ++ sampleKey ++ crlf ++ [102, 108, 117, 115, 104, 95, 97, 108, 108, 13, 10]) =
        .line (getWord ++ sampleKey) [102, 108, 117, 115, 104, 95, 97, 108, 108, 13, 10] ∧
      tryReadCommandUdp 103 [102, 108, 117, 115, 104, 95, 97, 108, 108, 13, 10] =
        .line [102, 108, 117, 115, 104, 95, 97, 108, 108] [] := by
  decide +kernel

end BmcCache
