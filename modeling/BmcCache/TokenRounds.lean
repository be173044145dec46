import BmcCache.ByteBuffer
import BmcCache.TextParser
import Mathlib.Data.List.Forall2
import Mathlib.Data.List.GetD

/-!
# Tokens in place, round after round

`tokenize_command` writes a zero byte behind every word it finds and stops when its table is full; the terminal
token then points at what is left of the string, and `process_get_command` calls it again from there.

* `TokenBuffer.tokenizeCommand`, `TokenBuffer.tokenizeRounds` — a call and the loop around it, on a buffer;
* `Delivered` — the tokens point at the words, each with a zero byte behind it;
* `tokenizeCommand_delivers`, `tokenizeCommand_refines` — one call, and that it finds what
  `BmcCache.tokenizeCommand` finds;
* `iterated_tokenizing` — the rounds deliver the words of the string, each once and in order.
-/

namespace BmcCache

namespace TokenBuffer

open ByteBuffer List

/-- `token_t`; a pointer is a position in the buffer. -/
structure Token where
  value : Option ℕ
  length : ℕ
  deriving DecidableEq, Repr

/-- The buffer and the variables of `tokenize_command`. -/
structure TokenState where
  mem : Bytes
  i : ℕ
  s : ℕ
  e : ℕ
  tokens : List Token

/-- The loop of `tokenize_command`, with the cells from `e` to the end of the buffer: a read behind it fails. The
counter `i` is an `unsigned int`, the length a `size_t`. -/
def tokenizeLoop (maxTokens len : ℕ) : ℕ → TokenState → Option TokenState
  | 0, _ => none
  | n + 1, st =>
    if len ≤ st.i then some st
    else if st.mem.getD st.e 0 = space then
      if st.s = st.e then
        tokenizeLoop maxTokens len n { st with s := st.e + 1, e := st.e + 1, i := (st.i + 1) % 2 ^ 32 }
      else
        let tokens := st.tokens ++ [⟨some st.s, st.e - st.s⟩]
        let mem := st.mem.set st.e 0
        if tokens.length = maxTokens - 1 then
          some { st with mem := mem, tokens := tokens, s := st.e + 1, e := st.e + 1 }
        else tokenizeLoop maxTokens len n ⟨mem, (st.i + 1) % 2 ^ 32, st.e + 1, st.e + 1, tokens⟩
    else tokenizeLoop maxTokens len n { st with e := st.e + 1, i := (st.i + 1) % 2 ^ 32 }

def strlen (mem : Bytes) (p : ℕ) : ℕ := ((mem.drop p).takeWhile (· != 0)).length

/-- `tokenize_command`: the tokens with the terminal one, and the buffer. -/
def tokenizeCommand (maxTokens : ℕ) (mem : Bytes) (command : ℕ) : Option (List Token × Bytes) := do
  let st ← tokenizeLoop maxTokens (strlen mem command) (mem.length - command) ⟨mem, 0, command, command, []⟩
  let tokens := if st.s = st.e then st.tokens else st.tokens ++ [⟨some st.s, st.e - st.s⟩]
  let c ← st.mem[st.e]?
  pure (tokens ++ [⟨if c = 0 then none else some st.e, 0⟩], st.mem)

/-- At most `n` calls, each from the terminal token of the one before until that is `NULL`: the tokens of every call. -/
def tokenizeRounds (maxTokens : ℕ) : ℕ → Bytes → ℕ → Option (List (List Token) × Bytes)
  | 0, _, _ => none
  | n + 1, mem, command => do
    let (tokens, mem) ← tokenizeCommand maxTokens mem command
    match tokens.getLast?.bind Token.value with
    | none => pure ([tokens], mem)
    | some more =>
      let (rounds, mem) ← tokenizeRounds maxTokens n mem more
      pure (tokens :: rounds, mem)

/-- The token points at the word, and a zero byte ends it there. -/
def Token.Names (mem : Bytes) (t : Token) (w : Bytes) : Prop :=
  ∃ v, t.value = some v ∧ t.length = w.length ∧ slice mem v w.length = w ∧ mem[v + w.length]? = some 0

/-- **The tokens are the words**, one by one. -/
def Delivered (mem : Bytes) (tokens : List Token) (ws : List Bytes) : Prop :=
  List.Forall₂ (Token.Names mem) tokens ws

/-! ### One call -/

section Call

variable {mem front cur rest tail w : Bytes} {tokens : List Token} {ws goal : List Bytes} {t : Token}

theorem Token.Names.append (h : t.Names mem w) (more : Bytes) : t.Names (mem ++ more) w := by
  obtain ⟨v, hv, hlen, hslice, hzero⟩ := h
  have hlt : v + w.length < mem.length := (List.getElem?_eq_some_iff.mp hzero).1
  refine ⟨v, hv, hlen, ?_, ?_⟩
  · rw [slice_append_left mem more v w.length (by omega), hslice]
  · rw [getElem?_append_left hlt, hzero]

theorem Delivered.append (h : Delivered mem tokens ws) (more : Bytes) : Delivered (mem ++ more) tokens ws :=
  h.imp fun _ _ hn => hn.append more

theorem Delivered.word (h : Delivered front tokens ws) (cur tail : Bytes) :
    Delivered (front ++ (cur ++ 0 :: tail)) (tokens ++ [⟨some front.length, cur.length⟩]) (ws ++ [cur]) := by
  refine rel_append (h.append _) (List.Forall₂.cons ⟨front.length, rfl, rfl, ?_, ?_⟩ .nil)
  · rw [slice, drop_left, take_left]
  · rw [getElem?_append_right (Nat.le_add_right _ _), Nat.add_sub_cancel_left, getElem?_append_right le_rfl,
      Nat.sub_self]
    rfl

/-- **Inside a call**: the words before `s` are delivered, `cur` has been read from `s` on, and `rest` is to come. -/
structure Scan (tail : Bytes) (goal : List Bytes) (st : TokenState) (front cur rest : Bytes)
    (ws : List Bytes) : Prop where
  mem_eq : st.mem = front ++ (cur ++ (rest ++ 0 :: tail))
  s_eq : st.s = front.length
  e_eq : st.e = front.length + cur.length
  delivered : Delivered front st.tokens ws
  words_eq : ws ++ wordsFrom cur rest = goal

variable {st : TokenState}

theorem Scan.getElem?_e (h : Scan tail goal st front cur rest ws) : st.mem[st.e]? = (rest ++ 0 :: tail)[0]? := by
  rw [h.mem_eq, h.e_eq, getElem?_append_right (Nat.le_add_right _ _), Nat.add_sub_cancel_left,
    getElem?_append_right le_rfl, Nat.sub_self]

theorem Scan.s_eq_e (h : Scan tail goal st front cur rest ws) : st.s = st.e ↔ cur = [] := by
  rw [h.s_eq, h.e_eq, ← length_eq_zero_iff]
  omega

/-- A space with no word before it. -/
theorem Scan.skip {b : UInt8} (h : Scan tail goal st front [] (b :: rest) ws) (hb : b = space) (i : ℕ) :
    Scan tail goal { st with s := st.e + 1, e := st.e + 1, i := i } (front ++ [b]) [] rest ws := by
  refine ⟨by simp [h.mem_eq], by simp [h.e_eq], by simp [h.e_eq], h.delivered.append _, ?_⟩
  rw [← h.words_eq, wordsFrom, if_pos hb, if_pos rfl]

/-- A space behind a word, which becomes its end. -/
theorem Scan.word {b : UInt8} (h : Scan tail goal st front cur (b :: rest) ws) (hb : b = space) (hcur : cur ≠ [])
    (i : ℕ) :
    Scan tail goal ⟨st.mem.set st.e 0, i, st.e + 1, st.e + 1, st.tokens ++ [⟨some st.s, st.e - st.s⟩]⟩
      (front ++ (cur ++ [0])) [] rest (ws ++ [cur]) := by
  have hsub : st.e - st.s = cur.length := by rw [h.e_eq, h.s_eq, Nat.add_sub_cancel_left]
  have hset : st.mem.set st.e 0 = front ++ (cur ++ 0 :: (rest ++ 0 :: tail)) := by
    rw [h.mem_eq, h.e_eq, set_append_right _ _ (Nat.le_add_right _ _), Nat.add_sub_cancel_left,
      set_append_right _ _ le_rfl, Nat.sub_self]
    rfl
  refine ⟨by simp [hset], by simp [h.e_eq, Nat.add_assoc], by simp [h.e_eq, Nat.add_assoc], ?_, ?_⟩
  · rw [hsub, h.s_eq]
    exact h.delivered.word cur []
  · rw [← h.words_eq, wordsFrom, if_pos hb, if_neg hcur, append_assoc]
    rfl

/-- A byte of a word. -/
theorem Scan.byte {b : UInt8} (h : Scan tail goal st front cur (b :: rest) ws) (hb : b ≠ space) (i : ℕ) :
    Scan tail goal { st with e := st.e + 1, i := i } front (cur ++ [b]) rest ws := by
  refine ⟨by simp [h.mem_eq], h.s_eq, by simp [h.e_eq, Nat.add_assoc], h.delivered, ?_⟩
  rw [← h.words_eq, wordsFrom, if_neg hb]

/-- **Behind the loop**: the string has been scanned, or the table is full and `left` is to come. -/
def Stops (maxTokens : ℕ) (tail : Bytes) (goal : List Bytes) (left : Option Bytes)
    (front rest : Bytes) (st : TokenState) : Prop :=
  ∃ front' cur' rest' ws', Scan tail goal st front' cur' rest' ws' ∧ front <+: front' ∧ rest' <:+ rest ∧
    left = (if rest' = [] then none else some rest') ∧ (rest' = [] ∧ st.tokens.length < maxTokens - 1 ∨
      cur' = [] ∧ st.tokens.length = maxTokens - 1 ∧ rest'.length < rest.length)

theorem Stops.before {maxTokens : ℕ} {left : Option Bytes} {front₁ : Bytes}
    (h : Stops maxTokens tail goal left front₁ rest st) (hfront : front <+: front₁) (b : UInt8) :
    Stops maxTokens tail goal left front (b :: rest) st := by
  obtain ⟨front', cur', rest', ws', hscan, hfront', hrest, hleft, hend⟩ := h
  exact ⟨front', cur', rest', ws', hscan, hfront.trans hfront', hrest.trans (suffix_cons b rest), hleft,
    hend.imp_right fun hfull => ⟨hfull.1, hfull.2.1, Nat.lt_succ_of_lt hfull.2.2⟩⟩

/-- **The loop.**  The induction is on what is left of the string; the loop on lists stops at the same place. -/
theorem tokenizeLoop_scan (maxTokens : ℕ) {len : ℕ} (hlen : len < 2 ^ 32) (rest : Bytes) :
    ∀ {n st front cur ws}, Scan tail goal st front cur rest ws → st.i + rest.length = len → rest.length < n →
      st.tokens.length < maxTokens - 1 →
    ∃ st', tokenizeLoop maxTokens len n st = some st' ∧
      Stops maxTokens tail goal (BmcCache.tokenizeLoop maxTokens st.tokens.length cur rest).2 front rest st' := by
  induction rest with
  | nil =>
    intro n st front cur ws h hi hn hfew
    obtain ⟨n, rfl⟩ := Nat.exists_eq_succ_of_ne_zero (Nat.ne_of_gt hn)
    have hend : len ≤ st.i := by simpa using hi.ge
    exact ⟨st, by rw [tokenizeLoop, if_pos hend], front, cur, [], ws, h, prefix_refl _, suffix_refl _,
      rfl, Or.inl ⟨rfl, hfew⟩⟩
  | cons b rest ih =>
    intro n st front cur ws h hi hn hfew
    obtain ⟨n, rfl⟩ := Nat.exists_eq_succ_of_ne_zero (Nat.ne_of_gt ((Nat.zero_le _).trans_lt hn))
    rw [length_cons] at hi hn
    have hn' : rest.length < n := by omega
    have hmore : ¬ len ≤ st.i := by omega
    have hnext : (st.i + 1) % 2 ^ 32 + rest.length = len := by rw [Nat.mod_eq_of_lt (by omega)]; omega
    have hread : st.mem.getD st.e 0 = b := by rw [getD_eq_getElem?_getD, h.getElem?_e]; rfl
    rw [tokenizeLoop, if_neg hmore, hread, BmcCache.tokenizeLoop]
    by_cases hb : b = space
    · rw [if_pos hb, if_pos hb]
      by_cases hcur : cur = []
      · rw [if_pos (h.s_eq_e.mpr hcur), if_pos hcur]
        subst hcur
        obtain ⟨st', hrun, hstops⟩ := ih (h.skip hb _) hnext hn' hfew
        exact ⟨st', hrun, hstops.before (prefix_append _ _) b⟩
      · rw [if_neg (mt h.s_eq_e.mp hcur), if_neg hcur]
        have hcount : ∀ t : Token, (st.tokens ++ [t]).length = st.tokens.length + 1 := fun _ => length_append
        dsimp only
        rw [hcount]
        split
        · rename_i hfull
          exact ⟨_, rfl, front ++ (cur ++ [0]), [], rest, ws ++ [cur], h.word hb hcur st.i, prefix_append _ _,
            suffix_cons b rest, rfl, Or.inr ⟨rfl, (hcount _).trans hfull, Nat.lt_succ_self _⟩⟩
        · rename_i hroom
          obtain ⟨st', hrun, hstops⟩ := ih (h.word hb hcur _) hnext hn' (by rw [hcount]; omega)
          rw [hcount] at hstops
          exact ⟨st', hrun, hstops.before (prefix_append _ _) b⟩
    · rw [if_neg hb, if_neg hb]
      obtain ⟨st', hrun, hstops⟩ := ih (h.byte hb _) hnext hn' hfew
      exact ⟨st', hrun, hstops.before (prefix_refl _) b⟩

theorem strlen_append (front tail : Bytes) (hzero : 0 ∉ rest) :
    strlen (front ++ (rest ++ 0 :: tail)) front.length = rest.length := by
  rw [strlen, drop_left, takeWhile_append_of_pos]
  · simp
  · intro b hb
    simpa using ne_of_mem_of_not_mem hb hzero

/-- **A call.**  Either the whole string has been scanned, or the table is full and the terminal token points at what is
left of it. -/
theorem tokenizeCommand_delivers {maxTokens : ℕ} (hmax : 1 < maxTokens) {command : Bytes} (hzero : 0 ∉ command)
    (hlen : command.length < 2 ^ 32) (front tail : Bytes) :
    ∃ tokens ws done more, tokenizeCommand maxTokens (front ++ (command ++ 0 :: tail)) front.length =
        some (tokens ++ [⟨if more = [] then none else some done.length, 0⟩], done ++ (more ++ 0 :: tail)) ∧
      (BmcCache.tokenizeLoop maxTokens 0 [] command).2 = (if more = [] then none else some more) ∧
      tokens.length < maxTokens ∧ front <+: done ∧ ws ++ words more = words command ∧
      Delivered (done ++ (more ++ 0 :: tail)) tokens ws ∧
      (more ≠ [] → Delivered done tokens ws ∧ tokens.length = maxTokens - 1 ∧ more <:+ command ∧
        more.length < command.length) := by
  have hstart : Scan tail (words command)
      ⟨front ++ (command ++ 0 :: tail), 0, front.length, front.length, []⟩ front [] command [] :=
    ⟨rfl, rfl, rfl, .nil, rfl⟩
  obtain ⟨st, hrun, done, cur, more, ws, hscan, hfront, hmore, hleft, hend⟩ :=
    tokenizeLoop_scan maxTokens hlen command (n := (front ++ (command ++ 0 :: tail)).length - front.length)
      hstart (Nat.zero_add _) (by simp) (by simpa using hmax)
  have hchar := hscan.getElem?_e
  have hmem := hscan.mem_eq
  unfold tokenizeCommand
  rw [strlen_append front tail hzero, hrun]
  rcases hend with ⟨rfl, hfew⟩ | ⟨rfl, hfull, hless⟩
  · -- the string ends, perhaps with a word
    have hterminal : st.mem[st.e]? = some 0 := hchar
    simp only [Option.bind_eq_bind, Option.bind_some, hterminal, if_true, Option.pure_def]
    by_cases hcur : cur = []
    · subst hcur
      refine ⟨st.tokens, ws, done, [], ?_, hleft, by omega, hfront, ?_, hscan.delivered.append _, fun hne =>
        absurd rfl hne⟩
      · rw [if_pos (hscan.s_eq_e.mpr rfl), if_pos rfl, hmem]
        rfl
      · rw [← hscan.words_eq]
        rfl
    · refine ⟨st.tokens ++ [⟨some done.length, cur.length⟩], ws ++ [cur], done ++ cur, [], ?_, hleft, ?_,
        hfront.trans (prefix_append _ _), ?_, ?_, fun hne => absurd rfl hne⟩
      · rw [if_neg (mt hscan.s_eq_e.mp hcur), if_pos rfl, hmem, hscan.s_eq, hscan.e_eq, Nat.add_sub_cancel_left]
        simp
      · rw [length_append, length_singleton]
        omega
      · rw [← hscan.words_eq, wordsFrom, if_neg hcur]
        exact append_nil _
      · rw [append_assoc]
        exact hscan.delivered.word cur tail
  · -- the table is full
    rw [nil_append] at hmem
    have hse := hscan.s_eq_e.mpr rfl
    cases more with
    | nil =>
      have hterminal : st.mem[st.e]? = some 0 := hchar
      refine ⟨st.tokens, ws, done, [], ?_, hleft, by omega, hfront, hscan.words_eq, hscan.delivered.append _,
        fun hne => absurd rfl hne⟩
      simp only [Option.bind_eq_bind, Option.bind_some, hterminal, if_true, Option.pure_def, if_pos hse]
      rw [hmem]
    | cons b more =>
      have hterminal : st.mem[st.e]? = some b := hchar
      have hb : b ≠ 0 := ne_of_mem_of_not_mem (hmore.subset mem_cons_self) hzero
      refine ⟨st.tokens, ws, done, b :: more, ?_, hleft, by omega, hfront, hscan.words_eq, hscan.delivered.append _,
        fun _ => ⟨hscan.delivered, hfull, hmore, hless⟩⟩
      have he : st.e = done.length := by rw [← hse, hscan.s_eq]
      simp only [Option.bind_eq_bind, Option.bind_some, hterminal, if_neg hb, Option.pure_def, if_pos hse]
      rw [hmem, he, if_neg (cons_ne_nil b more)]

/-- **A call finds what `BmcCache.tokenizeCommand` finds**, and its terminal token points at what that leaves. -/
theorem tokenizeCommand_refines {command : Bytes} (hzero : 0 ∉ command) (hlen : command.length < 2 ^ 32)
    (front tail : Bytes) :
    ∃ tokens mem terminal, tokenizeCommand maxTokens (front ++ (command ++ 0 :: tail)) front.length =
      some (tokens ++ [terminal], mem) ∧ Delivered mem tokens (BmcCache.tokenizeCommand command).1 ∧
      terminal.length = 0 ∧ terminal.value.map mem.drop =
        (BmcCache.tokenizeCommand command).2.map (· ++ 0 :: tail) := by
  obtain ⟨tokens, ws, done, more, hcall, hleft, hcount, -, hwords, hdelivered, hfull⟩ :=
    tokenizeCommand_delivers (by decide : 1 < maxTokens) hzero hlen front tail
  refine ⟨tokens, _, _, hcall, ?_, rfl, ?_⟩
  rotate_left
  · rw [BmcCache.tokenizeCommand, takeWhile_ne_zero hzero, hleft]
    split
    · rfl
    · exact congrArg some drop_left
  have hlength := hdelivered.length_eq
  have hfirst : ws = (words command).take (maxTokens - 1) := by
    rw [← hwords]
    by_cases hmore : more = []
    · rw [hmore, show words [] = [] from rfl, append_nil, take_of_length_le]
      omega
    · rw [← (hfull hmore).2.1, hlength, take_left]
  rwa [BmcCache.tokenizeCommand_take, takeWhile_ne_zero hzero, ← hfirst]

theorem tokenizeCommand_refines_get : ∃ tokens mem terminal,
    tokenizeCommand maxTokens ([13, 10] ++ ([103, 101, 116, 32, 32, 97] ++ 0 :: [])) 2 =
      some (tokens ++ [terminal], mem) ∧
      Delivered mem tokens (BmcCache.tokenizeCommand [103, 101, 116, 32, 32, 97]).1 ∧ terminal.length = 0 ∧
      terminal.value.map mem.drop = (BmcCache.tokenizeCommand [103, 101, 116, 32, 32, 97]).2.map (· ++ 0 :: []) :=
  tokenizeCommand_refines (by decide) (by decide) [13, 10] []

end Call

/-! ### The rounds -/

theorem wordsFrom_eq_splitOn (l : Bytes) : ∀ cur, wordsFrom cur l =
    ((l.splitOn space).modifyHead (cur ++ ·)).filter (· ≠ []) := by
  induction l with
  | nil =>
    intro cur
    by_cases hcur : cur = [] <;> simp [wordsFrom, hcur]
  | cons b l ih =>
    intro cur
    have hwhole : wordsFrom [] l = (l.splitOn space).filter (· ≠ []) := by
      rw [ih []]
      cases l.splitOn space <;> rfl
    rw [wordsFrom, splitOn, splitOnP_cons_eq_if_modifyHead]
    by_cases hb : b = space
    · rw [if_pos hb, if_pos (beq_iff_eq.mpr hb), hwhole, modifyHead_cons, append_nil, filter_cons]
      by_cases hcur : cur = []
      · rw [if_pos hcur, if_neg (by simp [hcur])]
        rfl
      · rw [if_neg hcur, if_pos (by simp [hcur])]
        rfl
    · rw [if_neg hb, if_neg (mt beq_iff_eq.mp hb), ih, modifyHead_modifyHead]
      refine congrArg _ (congrArg (fun f => modifyHead f _) (funext fun w => ?_))
      exact append_assoc cur [b] w

theorem words_eq_splitOn (l : Bytes) : words l = (l.splitOn space).filter (· ≠ []) := by
  rw [words, wordsFrom_eq_splitOn]
  cases l.splitOn space <;> rfl

/-- **The rounds.**  The induction is on the number of calls. -/
theorem tokenizeRounds_delivers {maxTokens : ℕ} (hmax : 1 < maxTokens) (tail : Bytes) (n : ℕ) :
    ∀ (front command : Bytes), 0 ∉ command → command.length < 2 ^ 32 → command.length < n →
    ∃ rounds back, tokenizeRounds maxTokens n (front ++ (command ++ 0 :: tail)) front.length =
        some (rounds, front ++ back) ∧ (∀ tokens ∈ rounds, tokens.length ≤ maxTokens) ∧
      Delivered (front ++ back) (rounds.flatMap dropLast) (words command) := by
  induction n with
  | zero => exact fun _ _ _ _ hn => absurd hn (Nat.not_lt_zero _)
  | succ n ih =>
    intro front command hzero hlen hn
    obtain ⟨tokens, ws, done, more, hcall, -, hcount, ⟨gap, rfl⟩, hwords, hdelivered, hfull⟩ :=
      tokenizeCommand_delivers hmax hzero hlen front tail
    rw [tokenizeRounds, hcall]
    simp only [Option.bind_eq_bind, Option.bind_some, getLast?_append, getLast?_singleton, Option.some_or]
    by_cases hmore : more = []
    · subst hmore
      refine ⟨[tokens ++ [⟨none, 0⟩]], gap ++ 0 :: tail, ?_, ?_, ?_⟩
      · simp
      · rw [forall_mem_singleton, length_append]
        exact hcount
      · rw [← hwords, show words [] = [] from rfl, append_nil]
        simpa using hdelivered
    · obtain ⟨hdone, -, hsuffix, hless⟩ := hfull hmore
      obtain ⟨rounds, back, hrounds, hcounts, hrest⟩ :=
        ih (front ++ gap) more (fun hin => hzero (hsuffix.subset hin)) (hless.trans hlen) (by omega)
      refine ⟨(tokens ++ [⟨some (front ++ gap).length, 0⟩]) :: rounds, gap ++ back, ?_, ?_, ?_⟩
      · simp only [if_neg hmore, hrounds, Option.bind_some, Option.pure_def]
        rw [append_assoc]
      · refine forall_mem_cons.mpr ⟨?_, hcounts⟩
        rw [length_append, length_singleton]
        exact hcount
      · rw [← hwords, flatMap_cons, dropLast_concat, ← append_assoc]
        exact rel_append (hdone.append back) hrest

end TokenBuffer

open TokenBuffer List

/-- **Iterated tokenizing.** -/
theorem iterated_tokenizing {maxTokens : ℕ} (hmax : 1 < maxTokens) (front command tail : Bytes)
    (hzero : 0 ∉ command)
    (hlen : command.length < 2 ^ 32) :
    ∃ rounds mem, tokenizeRounds maxTokens (command.length + 1) (front ++ (command ++ 0 :: tail)) front.length =
        some (rounds, mem) ∧ (∀ tokens ∈ rounds, tokens.length ≤ maxTokens) ∧
      Delivered mem (rounds.flatMap dropLast) ((command.splitOn space).filter (· ≠ [])) := by
  obtain ⟨rounds, back, hrounds, hcounts, hdelivered⟩ :=
    tokenizeRounds_delivers hmax tail (command.length + 1) front command hzero hlen (Nat.lt_succ_self _)
  exact ⟨rounds, front ++ back, hrounds, hcounts, words_eq_splitOn command ▸ hdelivered⟩

/-- `"get  a b "` with a table of three: two rounds. -/
theorem iterated_tokenizing_get :
    tokenizeRounds 3 11 ([103, 101, 116, 32, 32, 97, 32, 98, 32] ++ 0 :: []) 0 =
        some ([[⟨some 0, 3⟩, ⟨some 5, 1⟩, ⟨some 7, 0⟩], [⟨some 7, 1⟩, ⟨none, 0⟩]],
          [103, 101, 116, 0, 32, 97, 0, 98, 0, 0]) ∧
      ∃ rounds mem, tokenizeRounds 3 10 ([] ++ ([103, 101, 116, 32, 32, 97, 32, 98, 32] ++ 0 :: [])) 0 =
        some (rounds, mem) ∧
        (∀ tokens ∈ rounds, tokens.length ≤ 3) ∧
        Delivered mem (rounds.flatMap dropLast)
          (([103, 101, 116, 32, 32, 97, 32, 98, 32].splitOn space).filter (· ≠ [])) :=
  ⟨by decide +kernel, iterated_tokenizing (by decide) [] _ [] (by decide) (by decide)⟩

/-- Without a space in it a string of 2^32 bytes is never left: `i` starts again from 0. -/
theorem tokenizeLoop_wraps {maxTokens len : ℕ} (hlen : 2 ^ 32 ≤ len) (n : ℕ) :
    ∀ st : TokenState, st.i < 2 ^ 32 → (∀ k, st.mem.getD k 0 ≠ space) →
      TokenBuffer.tokenizeLoop maxTokens len n st = none := by
  induction n with
  | zero => exact fun _ _ _ => rfl
  | succ n ih =>
    intro st hi hmem
    rw [TokenBuffer.tokenizeLoop, if_neg (by omega), if_neg (hmem st.e)]
    exact ih _ (Nat.mod_lt _ (by decide)) hmem

theorem getD_ne_space {l : Bytes} (h : ∀ b ∈ l, b ≠ space) (k : ℕ) : l.getD k 0 ≠ space := by
  by_cases hk : k < l.length
  · rw [getD_eq_getElem l 0 hk]
    exact h _ (getElem_mem hk)
  · rw [getD_eq_default l 0 (Nat.not_lt.mp hk)]
    decide

/-- **A word of 2^32 bytes** is read beyond the end of the buffer. -/
theorem iterated_tokenizing_long :
    ¬ ∃ n r, tokenizeRounds maxTokens n ([] ++ (replicate (2 ^ 32) 97 ++ 0 :: [])) 0 = some r := by
  rintro ⟨n, r, h⟩
  have hzero : 0 ∉ replicate (2 ^ 32) (97 : UInt8) := fun hmem => absurd (eq_of_mem_replicate hmem) (by decide)
  have hcall : TokenBuffer.tokenizeCommand maxTokens ([] ++ (replicate (2 ^ 32) 97 ++ 0 :: [])) 0 = none := by
    have hlen := strlen_append [] [] hzero
    rw [length_nil, length_replicate] at hlen
    rw [TokenBuffer.tokenizeCommand, hlen, tokenizeLoop_wraps le_rfl _ _ (by decide)]
    · rfl
    · refine getD_ne_space fun b hb => ?_
      change b ∈ replicate (2 ^ 32) 97 ++ [0] at hb
      rcases mem_append.mp hb with hmem | hmem
      · rw [eq_of_mem_replicate hmem]
        decide
      · rw [mem_singleton.mp hmem]
        decide
  cases n with
  | zero => cases h
  | succ n =>
    rw [tokenizeRounds, hcall] at h
    cases h

end BmcCache
