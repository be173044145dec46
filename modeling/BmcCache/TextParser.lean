import BmcCache.Common
import Mathlib.Data.List.TakeWhile

/-!
# How memcached reads a text command

`try_read_udp` takes a datagram apart, `try_read_command_ascii` cuts a line off the input, `tokenize_command` cuts at
most seven words off the line and `process_get_command` comes back for the words that are left.

* `tryReadUdp`, `tryReadCommandAscii`, `tryReadCommandUdp`, `tokenizeCommand`, `processGetCommand` — the functions
  of `memcached.c`;
* `words` — the words of a text, without the limit of the token array;
* `tokenizeCommand_words` — a call and the words it leaves are the words of the text;
* `processGetCommand_keys` — the keys a GET looks up: all its words up to one that is too long.
-/

namespace BmcCache

open List

@[simp] abbrev maxTokens : ℕ := 8
@[simp] abbrev keyMaxLength : ℕ := 250

/-! ### Datagrams and lines -/

/-- `try_read_udp`: the text of a datagram that is not part of a larger request. -/
def tryReadUdp (buf : Bytes) : Option Bytes :=
  if 8 < buf.length then
    if buf.getD 4 0 ≠ 0 ∨ buf.getD 5 0 ≠ 1 then none else some (buf.drop 8)
  else none

/-- What a look at the input comes to: a request of the binary protocol, a line with what follows it, not enough
input, or input no client should send. -/
inductive ReadCommand where
  | binary
  | line (command rest : Bytes)
  | incomplete
  | close
  deriving DecidableEq, Repr

/-- `"gets "` -/
def getsWord : Bytes := [103, 101, 116, 115, 32]

/-- `try_read_command_ascii` on the `rbytes` bytes from `rcurr` on. -/
def tryReadCommandAscii (rcurr : Bytes) : ReadCommand :=
  if lf ∈ rcurr then
    let el := rcurr.takeWhile (· != lf)
    let command := if 1 < el.length ∧ el.getLast? = some cr then el.dropLast else el
    .line command (rcurr.drop (el.length + 1))
  else if 1024 < rcurr.length then
    -- without a line end this has to be a large multiget
    let ptr := rcurr.dropWhile (· == space)
    if 100 < rcurr.length - ptr.length ∨ ptr.take 4 ≠ getWord ∧ ptr.take 5 ≠ getsWord then .close
      else .incomplete
  else .incomplete

/-- `try_read_command_udp` with the first byte of the buffer. -/
def tryReadCommandUdp (rbuf0 : UInt8) (rcurr : Bytes) : ReadCommand :=
  if rbuf0 = 0x80 then .binary else tryReadCommandAscii rcurr

/-! ### Words -/

/-- The loop of `tokenize_command` with `ntokens` tokens behind it and the bytes `cur` from `s` to `e`; the tokens
found from there on, and the first unprocessed character if there is one. -/
def tokenizeLoop (maxTokens : ℕ) : ℕ → Bytes → Bytes → List Bytes × Option Bytes
  | _, cur, [] => (if cur = [] then [] else [cur], none)
  | ntokens, cur, b :: rest =>
    if b = space then
      if cur = [] then tokenizeLoop maxTokens ntokens [] rest
      else if ntokens + 1 = maxTokens - 1 then ([cur], if rest = [] then none else some rest)
      else
        let r := tokenizeLoop maxTokens (ntokens + 1) [] rest
        (cur :: r.1, r.2)
    else tokenizeLoop maxTokens ntokens (cur ++ [b]) rest

/-- `tokenize_command`: the string ends at its first zero byte. -/
def tokenizeCommand (command : Bytes) : List Bytes × Option Bytes :=
  tokenizeLoop maxTokens 0 [] (command.takeWhile (· != 0))

/-- The keys `process_get_command` looks up among the tokens: it stops at one that is too long. -/
def lookedUp (ws : List Bytes) : List Bytes := ws.takeWhile fun k => decide (k.length ≤ keyMaxLength)

/-- The loop of `process_get_command` over the tokens of one call of `tokenize_command` and the string behind them:
the keys it looks up, and whether a key was too long.  The string gets shorter with every call. -/
def processGetLoop : ℕ → List Bytes → Option Bytes → List Bytes × Bool
  | fuel + 1, tokens, some more =>
    if (lookedUp tokens).length < tokens.length then (lookedUp tokens, true)
    else
      let r := processGetLoop fuel (tokenizeCommand more).1 (tokenizeCommand more).2
      (lookedUp tokens ++ r.1, r.2)
  | _, tokens, _ => (lookedUp tokens, decide ((lookedUp tokens).length < tokens.length))

/-- `"get"` and `"bget"` -/
def getToken : Bytes := [103, 101, 116]

def bgetToken : Bytes := [98, 103, 101, 116]

/-- `process_command` on a line that is a GET: what `process_get_command` looks up. -/
def processGetCommand (command : Bytes) : Option (List Bytes × Bool) :=
  match tokenizeCommand command with
  | (verb :: key :: keys, more) =>
    if verb = getToken ∨ verb = bgetToken then some (processGetLoop command.length (key :: keys) more) else none
  | _ => none

/-! ### The words of a text -/

/-- The words of a text behind the word `cur` that has begun. -/
def wordsFrom : Bytes → Bytes → List Bytes
  | cur, [] => if cur = [] then [] else [cur]
  | cur, b :: rest =>
    if b = space then if cur = [] then wordsFrom [] rest else cur :: wordsFrom [] rest
    else wordsFrom (cur ++ [b]) rest

def words (l : Bytes) : List Bytes := wordsFrom [] l

theorem wordsFrom_append (w : Bytes) : ∀ cur rest, space ∉ w →
    wordsFrom cur (w ++ rest) = wordsFrom (cur ++ w) rest := by
  induction w with
  | nil => intro cur rest _; simp
  | cons b w ih =>
    intro cur rest h
    have hb : b ≠ space := fun heq => h (by simp [heq])
    rw [cons_append, wordsFrom, if_neg hb, ih _ _ (fun hm => h (by simp [hm]))]
    simp

theorem wordsFrom_space {cur : Bytes} (h : cur ≠ []) (rest : Bytes) :
    wordsFrom cur (space :: rest) = cur :: words rest := by
  rw [wordsFrom, if_pos rfl, if_neg h, words]

theorem words_spaces (n : ℕ) (rest : Bytes) : words (replicate n space ++ rest) = words rest := by
  induction n with
  | zero => rfl
  | succ n ih => rw [replicate_succ, cons_append, words, wordsFrom, if_pos rfl, if_pos rfl]; exact ih

theorem wordsFrom_head (l : Bytes) : ∀ cur, cur ≠ [] → ∃ w ws, wordsFrom cur l = w :: ws ∧
    cur <+: w := by
  induction l with
  | nil => intro cur h; exact ⟨cur, [], by rw [wordsFrom, if_neg h], prefix_refl cur⟩
  | cons b l ih =>
    intro cur h
    by_cases hb : b = space
    · exact ⟨cur, words l, by rw [hb, wordsFrom_space h], prefix_refl cur⟩
    · obtain ⟨w, ws, heq, hpre⟩ := ih (cur ++ [b]) (by simp)
      exact ⟨w, ws, by rw [wordsFrom, if_neg hb, heq], (prefix_append cur [b]).trans hpre⟩

theorem mem_wordsFrom (l : Bytes) : ∀ cur w, w ∈ wordsFrom cur l → ∀ b ∈ w, b ∈ cur ∨ b ∈ l := by
  induction l with
  | nil =>
    intro cur w hw b hb
    rw [wordsFrom] at hw
    split at hw
    · simp at hw
    · rw [mem_singleton.mp hw] at hb
      exact Or.inl hb
  | cons c l ih =>
    intro cur w hw b hb
    rw [wordsFrom] at hw
    split at hw
    · split at hw
      · exact Or.inr (by simpa using Or.inr ((ih [] w hw b hb).resolve_left (by simp)))
      · rcases mem_cons.mp hw with rfl | hw
        · exact Or.inl hb
        · exact Or.inr (by simpa using Or.inr ((ih [] w hw b hb).resolve_left (by simp)))
    · rcases ih _ w hw b hb with h | h
      · rcases mem_append.mp h with h | h
        · exact Or.inl h
        · exact Or.inr (by simp [mem_singleton.mp h])
      · exact Or.inr (by simp [h])

/-! ### The tokenizer finds the words -/

def wordsLeft : Option Bytes → List Bytes
  | none => []
  | some more => words more

theorem tokenizeLoop_words (l : Bytes) : ∀ ntokens cur,
    (tokenizeLoop maxTokens ntokens cur l).1 ++ wordsLeft (tokenizeLoop maxTokens ntokens cur l).2 =
    wordsFrom cur l := by
  induction l with
  | nil =>
    intro ntokens cur
    simp [tokenizeLoop, wordsFrom, wordsLeft]
  | cons b l ih =>
    intro ntokens cur
    rw [tokenizeLoop, wordsFrom]
    split
    · split
      · exact ih ntokens []
      · split
        · split
          · rename_i hnil
            simp [hnil, wordsLeft, wordsFrom]
          · rfl
        · rw [cons_append, ih]
    · exact ih ntokens _

theorem tokenizeLoop_left (l : Bytes) : ∀ ntokens cur more,
    (tokenizeLoop maxTokens ntokens cur l).2 = some more → more.length < l.length ∧ ∀ b ∈ more, b ∈ l := by
  induction l with
  | nil => intro ntokens cur more h; simp [tokenizeLoop] at h
  | cons b l ih =>
    intro ntokens cur more h
    have hsub : more.length < l.length ∧ (∀ b ∈ more, b ∈ l) →
        more.length < (b :: l).length ∧ ∀ c ∈ more, c ∈ b :: l := fun hm =>
      ⟨hm.1.trans (by simp), fun c hc => mem_cons_of_mem b (hm.2 c hc)⟩
    rw [tokenizeLoop] at h
    split at h
    · split at h
      · exact hsub (ih _ _ _ h)
      · split at h
        · split at h
          · simp at h
          · simp only [Option.some.injEq] at h
            rw [← h]
            exact ⟨by simp, fun c hc => mem_cons_of_mem b hc⟩
        · exact hsub (ih _ _ _ h)
    · exact hsub (ih _ _ _ h)

theorem takeWhile_ne_zero {l : Bytes} (h : (0 : UInt8) ∉ l) : l.takeWhile (· != 0) = l := by
  rw [takeWhile_eq_self_iff]
  intro b hb
  simpa using fun heq : b = 0 => h (heq ▸ hb)

/-- **The tokenizer.**  Its tokens and the words it leaves are the words of the string. -/
theorem tokenizeCommand_words (command : Bytes) :
    (tokenizeCommand command).1 ++ wordsLeft (tokenizeCommand command).2 = words (command.takeWhile (· != 0)) :=
  tokenizeLoop_words _ 0 []

theorem tokenizeCommand_left (command more : Bytes) (h : (tokenizeCommand command).2 = some more) :
    more.length < command.length ∧ (0 : UInt8) ∉ more := by
  obtain ⟨hlen, hmem⟩ := tokenizeLoop_left _ _ _ _ h
  refine ⟨hlen.trans_le (List.takeWhile_prefix _).length_le, fun h0 => ?_⟩
  have := mem_takeWhile_imp (hmem 0 h0)
  simp at this

theorem tokenizeLoop_take (l : Bytes) : ∀ ntokens cur, ntokens < maxTokens - 1 →
    (tokenizeLoop maxTokens ntokens cur l).1 = (wordsFrom cur l).take (maxTokens - 1 - ntokens) := by
  induction l with
  | nil =>
    intro ntokens cur hlt
    rw [tokenizeLoop, wordsFrom, take_of_length_le]
    split
    · simp
    · rw [length_singleton]
      omega
  | cons b l ih =>
    intro ntokens cur hlt
    rw [tokenizeLoop, wordsFrom]
    split
    · split
      · exact ih ntokens [] hlt
      · obtain ⟨k, hk⟩ : ∃ k, maxTokens - 1 - ntokens = k + 1 := ⟨maxTokens - 1 - ntokens - 1, by omega⟩
        rw [hk, take_succ_cons]
        split
        · obtain rfl : k = 0 := by omega
          rfl
        · dsimp only
          rw [ih (ntokens + 1) [] (by omega), show maxTokens - 1 - (ntokens + 1) = k by omega]
    · exact ih ntokens _ hlt

/-- **The tokens** are the first seven words. -/
theorem tokenizeCommand_take (command : Bytes) :
    (tokenizeCommand command).1 = (words (command.takeWhile (· != 0))).take (maxTokens - 1) :=
  tokenizeLoop_take _ 0 [] (by decide)

/-! ### The keys of a GET -/

/-- The loop over several calls of the tokenizer reads the words one after the other. -/
theorem processGetLoop_keys (fuel : ℕ) : ∀ (tokens : List Bytes) (more : Option Bytes),
    (∀ m, more = some m → m.length ≤ fuel ∧ (0 : UInt8) ∉ m) →
    (processGetLoop fuel tokens more).1 = lookedUp (tokens ++ wordsLeft more) := by
  induction fuel with
  | zero =>
    intro tokens more hmore
    have hleft : wordsLeft more = [] := by
      cases more with
      | none => rfl
      | some m =>
        rw [length_eq_zero_iff.mp (Nat.le_zero.mp (hmore m rfl).1)]
        rfl
    rw [hleft, append_nil]
    rfl
  | succ fuel ih =>
    intro tokens more hmore
    cases more with
    | none =>
      rw [wordsLeft, append_nil]
      rfl
    | some m =>
      obtain ⟨hlen, h0⟩ := hmore m rfl
      have hfront : lookedUp tokens <+: tokens := List.takeWhile_prefix _
      have hle := hfront.length_le
      have happend : lookedUp (tokens ++ words m) =
          if (lookedUp tokens).length = tokens.length then tokens ++ lookedUp (words m) else lookedUp tokens :=
        takeWhile_append
      rw [processGetLoop, wordsLeft, happend]
      split
      · rename_i hlt
        rw [if_neg (by omega)]
      · rename_i hge
        have hall : lookedUp tokens = tokens := hfront.eq_of_length (by omega)
        have hrest := ih (tokenizeCommand m).1 (tokenizeCommand m).2 (by
          intro m' hm'
          obtain ⟨hlt, h0'⟩ := tokenizeCommand_left m m' hm'
          exact ⟨by omega, h0'⟩)
        rw [tokenizeCommand_words, takeWhile_ne_zero h0] at hrest
        rw [if_pos (by omega)]
        simp only [hall, hrest]

/-- **The keys of a GET**: the words behind the first one. -/
theorem processGetCommand_keys (command verb key : Bytes) (keys : List Bytes)
    (hwords : words (command.takeWhile (· != 0)) = verb :: key :: keys)
    (hverb : verb = getToken ∨ verb = bgetToken) :
    ∃ failed, processGetCommand command = some (lookedUp (key :: keys), failed) := by
  have htokens := tokenizeCommand_words command
  rw [hwords] at htokens
  obtain ⟨v, k, ks, hts⟩ : ∃ v k ks, (tokenizeCommand command).1 = v :: k :: ks :=
    ⟨verb, key, keys.take 5, by rw [tokenizeCommand_take, hwords]; rfl⟩
  rw [hts, cons_append, cons_append] at htokens
  obtain ⟨rfl, rfl, hks⟩ : v = verb ∧ k = key ∧ ks ++ wordsLeft (tokenizeCommand command).2 = keys := by
    simpa using htokens
  have hloop := processGetLoop_keys command.length (k :: ks) (tokenizeCommand command).2 (by
    intro m hm
    obtain ⟨hlt, h0⟩ := tokenizeCommand_left command m hm
    exact ⟨hlt.le, h0⟩)
  rw [cons_append, hks] at hloop
  refine ⟨(processGetLoop command.length (k :: ks) (tokenizeCommand command).2).2, ?_⟩
  rw [processGetCommand, show tokenizeCommand command = (v :: k :: ks, (tokenizeCommand command).2)
    from by rw [← hts]]
  simp only [hverb, if_true, ← hloop]

theorem processGetCommand_some {command : Bytes} {r : List Bytes × Bool}
    (h : processGetCommand command = some r) :
    ∃ verb key keys, words (command.takeWhile (· != 0)) = verb :: key :: keys ∧
      (verb = getToken ∨ verb = bgetToken) ∧
      r.1 = lookedUp (key :: keys) := by
  have htokens := tokenizeCommand_words command
  rw [processGetCommand] at h
  split at h
  · rename_i verb key keys more hts
    split at h
    · rename_i hverb
      rw [hts, cons_append, cons_append] at htokens
      obtain ⟨failed, hkeys⟩ := processGetCommand_keys command verb key _ htokens.symm hverb
      rw [processGetCommand, hts] at hkeys
      simp only [hverb, if_true, Option.some.injEq] at h hkeys
      exact ⟨verb, key, _, htokens.symm, hverb, by rw [← h, hkeys]⟩
    · simp at h
  · simp at h

end BmcCache
