import BmcCache.NumberParsing
import BmcCache.Trace

/-!
# Credentials in the text protocol

Before a client is authenticated its input goes to `try_read_command_asciiauth`: a line `set foo 0 0 N`, and then
`N` bytes `user pass` with `"\r\n"` behind them. The two parts may come in any pieces, and the function is called
again when there is more.

* `AuthConn` — the connection, with a record of the memory the function touches and of the credentials it decides on;
* `authLine`, `authCredentials` — the two parts of the function;
* `AuthConn.Good` — only buffered bytes are touched, `rbytes` counts them, the credentials have the announced
  length, and nobody is authenticated without a pair that `authfile_check` accepts;
* `LineFine` — `size + 2` is the announced length and 2, as an `int`;
* `auth_framing_iff` — the lines in a set are all fine if and only if no run that meets only such lines goes wrong.
-/

namespace BmcCache

open List

/-! ### The function -/

/-- The bytes from `lo` to `hi` behind `rcurr`, when `rbytes` bytes are buffered there. -/
structure AuthAccess where
  lo : ℤ
  hi : ℤ
  rbytes : ℤ
  deriving DecidableEq, Repr

/-- A decision on credentials: the line, the bytes that were consumed as credentials, and the answer. -/
structure AuthAnswer where
  line : Bytes
  credentials : Bytes
  text : String
  deriving DecidableEq, Repr

/-- The connection: `buf` are the bytes from `rcurr` on. The line that has been read, the accesses and the answers
are a record. `lost` says that the function has gone on with memory outside of the buffered bytes. -/
structure AuthConn where
  buf : Bytes
  rbytes : ℤ
  rlbytes : ℤ
  saslStarted : Bool
  authenticated : Bool
  closing : Bool
  lost : Bool
  line : Bytes
  accesses : List AuthAccess
  answers : List AuthAnswer
  refused : List Bytes
  deriving DecidableEq, Repr

def AuthConn.start : AuthConn := ⟨[], 0, 0, false, false, false, false, [], [], [], []⟩

def lengthToken (line : Bytes) : Bytes := (tokenizeCommand line).1.getD 4 []

/-- `ntokens < 6 || strcmp(tokens[0].value, "set") != 0 || !safe_strtoul(tokens[4].value, &size)`: `size` otherwise. -/
def announcedSize (line : Bytes) : Option ℕ :=
  if ntokens (tokenizeCommand line).1 < 6 ∨ (tokenizeCommand line).1.getD 0 [] ≠ token ['s', 'e', 't'] then none
  else safeStrtoul (lengthToken line)

namespace AuthConn

def touch (lo hi : ℤ) (c : AuthConn) : AuthConn := { c with accesses := ⟨lo, hi, c.rbytes⟩ :: c.accesses }

/-- The line is taken off the buffer; its newline is overwritten, and the tokenizer stops there. -/
def cutLine (el : Bytes) (c : AuthConn) : AuthConn :=
  let c := c.touch 0 (el.length + 1)
  { c with buf := c.buf.drop (el.length + 1), rbytes := c.rbytes - (el.length + 1) }

/-- The part of `try_read_command_asciiauth` for the line: the connection, and whether the function goes on. -/
def authLine (c : AuthConn) : AuthConn × Bool :=
  if c.saslStarted then (c, true)
  else if c.rbytes < 2 then (c, false)
  else
    let c := c.touch 0 c.rbytes
    if lf ∉ c.buf then ({ c with closing := decide (1024 < c.rbytes) }, false)
    else
      let el := c.buf.takeWhile (· != lf)
      match announcedSize el with
      | none => ({ c.cutLine el with refused := el :: c.refused }, false)
      | some size => ({ c.cutLine el with rlbytes := toInt32 (size + 2), saslStarted := true, line := el }, true)

/-- The answer to credentials, `"CLIENT_ERROR unauthenticated"` being that to a bad line. -/
def authAnswer (check : Bytes → Bytes → Bool) (cont : Bytes) : String :=
  let tokens := (tokenizeCommand (cont.take (cont.length - 2))).1
  if cont.drop (cont.length - 2) ≠ [cr, lf] then "CLIENT_ERROR bad command line termination"
  else if ntokens tokens < 3 then "CLIENT_ERROR bad authentication token format"
  else if check (tokens.getD 0 []) (tokens.getD 1 []) then "STORED"
  else "CLIENT_ERROR authentication failure"

def answerCredentials (check : Bytes → Bytes → Bool) (c : AuthConn) : AuthConn :=
  let cont := c.buf.take c.rlbytes.toNat
  { c with
    buf := c.buf.drop c.rlbytes.toNat
    rbytes := c.rbytes - c.rlbytes
    saslStarted := false
    answers := ⟨c.line, cont, authAnswer check cont⟩ :: c.answers
    authenticated := decide (authAnswer check cont = "STORED") }

/-- The part of `try_read_command_asciiauth` for the credentials: the last two bytes are compared with `"\r\n"`, the
first of them is overwritten, and the tokenizer stops there. -/
def authCredentials (check : Bytes → Bytes → Bool) (c : AuthConn) : AuthConn :=
  if c.rbytes < c.rlbytes then c
  else if c.rlbytes < 2 then
    { c.touch (c.rlbytes - 2) c.rlbytes with rbytes := c.rbytes - c.rlbytes, lost := true }
  else ((c.touch (c.rlbytes - 2) c.rlbytes).touch 0 (c.rlbytes - 1)).answerCredentials check

/-- `try_read_command_asciiauth`; another function takes over behind a success. -/
def tryReadCommandAsciiauth (check : Bytes → Bytes → Bool) (c : AuthConn) : AuthConn :=
  match c.authLine with
  | (c, false) => c
  | (c, true) => c.authCredentials check

end AuthConn

inductive AuthEvent where
  | receive (piece : Bytes)
  | call

def authStep (check : Bytes → Bytes → Bool) (c : AuthConn) : AuthEvent → AuthConn
  | .receive piece => { c with buf := c.buf ++ piece, rbytes := c.rbytes + piece.length }
  | .call => if c.authenticated ∨ c.closing ∨ c.lost then c else c.tryReadCommandAsciiauth check

def authRun (check : Bytes → Bytes → Bool) (events : List AuthEvent) : AuthConn :=
  Trace.run (authStep check) .start events

/-! ### What is expected -/

def Announces (line : Bytes) (n : ℕ) : Prop := Denotes (lengthToken line) n

def AcceptedPair (check : Bytes → Bytes → Bool) (credentials : Bytes) : Prop :=
  ∃ body user pass rest, credentials = body ++ [cr, lf] ∧ (tokenizeCommand body).1 = user :: pass :: rest ∧
    check user pass = true

/-- **A connection on which everything is as it should be.** -/
structure AuthConn.Good (check : Bytes → Bytes → Bool) (c : AuthConn) : Prop where
  inside : ∀ a ∈ c.accesses, 0 ≤ a.lo ∧ a.hi ≤ a.rbytes
  rbytes_nonneg : 0 ≤ c.rbytes
  announced : ∀ a ∈ c.answers, ∀ n, Announces a.line n → a.credentials.length = n + 2
  authenticated : c.authenticated = true → ∃ a ∈ c.answers, AcceptedPair check a.credentials

/-- **A line whose length is handled**: `size` is what the line announces, and `size + 2` is an `int`. -/
def LineFine (line : Bytes) : Prop :=
  ∀ size, announcedSize line = some size → size + 2 < 2 ^ 31 ∧ ∀ n, Announces line n → n = size

/-- The lines that have been taken for the beginning of a request. -/
def AuthConn.lines (c : AuthConn) : List Bytes :=
  c.answers.map AuthAnswer.line ++ (if c.saslStarted then [c.line] else [])

/-! ### Runs that meet only fine lines -/

section Steps

variable {check : Bytes → Bytes → Bool} {c : AuthConn}

structure AuthConn.Inv (check : Bytes → Bytes → Bool) (c : AuthConn) : Prop where
  inside : ∀ a ∈ c.accesses, 0 ≤ a.lo ∧ a.hi ≤ a.rbytes
  rbytes_eq : c.rbytes = c.buf.length
  announced : ∀ a ∈ c.answers, ∀ n, Announces a.line n → a.credentials.length = n + 2
  authenticated : c.authenticated = true → ∃ a ∈ c.answers, AcceptedPair check a.credentials
  started : c.saslStarted = true → ∃ size, announcedSize c.line = some size ∧ c.rlbytes = size + 2

theorem AuthConn.Inv.good (h : c.Inv check) : c.Good check :=
  ⟨h.inside, by rw [h.rbytes_eq]; exact Int.natCast_nonneg _, h.announced, h.authenticated⟩

theorem AuthConn.Inv.touch (h : c.Inv check) {lo hi : ℤ} (hlo : 0 ≤ lo) (hhi : hi ≤ c.rbytes) :
    (c.touch lo hi).Inv check where
  inside := by
    intro a ha
    rcases mem_cons.mp ha with rfl | ha
    · exact ⟨hlo, hhi⟩
    · exact h.inside a ha
  rbytes_eq := h.rbytes_eq
  announced := h.announced
  authenticated := h.authenticated
  started := h.started

theorem toInt32_of_lt {size : ℕ} (h : size + 2 < 2 ^ 31) : toInt32 (size + 2) = size + 2 := by
  unfold toInt32
  split <;> omega

theorem line_length_le {buf : Bytes} (h : lf ∈ buf) : (buf.takeWhile (· != lf)).length + 1 ≤ buf.length := by
  induction buf with
  | nil => cases h
  | cons b buf ih =>
    by_cases hb : b = lf
    · subst hb
      rw [takeWhile_cons_of_neg (by simp)]
      simp
    · rw [takeWhile_cons_of_pos (by simpa using hb)]
      have htail : lf ∈ buf := (mem_cons.mp h).resolve_left (fun heq => hb heq.symm)
      have := ih htail
      simp only [length_cons]
      omega

/-- **Everything the part for the line can do.** -/
inductive AuthConn.LineCase (c : AuthConn) : AuthConn × Bool → Prop
  | started (hstarted : c.saslStarted = true) : LineCase c (c, true)
  | short (hstarted : c.saslStarted = false) : LineCase c (c, false)
  | noLine (hstarted : c.saslStarted = false) (closing : Bool) :
      LineCase c ({ c.touch 0 c.rbytes with closing := closing }, false)
  | refused (hstarted : c.saslStarted = false) (hline : lf ∈ c.buf) (refused : List Bytes) :
      LineCase c ({ (c.touch 0 c.rbytes).cutLine (c.buf.takeWhile (· != lf)) with refused := refused }, false)
  | accepted (hstarted : c.saslStarted = false) (hline : lf ∈ c.buf) (size : ℕ)
      (hsize : announcedSize (c.buf.takeWhile (· != lf)) = some size) :
      LineCase c ({ (c.touch 0 c.rbytes).cutLine (c.buf.takeWhile (· != lf)) with
        rlbytes := toInt32 (size + 2), saslStarted := true, line := c.buf.takeWhile (· != lf) }, true)

theorem AuthConn.authLine_cases (c : AuthConn) : c.LineCase c.authLine := by
  unfold AuthConn.authLine
  split
  · rename_i hstarted
    exact .started hstarted
  rename_i hstarted
  rw [Bool.not_eq_true] at hstarted
  split
  · exact .short hstarted
  dsimp only
  split
  · exact .noLine hstarted _
  rename_i hline
  have hmem : lf ∈ c.buf := not_not.mp hline
  have hbuf : (c.touch 0 c.rbytes).buf = c.buf := rfl
  rw [hbuf]
  cases hsize : announcedSize (c.buf.takeWhile (· != lf)) with
  | none => exact .refused hstarted hmem _
  | some size => exact .accepted hstarted hmem size hsize

theorem AuthConn.authLine_started (c : AuthConn) (hgo : c.authLine.2 = true) : c.authLine.1.saslStarted = true := by
  have hcases := c.authLine_cases
  generalize c.authLine = r at hcases hgo
  cases hcases with
  | started hstarted => exact hstarted
  | accepted hstarted hline size hsize => rfl
  | short | noLine | refused => cases hgo

theorem AuthConn.Inv.cutLine (h : c.Inv check) (hstarted : c.saslStarted = false) (hline : lf ∈ c.buf) :
    (c.cutLine (c.buf.takeWhile (· != lf))).Inv check := by
  have hle := line_length_le hline
  have htouch := h.touch (le_refl 0) (show ((c.buf.takeWhile (· != lf)).length : ℤ) + 1 ≤ c.rbytes by
    rw [h.rbytes_eq]
    exact_mod_cast hle)
  refine ⟨htouch.inside, ?_, h.announced, h.authenticated, ?_⟩
  · show c.rbytes - _ = ((c.buf.drop _).length : ℤ)
    rw [h.rbytes_eq, length_drop]
    omega
  · intro hs
    have hs' : c.saslStarted = true := hs
    rw [hstarted] at hs'
    cases hs'

/-- **The line.** -/
theorem AuthConn.Inv.authLine (h : c.Inv check) (hfine : c.authLine.2 = true → LineFine c.authLine.1.line) :
    c.authLine.1.Inv check := by
  have hall := h.touch (le_refl 0) (le_refl c.rbytes)
  have hcases := c.authLine_cases
  generalize c.authLine = r at hcases hfine
  cases hcases with
  | started hstarted => exact h
  | short hstarted => exact h
  | noLine hstarted closing =>
    exact ⟨hall.inside, hall.rbytes_eq, hall.announced, hall.authenticated, hall.started⟩
  | refused hstarted hline refused =>
    have hcut := hall.cutLine hstarted hline
    exact ⟨hcut.inside, hcut.rbytes_eq, hcut.announced, hcut.authenticated, hcut.started⟩
  | accepted hstarted hline size hsize =>
    have hcut := hall.cutLine hstarted hline
    have hfine' : LineFine (c.buf.takeWhile (· != lf)) := hfine rfl
    have hrl := toInt32_of_lt (hfine' size hsize).1
    refine ⟨hcut.inside, hcut.rbytes_eq, hcut.announced, hcut.authenticated, fun _ => ⟨size, hsize, ?_⟩⟩
    dsimp only
    exact hrl

theorem acceptedPair_of_stored {cont : Bytes} (h : AuthConn.authAnswer check cont = "STORED") :
    AcceptedPair check cont := by
  unfold AuthConn.authAnswer at h
  dsimp only at h
  by_cases hend : cont.drop (cont.length - 2) ≠ [cr, lf]
  · rw [if_pos hend] at h
    exact absurd h (by decide)
  rw [if_neg hend] at h
  by_cases hfew : ntokens (tokenizeCommand (cont.take (cont.length - 2))).1 < 3
  · rw [if_pos hfew] at h
    exact absurd h (by decide)
  rw [if_neg hfew] at h
  by_cases hcheck : check ((tokenizeCommand (cont.take (cont.length - 2))).1.getD 0 [])
      ((tokenizeCommand (cont.take (cont.length - 2))).1.getD 1 []) = true
  · generalize htokens : (tokenizeCommand (cont.take (cont.length - 2))).1 = tokens at hfew hcheck
    unfold ntokens at hfew
    rcases tokens with _ | ⟨user, _ | ⟨pass, rest⟩⟩
    · simp at hfew
    · simp at hfew
    · refine ⟨cont.take (cont.length - 2), user, pass, rest, ?_, htokens, hcheck⟩
      rw [← not_not.mp hend, take_append_drop]
  · rw [if_neg hcheck] at h
    exact absurd h (by decide)

theorem AuthConn.Inv.answerCredentials (h : c.Inv check) {size : ℕ} (hrl : c.rlbytes = size + 2)
    (hlen : size + 2 ≤ c.buf.length) (hfine : ∀ n, Announces c.line n → n = size) :
    (c.answerCredentials check).Inv check := by
  have hnat : c.rlbytes.toNat = size + 2 := by omega
  refine ⟨h.inside, ?_, ?_, ?_, (by intro hs; cases hs)⟩
  · show c.rbytes - c.rlbytes = ((c.buf.drop c.rlbytes.toNat).length : ℤ)
    rw [length_drop, hnat, h.rbytes_eq, hrl]
    omega
  · intro a ha n hn
    rcases mem_cons.mp ha with rfl | ha
    · show (c.buf.take c.rlbytes.toNat).length = n + 2
      rw [hnat, length_take, hfine n hn]
      omega
    · exact h.announced a ha n hn
  · intro hauth
    exact ⟨_, mem_cons_self, acceptedPair_of_stored (of_decide_eq_true hauth)⟩

/-- **The credentials.** -/
theorem AuthConn.Inv.authCredentials (h : c.Inv check) (hstarted : c.saslStarted = true) (hfine : LineFine c.line) :
    (c.authCredentials check).Inv check := by
  obtain ⟨size, hsize, hrl⟩ := h.started hstarted
  have hrbytes := h.rbytes_eq
  unfold AuthConn.authCredentials
  by_cases hwait : c.rbytes < c.rlbytes
  · rw [if_pos hwait]
    exact h
  rw [if_neg hwait, if_neg (show ¬ c.rlbytes < 2 by omega)]
  have hfirst := h.touch (show 0 ≤ c.rlbytes - 2 by omega) (show c.rlbytes ≤ c.rbytes by omega)
  have hboth := hfirst.touch (le_refl 0) (show c.rlbytes - 1 ≤ c.rbytes by omega)
  exact hboth.answerCredentials hrl (show size + 2 ≤ c.buf.length by omega) (hfine size hsize).2

/-- The part for the credentials meets no new line, and forgets none. -/
theorem AuthConn.mem_lines_authCredentials (hstarted : c.saslStarted = true) (l : Bytes) :
    l ∈ (c.authCredentials check).lines ↔ l ∈ c.lines := by
  have hlines : c.lines = c.answers.map AuthAnswer.line ++ [c.line] := by
    rw [AuthConn.lines, if_pos hstarted]
  unfold AuthConn.authCredentials
  split
  · rfl
  split
  · rfl
  · have hanswered : (((c.touch (c.rlbytes - 2) c.rlbytes).touch 0 (c.rlbytes - 1)).answerCredentials check).lines =
        c.line :: c.answers.map AuthAnswer.line := append_nil _
    rw [hanswered, hlines, mem_cons, mem_append, mem_singleton]
    exact or_comm

theorem AuthConn.line_mem_lines (hstarted : c.saslStarted = true) : c.line ∈ c.lines := by
  rw [AuthConn.lines, if_pos hstarted]
  exact mem_append_right _ mem_cons_self

theorem lines_mono_authLine {l : Bytes} (h : l ∈ c.lines) : l ∈ c.authLine.1.lines := by
  have hcases := c.authLine_cases
  generalize c.authLine = r at hcases
  cases hcases with
  | started hstarted => exact h
  | short hstarted => exact h
  | noLine hstarted closing => exact h
  | refused hstarted hline refused => exact h
  | accepted hstarted hline size hsize =>
    rw [AuthConn.lines, hstarted, if_neg Bool.false_ne_true, append_nil] at h
    exact mem_append_left _ h

theorem lines_mono (e : AuthEvent) {l : Bytes} (h : l ∈ c.lines) : l ∈ (authStep check c e).lines := by
  cases e with
  | receive piece => exact h
  | call =>
    unfold authStep
    dsimp only
    split
    · exact h
    · unfold AuthConn.tryReadCommandAsciiauth
      have hline := lines_mono_authLine h
      have hstart := c.authLine_started
      generalize c.authLine = r at hline hstart
      obtain ⟨c', go⟩ := r
      cases go with
      | false => exact hline
      | true => exact (AuthConn.mem_lines_authCredentials (hstart rfl) l).mpr hline

theorem lines_authLine {l : Bytes} (h : l ∈ c.authLine.1.lines) : l ∈ c.lines ∨ lf ∉ l := by
  have hcases := c.authLine_cases
  generalize c.authLine = r at hcases h
  cases hcases with
  | started hstarted => exact .inl h
  | short hstarted => exact .inl h
  | noLine hstarted closing => exact .inl h
  | refused hstarted hline refused => exact .inl h
  | accepted hstarted hline size hsize =>
    rcases mem_append.mp h with hans | hnew
    · exact .inl (mem_append_left _ hans)
    · right
      rw [mem_singleton.mp hnew]
      intro hmem
      have := mem_takeWhile_imp hmem
      simp at this

theorem lines_step (e : AuthEvent) {l : Bytes} (h : l ∈ (authStep check c e).lines) :
    l ∈ c.lines ∨ lf ∉ l := by
  cases e with
  | receive piece => exact .inl h
  | call =>
    unfold authStep at h
    dsimp only at h
    split at h
    · exact .inl h
    · unfold AuthConn.tryReadCommandAsciiauth at h
      have hline := fun hl => lines_authLine (c := c) (l := l) hl
      have hstart := c.authLine_started
      generalize c.authLine = r at h hline hstart
      obtain ⟨c', go⟩ := r
      cases go with
      | false => exact hline h
      | true => exact hline ((AuthConn.mem_lines_authCredentials (hstart rfl) l).mp h)

/-- **One event.** -/
theorem AuthConn.Inv.step (h : c.Inv check) (e : AuthEvent) (hfine : ∀ l ∈ (authStep check c e).lines, LineFine l) :
    (authStep check c e).Inv check := by
  cases e with
  | receive piece =>
    refine ⟨h.inside, ?_, h.announced, h.authenticated, h.started⟩
    show c.rbytes + (piece.length : ℤ) = ((c.buf ++ piece).length : ℤ)
    rw [h.rbytes_eq, length_append]
    omega
  | call =>
    unfold authStep at hfine ⊢
    dsimp only at hfine ⊢
    by_cases hended : c.authenticated ∨ c.closing ∨ c.lost
    · rw [if_pos hended]
      exact h
    rw [if_neg hended] at hfine ⊢
    unfold AuthConn.tryReadCommandAsciiauth at hfine ⊢
    have hstart := c.authLine_started
    have hinv := h.authLine
    generalize c.authLine = r at hstart hinv hfine
    obtain ⟨c', go⟩ := r
    cases go with
    | false => exact hinv ((by intro hgo; cases hgo))
    | true =>
      have hline : LineFine c'.line := hfine _ ((AuthConn.mem_lines_authCredentials (hstart rfl) _).mpr
        (AuthConn.line_mem_lines (hstart rfl)))
      exact (hinv (fun _ => hline)).authCredentials (hstart rfl) hline

theorem authRun_snoc (events : List AuthEvent) (e : AuthEvent) :
    authRun check (events ++ [e]) = authStep check (authRun check events) e := by
  unfold authRun Trace.run
  rw [foldl_append, foldl_cons, foldl_nil]

theorem authRun_lines (events : List AuthEvent) : ∀ l ∈ (authRun check events).lines, lf ∉ l := by
  induction events using reverseRecOn with
  | nil => exact fun l hl => (nomatch hl)
  | append_singleton events e ih =>
    intro l hl
    rw [authRun_snoc] at hl
    rcases lines_step e hl with hold | hnew
    · exact ih l hold
    · exact hnew

/-- **Every run that meets only fine lines keeps the invariant.** -/
theorem authRun_inv (events : List AuthEvent) (hfine : ∀ l ∈ (authRun check events).lines, LineFine l) :
    (authRun check events).Inv check := by
  induction events using reverseRecOn with
  | nil => exact ⟨fun a ha => (nomatch ha), rfl, fun a ha => (nomatch ha), (by intro ha; cases ha),
      (by intro hs; cases hs)⟩
  | append_singleton events e ih =>
    rw [authRun_snoc] at hfine ⊢
    exact (ih (fun l hl => hfine l (lines_mono e hl))).step e hfine

end Steps

/-! ### A line that is not fine -/

section Bad

variable (check : Bytes → Bytes → Bool) {l : Bytes} {size : ℕ}

def lineAndMore (l more : Bytes) : List AuthEvent := [.receive (l ++ lf :: more), .call]

theorem takeWhile_line (hl : lf ∉ l) (more : Bytes) : (l ++ lf :: more).takeWhile (· != lf) = l := by
  have hfront : ∀ b ∈ l, (b != lf) = true := by
    intro b hb
    rw [bne_iff_ne]
    intro heq
    exact hl (heq ▸ hb)
  rw [takeWhile_append_of_pos hfront, takeWhile_cons_of_neg (by simp), append_nil]

theorem authLine_takes (hl : lf ∉ l) (hsize : announcedSize l = some size) {c : AuthConn} {more : Bytes}
    (hstarted : c.saslStarted = false) (hrbytes : ¬ c.rbytes < 2) (hbuf : c.buf = l ++ lf :: more) :
    c.authLine = ({ (c.touch 0 c.rbytes).cutLine l with
      rlbytes := toInt32 (size + 2), saslStarted := true, line := l }, true) := by
  have hmem : ¬ lf ∉ (c.touch 0 c.rbytes).buf := by
    rw [not_not]
    show lf ∈ c.buf
    rw [hbuf]
    exact mem_append_right _ mem_cons_self
  have hcut : (c.touch 0 c.rbytes).buf.takeWhile (· != lf) = l := by
    show c.buf.takeWhile (· != lf) = l
    rw [hbuf]
    exact takeWhile_line hl more
  unfold AuthConn.authLine
  rw [hstarted, if_neg Bool.false_ne_true, if_neg hrbytes]
  dsimp only
  rw [if_neg hmem, hcut, hsize]

/-- The line is taken, and the function goes on with the credentials. -/
theorem authRun_lineAndMore (hl : lf ∉ l) (hsize : announcedSize l = some size) {more : Bytes}
    (hmore : more ≠ []) :
    ∃ c : AuthConn, authRun check (lineAndMore l more) = c.authCredentials check ∧ c.buf = more ∧
      c.rbytes = more.length ∧ c.rlbytes = toInt32 (size + 2) ∧ c.saslStarted = true ∧ c.line = l ∧
        c.answers = [] := by
  have hlen : 0 < more.length := length_pos_of_ne_nil hmore
  obtain ⟨c, hc⟩ : ∃ c, c = authRun check [.receive (l ++ lf :: more)] := ⟨_, rfl⟩
  have hbuf : c.buf = l ++ lf :: more := by
    rw [hc]
    rfl
  have hrbytes : c.rbytes = l.length + (more.length + 1) := by
    rw [hc]
    show (0 : ℤ) + ((l ++ lf :: more).length : ℤ) = _
    rw [length_append, length_cons]
    omega
  have hended : ¬ (c.authenticated ∨ c.closing ∨ c.lost) := by
    rw [hc]
    exact not_or.mpr ⟨Bool.false_ne_true, not_or.mpr ⟨Bool.false_ne_true, Bool.false_ne_true⟩⟩
  have hstarted : c.saslStarted = false := by
    rw [hc]
    rfl
  have hanswers : c.answers = [] := by
    rw [hc]
    rfl
  have hrun : authRun check (lineAndMore l more) = authStep check c .call := by
    rw [hc]
    rfl
  have hstep : authStep check c .call = c.tryReadCommandAsciiauth check := if_neg hended
  refine ⟨{ (c.touch 0 c.rbytes).cutLine l with rlbytes := toInt32 (size + 2), saslStarted := true, line := l },
    ?_, ?_, ?_, by dsimp only, rfl, rfl, hanswers⟩
  · rw [hrun, hstep, AuthConn.tryReadCommandAsciiauth,
      authLine_takes hl hsize hstarted (by omega) hbuf]
  · show c.buf.drop (l.length + 1) = more
    rw [hbuf, drop_append]
    simp
  · show c.rbytes - (l.length + 1) = more.length
    omega

/-- A size that is not a positive `int` is no offset: memory in front of the credentials is read. -/
theorem not_good_of_negative {c : AuthConn} (hrl : c.rlbytes < 2) (hready : c.rlbytes ≤ c.rbytes) :
    ¬ (c.authCredentials check).Good check := by
  intro hgood
  have hcred : c.authCredentials check =
      { c.touch (c.rlbytes - 2) c.rlbytes with rbytes := c.rbytes - c.rlbytes, lost := true } := by
    rw [AuthConn.authCredentials, if_neg (not_lt.mpr hready), if_pos hrl]
  rw [hcred] at hgood
  have hfirst := (hgood.inside _ mem_cons_self).1
  dsimp only at hfirst
  omega

theorem not_good_of_wrong {c : AuthConn} {n : ℕ} (hrl : c.rlbytes = size + 2) (hbuf : c.buf.length = size + 2)
    (hrbytes : c.rbytes = size + 2) (hn : Announces c.line n) (hne : n ≠ size) :
    ¬ (c.authCredentials check).Good check := by
  intro hgood
  have hcred : c.authCredentials check =
      ((c.touch (c.rlbytes - 2) c.rlbytes).touch 0 (c.rlbytes - 1)).answerCredentials check := by
    rw [AuthConn.authCredentials, if_neg (by omega), if_neg (by omega)]
  rw [hcred] at hgood
  have hlen : (c.buf.take c.rlbytes.toNat).length = n + 2 := hgood.announced _ mem_cons_self n hn
  rw [length_take] at hlen
  omega

theorem announcedSize_lt (hsize : announcedSize l = some size) : size < 2 ^ 32 := by
  unfold announcedSize at hsize
  split at hsize
  · cases hsize
  · unfold safeStrtoul at hsize
    obtain ⟨n, -, rfl⟩ := Option.map_eq_some_iff.mp hsize
    exact Nat.mod_lt _ (by decide)

theorem toInt32_of_ge (hge : 2 ^ 31 ≤ size + 2) (hlt : size < 2 ^ 32) : toInt32 (size + 2) < 2 := by
  unfold toInt32
  split <;> omega

/-- **A line that is not fine does harm** with suitable bytes behind it. -/
theorem exists_not_good (hl : lf ∉ l) (hbad : ¬ LineFine l) :
    ∃ events, (∀ l' ∈ (authRun check events).lines, l' = l) ∧ ¬ (authRun check events).Good check := by
  unfold LineFine at hbad
  push Not at hbad
  obtain ⟨size, hsize, hrest⟩ := hbad
  have hlines : ∀ more : Bytes, more ≠ [] → ∀ l' ∈ (authRun check (lineAndMore l more)).lines,
    l' = l := by
    intro more hmore l' hl'
    obtain ⟨c, hrun, -, -, -, hstarted, hline, hanswers⟩ := authRun_lineAndMore check hl hsize hmore
    rw [hrun, AuthConn.mem_lines_authCredentials hstarted, AuthConn.lines, if_pos hstarted, hanswers, hline] at hl'
    exact mem_singleton.mp hl'
  by_cases hint : size + 2 < 2 ^ 31
  · obtain ⟨n, hn, hne⟩ := hrest hint
    have hmore : replicate (size + 2) (0 : UInt8) ≠ [] := cons_ne_nil _ _
    obtain ⟨c, hrun, hbuf, hrbytes, hrl, -, hline, -⟩ := authRun_lineAndMore check hl hsize hmore
    refine ⟨_, hlines _ hmore, ?_⟩
    rw [toInt32_of_lt hint] at hrl
    rw [length_replicate] at hrbytes
    rw [hrun]
    exact not_good_of_wrong check hrl (by rw [hbuf, length_replicate]) (by rw [hrbytes]; push_cast; rfl)
      (hline ▸ hn) hne
  · have hmore : [(0 : UInt8)] ≠ [] := cons_ne_nil _ _
    obtain ⟨c, hrun, -, hrbytes, hrl, -, -, -⟩ := authRun_lineAndMore check hl hsize hmore
    refine ⟨_, hlines _ hmore, ?_⟩
    have hsmall := toInt32_of_ge (not_lt.mp hint) (announcedSize_lt hsize)
    rw [hrun]
    refine not_good_of_negative check (hrl ▸ hsmall) ?_
    rw [hrbytes, hrl, length_singleton]
    omega

end Bad

/-- **When the framing of credentials holds.** Whatever pieces a client sends: as long as every line that begins a
request is in `F`, only buffered bytes are touched, `rbytes` is not negative, the credentials have the announced
length, and only an accepted pair authenticates, if and only if the lines in `F` are fine. -/
theorem auth_framing_iff (check : Bytes → Bytes → Bool) (F : Bytes → Prop) :
    (∀ events, (∀ l ∈ (authRun check events).lines, F l) → (authRun check events).Good check) ↔
      ∀ l, lf ∉ l → F l → LineFine l := by
  constructor
  · intro h l hl hF
    by_contra hbad
    obtain ⟨events, hlines, hnot⟩ := exists_not_good check hl hbad
    exact hnot (h events (fun l' hl' => (hlines l' hl').symm ▸ hF))
  · intro h events hF
    exact (authRun_inv events (fun l hl => h l (authRun_lines events l hl) (hF l hl))).good

/-- The line `set a 0 0 4294967294`. -/
def wrappingLine : Bytes := token "set a 0 0 4294967294".toList

/-- **That line makes the function read in front of the buffered bytes**: `rlbytes` becomes 0, and `cont + rlbytes -
2` is two bytes in front of the credentials. -/
theorem auth_framing_wraps :
    (⟨-2, 0, 1⟩ : AuthAccess) ∈ (authRun (fun _ _ => false) (lineAndMore wrappingLine [0])).accesses ∧
      ¬ (authRun (fun _ _ => false) (lineAndMore wrappingLine [0])).Good (fun _ _ => false) := by
  have haccess : (⟨-2, 0, 1⟩ : AuthAccess) ∈
      (authRun (fun _ _ => false) (lineAndMore wrappingLine [0])).accesses := by
    decide +kernel
  refine ⟨haccess, fun hgood => ?_⟩
  exact absurd (hgood.inside _ haccess).1 (by decide)

end BmcCache
