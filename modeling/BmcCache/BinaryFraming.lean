import BmcCache.ConnReads

/-!
# The body of a binary request

A request of the binary protocol is a header of 24 bytes and a body of `bodylen` bytes.  Each command decides for
itself which part of the body it reads, and each error path which part is swallowed; the next header is looked for
behind what was read or swallowed.

`Framed` says when that is behind the body.  It fails for `stat`, `touch`, `gat` and `gatk`, which never look at the
bytes behind the key; where the number of bytes to swallow is negative as an `int`; and where `write_and_go` is set to
`conn_swallow` although `write_bin_error` was given nothing to swallow, so that an old `sbytes` counts.

* `Behind` — input that begins behind the body;
* `binReadKey_endsIff` — extras and key are read, and then the substate decides;
* `readBinValue_endsIff`, `processBinSaslAuth_endsIff` — the commands with a value;
* `dispatchBinCmd_endsIff` — every command;
* `header_arrives` — the header is put together from the stream;
* `request_framed_iff` — the request ends behind its body exactly when `Framed` holds.
-/

namespace BmcCache

open StepUntil List

/-! ### Where a request ends -/

/-- Input that goes on behind the first `n` bytes of `body`. -/
def Behind (body : Bytes) (n : ℕ) (input : Bytes) : Prop := n ≤ body.length ∧ input = body.drop n

theorem behind_drop_iff {body : Bytes} {k n : ℕ} (hk : k ≤ body.length) :
    Behind body n (body.drop k) ↔ k = n := by
  constructor
  · intro ⟨hn, heq⟩
    have hlen := congrArg length heq
    rw [length_drop, length_drop] at hlen
    omega
  · intro h
    exact ⟨h ▸ hk, by rw [h]⟩

theorem toInt32_eq {m : ℤ} (hl : -2 ^ 31 ≤ m) (hu : m < 2 ^ 31) : toInt32 m = m := by
  rw [toInt32]
  split <;> omega

theorem toInt32_natCast_of_ge {m : ℕ} (h : 2 ^ 31 ≤ m) (hm : m < 2 ^ 32) : toInt32 m = m - 2 ^ 32 := by
  rw [toInt32, if_neg] <;> omega

/-- A value of `m` bytes for which an item is asked for is counted right. -/
theorem toInt32_value {m : ℕ} (hm : m < 2 ^ 32) (h : ¬ toInt32 (toInt32 m + 2) < 2) : toInt32 m = m := by
  rcases Nat.lt_or_ge m (2 ^ 31) with hlt | hge
  · exact toInt32_eq (by omega) (by omega)
  · rw [toInt32_natCast_of_ge hge hm, toInt32_eq (by omega) (by omega)] at h
    omega

/-! ### When a request ends behind its body -/

/-- Extras and key, `k` bytes, cannot be read. -/
def KeyLost (w : World) (log : List ConnEvent) (body : Bytes) (k : ℕ) : Prop :=
  w.growFails log = true ∨ body.length < k

/-- The `m` bytes behind the first `k` are swallowed: their number is a positive `int`, or what an earlier request has
left in `sbytes` happens to do, or the connection ends. -/
def Swallowable (w : World) (log : List ConnEvent) (sbytes : ℤ) (k m avail : ℕ) : Prop :=
  (0 < m ∧ m < 2 ^ 31) ∨ w.sendFails log = true ∨ avail < k + sbytes.toNat ∨ sbytes.toNat = m

/-- A value of `m` bytes is read or swallowed. -/
def ValueFramed (w : World) (log : List ConnEvent) (sbytes : ℤ) (k m avail : ℕ) : Prop :=
  w.alloc log (toInt32 (toInt32 m + 2)) ≠ .tooLarge ∨ Swallowable w log sbytes k m avail

/-- The data for a mechanism of `k` bytes is read or swallowed. -/
def SaslFramed (w : World) (log : List ConnEvent) (sbytes : ℤ) (k m avail : ℕ) : Prop :=
  if w.sasl then
    (k ≤ Conn.maxSaslMechLen ∧ w.alloc log (toInt32 (toInt32 m + 2)) = .plain) ∨
      Swallowable w log sbytes k m avail
  else m < 2 ^ 31 ∨ w.sendFails log = true

/-- A command whose header has passed the checks they all share.  The commands that accept one body length only need
no condition. -/
def CommandFramed (w : World) (log : List ConnEvent) (sbytes : ℤ) (cmd : BinCmd) (quiet : Bool) (h : BinHeader)
    (body : Bytes) : Prop :=
  let extlen := h.extlen.toNat
  let keylen := h.keylen.toNat
  let bodylen := h.bodylen.toNat
  let read := fun k => log ++ [.item (body.take k)]
  match cmd with
  | .unknown => bodylen < 2 ^ 31 ∨ w.sendFails log = true
  | .stat => extlen ≠ 0 ∨ KeyLost w log body keylen ∨ bodylen = keylen ∨ w.sendFails (read keylen) = true
  | .touch | .gat | .gatk =>
    extlen ≠ 4 ∨ keylen = 0 ∨ KeyLost w log body (keylen + 4) ∨ bodylen = keylen + 4 ∨
      (w.sendFails (read (keylen + 4)) = true ∧ (w.served (read (keylen + 4)) = true ∨ quiet = false))
  | .set | .add | .replace =>
    extlen ≠ 8 ∨ keylen = 0 ∨ KeyLost w log body (keylen + 8) ∨
      ValueFramed w (read (keylen + 8)) sbytes (keylen + 8) (bodylen - (keylen + 8)) body.length
  | .append | .prepend =>
    extlen ≠ 0 ∨ keylen = 0 ∨ KeyLost w log body keylen ∨
      ValueFramed w (read keylen) sbytes keylen (bodylen - keylen) body.length
  | .saslAuth | .saslStep =>
    extlen ≠ 0 ∨ keylen = 0 ∨ KeyLost w log body keylen ∨
      SaslFramed w (read keylen) sbytes keylen (bodylen - keylen) body.length
  | _ => True

/-- The condition under which a request ends behind its body: its header is refused, or the command keeps to it. -/
def Framed (w : World) (c : Conn) (h : BinHeader) (body : Bytes) : Prop :=
  h.bodylen.toNat < h.keylen.toNat + h.extlen.toNat ∨
    (w.sasl = true ∧ Conn.isAuthenticated { c with cmd := (binCmd h.opcode).1 } = false) ∨
    keyMaxLength < h.keylen.toNat ∨
    CommandFramed w (c.log ++ [.request h]) c.sbytes (binCmd h.opcode).1 (binCmd h.opcode).2 h body

namespace Conn

section ends

variable {w : World} {c : Conn} {body : Bytes} {k n : ℕ} {P : Prop}

theorem Answers.closes_endsIff (h : c.Answers .closing) (hP : P) : c.EndsIff w (Behind body n) P :=
  h.closes.endsIff hP

theorem Answers.newCmd_endsIff (h : c.Answers .newCmd) (hu : c.unread = body.drop k) (hk : k ≤ body.length) :
    c.EndsIff w (Behind body n) (w.sendFails c.log = true ∨ k = n) := by
  cases hfail : w.sendFails c.log with
  | true => exact (h.givesUp hfail).endsIff (Or.inl rfl)
  | false =>
    refine (h.resumes hfail).endsIff ?_
    rw [hu, behind_drop_iff hk]
    simp

theorem Answers.swallow_endsIff (h : c.Answers .swallow) (ht : c.transport = .tcp) (hu : c.unread = body.drop k)
    (hk : k ≤ body.length) : c.EndsIff w (Behind body n)
      (w.sendFails c.log = true ∨ body.length < k + c.sbytes.toNat ∨ k + c.sbytes.toNat = n) := by
  have hlen : c.unread.length = body.length - k := by rw [hu, length_drop]
  cases hfail : w.sendFails c.log with
  | true => exact (h.givesUp hfail).endsIff (Or.inl rfl)
  | false =>
    rcases Nat.lt_or_ge body.length (k + c.sbytes.toNat) with hlt | hge
    · exact (h.swallows_short hfail ht (by omega)).endsIff (Or.inr (Or.inl hlt))
    · refine (h.swallows hfail (by omega)).endsIff ?_
      rw [hu, drop_drop, behind_drop_iff hge]
      simp only [Bool.false_eq_true, false_or]
      exact ⟨Or.inr, fun h => h.resolve_left (by omega)⟩

variable {x : Conn} {m : ℕ} {good : Bytes → Prop}

theorem Replies.endsIff (h : c.Replies x) (hu : c.unread = body.drop n) (hn : n ≤ body.length) (hP : P) :
    x.EndsIff w (Behind body n) P := by
  rcases h.ends (w := w) with h | h
  · exact h.endsIff hP
  · exact h.endsIff (iff_of_true (hu ▸ (behind_drop_iff hn).mpr rfl) hP)

/-! ### The answers of the binary protocol -/

/-- `write_bin_error`: the reply is sent and the bytes to swallow are thrown away. -/
theorem writeBinError_endsIff (err : BinStatus) (errstr : Option String) (swallow : ℤ) (ht : c.transport = .tcp)
    (hp : c.protocol = .binary) (hu : c.unread = body.drop k) (hk : k ≤ body.length) :
    (c.writeBinError err errstr swallow).EndsIff w (Behind body n)
      (w.sendFails c.log = true ∨ body.length < k + swallow.toNat ∨ k + swallow.toNat = n) := by
  rw [writeBinError]
  split
  · exact Answers.swallow_endsIff (c := { c with
      reply := .error err (errstr.getD (binErrorText err)), state := .mwrite, sbytes := swallow,
        writeAndGo := .swallow })
      ⟨Or.inr ⟨rfl, hp⟩, rfl⟩ ht hu hk
  · rename_i hswallow
    refine (Answers.newCmd_endsIff (c := { c with
      reply := .error err (errstr.getD (binErrorText err)), state := .mwrite, writeAndGo := .newCmd })
      ⟨Or.inr ⟨rfl, hp⟩, rfl⟩ hu hk).congr ?_
    rw [Int.toNat_of_nonpos (by omega), Nat.add_zero]
    exact or_congr_right ⟨Or.inr, fun h => h.resolve_left (by omega)⟩

/-- The paths that set `write_and_go` behind `write_bin_error`: with nothing to swallow an old `sbytes` counts. -/
theorem writeBinError_swallow_endsIff (err : BinStatus) (errstr : Option String) (swallow : ℤ)
    (ht : c.transport = .tcp)
    (hp : c.protocol = .binary) (hu : c.unread = body.drop k) (hk : k ≤ body.length) :
    EndsIff w (Behind body n) (w.sendFails c.log = true ∨
        body.length < k + (if 0 < swallow then swallow else c.sbytes).toNat ∨
        k + (if 0 < swallow then swallow else c.sbytes).toNat = n)
      { c.writeBinError err errstr swallow with writeAndGo := .swallow } := by
  rw [writeBinError]
  split
  · exact Answers.swallow_endsIff (c := { c with
      reply := .error err (errstr.getD (binErrorText err)), state := .mwrite, sbytes := swallow,
        writeAndGo := .swallow })
      ⟨Or.inr ⟨rfl, hp⟩, rfl⟩ ht hu hk
  · exact Answers.swallow_endsIff (c := { c with
      reply := .error err (errstr.getD (binErrorText err)), state := .mwrite, writeAndGo := .swallow })
      ⟨Or.inr ⟨rfl, hp⟩, rfl⟩ ht hu hk

theorem handleBinaryProtocolError_answers (hp : c.protocol = .binary) : c.handleBinaryProtocolError.Answers .closing :=
  ⟨Or.inr ⟨rfl, hp⟩, rfl⟩

/-- `x` is `c` with an answer: a reply, or nothing for a quiet command. -/
inductive BinAnswer (c : Conn) : Conn → Prop
  | sends (reply : ConnReply) (state : ConnState) (hs : state = .write ∨ state = .mwrite) :
      BinAnswer c { c with reply := reply, state := state, writeAndGo := .newCmd }
  | silent (h : c.noreply = true) : BinAnswer c { c with state := .newCmd }

theorem BinAnswer.replies (h : c.BinAnswer x) (hp : c.protocol = .binary) : c.Replies x := by
  cases h with
  | sends reply state hs => exact ⟨Or.inr ⟨hs.imp id (fun hs => ⟨hs, hp⟩), rfl⟩, rfl⟩
  | silent _ => exact ⟨Or.inl rfl, rfl⟩

theorem binAnswer_data (c : Conn) : c.BinAnswer { c with reply := .data, state := .mwrite, writeAndGo := .newCmd } :=
  .sends .data .mwrite (Or.inr rfl)

theorem writeBinError_answers (err : BinStatus) (errstr : Option String) (c : Conn) :
    c.BinAnswer (c.writeBinError err errstr 0) :=
  .sends (.error err (errstr.getD (binErrorText err))) .mwrite (Or.inr rfl)

theorem writeBinResponse_answers (c : Conn) : c.BinAnswer c.writeBinResponse := by
  rw [writeBinResponse]
  split
  · exact binAnswer_data c
  · rename_i hquiet
    refine .silent ?_
    rw [← Bool.not_eq_false]
    exact fun hloud => hquiet (Or.inl (by simp [hloud]))

theorem outOfMemory_answers (error : String) (hp : c.protocol = .binary) : c.BinAnswer (c.outOfMemory error) := by
  rw [outOfMemory, hp]
  exact writeBinError_answers _ _ c

theorem stored_answers (eno : BinStatus) (r : StoreItemType) (c : Conn) : c.BinAnswer
    (match r with
    | .stored => c.writeBinResponse
    | .exists => c.writeBinError .keyEexists none 0
    | .notFound => c.writeBinError .keyEnoent none 0
    | .notStored | .tooLarge | .noMemory => c.writeBinError eno none 0) := by
  cases r with
  | stored => exact writeBinResponse_answers c
  | «exists» => exact writeBinError_answers _ _ c
  | notFound => exact writeBinError_answers _ _ c
  | notStored => exact writeBinError_answers _ _ c
  | tooLarge => exact writeBinError_answers _ _ c
  | noMemory => exact writeBinError_answers _ _ c

theorem completeUpdateBin_answers (w : World) (c : Conn) : BinAnswer { c with chunks := none }
    (c.completeUpdateBin w) := by
  have hitem : ∀ {x : Conn}, c.BinAnswer x → BinAnswer { c with chunks := none } { x with chunks := none } := by
    intro x hx
    cases hx with
    | sends reply state hs => exact .sends reply state hs
    | silent h => exact .silent h
  exact hitem (stored_answers _ (w.storeItem c.log) c)

theorem processBinCompleteSaslAuth_replies (hp : c.protocol = .binary) :
    c.Replies (c.processBinCompleteSaslAuth w) := by
  rw [processBinCompleteSaslAuth]
  split
  · have h := (writeBinResponse_answers { c with authenticated := true }).replies hp
    exact ⟨h.next, h.unread_eq⟩
  · split
    · exact (writeBinError_answers _ _ c).replies hp
    · exact (binAnswer_data c).replies hp

theorem processBinGetOrTouch_answers (w : World) (c : Conn) : c.BinAnswer (c.processBinGetOrTouch w) := by
  rw [processBinGetOrTouch]
  split
  · exact binAnswer_data c
  · split
    · rename_i hquiet
      exact .silent hquiet
    · split
      · exact binAnswer_data c
      · exact writeBinError_answers _ _ c

theorem processBinStat_answers (hp : c.protocol = .binary) : c.BinAnswer (c.processBinStat w) := by
  rw [processBinStat]
  split
  · exact .sends .data .write (Or.inl rfl)
  · split
    · exact writeBinError_answers _ _ c
    · exact outOfMemory_answers _ hp

theorem processBinDelete_answers (w : World) (c : Conn) : c.BinAnswer (c.processBinDelete w) := by
  have heq : c.processBinDelete w = match w.storeItem c.log with
      | .stored => c.writeBinResponse
      | .exists => c.writeBinError .keyEexists none 0
      | .notFound => c.writeBinError .keyEnoent none 0
      | .notStored | .tooLarge | .noMemory => c.writeBinError .keyEnoent none 0 := by
    rw [processBinDelete]
    cases w.storeItem c.log <;> rfl
  rw [heq]
  exact stored_answers _ _ c

theorem completeIncrBin_answers (hp : c.protocol = .binary) : c.BinAnswer (c.completeIncrBin w) := by
  rw [completeIncrBin]
  cases w.addDelta c.log with
  | ok => exact writeBinResponse_answers c
  | nonNumeric => exact writeBinError_answers _ _ c
  | eom => exact outOfMemory_answers _ hp
  | itemCasMismatch => exact writeBinError_answers _ _ c
  | itemNotFound =>
    have hstored : c.BinAnswer (if w.storeItem c.log ≠ .notStored then c.writeBinResponse
        else c.writeBinError .notStored none 0) := by
      split
      · exact writeBinResponse_answers c
      · exact writeBinError_answers _ _ c
    simp only
    split
    · split
      · exact hstored
      · exact hstored
      · exact outOfMemory_answers _ hp
    · exact writeBinError_answers _ _ c

theorem processBinFlush_answers (w : World) (c : Conn) : c.BinAnswer (c.processBinFlush w) := by
  rw [processBinFlush]
  split
  · exact writeBinResponse_answers c
  · exact writeBinError_answers _ _ c

theorem binListSaslMechs_answers (hbody : c.header.bodylen.toNat = c.header.keylen.toNat) :
    c.BinAnswer (c.binListSaslMechs w) := by
  have hzero : (c.header.bodylen.toNat : ℤ) - c.header.keylen.toNat = 0 := by omega
  rw [binListSaslMechs, hzero]
  split
  · split
    · exact writeBinResponse_answers c
    · exact writeBinError_answers _ _ c
  · exact writeBinError_answers _ _ c

theorem completeNreadBinary_answers (hp : c.protocol = .binary) (hsub : c.substate = .readingGetKey ∨
    c.substate = .readingTouchKey ∨ c.substate = .readingStat ∨ c.substate = .readingDelHeader ∨
    c.substate = .readingIncrHeader ∨ c.substate = .readFlushExptime) : c.BinAnswer (c.completeNreadBinary w) := by
  rcases hsub with hsub | hsub | hsub | hsub | hsub | hsub <;> simp only [completeNreadBinary, hsub]
  · exact processBinGetOrTouch_answers w c
  · exact processBinGetOrTouch_answers w c
  · exact processBinStat_answers hp
  · exact processBinDelete_answers w c
  · exact completeIncrBin_answers hp
  · exact processBinFlush_answers w c

/-! ### Reading a part of the body -/

/-- `d` is `c` behind the `k` bytes that `conn_nread` had to read for a substate. -/
structure PartRead (c d : Conn) (next : BinSubstate) (k : ℕ) : Prop where
  transport_eq : d.transport = c.transport
  protocol_eq : d.protocol = c.protocol
  substate_eq : d.substate = next
  cmd_eq : d.cmd = c.cmd
  header_eq : d.header = c.header
  noreply_eq : d.noreply = c.noreply
  sbytes_eq : d.sbytes = c.sbytes
  log_eq : d.log = c.log ++ [.item (c.unread.take k)]
  unread_eq : d.unread = c.unread.drop k

theorem driveMachine_complete {r : Bytes} {s : List Bytes} (hs : c.state = .nread)
    (hp : c.protocol = .binary) (hritem : c.ritem = []) (hrl : c.rlbytes = m) (hle : m ≤ c.unread.length)
    (hd : c.Drops m r s) (chunks : Option (List ℕ)) : ∃ d, c.PartRead d c.substate m ∧
      (c.advanceItem (c.unread.take m) r s chunks).driveMachine w = d.completeNreadBinary w := by
  have hzero : (c.advanceItem (c.unread.take m) r s chunks).rlbytes = 0 := by
    simp only [advanceItem, advance, hrl, length_take]
    omega
  have hstate : (c.advanceItem (c.unread.take m) r s chunks).state = .nread := hs
  have hbin : (c.advanceItem (c.unread.take m) r s chunks).protocol = .binary := hp
  refine ⟨{ c.advanceItem (c.unread.take m) r s chunks with log := c.log ++ [ConnEvent.item (c.unread.take m)] },
    ⟨rfl, rfl, rfl, rfl, rfl, rfl, rfl, rfl, hd.unread_eq⟩, ?_⟩
  simp only [driveMachine, hstate, nread, hzero, if_true, completeNread, hbin]
  simp only [advanceItem, advance, withInput, hritem, nil_append]

theorem nreadPart_endsIff (hs : c.state = .nread) (ht : c.transport = .tcp)
    (hp : c.protocol = .binary) (hitem : c.chunks = none) (hritem : c.ritem = []) (hrl : c.rlbytes = k)
    (hshort : c.unread.length < k → P)
    (hnext : k ≤ c.unread.length → ∀ d, c.PartRead d c.substate k →
      (d.completeNreadBinary w).EndsIff w good P) :
    c.EndsIff w good P := by
  cases nread_end (w := w) _ c k le_rfl hs hrl (Or.inl ht) with
  | complete r s chunks hu hd _ _ hpass =>
    refine .of_passes hpass (.of_passes (.one (not_settled (Or.inl hs))) ?_)
    obtain ⟨d, hread, hstep⟩ := driveMachine_complete (w := w) hs hp hritem hrl hu hd chunks
    rw [hstep]
    exact hnext hu d hread
  | noMemory j r s chunks _ _ _ hsome _ _ _ => exact absurd hitem hsome
  | closes d hu hd hpass => exact (GivesUp.of_passes hpass (givesUp_closing hd)).endsIff (hshort hu)

/-- **Extras and key.**  They are read and the substate decides, or the connection is closed. -/
theorem binReadKey_endsIff (next : BinSubstate) (extra : ℕ) (ht : c.transport = .tcp)
    (hp : c.protocol = .binary) (hitem : c.chunks = none) (hk : c.header.keylen.toNat + extra = k)
    (hlost : KeyLost w c.log c.unread k → P)
    (hnext : ¬ KeyLost w c.log c.unread k →
      ∀ d, c.PartRead d next k → (d.completeNreadBinary w).EndsIff w good P) :
    (c.binReadKey w next extra).EndsIff w good P := by
  rw [binReadKey]
  split
  · rename_i hgrow
    exact (givesUp_closing rfl).endsIff (hlost (Or.inl hgrow))
  · rename_i hgrow
    refine nreadPart_endsIff (k := k) rfl ht hp hitem rfl (by simp [← hk]) (fun h => hlost (Or.inr h)) ?_
    intro hu d hd
    refine hnext (fun h => h.elim hgrow (fun h => absurd hu (Nat.not_le.mpr h))) d ?_
    exact ⟨hd.transport_eq, hd.protocol_eq, hd.substate_eq, hd.cmd_eq, hd.header_eq, hd.noreply_eq, hd.sbytes_eq,
      hd.log_eq, hd.unread_eq⟩

/-- **The value.**  It is read and answered; where a chunk is missing the rest is swallowed. -/
theorem nreadValue_endsIff (hs : c.state = .nread) (ht : c.transport = .tcp) (hp : c.protocol = .binary)
    (hsub : c.substate = .readSetValue ∨ c.substate = .readingSaslAuthData) (hritem : c.ritem = [])
    (hrl : c.rlbytes = m) (hu : c.unread = body.drop k) (hk : k ≤ body.length) (hn : k + m = n) (hP : P) :
    c.EndsIff w (Behind body n) P := by
  have hlen : c.unread.length = body.length - k := by rw [hu, length_drop]
  cases nread_end (w := w) _ c m le_rfl hs hrl (Or.inl ht) with
  | complete r s chunks hle hd _ _ hpass =>
    refine .of_passes hpass (.of_passes (.one (not_settled (Or.inl hs))) ?_)
    obtain ⟨d, hread, hstep⟩ := driveMachine_complete (w := w) hs hp hritem hrl hle hd chunks
    rw [hstep]
    have hreplies : d.Replies (d.completeNreadBinary w) := by
      rcases hsub with hsub | hsub
      · simp only [completeNreadBinary, hread.substate_eq, hsub]
        have h := (completeUpdateBin_answers w d).replies (hread.protocol_eq.trans hp)
        exact ⟨h.next, h.unread_eq⟩
      · simp only [completeNreadBinary, hread.substate_eq, hsub]
        exact processBinCompleteSaslAuth_replies (hread.protocol_eq.trans hp)
    exact hreplies.endsIff (by rw [hread.unread_eq, hu, drop_drop, hn]) (by omega) hP
  | noMemory j r s chunks hj hju hd _ _ _ hpass =>
    refine .of_passes hpass ?_
    have hrest : (c.advanceItem (c.unread.take j) r s chunks).unread = body.drop (k + j) := by
      rw [unread_advanceItem hd, hu, drop_drop]
    have hsb : (c.advanceItem (c.unread.take j) r s chunks).rlbytes = ((m - j : ℕ) : ℤ) := by
      simp only [advanceItem, advance, hrl, length_take_of_le hju]
      omega
    have hbin : (c.advanceItem (c.unread.take j) r s chunks).protocol = .binary := hp
    have htcp : (c.advanceItem (c.unread.take j) r s chunks).transport = .tcp := ht
    generalize c.advanceItem (c.unread.take j) r s chunks = d at hrest hsb hbin htcp
    have hanswers : d.nreadOutOfMemory.Answers .swallow := by
      rw [nreadOutOfMemory, outOfMemory, hbin]
      exact ⟨Or.inr ⟨rfl, hbin⟩, rfl⟩
    have hsbytes : d.nreadOutOfMemory.sbytes.toNat = m - j := by
      rw [nreadOutOfMemory, hsb, Int.toNat_natCast]
    have hunread : d.nreadOutOfMemory.unread = body.drop (k + j) := by
      rw [← hrest, nreadOutOfMemory, outOfMemory, hbin]
      rfl
    have htrans : d.nreadOutOfMemory.transport = .tcp := by
      rw [← htcp, nreadOutOfMemory, outOfMemory, hbin]
      rfl
    refine (hanswers.swallow_endsIff htrans hunread (by omega)).congr (iff_of_true (Or.inr (Or.inr ?_)) hP)
    rw [hsbytes]
    omega
  | closes d _ hd hpass => exact (GivesUp.of_passes hpass (givesUp_closing hd)).endsIff hP

/-! ### The commands with a value -/

/-- An error before `m` bytes of the body; the length is an `int`. -/
theorem writeBinError_rest_endsIff (err : BinStatus) (ht : c.transport = .tcp) (hp : c.protocol = .binary)
    (hu : c.unread = body.drop k) (hk : k ≤ body.length) (hm : m < 2 ^ 32) (hn : k + m = n) :
    (c.writeBinError err none (toInt32 m)).EndsIff w (Behind body n) (m < 2 ^ 31 ∨ w.sendFails c.log = true) := by
  refine (writeBinError_endsIff err none (toInt32 m) ht hp hu hk).congr ?_
  rcases Nat.lt_or_ge m (2 ^ 31) with hlt | hge
  · rw [toInt32_eq (by omega) (by omega), Int.toNat_natCast]
    exact iff_of_true (Or.inr (Or.inr hn)) (Or.inl hlt)
  · rw [toInt32_natCast_of_ge hge hm, Int.toNat_of_nonpos (by omega)]
    constructor
    · intro h
      exact Or.inr (h.resolve_right (by omega))
    · intro h
      exact Or.inl (h.resolve_left (by omega))

theorem writeBinError_value_endsIff (err : BinStatus) (ht : c.transport = .tcp) (hp : c.protocol = .binary)
    (hu : c.unread = body.drop k) (hk : k ≤ body.length) (hm : m < 2 ^ 32) (hn : k + m = n) :
    EndsIff w (Behind body n) (Swallowable w c.log c.sbytes k m body.length)
      { c.writeBinError err none (toInt32 m) with writeAndGo := .swallow } := by
  refine (writeBinError_swallow_endsIff err none (toInt32 m) ht hp hu hk).congr ?_
  rw [Swallowable]
  by_cases hpos : 0 < m ∧ m < 2 ^ 31
  · rw [toInt32_eq (by omega) (by omega), if_pos (by omega), Int.toNat_natCast]
    exact iff_of_true (Or.inr (Or.inr hn)) (Or.inl hpos)
  · have hneg : ¬ 0 < toInt32 m := by
      rcases Nat.lt_or_ge m (2 ^ 31) with hlt | hge
      · rw [toInt32_eq (by omega) (by omega)]
        omega
      · rw [toInt32_natCast_of_ge hge hm]
        omega
    rw [if_neg hneg, or_iff_right hpos]
    exact or_congr_right (or_congr_right (by omega))

theorem readBinValue_endsIff (ht : c.transport = .tcp) (hp : c.protocol = .binary)
    (hu : c.unread = body.drop k) (hk : k ≤ body.length) (hm : m < 2 ^ 32) (hn : k + m = n) :
    (c.readBinValue w (toInt32 m)).EndsIff w (Behind body n) (ValueFramed w c.log c.sbytes k m body.length) := by
  have hvalue : w.alloc c.log (toInt32 (toInt32 m + 2)) ≠ .tooLarge → toInt32 m = m := by
    intro h
    refine toInt32_value hm (fun hlt => h ?_)
    rw [World.alloc, if_pos hlt]
  rw [readBinValue, ValueFramed]
  cases halloc : w.alloc c.log (toInt32 (toInt32 m + 2)) with
  | tooLarge => exact (writeBinError_value_endsIff .e2big ht hp hu hk hm hn).congr (by simp)
  | noMemory =>
    simp only [hvalue (by simp [halloc]), outOfMemory, hp]
    exact (Answers.swallow_endsIff (c := { c with
      reply := .error .enomem "Out of memory allocating item", state := .mwrite, sbytes := m, writeAndGo := .swallow })
      ⟨Or.inr ⟨rfl, hp⟩, rfl⟩ ht hu hk).congr (iff_of_true (Or.inr (Or.inr hn)) (Or.inl (by simp)))
  | plain =>
    simp only [hvalue (by simp [halloc])]
    exact nreadValue_endsIff (c := { c.readItem none m with substate := .readSetValue }) rfl ht hp (Or.inl rfl) rfl
      rfl hu hk hn (Or.inl (by simp))
  | chunked rooms =>
    simp only [hvalue (by simp [halloc])]
    exact nreadValue_endsIff (c := { c.readItem (some rooms) m with substate := .readSetValue }) rfl ht
      hp (Or.inl rfl) rfl
      rfl hu hk hn (Or.inl (by simp))

theorem processBinSaslAuth_endsIff (ht : c.transport = .tcp) (hp : c.protocol = .binary)
    (hu : c.unread = body.drop k) (hk : k ≤ body.length) (hkey : c.header.keylen.toNat = k) (hm : m < 2 ^ 32)
    (hn : k + m = n) (hbody : c.header.bodylen.toNat = n) :
    (c.processBinSaslAuth w).EndsIff w (Behind body n) (SaslFramed w c.log c.sbytes k m body.length) := by
  have hvlen : (c.header.bodylen.toNat : ℤ) - c.header.keylen.toNat = (m : ℤ) := by omega
  rw [processBinSaslAuth, hvlen, hkey, SaslFramed]
  split
  · split
    · rename_i hmech
      exact (writeBinError_value_endsIff .einval ht hp hu hk hm hn).congr (or_iff_right (by omega)).symm
    · rename_i hmech
      have hplain : ∀ a : Alloc, a ≠ .plain → EndsIff w (Behind body n)
          ((k ≤ maxSaslMechLen ∧ a = .plain) ∨ Swallowable w c.log c.sbytes k m body.length)
          { c.writeBinError .enomem none (toInt32 m) with writeAndGo := .swallow } := fun a ha =>
        (writeBinError_value_endsIff .enomem ht hp hu hk hm hn).congr (or_iff_right (fun h => ha h.2)).symm
      cases halloc : w.alloc c.log (toInt32 (toInt32 m + 2)) with
      | plain =>
        have hv : toInt32 m = m := by
          refine toInt32_value hm (fun hlt => ?_)
          rw [World.alloc, if_pos hlt] at halloc
          exact absurd halloc (by decide)
        simp only [hv]
        exact nreadValue_endsIff (c := { c.readItem none m with substate := .readingSaslAuthData }) rfl ht hp
          (Or.inr rfl) rfl rfl hu hk hn (Or.inl ⟨by omega, trivial⟩)
      | chunked rooms => exact hplain _ (by simp)
      | tooLarge => exact hplain _ (by simp)
      | noMemory => exact hplain _ (by simp)
  · exact writeBinError_rest_endsIff .unknownCommand ht hp hu hk hm hn

/-! ### The commands with a key -/

theorem processBinStat_endsIff (hp : c.protocol = .binary) (hu : c.unread = body.drop k) (hk : k ≤ body.length) :
    (c.processBinStat w).EndsIff w (Behind body n) (w.sendFails c.log = true ∨ k = n) := by
  rw [processBinStat]
  split
  · exact Answers.newCmd_endsIff (c := { c with reply := .data, state := .write, writeAndGo := .newCmd })
      ⟨Or.inl rfl, rfl⟩ hu hk
  · split
    · exact Answers.newCmd_endsIff (c := c.writeBinError .keyEnoent none 0) ⟨Or.inr ⟨rfl, hp⟩, rfl⟩ hu hk
    · simp only [outOfMemory, hp]
      exact Answers.newCmd_endsIff (c := c.writeBinError .enomem (some "Out of memory generating stats") 0)
        ⟨Or.inr ⟨rfl, hp⟩, rfl⟩ hu hk

theorem processBinGetOrTouch_endsIff (hp : c.protocol = .binary) (hu : c.unread = body.drop k)
    (hk : k ≤ body.length) :
    (c.processBinGetOrTouch w).EndsIff w (Behind body n)
      (k = n ∨ (w.sendFails c.log = true ∧ (w.served c.log = true ∨ c.noreply = false))) := by
  have hdata : EndsIff w (Behind body n) (w.sendFails c.log = true ∨ k = n)
      { c with reply := .data, state := .mwrite, writeAndGo := .newCmd } :=
    Answers.newCmd_endsIff (c := { c with reply := .data, state := .mwrite, writeAndGo := .newCmd })
      ⟨Or.inr ⟨rfl, hp⟩, rfl⟩ hu hk
  rw [processBinGetOrTouch]
  split
  · rename_i hserved
    exact hdata.congr (by rw [hserved]; tauto)
  · rename_i hserved
    split
    · rename_i hquiet
      refine (resumesAt_newCmd rfl).endsIff ?_
      show Behind body n c.unread ↔ _
      rw [hu, behind_drop_iff hk]
      simp [hserved, hquiet]
    · rename_i hquiet
      have hiff : w.sendFails c.log = true ∨ k = n ↔
          k = n ∨ (w.sendFails c.log = true ∧ (w.served c.log = true ∨ c.noreply = false)) := by
        simp [hquiet, or_comm]
      split
      · exact hdata.congr hiff
      · exact (Answers.newCmd_endsIff (c := c.writeBinError .keyEnoent none 0)
          ⟨Or.inr ⟨rfl, hp⟩, rfl⟩ hu hk).congr hiff

/-! ### Every command -/

/-- A check of the lengths that closes the connection if it fails. -/
theorem checked_endsIff {A : Prop} [Decidable A] (hp : c.protocol = .binary)
    (hno : ¬ A → P) (hx : A → x.EndsIff w good P) :
    (if A then x else c.handleBinaryProtocolError).EndsIff w good P := by
  split
  · rename_i h
    exact hx h
  · rename_i h
    exact (handleBinaryProtocolError_answers hp).closes.endsIff (hno h)

theorem wholeBody_endsIff (next : BinSubstate) (extra : ℕ) (ht : c.transport = .tcp) (hp : c.protocol = .binary)
    (hitem : c.chunks = none) (hbody : c.header.keylen.toNat + extra = c.header.bodylen.toNat)
    (hsub : next = .readingGetKey ∨ next = .readingTouchKey ∨ next = .readingStat ∨ next = .readingDelHeader ∨
      next = .readingIncrHeader ∨ next = .readFlushExptime) :
    (c.binReadKey w next extra).EndsIff w (Behind c.unread c.header.bodylen.toNat) True := by
  refine binReadKey_endsIff next extra ht hp hitem hbody (fun _ => trivial) (fun hkey d hd => ?_)
  have hpd := hd.protocol_eq.trans hp
  exact ((completeNreadBinary_answers hpd (by rwa [hd.substate_eq])).replies hpd).endsIff hd.unread_eq
    (not_lt.mp (fun h => hkey (Or.inr h))) trivial

/-- A command that reads `extra` bytes and the key, and then a value. -/
theorem setHeader_endsIff (extra : ℕ) (ht : c.transport = .tcp) (hp : c.protocol = .binary) (hitem : c.chunks = none)
    (hk : c.header.keylen.toNat + extra = k) (hle : k ≤ c.header.bodylen.toNat)
    (hcmd : if c.cmd = .append ∨ c.cmd = .prepend then extra = 0 else c.header.extlen.toNat = extra) :
    (c.binReadKey w .readingSetHeader extra).EndsIff w (Behind c.unread c.header.bodylen.toNat)
      (KeyLost w c.log c.unread k ∨
        ValueFramed w (c.log ++ [.item (c.unread.take k)]) c.sbytes k (c.header.bodylen.toNat - k)
          c.unread.length) := by
  refine binReadKey_endsIff .readingSetHeader extra ht hp hitem hk Or.inl (fun hkey d hd => ?_)
  have hlt := c.header.bodylen.toNat_lt
  have hvalue := readBinValue_endsIff (w := w) (m := c.header.bodylen.toNat - k) (n := c.header.bodylen.toNat)
    (hd.transport_eq.trans ht) (hd.protocol_eq.trans hp) hd.unread_eq (not_lt.mp (fun h => hkey (Or.inr h)))
    (by omega) (by omega)
  rw [hd.log_eq, hd.sbytes_eq] at hvalue
  simp only [completeNreadBinary, hd.substate_eq, hd.cmd_eq]
  split
  · rename_i happ
    rw [if_pos happ] at hcmd
    have hv : (c.header.bodylen.toNat : ℤ) - c.header.keylen.toNat =
      ((c.header.bodylen.toNat - k : ℕ) : ℤ) := by omega
    rw [processBinAppendPrepend, hd.header_eq, hv]
    exact hvalue.congr (or_iff_right hkey).symm
  · rename_i happ
    rw [if_neg happ] at hcmd
    have hv : (c.header.bodylen.toNat : ℤ) - (c.header.keylen.toNat + c.header.extlen.toNat) =
        ((c.header.bodylen.toNat - k : ℕ) : ℤ) := by omega
    rw [processBinUpdate, hd.header_eq, hv]
    exact hvalue.congr (or_iff_right hkey).symm

theorem stat_endsIff (ht : c.transport = .tcp) (hp : c.protocol = .binary) (hitem : c.chunks = none)
    (hk : c.header.keylen.toNat = k) :
    (c.binReadKey w .readingStat 0).EndsIff w (Behind c.unread c.header.bodylen.toNat)
      (KeyLost w c.log c.unread k ∨ c.header.bodylen.toNat = k ∨
        w.sendFails (c.log ++ [.item (c.unread.take k)]) = true) := by
  refine binReadKey_endsIff .readingStat 0 ht hp hitem hk Or.inl (fun hkey d hd => ?_)
  simp only [completeNreadBinary, hd.substate_eq]
  refine (processBinStat_endsIff (hd.protocol_eq.trans hp) hd.unread_eq (not_lt.mp (fun h => hkey (Or.inr h)))).congr ?_
  rw [hd.log_eq, or_iff_right hkey, or_comm, eq_comm]

/-- `touch`, `gat`, `gatk`: nothing asks whether there is more than extras and a key. -/
theorem touch_endsIff (ht : c.transport = .tcp) (hp : c.protocol = .binary) (hitem : c.chunks = none)
    (hk : c.header.keylen.toNat + 4 = k) :
    (c.binReadKey w .readingTouchKey 4).EndsIff w (Behind c.unread c.header.bodylen.toNat)
      (KeyLost w c.log c.unread k ∨ c.header.bodylen.toNat = k ∨
        (w.sendFails (c.log ++ [.item (c.unread.take k)]) = true ∧
          (w.served (c.log ++ [.item (c.unread.take k)]) = true ∨ c.noreply = false))) := by
  refine binReadKey_endsIff .readingTouchKey 4 ht hp hitem hk Or.inl (fun hkey d hd => ?_)
  simp only [completeNreadBinary, hd.substate_eq]
  refine (processBinGetOrTouch_endsIff (hd.protocol_eq.trans hp) hd.unread_eq
    (not_lt.mp (fun h => hkey (Or.inr h)))).congr ?_
  rw [hd.log_eq, hd.noreply_eq, or_iff_right hkey, eq_comm]

theorem saslAuth_endsIff (ht : c.transport = .tcp) (hp : c.protocol = .binary) (hitem : c.chunks = none)
    (hk : c.header.keylen.toNat = k) (hle : k ≤ c.header.bodylen.toNat) :
    (c.binReadKey w .readingSaslAuth 0).EndsIff w (Behind c.unread c.header.bodylen.toNat)
      (KeyLost w c.log c.unread k ∨
        SaslFramed w (c.log ++ [.item (c.unread.take k)]) c.sbytes k (c.header.bodylen.toNat - k) c.unread.length) := by
  refine binReadKey_endsIff .readingSaslAuth 0 ht hp hitem hk Or.inl (fun hkey d hd => ?_)
  have hlt := c.header.bodylen.toNat_lt
  simp only [completeNreadBinary, hd.substate_eq]
  refine (processBinSaslAuth_endsIff (m := c.header.bodylen.toNat - k) (hd.transport_eq.trans ht)
    (hd.protocol_eq.trans hp) hd.unread_eq (not_lt.mp (fun h => hkey (Or.inr h))) (by rw [hd.header_eq, hk]) (by omega)
    (by omega) (by rw [hd.header_eq])).congr ?_
  rw [hd.log_eq, hd.sbytes_eq, or_iff_right hkey]

/-- **Every command** behind the checks they share. -/
theorem dispatchBinCmd_endsIff (ht : c.transport = .tcp) (hp : c.protocol = .binary) (hitem : c.chunks = none)
    (hle : c.header.keylen.toNat + c.header.extlen.toNat ≤ c.header.bodylen.toNat) :
    (c.dispatchBinCmd w).EndsIff w (Behind c.unread c.header.bodylen.toNat)
      (CommandFramed w c.log c.sbytes c.cmd c.noreply c.header c.unread) := by
  have hempty : ∀ {x : Conn}, c.header.bodylen.toNat = 0 → c.Replies x →
      x.EndsIff w (Behind c.unread c.header.bodylen.toNat) True := by
    intro x h hx
    exact hx.endsIff (by rw [h, drop_zero]) (by omega) trivial
  have hupdate : c.cmd ≠ .append → c.cmd ≠ .prepend → c.header.extlen.toNat = 8 →
      if c.cmd = .append ∨ c.cmd = .prepend then 8 = 0 else c.header.extlen.toNat = 8 := by
    intro ha hp' hext
    rw [if_neg (by tauto)]
    exact hext
  cases hcmd : c.cmd <;> simp only [dispatchBinCmd, CommandFramed, hcmd]
  case version | noop =>
    exact checked_endsIff hp (fun _ => trivial) (fun h => hempty h.2.2 ((writeBinResponse_answers c).replies hp))
  case flush =>
    refine checked_endsIff hp (fun _ => trivial) (fun h => ?_)
    exact wholeBody_endsIff .readFlushExptime _ ht hp hitem (by omega) (by simp)
  case get | getk =>
    refine checked_endsIff hp (fun _ => trivial) (fun h => ?_)
    exact wholeBody_endsIff .readingGetKey _ ht hp hitem (by omega) (by simp)
  case delete =>
    refine checked_endsIff hp (fun _ => trivial) (fun h => ?_)
    exact wholeBody_endsIff .readingDelHeader _ ht hp hitem (by omega) (by simp)
  case increment | decrement =>
    refine checked_endsIff hp (fun _ => trivial) (fun h => ?_)
    exact wholeBody_endsIff .readingIncrHeader _ ht hp hitem (by omega) (by simp)
  case quit =>
    refine checked_endsIff hp (fun _ => trivial) (fun h => ?_)
    split
    · exact (givesUp_closing rfl).endsIff trivial
    · rename_i hloud
      have heq : c.writeBinResponse = { c with reply := .data, state := .mwrite, writeAndGo := .newCmd } := by
        have hnoreply : c.noreply = false := by
          have hkeep : c.writeBinResponse.noreply = c.noreply := by
            rw [writeBinResponse]
            split <;> rfl
          rw [← hkeep]
          simpa using hloud
        rw [writeBinResponse, if_pos (by simp [hnoreply])]
      rw [heq]
      exact Answers.closes_endsIff (c := { c with reply := .data, state := .mwrite, writeAndGo := .closing })
        ⟨Or.inr ⟨rfl, hp⟩, rfl⟩ trivial
  case saslListMechs =>
    exact checked_endsIff hp (fun _ => trivial)
      (fun h => hempty h.2.2 ((binListSaslMechs_answers (h.2.2.trans h.2.1.symm)).replies hp))
  case stat =>
    refine checked_endsIff hp (fun h => Or.inl h) (fun h => ?_)
    exact (stat_endsIff ht hp hitem rfl).congr (or_iff_right (not_not.mpr h)).symm
  case touch | gat | gatk =>
    refine checked_endsIff hp (fun h => by tauto) (fun h => (touch_endsIff ht hp hitem rfl).congr ?_)
    rw [or_iff_right (not_not.mpr h.1), or_iff_right h.2]
  case set | add | replace =>
    refine checked_endsIff hp (fun h => by omega) (fun h => ?_)
    refine (setHeader_endsIff 8 ht hp hitem rfl h.2.2 (hupdate (by simp [hcmd]) (by simp [hcmd]) h.1)).congr ?_
    rw [or_iff_right (not_not.mpr h.1), or_iff_right h.2.1]
  case append | prepend =>
    refine checked_endsIff hp (fun h => by omega) (fun h => ?_)
    refine (setHeader_endsIff 0 ht hp hitem (Nat.add_zero _) (by omega) (by simp [hcmd])).congr ?_
    rw [or_iff_right (not_not.mpr h.2), or_iff_right h.1.ne']
  case saslAuth | saslStep =>
    refine checked_endsIff hp (fun h => by omega) (fun h => (saslAuth_endsIff ht hp hitem rfl (by omega)).congr ?_)
    rw [or_iff_right (not_not.mpr h.1), or_iff_right h.2]
  case unknown =>
    have hlt := c.header.bodylen.toNat_lt
    exact writeBinError_rest_endsIff (k := 0) .unknownCommand ht hp rfl (Nat.zero_le _) (by omega) (Nat.zero_add _)

/-! ### The whole request -/

theorem dispatchBinCommand_endsIff (ht : c.transport = .tcp) (hp : c.protocol = .binary) (hitem : c.chunks = none) :
    (c.dispatchBinCommand w).EndsIff w (Behind c.unread c.header.bodylen.toNat)
      (c.header.bodylen.toNat < c.header.keylen.toNat + c.header.extlen.toNat ∨
        (w.sasl = true ∧ c.isAuthenticated = false) ∨ keyMaxLength < c.header.keylen.toNat ∨
        CommandFramed w c.log c.sbytes c.cmd (binCmd c.header.opcode).2 c.header c.unread) := by
  have hclose : ∀ err, Answers { c.writeBinError err none 0 with writeAndGo := .closing } .closing :=
    fun err => ⟨Or.inr ⟨rfl, hp⟩, rfl⟩
  rw [dispatchBinCommand]
  split
  · rename_i h
    exact (hclose _).closes.endsIff (Or.inl (by omega))
  · rename_i hlen
    split
    · rename_i h
      exact (hclose _).closes.endsIff (Or.inr (Or.inl (by simpa using h)))
    · rename_i hauth
      split
      · rename_i h
        exact (handleBinaryProtocolError_answers (c := { c with noreply := true }) hp).closes.endsIff
          (Or.inr (Or.inr (Or.inl h)))
      · rename_i hkey
        refine (dispatchBinCmd_endsIff (c := { c with noreply := (binCmd c.header.opcode).2 }) ht hp hitem
          (show c.header.keylen.toNat + c.header.extlen.toNat ≤ c.header.bodylen.toNat from by omega)).congr ?_
        rw [or_iff_right (by omega), or_iff_right (by simpa using hauth), or_iff_right hkey]
        rfl

/-- The connection with the header at the front of its buffer taken off. -/
def takeHeader (c : Conn) : Conn :=
  { c with
    header := binHeader (c.rbuf.take 24)
    cmd := (binCmd (binHeader (c.rbuf.take 24)).opcode).1
    rbuf := c.rbuf.drop 24
    log := c.log ++ [ConnEvent.request (binHeader (c.rbuf.take 24))] }

theorem driveMachine_header (hs : c.state = .parseCmd) (ht : c.transport = .tcp) (hp : c.protocol = .binary)
    (hlen : 24 ≤ c.rbuf.length) (hmagic : c.rbuf.getD 0 0 = 0x80) :
    c.driveMachine w = c.takeHeader.dispatchBinCommand w := by
  simp only [driveMachine, hs, tryReadCommand, ht, hp, tryReadCommandBinary, if_neg (not_lt.mpr hlen), hmagic, ne_eq,
    not_true_eq_false, if_false, takeHeader]

theorem waiting_reads {seg : Bytes} {segs : List Bytes} (hs : c.state = .waiting) (ht : c.transport = .tcp)
    (hsock : c.sock = seg :: segs) : Passes (driveMachine w) Settled c
      { c with sock := segs, rbuf := c.rbuf ++ seg, state := if seg = [] then .waiting else .parseCmd } := by
  have hone : c.driveMachine w = { c with state := .read } := by simp only [driveMachine, hs]
  have htwo : driveMachine w { c with state := .read } =
      { c with sock := segs, rbuf := c.rbuf ++ seg, state := if seg = [] then .waiting else .parseCmd } := by
    simp only [driveMachine, ht, readNetwork, hsock]
  refine (Passes.one (not_settled (by simp [hs]))).trans ?_
  rw [hone, ← htwo]
  exact Passes.one (by simp [Settled, ht])

theorem header_arrives (segs : List Bytes) : ∀ c : Conn, c.sock = segs → c.transport = .tcp →
    c.protocol = .binary → (c.state = .parseCmd ∨ c.state = .waiting ∧ c.rbuf.length < 24) →
      24 ≤ c.unread.length →
    ∃ r s, 24 ≤ r.length ∧ r ++ s.flatten = c.unread ∧
      Passes (driveMachine w) Settled c { c with rbuf := r, sock := s, state := .parseCmd } := by
  induction segs with
  | nil =>
    intro c hsock ht hp hs hlen
    have hu : c.unread = c.rbuf := by simp [unread, ht, hsock]
    rw [hu] at hlen
    have hparse : c.state = .parseCmd := hs.resolve_right (by omega)
    refine ⟨c.rbuf, c.sock, hlen, by simp [unread, ht], ?_⟩
    rw [← hparse]
    exact .refl c
  | cons seg segs ih =>
    intro c hsock ht hp hs hlen
    by_cases hready : c.state = .parseCmd ∧ 24 ≤ c.rbuf.length
    · refine ⟨c.rbuf, c.sock, hready.2, by simp [unread, ht], ?_⟩
      rw [← hready.1]
      exact .refl c
    · -- too little: the connection waits, and reads the next piece
      have hshort : c.rbuf.length < 24 := by
        by_contra hge
        exact hready ⟨hs.resolve_right (by omega), by omega⟩
      have hwait : Passes (driveMachine w) Settled c { c with state := .waiting } := by
        rcases hs with hs | hs
        · have hstep : c.driveMachine w = { c with state := .waiting } := by
            simp only [driveMachine, hs, tryReadCommand, ht, hp, tryReadCommandBinary, if_pos hshort]
          rw [← hstep]
          exact .one (not_settled (by simp [hs]))
        · rw [← hs.1]
          exact .refl c
      have hread := waiting_reads (w := w) (c := { c with state := .waiting }) rfl ht hsock
      obtain ⟨r, s, hr, heq, hp'⟩ := ih { c with
        sock := segs, rbuf := c.rbuf ++ seg, state := if seg = [] then .waiting else .parseCmd } rfl ht hp (by
          split
          · rename_i hseg
            exact Or.inr ⟨rfl, by simpa [hseg] using hshort⟩
          · exact Or.inl rfl) (by simpa [unread, ht, hsock] using hlen)
      refine ⟨r, s, hr, ?_, (hwait.trans hread).trans hp'⟩
      rw [heq]
      simp [unread, ht, hsock]

end ends

end Conn

open Conn

/-- **The body of a binary request.**  A connection looks for its next request and the input is a header and `body`,
in whatever pieces it arrives.  The request ends, and it ends with the connection closed or behind the announced body
exactly when `Framed` holds. -/
theorem request_framed_iff (w : World) (c : Conn) (header body : Bytes) (hstate : c.state = .newCmd)
    (ht : c.transport = .tcp) (hp : c.protocol = .binary) (hunread : c.unread = header ++ body)
    (hlen : header.length = 24) (hmagic : header.getD 0 0 = 0x80) :
    ∃ c', Until (driveMachine w) Settled (c.driveMachine w) c' ∧
      ((c'.Abandoned ∨ Behind body (binHeader header).bodylen.toNat c'.unread) ↔
        Framed w c (binHeader header) body) := by
  have hreset : c.driveMachine w = c.resetCmdHandler := by simp only [driveMachine, hstate]
  have hinput : c.resetCmdHandler.unread = header ++ body := hunread
  obtain ⟨r, s, hr, heq, hpass⟩ := header_arrives (w := w) c.resetCmdHandler.sock c.resetCmdHandler rfl ht hp (by
    rw [resetCmdHandler]
    split
    · rename_i hbuf
      exact Or.inr ⟨rfl, by simp [hbuf]⟩
    · exact Or.inl rfl) (by rw [hinput, length_append]; omega)
  rw [hinput] at heq
  have hheader : r.take 24 = header := by
    have hfront : (r ++ s.flatten).take 24 = r.take 24 := take_append_of_le_length hr
    rw [← hfront, heq, take_append_of_le_length hlen.ge, ← hlen, take_length]
  have hbody : r.drop 24 ++ s.flatten = body := by
    rw [← drop_append_of_le_length hr, heq, ← hlen, drop_left]
  have hgetD : r.getD 0 0 = 0x80 := by
    rw [← hmagic, ← hheader]
    cases r with
    | nil => simp at hr
    | cons b bs => rfl
  rw [hreset]
  refine EndsIff.of_passes hpass (.of_passes (.one (not_settled (by simp))) ?_)
  rw [driveMachine_header (c := { c.resetCmdHandler with rbuf := r, sock := s, state := .parseCmd }) rfl ht hp hr hgetD]
  have hends := dispatchBinCommand_endsIff (w := w)
    (c := takeHeader { c.resetCmdHandler with rbuf := r, sock := s, state := .parseCmd }) ht hp rfl
  have hrest : (takeHeader { c.resetCmdHandler with rbuf := r, sock := s, state := .parseCmd }).unread = body := by
    rw [← hbody]
    simp [unread, takeHeader, resetCmdHandler, ht]
  rw [hrest] at hends
  subst hheader
  exact hends

/-- A `get` of the key `a`, and then a `noop`: behind the first there is the second. -/
theorem get_framed :
    ∃ c', Until (driveMachine idealWorld) Settled (driveMachine idealWorld (connNew .tcp .binary
        [[0x80, 0, 0, 1, 0, 0, 0, 0, 0, 0, 0, 1] ++ replicate 12 0, 97 :: 0x80 :: 0x0a :: replicate 22 0])) c' ∧
      ((c'.Abandoned ∨ Behind (97 :: 0x80 :: 0x0a :: replicate 22 0)
          (binHeader ([0x80, 0, 0, 1, 0, 0, 0, 0, 0, 0, 0, 1] ++ replicate 12 0)).bodylen.toNat c'.unread) ↔
        Framed idealWorld (connNew .tcp .binary
            [[0x80, 0, 0, 1, 0, 0, 0, 0, 0, 0, 0, 1] ++ replicate 12 0, 97 :: 0x80 :: 0x0a :: replicate 22 0])
          (binHeader ([0x80, 0, 0, 1, 0, 0, 0, 0, 0, 0, 0, 1] ++ replicate 12 0))
          (97 :: 0x80 :: 0x0a :: replicate 22 0)) :=
  request_framed_iff idealWorld _ ([0x80, 0, 0, 1, 0, 0, 0, 0, 0, 0, 0, 1] ++ replicate 12 0)
    (97 :: 0x80 :: 0x0a :: replicate 22 0) rfl rfl rfl (by decide +kernel) (by decide) (by decide)

/-- A `stat` without a key whose header announces 24 bytes, and a `flush` for these bytes: the body is executed. -/
theorem stat_body_executed :
    ∃ c', Until (driveMachine idealWorld) Settled (driveMachine idealWorld (connNew .tcp .binary
        [[0x80, 0x10, 0, 0, 0, 0, 0, 0, 0, 0, 0, 24] ++ replicate 12 0, 0x80 :: 0x08 :: replicate 22 0])) c' ∧
      ¬ (c'.Abandoned ∨ Behind (0x80 :: 0x08 :: replicate 22 0) 24 c'.unread) ∧
      ∃ c'', Until (driveMachine idealWorld) Settled (c'.driveMachine idealWorld) c'' ∧
        c''.log = [.request ⟨0x10, 0, 0, 24, 0⟩, .item [], .request ⟨0x08, 0, 0, 0, 0⟩, .item []] := by
  refine ⟨_, until_runUntil 10 _ (by decide +kernel), ?_, _,
    until_runUntil 10 _ (by decide +kernel), by decide +kernel⟩
  unfold Abandoned Behind
  decide +kernel

end BmcCache
