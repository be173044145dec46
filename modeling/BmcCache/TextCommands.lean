import BmcCache.Connection
import BmcCache.TextParser

/-!
# The commands of the text protocol

`process_command` and the functions it calls, as far as they leave the connection in one state or another.  The
commands that a data block follows are modelled with all their checks: `process_update_command` for `set`, `add`,
`replace`, `append`, `prepend` and `cas`, `process_mset_command` for `ms`, and `complete_nread_ascii`, which takes over
when the block has been read.  Of the other commands each has its way out: a line, a list of items, a closed
connection, a connection that is handed to the logger.

* `safeStrtol`, `safeStrtoul`, `safeStrtoull` — the numbers of `util.c`;
* `dispatch` — the comparisons of `process_command`, in its order;
* `processUpdateCommand`, `metaFlagPreparse`, `msetOptions`, `processMsetCommand`, `completeNreadAscii`;
* `processCommand` — one command line.
-/

namespace BmcCache

/-! ### Numbers -/

/-- The value of an `int` that an integer is assigned to. -/
def toInt32 (n : ℤ) : ℤ := if n % 2 ^ 32 < 2 ^ 31 then n % 2 ^ 32 else n % 2 ^ 32 - 2 ^ 32

@[simp] abbrev intMax : ℤ := 2147483647

def isSpace (b : UInt8) : Bool := b == 32 || (9 ≤ b && b ≤ 13)

def isDigit (b : UInt8) : Bool := 48 ≤ b && b ≤ 57

def digitsValue (digits : Bytes) : ℕ := digits.foldl (fun v b => 10 * v + (b.toNat - 48)) 0

/-- What `strtol` and its relatives read in base ten: the sign, the number and the string from `endptr` on; nothing
when there is no number. -/
def strtoNumber (str : Bytes) : Option (Bool × ℕ × Bytes) :=
  let s := str.dropWhile isSpace
  let negative := decide (s.head? = some 45)
  let s := if s.head? = some 45 ∨ s.head? = some 43 then s.tail else s
  let digits := s.takeWhile isDigit
  if digits = [] then none else some (negative, digitsValue digits, s.dropWhile isDigit)

/-- `xisspace(*endptr) || *endptr == '\0'` -/
def endsNumber (endptr : Bytes) : Bool := endptr.head?.all isSpace

/-- `safe_strtol`: a `long`, assigned to an `int32_t`. -/
def safeStrtol (str : Bytes) : Option ℤ :=
  match strtoNumber str with
  | none => none
  | some (negative, m, endptr) =>
    let l : ℤ := if negative then -m else m
    if l < -2 ^ 63 ∨ 2 ^ 63 ≤ l then none else if endsNumber endptr then some (toInt32 l) else none

def safeStrtoll (str : Bytes) : Option ℤ :=
  match strtoNumber str with
  | none => none
  | some (negative, m, endptr) =>
    let ll : ℤ := if negative then -m else m
    if ll < -2 ^ 63 ∨ 2 ^ 63 ≤ ll then none else if endsNumber endptr then some ll else none

/-- `safe_strtoull`: a minus sign is seen when the number has the top bit. -/
def safeStrtoull (str : Bytes) : Option ℕ :=
  match strtoNumber str with
  | none => none
  | some (negative, m, endptr) =>
    let ull := if negative then (2 ^ 64 - m) % 2 ^ 64 else m
    if 2 ^ 64 ≤ m then none
    else if endsNumber endptr then if 2 ^ 63 ≤ ull ∧ 45 ∈ str then none else some ull
    else none

/-- `safe_strtoul`: an `unsigned long` is as wide, the result is a `uint32_t`. -/
def safeStrtoul (str : Bytes) : Option ℕ := (safeStrtoull str).map (· % 2 ^ 32)

/-! ### Which command -/

def token (cs : List Char) : Bytes := cs.map Char.toUInt8

/-- The functions and branches `process_command` chooses from. -/
inductive Handler where
  | get
  | update (handleCas : Bool)
  | arithmetic
  | mget
  | mset
  | mdelete
  | mnoop
  | metaDebug
  | delete
  | touch
  | stat
  | flushAll
  | version
  | quit
  | shutdown
  | slabs
  | lruCrawler
  | watch
  | memlimit
  | verbosity
  | lru
  | unknown
  deriving DecidableEq, Repr

/-- The number `tokenize_command` returns counts the terminal token. -/
def ntokens (tokens : List Bytes) : ℕ := tokens.length + 1

/-- The comparisons of `process_command`. -/
def dispatch (tokens : List Bytes) : Handler :=
  let n := ntokens tokens
  let command := tokens.getD 0 []
  if 3 ≤ n ∧ (command = token ['g', 'e', 't'] ∨ command = token ['b', 'g', 'e', 't']) then .get
  else if (n = 6 ∨ n = 7) ∧
      (command = token ['a', 'd', 'd'] ∨ command = token ['s', 'e', 't'] ∨
        command = token ['r', 'e', 'p', 'l', 'a', 'c', 'e'] ∨ command = token ['p', 'r', 'e', 'p', 'e', 'n', 'd'] ∨
        command = token ['a', 'p', 'p', 'e', 'n', 'd']) then .update false
  else if (n = 7 ∨ n = 8) ∧ command = token ['c', 'a', 's'] then .update true
  else if (n = 4 ∨ n = 5) ∧ command = token ['i', 'n', 'c', 'r'] then .arithmetic
  else if 3 ≤ n ∧ command = token ['g', 'e', 't', 's'] then .get
  else if 3 ≤ n ∧ command = token ['m', 'g'] then .mget
  else if 3 ≤ n ∧ command = token ['m', 's'] then .mset
  else if 3 ≤ n ∧ command = token ['m', 'd'] then .mdelete
  else if 2 ≤ n ∧ command = token ['m', 'n'] then .mnoop
  else if 2 ≤ n ∧ command = token ['m', 'e'] then .metaDebug
  else if (n = 4 ∨ n = 5) ∧ command = token ['d', 'e', 'c', 'r'] then .arithmetic
  else if 3 ≤ n ∧ n ≤ 5 ∧ command = token ['d', 'e', 'l', 'e', 't', 'e'] then .delete
  else if (n = 4 ∨ n = 5) ∧ command = token ['t', 'o', 'u', 'c', 'h'] then .touch
  else if 4 ≤ n ∧ (command = token ['g', 'a', 't'] ∨ command = token ['g', 'a', 't', 's']) then .get
  else if 2 ≤ n ∧ command = token ['s', 't', 'a', 't', 's'] then .stat
  else if 2 ≤ n ∧ n ≤ 4 ∧ command = token ['f', 'l', 'u', 's', 'h', '_', 'a', 'l', 'l'] then .flushAll
  else if n = 2 ∧ command = token ['v', 'e', 'r', 's', 'i', 'o', 'n'] then .version
  else if n = 2 ∧ command = token ['q', 'u', 'i', 't'] then .quit
  else if n = 2 ∧ command = token ['s', 'h', 'u', 't', 'd', 'o', 'w', 'n'] then .shutdown
  else if 1 < n ∧ command = token ['s', 'l', 'a', 'b', 's'] then .slabs
  else if 1 < n ∧ command = token ['l', 'r', 'u', '_', 'c', 'r', 'a', 'w', 'l', 'e', 'r'] then .lruCrawler
  else if 1 < n ∧ command = token ['w', 'a', 't', 'c', 'h'] then .watch
  else if (n = 3 ∨ n = 4) ∧
      command = token ['c', 'a', 'c', 'h', 'e', '_', 'm', 'e', 'm', 'l', 'i', 'm', 'i', 't'] then .memlimit
  else if (n = 3 ∨ n = 4) ∧ command = token ['v', 'e', 'r', 'b', 'o', 's', 'i', 't', 'y'] then .verbosity
  else if 3 ≤ n ∧ command = token ['l', 'r', 'u'] then .lru
  else .unknown

namespace Conn

/-- `set_noreply_maybe`: the last token; the flag is never taken back. -/
def setNoreplyMaybe (tokens : List Bytes) (c : Conn) : Conn :=
  if tokens.getLast? = some (token ['n', 'o', 'r', 'e', 'p', 'l', 'y']) then { c with noreply := true } else c

/-- `c->item` is a new item: its bytes are read next. -/
def readItem (chunks : Option (List ℕ)) (nbytes : ℤ) (c : Conn) : Conn :=
  { c with chunks := chunks, ritem := [], rlbytes := nbytes, state := .nread }

/-! ### `set`, `add`, `replace`, `append`, `prepend`, `cas` -/

/-- `process_update_command` from `item_alloc` on; without an item the data line is to be swallowed. -/
def updateItem (w : World) (vlen : ℤ) (c : Conn) : Conn :=
  match w.alloc c.log (vlen + 2) with
  | .tooLarge =>
    { c.outString "SERVER_ERROR object too large for cache" with writeAndGo := .swallow, sbytes := vlen + 2 }
  | .noMemory => { c.outOfMemory "out of memory storing object" with writeAndGo := .swallow, sbytes := vlen + 2 }
  | .plain => c.readItem none (vlen + 2)
  | .chunked rooms => c.readItem (some rooms) (vlen + 2)

def processUpdateCommand (w : World) (tokens : List Bytes) (handleCas : Bool) (c : Conn) : Conn :=
  let c := c.setNoreplyMaybe tokens
  if keyMaxLength < (tokens.getD 1 []).length then c.outString "CLIENT_ERROR bad command line format"
  else
    match safeStrtoul (tokens.getD 2 []), safeStrtol (tokens.getD 3 []), safeStrtol (tokens.getD 4 []) with
    | some _, some _, some vlen =>
      if handleCas ∧ safeStrtoull (tokens.getD 5 []) = none then c.outString "CLIENT_ERROR bad command line format"
      else if vlen < 0 ∨ intMax - 2 < vlen then c.outString "CLIENT_ERROR bad command line format"
      else c.updateItem w vlen
    | _, _, _ => c.outString "CLIENT_ERROR bad command line format"

/-! ### `ms` -/

@[simp] abbrev mflagMaxOptLength : ℕ := 20
@[simp] abbrev mflagMaxOpaqueLength : ℕ := 32

/-- The flags `_meta_flag_preparse` knows that a token belongs to. -/
def tokenFlags : Bytes := token ['N', 'T', 'R', 'O', 'F', 'S', 'C']

def plainFlags : Bytes := token ['l', 'k', 's', 't', 'c', 'v', 'f', 'h', 'u', 'q', 'I']

/-- `_meta_flag_preparse` with the flags seen before: the number of tokens and `no_reply`; nothing for a flag that is
unknown or given twice. -/
def metaFlagPreparse : Bytes → Bytes → Option (ℕ × Bool)
  | _, [] => some (0, false)
  | seen, o :: opts =>
    if 127 ≤ o ∨ o ∈ seen then none
    else
      match metaFlagPreparse (o :: seen) opts with
      | none => none
      | some (tokens, noReply) =>
        if o ∈ tokenFlags then some (tokens + 1, noReply)
        else if o ∈ plainFlags then some (tokens, noReply || o == Char.toUInt8 'q')
        else none

/-- The loop of `process_mset_command` over the flags, with the tokens that are left and `vlen`; at `goto error` the
message and the `vlen` of that moment. -/
def msetOptions : Bytes → List Bytes → ℤ → Except (String × ℤ) ℤ
  | [], _, vlen => .ok vlen
  | o :: opts, rtokens, vlen =>
    let arg := rtokens.getD 0 []
    let bad := "CLIENT_ERROR bad command line format"
    if o = Char.toUInt8 'F' ∨ o = Char.toUInt8 'T' then
      if safeStrtoul arg = none then .error (bad, vlen) else msetOptions opts rtokens.tail vlen
    else if o = Char.toUInt8 'C' then
      if safeStrtoull arg = none then .error (bad, vlen) else msetOptions opts rtokens.tail vlen
    else if o = Char.toUInt8 'S' then
      match safeStrtol arg with
      | none => .error (bad, 0)
      | some vlen => msetOptions opts rtokens.tail vlen
    else if o = Char.toUInt8 'O' then
      if mflagMaxOpaqueLength < arg.length then .error ("CLIENT_ERROR opaque token too long", vlen)
      else msetOptions opts rtokens.tail vlen
    else msetOptions opts rtokens vlen

/-- `error:` in `process_mset_command` -/
def msetError (errstr : String) (vlen : ℤ) (c : Conn) : Conn :=
  outErrstring errstr { c with writeAndGo := .swallow, sbytes := vlen }

/-- `process_mset_command` from `item_alloc` on. -/
def msetItem (w : World) (vlen : ℤ) (c : Conn) : Conn :=
  match w.alloc c.log (vlen + 2) with
  | .tooLarge => c.msetError "SERVER_ERROR object too large for cache" (vlen + 2)
  | .noMemory => c.msetError "SERVER_ERROR out of memory storing object" (vlen + 2)
  | .plain => { c with msetRes := true }.readItem none (vlen + 2)
  | .chunked rooms => { c with msetRes := true }.readItem (some rooms) (vlen + 2)

def processMsetCommand (w : World) (tokens : List Bytes) (c : Conn) : Conn :=
  let opts := tokens.getD 2 []
  if keyMaxLength < (tokens.getD 1 []).length then c.outErrstring "CLIENT_ERROR bad command line format"
  else if ntokens tokens = 3 then c.outErrstring "CLIENT_ERROR bad command line format"
  else if mflagMaxOptLength < opts.length then c.outErrstring "CLIENT_ERROR options flags too long"
  else
    match metaFlagPreparse [] opts with
    | none => c.outErrstring "CLIENT_ERROR invalid or duplicate flag"
    | some (mfres, noReply) =>
      if mfres + 4 ≠ ntokens tokens then c.outErrstring "CLIENT_ERROR incorrect number of tokens supplied"
      else
        let c := { c with noreply := noReply }
        match msetOptions opts (tokens.drop 3) 0 with
        | .error (errstr, vlen) => c.msetError errstr vlen
        | .ok vlen =>
          if vlen < 0 ∨ intMax - 2 < vlen then c.msetError "CLIENT_ERROR bad command line format" vlen
          else c.msetItem w vlen

/-! ### The data block has been read -/

def endsInCrlf (item : Bytes) : Bool := decide (item.drop (item.length - 2) = [cr, lf])

/-- The answer of `complete_nread_ascii` to a command of the meta family. -/
def answerMset (ret : StoreItemType) (c : Conn) : Conn :=
  match ret with
  | .stored => c.outMstring "ST " true
  | .exists => c.outMstring "EX " false
  | .notFound => c.outMstring "NF " false
  | .notStored => c.outMstring "NS " false
  | _ => { c with noreply := false }.outString "SERVER_ERROR Unhandled storage type."

/-- The answer of `complete_nread_ascii` to the other commands. -/
def answerUpdate (ret : StoreItemType) (c : Conn) : Conn :=
  match ret with
  | .stored => c.outString "STORED"
  | .exists => c.outString "EXISTS"
  | .notFound => c.outString "NOT_FOUND"
  | .notStored => c.outString "NOT_STORED"
  | _ => c.outString "SERVER_ERROR Unhandled storage type."

def completeNreadAscii (w : World) (c : Conn) : Conn :=
  let answered :=
    if endsInCrlf c.ritem then
      if c.msetRes then c.answerMset (w.storeItem c.log) else c.answerUpdate (w.storeItem c.log)
    else (if c.msetRes then { c with noreply := false } else c).outString "CLIENT_ERROR bad data chunk"
  { answered with msetRes := false, chunks := none }

/-! ### The other commands -/

/-- `process_get_command`: the list of items, or a line if a key is too long or memory runs out. -/
def answerGet (w : World) (c : Conn) : Conn :=
  if w.served c.log then { c with reply := .data, state := .mwrite } else c.outString (w.answer c.log)

def processMgetCommand (w : World) (tokens : List Bytes) (c : Conn) : Conn :=
  let opts := if ntokens tokens = 3 then token ['s', 'f', 't', 'v'] else tokens.getD 2 []
  let rtokens := if ntokens tokens = 3 then 3 else 4
  if keyMaxLength < (tokens.getD 1 []).length then c.outErrstring "CLIENT_ERROR bad command line format"
  else if mflagMaxOptLength < opts.length then c.outErrstring "CLIENT_ERROR options flags are too long"
  else
    match metaFlagPreparse [] opts with
    | none => c.outErrstring "CLIENT_ERROR invalid or duplicate flag"
    | some (mfres, noReply) =>
      if mfres + rtokens ≠ ntokens tokens then c.outErrstring "CLIENT_ERROR incorrect number of tokens supplied"
      else
        let c := { c with noreply := noReply }
        if w.refused c.log then c.outErrstring (w.answer c.log)
        else if w.served c.log then { c with reply := .data, state := .write, writeAndGo := .newCmd }
        else c.outString "EN"

def processMdeleteCommand (w : World) (tokens : List Bytes) (c : Conn) : Conn :=
  let opts := if ntokens tokens = 3 then [] else tokens.getD 2 []
  let rtokens := if ntokens tokens = 3 then 3 else 4
  if keyMaxLength < (tokens.getD 1 []).length then c.outString "CLIENT_ERROR bad command line format"
  else if mflagMaxOptLength < opts.length then c.outString "CLIENT_ERROR options flags too long"
  else
    match metaFlagPreparse [] opts with
    | none => c.outErrstring "CLIENT_ERROR invalid or duplicate flag"
    | some (mfres, noReply) =>
      if mfres + rtokens ≠ ntokens tokens then c.outErrstring "CLIENT_ERROR incorrect number of tokens supplied"
      else
        let c := { c with noreply := noReply }
        if w.refused c.log then c.outErrstring (w.answer c.log)
        else
          match w.storeItem c.log with
          | .exists => c.outMstring "EX " false
          | .notFound => c.outMstring "NF " true
          | _ => c.outMstring "DE " true

/-- `write_and_free`, and the line a statistic is answered with otherwise. -/
def answerStat (w : World) (c : Conn) : Conn :=
  if w.served c.log then { c with reply := .data, state := .write, writeAndGo := .newCmd }
  else c.outString (w.answer c.log)

/-- The branch of `lru_crawler`; the dump hands the connection over. -/
def processLruCrawler (w : World) (tokens : List Bytes) (c : Conn) : Conn :=
  if ntokens tokens = 4 ∧ tokens.getD 1 [] = token ['m', 'e', 't', 'a', 'd', 'u', 'm', 'p'] ∧ w.served c.log then
    { c.outString "OK" with state := .watch }
  else c.outString (w.answer c.log)

def processWatchCommand (w : World) (tokens : List Bytes) (c : Conn) : Conn :=
  let c := c.setNoreplyMaybe tokens
  if w.served c.log then { c with state := .watch } else c.outString (w.answer c.log)

/-- The branch of `slabs` -/
def processSlabs (w : World) (tokens : List Bytes) (c : Conn) : Conn :=
  if 4 ≤ ntokens tokens ∧ tokens.getD 1 [] = token ['a', 'u', 't', 'o', 'm', 'o', 'v', 'e'] then
    (c.setNoreplyMaybe tokens).outString (w.answer c.log)
  else c.outString (w.answer c.log)

/-- The last branch of `process_command` -/
def processUnknown (tokens : List Bytes) (c : Conn) : Conn :=
  if 2 ≤ ntokens tokens ∧ (tokens.getLastD []).take 5 = token ['H', 'T', 'T', 'P', '/']
    then { c with state := .closing }
  else c.outString "ERROR"

/-- `process_command` behind the tokenizer. -/
def processTokens (w : World) (tokens : List Bytes) (c : Conn) : Conn :=
  match dispatch tokens with
  | .get => c.answerGet w
  | .update handleCas => c.processUpdateCommand w tokens handleCas
  | .mget => c.processMgetCommand w tokens
  | .mset => c.processMsetCommand w tokens
  | .mdelete => c.processMdeleteCommand w tokens
  | .mnoop => c.outString "EN"
  | .metaDebug | .stat => c.answerStat w
  | .delete =>
    (if 3 < ntokens tokens then c.setNoreplyMaybe tokens else c).outString (w.answer c.log)
  | .arithmetic | .touch | .flushAll | .memlimit | .verbosity | .lru =>
    (c.setNoreplyMaybe tokens).outString (w.answer c.log)
  | .version => c.outString (w.answer c.log)
  | .quit => { c with state := .closing }
  | .shutdown =>
    if w.served c.log then { c with state := .closing } else c.outString "ERROR: shutdown not enabled"
  | .slabs => c.processSlabs w tokens
  | .lruCrawler => c.processLruCrawler w tokens
  | .watch => c.processWatchCommand w tokens
  | .unknown => c.processUnknown tokens

def processCommand (w : World) (command : Bytes) (c : Conn) : Conn :=
  processTokens w (tokenizeCommand command).1 { c with log := c.log ++ [.command command] }

end Conn

end BmcCache
