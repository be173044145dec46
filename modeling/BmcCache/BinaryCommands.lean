import BmcCache.TextCommands

/-!
# The commands of the binary protocol

`try_read_command_binary`, `dispatch_bin_command` and the functions that `complete_nread_binary` calls when the bytes
of a substate have been read.  A request is a header of 24 bytes, extras, a key and a value; `bodylen` counts the last
three.  Each command decides for itself how much of the body it reads: `bin_read_key` asks for the key and a number of
extra bytes, the value is what remains as an `int`, and the error paths leave a number of bytes to `conn_swallow`.

* `binHeader`, `binCmd` — the header and its opcode;
* `dispatchBinCommand` — the checks of each opcode;
* `processBinUpdate`, `processBinAppendPrepend`, `processBinSaslAuth` — the commands with a value;
* `completeNreadBinary` — what follows the bytes of each substate.
-/

namespace BmcCache

/-! ### The header -/

def ofNetwork (bytes : Bytes) : ℕ := bytes.foldl (fun v b => 256 * v + b.toNat) 0

/-- `protocol_binary_request_header` from its 24 bytes. -/
def binHeader (bytes : Bytes) : BinHeader where
  opcode := bytes.getD 1 0
  keylen := UInt16.ofNat (ofNetwork ((bytes.drop 2).take 2))
  extlen := bytes.getD 4 0
  bodylen := UInt32.ofNat (ofNetwork ((bytes.drop 8).take 4))
  cas := UInt64.ofNat (ofNetwork ((bytes.drop 16).take 8))

/-- The command of an opcode, and whether the opcode is the quiet variant. -/
def binCmd (opcode : UInt8) : BinCmd × Bool :=
  match opcode.toNat with
  | 0x00 => (.get, false)
  | 0x01 => (.set, false)
  | 0x02 => (.add, false)
  | 0x03 => (.replace, false)
  | 0x04 => (.delete, false)
  | 0x05 => (.increment, false)
  | 0x06 => (.decrement, false)
  | 0x07 => (.quit, false)
  | 0x08 => (.flush, false)
  | 0x09 => (.get, true)
  | 0x0a => (.noop, false)
  | 0x0b => (.version, false)
  | 0x0c => (.getk, false)
  | 0x0d => (.getk, true)
  | 0x0e => (.append, false)
  | 0x0f => (.prepend, false)
  | 0x10 => (.stat, false)
  | 0x11 => (.set, true)
  | 0x12 => (.add, true)
  | 0x13 => (.replace, true)
  | 0x14 => (.delete, true)
  | 0x15 => (.increment, true)
  | 0x16 => (.decrement, true)
  | 0x17 => (.quit, true)
  | 0x18 => (.flush, true)
  | 0x19 => (.append, true)
  | 0x1a => (.prepend, true)
  | 0x1c => (.touch, false)
  | 0x1d => (.gat, false)
  | 0x1e => (.gat, true)
  | 0x20 => (.saslListMechs, false)
  | 0x21 => (.saslAuth, false)
  | 0x22 => (.saslStep, false)
  | 0x23 => (.gatk, false)
  | 0x24 => (.gatk, true)
  | _ => (.unknown, false)

namespace Conn

/-! ### The checks of a request -/

def handleBinaryProtocolError (c : Conn) : Conn :=
  { c.writeBinError .einval none 0 with writeAndGo := .closing }

def binReadKey (w : World) (next : BinSubstate) (extra : ℕ) (c : Conn) : Conn :=
  let c := { c with substate := next, rlbytes := c.header.keylen.toNat + extra }
  if w.growFails c.log then { c with state := .closing } else { c with ritem := [], state := .nread }

/-- `authenticated` -/
def isAuthenticated (c : Conn) : Bool :=
  match c.cmd with
  | .saslListMechs | .saslAuth | .saslStep | .version => true
  | _ => c.authenticated

def binListSaslMechs (w : World) (c : Conn) : Conn :=
  if w.sasl then
    if w.served c.log then c.writeBinResponse else c.writeBinError .authError none 0
  else c.writeBinError .unknownCommand none (toInt32 (c.header.bodylen.toNat - c.header.keylen.toNat))

/-- The second `switch` of `dispatch_bin_command`: each command and the lengths it accepts. -/
def dispatchBinCmd (w : World) (c : Conn) : Conn :=
  let extlen := c.header.extlen.toNat
  let keylen := c.header.keylen.toNat
  let bodylen := c.header.bodylen.toNat
  match c.cmd with
  | .version | .noop =>
    if extlen = 0 ∧ keylen = 0 ∧ bodylen = 0 then c.writeBinResponse else c.handleBinaryProtocolError
  | .flush =>
    if keylen = 0 ∧ bodylen = extlen ∧ (extlen = 0 ∨ extlen = 4) then c.binReadKey w .readFlushExptime extlen
    else c.handleBinaryProtocolError
  | .set | .add | .replace =>
    if extlen = 8 ∧ keylen ≠ 0 ∧ keylen + 8 ≤ bodylen then c.binReadKey w .readingSetHeader 8
    else c.handleBinaryProtocolError
  | .get | .getk =>
    if extlen = 0 ∧ bodylen = keylen ∧ 0 < keylen then c.binReadKey w .readingGetKey 0
    else c.handleBinaryProtocolError
  | .delete =>
    if 0 < keylen ∧ extlen = 0 ∧ bodylen = keylen then c.binReadKey w .readingDelHeader extlen
    else c.handleBinaryProtocolError
  | .increment | .decrement =>
    if 0 < keylen ∧ extlen = 20 ∧ bodylen = keylen + extlen then c.binReadKey w .readingIncrHeader 20
    else c.handleBinaryProtocolError
  | .append | .prepend =>
    if 0 < keylen ∧ extlen = 0 then c.binReadKey w .readingSetHeader 0 else c.handleBinaryProtocolError
  | .stat => if extlen = 0 then c.binReadKey w .readingStat 0 else c.handleBinaryProtocolError
  | .quit =>
    if keylen = 0 ∧ extlen = 0 ∧ bodylen = 0 then
      let c := { c.writeBinResponse with writeAndGo := .closing }
      if c.noreply then { c with state := .closing } else c
    else c.handleBinaryProtocolError
  | .saslListMechs =>
    if extlen = 0 ∧ keylen = 0 ∧ bodylen = 0 then c.binListSaslMechs w else c.handleBinaryProtocolError
  | .saslAuth | .saslStep =>
    if extlen = 0 ∧ keylen ≠ 0 then c.binReadKey w .readingSaslAuth 0 else c.handleBinaryProtocolError
  | .touch | .gat | .gatk =>
    if extlen = 4 ∧ keylen ≠ 0 then c.binReadKey w .readingTouchKey 4 else c.handleBinaryProtocolError
  | .unknown => c.writeBinError .unknownCommand none (toInt32 bodylen)

def dispatchBinCommand (w : World) (c : Conn) : Conn :=
  let extlen := c.header.extlen.toNat
  let keylen := c.header.keylen.toNat
  let bodylen := c.header.bodylen.toNat
  if bodylen < keylen ∨ bodylen < keylen + extlen then
    { c.writeBinError .unknownCommand none 0 with writeAndGo := .closing }
  else if w.sasl ∧ ¬ c.isAuthenticated then
    { c.writeBinError .authError none 0 with writeAndGo := .closing }
  else
    let quiet := (binCmd c.header.opcode).2
    if keyMaxLength < keylen then { c with noreply := true }.handleBinaryProtocolError
    else { c with noreply := quiet }.dispatchBinCmd w

def tryReadCommandBinary (w : World) (c : Conn) : Conn :=
  if c.rbuf.length < 24 then { c with state := .waiting }
  else if c.rbuf.getD 0 0 ≠ 0x80 then { c with state := .closing }
  else
    let header := binHeader (c.rbuf.take 24)
    let c : Conn :=
      { c with
        header := header
        cmd := (binCmd header.opcode).1
        rbuf := c.rbuf.drop 24
        log := c.log ++ [.request header] }
    c.dispatchBinCommand w

/-! ### The commands with a value -/

/-- The value of `vlen` bytes that `process_bin_update` and `process_bin_append_prepend` read into an item. -/
def readBinValue (w : World) (vlen : ℤ) (c : Conn) : Conn :=
  match w.alloc c.log (toInt32 (vlen + 2)) with
  | .tooLarge => { c.writeBinError .e2big none vlen with writeAndGo := .swallow }
  | .noMemory => { c.outOfMemory "Out of memory allocating item" with sbytes := vlen, writeAndGo := .swallow }
  | .plain => { c.readItem none vlen with substate := .readSetValue }
  | .chunked rooms => { c.readItem (some rooms) vlen with substate := .readSetValue }

def processBinUpdate (w : World) (c : Conn) : Conn :=
  c.readBinValue w (toInt32 (c.header.bodylen.toNat - (c.header.keylen.toNat + c.header.extlen.toNat)))

def processBinAppendPrepend (w : World) (c : Conn) : Conn :=
  c.readBinValue w (toInt32 (c.header.bodylen.toNat - c.header.keylen.toNat))

def completeUpdateBin (w : World) (c : Conn) : Conn :=
  let eno : BinStatus :=
    if c.header.cas ≠ 0 then .notStored
    else match c.cmd with
      | .add => .keyEexists
      | .replace => .keyEnoent
      | _ => .notStored
  let answered :=
    match w.storeItem c.log with
    | .stored => c.writeBinResponse
    | .exists => c.writeBinError .keyEexists none 0
    | .notFound => c.writeBinError .keyEnoent none 0
    | .notStored | .tooLarge | .noMemory => c.writeBinError eno none 0
  { answered with chunks := none }

@[simp] abbrev maxSaslMechLen : ℕ := 32

def processBinSaslAuth (w : World) (c : Conn) : Conn :=
  let nkey := c.header.keylen.toNat
  let vlen := toInt32 (c.header.bodylen.toNat - nkey)
  if w.sasl then
    if maxSaslMechLen < nkey then { c.writeBinError .einval none vlen with writeAndGo := .swallow }
    else
      match w.alloc c.log (toInt32 (vlen + 2)) with
      | .plain => { c.readItem none vlen with substate := .readingSaslAuthData }
      | _ => { c.writeBinError .enomem none vlen with writeAndGo := .swallow }
  else c.writeBinError .unknownCommand none vlen

/-- `process_bin_complete_sasl_auth`; the item is as large as it was asked for. -/
def processBinCompleteSaslAuth (w : World) (c : Conn) : Conn :=
  if w.served c.log then { c with authenticated := true }.writeBinResponse
  else if w.refused c.log then c.writeBinError .authError none 0
  else { c with reply := .data, state := .mwrite, writeAndGo := .newCmd }

/-! ### The commands with a key -/

def processBinGetOrTouch (w : World) (c : Conn) : Conn :=
  if w.served c.log then { c with reply := .data, state := .mwrite, writeAndGo := .newCmd }
  else if c.noreply then { c with state := .newCmd }
  else if c.cmd = .getk ∨ c.cmd = .gatk then { c with reply := .data, state := .mwrite, writeAndGo := .newCmd }
  else c.writeBinError .keyEnoent none 0

def processBinStat (w : World) (c : Conn) : Conn :=
  if w.served c.log then { c with reply := .data, state := .write, writeAndGo := .newCmd }
  else if w.refused c.log then c.writeBinError .keyEnoent none 0
  else c.outOfMemory "Out of memory generating stats"

def processBinDelete (w : World) (c : Conn) : Conn :=
  match w.storeItem c.log with
  | .stored => c.writeBinResponse
  | .exists => c.writeBinError .keyEexists none 0
  | _ => c.writeBinError .keyEnoent none 0

/-- `complete_incr_bin`: delta, initial value and expiration come before the key. -/
def completeIncrBin (w : World) (c : Conn) : Conn :=
  let initial := ofNetwork ((c.ritem.drop 8).take 8)
  let expiration := ofNetwork ((c.ritem.drop 16).take 4)
  match w.addDelta c.log with
  | .ok => c.writeBinResponse
  | .nonNumeric => c.writeBinError .deltaBadval none 0
  | .eom => c.outOfMemory "Out of memory incrementing value"
  | .itemNotFound =>
    if expiration ≠ 0xffffffff then
      match w.alloc c.log ((Nat.toDigits 10 initial).length + 2) with
      | .plain | .chunked _ =>
        -- any answer of `store_item` but `NOT_STORED` counts as stored here
        if w.storeItem c.log ≠ .notStored then c.writeBinResponse else c.writeBinError .notStored none 0
      | _ => c.outOfMemory "Out of memory allocating new item"
    else c.writeBinError .keyEnoent none 0
  | .itemCasMismatch => c.writeBinError .keyEexists none 0

def processBinFlush (w : World) (c : Conn) : Conn :=
  if w.served c.log then c.writeBinResponse else c.writeBinError .authError none 0

def completeNreadBinary (w : World) (c : Conn) : Conn :=
  match c.substate with
  | .readingSetHeader =>
    if c.cmd = .append ∨ c.cmd = .prepend then c.processBinAppendPrepend w else c.processBinUpdate w
  | .readSetValue => c.completeUpdateBin w
  | .readingGetKey | .readingTouchKey => c.processBinGetOrTouch w
  | .readingStat => c.processBinStat w
  | .readingDelHeader => c.processBinDelete w
  | .readingIncrHeader => c.completeIncrBin w
  | .readFlushExptime => c.processBinFlush w
  | .readingSaslAuth => c.processBinSaslAuth w
  | .readingSaslAuthData => c.processBinCompleteSaslAuth w
  | .noState => c

end Conn

end BmcCache
