import BmcCache.Common
import Mathlib.Algebra.Order.Group.Int

/-!
# A connection of memcached

The `conn` structure as far as it decides which bytes the server takes for a command, which for data and which it
throws away: the input that waits in the buffer and in the socket, the counters `rlbytes` and `sbytes` of the states
`conn_nread` and `conn_swallow`, and the fields `write_and_go` and `noreply` by which the functions that answer a
request choose the next state.

* `Conn.sock` is what will arrive: the segments of a TCP stream as `read` finds them, or one element for each
  datagram.  `Conn.recv` is `c->read`, plain `read(2)` for both.
* `World` holds every answer the connection does not determine itself: memory, the store, the outcome of `sendmsg`.
  An answer may depend on everything that has been executed so far, which `Conn.log` records.
* `outString`, `outErrstring`, `outMstring`, `outOfMemory`, `writeBinError`, `writeBinResponse` — the functions that
  answer.
* `takeItemBytes`, `readIntoChunkedItem`, `swallow` — the bytes a state takes.
-/

namespace BmcCache

inductive Transport where
  | tcp
  | udp
  deriving DecidableEq, Repr

inductive Protocol where
  | ascii
  | binary
  deriving DecidableEq, Repr

/-- `enum conn_states`, without the listening socket. -/
inductive ConnState where
  | newCmd
  | waiting
  | read
  | parseCmd
  | write
  | nread
  | swallow
  | closing
  | mwrite
  | closed
  | watch
  deriving DecidableEq, Repr

/-- `enum bin_substates`, without the one no function uses. -/
inductive BinSubstate where
  | noState
  | readingSetHeader
  | readSetValue
  | readingGetKey
  | readingStat
  | readingDelHeader
  | readingIncrHeader
  | readFlushExptime
  | readingSaslAuth
  | readingSaslAuthData
  | readingTouchKey
  deriving DecidableEq, Repr

/-- The fields of a binary request header that the server reads. -/
structure BinHeader where
  opcode : UInt8
  keylen : UInt16
  extlen : UInt8
  bodylen : UInt32
  cas : UInt64
  deriving DecidableEq, Repr

/-- The commands of the binary protocol, each for itself and its quiet variant. -/
inductive BinCmd where
  | get
  | set
  | add
  | replace
  | delete
  | increment
  | decrement
  | quit
  | flush
  | noop
  | version
  | getk
  | append
  | prepend
  | stat
  | touch
  | gat
  | gatk
  | saslListMechs
  | saslAuth
  | saslStep
  | unknown
  deriving DecidableEq, Repr

/-- `protocol_binary_response_status`, the errors. -/
inductive BinStatus where
  | keyEnoent
  | keyEexists
  | e2big
  | einval
  | notStored
  | deltaBadval
  | authError
  | unknownCommand
  | enomem
  deriving DecidableEq, Repr

/-- What goes out: a line, the status of a meta command, an error of the binary protocol, or data. -/
inductive ConnReply where
  | line (text : String)
  | statusLine (status : String)
  | error (status : BinStatus) (text : String)
  | data
  deriving DecidableEq, Repr

/-- What a connection executes: a command line, a binary request, and the bytes read for one of them. -/
inductive ConnEvent where
  | command (line : Bytes)
  | request (header : BinHeader)
  | item (bytes : Bytes)
  deriving DecidableEq, Repr

/-! ### What the connection is told -/

/-- `item_alloc`: an item, an item of chunks, or no item with the answer of `item_size_ok`.  The chunks are given by
the room in each, one after the other until `do_item_alloc_chunk` fails. -/
inductive Alloc where
  | plain
  | chunked (rooms : List ℕ)
  | tooLarge
  | noMemory
  deriving DecidableEq, Repr

/-- `enum store_item_type` -/
inductive StoreItemType where
  | notStored
  | stored
  | exists
  | notFound
  | tooLarge
  | noMemory
  deriving DecidableEq, Repr

/-- `enum delta_result_type` -/
inductive DeltaResultType where
  | ok
  | nonNumeric
  | eom
  | itemNotFound
  | itemCasMismatch
  deriving DecidableEq, Repr

/-- The answers of everything outside the connection, after what has been executed. -/
structure World where
  /-- `settings.sasl` -/
  sasl : Bool
  /-- `item_alloc` for a size that is not rejected at once -/
  itemAlloc : List ConnEvent → ℤ → Alloc
  /-- `store_item`, and for a delete whether the item is there -/
  storeItem : List ConnEvent → StoreItemType
  /-- `add_delta` -/
  addDelta : List ConnEvent → DeltaResultType
  /-- whether the command finds what it asks for or is carried out -/
  served : List ConnEvent → Bool
  /-- whether an argument is refused where that is not modelled -/
  refused : List ConnEvent → Bool
  /-- the line a command answers with where that is not modelled -/
  answer : List ConnEvent → String
  /-- `sendmsg` fails for good -/
  sendFails : List ConnEvent → Bool
  /-- the input buffer cannot be grown -/
  growFails : List ConnEvent → Bool

/-- `item_alloc` and `item_size_ok`: less than two bytes are rejected by both. -/
def World.alloc (w : World) (log : List ConnEvent) (nbytes : ℤ) : Alloc :=
  if nbytes < 2 then .tooLarge else w.itemAlloc log nbytes

/-! ### The connection -/

/-- `struct conn` -/
structure Conn where
  transport : Transport
  protocol : Protocol
  state : ConnState
  substate : BinSubstate
  /-- the `rbytes` bytes from `rcurr` on -/
  rbuf : Bytes
  /-- `rbuf[0]` -/
  rbuf0 : UInt8
  rsize : ℕ
  rsize_pos : 0 < rsize
  sock : List Bytes
  rlbytes : ℤ
  /-- what has been copied to `ritem` -/
  ritem : Bytes
  /-- the room in the chunks of `item`, if it has chunks -/
  chunks : Option (List ℕ)
  sbytes : ℤ
  writeAndGo : ConnState
  noreply : Bool
  msetRes : Bool
  header : BinHeader
  cmd : BinCmd
  authenticated : Bool
  reply : ConnReply
  log : List ConnEvent

namespace Conn

/-! ### Answering -/

def outString (str : String) (c : Conn) : Conn :=
  if c.noreply then { c with noreply := false, state := .newCmd }
  else { c with reply := .line str, state := .write, writeAndGo := .newCmd }

def outErrstring (str : String) (c : Conn) : Conn := outString str { c with noreply := false }

def outMstring (status : String) (useNoreply : Bool) (c : Conn) : Conn :=
  if c.noreply && useNoreply then { c with noreply := false, state := .newCmd }
  else { c with reply := .statusLine status, state := .write, writeAndGo := .newCmd }

/-- The texts of `write_bin_error`. -/
def binErrorText : BinStatus → String
  | .enomem => "Out of memory"
  | .unknownCommand => "Unknown command"
  | .keyEnoent => "Not found"
  | .einval => "Invalid arguments"
  | .keyEexists => "Data exists for key."
  | .e2big => "Too large."
  | .deltaBadval => "Non-numeric server-side value for incr or decr"
  | .notStored => "Not stored."
  | .authError => "Auth failure."

def writeBinError (err : BinStatus) (errstr : Option String) (swallow : ℤ) (c : Conn) : Conn :=
  let c := { c with reply := .error err (errstr.getD (binErrorText err)), state := .mwrite }
  if 0 < swallow then { c with sbytes := swallow, writeAndGo := .swallow } else { c with writeAndGo := .newCmd }

def writeBinResponse (c : Conn) : Conn :=
  if !c.noreply ∨ c.cmd = .get ∨ c.cmd = .getk then
    { c with reply := .data, state := .mwrite, writeAndGo := .newCmd }
  else { c with state := .newCmd }

/-- `out_of_memory`; a binary error goes without `"SERVER_ERROR "`. -/
def outOfMemory (error : String) (c : Conn) : Conn :=
  match c.protocol with
  | .binary => writeBinError .enomem (some error) 0 c
  | .ascii => outString ("SERVER_ERROR " ++ error) c

/-! ### Input -/

/-- `c->read` with room for `len` bytes: what it returns, `none` for `EAGAIN`, and the socket behind it.  A datagram
is gone with the first read. -/
def recv (len : ℕ) (c : Conn) : Option Bytes × List Bytes :=
  match c.transport, c.sock with
  | .tcp, [] => (some [], [])
  | .tcp, [] :: segs => (none, segs)
  | .tcp, seg :: segs => (some (seg.take len), if seg.length ≤ len then segs else seg.drop len :: segs)
  | .udp, [] => (none, [])
  | .udp, d :: ds => (some (d.take len), ds)

def withInput (rbuf : Bytes) (sock : List Bytes) (c : Conn) : Conn := { c with rbuf := rbuf, sock := sock }

/-- The connection behind `bytes` that have been copied to `ritem`. -/
def advance (bytes rbuf : Bytes) (sock : List Bytes) (c : Conn) : Conn :=
  { c.withInput rbuf sock with ritem := c.ritem ++ bytes, rlbytes := c.rlbytes - bytes.length }

/-- `conn_nread` without chunks: the leftovers in the buffer. -/
def takeLeftovers (c : Conn) : Conn :=
  let tocopy := min c.rbuf.length c.rlbytes.toNat
  c.advance (c.rbuf.take tocopy) (c.rbuf.drop tocopy) c.sock

/-- `conn_nread` without chunks: the read from the socket. -/
def takeFromSocket (c : Conn) : Conn :=
  match c.recv c.rlbytes.toNat with
  | (none, sock) => c.withInput c.rbuf sock
  | (some [], sock) => { c.withInput c.rbuf sock with state := .closing }
  | (some bytes, sock) => c.advance bytes c.rbuf sock

/-- `conn_nread` without chunks -/
def takeItemBytes (c : Conn) : Conn :=
  if c.takeLeftovers.rlbytes = 0 then c.takeLeftovers else c.takeLeftovers.takeFromSocket

/-- `conn_nread` when a chunk could not be allocated. -/
def nreadOutOfMemory (c : Conn) : Conn :=
  { outOfMemory "Out of memory during read" c with sbytes := c.rlbytes, writeAndGo := .swallow, msetRes := false }

/-- The end of `read_into_chunked_item`: the binary protocol puts two more bytes behind the value. -/
def roomForEnd (c : Conn) : Conn :=
  if c.rlbytes = 0 ∧ c.protocol = .binary then
    match c.chunks with
    | some (room :: rooms) =>
      if 2 ≤ room then c
      else if rooms = [] then nreadOutOfMemory { c with chunks := some [] }
      else { c with chunks := some rooms }
    | _ => c
  else c

/-- Bytes for the chunk that has room for `unused`. -/
def fillChunk (unused : ℕ) (rooms : List ℕ) (bytes rbuf : Bytes) (sock : List Bytes)
    (c : Conn) : Conn :=
  roomForEnd { c.advance bytes rbuf sock with chunks := some ((unused - bytes.length) :: rooms) }

/-- One pass through the loop of `read_into_chunked_item` with the room in the chunks: the next chunk, leftovers in
the buffer, or the socket. -/
def readIntoChunkedItem (rooms : List ℕ) (c : Conn) : Conn :=
  match rooms with
  | [] => nreadOutOfMemory c
  | 0 :: rooms => { c with chunks := some rooms }
  | unused :: rooms =>
    let tocopy := min c.rlbytes.toNat unused
    if c.rbuf ≠ [] then c.fillChunk unused rooms (c.rbuf.take tocopy) (c.rbuf.drop tocopy) c.sock
    else
      match c.recv tocopy with
      | (none, sock) => c.withInput c.rbuf sock
      | (some [], sock) => { c.withInput c.rbuf sock with state := .closing }
      | (some bytes, sock) => c.fillChunk unused rooms bytes c.rbuf sock

/-- `conn_swallow` -/
def swallow (c : Conn) : Conn :=
  if c.sbytes ≤ 0 then { c with state := .newCmd }
  else if c.rbuf ≠ [] then
    let tocopy := min c.rbuf.length c.sbytes.toNat
    { c.withInput (c.rbuf.drop tocopy) c.sock with sbytes := c.sbytes - tocopy }
  else
    match c.recv (min c.rsize c.sbytes.toNat) with
    | (none, sock) => c.withInput c.rbuf sock
    | (some [], sock) => { c.withInput c.rbuf sock with state := .closing }
    | (some bytes, sock) => { c.withInput c.rbuf sock with sbytes := c.sbytes - bytes.length }

end Conn

end BmcCache
