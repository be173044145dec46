import BmcCache.BinaryCommands

/-!
# The state machine of a connection

`driveMachine` is one pass through the loop of `drive_machine`.  The limit on requests in one event and the return to
the event loop change no field of the connection that is modelled, so a run is simply a sequence of passes.

* `driveMachine` and the states it branches to;
* `connNew` — where a run begins;
* `Settled` — a command is over;
* `unread` — the input no state has taken yet: of a stream all that will arrive, of a datagram what is left in the
  buffer.
-/

namespace BmcCache

namespace Conn

/-! ### One pass -/

def completeNread (w : World) (c : Conn) : Conn :=
  let c : Conn := { c with log := c.log ++ [.item c.ritem] }
  match c.protocol with
  | .ascii => c.completeNreadAscii w
  | .binary => c.completeNreadBinary w

/-- `conn_nread` -/
def nread (w : World) (c : Conn) : Conn :=
  if c.rlbytes = 0 then c.completeNread w
  else if c.rlbytes < 0 then { c with state := .closing }
  else
    match c.chunks with
    | none => c.takeItemBytes
    | some rooms => c.readIntoChunkedItem rooms

/-- `conn_write` and `conn_mwrite`: the reply is sent, or `transmit` meets a hard error. -/
def sendReply (w : World) (c : Conn) : Conn :=
  if w.sendFails c.log then
    match c.transport with
    | .udp => { c with state := .read }
    | .tcp => { c with state := .closing }
  else if c.state = .mwrite then
    match c.protocol with
    | .binary => { c with chunks := none, state := c.writeAndGo }
    | .ascii => { c with chunks := none, state := .newCmd }
  else { c with state := c.writeAndGo }

def resetCmdHandler (c : Conn) : Conn :=
  { c with substate := .noState, chunks := none, state := if c.rbuf = [] then .waiting else .parseCmd }

/-- `conn_read` with `try_read_udp`; what the buffer held is overwritten. -/
def readUdp (c : Conn) : Conn :=
  match c.sock with
  | [] => { c with state := .waiting }
  | d :: ds =>
    let buf := d.take c.rsize
    match tryReadUdp buf with
    | some text => { c with sock := ds, rbuf := text, rbuf0 := text.headD 0, state := .parseCmd }
    | none =>
      if 8 < buf.length then
        -- the answer is prepared and forgotten
        { c.outString "SERVER_ERROR multi-packet request not supported" with sock := ds, state := .waiting }
      else { c with sock := ds, state := .waiting }

/-- `conn_read` with `try_read_network` -/
def readNetwork (c : Conn) : Conn :=
  match c.sock with
  | [] => { c with state := .closing }
  | seg :: segs =>
    { c with sock := segs, rbuf := c.rbuf ++ seg, state := if seg = [] then .waiting else .parseCmd }

/-- `conn_parse_cmd`: `try_read_command` of the connection's protocol.  The line leaves the buffer before the command
is processed; no command looks at what follows it. -/
def tryReadCommand (w : World) (c : Conn) : Conn :=
  let found :=
    match c.transport, c.protocol with
    | .udp, _ => tryReadCommandUdp c.rbuf0 c.rbuf
    | .tcp, .ascii => tryReadCommandAscii c.rbuf
    | .tcp, .binary => .binary
  match found with
  | .binary => { c with protocol := .binary }.tryReadCommandBinary w
  | .line command rest => { c with protocol := .ascii, rbuf := rest }.processCommand w command
  | .incomplete => { c with protocol := .ascii, state := .waiting }
  | .close => { c with protocol := .ascii, state := .closing }

/-- One pass through the loop of `drive_machine`. -/
def driveMachine (w : World) (c : Conn) : Conn :=
  match c.state with
  | .waiting => { c with state := .read }
  | .read =>
    match c.transport with
    | .udp => c.readUdp
    | .tcp => c.readNetwork
  | .parseCmd => c.tryReadCommand w
  | .newCmd => c.resetCmdHandler
  | .nread => c.nread w
  | .swallow => c.swallow
  | .write | .mwrite => c.sendReply w
  | .closing =>
    match c.transport with
    -- `conn_cleanup`
    | .udp => { c with chunks := none, state := .read }
    | .tcp => { c with chunks := none, state := .closed }
  | .closed | .watch => c

/-- The command is over: the next one is looked for, or the connection or the datagram is given up. -/
def Settled (c : Conn) : Prop := c.state = .newCmd ∨ c.state = .closing ∨ (c.transport = .udp ∧ c.state = .read)

instance : DecidablePred Settled := fun c => by unfold Settled; infer_instance

/-- `DATA_BUFFER_SIZE` and `UDP_READ_BUFFER_SIZE` -/
def readBufferSize : Transport → ℕ
  | .tcp => 2048
  | .udp => 65536

/-- `conn_new` for a descriptor that has not been used before, with the protocol it is bound to. -/
def connNew (transport : Transport) (protocol : Protocol) (sock : List Bytes) : Conn where
  transport := transport
  protocol := protocol
  state := match transport with
    | .tcp => .newCmd
    | .udp => .read
  substate := .noState
  rbuf := []
  rbuf0 := 0
  rsize := readBufferSize transport
  rsize_pos := by cases transport <;> decide
  sock := sock
  rlbytes := 0
  ritem := []
  chunks := none
  sbytes := 0
  writeAndGo := match transport with
    | .tcp => .newCmd
    | .udp => .read
  noreply := false
  msetRes := false
  header := ⟨0, 0, 0, 0, 0⟩
  cmd := .unknown
  authenticated := false
  reply := .data
  log := []

def unread (c : Conn) : Bytes :=
  match c.transport with
  | .tcp => c.rbuf ++ c.sock.flatten
  | .udp => c.rbuf

end Conn

def idealWorld : World where
  sasl := false
  itemAlloc := fun _ _ => .plain
  storeItem := fun _ => .stored
  addDelta := fun _ => .ok
  served := fun _ => true
  refused := fun _ => false
  answer := fun _ => "OK"
  sendFails := fun _ => false
  growFails := fun _ => false

end BmcCache
