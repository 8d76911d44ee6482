import OriginServer.Connection.Reply
import OriginServer.WebSocket.Reassembly

namespace OriginServer

open OriginServer.Http OriginServer.WebSocket

inductive Protocol where
  | http
  | webSocket
  deriving Repr, DecidableEq

/-- What is to be done with the socket after a call. -/
inductive Flow where
  | goOn
  /-- Write the output, then close the socket. -/
  | close
  deriving Repr, DecidableEq

/-- The idle objects of a server. -/
structure Pools where
  messages : Pool MessageConfig StoredMessage
  frames : Pool FrameConfig StoredFrame

structure Connection where
  socket : SocketId
  /-- The domain of the first call. -/
  domain : Option String := none
  protocol : Protocol := .http
  /-- Whether the application may send to the socket. The peer of the socket shares this flag. -/
  isUpgraded : Bool := false
  buffer : Buffer
  reassembly : Reassembly
  deriving Repr, DecidableEq

/-- What a call makes of a connection and of the pools. -/
structure Turn (α : Type) where
  connection : Connection
  pools : Pools
  output : List Output := []
  notices : List Notice := []
  outcome : Except ConnectionError α

/-- What follows the attempt to take one request or frame. -/
inductive Step where
  /-- There is no complete one. -/
  | wait
  | next
  | close
  deriving Repr, DecidableEq

namespace Pools

def empty (capacity : Nat) : Pools := ⟨⟨capacity, []⟩, ⟨capacity, []⟩⟩

def putMessage (p : Pools) (m : StoredMessage) : Pools := { p with messages := p.messages.put m }

def putFrame (p : Pools) (f : StoredFrame) : Pools := { p with frames := p.frames.put f }

end Pools

namespace Connection

def create (limits : ServerLimits) (socket : SocketId) : Except BufferError Connection := do
  let buffer ← Buffer.withCapacity limits.bufferSize
  return {
    socket
    buffer := buffer.withThreshold (max limits.recacheThreshold limits.bufferSize)
    reassembly := { maxMessageSize := limits.maxMessageSize } }

/-- How many bytes wait for the rest of their request or frame. -/
def pending (c : Connection) : Nat := c.buffer.length

def boundDomain (c : Connection) : String := c.domain.getD ""

/-- Binds the connection to the domain of the first call. Later calls have to name the same. -/
def bind (c : Connection) (domain : String) : Except ConnectionError Connection :=
  match c.domain with
  | none => .ok { c with domain := some domain }
  | some bound =>
    if sameLetters bound domain then .ok c else .error (.domainMismatch bound domain)

/-- The reply to the message that was read, with the place where the input goes on. Nothing while
the message is incomplete. -/
def replyTo (setting : Setting) (domain : String) (m : StoredMessage) :
    Scan ParseError Unit → Except ConnectionError (Option (Reply × Nat))
  | .done () next => (Reply.toMessage setting domain m).map fun r => some (r, next.pos)
  | .more => .ok none
  | .fail cause => .error (.parse cause)

/-- Takes a reply on, with the rest of the input in the buffer. -/
def accept (c : Connection) (pools : Pools) (reply : Reply) (rest : Buffer) : Turn Step :=
  { connection :=
      { c with
        buffer := rest
        protocol := if reply.upgrades then .webSocket else c.protocol
        isUpgraded := c.isUpgraded || reply.upgrades }
    pools
    output := reply.output
    notices := if reply.upgrades then [.opened c.socket c.boundDomain] else []
    outcome := .ok .next }

/-- Goes on behind the message that was answered, with `input` as it is after reading. Input that
cannot be answered is lost. -/
def conclude (c : Connection) (pools : Pools) (input : Buffer) :
    Except ConnectionError (Option (Reply × Nat)) → Turn Step
  | .error cause => { connection := { c with buffer := {} }, pools, outcome := .error cause }
  | .ok none => { connection := { c with buffer := input }, pools, outcome := .ok .wait }
  | .ok (some (reply, next)) =>
    match input.shiftTrailing next with
    | .error cause => { accept c pools reply {} with outcome := .error (.buffer cause) }
    | .ok (_, rest) => accept c pools reply rest

/-- Takes one request from the buffer. -/
def popRequest (setting : Setting) (pools : Pools) (c : Connection) : Turn Step :=
  match pools.messages.get setting.config.limits.messageConfig with
  | (none, messages) =>
    { connection := c, pools := { pools with messages }, outcome := .error .noObject }
  | (some m, messages) =>
    let read := (m.withBuffer c.buffer).read
    conclude c (Pools.putMessage { pools with messages } (read.2.withBuffer m.buffer)) read.2.buffer
      (replyTo setting c.boundDomain read.2 read.1)

/-- The notice of a message that is an event. Other messages are dropped. -/
def deliver (socket : SocketId) (payload : Bytes) : List Notice :=
  ((Event.read? payload).map fun e => Notice.event socket e).toList

/-- The answer to a frame of the client, whose payload is in the clear. -/
def handleFrame (pools : Pools) (c : Connection) (f : StoredFrame) : Turn Step :=
  match f.opcode with
  | .ping =>
    { connection := c
      pools := pools.putFrame f
      output := [.bytes (frameBytes .pong true f.content none)]
      outcome := .ok .next }
  | .pong => { connection := c, pools := pools.putFrame f, outcome := .ok .next }
  | .close =>
    { connection := c
      pools := pools.putFrame f
      output := [.bytes (frameBytes .close true (f.content.take 2) none)]
      outcome := .ok .close }
  | _ =>
    match c.reassembly.push f with
    | (.error cause, reassembly) =>
      { connection := { c with reassembly }, pools, outcome := .error (.fragment cause) }
    | (.ok none, reassembly) =>
      { connection := { c with reassembly }, pools, outcome := .ok .next }
    | (.ok (some message), reassembly) =>
      { connection := { c with reassembly }
        pools := message.spent.foldl Pools.putFrame pools
        notices := deliver c.socket message.payload
        outcome := .ok .next }

/-- Goes on with a frame as it is after reading. A frame that was not complete gets `spare` back for
its buffer. -/
def concludeFrame (pools : Pools) (c : Connection) (spare : Buffer) (f : StoredFrame) :
    Scan FrameError Unit → Turn Step
  | .done () next =>
    match f.buffer.shiftTrailing next.pos with
    | .error cause =>
      { connection := { c with buffer := {} }, pools, outcome := .error (.buffer cause) }
    | .ok (buffer, rest) => handleFrame pools { c with buffer := rest } { f with buffer }.unmask
  | .more =>
    { connection := { c with buffer := f.buffer }
      pools := pools.putFrame (f.withBuffer spare)
      outcome := .ok .wait }
  | .fail cause =>
    { connection := { c with buffer := f.buffer }
      pools := pools.putFrame (f.withBuffer spare)
      outcome := .error (.frame cause) }

/-- Takes one frame from the buffer. -/
def popFrame (setting : Setting) (pools : Pools) (c : Connection) : Turn Step :=
  match pools.frames.get setting.config.limits.frameConfig with
  | (none, frames) =>
    { connection := c, pools := { pools with frames }, outcome := .error .noObject }
  | (some f, frames) =>
    let read := (f.withBuffer c.buffer).read
    concludeFrame { pools with frames } c f.buffer read.2 read.1

/-- Takes one request or frame from the buffer. -/
def pop (setting : Setting) (pools : Pools) (c : Connection) : Turn Step :=
  if c.buffer.isEmpty then { connection := c, pools, outcome := .ok .wait }
  else
    match c.protocol with
    | .http => popRequest setting pools c
    | .webSocket => popFrame setting pools c

end Connection

end OriginServer
