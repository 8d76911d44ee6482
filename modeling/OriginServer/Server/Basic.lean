import OriginServer.Connection.Run
import OriginServer.Server.SocketAddress
import OriginServer.Table
import OriginServer.WebSocket.Frame

namespace OriginServer

/-- A socket that the application can send to once it is a WebSocket. -/
structure Peer where
  remote : SocketAddress
  isUpgraded : Bool := false
  deriving Repr, DecidableEq

inductive SendError where
  | unknownSocket (socket : SocketId)
  | notUpgraded (socket : SocketId)
  | closed (socket : SocketId)
  deriving Repr, DecidableEq

def SendError.message : SendError → String
  | unknownSocket socket => s!"unknown socket {socket.text}"
  | notUpgraded socket => s!"socket {socket.text} has not completed the websocket handshake"
  | closed socket => s!"socket {socket.text} is closed"

structure Server where
  setting : Setting
  pools : Pools
  nextNumber : Nat := 1
  connections : Table SocketId Connection := []
  peers : Table SocketId Peer := []
  /-- What waits to be written to the sockets that are still written to, the oldest first. -/
  outbound : Table SocketId (List Bytes) := []
  /-- What the application has not yet taken note of, the oldest first. -/
  notices : List Notice := []

/-- What a call for a socket answers. -/
structure Answer where
  output : List Output
  outcome : Except ConnectionError Flow

namespace Server

def start (setting : Setting) : Server :=
  { setting, pools := .empty setting.config.limits.poolCapacity }

/-- Takes a new socket on. Its number is used up also when there is no room for it. -/
def accept (s : Server) (remote : SocketAddress) : Except BufferError SocketId × Server :=
  let socket : SocketId := ⟨s.nextNumber⟩
  let s := { s with nextNumber := s.nextNumber + 1 }
  match Connection.create s.setting.config.limits socket with
  | .error cause => (.error cause, s)
  | .ok c =>
    (.ok socket,
      { s with
        connections := s.connections.insert socket c
        peers := s.peers.insert socket { remote }
        outbound := s.outbound.insert socket [] })

/-- Takes the result of a call over. A peer shares the flag of its connection. -/
def absorb (s : Server) {α : Type} (t : Turn α) : Server :=
  let socket := t.connection.socket
  { s with
    pools := t.pools
    connections := s.connections.insert socket t.connection
    peers :=
      if t.connection.isUpgraded then
        s.peers.modify socket fun p => { p with isUpgraded := true }
      else s.peers
    notices := s.notices ++ t.notices }

/-- Feeds a connection with bytes that came for a domain, if there is such a connection. -/
def io (s : Server) (socket : SocketId) (domain : String) (data : Bytes) : Option Answer × Server :=
  match s.connections.get? socket with
  | none => (none, s)
  | some c =>
    let t := c.io s.setting s.pools domain data
    (some ⟨t.output, t.outcome⟩, s.absorb t)

/-- Sends an event to a socket. -/
def send (s : Server) (socket : SocketId) (event : Event) : Except SendError Unit × Server :=
  match s.peers.get? socket with
  | none => (.error (.unknownSocket socket), s)
  | some peer =>
    if !peer.isUpgraded then (.error (.notUpgraded socket), s)
    else
      match s.outbound.get? socket with
      | none => (.error (.closed socket), s)
      | some queue =>
        let frames :=
          WebSocket.messageBytes .text event.write s.setting.config.limits.messageChunkSize
        (.ok (), { s with outbound := s.outbound.insert socket (queue ++ [frames]) })

/-- Takes what waits to be written to a socket. -/
def receive (s : Server) (socket : SocketId) : List Bytes × Server :=
  match s.outbound.get? socket with
  | none => ([], s)
  | some queue => (queue, { s with outbound := s.outbound.insert socket [] })

/-- Nothing more is written to the socket. -/
def dropReceiver (s : Server) (socket : SocketId) : Server :=
  { s with outbound := s.outbound.erase socket }

/-- Forgets a peer. Its connection goes on. -/
def close (s : Server) (socket : SocketId) : Server := { s with peers := s.peers.erase socket }

/-- Ends the connection of a socket. -/
def dropConnection (s : Server) (socket : SocketId) : Server :=
  match s.connections.get? socket with
  | none => s
  | some c =>
    let (pools, notices) := c.drop s.pools
    { s with
      pools
      connections := s.connections.erase socket
      notices := s.notices ++ notices }

/-- Takes the notices. -/
def takeNotices (s : Server) : List Notice × Server := (s.notices, { s with notices := [] })

end Server

end OriginServer
