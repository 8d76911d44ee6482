import OriginServer.Event
import OriginServer.Site.FileBody
import OriginServer.Storage.Buffer
import OriginServer.WebSocket.Reassembly
import OriginServer.WebSocket.Upgrade

namespace OriginServer

/-- The number of a socket. -/
structure SocketId where
  number : Nat
  deriving Repr, DecidableEq

def SocketId.text (s : SocketId) : String := s!"#{s.number}"

inductive Output where
  | bytes (b : Bytes)
  | file (body : Site.FileBody)
  deriving Repr, DecidableEq

/-- The bytes of the output, with those of its files, as far as the files have them. -/
def Output.content : Output → Bytes
  | bytes b => b
  | file body => body.pieces.1.flatten

inductive Notice where
  | opened (socket : SocketId) (domain : String)
  | event (socket : SocketId) (event : Event)
  | closed (socket : SocketId)
  deriving Repr

inductive ConnectionError where
  | domainMismatch (bound got : String)
  | hostMismatch (domain : String)
  | requestTooLarge (limit : Nat)
  | unexpectedResponse
  | noObject
  | buffer (cause : BufferError)
  | parse (cause : Http.ParseError)
  | frame (cause : WebSocket.FrameError)
  | handshake (cause : WebSocket.HandshakeError)
  | fragment (cause : WebSocket.FragmentError)
  deriving Repr, DecidableEq

def ConnectionError.message : ConnectionError → String
  | domainMismatch bound got => s!"data for domain {got} on a connection bound to {bound}"
  | hostMismatch domain => s!"Host header does not name {domain}"
  | requestTooLarge limit => s!"incomplete request exceeds {limit} bytes"
  | unexpectedResponse => "client sent an HTTP response"
  | noObject => "failed to allocate a message object"
  | buffer cause => cause.message
  | parse cause => cause.message
  | frame cause => cause.message
  | handshake cause => cause.message
  | fragment cause => cause.message

end OriginServer
