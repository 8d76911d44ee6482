import OriginServer.Server.Basic

namespace OriginServer

inductive SessionError where
  | buffer (cause : BufferError)
  | connection (cause : ConnectionError)
  /-- A file became shorter after its length was announced. -/
  | shortFile
  /-- The chunks of a file would take more memory than there can be. -/
  | overflow
  deriving Repr, DecidableEq

def SessionError.message : SessionError → String
  | buffer cause => cause.message
  | connection cause => cause.message
  | shortFile => "file shrank while being served: early eof"
  | overflow => "capacity overflow"

structure Session where
  server : Server
  socket : SocketId
  domain : String
  /-- What was written to the client. -/
  written : Bytes := []
  /-- How the session ended. -/
  result : Option (Except SessionError Unit) := none

namespace Session

def finish (s : Session) (result : Except SessionError Unit) : Session :=
  let server := ((s.server.dropConnection s.socket).close s.socket).dropReceiver s.socket
  { s with server, result := some result }

/-- Breaks the session off. The server does not forget the socket. -/
def abort (s : Session) : Session :=
  let server := (s.server.dropConnection s.socket).dropReceiver s.socket
  { s with server, result := some (.error .overflow) }

/-- Begins a session for a new socket. -/
def start (server : Server) (remote : SocketAddress) (domain : String) : Session :=
  match server.accept remote with
  | (.error cause, accepted) =>
    { server := accepted
      socket := ⟨server.nextNumber⟩
      domain
      result := some (.error (.buffer cause)) }
  | (.ok socket, accepted) => { server := accepted, socket, domain }

/-- The bytes of the output, up to a file that cannot be sent to its end. -/
def outputBytes : List Output → Bytes × Site.Ending
  | [] => ([], .whole)
  | .bytes b :: rest =>
    let (bytes, ending) := outputBytes rest
    (b ++ bytes, ending)
  | .file body :: rest =>
    match body.send with
    | (pieces, .whole) =>
      let (bytes, ending) := outputBytes rest
      (pieces.flatten ++ bytes, ending)
    | (pieces, ending) => (pieces.flatten, ending)

/-- Goes on once output is written, or ends the session. -/
def conclude (s : Session) (ending : Site.Ending) (outcome : Except ConnectionError Flow) :
    Session :=
  match ending with
  | .overflow => s.abort
  | .short => s.finish (.error .shortFile)
  | .whole =>
    match outcome with
    | .error cause => s.finish (.error (.connection cause))
    | .ok .close => s.finish (.ok ())
    | .ok .goOn => s

/-- Reads one piece of the input and writes its output, also when an error ends the session. -/
def read (s : Session) (piece : Bytes) : Session :=
  if s.result.isSome then s
  else
    match s.server.io s.socket s.domain piece with
    | (none, server) => { s with server }
    | (some answer, server) =>
      let (bytes, ending) := outputBytes answer.output
      conclude { s with server, written := s.written ++ bytes } ending answer.outcome

/-- Writes what the application has sent. -/
def flush (s : Session) : Session :=
  if s.result.isSome then s
  else
    let (frames, server) := s.server.receive s.socket
    { s with server, written := s.written ++ frames.flatten }

/-- Cuts input into pieces of `size` bytes. -/
def pieces (size : Nat) (input : Bytes) : List Bytes :=
  if _h : 0 < size ∧ input ≠ [] then input.take size :: pieces size (input.drop size)
  else []
  termination_by input.length
  decreasing_by
    have := List.length_pos_iff.2 _h.2
    simp only [List.length_drop]
    omega

/-- The size of the pieces that input is read in. -/
def pieceSize (s : Session) : Nat :=
  let size := s.server.setting.config.limits.bufferSize
  if size = 0 then 64 else size

/-- Reads input piece by piece. -/
def feed (s : Session) (input : Bytes) : Session := (pieces s.pieceSize input).foldl read s

/-- Sends an event to the client and writes it. -/
def send (s : Session) (event : Event) : Except SendError Unit × Session :=
  let (outcome, server) := s.server.send s.socket event
  (outcome, flush { s with server })

/-- The input has come to its end. -/
def hangUp (s : Session) : Session := if s.result.isSome then s else s.finish (.ok ())

/-- Takes up to `n` of the bytes that were written. -/
def takeWritten (s : Session) (n : Nat) : Bytes × Session :=
  (s.written.take n, { s with written := s.written.drop n })

end Session

end OriginServer
