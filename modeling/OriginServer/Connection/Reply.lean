import OriginServer.Config.Basic
import OriginServer.Connection.Outcome
import OriginServer.Http.Request
import OriginServer.Site.Serve

namespace OriginServer

open OriginServer.Http OriginServer.Site OriginServer.WebSocket

/-- What all connections of a server share and none of them changes. -/
structure Setting where
  config : Config
  files : FileSystem
  deriving Repr, DecidableEq

structure Reply where
  output : List Output
  /-- Whether the connection is a WebSocket from here on. -/
  upgrades : Bool := false
  deriving Repr, DecidableEq

namespace Reply

def ofResponse (r : Response) : Reply := { output := [.bytes r.wire] }

def ofServed (s : Served) : Reply :=
  match s.body with
  | some body => { output := [.bytes s.head.head, .file body] }
  | none => ofResponse s.head

/-- The reply to a request for a file. -/
def toFileRequest (setting : Setting) (domain : String) (m : StoredMessage) : Reply :=
  if m.method?.bind Method.ofBytes? ≠ some .get then ofResponse .methodNotAllowed
  else
    match (m.target?.bind Bytes.toText?).bind Target.path? with
    | none => ofResponse .badRequest
    | some path =>
      match setting.config.domain? domain with
      | none => ofResponse .notFound
      | some d =>
        ofServed (serve setting.files d.root path (m.field? "Range")
          setting.config.limits.fileChunkSize)

/-- The reply to a request for a WebSocket. -/
def toUpgrade (m : StoredMessage) : Except ConnectionError Reply :=
  match Handshake.answer m with
  | .error cause => .error (.handshake cause)
  | .ok (.accepted r) => .ok { output := [.bytes r.wire], upgrades := true }
  | .ok (.upgradeRequired r) => .ok (ofResponse r)

/-- Whether the first `Host` field names the domain. -/
def namesHost (m : StoredMessage) (domain : String) : Bool :=
  (m.field? "Host").any fun host => HostName.names host domain

/-- The reply to a message. -/
def toMessage (setting : Setting) (domain : String) (m : StoredMessage) :
    Except ConnectionError Reply :=
  if m.kind? ≠ some .request then .error .unexpectedResponse
  else if !namesHost m domain then .error (.hostMismatch domain)
  else if Handshake.isUpgradeRequest m then toUpgrade m
  else .ok (toFileRequest setting domain m)

end Reply

end OriginServer
