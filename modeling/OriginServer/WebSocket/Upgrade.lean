import OriginServer.Http.Response
import OriginServer.Http.StoredMessage
import OriginServer.Text.Base64
import OriginServer.Text.Sha1

namespace OriginServer.WebSocket

open OriginServer.Http

inductive HandshakeError where
  | notUpgrade
  | methodNotGet
  | versionTooOld
  | missingHost
  | missingKey
  | invalidKey
  deriving Repr, DecidableEq

def HandshakeError.message : HandshakeError → String
  | notUpgrade => "not a websocket upgrade request"
  | methodNotGet => "upgrade request method is not GET"
  | versionTooOld => "upgrade requires HTTP/1.1 or later"
  | missingHost => "missing Host header"
  | missingKey => "missing Sec-WebSocket-Key"
  | invalidKey => "Sec-WebSocket-Key is not a base64 encoded 16 byte nonce"

/-- The answer to a well-formed request. -/
inductive Handshake where
  | accepted (response : Response)
  /-- The client speaks another version, and the connection stays as it is. -/
  | upgradeRequired (response : Response)
  deriving Repr, DecidableEq

namespace Handshake

def isUpgradeRequest (m : StoredMessage) : Bool :=
  m.hasWord "Upgrade" "websocket" && m.hasWord "Connection" "upgrade"

/-- What is hashed behind the key of the client. -/
def acceptSuffix : Bytes := Bytes.ofText "258EAFA5-E914-47DA-95CA-C5AB0DC85B11"

/-- The proof that the server has read the key. -/
def acceptKey (key : Bytes) : String := Base64.encodeText (Sha1.digest (key ++ acceptSuffix))

/-- A key stands for sixteen bytes. -/
def isValidKey (key : Bytes) : Bool :=
  key.length == 24 && (Base64.decode? key).any (·.length == 16)

def supportedVersion : String := "13"

def upgradeRequiredResponse : Response :=
  .make .upgradeRequired [("Sec-WebSocket-Version", supportedVersion)] []

def acceptedResponse (key : Bytes) : Response :=
  .make .switchingProtocols
    [("Upgrade", "websocket"), ("Connection", "Upgrade"),
      ("Sec-WebSocket-Accept", acceptKey key)] []

/-- Checks an upgrade request and builds its answer. -/
def answer (m : StoredMessage) : Except HandshakeError Handshake := do
  if !isUpgradeRequest m then throw .notUpgrade
  if m.method? ≠ some (Bytes.ofText "GET") then throw .methodNotGet
  if !m.parts.version.atLeast 1 1 then throw .versionTooOld
  if (m.field? "Host").isNone then throw .missingHost
  let some key := m.field? "Sec-WebSocket-Key" | throw .missingKey
  if !isValidKey key then throw .invalidKey
  if m.field? "Sec-WebSocket-Version" = some (Bytes.ofText supportedVersion) then
    return accepted (acceptedResponse key)
  else return upgradeRequired upgradeRequiredResponse

end Handshake

end OriginServer.WebSocket
