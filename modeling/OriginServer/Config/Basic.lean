import OriginServer.Http.StoredMessage
import OriginServer.WebSocket.StoredFrame

namespace OriginServer

/-- A domain with its document root. -/
structure Domain where
  name : String
  root : String
  certificate : Option String := none
  key : Option String := none
  deriving Repr, DecidableEq

structure ServerLimits where
  fieldCapacity : Nat := 64
  bufferSize : Nat := 4096
  maxMethodLength : Nat := 16
  /-- The most bytes of an incomplete request. -/
  maxRequestSize : Nat := 1048576
  maxFrameSize : Nat := 16777216
  maxMessageSize : Nat := 67108864
  /-- The size of the pieces of a long message. -/
  messageChunkSize : Nat := 65536
  /-- The size of the pieces of a file. -/
  fileChunkSize : Nat := 65536
  recacheThreshold : Nat := 65536
  /-- How many idle objects of a make are kept. -/
  poolCapacity : Nat := 32
  lockTimeout : Nat := 100
  deriving Repr, DecidableEq

structure Config where
  listenAddress : String := "127.0.0.1:8080"
  /-- The domain of clients that name none. -/
  defaultDomain : String := "localhost"
  domains : List Domain := [{ name := "localhost", root := "public" }]
  limits : ServerLimits := {}
  deriving Repr, DecidableEq

namespace ServerLimits

def messageConfig (l : ServerLimits) : Http.MessageConfig :=
  { limits := ⟨l.fieldCapacity, l.maxMethodLength⟩
    bufferSize := l.bufferSize
    recacheThreshold := l.recacheThreshold }

def frameConfig (l : ServerLimits) : WebSocket.FrameConfig :=
  ⟨l.maxFrameSize, l.bufferSize, l.recacheThreshold⟩

/-- The limits that zero makes no sense for, by their names. -/
def positive (l : ServerLimits) : List (String × Nat) :=
  [("header_capacity", l.fieldCapacity), ("buffer_size", l.bufferSize),
    ("max_method_length", l.maxMethodLength), ("ws_chunk_size", l.messageChunkSize),
    ("file_chunk_size", l.fileChunkSize)]

end ServerLimits

inductive ConfigError where
  | zeroLimit (name : String)
  /-- A domain has a certificate without a key, or a key without a certificate. -/
  | halfKeyPair (domain : String)
  | unreadable (path : String)
  | malformed (path : String)
  deriving Repr, DecidableEq

def ConfigError.message : ConfigError → String
  | zeroLimit name => s!"limits.{name} must be greater than zero"
  | halfKeyPair domain => s!"domain {domain} needs both certificate and key"
  | unreadable path => s!"reading config file {path}"
  | malformed path => s!"parsing config file {path}"

namespace Config

/-- The first rule that the configuration breaks. -/
def problem? (c : Config) : Option ConfigError :=
  match c.limits.positive.find? (·.2 == 0) with
  | some l => some (.zeroLimit l.1)
  | none =>
    (c.domains.find? fun d => d.certificate.isSome != d.key.isSome).map fun d =>
      .halfKeyPair d.name

/-- The domain of that name, in any case. -/
def domain? (c : Config) (name : String) : Option Domain :=
  c.domains.find? fun d => sameLetters d.name name

def hasTls (c : Config) : Bool := c.domains.any (·.certificate.isSome)

end Config

end OriginServer
