import OriginServer.Config.Basic
import OriginServer.Yaml.Value

namespace OriginServer

def Domain.fields : List (Yaml.Field Domain) :=
  [{ name := "name", required := true, read := fun n d => n.text?.map ({ d with name := · }) },
    { name := "root", required := true, read := fun n d => n.text?.map ({ d with root := · }) },
    { name := "certificate", read := fun n d => n.optionalText?.map ({ d with certificate := · }) },
    { name := "key", read := fun n d => n.optionalText?.map ({ d with key := · }) }]

def Domain.ofNode? : Yaml.Node → Option Domain :=
  Yaml.Node.record? Domain.fields { name := "", root := "" }

/-- A limit of that name, and how it is set. -/
def ServerLimits.field (name : String) (set : Nat → ServerLimits → ServerLimits) :
    Yaml.Field ServerLimits :=
  { name, read := fun node l => node.word?.map (set · l) }

def ServerLimits.fields : List (Yaml.Field ServerLimits) :=
  [field "header_capacity" fun n l => { l with fieldCapacity := n },
    field "buffer_size" fun n l => { l with bufferSize := n },
    field "max_method_length" fun n l => { l with maxMethodLength := n },
    field "max_request_size" fun n l => { l with maxRequestSize := n },
    field "max_frame_size" fun n l => { l with maxFrameSize := n },
    field "max_message_size" fun n l => { l with maxMessageSize := n },
    field "ws_chunk_size" fun n l => { l with messageChunkSize := n },
    field "file_chunk_size" fun n l => { l with fileChunkSize := n },
    field "recache_threshold" fun n l => { l with recacheThreshold := n },
    field "pool_capacity" fun n l => { l with poolCapacity := n },
    field "lock_timeout_ms" fun n l => { l with lockTimeout := n }]

def ServerLimits.ofNode? : Yaml.Node → Option ServerLimits :=
  Yaml.Node.record? ServerLimits.fields {}

namespace Config

def fields : List (Yaml.Field Config) :=
  [{ name := "listen_addr", read := fun n c => n.text?.map ({ c with listenAddress := · }) },
    { name := "default_domain", read := fun n c => n.text?.map ({ c with defaultDomain := · }) },
    { name := "domains"
      read := fun n c =>
        (n.items?.bind (·.mapM Domain.ofNode?)).map ({ c with domains := · }) },
    { name := "limits"
      read := fun n c => (ServerLimits.ofNode? n).map ({ c with limits := · }) }]

/-- The configuration that a document writes, over the defaults. -/
def ofText? (text : String) : Option Config :=
  (Yaml.Node.ofText? text).bind (Yaml.Node.record? fields {})

/-- The variable that names the file of the configuration. -/
def fileVariable : String := "DTNWEB_CONFIG"

/-- The variable that replaces the address to listen at. -/
def addressVariable : String := "LISTEN"

/-- The configuration of a process with those variables and files. -/
def load (environment files : String → Option String) : Except ConfigError Config := do
  let config ←
    match environment fileVariable with
    | none => pure {}
    | some path =>
      match files path with
      | none => throw (.unreadable path)
      | some text => ((ofText? text).map pure).getD (throw (.malformed path))
  let config := { config with
    listenAddress := (environment addressVariable).getD config.listenAddress }
  match config.problem? with
  | some e => throw e
  | none => pure config

end Config

end OriginServer
