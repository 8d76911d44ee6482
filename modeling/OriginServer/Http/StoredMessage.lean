import OriginServer.Http.Message
import OriginServer.Storage.Buffer
import OriginServer.Storage.Pool

namespace OriginServer.Http

/-- The sizes a stored message is made for. Messages of one make can stand in for each other. -/
structure MessageConfig where
  limits : Limits := {}
  bufferSize : Nat := 4096
  recacheThreshold : Nat := 65536
  deriving Repr, DecidableEq

/-- The bytes of a slot for the places of a field. -/
def fieldSlotSize : Nat := 32

/-- Whether there can be slots for as many fields as a message may have. -/
def MessageConfig.hasSlots (config : MessageConfig) : Bool :=
  fieldSlotSize * config.limits.fieldCapacity ≤ Buffer.maxStore

/-- Why a message cannot be made. -/
inductive MakeError where
  | buffer (cause : BufferError)
  /-- The slots for the fields would take more memory than there can be. -/
  | overflow
  deriving Repr, DecidableEq

inductive MessageKind where
  | request
  | response
  deriving Repr, DecidableEq

/-- The answer to a lookup of all values of a field that fit into the slots given. -/
inductive Lookup where
  | found (count : Nat)
  | absent
  /-- There are more values than slots. -/
  | tooMany (count : Nat)
  deriving Repr, DecidableEq

structure StoredMessage where
  config : MessageConfig
  buffer : Buffer
  parts : Parts := {}
  /-- The place of a decoded chunked body. -/
  chunk : Span := ⟨0, 0⟩
  deriving Repr, DecidableEq

namespace StoredMessage

/-- A new message. Its buffer and the slots for its fields are taken at once. -/
def create (config : MessageConfig) : Except MakeError StoredMessage :=
  match Buffer.withCapacity config.bufferSize with
  | .error cause => .error (.buffer cause)
  | .ok buffer =>
    if config.hasSlots then
      .ok
        { config
          buffer := buffer.withThreshold (max config.recacheThreshold config.bufferSize) }
    else .error .overflow

/-- Takes another buffer for input. -/
def withBuffer (m : StoredMessage) (buffer : Buffer) : StoredMessage :=
  { m with buffer, parts := {}, chunk := ⟨0, 0⟩ }

/-- Forgets what was read and empties the buffer. -/
def clear (m : StoredMessage) : StoredMessage := m.withBuffer m.buffer.clear

/-- Copies a stretch of the bytes over the bytes from `place` on. -/
def moveTo (place : Nat) (bytes : Bytes) (s : Span) : Bytes :=
  bytes.take place ++ s.of bytes ++ bytes.drop (place + s.len)

/-- Moves stretches of the bytes, one behind the other, to `place`. The place behind the last one
comes with the bytes. -/
def compact (place : Nat) (bytes : Bytes) : List Span → Bytes × Nat
  | [] => (bytes, place)
  | s :: spans => compact (place + s.len) (moveTo place bytes s) spans

/-- Reads the message in the buffer. The answer is the number of bytes it takes. -/
def read (m : StoredMessage) : Scan ParseError Unit × StoredMessage :=
  let (parts, outcome) := readMessage m.config.limits m.buffer.content
  let m := { m with parts, chunk := ⟨0, 0⟩ }
  match outcome with
  | .done () _ =>
    if parts.framing = some .chunked then
      let start := parts.body.start
      let (bytes, stop) := compact start m.buffer.content parts.chunks
      let body : Span := ⟨start, stop - start⟩
      (outcome, { m with
        buffer := m.buffer.modify fun _ => bytes
        parts := { parts with body }
        chunk := body })
    else (outcome, m)
  | _ => (outcome, m)

theorem length_read (m : StoredMessage) :
    m.read.2.buffer.length = m.buffer.length := by
  simp only [read]
  split
  · split <;> rfl
  · rfl

theorem read_fst (m : StoredMessage) :
    m.read.1 = (readMessage m.config.limits m.buffer.content).2 := by
  simp only [read]
  split
  · split <;> rfl
  · rfl

def bytes (m : StoredMessage) : Bytes := m.buffer.content

def kind? (m : StoredMessage) : Option MessageKind :=
  m.parts.start.map fun
    | .request _ _ => .request
    | .status _ _ => .response

def method? (m : StoredMessage) : Option Bytes :=
  match m.parts.start with
  | some (.request method _) => some (method.of m.bytes)
  | _ => none

def target? (m : StoredMessage) : Option Bytes :=
  match m.parts.start with
  | some (.request _ target) => some (target.of m.bytes)
  | _ => none

def code? (m : StoredMessage) : Option Nat :=
  match m.parts.start with
  | some (.status code _) => some code
  | _ => none

def reason? (m : StoredMessage) : Option Bytes :=
  match m.parts.start with
  | some (.status _ phrase) => some (phrase.of m.bytes)
  | _ => none

def fields (m : StoredMessage) : List (Bytes × Bytes) := m.parts.pairs m.bytes

def values (m : StoredMessage) (name : String) : List Bytes := m.parts.values m.bytes name

/-- The first value of a field. -/
def field? (m : StoredMessage) (name : String) : Option Bytes := (m.values name).head?

/-- All values of a field, if there are slots for them. -/
def lookup (m : StoredMessage) (name : String) (slots : Nat) : Lookup × List Bytes :=
  let values := m.values name
  if values.isEmpty then (.absent, [])
  else if slots < values.length then (.tooMany values.length, [])
  else (.found values.length, values)

/-- All values of a field as one list. -/
def list? (m : StoredMessage) (name : String) : Option Bytes :=
  match m.values name with
  | [] => none
  | value :: rest => some (value ++ rest.flatMap (Bytes.ofText ", " ++ ·))

/-- Whether some list among the values of a field has the word for an element. -/
def hasWord (m : StoredMessage) (name word : String) : Bool :=
  (m.values name).any fun value =>
    (value.splitOnP (· == Ascii.comma)).any fun item =>
      (Bytes.trim isFoldedBlank item).sameLetters (Bytes.ofText word)

/-- The body, decoded if it is chunked. -/
def body (m : StoredMessage) : Bytes := m.parts.body.of m.bytes

/-- The decoded body of a chunked message, and nothing for other messages. -/
def chunkData (m : StoredMessage) : Bytes := m.chunk.of m.bytes

def isChunked (m : StoredMessage) : Bool := m.parts.framing == some .chunked

instance : Recyclable MessageConfig StoredMessage where
  key m := m.config
  create config := (create config).toOption
  reset m := m.clear

end StoredMessage

end OriginServer.Http
