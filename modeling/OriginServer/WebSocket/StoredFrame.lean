import OriginServer.Storage.Buffer
import OriginServer.Storage.Pool
import OriginServer.WebSocket.Frame

namespace OriginServer.WebSocket

/-- The sizes a stored frame is made for. -/
structure FrameConfig where
  maxFrameSize : Nat := 16777216
  bufferSize : Nat := 4096
  recacheThreshold : Nat := 65536
  deriving Repr, DecidableEq

structure StoredFrame where
  config : FrameConfig
  buffer : Buffer
  /-- The header of the frame in the buffer, once there is one. -/
  header? : Option FrameHeader := none
  /-- Whether the payload is masked in the buffer. -/
  isMasked : Bool := false
  deriving Repr, DecidableEq

namespace StoredFrame

def create (config : FrameConfig) : Except BufferError StoredFrame := do
  let buffer ← Buffer.withCapacity config.bufferSize
  return { config, buffer := buffer.withThreshold (max config.recacheThreshold config.bufferSize) }

/-- Forgets the header. -/
def withoutHeader (f : StoredFrame) : StoredFrame := { f with header? := none, isMasked := false }

/-- Takes another buffer for input. -/
def withBuffer (f : StoredFrame) (buffer : Buffer) : StoredFrame := { f.withoutHeader with buffer }

/-- Forgets the header and empties the buffer. -/
def clear (f : StoredFrame) : StoredFrame := f.withBuffer f.buffer.clear

def withHeader (f : StoredFrame) (header : FrameHeader) : StoredFrame :=
  { f with header? := some header, isMasked := header.mask.isSome }

/-- Reads the frame at the start of the buffer. Its payload stays masked. -/
def read (f : StoredFrame) : Scan FrameError Unit × StoredFrame :=
  match readFrame f.config.maxFrameSize f.buffer.content with
  | .done header next => (.done () next, f.withHeader header)
  | .more => (.more, f.withoutHeader)
  | .fail cause => (.fail cause, f.withoutHeader)

theorem buffer_read (f : StoredFrame) : f.read.2.buffer = f.buffer := by
  unfold read
  split <;> rfl

theorem pos_of_read {f : StoredFrame} {next : Cursor} (h : f.read.1 = .done () next) :
    0 < next.pos := by
  unfold read at h
  split at h
  · rename_i header mid hf
    cases h
    obtain ⟨taken, ne, _, hp⟩ := advances_frame _ _ _ _ hf
    have := List.length_pos_iff.2 ne
    omega
  · cases h
  · cases h

def mask? (f : StoredFrame) : Option MaskKey := f.header?.bind (·.mask)

/-- The place of the payload. -/
def span (f : StoredFrame) : Span := (f.header?.map (·.content)).getD ⟨0, 0⟩

/-- Masks or unmasks the bytes of a span. -/
def maskSpan (key : MaskKey) (s : Span) (bytes : Bytes) : Bytes :=
  bytes.take s.start ++ key.apply (s.of bytes) ++ bytes.drop s.stop

/-- Takes the mask off the payload, if it is on. -/
def unmask (f : StoredFrame) : StoredFrame :=
  match f.mask?, f.isMasked with
  | some key, true => { f with buffer := f.buffer.modify (maskSpan key f.span), isMasked := false }
  | _, _ => f

/-- Builds a frame with that payload, masked when there is a key. -/
def setPayload (f : StoredFrame) (opcode : Opcode) (fin : Bool) (payload : Bytes)
    (mask : Option MaskKey) : Except BufferError StoredFrame := do
  let head := headerBytes opcode fin payload.length mask
  let buffer ← f.buffer.set head
  let buffer ← buffer.push (masked mask payload)
  return { f with buffer }.withHeader ⟨fin, opcode, mask, ⟨head.length, payload.length⟩⟩

def opcode (f : StoredFrame) : Opcode := (f.header?.map (·.opcode)).getD .continuation

def fin (f : StoredFrame) : Bool := (f.header?.map (·.fin)).getD false

def fragmentation (f : StoredFrame) : Fragmentation :=
  (f.header?.map (·.fragmentation)).getD .none

/-- The payload as it is in the buffer. -/
def content (f : StoredFrame) : Bytes := f.span.of f.buffer.content

/-- The frame as it is on the wire. -/
def wire (f : StoredFrame) : Bytes := f.buffer.content.take f.span.stop

instance : Recyclable FrameConfig StoredFrame where
  key f := f.config
  create config := (create config).toOption
  reset f := f.clear

end StoredFrame

end OriginServer.WebSocket
