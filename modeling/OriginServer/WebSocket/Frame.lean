import OriginServer.Scan

namespace OriginServer.WebSocket

inductive Opcode where
  | continuation | text | binary | close | ping | pong
  deriving Repr, DecidableEq

namespace Opcode

def code : Opcode → Nat
  | continuation => 0x0
  | text => 0x1
  | binary => 0x2
  | close => 0x8
  | ping => 0x9
  | pong => 0xa

def ofCode? (n : Nat) : Option Opcode :=
  [continuation, text, binary, close, ping, pong].find? fun o => o.code == n

def isControl (o : Opcode) : Bool := 0x8 ≤ o.code

end Opcode

/-- The place of a frame in a message. -/
inductive Fragmentation where
  /-- The frame is a whole message. -/
  | none
  | start
  | continue
  | last
  deriving Repr, DecidableEq

namespace Fragmentation

def of (fin : Bool) (opcode : Opcode) : Fragmentation :=
  match fin, opcode with
  | true, .continuation => last
  | true, _ => none
  | false, .continuation => .continue
  | false, _ => start

def name : Fragmentation → String
  | none => "None"
  | start => "Start"
  | .continue => "Continue"
  | last => "Last"

end Fragmentation

inductive FrameError where
  | invalidOpcode (code : Nat)
  | reservedBits
  | nonCanonicalLength
  | lengthOverflow
  | fragmentedControl
  | controlTooLarge (length : Nat)
  | tooLarge (length limit : Nat)
  deriving Repr, DecidableEq

def FrameError.message : FrameError → String
  | invalidOpcode code => "unknown opcode 0x" ++ String.ofList (Nat.toDigits 16 code)
  | reservedBits => "reserved bits set without a negotiated extension"
  | nonCanonicalLength => "payload length not in its shortest encoding"
  | lengthOverflow => "payload length has the most significant bit set"
  | fragmentedControl => "fragmented control frame"
  | controlTooLarge length => s!"control frame payload of {length} bytes"
  | tooLarge length limit => s!"frame payload of {length} bytes exceeds {limit}"

structure MaskKey where
  k0 : UInt8
  k1 : UInt8
  k2 : UInt8
  k3 : UInt8
  deriving Repr, DecidableEq

namespace MaskKey

def bytes (k : MaskKey) : Bytes := [k.k0, k.k1, k.k2, k.k3]

def ofBytes? : Bytes → Option MaskKey
  | [a, b, c, d] => some ⟨a, b, c, d⟩
  | _ => none

/-- The key byte for the byte of a payload with that index. -/
def octet (k : MaskKey) (i : Nat) : UInt8 :=
  match i % 4 with
  | 0 => k.k0
  | 1 => k.k1
  | 2 => k.k2
  | _ => k.k3

/-- Masks a payload. A second time takes the mask off again. -/
def apply (k : MaskKey) (payload : Bytes) : Bytes := payload.mapIdx fun i b => b ^^^ k.octet i

end MaskKey

/-- Masks a payload if there is a key. -/
def masked (key : Option MaskKey) (payload : Bytes) : Bytes :=
  match key with
  | some k => k.apply payload
  | none => payload

/-- The key and the place of a payload. -/
structure Payload where
  mask : Option MaskKey
  content : Span
  deriving Repr, DecidableEq

structure FrameHeader where
  fin : Bool
  opcode : Opcode
  mask : Option MaskKey
  content : Span
  deriving Repr, DecidableEq

def FrameHeader.fragmentation (h : FrameHeader) : Fragmentation := .of h.fin h.opcode

/-- The most bytes that a control frame may carry. -/
def maxControlPayload : Nat := 125

section Reading

open Scanner

/-- The number that bytes stand for, the highest first. -/
def ofBigEndian (bytes : Bytes) : Nat := bytes.foldl (fun n b => n * 256 + b.toNat) 0

/-- The length behind its short form, which announces 16 or 64 bits by 126 and 127. -/
def payloadLength (short : Nat) : Scanner FrameError Nat :=
  if short = 126 then do
    let n ← ofBigEndian <$> take 2
    ensure (126 ≤ n) .nonCanonicalLength
    return n
  else if short = 127 then do
    let n ← ofBigEndian <$> take 8
    ensure (n < 2 ^ 63) .lengthOverflow
    ensure (0x10000 ≤ n) .nonCanonicalLength
    return n
  else return short

/-- The key of a payload, where the length byte announces one. -/
def maskKey (announced : Bool) : Scanner FrameError (Option MaskKey) :=
  if announced then MaskKey.ofBytes? <$> take 4 else return none

/-- Length, key and bytes of a payload of at most `limit` bytes. -/
def payload (limit : Nat) : Scanner FrameError Payload := do
  let b ← any
  let length ← payloadLength (b.toNat % 128)
  ensure (length ≤ limit) (.tooLarge length limit)
  let mask ← maskKey (128 ≤ b.toNat)
  let start ← position
  let _ ← take length
  return ⟨mask, ⟨start, length⟩⟩

/-- The first byte of a frame: whether the message ends with it, and its opcode. -/
def firstByte : Scanner FrameError (Bool × Opcode) := do
  let b ← any
  ensure (b.toNat / 16 % 8 == 0) .reservedBits
  match Opcode.ofCode? (b.toNat % 16) with
  | none => refuse (.invalidOpcode (b.toNat % 16))
  | some opcode => return (128 ≤ b.toNat, opcode)

/-- The rules for control frames, checked as soon as the length byte is there. -/
def controlRules (fin : Bool) (opcode : Opcode) : Scanner FrameError Unit :=
  if opcode.isControl then do
    ensure fin .fragmentedControl
    fun c =>
      match c.rest with
      | [] => .done () c
      | b :: _ =>
        if maxControlPayload < b.toNat % 128 then .fail (.controlTooLarge (b.toNat % 128))
        else .done () c
  else return ()

/-- One frame with a payload of at most `limit` bytes. -/
def frame (limit : Nat) : Scanner FrameError FrameHeader := do
  let (fin, opcode) ← firstByte
  controlRules fin opcode
  let payload ← payload limit
  return ⟨fin, opcode, payload.mask, payload.content⟩

def readFrame (limit : Nat) (input : Bytes) : Scan FrameError FrameHeader := frame limit ⟨0, input⟩

theorem advances_firstByte : firstByte.Advances :=
  advances_any.bind fun b => (forward_ensure _ _).bind fun _ => by
    split
    · exact forward_refuse _
    · exact forward_pure _

theorem forward_controlRules (fin : Bool) (opcode : Opcode) :
    (controlRules fin opcode).Forward := by
  unfold controlRules
  split
  · refine (forward_ensure _ _).bind fun _ c a next h => ?_
    split at h
    · cases h
      exact ⟨[], rfl, rfl⟩
    · split at h <;> cases h
      exact ⟨[], rfl, rfl⟩
  · exact forward_pure _

theorem forward_payloadLength (short : Nat) : (payloadLength short).Forward := by
  have digits (n : Nat) : (ofBigEndian <$> take n : Scanner FrameError Nat).Forward :=
    (forward_take n).bind fun _ => forward_pure _
  unfold payloadLength
  split
  · exact (digits 2).bind fun _ => (forward_ensure _ _).bind fun _ => forward_pure _
  · split
    · exact (digits 8).bind fun _ => (forward_ensure _ _).bind fun _ =>
        (forward_ensure _ _).bind fun _ => forward_pure _
    · exact forward_pure _

theorem forward_maskKey (announced : Bool) : (maskKey announced).Forward := by
  unfold maskKey
  split
  · exact (forward_take _).bind fun _ => forward_pure _
  · exact forward_pure _

theorem forward_payload (limit : Nat) : (payload limit).Forward :=
  advances_any.forward.bind fun _ => (forward_payloadLength _).bind fun _ =>
    (forward_ensure _ _).bind fun _ => (forward_maskKey _).bind fun _ => forward_position.bind
      fun _ => (forward_take _).bind fun _ => forward_pure _

theorem advances_frame (limit : Nat) : (frame limit).Advances :=
  advances_firstByte.bind fun _ => (forward_controlRules _ _).bind fun _ =>
    (forward_payload _).bind fun _ => forward_pure _

end Reading

section Writing

/-- The bytes of a number, the highest first. -/
def toBigEndian (width n : Nat) : Bytes :=
  (List.range width).map fun i => UInt8.ofNat (n / 256 ^ (width - 1 - i))

/-- The shortest form of a length, its first byte joined with the bit that announces a key. -/
def lengthBytes (maskBit n : Nat) : Bytes :=
  if n ≤ 125 then [UInt8.ofNat (maskBit + n)]
  else if n ≤ 0xffff then UInt8.ofNat (maskBit + 126) :: toBigEndian 2 n
  else UInt8.ofNat (maskBit + 127) :: toBigEndian 8 n

def headerBytes (opcode : Opcode) (fin : Bool) (length : Nat) (mask : Option MaskKey) : Bytes :=
  UInt8.ofNat ((if fin then 128 else 0) + opcode.code) ::
    lengthBytes (if mask.isSome then 128 else 0) length ++
      (match mask with
      | some key => key.bytes
      | none => [])

/-- A frame on the wire. Its payload is masked when there is a key. -/
def frameBytes (opcode : Opcode) (fin : Bool) (payload : Bytes) (mask : Option MaskKey) : Bytes :=
  headerBytes opcode fin payload.length mask ++ masked mask payload

end Writing

/-- The code that a close frame gives for its reason. -/
def closeCode? : Bytes → Option Nat
  | hi :: lo :: _ => some (hi.toNat * 256 + lo.toNat)
  | _ => none

/-- The pieces behind the first one. The last piece ends the message and may be empty. -/
def laterFrames (size : Nat) (rest : Bytes) : Bytes :=
  if _h : 0 < size ∧ size < rest.length then
    frameBytes .continuation false (rest.take size) none ++ laterFrames size (rest.drop size)
  else frameBytes .continuation true rest none
  termination_by rest.length
  decreasing_by simp only [List.length_drop]; omega

/-- A message of the server. It goes out in one frame when it is shorter than `size` bytes, and
else in pieces of that size. -/
def messageBytes (opcode : Opcode) (payload : Bytes) (size : Nat) : Bytes :=
  if size = 0 ∨ payload.length < size then frameBytes opcode true payload none
  else
    frameBytes opcode false (payload.take size) none ++ laterFrames size (payload.drop size)

end OriginServer.WebSocket
