import OriginServer.Proofs.WebSocket.Frame
import OriginServer.Storage.Buffer

namespace OriginServer.WebSocket

structure ClientFrame where
  opcode : Opcode
  fin : Bool := true
  payload : Bytes
  mask : Option MaskKey

def ClientFrame.bytes (f : ClientFrame) : Bytes := frameBytes f.opcode f.fin f.payload f.mask

/-- Frames on the wire, one behind the other. -/
def wireOf (frames : List ClientFrame) : Bytes := frames.flatMap (·.bytes)

/-- A ping, which asks for an answer, or a pong. -/
structure Probe where
  asks : Bool
  payload : Bytes
  small : payload.length ≤ 125
  mask : Option MaskKey

def Probe.frame (p : Probe) : ClientFrame :=
  { opcode := if p.asks then .ping else .pong, payload := p.payload, mask := p.mask }

/-- A piece of a message, with the pings and pongs in front of it. -/
structure Piece where
  probes : List Probe
  content : Bytes
  mask : Option MaskKey

def Piece.frames (p : Piece) (opcode : Opcode) (fin : Bool) : List ClientFrame :=
  p.probes.map Probe.frame ++ [⟨opcode, fin, p.content, p.mask⟩]

/-- The frames of the pieces behind the first one. The last of them ends the message. -/
def continuations : List Piece → List ClientFrame
  | [] => []
  | p :: later => p.frames .continuation later.isEmpty ++ continuations later

structure ClientMessage where
  opcode : Opcode
  isData : opcode = .text ∨ opcode = .binary
  first : Piece
  later : List Piece

namespace ClientMessage

def frames (m : ClientMessage) : List ClientFrame :=
  m.first.frames m.opcode m.later.isEmpty ++ continuations m.later

def payload (m : ClientMessage) : Bytes := m.first.content ++ m.later.flatMap (·.content)

end ClientMessage

/-- A closing frame, and what a client sends behind it. -/
structure Closing where
  payload : Bytes
  small : payload.length ≤ 125
  mask : Option MaskKey
  behind : Bytes

def Closing.frame (k : Closing) : ClientFrame :=
  { opcode := .close, payload := k.payload, mask := k.mask }

/-- All that a client sends. -/
structure Conversation where
  messages : List ClientMessage
  /-- The pings and pongs behind the last message. -/
  probes : List Probe
  closing : Option Closing

namespace Conversation

def frames (c : Conversation) : List ClientFrame :=
  c.messages.flatMap (·.frames) ++ c.probes.map Probe.frame ++ c.closing.toList.map Closing.frame

def wire (c : Conversation) : Bytes := wireOf c.frames ++ c.closing.toList.flatMap (·.behind)

end Conversation

theorem wireOf_append (a b : List ClientFrame) : wireOf (a ++ b) = wireOf a ++ wireOf b :=
  List.flatMap_append

/-- Control frames of a client are whole and small. -/
def ClientFrame.Controlled (f : ClientFrame) : Prop :=
  f.opcode.isControl = true → f.fin = true ∧ f.payload.length ≤ 125

/-- A frame that is read where payloads of at most `limit` bytes are. -/
structure ClientFrame.Readable (limit : Nat) (f : ClientFrame) : Prop where
  small : f.payload.length < 2 ^ 63
  fits : f.payload.length ≤ limit
  control : f.Controlled

theorem Probe.controlled (p : Probe) : p.frame.Controlled := fun _ => ⟨rfl, p.small⟩

theorem Piece.controlled (p : Piece) {opcode : Opcode} (fin : Bool)
    (ho : opcode.isControl = false) : ∀ f ∈ p.frames opcode fin, f.Controlled := by
  refine List.forall_mem_append.2 ⟨List.forall_mem_map.2 fun q _ => q.controlled, ?_⟩
  exact List.forall_mem_singleton.2 fun h => absurd (ho.symm.trans h) Bool.false_ne_true

theorem continuations_controlled (later : List Piece) :
    ∀ f ∈ continuations later, f.Controlled := by
  induction later with
  | nil => exact List.forall_mem_nil _
  | cons p later ih => exact List.forall_mem_append.2 ⟨p.controlled _ rfl, ih⟩

theorem ClientMessage.opcode_isControl (m : ClientMessage) : m.opcode.isControl = false := by
  rcases m.isData with h | h <;> rw [h] <;> rfl

theorem ClientMessage.controlled (m : ClientMessage) : ∀ f ∈ m.frames, f.Controlled :=
  List.forall_mem_append.2
    ⟨m.first.controlled _ m.opcode_isControl, continuations_controlled m.later⟩

theorem Conversation.controlled (c : Conversation) : ∀ f ∈ c.frames, f.Controlled := by
  refine List.forall_mem_append.2 ⟨List.forall_mem_append.2 ⟨?_, ?_⟩, ?_⟩
  · intro f hf
    obtain ⟨m, -, hm⟩ := List.mem_flatMap.1 hf
    exact m.controlled f hm
  · exact List.forall_mem_map.2 fun p _ => p.controlled
  · exact List.forall_mem_map.2 fun k _ _ => ⟨rfl, k.small⟩

theorem ClientFrame.length_payload_le (f : ClientFrame) : f.payload.length ≤ f.bytes.length := by
  rw [bytes, frameBytes, List.length_append, length_masked]
  exact Nat.le_add_left _ _

theorem Conversation.readable {c : Conversation} {limit : Nat}
    (hw : c.wire.length ≤ Buffer.maxStore) (hl : ∀ f ∈ c.frames, f.payload.length ≤ limit) :
    ∀ f ∈ c.frames, f.Readable limit := by
  intro f hf
  refine ⟨?_, hl f hf, c.controlled f hf⟩
  obtain ⟨front, back, he⟩ := List.append_of_mem hf
  have hlen := f.length_payload_le
  have hb : Buffer.maxStore < 2 ^ 63 := by decide
  rw [wire, he, ← List.singleton_append, wireOf_append, wireOf_append] at hw
  simp only [wireOf, List.flatMap_singleton, List.length_append] at hw
  omega

end OriginServer.WebSocket
