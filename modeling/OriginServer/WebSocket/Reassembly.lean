import OriginServer.WebSocket.StoredFrame

namespace OriginServer.WebSocket

inductive FragmentError where
  | unexpected (before found : Fragmentation)
  | tooLarge (limit : Nat)
  deriving Repr, DecidableEq

def FragmentError.message : FragmentError → String
  | unexpected before found => s!"{found.name} frame cannot follow {before.name}"
  | tooLarge limit => s!"message exceeds {limit} bytes"

namespace Fragmentation

/-- Whether a message stays open after such a frame. -/
def leavesOpen : Fragmentation → Bool
  | start => true
  | .continue => true
  | _ => false

/-- Whether such a frame belongs to an open message. -/
def needsOpen : Fragmentation → Bool
  | .continue => true
  | last => true
  | _ => false

/-- Whether a frame may come after another one. -/
def follows (found before : Fragmentation) : Bool := found.needsOpen == before.leavesOpen

end Fragmentation

/-- A whole message, with the frames that it came in. -/
structure Reassembled where
  opcode : Opcode
  payload : Bytes
  spent : List StoredFrame
  deriving Repr, DecidableEq

/-- The frames of the message that is open. -/
structure Reassembly where
  maxMessageSize : Nat
  frames : List StoredFrame := []
  /-- How many frames there are. -/
  count : Nat := 0
  /-- The payload bytes counted so far. Those of a frame that made them too many stay counted. -/
  size : Nat := 0
  last : Fragmentation := .none
  deriving Repr, DecidableEq

namespace Reassembly

/-- The message of the frames, which has the opcode of the first one. -/
def join (frames : List StoredFrame) : Reassembled :=
  { opcode := (frames.head?.map (·.opcode)).getD .binary
    payload := frames.flatMap (·.content)
    spent := frames }

/-- Takes the next data frame, in the clear. The answer is the message that it completes. -/
def push (r : Reassembly) (frame : StoredFrame) :
    Except FragmentError (Option Reassembled) × Reassembly :=
  let found := frame.fragmentation
  let size := r.size + frame.content.length
  if !found.follows r.last then (.error (.unexpected r.last found), r)
  else if r.maxMessageSize < size then (.error (.tooLarge r.maxMessageSize), { r with size })
  else
    let frames := r.frames ++ [frame]
    let count := r.count + 1
    if found.leavesOpen then (.ok none, { r with frames, count, size, last := found })
    else (.ok (some (join frames)), { r with frames := [], count := 0, size := 0, last := found })

/-- Drops the open message. Its frames come first. -/
def reset (r : Reassembly) : List StoredFrame × Reassembly :=
  (r.frames, { r with frames := [], count := 0, size := 0, last := .none })

end Reassembly

end OriginServer.WebSocket
