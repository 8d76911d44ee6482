import OriginServer.Storage.Buffer

namespace OriginServer.Site

/-- How the sending of a part of a file ends. -/
inductive Ending where
  | whole
  /-- The file became too short. -/
  | short
  /-- A chunk would take more memory than there can be. -/
  | overflow
  deriving Repr, DecidableEq

structure FileBody where
  file : Bytes
  offset : Nat
  remaining : Nat
  chunkSize : Nat
  chunkSize_pos : 0 < chunkSize
  deriving Repr, DecidableEq

namespace FileBody

def make (file : Bytes) (offset remaining chunkSize : Nat) : FileBody :=
  ⟨file, offset, remaining, max chunkSize 1, by omega⟩

/-- The bytes of a stretch of a file, if it has them all. -/
def read? (file : Bytes) (offset size : Nat) : Option Bytes :=
  let bytes := file.slice offset size
  if bytes.length = size then some bytes else none

/-- The next piece, or nothing in its place when the file is too short, and what is left then. -/
def next? (b : FileBody) : Option (Option Bytes × FileBody) :=
  if b.remaining = 0 then none
  else
    let size := min b.remaining b.chunkSize
    match read? b.file b.offset size with
    | some bytes =>
      some (some bytes, { b with offset := b.offset + size, remaining := b.remaining - size })
    | none => some (none, { b with remaining := 0 })

theorem next?_remaining {b next : FileBody} {piece : Option Bytes}
    (h : b.next? = some (piece, next)) : next.remaining < b.remaining := by
  have hp := b.chunkSize_pos
  unfold next? at h
  split at h
  · cases h
  · dsimp only at h
    split at h <;> cases h <;> dsimp only <;> omega

/-- The pieces in order, and whether the file had them all. -/
def pieces (b : FileBody) : List Bytes × Bool :=
  match _h : b.next? with
  | none => ([], true)
  | some (none, _) => ([], false)
  | some (some bytes, next) =>
    let (rest, complete) := next.pieces
    (bytes :: rest, complete)
  termination_by b.remaining
  decreasing_by exact next?_remaining _h

/-- Sends the part piece by piece. Each piece has a store of its own, taken before it is read. -/
def stream (b : FileBody) : List Bytes × Ending :=
  if Buffer.maxStore < min b.remaining b.chunkSize then ([], .overflow)
  else
    match _h : b.next? with
    | none => ([], .whole)
    | some (none, _) => ([], .short)
    | some (some bytes, next) =>
      let (rest, ending) := next.stream
      (bytes :: rest, ending)
  termination_by b.remaining
  decreasing_by exact next?_remaining _h

/-- What is written of `remaining` bytes from `offset` on. -/
def written (file : Bytes) (chunkSize : Nat) (chunkSize_pos : 0 < chunkSize)
    (offset remaining : Nat) : List Bytes × Ending :=
  if _h : 0 < remaining then
    let size := min remaining chunkSize
    match read? file offset size with
    | some bytes =>
      let (rest, ending) := written file chunkSize chunkSize_pos (offset + size) (remaining - size)
      (bytes :: rest, ending)
    | none => ([], .short)
  else ([], .whole)
  termination_by remaining

/-- Sends the part all at once. The pieces share a store for a full chunk, taken before the first
of them, even if there is none. -/
def send (b : FileBody) : List Bytes × Ending :=
  if Buffer.maxStore < b.chunkSize then ([], .overflow)
  else written b.file b.chunkSize b.chunkSize_pos b.offset b.remaining

end FileBody

end OriginServer.Site
