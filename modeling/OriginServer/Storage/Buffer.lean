import OriginServer.Bytes

namespace OriginServer

inductive BufferError where
  /-- The store cannot grow by `n` bytes. -/
  | noRoom (n : Nat)
  | outOfRange (place len : Nat)
  deriving Repr, DecidableEq

def BufferError.message : BufferError → String
  | noRoom n => s!"failed to grow buffer by {n} bytes"
  | outOfRange place len => s!"position {place} is past the buffer length {len}"

structure Buffer where
  /-- Behind the bytes in use it is kept zero. -/
  store : Bytes := []
  /-- How many bytes at the front of the store are in use. -/
  length : Nat := 0
  /-- The most bytes that stay in store when the buffer is cleared. -/
  threshold : Option Nat := none
  deriving Repr, DecidableEq

namespace Buffer

/-- No store is larger than this. -/
def maxStore : Nat := 2 ^ 63 - 1

def capacity (b : Buffer) : Nat := b.store.length

/-- The bytes in use. -/
def content (b : Buffer) : Bytes := b.store.take b.length

def isEmpty (b : Buffer) : Bool := b.length == 0

/-- Grows the store by `n` zero bytes. -/
def extend (b : Buffer) (n : Nat) : Except BufferError Buffer :=
  if n = 0 then .ok b
  else if maxStore < b.capacity + n then .error (.noRoom n)
  else .ok { b with store := b.store ++ List.replicate n 0 }

def withCapacity (n : Nat) : Except BufferError Buffer := extend {} n

def withThreshold (b : Buffer) (n : Nat) : Buffer := { b with threshold := some n }

/-- Appends bytes. The store grows by what it lacks. -/
def push (b : Buffer) (bytes : Bytes) : Except BufferError Buffer := do
  let needed := b.length + bytes.length
  let b ← b.extend (needed - b.capacity)
  return { b with store := b.content ++ bytes ++ b.store.drop needed, length := needed }

/-- Drops all but the first `n` bytes and zeroes the dropped ones. -/
def truncate (b : Buffer) (n : Nat) : Buffer :=
  if b.length ≤ n then b
  else
    { b with
      store := b.store.take n ++ List.replicate (b.length - n) 0 ++ b.store.drop b.length
      length := n }

/-- Replaces the bytes in use. -/
def set (b : Buffer) (bytes : Bytes) : Except BufferError Buffer := (b.truncate 0).push bytes

/-- Empties the buffer and gives back what is in store beyond the threshold. -/
def clear (b : Buffer) : Buffer :=
  let b := b.truncate 0
  match b.threshold with
  | some n => { b with store := b.store.take n }
  | none => b

/-- Rewrites the bytes in use in place. `f` has to keep their number. -/
def modify (b : Buffer) (f : Bytes → Bytes) : Buffer :=
  { b with store := f b.content ++ b.store.drop b.length }

/-- Moves the bytes from `place` on into a buffer of their own. The buffer that stays behind comes
first. -/
def shiftTrailing (b : Buffer) (place : Nat) : Except BufferError (Buffer × Buffer) :=
  if b.length < place then .error (.outOfRange place b.length)
  else do
    let tail ← push { threshold := b.threshold } (b.content.drop place)
    return (b.truncate place, tail)

theorem length_push {b b' : Buffer} {bytes : Bytes} (h : b.push bytes = .ok b') :
    b'.length = b.length + bytes.length := by
  simp only [push, bind, Except.bind] at h
  split at h
  · cases h
  · cases h
    rfl

theorem length_content_le (b : Buffer) : b.content.length ≤ b.length := by
  simp only [content, List.length_take]
  omega

theorem length_shiftTrailing {b kept rest : Buffer} {place : Nat}
    (h : b.shiftTrailing place = .ok (kept, rest)) :
    place ≤ b.length ∧ rest.length ≤ b.length - place := by
  unfold shiftTrailing at h
  split at h
  · cases h
  · simp only [bind, Except.bind] at h
    split at h
    · cases h
    · rename_i hp
      cases h
      have := length_push hp
      have := length_content_le b
      simp only [List.length_drop] at *
      omega

end Buffer

end OriginServer
