import OriginServer.Bytes

namespace OriginServer.Sha1

structure State where
  a : UInt32
  b : UInt32
  c : UInt32
  d : UInt32
  e : UInt32
  deriving Repr, DecidableEq

def initial : State := ⟨0x67452301, 0xefcdab89, 0x98badcfe, 0x10325476, 0xc3d2e1f0⟩

def rotate (n : UInt32) (x : UInt32) : UInt32 := (x <<< n) ||| (x >>> (32 - n))

/-- The bytes of a number, the highest first. -/
def bigEndian (width n : Nat) : Bytes :=
  (List.range width).map fun i => UInt8.ofNat (n / 256 ^ (width - 1 - i))

/-- The message with the mark of its end, zeros, and its length in bits. -/
def padded (message : Bytes) : Bytes :=
  message ++ 0x80 :: List.replicate ((119 - message.length % 64) % 64) 0 ++
    bigEndian 8 (message.length * 8)

def word (bytes : Bytes) : UInt32 := bytes.foldl (fun n b => n * 256 + b.toUInt32) 0

/-- Cuts bytes into blocks of `size` bytes. -/
def blocks (size : Nat) (bytes : Bytes) : List Bytes :=
  (List.range (bytes.length / size)).map fun i => (bytes.drop (i * size)).take size

/-- The eighty words of a block: sixteen of its own, and each of the others from four before. -/
def schedule (block : Bytes) : Array UInt32 :=
  (List.range 64).foldl
    (fun w i => w.push (rotate 1 (w.getD (i + 13) 0 ^^^ w.getD (i + 8) 0 ^^^ w.getD (i + 2) 0 ^^^
      w.getD i 0)))
    ((blocks 4 block).map word).toArray

/-- The function and the constant of a round. -/
def mix (i : Nat) (s : State) : UInt32 :=
  if i < 20 then ((s.b &&& s.c) ||| ((~~~ s.b) &&& s.d)) + 0x5a827999
  else if i < 40 then (s.b ^^^ s.c ^^^ s.d) + 0x6ed9eba1
  else if i < 60 then ((s.b &&& s.c) ||| (s.b &&& s.d) ||| (s.c &&& s.d)) + 0x8f1bbcdc
  else (s.b ^^^ s.c ^^^ s.d) + 0xca62c1d6

def round (w : Array UInt32) (s : State) (i : Nat) : State :=
  ⟨rotate 5 s.a + mix i s + s.e + w.getD i 0, s.a, rotate 30 s.b, s.c, s.d⟩

def absorb (s : State) (block : Bytes) : State :=
  let t := (List.range 80).foldl (round (schedule block)) s
  ⟨s.a + t.a, s.b + t.b, s.c + t.c, s.d + t.d, s.e + t.e⟩

/-- The digest of a message, twenty bytes. -/
def digest (message : Bytes) : Bytes :=
  let s := (blocks 64 (padded message)).foldl absorb initial
  [s.a, s.b, s.c, s.d, s.e].flatMap fun w => bigEndian 4 w.toNat

end OriginServer.Sha1
