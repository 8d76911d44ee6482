import OriginServer.Bytes

namespace OriginServer

/-- The white space characters of Unicode. -/
def isBlankChar (c : Char) : Bool :=
  let n := c.toNat
  (9 ≤ n && n ≤ 13) || n == 0x20 || n == 0x85 || n == 0xa0 || n == 0x1680 ||
    (0x2000 ≤ n && n ≤ 0x200a) || n == 0x2028 || n == 0x2029 || n == 0x202f || n == 0x205f ||
    n == 0x3000

/-- Strips white space from both ends of a text. -/
def trimBlanks (text : List Char) : List Char :=
  ((text.dropWhile isBlankChar).reverse.dropWhile isBlankChar).reverse

namespace Http

inductive Method where
  | get | head | post | put | delete | options | patch | connect | trace
  deriving Repr, DecidableEq

namespace Method

def all : List Method := [get, head, post, put, delete, options, patch, connect, trace]

def name : Method → String
  | get => "GET"
  | head => "HEAD"
  | post => "POST"
  | put => "PUT"
  | delete => "DELETE"
  | options => "OPTIONS"
  | patch => "PATCH"
  | connect => "CONNECT"
  | trace => "TRACE"

def ofBytes? (bytes : Bytes) : Option Method := all.find? fun m => Bytes.ofText m.name == bytes

end Method

/-- The bytes from an index up to another one, or up to the end of the file. -/
structure ByteRange where
  first : Nat
  last : Option Nat
  deriving Repr, DecidableEq

namespace ByteRange

def numeral? (digits : List Char) : Option Nat :=
  Numeral.decimal? (Bytes.ofText (String.ofList digits))

/-- The last index of a range. Nothing, and also zero, stands for the end of the file. -/
def last? (digits : List Char) : Option (Option Nat) :=
  if digits.isEmpty then some none
  else (numeral? digits).map fun n => if n = 0 then none else some n

def ofRange? (range : List Char) : Option ByteRange :=
  match range.dropWhile (· != '-') with
  | [] => none
  | _ :: bound => do
    let first ← numeral? (trimBlanks (range.takeWhile (· != '-')))
    let last ← last? (trimBlanks bound)
    return ⟨first, last⟩

/-- Reads the value of a `Range` field. Only a single range with a first index is understood. -/
def read? (value : Bytes) : Option ByteRange := do
  let text := trimBlanks (← value.toText?).toList
  let unit := "bytes=".toList
  if text.take unit.length ≠ unit then none
  else
    let range := trimBlanks (text.drop unit.length)
    if range.contains ',' then none else ofRange? range

/-- The first and the last index of the range in a file of `total` bytes. -/
def resolve? (range : ByteRange) (total : Nat) : Option (Nat × Nat) :=
  if total ≤ range.first then none
  else
    match range.last with
    | none => some (range.first, total - 1)
    | some last => if last < range.first then none else some (range.first, min last (total - 1))

end ByteRange

namespace HostName

/-- The host without its port. A host in square brackets ends with the first closing one. -/
def withoutPort (host : List Char) : List Char :=
  if host.head? = some '[' then
    if host.contains ']' then host.takeWhile (· != ']') ++ [']'] else host
  else host.takeWhile (· != ':')

def withoutDots (name : List Char) : List Char := (name.reverse.dropWhile (· == '.')).reverse

/-- Whether the value of a `Host` field names the domain. -/
def names (value : Bytes) (domain : String) : Bool :=
  match value.toText? with
  | none => false
  | some text =>
    let name := withoutDots (withoutPort (trimBlanks text.toList))
    !name.isEmpty && sameLetters (String.ofList name) (String.ofList (withoutDots domain.toList))

end HostName

end Http

end OriginServer
