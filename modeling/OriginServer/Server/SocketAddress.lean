import OriginServer.Bytes
import OriginServer.Url.Address

namespace OriginServer

inductive Host where
  | v4 (octets : List Nat)
  | v6 (groups : List Nat)
  deriving Repr, DecidableEq

structure SocketAddress where
  host : Host
  port : Nat
  deriving Repr, DecidableEq

namespace Host

/-- Four decimal bytes between dots. -/
def v4? (text : List Char) : Option Host :=
  ((text.splitOn '.').mapM Url.Ipv6.byte?).bind fun octets =>
    if octets.length = 4 then some (v4 octets) else none

/-- The length of the run of zeros at the front. -/
def zeros (groups : List Nat) : Nat := (groups.takeWhile (· == 0)).length

/-- Place and length of the first one of the longest runs of zeros. -/
def longestRun : List Nat → Nat × Nat
  | [] => (0, 0)
  | g :: rest =>
    let (place, length) := longestRun rest
    if length ≤ zeros (g :: rest) then (0, zeros (g :: rest)) else (place + 1, length)

def dotted (octets : List Nat) : String := String.intercalate "." (octets.map toString)

def colons (groups : List Nat) : String :=
  String.intercalate ":" (groups.map fun g => String.ofList (Nat.toDigits 16 g))

/-- The groups of an IPv6 address. The longest run of at least two zeros is left out, and an
address that stands for an IPv4 address ends in its dotted form. -/
def groupsText : List Nat → String
  | [0, 0, 0, 0, 0, 0xffff, hi, lo] =>
    "::ffff:" ++ dotted [hi / 256, hi % 256, lo / 256, lo % 256]
  | groups =>
    let (place, length) := longestRun groups
    if length < 2 then colons groups
    else colons (groups.take place) ++ "::" ++ colons (groups.drop (place + length))

def text : Host → String
  | v4 octets => dotted octets
  | v6 groups => "[" ++ groupsText groups ++ "]"

end Host

namespace SocketAddress

def text (a : SocketAddress) : String := a.host.text ++ ":" ++ toString a.port

def port? (digits : List Char) : Option Nat :=
  (Numeral.decimal? (Bytes.ofText (String.ofList digits))).filter (· < 65536)

def ofText? (text : String) : Option SocketAddress :=
  match text.toList with
  | '[' :: rest => do
    let groups ← Url.Ipv6.ofText? (rest.takeWhile (· != ']'))
    match rest.dropWhile (· != ']') with
    | ']' :: ':' :: digits => return ⟨.v6 groups, ← port? digits⟩
    | _ => none
  | chars => do
    let host ← Host.v4? (chars.takeWhile (· != ':'))
    match chars.dropWhile (· != ':') with
    | ':' :: digits => return ⟨host, ← port? digits⟩
    | _ => none

end SocketAddress

end OriginServer
