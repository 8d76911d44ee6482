import OriginServer.Url.Address
import OriginServer.Url.Domain

namespace OriginServer

/-- How the schemes read what follows the colon. -/
inductive Url.Kind where
  /-- Local files: the host may be missing and never has a port. -/
  | file
  /-- The web schemes: there is a host, and a backslash counts as a slash. -/
  | web
  | other
  deriving Repr, DecidableEq

inductive Url.Host where
  | domain (name : List Char)
  | ipv4 (address : Nat)
  | ipv6 (groups : List Nat)
  /-- A host under a scheme that gives it no structure. -/
  | uninterpreted (name : List Char)
  deriving Repr, DecidableEq

structure Url where
  scheme : List Char
  host : Option Url.Host
  port : Option Nat
  path : List Char
  deriving Repr, DecidableEq

namespace Url

def Kind.ofScheme (scheme : List Char) : Kind :=
  match String.ofList scheme with
  | "file" => .file
  | "http" | "https" | "ws" | "wss" | "ftp" => .web
  | _ => .other

/-- Slashes, and backslashes where the scheme takes them for slashes. -/
def Kind.isSlash (kind : Kind) (c : Char) : Bool := c == '/' || (c == '\\' && kind != .other)

/-- The characters that count: those left when the ends are trimmed and line breaks dropped. -/
def significant (text : List Char) : List Char :=
  let isEdge : Char → Bool := (· ≤ ' ')
  let trimmed := ((text.dropWhile isEdge).reverse.dropWhile isEdge).reverse
  trimmed.filter fun c => c != '\t' && c != '\n' && c != '\r'

/-- The scheme in lower case and what follows its colon. -/
def scheme? (text : List Char) : Option (List Char × List Char) :=
  let isSchemeChar : Char → Bool := fun c => c.isAlphanum || c == '+' || c == '-' || c == '.'
  match text.takeWhile isSchemeChar, text.dropWhile isSchemeChar with
  | c :: name, ':' :: rest => if c.isAlpha then some ((c :: name).map Char.toLower, rest) else none
  | _, _ => none

/-- The part up to the path, query or fragment, and what follows it. -/
def authority (kind : Kind) (text : List Char) : List Char × List Char :=
  let isInside : Char → Bool := fun c => !(kind.isSlash c || c == '?' || c == '#')
  (text.takeWhile isInside, text.dropWhile isInside)

/-- What follows the last at sign: the host without user name and password. -/
def withoutUser (authority : List Char) : List Char :=
  (authority.reverse.takeWhile (· != '@')).reverse

/-- The host and what follows its colon. Colons within brackets belong to the host. -/
def hostAndPort (bracketed : Bool) : List Char → List Char × Option (List Char)
  | [] => ([], none)
  | c :: cs =>
    if c = ':' ∧ bracketed = false then ([], some cs)
    else
      let (host, port) := hostAndPort (c == '[' || (bracketed && c != ']')) cs
      (c :: host, port)

/-- A port number; no digits leave the port open. -/
def port? (digits : List Char) : Option (Option Nat) :=
  if digits.isEmpty then some none
  else (Numeral.ofDigits? 10 digits).bind fun n => if n ≤ 0xffff then some (some n) else none

/-- The inside of a pair of square brackets. -/
def unbracket? (host : List Char) : Option (List Char) :=
  match host with
  | '[' :: inner => if inner.getLast? = some ']' then some inner.dropLast else none
  | _ => none

def Host.ofText? (kind : Kind) (text : List Char) : Option Host :=
  if text.head? = some '[' then (unbracket? text).bind fun inner => (Ipv6.ofText? inner).map .ipv6
  else if kind = .other then
    if text.any fun c => c == '\x00' || " <>@[]^|\\".contains c then none
    else some (.uninterpreted text)
  else do
    let name ← Domain.ofHost? text
    if Ipv4.endsInNumber name then (Ipv4.ofText? name).map .ipv4 else some (.domain name)

/-- The ways to write a dot in a path segment. -/
def isDot (segment : List Char) : Bool :=
  let text := String.ofList (segment.map Char.toLower)
  text == "." || text == "%2e"

def isDotDot (segment : List Char) : Bool :=
  let text := String.ofList (segment.map Char.toLower)
  text == ".." || text == ".%2e" || text == "%2e." || text == "%2e%2e"

/-- The segments of a path between slashes. -/
def segments (kind : Kind) (text : List Char) : List (List Char) := text.splitOnP kind.isSlash

/-- A drive: a letter with its mark. A backslash may follow where it is no slash. -/
def isDrive : List Char → Bool
  | c :: mark :: rest =>
    c.isAlpha && (mark == ':' || mark == '|') && rest.head?.all (· == '\\')
  | _ => false

/-- Where a segment leads to from the segments in `stack`, the last of which comes first. Two dots
never leave a drive. -/
def follow (stack : List (List Char)) (segment : List Char) : List (List Char) :=
  if isDotDot segment then if stack.head?.any isDrive then stack else stack.tail
  else if isDot segment then stack
  else segment :: stack

/-- Follows the segments of a path. A dot at its end leaves an empty segment. -/
def resolve (stack : List (List Char)) : List (List Char) → List (List Char)
  | [] => stack.reverse
  | segment :: rest =>
    let next := follow stack segment
    if rest.isEmpty && (isDot segment || isDotDot segment) then ([] :: next).reverse
    else resolve next rest

/-- The path that the text behind the authority begins with, up to a query or fragment. Only the
web schemes put a slash where there is no path, and local paths begin with a single slash. -/
def pathOf (kind : Kind) (text : List Char) : List Char :=
  let raw := text.takeWhile fun c => c != '?' && c != '#'
  if raw.isEmpty && kind == .other then []
  else
    let raw := if kind.isSlash (raw.headD '?') then raw.drop 1 else raw
    let path := (resolve [] (segments kind raw)).flatMap ('/' :: ·)
    if kind = .file then '/' :: path.dropWhile (· == '/') else path

/-- A drive as the first segment of a local path takes the place of the host. -/
def meetsDrive (stack : List (List Char)) : List (List Char) → Bool
  | [] => false
  | segment :: rest =>
    (stack.isEmpty && isDrive segment) || meetsDrive (follow stack segment) rest

/-- The URL behind the double slash of its scheme. A backslash ends a port under any scheme. -/
def ofAuthority? (scheme : List Char) (kind : Kind) (text : List Char) : Option Url := do
  let (authority, rest) := authority kind text
  let (host, digits) := hostAndPort false (withoutUser authority)
  if host.isEmpty then
    if kind = .web ∨ digits.isSome ∨ authority.contains '@' then none
    else return ⟨scheme, none, none, pathOf kind rest⟩
  else
    let host ← Host.ofText? kind host
    let digits := digits.getD []
    let port ← port? (digits.takeWhile (· != '\\'))
    return ⟨scheme, some host, port, pathOf kind (digits.dropWhile (· != '\\') ++ rest)⟩

/-- A URL of a local file, whose authority is a host alone. -/
def ofFile? (scheme text : List Char) : Option Url := do
  let (authority, rest) := authority .file text
  let host ← if authority.isEmpty then some none else (Host.ofText? .file authority).map some
  let raw := (rest.takeWhile fun c => c != '?' && c != '#').drop 1
  let isLocal := host = some (.domain "localhost".toList) ∨ meetsDrive [] (segments .file raw)
  return ⟨scheme, if isLocal then none else host, none, pathOf .file rest⟩

/-- Reads an absolute URL. -/
def parse? (text : String) : Option Url := do
  let (scheme, rest) ← scheme? (significant text.toList)
  let kind := Kind.ofScheme scheme
  match kind, rest with
  | .web, rest => ofAuthority? scheme kind (rest.dropWhile kind.isSlash)
  | .file, a :: b :: rest =>
    if kind.isSlash a && kind.isSlash b then ofFile? scheme rest
    else return ⟨scheme, none, none, pathOf kind (a :: b :: rest)⟩
  | .other, '/' :: '/' :: rest => ofAuthority? scheme kind rest
  | _, rest => return ⟨scheme, none, none, rest.takeWhile fun c => c != '?' && c != '#'⟩

end Url

end OriginServer
