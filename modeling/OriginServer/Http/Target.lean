import OriginServer.Http.DotSegments
import OriginServer.Url.Reference

namespace OriginServer.Http.Target

open Ascii

def isUnreserved (b : UInt8) : Bool :=
  isAlphanum b || b == 0x2d || b == dot || b == 0x5f || b == 0x7e

def isSubDelimiter (b : UInt8) : Bool :=
  b == 0x21 || b == 0x24 || (0x26 ≤ b && b ≤ 0x2c) || b == semicolon || b == equals

/-- What a path with a query may hold. A percent sign begins an escape. -/
def isPathByte (b : UInt8) : Bool :=
  isUnreserved b || isSubDelimiter b || b == colon || b == 0x40 || b == slash || b == 0x3f ||
    b == percent

/-- Two hexadecimal digits follow every percent sign. -/
def hasEscapes : Bytes → Bool
  | [] => true
  | b :: rest =>
    (b != percent ||
      match rest with
      | hi :: lo :: _ => isHexDigit hi && isHexDigit lo
      | _ => false) && hasEscapes rest

def isOriginForm (target : Bytes) : Bool :=
  target.head? == some slash && target.all isPathByte && hasEscapes target

/-- Whether a colon with two slashes stands somewhere in the text. -/
def hasSchemeMark : List Char → Bool
  | [] => false
  | c :: rest => (c == ':' && rest.take 2 == ['/', '/']) || hasSchemeMark rest

/-- The URL of a target that has a scheme, a host and no fragment. -/
def url? (target : String) : Option Url :=
  let text := target.toList
  if text.contains '#' || !hasSchemeMark text then none
  else (Url.parse? target).filter (·.host.isSome)

def isUrl (target : String) : Bool := (url? target).isSome

/-- Whether the target is text that `isUrl` takes for a URL. -/
def isAbsoluteForm (isUrl : String → Bool) (target : Bytes) : Bool := target.toText?.any isUrl

/-- A host and, behind the last colon, a port. -/
def isAuthorityForm (target : Bytes) : Bool :=
  let port := (target.reverse.takeWhile (· != colon)).reverse
  let host := target.take (target.length - port.length - 1)
  target.contains colon && !host.isEmpty && !port.isEmpty && port.all isDigit &&
    host.all fun b => isUnreserved b || isSubDelimiter b || b == 0x5b || b == 0x5d || b == colon

def isValid (isUrl : String → Bool) (target : Bytes) : Bool :=
  match target with
  | [] => false
  | b :: rest =>
    if b = slash then isOriginForm target
    else if b = asterisk then rest.isEmpty
    else isAbsoluteForm isUrl target || isAuthorityForm target

/-- The path of a target as it was sent, without query and fragment. -/
def rawPath? (target : String) : Option String :=
  if target.toList.head? = some '/' then
    some (String.ofList (target.toList.takeWhile fun c => c != '?' && c != '#'))
  else (url? target).map fun url => String.ofList url.path

/-- The decoded path of a target, free of dot segments. An asterisk and a host have none. -/
def path? (target : String) : Option String :=
  ((rawPath? target).bind Percent.decodeText?).map DotSegments.remove

end OriginServer.Http.Target
