import OriginServer.Http.Target
import OriginServer.Http.Token

namespace OriginServer.Http

open Ascii Scanner

structure Version where
  major : Nat
  minor : Nat
  deriving Repr, DecidableEq

namespace Version

def atLeast (v : Version) (major minor : Nat) : Bool :=
  major < v.major || (v.major == major && minor ≤ v.minor)

def text (v : Version) : String := s!"HTTP/{v.major}.{v.minor}"

/-- The letters a version begins with, in either case. -/
def mark : Bytes := Bytes.ofText "HTTP/"

end Version

/-- One decimal digit. -/
def digit (e : ParseError) : Scanner ParseError Nat := do
  let b ← satisfy isDigit e
  return (b - 0x30).toNat

/-- A version of one digit on each side of the dot, behind optional white space. -/
def version : Scanner ParseError Version := do
  let _ ← run isBlank
  caseless Version.mark .invalidVersion
  let major ← digit .invalidVersion
  byte dot .invalidVersion
  let minor ← digit .invalidVersion
  notBefore isDigit .invalidVersion
  return ⟨major, minor⟩

structure RequestLine where
  method : Span
  target : Span
  version : Version
  deriving Repr, DecidableEq

/-- A token of at most `limit` bytes. A longer one is refused as soon as it is too long. -/
def methodName (limit : Nat) : Scanner ParseError Span := do
  let start ← position
  let name ← fun c =>
    if limit < tokenLength c.rest then .fail (.methodTooLong limit) else run isTokenByte c
  ensure (!name.isEmpty) .invalidRequestLine
  return ⟨start, name.length⟩

/-- A target, read up to the space behind it. -/
def requestTarget (isUrl : String → Bool) : Scanner ParseError Span := do
  let start ← position
  let target ← run isVisible
  byte sp .invalidTarget
  ensure (!target.isEmpty) .invalidRequestLine
  ensure (Target.isValid isUrl target) .invalidTarget
  return ⟨start, target.length⟩

def requestLine (isUrl : String → Bool) (maxMethodLength : Nat) :
    Scanner ParseError RequestLine := do
  let method ← methodName maxMethodLength
  byte sp .invalidRequestLine
  let target ← requestTarget isUrl
  notBefore isBlank .invalidRequestLine
  let version ← version
  lineEnd .invalidRequestLine
  return ⟨method, target, version⟩

structure StatusLine where
  version : Version
  code : Nat
  phrase : Span
  deriving Repr, DecidableEq

/-- What a reason phrase may hold. -/
def isPhraseByte (b : UInt8) : Bool := b == htab || !isControl b

def statusLine : Scanner ParseError StatusLine := do
  let version ← version
  byte sp .invalidStatusLine
  let hundreds ← digit .invalidStatusLine
  let tens ← digit .invalidStatusLine
  let ones ← digit .invalidStatusLine
  byte sp .invalidStatusLine
  let start ← position
  let phrase ← run isPhraseByte
  lineEnd .invalidStatusLine
  return ⟨version, 100 * hundreds + 10 * tens + ones, ⟨start, phrase.length⟩⟩

variable {isUrl : String → Bool}

theorem forward_digit (e : ParseError) : (digit e).Forward :=
  (advances_satisfy _ _).forward.bind fun _ => forward_pure _

theorem forward_version : version.Forward :=
  (forward_run _).bind fun _ => (forward_caseless _ _).bind fun _ => (forward_digit _).bind fun _ =>
    (advances_byte _ _).forward.bind fun _ => (forward_digit _).bind fun _ =>
      (forward_notBefore _ _).bind fun _ => forward_pure _

theorem forward_methodName (limit : Nat) : (methodName limit).Forward := by
  refine forward_position.bind fun _ => Forward.bind ?_ fun _ => (forward_ensure _ _).bind fun _ =>
    forward_pure _
  intro c a next h
  simp only at h
  split at h
  · cases h
  · exact forward_run _ _ _ _ h

theorem forward_requestTarget : (requestTarget isUrl).Forward :=
  forward_position.bind fun _ => (forward_run _).bind fun _ => (advances_byte _ _).forward.bind
    fun _ => (forward_ensure _ _).bind fun _ => (forward_ensure _ _).bind fun _ => forward_pure _

theorem advances_requestLine (limit : Nat) : (requestLine isUrl limit).Advances :=
  (forward_methodName _).bind_advances fun _ => (advances_byte _ _).bind fun _ =>
    forward_requestTarget.bind fun _ => (forward_notBefore _ _).bind fun _ =>
      forward_version.bind fun _ => (advances_lineEnd _).forward.bind fun _ => forward_pure _

theorem advances_statusLine : statusLine.Advances :=
  forward_version.bind_advances fun _ => (advances_byte _ _).bind fun _ =>
    (forward_digit _).bind fun _ => (forward_digit _).bind fun _ => (forward_digit _).bind fun _ =>
      (advances_byte _ _).forward.bind fun _ => forward_position.bind fun _ =>
        (forward_run _).bind fun _ => (advances_lineEnd _).forward.bind fun _ => forward_pure _

end OriginServer.Http
