import OriginServer.Scan

namespace OriginServer.Http

inductive ParseError where
  | invalidVersion
  | invalidStatusLine
  | invalidRequestLine
  | methodTooLong (limit : Nat)
  | invalidTarget
  | invalidField
  | tooManyFields (limit : Nat)
  | invalidContentLength
  | conflictingFraming
  | invalidTransferEncoding
  | emptyListItem
  | invalidChunk
  deriving Repr, DecidableEq

def ParseError.message : ParseError → String
  | invalidVersion => "invalid HTTP version"
  | invalidStatusLine => "invalid status line"
  | invalidRequestLine => "invalid request line"
  | methodTooLong limit => s!"request method exceeds {limit} bytes"
  | invalidTarget => "invalid request target"
  | invalidField => "invalid header line"
  | tooManyFields limit => s!"more than {limit} header fields"
  | invalidContentLength => "invalid Content-Length"
  | conflictingFraming => "both Content-Length and Transfer-Encoding present"
  | invalidTransferEncoding => "invalid Transfer-Encoding"
  | emptyListItem => "empty element in comma separated list"
  | invalidChunk => "invalid chunked body"

open Ascii

/-- Token characters: visible ASCII except the separators. -/
def isTokenByte (b : UInt8) : Bool :=
  isAlphanum b || b == 0x21 || (0x23 ≤ b && b ≤ 0x27) || b == 0x2a || b == 0x2b || b == 0x2d ||
    b == 0x2e || b == 0x5e || b == 0x5f || b == 0x60 || b == 0x7c || b == 0x7e

/-- Optional white space: SP or HTAB. -/
def isBlank (b : UInt8) : Bool := b == sp || b == htab

/-- White space of a folded value: SP, HTAB and the line break of a fold. -/
def isFoldedBlank (b : UInt8) : Bool := isBlank b || b == cr || b == lf

/-- Octets outside ASCII, which field values may hold. -/
def isObsText (b : UInt8) : Bool := 0x80 ≤ b

/-- What a quoted string holds without an escape. -/
def isQuotedText (b : UInt8) : Bool :=
  b == htab || b == sp || (isVisible b && b != dquote && b != backslash) || isObsText b

/-- What may follow a backslash in a quoted string. -/
def isEscapable (b : UInt8) : Bool := b == htab || b == sp || isVisible b || isObsText b

def tokenLength (input : Bytes) : Nat := (input.takeWhile isTokenByte).length

def isToken (input : Bytes) : Bool := !input.isEmpty && input.all isTokenByte

/-- The first index from `pos` on whose byte is outside the class. -/
def skipFrom (p : UInt8 → Bool) (input : Bytes) (pos : Nat) : Nat :=
  pos + ((input.drop pos).takeWhile p).length

section QuotedString

variable {ε : Type}

/-- The part of a quoted string after its opening quote, up to and with the closing one. -/
def quotedTail (e : ε) (pos : Nat) : Bytes → Scan ε Unit
  | [] => .more
  | b :: rest =>
    if b = dquote then .done () ⟨pos + 1, rest⟩
    else if b = backslash then
      match rest with
      | [] => .more
      | x :: rest => if isEscapable x then quotedTail e (pos + 2) rest else .fail e
    else if isQuotedText b then quotedTail e (pos + 1) rest
    else .fail e

theorem quotedTail_eq_done {e : ε} {pos : Nat} {input : Bytes} {next : Cursor}
    (h : quotedTail e pos input = .done () next) :
    ∃ taken : Bytes, taken ≠ [] ∧ input = taken ++ next.rest ∧ next.pos = pos + taken.length := by
  fun_induction quotedTail e pos input with
  | case1 => cases h
  | case2 =>
    cases h
    exact ⟨[_], by simp, rfl, rfl⟩
  | case3 => cases h
  | case4 _ x _ _ _ ih =>
    obtain ⟨t, _, ht, hp⟩ := ih h
    exact ⟨backslash :: x :: t, by simp, by simp [ht], by simp [hp]; omega⟩
  | case5 => cases h
  | case6 pos b rest _ _ _ ih =>
    obtain ⟨t, _, ht, hp⟩ := ih h
    exact ⟨b :: t, by simp, by simp [ht], by simp [hp]; omega⟩
  | case7 => cases h

/-- A quoted string, from its opening to its closing quote. The opening quote has to be there. -/
def quotedString (e : ε) : Scanner ε Unit := fun c =>
  match c.rest with
  | [] => .fail e
  | b :: rest => if b = dquote then quotedTail e (c.pos + 1) rest else .fail e

theorem advances_quotedString (e : ε) : (quotedString e).Advances := by
  intro c _ next h
  simp only [quotedString] at h
  split at h
  · cases h
  · rename_i b rest hr
    split at h
    · obtain ⟨taken, _, ht, hp⟩ := quotedTail_eq_done h
      exact ⟨b :: taken, by simp, by simp [hr, ht], by simp [hp]; omega⟩
    · cases h

/-- The bytes behind a quoted string at the start of the input. -/
def afterQuoted? (input : Bytes) : Option Bytes :=
  match quotedString () ⟨0, input⟩ with
  | .done _ next => some next.rest
  | _ => none

def isQuotedString (input : Bytes) : Bool := afterQuoted? input == some []

end QuotedString

end OriginServer.Http
