import OriginServer.Http.Token

namespace OriginServer.Http.FieldList

open Ascii

/-- Where a reader stands with respect to quoted strings. -/
inductive Quote where
  | outside
  | inside
  /-- Behind a backslash inside a quoted string. -/
  | escaped
  deriving Repr, DecidableEq

def Quote.step : Quote → UInt8 → Quote
  | outside, b => if b = dquote then inside else outside
  | inside, b => if b = backslash then escaped else if b = dquote then outside else inside
  | escaped, _ => inside

/-- The pieces between unquoted commas, at least one, and where the reader stands at the end. -/
def pieces (q : Quote) : Bytes → List Bytes × Quote
  | [] => ([[]], q)
  | b :: rest =>
    let (found, last) := pieces (q.step b) rest
    if q = .outside ∧ b = comma then ([] :: found, last)
    else
      match found with
      | [] => ([[b]], last)
      | piece :: found => ((b :: piece) :: found, last)

/-- The place of the element in a piece that begins at `start`. -/
def element (start : Nat) (piece : Bytes) : Except ParseError Span :=
  let front := piece.takeWhile isFoldedBlank
  let kept := piece.trim isFoldedBlank
  if kept.isEmpty then .error .emptyListItem else .ok ⟨start + front.length, kept.length⟩

/-- The places of the elements. A quoted string that stays open is refused behind empty elements
in front of it and before one that it ends in. -/
def elements (last : Quote) (start : Nat) : List Bytes → Except ParseError (List Span)
  | [] => .ok []
  | [piece] =>
    if last = .outside then do return [← element start piece] else .error .invalidField
  | piece :: found => do
    let span ← element start piece
    return span :: (← elements last (start + piece.length + 1) found)

/-- The elements of a list, by their places in it. -/
def split (input : Bytes) : Except ParseError (List Span) :=
  let (found, last) := pieces .outside input
  elements last 0 found

end OriginServer.Http.FieldList
