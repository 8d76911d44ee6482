import OriginServer.Bytes
import OriginServer.Http.Field
import OriginServer.Http.FieldList

namespace OriginServer.Http

open Ascii

namespace TransferCoding

/-- The registered codings that are known by name. -/
def known : List String :=
  ["chunked", "compress", "deflate", "gzip", "identity", "x-compress", "x-gzip"]

def isKnown (name : Bytes) : Bool := known.any fun k => (Bytes.ofText k).sameLetters name

/-- What is behind a token at the start of the input. -/
def afterToken? (input : Bytes) : Option Bytes :=
  if (input.takeWhile isTokenByte).isEmpty then none else some (input.dropWhile isTokenByte)

/-- What is behind one byte at the start of the input. -/
def afterByte? (b : UInt8) (input : Bytes) : Option Bytes :=
  match input with
  | x :: rest => if x = b then some rest else none
  | [] => none

/-- What is behind one parameter: a semicolon, a name, an equals sign, and a token or a quoted
string. White space may stand around the semicolon. -/
def afterParameter? (input : Bytes) : Option Bytes := do
  let input ← afterByte? semicolon (input.dropWhile isFoldedBlank)
  let input ← afterToken? (input.dropWhile isFoldedBlank)
  let input ← afterByte? equals input
  if input.head? = some dquote then afterQuoted? input else afterToken? input

theorem afterToken?_length {input rest : Bytes} (h : afterToken? input = some rest) :
    rest.length ≤ input.length := by
  simp only [afterToken?] at h
  split at h <;> cases h
  exact (List.dropWhile_sublist _).length_le

theorem afterByte?_length {b : UInt8} {input rest : Bytes} (h : afterByte? b input = some rest) :
    rest.length < input.length := by
  simp only [afterByte?] at h
  split at h
  · split at h <;> cases h
    simp
  · cases h

theorem afterQuoted?_length {input rest : Bytes} (h : afterQuoted? input = some rest) :
    rest.length ≤ input.length := by
  simp only [afterQuoted?] at h
  split at h
  · rename_i hq
    cases h
    exact Nat.le_of_lt ((advances_quotedString ()).rest_lt hq)
  · cases h

theorem afterParameter?_length {input rest : Bytes} (h : afterParameter? input = some rest) :
    rest.length < input.length := by
  simp only [afterParameter?, Option.bind_eq_bind, Option.bind_eq_some_iff] at h
  obtain ⟨i₁, h₁, i₂, h₂, i₃, h₃, h⟩ := h
  have l₁ := afterByte?_length h₁
  have l₂ := afterToken?_length h₂
  have l₃ := afterByte?_length h₃
  have d₁ : (input.dropWhile isFoldedBlank).length ≤ input.length :=
    (List.dropWhile_sublist _).length_le
  have d₂ : (i₁.dropWhile isFoldedBlank).length ≤ i₁.length :=
    (List.dropWhile_sublist _).length_le
  have l₄ : rest.length ≤ i₃.length := by
    split at h
    · exact afterQuoted?_length h
    · exact afterToken?_length h
  omega

def isParameters (input : Bytes) : Bool :=
  if input.isEmpty then true
  else
    match _h : afterParameter? input with
    | some rest => isParameters rest
    | none => false
  termination_by input.length
  decreasing_by exact afterParameter?_length ‹_›

/-- One element of a list of codings: a name with any number of parameters. -/
def isValid (item : Bytes) : Bool :=
  isKnown item ||
    match afterToken? item with
    | some rest => isParameters rest
    | none => false

/-- The places of the coding names in a field value. -/
def names (value : Bytes) : Except ParseError (List Span) :=
  match FieldList.split value with
  | .error _ => .error .invalidTransferEncoding
  | .ok items =>
    if items.all fun item => isValid (item.of value) then
      .ok (items.map fun item => ⟨item.start, tokenLength (item.of value)⟩)
    else .error .invalidTransferEncoding

end TransferCoding

namespace ContentLength

/-- One element of a list of lengths. -/
def read (item : Bytes) : Except ParseError Nat :=
  match Numeral.decimal? item with
  | some n => .ok n
  | none => .error .invalidContentLength

/-- Adds the lengths of one field value to the length known so far. All have to be the same. -/
def agree (known : Option Nat) (value : Bytes) : Except ParseError (Option Nat) :=
  match FieldList.split value with
  | .error _ => .error .invalidContentLength
  | .ok items => items.foldlM (fun known item => do
      let n ← read (item.of value)
      if known.any (· != n) then throw .invalidContentLength
      return some n) known

end ContentLength

/-- How the end of a body is found. -/
inductive Framing where
  | empty
  | length (n : Nat)
  | chunked
  deriving Repr, DecidableEq

namespace Framing

/-- The values of the fields with a name, in order of arrival. -/
def valuesOf (name : String) (fields : List (Bytes × Bytes)) : List Bytes :=
  (fields.filter fun f => f.1.sameLetters (Bytes.ofText name)).map (·.2)

def isChunked (coding : Bytes) : Bool := coding.sameLetters (Bytes.ofText "chunked")

/-- All coding names of the transfer encoding fields, in order. -/
def codings (fields : List (Bytes × Bytes)) : Except ParseError (List Bytes) := do
  let perField ← (valuesOf "transfer-encoding" fields).mapM fun value => do
    return (← TransferCoding.names value).map (·.of value)
  return perField.flatten

/-- The length that all content length fields agree on. -/
def contentLength (fields : List (Bytes × Bytes)) : Except ParseError (Option Nat) :=
  (valuesOf "content-length" fields).foldlM ContentLength.agree none

/-- Decides the framing from name and value of all fields. A transfer encoding has to end in
`chunked`, name it once, and come without a length. -/
def decide (fields : List (Bytes × Bytes)) : Except ParseError Framing := do
  let codings ← codings fields
  let length ← contentLength fields
  match codings.getLast?, length with
  | none, none => return .empty
  | none, some n => return .length n
  | some _, some _ => throw .conflictingFraming
  | some last, none =>
    if isChunked last && !codings.dropLast.any isChunked then return .chunked
    else throw .invalidTransferEncoding

end Framing

end OriginServer.Http
