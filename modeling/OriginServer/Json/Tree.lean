import OriginServer.Json.Token

namespace OriginServer.Json

inductive Tree where
  | null
  | bool (b : Bool)
  | number (n : Number)
  | string (literal : Literal)
  | array (items : List Tree)
  /-- The members of an object in order of appearance, which may repeat a key. -/
  | object (members : List (Literal × Tree))
  deriving Repr

namespace Tree

/-- An array or an object that is open, with what stands before the current value. The last item
comes first. -/
inductive Level where
  | array (items : List Tree)
  | object (members : List (Literal × Tree)) (key : Literal)
  deriving Repr

/-- What may come next, inside the open levels, the innermost first. -/
inductive State where
  | value (levels : List Level)
  /-- A value, or the end of an empty array. -/
  | firstItem (levels : List Level)
  /-- A key, or the end of an empty object. -/
  | firstKey (levels : List Level)
  | key (members : List (Literal × Tree)) (levels : List Level)
  | colon (members : List (Literal × Tree)) (key : Literal) (levels : List Level)
  /-- A value is complete. -/
  | complete (value : Tree) (levels : List Level)
  deriving Repr

namespace State

/-- Begins a value. -/
def enter (levels : List Level) : Token → Option State
  | .null => some (complete .null levels)
  | .bool b => some (complete (.bool b) levels)
  | .number n => some (complete (.number n) levels)
  | .string literal => some (complete (.string literal) levels)
  | .openArray => some (firstItem levels)
  | .openObject => some (firstKey levels)
  | _ => none

def step : State → Token → Option State
  | value levels, t => enter levels t
  | firstItem levels, .closeArray => some (complete (.array []) levels)
  | firstItem levels, t => enter (.array [] :: levels) t
  | firstKey levels, .closeObject => some (complete (.object []) levels)
  | firstKey levels, .string k => some (colon [] k levels)
  | key members levels, .string k => some (colon members k levels)
  | colon members k levels, .colon => some (value (.object members k :: levels))
  | complete v (.array items :: levels), .comma => some (value (.array (v :: items) :: levels))
  | complete v (.array items :: levels), .closeArray =>
    some (complete (.array (v :: items).reverse) levels)
  | complete v (.object members k :: levels), .comma => some (key ((k, v) :: members) levels)
  | complete v (.object members k :: levels), .closeObject =>
    some (complete (.object ((k, v) :: members).reverse) levels)
  | _, _ => none

end State

/-- The one value that the tokens make up. -/
def ofTokens? (tokens : List Token) : Option Tree :=
  match tokens.foldlM State.step (.value []) with
  | some (.complete v []) => some v
  | _ => none

def read? (text : Bytes) : Option Tree := (Token.all? text).bind ofTokens?

end Tree

end OriginServer.Json
