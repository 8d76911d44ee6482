import OriginServer.Yaml.Node

namespace OriginServer.Yaml

/-- At least one digit of a base. -/
def digits? (base : Nat) (chars : List Char) : Option Nat :=
  if chars.isEmpty then none else Numeral.ofDigits? base chars

/-- An unsigned number, with a sign or without, in decimal digits without leading zeros, or behind
a mark of its base. -/
def unsigned? (text : List Char) : Option Nat :=
  match if text.head? = some '+' then text.tail else text with
  | '0' :: 'x' :: digits => digits? 16 digits
  | '0' :: 'o' :: digits => digits? 8 digits
  | '0' :: 'b' :: digits => digits? 2 digits
  | '0' :: _ :: _ => none
  | digits => digits? 10 digits

namespace Node

/-- A scalar is a text whatever else it looks like. -/
def text? : Node → Option String
  | scalar _ text => some text
  | _ => none

/-- Whether a node that may be left out is. -/
def isNull : Node → Bool
  | scalar true text => ["", "null", "Null", "NULL", "~"].contains text
  | _ => false

def optionalText? (node : Node) : Option (Option String) :=
  if node.isNull then some none else node.text?.map some

/-- A number that fits a word. -/
def word? : Node → Option Nat
  | scalar true text => (unsigned? text.toList).filter (· < Numeral.wordLimit)
  | _ => none

def items? : Node → Option (List Node)
  | scalar true "" => some []
  | sequence items => some items
  | _ => none

end Node

/-- An entry that a record may have. -/
structure Field (α : Type) where
  name : String
  /-- Whether no record lacks it. -/
  required : Bool := false
  /-- What the entry changes in the record. -/
  read : Node → α → Option α

/-- The entries of a record by their names. -/
def Node.entries? : Node → Option (List (String × Node))
  | scalar true "" => some []
  | mapping pairs => pairs.mapM fun p => p.1.text?.map (·, p.2)
  | _ => none

/-- Reads a record over its defaults. Entries of unknown names do not count, and others may stand
there only once. -/
def Node.record? {α : Type} (fields : List (Field α)) (defaults : α) (node : Node) : Option α := do
  let entries ← node.entries?
  let count := fun (f : Field α) => entries.countP (·.1 == f.name)
  if fields.any fun f => 1 < count f || f.required && count f == 0 then none
  else
    fields.foldlM (fun a f => ((entries.lookup f.name).map (f.read · a)).getD (some a)) defaults

end OriginServer.Yaml
