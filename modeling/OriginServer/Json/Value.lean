import OriginServer.Json.Tree

namespace OriginServer.Json

inductive Value where
  | null
  | bool (b : Bool)
  | integer (n : Int)
  /-- A finite double, by its bits. -/
  | double (bits : UInt64)
  | string (s : String)
  | array (items : List Value)
  | object (members : List (String × Value))
  deriving Repr

namespace Value

/-- Gives a key a value. A value that it has already is replaced. -/
def insert (key : String) (value : Value) :
    List (String × Value) → List (String × Value)
  | [] => [(key, value)]
  | m :: rest =>
    if key = m.1 then (key, value) :: rest
    else if key < m.1 then (key, value) :: m :: rest
    else m :: insert key value rest

def ofNumber? (n : Number) : Option Value :=
  match n.integer? with
  | some k => some (integer k)
  | none => n.double?.map double

mutual

/-- The value of a tree in which arrays and objects nest at most `depth` deep. -/
def ofTree? (depth : Nat) : Tree → Option Value
  | .null => some null
  | .bool b => some (bool b)
  | .number n => ofNumber? n
  | .string literal => literal.text?.map string
  | .array items =>
    match depth with
    | 0 => none
    | depth + 1 => (ofItems? depth items).map array
  | .object members =>
    match depth with
    | 0 => none
    | depth + 1 => (ofMembers? depth [] members).map object

def ofItems? (depth : Nat) : List Tree → Option (List Value)
  | [] => some []
  | t :: rest => do
    let v ← ofTree? depth t
    let values ← ofItems? depth rest
    return v :: values

/-- Adds members to those that were read. -/
def ofMembers? (depth : Nat) (read : List (String × Value)) :
    List (Literal × Tree) → Option (List (String × Value))
  | [] => some read
  | (k, t) :: rest => do
    let key ← k.text?
    let v ← ofTree? depth t
    ofMembers? depth (insert key v read) rest

end

/-- How deep arrays and objects may nest. -/
def maxDepth : Nat := 127

def read? (text : Bytes) : Option Value := (Tree.read? text).bind (ofTree? maxDepth)

mutual

/-- The compact text of a value. -/
def write : Value → Bytes
  | null => Bytes.ofText "null"
  | bool b => Bytes.ofText (if b then "true" else "false")
  | integer n => Bytes.ofText (toString n)
  | double bits => Bytes.ofText (doubleText bits)
  | string s => Literal.write s
  | array items => 0x5b :: writeItems items ++ [0x5d]
  | object members => 0x7b :: writeMembers members ++ [0x7d]

def writeItems : List Value → Bytes
  | [] => []
  | [v] => write v
  | v :: rest => write v ++ Ascii.comma :: writeItems rest

def writeMembers : List (String × Value) → Bytes
  | [] => []
  | [(k, v)] => Literal.write k ++ Ascii.colon :: write v
  | (k, v) :: rest => Literal.write k ++ Ascii.colon :: write v ++ Ascii.comma :: writeMembers rest

end

def isNull : Value → Bool
  | null => true
  | _ => false

end Value

end OriginServer.Json
