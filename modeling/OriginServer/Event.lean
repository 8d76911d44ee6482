import OriginServer.Json.Value

namespace OriginServer

open Json

structure EventError where
  code : Int
  desc : String := ""
  deriving Repr, DecidableEq

structure Event where
  event : String
  uuid : String := ""
  parameter : Value := .null
  request : Value := .null
  response : Value := .null
  error : Option EventError := none
  deriving Repr

namespace Event

/-- Whether the event reports no failure. -/
def isSuccess (e : Event) : Bool :=
  match e.error with
  | some error => error.code == 0
  | none => true

section Reading

/-- The values of a record by its keys, or by their order. A key that the record knows comes at
most once, and one that it does not know is ignored. -/
def record? (keys : List String) : Tree → Option (String → Option Tree)
  | .object members => do
    let named ← members.mapM fun (k, t) => k.text?.map fun key => (key, t)
    let known := (named.map (·.1)).filter keys.contains
    if known.Nodup then return fun key => (named.find? (·.1 == key)).map (·.2) else none
  | .array items =>
    if items.length ≤ keys.length then
      some fun key => ((keys.zip items).find? (·.1 == key)).map (·.2)
    else none
  | _ => none

def text? : Tree → Option String
  | .string literal => literal.text?
  | _ => none

/-- A text that is empty where it is left out. -/
def textOrEmpty? : Option Tree → Option String
  | some t => text? t
  | none => some ""

/-- The number of an error, an integer of 64 bits with a sign. -/
def code? : Tree → Option Int
  | .number n => n.integer?.filter (· < 2 ^ 63)
  | _ => none

/-- A value inside the event. -/
def valueOrNull? : Option Tree → Option Value
  | some t => Value.ofTree? (Value.maxDepth - 1) t
  | none => some .null

def error? : Option Tree → Option (Option EventError)
  | none => some none
  | some .null => some none
  | some t => do
    let entry ← record? ["code", "desc"] t
    let code ← (entry "code").bind code?
    let desc ← textOrEmpty? (entry "desc")
    return some ⟨code, desc⟩

def ofTree? (t : Tree) : Option Event := do
  let entry ← record? ["event", "uuid", "parameter", "request", "response", "error"] t
  let event ← (entry "event").bind text?
  let uuid ← textOrEmpty? (entry "uuid")
  let parameter ← valueOrNull? (entry "parameter")
  let request ← valueOrNull? (entry "request")
  let response ← valueOrNull? (entry "response")
  let error ← error? (entry "error")
  return { event, uuid, parameter, request, response, error }

def read? (text : Bytes) : Option Event := (Tree.read? text).bind ofTree?

end Reading

section Writing

/-- A value that is left out when it is null. -/
def present (key : String) (v : Value) : List (String × Value) :=
  if v.isNull then [] else [(key, v)]

/-- The members of the event in their order. -/
def members (e : Event) : List (String × Value) :=
  [("event", .string e.event), ("uuid", .string e.uuid)] ++ present "parameter" e.parameter ++
    present "request" e.request ++ present "response" e.response ++
    (e.error.map fun error =>
      ("error", Value.object [("code", .integer error.code), ("desc", .string error.desc)])).toList

def write (e : Event) : Bytes := Value.write (.object e.members)

end Writing

end Event

end OriginServer
