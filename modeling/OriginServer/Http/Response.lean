import OriginServer.Bytes

namespace OriginServer.Http

inductive Status where
  | switchingProtocols | ok | partialContent | badRequest | forbidden | notFound
  | methodNotAllowed | rangeNotSatisfiable | upgradeRequired | internalServerError
  deriving Repr, DecidableEq

namespace Status

def code : Status → Nat
  | switchingProtocols => 101
  | ok => 200
  | partialContent => 206
  | badRequest => 400
  | forbidden => 403
  | notFound => 404
  | methodNotAllowed => 405
  | rangeNotSatisfiable => 416
  | upgradeRequired => 426
  | internalServerError => 500

def reason : Status → String
  | switchingProtocols => "Switching Protocols"
  | ok => "OK"
  | partialContent => "Partial Content"
  | badRequest => "Bad Request"
  | forbidden => "Forbidden"
  | notFound => "Not Found"
  | methodNotAllowed => "Method Not Allowed"
  | rangeNotSatisfiable => "Range Not Satisfiable"
  | upgradeRequired => "Upgrade Required"
  | internalServerError => "Internal Server Error"

end Status

structure Response where
  status : Status
  fields : List (String × String) := []
  body : Bytes := []
  deriving Repr, DecidableEq

namespace Response

/-- The first value of a field. The case of its name does not count. -/
def field? (r : Response) (name : String) : Option String :=
  (r.fields.find? fun f => sameLetters f.1 name).map (·.2)

/-- Gives the first field of that name another value. -/
def setFirst (name value : String) : List (String × String) → List (String × String)
  | [] => []
  | f :: rest =>
    if sameLetters f.1 name then (f.1, value) :: rest else f :: setFirst name value rest

/-- Sets a field. A field that is there already keeps its place and its spelling. -/
def withField (r : Response) (name value : String) : Response :=
  if (r.field? name).isSome then { r with fields := setFirst name value r.fields }
  else { r with fields := r.fields ++ [(name, value)] }

/-- Adds the length of the body where it is missing. A change of protocols has no length. -/
def withLength (r : Response) : Response :=
  if r.status = .switchingProtocols ∨ (r.field? "Content-Length").isSome then r
  else r.withField "Content-Length" (toString r.body.length)

/-- A response with these fields, set one after the other, and its length. -/
def make (status : Status) (fields : List (String × String)) (body : Bytes) : Response :=
  let built : Response := fields.foldl (fun (r : Response) f => r.withField f.1 f.2) { status }
  withLength { built with body }

/-- A response whose body is its own status. -/
def plain (status : Status) : Response :=
  make status [("Content-Type", "text/plain")] (Bytes.ofText s!"{status.code} {status.reason}")

def ok (body : Bytes) : Response := make .ok [] body

def notFound : Response := plain .notFound

def forbidden : Response := plain .forbidden

def badRequest : Response := plain .badRequest

def internalError : Response := plain .internalServerError

def methodNotAllowed : Response :=
  make .methodNotAllowed [("Allow", "GET")] (Bytes.ofText "405 Method Not Allowed")

/-- Tells the size of the file that a range lies outside of. -/
def rangeNotSatisfiable (total : Nat) : Response :=
  make .rangeNotSatisfiable [("Content-Range", s!"bytes */{total}")] []

/-- The first line of a response. -/
def startText (r : Response) : Bytes :=
  Bytes.ofText s!"HTTP/1.1 {r.status.code} {r.status.reason}\r\n"

def fieldText (f : String × String) : Bytes :=
  Bytes.ofText f.1 ++ Bytes.ofText ": " ++ Bytes.ofText f.2 ++ Bytes.ofText "\r\n"

/-- The response up to its empty line. -/
def head (r : Response) : Bytes :=
  r.startText ++ r.fields.flatMap fieldText ++ Bytes.ofText "\r\n"

/-- The whole response. -/
def wire (r : Response) : Bytes := r.head ++ r.body

end Response

end OriginServer.Http
