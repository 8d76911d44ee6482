import OriginServer.Http.MediaType
import OriginServer.Http.Request
import OriginServer.Http.Response
import OriginServer.Site.FileBody
import OriginServer.Site.FileSystem

namespace OriginServer.Site

open OriginServer.Http

/-- A response without its body, and the file that is its body, if it has one. -/
structure Served where
  head : Response
  body : Option FileBody := none
  deriving Repr, DecidableEq

def indexName : String := "index.html"

/-- The path and the content of the file for a request, or the response that there is none. -/
def locate (fs : FileSystem) (root path : String) : Except Response (String × Bytes) := do
  let some place := below? root path | throw .forbidden
  match fs.find? place with
  | some (.file content) => return (place, content)
  | some .locked => throw .internalError
  | some .directory =>
    match fs.find? (join place indexName) with
    | some (.file content) => return (join place indexName, content)
    | some .locked => throw .internalError
    | _ => throw .notFound
  | none => throw .notFound

/-- The response that announces `length` bytes of a file. -/
def announce (status : Status) (fields : List (String × String)) (place : String) (length : Nat) :
    Response :=
  .make status
    (fields ++ [("Content-Type", MediaType.ofPath place), ("Content-Length", toString length),
      ("Accept-Ranges", "bytes")]) []

/-- Serves a file, or one range of it. -/
def serveFile (place : String) (content : Bytes) (range : Option Bytes) (chunkSize : Nat) :
    Served :=
  let total := content.length
  match range.bind ByteRange.read? with
  | none => ⟨announce .ok [] place total, some (.make content 0 total chunkSize)⟩
  | some range =>
    match range.resolve? total with
    | none => ⟨.rangeNotSatisfiable total, none⟩
    | some (first, last) =>
      let length := last - first + 1
      ⟨announce .partialContent [("Content-Range", s!"bytes {first}-{last}/{total}")] place length,
        some (.make content first length chunkSize)⟩

/-- Serves the file for a path below the root. -/
def serve (fs : FileSystem) (root path : String) (range : Option Bytes) (chunkSize : Nat) :
    Served :=
  match locate fs root path with
  | .ok (place, content) => serveFile place content range chunkSize
  | .error response => ⟨response, none⟩

end OriginServer.Site
