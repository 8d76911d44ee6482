namespace OriginServer.Site

inductive Entry where
  | file (content : List UInt8)
  /-- A file that cannot be opened. -/
  | locked
  | directory
  deriving Repr, DecidableEq

/-- Entries by their paths. Every path above an entry is a directory. -/
structure FileSystem where
  entries : List (List String × Entry) := []
  /-- Where paths lead from that do not begin with a slash. -/
  workingDirectory : List String := []
  deriving Repr, DecidableEq

namespace FileSystem

def entry? (fs : FileSystem) (place : List String) : Option Entry :=
  match fs.entries.find? (·.1 == place) with
  | some e => some e.2
  | none =>
    if place.isEmpty || fs.entries.any fun e => place.isPrefixOf e.1 then some .directory else none

/-- Follows the segments of a path. Only a directory leads on, and the root is above itself. -/
def follow (fs : FileSystem) (place : List String) : List String → Option Entry
  | [] => fs.entry? place
  | segment :: rest =>
    if fs.entry? place ≠ some .directory then none
    else if segment = "" ∨ segment = "." then fs.follow place rest
    else if segment = ".." then fs.follow place.dropLast rest
    else fs.follow (place ++ [segment]) rest

/-- The text between slashes. -/
def segments (path : String) : List String :=
  (path.toList.splitOnP (· == '/')).map String.ofList

/-- What is at a path. Nothing is at the empty one. -/
def find? (fs : FileSystem) (path : String) : Option Entry :=
  if path.isEmpty then none
  else
    fs.follow (if path.toList.head? = some '/' then [] else fs.workingDirectory) (segments path)

end FileSystem

/-- Appends a segment to a path. -/
def join (path segment : String) : String :=
  if path.isEmpty || path.toList.getLast? == some '/' then path ++ segment
  else path ++ "/" ++ segment

/-- The segments of a request path that count, without the empty ones and the dots. -/
def segments (path : String) : List String :=
  ((path.toList.splitOnP (· == '/')).map String.ofList).filter fun s => s != "" && s != "."

/-- The path of a file below the root. No segment leads up. -/
def below? (root path : String) : Option String :=
  let names := segments path
  if names.contains ".." then none else some (names.foldl join root)

end OriginServer.Site
