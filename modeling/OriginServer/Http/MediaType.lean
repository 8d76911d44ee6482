namespace OriginServer.Http.MediaType

def unknown : String := "application/octet-stream"

/-- The media type of an extension, whose case does not count. -/
def ofExtension (extension : String) : String :=
  match String.ofList (extension.toList.map Char.toLower) with
  | "html" | "htm" => "text/html; charset=utf-8"
  | "css" => "text/css; charset=utf-8"
  | "js" | "mjs" => "text/javascript; charset=utf-8"
  | "json" => "application/json"
  | "txt" => "text/plain; charset=utf-8"
  | "xml" => "application/xml"
  | "svg" => "image/svg+xml"
  | "png" => "image/png"
  | "jpg" | "jpeg" => "image/jpeg"
  | "gif" => "image/gif"
  | "webp" => "image/webp"
  | "ico" => "image/x-icon"
  | "wasm" => "application/wasm"
  | "pdf" => "application/pdf"
  | "woff" => "font/woff"
  | "woff2" => "font/woff2"
  | "mp4" => "video/mp4"
  | "webm" => "video/webm"
  | "mp3" => "audio/mpeg"
  | _ => unknown

/-- What follows the last dot of a file name. A dot in front of the whole name begins none. -/
def extension? (name : List Char) : Option (List Char) :=
  let tail := name.reverse.takeWhile (· != '.')
  if name.length ≤ tail.length + 1 then none else some tail.reverse

/-- The last segment of a path, if it names a file. -/
def fileName? (path : List Char) : Option (List Char) :=
  let isEnd : Char → Bool := (· == '/')
  let segments := path.splitOnP isEnd
  match (segments.filter fun s => s ≠ [] && s ≠ ['.']).getLast? with
  | some name => if name = ['.', '.'] then none else some name
  | none => none

def ofPath (path : String) : String :=
  match (fileName? path.toList).bind extension? with
  | some ext => ofExtension (String.ofList ext)
  | none => unknown

end OriginServer.Http.MediaType
