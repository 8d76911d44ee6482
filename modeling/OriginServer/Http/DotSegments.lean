namespace OriginServer.Http.DotSegments

/-- Where the last slash stands. -/
def lastSlash? (text : List Char) : Option Nat :=
  (text.reverse.findIdx? (· == '/')).map (text.length - 1 - ·)

/-- Cuts the last segment off, with the slash in front of it. -/
def popSegment (output : List Char) : List Char :=
  match lastSlash? output with
  | some i => output.take i
  | none => []

/-- Moves a path from the input to the output, as long as there is input. -/
def loop (output : List Char) : List Char → List Char
  | [] => output
  | '.' :: '.' :: '/' :: rest => loop output rest
  | '.' :: '/' :: rest => loop output rest
  | '/' :: '.' :: '/' :: rest => loop output ('/' :: rest)
  | ['/', '.'] => loop output ['/']
  | '/' :: '.' :: '.' :: '/' :: rest => loop (popSegment output) ('/' :: rest)
  | ['/', '.', '.'] => loop (popSegment output) ['/']
  | ['.'] => loop output []
  | ['.', '.'] => loop output []
  | c :: rest =>
    -- A slash at the front belongs to the segment behind it.
    loop (output ++ c :: rest.takeWhile (· != '/')) (rest.dropWhile (· != '/'))
  termination_by input => input.length
  decreasing_by
    all_goals simp only [List.length_cons, List.length_nil]
    all_goals try omega
    exact Nat.lt_succ_of_le (List.dropWhile_sublist _).length_le

/-- The path without `.` and `..` segments. -/
def remove (path : String) : String := String.ofList (loop [] path.toList)

end OriginServer.Http.DotSegments
