import OriginServer.Bytes
import OriginServer.Yaml.Source

namespace OriginServer.Yaml

/-- White space that was read and belongs to the scalar only if more of it follows. The last
character comes first. -/
inductive Gap where
  | none
  | blanks (found : List Char)
  /-- Line breaks: the first one, unless it was escaped, and the others. -/
  | lines (first : Option Char) (others : List Char)
  deriving Repr, DecidableEq

namespace Gap

def isLines : Gap → Bool
  | lines _ _ => true
  | _ => false

/-- Adds white space. Blanks around a line break do not count. -/
def add (gap : Gap) (c : Char) : Gap :=
  match gap, isBreak c with
  | lines first others, true => lines first (c :: others)
  | lines first others, false => lines first others
  | _, true => lines (some c) []
  | blanks found, false => blanks (c :: found)
  | none, false => blanks [c]

/-- Appends the gap to a text, whose last character comes first. -/
def join (gap : Gap) (text : List Char) : List Char :=
  match gap with
  | none => text
  | blanks found => found ++ text
  | lines (some '\n') [] => ' ' :: text
  | lines (some '\n') others => others ++ text
  | lines (some c) others => others ++ c :: text
  | lines Option.none others => others ++ text

end Gap

/-- The character of an escape of one letter. -/
def escaped? : Char → Option Char
  | '0' => some '\x00'
  | 'a' => some '\x07'
  | 'b' => some '\x08'
  | 't' => some '\t'
  | '\t' => some '\t'
  | 'n' => some '\n'
  | 'v' => some '\x0b'
  | 'f' => some '\x0c'
  | 'r' => some '\r'
  | 'e' => some '\x1b'
  | ' ' => some ' '
  | '"' => some '"'
  | '/' => some '/'
  | '\\' => some '\\'
  | 'N' => some '\u0085'
  | '_' => some '\u00a0'
  | 'L' => some '\u2028'
  | 'P' => some '\u2029'
  | _ => none

/-- How many hexadecimal digits follow the letter of an escape. -/
def escapeWidth? : Char → Option Nat
  | 'x' => some 2
  | 'u' => some 4
  | 'U' => some 8
  | _ => none

/-- Where a reader stands inside a quoted scalar. -/
inductive QuoteState where
  | text
  | backslash
  /-- Inside an escape, with as many digits to come. -/
  | digits (left value : Nat)
  /-- Behind the first one of two single quotes. -/
  | quote
  deriving Repr, DecidableEq

/-- A quoted scalar, from behind its opening quote on: its text and the place behind it. -/
def quoted (double : Bool) (state : QuoteState) (gap : Gap) (text : List Char) (s : Source) :
    List Char → Option (String × Source)
  | [] => none
  | c :: rest =>
    let s' := { s with rest := c :: rest }.next
    let continueWith (x : Char) := quoted double .text .none (x :: text) s' rest
    match state with
    | .backslash =>
      if isBreak c then quoted double .text (.lines none []) text s' rest
      else
        match escaped? c, escapeWidth? c with
        | some x, _ => continueWith x
        | none, some width => quoted double (.digits width 0) .none text s' rest
        | none, none => none
    | .digits left value =>
      match Numeral.digit? 16 c with
      | none => none
      | some d =>
        let value := value * 16 + d
        if 1 < left then quoted double (.digits (left - 1) value) .none text s' rest
        else if value.isValidChar then continueWith (Char.ofNat value)
        else none
    | .quote => continueWith '\''
    | .text =>
      if isDocumentMark s.column (c :: rest) then none
      else if isBreak c || isBlank c then quoted double .text (gap.add c) text s' rest
      else
        let text := gap.join text
        if double && c == '"' then some (String.ofList text.reverse, s')
        else if double && c == '\\' then quoted double .backslash .none text s' rest
        else if !double && c == '\'' then
          if rest.head? = some '\'' then quoted double .quote .none text s' rest
          else some (String.ofList text.reverse, s')
        else quoted double .text .none (c :: text) s' rest

/-- A plain scalar that was read. -/
structure Plain where
  text : String
  /-- Whether line breaks behind it were read too. -/
  endsLine : Bool
  stop : Source

def isFlowIndicator (c : Char) : Bool :=
  c == ',' || c == '[' || c == ']' || c == '\x7b' || c == '\x7d'

/-- A plain scalar. Outside flow collections its lines are indented by at least `indent`. -/
def plain (inFlow : Bool) (indent : Int) (gap : Gap) (text : List Char) (s : Source) :
    List Char → Option Plain
  | [] => some ⟨String.ofList text.reverse, gap.isLines, { s with rest := [] }⟩
  | c :: rest =>
    let here := { s with rest := c :: rest }
    let stop := some (Plain.mk (String.ofList text.reverse) gap.isLines here)
    if isBreak c || isBlank c then
      if gap.isLines && c == '\t' && (s.column : Int) < indent then none
      else plain inFlow indent (gap.add c) text here.next rest
    else if gap.isLines && !inFlow && (s.column : Int) < indent then stop
    else if isDocumentMark s.column (c :: rest) then stop
    else if c == '#' && gap != .none then stop
    else if c == ':' && inFlow && rest.head?.any (fun x => isFlowIndicator x || x == '?') then none
    else if c == ':' && atWordEnd rest then stop
    else if inFlow && isFlowIndicator c then stop
    else plain inFlow indent .none (c :: gap.join text) here.next rest

end OriginServer.Yaml
