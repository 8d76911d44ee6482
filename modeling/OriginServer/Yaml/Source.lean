namespace OriginServer.Yaml

def isBreak (c : Char) : Bool := c == '\n' || c == '\u2028' || c == '\u2029'

def isBlank (c : Char) : Bool := c == ' ' || c == '\t'

abbrev byteOrderMark : Char := '\ufeff'

/-- The characters that a text may hold. -/
def isAllowed (c : Char) : Bool :=
  let n := c.toNat
  n == 0x09 || n == 0x0a || n == 0x0d || (0x20 ≤ n && n ≤ 0x7e) || n == 0x85 ||
    (0xa0 ≤ n && n ≤ 0xfffd) || 0x10000 ≤ n

/-- Writes line breaks as line feeds, a carriage return with the line feed behind it as one. -/
def unifyBreaks (afterReturn : Bool) : List Char → List Char
  | [] => []
  | '\r' :: rest => '\n' :: unifyBreaks true rest
  | '\u0085' :: rest => '\n' :: unifyBreaks false rest
  | c :: rest =>
    if afterReturn && c == '\n' then unifyBreaks false rest else c :: unifyBreaks false rest

/-- A place in a text, and what follows it. -/
structure Source where
  rest : List Char
  line : Nat := 0
  column : Nat := 0
  index : Nat := 0
  deriving Repr, DecidableEq

namespace Source

def ofText? (text : String) : Option Source :=
  if text.toList.all isAllowed then some { rest := unifyBreaks false text.toList } else none

/-- Behind the next character. -/
def next (s : Source) : Source :=
  match s.rest with
  | [] => s
  | c :: rest =>
    if isBreak c then ⟨rest, s.line + 1, 0, s.index + 1⟩
    else ⟨rest, s.line, s.column + 1, s.index + 1⟩

def skip (s : Source) : Nat → Source
  | 0 => s
  | n + 1 => s.next.skip n

end Source

/-- Whether a word ends here: at a blank, at a line break, or at the end of the text. -/
def atWordEnd : List Char → Bool
  | [] => true
  | c :: _ => isBlank c || isBreak c

/-- Whether a word stands at the front. -/
def startsWithWord (word : List Char) (chars : List Char) : Bool :=
  word.isPrefixOf chars && atWordEnd (chars.drop word.length)

/-- The marks that begin and end a document, at the beginning of a line. -/
def isDocumentMark (column : Nat) (chars : List Char) : Bool :=
  column == 0 &&
    (startsWithWord ['-', '-', '-'] chars || startsWithWord ['.', '.', '.'] chars)

end OriginServer.Yaml
