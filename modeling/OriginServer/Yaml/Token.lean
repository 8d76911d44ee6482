import OriginServer.Yaml.Scalar

namespace OriginServer.Yaml

inductive Token where
  | documentStart
  | documentEnd
  | blockSequence
  | blockMapping
  | blockEnd
  | openSequence
  | closeSequence
  | openMapping
  | closeMapping
  | blockEntry
  | flowEntry
  | key
  | value
  | scalar (plain : Bool) (text : String)
  deriving Repr, DecidableEq

/-- What turns out to be a key if a `:` follows it. -/
structure PossibleKey where
  /-- How many tokens stand before it. -/
  position : Nat
  source : Source
  /-- Whether nothing but a key may stand here. -/
  required : Bool

/-- A key stands on one line and is not longer than this. -/
def maxKeyLength : Nat := 1024

/-- A text that was read up to some place. -/
structure Reader where
  source : Source
  /-- The last token comes first. -/
  tokens : List Token := []
  /-- The columns of the open block collections, the innermost first. -/
  columns : List Nat := []
  possibleKey : Option PossibleKey := none
  /-- The possible keys outside the open flow collections, the innermost first. -/
  outerKeys : List (Option PossibleKey) := []
  /-- Whether a key may begin here. -/
  keyAllowed : Bool := true

namespace Reader

def inFlow (r : Reader) : Bool := !r.outerKeys.isEmpty

/-- The column of the innermost block collection. -/
def indent (r : Reader) : Int :=
  match r.columns with
  | [] => -1
  | column :: _ => column

/-- Reads a token of that many characters. -/
def take (r : Reader) (n : Nat) (t : Token) : Reader :=
  { r with source := r.source.skip n, tokens := t :: r.tokens }

/-- Puts a token behind the first `position` tokens. -/
def insert (r : Reader) (position : Nat) (t : Token) : Reader :=
  let later := r.tokens.length - position
  { r with tokens := r.tokens.take later ++ t :: r.tokens.drop later }

/-- Opens a block collection if the column lies inside the innermost one. -/
def openBlock (r : Reader) (column position : Nat) (t : Token) : Reader :=
  if r.inFlow || (column : Int) ≤ r.indent then r
  else { r with columns := column :: r.columns }.insert position t

/-- Ends the block collections that lie to the right of the column. -/
def closeBlocks (r : Reader) (column : Int) : Reader :=
  if r.inFlow then r
  else
    let ended := fun (c : Nat) => decide (column < (c : Int))
    { r with
      tokens := (r.columns.takeWhile ended).map (fun _ => .blockEnd) ++ r.tokens
      columns := r.columns.dropWhile ended }

/-- Something follows that makes no key of what stood before. -/
def dropKey? (r : Reader) : Option Reader :=
  if r.possibleKey.any (·.required) then none else some { r with possibleKey := none }

/-- Gives up a possible key that is too far behind. -/
def expireKey? (r : Reader) : Option Reader :=
  match r.possibleKey with
  | some key =>
    if key.source.line < r.source.line || key.source.index + maxKeyLength < r.source.index
    then r.dropKey?
    else some r
  | none => some r

/-- What follows may be a key. -/
def saveKey? (r : Reader) : Option Reader :=
  if r.keyAllowed then
    r.dropKey?.map fun r =>
      { r with
        possibleKey := some
          { position := r.tokens.length
            source := r.source
            required := !r.inFlow && r.indent == r.source.column } }
  else some r

/-- Goes over blanks, comments and line breaks. A tab does not indent, and a byte order mark may
begin any line. -/
def skipSpace (r : Reader) (inComment : Bool) : List Char → Reader
  | [] => { r with source := { r.source with rest := [] } }
  | c :: rest =>
    let r := { r with source := { r.source with rest := c :: rest } }
    let skipped := { r with source := r.source.next }
    if isBreak c then
      { skipped with keyAllowed := r.keyAllowed || !r.inFlow }.skipSpace false rest
    else if inComment || c == ' ' || c == '\t' && (r.inFlow || !r.keyAllowed) ||
        c == byteOrderMark && r.source.column == 0 then
      skipped.skipSpace inComment rest
    else if c == '#' then skipped.skipSpace true rest
    else r

def openFlow? (r : Reader) (t : Token) : Option Reader :=
  r.saveKey?.map fun r =>
    { r.take 1 t with
      possibleKey := none, outerKeys := r.possibleKey :: r.outerKeys, keyAllowed := true }

def closeFlow? (r : Reader) (t : Token) : Option Reader :=
  r.dropKey?.map fun r =>
    { r.take 1 t with
      possibleKey := r.outerKeys.head?.join, outerKeys := r.outerKeys.tail, keyAllowed := false }

def flowEntry? (r : Reader) : Option Reader :=
  r.dropKey?.map fun r => { r.take 1 .flowEntry with keyAllowed := true }

/-- An indicator that begins an entry of a block collection, and opens the collection. -/
def entry? (r : Reader) (collection t : Token) : Option Reader :=
  if r.inFlow || r.keyAllowed then
    (r.openBlock r.source.column r.tokens.length collection).dropKey?.map fun r =>
      { r.take 1 t with keyAllowed := !r.inFlow || t == .blockEntry }
  else none

def value? (r : Reader) : Option Reader :=
  match r.possibleKey with
  | some key =>
    let r := (r.insert key.position .key).openBlock key.source.column key.position .blockMapping
    some { r.take 1 .value with possibleKey := none, keyAllowed := false }
  | none =>
    if r.inFlow || r.keyAllowed then
      let r := r.openBlock r.source.column r.tokens.length .blockMapping
      some { r.take 1 .value with keyAllowed := !r.inFlow }
    else none

def documentMark? (r : Reader) (t : Token) : Option Reader :=
  (r.closeBlocks (-1)).dropKey?.map fun r => { r.take 3 t with keyAllowed := false }

def quoted? (r : Reader) (double : Bool) : Option Reader := do
  let r ← r.saveKey?
  let start := r.source.next
  let (text, stop) ← quoted double .text .none [] start start.rest
  some { r with source := stop, tokens := .scalar false text :: r.tokens, keyAllowed := false }

def plain? (r : Reader) : Option Reader := do
  let r ← r.saveKey?
  let found ← plain r.inFlow (r.indent + 1) .none [] r.source r.source.rest
  some { r with
    source := found.stop
    tokens := .scalar true found.text :: r.tokens
    keyAllowed := found.endsLine }

/-- The characters that begin no plain scalar. -/
def isIndicator (c : Char) : Bool := "-?:,[]\x7b\x7d#&*!|>'\"%@\x60".contains c

/-- Whether a plain scalar begins here. -/
def startsPlain (inFlow : Bool) (c : Char) (rest : List Char) : Bool :=
  !isIndicator c && !isBlank c ||
    c == '-' && !rest.head?.any isBlank ||
    (c == '?' || c == ':') && !inFlow && !atWordEnd rest

/-- Reads the token that begins with the character `c`. -/
def token? (r : Reader) (c : Char) (rest : List Char) : Option Reader :=
  let chars := c :: rest
  if r.source.column == 0 && c == '%' then none
  else if r.source.column == 0 && startsWithWord ['-', '-', '-'] chars then
    r.documentMark? .documentStart
  else if r.source.column == 0 && startsWithWord ['.', '.', '.'] chars then
    r.documentMark? .documentEnd
  else if c == '[' then r.openFlow? .openSequence
  else if c == '\x7b' then r.openFlow? .openMapping
  else if c == ']' then r.closeFlow? .closeSequence
  else if c == '\x7d' then r.closeFlow? .closeMapping
  else if c == ',' then r.flowEntry?
  else if c == '-' && atWordEnd rest then r.entry? .blockSequence .blockEntry
  else if c == '?' && (r.inFlow || atWordEnd rest) then r.entry? .blockMapping .key
  else if c == ':' && (r.inFlow || atWordEnd rest) then r.value?
  else if c == '\'' then r.quoted? false
  else if c == '"' then r.quoted? true
  else if startsPlain r.inFlow c rest then r.plain?
  else none

/-- The tokens of what follows, which is shorter than `fuel`. Directives, anchors, tags and block
scalars are not read. -/
def tokens? (fuel : Nat) (r : Reader) : Option (List Token) :=
  match fuel with
  | 0 => none
  | fuel + 1 => do
    let r ← (r.skipSpace false r.source.rest).expireKey?
    match r.source.rest with
    | [] => (r.closeBlocks (-1)).dropKey?.map (·.tokens.reverse)
    | c :: rest => ((r.closeBlocks r.source.column).token? c rest).bind (tokens? fuel)

end Reader

def Token.all? (text : String) : Option (List Token) := do
  let source ← Source.ofText? text
  { source : Reader }.tokens? (source.rest.length + 1)

end OriginServer.Yaml
