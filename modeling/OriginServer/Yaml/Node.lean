import OriginServer.Yaml.Token

namespace OriginServer.Yaml

inductive Node where
  | scalar (plain : Bool) (text : String)
  | sequence (items : List Node)
  /-- The pairs in order of appearance, which may repeat a key. -/
  | mapping (pairs : List (Node × Node))
  deriving Repr

namespace Node

/-- What an absent node stands for. -/
def empty : Node := scalar true ""

/-- Where a node stands, which decides how it may be written. -/
inductive Place where
  | block
  /-- A key or a value of a block mapping, where a sequence needs no further indentation. -/
  | blockPair
  | flow
  deriving Repr, DecidableEq

abbrev Parsed := Option (Node × List Token)

mutual

/-- The node at the front of the tokens, with those that follow it. -/
def node (fuel : Nat) (place : Place) (tokens : List Token) : Parsed :=
  match fuel with
  | 0 => none
  | fuel + 1 =>
    match tokens with
    | .scalar plain text :: rest => some (.scalar plain text, rest)
    | .openSequence :: .closeSequence :: rest => some (.sequence [], rest)
    | .openSequence :: rest => flowItems fuel [] rest
    | .openMapping :: .closeMapping :: rest => some (.mapping [], rest)
    | .openMapping :: rest => flowPairs fuel [] rest
    | .blockSequence :: rest => if place == .flow then none else blockItems fuel [] rest
    | .blockMapping :: rest => if place == .flow then none else blockPairs fuel [] rest
    | .blockEntry :: _ => if place == .blockPair then pairItems fuel [] tokens else none
    | _ => none

/-- A node, or an empty one before one of `stops`. -/
def nodeBefore (fuel : Nat) (place : Place) (stops : List Token) (tokens : List Token) : Parsed :=
  match fuel with
  | 0 => none
  | fuel + 1 =>
    if tokens.head?.any stops.contains then some (empty, tokens) else node fuel place tokens

/-- A value before one of `stops`, or an empty one if no value is given. -/
def valueBefore (fuel : Nat) (place : Place) (stops : List Token) (tokens : List Token) : Parsed :=
  match fuel with
  | 0 => none
  | fuel + 1 =>
    match tokens with
    | .value :: rest => nodeBefore fuel place stops rest
    | _ => some (empty, tokens)

/-- The items of a block sequence. The last item comes first. -/
def blockItems (fuel : Nat) (items : List Node) (tokens : List Token) : Parsed :=
  match fuel with
  | 0 => none
  | fuel + 1 =>
    match tokens with
    | .blockEntry :: rest =>
      (nodeBefore fuel .block [.blockEntry, .blockEnd] rest).bind fun (item, rest) =>
        blockItems fuel (item :: items) rest
    | .blockEnd :: rest => some (.sequence items.reverse, rest)
    | _ => none

/-- The items of a sequence that is indented like the pair that it stands in. -/
def pairItems (fuel : Nat) (items : List Node) (tokens : List Token) : Parsed :=
  match fuel with
  | 0 => none
  | fuel + 1 =>
    match tokens with
    | .blockEntry :: rest =>
      (nodeBefore fuel .block [.blockEntry, .key, .value, .blockEnd] rest).bind fun (item, rest) =>
        pairItems fuel (item :: items) rest
    | _ => some (.sequence items.reverse, tokens)

def blockPairs (fuel : Nat) (pairs : List (Node × Node)) (tokens : List Token) : Parsed :=
  match fuel with
  | 0 => none
  | fuel + 1 =>
    let stops : List Token := [.key, .value, .blockEnd]
    match tokens with
    | .key :: rest =>
      (nodeBefore fuel .blockPair stops rest).bind fun (key, rest) =>
        (valueBefore fuel .blockPair stops rest).bind fun (value, rest) =>
          blockPairs fuel ((key, value) :: pairs) rest
    | .blockEnd :: rest => some (.mapping pairs.reverse, rest)
    | _ => none

/-- An item of a flow sequence. A pair is a mapping of its own; where its key is left out, the
token behind the `?` is passed over. -/
def flowItem (fuel : Nat) (tokens : List Token) : Parsed :=
  match fuel with
  | 0 => none
  | fuel + 1 =>
    let stops : List Token := [.flowEntry, .closeSequence]
    match tokens with
    | .key :: rest =>
      let key :=
        if rest.head?.any (Token.value :: stops).contains then some (empty, rest.tail)
        else node fuel .flow rest
      key.bind fun (key, rest) =>
        (valueBefore fuel .flow stops rest).map fun (value, rest) =>
          (mapping [(key, value)], rest)
    | _ => node fuel .flow tokens

/-- The items of a flow sequence, where one begins. The last item comes first. -/
def flowItems (fuel : Nat) (items : List Node) (tokens : List Token) : Parsed :=
  match fuel with
  | 0 => none
  | fuel + 1 =>
    (flowItem fuel tokens).bind fun (item, rest) =>
      match rest with
      | .closeSequence :: rest => some (sequence (item :: items).reverse, rest)
      | .flowEntry :: .closeSequence :: rest => some (sequence (item :: items).reverse, rest)
      | .flowEntry :: rest => flowItems fuel (item :: items) rest
      | _ => none

def flowPair (fuel : Nat) (tokens : List Token) : Option ((Node × Node) × List Token) :=
  match fuel with
  | 0 => none
  | fuel + 1 =>
    let stops : List Token := [.flowEntry, .closeMapping]
    match tokens with
    | .key :: rest =>
      (nodeBefore fuel .flow (.value :: stops) rest).bind fun (key, rest) =>
        (valueBefore fuel .flow stops rest).map fun (value, rest) => ((key, value), rest)
    | _ => (node fuel .flow tokens).map fun (key, rest) => ((key, empty), rest)

/-- The pairs of a flow mapping, where one begins. The last pair comes first. -/
def flowPairs (fuel : Nat) (pairs : List (Node × Node)) (tokens : List Token) : Parsed :=
  match fuel with
  | 0 => none
  | fuel + 1 =>
    (flowPair fuel tokens).bind fun (pair, rest) =>
      match rest with
      | .closeMapping :: rest => some (mapping (pair :: pairs).reverse, rest)
      | .flowEntry :: .closeMapping :: rest => some (mapping (pair :: pairs).reverse, rest)
      | .flowEntry :: rest => flowPairs fuel (pair :: pairs) rest
      | _ => none

end

/-- The content of the only document. A text without one has an empty node. -/
def ofTokens? (tokens : List Token) : Option Node :=
  let fuel := 4 * tokens.length + 4
  let content :=
    match tokens with
    | [] => some (empty, [])
    | [.documentStart] => some (empty, [])
    | .documentStart :: rest => nodeBefore fuel .block [.documentEnd] rest
    | _ => node fuel .block tokens
  content.bind fun (content, rest) =>
    if rest.all (· == .documentEnd) then some content else none

def ofText? (text : String) : Option Node := (Token.all? text).bind ofTokens?

end Node

end OriginServer.Yaml
