import OriginServer.Json.Tree

namespace OriginServer.Json.Tree

section Tokens

mutual

/-- The tokens of a tree. -/
def tokens : Tree → List Token
  | null => [.null]
  | bool b => [.bool b]
  | number n => [.number n]
  | string literal => [.string literal]
  | array items => .openArray :: (itemTokens items ++ [.closeArray])
  | object members => .openObject :: (memberTokens members ++ [.closeObject])

def itemTokens : List Tree → List Token
  | [] => []
  | [t] => tokens t
  | t :: rest => tokens t ++ .comma :: itemTokens rest

def memberTokens : List (Literal × Tree) → List Token
  | [] => []
  | [(k, t)] => .string k :: .colon :: tokens t
  | (k, t) :: rest => .string k :: .colon :: (tokens t ++ .comma :: memberTokens rest)

end

end Tokens

section Run

variable {st next : State} {levels : List Level} {rest : List Token}

/-- The state after some tokens, if they fit. -/
def run (st : State) (ts : List Token) : Option State := ts.foldlM State.step st

theorem run_cons {t : Token} (h : st.step t = some next) : run st (t :: rest) = run next rest := by
  rw [run, List.foldlM_cons, h]
  rfl

/-- No value begins with the end of an array. -/
theorem run_firstItem (t : Tree) (items : List Tree) (levels : List Level) (rest : List Token) :
    run (.firstItem levels) (itemTokens (t :: items) ++ rest) =
      run (.value (.array [] :: levels)) (itemTokens (t :: items) ++ rest) := by
  cases items <;> cases t <;> rfl

/-- No key begins with the end of an object. -/
theorem run_firstKey (k : Literal) (t : Tree) (members : List (Literal × Tree))
    (levels : List Level) (rest : List Token) :
    run (.firstKey levels) (memberTokens ((k, t) :: members) ++ rest) =
      run (.key [] levels) (memberTokens ((k, t) :: members) ++ rest) := by
  cases members <;> rfl

mutual

/-- Behind its tokens a value is complete. -/
theorem run_tokens : ∀ (t : Tree) (levels : List Level) (rest : List Token),
    run (.value levels) (t.tokens ++ rest) = run (.complete t levels) rest
  | null, _, _ | bool _, _, _ | number _, _, _ | string _, _, _ => rfl
  | array [], _, _ | object [], _, _ => rfl
  | array (t :: items), levels, rest => by
    have hopen : (State.value levels).step .openArray = some (.firstItem levels) := rfl
    rw [tokens, List.cons_append, run_cons hopen, List.append_assoc, run_firstItem]
    exact run_items (t :: items) (List.cons_ne_nil _ _) [] levels rest
  | object ((k, t) :: members), levels, rest => by
    have hopen : (State.value levels).step .openObject = some (.firstKey levels) := rfl
    rw [tokens, List.cons_append, run_cons hopen, List.append_assoc, run_firstKey]
    exact run_members ((k, t) :: members) (List.cons_ne_nil _ _) [] levels rest

theorem run_items : ∀ (items : List Tree), items ≠ [] → ∀ (done : List Tree)
    (levels : List Level) (rest : List Token),
    run (.value (.array done :: levels)) (itemTokens items ++ .closeArray :: rest) =
      run (.complete (.array (done.reverse ++ items)) levels) rest
  | [], h, _, _, _ => absurd rfl h
  | [t], _, done, levels, rest => by
    rw [itemTokens, run_tokens t, run_cons rfl, List.reverse_cons]
  | t :: u :: items, _, done, levels, rest => by
    rw [itemTokens, List.append_assoc, run_tokens t, List.cons_append, run_cons rfl,
      run_items (u :: items) (List.cons_ne_nil _ _), List.reverse_cons, List.append_assoc]
    rfl
    nofun

theorem run_members : ∀ (members : List (Literal × Tree)), members ≠ [] →
    ∀ (done : List (Literal × Tree)) (levels : List Level) (rest : List Token),
    run (.key done levels) (memberTokens members ++ .closeObject :: rest) =
      run (.complete (.object (done.reverse ++ members)) levels) rest
  | [], h, _, _, _ => absurd rfl h
  | [(k, t)], _, done, levels, rest => by
    rw [memberTokens, List.cons_append, run_cons rfl, List.cons_append, run_cons rfl, run_tokens t,
      run_cons rfl, List.reverse_cons]
  | (k, t) :: m :: members, _, done, levels, rest => by
    rw [memberTokens, List.cons_append, run_cons rfl, List.cons_append, run_cons rfl,
      List.append_assoc, run_tokens t, List.cons_append, run_cons rfl,
      run_members (m :: members) (List.cons_ne_nil _ _), List.reverse_cons, List.append_assoc]
    rfl
    nofun

end

end Run

/-- A tree is put together again from its tokens. -/
theorem ofTokens?_tokens (t : Tree) : ofTokens? t.tokens = some t := by
  have h := run_tokens t [] []
  rw [List.append_nil] at h
  rw [ofTokens?, ← run, h]
  rfl

end OriginServer.Json.Tree
