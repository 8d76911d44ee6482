import OriginServer.Json.Value
import OriginServer.Proofs.Json.Literal
import OriginServer.Proofs.Json.Number
import OriginServer.Proofs.Json.Tree

namespace OriginServer.Json

open Number (Ends)

namespace Token

section Cut

variable {a x : Bytes} {s ts : List Token} {b : UInt8} {t : Token}

theorem all?_of_scan {s r : Bytes} (hb : isSpace b = false) (h : scan? b s = some (t, r)) :
    all? (b :: s) = (all? r).map (t :: ·) := by
  rw [all?, if_neg (by simp [hb])]
  split <;> rename_i h' <;> cases h.symm.trans h'
  rfl

/-- The text is cut into these tokens, in front of bytes that no number goes on with. -/
def Cut (text : Bytes) (ts : List Token) : Prop :=
  ∀ rest, Ends rest → all? (text ++ rest) = (all? rest).map (ts ++ ·)

/-- A token of one byte, in front of which a number ends. -/
structure Mark (b : UInt8) (t : Token) : Prop where
  space : isSpace b = false
  ends : Number.goesOn b = false
  scan : ∀ rest, scan? b rest = some (t, rest)

theorem mark_openArray : Mark 0x5b .openArray := ⟨by decide, by decide, fun _ => rfl⟩

theorem mark_closeArray : Mark 0x5d .closeArray := ⟨by decide, by decide, fun _ => rfl⟩

theorem mark_openObject : Mark 0x7b .openObject := ⟨by decide, by decide, fun _ => rfl⟩

theorem mark_closeObject : Mark 0x7d .closeObject := ⟨by decide, by decide, fun _ => rfl⟩

theorem mark_comma : Mark Ascii.comma .comma := ⟨by decide, by decide, fun _ => rfl⟩

theorem mark_colon : Mark Ascii.colon .colon := ⟨by decide, by decide, fun _ => rfl⟩

theorem cut_nil : Cut [] [] := fun rest _ => by simp

theorem Cut.mark (hm : Mark b t) (hx : Cut x ts) : Cut (b :: x) (t :: ts) := by
  intro rest hr
  rw [List.cons_append, all?_of_scan hm.space (hm.scan _), hx rest hr, Option.map_map]
  rfl

/-- A mark stands between what is in front of it and what follows it. -/
theorem Cut.between (ha : Cut a s) (hm : Mark b t) (hx : Cut x ts) :
    Cut (a ++ b :: x) (s ++ t :: ts) := by
  intro rest hr
  have hends : Ends (b :: (x ++ rest)) := by
    intro y hy
    cases hy
    exact hm.ends
  rw [List.append_assoc, List.cons_append, ha _ hends, ← List.cons_append, hx.mark hm rest hr,
    Option.map_map]
  simp only [Function.comp_def, List.append_assoc]

/-- A string literal is one token. -/
theorem cut_write (s : String) : Cut (Literal.write s) [string (Literal.ofText s)] := by
  intro rest _
  have hscan : scan? Ascii.dquote
      ((Bytes.ofText s).flatMap Literal.escape ++ Ascii.dquote :: rest) =
        some (string (Literal.ofText s), rest) := by
    rw [scan?, if_pos rfl, Literal.scan?_write]
    rfl
  have hall : Literal.write s ++ rest = Ascii.dquote ::
      ((Bytes.ofText s).flatMap Literal.escape ++ Ascii.dquote :: rest) := by
    simp [Literal.write]
  rw [hall, all?_of_scan (by decide) hscan]
  rfl

/-- An integer is one token. -/
theorem cut_integer (n : Int) :
    Cut (Bytes.ofText (toString n)) [number (Number.ofInt n)] := by
  intro rest hr
  obtain ⟨b, s, hs, hb⟩ := Number.head_toString n
  have hquote : b ≠ Ascii.dquote := by
    rintro rfl
    exact absurd hb (by decide)
  have hspace : isSpace b = false := by
    cases h : isSpace b with
    | false => rfl
    | true =>
      simp only [isSpace, Bool.or_eq_true, beq_iff_eq] at h
      obtain ((rfl | rfl) | rfl) | rfl := h <;> exact absurd hb (by decide)
  have hnumber := Number.scan?_ofInt n hr
  rw [hs, List.cons_append] at hnumber ⊢
  refine all?_of_scan hspace ?_
  rw [scan?, if_neg hquote, if_pos (by simpa using hb), hnumber]
  rfl

theorem cut_null : Cut (Bytes.ofText "null") [.null] :=
  fun _ _ => all?_of_scan (by decide) rfl

theorem cut_bool (b : Bool) : Cut (Bytes.ofText (if b then "true" else "false")) [.bool b] := by
  cases b <;> exact fun _ _ => all?_of_scan (by decide) rfl

end Cut

end Token

namespace Value

section Tree

mutual

/-- The tree that the text of a value is read as. A double has none of its own. -/
def tree : Value → Tree
  | null => .null
  | bool b => .bool b
  | integer n => .number (Number.ofInt n)
  | double _ => .null
  | string s => .string (Literal.ofText s)
  | array items => .array (trees items)
  | object members => .object (memberTrees members)

def trees : List Value → List Tree
  | [] => []
  | v :: rest => tree v :: trees rest

def memberTrees : List (String × Value) → List (Literal × Tree)
  | [] => []
  | (k, v) :: rest => (Literal.ofText k, tree v) :: memberTrees rest

end

end Tree

section Text

/-- The text of the value is cut into the tokens of its tree. -/
def Spelt (v : Value) : Prop := Token.Cut v.write v.tree.tokens

theorem spelt_items {items : List Value} (h : ∀ v ∈ items, Spelt v) :
    Token.Cut (writeItems items) (Tree.itemTokens (trees items)) := by
  induction items with
  | nil => exact Token.cut_nil
  | cons v items ih =>
    obtain ⟨hv, hitems⟩ := List.forall_mem_cons.1 h
    cases items with
    | nil => exact hv
    | cons w items => exact Token.Cut.between hv Token.mark_comma (ih hitems)

theorem spelt_array {items : List Value} (h : ∀ v ∈ items, Spelt v) : Spelt (array items) := by
  rw [Spelt, write, tree, Tree.tokens]
  exact ((spelt_items h).between Token.mark_closeArray Token.cut_nil).mark Token.mark_openArray

theorem spelt_members {members : List (String × Value)} (h : ∀ m ∈ members, Spelt m.2) :
    Token.Cut (writeMembers members) (Tree.memberTokens (memberTrees members)) := by
  have hkey (k : String) {x : Bytes} {ts : List Token} (hx : Token.Cut x ts) :
      Token.Cut (Literal.write k ++ Ascii.colon :: x)
        (.string (Literal.ofText k) :: .colon :: ts) :=
    (Token.cut_write k).between Token.mark_colon hx
  induction members with
  | nil => exact Token.cut_nil
  | cons m members ih =>
    obtain ⟨hm, hmembers⟩ := List.forall_mem_cons.1 h
    cases members with
    | nil => exact hkey m.1 hm
    | cons w members =>
      have hboth := hkey m.1 (Token.Cut.between hm Token.mark_comma (ih hmembers))
      rw [← List.cons_append, ← List.append_assoc] at hboth
      exact hboth

theorem spelt_object {members : List (String × Value)} (h : ∀ m ∈ members, Spelt m.2) :
    Spelt (object members) := by
  rw [Spelt, write, tree, Tree.tokens]
  exact ((spelt_members h).between Token.mark_closeObject Token.cut_nil).mark Token.mark_openObject

theorem read?_of_spelt {v : Value} (h : Spelt v) : Tree.read? v.write = some v.tree := by
  have hall := h [] nofun
  rw [List.append_nil] at hall
  rw [Tree.read?, hall, show Token.all? [] = some [] by rw [Token.all?]]
  simp [Tree.ofTokens?_tokens]

end Text

section Exact

/-- The value has no doubles, its integers have 64-bit forms, the keys of an object are distinct,
and arrays and objects nest at most so deep. -/
inductive Exact : Nat → Value → Prop
  | null {depth : Nat} : Exact depth null
  | bool {depth : Nat} (b : Bool) : Exact depth (bool b)
  | integer {depth : Nat} {n : Int} (hl : -2 ^ 63 ≤ n) (hu : n < 2 ^ 64) :
    Exact depth (integer n)
  | string {depth : Nat} (s : String) : Exact depth (string s)
  | array {depth : Nat} {items : List Value} (h : ∀ v ∈ items, Exact depth v) :
    Exact (depth + 1) (array items)
  | object {depth : Nat} {members : List (String × Value)} (hk : (members.map Prod.fst).Nodup)
    (h : ∀ m ∈ members, Exact depth m.2) : Exact (depth + 1) (object members)

mutual

/-- The value with the members of its objects in the order of their keys. -/
def sorted : Value → Value
  | array items => array (sortedItems items)
  | object members => object (sortedMembers [] members)
  | v => v

def sortedItems : List Value → List Value
  | [] => []
  | v :: rest => sorted v :: sortedItems rest

/-- Adds members to those that are in order. -/
def sortedMembers (read : List (String × Value)) : List (String × Value) → List (String × Value)
  | [] => read
  | (k, v) :: rest => sortedMembers (insert k (sorted v) read) rest

end

/-- The keys of every object are in ascending order. -/
inductive Ascending : Value → Prop
  | null : Ascending null
  | bool (b : Bool) : Ascending (bool b)
  | integer (n : Int) : Ascending (integer n)
  | double (bits : UInt64) : Ascending (double bits)
  | string (s : String) : Ascending (string s)
  | array {items : List Value} (h : ∀ v ∈ items, Ascending v) : Ascending (array items)
  | object {members : List (String × Value)}
    (hk : (members.map Prod.fst).Pairwise (· < ·)) (h : ∀ m ∈ members, Ascending m.2) :
    Ascending (object members)

end Exact

section Reading

theorem Exact.spelt {depth : Nat} {v : Value} (h : Exact depth v) : Spelt v := by
  induction h with
  | null => exact Token.cut_null
  | bool b => exact Token.cut_bool b
  | integer => exact Token.cut_integer _
  | string s => exact Token.cut_write s
  | array _ ih => exact spelt_array ih
  | object _ _ ih => exact spelt_object ih

theorem ofItems?_trees {depth : Nat} {items : List Value}
    (h : ∀ v ∈ items, ofTree? depth v.tree = some v.sorted) :
    ofItems? depth (trees items) = some (sortedItems items) := by
  induction items with
  | nil => rfl
  | cons v items ih =>
    obtain ⟨hv, hitems⟩ := List.forall_mem_cons.1 h
    rw [trees, ofItems?, hv, ih hitems]
    rfl

theorem ofMembers?_memberTrees {depth : Nat} {members : List (String × Value)}
    (h : ∀ m ∈ members, ofTree? depth m.2.tree = some m.2.sorted)
    (read : List (String × Value)) :
    ofMembers? depth read (memberTrees members) = some (sortedMembers read members) := by
  induction members generalizing read with
  | nil => rfl
  | cons m members ih =>
    obtain ⟨hm, hmembers⟩ := List.forall_mem_cons.1 h
    rw [memberTrees, ofMembers?, Literal.text?_ofText, hm]
    exact ih hmembers _

/-- The value is read from its tree. -/
theorem Exact.ofTree?_tree {depth : Nat} {v : Value} (h : Exact depth v) :
    ofTree? depth v.tree = some v.sorted := by
  induction h with
  | null | bool => rfl
  | integer hl hu => rw [tree, ofTree?, ofNumber?, Number.integer?_ofInt hl hu]; rfl
  | string s => rw [tree, ofTree?, Literal.text?_ofText]; rfl
  | array _ ih => rw [tree, ofTree?, ofItems?_trees ih]; rfl
  | object _ _ ih => rw [tree, ofTree?, ofMembers?_memberTrees ih]; rfl

/-- A value is read again from its text. -/
theorem read?_write {v : Value} (h : Exact maxDepth v) : read? v.write = some v.sorted := by
  rw [read?, read?_of_spelt h.spelt, Option.bind_some, h.ofTree?_tree]

end Reading

section Sorting

/-- A key behind all others comes last. -/
theorem insert_last {key : String} {value : Value} {read : List (String × Value)}
    (h : ∀ m ∈ read, m.1 < key) : insert key value read = read ++ [(key, value)] := by
  induction read with
  | nil => rfl
  | cons m read ih =>
    obtain ⟨hm, hread⟩ := List.forall_mem_cons.1 h
    have hne : key ≠ m.1 := fun he => String.lt_irrefl _ (he ▸ hm)
    rw [insert, if_neg hne, if_neg (String.lt_asymm hm), ih hread]
    rfl

/-- A new key changes nothing else. -/
theorem insert_perm {key : String} {value : Value} {read : List (String × Value)}
    (h : key ∉ read.map Prod.fst) : (insert key value read).Perm ((key, value) :: read) := by
  induction read with
  | nil => exact .refl _
  | cons m read ih =>
    rw [List.map_cons, List.mem_cons, not_or] at h
    rw [insert, if_neg h.1]
    split
    · exact .refl _
    · exact ((ih h.2).cons m).trans (.swap _ _ _)

/-- With distinct keys sorting only changes the order of the members. -/
theorem sortedMembers_perm {members read : List (String × Value)}
    (h : ((read ++ members).map Prod.fst).Nodup) :
    (sortedMembers read members).Perm (read ++ members.map fun m => (m.1, m.2.sorted)) := by
  induction members generalizing read with
  | nil => simp [sortedMembers]
  | cons m members ih =>
    have hnew : m.1 ∉ read.map Prod.fst := by
      rw [List.map_append, List.map_cons, List.nodup_append] at h
      exact fun hm => h.2.2 _ hm _ (List.mem_cons_self ..) rfl
    have hperm : (insert m.1 m.2.sorted read).Perm ((m.1, m.2.sorted) :: read) := insert_perm hnew
    have hkeys : ((insert m.1 m.2.sorted read ++ members).map Prod.fst).Perm
        ((read ++ m :: members).map Prod.fst) := by
      refine ((hperm.append_right members).map Prod.fst).trans ?_
      rw [List.map_append, List.map_append]
      exact (List.perm_middle (a := m.1)).symm
    rw [sortedMembers]
    refine (ih (hkeys.nodup_iff.2 h)).trans ((hperm.append_right _).trans ?_)
    exact List.perm_middle.symm

theorem sortedItems_of_sorted {items : List Value} (h : ∀ v ∈ items, v.sorted = v) :
    sortedItems items = items := by
  induction items with
  | nil => rfl
  | cons v items ih =>
    obtain ⟨hv, hitems⟩ := List.forall_mem_cons.1 h
    rw [sortedItems, hv, ih hitems]

theorem sortedMembers_of_sorted {members read : List (String × Value)}
    (hk : ((read ++ members).map Prod.fst).Pairwise (· < ·))
    (h : ∀ m ∈ members, m.2.sorted = m.2) : sortedMembers read members = read ++ members := by
  induction members generalizing read with
  | nil => simp [sortedMembers]
  | cons m members ih =>
    obtain ⟨hm, hmembers⟩ := List.forall_mem_cons.1 h
    have hlast : ∀ r ∈ read, r.1 < m.1 := by
      rw [List.map_append, List.map_cons, List.pairwise_append] at hk
      exact fun r hr => hk.2.2 _ (List.mem_map_of_mem hr) _ (List.mem_cons_self ..)
    rw [sortedMembers, hm, insert_last hlast, ih (by simpa using hk) hmembers]
    simp

/-- Values in order stay as they are. -/
theorem Ascending.sorted_eq {v : Value} (h : Ascending v) : v.sorted = v := by
  induction h with
  | null | bool | integer | double | string => rfl
  | array _ ih => rw [sorted, sortedItems_of_sorted ih]
  | object hk _ ih => rw [sorted, sortedMembers_of_sorted (by simpa using hk) ih, List.nil_append]

end Sorting

end Value

end OriginServer.Json
