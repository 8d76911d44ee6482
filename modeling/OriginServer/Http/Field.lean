import OriginServer.Http.Token

namespace OriginServer.Http

open Ascii Scanner

/-- A field by the places of its name and its value. -/
structure Field where
  name : Span
  value : Span
  deriving Repr, DecidableEq

/-- A field name with its colon. -/
def fieldName : Scanner ParseError Span := do
  let _ ← run isBlank
  let start ← position
  let name ← run isTokenByte
  let _ ← run isBlank
  byte colon .invalidField
  ensure (!name.isEmpty) .invalidField
  return ⟨start, name.length⟩

/-- How many bytes behind a quote belong to the string it opens: zero when it opens none, and
nothing while that is not decided. -/
def quotedReach? (rest : Bytes) : Option Nat :=
  match quotedTail () 0 rest with
  | .done _ next => some next.pos
  | .more => none
  | .fail _ => some 0

/-- A field value up to its line break. `first` is where its first byte other than white space
stands, `stop` is behind the last, and `covered` bytes belong to a quoted string that was already
read. A quote that opens no string stands for itself. -/
def valueFrom (first : Option Nat) (stop pos covered : Nat) : Bytes → Scan ParseError Span
  | [] => .more
  | b :: rest =>
    match covered with
    | n + 1 => valueFrom first stop (pos + 1) n rest
    | 0 =>
      if b = cr then
        match rest with
        | [] => .more
        | l :: rest =>
          if l = lf then
            match rest with
            | [] => .more
            | x :: rest =>
              if isBlank x then valueFrom first stop (pos + 3) 0 rest
              else .done ⟨first.getD stop, stop - first.getD stop⟩ ⟨pos + 2, x :: rest⟩
          else .fail .invalidField
      else if b = dquote then
        match quotedReach? rest with
        | none => .more
        | some n => valueFrom (some (first.getD pos)) (pos + 1 + n) (pos + 1) n rest
      else if isBlank b then valueFrom first stop (pos + 1) 0 rest
      else if isControl b then .fail .invalidField
      else valueFrom (some (first.getD pos)) (pos + 1) (pos + 1) 0 rest

theorem valueFrom_eq_done {first : Option Nat} {stop pos covered : Nat} {input : Bytes} {s : Span}
    {next : Cursor} (h : valueFrom first stop pos covered input = .done s next) :
    ∃ taken : Bytes, taken ≠ [] ∧ input = taken ++ next.rest ∧ next.pos = pos + taken.length := by
  fun_induction valueFrom first stop pos covered input with
  | case1 => cases h
  | case2 _ _ _ b _ _ ih =>
    obtain ⟨t, _, ht, hp⟩ := ih h
    exact ⟨b :: t, by simp, by simp [ht], by simp [hp]; omega⟩
  | case3 => cases h
  | case4 => cases h
  | case5 _ _ _ x _ _ ih =>
    obtain ⟨t, _, ht, hp⟩ := ih h
    exact ⟨cr :: lf :: x :: t, by simp, by simp [ht], by simp [hp]; omega⟩
  | case6 =>
    cases h
    exact ⟨[cr, lf], by simp, rfl, rfl⟩
  | case7 => cases h
  | case8 => cases h
  | case9 _ _ _ _ _ _ _ ih =>
    obtain ⟨t, _, ht, hp⟩ := ih h
    exact ⟨dquote :: t, by simp, by simp [ht], by simp [hp]; omega⟩
  | case10 _ _ _ b _ _ _ _ ih =>
    obtain ⟨t, _, ht, hp⟩ := ih h
    exact ⟨b :: t, by simp, by simp [ht], by simp [hp]; omega⟩
  | case11 => cases h
  | case12 _ _ _ b _ _ _ _ _ ih =>
    obtain ⟨t, _, ht, hp⟩ := ih h
    exact ⟨b :: t, by simp, by simp [ht], by simp [hp]; omega⟩

/-- A field value with the line break that ends it. White space around it is left out. -/
def fieldValue : Scanner ParseError Span := fun c => valueFrom none c.pos c.pos 0 c.rest

theorem advances_fieldValue : fieldValue.Advances := fun _ _ _ h => valueFrom_eq_done h

/-- A field line with its folds. -/
def fieldLine : Scanner ParseError Field := do
  let name ← fieldName
  let value ← fieldValue
  return ⟨name, value⟩

theorem advances_fieldLine : fieldLine.Advances :=
  Forward.bind_advances
    ((forward_run _).bind fun _ => forward_position.bind fun _ => (forward_run _).bind fun _ =>
      (forward_run _).bind fun _ => (advances_byte _ _).forward.bind fun _ =>
        (forward_ensure _ _).bind fun _ => forward_pure _)
    fun _ => advances_fieldValue.bind fun _ => forward_pure _

/-- Field lines up to the empty line. `full` says why one more field is refused once that many
were read. The fields come with the outcome, also where a later line is refused or missing. -/
def fieldSection (full : Nat → Option ParseError) (count : Nat) (c : Cursor) :
    List Field × Scan ParseError Unit :=
  match c.rest with
  | [] => ([], .more)
  | b :: _ =>
    if b = cr then ([], lineEnd .invalidField c)
    else
      match _h : fieldLine c with
      | .done field next =>
        match full count with
        | some cause => ([], .fail cause)
        | none =>
          let (fields, outcome) := fieldSection full (count + 1) next
          (field :: fields, outcome)
      | .more => ([], .more)
      | .fail cause => ([], .fail cause)
  termination_by c.rest.length
  decreasing_by exact advances_fieldLine.rest_lt _h

theorem fieldSection_eq_done {full : Nat → Option ParseError} {count : Nat} {c next : Cursor}
    {fields : List Field} (h : fieldSection full count c = (fields, .done () next)) :
    ∃ taken : Bytes, taken ≠ [] ∧ c.rest = taken ++ next.rest ∧
      next.pos = c.pos + taken.length := by
  fun_induction fieldSection full count c generalizing fields with
  | case2 => exact advances_lineEnd _ _ _ _ (congrArg Prod.snd h)
  | case4 count c b rest hr hb field mid hm hf found outcome ho ih =>
    obtain ⟨s, ns, hs, ps⟩ := advances_fieldLine _ _ _ hm
    obtain ⟨t, _, ht, pt⟩ := @ih found (by rw [ho]; cases h; rfl)
    exact ⟨s ++ t, by simp [ns], by simp [hs, ht], by simp [ps, pt]; omega⟩
  | case1 | case3 | case5 | case6 => cases h

end OriginServer.Http
