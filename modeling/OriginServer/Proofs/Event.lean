import OriginServer.Event
import OriginServer.Proofs.Json.Value

namespace OriginServer.Event

open Json

section Record

theorem mapM_memberTrees (members : List (String × Value)) :
    ((Value.memberTrees members).mapM fun m => m.1.text?.map fun key => (key, m.2)) =
      some (members.map fun m => (m.1, m.2.tree)) := by
  induction members with
  | nil => rfl
  | cons m members ih =>
    rw [Value.memberTrees, List.mapM_cons, ih, Literal.text?_ofText]
    rfl

theorem map_text?_memberTrees (members : List (String × Value)) :
    (Value.memberTrees members).map (fun m => m.1.text?) = members.map (some ∘ Prod.fst) := by
  induction members with
  | nil => rfl
  | cons m members ih =>
    rw [Value.memberTrees, List.map_cons, List.map_cons, ih, Literal.text?_ofText]
    rfl

/-- A record is looked up among the members it was written from. -/
theorem record?_tree {keys : List String} {members : List (String × Value)}
    (hk : (members.map Prod.fst).Nodup) (hs : ∀ k ∈ members.map Prod.fst, k ∈ keys) :
    record? keys (Value.object members).tree =
      some fun key => (members.find? (·.1 == key)).map fun m => m.2.tree := by
  have hnames : (members.map fun m => (m.1, m.2.tree)).map Prod.fst = members.map Prod.fst := by
    rw [List.map_map]
    rfl
  have hknown : (members.map Prod.fst).filter keys.contains = members.map Prod.fst :=
    List.filter_eq_self.2 fun k hm => List.contains_iff_mem.2 (hs k hm)
  rw [Value.tree, record?, mapM_memberTrees, Option.bind_eq_bind, Option.bind_some]
  simp only [hnames, hknown, if_pos hk, List.find?_map, Option.map_map]
  rfl

end Record

section Fields

variable {e : Event}

/-- The keys in the text of the event. -/
def keys (e : Event) : List String :=
  ["event", "uuid"] ++ (if e.parameter.isNull then [] else ["parameter"]) ++
    (if e.request.isNull then [] else ["request"]) ++
    (if e.response.isNull then [] else ["response"]) ++
    (if e.error.isNone then [] else ["error"])

theorem map_present (key : String) (v : Value) :
    (present key v).map Prod.fst = if v.isNull then [] else [key] := by
  rw [present]
  split <;> rfl

theorem map_members (e : Event) : e.members.map Prod.fst = e.keys := by
  cases h : e.error <;> simp [members, keys, map_present, h]

theorem keys_sublist (e : Event) :
    e.keys.Sublist ["event", "uuid", "parameter", "request", "response", "error"] := by
  have hall : ∀ a b c d : Bool, (["event", "uuid"] ++ (if a then [] else ["parameter"]) ++
      (if b then [] else ["request"]) ++ (if c then [] else ["response"]) ++
      (if d then [] else ["error"])).Sublist
        ["event", "uuid", "parameter", "request", "response", "error"] := by decide
  exact hall _ _ _ _

/-- What stands in the text under a key. -/
def entry (e : Event) (key : String) : Option Tree :=
  (e.members.find? (·.1 == key)).map fun m => m.2.tree

theorem record?_members (e : Event) :
    record? ["event", "uuid", "parameter", "request", "response", "error"]
      (Value.object e.members).tree = some e.entry := by
  have hk : (e.members.map Prod.fst).Nodup := by
    rw [map_members]
    exact e.keys_sublist.nodup (by decide)
  refine record?_tree hk fun k hm => ?_
  rw [map_members] at hm
  exact e.keys_sublist.subset hm

/-- What stands in the text for a value, if it is not left out. -/
def written? (v : Value) : Option Tree := if v.isNull then none else some v.tree

theorem find?_present (name key : String) (v : Value) :
    (present name v).find? (·.1 == key) =
      if name = key then (if v.isNull then none else some (name, v)) else none := by
  cases h : v.isNull <;> by_cases hk : name = key <;> simp [present, h, hk]

theorem map_written (name : String) (v : Value) :
    (if v.isNull then none else some (name, v)).map (fun m => m.2.tree) = written? v := by
  rw [written?]
  split <;> rfl

/-- A value stands under its key, if it is not left out. -/
theorem entry_value {e : Event} {key : String} {v : Value} (h : (key, v) ∈
    [("parameter", e.parameter), ("request", e.request), ("response", e.response)]) :
    e.entry key = written? v := by
  rw [← map_written key]
  simp only [List.mem_cons, Prod.mk.injEq, List.not_mem_nil, or_false] at h
  obtain ⟨rfl, rfl⟩ | ⟨rfl, rfl⟩ | ⟨rfl, rfl⟩ := h
  all_goals cases he : e.error <;> simp [entry, members, find?_present, List.find?_append, he]

/-- The members of an error. -/
def errorMembers (error : EventError) : List (String × Value) :=
  [("code", .integer error.code), ("desc", .string error.desc)]

theorem entry_error (e : Event) :
    e.entry "error" = e.error.map fun error => (Value.object (errorMembers error)).tree := by
  cases h : e.error <;>
    simp [entry, members, find?_present, List.find?_append, h, errorMembers]

end Fields

section Reading

/-- The values of the event have no doubles and nest no deeper than the reader goes below the event
itself, and the integers have 64-bit forms. -/
structure Exact (e : Event) : Prop where
  parameter : e.parameter.Exact (Value.maxDepth - 1)
  request : e.request.Exact (Value.maxDepth - 1)
  response : e.response.Exact (Value.maxDepth - 1)
  code : ∀ error ∈ e.error, -2 ^ 63 ≤ error.code ∧ error.code < 2 ^ 63

/-- The event with the members of its objects in the order of their keys. -/
def sorted (e : Event) : Event :=
  { e with
    parameter := e.parameter.sorted, request := e.request.sorted, response := e.response.sorted }

/-- The keys of the objects are in ascending order. -/
structure Ascending (e : Event) : Prop where
  parameter : e.parameter.Ascending
  request : e.request.Ascending
  response : e.response.Ascending

theorem Ascending.sorted_eq {e : Event} (h : e.Ascending) : e.sorted = e := by
  rw [sorted, h.parameter.sorted_eq, h.request.sorted_eq, h.response.sorted_eq]

/-- A value that was left out is null. -/
theorem valueOrNull?_written {v : Value} (h : v.Exact (Value.maxDepth - 1)) :
    valueOrNull? (written? v) = some v.sorted := by
  cases hn : v.isNull with
  | false =>
    rw [written?, hn]
    exact h.ofTree?_tree
  | true =>
    cases v with
    | null => rfl
    | _ => cases hn

theorem error?_tree {error : EventError} (hl : -2 ^ 63 ≤ error.code) (hu : error.code < 2 ^ 63) :
    error? (some (Value.object (errorMembers error)).tree) = some (some error) := by
  have hkeys : (errorMembers error).map Prod.fst = ["code", "desc"] := rfl
  have hrecord : record? ["code", "desc"] (Value.object (errorMembers error)).tree = _ :=
    record?_tree (by rw [hkeys]; decide) fun _ hm => hkeys ▸ hm
  have hcode : code? (Value.integer error.code).tree = some error.code := by
    rw [Value.tree, code?, Number.integer?_ofInt hl (by omega), Option.filter_some,
      if_pos (decide_eq_true hu)]
  have hdesc : text? (Value.string error.desc).tree = some error.desc := Literal.text?_ofText _
  calc error? (some (Value.object (errorMembers error)).tree)
      = (record? ["code", "desc"] (Value.object (errorMembers error)).tree).bind fun entry =>
          ((entry "code").bind code?).bind fun code =>
            (textOrEmpty? (entry "desc")).bind fun desc => some (some ⟨code, desc⟩) := rfl
    _ = (code? (Value.integer error.code).tree).bind fun code =>
          (text? (Value.string error.desc).tree).bind fun desc => some (some ⟨code, desc⟩) := by
      rw [hrecord]
      rfl
    _ = some (some error) := by
      rw [hcode, hdesc]
      rfl

/-- The text of an event is cut into its tokens. -/
theorem Exact.spelt {e : Event} (h : e.Exact) : (Value.object e.members).Spelt := by
  have hpresent {key : String} {v : Value} (hv : v.Exact (Value.maxDepth - 1)) :
      ∀ m ∈ present key v, m.2.Spelt := by
    rw [present]
    split
    · exact List.forall_mem_nil _
    · exact List.forall_mem_singleton.2 hv.spelt
  have herror (error : EventError) : (Value.object (errorMembers error)).Spelt := by
    refine Value.spelt_object ?_
    rw [errorMembers, List.forall_mem_cons, List.forall_mem_singleton]
    exact ⟨Token.cut_integer _, Token.cut_write _⟩
  refine Value.spelt_object ?_
  simp only [members, List.forall_mem_append]
  refine ⟨⟨⟨⟨?_, hpresent h.parameter⟩, hpresent h.request⟩, hpresent h.response⟩, ?_⟩
  · rw [List.forall_mem_cons, List.forall_mem_singleton]
    exact ⟨Token.cut_write _, Token.cut_write _⟩
  · cases e.error with
    | none => exact List.forall_mem_nil _
    | some error => exact List.forall_mem_singleton.2 (herror error)

/-- An event is read again from its text, with the members of its objects in order, which is how
a map holds them. The text has no key for a null value or an absent error. -/
theorem round_trip {e : Event} (h : e.Exact) :
    read? e.write = some e.sorted ∧ (e.Ascending → read? e.write = some e) ∧
      e.sorted.isSuccess = e.isSuccess ∧
      ∃ members, Tree.read? e.write = some (.object members) ∧
        members.map (fun m => m.1.text?) = e.keys.map some := by
  have htree : Tree.read? e.write = some (Value.object e.members).tree :=
    Value.read?_of_spelt h.spelt
  have herror : error? (e.entry "error") = some e.error := by
    rw [entry_error]
    cases he : e.error with
    | none => rfl
    | some error => exact error?_tree (h.code error he).1 (h.code error he).2
  have hevent : (e.entry "event").bind text? = some e.event := Literal.text?_ofText _
  have huuid : textOrEmpty? (e.entry "uuid") = some e.uuid := Literal.text?_ofText _
  have hparameter : valueOrNull? (e.entry "parameter") = some e.parameter.sorted := by
    rw [entry_value (v := e.parameter) (by simp), valueOrNull?_written h.parameter]
  have hrequest : valueOrNull? (e.entry "request") = some e.request.sorted := by
    rw [entry_value (v := e.request) (by simp), valueOrNull?_written h.request]
  have hresponse : valueOrNull? (e.entry "response") = some e.response.sorted := by
    rw [entry_value (v := e.response) (by simp), valueOrNull?_written h.response]
  have hread : read? e.write = some e.sorted := by
    rw [read?, htree, Option.bind_some, ofTree?, record?_members]
    simp only [Option.bind_eq_bind, Option.bind_some, hevent, huuid, hparameter, hrequest,
      hresponse, herror]
    rfl
  refine ⟨hread, fun ha => by rw [hread, ha.sorted_eq], rfl, _, htree, ?_⟩
  rw [← map_members, List.map_map]
  exact map_text?_memberTrees e.members

theorem round_trip_nested :
    let e : Event :=
      { event := "say \"h\u00e9\"\n", request := .integer (2 ^ 64 - 1), error := some ⟨-1, "\\"⟩
        parameter := .object [("a", .integer (-5)), ("b", .array [.null, .string "\u0001"])] }
    e.Exact ∧ e.Ascending ∧ read? e.write = some e ∧
      e.keys = ["event", "uuid", "parameter", "request", "error"] := by
  intro e
  have hexact : e.Exact :=
    { parameter := by
        refine .object (by decide) (List.forall_mem_cons.2 ⟨.integer (by decide) (by decide), ?_⟩)
        refine List.forall_mem_singleton.2 (.array (List.forall_mem_cons.2 ⟨.null, ?_⟩))
        exact List.forall_mem_singleton.2 (.string _)
      request := .integer (by decide) (by decide)
      response := .null
      code := by
        rintro _ ⟨⟩
        decide }
  have hascending : e.Ascending :=
    { parameter := by
        refine .object (by decide) (List.forall_mem_cons.2 ⟨.integer _, ?_⟩)
        refine List.forall_mem_singleton.2 (.array (List.forall_mem_cons.2 ⟨.null, ?_⟩))
        exact List.forall_mem_singleton.2 (.string _)
      request := .integer _
      response := .null }
  exact ⟨hexact, hascending, (round_trip hexact).2.1 hascending, rfl⟩

end Reading

end OriginServer.Event
