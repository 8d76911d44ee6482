import OriginServer.Proofs.Http.FieldGrammar
import OriginServer.Proofs.Http.Framing

namespace OriginServer.Http

open Ascii

namespace FieldList

section Trim

theorem trim_blanks_append {r : Bytes} (hr : Blanks r) (b : Bytes) :
    (r ++ b).trim isFoldedBlank = b.trim isFoldedBlank := by
  rw [Bytes.trim, List.dropWhile_append_of_pos hr, Bytes.trim]

theorem trim_append_blanks {r : Bytes} (hr : Blanks r) (a : Bytes) :
    (a ++ r).trim isFoldedBlank = a.trim isFoldedBlank := by
  obtain ⟨after, ha, hs⟩ := trim_sound a
  obtain ⟨hh, hl⟩ := trim_ends a
  have h := trim_eq (blanks_takeWhile a) (List.forall_mem_append.2 ⟨ha, hr⟩) hh hl
  rwa [← List.append_assoc, ← List.append_assoc, ← hs] at h

end Trim

section Glue

/-- The pieces of two texts as those of one. The last piece of the first and the first one of the
second become one. -/
def glue (l l' : List Bytes) : List Bytes := l.dropLast ++ l'.modifyHead (l.getLastD [] ++ ·)

theorem glue_concat (front : List Bytes) (a b : Bytes) (back : List Bytes) :
    glue (front ++ [a]) (b :: back) = front ++ (a ++ b) :: back := by
  simp [glue]

theorem glue_nil_singleton (l' : List Bytes) : glue [[]] l' = l' := by
  cases l' <;> rfl

theorem glue_cons_nil {l l' : List Bytes} (h : l ≠ []) (h' : l' ≠ []) :
    glue ([] :: l) l' = [] :: glue l l' := by
  obtain ⟨b, back, rfl⟩ := List.exists_cons_of_ne_nil h'
  obtain he | ⟨front, a, rfl⟩ := List.eq_nil_or_concat' l
  · exact absurd he h
  · rw [glue_concat, ← List.cons_append, glue_concat, List.cons_append]

theorem glue_cons_comma {l : List Bytes} (h : l ≠ []) (l' : List Bytes) :
    glue l ([] :: l') = l ++ l' := by
  obtain he | ⟨front, a, rfl⟩ := List.eq_nil_or_concat' l
  · exact absurd he h
  · rw [glue_concat, List.append_nil, List.append_assoc, List.singleton_append]

theorem map_trim_glue_left {r : Bytes} (hr : Blanks r) (l : List Bytes) :
    (glue [r] l).map (·.trim isFoldedBlank) = l.map (·.trim isFoldedBlank) := by
  cases l with
  | nil => rfl
  | cons b back =>
    have hg : glue [r] (b :: back) = (r ++ b) :: back := glue_concat [] r b back
    rw [hg, List.map_cons, List.map_cons, trim_blanks_append hr]

theorem map_trim_glue_right {r : Bytes} (hr : Blanks r) {l : List Bytes} (h : l ≠ []) :
    (glue l [r]).map (·.trim isFoldedBlank) = l.map (·.trim isFoldedBlank) := by
  obtain he | ⟨front, a, rfl⟩ := List.eq_nil_or_concat' l
  · exact absurd he h
  · rw [glue_concat, List.map_append, List.map_append, List.map_singleton, List.map_singleton,
      trim_append_blanks hr]

theorem glue_modifyHead {l l' : List Bytes} (h : l ≠ []) (h' : l' ≠ []) (x : UInt8) :
    glue (l.modifyHead (x :: ·)) l' = (glue l l').modifyHead (x :: ·) := by
  obtain ⟨b, back, rfl⟩ := List.exists_cons_of_ne_nil h'
  obtain he | ⟨front, a, rfl⟩ := List.eq_nil_or_concat' l
  · exact absurd he h
  · cases front with
    | nil => rfl
    | cons p front =>
      rw [glue_concat]
      exact glue_concat ((x :: p) :: front) a b back

end Glue

section Quotes

theorem pieces_cons (q : Quote) (b : UInt8) (rest : Bytes) :
    (pieces q (b :: rest)).1 =
      if q = .outside ∧ b = comma then [] :: (pieces (q.step b) rest).1
      else (pieces (q.step b) rest).1.modifyHead (b :: ·) := by
  obtain ⟨piece, found, hp⟩ := List.exists_cons_of_ne_nil (pieces_ne_nil (q.step b) rest)
  simp only [pieces]
  split
  · rfl
  · rw [hp]
    rfl

theorem pieces_append (q : Quote) (x y : Bytes) :
    (pieces q (x ++ y)).1 = glue (pieces q x).1 (pieces (q.behind x) y).1 := by
  induction x generalizing q with
  | nil => exact (glue_nil_singleton _).symm
  | cons b x ih =>
    have hb : q.behind (b :: x) = (q.step b).behind x := rfl
    rw [List.cons_append, pieces_cons, pieces_cons, hb, ih]
    split
    · rw [glue_cons_nil (pieces_ne_nil _ _) (pieces_ne_nil _ _)]
    · rw [glue_modifyHead (pieces_ne_nil _ _) (pieces_ne_nil _ _)]

theorem settled_of_comma {x : Bytes} (h : Settled (x ++ [comma])) : Settled x := by
  rw [Settled, Quote.behind_append] at h
  cases hq : Quote.outside.behind x with
  | outside => exact hq
  | inside | escaped =>
    rw [hq] at h
    cases h

end Quotes

section Cutter

/-- A way to cut texts at commas that cuts what comes behind an acceptable text as it would without
that text. -/
structure Cutter (ok : Bytes → Prop) (cut : Bytes → List Bytes) : Prop where
  ne_nil (x : Bytes) : cut x ≠ []
  append {x : Bytes} (hx : ok x) (y : Bytes) : cut (x ++ y) = glue (cut x) (cut y)
  comma (y : Bytes) : cut (comma :: y) = [] :: cut y
  blanks {r : Bytes} (hr : Blanks r) : cut r = [r]
  ok_append {x y : Bytes} (hx : ok x) (hy : ok y) : ok (x ++ y)
  ok_blanks {r : Bytes} (hr : Blanks r) : ok r
  ok_of_comma {x : Bytes} (h : ok (x ++ [Ascii.comma])) : ok x

/-- What stands between commas, without the white space around it. -/
def held (cut : Bytes → List Bytes) (value : Bytes) : List Bytes :=
  (cut value).map (·.trim isFoldedBlank)

/-- Several values as one. -/
def joined (values : List Bytes) : Bytes := (Bytes.ofText ", ").intercalate values

theorem joined_singleton (v : Bytes) : joined [v] = v := List.intercalate_singleton

theorem joined_cons_cons (v w : Bytes) (rest : List Bytes) :
    joined (v :: w :: rest) = v ++ comma :: ([sp] ++ joined (w :: rest)) := by
  rw [joined, List.intercalate_cons_cons, List.append_assoc]
  rfl

theorem mem_joined {values : List Bytes} {v : Bytes} {b : UInt8} (hv : v ∈ values) (hb : b ∈ v) :
    b ∈ joined values := by
  induction values with
  | nil => cases hv
  | cons w rest ih =>
    cases rest with
    | nil =>
      rw [List.mem_singleton.1 hv] at hb
      rwa [joined_singleton]
    | cons w' rest =>
      rw [joined_cons_cons]
      obtain rfl | hv := List.mem_cons.1 hv
      · exact List.mem_append_left _ hb
      · exact List.mem_append_right _ (List.mem_cons_of_mem _ (List.mem_append_right _ (ih hv)))

theorem blanks_sp : Blanks [sp] := List.forall_mem_singleton.2 rfl

/-- A place in a list next to a comma, or at either end. -/
def AtEdge (x y : Bytes) : Prop :=
  x = [] ∨ y = [] ∨ x.getLast? = some comma ∨ y.head? = some comma

namespace Cutter

variable {ok : Bytes → Prop} {cut : Bytes → List Bytes} (h : Cutter ok cut)
include h

theorem held_append_comma {x : Bytes} (hx : ok x) (y : Bytes) :
    held cut (x ++ Ascii.comma :: y) = held cut x ++ held cut y := by
  rw [held, h.append hx, h.comma, glue_cons_comma (h.ne_nil x), List.map_append, held, held]

theorem held_blanks_append {r : Bytes} (hr : Blanks r) (y : Bytes) :
    held cut (r ++ y) = held cut y := by
  rw [held, h.append (h.ok_blanks hr), h.blanks hr, map_trim_glue_left hr, held]

theorem held_append_blanks {x r : Bytes} (hx : ok x) (hr : Blanks r) :
    held cut (x ++ r) = held cut x := by
  rw [held, h.append hx, h.blanks hr, map_trim_glue_right hr (h.ne_nil x), held]

/-- White space at the edge of an element does not count. -/
theorem held_blanks_atEdge {x r y : Bytes} (hx : ok x) (hr : Blanks r) (he : AtEdge x y) :
    held cut (x ++ (r ++ y)) = held cut (x ++ y) := by
  obtain rfl | rfl | hlast | hhead := he
  · exact h.held_blanks_append hr y
  · rw [List.append_nil, List.append_nil, h.held_append_blanks hx hr]
  · obtain ⟨front, rfl⟩ := List.getLast?_eq_some_iff.1 hlast
    have hfront := h.ok_of_comma hx
    rw [List.append_assoc, List.append_assoc, List.singleton_append, List.singleton_append,
      h.held_append_comma hfront, h.held_append_comma hfront, h.held_blanks_append hr]
  · obtain ⟨back, rfl⟩ := List.head?_eq_some_iff.1 hhead
    rw [← List.append_assoc, h.held_append_comma (h.ok_append hx (h.ok_blanks hr)),
      h.held_append_blanks hx hr, h.held_append_comma hx]

/-- Several values hold together what they hold one by one. -/
theorem held_joined {values : List Bytes} (hn : values ≠ []) (hok : ∀ v ∈ values, ok v) :
    held cut (joined values) = values.flatMap (held cut) := by
  induction values with
  | nil => exact absurd rfl hn
  | cons v rest ih =>
    obtain ⟨hv, hrest⟩ := List.forall_mem_cons.1 hok
    rw [List.flatMap_cons]
    cases rest with
    | nil => rw [joined_singleton, List.flatMap_nil, List.append_nil]
    | cons w rest =>
      rw [joined_cons_cons, h.held_append_comma hv, h.held_blanks_append blanks_sp,
        ih (List.cons_ne_nil _ _) hrest]

end Cutter

/-- Outside quoted strings, lists are cut at their commas. -/
theorem cutter_pieces : Cutter Settled fun x => (pieces .outside x).1 where
  ne_nil x := pieces_ne_nil .outside x
  append {x} hx y := by
    have h := pieces_append .outside x y
    rwa [show Quote.outside.behind x = .outside from hx] at h
  comma y := by
    rw [pieces_cons, if_pos ⟨rfl, rfl⟩]
    rfl
  blanks hr := by rw [(uncut_blanks hr).pieces_eq]
  ok_append hx hy := hx.append_iff.2 hy
  ok_blanks hr := (uncut_blanks hr).behind
  ok_of_comma := settled_of_comma

theorem splitOnP_append (x y : Bytes) :
    (x ++ y).splitOnP (· == comma) =
      glue (x.splitOnP (· == comma)) (y.splitOnP (· == comma)) := by
  induction x with
  | nil => rw [List.splitOnP_nil, glue_nil_singleton, List.nil_append]
  | cons b x ih =>
    rw [List.cons_append, List.splitOnP_cons_eq_if_modifyHead, ih,
      List.splitOnP_cons_eq_if_modifyHead]
    split
    · rw [glue_cons_nil (List.splitOnP_ne_nil _ _) (List.splitOnP_ne_nil _ _)]
    · rw [glue_modifyHead (List.splitOnP_ne_nil _ _) (List.splitOnP_ne_nil _ _)]

/-- Other lists are cut at all commas. -/
theorem cutter_splitOnP : Cutter (fun _ => True) (List.splitOnP (· == comma)) where
  ne_nil x := List.splitOnP_ne_nil _ x
  append _ y := splitOnP_append _ y
  comma y := by rw [List.splitOnP_cons_eq_if_modifyHead, if_pos (by decide)]
  blanks hr := List.splitOnP_eq_singleton fun b hb => by
    have hblank := hr b hb
    refine beq_false_of_ne ?_
    rintro rfl
    exact absurd hblank (by decide)
  ok_append _ _ := trivial
  ok_blanks _ := trivial
  ok_of_comma _ := trivial

end Cutter

end FieldList

namespace TransferCoding

open FieldList

theorem codingList_iff {names : List Bytes} {value : Bytes} :
    CodingList names value ↔ List.Forall₂ Coding names (contents value) := by
  constructor
  · rintro ⟨items, hl, hc⟩
    have hs : ∀ item ∈ items, Solid item := fun item hi =>
      (isValid_iff.1 ((codings_iff.1 hc).1 item hi)).solid
    rwa [(hl.contents_eq hs).2]
  · intro hc
    exact ⟨_, listed_contents value, hc⟩

end TransferCoding

namespace ContentLength

open FieldList

theorem lengthList_iff {n : Nat} {value : Bytes} :
    LengthList n value ↔ ∀ item ∈ contents value, Denotes n item := by
  constructor
  · rintro ⟨items, hl, hd⟩
    rwa [(hl.contents_eq fun item hi => (hd item hi).solid).2]
  · intro hd
    exact ⟨_, listed_contents value, hd⟩

end ContentLength

end OriginServer.Http
