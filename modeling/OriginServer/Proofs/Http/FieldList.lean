import OriginServer.Http.FieldList
import OriginServer.Proofs.Except
import OriginServer.Proofs.Span

namespace OriginServer.Http.FieldList

open Ascii

/-- White space and folds. -/
def Blanks (b : Bytes) : Prop := ∀ x ∈ b, isFoldedBlank x = true

/-- The list consists of these elements, with white space around them and commas between them. -/
inductive Listed : List Bytes → Bytes → Prop
  | single {before item after : Bytes} (hb : Blanks before) (ha : Blanks after) :
    Listed [item] (before ++ item ++ after)
  | cons {before item after rest : Bytes} {items : List Bytes} (hb : Blanks before)
    (ha : Blanks after) (h : Listed items rest) :
    Listed (item :: items) (before ++ item ++ after ++ comma :: rest)

section Pieces

/-- Reading `item` leads from one state to another and meets no separator. -/
def Uncut (q : Quote) (item : Bytes) (q' : Quote) : Prop :=
  ∀ rest piece found last, pieces q' rest = (piece :: found, last) →
    pieces q (item ++ rest) = ((item ++ piece) :: found, last)

theorem uncut_nil (q : Quote) : Uncut q [] q := fun _ _ _ _ h => h

theorem Uncut.append {q q' q'' : Quote} {a b : Bytes} (ha : Uncut q a q') (hb : Uncut q' b q'') :
    Uncut q (a ++ b) q'' := by
  intro rest piece found last h
  rw [List.append_assoc, List.append_assoc]
  exact ha _ _ _ _ (hb _ _ _ _ h)

theorem uncut_byte {q : Quote} {b : UInt8} (h : ¬ (q = .outside ∧ b = comma)) :
    Uncut q [b] (q.step b) := by
  intro rest piece found last hr
  simp only [List.singleton_append, pieces, hr, if_neg h]

theorem Uncut.cons {q q' : Quote} {b : UInt8} {item : Bytes}
    (hb : ¬ (q = .outside ∧ b = comma)) (h : Uncut (q.step b) item q') : Uncut q (b :: item) q' :=
  (uncut_byte hb).append h

/-- Bytes that neither open a quoted string nor separate elements. -/
theorem uncut_plain {item : Bytes} (h : ∀ b ∈ item, b ≠ dquote ∧ b ≠ comma) :
    Uncut .outside item .outside := by
  induction item with
  | nil => exact uncut_nil _
  | cons b item ih =>
    obtain ⟨hq, hc⟩ := h b (List.mem_cons_self ..)
    refine .cons (fun hs => hc hs.2) ?_
    simp only [Quote.step, if_neg hq]
    exact ih fun x hx => h x (List.mem_cons_of_mem _ hx)

theorem uncut_blanks {b : Bytes} (h : Blanks b) : Uncut .outside b .outside :=
  uncut_plain fun x hx => by
    have hp := h x hx
    constructor <;> rintro rfl <;> exact absurd hp (by decide)

theorem Uncut.pieces_eq {item : Bytes} (h : Uncut .outside item .outside) :
    pieces .outside item = ([item], .outside) := by
  simpa using h [] [] [] .outside rfl

theorem Uncut.pieces_comma {item : Bytes} (h : Uncut .outside item .outside) (rest : Bytes) :
    pieces .outside (item ++ comma :: rest) =
      (item :: (pieces .outside rest).1, (pieces .outside rest).2) := by
  have hc : pieces .outside (comma :: rest) =
      ([] :: (pieces .outside rest).1, (pieces .outside rest).2) := by
    have ho : Quote.step .outside comma = .outside := by decide
    simp only [pieces, and_self, if_true, ho]
  simpa using h _ _ _ _ hc

theorem pieces_ne_nil (q : Quote) (input : Bytes) : (pieces q input).1 ≠ [] := by
  cases input with
  | nil => simp [pieces]
  | cons b rest =>
    simp only [pieces]
    split
    · simp
    · split <;> simp

/-- The pieces with commas between them are the input. -/
theorem pieces_sound {q last : Quote} {input piece : Bytes} {found : List Bytes}
    (h : pieces q input = (piece :: found, last)) :
    (found = [] ∧ input = piece) ∨
      (found ≠ [] ∧ ∃ rest, input = piece ++ comma :: rest ∧
        pieces .outside rest = (found, last)) := by
  induction input generalizing q piece found with
  | nil =>
    cases h
    exact .inl ⟨rfl, rfl⟩
  | cons b input ih =>
    obtain ⟨p, ps, hp⟩ := List.exists_cons_of_ne_nil (pieces_ne_nil (q.step b) input)
    have hs : pieces (q.step b) input = (p :: ps, (pieces (q.step b) input).2) :=
      Prod.ext hp rfl
    by_cases hc : q = .outside ∧ b = comma
    · obtain ⟨rfl, rfl⟩ := hc
      have ho : Quote.step .outside comma = .outside := by decide
      simp only [pieces, and_self, if_true, ho] at h
      cases h
      exact .inr ⟨pieces_ne_nil _ _, input, rfl, rfl⟩
    · simp only [pieces, if_neg hc] at h
      rw [hs] at h
      cases h
      obtain ⟨rfl, hi⟩ | ⟨hn, rest, hi, hr⟩ := ih hs
      · exact .inl ⟨rfl, by rw [hi]⟩
      · exact .inr ⟨hn, rest, by rw [hi]; rfl, hr⟩

end Pieces

section Quotes

/-- Where a reader stands behind these bytes. -/
def Quote.behind (q : Quote) (input : Bytes) : Quote := input.foldl Quote.step q

theorem Quote.behind_append (q : Quote) (a b : Bytes) :
    q.behind (a ++ b) = (q.behind a).behind b := List.foldl_append

/-- Every quoted string that is opened is closed. -/
def Settled (b : Bytes) : Prop := Quote.outside.behind b = .outside

theorem settled_nil : Settled [] := rfl

theorem Settled.append_iff {a b : Bytes} (ha : Settled a) : Settled (a ++ b) ↔ Settled b := by
  rw [Settled, Quote.behind_append, show Quote.outside.behind a = .outside from ha]
  rfl

theorem settled_of_plain {b : Bytes} (h : ∀ x ∈ b, x ≠ dquote) : Settled b := by
  induction b with
  | nil => rfl
  | cons x b ih =>
    obtain ⟨hx, hb⟩ := List.forall_mem_cons.1 h
    have hstep : Quote.outside.step x = .outside := if_neg hx
    exact (Settled.append_iff (a := [x]) hstep).2 (ih hb)

theorem pieces_snd (q : Quote) (input : Bytes) : (pieces q input).2 = q.behind input := by
  induction input generalizing q with
  | nil => rfl
  | cons b input ih =>
    have hb : q.behind (b :: input) = (q.step b).behind input := rfl
    rw [hb, ← ih]
    simp only [pieces]
    split
    · rfl
    · split <;> rfl

theorem Uncut.behind {q q' : Quote} {item : Bytes} (h : Uncut q item q') : q.behind item = q' := by
  have hp := h [] [] [] q' rfl
  rw [List.append_nil] at hp
  rw [← pieces_snd, hp]

end Quotes

section Element

/-- An element that white space around it and the splitter leave as it is. -/
structure Solid (item : Bytes) : Prop where
  ne_nil : item ≠ []
  head : ∀ b ∈ item.head?, isFoldedBlank b = false
  last : ∀ b ∈ item.getLast?, isFoldedBlank b = false
  uncut : Uncut .outside item .outside

theorem dropWhile_blanks {before rest : Bytes} (hb : Blanks before)
    (hr : ∀ b ∈ rest.head?, isFoldedBlank b = false) :
    (before ++ rest).dropWhile isFoldedBlank = rest := by
  rw [List.dropWhile_append_of_pos hb]
  cases rest with
  | nil => rfl
  | cons b rest => rw [List.dropWhile_cons_of_neg (by simp [hr b rfl])]

theorem trim_eq {before item after : Bytes} (hb : Blanks before) (ha : Blanks after)
    (hh : ∀ b ∈ item.head?, isFoldedBlank b = false)
    (hl : ∀ b ∈ item.getLast?, isFoldedBlank b = false) :
    (before ++ (item ++ after)).trim isFoldedBlank = item := by
  by_cases hn : item = []
  · subst hn
    have hall : Blanks (before ++ ([] ++ after)) := List.forall_mem_append.2 ⟨hb, ha⟩
    have hd := @dropWhile_blanks _ [] hall nofun
    rw [List.append_nil] at hd
    rw [Bytes.trim, hd]
    rfl
  · have hr : Blanks after.reverse := fun x hx => ha x (List.mem_reverse.1 hx)
    have hhead : ∀ b ∈ (item ++ after).head?, isFoldedBlank b = false := by
      obtain ⟨b, rest, rfl⟩ := List.exists_cons_of_ne_nil hn
      exact hh
    have hlast : ∀ b ∈ item.reverse.head?, isFoldedBlank b = false := by
      rw [List.head?_reverse]
      exact hl
    rw [Bytes.trim, dropWhile_blanks hb hhead, List.reverse_append, dropWhile_blanks hr hlast,
      List.reverse_reverse]

theorem Solid.trim {before item after : Bytes} (hs : Solid item) (hb : Blanks before)
    (ha : Blanks after) : (before ++ (item ++ after)).trim isFoldedBlank = item :=
  trim_eq hb ha hs.head hs.last

theorem blanks_takeWhile (b : Bytes) : Blanks (b.takeWhile isFoldedBlank) :=
  List.all_eq_true.1 List.all_takeWhile

/-- A piece is its element with white space around it. -/
theorem trim_sound (piece : Bytes) :
    ∃ after, Blanks after ∧
      piece = piece.takeWhile isFoldedBlank ++ piece.trim isFoldedBlank ++ after := by
  refine ⟨((piece.dropWhile isFoldedBlank).reverse.takeWhile isFoldedBlank).reverse,
    fun x hx => blanks_takeWhile _ x (List.mem_reverse.1 hx), ?_⟩
  rw [Bytes.trim, List.append_assoc, ← List.reverse_append, List.takeWhile_append_dropWhile,
    List.reverse_reverse, List.takeWhile_append_dropWhile]

theorem element_eq_ok {start : Nat} {piece : Bytes} {span : Span} :
    element start piece = .ok span ↔ piece.trim isFoldedBlank ≠ [] ∧
      span = ⟨start + (piece.takeWhile isFoldedBlank).length,
        (piece.trim isFoldedBlank).length⟩ := by
  simp only [element, List.isEmpty_iff]
  split
  · rename_i hn
    simp [hn]
  · rename_i hn
    simp [hn, eq_comm]

theorem of_element (front piece behind : Bytes) :
    Span.of ⟨front.length + (piece.takeWhile isFoldedBlank).length,
      (piece.trim isFoldedBlank).length⟩ (front ++ (piece ++ behind)) =
        piece.trim isFoldedBlank := by
  obtain ⟨after, -, hp⟩ := trim_sound piece
  have hi : front ++ (piece ++ behind) = front ++ piece.takeWhile isFoldedBlank ++
      (piece.trim isFoldedBlank ++ (after ++ behind)) := by
    conv_lhs => rw [hp]
    simp
  rw [hi]
  exact Span.of_middle (by simp) rfl _

end Element

section Split

theorem elements_single {last : Quote} {start : Nat} {piece : Bytes} {spans : List Span} :
    elements last start [piece] = .ok spans ↔
      last = .outside ∧ ∃ span, element start piece = .ok span ∧ spans = [span] := by
  simp only [elements]
  by_cases h : last = .outside
  · subst h
    simp only [if_true, bind_eq_ok, pure_eq_ok, true_and, eq_comm (b := spans)]
  · simp only [h, false_and, iff_false]
    intro he
    cases he

theorem elements_cons {last : Quote} {start : Nat} {piece : Bytes} {found : List Bytes}
    {spans : List Span} (hn : found ≠ []) :
    elements last start (piece :: found) = .ok spans ↔
      ∃ span others, element start piece = .ok span ∧
        elements last (start + piece.length + 1) found = .ok others ∧ spans = span :: others := by
  obtain ⟨p, ps, rfl⟩ := List.exists_cons_of_ne_nil hn
  simp only [elements, bind_eq_ok, pure_eq_ok, eq_comm (b := spans), exists_and_left]

/-- The elements of a list: its pieces without the white space around them. -/
def contents (value : Bytes) : List Bytes :=
  (pieces .outside value).1.map (·.trim isFoldedBlank)

theorem elements_iff {found : List Bytes} {last : Quote} {value : Bytes} {items : List Bytes}
    (front : Bytes) (hp : pieces .outside value = (found, last)) :
    (∃ spans, elements last front.length found = .ok spans ∧
      spans.map (·.of (front ++ value)) = items) ↔
        last = .outside ∧ items = found.map (·.trim isFoldedBlank) ∧
          ∀ item ∈ items, item ≠ [] := by
  induction found generalizing value front items with
  | nil => exact absurd (by rw [hp]) (pieces_ne_nil .outside value)
  | cons piece found ih =>
    obtain ⟨rfl, rfl⟩ | ⟨hn, rest, rfl, hr⟩ := pieces_sound hp
    · have hof := of_element front value []
      rw [List.append_nil] at hof
      simp only [elements_single, element_eq_ok, List.map_singleton]
      constructor
      · rintro ⟨_, ⟨hl, _, ⟨hne, rfl⟩, rfl⟩, rfl⟩
        rw [List.map_singleton, hof]
        exact ⟨hl, rfl, List.forall_mem_singleton.2 hne⟩
      · rintro ⟨hl, rfl, hne⟩
        refine ⟨_, ⟨hl, _, ⟨hne _ (List.mem_singleton_self _), rfl⟩, rfl⟩, ?_⟩
        rw [List.map_singleton, hof]
    · have hof := of_element front piece (comma :: rest)
      have hf : front.length + piece.length + 1 = (front ++ piece ++ [comma]).length := by
        simp [Nat.add_assoc]
      have hw : front ++ (piece ++ comma :: rest) = front ++ piece ++ [comma] ++ rest := by simp
      have hrest := fun items => @ih rest items (front ++ piece ++ [comma]) hr
      rw [← hf, ← hw] at hrest
      simp only [elements_cons hn, element_eq_ok, List.map_cons]
      constructor
      · rintro ⟨_, ⟨_, others, ⟨hne, rfl⟩, ho, rfl⟩, rfl⟩
        obtain ⟨hl, hi, hall⟩ := (hrest _).1 ⟨others, ho, rfl⟩
        rw [List.map_cons, hof]
        exact ⟨hl, by rw [hi], List.forall_mem_cons.2 ⟨hne, hall⟩⟩
      · rintro ⟨hl, rfl, hall⟩
        obtain ⟨hne, hall⟩ := List.forall_mem_cons.1 hall
        obtain ⟨others, ho, hi⟩ := (hrest _).2 ⟨hl, rfl, hall⟩
        refine ⟨_, ⟨_, others, ⟨hne, rfl⟩, ho, rfl⟩, ?_⟩
        rw [List.map_cons, hof, hi]

/-- A list can be split exactly when its quoted strings are closed and no element is empty. -/
theorem split_iff {value : Bytes} {items : List Bytes} :
    (∃ spans, split value = .ok spans ∧ spans.map (·.of value) = items) ↔
      Settled value ∧ items = contents value ∧ ∀ item ∈ items, item ≠ [] := by
  have hp : pieces .outside value = ((pieces .outside value).1, Quote.outside.behind value) :=
    Prod.ext rfl (pieces_snd _ _)
  rw [split, hp]
  exact elements_iff [] hp

theorem Listed.contents_eq {items : List Bytes} {value : Bytes} (h : Listed items value)
    (hs : ∀ item ∈ items, Solid item) : Settled value ∧ contents value = items := by
  simp only [Settled, contents, ← pieces_snd]
  induction h with
  | single hb ha =>
    have hi := hs _ (List.mem_singleton_self _)
    have hu := ((uncut_blanks hb).append hi.uncut).append (uncut_blanks ha)
    rw [hu.pieces_eq, List.map_singleton, List.append_assoc, hi.trim hb ha]
    exact ⟨rfl, rfl⟩
  | cons hb ha _ ih =>
    obtain ⟨hi, hrest⟩ := List.forall_mem_cons.1 hs
    have hu := ((uncut_blanks hb).append hi.uncut).append (uncut_blanks ha)
    obtain ⟨hl, hc⟩ := ih hrest
    rw [hu.pieces_comma, List.map_cons, List.append_assoc, hi.trim hb ha, hc]
    exact ⟨hl, rfl⟩

/-- Every value is a list of its elements, some of which may be empty. -/
theorem listed_contents (value : Bytes) : Listed (contents value) value := by
  rw [contents]
  generalize hf : (pieces .outside value).1 = found
  induction found generalizing value with
  | nil => exact absurd hf (pieces_ne_nil .outside value)
  | cons piece found ih =>
    obtain ⟨after, ha, hp⟩ := trim_sound piece
    obtain ⟨rfl, rfl⟩ | ⟨-, rest, rfl, hr⟩ := pieces_sound (Prod.ext hf rfl)
    · have hl : Listed [value.trim isFoldedBlank] (value.takeWhile isFoldedBlank ++
          value.trim isFoldedBlank ++ after) := .single (blanks_takeWhile value) ha
      rwa [← hp] at hl
    · have hl : Listed (piece.trim isFoldedBlank :: found.map (·.trim isFoldedBlank))
          (piece.takeWhile isFoldedBlank ++ piece.trim isFoldedBlank ++ after ++ comma :: rest) :=
        .cons (blanks_takeWhile piece) ha (ih rest (congrArg Prod.fst hr))
      rwa [← hp] at hl

/-- Splitting a list gives the elements that it was put together from. -/
theorem split_complete {items : List Bytes} {value : Bytes} (h : Listed items value)
    (hs : ∀ item ∈ items, Solid item) :
    ∃ spans, split value = .ok spans ∧ spans.map (·.of value) = items := by
  obtain ⟨hset, hc⟩ := h.contents_eq hs
  exact split_iff.2 ⟨hset, hc.symm, fun item hi => (hs item hi).ne_nil⟩

/-- A value that can be split is a list of what was found. -/
theorem split_sound {value : Bytes} {spans : List Span} (h : split value = .ok spans) :
    Listed (spans.map (·.of value)) value := by
  obtain ⟨-, hc, -⟩ := split_iff.1 ⟨spans, h, rfl⟩
  rw [hc]
  exact listed_contents value

theorem Listed.ne_nil {items : List Bytes} {value : Bytes} (h : Listed items value) :
    items ≠ [] := by
  cases h <;> simp

/-- White space, commas and the bytes of the elements are all there is in a list. -/
theorem Listed.forall_mem {P : UInt8 → Prop} {items : List Bytes} {value : Bytes}
    (h : Listed items value) (hblank : ∀ b, isFoldedBlank b = true → P b) (hcomma : P comma)
    (hi : ∀ item ∈ items, ∀ b ∈ item, P b) : ∀ b ∈ value, P b := by
  induction h with
  | single hb ha =>
    simp only [List.forall_mem_append]
    exact ⟨⟨fun b hm => hblank b (hb b hm), hi _ (List.mem_singleton_self _)⟩,
      fun b hm => hblank b (ha b hm)⟩
  | cons hb ha _ ih =>
    obtain ⟨hitem, hitems⟩ := List.forall_mem_cons.1 hi
    simp only [List.forall_mem_append, List.forall_mem_cons]
    exact ⟨⟨⟨fun b hm => hblank b (hb b hm), hitem⟩, fun b hm => hblank b (ha b hm)⟩, hcomma,
      ih hitems⟩

end Split

end OriginServer.Http.FieldList
