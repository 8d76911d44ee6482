import OriginServer.Proofs.Http.ListElements

namespace OriginServer.Http.FieldList

open Ascii

section Regions

/-- What stands between the two quotes of a region. A backslash takes the next byte with it. -/
inductive Enclosed : Bytes → Prop
  | nil : Enclosed []
  | byte {b : UInt8} {body : Bytes} (hq : b ≠ dquote) (hs : b ≠ backslash) (h : Enclosed body) :
    Enclosed (b :: body)
  | escape (x : UInt8) {body : Bytes} (h : Enclosed body) : Enclosed (backslash :: x :: body)

/-- Bytes outside quoted regions, with whole regions between them. -/
inductive Balanced : Bytes → Prop
  | nil : Balanced []
  | byte {b : UInt8} {rest : Bytes} (hb : b ≠ dquote) (h : Balanced rest) : Balanced (b :: rest)
  | region {body rest : Bytes} (hb : Enclosed body) (h : Balanced rest) :
    Balanced (dquote :: (body ++ dquote :: rest))

theorem Enclosed.behind {body : Bytes} (h : Enclosed body) :
    Quote.inside.behind body = .inside := by
  induction h with
  | nil => rfl
  | @byte b body hq hs _ ih =>
    have hstep : Quote.inside.step b = .inside := by simp only [Quote.step, if_neg hs, if_neg hq]
    rwa [Quote.behind, List.foldl_cons, hstep]
  | escape x _ ih => exact ih

theorem Balanced.settled {b : Bytes} (h : Balanced b) : Settled b := by
  induction h with
  | nil => exact settled_nil
  | @byte b rest hb _ ih =>
    have hstep : Settled [b] := if_neg hb
    exact (Settled.append_iff hstep).2 ih
  | @region body rest hb _ ih =>
    rw [← List.singleton_append, Settled, Quote.behind_append, Quote.behind_append,
      show Quote.outside.behind [dquote] = .inside from rfl, hb.behind]
    exact ih

/-- A reader that ends outside quoted regions has closed the one it began in. -/
theorem balanced_of_behind (b : Bytes) :
    (Quote.outside.behind b = .outside → Balanced b) ∧
    (Quote.inside.behind b = .outside →
      ∃ body rest, Enclosed body ∧ Balanced rest ∧ b = body ++ dquote :: rest) ∧
    (Quote.escaped.behind b = .outside →
      ∃ x body rest, Enclosed body ∧ Balanced rest ∧ b = x :: (body ++ dquote :: rest)) := by
  induction b with
  | nil => exact ⟨fun _ => .nil, nofun, nofun⟩
  | cons b rest ih =>
    obtain ⟨outside, inside, escaped⟩ := ih
    refine ⟨fun h => ?_, fun h => ?_, fun h => ?_⟩ <;>
      rw [Quote.behind, List.foldl_cons] at h <;> simp only [Quote.step] at h
    · split at h
      · rename_i hq
        obtain ⟨body, behind, hb, hr, rfl⟩ := inside h
        exact hq ▸ .region hb hr
      · exact .byte ‹_› (outside h)
    · split at h
      · rename_i hs
        obtain ⟨x, body, behind, hb, hr, rfl⟩ := escaped h
        exact ⟨backslash :: x :: body, behind, .escape x hb, hr, by rw [hs]; rfl⟩
      · split at h
        · rename_i hq
          exact ⟨[], rest, .nil, outside h, by rw [hq]; rfl⟩
        · rename_i hs hq
          obtain ⟨body, behind, hb, hr, rfl⟩ := inside h
          exact ⟨b :: body, behind, .byte hq hs hb, hr, rfl⟩
    · obtain ⟨body, behind, hb, hr, rfl⟩ := inside h
      exact ⟨b, body, behind, hb, hr, rfl⟩

theorem balanced_iff {b : Bytes} : Balanced b ↔ Settled b :=
  ⟨Balanced.settled, (balanced_of_behind b).1⟩

instance : DecidablePred Balanced := fun b =>
  decidable_of_iff (Quote.outside.behind b = .outside) balanced_iff.symm

end Regions

section Commas

/-- A comma stands at this index, outside every quoted region. -/
def UnquotedComma (input : Bytes) (i : Nat) : Prop :=
  input[i]? = some comma ∧ Balanced (input.take i)

instance (input : Bytes) (i : Nat) : Decidable (UnquotedComma input i) :=
  inferInstanceAs (Decidable (_ ∧ _))

/-- The indices of the unquoted commas, in order. -/
def commas (input : Bytes) : List Nat :=
  (List.range input.length).filter fun i => UnquotedComma input i

/-- What lies between two places and the cuts between them. -/
def stretches (start stop : Nat) : List Nat → List Span
  | [] => [⟨start, stop - start⟩]
  | cut :: cuts => ⟨start, cut - start⟩ :: stretches (cut + 1) stop cuts

/-- The stretches between unquoted commas, and between them and the two ends. -/
def between (input : Bytes) : List Span := stretches 0 input.length (commas input)

/-- No comma in the item is met by a reader that is outside quoted regions. -/
def Commaless (q : Quote) (item : Bytes) : Prop :=
  ∀ i, item[i]? = some comma → q.behind (item.take i) ≠ .outside

theorem Commaless.uncut {q : Quote} {item : Bytes} (h : Commaless q item) :
    Uncut q item (q.behind item) := by
  induction item generalizing q with
  | nil => exact uncut_nil q
  | cons b item ih =>
    refine .cons ?_ (ih fun i hi => h (i + 1) hi)
    rintro ⟨rfl, rfl⟩
    exact h 0 rfl rfl

/-- The first piece has no comma outside quoted regions, and another piece begins behind it only
where its regions are closed. -/
theorem first_of_pieces {q : Quote} {input piece : Bytes} {found : List Bytes}
    (h : (pieces q input).1 = piece :: found) :
    Commaless q piece ∧ (found ≠ [] → q.behind piece = .outside) := by
  induction input generalizing q piece found with
  | nil =>
    cases h
    exact ⟨fun i hi => (nomatch hi), fun hn => absurd rfl hn⟩
  | cons b input ih =>
    obtain ⟨p, ps, hp⟩ := List.exists_cons_of_ne_nil (pieces_ne_nil (q.step b) input)
    obtain ⟨hcommas, hsettled⟩ := ih hp
    rw [pieces_cons, hp] at h
    split at h
    · rename_i hb
      cases h
      exact ⟨fun i hi => (nomatch hi), fun _ => hb.1⟩
    · rename_i hb
      cases h
      refine ⟨fun i hi => ?_, hsettled⟩
      cases i with
      | zero => exact fun hq => hb ⟨hq, Option.some.inj hi⟩
      | succ i => exact hcommas i hi

theorem not_unquotedComma {item : Bytes} (h : Commaless .outside item) (i : Nat) :
    ¬ UnquotedComma item i :=
  fun hu => h i hu.1 hu.2.settled

theorem commas_eq_nil {item : Bytes} (h : Commaless .outside item) : commas item = [] :=
  List.filter_eq_nil_iff.2 fun i _ => by simpa using not_unquotedComma h i

/-- The commas of a list: the one behind its first piece, and those of the rest. -/
theorem commas_append {piece : Bytes} (hc : Commaless .outside piece) (hs : Settled piece)
    (rest : Bytes) :
    commas (piece ++ comma :: rest) =
      piece.length :: (commas rest).map (piece.length + 1 + ·) := by
  have hfront {i : Nat} (hi : i < piece.length) :
      UnquotedComma (piece ++ comma :: rest) i ↔ UnquotedComma piece i := by
    rw [UnquotedComma, UnquotedComma, List.getElem?_append_left hi,
      List.take_append_of_le_length (Nat.le_of_lt hi)]
  have hcut : UnquotedComma (piece ++ comma :: rest) piece.length :=
    ⟨by simp, by rw [List.take_left]; exact balanced_iff.2 hs⟩
  have hback (i : Nat) :
      UnquotedComma (piece ++ comma :: rest) (piece.length + 1 + i) ↔ UnquotedComma rest i := by
    have hsc : Settled (piece ++ [comma]) := (hs.append_iff).2 rfl
    have hl : piece ++ comma :: rest = (piece ++ [comma]) ++ rest := by simp
    have hn : piece.length + 1 = (piece ++ [comma]).length := by simp
    rw [UnquotedComma, UnquotedComma, hl, hn, List.getElem?_append_right (Nat.le_add_right _ _),
      Nat.add_sub_cancel_left, List.take_length_add_append, balanced_iff, balanced_iff,
      hsc.append_iff]
  have hlen : (piece ++ comma :: rest).length = piece.length + (1 + rest.length) := by
    simp [Nat.add_comm]
  have hnone : (List.range piece.length).filter
      (fun i => decide (UnquotedComma (piece ++ comma :: rest) i)) = [] := by
    refine List.filter_eq_nil_iff.2 fun i hi => ?_
    rw [decide_eq_true_iff, hfront (List.mem_range.1 hi)]
    exact not_unquotedComma hc i
  rw [commas, hlen, List.range_add, List.filter_append, hnone, List.range_add, List.map_append,
    List.filter_append, List.range_one, List.map_singleton, Nat.add_zero,
    List.filter_singleton, decide_eq_true hcut, List.map_map, List.filter_map, commas]
  simp only [Function.comp_def, ← Nat.add_assoc, hback, List.nil_append, cond_true,
    List.singleton_append]

/-- The places of pieces that begin at `start`, with one byte behind each. -/
def places (start : Nat) : List Bytes → List Span
  | [] => []
  | piece :: found => ⟨start, piece.length⟩ :: places (start + piece.length + 1) found

/-- The pieces of a list lie between its unquoted commas. -/
theorem stretches_eq_places (input : Bytes) (start : Nat) :
    stretches start (start + input.length) ((commas input).map (start + ·)) =
      places start (pieces .outside input).1 := by
  generalize hf : (pieces .outside input).1 = found
  induction found generalizing input start with
  | nil => exact absurd hf (pieces_ne_nil .outside input)
  | cons piece found ih =>
    obtain ⟨hc, hs⟩ := first_of_pieces hf
    obtain ⟨rfl, rfl⟩ | ⟨hn, rest, rfl, hr⟩ := pieces_sound (Prod.ext hf rfl)
    · rw [commas_eq_nil hc, List.map_nil, stretches, Nat.add_sub_cancel_left]
      rfl
    · have hstop : start + (piece ++ comma :: rest).length =
          start + piece.length + 1 + rest.length := by
        simp only [List.length_append, List.length_cons]
        omega
      have hshift : (start + ·) ∘ (piece.length + 1 + ·) = (start + piece.length + 1 + ·) := by
        funext i
        simp only [Function.comp_apply]
        omega
      rw [commas_append hc (hs hn), List.map_cons, List.map_map, hshift, stretches, hstop,
        ih rest _ (congrArg Prod.fst hr), Nat.add_sub_cancel_left, places]

theorem between_eq_places (input : Bytes) :
    between input = places 0 (pieces .outside input).1 := by
  have h := stretches_eq_places input 0
  simp only [Nat.zero_add, List.map_id'] at h
  exact h

theorem of_places (input front : Bytes) :
    (places front.length (pieces .outside input).1).map (·.of (front ++ input)) =
      (pieces .outside input).1 := by
  generalize hf : (pieces .outside input).1 = found
  induction found generalizing input front with
  | nil => rfl
  | cons piece found ih =>
    obtain ⟨rfl, rfl⟩ | ⟨hn, rest, rfl, hr⟩ := pieces_sound (Prod.ext hf rfl)
    · have hof := Span.of_middle (s := ⟨front.length, input.length⟩) rfl rfl []
      rw [List.append_nil] at hof
      rw [places, places, List.map_singleton, hof]
    · have hw : front ++ (piece ++ comma :: rest) = front ++ piece ++ [comma] ++ rest := by simp
      have hl : front.length + piece.length + 1 = (front ++ piece ++ [comma]).length := by
        simp [Nat.add_assoc]
      have hrest := ih rest (front ++ piece ++ [comma]) (congrArg Prod.fst hr)
      rw [places, List.map_cons, Span.of_middle rfl rfl, hl, hw, hrest]

theorem apart_places (input : Bytes) (start : Nat) :
    Span.Apart start (start + input.length + 1) (places start (pieces .outside input).1) := by
  generalize hf : (pieces .outside input).1 = found
  induction found generalizing input start with
  | nil => exact absurd hf (pieces_ne_nil .outside input)
  | cons piece found ih =>
    obtain ⟨rfl, rfl⟩ | ⟨hn, rest, rfl, hr⟩ := pieces_sound (Prod.ext hf rfl)
    · exact ⟨Nat.le_refl _, Nat.le_refl _⟩
    · have hrest := ih rest (start + piece.length + 1) (congrArg Prod.fst hr)
      have hstop : start + (piece ++ comma :: rest).length + 1 =
          start + piece.length + 1 + rest.length + 1 := by
        simp only [List.length_append, List.length_cons]
        omega
      exact ⟨Nat.le_refl _, hstop ▸ hrest⟩

end Commas

section Items

/-- The item is the piece without the white space around it. -/
structure Strips (input : Bytes) (piece item : Span) : Prop where
  within : item.Within piece.start piece.stop
  before : Blanks (input.slice piece.start (item.start - piece.start))
  after : Blanks (input.slice item.stop (piece.stop - item.stop))
  head : ∃ b ∈ (item.of input).head?, isFoldedBlank b = false
  last : ∃ b ∈ (item.of input).getLast?, isFoldedBlank b = false

theorem strips_middle {before item after : Bytes} (hb : Blanks before) (ha : Blanks after)
    (hn : item ≠ []) (hh : ∀ b ∈ item.head?, isFoldedBlank b = false)
    (hl : ∀ b ∈ item.getLast?, isFoldedBlank b = false) (front behind : Bytes) :
    Strips (front ++ (before ++ item ++ after ++ behind))
      ⟨front.length, (before ++ item ++ after).length⟩
      ⟨front.length + before.length, item.length⟩ := by
  have hlen : (before ++ item ++ after).length = before.length + item.length + after.length := by
    simp only [List.length_append]
  have hbefore : (front ++ (before ++ item ++ after ++ behind)).slice front.length before.length =
      before := by
    simp only [List.append_assoc]
    exact Span.of_middle (s := ⟨_, _⟩) rfl rfl _
  have hitem : Span.of ⟨front.length + before.length, item.length⟩
      (front ++ (before ++ item ++ after ++ behind)) = item := by
    have hw : front ++ (before ++ item ++ after ++ behind) =
        front ++ before ++ (item ++ (after ++ behind)) := by
      simp only [List.append_assoc]
    rw [hw]
    exact Span.of_middle (by simp) rfl _
  have hafter : (front ++ (before ++ item ++ after ++ behind)).slice
      (front.length + before.length + item.length) after.length = after := by
    have hw : front ++ (before ++ item ++ after ++ behind) =
        front ++ before ++ item ++ (after ++ behind) := by
      simp only [List.append_assoc]
    rw [hw]
    exact Span.of_middle (s := ⟨_, _⟩) (by simp [Nat.add_assoc]) rfl _
  constructor
  · simp only [Span.Within, Span.stop]
    omega
  · simp only [Nat.add_sub_cancel_left]
    rwa [hbefore]
  · have hw : front.length + (before.length + item.length + after.length) -
        (front.length + before.length + item.length) = after.length := by
      omega
    simp only [Span.stop, hlen, hw]
    rwa [hafter]
  · obtain ⟨b, rest, rfl⟩ := List.exists_cons_of_ne_nil hn
    rw [hitem]
    exact ⟨b, rfl, hh b rfl⟩
  · have hlast := List.getLast?_eq_some_getLast hn
    rw [hitem]
    exact ⟨_, hlast, hl _ hlast⟩

theorem strips_of_element {front piece : Bytes} {item : Span}
    (h : element front.length piece = .ok item) (behind : Bytes) :
    Strips (front ++ (piece ++ behind)) ⟨front.length, piece.length⟩ item := by
  obtain ⟨hn, rfl⟩ := element_eq_ok.1 h
  obtain ⟨after, ha, hp⟩ := trim_sound piece
  obtain ⟨hhead, hlast⟩ := trim_ends piece
  have hs := strips_middle (blanks_takeWhile piece) ha hn hhead hlast front behind
  rwa [← hp] at hs

/-- The elements that are found are the pieces without the white space around them. -/
theorem strips_of_elements {last : Quote} {input : Bytes} {items : List Span} (front : Bytes)
    (h : elements last front.length (pieces .outside input).1 = .ok items) :
    List.Forall₂ (Strips (front ++ input)) (places front.length (pieces .outside input).1)
      items := by
  generalize hf : (pieces .outside input).1 = found at h
  induction found generalizing input front items with
  | nil => exact absurd hf (pieces_ne_nil .outside input)
  | cons piece found ih =>
    obtain ⟨rfl, rfl⟩ | ⟨hn, rest, rfl, hr⟩ := pieces_sound (Prod.ext hf rfl)
    · obtain ⟨-, item, hi, rfl⟩ := elements_single.1 h
      have hs := strips_of_element hi []
      rw [List.append_nil] at hs
      exact .cons hs .nil
    · obtain ⟨item, others, hi, ho, rfl⟩ := (elements_cons hn).1 h
      have hw : front ++ (piece ++ comma :: rest) = front ++ piece ++ [comma] ++ rest := by simp
      have hl : front.length + piece.length + 1 = (front ++ piece ++ [comma]).length := by
        simp [Nat.add_assoc]
      rw [hl] at ho
      have hrest := ih (front ++ piece ++ [comma]) (congrArg Prod.fst hr) ho
      refine .cons (strips_of_element hi _) ?_
      rwa [hw, hl]

/-- Parts of spans that lie apart lie apart. -/
theorem apart_of_within {first last : Nat} {spans parts : List Span}
    (h : List.Forall₂ (fun s part => Span.Within part s.start s.stop) spans parts)
    (ha : Span.Apart first last spans) : Span.Apart first last parts := by
  induction h generalizing first with
  | nil => exact ha
  | cons hpart _ ih =>
    obtain ⟨hfirst, hrest⟩ := ha
    refine ⟨Nat.le_trans hfirst hpart.1, (ih hrest).mono_left ?_⟩
    exact Nat.succ_le_succ hpart.2

theorem trim_ne_nil {piece : Bytes} :
    piece.trim isFoldedBlank ≠ [] ↔ ∃ b ∈ piece, isFoldedBlank b = false := by
  obtain ⟨after, ha, hp⟩ := trim_sound piece
  constructor
  · intro hn
    obtain ⟨b, rest, hb⟩ := List.exists_cons_of_ne_nil hn
    refine ⟨b, ?_, (trim_ends piece).1 b (by rw [hb]; rfl)⟩
    rw [hp, hb]
    simp
  · rintro ⟨b, hb, hsolid⟩ hn
    rw [hn, List.append_nil] at hp
    have hall : Blanks piece := hp ▸ List.forall_mem_append.2 ⟨blanks_takeWhile piece, ha⟩
    exact absurd (hall b hb) (by simp [hsolid])

end Items

section Again

theorem behind_blanks {r : Bytes} (hr : Blanks r) {q : Quote} (hq : q ≠ .outside) :
    q.behind r ≠ .outside := by
  induction r generalizing q with
  | nil => exact hq
  | cons b r ih =>
    obtain ⟨hb, hr⟩ := List.forall_mem_cons.1 hr
    refine ih hr ?_
    have hd : b ≠ dquote := by
      rintro rfl
      exact absurd hb (by decide)
    cases q with
    | outside => exact absurd rfl hq
    | inside =>
      simp only [Quote.step, if_neg hd]
      split
      · exact Quote.noConfusion
      · exact Quote.noConfusion
    | escaped => exact Quote.noConfusion

/-- A piece without the white space around it is an element that the splitter leaves as it is. -/
theorem solid_trim {piece : Bytes} (hc : Commaless .outside piece) (hs : Settled piece)
    (hn : piece.trim isFoldedBlank ≠ []) : Solid (piece.trim isFoldedBlank) := by
  obtain ⟨after, ha, hp⟩ := trim_sound piece
  obtain ⟨hhead, hlast⟩ := trim_ends piece
  have hb : Settled (piece.takeWhile isFoldedBlank) :=
    (uncut_blanks (blanks_takeWhile piece)).behind
  have hcut : Commaless .outside (piece.trim isFoldedBlank) := by
    intro i hi
    have hle : i ≤ (piece.trim isFoldedBlank).length :=
      Nat.le_of_lt (List.getElem?_eq_some_iff.1 hi).1
    have hq := hc ((piece.takeWhile isFoldedBlank).length + i)
    rw [congrArg (·[(piece.takeWhile isFoldedBlank).length + i]?) hp,
      congrArg (List.take ((piece.takeWhile isFoldedBlank).length + i)) hp] at hq
    rw [List.append_assoc, List.getElem?_append_right (Nat.le_add_right _ _),
      Nat.add_sub_cancel_left, List.take_length_add_append,
      List.getElem?_append_left (List.getElem?_eq_some_iff.1 hi).1,
      List.take_append_of_le_length hle, Quote.behind_append,
      show Quote.outside.behind (piece.takeWhile isFoldedBlank) = .outside from hb] at hq
    exact hq hi
  have hsettled : Settled (piece.trim isFoldedBlank) := by
    by_contra hq
    rw [hp, List.append_assoc, hb.append_iff, Settled, Quote.behind_append] at hs
    exact behind_blanks ha hq hs
  refine ⟨hn, hhead, hlast, ?_⟩
  have hu := hcut.uncut
  rwa [show Quote.outside.behind (piece.trim isFoldedBlank) = .outside from hsettled] at hu

theorem settled_pieces {input : Bytes} (hs : Settled input) :
    ∀ piece ∈ (pieces .outside input).1, Commaless .outside piece ∧ Settled piece := by
  generalize hf : (pieces .outside input).1 = found
  induction found generalizing input with
  | nil => exact List.forall_mem_nil _
  | cons piece found ih =>
    obtain ⟨hc, hbehind⟩ := first_of_pieces hf
    obtain ⟨rfl, rfl⟩ | ⟨hn, rest, rfl, hr⟩ := pieces_sound (Prod.ext hf rfl)
    · exact List.forall_mem_singleton.2 ⟨hc, hs⟩
    · have hp : Settled piece := hbehind hn
      have hrest : Settled rest := (Settled.append_iff (a := [comma]) rfl).1 (hp.append_iff.1 hs)
      exact List.forall_mem_cons.2 ⟨⟨hc, hp⟩, ih hrest (congrArg Prod.fst hr)⟩

/-- Items that were found are elements that the splitter leaves as they are. -/
theorem solid_of_split {input : Bytes} {items : List Span} (h : split input = .ok items) :
    ∀ item ∈ items.map (·.of input), Solid item := by
  obtain ⟨hsettled, hitems, hn⟩ := split_iff.1 ⟨items, h, rfl⟩
  rw [hitems, contents] at hn ⊢
  intro item hi
  have hne := hn item hi
  obtain ⟨piece, hpiece, rfl⟩ := List.mem_map.1 hi
  obtain ⟨hc, hs⟩ := settled_pieces hsettled piece hpiece
  exact solid_trim hc hs hne

end Again

section Separators

variable {input : Bytes} {items : List Span}

theorem between_of (input : Bytes) :
    (between input).map (·.of input) = (pieces .outside input).1 := by
  rw [between_eq_places]
  exact of_places input []

theorem split_succeeds_iff :
    (∃ items, split input = .ok items) ↔
      Balanced input ∧ ∀ piece ∈ between input, ∃ b ∈ piece.of input, isFoldedBlank b = false := by
  have hall : (∀ piece ∈ between input, ∃ b ∈ piece.of input, isFoldedBlank b = false) ↔
      ∀ item ∈ contents input, item ≠ [] := by
    rw [contents, ← between_of, List.map_map, List.forall_mem_map]
    exact forall₂_congr fun piece _ => trim_ne_nil.symm
  rw [balanced_iff, hall]
  constructor
  · rintro ⟨items, h⟩
    obtain ⟨hs, hi, hn⟩ := split_iff.1 ⟨items, h, rfl⟩
    exact ⟨hs, hi ▸ hn⟩
  · rintro ⟨hs, hn⟩
    obtain ⟨items, h, -⟩ := split_iff.2 ⟨hs, rfl, hn⟩
    exact ⟨items, h⟩

theorem strips_of_split (h : split input = .ok items) :
    List.Forall₂ (Strips input) (between input) items := by
  rw [between_eq_places]
  exact strips_of_elements [] h

theorem apart_of_split (h : split input = .ok items) : Span.Apart 0 (input.length + 1) items := by
  have hplaces := apart_places input 0
  rw [← between_eq_places, Nat.zero_add] at hplaces
  exact apart_of_within ((strips_of_split h).imp fun _ _ hs => hs.within) hplaces

/-- A list is split at its unquoted commas. That succeeds exactly when no quoted region is left open
and every stretch between two of them, or between one and an end, holds more than white space. Then
the items are these stretches without the white space around them, in order, inside the list and
with a comma between any two. Put together again with commas and any white space around them, the
items are found again. -/
theorem split_at_commas (input : Bytes) :
    ((∃ items, split input = .ok items) ↔
      Balanced input ∧ ∀ piece ∈ between input, ∃ b ∈ piece.of input, isFoldedBlank b = false) ∧
    ∀ items, split input = .ok items →
      List.Forall₂ (Strips input) (between input) items ∧
      items.Pairwise (fun s t => s.stop < t.start) ∧
      (∀ item ∈ items, item.stop ≤ input.length) ∧
      ∀ list, Listed (items.map (·.of input)) list →
        ∃ again, split list = .ok again ∧ again.map (·.of list) = items.map (·.of input) := by
  refine ⟨split_succeeds_iff, fun items h => ?_⟩
  have hapart := apart_of_split h
  refine ⟨strips_of_split h, hapart.pairwise, fun item hi => ?_, fun list hl => ?_⟩
  · exact Nat.le_of_succ_le_succ (Span.Chain.within hapart _ (List.mem_map_of_mem hi)).2
  · exact split_complete hl (solid_of_split h)

theorem split_at_commas_quoted :
    let list := Bytes.ofText "a=\"x,\\\"\" ,\tb"
    let again := Bytes.ofText "\t a=\"x,\\\"\",\r\n b "
    split list = .ok [⟨0, 8⟩, ⟨11, 1⟩] ∧ between list = [⟨0, 9⟩, ⟨10, 2⟩] ∧
      List.Forall₂ (Strips list) [⟨0, 9⟩, ⟨10, 2⟩] [⟨0, 8⟩, ⟨11, 1⟩] ∧
      Listed [Bytes.ofText "a=\"x,\\\"\"", Bytes.ofText "b"] again ∧
      ∃ found, split again = .ok found ∧
        found.map (·.of again) = [Bytes.ofText "a=\"x,\\\"\"", Bytes.ofText "b"] := by
  intro list again
  have hsplit : split list = .ok [⟨0, 8⟩, ⟨11, 1⟩] := by decide +kernel
  have hbetween : between list = [⟨0, 9⟩, ⟨10, 2⟩] := by decide +kernel
  have hagain : split again = .ok [⟨2, 8⟩, ⟨14, 1⟩] := by decide +kernel
  have hitems : [(⟨2, 8⟩ : Span), ⟨14, 1⟩].map (·.of again) =
      [Bytes.ofText "a=\"x,\\\"\"", Bytes.ofText "b"] := by decide +kernel
  have hlisted := split_sound hagain
  rw [hitems] at hlisted
  obtain ⟨hstrips, -, -, hjoin⟩ := (split_at_commas list).2 _ hsplit
  exact ⟨hsplit, hbetween, hbetween ▸ hstrips, hlisted, hjoin again hlisted⟩

end Separators

end OriginServer.Http.FieldList
