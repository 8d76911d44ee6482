import OriginServer.Http.Framing
import OriginServer.Proofs.Http.FieldList
import OriginServer.Proofs.Http.Token

namespace OriginServer.Http.TransferCoding

open Ascii FieldList

section Grammar

/-- A token or a quoted string. -/
inductive ParameterValue : Bytes → Prop
  | token {v : Bytes} (hv : isToken v = true) : ParameterValue v
  | quoted {body : Bytes} (hb : QuotedBody body) : ParameterValue (dquote :: (body ++ [dquote]))

/-- A semicolon, a name, an equals sign and a value, with white space around the semicolon. -/
inductive Parameter : Bytes → Prop
  | mk {before after name v : Bytes} (hb : Blanks before) (ha : Blanks after)
    (hn : isToken name = true) (hv : ParameterValue v) :
    Parameter (before ++ semicolon :: (after ++ (name ++ equals :: v)))

inductive Parameters : Bytes → Prop
  | nil : Parameters []
  | cons {p rest : Bytes} (hp : Parameter p) (h : Parameters rest) : Parameters (p ++ rest)

/-- A coding: its name, a token, and any number of parameters. -/
inductive Coding : Bytes → Bytes → Prop
  | mk {name params : Bytes} (hn : isToken name = true) (hp : Parameters params) :
    Coding name (name ++ params)

/-- A well-formed list of codings with these names. -/
def CodingList (names : List Bytes) (value : Bytes) : Prop :=
  ∃ items, Listed items value ∧ List.Forall₂ Coding names items

end Grammar

section Bounds

/-- No token goes on with these bytes. -/
def EndsToken (rest : Bytes) : Prop := ∀ b ∈ rest.head?, isTokenByte b = false

theorem isFoldedBlank_of_token {b : UInt8} (h : isTokenByte b = true) :
    isFoldedBlank b = false := by
  cases hb : isFoldedBlank b with
  | false => rfl
  | true =>
    simp only [isFoldedBlank, isBlank, Bool.or_eq_true, beq_iff_eq] at hb
    obtain ((rfl | rfl) | rfl) | rfl := hb <;> exact absurd h (by decide)

theorem isBlank_of_token {b : UInt8} (h : isTokenByte b = true) : isBlank b = false := by
  have hf := isFoldedBlank_of_token h
  simp only [isFoldedBlank, Bool.or_eq_false_iff] at hf
  exact hf.1.1

theorem isToken_iff {t : Bytes} : isToken t = true ↔ t ≠ [] ∧ ∀ b ∈ t, isTokenByte b = true := by
  simp [isToken]

theorem isToken_cons {t : Bytes} (h : isToken t = true) :
    ∃ x rest, t = x :: rest ∧ isTokenByte x = true := by
  obtain ⟨hn, ht⟩ := isToken_iff.1 h
  obtain ⟨x, rest, rfl⟩ := List.exists_cons_of_ne_nil hn
  exact ⟨x, rest, rfl, ht x (List.mem_cons_self ..)⟩

theorem token_head {t : Bytes} (h : isToken t = true) (rest : Bytes) :
    ∀ b ∈ (t ++ rest).head?, isFoldedBlank b = false := by
  obtain ⟨hn, ht⟩ := isToken_iff.1 h
  obtain ⟨x, t, rfl⟩ := List.exists_cons_of_ne_nil hn
  intro b hb
  cases hb
  exact isFoldedBlank_of_token (ht x (List.mem_cons_self ..))

theorem Parameter.endsToken {p : Bytes} (h : Parameter p) (rest : Bytes) :
    EndsToken (p ++ rest) := by
  obtain ⟨hb, -, -, -⟩ := h
  rename_i before _ _ _
  intro b hm
  cases before with
  | nil =>
    cases hm
    decide
  | cons x before =>
    obtain rfl : x = b := Option.some.inj hm
    cases ht : isTokenByte x with
    | false => rfl
    | true => exact absurd (hb x (List.mem_cons_self ..)) (by simp [isFoldedBlank_of_token ht])

theorem Parameters.endsToken {params : Bytes} (h : Parameters params) : EndsToken params := by
  cases h with
  | nil =>
    intro b hb
    cases hb
  | cons hp _ => exact hp.endsToken _

end Bounds

section Read

theorem takeWhile_tokenBytes {t rest : Bytes} (ht : ∀ b ∈ t, isTokenByte b = true)
    (hr : EndsToken rest) : (t ++ rest).takeWhile isTokenByte = t := by
  rw [List.takeWhile_append_of_pos ht]
  cases rest with
  | nil => simp
  | cons b rest => rw [List.takeWhile_cons_of_neg (by simp [hr b rfl]), List.append_nil]

theorem takeWhile_token {t rest : Bytes} (ht : isToken t = true) (hr : EndsToken rest) :
    (t ++ rest).takeWhile isTokenByte = t := takeWhile_tokenBytes (isToken_iff.1 ht).2 hr

theorem afterToken?_complete {t rest : Bytes} (ht : isToken t = true) (hr : EndsToken rest) :
    afterToken? (t ++ rest) = some rest := by
  obtain ⟨hn, hp⟩ := isToken_iff.1 ht
  rw [afterToken?, takeWhile_token ht hr, List.dropWhile_append_of_pos hp,
    if_neg (by simpa using hn)]
  cases rest with
  | nil => rfl
  | cons b rest => rw [List.dropWhile_cons_of_neg (by simp [hr b rfl])]

theorem afterToken?_sound {input rest : Bytes} (h : afterToken? input = some rest) :
    ∃ t, isToken t = true ∧ input = t ++ rest := by
  simp only [afterToken?] at h
  split at h
  · cases h
  · rename_i hn
    cases h
    exact ⟨input.takeWhile isTokenByte,
      isToken_iff.2 ⟨by simpa using hn, List.all_eq_true.1 List.all_takeWhile⟩,
      List.takeWhile_append_dropWhile.symm⟩

theorem afterByte?_eq_some {b : UInt8} {input rest : Bytes} :
    afterByte? b input = some rest ↔ input = b :: rest := by
  cases input with
  | nil => simp [afterByte?]
  | cons x input =>
    simp only [afterByte?, List.cons.injEq]
    split <;> simp_all

/-- A value is read up to what follows it, by its first byte. -/
theorem afterValue_complete {v rest : Bytes} (hv : ParameterValue v) (hr : EndsToken rest) :
    (if (v ++ rest).head? = some dquote then afterQuoted? (v ++ rest)
      else afterToken? (v ++ rest)) = some rest := by
  cases hv with
  | token ht =>
    rw [if_neg, afterToken?_complete ht hr]
    obtain ⟨hn, hp⟩ := isToken_iff.1 ht
    obtain ⟨b, t, rfl⟩ := List.exists_cons_of_ne_nil hn
    intro hb
    cases hb
    exact absurd (hp dquote (List.mem_cons_self ..)) (by decide)
  | quoted hb =>
    rw [List.cons_append, List.append_assoc, if_pos List.head?_cons]
    exact afterQuoted?_complete hb rest

theorem afterParameter?_complete {p rest : Bytes} (hp : Parameter p) (hr : EndsToken rest) :
    afterParameter? (p ++ rest) = some rest := by
  obtain ⟨hb, ha, hn, hv⟩ := hp
  rename_i before after name v
  have hs : ∀ (x : Bytes), ∀ b ∈ (semicolon :: x).head?, isFoldedBlank b = false := by
    intro x b hb
    cases hb
    decide
  have he : EndsToken (equals :: (v ++ rest)) := by
    intro b hb
    cases hb
    decide
  simp only [afterParameter?, List.append_assoc, List.cons_append]
  rw [dropWhile_blanks hb (hs _), afterByte?_eq_some.2 rfl, Option.bind_eq_bind, Option.bind_some,
    dropWhile_blanks ha (token_head hn _), afterToken?_complete hn he, Option.bind_some,
    afterByte?_eq_some.2 rfl, Option.bind_some]
  exact afterValue_complete hv hr

theorem afterParameter?_sound {input rest : Bytes} (h : afterParameter? input = some rest) :
    ∃ p, Parameter p ∧ input = p ++ rest := by
  simp only [afterParameter?, Option.bind_eq_bind, Option.bind_eq_some_iff,
    afterByte?_eq_some] at h
  obtain ⟨i₁, h₁, i₂, h₂, i₃, rfl, h⟩ := h
  obtain ⟨name, hn, h₂⟩ := afterToken?_sound h₂
  have hi : input = input.takeWhile isFoldedBlank ++ semicolon :: (i₁.takeWhile isFoldedBlank ++
      (name ++ equals :: i₃)) := by
    rw [← h₂, List.takeWhile_append_dropWhile, ← h₁, List.takeWhile_append_dropWhile]
  have hv : ∃ v, ParameterValue v ∧ i₃ = v ++ rest := by
    split at h
    · obtain ⟨body, hb, hr⟩ := afterQuoted?_sound h
      exact ⟨_, .quoted hb, by simp [hr]⟩
    · obtain ⟨t, ht, hr⟩ := afterToken?_sound h
      exact ⟨t, .token ht, hr⟩
  obtain ⟨v, hv, rfl⟩ := hv
  refine ⟨_, .mk (blanks_takeWhile input) (blanks_takeWhile i₁) hn hv, ?_⟩
  rw [List.append_assoc, List.cons_append, List.append_assoc, List.append_assoc, List.cons_append]
  exact hi

theorem isParameters_iff {input : Bytes} : isParameters input = true ↔ Parameters input := by
  constructor
  · intro h
    fun_induction isParameters input with
    | case1 input he =>
      rw [List.isEmpty_iff.1 he]
      exact .nil
    | case2 input _ rest hr ih =>
      obtain ⟨p, hp, rfl⟩ := afterParameter?_sound hr
      exact .cons hp (ih h)
    | case3 => cases h
  · intro h
    induction h with
    | nil =>
      rw [isParameters]
      rfl
    | @cons p rest hp h ih =>
      have ha := afterParameter?_complete hp h.endsToken
      have hn : ¬ (p ++ rest).isEmpty := by
        obtain ⟨⟩ := hp
        simp
      rw [isParameters, if_neg hn]
      split
      · rename_i hr
        cases ha.symm.trans hr
        exact ih
      · rename_i hr
        cases ha.symm.trans hr

end Read

section Solid

theorem token_uncut {t : Bytes} (h : isToken t = true) : Uncut .outside t .outside :=
  uncut_plain fun b hb => by
    have ht := (isToken_iff.1 h).2 b hb
    constructor <;> rintro rfl <;> exact absurd ht (by decide)

theorem quotedBody_uncut {body : Bytes} (h : QuotedBody body) : Uncut .inside body .inside := by
  induction h with
  | nil => exact uncut_nil _
  | text hb _ ih =>
    obtain ⟨hq, hs⟩ := isQuotedText_ne hb
    refine .cons (fun h => Quote.noConfusion h.1) ?_
    simp only [Quote.step, if_neg hs, if_neg hq]
    exact ih
  | escape _ _ ih =>
    refine .cons (fun h => Quote.noConfusion h.1) (.cons (fun h => Quote.noConfusion h.1) ?_)
    exact ih

theorem ParameterValue.uncut {v : Bytes} (h : ParameterValue v) : Uncut .outside v .outside := by
  cases h with
  | token ht => exact token_uncut ht
  | quoted hb =>
    have hc : Uncut .inside [dquote] .outside := uncut_byte fun h => Quote.noConfusion h.1
    exact .cons (by decide) ((quotedBody_uncut hb).append hc)

theorem Parameter.uncut {p : Bytes} (h : Parameter p) : Uncut .outside p .outside := by
  obtain ⟨hb, ha, hn, hv⟩ := h
  exact (uncut_blanks hb).append (.cons (by decide)
    ((uncut_blanks ha).append ((token_uncut hn).append (.cons (by decide) hv.uncut))))

theorem Parameters.uncut {params : Bytes} (h : Parameters params) :
    Uncut .outside params .outside := by
  induction h with
  | nil => exact uncut_nil _
  | cons hp _ ih => exact hp.uncut.append ih

/-- No white space stands at the end. -/
def EndsSolid (b : Bytes) : Prop := ∀ x ∈ b.getLast?, isFoldedBlank x = false

theorem ParameterValue.ends {v : Bytes} (h : ParameterValue v) (front : Bytes) :
    EndsSolid (front ++ v) := by
  cases h with
  | token ht =>
    obtain ⟨hn, hp⟩ := isToken_iff.1 ht
    intro x hx
    rw [List.getLast?_append_of_ne_nil _ hn] at hx
    exact isFoldedBlank_of_token (hp x (List.mem_of_getLast? hx))
  | @quoted body hb =>
    intro x hx
    rw [← List.cons_append, ← List.append_assoc, List.getLast?_concat] at hx
    cases hx
    decide

theorem Parameters.ends {params front : Bytes} (h : Parameters params) (hf : EndsSolid front) :
    EndsSolid (front ++ params) := by
  induction h generalizing front with
  | nil =>
    rw [List.append_nil]
    exact hf
  | cons hp _ ih =>
    rw [← List.append_assoc]
    apply ih
    obtain ⟨-, -, -, hv⟩ := hp
    rename_i before after name v
    have he := hv.ends (front ++ (before ++ semicolon :: (after ++ (name ++ [equals]))))
    simpa using he

theorem Coding.solid {name item : Bytes} (h : Coding name item) : Solid item := by
  obtain ⟨hn, hp⟩ := h
  refine ⟨?_, token_head hn _, ?_, (token_uncut hn).append hp.uncut⟩
  · exact List.append_ne_nil_of_left_ne_nil (isToken_iff.1 hn).1 _
  · exact hp.ends (ParameterValue.ends (.token hn) [])

end Solid

section Names

theorem isTokenByte_of_toLower {b : UInt8} (h : isTokenByte (toLower b) = true) :
    isTokenByte b = true := by
  by_cases hu : isUpper b = true
  · simp [isTokenByte, isAlphanum, hu]
  · rwa [toLower, if_neg hu] at h

theorem isToken_of_isKnown {item : Bytes} (h : isKnown item = true) : isToken item = true := by
  obtain ⟨k, hk, hs⟩ := List.any_eq_true.1 h
  have hall : ∀ k ∈ known, isToken ((Bytes.ofText k).map toLower) = true := by decide
  have ht := hall k hk
  rw [eq_of_beq hs] at ht
  obtain ⟨hn, hp⟩ := isToken_iff.1 ht
  refine isToken_iff.2 ⟨fun h => hn (by rw [h]; rfl), fun b hb => ?_⟩
  exact isTokenByte_of_toLower (hp _ (List.mem_map_of_mem hb))

/-- The name of a coding is the token at its front. -/
theorem Coding.name_eq {name item : Bytes} (h : Coding name item) :
    name = item.take (tokenLength item) := by
  obtain ⟨hn, hp⟩ := h
  rw [tokenLength, takeWhile_token hn hp.endsToken, List.take_left]

theorem Coding.isToken_name {name item : Bytes} (h : Coding name item) : isToken name = true := by
  obtain ⟨hn, -⟩ := h
  exact hn

theorem isParameters_afterToken {item : Bytes} :
    (afterToken? item).any isParameters = true ↔ ∃ name, Coding name item := by
  rw [Option.any_eq_true]
  constructor
  · rintro ⟨rest, hr, hp⟩
    obtain ⟨t, hn, rfl⟩ := afterToken?_sound hr
    exact ⟨t, .mk hn (isParameters_iff.1 hp)⟩
  · rintro ⟨_, hn, hp⟩
    exact ⟨_, afterToken?_complete hn hp.endsToken, isParameters_iff.2 hp⟩

/-- Known names are valid anyway. -/
theorem isValid_eq_any (item : Bytes) : isValid item = (afterToken? item).any isParameters := by
  have he : isValid item = (isKnown item || (afterToken? item).any isParameters) := by
    rw [isValid]
    cases afterToken? item <;> rfl
  rw [he, Bool.or_eq_right_iff_imp]
  intro hk
  have hc := Coding.mk (isToken_of_isKnown hk) .nil
  rw [List.append_nil] at hc
  exact isParameters_afterToken.2 ⟨item, hc⟩

theorem isValid_iff {item : Bytes} :
    isValid item = true ↔ Coding (item.take (tokenLength item)) item := by
  rw [isValid_eq_any, isParameters_afterToken]
  constructor
  · rintro ⟨name, hc⟩
    rwa [← hc.name_eq]
  · exact fun h => ⟨_, h⟩

theorem codings_iff {names items : List Bytes} :
    List.Forall₂ Coding names items ↔
      (∀ item ∈ items, isValid item = true) ∧
        names = items.map fun item => item.take (tokenLength item) := by
  constructor
  · intro h
    induction h with
    | nil => simp
    | cons hc _ ih =>
      refine ⟨List.forall_mem_cons.2 ⟨isValid_iff.2 (hc.name_eq ▸ hc), ih.1⟩, ?_⟩
      rw [List.map_cons, ← hc.name_eq, ← ih.2]
  · rintro ⟨h, rfl⟩
    rw [List.forall₂_map_left_iff, List.forall₂_same]
    exact fun item hi => isValid_iff.1 (h item hi)

theorem name_of (span : Span) (value : Bytes) :
    Span.of ⟨span.start, tokenLength (span.of value)⟩ value =
      (span.of value).take (tokenLength (span.of value)) :=
  Span.of_take (List.takeWhile_sublist _).length_le

theorem names_eq_ok {value : Bytes} {places : List Span} :
    names value = .ok places ↔ ∃ items, split value = .ok items ∧
      (∀ item ∈ items, isValid (item.of value) = true) ∧
      places = items.map fun item => ⟨item.start, tokenLength (item.of value)⟩ := by
  simp only [names]
  cases split value with
  | error e => exact ⟨nofun, nofun⟩
  | ok items =>
    simp only [List.all_eq_true, Except.ok.injEq, exists_eq_left']
    split
    · rename_i hv
      rw [Except.ok.injEq, eq_comm]
      exact ⟨fun h => ⟨hv, h⟩, And.right⟩
    · rename_i hv
      exact ⟨nofun, fun h => absurd h.1 hv⟩

/-- The names in a well-formed list of codings are read, and no others. -/
theorem names_iff {value : Bytes} {names : List Bytes} :
    (∃ spans, TransferCoding.names value = .ok spans ∧ spans.map (·.of value) = names) ↔
      CodingList names value := by
  have hnames (items : List Span) :
      (items.map fun item => (⟨item.start, tokenLength (item.of value)⟩ : Span)).map (·.of value) =
        (items.map (·.of value)).map fun item => item.take (tokenLength item) := by
    rw [List.map_map, List.map_map]
    exact List.map_congr_left fun s _ => name_of s value
  constructor
  · rintro ⟨_, h, rfl⟩
    obtain ⟨items, hs, hv, rfl⟩ := names_eq_ok.1 h
    exact ⟨_, split_sound hs, codings_iff.2 ⟨List.forall_mem_map.2 hv, hnames items⟩⟩
  · rintro ⟨items, hl, hc⟩
    have hs : ∀ item ∈ items, Solid item := fun item hi =>
      (isValid_iff.1 ((codings_iff.1 hc).1 item hi)).solid
    obtain ⟨spans, he, rfl⟩ := split_complete hl hs
    obtain ⟨hv, rfl⟩ := codings_iff.1 hc
    exact ⟨_, names_eq_ok.2 ⟨spans, he, List.forall_mem_map.1 hv, rfl⟩, hnames spans⟩

theorem names_eq_error {value : Bytes} {e : ParseError} (h : names value = .error e) :
    e = .invalidTransferEncoding := by
  simp only [names] at h
  split at h
  · cases h
    rfl
  · split at h
    · cases h
    · cases h
      rfl

theorem CodingList.ne_nil {names : List Bytes} {value : Bytes} (h : CodingList names value) :
    names ≠ [] := by
  obtain ⟨items, hl, hc⟩ := h
  rintro rfl
  exact hl.ne_nil (List.forall₂_nil_left_iff.1 hc)

/-- The place holds the name that the item begins with. -/
structure FrontName (value : Bytes) (item place : Span) : Prop where
  start_eq : place.start = item.start
  stop_le : place.stop ≤ item.stop
  len_pos : 0 < place.len
  coding : Coding (place.of value) (item.of value)

theorem names_front {value : Bytes} {item : Span} (h : isValid (item.of value) = true) :
    FrontName value item ⟨item.start, tokenLength (item.of value)⟩ := by
  have hc := isValid_iff.1 h
  have hle : tokenLength (item.of value) ≤ item.len :=
    Nat.le_trans (List.takeWhile_sublist _).length_le (List.length_take_le _ _)
  refine ⟨rfl, Nat.add_le_add_left hle _, ?_, by rwa [name_of]⟩
  refine Nat.pos_of_ne_zero fun hz => (isToken_iff.1 hc.isToken_name).1 ?_
  exact (congrArg (List.take · _) hz).trans List.take_zero

/-- An item of a list of codings is valid exactly when it is a token with any number of parameters
behind it and nothing else, whether its name is known or not. From a value the names are read
exactly when it can be split into such items; then they are, in order, the tokens at the front of
the items, and none is empty. -/
theorem codings_recognised :
    (∀ item, (isValid item = true ↔ ∃ name, Coding name item) ∧
      isValid item = (afterToken? item).any isParameters) ∧
    ∀ value,
      ((∃ places, names value = .ok places) ↔ ∃ items, split value = .ok items ∧
        ∀ item ∈ items, ∃ name, Coding name (item.of value)) ∧
      ∀ items places, split value = .ok items → names value = .ok places →
        List.Forall₂ (FrontName value) items places := by
  have hvalid (item : Bytes) : isValid item = true ↔ ∃ name, Coding name item := by
    rw [isValid_eq_any, isParameters_afterToken]
  refine ⟨fun item => ⟨hvalid item, isValid_eq_any item⟩, fun value => ⟨?_, ?_⟩⟩
  · simp only [names_eq_ok, ← hvalid]
    constructor
    · rintro ⟨_, items, hs, hv, -⟩
      exact ⟨items, hs, hv⟩
    · rintro ⟨items, hs, hv⟩
      exact ⟨_, items, hs, hv, rfl⟩
  · intro items places hs h
    obtain ⟨_, hs', hv, rfl⟩ := names_eq_ok.1 h
    cases hs.symm.trans hs'
    rw [List.forall₂_map_right_iff, List.forall₂_same]
    exact fun item hi => names_front (hv item hi)

theorem codings_recognised_quoted :
    let value := Bytes.ofText "x ;\tnote=\"a, b;c\" , chunked"
    split value = .ok [⟨0, 17⟩, ⟨20, 7⟩] ∧ names value = .ok [⟨0, 1⟩, ⟨20, 7⟩] ∧
      List.Forall₂ (FrontName value) [⟨0, 17⟩, ⟨20, 7⟩] [⟨0, 1⟩, ⟨20, 7⟩] := by
  intro value
  have hsplit : split value = .ok [⟨0, 17⟩, ⟨20, 7⟩] := by decide +kernel
  have hnames : names value = .ok [⟨0, 1⟩, ⟨20, 7⟩] := by decide +kernel
  exact ⟨hsplit, hnames, (codings_recognised.2 value).2 _ _ hsplit hnames⟩

end Names

end OriginServer.Http.TransferCoding
