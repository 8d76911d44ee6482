import OriginServer.Proofs.Http.ListElements

namespace OriginServer.Http

open Ascii

namespace FieldList

section Respaced

/-- White space and folds at a place outside quoted strings, and others in their stead. -/
inductive Respaced (place : Bytes → Bytes → Prop) : Bytes → Bytes → Prop
  | mk {x r r' y : Bytes} (hx : Settled x) (hr : Blanks r) (hr' : Blanks r') (hp : place x y) :
    Respaced place (x ++ (r ++ y)) (x ++ (r' ++ y))

variable {place : Bytes → Bytes → Prop} {v v' : Bytes}

theorem Respaced.symm (h : Respaced place v v') : Respaced place v' v := by
  obtain ⟨hx, hr, hr', hp⟩ := h
  exact .mk hx hr' hr hp

theorem Cutter.held_respaced {ok : Bytes → Prop} {cut : Bytes → List Bytes} (h : Cutter ok cut)
    (hok : ∀ x, Settled x → ok x) (hv : Respaced AtEdge v v') : held cut v = held cut v' := by
  obtain ⟨hx, hr, hr', hp⟩ := hv
  rw [h.held_blanks_atEdge (hok _ hx) hr hp, h.held_blanks_atEdge (hok _ hx) hr' hp]

end Respaced

section Semicolon

/-- A place next to a semicolon. -/
def AtSemicolon (x y : Bytes) : Prop := x.getLast? = some semicolon ∨ y.head? = some semicolon

theorem AtSemicolon.drop_left {f x y : Bytes} (h : AtSemicolon (f ++ x) y)
    (hf : x ≠ [] ∨ f.getLast? ≠ some semicolon) : AtSemicolon x y := by
  obtain hl | hr := h
  · by_cases hx : x = []
    · subst hx
      rw [List.append_nil] at hl
      exact absurd hl (hf.resolve_left fun hn => hn rfl)
    · rw [List.getLast?_append_of_ne_nil _ hx] at hl
      exact .inl hl
  · exact .inr hr

theorem AtSemicolon.drop_right {x y g : Bytes} (h : AtSemicolon x (y ++ g))
    (hg : y ≠ [] ∨ g.head? ≠ some semicolon) : AtSemicolon x y := by
  obtain hl | hr := h
  · exact .inl hl
  · cases y with
    | nil => exact absurd hr (hg.resolve_left fun hn => hn rfl)
    | cons b y => exact .inr hr

theorem Respaced.semicolon_mem {u u' : Bytes} (h : Respaced AtSemicolon u u') :
    semicolon ∈ u := by
  obtain ⟨-, -, -, hl | hl⟩ := h
  · exact List.mem_append_left _ (List.mem_of_getLast? hl)
  · exact List.mem_append_right _ (List.mem_append_right _ (List.mem_of_head? hl))

/-- Texts that are the same but for white space at one place next to a semicolon. -/
def Alike (u u' : Bytes) : Prop := u = u' ∨ Respaced AtSemicolon u u'

theorem Alike.refl (u : Bytes) : Alike u u := .inl rfl

theorem Alike.symm {u u' : Bytes} (h : Alike u u') : Alike u' u := h.imp Eq.symm Respaced.symm

theorem not_blanks {x : Bytes} (h : ¬ Blanks x) :
    ∃ before c rest, Blanks before ∧ isFoldedBlank c = false ∧ x = before ++ c :: rest := by
  have hs := List.takeWhile_append_dropWhile (p := isFoldedBlank) (l := x)
  cases hd : x.dropWhile isFoldedBlank with
  | nil =>
    rw [hd, List.append_nil] at hs
    exact absurd (hs ▸ blanks_takeWhile x) h
  | cons c rest =>
    refine ⟨_, c, rest, blanks_takeWhile x, ?_, hd ▸ hs.symm⟩
    have hh := List.head?_dropWhile_not isFoldedBlank x
    rw [hd] at hh
    simpa using hh

theorem dropWhile_before {before rest : Bytes} {c : UInt8} (hb : Blanks before)
    (hc : isFoldedBlank c = false) (behind : Bytes) :
    (before ++ c :: rest ++ behind).dropWhile isFoldedBlank = c :: (rest ++ behind) := by
  rw [List.append_assoc, List.cons_append]
  refine dropWhile_blanks hb ?_
  rintro _ ⟨⟩
  exact hc

/-- Behind the white space, nothing is left of the difference or it is further on. -/
theorem alike_dropWhile {f x r r' y : Bytes} (hx : Settled x) (hr : Blanks r) (hr' : Blanks r')
    (hp : AtSemicolon (f ++ x) y) :
    Alike ((x ++ (r ++ y)).dropWhile isFoldedBlank) ((x ++ (r' ++ y)).dropWhile isFoldedBlank) := by
  by_cases hb : Blanks x
  · rw [List.dropWhile_append_of_pos hb, List.dropWhile_append_of_pos hr,
      List.dropWhile_append_of_pos hb, List.dropWhile_append_of_pos hr']
    exact .refl _
  · obtain ⟨before, c, rest, hbefore, hc, rfl⟩ := not_blanks hb
    rw [dropWhile_before hbefore hc, dropWhile_before hbefore hc]
    rw [← List.append_assoc] at hp
    exact .inr (.mk ((Settled.append_iff (cutter_pieces.ok_blanks hbefore)).1 hx) hr hr'
      (hp.drop_left (.inl (List.cons_ne_nil _ _))))

/-- What is cut off a piece does not matter where it is not at a semicolon. -/
theorem alike_trim {a b r r' : Bytes} (ha : Settled a) (hp : AtSemicolon a b) (hr : Blanks r)
    (hr' : Blanks r') :
    Alike ((a ++ (r ++ b)).trim isFoldedBlank) ((a ++ (r' ++ b)).trim isFoldedBlank) := by
  by_cases hab : Blanks a
  · rw [trim_blanks_append hab, trim_blanks_append hab, trim_blanks_append hr,
      trim_blanks_append hr']
    exact .refl _
  by_cases hbb : Blanks b
  · rw [trim_append_blanks (List.forall_mem_append.2 ⟨hr, hbb⟩),
      trim_append_blanks (List.forall_mem_append.2 ⟨hr', hbb⟩)]
    exact .refl _
  obtain ⟨before, c, a, hbefore, hc, rfl⟩ := not_blanks hab
  obtain ⟨after, hafter, hb⟩ := trim_sound b
  have hne : b.trim isFoldedBlank ≠ [] := by
    intro he
    rw [he, List.append_nil] at hb
    exact hbb (hb ▸ List.forall_mem_append.2 ⟨blanks_takeWhile b, hafter⟩)
  have hlast := (trim_ends b).2
  generalize b.trim isFoldedBlank = item at hb hne hlast
  generalize b.takeWhile isFoldedBlank = front at hb
  subst hb
  have htrim (z : Bytes) :
      (before ++ c :: a ++ (z ++ (front ++ item ++ after))).trim isFoldedBlank =
        c :: a ++ (z ++ (front ++ item)) := by
    have h := @trim_eq before (c :: a ++ (z ++ (front ++ item))) after hbefore hafter
      (by rintro _ ⟨⟩; exact hc)
      (by rwa [← List.append_assoc, ← List.append_assoc, List.getLast?_append_of_ne_nil _ hne])
    rw [← h]
    simp
  rw [htrim, htrim]
  exact .inr (.mk ((Settled.append_iff (cutter_pieces.ok_blanks hbefore)).1 ha) hr hr'
    ((hp.drop_left (.inl (List.cons_ne_nil _ _))).drop_right
      (.inl (List.append_ne_nil_of_right_ne_nil _ hne))))

/-- What stands in front of the last piece ends with a comma outside quoted strings. -/
theorem pieces_last {q : Quote} {x a : Bytes} {front : List Bytes}
    (h : (pieces q x).1 = front ++ [a]) :
    ∃ x', x = x' ++ a ∧ (front = [] → x' = []) ∧
      (front ≠ [] → q.behind x' = .outside ∧ x'.getLast? = some comma) := by
  induction x generalizing q front a with
  | nil =>
    obtain ⟨rfl, rfl⟩ : front = [] ∧ a = [] := by
      cases front with
      | nil => exact ⟨rfl, (List.cons.inj h).1.symm⟩
      | cons p front => simp [pieces] at h
    exact ⟨[], rfl, fun _ => rfl, fun hn => absurd rfl hn⟩
  | cons b x ih =>
    obtain he | ⟨front', a', hp⟩ := List.eq_nil_or_concat' (pieces (q.step b) x).1
    · exact absurd he (pieces_ne_nil _ _)
    obtain ⟨x', hx, hnil, hcons⟩ := ih hp
    rw [pieces_cons, hp] at h
    split at h
    · rename_i hsep
      obtain ⟨rfl, rfl⟩ := hsep
      obtain ⟨rfl, ha⟩ := List.append_inj' (show ([] :: front') ++ [a'] = front ++ [a] from h) rfl
      cases ha
      refine ⟨comma :: x', by rw [hx]; rfl, fun hn => absurd hn (List.cons_ne_nil _ _), fun _ => ?_⟩
      by_cases hf : front' = []
      · rw [hnil hf]
        exact ⟨rfl, rfl⟩
      · obtain ⟨hq, hl⟩ := hcons hf
        obtain ⟨x'', rfl⟩ := List.getLast?_eq_some_iff.1 hl
        exact ⟨hq, List.getLast?_concat (l := comma :: x'')⟩
    · cases front' with
      | nil =>
        obtain ⟨rfl, ha⟩ := List.append_inj' (show [] ++ [b :: a'] = front ++ [a] from h) rfl
        cases ha
        exact ⟨[], by rw [hx, hnil rfl]; rfl, fun _ => rfl, fun hn => absurd rfl hn⟩
      | cons p front' =>
        obtain ⟨rfl, ha⟩ := List.append_inj'
          (show ((b :: p) :: front') ++ [a'] = front ++ [a] from h) rfl
        cases ha
        obtain ⟨hq, hl⟩ := hcons (List.cons_ne_nil _ _)
        obtain ⟨x'', rfl⟩ := List.getLast?_eq_some_iff.1 hl
        exact ⟨b :: (x'' ++ [comma]), by rw [hx]; rfl, fun hn => absurd hn (List.cons_ne_nil _ _),
          fun _ => ⟨hq, List.getLast?_concat (l := b :: x'')⟩⟩

/-- What stands behind the first piece begins with a comma. -/
theorem pieces_head {q : Quote} {y b : Bytes} {back : List Bytes}
    (h : (pieces q y).1 = b :: back) : ∃ y', y = b ++ y' ∧ y'.head? ≠ some semicolon := by
  obtain ⟨-, rfl⟩ | ⟨-, rest, rfl, -⟩ := pieces_sound (Prod.ext h rfl)
  · exact ⟨[], (List.append_nil _).symm, by simp⟩
  · exact ⟨_, rfl, fun h => absurd (Option.some.inj h) (by decide)⟩

theorem forall₂_alike_refl (items : List Bytes) : List.Forall₂ Alike items items :=
  List.forall₂_same.2 fun item _ => .refl item

/-- The elements of a list are the same but for one piece. -/
theorem contents_alike {v v' : Bytes} (h : Respaced AtSemicolon v v') :
    List.Forall₂ Alike (contents v) (contents v') := by
  obtain ⟨hx, hr, hr', hp⟩ := h
  rename_i x r r' y
  obtain he | ⟨front, a, ha⟩ := List.eq_nil_or_concat' (pieces .outside x).1
  · exact absurd he (pieces_ne_nil _ _)
  obtain ⟨b, back, hb⟩ := List.exists_cons_of_ne_nil (pieces_ne_nil .outside y)
  have hcut {z : Bytes} (hz : Blanks z) : contents (x ++ (z ++ y)) =
      front.map (·.trim isFoldedBlank) ++
        (a ++ (z ++ b)).trim isFoldedBlank :: back.map (·.trim isFoldedBlank) := by
    have hzy : (pieces .outside (z ++ y)).1 = (z ++ b) :: back := by
      rw [cutter_pieces.append (cutter_pieces.ok_blanks hz), cutter_pieces.blanks hz, hb]
      exact glue_concat [] z b back
    rw [contents, cutter_pieces.append hx, hzy, ha, glue_concat, List.map_append,
      List.map_cons]
  obtain ⟨x', rfl, hnil, hcons⟩ := pieces_last ha
  obtain ⟨y', rfl, hy'⟩ := pieces_head hb
  have hx' : Settled x' ∧ x'.getLast? ≠ some semicolon := by
    by_cases hf : front = []
    · rw [hnil hf]
      exact ⟨settled_nil, by simp⟩
    · obtain ⟨hq, hl⟩ := hcons hf
      exact ⟨hq, fun h => absurd (Option.some.inj (hl.symm.trans h)) (by decide)⟩
  rw [hcut hr, hcut hr']
  refine List.rel_append (forall₂_alike_refl _) (.cons ?_ (forall₂_alike_refl _))
  have hplace : AtSemicolon a b := (hp.drop_left (.inr hx'.2)).drop_right (.inr hy')
  exact alike_trim (hx'.1.append_iff.1 hx) hplace hr hr'

end Semicolon

end FieldList

namespace TransferCoding

open FieldList

section Alike

/-- What follows the value of a parameter. -/
def behindValue? (input : Bytes) : Option Bytes :=
  if input.head? = some dquote then afterQuoted? input else afterToken? input

/-- What follows a semicolon and the white space around it. -/
def behindSemicolon? (input : Bytes) : Option Bytes :=
  (afterByte? semicolon (input.dropWhile isFoldedBlank)).map (·.dropWhile isFoldedBlank)

theorem afterParameter?_eq (input : Bytes) :
    afterParameter? input = (behindSemicolon? input).bind fun rest => (afterToken? rest).bind
      fun rest => (afterByte? equals rest).bind behindValue? := by
  rw [behindSemicolon?, Option.bind_map]
  rfl

variable {u u' : Bytes}

theorem rel_refl (o : Option Bytes) : Option.Rel Alike o o := by
  cases o with
  | none => exact .none
  | some u => exact .some (.refl u)

theorem rel_bind {o o' : Option Bytes} {f : Bytes → Option Bytes} (h : Option.Rel Alike o o')
    (hf : ∀ u u', Respaced AtSemicolon u u' → Option.Rel Alike (f u) (f u')) :
    Option.Rel Alike (o.bind f) (o'.bind f) := by
  cases h with
  | none => exact .none
  | some ha =>
    obtain rfl | ha := ha
    · exact rel_refl _
    · exact hf _ _ ha

theorem behindSemicolon?_alike (h : Respaced AtSemicolon u u') :
    Option.Rel Alike (behindSemicolon? u) (behindSemicolon? u') := by
  obtain ⟨hx, hr, hr', hp⟩ := h
  rename_i x r r' y
  by_cases hb : Blanks x
  · rw [behindSemicolon?, behindSemicolon?, List.dropWhile_append_of_pos hb,
      List.dropWhile_append_of_pos hr, List.dropWhile_append_of_pos hb,
      List.dropWhile_append_of_pos hr']
    exact rel_refl _
  · obtain ⟨before, c, rest, hbefore, hc, rfl⟩ := not_blanks hb
    have hrest := (Settled.append_iff (cutter_pieces.ok_blanks hbefore)).1 hx
    rw [behindSemicolon?, behindSemicolon?, dropWhile_before hbefore hc,
      dropWhile_before hbefore hc]
    simp only [afterByte?]
    split
    · rename_i hs
      subst hs
      rw [List.append_cons] at hp
      exact .some (alike_dropWhile hrest hr hr' hp)
    · exact .none

/-- White space in front of a semicolon, and the semicolon, end a token, are no equals sign and open
no quoted string. -/
theorem exists_gap {r y : Bytes} (hr : Blanks r) (hp : AtSemicolon [] y) :
    ∃ c rest, r ++ y = c :: rest ∧ isTokenByte c = false ∧ c ≠ equals ∧ c ≠ dquote := by
  cases r with
  | nil =>
    obtain ⟨rest, rfl⟩ := List.head?_eq_some_iff.1 (hp.resolve_left (by simp))
    exact ⟨semicolon, rest, rfl, by decide, by decide, by decide⟩
  | cons c r =>
    have hc := hr c List.mem_cons_self
    refine ⟨c, r ++ y, rfl, ?_, ?_, ?_⟩
    · cases ht : isTokenByte c with
      | false => rfl
      | true => exact absurd hc (by simp [isFoldedBlank_of_token ht])
    · rintro rfl
      exact absurd hc (by decide)
    · rintro rfl
      exact absurd hc (by decide)

/-- The same token stands in front, and the difference behind it. -/
theorem token_alike (h : Respaced AtSemicolon u u') :
    ∃ t rest rest', u = t ++ rest ∧ u' = t ++ rest' ∧ (∀ b ∈ t, isTokenByte b = true) ∧
      EndsToken rest ∧ EndsToken rest' ∧ Respaced AtSemicolon rest rest' := by
  obtain ⟨hx, hr, hr', hp⟩ := h
  rename_i x r r' y
  have hall : ∀ b ∈ x.takeWhile isTokenByte, isTokenByte b = true :=
    List.all_eq_true.1 List.all_takeWhile
  have hhead := List.head?_dropWhile_not isTokenByte x
  have hs := List.takeWhile_append_dropWhile (p := isTokenByte) (l := x)
  generalize x.takeWhile isTokenByte = t at hall hs
  generalize x.dropWhile isTokenByte = rest at hhead hs
  subst hs
  have hplain : ∀ b ∈ t, b ≠ dquote ∧ b ≠ comma ∧ b ≠ semicolon := by
    intro b hb
    have ht := hall b hb
    refine ⟨?_, ?_, ?_⟩ <;> rintro rfl <;> exact absurd ht (by decide)
  have hsettled : Settled t :=
    (uncut_plain fun b hb => ⟨(hplain b hb).1, (hplain b hb).2.1⟩).behind
  have hp' : AtSemicolon rest y := hp.drop_left
    (.inr fun hl => (hplain _ (List.mem_of_getLast? hl)).2.2 rfl)
  have hends {z : Bytes} (hz : Blanks z) : EndsToken (rest ++ (z ++ y)) := by
    cases rest with
    | nil =>
      obtain ⟨c, _, he, hc, -⟩ := exists_gap hz hp'
      rw [List.nil_append, he]
      rintro _ ⟨⟩
      exact hc
    | cons c rest =>
      rintro _ ⟨⟩
      simpa using hhead
  exact ⟨t, _, _, List.append_assoc _ _ _, List.append_assoc _ _ _, hall, hends hr, hends hr',
    .mk (hsettled.append_iff.1 hx) hr hr' hp'⟩

theorem afterToken?_append {t rest : Bytes} (ht : ∀ b ∈ t, isTokenByte b = true)
    (hr : EndsToken rest) : afterToken? (t ++ rest) = if t = [] then none else some rest := by
  by_cases hn : t = []
  · subst hn
    rw [if_pos rfl, afterToken?, takeWhile_tokenBytes ht hr]
    rfl
  · rw [if_neg hn, afterToken?_complete (isToken_iff.2 ⟨hn, ht⟩) hr]

theorem afterToken?_alike (h : Respaced AtSemicolon u u') :
    Option.Rel Alike (afterToken? u) (afterToken? u') := by
  obtain ⟨t, rest, rest', rfl, rfl, ht, hr, hr', h⟩ := token_alike h
  rw [afterToken?_append ht hr, afterToken?_append ht hr']
  split
  · exact .none
  · exact .some (.inr h)

theorem afterEquals?_alike (h : Respaced AtSemicolon u u') :
    Option.Rel Alike (afterByte? equals u) (afterByte? equals u') := by
  obtain ⟨hx, hr, hr', hp⟩ := h
  rename_i x r r' y
  cases x with
  | nil =>
    obtain ⟨c, _, he, -, hc, -⟩ := exists_gap hr hp
    obtain ⟨c', _, he', -, hc', -⟩ := exists_gap hr' hp
    rw [List.nil_append, List.nil_append, he, he', afterByte?, afterByte?, if_neg hc, if_neg hc']
    exact .none
  | cons c x =>
    simp only [List.cons_append, afterByte?]
    split
    · rename_i hc
      subst hc
      have hx' : Settled x := (Settled.append_iff (a := [equals]) rfl).1 hx
      exact .some (.inr (.mk hx' hr hr' (hp.drop_left (f := [equals]) (.inr (by decide)))))
    · exact .none

/-- A quoted string that is not closed leaves its reader inside. -/
theorem behind_of_more {pos : Nat} {input : Bytes} (h : quotedTail () pos input = .more) :
    Quote.inside.behind input ≠ .outside := by
  fun_induction quotedTail () pos input with
  | case1 => decide
  | case2 => cases h
  | case3 => decide
  | case4 pos x rest hx _ ih => exact ih h
  | case5 => cases h
  | case6 pos b rest hq hs ht ih =>
    have hb : Quote.inside.step b = .inside := by simp only [Quote.step, if_neg hs, if_neg hq]
    have hrest : Quote.inside.behind (b :: rest) = (Quote.inside.step b).behind rest := rfl
    rw [hrest, hb]
    exact ih h
  | case7 => cases h

theorem afterQuoted?_alike {x r r' y : Bytes} (hx : Settled (dquote :: x)) (hr : Blanks r)
    (hr' : Blanks r') (hp : AtSemicolon (dquote :: x) y) :
    Option.Rel Alike (afterQuoted? (dquote :: x ++ (r ++ y)))
      (afterQuoted? (dquote :: x ++ (r' ++ y))) := by
  simp only [afterQuoted?, quotedString, List.cons_append, if_true]
  cases hq : quotedTail () (0 + 1) x with
  | more => exact absurd hx (behind_of_more hq)
  | fail e =>
    rw [quotedTail_append (r ++ y) (by simp [hq]),
      quotedTail_append (r' ++ y) (by simp [hq]), hq]
    exact .none
  | done _ next =>
    rw [quotedTail_append (r ++ y) (by simp [hq]),
      quotedTail_append (r' ++ y) (by simp [hq]), hq]
    obtain ⟨body, hbody, rfl⟩ := quotedTail_sound hq
    have hsplit : dquote :: (body ++ dquote :: next.rest) =
        dquote :: (body ++ [dquote]) ++ next.rest := by simp
    rw [hsplit] at hx hp
    have hclosed : Settled (dquote :: (body ++ [dquote])) :=
      (ParameterValue.quoted hbody).uncut.behind
    refine .some (.inr (.mk (hclosed.append_iff.1 hx) hr hr' (hp.drop_left (.inr ?_))))
    rw [← List.cons_append, List.getLast?_concat]
    exact fun h => absurd (Option.some.inj h) (by decide)

theorem behindValue?_alike (h : Respaced AtSemicolon u u') :
    Option.Rel Alike (behindValue? u) (behindValue? u') := by
  have htoken := afterToken?_alike h
  obtain ⟨hx, hr, hr', hp⟩ := h
  rename_i x r r' y
  rw [behindValue?, behindValue?]
  cases x with
  | nil =>
    obtain ⟨c, _, he, -, -, hc⟩ := exists_gap hr hp
    obtain ⟨c', _, he', -, -, hc'⟩ := exists_gap hr' hp
    rw [List.nil_append, List.nil_append] at htoken ⊢
    rw [if_neg (by rw [he]; exact fun h => hc (Option.some.inj h)),
      if_neg (by rw [he']; exact fun h => hc' (Option.some.inj h))]
    exact htoken
  | cons c x =>
    rw [List.cons_append, List.cons_append] at htoken ⊢
    by_cases hc : c = dquote
    · subst hc
      exact afterQuoted?_alike hx hr hr' hp
    · have hhead (z : Bytes) : (c :: z).head? ≠ some dquote := fun h => hc (Option.some.inj h)
      rw [if_neg (hhead _), if_neg (hhead _)]
      exact htoken

theorem afterParameter?_alike (h : Respaced AtSemicolon u u') :
    Option.Rel Alike (afterParameter? u) (afterParameter? u') := by
  rw [afterParameter?_eq, afterParameter?_eq]
  refine rel_bind (behindSemicolon?_alike h) fun _ _ h => ?_
  refine rel_bind (afterToken?_alike h) fun _ _ h => ?_
  exact rel_bind (afterEquals?_alike h) fun _ _ h => behindValue?_alike h

theorem respaced_ne_nil (h : Respaced AtSemicolon u u') : u ≠ [] :=
  List.ne_nil_of_mem h.semicolon_mem

/-- The induction is on what one of the texts leaves behind each parameter. -/
theorem isParameters_alike (h : Alike u u') (hu : isParameters u = true) :
    isParameters u' = true := by
  fun_induction isParameters u generalizing u' with
  | case1 u he =>
    obtain rfl | h := h
    · rw [isParameters, if_pos he]
    · exact absurd (List.isEmpty_iff.1 he) (respaced_ne_nil h)
  | case2 u he rest hrest ih =>
    obtain rfl | h := h
    · rw [isParameters, if_neg he]
      split
      · rename_i hr
        cases hrest.symm.trans hr
        exact hu
      · rename_i hr
        cases hrest.symm.trans hr
    · have hrel := afterParameter?_alike h
      have he' : ¬ u'.isEmpty := fun hn => respaced_ne_nil h.symm (List.isEmpty_iff.1 hn)
      rw [hrest] at hrel
      rw [isParameters, if_neg he']
      split
      · rename_i hr
        rw [hr] at hrel
        cases hrel with
        | some ha => exact ih ha hu
      · rename_i hr
        rw [hr] at hrel
        cases hrel
  | case3 => cases hu

theorem Coding.alike {name : Bytes} (h : Alike u u') (hc : Coding name u) : Coding name u' := by
  obtain rfl | h := h
  · exact hc
  obtain ⟨hn, hp⟩ := hc
  rename_i params
  obtain ⟨t, rest, rest', hu, rfl, ht, hr, -, hrest⟩ := token_alike h
  obtain rfl : name = t := by
    rw [← takeWhile_token hn hp.endsToken, hu, takeWhile_tokenBytes ht hr]
  obtain rfl : params = rest := List.append_cancel_left hu
  exact .mk hn (isParameters_iff.1 (isParameters_alike (.inr hrest) (isParameters_iff.2 hp)))

theorem forall₂_coding_alike {names items items' : List Bytes}
    (h : List.Forall₂ Alike items items') (hc : List.Forall₂ Coding names items) :
    List.Forall₂ Coding names items' := by
  induction h generalizing names with
  | nil => exact hc
  | cons ha _ ih =>
    obtain ⟨name, rest, hname, hrest, rfl⟩ := List.forall₂_cons_right_iff.1 hc
    exact .cons (hname.alike ha) (ih hrest)

end Alike

end TransferCoding

end OriginServer.Http
