import OriginServer.Http.Token
import OriginServer.Proofs.Scan

namespace OriginServer.Http

open Ascii Scanner

variable {ε : Type}

theorem quotedTail_quote (e : ε) (pos : Nat) (rest : Bytes) :
    quotedTail e pos (dquote :: rest) = .done () ⟨pos + 1, rest⟩ := by
  rw [quotedTail.eq_def]
  simp

theorem quotedTail_escape (e : ε) (pos : Nat) (x : UInt8) (rest : Bytes) :
    quotedTail e pos (backslash :: x :: rest) =
      if isEscapable x then quotedTail e (pos + 2) rest else .fail e := by
  have hb : ¬ backslash = dquote := by decide
  rw [quotedTail.eq_def]
  simp [hb]

theorem quotedTail_text (e : ε) (pos : Nat) {b : UInt8} (rest : Bytes) (hq : b ≠ dquote)
    (hs : b ≠ backslash) :
    quotedTail e pos (b :: rest) =
      if isQuotedText b then quotedTail e (pos + 1) rest else .fail e := by
  rw [quotedTail.eq_def]
  simp [hq, hs]

theorem quotedTail_append {e : ε} {pos : Nat} {input : Bytes} (later : Bytes)
    (h : quotedTail e pos input ≠ .more) :
    quotedTail e pos (input ++ later) = (quotedTail e pos input).append later := by
  fun_induction quotedTail e pos input with
  | case1 => exact absurd rfl h
  | case2 => exact quotedTail_quote _ _ _
  | case3 => exact absurd rfl h
  | case4 pos x rest hx _ ih =>
    rw [List.cons_append, List.cons_append, quotedTail_escape, if_pos hx]
    exact ih h
  | case5 pos x rest hx _ =>
    rw [List.cons_append, List.cons_append, quotedTail_escape, if_neg hx]
    rfl
  | case6 pos b rest hq hs ht ih =>
    rw [List.cons_append, quotedTail_text _ _ _ hq hs, if_pos ht]
    exact ih h
  | case7 pos b rest hq hs ht =>
    rw [List.cons_append, quotedTail_text _ _ _ hq hs, if_neg ht]
    rfl

/-- The rest of a quoted string is read in the same way before any other input. -/
theorem quotedTail_closed {e : ε} {pos : Nat} {input : Bytes} {next : Cursor}
    (h : quotedTail e pos input = .done () next) :
    ∃ taken : Bytes, input = taken ++ next.rest ∧ next.pos = pos + taken.length ∧
      ∀ tail : Bytes, quotedTail e pos (taken ++ tail) = .done () ⟨next.pos, tail⟩ := by
  fun_induction quotedTail e pos input with
  | case1 => cases h
  | case2 =>
    cases h
    exact ⟨[dquote], rfl, rfl, fun tail => quotedTail_quote _ _ _⟩
  | case3 => cases h
  | case4 pos x rest hx _ ih =>
    obtain ⟨t, ht, hp, hc⟩ := ih h
    refine ⟨backslash :: x :: t, by simp [ht], by simp [hp]; omega, fun tail => ?_⟩
    rw [List.cons_append, List.cons_append, quotedTail_escape, if_pos hx]
    exact hc tail
  | case5 => cases h
  | case6 pos b rest hq hs ht ih =>
    obtain ⟨t, hr, hp, hc⟩ := ih h
    refine ⟨b :: t, by simp [hr], by simp [hp]; omega, fun tail => ?_⟩
    rw [List.cons_append, quotedTail_text _ _ _ hq hs, if_pos ht]
    exact hc tail
  | case7 => cases h

/-- A quoted string is steady behind its opening quote. -/
theorem quotedString_append {e : ε} {c : Cursor} (later : Bytes) (hq : c.rest.head? = some dquote)
    (h : quotedString e c ≠ .more) :
    quotedString e (c.append later) = (quotedString e c).append later := by
  obtain ⟨pos, rest⟩ := c
  obtain ⟨rest, rfl⟩ := List.head?_eq_some_iff.1 hq
  simp only [quotedString, Cursor.append, List.cons_append, if_true] at h ⊢
  exact quotedTail_append later h

theorem closed_quotedString (e : ε) : (quotedString e).Closed := by
  rintro ⟨pos, rest⟩ ⟨⟩ next h
  cases rest with
  | nil => cases h
  | cons b rest =>
    by_cases hb : b = dquote
    · simp only [quotedString, hb, if_true] at h
      obtain ⟨t, ht, hp, hc⟩ := quotedTail_closed h
      refine ⟨dquote :: t, by simp [hb, ht], by simp [hp]; omega, fun tail => ?_⟩
      simp only [quotedString, List.cons_append, if_true]
      exact hc tail
    · simp [quotedString, hb] at h

section Grammar

/-- What may stand between the quotes of a quoted string. -/
inductive QuotedBody : Bytes → Prop
  | nil : QuotedBody []
  | text {b : UInt8} {body : Bytes} (hb : isQuotedText b = true) (h : QuotedBody body) :
    QuotedBody (b :: body)
  | escape {x : UInt8} {body : Bytes} (hx : isEscapable x = true) (h : QuotedBody body) :
    QuotedBody (backslash :: x :: body)

theorem isQuotedText_ne {b : UInt8} (h : isQuotedText b = true) : b ≠ dquote ∧ b ≠ backslash := by
  constructor
  · rintro rfl
    exact absurd h (by decide)
  · rintro rfl
    exact absurd h (by decide)

theorem quotedTail_complete {body : Bytes} (h : QuotedBody body) (e : ε) (pos : Nat)
    (rest : Bytes) :
    quotedTail e pos (body ++ dquote :: rest) = .done () ⟨pos + body.length + 1, rest⟩ := by
  induction h generalizing pos with
  | nil => exact quotedTail_quote _ _ _
  | @text b body hb _ ih =>
    obtain ⟨hq, hs⟩ := isQuotedText_ne hb
    rw [List.cons_append, quotedTail_text _ _ _ hq hs, if_pos hb, ih, List.length_cons,
      Nat.add_assoc pos 1, Nat.add_comm 1]
  | @escape x body hx _ ih =>
    rw [List.cons_append, List.cons_append, quotedTail_escape, if_pos hx, ih, List.length_cons,
      List.length_cons, Nat.add_assoc pos 2, Nat.add_comm 2]

theorem quotedTail_sound {e : ε} {pos : Nat} {input : Bytes} {next : Cursor}
    (h : quotedTail e pos input = .done () next) :
    ∃ body, QuotedBody body ∧ input = body ++ dquote :: next.rest := by
  fun_induction quotedTail e pos input with
  | case1 => cases h
  | case2 =>
    cases h
    exact ⟨[], .nil, rfl⟩
  | case3 => cases h
  | case4 pos x rest hx _ ih =>
    obtain ⟨body, hb, hr⟩ := ih h
    exact ⟨backslash :: x :: body, .escape hx hb, by rw [hr]; rfl⟩
  | case5 => cases h
  | case6 pos b rest hq hs ht ih =>
    obtain ⟨body, hb, hr⟩ := ih h
    exact ⟨b :: body, .text ht hb, by rw [hr]; rfl⟩
  | case7 => cases h

/-- A quoted string that is not closed yet may be closed, behind one more byte after an escape that
was cut in half. -/
theorem quotedTail_unfinished {e : ε} {pos : Nat} {input : Bytes}
    (h : quotedTail e pos input = .more) : ∃ body, QuotedBody body ∧ input <+: body := by
  fun_induction quotedTail e pos input with
  | case1 => exact ⟨[], .nil, List.nil_prefix⟩
  | case2 => cases h
  | case3 =>
    exact ⟨[backslash, sp], .escape (by decide) .nil, List.prefix_append [backslash] [sp]⟩
  | case4 pos x rest hx _ ih =>
    obtain ⟨body, hb, hpre⟩ := ih h
    exact ⟨backslash :: x :: body, .escape hx hb,
      (List.prefix_cons_inj _).2 ((List.prefix_cons_inj _).2 hpre)⟩
  | case5 => cases h
  | case6 pos b rest hq hs ht ih =>
    obtain ⟨body, hb, hpre⟩ := ih h
    exact ⟨b :: body, .text ht hb, (List.prefix_cons_inj _).2 hpre⟩
  | case7 => cases h

theorem afterQuoted?_complete {body : Bytes} (h : QuotedBody body) (rest : Bytes) :
    afterQuoted? (dquote :: (body ++ dquote :: rest)) = some rest := by
  simp only [afterQuoted?, quotedString, if_true, quotedTail_complete h]

theorem afterQuoted?_sound {input rest : Bytes} (h : afterQuoted? input = some rest) :
    ∃ body, QuotedBody body ∧ input = dquote :: (body ++ dquote :: rest) := by
  cases input with
  | nil => cases h
  | cons b tail =>
    by_cases hb : b = dquote
    · simp only [afterQuoted?, quotedString, if_pos hb] at h
      split at h
      · rename_i next hn
        cases h
        obtain ⟨body, hq, hr⟩ := quotedTail_sound hn
        exact ⟨body, hq, by rw [hb, hr]⟩
      · cases h
    · simp [afterQuoted?, quotedString, hb] at h

end Grammar

end OriginServer.Http
