import OriginServer.Proofs.Http.TransferCoding

namespace OriginServer.Http

open Ascii FieldList TransferCoding

namespace ContentLength

/-- A string of digits stands for a length of at most 64 bits. -/
def Denotes (n : Nat) (item : Bytes) : Prop :=
  item ≠ [] ∧ (∀ b ∈ item, isDigit b = true) ∧ Numeral.ofDecimal item = n ∧ n < 2 ^ 64

/-- A list all of whose elements stand for one length. -/
def LengthList (n : Nat) (value : Bytes) : Prop :=
  ∃ items, Listed items value ∧ ∀ item ∈ items, Denotes n item

theorem read_iff {item : Bytes} {n : Nat} : read item = .ok n ↔ Denotes n item := by
  simp only [read, Numeral.decimal?, Denotes]
  by_cases hi : item.isEmpty || !item.all isDigit
  · have hn : ¬ (item ≠ [] ∧ ∀ b ∈ item, isDigit b = true) := by
      rintro ⟨hn, hd⟩
      simp [hn, List.all_eq_true.2 hd] at hi
    simp only [if_pos hi]
    constructor
    · intro h
      cases h
    · rintro ⟨h₁, h₂, -⟩
      exact absurd ⟨h₁, h₂⟩ hn
  · have hd : item ≠ [] ∧ ∀ b ∈ item, isDigit b = true := by
      simpa [List.all_eq_true] using hi
    simp only [if_neg hi, Option.filter_some]
    by_cases hw : Numeral.ofDecimal item < Numeral.wordLimit
    · simp only [decide_eq_true hw, if_true, Except.ok.injEq]
      exact ⟨fun h => ⟨hd.1, hd.2, h, h ▸ hw⟩, fun h => h.2.2.1⟩
    · simp only [decide_eq_false hw]
      constructor
      · intro h
        cases h
      · rintro ⟨-, -, rfl, h⟩
        exact absurd h hw

theorem Denotes.solid {n : Nat} {item : Bytes} (h : Denotes n item) : Solid item := by
  obtain ⟨hn, hd, -, -⟩ := h
  have hb : ∀ b ∈ item, isFoldedBlank b = false := fun b hb =>
    isFoldedBlank_of_token (by simp [isTokenByte, isAlphanum, hd b hb])
  refine ⟨hn, fun b hm => hb b (List.mem_of_head? hm), fun b hm => hb b (List.mem_of_getLast? hm),
    uncut_plain fun b hm => ?_⟩
  have hp := hd b hm
  constructor <;> rintro rfl <;> exact absurd hp (by decide)

/-- One more element agrees with the length known so far. -/
theorem agree_item (known : Option Nat) (item : Bytes) (l : Option Nat) :
    (do let n ← read item
        if known.any (· != n) then throw ParseError.invalidContentLength
        return some n) = .ok l ↔
      ∃ n, l = some n ∧ (∀ k ∈ known, k = n) ∧ Denotes n item := by
  simp only [bind_eq_ok, read_iff]
  refine exists_congr fun n => ?_
  by_cases hk : known.any (· != n) = true
  · rw [if_pos hk]
    obtain ⟨k, hm, hne⟩ := (Option.any_eq_true _ _).1 hk
    constructor
    · rintro ⟨-, h⟩
      cases h
    · rintro ⟨-, ha, -⟩
      exact absurd (ha k hm) (by simpa using hne)
  · have ha : ∀ k ∈ known, k = n := by
      intro k hm
      by_cases he : k = n
      · exact he
      · exact absurd ((Option.any_eq_true _ _).2 ⟨k, hm, by simpa using he⟩) hk
    rw [if_neg hk, pure_eq_ok, eq_comm (a := l)]
    exact ⟨fun h => ⟨h.2, ha, h.1⟩, fun h => ⟨h.2.2, h.1⟩⟩

/-- One more field value agrees with the length known so far. -/
theorem agree_iff (known : Option Nat) (value : Bytes) (l : Option Nat) :
    agree known value = .ok l ↔
      ∃ n, l = some n ∧ (∀ k ∈ known, k = n) ∧ LengthList n value := by
  constructor
  · intro h
    simp only [agree] at h
    split at h
    · cases h
    · rename_i spans hs
      have hl := split_sound hs
      have hn : spans ≠ [] := fun he => hl.ne_nil (by rw [he]; rfl)
      obtain ⟨n, rfl, hk, hd⟩ :=
        (foldlM_agree (fun known item l => agree_item known (item.of value) l) hn).1 h
      exact ⟨n, rfl, hk, _, hl, List.forall_mem_map.2 hd⟩
  · rintro ⟨n, rfl, hk, items, hl, hd⟩
    obtain ⟨spans, hs, rfl⟩ := split_complete hl fun item hi => (hd item hi).solid
    have hn : spans ≠ [] := fun he => hl.ne_nil (by rw [he]; rfl)
    simp only [agree, hs]
    exact (foldlM_agree (fun known item l => agree_item known (item.of value) l) hn).2
      ⟨n, rfl, hk, fun span hm => hd _ (List.mem_map_of_mem hm)⟩

theorem read_eq_error {item : Bytes} {e : ParseError} (h : read item = .error e) :
    e = .invalidContentLength := by
  simp only [read] at h
  split at h
  · cases h
  · cases h
    rfl

theorem agree_eq_error {known : Option Nat} {value : Bytes} {e : ParseError}
    (h : agree known value = .error e) : e = .invalidContentLength := by
  simp only [agree] at h
  split at h
  · cases h
    rfl
  · obtain ⟨known, item, h⟩ := foldlM_eq_error h
    obtain h | ⟨n, -, h⟩ := bind_eq_error.1 h
    · exact read_eq_error h
    · split at h
      · cases h
        rfl
      · cases h

end ContentLength

namespace Framing

open ContentLength

/-- The framing that fields announce. A chunked body is the last coding and no other, and comes
without a length; a length is the same in every element of every field. -/
def Announced (fields : List (Bytes × Bytes)) : Framing → Prop
  | .chunked =>
    valuesOf "transfer-encoding" fields ≠ [] ∧ valuesOf "content-length" fields = [] ∧
      ∃ names, List.Forall₂ CodingList names (valuesOf "transfer-encoding" fields) ∧
        ∃ front last, names.flatten = front ++ [last] ∧ isChunked last = true ∧
          ∀ coding ∈ front, isChunked coding = false
  | .length n =>
    valuesOf "transfer-encoding" fields = [] ∧ valuesOf "content-length" fields ≠ [] ∧
      ∀ value ∈ valuesOf "content-length" fields, LengthList n value
  | .empty =>
    valuesOf "transfer-encoding" fields = [] ∧ valuesOf "content-length" fields = []

variable {fields fields' : List (Bytes × Bytes)}

theorem codings_iff {codings : List Bytes} :
    Framing.codings fields = .ok codings ↔
      ∃ names, List.Forall₂ CodingList names (valuesOf "transfer-encoding" fields) ∧
        names.flatten = codings := by
  have hv : ∀ (names : List Bytes) (value : Bytes),
      (do return (← TransferCoding.names value).map (·.of value)) = Except.ok names ↔
        CodingList names value := by
    intro names value
    rw [bind_eq_ok, ← names_iff]
    simp only [pure_eq_ok]
  simp only [Framing.codings, bind_eq_ok, pure_eq_ok, mapM_eq_ok, hv]

theorem codings_eq_nil {names : List (List Bytes)} {values : List Bytes}
    (h : List.Forall₂ CodingList names values) : names.flatten = [] ↔ values = [] := by
  cases h with
  | nil => simp
  | cons hc _ => simp [hc.ne_nil]

theorem contentLength_none :
    contentLength fields = .ok none ↔ valuesOf "content-length" fields = [] := by
  constructor
  · intro h
    by_cases hn : valuesOf "content-length" fields = []
    · exact hn
    · obtain ⟨n, hs, -⟩ := (foldlM_agree agree_iff hn).1 h
      cases hs
  · intro h
    rw [contentLength, h]
    rfl

theorem contentLength_some {n : Nat} :
    contentLength fields = .ok (some n) ↔
      valuesOf "content-length" fields ≠ [] ∧
        ∀ value ∈ valuesOf "content-length" fields, LengthList n value := by
  by_cases hn : valuesOf "content-length" fields = []
  · constructor
    · intro h
      rw [contentLength_none.2 hn] at h
      cases h
    · exact fun h => absurd hn h.1
  · rw [contentLength, foldlM_agree agree_iff hn]
    constructor
    · rintro ⟨m, hm, -, h⟩
      cases hm
      exact ⟨hn, h⟩
    · rintro ⟨-, h⟩
      refine ⟨n, rfl, fun k hk => ?_, h⟩
      cases hk

/-- Decides from the codings and the length. -/
def choose (codings : List Bytes) (length : Option Nat) : Except ParseError Framing :=
  match codings.getLast?, length with
  | none, none => .ok .empty
  | none, some n => .ok (.length n)
  | some _, some _ => .error .conflictingFraming
  | some last, none =>
    if isChunked last && !codings.dropLast.any isChunked then .ok .chunked
    else .error .invalidTransferEncoding

theorem decide_eq_ok {framing : Framing} :
    Framing.decide fields = .ok framing ↔
      ∃ codings, Framing.codings fields = .ok codings ∧
        ∃ length, contentLength fields = .ok length ∧ choose codings length = .ok framing := by
  simp only [Framing.decide, bind_eq_ok]
  rfl

theorem choose_nil (length : Option Nat) :
    choose [] length = .ok (length.elim .empty .length) := by
  cases length <;> rfl

theorem choose_concat {front : List Bytes} {last : Bytes} {length : Option Nat}
    {framing : Framing} :
    choose (front ++ [last]) length = .ok framing ↔
      length = none ∧ framing = .chunked ∧ isChunked last = true ∧
        ∀ coding ∈ front, isChunked coding = false := by
  cases length with
  | some n => simp [choose]
  | none =>
    simp only [choose, List.getLast?_concat, List.dropLast_concat]
    by_cases h : isChunked last && !front.any isChunked
    · rw [if_pos h]
      simp only [Bool.and_eq_true, Bool.not_eq_true', List.any_eq_false, Bool.not_eq_true] at h
      rw [Except.ok.injEq]
      exact ⟨fun he => ⟨trivial, he.symm, h⟩, fun he => he.2.1.symm⟩
    · rw [if_neg h]
      simp only [Bool.and_eq_true, Bool.not_eq_true', List.any_eq_false, Bool.not_eq_true] at h
      simp only [true_and, reduceCtorEq, false_iff]
      exact fun hf => h hf.2

/-- A framing is decided if and only if the fields announce it. -/
theorem decide_iff_announced {framing : Framing} :
    Framing.decide fields = .ok framing ↔ Announced fields framing := by
  rw [decide_eq_ok]
  constructor
  · rintro ⟨codings, hc, length, hl, h⟩
    obtain ⟨names, hn, rfl⟩ := codings_iff.1 hc
    obtain he | ⟨front, last, he⟩ := List.eq_nil_or_concat' names.flatten
    · have ht := (codings_eq_nil hn).1 he
      rw [he, choose_nil] at h
      cases length with
      | none =>
        cases h
        exact ⟨ht, contentLength_none.1 hl⟩
      | some n =>
        cases h
        exact ⟨ht, contentLength_some.1 hl⟩
    · rw [he] at h
      obtain ⟨rfl, rfl, hlast, hfront⟩ := choose_concat.1 h
      refine ⟨fun ht => ?_, contentLength_none.1 hl, names, hn, front, last, he, hlast, hfront⟩
      rw [(codings_eq_nil hn).2 ht] at he
      simp at he
  · intro h
    cases framing with
    | empty =>
      obtain ⟨ht, hl⟩ := h
      exact ⟨[], codings_iff.2 ⟨[], by rw [ht]; exact .nil, rfl⟩, none, contentLength_none.2 hl,
        rfl⟩
    | length n =>
      obtain ⟨ht, hl⟩ := h
      exact ⟨[], codings_iff.2 ⟨[], by rw [ht]; exact .nil, rfl⟩, some n, contentLength_some.2 hl,
        rfl⟩
    | chunked =>
      obtain ⟨-, hl, names, hn, front, last, he, hlast, hfront⟩ := h
      exact ⟨_, codings_iff.2 ⟨names, hn, he⟩, none, contentLength_none.2 hl,
        choose_concat.2 ⟨rfl, rfl, hlast, hfront⟩⟩

theorem codings_eq_error {e : ParseError} (h : Framing.codings fields = .error e) :
    e = .invalidTransferEncoding := by
  obtain h | ⟨_, -, h⟩ := bind_eq_error.1 h
  · obtain ⟨value, -, h⟩ := mapM_eq_error h
    obtain h | ⟨_, -, h⟩ := bind_eq_error.1 h
    · exact names_eq_error h
    · cases h
  · cases h

theorem contentLength_eq_error {e : ParseError} (h : contentLength fields = .error e) :
    e = .invalidContentLength := by
  obtain ⟨_, _, h⟩ := foldlM_eq_error h
  exact agree_eq_error h

/-- The framing depends on the codings and the length alone, and each of them is refused for one
cause only. -/
theorem decide_congr
    (hc : ∀ codings, Framing.codings fields = .ok codings ↔ Framing.codings fields' = .ok codings)
    (hl : ∀ l, contentLength fields = .ok l ↔ contentLength fields' = .ok l) :
    Framing.decide fields = Framing.decide fields' := by
  have hcodings : Framing.codings fields = Framing.codings fields' :=
    eq_of_ok_iff (fun _ => codings_eq_error) (fun _ => codings_eq_error) hc
  have hlength : contentLength fields = contentLength fields' :=
    eq_of_ok_iff (fun _ => contentLength_eq_error) (fun _ => contentLength_eq_error) hl
  rw [Framing.decide, Framing.decide, hcodings, hlength]

/-- The end of a body is found in one way or the message is refused. -/
theorem decide_unambiguous (fields : List (Bytes × Bytes)) :
    (∀ framing, Framing.decide fields = .ok framing ↔ Announced fields framing) ∧
      ((∀ framing, ¬ Announced fields framing) ↔
        ∃ cause, Framing.decide fields = .error cause) := by
  refine ⟨fun _ => decide_iff_announced, ?_⟩
  simp only [← decide_iff_announced]
  cases Framing.decide fields with
  | error cause => simp
  | ok framing => simp

end Framing

end OriginServer.Http
