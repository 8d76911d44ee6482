import OriginServer.Proofs.Http.ChunkGrammar
import OriginServer.Proofs.Http.StartLine
import OriginServer.Proofs.Spelling

namespace OriginServer.Http

open Ascii Scanner Chunked

section Version

def digitValue (b : UInt8) : Nat := (b - 0x30).toNat

/-- One decimal digit. -/
def DigitForm (text : Bytes) (n : Nat) : Prop :=
  ∃ b, isDigit b = true ∧ text = [b] ∧ n = digitValue b

/-- A version, without the white space in front of it. -/
structure VersionText where
  mark : Bytes
  major : UInt8
  minor : UInt8
  mark_letters : mark.sameLetters Version.mark = true
  major_digit : isDigit major = true
  minor_digit : isDigit minor = true

def VersionText.bytes (t : VersionText) : Bytes := t.mark ++ [t.major, dot, t.minor]

def VersionText.value (t : VersionText) : Version := ⟨digitValue t.major, digitValue t.minor⟩

/-- A version behind optional white space. -/
def VersionForm (text : Bytes) (v : Version) : Prop :=
  ∃ (before : Bytes) (t : VersionText), Blank before ∧ text = before ++ t.bytes ∧ v = t.value

/-- The reader of a version behind the white space, without the look at the next byte. -/
def versionNumber : Scanner ParseError Version := do
  caseless Version.mark .invalidVersion
  let major ← digit .invalidVersion
  byte dot .invalidVersion
  let minor ← digit .invalidVersion
  return ⟨major, minor⟩

/-- The reader of a version without the look at the next byte. -/
def versionForm : Scanner ParseError Version := do
  let _ ← run isBlank
  versionNumber

theorem version_eq :
    version =
      versionForm >>= fun v => notBefore isDigit .invalidVersion >>= fun _ => Pure.pure v := by
  simp only [version, versionForm, versionNumber, bind_assoc, pure_bind]

theorem joined_digit_iff (pos : Nat) (text : Bytes) (n : Nat) :
    DigitForm text n ↔
      Joined (fun _ text b => text = [b] ∧ isDigit b = true)
        (fun b _ text n => text = [] ∧ n = digitValue b) pos text n := by
  constructor
  · rintro ⟨b, hb, rfl, rfl⟩
    exact ⟨[b], b, [], ⟨rfl, hb⟩, ⟨rfl, rfl⟩, rfl⟩
  · rintro ⟨_, b, _, ⟨rfl, hb⟩, ⟨rfl, rfl⟩, rfl⟩
    exact ⟨b, hb, rfl, rfl⟩

theorem spells_digit (e : ParseError) : (digit e).Spells fun _ => DigitForm :=
  ((spells_satisfy isDigit e).bind fun _ => spells_pure _).of_iff joined_digit_iff

theorem anticipates_digit (e : ParseError) : (digit e).Anticipates fun _ => DigitForm :=
  (Anticipates.bind (spells_satisfy isDigit e)
    (anticipates_satisfy isDigit (show isDigit 0x30 = true by decide) e) fun _ =>
      anticipates_pure _).of_iff joined_digit_iff

theorem joined_versionNumber_iff (pos : Nat) (text : Bytes) (v : Version) :
    (∃ t : VersionText, text = t.bytes ∧ v = t.value) ↔
      Joined (fun _ text (_ : Unit) => text.sameLetters Version.mark = true)
        (fun _ => Joined (fun _ => DigitForm)
          fun major => Joined (fun _ text (_ : Unit) => text = [dot])
            fun _ => Joined (fun _ => DigitForm)
              fun minor _ text v => text = [] ∧ v = ⟨major, minor⟩) pos text v := by
  constructor
  · rintro ⟨⟨mark, major, minor, hmark, hmajor, hminor⟩, rfl, rfl⟩
    exact ⟨mark, (), _, hmark, ⟨[major], _, _, ⟨major, hmajor, rfl, rfl⟩,
      ⟨[dot], (), _, rfl, ⟨[minor], _, [], ⟨minor, hminor, rfl, rfl⟩, ⟨rfl, rfl⟩, rfl⟩, rfl⟩, rfl⟩,
      rfl⟩
  · rintro ⟨mark, _, _, hmark, ⟨_, _, _, ⟨major, hmajor, rfl, rfl⟩, ⟨_, _, _, rfl,
      ⟨_, _, _, ⟨minor, hminor, rfl, rfl⟩, ⟨rfl, rfl⟩, rfl⟩, rfl⟩, rfl⟩, rfl⟩
    exact ⟨⟨mark, major, minor, hmark, hmajor, hminor⟩, rfl, rfl⟩

theorem spells_versionNumber :
    versionNumber.Spells fun _ text v => ∃ t : VersionText, text = t.bytes ∧ v = t.value :=
  ((spells_caseless _ _).bind fun _ => (spells_digit _).bind fun _ => (spells_byte _ _).bind
    fun _ => (spells_digit _).bind fun _ => spells_pure _).of_iff joined_versionNumber_iff

theorem anticipates_versionNumber :
    versionNumber.Anticipates fun _ text v => ∃ t : VersionText, text = t.bytes ∧ v = t.value :=
  (Anticipates.bind (spells_caseless _ _) (anticipates_caseless _ _) fun _ =>
    Anticipates.bind (spells_digit _) (anticipates_digit _) fun _ =>
      Anticipates.bind (spells_byte _ _) (anticipates_byte _ _) fun _ =>
        Anticipates.bind (spells_digit _) (anticipates_digit _) fun _ =>
          anticipates_pure _).of_iff joined_versionNumber_iff

theorem VersionText.bytes_eq_cons (t : VersionText) :
    ∃ x rest, t.bytes = x :: rest ∧ isBlank x = false := by
  obtain ⟨mark, major, minor, hmark, -, -⟩ := t
  cases mark with
  | nil => exact absurd hmark (by decide)
  | cons x mark =>
    refine ⟨x, _, rfl, ?_⟩
    have hx : toLower x = 0x68 := by
      have hletters := beq_iff_eq.1 hmark
      exact (List.cons.inj hletters).1
    cases hb : isBlank x with
    | false => rfl
    | true =>
      simp only [isBlank, Bool.or_eq_true, beq_iff_eq] at hb
      rcases hb with rfl | rfl <;> exact absurd hx (by decide)

theorem joined_versionForm_iff (pos : Nat) (text : Bytes) (v : Version) :
    VersionForm text v ↔
      Joined (fun _ text s => text = s ∧ (∀ x ∈ s, isBlank x = true) ∧ True)
        (fun _ _ text v => ∃ t : VersionText, text = t.bytes ∧ v = t.value) pos text v := by
  constructor
  · rintro ⟨before, t, hb, rfl, rfl⟩
    exact ⟨before, before, _, ⟨rfl, hb, trivial⟩, ⟨t, rfl, rfl⟩, rfl⟩
  · rintro ⟨_, before, _, ⟨rfl, hb, -⟩, ⟨t, rfl, rfl⟩, rfl⟩
    exact ⟨_, t, hb, rfl, rfl⟩

theorem spells_versionForm : versionForm.Spells fun _ => VersionForm := by
  refine (Spells.run_bind (fun _ _ _ => by rw [and_true]) (fun _ => spells_versionNumber)
    ?_).of_iff joined_versionForm_iff
  rintro _ pos _ v ⟨t, rfl, rfl⟩
  exact t.bytes_eq_cons

theorem anticipates_versionForm : versionForm.Anticipates fun _ => VersionForm :=
  (Anticipates.run_bind fun _ => anticipates_versionNumber).of_iff joined_versionForm_iff

theorem version_eq_done {c next : Cursor} {v : Version} :
    version c = .done v next ↔
      versionForm c = .done v next ∧ ∀ b ∈ next.rest.head?, isDigit b = false := by
  rw [version_eq]
  constructor
  · intro h
    obtain ⟨_, mid, hm, h⟩ := bind_eq_done h
    obtain ⟨_, _, hn, h⟩ := bind_eq_done h
    obtain ⟨rfl, rfl⟩ := pure_eq_done h
    obtain ⟨rfl, hhead⟩ := notBefore_eq_done hn
    exact ⟨hm, hhead⟩
  · rintro ⟨hm, hhead⟩
    rw [bind_of_done hm, bind_of_done (notBefore_of_head hhead)]
    rfl

theorem version_eq_more {c : Cursor} (h : version c = .more) : versionForm c = .more := by
  rw [version_eq] at h
  obtain h | ⟨v, mid, -, h⟩ := bind_eq_more h
  · exact h
  obtain h | ⟨_, _, -, h⟩ := bind_eq_more h
  · exact absurd h notBefore_ne_more
  · cases h

/-- A version begun is a version at the end of some more input, where no digit follows it. -/
theorem viable_version : version.Viable := by
  intro c h
  obtain ⟨_, v, ht, later, rfl⟩ := anticipates_versionForm.unfinished (version_eq_more h)
  have hdone : versionForm (c.append later) =
      .done v ⟨c.pos + (c.rest ++ later).length, []⟩ :=
    spells_versionForm.done_iff.2 ⟨_, ht, (List.append_nil _).symm, rfl⟩
  exact ⟨later, v, _, version_eq_done.2 ⟨hdone, nofun⟩⟩

theorem recognises_version (c : Cursor) :
    version.Recognises
      (fun text v rest => VersionForm text v ∧ ∀ b ∈ rest.head?, isDigit b = false) c := by
  have hf : ∀ e later, version c = .fail e → version (c.append later) = .fail e :=
    fun _ later => steadyInside_version.fail later
  refine ⟨fun v next => ?_, more_iff hf (viable_version c), fail_iff hf (viable_version c)⟩
  rw [version_eq_done, spells_versionForm.done_iff]
  constructor
  · rintro ⟨⟨text, ht, hr, hp⟩, hhead⟩
    exact ⟨text, ⟨ht, hhead⟩, hr, hp⟩
  · rintro ⟨text, ⟨ht, hhead⟩, hr, hp⟩
    exact ⟨⟨text, ht, hr, hp⟩, hhead⟩

variable {α : Type} {q : Version → Scanner ParseError α}
  {later : Version → Nat → Bytes → α → Prop}

/-- The texts behind a version do not go on with its digits. -/
def Undigited (later : Version → Nat → Bytes → α → Prop) : Prop :=
  ∀ v pos text a, later v pos text a → ∃ x rest, text = x :: rest ∧ isDigit x = false

theorem Undigited.head (hl : Undigited later) {v : Version} {pos : Nat} {text : Bytes} {a : α}
    (h : later v pos text a) : ∀ x ∈ text.head?, isDigit x = false := by
  obtain ⟨x, rest, rfl, hx⟩ := hl v pos text a h
  rintro _ ⟨⟩
  exact hx

theorem Undigited.joined_iff (hl : Undigited later) (pos : Nat) (text : Bytes) (a : α) :
    Joined (fun _ => VersionForm) later pos text a ↔
      Joined (fun _ => VersionForm)
        (fun v pos text a => later v pos text a ∧ ∀ x ∈ text.head?, isDigit x = false)
        pos text a := by
  constructor
  · rintro ⟨front, v, back, hfront, hback, rfl⟩
    exact ⟨front, v, back, hfront, ⟨hback, hl.head hback⟩, rfl⟩
  · rintro ⟨front, v, back, hfront, ⟨hback, -⟩, rfl⟩
    exact ⟨front, v, back, hfront, hback, rfl⟩

theorem version_bind (q : Version → Scanner ParseError α) :
    version >>= q =
      versionForm >>= fun v => notBefore isDigit .invalidVersion >>= fun _ => q v := by
  simp only [version_eq, bind_assoc, pure_bind]

theorem spells_version_bind (hq : ∀ v, (q v).Spells (later v)) (hl : Undigited later) :
    (version >>= q).Spells (Joined (fun _ => VersionForm) later) := by
  rw [version_bind]
  refine (spells_versionForm.bind fun v => (hq v).notBefore_bind ?_).of_iff hl.joined_iff
  rintro pos text a h rfl
  obtain ⟨x, rest, hx, -⟩ := hl _ _ _ _ h
  cases hx

theorem anticipates_version_bind (hq : ∀ v, (q v).Anticipates (later v)) (hl : Undigited later) :
    (version >>= q).Anticipates (Joined (fun _ => VersionForm) later) := by
  rw [version_bind]
  exact (Anticipates.bind spells_versionForm anticipates_versionForm fun v =>
    (hq v).notBefore_bind fun _ _ _ => hl.head).of_iff hl.joined_iff

end Version

section Status

/-- A status line. -/
structure StatusText where
  before : Bytes
  version : VersionText
  hundreds : UInt8
  tens : UInt8
  ones : UInt8
  phrase : Bytes
  before_blank : Blank before
  hundreds_digit : isDigit hundreds = true
  tens_digit : isDigit tens = true
  ones_digit : isDigit ones = true
  phrase_bytes : ∀ b ∈ phrase, isPhraseByte b = true

namespace StatusText

/-- The line up to its phrase. -/
def front (t : StatusText) : Bytes :=
  t.before ++ t.version.bytes ++ [sp, t.hundreds, t.tens, t.ones, sp]

def bytes (t : StatusText) : Bytes := t.front ++ (t.phrase ++ [cr, lf])

def code (t : StatusText) : Nat :=
  100 * digitValue t.hundreds + 10 * digitValue t.tens + digitValue t.ones

/-- What the line says when it begins at `pos`. -/
def value (t : StatusText) (pos : Nat) : StatusLine :=
  ⟨t.version.value, t.code, ⟨pos + t.front.length, t.phrase.length⟩⟩

theorem front_length (t : StatusText) :
    t.front.length = (t.before ++ t.version.bytes).length + 5 := List.length_append

/-- The place of the phrase holds the phrase. -/
theorem value_of (t : StatusText) (behind : Bytes) :
    (t.value 0).phrase.of (t.bytes ++ behind) = t.phrase := by
  have hb : t.bytes ++ behind = t.front ++ (t.phrase ++ ([cr, lf] ++ behind)) := by
    simp [bytes]
  rw [hb]
  exact Span.of_middle (Nat.zero_add _) rfl _

end StatusText

/-- The status line behind its version. -/
def statusRest (v : Version) : Scanner ParseError StatusLine := do
  byte sp .invalidStatusLine
  let hundreds ← digit .invalidStatusLine
  let tens ← digit .invalidStatusLine
  let ones ← digit .invalidStatusLine
  byte sp .invalidStatusLine
  let start ← position
  let phrase ← run isPhraseByte
  lineEnd .invalidStatusLine
  return ⟨v, 100 * hundreds + 10 * tens + ones, ⟨start, phrase.length⟩⟩

theorem statusLine_eq : statusLine = version >>= statusRest := rfl

/-- What stands behind the version of a status line. -/
def StatusRest (v : Version) (pos : Nat) (text : Bytes) (l : StatusLine) : Prop :=
  ∃ hundreds tens ones phrase, isDigit hundreds = true ∧ isDigit tens = true ∧
    isDigit ones = true ∧ (∀ b ∈ phrase, isPhraseByte b = true) ∧
      text = [sp, hundreds, tens, ones, sp] ++ (phrase ++ [cr, lf]) ∧
        l = ⟨v, 100 * digitValue hundreds + 10 * digitValue tens + digitValue ones,
          ⟨pos + 5, phrase.length⟩⟩

theorem joined_statusRest_iff (v : Version) (pos : Nat) (text : Bytes) (l : StatusLine) :
    StatusRest v pos text l ↔
      Joined (fun _ text (_ : Unit) => text = [sp])
        (fun _ => Joined (fun _ => DigitForm) fun hundreds => Joined (fun _ => DigitForm)
          fun tens => Joined (fun _ => DigitForm) fun ones =>
            Joined (fun _ text (_ : Unit) => text = [sp]) fun _ =>
              Joined (fun pos text n => text = [] ∧ n = pos) fun start =>
                Joined (fun _ text s => text = s ∧ (∀ x ∈ s, isPhraseByte x = true) ∧ True)
                  fun phrase => Joined (fun _ text (_ : Unit) => text = [cr, lf])
                    fun _ _ text l => text = [] ∧
                      l = ⟨v, 100 * hundreds + 10 * tens + ones, ⟨start, phrase.length⟩⟩)
        pos text l := by
  constructor
  · rintro ⟨hundreds, tens, ones, phrase, hh, ht, ho, hp, rfl, rfl⟩
    exact ⟨[sp], (), _, rfl, ⟨[hundreds], _, _, ⟨hundreds, hh, rfl, rfl⟩,
      ⟨[tens], _, _, ⟨tens, ht, rfl, rfl⟩, ⟨[ones], _, _, ⟨ones, ho, rfl, rfl⟩,
        ⟨[sp], (), _, rfl, ⟨[], _, _, ⟨rfl, rfl⟩, ⟨phrase, phrase, _, ⟨rfl, hp, trivial⟩,
          ⟨[cr, lf], (), [], rfl, ⟨rfl, rfl⟩, rfl⟩, rfl⟩, rfl⟩, rfl⟩, rfl⟩, rfl⟩, rfl⟩, rfl⟩
  · rintro ⟨_, _, _, rfl, ⟨_, _, _, ⟨hundreds, hh, rfl, rfl⟩, ⟨_, _, _, ⟨tens, ht, rfl, rfl⟩,
      ⟨_, _, _, ⟨ones, ho, rfl, rfl⟩, ⟨_, _, _, rfl, ⟨_, _, _, ⟨rfl, rfl⟩,
        ⟨_, phrase, _, ⟨rfl, hp, -⟩, ⟨_, _, _, rfl, ⟨rfl, rfl⟩, rfl⟩, rfl⟩, rfl⟩, rfl⟩, rfl⟩,
          rfl⟩, rfl⟩, rfl⟩
    exact ⟨hundreds, tens, ones, _, hh, ht, ho, hp, rfl, rfl⟩

theorem spells_statusRest (v : Version) : (statusRest v).Spells (StatusRest v) := by
  refine ((spells_byte _ _).bind fun _ => (spells_digit _).bind fun _ => (spells_digit _).bind
    fun _ => (spells_digit _).bind fun _ => (spells_byte _ _).bind fun _ => spells_position.bind
      fun _ => Spells.run_bind (fun _ _ _ => by rw [and_true]) (fun _ => (spells_lineEnd _).bind
        fun _ => spells_pure _) ?_).of_iff (joined_statusRest_iff v)
  rintro _ _ _ _ ⟨_, _, _, rfl, -, rfl⟩
  exact ⟨cr, _, rfl, by decide⟩

theorem anticipates_statusRest (v : Version) : (statusRest v).Anticipates (StatusRest v) :=
  (Anticipates.bind (spells_byte _ _) (anticipates_byte _ _) fun _ =>
    Anticipates.bind (spells_digit _) (anticipates_digit _) fun _ =>
      Anticipates.bind (spells_digit _) (anticipates_digit _) fun _ =>
        Anticipates.bind (spells_digit _) (anticipates_digit _) fun _ =>
          Anticipates.bind (spells_byte _ _) (anticipates_byte _ _) fun _ =>
            Anticipates.bind spells_position anticipates_position fun _ =>
              Anticipates.run_bind fun _ =>
                Anticipates.bind (spells_lineEnd _) (anticipates_lineEnd _) fun _ =>
                  anticipates_pure _).of_iff (joined_statusRest_iff v)

theorem undigited_statusRest : Undigited StatusRest := by
  rintro v pos _ l ⟨_, _, _, _, -, -, -, -, rfl, -⟩
  exact ⟨sp, _, rfl, by decide⟩

theorem joined_status_iff (pos : Nat) (text : Bytes) (l : StatusLine) :
    (∃ t : StatusText, text = t.bytes ∧ l = t.value pos) ↔
      Joined (fun _ => VersionForm) StatusRest pos text l := by
  constructor
  · rintro ⟨t, rfl, rfl⟩
    refine ⟨_, t.version.value, _, ⟨t.before, t.version, t.before_blank, rfl, rfl⟩,
      ⟨t.hundreds, t.tens, t.ones, t.phrase, t.hundreds_digit, t.tens_digit, t.ones_digit,
        t.phrase_bytes, rfl, ?_⟩, List.append_assoc _ _ _⟩
    rw [StatusText.value, StatusText.front_length, ← Nat.add_assoc]
    rfl
  · rintro ⟨_, _, _, ⟨before, version, hb, rfl, rfl⟩, ⟨hundreds, tens, ones, phrase, hh, ht, ho, hp,
      rfl, rfl⟩, rfl⟩
    refine ⟨⟨before, version, hundreds, tens, ones, phrase, hb, hh, ht, ho, hp⟩,
      (List.append_assoc _ _ _).symm, ?_⟩
    rw [StatusText.value, StatusText.front_length, ← Nat.add_assoc]
    rfl

theorem spells_statusLine :
    statusLine.Spells fun pos text l => ∃ t : StatusText, text = t.bytes ∧ l = t.value pos := by
  rw [statusLine_eq]
  exact (spells_version_bind spells_statusRest undigited_statusRest).of_iff joined_status_iff

theorem anticipates_statusLine :
    statusLine.Anticipates fun pos text l =>
      ∃ t : StatusText, text = t.bytes ∧ l = t.value pos := by
  rw [statusLine_eq]
  exact (anticipates_version_bind anticipates_statusRest undigited_statusRest).of_iff
    joined_status_iff

theorem recognises_statusLine (c : Cursor) :
    statusLine.Recognises (fun text l _ => ∃ t : StatusText, text = t.bytes ∧ l = t.value c.pos)
      c :=
  spells_statusLine.recognises (anticipates_statusLine.viable spells_statusLine)
    fun _ later => steady_statusLine.fail later

end Status

section Quoted

variable {ε : Type}

/-- A quoted string, with its quotes. -/
def QuotedText (text : Bytes) : Prop :=
  ∃ body, QuotedBody body ∧ text = dquote :: (body ++ [dquote])

theorem spells_quotedString (e : ε) : (quotedString e).Spells fun _ text _ => QuotedText text := by
  constructor
  · rintro pos _ _ ⟨body, hb, rfl⟩ tail
    simp only [quotedString, List.cons_append, List.append_assoc, List.nil_append, if_true,
      quotedTail_complete hb, List.length_cons, List.length_append, List.length_nil]
    congr 2
    omega
  · rintro ⟨pos, rest⟩ next _ h
    cases rest with
    | nil => cases h
    | cons b rest =>
      simp only [quotedString] at h
      split at h
      · rename_i hb
        obtain ⟨body, hq, rfl⟩ := quotedTail_sound h
        exact ⟨_, ⟨body, hq, rfl⟩, by rw [hb]; simp⟩
      · cases h

theorem anticipates_quotedString (e : ε) :
    (quotedString e).Anticipates fun _ text _ => QuotedText text := by
  refine ⟨fun _ => ⟨_, (), [], .nil, rfl⟩, ?_⟩
  rintro ⟨pos, rest⟩ h
  cases rest with
  | nil => cases h
  | cons b rest =>
    simp only [quotedString] at h
    split at h
    · rename_i hb
      obtain ⟨body, hq, hpre⟩ := quotedTail_unfinished h
      refine ⟨_, (), ⟨body, hq, rfl⟩, ?_⟩
      rw [hb]
      exact (List.prefix_cons_inj _).2 (hpre.trans (List.prefix_append _ _))
    · cases h

/-- Where no input is left, a quoted string is refused. Elsewhere a refusal lasts. -/
theorem quotedString_fail {e e' : ε} {c : Cursor} (hc : c.rest ≠ []) (later : Bytes)
    (h : quotedString e c = .fail e') : quotedString e (c.append later) = .fail e' := by
  obtain ⟨b, rest, hr⟩ := List.exists_cons_of_ne_nil hc
  by_cases hb : b = dquote
  · rw [quotedString_append later (by rw [hr, hb]; rfl) (by simp [h]), h, Scan.append_fail]
  · simp only [quotedString, hr, if_neg hb] at h
    simp only [quotedString, Cursor.append_rest, hr, List.cons_append, if_neg hb, h]

theorem recognises_quotedString (e : ε) {c : Cursor} (hc : c.rest ≠ []) :
    (quotedString e).Recognises (fun text _ _ => QuotedText text) c :=
  (spells_quotedString e).recognises ((anticipates_quotedString e).viable (spells_quotedString e))
    fun _ later => quotedString_fail hc later

end Quoted

/-- The readers of versions, status lines and quoted strings complete exactly on their units, ask
for more exactly where some more input completes one, and refuse what no more input completes. The
byte behind a version counts, since it must not be one more digit. -/
theorem units_recognised (input : Bytes) :
    version.Recognises (fun text v rest => VersionForm text v ∧
      ∀ b ∈ rest.head?, isDigit b = false) ⟨0, input⟩ ∧
    statusLine.Recognises (fun text l rest => ∃ t : StatusText, text = t.bytes ∧ l = t.value 0 ∧
      l.phrase.of (text ++ rest) = t.phrase) ⟨0, input⟩ ∧
    ∀ pos < input.length, ∀ {ε : Type} (e : ε),
      (quotedString e).Recognises (fun text _ _ => QuotedText text) ⟨pos, input.drop pos⟩ := by
  refine ⟨recognises_version _, ?_, fun pos hpos _ e => recognises_quotedString e ?_⟩
  · have hs := recognises_statusLine ⟨0, input⟩
    refine ⟨fun l next => (hs.done_iff l next).trans ?_, hs.more_iff, hs.fail_iff⟩
    constructor
    · rintro ⟨text, ⟨t, rfl, rfl⟩, hr, hp⟩
      exact ⟨_, ⟨t, rfl, rfl, t.value_of next.rest⟩, hr, hp⟩
    · rintro ⟨text, ⟨t, ht, hl, -⟩, hr, hp⟩
      exact ⟨text, ⟨t, ht, hl⟩, hr, hp⟩
  · intro hnil
    exact absurd (List.drop_eq_nil_iff.1 hnil) (Nat.not_le.2 hpos)

/-- A quoted string that ends within an escape is not given up yet. -/
theorem units_recognised_escape :
    let input := Bytes.ofText "\"a\\"
    0 < input.length ∧
      ∃ later, (quotedString ()).Completes (Cursor.append ⟨0, input.drop 0⟩ later) :=
  ⟨by decide, (((units_recognised (Bytes.ofText "\"a\\")).2.2 0 (by decide) ()).more_iff.1
    (by decide +kernel)).2⟩

end OriginServer.Http
