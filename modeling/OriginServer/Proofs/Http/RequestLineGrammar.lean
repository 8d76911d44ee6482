import OriginServer.Proofs.Http.StartLineGrammar

namespace OriginServer.Http

open Ascii Scanner

/-- A request line. What is a URL is left to `isUrl`. -/
structure RequestText (isUrl : String → Bool) where
  method : Bytes
  target : Bytes
  version : VersionText
  method_token : isToken method = true
  target_ne : target ≠ []
  target_visible : ∀ b ∈ target, isVisible b = true
  target_valid : Target.isValid isUrl target = true

variable {isUrl : String → Bool}

namespace RequestText

def bytes (t : RequestText isUrl) : Bytes :=
  t.method ++ ([sp] ++ (t.target ++ [sp] ++ (t.version.bytes ++ [cr, lf])))

/-- What the line says when it begins at `pos`. -/
def value (t : RequestText isUrl) (pos : Nat) : RequestLine :=
  ⟨⟨pos, t.method.length⟩, ⟨pos + t.method.length + 1, t.target.length⟩, t.version.value⟩

end RequestText

variable {limit : Nat}

/-- The method, one byte of which is seen too many when it is too long. -/
def shortRun (limit : Nat) : Scanner ParseError Bytes := fun c =>
  if limit < tokenLength c.rest then .fail (.methodTooLong limit) else run isTokenByte c

theorem methodName_eq (limit : Nat) :
    methodName limit = position >>= fun start => shortRun limit >>= fun name =>
      ensure (!name.isEmpty) .invalidRequestLine >>= fun _ => Pure.pure ⟨start, name.length⟩ := rfl

theorem shortRun_eq_done {c next : Cursor} {s : Bytes} :
    shortRun limit c = .done s next ↔
      run isTokenByte c = (.done s next : Scan ParseError Bytes) ∧ s.length ≤ limit := by
  unfold shortRun
  split
  · rename_i hs
    refine ⟨nofun, fun ⟨h, hle⟩ => ?_⟩
    rw [tokenLength, takeWhile_of_run h] at hs
    exact absurd hle (Nat.not_le.2 hs)
  · rename_i hs
    refine ⟨fun h => ⟨h, ?_⟩, And.left⟩
    rw [tokenLength, takeWhile_of_run h] at hs
    exact Nat.not_lt.1 hs

theorem spells_methodName_bind {α : Type} {q : Span → Scanner ParseError α}
    {later : Span → Nat → Bytes → α → Prop} (hq : ∀ s, (q s).Spells (later s))
    (hl : ∀ s pos text a, later s pos text a → ∃ x rest, text = x :: rest ∧ isTokenByte x = false) :
    (methodName limit >>= q).Spells fun pos text a => ∃ name back, isToken name = true ∧
      name.length ≤ limit ∧ later ⟨pos, name.length⟩ (pos + name.length) back a ∧
        text = name ++ back := by
  have heq : methodName limit >>= q = position >>= fun start => shortRun limit >>= fun name =>
      ensure (!name.isEmpty) .invalidRequestLine >>= fun _ => q ⟨start, name.length⟩ := by
    simp only [methodName_eq, bind_assoc, pure_bind]
  rw [heq]
  refine (spells_position.bind fun start => Spells.run_bind (fun _ _ _ => shortRun_eq_done)
    (fun name => (spells_ensure (!name.isEmpty) _).bind fun _ => hq ⟨start, name.length⟩)
    ?_).of_iff fun pos text a => ?_
  · rintro name pos _ a ⟨_, _, back, ⟨rfl, -⟩, hback, rfl⟩
    exact hl _ _ _ _ hback
  · constructor
    · rintro ⟨name, back, hname, hshort, hback, rfl⟩
      obtain ⟨hne, hall⟩ := Bool.and_eq_true_iff.1 hname
      exact ⟨[], _, _, ⟨rfl, rfl⟩, ⟨name, name, back, ⟨rfl, List.all_eq_true.1 hall, hshort⟩,
        ⟨[], (), back, ⟨rfl, hne⟩, hback, rfl⟩, rfl⟩, rfl⟩
    · rintro ⟨_, _, _, ⟨rfl, rfl⟩, ⟨_, name, _, ⟨rfl, hall, hshort⟩,
        ⟨_, _, back, ⟨rfl, hne⟩, hback, rfl⟩, rfl⟩, rfl⟩
      exact ⟨_, _, Bool.and_eq_true_iff.2 ⟨hne, List.all_eq_true.2 hall⟩, hshort, hback, rfl⟩

/-- A target with the space behind it. -/
def TargetText (isUrl : String → Bool) (pos : Nat) (text : Bytes) (s : Span) : Prop :=
  ∃ target : Bytes, target ≠ [] ∧ (∀ b ∈ target, isVisible b = true) ∧
    Target.isValid isUrl target = true ∧ text = target ++ [sp] ∧ s = ⟨pos, target.length⟩

theorem spells_requestTarget : (requestTarget isUrl).Spells (TargetText isUrl) := by
  refine (spells_position.bind fun _ => Spells.run_bind (fun _ _ _ => by rw [and_true])
    (fun target => (spells_byte _ _).bind fun _ => (spells_ensure (!target.isEmpty) _).bind fun _ =>
      (spells_ensure (Target.isValid isUrl target) _).bind fun _ => spells_pure _)
    ?_).of_iff fun pos text s => ?_
  · rintro _ _ _ _ ⟨_, _, _, rfl, -, rfl⟩
    exact ⟨sp, _, rfl, by decide⟩
  · constructor
    · rintro ⟨target, hne, hvis, hvalid, rfl, rfl⟩
      exact ⟨[], _, _, ⟨rfl, rfl⟩, ⟨target, target, _, ⟨rfl, hvis, trivial⟩,
        ⟨[sp], (), [], rfl, ⟨[], (), [], ⟨rfl, by simpa using hne⟩, ⟨[], (), [], ⟨rfl, hvalid⟩,
          ⟨rfl, rfl⟩, rfl⟩, rfl⟩, rfl⟩, rfl⟩, rfl⟩
    · rintro ⟨_, _, _, ⟨rfl, rfl⟩, ⟨_, target, _, ⟨rfl, hvis, -⟩, ⟨_, _, _, rfl,
        ⟨_, _, _, ⟨rfl, hne⟩, ⟨_, _, _, ⟨rfl, hvalid⟩, ⟨rfl, rfl⟩, rfl⟩, rfl⟩, rfl⟩, rfl⟩, rfl⟩
      exact ⟨_, by simpa using hne, hvis, hvalid, rfl, rfl⟩

/-- The version at the end of a request line. -/
def requestEnd (method target : Span) : Scanner ParseError RequestLine := do
  notBefore isBlank .invalidRequestLine
  let version ← version
  lineEnd .invalidRequestLine
  return ⟨method, target, version⟩

/-- No white space stands in front of the version, although its reader would take it. -/
theorem spells_requestEnd (method target : Span) :
    (requestEnd method target).Spells fun _ text l =>
      ∃ t : VersionText, text = t.bytes ++ [cr, lf] ∧ l = ⟨method, target, t.value⟩ := by
  refine (Spells.notBefore_bind (spells_version_bind (fun v => (spells_lineEnd _).bind fun _ =>
    spells_pure (RequestLine.mk method target v)) ?_) ?_).of_iff fun pos text l => ?_
  · rintro v pos _ l ⟨_, _, _, rfl, -, rfl⟩
    exact ⟨cr, _, rfl, by decide⟩
  · rintro pos _ l ⟨_, _, _, -, ⟨_, _, _, rfl, -, rfl⟩, rfl⟩
    simp
  · constructor
    · rintro ⟨t, rfl, rfl⟩
      obtain ⟨x, rest, ht, hx⟩ := t.bytes_eq_cons
      refine ⟨⟨_, _, _, ⟨[], t, List.forall_mem_nil _, rfl, rfl⟩,
        ⟨[cr, lf], (), [], rfl, ⟨rfl, rfl⟩, rfl⟩, rfl⟩, ?_⟩
      rw [ht]
      rintro _ ⟨⟩
      exact hx
    · rintro ⟨⟨_, _, _, ⟨before, t, hb, rfl, rfl⟩, ⟨_, _, _, rfl, ⟨rfl, rfl⟩, rfl⟩, rfl⟩, hhead⟩
      cases before with
      | nil => exact ⟨t, rfl, rfl⟩
      | cons x before => exact absurd (hb x List.mem_cons_self) (by simp [hhead x rfl])

theorem requestLine_eq (limit : Nat) :
    requestLine isUrl limit = methodName limit >>= fun method =>
      byte sp .invalidRequestLine >>= fun _ =>
        requestTarget isUrl >>= fun target => requestEnd method target := rfl

theorem spells_requestLine (limit : Nat) :
    (requestLine isUrl limit).Spells fun pos text l =>
      ∃ t : RequestText isUrl, t.method.length ≤ limit ∧ text = t.bytes ∧ l = t.value pos := by
  rw [requestLine_eq]
  refine (spells_methodName_bind (fun method => (spells_byte _ _).bind fun _ =>
    spells_requestTarget.bind fun target => spells_requestEnd method target) ?_).of_iff
      fun pos text l => ?_
  · rintro _ _ _ _ ⟨_, _, _, rfl, -, rfl⟩
    exact ⟨sp, _, rfl, by decide⟩
  · constructor
    · rintro ⟨t, hlimit, rfl, rfl⟩
      exact ⟨t.method, _, t.method_token, hlimit, ⟨[sp], (), _, rfl, ⟨_, _, _,
        ⟨t.target, t.target_ne, t.target_visible, t.target_valid, rfl, rfl⟩,
          ⟨t.version, rfl, rfl⟩, rfl⟩, rfl⟩, rfl⟩
    · rintro ⟨method, _, hmethod, hlimit, ⟨_, _, _, rfl, ⟨_, _, _,
        ⟨target, hne, hvis, hvalid, rfl, rfl⟩, ⟨version, rfl, rfl⟩, rfl⟩, rfl⟩, rfl⟩
      exact ⟨⟨method, target, version, hmethod, hne, hvis, hvalid⟩, hlimit, rfl, rfl⟩

namespace RequestText

/-- The places of method and target hold method and target. -/
theorem value_of (t : RequestText isUrl) (behind : Bytes) :
    (t.value 0).method.of (t.bytes ++ behind) = t.method ∧
      (t.value 0).target.of (t.bytes ++ behind) = t.target := by
  have hmethod : t.bytes ++ behind = [] ++ (t.method ++
      ([sp] ++ (t.target ++ [sp] ++ (t.version.bytes ++ [cr, lf])) ++ behind)) := by
    simp [bytes]
  have htarget : t.bytes ++ behind = t.method ++ [sp] ++ (t.target ++
      ([sp] ++ (t.version.bytes ++ [cr, lf]) ++ behind)) := by
    simp [bytes]
  constructor
  · rw [hmethod]
    exact Span.of_middle rfl rfl _
  · rw [htarget]
    refine Span.of_middle ?_ rfl _
    simp [value]

end RequestText

/-- A refusal for another cause than the length of the method. -/
def OfForm : ParseError → Prop
  | .methodTooLong _ => False
  | _ => True

theorem ne_tooLong_of_blames {α : Type} {p : Scanner ParseError α} (hp : p.Blames OfForm)
    {c : Cursor} {n : Nat} : p c ≠ .fail (.methodTooLong n) := fun h => hp c _ h

theorem blames_digit {causes : ParseError → Prop} {e : ParseError} (he : causes e) :
    (digit e).Blames causes :=
  (blames_satisfy _ he).bind fun _ => blames_pure _

theorem blames_version : version.Blames OfForm :=
  (blames_run _).bind fun _ => (blames_caseless _ trivial).bind fun _ => (blames_digit trivial).bind
    fun _ => (blames_byte _ trivial).bind fun _ => (blames_digit trivial).bind fun _ =>
      (blames_notBefore _ trivial).bind fun _ => blames_pure _

theorem blames_requestTarget : (requestTarget isUrl).Blames OfForm :=
  blames_position.bind fun _ => (blames_run _).bind fun _ => (blames_byte _ trivial).bind fun _ =>
    (blames_ensure _ trivial).bind fun _ => (blames_ensure _ trivial).bind fun _ => blames_pure _

theorem blames_requestEnd (method target : Span) : (requestEnd method target).Blames OfForm :=
  (blames_notBefore _ trivial).bind fun _ => blames_version.bind fun _ =>
    (blames_lineEnd trivial).bind fun _ => blames_pure _

theorem shortRun_eq_tooLong {c : Cursor} {n : Nat} :
    shortRun limit c = .fail (.methodTooLong n) ↔ n = limit ∧ limit < tokenLength c.rest := by
  unfold shortRun
  split
  · rename_i hlong
    constructor
    · rintro ⟨⟩
      exact ⟨rfl, hlong⟩
    · rintro ⟨rfl, -⟩
      rfl
  · rename_i hlong
    exact ⟨fun h => absurd h (ne_tooLong_of_blames (blames_run _)), fun h => absurd h.2 hlong⟩

theorem methodName_eq_tooLong {c : Cursor} {n : Nat} :
    methodName limit c = .fail (.methodTooLong n) ↔ n = limit ∧ limit < tokenLength c.rest := by
  rw [← shortRun_eq_tooLong, methodName_eq, bind_of_done (show position c = .done c.pos c from rfl)]
  refine ⟨fun h => ?_, bind_of_fail⟩
  obtain h | ⟨name, mid, -, h⟩ := bind_eq_fail h
  · exact h
  · have hchecks : Blames (ensure (!name.isEmpty) .invalidRequestLine >>= fun _ =>
        Pure.pure (Span.mk c.pos name.length)) OfForm :=
      (blames_ensure _ trivial).bind fun _ => blames_pure _
    exact absurd h (ne_tooLong_of_blames hchecks)

/-- Only the bytes of the method decide that it is too long. -/
theorem requestLine_eq_tooLong {c : Cursor} {n : Nat} :
    requestLine isUrl limit c = .fail (.methodTooLong n) ↔
      n = limit ∧ limit < tokenLength c.rest := by
  rw [requestLine_eq, ← methodName_eq_tooLong]
  refine ⟨fun h => ?_, bind_of_fail⟩
  obtain h | ⟨method, mid, -, h⟩ := bind_eq_fail h
  · exact h
  · have hrest : Blames (byte sp .invalidRequestLine >>= fun _ =>
        requestTarget isUrl >>= fun target => requestEnd method target) OfForm :=
      (blames_byte _ trivial).bind fun _ => blames_requestTarget.bind fun _ => blames_requestEnd _ _
    exact absurd h (ne_tooLong_of_blames hrest)

theorem lt_tokenLength_iff {input : Bytes} :
    limit < tokenLength input ↔
      limit < input.length ∧ ∀ b ∈ input.take (limit + 1), isTokenByte b = true := by
  have hpre := List.takeWhile_prefix isTokenByte (l := input)
  rw [tokenLength]
  constructor
  · intro h
    refine ⟨Nat.lt_of_lt_of_le h hpre.length_le, fun b hb => ?_⟩
    rw [← List.takeWhile_append_dropWhile (p := isTokenByte) (l := input),
      List.take_append_of_le_length h] at hb
    exact List.all_eq_true.1 List.all_takeWhile b (List.mem_of_mem_take hb)
  · rintro ⟨hlen, hall⟩
    rw [← List.take_append_drop (limit + 1) input, List.takeWhile_append_of_pos hall,
      List.length_append, List.length_take]
    omega

/-- A request line is complete exactly when it is there, whatever follows it, and its places hold
method and target. A method is too long exactly when one byte more than allowed belongs to it. -/
theorem requestLine_iff_text (isUrl : String → Bool) (limit : Nat) (input : Bytes) :
    (∀ l next, requestLine isUrl limit ⟨0, input⟩ = .done l next ↔
      ∃ t : RequestText isUrl, t.method.length ≤ limit ∧ input = t.bytes ++ next.rest ∧
        next.pos = t.bytes.length ∧ l = t.value 0 ∧ l.method.of input = t.method ∧
          l.target.of input = t.target) ∧
    ∀ n, requestLine isUrl limit ⟨0, input⟩ = .fail (.methodTooLong n) ↔
      n = limit ∧ limit < input.length ∧
        ∀ b ∈ input.take (limit + 1), isTokenByte b = true := by
  refine ⟨fun l next => ?_, fun n => ?_⟩
  · rw [(spells_requestLine limit).done_iff]
    constructor
    · rintro ⟨_, ⟨t, hlimit, rfl, rfl⟩, hr, hp⟩
      obtain ⟨hmethod, htarget⟩ := t.value_of next.rest
      obtain rfl : input = t.bytes ++ next.rest := hr
      exact ⟨t, hlimit, rfl, hp.trans (Nat.zero_add _), rfl, hmethod, htarget⟩
    · rintro ⟨t, hlimit, hr, hp, hl, -⟩
      exact ⟨_, ⟨t, hlimit, rfl, hl⟩, hr, hp.trans (Nat.zero_add _).symm⟩
  · rw [requestLine_eq_tooLong, lt_tokenLength_iff]

end OriginServer.Http
