import OriginServer.Proofs.Scan

namespace OriginServer.Scanner

variable {ε α β : Type}

theorem id_map_eq (p : Scanner ε α) : id <$> p = p := by
  funext c
  show bind p (fun a => pure (id a)) c = p c
  unfold bind
  cases p c <;> rfl

theorem bind_bind {γ : Type} (p : Scanner ε α) (q : α → Scanner ε β) (r : β → Scanner ε γ) :
    p >>= q >>= r = p >>= fun a => q a >>= r := by
  funext c
  show bind (bind p q) r c = bind p (fun a => bind (q a) r) c
  unfold bind
  cases p c <;> rfl

instance : LawfulMonad (Scanner ε) :=
  LawfulMonad.mk' (Scanner ε) id_map_eq (fun _ _ => rfl) bind_bind

section Spells

variable {p : Scanner ε α} {q : α → Scanner ε β} {P : UInt8 → Bool}

/-- The scanner completes exactly on the texts of a language, whatever follows them. A language
says which texts may begin at a place, and what they stand for there. -/
structure Spells (p : Scanner ε α) (texts : Nat → Bytes → α → Prop) : Prop where
  complete {pos : Nat} {text : Bytes} {a : α} (h : texts pos text a) (tail : Bytes) :
    p ⟨pos, text ++ tail⟩ = .done a ⟨pos + text.length, tail⟩
  sound {c next : Cursor} {a : α} (h : p c = .done a next) :
    ∃ text, texts c.pos text a ∧ c.rest = text ++ next.rest

/-- More is asked for only within a text of the language. -/
structure Anticipates (p : Scanner ε α) (texts : Nat → Bytes → α → Prop) : Prop where
  inhabited (pos : Nat) : ∃ text a, texts pos text a
  unfinished {c : Cursor} (h : p c = .more) : ∃ text a, texts c.pos text a ∧ c.rest <+: text

/-- A text of one language with a text of another behind it. -/
def Joined (texts : Nat → Bytes → α → Prop) (later : α → Nat → Bytes → β → Prop) (pos : Nat)
    (text : Bytes) (b : β) : Prop :=
  ∃ front a back, texts pos front a ∧ later a (pos + front.length) back b ∧ text = front ++ back

variable {texts texts' : Nat → Bytes → α → Prop} {later : α → Nat → Bytes → β → Prop}

theorem Spells.done_iff (h : p.Spells texts) {c next : Cursor} {a : α} :
    p c = .done a next ↔
      ∃ text, texts c.pos text a ∧ c.rest = text ++ next.rest ∧
        next.pos = c.pos + text.length := by
  obtain ⟨pos, rest⟩ := c
  constructor
  · intro hc
    obtain ⟨text, ht, hr⟩ := h.sound hc
    obtain rfl : rest = text ++ next.rest := hr
    have hnext := (h.complete ht next.rest).symm.trans hc
    injection hnext with _ hnext
    exact ⟨text, ht, rfl, congrArg Cursor.pos hnext.symm⟩
  · rintro ⟨text, ht, hr, hp⟩
    obtain rfl : rest = text ++ next.rest := hr
    rw [h.complete ht, show pos + text.length = next.pos from hp.symm]

theorem Spells.bind (hp : p.Spells texts) (hq : ∀ a, (q a).Spells (later a)) :
    (p >>= q).Spells (Joined texts later) := by
  constructor
  · rintro pos _ b ⟨front, a, back, hfront, hback, rfl⟩ tail
    rw [List.append_assoc, bind_of_done (hp.complete hfront _), (hq a).complete hback,
      List.length_append, Nat.add_assoc]
  · intro c next b h
    obtain ⟨a, mid, hm, hn⟩ := bind_eq_done h
    obtain ⟨front, hfront, hr, hpos⟩ := hp.done_iff.1 hm
    obtain ⟨back, hback, hr'⟩ := (hq a).sound hn
    exact ⟨front ++ back, ⟨front, a, back, hfront, hpos ▸ hback, rfl⟩,
      by rw [hr, hr', List.append_assoc]⟩

theorem Anticipates.bind (hs : p.Spells texts) (hp : p.Anticipates texts)
    (hq : ∀ a, (q a).Anticipates (later a)) : (p >>= q).Anticipates (Joined texts later) := by
  have joined {pos : Nat} {front : Bytes} {a : α} (hfront : texts pos front a) :
      ∃ back b, Joined texts later pos (front ++ back) b := by
    obtain ⟨back, b, hback⟩ := (hq a).inhabited (pos + front.length)
    exact ⟨back, b, front, a, back, hfront, hback, rfl⟩
  constructor
  · intro pos
    obtain ⟨front, a, hfront⟩ := hp.inhabited pos
    obtain ⟨back, b, h⟩ := joined hfront
    exact ⟨_, b, h⟩
  · intro c h
    obtain h | ⟨a, mid, hm, h⟩ := bind_eq_more h
    · obtain ⟨front, a, hfront, hpre⟩ := hp.unfinished h
      obtain ⟨back, b, hj⟩ := joined hfront
      exact ⟨_, b, hj, hpre.trans (List.prefix_append _ _)⟩
    · obtain ⟨front, hfront, hr, hpos⟩ := hs.done_iff.1 hm
      obtain ⟨back, b, hback, hpre⟩ := (hq a).unfinished h
      refine ⟨front ++ back, b, ⟨front, a, back, hfront, hpos ▸ hback, rfl⟩, ?_⟩
      rw [hr]
      exact (List.prefix_append_right_inj _).2 hpre

theorem spells_pure (a : α) :
    (Pure.pure a : Scanner ε α).Spells fun _ text b => text = [] ∧ b = a := by
  constructor
  · rintro pos _ b ⟨rfl, rfl⟩ tail
    rfl
  · intro c next b h
    obtain ⟨rfl, rfl⟩ := pure_eq_done h
    exact ⟨[], ⟨rfl, rfl⟩, rfl⟩

theorem anticipates_pure (a : α) :
    (Pure.pure a : Scanner ε α).Anticipates fun _ text b => text = [] ∧ b = a :=
  ⟨fun _ => ⟨[], a, rfl, rfl⟩, nofun⟩

theorem spells_position :
    (position : Scanner ε Nat).Spells fun pos text n => text = [] ∧ n = pos := by
  constructor
  · rintro pos _ n ⟨rfl, rfl⟩ tail
    rfl
  · intro c next n h
    obtain ⟨rfl, rfl⟩ := position_eq_done h
    exact ⟨[], ⟨rfl, rfl⟩, rfl⟩

theorem anticipates_position :
    (position : Scanner ε Nat).Anticipates fun pos text n => text = [] ∧ n = pos :=
  ⟨fun pos => ⟨[], pos, rfl, rfl⟩, nofun⟩

theorem spells_ensure (holds : Bool) (e : ε) :
    (ensure holds e).Spells fun _ text _ => text = [] ∧ holds = true := by
  constructor
  · rintro pos _ ⟨⟩ ⟨rfl, h⟩ tail
    exact reads_ensure h e pos tail
  · rintro c next ⟨⟩ h
    obtain ⟨hh, rfl⟩ := ensure_eq_done h
    exact ⟨[], ⟨rfl, hh⟩, rfl⟩

theorem satisfy_eq_done {e : ε} {c next : Cursor} {b : UInt8}
    (h : satisfy P e c = .done b next) : c.rest = b :: next.rest ∧ P b = true := by
  simp only [satisfy] at h
  split at h
  · cases h
  · rename_i hr
    split at h
    · rename_i hb
      cases h
      exact ⟨hr, hb⟩
    · cases h

theorem satisfy_eq_more {e : ε} {c : Cursor} (h : satisfy P e c = .more) : c.rest = [] := by
  simp only [satisfy] at h
  split at h
  · assumption
  · split at h <;> cases h

theorem spells_satisfy (P : UInt8 → Bool) (e : ε) :
    (satisfy P e).Spells fun _ text b => text = [b] ∧ P b = true := by
  constructor
  · rintro pos _ b ⟨rfl, hb⟩ tail
    exact if_pos hb
  · intro c next b h
    obtain ⟨hr, hb⟩ := satisfy_eq_done h
    exact ⟨[b], ⟨rfl, hb⟩, hr⟩

theorem anticipates_satisfy (P : UInt8 → Bool) {b : UInt8} (hb : P b = true) (e : ε) :
    (satisfy P e).Anticipates fun _ text b => text = [b] ∧ P b = true := by
  refine ⟨fun _ => ⟨[b], b, rfl, hb⟩, fun {c} h => ⟨[b], b, ⟨rfl, hb⟩, ?_⟩⟩
  rw [satisfy_eq_more h]
  exact List.nil_prefix

theorem Spells.of_iff (h : p.Spells texts)
    (ht : ∀ pos text a, texts' pos text a ↔ texts pos text a) : p.Spells texts' := by
  obtain rfl : texts' = texts := by
    funext pos text a
    exact propext (ht pos text a)
  exact h

theorem Anticipates.of_iff (h : p.Anticipates texts)
    (ht : ∀ pos text a, texts' pos text a ↔ texts pos text a) : p.Anticipates texts' := by
  obtain rfl : texts' = texts := by
    funext pos text a
    exact propext (ht pos text a)
  exact h

theorem joined_byte_iff (b : UInt8) (pos : Nat) (text : Bytes) (u : Unit) :
    text = [b] ↔ Joined (fun _ text x => text = [x] ∧ (x == b) = true)
      (fun _ _ text v => text = [] ∧ v = ()) pos text u := by
  simp [Joined]

theorem spells_byte (b : UInt8) (e : ε) : (byte b e).Spells fun _ text _ => text = [b] :=
  ((spells_satisfy _ e).bind fun _ => spells_pure ()).of_iff (joined_byte_iff b)

theorem anticipates_byte (b : UInt8) (e : ε) :
    (byte b e).Anticipates fun _ text _ => text = [b] :=
  (Anticipates.bind (spells_satisfy (· == b) e)
    (anticipates_satisfy (· == b) (beq_self_eq_true b) e) fun _ => anticipates_pure ()).of_iff
      (joined_byte_iff b)

theorem joined_lineEnd_iff (pos : Nat) (text : Bytes) (u : Unit) :
    text = [Ascii.cr, Ascii.lf] ↔ Joined (fun _ text (_ : Unit) => text = [Ascii.cr])
      (fun _ _ text (_ : Unit) => text = [Ascii.lf]) pos text u := by
  simp [Joined]

theorem spells_lineEnd (e : ε) :
    (lineEnd e).Spells fun _ text _ => text = [Ascii.cr, Ascii.lf] :=
  ((spells_byte _ e).bind fun _ => spells_byte _ e).of_iff joined_lineEnd_iff

theorem anticipates_lineEnd (e : ε) :
    (lineEnd e).Anticipates fun _ text _ => text = [Ascii.cr, Ascii.lf] :=
  (Anticipates.bind (spells_byte _ e) (anticipates_byte _ e) fun _ =>
    anticipates_byte _ e).of_iff joined_lineEnd_iff

theorem joined_caseless_iff (b : UInt8) (word : Bytes) (pos : Nat) (text : Bytes) (u : Unit) :
    text.sameLetters (b :: word) = true ↔
      Joined (fun _ text x => text = [x] ∧ (Ascii.toLower x == Ascii.toLower b) = true)
        (fun _ _ text (_ : Unit) => text.sameLetters word = true) pos text u := by
  constructor
  · intro h
    cases text with
    | nil => simp [Bytes.sameLetters] at h
    | cons x text =>
      simp only [Bytes.sameLetters, List.map_cons, beq_iff_eq, List.cons.injEq] at h
      exact ⟨[x], x, text, ⟨rfl, beq_iff_eq.2 h.1⟩, beq_iff_eq.2 h.2, rfl⟩
  · rintro ⟨_, x, back, ⟨rfl, hx⟩, hback, rfl⟩
    simp only [Bytes.sameLetters, beq_iff_eq] at hx hback ⊢
    rw [List.map_append, List.map_singleton, List.map_cons, hx, hback, List.singleton_append]

theorem spells_caseless (word : Bytes) (e : ε) :
    (caseless word e).Spells fun _ text _ => text.sameLetters word = true := by
  induction word with
  | nil => exact (spells_pure ()).of_iff fun _ text _ => by simp [Bytes.sameLetters]
  | cons b word ih =>
    exact ((spells_satisfy _ e).bind fun _ => ih).of_iff (joined_caseless_iff b word)

theorem anticipates_caseless (word : Bytes) (e : ε) :
    (caseless word e).Anticipates fun _ text _ => text.sameLetters word = true := by
  induction word with
  | nil => exact (anticipates_pure ()).of_iff fun _ text _ => by simp [Bytes.sameLetters]
  | cons b word ih =>
    exact (Anticipates.bind (spells_satisfy _ e)
      (anticipates_satisfy (fun x => Ascii.toLower x == Ascii.toLower b) (beq_self_eq_true _) e)
      fun _ => ih).of_iff (joined_caseless_iff b word)

/-- A good run goes up to what follows it, which begins with a byte of another class. -/
theorem Spells.run_bind {r : Scanner ε Bytes} {good : Bytes → Prop} {q : Bytes → Scanner ε β}
    {later : Bytes → Nat → Bytes → β → Prop}
    (hr : ∀ c s next, r c = .done s next ↔ run P c = (.done s next : Scan ε Bytes) ∧ good s)
    (hq : ∀ s, (q s).Spells (later s))
    (hl : ∀ s pos text b, later s pos text b → ∃ x rest, text = x :: rest ∧ P x = false) :
    (r >>= q).Spells
      (Joined (fun _ text s => text = s ∧ (∀ x ∈ s, P x = true) ∧ good s) later) := by
  constructor
  · rintro pos _ b ⟨s, _, back, ⟨rfl, hs, hgood⟩, hback, rfl⟩ tail
    obtain ⟨x, rest, rfl, hx⟩ := hl _ _ _ _ hback
    have hrun := (hr ⟨pos, s ++ x :: (rest ++ tail)⟩ s _).2
      ⟨run_of_append (List.all_eq_true.2 hs) hx, hgood⟩
    rw [List.append_assoc, List.cons_append, bind_of_done hrun, ← List.cons_append,
      (hq s).complete hback, List.length_append, Nat.add_assoc]
  · intro c next b h
    obtain ⟨s, mid, hm, hn⟩ := bind_eq_done h
    obtain ⟨hrun, hgood⟩ := (hr _ _ _).1 hm
    obtain ⟨hc, hp, hs, -⟩ := run_eq_done hrun
    obtain ⟨back, hback, hmid⟩ := (hq s).sound hn
    exact ⟨s ++ back, ⟨s, s, back, ⟨rfl, List.all_eq_true.1 hs, hgood⟩, hp ▸ hback, rfl⟩,
      by rw [hc, hmid, List.append_assoc]⟩

/-- A run that is not ended yet goes up to a text that may follow it. -/
theorem Anticipates.run_bind {q : Bytes → Scanner ε β}
    {later : Bytes → Nat → Bytes → β → Prop} (hq : ∀ s, (q s).Anticipates (later s)) :
    (run P >>= q).Anticipates
      (Joined (fun _ text s => text = s ∧ (∀ x ∈ s, P x = true) ∧ True) later) := by
  have joined {s : Bytes} (pos : Nat) (hs : ∀ x ∈ s, P x = true) :
      ∃ back b, Joined (fun _ text s => text = s ∧ (∀ x ∈ s, P x = true) ∧ True) later pos
        (s ++ back) b := by
    obtain ⟨back, b, hback⟩ := (hq s).inhabited (pos + s.length)
    exact ⟨back, b, s, s, back, ⟨rfl, hs, trivial⟩, hback, rfl⟩
  constructor
  · intro pos
    obtain ⟨back, b, h⟩ := joined pos (List.forall_mem_nil _)
    exact ⟨_, b, h⟩
  · intro c h
    obtain h | ⟨s, mid, hm, h⟩ := bind_eq_more h
    · obtain ⟨back, b, hj⟩ := joined c.pos (run_eq_more h)
      exact ⟨_, b, hj, List.prefix_append _ _⟩
    · obtain ⟨hc, hp, hs, -⟩ := run_eq_done hm
      obtain ⟨back, b, hback, hpre⟩ := (hq s).unfinished h
      refine ⟨s ++ back, b,
        ⟨s, s, back, ⟨rfl, List.all_eq_true.1 hs, trivial⟩, hp ▸ hback, rfl⟩, ?_⟩
      rw [hc]
      exact (List.prefix_append_right_inj _).2 hpre

theorem notBefore_eq_done {e : ε} {c next : Cursor} {u : Unit}
    (h : notBefore P e c = .done u next) : next = c ∧ ∀ x ∈ c.rest.head?, P x = false := by
  simp only [notBefore] at h
  split at h
  · rename_i hr
    cases h
    rw [hr]
    exact ⟨rfl, nofun⟩
  · rename_i b rest hr
    split at h
    · cases h
    · rename_i hb
      cases h
      rw [hr]
      refine ⟨rfl, fun x hx => ?_⟩
      cases hx
      simpa using hb

theorem notBefore_of_head {e : ε} {c : Cursor} (h : ∀ x ∈ c.rest.head?, P x = false) :
    notBefore P e c = .done () c := by
  obtain ⟨pos, rest⟩ := c
  cases rest with
  | nil => rfl
  | cons b rest => simp [notBefore, h b rfl]

theorem notBefore_ne_more {e : ε} {c : Cursor} : notBefore P e c ≠ .more := by
  intro h
  simp only [notBefore] at h
  split at h
  · cases h
  · split at h <;> cases h

/-- A look at the next byte counts for what follows. -/
theorem Spells.notBefore_bind {e : ε} {q : Unit → Scanner ε β}
    {back : Nat → Bytes → β → Prop} (hq : (q ()).Spells back)
    (hn : ∀ pos text b, back pos text b → text ≠ []) :
    (notBefore P e >>= q).Spells fun pos text b =>
      back pos text b ∧ ∀ x ∈ text.head?, P x = false := by
  constructor
  · rintro pos text b ⟨hback, hhead⟩ tail
    have hne := hn _ _ _ hback
    rw [bind_of_done (notBefore_of_head ?_), hq.complete hback]
    rwa [head?_append_of_ne_nil hne tail [], List.append_nil]
  · intro c next b h
    obtain ⟨_, mid, hm, hmid⟩ := bind_eq_done h
    obtain ⟨rfl, hhead⟩ := notBefore_eq_done hm
    obtain ⟨text, hback, hr⟩ := hq.sound hmid
    have hne := hn _ _ _ hback
    refine ⟨text, ⟨hback, ?_⟩, hr⟩
    rwa [hr, head?_append_of_ne_nil hne _ [], List.append_nil] at hhead

/-- Where nothing is left to look at, a text that may follow is still to come. -/
theorem Anticipates.notBefore_bind {e : ε} {q : Unit → Scanner ε β}
    {back : Nat → Bytes → β → Prop} (hq : (q ()).Anticipates back)
    (hl : ∀ pos text b, back pos text b → ∀ x ∈ text.head?, P x = false) :
    (notBefore P e >>= q).Anticipates fun pos text b =>
      back pos text b ∧ ∀ x ∈ text.head?, P x = false := by
  constructor
  · intro pos
    obtain ⟨text, b, h⟩ := hq.inhabited pos
    exact ⟨text, b, h, hl _ _ _ h⟩
  · intro c h
    obtain h | ⟨_, mid, hm, hmid⟩ := bind_eq_more h
    · exact absurd h notBefore_ne_more
    · obtain ⟨rfl, -⟩ := notBefore_eq_done hm
      obtain ⟨text, b, hback, hpre⟩ := hq.unfinished hmid
      exact ⟨text, b, ⟨hback, hl _ _ _ hback⟩, hpre⟩

end Spells

section Recognises

variable {p : Scanner ε α} {texts : Nat → Bytes → α → Prop} {c : Cursor}

/-- The scanner recognises units at a place: it completes exactly on a unit at the front of the
input, with what the unit denotes, asks for more exactly where some more input completes it, and
refuses what no more input completes. Whether bytes are a unit may depend on those behind them. -/
structure Recognises (p : Scanner ε α) (unit : Bytes → α → Bytes → Prop) (c : Cursor) : Prop where
  done_iff (a : α) (next : Cursor) : p c = .done a next ↔
    ∃ text, unit text a next.rest ∧ c.rest = text ++ next.rest ∧ next.pos = c.pos + text.length
  more_iff : p c = .more ↔ ¬ p.Completes c ∧ ∃ later, p.Completes (c.append later)
  fail_iff : (∃ e, p c = .fail e) ↔ ∀ later, ¬ p.Completes (c.append later)

theorem Anticipates.viable (hs : p.Spells texts) (ha : p.Anticipates texts) : p.Viable := by
  intro c h
  obtain ⟨_, a, ht, later, rfl⟩ := ha.unfinished h
  have hdone := hs.complete ht []
  rw [List.append_nil] at hdone
  exact ⟨later, a, _, hdone⟩

theorem Spells.recognises (hs : p.Spells texts) (hv : p.Viable)
    (hf : ∀ e later, p c = .fail e → p (c.append later) = .fail e) :
    p.Recognises (fun text a _ => texts c.pos text a) c :=
  ⟨fun _ _ => hs.done_iff, more_iff hf (hv c), fail_iff hf (hv c)⟩

end Recognises

end OriginServer.Scanner
