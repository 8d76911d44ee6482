import OriginServer.Proofs.WebSocket.FragmentLanguage

namespace OriginServer.WebSocket

/-- A frame that was pushed, with the reason if it was refused. -/
structure Attempt where
  frame : StoredFrame
  refusal? : Option FragmentError := none

namespace Attempt

/-- The frame was found to make its message too large. -/
def Outgrew (a : Attempt) : Prop := ∃ limit, a.refusal? = some (.tooLarge limit)

/-- The frame did not belong where it came. -/
def isMisplaced (a : Attempt) : Bool :=
  match a.refusal? with
  | some (.unexpected _ _) => true
  | _ => false

/-- The frames that were taken. -/
def taken (attempts : List Attempt) : List StoredFrame :=
  (attempts.filter fun a => a.refusal?.isNone).map (·.frame)

/-- The frames of the message that was attempted, whether there was room for them or not. -/
def intended (attempts : List Attempt) : List StoredFrame :=
  (attempts.filter fun a => !a.isMisplaced).map (·.frame)

variable (attempts : List Attempt) (f : StoredFrame)

theorem taken_refused (cause : FragmentError) :
    taken (attempts ++ [⟨f, some cause⟩]) = taken attempts := by
  simp [taken]

theorem taken_kept : taken (attempts ++ [⟨f, none⟩]) = taken attempts ++ [f] := by
  simp [taken]

theorem intended_misplaced (before found : Fragmentation) :
    intended (attempts ++ [⟨f, some (.unexpected before found)⟩]) = intended attempts := by
  simp [intended, isMisplaced]

theorem intended_outgrew (limit : Nat) :
    intended (attempts ++ [⟨f, some (.tooLarge limit)⟩]) = intended attempts ++ [f] := by
  simp [intended, isMisplaced]

theorem intended_kept : intended (attempts ++ [⟨f, none⟩]) = intended attempts ++ [f] := by
  simp [intended, isMisplaced]

theorem outgrew_concat {attempts : List Attempt} {f : StoredFrame} {cause? : Option FragmentError}
    (h : ∃ a ∈ attempts ++ [⟨f, cause?⟩], a.Outgrew) :
    (∃ a ∈ attempts, a.Outgrew) ∨ ∃ limit, cause? = some (.tooLarge limit) := by
  obtain ⟨a, ha, ho⟩ := h
  obtain ha | ha := List.mem_append.1 ha
  · exact .inl ⟨a, ha, ho⟩
  · rw [List.mem_singleton.1 ha] at ho
    exact .inr ho

/-- Where there was room for every frame, none of the message is missing. -/
theorem taken_eq_intended {attempts : List Attempt} (h : ∀ a ∈ attempts, ¬ a.Outgrew) :
    taken attempts = intended attempts := by
  have hsame : ∀ a ∈ attempts, a.refusal?.isNone = !a.isMisplaced := by
    intro a ha
    cases hr : a.refusal? with
    | none => simp [isMisplaced, hr]
    | some cause =>
      cases cause with
      | unexpected before found => simp [isMisplaced, hr]
      | tooLarge limit => exact absurd ⟨limit, hr⟩ (h a ha)
  rw [taken, intended, List.filter_congr hsame]

end Attempt

namespace Reassembly

open Attempt

section Push

/-- All that a push can come to: the frame is misplaced, it is too large, it leaves the message
open, or it completes the message. -/
theorem push_cases (r : Reassembly) (f : StoredFrame) :
    (f.fragmentation.follows r.last = false ∧
      r.push f = (.error (.unexpected r.last f.fragmentation), r)) ∨
    (f.fragmentation.follows r.last = true ∧ r.maxMessageSize < r.size + f.content.length ∧
      r.push f = (.error (.tooLarge r.maxMessageSize),
        { r with size := r.size + f.content.length })) ∨
    (r.size + f.content.length ≤ r.maxMessageSize ∧
      r.push f = (.ok none,
        { r with
          frames := r.frames ++ [f]
          count := r.count + 1
          size := r.size + f.content.length
          last := f.fragmentation })) ∨
    (r.size + f.content.length ≤ r.maxMessageSize ∧
      r.push f = (.ok (some (join (r.frames ++ [f]))),
        { r with frames := [], count := 0, size := 0, last := f.fragmentation })) := by
  cases hf : f.fragmentation.follows r.last with
  | false =>
    left
    exact ⟨rfl, by simp [push, hf]⟩
  | true =>
    right
    by_cases hs : r.maxMessageSize < r.size + f.content.length
    · left
      exact ⟨rfl, hs, by simp [push, hf, hs]⟩
    · right
      have hle : r.size + f.content.length ≤ r.maxMessageSize := Nat.not_lt.1 hs
      cases ho : f.fragmentation.leavesOpen with
      | true =>
        left
        exact ⟨hle, by simp [push, hf, hs, ho]⟩
      | false =>
        right
        exact ⟨hle, by simp [push, hf, hs, ho]⟩

/-- A frame that does not belong where it comes leaves no trace. -/
theorem push_misplaced {r r' : Reassembly} {f : StoredFrame} {before found : Fragmentation}
    (h : r.push f = (.error (.unexpected before found), r')) : r' = r := by
  obtain ⟨-, hp⟩ | ⟨-, -, hp⟩ | ⟨-, hp⟩ | ⟨-, hp⟩ := push_cases r f
  all_goals rw [hp] at h; cases h
  rfl

/-- A frame that is too large is counted and not kept. -/
theorem push_outgrew {r r' : Reassembly} {f : StoredFrame} {limit : Nat}
    (h : r.push f = (.error (.tooLarge limit), r')) :
    r' = { r with size := r.size + f.content.length } ∧
      r.maxMessageSize < r.size + f.content.length := by
  obtain ⟨-, hp⟩ | ⟨-, hs, hp⟩ | ⟨-, hp⟩ | ⟨-, hp⟩ := push_cases r f
  all_goals rw [hp] at h; cases h
  exact ⟨rfl, hs⟩

/-- Once more was counted than a message may have, every frame is refused and that stays so. -/
theorem push_exceeded {r : Reassembly} (h : r.maxMessageSize < r.size) (f : StoredFrame) :
    (∃ cause, (r.push f).1 = .error cause) ∧ (r.push f).2.maxMessageSize < (r.push f).2.size := by
  obtain ⟨-, hp⟩ | ⟨-, hs, hp⟩ | ⟨hle, hp⟩ | ⟨hle, hp⟩ := push_cases r f
  · rw [hp]
    exact ⟨⟨_, rfl⟩, h⟩
  · rw [hp]
    exact ⟨⟨_, rfl⟩, hs⟩
  · omega
  · omega

theorem pushAll_exceeded {r : Reassembly} (h : r.maxMessageSize < r.size)
    (frames : List StoredFrame) :
    ∀ a ∈ (r.pushAll frames).1, ∃ cause, a = .error cause := by
  induction frames generalizing r with
  | nil => exact List.forall_mem_nil _
  | cons f frames ih =>
    obtain ⟨hrefused, hstill⟩ := push_exceeded h f
    exact List.forall_mem_cons.2 ⟨hrefused, ih hstill⟩

end Push

/-- The states that a reassembly comes to by pushes and resets, each with the pushes since the last
reset or the last completed message. -/
inductive Reaches (maxMessageSize : Nat) : List Attempt → Reassembly → Prop
  | new : Reaches maxMessageSize [] { maxMessageSize }
  | refused {attempts : List Attempt} {r r' : Reassembly} {f : StoredFrame}
      {cause : FragmentError} (h : Reaches maxMessageSize attempts r)
      (hp : r.push f = (.error cause, r')) :
      Reaches maxMessageSize (attempts ++ [⟨f, some cause⟩]) r'
  | kept {attempts : List Attempt} {r r' : Reassembly} {f : StoredFrame}
      (h : Reaches maxMessageSize attempts r) (hp : r.push f = (.ok none, r')) :
      Reaches maxMessageSize (attempts ++ [⟨f, none⟩]) r'
  | completed {attempts : List Attempt} {r r' : Reassembly} {f : StoredFrame} {m : Reassembled}
      (h : Reaches maxMessageSize attempts r) (hp : r.push f = (.ok (some m), r')) :
      Reaches maxMessageSize [] r'
  | reset {attempts : List Attempt} {r : Reassembly} (h : Reaches maxMessageSize attempts r) :
      Reaches maxMessageSize [] r.reset.2

/-- What a reassembly holds, by the pushes since a message could last begin. -/
structure Accounts (maxMessageSize : Nat) (attempts : List Attempt) (r : Reassembly) : Prop where
  limit : r.maxMessageSize = maxMessageSize
  frames : r.frames = taken attempts
  size : r.size = carried (intended attempts)
  exceeded : (∃ a ∈ attempts, a.Outgrew) → maxMessageSize < r.size

section Run

variable {maxMessageSize : Nat} {attempts : List Attempt} {r r' : Reassembly} {f : StoredFrame}

theorem Accounts.empty (before : Fragmentation) :
    Accounts maxMessageSize [] { maxMessageSize, last := before } := by
  refine ⟨rfl, rfl, rfl, ?_⟩
  rintro ⟨a, ha, -⟩
  cases ha

theorem Accounts.refused {cause : FragmentError} (h : Accounts maxMessageSize attempts r)
    (hp : r.push f = (.error cause, r')) :
    Accounts maxMessageSize (attempts ++ [⟨f, some cause⟩]) r' := by
  cases cause with
  | unexpected before found =>
    obtain rfl := push_misplaced hp
    refine ⟨h.limit, ?_, ?_, ?_⟩
    · rw [taken_refused]
      exact h.frames
    · rw [intended_misplaced]
      exact h.size
    · intro hout
      obtain hbefore | ⟨limit, hl⟩ := outgrew_concat hout
      · exact h.exceeded hbefore
      · cases hl
  | tooLarge limit =>
    obtain ⟨rfl, hs⟩ := push_outgrew hp
    refine ⟨h.limit, ?_, ?_, fun _ => h.limit ▸ hs⟩
    · rw [taken_refused]
      exact h.frames
    · rw [intended_outgrew, carried_concat, ← h.size]

theorem Accounts.kept (h : Accounts maxMessageSize attempts r)
    (hp : r.push f = (.ok none, r')) :
    Accounts maxMessageSize (attempts ++ [⟨f, none⟩]) r' := by
  obtain ⟨-, he⟩ | ⟨-, -, he⟩ | ⟨hle, he⟩ | ⟨-, he⟩ := push_cases r f
  all_goals rw [he] at hp; cases hp
  refine ⟨h.limit, ?_, ?_, ?_⟩
  · rw [taken_kept, ← h.frames]
  · rw [intended_kept, carried_concat, ← h.size]
  · intro hout
    obtain hbefore | ⟨limit, hl⟩ := outgrew_concat hout
    · have hover := h.exceeded hbefore
      dsimp only
      omega
    · cases hl

/-- A message is completed of all that was kept, and only where nothing was too large. -/
theorem Accounts.completed {m : Reassembled} (h : Accounts maxMessageSize attempts r)
    (hp : r.push f = (.ok (some m), r')) :
    m = join (taken attempts ++ [f]) ∧ taken attempts = intended attempts ∧
      Accounts maxMessageSize [] r' := by
  obtain ⟨-, he⟩ | ⟨-, -, he⟩ | ⟨-, he⟩ | ⟨hle, he⟩ := push_cases r f
  all_goals rw [he] at hp; cases hp
  refine ⟨by rw [h.frames], taken_eq_intended ?_, ?_⟩
  · intro a ha ho
    have hover := h.exceeded ⟨a, ha, ho⟩
    have hlimit := h.limit
    omega
  · rw [h.limit]
    exact .empty f.fragmentation

theorem Reaches.accounts (h : Reaches maxMessageSize attempts r) :
    Accounts maxMessageSize attempts r := by
  induction h with
  | new => exact .empty _
  | refused _ hp ih => exact ih.refused hp
  | kept _ hp ih => exact ih.kept hp
  | completed _ hp ih => exact (ih.completed hp).2.2
  | reset _ ih =>
    rw [Reassembly.reset, ih.limit]
    exact .empty _

/-- The count is that of the frames that are kept, whatever was refused. -/
theorem Reaches.count_eq (h : Reaches maxMessageSize attempts r) : r.count = r.frames.length := by
  have step {r r' : Reassembly} {f : StoredFrame} {answer}
      (h : r.count = r.frames.length) (hp : r.push f = (answer, r')) :
      r'.count = r'.frames.length := by
    have hcount := push_count h f
    rwa [hp] at hcount
  induction h with
  | new => rfl
  | refused _ hp ih => exact step ih hp
  | kept _ hp ih => exact step ih hp
  | completed _ hp ih => exact step ih hp
  | reset _ _ => rfl

/-- A refused frame changes nothing of what is kept, and one that was only misplaced nothing at all,
so that all that comes behind it is answered as without it. Behind a frame that was too large every
frame is refused until a reset. So a completed message consists of all frames that were taken since
a message could last begin, and none was refused for its size. A reset gives back the frames that
are kept, and makes the reassembly answer like a new one. What is counted is the payload of the
frames that were not misplaced. -/
theorem refusal_harmless (h : Reaches maxMessageSize attempts r) :
    (∀ f cause r', r.push f = (.error cause, r') →
      (r'.count = r.count ∧ r'.last = r.last ∧ r'.frames = r.frames) ∧
      (∀ before found, cause = .unexpected before found → r' = r ∧
        ∀ later, r.pushAll (f :: later) =
          (.error cause :: (r.pushAll later).1, (r.pushAll later).2)) ∧
      ∀ limit, cause = .tooLarge limit →
        ∀ later, ∀ a ∈ (r'.pushAll later).1, ∃ again, a = .error again) ∧
    (∀ f m r', r.push f = (.ok (some m), r') →
      m = join (taken attempts ++ [f]) ∧ taken attempts = intended attempts) ∧
    (r.frames = taken attempts ∧ r.reset.1 = r.frames ∧
      ∀ later, r.reset.2.pushAll later = pushAll { maxMessageSize } later) ∧
    r.size = carried (intended attempts) := by
  have ha := h.accounts
  refine ⟨?_, ?_, ⟨ha.frames, rfl, ?_⟩, ha.size⟩
  · intro f cause r' hp
    cases cause with
    | unexpected before found =>
      obtain rfl := push_misplaced hp
      refine ⟨⟨rfl, rfl, rfl⟩, ?_, ?_⟩
      · intro _ _ _
        refine ⟨rfl, fun later => ?_⟩
        simp only [pushAll, hp]
      · intro limit hc
        cases hc
    | tooLarge limit =>
      obtain ⟨rfl, hs⟩ := push_outgrew hp
      refine ⟨⟨rfl, rfl, rfl⟩, ?_, ?_⟩
      · intro before found hc
        cases hc
      · intro _ _ later
        exact pushAll_exceeded hs later
  · intro f m r' hp
    obtain ⟨hm, hall, -⟩ := ha.completed hp
    exact ⟨hm, hall⟩
  · intro later
    rw [Reassembly.reset, ha.limit]

/-- Three bytes fit into a message of at most five. With the three that should end it they do not,
and what was kept is kept until the reset. -/
theorem refusal_harmless_six :
    ∃ (first second : StoredFrame) (r r' : Reassembly),
      Reassembly.push { maxMessageSize := 5 } first = (.ok none, r) ∧
      r.push second = (.error (.tooLarge 5), r') ∧
      (r'.count = 1 ∧ r'.frames = [first]) ∧
      (∀ later, ∀ a ∈ (r'.pushAll later).1, ∃ again, a = .error again) ∧
      r'.reset.1 = [first] ∧ r'.size = 6 := by
  let first : StoredFrame :=
    StoredFrame.withHeader { config := {}, buffer := ⟨[0x61, 0x62, 0x63], 3, none⟩ }
      ⟨false, .text, none, ⟨0, 3⟩⟩
  let second : StoredFrame :=
    StoredFrame.withHeader { config := {}, buffer := ⟨[0x64, 0x65, 0x66], 3, none⟩ }
      ⟨true, .continuation, none, ⟨0, 3⟩⟩
  have hfirst : Reassembly.push { maxMessageSize := 5 } first = (.ok none, _) := rfl
  have hsecond : Reassembly.push ⟨5, [first], 1, 3, .start⟩ second = (.error (.tooLarge 5), _) :=
    rfl
  have hopen : Reaches 5 _ _ := .kept .new hfirst
  have hover : Reaches 5 _ _ := .refused hopen hsecond
  obtain ⟨hrefused, -⟩ := refusal_harmless hopen
  obtain ⟨⟨hcount, -, hframes⟩, -, hlater⟩ := hrefused second _ _ hsecond
  obtain ⟨-, -, ⟨-, hback, -⟩, hsize⟩ := refusal_harmless hover
  exact ⟨first, second, _, _, hfirst, hsecond, ⟨hcount, hframes⟩, hlater 5 rfl,
    hback.trans hframes, hsize⟩

end Run

end Reassembly

end OriginServer.WebSocket
