import Mathlib.Computability.Language
import Mathlib.Data.List.DropRight
import OriginServer.Proofs.WebSocket.Fragments

namespace OriginServer.WebSocket

open Computability

namespace Fragmentation

/-- The places of the frames of one message: it comes whole, or as a first frame, any number of
others and a last one. -/
def message : Language Fragmentation :=
  {[.none]} + {[.start]} * {[.continue]}∗ * {[.last]}

/-- The places of the frames of messages one behind the other. -/
def messages : Language Fragmentation := message∗

/-- Whether a message is open behind a frame, if the frame may come where one is open or not. -/
def step (isOpen : Bool) (found : Fragmentation) : Option Bool :=
  if found.needsOpen = isOpen then some found.leavesOpen else Option.none

/-- Whether a message is open behind frames, if they may come one behind the other. -/
def run (isOpen : Bool) (word : List Fragmentation) : Option Bool := word.foldlM step isOpen

theorem run_append (isOpen : Bool) (u v : List Fragmentation) :
    run isOpen (u ++ v) = (run isOpen u).bind (run · v) := List.foldlM_append

theorem run_cons (isOpen : Bool) (f : Fragmentation) (word : List Fragmentation) :
    run isOpen (f :: word) = (step isOpen f).bind (run · word) := List.foldlM_cons

theorem run_concat (isOpen : Bool) (word : List Fragmentation) (f : Fragmentation) :
    run isOpen (word ++ [f]) = (run isOpen word).bind (step · f) := by
  rw [run_append]
  congr 1
  funext o
  rw [run_cons]
  cases step o f <;> rfl

theorem step_leavesOpen (before found : Fragmentation) :
    step before.leavesOpen found =
      if found.follows before then some found.leavesOpen else Option.none := by
  simp only [step, follows, beq_iff_eq]

theorem run_message {word : List Fragmentation} (h : word ∈ message) :
    run false word = some false := by
  have hopen : ({[.continue]}∗ : Language Fragmentation) ≤ {w | run true w = some true} := by
    refine kstar_le_of_mul_le_right (fun w hw => ?_) fun w hw => ?_
    · cases hw
      rfl
    · obtain ⟨a, rfl, b, hb, rfl⟩ := Language.mem_mul.1 hw
      exact hb
  obtain rfl | h := (Language.mem_add _ _ _).1 h
  · rfl
  · obtain ⟨a, ha, d, rfl, rfl⟩ := Language.mem_mul.1 h
    obtain ⟨b, rfl, c, hc, rfl⟩ := Language.mem_mul.1 ha
    have hc' : run true c = some true := hopen hc
    have hb : run false ([.start] ++ c) = some true := hc'
    rw [run_append, hb]
    rfl

theorem run_messages {word : List Fragmentation} (h : word ∈ messages) :
    run false word = some false := by
  have hle : messages ≤ ({w | run false w = some false} : Language Fragmentation) := by
    refine kstar_le_of_mul_le_right (fun w hw => ?_) fun w hw => ?_
    · cases hw
      rfl
    · obtain ⟨a, ha, b, hb, rfl⟩ := Language.mem_mul.1 hw
      have h : run false (a ++ b) = some false := by
        rw [run_append, run_message ha]
        exact hb
      exact h
  exact hle h

theorem append_mem_messages {a b : List Fragmentation} (ha : a ∈ message) (hb : b ∈ messages) :
    a ++ b ∈ messages :=
  (mul_kstar_le_kstar : message * message∗ ≤ message∗) (Language.append_mem_mul ha hb)

/-- Frames that leave no message open are those of whole messages, and behind an open message
first comes the rest of that one. -/
theorem mem_of_run (word : List Fragmentation) :
    (run false word = some false → word ∈ messages) ∧
      (run true word = some false →
        ∃ rest ∈ ({[.continue]}∗ * {[.last]} : Language Fragmentation), ∃ behind ∈ messages,
          word = rest ++ behind) := by
  induction word with
  | nil => exact ⟨fun _ => Language.nil_mem_kstar _, nofun⟩
  | cons f word ih =>
    cases f with
    | none =>
      refine ⟨fun h => ?_, nofun⟩
      exact append_mem_messages (.inl rfl) (ih.1 h)
    | start =>
      refine ⟨fun h => ?_, nofun⟩
      obtain ⟨rest, hr, behind, hb, rfl⟩ := ih.2 h
      have hm : [.start] ++ rest ∈ message := by
        rw [message, mul_assoc]
        exact .inr (Language.append_mem_mul rfl hr)
      exact append_mem_messages hm hb
    | «continue» =>
      refine ⟨nofun, fun h => ?_⟩
      obtain ⟨rest, hr, behind, hb, rfl⟩ := ih.2 h
      obtain ⟨c, hc, l, hl, rfl⟩ := Language.mem_mul.1 hr
      have hle : {[.continue]} * {[.continue]}∗ ≤ ({[.continue]}∗ : Language Fragmentation) :=
        mul_kstar_le_kstar
      have hc' := hle (Language.append_mem_mul rfl hc)
      exact ⟨_, Language.append_mem_mul hc' hl, behind, hb, rfl⟩
    | last =>
      refine ⟨nofun, fun h => ?_⟩
      have hl : [] ++ [.last] ∈ ({[.continue]}∗ * {[.last]} : Language Fragmentation) :=
        Language.append_mem_mul (Language.nil_mem_kstar _) rfl
      exact ⟨_, hl, word, ih.1 h, rfl⟩

/-- Frames may come one behind the other exactly where more of them make whole messages. -/
theorem run_isSome_iff (word : List Fragmentation) :
    (run false word).isSome = true ↔ ∃ whole ∈ messages, word <+: whole := by
  constructor
  · intro h
    obtain ⟨isOpen, ho⟩ := Option.isSome_iff_exists.1 h
    cases isOpen with
    | false => exact ⟨word, (mem_of_run word).1 ho, List.prefix_refl _⟩
    | true =>
      refine ⟨word ++ [.last], (mem_of_run _).1 ?_, List.prefix_append _ _⟩
      rw [run_append, ho]
      rfl
  · rintro ⟨whole, hw, rest, rfl⟩
    have h := run_messages hw
    rw [run_append] at h
    exact Option.isSome_iff_exists.2 ((Option.bind_eq_some_iff.1 h).imp fun _ => And.left)

end Fragmentation

/-- Whether a message ends with the frame. -/
def StoredFrame.endsMessage (f : StoredFrame) : Bool :=
  f.fragmentation == .none || f.fragmentation == .last

/-- The frames behind the last one that ended a message. -/
def sinceEnd (frames : List StoredFrame) : List StoredFrame :=
  frames.rtakeWhile fun f => !f.endsMessage

/-- The bytes that frames carry. -/
def carried (frames : List StoredFrame) : Nat :=
  frames.foldl (fun size f => size + f.content.length) 0

theorem leavesOpen_eq (f : StoredFrame) : f.fragmentation.leavesOpen = !f.endsMessage := by
  unfold StoredFrame.endsMessage
  cases f.fragmentation <;> rfl

theorem sinceEnd_concat (front : List StoredFrame) (f : StoredFrame) :
    sinceEnd (front ++ [f]) = if f.endsMessage then [] else sinceEnd front ++ [f] := by
  rw [sinceEnd, List.rtakeWhile_concat]
  cases f.endsMessage <;> rfl

theorem carried_concat (front : List StoredFrame) (f : StoredFrame) :
    carried (front ++ [f]) = carried front + f.content.length := by
  rw [carried, List.foldl_append]
  rfl

namespace Reassembly

/-- What is kept of frames that were all taken. -/
def keeping (maxMessageSize : Nat) (frames : List StoredFrame) : Reassembly where
  maxMessageSize
  frames := sinceEnd frames
  count := (sinceEnd frames).length
  size := carried (sinceEnd frames)
  last := (frames.getLast?.map (·.fragmentation)).getD .none

/-- The answer to a frame that is taken behind others. -/
def answer (front : List StoredFrame) (f : StoredFrame) : Option Reassembled :=
  if f.endsMessage then some (join (sinceEnd front ++ [f])) else none

/-- The frames may come one behind the other, and at none of them the message it belongs to is too
large. -/
structure Fits (maxMessageSize : Nat) (frames : List StoredFrame) : Prop where
  word : (Fragmentation.run false (frames.map (·.fragmentation))).isSome = true
  small : ∀ front f, front ++ [f] <+: frames → carried (sinceEnd front ++ [f]) ≤ maxMessageSize

variable {maxMessageSize : Nat} {front frames : List StoredFrame} {f : StoredFrame}

/-- Frames that may come one behind the other leave a message open if the last of them does. -/
theorem run_eq_last {isOpen : Bool}
    (h : Fragmentation.run false (frames.map (·.fragmentation)) = some isOpen) :
    isOpen = (keeping maxMessageSize frames).last.leavesOpen := by
  induction frames using List.reverseRecOn with
  | nil => exact (Option.some.inj h).symm
  | append_singleton front f _ =>
    rw [List.map_append, List.map_singleton, Fragmentation.run_concat,
      Option.bind_eq_some_iff] at h
    obtain ⟨before, -, h⟩ := h
    simp only [keeping, List.getLast?_concat, Option.map_some, Option.getD_some]
    unfold Fragmentation.step at h
    split at h
    · exact (Option.some.inj h).symm
    · cases h

theorem Fits.left (h : Fits maxMessageSize (front ++ frames)) : Fits maxMessageSize front := by
  refine ⟨?_, fun a f ha => h.small a f (ha.trans (List.prefix_append _ _))⟩
  have hw := h.word
  rw [List.map_append, Fragmentation.run_append] at hw
  exact Option.isSome_of_isSome_bind hw

theorem fits_concat :
    Fits maxMessageSize (front ++ [f]) ↔ Fits maxMessageSize front ∧
      f.fragmentation.follows (keeping maxMessageSize front).last = true ∧
      carried (sinceEnd front ++ [f]) ≤ maxMessageSize := by
  have hrun (h : (Fragmentation.run false (front.map (·.fragmentation))).isSome = true) :
      (Fragmentation.run false ((front ++ [f]).map (·.fragmentation))).isSome =
        f.fragmentation.follows (keeping maxMessageSize front).last := by
    obtain ⟨isOpen, ho⟩ := Option.isSome_iff_exists.1 h
    have hlast : isOpen = (keeping maxMessageSize front).last.leavesOpen := run_eq_last ho
    rw [List.map_append, List.map_singleton, Fragmentation.run_concat, ho, hlast,
      Option.bind_some, Fragmentation.step_leavesOpen]
    cases f.fragmentation.follows (keeping maxMessageSize front).last <;> rfl
  constructor
  · intro h
    refine ⟨h.left, ?_, h.small front f (List.prefix_refl _)⟩
    rw [← hrun h.left.word]
    exact h.word
  · rintro ⟨h, ho, hs⟩
    refine ⟨(hrun h.word).trans ho, fun a g ha => ?_⟩
    obtain he | hp := List.prefix_concat_iff.1 ha
    · obtain ⟨rfl, hg⟩ := List.append_inj' he rfl
      cases hg
      exact hs
    · exact h.small a g hp

theorem push_taken (ho : f.fragmentation.follows (keeping maxMessageSize front).last = true)
    (hs : carried (sinceEnd front ++ [f]) ≤ maxMessageSize) :
    (keeping maxMessageSize front).push f =
      (.ok (answer front f), keeping maxMessageSize (front ++ [f])) := by
  have hl := leavesOpen_eq f
  have hkeep : keeping maxMessageSize (front ++ [f]) =
      { maxMessageSize
        frames := sinceEnd (front ++ [f])
        count := (sinceEnd (front ++ [f])).length
        size := carried (sinceEnd (front ++ [f]))
        last := f.fragmentation } := by
    simp only [keeping, List.getLast?_concat, Option.map_some, Option.getD_some]
  have hsize : (keeping maxMessageSize front).size + f.content.length =
      carried (sinceEnd front ++ [f]) := (carried_concat _ _).symm
  have hcount : (keeping maxMessageSize front).count + 1 = (sinceEnd front ++ [f]).length := by
    rw [List.length_append, List.length_singleton]
    rfl
  rw [hkeep, sinceEnd_concat, answer]
  have hsmall : ¬ (keeping maxMessageSize front).maxMessageSize < carried (sinceEnd front ++ [f]) :=
    Nat.not_lt.2 hs
  simp only [push, ho, hl, hsize, hcount, Bool.not_true, Bool.false_eq_true, if_false,
    if_neg hsmall]
  cases f.endsMessage <;> rfl

theorem push_refused (h : ¬ (f.fragmentation.follows (keeping maxMessageSize front).last = true ∧
    carried (sinceEnd front ++ [f]) ≤ maxMessageSize)) :
    ∃ cause, ((keeping maxMessageSize front).push f).1 = .error cause := by
  have hsize : (keeping maxMessageSize front).size + f.content.length =
      carried (sinceEnd front ++ [f]) := (carried_concat _ _).symm
  simp only [push, hsize]
  cases ho : f.fragmentation.follows (keeping maxMessageSize front).last with
  | false => exact ⟨_, rfl⟩
  | true =>
    rw [ho] at h
    have hs : (keeping maxMessageSize front).maxMessageSize < carried (sinceEnd front ++ [f]) :=
      Nat.not_le.1 fun hs => h ⟨rfl, hs⟩
    simp only [Bool.not_true, Bool.false_eq_true, if_false, if_pos hs]
    exact ⟨_, rfl⟩

theorem pushAll_concat (r : Reassembly) (front : List StoredFrame) (f : StoredFrame) :
    r.pushAll (front ++ [f]) =
      ((r.pushAll front).1 ++ [((r.pushAll front).2.push f).1],
        ((r.pushAll front).2.push f).2) := by
  induction front generalizing r with
  | nil => rfl
  | cons g front ih => simp only [List.cons_append, pushAll, ih]

/-- A push keeps count of the frames. -/
theorem push_count {r : Reassembly} (h : r.count = r.frames.length) (f : StoredFrame) :
    (r.push f).2.count = (r.push f).2.frames.length := by
  unfold push
  dsimp only
  split
  · exact h
  · split
    · exact h
    · split
      · rw [List.length_append, List.length_singleton, ← h]
      · rfl

/-- However many pushes there are, they keep count of the frames. -/
theorem pushAll_count {r : Reassembly} (h : r.count = r.frames.length)
    (frames : List StoredFrame) :
    (r.pushAll frames).2.count = (r.pushAll frames).2.frames.length := by
  induction frames generalizing r with
  | nil => exact h
  | cons f frames ih => exact ih (push_count h f)

/-- All frames are taken. -/
def TakesAll (maxMessageSize : Nat) (frames : List StoredFrame) : Prop :=
  ∀ a ∈ (pushAll { maxMessageSize } frames).1, ∃ m, a = .ok m

/-- Frames that fit are taken, and what is kept of them is known. Others are not. -/
theorem pushAll_fits (maxMessageSize : Nat) (frames : List StoredFrame) :
    (TakesAll maxMessageSize frames ↔ Fits maxMessageSize frames) ∧
      (Fits maxMessageSize frames →
        (pushAll { maxMessageSize } frames).2 = keeping maxMessageSize frames) := by
  induction frames using List.reverseRecOn with
  | nil =>
    refine ⟨⟨fun _ => ⟨rfl, fun front f h => ?_⟩, fun _ => List.forall_mem_nil _⟩, fun _ => rfl⟩
    exact absurd (List.prefix_nil.1 h) (List.concat_ne_nil _ _)
  | append_singleton front f ih =>
    obtain ⟨hiff, hkeep⟩ := ih
    unfold TakesAll at hiff ⊢
    rw [pushAll_concat, fits_concat, List.forall_mem_append, List.forall_mem_singleton, hiff]
    constructor
    · refine and_congr_right fun h => ?_
      rw [hkeep h]
      constructor
      · rintro ⟨m, hm⟩
        by_contra hn
        obtain ⟨cause, hc⟩ := push_refused hn
        cases hm.symm.trans hc
      · rintro ⟨ho, hs⟩
        exact ⟨_, congrArg Prod.fst (push_taken ho hs)⟩
    · rintro ⟨h, ho, hs⟩
      dsimp only
      rw [hkeep h, push_taken ho hs]

/-- The answer to a frame does not depend on what comes behind it. -/
theorem pushAll_answer (h : front ++ [f] <+: frames) (r : Reassembly) :
    (r.pushAll frames).1[front.length]? = some ((r.pushAll front).2.push f).1 := by
  obtain ⟨later, rfl⟩ := h
  induction front generalizing r with
  | nil => rfl
  | cons g front ih => exact ih (r.push g).2

theorem isSome_answer (front : List StoredFrame) (f : StoredFrame) :
    (answer front f).isSome = f.endsMessage := by
  unfold answer
  cases f.endsMessage <;> rfl

/-- A message comes of its frames, and has the opcode of the first. -/
theorem join_spec (front : List StoredFrame) (f : StoredFrame) :
    (join (front ++ [f])).spent = front ++ [f] ∧
      (join (front ++ [f])).payload = (front ++ [f]).flatMap (·.content) ∧
      (front ++ [f]).head?.map (·.opcode) = some (join (front ++ [f])).opcode := by
  refine ⟨rfl, rfl, ?_⟩
  cases front <;> rfl

/-- All frames of a sequence are taken exactly when their places in messages begin a sequence of
whole messages and no message grows beyond the limit. Then there is an answer to each frame that
ends a message and to no other: the message of the frames behind the last end, in order. As many
frames are kept as came behind the last end. -/
theorem takesAll_language (maxMessageSize : Nat) (frames : List StoredFrame) :
    (TakesAll maxMessageSize frames ↔
      (∃ whole ∈ Fragmentation.messages, frames.map (·.fragmentation) <+: whole) ∧
        ∀ front f, front ++ [f] <+: frames →
          carried (sinceEnd front ++ [f]) ≤ maxMessageSize) ∧
    (TakesAll maxMessageSize frames →
      (∀ front, front <+: frames →
        (pushAll { maxMessageSize } front).2.count = (sinceEnd front).length) ∧
      ∀ front f, front ++ [f] <+: frames →
        ∃ answer, (pushAll { maxMessageSize } frames).1[front.length]? = some (.ok answer) ∧
          (answer.isSome = true ↔ f.fragmentation = .none ∨ f.fragmentation = .last) ∧
          ∀ m ∈ answer, m.spent = sinceEnd front ++ [f] ∧
            m.payload = (sinceEnd front ++ [f]).flatMap (·.content) ∧
            (sinceEnd front ++ [f]).head?.map (·.opcode) = some m.opcode) := by
  obtain ⟨hiff, -⟩ := pushAll_fits maxMessageSize frames
  refine ⟨?_, fun h => ⟨?_, ?_⟩⟩
  · rw [hiff, ← Fragmentation.run_isSome_iff]
    exact ⟨fun h => ⟨h.word, h.small⟩, fun h => ⟨h.1, h.2⟩⟩
  · rintro front ⟨later, rfl⟩
    rw [(pushAll_fits maxMessageSize front).2 (hiff.1 h).left]
    rfl
  · intro front f hp
    obtain ⟨later, hl⟩ := hp
    have hfits := hiff.1 h
    rw [← hl] at hfits
    obtain ⟨hfront, ho, hs⟩ := fits_concat.1 hfits.left
    refine ⟨answer front f, ?_, ?_, ?_⟩
    · rw [pushAll_answer ⟨later, hl⟩, (pushAll_fits maxMessageSize front).2 hfront,
        push_taken ho hs]
    · rw [isSome_answer, StoredFrame.endsMessage, Bool.or_eq_true, beq_iff_eq, beq_iff_eq]
    · intro m hm
      unfold answer at hm
      split at hm
      · cases hm
        exact join_spec _ _
      · cases hm

end Reassembly

end OriginServer.WebSocket
