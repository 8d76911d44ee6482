import OriginServer.Scan

namespace OriginServer

namespace Span

/-- The span lies between two places. -/
def Within (s : Span) (first last : Nat) : Prop := first ≤ s.start ∧ s.stop ≤ last

theorem Within.mono {s : Span} {first last first' last' : Nat} (h : s.Within first last)
    (hf : first' ≤ first) (hl : last ≤ last') : s.Within first' last' :=
  ⟨Nat.le_trans hf h.1, Nat.le_trans h.2 hl⟩

/-- The spans lie between two places, one behind the other. -/
def Chain (first last : Nat) : List Span → Prop
  | [] => first ≤ last
  | s :: spans => first ≤ s.start ∧ Chain s.stop last spans

theorem Chain.mono_left {first first' last : Nat} {spans : List Span} (h : Chain first last spans)
    (hf : first' ≤ first) : Chain first' last spans := by
  cases spans with
  | nil => exact Nat.le_trans hf h
  | cons s spans => exact ⟨Nat.le_trans hf h.1, h.2⟩

theorem Chain.mono_right {first last last' : Nat} {spans : List Span} (h : Chain first last spans)
    (hl : last ≤ last') : Chain first last' spans := by
  induction spans generalizing first with
  | nil => exact Nat.le_trans h hl
  | cons s spans ih => exact ⟨h.1, ih h.2⟩

theorem Chain.le {first last : Nat} {spans : List Span} (h : Chain first last spans) :
    first ≤ last := by
  induction spans generalizing first with
  | nil => exact h
  | cons s spans ih =>
    have hs := ih h.2
    have hf := h.1
    simp only [stop] at hs
    omega

theorem Chain.append {first mid last : Nat} {spans spans' : List Span} (h : Chain first mid spans)
    (h' : Chain mid last spans') : Chain first last (spans ++ spans') := by
  induction spans generalizing first with
  | nil => exact h'.mono_left h
  | cons s spans ih => exact ⟨h.1, ih h.2⟩

theorem Chain.within {first last : Nat} {spans : List Span} (h : Chain first last spans) :
    ∀ s ∈ spans, s.Within first last := by
  induction spans generalizing first with
  | nil => exact List.forall_mem_nil _
  | cons s spans ih =>
    have hstop : first ≤ s.stop := Nat.le_trans h.1 (Nat.le_add_right _ _)
    refine List.forall_mem_cons.2 ⟨⟨h.1, h.2.le⟩, fun t ht => ?_⟩
    exact (ih h.2 t ht).mono hstop (Nat.le_refl _)

theorem Chain.pairwise {first last : Nat} {spans : List Span} (h : Chain first last spans) :
    spans.Pairwise fun s t => s.stop ≤ t.start := by
  induction spans generalizing first with
  | nil => exact List.Pairwise.nil
  | cons s spans ih => exact List.pairwise_cons.2 ⟨fun t ht => (h.2.within t ht).1, ih h.2⟩

/-- The span with the byte behind it. -/
def ended (s : Span) : Span := ⟨s.start, s.len + 1⟩

@[simp] theorem ended_start (s : Span) : s.ended.start = s.start := rfl

@[simp] theorem ended_stop (s : Span) : s.ended.stop = s.stop + 1 := rfl

/-- The spans lie between two places, each with the byte that ends it. -/
def Apart (first last : Nat) (spans : List Span) : Prop := Chain first last (spans.map ended)

theorem Apart.append {first mid last : Nat} {spans spans' : List Span} (h : Apart first mid spans)
    (h' : Apart mid last spans') : Apart first last (spans ++ spans') := by
  rw [Apart, List.map_append]
  exact Chain.append h h'

theorem Apart.within {first last : Nat} {spans : List Span} (h : Apart first last spans) :
    ∀ s ∈ spans, s.Within first last := by
  intro s hs
  obtain ⟨hstart, hstop⟩ := Chain.within h _ (List.mem_map_of_mem hs)
  exact ⟨hstart, Nat.le_trans (Nat.le_succ _) hstop⟩

/-- Spans with a byte between them do not even touch. -/
theorem Apart.pairwise {first last : Nat} {spans : List Span} (h : Apart first last spans) :
    spans.Pairwise fun s t => s.stop < t.start :=
  List.pairwise_map.1 (Chain.pairwise h)

theorem of_append {s : Span} {b : Bytes} (h : s.stop ≤ b.length) (later : Bytes) :
    s.of (b ++ later) = s.of b := by
  simp only [stop] at h
  simp only [of, Bytes.slice]
  rw [List.drop_append_of_le_length (by omega), List.take_append_of_le_length]
  rw [List.length_drop]
  omega

theorem length_of {s : Span} {b : Bytes} (h : s.stop ≤ b.length) : (s.of b).length = s.len := by
  simp only [stop] at h
  simp only [of, Bytes.slice, List.length_take, List.length_drop]
  omega

theorem of_middle {s : Span} {front item : Bytes} (hs : s.start = front.length)
    (hl : s.len = item.length) (behind : Bytes) : s.of (front ++ (item ++ behind)) = item := by
  rw [of, Bytes.slice, hs, hl, List.drop_left, List.take_left]

/-- Bytes behind a span do not count for it. -/
theorem of_front {s : Span} {k : Nat} (h : s.stop ≤ k) (b : Bytes) : s.of (b.take k) = s.of b := by
  simp only [stop] at h
  rw [of, of, Bytes.slice, Bytes.slice, List.drop_take, List.take_take, Nat.min_eq_left (by omega)]

theorem of_congr {s : Span} {k : Nat} {b b' : Bytes} (h : s.stop ≤ k)
    (hb : b.take k = b'.take k) : s.of b = s.of b' := by
  rw [← of_front h b, hb, of_front h b']

/-- A span in two parts, one behind the other. -/
theorem of_add (start k n : Nat) (b : Bytes) :
    Span.of ⟨start, k + n⟩ b = Span.of ⟨start, k⟩ b ++ Span.of ⟨start + k, n⟩ b := by
  simp only [of, Bytes.slice, List.take_add, List.drop_drop]

/-- The front of a span. -/
theorem of_take {s : Span} {k : Nat} {b : Bytes} (h : k ≤ (s.of b).length) :
    Span.of ⟨s.start, k⟩ b = (s.of b).take k := by
  simp only [of, Bytes.slice, List.length_take] at h ⊢
  rw [List.take_take, Nat.min_eq_left (by omega)]

end Span

end OriginServer
