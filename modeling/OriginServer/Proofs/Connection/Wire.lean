import OriginServer.Proofs.Connection.Answer
import OriginServer.Proofs.Connection.Effect
import OriginServer.Proofs.WebSocket.Signals

namespace OriginServer

open OriginServer.Http OriginServer.Site OriginServer.WebSocket

/-- A file that is put out has all of its part. -/
def Output.Whole : Output → Prop
  | bytes _ => True
  | file body => body.offset + body.remaining ≤ body.file.length

section Outputs

variable {setting : Setting} {P : Output → Prop}

namespace Connection

theorem handleFrame_output (hf : ∀ opcode payload, P (.bytes (frameBytes opcode true payload none)))
    (pools : Pools) (c : Connection) (f : StoredFrame) :
    ∀ o ∈ (handleFrame pools c f).output, P o := by
  unfold handleFrame
  split
  · exact List.forall_mem_singleton.2 (hf _ _)
  · exact List.forall_mem_nil _
  · exact List.forall_mem_singleton.2 (hf _ _)
  · split <;> exact List.forall_mem_nil _

/-- Output is a frame that was asked for, or it belongs to a reply. -/
theorem pop_output (hf : ∀ opcode payload, P (.bytes (frameBytes opcode true payload none)))
    (hr : ∀ domain m reply, Reply.toMessage setting domain m = .ok reply → ∀ o ∈ reply.output, P o)
    (pools : Pools) (c : Connection) : ∀ o ∈ (pop setting pools c).output, P o := by
  unfold pop
  split
  · exact List.forall_mem_nil _
  · split
    · unfold popRequest
      split
      · exact List.forall_mem_nil _
      · dsimp only
        generalize ho : replyTo _ _ _ _ = outcome
        unfold conclude
        split
        · exact List.forall_mem_nil _
        · exact List.forall_mem_nil _
        · have hm := toMessage_of_replyTo ho
          split <;> exact hr _ _ _ hm
    · unfold popFrame
      split
      · exact List.forall_mem_nil _
      · dsimp only
        unfold concludeFrame
        split
        · split
          · exact List.forall_mem_nil _
          · exact handleFrame_output hf _ _ _
        · exact List.forall_mem_nil _
        · exact List.forall_mem_nil _

/-- What holds of the output of every attempt holds of the output of a whole call. -/
theorem drain_output (hp : ∀ pools c, ∀ o ∈ (pop setting pools c).output, P o) (pools : Pools)
    (c : Connection) : ∀ o ∈ (drain setting pools c).output, P o := by
  fun_induction drain setting pools c with
  | case1 pools c cause h => exact hp pools c
  | case2 pools c h => exact hp pools c
  | case3 pools c h => exact hp pools c
  | case4 pools c h first rest ih => exact List.forall_mem_append.2 ⟨hp pools c, ih⟩

theorem io_output (hp : ∀ pools c, ∀ o ∈ (pop setting pools c).output, P o)
    (pools : Pools) (c : Connection) (domain : String) (data : Bytes) :
    ∀ o ∈ (io setting pools c domain data).output, P o := by
  unfold io
  split
  · exact List.forall_mem_nil _
  · split
    · exact List.forall_mem_nil _
    · rw [output_checkSize]
      exact drain_output hp _ _

end Connection

end Outputs

/-- The chunks of a file that is put out do not take more memory than there can be. -/
def Output.Fits : Output → Prop
  | bytes _ => True
  | file body => body.chunkSize ≤ Buffer.maxStore

theorem Connection.io_fits {setting : Setting}
    (hc : setting.config.limits.fileChunkSize ≤ Buffer.maxStore) (pools : Pools) (c : Connection)
    (domain : String) (data : Bytes) : ∀ o ∈ (io setting pools c domain data).output, o.Fits := by
  refine io_output (pop_output (fun _ _ => trivial) ?_) pools c domain data
  intro domain m reply h
  obtain ⟨key, -, rfl⟩ | ⟨s, hs, rfl⟩ := Reply.toMessage_answer h
  · exact List.forall_mem_singleton.2 trivial
  · unfold Reply.ofServed
    cases hb : s.body with
    | none => exact List.forall_mem_singleton.2 trivial
    | some body =>
      have hfits : (Output.file body).Fits := by
        rw [Output.Fits, hs.chunkSize_eq hb]
        exact Nat.max_le.2 ⟨hc, by decide⟩
      exact List.forall_mem_cons.2 ⟨trivial, List.forall_mem_singleton.2 hfits⟩

/-- Output made of answers that leave a connection with HTTP. -/
def Answers (output : List Output) : Prop :=
  ∃ served : List Served, output = served.flatMap (fun s => (Reply.ofServed s).output) ∧
    ∀ s ∈ served, s.head.status ≠ .switchingProtocols

theorem Answers.nil : Answers [] := ⟨[], rfl, List.forall_mem_nil _⟩

theorem Answers.cons {s : Served} {output : List Output} (hs : s.head.status ≠ .switchingProtocols)
    (h : Answers output) : Answers ((Reply.ofServed s).output ++ output) := by
  obtain ⟨served, rfl, hall⟩ := h
  exact ⟨s :: served, rfl, List.forall_mem_cons.2 ⟨hs, hall⟩⟩

theorem HttpAnswer.status_ne_switching {fs : FileSystem} {chunkSize : Nat} {s : Served}
    (h : HttpAnswer fs chunkSize s) : s.head.status ≠ .switchingProtocols := by
  cases h with
  | file h =>
    cases h <;> simp [announce, Response.notFound, Response.internalError, Response.plain,
      Response.rangeNotSatisfiable]
  | methodNotAllowed => simp [Response.methodNotAllowed]
  | badRequest => simp [Response.badRequest, Response.plain]
  | upgradeRequired => simp [Handshake.upgradeRequiredResponse]

theorem HttpAnswer.whole {fs : FileSystem} {chunkSize : Nat} {s : Served}
    (h : HttpAnswer fs chunkSize s) : ∀ o ∈ (Reply.ofServed s).output, o.Whole := by
  unfold Reply.ofServed
  cases hb : s.body with
  | none => exact List.forall_mem_singleton.2 trivial
  | some body =>
    exact List.forall_mem_cons.2 ⟨trivial, List.forall_mem_singleton.2 (h.body_inside hb)⟩

namespace Effect

variable {f g : Face} {e : Effect} {effects : List Effect} {closes : Bool}

theorem Step.whole (hs : Step f e g) : ∀ o ∈ e.output, o.Whole := by
  cases hs with
  | answered hp h => exact h.whole
  | switched hp hd => exact List.forall_mem_singleton.2 trivial
  | ponged hp hl => exact List.forall_mem_singleton.2 trivial
  | bound hd => exact List.forall_mem_nil _
  | delivered hp => exact List.forall_mem_nil _

theorem Course.whole (hc : Course f effects g closes) :
    ∀ o ∈ effects.flatMap Effect.output, o.Whole := by
  induction hc with
  | nil f => exact List.forall_mem_nil _
  | closed hp hl => exact List.forall_mem_singleton.2 trivial
  | cons hs hl ih => exact List.forall_mem_append.2 ⟨hs.whole, ih⟩

/-- The effects of a WebSocket are signals, none of which is a text. -/
theorem Course.talk (hc : Course f effects g closes) (hp : f.protocol = .webSocket) (size : Nat) :
    ∃ signals, Signal.Talk signals closes ∧ signals.filterMap Signal.text? = [] ∧
      (effects.flatMap Effect.output).flatMap Output.content =
        signals.flatMap (Signal.bytes size) := by
  induction hc with
  | nil f => exact ⟨[], .nil, rfl, rfl⟩
  | @closed f payload _ hl =>
    exact ⟨[.close payload], .close hl, rfl, rfl⟩
  | @cons f g _ e later closes hs _ ih =>
    cases hs with
    | bound hd =>
      obtain ⟨signals, ht, hnone, hw⟩ := ih hp
      exact ⟨signals, ht, hnone, hw⟩
    | answered hp' h => cases hp.symm.trans hp'
    | switched hp' hd => cases hp.symm.trans hp'
    | @ponged payload _ hl =>
      obtain ⟨signals, ht, hnone, hw⟩ := ih hp
      have ho : (ponged payload).output.flatMap Output.content =
          (Signal.pong payload).bytes size :=
        List.flatMap_singleton _ _
      refine ⟨.pong payload :: signals, .pong hl ht, hnone, ?_⟩
      rw [List.flatMap_cons, List.flatMap_append, hw, ho, List.flatMap_cons]
    | delivered _ =>
      obtain ⟨signals, ht, hnone, hw⟩ := ih hp
      exact ⟨signals, ht, hnone, hw⟩

/-- The effects of a connection that begins with HTTP are answers, up to the one that switches the
protocol, if there is one. -/
theorem Course.split (hc : Course f effects g closes) (hp : f.protocol = .http) :
    (g.protocol = .http ∧ closes = false ∧ Answers (effects.flatMap Effect.output)) ∨
      ∃ before key domain behind mid, effects = before ++ .switched key domain :: behind ∧
        Answers (before.flatMap Effect.output) ∧ mid.protocol = .webSocket ∧
        Course mid behind g closes := by
  induction hc with
  | nil f => exact .inl ⟨hp, rfl, .nil⟩
  | closed hp' hl => cases hp.symm.trans hp'
  | @cons f g _ e later _ hs hl ih =>
    cases hs with
    | bound hd =>
      obtain ⟨hg, hclose, ha⟩ | ⟨before, key, domain, behind, mid, rfl, ha, hm⟩ := ih hp
      · exact .inl ⟨hg, hclose, ha⟩
      · exact .inr ⟨.bound _ :: before, key, domain, behind, mid, rfl, ha, hm⟩
    | answered _ h =>
      obtain ⟨hg, hclose, ha⟩ | ⟨before, key, domain, behind, mid, rfl, ha, hm⟩ := ih hp
      · exact .inl ⟨hg, hclose, .cons h.status_ne_switching ha⟩
      · exact .inr ⟨.answered _ :: before, key, domain, behind, mid, rfl,
          .cons h.status_ne_switching ha, hm⟩
    | @switched key domain _ hd => exact .inr ⟨[], key, _, later, _, rfl, .nil, rfl, hl⟩
    | ponged hp' hl => cases hp.symm.trans hp'
    | delivered hp' => cases hp.symm.trans hp'

end Effect

end OriginServer
