import OriginServer.Proofs.Connection.Wire

namespace OriginServer

open OriginServer.Http OriginServer.Site OriginServer.WebSocket

/-- Whether output begins like a response that forbids a path. -/
def Output.Forbids : Output → Prop
  | .bytes b => Response.startText { status := .forbidden } <+: b
  | .file _ => False

theorem Output.forbids_iff {o : Output} : o.Forbids ↔ o.announces .forbidden = true := by
  cases o with
  | bytes b => exact List.isPrefixOf_iff_prefix.symm
  | file body => exact iff_of_false id Bool.false_ne_true

theorem not_forbids_frame (opcode : Opcode) (payload : Bytes) :
    ¬ (Output.bytes (frameBytes opcode true payload none)).Forbids := by
  rw [Output.forbids_iff, Output.announces_frame]
  exact Bool.false_ne_true

theorem not_forbids_reply {setting : Setting} {domain : String} {m : StoredMessage} {reply : Reply}
    (h : Reply.toMessage setting domain m = .ok reply) : ∀ o ∈ reply.output, ¬ o.Forbids := by
  intro o ho
  rw [Output.forbids_iff, Bool.not_eq_true]
  obtain ⟨key, -, rfl⟩ | ⟨s, hs, rfl⟩ := Reply.toMessage_answer h
  · rw [List.mem_singleton.1 ho]
    refine Output.announces_head ?_ (Handshake.acceptedResponse key).body
    simp [Handshake.acceptedResponse]
  · exact Reply.announces_ofServed hs.status_ne o ho

/-- The path of a target leads below every root by its segments, and no connection ever forbids
one. -/
theorem target_stays_below_root :
    (∀ (urlPath? decode? : String → Option String) (root target path : String),
      Target.pathBy? urlPath? decode? target = some path →
        below? root path = some ((names path).foldl join root) ∧
        (∀ s ∈ names path, s ≠ "." ∧ s ≠ ".." ∧ '/' ∉ s.toList) ∧
        ∀ fs range chunkSize, (serve fs root path range chunkSize).head.status ≠ .forbidden) ∧
    ∀ setting pools c domain data,
      ∀ o ∈ (Connection.io setting pools c domain data).output, ¬ o.Forbids := by
  constructor
  · intro urlPath? decode? root target path h
    obtain ⟨t, rfl⟩ := Target.eq_remove_of_pathBy? h
    have hb := below?_remove root t
    exact ⟨hb, fun s => names_remove, fun fs range chunkSize =>
      (serve_answer hb range chunkSize).status_ne⟩
  · intro setting pools c domain data
    exact Connection.io_output
      (Connection.pop_output not_forbids_frame fun _ _ _ => not_forbids_reply) pools c domain data

/-- Escaped dots that lead up. -/
theorem target_stays_below_root_dots :
    Target.pathBy? (fun t => (Target.url? t).map fun url => String.ofList url.path)
      Percent.decodeText? "/a/%2e%2e/b?q=1" = some "/b" ∧
    below? "public" "/b" = some "public/b" := by
  have hp : Target.pathBy? (fun t => (Target.url? t).map fun url => String.ofList url.path)
      Percent.decodeText? "/a/%2e%2e/b?q=1" = some "/b" := by decide +kernel
  have hb := (target_stays_below_root.1 _ _ "public" _ _ hp).1
  exact ⟨hp, hb.trans (by decide)⟩

end OriginServer
