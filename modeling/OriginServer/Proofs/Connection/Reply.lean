import OriginServer.Connection.Basic
import OriginServer.Proofs.Except
import OriginServer.Proofs.Http.Response
import OriginServer.Proofs.Http.StoredMessage
import OriginServer.Proofs.Site.Path

namespace OriginServer

open OriginServer.Http OriginServer.Site OriginServer.WebSocket StoredMessage

variable {m m' : StoredMessage}

theorem WebSocket.Handshake.isUpgradeRequest_congr (h : SameHead m m') :
    isUpgradeRequest m = isUpgradeRequest m' := by
  unfold isUpgradeRequest
  rw [h.hasWord, h.hasWord]

theorem WebSocket.Handshake.answer_congr (h : SameHead m m') : answer m = answer m' := by
  unfold answer
  rw [isUpgradeRequest_congr h, h.method, h.version, h.field, h.field, h.field]

theorem Reply.toMessage_congr (h : SameHead m m') (setting : Setting) (domain : String) :
    toMessage setting domain m = toMessage setting domain m' := by
  unfold toMessage namesHost toUpgrade toFileRequest
  rw [Handshake.isUpgradeRequest_congr h, Handshake.answer_congr h, h.kind, h.method, h.target,
    h.field, h.field]

/-- The answers that leave a connection with HTTP. -/
inductive HttpAnswer (fs : FileSystem) (chunkSize : Nat) : Served → Prop
  | file {s : Served} (h : FileAnswer fs chunkSize s) : HttpAnswer fs chunkSize s
  | methodNotAllowed : HttpAnswer fs chunkSize ⟨.methodNotAllowed, none⟩
  | badRequest : HttpAnswer fs chunkSize ⟨.badRequest, none⟩
  | upgradeRequired : HttpAnswer fs chunkSize ⟨Handshake.upgradeRequiredResponse, none⟩

theorem HttpAnswer.status_ne {fs : FileSystem} {chunkSize : Nat} {s : Served}
    (h : HttpAnswer fs chunkSize s) : s.head.status ≠ .forbidden := by
  cases h with
  | file h => exact h.status_ne
  | methodNotAllowed => simp [Response.methodNotAllowed]
  | badRequest => simp [Response.badRequest, Response.plain]
  | upgradeRequired => simp [Handshake.upgradeRequiredResponse]

variable {setting : Setting} {domain : String}

theorem Reply.toFileRequest_answer (setting : Setting) (domain : String) (m : StoredMessage) :
    ∃ s, HttpAnswer setting.files setting.config.limits.fileChunkSize s ∧
      toFileRequest setting domain m = ofServed s := by
  unfold toFileRequest
  split
  · exact ⟨_, .methodNotAllowed, rfl⟩
  · split
    · exact ⟨_, .badRequest, rfl⟩
    · rename_i path hp
      split
      · exact ⟨_, .file .missing, rfl⟩
      · rename_i d hd
        obtain ⟨t, -, ht⟩ := Option.bind_eq_some_iff.1 hp
        obtain ⟨raw, rfl⟩ := Target.eq_remove_of_pathBy? (Target.path?_eq_pathBy? t ▸ ht)
        exact ⟨_, .file (serve_answer (below?_remove d.root raw) _ _), rfl⟩

namespace WebSocket.Handshake

/-- A request asks for a WebSocket as it has to, with that key. -/
structure Asks (m : StoredMessage) (key : Bytes) : Prop where
  method : m.method? = some (Bytes.ofText "GET")
  version : m.parts.version.atLeast 1 1 = true
  upgrade : m.hasWord "Upgrade" "websocket" = true
  connection : m.hasWord "Connection" "upgrade" = true
  firstKey : m.field? "Sec-WebSocket-Key" = some key
  length_key : key.length = 24
  nonce : ∃ nonce, Base64.decode? key = some nonce ∧ nonce.length = 16
  supported : m.field? "Sec-WebSocket-Version" = some (Bytes.ofText "13")

theorem isValidKey_iff {key : Bytes} :
    isValidKey key = true ↔
      key.length = 24 ∧ ∃ nonce, Base64.decode? key = some nonce ∧ nonce.length = 16 := by
  rw [isValidKey, Bool.and_eq_true, beq_iff_eq, Option.any_eq_true]
  simp only [beq_iff_eq]

theorem answer_eq_ok {h : Handshake} (ha : answer m = .ok h) :
    (∃ key, Asks m key ∧ h = .accepted (acceptedResponse key)) ∨
      h = .upgradeRequired upgradeRequiredResponse := by
  unfold answer at ha
  dsimp only at ha
  obtain ⟨hwords, ha⟩ := guarded_eq_ok.1 ha
  obtain ⟨hmethod, ha⟩ := guarded_eq_ok.1 ha
  obtain ⟨hversion, ha⟩ := guarded_eq_ok.1 ha
  obtain ⟨-, ha⟩ := guarded_eq_ok.1 ha
  simp only [Bool.not_eq_true, Bool.not_eq_false', ne_eq, not_not] at hwords hmethod hversion
  obtain ⟨hupgrade, hconnection⟩ := Bool.and_eq_true_iff.1 hwords
  split at ha
  · rename_i key hkey
    obtain ⟨hvalid, ha⟩ := guarded_eq_ok.1 ha
    simp only [Bool.not_eq_true, Bool.not_eq_false'] at hvalid
    obtain ⟨hlength, hnonce⟩ := isValidKey_iff.1 hvalid
    split at ha
    · rename_i hsupported
      exact .inl ⟨key, ⟨hmethod, hversion, hupgrade, hconnection, hkey, hlength, hnonce,
        hsupported⟩, (pure_eq_ok.1 ha).symm⟩
    · exact .inr (pure_eq_ok.1 ha).symm
  · cases ha

end WebSocket.Handshake

theorem Reply.upgrades_ofServed (s : Served) : (ofServed s).upgrades = false := by
  unfold ofServed
  split <;> rfl

section Announcements

variable {status : Status}

/-- Output begins like a response of that status. -/
def Output.announces (status : Status) : Output → Bool
  | bytes b => (Response.startText { status }).isPrefixOf b
  | file _ => false

theorem Output.announces_head {r : Response} (hs : r.status ≠ status) (rest : Bytes) :
    (bytes (r.head ++ rest)).announces status = false := by
  rw [announces, Bool.eq_false_iff, ne_eq, List.isPrefixOf_iff_prefix]
  exact fun h => hs (Response.status_of_startText h)

/-- A frame begins like no response. -/
theorem Output.announces_frame (status : Status) (opcode : Opcode) (payload : Bytes) :
    (bytes (frameBytes opcode true payload none)).announces status = false := by
  rw [announces, Bool.eq_false_iff, ne_eq, List.isPrefixOf_iff_prefix]
  rintro ⟨rest, hr⟩
  have hh : some (0x48 : UInt8) = some (UInt8.ofNat (128 + opcode.code)) :=
    congrArg List.head? hr
  revert hh
  cases opcode <;> decide

theorem Reply.announces_ofServed {s : Served} (hs : s.head.status ≠ status) :
    ∀ o ∈ (ofServed s).output, o.announces status = false := by
  unfold ofServed
  split
  · refine List.forall_mem_cons.2 ⟨?_, List.forall_mem_singleton.2 rfl⟩
    rw [← List.append_nil s.head.head]
    exact Output.announces_head hs []
  · exact List.forall_mem_singleton.2 (Output.announces_head hs s.head.body)

end Announcements

/-- A request is refused, taken over to the WebSocket protocol, or answered. -/
theorem Reply.toMessage_answer {reply : Reply} (h : toMessage setting domain m = .ok reply) :
    (∃ key, Handshake.Asks m key ∧
      reply = { output := [.bytes (Handshake.acceptedResponse key).wire], upgrades := true }) ∨
    ∃ s, HttpAnswer setting.files setting.config.limits.fileChunkSize s ∧ reply = ofServed s := by
  unfold toMessage at h
  split at h
  · cases h
  · split at h
    · cases h
    · split at h
      · unfold toUpgrade at h
        split at h
        · cases h
        · rename_i r ha
          obtain ⟨key, hasks, hr⟩ | hr := Handshake.answer_eq_ok ha
          · cases h
            cases hr
            exact .inl ⟨key, hasks, rfl⟩
          · cases hr
        · rename_i r ha
          obtain ⟨key, -, hr⟩ | hr := Handshake.answer_eq_ok ha
          · cases hr
          · cases h
            cases hr
            exact .inr ⟨_, .upgradeRequired, rfl⟩
      · cases h
        exact .inr (toFileRequest_answer setting domain m)

/-- Only requests that name the domain get a reply. -/
theorem Reply.toMessage_admitted {reply : Reply} (h : toMessage setting domain m = .ok reply) :
    m.kind? = some .request ∧
      ∃ host, m.field? "Host" = some host ∧ HostName.names host domain = true := by
  unfold toMessage at h
  split at h
  · cases h
  · rename_i hkind
    split at h
    · cases h
    · rename_i hhost
      simp only [Bool.not_eq_true, Bool.not_eq_false'] at hhost
      exact ⟨not_not.1 hkind, (Option.any_eq_true _ _).1 hhost⟩

/-- A reply is one to the message that was read. -/
theorem Connection.toMessage_of_replyTo {outcome : Scan ParseError Unit} {reply : Reply} {n : Nat}
    (h : replyTo setting domain m outcome = .ok (some (reply, n))) :
    Reply.toMessage setting domain m = .ok reply := by
  cases outcome with
  | done u next =>
    cases hm : Reply.toMessage setting domain m with
    | error cause => simp [replyTo, hm, Except.map] at h
    | ok r =>
      simp only [replyTo, hm, Except.map, Except.ok.injEq, Option.some.injEq, Prod.mk.injEq] at h
      rw [h.1]
  | more => cases h
  | fail cause => cases h

end OriginServer
