import OriginServer.Proofs.Connection.Reply
import OriginServer.Proofs.Text.Base64

namespace OriginServer

open OriginServer.Http

theorem Sha1.length_digest (message : Bytes) : (digest message).length = 20 := by
  have hword (n : Nat) : (bigEndian 4 n).length = 4 := by
    rw [bigEndian, List.length_map, List.length_range]
  simp only [digest, List.flatMap_cons, List.flatMap_nil, List.length_append, hword,
    List.length_nil]

namespace WebSocket.Handshake

variable {m : StoredMessage} {key : Bytes}

section Keys

/-- Sixteen bytes in the canonical form, padding included. -/
def IsNonceText (key : Bytes) : Prop :=
  ∃ nonce : Bytes, nonce.length = 16 ∧ key = Base64.encode nonce

theorem isValidKey_iff_nonceText : isValidKey key = true ↔ IsNonceText key := by
  rw [isValidKey_iff]
  constructor
  · rintro ⟨-, nonce, hdecode, hlength⟩
    exact ⟨nonce, hlength, Base64.decode?_eq_some_iff.1 hdecode⟩
  · rintro ⟨nonce, hlength, rfl⟩
    refine ⟨?_, nonce, Base64.decode?_encode nonce, hlength⟩
    rw [Base64.length_encode, hlength]

instance (key : Bytes) : Decidable (IsNonceText key) :=
  decidable_of_iff _ isValidKey_iff_nonceText

/-- Twenty-one letters, one more whose last four bits are zero, and two signs of padding. -/
theorem isNonceText_iff :
    IsNonceText key ↔
      ∃ front v, key = front ++ [Base64.letter v, Base64.pad, Base64.pad] ∧ front.length = 21 ∧
        Base64.Letters front ∧ v < 64 ∧ v % 16 = 0 :=
  Base64.encode_padded_iff 5

theorem IsNonceText.length (h : IsNonceText key) : key.length = 24 := by
  obtain ⟨nonce, hlength, rfl⟩ := h
  rw [Base64.length_encode, hlength]

end Keys

section Answers

/-- A request for a WebSocket in which all is in order but, it may be, its first key and the version
of the protocol that it speaks. -/
structure Offers (m : StoredMessage) (key : Bytes) : Prop where
  upgrade : m.hasWord "Upgrade" "websocket" = true
  connection : m.hasWord "Connection" "upgrade" = true
  method : m.method? = some (Bytes.ofText "GET")
  version : m.parts.version.atLeast 1 1 = true
  host : (m.field? "Host").isSome = true
  firstKey : m.field? "Sec-WebSocket-Key" = some key

instance (m : StoredMessage) (key : Bytes) : Decidable (Offers m key) :=
  decidable_of_iff
    (m.hasWord "Upgrade" "websocket" = true ∧ m.hasWord "Connection" "upgrade" = true ∧
      m.method? = some (Bytes.ofText "GET") ∧ m.parts.version.atLeast 1 1 = true ∧
      (m.field? "Host").isSome = true ∧ m.field? "Sec-WebSocket-Key" = some key)
    ⟨fun ⟨hu, hc, hm, hv, hh, hk⟩ => ⟨hu, hc, hm, hv, hh, hk⟩,
      fun h => ⟨h.upgrade, h.connection, h.method, h.version, h.host, h.firstKey⟩⟩

/-- The key is checked before the version. -/
theorem Offers.answer_eq (h : Offers m key) :
    answer m =
      if isValidKey key then
        if m.field? "Sec-WebSocket-Version" = some (Bytes.ofText "13") then
          .ok (.accepted (acceptedResponse key))
        else .ok (.upgradeRequired upgradeRequiredResponse)
      else .error .invalidKey := by
  have hwords : isUpgradeRequest m = true := by rw [isUpgradeRequest, h.upgrade, h.connection]; rfl
  have hhost : (m.field? "Host").isNone = false := by rw [Option.isNone_eq_false_iff, h.host]
  simp only [answer, hwords, h.method, h.version, hhost, h.firstKey, ne_eq, not_true_eq_false,
    Bool.not_true, Bool.false_eq_true, if_false]
  cases isValidKey key <;> rfl

theorem Offers.answer_eq_ok_iff (h : Offers m key) (a : Handshake) :
    answer m = .ok a ↔
      IsNonceText key ∧
        a = if m.field? "Sec-WebSocket-Version" = some (Bytes.ofText "13") then
            .accepted (acceptedResponse key)
          else .upgradeRequired upgradeRequiredResponse := by
  rw [h.answer_eq, ← isValidKey_iff_nonceText]
  cases isValidKey key with
  | false => exact ⟨nofun, fun hk => absurd hk.1 Bool.false_ne_true⟩
  | true =>
    rw [if_pos rfl, ← apply_ite Except.ok, Except.ok.injEq, eq_comm]
    exact (and_iff_right rfl).symm

theorem Offers.answer_eq_error (h : Offers m key) (hk : ¬ IsNonceText key) :
    answer m = .error .invalidKey := by
  rw [h.answer_eq, if_neg fun hv => hk (isValidKey_iff_nonceText.1 hv)]

end Answers

section Values

theorem distinct_acceptNames :
    Response.Distinct ["Upgrade", "Connection", "Sec-WebSocket-Accept"] := by decide

theorem fields_acceptedResponse (key : Bytes) :
    (acceptedResponse key).fields =
      [("Upgrade", "websocket"), ("Connection", "Upgrade"),
        ("Sec-WebSocket-Accept", acceptKey key)] := by
  have hd : Response.Distinct ([("Upgrade", "websocket"), ("Connection", "Upgrade"),
    ("Sec-WebSocket-Accept", acceptKey key)].map (·.1)) := distinct_acceptNames
  rw [acceptedResponse, Response.make_eq hd, Response.withLength, if_pos (.inl rfl)]

theorem field?_acceptedResponse (key : Bytes) :
    (acceptedResponse key).field? "Sec-WebSocket-Accept" = some (acceptKey key) := by
  have hfields := fields_acceptedResponse key
  have hd : Response.Distinct ((acceptedResponse key).fields.map (·.1)) := by
    rw [hfields]
    exact distinct_acceptNames
  have hmem : ("Sec-WebSocket-Accept", acceptKey key) ∈ (acceptedResponse key).fields := by
    rw [hfields]
    exact List.mem_cons_of_mem _ (List.mem_cons_of_mem _ (List.mem_singleton_self _))
  exact Response.field?_of_distinct (f := ("Sec-WebSocket-Accept", acceptKey key)) hd hmem

/-- The value that answers a key stands for the digest of the key with the fixed text behind it. -/
theorem acceptKey_spec (key : Bytes) :
    Bytes.ofText (acceptKey key) = Base64.encode (Sha1.digest (key ++ acceptSuffix)) ∧
      (Bytes.ofText (acceptKey key)).length = 28 ∧
      Base64.decode? (Bytes.ofText (acceptKey key)) = some (Sha1.digest (key ++ acceptSuffix)) ∧
      (Sha1.digest (key ++ acceptSuffix)).length = 20 := by
  have htext : Bytes.ofText (acceptKey key) = Base64.encode (Sha1.digest (key ++ acceptSuffix)) :=
    Base64.ofText_encodeText _
  have hdigest := Sha1.length_digest (key ++ acceptSuffix)
  refine ⟨htext, ?_, ?_, hdigest⟩
  · rw [htext, Base64.length_encode, hdigest]
  · rw [htext, Base64.decode?_encode]

example : acceptKey (Bytes.ofText "dGhlIHNhbXBsZSBub25jZQ==") = "s3pPLMBiTxaQ9kYGzzhZRbK+xOo=" := by
  decide +kernel

/-- A request that is otherwise in order is taken if and only if its key is sixteen bytes in the
canonical form, and refused for its key if not. The answer that accepts it carries the canonical
form of the digest. -/
theorem answer_by_key (h : Offers m key) :
    ((∃ a, answer m = .ok a) ↔ IsNonceText key) ∧
      (¬ IsNonceText key → answer m = .error .invalidKey) ∧
      (IsNonceText key ↔
        ∃ front v, key = front ++ [Base64.letter v, Base64.pad, Base64.pad] ∧ front.length = 21 ∧
          Base64.Letters front ∧ v < 64 ∧ v % 16 = 0) ∧
      (IsNonceText key → key.length = 24) ∧
      (∀ r, answer m = .ok (.accepted r) ↔
        IsNonceText key ∧ m.field? "Sec-WebSocket-Version" = some (Bytes.ofText "13") ∧
          r = acceptedResponse key) ∧
      ∃ value, (acceptedResponse key).field? "Sec-WebSocket-Accept" = some value ∧
        Bytes.ofText value = Base64.encode (Sha1.digest (key ++ acceptSuffix)) ∧
        (Bytes.ofText value).length = 28 ∧
        Base64.decode? (Bytes.ofText value) = some (Sha1.digest (key ++ acceptSuffix)) ∧
        (Sha1.digest (key ++ acceptSuffix)).length = 20 := by
  refine ⟨?taken, h.answer_eq_error, isNonceText_iff, IsNonceText.length, fun r => ?accepted,
    acceptKey key, field?_acceptedResponse key, acceptKey_spec key⟩
  case taken =>
    simp only [h.answer_eq_ok_iff, exists_and_left, exists_eq, and_true]
  case accepted =>
    rw [h.answer_eq_ok_iff]
    refine and_congr_right fun _ => ?_
    by_cases hv : m.field? "Sec-WebSocket-Version" = some (Bytes.ofText "13")
    · rw [if_pos hv, Handshake.accepted.injEq]
      exact (and_iff_right hv).symm
    · rw [if_neg hv]
      exact ⟨nofun, fun hr => absurd hr.1 hv⟩

/-- A bit that is set behind the last byte of the nonce makes another key, which is refused. -/
theorem answer_by_key_sample :
    ∃ m m' : StoredMessage,
      (Offers m (Bytes.ofText "dGhlIHNhbXBsZSBub25jZQ==") ∧
        answer m =
          .ok (.accepted (acceptedResponse (Bytes.ofText "dGhlIHNhbXBsZSBub25jZQ==")))) ∧
      Offers m' (Bytes.ofText "dGhlIHNhbXBsZSBub25jZR==") ∧ answer m' = .error .invalidKey := by
  let message (key : String) : StoredMessage :=
    let request := Bytes.ofText ("GET / HTTP/1.1\r\nHost: localhost\r\nUpgrade: websocket\r\n" ++
      "Connection: Upgrade\r\nSec-WebSocket-Version: 13\r\n" ++
      "Sec-WebSocket-Key: " ++ key ++ "\r\n\r\n")
    (StoredMessage.read { config := {}, buffer := ⟨request, request.length, none⟩ }).2
  have hm : Offers (message "dGhlIHNhbXBsZSBub25jZQ==")
      (Bytes.ofText "dGhlIHNhbXBsZSBub25jZQ==") := by decide +kernel
  have hm' : Offers (message "dGhlIHNhbXBsZSBub25jZR==")
      (Bytes.ofText "dGhlIHNhbXBsZSBub25jZR==") := by decide +kernel
  have hnonce : IsNonceText (Bytes.ofText "dGhlIHNhbXBsZSBub25jZQ==") := by decide +kernel
  have hno : ¬ IsNonceText (Bytes.ofText "dGhlIHNhbXBsZSBub25jZR==") := by decide +kernel
  have hversion : (message "dGhlIHNhbXBsZSBub25jZQ==").field? "Sec-WebSocket-Version" =
      some (Bytes.ofText "13") := by decide +kernel
  obtain ⟨-, -, -, -, haccepted, -⟩ := answer_by_key hm
  obtain ⟨-, hrefused, -⟩ := answer_by_key hm'
  exact ⟨_, _, ⟨hm, (haccepted _).2 ⟨hnonce, hversion, rfl⟩⟩, hm', hrefused hno⟩

end Values

end WebSocket.Handshake

end OriginServer
