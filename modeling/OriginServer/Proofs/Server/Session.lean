import OriginServer.Proofs.Server.Traffic

namespace OriginServer

open Relation

namespace Session

/-- What a session is asked to do. -/
inductive Act where
  | read (piece : Bytes)
  | send (event : Event)
  | flush
  | hangUp

def act (s : Session) : Act → Session
  | .read piece => s.read piece
  | .send event => (s.send event).2
  | .flush => s.flush
  | .hangUp => s.hangUp

def run (s : Session) (acts : List Act) : Session := acts.foldl act s

/-- The traffic at the socket of a session has come as far as the session. -/
structure Follows (k : SocketId) (t : Traffic) (s : Session) : Prop where
  socket : s.socket = k
  server : t.server = s.server
  written : t.written = s.written
  phase : t.phase = if s.result.isSome then .ended else .reading

/-- The session broke off in the middle of an answer, for lack of memory for the chunks of a file.
Up to there the traffic has come as far as the session. -/
structure BreaksOff (k : SocketId) (t : Traffic) (s : Session) : Prop where
  socket : s.socket = k
  result : s.result = some (.error .overflow)
  written : ∃ answer bytes, t.phase = .writing answer ∧
    outputBytes answer.output = (bytes, .overflow) ∧ s.written = t.written ++ bytes
  chunk : Buffer.maxStore < t.server.setting.config.limits.fileChunkSize

variable {s : Session} {t : Traffic} {k : SocketId}

theorem Follows.reading (h : Follows k t s) (hr : s.result.isSome = false) :
    t.phase = .reading := by
  rw [h.phase, hr]
  rfl

theorem start_follows {server accepted : Server} {remote : SocketAddress}
    (ha : server.accept remote = (.ok k, accepted)) (domain : String) :
    Follows k { server := accepted } (start server remote domain) := by
  rw [start, ha]
  exact ⟨rfl, rfl, rfl, rfl⟩

/-- A session is finished in three steps. -/
theorem finish_follows (hs : t.server = s.server) (hw : t.written = s.written)
    (hp : t.phase = .ended) (result : Except SessionError Unit) :
    ∃ t', ReflTransGen (Traffic.Step s.socket) t t' ∧ Follows s.socket t' (s.finish result) := by
  let t₁ : Traffic := { t with server := t.server.act (.drop s.socket) }
  let t₂ : Traffic := { t₁ with server := t₁.server.act (.close s.socket) }
  let t₃ : Traffic := { t₂ with server := t₂.server.act (.dropReceiver s.socket) }
  have h₁ : Traffic.Step s.socket t t₁ := .release hp (.inl rfl)
  have h₂ : Traffic.Step s.socket t₁ t₂ :=
    .other (Option.some_ne_none s.socket).symm (Option.some_ne_none s.socket).symm
  have h₃ : Traffic.Step s.socket t₂ t₃ := .release hp (.inr rfl)
  refine ⟨t₃, ((ReflTransGen.single h₁).tail h₂).tail h₃, rfl, ?_, hw, hp⟩
  show ((t.server.act (.drop s.socket)).act (.close s.socket)).act (.dropReceiver s.socket) = _
  rw [hs]
  rfl

/-- Once output is written, the session is as it was if it goes on, and finished otherwise. -/
theorem conclude_cases (s : Session) (a : Answer) {ending : Site.Ending} (he : ending ≠ .overflow) :
    (a.goesOn ending = true ∧ s.conclude ending a.outcome = s) ∨
      (¬ a.goesOn ending = true ∧ ∃ result, s.conclude ending a.outcome = s.finish result) := by
  rw [Answer.goesOn_iff]
  cases ending with
  | overflow => exact absurd rfl he
  | short => exact .inr ⟨fun h => (by cases h.2), _, rfl⟩
  | whole =>
    cases ho : a.outcome with
    | error cause => exact .inr ⟨fun h => (by cases h.1), _, rfl⟩
    | ok flow =>
      cases flow with
      | close => exact .inr ⟨fun h => (by cases h.1), _, rfl⟩
      | goOn => exact .inl ⟨⟨rfl, rfl⟩, rfl⟩

/-- A session writes the answer to what it reads, and goes on or is finished. Where there is no
memory for the answer, it breaks off. -/
theorem answer_follows {piece : Bytes} {answer : Answer} {server : Server}
    (h : Follows s.socket t s) (hr : s.result.isSome = false)
    (hio : s.server.io s.socket s.domain piece = (some answer, server)) :
    ∃ t', ReflTransGen (Traffic.Step s.socket) t t' ∧
      (Follows s.socket t' (s.read piece) ∨ BreaksOff s.socket t' (s.read piece)) := by
  cases hb : outputBytes answer.output with
  | mk bytes ending =>
    let t₁ : Traffic :=
      { t with server, phase := .writing answer, calls := t.calls ++ [answer.output] }
    let t₂ : Traffic :=
      { t₁ with
        phase := if answer.goesOn ending then .reading else .ended
        written := t.written ++ bytes }
    let s₂ : Session := { s with server, written := s.written ++ bytes }
    have h₁ : Traffic.Step s.socket t t₁ := .read (h.reading hr) (h.server ▸ hio)
    have hw : t₂.written = s₂.written := congrArg (· ++ bytes) h.written
    have hopen : ¬ s.result.isSome = true := Bool.eq_false_iff.1 hr
    have hread : s.read piece = s₂.conclude ending answer.outcome := by
      rw [read, if_neg hopen, hio]
      simp only [hb, s₂]
    rw [hread]
    by_cases he : ending = .overflow
    · subst he
      have hchunk : Buffer.maxStore < s.server.setting.config.limits.fileChunkSize :=
        Nat.lt_of_not_le fun hc => Server.io_fits hc hio (congrArg Prod.snd hb)
      have hconfig := s.server.config_act (.io s.socket s.domain piece)
      rw [Server.act, hio] at hconfig
      exact ⟨t₁, .single h₁, .inr ⟨rfl, rfl, ⟨answer, bytes, rfl, hb, hw.symm⟩, hconfig ▸ hchunk⟩⟩
    · have h₂ : Traffic.Step s.socket t₁ t₂ := .write rfl hb he
      have hsteps := (ReflTransGen.single h₁).tail h₂
      obtain ⟨hgoes, hs⟩ | ⟨hends, result, hs⟩ := s₂.conclude_cases answer he
      · have hreading : t₂.phase = .reading := if_pos hgoes
        rw [hs]
        exact ⟨t₂, hsteps, .inl ⟨rfl, rfl, hw, hreading.trans (if_neg hopen).symm⟩⟩
      · obtain ⟨t', hlater, hf⟩ := finish_follows (s := s₂) rfl hw (if_neg hends) result
        rw [hs]
        exact ⟨t', hsteps.trans hlater, .inl hf⟩

theorem read_follows (h : Follows k t s) (piece : Bytes) :
    ∃ t', ReflTransGen (Traffic.Step k) t t' ∧
      (Follows k t' (s.read piece) ∨ BreaksOff k t' (s.read piece)) := by
  cases h.socket
  cases hr : s.result.isSome with
  | true =>
    rw [read, if_pos hr]
    exact ⟨t, .refl, .inl h⟩
  | false =>
    obtain ⟨-, hio⟩ | ⟨c, -, hio⟩ := s.server.io_cases s.socket s.domain piece
    · -- A session whose connection is gone reads nothing.
      rw [read, if_neg (Bool.eq_false_iff.1 hr), hio]
      exact ⟨t, .refl, .inl h⟩
    · exact answer_follows h hr hio

theorem flush_follows (h : Follows k t s) :
    ∃ t', ReflTransGen (Traffic.Step k) t t' ∧ Follows k t' s.flush := by
  cases h.socket
  unfold flush
  cases hr : s.result.isSome with
  | true => exact ⟨t, .refl, h⟩
  | false =>
    have hp := h.reading hr
    refine ⟨_, .single (.flush hp), rfl, ?_, ?_, hp.trans ?_⟩
    · exact congrArg (fun server => (Server.receive server s.socket).2) h.server
    · show t.written ++ (t.server.receive s.socket).1.flatten = _
      rw [h.written, h.server]
      rfl
    · have hopen : ¬ s.result.isSome = true := Bool.eq_false_iff.1 hr
      exact (if_neg hopen).symm

theorem send_follows (h : Follows k t s) (event : Event) :
    ∃ t', ReflTransGen (Traffic.Step k) t t' ∧ Follows k t' (s.send event).2 := by
  cases h.socket
  cases hsend : s.server.send s.socket event with
  | mk outcome server =>
    have hsend' : t.server.send s.socket event = (outcome, server) := by
      rw [h.server, hsend]
    have hmid : ∃ mid, Traffic.Step s.socket t mid ∧
        Follows s.socket mid { s with server } := by
      cases outcome with
      | ok u => exact ⟨_, .send hsend', rfl, rfl, h.written, h.phase⟩
      | error cause => exact ⟨_, .refuse hsend', rfl, rfl, h.written, h.phase⟩
    obtain ⟨mid, hstep, hf⟩ := hmid
    obtain ⟨t', hlater, hf'⟩ := flush_follows hf
    rw [send, hsend]
    exact ⟨t', (ReflTransGen.single hstep).trans hlater, hf'⟩

theorem hangUp_follows (h : Follows k t s) :
    ∃ t', ReflTransGen (Traffic.Step k) t t' ∧ Follows k t' s.hangUp := by
  cases h.socket
  unfold hangUp
  cases hr : s.result.isSome with
  | true => exact ⟨t, .refl, h⟩
  | false =>
    have hstep := Traffic.Step.hangUp (k := s.socket) (h.reading hr)
    obtain ⟨t', hlater, hf⟩ := finish_follows (t := { t with phase := .ended }) h.server h.written
      rfl (.ok ())
    exact ⟨t', (ReflTransGen.single hstep).trans hlater, hf⟩

theorem act_follows (h : Follows k t s) (a : Act) :
    ∃ t', ReflTransGen (Traffic.Step k) t t' ∧
      (Follows k t' (s.act a) ∨ BreaksOff k t' (s.act a)) := by
  have hgoes {s' : Session}
      (ht : ∃ t', ReflTransGen (Traffic.Step k) t t' ∧ Follows k t' s') :
      ∃ t', ReflTransGen (Traffic.Step k) t t' ∧ (Follows k t' s' ∨ BreaksOff k t' s') := by
    obtain ⟨t', hsteps, hf⟩ := ht
    exact ⟨t', hsteps, .inl hf⟩
  cases a with
  | read piece => exact read_follows h piece
  | send event => exact hgoes (send_follows h event)
  | flush => exact hgoes (flush_follows h)
  | hangUp => exact hgoes (hangUp_follows h)

/-- Nothing more is written by a session that broke off. -/
theorem BreaksOff.act (h : BreaksOff k t s) (a : Act) : BreaksOff k t (s.act a) := by
  have hr : s.result.isSome = true := by
    rw [h.result]
    rfl
  cases a with
  | read piece =>
    rw [Session.act, read, if_pos hr]
    exact h
  | send event =>
    have hf : (s.send event).2 = { s with server := (s.server.send s.socket event).2 } :=
      if_pos hr
    rw [Session.act, hf]
    exact ⟨h.socket, h.result, h.written, h.chunk⟩
  | flush =>
    rw [Session.act, flush, if_pos hr]
    exact h
  | hangUp =>
    rw [Session.act, hangUp, if_pos hr]
    exact h

theorem BreaksOff.run (h : BreaksOff k t s) (acts : List Act) : BreaksOff k t (s.run acts) := by
  induction acts generalizing s with
  | nil => exact h
  | cons a acts ih => exact ih (h.act a)

/-- Whatever a session is asked to do, the traffic at its socket takes steps and comes as far, up to
an answer for which there is no memory. -/
theorem run_follows (h : Follows k t s) (acts : List Act) :
    ∃ t', ReflTransGen (Traffic.Step k) t t' ∧
      (Follows k t' (s.run acts) ∨ BreaksOff k t' (s.run acts)) := by
  induction acts generalizing s t with
  | nil => exact ⟨t, .refl, .inl h⟩
  | cons a acts ih =>
    obtain ⟨mid, hfirst, hmid | hbroken⟩ := act_follows h a
    · obtain ⟨t', hlater, ht'⟩ := ih hmid
      exact ⟨t', hfirst.trans hlater, ht'⟩
    · exact ⟨mid, hfirst, .inr (hbroken.run acts)⟩

end Session

end OriginServer
