import OriginServer.Proofs.Connection.Answer
import OriginServer.Proofs.Connection.Delivery

namespace OriginServer

open OriginServer.Http OriginServer.Site

section Reading

variable {limits : Limits}

theorem Http.readMessage_rest_lt {input : Bytes} {parts : Parts} {next : Cursor}
    (h : readMessage limits input = (parts, .done () next)) :
    next.rest.length < input.length := by
  have hp := readMessage_pos h
  have hl := readMessage_pos_le h
  rw [readMessage_rest h, List.length_drop]
  omega

/-- Reads messages one behind the other, each with the bytes it was read from, up to bytes that are
no complete message. -/
def readMessages (limits : Limits) (input : Bytes) : List (Bytes × Parts) × Bytes :=
  match _h : readMessage limits input with
  | (parts, .done () next) =>
    let (later, rest) := readMessages limits next.rest
    ((input, parts) :: later, rest)
  | _ => ([], input)
  termination_by input.length
  decreasing_by exact readMessage_rest_lt _h

theorem readMessages_of_done {input : Bytes} {parts : Parts} {next : Cursor}
    (h : readMessage limits input = (parts, .done () next)) :
    readMessages limits input =
      ((input, parts) :: (readMessages limits next.rest).1, (readMessages limits next.rest).2) := by
  rw [readMessages]
  split
  · rename_i h'
    cases h.symm.trans h'
    rfl
  · rename_i h'
    exact absurd h (h' parts next)

theorem readMessages_nil : readMessages limits [] = ([], []) := by
  rw [readMessages]
  rfl

/-- Answers on the wire are told apart, and nothing is left over. -/
theorem readMessages_answers {answers : List Served}
    (h : ∀ s ∈ answers, s.head.SelfDelimiting s.payload.length) (hc : 4 ≤ limits.fieldCapacity) :
    ∃ found, readMessages limits (answers.flatMap fun s => s.head.head ++ s.payload) =
        (found, []) ∧
      List.Forall₂ (fun m s => m.2.Tells m.1 s.head s.payload) found answers := by
  induction answers with
  | nil => exact ⟨[], readMessages_nil, .nil⟩
  | cons s answers ih =>
    -- An answer is read whatever follows it, and the rest as if it stood alone.
    obtain ⟨hs, hlater⟩ := List.forall_mem_cons.1 h
    obtain ⟨found, hf, ht⟩ := ih hlater
    obtain ⟨parts, hp, htells⟩ := Response.readMessage_response hs hc
      (answers.flatMap fun s => s.head.head ++ s.payload)
    refine ⟨(_, parts) :: found, ?_, .cons htells ht⟩
    rw [List.flatMap_cons, List.append_assoc, readMessages_of_done hp, hf]

end Reading

/-- A complete request, and the reply to it on a connection for the domain. There can be a message
to read the request with. -/
structure Replied (setting : Setting) (domain : String) (request : Bytes) (reply : Reply) :
    Prop where
  slots : setting.config.limits.messageConfig.hasSlots = true
  complete : (readMessage setting.config.limits.messageConfig.limits request).2 =
    .done () ⟨request.length, []⟩
  reply : Reply.toMessage setting domain (Stream.request setting request
    (readMessage setting.config.limits.messageConfig.limits request).1) = .ok reply

/-- The reply to every request is an answer, where none makes the connection a WebSocket. -/
theorem answers_of_replied {setting : Setting} {domain : String} {requests : List Bytes}
    (h : ∀ request ∈ requests, ∃ reply,
      Replied setting domain request reply ∧ reply.upgrades = false) :
    ∃ answers : List Served,
      List.Forall₂ (fun request s => Replied setting domain request (Reply.ofServed s))
        requests answers ∧
      ∀ s ∈ answers, HttpAnswer setting.files setting.config.limits.fileChunkSize s := by
  induction requests with
  | nil => exact ⟨[], .nil, List.forall_mem_nil _⟩
  | cons request requests ih =>
    obtain ⟨⟨reply, hr, hu⟩, hlater⟩ := List.forall_mem_cons.1 h
    obtain ⟨answers, ha, hs⟩ := ih hlater
    obtain ⟨key, -, rfl⟩ | ⟨s, hanswer, rfl⟩ := Reply.toMessage_answer hr.reply
    · cases hu
    · exact ⟨s :: answers, .cons hr ha, List.forall_mem_cons.2 ⟨hanswer, hs⟩⟩

namespace Stream

variable {setting : Setting} {s : Stream}

/-- A complete request is taken off and answered, whatever stands behind it. -/
theorem pop_replied {request rest : Bytes} {reply : Reply} (hp : s.protocol = .http)
    (h : Replied setting s.domain request reply) (hu : reply.upgrades = false)
    (hw : s.waiting = request ++ rest) :
    pop setting s = { output := reply.output, result := .next { s with waiting := rest } } := by
  have hr : readMessage setting.config.limits.messageConfig.limits (request ++ rest) =
      ((readMessage setting.config.limits.messageConfig.limits request).1,
        .done () ⟨request.length, rest⟩) := by
    rw [readMessage_append rest (by rw [h.complete]; exact nofun), h.complete]
    rfl
  have hm := Reply.toMessage_congr (request_sameHead (Prod.ext rfl h.complete) rest) setting
    s.domain
  rw [h.reply] at hm
  simp only [pop, hp, popRequest_eq h.slots, readRequest, hw, hr, ← hm, accept, hu]
  rfl

/-- Requests are answered one after the other, and none is left. -/
theorem drain_replied {requests : List Bytes} {answers : List Served} (hp : s.protocol = .http)
    (h : List.Forall₂ (fun request a => Replied setting s.domain request (Reply.ofServed a))
      requests answers)
    (hw : s.waiting = requests.flatten) :
    drain setting s =
      { output := answers.flatMap fun a => (Reply.ofServed a).output
        result := .goOn { s with waiting := [] } } := by
  induction requests generalizing s answers with
  | nil =>
    cases h
    have hnil : s.waiting = [] := hw
    rw [drain_of_wait (pop_nil hnil), ← hnil]
    rfl
  | cons request requests ih =>
    obtain _ | @⟨_, a, _, answers, ha, h⟩ := h
    -- The first request leaves the stream as it was, with the others to read.
    have hpop := pop_replied hp ha (Reply.upgrades_ofServed a) hw
    have hdrain := ih (s := { s with waiting := requests.flatten }) hp h rfl
    rw [drain_of_next (congrArg Progress.result hpop), hpop, hdrain]
    rfl

theorem io_replied {requests : List Bytes} {answers : List Served} (hp : s.protocol = .http)
    (h : List.Forall₂ (fun request a => Replied setting s.domain request (Reply.ofServed a))
      requests answers)
    (hw : s.waiting = []) :
    io setting s requests.flatten =
      { output := answers.flatMap fun a => (Reply.ofServed a).output, result := .goOn s } := by
  have hw' : (s.append requests.flatten).waiting = requests.flatten := by
    rw [append, hw, List.nil_append]
  have hback : { s with waiting := [] } = s := by rw [← hw]
  have hn : ¬ (s.protocol = .http ∧ setting.config.limits.maxRequestSize < ([] : Bytes).length) :=
    fun h => Nat.not_lt_zero _ h.2
  rw [io, drain_replied (s := s.append requests.flatten) hp h hw']
  refine (if_neg hn).trans ?_
  show (⟨_, [], .goOn { s with waiting := [] }⟩ : Progress Verdict) = _
  rw [hback]

end Stream

namespace Connection

variable {setting : Setting} {pools : Pools} {c bound : Connection} {domain : String}

/-- Complete requests that come one behind the other are answered in order, each of them once, and
the connection is where it was. Whoever reads what it sends, files to their ends, finds these
answers with their bodies and nothing else. No run of bytes and no file is longer than a store. -/
theorem requests_answered {requests : List Bytes}
    (hcap : 4 ≤ setting.config.limits.fieldCapacity)
    (hfiles : ∀ content, setting.files.Holds content → content.length ≤ Buffer.maxStore)
    (hd : c.bind domain = .ok bound) (hc : c.protocol = .http) (hb : c.buffer.Sound)
    (he : c.buffer.content = []) (hp : pools.Keyed)
    (hs : setting.config.limits.bufferSize ≤ Buffer.maxStore)
    (hl : requests.flatten.length ≤ Buffer.maxStore)
    (hr : ∀ request ∈ requests, ∃ reply,
      Replied setting bound.boundDomain request reply ∧ reply.upgrades = false) :
    (io setting pools c domain requests.flatten).outcome = .ok .goOn ∧
      (io setting pools c domain requests.flatten).connection.stream = bound.stream ∧
      ∃ answers : List Served,
        List.Forall₂ (fun request s =>
            Replied setting bound.boundDomain request (Reply.ofServed s)) requests answers ∧
          (io setting pools c domain requests.flatten).output =
            answers.flatMap (fun s => (Reply.ofServed s).output) ∧
          ∃ found, readMessages setting.config.limits.messageConfig.limits
              ((io setting pools c domain requests.flatten).output.flatMap Output.content) =
                (found, []) ∧
            List.Forall₂ (fun m s => m.2.Tells m.1 s.head s.payload) found answers := by
  obtain ⟨hbound, name, hname⟩ := bind_complete hd
  rw [io_of_bind requests.flatten hd]
  have hb' : bound.buffer.Sound := hname ▸ hb
  have he' : bound.buffer.content = [] := hname ▸ he
  have hc' : bound.protocol = .http := hname ▸ hc
  have hl' : bound.buffer.content.length + requests.flatten.length ≤ Buffer.maxStore := by
    rw [he', List.length_nil, Nat.zero_add]
    exact hl
  obtain ⟨hv, -⟩ := io_follows_of_bind requests.flatten hbound hb' hp hs hl'
  obtain ⟨answers, hanswers, hkinds⟩ := answers_of_replied hr
  rw [Stream.io_replied (s := bound.stream) hc' hanswers he'] at hv
  obtain ⟨ho, hstream⟩ := Turn.outcome_of_goOn (congrArg Progress.result hv)
  have hout : (io setting pools bound domain requests.flatten).output = _ :=
    congrArg Progress.output hv
  refine ⟨ho, hstream, answers, hanswers, hout, ?_⟩
  have hcontent : (answers.flatMap fun s => (Reply.ofServed s).output).flatMap Output.content =
      answers.flatMap fun s => s.head.head ++ s.payload := by
    rw [List.flatMap_assoc]
    exact List.flatMap_congr fun s hs => (hkinds s hs).content
  rw [hout, hcontent]
  exact readMessages_answers (fun s hs => (hkinds s hs).selfDelimiting hfiles) hcap

/-- A part of a file, a method that is not allowed on it, and the file itself. -/
theorem requests_answered_three :
    ∃ (setting : Setting) (c : Connection) (requests : List Bytes), requests.length = 3 ∧
      (io setting (.empty 1) c "localhost" requests.flatten).outcome = .ok .goOn ∧
      ∃ found, readMessages setting.config.limits.messageConfig.limits
          ((io setting (.empty 1) c "localhost" requests.flatten).output.flatMap Output.content) =
            (found, []) ∧
        found.length = 3 := by
  let content : Bytes := [0x61, 0x62, 0x63]
  let setting : Setting :=
    { config := {}, files := { entries := [(["public", "index.html"], .file content)] } }
  let c : Connection :=
    { socket := ⟨1⟩, buffer := {}, reassembly := { maxMessageSize := 67108864 } }
  let part := Bytes.ofText "GET / HTTP/1.1\r\nHost: localhost\r\nRange: bytes=1-\r\n\r\n"
  let other := Bytes.ofText "POST / HTTP/1.1\r\nHost: localhost\r\nContent-Length: 1\r\n\r\nx"
  let whole := Bytes.ofText "GET /index.html HTTP/1.1\r\nHost: localhost\r\n\r\n"
  let place := "public/index.html"
  have hpart : Replied setting "localhost" part (.ofServed
      ⟨announce .partialContent [("Content-Range", "bytes 1-2/3")] place 2,
        some (.make content 1 2 65536)⟩) :=
    ⟨by decide, by decide +kernel, by decide +kernel⟩
  have hother : Replied setting "localhost" other (.ofServed ⟨.methodNotAllowed, none⟩) :=
    ⟨by decide, by decide +kernel, by decide +kernel⟩
  have hwhole : Replied setting "localhost" whole
      (.ofServed ⟨announce .ok [] place 3, some (.make content 0 3 65536)⟩) :=
    ⟨by decide, by decide +kernel, by decide +kernel⟩
  have hr : ∀ request ∈ [part, other, whole], ∃ reply,
      Replied setting "localhost" request reply ∧ reply.upgrades = false := by
    simp only [List.forall_mem_cons]
    exact ⟨⟨_, hpart, rfl⟩, ⟨_, hother, rfl⟩, ⟨_, hwhole, rfl⟩, List.forall_mem_nil _⟩
  have hfiles : ∀ content, setting.files.Holds content → content.length ≤ Buffer.maxStore := by
    intro found h
    obtain ⟨place, hm⟩ := h.mem
    cases List.mem_singleton.1 hm
    decide
  have hl : [part, other, whole].flatten.length ≤ Buffer.maxStore := by decide +kernel
  have hd : c.bind "localhost" = .ok { c with domain := some "localhost" } := rfl
  obtain ⟨ho, -, answers, ha, -, found, hf, ht⟩ := requests_answered (by decide) hfiles hd rfl
    (Buffer.sound_empty none) rfl (Pools.keyed_empty 1) (by decide) hl hr
  exact ⟨setting, c, [part, other, whole], rfl, ho, found, hf,
    ht.length_eq.trans ha.length_eq.symm⟩

end Connection

end OriginServer
