import Mathlib.Logic.Relation
import OriginServer.Proofs.Connection.Wire
import OriginServer.Proofs.Server.Lifecycle
import OriginServer.Server.Session

namespace OriginServer

open OriginServer.Http OriginServer.WebSocket

/-- How far a socket has come. -/
inductive Phase where
  /-- Input is waited for, and so is what the application sends. -/
  | reading
  /-- The output of a call is not yet written. -/
  | writing (answer : Answer)
  | ended

def Phase.unwritten : Phase → List (List Output)
  | reading => []
  | writing answer => [answer.output]
  | ended => []

namespace Answer

/-- Whether the socket is read on once the output is written. -/
def goesOn (a : Answer) (ending : Site.Ending) : Bool :=
  match a.outcome with
  | .ok .goOn => ending = .whole
  | _ => false

def closes (a : Answer) : Bool :=
  match a.outcome with
  | .ok .close => true
  | _ => false

theorem goesOn_iff {a : Answer} {ending : Site.Ending} :
    a.goesOn ending = true ↔ a.outcome = .ok .goOn ∧ ending = .whole := by
  unfold goesOn
  split
  · rename_i ho
    rw [decide_eq_true_iff, ho]
    exact (and_iff_right rfl).symm
  · rename_i hn
    exact iff_of_false Bool.false_ne_true fun h => hn h.1

theorem closes_of_goesOn {a : Answer} {ending : Site.Ending} (h : a.goesOn ending = true) :
    a.closes = false := by
  unfold closes
  rw [(goesOn_iff.1 h).1]

end Answer

/-- A server, and what has been going on at one of its sockets. -/
structure Traffic where
  server : Server
  phase : Phase := .reading
  written : Bytes := []
  /-- The outputs of the calls for the socket. -/
  calls : List (List Output) := []
  /-- The events that were sent to the socket with success. -/
  sent : List Event := []

namespace Traffic

/-- What can happen next. Input comes for any domain. -/
inductive Step (k : SocketId) : Traffic → Traffic → Prop
  | read {t : Traffic} {domain : String} {data : Bytes} {answer : Answer} {server : Server}
      (hp : t.phase = .reading) (h : t.server.io k domain data = (some answer, server)) :
      Step k t
        { t with server, phase := .writing answer, calls := t.calls ++ [answer.output] }
  /-- The output is written, which takes memory for the chunks of its files. -/
  | write {t : Traffic} {answer : Answer} {bytes : Bytes} {ending : Site.Ending}
      (hp : t.phase = .writing answer)
      (h : Session.outputBytes answer.output = (bytes, ending)) (he : ending ≠ .overflow) :
      Step k t
        { t with
          phase := if answer.goesOn ending then .reading else .ended
          written := t.written ++ bytes }
  /-- The oldest of what waits is written. -/
  | deliver {t : Traffic} {oldest : Bytes} {rest : List Bytes} (hp : t.phase = .reading)
      (h : t.server.outbound.get? k = some (oldest :: rest)) :
      Step k t
        { t with
          server := { t.server with outbound := t.server.outbound.insert k rest }
          written := t.written ++ oldest }
  /-- All that waits is written. -/
  | flush {t : Traffic} (hp : t.phase = .reading) :
      Step k t
        { t with
          server := (t.server.receive k).2
          written := t.written ++ (t.server.receive k).1.flatten }
  | send {t : Traffic} {event : Event} {server : Server}
      (h : t.server.send k event = (.ok (), server)) :
      Step k t { t with server, sent := t.sent ++ [event] }
  | refuse {t : Traffic} {event : Event} {cause : SendError} {server : Server}
      (h : t.server.send k event = (.error cause, server)) : Step k t { t with server }
  /-- The input has come to its end. -/
  | hangUp {t : Traffic} (hp : t.phase = .reading) : Step k t { t with phase := .ended }
  /-- Connection and queue are given up. -/
  | release {t : Traffic} {a : Server.Act} (hp : t.phase = .ended)
      (ha : a = .drop k ∨ a = .dropReceiver k) : Step k t { t with server := t.server.act a }
  /-- Other sockets are served, the peer is forgotten, or files change. -/
  | other {t : Traffic} {a : Server.Act} (hc : t.server.called? a ≠ some k)
      (hq : t.server.queued? a ≠ some k) : Step k t { t with server := t.server.act a }

end Traffic

/-- A stretch of what is written to a socket. -/
inductive Block where
  /-- The output of a call. -/
  | answer (output : List Output)
  | message (event : Event)

namespace Block

def bytes (size : Nat) : Block → Bytes
  | answer output => output.flatMap Output.content
  | message event => messageBytes .text event.write size

def answer? : Block → Option (List Output)
  | answer output => some output
  | message _ => none

def message? : Block → Option Event
  | answer _ => none
  | message event => some event

/-- A block of HTTP. -/
def IsPlain : Block → Prop
  | answer output => Answers output
  | message _ => False

theorem message?_plain {blocks : List Block} (h : ∀ b ∈ blocks, b.IsPlain) :
    blocks.filterMap message? = [] := by
  apply List.filterMap_eq_nil_iff.2
  intro b hb
  cases b with
  | answer output => rfl
  | message event => exact absurd (h _ hb) not_false

theorem answer?_messages (events : List Event) : (events.map message).filterMap answer? = [] := by
  simp [List.filterMap_map, Function.comp_def, answer?]

theorem message?_messages (events : List Event) :
    (events.map message).filterMap message? = events := by
  simp [List.filterMap_map, Function.comp_def, message?]

end Block

/-- The blocks that bring a connection from one face to another, and whether the last of them ends
with a closing frame. Messages are for WebSockets only. -/
inductive Story (f : Face) : List Block → Face → Bool → Prop
  | nil : Story f [] f false
  | answer {blocks : List Block} {g h : Face} {effects : List Effect} {closes : Bool}
      (hs : Story f blocks g false) (hc : Effect.Course g effects h closes) :
      Story f (blocks ++ [.answer (effects.flatMap Effect.output)]) h closes
  | message {blocks : List Block} {g : Face} (event : Event) (hs : Story f blocks g false)
      (hp : g.protocol = .webSocket) : Story f (blocks ++ [.message event]) g false

section Stories

variable {f g : Face} {blocks : List Block} {closes : Bool}

theorem Story.messages (hs : Story f blocks g false) {events : List Event}
    (hp : events ≠ [] → g.protocol = .webSocket) :
    Story f (blocks ++ events.map Block.message) g false := by
  induction events generalizing blocks with
  | nil => rwa [List.map_nil, List.append_nil]
  | cons e events ih =>
    have hw := hp (List.cons_ne_nil _ _)
    rw [List.map_cons, List.append_cons]
    exact ih (.message e hs hw) fun _ => hw

/-- The story of a connection that begins with HTTP is plain up to the response that switches the
protocol, if there is one, and consists of signals behind it. -/
theorem Story.split (hs : Story f blocks g closes) (hp : f.protocol = .http) (size : Nat) :
    (g.protocol = .http ∧ closes = false ∧ ∀ b ∈ blocks, b.IsPlain) ∨
      ∃ front plain key first back signals,
        blocks =
          front ++
            .answer (plain ++ .bytes (Handshake.acceptedResponse key).wire :: first) :: back ∧
        (∀ b ∈ front, b.IsPlain) ∧ Answers plain ∧ g.protocol = .webSocket ∧
        Signal.Talk signals closes ∧
        first.flatMap Output.content ++ back.flatMap (Block.bytes size) =
          signals.flatMap (Signal.bytes size) ∧
        signals.filterMap Signal.text? = (blocks.filterMap Block.message?).map Event.write := by
  induction hs with
  | nil => exact .inl ⟨hp, rfl, List.forall_mem_nil _⟩
  | @answer blocks g h effects closes _ hc ih =>
    obtain ⟨hg, -, hplain⟩ | ⟨front, plain, key, first, back, signals, hb, hfront, ha, hg, ht, hw,
      htexts⟩ := ih
    · obtain ⟨hh, hclose, ha⟩ | ⟨before, key, domain, behind, mid, rfl, ha, hm, hbehind⟩ :=
        hc.split hg
      · refine .inl ⟨hh, hclose, List.forall_mem_append.2 ⟨hplain, ?_⟩⟩
        exact List.forall_mem_singleton.2 ha
      · -- The protocol is switched in this block.
        obtain ⟨signals, ht, hnone, hw⟩ := hbehind.talk hm size
        refine .inr ⟨blocks, before.flatMap Effect.output, key, behind.flatMap Effect.output, [],
          signals, ?_, hplain, ha, hbehind.webSocket hm, ht, ?_, ?_⟩
        · rw [List.flatMap_append, List.flatMap_cons]
          rfl
        · rw [List.flatMap_nil, List.append_nil, hw]
        · rw [hnone, List.filterMap_append, Block.message?_plain hplain]
          rfl
    · obtain ⟨later, htl, hnone, hwl⟩ := hc.talk hg size
      refine .inr ⟨front, plain, key, first, back ++ [.answer (effects.flatMap Effect.output)],
        signals ++ later, ?_, hfront, ha, hc.webSocket hg, ht.append htl, ?_, ?_⟩
      · rw [hb, List.append_assoc, List.cons_append]
      · rw [List.flatMap_append, List.flatMap_append, ← List.append_assoc, hw, ← hwl,
          List.flatMap_singleton]
        rfl
      · rw [List.filterMap_append, hnone, List.append_nil, htexts, List.filterMap_append]
        exact congrArg (List.map Event.write) (List.append_nil _).symm
  | @message blocks g event _ hg ih =>
    obtain ⟨hh, -, -⟩ | ⟨front, plain, key, first, back, signals, hb, hfront, ha, -, ht, hw,
      htexts⟩ := ih
    · cases hg.symm.trans hh
    · refine .inr ⟨front, plain, key, first, back ++ [.message event],
        signals ++ [.text event.write], ?_, hfront, ha, hg, ht.append (.text .nil), ?_, ?_⟩
      · rw [hb, List.append_assoc, List.cons_append]
      · rw [List.flatMap_append, List.flatMap_append, ← List.append_assoc, hw,
          List.flatMap_singleton, List.flatMap_singleton]
        rfl
      · rw [List.filterMap_append, htexts, List.filterMap_append, List.map_append]
        rfl

end Stories

section Writing

theorem Session.outputBytes_whole {output : List Output} (h : ∀ o ∈ output, o.Whole)
    (he : (outputBytes output).2 ≠ .overflow) :
    outputBytes output = (output.flatMap Output.content, .whole) := by
  induction output with
  | nil => rfl
  | cons o output ih =>
    obtain ⟨ho, hlater⟩ := List.forall_mem_cons.1 h
    cases o with
    | bytes b =>
      rw [outputBytes, ih hlater he]
      rfl
    | file body =>
      obtain hs | hs := Site.FileBody.send_complete ho
      · simp only [outputBytes, hs] at he ⊢
        rw [ih hlater he]
        rfl
      · simp only [outputBytes, hs] at he
        exact absurd rfl he

/-- Where the chunks fit, the output is written, as far as the files have it. -/
theorem Session.outputBytes_fits {output : List Output} (h : ∀ o ∈ output, o.Fits) :
    (outputBytes output).2 ≠ .overflow := by
  induction output with
  | nil => exact nofun
  | cons o output ih =>
    obtain ⟨ho, hlater⟩ := List.forall_mem_cons.1 h
    cases o with
    | bytes b => exact ih hlater
    | file body =>
      simp only [outputBytes, Site.FileBody.send_eq_pieces ho]
      cases body.pieces.2 with
      | false => exact nofun
      | true => exact ih hlater

end Writing

namespace Server

variable {s : Server} {k : SocketId} {size : Nat}

theorem chunkSize_act (h : s.setting.config.limits.messageChunkSize = size) (a : Act) :
    (s.act a).setting.config.limits.messageChunkSize = size := by
  rw [config_act, h]

/-- Where there is memory for the chunks of files, there is memory for every answer. -/
theorem io_fits (hc : s.setting.config.limits.fileChunkSize ≤ Buffer.maxStore) {server : Server}
    {domain : String} {data : Bytes} {answer : Answer}
    (h : s.io k domain data = (some answer, server)) :
    (Session.outputBytes answer.output).2 ≠ .overflow := by
  obtain ⟨-, he⟩ | ⟨c, -, he⟩ := s.io_cases k domain data
  · cases h.symm.trans he
  · cases h.symm.trans he
    exact Session.outputBytes_fits (Connection.io_fits hc s.pools c domain data)

/-- What waits in a queue has no say in anything else. -/
theorem Sound.requeue {old : List Bytes} (h : s.Sound) (hq : s.outbound.get? k = some old)
    (queue : List Bytes) : Sound { s with outbound := s.outbound.insert k queue } := by
  obtain ⟨hconnection, hpeer, hqueue, hnotice⟩ := h.numbered
  refine ⟨⟨hconnection, hpeer, fun i q hi => ?_, hnotice⟩, fun i c hi => ?_⟩
  · obtain ⟨rfl, -⟩ | ⟨-, hi⟩ := Table.of_get?_insert hi
    · exact hqueue _ _ hq
    · exact hqueue i q hi
  · obtain ⟨htold, hpeer⟩ := h.living i c hi
    exact ⟨htold, hpeer⟩

end Server

namespace Traffic

/-- Where a story stands in every phase. -/
inductive Standing (k : SocketId) (f : Face) (s : Server) (blocks : List Block) : Phase → Prop
  | reading {c : Connection} (hc : s.connections.get? k = some c)
      (hs : Story f blocks c.face false) : Standing k f s blocks .reading
  | writing {c : Connection} {g : Face} {effects : List Effect} {answer : Answer}
      (hc : s.connections.get? k = some c) (hs : Story f blocks g false)
      (he : Effect.Course g effects c.face answer.closes)
      (ho : answer.output = effects.flatMap Effect.output) :
      Standing k f s blocks (.writing answer)
  | ended {g : Face} {closes : Bool} (hs : Story f blocks g closes) :
      Standing k f s blocks .ended

/-- What was written to a socket, in blocks, and the events that wait to be written. -/
structure Orderly (k : SocketId) (f : Face) (size : Nat) (t : Traffic) (blocks : List Block)
    (waiting : List Event) : Prop where
  sound : t.server.Sound
  chunkSize : t.server.setting.config.limits.messageChunkSize = size
  standing : Standing k f t.server blocks t.phase
  written : t.written = blocks.flatMap (Block.bytes size)
  calls : blocks.filterMap Block.answer? ++ t.phase.unwritten = t.calls
  sent : blocks.filterMap Block.message? ++ waiting = t.sent
  queue : ∀ queue, t.server.outbound.get? k = some queue →
    queue = waiting.map fun e => messageBytes .text e.write size
  isOpen : t.phase ≠ .ended → ∃ queue, t.server.outbound.get? k = some queue
  upgraded : waiting ≠ [] →
    ∀ c, t.server.connections.get? k = some c → c.protocol = .webSocket

variable {k : SocketId} {f : Face} {size : Nat} {t t' : Traffic} {blocks : List Block}
  {waiting : List Event}

theorem Standing.congr {s s' : Server} {phase : Phase} (h : Standing k f s blocks phase)
    (hs : s'.connections.get? k = s.connections.get? k) : Standing k f s' blocks phase := by
  cases h with
  | reading hc h => exact .reading (hs.trans hc) h
  | writing hc h he ho => exact .writing (hs.trans hc) h he ho
  | ended h => exact .ended h

/-- The output that is being written is written whole, if there is memory for it. -/
theorem Standing.outputBytes {s : Server} {answer : Answer}
    (h : Standing k f s blocks (.writing answer))
    (he : (Session.outputBytes answer.output).2 ≠ .overflow) :
    Session.outputBytes answer.output = (answer.output.flatMap Output.content, .whole) := by
  cases h with
  | writing hc hs heffects ho =>
    have hwhole := heffects.whole
    rw [← ho] at hwhole
    exact Session.outputBytes_whole hwhole he

theorem Standing.story {s : Server} {phase : Phase} (h : Standing k f s blocks phase) :
    ∃ g closes, Story f blocks g closes := by
  cases h with
  | reading hc hs => exact ⟨_, _, hs⟩
  | writing hc hs he ho => exact ⟨_, _, hs⟩
  | ended hs => exact ⟨_, _, hs⟩

namespace Orderly

/-- While a socket is read, all outputs are written, and its queue is there. -/
theorem reading (h : Orderly k f size t blocks waiting) (hp : t.phase = .reading) :
    ∃ c, t.server.connections.get? k = some c ∧ Story f blocks c.face false ∧
      blocks.filterMap Block.answer? = t.calls ∧
      t.server.outbound.get? k = some (waiting.map fun e => messageBytes .text e.write size) := by
  have hstanding := h.standing
  have hcalls := h.calls
  rw [hp] at hstanding hcalls
  obtain ⟨queue, hq⟩ := h.isOpen (hp.trans_ne nofun)
  cases hstanding with
  | @reading c hc hs =>
    rw [Phase.unwritten, List.append_nil] at hcalls
    exact ⟨c, hc, hs, hcalls, h.queue queue hq ▸ hq⟩

theorem read {domain : String} {data : Bytes} {answer : Answer} {server : Server}
    (h : Orderly k f size t blocks waiting) (hp : t.phase = .reading)
    (hio : t.server.io k domain data = (some answer, server)) :
    Orderly k f size
      { t with server, phase := .writing answer, calls := t.calls ++ [answer.output] }
      blocks waiting := by
  obtain ⟨c, hc, hs, hcalls, hq⟩ := h.reading hp
  obtain ⟨ha, hafter⟩ := Server.connection_io h.sound.numbered hc domain data
  have hsound := h.sound.act (.io k domain data)
  rw [ha] at hafter hsound
  obtain ⟨hnone, -⟩ | ⟨c', hc', he⟩ := t.server.io_cases k domain data
  · cases hc.symm.trans hnone
  · cases hc.symm.trans hc'
    cases hio.symm.trans he
    obtain ⟨effects, ht⟩ := c.io_shows t.server.setting t.server.pools domain data
    refine ⟨hsound, h.chunkSize, .writing hafter hs ht.course ht.output, h.written, ?_, h.sent,
      h.queue, fun _ => ⟨_, hq⟩, fun hw c' hc' => ?_⟩
    · rw [← hcalls, Phase.unwritten]
    · cases hafter.symm.trans hc'
      exact ht.course.webSocket (h.upgraded hw c hc)

theorem write {answer : Answer} {bytes : Bytes} {ending : Site.Ending}
    (h : Orderly k f size t blocks waiting) (hp : t.phase = .writing answer)
    (hb : Session.outputBytes answer.output = (bytes, ending)) (hn : ending ≠ .overflow) :
    Orderly k f size
      { t with
        phase := if answer.goesOn ending then .reading else .ended
        written := t.written ++ bytes }
      (blocks ++ [.answer answer.output]) waiting := by
  have hstanding := h.standing
  have hcalls := h.calls
  rw [hp] at hstanding hcalls
  cases (hstanding.outputBytes (by rwa [hb])).symm.trans hb
  cases hstanding with
  | @writing c g effects _ hc hs he ho =>
    have hstory : Story f (blocks ++ [.answer answer.output]) c.face answer.closes := by
      rw [ho]
      exact .answer hs he
    refine ⟨h.sound, h.chunkSize, ?_, ?_, ?_, ?_, h.queue, fun _ => h.isOpen (hp.trans_ne nofun),
      h.upgraded⟩
    · split
      · rename_i hgoes
        rw [Answer.closes_of_goesOn hgoes] at hstory
        exact .reading hc hstory
      · exact .ended hstory
    · rw [h.written, List.flatMap_append, List.flatMap_singleton]
      rfl
    · have hnone : Phase.unwritten (if answer.goesOn .whole then .reading else .ended) = [] := by
        split <;> rfl
      rw [hnone, List.append_nil, List.filterMap_append]
      exact hcalls
    · rw [List.filterMap_append]
      exact (congrArg (· ++ waiting) (List.append_nil _)).trans h.sent

/-- The oldest of what waits is written. -/
theorem front {first rest : List Event} (h : Orderly k f size t blocks (first ++ rest))
    (hp : t.phase = .reading) :
    Orderly k f size
      { t with
        server :=
          { t.server with
            outbound := t.server.outbound.insert k
              (rest.map fun e => messageBytes .text e.write size) }
        written := t.written ++ (first.map fun e => messageBytes .text e.write size).flatten }
      (blocks ++ first.map .message) rest := by
  obtain ⟨c, hc, hs, hcalls, hq⟩ := h.reading hp
  have hupgraded : first ≠ [] → c.protocol = .webSocket := by
    intro hn
    exact h.upgraded (List.append_ne_nil_of_left_ne_nil hn _) c hc
  refine ⟨h.sound.requeue hq _, h.chunkSize, ?_, ?_, ?_, ?_, ?_,
    fun _ => ⟨_, Table.get?_insert_self _ _ _⟩, ?_⟩
  · rw [hp]
    exact .reading hc (hs.messages hupgraded)
  · rw [h.written, List.flatMap_append, List.flatMap_map]
    rfl
  · rw [hp, List.filterMap_append, Block.answer?_messages, List.append_nil, hcalls]
    exact List.append_nil _
  · rw [List.filterMap_append, Block.message?_messages, List.append_assoc]
    exact h.sent
  · intro queue hqueue
    rw [Table.get?_insert_self] at hqueue
    exact (Option.some.inj hqueue).symm
  · intro hn
    exact h.upgraded (List.append_ne_nil_of_right_ne_nil _ hn)

theorem send {event : Event} {server : Server} (h : Orderly k f size t blocks waiting)
    (hsend : t.server.send k event = (.ok (), server)) :
    Orderly k f size { t with server, sent := t.sent ++ [event] } blocks (waiting ++ [event]) := by
  have hsound := h.sound.act (.send k event)
  obtain ⟨cause, he⟩ | ⟨p, queue, hpeer, hflag, hq, he⟩ := t.server.send_cases k event
  · cases hsend.symm.trans he
  · rw [Server.act, he] at hsound
    cases hsend.symm.trans he
    refine ⟨hsound, h.chunkSize, h.standing.congr rfl, h.written, h.calls, ?_, ?_,
      fun _ => ⟨_, Table.get?_insert_self _ _ _⟩, ?_⟩
    · rw [← List.append_assoc, h.sent]
    · intro queue' hq'
      rw [Table.get?_insert_self] at hq'
      rw [← Option.some.inj hq', h.queue queue hq, h.chunkSize, List.map_append]
      rfl
    · -- The flag of the peer is that of the connection.
      intro _ c hc
      obtain ⟨htold, hpeers⟩ := h.sound.living k c hc
      exact htold.isUpgraded_iff.2 ((hpeers p hpeer).symm.trans hflag)

/-- What is refused changes nothing. -/
theorem refuse {event : Event} {cause : SendError} {server : Server}
    (h : Orderly k f size t blocks waiting)
    (hsend : t.server.send k event = (.error cause, server)) :
    Orderly k f size { t with server } blocks waiting := by
  obtain ⟨_, he⟩ | ⟨_, _, -, -, -, he⟩ := t.server.send_cases k event
  · cases hsend.symm.trans he
    exact h
  · cases hsend.symm.trans he

theorem other {a : Server.Act} (h : Orderly k f size t blocks waiting)
    (hc : t.server.called? a ≠ some k) (hq : t.server.queued? a ≠ some k) :
    Orderly k f size { t with server := t.server.act a } blocks waiting := by
  have hconnection := (Server.act_spares h.sound.numbered hc).connection
  have hqueue := Server.queue_act hq
  refine ⟨h.sound.act a, Server.chunkSize_act h.chunkSize a, h.standing.congr hconnection,
    h.written, h.calls, h.sent, ?_, ?_, ?_⟩
  · rw [hqueue]
    exact h.queue
  · rw [hqueue]
    exact h.isOpen
  · rw [hconnection]
    exact h.upgraded

theorem hangUp (h : Orderly k f size t blocks waiting) (hp : t.phase = .reading) :
    Orderly k f size { t with phase := .ended } blocks waiting := by
  obtain ⟨c, hc, hs, hcalls, -⟩ := h.reading hp
  exact ⟨h.sound, h.chunkSize, .ended hs, h.written, (List.append_nil _).trans hcalls, h.sent,
    h.queue, fun hn => absurd rfl hn, h.upgraded⟩

theorem release {a : Server.Act} (h : Orderly k f size t blocks waiting) (hp : t.phase = .ended)
    (ha : a = .drop k ∨ a = .dropReceiver k) :
    Orderly k f size { t with server := t.server.act a } blocks waiting := by
  have hstanding := h.standing
  rw [hp] at hstanding
  have hclosed : t.phase ≠ .ended → ∃ queue, (t.server.act a).outbound.get? k = some queue :=
    fun hn => absurd hp hn
  cases hstanding with
  | ended hs =>
    have hstanding : Standing k f (t.server.act a) blocks t.phase := hp ▸ .ended hs
    rcases ha with rfl | rfl
    · refine ⟨h.sound.act (.drop k), Server.chunkSize_act h.chunkSize _, hstanding, h.written,
        h.calls, h.sent, ?_, hclosed, ?_⟩
      · have hqueued : t.server.queued? (.drop k) ≠ some k := (Option.some_ne_none k).symm
        rw [Server.queue_act hqueued]
        exact h.queue
      · intro _ c hc
        cases (t.server.connection_drop k).symm.trans hc
    · refine ⟨h.sound.act (.dropReceiver k), h.chunkSize, hstanding, h.written, h.calls, h.sent, ?_,
        hclosed, h.upgraded⟩
      intro queue hq
      cases (Table.get?_erase_self _ _).symm.trans hq

theorem deliver {oldest : Bytes} {rest : List Bytes} (h : Orderly k f size t blocks waiting)
    (hp : t.phase = .reading) (hq : t.server.outbound.get? k = some (oldest :: rest)) :
    ∃ blocks' waiting', Orderly k f size
      { t with
        server := { t.server with outbound := t.server.outbound.insert k rest }
        written := t.written ++ oldest }
      blocks' waiting' := by
  cases waiting with
  | nil => cases h.queue _ hq
  | cons event waiting =>
    obtain ⟨rfl, rfl⟩ := List.cons.inj (h.queue _ hq)
    rw [← List.singleton_append] at h
    have hfront := h.front hp
    rw [List.map_singleton, List.flatten_singleton] at hfront
    exact ⟨_, waiting, hfront⟩

theorem flush (h : Orderly k f size t blocks waiting) (hp : t.phase = .reading) :
    ∃ blocks' waiting', Orderly k f size
      { t with
        server := (t.server.receive k).2
        written := t.written ++ (t.server.receive k).1.flatten }
      blocks' waiting' := by
  obtain ⟨-, -, -, -, hq⟩ := h.reading hp
  have hr : t.server.receive k =
      (waiting.map fun e => messageBytes .text e.write size,
        { t.server with outbound := t.server.outbound.insert k [] }) := by
    rw [Server.receive, hq]
  rw [hr]
  rw [← List.append_nil waiting] at h
  exact ⟨_, [], front h hp⟩

/-- Whatever happens next, what was written stays in order. -/
theorem step (h : Orderly k f size t blocks waiting) (hs : Step k t t') :
    ∃ blocks' waiting', Orderly k f size t' blocks' waiting' := by
  cases hs with
  | read hp hio => exact ⟨blocks, waiting, h.read hp hio⟩
  | write hp hb hn => exact ⟨_, waiting, h.write hp hb hn⟩
  | deliver hp hq => exact h.deliver hp hq
  | flush hp => exact h.flush hp
  | send hsend => exact ⟨blocks, _, h.send hsend⟩
  | refuse hsend => exact ⟨blocks, waiting, h.refuse hsend⟩
  | hangUp hp => exact ⟨blocks, waiting, h.hangUp hp⟩
  | release hp ha => exact ⟨blocks, waiting, h.release hp ha⟩
  | other hc hq => exact ⟨blocks, waiting, h.other hc hq⟩

theorem steps (h : Orderly k f size t blocks waiting)
    (hs : Relation.ReflTransGen (Step k) t t') :
    ∃ blocks' waiting', Orderly k f size t' blocks' waiting' := by
  induction hs with
  | refl => exact ⟨blocks, waiting, h⟩
  | tail _ hlast ih =>
    obtain ⟨blocks', waiting', h'⟩ := ih
    exact h'.step hlast

/-- While a socket is open, a message is put behind its queue just when its peer is registered and
upgraded. -/
theorem send_iff (h : Orderly k f size t blocks waiting) (hp : t.phase ≠ .ended) (event : Event) :
    (∃ queue, t.server.outbound.get? k = some queue ∧
      t.server.send k event = (.ok (),
        { t.server with
          outbound := t.server.outbound.insert k
            (queue ++ [messageBytes .text event.write size]) })) ↔
      ∃ p, t.server.peers.get? k = some p ∧ p.isUpgraded = true := by
  obtain ⟨queue, hq⟩ := h.isOpen hp
  constructor
  · rintro ⟨_, -, hsend⟩
    obtain ⟨_, he⟩ | ⟨p, _, hpeer, hflag, -, -⟩ := t.server.send_cases k event
    · cases hsend.symm.trans he
    · exact ⟨p, hpeer, hflag⟩
  · rintro ⟨p, hpeer, hflag⟩
    refine ⟨queue, hq, ?_⟩
    rw [Server.send, hpeer]
    simp only [hflag, hq, h.chunkSize, Bool.not_true, Bool.false_eq_true, if_false]

end Orderly

/-- A socket that was just taken on. -/
theorem orderly_accept {setting : Setting} {before : List Server.Act} {remote : SocketAddress}
    {server : Server} (ha : ((Server.start setting).run before).accept remote = (.ok k, server)) :
    Orderly k ⟨k, none, .http, false⟩ setting.config.limits.messageChunkSize { server } [] [] := by
  have hsound := (Server.sound_run setting before).act (.accept remote)
  have hsize := Server.chunkSize_run setting before
  obtain ⟨cause, he⟩ | ⟨c, hc, he⟩ := ((Server.start setting).run before).accept_cases remote
  · cases ha.symm.trans he
  · rw [Server.act, he] at hsound
    cases ha.symm.trans he
    refine ⟨hsound, hsize, ?_, rfl, rfl, rfl, fun queue hq => ?_,
      fun _ => ⟨_, Table.get?_insert_self _ _ _⟩, fun hn => absurd rfl hn⟩
    · exact .reading (Table.get?_insert_self _ _ _) (Connection.face_of_create hc ▸ .nil)
    · rw [Table.get?_insert_self] at hq
      exact (Option.some.inj hq).symm

/-- Whatever happens at a socket, what is written to it are whole outputs of its calls and whole
messages, each in their order. No message comes before the response that switches the protocol. A
client reads all that comes behind it as frames, and takes the messages that were written. -/
theorem written_in_order {setting : Setting} {before : List Server.Act} {remote : SocketAddress}
    {server : Server} (ha : ((Server.start setting).run before).accept remote = (.ok k, server))
    (ht : Relation.ReflTransGen (Step k) { server } t) :
    (t.phase ≠ .ended → ∀ event,
      (∃ queue, t.server.outbound.get? k = some queue ∧
        t.server.send k event = (.ok (),
          { t.server with
            outbound := t.server.outbound.insert k
              (queue ++
                [messageBytes .text event.write setting.config.limits.messageChunkSize]) })) ↔
        ∃ p, t.server.peers.get? k = some p ∧ p.isUpgraded = true) ∧
    ∃ blocks : List Block,
      t.written = blocks.flatMap (Block.bytes setting.config.limits.messageChunkSize) ∧
      blocks.filterMap Block.answer? ++ t.phase.unwritten = t.calls ∧
      blocks.filterMap Block.message? <+: t.sent ∧
      ((∀ b ∈ blocks, b.IsPlain) ∨
        ∃ front plain key first back,
          blocks =
            front ++
              .answer (plain ++ .bytes (Handshake.acceptedResponse key).wire :: first) :: back ∧
          (∀ b ∈ front, b.IsPlain) ∧ Answers plain ∧
          ∀ (config : FrameConfig) (maxMessageSize : Nat), 125 ≤ config.maxFrameSize →
            (∀ e ∈ t.sent, e.write.length ≤ Buffer.maxStore ∧
              e.write.length ≤ config.maxFrameSize ∧ e.write.length ≤ maxMessageSize) →
            ∃ frames,
              readFrames config (first.flatMap Output.content ++
                back.flatMap (Block.bytes setting.config.limits.messageChunkSize)) = (frames, []) ∧
              Reassembly.listen { maxMessageSize } frames =
                some ((blocks.filterMap Block.message?).map Event.write)) := by
  obtain ⟨blocks, waiting, h⟩ := (orderly_accept ha).steps ht
  have hfirst : blocks.filterMap Block.message? <+: t.sent := ⟨waiting, h.sent⟩
  refine ⟨h.send_iff, blocks, h.written, h.calls, hfirst, ?_⟩
  obtain ⟨g, closes, hs⟩ := h.standing.story
  obtain ⟨-, -, hplain⟩ | ⟨front, plain, key, first, back, signals, hb, hfront, hanswers, -, htalk,
    hbytes, htexts⟩ := hs.split rfl setting.config.limits.messageChunkSize
  · exact .inl hplain
  · refine .inr ⟨front, plain, key, first, back, hb, hfront, hanswers, ?_⟩
    intro config maxMessageSize hc hsizes
    rw [hbytes, ← htexts]
    refine Reassembly.listen_talk htalk hc ?_ (Reassembly.atRest_fresh maxMessageSize)
    intro text htext
    rw [htexts] at htext
    obtain ⟨e, he, rfl⟩ := List.mem_map.1 htext
    obtain ⟨hstore, hframe, hmessage⟩ := hsizes e (hfirst.subset he)
    have hmax : Buffer.maxStore < 2 ^ 63 := by decide
    exact ⟨Nat.lt_of_le_of_lt hstore hmax, hframe, hmessage⟩

/-- An event that is sent to the first client, once its connection is a WebSocket. -/
theorem written_in_order_hello :
    ∃ (setting : Setting) (server : Server) (t : Traffic) (blocks : List Block),
      Relation.ReflTransGen (Step ⟨1⟩) { server } t ∧ t.calls.length = 1 ∧
      t.sent = [{ event := "hello" }] ∧
      t.written = blocks.flatMap (Block.bytes setting.config.limits.messageChunkSize) ∧
      blocks.filterMap Block.answer? = t.calls ∧
      blocks.filterMap Block.message? <+: [{ event := "hello" }] := by
  obtain ⟨setting, remote, server, request, turn, haccept, hio, hgoes, hsocket, -, -, hupgraded,
    hchunk⟩ :=
    Server.io_upgrade
  have ha : ((Server.start setting).run []).accept remote = (.ok ⟨1⟩, server) := haccept
  let answer : Answer := ⟨turn.output, turn.outcome⟩
  let t₁ : Traffic :=
    { server := server.absorb turn, phase := .writing answer, calls := [turn.output] }
  have h₁ : Step ⟨1⟩ { server } t₁ := .read rfl hio
  have horderly₁ := (orderly_accept ha).read rfl hio
  let t₂ : Traffic :=
    { t₁ with
      phase := if answer.goesOn .whole then .reading else .ended
      written := [] ++ turn.output.flatMap Output.content }
  have hbytes := horderly₁.standing.outputBytes (Server.io_fits hchunk hio)
  have h₂ : Step ⟨1⟩ t₁ t₂ := .write rfl hbytes nofun
  have horderly₂ : Orderly ⟨1⟩ _ setting.config.limits.messageChunkSize t₂ _ [] :=
    horderly₁.write rfl hbytes nofun
  have hreading : t₂.phase = .reading := if_pos (Answer.goesOn_iff.2 ⟨hgoes, rfl⟩)
  -- The peer has the flag of the connection.
  have hpeer : ∃ p, t₂.server.peers.get? ⟨1⟩ = some p ∧ p.isUpgraded = true := by
    obtain ⟨cause, he⟩ | ⟨c, -, he⟩ := (Server.start setting).accept_cases remote
    · cases haccept.symm.trans he
    · cases haccept.symm.trans he
      refine ⟨{ remote, isUpgraded := true }, ?_, rfl⟩
      show (if turn.connection.isUpgraded then Table.modify _ turn.connection.socket _ else _).get?
        ⟨1⟩ = _
      rw [if_pos hupgraded, hsocket, Table.get?_modify_self]
      rfl
  obtain ⟨queue, -, hsend⟩ :=
    (horderly₂.send_iff (hreading.trans_ne nofun) { event := "hello" }).2 hpeer
  have hok : (t₂.server.send ⟨1⟩ { event := "hello" }).1 = .ok () := congrArg Prod.fst hsend
  let t₃ : Traffic :=
    { t₂ with
      server := (t₂.server.send ⟨1⟩ { event := "hello" }).2
      sent := [] ++ [{ event := "hello" }] }
  have h₃ : Step ⟨1⟩ t₂ t₃ := .send (Prod.ext hok rfl)
  have h₄ := Step.flush (k := ⟨1⟩) (t := t₃) hreading
  have hsteps := (((Relation.ReflTransGen.single h₁).tail h₂).tail h₃).tail h₄
  obtain ⟨-, blocks, hwritten, hcalls, hmessages, -⟩ := written_in_order ha hsteps
  have hunwritten : t₃.phase.unwritten = [] := congrArg Phase.unwritten hreading
  refine ⟨setting, server, _, blocks, hsteps, rfl, rfl, hwritten, ?_, hmessages⟩
  rw [← hcalls, hunwritten, List.append_nil]

end Traffic

end OriginServer
