import OriginServer.Proofs.Connection.Hygiene
import OriginServer.Proofs.Server.Act

namespace OriginServer

open OriginServer.Http OriginServer.WebSocket

namespace Server

/-- A call that ends with an error. -/
def Fails (s : Server) (k : SocketId) (domain : String) (data : Bytes) : Prop :=
  ∃ answer cause, (s.io k domain data).1 = some answer ∧ answer.outcome = .error cause

/-- No connection is given bytes after a call of it has failed. -/
def Careful (s : Server) (acts : List Act) : Prop :=
  ∀ first k domain data later, acts = first ++ .io k domain data :: later →
    (s.run first).Fails k domain data → ∀ domain' data', .io k domain' data' ∉ later

variable {s : Server} {acts : List Act} {a : Act}

theorem Careful.tail (h : s.Careful (a :: acts)) : (s.act a).Careful acts := by
  intro first k domain data later he
  exact h (a :: first) k domain data later (congrArg (a :: ·) he)

/-- What holds of a server that is to go through these acts: its pools are clean, and whatever goes
back to them can be cleaned. -/
structure Hygienic (s : Server) (acts : List Act) : Prop where
  numbered : s.Numbered
  roomy : s.Roomy
  pools : s.pools.Clean s.setting.config.limits
  frames : ∀ k c, s.connections.get? k = some c →
    ∀ f ∈ c.reassembly.frames, f.Fit s.setting.config.limits
  buffer : ∀ k c, s.connections.get? k = some c → ∀ domain data, .io k domain data ∈ acts →
    c.buffer.Tidy s.setting.config.limits.keptStore

theorem Hygienic.act (h : s.Hygienic (a :: acts)) (hs : s.Careful (a :: acts)) :
    (s.act a).Hygienic acts := by
  -- A connection that takes in bytes has not failed before.
  have hio : ∀ k c domain data, a = .io k domain data → s.connections.get? k = some c →
      (c.io s.setting s.pools domain data).Cleans s.setting.config.limits := by
    rintro k c domain data rfl hc
    have hneat : c.Neat s.setting.config.limits :=
      ⟨h.buffer k c hc domain data List.mem_cons_self, h.frames k c hc⟩
    exact Connection.io_cleans h.pools (h.roomy k c hc) hneat domain data
  refine ⟨h.numbered.act a, h.roomy.act h.numbered a, ?_, fun k c hc => ?_,
    fun k c hc domain' data' hm => ?_⟩
  · rw [config_act]
    obtain hp | ⟨k, c, domain, data, ha, hc, hp⟩ | ⟨k, c, -, hc, hp⟩ := s.pools_act a
    · rw [hp]
      exact h.pools
    · rw [hp]
      exact (hio k c domain data ha hc).pools
    · rw [hp]
      exact h.pools.putFrames (h.roomy k c hc) (h.frames k c hc)
  · rw [config_act]
    obtain ⟨hc, -⟩ | ⟨_, -, -, hnew⟩ | ⟨before, domain, data, ha, hb, rfl, -⟩ :=
      connection_act h.numbered hc
    · exact h.frames k c hc
    · exact (Connection.neat_create hnew).frames
    · exact (hio k before domain data ha hb).frames
  · rw [config_act]
    obtain ⟨hc, -⟩ | ⟨_, -, -, hnew⟩ | ⟨before, domain, data, ha, hb, rfl, -⟩ :=
      connection_act h.numbered hc
    · exact h.buffer k c hc domain' data' (List.mem_cons_of_mem _ hm)
    · exact (Connection.neat_create hnew).buffer
    · apply (hio k before domain data ha hb).buffer
      intro cause hfail
      subst ha
      have hanswer : (s.io k domain data).1 =
          some ⟨(before.io s.setting s.pools domain data).output,
            (before.io s.setting s.pools domain data).outcome⟩ := by
        rw [io, hb]
      have hfails : (s.run []).Fails k domain data := ⟨_, cause, hanswer, hfail⟩
      exact hs [] k domain data acts rfl hfails domain' data' hm

theorem Hygienic.run (h : s.Hygienic acts) (hs : s.Careful acts) : (s.run acts).Hygienic [] := by
  induction acts generalizing s with
  | nil => exact h
  | cons a acts ih => exact ih (h.act hs) hs.tail

/-- After any calls, none of them of a connection that has failed before, every idle object stands
under its own key and is as good as a new one: nothing is left of what was read with it, and its
buffer is empty, zero throughout and not too large. No key has more objects than allowed. -/
theorem idle_clean (setting : Setting) {acts : List Act} (h : (start setting).Careful acts) :
    (∀ k, ((start setting).run acts).pools.messages.idle k ≤ setting.config.limits.poolCapacity ∧
      ∀ m ∈ ((start setting).run acts).pools.messages.stack k, m.config = k ∧
        (∃ new, StoredMessage.create k = .ok new ∧ m = { new with buffer := m.buffer }) ∧
        m.buffer.length = 0 ∧ (∀ x ∈ m.buffer.store, x = 0) ∧
        m.buffer.capacity ≤
          max setting.config.limits.recacheThreshold setting.config.limits.bufferSize) ∧
    ∀ k, ((start setting).run acts).pools.frames.idle k ≤ setting.config.limits.poolCapacity ∧
      ∀ f ∈ ((start setting).run acts).pools.frames.stack k, f.config = k ∧
        (∃ new, StoredFrame.create k = .ok new ∧ f = { new with buffer := f.buffer }) ∧
        f.buffer.length = 0 ∧ (∀ x ∈ f.buffer.store, x = 0) ∧
        f.buffer.capacity ≤
          max setting.config.limits.recacheThreshold setting.config.limits.bufferSize := by
  have hstart : (start setting).Hygienic acts :=
    ⟨numbered_start setting, nofun, Pools.clean_empty setting.config.limits, nofun, nofun⟩
  have hclean := (hstart.run h).pools
  rw [config_run] at hclean
  constructor
  · intro k
    refine ⟨hclean.messages.idle_le k, fun m hm => ?_⟩
    obtain ⟨hconfig, hnew, hlength, hzero, hcapacity⟩ := hclean.messages.fits k m hm
    exact ⟨hconfig, hnew, hlength, hzero, hcapacity⟩
  · intro k
    refine ⟨hclean.frames.idle_le k, fun f hf => ?_⟩
    obtain ⟨hconfig, hnew, hlength, hzero, hcapacity⟩ := hclean.frames.fits k f hf
    exact ⟨hconfig, hnew, hlength, hzero, hcapacity⟩

/-- Half a request leaves the message behind that it was read with. -/
theorem idle_clean_message :
    ∃ (setting : Setting) (acts : List Act) (k : MessageConfig) (m : StoredMessage),
      acts.length = 2 ∧ m ∈ ((start setting).run acts).pools.messages.stack k ∧ m.config = k ∧
        m.buffer.length = 0 ∧ ∀ x ∈ m.buffer.store, x = 0 := by
  let setting : Setting :=
    { config := { limits := { bufferSize := 2, poolCapacity := 1 } }, files := {} }
  have hcareful : (start setting).Careful [.accept ⟨.v4 [127, 0, 0, 1], 5000⟩,
      .io ⟨1⟩ "localhost" [0x47]] := by
    intro first k domain data later he _ domain' data' hm
    cases first with
    | nil => cases he
    | cons a first =>
      have he' : [Act.io ⟨1⟩ "localhost" [0x47]] = first ++ .io k domain data :: later :=
        (List.cons.inj he).2
      have hl := congrArg List.length he'
      simp only [List.length_append, List.length_cons, List.length_nil] at hl
      have hlater : later = [] := List.eq_nil_of_length_eq_zero (by omega)
      rw [hlater] at hm
      cases hm
  obtain ⟨m, hm, -⟩ :=
    io_recycles ((numbered_start setting).act (.accept ⟨.v4 [127, 0, 0, 1], 5000⟩)) rfl rfl rfl
  have hmem : m ∈ ((start setting).run [.accept ⟨.v4 [127, 0, 0, 1], 5000⟩,
      .io ⟨1⟩ "localhost" [0x47]]).pools.messages.stack setting.config.limits.messageConfig :=
    hm ▸ List.mem_singleton_self m
  obtain ⟨hconfig, -, hlength, hzero, -⟩ := ((idle_clean setting hcareful).1 _).2 m hmem
  exact ⟨setting, _, _, m, rfl, hmem, hconfig, hlength, hzero⟩

end Server

end OriginServer
