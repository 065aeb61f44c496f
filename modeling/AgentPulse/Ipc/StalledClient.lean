import AgentPulse.Ipc.ClientsServed

/-!
# What a stalled client holds up

The connections are served one after the other and no call on them has a
timeout. A client that stalls can hold up the loop, the clients behind it and
`stop` for good. This module says exactly when: its newline has not been sent, or
the rest of its response is more than its end takes.
-/

namespace AgentPulse.AcceptLoop

open Exchange (Complete)
open SocketServer (maxRequestBytes bufferBytes)
open Places
open Transition

variable {upSize downSize backlog : ℕ} {s t : State} {k : ℕ} {p : Peer}

/-- The client has stalled with its end open, before its newline or with a
response that does not fit. -/
def Peer.Holds (downSize : ℕ) (p : Peer) : Prop :=
  p.stalled = true ∧ p.exchange.client.ended = false ∧
    (10 ∉ p.exchange.up.sent ∨
      p.exchange.down.received.length + downSize ≤ (p.answer p.command).length)

section Bounds

theorem down_le_step {code : Exchange.ClientCode} {answer : Bytes → Bytes} {e f : Exchange.State}
    {a : Exchange.Label} (h : e.down.buffer.length ≤ downSize)
    (hmove : Exchange.Move code answer upSize downSize e a f) :
    f.down.buffer.length ≤ downSize := by
  cases hmove with
  | clientWrite rest w hclient hcan =>
      cases w with
      | interrupted =>
          rw [Exchange.clientWriteStep]
          split_ifs <;> exact h
      | failed => exact h
      | bytes n => exact h
  | clientRead response r hclient hcan =>
      cases r with
      | interrupted =>
          rw [Exchange.clientReadStep]
          split_ifs <;> exact h
      | failed => exact h
      | closed => exact h
      | bytes chunk =>
          rw [Exchange.clientReadStep, Conduit.length_buffer_read]
          exact (Nat.sub_le _ _).trans h
  | serverRead request r hserver hroom hcan =>
      cases r with
      | interrupted => exact h
      | failed => exact h
      | closed => exact h
      | bytes chunk =>
          simp only [Exchange.serverReadStep]
          split_ifs <;> exact h
  | serverDrop request hserver hfull => exact h
  | serverWrite rest w hserver hcan =>
      cases w with
      | interrupted => exact h
      | failed => exact h
      | bytes n =>
          rw [Exchange.serverWriteStep, Conduit.length_buffer_write, List.length_take,
            min_eq_left hcan.2.1]
          exact hcan.2.2.1
  | serverClose hserver => exact h

/-- No response is in flight beyond what a stream holds. -/
def Bounded (downSize : ℕ) (s : State) : Prop :=
  AllAt (fun _ p => p.exchange.down.buffer.length ≤ downSize) s.peers

theorem bounded_step {a : Label} (h : Bounded downSize s)
    (hmove : Move upSize downSize backlog s a t) : Bounded downSize t := by
  cases hmove with
  | connect code command answer => exact AllAt.concat h (Nat.zero_le _)
  | stall k p hget => exact AllAt.set h (h k p hget) fun _ _ _ hp => hp
  | client k p a e hget hside hlive hmove =>
      exact AllAt.set h (down_le_step (h k p hget) hmove) fun _ _ _ hp => hp
  | serve k p a e hthread hget hside hmove =>
      exact AllAt.set h (down_le_step (h k p hget) hmove) fun _ _ _ hp => hp
  | close => exact AllAt.mapFrom h (fun _ _ _ hp => hp) fun _ _ _ hp => hp
  | check | ready | timeout | interrupted | failed => exact h
  | accept | refuse | stop | join | unlink => exact h

end Bounds

section Holding

/-- A connection whose client holds it is never over. -/
theorem Peer.Holds.not_closed (h : p.Holds downSize)
    (hcomplete : Complete p.answer p.command p.exchange)
    (hbounded : p.exchange.down.buffer.length ≤ downSize) : p.exchange.server ≠ .closed := by
  intro hclosed
  obtain ⟨hcalls, hsent⟩ := hcomplete.server (.inr hclosed)
  obtain ⟨-, -, hnewline | hlength⟩ := h
  · obtain ⟨hnone, -⟩ | ⟨-, hmem, -⟩ := hcomplete.inv.calls_cases
    · rw [hcalls] at hnone
      cases hnone
    · exact hnewline (p.exchange.up.received_prefix_sent.subset hmem)
  · have hsize := congrArg List.length hsent
    rw [Conduit.sent, List.length_append, List.length_append, List.length_singleton] at hsize
    omega

/-- The server does not change whether the client holds the connection. -/
theorem holds_serve_iff {a : Exchange.Label} {e : Exchange.State} (hside : ofClient a = false)
    (hmove : Exchange.Move p.code p.answer upSize downSize p.exchange a e) :
    Peer.Holds downSize { p with exchange := e } ↔ p.Holds downSize := by
  obtain ⟨hclient, hsent, hreceived⟩ := server_frame hside hmove
  simp only [Peer.Holds, hclient, hsent, hreceived]

/-- The loop is at a connection whose client holds it. -/
structure HeldUp (downSize k : ℕ) (s : State) : Prop where
  sound : Sound s
  bounded : Bounded downSize s
  thread : s.thread = .serving k
  held : ∃ p, s.peers[k]? = some p ∧ p.Holds downSize

theorem heldUp_step {a : Label} (h : HeldUp downSize k s) (hok : Faultless s a)
    (hmove : Move upSize downSize backlog s a t) : HeldUp downSize k t := by
  have hsound := sound_step h.sound hok hmove
  have hbounded := bounded_step h.bounded hmove
  have hthread := h.thread
  obtain ⟨p, hget, hholds⟩ := h.held
  have hlt := (List.getElem?_eq_some_iff.mp hget).1
  cases hmove with
  | connect code command answer =>
      refine ⟨hsound, hbounded, hthread, p, ?_, hholds⟩
      rw [List.getElem?_append_left hlt, hget]
  | stall j q hq =>
      by_cases hj : j = k
      · subst hj
        cases hget.symm.trans hq
        refine ⟨hsound, hbounded, hthread, { p with stalled := true }, ?_, rfl, hholds.2⟩
        rw [State.setPeer, List.getElem?_set_self hlt]
      · refine ⟨hsound, hbounded, hthread, p, ?_, hholds⟩
        rw [State.setPeer, List.getElem?_set_ne hj, hget]
  | client j q a e hq hside hlive hmove =>
      have hj : j ≠ k := by
        rintro rfl
        cases hget.symm.trans hq
        rw [hholds.1] at hlive
        cases hlive
      refine ⟨hsound, hbounded, hthread, p, ?_, hholds⟩
      rw [State.setPeer, List.getElem?_set_ne hj, hget]
  | serve j q a e hserving hq hside hmove =>
      obtain rfl := Thread.serving.inj (hthread.symm.trans hserving)
      cases hget.symm.trans hq
      have hget' : (s.served k p e).peers[k]? = some { p with exchange := e } := by
        rw [State.served, List.getElem?_set_self hlt]
      have hholds' : Peer.Holds downSize { p with exchange := e } :=
        (holds_serve_iff hside hmove).mpr hholds
      have hk := h.sound.inv.serving k hthread
      have hcomplete := (hsound.peers k _ hget').complete
        (.inl (by simp only [State.served]; omega))
      have hclosed := hholds'.not_closed hcomplete (hbounded k _ hget')
      refine ⟨hsound, hbounded, ?_, _, hget', hholds'⟩
      simp only [State.served]
      rw [if_neg hclosed]
  | check hchecking => simp [hthread] at hchecking
  | ready hpolling hpending => simp [hthread] at hpolling
  | timeout hpolling hnone => simp [hthread] at hpolling
  | interrupted hpolling => simp [hthread] at hpolling
  | failed hpolling => simp [hthread] at hpolling
  | accept haccepting hpending => simp [hthread] at haccepting
  | refuse haccepting => simp [hthread] at haccepting
  | stop hidle => exact ⟨hsound, hbounded, hthread, p, hget, hholds⟩
  | join hjoining hexited => simp [hthread] at hexited
  | close hclosing =>
      have hexited := h.sound.inv.exited (by simp [hclosing]) (by simp [hclosing])
      simp [hthread] at hexited
  | unlink hunlinking =>
      have hexited := h.sound.inv.exited (by simp [hunlinking]) (by simp [hunlinking])
      simp [hthread] at hexited

end Holding

section Moving

/-- Unless its client holds it, the connection that is served goes on. -/
theorem Sound.exists_call (h : Sound s) (hup : 0 < upSize) (hdown : 0 < downSize)
    (hthread : s.thread = .serving k) (hget : s.peers[k]? = some p) (hfree : ¬ p.Holds downSize) :
    ∃ a e, a.progress = true ∧ Exchange.Faultless p.code p.exchange a ∧
      Exchange.Move p.code p.answer upSize downSize p.exchange a e ∧
      (ofClient a = true → p.stalled = false) := by
  have hk := h.inv.serving k hthread
  have hok := h.inv.peers k p hget
  have hopen := hok.current hthread
  have hshort := (h.peers k p hget).short
  cases hstalled : p.stalled with
  | false =>
      obtain ⟨a, e, hprogress, hfaultless, hstep⟩ :=
        h.canProgress hup hdown hget fun hfinished => hopen hfinished.2
      exact ⟨a, e, hprogress, hfaultless, Exchange.move_of_step hstep, fun _ => rfl⟩
  | true =>
      have hfits : p.exchange.client.ended = false → 10 ∈ p.exchange.up.sent ∧
          (p.answer p.command).length < p.exchange.down.received.length + downSize := by
        intro hended
        refine ⟨?_, ?_⟩
        · by_contra hnewline
          exact hfree ⟨hstalled, hended, .inl hnewline⟩
        · by_contra hlength
          exact hfree ⟨hstalled, hended, .inr (not_lt.mp hlength)⟩
      cases hserver : p.exchange.server with
      | closed => exact absurd hserver hopen
      | returning => exact ⟨.serverClose, _, rfl, trivial, .serverClose hserver, by simp [ofClient]⟩
      | reading request =>
          have hroom := hok.inv.room_of_reading hshort.length hserver
          obtain ⟨hreceived, hline, -⟩ := hok.inv.of_reading hserver
          by_cases hbuffer : p.exchange.up.buffer = []
          · have hended : p.exchange.client.ended = true := by
              by_contra hnot
              obtain ⟨hnewline, -⟩ := hfits (by simpa using hnot)
              rw [← Conduit.received_eq_sent hbuffer, hreceived] at hnewline
              exact hline hnewline
            exact ⟨.serverRead .closed, _, rfl, trivial,
              .serverRead request .closed hserver hroom ⟨hbuffer, hended⟩, by simp [ofClient]⟩
          · have hread : Exchange.CanRead p.exchange.up p.exchange.client.ended bufferBytes
                (.bytes (p.exchange.up.buffer.take bufferBytes)) :=
              Exchange.canRead_take (by decide) hbuffer
            exact ⟨.serverRead (.bytes _), _, rfl, trivial,
              .serverRead request _ hserver hroom hread, by simp [ofClient]⟩
      | writing rest =>
          obtain ⟨-, hne, -, hsent⟩ := hok.inv.calls_of_not_reading hshort.command hserver
          cases hended : p.exchange.client.ended with
          | true =>
              exact ⟨.serverWrite .failed, _, rfl, hended,
                .serverWrite rest .failed hserver trivial, by simp [ofClient]⟩
          | false =>
              have hpos := List.length_pos_iff.mpr hne
              obtain ⟨-, hlength⟩ := hfits hended
              have hsize := congrArg List.length hsent
              rw [Conduit.sent, List.length_append, List.length_append, List.length_append,
                List.length_singleton] at hsize
              exact ⟨.serverWrite (.bytes 1), _, rfl, trivial,
                .serverWrite rest (.bytes 1) hserver ⟨Nat.one_pos, hpos, by omega, hended⟩,
                by simp [ofClient]⟩

/-- The call that goes on is a step of the loop that does not make the client hold it. -/
theorem Sound.exists_step (backlog : ℕ) (h : Sound s) (hup : 0 < upSize) (hdown : 0 < downSize)
    (hthread : s.thread = .serving k) (hget : s.peers[k]? = some p) (hfree : ¬ p.Holds downSize) :
    ∃ a t e, a.counts s = true ∧ Lively s a ∧ Move upSize downSize backlog s a t ∧
      Peer.rank { p with exchange := e } < p.rank ∧
      t.peers[k]? = some { p with exchange := e } ∧
      ¬ Peer.Holds downSize { p with exchange := e } ∧
      (t.thread = .serving k ∨ t.thread = .checking) := by
  have hlt := (List.getElem?_eq_some_iff.mp hget).1
  obtain ⟨a, e, hprogress, hok, hmove, hlive⟩ := h.exists_call hup hdown hthread hget hfree
  have hrank : Peer.rank { p with exchange := e } < p.rank := by
    have hle := Exchange.rank_step (h.inv.peers k p hget).inv hmove
    rw [hprogress, if_pos rfl] at hle
    exact hle
  cases hside : ofClient a with
  | true =>
      refine ⟨.client k a, _, e, hprogress, ?_, .client k p a e hget hside (hlive hside) hmove,
        hrank, ?_, fun hholds => ?_, .inl hthread⟩
      · intro q hq
        cases hget.symm.trans hq
        exact hok
      · rw [State.setPeer, List.getElem?_set_self hlt]
      · have hstalled := hholds.1
        rw [hlive hside] at hstalled
        cases hstalled
  | false =>
      refine ⟨.serve a, _, e, hprogress, ?_, .serve k p a e hthread hget hside hmove, hrank, ?_,
        fun hholds => hfree ((holds_serve_iff hside hmove).mp hholds), ?_⟩
      · intro q hq
        rw [State.current, hthread] at hq
        cases hget.symm.trans hq
        exact hok
      · rw [State.served, List.getElem?_set_self hlt]
      · simp only [State.served]
        split_ifs
        · exact .inr rfl
        · exact .inl rfl

/-- The loop can get over a connection whose client does not hold it. -/
theorem Sound.exists_over (backlog : ℕ) (h : Sound s) (hup : 0 < upSize) (hdown : 0 < downSize)
    (hthread : s.thread = .serving k) (hget : s.peers[k]? = some p) (hfree : ¬ p.Holds downSize) :
    ∃ labels t, Run (step upSize downSize backlog) Lively s labels t ∧ t.thread = .checking := by
  induction hn : p.rank using Nat.strongRecOn generalizing s p with
  | _ n ih =>
      obtain ⟨a, m, e, -, hok, hmove, hrank, hget', hfree', hnext⟩ :=
        h.exists_step backlog hup hdown hthread hget hfree
      have hstep := step_of_move hmove
      obtain hserving | hover := hnext
      · obtain ⟨labels, t, hrun, ht⟩ :=
          ih _ (hn ▸ hrank) (sound_step h hok.faultless hmove) hserving hget' hfree' rfl
        exact ⟨a :: labels, t, .cons hok hstep hrun, ht⟩
      · exact ⟨[a], m, .cons hok hstep (.nil m), hover⟩

end Moving

/-- What holds in the runs without faults in which clients may stall. -/
theorem sound_of_run {labels : List Label}
    (h : Run (step upSize downSize backlog) Faultless {} labels t) :
    Sound t ∧ Bounded downSize t :=
  h.invariant (I := fun s => Sound s ∧ Bounded downSize s)
    (fun _ _ _ hs hok hstep => ⟨sound_step hs.1 hok (move_of_step hstep),
      bounded_step hs.2 (move_of_step hstep)⟩) ⟨sound_initial, allAt_nil⟩

/-- Without faults but with clients that may stall: the loop stays with the
connection it serves in every continuation exactly if that client has stalled
with its end open and has not sent its newline or cannot take the rest of its
response. Then nobody else is accepted and `stop` does not return. -/
theorem held_up_iff (hup : 0 < upSize) (hdown : 0 < downSize) {labels : List Label}
    (hrun : Run (step upSize downSize backlog) Faultless {} labels t)
    (hthread : t.thread = .serving k) (hget : t.peers[k]? = some p) :
    ((∀ more u, Run (step upSize downSize backlog) Faultless t more u → u.thread = .serving k) ↔
      p.Holds downSize) ∧
    (p.Holds downSize → ∀ more u, Run (step upSize downSize backlog) Faultless t more u →
      u.accepted = t.accepted ∧ u.stopper ≠ .stopped) := by
  obtain ⟨hsound, hbounded⟩ := sound_of_run hrun
  have hstay : p.Holds downSize → ∀ more u, Run (step upSize downSize backlog) Faultless t more u →
      HeldUp downSize k u := fun hholds more u hmore =>
    hmore.invariant (fun _ _ _ hs hok hstep => heldUp_step hs hok (move_of_step hstep))
      ⟨hsound, hbounded, hthread, p, hget, hholds⟩
  refine ⟨⟨fun hall => ?_, fun hholds more u hmore => (hstay hholds more u hmore).thread⟩,
    fun hholds more u hmore => ?_⟩
  · by_contra hfree
    obtain ⟨more, u, hmore, hchecking⟩ :=
      hsound.exists_over backlog hup hdown hthread hget hfree
    have hserving := hall more u (hmore.mono fun _ _ hok => hok.faultless)
    rw [hchecking] at hserving
    cases hserving
  · have hheld := hstay hholds more u hmore
    have hinv := hheld.sound.inv
    refine ⟨?_, fun hstopped => ?_⟩
    · rw [← hinv.serving k hheld.thread, ← hsound.inv.serving k hthread]
    · have hexited := hinv.exited (by simp [hstopped]) (by simp [hstopped])
      rw [hheld.thread] at hexited
      cases hexited

/-- A client sends two bytes and stalls; a second one waits and `stop` is called. -/
def stallLabels : List Label :=
  [.connect Exchange.sendRequest (text "ping") fun _ => text "pong", .check, .poll .ready,
    .accept true, .client 0 (.clientWrite (.bytes 2)), .stall 0,
    .connect Exchange.sendRequest (text "jobs") fun _ => text "none",
    .serve (.serverRead (.bytes (text "pi"))), .stop]

instance (p : Peer) : Decidable (p.Holds downSize) :=
  inferInstanceAs (Decidable (_ ∧ _ ∧ (_ ∨ _)))

theorem held_up_iff_stalled :
    ∃ t, Run (step 8 8 8) Faultless {} stallLabels t ∧ t.peers.length = 2 ∧
      ∀ more u, Run (step 8 8 8) Faultless t more u → u.accepted = 1 ∧ u.stopper ≠ .stopped := by
  obtain ⟨t, hrun, hend⟩ := Run.of_exec_any (step 8 8 8) Faultless {} stallLabels
    (fun t => t.peers.length = 2 ∧ t.thread = .serving 0 ∧ t.accepted = 1 ∧
      t.peers[0]?.any fun p => p.Holds 8) (by decide)
  obtain ⟨hlength, hthread, haccepted, hany⟩ := of_decide_eq_true hend
  obtain ⟨p, hget, hholds⟩ := (Option.any_eq_true _ _).mp hany
  have hheld := (held_up_iff (by decide) (by decide) hrun hthread hget).2 (of_decide_eq_true hholds)
  exact ⟨t, hrun, hlength, fun more u hmore => haccepted ▸ hheld more u hmore⟩

end AgentPulse.AcceptLoop
