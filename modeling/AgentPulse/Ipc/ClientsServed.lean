import AgentPulse.Ipc.AcceptLoop
import AgentPulse.Ipc.RequestAnswered

/-!
# Every client is served

Without faults and with clients that go on, the accept loop answers every client
it accepts and `stop` returns. The invariant of the loop is joined with the one
of a faultless connection, and a rank bounds the steps: the work left on all
connections, the backlog, and what is left of the loop and of `stop`.
-/

namespace AgentPulse.AcceptLoop

open Exchange (ClientCode Complete Finished line)
open SocketServer (maxRequestBytes)
open Places
open Transition

/-- The connection the server is busy with. -/
def State.current (s : State) : Option Peer :=
  match s.thread with
  | .serving k => s.peers[k]?
  | _ => none

/-- Commands and answers are short and without a newline, no call fails but on a
closed connection, and `poll` and `accept` do not fail. -/
def Faultless (s : State) : Label → Prop
  | .connect _ command answer =>
      10 ∉ command ∧ command.length < maxRequestBytes ∧ 10 ∉ answer command
  | .client k a => ∀ p ∈ s.peers[k]?, Exchange.Faultless p.code p.exchange a
  | .serve a => ∀ p ∈ s.current, Exchange.Faultless p.code p.exchange a
  | .poll .failed | .accept false => False
  | _ => True

/-- Besides, no client stalls. -/
def Lively (s : State) : Label → Prop
  | .stall _ => False
  | a => Faultless s a

/-- The steps that are bounded: all but an interrupted call, a new connection,
and a `poll` that ends without one before `stop` is called. -/
def Label.counts (s : State) : Label → Bool
  | .connect _ _ _ | .stall _ | .accept false => false
  | .client _ a | .serve a => a.progress
  | .poll .timeout | .poll .interrupted => !s.running
  | _ => true

/-- The steps a label may cause. -/
def Label.cost : Label → ℕ
  | .connect _ command answer => 2 * command.length + 2 * (answer (line command)).length + 12
  | .poll .timeout | .poll .interrupted => 1
  | .accept false => 2
  | _ => 0

/-- The bounded steps of a run. -/
def counted (s : State) (a : Label) : List Label := if a.counts s then [a] else []

section Rank

def Peer.rank (p : Peer) : ℕ :=
  Exchange.rank (Exchange.responseSize p.answer p.command) p.exchange

def Thread.rank (running : Bool) : Thread → ℕ
  | .checking => if running then 2 else 1
  | .polling => if running then 1 else 2
  | .serving _ => 2
  | .accepting | .exited => 0

def Stopper.rank : Stopper → ℕ
  | .idle => 5
  | .joining => 3
  | .closing => 2
  | .unlinking => 1
  | .stopped => 0

/-- The work left. -/
def State.rank (s : State) : ℕ :=
  (s.peers.map Peer.rank).sum + 3 * (s.peers.length - s.accepted) + s.thread.rank s.running +
    s.stopper.rank

theorem Peer.rank_connected (code : ClientCode) (command : Bytes) (answer : Bytes → Bytes) :
    (Peer.connected code command answer).rank =
      2 * command.length + 2 * (answer (line command)).length + 9 := by
  have hrank := Exchange.rank_connected (Exchange.responseSize answer command) command
  rw [Exchange.responseSize, Exchange.line_append_newline] at hrank
  rw [Peer.rank]
  simp only [Peer.connected, Exchange.responseSize, Exchange.line_append_newline]
  omega

theorem Peer.rank_dropped_le (p : Peer) : p.dropped.rank ≤ p.rank := by
  simp only [Peer.rank, Peer.dropped, Exchange.rank, Exchange.Connection.rank]
  omega

theorem Thread.rank_serving (running : Bool) (k : ℕ) : (Thread.serving k).rank running = 2 := rfl

theorem Thread.rank_checking_le (running : Bool) : Thread.checking.rank running ≤ 2 := by
  cases running <;> decide

/-- A `poll` that ends without a connection costs a step unless it is the last one. -/
theorem Thread.rank_timeout (running : Bool) :
    Thread.checking.rank running + (!running).toNat ≤ Thread.polling.rank running + 1 := by
  cases running <;> decide

/-- The loop has one more step at most once `stop` is called. -/
theorem Thread.rank_stop (running : Bool) (thread : Thread) :
    thread.rank false ≤ thread.rank running + 1 := by
  cases thread with
  | serving k => exact Nat.le_add_right 2 1
  | checking | polling | accepting | exited => cases running <;> decide

theorem length_counted (s : State) (a : Label) :
    (counted s a).length = (a.counts s).toNat := by
  rw [counted]
  cases a.counts s <;> rfl

variable {upSize downSize backlog : ℕ} {s t : State}

/-- What a call on one connection does to the work left. -/
theorem rank_set_le {k : ℕ} {p : Peer} {a : Exchange.Label} {e : Exchange.State} (hinv : Inv s)
    (hget : s.peers[k]? = some p)
    (hmove : Exchange.Move p.code p.answer upSize downSize p.exchange a e) :
    ((s.peers.set k { p with exchange := e }).map Peer.rank).sum + a.progress.toNat ≤
      (s.peers.map Peer.rank).sum := by
  have hrank := Exchange.rank_step (hinv.peers k p hget).inv hmove
  have hsum : ((s.peers.set k { p with exchange := e }).map Peer.rank).sum + p.rank =
      (s.peers.map Peer.rank).sum + Exchange.rank (Exchange.responseSize p.answer p.command) e :=
    sum_map_set Peer.rank hget
  rw [Peer.rank] at hsum
  cases hprogress : a.progress with
  | false =>
      rw [Bool.toNat_false]
      omega
  | true =>
      rw [hprogress, if_pos rfl] at hrank
      rw [Bool.toNat_true]
      omega

theorem rank_step {a : Label} (hinv : Inv s) (hmove : Move upSize downSize backlog s a t) :
    t.rank + (counted s a).length ≤ s.rank + a.cost := by
  have haccepted := hinv.accepted
  rw [length_counted]
  cases hmove with
  | connect code command answer hopen hroom =>
      have hsum : ((s.peers ++ [Peer.connected code command answer]).map Peer.rank).sum =
          (s.peers.map Peer.rank).sum +
            (2 * command.length + 2 * (answer (line command)).length + 9) := by
        rw [List.map_append, List.sum_append, List.map_singleton, List.sum_singleton,
          Peer.rank_connected]
      simp only [Label.counts, State.rank, hsum, Label.cost, List.length_append,
        List.length_singleton, Bool.toNat_false]
      omega
  | stall k p hget =>
      have hsum : ((s.peers.set k { p with stalled := true }).map Peer.rank).sum + p.rank =
          (s.peers.map Peer.rank).sum + p.rank := sum_map_set Peer.rank hget
      simp only [Label.counts, State.rank, State.setPeer, List.length_set, Label.cost,
        Bool.toNat_false]
      omega
  | client k p a e hget hside hlive hmove =>
      have hsum := rank_set_le hinv hget hmove
      simp only [Label.counts, State.rank, State.setPeer, List.length_set, Label.cost]
      omega
  | check hthread =>
      have hrank : (if s.running then Thread.polling else .exited).rank s.running + 1 ≤
          Thread.checking.rank s.running := by
        cases s.running <;> decide
      simp only [Label.counts, State.rank, hthread, Label.cost, Bool.toNat_true]
      omega
  | ready hthread hpending =>
      have hrank : Thread.accepting.rank s.running + 1 ≤ Thread.polling.rank s.running := by
        cases s.running <;> decide
      simp only [Label.counts, State.rank, hthread, Label.cost, Bool.toNat_true]
      omega
  | timeout hthread hnone =>
      have hrank := Thread.rank_timeout s.running
      simp only [Label.counts, State.rank, hthread, Label.cost]
      omega
  | interrupted hthread =>
      have hrank := Thread.rank_timeout s.running
      simp only [Label.counts, State.rank, hthread, Label.cost]
      omega
  | failed hthread =>
      have hrank : Thread.exited.rank s.running + 1 ≤ Thread.polling.rank s.running := by
        cases s.running <;> decide
      simp only [Label.counts, State.rank, hthread, Label.cost, Bool.toNat_true]
      omega
  | accept hthread hpending =>
      have hrank : Thread.accepting.rank s.running = 0 := rfl
      simp only [Label.counts, State.rank, hthread, Label.cost, Bool.toNat_true,
        Thread.rank_serving, hrank]
      omega
  | refuse hthread =>
      have hrank := Thread.rank_checking_le s.running
      simp only [Label.counts, State.rank, hthread, Label.cost, Bool.toNat_false]
      omega
  | serve k p a e hthread hget hside hmove =>
      have hsum := rank_set_le hinv hget hmove
      have hchecking := Thread.rank_checking_le s.running
      have hnext : (if e.server = .closed then Thread.checking
          else .serving k).rank s.running ≤ 2 := by
        split_ifs
        · exact hchecking
        · exact le_refl 2
      simp only [Label.counts, State.rank, State.served, List.length_set, hthread, Label.cost,
        Thread.rank_serving]
      omega
  | stop hidle =>
      have hthread := Thread.rank_stop s.running s.thread
      simp only [Label.counts, State.rank, hidle, Stopper.rank, Label.cost, Bool.toNat_true]
      omega
  | join hjoining hexited =>
      simp only [Label.counts, State.rank, hjoining, Stopper.rank, Label.cost, Bool.toNat_true]
      omega
  | close hclosing =>
      have hsum := sum_map_mapFrom_le (l := s.peers) (n := s.accepted) Peer.rank
        Peer.rank_dropped_le
      simp only [Label.counts, State.rank, State.closed, length_mapFrom, hclosing,
        Stopper.rank, Label.cost, Bool.toNat_true]
      omega
  | unlink hunlinking =>
      simp only [Label.counts, State.rank, hunlinking, Stopper.rank, Label.cost, Bool.toNat_true]
      omega

/-- The bounded steps of a run, whatever fails in it. -/
theorem counted_le {ok : State → Label → Prop} {labels : List Label}
    (h : Run (step upSize downSize backlog) ok s labels t) (hinv : Inv s) :
    (trace (step upSize downSize backlog) counted s labels).length + t.rank ≤
      s.rank + (labels.map Label.cost).sum := by
  induction h with
  | nil s => simp [trace]
  | @cons s m t a rest _ hstep _ ih =>
      have hmove := move_of_step hstep
      have hrest := ih (inv_step hinv hmove)
      have hrank := rank_step hinv hmove
      simp only [trace, hstep, List.length_append, List.map_cons, List.sum_cons]
      omega

end Rank

section Served

variable {upSize downSize backlog : ℕ} {s t : State} {k : ℕ} {p : Peer}

/-- A command that fits into a request and an answer that is one line. -/
structure Peer.Short (p : Peer) : Prop where
  command : 10 ∉ p.command
  length : p.command.length < maxRequestBytes
  answer : 10 ∉ p.answer p.command

/-- What holds of connection `k` without faults; a connection that is dropped
with the listening socket is not complete. -/
structure PeerSound (accepted : ℕ) (listening : Bool) (k : ℕ) (p : Peer) : Prop where
  short : p.Short
  complete : k < accepted ∨ listening = true → Complete p.answer p.command p.exchange

/-- What holds without faults. -/
structure Sound (s : State) : Prop where
  inv : Inv s
  peers : AllAt (PeerSound s.accepted s.stopper.listening) s.peers
  exited : s.thread = .exited → s.running = false
  running : s.running = false ↔ s.stopper ≠ .idle

theorem sound_initial : Sound {} where
  inv := inv_initial
  peers := allAt_nil
  exited := by simp
  running := by simp

theorem Sound.complete_step {a : Exchange.Label} {e : Exchange.State} (h : Sound s)
    (hget : s.peers[k]? = some p) (hok : Exchange.Faultless p.code p.exchange a)
    (hmove : Exchange.Move p.code p.answer upSize downSize p.exchange a e) :
    PeerSound s.accepted s.stopper.listening k { p with exchange := e } := by
  obtain ⟨hshort, hcomplete⟩ := h.peers k p hget
  exact ⟨⟨hshort.command, hshort.length, hshort.answer⟩, fun hk =>
    Exchange.complete_step hshort.command hshort.answer hshort.length (hcomplete hk) hok hmove⟩

theorem sound_step {a : Label} (h : Sound s) (hok : Faultless s a)
    (hmove : Move upSize downSize backlog s a t) : Sound t := by
  have hinv := inv_step h.inv hmove
  cases hmove with
  | connect code command answer hopen hroom =>
      obtain ⟨hcommand, hlength, hanswer⟩ := hok
      exact ⟨hinv, h.peers.concat ⟨⟨hcommand, hlength, hanswer⟩, fun _ =>
        Exchange.complete_connected answer command⟩, h.exited, h.running⟩
  | stall k p hget =>
      obtain ⟨hshort, hcomplete⟩ := h.peers k p hget
      exact ⟨hinv, h.peers.set ⟨⟨hshort.command, hshort.length, hshort.answer⟩, hcomplete⟩
        fun _ _ _ hp => hp, h.exited, h.running⟩
  | client k p a e hget hside hlive hmove =>
      exact ⟨hinv, h.peers.set (h.complete_step hget (hok p hget) hmove) fun _ _ _ hp => hp,
        h.exited, h.running⟩
  | check hthread =>
      refine ⟨hinv, h.peers, fun hexited => ?_, h.running⟩
      simp only at hexited
      split_ifs at hexited with hrunning
      simpa using hrunning
  | ready hthread hpending => exact ⟨hinv, h.peers, by simp, h.running⟩
  | timeout hthread hnone => exact ⟨hinv, h.peers, by simp, h.running⟩
  | interrupted hthread => exact ⟨hinv, h.peers, by simp, h.running⟩
  | failed hthread => exact hok.elim
  | accept hthread hpending =>
      have hopen := h.inv.listening_of_running (by simp [hthread])
      exact ⟨hinv, h.peers.mono fun k p _ hp => ⟨hp.short, fun _ => hp.complete (.inr hopen)⟩,
        by simp, h.running⟩
  | refuse hthread => exact hok.elim
  | serve k p a e hthread hget hside hmove =>
      have hcurrent : p ∈ s.current := by
        rw [State.current, hthread]
        exact hget
      refine ⟨hinv, h.peers.set (h.complete_step hget (hok p hcurrent) hmove) fun _ _ _ hp => hp,
        fun hexited => ?_, h.running⟩
      simp only [State.served] at hexited
      split_ifs at hexited
  | stop hidle =>
      have hpeers := h.peers
      rw [hidle] at hpeers
      exact ⟨hinv, hpeers, fun _ => rfl, by simp⟩
  | join hjoining hexited =>
      have hpeers := h.peers
      rw [hjoining] at hpeers
      exact ⟨hinv, hpeers, h.exited, by simpa [hjoining] using h.running⟩
  | close hclosing =>
      refine ⟨hinv, h.peers.mapFrom (fun k p hk hp => ⟨hp.short, fun _ => hp.complete (.inl hk)⟩)
        fun k p hk hp => ⟨⟨hp.short.command, hp.short.length, hp.short.answer⟩, ?_⟩, h.exited,
        by simpa [State.closed, hclosing] using h.running⟩
      rintro (hlt | hopen)
      · exact absurd hk (not_le.mpr hlt)
      · cases hopen
  | unlink hunlinking =>
      have hpeers := h.peers
      rw [hunlinking] at hpeers
      exact ⟨hinv, hpeers, h.exited, by simpa [hunlinking] using h.running⟩

/-- A connection with an end open has a next call. -/
theorem Sound.canProgress (h : Sound s) (hup : 0 < upSize) (hdown : 0 < downSize)
    (hget : s.peers[k]? = some p) (hopen : ¬ Finished p.exchange) :
    Exchange.CanProgress p.code p.answer upSize downSize p.exchange := by
  have hok := h.inv.peers k p hget
  exact hok.inv.canProgress hup hdown hopen
    (hok.inv.not_deadlocked (h.peers k p hget).short.command)

/-- A client that is done has the answer to its command. -/
theorem Sound.returned (h : Sound s) (hget : s.peers[k]? = some p) (hk : k < s.accepted)
    (hended : p.exchange.client.ended = true) :
    p.exchange.client = .returned (p.answer p.command) ∧ (k, p.command) ∈ s.called := by
  obtain ⟨hshort, hcomplete⟩ := h.peers k p hget
  have hcomplete := hcomplete (.inl hk)
  cases hclient : p.exchange.client with
  | writing rest => simp [hclient, Exchange.Client.ended] at hended
  | reading response => simp [hclient, Exchange.Client.ended] at hended
  | threw => exact absurd hclient hcomplete.client
  | returned response =>
      obtain ⟨hresponse, hcalls⟩ := hcomplete.answered hshort.command hshort.answer hclient
      refine ⟨congrArg Exchange.Client.returned hresponse, (h.inv.called _ _).mpr ⟨p, hget, ?_⟩⟩
      rw [hcalls]
      exact List.mem_singleton_self _

/-- Every connection is over, and the loop waits for another one or `stop` has returned. -/
def Done (s : State) : Prop :=
  (∀ (k : ℕ) (p : Peer), s.peers[k]? = some p → Finished p.exchange) ∧
    (s.stopper = .idle ∧ s.accepted = s.peers.length ∨ s.stopper = .stopped)

/-- A bounded step without a fault is possible. -/
def CanProgress (upSize downSize backlog : ℕ) (s : State) : Prop :=
  ∃ a t, a.counts s = true ∧ Lively s a ∧ step upSize downSize backlog s a = some t

theorem CanProgress.of_move {a : Label} (h : Move upSize downSize backlog s a t)
    (hcounts : a.counts s = true) (hok : Lively s a) : CanProgress upSize downSize backlog s :=
  ⟨a, t, hcounts, hok, step_of_move h⟩

/-- A connection with an end open goes on, if the server is at it or done with it. -/
theorem Sound.peer_progress (h : Sound s) (hup : 0 < upSize) (hdown : 0 < downSize)
    (hget : s.peers[k]? = some p) (hlive : p.stalled = false)
    (hserver : p.exchange.server = .closed ∨ s.thread = .serving k)
    (hopen : ¬ Finished p.exchange) : CanProgress upSize downSize backlog s := by
  obtain ⟨a, e, hprogress, hok, hstep⟩ := h.canProgress hup hdown hget hopen
  have hmove := Exchange.move_of_step hstep
  cases hside : ofClient a with
  | true =>
      refine .of_move (.client k p a e hget hside hlive hmove) hprogress ?_
      intro q hq
      cases hget.symm.trans hq
      exact hok
  | false =>
      obtain hclosed | hthread := hserver
      · exact absurd hclosed (server_not_closed hside hmove)
      · refine .of_move (.serve k p a e hthread hget hside hmove) hprogress ?_
        intro q hq
        rw [State.current, hthread] at hq
        cases hget.symm.trans hq
        exact hok

theorem Sound.progress (h : Sound s) (hup : 0 < upSize) (hdown : 0 < downSize)
    (hlive : AllAt (fun _ p => p.stalled = false) s.peers) :
    Done s ∨ CanProgress upSize downSize backlog s := by
  have hpast : ∀ (k : ℕ) (p : Peer), s.peers[k]? = some p → k < s.accepted →
      (∀ j, s.thread ≠ .serving j) → p.exchange.server = .closed :=
    fun k p hget hk hthread => (h.inv.peers k p hget).past hk (hthread k)
  cases hthread : s.thread with
  | checking => exact .inr (.of_move (.check hthread) rfl trivial)
  | accepting => exact .inr (.of_move (.accept hthread (h.inv.accepting hthread)) rfl trivial)
  | serving k =>
      have hk := h.inv.serving k hthread
      obtain ⟨p, hget⟩ : ∃ p, s.peers[k]? = some p := by
        have hlt : k < s.peers.length := by
          have haccepted := h.inv.accepted
          omega
        exact ⟨_, List.getElem?_eq_getElem hlt⟩
      have hopen : ¬ Finished p.exchange := fun hfinished =>
        (h.inv.peers k p hget).current hthread hfinished.2
      exact .inr (h.peer_progress hup hdown hget (hlive k p hget) (.inr hthread) hopen)
  | polling =>
      by_cases hpending : s.accepted < s.peers.length
      · exact .inr (.of_move (.ready hthread hpending) rfl trivial)
      have hall : s.accepted = s.peers.length := le_antisymm h.inv.accepted (not_lt.mp hpending)
      cases hrunning : s.running with
      | false =>
          refine .inr (.of_move (.timeout hthread hall.ge) ?_ trivial)
          rw [Label.counts, hrunning]
          rfl
      | true =>
          have hidle : s.stopper = .idle := by
            by_contra hnot
            have hstopping := h.running.mpr hnot
            rw [hrunning] at hstopping
            cases hstopping
          by_cases hfinished : ∀ (k : ℕ) (p : Peer), s.peers[k]? = some p → Finished p.exchange
          · exact .inl ⟨hfinished, .inl ⟨hidle, hall⟩⟩
          simp only [not_forall] at hfinished
          obtain ⟨k, p, hget, hopen⟩ := hfinished
          have hk := (List.getElem?_eq_some_iff.mp hget).1
          refine .inr (h.peer_progress hup hdown hget (hlive k p hget) (.inl ?_) hopen)
          exact hpast k p hget (hall ▸ hk) (by simp [hthread])
  | exited =>
      have hstopping := h.running.mp (h.exited hthread)
      cases hstopper : s.stopper with
      | idle => exact absurd hstopper hstopping
      | joining => exact .inr (.of_move (.join hstopper hthread) rfl trivial)
      | closing => exact .inr (.of_move (.close hstopper) rfl trivial)
      | unlinking => exact .inr (.of_move (.unlink hstopper) rfl trivial)
      | stopped =>
          by_cases hfinished : ∀ (k : ℕ) (p : Peer), s.peers[k]? = some p → Finished p.exchange
          · exact .inl ⟨hfinished, .inr hstopper⟩
          simp only [not_forall] at hfinished
          obtain ⟨k, p, hget, hopen⟩ := hfinished
          exact .inr (h.peer_progress hup hdown hget (hlive k p hget)
            (.inl (h.inv.closed_of_stopped hstopper hget)) hopen)

theorem Lively.faultless {a : Label} (h : Lively s a) : Faultless s a := by
  cases a with
  | stall k => trivial
  | connect | client | check | poll | accept | serve | stop | join | close | unlink => exact h

theorem live_step {a : Label} (h : AllAt (fun _ p => p.stalled = false) s.peers) (hok : Lively s a)
    (hmove : Move upSize downSize backlog s a t) :
    AllAt (fun _ p => p.stalled = false) t.peers := by
  cases hmove with
  | connect code command answer => exact h.concat rfl
  | stall k p hget => exact hok.elim
  | client k p a e hget => exact h.set (h k p hget) fun _ _ _ hp => hp
  | serve k p a e hthread hget => exact h.set (h k p hget) fun _ _ _ hp => hp
  | close => exact h.mapFrom (fun _ _ _ hp => hp) fun _ _ _ hp => hp
  | check | ready | timeout | interrupted | failed => exact h
  | accept | refuse | stop | join | unlink => exact h

/-- Without faults and with clients that go on, whether `stop` is called or not:
the steps of a run are bounded by what its connections bring, polls that time
out while the server runs apart; an accepted client that is done has the answer to
its command, for which the handler has been called; and until every connection
is over, and `stop` has returned if it was called, a further step is possible. -/
theorem clients_served (hup : 0 < upSize) (hdown : 0 < downSize) {labels : List Label}
    (hrun : Run (step upSize downSize backlog) Lively {} labels t) :
    (trace (step upSize downSize backlog) counted {} labels).length ≤
      (labels.map Label.cost).sum + 7 ∧
    (∀ (k : ℕ) (p : Peer), t.peers[k]? = some p → k < t.accepted →
      p.exchange.client.ended = true →
      p.exchange.client = .returned (p.answer p.command) ∧ (k, p.command) ∈ t.called) ∧
    (Done t ∨ CanProgress upSize downSize backlog t) := by
  have hend : Sound t ∧ AllAt (fun _ p => p.stalled = false) t.peers :=
    hrun.invariant (I := fun s => Sound s ∧ AllAt (fun _ p => p.stalled = false) s.peers)
      (fun _ _ _ hs hok hstep => ⟨sound_step hs.1 hok.faultless (move_of_step hstep),
        live_step hs.2 hok (move_of_step hstep)⟩) ⟨sound_initial, allAt_nil⟩
  refine ⟨?_, fun k p hget hk hended => hend.1.returned hget hk hended,
    hend.1.progress hup hdown hend.2⟩
  have hbound := counted_le hrun inv_initial
  have hinitial : ({} : State).rank = 7 := rfl
  omega

instance (s : State) : (a : Label) → Decidable (Faultless s a)
  | .connect _ command answer => inferInstanceAs (Decidable
      (10 ∉ command ∧ command.length < maxRequestBytes ∧ 10 ∉ answer command))
  | .client k a =>
      inferInstanceAs (Decidable (∀ p ∈ s.peers[k]?, Exchange.Faultless p.code p.exchange a))
  | .serve a =>
      inferInstanceAs (Decidable (∀ p ∈ s.current, Exchange.Faultless p.code p.exchange a))
  | .poll .failed | .accept false => inferInstanceAs (Decidable False)
  | .stall _ | .check | .poll .ready | .poll .timeout | .poll .interrupted | .accept true
  | .stop | .join | .close | .unlink => inferInstanceAs (Decidable True)

instance (s : State) : (a : Label) → Decidable (Lively s a)
  | .stall _ => inferInstanceAs (Decidable False)
  | .connect code command answer =>
      inferInstanceAs (Decidable (Faultless s (.connect code command answer)))
  | .client k a => inferInstanceAs (Decidable (Faultless s (.client k a)))
  | .serve a => inferInstanceAs (Decidable (Faultless s (.serve a)))
  | .poll r => inferInstanceAs (Decidable (Faultless s (.poll r)))
  | .accept ok => inferInstanceAs (Decidable (Faultless s (.accept ok)))
  | .check | .stop | .join | .close | .unlink => inferInstanceAs (Decidable True)

/-- A client connects and writes while another one is served. -/
def twoClients : List Label :=
  [.check, .poll .timeout, .connect Exchange.sendRequest (text "ping") fun _ => text "pong",
    .check, .poll .ready, .connect Exchange.socketClient (text "jobs") fun _ => text "none",
    .client 1 (.clientWrite (.bytes 5)), .accept true, .client 0 (.clientWrite (.bytes 5)),
    .serve (.serverRead (.bytes (text "ping\n"))), .serve (.serverWrite (.bytes 5)),
    .serve .serverClose, .check, .poll .ready, .accept true,
    .serve (.serverRead (.bytes (text "jobs\n"))), .client 0 (.clientRead (.bytes (text "pong\n"))),
    .serve (.serverWrite (.bytes 5)), .serve .serverClose,
    .client 1 (.clientRead (.bytes (text "none\n")))]

/-- Both clients have the answers to their commands, and every connection is over. -/
theorem clients_served_two :
    ∃ t, Run (step 8 8 8) Lively {} twoClients t ∧
      (trace (step 8 8 8) counted {} twoClients).length ≤ (twoClients.map Label.cost).sum + 7 ∧
      t.peers.map Peer.command = [text "ping", text "jobs"] ∧
      (∀ (k : ℕ) (p : Peer), t.peers[k]? = some p →
        p.exchange.client = .returned (p.answer p.command) ∧ (k, p.command) ∈ t.called) ∧
      Done t := by
  obtain ⟨t, hrun, hend⟩ := Run.of_exec_any (step 8 8 8) Lively {} twoClients
    (fun t => decide (t.peers.map Peer.command = [text "ping", text "jobs"] ∧ t.accepted = 2 ∧
      t.stopper = .idle ∧ ∀ p ∈ t.peers, p.exchange.client.ended = true ∧
        p.exchange.server = .closed)) (by decide)
  obtain ⟨hcommands, haccepted, hstopper, hends⟩ := of_decide_eq_true hend
  have hlength : t.peers.length = 2 := by
    rw [← List.length_map Peer.command, hcommands]
    rfl
  obtain ⟨hbound, hanswered, -⟩ := clients_served (by decide) (by decide) hrun
  refine ⟨t, hrun, hbound, hcommands, fun k p hget => ?_, fun k p hget => ?_,
    Or.inl ⟨hstopper, by rw [haccepted, hlength]⟩⟩
  · have hk : k < t.accepted := by
      rw [haccepted, ← hlength]
      exact (List.getElem?_eq_some_iff.mp hget).1
    exact hanswered k p hget hk (hends p (List.mem_of_getElem? hget)).1
  · exact hends p (List.mem_of_getElem? hget)

end Served

end AgentPulse.AcceptLoop
