import AgentPulse.Ipc.Exchange
import AgentPulse.Lib.Places

/-!
# The accept loop and its clients

`accept_loop` polls, accepts and serves one connection after the other, while
clients connect, write and read on their own and `stop` waits for its thread
before it closes the listening socket. The connections are in the order in which
they were made; those not yet accepted are the backlog.

## Implementation notes

A client may stall: it makes no further call and keeps its end open. The handler
may answer two connections differently, so its answers belong to the connection.
A call that would block has no outcome and its party no step.
-/

namespace AgentPulse.AcceptLoop

open Exchange (ClientCode)
open Places
open Transition

/-- A client with its end of the connection and what the handler answers there. -/
structure Peer where
  code : ClientCode
  command : Bytes
  answer : Bytes → Bytes
  stalled : Bool := false
  exchange : Exchange.State

/-- Where the thread of the server stands. -/
inductive Thread where
  | checking
  | polling
  | accepting
  | serving (k : ℕ)
  | exited
  deriving DecidableEq

/-- Where `stop` stands. -/
inductive Stopper where
  | idle
  | joining
  | closing
  | unlinking
  | stopped
  deriving DecidableEq

/-- The listening socket is open. -/
def Stopper.listening : Stopper → Bool
  | .idle | .joining | .closing => true
  | .unlinking | .stopped => false

/-- How `poll` returns. -/
inductive PollResult where
  | ready
  | timeout
  | interrupted
  | failed
  deriving DecidableEq

/-- The server with its connections, how many of them it has accepted, and the
requests the handler has been called with, each with its connection. -/
structure State where
  peers : List Peer := []
  accepted : ℕ := 0
  thread : Thread := .checking
  running : Bool := true
  stopper : Stopper := .idle
  called : List (ℕ × Bytes) := []

/-- A client connects, stalls or makes a call, the thread of the server makes its
next call, or the caller of `stop` does. -/
inductive Label where
  | connect (code : ClientCode) (command : Bytes) (answer : Bytes → Bytes)
  | stall (k : ℕ)
  | client (k : ℕ) (a : Exchange.Label)
  | check
  | poll (r : PollResult)
  | accept (ok : Bool)
  | serve (a : Exchange.Label)
  | stop
  | join
  | close
  | unlink

/-- The calls that are the client's. -/
def ofClient : Exchange.Label → Bool
  | .clientWrite _ | .clientRead _ => true
  | .serverRead _ | .serverDrop | .serverWrite _ | .serverClose => false

/-- A new connection. -/
def Peer.connected (code : ClientCode) (command : Bytes) (answer : Bytes → Bytes) : Peer where
  code := code
  command := command
  answer := answer
  exchange := Exchange.connected command

/-- The end of a connection nobody has accepted is closed with the listening socket. -/
def Peer.dropped (p : Peer) : Peer := { p with exchange := { p.exchange with server := .closed } }

/-- The connection `k` changes. -/
def State.setPeer (s : State) (k : ℕ) (p : Peer) : State := { s with peers := s.peers.set k p }

/-- A call of `serve_connection`, or the `close` after it, on connection `k`. -/
def State.served (s : State) (k : ℕ) (p : Peer) (e : Exchange.State) : State where
  peers := s.peers.set k { p with exchange := e }
  accepted := s.accepted
  thread := if e.server = .closed then .checking else .serving k
  running := s.running
  stopper := s.stopper
  called := s.called ++ (e.calls.drop p.exchange.calls.length).map fun request => (k, request)

/-- Closing the listening socket. -/
def State.closed (s : State) : State :=
  { s with
    peers := mapFrom s.accepted Peer.dropped s.peers
    stopper := .unlinking }

section Steps

variable (upSize downSize backlog : ℕ)

/-- A call of either side of a connection. -/
def Peer.step (p : Peer) (a : Exchange.Label) : Option Exchange.State :=
  Exchange.step p.code p.answer upSize downSize p.exchange a

/-- One step of the clients, of `accept_loop` or of `stop`. -/
def step (s : State) : Label → Option State
  | .connect code command answer =>
      if s.stopper.listening = true ∧ s.peers.length < s.accepted + backlog then
        some { s with peers := s.peers ++ [.connected code command answer] }
      else none
  | .stall k => s.peers[k]?.map fun p => s.setPeer k { p with stalled := true }
  | .client k a =>
      s.peers[k]?.bind fun p =>
        if ofClient a = true ∧ p.stalled = false then
          (p.step upSize downSize a).map fun e => s.setPeer k { p with exchange := e }
        else none
  | .check =>
      if s.thread = .checking then
        some { s with thread := if s.running then .polling else .exited }
      else none
  | .poll r =>
      if s.thread = .polling then
        match r with
        | .ready =>
            if s.accepted < s.peers.length then some { s with thread := .accepting } else none
        | .timeout =>
            if s.accepted < s.peers.length then none else some { s with thread := .checking }
        | .interrupted => some { s with thread := .checking }
        | .failed => some { s with thread := .exited }
      else none
  | .accept ok =>
      if s.thread = .accepting then
        if ok then
          if s.accepted < s.peers.length then
            some { s with accepted := s.accepted + 1, thread := .serving s.accepted }
          else none
        else some { s with thread := .checking }
      else none
  | .serve a =>
      match s.thread with
      | .serving k =>
          s.peers[k]?.bind fun p =>
            if ofClient a = false then (p.step upSize downSize a).map (s.served k p) else none
      | _ => none
  | .stop =>
      if s.stopper = .idle then some { s with running := false, stopper := .joining } else none
  | .join =>
      if s.stopper = .joining ∧ s.thread = .exited then some { s with stopper := .closing }
      else none
  | .close => if s.stopper = .closing then some s.closed else none
  | .unlink => if s.stopper = .unlinking then some { s with stopper := .stopped } else none

end Steps

/-- What a step does. -/
inductive Move (upSize downSize backlog : ℕ) (s : State) : Label → State → Prop
  | connect (code : ClientCode) (command : Bytes) (answer : Bytes → Bytes)
      (hopen : s.stopper.listening = true) (hroom : s.peers.length < s.accepted + backlog) :
      Move upSize downSize backlog s (.connect code command answer)
        { s with peers := s.peers ++ [.connected code command answer] }
  | stall (k : ℕ) (p : Peer) (hget : s.peers[k]? = some p) :
      Move upSize downSize backlog s (.stall k) (s.setPeer k { p with stalled := true })
  | client (k : ℕ) (p : Peer) (a : Exchange.Label) (e : Exchange.State)
      (hget : s.peers[k]? = some p) (hside : ofClient a = true) (hlive : p.stalled = false)
      (hmove : Exchange.Move p.code p.answer upSize downSize p.exchange a e) :
      Move upSize downSize backlog s (.client k a) (s.setPeer k { p with exchange := e })
  | check (hthread : s.thread = .checking) :
      Move upSize downSize backlog s .check
        { s with thread := if s.running then .polling else .exited }
  | ready (hthread : s.thread = .polling) (hpending : s.accepted < s.peers.length) :
      Move upSize downSize backlog s (.poll .ready) { s with thread := .accepting }
  | timeout (hthread : s.thread = .polling) (hnone : s.peers.length ≤ s.accepted) :
      Move upSize downSize backlog s (.poll .timeout) { s with thread := .checking }
  | interrupted (hthread : s.thread = .polling) :
      Move upSize downSize backlog s (.poll .interrupted) { s with thread := .checking }
  | failed (hthread : s.thread = .polling) :
      Move upSize downSize backlog s (.poll .failed) { s with thread := .exited }
  | accept (hthread : s.thread = .accepting) (hpending : s.accepted < s.peers.length) :
      Move upSize downSize backlog s (.accept true)
        { s with accepted := s.accepted + 1, thread := .serving s.accepted }
  | refuse (hthread : s.thread = .accepting) :
      Move upSize downSize backlog s (.accept false) { s with thread := .checking }
  | serve (k : ℕ) (p : Peer) (a : Exchange.Label) (e : Exchange.State)
      (hthread : s.thread = .serving k) (hget : s.peers[k]? = some p) (hside : ofClient a = false)
      (hmove : Exchange.Move p.code p.answer upSize downSize p.exchange a e) :
      Move upSize downSize backlog s (.serve a) (s.served k p e)
  | stop (hidle : s.stopper = .idle) :
      Move upSize downSize backlog s .stop { s with running := false, stopper := .joining }
  | join (hjoining : s.stopper = .joining) (hexited : s.thread = .exited) :
      Move upSize downSize backlog s .join { s with stopper := .closing }
  | close (hclosing : s.stopper = .closing) : Move upSize downSize backlog s .close s.closed
  | unlink (hunlinking : s.stopper = .unlinking) :
      Move upSize downSize backlog s .unlink { s with stopper := .stopped }

variable {upSize downSize backlog : ℕ}

theorem move_of_step {s t : State} {a : Label} (h : step upSize downSize backlog s a = some t) :
    Move upSize downSize backlog s a t := by
  cases a with
  | connect code command answer =>
      simp only [step] at h
      split_ifs at h with hguard
      cases h
      exact .connect code command answer hguard.1 hguard.2
  | stall k =>
      obtain ⟨p, hget, rfl⟩ := Option.map_eq_some_iff.mp h
      exact .stall k p hget
  | client k a =>
      obtain ⟨p, hget, hp⟩ := Option.bind_eq_some_iff.mp h
      split_ifs at hp with hguard
      obtain ⟨e, he, rfl⟩ := Option.map_eq_some_iff.mp hp
      exact .client k p a e hget hguard.1 hguard.2 (Exchange.move_of_step he)
  | check =>
      simp only [step] at h
      split_ifs at h with hthread hrunning
      · cases h
        have hmove : Move upSize downSize backlog s .check _ := .check hthread
        rwa [if_pos hrunning] at hmove
      · cases h
        have hmove : Move upSize downSize backlog s .check _ := .check hthread
        rwa [if_neg hrunning] at hmove
  | poll r =>
      cases r with
      | ready =>
          simp only [step] at h
          split_ifs at h with hthread hpending
          cases h
          exact .ready hthread hpending
      | timeout =>
          simp only [step] at h
          split_ifs at h with hthread hpending
          cases h
          exact .timeout hthread (not_lt.mp hpending)
      | interrupted =>
          simp only [step] at h
          split_ifs at h with hthread
          cases h
          exact .interrupted hthread
      | failed =>
          simp only [step] at h
          split_ifs at h with hthread
          cases h
          exact .failed hthread
  | accept ok =>
      simp only [step] at h
      split_ifs at h with hthread hok hpending
      · cases h
        rw [hok]
        exact .accept hthread hpending
      · cases h
        rw [Bool.not_eq_true] at hok
        rw [hok]
        exact .refuse hthread
  | serve a =>
      simp only [step] at h
      split at h
      · next k hthread =>
          obtain ⟨p, hget, hp⟩ := Option.bind_eq_some_iff.mp h
          split_ifs at hp with hside
          obtain ⟨e, he, rfl⟩ := Option.map_eq_some_iff.mp hp
          exact .serve k p a e hthread hget hside (Exchange.move_of_step he)
      · cases h
  | stop =>
      simp only [step] at h
      split_ifs at h with hidle
      cases h
      exact .stop hidle
  | join =>
      simp only [step] at h
      split_ifs at h with hguard
      cases h
      exact .join hguard.1 hguard.2
  | close =>
      simp only [step] at h
      split_ifs at h with hclosing
      cases h
      exact .close hclosing
  | unlink =>
      simp only [step] at h
      split_ifs at h with hunlinking
      cases h
      exact .unlink hunlinking

theorem step_of_move {s t : State} {a : Label} (h : Move upSize downSize backlog s a t) :
    step upSize downSize backlog s a = some t := by
  cases h with
  | connect code command answer hopen hroom =>
      simp only [step, if_pos (And.intro hopen hroom)]
  | stall k p hget => simp only [step, hget, Option.map_some]
  | client k p a e hget hside hlive hmove =>
      simp only [step, hget, Option.bind_some, if_pos (And.intro hside hlive), Peer.step,
        Exchange.step_of_move hmove, Option.map_some]
  | check hthread => simp only [step, if_pos hthread]
  | ready hthread hpending => simp only [step, if_pos hthread, if_pos hpending]
  | timeout hthread hnone => simp only [step, if_pos hthread, if_neg (not_lt.mpr hnone)]
  | interrupted hthread => simp only [step, if_pos hthread]
  | failed hthread => simp only [step, if_pos hthread]
  | accept hthread hpending => simp only [step, if_pos hthread, if_pos hpending, if_true]
  | refuse hthread => simp only [step, if_pos hthread, Bool.false_eq_true, if_false]
  | serve k p a e hthread hget hside hmove =>
      simp only [step, hthread, hget, Option.bind_some, if_pos hside, Peer.step,
        Exchange.step_of_move hmove, Option.map_some]
  | stop hidle => simp only [step, if_pos hidle]
  | join hjoining hexited => simp only [step, if_pos (And.intro hjoining hexited)]
  | close hclosing => simp only [step, if_pos hclosing]
  | unlink hunlinking => simp only [step, if_pos hunlinking]

section Connections

variable {code : ClientCode} {answer : Bytes → Bytes} {e f : Exchange.State} {a : Exchange.Label}

/-- A call of the client leaves the side of the server alone. -/
theorem client_frame (hside : ofClient a = true)
    (h : Exchange.Move code answer upSize downSize e a f) :
    f.server = e.server ∧ f.calls = e.calls ∧ f.up.received = e.up.received ∧
      f.down.sent = e.down.sent := by
  cases h with
  | clientWrite rest w hclient hcan =>
      cases w with
      | interrupted =>
          rw [Exchange.clientWriteStep]
          split_ifs <;> exact ⟨rfl, rfl, rfl, rfl⟩
      | failed => exact ⟨rfl, rfl, rfl, rfl⟩
      | bytes n => exact ⟨rfl, rfl, rfl, rfl⟩
  | clientRead response r hclient hcan =>
      cases r with
      | interrupted =>
          rw [Exchange.clientReadStep]
          split_ifs <;> exact ⟨rfl, rfl, rfl, rfl⟩
      | failed => exact ⟨rfl, rfl, rfl, rfl⟩
      | closed => exact ⟨rfl, rfl, rfl, rfl⟩
      | bytes chunk => exact ⟨rfl, rfl, rfl, Conduit.sent_read _ _⟩
  | serverRead => cases hside
  | serverDrop => cases hside
  | serverWrite => cases hside
  | serverClose => cases hside

/-- A call of the server leaves the side of the client alone. -/
theorem server_frame (hside : ofClient a = false)
    (h : Exchange.Move code answer upSize downSize e a f) :
    f.client = e.client ∧ f.up.sent = e.up.sent ∧ f.down.received = e.down.received := by
  cases h with
  | clientWrite => cases hside
  | clientRead => cases hside
  | serverRead request r hserver hroom hcan =>
      cases r with
      | interrupted => exact ⟨rfl, rfl, rfl⟩
      | failed => exact ⟨rfl, rfl, rfl⟩
      | closed => exact ⟨rfl, rfl, rfl⟩
      | bytes chunk =>
          simp only [Exchange.serverReadStep]
          split_ifs <;> exact ⟨rfl, Conduit.sent_read _ _, rfl⟩
  | serverDrop request hserver hfull => exact ⟨rfl, rfl, rfl⟩
  | serverWrite rest w hserver hcan => cases w <;> exact ⟨rfl, rfl, rfl⟩
  | serverClose hserver => exact ⟨rfl, rfl, rfl⟩

/-- The server never goes on with a closed connection. -/
theorem server_not_closed (hside : ofClient a = false)
    (h : Exchange.Move code answer upSize downSize e a f) : e.server ≠ .closed := by
  intro hclosed
  cases h with
  | clientWrite => cases hside
  | clientRead => cases hside
  | serverRead request r hserver => simp [hclosed] at hserver
  | serverDrop request hserver => simp [hclosed] at hserver
  | serverWrite rest w hserver => simp [hclosed] at hserver
  | serverClose hserver => simp [hclosed] at hserver

/-- The calls of a connection only grow. -/
theorem calls_prefix (hside : ofClient a = false)
    (h : Exchange.Move code answer upSize downSize e a f) : e.calls <+: f.calls := by
  cases h with
  | clientWrite => cases hside
  | clientRead => cases hside
  | serverRead request r hserver hroom hcan =>
      cases r with
      | interrupted => exact List.prefix_rfl
      | failed => exact List.prefix_rfl
      | closed => exact List.prefix_rfl
      | bytes chunk =>
          simp only [Exchange.serverReadStep]
          split_ifs
          · exact List.prefix_append _ _
          · exact List.prefix_rfl
  | serverDrop request hserver hfull => exact List.prefix_rfl
  | serverWrite rest w hserver hcan => cases w <;> exact List.prefix_rfl
  | serverClose hserver => exact List.prefix_rfl

end Connections

section Safety

/-- What holds of connection `k`. -/
structure PeerOk (accepted : ℕ) (thread : Thread) (listening : Bool) (k : ℕ) (p : Peer) : Prop where
  inv : Exchange.Inv p.answer p.command p.exchange
  log : Exchange.LogOk p.answer p.exchange.server p.exchange.reads p.exchange.writes
    p.exchange.calls p.exchange.down.sent
  waiting : accepted ≤ k → p.exchange.calls = [] ∧ p.exchange.down.sent = [] ∧
    p.exchange.server = if listening then .reading [] else .closed
  current : thread = .serving k → p.exchange.server ≠ .closed
  past : k < accepted → thread ≠ .serving k → p.exchange.server = .closed

/-- What holds in every run. -/
structure Inv (s : State) : Prop where
  peers : AllAt (PeerOk s.accepted s.thread s.stopper.listening) s.peers
  accepted : s.accepted ≤ s.peers.length
  serving : ∀ k, s.thread = .serving k → k + 1 = s.accepted
  accepting : s.thread = .accepting → s.accepted < s.peers.length
  exited : s.stopper ≠ .idle → s.stopper ≠ .joining → s.thread = .exited
  order : s.called.Pairwise fun c d => c.1 < d.1
  called : ∀ k request, (k, request) ∈ s.called ↔
    ∃ p, s.peers[k]? = some p ∧ request ∈ p.exchange.calls

theorem inv_initial : Inv {} where
  peers := allAt_nil
  accepted := Nat.le_refl 0
  serving := by simp
  accepting := by simp
  exited := by simp
  order := List.Pairwise.nil
  called := by simp

variable {accepted k : ℕ} {thread thread' : Thread} {listening : Bool} {p : Peer}

/-- Whoever is not served yet or any more does not see the thread move. -/
theorem PeerOk.setThread (h : PeerOk accepted thread listening k p)
    (hold : ∀ j, thread ≠ .serving j) (hnew : ∀ j, thread' ≠ .serving j) :
    PeerOk accepted thread' listening k p where
  inv := h.inv
  log := h.log
  waiting := h.waiting
  current := fun hthread => absurd hthread (hnew k)
  past := fun hk _ => h.past hk (hold k)

theorem PeerOk.client {e : Exchange.State} {a : Exchange.Label}
    (h : PeerOk accepted thread listening k p) (hside : ofClient a = true)
    (hmove : Exchange.Move p.code p.answer upSize downSize p.exchange a e) :
    PeerOk accepted thread listening k { p with exchange := e } := by
  obtain ⟨hserver, hcalls, -, hsent⟩ := client_frame hside hmove
  refine ⟨Exchange.inv_step h.inv hmove, Exchange.log_step h.log hmove, fun hk => ?_, fun hk => ?_,
    fun hk hthread => ?_⟩
  · simp only [hserver, hcalls, hsent]
    exact h.waiting hk
  · simp only [hserver]
    exact h.current hk
  · simp only [hserver]
    exact h.past hk hthread

theorem PeerOk.drop (h : PeerOk accepted .exited true k p) (hk : accepted ≤ k) :
    PeerOk accepted .exited false k p.dropped := by
  obtain ⟨hcalls, hsent, hserver⟩ := h.waiting hk
  refine ⟨⟨h.inv.client, h.inv.server.stop (.inr rfl)⟩, .ended (.inr rfl) ?_,
    fun _ => ⟨hcalls, hsent, rfl⟩, fun hthread => ?_, fun _ _ => rfl⟩
  · have hlog := h.log
    rw [hserver, if_pos rfl] at hlog
    simp only [Peer.dropped]
    generalize p.exchange.calls = calls at hlog ⊢
    generalize p.exchange.down.sent = sent at hlog ⊢
    generalize p.exchange.writes = writes at hlog ⊢
    generalize p.exchange.reads = reads at hlog ⊢
    generalize hrequest : Exchange.Connection.reading [] = server at hlog
    cases hlog with
    | ended hended => simp [← hrequest] at hended
    | writing => cases hrequest
    | reading hreads =>
        have hnone := hreads []
        rw [List.append_nil] at hnone
        cases hrequest
        rw [SocketServer.serveConnection, hnone]
        rfl
  · cases hthread

/-- The thread moves between two connections. -/
theorem Inv.setThread {s : State} (h : Inv s) (hnot : s.thread ≠ .exited)
    (hold : ∀ j, s.thread ≠ .serving j) (hnew : ∀ j, thread' ≠ .serving j)
    (haccepting : thread' = .accepting → s.accepted < s.peers.length) :
    Inv { s with thread := thread' } where
  peers := h.peers.mono fun _ _ _ hp => hp.setThread hold hnew
  accepted := h.accepted
  serving := fun k hk => absurd hk (hnew k)
  accepting := haccepting
  exited := fun hidle hjoining => absurd (h.exited hidle hjoining) hnot
  order := h.order
  called := h.called

/-- An update of a connection that makes no call. -/
theorem Inv.called_set {s : State} {p' : Peer} (h : Inv s) (hget : s.peers[k]? = some p)
    (hcalls : p'.exchange.calls = p.exchange.calls) (j : ℕ) (request : Bytes) :
    (j, request) ∈ s.called ↔
      ∃ q, (s.peers.set k p')[j]? = some q ∧ request ∈ q.exchange.calls := by
  obtain ⟨hlt, rfl⟩ := List.getElem?_eq_some_iff.mp hget
  rw [h.called, List.getElem?_set]
  by_cases hj : k = j
  · subst hj
    simp [hlt, hcalls]
  · simp [hj]

/-- The listening socket is open as long as the thread runs. -/
theorem Inv.listening_of_running {s : State} (h : Inv s) (hnot : s.thread ≠ .exited) :
    s.stopper.listening = true := by
  cases hstopper : s.stopper with
  | idle => rfl
  | joining => rfl
  | closing => exact absurd (h.exited (by simp [hstopper]) (by simp [hstopper])) hnot
  | unlinking => exact absurd (h.exited (by simp [hstopper]) (by simp [hstopper])) hnot
  | stopped => exact absurd (h.exited (by simp [hstopper]) (by simp [hstopper])) hnot

/-- The connection that is served after a call of its server. -/
theorem PeerOk.serve {e : Exchange.State} {a : Exchange.Label}
    (h : PeerOk accepted (.serving k) listening k p) (hk : k < accepted)
    (hmove : Exchange.Move p.code p.answer upSize downSize p.exchange a e) :
    PeerOk accepted (if e.server = .closed then .checking else .serving k) listening k
      { p with exchange := e } where
  inv := Exchange.inv_step h.inv hmove
  log := Exchange.log_step h.log hmove
  waiting := fun hle => absurd hk (not_lt.mpr hle)
  current := by
    split_ifs with hclosed
    · intro hthread
      cases hthread
    · exact fun _ => hclosed
  past := by
    intro _ hthread
    split_ifs at hthread with hclosed
    · exact hclosed
    · exact absurd rfl hthread

/-- The other connections do not see a call of the server. -/
theorem PeerOk.other {j : ℕ} {closed : Prop} [Decidable closed]
    (h : PeerOk accepted (.serving k) listening j p) (hj : j ≠ k) :
    PeerOk accepted (if closed then .checking else .serving k) listening j p where
  inv := h.inv
  log := h.log
  waiting := h.waiting
  current := by
    intro hthread
    split_ifs at hthread
    cases hthread
    exact absurd rfl hj
  past := fun hlt _ => h.past hlt fun hthread => hj (Thread.serving.inj hthread).symm

/-- What a call of the server adds to the calls of the handler. -/
theorem Inv.called_serve {s : State} {e : Exchange.State} {a : Exchange.Label} (h : Inv s)
    (hthread : s.thread = .serving k) (hget : s.peers[k]? = some p) (hside : ofClient a = false)
    (hmove : Exchange.Move p.code p.answer upSize downSize p.exchange a e) :
    (s.served k p e).called.Pairwise (fun c d => c.1 < d.1) ∧
      ∀ j request, (j, request) ∈ (s.served k p e).called ↔
        ∃ q, (s.served k p e).peers[j]? = some q ∧ request ∈ q.exchange.calls := by
  have hok := h.peers k p hget
  obtain ⟨new, hnew⟩ := calls_prefix hside hmove
  have hdrop : e.calls.drop p.exchange.calls.length = new := by
    rw [← hnew, List.drop_left]
  have hbefore : ∀ c ∈ s.called, c.1 < k ∨ c.1 = k ∧ c.2 ∈ p.exchange.calls := by
    rintro ⟨j, request⟩ hmem
    obtain ⟨q, hq, hrequest⟩ := (h.called j request).mp hmem
    have hserving := h.serving k hthread
    obtain hlt | heq | hgt := Nat.lt_trichotomy j k
    · exact .inl hlt
    · subst heq
      cases hq.symm.trans hget
      exact .inr ⟨rfl, hrequest⟩
    · have hnone := ((h.peers j q hq).waiting (by omega)).1
      rw [hnone] at hrequest
      cases hrequest
  have hsmall : e.calls.length ≤ 1 := by
    obtain ⟨hcalls, -⟩ | ⟨hcalls, -⟩ := (Exchange.inv_step hok.inv hmove).calls_cases
    · simp [hcalls]
    · simp [hcalls]
  have hlength : p.exchange.calls.length + new.length ≤ 1 := by
    rwa [← hnew, List.length_append] at hsmall
  simp only [State.served, hdrop]
  refine ⟨?_, fun j request => ?_⟩
  · rw [List.pairwise_append]
    refine ⟨h.order, ?_, ?_⟩
    · match new, hlength with
      | [], _ => exact List.Pairwise.nil
      | [_], _ => exact List.pairwise_singleton _ _
    · intro c hc d hd
      obtain ⟨request, hrequest, rfl⟩ := List.mem_map.mp hd
      have hpos := List.length_pos_of_mem hrequest
      obtain hlt | ⟨-, hmem⟩ := hbefore c hc
      · exact hlt
      · have := List.length_pos_of_mem hmem
        omega
  · obtain ⟨hlt, rfl⟩ := List.getElem?_eq_some_iff.mp hget
    rw [List.mem_append, h.called, List.getElem?_set]
    by_cases hj : k = j
    · subst hj
      simp [hlt, ← hnew]
    · simp [hj]

theorem inv_step {s t : State} {a : Label} (h : Inv s)
    (hmove : Move upSize downSize backlog s a t) : Inv t := by
  cases hmove with
  | connect code command answer hopen hroom =>
      have hserving : ∀ k, s.thread = .serving k → k < s.peers.length := by
        intro k hk
        have heq := h.serving k hk
        have hle := h.accepted
        omega
      refine ⟨h.peers.concat ⟨Exchange.inv_connected answer command, .reading fun _ => rfl,
        fun _ => ⟨rfl, rfl, ?_⟩, fun hk => absurd (hserving _ hk) (lt_irrefl _),
        fun hlt => absurd h.accepted (not_le.mpr hlt)⟩, ?_, h.serving, fun hk => ?_, h.exited,
        h.order, fun k request => ?_⟩
      · rw [hopen, if_pos rfl]
        rfl
      · rw [List.length_append]
        exact Nat.le_add_right_of_le h.accepted
      · rw [List.length_append]
        exact Nat.lt_add_right _ (h.accepting hk)
      · rw [h.called]
        constructor
        · rintro ⟨p, hp, hrequest⟩
          refine ⟨p, ?_, hrequest⟩
          rw [List.getElem?_append_left (List.getElem?_eq_some_iff.mp hp).1, hp]
        · rintro ⟨p, hp, hrequest⟩
          rw [List.getElem?_append] at hp
          split_ifs at hp with hk
          · exact ⟨p, hp, hrequest⟩
          · obtain rfl := List.mem_singleton.mp (List.mem_of_getElem? hp)
            cases hrequest
  | stall k p hget =>
      have hok := h.peers k p hget
      exact ⟨h.peers.set ⟨hok.inv, hok.log, hok.waiting, hok.current, hok.past⟩ fun _ _ _ hp => hp,
        by simpa [State.setPeer] using h.accepted, h.serving,
        by simpa [State.setPeer] using h.accepting, h.exited, h.order, h.called_set hget rfl⟩
  | client k p a e hget hside hlive hmove =>
      exact ⟨h.peers.set ((h.peers k p hget).client hside hmove) fun _ _ _ hp => hp,
        by simpa [State.setPeer] using h.accepted, h.serving,
        by simpa [State.setPeer] using h.accepting, h.exited, h.order,
        h.called_set hget (client_frame hside hmove).2.1⟩
  | check hthread =>
      refine h.setThread (by simp [hthread]) (by simp [hthread]) (fun j => ?_) ?_
      · split_ifs <;> simp
      · split_ifs <;> simp
  | ready hthread hpending =>
      exact h.setThread (by simp [hthread]) (by simp [hthread]) (by simp) fun _ => hpending
  | timeout hthread hnone =>
      exact h.setThread (by simp [hthread]) (by simp [hthread]) (by simp) (by simp)
  | interrupted hthread =>
      exact h.setThread (by simp [hthread]) (by simp [hthread]) (by simp) (by simp)
  | failed hthread =>
      exact h.setThread (by simp [hthread]) (by simp [hthread]) (by simp) (by simp)
  | accept hthread hpending =>
      have hopen := h.listening_of_running (by simp [hthread])
      refine ⟨h.peers.mono fun k p _ hok => ⟨hok.inv, hok.log, fun hk => ?_, fun hk => ?_,
        fun hk hne => hok.past ?_ (by simp [hthread])⟩, hpending, fun k hk => ?_, by simp,
        fun hidle hjoining => ?_, h.order, h.called⟩
      · exact hok.waiting (Nat.le_of_succ_le hk)
      · obtain rfl := Thread.serving.inj hk
        rw [(hok.waiting (le_refl _)).2.2, hopen, if_pos rfl]
        simp
      · exact lt_of_le_of_ne (Nat.lt_succ_iff.mp hk) fun heq => hne (heq ▸ rfl)
      · rw [Thread.serving.inj hk]
      · have hexited := h.exited hidle hjoining
        rw [hthread] at hexited
        cases hexited
  | refuse hthread =>
      exact h.setThread (by simp [hthread]) (by simp [hthread]) (by simp) (by simp)
  | serve k p a e hthread hget hside hmove =>
      have hpeers := h.peers
      have hserving := h.serving k hthread
      obtain ⟨horder, hcalled⟩ := h.called_serve hthread hget hside hmove
      rw [hthread] at hpeers
      refine ⟨?_, by simpa [State.served] using h.accepted, fun j hj => ?_, fun hj => ?_,
        fun hidle hjoining => ?_, horder, hcalled⟩
      · exact hpeers.set ((hpeers k p hget).serve (by omega) hmove) fun j q hj hq => hq.other hj
      · simp only [State.served] at hj
        split_ifs at hj
        cases hj
        exact hserving
      · simp only [State.served] at hj
        split_ifs at hj
      · have hexited := h.exited hidle hjoining
        rw [hthread] at hexited
        cases hexited
  | stop hidle =>
      have hpeers := h.peers
      rw [hidle] at hpeers
      exact ⟨hpeers, h.accepted, h.serving, h.accepting, by simp, h.order, h.called⟩
  | join hjoining hexited =>
      have hpeers := h.peers
      rw [hjoining] at hpeers
      exact ⟨hpeers, h.accepted, h.serving, h.accepting, fun _ _ => hexited, h.order, h.called⟩
  | close hclosing =>
      have hexited := h.exited (by simp [hclosing]) (by simp [hclosing])
      have hpeers := h.peers
      rw [hclosing, hexited] at hpeers
      refine ⟨?_, ?_, h.serving, ?_, fun _ _ => hexited, h.order, fun k request => ?_⟩
      · simp only [State.closed, hexited]
        refine hpeers.mapFrom (fun k p hk hok => ?_) fun k p hk hok => hok.drop hk
        exact ⟨hok.inv, hok.log, fun hle => absurd hk (not_lt.mpr hle), hok.current, hok.past⟩
      · simpa only [State.closed, length_mapFrom] using h.accepted
      · simpa only [State.closed, length_mapFrom] using h.accepting
      · simp only [State.closed, getElem?_mapFrom]
        rw [h.called]
        split_ifs
        · rfl
        · cases hp : s.peers[k]? with
          | none => simp
          | some p => simp [Peer.dropped]
  | unlink hunlinking =>
      have hpeers := h.peers
      rw [hunlinking] at hpeers
      have hexited := h.exited (by simp [hunlinking]) (by simp [hunlinking])
      exact ⟨hpeers, h.accepted, h.serving, h.accepting, fun _ _ => hexited, h.order, h.called⟩

theorem inv_of_run {ok : State → Label → Prop} {labels : List Label} {t : State}
    (h : Run (step upSize downSize backlog) ok {} labels t) : Inv t :=
  h.invariant (fun _ _ _ hinv _ hstep => inv_step hinv (move_of_step hstep)) inv_initial

/-- Nobody gets a byte from a connection that has not been accepted. -/
theorem PeerOk.returned_nil (h : PeerOk accepted thread listening k p) (hk : accepted ≤ k)
    {response : Bytes} (hreturned : p.exchange.client = .returned response) : response = [] := by
  have hstart := p.exchange.down.received_prefix_sent
  rw [(h.waiting hk).2.1, List.prefix_nil] at hstart
  rw [(h.inv.returned hreturned).1, hstart]
  rfl

/-- A connection whose end is closed has done what `serve_connection` does. -/
theorem PeerOk.serveConnection (h : PeerOk accepted thread listening k p)
    (hclosed : p.exchange.server = .closed) :
    SocketServer.serveConnection p.answer p.exchange.reads p.exchange.writes =
      (p.exchange.calls, p.exchange.down.sent) := by
  have hlog := h.log
  rw [hclosed] at hlog
  generalize p.exchange.reads = reads at hlog ⊢
  generalize p.exchange.writes = writes at hlog ⊢
  generalize p.exchange.calls = calls at hlog ⊢
  generalize p.exchange.down.sent = sent at hlog ⊢
  cases hlog with
  | ended _ hserve => exact hserve

/-- What `stop` leaves behind. -/
structure Stopped (s t : State) : Prop where
  thread : t.thread = .exited
  stopper : t.stopper = .stopped
  called : t.called = s.called
  accepted : t.accepted = s.accepted
  length : t.peers.length = s.peers.length

/-- After `stop` has returned only the clients move. -/
theorem Stopped.step {s t u : State} {a : Label} (h : Stopped s t)
    (hmove : Move upSize downSize backlog t a u) : Stopped s u := by
  have hthread := h.thread
  have hstopper := h.stopper
  cases hmove with
  | connect code command answer hopen hroom => simp [hstopper, Stopper.listening] at hopen
  | stall k p hget =>
      exact ⟨hthread, hstopper, h.called, h.accepted, by simpa [State.setPeer] using h.length⟩
  | client k p a e hget hside hlive hmove =>
      exact ⟨hthread, hstopper, h.called, h.accepted, by simpa [State.setPeer] using h.length⟩
  | check hchecking => simp [hthread] at hchecking
  | ready hpolling hpending => simp [hthread] at hpolling
  | timeout hpolling hnone => simp [hthread] at hpolling
  | interrupted hpolling => simp [hthread] at hpolling
  | failed hpolling => simp [hthread] at hpolling
  | accept haccepting hpending => simp [hthread] at haccepting
  | refuse haccepting => simp [hthread] at haccepting
  | serve k p a e hserving hget hside hmove => simp [hthread] at hserving
  | stop hidle => simp [hstopper] at hidle
  | join hjoining hexited => simp [hstopper] at hjoining
  | close hclosing => simp [hstopper] at hclosing
  | unlink hunlinking => simp [hstopper] at hunlinking

/-- Every end of the server is closed once `stop` has returned. -/
theorem Inv.closed_of_stopped {s : State} (h : Inv s) (hstopped : s.stopper = .stopped)
    (hget : s.peers[k]? = some p) : p.exchange.server = .closed := by
  have hok := h.peers k p hget
  have hexited := h.exited (by simp [hstopped]) (by simp [hstopped])
  by_cases hk : k < s.accepted
  · exact hok.past hk (by simp [hexited])
  · rw [(hok.waiting (not_lt.mp hk)).2.2, hstopped]
    rfl

/-- However the steps interleave and whatever fails: the handler is called for
the connections in the order in which they were made, at most once each and with
the first line of the command; a connection that is not served any more has done
what `serveConnection` does on the calls it has seen, and one that has not been
accepted gives its client nothing. Once `stop` has returned, no connection is
made or accepted, the handler is not called and every end is closed. -/
theorem served_in_order {labels : List Label} {t : State}
    (hrun : Run (step upSize downSize backlog) free {} labels t) :
    t.called.Pairwise (fun c d => c.1 < d.1) ∧
    (∀ (k : ℕ) (p : Peer), t.peers[k]? = some p →
      (∀ request, (k, request) ∈ t.called ↔ request ∈ p.exchange.calls) ∧
      (p.exchange.calls = [] ∨
        p.exchange.calls = [Exchange.line (p.command ++ [10])] ∧ k < t.accepted) ∧
      (k < t.accepted → t.thread ≠ .serving k →
        SocketServer.serveConnection p.answer p.exchange.reads p.exchange.writes =
          (p.exchange.calls, p.exchange.down.sent)) ∧
      (t.accepted ≤ k → ∀ response, p.exchange.client = .returned response → response = [])) ∧
    (t.stopper = .stopped → ∀ more (u : State), Run (step upSize downSize backlog) free t more u →
      u.called = t.called ∧ u.accepted = t.accepted ∧ u.peers.length = t.peers.length ∧
        ∀ (k : ℕ) (p : Peer), u.peers[k]? = some p → p.exchange.server = .closed) := by
  have hinv := inv_of_run hrun
  refine ⟨hinv.order, fun k p hget => ?_, fun hstopped more u hmore => ?_⟩
  · have hok := hinv.peers k p hget
    refine ⟨fun request => ?_, ?_, fun hk hthread => hok.serveConnection (hok.past hk hthread),
      fun hk response hreturned => hok.returned_nil hk hreturned⟩
    · rw [hinv.called, hget]
      simp
    · obtain ⟨hnone, -⟩ | ⟨hcalls, -⟩ := hok.inv.calls_cases
      · exact .inl hnone
      · refine .inr ⟨hcalls, ?_⟩
        by_contra hk
        rw [(hok.waiting (not_lt.mp hk)).1] at hcalls
        cases hcalls
  · have hexited := hinv.exited (by simp [hstopped]) (by simp [hstopped])
    have hend : Inv u ∧ Stopped t u :=
      hmore.invariant (I := fun v => Inv v ∧ Stopped t v)
        (fun _ _ _ hv _ hstep => ⟨inv_step hv.1 (move_of_step hstep),
          hv.2.step (move_of_step hstep)⟩) ⟨hinv, hexited, hstopped, rfl, rfl, rfl⟩
    exact ⟨hend.2.called, hend.2.accepted, hend.2.length,
      fun k p hget => hend.1.closed_of_stopped hend.2.stopper hget⟩

/-- `stop` is called while the first of two clients is served. -/
def stopLabels : List Label :=
  [.connect Exchange.sendRequest (text "ping") fun _ => text "pong", .check, .poll .ready,
    .connect Exchange.socketClient (text "status") fun _ => text "late", .accept true,
    .client 0 (.clientWrite (.bytes 5)), .serve (.serverRead (.bytes (text "ping\n"))), .stop,
    .client 1 (.clientWrite (.bytes 7)), .serve (.serverWrite (.bytes 5)), .serve .serverClose,
    .check, .join, .close, .unlink, .client 1 (.clientRead .closed)]

theorem served_in_order_stopped :
    ∃ t, Run (step 8 8 8) free {} stopLabels t ∧ t.called = [(0, text "ping")] ∧
      ∀ more u, Run (step 8 8 8) free t more u → u.called = [(0, text "ping")] := by
  obtain ⟨t, hrun, hend⟩ := Run.of_exec_any (step 8 8 8) free {} stopLabels
    (fun t => t.stopper = .stopped ∧ t.called = [(0, text "ping")]) (by decide)
  obtain ⟨hstopped, hcalled⟩ := of_decide_eq_true hend
  exact ⟨t, hrun, hcalled, fun more u hmore =>
    ((served_in_order hrun).2.2 hstopped more u hmore).1.trans hcalled⟩

end Safety

end AgentPulse.AcceptLoop
