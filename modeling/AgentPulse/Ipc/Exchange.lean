import AgentPulse.Ipc.SocketServer
import AgentPulse.Lib.Conduit
import AgentPulse.Lib.Transition

/-!
# A request over the socket

A client at one end of a connection and `serve_connection` at the other, with a
bounded stream in each direction. The client writes its command and a newline,
then reads up to a newline or the end of the stream; `send_request` of the
command line and `SocketClient.send` of the app differ in the size of their
buffer and in what they do about an interrupted call. Either party moves by one
system call at a time.

## Implementation notes

A call that would block has no outcome, so its party has no step. The outcomes
of a call are the ones `serveConnection` is given as lists; the lists a
connection has seen are kept beside the state and read by no step.
-/

namespace AgentPulse.Exchange

open SocketServer (ReadResult WriteResult maxRequestBytes bufferBytes readRequest writeResponse
  serveConnection)
open Transition

/-- What differs between the clients. -/
structure ClientCode where
  bufferBytes : Nat
  retries : Bool
  pos : 0 < bufferBytes

/-- `send_request` of `apctl`. -/
def sendRequest : ClientCode := ⟨1024, true, by decide⟩

/-- `SocketClient.send`. -/
def socketClient : ClientCode := ⟨8192, false, by decide⟩

/-- Where the client stands; it has closed its end in the last two cases. -/
inductive Client where
  | writing (rest : Bytes)
  | reading (response : Bytes)
  | returned (response : Bytes)
  | threw
  deriving DecidableEq

/-- Where `serve_connection` stands, or the `close` after it. -/
inductive Connection where
  | reading (request : Bytes)
  | writing (rest : Bytes)
  | returning
  | closed
  deriving DecidableEq

/-- The client has returned or thrown. -/
def Client.ended : Client → Bool
  | .returned _ | .threw => true
  | .writing _ | .reading _ => false

/-- The two parties, the streams to the server and back, the requests the
handler has been called with, and the calls the connection has made. -/
structure State where
  client : Client
  server : Connection := .reading []
  up : Conduit UInt8 := {}
  down : Conduit UInt8 := {}
  calls : List Bytes := []
  reads : List ReadResult := []
  writes : List WriteResult := []

/-- One system call of a party with its outcome, or the end of the loop of
reads at the size limit. -/
inductive Label where
  | clientWrite (w : WriteResult)
  | clientRead (r : ReadResult)
  | serverRead (r : ReadResult)
  | serverDrop
  | serverWrite (w : WriteResult)
  | serverClose

/-- The connection before anything is written. -/
def connected (command : Bytes) : State where
  client := .writing (command ++ [10])

/-- The outcomes of a `read`. -/
def CanRead (c : Conduit UInt8) (closed : Bool) (size : Nat) : ReadResult → Prop
  | .interrupted | .failed => True
  | .closed => c.buffer = [] ∧ closed = true
  | .bytes chunk => chunk ≠ [] ∧ chunk.length ≤ size ∧ chunk <+: c.buffer

/-- The outcomes of a `write`. -/
def CanWrite (c : Conduit UInt8) (closed : Bool) (capacity : Nat) (rest : Bytes) :
    WriteResult → Prop
  | .interrupted | .failed => True
  | .bytes n => 0 < n ∧ n ≤ rest.length ∧ c.buffer.length + n ≤ capacity ∧ closed = false

instance (c : Conduit UInt8) (closed : Bool) (size : Nat) :
    (r : ReadResult) → Decidable (CanRead c closed size r)
  | .interrupted | .failed => inferInstanceAs (Decidable True)
  | .closed => inferInstanceAs (Decidable (c.buffer = [] ∧ closed = true))
  | .bytes chunk =>
      inferInstanceAs (Decidable (chunk ≠ [] ∧ chunk.length ≤ size ∧ chunk <+: c.buffer))

instance (c : Conduit UInt8) (closed : Bool) (capacity : Nat) (rest : Bytes) :
    (w : WriteResult) → Decidable (CanWrite c closed capacity rest w)
  | .interrupted | .failed => inferInstanceAs (Decidable True)
  | .bytes n => inferInstanceAs (Decidable
      (0 < n ∧ n ≤ rest.length ∧ c.buffer.length + n ≤ capacity ∧ closed = false))

/-- The loop of writes of the client goes on, or the reads begin. -/
def Client.afterWrite (rest : Bytes) : Client := if rest = [] then .reading [] else .writing rest

/-- The client returns at a newline. -/
def Client.afterRead (response : Bytes) : Client :=
  if 10 ∈ response then .returned (response.takeWhile (· != 10)) else .reading response

/-- The loop of writes of the connection goes on, or the connection returns. -/
def Connection.afterWrite (rest : Bytes) : Connection :=
  if rest = [] then .returning else .writing rest

/-- The request line of what has been read. -/
def line (request : Bytes) : Bytes := request.takeWhile (· != 10)

section Steps

variable (code : ClientCode) (handler : Bytes → Bytes) (upSize downSize : Nat)

/-- After a `write` of the client. -/
def clientWriteStep (s : State) (rest : Bytes) : WriteResult → State
  | .interrupted => if code.retries then s else { s with client := .threw }
  | .failed => { s with client := .threw }
  | .bytes n => { s with client := .afterWrite (rest.drop n), up := s.up.write (rest.take n) }

/-- After a `read` of the client. -/
def clientReadStep (s : State) (response : Bytes) : ReadResult → State
  | .interrupted => if code.retries then s else { s with client := .threw }
  | .failed => { s with client := .threw }
  | .closed => { s with client := .returned response }
  | .bytes chunk =>
      { s with client := .afterRead (response ++ chunk), down := s.down.read chunk.length }

/-- After a `read` of `serve_connection`. -/
def serverReadStep (s : State) (request : Bytes) (r : ReadResult) : State :=
  let t := { s with reads := s.reads ++ [r] }
  match r with
  | .interrupted => t
  | .failed | .closed => { t with server := .returning }
  | .bytes chunk =>
      let u := { t with up := s.up.read chunk.length }
      if 10 ∈ request ++ chunk then
        { u with
          server := .writing (handler (line (request ++ chunk)) ++ [10])
          calls := s.calls ++ [line (request ++ chunk)] }
      else { u with server := .reading (request ++ chunk) }

/-- After a `write` of `serve_connection`. -/
def serverWriteStep (s : State) (rest : Bytes) (w : WriteResult) : State :=
  let t := { s with writes := s.writes ++ [w] }
  match w with
  | .interrupted => t
  | .failed => { t with server := .returning }
  | .bytes n => { t with server := .afterWrite (rest.drop n), down := s.down.write (rest.take n) }

/-- One step of either party. -/
def step (s : State) : Label → Option State
  | .clientWrite w =>
      match s.client with
      | .writing rest =>
          if CanWrite s.up (s.server == .closed) upSize rest w then
            some (clientWriteStep code s rest w)
          else none
      | _ => none
  | .clientRead r =>
      match s.client with
      | .reading response =>
          if CanRead s.down (s.server == .closed) code.bufferBytes r then
            some (clientReadStep code s response r)
          else none
      | _ => none
  | .serverRead r =>
      match s.server with
      | .reading request =>
          if request.length < maxRequestBytes ∧ CanRead s.up s.client.ended bufferBytes r then
            some (serverReadStep handler s request r)
          else none
      | _ => none
  | .serverDrop =>
      match s.server with
      | .reading request =>
          if maxRequestBytes ≤ request.length then some { s with server := .returning } else none
      | _ => none
  | .serverWrite w =>
      match s.server with
      | .writing rest =>
          if CanWrite s.down s.client.ended downSize rest w then some (serverWriteStep s rest w)
          else none
      | _ => none
  | .serverClose =>
      match s.server with
      | .returning => some { s with server := .closed }
      | _ => none

end Steps

/-- What a step does. -/
inductive Move (code : ClientCode) (handler : Bytes → Bytes) (upSize downSize : Nat) (s : State) :
    Label → State → Prop
  | clientWrite (rest : Bytes) (w : WriteResult) (hclient : s.client = .writing rest)
      (hcan : CanWrite s.up (s.server == .closed) upSize rest w) :
      Move code handler upSize downSize s (.clientWrite w) (clientWriteStep code s rest w)
  | clientRead (response : Bytes) (r : ReadResult) (hclient : s.client = .reading response)
      (hcan : CanRead s.down (s.server == .closed) code.bufferBytes r) :
      Move code handler upSize downSize s (.clientRead r) (clientReadStep code s response r)
  | serverRead (request : Bytes) (r : ReadResult) (hserver : s.server = .reading request)
      (hroom : request.length < maxRequestBytes)
      (hcan : CanRead s.up s.client.ended bufferBytes r) :
      Move code handler upSize downSize s (.serverRead r) (serverReadStep handler s request r)
  | serverDrop (request : Bytes) (hserver : s.server = .reading request)
      (hfull : maxRequestBytes ≤ request.length) :
      Move code handler upSize downSize s .serverDrop { s with server := .returning }
  | serverWrite (rest : Bytes) (w : WriteResult) (hserver : s.server = .writing rest)
      (hcan : CanWrite s.down s.client.ended downSize rest w) :
      Move code handler upSize downSize s (.serverWrite w) (serverWriteStep s rest w)
  | serverClose (hserver : s.server = .returning) :
      Move code handler upSize downSize s .serverClose { s with server := .closed }

variable {code : ClientCode} {handler : Bytes → Bytes} {upSize downSize : Nat} {command : Bytes}

theorem move_of_step {s t : State} {a : Label}
    (h : step code handler upSize downSize s a = some t) :
    Move code handler upSize downSize s a t := by
  cases a with
  | clientWrite w =>
      simp only [step] at h
      split at h
      · next rest hclient =>
          split_ifs at h with hcan
          cases h
          exact .clientWrite rest w hclient hcan
      · cases h
  | clientRead r =>
      simp only [step] at h
      split at h
      · next response hclient =>
          split_ifs at h with hcan
          cases h
          exact .clientRead response r hclient hcan
      · cases h
  | serverRead r =>
      simp only [step] at h
      split at h
      · next request hserver =>
          split_ifs at h with hcan
          cases h
          exact .serverRead request r hserver hcan.1 hcan.2
      · cases h
  | serverDrop =>
      simp only [step] at h
      split at h
      · next request hserver =>
          split_ifs at h with hfull
          cases h
          exact .serverDrop request hserver hfull
      · cases h
  | serverWrite w =>
      simp only [step] at h
      split at h
      · next rest hserver =>
          split_ifs at h with hcan
          cases h
          exact .serverWrite rest w hserver hcan
      · cases h
  | serverClose =>
      simp only [step] at h
      split at h
      · next hserver =>
          cases h
          exact .serverClose hserver
      · cases h

theorem step_of_move {s t : State} {a : Label} (h : Move code handler upSize downSize s a t) :
    step code handler upSize downSize s a = some t := by
  cases h with
  | clientWrite rest w hclient hcan => simp only [step, hclient, if_pos hcan]
  | clientRead response r hclient hcan => simp only [step, hclient, if_pos hcan]
  | serverRead request r hserver hroom hcan =>
      simp only [step, hserver, if_pos (And.intro hroom hcan)]
  | serverDrop request hserver hfull => simp only [step, hserver, if_pos hfull]
  | serverWrite rest w hserver hcan => simp only [step, hserver, if_pos hcan]
  | serverClose hserver => simp only [step, hserver]

section Safety

/-- What the client has sent and received, by where it stands. -/
inductive ClientOk (command : Bytes) : Client → Bytes → Bytes → Prop
  | writing {rest sent : Bytes} (hne : rest ≠ []) (hsent : sent ++ rest = command ++ [10]) :
      ClientOk command (.writing rest) sent []
  | reading {response : Bytes} (hline : 10 ∉ response) :
      ClientOk command (.reading response) (command ++ [10]) response
  | returned {received : Bytes} :
      ClientOk command (.returned (line received)) (command ++ [10]) received
  | threw {sent received : Bytes} (hsent : sent <+: command ++ [10]) :
      ClientOk command .threw sent received

/-- What the connection has received, sent and called, by where it stands. -/
inductive ServerOk (handler : Bytes → Bytes) : Connection → Bytes → Bytes → List Bytes → Prop
  | reading {request : Bytes} (hline : 10 ∉ request) :
      ServerOk handler (.reading request) request [] []
  | writing {received rest sent : Bytes} (hne : rest ≠ []) (hnewline : 10 ∈ received)
      (hsent : sent ++ rest = handler (line received) ++ [10]) :
      ServerOk handler (.writing rest) received sent [line received]
  | dropped {server : Connection} {received : Bytes}
      (hserver : server = .returning ∨ server = .closed) :
      ServerOk handler server received [] []
  | answered {server : Connection} {received sent : Bytes}
      (hserver : server = .returning ∨ server = .closed) (hnewline : 10 ∈ received)
      (hsent : sent <+: handler (line received) ++ [10]) :
      ServerOk handler server received sent [line received]

/-- What holds of the two parties in every run. -/
structure Inv (handler : Bytes → Bytes) (command : Bytes) (s : State) : Prop where
  client : ClientOk command s.client s.up.sent s.down.received
  server : ServerOk handler s.server s.up.received s.down.sent s.calls

theorem inv_connected (handler : Bytes → Bytes) (command : Bytes) :
    Inv handler command (connected command) where
  client := .writing (by simp) rfl
  server := .reading (by simp)

theorem ClientOk.prefix_command {client : Client} {sent received : Bytes}
    (h : ClientOk command client sent received) : sent <+: command ++ [10] := by
  cases h with
  | writing hne hsent => exact ⟨_, hsent⟩
  | reading hline => exact List.prefix_rfl
  | returned => exact List.prefix_rfl
  | threw hsent => exact hsent

theorem ClientOk.afterWrite {rest sent received : Bytes} (n : Nat)
    (h : ClientOk command (.writing rest) sent received) :
    ClientOk command (.afterWrite (rest.drop n)) (sent ++ rest.take n) received := by
  cases h with
  | writing hne hsent =>
      have hsplit : sent ++ rest.take n ++ rest.drop n = command ++ [10] := by
        rw [List.append_assoc, List.take_append_drop, hsent]
      rw [Client.afterWrite]
      by_cases hdone : rest.drop n = []
      · rw [hdone, List.append_nil] at hsplit
        rw [if_pos hdone, hsplit]
        exact .reading List.not_mem_nil
      · rw [if_neg hdone]
        exact .writing hdone hsplit

theorem ClientOk.afterRead {response sent received : Bytes} (chunk : Bytes)
    (h : ClientOk command (.reading response) sent received) :
    ClientOk command (.afterRead (response ++ chunk)) sent (received ++ chunk) := by
  cases h with
  | reading hline =>
      rw [Client.afterRead]
      by_cases hnewline : 10 ∈ response ++ chunk
      · rw [if_pos hnewline]
        exact .returned
      · rw [if_neg hnewline]
        exact .reading hnewline

theorem line_of_not_mem {p : Bytes} (h : 10 ∉ p) : line p = p := by
  rw [line, List.takeWhile_eq_self_iff]
  intro b hb
  simpa using fun heq : b = 10 => h (heq ▸ hb)

theorem ClientOk.eof {response sent received : Bytes}
    (h : ClientOk command (.reading response) sent received) :
    ClientOk command (.returned response) sent received := by
  cases h with
  | reading hline =>
      have hreturned : ClientOk command (.returned (line response)) (command ++ [10]) response :=
        .returned
      rwa [line_of_not_mem hline] at hreturned

theorem ServerOk.afterWrite {rest received sent : Bytes} {calls : List Bytes} (n : Nat)
    (h : ServerOk handler (.writing rest) received sent calls) :
    ServerOk handler (.afterWrite (rest.drop n)) received (sent ++ rest.take n) calls := by
  cases h with
  | dropped hserver => simp at hserver
  | answered hserver => simp at hserver
  | writing hne hnewline hsent =>
      have hsplit : sent ++ rest.take n ++ rest.drop n = handler (line received) ++ [10] := by
        rw [List.append_assoc, List.take_append_drop, hsent]
      rw [Connection.afterWrite]
      by_cases hdone : rest.drop n = []
      · rw [if_pos hdone]
        exact .answered (.inl rfl) hnewline ⟨_, hsplit⟩
      · rw [if_neg hdone]
        exact .writing hdone hnewline hsplit

/-- A connection that stops reading or writing keeps what it has done. -/
theorem ServerOk.stop {server server' : Connection} {received sent : Bytes} {calls : List Bytes}
    (h : ServerOk handler server received sent calls)
    (hserver : server' = .returning ∨ server' = .closed) :
    ServerOk handler server' received sent calls := by
  cases h with
  | reading hline => exact .dropped hserver
  | writing hne hnewline hsent => exact .answered hserver hnewline ⟨_, hsent⟩
  | dropped _ => exact .dropped hserver
  | answered _ hnewline hsent => exact .answered hserver hnewline hsent

theorem inv_step {s t : State} {a : Label} (hinv : Inv handler command s)
    (h : Move code handler upSize downSize s a t) : Inv handler command t := by
  obtain ⟨hclientOk, hserverOk⟩ := hinv
  have hthrew : ClientOk command .threw s.up.sent s.down.received :=
    .threw hclientOk.prefix_command
  cases h with
  | clientWrite rest w hclient hcan =>
      cases w with
      | interrupted =>
          rw [clientWriteStep]
          split_ifs
          · exact ⟨hclientOk, hserverOk⟩
          · exact ⟨hthrew, hserverOk⟩
      | failed => exact ⟨hthrew, hserverOk⟩
      | bytes n =>
          rw [hclient] at hclientOk
          refine ⟨?_, hserverOk⟩
          simpa [clientWriteStep] using hclientOk.afterWrite n
  | clientRead response r hclient hcan =>
      cases r with
      | interrupted =>
          rw [clientReadStep]
          split_ifs
          · exact ⟨hclientOk, hserverOk⟩
          · exact ⟨hthrew, hserverOk⟩
      | failed => exact ⟨hthrew, hserverOk⟩
      | closed =>
          rw [hclient] at hclientOk
          exact ⟨hclientOk.eof, hserverOk⟩
      | bytes chunk =>
          rw [hclient] at hclientOk
          have hread := hclientOk.afterRead chunk
          refine ⟨?_, ?_⟩
          · rw [← Conduit.take_of_prefix hcan.2.2] at hread
            simpa [clientReadStep, Conduit.received_read, Conduit.take_of_prefix hcan.2.2]
              using hread
          · simpa [clientReadStep] using hserverOk
  | serverRead request r hserver hroom hcan =>
      cases r with
      | interrupted => exact ⟨hclientOk, hserverOk⟩
      | failed => exact ⟨hclientOk, hserverOk.stop (.inl rfl)⟩
      | closed => exact ⟨hclientOk, hserverOk.stop (.inl rfl)⟩
      | bytes chunk =>
          rw [hserver] at hserverOk
          generalize hreceived : s.up.received = received at hserverOk
          generalize hsent : s.down.sent = sent at hserverOk
          generalize hcalls : s.calls = calls at hserverOk
          cases hserverOk with
          | dropped hended => simp at hended
          | answered hended => simp at hended
          | reading hline =>
              have hup : (s.up.read chunk.length).received = request ++ chunk := by
                rw [Conduit.received_read, Conduit.take_of_prefix hcan.2.2, hreceived]
              simp only [serverReadStep]
              by_cases hnewline : 10 ∈ request ++ chunk
              · rw [if_pos hnewline]
                refine ⟨by simpa using hclientOk, ?_⟩
                simp only [hcalls, hsent, hup, List.nil_append]
                exact .writing (by simp) hnewline rfl
              · rw [if_neg hnewline]
                refine ⟨by simpa using hclientOk, ?_⟩
                simp only [hcalls, hsent, hup]
                exact .reading hnewline
  | serverDrop request hserver hfull => exact ⟨hclientOk, hserverOk.stop (.inl rfl)⟩
  | serverWrite rest w hserver hcan =>
      cases w with
      | interrupted => exact ⟨hclientOk, hserverOk⟩
      | failed => exact ⟨hclientOk, hserverOk.stop (.inl rfl)⟩
      | bytes n =>
          rw [hserver] at hserverOk
          refine ⟨hclientOk, ?_⟩
          simpa [serverWriteStep] using hserverOk.afterWrite n
  | serverClose hserver => exact ⟨hclientOk, hserverOk.stop (.inr rfl)⟩

theorem inv_of_run {ok : State → Label → Prop} {labels : List Label} {t : State}
    (h : Run (step code handler upSize downSize) ok (connected command) labels t) :
    Inv handler command t :=
  h.invariant (fun _ _ _ hinv _ hstep => inv_step hinv (move_of_step hstep))
    (inv_connected handler command)

/-- A newline ends the line for every longer text. -/
theorem line_eq_of_prefix {p q : Bytes} (h : p <+: q) (hnewline : 10 ∈ p) : line p = line q := by
  obtain ⟨rest, rfl⟩ := h
  exact (SocketServer.takeWhile_append_line hnewline).symm

/-- The request a connection is called with is the first line of the command. -/
theorem Inv.line_received {s : State} (hinv : Inv handler command s)
    (hnewline : 10 ∈ s.up.received) : line s.up.received = line (command ++ [10]) :=
  line_eq_of_prefix (s.up.received_prefix_sent.trans hinv.client.prefix_command) hnewline

theorem Inv.calls_cases {s : State} (hinv : Inv handler command s) :
    s.calls = [] ∧ s.down.sent = [] ∨
      s.calls = [line (command ++ [10])] ∧ 10 ∈ s.up.received ∧
        s.down.sent <+: handler (line (command ++ [10])) ++ [10] := by
  have hline := hinv.line_received
  have hserverOk := hinv.server
  generalize s.server = server at hserverOk
  generalize s.up.received = received at hserverOk hline ⊢
  generalize s.down.sent = sent at hserverOk ⊢
  generalize s.calls = calls at hserverOk ⊢
  cases hserverOk with
  | reading _ => exact .inl ⟨rfl, rfl⟩
  | dropped _ => exact .inl ⟨rfl, rfl⟩
  | writing hne hnewline hsent =>
      rw [hline hnewline] at hsent ⊢
      exact .inr ⟨rfl, hnewline, _, hsent⟩
  | answered _ hnewline hsent =>
      rw [hline hnewline] at hsent ⊢
      exact .inr ⟨rfl, hnewline, hsent⟩

/-- A client returns at a newline, or at the end of what a closed connection has sent. -/
def ReturnOk (s : State) : Prop :=
  ∀ response, s.client = .returned response →
    10 ∈ s.down.received ∨ s.server = .closed ∧ s.down.buffer = []

theorem Client.afterWrite_ne_returned (rest response : Bytes) :
    Client.afterWrite rest ≠ .returned response := by
  rw [Client.afterWrite]
  split_ifs <;> simp

theorem returnOk_step {s t : State} {a : Label} (hinv : Inv handler command s) (h : ReturnOk s)
    (hmove : Move code handler upSize downSize s a t) : ReturnOk t := by
  intro response hreturned
  cases hmove with
  | clientWrite rest w hclient hcan =>
      cases w with
      | interrupted =>
          rw [clientWriteStep] at hreturned
          split_ifs at hreturned
          rw [hclient] at hreturned
          cases hreturned
      | failed => cases hreturned
      | bytes n => exact absurd hreturned (Client.afterWrite_ne_returned _ _)
  | clientRead response' r hclient hcan =>
      cases r with
      | interrupted =>
          rw [clientReadStep] at hreturned
          split_ifs at hreturned
          rw [hclient] at hreturned
          cases hreturned
      | failed => cases hreturned
      | closed => exact .inr ⟨by simpa [clientReadStep] using hcan.2, hcan.1⟩
      | bytes chunk =>
          simp only [clientReadStep, Client.afterRead] at hreturned ⊢
          split_ifs at hreturned with hnewline
          have hclientOk := hinv.client
          rw [hclient] at hclientOk
          rw [Conduit.received_read, Conduit.take_of_prefix hcan.2.2]
          generalize s.up.sent = sent at hclientOk
          generalize s.down.received = received at hclientOk ⊢
          cases hclientOk with
          | reading _ => exact .inl hnewline
  | serverRead request r hserver hroom hcan =>
      have hclient : (serverReadStep handler s request r).client = s.client := by
        cases r with
        | bytes chunk =>
            simp only [serverReadStep]
            split_ifs <;> rfl
        | interrupted => rfl
        | failed => rfl
        | closed => rfl
      obtain hnewline | ⟨hclosed, -⟩ := h response (hclient ▸ hreturned)
      · refine .inl ?_
        cases r with
        | bytes chunk =>
            simp only [serverReadStep]
            split_ifs <;> exact hnewline
        | interrupted => exact hnewline
        | failed => exact hnewline
        | closed => exact hnewline
      · rw [hserver] at hclosed
        cases hclosed
  | serverDrop request hserver hfull =>
      obtain hnewline | ⟨hclosed, -⟩ := h response hreturned
      · exact .inl hnewline
      · rw [hserver] at hclosed
        cases hclosed
  | serverWrite rest w hserver hcan =>
      have hclient : (serverWriteStep s rest w).client = s.client := by
        cases w <;> rfl
      obtain hnewline | ⟨hclosed, -⟩ := h response (hclient ▸ hreturned)
      · refine .inl ?_
        cases w <;> exact hnewline
      · rw [hserver] at hclosed
        cases hclosed
  | serverClose hserver =>
      obtain hnewline | ⟨hclosed, -⟩ := h response hreturned
      · exact .inl hnewline
      · rw [hserver] at hclosed
        cases hclosed

theorem returnOk_of_run {ok : State → Label → Prop} {labels : List Label} {t : State}
    (h : Run (step code handler upSize downSize) ok (connected command) labels t) : ReturnOk t := by
  have hboth : Inv handler command t ∧ ReturnOk t :=
    h.invariant (I := fun s => Inv handler command s ∧ ReturnOk s)
      (fun _ _ _ hs _ hstep => ⟨inv_step hs.1 (move_of_step hstep),
        returnOk_step hs.1 hs.2 (move_of_step hstep)⟩)
      ⟨inv_connected handler command, fun _ hreturned => by cases hreturned⟩
  exact hboth.2

/-- What the client returns is what it has received, up to a newline. -/
theorem Inv.returned {s : State} {response : Bytes} (hinv : Inv handler command s)
    (hreturned : s.client = .returned response) :
    response = line s.down.received ∧ s.up.sent = command ++ [10] := by
  have hclientOk := hinv.client
  rw [hreturned] at hclientOk
  generalize s.up.sent = sent at hclientOk
  generalize s.down.received = received at hclientOk
  cases hclientOk
  exact ⟨rfl, rfl⟩

end Safety

section Connections

/-- The calls a connection has made so far, as `serveConnection` has them. -/
inductive LogOk (handler : Bytes → Bytes) : Connection → List ReadResult → List WriteResult →
    List Bytes → Bytes → Prop
  | reading {request : Bytes} {reads : List ReadResult}
      (hreads : ∀ more, readRequest [] (reads ++ more) = readRequest request more) :
      LogOk handler (.reading request) reads [] [] []
  | writing {request rest sent : Bytes} {reads : List ReadResult} {writes : List WriteResult}
      (hreads : readRequest [] reads = some request) (hne : rest ≠ [])
      (hwrites : ∀ more, writeResponse (handler request ++ [10]) (writes ++ more) =
        sent ++ writeResponse rest more) :
      LogOk handler (.writing rest) reads writes [request] sent
  | ended {server : Connection} {reads : List ReadResult} {writes : List WriteResult}
      {calls : List Bytes} {sent : Bytes} (hserver : server = .returning ∨ server = .closed)
      (hserve : serveConnection handler reads writes = (calls, sent)) :
      LogOk handler server reads writes calls sent

theorem LogOk.drop {request sent : Bytes} {reads : List ReadResult} {writes : List WriteResult}
    {calls : List Bytes} (more : List ReadResult)
    (h : LogOk handler (.reading request) reads writes calls sent)
    (hnone : readRequest request more = none) :
    LogOk handler .returning (reads ++ more) writes calls sent := by
  cases h with
  | ended hserver => simp at hserver
  | reading hreads =>
      refine .ended (.inl rfl) ?_
      rw [serveConnection, hreads, hnone]

theorem LogOk.read {request chunk sent : Bytes} {reads : List ReadResult}
    {writes : List WriteResult} {calls : List Bytes}
    (h : LogOk handler (.reading request) reads writes calls sent)
    (hroom : request.length < maxRequestBytes) (hnewline : 10 ∉ request ++ chunk) :
    LogOk handler (.reading (request ++ chunk)) (reads ++ [.bytes chunk]) writes calls sent := by
  cases h with
  | ended hserver => simp at hserver
  | reading hreads =>
      refine .reading fun more => ?_
      rw [List.append_assoc, hreads, List.singleton_append, readRequest, if_neg (not_le.mpr hroom)]
      simp only [if_neg hnewline]

theorem LogOk.call {request chunk sent : Bytes} {reads : List ReadResult}
    {writes : List WriteResult} {calls : List Bytes}
    (h : LogOk handler (.reading request) reads writes calls sent)
    (hroom : request.length < maxRequestBytes) (hnewline : 10 ∈ request ++ chunk) :
    LogOk handler (.writing (handler (line (request ++ chunk)) ++ [10]))
      (reads ++ [.bytes chunk]) writes (calls ++ [line (request ++ chunk)]) sent := by
  cases h with
  | ended hserver => simp at hserver
  | reading hreads =>
      refine .writing ?_ (by simp) fun more => rfl
      rw [hreads, readRequest, if_neg (not_le.mpr hroom)]
      simp only [if_pos hnewline, line]

theorem LogOk.write {rest sent : Bytes} {reads : List ReadResult}
    {writes : List WriteResult} {calls : List Bytes} (n : Nat)
    (h : LogOk handler (.writing rest) reads writes calls sent) :
    LogOk handler (.afterWrite (rest.drop n)) reads (writes ++ [.bytes n]) calls
      (sent ++ rest.take n) := by
  cases h with
  | ended hserver => simp at hserver
  | @writing request _ _ _ _ hreads hne hwrites =>
      have hmore : ∀ more, writeResponse (handler request ++ [10]) (writes ++ [.bytes n] ++ more) =
          sent ++ rest.take n ++ writeResponse (rest.drop n) more := by
        intro more
        rw [List.append_assoc, hwrites, List.singleton_append, writeResponse, if_neg hne,
          List.append_assoc]
      rw [Connection.afterWrite]
      by_cases hdone : rest.drop n = []
      · rw [if_pos hdone]
        refine .ended (.inl rfl) ?_
        have hall := hmore []
        rw [hdone, writeResponse, List.append_nil, List.append_nil] at hall
        rw [serveConnection, hreads]
        exact congrArg (Prod.mk _) hall
      · rw [if_neg hdone]
        exact .writing hreads hdone hmore

theorem log_step {s t : State} {a : Label}
    (hlog : LogOk handler s.server s.reads s.writes s.calls s.down.sent)
    (h : Move code handler upSize downSize s a t) :
    LogOk handler t.server t.reads t.writes t.calls t.down.sent := by
  cases h with
  | clientWrite rest w hclient hcan =>
      cases w with
      | interrupted =>
          rw [clientWriteStep]
          split_ifs <;> exact hlog
      | failed => exact hlog
      | bytes n => exact hlog
  | clientRead response r hclient hcan =>
      cases r with
      | interrupted =>
          rw [clientReadStep]
          split_ifs <;> exact hlog
      | failed => exact hlog
      | closed => exact hlog
      | bytes chunk => simpa [clientReadStep] using hlog
  | serverRead request r hserver hroom hcan =>
      rw [hserver] at hlog
      have hroom' := not_le.mpr hroom
      cases r with
      | interrupted =>
          simp only [serverReadStep, hserver]
          generalize s.writes = writes at hlog
          generalize s.calls = calls at hlog
          generalize s.down.sent = sent at hlog
          cases hlog with
          | ended hended => simp at hended
          | reading hreads =>
              refine .reading fun more => ?_
              rw [List.append_assoc, hreads, List.singleton_append, readRequest, if_neg hroom']
      | failed =>
          refine hlog.drop [.failed] ?_
          rw [readRequest, if_neg hroom']
      | closed =>
          refine hlog.drop [.closed] ?_
          rw [readRequest, if_neg hroom']
      | bytes chunk =>
          simp only [serverReadStep]
          by_cases hnewline : 10 ∈ request ++ chunk
          · rw [if_pos hnewline]
            exact hlog.call hroom hnewline
          · rw [if_neg hnewline]
            exact hlog.read hroom hnewline
  | serverDrop request hserver hfull =>
      rw [hserver] at hlog
      have hdrop := hlog.drop [] rfl
      rwa [List.append_nil] at hdrop
  | serverWrite rest w hserver hcan =>
      rw [hserver] at hlog
      cases w with
      | bytes n => simpa [serverWriteStep] using hlog.write n
      | interrupted =>
          simp only [serverWriteStep, hserver]
          generalize s.reads = reads at hlog
          generalize s.calls = calls at hlog
          generalize s.down.sent = sent at hlog
          cases hlog with
          | ended hended => simp at hended
          | writing hreads hne hwrites =>
              refine .writing hreads hne fun more => ?_
              rw [List.append_assoc, hwrites, List.singleton_append, writeResponse, if_neg hne]
      | failed =>
          simp only [serverWriteStep]
          generalize s.reads = reads at hlog
          generalize s.calls = calls at hlog
          generalize s.down.sent = sent at hlog
          cases hlog with
          | ended hended => simp at hended
          | writing hreads hne hwrites =>
              refine .ended (.inl rfl) ?_
              rw [serveConnection, hreads]
              simp only [hwrites, writeResponse, if_neg hne, List.append_nil]
  | serverClose hserver =>
      rw [hserver] at hlog
      generalize s.reads = reads at hlog
      generalize s.writes = writes at hlog
      generalize s.calls = calls at hlog
      generalize s.down.sent = sent at hlog
      cases hlog with
      | ended _ hserve => exact .ended (.inr rfl) hserve

theorem log_of_run {ok : State → Label → Prop} {labels : List Label} {t : State}
    (h : Run (step code handler upSize downSize) ok (connected command) labels t) :
    LogOk handler t.server t.reads t.writes t.calls t.down.sent :=
  h.invariant (I := fun s => LogOk handler s.server s.reads s.writes s.calls s.down.sent)
    (fun _ _ _ hlog _ hstep => log_step hlog (move_of_step hstep)) (.reading fun _ => rfl)

/-- Whatever fails: the connection does what `serveConnection` does on the calls
it has seen, the handler is called at most once and with the first line of the
command, and the client returns the first line of the response to it, or all the
connection has sent before it closed. -/
theorem request_safe {labels : List Label} {t : State}
    (hrun : Run (step code handler upSize downSize) free (connected command) labels t) :
    (t.calls = [] ∨ t.calls = [line (command ++ [10])]) ∧
    (t.server = .returning ∨ t.server = .closed →
      serveConnection handler t.reads t.writes = (t.calls, t.down.sent)) ∧
    ∀ response, t.client = .returned response →
      response = line (handler (line (command ++ [10])) ++ [10]) ∧
          t.calls = [line (command ++ [10])] ∨
        t.server = .closed ∧ t.down.sent = response ∧ 10 ∉ response := by
  have hinv := inv_of_run hrun
  refine ⟨?_, fun hserver => ?_, fun response hreturned => ?_⟩
  · obtain ⟨hcalls, -⟩ | ⟨hcalls, -⟩ := hinv.calls_cases
    · exact .inl hcalls
    · exact .inr hcalls
  · have hlog := log_of_run hrun
    generalize t.server = server at hlog hserver
    generalize t.reads = reads at hlog ⊢
    generalize t.writes = writes at hlog ⊢
    generalize t.calls = calls at hlog ⊢
    generalize t.down.sent = sent at hlog ⊢
    cases hlog with
    | reading _ => simp at hserver
    | writing _ _ _ => simp at hserver
    | ended _ hserve => exact hserve
  · obtain ⟨hresponse, -⟩ := hinv.returned hreturned
    by_cases hnewline : 10 ∈ t.down.received
    · obtain ⟨-, hsent⟩ | ⟨hcalls, -, hsent⟩ := hinv.calls_cases
      · have hmem := t.down.received_prefix_sent.subset hnewline
        rw [hsent] at hmem
        cases hmem
      · refine .inl ⟨?_, hcalls⟩
        rw [hresponse]
        exact line_eq_of_prefix (t.down.received_prefix_sent.trans hsent) hnewline
    · obtain hmem | ⟨hclosed, hempty⟩ := returnOk_of_run hrun response hreturned
      · exact absurd hmem hnewline
      · refine .inr ⟨hclosed, ?_⟩
        rw [hresponse, line_of_not_mem hnewline]
        exact ⟨(Conduit.received_eq_sent hempty).symm, hnewline⟩

/-- A request of two lines whose response is cut off by a failed write. -/
def truncatedLabels : List Label :=
  [.clientWrite (.bytes 3), .serverRead (.bytes (text "a\nb")), .clientWrite (.bytes 1),
    .serverWrite (.bytes 1), .serverWrite .failed, .serverClose, .clientRead (.bytes (text "o")),
    .clientRead .closed]

theorem truncated_returned :
    ∃ t, Run (step sendRequest (fun _ => text "ok") 3 3) free (connected (text "a\nb"))
        truncatedLabels t ∧
      t.client = .returned (text "o") ∧ t.down.sent = text "o" ∧ t.calls ≠ [] := by
  obtain ⟨t, hrun, hend⟩ := Run.of_exec_any (step sendRequest (fun _ => text "ok") 3 3)
    free (connected (text "a\nb")) truncatedLabels
    (fun t => t.client = .returned (text "o") ∧ t.calls ≠ []) (by decide)
  obtain ⟨hreturned, hcalls⟩ := of_decide_eq_true hend
  obtain ⟨hfull, -⟩ | ⟨-, hsent, -⟩ := (request_safe hrun).2.2 _ hreturned
  · exact absurd hfull (by decide)
  · exact ⟨t, hrun, hreturned, hsent, hcalls⟩

end Connections

end AgentPulse.Exchange
