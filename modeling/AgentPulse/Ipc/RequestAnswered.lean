import AgentPulse.Ipc.Exchange

/-!
# A request is answered

Without faults a short command without a newline is answered. A rank bounds the
steps, the invariant of the two parties gives a next step until both ends are
closed, and a stronger invariant says that the answer is the whole response.
-/

namespace AgentPulse.Exchange

open SocketServer (ReadResult WriteResult maxRequestBytes bufferBytes)
open Transition

variable {code : ClientCode} {handler : Bytes → Bytes} {upSize downSize : Nat} {command : Bytes}

section Answers

/-- No call fails but a write to a closed connection, and an interrupted call is
made again. -/
def Faultless (code : ClientCode) (s : State) : Label → Prop
  | .clientWrite .failed => s.server = .closed
  | .clientWrite .interrupted | .clientRead .interrupted => code.retries = true
  | .clientRead .failed | .serverRead .failed => False
  | .serverWrite .failed => s.client.ended = true
  | _ => True

/-- What holds without faults: an answer is sent in full and then returned. -/
structure Complete (handler : Bytes → Bytes) (command : Bytes) (s : State) : Prop where
  inv : Inv handler command s
  client : s.client ≠ .threw
  returned : ∀ response, s.client = .returned response → 10 ∈ s.down.received
  server : s.server = .returning ∨ s.server = .closed →
    s.calls = [command] ∧ s.down.sent = handler command ++ [10]

theorem complete_connected (handler : Bytes → Bytes) (command : Bytes) :
    Complete handler command (connected command) where
  inv := inv_connected handler command
  client := by simp [connected]
  returned := by simp [connected]
  server := by simp [connected]

theorem mem_of_prefix {p q : Bytes} (h : p <+: q) (hmem : 10 ∈ p) : 10 ∈ q :=
  h.subset hmem

/-- The newline of a line without another one is its end. -/
theorem rest_of_newline {p rest q : Bytes} (h : p ++ rest = q ++ [10]) (hq : 10 ∉ q)
    (hp : 10 ∈ p) : rest = [] := by
  obtain rfl | ⟨rest, last, rfl⟩ := rest.eq_nil_or_concat
  · rfl
  · rw [List.concat_eq_append, ← List.append_assoc] at h
    have hstart := List.append_inj_left' h rfl
    exact absurd (hstart ▸ List.mem_append_left rest hp) hq

theorem line_command (hcommand : 10 ∉ command) : line (command ++ [10]) = command :=
  SocketServer.takeWhile_line hcommand

theorem line_append_newline (command : Bytes) : line (command ++ [10]) = line command := by
  by_cases hnewline : 10 ∈ command
  · exact SocketServer.takeWhile_append_line hnewline
  · rw [line_command hnewline, line_of_not_mem hnewline]

/-- A client that still writes has not sent its newline. -/
theorem Inv.not_newline_of_writing {s : State} {rest : Bytes} (hinv : Inv handler command s)
    (hcommand : 10 ∉ command) (hclient : s.client = .writing rest) :
    10 ∉ s.up.received := by
  intro hnewline
  have hmem := mem_of_prefix s.up.received_prefix_sent hnewline
  have hclientOk := hinv.client
  rw [hclient] at hclientOk
  generalize s.up.sent = sent at hclientOk hmem
  generalize s.down.received = received at hclientOk
  cases hclientOk with
  | writing hne hsent => exact hne (rest_of_newline hsent hcommand hmem)

/-- A connection that has a newline has called the handler. -/
theorem Inv.calls_of_not_reading {s : State} {rest : Bytes} (hinv : Inv handler command s)
    (hcommand : 10 ∉ command) (hserver : s.server = .writing rest) :
    10 ∈ s.up.received ∧ rest ≠ [] ∧ s.calls = [command] ∧
      s.down.sent ++ rest = handler command ++ [10] := by
  have hline := hinv.line_received
  rw [line_command hcommand] at hline
  have hserverOk := hinv.server
  rw [hserver] at hserverOk
  generalize s.up.received = received at hserverOk hline ⊢
  generalize s.down.sent = sent at hserverOk ⊢
  generalize s.calls = calls at hserverOk ⊢
  cases hserverOk with
  | dropped hended => simp at hended
  | answered hended => simp at hended
  | writing hne hnewline hsent =>
      rw [hline hnewline] at hsent ⊢
      exact ⟨hnewline, hne, rfl, hsent⟩

/-- A request that is still read is short of the newline. -/
theorem Inv.of_reading {s : State} {request : Bytes} (hinv : Inv handler command s)
    (hserver : s.server = .reading request) :
    s.up.received = request ∧ 10 ∉ request ∧ s.down.sent = [] := by
  have hserverOk := hinv.server
  rw [hserver] at hserverOk
  generalize s.up.received = received at hserverOk ⊢
  generalize s.down.sent = sent at hserverOk ⊢
  generalize s.calls = calls at hserverOk
  cases hserverOk with
  | dropped hended => simp at hended
  | answered hended => simp at hended
  | reading hline => exact ⟨rfl, hline, rfl⟩

/-- A request of a short command stays below the limit. -/
theorem Inv.room_of_reading {s : State} {request : Bytes} (hinv : Inv handler command s)
    (hlen : command.length < maxRequestBytes) (hserver : s.server = .reading request) :
    request.length < maxRequestBytes := by
  obtain ⟨hreceived, hline, -⟩ := hinv.of_reading hserver
  have hstart := s.up.received_prefix_sent.trans hinv.client.prefix_command
  rw [hreceived] at hstart
  obtain ⟨rest, hrest⟩ := hstart
  obtain rfl | ⟨rest, last, rfl⟩ := rest.eq_nil_or_concat
  · rw [List.append_nil] at hrest
    exact absurd (by simp [hrest]) hline
  · rw [List.concat_eq_append, ← List.append_assoc] at hrest
    have hcommand := List.append_inj_left' hrest rfl
    rw [← hcommand, List.length_append] at hlen
    omega

theorem complete_step {s t : State} {a : Label} (hcommand : 10 ∉ command)
    (hresponse : 10 ∉ handler command) (hlen : command.length < maxRequestBytes)
    (h : Complete handler command s) (hok : Faultless code s a)
    (hmove : Move code handler upSize downSize s a t) : Complete handler command t := by
  have hinv := inv_step h.inv hmove
  have hclosed : s.server = .closed → 10 ∈ s.up.received := by
    intro hserver
    obtain ⟨hnone, -⟩ | ⟨-, hnewline, -⟩ := h.inv.calls_cases
    · rw [(h.server (.inr hserver)).1] at hnone
      cases hnone
    · exact hnewline
  have hended : s.client.ended = true → ∃ response, s.client = .returned response := by
    intro hclient
    cases hstand : s.client with
    | writing rest => simp [hstand, Client.ended] at hclient
    | reading response => simp [hstand, Client.ended] at hclient
    | returned response => exact ⟨response, rfl⟩
    | threw => exact absurd hstand h.client
  cases hmove with
  | clientWrite rest w hclient hcan =>
      cases w with
      | interrupted =>
          have hretries : code.retries = true := hok
          rwa [clientWriteStep, if_pos hretries]
      | failed => exact absurd (hclosed hok) (h.inv.not_newline_of_writing hcommand hclient)
      | bytes n =>
          refine ⟨hinv, ?_, fun response hreturned => ?_, h.server⟩
          · rw [clientWriteStep, Client.afterWrite]
            split_ifs <;> simp
          · exact absurd hreturned (Client.afterWrite_ne_returned _ response)
  | clientRead response r hclient hcan =>
      cases r with
      | interrupted =>
          have hretries : code.retries = true := hok
          rwa [clientReadStep, if_pos hretries]
      | failed => exact hok.elim
      | closed =>
          have hall : s.down.received = handler command ++ [10] := by
            rw [Conduit.received_eq_sent hcan.1]
            exact (h.server (.inr (by simpa using hcan.2))).2
          refine ⟨hinv, by simp [clientReadStep], fun r' _ => ?_, h.server⟩
          simp [clientReadStep, hall]
      | bytes chunk =>
          refine ⟨hinv, ?_, fun r' hreturned => ?_, by simpa [clientReadStep] using h.server⟩
          · simp only [clientReadStep, Client.afterRead]
            split_ifs <;> simp
          · simp only [clientReadStep, Client.afterRead] at hreturned
            split_ifs at hreturned with hnewline
            have hclientOk := h.inv.client
            rw [hclient] at hclientOk
            simp only [clientReadStep, Conduit.received_read, Conduit.take_of_prefix hcan.2.2]
            generalize s.up.sent = sent at hclientOk
            generalize s.down.received = received at hclientOk ⊢
            cases hclientOk with
            | reading _ => exact hnewline
  | serverRead request r hserver hroom hcan =>
      cases r with
      | interrupted => exact ⟨hinv, h.client, h.returned, h.server⟩
      | failed => exact hok.elim
      | closed =>
          obtain ⟨response, hreturned⟩ := hended hcan.2
          have hnewline := h.returned response hreturned
          have hmem := mem_of_prefix s.down.received_prefix_sent hnewline
          rw [(h.inv.of_reading hserver).2.2] at hmem
          cases hmem
      | bytes chunk =>
          simp only [serverReadStep] at hinv ⊢
          by_cases hnewline : 10 ∈ request ++ chunk
          · rw [if_pos hnewline] at hinv ⊢
            exact ⟨hinv, h.client, h.returned, by simp⟩
          · rw [if_neg hnewline] at hinv ⊢
            exact ⟨hinv, h.client, h.returned, by simp⟩
  | serverDrop request hserver hfull =>
      exact absurd hfull (not_le.mpr (h.inv.room_of_reading hlen hserver))
  | serverWrite rest w hserver hcan =>
      obtain ⟨-, hne, hcalls, hsent⟩ := h.inv.calls_of_not_reading hcommand hserver
      cases w with
      | interrupted => exact ⟨hinv, h.client, h.returned, h.server⟩
      | failed =>
          obtain ⟨response, hreturned⟩ := hended hok
          have hnewline := h.returned response hreturned
          have hmem := mem_of_prefix s.down.received_prefix_sent hnewline
          exact absurd (rest_of_newline hsent hresponse hmem) hne
      | bytes n =>
          refine ⟨hinv, h.client, h.returned, fun hstop => ?_⟩
          simp only [serverWriteStep, Connection.afterWrite] at hstop ⊢
          split_ifs at hstop with hdone
          · rw [Conduit.sent_write, hcalls]
            rw [← List.take_append_drop n rest, hdone, List.append_nil] at hsent
            exact ⟨rfl, hsent⟩
          · simp at hstop
  | serverClose hserver => exact ⟨hinv, h.client, h.returned, fun _ => h.server (.inl hserver)⟩

/-- A client that has returned has the response to its command. -/
theorem Complete.answered {s : State} {response : Bytes} (h : Complete handler command s)
    (hcommand : 10 ∉ command) (hresponse : 10 ∉ handler command)
    (hreturned : s.client = .returned response) :
    response = handler command ∧ s.calls = [command] := by
  obtain ⟨heq, -⟩ := h.inv.returned hreturned
  have hnewline := h.returned response hreturned
  have hstart := s.down.received_prefix_sent
  have hline := line_command hcommand
  obtain ⟨-, hsent⟩ | ⟨hcalls, -, hsent⟩ := h.inv.calls_cases
  · rw [hsent, List.prefix_nil] at hstart
    rw [hstart] at hnewline
    cases hnewline
  · rw [hline] at hcalls hsent
    refine ⟨?_, hcalls⟩
    rw [heq, line_eq_of_prefix (hstart.trans hsent) hnewline, line_command hresponse]

end Answers

section Progress

/-- Every label but an interrupted call. -/
def Label.progress : Label → Bool
  | .clientWrite .interrupted | .clientRead .interrupted => false
  | .serverRead .interrupted | .serverWrite .interrupted => false
  | _ => true

def Client.rank : Client → Nat
  | .writing rest => 2 * rest.length + 2
  | .reading _ => 1
  | .returned _ | .threw => 0

/-- The work left for a connection whose response has the given size. -/
def Connection.rank (size : Nat) : Connection → Nat
  | .reading _ => 2 * size + 3
  | .writing rest => 2 * rest.length + 2
  | .returning => 1
  | .closed => 0

/-- The work left: a byte is written and read, and each party has its phases. -/
def rank (size : Nat) (s : State) : Nat :=
  s.client.rank + s.up.buffer.length + s.server.rank size + s.down.buffer.length

/-- The size of the response to a command. -/
def responseSize (handler : Bytes → Bytes) (command : Bytes) : Nat :=
  (handler (line (command ++ [10]))).length + 1

theorem Client.rank_writing (rest : Bytes) : (Client.writing rest).rank = 2 * rest.length + 2 := rfl

theorem Client.rank_reading (response : Bytes) : (Client.reading response).rank = 1 := rfl

theorem Connection.rank_writing (size : Nat) (rest : Bytes) :
    (Connection.writing rest).rank size = 2 * rest.length + 2 := rfl

theorem Client.rank_afterWrite (rest : Bytes) :
    (Client.afterWrite rest).rank ≤ 2 * rest.length + 2 := by
  rw [Client.afterWrite]
  split_ifs
  · simp only [Client.rank]
    omega
  · rfl

theorem Client.rank_afterRead (response : Bytes) : (Client.afterRead response).rank ≤ 1 := by
  rw [Client.afterRead]
  split_ifs <;> simp [Client.rank]

theorem Connection.rank_afterWrite (size : Nat) (rest : Bytes) :
    (Connection.afterWrite rest).rank size ≤ 2 * rest.length + 2 := by
  rw [Connection.afterWrite]
  split_ifs
  · simp only [Connection.rank]
    omega
  · rfl

theorem length_pos_of_can {c : Conduit UInt8} {closed : Bool} {size : Nat} {chunk : Bytes}
    (h : CanRead c closed size (.bytes chunk)) :
    0 < chunk.length ∧ chunk.length ≤ c.buffer.length :=
  ⟨List.length_pos_iff.mpr h.1, h.2.2.length_le⟩

theorem rank_step {s t : State} {a : Label} (hinv : Inv handler command s)
    (h : Move code handler upSize downSize s a t) :
    rank (responseSize handler command) t + (if a.progress then 1 else 0) ≤
      rank (responseSize handler command) s := by
  cases h with
  | clientWrite rest w hclient hcan =>
      cases w with
      | interrupted =>
          simp only [clientWriteStep, Label.progress, rank, hclient, Bool.false_eq_true, if_false]
          split_ifs <;> simp [hclient, Client.rank]
      | failed =>
          simp only [clientWriteStep, Label.progress, rank, hclient, Client.rank, if_true]
          omega
      | bytes n =>
          obtain ⟨hpos, hle, -⟩ := hcan
          have hrank := Client.rank_afterWrite (rest.drop n)
          rw [List.length_drop] at hrank
          simp only [clientWriteStep, Label.progress, rank, hclient, Conduit.length_buffer_write,
            List.length_take, if_true, Client.rank_writing]
          omega
  | clientRead response r hclient hcan =>
      cases r with
      | interrupted =>
          simp only [clientReadStep, Label.progress, rank, hclient, Bool.false_eq_true, if_false]
          split_ifs <;> simp [hclient, Client.rank]
      | failed =>
          simp only [clientReadStep, Label.progress, rank, hclient, Client.rank, if_true]
          omega
      | closed =>
          simp only [clientReadStep, Label.progress, rank, hclient, Client.rank, if_true]
          omega
      | bytes chunk =>
          obtain ⟨hpos, hle⟩ := length_pos_of_can hcan
          have hrank := Client.rank_afterRead (response ++ chunk)
          simp only [clientReadStep, Label.progress, rank, hclient, Conduit.length_buffer_read,
            if_true, Client.rank_reading]
          omega
  | serverRead request r hserver hroom hcan =>
      cases r with
      | interrupted => simp [serverReadStep, Label.progress, rank]
      | failed =>
          simp only [serverReadStep, Label.progress, rank, hserver, Connection.rank, if_true]
          omega
      | closed =>
          simp only [serverReadStep, Label.progress, rank, hserver, Connection.rank, if_true]
          omega
      | bytes chunk =>
          obtain ⟨hpos, hle⟩ := length_pos_of_can hcan
          simp only [serverReadStep, Label.progress, if_true]
          by_cases hnewline : 10 ∈ request ++ chunk
          · have hreceived : (s.up.read chunk.length).received = request ++ chunk := by
              rw [Conduit.received_read, Conduit.take_of_prefix hcan.2.2,
                (hinv.of_reading hserver).1]
            have hline : line (request ++ chunk) = line (command ++ [10]) := by
              have hstart := (s.up.read chunk.length).received_prefix_sent
              rw [hreceived, Conduit.sent_read] at hstart
              exact line_eq_of_prefix (hstart.trans hinv.client.prefix_command) hnewline
            rw [if_pos hnewline, hline]
            simp only [rank, hserver, Connection.rank, responseSize, List.length_append,
              List.length_singleton, Conduit.length_buffer_read]
            omega
          · rw [if_neg hnewline]
            simp only [rank, hserver, Connection.rank, Conduit.length_buffer_read]
            omega
  | serverDrop request hserver hfull =>
      simp only [Label.progress, rank, hserver, Connection.rank, if_true]
      omega
  | serverWrite rest w hserver hcan =>
      cases w with
      | interrupted => simp [serverWriteStep, Label.progress, rank]
      | failed =>
          simp only [serverWriteStep, Label.progress, rank, hserver, Connection.rank, if_true]
          omega
      | bytes n =>
          obtain ⟨hpos, hle, -⟩ := hcan
          have hrank := Connection.rank_afterWrite (responseSize handler command) (rest.drop n)
          rw [List.length_drop] at hrank
          simp only [serverWriteStep, Label.progress, rank, hserver, Conduit.length_buffer_write,
            List.length_take, if_true, Connection.rank_writing]
          omega
  | serverClose hserver =>
      simp only [Label.progress, rank, hserver, Connection.rank, if_true]
      omega

/-- The steps of a run are bounded, interrupted calls apart. -/
theorem progress_le {ok : State → Label → Prop} {labels : List Label} {s t : State}
    (h : Run (step code handler upSize downSize) ok s labels t) (hinv : Inv handler command s) :
    (labels.filter Label.progress).length + rank (responseSize handler command) t ≤
      rank (responseSize handler command) s := by
  induction h with
  | nil s => simp
  | @cons s m t a rest _ hstep _ ih =>
      have hmove := move_of_step hstep
      have hrest := ih (inv_step hinv hmove)
      have hrank := rank_step hinv hmove
      rw [List.filter_cons]
      by_cases hprogress : a.progress = true
      · rw [if_pos hprogress, List.length_cons]
        rw [if_pos hprogress] at hrank
        omega
      · rw [if_neg hprogress]
        rw [if_neg hprogress] at hrank
        omega

theorem rank_connected (size : Nat) (command : Bytes) :
    rank size (connected command) = 2 * command.length + 2 * size + 7 := by
  have hlength : (command ++ [10]).length = command.length + 1 := List.length_append
  have hrank : rank size (connected command) =
      2 * (command ++ [10]).length + 2 + 0 + (2 * size + 3) + 0 := rfl
  omega

/-- Both parties have closed their ends. -/
def Finished (s : State) : Prop := s.client.ended = true ∧ s.server = .closed

/-- A step without a fault and without an interruption is possible. -/
def CanProgress (code : ClientCode) (handler : Bytes → Bytes) (upSize downSize : Nat) (s : State) :
    Prop :=
  ∃ a t, a.progress = true ∧ Faultless code s a ∧ step code handler upSize downSize s a = some t

theorem CanProgress.of_move {s t : State} {a : Label}
    (h : Move code handler upSize downSize s a t) (hprogress : a.progress = true)
    (hok : Faultless code s a) :
    CanProgress code handler upSize downSize s :=
  ⟨a, t, hprogress, hok, step_of_move h⟩

/-- Bytes in flight can be read. -/
theorem canRead_take {c : Conduit UInt8} {closed : Bool} {size : Nat} (hsize : 0 < size)
    (h : c.buffer ≠ []) : CanRead c closed size (.bytes (c.buffer.take size)) := by
  refine ⟨?_, List.length_take_le _ _, List.take_prefix _ _⟩
  rw [Ne, List.take_eq_nil_iff]
  rintro (h0 | hnil)
  · omega
  · exact h hnil

/-- The two parties both write into full streams. -/
def Deadlocked (upSize downSize : Nat) (s : State) : Prop :=
  ∃ rest rest', s.client = .writing rest ∧ s.server = .writing rest' ∧
    upSize ≤ s.up.buffer.length ∧ downSize ≤ s.down.buffer.length

/-- Only two parties that both write can wait for each other. -/
theorem Inv.canProgress {s : State} (hup : 0 < upSize) (hdown : 0 < downSize)
    (hinv : Inv handler command s) (hfinished : ¬ Finished s)
    (hdeadlocked : ¬ Deadlocked upSize downSize s) :
    CanProgress code handler upSize downSize s := by
  have hbuffer : 0 < bufferBytes := by decide
  cases hserver : s.server with
  | returning => exact .of_move (.serverClose hserver) rfl trivial
  | reading request =>
      by_cases hfull : maxRequestBytes ≤ request.length
      · exact .of_move (.serverDrop request hserver hfull) rfl trivial
      by_cases hempty : s.up.buffer = []
      · cases hclient : s.client with
        | writing rest =>
            have hclientOk := hinv.client
            rw [hclient] at hclientOk
            have hne : rest ≠ [] := by
              generalize s.up.sent = sent at hclientOk
              generalize s.down.received = received at hclientOk
              cases hclientOk with
              | writing hne _ => exact hne
            refine .of_move (.clientWrite rest (.bytes 1) hclient ⟨Nat.one_pos, ?_, ?_, ?_⟩) rfl
              trivial
            · exact List.length_pos_iff.mpr hne
            · rw [hempty]
              exact hup
            · simp [hserver]
        | reading response =>
            obtain ⟨hreceived, hline, -⟩ := hinv.of_reading hserver
            have hclientOk := hinv.client
            rw [hclient] at hclientOk
            rw [← hreceived, Conduit.received_eq_sent hempty] at hline
            generalize s.up.sent = sent at hclientOk hline
            generalize s.down.received = received at hclientOk
            cases hclientOk with
            | reading _ => simp at hline
        | returned response =>
            refine .of_move (.serverRead request .closed hserver (not_le.mp hfull)
              ⟨hempty, ?_⟩) rfl trivial
            rw [hclient, Client.ended]
        | threw =>
            refine .of_move (.serverRead request .closed hserver (not_le.mp hfull)
              ⟨hempty, ?_⟩) rfl trivial
            rw [hclient, Client.ended]
      · exact .of_move (.serverRead request _ hserver (not_le.mp hfull)
          (canRead_take hbuffer hempty)) rfl trivial
  | writing rest' =>
      have hne : rest' ≠ [] := by
        have hserverOk := hinv.server
        rw [hserver] at hserverOk
        generalize s.up.received = received at hserverOk
        generalize s.down.sent = sent at hserverOk
        generalize s.calls = calls at hserverOk
        cases hserverOk with
        | dropped hended => simp at hended
        | answered hended => simp at hended
        | writing hne _ _ => exact hne
      by_cases hended : s.client.ended = true
      · exact .of_move (.serverWrite rest' .failed hserver trivial) rfl hended
      by_cases hroom : s.down.buffer.length + 1 ≤ downSize
      · exact .of_move (.serverWrite rest' (.bytes 1) hserver
          ⟨Nat.one_pos, List.length_pos_iff.mpr hne, hroom, by simpa using hended⟩) rfl trivial
      cases hclient : s.client with
      | returned response => simp [hclient, Client.ended] at hended
      | threw => simp [hclient, Client.ended] at hended
      | reading response =>
          have hdata : s.down.buffer ≠ [] := by
            intro hnil
            rw [hnil, List.length_nil] at hroom
            omega
          exact .of_move (.clientRead response _ hclient (canRead_take code.pos hdata)) rfl trivial
      | writing rest =>
          have hroomUp : s.up.buffer.length + 1 ≤ upSize := by
            by_contra hfull
            exact hdeadlocked ⟨rest, rest', hclient, hserver, by omega, by omega⟩
          have hclientOk := hinv.client
          rw [hclient] at hclientOk
          have hne : rest ≠ [] := by
            generalize s.up.sent = sent at hclientOk
            generalize s.down.received = received at hclientOk
            cases hclientOk with
            | writing hne _ => exact hne
          exact .of_move (.clientWrite rest (.bytes 1) hclient
            ⟨Nat.one_pos, List.length_pos_iff.mpr hne, hroomUp, by simp [hserver]⟩) rfl trivial
  | closed =>
      cases hclient : s.client with
      | returned response => exact absurd ⟨by rw [hclient, Client.ended], hserver⟩ hfinished
      | threw => exact absurd ⟨by rw [hclient, Client.ended], hserver⟩ hfinished
      | writing rest => exact .of_move (.clientWrite rest .failed hclient trivial) rfl hserver
      | reading response =>
          by_cases hempty : s.down.buffer = []
          · exact .of_move (.clientRead response .closed hclient
              ⟨hempty, by simp [hserver]⟩) rfl trivial
          · exact .of_move (.clientRead response _ hclient
              (canRead_take code.pos hempty)) rfl trivial

/-- A command without a newline never leads to a deadlock. -/
theorem Inv.not_deadlocked {s : State} (hinv : Inv handler command s) (hcommand : 10 ∉ command) :
    ¬ Deadlocked upSize downSize s := by
  rintro ⟨rest, rest', hclient, hserver, -, -⟩
  exact hinv.not_newline_of_writing hcommand hclient
    (hinv.calls_of_not_reading hcommand hserver).1

/-- A short command without a newline, for which the handler returns one line, is
answered: every run without faults is bounded, goes on until both ends are
closed, the connection returns when it has sent the response, and the client
returns the response to its command, for which the handler has been called once. -/
theorem request_answered (hup : 0 < upSize) (hdown : 0 < downSize) (hcommand : 10 ∉ command)
    (hlen : command.length < maxRequestBytes) (hresponse : 10 ∉ handler command)
    {labels : List Label} {t : State}
    (hrun : Run (step code handler upSize downSize) (Faultless code) (connected command) labels t) :
    (labels.filter Label.progress).length ≤
      2 * command.length + 2 * (handler command).length + 9 ∧
    (t.calls = [] ∨ t.calls = [command]) ∧ t.client ≠ .threw ∧
    (∀ response, t.client = .returned response →
      response = handler command ∧ t.calls = [command]) ∧
    (t.server = .returning ∨ t.server = .closed →
      t.calls = [command] ∧ t.down.sent = handler command ++ [10]) ∧
    (Finished t ∨ CanProgress code handler upSize downSize t) := by
  have hcomplete : Complete handler command t :=
    hrun.invariant (fun _ _ _ h hok hstep =>
      complete_step hcommand hresponse hlen h hok (move_of_step hstep))
      (complete_connected handler command)
  have hline := line_command hcommand
  refine ⟨?_, ?_, hcomplete.client, fun response hreturned => ?_, hcomplete.server, ?_⟩
  · have hbound := progress_le hrun (inv_connected handler command)
    rw [rank_connected, responseSize, hline] at hbound
    omega
  · obtain ⟨hnone, -⟩ | ⟨hcalls, -⟩ := hcomplete.inv.calls_cases
    · exact .inl hnone
    · exact .inr (hline ▸ hcalls)
  · exact hcomplete.answered hcommand hresponse hreturned
  · by_cases hfinished : Finished t
    · exact .inl hfinished
    · exact .inr (hcomplete.inv.canProgress hup hdown hfinished
        (hcomplete.inv.not_deadlocked hcommand))

instance (code : ClientCode) (s : State) : (a : Label) → Decidable (Faultless code s a)
  | .clientWrite .failed => inferInstanceAs (Decidable (s.server = .closed))
  | .clientWrite .interrupted | .clientRead .interrupted =>
      inferInstanceAs (Decidable (code.retries = true))
  | .clientRead .failed | .serverRead .failed => inferInstanceAs (Decidable False)
  | .serverWrite .failed => inferInstanceAs (Decidable (s.client.ended = true))
  | .clientWrite (.bytes _) | .clientRead .closed | .clientRead (.bytes _)
  | .serverRead .interrupted | .serverRead .closed | .serverRead (.bytes _)
  | .serverDrop | .serverWrite .interrupted | .serverWrite (.bytes _) | .serverClose =>
      inferInstanceAs (Decidable True)

/-- `ping` in two writes, with an interrupted call on either side. -/
def pingLabels : List Label :=
  [.clientWrite (.bytes 2), .serverRead .interrupted, .serverRead (.bytes (text "pi")),
    .clientWrite .interrupted, .clientWrite (.bytes 3), .serverRead (.bytes (text "ng\n")),
    .serverWrite (.bytes 5), .serverClose, .clientRead (.bytes (text "pong\n"))]

theorem ping_answered :
    ∃ t, Run (step sendRequest (fun _ => text "pong") 8 8) (Faultless sendRequest)
      (connected (text "ping")) pingLabels t ∧ t.client = .returned (text "pong") ∧
      t.calls = [text "ping"] ∧ t.down.sent = text "pong" ++ [10] := by
  obtain ⟨t, hrun, hclient⟩ := Run.of_exec_any (step sendRequest (fun _ => text "pong") 8 8)
    (Faultless sendRequest) (connected (text "ping")) pingLabels
    (fun t => t.client = .returned (text "pong") ∧ t.server = .closed) (by decide)
  obtain ⟨hreturned, hclosed⟩ : t.client = .returned (text "pong") ∧ t.server = .closed :=
    of_decide_eq_true hclient
  have hanswered := request_answered (by decide) (by decide) (by decide)
    (by decide) (by decide) hrun
  exact ⟨t, hrun, hreturned, hanswered.2.2.2.2.1 (.inr hclosed)⟩

end Progress

end AgentPulse.Exchange
