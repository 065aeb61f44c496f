import AgentPulse.Ipc.RequestAnswered

/-!
# When the two ends wait for each other

A client writes its whole command before it reads, and the connection answers at
the first newline. With bytes after that newline both may write into full
streams. This module says exactly for which commands, responses and stream sizes.
-/

namespace AgentPulse.Exchange

open SocketServer (ReadResult WriteResult maxRequestBytes bufferBytes)
open Transition

variable {code : ClientCode} {handler : Bytes → Bytes} {upSize downSize : Nat} {command : Bytes}

/-- The bounds on what is in flight and on what the connection reads. -/
structure Sizes (upSize : Nat) (s : State) : Prop where
  up : s.up.buffer.length ≤ upSize
  received : s.up.received.length < maxRequestBytes + min bufferBytes upSize

theorem sizes_connected (upSize : Nat) (command : Bytes) : Sizes upSize (connected command) where
  up := Nat.zero_le _
  received := Nat.add_pos_left (by decide) _

theorem sizes_step {s t : State} {a : Label} (hinv : Inv handler command s) (h : Sizes upSize s)
    (hmove : Move code handler upSize downSize s a t) : Sizes upSize t := by
  cases hmove with
  | clientWrite rest w hclient hcan =>
      cases w with
      | interrupted =>
          rw [clientWriteStep]
          split_ifs <;> exact ⟨h.up, h.received⟩
      | failed => exact ⟨h.up, h.received⟩
      | bytes n =>
          refine ⟨?_, h.received⟩
          rw [clientWriteStep, Conduit.length_buffer_write, List.length_take, min_eq_left hcan.2.1]
          exact hcan.2.2.1
  | clientRead response r hclient hcan =>
      cases r with
      | interrupted =>
          rw [clientReadStep]
          split_ifs <;> exact ⟨h.up, h.received⟩
      | failed => exact ⟨h.up, h.received⟩
      | closed => exact ⟨h.up, h.received⟩
      | bytes chunk => exact ⟨h.up, h.received⟩
  | serverRead request r hserver hroom hcan =>
      cases r with
      | interrupted => exact ⟨h.up, h.received⟩
      | failed => exact ⟨h.up, h.received⟩
      | closed => exact ⟨h.up, h.received⟩
      | bytes chunk =>
          have hchunk : chunk.length ≤ s.up.buffer.length := hcan.2.2.length_le
          have hbuffer := hcan.2.1
          have hup := h.up
          have hread : (serverReadStep handler s request (.bytes chunk)).up =
              s.up.read chunk.length := by
            simp only [serverReadStep]
            split_ifs <;> rfl
          refine ⟨?_, ?_⟩
          · rw [hread, Conduit.length_buffer_read]
            omega
          · rw [hread, Conduit.received_read, Conduit.take_of_prefix hcan.2.2,
              (hinv.of_reading hserver).1, List.length_append]
            omega
  | serverDrop request hserver hfull => exact ⟨h.up, h.received⟩
  | serverWrite rest w hserver hcan => cases w <;> exact ⟨h.up, h.received⟩
  | serverClose hserver => exact ⟨h.up, h.received⟩

theorem sizes_of_run {ok : State → Label → Prop} {labels : List Label} {t : State}
    (h : Run (step code handler upSize downSize) ok (connected command) labels t) :
    Sizes upSize t := by
  have hboth : Inv handler command t ∧ Sizes upSize t :=
    h.invariant (I := fun s => Inv handler command s ∧ Sizes upSize s)
      (fun _ _ _ hs _ hstep => ⟨inv_step hs.1 (move_of_step hstep),
        sizes_step hs.1 hs.2 (move_of_step hstep)⟩)
      ⟨inv_connected handler command, sizes_connected upSize command⟩
  exact hboth.2

section Reached

theorem run_move {s t : State} {a : Label} (h : Move code handler upSize downSize s a t)
    (hok : Faultless code s a) :
    Run (step code handler upSize downSize) (Faultless code) s [a] t :=
  .cons hok (step_of_move h) (.nil t)

variable (code handler downSize)

/-- The client sends a chunk and the connection reads it at once. -/
theorem run_chunk {s : State} (chunk : Bytes) {rest request : Bytes}
    (hclient : s.client = .writing (chunk ++ rest))
    (hrest : rest ≠ []) (hserver : s.server = .reading request) (hup : s.up.buffer = [])
    (hne : chunk ≠ []) (hroom : request.length < maxRequestBytes)
    (hsize : chunk.length ≤ min bufferBytes upSize) :
    ∃ labels t, Run (step code handler upSize downSize) (Faultless code) s labels t ∧
      t.client = .writing rest ∧ t.up.buffer = [] ∧ t.down = s.down ∧
      t.server = if 10 ∈ request ++ chunk then .writing (handler (line (request ++ chunk)) ++ [10])
        else .reading (request ++ chunk) := by
  have hwrite : Move code handler upSize downSize s (.clientWrite (.bytes chunk.length))
      (clientWriteStep code s (chunk ++ rest) (.bytes chunk.length)) := by
    refine .clientWrite _ _ hclient ⟨List.length_pos_iff.mpr hne, ?_, ?_, ?_⟩
    · rw [List.length_append]
      exact Nat.le_add_right _ _
    · rw [hup, List.length_nil, Nat.zero_add]
      exact hsize.trans (min_le_right _ _)
    · simp [hserver]
  have hmiddle : clientWriteStep code s (chunk ++ rest) (.bytes chunk.length) =
      { s with client := .writing rest, up := s.up.write chunk } := by
    simp only [clientWriteStep, List.drop_left, List.take_left, Client.afterWrite, if_neg hrest]
  rw [hmiddle] at hwrite
  have hbuffer : (s.up.write chunk).buffer = chunk := by
    rw [Conduit.write, hup, List.nil_append]
  have hread : Move code handler upSize downSize
      { s with client := .writing rest, up := s.up.write chunk } (.serverRead (.bytes chunk))
      (serverReadStep handler { s with client := .writing rest, up := s.up.write chunk } request
        (.bytes chunk)) := by
    have hstart : chunk <+: (s.up.write chunk).buffer := hbuffer.symm ▸ List.prefix_rfl
    exact .serverRead request _ hserver hroom ⟨hne, hsize.trans (min_le_left _ _), hstart⟩
  refine ⟨_, _, (run_move hwrite trivial).append (run_move hread trivial), ?_, ?_, ?_, ?_⟩
  · simp only [serverReadStep]
    split_ifs <;> rfl
  · have hdrained : ((s.up.write chunk).read chunk.length).buffer = [] := by
      rw [Conduit.read, hbuffer, List.drop_length]
    simp only [serverReadStep]
    split_ifs <;> exact hdrained
  · simp only [serverReadStep]
    split_ifs <;> rfl
  · simp only [serverReadStep]
    split_ifs <;> rfl

/-- Text without a newline can be sent and read byte by byte. -/
theorem run_bytes {s : State} {start rest request : Bytes} (hup : 0 < upSize)
    (hclient : s.client = .writing (start ++ rest)) (hrest : rest ≠ [])
    (hserver : s.server = .reading request) (hbuffer : s.up.buffer = [])
    (hroom : request.length + start.length ≤ maxRequestBytes) (hline : 10 ∉ request ++ start) :
    ∃ labels t, Run (step code handler upSize downSize) (Faultless code) s labels t ∧
      t.client = .writing rest ∧ t.up.buffer = [] ∧ t.down = s.down ∧
      t.server = .reading (request ++ start) := by
  induction start generalizing s request with
  | nil => exact ⟨[], s, .nil s, hclient, hbuffer, rfl, by rw [hserver, List.append_nil]⟩
  | cons b start ih =>
      have hsplit : request ++ b :: start = request ++ [b] ++ start := by
        rw [List.append_assoc, List.singleton_append]
      rw [hsplit] at hline ⊢
      rw [List.length_cons] at hroom
      have hone : [b].length ≤ min bufferBytes upSize :=
        le_min (by simp [bufferBytes]) hup
      obtain ⟨labels, m, hrun, hclient', hbuffer', hdown', hserver'⟩ :=
        run_chunk code handler downSize [b] hclient (by simp [hrest]) hserver hbuffer (by simp)
          (by omega) hone
      rw [if_neg fun hmem => hline (List.mem_append_left _ hmem)] at hserver'
      obtain ⟨labels', t, hrun', hclient'', hbuffer'', hdown'', hserver''⟩ :=
        ih hclient' hserver' hbuffer' (by simp; omega) hline
      exact ⟨labels ++ labels', t, hrun.append hrun', hclient'', hbuffer'', hdown''.trans hdown',
        hserver''⟩

end Reached

theorem length_line_lt {p : Bytes} (hnewline : 10 ∈ p) : (line p).length < p.length := by
  obtain ⟨rest, hp⟩ := SocketServer.eq_line_append hnewline
  have hlength := congrArg List.length hp
  rw [List.length_append, List.length_cons] at hlength
  rw [line]
  omega

/-- What a deadlock says about the command, the response and the streams. -/
theorem Inv.of_deadlocked {s : State} (hinv : Inv handler command s) (hsizes : Sizes upSize s)
    (h : Deadlocked upSize downSize s) :
    upSize + (line command).length < command.length ∧
      downSize ≤ (handler (line command)).length ∧
      (line command).length + 1 < maxRequestBytes + min bufferBytes upSize := by
  obtain ⟨rest, rest', hclient, hserver, hup, hdown⟩ := h
  have hline := hinv.line_received
  rw [line_append_newline] at hline
  have hreceived := hsizes.received
  have hsentUp : s.up.sent.length = s.up.received.length + s.up.buffer.length := List.length_append
  have hsentDown : s.down.sent.length = s.down.received.length + s.down.buffer.length :=
    List.length_append
  have hclientOk := hinv.client
  rw [hclient] at hclientOk
  have hserverOk := hinv.server
  rw [hserver] at hserverOk
  generalize s.up.sent = sent at hclientOk hsentUp
  generalize s.down.received = received at hclientOk hsentDown
  generalize s.up.received = request at hserverOk hline hreceived hsentUp
  generalize s.down.sent = written at hserverOk hsentDown
  generalize s.calls = calls at hserverOk
  cases hserverOk with
  | dropped hended => simp at hended
  | answered hended => simp at hended
  | writing hne' hnewline hwritten =>
      cases hclientOk with
      | writing hne hsent =>
          have hshort := length_line_lt hnewline
          rw [hline hnewline] at hwritten hshort
          have hcommand := congrArg List.length hsent
          have hresponse := congrArg List.length hwritten
          rw [List.length_append, List.length_append, List.length_singleton] at hcommand hresponse
          have hpos := List.length_pos_iff.mpr hne
          have hpos' := List.length_pos_iff.mpr hne'
          refine ⟨?_, ?_, ?_⟩ <;> omega

/-- The client sends its first line in pieces the connection reads at once, and
then both write. -/
theorem exists_both_writing (code : ClientCode) (handler : Bytes → Bytes) (downSize : Nat)
    {after : Bytes} (hup : 0 < upSize)
    (hsplit : command = line command ++ 10 :: after)
    (hlimit : (line command).length + 1 < maxRequestBytes + min bufferBytes upSize) :
    ∃ labels t,
      Run (step code handler upSize downSize) (Faultless code) (connected command) labels t ∧
      t.client = .writing (after ++ [10]) ∧ t.server = .writing (handler (line command) ++ [10]) ∧
      t.up.buffer = [] ∧ t.down.buffer = [] := by
  have hplain : 10 ∉ line command := SocketServer.not_mem_takeWhile
  have hbuffer : 0 < min bufferBytes upSize := lt_min (by decide) hup
  have hmax : 0 < maxRequestBytes := by decide
  obtain ⟨start, last, hline, hstart, hlast⟩ : ∃ start last, line command = start ++ last ∧
      start.length < maxRequestBytes ∧ last.length + 1 ≤ min bufferBytes upSize := by
    refine ⟨_, _, (List.take_append_drop (maxRequestBytes - 1) (line command)).symm, ?_, ?_⟩
    · rw [List.length_take]
      omega
    · rw [List.length_drop]
      omega
  have hwhole : command ++ [10] = start ++ (last ++ [10] ++ (after ++ [10])) := by
    rw [hsplit, hline]
    simp
  obtain ⟨labels₁, s₁, hrun₁, hclient₁, hbuffer₁, hdown₁, hserver₁⟩ :=
    run_bytes code handler downSize (s := connected command) hup (congrArg Client.writing hwhole)
      (by simp) rfl rfl (by simpa using hstart.le)
      (fun hmem => hplain (hline ▸ List.mem_append_left last hmem))
  obtain ⟨labels₂, s₂, hrun₂, hclient₂, hbuffer₂, hdown₂, hserver₂⟩ :=
    run_chunk code handler downSize (last ++ [10]) hclient₁ (by simp) hserver₁ hbuffer₁ (by simp)
      hstart (by simpa using hlast)
  have hrequest : line (start ++ (last ++ [10])) = line command := by
    rw [← List.append_assoc, ← hline, line_command hplain]
  rw [List.nil_append, if_pos (by simp), hrequest] at hserver₂
  refine ⟨_, _, hrun₁.append hrun₂, hclient₂, hserver₂, hbuffer₂, ?_⟩
  rw [hdown₂, hdown₁]
  rfl

/-- The client fills the stream to the server. -/
theorem run_fill_up (code : ClientCode) (handler : Bytes → Bytes) (downSize : Nat) {s : State}
    {rest : Bytes} (hup : 0 < upSize) (hclient : s.client = .writing rest)
    (hserver : s.server ≠ .closed) (hbuffer : s.up.buffer = []) (hrest : upSize < rest.length) :
    ∃ labels t, Run (step code handler upSize downSize) (Faultless code) s labels t ∧
      t.client = .writing (rest.drop upSize) ∧ t.up.buffer.length = upSize ∧
      t.server = s.server ∧ t.down = s.down := by
  have hmove : Move code handler upSize downSize s (.clientWrite (.bytes upSize))
      (clientWriteStep code s rest (.bytes upSize)) := by
    refine .clientWrite _ _ hclient ⟨hup, hrest.le, ?_, by simp [hserver]⟩
    rw [hbuffer, List.length_nil, Nat.zero_add]
  refine ⟨_, _, run_move hmove trivial, ?_, ?_, rfl, rfl⟩
  · have hmore : rest.drop upSize ≠ [] := by
      rw [Ne, List.drop_eq_nil_iff]
      omega
    simp only [clientWriteStep, Client.afterWrite, if_neg hmore]
  · rw [clientWriteStep, Conduit.length_buffer_write, List.length_take, hbuffer, List.length_nil]
    omega

/-- The connection fills the stream to the client. -/
theorem run_fill_down (code : ClientCode) (handler : Bytes → Bytes) (upSize : Nat) {s : State}
    {rest : Bytes} (hdown : 0 < downSize) (hserver : s.server = .writing rest)
    (hclient : s.client.ended = false) (hbuffer : s.down.buffer = [])
    (hrest : downSize < rest.length) :
    ∃ labels t, Run (step code handler upSize downSize) (Faultless code) s labels t ∧
      t.server = .writing (rest.drop downSize) ∧ t.down.buffer.length = downSize ∧
      t.client = s.client ∧ t.up = s.up := by
  have hmove : Move code handler upSize downSize s (.serverWrite (.bytes downSize))
      (serverWriteStep s rest (.bytes downSize)) := by
    refine .serverWrite _ _ hserver ⟨hdown, hrest.le, ?_, hclient⟩
    rw [hbuffer, List.length_nil, Nat.zero_add]
  refine ⟨_, _, run_move hmove trivial, ?_, ?_, rfl, rfl⟩
  · have hmore : rest.drop downSize ≠ [] := by
      rw [Ne, List.drop_eq_nil_iff]
      omega
    simp only [serverWriteStep, Connection.afterWrite, if_neg hmore]
  · rw [serverWriteStep, Conduit.length_buffer_write, List.length_take, hbuffer, List.length_nil]
    omega

/-- The sizes suffice for a deadlock. -/
theorem exists_deadlocked (code : ClientCode) (hup : 0 < upSize) (hdown : 0 < downSize)
    (hcommand : upSize + (line command).length < command.length)
    (hresponse : downSize ≤ (handler (line command)).length)
    (hlimit : (line command).length + 1 < maxRequestBytes + min bufferBytes upSize) :
    ∃ labels t,
      Run (step code handler upSize downSize) (Faultless code) (connected command) labels t ∧
      Deadlocked upSize downSize t := by
  have hnewline : 10 ∈ command := by
    by_contra hnot
    rw [line_of_not_mem hnot] at hcommand
    omega
  obtain ⟨after, hsplit⟩ := SocketServer.eq_line_append hnewline
  rw [← line] at hsplit
  have hlength := congrArg List.length hsplit
  rw [List.length_append, List.length_cons] at hlength
  obtain ⟨labels₁, s₁, hrun₁, hclient₁, hserver₁, hup₁, hdown₁⟩ :=
    exists_both_writing code handler downSize hup hsplit hlimit
  obtain ⟨labels₂, s₂, hrun₂, hclient₂, hup₂, hserver₂, hdown₂⟩ :=
    run_fill_up code handler downSize hup hclient₁ (by simp [hserver₁]) hup₁
      (by rw [List.length_append, List.length_singleton]; omega)
  rw [hserver₁] at hserver₂
  obtain ⟨labels₃, s₃, hrun₃, hserver₃, hdown₃, hclient₃, hup₃⟩ :=
    run_fill_down code handler upSize hdown hserver₂ (by rw [hclient₂, Client.ended])
      (by rw [hdown₂, hdown₁]) (by rw [List.length_append, List.length_singleton]; omega)
  exact ⟨_, _, hrun₁.append (hrun₂.append hrun₃), _, _, hclient₃.trans hclient₂, hserver₃,
    by rw [hup₃, hup₂], hdown₃.ge⟩

/-- Two parties that both write into full streams have no step but an
interrupted call. -/
theorem Deadlocked.not_canProgress {s : State} (h : Deadlocked upSize downSize s) :
    ¬ CanProgress code handler upSize downSize s := by
  obtain ⟨rest, rest', hclient, hserver, hup, hdown⟩ := h
  rintro ⟨a, t, hprogress, hok, hstep⟩
  cases move_of_step hstep with
  | clientWrite rest w hwriting hcan =>
      cases w with
      | interrupted => cases hprogress
      | failed =>
          have hclosed : s.server = .closed := hok
          rw [hserver] at hclosed
          cases hclosed
      | bytes n =>
          obtain ⟨hpos, -, hroom, -⟩ := hcan
          omega
  | clientRead response r hreading hcan =>
      rw [hclient] at hreading
      cases hreading
  | serverRead request r hreading hroom hcan =>
      rw [hserver] at hreading
      cases hreading
  | serverDrop request hreading hfull =>
      rw [hserver] at hreading
      cases hreading
  | serverWrite rest w hwriting hcan =>
      cases w with
      | interrupted => cases hprogress
      | failed =>
          have hended : s.client.ended = true := hok
          rw [hclient] at hended
          cases hended
      | bytes n =>
          obtain ⟨hpos, -, hroom, -⟩ := hcan
          omega
  | serverClose hreturning =>
      rw [hserver] at hreturning
      cases hreturning

/-- The two ends can come to wait for each other, with an end still open and no
step but an interrupted call, exactly if the command has at least as many bytes
after its first newline as the stream to the server holds, the response to its
first line has at least as many as the stream back holds, and the connection can
read that newline within its limit. -/
theorem deadlock_iff (code : ClientCode) (hup : 0 < upSize) (hdown : 0 < downSize) :
    (∃ labels t,
      Run (step code handler upSize downSize) (Faultless code) (connected command) labels t ∧
      ¬ Finished t ∧ ¬ CanProgress code handler upSize downSize t) ↔
    upSize + (line command).length < command.length ∧
      downSize ≤ (handler (line command)).length ∧
      (line command).length + 1 < maxRequestBytes + min bufferBytes upSize := by
  constructor
  · rintro ⟨labels, t, hrun, hfinished, hstuck⟩
    refine (inv_of_run hrun).of_deadlocked (sizes_of_run hrun) ?_
    by_contra hnot
    exact hstuck ((inv_of_run hrun).canProgress hup hdown hfinished hnot)
  · rintro ⟨hcommand, hresponse, hlimit⟩
    obtain ⟨labels, t, hrun, hdeadlocked⟩ :=
      exists_deadlocked code hup hdown hcommand hresponse hlimit
    refine ⟨labels, t, hrun, ?_, hdeadlocked.not_canProgress⟩
    rintro ⟨hended, -⟩
    obtain ⟨rest, rest', hclient, -⟩ := hdeadlocked
    rw [hclient] at hended
    cases hended

theorem two_lines_deadlock :
    ∃ labels t, Run (step socketClient (fun _ => text "pong") 2 2) (Faultless socketClient)
      (connected (text "ping\nping")) labels t ∧
      ¬ Finished t ∧ ¬ CanProgress socketClient (fun _ => text "pong") 2 2 t :=
  (deadlock_iff socketClient (by decide) (by decide)).mpr (by decide)

end AgentPulse.Exchange
