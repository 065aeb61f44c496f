import AgentPulse.Text
import Mathlib.Data.List.TakeWhile

/-!
# Serving a connection

`SocketServer::serve_connection`: the loop that reads a request line, the call
of the handler and the loop that writes the response. The size is checked
before a read only, so a line below the limit is read however it arrives, and a
longer one is read or dropped depending on the reads.
-/

namespace AgentPulse.SocketServer

/-- `kMaxRequestBytes`. -/
def maxRequestBytes : Nat := 64 * 1024

/-- The size of the buffer of a read. -/
def bufferBytes : Nat := 1024

/-- The outcome of one `read`. -/
inductive ReadResult where
  | interrupted
  | failed
  | closed
  | bytes (chunk : Bytes)

/-- The request the handler is called with, from the bytes read so far; `none`
is a connection that is dropped or waits for more. -/
def readRequest (request : Bytes) : List ReadResult → Option Bytes
  | [] => none
  | r :: rest =>
      if maxRequestBytes ≤ request.length then none
      else match r with
        | .interrupted => readRequest request rest
        | .failed => none
        | .closed => none
        | .bytes chunk =>
            if 10 ∈ request ++ chunk then some ((request ++ chunk).takeWhile (· != 10))
            else readRequest (request ++ chunk) rest

/-- The outcome of one `write`. -/
inductive WriteResult where
  | interrupted
  | failed
  | bytes (n : Nat)

/-- What is written of the rest of a response. -/
def writeResponse (response : Bytes) : List WriteResult → Bytes
  | [] => []
  | w :: rest =>
      if response = [] then []
      else match w with
        | .interrupted => writeResponse response rest
        | .failed => []
        | .bytes n => response.take n ++ writeResponse (response.drop n) rest

/-- `SocketServer::serve_connection`: the requests the handler is called with
and the bytes written to the client. -/
def serveConnection (handler : Bytes → Bytes) (reads : List ReadResult)
    (writes : List WriteResult) : List Bytes × Bytes :=
  match readRequest [] reads with
  | none => ([], [])
  | some request => ([request], writeResponse (handler request ++ [10]) writes)

/-- The reads bring a stream in chunks of the buffer's size at most, with any
interruptions; the client then waits or closes. -/
inductive Delivers : Bytes → List ReadResult → Prop
  | waiting : Delivers [] []
  | closed : Delivers [] [.closed]
  | interrupted {stream : Bytes} {reads : List ReadResult} (h : Delivers stream reads) :
      Delivers stream (.interrupted :: reads)
  | chunk {stream : Bytes} {reads : List ReadResult} (chunk : Bytes) (hne : chunk ≠ [])
      (hlen : chunk.length ≤ bufferBytes) (h : Delivers stream reads) :
      Delivers (chunk ++ stream) (.bytes chunk :: reads)

section Lines

variable {line rest p q stream : Bytes} {reads : List ReadResult}

theorem takeWhile_append_of_not_mem (hline : 10 ∉ line) :
    (line ++ q).takeWhile (· != 10) = line ++ q.takeWhile (· != 10) := by
  apply List.takeWhile_append_of_pos
  intro b hb
  simpa using fun h : b = 10 => hline (h ▸ hb)

/-- The bytes before the first newline. -/
theorem takeWhile_line (hline : 10 ∉ line) : (line ++ 10 :: rest).takeWhile (· != 10) = line := by
  rw [takeWhile_append_of_not_mem hline, List.takeWhile_cons_of_neg (by simp), List.append_nil]

/-- Bytes without a newline are within the line. -/
theorem length_le_line (hline : 10 ∉ line) :
    line.length ≤ ((line ++ q).takeWhile (· != 10)).length := by
  rw [takeWhile_append_of_not_mem hline, List.length_append]
  exact Nat.le_add_right _ _

/-- A stream with a newline is a line and what follows. -/
theorem eq_line_append (h : 10 ∈ stream) :
    ∃ rest, stream = stream.takeWhile (· != 10) ++ 10 :: rest := by
  induction stream with
  | nil => simp at h
  | cons b stream ih =>
      by_cases hb : b = 10
      · exact ⟨stream, by simp [hb]⟩
      · obtain ⟨rest, hrest⟩ := ih (List.mem_of_ne_of_mem (Ne.symm hb) h)
        refine ⟨rest, ?_⟩
        rw [List.takeWhile_cons_of_pos (by simpa using hb), List.cons_append, ← hrest]

theorem not_mem_takeWhile : (10 : UInt8) ∉ stream.takeWhile (· != 10) := by
  intro h
  simpa using List.mem_takeWhile_imp h

/-- What follows a newline does not matter for the line. -/
theorem takeWhile_append_line (h : 10 ∈ p) :
    (p ++ q).takeWhile (· != 10) = p.takeWhile (· != 10) := by
  obtain ⟨rest, hp⟩ := eq_line_append h
  calc (p ++ q).takeWhile (· != 10)
      = (p.takeWhile (· != 10) ++ 10 :: (rest ++ q)).takeWhile (· != 10) := by
        rw [← List.cons_append, ← List.append_assoc, ← hp]
    _ = p.takeWhile (· != 10) := takeWhile_line not_mem_takeWhile

end Lines

section Reading

variable {request stream line : Bytes} {reads : List ReadResult}

/-- A request that is read is the first line of the stream. -/
theorem line_of_readRequest (h : Delivers stream reads) (hread : readRequest request reads = some line) :
    10 ∈ request ++ stream ∧ line = (request ++ stream).takeWhile (· != 10) := by
  induction h generalizing request with
  | waiting => simp [readRequest] at hread
  | closed =>
      rw [readRequest] at hread
      split_ifs at hread
  | interrupted h ih =>
      rw [readRequest] at hread
      split_ifs at hread
      exact ih hread
  | chunk chunk hne hlen h ih =>
      rw [readRequest] at hread
      rw [← List.append_assoc]
      split_ifs at hread with hfull hnewline
      · rw [takeWhile_append_line hnewline]
        exact ⟨List.mem_append_left _ hnewline, (Option.some.inj hread).symm⟩
      · exact ih hread

/-- A line below the limit is read, however it arrives. -/
theorem readRequest_of_lt (h : Delivers stream reads) (hrequest : 10 ∉ request)
    (hnewline : 10 ∈ request ++ stream)
    (hlt : ((request ++ stream).takeWhile (· != 10)).length < maxRequestBytes) :
    readRequest request reads = some ((request ++ stream).takeWhile (· != 10)) := by
  induction h generalizing request with
  | waiting => exact absurd hnewline (by simpa using hrequest)
  | closed => exact absurd hnewline (by simpa using hrequest)
  | interrupted h ih =>
      have hroom : ¬ maxRequestBytes ≤ request.length :=
        not_le.mpr ((length_le_line hrequest).trans_lt hlt)
      rw [readRequest, if_neg hroom]
      exact ih hrequest hnewline hlt
  | chunk chunk hne hlen h ih =>
      have hroom : ¬ maxRequestBytes ≤ request.length :=
        not_le.mpr ((length_le_line hrequest).trans_lt hlt)
      rw [readRequest, if_neg hroom]
      rw [← List.append_assoc] at hnewline hlt ⊢
      by_cases hchunk : 10 ∈ request ++ chunk
      · simp only [if_pos hchunk, takeWhile_append_line hchunk]
      · simp only [if_neg hchunk]
        exact ih hchunk hnewline hlt

/-- Every beginning of a stream can arrive byte by byte. -/
theorem Delivers.bytes_append (l : Bytes) (h : Delivers stream reads) :
    Delivers (l ++ stream) (l.map (fun b => .bytes [b]) ++ reads) := by
  induction l with
  | nil => exact h
  | cons b l ih => exact .chunk [b] (by simp) (by simp [bufferBytes]) ih

/-- So can a whole stream. -/
theorem delivers_bytes (stream : Bytes) : Delivers stream (stream.map fun b => .bytes [b]) := by
  simpa using Delivers.bytes_append stream .waiting

/-- With full reads the limit is reached without a newline. -/
theorem full_reads (n : Nat) (hrequest : request.length + n * bufferBytes = maxRequestBytes)
    (hlen : n * bufferBytes ≤ stream.length) (hnewline : 10 ∉ request ++ stream.take (n * bufferBytes)) :
    ∃ reads, Delivers stream reads ∧ readRequest request reads = none := by
  induction n generalizing request stream with
  | zero =>
      refine ⟨_, delivers_bytes stream, ?_⟩
      cases stream with
      | nil => rfl
      | cons b stream =>
          rw [List.map_cons, readRequest, if_pos (by omega)]
  | succ n ih =>
      rw [Nat.succ_mul] at hrequest hlen hnewline
      have hchunk : (stream.take bufferBytes).length = bufferBytes := by
        rw [List.length_take]
        omega
      have hpos : 0 < bufferBytes := by decide
      have hsplit : stream.take (n * bufferBytes + bufferBytes) =
          stream.take bufferBytes ++ (stream.drop bufferBytes).take (n * bufferBytes) := by
        rw [Nat.add_comm, List.take_add]
      rw [hsplit, ← List.append_assoc] at hnewline
      have hsize : (request ++ stream.take bufferBytes).length + n * bufferBytes =
          maxRequestBytes := by
        rw [List.length_append, hchunk]
        omega
      have hrest : n * bufferBytes ≤ (stream.drop bufferBytes).length := by
        rw [List.length_drop]
        omega
      obtain ⟨reads, hreads, hnone⟩ := ih hsize hrest hnewline
      refine ⟨.bytes (stream.take bufferBytes) :: reads, ?_, ?_⟩
      · have hdelivers := Delivers.chunk (stream.take bufferBytes)
          (List.ne_nil_of_length_pos (by omega)) hchunk.le hreads
        rwa [List.take_append_drop] at hdelivers
      · have hno : 10 ∉ request ++ stream.take bufferBytes := fun h =>
          hnewline (List.mem_append_left _ h)
        rw [readRequest, if_neg (by omega)]
        simp only [if_neg hno, hnone]

/-- A line is read in every way it can arrive exactly if it is below the limit. -/
theorem forall_readRequest_iff (hline : 10 ∉ line) (rest : Bytes) :
    (∀ reads, Delivers (line ++ 10 :: rest) reads → readRequest [] reads = some line) ↔
      line.length < maxRequestBytes := by
  constructor
  · intro h
    by_contra hlong
    have hmax : 64 * bufferBytes = maxRequestBytes := rfl
    have htake : (line ++ 10 :: rest).take (64 * bufferBytes) = line.take (64 * bufferBytes) :=
      List.take_append_of_le_length (by omega)
    have hsize : ([] : Bytes).length + 64 * bufferBytes = maxRequestBytes := rfl
    have hlen : 64 * bufferBytes ≤ (line ++ 10 :: rest).length := by
      rw [List.length_append]
      omega
    have hnewline : 10 ∉ [] ++ (line ++ 10 :: rest).take (64 * bufferBytes) := by
      rw [htake, List.nil_append]
      exact fun hmem => hline (List.mem_of_mem_take hmem)
    obtain ⟨reads, hreads, hnone⟩ := full_reads 64 hsize hlen hnewline
    rw [h reads hreads] at hnone
    cases hnone
  · intro hlt reads hreads
    have hread := readRequest_of_lt hreads List.not_mem_nil
      (by simp : 10 ∈ [] ++ (line ++ 10 :: rest))
      (by rwa [List.nil_append, takeWhile_line hline])
    rwa [List.nil_append, takeWhile_line hline] at hread

end Reading

end AgentPulse.SocketServer
