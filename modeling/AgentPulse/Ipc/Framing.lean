import AgentPulse.Ipc.SocketServer

/-!
# Framing and packet boundaries

A request is framed independently of the packets it arrives in if its newline
comes below the limit, or beyond the reach of a read that starts below it.
Between the two the request is answered or dropped depending on the packets.
-/

namespace AgentPulse.SocketServer

/-- The index of the first newline, which is the length of a stream without one. -/
def newlineIndex (stream : Bytes) : Nat := stream.idxOf 10

/-- The requests a stream makes: the bytes before its first newline, if that
comes below the limit. -/
def framed (stream : Bytes) : List Bytes :=
  if newlineIndex stream < stream.length ∧ newlineIndex stream < maxRequestBytes then
    [stream.take (newlineIndex stream)]
  else []

/-- The bytes one read brings. -/
def ReadResult.length : ReadResult → Nat
  | .bytes chunk => chunk.length
  | _ => 0

/-- The bytes some reads bring. -/
def received : List ReadResult → Nat
  | [] => 0
  | r :: reads => r.length + received reads

/-- A read that starts below the limit brings the byte at an index. -/
def Reaches (index : Nat) (start : Nat) (reads : List ReadResult) : Prop :=
  ∃ before chunk after, reads = before ++ .bytes chunk :: after ∧
    start + received before < maxRequestBytes ∧ index < start + received before + chunk.length

/-- A read that starts below the limit brings a first newline at or beyond it. -/
def Overshoots (stream : Bytes) (reads : List ReadResult) : Prop :=
  maxRequestBytes ≤ newlineIndex stream ∧ Reaches (newlineIndex stream) 0 reads

/-- The first newline is at or beyond the limit and within the reach of a read
that starts below it. -/
def Late (stream : Bytes) : Prop :=
  maxRequestBytes ≤ newlineIndex stream ∧ newlineIndex stream < stream.length ∧
    newlineIndex stream + 1 < maxRequestBytes + bufferBytes

section Reaching

variable {index start : Nat} {r : ReadResult} {reads : List ReadResult} {chunk : Bytes}

@[simp] theorem received_cons : received (r :: reads) = r.length + received reads := rfl

theorem not_reaches_nil : ¬ Reaches index start [] := by
  rintro ⟨before, chunk, after, h, -⟩
  simp at h

/-- No read starts below the limit once it is reached. -/
theorem not_reaches_of_full (h : maxRequestBytes ≤ start) : ¬ Reaches index start reads := by
  rintro ⟨before, chunk, after, -, hstart, -⟩
  omega

/-- The first read that brings the byte is the first one or a later one. -/
theorem reaches_cons :
    Reaches index start (r :: reads) ↔
      (∃ chunk, r = .bytes chunk ∧ start < maxRequestBytes ∧ index < start + chunk.length) ∨
        Reaches index (start + r.length) reads := by
  constructor
  · rintro ⟨before, chunk, after, hreads, hstart, hindex⟩
    obtain ⟨rfl, hcons⟩ | ⟨before, rfl, hreads⟩ := List.cons_eq_append_iff.mp hreads
    · obtain ⟨rfl, rfl⟩ := List.cons.inj hcons
      exact .inl ⟨chunk, rfl, hstart, hindex⟩
    · rw [received_cons] at hstart hindex
      exact .inr ⟨before, chunk, after, (List.cons.inj hreads).2, by omega, by omega⟩
  · rintro (⟨chunk, rfl, hstart, hindex⟩ | ⟨before, chunk, after, rfl, hstart, hindex⟩)
    · exact ⟨[], chunk, reads, rfl, hstart, hindex⟩
    · exact ⟨r :: before, chunk, after, rfl, by rw [received_cons]; omega,
        by rw [received_cons]; omega⟩

/-- Equal reads that stop short of the byte only move the start. -/
theorem reaches_replicate {n : Nat} (h : start + n * chunk.length ≤ index) :
    Reaches index start (List.replicate n (.bytes chunk) ++ reads) ↔
      Reaches index (start + n * chunk.length) reads := by
  induction n generalizing start with
  | zero => simp
  | succ n ih =>
      rw [Nat.succ_mul] at h ⊢
      have hlater := @ih (start + chunk.length) (by omega)
      have hstart : start + chunk.length + n * chunk.length =
          start + (n * chunk.length + chunk.length) := by omega
      rw [List.replicate_succ, List.cons_append, reaches_cons, ← hstart, ← hlater]
      refine or_iff_right ?_
      rintro ⟨c, hc, -, hindex⟩
      obtain rfl := ReadResult.bytes.inj hc
      omega

end Reaching

section Requests

variable {request stream : Bytes} {reads : List ReadResult}

theorem newlineIndex_lt_iff : newlineIndex stream < stream.length ↔ 10 ∈ stream :=
  List.idxOf_lt_length_iff

/-- The bytes before the first newline. -/
theorem takeWhile_eq_take : stream.takeWhile (· != 10) = stream.take (newlineIndex stream) := by
  rw [List.takeWhile_eq_take_findIdx_not]
  simp only [bne, Bool.not_not]
  rfl

theorem newlineIndex_append (h : 10 ∉ request) :
    newlineIndex (request ++ stream) = request.length + newlineIndex stream :=
  List.idxOf_append_of_notMem h

theorem newlineIndex_append_of_mem (h : 10 ∈ request) (stream : Bytes) :
    newlineIndex (request ++ stream) < request.length := by
  rw [newlineIndex, List.idxOf_append_of_mem h]
  exact List.idxOf_lt_length_iff.mpr h

/-- Nothing is read once the limit is reached. -/
theorem readRequest_of_full (h : maxRequestBytes ≤ request.length) :
    readRequest request reads = none := by
  cases reads with
  | nil => rfl
  | cons r reads => cases r <;> exact if_pos h

/-- A request is read exactly if a read that starts below the limit brings its newline. -/
theorem readRequest_isSome_iff (h : Delivers stream reads) (hrequest : 10 ∉ request) :
    (readRequest request reads).isSome ↔
      Reaches (newlineIndex (request ++ stream)) request.length reads := by
  by_cases hfull : maxRequestBytes ≤ request.length
  · rw [readRequest_of_full hfull]
    exact iff_of_false (by simp) (not_reaches_of_full hfull)
  induction h generalizing request with
  | waiting => exact iff_of_false (by simp [readRequest]) not_reaches_nil
  | closed =>
      rw [readRequest, if_neg hfull, reaches_cons]
      refine iff_of_false (by simp) ?_
      rintro (⟨chunk, hchunk, -⟩ | hnil)
      · cases hchunk
      · exact not_reaches_nil hnil
  | interrupted h ih =>
      rw [readRequest, if_neg hfull, reaches_cons]
      simp only [reduceCtorEq, false_and, exists_false, false_or]
      exact ih hrequest hfull
  | @chunk stream reads chunk hne hlen h ih =>
      rw [readRequest, if_neg hfull, reaches_cons, ← List.append_assoc]
      by_cases hnewline : 10 ∈ request ++ chunk
      · have hreach := newlineIndex_append_of_mem hnewline stream
        rw [List.length_append] at hreach
        simp only [if_pos hnewline, Option.isSome_some, true_iff]
        exact .inl ⟨chunk, rfl, not_le.mp hfull, hreach⟩
      · have hbeyond : ¬ newlineIndex (request ++ chunk ++ stream) < request.length + chunk.length := by
          rw [newlineIndex_append hnewline, List.length_append]
          omega
        have hlater : Reaches (newlineIndex (request ++ chunk ++ stream))
            (request.length + (ReadResult.bytes chunk).length) reads ↔
              (readRequest (request ++ chunk) reads).isSome := by
          change Reaches _ (request.length + chunk.length) reads ↔ _
          rw [← List.length_append]
          by_cases hfull' : maxRequestBytes ≤ (request ++ chunk).length
          · rw [readRequest_of_full hfull']
            exact iff_of_false (not_reaches_of_full hfull') (by simp)
          · exact (ih hnewline hfull').symm
        rw [hlater]
        simp only [if_neg hnewline, ReadResult.bytes.injEq, exists_eq_left', hbeyond, and_false,
          false_or]

end Requests

section Outcomes

variable {stream : Bytes} {reads : List ReadResult} (handler : Bytes → Bytes)
  (writes : List WriteResult)

/-- The handler is called at most once, with the bytes before the first newline. -/
theorem calls_cases (h : Delivers stream reads) :
    (serveConnection handler reads writes).1 = [] ∧ ¬ Reaches (newlineIndex stream) 0 reads ∨
      (serveConnection handler reads writes).1 = [stream.take (newlineIndex stream)] ∧
        Reaches (newlineIndex stream) 0 reads ∧ 10 ∈ stream := by
  have hsome := readRequest_isSome_iff h List.not_mem_nil
  rw [List.nil_append, List.length_nil] at hsome
  rw [serveConnection]
  cases hread : readRequest [] reads with
  | none =>
      rw [hread] at hsome
      exact .inl ⟨rfl, fun hreach => absurd (hsome.mpr hreach) (by simp)⟩
  | some line =>
      rw [hread] at hsome
      obtain ⟨hnewline, hline⟩ := line_of_readRequest h hread
      rw [List.nil_append] at hnewline hline
      rw [hline, takeWhile_eq_take]
      exact .inr ⟨rfl, hsome.mp rfl, hnewline⟩

/-- The outcome is the one of the framing exactly if no read overshoots. -/
theorem calls_eq_framed_iff (h : Delivers stream reads) :
    (serveConnection handler reads writes).1 = framed stream ↔ ¬ Overshoots stream reads := by
  by_cases hlimit : newlineIndex stream < maxRequestBytes
  · have hover : ¬ Overshoots stream reads := fun hover => absurd hover.1 (not_le.mpr hlimit)
    refine iff_of_true ?_ hover
    by_cases hnewline : 10 ∈ stream
    · have hread := readRequest_of_lt h List.not_mem_nil hnewline
        (by rw [List.nil_append, takeWhile_eq_take, List.length_take]; omega)
      rw [List.nil_append, takeWhile_eq_take] at hread
      rw [framed, if_pos ⟨newlineIndex_lt_iff.mpr hnewline, hlimit⟩, serveConnection, hread]
    · rw [framed, if_neg fun hin => hnewline (newlineIndex_lt_iff.mp hin.1)]
      obtain ⟨hcalls, -⟩ | ⟨-, -, hmem⟩ := calls_cases handler writes h
      · exact hcalls
      · exact absurd hmem hnewline
  · rw [framed, if_neg fun hin => hlimit hin.2, Overshoots, not_and]
    obtain ⟨hcalls, hreach⟩ | ⟨hcalls, hreach, -⟩ := calls_cases handler writes h
    · exact iff_of_true hcalls fun _ => hreach
    · refine iff_of_false ?_ fun hnot => hnot (not_lt.mp hlimit) hreach
      rw [hcalls]
      simp

theorem calls_eq_toList (reads : List ReadResult) :
    (serveConnection handler reads writes).1 = (readRequest [] reads).toList := by
  rw [serveConnection]
  cases readRequest [] reads with
  | none => rfl
  | some request => rfl

/-- The calls decide what is written. -/
theorem outcome_eq_of_calls_eq {reads' : List ReadResult}
    (h : (serveConnection handler reads writes).1 = (serveConnection handler reads' writes).1) :
    serveConnection handler reads writes = serveConnection handler reads' writes := by
  rw [calls_eq_toList, calls_eq_toList] at h
  have hread := congrArg List.head? h
  rw [Option.head?_toList, Option.head?_toList] at hread
  rw [serveConnection, hread, ← serveConnection]

/-- The chunks of a delivery are within the buffer. -/
theorem Delivers.length_le (h : Delivers stream reads) {chunk : Bytes}
    (hmem : .bytes chunk ∈ reads) : chunk.length ≤ bufferBytes := by
  induction h with
  | waiting => simp at hmem
  | closed => simp at hmem
  | interrupted h ih => exact ih (by simpa using hmem)
  | chunk c hne hlen h ih =>
      obtain heq | htail := List.mem_cons.mp hmem
      · exact ReadResult.bytes.inj heq ▸ hlen
      · exact ih htail

/-- Only late streams have a read that overshoots. -/
theorem Overshoots.late (h : Delivers stream reads) (hover : Overshoots stream reads) :
    Late stream := by
  obtain ⟨hlimit, hreach⟩ := hover
  obtain ⟨-, hnot⟩ | ⟨-, -, hmem⟩ := calls_cases id [] h
  · exact absurd hreach hnot
  · obtain ⟨before, chunk, after, rfl, hstart, hindex⟩ := hreach
    have hchunk := h.length_le (List.mem_append_right before List.mem_cons_self)
    exact ⟨hlimit, newlineIndex_lt_iff.mpr hmem, by omega⟩

/-- A delivery can end with the client closing, with the same outcome. -/
theorem Delivers.exists_closing (h : Delivers stream reads) :
    ∃ reads', Delivers stream (reads' ++ [.closed]) ∧
      ∀ request, readRequest request (reads' ++ [.closed]) = readRequest request reads := by
  induction h with
  | waiting =>
      exact ⟨[], .closed, fun _ => ite_self none⟩
  | closed => exact ⟨[], .closed, fun _ => rfl⟩
  | interrupted h ih =>
      obtain ⟨reads', hreads, hsame⟩ := ih
      refine ⟨.interrupted :: reads', .interrupted hreads, fun request => ?_⟩
      rw [List.cons_append, readRequest, readRequest, hsame]
  | chunk c hne hlen h ih =>
      obtain ⟨reads', hreads, hsame⟩ := ih
      refine ⟨.bytes c :: reads', .chunk c hne hlen hreads, fun request => ?_⟩
      rw [List.cons_append, readRequest, readRequest, hsame]

theorem received_bytes (l : Bytes) : received (l.map fun b => .bytes [b]) = l.length := by
  induction l with
  | nil => rfl
  | cons b l ih =>
      rw [List.map_cons, received_cons, ih, List.length_cons, Nat.add_comm]
      rfl

/-- A late stream can arrive so that a read overshoots: byte by byte up to the
last one below the limit, then with as much as a read takes. -/
theorem Late.exists_overshoot (h : Late stream) :
    ∃ reads, Delivers stream (reads ++ [.closed]) ∧ Overshoots stream (reads ++ [.closed]) := by
  obtain ⟨hlimit, hin, hreach⟩ := h
  have hpos : 0 < maxRequestBytes := by decide
  obtain ⟨start, rest, rfl, hstart⟩ : ∃ start rest, stream = start ++ rest ∧
      start.length = maxRequestBytes - 1 :=
    ⟨_, _, (List.take_append_drop (maxRequestBytes - 1) stream).symm, by
      rw [List.length_take]; omega⟩
  rw [List.length_append] at hin
  obtain ⟨after, hafter, -⟩ := (delivers_bytes (rest.drop bufferBytes)).exists_closing
  have hchunk : (rest.take bufferBytes).length = min bufferBytes rest.length := List.length_take
  have hne : rest.take bufferBytes ≠ [] := by
    apply List.ne_nil_of_length_pos
    omega
  have hdelivers := (hafter.chunk _ hne (List.length_take_le _ _)).bytes_append start
  rw [List.take_append_drop] at hdelivers
  have hreads : start.map (fun b => .bytes [b]) ++ .bytes (rest.take bufferBytes) :: after ++
      [.closed] = start.map (fun b => .bytes [b]) ++
        .bytes (rest.take bufferBytes) :: (after ++ [.closed]) := by
    rw [List.append_assoc, List.cons_append]
  refine ⟨_, hreads ▸ hdelivers, hlimit, _, _, _, hreads, ?_, ?_⟩
  · rw [received_bytes, hstart]
    omega
  · rw [received_bytes, hstart, hchunk]
    omega

/-- A late stream can arrive so that none does. -/
theorem Late.exists_dropped (h : Late stream) :
    ∃ reads, Delivers stream (reads ++ [.closed]) ∧
      readRequest [] (reads ++ [.closed]) = none := by
  obtain ⟨hlimit, hin, -⟩ := h
  have hmax : 64 * bufferBytes = maxRequestBytes := rfl
  have hno : 10 ∉ [] ++ stream.take (64 * bufferBytes) := by
    rw [List.nil_append, hmax]
    intro hmem
    have hlt := newlineIndex_append_of_mem hmem (stream.drop maxRequestBytes)
    rw [List.take_append_drop, List.length_take] at hlt
    omega
  obtain ⟨reads, hreads, hnone⟩ := full_reads 64 rfl (by rw [hmax]; omega) hno
  obtain ⟨reads', hreads', hsame⟩ := hreads.exists_closing
  exact ⟨reads', hreads', (hsame []).trans hnone⟩

/-- Framing is independent of packet boundaries exactly for the streams that are
not late; for a late one it depends on whether a read overshoots. -/
theorem framing_iff (stream : Bytes) :
    (∀ reads, Delivers stream (reads ++ [.closed]) →
      ((serveConnection handler (reads ++ [.closed]) writes).1 = framed stream ↔
        ¬ Overshoots stream (reads ++ [.closed]))) ∧
    ((∀ reads, Delivers stream (reads ++ [.closed]) →
      (serveConnection handler (reads ++ [.closed]) writes).1 = framed stream) ↔ ¬ Late stream) ∧
    ((∀ reads reads', Delivers stream (reads ++ [.closed]) → Delivers stream (reads' ++ [.closed]) →
      serveConnection handler (reads ++ [.closed]) writes =
        serveConnection handler (reads' ++ [.closed]) writes) ↔ ¬ Late stream) := by
  refine ⟨fun reads h => calls_eq_framed_iff handler writes h, ⟨?_, ?_⟩, ⟨?_, ?_⟩⟩
  · intro hall hlate
    obtain ⟨reads, hreads, hover⟩ := hlate.exists_overshoot
    exact (calls_eq_framed_iff handler writes hreads).mp (hall reads hreads) hover
  · intro hlate reads hreads
    exact (calls_eq_framed_iff handler writes hreads).mpr fun hover => hlate (hover.late hreads)
  · intro hall hlate
    obtain ⟨reads, hreads, hover⟩ := hlate.exists_overshoot
    obtain ⟨reads', hreads', hnone⟩ := hlate.exists_dropped
    have hsame := congrArg Prod.fst (hall reads reads' hreads hreads')
    obtain ⟨-, hnot⟩ | ⟨hcalls, -⟩ := calls_cases handler writes hreads
    · exact hnot hover.2
    · rw [hcalls, serveConnection, hnone] at hsame
      cases hsame
  · intro hlate reads reads' hreads hreads'
    have hcalls := (calls_eq_framed_iff handler writes hreads).mpr fun hover =>
      hlate (hover.late hreads)
    have hcalls' := (calls_eq_framed_iff handler writes hreads').mpr fun hover =>
      hlate (hover.late hreads')
    exact outcome_eq_of_calls_eq handler writes (hcalls.trans hcalls'.symm)

omit handler writes in
theorem Delivers.replicate_append {chunk : Bytes} (hne : chunk ≠ [])
    (hlen : chunk.length ≤ bufferBytes) (n : Nat) (h : Delivers stream reads) :
    Delivers ((List.replicate n chunk).flatten ++ stream)
      (List.replicate n (.bytes chunk) ++ reads) := by
  induction n with
  | zero => exact h
  | succ n ih =>
      rw [List.replicate_succ, List.flatten_cons, List.append_assoc]
      exact .chunk chunk hne hlen ih

end Outcomes

section Limit

/-- A line of exactly the limit and its newline. -/
def limitLine : Bytes := List.replicate 65536 97 ++ [10]

/-- The line byte by byte, the last byte with the newline. -/
def bytewise : List ReadResult :=
  List.replicate 65535 (.bytes [97]) ++ [.bytes [97, 10], .closed]

/-- The line in full reads, the newline alone. -/
def blockwise : List ReadResult :=
  List.replicate 64 (.bytes (List.replicate 1024 97)) ++ [.bytes [10], .closed]

theorem newlineIndex_limitLine : newlineIndex limitLine = 65536 := by
  have hplain : (10 : UInt8) ∉ List.replicate 65536 97 := fun h =>
    absurd (List.eq_of_mem_replicate h) (by decide)
  rw [limitLine, newlineIndex_append hplain, List.length_replicate]
  rfl

theorem delivers_bytewise : Delivers limitLine bytewise := by
  have h := (Delivers.closed.chunk [97, 10] (by simp) (by decide)).replicate_append
    (List.cons_ne_nil 97 []) (by decide) 65535
  rw [List.flatten_replicate_singleton] at h
  have hline : limitLine = List.replicate 65535 97 ++ ([97, 10] ++ []) := by
    rw [limitLine, List.replicate_succ', List.append_assoc]
    rfl
  rw [hline]
  exact h

theorem delivers_blockwise : Delivers limitLine blockwise := by
  have hne : List.replicate 1024 (97 : UInt8) ≠ [] :=
    List.ne_nil_of_length_pos (by rw [List.length_replicate]; decide)
  have h := (Delivers.closed.chunk [10] (by simp) (by decide)).replicate_append
    hne (by rw [List.length_replicate]; exact le_refl _) 64
  rw [List.flatten_replicate_replicate] at h
  exact h

/-- A line of the limit is answered or dropped depending on the reads. -/
theorem limitLine_depends_on_reads :
    Delivers limitLine bytewise ∧ Delivers limitLine blockwise ∧
      (serveConnection id bytewise []).1 = [List.replicate 65536 97] ∧
      (serveConnection id blockwise []).1 = [] := by
  refine ⟨delivers_bytewise, delivers_blockwise, ?_, ?_⟩
  · have hreach : Reaches (newlineIndex limitLine) 0 bytewise := by
      rw [newlineIndex_limitLine, bytewise, reaches_replicate (by simp), reaches_cons]
      exact .inl ⟨_, rfl, by decide, by decide⟩
    obtain ⟨-, hnot⟩ | ⟨hcalls, -⟩ := calls_cases id [] delivers_bytewise
    · exact absurd hreach hnot
    · rw [hcalls, newlineIndex_limitLine, limitLine, List.take_left' List.length_replicate]
  · have hreach : ¬ Reaches (newlineIndex limitLine) 0 blockwise := by
      rw [newlineIndex_limitLine, blockwise, reaches_replicate
        (by rw [List.length_replicate]), List.length_replicate]
      exact not_reaches_of_full (le_refl _)
    obtain ⟨hcalls, -⟩ | ⟨-, hreach', -⟩ := calls_cases id [] delivers_blockwise
    · exact hcalls
    · exact absurd hreach' hreach

end Limit

end AgentPulse.SocketServer
