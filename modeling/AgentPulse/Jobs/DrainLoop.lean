import AgentPulse.Jobs.ProcessRunner

/-!
# When the drain loop and its child can block each other

A stream whose capture is full is no longer polled, and its read end stays open
until the other stream is given up too. A child that goes on writing to it
blocks as soon as the pipe is full, while the parent waits for the other stream.
This cannot happen to a child that exceeds the capture and the pipe of one
stream only after it has exceeded those of the other.
-/

namespace AgentPulse.ProcessRunner

open Transition

/-- The bytes of an output that go to a stream. -/
def bytesOf (x : Stream) (output : List (Stream × UInt8)) : Bytes :=
  output.filterMap fun w => if w.1 = x then some w.2 else none

/-- How much of an output goes to a stream. -/
def written (x : Stream) (output : List (Stream × UInt8)) : ℕ := (bytesOf x output).length

/-- The child that writes an output. -/
def writes (output : List (Stream × UInt8)) : List Action :=
  output.map fun w => .write w.1 w.2

/-- How much a child writes to a stream. -/
def sent (x : Stream) (actions : List Action) : ℕ :=
  actions.countP fun action =>
    match action with
    | .write y _ => y = x
    | .close _ => false

/-- Whenever the output has more for a stream than one byte beyond its capture
and its pipe, it already has that one byte for the other stream. -/
def Balanced (capacity : ℕ) (output : List (Stream × UInt8)) : Prop :=
  ∀ p, p <+: output → ∀ x, maxCapture + 1 + capacity < written x p →
    maxCapture + 1 + capacity ≤ written x.other p

/-- The child is blocked writing to the full pipe of a stream. -/
def State.BlockedOn (s : State) (capacity : ℕ) (x : Stream) : Prop :=
  s.child.status = none ∧ (∃ byte rest, s.child.todo = .write x byte :: rest) ∧
    (s.pipe x).writeEnd = true ∧ capacity ≤ (s.pipe x).data.length

/-- The parent has a stream in its poll set, or has closed its read end. -/
def State.Served (s : State) (x : Stream) : Prop :=
  x ∈ s.fds ∨ (s.pipe x).readEnd = false

section Output

variable {x y : Stream} {b : UInt8} {p q : List (Stream × UInt8)}

@[simp] theorem bytesOf_nil : bytesOf x [] = [] := rfl

theorem bytesOf_snoc : bytesOf x (p ++ [(y, b)]) = bytesOf x p ++ if y = x then [b] else [] := by
  unfold bytesOf
  rw [List.filterMap_append]
  split_ifs with heq <;> simp [heq]

@[simp] theorem written_nil : written x [] = 0 := rfl

theorem written_snoc : written x (p ++ [(y, b)]) = written x p + if y = x then 1 else 0 := by
  unfold written
  rw [bytesOf_snoc, List.length_append]
  split_ifs <;> rfl

/-- The next action of a child that writes an output is the next byte of it. -/
theorem writes_eq_cons {rest : List (Stream × UInt8)} {todo : List Action}
    (h : writes rest = .write x b :: todo) : ∃ rest', rest = (x, b) :: rest' ∧ writes rest' = todo := by
  cases rest with
  | nil => cases h
  | cons w rest =>
      obtain ⟨y, c⟩ := w
      injection h with hhead htail
      injection hhead with hy hc
      exact ⟨rest, congrArg (· :: rest) (Prod.ext hy hc), htail⟩

theorem sent_snoc_write {past : List Action} :
    sent x (past ++ [.write x b]) = sent x past + 1 := by
  simp [sent]

theorem sent_snoc_of_ne {past : List Action} {action : Action}
    (hne : ∀ byte, action ≠ .write x byte) : sent x (past ++ [action]) = sent x past := by
  cases action with
  | close z => simp [sent]
  | write z byte =>
      have hzx : z ≠ x := fun heq => hne byte (congrArg (Action.write · byte) heq)
      simp [sent, hzx]

theorem close_not_mem_snoc {past : List Action} {action : Action}
    (h : .close x ∉ past ++ [action]) : .close x ∉ past ∧ Action.close x ≠ action := by
  simpa using h

/-- A child that only writes closes nothing and sends its output. -/
theorem sent_writes : sent x (writes p) = written x p := by
  induction p with
  | nil => rfl
  | cons w rest ih =>
      obtain ⟨y, byte⟩ := w
      by_cases hyx : y = x
      · simp_all [sent, writes, written, bytesOf]
      · simp_all [sent, writes, written, bytesOf]

theorem close_not_mem_writes : .close x ∉ writes p := by
  simp [writes]

theorem Stream.eq_or_eq_other (x y : Stream) : y = x ∨ y = x.other := by
  cases x <;> cases y <;> simp

theorem mem_fds {s : State} : x ∈ s.fds ↔ (s.capture x).keep = true := by
  cases x <;> simp [State.fds]

theorem fds_ne_nil {s : State} :
    s.fds ≠ [] ↔ ((s.capture .out).keep || (s.capture .err).keep) = true := by
  rw [Bool.or_eq_true, ← mem_fds, ← mem_fds]
  constructor
  · intro hne
    obtain ⟨x, hx⟩ := List.exists_mem_of_ne_nil _ hne
    cases x with
    | out => exact Or.inl hx
    | err => exact Or.inr hx
  · rintro (hx | hx) <;> exact List.ne_nil_of_mem hx

theorem nodup_fds {s : State} : s.fds.Nodup := by
  apply List.Nodup.filter
  decide

end Output

section Reads

variable {s : State} {x y : Stream} {p : Pipe} {c : Capture} {rest : List Stream}

@[simp] theorem loopTest_child : s.loopTest.child = s.child := by
  unfold State.loopTest State.closeReadEnds
  split_ifs <;> rfl

@[simp] theorem loopTest_capture : s.loopTest.capture = s.capture := by
  unfold State.loopTest State.closeReadEnds
  split_ifs <;> rfl

theorem loopTest_pipe : (s.loopTest.pipe y).data = (s.pipe y).data ∧
    (s.loopTest.pipe y).writeEnd = (s.pipe y).writeEnd := by
  unfold State.loopTest State.closeReadEnds
  split_ifs <;> exact ⟨rfl, rfl⟩

@[simp] theorem afterRead_child : (s.afterRead x p c rest).child = s.child := by
  cases rest <;> simp [State.afterRead]

@[simp] theorem afterRead_capture :
    (s.afterRead x p c rest).capture = Function.update s.capture x c := by
  cases rest <;> simp [State.afterRead]

theorem afterRead_pipe :
    ((s.afterRead x p c rest).pipe y).data = (Function.update s.pipe x p y).data ∧
      ((s.afterRead x p c rest).pipe y).writeEnd = (Function.update s.pipe x p y).writeEnd := by
  cases rest with
  | nil => exact loopTest_pipe
  | cons z zs => exact ⟨rfl, rfl⟩

/-- The captured text is cut at the limit, and the flag is cleared by the first
byte that does not fit. -/
theorem drain_spec {data : Bytes} (hdata : data ≠ []) (htext : c.text.length ≤ maxCapture) :
    c.drain data =
      { text := (c.text ++ data).take maxCapture
        truncated := c.truncated || maxCapture < c.text.length + data.length
        keep := c.keep && c.text.length + data.length ≤ maxCapture } := by
  have hpos : 0 < data.length := List.length_pos_iff.mpr hdata
  unfold Capture.drain appendCapped
  rw [if_neg hdata]
  by_cases hfull : maxCapture ≤ c.text.length
  · have hlength : c.text.length = maxCapture := le_antisymm htext hfull
    simp [hlength, hpos, hdata]
  · rw [if_neg hfull]
    by_cases hroom : data.length < maxCapture - c.text.length
    · have hfit : c.text.length + data.length ≤ maxCapture := by omega
      have hnot : ¬ maxCapture < c.text.length + data.length := by omega
      simp [hroom, hfit, hnot, List.take_of_length_le]
    · simp only [if_neg hroom, List.take_append]
      by_cases hexact : maxCapture - c.text.length < data.length
      · have hover : maxCapture < c.text.length + data.length := by omega
        have hnot : ¬ c.text.length + data.length ≤ maxCapture := by omega
        simp [hexact, hover, hnot, List.take_of_length_le htext]
      · have hfit : c.text.length + data.length ≤ maxCapture := by omega
        have hnot : ¬ maxCapture < c.text.length + data.length := by omega
        simp [hexact, hfit, hnot, List.take_of_length_le htext]

end Reads

/-- A stream of a running child after `n` bytes: as long as it is kept the
parent has all it has read, and it is given up only beyond the limit. -/
structure Channel (capacity : ℕ) (p : Pipe) (c : Capture) (n : ℕ) : Prop where
  writeEnd : p.writeEnd = true
  bounded : p.data.length ≤ capacity
  text : c.text.length ≤ maxCapture
  kept : c.keep = true → n = c.text.length + p.data.length
  capped : c.keep = false → maxCapture + 1 + p.data.length ≤ n

section Channels

variable {capacity n : ℕ} {p p' : Pipe} {c : Capture}

/-- Nothing is known or needed of the read end. -/
theorem Channel.congr (h : Channel capacity p c n) (hdata : p'.data = p.data)
    (hwrite : p'.writeEnd = p.writeEnd) : Channel capacity p' c n := by
  refine ⟨hwrite ▸ h.writeEnd, hdata ▸ h.bounded, h.text, ?_, ?_⟩
  · rw [hdata]
    exact h.kept
  · rw [hdata]
    exact h.capped

theorem Channel.write (h : Channel capacity p c n) (hroom : p.data.length < capacity)
    (byte : UInt8) : Channel capacity { p with data := p.data ++ [byte] } c (n + 1) := by
  refine ⟨h.writeEnd, by simpa using Nat.succ_le_of_lt hroom, h.text, fun hkeep => ?_, fun hkeep => ?_⟩
  · have := h.kept hkeep
    simp only [List.length_append, List.length_singleton]
    omega
  · have := h.capped hkeep
    simp only [List.length_append, List.length_singleton]
    omega

theorem Channel.read (h : Channel capacity p c n) {size : ℕ} (hpos : 1 ≤ size)
    (hle : size ≤ p.data.length) :
    Channel capacity { p with data := p.data.drop size } (c.drain (p.data.take size)) n := by
  have hlength : (p.data.take size).length = size := List.length_take_of_le hle
  have hne : p.data.take size ≠ [] := by
    apply List.ne_nil_of_length_pos
    omega
  rw [drain_spec hne h.text, hlength]
  have hbounded := h.bounded
  refine ⟨h.writeEnd, ?_, ?_, fun hkeep => ?_, fun hkeep => ?_⟩
  · simp only [List.length_drop]
    omega
  · exact List.length_take_le _ _
  · simp only [Bool.and_eq_true, decide_eq_true_eq] at hkeep
    have := h.kept hkeep.1
    simp only [List.length_take, List.length_append, List.length_drop, hlength]
    omega
  · simp only [List.length_drop]
    cases hold : c.keep with
    | false =>
        have := h.capped hold
        omega
    | true =>
        have := h.kept hold
        simp only [hold, Bool.true_and, decide_eq_false_iff_not] at hkeep
        omega

end Channels

/-- Where the parent stands agrees with its flags and its ends of the pipes. -/
def State.Shape (s : State) : Prop :=
  match s.pc with
  | .top => s.fds ≠ []
  | .polling fds _ => fds = s.fds ∧ s.fds ≠ []
  | .drain ready => ready ≠ [] ∧ ready.Nodup ∧ ∀ x ∈ ready, x ∈ s.fds ∧ (s.pipe x).ready = true
  | .waiting | .returned _ _ => ∀ x, (s.pipe x).readEnd = false

/-- As long as the child runs, it has written a part of the output, and what it
has written is in the pipes and in the captures. -/
def State.Flows (capacity : ℕ) (output : List (Stream × UInt8)) (s : State) : Prop :=
  s.child.status = none → ∃ p rest, output = p ++ rest ∧ s.child.todo = writes rest ∧
    ∀ x, Channel capacity (s.pipe x) (s.capture x) (written x p)

/-- The same for any child: what it has done so far is a part of what it does,
and each stream it has not closed carries what it has written to it. -/
def State.Carries (capacity : ℕ) (todo : List Action) (s : State) : Prop :=
  s.child.status = none → ∃ past, past ++ s.child.todo = todo ∧
    ∀ x, .close x ∉ past → Channel capacity (s.pipe x) (s.capture x) (sent x past)

section Steps

variable {capacity : ℕ} {timeoutSeconds : Int32} {todo : List Action} {s t : State}

theorem loopTest_shape : s.loopTest.Shape := by
  unfold State.loopTest
  split_ifs with hkeep
  · exact fds_ne_nil.mpr hkeep
  · exact fun _ => rfl

theorem afterRead_shape {x : Stream} {p : Pipe} {c : Capture} {rest : List Stream}
    (hnodup : (x :: rest).Nodup)
    (hrest : ∀ y ∈ rest, y ∈ s.fds ∧ (s.pipe y).ready = true) : (s.afterRead x p c rest).Shape := by
  cases rest with
  | nil => exact loopTest_shape
  | cons z zs =>
      refine ⟨List.cons_ne_nil _ _, hnodup.of_cons, fun y hy => ?_⟩
      have hne : y ≠ x := fun heq => (List.nodup_cons.mp hnodup).1 (heq ▸ hy)
      obtain ⟨hkeep, hready⟩ := hrest y hy
      constructor
      · rw [mem_fds] at hkeep ⊢
        simpa [Function.update_of_ne hne] using hkeep
      · simpa [State.afterRead, Function.update_of_ne hne] using hready

/-- Changes of the child's side that only make pipes ready keep the shape. -/
theorem shape_of_pipe {pipe : Stream → Pipe} {child : Child} (h : s.Shape)
    (hready : ∀ x, (s.pipe x).ready = true → (pipe x).ready = true)
    (hread : ∀ x, (pipe x).readEnd = (s.pipe x).readEnd) :
    State.Shape { s with pipe := pipe, child := child } := by
  unfold State.Shape at h ⊢
  split at h
  case h_1 hpc | h_2 hpc =>
    simp only [hpc]
    exact h
  case h_3 ready hpc =>
    simp only [hpc]
    exact ⟨h.1, h.2.1, fun x hx => ⟨(h.2.2 x hx).1, hready x (h.2.2 x hx).2⟩⟩
  case h_4 hpc | h_5 hpc =>
    simp only [hpc]
    exact fun x => (hread x).trans (h x)

theorem endChild_shape (h : s.Shape) (status : WaitStatus) : (s.endChild status).Shape := by
  unfold State.endChild
  split
  · exact h
  · exact shape_of_pipe h (by simp [Pipe.ready]) (by simp)

theorem endChild_fds (status : WaitStatus) : (s.endChild status).fds = s.fds := by
  unfold State.endChild
  split <;> rfl

theorem ChildMove.shape (hmove : ChildMove capacity s t) (h : s.Shape) : t.Shape := by
  cases hmove with
  | exit hrunning htodo => exact endChild_shape h _
  | close x rest hrunning htodo =>
      refine shape_of_pipe h (fun y hready => ?_) fun y => ?_
      · by_cases hxy : y = x <;> simp_all [Pipe.ready]
      · by_cases hxy : y = x <;> simp_all
  | lost x byte rest hrunning htodo hclosed => exact shape_of_pipe h (fun _ => id) fun _ => rfl
  | broken x byte rest hrunning htodo hwrite hbroken => exact endChild_shape h _
  | write x byte rest hrunning htodo hwrite hread hroom =>
      refine shape_of_pipe h (fun y hready => ?_) fun y => ?_
      · by_cases hxy : y = x <;> simp_all [Pipe.ready]
      · by_cases hxy : y = x <;> simp_all

theorem timeout_frame (s : State) : s.timeout.pc = .top ∧ s.timeout.elapsed = s.elapsed := by
  unfold State.timeout State.endChild
  split_ifs
  · exact ⟨rfl, rfl⟩
  · split <;> exact ⟨rfl, rfl⟩

theorem timeout_shape (h : s.fds ≠ []) : s.timeout.Shape := by
  unfold State.timeout
  split_ifs
  · exact h
  · have hfds : (s.endChild (.signaled 9)).fds ≠ [] := by
      rw [endChild_fds]
      exact h
    exact hfds

/-- In the loop over the ready streams the rest of them is still to be read. -/
theorem afterRead_shape_of_drain {x : Stream} {rest : List Stream} (h : s.Shape)
    (hpc : s.pc = .drain (x :: rest)) (p : Pipe) (c : Capture) :
    (s.afterRead x p c rest).Shape := by
  unfold State.Shape at h
  rw [hpc] at h
  exact afterRead_shape h.2.1 fun y hy => h.2.2 y (List.mem_cons_of_mem _ hy)

theorem ParentMove.shape {size : ℕ} (hmove : ParentMove timeoutSeconds s size t) (h : s.Shape) :
    t.Shape := by
  have hshape := h
  unfold State.Shape at hshape
  cases hmove with
  | compute hpc =>
      rw [hpc] at hshape
      exact ⟨rfl, hshape⟩
  | ready fds deadline hpc hready =>
      rw [hpc] at hshape
      obtain ⟨rfl, _⟩ := hshape
      exact ⟨hready, nodup_fds.filter _, fun x hx => List.mem_filter.mp hx⟩
  | expire fds time hpc hidle hle =>
      rw [hpc] at hshape
      exact timeout_shape hshape.2
  | drained hpc => exact loopTest_shape
  | finish x rest hpc hempty hclosed => exact afterRead_shape_of_drain h hpc _ _
  | read x rest hpc hpos hbuffer hle => exact afterRead_shape_of_drain h hpc _ _
  | wait status hpc hstatus =>
      rw [hpc] at hshape
      exact hshape

theorem step_shape {label : Label} (h : s.Shape)
    (hstep : step capacity timeoutSeconds s label = some t) : t.Shape := by
  cases label with
  | child => exact (childMove_of_step hstep).shape h
  | parent size => exact (parentMove_of_step hstep).shape h
  | pollError interrupted =>
      obtain ⟨⟨fds, deadline, hpc⟩, rfl⟩ := pollError_inv hstep
      unfold State.Shape at h
      rw [hpc] at h
      cases interrupted with
      | true => exact h.2
      | false => exact fun _ => rfl
  | readError =>
      obtain ⟨x, rest, hpc, rfl⟩ := readError_inv hstep
      exact afterRead_shape_of_drain h hpc _ _
  | elapse ms =>
      cases hstep
      exact h

theorem afterRead_carries {x : Stream} {size : ℕ} {rest : List Stream}
    (h : s.Carries capacity todo) (hpos : 1 ≤ size) (hle : size ≤ (s.pipe x).data.length) :
    (s.afterRead x { s.pipe x with data := (s.pipe x).data.drop size }
      ((s.capture x).drain ((s.pipe x).data.take size)) rest).Carries capacity todo := by
  intro hrunning
  rw [afterRead_child] at hrunning
  obtain ⟨past, htodo, hchannel⟩ := h hrunning
  refine ⟨past, by rw [afterRead_child, htodo], fun y hopen => ?_⟩
  rw [afterRead_capture]
  refine Channel.congr ?_ afterRead_pipe.1 afterRead_pipe.2
  by_cases hxy : y = x
  · subst hxy
    simpa using (hchannel y hopen).read hpos hle
  · simpa [Function.update_of_ne hxy] using hchannel y hopen

/-- The end of a stream is reached only after the child has closed it. -/
theorem afterEnd_carries {x : Stream} {rest : List Stream} (h : s.Carries capacity todo)
    (hwrite : (s.pipe x).writeEnd = false) :
    (s.afterRead x (s.pipe x) ((s.capture x).drain []) rest).Carries capacity todo := by
  intro hrunning
  rw [afterRead_child] at hrunning
  obtain ⟨past, htodo, hchannel⟩ := h hrunning
  refine ⟨past, by rw [afterRead_child, htodo], fun y hopen => ?_⟩
  rw [afterRead_capture]
  refine Channel.congr ?_ afterRead_pipe.1 afterRead_pipe.2
  by_cases hxy : y = x
  · subst hxy
    have hended := (hchannel y hopen).writeEnd
    rw [hwrite] at hended
    cases hended
  · simpa [Function.update_of_ne hxy] using hchannel y hopen

theorem closeReadEnds_carries (h : s.Carries capacity todo) :
    s.closeReadEnds.Carries capacity todo := by
  intro hrunning
  obtain ⟨past, htodo, hchannel⟩ := h hrunning
  exact ⟨past, htodo, fun y hopen => (hchannel y hopen).congr rfl rfl⟩

theorem loopTest_carries (h : s.Carries capacity todo) : s.loopTest.Carries capacity todo := by
  unfold State.loopTest
  split_ifs
  · exact h
  · exact closeReadEnds_carries h

/-- Nothing is required of the streams once the child has ended. -/
theorem carries_of_ended (h : t.child.status ≠ none) : t.Carries capacity todo :=
  fun hrunning => absurd hrunning h

theorem endChild_ended (status : WaitStatus) : (s.endChild status).child.status ≠ none := by
  unfold State.endChild
  split
  · next hstatus => simp [hstatus]
  · simp

theorem ChildMove.carries (hmove : ChildMove capacity s t) (h : s.Carries capacity todo) :
    t.Carries capacity todo := by
  cases hmove with
  | exit hrunning htodo => exact carries_of_ended (endChild_ended _)
  | close x rest hrunning hactions =>
      intro _
      obtain ⟨past, htodo, hchannel⟩ := h hrunning
      refine ⟨past ++ [.close x], by simp [← htodo, hactions], fun y hopen => ?_⟩
      obtain ⟨hpast, hne⟩ := close_not_mem_snoc hopen
      have hyx : y ≠ x := fun heq => hne (congrArg Action.close heq)
      rw [sent_snoc_of_ne (by simp)]
      simpa [Function.update_of_ne hyx] using hchannel y hpast
  | lost x byte rest hrunning hactions hclosed =>
      intro _
      obtain ⟨past, htodo, hchannel⟩ := h hrunning
      refine ⟨past ++ [.write x byte], by simp [← htodo, hactions], fun y hopen => ?_⟩
      obtain ⟨hpast, _⟩ := close_not_mem_snoc hopen
      have hyx : y ≠ x := by
        rintro rfl
        have hended := (hchannel y hpast).writeEnd
        rw [hclosed] at hended
        cases hended
      rw [sent_snoc_of_ne (by simpa using hyx.symm)]
      exact hchannel y hpast
  | broken x byte rest hrunning hactions hwrite hbroken => exact carries_of_ended (endChild_ended _)
  | write x byte rest hrunning hactions hwrite hread hroom =>
      intro _
      obtain ⟨past, htodo, hchannel⟩ := h hrunning
      refine ⟨past ++ [.write x byte], by simp [← htodo, hactions], fun y hopen => ?_⟩
      obtain ⟨hpast, _⟩ := close_not_mem_snoc hopen
      by_cases hxy : y = x
      · subst hxy
        rw [sent_snoc_write]
        simpa using (hchannel y hpast).write hroom byte
      · rw [sent_snoc_of_ne (by simpa using Ne.symm hxy)]
        simpa [Function.update_of_ne hxy] using hchannel y hpast

theorem timeout_carries (h : s.Carries capacity todo) : s.timeout.Carries capacity todo := by
  unfold State.timeout
  split_ifs
  · exact h
  · exact carries_of_ended (endChild_ended _)

theorem ParentMove.carries {size : ℕ} (hmove : ParentMove timeoutSeconds s size t)
    (h : s.Carries capacity todo) : t.Carries capacity todo := by
  cases hmove with
  | compute hpc => exact h
  | ready fds deadline hpc hready => exact h
  | expire fds time hpc hidle hle => exact timeout_carries h
  | drained hpc => exact loopTest_carries h
  | finish x rest hpc hempty hclosed => exact afterEnd_carries h hclosed
  | read x rest hpc hpos hbuffer hle => exact afterRead_carries h hpos hle
  | wait status hpc hstatus => exact h

theorem step_carries {label : Label} (h : s.Carries capacity todo) (hlabel : label ≠ .readError)
    (hstep : step capacity timeoutSeconds s label = some t) : t.Carries capacity todo := by
  cases label with
  | child => exact (childMove_of_step hstep).carries h
  | parent size => exact (parentMove_of_step hstep).carries h
  | pollError interrupted =>
      obtain ⟨_, rfl⟩ := pollError_inv hstep
      cases interrupted with
      | true => exact h
      | false => exact closeReadEnds_carries h
  | readError => exact absurd rfl hlabel
  | elapse ms =>
      cases hstep
      exact h

end Steps

section Runs

variable {capacity : ℕ} {timeoutSeconds : Int32} {output : List (Stream × UInt8)} {exitCode : ℕ}
  {labels : List Label} {s : State} {x : Stream}

theorem shape_of_run {ok : State → Label → Prop}
    (h : Run (step capacity timeoutSeconds) ok (spawned (writes output) exitCode) labels s) :
    s.Shape :=
  h.invariant (fun _ _ _ hinv _ hstep => step_shape hinv hstep)
    (List.cons_ne_nil Stream.out [.err])

theorem carries_spawned {todo : List Action} : (spawned todo exitCode).Carries capacity todo := by
  intro _
  refine ⟨[], rfl, fun x _ => ⟨rfl, Nat.zero_le _, Nat.zero_le _, fun _ => rfl, ?_⟩⟩
  intro hkeep
  cases hkeep

theorem carries_of_run {todo : List Action} {ok : State → Label → Prop}
    (h : Run (step capacity timeoutSeconds) ok (spawned todo exitCode) labels s)
    (hok : ∀ s label, ok s label → label ≠ .readError) : s.Carries capacity todo := by
  apply h.invariant (I := State.Carries capacity todo)
  · intro s label t hinv hlabel hstep
    exact step_carries hinv (hok s label hlabel) hstep
  · exact carries_spawned

theorem flows_of_run
    (h : Run (step capacity timeoutSeconds) (fun _ label => label ≠ .readError)
      (spawned (writes output) exitCode) labels s) : s.Flows capacity output := by
  intro hrunning
  obtain ⟨past, htodo, hchannel⟩ := carries_of_run h (fun _ _ hlabel => hlabel) hrunning
  obtain ⟨p, rest, rfl, rfl, hrest⟩ := List.map_eq_append_iff.mp htodo.symm
  refine ⟨p, rest, rfl, hrest.symm, fun x => ?_⟩
  rw [← sent_writes]
  exact hchannel x close_not_mem_writes

/-- If the output is balanced, a stream the child is blocked on is served: it
was given up only if the other one was, too. -/
theorem served_of_balanced (hbalanced : Balanced capacity output) (hshape : s.Shape)
    (hflows : s.Flows capacity output) (hblocked : s.BlockedOn capacity x) : s.Served x := by
  obtain ⟨hrunning, ⟨byte, todo, htodo⟩, _, hfull⟩ := hblocked
  obtain ⟨p, rest, houtput, heq, hchannel⟩ := hflows hrunning
  by_cases hkeep : (s.capture x).keep = true
  · exact Or.inl (mem_fds.mpr hkeep)
  · right
    have hcapped := (hchannel x).capped (by simpa using hkeep)
    obtain ⟨rest, rfl, _⟩ := writes_eq_cons (heq.symm.trans htodo)
    have hother : maxCapture + 1 + capacity ≤ written x.other (p ++ [(x, byte)]) := by
      refine hbalanced _ ⟨rest, by simpa using houtput.symm⟩ x ?_
      rw [written_snoc, if_pos rfl]
      omega
    have hne : x ≠ x.other := by cases x <;> decide
    rw [written_snoc, if_neg hne] at hother
    have hgiven : (s.capture x.other).keep ≠ true := by
      intro hkept
      have := (hchannel x.other).kept hkept
      have := (hchannel x.other).text
      have := (hchannel x.other).bounded
      omega
    have hfds : s.fds = [] := by
      apply List.eq_nil_iff_forall_not_mem.mpr
      intro y hy
      obtain rfl | rfl := Stream.eq_or_eq_other x y
      · exact hkeep (mem_fds.mp hy)
      · exact hgiven (mem_fds.mp hy)
    unfold State.Shape at hshape
    split at hshape
    · exact absurd hfds hshape
    · exact absurd hfds hshape.2
    · next ready _ =>
        obtain ⟨y, hy⟩ := List.exists_mem_of_ne_nil ready hshape.1
        rw [hfds] at hshape
        exact absurd (hshape.2.2 y hy).1 List.not_mem_nil
    · exact hshape x
    · exact hshape x

/-- A child blocked on a stream that is served is not stuck: the parent has a
step, or the write fails. -/
theorem step_of_served (hcapacity : 0 < capacity) (hshape : s.Shape)
    (hblocked : s.BlockedOn capacity x) (hserved : s.Served x) :
    (∃ t, step capacity timeoutSeconds s .child = some t) ∨
      ∃ size t, step capacity timeoutSeconds s (.parent size) = some t := by
  obtain ⟨hrunning, ⟨byte, todo, htodo⟩, hwrite, hfull⟩ := hblocked
  have hdata : (s.pipe x).data ≠ [] := by
    apply List.ne_nil_of_length_pos
    omega
  by_cases hclosed : (s.pipe x).readEnd = false
  · left
    apply Option.isSome_iff_exists.mp
    simp [step, childStep, hrunning, htodo, hwrite, hclosed]
  · right
    have hmem : x ∈ s.fds := hserved.resolve_right hclosed
    unfold State.Shape at hshape
    split at hshape
    · next hpc =>
        refine ⟨0, Option.isSome_iff_exists.mp ?_⟩
        simp [step, parentStep, hpc]
    · next fds deadline hpc =>
        have hready : (fds.filter fun y => (s.pipe y).ready) ≠ [] := by
          apply List.ne_nil_of_mem (a := x)
          rw [hshape.1]
          exact List.mem_filter.mpr ⟨hmem, by simp [Pipe.ready, hdata]⟩
        refine ⟨0, Option.isSome_iff_exists.mp ?_⟩
        simp [step, parentStep, hpc, hready]
    · next ready hpc =>
        obtain ⟨y, rest, rfl⟩ := List.exists_cons_of_ne_nil hshape.1
        have hready := (hshape.2.2 y List.mem_cons_self).2
        refine ⟨1, Option.isSome_iff_exists.mp ?_⟩
        by_cases hempty : (s.pipe y).data = []
        · have hended : (s.pipe y).writeEnd = false := by simpa [Pipe.ready, hempty] using hready
          simp [step, parentStep, hpc, hempty, hended]
        · have hpos := List.length_pos_iff.mpr hempty
          have hsize : 1 ≤ bufferSize ∧ 1 ≤ (s.pipe y).data.length := ⟨by decide, hpos⟩
          simp [step, parentStep, hpc, hempty, hsize]
    · exact absurd (hshape x) hclosed
    · exact absurd (hshape x) hclosed

/-- If the output of the child is balanced, the parent and the child never block
each other. -/
theorem no_deadlock_of_balanced (hcapacity : 0 < capacity) (hbalanced : Balanced capacity output)
    (h : Run (step capacity timeoutSeconds) (fun _ label => label ≠ .readError)
      (spawned (writes output) exitCode) labels s) (hblocked : s.BlockedOn capacity x) :
    (x ∈ s.fds ∨ (s.pipe x).readEnd = false) ∧
      ((∃ t, step capacity timeoutSeconds s .child = some t) ∨
        ∃ size t, step capacity timeoutSeconds s (.parent size) = some t) := by
  have hshape := shape_of_run h
  have hserved := served_of_balanced hbalanced hshape (flows_of_run h) hblocked
  exact ⟨hserved, step_of_served hcapacity hshape hblocked hserved⟩

/-- A short output is balanced. -/
theorem balanced_of_length (h : output.length ≤ maxCapture + 1 + capacity) :
    Balanced capacity output := by
  intro p hp x hover
  have hle : written x p ≤ p.length := List.length_filterMap_le _ _
  have := hp.length_le
  omega

/-- A child blocked by a pipe of one byte, whose parent has both streams in its
poll set. -/
theorem no_deadlock_of_balanced_short :
    ∃ s, Run (step 1 0) (fun _ label => label ≠ .readError)
        (spawned (writes [(.err, 1), (.out, 2), (.out, 3)]) 0) [.child, .child] s ∧
      s.BlockedOn 1 .out ∧ (.out ∈ s.fds ∨ (s.pipe .out).readEnd = false) ∧
      ((∃ t, step 1 0 s .child = some t) ∨ ∃ size t, step 1 0 s (.parent size) = some t) := by
  obtain ⟨s, hrun, hs⟩ := Run.of_exec_any (step 1 0) (fun _ label => label ≠ .readError)
    (spawned (writes [(.err, 1), (.out, 2), (.out, 3)]) 0) [.child, .child]
    (fun s => decide (s.child.status = none ∧ s.child.todo = [.write .out 3] ∧
      (s.pipe .out).writeEnd = true ∧ 1 ≤ (s.pipe .out).data.length))
    (by decide +kernel)
  obtain ⟨hrunning, htodo, hwrite, hfull⟩ := of_decide_eq_true hs
  have hblocked : s.BlockedOn 1 .out := ⟨hrunning, ⟨3, [], htodo⟩, hwrite, hfull⟩
  exact ⟨s, hrun, hblocked,
    no_deadlock_of_balanced (by decide) (balanced_of_length (by decide)) hrun hblocked⟩

end Runs

end AgentPulse.ProcessRunner
