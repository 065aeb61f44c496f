import AgentPulse.Jobs.Deadlock

/-!
# What the drain loop captures

Each stream is captured on its own: however its bytes are cut into reads, and
whatever happens on the other stream, its text is the beginning of what the
child has written to it, and it is marked as truncated if there was more.
-/

namespace AgentPulse.ProcessRunner

open Transition

/-- Neither `poll` nor `read` fails; `poll` may be interrupted. -/
def Undisturbed (_ : State) (label : Label) : Prop :=
  label ≠ .readError ∧ label ≠ .pollError false

instance : DecidableRel Undisturbed := fun _ _ => inferInstanceAs (Decidable (_ ∧ _))

/-- What a step puts into the pipes. -/
def puts (capacity : ℕ) (s : State) : Label → List (Stream × UInt8)
  | .child =>
      match s.child.status, s.child.todo with
      | none, .write x byte :: _ =>
          if (s.pipe x).writeEnd = true ∧ (s.pipe x).readEnd = true ∧
              (s.pipe x).data.length < capacity then [(x, byte)]
          else []
      | _, _ => []
  | _ => []

/-- The bytes the child puts into the pipe of a stream along a run. -/
def bytesWritten (capacity : ℕ) (timeoutSeconds : Int32) (s : State) (labels : List Label)
    (x : Stream) : Bytes :=
  bytesOf x (trace (step capacity timeoutSeconds) (puts capacity) s labels)

/-- A stream to which `w` has been written and of which `got` has been read. -/
structure Captured (p : Pipe) (c : Capture) (w got : Bytes) : Prop where
  flow : got ++ p.data = w
  text : c.text = got.take maxCapture
  truncated : c.truncated = true ↔ maxCapture < got.length
  kept : c.keep = true → got.length ≤ maxCapture
  ended : c.keep = false → maxCapture < got.length ∨ p.data = [] ∧ p.writeEnd = false

section Streams

variable {p p' : Pipe} {c : Capture} {w got : Bytes}

/-- Closing an end of the pipe changes nothing. -/
theorem Captured.congr (h : Captured p c w got) (hdata : p'.data = p.data)
    (hwrite : p.writeEnd = false → p'.writeEnd = false) : Captured p' c w got := by
  refine ⟨by rw [hdata, h.flow], h.text, h.truncated, h.kept, fun hkeep => ?_⟩
  rw [hdata]
  exact (h.ended hkeep).imp_right fun hend => ⟨hend.1, hwrite hend.2⟩

theorem Captured.write (h : Captured p c w got) (hwrite : p.writeEnd = true) (byte : UInt8) :
    Captured { p with data := p.data ++ [byte] } c (w ++ [byte]) got := by
  refine ⟨by rw [← h.flow, List.append_assoc], h.text, h.truncated, h.kept, fun hkeep => ?_⟩
  obtain hcap | hend := h.ended hkeep
  · exact Or.inl hcap
  · rw [hwrite] at hend
    cases hend.2

theorem Captured.read (h : Captured p c w got) (hkeep : c.keep = true) {size : ℕ}
    (hpos : 1 ≤ size) (hle : size ≤ p.data.length) :
    Captured { p with data := p.data.drop size } (c.drain (p.data.take size)) w
      (got ++ p.data.take size) := by
  have hgot := h.kept hkeep
  have htext : c.text = got := by rw [h.text, List.take_of_length_le hgot]
  have hlength : (p.data.take size).length = size := List.length_take_of_le hle
  have hne : p.data.take size ≠ [] := by
    apply List.ne_nil_of_length_pos
    omega
  have hnot : c.truncated = false := by
    rw [← Bool.not_eq_true, h.truncated]
    omega
  have hdrain := drain_spec hne (htext ▸ hgot)
  rw [htext, hkeep, hnot, Bool.false_or, Bool.true_and] at hdrain
  rw [hdrain]
  refine ⟨?_, rfl, ?_, ?_, ?_⟩
  · rw [List.append_assoc, List.take_append_drop, h.flow]
  · simp only [decide_eq_true_eq, List.length_append]
  · simp only [decide_eq_true_eq, List.length_append, imp_self]
  · intro hkeep'
    simp only [decide_eq_false_iff_not, not_le, List.length_append] at hkeep' ⊢
    exact Or.inl hkeep'

/-- The end of the file is reached when all that was written has been read. -/
theorem Captured.finish (h : Captured p c w got) (hdata : p.data = [])
    (hwrite : p.writeEnd = false) : Captured p (c.drain []) w got := by
  have hdrain : c.drain [] = { c with keep := false } := rfl
  rw [hdrain]
  exact ⟨h.flow, h.text, h.truncated, nofun, fun _ => Or.inr ⟨hdata, hwrite⟩⟩

/-- A stream that is given up has been captured exactly. -/
theorem Captured.exact (h : Captured p c w got) (hkeep : c.keep = false) :
    c.text = w.take maxCapture ∧ (c.truncated = true ↔ maxCapture < w.length) := by
  rw [h.text, h.truncated, ← h.flow]
  obtain hcap | ⟨hdata, _⟩ := h.ended hkeep
  · rw [List.take_append_of_le_length hcap.le, List.length_append]
    exact ⟨rfl, iff_of_true hcap (by omega)⟩
  · rw [hdata, List.append_nil]
    exact ⟨rfl, Iff.rfl⟩

end Streams

/-- Both streams are as captured, and the loop has ended only when it has given
up both. -/
structure Exact (s : State) (w : List (Stream × UInt8)) : Prop where
  shape : s.Shape
  streams : ∀ x, ∃ got, Captured (s.pipe x) (s.capture x) (bytesOf x w) got
  ended : s.pc = .waiting ∨ (∃ status code, s.pc = .returned status code) →
    ∀ x, (s.capture x).keep = false

section Steps

variable {capacity : ℕ} {timeoutSeconds : Int32} {s t : State} {w : List (Stream × UInt8)}

theorem loopTest_ended :
    s.loopTest.pc = .waiting ∨ (∃ status code, s.loopTest.pc = .returned status code) →
      ∀ x, (s.loopTest.capture x).keep = false := by
  rw [loopTest_capture]
  unfold State.loopTest
  split_ifs with hkeep
  · simp
  · intro _ x
    rw [Bool.not_eq_true, Bool.or_eq_false_iff] at hkeep
    cases x with
    | out => exact hkeep.1
    | err => exact hkeep.2

theorem afterRead_ended {x : Stream} {p : Pipe} {c : Capture} {rest : List Stream} :
    (s.afterRead x p c rest).pc = .waiting ∨
        (∃ status code, (s.afterRead x p c rest).pc = .returned status code) →
      ∀ y, ((s.afterRead x p c rest).capture y).keep = false := by
  cases rest with
  | nil => exact loopTest_ended
  | cons z zs => simp [State.afterRead]

/-- A read of one stream leaves the other one as it is. -/
theorem afterRead_streams {x : Stream} {p : Pipe} {c : Capture} {rest : List Stream}
    (h : ∀ y, ∃ got, Captured (s.pipe y) (s.capture y) (bytesOf y w) got)
    (hx : ∃ got, Captured p c (bytesOf x w) got) (y : Stream) :
    ∃ got, Captured ((s.afterRead x p c rest).pipe y) ((s.afterRead x p c rest).capture y)
      (bytesOf y w) got := by
  have hpipe : ((s.afterRead x p c rest).pipe y).data = (Function.update s.pipe x p y).data ∧
      ((s.afterRead x p c rest).pipe y).writeEnd = (Function.update s.pipe x p y).writeEnd :=
    afterRead_pipe
  rw [afterRead_capture]
  by_cases hxy : y = x
  · subst hxy
    rw [Function.update_self] at hpipe ⊢
    obtain ⟨got, hgot⟩ := hx
    exact ⟨got, hgot.congr hpipe.1 fun hwrite => hpipe.2.trans hwrite⟩
  · rw [Function.update_of_ne hxy] at hpipe ⊢
    obtain ⟨got, hgot⟩ := h y
    exact ⟨got, hgot.congr hpipe.1 fun hwrite => hpipe.2.trans hwrite⟩

theorem endChild_streams (status : WaitStatus)
    (h : ∀ x, ∃ got, Captured (s.pipe x) (s.capture x) (bytesOf x w) got) (x : Stream) :
    ∃ got, Captured ((s.endChild status).pipe x) ((s.endChild status).capture x)
      (bytesOf x w) got := by
  unfold State.endChild
  split
  · exact h x
  · obtain ⟨got, hgot⟩ := h x
    exact ⟨got, hgot.congr rfl fun _ => rfl⟩

theorem endChild_frame (status : WaitStatus) :
    (s.endChild status).pc = s.pc ∧ (s.endChild status).capture = s.capture := by
  unfold State.endChild
  split
  · exact ⟨rfl, rfl⟩
  · exact ⟨rfl, rfl⟩

/-- Only the child puts anything into the pipes. -/
theorem puts_of_ne {label : Label} (h : label ≠ .child) : puts capacity s label = [] := by
  cases label with
  | child => exact absurd rfl h
  | _ => rfl

theorem ChildMove.exact (hmove : ChildMove capacity s t) (h : Exact s w) :
    Exact t (w ++ puts capacity s .child) := by
  have hshape := hmove.shape h.shape
  unfold puts
  cases hmove with
  | exit hrunning htodo =>
      obtain ⟨hpc, hcapture⟩ := endChild_frame (s := s) (.exited s.child.exitCode)
      rw [hrunning, htodo, List.append_nil]
      refine ⟨hshape, endChild_streams _ h.streams, ?_⟩
      rw [hpc, hcapture]
      exact h.ended
  | close x rest hrunning htodo =>
      rw [hrunning, htodo, List.append_nil]
      refine ⟨hshape, fun y => ?_, h.ended⟩
      obtain ⟨got, hgot⟩ := h.streams y
      by_cases hyx : y = x
      · subst hyx
        exact ⟨got, hgot.congr (by simp) fun _ => by simp⟩
      · exact ⟨got, hgot.congr (by simp [hyx]) fun hwrite => by simp [hyx, hwrite]⟩
  | lost x byte rest hrunning htodo hclosed =>
      rw [hrunning, htodo]
      simp only
      rw [if_neg (by simp [hclosed]), List.append_nil]
      exact ⟨hshape, h.streams, h.ended⟩
  | broken x byte rest hrunning htodo hwrite hbroken =>
      obtain ⟨hpc, hcapture⟩ := endChild_frame (s := s) (.signaled 13)
      rw [hrunning, htodo]
      simp only
      rw [if_neg (by simp [hbroken]), List.append_nil]
      refine ⟨hshape, endChild_streams _ h.streams, ?_⟩
      rw [hpc, hcapture]
      exact h.ended
  | write x byte rest hrunning htodo hwrite hread hroom =>
      rw [hrunning, htodo]
      simp only
      rw [if_pos ⟨hwrite, hread, hroom⟩]
      refine ⟨hshape, fun y => ?_, h.ended⟩
      rw [bytesOf_snoc]
      dsimp only
      obtain ⟨got, hgot⟩ := h.streams y
      by_cases hxy : x = y
      · subst hxy
        rw [if_pos rfl, Function.update_self]
        exact ⟨got, hgot.write hwrite byte⟩
      · rw [if_neg hxy, List.append_nil, Function.update_of_ne (Ne.symm hxy)]
        exact ⟨got, hgot⟩

theorem timeout_streams (h : ∀ x, ∃ got, Captured (s.pipe x) (s.capture x) (bytesOf x w) got)
    (x : Stream) : ∃ got, Captured (s.timeout.pipe x) (s.timeout.capture x) (bytesOf x w) got := by
  unfold State.timeout
  split_ifs
  · exact h x
  · exact endChild_streams _ h x

theorem loopTest_streams (h : ∀ x, ∃ got, Captured (s.pipe x) (s.capture x) (bytesOf x w) got)
    (x : Stream) :
    ∃ got, Captured (s.loopTest.pipe x) (s.loopTest.capture x) (bytesOf x w) got := by
  obtain ⟨got, hgot⟩ := h x
  rw [loopTest_capture]
  exact ⟨got, hgot.congr loopTest_pipe.1 fun hwrite => loopTest_pipe.2.trans hwrite⟩

theorem ParentMove.exact {size : ℕ} (hmove : ParentMove timeoutSeconds s size t) (h : Exact s w) :
    Exact t w := by
  have hshape := hmove.shape h.shape
  cases hmove with
  | compute hpc => exact ⟨hshape, h.streams, by simp⟩
  | ready fds deadline hpc hready => exact ⟨hshape, h.streams, by simp⟩
  | expire fds time hpc hidle hle =>
      exact ⟨hshape, timeout_streams h.streams, by simp [timeout_frame]⟩
  | drained hpc => exact ⟨hshape, loopTest_streams h.streams, loopTest_ended⟩
  | finish x rest hpc hempty hclosed =>
      obtain ⟨got, hgot⟩ := h.streams x
      refine ⟨hshape, afterRead_streams h.streams ⟨got, ?_⟩, afterRead_ended⟩
      exact hgot.finish hempty hclosed
  | read x rest hpc hpos hbuffer hle =>
      have hdrain := h.shape
      unfold State.Shape at hdrain
      rw [hpc] at hdrain
      have hkeep : (s.capture x).keep = true := mem_fds.mp (hdrain.2.2 x List.mem_cons_self).1
      obtain ⟨got, hgot⟩ := h.streams x
      refine ⟨hshape, afterRead_streams h.streams ⟨got ++ (s.pipe x).data.take size, ?_⟩,
        afterRead_ended⟩
      exact hgot.read hkeep hpos hle
  | wait status hpc hstatus => exact ⟨hshape, h.streams, fun _ => h.ended (Or.inl hpc)⟩

theorem step_exact {label : Label} (h : Exact s w) (hlabel : Undisturbed s label)
    (hstep : step capacity timeoutSeconds s label = some t) :
    Exact t (w ++ puts capacity s label) := by
  cases label with
  | child => exact (childMove_of_step hstep).exact h
  | parent size =>
      rw [puts_of_ne (by simp), List.append_nil]
      exact (parentMove_of_step hstep).exact h
  | pollError interrupted =>
      have hshape := step_shape h.shape hstep
      obtain ⟨_, rfl⟩ := pollError_inv hstep
      rw [puts_of_ne (by simp), List.append_nil]
      cases interrupted with
      | true => exact ⟨hshape, h.streams, by simp⟩
      | false => exact absurd rfl hlabel.2
  | readError => exact absurd rfl hlabel.1
  | elapse ms =>
      cases hstep
      rw [puts_of_ne (by simp), List.append_nil]
      exact ⟨h.shape, h.streams, h.ended⟩

end Steps

section Runs

variable {capacity : ℕ} {timeoutSeconds : Int32} {todo : List Action} {exitCode : ℕ}
  {labels : List Label} {s : State}

theorem exact_spawned : Exact (spawned todo exitCode) [] where
  shape := List.cons_ne_nil Stream.out [.err]
  streams := fun _ => ⟨[], rfl, rfl, by simp [spawned], fun _ => Nat.zero_le _, by simp [spawned]⟩
  ended := by simp [spawned]

/-- When the drain loop ends it has given up both streams, and of a stream that
is given up it has the first bytes written to it, up to the limit, with the mark
if there were more. -/
theorem capture_exact
    (h : Run (step capacity timeoutSeconds) Undisturbed (spawned todo exitCode) labels s) :
    (s.pc = .waiting ∨ (∃ status code, s.pc = .returned status code) →
      ∀ x, (s.capture x).keep = false) ∧
    ∀ x, (s.capture x).keep = false →
      (s.capture x).text =
          (bytesWritten capacity timeoutSeconds (spawned todo exitCode) labels x).take maxCapture ∧
        ((s.capture x).truncated = true ↔
          maxCapture <
            (bytesWritten capacity timeoutSeconds (spawned todo exitCode) labels x).length) := by
  have hexact : Exact s ([] ++ trace (step capacity timeoutSeconds) (puts capacity)
      (spawned todo exitCode) labels) :=
    h.invariant_trace (fun _ _ _ _ hinv hok hstep => step_exact hinv hok hstep) exact_spawned
  rw [List.nil_append] at hexact
  refine ⟨hexact.ended, fun x hkeep => ?_⟩
  obtain ⟨got, hgot⟩ := hexact.streams x
  exact hgot.exact hkeep

/-- A child that writes one byte more than is captured to its standard error, and
no more than is captured to its standard output, is read byte by byte and exits. -/
theorem run_given_up (exitCode : ℕ) {p : List (Stream × UInt8)} (hcapacity : 0 < capacity)
    (htimeout : timeoutSeconds ≤ 0) (hlong : written .err p = maxCapture + 1)
    (hshort : written .out p ≤ maxCapture) :
    ∃ labels s, Run (step capacity timeoutSeconds) Undisturbed (spawned (writes p) exitCode) labels
        s ∧
      s.pc = .waiting ∧ (s.capture .err).truncated = true ∧
      (s.capture .out).truncated = false ∧ (s.capture .out).text = bytesOf .out p := by
  have hok : AdmitsParties Undisturbed := fun _ => by simp [Undisturbed]
  obtain ⟨labels, hrun⟩ : ∃ labels, Run (step capacity timeoutSeconds) Undisturbed
      (spawned (writes (p ++ [])) exitCode) labels (eager .err p [] exitCode) :=
    run_eager hok hcapacity (hlong.trans_le (by omega)) hshort []
  rw [List.append_nil] at hrun
  obtain ⟨s, hs⟩ : ∃ s, s = (eager .err p [] exitCode).endChild (.exited exitCode) := ⟨_, rfl⟩
  have hcapture : s.capture = fun y => captureOf (bytesOf y p) := by
    simp [hs, State.endChild, eager]
  have hclosed : s.pc = .top ∧ s.pipe .out = { writeEnd := false } := by
    simp [hs, State.endChild, eager]
  have hkeep : (s.capture .err).keep = false ∧ (s.capture .out).keep = true := by
    rw [hcapture]
    exact ⟨decide_eq_false (Nat.not_le.mpr hlong.ge), decide_eq_true hshort⟩
  have hfds : s.fds = [.out] := by simp [State.fds, hkeep]
  have hexit : step capacity timeoutSeconds (eager .err p [] exitCode) .child = some s := by
    rw [hs]
    simp [step, childStep, eager, writes]
  have hpoll : step capacity timeoutSeconds s (.parent 0) =
      some { s with pc := .polling [.out] none } := by
    have hnone : pollTimeout timeoutSeconds s.killed s.elapsed = -1 :=
      if_neg fun h => Int32.not_lt.mpr htimeout h.1
    simp [step, parentStep, hclosed, hfds, hnone]
  have hready : step capacity timeoutSeconds { s with pc := .polling [.out] none } (.parent 0) =
      some { s with pc := .drain [.out] } := by
    simp [step, parentStep, hclosed, Pipe.ready]
  have hfinish : step capacity timeoutSeconds { s with pc := .drain [.out] } (.parent 0) =
      some (({ s with pc := .drain [.out] } : State).afterRead .out (s.pipe .out)
        ((s.capture .out).drain []) []) := by
    simp [step, parentStep, hclosed]
  refine ⟨_, _, hrun.append (.cons (hok _).1 hexit (.cons ((hok _).2 0) hpoll
    (.cons ((hok _).2 0) hready (.cons ((hok _).2 0) hfinish (.nil _))))), ?_, ?_, ?_, ?_⟩
  · simp [State.afterRead, State.loopTest, State.closeReadEnds, Capture.drain, hkeep]
  · rw [afterRead_capture, Function.update_of_ne (by decide), hcapture]
    exact decide_eq_true hlong.ge
  · rw [afterRead_capture, Function.update_self, hcapture]
    exact decide_eq_false (not_lt.mpr hshort)
  · rw [afterRead_capture, Function.update_self, hcapture]
    exact List.take_of_length_le hshort

/-- Two bytes for the standard output, and one byte more than is captured for the
standard error. -/
def overlong : List (Stream × UInt8) :=
  [(.out, 1), (.out, 2)] ++ List.replicate (maxCapture + 1) (.err, 7)

/-- Both streams are read in several reads, and one of them is truncated. -/
theorem capture_exact_overlong :
    ∃ labels s, Run (step 16 0) Undisturbed (spawned (writes overlong) 0) labels s ∧
      s.pc = .waiting ∧
      (bytesWritten 16 0 (spawned (writes overlong) 0) labels .out = [1, 2] ∧
        (s.capture .out).text = [1, 2] ∧ (s.capture .out).truncated = false) ∧
      maxCapture < (bytesWritten 16 0 (spawned (writes overlong) 0) labels .err).length ∧
      (s.capture .err).text =
        (bytesWritten 16 0 (spawned (writes overlong) 0) labels .err).take maxCapture ∧
      (s.capture .err).truncated = true := by
  have hbytes : bytesOf .out overlong = [1, 2] ∧
      bytesOf .err overlong = List.replicate (maxCapture + 1) 7 := by
    simp [overlong, bytesOf]
  have hlong : written .err overlong = maxCapture + 1 := by
    rw [written, hbytes.2, List.length_replicate]
  have hshort : written .out overlong ≤ maxCapture := by
    rw [written, hbytes.1]
    decide
  obtain ⟨labels, s, hrun, hpc, hcut, hwhole, htext⟩ :=
    run_given_up 0 (by decide : 0 < 16) (by decide : (0 : Int32) ≤ 0) hlong hshort
  rw [hbytes.1] at htext
  obtain ⟨hended, hexact⟩ := capture_exact hrun
  obtain ⟨hout, houtFlag⟩ := hexact .out (hended (Or.inl hpc) .out)
  obtain ⟨herr, herrFlag⟩ := hexact .err (hended (Or.inl hpc) .err)
  have hle : (bytesWritten 16 0 (spawned (writes overlong) 0) labels .out).length ≤ maxCapture := by
    rw [← not_lt, ← houtFlag, hwhole]
    exact Bool.false_ne_true
  have hwritten : bytesWritten 16 0 (spawned (writes overlong) 0) labels .out = [1, 2] := by
    rw [← htext, hout, List.take_of_length_le hle]
  exact ⟨labels, s, hrun, hpc, ⟨hwritten, htext, hwhole⟩, herrFlag.mp hcut, herr, hcut⟩

end Runs

end AgentPulse.ProcessRunner
