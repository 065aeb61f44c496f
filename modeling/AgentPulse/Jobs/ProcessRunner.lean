import AgentPulse.Jobs.Worker
import AgentPulse.Lib.Transition

/-!
# The drain loop of `run_command` and its child

`run_command` from the moment its child is spawned: the parent polls and reads
the two pipes until neither is wanted any more, closes them and waits for the
child. The child carries out a list of writes and closes and then exits. Either
party moves by one step at a time, and time passes on its own.

## Implementation notes

A pipe holds `capacity` bytes, and the child writes byte by byte. A write to a
full pipe waits, which here means that the child has no step. A write to a pipe
whose read end is closed raises `SIGPIPE`, which ends the child.

A step of the parent goes up to its next call that can wait: the computation of
the poll timeout, the return of `poll`, one `read`, or the return of `waitpid`.
The test of the loop and the two calls of `close` after it belong to the step
before them. A `read` returns any part of what the pipe holds, at most the size
of the buffer.
-/

namespace AgentPulse.ProcessRunner

/-- `kMaxCapture`, per stream. -/
def maxCapture : ℕ := 64 * 1024

/-- The size of the read buffer. -/
def bufferSize : ℕ := 4096

inductive Stream where
  | out
  | err
  deriving DecidableEq, Repr

@[simp] def Stream.other : Stream → Stream
  | .out => .err
  | .err => .out

/-- A pipe from the child to the parent; each party holds its end open or not. -/
structure Pipe where
  data : Bytes := []
  writeEnd : Bool := true
  readEnd : Bool := true
  deriving DecidableEq

/-- What the parent has of a stream: the captured text, whether it is truncated,
and the flag `read_out` or `read_err`. -/
structure Capture where
  text : Bytes := []
  truncated : Bool := false
  keep : Bool := true
  deriving DecidableEq

/-- An action of the child. -/
inductive Action where
  | write (stream : Stream) (byte : UInt8)
  | close (stream : Stream)
  deriving DecidableEq

/-- The status `waitpid` reports. -/
inductive WaitStatus where
  | exited (code : ℕ)
  | signaled (signal : ℕ)
  deriving DecidableEq

/-- The child: what it still does, the code it then exits with, and its status
once it has ended. -/
structure Child where
  todo : List Action
  exitCode : ℕ
  status : Option WaitStatus := none
  deriving DecidableEq

/-- Where the parent stands: before the computation of the timeout, in `poll`,
before the reads of the streams that are ready, in `waitpid`, or done. -/
inductive Pc where
  | top
  | polling (fds : List Stream) (deadline : Option ℕ)
  | drain (ready : List Stream)
  | waiting
  | returned (status : RunStatus) (exitCode : Int)
  deriving DecidableEq

structure State where
  pipe : Stream → Pipe
  capture : Stream → Capture
  timedOut : Bool
  killed : Bool
  elapsed : ℕ
  pc : Pc
  child : Child

/-- One step: of the child, of the parent with the size of its read, a failure
of `poll` or of `read`, or the passing of some milliseconds. -/
inductive Label where
  | child
  | parent (size : ℕ)
  | pollError (interrupted : Bool)
  | readError
  | elapse (ms : ℕ)
  deriving DecidableEq

/-- `append_capped`: the buffer, the flag `truncated` and the result. -/
def appendCapped (buf data : Bytes) (truncated : Bool) : Bytes × Bool × Bool :=
  if buf.length ≥ maxCapture then (buf, true, false)
  else
    let room := maxCapture - buf.length
    let take := if data.length < room then data.length else room
    if take < data.length then (buf ++ data.take take, true, false)
    else (buf ++ data.take take, truncated, true)

/-- `drain` after a `read` that returned `data`; no data is the end of the file. -/
def Capture.drain (c : Capture) (data : Bytes) : Capture :=
  if data = [] then { c with keep := false }
  else
    let (text, truncated, more) := appendCapped c.text data c.truncated
    { text := text, truncated := truncated, keep := if more then c.keep else false }

/-- The timeout passed to `poll`, in milliseconds; `-1` is none. -/
def pollTimeout (timeoutSeconds : Int32) (killed : Bool) (elapsed : ℕ) : Int32 :=
  if 0 < timeoutSeconds ∧ killed = false then
    let remaining : Int := timeoutSeconds.toInt - elapsed / 1000
    let ms : Int := remaining * 1000
    if ms > 0 then Int32.ofInt ms else 0
  else -1

/-- A descriptor with `POLLIN` or `POLLHUP`. -/
def Pipe.ready (p : Pipe) : Bool := p.data ≠ [] || !p.writeEnd

/-- The poll set the flags give. -/
def State.fds (s : State) : List Stream :=
  [Stream.out, Stream.err].filter fun x => (s.capture x).keep

/-- The two calls of `close` after the loop. -/
def State.closeReadEnds (s : State) : State :=
  { s with
    pipe := fun x => { s.pipe x with readEnd := false }
    pc := .waiting }

/-- The test of the loop. -/
def State.loopTest (s : State) : State :=
  if (s.capture .out).keep || (s.capture .err).keep then { s with pc := .top }
  else s.closeReadEnds

/-- The child ends, and its ends of the pipes are closed. -/
def State.endChild (s : State) (status : WaitStatus) : State :=
  match s.child.status with
  | some _ => s
  | none =>
      { s with
        child := { s.child with status := some status }
        pipe := fun x => { s.pipe x with writeEnd := false } }

/-- The deadline has passed: the group is killed once. -/
def State.timeout (s : State) : State :=
  if s.killed then { s with timedOut := true, pc := .top }
  else { s.endChild (.signaled 9) with timedOut := true, killed := true, pc := .top }

/-- A stream has been read or given up: the next one that is ready, or the test
of the loop. -/
def State.afterRead (s : State) (x : Stream) (p : Pipe) (c : Capture) (rest : List Stream) :
    State :=
  let t : State :=
    { s with pipe := Function.update s.pipe x p, capture := Function.update s.capture x c }
  match rest with
  | [] => t.loopTest
  | _ :: _ => { t with pc := .drain rest }

/-- The result of the run from the status of the child. -/
def runStatus (timedOut : Bool) : WaitStatus → RunStatus × Int
  | .exited code =>
      if timedOut then (.timeout, -9) else (if code = 0 then .success else .failed, code)
  | .signaled signal => if timedOut then (.timeout, -9) else (.failed, -signal)

/-- A step of the parent. -/
def parentStep (timeoutSeconds : Int32) (s : State) (size : ℕ) : Option State :=
  match s.pc with
  | .top =>
      let timeoutMs := pollTimeout timeoutSeconds s.killed s.elapsed
      some { s with
        pc := .polling s.fds
          (if timeoutMs < 0 then none else some (s.elapsed + timeoutMs.toInt.toNat)) }
  | .polling fds deadline =>
      let ready := fds.filter fun x => (s.pipe x).ready
      if ready ≠ [] then some { s with pc := .drain ready }
      else match deadline with
        | none => none
        | some time => if time ≤ s.elapsed then some s.timeout else none
  | .drain [] => some s.loopTest
  | .drain (x :: rest) =>
      let p := s.pipe x
      if p.data = [] then
        if p.writeEnd then none else some (s.afterRead x p ((s.capture x).drain []) rest)
      else if 1 ≤ size ∧ size ≤ bufferSize ∧ size ≤ p.data.length then
        some (s.afterRead x { p with data := p.data.drop size }
          ((s.capture x).drain (p.data.take size)) rest)
      else none
  | .waiting =>
      s.child.status.map fun status =>
        { s with pc := .returned (runStatus s.timedOut status).1 (runStatus s.timedOut status).2 }
  | .returned _ _ => none

/-- A step of the child. -/
def childStep (capacity : ℕ) (s : State) : Option State :=
  match s.child.status, s.child.todo with
  | some _, _ => none
  | none, [] => some (s.endChild (.exited s.child.exitCode))
  | none, .close x :: rest =>
      some { s with
        child := { s.child with todo := rest }
        pipe := Function.update s.pipe x { s.pipe x with writeEnd := false } }
  | none, .write x byte :: rest =>
      let p := s.pipe x
      if p.writeEnd = false then some { s with child := { s.child with todo := rest } }
      else if p.readEnd = false then some (s.endChild (.signaled 13))
      else if p.data.length < capacity then
        some { s with
          child := { s.child with todo := rest }
          pipe := Function.update s.pipe x { p with data := p.data ++ [byte] } }
      else none

/-- One step of the two parties and their environment. -/
def step (capacity : ℕ) (timeoutSeconds : Int32) (s : State) : Label → Option State
  | .child => childStep capacity s
  | .parent size => parentStep timeoutSeconds s size
  | .pollError interrupted =>
      match s.pc with
      | .polling _ _ => some (if interrupted then { s with pc := .top } else s.closeReadEnds)
      | _ => none
  | .readError =>
      match s.pc with
      | .drain (x :: rest) => some (s.afterRead x (s.pipe x) ((s.capture x).drain []) rest)
      | _ => none
  | .elapse ms => some { s with elapsed := s.elapsed + ms }

/-- The state after `posix_spawn`. -/
def spawned (todo : List Action) (exitCode : ℕ) : State where
  pipe := fun _ => {}
  capture := fun _ => {}
  timedOut := false
  killed := false
  elapsed := 0
  pc := .top
  child := { todo := todo, exitCode := exitCode }

/-- What a step of the child does. -/
inductive ChildMove (capacity : ℕ) (s : State) : State → Prop
  | exit (hrunning : s.child.status = none) (htodo : s.child.todo = []) :
      ChildMove capacity s (s.endChild (.exited s.child.exitCode))
  | close (x : Stream) (rest : List Action) (hrunning : s.child.status = none)
      (htodo : s.child.todo = .close x :: rest) :
      ChildMove capacity s { s with
        child := { s.child with todo := rest }
        pipe := Function.update s.pipe x { s.pipe x with writeEnd := false } }
  | lost (x : Stream) (byte : UInt8) (rest : List Action) (hrunning : s.child.status = none)
      (htodo : s.child.todo = .write x byte :: rest) (hclosed : (s.pipe x).writeEnd = false) :
      ChildMove capacity s { s with child := { s.child with todo := rest } }
  | broken (x : Stream) (byte : UInt8) (rest : List Action) (hrunning : s.child.status = none)
      (htodo : s.child.todo = .write x byte :: rest) (hwrite : (s.pipe x).writeEnd = true)
      (hbroken : (s.pipe x).readEnd = false) : ChildMove capacity s (s.endChild (.signaled 13))
  | write (x : Stream) (byte : UInt8) (rest : List Action) (hrunning : s.child.status = none)
      (htodo : s.child.todo = .write x byte :: rest) (hwrite : (s.pipe x).writeEnd = true)
      (hread : (s.pipe x).readEnd = true) (hroom : (s.pipe x).data.length < capacity) :
      ChildMove capacity s { s with
        child := { s.child with todo := rest }
        pipe := Function.update s.pipe x { s.pipe x with data := (s.pipe x).data ++ [byte] } }

/-- What a step of the parent does. -/
inductive ParentMove (timeoutSeconds : Int32) (s : State) (size : ℕ) : State → Prop
  | compute (hpc : s.pc = .top) :
      ParentMove timeoutSeconds s size { s with
        pc := .polling s.fds
          (if pollTimeout timeoutSeconds s.killed s.elapsed < 0 then none
          else some (s.elapsed + (pollTimeout timeoutSeconds s.killed s.elapsed).toInt.toNat)) }
  | ready (fds : List Stream) (deadline : Option ℕ) (hpc : s.pc = .polling fds deadline)
      (hready : (fds.filter fun x => (s.pipe x).ready) ≠ []) :
      ParentMove timeoutSeconds s size
        { s with pc := .drain (fds.filter fun x => (s.pipe x).ready) }
  | expire (fds : List Stream) (time : ℕ) (hpc : s.pc = .polling fds (some time))
      (hidle : (fds.filter fun x => (s.pipe x).ready) = []) (hle : time ≤ s.elapsed) :
      ParentMove timeoutSeconds s size s.timeout
  | drained (hpc : s.pc = .drain []) : ParentMove timeoutSeconds s size s.loopTest
  | finish (x : Stream) (rest : List Stream) (hpc : s.pc = .drain (x :: rest))
      (hempty : (s.pipe x).data = []) (hclosed : (s.pipe x).writeEnd = false) :
      ParentMove timeoutSeconds s size
        (s.afterRead x (s.pipe x) ((s.capture x).drain []) rest)
  | read (x : Stream) (rest : List Stream) (hpc : s.pc = .drain (x :: rest)) (hpos : 1 ≤ size)
      (hbuffer : size ≤ bufferSize) (hle : size ≤ (s.pipe x).data.length) :
      ParentMove timeoutSeconds s size
        (s.afterRead x { s.pipe x with data := (s.pipe x).data.drop size }
          ((s.capture x).drain ((s.pipe x).data.take size)) rest)
  | wait (status : WaitStatus) (hpc : s.pc = .waiting) (hstatus : s.child.status = some status) :
      ParentMove timeoutSeconds s size
        { s with pc := .returned (runStatus s.timedOut status).1 (runStatus s.timedOut status).2 }

section Moves

variable {capacity size : ℕ} {timeoutSeconds : Int32} {s t : State}

theorem childMove_of_step (h : step capacity timeoutSeconds s .child = some t) :
    ChildMove capacity s t := by
  simp only [step, childStep] at h
  split at h
  · cases h
  · next hrunning htodo =>
      cases h
      exact .exit hrunning htodo
  · next x rest hrunning htodo =>
      cases h
      exact .close x rest hrunning htodo
  · next x byte rest hrunning htodo =>
      split_ifs at h with hclosed hbroken hroom
      · cases h
        exact .lost x byte rest hrunning htodo hclosed
      · cases h
        exact .broken x byte rest hrunning htodo (by simpa using hclosed) hbroken
      · cases h
        exact .write x byte rest hrunning htodo (by simpa using hclosed) (by simpa using hbroken)
          hroom

theorem parentMove_of_step (h : step capacity timeoutSeconds s (.parent size) = some t) :
    ParentMove timeoutSeconds s size t := by
  simp only [step, parentStep] at h
  split at h
  case h_1 hpc =>
    cases h
    exact .compute hpc
  case h_2 fds deadline hpc =>
    split at h
    · next hready =>
        cases h
        exact .ready fds deadline hpc hready
    · next hidle =>
        split at h
        · cases h
        · next time =>
            split_ifs at h with hle
            cases h
            exact .expire fds time hpc (not_not.mp hidle) hle
  case h_3 hpc =>
    cases h
    exact .drained hpc
  case h_4 x rest hpc =>
    split_ifs at h with hempty hclosed hsize
    · cases h
      exact .finish x rest hpc hempty (by simpa using hclosed)
    · cases h
      exact .read x rest hpc hsize.1 hsize.2.1 hsize.2.2
  case h_5 hpc =>
    obtain ⟨status, hstatus, rfl⟩ := Option.map_eq_some_iff.mp h
    exact .wait status hpc hstatus
  case h_6 => cases h

/-- A failed `poll` starts the loop again if it was interrupted, and ends it otherwise. -/
theorem pollError_inv {interrupted : Bool}
    (h : step capacity timeoutSeconds s (.pollError interrupted) = some t) :
    (∃ fds deadline, s.pc = .polling fds deadline) ∧
      t = if interrupted then { s with pc := .top } else s.closeReadEnds := by
  simp only [step] at h
  split at h
  · next fds deadline hpc =>
      cases h
      exact ⟨⟨fds, deadline, hpc⟩, rfl⟩
  · cases h

/-- A failed `read` gives its stream up. -/
theorem readError_inv (h : step capacity timeoutSeconds s .readError = some t) :
    ∃ x rest, s.pc = .drain (x :: rest) ∧
      t = s.afterRead x (s.pipe x) ((s.capture x).drain []) rest := by
  simp only [step] at h
  split at h
  · next x rest hpc =>
      cases h
      exact ⟨x, rest, hpc, rfl⟩
  · cases h

end Moves

end AgentPulse.ProcessRunner
