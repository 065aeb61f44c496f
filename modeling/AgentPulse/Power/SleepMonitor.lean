import AgentPulse.Lib.Transition
import Mathlib.Data.List.Perm.Basic
import Mathlib.Data.List.Count

/-!
# The sleep monitor and its thread

A step is one access of a call, of a thread or of the destructor to what they
share: `running_`, `run_loop_`, `thread_` and the registration in `notifier_`. A
call whose first exchange finds nothing to do returns at once; the others are
listed with the place they have reached. A thread runs from its creation, which
is before it is assigned to `thread_`.

## Implementation notes

CFRunLoopStop ends CFRunLoopRun of a loop that runs and does nothing else. What
C++ answers with a call of std::terminate (assigning to a joinable thread,
destroying one) or with an exception (a second join) ends the run.
-/

namespace AgentPulse.SleepMonitor

/-- Where a thread is in the lambda of `start`. -/
inductive ThreadPc where
  /-- before IORegisterForSystemPower -/
  | register
  /-- registration has failed, before `running_.store(false)` -/
  | report
  /-- before `run_loop_.store(loop)` -/
  | publish
  /-- before CFRunLoopRun -/
  | enter
  | looping
  /-- CFRunLoopRun has been stopped -/
  | halted
  /-- returned after a failed registration -/
  | failed
  /-- returned after IODeregisterForSystemPower -/
  | done
  deriving DecidableEq

namespace ThreadPc

/-- The lambda has returned. -/
def returned : ThreadPc → Bool
  | .failed | .done => true
  | _ => false

/-- The registration has been given back. -/
def isDone : ThreadPc → Bool
  | .done => true
  | _ => false

/-- The registration has succeeded. -/
def registered : ThreadPc → Bool
  | .register | .report | .failed => false
  | _ => true

end ThreadPc

/-- The next access of a call that has passed its exchange. -/
inductive CallPc where
  /-- `start`: create the thread -/
  | spawn
  /-- `start`: assign it to `thread_` -/
  | assign (g : ℕ)
  /-- `stop`: the test of the loop that waits for `run_loop_` -/
  | wait (i : ℕ)
  /-- `stop`: CFRunLoopStop -/
  | halt
  /-- `stop`: `thread_.joinable()` -/
  | check
  /-- `stop`: `thread_.join()` of the thread found -/
  | join (g : ℕ)
  /-- `stop`: `run_loop_.store(nullptr)` -/
  | clear
  deriving DecidableEq

/-- A call, and whether it is the one of the destructor. -/
structure Call where
  pc : CallPc
  last : Bool
  deriving DecidableEq

/-- How far the life of the monitor has come. -/
inductive Phase where
  | alive
  /-- in the destructor -/
  | closing
  | destroyed
  /-- ended by std::terminate or an exception of `join` -/
  | terminated
  deriving DecidableEq

/-- The members of `SleepMonitor`, its threads, and the calls under way. -/
structure State where
  phase : Phase
  running : Bool
  runLoop : Option ℕ
  /-- the thread whose registration `notifier_` holds -/
  notifier : Option ℕ
  /-- the thread of `thread_` if it is joinable -/
  handle : Option ℕ
  /-- all threads in the order of their creation -/
  threads : List ThreadPc
  calls : List Call
  /-- the threads joined so far -/
  joined : List ℕ
  /-- the registrations given back so far -/
  deregistered : List ℕ
  deriving DecidableEq

/-- A monitor after its construction. -/
def init : State where
  phase := .alive
  running := false
  runLoop := none
  notifier := none
  handle := none
  threads := []
  calls := []
  joined := []
  deregistered := []

/-- A call begins, the destructor ends, or a thread or a call goes on. -/
inductive Label where
  | start
  | stop
  | destruct
  /-- the end of the destructor: the member `thread_` is destroyed -/
  | release
  | thread (g : ℕ) (registers : Bool)
  | call (c : Call)
  deriving DecidableEq

namespace State

/-- The thread goes on to another place. -/
def setThread (s : State) (g : ℕ) (pc : ThreadPc) : State :=
  { s with threads := s.threads.set g pc }

/-- The call is under way. -/
def beginCall (s : State) (c : Call) : State := { s with calls := c :: s.calls }

/-- The call has returned. -/
def endCall (s : State) (c : Call) : State := { s with calls := s.calls.erase c }

/-- The call goes on to another place. -/
def moveCall (s : State) (c : Call) (pc : CallPc) : State :=
  { s with calls := { c with pc } :: s.calls.erase c }

/-- The exchange of `SleepMonitor::start`. -/
def start (s : State) : State :=
  if s.running then s else { s with running := true }.beginCall ⟨.spawn, false⟩

/-- The exchange of `SleepMonitor::stop`. -/
def stop (s : State) (last : Bool) : State :=
  if s.running then { s with running := false }.beginCall ⟨.wait 0, last⟩ else s

/-- CFRunLoopStop of the loop that `run_loop_` names. -/
def haltLoop (s : State) : State :=
  match s.runLoop with
  | some g => if s.threads[g]? = some .looping then s.setThread g .halted else s
  | none => s

/-- The lambda of `start`. -/
def threadStep (s : State) (g : ℕ) (registers : Bool) : Option State :=
  match s.threads[g]? with
  | some .register =>
      some (if registers then { s.setThread g .publish with notifier := some g }
        else s.setThread g .report)
  | some .report => some { s.setThread g .failed with running := false }
  | some .publish => some { s.setThread g .enter with runLoop := some g }
  | some .enter => some (s.setThread g .looping)
  | some .halted =>
      some { s.setThread g .done with deregistered := s.deregistered ++ s.notifier.toList }
  | _ => none

/-- The rest of `start` and `stop` after their exchange. -/
def callStep (s : State) (c : Call) : Option State :=
  match c.pc with
  | .spawn =>
      some { s.moveCall c (.assign s.threads.length) with threads := s.threads ++ [.register] }
  | .assign g =>
      some (if s.handle = none then { s.endCall c with handle := some g }
        else { s with phase := .terminated })
  | .wait i =>
      some (s.moveCall c (if i < 50 ∧ s.runLoop = none then .wait (i + 1) else .halt))
  | .halt => some (s.haltLoop.moveCall c .check)
  | .check =>
      match s.handle with
      | some g => some (s.moveCall c (.join g))
      | none => some (s.moveCall c .clear)
  | .join g =>
      if (s.threads[g]?).any ThreadPc.returned then
        some (if s.handle = some g then
          { s.moveCall c .clear with handle := none, joined := s.joined ++ [g] }
        else { s with phase := .terminated })
      else none
  | .clear => some { s.endCall c with runLoop := none }

end State

/-- One step of the monitor, while it is there. -/
def step (s : State) (a : Label) : Option State :=
  if s.phase = .destroyed ∨ s.phase = .terminated then none else
  match a with
  | .start => some s.start
  | .stop => some (s.stop false)
  | .destruct => if s.phase = .alive then some { s.stop true with phase := .closing } else none
  | .release =>
      if s.phase = .closing ∧ ∀ c ∈ s.calls, c.last = false then
        some { s with phase := if s.handle = none then .destroyed else .terminated }
      else none
  | .thread g registers => s.threadStep g registers
  | .call c => if c ∈ s.calls then s.callStep c else none

/-! ### The cases of a step -/

/-- What a call still owes. -/
inductive Kind where
  /-- a thread to create -/
  | spawning
  /-- the assignment of a thread it has created -/
  | holding (g : ℕ)
  /-- a join -/
  | stopping
  | leaving
  deriving DecidableEq

/-- What a call at this place owes. -/
def CallPc.kind : CallPc → Kind
  | .spawn => .spawning
  | .assign g => .holding g
  | .clear => .leaving
  | _ => .stopping

/-- A condition on each step, read in the state before it: a failed registration
is reported only after a stop has taken `running_`; a thread gives back its own
registration; a start assigns to an unjoinable `thread_`; a stop finds `thread_`
joinable and joins it before any other; and the destructor ends when `running_`
is not set and no stop has its join ahead. -/
def Orderly (s : State) : Label → Prop
  | .thread g _ =>
      (s.threads[g]? = some .report → s.running = false) ∧
        (s.threads[g]? = some .halted → s.notifier = some g)
  | .call c =>
      match c.pc with
      | .assign _ => s.handle = none
      | .check => s.handle ≠ none
      | .join g => s.handle = some g
      | _ => True
  | .release => s.running = false ∧ ∀ c ∈ s.calls, c.pc.kind ≠ .stopping
  | _ => True

instance (s : State) (a : Label) : Decidable (Orderly s a) := by
  unfold Orderly
  split
  · infer_instance
  · split <;> infer_instance
  · infer_instance
  · infer_instance

/-- What a step does. -/
inductive Move (s : State) : Label → State → Prop
  | idle (a : Label) (horderly : Orderly s a) : Move s a s
  | start (hrunning : s.running = false) :
      Move s .start ({ s with running := true }.beginCall ⟨.spawn, false⟩)
  | stop (a : Label) (last : Bool) (phase : Phase) (horderly : Orderly s a)
      (hrunning : s.running = true) (hopen : phase ≠ .destroyed ∧ phase ≠ .terminated) :
      Move s a { { s with running := false }.beginCall ⟨.wait 0, last⟩ with phase }
  | close (hrunning : s.running = false) : Move s .destruct { s with phase := .closing }
  | destroy (hhandle : s.handle = none) : Move s .release { s with phase := .destroyed }
  | abort (hhandle : s.handle ≠ none) : Move s .release { s with phase := .terminated }
  | clash (a : Label) (hclash : ¬Orderly s a) : Move s a { s with phase := .terminated }
  | work (g : ℕ) (registers : Bool) (pc next : ThreadPc) (runLoop notifier : Option ℕ)
      (hpc : s.threads[g]? = some pc) (hbusy : pc.returned = false ∧ next.returned = false)
      (horderly : pc ≠ .report ∧ pc ≠ .halted)
      (hnotifier : notifier = s.notifier ∨ notifier = some g) :
      Move s (.thread g registers) { s.setThread g next with runLoop, notifier }
  | report (g : ℕ) (registers : Bool) (hpc : s.threads[g]? = some .report) :
      Move s (.thread g registers) { s.setThread g .failed with running := false }
  | teardown (g : ℕ) (registers : Bool) (hpc : s.threads[g]? = some .halted) :
      Move s (.thread g registers)
        { s.setThread g .done with deregistered := s.deregistered ++ s.notifier.toList }
  | spawn (c : Call) (hc : c ∈ s.calls) (hpc : c.pc = .spawn) :
      Move s (.call c)
        { s.moveCall c (.assign s.threads.length) with threads := s.threads ++ [.register] }
  | assign (c : Call) (g : ℕ) (hc : c ∈ s.calls) (hpc : c.pc = .assign g)
      (hhandle : s.handle = none) : Move s (.call c) { s.endCall c with handle := some g }
  | advance (c : Call) (next : CallPc) (hc : c ∈ s.calls)
      (hkind : c.pc.kind = .stopping ∧ next.kind = .stopping) (horderly : Orderly s (.call c)) :
      Move s (.call c) (s.moveCall c next)
  | halt (c : Call) (g : ℕ) (hc : c ∈ s.calls) (hpc : c.pc = .halt)
      (hloop : s.threads[g]? = some .looping) :
      Move s (.call c) ((s.setThread g .halted).moveCall c .check)
  | skip (c : Call) (hc : c ∈ s.calls) (hpc : c.pc = .check) (hhandle : s.handle = none) :
      Move s (.call c) (s.moveCall c .clear)
  | join (c : Call) (g : ℕ) (hc : c ∈ s.calls) (hpc : c.pc = .join g)
      (hreturned : (s.threads[g]?).any ThreadPc.returned = true) (hhandle : s.handle = some g) :
      Move s (.call c)
        { s.moveCall c .clear with handle := none, joined := s.joined ++ [g] }
  | leave (c : Call) (hc : c ∈ s.calls) (hpc : c.pc = .clear) :
      Move s (.call c) { s.endCall c with runLoop := none }

section Moves

variable {s t : State} {c : Call} {g : ℕ} {registers : Bool}

theorem move_of_threadStep (h : s.threadStep g registers = some t) :
    Move s (.thread g registers) t := by
  unfold State.threadStep at h
  split at h
  · next hpc =>
      cases registers with
      | true =>
          cases h
          exact .work g true .register .publish s.runLoop (some g) hpc ⟨rfl, rfl⟩ (by decide)
            (Or.inr rfl)
      | false =>
          cases h
          exact .work g false .register .report s.runLoop s.notifier hpc ⟨rfl, rfl⟩ (by decide)
            (Or.inl rfl)
  · next hpc =>
      cases h
      exact .report g registers hpc
  · next hpc =>
      cases h
      exact .work g registers .publish .enter (some g) s.notifier hpc ⟨rfl, rfl⟩ (by decide)
        (Or.inl rfl)
  · next hpc =>
      cases h
      exact .work g registers .enter .looping s.runLoop s.notifier hpc ⟨rfl, rfl⟩ (by decide)
        (Or.inl rfl)
  · next hpc =>
      cases h
      exact .teardown g registers hpc
  · cases h

theorem move_of_callStep (hc : c ∈ s.calls) (h : s.callStep c = some t) : Move s (.call c) t := by
  cases hpc : c.pc with
  | spawn =>
      simp only [State.callStep, hpc] at h
      cases h
      exact .spawn c hc hpc
  | assign g =>
      simp only [State.callStep, hpc] at h
      split_ifs at h with hhandle
      · cases h
        exact .assign c g hc hpc hhandle
      · cases h
        exact .clash _ (by simpa only [Orderly, hpc] using hhandle)
  | wait i =>
      simp only [State.callStep, hpc] at h
      cases h
      refine .advance c _ hc ⟨by rw [hpc]; rfl, ?_⟩ (by simp only [Orderly, hpc])
      split_ifs <;> rfl
  | halt =>
      simp only [State.callStep, hpc] at h
      have hidle : Move s (.call c) (s.moveCall c .check) :=
        .advance c _ hc ⟨by rw [hpc]; rfl, rfl⟩ (by simp only [Orderly, hpc])
      cases hloop : s.runLoop with
      | none =>
          simp only [State.haltLoop, hloop] at h
          cases h
          exact hidle
      | some g =>
          simp only [State.haltLoop, hloop] at h
          split_ifs at h with hlooping
          · cases h
            exact .halt c g hc hpc hlooping
          · cases h
            exact hidle
  | check =>
      cases hhandle : s.handle with
      | none =>
          simp only [State.callStep, hpc, hhandle] at h
          cases h
          exact .skip c hc hpc hhandle
      | some g =>
          simp only [State.callStep, hpc, hhandle] at h
          cases h
          exact .advance c _ hc ⟨by rw [hpc]; rfl, rfl⟩ (by simp [Orderly, hpc, hhandle])
  | join g =>
      simp only [State.callStep, hpc] at h
      split_ifs at h with hreturned hhandle
      · cases h
        exact .join c g hc hpc hreturned hhandle
      · cases h
        exact .clash _ (by simpa only [Orderly, hpc] using hhandle)
  | clear =>
      simp only [State.callStep, hpc] at h
      cases h
      exact .leave c hc hpc

/-- A step is taken before the monitor has ended, and it is one of the moves. -/
theorem move_of_step {a : Label} (h : step s a = some t) :
    s.phase ≠ .destroyed ∧ s.phase ≠ .terminated ∧ Move s a t := by
  unfold step at h
  by_cases hended : s.phase = .destroyed ∨ s.phase = .terminated
  · rw [if_pos hended] at h
    cases h
  rw [if_neg hended] at h
  obtain ⟨hdestroyed, hterminated⟩ := not_or.mp hended
  refine ⟨hdestroyed, hterminated, ?_⟩
  cases a with
  | start =>
      cases h
      unfold State.start
      split_ifs with hrunning
      · exact .idle _ trivial
      · exact .start (Bool.eq_false_iff.mpr hrunning)
  | stop =>
      cases h
      unfold State.stop
      split_ifs with hrunning
      · exact .stop _ _ s.phase trivial hrunning ⟨hdestroyed, hterminated⟩
      · exact .idle _ trivial
  | destruct =>
      simp only at h
      split_ifs at h with halive
      cases h
      unfold State.stop
      split_ifs with hrunning
      · exact .stop _ _ .closing trivial hrunning (by decide)
      · exact .close (Bool.eq_false_iff.mpr hrunning)
  | release =>
      simp only at h
      split_ifs at h with hclosing hhandle
      · cases h
        exact .destroy hhandle
      · cases h
        exact .abort hhandle
  | thread g registers => exact move_of_threadStep h
  | call c =>
      simp only at h
      split_ifs at h with hc
      exact move_of_callStep hc h

/-- The destruction of `thread_` is the end of the destructor or of the process. -/
theorem step_release (h : step s .release = some t) :
    t = { s with phase := .destroyed } ∨ t = { s with phase := .terminated } := by
  unfold step at h
  by_cases hended : s.phase = .destroyed ∨ s.phase = .terminated
  · rw [if_pos hended] at h
    cases h
  rw [if_neg hended] at h
  simp only at h
  split_ifs at h with hclosing hhandle
  · exact Or.inl (Option.some.inj h).symm
  · exact Or.inr (Option.some.inj h).symm

end Moves

end AgentPulse.SleepMonitor
