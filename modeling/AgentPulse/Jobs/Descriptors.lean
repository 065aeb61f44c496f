import AgentPulse.Jobs.ProcessRunner
import AgentPulse.Lib.Transition

/-!
# Whose descriptors keep an output open

The calls of `run_command` on several threads share the descriptors of the
daemon, and a child inherits all that are open when it is spawned. So the output
of a call may be held open by the processes of another call, and they may keep
its pipe from breaking.

## Implementation notes

A call is where it stands between two of its system calls. Nothing in the source
sets the close-on-exec flag, and the file actions of a child close the pipes of
its own call only. A process stands for itself; what it forks has a copy of its
descriptors. The children of `send_notification` inherit the pipes in the same
way and are not modelled.
-/

namespace AgentPulse.Descriptors

open ProcessRunner (Stream)
open Transition

/-- The ends of a pipe. -/
inductive Side where
  | read
  | write
  deriving DecidableEq, Repr

/-- An end of a pipe of a call. -/
structure End where
  call : ℕ
  stream : Stream
  side : Side
  deriving DecidableEq

/-- Where a call stands: before `pipe(out_pipe)`, `pipe(err_pipe)`, `posix_spawn`,
the two closes of the write ends, the end of the drain loop, the second close of
a read end, and after its last close. A call whose second pipe fails returns and
leaves the first one open. -/
inductive Pc where
  | outPipe
  | errPipe
  | spawning
  | closingOut
  | closingErr
  | draining
  | closingErrRead
  | over
  | leaked
  deriving DecidableEq, Repr

/-- The ends that the daemon has open for a call. -/
def Pc.holds : Pc → Stream → Side → Bool
  | .outPipe, _, _ => false
  | .errPipe, stream, _ => stream = .out
  | .spawning, _, _ => true
  | .closingOut, _, _ => true
  | .closingErr, stream, side => !(stream = .out && side = .write)
  | .draining, _, side => side = .read
  | .closingErrRead, stream, side => stream = .err && side = .read
  | .over, _, _ => false
  | .leaked, stream, _ => stream = .out

/-- A child of a call or what it forked. -/
structure Process where
  call : ℕ
  alive : Bool
  holds : End → Bool

/-- The process closes its copy of an end. -/
def Process.close (p : Process) (e : End) : Process :=
  { p with holds := Function.update p.holds e false }

/-- The process has ended. -/
def Process.exit (p : Process) : Process := { p with alive := false }

/-- The calls of `run_command` so far and the processes they have left. -/
structure State where
  calls : List Pc
  processes : List Process

/-- No call has begun. -/
def initial : State := ⟨[], []⟩

/-- The daemon has an end open. -/
def State.daemonHolds (s : State) (e : End) : Bool :=
  (s.calls[e.call]?).elim false fun pc => pc.holds e.stream e.side

/-- Some process has an end open, or the daemon. -/
def State.IsOpen (s : State) (e : End) : Prop :=
  s.daemonHolds e = true ∨ ∃ p ∈ s.processes, p.alive = true ∧ p.holds e = true

/-- The child of a call: the write ends of its own pipes are its output, and the
other descriptors of the daemon come along. -/
def State.child (s : State) (call : ℕ) : Process where
  call := call
  alive := true
  holds := fun e => if e.call = call then e.side = .write else s.daemonHolds e

/-- A new call begins, a call makes its next system call, which may fail, and a
process forks, closes an end or exits. -/
inductive Label where
  | begin
  | advance (call : ℕ) (fails : Bool)
  | fork (process : ℕ)
  | close (process : ℕ) (e : End)
  | exit (process : ℕ)
  deriving DecidableEq

/-- The next system call. -/
def Pc.next (pc : Pc) (fails : Bool) : Option Pc :=
  match pc with
  | .outPipe => some (if fails then .over else .errPipe)
  | .errPipe => some (if fails then .leaked else .spawning)
  | .spawning => some .closingOut
  | .closingOut => some .closingErr
  | .closingErr => some .draining
  | .draining => some .closingErrRead
  | .closingErrRead => some .over
  | .over => none
  | .leaked => none

/-- One step of a call or of a process. -/
def step (s : State) : Label → Option State
  | .begin => some { s with calls := s.calls ++ [.outPipe] }
  | .advance call fails =>
      (s.calls[call]?).bind fun pc => (pc.next fails).map fun next =>
        { calls := s.calls.set call next
          processes :=
            if pc = .spawning ∧ fails = false then s.processes ++ [s.child call]
            else s.processes }
  | .fork process =>
      (s.processes[process]?).bind fun p =>
        if p.alive then some { s with processes := s.processes ++ [p] } else none
  | .close process e =>
      (s.processes[process]?).map fun p =>
        { s with processes := s.processes.set process (p.close e) }
  | .exit process =>
      (s.processes[process]?).map fun p =>
        { s with processes := s.processes.set process p.exit }

/-- The spawns of children, each with the call and the state it finds. -/
def spawns (s : State) : Label → List (ℕ × State)
  | .advance call fails =>
      if s.calls[call]? = some .spawning ∧ fails = false then [(call, s)] else []
  | _ => []

/-- Where a descriptor of a process comes from. -/
def Process.Inherited (spawned : List (ℕ × State)) (p : Process) (e : End) : Prop :=
  (e.call = p.call ∧ e.side = .write) ∨
    (e.call ≠ p.call ∧ ∃ m, (p.call, m) ∈ spawned ∧ m.daemonHolds e = true)

/-- Every descriptor of every process is one of its call's output or was open in
the daemon when its call was spawned. -/
def Traced (s : State) (spawned : List (ℕ × State)) : Prop :=
  ∀ p ∈ s.processes, ∀ e, p.holds e = true → p.Inherited spawned e

variable {s t : State} {labels : List Label} {spawned : List (ℕ × State)} {label : Label}

theorem Process.Inherited.mono {p : Process} {e : End} {more : List (ℕ × State)}
    (h : p.Inherited spawned e) : p.Inherited (spawned ++ more) e := by
  obtain h | ⟨hcall, m, hm, hholds⟩ := h
  · exact Or.inl h
  · exact Or.inr ⟨hcall, m, List.mem_append_left _ hm, hholds⟩

/-- A new child has what it inherits. -/
theorem child_inherited {call : ℕ} {e : End} (h : (s.child call).holds e = true) :
    (s.child call).Inherited (spawned ++ [(call, s)]) e := by
  have hchild : (if e.call = call then decide (e.side = .write) else s.daemonHolds e) = true := h
  split_ifs at hchild with hown
  · exact Or.inl ⟨hown, of_decide_eq_true hchild⟩
  · exact Or.inr ⟨hown, s, List.mem_append_right _ List.mem_cons_self, hchild⟩

theorem Process.close_holds {p : Process} {e e' : End} (h : (p.close e).holds e' = true) :
    p.holds e' = true := by
  have hupdate : Function.update p.holds e false e' = true := h
  by_cases heq : e' = e
  · subst heq
    rw [Function.update_self] at hupdate
    cases hupdate
  · rwa [Function.update_of_ne heq] at hupdate

/-- A process after a step has at most what one of the same call had, or it is
the child that the step spawned. -/
theorem mem_processes_of_step (hstep : step s label = some t) {p : Process}
    (hp : p ∈ t.processes) :
    (∃ q ∈ s.processes, q.call = p.call ∧ ∀ e, p.holds e = true → q.holds e = true) ∨
      ∃ call, spawns s label = [(call, s)] ∧ p = s.child call := by
  have hkept : p ∈ s.processes →
      ∃ q ∈ s.processes, q.call = p.call ∧ ∀ e, p.holds e = true → q.holds e = true :=
    fun hp => ⟨p, hp, rfl, fun _ he => he⟩
  cases label with
  | begin =>
      cases hstep
      exact Or.inl (hkept hp)
  | advance call fails =>
      obtain ⟨pc, hpc, hstep⟩ := Option.bind_eq_some_iff.mp hstep
      obtain ⟨next, -, rfl⟩ := Option.map_eq_some_iff.mp hstep
      by_cases hspawn : pc = .spawning ∧ fails = false
      · simp only [if_pos hspawn] at hp
        obtain hp | hp := List.mem_append.mp hp
        · exact Or.inl (hkept hp)
        · refine Or.inr ⟨call, ?_, List.mem_singleton.mp hp⟩
          rw [spawns, if_pos ⟨by rw [hpc, hspawn.1], hspawn.2⟩]
      · simp only [if_neg hspawn] at hp
        exact Or.inl (hkept hp)
  | fork process =>
      obtain ⟨q, hq, hstep⟩ := Option.bind_eq_some_iff.mp hstep
      split_ifs at hstep with halive
      cases hstep
      obtain hp | hp := List.mem_append.mp hp
      · exact Or.inl (hkept hp)
      · obtain rfl := List.mem_singleton.mp hp
        exact Or.inl (hkept (List.mem_of_getElem? hq))
  | close process e =>
      obtain ⟨q, hq, rfl⟩ := Option.map_eq_some_iff.mp hstep
      obtain hp | rfl := List.mem_or_eq_of_mem_set hp
      · exact Or.inl (hkept hp)
      · exact Or.inl ⟨q, List.mem_of_getElem? hq, rfl, fun _ => Process.close_holds⟩
  | exit process =>
      obtain ⟨q, hq, rfl⟩ := Option.map_eq_some_iff.mp hstep
      obtain hp | rfl := List.mem_or_eq_of_mem_set hp
      · exact Or.inl (hkept hp)
      · exact Or.inl ⟨q, List.mem_of_getElem? hq, rfl, fun _ he => he⟩

/-- A call moves only by its own system calls. -/
theorem calls_of_step (hstep : step s label = some t) {call : ℕ} {pc : Pc}
    (hpc : s.calls[call]? = some pc) :
    t.calls[call]? = some pc ∨
      ∃ fails next, label = .advance call fails ∧ pc.next fails = some next ∧
        t.calls[call]? = some next := by
  cases label with
  | begin =>
      cases hstep
      exact Or.inl ((List.getElem?_append_left (List.getElem?_eq_some_iff.mp hpc).1).trans hpc)
  | advance other fails =>
      obtain ⟨pc', hpc', hstep⟩ := Option.bind_eq_some_iff.mp hstep
      obtain ⟨next, hnext, rfl⟩ := Option.map_eq_some_iff.mp hstep
      by_cases heq : other = call
      · subst heq
        obtain rfl := Option.some.inj (hpc'.symm.trans hpc)
        exact Or.inr ⟨fails, next, rfl, hnext,
          List.getElem?_set_self (List.getElem?_eq_some_iff.mp hpc).1⟩
      · exact Or.inl ((List.getElem?_set_ne heq).trans hpc)
  | fork process =>
      obtain ⟨q, -, hstep⟩ := Option.bind_eq_some_iff.mp hstep
      split_ifs at hstep
      cases hstep
      exact Or.inl hpc
  | close process e =>
      obtain ⟨q, -, rfl⟩ := Option.map_eq_some_iff.mp hstep
      exact Or.inl hpc
  | exit process =>
      obtain ⟨q, -, rfl⟩ := Option.map_eq_some_iff.mp hstep
      exact Or.inl hpc

/-- A step keeps every descriptor traced. -/
theorem Traced.step (h : Traced s spawned) (hstep : step s label = some t) :
    Traced t (spawned ++ spawns s label) := by
  intro p hp e he
  obtain ⟨q, hq, hcall, hholds⟩ | ⟨call, hnote, rfl⟩ := mem_processes_of_step hstep hp
  · have hinherited : q.Inherited spawned e := h q hq e (hholds e he)
    rw [Process.Inherited, hcall] at hinherited
    exact Process.Inherited.mono hinherited
  · rw [hnote]
    exact child_inherited he

theorem traced_of_run (h : Run step free initial labels s) :
    Traced s (trace step spawns initial labels) := by
  have hstart : Traced initial [] := fun p hp => (List.not_mem_nil hp).elim
  have hinv : Traced s ([] ++ trace step spawns initial labels) :=
    h.invariant_trace (fun s label t notes hs _ hstep => hs.step hstep) hstart
  exact hinv

/-- A call that left a pipe open never closes it. -/
theorem leaked_stays {call : ℕ} (hleaked : s.calls[call]? = some .leaked)
    (h : Run step free s labels t) : t.calls[call]? = some .leaked := by
  let I : State → Prop := fun s => s.calls[call]? = some .leaked
  have hstep : ∀ s label t, I s → free s label → step s label = some t → I t := by
    intro s label t hs _ hstep
    obtain hstays | ⟨fails, next, -, hnext, -⟩ := calls_of_step hstep hs
    · exact hstays
    · cases hnext
  exact h.invariant hstep hleaked

/-- What the daemon has closed is open in the processes that inherited it. -/
theorem isOpen_iff_inherited (htraced : Traced s spawned) {e : End}
    (hclosed : s.daemonHolds e = false) :
    s.IsOpen e ↔ ∃ p ∈ s.processes, p.alive = true ∧ p.holds e = true ∧
      p.Inherited spawned e := by
  constructor
  · rintro (hdaemon | ⟨p, hp, halive, hholds⟩)
    · rw [hclosed] at hdaemon
      cases hdaemon
    · exact ⟨p, hp, halive, hholds, htraced p hp e hholds⟩
  · rintro ⟨p, hp, halive, hholds, -⟩
    exact Or.inr ⟨p, hp, halive, hholds⟩

/-- Once the daemon has closed an end of a call's pipe, it is open exactly in the
live processes that hold it: of the write ends the call's own, and of either end
those of another call whose child was spawned while the daemon had it open. If
there was no such spawn, a write end is open only in the call's own processes
and a read end nowhere. The first pipe of a call whose second one failed is open
for ever. -/
theorem output_held_open (h : Run step free initial labels s) (call : ℕ) (stream : Stream) :
    (∀ side, s.daemonHolds ⟨call, stream, side⟩ = false →
      (s.IsOpen ⟨call, stream, side⟩ ↔
        ∃ p ∈ s.processes, p.alive = true ∧ p.holds ⟨call, stream, side⟩ = true ∧
          ((p.call = call ∧ side = .write) ∨
            (p.call ≠ call ∧ ∃ m, (p.call, m) ∈ trace step spawns initial labels ∧
              m.daemonHolds ⟨call, stream, side⟩ = true))) ∧
      ((∀ other m, (other, m) ∈ trace step spawns initial labels → other ≠ call →
          m.daemonHolds ⟨call, stream, side⟩ = false) →
        (s.IsOpen ⟨call, stream, side⟩ ↔ side = .write ∧
          ∃ p ∈ s.processes, p.call = call ∧ p.alive = true ∧
            p.holds ⟨call, stream, side⟩ = true))) ∧
    (s.calls[call]? = some .leaked → ∀ later t, Run step free s later t →
      ∀ side, t.IsOpen ⟨call, .out, side⟩) := by
  have htraced := traced_of_run h
  refine ⟨fun side hclosed => ?_, fun hleaked later t hlater side => ?_⟩
  · have hopen : s.IsOpen ⟨call, stream, side⟩ ↔
        ∃ p ∈ s.processes, p.alive = true ∧ p.holds ⟨call, stream, side⟩ = true ∧
          ((p.call = call ∧ side = .write) ∨
            (p.call ≠ call ∧ ∃ m, (p.call, m) ∈ trace step spawns initial labels ∧
              m.daemonHolds ⟨call, stream, side⟩ = true)) := by
      rw [isOpen_iff_inherited htraced hclosed]
      simp only [Process.Inherited, ne_eq, eq_comm (a := call)]
    refine ⟨hopen, fun halone => hopen.trans ?_⟩
    constructor
    · rintro ⟨p, hp, halive, hholds, ⟨hown, hside⟩ | ⟨hother, m, hm, hheld⟩⟩
      · exact ⟨hside, p, hp, hown, halive, hholds⟩
      · rw [halone p.call m hm hother] at hheld
        cases hheld
    · rintro ⟨hside, p, hp, hown, halive, hholds⟩
      exact ⟨p, hp, halive, hholds, Or.inl ⟨hown, hside⟩⟩
  · refine Or.inl ?_
    rw [State.daemonHolds, leaked_stays hleaked hlater]
    rfl

/-- Two calls at the same time: the second spawns its child before the first has
closed its write ends. The child of the first exits, and its output stays open. -/
def overlapping : List Label :=
  [.begin, .begin, .advance 0 false, .advance 0 false, .advance 1 false, .advance 1 false,
    .advance 0 false, .advance 1 false, .advance 0 false, .advance 0 false, .exit 0]

theorem output_held_open_overlapping :
    ∃ s, Run step free initial overlapping s ∧
      s.daemonHolds ⟨0, .out, .write⟩ = false ∧
      (∀ p ∈ s.processes, p.call = 0 → p.alive = false) ∧
      s.IsOpen ⟨0, .out, .write⟩ ∧
      ∃ p ∈ s.processes, p.alive = true ∧ p.holds ⟨0, .out, .write⟩ = true ∧ p.call ≠ 0 := by
  obtain ⟨s, hrun, hs⟩ := Run.of_exec_any step free initial overlapping
    (fun s => decide (s.daemonHolds ⟨0, .out, .write⟩ = false ∧
      (∀ p ∈ s.processes, p.call = 0 → p.alive = false) ∧
      ∃ p ∈ s.processes, p.alive = true ∧ p.holds ⟨0, .out, .write⟩ = true)) (by decide)
  obtain ⟨hclosed, hdead, p, hp, halive, hholds⟩ := of_decide_eq_true hs
  have hopen : s.IsOpen ⟨0, .out, .write⟩ := Or.inr ⟨p, hp, halive, hholds⟩
  refine ⟨s, hrun, hclosed, hdead, hopen, ?_⟩
  obtain ⟨q, hq, hqalive, hqholds, ⟨hown, -⟩ | ⟨hother, -⟩⟩ :=
    (((output_held_open hrun 0 .out).1 .write hclosed).1).mp hopen
  · rw [hdead q hq hown] at hqalive
    cases hqalive
  · exact ⟨q, hq, hqalive, hqholds, hother⟩

end AgentPulse.Descriptors
