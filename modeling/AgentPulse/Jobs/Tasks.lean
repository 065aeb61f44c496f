import AgentPulse.Jobs.Steps

/-!
# The life of a task

The scheduler is abstracted to what its threads have in hand of its tasks:
the map `running_`, the launches the loop has decided on, and the tasks that
`reap_finished` and `stop` have taken out in order to join them. Each step of
the scheduler makes one of a few moves on this view. Invariants are proved on
the moves and then hold in every run.

## Implementation notes

A move carries the name that the locked section is about to put into
`to_launch`, so that a result can restrict exactly these steps of a run.
-/

namespace AgentPulse.Scheduler

/-- The launches the loop has decided on and not made yet. -/
@[simp] def LoopPc.toLaunch : LoopPc → List LaunchEntry
  | .drain _ _ _ toLaunch => toLaunch
  | .due _ _ toLaunch => toLaunch
  | .launch toLaunch => toLaunch
  | .startThread _ toLaunch => toLaunch
  | _ => []

/-- The tasks `reap_finished` has taken out and not joined yet. -/
@[simp] def LoopPc.joining : LoopPc → List Nat
  | .join finished => finished
  | _ => []

/-- The task in `running_` whose thread the loop is about to create. -/
@[simp] def LoopPc.starting : LoopPc → Option Nat
  | .startThread id _ => some id
  | _ => none

/-- The tasks `stop` has taken out and not joined yet. -/
@[simp] def StopPc.joining : StopPc → List Nat
  | .join tasks => tasks
  | _ => []

/-- The name the next step of the loop puts into `to_launch`, if it does. -/
def State.nextLaunch (s : State) : Option Bytes :=
  match s.loop with
  | .drain _ (entry :: _) _ _ =>
      if findJob s.jobs entry.name = none ∨ s.isRunning entry.name = true then none
      else some entry.name
  | .due wall (job :: _) _ =>
      match job.schedule, s.nextRun job.name with
      | some _, some next =>
          if next > wall ∨ s.isRunning job.name = true then none else some job.name
      | _, _ => none
  | _ => none

/-- What the threads have in hand of the tasks. -/
structure TaskView where
  tasks : List Task
  running : Bytes → Option Nat
  toLaunch : List LaunchEntry
  joining : List Nat
  starting : Option Nat
  halted : Bool
  stopper : StopPc
  terminated : Bool

def State.view (s : State) : TaskView where
  tasks := s.tasks
  running := s.running
  toLaunch := s.loop.toLaunch
  joining := s.loop.joining
  starting := s.loop.starting
  halted := s.loop = .idle
  stopper := s.stopper
  terminated := s.terminated

/-- The task at an index has a property. -/
def TaskView.Has (v : TaskView) (id : Nat) (p : Task → Prop) : Prop :=
  ∃ task, v.tasks[id]? = some task ∧ p task

/-- The moves on the view. -/
inductive Move (next : Option Bytes) (v : TaskView) : TaskView → Prop
  | stay : Move next v v
  | start (hstopper : v.stopper = .idle) : Move next v { v with halted := false }
  | put (entry : LaunchEntry) (hnext : next = some entry.job.name) (hactive : v.halted = false)
      (hidle : ∀ id task, v.running entry.job.name = some id → v.tasks[id]? = some task →
        task.done = true) :
      Move next v { v with toLaunch := v.toLaunch ++ [entry] }
  | reap (ids : List Nat) (hjoining : v.joining = []) (hactive : v.halted = false)
      (hids : ∀ id, id ∈ ids ↔
        v.Has id fun task => task.done = true ∧ v.running task.job.name = some id) :
      Move next v { v with
        running := fun name =>
          match v.running name with
          | none => none
          | some id => if id ∈ ids then none else some id
        joining := ids }
  | join (id : Nat) (rest : List Nat) (hjoining : v.joining = id :: rest)
      (hstarting : v.starting = none) :
      Move next v { v with tasks := v.tasks.modify id Task.join, joining := rest }
  | launch (entry : LaunchEntry) (rest : List LaunchEntry) (terminated : Bool)
      (hlaunch : v.toLaunch = entry :: rest) (hstarting : v.starting = none)
      (hjoining : v.joining = []) (hactive : v.halted = false)
      (hterminated : terminated = true ↔ ∃ id, v.running entry.job.name = some id ∧
        v.Has id fun task => task.thread = .joinable) :
      Move next v { v with
        running := Function.update v.running entry.job.name (some v.tasks.length)
        tasks := v.tasks ++ [entry.task]
        toLaunch := rest
        starting := some v.tasks.length
        terminated := terminated }
  | create (id : Nat) (hstarting : v.starting = some id) (hjoining : v.joining = []) :
      Move next v { v with tasks := v.tasks.modify id Task.create, starting := none }
  | work (id : Nat) (task task' : Task) (hget : v.tasks[id]? = some task)
      (hthread : task.thread = .joinable) (hjob : task'.job = task.job)
      (hthread' : task'.thread = .joinable) (hdone : task.done = true → task'.done = true) :
      Move next v { v with tasks := v.tasks.set id task' }
  | stop (hstopper : v.stopper = .idle) : Move next v { v with stopper := .joinLoop }
  | exit (hstopper : v.stopper = .joinLoop) (hlaunch : v.toLaunch = [])
      (hstarting : v.starting = none) (hjoining : v.joining = []) :
      Move next v { v with halted := true, stopper := .takeTasks }
  | take (ids : List Nat) (hstopper : v.stopper = .takeTasks)
      (hids : ∀ id, id ∈ ids ↔ v.Has id fun task => v.running task.job.name = some id) :
      Move next v { v with running := fun _ => none, stopper := .join ids }
  | joinStopped (id : Nat) (rest : List Nat) (hstopper : v.stopper = .join (id :: rest))
      (hdone : v.Has id fun task => task.done = true) :
      Move next v { v with tasks := v.tasks.modify id Task.join, stopper := .join rest }
  | stopped (hstopper : v.stopper = .join []) : Move next v { v with stopper := .idle }

section Simulation

variable {loc : LocalTime} {s t : State}

theorem mem_finished {id : Nat} :
    id ∈ s.finished ↔
      s.view.Has id fun task => task.done = true ∧ s.running task.job.name = some id := by
  simp only [State.finished, List.mem_filter, List.mem_range, TaskView.Has, State.view]
  cases hget : s.tasks[id]? with
  | none => simp
  | some task =>
      have hlt := (List.getElem?_eq_some_iff.mp hget).1
      simp [hlt]

theorem done_of_isRunning {name : Bytes} (h : s.isRunning name = false) (id : Nat)
    (task : Task) (hrunning : s.running name = some id) (hget : s.tasks[id]? = some task) :
    task.done = true := by
  simpa [State.isRunning, hrunning, hget] using h

theorem reap_moves (hloop : s.loop = .top) : Move s.nextLaunch s.view s.reap.view := by
  convert Move.reap s.finished ?_ ?_ fun _ => mem_finished using 1
  · simp only [State.view, State.reap, hloop]
    rfl
  · simp [State.view, hloop]
  · simp [State.view, hloop]

theorem launchEntry_moves {entry : LaunchEntry} {rest : List LaunchEntry}
    (hloop : s.loop = .launch (entry :: rest)) :
    Move s.nextLaunch s.view (s.launchEntry entry rest).view := by
  convert Move.launch entry rest (s.joinableEntry entry.job.name) ?_ ?_ ?_ ?_ ?_ using 1
  · simp [State.view, State.launchEntry, hloop]
  · simp [State.view, hloop]
  · simp [State.view, hloop]
  · simp [State.view, hloop]
  · simp [State.view, hloop]
  · simp only [State.joinableEntry, TaskView.Has, State.view]
    cases hrunning : s.running entry.job.name with
    | none => simp
    | some id => cases hget : s.tasks[id]? <;> simp [hget]

theorem LoopStep.moves (h : LoopStep loc s t) : Move s.nextLaunch s.view t.view := by
  cases h with
  | reap hloop hactive => exact reap_moves hloop
  | join id rest hloop =>
      convert Move.join id rest ?_ ?_ using 1 <;> simp [State.view, State.joinTask, hloop]
  | scan wall pc next hloop hscan =>
      obtain ⟨_, _, _, _, rfl⟩ := scanStep_frame hscan
      convert Move.stay using 1
      simp only
      split_ifs <;> simp [State.view, hloop]
  | place wall entry rest deferred toLaunch job hloop hfind hidle =>
      obtain ⟨_, hname⟩ := findJob_mem hfind
      convert Move.put ⟨job, entry.trigger, .request entry.ticket⟩ ?_ ?_ ?_ using 1
      · simp [State.view, hloop]
      · simp [State.nextLaunch, hloop, hfind, hidle, hname]
      · simp [State.view, hloop]
      · rw [hname]
        exact done_of_isRunning hidle
  | fire wall job rest toLaunch c next hloop hschedule hnext hdue hidle =>
      convert Move.put ⟨job, .schedule, .due next wall⟩ ?_ ?_ ?_ using 1
      · simp [State.view, hloop]
      · simp [State.nextLaunch, hloop, hschedule, hnext, hdue, hidle]
      · simp [State.view, hloop]
      · exact done_of_isRunning hidle
  | launch entry rest hloop => exact launchEntry_moves hloop
  | startThread id rest hloop =>
      convert Move.create id ?_ ?_ using 1 <;> simp [State.view, hloop]
  | exit hloop | joined hloop | gap hloop | wake hloop | awake hloop | lock _ hloop
  | drained _ _ _ hloop | drop _ _ _ _ _ hloop | defer _ _ _ _ _ hloop | decided _ _ hloop
  | unscheduled _ _ _ _ hloop | unplanned _ _ _ _ _ hloop | later _ _ _ _ _ _ hloop
  | overlap _ _ _ _ _ _ hloop | launched hloop | publish hloop | setJobs _ hloop =>
      convert Move.stay using 1
      simp [State.view, hloop]

theorem StopStep.moves (h : StopStep s t) : Move none s.view t.view := by
  cases h with
  | inactive hstopper hactive => exact .stay
  | stop hstopper hactive => exact .stop hstopper
  | joinLoop hstopper hloop =>
      convert Move.exit (v := s.view) hstopper ?_ ?_ ?_ using 1 <;> simp [State.view, hloop]
  | takeTasks hstopper =>
      refine Move.take _ hstopper fun id => ?_
      simp only [List.mem_filter, List.mem_range, TaskView.Has, State.view]
      cases hget : s.tasks[id]? with
      | none => simp
      | some task =>
          have hlt := (List.getElem?_eq_some_iff.mp hget).1
          simp [hlt]
  | joined hstopper => exact .stopped hstopper
  | join id rest task hstopper hget hdone => exact .joinStopped id rest hstopper ⟨task, hget, hdone⟩

/-- Each step of the scheduler is a move on the view. -/
theorem step_moves {label : Label} (h : step loc s label = some t) :
    s.terminated = false ∧
      Move (if label = .loop then s.nextLaunch else none) s.view t.view := by
  refine ⟨step_live h, ?_⟩
  cases step_cases h with
  | clock time | active hactive | notifyWake => exact .stay
  | start hactive hloop hstarter hstopper =>
      convert Move.start (v := s.view) hstopper using 1
      simp [State.view, hloop]
  | stop hstep => exact hstep.moves
  | loop hstep => exact hstep.moves
  | starter next hscan =>
      obtain ⟨_, _, _, _, rfl⟩ := scanStep_frame hscan
      exact .stay
  | begin thread call hstep =>
      obtain ⟨_, _, rfl⟩ := hstep.frame
      exact .stay
  | call thread dbError hstep =>
      obtain ⟨_, _, _, _, _, _, rfl⟩ := hstep.frame
      exact .stay
  | worker id outcome dbOk hstep =>
      obtain ⟨task, pc, effect, _, hget, hthread, _⟩ := hstep
      exact .work id task _ hget hthread rfl hthread (by simp +contextual)

end Simulation

end AgentPulse.Scheduler
