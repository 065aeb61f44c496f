import AgentPulse.Jobs.Requests

/-!
# Launches and their executions

A launch is decided in the locked section of a tick, waits in `to_launch` and
becomes a task, whose worker then writes `last_runs_`. The scheduler is
abstracted to the launches, each with the point its execution has reached, and
to that map.

## Implementation notes

A list in `to_launch` only grows at its end, and launching its first entry
appends a task, so the launches never change their order.
-/

namespace AgentPulse.Scheduler

/-- The launches made and decided so far, as they stand in `to_launch`. -/
def State.launchEntries (s : State) : List LaunchEntry :=
  s.tasks.map Task.entry ++ s.loop.toLaunch

structure ExecutionView where
  executions : List (LaunchEntry × Worker.Pc)
  lastRuns : Bytes → Option RunRecord

def State.execution (s : State) : ExecutionView where
  executions := (s.tasks.map fun task => (task.entry, task.pc)) ++
    s.loop.toLaunch.map fun entry => (entry, Worker.start)
  lastRuns := s.lastRuns

theorem map_fst_executions (s : State) :
    s.execution.executions.map Prod.fst = s.launchEntries := by
  simp [State.execution, State.launchEntries, Function.comp_def]

/-- How a launch comes about: a request is taken from the queue, or a job is due. -/
inductive Launches (s : State) : LaunchEntry → Prop
  | request (wall : Int) (entry : QueueEntry) (rest deferred : List QueueEntry)
      (toLaunch : List LaunchEntry) (job : Job)
      (hloop : s.loop = .drain wall (entry :: rest) deferred toLaunch)
      (hfind : findJob s.jobs entry.name = some job) (hlive : s.isRunning entry.name = false) :
      Launches s ⟨job, entry.trigger, .request entry.ticket⟩
  | due (wall : Int) (job : Job) (rest : List Job) (toLaunch : List LaunchEntry) (next : Int)
      (hloop : s.loop = .due wall (job :: rest) toLaunch)
      (hnext : s.nextRun job.name = some next) (hlive : s.isRunning job.name = false) :
      Launches s ⟨job, .schedule, .due next wall⟩

/-- The moves of the executions. -/
inductive ExecutionMove (s : State) (label : Label) : ExecutionView → Prop
  | stay : ExecutionMove s label s.execution
  | launch (entry : LaunchEntry) (hlabel : label = .loop) (hlaunch : Launches s entry) :
      ExecutionMove s label { s.execution with
        executions := s.execution.executions ++ [(entry, Worker.start)] }
  | work (id : Nat) (entry : LaunchEntry) (old pc : Worker.Pc) (effect : Worker.Effect)
      (outcome : Outcome) (hget : s.execution.executions[id]? = some (entry, old))
      (hstep : Worker.step entry.job entry.trigger s.active s.clock outcome old =
        some (pc, effect)) :
      ExecutionMove s label
        { executions := s.execution.executions.set id (entry, pc)
          lastRuns := lastRunsAfter effect entry.job.name s.lastRuns }
  | unregister (name : Bytes) (hwrites : s.writes label = some (.unregister name)) :
      ExecutionMove s label { s.execution with
        lastRuns := Function.update s.lastRuns name none }

section Steps

variable {loc : LocalTime} {s t : State} {label : Label}

theorem ExecutionMove.of_eq (h : t.execution = s.execution) :
    ExecutionMove s label t.execution :=
  h ▸ .stay

theorem LoopStep.execution (h : LoopStep loc s t) : ExecutionMove s .loop t.execution := by
  have hmodify : ∀ id (f : Task → Task), (∀ task, (f task).entry = task.entry ∧
      (f task).pc = task.pc) → (s.tasks.modify id f).map (fun task => (task.entry, task.pc)) =
        s.tasks.map fun task => (task.entry, task.pc) := fun id f hf =>
    KeyedList.map_modify_of_key fun task => by rw [(hf task).1, (hf task).2]
  cases h with
  | reap hloop hactive =>
      apply ExecutionMove.of_eq
      simp [State.execution, State.reap, hloop]
  | join id rest hloop =>
      apply ExecutionMove.of_eq
      simp [State.execution, State.joinTask, hloop, hmodify id Task.join fun _ => ⟨rfl, rfl⟩]
  | scan wall pc next hloop hscan =>
      obtain ⟨_, _, _, _, rfl⟩ := scanStep_frame hscan
      apply ExecutionMove.of_eq
      simp only
      split_ifs <;> simp [State.execution, hloop]
  | place wall entry rest deferred toLaunch job hloop hfind hidle =>
      have hlaunch : Launches s ⟨job, entry.trigger, .request entry.ticket⟩ :=
        .request wall entry rest deferred toLaunch job hloop hfind hidle
      convert ExecutionMove.launch _ rfl hlaunch using 1
      simp [State.execution, hloop]
  | fire wall job rest toLaunch c next hloop hschedule hnext hdue hidle =>
      have hlaunch : Launches s ⟨job, .schedule, .due next wall⟩ :=
        .due wall job rest toLaunch next hloop hnext hidle
      convert ExecutionMove.launch _ rfl hlaunch using 1
      simp [State.execution, hloop]
  | launch entry rest hloop =>
      apply ExecutionMove.of_eq
      simp [State.execution, State.launchEntry, LaunchEntry.task, Task.entry, hloop]
  | startThread id rest hloop =>
      apply ExecutionMove.of_eq
      simp [State.execution, hloop, hmodify id Task.create fun _ => ⟨rfl, rfl⟩]
  | exit hloop | joined hloop | gap hloop | wake hloop | awake hloop | lock _ hloop
  | drained _ _ _ hloop | drop _ _ _ _ _ hloop | defer _ _ _ _ _ hloop | decided _ _ hloop
  | unscheduled _ _ _ _ hloop | unplanned _ _ _ _ _ hloop | later _ _ _ _ _ _ hloop
  | overlap _ _ _ _ _ _ hloop | launched hloop | publish hloop | setJobs _ hloop =>
      apply ExecutionMove.of_eq
      simp [State.execution, hloop]

theorem StopStep.execution (h : StopStep s t) : ExecutionMove s label t.execution := by
  apply ExecutionMove.of_eq
  cases h with
  | joinLoop hstopper hloop => simp [State.execution, hloop]
  | join id rest task hstopper hget hdone =>
      have hentries : (s.tasks.modify id Task.join).map (fun task => (task.entry, task.pc)) =
          s.tasks.map fun task => (task.entry, task.pc) :=
        KeyedList.map_modify_of_key fun _ => rfl
      simp [State.execution, State.joinTask, hentries]
  | inactive | stop | takeTasks | joined => rfl

theorem CallStep.execution {thread : Nat} (h : CallStep loc s thread t)
    (dbError : Option Bytes) : ExecutionMove s (.call thread dbError) t.execution := by
  cases h with
  | remove name hcall hfree => exact .unregister name (by simp [State.writes, hcall])
  | _ => exact .stay

theorem WorkerStep.execution {id : Nat} {outcome : Outcome} (h : WorkerStep s id outcome t) :
    ExecutionMove s label t.execution := by
  obtain ⟨task, pc, effect, _, hget, _, hstep⟩ := h
  have hlt := (List.getElem?_eq_some_iff.mp hget).1
  have hexecution : s.execution.executions[id]? = some (task.entry, task.pc) := by
    simp only [State.execution]
    rw [List.getElem?_append_left (by simpa using hlt), List.getElem?_map, hget]
    rfl
  convert ExecutionMove.work id task.entry task.pc pc effect outcome hexecution hstep using 1
  simp only [State.execution, Task.entry]
  rw [List.set_append_left _ _ (by simpa using hlt), List.map_set]

/-- Each step of the scheduler is a move of the executions. -/
theorem step_execution (h : step loc s label = some t) : ExecutionMove s label t.execution := by
  cases step_cases h with
  | clock | active | notifyWake => exact .stay
  | start hactive hloop hstarter hstopper =>
      apply ExecutionMove.of_eq
      simp [State.execution, hloop]
  | stop hstep => exact hstep.execution
  | loop hstep => exact hstep.execution
  | starter next hscan =>
      obtain ⟨_, _, _, _, rfl⟩ := scanStep_frame hscan
      exact .stay
  | begin thread call hstep =>
      obtain ⟨_, _, rfl⟩ := hstep.frame
      exact .stay
  | call thread dbError hstep => exact hstep.execution dbError
  | worker id outcome dbOk hstep => exact hstep.execution

/-- A step adds at most one launch, and then it is a step of the loop. -/
theorem step_launches (h : step loc s label = some t) :
    t.launchEntries = s.launchEntries ∨ label = .loop ∧
      ∃ launch, Launches s launch ∧ t.launchEntries = s.launchEntries ++ [launch] := by
  rw [← map_fst_executions s, ← map_fst_executions t]
  have hmove := step_execution h
  generalize t.execution = v at hmove ⊢
  cases hmove with
  | stay => exact Or.inl rfl
  | launch entry hlabel hlaunch => exact Or.inr ⟨hlabel, entry, hlaunch, List.map_append⟩
  | work id entry old pc effect outcome hget hstep =>
      exact Or.inl (KeyedList.map_set_of_key hget rfl)
  | unregister name hwrites => exact Or.inl rfl

end Steps

end AgentPulse.Scheduler
