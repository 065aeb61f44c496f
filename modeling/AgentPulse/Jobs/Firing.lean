import AgentPulse.Jobs.Tasks

/-!
# The due scan of the loop

The scheduler is abstracted to what decides about scheduled runs: the jobs,
`next_run_`, the jobs the due scan still has before it, and the launches made
or decided so far with their causes. Each step of the scheduler makes one of a
few moves on this view.

## Implementation notes

A launch enters the list when the locked section decides on it. Making it
moves it from `to_launch` to the tasks, which the list does not show.
-/

namespace AgentPulse.Scheduler

open Transition

/-- The time of the tick the loop is in, once it has read the clock. -/
@[simp] def LoopPc.tick : LoopPc → Option Int
  | .scan time _ => some time
  | .lock time => some time
  | .drain time _ _ _ => some time
  | .due time _ _ => some time
  | _ => none

/-- The jobs the due scan has not looked at yet. -/
@[simp] def LoopPc.undecided : LoopPc → List Job
  | .due _ rest _ => rest
  | _ => []

/-- Where the loop stands in `scan_missed`. -/
@[simp] def LoopPc.scanPc : LoopPc → ScanPc
  | .scan _ pc => pc
  | _ => .idle

/-- The launches made and decided so far, by name and cause. -/
def State.launches (s : State) : List (Bytes × Cause) :=
  (s.tasks.map fun task => (task.job.name, task.cause)) ++
    s.loop.toLaunch.map fun entry => (entry.job.name, entry.cause)

/-- A write to the job set. -/
inductive JobWrite where
  | register (name : Bytes)
  | unregister (name : Bytes)
  deriving DecidableEq

def JobWrite.name : JobWrite → Bytes
  | .register name => name
  | .unregister name => name

/-- The write to the job set a step makes. -/
def State.writes (s : State) : Label → Option JobWrite
  | .call thread _ =>
      match s.calls thread with
      | .addUpdate stored => some (.register stored.name)
      | .removeUpdate name => some (.unregister name)
      | _ => none
  | _ => none

structure FiringView where
  jobs : List Job
  nextRun : Bytes → Option Int
  undecided : List Job
  wall : Option Int
  clock : ℕ
  launches : List (Bytes × Cause)

def State.firing (s : State) : FiringView where
  jobs := s.jobs
  nextRun := s.nextRun
  undecided := s.loop.undecided
  wall := s.loop.tick
  clock := s.clock
  launches := s.launches

/-- The moves on the view; `writes` is the write to the job set the step makes. -/
inductive FiringMove (loc : LocalTime) (writes : Option JobWrite) (v : FiringView) :
    FiringView → Prop
  | stay : FiringMove loc writes v v
  | clock (time : ℕ) : FiringMove loc writes v { v with clock := time }
  | readWall : FiringMove loc writes v { v with wall := some v.clock }
  | leave : FiringMove loc writes v { v with wall := none }
  | enter (hdone : v.undecided = []) : FiringMove loc writes v { v with undecided := v.jobs }
  | request (name : Bytes) (ticket : Nat) :
      FiringMove loc writes v { v with launches := v.launches ++ [(name, .request ticket)] }
  | skip (job : Job) (rest : List Job) (hrest : v.undecided = job :: rest) :
      FiringMove loc writes v { v with undecided := rest }
  | due (job : Job) (rest : List Job) (c : CronSchedule) (wall next : Int) (live : Bool)
      (hrest : v.undecided = job :: rest) (hwall : v.wall = some wall)
      (hschedule : job.schedule = some c) (hnext : v.nextRun job.name = some next)
      (hle : next ≤ wall) :
      FiringMove loc writes v { v with
        undecided := rest
        nextRun := Function.update v.nextRun job.name (c.nextAfter loc wall)
        launches := if live then v.launches else v.launches ++ [(job.name, .due next wall)] }
  | register (stored : Job) (hdone : v.undecided = []) (hwrites : writes = some (.register stored.name)) :
      FiringMove loc writes v { v with
        jobs := v.jobs ++ [stored]
        nextRun := JobSet.setNextRun loc v.clock stored v.nextRun }
  | unregister (name : Bytes) (hdone : v.undecided = []) (hwrites : writes = some (.unregister name)) :
      FiringMove loc writes v { v with
        jobs := v.jobs.filter fun job => job.name ≠ name
        nextRun := Function.update v.nextRun name none }

section Simulation

variable {loc : LocalTime} {s t : State}

theorem map_cause_modify (tasks : List Task) (id : Nat) (f : Task → Task)
    (hf : ∀ task, (f task).job = task.job ∧ (f task).cause = task.cause) :
    ((tasks.modify id f).map fun task => (task.job.name, task.cause)) =
      tasks.map fun task => (task.job.name, task.cause) :=
  KeyedList.map_modify_of_key fun task => by rw [(hf task).1, (hf task).2]

theorem map_cause_set (tasks : List Task) (id : Nat) (task task' : Task)
    (hget : tasks[id]? = some task) (hjob : task'.job = task.job)
    (hcause : task'.cause = task.cause) :
    ((tasks.set id task').map fun task => (task.job.name, task.cause)) =
      tasks.map fun task => (task.job.name, task.cause) :=
  KeyedList.map_set_of_key hget (by rw [hjob, hcause])

theorem undecided_of_lockFree (h : s.lockFree = true) : s.loop.undecided = [] := by
  cases hloop : s.loop <;> simp_all [State.lockFree]

theorem firing_of_due {wall : Int} {job : Job} {rest : List Job} {toLaunch : List LaunchEntry}
    (hloop : s.loop = .due wall (job :: rest) toLaunch) :
    s.firing.undecided = job :: rest ∧ s.firing.wall = some wall := by
  constructor
  · simp [State.firing, hloop]
  · simp [State.firing, hloop]

theorem LoopStep.firing (h : LoopStep loc s t) : FiringMove loc none s.firing t.firing := by
  cases h with
  | reap hloop hactive =>
      convert FiringMove.stay using 1
      simp [State.firing, State.launches, State.reap, hloop]
  | join id rest hloop =>
      convert FiringMove.stay using 1
      simp [State.firing, State.launches, State.joinTask, hloop,
        map_cause_modify s.tasks id Task.join fun _ => ⟨rfl, rfl⟩]
  | gap hloop | wake hloop | awake hloop =>
      convert FiringMove.readWall using 1
      simp [State.firing, State.launches, hloop]
  | scan wall pc next hloop hscan =>
      obtain ⟨_, _, _, _, rfl⟩ := scanStep_frame hscan
      convert FiringMove.stay using 1
      simp only
      split_ifs <;> simp [State.firing, State.launches, hloop]
  | drained wall deferred toLaunch hloop =>
      convert FiringMove.enter ?_ using 1 <;> simp [State.firing, State.launches, hloop]
  | place wall entry rest deferred toLaunch job hloop hfind hidle =>
      convert FiringMove.request job.name entry.ticket using 1
      simp [State.firing, State.launches, hloop]
  | decided wall toLaunch hloop =>
      convert FiringMove.leave using 1
      simp [State.firing, State.launches, hloop]
  | unscheduled wall job rest toLaunch hloop | unplanned wall job rest toLaunch c hloop
  | later wall job rest toLaunch c next hloop =>
      convert FiringMove.skip job rest (firing_of_due hloop).1 using 1
      simp [State.firing, State.launches, hloop]
  | overlap wall job rest toLaunch c next hloop hschedule hnext hdue hrunning =>
      obtain ⟨hrest, hwall⟩ := firing_of_due hloop
      convert FiringMove.due job rest c wall next true hrest hwall hschedule hnext
        (not_lt.mp hdue) using 1
      simp [State.firing, State.launches, hloop]
  | fire wall job rest toLaunch c next hloop hschedule hnext hdue hidle =>
      obtain ⟨hrest, hwall⟩ := firing_of_due hloop
      convert FiringMove.due job rest c wall next false hrest hwall hschedule hnext
        (not_lt.mp hdue) using 1
      simp [State.firing, State.launches, hloop]
  | launch entry rest hloop =>
      convert FiringMove.stay using 1
      simp [State.firing, State.launches, State.launchEntry, LaunchEntry.task, hloop]
  | startThread id rest hloop =>
      convert FiringMove.stay using 1
      simp [State.firing, State.launches, hloop,
        map_cause_modify s.tasks id Task.create fun _ => ⟨rfl, rfl⟩]
  | exit hloop | joined hloop | lock _ hloop | drop _ _ _ _ _ hloop | defer _ _ _ _ _ hloop
  | launched hloop | publish hloop | setJobs _ hloop =>
      convert FiringMove.stay using 1
      simp [State.firing, State.launches, hloop]

theorem StopStep.firing (h : StopStep s t) : FiringMove loc none s.firing t.firing := by
  cases h with
  | joinLoop hstopper hloop =>
      convert FiringMove.stay using 1
      simp [State.firing, State.launches, hloop]
  | join id rest task hstopper hget hdone =>
      convert FiringMove.stay using 1
      simp [State.firing, State.launches, State.joinTask,
        map_cause_modify s.tasks id Task.join fun _ => ⟨rfl, rfl⟩]
  | inactive | stop | takeTasks | joined => exact .stay

theorem CallStep.firing {thread : Nat} (h : CallStep loc s thread t) (dbError : Option Bytes) :
    FiringMove loc (s.writes (.call thread dbError)) s.firing t.firing := by
  cases h with
  | add stored hcall hfree =>
      exact .register stored (undecided_of_lockFree hfree) (by simp [State.writes, hcall])
  | remove name hcall hfree =>
      exact .unregister name (undecided_of_lockFree hfree) (by simp [State.writes, hcall])
  | _ => exact .stay

/-- Each step of the scheduler is a move on the view. -/
theorem step_firing {label : Label} (h : step loc s label = some t) :
    FiringMove loc (s.writes label) s.firing t.firing := by
  cases step_cases h with
  | clock time => exact .clock time
  | active hactive | notifyWake => exact .stay
  | start hactive hloop hstarter hstopper =>
      convert FiringMove.stay using 1
      simp [State.firing, State.launches, hloop]
  | stop hstep => exact hstep.firing
  | loop hstep => exact hstep.firing
  | starter next hscan =>
      obtain ⟨_, _, _, _, rfl⟩ := scanStep_frame hscan
      exact .stay
  | begin thread call hstep =>
      obtain ⟨_, _, rfl⟩ := hstep.frame
      exact .stay
  | call thread dbError hstep => exact hstep.firing dbError
  | worker id outcome dbOk hstep =>
      obtain ⟨task, pc, effect, _, hget, _, _⟩ := hstep
      convert FiringMove.stay using 1
      simp only [State.firing, State.launches]
      rw [map_cause_set s.tasks id task]
      · exact hget
      · rfl
      · rfl

end Simulation

end AgentPulse.Scheduler
