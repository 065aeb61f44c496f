import AgentPulse.Jobs.JobSet
import AgentPulse.Jobs.Worker
import AgentPulse.Lib.Transition

/-!
# The scheduler as a transition system

`Scheduler` with all of its threads: the loop, the caller of `start`, the
caller of `stop`, any number of client calls, the workers, the power monitor
and the wall clock. Each label moves one thread by one step. A step is one
critical section or one access to an atomic; inside the long locked section of
the loop it is the treatment of one queue entry or of one job, because a
worker may set its `done` flag in between.

## Implementation notes

The clock belongs to the environment and may be set to any time, forwards or
backwards. `tickets`, `dropped`, `alertLog` and `returns` are history: steps
write them and never read them. The same holds for the ticket of a queue entry
and for the cause of a task, which identify the request a launch answers. The
queue is emptied when the loop takes `mutex_` and refilled before it releases
it, so no thread can tell it from the source, which assigns it once at the end.

Destroying a joinable `std::thread` terminates the process. The flag
`terminated` records it, and no step follows.
-/

namespace AgentPulse

/-- The occurrence that should have run at or before `now` although the last
run predates it. -/
def detectMissedRun (c : CronSchedule) (loc : LocalTime) (lastRunTs now : Int) : Option Int :=
  match c.prevBefore loc now with
  | none => none
  | some prev => if lastRunTs ≥ prev then none else some prev

namespace Scheduler

/-- An entry of `queue_`. -/
structure QueueEntry where
  name : Bytes
  trigger : Trigger
  ticket : Nat
  deriving DecidableEq

/-- A request ever put into the queue; a missed run names its occurrence. -/
structure Ticket where
  name : Bytes
  trigger : Trigger
  occurrence : Option Int
  deriving DecidableEq

/-- Why a run was launched: a queued request, or a due schedule whose old next
time was `lo` at a tick of time `hi`. -/
inductive Cause where
  | request (ticket : Nat)
  | due (lo hi : Int)
  deriving DecidableEq

/-- An entry of `to_launch`. -/
structure LaunchEntry where
  job : Job
  trigger : Trigger
  cause : Cause
  deriving DecidableEq

/-- The `std::thread` of a task. -/
inductive ThreadState where
  | unstarted
  | joinable
  | joined
  deriving DecidableEq, Repr

/-- A `RunningTask` and the execution it belongs to. -/
structure Task where
  job : Job
  trigger : Trigger
  cause : Cause
  pc : Worker.Pc
  thread : ThreadState
  done : Bool
  deriving DecidableEq

/-- The task `launch` creates. -/
def LaunchEntry.task (entry : LaunchEntry) : Task :=
  ⟨entry.job, entry.trigger, entry.cause, Worker.start, .unstarted, false⟩

/-- A task whose thread has been joined. -/
def Task.join (task : Task) : Task := { task with thread := .joined }

/-- A task whose thread has been created. -/
def Task.create (task : Task) : Task := { task with thread := .joinable }

/-- Where a thread stands in `scan_missed`. -/
inductive ScanPc where
  | idle
  | start
  | snapshot (now : Int)
  | read (now : Int) (candidates : List Job)
  | check (now : Int) (job : Job) (lastRunTs : Int) (rest : List Job)
  | alert (now : Int) (job : Job) (missed : Int) (rest : List Job)
  | enqueue (now : Int) (job : Job) (missed : Int) (rest : List Job)
  deriving DecidableEq

/-- Where the loop thread stands. It holds `mutex_` in `drain` and `due`. -/
inductive LoopPc where
  | idle
  | top
  | join (finished : List Nat)
  | wall
  | scan (wall : Int) (pc : ScanPc)
  | lock (wall : Int)
  | drain (wall : Int) (rest deferred : List QueueEntry) (toLaunch : List LaunchEntry)
  | due (wall : Int) (rest : List Job) (toLaunch : List LaunchEntry)
  | launch (toLaunch : List LaunchEntry)
  | startThread (id : Nat) (toLaunch : List LaunchEntry)
  | publish
  | setJobs (statuses : List JobStatus)
  | exited
  deriving DecidableEq

/-- Where the caller of `stop` stands. -/
inductive StopPc where
  | idle
  | joinLoop
  | takeTasks
  | join (tasks : List Nat)
  deriving DecidableEq

/-- A call of the socket API. -/
inductive ClientCall where
  | requestRun (name : Bytes)
  | addJob (job : Job)
  | removeJob (name : Bytes)
  deriving DecidableEq

/-- Where a client thread stands in its call. -/
inductive CallPc where
  | idle
  | enqueue (name : Bytes)
  | addPersist (stored : Job)
  | addUpdate (stored : Job)
  | removeDelete (name : Bytes)
  | removeUpdate (name : Bytes)
  | publish (call : ClientCall)
  | setJobs (call : ClientCall) (statuses : List JobStatus)
  deriving DecidableEq

structure State extends JobSet where
  running : Bytes → Option Nat
  queue : List QueueEntry
  lastWall : Int
  wakePending : Bool
  active : Bool
  loop : LoopPc
  starter : ScanPc
  stopper : StopPc
  calls : Nat → CallPc
  tasks : List Task
  clock : ℕ
  published : List JobStatus
  runs : List RunRecord
  tickets : List Ticket
  dropped : List Nat
  alertLog : List (AlertInfo Int)
  returns : List (ClientCall × Option Bytes)
  terminated : Bool

/-- One step of one thread. A client step and a worker step carry the outcome
of their database write, a worker step also that of its command. -/
inductive Label where
  | clock (time : ℕ)
  | start
  | stop
  | notifyWake
  | loop
  | starter
  | begin (thread : Nat) (call : ClientCall)
  | call (thread : Nat) (dbError : Option Bytes)
  | worker (id : Nat) (outcome : Outcome) (dbOk : Bool)
  deriving DecidableEq

/-- No thread holds `mutex_` across steps. -/
def State.lockFree (s : State) : Bool :=
  match s.loop with
  | .drain _ _ _ _ => false
  | .due _ _ _ => false
  | _ => true

/-- The test `is_running` of the loop: an entry whose flag is not set. -/
def State.isRunning (s : State) (name : Bytes) : Bool :=
  match s.running name with
  | none => false
  | some id =>
      match s.tasks[id]? with
      | none => false
      | some task => !task.done

/-- The statuses `publish_status` collects under `mutex_`. -/
def State.statuses (s : State) : List JobStatus :=
  s.jobs.map fun job =>
    { name := job.name
      scheduleExpr := job.scheduleExpr
      source := job.source.toText
      nextRun := (s.nextRun job.name).getD 0
      running := s.isRunning job.name
      lastRun := (s.lastRuns job.name).map fun r =>
        { status := r.status
          startedAt := r.startedAt
          exitCode := r.exitCode
          durationMs := r.durationMs
          trigger := r.trigger } }

/-- `Scheduler::enqueue`. -/
def State.enqueue (s : State) (name : Bytes) (trigger : Trigger) (occurrence : Option Int) :
    State :=
  { s with
    queue := s.queue ++ [⟨name, trigger, s.tickets.length⟩]
    tickets := s.tickets ++ [⟨name, trigger, occurrence⟩] }

/-- The wall-clock gap above which the loop takes the machine to have slept. -/
def wakeGapSeconds : Int := 90

/-- A job `scan_missed` looks at. -/
def isCandidate (job : Job) : Bool :=
  job.schedule.isSome && job.missedRunPolicy ≠ .none

/-- The check-and-set on `missed_handled_`: the new map and whether `missed` is new. -/
def handleMissed (handled : Bytes → Option Int) (name : Bytes) (missed : Int) :
    (Bytes → Option Int) × Bool :=
  if (handled name).getD 0 ≥ missed then
    (Function.update handled name (some ((handled name).getD 0)), false)
  else (Function.update handled name (some missed), true)

/-- The alert for a missed run. -/
def missedAlert (ts : Int) (job : Job) (missed : Int) : AlertInfo Int :=
  jobAlert ts job.name (text "warning")
    (text "scheduled run was missed (Mac asleep or daemon down) — recovering now")
    (text "policy: " ++ job.missedRunPolicy.toText) missed

/-- One step of `scan_missed` on whichever thread runs it. -/
def scanStep (loc : LocalTime) (s : State) : ScanPc → Option (State × ScanPc)
  | .idle => none
  | .start => some (s, .snapshot s.clock)
  | .snapshot now =>
      if s.lockFree then some (s, .read now (s.jobs.filter isCandidate)) else none
  | .read _ [] => some (s, .idle)
  | .read now (job :: rest) =>
      if s.lockFree then
        some (s, .check now job (((s.lastRuns job.name).map RunRecord.startedAt).getD 0) rest)
      else none
  | .check now job lastRunTs rest =>
      match job.schedule.bind fun c => detectMissedRun c loc lastRunTs now with
      | none => some (s, .read now rest)
      | some missed =>
          if s.lockFree then
            let handled := handleMissed s.missedHandled job.name missed
            some ({ s with missedHandled := handled.1 },
              if handled.2 then .alert now job missed rest else .read now rest)
          else none
  | .alert now job missed rest =>
      some ({ s with alertLog := s.alertLog ++ [missedAlert s.clock job missed] },
        .enqueue now job missed rest)
  | .enqueue now job missed rest =>
      if s.lockFree then some (s.enqueue job.name .missed (some missed), .read now rest) else none

/-- The tasks `reap_finished` takes out of `running_`: those whose flag is set. -/
def State.finished (s : State) : List Nat :=
  (List.range s.tasks.length).filter fun id =>
    match s.tasks[id]? with
    | none => false
    | some task => task.done && s.running task.job.name = some id

/-- The first critical section of `reap_finished`. -/
def State.reap (s : State) : State :=
  { s with
    running := fun name =>
      match s.running name with
      | none => none
      | some id => if id ∈ s.finished then none else some id
    loop := .join s.finished }

/-- `task->thread.join()`. -/
def State.joinTask (s : State) (id : Nat) : State :=
  { s with tasks := s.tasks.modify id Task.join }

/-- Reading the wall clock, with the decision whether to scan for missed runs.
A gap is enough, and then the pending wake is not consumed. -/
def State.readWall (s : State) : State :=
  let wall : Int := s.clock
  if wall - s.lastWall > wakeGapSeconds then
    { s with lastWall := wall, loop := .scan wall .start }
  else if s.wakePending then
    { s with lastWall := wall, wakePending := false, loop := .scan wall .start }
  else { s with lastWall := wall, loop := .lock wall }

/-- One queue entry in the locked section: dropped, deferred or to be launched. -/
def State.drainEntry (s : State) (wall : Int) (entry : QueueEntry)
    (rest deferred : List QueueEntry) (toLaunch : List LaunchEntry) : State :=
  match findJob s.jobs entry.name with
  | none =>
      { s with
        dropped := s.dropped ++ [entry.ticket]
        loop := .drain wall rest deferred toLaunch }
  | some job =>
      if s.isRunning entry.name then
        { s with loop := .drain wall rest (deferred ++ [entry]) toLaunch }
      else
        { s with
          loop := .drain wall rest deferred
            (toLaunch ++ [⟨job, entry.trigger, .request entry.ticket⟩]) }

/-- One job in the due scan of the locked section. -/
def State.dueJob (loc : LocalTime) (s : State) (wall : Int) (job : Job) (rest : List Job)
    (toLaunch : List LaunchEntry) : State :=
  match job.schedule with
  | none => { s with loop := .due wall rest toLaunch }
  | some c =>
      match s.nextRun job.name with
      | none => { s with loop := .due wall rest toLaunch }
      | some next =>
          if next > wall then { s with loop := .due wall rest toLaunch }
          else
            { s with
              nextRun := Function.update s.nextRun job.name (c.nextAfter loc wall)
              loop := .due wall rest
                (if s.isRunning job.name then toLaunch
                else toLaunch ++ [⟨job, .schedule, .due next wall⟩]) }

/-- The thread of the task that `running_[name]` holds is joinable. -/
def State.joinableEntry (s : State) (name : Bytes) : Bool :=
  match s.running name with
  | none => false
  | some id =>
      match s.tasks[id]? with
      | none => false
      | some task => task.thread = .joinable

/-- The critical section of `launch`. Assigning `running_[name]` destroys the
task that was there, and with it a thread that is still joinable. -/
def State.launchEntry (s : State) (entry : LaunchEntry) (rest : List LaunchEntry) : State :=
  { s with
    running := Function.update s.running entry.job.name (some s.tasks.length)
    tasks := s.tasks ++ [entry.task]
    loop := .startThread s.tasks.length rest
    terminated := s.joinableEntry entry.job.name }

/-- One step of the loop thread. -/
def loopStep (loc : LocalTime) (s : State) : Option State :=
  match s.loop with
  | .idle => none
  | .top => if s.active then some s.reap else some { s with loop := .exited }
  | .join [] => some { s with loop := .wall }
  | .join (id :: rest) => some { s.joinTask id with loop := .join rest }
  | .wall => some s.readWall
  | .scan wall pc =>
      (scanStep loc s pc).map fun (t, next) =>
        { t with loop := if next = .idle then .lock wall else .scan wall next }
  | .lock wall => some { s with queue := [], loop := .drain wall s.queue [] [] }
  | .drain wall [] deferred toLaunch =>
      some { s with queue := deferred, loop := .due wall s.jobs toLaunch }
  | .drain wall (entry :: rest) deferred toLaunch =>
      some (s.drainEntry wall entry rest deferred toLaunch)
  | .due _ [] toLaunch => some { s with loop := .launch toLaunch }
  | .due wall (job :: rest) toLaunch => some (s.dueJob loc wall job rest toLaunch)
  | .launch [] => some { s with loop := .publish }
  | .launch (entry :: rest) => some (s.launchEntry entry rest)
  | .startThread id rest =>
      some { s with tasks := s.tasks.modify id Task.create, loop := .launch rest }
  | .publish => some { s with loop := .setJobs s.statuses }
  | .setJobs statuses => some { s with published := statuses, loop := .top }
  | .exited => none

/-- `start`: nothing if the scheduler is active, else the loop thread and the
first scan begin. -/
def startStep (s : State) : Option State :=
  if s.active then some s
  else if s.loop = .idle ∧ s.starter = .idle ∧ s.stopper = .idle then
    some { s with active := true, lastWall := s.clock, loop := .top, starter := .start }
  else none

/-- One step of `stop`: it waits for the loop, takes every task out of
`running_` and joins them. -/
def stopStep (s : State) : Option State :=
  match s.stopper with
  | .idle => if s.active then some { s with active := false, stopper := .joinLoop } else some s
  | .joinLoop =>
      if s.loop = .exited then some { s with loop := .idle, stopper := .takeTasks } else none
  | .takeTasks =>
      some { s with
        running := fun _ => none
        stopper := .join ((List.range s.tasks.length).filter fun id =>
          match s.tasks[id]? with
          | none => false
          | some task => s.running task.job.name = some id) }
  | .join [] => some { s with stopper := .idle }
  | .join (id :: rest) =>
      match s.tasks[id]? with
      | none => none
      | some task => if task.done then some { s.joinTask id with stopper := .join rest } else none

/-- A client call up to and including its first critical section. -/
def beginStep (s : State) (thread : Nat) (call : ClientCall) : Option State :=
  if s.calls thread = .idle ∧ s.lockFree = true then
    let refuse (error : Bytes) : State := { s with returns := s.returns ++ [(call, some error)] }
    let go (pc : CallPc) : State := { s with calls := Function.update s.calls thread pc }
    match call with
    | .requestRun name =>
        if findJob s.jobs name = none then some (refuse []) else some (go (.enqueue name))
    | .addJob job =>
        match JobSet.addJobCheck s.jobs job with
        | some error => some (refuse error)
        | none => some (go (.addPersist (JobSet.storedJob job)))
    | .removeJob name =>
        match JobSet.removeJobCheck s.jobs name with
        | some error => some (refuse error)
        | none => some (go (.removeDelete name))
  else none

/-- The call returns: its thread is idle again. -/
def State.ret (s : State) (thread : Nat) (call : ClientCall) (error : Option Bytes) : State :=
  { s with
    calls := Function.update s.calls thread .idle
    returns := s.returns ++ [(call, error)] }

/-- A further step of a client call. -/
def callStep (loc : LocalTime) (s : State) (thread : Nat) (dbError : Option Bytes) :
    Option State :=
  let go (t : State) (pc : CallPc) : State := { t with calls := Function.update t.calls thread pc }
  match s.calls thread with
  | .idle => none
  | .enqueue name =>
      if s.lockFree then some ((s.enqueue name .manual none).ret thread (.requestRun name) none)
      else none
  | .addPersist stored =>
      match dbError with
      | some what =>
          some (s.ret thread (.addJob stored) (some (text "could not persist job: " ++ what)))
      | none => some (go { s with table := s.table.upsert (defFromJob stored) } (.addUpdate stored))
  | .addUpdate stored =>
      if s.lockFree then
        some (go { s with toJobSet := s.toJobSet.addJobUpdate loc s.clock stored }
          (.publish (.addJob stored)))
      else none
  | .removeDelete name =>
      match dbError with
      | some what =>
          some (s.ret thread (.removeJob name) (some (text "could not delete job: " ++ what)))
      | none => some (go { s with table := s.table.delete name } (.removeUpdate name))
  | .removeUpdate name =>
      if s.lockFree then
        some (go { s with toJobSet := s.toJobSet.removeJobUpdate name }
          (.publish (.removeJob name)))
      else none
  | .publish call => if s.lockFree then some (go s (.setJobs call s.statuses)) else none
  | .setJobs call statuses => some ({ s with published := statuses }.ret thread call none)

/-- A worker step needs `mutex_` only to write `last_runs_`. -/
def workerStep (s : State) (id : Nat) (outcome : Outcome) (dbOk : Bool) : Option State :=
  match s.tasks[id]? with
  | none => none
  | some task =>
      if task.thread ≠ .joinable then none
      else match Worker.step task.job task.trigger s.active s.clock outcome task.pc with
      | none => none
      | some (pc, effect) =>
          let moved : State := { s with tasks := s.tasks.set id { task with pc := pc } }
          match effect with
          | .none => some moved
          | .insertRun record =>
              some { moved with runs := if dbOk then s.runs ++ [record] else s.runs }
          | .setLastRun record =>
              if s.lockFree then
                some { moved with lastRuns := Function.update s.lastRuns task.job.name (some record) }
              else none
          | .alert info => some { moved with alertLog := s.alertLog ++ [info] }
          | .done => some { moved with tasks := s.tasks.set id { task with pc := pc, done := true } }

/-- One step of the scheduler and its environment. -/
def step (loc : LocalTime) (s : State) (label : Label) : Option State :=
  if s.terminated then none
  else match label with
  | .clock time => some { s with clock := time }
  | .start => startStep s
  | .stop => stopStep s
  | .notifyWake => some { s with wakePending := true }
  | .loop => loopStep loc s
  | .starter => (scanStep loc s s.starter).map fun (t, next) => { t with starter := next }
  | .begin thread call => beginStep s thread call
  | .call thread dbError => callStep loc s thread dbError
  | .worker id outcome dbOk => workerStep s id outcome dbOk

/-- A scheduler as its constructor leaves it, before `start`. -/
def initial (loc : LocalTime) (config : List Job) (table : JobTable)
    (lastRun : Bytes → Option RunRecord) (now : ℕ) : State :=
  let s : State :=
    { JobSet.construct loc config table lastRun now with
      running := fun _ => none
      queue := []
      lastWall := 0
      wakePending := false
      active := false
      loop := .idle
      starter := .idle
      stopper := .idle
      calls := fun _ => .idle
      tasks := []
      clock := now
      published := []
      runs := []
      tickets := []
      dropped := []
      alertLog := []
      returns := []
      terminated := false }
  { s with published := s.statuses }

end Scheduler
end AgentPulse
