import AgentPulse.Jobs.Scheduler

/-!
# What the steps of the scheduler do

The steps of each thread, with the stage they are taken at, the tests they have
passed and the state they lead to, and what follows of it on the variables a
thread writes.
-/

namespace AgentPulse.Scheduler

/-- The steps of a scan. -/
inductive ScanStep (loc : LocalTime) (s : State) : ScanPc → State → ScanPc → Prop
  | start : ScanStep loc s .start s (.snapshot s.clock)
  | snapshot (now : Int) (hfree : s.lockFree = true) :
      ScanStep loc s (.snapshot now) s (.read now (s.jobs.filter isCandidate))
  | finish (now : Int) : ScanStep loc s (.read now []) s .idle
  | read (now : Int) (job : Job) (rest : List Job) (hfree : s.lockFree = true) :
      ScanStep loc s (.read now (job :: rest)) s
        (.check now job (((s.lastRuns job.name).map RunRecord.startedAt).getD 0) rest)
  | current (now : Int) (job : Job) (lastRunTs : Int) (rest : List Job)
      (hnone : (job.schedule.bind fun c => detectMissedRun c loc lastRunTs now) = none) :
      ScanStep loc s (.check now job lastRunTs rest) s (.read now rest)
  | missed (now : Int) (job : Job) (lastRunTs : Int) (rest : List Job) (missed : Int)
      (hmissed : (job.schedule.bind fun c => detectMissedRun c loc lastRunTs now) = some missed)
      (hfree : s.lockFree = true) :
      ScanStep loc s (.check now job lastRunTs rest)
        { s with missedHandled := (handleMissed s.missedHandled job.name missed).1 }
        (if (handleMissed s.missedHandled job.name missed).2 = true then .alert now job missed rest
        else .read now rest)
  | alert (now : Int) (job : Job) (missed : Int) (rest : List Job) :
      ScanStep loc s (.alert now job missed rest)
        { s with alertLog := s.alertLog ++ [missedAlert s.clock job missed] }
        (.enqueue now job missed rest)
  | enqueue (now : Int) (job : Job) (missed : Int) (rest : List Job) (hfree : s.lockFree = true) :
      ScanStep loc s (.enqueue now job missed rest)
        (s.enqueue job.name .missed (some missed)) (.read now rest)

/-- The steps of the loop thread. -/
inductive LoopStep (loc : LocalTime) (s : State) : State → Prop
  | exit (hloop : s.loop = .top) (hactive : s.active = false) :
      LoopStep loc s { s with loop := .exited }
  | reap (hloop : s.loop = .top) (hactive : s.active = true) : LoopStep loc s s.reap
  | joined (hloop : s.loop = .join []) : LoopStep loc s { s with loop := .wall }
  | join (id : Nat) (rest : List Nat) (hloop : s.loop = .join (id :: rest)) :
      LoopStep loc s { s.joinTask id with loop := .join rest }
  | gap (hloop : s.loop = .wall) (hgap : (s.clock : Int) - s.lastWall > wakeGapSeconds) :
      LoopStep loc s { s with lastWall := s.clock, loop := .scan s.clock .start }
  | wake (hloop : s.loop = .wall) (hgap : ¬ (s.clock : Int) - s.lastWall > wakeGapSeconds)
      (hwake : s.wakePending = true) :
      LoopStep loc s
        { s with lastWall := s.clock, wakePending := false, loop := .scan s.clock .start }
  | awake (hloop : s.loop = .wall) (hgap : ¬ (s.clock : Int) - s.lastWall > wakeGapSeconds)
      (hwake : s.wakePending = false) :
      LoopStep loc s { s with lastWall := s.clock, loop := .lock s.clock }
  | scan {t : State} (wall : Int) (pc next : ScanPc) (hloop : s.loop = .scan wall pc)
      (hscan : scanStep loc s pc = some (t, next)) :
      LoopStep loc s { t with loop := if next = .idle then .lock wall else .scan wall next }
  | lock (wall : Int) (hloop : s.loop = .lock wall) :
      LoopStep loc s { s with queue := [], loop := .drain wall s.queue [] [] }
  | drained (wall : Int) (deferred : List QueueEntry) (toLaunch : List LaunchEntry)
      (hloop : s.loop = .drain wall [] deferred toLaunch) :
      LoopStep loc s { s with queue := deferred, loop := .due wall s.jobs toLaunch }
  | drop (wall : Int) (entry : QueueEntry) (rest deferred : List QueueEntry)
      (toLaunch : List LaunchEntry) (hloop : s.loop = .drain wall (entry :: rest) deferred toLaunch)
      (hnone : findJob s.jobs entry.name = none) :
      LoopStep loc s { s with
        dropped := s.dropped ++ [entry.ticket]
        loop := .drain wall rest deferred toLaunch }
  | defer (wall : Int) (entry : QueueEntry) (rest deferred : List QueueEntry)
      (toLaunch : List LaunchEntry) (hloop : s.loop = .drain wall (entry :: rest) deferred toLaunch)
      (hrunning : s.isRunning entry.name = true) :
      LoopStep loc s { s with loop := .drain wall rest (deferred ++ [entry]) toLaunch }
  | place (wall : Int) (entry : QueueEntry) (rest deferred : List QueueEntry)
      (toLaunch : List LaunchEntry) (job : Job)
      (hloop : s.loop = .drain wall (entry :: rest) deferred toLaunch)
      (hfind : findJob s.jobs entry.name = some job) (hidle : s.isRunning entry.name = false) :
      LoopStep loc s { s with
        loop := .drain wall rest deferred
          (toLaunch ++ [⟨job, entry.trigger, .request entry.ticket⟩]) }
  | decided (wall : Int) (toLaunch : List LaunchEntry) (hloop : s.loop = .due wall [] toLaunch) :
      LoopStep loc s { s with loop := .launch toLaunch }
  | unscheduled (wall : Int) (job : Job) (rest : List Job) (toLaunch : List LaunchEntry)
      (hloop : s.loop = .due wall (job :: rest) toLaunch) (hschedule : job.schedule = none) :
      LoopStep loc s { s with loop := .due wall rest toLaunch }
  | unplanned (wall : Int) (job : Job) (rest : List Job) (toLaunch : List LaunchEntry)
      (c : CronSchedule) (hloop : s.loop = .due wall (job :: rest) toLaunch)
      (hschedule : job.schedule = some c) (hnext : s.nextRun job.name = none) :
      LoopStep loc s { s with loop := .due wall rest toLaunch }
  | later (wall : Int) (job : Job) (rest : List Job) (toLaunch : List LaunchEntry)
      (c : CronSchedule) (next : Int) (hloop : s.loop = .due wall (job :: rest) toLaunch)
      (hschedule : job.schedule = some c) (hnext : s.nextRun job.name = some next)
      (hlater : next > wall) :
      LoopStep loc s { s with loop := .due wall rest toLaunch }
  | overlap (wall : Int) (job : Job) (rest : List Job) (toLaunch : List LaunchEntry)
      (c : CronSchedule) (next : Int) (hloop : s.loop = .due wall (job :: rest) toLaunch)
      (hschedule : job.schedule = some c) (hnext : s.nextRun job.name = some next)
      (hdue : ¬ next > wall) (hrunning : s.isRunning job.name = true) :
      LoopStep loc s { s with
        nextRun := Function.update s.nextRun job.name (c.nextAfter loc wall)
        loop := .due wall rest toLaunch }
  | fire (wall : Int) (job : Job) (rest : List Job) (toLaunch : List LaunchEntry)
      (c : CronSchedule) (next : Int) (hloop : s.loop = .due wall (job :: rest) toLaunch)
      (hschedule : job.schedule = some c) (hnext : s.nextRun job.name = some next)
      (hdue : ¬ next > wall) (hidle : s.isRunning job.name = false) :
      LoopStep loc s { s with
        nextRun := Function.update s.nextRun job.name (c.nextAfter loc wall)
        loop := .due wall rest (toLaunch ++ [⟨job, .schedule, .due next wall⟩]) }
  | launched (hloop : s.loop = .launch []) : LoopStep loc s { s with loop := .publish }
  | launch (entry : LaunchEntry) (rest : List LaunchEntry)
      (hloop : s.loop = .launch (entry :: rest)) : LoopStep loc s (s.launchEntry entry rest)
  | startThread (id : Nat) (rest : List LaunchEntry) (hloop : s.loop = .startThread id rest) :
      LoopStep loc s { s with tasks := s.tasks.modify id Task.create, loop := .launch rest }
  | publish (hloop : s.loop = .publish) : LoopStep loc s { s with loop := .setJobs s.statuses }
  | setJobs (statuses : List JobStatus) (hloop : s.loop = .setJobs statuses) :
      LoopStep loc s { s with published := statuses, loop := .top }

/-- The steps of the caller of `stop`. -/
inductive StopStep (s : State) : State → Prop
  | inactive (hstopper : s.stopper = .idle) (hactive : s.active = false) : StopStep s s
  | stop (hstopper : s.stopper = .idle) (hactive : s.active = true) :
      StopStep s { s with active := false, stopper := .joinLoop }
  | joinLoop (hstopper : s.stopper = .joinLoop) (hloop : s.loop = .exited) :
      StopStep s { s with loop := .idle, stopper := .takeTasks }
  | takeTasks (hstopper : s.stopper = .takeTasks) :
      StopStep s { s with
        running := fun _ => none
        stopper := .join ((List.range s.tasks.length).filter fun id =>
          match s.tasks[id]? with
          | none => false
          | some task => s.running task.job.name = some id) }
  | joined (hstopper : s.stopper = .join []) : StopStep s { s with stopper := .idle }
  | join (id : Nat) (rest : List Nat) (task : Task) (hstopper : s.stopper = .join (id :: rest))
      (hget : s.tasks[id]? = some task) (hdone : task.done = true) :
      StopStep s { s.joinTask id with stopper := .join rest }

/-- The first steps of the client calls. -/
inductive BeginStep (s : State) (thread : Nat) : ClientCall → State → Prop
  | refuse (call : ClientCall) (error : Bytes) (hidle : s.calls thread = .idle)
      (hfree : s.lockFree = true) :
      BeginStep s thread call { s with returns := s.returns ++ [(call, some error)] }
  | requestRun (name : Bytes) (hidle : s.calls thread = .idle) (hfree : s.lockFree = true)
      (hfind : findJob s.jobs name ≠ none) :
      BeginStep s thread (.requestRun name)
        { s with calls := Function.update s.calls thread (.enqueue name) }
  | addJob (job : Job) (hidle : s.calls thread = .idle) (hfree : s.lockFree = true)
      (hcheck : JobSet.addJobCheck s.jobs job = none) :
      BeginStep s thread (.addJob job)
        { s with calls := Function.update s.calls thread (.addPersist (JobSet.storedJob job)) }
  | removeJob (name : Bytes) (hidle : s.calls thread = .idle) (hfree : s.lockFree = true)
      (hcheck : JobSet.removeJobCheck s.jobs name = none) :
      BeginStep s thread (.removeJob name)
        { s with calls := Function.update s.calls thread (.removeDelete name) }

/-- The further steps of the client calls. -/
inductive CallStep (loc : LocalTime) (s : State) (thread : Nat) : State → Prop
  | enqueue (name : Bytes) (hcall : s.calls thread = .enqueue name) (hfree : s.lockFree = true) :
      CallStep loc s thread ((s.enqueue name .manual none).ret thread (.requestRun name) none)
  | notPersisted (stored : Job) (error : Bytes) (hcall : s.calls thread = .addPersist stored) :
      CallStep loc s thread (s.ret thread (.addJob stored) (some error))
  | persist (stored : Job) (hcall : s.calls thread = .addPersist stored) :
      CallStep loc s thread { s with
        table := s.table.upsert (defFromJob stored)
        calls := Function.update s.calls thread (.addUpdate stored) }
  | add (stored : Job) (hcall : s.calls thread = .addUpdate stored) (hfree : s.lockFree = true) :
      CallStep loc s thread { s with
        toJobSet := s.toJobSet.addJobUpdate loc s.clock stored
        calls := Function.update s.calls thread (.publish (.addJob stored)) }
  | notDeleted (name : Bytes) (error : Bytes) (hcall : s.calls thread = .removeDelete name) :
      CallStep loc s thread (s.ret thread (.removeJob name) (some error))
  | delete (name : Bytes) (hcall : s.calls thread = .removeDelete name) :
      CallStep loc s thread { s with
        table := s.table.delete name
        calls := Function.update s.calls thread (.removeUpdate name) }
  | remove (name : Bytes) (hcall : s.calls thread = .removeUpdate name)
      (hfree : s.lockFree = true) :
      CallStep loc s thread { s with
        toJobSet := s.toJobSet.removeJobUpdate name
        calls := Function.update s.calls thread (.publish (.removeJob name)) }
  | publish (call : ClientCall) (hcall : s.calls thread = .publish call)
      (hfree : s.lockFree = true) :
      CallStep loc s thread
        { s with calls := Function.update s.calls thread (.setJobs call s.statuses) }
  | setJobs (call : ClientCall) (statuses : List JobStatus)
      (hcall : s.calls thread = .setJobs call statuses) :
      CallStep loc s thread ({ s with published := statuses }.ret thread call none)

/-- `last_runs_` after a step of a worker of the job `name`. -/
def lastRunsAfter (effect : Worker.Effect) (name : Bytes) (lastRuns : Bytes → Option RunRecord) :
    Bytes → Option RunRecord :=
  match effect with
  | .setLastRun record => Function.update lastRuns name (some record)
  | _ => lastRuns

/-- The alerts after a step of a worker. -/
def alertLogAfter (effect : Worker.Effect) (log : List (AlertInfo Int)) : List (AlertInfo Int) :=
  match effect with
  | .alert info => log ++ [info]
  | _ => log

/-- The step of a worker: it writes its own task, the run history, `last_runs_`
for its own name, and the alerts. -/
inductive WorkerStep (s : State) (id : Nat) (outcome : Outcome) : State → Prop
  | step (task : Task) (pc : Worker.Pc) (effect : Worker.Effect) (runs : List RunRecord)
      (hget : s.tasks[id]? = some task) (hthread : task.thread = .joinable)
      (hstep : Worker.step task.job task.trigger s.active s.clock outcome task.pc =
        some (pc, effect)) :
      WorkerStep s id outcome { s with
        tasks := s.tasks.set id { task with pc := pc, done := task.done || effect = .done }
        lastRuns := lastRunsAfter effect task.job.name s.lastRuns
        runs := runs
        alertLog := alertLogAfter effect s.alertLog }

/-- The steps of the scheduler, by their labels. -/
inductive Step (loc : LocalTime) (s : State) : Label → State → Prop
  | clock (time : ℕ) : Step loc s (.clock time) { s with clock := time }
  | active (hactive : s.active = true) : Step loc s .start s
  | start (hactive : s.active = false) (hloop : s.loop = .idle) (hstarter : s.starter = .idle)
      (hstopper : s.stopper = .idle) :
      Step loc s .start
        { s with active := true, lastWall := s.clock, loop := .top, starter := .start }
  | stop {t : State} (hstep : StopStep s t) : Step loc s .stop t
  | notifyWake : Step loc s .notifyWake { s with wakePending := true }
  | loop {t : State} (hstep : LoopStep loc s t) : Step loc s .loop t
  | starter {t : State} (next : ScanPc) (hscan : scanStep loc s s.starter = some (t, next)) :
      Step loc s .starter { t with starter := next }
  | begin {t : State} (thread : Nat) (call : ClientCall) (hstep : BeginStep s thread call t) :
      Step loc s (.begin thread call) t
  | call {t : State} (thread : Nat) (dbError : Option Bytes) (hstep : CallStep loc s thread t) :
      Step loc s (.call thread dbError) t
  | worker {t : State} (id : Nat) (outcome : Outcome) (dbOk : Bool)
      (hstep : WorkerStep s id outcome t) : Step loc s (.worker id outcome dbOk) t

section Cases

variable {loc : LocalTime} {s t : State}

theorem scanStep_cases {pc next : ScanPc} (h : scanStep loc s pc = some (t, next)) :
    ScanStep loc s pc t next := by
  unfold scanStep at h
  split at h
  case h_1 => cases h
  case h_2 =>
    cases h
    exact .start
  case h_3 now =>
    split_ifs at h with hfree
    cases h
    exact .snapshot now hfree
  case h_4 now =>
    cases h
    exact .finish now
  case h_5 now job rest =>
    split_ifs at h with hfree
    cases h
    exact .read now job rest hfree
  case h_6 now job lastRunTs rest =>
    split at h
    · next hnone =>
        cases h
        exact .current now job lastRunTs rest hnone
    · next missed hmissed =>
        split_ifs at h with hfree
        cases h
        exact .missed now job lastRunTs rest missed hmissed hfree
  case h_7 now job missed rest =>
    cases h
    exact .alert now job missed rest
  case h_8 now job missed rest =>
    split_ifs at h with hfree
    cases h
    exact .enqueue now job missed rest hfree

theorem drainEntry_cases {wall : Int} {entry : QueueEntry} {rest deferred : List QueueEntry}
    {toLaunch : List LaunchEntry}
    (hloop : s.loop = .drain wall (entry :: rest) deferred toLaunch) :
    LoopStep loc s (s.drainEntry wall entry rest deferred toLaunch) := by
  unfold State.drainEntry
  split
  · next hnone => exact .drop wall entry rest deferred toLaunch hloop hnone
  · next job hfind =>
      split_ifs with hrunning
      · exact .defer wall entry rest deferred toLaunch hloop hrunning
      · exact .place wall entry rest deferred toLaunch job hloop hfind (by simpa using hrunning)

theorem dueJob_cases {wall : Int} {job : Job} {rest : List Job} {toLaunch : List LaunchEntry}
    (hloop : s.loop = .due wall (job :: rest) toLaunch) :
    LoopStep loc s (s.dueJob loc wall job rest toLaunch) := by
  unfold State.dueJob
  split
  · next hschedule => exact .unscheduled wall job rest toLaunch hloop hschedule
  · next c hschedule =>
      split
      · next hnext => exact .unplanned wall job rest toLaunch c hloop hschedule hnext
      · next next hnext =>
          split_ifs with hlater hrunning
          · exact .later wall job rest toLaunch c next hloop hschedule hnext hlater
          · exact .overlap wall job rest toLaunch c next hloop hschedule hnext hlater hrunning
          · exact .fire wall job rest toLaunch c next hloop hschedule hnext hlater
              (by simpa using hrunning)

theorem readWall_cases (hloop : s.loop = .wall) : LoopStep loc s s.readWall := by
  unfold State.readWall
  simp only
  split_ifs with hgap hwake
  · exact .gap hloop hgap
  · exact .wake hloop hgap hwake
  · exact .awake hloop hgap (by simpa using hwake)

theorem loopStep_cases (h : loopStep loc s = some t) : LoopStep loc s t := by
  unfold loopStep at h
  split at h
  case h_1 | h_17 => cases h
  case h_2 hloop =>
    split_ifs at h with hactive
    · cases h
      exact .reap hloop hactive
    · cases h
      exact .exit hloop (by simpa using hactive)
  case h_3 hloop =>
    cases h
    exact .joined hloop
  case h_4 id rest hloop =>
    cases h
    exact .join id rest hloop
  case h_5 hloop =>
    cases h
    exact readWall_cases hloop
  case h_6 wall pc hloop =>
    obtain ⟨⟨m, next⟩, hscan, rfl⟩ := Option.map_eq_some_iff.mp h
    exact .scan wall pc next hloop hscan
  case h_7 wall hloop =>
    cases h
    exact .lock wall hloop
  case h_8 wall deferred toLaunch hloop =>
    cases h
    exact .drained wall deferred toLaunch hloop
  case h_9 wall entry rest deferred toLaunch hloop =>
    cases h
    exact drainEntry_cases hloop
  case h_10 wall toLaunch hloop =>
    cases h
    exact .decided wall toLaunch hloop
  case h_11 wall job rest toLaunch hloop =>
    cases h
    exact dueJob_cases hloop
  case h_12 hloop =>
    cases h
    exact .launched hloop
  case h_13 entry rest hloop =>
    cases h
    exact .launch entry rest hloop
  case h_14 id rest hloop =>
    cases h
    exact .startThread id rest hloop
  case h_15 hloop =>
    cases h
    exact .publish hloop
  case h_16 statuses hloop =>
    cases h
    exact .setJobs statuses hloop

theorem stopStep_cases (h : stopStep s = some t) : StopStep s t := by
  unfold stopStep at h
  split at h
  case h_1 hstopper =>
    split_ifs at h with hactive
    · cases h
      exact .stop hstopper hactive
    · cases h
      exact .inactive hstopper (by simpa using hactive)
  case h_2 hstopper =>
    split_ifs at h with hloop
    cases h
    exact .joinLoop hstopper hloop
  case h_3 hstopper =>
    cases h
    exact .takeTasks hstopper
  case h_4 hstopper =>
    cases h
    exact .joined hstopper
  case h_5 id rest hstopper =>
    split at h
    · cases h
    · next task hget =>
        split_ifs at h with hdone
        cases h
        exact .join id rest task hstopper hget hdone

theorem beginStep_cases {thread : Nat} {call : ClientCall} (h : beginStep s thread call = some t) :
    BeginStep s thread call t := by
  unfold beginStep at h
  split_ifs at h with hready
  obtain ⟨hidle, hfree⟩ := hready
  cases call with
  | requestRun name =>
      simp only at h
      split_ifs at h with hfind
      · cases h
        exact .refuse _ _ hidle hfree
      · cases h
        exact .requestRun name hidle hfree hfind
  | addJob job =>
      simp only at h
      split at h
      · cases h
        exact .refuse _ _ hidle hfree
      · next hcheck =>
          cases h
          exact .addJob job hidle hfree hcheck
  | removeJob name =>
      simp only at h
      split at h
      · cases h
        exact .refuse _ _ hidle hfree
      · next hcheck =>
          cases h
          exact .removeJob name hidle hfree hcheck

theorem callStep_cases {thread : Nat} {dbError : Option Bytes}
    (h : callStep loc s thread dbError = some t) : CallStep loc s thread t := by
  unfold callStep at h
  simp only at h
  split at h
  case h_1 => cases h
  case h_2 name hcall =>
    split_ifs at h with hfree
    cases h
    exact .enqueue name hcall hfree
  case h_3 stored hcall =>
    split at h
    · cases h
      exact .notPersisted stored _ hcall
    · cases h
      exact .persist stored hcall
  case h_4 stored hcall =>
    split_ifs at h with hfree
    cases h
    exact .add stored hcall hfree
  case h_5 name hcall =>
    split at h
    · cases h
      exact .notDeleted name _ hcall
    · cases h
      exact .delete name hcall
  case h_6 name hcall =>
    split_ifs at h with hfree
    cases h
    exact .remove name hcall hfree
  case h_7 call hcall =>
    split_ifs at h with hfree
    cases h
    exact .publish call hcall hfree
  case h_8 call statuses hcall =>
    cases h
    exact .setJobs call statuses hcall

theorem workerStep_cases {id : Nat} {outcome : Outcome} {dbOk : Bool}
    (h : workerStep s id outcome dbOk = some t) : WorkerStep s id outcome t := by
  unfold workerStep at h
  split at h
  · cases h
  · next task hget =>
      split at h
      · cases h
      · next hthread =>
          split at h
          · cases h
          · next pc effect hstep =>
              have ht : t = { s with
                  tasks := s.tasks.set id { task with pc := pc, done := task.done || effect = .done }
                  lastRuns := lastRunsAfter effect task.job.name s.lastRuns
                  runs := t.runs
                  alertLog := alertLogAfter effect s.alertLog } := by
                cases effect with
                | setLastRun record =>
                    simp only at h
                    split at h
                    · cases h
                      simp [lastRunsAfter, alertLogAfter]
                    · cases h
                | _ =>
                    cases h
                    simp [lastRunsAfter, alertLogAfter]
              rw [ht]
              exact .step task pc effect t.runs hget (not_not.mp hthread) hstep

theorem step_live {label : Label} (h : step loc s label = some t) : s.terminated = false := by
  unfold step at h
  split_ifs at h with hterminated
  simpa using hterminated

theorem step_cases {label : Label} (h : step loc s label = some t) : Step loc s label t := by
  have hlive := step_live h
  unfold step at h
  rw [if_neg (by simp [hlive])] at h
  cases label with
  | clock time =>
      cases h
      exact .clock time
  | start =>
      simp only [startStep] at h
      split_ifs at h with hactive hidle
      · cases h
        exact .active hactive
      · cases h
        exact .start (by simpa using hactive) hidle.1 hidle.2.1 hidle.2.2
  | stop => exact .stop (stopStep_cases h)
  | notifyWake =>
      cases h
      exact .notifyWake
  | loop => exact .loop (loopStep_cases h)
  | starter =>
      obtain ⟨⟨m, next⟩, hscan, rfl⟩ := Option.map_eq_some_iff.mp h
      exact .starter next hscan
  | begin thread call => exact .begin thread call (beginStep_cases h)
  | call thread dbError => exact .call thread dbError (callStep_cases h)
  | worker id outcome dbOk => exact .worker id outcome dbOk (workerStep_cases h)

/-- A removal goes on with the erasure of the entries. -/
theorem CallStep.remove_inv {thread : Nat} {name : Bytes} (h : CallStep loc s thread t)
    (hcall : s.calls thread = .removeUpdate name) :
    s.lockFree = true ∧ t = { s with
      toJobSet := s.toJobSet.removeJobUpdate name
      calls := Function.update s.calls thread (.publish (.removeJob name)) } := by
  cases h with
  | remove n hcall' hfree =>
      rw [hcall] at hcall'
      cases hcall'
      exact ⟨hfree, rfl⟩
  | enqueue _ hcall' | notPersisted _ _ hcall' | persist _ hcall' | add _ hcall'
  | notDeleted _ _ hcall' | delete _ hcall' | publish _ hcall' | setJobs _ _ hcall' =>
      rw [hcall] at hcall'
      cases hcall'

/-- The caller of `start` only scans. -/
theorem starter_scans (h : step loc s .starter = some t) :
    ∃ m next, scanStep loc s s.starter = some (m, next) ∧ t = { m with starter := next } := by
  cases step_cases h with
  | starter next hscan => exact ⟨_, next, hscan, rfl⟩

/-- A loop in its scan goes on with it. -/
theorem loop_scans {wall : Int} {pc : ScanPc} (hloop : s.loop = .scan wall pc)
    (h : step loc s .loop = some t) :
    ∃ m next, scanStep loc s pc = some (m, next) ∧
      t = { m with loop := if next = .idle then .lock wall else .scan wall next } := by
  unfold step at h
  split_ifs at h
  simp only [loopStep, hloop] at h
  obtain ⟨⟨m, next⟩, hscan, rfl⟩ := Option.map_eq_some_iff.mp h
  exact ⟨m, next, hscan, rfl⟩

end Cases

section Frames

variable {loc : LocalTime} {s t : State}

/-- A scan writes `missed_handled_`, the alerts and the queue only. -/
theorem scanStep_frame {pc next : ScanPc} (h : scanStep loc s pc = some (t, next)) :
    ∃ handled log queue tickets, t = { s with
      missedHandled := handled, alertLog := log, queue := queue, tickets := tickets } := by
  cases scanStep_cases h <;> exact ⟨_, _, _, _, rfl⟩

/-- The loop never writes the jobs, the records, the table, the calls or the
clock. -/
theorem LoopStep.frame (h : LoopStep loc s t) :
    ∃ nextRun handled running queue lastWall wake loop tasks published tickets dropped
      log terminated, t = { s with
        nextRun := nextRun, missedHandled := handled, running := running, queue := queue,
        lastWall := lastWall, wakePending := wake, loop := loop, tasks := tasks,
        published := published, tickets := tickets, dropped := dropped,
        alertLog := log, terminated := terminated } := by
  cases h with
  | scan wall pc next hloop hscan =>
      obtain ⟨_, _, _, _, rfl⟩ := scanStep_frame hscan
      exact ⟨_, _, _, _, _, _, _, _, _, _, _, _, _, rfl⟩
  | _ => exact ⟨_, _, _, _, _, _, _, _, _, _, _, _, _, rfl⟩

/-- `stop` writes the tasks, `running_` and the threads it waits for. -/
theorem StopStep.frame (h : StopStep s t) :
    ∃ active running loop stopper tasks, t = { s with
      active := active, running := running, loop := loop, stopper := stopper, tasks := tasks } := by
  cases h <;> exact ⟨_, _, _, _, _, rfl⟩

/-- The first section of a call writes its own thread and the answers only. -/
theorem BeginStep.frame {thread : Nat} {call : ClientCall} (h : BeginStep s thread call t) :
    ∃ calls returns, t = { s with calls := calls, returns := returns } := by
  cases h <;> exact ⟨_, _, rfl⟩

/-- A client call never touches the tasks, the loop or the clock. -/
theorem CallStep.frame {thread : Nat} (h : CallStep loc s thread t) :
    ∃ jobSet calls queue tickets returns published, t = { s with
      toJobSet := jobSet, calls := calls, queue := queue, tickets := tickets,
      returns := returns, published := published } := by
  cases h <;> exact ⟨_, _, _, _, _, _, rfl⟩

end Frames

end AgentPulse.Scheduler
