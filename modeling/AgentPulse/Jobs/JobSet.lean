import AgentPulse.Db
import AgentPulse.Lib.KeyedList
import Mathlib.Logic.Function.Basic

/-!
# The job set of the scheduler

The maps of `Scheduler` that are keyed by job name, its constructor, and the
critical sections of `add_job` and `remove_job`. Each call checks the name
under `mutex_`, writes the table under `db_mutex_`, and updates the maps under
`mutex_` again. The three parts are separate functions here, so that the
sequential calls below and the interleaved calls of the scheduler share them.

## Implementation notes

A database failure carries the text of the `DbError`; `none` is a write that
went through. The table is unchanged by a failed write.
-/

namespace AgentPulse

/-- The schedule of a text that may be empty: `parse` is called on a non-empty one. -/
def scheduleOf (expr : Bytes) : Option CronSchedule :=
  if expr = [] then none else CronSchedule.parse expr

/-- Builds a runtime job from a persisted definition. -/
def jobFromDef (d : JobDef) : Job where
  name := d.name
  command := d.command
  schedule := scheduleOf d.scheduleExpr
  scheduleExpr := d.scheduleExpr
  missedRunPolicy := missedRunPolicyFromString d.missedRunPolicy
  timeoutSeconds := d.timeoutSeconds
  retries := d.retries
  source := .ui

/-- Builds a persistable definition from a runtime job. -/
def defFromJob (job : Job) : JobDef where
  name := job.name
  command := job.command
  scheduleExpr := job.scheduleExpr
  missedRunPolicy := job.missedRunPolicy.toText
  timeoutSeconds := job.timeoutSeconds
  retries := job.retries

/-- `Scheduler::find_job`: the first job of that name. -/
def findJob (jobs : List Job) (name : Bytes) : Option Job :=
  jobs.find? fun job => job.name = name

theorem findJob_eq_none_iff {jobs : List Job} {name : Bytes} :
    findJob jobs name = none ↔ name ∉ jobs.map Job.name :=
  KeyedList.find?_eq_none_iff

theorem findJob_mem {jobs : List Job} {name : Bytes} {job : Job}
    (h : findJob jobs name = some job) : job ∈ jobs ∧ job.name = name :=
  KeyedList.find?_mem h

/-- With unique names the lookup is membership. -/
theorem findJob_eq_some_iff {jobs : List Job} (hn : (jobs.map Job.name).Nodup)
    {name : Bytes} {job : Job} :
    findJob jobs name = some job ↔ job ∈ jobs ∧ job.name = name :=
  KeyedList.find?_eq_some_iff hn

/-- A client-defined job comes back from its stored definition, provided its
schedule is the parsed text and its source is the client. -/
theorem jobFromDef_defFromJob {job : Job} (hsource : job.source = .ui)
    (hschedule : job.schedule = scheduleOf job.scheduleExpr) :
    jobFromDef (defFromJob job) = job := by
  obtain ⟨name, command, schedule, expr, policy, timeout, retries, source⟩ := job
  simp only at hsource hschedule
  subst hsource hschedule
  simp [jobFromDef, defFromJob]

/-- The members of `Scheduler` keyed by job name, with the stored table. -/
structure JobSet where
  jobs : List Job
  nextRun : Bytes → Option Int
  lastRuns : Bytes → Option RunRecord
  missedHandled : Bytes → Option Int
  table : JobTable

namespace JobSet

/-- The constructor's merge: a stored job is added unless the name is taken. -/
def mergeDef (jobs : List Job) (d : JobDef) : List Job :=
  if findJob jobs d.name = none then jobs ++ [jobFromDef d] else jobs

/-- `next_run_[name] = *next` when the job has a schedule with a next time. -/
def setNextRun (loc : LocalTime) (now : Int) (job : Job) (nextRun : Bytes → Option Int) :
    Bytes → Option Int :=
  match job.schedule.bind fun c => c.nextAfter loc now with
  | some t => Function.update nextRun job.name (some t)
  | none => nextRun

/-- `Scheduler::Scheduler`: the configured jobs, then the stored ones whose
name is free, with their next times and their last runs from the database. -/
def construct (loc : LocalTime) (config : List Job) (table : JobTable)
    (lastRun : Bytes → Option RunRecord) (now : Int) : JobSet :=
  let jobs := table.load.foldl mergeDef config
  { jobs := jobs
    nextRun := jobs.foldl (fun m job => setNextRun loc now job m) fun _ => none
    lastRuns := fun n => if n ∈ jobs.map Job.name then lastRun n else none
    missedHandled := fun _ => none
    table := table }

section NextRun

variable {loc : LocalTime} {now : Int} {name : Bytes}

theorem setNextRun_of_ne {stored : Job} {nextRun : Bytes → Option Int}
    (hne : name ≠ stored.name) : setNextRun loc now stored nextRun name = nextRun name := by
  unfold setNextRun
  cases stored.schedule.bind fun c => c.nextAfter loc now with
  | none => rfl
  | some t => exact Function.update_of_ne hne _ _

theorem foldl_setNextRun_of_not_mem {jobs : List Job} {m : Bytes → Option Int}
    (hname : name ∉ jobs.map Job.name) :
    jobs.foldl (fun m job => setNextRun loc now job m) m name = m name := by
  induction jobs generalizing m with
  | nil => rfl
  | cons job rest ih =>
      rw [List.map_cons, List.mem_cons, not_or] at hname
      rw [List.foldl_cons, ih hname.2, setNextRun_of_ne hname.1]

/-- The constructor's entry for a job is its own next time. -/
theorem construct_nextRun {config : List Job} {table : JobTable}
    {lastRun : Bytes → Option RunRecord} {job : Job} {t : Int}
    (hnodup : ((construct loc config table lastRun now).jobs.map Job.name).Nodup)
    (hjob : job ∈ (construct loc config table lastRun now).jobs)
    (hnext : (job.schedule.bind fun c => c.nextAfter loc now) = some t) :
    (construct loc config table lastRun now).nextRun job.name = some t := by
  have hfold : ∀ (jobs : List Job) (m : Bytes → Option Int), (jobs.map Job.name).Nodup →
      job ∈ jobs → jobs.foldl (fun m job => setNextRun loc now job m) m job.name = some t := by
    intro jobs
    induction jobs with
    | nil => simp
    | cons first rest ih =>
        intro m hn hmem
        obtain ⟨hfirst, hrest⟩ := List.nodup_cons.mp (List.map_cons ▸ hn)
        rw [List.foldl_cons]
        obtain rfl | hmem := List.mem_cons.mp hmem
        · rw [foldl_setNextRun_of_not_mem hfirst, setNextRun, hnext]
          exact Function.update_self _ _ _
        · exact ih _ hrest hmem
  exact hfold _ _ hnodup hjob

end NextRun

/-- The checks of `add_job` before anything is written; `some` is the error returned. -/
def addJobCheck (jobs : List Job) (job : Job) : Option Bytes :=
  if job.name = [] then some (text "job name is required")
  else if job.command = [] then some (text "job command is required")
  else if findJob jobs job.name ≠ none then
    some (text "a job named '" ++ job.name ++ text "' already exists")
  else none

theorem findJob_of_addJobCheck {jobs : List Job} {job : Job} (h : addJobCheck jobs job = none) :
    findJob jobs job.name = none := by
  by_contra hne
  simp only [addJobCheck] at h
  split_ifs at h

/-- The copy `add_job` stores: its source is always the client. -/
def storedJob (job : Job) : Job := { job with source := .ui }

/-- The last critical section of `add_job`. -/
def addJobUpdate (loc : LocalTime) (now : Int) (stored : Job) (s : JobSet) : JobSet :=
  { s with
    jobs := s.jobs ++ [stored]
    nextRun := setNextRun loc now stored s.nextRun }

/-- The checks of `remove_job` before anything is written. -/
def removeJobCheck (jobs : List Job) (name : Bytes) : Option Bytes :=
  match findJob jobs name with
  | none => some (text "no such job: '" ++ name ++ text "'")
  | some job =>
      if job.source ≠ .ui then some (text "job '" ++ name ++ text "' is defined in config.yaml")
      else none

theorem removeJobCheck_eq_none_iff {jobs : List Job} {name : Bytes} :
    removeJobCheck jobs name = none ↔
      ∃ job, findJob jobs name = some job ∧ job.source = .ui := by
  unfold removeJobCheck
  cases findJob jobs name with
  | none => simp
  | some job => cases hsource : job.source <;> simp [hsource]

/-- The last critical section of `remove_job`. -/
def removeJobUpdate (name : Bytes) (s : JobSet) : JobSet :=
  { s with
    jobs := s.jobs.filter fun job => job.name ≠ name
    nextRun := Function.update s.nextRun name none
    lastRuns := Function.update s.lastRuns name none
    missedHandled := Function.update s.missedHandled name none }

/-- `Scheduler::add_job` without interruption: the new state and the returned text. -/
def addJob (loc : LocalTime) (now : Int) (job : Job) (dbError : Option Bytes) (s : JobSet) :
    JobSet × Bytes :=
  match addJobCheck s.jobs job with
  | some error => (s, error)
  | none =>
      match dbError with
      | some what => (s, text "could not persist job: " ++ what)
      | none =>
          (addJobUpdate loc now (storedJob job)
            { s with table := s.table.upsert (defFromJob (storedJob job)) }, [])

/-- `Scheduler::remove_job` without interruption. -/
def removeJob (name : Bytes) (dbError : Option Bytes) (s : JobSet) : JobSet × Bytes :=
  match removeJobCheck s.jobs name with
  | some error => (s, error)
  | none =>
      match dbError with
      | some what => (s, text "could not delete job: " ++ what)
      | none => (removeJobUpdate name { s with table := s.table.delete name }, [])

end JobSet
end AgentPulse
