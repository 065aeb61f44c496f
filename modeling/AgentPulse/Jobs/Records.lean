import AgentPulse.Jobs.Firing
import AgentPulse.Jobs.Ownership

/-!
# What `last_runs_` knows about scheduled launches

The missed-run scan trusts `last_runs_`: a run recorded there that started no
earlier than an occurrence answers it. A worker writes its record only after its
command has ended. Once it has, the record covers every schedule launch of the
job so far, provided the clock is never set back, because the workers of one
job run one after the other.
-/

namespace AgentPulse

/-- The start of the command an execution is running or has just run and not
recorded yet. -/
def Worker.Pc.startedAt : Worker.Pc → Option Int
  | .command _ startedAt => some startedAt
  | .insertRun _ res => some res.startedAt
  | .setLastRun _ res => some res.startedAt
  | _ => none

namespace Scheduler

open Transition

/-- What a task's worker has done so far. -/
structure Execution where
  job : Job
  cause : Cause
  pc : Worker.Pc
  done : Bool

def Task.execution (task : Task) : Execution := ⟨task.job, task.cause, task.pc, task.done⟩

/-- The first attempt has been recorded. A job without attempts never records. -/
def Execution.recorded (e : Execution) : Bool :=
  1 ≤ Worker.attempts e.job &&
    match e.pc with
    | .attempt n _ => 1 < n
    | .command n _ => 1 < n
    | .insertRun n _ => 1 < n
    | .setLastRun n _ => 1 < n
    | _ => true

structure RecordView where
  executions : List Execution
  lastRuns : Bytes → Option RunRecord
  active : Bool
  halted : Bool
  clock : ℕ

def State.records (s : State) : RecordView where
  executions := s.tasks.map Task.execution
  lastRuns := s.lastRuns
  active := s.active
  halted := s.loop = .idle
  clock := s.clock

/-- The moves of the workers while `stop` is not called. -/
inductive RecordMove (terminated : Bool) (writes : Option JobWrite) (v : RecordView) :
    RecordView → Prop
  | stay : RecordMove terminated writes v v
  | clock (time : ℕ) : RecordMove terminated writes v { v with clock := time }
  | start : RecordMove terminated writes v { v with active := true, halted := false }
  | launch (job : Job) (cause : Cause) (hactive : v.halted = false)
      (hfree : terminated = false → ∀ e ∈ v.executions, e.job.name = job.name → e.done = true) :
      RecordMove terminated writes v { v with
        executions := v.executions ++ [⟨job, cause, Worker.start, false⟩] }
  | work (id : Nat) (e : Execution) (trigger : Trigger) (outcome : Outcome) (pc : Worker.Pc)
      (effect : Worker.Effect) (hget : v.executions[id]? = some e)
      (hstep : Worker.step e.job trigger v.active v.clock outcome e.pc = some (pc, effect)) :
      RecordMove terminated writes v { v with
        executions := v.executions.set id { e with pc := pc, done := e.done || effect = .done }
        lastRuns := lastRunsAfter effect e.job.name v.lastRuns }
  | unregister (name : Bytes) (hwrites : writes = some (.unregister name)) :
      RecordMove terminated writes v { v with lastRuns := Function.update v.lastRuns name none }

section Simulation

variable {loc : LocalTime} {s t : State}

theorem map_execution_modify (tasks : List Task) (id : Nat) (f : Task → Task)
    (hf : ∀ task, (f task).execution = task.execution) :
    (tasks.modify id f).map Task.execution = tasks.map Task.execution :=
  KeyedList.map_modify_of_key hf

/-- A launch that does not terminate the process finds all workers of its name done. -/
theorem done_of_launch (howned : Owned s.view) {entry : LaunchEntry} {rest : List LaunchEntry}
    (hloop : s.loop = .launch (entry :: rest)) (hsafe : s.joinableEntry entry.job.name = false)
    (e : Execution) (he : e ∈ s.tasks.map Task.execution) (hname : e.job.name = entry.job.name) :
    e.done = true := by
  obtain ⟨task, htask, rfl⟩ := List.mem_map.mp he
  obtain ⟨id, hget⟩ := List.mem_iff_getElem?.mp htask
  by_contra halive
  have hactive : s.view.halted = false := by simp [State.view, hloop]
  have hrunning := howned.entry_of_alive hactive hget (by simpa [Task.execution] using halive)
  have hnone : s.view.running entry.job.name = none := by
    refine howned.launch_free (by simp [State.view, hloop]) ?_
    rintro ⟨old, hold, other, hother, hjoinable⟩
    have hold' : s.running entry.job.name = some old := hold
    have hother' : s.tasks[old]? = some other := hother
    simp [State.joinableEntry, hold', hother', hjoinable] at hsafe
  have hname' : task.job.name = entry.job.name := hname
  rw [hname', hnone] at hrunning
  cases hrunning

theorem LoopStep.records (h : LoopStep loc s t) (howned : Owned s.view) :
    RecordMove t.terminated none s.records t.records := by
  cases h with
  | reap hloop hactive =>
      convert RecordMove.stay using 1
      simp [State.records, State.reap, hloop]
  | join id rest hloop =>
      convert RecordMove.stay using 1
      simp [State.records, State.joinTask, hloop,
        map_execution_modify s.tasks id Task.join fun _ => rfl]
  | scan wall pc next hloop hscan =>
      obtain ⟨_, _, _, _, rfl⟩ := scanStep_frame hscan
      convert RecordMove.stay using 1
      simp only
      split_ifs <;> simp [State.records, hloop]
  | launch entry rest hloop =>
      convert RecordMove.launch (v := s.records) entry.job entry.cause ?_ ?_ using 1
      · simp [State.records, State.launchEntry, LaunchEntry.task, Task.execution, hloop]
      · simp [State.records, hloop]
      · exact done_of_launch howned hloop
  | startThread id rest hloop =>
      convert RecordMove.stay using 1
      simp [State.records, hloop, map_execution_modify s.tasks id Task.create fun _ => rfl]
  | exit hloop | joined hloop | gap hloop | wake hloop | awake hloop | lock _ hloop
  | drained _ _ _ hloop | drop _ _ _ _ _ hloop | defer _ _ _ _ _ hloop
  | place _ _ _ _ _ _ hloop | decided _ _ hloop | unscheduled _ _ _ _ hloop
  | unplanned _ _ _ _ _ hloop | later _ _ _ _ _ _ hloop | overlap _ _ _ _ _ _ hloop
  | fire _ _ _ _ _ _ hloop | launched hloop | publish hloop | setJobs _ hloop =>
      convert RecordMove.stay using 1
      simp [State.records, hloop]

theorem CallStep.records {thread : Nat} {terminated : Bool} (h : CallStep loc s thread t)
    (dbError : Option Bytes) :
    RecordMove terminated (s.writes (.call thread dbError)) s.records t.records := by
  cases h with
  | remove name hcall hfree => exact .unregister name (by simp [State.writes, hcall])
  | _ => exact .stay

/-- Each step other than one of `stop` is a move of the workers. -/
theorem step_records {label : Label} (h : step loc s label = some t) (howned : Owned s.view)
    (hstop : label ≠ .stop) :
    RecordMove t.terminated (s.writes label) s.records t.records := by
  cases step_cases h with
  | clock time => exact .clock time
  | active hactive | notifyWake => exact .stay
  | start hactive hloop hstarter hstopper =>
      convert RecordMove.start using 1
      simp [State.records]
  | stop hstep => exact absurd rfl hstop
  | loop hstep => exact hstep.records howned
  | starter next hscan =>
      obtain ⟨_, _, _, _, rfl⟩ := scanStep_frame hscan
      exact .stay
  | begin thread call hstep =>
      obtain ⟨_, _, rfl⟩ := hstep.frame
      exact .stay
  | call thread dbError hstep => exact hstep.records dbError
  | worker id outcome dbOk hstep =>
      obtain ⟨task, pc, effect, _, hget, _, hstep⟩ := hstep
      convert RecordMove.work (v := s.records) id task.execution task.trigger outcome pc effect
        ?_ hstep using 1
      · simp [State.records, List.map_set, Task.execution]
      · simp [State.records, hget]

end Simulation

section Worker

variable {job : Job} {trigger : Trigger} {active : Bool} {clock : Int} {outcome : Outcome}
  {old pc : Worker.Pc} {effect : Worker.Effect}

/-- A start time is taken from the clock or kept. -/
theorem Worker.step_startedAt
    (h : Worker.step job trigger active clock outcome old = some (pc, effect)) {startedAt : Int}
    (hpc : pc.startedAt = some startedAt) :
    startedAt = clock ∨ old.startedAt = some startedAt := by
  unfold Worker.step at h
  grind [Worker.Pc.startedAt]

/-- The flag is set with the last step. -/
theorem Worker.step_done
    (h : Worker.step job trigger active clock outcome old = some (pc, .done)) :
    pc = .returned := by
  unfold Worker.step at h
  grind

/-- A written record has the start time of the command. -/
theorem Worker.step_setLastRun {record : RunRecord}
    (h : Worker.step job trigger active clock outcome old = some (pc, .setLastRun record)) :
    old.startedAt = some record.startedAt := by
  unfold Worker.step at h
  grind [Worker.Pc.startedAt, Worker.record]

/-- Apart from writing a record, no step of an active worker makes its first
attempt a recorded one. -/
theorem Worker.step_recorded {cause : Cause} {done done' : Bool}
    (h : Worker.step job trigger true clock outcome old = some (pc, effect))
    (heffect : ∀ record, effect ≠ .setLastRun record)
    (hrecorded : Execution.recorded ⟨job, cause, pc, done'⟩ = true) :
    Execution.recorded ⟨job, cause, old, done⟩ = true := by
  unfold Worker.step at h
  unfold Execution.recorded at hrecorded ⊢
  grind

end Worker

/-- What is known about the runs of the job `name`. The fourth field is kept up
to the step that terminates the process. -/
structure Records (name : Bytes) (terminated : Bool) (v : RecordView) : Prop where
  returned : ∀ e ∈ v.executions, e.done = true → e.pc = .returned
  active : v.active = false → v.halted = true ∧ v.executions = []
  recorded : ∀ e ∈ v.executions, e.job.name = name → e.recorded = true → ∀ lo hi,
    e.cause = .due lo hi → ∃ record, v.lastRuns name = some record ∧ hi ≤ record.startedAt
  started : terminated = false → ∀ a ∈ v.executions, ∀ b ∈ v.executions, a.job.name = name →
    b.job.name = name → ∀ startedAt, a.pc.startedAt = some startedAt → ∀ lo hi,
      b.cause = .due lo hi → hi ≤ startedAt

section Invariant

variable {name : Bytes} {terminated : Bool} {writes : Option JobWrite} {v w : RecordView}

/-- A new execution has neither started nor recorded anything, and those before
it are over. -/
theorem Records.launch (h : Records name false v) {job : Job} {cause : Cause}
    (hactive : v.halted = false)
    (hfree : terminated = false → ∀ e ∈ v.executions, e.job.name = job.name → e.done = true) :
    Records name terminated { v with
      executions := v.executions ++ [⟨job, cause, Worker.start, false⟩] } := by
  refine ⟨?_, ?_, ?_, ?_⟩
  · intro e he hdone
    obtain hold | hnew := List.mem_append.mp he
    · exact h.returned e hold hdone
    · rw [List.mem_singleton.mp hnew] at hdone
      cases hdone
  · intro hinactive
    rw [(h.active hinactive).1] at hactive
    cases hactive
  · intro e he hname hrecorded
    obtain hold | hnew := List.mem_append.mp he
    · exact h.recorded e hold hname hrecorded
    · rw [List.mem_singleton.mp hnew] at hrecorded
      simp [Execution.recorded, Worker.start] at hrecorded
  · intro hlive a ha b hb haname hbname startedAt hstart lo hi hcause
    obtain haold | hanew := List.mem_append.mp ha
    · obtain hbold | hbnew := List.mem_append.mp hb
      · exact h.started rfl a haold b hbold haname hbname startedAt hstart lo hi hcause
      · have hsame : a.job.name = job.name := by
          rw [List.mem_singleton.mp hbnew] at hbname
          exact haname.trans hbname.symm
        rw [h.returned a haold (hfree hlive a haold hsame)] at hstart
        cases hstart
    · rw [List.mem_singleton.mp hanew] at hstart
      cases hstart

theorem Records.work (h : Records name false v)
    (hended : ∀ e ∈ v.executions, e.job.name = name → ∀ lo hi, e.cause = .due lo hi →
      hi ≤ v.clock)
    {id : Nat} {e : Execution} {trigger : Trigger} {outcome : Outcome} {pc : Worker.Pc}
    {effect : Worker.Effect} (hget : v.executions[id]? = some e)
    (hstep : Worker.step e.job trigger v.active v.clock outcome e.pc = some (pc, effect)) :
    Records name terminated { v with
      executions := v.executions.set id { e with pc := pc, done := e.done || effect = .done }
      lastRuns := lastRunsAfter effect e.job.name v.lastRuns } := by
  have he : e ∈ v.executions := List.mem_of_getElem? hget
  have hactive : v.active = true := by
    by_contra hinactive
    rw [(h.active (by simpa using hinactive)).2] at he
    cases he
  refine ⟨?_, fun hinactive => absurd hactive (Bool.eq_false_iff.mp hinactive), ?_, ?_⟩
  · intro e' he' hdone
    obtain hold | rfl := List.mem_or_eq_of_mem_set he'
    · exact h.returned e' hold hdone
    · obtain hdone | heffect := Bool.or_eq_true_iff.mp hdone
      · rw [h.returned e he hdone] at hstep
        cases hstep
      · rw [of_decide_eq_true heffect] at hstep
        exact Worker.step_done hstep
  · intro e' he' hname hrecorded lo hi hcause
    by_cases hwrite : ∃ record, effect = .setLastRun record ∧ e.job.name = name
    · obtain ⟨record, rfl, hname⟩ := hwrite
      refine ⟨record, by simp [lastRunsAfter, hname], ?_⟩
      have hstart := Worker.step_setLastRun hstep
      obtain hold | rfl := List.mem_or_eq_of_mem_set he'
      · exact h.started rfl e he e' hold hname ‹_› _ hstart lo hi hcause
      · exact h.started rfl e he e he hname hname _ hstart lo hi hcause
    · have hkept : lastRunsAfter effect e.job.name v.lastRuns name = v.lastRuns name := by
        cases effect with
        | setLastRun record =>
            have hne : name ≠ e.job.name := fun heq => hwrite ⟨record, rfl, heq.symm⟩
            simp [lastRunsAfter, hne]
        | _ => rfl
      simp only [hkept]
      obtain hold | rfl := List.mem_or_eq_of_mem_set he'
      · exact h.recorded e' hold hname hrecorded lo hi hcause
      · refine h.recorded e he hname ?_ lo hi hcause
        rw [hactive] at hstep
        exact Worker.step_recorded hstep (fun record heq => hwrite ⟨record, heq, hname⟩) hrecorded
  · intro _ a ha b hb haname hbname startedAt hstart lo hi hcause
    obtain ⟨b', hb', hbname', hbcause⟩ : ∃ b' ∈ v.executions, b'.job.name = name ∧
        b'.cause = .due lo hi := by
      obtain hold | rfl := List.mem_or_eq_of_mem_set hb
      · exact ⟨b, hold, hbname, hcause⟩
      · exact ⟨e, he, hbname, hcause⟩
    obtain hold | rfl := List.mem_or_eq_of_mem_set ha
    · exact h.started rfl a hold b' hb' haname hbname' startedAt hstart lo hi hbcause
    · obtain rfl | hbefore := Worker.step_startedAt hstep hstart
      · exact hended b' hb' hbname' lo hi hbcause
      · exact h.started rfl e he b' hb' haname hbname' startedAt hbefore lo hi hbcause

theorem Records.move (h : Records name false v)
    (hended : ∀ e ∈ v.executions, e.job.name = name → ∀ lo hi, e.cause = .due lo hi →
      hi ≤ v.clock)
    (hmove : RecordMove terminated writes v w) (hwrites : writes ≠ some (.unregister name)) :
    Records name terminated w := by
  cases hmove with
  | stay | clock => exact ⟨h.returned, h.active, h.recorded, fun _ => h.started rfl⟩
  | start => exact ⟨h.returned, fun hfalse => by simp at hfalse, h.recorded, fun _ => h.started rfl⟩
  | launch job cause hactive hfree => exact h.launch hactive hfree
  | work id e trigger outcome pc effect hget hstep => exact h.work hended hget hstep
  | unregister n hn =>
      have hne : name ≠ n := fun heq => hwrites (by rw [hn, heq])
      refine ⟨h.returned, h.active, ?_, fun _ => h.started rfl⟩
      simpa only [Function.update_of_ne hne] using h.recorded

end Invariant

end Scheduler
end AgentPulse
