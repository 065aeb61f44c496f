import AgentPulse.Jobs.Launches
import AgentPulse.Jobs.MissedReports
import AgentPulse.Jobs.Publication

/-!
# What a removed job leaves behind

`remove_job` erases the job and its entries in `next_run_`, `last_runs_` and
`missed_handled_`. It does not look at the queue, nor at the threads that work
from a copy of the job: a worker that has not written its record yet, a scan
that has the job among its candidates, and a request that has found the job and
not queued it. Each of these can restore an entry later. A removal that finds
nothing of the kind leaves nothing behind, whatever happens until the name is
added again.
-/

namespace AgentPulse

/-- The execution may still write `last_runs_`. -/
def Worker.Pc.mayRecord (job : Job) : Worker.Pc → Bool
  | .attempt n _ => n ≤ Worker.attempts job
  | .command _ _ => true
  | .insertRun _ _ => true
  | .setLastRun _ _ => true
  | .backoff n _ => n < Worker.attempts job
  | _ => false

theorem Worker.step_mayRecord {job : Job} {trigger : Trigger} {active : Bool} {clock : Int}
    {outcome : Outcome} {old pc : Worker.Pc} {effect : Worker.Effect}
    (h : Worker.step job trigger active clock outcome old = some (pc, effect))
    (hold : old.mayRecord job = false) :
    pc.mayRecord job = false ∧ ∀ record, effect ≠ .setLastRun record := by
  unfold Worker.step at h
  grind [Worker.Pc.mayRecord]

namespace Scheduler

open Transition

/-- A scan at `now` that finds this last run does not report the job. -/
def Unmissed (loc : LocalTime) (name : Bytes) (now lastRunTs : Int) (job : Job) : Prop :=
  job.name = name → (job.schedule.bind fun c => detectMissedRun c loc lastRunTs now) = none

/-- The scan will not report a job of this name that has no last run any more. -/
def ScanPc.Ignores (loc : LocalTime) (name : Bytes) : ScanPc → Prop
  | .read now candidates => ∀ job ∈ candidates, Unmissed loc name now 0 job
  | .check now job lastRunTs rest =>
      Unmissed loc name now lastRunTs job ∧ ∀ job ∈ rest, Unmissed loc name now 0 job
  | .alert now job _ rest => job.name ≠ name ∧ ∀ job ∈ rest, Unmissed loc name now 0 job
  | .enqueue now job _ rest => job.name ≠ name ∧ ∀ job ∈ rest, Unmissed loc name now 0 job
  | _ => True

/-- Nothing works on the job: no request for it waits or is about to be queued,
no worker of it may still record, and no scan will report it. -/
structure Idle (loc : LocalTime) (name : Bytes) (s : State) : Prop where
  waiting : ∀ entry ∈ s.waiting, entry.name ≠ name
  executions : ∀ e ∈ s.execution.executions, e.1.job.name = name → e.2.mayRecord e.1.job = false
  calls : ∀ thread, s.calls thread ≠ .enqueue name
  starter : s.starter.Ignores loc name
  loop : s.loop.scanPc.Ignores loc name

/-- Nothing of the job is left. -/
structure Gone (name : Bytes) (s : State) : Prop where
  jobs : name ∉ s.jobs.map Job.name
  nextRun : s.nextRun name = none
  lastRuns : s.lastRuns name = none
  missedHandled : s.missedHandled name = none
  waiting : ∀ entry ∈ s.waiting, entry.name ≠ name

/-- Nothing is left of the job, and nothing works on it. -/
structure Removed (loc : LocalTime) (name : Bytes) (s : State) : Prop extends
    Gone name s, Idle loc name s where
  undecided : name ∉ s.loop.undecided.map Job.name

/-- The step does not add the job. -/
def NotAdded (name : Bytes) (s : State) (label : Label) : Prop :=
  s.writes label ≠ some (.register name)

instance (name : Bytes) (s : State) (label : Label) : Decidable (NotAdded name s label) :=
  inferInstanceAs (Decidable (_ ≠ _))

section Scans

variable {loc : LocalTime} {name : Bytes} {s m : State} {pc next : ScanPc}

theorem scanStep_ignores (h : scanStep loc s pc = some (m, next))
    (hjobs : name ∉ s.jobs.map Job.name) (hlast : s.lastRuns name = none)
    (hpc : pc.Ignores loc name) :
    next.Ignores loc name ∧ m.missedHandled name = s.missedHandled name := by
  cases scanStep_cases h with
  | start | finish => exact ⟨trivial, rfl⟩
  | snapshot now hfree =>
      refine ⟨?_, rfl⟩
      intro job hjob hname
      have hmem := List.mem_map_of_mem (f := Job.name) (List.mem_of_mem_filter hjob)
      exact absurd (hname ▸ hmem) hjobs
  | read now job rest hfree =>
      refine ⟨⟨?_, fun j hj => hpc j (List.mem_cons_of_mem _ hj)⟩, rfl⟩
      intro hname
      have hnone := hpc job List.mem_cons_self hname
      rw [hname, hlast]
      exact hnone
  | current now job lastRunTs rest hnone => exact ⟨hpc.2, rfl⟩
  | missed now job lastRunTs rest missed hmissed hfree =>
      have hne : job.name ≠ name := by
        intro hname
        rw [hpc.1 hname] at hmissed
        cases hmissed
      constructor
      · split_ifs
        · exact ⟨hne, hpc.2⟩
        · exact hpc.2
      · simp only [handleMissed]
        split_ifs <;> exact Function.update_of_ne hne.symm _ _
  | alert now job missed rest => exact ⟨hpc, rfl⟩
  | enqueue now job missed rest hfree => exact ⟨hpc.2, rfl⟩

/-- A scan that ignores the job does not queue it. -/
theorem ScanPc.Ignores.enqueues (h : pc.Ignores loc name) : pc.enqueues ≠ some name := by
  cases pc with
  | enqueue now job missed rest =>
      intro heq
      exact h.1 (Option.some.inj heq)
  | _ => simp [ScanPc.enqueues]

end Scans

section Steps

variable {loc : LocalTime} {name : Bytes} {s t : State} {label : Label}

/-- The removal itself: the erased entries are gone, and the work in progress is
what it was before. -/
theorem removed_of_unregister (h : step loc s label = some t)
    (hwrites : s.writes label = some (.unregister name)) (hidle : Idle loc name s) :
    Removed loc name t := by
  unfold State.writes at hwrites
  split at hwrites
  · next thread dbError =>
      cases step_cases h with
      | call thread dbError hstep =>
          split at hwrites
          · cases hwrites
          · next n hcall =>
              cases hwrites
              obtain ⟨hfree, rfl⟩ := hstep.remove_inv hcall
              refine ⟨⟨?_, ?_, ?_, ?_, hidle.waiting⟩, hidle.executions, ?_, hidle.starter,
                hidle.loop, ?_⟩
              · simp [JobSet.removeJobUpdate]
              · simp [JobSet.removeJobUpdate]
              · simp [JobSet.removeJobUpdate]
              · simp [JobSet.removeJobUpdate]
              · intro k
                simp only [Function.update_apply]
                split_ifs
                · simp
                · exact hidle.calls k
              · have hundecided : s.loop.undecided = [] := undecided_of_lockFree hfree
                rw [hundecided]
                exact List.not_mem_nil
          · cases hwrites
  · cases hwrites

/-- A call that begins finds the job before it queues a request for it. -/
theorem BeginStep.calls_enqueue {k thread : Nat} {call : ClientCall} (h : BeginStep s k call t)
    (hcall : t.calls thread = .enqueue name) :
    s.calls thread = .enqueue name ∨ name ∈ s.jobs.map Job.name := by
  cases h with
  | refuse => exact Or.inl hcall
  | requestRun n hidle hfree hfind =>
      simp only [Function.update_apply] at hcall
      split_ifs at hcall
      · cases hcall
        exact Or.inr (not_not.mp (mt findJob_eq_none_iff.mpr hfind))
      · exact Or.inl hcall
  | addJob | removeJob =>
      simp only [Function.update_apply] at hcall
      split_ifs at hcall
      exact Or.inl hcall

/-- A call that goes on does not turn into a request. -/
theorem CallStep.calls_enqueue {k thread : Nat} (h : CallStep loc s k t)
    (hcall : t.calls thread = .enqueue name) : s.calls thread = .enqueue name := by
  have hother : ∀ (calls : Nat → CallPc) (pc : CallPc),
      Function.update calls k pc thread = .enqueue name → pc ≠ .enqueue name →
      calls thread = .enqueue name := by
    intro calls pc hupdate hpc
    rw [Function.update_apply] at hupdate
    split_ifs at hupdate
    · exact absurd hupdate hpc
    · exact hupdate
  cases h <;> exact hother _ _ hcall (by simp)

/-- A request gets into a call only if it finds the job. -/
theorem step_calls_enqueue (h : step loc s label = some t) {thread : Nat}
    (hcall : t.calls thread = .enqueue name) :
    s.calls thread = .enqueue name ∨ name ∈ s.jobs.map Job.name := by
  cases step_cases h with
  | clock | active | start | notifyWake => exact Or.inl hcall
  | stop hstep =>
      obtain ⟨_, _, _, _, _, rfl⟩ := hstep.frame
      exact Or.inl hcall
  | loop hstep =>
      obtain ⟨_, _, _, _, _, _, _, _, _, _, _, _, _, rfl⟩ := hstep.frame
      exact Or.inl hcall
  | starter next hscan =>
      obtain ⟨_, _, _, _, rfl⟩ := scanStep_frame hscan
      exact Or.inl hcall
  | begin k call hstep => exact hstep.calls_enqueue hcall
  | call k dbError hstep => exact Or.inl (hstep.calls_enqueue hcall)
  | worker id outcome dbOk hstep =>
      obtain ⟨_, _, _, _, _, _, _⟩ := hstep
      exact Or.inl hcall

theorem update_none_of_none {α : Type} {f : Bytes → Option α} {n : Bytes} (h : f name = none) :
    Function.update f n none name = none := by
  rw [Function.update_apply]
  split_ifs
  · rfl
  · exact h

/-- Neither the jobs nor `next_run_` get an entry by a step that does not add
the job. -/
theorem FiringMove.stays_out {writes : Option JobWrite} {v w : FiringView}
    (hmove : FiringMove loc writes v w) (hwrites : writes ≠ some (.register name))
    (hjobs : name ∉ v.jobs.map Job.name) (hundecided : name ∉ v.undecided.map Job.name)
    (hnext : v.nextRun name = none) :
    name ∉ w.jobs.map Job.name ∧ name ∉ w.undecided.map Job.name ∧ w.nextRun name = none := by
  cases hmove with
  | stay | clock | readWall | leave | request => exact ⟨hjobs, hundecided, hnext⟩
  | enter hdone => exact ⟨hjobs, hjobs, hnext⟩
  | skip job rest hrest =>
      rw [hrest, List.map_cons, List.mem_cons, not_or] at hundecided
      exact ⟨hjobs, hundecided.2, hnext⟩
  | due job rest c wall next live hrest =>
      rw [hrest, List.map_cons, List.mem_cons, not_or] at hundecided
      exact ⟨hjobs, hundecided.2, (Function.update_of_ne hundecided.1 _ _).trans hnext⟩
  | register stored hdone hregister =>
      have hne : name ≠ stored.name := by
        rintro rfl
        exact hwrites hregister
      refine ⟨?_, hundecided, (JobSet.setNextRun_of_ne hne).trans hnext⟩
      simpa [hne] using hjobs
  | unregister n hdone hunregister =>
      refine ⟨?_, hundecided, ?_⟩
      · intro hmem
        obtain ⟨job, hjob, rfl⟩ := List.mem_map.mp hmem
        exact hjobs (List.mem_map_of_mem (List.mem_of_mem_filter hjob))
      · exact update_none_of_none hnext

/-- No request for the job comes to wait. -/
theorem RequestMove.stays_out {enqueues : Option Bytes} {v w : RequestView}
    (hmove : RequestMove enqueues v w) (henqueues : enqueues ≠ some name)
    (hwaiting : ∀ entry ∈ v.waiting, entry.name ≠ name) :
    ∀ entry ∈ w.waiting, entry.name ≠ name := by
  cases hmove with
  | stay jobs => exact hwaiting
  | issue ticket hissued =>
      intro entry hmem
      obtain hold | hnew := List.mem_append.mp hmem
      · exact hwaiting entry hold
      · rw [List.mem_singleton.mp hnew]
        intro hname
        exact henqueues (hissued.trans (congrArg some hname))
  | drop before after entry hwait | place before after entry job hwait =>
      intro e he
      apply hwaiting e
      rw [hwait]
      obtain hmem | hmem := List.mem_append.mp he <;> simp [hmem]

/-- A launch is one of a job that is there. -/
theorem Launches.name_mem {entry : LaunchEntry} (h : Launches s entry) :
    entry.job.name ∈ s.jobs.map Job.name ∨ entry.job.name ∈ s.loop.undecided.map Job.name := by
  cases h with
  | request wall queued rest deferred toLaunch job hloop hfind hlive =>
      exact Or.inl (List.mem_map_of_mem (findJob_mem hfind).1)
  | due wall job rest toLaunch next hloop hnext hlive =>
      right
      simp [hloop]

/-- No worker of the job comes to record, and `last_runs_` gets no entry. -/
theorem ExecutionMove.stays_out {v : ExecutionView} (hmove : ExecutionMove s label v)
    (hjobs : name ∉ s.jobs.map Job.name) (hundecided : name ∉ s.loop.undecided.map Job.name)
    (hlast : s.lastRuns name = none)
    (hidle : ∀ e ∈ s.execution.executions, e.1.job.name = name → e.2.mayRecord e.1.job = false) :
    v.lastRuns name = none ∧
      ∀ e ∈ v.executions, e.1.job.name = name → e.2.mayRecord e.1.job = false := by
  cases hmove with
  | stay => exact ⟨hlast, hidle⟩
  | launch entry hlabel hlaunch =>
      refine ⟨hlast, fun e he hname => ?_⟩
      obtain hold | hnew := List.mem_append.mp he
      · exact hidle e hold hname
      · rw [List.mem_singleton.mp hnew] at hname
        obtain hmem | hmem := hlaunch.name_mem
        · exact absurd (hname ▸ hmem) hjobs
        · exact absurd (hname ▸ hmem) hundecided
  | work id entry old pc effect outcome hget hstep =>
      have hrecords : entry.job.name = name →
          pc.mayRecord entry.job = false ∧ ∀ record, effect ≠ .setLastRun record := by
        intro hname
        exact Worker.step_mayRecord hstep (hidle _ (List.mem_of_getElem? hget) hname)
      constructor
      · cases effect with
        | setLastRun record =>
            have hne : name ≠ entry.job.name := by
              intro hname
              exact (hrecords hname.symm).2 record rfl
            exact (Function.update_of_ne hne _ _).trans hlast
        | _ => exact hlast
      · intro e he hname
        obtain hold | rfl := List.mem_or_eq_of_mem_set he
        · exact hidle e hold hname
        · exact (hrecords hname).1
  | unregister n hwrites =>
      refine ⟨?_, hidle⟩
      exact update_none_of_none hlast

/-- An idle name is not queued. -/
theorem Idle.enqueues (h : Idle loc name s) : s.enqueues label ≠ some name := by
  cases label with
  | loop => exact h.loop.enqueues
  | starter => exact h.starter.enqueues
  | call thread dbError =>
      simp only [State.enqueues]
      split
      · next n hcall =>
          rintro ⟨⟩
          exact h.calls thread hcall
      · simp
  | _ => simp [State.enqueues]

/-- The scans and `missed_handled_`, for a step that does not remove the job. -/
theorem step_ignores (h : step loc s label = some t) (hkept : KeepsJob name s label)
    (hjobs : name ∉ s.jobs.map Job.name) (hlast : s.lastRuns name = none)
    (hidle : Idle loc name s) :
    t.starter.Ignores loc name ∧ t.loop.scanPc.Ignores loc name ∧
      t.missedHandled name = s.missedHandled name := by
  by_cases hstarter : label = .starter
  · subst hstarter
    obtain ⟨m, next, hscan, rfl⟩ := starter_scans h
    obtain ⟨hnext, hhandled⟩ := scanStep_ignores hscan hjobs hlast hidle.starter
    obtain ⟨_, _, _, _, rfl⟩ := scanStep_frame hscan
    exact ⟨hnext, hidle.loop, hhandled⟩
  by_cases hscan : label = .loop ∧ ∃ wall pc, s.loop = .scan wall pc
  · obtain ⟨rfl, wall, pc, hloop⟩ := hscan
    obtain ⟨m, next, hscan, rfl⟩ := loop_scans hloop h
    have hpc : pc.Ignores loc name := by
      have hloopIdle := hidle.loop
      rwa [hloop] at hloopIdle
    obtain ⟨hnext, hhandled⟩ := scanStep_ignores hscan hjobs hlast hpc
    obtain ⟨_, _, _, _, rfl⟩ := scanStep_frame hscan
    refine ⟨hidle.starter, ?_, hhandled⟩
    simp only
    split_ifs
    · trivial
    · exact hnext
  · have hnot : label = .loop → ∀ wall pc, s.loop ≠ .scan wall pc := by
      rintro rfl wall pc hloop
      exact hscan ⟨rfl, wall, pc, hloop⟩
    have hundisturbed := step_undisturbed h hkept hstarter hnot
    refine ⟨?_, ?_, hundisturbed.handled⟩
    · obtain heq | ⟨_, heq⟩ := hundisturbed.starter
      · rw [heq]
        exact hidle.starter
      · rw [heq]
        trivial
    · obtain heq | ⟨_, heq⟩ := hundisturbed.loop
      · rw [heq]
        exact hidle.loop
      · rw [heq]
        trivial

/-- A removed job stays removed until it is added. -/
theorem Removed.step (h : Removed loc name s) (hadded : NotAdded name s label)
    (hstep : step loc s label = some t) : Removed loc name t := by
  by_cases hkept : KeepsJob name s label
  · obtain ⟨hjobs, hundecided, hnext⟩ :=
      (step_firing hstep).stays_out hadded h.jobs h.undecided h.nextRun
    have hwaiting := (step_requests hstep).stays_out h.toIdle.enqueues h.waiting
    obtain ⟨hlast, hexecutions⟩ :=
      (step_execution hstep).stays_out h.jobs h.undecided h.lastRuns h.executions
    obtain ⟨hstarter, hloop, hhandled⟩ := step_ignores hstep hkept h.jobs h.lastRuns h.toIdle
    have hcalls : ∀ thread, t.calls thread ≠ .enqueue name := by
      intro thread hcall
      obtain hold | hmem := step_calls_enqueue hstep hcall
      · exact h.calls thread hold
      · exact h.jobs hmem
    exact ⟨⟨hjobs, hnext, hlast, hhandled.trans h.missedHandled, hwaiting⟩, hexecutions, hcalls,
      hstarter, hloop, hundecided⟩
  · exact removed_of_unregister hstep (not_not.mp hkept) h.toIdle

end Steps

section Runs

variable {loc : LocalTime} {name : Bytes} {r m s : State} {label : Label} {labels : List Label}

/-- After a removal that finds nothing working on the job, and until the name is
added again, neither the jobs nor `next_run_`, `last_runs_`, `missed_handled_`
or the queue has an entry for it. -/
theorem removed_leaves_nothing (hremove : r.writes label = some (.unregister name))
    (hidle : Idle loc name r) (hstep : step loc r label = some m)
    (hafter : Run (step loc) (NotAdded name) m labels s) : Gone name s := by
  have hremoved : Removed loc name s := by
    apply hafter.invariant (I := Removed loc name)
    · intro s label t hinv hadded hstep
      exact hinv.step hadded hstep
    · exact removed_of_unregister hstep hremove hidle
  exact hremoved.toGone

/-- An addition of a job `a` by a client. -/
def addition : List Label := addUpToReturn ++ [.call 0 none]

/-- Its removal, up to the last critical section. -/
def removal : List Label := [.begin 0 (.removeJob (text "a")), .call 0 none]

/-- A scheduler with one stored job that runs every minute, recovers missed runs
and was last run in the tenth second. -/
def storedOnly : State :=
  initial midnight [] ⟨[{
    name := text "a"
    command := text "true"
    scheduleExpr := text "* * * * *"
    missedRunPolicy := text "run_now"
    timeoutSeconds := 0
    retries := 0 }], by decide, by decide⟩ (fun _ => some earlyRun) 100

/-- The first scan reports the missed minute, the first tick recovers it, and the
worker has recorded its run when a client asks for the removal. -/
def recoveredThenRemoval : List Label :=
  .start :: List.replicate 7 .starter ++ List.replicate 13 .loop ++ workerSucceeds 0 ++ removal

/-- The job is removed after a missed run was recovered, and the tick at its next
occurrence finds nothing of it. -/
theorem removed_leaves_nothing_recovered :
    ∃ r m s, Reachable (step midnight) storedOnly r ∧ Idle midnight (text "a") r ∧
      (text "a" ∈ r.jobs.map Job.name ∧ r.nextRun (text "a") = some 120 ∧
        r.lastRuns (text "a") ≠ none ∧ r.missedHandled (text "a") = some 60) ∧
      r.writes (.call 0 none) = some (.unregister (text "a")) ∧
      step midnight r (.call 0 none) = some m ∧
      Run (step midnight) (NotAdded (text "a")) m
        (List.replicate 2 (.call 0 none) ++ .clock 120 :: List.replicate 10 .loop) s ∧
      s.returns = [(.removeJob (text "a"), none)] ∧ Gone (text "a") s := by
  obtain ⟨r, hbefore, hr⟩ := Run.of_exec_any (step midnight) ReturnsFresh storedOnly
    recoveredThenRemoval
    (fun r => decide (r.waiting = [] ∧
        (∀ e ∈ r.execution.executions, e.2.mayRecord e.1.job = false) ∧
        r.calls 0 = .removeUpdate (text "a") ∧ r.starter = .idle ∧ r.loop = .top) &&
      decide (text "a" ∈ r.jobs.map Job.name ∧ r.nextRun (text "a") = some 120 ∧
        r.lastRuns (text "a") ≠ none ∧ r.missedHandled (text "a") = some 60) &&
      (step midnight r (.call 0 none)).any fun m => (exec (step midnight) (NotAdded (text "a")) m
        (List.replicate 2 (.call 0 none) ++ .clock 120 :: List.replicate 10 .loop)).any
          fun s : State => decide (s.returns = [(.removeJob (text "a"), none)]))
    (by decide +kernel)
  obtain ⟨hstate, hlater⟩ := Bool.and_eq_true_iff.mp hr
  obtain ⟨hquiet, hentries⟩ := Bool.and_eq_true_iff.mp hstate
  obtain ⟨hwaiting, hexecutions, hcall, hstarter, hloop⟩ := of_decide_eq_true hquiet
  obtain ⟨m, hstep, hm⟩ := (Option.any_eq_true _ _).mp hlater
  obtain ⟨s, hafter, hs⟩ := Run.of_exec_any _ _ m _ _ hm
  have hidle : Idle midnight (text "a") r := by
    refine ⟨by simp [hwaiting], fun e he _ => hexecutions e he, fun thread hrequest => ?_, ?_, ?_⟩
    · obtain rfl : thread = 0 := (oneClient_of_run hbefore).thread_eq (by
        simp [State.publication, hrequest])
      rw [hcall] at hrequest
      cases hrequest
    · rw [hstarter]
      trivial
    · rw [hloop]
      trivial
  have hremove : r.writes (.call 0 none) = some (.unregister (text "a")) := by
    simp [State.writes, hcall]
  exact ⟨r, m, s, ⟨_, hbefore.mono fun _ _ _ => trivial⟩, hidle, of_decide_eq_true hentries,
    hremove, hstep, hafter, of_decide_eq_true hs, removed_leaves_nothing hremove hidle hstep hafter⟩

/-- The job is removed while its command runs. The removal has returned without
an error, and the worker then writes the record of the removed job. -/
theorem removed_job_leaves_record :
    ∃ r m s, Reachable (step midnight) configuredOnly r ∧
      r.writes (.call 0 none) = some (.unregister (text "a")) ∧
      step midnight r (.call 0 none) = some m ∧
      Run (step midnight) (NotAdded (text "a")) m
        (List.replicate 2 (.call 0 none) ++ List.replicate 3 (.worker 0 { status := .success } true))
        s ∧
      (.removeJob (text "a"), none) ∈ s.returns ∧ ¬ Gone (text "a") s := by
  obtain ⟨r, hbefore, hr⟩ := Run.of_exec_any (step midnight) free configuredOnly
    (.start :: addition ++ requestRun ++ List.replicate 11 .loop ++
      [.worker 0 { status := .success } true] ++ removal)
    (fun r => decide (r.calls 0 = .removeUpdate (text "a")) &&
      (step midnight r (.call 0 none)).any fun m => (exec (step midnight) (NotAdded (text "a")) m
        (List.replicate 2 (.call 0 none) ++
          List.replicate 3 (.worker 0 { status := .success } true))).any
          fun s : State => decide ((.removeJob (text "a"), none) ∈ s.returns ∧
            s.lastRuns (text "a") ≠ none))
    (by decide +kernel)
  obtain ⟨hstate, hlater⟩ := Bool.and_eq_true_iff.mp hr
  have hcall := of_decide_eq_true hstate
  obtain ⟨m, hstep, hm⟩ := (Option.any_eq_true _ _).mp hlater
  obtain ⟨s, hafter, hs⟩ := Run.of_exec_any _ _ m _ _ hm
  obtain ⟨hreturns, hrecord⟩ := of_decide_eq_true hs
  refine ⟨r, m, s, ⟨_, hbefore⟩, by simp [State.writes, hcall], hstep, hafter, hreturns, ?_⟩
  intro hgone
  exact hrecord hgone.lastRuns

end Runs

end Scheduler
end AgentPulse
