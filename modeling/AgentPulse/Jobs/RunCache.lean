import AgentPulse.DbRuns
import AgentPulse.Jobs.MissedReports
import AgentPulse.Jobs.Records

/-!
# What a restarted scheduler knows about a job

The scheduler keeps the last run of a job in `last_runs_` and its runs in the
database, and a worker writes them one after the other. After a restart the
constructor fills `last_runs_` from the database. This module says when the two
agree: the cache has the run inserted last, the database gives back the run that
started last.
-/

namespace AgentPulse

/-- The worker has inserted the record of an attempt and not written it to
`last_runs_`. -/
def Worker.Pc.recording : Worker.Pc → Bool
  | .setLastRun _ _ => true
  | _ => false

namespace Scheduler

open Transition

/-- An execution as a writer of records. -/
structure Writer where
  job : Job
  trigger : Trigger
  pc : Worker.Pc
  done : Bool

def Task.writer (task : Task) : Writer := ⟨task.job, task.trigger, task.pc, task.done⟩

structure CacheView where
  writers : List Writer
  lastRuns : Bytes → Option RunRecord
  runs : List RunRecord
  clock : ℕ

def State.cache (s : State) : CacheView where
  writers := s.tasks.map Task.writer
  lastRuns := s.lastRuns
  runs := s.runs
  clock := s.clock

/-- The inserted runs after a step of a worker. -/
def runsAfter (effect : Worker.Effect) (dbOk : Bool) (runs : List RunRecord) : List RunRecord :=
  match effect with
  | .insertRun record => if dbOk then runs ++ [record] else runs
  | _ => runs

/-- The moves on the runs and their cache. -/
inductive CacheMove (label : Label) (writes : Option JobWrite) (v : CacheView) : CacheView → Prop
  | stay : CacheMove label writes v v
  | clock (time : ℕ) (hlabel : label = .clock time) :
      CacheMove label writes v { v with clock := time }
  | launch (job : Job) (trigger : Trigger)
      (hfree : ∀ w ∈ v.writers, w.job.name = job.name → w.done = true) :
      CacheMove label writes v { v with
        writers := v.writers ++ [⟨job, trigger, Worker.start, false⟩] }
  | work (id : Nat) (w : Writer) (active : Bool) (outcome : Outcome) (dbOk : Bool) (pc : Worker.Pc)
      (effect : Worker.Effect) (hlabel : label = .worker id outcome dbOk)
      (hget : v.writers[id]? = some w)
      (hstep : Worker.step w.job w.trigger active v.clock outcome w.pc = some (pc, effect)) :
      CacheMove label writes v { v with
        writers := v.writers.set id { w with pc := pc, done := w.done || effect = .done }
        lastRuns := lastRunsAfter effect w.job.name v.lastRuns
        runs := runsAfter effect dbOk v.runs }
  | unregister (name : Bytes) (hwrites : writes = some (.unregister name)) :
      CacheMove label writes v { v with lastRuns := Function.update v.lastRuns name none }

section Simulation

variable {loc : LocalTime} {s t : State}

theorem map_writer_modify (tasks : List Task) (id : Nat) (f : Task → Task)
    (hf : ∀ task, (f task).writer = task.writer) :
    (tasks.modify id f).map Task.writer = tasks.map Task.writer :=
  KeyedList.map_modify_of_key hf

theorem LoopStep.cache (h : LoopStep loc s t) (howned : Owned s.view)
    (hlive : t.terminated = false) : CacheMove .loop none s.cache t.cache := by
  cases h with
  | reap hloop hactive => exact .stay
  | join id rest hloop =>
      convert CacheMove.stay using 1
      simp [State.cache, State.joinTask, map_writer_modify s.tasks id Task.join fun _ => rfl]
  | scan wall pc next hloop hscan =>
      obtain ⟨_, _, _, _, rfl⟩ := scanStep_frame hscan
      exact .stay
  | launch entry rest hloop =>
      convert CacheMove.launch (v := s.cache) entry.job entry.trigger ?_ using 1
      · simp [State.cache, State.launchEntry, LaunchEntry.task, Task.writer]
      · intro w hw hname
        obtain ⟨task, htask, rfl⟩ := List.mem_map.mp hw
        exact done_of_launch howned hloop hlive task.execution (List.mem_map_of_mem htask) hname
  | startThread id rest hloop =>
      convert CacheMove.stay using 1
      simp [State.cache, map_writer_modify s.tasks id Task.create fun _ => rfl]
  | exit hloop | joined hloop | gap hloop | wake hloop | awake hloop | lock _ hloop
  | drained _ _ _ hloop | drop _ _ _ _ _ hloop | defer _ _ _ _ _ hloop
  | place _ _ _ _ _ _ hloop | decided _ _ hloop | unscheduled _ _ _ _ hloop
  | unplanned _ _ _ _ _ hloop | later _ _ _ _ _ _ hloop | overlap _ _ _ _ _ _ hloop
  | fire _ _ _ _ _ _ hloop | launched hloop | publish hloop | setJobs _ hloop => exact .stay

theorem StopStep.cache (h : StopStep s t) {label : Label} {writes : Option JobWrite} :
    CacheMove label writes s.cache t.cache := by
  cases h with
  | join id rest task hstopper hget hdone =>
      convert CacheMove.stay using 1
      simp [State.cache, State.joinTask, map_writer_modify s.tasks id Task.join fun _ => rfl]
  | _ => exact .stay

/-- A step of a worker on the view: unlike `WorkerStep` it says what becomes of
the inserted runs. -/
theorem workerStep_cache {id : Nat} {outcome : Outcome} {dbOk : Bool} {writes : Option JobWrite}
    (h : workerStep s id outcome dbOk = some t) :
    CacheMove (.worker id outcome dbOk) writes s.cache t.cache := by
  unfold workerStep at h
  split at h
  · cases h
  · next task hget =>
      split at h
      · cases h
      · split at h
        · cases h
        · next pc effect hstep =>
            have ht : t.cache = { s.cache with
                writers := s.cache.writers.set id
                  { task.writer with pc := pc, done := task.done || effect = .done }
                lastRuns := lastRunsAfter effect task.job.name s.lastRuns
                runs := runsAfter effect dbOk s.runs } := by
              cases effect with
              | setLastRun record =>
                  simp only at h
                  split at h
                  · cases h
                    simp [State.cache, List.map_set, Task.writer, lastRunsAfter, runsAfter]
                  · cases h
              | insertRun record =>
                  cases h
                  simp [State.cache, List.map_set, Task.writer, lastRunsAfter, runsAfter]
              | none | alert info | done =>
                  cases h
                  simp [State.cache, List.map_set, Task.writer, lastRunsAfter, runsAfter]
            rw [ht]
            exact .work id task.writer s.active outcome dbOk pc effect rfl
              (by simp [State.cache, hget]) hstep

theorem CallStep.cache {thread : Nat} (h : CallStep loc s thread t) (dbError : Option Bytes) :
    CacheMove (.call thread dbError) (s.writes (.call thread dbError)) s.cache t.cache := by
  cases h with
  | remove name hcall hfree => exact .unregister name (by simp [State.writes, hcall])
  | _ => exact .stay

/-- Each step that does not terminate the process is a move on the view. -/
theorem step_cache {label : Label} (h : step loc s label = some t) (howned : Owned s.view)
    (hlive : t.terminated = false) : CacheMove label (s.writes label) s.cache t.cache := by
  cases step_cases h with
  | clock time => exact .clock time rfl
  | active hactive | notifyWake | start hactive hloop hstarter hstopper => exact .stay
  | stop hstep => exact hstep.cache
  | loop hstep => exact hstep.cache howned hlive
  | starter next hscan =>
      obtain ⟨_, _, _, _, rfl⟩ := scanStep_frame hscan
      exact .stay
  | begin thread call hstep =>
      obtain ⟨_, _, rfl⟩ := hstep.frame
      exact .stay
  | call thread dbError hstep => exact hstep.cache dbError
  | worker id outcome dbOk hstep =>
      have hlive' := step_live h
      unfold step at h
      rw [if_neg (by simp [hlive'])] at h
      exact workerStep_cache h

end Simulation

section Worker

variable {job : Job} {trigger : Trigger} {active : Bool} {clock : Int} {outcome : Outcome}
  {old pc : Worker.Pc} {effect : Worker.Effect} {record : RunRecord}

/-- The record of an attempt is inserted first. -/
theorem Worker.step_insertRun
    (h : Worker.step job trigger active clock outcome old = some (pc, .insertRun record)) :
    ∃ n res, old = .insertRun n res ∧ pc = .setLastRun n res ∧
      record = Worker.record job trigger res := by
  unfold Worker.step at h
  grind

/-- Then the same record is written to `last_runs_`. -/
theorem Worker.step_writeLastRun
    (h : Worker.step job trigger active clock outcome old = some (pc, .setLastRun record)) :
    (∃ n res, old = .setLastRun n res ∧ record = Worker.record job trigger res) ∧
      pc.recording = false := by
  unfold Worker.step at h
  grind [Worker.Pc.recording]

/-- No other step comes from or leads to the point between the two. -/
theorem Worker.step_recording
    (h : Worker.step job trigger active clock outcome old = some (pc, effect))
    (hinsert : ∀ record, effect ≠ .insertRun record)
    (hwrite : ∀ record, effect ≠ .setLastRun record) :
    old.recording = false ∧ pc.recording = false := by
  unfold Worker.step at h
  grind [Worker.Pc.recording]

end Worker

/-- The inserted runs of a job. -/
def recorded (name : Bytes) (runs : List RunRecord) : List RunRecord :=
  runs.filter fun run => run.jobName = name

/-- The workers of a job run one after the other. -/
structure InTurn (name : Bytes) (writers : List Writer) : Prop where
  returned : ∀ w ∈ writers, w.done = true → w.pc = .returned
  alone : ∀ (i j : Nat) (a b : Writer), writers[i]? = some a → writers[j]? = some b →
    a.job.name = name → b.job.name = name → a.done = false → b.done = false → i = j

/-- A job whose last run was `base` before the scheduler inserted any:
`last_runs_` has the run inserted last, except while a worker stands between the
two writes. -/
structure Cached (name : Bytes) (base : Option RunRecord) (v : CacheView) : Prop where
  pending : ∀ w ∈ v.writers, w.job.name = name → ∀ n res, w.pc = .setLastRun n res →
    (recorded name v.runs).getLast? = some (Worker.record w.job w.trigger res)
  settled : (∀ w ∈ v.writers, w.job.name = name → w.pc.recording = false) →
    v.lastRuns name = (recorded name v.runs).getLast?.or base

section InTurn

variable {name : Bytes} {writers : List Writer} {id : Nat} {w : Writer} {active : Bool}
  {clock : Int} {outcome : Outcome} {pc : Worker.Pc} {effect : Worker.Effect}

theorem InTurn.launch (h : InTurn name writers) {job : Job} {trigger : Trigger}
    (hfree : ∀ w ∈ writers, w.job.name = job.name → w.done = true) :
    InTurn name (writers ++ [⟨job, trigger, Worker.start, false⟩]) := by
  refine ⟨?_, ?_⟩
  · intro w hw hdone
    obtain hold | hnew := List.mem_append.mp hw
    · exact h.returned w hold hdone
    · rw [List.mem_singleton.mp hnew] at hdone
      cases hdone
  · intro i j a b ha hb haname hbname halive hblive
    rw [getElem?_concat_iff] at ha hb
    obtain ha | ⟨hi, rfl⟩ := ha
    · obtain hb | ⟨hj, rfl⟩ := hb
      · exact h.alone i j a b ha hb haname hbname halive hblive
      · have hdone := hfree a (List.mem_of_getElem? ha) (haname.trans hbname.symm)
        rw [hdone] at halive
        cases halive
    · obtain hb | ⟨hj, rfl⟩ := hb
      · have hdone := hfree b (List.mem_of_getElem? hb) (hbname.trans haname.symm)
        rw [hdone] at hblive
        cases hblive
      · rw [hi, hj]

/-- A worker that can move is not done. -/
theorem InTurn.alive (h : InTurn name writers) (hget : writers[id]? = some w)
    (hstep : Worker.step w.job w.trigger active clock outcome w.pc = some (pc, effect)) :
    w.done = false := by
  by_contra hdone
  rw [h.returned w (List.mem_of_getElem? hget) (by simpa using hdone)] at hstep
  cases hstep

theorem InTurn.work (h : InTurn name writers) (hget : writers[id]? = some w)
    (hstep : Worker.step w.job w.trigger active clock outcome w.pc = some (pc, effect)) :
    InTurn name (writers.set id { w with pc := pc, done := w.done || effect = .done }) := by
  have halive := h.alive hget hstep
  refine ⟨?_, ?_⟩
  · intro x hx hdone
    obtain hold | rfl := List.mem_or_eq_of_mem_set hx
    · exact h.returned x hold hdone
    · rw [halive, Bool.false_or, decide_eq_true_eq] at hdone
      rw [hdone] at hstep
      exact Worker.step_done hstep
  · have hsame : ∀ (k : Nat) (x y : Writer), writers[k]? = some x →
        (if id = k then { w with pc := pc, done := w.done || effect = .done } else x) = y →
        y.done = false → x.job.name = y.job.name ∧ x.done = false := by
      intro k x y hx hxy hy
      by_cases hk : id = k
      · subst hk
        rw [hget] at hx
        obtain rfl := Option.some.inj hx
        rw [if_pos rfl] at hxy
        rw [← hxy]
        exact ⟨rfl, halive⟩
      · rw [if_neg hk] at hxy
        rw [hxy]
        exact ⟨rfl, hy⟩
    intro i j a b ha hb haname hbname ha0 hb0
    obtain ⟨a', ha', haeq⟩ := (getElem?_set_iff hget).mp ha
    obtain ⟨b', hb', hbeq⟩ := (getElem?_set_iff hget).mp hb
    obtain ⟨haname', ha0'⟩ := hsame i a' a ha' haeq ha0
    obtain ⟨hbname', hb0'⟩ := hsame j b' b hb' hbeq hb0
    exact h.alone i j a' b' ha' hb' (haname'.trans haname) (hbname'.trans hbname) ha0' hb0'

/-- While a worker of the job moves, no other one stands at a point that is not the last. -/
theorem InTurn.other_returned (h : InTurn name writers) (hget : writers[id]? = some w)
    (halive : w.done = false) (hname : w.job.name = name) {x : Writer}
    (hx : x ∈ writers.set id { w with pc := pc, done := w.done || effect = .done })
    (hxname : x.job.name = name) :
    x = { w with pc := pc, done := w.done || effect = .done } ∨ x.pc = .returned := by
  obtain ⟨j, hj⟩ := List.mem_iff_getElem?.mp hx
  obtain ⟨old, hold, heq⟩ := (getElem?_set_iff hget).mp hj
  by_cases hk : id = j
  · rw [if_pos hk] at heq
    exact Or.inl heq.symm
  · rw [if_neg hk] at heq
    subst heq
    refine Or.inr (h.returned old (List.mem_of_getElem? hold) ?_)
    by_contra hdone
    exact hk (h.alone id j w old hget hold hname hxname halive (by simpa using hdone))

end InTurn

section Invariant

variable {name : Bytes} {base : Option RunRecord} {v : CacheView}

theorem recorded_snoc {runs : List RunRecord} {run : RunRecord} :
    recorded name (runs ++ [run]) =
      recorded name runs ++ if run.jobName = name then [run] else [] := by
  rw [recorded, List.filter_append, List.filter_singleton]
  simp [recorded]

/-- An insertion for another job does not concern the job. -/
theorem recorded_snoc_of_ne {runs : List RunRecord} {run : RunRecord} (h : run.jobName ≠ name) :
    recorded name (runs ++ [run]) = recorded name runs := by
  rw [recorded_snoc, if_neg h, List.append_nil]

theorem Cached.launch (h : Cached name base v) {job : Job} {trigger : Trigger} :
    Cached name base { v with writers := v.writers ++ [⟨job, trigger, Worker.start, false⟩] } := by
  refine ⟨?_, fun hall => h.settled fun w hw hname => hall w (List.mem_append_left _ hw) hname⟩
  intro w hw hname n res hpc
  obtain hold | hnew := List.mem_append.mp hw
  · exact h.pending w hold hname n res hpc
  · rw [List.mem_singleton.mp hnew] at hpc
    cases hpc

/-- A worker of another job. -/
theorem Cached.work_of_ne (h : Cached name base v) {id : Nat} {w : Writer} {active dbOk : Bool}
    {outcome : Outcome} {pc : Worker.Pc} {effect : Worker.Effect} (hget : v.writers[id]? = some w)
    (hne : w.job.name ≠ name)
    (hstep : Worker.step w.job w.trigger active v.clock outcome w.pc = some (pc, effect)) :
    Cached name base { v with
      writers := v.writers.set id { w with pc := pc, done := w.done || effect = .done }
      lastRuns := lastRunsAfter effect w.job.name v.lastRuns
      runs := runsAfter effect dbOk v.runs } := by
  have hlast : lastRunsAfter effect w.job.name v.lastRuns name = v.lastRuns name := by
    cases effect with
    | setLastRun record => exact Function.update_of_ne hne.symm _ _
    | _ => rfl
  have hruns : recorded name (runsAfter effect dbOk v.runs) = recorded name v.runs := by
    cases effect with
    | insertRun record =>
        obtain ⟨n, res, -, -, rfl⟩ := Worker.step_insertRun hstep
        rw [runsAfter]
        split_ifs
        · exact recorded_snoc_of_ne hne
        · rfl
    | _ => rfl
  have hmem : ∀ x ∈ v.writers, x.job.name = name →
      x ∈ v.writers.set id { w with pc := pc, done := w.done || effect = .done } := by
    intro x hx hxname
    obtain ⟨j, hj⟩ := List.mem_iff_getElem?.mp hx
    refine List.mem_of_getElem? ((getElem?_set_iff hget).mpr ⟨x, hj, if_neg ?_⟩)
    rintro rfl
    rw [hget] at hj
    exact hne (Option.some.inj hj ▸ hxname)
  refine ⟨?_, ?_⟩
  · intro x hx hxname n res hpc
    rw [hruns]
    obtain hold | rfl := List.mem_or_eq_of_mem_set hx
    · exact h.pending x hold hxname n res hpc
    · exact absurd hxname hne
  · intro hall
    simp only [hlast, hruns]
    exact h.settled fun x hx hxname => hall x (hmem x hx hxname) hxname

/-- A worker of the job itself. -/
theorem Cached.work_of_eq (h : Cached name base v) (hturn : InTurn name v.writers) {id : Nat}
    {w : Writer} {active : Bool} {outcome : Outcome} {pc : Worker.Pc} {effect : Worker.Effect}
    (hget : v.writers[id]? = some w) (hname : w.job.name = name)
    (hstep : Worker.step w.job w.trigger active v.clock outcome w.pc = some (pc, effect)) :
    Cached name base { v with
      writers := v.writers.set id { w with pc := pc, done := w.done || effect = .done }
      lastRuns := lastRunsAfter effect w.job.name v.lastRuns
      runs := runsAfter effect true v.runs } := by
  have hmem : w ∈ v.writers := List.mem_of_getElem? hget
  have halive := hturn.alive hget hstep
  have hself : { w with pc := pc, done := w.done || effect = .done } ∈
      v.writers.set id { w with pc := pc, done := w.done || effect = .done } :=
    List.mem_of_getElem? ((getElem?_set_iff hget).mpr ⟨w, hget, if_pos rfl⟩)
  have hothers : ∀ x ∈ v.writers, x.job.name = name → x = w ∨ x.pc = .returned := by
    intro x hx hxname
    obtain ⟨j, hj⟩ := List.mem_iff_getElem?.mp hx
    by_cases hdone : x.done = true
    · exact Or.inr (hturn.returned x hx hdone)
    · have hij := hturn.alone id j w x hget hj hname hxname halive (by simpa using hdone)
      rw [← hij, hget] at hj
      exact Or.inl (Option.some.inj hj).symm
  by_cases hinsert : ∃ record, effect = .insertRun record
  · obtain ⟨record, rfl⟩ := hinsert
    obtain ⟨n, res, -, rfl, rfl⟩ := Worker.step_insertRun hstep
    have hrecord : (Worker.record w.job w.trigger res).jobName = name := hname
    have hlast : (recorded name (runsAfter (.insertRun (Worker.record w.job w.trigger res)) true
        v.runs)).getLast? = some (Worker.record w.job w.trigger res) := by
      rw [runsAfter, if_pos rfl, recorded_snoc, if_pos hrecord, List.getLast?_concat]
    refine ⟨?_, fun hall => ?_⟩
    · intro x hx hxname n' res' hxpc
      obtain rfl | hreturned := hturn.other_returned hget halive hname hx hxname
      · cases hxpc
        exact hlast
      · rw [hreturned] at hxpc
        cases hxpc
    · cases hall _ hself hname
  · have hruns : runsAfter effect true v.runs = v.runs := by
      cases effect with
      | insertRun record => exact absurd ⟨record, rfl⟩ hinsert
      | _ => rfl
    have hidle : pc.recording = false := by
      by_cases hwrite : ∃ record, effect = .setLastRun record
      · obtain ⟨record, rfl⟩ := hwrite
        exact (Worker.step_writeLastRun hstep).2
      · exact (Worker.step_recording hstep (fun record heq => hinsert ⟨record, heq⟩)
          fun record heq => hwrite ⟨record, heq⟩).2
    refine ⟨?_, fun _ => ?_⟩
    · intro x hx hxname n res hxpc
      obtain rfl | hreturned := hturn.other_returned hget halive hname hx hxname
      · have hpc : pc = .setLastRun n res := hxpc
        rw [hpc] at hidle
        cases hidle
      · rw [hreturned] at hxpc
        cases hxpc
    · by_cases hwrite : ∃ record, effect = .setLastRun record
      · obtain ⟨record, rfl⟩ := hwrite
        obtain ⟨⟨n, res, hpc, rfl⟩, -⟩ := Worker.step_writeLastRun hstep
        have hlast := h.pending w hmem hname n res hpc
        simp only [hruns, lastRunsAfter, hname, Function.update_self, hlast, Option.some_or]
      · have hkept : lastRunsAfter effect w.job.name v.lastRuns = v.lastRuns := by
          cases effect with
          | setLastRun record => exact absurd ⟨record, rfl⟩ hwrite
          | _ => rfl
        have hbefore := (Worker.step_recording hstep (fun record heq => hinsert ⟨record, heq⟩)
          fun record heq => hwrite ⟨record, heq⟩).1
        simp only [hruns, hkept]
        refine h.settled fun x hx hxname => ?_
        obtain rfl | hreturned := hothers x hx hxname
        · exact hbefore
        · rw [hreturned]
          rfl

/-- A run of the job that is written to `last_runs_` is in the database. -/
def Persists (name : Bytes) (s : State) : Label → Prop
  | .worker id _ dbOk => ∀ task ∈ s.tasks[id]?, task.job.name = name → dbOk = true
  | _ => True

instance (name : Bytes) (s : State) : DecidablePred (Persists name s)
  | .worker _ _ _ => inferInstanceAs (Decidable (∀ _ ∈ _, _))
  | .clock _ | .stop | .call _ _ | .loop | .starter | .start | .notifyWake | .begin _ _ =>
      inferInstanceAs (Decidable True)

theorem InTurn.move (h : InTurn name v.writers) {label : Label} {writes : Option JobWrite}
    {w : CacheView} (hmove : CacheMove label writes v w) : InTurn name w.writers := by
  cases hmove with
  | stay | clock | unregister => exact h
  | launch job trigger hfree => exact h.launch hfree
  | work id writer active outcome dbOk pc effect hlabel hget hstep => exact h.work hget hstep

theorem Cached.move {s t : State} (h : Cached name base s.cache)
    (hturn : InTurn name s.cache.writers) {label : Label} (hpersists : Persists name s label)
    (hkept : KeepsJob name s label) (hmove : CacheMove label (s.writes label) s.cache t.cache) :
    Cached name base t.cache := by
  generalize hw : t.cache = w at hmove ⊢
  cases hmove with
  | stay => exact h
  | clock time hlabel => exact ⟨h.pending, h.settled⟩
  | launch job trigger hfree => exact h.launch
  | unregister other hwrites =>
      have hne : name ≠ other := fun heq => hkept (heq ▸ hwrites)
      refine ⟨h.pending, fun hall => ?_⟩
      simpa only [Function.update_of_ne hne] using h.settled hall
  | work id writer active outcome dbOk pc effect hlabel hget hstep =>
      by_cases hname : writer.job.name = name
      · subst hlabel
        obtain ⟨task, htask, rfl⟩ : ∃ task, s.tasks[id]? = some task ∧ task.writer = writer := by
          simpa [State.cache] using hget
        rw [hpersists task htask hname]
        exact h.work_of_eq hturn hget hname hstep
      · exact h.work_of_ne hget hname hstep

end Invariant

section Runs

variable {loc : LocalTime} {config : List Job} {table : JobTable}
  {lastRun : Bytes → Option RunRecord} {now : ℕ} {name : Bytes}

theorem construct_lastRuns
    (hname : name ∈ (initial loc config table lastRun now).jobs.map Job.name) :
    (initial loc config table lastRun now).lastRuns name = lastRun name :=
  if_pos hname

theorem inTurn_initial : InTurn name (initial loc config table lastRun now).cache.writers :=
  ⟨fun w hw => (nomatch hw), fun i j a b ha => by simp [initial, State.cache] at ha⟩

theorem cached_initial (hname : name ∈ (initial loc config table lastRun now).jobs.map Job.name) :
    Cached name (lastRun name) (initial loc config table lastRun now).cache := by
  refine ⟨fun w hw => (nomatch hw), fun _ => ?_⟩
  exact construct_lastRuns hname

/-- In every run that stores the runs of the job and does not remove it,
`last_runs_` follows the database. -/
theorem cached_of_run {ok : State → Label → Prop}
    (hok : ∀ s label, ok s label → Persists name s label ∧ KeepsJob name s label)
    {labels : List Label} {t : State}
    (h : Run (step loc) ok (initial loc config table lastRun now) labels t)
    (hlive : t.terminated = false)
    (hname : name ∈ (initial loc config table lastRun now).jobs.map Job.name) :
    InTurn name t.cache.writers ∧ Cached name (lastRun name) t.cache := by
  have hall := h.invariant (I := fun s => s.terminated = false → Owned s.view ∧
    InTurn name s.cache.writers ∧ Cached name (lastRun name) s.cache) ?_ ?_
  · exact (hall hlive).2
  · intro s label t hinv hlabel hstep ht
    obtain ⟨hs, hmove⟩ := step_moves hstep
    obtain ⟨howned, hturn, hcached⟩ := hinv hs
    have hcache := step_cache hstep howned ht
    obtain ⟨hpersists, hkept⟩ := hok s label hlabel
    exact ⟨howned.move hmove ht, hturn.move hcache, hcached.move hturn hpersists hkept hcache⟩
  · intro _
    exact ⟨owned_initial, inTurn_initial, cached_initial hname⟩

end Runs

end Scheduler

end AgentPulse
