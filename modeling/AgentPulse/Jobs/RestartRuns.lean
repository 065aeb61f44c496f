import AgentPulse.Jobs.RunCache
import AgentPulse.Jobs.TaskSafety

/-!
# The last runs before and after a restart

The clients of a restarted daemon see the last run of each job that the database
gives back. It is the one they saw before exactly if no run of the job in the
database is later than the run inserted last. A wall clock that is not set back
is enough, because the workers of one job run one after the other.
-/

namespace AgentPulse.Scheduler

open Transition

/-- The inserted runs are records of attempts. -/
def AllRecords (v : CacheView) : Prop :=
  ∀ run ∈ v.runs, ∃ job trigger res, run = Worker.record job trigger res

theorem AllRecords.move {label : Label} {writes : Option JobWrite} {v w : CacheView}
    (h : AllRecords v) (hmove : CacheMove label writes v w) : AllRecords w := by
  cases hmove with
  | stay | clock | launch | unregister => exact h
  | work id writer active outcome dbOk pc effect hlabel hget hstep =>
      intro run hrun
      cases effect with
      | insertRun record =>
          obtain ⟨n, res, -, -, rfl⟩ := Worker.step_insertRun hstep
          simp only [runsAfter] at hrun
          split_ifs at hrun
          · obtain hold | hnew := List.mem_append.mp hrun
            · exact h run hold
            · exact ⟨writer.job, writer.trigger, res, List.mem_singleton.mp hnew⟩
          · exact h run hrun
      | _ => exact h run hrun

theorem noNul_record (job : Job) (trigger : Trigger) (res : RunResult) :
    NoNul [(Worker.record job trigger res).status, (Worker.record job trigger res).trigger] := by
  have hstatus : (0 : UInt8) ∉ res.status.toText := by
    cases res.status <;> decide
  have htrigger : (0 : UInt8) ∉ trigger.toText := by
    cases trigger <;> decide
  intro s hs
  obtain rfl | rfl : s = res.status.toText ∨ s = trigger.toText := by
    simpa [Worker.record] using hs
  · exact hstatus
  · exact htrigger

/-- The clock is not set back. -/
def Forward (s : State) : Label → Prop
  | .clock time => s.clock ≤ time
  | _ => True

instance (s : State) : DecidablePred (Forward s)
  | .clock _ => inferInstanceAs (Decidable (_ ≤ _))
  | .worker _ _ _ | .stop | .call _ _ | .loop | .starter | .start | .notifyWake | .begin _ _ =>
      inferInstanceAs (Decidable True)

/-- The runs of a job since `now` stand in the order of their starts, and a
worker of the job has started after all of them. -/
structure InOrder (name : Bytes) (now : ℕ) (v : CacheView) : Prop where
  since : now ≤ v.clock
  begun : ∀ w ∈ v.writers, w.job.name = name → ∀ startedAt, w.pc.startedAt = some startedAt →
    (now : Int) ≤ startedAt ∧ startedAt ≤ v.clock ∧
      ∀ run ∈ recorded name v.runs, run.startedAt ≤ startedAt
  past : ∀ run ∈ recorded name v.runs, (now : Int) ≤ run.startedAt ∧ run.startedAt ≤ v.clock
  ordered : (recorded name v.runs).Pairwise fun a b => a.startedAt ≤ b.startedAt

section InOrder

variable {name : Bytes} {now : ℕ} {v : CacheView}

theorem InOrder.clock (h : InOrder name now v) {time : ℕ} (htime : v.clock ≤ time) :
    InOrder name now { v with clock := time } := by
  have hle : ∀ a : Int, a ≤ v.clock → a ≤ time := fun a ha => by omega
  refine ⟨h.since.trans htime, ?_, ?_, h.ordered⟩
  · intro w hw hname startedAt hstart
    obtain ⟨hsince, hpast, hruns⟩ := h.begun w hw hname startedAt hstart
    exact ⟨hsince, hle _ hpast, hruns⟩
  · intro run hrun
    obtain ⟨hsince, hpast⟩ := h.past run hrun
    exact ⟨hsince, hle _ hpast⟩

theorem InOrder.launch (h : InOrder name now v) {job : Job} {trigger : Trigger} :
    InOrder name now { v with
      writers := v.writers ++ [⟨job, trigger, Worker.start, false⟩] } := by
  refine ⟨h.since, ?_, h.past, h.ordered⟩
  intro w hw hname startedAt hstart
  obtain hold | hnew := List.mem_append.mp hw
  · exact h.begun w hold hname startedAt hstart
  · rw [List.mem_singleton.mp hnew] at hstart
    cases hstart

/-- A worker that inserts nothing for the job. -/
theorem InOrder.work_of_runs (h : InOrder name now v) {id : Nat} {w : Writer} {active dbOk : Bool}
    {outcome : Outcome} {pc : Worker.Pc} {effect : Worker.Effect}
    {lastRuns : Bytes → Option RunRecord} (hget : v.writers[id]? = some w)
    (hstep : Worker.step w.job w.trigger active v.clock outcome w.pc = some (pc, effect))
    (hruns : recorded name (runsAfter effect dbOk v.runs) = recorded name v.runs) :
    InOrder name now { v with
      writers := v.writers.set id { w with pc := pc, done := w.done || effect = .done }
      lastRuns := lastRuns
      runs := runsAfter effect dbOk v.runs } := by
  refine ⟨h.since, ?_, ?_, ?_⟩
  · intro x hx hname startedAt hstart
    simp only [hruns]
    obtain hold | rfl := List.mem_or_eq_of_mem_set hx
    · exact h.begun x hold hname startedAt hstart
    · obtain rfl | hbefore := Worker.step_startedAt hstep hstart
      · refine ⟨by exact_mod_cast h.since, le_rfl, fun run hrun => (h.past run hrun).2⟩
      · exact h.begun w (List.mem_of_getElem? hget) hname startedAt hbefore
  · simpa only [hruns] using h.past
  · simpa only [hruns] using h.ordered

/-- The run of the job that a worker inserts is the latest one. -/
theorem InOrder.work_insert (h : InOrder name now v) (hturn : InTurn name v.writers) {id : Nat}
    {w : Writer} {active : Bool} {outcome : Outcome} {n : Int} {res : RunResult}
    (lastRuns : Bytes → Option RunRecord) (hget : v.writers[id]? = some w)
    (hname : w.job.name = name) (hpc : w.pc = .insertRun n res)
    (hstep : Worker.step w.job w.trigger active v.clock outcome w.pc =
      some (.setLastRun n res, .insertRun (Worker.record w.job w.trigger res))) :
    InOrder name now { v with
      writers := v.writers.set id { w with pc := .setLastRun n res, done := w.done }
      lastRuns := lastRuns
      runs := v.runs ++ [Worker.record w.job w.trigger res] } := by
  have hrecord : (Worker.record w.job w.trigger res).jobName = name := hname
  obtain ⟨hsince, hpast, hlatest⟩ := h.begun w (List.mem_of_getElem? hget) hname res.startedAt
    (by rw [hpc]; rfl)
  have hset : ∀ x ∈ v.writers.set id { w with pc := .setLastRun n res, done := w.done },
      x.job.name = name → ∀ startedAt, x.pc.startedAt = some startedAt →
        startedAt = res.startedAt := by
    intro x hx hxname startedAt hstart
    have halive := hturn.alive hget hstep
    have hx' : x ∈ v.writers.set id { w with
        pc := .setLastRun n res
        done := w.done || (Worker.Effect.none = .done) } := by
      simpa using hx
    obtain rfl | hreturned := hturn.other_returned hget halive hname hx' hxname
    · simpa [Worker.Pc.startedAt] using hstart.symm
    · rw [hreturned] at hstart
      cases hstart
  refine ⟨h.since, ?_, ?_, ?_⟩
  · intro x hx hxname startedAt hstart
    obtain rfl := hset x hx hxname startedAt hstart
    refine ⟨hsince, hpast, fun run hrun => ?_⟩
    rw [recorded_snoc, if_pos hrecord] at hrun
    obtain hold | hnew := List.mem_append.mp hrun
    · exact hlatest run hold
    · rw [List.mem_singleton.mp hnew]
      exact le_rfl
  · intro run hrun
    rw [recorded_snoc, if_pos hrecord] at hrun
    obtain hold | hnew := List.mem_append.mp hrun
    · exact h.past run hold
    · rw [List.mem_singleton.mp hnew]
      exact ⟨hsince, hpast⟩
  · rw [recorded_snoc, if_pos hrecord, List.pairwise_append]
    refine ⟨h.ordered, List.pairwise_singleton _ _, ?_⟩
    intro a ha b hb
    rw [List.mem_singleton.mp hb]
    exact hlatest a ha

theorem InOrder.move {s t : State} (h : InOrder name now s.cache)
    (hturn : InTurn name s.cache.writers) {label : Label} (hforward : Forward s label)
    (hmove : CacheMove label (s.writes label) s.cache t.cache) : InOrder name now t.cache := by
  generalize hw : t.cache = w at hmove ⊢
  cases hmove with
  | stay => exact h
  | unregister other hwrites => exact ⟨h.since, h.begun, h.past, h.ordered⟩
  | clock time hlabel =>
      subst hlabel
      exact h.clock hforward
  | launch job trigger hfree => exact h.launch
  | work id writer active outcome dbOk pc effect hlabel hget hstep =>
      by_cases hinsert : ∃ record, effect = .insertRun record ∧ dbOk = true ∧
          writer.job.name = name
      · obtain ⟨record, rfl, rfl, hname⟩ := hinsert
        obtain ⟨n, res, hpc, rfl, rfl⟩ := Worker.step_insertRun hstep
        simpa [runsAfter, lastRunsAfter] using
          h.work_insert hturn s.cache.lastRuns hget hname hpc hstep
      · refine h.work_of_runs hget hstep ?_
        cases effect with
        | insertRun record =>
            obtain ⟨n, res, -, -, rfl⟩ := Worker.step_insertRun hstep
            rw [runsAfter]
            split_ifs with hok
            · exact recorded_snoc_of_ne fun hname => hinsert ⟨_, rfl, hok, hname⟩
            · rfl
        | _ => rfl

end InOrder

/-- A daemon that starts on the database the runs of `t` were inserted into. -/
def restarted {V : Type} (loc : LocalTime) (config : List Job) (table : JobTable) (db : Database V)
    (t : State) (now : ℕ) : State :=
  initial loc config table (db.insertRuns t.runs).lastRun now

section ConcreteRuns

/-- One job without a schedule. -/
def onDemand : List Job := [{ name := text "a", command := text "true" }]

/-- A database without any row. -/
def noRows : Database Unit := Database.empty

/-- The job is asked for and run at time 100, and again after the clock is set. -/
def runTwice (again : ℕ) : List Label :=
  .clock 100 :: firstTick ++ requestRun ++ List.replicate 7 .loop ++ workerSucceeds 0 ++
    .clock again :: requestRun ++ List.replicate 14 .loop ++ workerSucceeds 1

/-- No worker stands between its two writes, and the job has a status before and
after the restart. -/
def Comparable (s : State) : Prop :=
  s.terminated = false ∧ (∀ task ∈ s.tasks, task.pc.recording = false) ∧
    (∀ run ∈ s.runs, run.jobName = text "a") ∧ (∃ live ∈ s.statuses, live.name = text "a") ∧
    ∃ shown ∈ (restarted midnight onDemand JobTable.empty noRows s 300).published,
      shown.name = text "a"

instance (s : State) : Decidable (Comparable s) :=
  inferInstanceAs (Decidable (_ ∧ _ ∧ _ ∧ _ ∧ _))

/-- A stored run of the job is later than the last one. -/
def StartsEarlier (s : State) : Prop :=
  ∃ last ∈ (s.lastRuns (text "a")).toList,
    ∃ earlier ∈ (noRows.insertRuns s.runs).recentRuns (text "a") (-1),
      last.startedAt < earlier.startedAt

instance (s : State) : Decidable (StartsEarlier s) :=
  inferInstanceAs (Decidable (∃ last ∈ _, ∃ earlier ∈ _, _))

end ConcreteRuns

section Runs

variable {loc loc' : LocalTime} {config config' : List Job} {table table' : JobTable}
  {now now' : ℕ} {name : Bytes} {V : Type} {db : Database V}

theorem lastRun_of_mem_statuses {s : State} {status : JobStatus} (h : status ∈ s.statuses) :
    status.name ∈ s.jobs.map Job.name ∧
      status.lastRun = (s.lastRuns status.name).map RunRecord.summary := by
  obtain ⟨job, hjob, rfl⟩ := List.mem_map.mp h
  exact ⟨List.mem_map_of_mem hjob, rfl⟩

theorem lastRun_restarted {t : State} {shown : JobStatus}
    (h : shown ∈ (restarted loc config table db t now).published) :
    shown.lastRun = ((db.insertRuns t.runs).lastRun shown.name).map RunRecord.summary := by
  obtain ⟨hname, hlast⟩ := lastRun_of_mem_statuses
    (s := restarted loc config table db t now) h
  rw [hlast, restarted, construct_lastRuns hname]

/-- Without cut names the runs stored under the name are those recorded for it. -/
theorem storedUnder_eq_recorded {runs : List RunRecord}
    (h : ∀ run ∈ runs, cString run.jobName = cString name → run.jobName = name) :
    Database.storedUnder name runs = recorded name runs := by
  refine List.filter_congr fun run hrun => ?_
  refine decide_eq_decide.mpr ⟨h run hrun, ?_⟩
  rintro rfl
  rfl

theorem allRecords_of_run {ok : State → Label → Prop} {lastRun : Bytes → Option RunRecord}
    {labels : List Label} {t : State}
    (h : Run (step loc) ok (initial loc config table lastRun now) labels t)
    (hlive : t.terminated = false) : AllRecords t.cache := by
  have hall := h.invariant (I := fun s => s.terminated = false → Owned s.view ∧
    AllRecords s.cache) ?_ ?_
  · exact (hall hlive).2
  · intro s label t hinv _ hstep ht
    obtain ⟨hs, hmove⟩ := step_moves hstep
    obtain ⟨howned, hrecords⟩ := hinv hs
    exact ⟨howned.move hmove ht, hrecords.move (step_cache hstep howned ht)⟩
  · intro _
    exact ⟨owned_initial, fun run hrun => (nomatch hrun)⟩

theorem inOrder_of_run {ok : State → Label → Prop} (hok : ∀ s label, ok s label → Forward s label)
    {lastRun : Bytes → Option RunRecord} {labels : List Label} {t : State}
    (h : Run (step loc) ok (initial loc config table lastRun now) labels t)
    (hlive : t.terminated = false) : InOrder name now t.cache := by
  have hall := h.invariant (I := fun s => s.terminated = false → Owned s.view ∧
    InTurn name s.cache.writers ∧ InOrder name now s.cache) ?_ ?_
  · exact (hall hlive).2.2
  · intro s label t hinv hlabel hstep ht
    obtain ⟨hs, hmove⟩ := step_moves hstep
    obtain ⟨howned, hturn, horder⟩ := hinv hs
    have hcache := step_cache hstep howned ht
    exact ⟨howned.move hmove ht, hturn.move hcache, horder.move hturn (hok s label hlabel) hcache⟩
  · intro _
    refine ⟨owned_initial, inTurn_initial, le_rfl, ?_, ?_, List.Pairwise.nil⟩
    · exact fun w hw => (nomatch hw)
    · exact fun run hrun => (nomatch hrun)

/-- The last run a restarted daemon shows for a job against the one it knew before. -/
theorem restarted_lastRun_iff {ok : State → Label → Prop}
    (hok : ∀ s label, ok s label → Persists name s label ∧ KeepsJob name s label)
    {labels : List Label} {t : State}
    (h : Run (step loc) ok (initial loc config table db.lastRun now) labels t)
    (hlive : t.terminated = false)
    (hlisted : name ∈ (initial loc config table db.lastRun now).jobs.map Job.name)
    (hidle : ∀ task ∈ t.tasks, task.job.name = name → task.pc.recording = false)
    (hapart : ∀ run ∈ t.runs, cString run.jobName = cString name → run.jobName = name) :
    t.lastRuns name = (recorded name t.runs).getLast?.or (db.lastRun name) ∧
      (((db.insertRuns t.runs).lastRun name).map RunRecord.summary =
          (t.lastRuns name).map RunRecord.summary ↔
        ∀ last ∈ t.lastRuns name, ∀ earlier ∈ (db.insertRuns t.runs).recentRuns name (-1),
          earlier.startedAt ≤ last.startedAt) := by
  obtain ⟨-, hcached⟩ := cached_of_run hok h hlive hlisted
  have hlast : t.lastRuns name = (recorded name t.runs).getLast?.or (db.lastRun name) := by
    refine hcached.settled fun w hw hname => ?_
    obtain ⟨task, htask, rfl⟩ := List.mem_map.mp hw
    exact hidle task htask hname
  have hnul : ∀ run ∈ t.runs, NoNul [run.status, run.trigger] := by
    intro run hrun
    obtain ⟨job, trigger, res, rfl⟩ := allRecords_of_run h hlive run hrun
    exact noNul_record job trigger res
  have hiff := Database.lastRun_insertRuns_iff db name hnul
  rw [storedUnder_eq_recorded hapart, ← hlast] at hiff
  exact ⟨hlast, hiff⟩

/-- After a restart the clients see the same last run of a job exactly if no run
of the job in the database is later than the one inserted last. -/
theorem restart_shows_iff {labels : List Label} {t : State}
    (h : Run (step loc) (fun s label => Persists name s label ∧ KeepsJob name s label)
      (initial loc config table db.lastRun now) labels t)
    (hlive : t.terminated = false)
    (hlisted : name ∈ (initial loc config table db.lastRun now).jobs.map Job.name)
    (hidle : ∀ task ∈ t.tasks, task.job.name = name → task.pc.recording = false)
    (hapart : ∀ run ∈ t.runs, cString run.jobName = cString name → run.jobName = name)
    {live shown : JobStatus} (hbefore : live ∈ t.statuses) (hname : live.name = name)
    (hafter : shown ∈ (restarted loc' config' table' db t now').published)
    (hname' : shown.name = name) :
    shown.lastRun = live.lastRun ↔
      ∀ last ∈ t.lastRuns name, ∀ earlier ∈ (db.insertRuns t.runs).recentRuns name (-1),
        earlier.startedAt ≤ last.startedAt := by
  rw [lastRun_restarted hafter, (lastRun_of_mem_statuses hbefore).2, hname, hname']
  exact (restarted_lastRun_iff (fun _ _ hok => hok) h hlive hlisted hidle hapart).2

/-- With the clock set back between the two runs the restart shows the first one. -/
theorem restart_shows_iff_set_back :
    ∃ t, Run (step midnight)
        (fun s label => Persists (text "a") s label ∧ KeepsJob (text "a") s label)
        (initial midnight onDemand JobTable.empty noRows.lastRun 0) (runTwice 50) t ∧
      ∃ live ∈ t.statuses,
        ∃ shown ∈ (restarted midnight onDemand JobTable.empty noRows t 300).published,
          shown.lastRun ≠ live.lastRun := by
  obtain ⟨t, hrun, ht⟩ := Run.of_exec_any (step midnight)
    (fun s label => Persists (text "a") s label ∧ KeepsJob (text "a") s label)
    (initial midnight onDemand JobTable.empty noRows.lastRun 0) (runTwice 50)
    (fun s => decide (Comparable s ∧ StartsEarlier s))
    (by decide)
  obtain ⟨⟨hlive, hidle, hnamed, ⟨live, hbefore, hname⟩, shown, hafter, hname'⟩,
    last, hlast, earlier, hearlier, hlater⟩ := of_decide_eq_true ht
  refine ⟨t, hrun, live, hbefore, shown, hafter, fun hsame => ?_⟩
  have hall := (restart_shows_iff hrun hlive (by decide)
    (fun task htask _ => hidle task htask) (fun run hmem _ => hnamed run hmem) hbefore hname hafter
    hname').mp hsame
  exact absurd hlater (hall last (Option.mem_toList.mp hlast) earlier hearlier).not_gt

/-- If the clock is not set back, and stands after the stored runs at the start,
the records of a job are inserted in the order of their starts, and a restart
shows its last run as it was. -/
theorem restart_keeps_last_run {labels : List Label} {t : State}
    (h : Run (step loc)
      (fun s label => (Persists name s label ∧ KeepsJob name s label) ∧ Forward s label)
      (initial loc config table db.lastRun now) labels t)
    (hlive : t.terminated = false)
    (hlisted : name ∈ (initial loc config table db.lastRun now).jobs.map Job.name)
    (hidle : ∀ task ∈ t.tasks, task.job.name = name → task.pc.recording = false)
    (hapart : ∀ run ∈ t.runs, cString run.jobName = cString name → run.jobName = name)
    (hpast : ∀ run ∈ db.recentRuns name (-1), run.startedAt ≤ now)
    {live shown : JobStatus} (hbefore : live ∈ t.statuses) (hname : live.name = name)
    (hafter : shown ∈ (restarted loc' config' table' db t now').published)
    (hname' : shown.name = name) :
    (recorded name t.runs).Pairwise (fun first second => first.startedAt ≤ second.startedAt) ∧
      shown.lastRun = live.lastRun := by
  obtain ⟨hlast, hiff⟩ := restarted_lastRun_iff (fun _ _ hok => hok.1) h hlive hlisted hidle hapart
  have horder : InOrder name now t.cache := inOrder_of_run (fun _ _ hok => hok.2) h hlive
  rw [lastRun_restarted hafter, (lastRun_of_mem_statuses hbefore).2, hname, hname']
  refine ⟨horder.ordered, hiff.mpr fun last hmem earlier hearlier => ?_⟩
  rw [hlast] at hmem
  obtain hnil | ⟨init, final, hfinal⟩ := (recorded name t.runs).eq_nil_or_concat
  · rw [hnil] at hmem
    have hstored : Database.storedUnder name t.runs = [] :=
      (storedUnder_eq_recorded hapart).trans hnil
    exact Database.le_lastRun ((Database.lastRun_insertRuns_of_nil hstored).trans hmem)
      earlier hearlier
  · rw [List.concat_eq_append] at hfinal
    rw [hfinal, List.getLast?_concat] at hmem
    obtain rfl : final = last := Option.some.inj hmem
    obtain hold | ⟨run, hrun, hstart⟩ := Database.mem_recentRuns_insertRuns hearlier
    · have hsince := (horder.past final (by simp [State.cache, hfinal])).1
      exact (hpast earlier hold).trans hsince
    · rw [storedUnder_eq_recorded hapart, hfinal] at hrun
      have hordered := horder.ordered
      rw [State.cache, hfinal, List.pairwise_append] at hordered
      rw [hstart]
      obtain hinit | hself := List.mem_append.mp hrun
      · exact hordered.2.2 run hinit final List.mem_cons_self
      · rw [List.mem_singleton.mp hself]

/-- With the clock set forward between them the restart shows the second run. -/
theorem restart_keeps_last_run_forward :
    ∃ t, Run (step midnight)
        (fun s label =>
          (Persists (text "a") s label ∧ KeepsJob (text "a") s label) ∧ Forward s label)
        (initial midnight onDemand JobTable.empty noRows.lastRun 0) (runTwice 150) t ∧
      (recorded (text "a") t.runs).map RunRecord.startedAt = [100, 150] ∧
      (recorded (text "a") t.runs).Pairwise
        (fun first second => first.startedAt ≤ second.startedAt) ∧
      ∃ live ∈ t.statuses, live.lastRun.map LastRun.startedAt = some 150 ∧
        ∃ shown ∈ (restarted midnight onDemand JobTable.empty noRows t 300).published,
          shown.lastRun = live.lastRun := by
  obtain ⟨t, hrun, ht⟩ := Run.of_exec_any (step midnight)
    (fun s label => (Persists (text "a") s label ∧ KeepsJob (text "a") s label) ∧ Forward s label)
    (initial midnight onDemand JobTable.empty noRows.lastRun 0) (runTwice 150)
    (fun s => decide (Comparable s ∧
      (recorded (text "a") s.runs).map RunRecord.startedAt = [100, 150] ∧
      ∀ live ∈ s.statuses, live.lastRun.map LastRun.startedAt = some 150))
    (by decide)
  obtain ⟨⟨hlive, hidle, hnamed, ⟨live, hbefore, hname⟩, shown, hafter, hname'⟩, hstarts,
    hstart⟩ := of_decide_eq_true ht
  obtain ⟨hordered, hsame⟩ := restart_keeps_last_run hrun hlive (by decide)
    (fun task htask _ => hidle task htask) (fun run hmem _ => hnamed run hmem) (by decide)
    hbefore hname hafter hname'
  exact ⟨t, hrun, hstarts, hordered, live, hbefore, hstart live hbefore, shown, hafter, hsame⟩

end Runs

end AgentPulse.Scheduler
