import AgentPulse.Jobs.MissedScan

/-!
# Next times and clock readings

An entry of `next_run_` is searched from a clock reading: that of the
registration of its job, or that of a tick in which the job was due. So it is
later than every reading at which the schedule has been looked at, also if the
clock has been set back since. If the names of the jobs are unique and no search
misses an occurrence, it is not later than any occurrence after these readings.

## Implementation notes

The readings are a history variable beside the state. It is made of the clock,
and no step of the scheduler depends on it. Two jobs of one name share an entry,
and the earlier one of their registrations counts.
-/

namespace AgentPulse.Scheduler

open Transition

/-- The readings after the last critical section of `add_job`. -/
def registered (s : State) (stored : Job) (seen : Bytes → Int) : Bytes → Int :=
  Function.update seen stored.name
    (if findJob s.jobs stored.name = none then s.clock else min (seen stored.name) s.clock)

/-- For each name the latest clock reading at which the schedule of the job has
been looked at, its registration included. -/
def reads (s : State) (label : Label) (seen : Bytes → Int) : Bytes → Int :=
  match label with
  | .call thread _ =>
      match s.calls thread with
      | .addUpdate stored => registered s stored seen
      | _ => seen
  | .loop =>
      match s.loop with
      | .due wall (job :: _) _ =>
          if job.schedule.isSome then Function.update seen job.name (max (seen job.name) wall)
          else seen
      | _ => seen
  | _ => seen

/-- A state of the scheduler, with the clock readings up to it. -/
abbrev Observed : Type := State × (Bytes → Int)

/-- One step of the scheduler, with the clock readings. -/
def observed (loc : LocalTime) : Observed → Label → Option Observed := observe (step loc) reads

/-- A scheduler as its constructor leaves it: the constructor has read the clock
for every job. -/
def observedInitial (loc : LocalTime) (config : List Job) (table : JobTable)
    (lastRun : Bytes → Option RunRecord) (now : ℕ) : Observed :=
  (initial loc config table lastRun now, fun _ => now)

/-- What a step does to the jobs, to `next_run_` and to the readings. -/
inductive PlanStep (loc : LocalTime) (s : State) (seen : Bytes → Int) :
    State → (Bytes → Int) → Prop
  | stay {t : State} (hjobs : t.jobs = s.jobs) (hnext : t.nextRun = s.nextRun) :
      PlanStep loc s seen t seen
  | look (wall : Int) (job : Job) (rest : List Job) (toLaunch : List LaunchEntry)
      (c : CronSchedule) (hloop : s.loop = .due wall (job :: rest) toLaunch)
      (hschedule : job.schedule = some c) :
      PlanStep loc s seen (s.dueJob loc wall job rest toLaunch)
        (Function.update seen job.name (max (seen job.name) wall))
  | register {t : State} (stored : Job) (hjobs : t.jobs = s.jobs ++ [stored])
      (hnext : t.nextRun = JobSet.setNextRun loc s.clock stored s.nextRun) :
      PlanStep loc s seen t (registered s stored seen)
  | unregister {t : State} (name : Bytes)
      (hjobs : t.jobs = s.jobs.filter fun job => job.name ≠ name)
      (hnext : t.nextRun = Function.update s.nextRun name none) : PlanStep loc s seen t seen

section Simulation

variable {loc : LocalTime} {s t : State} {seen : Bytes → Int} {label : Label}

theorem PlanStep.of_eq {seen' : Bytes → Int} (hjobs : t.jobs = s.jobs)
    (hnext : t.nextRun = s.nextRun) (hseen : seen' = seen) : PlanStep loc s seen t seen' :=
  hseen ▸ .stay hjobs hnext

theorem LoopStep.plans (h : LoopStep loc s t) (hstep : step loc s .loop = some t) :
    PlanStep loc s seen t (reads s .loop seen) := by
  cases h with
  | unplanned wall job rest toLaunch c hloop hschedule
  | later wall job rest toLaunch c next hloop hschedule
  | overlap wall job rest toLaunch c next hloop hschedule
  | fire wall job rest toLaunch c next hloop hschedule =>
      convert PlanStep.look wall job rest toLaunch c hloop hschedule using 1
      · exact dueJob_of_step hloop hstep
      · simp [reads, hloop, hschedule]
  | scan wall pc next hloop hscan =>
      obtain ⟨_, _, _, _, rfl⟩ := scanStep_frame hscan
      exact .of_eq rfl rfl (by simp [reads, hloop])
  | unscheduled wall job rest toLaunch hloop hschedule =>
      exact .of_eq rfl rfl (by simp [reads, hloop, hschedule])
  | exit hloop | reap hloop | joined hloop | join _ _ hloop | gap hloop | wake hloop | awake hloop
  | lock _ hloop | drained _ _ _ hloop | drop _ _ _ _ _ hloop | defer _ _ _ _ _ hloop
  | place _ _ _ _ _ _ hloop | decided _ _ hloop | launched hloop | launch _ _ hloop
  | startThread _ _ hloop | publish hloop | setJobs _ hloop =>
      exact .of_eq rfl rfl (by simp [reads, hloop])

/-- Each step does one of these to the jobs and to `next_run_`. -/
theorem step_plans (h : step loc s label = some t) :
    PlanStep loc s seen t (reads s label seen) := by
  cases step_cases h with
  | clock | active | start | notifyWake => exact .stay rfl rfl
  | stop hstep =>
      obtain ⟨_, _, _, _, _, rfl⟩ := hstep.frame
      exact .stay rfl rfl
  | loop hstep => exact hstep.plans h
  | starter next hscan =>
      obtain ⟨_, _, _, _, rfl⟩ := scanStep_frame hscan
      exact .stay rfl rfl
  | begin thread call hstep =>
      obtain ⟨_, _, rfl⟩ := hstep.frame
      exact .stay rfl rfl
  | call thread dbError hstep =>
      cases hstep with
      | add stored hcall hfree =>
          convert PlanStep.register stored ?_ ?_ using 1
          · simp [reads, hcall]
          · rfl
          · rfl
      | remove name hcall hfree =>
          convert PlanStep.unregister name ?_ ?_ using 1
          · simp [reads, hcall]
          · rfl
          · rfl
      | enqueue _ hcall | notPersisted _ _ hcall | persist _ hcall | notDeleted _ _ hcall
      | delete _ hcall | publish _ hcall | setJobs _ _ hcall =>
          exact .of_eq rfl rfl (by simp [reads, hcall])
  | worker id outcome dbOk hstep =>
      obtain ⟨_, _, _, _, _, _, _⟩ := hstep
      exact .stay rfl rfl

/-- The due scan leaves the jobs alone. -/
@[simp] theorem dueJob_jobs {wall : Int} {job : Job} {rest : List Job}
    {toLaunch : List LaunchEntry} : (s.dueJob loc wall job rest toLaunch).jobs = s.jobs := by
  unfold State.dueJob
  split
  · rfl
  · split
    · rfl
    · split_ifs
      · rfl
      · rfl
      · rfl

/-- The due scan leaves the entries of other names alone. -/
theorem dueJob_nextRun_of_ne {wall : Int} {job : Job} {rest : List Job}
    {toLaunch : List LaunchEntry} {name : Bytes} (hne : name ≠ job.name) :
    (s.dueJob loc wall job rest toLaunch).nextRun name = s.nextRun name := by
  unfold State.dueJob
  split
  · rfl
  · split
    · rfl
    · split_ifs
      · rfl
      · exact Function.update_of_ne hne _ _
      · exact Function.update_of_ne hne _ _

/-- The jobs the due scan has before it are in `jobs_`. -/
theorem step_undecided (h : step loc s label = some t)
    (hundecided : ∀ job ∈ s.loop.undecided, job ∈ s.jobs) :
    ∀ job ∈ t.loop.undecided, job ∈ t.jobs :=
  (step_firing h).undecided_mem hundecided

end Simulation

/-- The entries of `next_run_` belong to jobs and are later than the readings. -/
structure Ahead (s : State) (seen : Bytes → Int) : Prop where
  ahead : ∀ name, ∀ next ∈ s.nextRun name, seen name < next
  known : ∀ name, name ∉ s.jobs.map Job.name → s.nextRun name = none
  undecided : ∀ job ∈ s.loop.undecided, job ∈ s.jobs

/-- No entry of `next_run_` is later than an occurrence after the readings. -/
def Planned (loc : LocalTime) (s : State) (seen : Bytes → Int) : Prop :=
  ∀ job ∈ s.jobs, ∀ c ∈ job.schedule, ∀ t, seen job.name < t → c.Occurs loc t →
    ∃ next ∈ s.nextRun job.name, next ≤ t

/-- A search from `a` finds an occurrence after `a` of every schedule that has one. -/
def HorizonReaches (loc : LocalTime) (a : Int) : Prop :=
  ∀ (c : CronSchedule) (t : Int), a < t → c.Occurs loc t → c.nextAfter loc a ≠ none

/-- The names of the jobs are unique, and the searches of the next step miss no
occurrence. -/
structure Searchable (loc : LocalTime) (s : State) : Prop where
  names : (s.jobs.map Job.name).Nodup
  clock : HorizonReaches loc s.clock
  wall : ∀ wall ∈ s.loop.tick, HorizonReaches loc wall

section Steps

variable {loc : LocalTime} {s t : State} {seen seen' : Bytes → Int} {label : Label}

theorem Ahead.look (h : Ahead s seen) {wall : Int} {job : Job} {rest : List Job}
    {toLaunch : List LaunchEntry} {c : CronSchedule} (hschedule : job.schedule = some c) :
    ∀ name, ∀ next ∈ (s.dueJob loc wall job rest toLaunch).nextRun name,
      Function.update seen job.name (max (seen job.name) wall) name < next := by
  intro name next hnext
  by_cases hname : name = job.name
  · subst hname
    rw [Function.update_self, max_lt_iff]
    by_cases hdue : ∃ old ∈ s.nextRun job.name, old ≤ wall
    · obtain ⟨old, hold, hle⟩ := hdue
      have hlt := h.ahead job.name old hold
      rw [dueJob_due hschedule hold hle] at hnext
      have hgt := CronSchedule.nextAfter_gt (by simpa using hnext)
      exact ⟨by omega, hgt⟩
    · have hlater : ∀ next ∈ s.nextRun job.name, wall < next := by simpa using hdue
      rw [dueJob_later hlater] at hnext
      exact ⟨h.ahead job.name next hnext, hlater next hnext⟩
  · rw [dueJob_nextRun_of_ne hname] at hnext
    rw [Function.update_of_ne hname]
    exact h.ahead name next hnext

theorem Ahead.register (h : Ahead s seen) {stored : Job} :
    ∀ name, ∀ next ∈ JobSet.setNextRun loc s.clock stored s.nextRun name,
      registered s stored seen name < next := by
  intro name next hnext
  unfold registered
  by_cases hname : name = stored.name
  · subst hname
    rw [Function.update_self]
    split_ifs with hfree
    · obtain hgt | hold := setNextRun_mem hnext
      · exact hgt
      · rw [h.known _ (findJob_eq_none_iff.mp hfree)] at hold
        cases hold
    · rw [min_lt_iff]
      obtain hgt | hold := setNextRun_mem hnext
      · exact Or.inr hgt
      · exact Or.inl (h.ahead _ next hold)
  · rw [Function.update_of_ne hname]
    rw [JobSet.setNextRun_of_ne hname] at hnext
    exact h.ahead name next hnext

theorem Ahead.step (h : Ahead s seen) (hstep : step loc s label = some t) :
    Ahead t (reads s label seen) := by
  have hundecided := step_undecided hstep h.undecided
  have hplan : PlanStep loc s seen t (reads s label seen) := step_plans hstep
  generalize reads s label seen = seen' at hplan
  cases hplan with
  | stay hjobs hnext =>
      refine ⟨?_, ?_, hundecided⟩
      · rw [hnext]
        exact h.ahead
      · rw [hnext, hjobs]
        exact h.known
  | look wall job rest toLaunch c hloop hschedule =>
      refine ⟨h.look hschedule, ?_, hundecided⟩
      rw [dueJob_jobs]
      intro name hname
      have hne : name ≠ job.name := by
        rintro rfl
        exact hname (List.mem_map_of_mem (h.undecided job (by simp [hloop])))
      rw [dueJob_nextRun_of_ne hne]
      exact h.known name hname
  | register stored hjobs hnext =>
      refine ⟨?_, ?_, hundecided⟩
      · rw [hnext]
        exact h.register
      · rw [hnext, hjobs]
        intro name hname
        rw [List.map_append, List.mem_append, not_or] at hname
        rw [JobSet.setNextRun_of_ne (by simpa using hname.2)]
        exact h.known name hname.1
  | unregister n hjobs hnext =>
      refine ⟨?_, ?_, hundecided⟩
      · rw [hnext]
        intro name next hsome
        by_cases hname : name = n
        · simp [hname] at hsome
        · exact h.ahead name next (by simpa [Function.update_of_ne hname] using hsome)
      · rw [hnext, hjobs]
        intro name hname
        by_cases heq : name = n
        · simp [heq]
        · rw [Function.update_of_ne heq]
          refine h.known name fun hmem => hname ?_
          obtain ⟨job, hjob, rfl⟩ := List.mem_map.mp hmem
          exact List.mem_map_of_mem (List.mem_filter.mpr ⟨hjob, by simpa using heq⟩)

/-- A look keeps the entry ahead of no occurrence that is not read. -/
theorem Planned.look (h : Planned loc s seen) {wall : Int} {job : Job} {rest : List Job}
    {toLaunch : List LaunchEntry} {c : CronSchedule} (hwall : 0 ≤ wall)
    (hreach : HorizonReaches loc wall) (hnodup : (s.jobs.map Job.name).Nodup)
    (hmem : job ∈ s.jobs) (hschedule : job.schedule = some c) :
    Planned loc (s.dueJob loc wall job rest toLaunch)
      (Function.update seen job.name (max (seen job.name) wall)) := by
  intro other hother c' hc' t hlt hoccurs
  rw [dueJob_jobs] at hother
  by_cases hname : other.name = job.name
  · obtain rfl := List.inj_on_of_nodup_map hnodup hother hmem hname
    cases hschedule.symm.trans hc'
    rw [Function.update_self, max_lt_iff] at hlt
    obtain ⟨next, hnext, hle⟩ := h other hother c hschedule t hlt.1 hoccurs
    by_cases hdue : next ≤ wall
    · obtain ⟨new, hnew⟩ := Option.ne_none_iff_exists'.mp (hreach c t hlt.2 hoccurs)
      rw [dueJob_due hschedule hnext hdue]
      refine ⟨new, by simpa using hnew, ?_⟩
      exact (CronSchedule.nextAfter_isLeast hwall hnew).2 ⟨hlt.2, hoccurs⟩
    · have hlater : ∀ next ∈ s.nextRun other.name, wall < next := by
        intro next' hnext'
        cases (Option.mem_def.mp hnext).symm.trans hnext'
        exact not_le.mp hdue
      rw [dueJob_later hlater]
      exact ⟨next, hnext, hle⟩
  · rw [Function.update_of_ne hname] at hlt
    rw [dueJob_nextRun_of_ne hname]
    exact h other hother c' hc' t hlt hoccurs

theorem Planned.step (h : Planned loc s seen) (hahead : Ahead s seen)
    (hsearch : Searchable loc s) (hwall : ∀ wall ∈ s.loop.tick, 0 ≤ wall)
    (hnodup : (t.jobs.map Job.name).Nodup) (hstep : step loc s label = some t) :
    Planned loc t (reads s label seen) := by
  have hplan : PlanStep loc s seen t (reads s label seen) := step_plans hstep
  generalize reads s label seen = seen' at hplan
  cases hplan with
  | stay hjobs hnext =>
      unfold Planned
      rw [hjobs, hnext]
      exact h
  | look wall job rest toLaunch c hloop hschedule =>
      have htick : wall ∈ s.loop.tick := by simp [hloop]
      exact h.look (hwall wall htick) (hsearch.wall wall htick) hsearch.names
        (hahead.undecided job (by simp [hloop])) hschedule
  | register stored hjobs hnext =>
      rw [hjobs, List.map_append, List.map_singleton, List.nodup_append] at hnodup
      intro job hjob c hc time hlt hoccurs
      rw [hnext]
      rw [hjobs] at hjob
      obtain hold | hnew := List.mem_append.mp hjob
      · have hne : job.name ≠ stored.name :=
          hnodup.2.2 _ (List.mem_map_of_mem hold) _ (List.mem_singleton_self _)
        rw [registered, Function.update_of_ne hne] at hlt
        rw [JobSet.setNextRun_of_ne hne]
        exact h job hold c hc time hlt hoccurs
      · obtain rfl := List.mem_singleton.mp hnew
        have hfree : findJob s.jobs job.name = none :=
          findJob_eq_none_iff.mpr fun hmem =>
            hnodup.2.2 _ hmem _ (List.mem_singleton_self _) rfl
        rw [registered, Function.update_self, if_pos hfree] at hlt
        obtain ⟨next, hsome⟩ := Option.ne_none_iff_exists'.mp (hsearch.clock c time hlt hoccurs)
        refine ⟨next, ?_, ?_⟩
        · simp [JobSet.setNextRun, Option.mem_def.mp hc, hsome]
        · exact (CronSchedule.nextAfter_isLeast (Int.natCast_nonneg _) hsome).2 ⟨hlt, hoccurs⟩
  | unregister n hjobs hnext =>
      intro job hjob c hc time hlt hoccurs
      rw [hjobs] at hjob
      obtain ⟨hmem, hne⟩ := List.mem_filter.mp hjob
      rw [hnext, Function.update_of_ne (by simpa using hne)]
      exact h job hmem c hc time hlt hoccurs

end Steps

section Runs

variable {loc : LocalTime} {config : List Job} {table : JobTable}
  {lastRun : Bytes → Option RunRecord} {now : ℕ} {r s : Observed} {labels : List Label}

/-- The entries the constructor makes are later than its clock reading. -/
theorem foldl_setNextRun_gt {now : Int} (jobs : List Job) {m : Bytes → Option Int}
    (hm : ∀ name, ∀ next ∈ m name, now < next) :
    ∀ name, ∀ next ∈ jobs.foldl (fun m job => JobSet.setNextRun loc now job m) m name,
      now < next := by
  induction jobs generalizing m with
  | nil => exact hm
  | cons job rest ih =>
      refine ih fun name next hnext => ?_
      obtain hgt | hold := setNextRun_mem hnext
      · exact hgt
      · exact hm name next hold

theorem ahead_initial : Ahead (initial loc config table lastRun now) fun _ => now := by
  refine ⟨?_, ?_, by simp [initial]⟩
  · exact foldl_setNextRun_gt _ (by simp)
  · intro name hname
    exact JobSet.foldl_setNextRun_of_not_mem hname

theorem planned_initial (h : Searchable loc (initial loc config table lastRun now)) :
    Planned loc (initial loc config table lastRun now) fun _ => now := by
  intro job hjob c hc time hlt hoccurs
  obtain ⟨next, hnext⟩ := Option.ne_none_iff_exists'.mp (h.clock c time hlt hoccurs)
  have hfound : c.nextAfter loc now = some next := hnext
  refine ⟨next, ?_, ?_⟩
  · exact JobSet.construct_nextRun h.names hjob (by simp [Option.mem_def.mp hc, hfound])
  · exact (CronSchedule.nextAfter_isLeast (Int.natCast_nonneg _) hfound).2 ⟨hlt, hoccurs⟩

/-- The time of a tick is a clock reading. -/
theorem tick_nonneg {s t : State} {label : Label} (h : step loc s label = some t)
    (hs : ∀ wall ∈ s.loop.tick, 0 ≤ wall) : ∀ wall ∈ t.loop.tick, 0 ≤ wall := by
  have hmove := step_firing h
  have hview : ∀ wall ∈ t.firing.wall, 0 ≤ wall := by
    generalize t.firing = v at hmove
    cases hmove with
    | readWall =>
        rintro wall ⟨⟩
        exact Int.natCast_nonneg _
    | leave => simp
    | _ => exact hs
  exact hview

/-- In every run the entries are later than the clock readings so far. -/
theorem ahead_of_run {ok : Observed → Label → Prop}
    (h : Run (observed loc) ok (observedInitial loc config table lastRun now) labels s) :
    Ahead s.1 s.2 := by
  refine h.invariant (I := fun s => Ahead s.1 s.2) ?_ ahead_initial
  intro s label t hinv _ hstep
  obtain ⟨hstep, hseen⟩ := observe_eq_some_iff.mp hstep
  exact hseen ▸ hinv.step hstep

/-- The plan of a state that is searchable. -/
structure PlanKept (loc : LocalTime) (s : Observed) : Prop where
  ahead : Ahead s.1 s.2
  wall : ∀ wall ∈ s.1.loop.tick, 0 ≤ wall
  planned : Searchable loc s.1 → Planned loc s.1 s.2

theorem PlanKept.step (h : PlanKept loc s) {label : Label} {t : Observed}
    (hsearch : Searchable loc s.1) (hstep : observed loc s label = some t) : PlanKept loc t := by
  obtain ⟨t, seen⟩ := t
  obtain ⟨hstep, rfl⟩ := observe_eq_some_iff.mp hstep
  refine ⟨h.ahead.step hstep, tick_nonneg hstep h.wall, fun hlater => ?_⟩
  exact (h.planned hsearch).step h.ahead hsearch h.wall hlater.names hstep

/-- In every run whose states are searchable no entry is later than an occurrence
after the readings. -/
theorem planKept_of_run
    (h : Run (observed loc) (fun s _ => Searchable loc s.1)
      (observedInitial loc config table lastRun now) labels s) : PlanKept loc s := by
  refine h.invariant (I := PlanKept loc) (fun s label t hinv hok hstep => hinv.step hok hstep) ?_
  exact ⟨ahead_initial, by simp [observedInitial, initial], planned_initial⟩

end Runs

end AgentPulse.Scheduler
