import AgentPulse.Jobs.Launches
import AgentPulse.Jobs.Restart

/-!
# Cron firing is exact over whole runs

The loop keeps one time per job in `next_run_` and advances it when the job is
due. Over every run this incremental rule decides as if each tick searched the
whole interval since the tick before it: the job is due exactly if an occurrence
lies in that interval, so that every occurrence makes it due in exactly one tick
and several occurrences in one interval count once.

## Implementation notes

A look is the step of the due scan that treats the job. The looks of a run are
noted by an observer, with the states before and after the step, from which what
the step has found and done is read. Each tick reads the clock once, and takes
its look at the job at that time.
-/

namespace AgentPulse.Scheduler

open Transition

/-- The ticks `a :: walls` cut the time after `a` into half-open intervals. -/
theorem existsUnique_interval {a t : Int} {walls : List Int}
    (hsorted : (a :: walls).Pairwise (· ≤ ·)) (ha : a < t) (ht : ∃ w ∈ walls, t ≤ w) :
    ∃! i : Nat, ∃ lo hi, (a :: walls)[i]? = some lo ∧ walls[i]? = some hi ∧ lo < t ∧ t ≤ hi := by
  induction walls generalizing a with
  | nil =>
      obtain ⟨w, hw, _⟩ := ht
      cases hw
  | cons w rest ih =>
      obtain ⟨_, hrest⟩ := List.pairwise_cons.mp hsorted
      by_cases hw : t ≤ w
      · refine ⟨0, ⟨a, w, rfl, rfl, ha, hw⟩, ?_⟩
        rintro i ⟨lo, hi, hlo, _, hlt, _⟩
        cases i with
        | zero => rfl
        | succ i =>
            have hmem : lo ∈ w :: rest := List.mem_of_getElem? (by simpa using hlo)
            obtain rfl | hmem := List.mem_cons.mp hmem
            · omega
            · have := (List.pairwise_cons.mp hrest).1 lo hmem
              omega
      · obtain ⟨w', hw', hle⟩ := ht
        have hlater : w' ∈ rest := by
          obtain rfl | hmem := List.mem_cons.mp hw'
          · exact absurd hle hw
          · exact hmem
        obtain ⟨i, ⟨lo, hi, hlo, hhi, hbounds⟩, huniq⟩ :=
          ih hrest (by omega) ⟨w', hlater, hle⟩
        refine ⟨i + 1, ⟨lo, hi, by simpa using hlo, by simpa using hhi, hbounds⟩, ?_⟩
        rintro j ⟨lo', hi', hlo', hhi', hlt', hle'⟩
        cases j with
        | zero =>
            simp only [List.getElem?_cons_zero, Option.some.injEq] at hhi'
            omega
        | succ j =>
            congr 1
            exact huniq j ⟨lo', hi', by simpa using hlo', by simpa using hhi', hlt', hle'⟩

/-- A step of the due scan at a job: the time of its tick, and the states before
and after it. -/
structure Look where
  wall : Int
  before : State
  after : State

/-- The look at the job `name` that the step takes, if it is one. -/
def lookAt (loc : LocalTime) (name : Bytes) (s : State) : Label → List Look
  | .loop =>
      match s.loop with
      | .due wall (job :: _) _ =>
          if job.name = name then ((step loc s .loop).map fun t => ⟨wall, s, t⟩).toList else []
      | _ => []
  | _ => []

/-- The looks at the job `name` along a run. -/
def looks (loc : LocalTime) (name : Bytes) (r : State) (labels : List Label) : List Look :=
  trace (step loc) (lookAt loc name) r labels

/-- The clock reading the step begins a tick with, if it does. -/
def readingAt (s : State) : Label → List Int
  | .loop => if s.loop = .wall then [(s.clock : Int)] else []
  | _ => []

/-- The clock readings the ticks of a run begin with. -/
def readings (loc : LocalTime) (r : State) (labels : List Label) : List Int :=
  trace (step loc) readingAt r labels

/-- The time of the tick the loop is in, if its look at the job is still to come. -/
def LoopPc.pending (name : Bytes) : LoopPc → List Int
  | .scan time _ | .lock time | .drain time _ _ _ => [time]
  | .due time rest _ => (rest.filter fun job => job.name = name).map fun _ => time
  | _ => []

/-- `running_` holds a worker of the job that is not done. -/
def State.Live (s : State) (name : Bytes) : Prop :=
  ∃ id ∈ s.running name, ∃ task ∈ s.tasks[id]?, task.done = false

/-- The look finds the job due: its entry of `next_run_` is not later than the tick. -/
def Look.Due (name : Bytes) (d : Look) : Prop := ∃ next ∈ d.before.nextRun name, next ≤ d.wall

/-- The launches the look adds. -/
def Look.launches (d : Look) : List LaunchEntry :=
  d.after.launchEntries.drop d.before.launchEntries.length

/-- The look puts the job into `to_launch`, for its schedule. -/
def Look.Fires (job : Job) (d : Look) : Prop :=
  ∃ next, d.launches = [⟨job, .schedule, .due next d.wall⟩]

/-- The launch was decided on by the due scan. -/
def Cause.isDue : Cause → Bool
  | .due _ _ => true
  | .request _ => false

/-- The launches of the job so far that the due scan decided on. -/
def State.dueLaunches (s : State) (name : Bytes) : List LaunchEntry :=
  s.launchEntries.filter fun entry => entry.job.name = name && entry.cause.isDue

/-- Tick `i` takes the look `d`, and the time before it is `a`: the time of the
tick before, or that of the registration. -/
def IsTick (a₀ : Int) (ds : List Look) (i : Nat) (a : Int) (d : Look) : Prop :=
  (a₀ :: ds.map Look.wall)[i]? = some a ∧ ds[i]? = some d

/-- The time of the last tick, or that of the registration. -/
def lastTick (a₀ : Int) (ds : List Look) : Int :=
  (a₀ :: ds.map Look.wall).getLast (List.cons_ne_nil _ _)

/-- What a tick must decide on the job if the time before it is `a`. -/
structure DecidesExactly (loc : LocalTime) (c : CronSchedule) (job : Job) (a : Int) (d : Look) :
    Prop where
  due : d.Due job.name ↔ ∃ t, a < t ∧ t ≤ d.wall ∧ c.Occurs loc t
  next : ∀ next, d.after.nextRun job.name = some next →
    IsLeast {u | d.wall < u ∧ c.Occurs loc u} next
  fires : d.Fires job ↔ d.Due job.name ∧ ¬ d.before.Live job.name
  silent : d.Fires job ∨ d.launches = []

/-- Every tick decides exactly, up to the one that erases the entry. -/
def Exact (loc : LocalTime) (c : CronSchedule) (job : Job) (a₀ : Int) (ds : List Look) : Prop :=
  ∀ i a d, IsTick a₀ ds i a d →
    (∀ j < i, ∀ e, ds[j]? = some e → e.after.nextRun job.name ≠ none) →
      DecidesExactly loc c job a d

section Ticks

variable {loc : LocalTime} {c : CronSchedule} {job : Job} {a₀ a : Int} {ds : List Look}
  {d e : Look}

theorem isTick_snoc {i : Nat} (h : IsTick a₀ (ds ++ [e]) i a d) :
    IsTick a₀ ds i a d ∨ i = ds.length ∧ a = lastTick a₀ ds ∧ d = e := by
  obtain ⟨ha, hd⟩ := h
  rw [List.map_append, ← List.cons_append] at ha
  by_cases hi : i < ds.length
  · left
    rw [List.getElem?_append_left (by simp; omega)] at ha
    rw [List.getElem?_append_left hi] at hd
    exact ⟨ha, hd⟩
  · right
    have hlen := (List.getElem?_eq_some_iff.mp hd).1
    obtain rfl : i = ds.length := by
      simp only [List.length_append, List.length_singleton] at hlen
      omega
    rw [List.getElem?_append_left (by simp)] at ha
    refine ⟨rfl, ?_, by simpa using hd.symm⟩
    rw [lastTick, List.getLast_eq_getElem]
    exact ((List.getElem?_eq_some_iff.mp ha).2).symm.trans (by simp)

@[simp] theorem lastTick_snoc : lastTick a₀ (ds ++ [e]) = e.wall := by
  simp [lastTick]

theorem sorted_snoc (h : (a₀ :: (ds ++ [e]).map Look.wall).Pairwise (· ≤ ·)) :
    (a₀ :: ds.map Look.wall).Pairwise (· ≤ ·) ∧ lastTick a₀ ds ≤ e.wall ∧ a₀ ≤ e.wall := by
  rw [List.map_append, ← List.cons_append, List.pairwise_append] at h
  obtain ⟨hds, _, hle⟩ := h
  exact ⟨hds, hle _ (List.getLast_mem _) _ (by simp), hle _ List.mem_cons_self _ (by simp)⟩

/-- One more exact look. -/
theorem Exact.snoc (h : Exact loc c job a₀ ds)
    (hd : (∀ d ∈ ds, d.after.nextRun job.name ≠ none) →
      DecidesExactly loc c job (lastTick a₀ ds) e) :
    Exact loc c job a₀ (ds ++ [e]) := by
  intro i a d htick hkept
  obtain hold | ⟨rfl, rfl, rfl⟩ := isTick_snoc htick
  · have hi := (List.getElem?_eq_some_iff.mp hold.2).1
    refine h i a d hold fun j hj e' he' => hkept j hj e' ?_
    rwa [List.getElem?_append_left (by omega)]
  · refine hd fun d' hd' => ?_
    obtain ⟨j, hj, hget⟩ := List.mem_iff_getElem.mp hd'
    refine hkept j hj d' ?_
    rw [List.getElem?_append_left hj, List.getElem?_eq_getElem hj, hget]

end Ticks

section Looks

variable {loc : LocalTime} {c : CronSchedule} {job : Job} {name : Bytes} {a wall next : Int}
  {s t : State} {label : Label} {rest : List Job} {toLaunch : List LaunchEntry}

theorem isRunning_iff : s.isRunning name = true ↔ s.Live name := by
  unfold State.isRunning State.Live
  cases s.running name with
  | none => simp
  | some id => cases hget : s.tasks[id]? <;> simp [hget]

theorem launches_eq {d : Look} {new : List LaunchEntry}
    (h : d.after.launchEntries = d.before.launchEntries ++ new) : d.launches = new := by
  rw [Look.launches, h, List.drop_left]

/-- The due scan passes a job by whose entry is missing or later than the tick. -/
theorem dueJob_later (hlater : ∀ next ∈ s.nextRun job.name, wall < next) :
    s.dueJob loc wall job rest toLaunch = { s with loop := .due wall rest toLaunch } := by
  unfold State.dueJob
  split
  · rfl
  · split
    · rfl
    · next next hnext => rw [if_pos (hlater next hnext)]

/-- The due scan advances the entry of a due job, and launches it if it is idle. -/
theorem dueJob_due (hschedule : job.schedule = some c) (hnext : s.nextRun job.name = some next)
    (hle : next ≤ wall) :
    s.dueJob loc wall job rest toLaunch = { s with
      nextRun := Function.update s.nextRun job.name (c.nextAfter loc wall)
      loop := .due wall rest (if s.isRunning job.name then toLaunch
        else toLaunch ++ [⟨job, .schedule, .due next wall⟩]) } := by
  simp only [State.dueJob, hschedule, hnext, if_neg (not_lt.mpr hle)]

/-- The look finds an entry that is later than its tick: the job is not due, and
the entry stays the least occurrence after the tick. -/
theorem decidesExactly_later (hloop : s.loop = .due wall (job :: rest) toLaunch)
    (hnext : s.nextRun job.name = some next)
    (hleast : IsLeast {u | a < u ∧ c.Occurs loc u} next) (ha : a ≤ wall) (hlt : wall < next) :
    DecidesExactly loc c job a ⟨wall, s, s.dueJob loc wall job rest toLaunch⟩ := by
  have hafter : s.dueJob loc wall job rest toLaunch = { s with loop := .due wall rest toLaunch } :=
    dueJob_later (by simp [hnext, hlt])
  have hdue : ¬ Look.Due job.name ⟨wall, s, s.dueJob loc wall job rest toLaunch⟩ := by
    simp [Look.Due, hnext, hlt]
  have hlaunches : Look.launches ⟨wall, s, s.dueJob loc wall job rest toLaunch⟩ = [] :=
    launches_eq (by simp [State.launchEntries, hafter, hloop])
  refine ⟨iff_of_false hdue ?_, ?_, iff_of_false ?_ (mt And.left hdue), Or.inr hlaunches⟩
  · rintro ⟨t, hat, htw, ht⟩
    exact absurd (hleast.2 ⟨hat, ht⟩) (not_le.mpr (lt_of_le_of_lt htw hlt))
  · intro next' heq
    rw [hafter] at heq
    cases hnext.symm.trans heq
    exact ⟨⟨hlt, hleast.1.2⟩, fun u hu => hleast.2 ⟨lt_of_le_of_lt ha hu.1, hu.2⟩⟩
  · rintro ⟨lo, hlo⟩
    rw [hlaunches] at hlo
    cases hlo

/-- The look finds an entry that is not later than its tick: the job is due, and
the new entry is searched from the tick. -/
theorem decidesExactly_due (hschedule : job.schedule = some c)
    (hloop : s.loop = .due wall (job :: rest) toLaunch) (hnext : s.nextRun job.name = some next)
    (hleast : IsLeast {u | a < u ∧ c.Occurs loc u} next) (hwall : 0 ≤ wall) (hle : next ≤ wall) :
    DecidesExactly loc c job a ⟨wall, s, s.dueJob loc wall job rest toLaunch⟩ := by
  have hafter : s.dueJob loc wall job rest toLaunch =
      { s with
        nextRun := Function.update s.nextRun job.name (c.nextAfter loc wall)
        loop := .due wall rest (if s.isRunning job.name then toLaunch
          else toLaunch ++ [⟨job, .schedule, .due next wall⟩]) } :=
    dueJob_due hschedule hnext hle
  have hdue : Look.Due job.name ⟨wall, s, s.dueJob loc wall job rest toLaunch⟩ :=
    ⟨next, hnext, hle⟩
  have hlaunches : Look.launches ⟨wall, s, s.dueJob loc wall job rest toLaunch⟩ =
      if s.isRunning job.name then [] else [⟨job, .schedule, .due next wall⟩] := by
    apply launches_eq
    rw [hafter]
    split_ifs <;> simp [State.launchEntries, hloop]
  refine ⟨iff_of_true hdue ⟨next, hleast.1.1, hle, hleast.1.2⟩, ?_, ?_, ?_⟩
  · intro next' heq
    rw [hafter] at heq
    exact CronSchedule.nextAfter_isLeast hwall (by simpa using heq)
  · rw [and_iff_right hdue, ← isRunning_iff, Look.Fires, hlaunches]
    cases s.isRunning job.name <;> simp
  · rw [Look.Fires, hlaunches]
    cases s.isRunning job.name <;> simp

/-- A step leaves the entry of the job alone, or it is a look at the job. -/
theorem step_entry (h : step loc s label = some t)
    (hkeep : ∀ write ∈ s.writes label, write.name ≠ name) :
    t.nextRun name = s.nextRun name ∨ label = .loop ∧ ∃ wall job rest toLaunch,
      s.loop = .due wall (job :: rest) toLaunch ∧ job.name = name := by
  cases step_cases h with
  | clock | active | start | notifyWake => exact Or.inl rfl
  | stop hstep =>
      obtain ⟨_, _, _, _, _, rfl⟩ := hstep.frame
      exact Or.inl rfl
  | loop hstep =>
      cases hstep with
      | overlap wall job rest toLaunch c next hloop | fire wall job rest toLaunch c next hloop =>
          by_cases hname : job.name = name
          · exact Or.inr ⟨rfl, wall, job, rest, toLaunch, hloop, hname⟩
          · exact Or.inl (Function.update_of_ne (Ne.symm hname) _ _)
      | scan wall pc next hloop hscan =>
          obtain ⟨_, _, _, _, rfl⟩ := scanStep_frame hscan
          exact Or.inl rfl
      | _ => exact Or.inl rfl
  | starter next hscan =>
      obtain ⟨_, _, _, _, rfl⟩ := scanStep_frame hscan
      exact Or.inl rfl
  | begin thread call hstep =>
      obtain ⟨_, _, rfl⟩ := hstep.frame
      exact Or.inl rfl
  | call thread dbError hstep =>
      left
      cases hstep with
      | add stored hcall hfree =>
          have hne := hkeep (.register stored.name) (by simp [State.writes, hcall])
          exact JobSet.setNextRun_of_ne (Ne.symm hne)
      | remove n hcall hfree =>
          have hne := hkeep (.unregister n) (by simp [State.writes, hcall])
          exact Function.update_of_ne (Ne.symm hne) _ _
      | _ => rfl
  | worker id outcome dbOk hstep =>
      obtain ⟨_, _, _, _, _, _, _⟩ := hstep
      exact Or.inl rfl

/-- A step adds no launch the due scan decides on for the job, or it is a look
at the job. -/
theorem step_dueLaunches (h : step loc s label = some t) :
    t.dueLaunches name = s.dueLaunches name ∨ label = .loop ∧ ∃ wall job rest toLaunch,
      s.loop = .due wall (job :: rest) toLaunch ∧ job.name = name := by
  obtain heq | ⟨rfl, launch, hlaunch, heq⟩ := step_launches h
  · left
    rw [State.dueLaunches, heq, State.dueLaunches]
  · cases hlaunch with
    | request wall entry rest deferred toLaunch job =>
        left
        simp [State.dueLaunches, heq, Cause.isDue]
    | due wall job rest toLaunch next hloop =>
        by_cases hname : job.name = name
        · exact Or.inr ⟨rfl, wall, job, rest, toLaunch, hloop, hname⟩
        · left
          simp [State.dueLaunches, heq, hname]

theorem dueJob_of_step (hloop : s.loop = .due wall (job :: rest) toLaunch)
    (h : step loc s .loop = some t) : t = s.dueJob loc wall job rest toLaunch := by
  unfold step at h
  split_ifs at h
  simp only [loopStep, hloop, Option.some.injEq] at h
  exact h.symm

/-- A look at the job is the due scan's treatment of it, and any other step is
noted as nothing and leaves its entry and its launches alone. -/
theorem step_look (h : step loc s label = some t)
    (hkeep : ∀ write ∈ s.writes label, write.name ≠ name) :
    lookAt loc name s label = [] ∧ t.nextRun name = s.nextRun name ∧
        t.dueLaunches name = s.dueLaunches name ∨
      ∃ wall job rest toLaunch, s.loop = .due wall (job :: rest) toLaunch ∧ job.name = name ∧
        t = s.dueJob loc wall job rest toLaunch ∧ lookAt loc name s label = [⟨wall, s, t⟩] := by
  by_cases hlook : label = .loop ∧ ∃ wall job rest toLaunch,
      s.loop = .due wall (job :: rest) toLaunch ∧ job.name = name
  · obtain ⟨rfl, wall, job, rest, toLaunch, hloop, hname⟩ := hlook
    exact Or.inr ⟨wall, job, rest, toLaunch, hloop, hname, dueJob_of_step hloop h,
      by simp [lookAt, hloop, hname, h]⟩
  · refine Or.inl ⟨?_, (step_entry h hkeep).resolve_right hlook,
      (step_dueLaunches h).resolve_right hlook⟩
    cases label with
    | loop =>
        cases hloop : s.loop with
        | due wall rest toLaunch =>
            cases rest with
            | nil => simp [lookAt, hloop]
            | cons job rest =>
                have hname : job.name ≠ name :=
                  fun hname => hlook ⟨rfl, wall, job, rest, toLaunch, hloop, hname⟩
                simp [lookAt, hloop, hname]
        | _ => simp [lookAt, hloop]
    | _ => rfl

/-- Without a write to the job, the jobs of its name stay what they are. -/
theorem FiringMove.jobs_kept {writes : Option JobWrite} {v w : FiringView}
    (hmove : FiringMove loc writes v w) (hkeep : ∀ write ∈ writes, write.name ≠ name) :
    (w.jobs.filter fun job => job.name = name) = v.jobs.filter fun job => job.name = name := by
  cases hmove with
  | register stored hdone hwrites =>
      have hne : stored.name ≠ name := hkeep _ hwrites
      simp [hne]
  | unregister n hdone hwrites =>
      have hne : n ≠ name := hkeep _ hwrites
      rw [List.filter_filter]
      congr 1
      funext job
      by_cases hname : job.name = name <;> simp [hname, Ne.symm hne]
  | _ => rfl

/-- The due scan only has jobs before it that are in `jobs_`. -/
theorem FiringMove.undecided_mem {writes : Option JobWrite} {v w : FiringView}
    (hmove : FiringMove loc writes v w) (h : ∀ job ∈ v.undecided, job ∈ v.jobs) :
    ∀ job ∈ w.undecided, job ∈ w.jobs := by
  cases hmove with
  | enter hdone => exact fun job hjob => hjob
  | skip job rest hrest | due job rest c wall next live hrest =>
      intro other hother
      exact h other (by rw [hrest]; exact List.mem_cons_of_mem _ hother)
  | register stored hdone | unregister n hdone =>
      simp [hdone]
  | _ => exact h

end Looks

/-- What the due scan keeps for a job since it was registered at `a₀`, in the
state `r`, and looked at in `ds`. -/
structure Firing (loc : LocalTime) (c : CronSchedule) (job : Job) (a₀ : Int) (r s : State)
    (ds : List Look) : Prop where
  jobs : (s.jobs.filter fun j => j.name = job.name) = [job]
  undecided : ∀ j ∈ s.loop.undecided, j ∈ s.jobs
  launches : s.dueLaunches job.name = r.dueLaunches job.name ++ ds.flatMap Look.launches
  exact : (a₀ :: ds.map Look.wall).Pairwise (· ≤ ·) →
    Exact loc c job a₀ ds ∧ ((∀ d ∈ ds, d.after.nextRun job.name ≠ none) →
      ∃ next, s.nextRun job.name = some next ∧
        IsLeast {u | lastTick a₀ ds < u ∧ c.Occurs loc u} next)

section Steps

variable {loc : LocalTime} {c : CronSchedule} {job : Job} {a₀ : Int} {r s t : State}
  {ds : List Look} {label : Label}

/-- A look at the job launches only the job. -/
theorem dueLaunches_of_look {wall : Int} {rest : List Job} {toLaunch : List LaunchEntry}
    (hloop : s.loop = .due wall (job :: rest) toLaunch)
    (ht : t = s.dueJob loc wall job rest toLaunch) :
    t.dueLaunches job.name = s.dueLaunches job.name ++ Look.launches ⟨wall, s, t⟩ := by
  have hnew : ∃ new, t.launchEntries = s.launchEntries ++ new ∧
      ∀ entry ∈ new, entry.job.name = job.name ∧ entry.cause.isDue = true := by
    subst ht
    unfold State.dueJob
    split
    · exact ⟨[], by simp [State.launchEntries, hloop], by simp⟩
    · split
      · exact ⟨[], by simp [State.launchEntries, hloop], by simp⟩
      · split_ifs
        · exact ⟨[], by simp [State.launchEntries, hloop], by simp⟩
        · exact ⟨[], by simp [State.launchEntries, hloop], by simp⟩
        · exact ⟨[_], by simp [State.launchEntries, hloop]; rfl, by simp [Cause.isDue]⟩
  obtain ⟨new, hentries, hall⟩ := hnew
  have hkept : (new.filter fun entry => entry.job.name = job.name && entry.cause.isDue) = new :=
    List.filter_eq_self.mpr fun entry hmem => by simp [hall entry hmem]
  rw [launches_eq hentries, State.dueLaunches, hentries, List.filter_append, hkept,
    State.dueLaunches]

/-- A look at the job: it decides exactly, and leaves an entry that does. -/
theorem Firing.look (h : Firing loc c job a₀ r s ds) (hschedule : job.schedule = some c)
    (ha₀ : 0 ≤ a₀) {wall : Int} {rest : List Job} {toLaunch : List LaunchEntry}
    (hloop : s.loop = .due wall (job :: rest) toLaunch)
    (ht : t = s.dueJob loc wall job rest toLaunch)
    {e : Look} (he : e = ⟨wall, s, t⟩)
    (hsorted : (a₀ :: (ds ++ [e]).map Look.wall).Pairwise (· ≤ ·)) :
    Exact loc c job a₀ (ds ++ [e]) ∧
      ((∀ d ∈ ds ++ [e], d.after.nextRun job.name ≠ none) →
        ∃ next, t.nextRun job.name = some next ∧
          IsLeast {u | lastTick a₀ (ds ++ [e]) < u ∧ c.Occurs loc u} next) := by
  subst he
  obtain ⟨hsorted, hlast, hstart⟩ := sorted_snoc hsorted
  obtain ⟨hold, hentry⟩ := h.exact hsorted
  have hdecides : (∀ d ∈ ds, d.after.nextRun job.name ≠ none) →
      DecidesExactly loc c job (lastTick a₀ ds) ⟨wall, s, t⟩ := by
    intro hkept
    obtain ⟨next, hnext, hleast⟩ := hentry hkept
    rw [ht]
    by_cases hle : next ≤ wall
    · exact decidesExactly_due hschedule hloop hnext hleast (ha₀.trans hstart) hle
    · exact decidesExactly_later hloop hnext hleast hlast (not_le.mp hle)
  refine ⟨hold.snoc hdecides, fun hkept => ?_⟩
  obtain ⟨next, hnext⟩ := Option.ne_none_iff_exists'.mp (hkept ⟨wall, s, t⟩ (by simp))
  rw [lastTick_snoc]
  exact ⟨next, hnext, (hdecides fun d hd => hkept d (List.mem_append_left _ hd)).next next hnext⟩

theorem Firing.step (h : Firing loc c job a₀ r s ds) (hschedule : job.schedule = some c)
    (ha₀ : 0 ≤ a₀) (hkeep : ∀ write ∈ s.writes label, write.name ≠ job.name)
    (hstep : step loc s label = some t) :
    Firing loc c job a₀ r t (ds ++ lookAt loc job.name s label) := by
  have hmove := step_firing hstep
  have hjobs := (hmove.jobs_kept hkeep).trans h.jobs
  have hundecided := hmove.undecided_mem h.undecided
  obtain ⟨hnone, hentry, hlaunches⟩ | ⟨wall, j, rest, toLaunch, hloop, hname, ht, hsome⟩ :=
    step_look hstep hkeep
  · rw [hnone, List.append_nil]
    refine ⟨hjobs, hundecided, hlaunches.trans h.launches, ?_⟩
    rw [hentry]
    exact h.exact
  · obtain rfl : j = job := by
      have hmem : j ∈ s.jobs.filter fun i => i.name = job.name :=
        List.mem_filter.mpr ⟨h.undecided j (by simp [hloop]), by simpa using hname⟩
      rw [h.jobs] at hmem
      exact List.mem_singleton.mp hmem
    rw [hsome]
    refine ⟨hjobs, hundecided, ?_, h.look hschedule ha₀ hloop ht rfl⟩
    rw [dueLaunches_of_look hloop ht, h.launches, List.append_assoc, List.flatMap_append,
      List.flatMap_singleton]

end Steps

section Readings

variable {loc : LocalTime} {job : Job} {r s t : State} {label : Label} {labels : List Label}

/-- A clock reading is pending until the look it is for. -/
theorem LoopStep.pending (h : LoopStep loc s t) (hstep : step loc s .loop = some t)
    (hjobs : (s.jobs.filter fun j => j.name = job.name) = [job]) :
    s.loop.pending job.name ++ readingAt s .loop =
      (lookAt loc job.name s .loop).map Look.wall ++ t.loop.pending job.name := by
  cases h with
  | gap hloop | wake hloop | awake hloop =>
      simp [LoopPc.pending, readingAt, lookAt, hloop]
  | scan wall pc next hloop hscan =>
      simp only
      split_ifs <;> simp [LoopPc.pending, readingAt, lookAt, hloop]
  | drained wall deferred toLaunch hloop =>
      simp [LoopPc.pending, readingAt, lookAt, hloop, hjobs]
  | unscheduled wall j rest toLaunch hloop | unplanned wall j rest toLaunch c hloop
  | later wall j rest toLaunch c next hloop | overlap wall j rest toLaunch c next hloop
  | fire wall j rest toLaunch c next hloop =>
      by_cases hname : j.name = job.name
      · simp [LoopPc.pending, readingAt, lookAt, hloop, hname, hstep]
      · simp [LoopPc.pending, readingAt, lookAt, hloop, hname]
  | reap hloop | exit hloop | joined hloop | join _ _ hloop | lock _ hloop | drop _ _ _ _ _ hloop
  | defer _ _ _ _ _ hloop | place _ _ _ _ _ _ hloop | decided _ _ hloop | launched hloop
  | launch _ _ hloop | startThread _ _ hloop | publish hloop | setJobs _ hloop =>
      simp [LoopPc.pending, readingAt, lookAt, hloop, State.reap, State.launchEntry]

theorem step_pending (hjobs : (s.jobs.filter fun j => j.name = job.name) = [job])
    (h : step loc s label = some t) :
    s.loop.pending job.name ++ readingAt s label =
      (lookAt loc job.name s label).map Look.wall ++ t.loop.pending job.name := by
  cases step_cases h with
  | loop hstep => exact hstep.pending h hjobs
  | start hactive hloop =>
      simp [readingAt, lookAt, hloop, LoopPc.pending]
  | stop hstep =>
      cases hstep with
      | joinLoop hstopper hloop => simp [readingAt, lookAt, hloop, LoopPc.pending]
      | _ => simp [readingAt, lookAt, State.joinTask]
  | starter next hscan =>
      obtain ⟨_, _, _, _, rfl⟩ := scanStep_frame hscan
      simp [readingAt, lookAt]
  | begin thread call hstep =>
      obtain ⟨_, _, rfl⟩ := hstep.frame
      simp [readingAt, lookAt]
  | call thread dbError hstep =>
      obtain ⟨_, _, _, _, _, _, rfl⟩ := hstep.frame
      simp [readingAt, lookAt]
  | worker id outcome dbOk hstep =>
      obtain ⟨_, _, _, _, _, _, _⟩ := hstep
      simp [readingAt, lookAt]
  | _ => simp [readingAt, lookAt]

/-- Each tick takes one look at the job, at the time it has read from the clock. -/
theorem looks_of_readings
    (hrun : Run (step loc) (fun s label => ∀ write ∈ s.writes label, write.name ≠ job.name)
      r labels s)
    (hjobs : (r.jobs.filter fun j => j.name = job.name) = [job]) :
    r.loop.pending job.name ++ readings loc r labels =
      (looks loc job.name r labels).map Look.wall ++ s.loop.pending job.name := by
  induction hrun with
  | nil s => simp [readings, looks, trace]
  | @cons s m t label rest hkeep hstep tail ih =>
      have hkept := ((step_firing hstep).jobs_kept hkeep).trans hjobs
      have htail := ih hkept
      simp only [readings, looks] at htail
      simp only [readings, looks, trace, hstep]
      rw [← List.append_assoc, step_pending hjobs hstep, List.append_assoc, htail, List.map_append,
        List.append_assoc]

end Readings

/-- The job has just been registered at the given time: by the constructor, or
by the last critical section of `add_job`. -/
inductive RegisteredAt (loc : LocalTime) (job : Job) : ℕ → State → Prop
  | construct {config : List Job} {table : JobTable} {lastRun : Bytes → Option RunRecord} {now : ℕ}
      (hc : (config.map Job.name).Nodup)
      (hjob : job ∈ (initial loc config table lastRun now).jobs) :
      RegisteredAt loc job now (initial loc config table lastRun now)
  | add {s t : State} {thread : Nat} {dbError : Option Bytes}
      (hcall : s.calls thread = .addUpdate job) (hfree : job.name ∉ s.jobs.map Job.name)
      (hstep : step loc s (.call thread dbError) = some t) : RegisteredAt loc job s.clock t

section Runs

variable {loc : LocalTime} {c : CronSchedule} {job : Job} {a₀ : ℕ} {first : Int} {r s : State}
  {labels : List Label}

/-- A job that is the only one of its name is what a lookup by the name finds. -/
theorem filter_of_nodup {jobs : List Job} (hn : (jobs.map Job.name).Nodup) (hjob : job ∈ jobs) :
    (jobs.filter fun j => j.name = job.name) = [job] := by
  induction jobs with
  | nil => cases hjob
  | cons first rest ih =>
      obtain ⟨hfirst, hrest⟩ := List.nodup_cons.mp (List.map_cons ▸ hn)
      obtain rfl | hmem := List.mem_cons.mp hjob
      · have hnone : (rest.filter fun j => j.name = job.name) = [] := by
          refine List.filter_eq_nil_iff.mpr fun j hj => ?_
          simp only [decide_eq_true_eq]
          exact fun heq => hfirst (heq ▸ List.mem_map_of_mem hj)
        rw [List.filter_cons_of_pos (by simp), hnone]
      · have hne : first.name ≠ job.name := fun heq => hfirst (heq ▸ List.mem_map_of_mem hmem)
        rw [List.filter_cons_of_neg (by simpa using hne), ih hrest hmem]

/-- A fresh entry is the least occurrence after the registration. -/
theorem firing_of_entry (hfirst : c.nextAfter loc a₀ = some first)
    (hnext : s.nextRun job.name = some first)
    (honly : (s.jobs.filter fun j => j.name = job.name) = [job])
    (hundecided : s.loop.undecided = []) : Firing loc c job a₀ s s [] := by
  refine ⟨honly, ?_, by simp, fun _ => ⟨?_, ?_⟩⟩
  · rw [hundecided]
    simp
  · intro i a d htick
    simp [IsTick] at htick
  · intro _
    exact ⟨first, hnext, CronSchedule.nextAfter_isLeast (Int.natCast_nonneg a₀) hfirst⟩

theorem firing_of_registered (hschedule : job.schedule = some c)
    (hfirst : c.nextAfter loc a₀ = some first) (h : RegisteredAt loc job a₀ r) :
    Firing loc c job a₀ r r [] := by
  cases h with
  | @construct config table lastRun _ hc hjob =>
      have hagrees : JobSet.Agrees config (JobSet.construct loc config table lastRun a₀) :=
        JobSet.agrees_construct table lastRun a₀
      have hnodup := hagrees.nodup hc
      exact firing_of_entry hfirst
        (JobSet.construct_nextRun hnodup hjob (by simp [hschedule, hfirst]))
        (filter_of_nodup hnodup hjob) rfl
  | @add s t thread dbError hcall hfree hstep =>
      simp only [step, callStep, hcall] at hstep
      split_ifs at hstep with hterminated hlock
      cases hstep
      have hnone : (s.jobs.filter fun j => j.name = job.name) = [] := by
        refine List.filter_eq_nil_iff.mpr fun j hj => ?_
        simp only [decide_eq_true_eq]
        exact fun heq => hfree (heq ▸ List.mem_map_of_mem hj)
      refine firing_of_entry hfirst ?_ ?_ (undecided_of_lockFree hlock)
      · simp [JobSet.addJobUpdate, JobSet.setNextRun, hschedule, hfirst]
      · simp [JobSet.addJobUpdate, hnone]

/-- Over every run from the registration of a job, as long as it is not
unregistered, each tick looks at it once, at the time the tick has read from the
clock. It is due there exactly if an occurrence lies between the tick before and
this one; the entry after the tick is the least occurrence after it; a schedule
launch is made exactly if the job is due and has no live worker, and no other
step makes one. In particular every occurrence makes it due in exactly one tick. -/
theorem cron_firing_exact (hschedule : job.schedule = some c)
    (hfirst : c.nextAfter loc a₀ = some first) (hregistered : RegisteredAt loc job a₀ r)
    (hrun : Run (step loc) (fun s label => ∀ write ∈ s.writes label, write.name ≠ job.name)
      r labels s)
    (hticks : ((a₀ : Int) :: (looks loc job.name r labels).map Look.wall).Pairwise (· ≤ ·)) :
    let ds := looks loc job.name r labels
    r.loop.pending job.name ++ readings loc r labels =
      ds.map Look.wall ++ s.loop.pending job.name ∧
    (∀ i a d, IsTick a₀ ds i a d →
      (∀ j < i, ∀ e, ds[j]? = some e → e.after.nextRun job.name ≠ none) →
      (d.Due job.name ↔ ∃ t, a < t ∧ t ≤ d.wall ∧ c.Occurs loc t) ∧
      (∀ next, d.after.nextRun job.name = some next →
        IsLeast {u | d.wall < u ∧ c.Occurs loc u} next) ∧
      (d.Fires job ↔ d.Due job.name ∧ ¬ d.before.Live job.name) ∧
      (d.Fires job ∨ d.launches = [])) ∧
    s.dueLaunches job.name = r.dueLaunches job.name ++ ds.flatMap Look.launches ∧
    ((∀ d ∈ ds, d.after.nextRun job.name ≠ none) →
      (∃ next, s.nextRun job.name = some next ∧
        IsLeast {u | lastTick a₀ ds < u ∧ c.Occurs loc u} next) ∧
      ∀ t, c.Occurs loc t → a₀ < t → t ≤ lastTick a₀ ds →
        ∃! i, ∃ a d, IsTick a₀ ds i a d ∧ d.Due job.name ∧ a < t ∧ t ≤ d.wall) := by
  intro ds
  have hstart := firing_of_registered hschedule hfirst hregistered
  have hinv : Firing loc c job a₀ r s ds := by
    refine hrun.invariant_trace (I := fun s ds => Firing loc c job a₀ r s ds) ?_ hstart
    intro s label t ds h hkeep hstep
    exact h.step hschedule (Int.natCast_nonneg a₀) hkeep hstep
  obtain ⟨hexact, hentry⟩ := hinv.exact hticks
  refine ⟨looks_of_readings hrun hstart.jobs, fun i a d htick hkept => ?_, hinv.launches,
    fun hkept => ⟨hentry hkept, ?_⟩⟩
  · have hd := hexact i a d htick hkept
    exact ⟨hd.due, hd.next, hd.fires, hd.silent⟩
  · intro t ht hstart hlast
    have hpassed : ∃ w ∈ ds.map Look.wall, t ≤ w := by
      obtain heq | hmem := List.mem_cons.mp (List.getLast_mem (List.cons_ne_nil (a₀ : Int) _))
      · rw [lastTick, heq] at hlast
        omega
      · exact ⟨_, hmem, hlast⟩
    obtain ⟨i, ⟨lo, hi, hlo, hhi, hlt, hle⟩, huniq⟩ := existsUnique_interval hticks hstart hpassed
    obtain ⟨d, hd, rfl⟩ := Option.map_eq_some_iff.mp ((List.getElem?_map ..).symm.trans hhi)
    have hdecides := hexact i lo d ⟨hlo, hd⟩ fun j _ e he => hkept e (List.mem_of_getElem? he)
    refine ⟨i, ⟨lo, d, ⟨hlo, hd⟩, hdecides.due.mpr ⟨t, hlt, hle, ht⟩, hlt, hle⟩, ?_⟩
    rintro j ⟨a, e, ⟨ha, he⟩, _, hlt', hle'⟩
    exact huniq j ⟨a, e.wall, ha, by rw [List.getElem?_map, he]; rfl, hlt', hle'⟩

/-- A schedule that matches every minute of the zone `midnight`. -/
def minutely : CronSchedule := ⟨fun _ => {0, 1}, true, true⟩

/-- A job of this schedule. -/
def minutelyJob : Job := { name := text "a", command := text "true", schedule := some minutely }

/-- A scheduler constructed at the epoch, with this job only. -/
def minutelyOnly : State := initial midnight [minutelyJob] JobTable.empty (fun _ => none) 0

/-- Ticks at the epoch, in the second minute and in the third: the second makes
the launch, and the worker it has started keeps the third from making another. -/
def threeTicks : List Label :=
  .start :: List.replicate 10 .loop ++ .clock 89 :: List.replicate 12 .loop ++
    .clock 150 :: List.replicate 8 .loop

/-- The job is due in the second tick and launched, and due in the third and not
launched, since its worker is alive. -/
theorem cron_firing_exact_three_ticks :
    ∃ s d e, Run (step midnight) (fun s label => ∀ write ∈ s.writes label, write.name ≠ text "a")
        minutelyOnly threeTicks s ∧
      readings midnight minutelyOnly threeTicks = [0, 89, 150] ∧
      IsTick 0 (looks midnight (text "a") minutelyOnly threeTicks) 1 0 d ∧
      IsTick 0 (looks midnight (text "a") minutelyOnly threeTicks) 2 89 e ∧
      (∃ t, 0 < t ∧ t ≤ d.wall ∧ minutely.Occurs midnight t) ∧ d.Fires minutelyJob ∧
      (∃ t, 89 < t ∧ t ≤ e.wall ∧ minutely.Occurs midnight t) ∧ ¬ e.Fires minutelyJob ∧
      s.tasks.map (fun task => (task.job, task.trigger, task.thread)) =
        [(minutelyJob, .schedule, .joinable)] := by
  obtain ⟨s, hrun, hs⟩ := Run.of_exec_any (step midnight)
    (fun s label => ∀ write ∈ s.writes label, write.name ≠ text "a") minutelyOnly threeTicks
    (fun s => decide (s.tasks.map (fun task => (task.job, task.trigger, task.thread)) =
      [(minutelyJob, .schedule, .joinable)]))
    (by decide +kernel)
  have hlooks : (looks midnight (text "a") minutelyOnly threeTicks).map (fun d =>
      (d.wall, d.before.nextRun (text "a"), d.before.isRunning (text "a"),
        d.after.nextRun (text "a"))) =
      [(0, some 60, false, some 60), (89, some 60, false, some 120),
        (150, some 120, true, some 180)] := by
    decide +kernel
  obtain ⟨first, ds, hds, hfirst, hmore⟩ := List.map_eq_cons_iff.mp hlooks
  obtain ⟨d, ds', rfl, hd, hmore⟩ := List.map_eq_cons_iff.mp hmore
  obtain ⟨e, ds'', rfl, he, hnil⟩ := List.map_eq_cons_iff.mp hmore
  obtain rfl := List.map_eq_nil_iff.mp hnil
  simp only [Prod.mk.injEq] at hfirst hd he
  have hregistered : RegisteredAt midnight minutelyJob 0 minutelyOnly :=
    .construct (by decide) (by decide +kernel)
  have hentry : minutely.nextAfter midnight (0 : ℕ) = some 60 := by decide +kernel
  obtain ⟨_, hexact, _⟩ := cron_firing_exact rfl hentry hregistered hrun
    (by simp [minutelyJob, hds, hfirst, hd, he])
  have hsecond : IsTick 0 (looks midnight (text "a") minutelyOnly threeTicks) 1 0 d := by
    rw [hds]
    exact ⟨by simp [hfirst], rfl⟩
  have hthird : IsTick 0 (looks midnight (text "a") minutelyOnly threeTicks) 2 89 e := by
    rw [hds]
    exact ⟨by simp [hd], rfl⟩
  have hkept : ∀ i < 2, ∀ f, (looks midnight (text "a") minutelyOnly threeTicks)[i]? = some f →
      f.after.nextRun (text "a") ≠ none := by
    intro i hi f hf
    rw [hds] at hf
    obtain rfl | rfl : i = 0 ∨ i = 1 := by omega
    · cases hf
      simp [hfirst]
    · cases hf
      simp [hd]
  obtain ⟨hoccurs, _, hfires, _⟩ := hexact 1 0 d hsecond fun j hj => hkept j (by omega)
  obtain ⟨hlater, _, hspared, _⟩ := hexact 2 89 e hthird fun j hj => hkept j (by omega)
  have hdue : d.Due (text "a") := ⟨60, hd.2.1, by rw [hd.1]; decide⟩
  have hdue' : e.Due (text "a") := ⟨120, he.2.1, by rw [he.1]; decide⟩
  refine ⟨s, d, e, hrun, by decide +kernel, hsecond, hthird, hoccurs.mp hdue, hfires.mpr ⟨hdue, ?_⟩,
    hlater.mp hdue', fun hfires => (hspared.mp hfires).2 ?_, of_decide_eq_true hs⟩
  · exact fun hlive => absurd (isRunning_iff.mpr hlive) (by simp [minutelyJob, hd])
  · exact isRunning_iff.mp he.2.2.1

end Runs

end AgentPulse.Scheduler
