import AgentPulse.Jobs.Launches
import AgentPulse.Jobs.Occurrences
import AgentPulse.Jobs.PlannedRuns

/-!
# The policy of a job across sleep

After a sleep the loop sees a gap in the wall clock and scans for missed runs.
That scan reads the policy of each job. The due scan of the same tick does not:
a job whose schedule has an occurrence in the sleep is overdue, and is launched
whatever its policy is. So a job that ignores missed runs is spared exactly if
it is running when the due scan comes to it, or if it has no occurrence in the
sleep that the clock had not passed before.

## Implementation notes

The launches of a tick are those added to the launches so far since the tick
read the clock.
-/

namespace AgentPulse.Scheduler

open Transition

/-- The occurrences that a tick at `wall` takes to be slept through if the one
before it was at `prev`. -/
def SleptThrough (loc : LocalTime) (prev wall : Int) (schedule : Option CronSchedule) (t : Int) :
    Prop :=
  prev < t ∧ t + wakeGapSeconds < wall ∧ ∃ c ∈ schedule, c.Occurs loc t

instance (loc : LocalTime) (prev wall : Int) (schedule : Option CronSchedule) :
    DecidablePred (SleptThrough loc prev wall schedule) :=
  fun _ => inferInstanceAs (Decidable (_ ∧ _ ∧ _))

/-- An occurrence slept through is one of finitely many times. -/
instance (loc : LocalTime) (prev wall last : Int) (schedule : Option CronSchedule) :
    Decidable (∀ t, SleptThrough loc prev wall schedule t → t ≤ last) :=
  decidable_of_iff (∀ k < (wall - prev).toNat, SleptThrough loc prev wall schedule (prev + 1 + k) →
      prev + 1 + k ≤ last) (by
    constructor
    · intro h t ht
      have hbounds : prev < t ∧ t + 90 < wall := ⟨ht.1, ht.2.1⟩
      have heq : prev + 1 + ((t - prev - 1).toNat : ℤ) = t := by omega
      have hle := h (t - prev - 1).toNat (by omega)
      rw [heq] at hle
      exact hle ht
    · intro h k _ ht
      exact h _ ht)

/-- A job that ignores missed runs and is not running is considered: it has no
occurrence slept through, except those the clock had passed at a reading for
this job before. A request taken from the queue for such a job is not for an
occurrence slept through. -/
def LoopPc.Spares (loc : LocalTime) (prev wall : Int) (s : Observed) : LoopPc → Prop
  | .due _ (job :: _) _ =>
      job.missedRunPolicy = .none → s.1.isRunning job.name = false →
        ∀ t, SleptThrough loc prev wall job.schedule t → t ≤ s.2 job.name
  | .drain _ (entry :: _) _ _ =>
      ∀ job ∈ findJob s.1.jobs entry.name,
        job.missedRunPolicy = .none → s.1.isRunning entry.name = false →
          ∀ t ∈ s.1.tickets[entry.ticket]?.bind Ticket.occurrence,
            ¬ SleptThrough loc prev wall job.schedule t
  | _ => True

instance (loc : LocalTime) (prev wall : Int) (s : Observed) :
    DecidablePred (LoopPc.Spares loc prev wall s)
  | .due _ (_ :: _) _ => inferInstanceAs (Decidable (_ → _ → ∀ _, _))
  | .drain _ (_ :: _) _ _ => inferInstanceAs (Decidable (∀ job ∈ _, _))
  | .due _ [] _ | .drain _ [] _ _ | .idle | .top | .join _ | .wall | .scan _ _ | .lock _
  | .launch _ | .startThread _ _ | .publish | .setJobs _ | .exited =>
      inferInstanceAs (Decidable True)

/-- The tick spares every job that ignores missed runs. -/
def SparesOverdue (loc : LocalTime) (prev wall : Int) (s : Observed) (label : Label) : Prop :=
  label = .loop → s.1.loop.Spares loc prev wall s

/-- The next step of the loop ends the tick. -/
def LoopPc.endsTick : LoopPc → Bool
  | .setJobs _ => true
  | _ => false

/-- The step does not end the tick. -/
def WithinTick (s : State) (label : Label) : Prop := label = .loop → s.loop.endsTick = false

instance (loc : LocalTime) (prev wall : Int) (s : Observed) (label : Label) :
    Decidable (SparesOverdue loc prev wall s label) :=
  inferInstanceAs (Decidable (_ → _))

instance (s : State) (label : Label) : Decidable (WithinTick s label) :=
  inferInstanceAs (Decidable (_ → _))

/-- A launch of a job that ignores missed runs counts for no occurrence slept
through. -/
def Honours (loc : LocalTime) (prev wall : Int) (tickets : List Ticket) (entry : LaunchEntry) :
    Prop :=
  entry.job.missedRunPolicy = .none →
    ∀ t, SleptThrough loc prev wall entry.job.schedule t → ¬ entry.cause.CountsFor tickets t

/-- The loop is in the tick of the given time. -/
def LoopPc.InTick (wall : Int) : LoopPc → Prop
  | .scan time _ | .lock time | .drain time _ _ _ | .due time _ _ => time = wall
  | .launch _ | .startThread _ _ | .publish | .setJobs _ => True
  | _ => False

section Runs

variable {loc : LocalTime} {prev wall : Int} {s t : State} {seen : Bytes → Int}
  {entry : LaunchEntry}

/-- A launch that is spared counts for no occurrence slept through. -/
theorem Launches.honours (h : Launches s entry) (hahead : Ahead s seen)
    (hspares : s.loop.Spares loc prev wall (s, seen)) : Honours loc prev wall s.tickets entry := by
  cases h with
  | request w queued rest deferred toLaunch job hloop hfind hlive =>
      rw [hloop] at hspares
      intro hpolicy time hslept hcounts
      exact hspares job hfind hpolicy hlive time hcounts hslept
  | due w job rest toLaunch next hloop hnext hlive =>
      rw [hloop] at hspares
      intro hpolicy time hslept hcounts
      have hread : time ≤ seen job.name := hspares hpolicy hlive time hslept
      exact absurd (hahead.ahead job.name next hnext) (not_lt.mpr (hcounts.1.trans hread))

/-- A launch decided on for a request belongs to a ticket. -/
theorem Launches.known (h : Launches s entry) (haccounted : Accounted s.requests) (k : Nat)
    (hcause : entry.cause = .request k) : ∃ ticket, s.tickets[k]? = some ticket := by
  cases h with
  | request w queued rest deferred toLaunch job hloop hfind hlive =>
      cases hcause
      have hwaiting : queued ∈ s.requests.waiting := by
        simp [State.requests, State.waiting, hloop]
      obtain ⟨ticket, hget, _⟩ := haccounted.waiting queued hwaiting
      exact ⟨ticket, hget⟩
  | due w job rest toLaunch next hloop hnext hlive => cases hcause

/-- A launch that counts for an occurrence counts for it with later tickets. -/
theorem Cause.CountsFor.later {cause : Cause} {tickets tickets' : List Ticket} {time : Int}
    (h : cause.CountsFor tickets time) (hgrows : tickets <+: tickets') :
    cause.CountsFor tickets' time := by
  cases cause with
  | due lo hi => exact h
  | request k =>
      obtain ⟨rest, rfl⟩ := hgrows
      obtain ⟨ticket, hget, hoccurrence⟩ := Option.bind_eq_some_iff.mp h
      have hlt := (List.getElem?_eq_some_iff.mp hget).1
      exact Option.bind_eq_some_iff.mpr
        ⟨ticket, (List.getElem?_append_left hlt).trans hget, hoccurrence⟩

/-- Later tickets do not change what a launch counts for. -/
theorem Honours.later {tickets tickets' : List Ticket} (h : Honours loc prev wall tickets entry)
    (hgrows : tickets <+: tickets')
    (hknown : ∀ k, entry.cause = .request k → ∃ ticket, tickets[k]? = some ticket) :
    Honours loc prev wall tickets' entry := by
  intro hpolicy time hslept hcounts
  apply h hpolicy time hslept
  cases hcause : entry.cause with
  | due lo hi =>
      rw [hcause] at hcounts
      exact hcounts
  | request k =>
      obtain ⟨ticket, hget⟩ := hknown k hcause
      obtain ⟨rest, rfl⟩ := hgrows
      rw [hcause] at hcounts
      simp only [Cause.CountsFor] at hcounts ⊢
      rwa [List.getElem?_append_left (List.getElem?_eq_some_iff.mp hget).1] at hcounts

/-- A launch that answers a request has its ticket. -/
theorem Accounted.known (h : Accounted s.requests) (hmem : entry ∈ s.launchEntries) (k : Nat)
    (hcause : entry.cause = .request k) : ∃ ticket, s.tickets[k]? = some ticket := by
  have hplaced : (⟨k, entry.job, entry.trigger⟩ : Placement) ∈ s.requests.placements := by
    apply List.mem_filterMap.mpr
    refine ⟨entry, hmem, ?_⟩
    simp [LaunchEntry.placement, hcause]
  obtain ⟨ticket, hget, _⟩ := h.placed _ hplaced
  exact ⟨ticket, hget⟩

/-- What a tick has launched so far, after the launches before it. -/
structure TickHonours (loc : LocalTime) (prev wall : Int) (before : List LaunchEntry) (s : State) :
    Prop where
  accounted : Accounted s.requests
  grown : before <+: s.launchEntries
  honours : ∀ entry ∈ s.launchEntries.drop before.length, Honours loc prev wall s.tickets entry

theorem TickHonours.step {before : List LaunchEntry} (h : TickHonours loc prev wall before s)
    {label : Label} (hahead : Ahead s seen)
    (hspares : SparesOverdue loc prev wall (s, seen) label)
    (hstep : step loc s label = some t) : TickHonours loc prev wall before t := by
  have hmove := step_requests hstep
  have hgrows : s.tickets <+: t.tickets := (h.accounted.step hmove).1
  have hlater : ∀ entry ∈ s.launchEntries, Honours loc prev wall s.tickets entry →
      Honours loc prev wall t.tickets entry := by
    intro entry hmem honours
    exact honours.later hgrows (h.accounted.known hmem)
  obtain ⟨new, hnew⟩ := h.grown
  have hdrop : s.launchEntries.drop before.length = new := by
    rw [← hnew, List.drop_left]
  have hold : ∀ entry ∈ new, Honours loc prev wall t.tickets entry := by
    intro entry hmem
    apply hlater entry
    · rw [← hnew]
      exact List.mem_append_right _ hmem
    · exact h.honours entry (hdrop ▸ hmem)
  refine ⟨h.accounted.move hmove, ?_, ?_⟩
  · obtain heq | ⟨_, launch, _, heq⟩ := step_launches hstep
    · rw [heq]
      exact h.grown
    · rw [heq]
      exact h.grown.trans (List.prefix_append _ _)
  · obtain heq | ⟨hloop, launch, hlaunch, heq⟩ := step_launches hstep
    · rw [heq, hdrop]
      exact hold
    · rw [heq, ← hnew, List.append_assoc, List.drop_left]
      intro entry hmem
      obtain hmem | hmem := List.mem_append.mp hmem
      · exact hold entry hmem
      · rw [List.mem_singleton.mp hmem]
        have honours := hlaunch.honours hahead (hspares hloop)
        exact honours.later hgrows (hlaunch.known h.accounted)

/-- What a run adds to the launches and the tickets. -/
structure Extends (v s : State) : Prop where
  accounted : Accounted s.requests
  launches : v.launchEntries <+: s.launchEntries
  tickets : v.tickets <+: s.tickets

theorem Extends.step {v : State} (h : Extends v s) {label : Label}
    (hstep : step loc s label = some t) : Extends v t := by
  have hmove := step_requests hstep
  refine ⟨h.accounted.move hmove, h.launches.trans ?_, h.tickets.trans (h.accounted.step hmove).1⟩
  obtain heq | ⟨_, launch, _, heq⟩ := step_launches hstep
  · rw [heq]
  · rw [heq]
    exact List.prefix_append _ _

/-- A step within a tick stays in it. -/
theorem step_inTick {label : Label} (h : s.loop.InTick wall) (hwithin : WithinTick s label)
    (hstep : step loc s label = some t) : t.loop.InTick wall := by
  cases step_cases hstep with
  | clock | active | notifyWake => exact h
  | start hactive hloop =>
      rw [hloop] at h
      exact h.elim
  | stop hstep =>
      cases hstep with
      | joinLoop hstopper hloop =>
          rw [hloop] at h
          exact h.elim
      | _ => exact h
  | starter next hscan =>
      obtain ⟨_, _, _, _, rfl⟩ := scanStep_frame hscan
      exact h
  | begin thread call hstep =>
      obtain ⟨_, _, rfl⟩ := hstep.frame
      exact h
  | call thread dbError hstep =>
      obtain ⟨_, _, _, _, _, _, rfl⟩ := hstep.frame
      exact h
  | worker id outcome dbOk hstep =>
      obtain ⟨_, _, _, _, _, _, _⟩ := hstep
      exact h
  | loop hstep =>
      cases hstep with
      | setJobs statuses hloop =>
          have hends := hwithin rfl
          rw [hloop] at hends
          cases hends
      | scan time pc next hloop hscan =>
          rw [hloop] at h
          simp only
          split_ifs
          · exact h
          · exact h
      | exit hloop | reap hloop | joined hloop | join _ _ hloop | gap hloop | wake hloop
      | awake hloop =>
          rw [hloop] at h
          exact h.elim
      | lock time hloop | drained time _ _ hloop | drop time _ _ _ _ hloop
      | defer time _ _ _ _ hloop | place time _ _ _ _ _ hloop | unscheduled time _ _ _ hloop
      | unplanned time _ _ _ _ hloop | later time _ _ _ _ _ hloop
      | overlap time _ _ _ _ _ hloop | fire time _ _ _ _ _ hloop =>
          rw [hloop] at h
          exact h
      | decided | launched | launch | startThread | publish => trivial

/-- A job that ignores missed runs, is not running and has an occurrence slept
through that was not read before is launched for it. -/
theorem launches_overdue (hplan : PlanKept loc (s, seen)) (hsearch : Searchable loc s)
    (hstep : step loc s .loop = some t) {job : Job} {rest : List Job}
    {toLaunch : List LaunchEntry} (hloop : s.loop = .due wall (job :: rest) toLaunch)
    (hidle : s.isRunning job.name = false) {occurrence : Int} (hread : seen job.name < occurrence)
    (hslept : SleptThrough loc prev wall job.schedule occurrence) :
    ∃ next, t.launchEntries = s.launchEntries ++ [⟨job, .schedule, .due next wall⟩] ∧
      next ≤ occurrence ∧ occurrence ≤ wall := by
  obtain ⟨_, hgap, c, hc, hoccurs⟩ := hslept
  have hle : occurrence ≤ wall := by
    have : (90 : Int) = wakeGapSeconds := rfl
    omega
  have hmem : job ∈ s.jobs := hplan.ahead.undecided job (by simp [hloop])
  obtain ⟨next, hnext, hfirst⟩ := hplan.planned hsearch job hmem c hc occurrence hread hoccurs
  refine ⟨next, ?_, hfirst, hle⟩
  rw [dueJob_of_step hloop hstep, dueJob_due hc hnext (hfirst.trans hle)]
  simp [State.launchEntries, hloop, hidle]

/-- A missed request for an idle job is launched for its occurrence. -/
theorem launches_request (hstep : step loc s .loop = some t) {time : Int} {queued : QueueEntry}
    {rest deferred : List QueueEntry} {toLaunch : List LaunchEntry} {job : Job}
    (hloop : s.loop = .drain time (queued :: rest) deferred toLaunch)
    (hfind : findJob s.jobs queued.name = some job) (hidle : s.isRunning queued.name = false) :
    t.launchEntries = s.launchEntries ++ [⟨job, queued.trigger, .request queued.ticket⟩] := by
  unfold step at hstep
  split_ifs at hstep
  simp only [loopStep, hloop, Option.some.injEq] at hstep
  subst hstep
  simp [State.launchEntries, State.drainEntry, hloop, hfind, hidle]

end Runs

/-- The jobs a scan has before it. -/
def ScanPc.jobs : ScanPc → List Job
  | .read _ rest => rest
  | .check _ job _ rest | .alert _ job _ rest | .enqueue _ job _ rest => job :: rest
  | _ => []

/-- No scan has a job of the name before it, and no request for it is for a missed
occurrence. -/
structure MissedFree (name : Bytes) (s : State) : Prop where
  starter : ∀ job ∈ s.starter.jobs, job.name ≠ name
  loop : ∀ job ∈ s.loop.scanPc.jobs, job.name ≠ name
  tickets : missedOf name s.tickets = []

section Missed

variable {loc : LocalTime} {name : Bytes} {s t m : State} {pc next : ScanPc}

/-- A scan takes up no job of a name whose jobs ignore missed runs. -/
theorem scanStep_missedFree (h : scanStep loc s pc = some (m, next))
    (hjobs : ∀ job ∈ s.jobs, job.name = name → job.missedRunPolicy = .none)
    (hpc : ∀ job ∈ pc.jobs, job.name ≠ name) (htickets : missedOf name s.tickets = []) :
    (∀ job ∈ next.jobs, job.name ≠ name) ∧ missedOf name m.tickets = [] := by
  cases scanStep_cases h with
  | start | finish => exact ⟨by simp [ScanPc.jobs], htickets⟩
  | snapshot now hfree =>
      refine ⟨fun job hjob hname => ?_, htickets⟩
      obtain ⟨hmem, hcandidate⟩ := List.mem_filter.mp hjob
      simp [isCandidate, hjobs job hmem hname] at hcandidate
  | read now job rest hfree => exact ⟨hpc, htickets⟩
  | current now job lastRunTs rest hnone =>
      exact ⟨fun j hj => hpc j (List.mem_cons_of_mem _ hj), htickets⟩
  | missed now job lastRunTs rest missed hmissed hfree =>
      refine ⟨?_, htickets⟩
      split_ifs
      · exact hpc
      · exact fun j hj => hpc j (List.mem_cons_of_mem _ hj)
  | alert now job missed rest => exact ⟨hpc, htickets⟩
  | enqueue now job missed rest hfree =>
      have hne : job.name ≠ name := hpc job List.mem_cons_self
      refine ⟨fun j hj => hpc j (List.mem_cons_of_mem _ hj), ?_⟩
      simpa [State.enqueue, missedOf, hne] using htickets

theorem MissedFree.undisturbed (h : MissedFree name s)
    (htickets : missedOf name t.tickets = missedOf name s.tickets)
    (hstarter : t.starter = s.starter ∨ s.starter = .idle ∧ t.starter = .start)
    (hloop : t.loop.scanPc = s.loop.scanPc ∨ s.loop.scanPc = .idle ∧ t.loop.scanPc = .start) :
    MissedFree name t := by
  refine ⟨?_, ?_, htickets.trans h.tickets⟩
  · obtain heq | ⟨_, heq⟩ := hstarter
    · rw [heq]
      exact h.starter
    · simp [heq, ScanPc.jobs]
  · obtain heq | ⟨_, heq⟩ := hloop
    · rw [heq]
      exact h.loop
    · rw [heq]
      simp [ScanPc.jobs]

theorem MissedFree.step (h : MissedFree name s)
    (hjobs : ∀ job ∈ s.jobs, job.name = name → job.missedRunPolicy = .none) {label : Label}
    (hstep : step loc s label = some t) : MissedFree name t := by
  by_cases hkept : KeepsJob name s label
  · by_cases hstarter : label = .starter
    · subst hstarter
      obtain ⟨m, next, hscan, rfl⟩ := starter_scans hstep
      obtain ⟨hnext, htickets⟩ := scanStep_missedFree hscan hjobs h.starter h.tickets
      obtain ⟨_, _, _, _, rfl⟩ := scanStep_frame hscan
      exact ⟨hnext, h.loop, htickets⟩
    · by_cases hscanning : label = .loop ∧ ∃ wall pc, s.loop = .scan wall pc
      · obtain ⟨rfl, wall, pc, hloop⟩ := hscanning
        obtain ⟨m, next, hscan, rfl⟩ := loop_scans hloop hstep
        have hpc : ∀ job ∈ pc.jobs, job.name ≠ name := by simpa [hloop] using h.loop
        obtain ⟨hnext, htickets⟩ := scanStep_missedFree hscan hjobs hpc h.tickets
        obtain ⟨_, _, _, _, rfl⟩ := scanStep_frame hscan
        refine ⟨h.starter, ?_, htickets⟩
        simp only
        split_ifs
        · simp [ScanPc.jobs]
        · exact hnext
      · have hundisturbed := step_undisturbed hstep hkept hstarter
          fun hlabel wall pc hloop => hscanning ⟨hlabel, wall, pc, hloop⟩
        exact h.undisturbed hundisturbed.tickets hundisturbed.starter hundisturbed.loop
  · cases label with
    | call thread dbError =>
        cases step_cases hstep with
        | call _ _ hcall =>
            cases hcall with
            | enqueue n hcall => simp [KeepsJob, State.writes, hcall] at hkept
            | _ => exact ⟨h.starter, h.loop, h.tickets⟩
    | _ => simp [KeepsJob, State.writes] at hkept

/-- If every job ever registered under the name ignores missed runs, no request
for it is for a missed occurrence. -/
theorem no_missed_request {config : List Job} {table : JobTable}
    {lastRun : Bytes → Option RunRecord} {now : ℕ} {labels : List Label}
    (h : Run (step loc)
      (fun s _ => ∀ job ∈ s.jobs, job.name = name → job.missedRunPolicy = .none)
      (initial loc config table lastRun now) labels s) : missedOf name s.tickets = [] := by
  have hinv : MissedFree name s := by
    refine h.invariant (fun s label t hinv hok hstep => hinv.step hok hstep) ?_
    constructor <;> simp [initial, ScanPc.jobs, missedOf]
  exact hinv.tickets

end Missed

section Ticks

variable {loc : LocalTime} {config : List Job} {table : JobTable}
  {lastRun : Bytes → Option RunRecord} {now : ℕ} {r s u v : Observed} {before labels : List Label}

/-- A tick that spares every job that ignores missed runs makes no launch of one
for an occurrence slept through. -/
theorem honours_of_spares
    (hbefore : Run (observed loc) free (observedInitial loc config table lastRun now) before r)
    (htick : Run (observed loc) (SparesOverdue loc r.1.lastWall r.1.clock) r labels s) :
    ∀ entry ∈ s.1.launchEntries.drop r.1.launchEntries.length,
      Honours loc r.1.lastWall r.1.clock s.1.tickets entry := by
  have hfree : Run (step loc) free (observedInitial loc config table lastRun now).1 before r.1 :=
    Run.unobserved hbefore
  have haccounted : Accounted r.1.requests := accounted_of_reachable ⟨before, hfree⟩
  have hend : Ahead s.1 s.2 ∧ TickHonours loc r.1.lastWall r.1.clock r.1.launchEntries s.1 := by
    refine htick.invariant (I := fun s : Observed =>
      Ahead s.1 s.2 ∧ TickHonours loc r.1.lastWall r.1.clock r.1.launchEntries s.1) ?_ ?_
    · rintro s label t ⟨hahead, htick⟩ hspares hstep
      obtain ⟨hstep, hseen⟩ := observe_eq_some_iff.mp hstep
      exact ⟨hseen ▸ hahead.step hstep, htick.step hahead hspares hstep⟩
    · exact ⟨ahead_of_run hbefore, haccounted, List.prefix_refl _, by simp⟩
  exact hend.2.honours

theorem extends_of_run {ok : Observed → Label → Prop} (h : Run (observed loc) ok u labels v)
    (hu : Accounted u.1.requests) : Extends u.1 v.1 := by
  refine h.invariant (I := fun v : Observed => Extends u.1 v.1) ?_
    ⟨hu, List.prefix_refl _, List.prefix_refl _⟩
  intro v label w hinv _ hstep
  exact hinv.step (observe_eq_some_iff.mp hstep).1

/-- A launch that counts for an occurrence slept through is there at the end. -/
theorem not_honours {launch : LaunchEntry} {occurrence : Int} (hu : Extends r.1 u.1)
    (hv : v.1.launchEntries = u.1.launchEntries ++ [launch]) (hs : Extends v.1 s.1)
    (hpolicy : launch.job.missedRunPolicy = .none)
    (hslept : SleptThrough loc r.1.lastWall r.1.clock launch.job.schedule occurrence)
    (hcounts : launch.cause.CountsFor s.1.tickets occurrence) :
    ¬ ∀ entry ∈ s.1.launchEntries.drop r.1.launchEntries.length,
      Honours loc r.1.lastWall r.1.clock s.1.tickets entry := by
  intro honours
  obtain ⟨old, hold⟩ := hu.launches
  obtain ⟨new, hnew⟩ := hs.launches
  refine honours launch ?_ hpolicy occurrence hslept hcounts
  rw [← hnew, hv, ← hold, List.append_assoc, List.append_assoc, List.drop_left]
  simp

/-- The loop step is spared if the launches at the end, its own among them, count
for no occurrence slept through. -/
theorem spares_of_launches (hplan : PlanKept loc u) (hsearch : Searchable loc u.1)
    (hu : Extends r.1 u.1) (hin : u.1.loop.InTick r.1.clock)
    (hstep : step loc u.1 .loop = some v.1) (hs : Extends v.1 s.1)
    (honours : ∀ entry ∈ s.1.launchEntries.drop r.1.launchEntries.length,
      Honours loc r.1.lastWall r.1.clock s.1.tickets entry) :
    u.1.loop.Spares loc r.1.lastWall r.1.clock u := by
  cases hloop : u.1.loop with
  | due wall undecided toLaunch =>
      cases undecided with
      | nil => trivial
      | cons job undecided =>
          intro hpolicy hidle occurrence hslept
          by_contra hread
          rw [hloop] at hin
          obtain rfl : wall = r.1.clock := hin
          obtain ⟨next, hlaunches, hfirst, hlast⟩ :=
            launches_overdue hplan hsearch hstep hloop hidle (not_le.mp hread) hslept
          exact not_honours hu hlaunches hs hpolicy hslept ⟨hfirst, hlast⟩ honours
  | drain wall waiting deferred toLaunch =>
      cases waiting with
      | nil => trivial
      | cons queued waiting =>
          intro job hfind hpolicy hidle occurrence hoccurrence hslept
          have hlaunches := launches_request hstep hloop hfind hidle
          have hcounts : (Cause.request queued.ticket).CountsFor u.1.tickets occurrence :=
            hoccurrence
          have hgrows : u.1.tickets <+: s.1.tickets :=
            (Extends.step ⟨hu.accounted, List.prefix_refl _, List.prefix_refl _⟩
              hstep).tickets.trans hs.tickets
          exact not_honours hu hlaunches hs hpolicy hslept (hcounts.later hgrows) honours
  | _ => trivial

/-- The reading of the clock begins a tick. -/
theorem inTick_of_read {s t : State} (hwall : s.loop = .wall) (h : step loc s .loop = some t) :
    t.loop.InTick s.clock := by
  unfold step at h
  split_ifs at h
  simp only [loopStep, hwall, Option.some.injEq] at h
  rw [← h]
  unfold State.readWall
  simp only
  split_ifs <;> rfl

/-- A tick that makes no launch of a job that ignores missed runs for an
occurrence slept through spares every such job. -/
theorem spares_of_honours
    (hbefore : Run (observed loc) (fun s _ => Searchable loc s.1)
      (observedInitial loc config table lastRun now) before r)
    (hwall : r.1.loop = .wall)
    (htick : Run (observed loc) (fun s label => WithinTick s.1 label ∧ Searchable loc s.1) r
      (.loop :: labels) s)
    (honours : ∀ entry ∈ s.1.launchEntries.drop r.1.launchEntries.length,
      Honours loc r.1.lastWall r.1.clock s.1.tickets entry) :
    Run (observed loc) (SparesOverdue loc r.1.lastWall r.1.clock) r (.loop :: labels) s := by
  have hsearched : Run (step loc) (fun s _ => Searchable loc s)
      (observedInitial loc config table lastRun now).1 before r.1 := Run.unobserved hbefore
  have haccounted : Accounted r.1.requests :=
    accounted_of_reachable ⟨before, hsearched.mono fun _ _ _ => trivial⟩
  have hstart : SparesOverdue loc r.1.lastWall r.1.clock r .loop := by
    intro _
    rw [hwall]
    trivial
  cases htick with
  | @cons _ m _ _ _ hok hread tail =>
  have hplan : PlanKept loc m := (planKept_of_run hbefore).step hok.2 hread
  have hextends : Extends r.1 m.1 :=
    extends_of_run (Run.cons trivial hread (Run.nil m) : Run (observed loc) free r [.loop] m)
      haccounted
  have hin : m.1.loop.InTick r.1.clock := inTick_of_read hwall (observe_eq_some_iff.mp hread).1
  refine Run.cons hstart hread (tail.strengthen (I := fun u : Observed =>
    PlanKept loc u ∧ Extends r.1 u.1 ∧ u.1.loop.InTick r.1.clock) ⟨hplan, hextends, hin⟩ ?_ ?_)
  · rintro u label v ⟨hplan, hextends, hin⟩ ⟨hwithin, hsearch⟩ hstep
    have hinner := (observe_eq_some_iff.mp hstep).1
    exact ⟨hplan.step hsearch hstep, hextends.step hinner, step_inTick hin hwithin hinner⟩
  · rintro u label v rest ⟨hplan, hextends, hin⟩ ⟨_, hsearch⟩ hstep hrest rfl
    have hinner := (observe_eq_some_iff.mp hstep).1
    have hv : Extends r.1 v.1 := hextends.step hinner
    have hs : Extends v.1 s.1 := extends_of_run hrest hv.accounted
    exact spares_of_launches hplan hsearch hextends hin hinner hs honours

/-- In every tick of every run: if it spares every job whose policy is to ignore
missed runs, no launch of such a job counts for an occurrence after the clock
reading before the tick and more than the wake gap before its own. If the names
of the jobs are unique and no search misses an occurrence, this is also the only
way not to make such a launch. A tick with no gap has no such occurrence. -/
theorem none_policy_honoured
    (hbefore : Run (observed loc) free (observedInitial loc config table lastRun now) before r)
    (hwall : r.1.loop = .wall)
    (htick : Run (observed loc) (fun s label => WithinTick s.1 label) r (.loop :: labels) s) :
    (Run (observed loc) (SparesOverdue loc r.1.lastWall r.1.clock) r (.loop :: labels) s →
      ∀ entry ∈ s.1.launchEntries.drop r.1.launchEntries.length,
        Honours loc r.1.lastWall r.1.clock s.1.tickets entry) ∧
    (Run (observed loc) (fun s _ => Searchable loc s.1)
        (observedInitial loc config table lastRun now) before r →
      Run (observed loc) (fun s _ => Searchable loc s.1) r (.loop :: labels) s →
      (∀ entry ∈ s.1.launchEntries.drop r.1.launchEntries.length,
        Honours loc r.1.lastWall r.1.clock s.1.tickets entry) →
      Run (observed loc) (SparesOverdue loc r.1.lastWall r.1.clock) r (.loop :: labels) s) :=
  ⟨honours_of_spares hbefore, fun hsearched hsearch honours =>
    spares_of_honours hsearched hwall (htick.and hsearch) honours⟩

end Ticks

/-- A zone with minutes in which it is always the first hour of the year. -/
def minutesOnly : LocalTime := fun t => ⟨t / 60 % 60, 0, 1, 0, 4⟩

/-- A job of the third minute of every hour that ignores missed runs. -/
def thirdMinute : Job :=
  { name := text "a"
    command := text "true"
    schedule := some ⟨fun i => if i = 0 then {3} else {0, 1}, true, true⟩ }

/-- A job of the tenth minute of every hour that ignores missed runs. -/
def tenthMinute : Job :=
  { name := text "b"
    command := text "true"
    schedule := some ⟨fun i => if i = 0 then {10} else {0, 1}, true, true⟩ }

/-- In this zone an hour is enough for a search to find an occurrence. -/
theorem horizonReaches_minutesOnly {a : Int} (ha : 0 ≤ a) : HorizonReaches minutesOnly a := by
  intro c t hlt ⟨hdvd, hmatch⟩ hnone
  have hspan : (60 : Int) * CronSchedule.maxMinutes = 126489600 := by decide
  have hzone : minutesOnly (t - 3600 * ((t - a - 1) / 3600)) = minutesOnly t := by
    have hminute : (t - 3600 * ((t - a - 1) / 3600)) / 60 % 60 = t / 60 % 60 := by omega
    simp [minutesOnly, hminute]
  refine (CronSchedule.nextAfter_eq_none_iff ha).mp hnone (t - 3600 * ((t - a - 1) / 3600))
    (by omega) (by omega) ⟨by omega, ?_⟩
  rw [hzone]
  exact hmatch

/-- What makes a state of this zone searchable. -/
theorem searchable_minutesOnly {s : State}
    (h : (s.jobs.map Job.name).Nodup ∧ ∀ wall ∈ s.loop.tick, 0 ≤ wall) :
    Searchable minutesOnly s :=
  ⟨h.1, horizonReaches_minutesOnly (Int.natCast_nonneg _),
    fun wall hwall => horizonReaches_minutesOnly (h.2 wall hwall)⟩

/-- The job of the third minute is started by hand at the epoch, and the next
clock reading is in the tenth minute. -/
def asleepWhileRunning : List Label :=
  .start :: requestRun ++ List.replicate 14 .loop ++ .clock 600 :: List.replicate 2 .loop

/-- The machine sleeps through the third minute while the job of that minute is
running, and wakes in the tenth minute, whose job it runs. -/
theorem none_policy_honoured_running :
    ∃ r s : Observed, Run (observed minutesOnly) free
        (observedInitial minutesOnly [thirdMinute, tenthMinute] JobTable.empty (fun _ => none) 0)
        asleepWhileRunning r ∧
      r.1.clock - r.1.lastWall > wakeGapSeconds ∧ r.1.Alive 0 thirdMinute.name ∧
      SleptThrough minutesOnly r.1.lastWall r.1.clock thirdMinute.schedule 180 ∧
      s.1.launchEntries.drop r.1.launchEntries.length =
        [⟨tenthMinute, .schedule, .due 600 600⟩] ∧
      (∀ entry ∈ s.1.launchEntries.drop r.1.launchEntries.length,
        Honours minutesOnly r.1.lastWall r.1.clock s.1.tickets entry) ∧
      Run (observed minutesOnly) (SparesOverdue minutesOnly r.1.lastWall r.1.clock) r
        (List.replicate 12 .loop) s := by
  obtain ⟨r, hbefore, hr⟩ := Run.of_exec_any (observed minutesOnly)
    (fun s _ => (s.1.jobs.map Job.name).Nodup ∧ ∀ wall ∈ s.1.loop.tick, 0 ≤ wall)
    (observedInitial minutesOnly [thirdMinute, tenthMinute] JobTable.empty (fun _ => none) 0)
    asleepWhileRunning
    (fun r : Observed => decide (r.1.loop = .wall ∧ r.1.clock - r.1.lastWall > wakeGapSeconds ∧
        SleptThrough minutesOnly r.1.lastWall r.1.clock thirdMinute.schedule 180) &&
      (r.1.tasks[0]?.any fun task : Task =>
        task.job.name = thirdMinute.name && task.thread ≠ .unstarted && !task.done) &&
      (exec (observed minutesOnly) (fun s label => (WithinTick s.1 label ∧
          SparesOverdue minutesOnly r.1.lastWall r.1.clock s label) ∧
          (s.1.jobs.map Job.name).Nodup ∧ ∀ wall ∈ s.1.loop.tick, 0 ≤ wall)
        r (List.replicate 12 .loop)).any fun s : Observed =>
          decide (s.1.launchEntries.drop r.1.launchEntries.length =
            [⟨tenthMinute, .schedule, .due 600 600⟩]))
    (by decide +kernel)
  simp only [Bool.and_eq_true, decide_eq_true_eq] at hr
  obtain ⟨⟨⟨hwall, hgap, hslept⟩, htask⟩, hlater⟩ := hr
  obtain ⟨s, htick, hs⟩ := Run.of_exec_any _ _ r _ _ hlater
  have halive : r.1.Alive 0 thirdMinute.name := by
    obtain ⟨task, hget, htask⟩ := (Option.any_eq_true _ _).mp htask
    exact ⟨task, hget, by simpa [and_assoc] using htask⟩
  obtain ⟨hhonours, hspares⟩ := none_policy_honoured (hbefore.mono fun _ _ _ => trivial) hwall
    (htick.mono fun _ _ hok => hok.1.1)
  have honours := hhonours (htick.mono fun _ _ hok => hok.1.2)
  exact ⟨r, s, hbefore.mono fun _ _ _ => trivial, hgap, halive, hslept, of_decide_eq_true hs,
    honours, hspares (hbefore.mono fun _ _ hok => searchable_minutesOnly hok)
      (htick.mono fun _ _ hok => searchable_minutesOnly hok.2) honours⟩

/-- A scheduler with this job, started at the epoch and about to read the clock
at a later time. -/
def beforeReading (time : ℕ) : List Label := [.start, .loop, .loop, .clock time]

/-- A wake in the tenth minute runs the job for the third one, although its
policy is to ignore missed runs. -/
theorem none_policy_runs_slept_through :
    ∃ r m s, Reachable (step minutesOnly)
        (initial minutesOnly [thirdMinute] JobTable.empty (fun _ => none) 0) r ∧
      r.loop = .wall ∧ r.clock - r.lastWall > wakeGapSeconds ∧
      step minutesOnly r .loop = some m ∧
      Run (step minutesOnly) WithinTick m (List.replicate 9 .loop) s ∧
      ∃ entry ∈ s.launchEntries.drop r.launchEntries.length,
        entry = ⟨thirdMinute, .schedule, .due 180 600⟩ ∧
        ¬ Honours minutesOnly r.lastWall r.clock s.tickets entry := by
  obtain ⟨r, hbefore, hr⟩ := Run.of_exec_any (step minutesOnly) free
    (initial minutesOnly [thirdMinute] JobTable.empty (fun _ => none) 0) (beforeReading 600)
    (fun r => decide (r.loop = .wall ∧ r.clock - r.lastWall > wakeGapSeconds) &&
      (step minutesOnly r .loop).any fun m => (exec (step minutesOnly) WithinTick m
        (List.replicate 9 .loop)).any fun s : State =>
          decide (⟨thirdMinute, .schedule, .due 180 600⟩ ∈
            s.launchEntries.drop r.launchEntries.length ∧
            SleptThrough minutesOnly r.lastWall r.clock thirdMinute.schedule 180))
    (by decide +kernel)
  obtain ⟨hwake, hlater⟩ := Bool.and_eq_true_iff.mp hr
  obtain ⟨hwall, hgap⟩ := of_decide_eq_true hwake
  obtain ⟨m, hread, hm⟩ := (Option.any_eq_true _ _).mp hlater
  obtain ⟨s, htick, hs⟩ := Run.of_exec_any _ _ m _ _ hm
  obtain ⟨hmem, hslept⟩ := of_decide_eq_true hs
  refine ⟨r, m, s, ⟨_, hbefore⟩, hwall, hgap, hread, htick, _, hmem, rfl, ?_⟩
  intro honours
  exact honours rfl 180 hslept ⟨le_refl _, by decide⟩

end AgentPulse.Scheduler
