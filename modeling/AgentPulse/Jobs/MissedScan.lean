import AgentPulse.Jobs.CronFiring
import AgentPulse.Jobs.Records

/-!
# What the missed-run scan reports

The missed-run scan goes by `last_runs_` and `missed_handled_`, the due scan by
`next_run_`. A scan that looks at a job is ready if the due scan is past the
occurrence it would report and the launches for it are recorded. What a ready
scan reports is new, and no schedule launch spans it.
-/

namespace AgentPulse.Scheduler

open Transition

/-- The occurrences a schedule launch counts for: from the old entry of
`next_run_` to the time of the tick. -/
def Cause.spans : Cause → Int → Bool
  | .due lo hi, t => lo ≤ t && t ≤ hi
  | .request _, _ => false

theorem Cause.due_spans_eq_false {lo hi t : Int} :
    (Cause.due lo hi).spans t = false ↔ ¬ (lo ≤ t ∧ t ≤ hi) := by
  rw [← Bool.not_eq_true, not_iff_not, Cause.spans, Bool.and_eq_true, decide_eq_true_eq,
    decide_eq_true_eq]

/-- Every schedule launch of `name` that spans `t` has been made and has
recorded its first attempt. -/
def State.RecordedAt (s : State) (name : Bytes) (t : Int) : Prop :=
  (∀ entry ∈ s.loop.toLaunch, entry.job.name = name → entry.cause.spans t = false) ∧
    ∀ task ∈ s.tasks, task.job.name = name → task.cause.spans t = true →
      task.execution.recorded = true

/-- The start of the last recorded run, as `scan_missed` reads it. -/
def State.lastRunTs (s : State) (name : Bytes) : Int :=
  ((s.lastRuns name).map RunRecord.startedAt).getD 0

/-- If the scan is about to look at `name` and to report `t` as missed, the due
scan is past `t` and its launches for `t` are recorded. -/
def ScanPc.Ready (loc : LocalTime) (name : Bytes) (s : State) : ScanPc → Prop
  | .read now (job :: _) =>
      job.name = name → ∀ t ∈ job.schedule.bind fun c => detectMissedRun c loc (s.lastRunTs name) now,
        (s.missedHandled name).getD 0 < t → (∀ next ∈ s.nextRun name, t < next) ∧ s.RecordedAt name t
  | _ => True

instance (s : State) (name : Bytes) (t : Int) : Decidable (s.RecordedAt name t) :=
  inferInstanceAs (Decidable (_ ∧ _))

instance (loc : LocalTime) (name : Bytes) (s : State) : DecidablePred (ScanPc.Ready loc name s)
  | .read _ (_ :: _) => inferInstanceAs (Decidable (_ → _))
  | .idle | .start | .snapshot _ | .read _ [] | .check _ _ _ _ | .alert _ _ _ _
  | .enqueue _ _ _ _ => inferInstanceAs (Decidable True)

/-- The schedule launches of a name span disjoint times, in their order, all
before its entry of `next_run_`. -/
structure Spans (name : Bytes) (v : FiringView) : Prop where
  wall : ∀ wall ∈ v.wall, wall ≤ v.clock
  ended : ∀ lo hi, (name, Cause.due lo hi) ∈ v.launches →
    hi ≤ v.clock ∧ ∀ next ∈ v.nextRun name, hi < next
  disjoint : v.launches.Pairwise fun x y => ∀ lo hi lo' hi', x = (name, .due lo hi) →
    y = (name, .due lo' hi') → hi < lo'

/-- No schedule launch of the name spans `t`, and none will. -/
structure Clear (name : Bytes) (v : FiringView) (t : Int) : Prop where
  next : ∀ next ∈ v.nextRun name, t < next
  spans : ∀ cause, (name, cause) ∈ v.launches → cause.spans t = false

section Due

variable {loc : LocalTime} {name : Bytes} {writes : Option JobWrite} {v w : FiringView} {t : Int}

theorem setNextRun_mem {now : Int} {stored : Job} {m : Bytes → Option Int} {next : Int}
    (h : next ∈ JobSet.setNextRun loc now stored m name) : now < next ∨ next ∈ m name := by
  unfold JobSet.setNextRun at h
  cases hnext : stored.schedule.bind fun c => c.nextAfter loc now with
  | none =>
      rw [hnext] at h
      exact Or.inr h
  | some found =>
      rw [hnext] at h
      by_cases hname : name = stored.name
      · obtain ⟨c, _, hc⟩ := Option.bind_eq_some_iff.mp hnext
        left
        have heq : found = next := by simpa [hname] using h
        exact heq ▸ CronSchedule.nextAfter_gt hc
      · right
        simpa [Function.update_of_ne hname] using h

theorem Spans.due (h : Spans name v) {job : Job} {rest : List Job} {c : CronSchedule}
    {wall next : Int} (hwall : v.wall = some wall) (hnext : v.nextRun job.name = some next)
    (hle : next ≤ wall) {live : Bool} :
    Spans name { v with
      undecided := rest
      nextRun := Function.update v.nextRun job.name (c.nextAfter loc wall)
      launches := if live then v.launches else v.launches ++ [(job.name, .due next wall)] } := by
  have hlaunches : ∀ lo hi, (name, Cause.due lo hi) ∈
      (if live then v.launches else v.launches ++ [(job.name, .due next wall)]) →
      (name, Cause.due lo hi) ∈ v.launches ∨ name = job.name ∧ lo = next ∧ hi = wall := by
    intro lo hi hmem
    cases live <;> simp_all
  refine ⟨h.wall, ?_, ?_⟩
  · intro lo hi hmem
    obtain hold | ⟨rfl, rfl, rfl⟩ := hlaunches lo hi hmem
    · refine ⟨(h.ended lo hi hold).1, fun next' hnext' => ?_⟩
      by_cases hname : name = job.name
      · subst hname
        have hgt : wall < next' := CronSchedule.nextAfter_gt (by simpa using hnext')
        have := (h.ended lo hi hold).2 next hnext
        omega
      · exact (h.ended lo hi hold).2 next' (by simpa [Function.update_of_ne hname] using hnext')
    · exact ⟨h.wall _ hwall, fun next' hnext' => CronSchedule.nextAfter_gt (by simpa using hnext')⟩
  · cases live with
    | true => exact h.disjoint
    | false =>
        refine List.pairwise_append.mpr ⟨h.disjoint, List.pairwise_singleton _ _, ?_⟩
        intro x hx y hy lo hi lo' hi' hxeq hyeq
        rw [List.mem_singleton.mp hy] at hyeq
        cases hyeq
        exact (h.ended lo hi (hxeq ▸ hx)).2 next hnext

theorem Spans.move (h : Spans name v) (hmove : FiringMove loc writes v w)
    (hclock : v.clock ≤ w.clock) : Spans name w := by
  cases hmove with
  | stay | enter | skip => exact ⟨h.wall, h.ended, h.disjoint⟩
  | clock time =>
      have hle : (v.clock : Int) ≤ time := by exact_mod_cast hclock
      exact ⟨fun wall hwall => (h.wall wall hwall).trans hle,
        fun lo hi hmem => ⟨(h.ended lo hi hmem).1.trans hle, (h.ended lo hi hmem).2⟩, h.disjoint⟩
  | readWall => exact ⟨by simp, h.ended, h.disjoint⟩
  | leave => exact ⟨by simp, h.ended, h.disjoint⟩
  | request n ticket =>
      refine ⟨h.wall, fun lo hi hmem => h.ended lo hi (by simpa using hmem), ?_⟩
      refine List.pairwise_append.mpr ⟨h.disjoint, List.pairwise_singleton _ _, ?_⟩
      intro x _ y hy lo hi lo' hi' _ hyeq
      rw [List.mem_singleton.mp hy] at hyeq
      cases hyeq
  | due job rest c wall next live hrest hwall hschedule hnext hle => exact h.due hwall hnext hle
  | register stored =>
      refine ⟨h.wall, fun lo hi hmem => ⟨(h.ended lo hi hmem).1, fun next hnext => ?_⟩, h.disjoint⟩
      obtain hgt | hold := setNextRun_mem hnext
      · exact lt_of_le_of_lt (h.ended lo hi hmem).1 hgt
      · exact (h.ended lo hi hmem).2 next hold
  | unregister n =>
      refine ⟨h.wall, fun lo hi hmem => ⟨(h.ended lo hi hmem).1, fun next hnext => ?_⟩, h.disjoint⟩
      by_cases hname : name = n
      · simp [hname] at hnext
      · exact (h.ended lo hi hmem).2 next (by simpa [Function.update_of_ne hname] using hnext)

theorem Clear.move (h : Clear name v t) (ht : t ≤ v.clock) (hmove : FiringMove loc writes v w) :
    Clear name w t := by
  cases hmove with
  | stay | clock | readWall | leave | enter | skip => exact ⟨h.next, h.spans⟩
  | request n ticket =>
      refine ⟨h.next, fun cause hmem => ?_⟩
      obtain hold | hnew := List.mem_append.mp hmem
      · exact h.spans cause hold
      · cases List.mem_singleton.mp hnew
        rfl
  | due job rest c wall next live hrest hwall hschedule hnext hle =>
      refine ⟨fun next' hnext' => ?_, fun cause hmem => ?_⟩
      · by_cases hname : name = job.name
        · subst hname
          have hgt : wall < next' := CronSchedule.nextAfter_gt (by simpa using hnext')
          have := h.next next hnext
          omega
        · exact h.next next' (by simpa [Function.update_of_ne hname] using hnext')
      · have hcases : (name, cause) ∈ v.launches ∨
            name = job.name ∧ cause = .due next wall := by
          cases live <;> simp_all
        obtain hold | ⟨rfl, rfl⟩ := hcases
        · exact h.spans cause hold
        · have := h.next next hnext
          apply Cause.due_spans_eq_false.mpr
          omega
  | register stored =>
      refine ⟨fun next hnext => ?_, h.spans⟩
      obtain hgt | hold := setNextRun_mem hnext
      · exact lt_of_le_of_lt ht hgt
      · exact h.next next hold
  | unregister n =>
      refine ⟨fun next hnext => ?_, h.spans⟩
      by_cases hname : name = n
      · simp [hname] at hnext
      · exact h.next next (by simpa [Function.update_of_ne hname] using hnext)

end Due

/-- The time a scan has taken for the whole scan. -/
@[simp] def ScanPc.now : ScanPc → Option Int
  | .idle => none
  | .start => none
  | .snapshot time => some time
  | .read time _ => some time
  | .check time _ _ _ => some time
  | .alert time _ _ _ => some time
  | .enqueue time _ _ _ => some time

/-- The occurrence of `name` a scan has marked as handled and not queued yet. -/
@[simp] def ScanPc.reported (name : Bytes) : ScanPc → List Int
  | .alert _ job missed _ => if job.name = name then [missed] else []
  | .enqueue _ job missed _ => if job.name = name then [missed] else []
  | _ => []

/-- The missed occurrences of `name` queued so far. -/
def missedOf (name : Bytes) (tickets : List Ticket) : List Int :=
  tickets.filterMap fun ticket => if ticket.name = name then ticket.occurrence else none

/-- The missed occurrences of `name` reported so far. -/
def State.reported (s : State) (name : Bytes) : List Int :=
  missedOf name s.tickets ++ s.starter.reported name ++ s.loop.scanPc.reported name

/-- What a scan has read still stands when it acts on it. -/
structure ScanOk (loc : LocalTime) (name : Bytes) (v : FiringView) (handled : Option Int)
    (pc : ScanPc) : Prop where
  now : ∀ now ∈ pc.now, 0 ≤ now ∧ now ≤ v.clock
  check : ∀ now job lastRunTs rest t, pc = .check now job lastRunTs rest → job.name = name →
    (job.schedule.bind fun c => detectMissedRun c loc lastRunTs now) = some t →
    handled.getD 0 < t → Clear name v t

/-- The reported occurrences are distinct, marked as handled, and clear of
schedule launches. -/
structure Reports (name : Bytes) (v : FiringView) (handled : Option Int) (reported : List Int) :
    Prop where
  nodup : reported.Nodup
  handled : ∀ t ∈ reported, t ≤ handled.getD 0
  clear : ∀ t ∈ reported, t ≤ v.clock ∧ Clear name v t

section Scans

variable {loc : LocalTime} {name : Bytes} {writes : Option JobWrite} {v w : FiringView}
  {handled handled' : Option Int} {reported reported' fresh : List Int} {pc next : ScanPc}
  {s m : State} {t : Int}

theorem detectMissedRun_eq_some {c : CronSchedule} {lastRunTs now : Int}
    (h : detectMissedRun c loc lastRunTs now = some t) :
    c.prevBefore loc now = some t ∧ lastRunTs < t := by
  unfold detectMissedRun at h
  cases hprev : c.prevBefore loc now with
  | none =>
      rw [hprev] at h
      cases h
  | some prev =>
      rw [hprev] at h
      simp only at h
      split_ifs at h with hlast
      cases h
      exact ⟨rfl, by omega⟩

theorem missedRun_le {job : Job} {lastRunTs now : Int} (hnow : 0 ≤ now)
    (h : (job.schedule.bind fun c => detectMissedRun c loc lastRunTs now) = some t) : t ≤ now := by
  obtain ⟨c, _, hc⟩ := Option.bind_eq_some_iff.mp h
  exact (CronSchedule.prevBefore_isGreatest hnow (detectMissedRun_eq_some hc).1).1.1

theorem ScanOk.move (h : ScanOk loc name v handled pc) (hmove : FiringMove loc writes v w)
    (hclock : v.clock ≤ w.clock) : ScanOk loc name w handled pc := by
  refine ⟨fun now hnow => ?_, fun now job lastRunTs rest t hpc hname hmissed hnew => ?_⟩
  · obtain ⟨hpos, hle⟩ := h.now now hnow
    exact ⟨hpos, hle.trans (by exact_mod_cast hclock)⟩
  · obtain ⟨hpos, hle⟩ := h.now now (by simp [hpc])
    have hclear := h.check now job lastRunTs rest t hpc hname hmissed hnew
    exact hclear.move ((missedRun_le hpos hmissed).trans hle) hmove

/-- Marking occurrences as handled only leaves a scan less to report. -/
theorem ScanOk.handle (h : ScanOk loc name v handled pc) (hle : handled.getD 0 ≤ handled'.getD 0) :
    ScanOk loc name v handled' pc :=
  ⟨h.now, fun now job lastRunTs rest t hpc hname hmissed hnew =>
    h.check now job lastRunTs rest t hpc hname hmissed (lt_of_le_of_lt hle hnew)⟩

theorem ScanOk.of_pc (h : ∀ now ∈ pc.now, 0 ≤ now ∧ now ≤ v.clock)
    (hcheck : ∀ now job lastRunTs rest, pc ≠ .check now job lastRunTs rest) :
    ScanOk loc name v handled pc :=
  ⟨h, fun now job lastRunTs rest _ hpc => absurd hpc (hcheck now job lastRunTs rest)⟩

theorem Reports.move (h : Reports name v handled reported) (hmove : FiringMove loc writes v w)
    (hclock : v.clock ≤ w.clock) : Reports name w handled reported := by
  refine ⟨h.nodup, h.handled, fun t ht => ?_⟩
  obtain ⟨hle, hclear⟩ := h.clear t ht
  exact ⟨hle.trans (by exact_mod_cast hclock), hclear.move hle hmove⟩

/-- Newly reported occurrences are later than all that were handled. -/
theorem Reports.report (h : Reports name v handled reported)
    (hle : handled.getD 0 ≤ handled'.getD 0) (hnodup : fresh.Nodup)
    (hfresh : ∀ t ∈ fresh, handled.getD 0 < t ∧ t ≤ handled'.getD 0)
    (hclear : ∀ t ∈ fresh, t ≤ v.clock ∧ Clear name v t)
    (hperm : reported'.Perm (reported ++ fresh)) : Reports name v handled' reported' := by
  have hmem : ∀ t ∈ reported', t ∈ reported ∨ t ∈ fresh :=
    fun t ht => List.mem_append.mp (hperm.subset ht)
  refine ⟨hperm.nodup_iff.mpr (List.Nodup.append h.nodup hnodup ?_), ?_, ?_⟩
  · intro t hold hnew
    have := h.handled t hold
    have := (hfresh t hnew).1
    omega
  · intro t ht
    obtain hold | hnew := hmem t ht
    · exact (h.handled t hold).trans hle
    · exact (hfresh t hnew).2
  · intro t ht
    obtain hold | hnew := hmem t ht
    · exact h.clear t hold
    · exact hclear t hnew

/-- What the scan reads is settled if it is ready: a recorded launch answers the
occurrences it spans. -/
theorem clear_of_ready {now : Int} {job : Job} {rest : List Job} {terminated : Bool}
    (hready : ScanPc.Ready loc name s (.read now (job :: rest)))
    (hrecords : Records name terminated s.records) (hname : job.name = name)
    (hmissed : (job.schedule.bind fun c => detectMissedRun c loc (s.lastRunTs name) now) = some t)
    (hnew : (s.missedHandled name).getD 0 < t) : Clear name s.firing t := by
  obtain ⟨hnext, hpending, hrecorded⟩ := hready hname t hmissed hnew
  obtain ⟨c, _, hc⟩ := Option.bind_eq_some_iff.mp hmissed
  have hlast := (detectMissedRun_eq_some hc).2
  refine ⟨hnext, fun cause hmem => ?_⟩
  obtain hmem | hmem := List.mem_append.mp hmem
  · obtain ⟨task, htask, heq⟩ := List.mem_map.mp hmem
    cases heq
    by_contra hspans
    obtain ⟨lo, hi, hcause⟩ : ∃ lo hi, task.cause = .due lo hi := by
      cases hcause : task.cause with
      | due lo hi => exact ⟨lo, hi, rfl⟩
      | request ticket => simp [hcause, Cause.spans] at hspans
    have hdone := hrecorded task htask rfl (by simpa using hspans)
    obtain ⟨record, hsome, hle⟩ := hrecords.recorded task.execution
      (List.mem_map_of_mem htask) rfl hdone lo hi hcause
    have hts : s.lastRunTs task.job.name = record.startedAt := by
      have hsome' : s.lastRuns task.job.name = some record := hsome
      simp [State.lastRunTs, hsome']
    rw [hcause, Cause.due_spans_eq_false, not_not] at hspans
    omega
  · obtain ⟨entry, hentry, heq⟩ := List.mem_map.mp hmem
    cases heq
    exact hpending entry hentry rfl

/-- A step of a scan that is ready keeps what it has read, and reports at most
one new occurrence. -/
structure ScanResult (loc : LocalTime) (name : Bytes) (s m : State) (pc next : ScanPc)
    (fresh : List Int) : Prop where
  ok : ScanOk loc name s.firing (m.missedHandled name) next
  handled : (s.missedHandled name).getD 0 ≤ (m.missedHandled name).getD 0
  nodup : fresh.Nodup
  later : ∀ t ∈ fresh, (s.missedHandled name).getD 0 < t ∧ t ≤ (m.missedHandled name).getD 0
  clear : ∀ t ∈ fresh, t ≤ s.clock ∧ Clear name s.firing t
  reported : (missedOf name m.tickets ++ next.reported name).Perm
    (missedOf name s.tickets ++ pc.reported name ++ fresh)

theorem ScanResult.silent (hok : ScanOk loc name s.firing (s.missedHandled name) next)
    (hreported : next.reported name = pc.reported name) : ScanResult loc name s s pc next [] :=
  ⟨hok, le_refl _, List.nodup_nil, by simp, by simp, by rw [hreported, List.append_nil]⟩

theorem handleMissed_getD (n : Bytes) (missed : Int) (m : Bytes → Option Int) :
    ((handleMissed m n missed).1 name).getD 0 =
      if name = n ∧ (handleMissed m n missed).2 = true then missed else (m name).getD 0 := by
  unfold handleMissed
  by_cases hold : (m n).getD 0 ≥ missed
  · by_cases hname : name = n <;> simp [hold, hname]
  · by_cases hname : name = n <;> simp [hold, hname]

theorem handleMissed_new {n : Bytes} {missed : Int} {m : Bytes → Option Int}
    (h : (handleMissed m n missed).2 = true) : (m n).getD 0 < missed := by
  unfold handleMissed at h
  split_ifs at h with hold
  omega

theorem ScanResult.check {now : Int} {job : Job} {lastRunTs missed : Int} {rest : List Job}
    (hok : ScanOk loc name s.firing (s.missedHandled name) (.check now job lastRunTs rest))
    (hmissed : (job.schedule.bind fun c => detectMissedRun c loc lastRunTs now) = some missed) :
    ScanResult loc name s
      { s with missedHandled := (handleMissed s.missedHandled job.name missed).1 }
      (.check now job lastRunTs rest)
      (if (handleMissed s.missedHandled job.name missed).2 = true then
        .alert now job missed rest else .read now rest)
      (if name = job.name ∧ (handleMissed s.missedHandled job.name missed).2 = true then
        [missed] else []) := by
  obtain ⟨hpos, hle⟩ := hok.now now rfl
  have hgetD : _ = if name = job.name ∧ _ then missed else _ :=
    handleMissed_getD job.name missed s.missedHandled
  have hnewer : _ → (s.missedHandled job.name).getD 0 < missed := handleMissed_new
  refine ⟨?_, ?_, ?_, ?_, ?_, ?_⟩
  · split_ifs <;> exact .of_pc (by simpa using ⟨hpos, hle⟩) (by simp)
  · simp only [hgetD]
    split_ifs with hnew
    · rw [hnew.1]
      exact (hnewer hnew.2).le
    · exact le_refl _
  · split_ifs <;> simp
  · intro t ht
    split_ifs at ht with hnew
    · cases List.mem_singleton.mp ht
      rw [if_pos hnew] at hgetD
      have hlt := hnewer hnew.2
      rw [← hnew.1] at hlt
      exact ⟨hlt, hgetD.ge⟩
    · cases ht
  · intro t ht
    split_ifs at ht with hnew
    · cases List.mem_singleton.mp ht
      refine ⟨(missedRun_le hpos hmissed).trans hle, ?_⟩
      have hlt := hnewer hnew.2
      rw [← hnew.1] at hlt
      exact hok.check now job lastRunTs rest _ rfl hnew.1.symm hmissed hlt
    · cases ht
  · by_cases hname : name = job.name
    · split_ifs <;> simp_all
    · have hname' : ¬ job.name = name := fun heq => hname heq.symm
      split_ifs <;> simp_all

/-- Each step of a scan that is ready has such a result. -/
theorem scanStep_result {terminated : Bool} (h : scanStep loc s pc = some (m, next))
    (hok : ScanOk loc name s.firing (s.missedHandled name) pc) (hready : pc.Ready loc name s)
    (hrecords : Records name terminated s.records) :
    ∃ fresh, ScanResult loc name s m pc next fresh := by
  cases scanStep_cases h with
  | start =>
      refine ⟨[], .silent (.of_pc ?_ (by simp)) (by simp)⟩
      simp [State.firing]
  | snapshot now hfree => exact ⟨[], .silent (.of_pc (by simpa using hok.now) (by simp)) (by simp)⟩
  | finish now => exact ⟨[], .silent (.of_pc (by simp) (by simp)) (by simp)⟩
  | read now job rest hfree =>
      refine ⟨[], .silent ⟨by simpa using hok.now, ?_⟩ (by simp)⟩
      intro now' job' lastRunTs rest' t heq hname hmissed hnew
      cases heq
      refine clear_of_ready hready hrecords hname ?_ hnew
      rw [← hname]
      exact hmissed
  | current now job lastRunTs rest hnone =>
      exact ⟨[], .silent (.of_pc (by simpa using hok.now) (by simp)) (by simp)⟩
  | missed now job lastRunTs rest missed hmissed hfree => exact ⟨_, .check hok hmissed⟩
  | alert now job missed rest =>
      refine ⟨[], ⟨.of_pc (by simpa using hok.now) (by simp), le_refl _, by simp, by simp, by simp,
        by simp⟩⟩
  | enqueue now job missed rest hfree =>
      refine ⟨[], ⟨.of_pc (by simpa using hok.now) (by simp), le_refl _, by simp, by simp, by simp,
        ?_⟩⟩
      by_cases hname : job.name = name <;>
        simp [State.enqueue, missedOf, List.filterMap_append, hname]

end Scans

end AgentPulse.Scheduler
