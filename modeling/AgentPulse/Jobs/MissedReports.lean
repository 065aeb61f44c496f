import AgentPulse.Jobs.MissedScan

/-!
# A missed occurrence is reported at most once

Two threads may scan for missed runs at the same time, each with the jobs and
the time it has read. What keeps them from reporting one occurrence twice is
the check-and-set on `missed_handled_` under `mutex_`: a scan reports only what
is later than the value it finds, and it leaves its own in its place. This
holds for any clock and whatever the workers record in the meantime.
-/

namespace AgentPulse.Scheduler

open Transition

/-- The value the next step of a scan assigns to `missed_handled_[name]`. -/
def ScanPc.assigns (loc : LocalTime) (name : Bytes) (s : State) : ScanPc → List Int
  | .check now job lastRunTs _ =>
      match job.schedule.bind fun c => detectMissedRun c loc lastRunTs now with
      | some missed =>
          if job.name = name ∧ (handleMissed s.missedHandled job.name missed).2 = true then [missed]
          else []
      | none => []
  | _ => []

/-- The value a step assigns to `missed_handled_[name]`, on either thread. -/
def assigns (loc : LocalTime) (name : Bytes) (s : State) : Label → List Int
  | .starter => s.starter.assigns loc name s
  | .loop => s.loop.scanPc.assigns loc name s
  | _ => []

/-- The occurrences of `name` for which there is an alert about a missed run. -/
def missedAlerts (name : Bytes) (log : List (AlertInfo Int)) : List Int :=
  log.filterMap fun info =>
    if info.ruleName = name ∧ info.severity = text "warning" then some info.value else none

/-- The occurrence of `name` a scan has raised its alert for and not queued yet. -/
@[simp] def ScanPc.alerted (name : Bytes) : ScanPc → List Int
  | .enqueue _ job missed _ => if job.name = name then [missed] else []
  | _ => []

/-- The occurrences of `name` for which the alert has been raised. -/
def State.alerted (s : State) (name : Bytes) : List Int :=
  missedOf name s.tickets ++ s.starter.alerted name ++ s.loop.scanPc.alerted name

/-- The step does not remove the job. -/
def KeepsJob (name : Bytes) (s : State) (label : Label) : Prop :=
  s.writes label ≠ some (.unregister name)

instance (name : Bytes) (s : State) (label : Label) : Decidable (KeepsJob name s label) :=
  inferInstanceAs (Decidable (_ ≠ _))

/-- The occurrences reported are those assigned to `missed_handled_`, and the
assigned values increase. -/
structure ReportedOnce (name : Bytes) (s : State) (assigned : List Int) : Prop where
  increasing : assigned.Pairwise (· < ·)
  bounded : ∀ t ∈ assigned, t ≤ (s.missedHandled name).getD 0
  reported : (s.reported name).Perm assigned
  alerted : (missedAlerts name s.alertLog).Perm (s.alerted name)

/-- What a step outside of the scans leaves to them: what is handled, queued
and announced, and where the scans stand, except that a scan may begin. -/
structure Undisturbed (name : Bytes) (s t : State) : Prop where
  handled : t.missedHandled name = s.missedHandled name
  tickets : missedOf name t.tickets = missedOf name s.tickets
  alerts : missedAlerts name t.alertLog = missedAlerts name s.alertLog
  starter : t.starter = s.starter ∨ s.starter = .idle ∧ t.starter = .start
  loop : t.loop.scanPc = s.loop.scanPc ∨ s.loop.scanPc = .idle ∧ t.loop.scanPc = .start

section Undisturbed

variable {loc : LocalTime} {name : Bytes} {s t : State}

theorem Undisturbed.of_loop (hhandled : t.missedHandled = s.missedHandled)
    (htickets : t.tickets = s.tickets) (hlog : t.alertLog = s.alertLog)
    (hstarter : t.starter = s.starter)
    (hloop : t.loop.scanPc = s.loop.scanPc ∨ s.loop.scanPc = .idle ∧ t.loop.scanPc = .start) :
    Undisturbed name s t :=
  ⟨by rw [hhandled], by rw [htickets], by rw [hlog], Or.inl hstarter, hloop⟩

theorem LoopStep.undisturbed (h : LoopStep loc s t) (hscan : ∀ wall pc, s.loop ≠ .scan wall pc) :
    Undisturbed name s t := by
  cases h with
  | reap hloop hactive =>
      exact .of_loop rfl rfl rfl rfl (Or.inl (by simp [State.reap, hloop]))
  | gap hloop hgap => exact .of_loop rfl rfl rfl rfl (Or.inr (by simp [hloop]))
  | wake hloop hgap hwake => exact .of_loop rfl rfl rfl rfl (Or.inr (by simp [hloop]))
  | scan wall pc next hloop => exact absurd hloop (hscan wall pc)
  | launch entry rest hloop =>
      exact .of_loop rfl rfl rfl rfl (Or.inl (by simp [State.launchEntry, hloop]))
  | exit hloop | joined hloop | join _ _ hloop | awake hloop | lock _ hloop | drained _ _ _ hloop
  | drop _ _ _ _ _ hloop | defer _ _ _ _ _ hloop | place _ _ _ _ _ _ hloop | decided _ _ hloop
  | unscheduled _ _ _ _ hloop | unplanned _ _ _ _ _ hloop | later _ _ _ _ _ _ hloop
  | overlap _ _ _ _ _ _ hloop | fire _ _ _ _ _ _ hloop | launched hloop | startThread _ _ hloop
  | publish hloop | setJobs _ hloop =>
      exact .of_loop rfl rfl rfl rfl (Or.inl (by simp [hloop]))

theorem StopStep.undisturbed (h : StopStep s t) : Undisturbed name s t := by
  cases h with
  | joinLoop hstopper hloop => exact .of_loop rfl rfl rfl rfl (Or.inl (by simp [hloop]))
  | inactive | stop | takeTasks | joined | join => exact .of_loop rfl rfl rfl rfl (Or.inl rfl)

theorem CallStep.undisturbed {thread : Nat} {dbError : Option Bytes} (h : CallStep loc s thread t)
    (hkept : KeepsJob name s (.call thread dbError)) : Undisturbed name s t := by
  cases h with
  | enqueue n hcall hfree =>
      refine ⟨rfl, ?_, rfl, Or.inl rfl, Or.inl rfl⟩
      simp [State.ret, State.enqueue, missedOf, List.filterMap_append]
  | remove n hcall hfree =>
      have hne : name ≠ n := by
        rintro rfl
        exact hkept (by simp [State.writes, hcall])
      exact ⟨by simp [JobSet.removeJobUpdate, hne], rfl, rfl, Or.inl rfl, Or.inl rfl⟩
  | _ => exact .of_loop rfl rfl rfl rfl (Or.inl rfl)

/-- The alert of a worker is not one about a missed run. -/
theorem Worker.step_alert {job : Job} {trigger : Trigger} {active : Bool} {clock : Int}
    {outcome : Outcome} {old pc : Worker.Pc} {info : AlertInfo Int}
    (h : Worker.step job trigger active clock outcome old = some (pc, .alert info)) :
    info.severity = text "serious" := by
  unfold Worker.step at h
  split at h <;> grind [jobAlert]

theorem WorkerStep.undisturbed {id : Nat} {outcome : Outcome} (h : WorkerStep s id outcome t) :
    Undisturbed name s t := by
  obtain ⟨task, pc, effect, runs, hget, hthread, hstep⟩ := h
  refine ⟨rfl, rfl, ?_, Or.inl rfl, Or.inl rfl⟩
  cases effect with
  | alert info =>
      have hserious : info.severity ≠ text "warning" := by
        rw [Worker.step_alert hstep]
        decide
      simp [alertLogAfter, missedAlerts, List.filterMap_append, hserious]
  | _ => rfl

/-- Every step outside of the scans that does not remove the job. -/
theorem step_undisturbed {label : Label} (h : step loc s label = some t)
    (hkept : KeepsJob name s label) (hstarter : label ≠ .starter)
    (hscan : label = .loop → ∀ wall pc, s.loop ≠ .scan wall pc) : Undisturbed name s t := by
  cases step_cases h with
  | clock | active | notifyWake => exact .of_loop rfl rfl rfl rfl (Or.inl rfl)
  | start hactive hloop hstarter' hstopper =>
      exact ⟨rfl, rfl, rfl, Or.inr ⟨hstarter', rfl⟩, Or.inl (by simp [hloop])⟩
  | stop hstep => exact hstep.undisturbed
  | loop hstep => exact hstep.undisturbed (hscan rfl)
  | starter => exact absurd rfl hstarter
  | begin thread call hstep =>
      obtain ⟨_, _, rfl⟩ := hstep.frame
      exact .of_loop rfl rfl rfl rfl (Or.inl rfl)
  | call thread dbError hstep => exact hstep.undisturbed hkept
  | worker id outcome dbOk hstep => exact hstep.undisturbed

end Undisturbed

/-- What a step of a scan does to the reports of `name`: it assigns at most one
value, which is later than the one it finds, and it reports what it assigns. -/
structure ScanReport (loc : LocalTime) (name : Bytes) (s m : State) (pc next : ScanPc) : Prop where
  handled : (m.missedHandled name).getD 0 =
    (pc.assigns loc name s).getLast?.getD ((s.missedHandled name).getD 0)
  later : ∀ t ∈ pc.assigns loc name s, (s.missedHandled name).getD 0 < t
  single : (pc.assigns loc name s).length ≤ 1
  reported : (missedOf name m.tickets ++ next.reported name).Perm
    (missedOf name s.tickets ++ pc.reported name ++ pc.assigns loc name s)
  alerted : (missedAlerts name m.alertLog ++ (missedOf name s.tickets ++ pc.alerted name)).Perm
    (missedAlerts name s.alertLog ++ (missedOf name m.tickets ++ next.alerted name))

section Scans

theorem perm_swap (a b c : List Int) : (a ++ b ++ c).Perm (a ++ c ++ b) := by
  simpa only [List.append_assoc] using List.perm_append_comm.append_left a

variable {loc : LocalTime} {name : Bytes} {s t m : State} {pc next : ScanPc} {assigned : List Int}

/-- A step of a scan that neither checks nor reports. -/
theorem ScanReport.silent (hassigns : pc.assigns loc name s = [])
    (hreported : next.reported name = pc.reported name)
    (halerted : next.alerted name = pc.alerted name) : ScanReport loc name s s pc next := by
  constructor
  · simp [hassigns]
  · simp [hassigns]
  · simp [hassigns]
  · rw [hassigns, hreported, List.append_nil]
  · rw [halerted]

theorem ScanReport.check {now : Int} {job : Job} {lastRunTs missed : Int} {rest : List Job}
    (hmissed : (job.schedule.bind fun c => detectMissedRun c loc lastRunTs now) = some missed) :
    ScanReport loc name s
      { s with missedHandled := (handleMissed s.missedHandled job.name missed).1 }
      (.check now job lastRunTs rest)
      (if (handleMissed s.missedHandled job.name missed).2 = true then
        .alert now job missed rest else .read now rest) := by
  have hassigns : (ScanPc.check now job lastRunTs rest).assigns loc name s =
      if job.name = name ∧ (handleMissed s.missedHandled job.name missed).2 = true then [missed]
      else [] := by
    simp only [ScanPc.assigns, hmissed]
  have hgetD : _ = if name = job.name ∧ _ then missed else _ :=
    handleMissed_getD job.name missed s.missedHandled
  by_cases hnew : job.name = name ∧ (handleMissed s.missedHandled job.name missed).2 = true
  · obtain ⟨rfl, hset⟩ := hnew
    have hlater := handleMissed_new hset
    constructor <;> simp [hassigns, hgetD, hset, hlater]
  · have hnew' : ¬ (name = job.name ∧ (handleMissed s.missedHandled job.name missed).2 = true) :=
      fun h => hnew ⟨h.1.symm, h.2⟩
    rw [if_neg hnew] at hassigns
    rw [if_neg hnew'] at hgetD
    constructor
    · simpa [hassigns] using hgetD
    · simp [hassigns]
    · simp [hassigns]
    · by_cases hset : (handleMissed s.missedHandled job.name missed).2 = true
      · have hname : ¬ job.name = name := fun h => hnew ⟨h, hset⟩
        simp [hassigns, hset, hname]
      · simp [hassigns, hset]
    · split_ifs <;> simp

theorem scanStep_report (h : scanStep loc s pc = some (m, next)) :
    ScanReport loc name s m pc next := by
  cases scanStep_cases h with
  | start | snapshot | finish | read => exact .silent rfl rfl rfl
  | current now job lastRunTs rest hnone => exact .silent (by simp [ScanPc.assigns, hnone]) rfl rfl
  | missed now job lastRunTs rest missed hmissed hfree => exact .check hmissed
  | alert now job missed rest =>
      constructor
      · simp [ScanPc.assigns]
      · simp [ScanPc.assigns]
      · simp [ScanPc.assigns]
      · simp [ScanPc.assigns]
      · have hwarning : (missedAlert s.clock job missed).ruleName = job.name ∧
            (missedAlert s.clock job missed).severity = text "warning" ∧
            (missedAlert s.clock job missed).value = missed := ⟨rfl, rfl, rfl⟩
        have halerts : missedAlerts name (s.alertLog ++ [missedAlert s.clock job missed]) =
            missedAlerts name s.alertLog ++ if job.name = name then [missed] else [] := by
          by_cases hname : job.name = name <;>
            simp [missedAlerts, List.filterMap_append, hwarning, hname]
        simp only [halerts, ScanPc.alerted, List.append_nil, List.append_assoc]
        exact List.perm_append_comm.append_left _
  | enqueue now job missed rest hfree =>
      constructor
      · simp [ScanPc.assigns, State.enqueue]
      · simp [ScanPc.assigns]
      · simp [ScanPc.assigns]
      · by_cases hname : job.name = name <;>
          simp [State.enqueue, missedOf, List.filterMap_append, hname, ScanPc.assigns]
      · by_cases hname : job.name = name <;>
          simp [State.enqueue, missedOf, List.filterMap_append, hname]

theorem ReportedOnce.undisturbed (h : ReportedOnce name s assigned) (hkept : Undisturbed name s t) :
    ReportedOnce name t assigned := by
  have hstarter : t.starter.reported name = s.starter.reported name ∧
      t.starter.alerted name = s.starter.alerted name := by
    obtain heq | ⟨hidle, heq⟩ := hkept.starter
    · rw [heq]
      exact ⟨rfl, rfl⟩
    · rw [heq, hidle]
      exact ⟨rfl, rfl⟩
  have hloop : t.loop.scanPc.reported name = s.loop.scanPc.reported name ∧
      t.loop.scanPc.alerted name = s.loop.scanPc.alerted name := by
    obtain heq | ⟨hidle, heq⟩ := hkept.loop
    · rw [heq]
      exact ⟨rfl, rfl⟩
    · rw [heq, hidle]
      exact ⟨rfl, rfl⟩
  constructor
  · exact h.increasing
  · rw [hkept.handled]
    exact h.bounded
  · rw [State.reported, hkept.tickets, hstarter.1, hloop.1]
    exact h.reported
  · rw [State.alerted, hkept.alerts, hkept.tickets, hstarter.2, hloop.2]
    exact h.alerted

/-- A scan keeps the values in order. -/
theorem ReportedOnce.assign (h : ReportedOnce name s assigned)
    (hreport : ScanReport loc name s m pc next) :
    (assigned ++ pc.assigns loc name s).Pairwise (· < ·) ∧
      ∀ t ∈ assigned ++ pc.assigns loc name s, t ≤ (m.missedHandled name).getD 0 := by
  have hlater := hreport.later
  have hsingle := hreport.single
  have hhandled := hreport.handled
  cases hvalues : pc.assigns loc name s with
  | nil =>
      rw [hvalues] at hhandled
      rw [List.append_nil, hhandled]
      exact ⟨h.increasing, h.bounded⟩
  | cons value rest =>
      rw [hvalues] at hlater hsingle hhandled
      obtain rfl : rest = [] := by
        apply List.eq_nil_of_length_eq_zero
        simpa using hsingle
      have hvalue := hlater value List.mem_cons_self
      have hnow : (m.missedHandled name).getD 0 = value := by simpa using hhandled
      constructor
      · apply List.pairwise_append.mpr
        refine ⟨h.increasing, List.pairwise_singleton _ _, ?_⟩
        intro a ha b hb
        rw [List.mem_singleton.mp hb]
        exact lt_of_le_of_lt (h.bounded a ha) hvalue
      · intro a ha
        rw [hnow]
        obtain hold | hnew := List.mem_append.mp ha
        · exact (lt_of_le_of_lt (h.bounded a hold) hvalue).le
        · exact (List.mem_singleton.mp hnew).le

/-- A step of a scan, with what the other thread has in hand. -/
theorem ReportedOnce.scan (h : ReportedOnce name s assigned)
    (hreport : ScanReport loc name s m pc next) (other otherAlerted : List Int)
    (hreported : (s.reported name).Perm (missedOf name s.tickets ++ pc.reported name ++ other))
    (halerted : (s.alerted name).Perm (missedOf name s.tickets ++ pc.alerted name ++ otherAlerted))
    (hreported' : (t.reported name).Perm (missedOf name m.tickets ++ next.reported name ++ other))
    (halerted' : (t.alerted name).Perm
      (missedOf name m.tickets ++ next.alerted name ++ otherAlerted))
    (hhandled : t.missedHandled = m.missedHandled) (hlog : t.alertLog = m.alertLog) :
    ReportedOnce name t (assigned ++ pc.assigns loc name s) := by
  obtain ⟨hincreasing, hbounded⟩ := h.assign hreport
  constructor
  · exact hincreasing
  · rw [hhandled]
    exact hbounded
  · apply List.perm_iff_count.mpr
    intro a
    have h₁ := List.perm_iff_count.mp h.reported a
    have h₂ := List.perm_iff_count.mp hreport.reported a
    have h₃ := List.perm_iff_count.mp hreported a
    have h₄ := List.perm_iff_count.mp hreported' a
    simp only [List.count_append] at h₁ h₂ h₃ h₄ ⊢
    omega
  · rw [hlog]
    apply List.perm_iff_count.mpr
    intro a
    have h₁ := List.perm_iff_count.mp h.alerted a
    have h₂ := List.perm_iff_count.mp hreport.alerted a
    have h₃ := List.perm_iff_count.mp halerted a
    have h₄ := List.perm_iff_count.mp halerted' a
    simp only [List.count_append] at h₁ h₂ h₃ h₄ ⊢
    omega

end Scans

section Runs

variable {loc : LocalTime} {name : Bytes} {s t : State} {assigned : List Int}

/-- A step of the scan that `start` runs. -/
theorem ReportedOnce.scanStarter (h : ReportedOnce name s assigned)
    (hstep : step loc s .starter = some t) :
    ReportedOnce name t (assigned ++ s.starter.assigns loc name s) := by
  obtain ⟨m, next, hscan, rfl⟩ := starter_scans hstep
  have hreport : ScanReport loc name s m s.starter next := scanStep_report hscan
  obtain ⟨_, _, _, _, rfl⟩ := scanStep_frame hscan
  exact h.scan hreport (s.loop.scanPc.reported name) (s.loop.scanPc.alerted name)
    (List.Perm.refl _) (List.Perm.refl _) (List.Perm.refl _) (List.Perm.refl _) rfl rfl

/-- A step of a scan of the loop. -/
theorem ReportedOnce.scanLoop (h : ReportedOnce name s assigned)
    (hstep : step loc s .loop = some t) {wall : Int} {pc : ScanPc}
    (hloop : s.loop = .scan wall pc) :
    ReportedOnce name t (assigned ++ s.loop.scanPc.assigns loc name s) := by
  obtain ⟨m, next, hscan, rfl⟩ := loop_scans hloop hstep
  have hpc : s.loop.scanPc = pc := by rw [hloop]; rfl
  have hnext : (if next = .idle then LoopPc.lock wall else .scan wall next).scanPc = next := by
    split_ifs with hidle
    · exact hidle.symm
    · rfl
  have hreport : ScanReport loc name s m s.loop.scanPc next := hpc ▸ scanStep_report hscan
  obtain ⟨_, _, _, _, rfl⟩ := scanStep_frame hscan
  apply h.scan hreport (s.starter.reported name) (s.starter.alerted name)
  · exact perm_swap _ _ _
  · exact perm_swap _ _ _
  · simp only [State.reported, hnext]
    exact perm_swap _ _ _
  · simp only [State.alerted, hnext]
    exact perm_swap _ _ _
  · rfl
  · rfl

theorem ReportedOnce.step (h : ReportedOnce name s assigned) {label : Label}
    (hkept : KeepsJob name s label) (hstep : step loc s label = some t) :
    ReportedOnce name t (assigned ++ assigns loc name s label) := by
  by_cases hstarter : label = .starter
  · subst hstarter
    exact h.scanStarter hstep
  · by_cases hscan : label = .loop ∧ ∃ wall pc, s.loop = .scan wall pc
    · obtain ⟨rfl, wall, pc, hloop⟩ := hscan
      exact h.scanLoop hstep hloop
    · have hnot : label = .loop → ∀ wall pc, s.loop ≠ .scan wall pc := by
        rintro rfl wall pc hloop
        exact hscan ⟨rfl, wall, pc, hloop⟩
      have hassigns : assigns loc name s label = [] := by
        cases label with
        | starter => exact absurd rfl hstarter
        | loop =>
            cases hloop : s.loop with
            | scan wall pc => exact absurd hloop (hnot rfl wall pc)
            | _ => simp [assigns, hloop, ScanPc.assigns]
        | _ => rfl
      rw [hassigns, List.append_nil]
      exact h.undisturbed (step_undisturbed hstep hkept hstarter hnot)

/-- As long as the job is not removed, every occurrence of it is queued as
missed at most once and announced at most once, and the values assigned to
`missed_handled_` for it are strictly increasing. -/
theorem missed_reported_once {config : List Job} {table : JobTable}
    {lastRun : Bytes → Option RunRecord} {now : ℕ} {labels : List Label}
    (h : Run (step loc) (KeepsJob name) (initial loc config table lastRun now) labels s) :
    (missedOf name s.tickets).Nodup ∧ (missedAlerts name s.alertLog).Nodup ∧
      (trace (step loc) (assigns loc name) (initial loc config table lastRun now)
        labels).Pairwise (· < ·) := by
  have honce : ReportedOnce name s ([] ++ trace (step loc) (assigns loc name)
      (initial loc config table lastRun now) labels) := by
    apply h.invariant_trace (I := ReportedOnce name)
    · constructor <;> simp [initial, State.reported, State.alerted, missedOf, missedAlerts]
    · intro s label t assigned hinv hkept hstep
      exact hinv.step hkept hstep
  rw [List.nil_append] at honce
  have hreported : (s.reported name).Nodup :=
    honce.reported.nodup_iff.mpr (honce.increasing.imp fun hlt => hlt.ne)
  have hsub : (s.alerted name).Sublist (s.reported name) := by
    have halerted : ∀ pc : ScanPc, (pc.alerted name).Sublist (pc.reported name) := by
      intro pc
      cases pc <;> simp
    exact ((List.Sublist.refl _).append (halerted _)).append (halerted _)
  refine ⟨?_, ?_, honce.increasing⟩
  · exact (List.nodup_append.mp (List.nodup_append.mp hreported).1).1
  · exact honce.alerted.nodup_iff.mpr (hsub.nodup hreported)

/-- A scheduler with one job that runs every minute and recovers missed runs. -/
def recovering (lastRun : Bytes → Option RunRecord) (now : ℕ) : State :=
  let job : Job :=
    { name := text "a"
      command := text "true"
      schedule := some minutely
      missedRunPolicy := .runNow }
  initial midnight [job] JobTable.empty lastRun now

/-- A record of a run in the tenth second. -/
def earlyRun : RunRecord :=
  Worker.record { name := text "a", command := text "true" } .schedule
    { status := .success, startedAt := 10, endedAt := 10 }

/-- The scan of `start` and one of the loop look at the job at the same time:
one of them reports the missed minute, the other finds it handled. -/
theorem missed_reported_once_overlapping :
    ∃ s, Run (step midnight) (KeepsJob (text "a")) (recovering (fun _ => some earlyRun) 100)
        (.notifyWake :: .start :: List.replicate 3 .starter ++ List.replicate 6 .loop ++
          List.replicate 3 .starter ++ List.replicate 2 .loop) s ∧
      s.starter = .read 100 [] ∧ s.loop = .lock 100 ∧ missedOf (text "a") s.tickets = [60] ∧
      (missedOf (text "a") s.tickets).Nodup ∧ (missedAlerts (text "a") s.alertLog).Nodup := by
  obtain ⟨s, hrun, hs⟩ := Run.of_exec_any (step midnight) (KeepsJob (text "a"))
    (recovering (fun _ => some earlyRun) 100)
    (.notifyWake :: .start :: List.replicate 3 .starter ++ List.replicate 6 .loop ++
      List.replicate 3 .starter ++ List.replicate 2 .loop)
    (fun s => decide (s.starter = .read 100 [] ∧ s.loop = .lock 100 ∧
      missedOf (text "a") s.tickets = [60]))
    (by decide +kernel)
  obtain ⟨hstarter, hloop, htickets⟩ := of_decide_eq_true hs
  obtain ⟨hnodup, halerts, _⟩ := missed_reported_once hrun
  exact ⟨s, hrun, hstarter, hloop, htickets, hnodup, halerts⟩

end Runs

end AgentPulse.Scheduler
