import AgentPulse.Ipc.AddJob
import AgentPulse.Jobs.Retry

/-!
# The attempts of an admitted job

A job reaches the scheduler through the configuration file, the `add_job`
command or a stored definition. Only the file refuses a negative number of
retries, with which a launch raises its alert although the command was never
run, and none of the three refuses the largest `int`, with which
`job.retries + 1` overflows.
-/

namespace AgentPulse

open Transition Worker

/-- The sum `job.retries + 1` is an `int` and positive, and a launch does not
raise an alert or return before it has run the command, while `active_` stays
true. -/
structure Worker.ExecutesFirst (job : Job) : Prop where
  fits : (job.retries + 1).toInt = attempts job
  pos : 1 ≤ attempts job
  executes : ∀ trigger outcomes lastRun labels p,
    Run (advance job trigger outcomes) free (.initial lastRun) labels p →
    (∀ i ∈ labels, i.active = true) → p.alerts ≠ [] ∨ p.done = true → p.results ≠ []

section Attempts

variable {job : Job} {trigger : Trigger} {outcomes : ℕ → Outcome} {lastRun : Option RunRecord}
  {p : Progress}

theorem toInt_add_one_iff (n : Int32) : (n + 1).toInt = n.toInt + 1 ↔ n ≠ 2147483647 := by
  have hlow := Int32.le_toInt n
  have hhigh := Int32.toInt_lt n
  have hmax : n = 2147483647 ↔ n.toInt = 2147483647 := Int32.toInt_inj.symm
  have hone : (1 : Int32).toInt = 1 := by decide
  rw [Int32.toInt_add, hone, Ne, hmax, Int.bmod_def]
  split_ifs
  · omega
  · omega

/-- An execution that has raised its alert or returned has run the command. -/
theorem results_ne_nil (hretries : 0 ≤ job.retries.toInt) {labels : List Input}
    (hrun : Run (advance job trigger outcomes) free (.initial lastRun) labels p)
    (hactive : ∀ i ∈ labels, i.active = true) (hend : p.alerts ≠ [] ∨ p.done = true) :
    p.results ≠ [] := by
  have hkept := kept_of_run hretries hrun
  have hdecided := decided_of_run hretries hrun hactive
  have hpc : p.pc = .signalDone ∨ p.pc = .returned := by
    obtain halerts | hdone := hend
    · exact hkept.silent.resolve_left halerts
    · exact Or.inr (hkept.done.mp hdone)
  apply List.ne_nil_of_length_pos
  obtain hsignal | hreturned := hpc
  · rw [hsignal] at hdecided
    exact results_pos hretries hdecided
  · rw [hreturned] at hdecided
    exact results_pos hretries hdecided

theorem executesFirst_iff :
    ExecutesFirst job ↔ 0 ≤ job.retries ∧ job.retries ≠ 2147483647 := by
  have hattempts : attempts job = job.retries.toInt + 1 := rfl
  have hzero : 0 ≤ job.retries ↔ 0 ≤ job.retries.toInt := Int32.le_iff_toInt_le
  rw [hzero, ← toInt_add_one_iff]
  constructor
  · intro h
    have hpos := h.pos
    exact ⟨by omega, h.fits⟩
  · rintro ⟨hretries, hfits⟩
    exact ⟨hfits, by omega, fun _ _ _ _ _ hrun => results_ne_nil hretries hrun⟩

/-- The number of retries `add_job` takes from the body of the request. -/
theorem retries_of_readJob {V : Type} {lib : JsonLibrary V} {body : Json V}
    (h : Api.readJob lib body = .ok job) : job.retries = body.numField lib "retries" := by
  unfold Api.readJob at h
  simp only at h
  split_ifs at h
  · cases h
    rfl
  · split at h
    · cases h
    · cases h
      rfl

end Attempts

/-- A job of the configuration file runs its command first unless its number of
retries is the largest `int`; one from a client or from the table does so if
that number is moreover not negative. -/
theorem admitted_executes_first_iff {V : Type} (yaml : YamlLibrary) (lib : JsonLibrary V) :
    (∀ root jobs, loadJobs yaml root = .ok jobs → ∀ job ∈ jobs,
      (ExecutesFirst job ↔ job.retries ≠ 2147483647)) ∧
    (∀ body job, Api.readJob lib body = .ok job →
      (ExecutesFirst (JobSet.storedJob job) ↔
        0 ≤ body.numField lib "retries" ∧ body.numField lib "retries" ≠ 2147483647)) ∧
    ∀ d : JobDef, ExecutesFirst (jobFromDef d) ↔ 0 ≤ d.retries ∧ d.retries ≠ 2147483647 := by
  refine ⟨?_, ?_, fun d => executesFirst_iff⟩
  · intro root jobs hload job hjob
    rw [executesFirst_iff]
    exact and_iff_right ((loadJobs_loaded hload).2 job hjob).retries_nonneg
  · intro body job hread
    rw [← retries_of_readJob hread]
    exact executesFirst_iff

/-- A job of the file with two retries. -/
theorem admitted_executes_first_backup : ExecutesFirst JobFields.backup.job :=
  ((admitted_executes_first_iff JobFields.plainYaml (JobFields.lineLibrary .backup)).1
    (some (.seq [JobFields.backup.toYaml])) [JobFields.backup.job] (by decide +kernel)
    JobFields.backup.job (List.mem_singleton_self _)).mpr (by decide)

/-- A job accepted from a client raises its alert without a run of its command,
and a job accepted from the file has one retry too many to count. -/
theorem admitted_without_execution :
    (JobFields.Accepted (JobFields.lineLibrary (.lenientJob none none (some (-1))))
        JobFields.controlApi (JobFields.requestLine (.lenientJob none none (some (-1)))) ∧
      Api.readJob (JobFields.lineLibrary (.lenientJob none none (some (-1))))
        (JobFields.lenientJob none none (some (-1))).toJson =
          .ok (JobFields.lenientJob none none (some (-1))).job ∧
      ∃ p, Run (advance (JobSet.storedJob (JobFields.lenientJob none none (some (-1))).job) .manual
          fun _ => { status := .success }) free (.initial none)
          [⟨true, 0⟩, ⟨true, 0⟩, ⟨true, 0⟩] p ∧
        (p.alerts ≠ [] && p.results = [] : Bool) = true) ∧
    loadJobs JobFields.plainYaml
        (some (.seq [(JobFields.lenientJob none none (some 2147483647)).toYaml])) =
      .ok [(JobFields.lenientJob none none (some 2147483647)).job] ∧
    ((JobFields.lenientJob none none (some 2147483647)).job.retries + 1).toInt ≠
      attempts (JobFields.lenientJob none none (some 2147483647)).job := by
  refine ⟨⟨JobFields.accepted_lenientJob (by simp), ?_, ?_⟩, by decide +kernel, by decide⟩
  · apply JobFields.readJob_toJson.mpr
    refine ⟨⟨?_, ?_, ?_⟩, rfl⟩
    · decide
    · decide
    · intro expr hexpr
      cases hexpr
  · exact Run.of_exec_any _ free _ _ _ (by decide +kernel)

end AgentPulse
