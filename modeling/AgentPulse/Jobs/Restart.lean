import AgentPulse.Jobs.JobSet

/-!
# A restart finds the live job set

The live job set is compared with the one a new scheduler would build from the
same configuration and the stored table. The agreement is an invariant of
every sequence of calls, whichever of their database writes fail.
-/

namespace AgentPulse.JobSet

/-- One client call with everything that decides its outcome. -/
inductive Op where
  | add (job : Job) (dbError : Option Bytes) (now : Int)
  | remove (name : Bytes) (dbError : Option Bytes)

/-- The call itself: the new state and the text returned to the client. -/
def Op.apply (loc : LocalTime) (s : JobSet) : Op → JobSet × Bytes
  | .add job dbError now => addJob loc now job dbError s
  | .remove name dbError => removeJob name dbError s

/-- A sequential run of calls. -/
def runOps (loc : LocalTime) (s : JobSet) (ops : List Op) : JobSet :=
  ops.foldl (fun s op => (op.apply loc s).1) s

/-- A job as the `add_job` command builds it: the schedule is the parsed text,
and no text has a NUL byte. -/
structure BuiltByCommand (job : Job) : Prop where
  schedule : job.schedule = scheduleOf job.scheduleExpr
  name : (0 : UInt8) ∉ job.name
  command : (0 : UInt8) ∉ job.command
  scheduleExpr : (0 : UInt8) ∉ job.scheduleExpr

def Op.Admissible : Op → Prop
  | .add job _ _ => BuiltByCommand job
  | .remove _ _ => True

/-- The stored definitions that no configured job shadows. -/
def unshadowed (config : List Job) (rows : List JobDef) : List JobDef :=
  rows.filter fun d => d.name ∉ config.map Job.name

/-- The live jobs are the configured ones and the unshadowed stored ones. -/
def Agrees (config : List Job) (s : JobSet) : Prop :=
  s.jobs.Perm (config ++ (unshadowed config s.table.rows).map jobFromDef)

theorem unshadowed_cons (jobs : List Job) (d : JobDef) (rest : List JobDef) :
    unshadowed jobs (d :: rest) =
      if d.name ∈ jobs.map Job.name then unshadowed jobs rest
      else d :: unshadowed jobs rest := by
  by_cases h : d.name ∈ jobs.map Job.name
  · rw [if_pos h]
    exact List.filter_cons_of_neg (by simpa using h)
  · rw [if_neg h]
    exact List.filter_cons_of_pos (by simpa using h)

/-- The constructor's merge keeps the jobs it has and appends the unshadowed rows. -/
theorem mergeDefs_eq (jobs : List Job) (ds : List JobDef) (hn : (ds.map JobDef.name).Nodup) :
    ds.foldl mergeDef jobs = jobs ++ (unshadowed jobs ds).map jobFromDef := by
  induction ds generalizing jobs with
  | nil => simp [unshadowed]
  | cons d rest ih =>
      obtain ⟨hd, hrest⟩ := List.nodup_cons.mp (List.map_cons ▸ hn)
      rw [List.foldl_cons, ih _ hrest]
      by_cases hmem : d.name ∈ jobs.map Job.name
      · have hfind : findJob jobs d.name ≠ none := fun h => findJob_eq_none_iff.mp h hmem
        rw [mergeDef, if_neg hfind, unshadowed_cons, if_pos hmem]
      · have hfind : findJob jobs d.name = none := findJob_eq_none_iff.mpr hmem
        have hfilter : unshadowed (jobs ++ [jobFromDef d]) rest = unshadowed jobs rest := by
          apply List.filter_congr
          intro e he
          have hne : e.name ≠ d.name := fun h => hd (h ▸ List.mem_map_of_mem he)
          simp [jobFromDef, hne]
        rw [mergeDef, if_pos hfind, hfilter, unshadowed_cons, if_neg hmem]
        simp

variable {loc : LocalTime} {config : List Job}

/-- The constructor establishes the agreement. -/
theorem agrees_construct (table : JobTable) (lastRun : Bytes → Option RunRecord) (now : Int) :
    Agrees config (construct loc config table lastRun now) := by
  have hn : (table.load.map JobDef.name).Nodup :=
    (table.load_perm.map JobDef.name).nodup_iff.mpr table.nodup
  unfold Agrees
  change (table.load.foldl mergeDef config).Perm _
  rw [mergeDefs_eq config table.load hn]
  exact ((table.load_perm.filter _).map _).append_left _

theorem Agrees.mem_names {s : JobSet} (h : Agrees config s) {n : Bytes} :
    n ∈ s.jobs.map Job.name ↔ n ∈ config.map Job.name ∨ n ∈ s.table.names := by
  rw [(h.map Job.name).mem_iff]
  simp only [List.map_append, List.mem_append, List.map_map]
  have hname : Job.name ∘ jobFromDef = JobDef.name := rfl
  rw [hname]
  by_cases hc : n ∈ config.map Job.name
  · simp [hc]
  · simp only [hc, false_or, unshadowed, JobTable.names, List.mem_map, List.mem_filter]
    constructor
    · rintro ⟨d, ⟨hd, _⟩, rfl⟩
      exact ⟨d, hd, rfl⟩
    · rintro ⟨d, hd, rfl⟩
      exact ⟨d, ⟨hd, by simpa using hc⟩, rfl⟩

/-- Agreement with a configuration of unique names makes the live names unique. -/
theorem Agrees.nodup {s : JobSet} (h : Agrees config s) (hc : (config.map Job.name).Nodup) :
    (s.jobs.map Job.name).Nodup := by
  rw [(h.map Job.name).nodup_iff, List.map_append, List.map_map]
  refine List.Nodup.append hc ?_ ?_
  · exact (List.filter_sublist.map JobDef.name).nodup s.table.nodup
  · intro n hn hrow
    obtain ⟨d, hd, rfl⟩ := List.mem_map.mp hrow
    have hfree := (List.mem_filter.mp hd).2
    exact absurd hn (by simpa [jobFromDef] using hfree)

/-- A stored copy of a job built by the command is its own row. -/
theorem stored_defFromJob {job : Job} (h : BuiltByCommand job) :
    (defFromJob (storedJob job)).stored = defFromJob (storedJob job) := by
  have hpolicy : cString job.missedRunPolicy.toText = job.missedRunPolicy.toText := by
    cases job.missedRunPolicy <;> decide
  simp [JobDef.stored, defFromJob, storedJob, hpolicy, cString_eq_self h.name,
    cString_eq_self h.command, cString_eq_self h.scheduleExpr]

theorem agrees_add {s : JobSet} (h : Agrees config s) {job : Job} (hjob : BuiltByCommand job)
    {dbError : Option Bytes} {now : Int} :
    Agrees config (addJob loc now job dbError s).1 := by
  unfold addJob
  cases hcheck : addJobCheck s.jobs job with
  | some error => exact h
  | none =>
      cases dbError with
      | some what => exact h
      | none =>
          have hfree := findJob_eq_none_iff.mp (findJob_of_addJobCheck hcheck)
          rw [h.mem_names, not_or] at hfree
          have hrow : cString (defFromJob (storedJob job)).name ∉ s.table.names := by
            rw [show (defFromJob (storedJob job)).name = job.name from rfl,
              cString_eq_self hjob.name]
            exact hfree.2
          have hback : jobFromDef (defFromJob (storedJob job)) = storedJob job :=
            jobFromDef_defFromJob rfl hjob.schedule
          have hkeep : (defFromJob (storedJob job)).name ∉ config.map Job.name := hfree.1
          unfold Agrees addJobUpdate
          simp only [JobTable.upsert_rows_of_not_mem hrow, stored_defFromJob hjob, unshadowed,
            List.filter_append, List.map_append]
          rw [List.filter_cons_of_pos (by simpa using hkeep), List.filter_nil, List.map_singleton,
            hback, ← List.append_assoc]
          exact h.append_right _

theorem agrees_remove {s : JobSet} (h : Agrees config s)
    (hsource : ∀ job ∈ config, job.source = .config) (hc : (config.map Job.name).Nodup)
    {name : Bytes} {dbError : Option Bytes} : Agrees config (removeJob name dbError s).1 := by
  unfold removeJob
  cases hcheck : removeJobCheck s.jobs name with
  | some error => exact h
  | none =>
      cases dbError with
      | some what => exact h
      | none =>
          obtain ⟨job, hfind, hui⟩ := removeJobCheck_eq_none_iff.mp hcheck
          obtain ⟨hmem, rfl⟩ := (findJob_eq_some_iff (h.nodup hc)).mp hfind
          have hnot : job.name ∉ config.map Job.name := by
            intro hin
            obtain ⟨other, hother, hname⟩ := List.mem_map.mp hin
            have hlive : other ∈ s.jobs := h.mem_iff.mpr (List.mem_append_left _ hother)
            have heq := List.inj_on_of_nodup_map (h.nodup hc) hlive hmem hname
            rw [← heq, hsource other hother] at hui
            cases hui
          have hrow : job.name ∈ s.table.names :=
            (h.mem_names.mp (List.mem_map_of_mem hmem)).resolve_left hnot
          have hcstr := JobTable.cString_of_mem_names hrow
          have hconfig : config.filter (fun j => j.name ≠ job.name) = config := by
            rw [List.filter_eq_self]
            intro j hj
            have hne : j.name ≠ job.name := fun heq => hnot (heq ▸ List.mem_map_of_mem hj)
            simpa using hne
          have hfiltered := h.filter (fun j : Job => j.name ≠ job.name)
          rw [List.filter_append, hconfig, List.filter_map] at hfiltered
          unfold Agrees removeJobUpdate unshadowed JobTable.delete
          simp only [hcstr]
          rw [List.filter_comm]
          exact hfiltered

/-- Every sequential run of calls keeps the agreement. -/
theorem agrees_runOps (hsource : ∀ job ∈ config, job.source = .config)
    (hc : (config.map Job.name).Nodup) {s : JobSet} (h : Agrees config s) {ops : List Op}
    (hops : ∀ op ∈ ops, op.Admissible) : Agrees config (runOps loc s ops) := by
  induction ops generalizing s with
  | nil => exact h
  | cons op rest ih =>
      apply ih _ fun op' hop' => hops op' (List.mem_cons_of_mem _ hop')
      have hop := hops op List.mem_cons_self
      cases op with
      | add job dbError now => exact agrees_add h hop
      | remove name dbError => exact agrees_remove h hsource hc

theorem addJob_error {now : Int} {job : Job} {dbError : Option Bytes} {s : JobSet}
    (h : (addJob loc now job dbError s).2 ≠ []) : (addJob loc now job dbError s).1 = s := by
  cases hcheck : addJobCheck s.jobs job with
  | some error => simp [addJob, hcheck]
  | none =>
      cases dbError with
      | some what => simp [addJob, hcheck]
      | none => simp [addJob, hcheck] at h

theorem removeJob_error {name : Bytes} {dbError : Option Bytes} {s : JobSet}
    (h : (removeJob name dbError s).2 ≠ []) : (removeJob name dbError s).1 = s := by
  cases hcheck : removeJobCheck s.jobs name with
  | some error => simp [removeJob, hcheck]
  | none =>
      cases dbError with
      | some what => simp [removeJob, hcheck]
      | none => simp [removeJob, hcheck] at h

/-- A call that returns an error text changes nothing. -/
theorem Op.apply_error (op : Op) (s : JobSet) (h : (op.apply loc s).2 ≠ []) :
    (op.apply loc s).1 = s := by
  cases op with
  | add job dbError now => exact addJob_error h
  | remove name dbError => exact removeJob_error h

/-- A new scheduler over the same configuration and the resulting table has the
live jobs under the live names, and every call that returned an error left the
maps and the table as they were. -/
theorem restart_finds_live_jobs (loc : LocalTime) (config : List Job) (table : JobTable)
    (lastRun lastRun' : Bytes → Option RunRecord) (now now' : Int)
    (hsource : ∀ job ∈ config, job.source = .config) (hc : (config.map Job.name).Nodup)
    (ops : List Op) (hops : ∀ op ∈ ops, op.Admissible) :
    let start := construct loc config table lastRun now
    let live := runOps loc start ops
    let fresh := construct loc config live.table lastRun' now'
    (live.jobs.map Job.name).Nodup ∧ (fresh.jobs.map Job.name).Nodup ∧
      (∀ name, findJob fresh.jobs name = findJob live.jobs name) ∧
      ∀ done op rest, ops = done ++ op :: rest →
        (op.apply loc (runOps loc start done)).2 ≠ [] →
          (op.apply loc (runOps loc start done)).1 = runOps loc start done := by
  intro start live fresh
  have hlive : Agrees config live := agrees_runOps hsource hc (agrees_construct _ _ _) hops
  have hfresh : Agrees config fresh := agrees_construct _ _ _
  refine ⟨hlive.nodup hc, hfresh.nodup hc, ?_, ?_⟩
  · exact KeyedList.find?_perm (hfresh.trans hlive.symm) (hfresh.nodup hc)
  · intro done op rest _ herror
    exact op.apply_error _ herror

/-- A configured job shadows a stored row of its name; a client adds a
scheduled job, fails to remove it, removes the other stored job, and adds a
name twice. -/
theorem restart_finds_live_jobs_shadowed :
    let config : List Job := [{ name := text "a", command := text "true" }]
    let row : Bytes → JobDef := fun n =>
      { name := n, command := text "date", scheduleExpr := [], missedRunPolicy := text "none",
        timeoutSeconds := 5, retries := 1 }
    let table : JobTable := ⟨[row (text "b"), row (text "a")], by decide, by decide⟩
    let added : Job :=
      { name := text "c", command := text "ls", scheduleExpr := text "5 * * * *",
        schedule := scheduleOf (text "5 * * * *") }
    let loc : LocalTime := fun t => ⟨t / 60 % 60, t / 3600 % 24, 1, 0, 4⟩
    let ops : List Op :=
      [.add added none 0, .remove (text "c") (some (text "locked")), .remove (text "b") none,
        .add added none 0]
    let live := runOps loc (construct loc config table (fun _ => none) 0) ops
    live.jobs.map Job.name = [text "a", text "c"] ∧
      ∀ name, findJob (construct loc config live.table (fun _ => none) 9).jobs name =
        findJob live.jobs name := by
  intro config row table added loc ops live
  refine ⟨by decide +kernel, ?_⟩
  exact (restart_finds_live_jobs loc config table (fun _ => none) (fun _ => none) 0 9
    (by decide) (by decide) ops (by
      have hadded : BuiltByCommand added := ⟨rfl, by decide, by decide, by decide⟩
      simp [ops, Op.Admissible, hadded])).2.2.1

end AgentPulse.JobSet
