import AgentPulse.Config

/-!
# The jobs of the configuration file

`parse_policy`, `parse_job` and the jobs part of `load_config` in
`config/config.cpp`. Every failure is an exception whose text reaches the log,
and none of the jobs is kept.

## Implementation notes

The YAML library is a parameter: it parses the file and converts scalars. A
mapping is a list of entries with scalar keys, since no other key is looked up.
-/

namespace AgentPulse

/-- A node of the parsed file. -/
inductive Yaml where
  | null
  | scalar (s : Bytes)
  | seq (items : List Yaml)
  | map (entries : List (Bytes × Yaml))

/-- `node[key]` of a mapping; `none` is a node that is not defined. -/
def Yaml.get? (key : String) : Yaml → Option Yaml
  | .map entries => (entries.find? fun e => e.1 = text key).map Prod.snd
  | _ => none

/-- What the YAML library contributes: `as<std::string>()` and `as<int>()`, where
an error is the text of the exception. -/
structure YamlLibrary where
  asString : Yaml → Except Bytes Bytes
  asInt : Yaml → Except Bytes Int32

/-- The documented conversions of a scalar: its text, and the integer it
denotes provided that fits an `int`. -/
structure YamlLibrary.Documented (yaml : YamlLibrary) : Prop where
  asString_scalar : ∀ s, yaml.asString (.scalar s) = .ok s
  asInt_fits : ∀ i : Int, -2 ^ 31 ≤ i → i < 2 ^ 31 →
    yaml.asInt (.scalar (intText i)) = .ok (Int32.ofInt i)
  asInt_outside : ∀ i : Int, i < -2 ^ 31 ∨ 2 ^ 31 ≤ i →
    ∃ what, yaml.asInt (.scalar (intText i)) = .error what

section ParseJob

variable (yaml : YamlLibrary)

/-- The strict reading of a policy: only the empty text also means `none`. -/
def parsePolicy (s : Bytes) : Except Bytes MissedRunPolicy :=
  if s = text "run_on_wake" then .ok .runOnWake
  else if s = text "run_now" then .ok .runNow
  else if s = text "none" ∨ s = [] then .ok .none
  else .error (text "invalid missed_run_policy: '" ++ s ++ text "'")

/-- A field that has to be there and not empty. -/
def requiredField (node : Yaml) (key : String) (missing : Bytes) : Except Bytes Bytes :=
  match node.get? key with
  | none => .error missing
  | some value => do
      let s ← yaml.asString value
      if s = [] then .error missing else .ok s

/-- The text of the schedule with its parse; a job without one is run on request only. -/
def scheduleField (node : Yaml) (name : Bytes) : Except Bytes (Bytes × Option CronSchedule) :=
  match node.get? "schedule" with
  | none => .ok ([], none)
  | some value => do
      let expr ← yaml.asString value
      match CronSchedule.parse expr with
      | none =>
          .error (text "job '" ++ name ++ text "' has invalid cron schedule: '" ++ expr ++ text "'")
      | some cron => .ok (expr, some cron)

def policyField (node : Yaml) : Except Bytes MissedRunPolicy :=
  match node.get? "missed_run_policy" with
  | none => .ok .none
  | some value => do
      let s ← yaml.asString value
      parsePolicy s

/-- A count that is zero unless given and must not be negative. -/
def countField (node : Yaml) (name : Bytes) (key : String) : Except Bytes Int32 :=
  match node.get? key with
  | none => .ok 0
  | some value => do
      let n ← yaml.asInt value
      if n < 0 then .error (text "job '" ++ name ++ text "' has negative " ++ text key) else .ok n

/-- `parse_job`. -/
def parseJob (node : Yaml) (index : Nat) : Except Bytes Job :=
  match node with
  | .map _ => do
      let name ← requiredField yaml node "name"
        (text "job #" ++ intText index ++ text " is missing 'name'")
      let command ← requiredField yaml node "command"
        (text "job '" ++ name ++ text "' is missing 'command'")
      let schedule ← scheduleField yaml node name
      let policy ← policyField yaml node
      let timeout ← countField yaml node name "timeout_seconds"
      let retries ← countField yaml node name "retries"
      .ok {
        name := name
        command := command
        schedule := schedule.2
        scheduleExpr := schedule.1
        missedRunPolicy := policy
        timeoutSeconds := timeout
        retries := retries }
  | _ => .error (text "job #" ++ intText index ++ text " is not a mapping")

/-- The loop of `load_config` over the sequence, with the jobs it has. -/
def loadJobsFrom (jobs : List Job) (index : Nat) : List Yaml → Except Bytes (List Job)
  | [] => .ok jobs
  | node :: rest => do
      let job ← parseJob yaml node index
      if job.name ∈ jobs.map Job.name then
        .error (text "duplicate job name: '" ++ job.name ++ text "'")
      else loadJobsFrom (jobs ++ [job]) (index + 1) rest

/-- The jobs part of `load_config`, from `root["jobs"]`. -/
def loadJobs : Option Yaml → Except Bytes (List Job)
  | none => .ok []
  | some (.seq items) => loadJobsFrom yaml [] 0 items
  | some _ => .error (text "'jobs' must be a sequence")

end ParseJob

section Conversions

theorem bind_eq_ok_iff {α β : Type} {x : Except Bytes α} {f : α → Except Bytes β} {b : β} :
    x >>= f = .ok b ↔ ∃ a, x = .ok a ∧ f a = .ok b := by
  cases x with
  | error e => simp [bind, Except.bind]
  | ok a => simp [bind, Except.bind]

/-- The strict reading takes the three words and the empty text, and agrees with
the lenient one on them. -/
theorem parsePolicy_eq_ok_iff {s : Bytes} {p : MissedRunPolicy} :
    parsePolicy s = .ok p ↔
      (s = [] ∨ ∃ q : MissedRunPolicy, s = q.toText) ∧ p = missedRunPolicyFromString s := by
  have hwords : ∀ q : MissedRunPolicy, parsePolicy q.toText = .ok q := by
    intro q
    cases q <;> decide
  constructor
  · intro h
    unfold parsePolicy at h
    split_ifs at h with hwake hnow hnone
    · cases h
      exact ⟨Or.inr ⟨.runOnWake, hwake⟩, by rw [hwake]; decide⟩
    · cases h
      exact ⟨Or.inr ⟨.runNow, hnow⟩, by rw [hnow]; decide⟩
    · cases h
      exact ⟨hnone.symm.imp_right fun h => ⟨.none, h⟩, by
        rw [missedRunPolicyFromString, if_neg hwake, if_neg hnow]⟩
  · rintro ⟨rfl | ⟨q, rfl⟩, rfl⟩
    · decide
    · rw [missedRunPolicyFromString_toText]
      exact hwords q

end Conversions

section Loaded

variable {yaml : YamlLibrary}

/-- What `load_config` guarantees of a job. -/
structure Job.Loaded (job : Job) : Prop where
  name_ne : job.name ≠ []
  command_ne : job.command ≠ []
  schedule : job.schedule = CronSchedule.parse job.scheduleExpr
  timeout_nonneg : 0 ≤ job.timeoutSeconds
  retries_nonneg : 0 ≤ job.retries
  source : job.source = .config

theorem requiredField_ne {node : Yaml} {key : String} {missing s : Bytes}
    (h : requiredField yaml node key missing = .ok s) : s ≠ [] := by
  unfold requiredField at h
  cases hget : node.get? key with
  | none => simp [hget] at h
  | some value =>
      simp only [hget] at h
      obtain ⟨s', _, h⟩ := bind_eq_ok_iff.mp h
      split_ifs at h with hempty
      cases h
      exact hempty

theorem scheduleField_parse {node : Yaml} {name : Bytes} {r : Bytes × Option CronSchedule}
    (h : scheduleField yaml node name = .ok r) : r.2 = CronSchedule.parse r.1 := by
  unfold scheduleField at h
  cases hget : node.get? "schedule" with
  | none =>
      simp only [hget] at h
      cases h
      decide
  | some value =>
      simp only [hget] at h
      obtain ⟨expr, _, h⟩ := bind_eq_ok_iff.mp h
      cases hparse : CronSchedule.parse expr with
      | none => simp [hparse] at h
      | some cron =>
          simp only [hparse] at h
          cases h
          exact hparse.symm

theorem countField_nonneg {node : Yaml} {name : Bytes} {key : String} {n : Int32}
    (h : countField yaml node name key = .ok n) : 0 ≤ n := by
  unfold countField at h
  cases hget : node.get? key with
  | none =>
      simp only [hget] at h
      cases h
      decide
  | some value =>
      simp only [hget] at h
      obtain ⟨m, _, h⟩ := bind_eq_ok_iff.mp h
      split_ifs at h with hneg
      cases h
      exact Int32.not_lt.mp hneg

/-- A job is accepted if each of its fields is, and it consists of what was read. -/
theorem parseJob_eq_ok_iff {entries : List (Bytes × Yaml)} {index : Nat} {job : Job} :
    parseJob yaml (.map entries) index = .ok job ↔
      ∃ name command schedule policy timeout retries,
        requiredField yaml (.map entries) "name"
          (text "job #" ++ intText index ++ text " is missing 'name'") = .ok name ∧
        requiredField yaml (.map entries) "command"
          (text "job '" ++ name ++ text "' is missing 'command'") = .ok command ∧
        scheduleField yaml (.map entries) name = .ok schedule ∧
        policyField yaml (.map entries) = .ok policy ∧
        countField yaml (.map entries) name "timeout_seconds" = .ok timeout ∧
        countField yaml (.map entries) name "retries" = .ok retries ∧
        job = {
          name := name
          command := command
          schedule := schedule.2
          scheduleExpr := schedule.1
          missedRunPolicy := policy
          timeoutSeconds := timeout
          retries := retries } := by
  unfold parseJob
  simp only [bind_eq_ok_iff, exists_and_left, Except.ok.injEq]
  simp only [eq_comm (b := job)]

theorem parseJob_loaded {node : Yaml} {index : Nat} {job : Job}
    (h : parseJob yaml node index = .ok job) : job.Loaded := by
  cases node with
  | map entries =>
      obtain ⟨name, command, schedule, policy, timeout, retries, hname, hcommand, hschedule, _,
        htimeout, hretries, rfl⟩ := parseJob_eq_ok_iff.mp h
      exact {
        name_ne := requiredField_ne hname
        command_ne := requiredField_ne hcommand
        schedule := scheduleField_parse hschedule
        timeout_nonneg := countField_nonneg htimeout
        retries_nonneg := countField_nonneg hretries
        source := rfl }
  | null => simp [parseJob] at h
  | scalar s => simp [parseJob] at h
  | seq items => simp [parseJob] at h

/-- The loop keeps the names distinct and every job as `parse_job` left it. -/
theorem loadJobsFrom_loaded {items : List Yaml} {jobs loaded : List Job} {index : Nat}
    (h : loadJobsFrom yaml jobs index items = .ok loaded) (hnodup : (jobs.map Job.name).Nodup)
    (hjobs : ∀ job ∈ jobs, job.Loaded) :
    (loaded.map Job.name).Nodup ∧ ∀ job ∈ loaded, job.Loaded := by
  induction items generalizing jobs index with
  | nil =>
      cases h
      exact ⟨hnodup, hjobs⟩
  | cons node rest ih =>
      rw [loadJobsFrom] at h
      obtain ⟨job, hjob, h⟩ := bind_eq_ok_iff.mp h
      split_ifs at h with htaken
      apply ih h
      · rw [List.map_append, List.map_singleton, List.nodup_append]
        exact ⟨hnodup, List.nodup_singleton _, fun a ha b hb heq =>
          htaken (List.mem_singleton.mp hb ▸ heq ▸ ha)⟩
      · intro other hother
        obtain hother | hother := List.mem_append.mp hother
        · exact hjobs other hother
        · rw [List.mem_singleton.mp hother]
          exact parseJob_loaded hjob

/-- The jobs of a configuration have distinct names and are well-formed. -/
theorem loadJobs_loaded {root : Option Yaml} {jobs : List Job} (h : loadJobs yaml root = .ok jobs) :
    (jobs.map Job.name).Nodup ∧ ∀ job ∈ jobs, job.Loaded := by
  cases root with
  | none =>
      cases h
      simp
  | some node =>
      cases node with
      | seq items => exact loadJobsFrom_loaded h (by simp) (by simp)
      | null => simp [loadJobs] at h
      | scalar s => simp [loadJobs] at h
      | map entries => simp [loadJobs] at h

end Loaded

end AgentPulse
