import AgentPulse.Ipc.AddJob
import AgentPulse.Ipc.JsonText
import AgentPulse.LoadRules

/-!
# Every well-formed configuration can be written down

A configuration with distinct names, complete and in range, is what `load_config`
makes of the file that spells it out, and `load_config` returns no other
configuration.

## Implementation notes

The file is a tree of nodes, from which the YAML library has to be able to read
a text, an integer and a number back.
-/

namespace AgentPulse

variable {V : Type}

/-- The documented conversions of a scalar, where a number is written as the
given text. -/
structure ConfigLibrary.Documented (lib : ConfigLibrary V) (write : V → Bytes) : Prop
    extends lib.toYamlLibrary.Documented where
  asDouble_write : ∀ v, lib.asDouble (.scalar (write v)) = .ok v

/-- The fields of a job of the file. -/
def Job.written (job : Job) : JobFields where
  name := job.name
  command := job.command
  schedule := if job.scheduleExpr = [] then none else some job.scheduleExpr
  missedRunPolicy := some job.missedRunPolicy.toText
  timeoutSeconds := some job.timeoutSeconds.toInt
  retries := some job.retries.toInt

section Writing

variable [DecidableEq V] (lib : ConfigLibrary V) (write : V → Bytes)

/-- The word of a thermal threshold. -/
def thermalWord (threshold : V) : Bytes :=
  (([.nominal, .fair, .serious, .critical] : List ThermalState).find? fun state =>
    lib.ofLevel state.level = threshold).elim [] ThermalState.toText

/-- The text of a threshold. -/
def Rule.thresholdText (rule : Rule V) : Bytes :=
  if rule.metric = text "system.thermal_state" then thermalWord lib rule.threshold
  else write rule.threshold

/-- The fields of a rule of the file. -/
def Rule.written (rule : Rule V) : List (Bytes × Yaml) :=
  [(text "name", .scalar rule.name),
    (text "metric", .scalar rule.metric),
    (text "condition", .scalar rule.condition.toText),
    (text "threshold", .scalar (rule.thresholdText lib write)),
    (text "duration_seconds", .scalar (intText rule.durationSeconds)),
    (text "cooldown_seconds", .scalar (intText rule.cooldownSeconds)),
    (text "severity", .scalar rule.severity)]

def QuietHours.written (quietHours : QuietHours) : List (Bytes × Yaml) :=
  [(text "start_hour", .scalar (intText quietHours.startHour)),
    (text "end_hour", .scalar (intText quietHours.endHour))]

/-- The entries of the file. -/
def Config.entries (config : Config V) : List (Bytes × Yaml) :=
  [(text "jobs", .seq (config.jobs.map fun job => job.written.toYaml)),
    (text "rules", .seq (config.rules.map fun rule => .map (rule.written lib write)))] ++
  if config.quietHours.enabled then [(text "quiet_hours", .map config.quietHours.written)] else []

def Config.toYaml (config : Config V) : Yaml := .map (config.entries lib write)

end Writing

section Lookups

theorem Yaml.get?_of_mem {entries : List (Bytes × Yaml)} {key : String} {value : Yaml}
    (hn : (entries.map Prod.fst).Nodup) (h : (text key, value) ∈ entries) :
    (Yaml.map entries).get? key = some value := by
  have hfind : entries.find? (fun e => e.1 = text key) = some (text key, value) :=
    (KeyedList.find?_eq_some_iff hn).mpr ⟨h, rfl⟩
  rw [Yaml.get?, hfind]
  rfl

theorem Yaml.get?_of_not_mem {entries : List (Bytes × Yaml)} {key : String}
    (h : text key ∉ entries.map Prod.fst) : (Yaml.map entries).get? key = none := by
  have hfind : entries.find? (fun e => e.1 = text key) = none := by
    rw [List.find?_eq_none]
    intro e he hkey
    exact h (List.mem_map.mpr ⟨e, he, of_decide_eq_true hkey⟩)
  rw [Yaml.get?, hfind]
  rfl

theorem subscript_map (lib : ConfigLibrary V) (entries : List (Bytes × Yaml)) (key : String) :
    subscript lib (.map entries) key = .ok ((Yaml.map entries).get? key) := rfl

end Lookups

section Jobs

variable {job : Job}

/-- A schedule that was given is there. -/
theorem parseJob_scheduled {yaml : YamlLibrary} {node : Yaml} {index : Nat}
    (h : parseJob yaml node index = .ok job) (hexpr : job.scheduleExpr ≠ []) :
    job.schedule ≠ none := by
  cases node with
  | map entries =>
      obtain ⟨name, command, schedule, policy, timeout, retries, -, -, hschedule, -, -, -, rfl⟩ :=
        parseJob_eq_ok_iff.mp h
      rw [scheduleField] at hschedule
      cases hget : (Yaml.map entries).get? "schedule" with
      | none =>
          rw [hget] at hschedule
          cases hschedule
          exact absurd rfl hexpr
      | some value =>
          rw [hget] at hschedule
          obtain ⟨expr, -, hschedule⟩ := bind_eq_ok_iff.mp hschedule
          cases hparse : CronSchedule.parse expr with
          | none => simp [hparse] at hschedule
          | some cron =>
              simp only [hparse] at hschedule
              cases hschedule
              exact Option.some_ne_none cron
  | null => simp [parseJob] at h
  | scalar s => simp [parseJob] at h
  | seq items => simp [parseJob] at h

theorem loadJobs_scheduled {yaml : YamlLibrary} {root : Option Yaml} {jobs : List Job}
    (h : loadJobs yaml root = .ok jobs) :
    ∀ job ∈ jobs, job.scheduleExpr ≠ [] → job.schedule ≠ none := by
  cases root with
  | none =>
      cases h
      simp
  | some node =>
      cases node with
      | seq items =>
          rw [loadJobs, loadJobsFrom_eq_loadDistinct] at h
          obtain ⟨more, rfl, -, hparsed⟩ := (loadDistinct_eq_ok_iff (by simp)).mp h
          intro job hjob
          obtain ⟨i, hi, rfl⟩ := List.getElem_of_mem hjob
          exact parseJob_scheduled (hparsed.get (hparsed.length_eq.symm ▸ hi) hi)
      | null => simp [loadJobs] at h
      | scalar s => simp [loadJobs] at h
      | map entries => simp [loadJobs] at h

/-- The fields of a loaded job are accepted and denote it. -/
theorem written_strict (h : job.Loaded) (hschedule : job.scheduleExpr ≠ [] → job.schedule ≠ none) :
    job.written.Strict ∧ job.written.job = job := by
  have hcount : ∀ n : Int32, 0 ≤ n → 0 ≤ n.toInt ∧ n.toInt < 2 ^ 31 := fun n hn =>
    ⟨Int32.le_iff_toInt_le.mp hn, toInt_bounds.2⟩
  refine ⟨⟨h.name_ne, h.command_ne, ?_, ?_, ?_, ?_⟩, ?_⟩
  · intro expr hexpr
    rw [Job.written] at hexpr
    split_ifs at hexpr with hblank
    · cases hexpr
    · obtain rfl := Option.some.inj hexpr
      rw [← h.schedule]
      exact Option.isSome_iff_ne_none.mpr (hschedule hblank)
  · intro s hs
    obtain rfl := Option.some.inj hs
    exact Or.inr ⟨_, rfl⟩
  · intro i hi
    obtain rfl := Option.some.inj hi
    exact hcount _ h.timeout_nonneg
  · intro i hi
    obtain rfl := Option.some.inj hi
    exact hcount _ h.retries_nonneg
  · have hparse := h.schedule
    have hsource := h.source
    obtain ⟨name, command, schedule, expr, policy, timeout, retries, source⟩ := job
    simp only at hparse hsource
    subst hsource
    by_cases hblank : expr = []
    · subst hblank
      have hnone : schedule = none := hparse.trans (by decide)
      simp [Job.written, JobFields.job, hnone]
    · simp [Job.written, JobFields.job, hblank, hparse]

end Jobs

section Rules

variable {lib : ConfigLibrary V} {write : V → Bytes} {rule : Rule V}

theorem parseCondition_toText (condition : Condition) :
    parseCondition condition.toText = .ok condition := by
  cases condition <;> decide

variable [DecidableEq V]

theorem ofLevel_thermalWord (state : ThermalState) :
    lib.ofLevel (thermalStateFromString (thermalWord lib (lib.ofLevel state.level))).level =
      lib.ofLevel state.level := by
  have hstate : state ∈ ([.nominal, .fair, .serious, .critical] : List ThermalState) := by
    cases state <;> decide
  obtain ⟨found, hfound⟩ : ∃ found, ([.nominal, .fair, .serious, .critical] :
      List ThermalState).find? (fun s => lib.ofLevel s.level = lib.ofLevel state.level) =
        some found := by
    rw [← Option.isSome_iff_exists, List.find?_isSome]
    exact ⟨state, hstate, by simp⟩
  rw [thermalWord, hfound, Option.elim_some, thermalStateFromString_toText]
  exact of_decide_eq_true (List.find?_some hfound :)

theorem written_keys : ((rule.written lib write).map Prod.fst).Nodup := by
  have hkeys : [text "name", text "metric", text "condition", text "threshold",
      text "duration_seconds", text "cooldown_seconds", text "severity"].Nodup := by decide
  exact hkeys

/-- The fields of a loaded rule are parsed as it, at any index. -/
theorem parseRule_written (hlib : lib.Documented write) (h : rule.Loaded lib) (index : Nat) :
    parseRule lib (.map (rule.written lib write)) index = .ok rule := by
  have hget : ∀ {key : String} {value : Yaml}, (text key, value) ∈ rule.written lib write →
      (Yaml.map (rule.written lib write)).get? key = some value := fun hmem =>
    Yaml.get?_of_mem written_keys hmem
  have hfits : ∀ i : Int, 0 ≤ i ∧ i < 2 ^ 31 →
      0 ≤ Int32.ofInt i ∧ (Int32.ofInt i).toInt = i := by
    intro i hi
    have hto : (Int32.ofInt i).toInt = i := Int32.toInt_ofInt_of_le (by omega) hi.2
    refine ⟨Int32.le_iff_toInt_le.mpr ?_, hto⟩
    rw [hto]
    exact hi.1
  have hpresent : ∀ {key : String} {missing s : Bytes},
      (text key, .scalar s) ∈ rule.written lib write →
        presentField (.map (rule.written lib write)) key missing >>= lib.asString = .ok s := by
    intro key missing s hmem
    rw [presentField, hget hmem]
    exact hlib.asString_scalar s
  have hseconds : ∀ {key : String} {i : Int}, 0 ≤ i ∧ i < 2 ^ 31 →
      (text key, .scalar (intText i)) ∈ rule.written lib write →
        secondsField lib (.map (rule.written lib write)) key = .ok (Int32.ofInt i) := by
    intro key i hi hmem
    rw [secondsField, hget hmem]
    exact hlib.asInt_fits i (by omega) hi.2
  refine parseRule_eq_ok_iff.mpr ⟨rule.name, rule.metric, rule.condition, rule.threshold,
    .ofInt rule.durationSeconds, .ofInt rule.cooldownSeconds, rule.severity, ?_,
    hpresent (by simp [Rule.written]), ?_, ?_, hseconds h.duration (by simp [Rule.written]),
    hseconds h.cooldown (by simp [Rule.written]), ?_, (hfits _ h.duration).1,
    (hfits _ h.cooldown).1, ?_⟩
  · exact (JobFields.requiredField_scalar hlib.toDocumented (hget (by simp [Rule.written]))).mpr
      ⟨h.name_ne, rfl⟩
  · rw [hpresent (s := rule.condition.toText) (by simp [Rule.written])]
    exact parseCondition_toText _
  · have hthreshold : (Yaml.map (rule.written lib write)).get? "threshold" =
        some (.scalar (rule.thresholdText lib write)) := hget (by simp [Rule.written])
    rw [thresholdField, presentField, hthreshold]
    by_cases hthermal : rule.metric = text "system.thermal_state"
    · obtain ⟨state, hstate⟩ := h.thermal hthermal
      rw [Rule.thresholdText, if_pos hthermal, hstate]
      refine (if_pos hthermal).trans ?_
      rw [hlib.asString_scalar]
      exact congrArg Except.ok (ofLevel_thermalWord state)
    · rw [Rule.thresholdText, if_neg hthermal]
      exact (if_neg hthermal).trans (hlib.asDouble_write _)
  · have hseverity : (Yaml.map (rule.written lib write)).get? "severity" =
        some (.scalar rule.severity) := hget (by simp [Rule.written])
    rw [severityField, hseverity]
    exact hlib.asString_scalar _
  · rw [(hfits _ h.duration).2, (hfits _ h.cooldown).2]

end Rules

section Files

variable {lib : ConfigLibrary V} {write : V → Bytes} {config : Config V}

/-- A loop over written entries returns what was written. -/
theorem loadDistinct_written {α : Type} {parse : Yaml → Nat → Except Bytes α} {name : α → Bytes}
    {duplicate : Bytes} {l : List α} {written : α → Yaml} (hnodup : (l.map name).Nodup)
    (hparse : ∀ x ∈ l, ∀ index, parse (written x) index = .ok x) :
    loadDistinct parse name duplicate [] 0 (l.map written) = .ok l := by
  refine (loadDistinct_eq_ok_iff (by simp)).mpr ⟨l, rfl, hnodup, ?_⟩
  have hall : ∀ index, List.Forall₂ (fun item x => parse item.1 item.2 = .ok x)
      ((l.map written).zipIdx index) l := by
    induction l with
    | nil => exact fun index => .nil
    | cons x l ih =>
        intro index
        rw [List.map_cons, List.zipIdx_cons]
        exact .cons (hparse x List.mem_cons_self index)
          (ih (List.nodup_cons.mp hnodup).2 (fun y hy => hparse y (List.mem_cons_of_mem _ hy)) _)
  exact hall 0

theorem loadQuietHours_written (hlib : lib.Documented write) {quietHours : QuietHours}
    (h : quietHours.Loaded) (hon : quietHours.enabled = true) :
    loadQuietHours lib (some (.map quietHours.written)) = .ok quietHours := by
  have hkeys : (quietHours.written.map Prod.fst).Nodup := by
    have htexts : [text "start_hour", text "end_hour"].Nodup := by decide
    exact htexts
  have hhour : ∀ {key : String} {i : Int}, -2 ^ 31 ≤ i ∧ i < 2 ^ 31 →
      (text key, .scalar (intText i)) ∈ quietHours.written →
        hourField lib (.map quietHours.written) key = .ok (Int32.ofInt i) := by
    intro key i hi hmem
    rw [hourField, subscript_map, Yaml.get?_of_mem hkeys hmem]
    exact hlib.asInt_fits i hi.1 hi.2
  obtain ⟨enabled, startHour, endHour⟩ := quietHours
  simp only at hon
  subst hon
  rw [loadQuietHours, hhour h.start_fits (by simp [QuietHours.written]),
    hhour h.end_fits (by simp [QuietHours.written])]
  refine congrArg Except.ok ?_
  rw [Int32.toInt_ofInt_of_le h.start_fits.1 h.start_fits.2,
    Int32.toInt_ofInt_of_le h.end_fits.1 h.end_fits.2]

theorem loadRoot_loaded {root : Yaml} (h : loadRoot lib root = .ok config) :
    config.Loaded lib := by
  obtain ⟨jobs, hjobs, h⟩ := bind_eq_ok_iff.mp h
  obtain ⟨rules, hrules, h⟩ := bind_eq_ok_iff.mp h
  obtain ⟨quietHours, hquiet, h⟩ := bind_eq_ok_iff.mp h
  cases h
  obtain ⟨jobsNode, -, hjobs⟩ := bind_eq_ok_iff.mp hjobs
  obtain ⟨rulesNode, -, hrules⟩ := bind_eq_ok_iff.mp hrules
  obtain ⟨quietNode, -, hquiet⟩ := bind_eq_ok_iff.mp hquiet
  obtain ⟨hjobNames, hjobLoaded⟩ := loadJobs_loaded hjobs
  obtain ⟨hruleNames, hruleLoaded⟩ := loadRules_loaded hrules
  exact ⟨hjobNames, fun job hjob => ⟨hjobLoaded job hjob, loadJobs_scheduled hjobs job hjob⟩,
    hruleNames, hruleLoaded, loadQuietHours_loaded hquiet⟩

variable [DecidableEq V]

theorem entries_keys : ((config.entries lib write).map Prod.fst).Nodup := by
  rw [Config.entries]
  split_ifs
  · have htexts : [text "jobs", text "rules", text "quiet_hours"].Nodup := by decide
    exact htexts
  · have htexts : [text "jobs", text "rules"].Nodup := by decide
    exact htexts

theorem loadRoot_toYaml (hlib : lib.Documented write) (h : config.Loaded lib) :
    loadRoot lib (config.toYaml lib write) = .ok config := by
  have hjobsNode : (Yaml.map (config.entries lib write)).get? "jobs" =
      some (.seq (config.jobs.map fun job => job.written.toYaml)) :=
    Yaml.get?_of_mem entries_keys (by simp [Config.entries])
  have hrulesNode : (Yaml.map (config.entries lib write)).get? "rules" =
      some (.seq (config.rules.map fun rule => .map (rule.written lib write))) :=
    Yaml.get?_of_mem entries_keys (by simp [Config.entries])
  have hjobs : loadJobs lib.toYamlLibrary (some (.seq (config.jobs.map fun job =>
      job.written.toYaml))) = .ok config.jobs := by
    rw [loadJobs, loadJobsFrom_eq_loadDistinct]
    refine loadDistinct_written h.jobNames fun job hjob index => ?_
    obtain ⟨hstrict, hjob⟩ := written_strict (h.jobs job hjob).1 (h.jobs job hjob).2
    exact (JobFields.parseJob_toYaml hlib.toDocumented).mpr ⟨hstrict, hjob.symm⟩
  have hrules : loadRules lib (some (.seq (config.rules.map fun rule =>
      .map (rule.written lib write)))) = .ok config.rules :=
    loadDistinct_written h.ruleNames fun rule hrule index =>
      parseRule_written hlib (h.rules rule hrule) index
  have hquiet : loadQuietHours lib ((Yaml.map (config.entries lib write)).get? "quiet_hours") =
      .ok config.quietHours := by
    by_cases hon : config.quietHours.enabled = true
    · have hnode : (Yaml.map (config.entries lib write)).get? "quiet_hours" =
          some (.map config.quietHours.written) :=
        Yaml.get?_of_mem entries_keys (by simp [Config.entries, hon])
      rw [hnode]
      exact loadQuietHours_written hlib h.quietHours hon
    · have hoff : config.quietHours = {} := h.quietHours.off (by simpa using hon)
      have hnode : (Yaml.map (config.entries lib write)).get? "quiet_hours" = none := by
        refine Yaml.get?_of_not_mem ?_
        rw [Config.entries, if_neg hon]
        have htexts : text "quiet_hours" ∉ [text "jobs", text "rules"] := by decide
        exact htexts
      rw [hnode, hoff]
      rfl
  refine bind_eq_ok_iff.mpr ⟨config.jobs, ?_, bind_eq_ok_iff.mpr ⟨config.rules, ?_,
    bind_eq_ok_iff.mpr ⟨config.quietHours, ?_, rfl⟩⟩⟩
  · rw [Config.toYaml, subscript_map, hjobsNode]
    exact hjobs
  · rw [Config.toYaml, subscript_map, hrulesNode]
    exact hrules
  · rw [Config.toYaml, subscript_map]
    exact hquiet

/-- `load_config` returns only configurations with distinct names that are
complete and in range, or none at all; and it returns each of them from the
file that spells it out. -/
theorem config_round_trip (hlib : lib.Documented write) (config : Config V) :
    (∀ file, loadConfig lib file = .ok config → config.Loaded lib) ∧
      (config.Loaded lib → ∀ content, lib.loadFile content = .ok (config.toYaml lib write) →
        loadConfig lib (some content) = .ok config) := by
  refine ⟨fun file h => ?_, fun h content hcontent => ?_⟩
  · cases file with
    | none =>
        cases h
        have hquiet : loadQuietHours lib none = .ok {} := rfl
        exact ⟨List.nodup_nil, by simp, List.nodup_nil, by simp, loadQuietHours_loaded hquiet⟩
    | some content =>
        rw [loadConfig] at h
        cases hload : lib.loadFile content with
        | error what => simp [hload] at h
        | ok root =>
            simp only [hload] at h
            exact loadRoot_loaded h
  · rw [loadConfig]
    simp only [hcontent]
    exact loadRoot_toYaml hlib h

end Files

section Example

/-- A file with a daily job, a thermal rule and quiet hours. -/
def sampleFile : Bytes :=
  text "jobs:\n- name: a\n  command: ls\n  schedule: 0 8 * * *\n  missed_run_policy: none\n" ++
  text "  timeout_seconds: 5\n  retries: 0\nrules:\n- name: hot\n" ++
  text "  metric: system.thermal_state\n  condition: at_least\n  threshold: serious\n" ++
  text "  duration_seconds: 60\n  cooldown_seconds: 0\n  severity: critical\n" ++
  text "quiet_hours:\n  start_hour: 22\n  end_hour: 7\n"

def sampleRoot : Yaml :=
  .map [(text "jobs", .seq [.map [(text "name", .scalar (text "a")),
      (text "command", .scalar (text "ls")), (text "schedule", .scalar (text "0 8 * * *")),
      (text "missed_run_policy", .scalar (text "none")),
      (text "timeout_seconds", .scalar (text "5")), (text "retries", .scalar (text "0"))]]),
    (text "rules", .seq [.map [(text "name", .scalar (text "hot")),
      (text "metric", .scalar (text "system.thermal_state")),
      (text "condition", .scalar (text "at_least")), (text "threshold", .scalar (text "serious")),
      (text "duration_seconds", .scalar (text "60")),
      (text "cooldown_seconds", .scalar (text "0")),
      (text "severity", .scalar (text "critical"))]]),
    (text "quiet_hours", .map [(text "start_hour", .scalar (text "22")),
      (text "end_hour", .scalar (text "7"))])]

/-- A YAML library that knows this file and whole numbers. -/
def sampleLibrary : ConfigLibrary ℤ where
  toYamlLibrary := JobFields.plainYaml
  loadFile := fun content =>
    if content = sampleFile then .ok sampleRoot else .error (text "bad file")
  asDouble
    | .scalar s => (Json.readInteger s).elim (.error (text "bad conversion")) .ok
    | _ => .error (text "bad conversion")
  badSubscript := fun key => text "operator[] call on a scalar (key: \"" ++ text key ++ text "\")"
  ofLevel := id

def sampleConfig : Config ℤ where
  jobs := [{ name := text "a", command := text "ls", scheduleExpr := text "0 8 * * *",
             schedule := CronSchedule.parse (text "0 8 * * *"), timeoutSeconds := 5 }]
  rules := [{ name := text "hot", metric := text "system.thermal_state", condition := .atLeast,
              threshold := 2, durationSeconds := 60, severity := text "critical" }]
  quietHours := { enabled := true, startHour := 22, endHour := 7 }

theorem config_round_trip_sample :
    loadConfig sampleLibrary (some sampleFile) = .ok sampleConfig := by
  have hlib : sampleLibrary.Documented intText := by
    refine ⟨JobFields.plainYaml_documented, fun v => ?_⟩
    simp only [sampleLibrary, (Json.readInteger_intText v).1]
    rfl
  refine (config_round_trip hlib sampleConfig).2 ?_ sampleFile ?_
  · refine ⟨by decide, ?_, by decide, ?_, ⟨by decide, by decide, by decide⟩⟩
    · intro job hjob
      obtain rfl := List.mem_singleton.mp hjob
      exact ⟨⟨by decide, by decide, rfl, by decide, by decide, rfl⟩, fun _ => by decide +kernel⟩
    · intro rule hrule
      obtain rfl := List.mem_singleton.mp hrule
      exact ⟨by decide, by decide, by decide, fun _ => ⟨.serious, rfl⟩⟩
  · have hload : sampleLibrary.loadFile sampleFile = .ok sampleRoot := by
      simp only [sampleLibrary, if_true]
    rw [hload]
    rfl

end Example

end AgentPulse
