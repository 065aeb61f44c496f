import AgentPulse.Ipc.Answers
import AgentPulse.Jobs.JobSet
import AgentPulse.LoadConfig
import AgentPulse.Numerals

/-!
# The two ways of defining a job

A job is defined in the configuration file or by the `add_job` command. Both
read the same fields, and a job that both accept is the same. The command is
lenient by design in two points: a policy it does not know means `none`, and an
empty schedule is no schedule. Apart from these it accepts what the file may
contain, provided the counts are admissible.
-/

namespace AgentPulse

/-- The values a job is defined with. -/
structure JobFields where
  name : Bytes
  command : Bytes
  schedule : Option Bytes := none
  missedRunPolicy : Option Bytes := none
  timeoutSeconds : Option Int := none
  retries : Option Int := none

namespace JobFields

variable {V : Type} {α : Type}

/-- The fields under their keys, as values of an encoding. -/
def slots (f : JobFields) (str : Bytes → α) (int : Int → α) : List (Bytes × Option α) :=
  [(text "name", some (str f.name)),
    (text "command", some (str f.command)),
    (text "schedule", f.schedule.map str),
    (text "missed_run_policy", f.missedRunPolicy.map str),
    (text "timeout_seconds", f.timeoutSeconds.map int),
    (text "retries", f.retries.map int)]

/-- The fields that are there. -/
def entries (f : JobFields) (str : Bytes → α) (int : Int → α) : List (Bytes × α) :=
  (f.slots str int).filterMap fun slot => slot.2.map fun value => (slot.1, value)

/-- The mapping in the configuration file. -/
def toYaml (f : JobFields) : Yaml :=
  .map (f.entries .scalar fun i => .scalar (intText i))

/-- The body of the command. -/
def toJson (f : JobFields) : Json V :=
  .object ((text "cmd", .lit "add_job") :: f.entries .str .int)

/-- The job of the fields. -/
def job (f : JobFields) : Job where
  name := f.name
  command := f.command
  schedule := f.schedule.bind CronSchedule.parse
  scheduleExpr := f.schedule.getD []
  missedRunPolicy := (f.missedRunPolicy.map missedRunPolicyFromString).getD .none
  timeoutSeconds := (f.timeoutSeconds.map Int32.ofInt).getD 0
  retries := (f.retries.map Int32.ofInt).getD 0

/-- The counts are admissible: not negative and in the range of an `int`. -/
def CountsFit (f : JobFields) : Prop :=
  (∀ i ∈ f.timeoutSeconds, 0 ≤ i ∧ i < 2 ^ 31) ∧ ∀ i ∈ f.retries, 0 ≤ i ∧ i < 2 ^ 31

/-- The fields with what the command reads differently written out: an empty
schedule is left out, and a policy is the one it stands for. -/
def spelledOut (f : JobFields) : JobFields :=
  { f with
    schedule := f.schedule.filter (· ≠ [])
    missedRunPolicy := f.missedRunPolicy.map fun s => (missedRunPolicyFromString s).toText }

section Encodings

variable {f : JobFields} {str : Bytes → α} {int : Int → α} {key : Bytes} {value : Option α}

theorem slots_keys : ((f.slots str int).map Prod.fst).Nodup := by
  have hkeys : [text "name", text "command", text "schedule", text "missed_run_policy",
      text "timeout_seconds", text "retries"].Nodup := by decide
  exact hkeys

/-- An entry has the key of its slot. -/
theorem key_of_mem {slots : List (Bytes × Option α)} :
    ∀ slot ∈ slots, ∀ e ∈ slot.2.map fun value => (slot.1, value), e.1 = slot.1 := by
  intro slot _ e he
  obtain ⟨v, _, rfl⟩ := Option.map_eq_some_iff.mp he
  rfl

theorem find?_entries (h : (key, value) ∈ f.slots str int) :
    ((f.entries str int).find? fun e => e.1 = key).map Prod.snd = value := by
  rw [entries, KeyedList.find?_filterMap_key key_of_mem slots_keys h]
  cases value with
  | none => rfl
  | some v => rfl

/-- The keys of the body are distinct, the one of the command included. -/
theorem entries_keys (v : α) : (((text "cmd", v) :: f.entries str int).map Prod.fst).Nodup := by
  have hslots : (((text "cmd", some (str [])) :: f.slots str int).map Prod.fst).Nodup := by
    have hkeys : [text "cmd", text "name", text "command", text "schedule",
        text "missed_run_policy", text "timeout_seconds", text "retries"].Nodup := by decide
    exact hkeys
  exact KeyedList.nodup_filterMap_key key_of_mem hslots

end Encodings

section Lookups

variable {f : JobFields} {key : String}

theorem get?_toYaml {value : Option Yaml}
    (h : (text key, value) ∈ f.slots .scalar fun i => .scalar (intText i)) :
    f.toYaml.get? key = value :=
  find?_entries h

theorem get?_toJson {value : Option (Json V)} (h : (text key, value) ∈ f.slots .str .int)
    (hcmd : text "cmd" ≠ text key) : (f.toJson : Json V).get? (text key) = value := by
  rw [toJson, Json.get?_object (entries_keys _), List.find?_cons_of_neg (by simpa using hcmd)]
  exact find?_entries h

theorem get?_toJson_cmd : (f.toJson : Json V).get? (text "cmd") = some (.lit "add_job") := by
  rw [toJson, Json.get?_object (entries_keys _), List.find?_cons_of_pos (by simp)]
  rfl

end Lookups

section Strict

variable {yaml : YamlLibrary} {f : JobFields}

/-- What the configuration file asks of the fields. -/
structure Strict (f : JobFields) : Prop where
  name_ne : f.name ≠ []
  command_ne : f.command ≠ []
  schedule_parses : ∀ expr ∈ f.schedule, (CronSchedule.parse expr).isSome = true
  policy_known : ∀ s ∈ f.missedRunPolicy, s = [] ∨ ∃ p : MissedRunPolicy, s = p.toText
  counts_fit : f.CountsFit

theorem requiredField_scalar (hyaml : yaml.Documented) {node : Yaml} {key : String}
    {missing s r : Bytes} (hget : node.get? key = some (.scalar s)) :
    requiredField yaml node key missing = .ok r ↔ s ≠ [] ∧ r = s := by
  unfold requiredField
  simp only [hget, hyaml.asString_scalar, bind_eq_ok_iff, Except.ok.injEq, exists_eq_left']
  by_cases hs : s = []
  · simp [hs]
  · simp [hs, eq_comm]

theorem scheduleField_scalar (hyaml : yaml.Documented) {node : Yaml} {name : Bytes}
    {expr : Option Bytes} {r : Bytes × Option CronSchedule}
    (hget : node.get? "schedule" = expr.map .scalar) :
    scheduleField yaml node name = .ok r ↔
      (∀ e ∈ expr, (CronSchedule.parse e).isSome = true) ∧
        r = (expr.getD [], expr.bind CronSchedule.parse) := by
  unfold scheduleField
  cases expr with
  | none => simpa [hget] using eq_comm
  | some e =>
      simp only [hget, Option.map_some, hyaml.asString_scalar, bind_eq_ok_iff, Except.ok.injEq,
        exists_eq_left']
      cases hparse : CronSchedule.parse e with
      | none => simp [hparse]
      | some cron => simpa [hparse] using eq_comm

theorem policyField_scalar (hyaml : yaml.Documented) {node : Yaml} {policy : Option Bytes}
    {r : MissedRunPolicy} (hget : node.get? "missed_run_policy" = policy.map .scalar) :
    policyField yaml node = .ok r ↔
      (∀ s ∈ policy, s = [] ∨ ∃ p : MissedRunPolicy, s = p.toText) ∧
        r = (policy.map missedRunPolicyFromString).getD .none := by
  unfold policyField
  cases policy with
  | none => simpa [hget] using eq_comm
  | some s =>
      simp only [hget, Option.map_some, hyaml.asString_scalar, bind_eq_ok_iff, Except.ok.injEq,
        exists_eq_left', parsePolicy_eq_ok_iff]
      simp

theorem ofInt_neg_iff {i : Int} (hlo : -2 ^ 31 ≤ i) (hhi : i < 2 ^ 31) :
    Int32.ofInt i < 0 ↔ i < 0 := by
  rw [Int32.lt_iff_toInt_lt, Int32.toInt_ofInt_of_le hlo hhi]
  rfl

theorem countField_scalar (hyaml : yaml.Documented) {node : Yaml} {name : Bytes} {key : String}
    {count : Option Int} {r : Int32}
    (hget : node.get? key = count.map fun i => .scalar (intText i)) :
    countField yaml node name key = .ok r ↔
      (∀ i ∈ count, 0 ≤ i ∧ i < 2 ^ 31) ∧ r = (count.map Int32.ofInt).getD 0 := by
  unfold countField
  cases count with
  | none => simpa [hget] using eq_comm
  | some i =>
      simp only [hget, Option.map_some, bind_eq_ok_iff, Option.mem_def, Option.some.injEq,
        forall_eq', Option.getD_some]
      by_cases hrange : -2 ^ 31 ≤ i ∧ i < 2 ^ 31
      · have hneg := ofInt_neg_iff hrange.1 hrange.2
        simp only [hyaml.asInt_fits i hrange.1 hrange.2, Except.ok.injEq, exists_eq_left', hneg]
        by_cases hi : i < 0
        · simp [hi]
        · rw [if_neg hi, Except.ok.injEq]
          exact ⟨fun h => ⟨⟨not_lt.mp hi, hrange.2⟩, h.symm⟩, fun h => h.2.symm⟩
      · obtain ⟨what, hwhat⟩ := hyaml.asInt_outside i (by omega)
        simp only [hwhat, reduceCtorEq, false_and, exists_false, false_iff, not_and]
        intro hfits
        omega

/-- The file accepts the fields exactly if they are as it asks. -/
theorem parseJob_toYaml (hyaml : yaml.Documented) {index : Nat} {job : Job} :
    parseJob yaml f.toYaml index = .ok job ↔ f.Strict ∧ job = f.job := by
  have hname : f.toYaml.get? "name" = some (.scalar f.name) := get?_toYaml (by simp [slots])
  have hcommand : f.toYaml.get? "command" = some (.scalar f.command) :=
    get?_toYaml (by simp [slots])
  have hschedule : f.toYaml.get? "schedule" = f.schedule.map .scalar :=
    get?_toYaml (by simp [slots])
  have hpolicy : f.toYaml.get? "missed_run_policy" = f.missedRunPolicy.map .scalar :=
    get?_toYaml (by simp [slots])
  have htimeout : f.toYaml.get? "timeout_seconds" =
      f.timeoutSeconds.map fun i => .scalar (intText i) := get?_toYaml (by simp [slots])
  have hretries : f.toYaml.get? "retries" = f.retries.map fun i => .scalar (intText i) :=
    get?_toYaml (by simp [slots])
  unfold toYaml at *
  rw [parseJob_eq_ok_iff]
  simp only [requiredField_scalar hyaml hname, requiredField_scalar hyaml hcommand,
    scheduleField_scalar hyaml hschedule, policyField_scalar hyaml hpolicy,
    countField_scalar hyaml htimeout, countField_scalar hyaml hretries]
  constructor
  · rintro ⟨name, command, schedule, policy, timeout, retries, ⟨hn, rfl⟩, ⟨hc, rfl⟩, ⟨hs, rfl⟩,
      ⟨hp, rfl⟩, ⟨ht, rfl⟩, ⟨hr, rfl⟩, rfl⟩
    exact ⟨⟨hn, hc, hs, hp, ht, hr⟩, rfl⟩
  · rintro ⟨⟨hn, hc, hs, hp, ht, hr⟩, rfl⟩
    exact ⟨_, _, _, _, _, _, ⟨hn, rfl⟩, ⟨hc, rfl⟩, ⟨hs, rfl⟩, ⟨hp, rfl⟩, ⟨ht, rfl⟩, ⟨hr, rfl⟩, rfl⟩

end Strict

section Lenient

variable {lib : JsonLibrary V} {f : JobFields}

/-- What the command asks of the fields. -/
structure Lenient (f : JobFields) : Prop where
  name_ne : f.name ≠ []
  command_ne : f.command ≠ []
  schedule_parses : ∀ expr ∈ f.schedule, expr ≠ [] → (CronSchedule.parse expr).isSome = true

theorem ofInt_bmod (i : Int) : Int32.ofInt (i.bmod (2 ^ 64)) = Int32.ofInt i := by
  apply Int32.toInt_inj.mp
  rw [Int32.toInt_ofInt, Int32.toInt_ofInt]
  exact Int.bmod_bmod_of_dvd (by decide)

theorem strField_str {body : Json V} {key : String} {s : Option Bytes}
    (hget : body.get? (text key) = s.map .str) : body.strField key = s.getD [] := by
  unfold Json.strField
  cases s with
  | none => simp [hget]
  | some s => simp [hget, Json.asString]

theorem numField_int {body : Json V} {key : String} {count : Option Int}
    (hget : body.get? (text key) = count.map .int) :
    body.numField lib key = (count.map Int32.ofInt).getD 0 := by
  unfold Json.numField
  cases count with
  | none => simp [hget]
  | some i => simpa [hget, Json.asLong] using ofInt_bmod i

/-- The command reads the job of the fields, up to its schedule. -/
theorem bodyJob_toJson : Api.bodyJob lib f.toJson = { f.job with schedule := none } := by
  have hname : (f.toJson : Json V).get? (text "name") = (some f.name).map .str :=
    get?_toJson (by simp [slots]) (by decide)
  have hcommand : (f.toJson : Json V).get? (text "command") = (some f.command).map .str :=
    get?_toJson (by simp [slots]) (by decide)
  have hschedule : (f.toJson : Json V).get? (text "schedule") = f.schedule.map .str :=
    get?_toJson (by simp [slots]) (by decide)
  have hpolicy : (f.toJson : Json V).get? (text "missed_run_policy") = f.missedRunPolicy.map .str :=
    get?_toJson (by simp [slots]) (by decide)
  have htimeout : (f.toJson : Json V).get? (text "timeout_seconds") = f.timeoutSeconds.map .int :=
    get?_toJson (by simp [slots]) (by decide)
  have hretries : (f.toJson : Json V).get? (text "retries") = f.retries.map .int :=
    get?_toJson (by simp [slots]) (by decide)
  unfold Api.bodyJob job
  rw [strField_str hname, strField_str hcommand, strField_str hschedule, strField_str hpolicy,
    numField_int htimeout, numField_int hretries, hpolicy]
  cases f.missedRunPolicy with
  | none => rfl
  | some s => rfl

/-- The command passes the fields on exactly if they are as it asks. -/
theorem readJob_toJson {job : Job} :
    Api.readJob lib f.toJson = .ok job ↔ f.Lenient ∧ job = f.job := by
  unfold Api.readJob
  rw [bodyJob_toJson]
  by_cases hrequired : f.name = [] ∨ f.command = []
  · have hstop : ¬ f.Lenient := fun h => hrequired.elim h.name_ne h.command_ne
    simp [JobFields.job, hrequired, hstop]
  · obtain ⟨hname, hcommand⟩ := not_or.mp hrequired
    have hlenient : f.Lenient ↔
        ∀ expr ∈ f.schedule, expr ≠ [] → (CronSchedule.parse expr).isSome = true :=
      ⟨Lenient.schedule_parses, Lenient.mk hname hcommand⟩
    have hparse : CronSchedule.parse [] = none := by decide
    rw [hlenient]
    simp only [JobFields.job, hname, hcommand, or_self, if_false]
    obtain ⟨name, command, schedule, policy, timeout, retries⟩ := f
    cases schedule with
    | none => simpa using eq_comm
    | some expr =>
        by_cases hempty : expr = []
        · subst hempty
          simpa [hparse] using eq_comm
        · cases hcron : CronSchedule.parse expr with
          | none => simp [hempty, hcron]
          | some cron => simpa [hempty, hcron] using eq_comm

/-- The configuration file asks for more. -/
theorem Strict.lenient (h : f.Strict) : f.Lenient where
  name_ne := h.name_ne
  command_ne := h.command_ne
  schedule_parses := fun expr hexpr _ => h.schedule_parses expr hexpr

/-- With admissible counts the command asks of the fields what the file asks of
their spelled out form. -/
theorem lenient_iff_strict_spelledOut (hfit : f.CountsFit) : f.Lenient ↔ f.spelledOut.Strict := by
  constructor
  · intro h
    exact {
      name_ne := h.name_ne
      command_ne := h.command_ne
      schedule_parses := by
        intro expr hexpr
        obtain ⟨hexpr, hne⟩ := Option.filter_eq_some_iff.mp hexpr
        exact h.schedule_parses expr hexpr (by simpa using hne)
      policy_known := by
        intro s hs
        obtain ⟨word, _, rfl⟩ := Option.map_eq_some_iff.mp hs
        exact Or.inr ⟨_, rfl⟩
      counts_fit := hfit }
  · intro h
    exact {
      name_ne := h.name_ne
      command_ne := h.command_ne
      schedule_parses := fun expr hexpr hne =>
        h.schedule_parses expr (Option.filter_eq_some_iff.mpr ⟨hexpr, by simpa using hne⟩) }

/-- Spelling out does not change the job. -/
theorem job_spelledOut : f.spelledOut.job = f.job := by
  have hparse : CronSchedule.parse [] = none := by decide
  have hschedule : (f.schedule.filter (· ≠ [])).bind CronSchedule.parse =
      f.schedule.bind CronSchedule.parse := by
    cases f.schedule with
    | none => rfl
    | some expr => by_cases hempty : expr = [] <;> simp [Option.filter, hempty, hparse]
  have hexpr : (f.schedule.filter (· ≠ [])).getD [] = f.schedule.getD [] := by
    cases f.schedule with
    | none => rfl
    | some expr => by_cases hempty : expr = [] <;> simp [Option.filter, hempty]
  have hpolicy : ((f.missedRunPolicy.map fun s => (missedRunPolicyFromString s).toText).map
      missedRunPolicyFromString) = f.missedRunPolicy.map missedRunPolicyFromString := by
    cases f.missedRunPolicy with
    | none => rfl
    | some s => simp
  unfold job spelledOut
  rw [hschedule, hexpr, hpolicy]

end Lenient

section Inputs

/-- A YAML library that reads integers with `std::stoi`. -/
def plainYaml : YamlLibrary where
  asString
    | .scalar s => .ok s
    | _ => .error (text "bad conversion")
  asInt
    | .scalar s =>
        match stoi s with
        | some i => .ok (Int32.ofInt i)
        | none => .error (text "bad conversion")
    | _ => .error (text "bad conversion")

theorem plainYaml_documented : plainYaml.Documented where
  asString_scalar := fun _ => rfl
  asInt_fits := by
    intro i hlo hhi
    simp only [plainYaml, stoi_intText, if_pos (And.intro hlo hhi)]
  asInt_outside := by
    intro i hi
    refine ⟨text "bad conversion", ?_⟩
    simp only [plainYaml, stoi_intText]
    rw [if_neg (by omega)]

/-- The request line of the fields. -/
def requestLine (f : JobFields) : Bytes :=
  ((f.toJson : Json ℤ).dump intText).toOption.getD []

/-- A JSON library that reads this line. -/
def lineLibrary (f : JobFields) : JsonLibrary ℤ :=
  ⟨fun line => if line = requestLine f then some f.toJson else none, id, Json.dump intText⟩

theorem lineLibrary_parse (f : JobFields) :
    (lineLibrary f).parse (requestLine f) = some f.toJson := by
  simp [lineLibrary]

/-- A scheduler without jobs. -/
def noJobs : JobSet := JobSet.construct midnight [] .empty (fun _ => none) 0

/-- The API of that scheduler. -/
def controlApi : Api ℤ :=
  { Api.freshApi with addJobHandler := some fun job => (noJobs.addJob midnight 0 job none).2 }

end Inputs

section Command

variable {lib : JsonLibrary V} {yaml : YamlLibrary} {api : Api V} {f : JobFields} {line : Bytes}
  {loc : LocalTime} {now : Int} {s : JobSet}

/-- The answer to the line reports success. -/
def Accepted (lib : JsonLibrary V) (api : Api V) (line : Bytes) : Prop :=
  (api.respond lib line).get? (text "ok") = some (.bool true)

theorem respond_toJson (hline : lib.parse line = some f.toJson) :
    api.respond lib line = api.addJobResponse lib line := by
  have hcmd : (parseRequest lib line).cmd = text "add_job" := by
    unfold parseRequest
    simp only [hline, get?_toJson_cmd]
    rfl
  unfold Api.respond
  simp only [hcmd]
  rw [if_neg (by decide), if_neg (by decide), if_neg (by decide), if_neg (by decide),
    if_neg (by decide), if_neg (by decide), if_pos trivial]

theorem failure_not_ok (error : Bytes) :
    (failure error : Json V).get? (text "ok") ≠ some (.bool true) := by
  have hkeys : [text "ok", text "error"].Nodup := by decide
  rw [failure, Json.get?_object (by exact hkeys)]
  simp

theorem changeResponse_ok_iff {cmd : String} {job error : Bytes} :
    (Api.changeResponse cmd job error : Json V).get? (text "ok") = some (.bool true) ↔
      error = [] := by
  unfold Api.changeResponse
  by_cases herror : error = []
  · have hkeys : [text "ok", text "cmd", text "job"].Nodup := by decide
    rw [if_neg (not_not.mpr herror), Json.get?_object (by exact hkeys)]
    simpa using herror
  · rw [if_pos herror]
    exact iff_of_false (failure_not_ok error) herror

/-- The scheduler takes every job that passed the command and whose name is free. -/
theorem addJob_of_lenient (hfree : findJob s.jobs f.name = none) (h : f.Lenient) :
    (s.addJob loc now f.job none).2 = [] ∧
      (s.addJob loc now f.job none).1.jobs = s.jobs ++ [{ f.job with source := .ui }] := by
  have hcheck : JobSet.addJobCheck s.jobs f.job = none := by
    have hname : f.job.name ≠ [] := h.name_ne
    have hcommand : f.job.command ≠ [] := h.command_ne
    have hnotTaken : ¬ findJob s.jobs f.job.name ≠ none := not_not.mpr hfree
    rw [JobSet.addJobCheck, if_neg hname, if_neg hcommand, if_neg hnotTaken]
  unfold JobSet.addJob
  rw [hcheck]
  exact ⟨rfl, rfl⟩

theorem addJobResponse_error {handler : Job → Bytes} {error : Bytes}
    (hhandler : api.addJobHandler = some handler) (hline : lib.parse line = some f.toJson)
    (hread : Api.readJob lib f.toJson = .error error) :
    api.addJobResponse lib line = failure error := by
  unfold Api.addJobResponse
  simp only [hhandler, hline]
  unfold toJson Json.object at hread ⊢
  simp only [hread]

theorem addJobResponse_ok {handler : Job → Bytes} {job : Job}
    (hhandler : api.addJobHandler = some handler) (hline : lib.parse line = some f.toJson)
    (hread : Api.readJob lib f.toJson = .ok job) :
    api.addJobResponse lib line = Api.changeResponse "add_job" job.name (handler job) := by
  unfold Api.addJobResponse
  simp only [hhandler, hline]
  unfold toJson Json.object at hread ⊢
  simp only [hread]

/-- The command succeeds exactly on the fields it asks for. -/
theorem accepted_iff_lenient (hline : lib.parse line = some f.toJson)
    (hhandler : api.addJobHandler = some fun job => (s.addJob loc now job none).2)
    (hfree : findJob s.jobs f.name = none) : Accepted lib api line ↔ f.Lenient := by
  unfold Accepted
  rw [respond_toJson hline]
  constructor
  · intro hok
    cases hread : Api.readJob lib f.toJson with
    | error error =>
        rw [addJobResponse_error hhandler hline hread] at hok
        exact absurd hok (failure_not_ok error)
    | ok job => exact (readJob_toJson.mp hread).1
  · intro h
    rw [addJobResponse_ok hhandler hline (readJob_toJson.mpr ⟨h, rfl⟩)]
    exact changeResponse_ok_iff.mpr (addJob_of_lenient hfree h).1

/-- What the file accepts the command accepts as the same job, which the
scheduler then has with the client as its source. With admissible counts the
command accepts a job exactly if the file accepts its spelled out form. -/
theorem add_job_agrees (lib : JsonLibrary V) (yaml : YamlLibrary) (hyaml : yaml.Documented)
    (loc : LocalTime) (now : Int) (s : JobSet) (api : Api V)
    (hhandler : api.addJobHandler = some fun job => (s.addJob loc now job none).2)
    (f : JobFields) (hfree : findJob s.jobs f.name = none) (line : Bytes)
    (hline : lib.parse line = some f.toJson) (index : Nat) :
    (∀ job, parseJob yaml f.toYaml index = .ok job → Accepted lib api line ∧
      Api.readJob lib f.toJson = .ok job ∧
      (s.addJob loc now job none).1.jobs = s.jobs ++ [{ job with source := .ui }]) ∧
    (f.CountsFit →
      (Accepted lib api line ↔ ∃ job, parseJob yaml f.spelledOut.toYaml index = .ok job) ∧
      ∀ job, parseJob yaml f.spelledOut.toYaml index = .ok job →
        Api.readJob lib f.toJson = .ok job ∧
        (s.addJob loc now job none).1.jobs = s.jobs ++ [{ job with source := .ui }]) := by
  have haccepted := accepted_iff_lenient hline hhandler hfree
  constructor
  · intro job hjob
    obtain ⟨hstrict, rfl⟩ := (parseJob_toYaml hyaml).mp hjob
    have hlenient := hstrict.lenient
    exact ⟨haccepted.mpr hlenient, readJob_toJson.mpr ⟨hlenient, rfl⟩,
      (addJob_of_lenient hfree hlenient).2⟩
  · intro hfit
    have hiff := lenient_iff_strict_spelledOut hfit
    constructor
    · rw [haccepted, hiff]
      constructor
      · exact fun hstrict => ⟨_, (parseJob_toYaml hyaml).mpr ⟨hstrict, rfl⟩⟩
      · rintro ⟨job, hjob⟩
        exact ((parseJob_toYaml hyaml).mp hjob).1
    · intro job hjob
      obtain ⟨hstrict, rfl⟩ := (parseJob_toYaml hyaml).mp hjob
      rw [job_spelledOut]
      have hlenient := hiff.mpr hstrict
      exact ⟨readJob_toJson.mpr ⟨hlenient, rfl⟩, (addJob_of_lenient hfree hlenient).2⟩

/-- A job with a schedule, a policy and both counts. -/
def backup : JobFields where
  name := text "backup"
  command := text "true"
  schedule := some (text "30 3 * * 1-5")
  missedRunPolicy := some (text "run_now")
  timeoutSeconds := some 60
  retries := some 2

theorem add_job_agrees_backup :
    parseJob plainYaml backup.toYaml 0 = .ok backup.job ∧
      Accepted (lineLibrary backup) controlApi (requestLine backup) ∧
      Api.readJob (lineLibrary backup) backup.toJson = .ok backup.job ∧
      ∃ job, parseJob plainYaml backup.spelledOut.toYaml 0 = .ok job := by
  have hfit : backup.CountsFit := by
    constructor
    all_goals
      intro i hi
      cases hi
      decide
  have hstrict : backup.Strict := {
    name_ne := by decide
    command_ne := by decide
    schedule_parses := by
      intro expr hexpr
      cases hexpr
      decide +kernel
    policy_known := by
      intro s hs
      cases hs
      exact Or.inr ⟨.runNow, rfl⟩
    counts_fit := hfit }
  have hparse : parseJob plainYaml backup.toYaml 0 = .ok backup.job :=
    (parseJob_toYaml plainYaml_documented).mpr ⟨hstrict, rfl⟩
  obtain ⟨hfile, hcommand⟩ := add_job_agrees (lineLibrary backup) plainYaml plainYaml_documented
    midnight 0 noJobs controlApi rfl backup rfl (requestLine backup) (lineLibrary_parse backup) 0
  obtain ⟨haccepted, hread, -⟩ := hfile _ hparse
  exact ⟨hparse, haccepted, hread, (hcommand hfit).1.mp haccepted⟩

/-- A job on request only, with the given policy, schedule and number of retries. -/
def lenientJob (policy schedule : Option Bytes) (retries : Option Int) : JobFields where
  name := text "backup"
  command := text "true"
  schedule := schedule
  missedRunPolicy := policy
  retries := retries

theorem accepted_lenientJob {policy schedule : Option Bytes} {retries : Option Int}
    (hschedule : ∀ expr ∈ schedule, expr = []) :
    Accepted (lineLibrary (lenientJob policy schedule retries)) controlApi
      (requestLine (lenientJob policy schedule retries)) := by
  have hname : text "backup" ≠ [] := by decide
  have hcommand : text "true" ≠ [] := by decide
  apply (accepted_iff_lenient (lineLibrary_parse _) rfl rfl).mpr
  exact {
    name_ne := hname
    command_ne := hcommand
    schedule_parses := fun expr hexpr hne => absurd (hschedule expr hexpr) hne }

/-- The command accepts an unknown policy, an empty schedule and a negative
number of retries, and the file none of them. -/
theorem add_job_more_lenient :
    plainYaml.Documented ∧ noJobs.jobs = [] ∧
      (Accepted (lineLibrary (lenientJob (some (text "later")) none none)) controlApi
          (requestLine (lenientJob (some (text "later")) none none)) ∧
        parseJob plainYaml (lenientJob (some (text "later")) none none).toYaml 0 =
          .error (text "invalid missed_run_policy: 'later'")) ∧
      (Accepted (lineLibrary (lenientJob none (some []) none)) controlApi
          (requestLine (lenientJob none (some []) none)) ∧
        parseJob plainYaml (lenientJob none (some []) none).toYaml 0 =
          .error (text "job 'backup' has invalid cron schedule: ''")) ∧
      (Accepted (lineLibrary (lenientJob none none (some (-1)))) controlApi
          (requestLine (lenientJob none none (some (-1)))) ∧
        parseJob plainYaml (lenientJob none none (some (-1))).toYaml 0 =
          .error (text "job 'backup' has negative retries")) :=
  ⟨plainYaml_documented, rfl, ⟨accepted_lenientJob (by simp), by decide +kernel⟩,
    ⟨accepted_lenientJob (by simp), by decide +kernel⟩,
    ⟨accepted_lenientJob (by simp), by decide +kernel⟩⟩

end Command

end JobFields
end AgentPulse
