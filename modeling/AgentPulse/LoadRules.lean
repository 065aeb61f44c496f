import AgentPulse.LoadConfig
import Mathlib.Data.List.Forall2

/-!
# The configuration file

`parse_condition`, `parse_rule` and the whole of `load_config` in
`config/config.cpp`: jobs, rules and quiet hours, in this order. The first
failure is an exception and nothing of the file is kept. What is loaded has
distinct names, is complete and in range.

## Implementation notes

The two loops of `load_config` are one loop over a parser and the name it puts
into the set. An index into a scalar is an exception of the YAML library; an
index into any other node that is not a mapping finds nothing.
-/

namespace AgentPulse

/-- The thermal pressure of the machine, in the order of severity. -/
inductive ThermalState where
  | nominal
  | fair
  | serious
  | critical
  deriving DecidableEq, Repr

/-- The number of a thermal state. -/
def ThermalState.level : ThermalState → Int
  | .nominal => 0
  | .fair => 1
  | .serious => 2
  | .critical => 3

/-- `to_string(ThermalState)`. -/
def ThermalState.toText : ThermalState → Bytes
  | .nominal => text "nominal"
  | .fair => text "fair"
  | .serious => text "serious"
  | .critical => text "critical"

/-- Every unknown word means nominal. -/
def thermalStateFromString (name : Bytes) : ThermalState :=
  if name = text "fair" then .fair
  else if name = text "serious" then .serious
  else if name = text "critical" then .critical
  else .nominal

@[simp] theorem thermalStateFromString_toText (state : ThermalState) :
    thermalStateFromString state.toText = state := by
  cases state <;> decide

/-- `struct Config`. -/
structure Config (V : Type) where
  jobs : List Job := []
  rules : List (Rule V) := []
  quietHours : QuietHours := {}
  deriving DecidableEq

/-- What the YAML library contributes to `load_config`: `LoadFile`, `as<double>()`
and the text of a bad subscript. The number of a thermal state as a `double`
comes with it. -/
structure ConfigLibrary (V : Type) extends YamlLibrary where
  loadFile : Bytes → Except Bytes Yaml
  asDouble : Yaml → Except Bytes V
  badSubscript : String → Bytes
  ofLevel : Int → V

section Parsing

variable {V : Type} (lib : ConfigLibrary V)

/-- `parse_condition`. -/
def parseCondition (s : Bytes) : Except Bytes Condition :=
  if s = text "greater_than" ∨ s = text ">" then .ok .greaterThan
  else if s = text "less_than" ∨ s = text "<" then .ok .lessThan
  else if s = text "at_least" ∨ s = text ">=" then .ok .atLeast
  else .error (text "invalid condition: '" ++ s ++ text "'")

/-- A field that has to be there. -/
def presentField (node : Yaml) (key : String) (missing : Bytes) : Except Bytes Yaml :=
  match node.get? key with
  | none => .error missing
  | some value => .ok value

/-- The threshold of a rule; that of a thermal rule is a word. -/
def thresholdField (node : Yaml) (name metric : Bytes) : Except Bytes V := do
  let value ← presentField node "threshold"
    (text "rule '" ++ name ++ text "' is missing 'threshold'")
  if metric = text "system.thermal_state" then do
    let s ← lib.asString value
    .ok (lib.ofLevel (thermalStateFromString s).level)
  else lib.asDouble value

/-- A number of seconds that is zero unless given. -/
def secondsField (node : Yaml) (key : String) : Except Bytes Int32 :=
  match node.get? key with
  | none => .ok 0
  | some value => lib.asInt value

def severityField (node : Yaml) : Except Bytes Bytes :=
  match node.get? "severity" with
  | none => .ok (text "warning")
  | some value => lib.asString value

/-- `parse_rule`. -/
def parseRule (node : Yaml) (index : Nat) : Except Bytes (Rule V) :=
  match node with
  | .map _ => do
      let name ← requiredField lib.toYamlLibrary node "name"
        (text "rule #" ++ intText index ++ text " is missing 'name'")
      let metric ← presentField node "metric"
        (text "rule '" ++ name ++ text "' is missing 'metric'") >>= lib.asString
      let condition ← presentField node "condition"
        (text "rule '" ++ name ++ text "' is missing 'condition'") >>= lib.asString >>=
          parseCondition
      let threshold ← thresholdField lib node name metric
      let duration ← secondsField lib node "duration_seconds"
      let cooldown ← secondsField lib node "cooldown_seconds"
      let severity ← severityField lib node
      if duration < 0 ∨ cooldown < 0 then
        .error (text "rule '" ++ name ++ text "' has negative duration/cooldown")
      else .ok {
        name := name
        metric := metric
        condition := condition
        threshold := threshold
        durationSeconds := duration.toInt
        cooldownSeconds := cooldown.toInt
        severity := severity }
  | _ => .error (text "rule #" ++ intText index ++ text " is not a mapping")

/-- A loop of `load_config` over a sequence, with what it has so far. -/
def loadDistinct {α : Type} (parse : Yaml → Nat → Except Bytes α) (name : α → Bytes)
    (duplicate : Bytes) (loaded : List α) (index : Nat) : List Yaml → Except Bytes (List α)
  | [] => .ok loaded
  | node :: rest => do
      let x ← parse node index
      if name x ∈ loaded.map name then .error (duplicate ++ name x ++ text "'")
      else loadDistinct parse name duplicate (loaded ++ [x]) (index + 1) rest

/-- The rules part of `load_config`, from `root["rules"]`. -/
def loadRules : Option Yaml → Except Bytes (List (Rule V))
  | none => .ok []
  | some (.seq items) =>
      loadDistinct (parseRule lib) Rule.name (text "duplicate rule name: '") [] 0 items
  | some _ => .error (text "'rules' must be a sequence")

/-- `node[key]` where the node need not be a mapping. -/
def subscript (node : Yaml) (key : String) : Except Bytes (Option Yaml) :=
  match node with
  | .scalar _ => .error (lib.badSubscript key)
  | _ => .ok (node.get? key)

/-- An hour of the quiet hours that is zero unless given. -/
def hourField (node : Yaml) (key : String) : Except Bytes Int32 := do
  let value ← subscript lib node key
  match value with
  | none => .ok 0
  | some value => lib.asInt value

/-- The quiet hours part of `load_config`, from `root["quiet_hours"]`. -/
def loadQuietHours : Option Yaml → Except Bytes QuietHours
  | none => .ok {}
  | some node => do
      let startHour ← hourField lib node "start_hour"
      let endHour ← hourField lib node "end_hour"
      .ok { enabled := true, startHour := startHour.toInt, endHour := endHour.toInt }

/-- `load_config` after the file is parsed. -/
def loadRoot (root : Yaml) : Except Bytes (Config V) := do
  let jobs ← subscript lib root "jobs" >>= loadJobs lib.toYamlLibrary
  let rules ← subscript lib root "rules" >>= loadRules lib
  let quietHours ← subscript lib root "quiet_hours" >>= loadQuietHours lib
  .ok { jobs := jobs, rules := rules, quietHours := quietHours }

/-- `load_config` of a file, or of no file. -/
def loadConfig (file : Option Bytes) : Except Bytes (Config V) :=
  match file with
  | none => .ok {}
  | some content =>
      match lib.loadFile content with
      | .error what => .error (text "cannot parse config: " ++ what)
      | .ok root => loadRoot lib root

end Parsing

section Distinct

variable {α : Type} {parse : Yaml → Nat → Except Bytes α} {name : α → Bytes} {duplicate : Bytes}

/-- The loop succeeds exactly if every node is parsed at its own index and the
names are new and distinct. -/
theorem loadDistinct_eq_ok_iff {items : List Yaml} {loaded result : List α} {index : Nat}
    (hnodup : (loaded.map name).Nodup) :
    loadDistinct parse name duplicate loaded index items = .ok result ↔
      ∃ more, result = loaded ++ more ∧ (result.map name).Nodup ∧
        List.Forall₂ (fun item x => parse item.1 item.2 = .ok x) (items.zipIdx index) more := by
  induction items generalizing loaded index with
  | nil =>
      constructor
      · intro h
        cases h
        exact ⟨[], by simpa using hnodup⟩
      · rintro ⟨more, rfl, -, hparsed⟩
        cases hparsed
        rw [loadDistinct, List.append_nil]
  | cons node rest ih =>
      rw [loadDistinct, bind_eq_ok_iff, List.zipIdx_cons]
      constructor
      · rintro ⟨x, hx, h⟩
        split_ifs at h with htaken
        have hnew : ((loaded ++ [x]).map name).Nodup := by
          rw [List.map_append, List.map_singleton, List.nodup_append]
          exact ⟨hnodup, List.nodup_singleton _, fun a ha b hb heq =>
            htaken (List.mem_singleton.mp hb ▸ heq ▸ ha)⟩
        obtain ⟨more, rfl, hdistinct, hparsed⟩ := (ih hnew).mp h
        exact ⟨x :: more, by simp, hdistinct, .cons hx hparsed⟩
      · rintro ⟨more, rfl, hdistinct, hparsed⟩
        cases hparsed with
        | @cons _ x _ more hx hparsed =>
            have hsplit : loaded ++ x :: more = (loaded ++ [x]) ++ more := by simp
            have hnew : ((loaded ++ [x]).map name).Nodup := by
              rw [hsplit, List.map_append] at hdistinct
              exact (List.nodup_append.mp hdistinct).1
            refine ⟨x, hx, ?_⟩
            rw [if_neg]
            · exact (ih hnew).mpr ⟨more, hsplit, hdistinct, hparsed⟩
            · intro htaken
              rw [List.map_append, List.map_singleton, List.nodup_append] at hnew
              exact hnew.2.2 _ htaken _ List.mem_cons_self rfl

/-- The loop over the jobs is the common loop. -/
theorem loadJobsFrom_eq_loadDistinct (yaml : YamlLibrary) (jobs : List Job) (index : Nat)
    (items : List Yaml) :
    loadJobsFrom yaml jobs index items =
      loadDistinct (parseJob yaml) Job.name (text "duplicate job name: '") jobs index items := by
  induction items generalizing jobs index with
  | nil => rfl
  | cons node rest ih =>
      rw [loadJobsFrom, loadDistinct]
      simp only [ih]

end Distinct

section Loaded

variable {V : Type} {lib : ConfigLibrary V}

/-- What `load_config` guarantees of a rule. -/
structure Rule.Loaded (lib : ConfigLibrary V) (rule : Rule V) : Prop where
  name_ne : rule.name ≠ []
  duration : 0 ≤ rule.durationSeconds ∧ rule.durationSeconds < 2 ^ 31
  cooldown : 0 ≤ rule.cooldownSeconds ∧ rule.cooldownSeconds < 2 ^ 31
  thermal : rule.metric = text "system.thermal_state" →
    ∃ state : ThermalState, rule.threshold = lib.ofLevel state.level

/-- What `load_config` guarantees of the quiet hours: they are in the range of
an `int`, and without an entry they are off. -/
structure QuietHours.Loaded (quietHours : QuietHours) : Prop where
  start_fits : -2 ^ 31 ≤ quietHours.startHour ∧ quietHours.startHour < 2 ^ 31
  end_fits : -2 ^ 31 ≤ quietHours.endHour ∧ quietHours.endHour < 2 ^ 31
  off : quietHours.enabled = false → quietHours = {}

/-- What `load_config` guarantees of a configuration. -/
structure Config.Loaded (lib : ConfigLibrary V) (config : Config V) : Prop where
  jobNames : (config.jobs.map Job.name).Nodup
  jobs : ∀ job ∈ config.jobs, job.Loaded ∧ (job.scheduleExpr ≠ [] → job.schedule ≠ none)
  ruleNames : (config.rules.map Rule.name).Nodup
  rules : ∀ rule ∈ config.rules, rule.Loaded lib
  quietHours : config.quietHours.Loaded

theorem toInt_bounds {n : Int32} : -2 ^ 31 ≤ n.toInt ∧ n.toInt < 2 ^ 31 :=
  ⟨Int32.le_toInt n, Int32.toInt_lt n⟩

/-- A rule is accepted if each of its fields is, and it consists of what was read. -/
theorem parseRule_eq_ok_iff {entries : List (Bytes × Yaml)} {index : Nat} {rule : Rule V} :
    parseRule lib (.map entries) index = .ok rule ↔
      ∃ name metric condition threshold duration cooldown severity,
        requiredField lib.toYamlLibrary (.map entries) "name"
          (text "rule #" ++ intText index ++ text " is missing 'name'") = .ok name ∧
        presentField (.map entries) "metric"
          (text "rule '" ++ name ++ text "' is missing 'metric'") >>= lib.asString = .ok metric ∧
        presentField (.map entries) "condition"
          (text "rule '" ++ name ++ text "' is missing 'condition'") >>= lib.asString >>=
            parseCondition = .ok condition ∧
        thresholdField lib (.map entries) name metric = .ok threshold ∧
        secondsField lib (.map entries) "duration_seconds" = .ok duration ∧
        secondsField lib (.map entries) "cooldown_seconds" = .ok cooldown ∧
        severityField lib (.map entries) = .ok severity ∧ 0 ≤ duration ∧ 0 ≤ cooldown ∧
        rule = {
          name := name
          metric := metric
          condition := condition
          threshold := threshold
          durationSeconds := duration.toInt
          cooldownSeconds := cooldown.toInt
          severity := severity } := by
  unfold parseRule
  simp only [bind_eq_ok_iff]
  constructor
  · rintro ⟨name, hname, metric, hmetric, condition, hcondition, threshold, hthreshold, duration,
      hduration, cooldown, hcooldown, severity, hseverity, h⟩
    split_ifs at h with hneg
    obtain ⟨hd, hc⟩ := not_or.mp hneg
    cases h
    exact ⟨name, metric, condition, threshold, duration, cooldown, severity, hname, hmetric,
      hcondition, hthreshold, hduration, hcooldown, hseverity, Int32.not_lt.mp hd,
      Int32.not_lt.mp hc, rfl⟩
  · rintro ⟨name, metric, condition, threshold, duration, cooldown, severity, hname, hmetric,
      hcondition, hthreshold, hduration, hcooldown, hseverity, hd, hc, rfl⟩
    refine ⟨name, hname, metric, hmetric, condition, hcondition, threshold, hthreshold, duration,
      hduration, cooldown, hcooldown, severity, hseverity, ?_⟩
    rw [if_neg (not_or.mpr ⟨Int32.not_lt.mpr hd, Int32.not_lt.mpr hc⟩)]

theorem thresholdField_thermal {node : Yaml} {name : Bytes} {v : V}
    (h : thresholdField lib node name (text "system.thermal_state") = .ok v) :
    ∃ state : ThermalState, v = lib.ofLevel state.level := by
  rw [thresholdField] at h
  obtain ⟨value, -, h⟩ := bind_eq_ok_iff.mp h
  rw [if_pos rfl] at h
  obtain ⟨s, -, h⟩ := bind_eq_ok_iff.mp h
  cases h
  exact ⟨_, rfl⟩

theorem parseRule_loaded {node : Yaml} {index : Nat} {rule : Rule V}
    (h : parseRule lib node index = .ok rule) : rule.Loaded lib := by
  cases node with
  | map entries =>
      obtain ⟨name, metric, condition, threshold, duration, cooldown, severity, hname, -, -,
        hthreshold, -, -, -, hd, hc, rfl⟩ := parseRule_eq_ok_iff.mp h
      refine ⟨requiredField_ne hname, ⟨Int32.le_iff_toInt_le.mp hd, toInt_bounds.2⟩,
        ⟨Int32.le_iff_toInt_le.mp hc, toInt_bounds.2⟩, ?_⟩
      rintro rfl
      exact thresholdField_thermal hthreshold
  | null => simp [parseRule] at h
  | scalar s => simp [parseRule] at h
  | seq items => simp [parseRule] at h

theorem loadRules_loaded {root : Option Yaml} {rules : List (Rule V)}
    (h : loadRules lib root = .ok rules) :
    (rules.map Rule.name).Nodup ∧ ∀ rule ∈ rules, rule.Loaded lib := by
  cases root with
  | none =>
      cases h
      simp
  | some node =>
      cases node with
      | seq items =>
          obtain ⟨more, rfl, hdistinct, hparsed⟩ :=
            (loadDistinct_eq_ok_iff (by simp)).mp h
          refine ⟨hdistinct, fun rule hrule => ?_⟩
          obtain ⟨i, hi, rfl⟩ := List.getElem_of_mem hrule
          exact parseRule_loaded (hparsed.get (hparsed.length_eq.symm ▸ hi) hi)
      | null => simp [loadRules] at h
      | scalar s => simp [loadRules] at h
      | map entries => simp [loadRules] at h

theorem loadQuietHours_loaded {root : Option Yaml} {quietHours : QuietHours}
    (h : loadQuietHours lib root = .ok quietHours) : quietHours.Loaded := by
  cases root with
  | none =>
      cases h
      exact ⟨by decide, by decide, fun _ => rfl⟩
  | some node =>
      obtain ⟨startHour, -, h⟩ := bind_eq_ok_iff.mp h
      obtain ⟨endHour, -, h⟩ := bind_eq_ok_iff.mp h
      cases h
      exact ⟨toInt_bounds, toInt_bounds, fun hoff => (Bool.noConfusion hoff)⟩

end Loaded

end AgentPulse
