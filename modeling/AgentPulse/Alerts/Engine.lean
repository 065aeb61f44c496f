import AgentPulse.Config
import AgentPulse.SharedState
import Mathlib.Order.Defs.LinearOrder
import Mathlib.Algebra.Group.Defs
import Mathlib.Data.List.Nodup

/-!
# The alert engine

`AlertEngine::evaluate` of `alerts/alert_engine.cpp`: one pass over the rules,
each of which reads its metric, advances its own state and emits at most one
event. Values are compared only, so any linear order stands for `double`
without NaN; its rendering in a message is a parameter.

## Implementation notes

`state_` is created on demand and never enumerated, hence a total map with the
default state. Zero is the value of an absent metric and the mark for "not
set" in `since` and `lastFired`, as in the source.
-/

namespace AgentPulse

/-- An alert transition emitted by the engine. -/
structure AlertEvent (V : Type) where
  ruleName : Bytes
  severity : Bytes
  metric : Bytes
  kind : AlertKind
  value : V
  threshold : V
  ts : Int
  message : Bytes
  attribution : Bytes
  notify : Bool
  deriving DecidableEq

/-- What `evaluate` is given: the metrics that were collected, the time, and
the process to name in a processor alert. -/
structure Sample (V : Type) where
  metrics : Bytes → Option V
  now : Int
  cpuAttribution : Bytes

/-- `RuleState`: when the condition first held (0 if it does not), whether it
held past its duration, whether this episode was announced, and when the rule
last fired (0 for never). -/
structure RuleState where
  since : Int := 0
  firing : Bool := false
  notified : Bool := false
  lastFired : Int := 0
  deriving DecidableEq, Repr

structure AlertEngine (V : Type) where
  rules : List (Rule V)
  quietHours : QuietHours
  state : Bytes → RuleState

namespace AlertEngine

/-- A new engine knows nothing about any rule. -/
def create {V : Type} (rules : List (Rule V)) (quietHours : QuietHours) : AlertEngine V :=
  ⟨rules, quietHours, fun _ => {}⟩

/-- Whether the hour of `now` lies in the window, which may wrap past midnight. -/
def inQuietHours (loc : LocalTime) (q : QuietHours) (now : Int) : Bool :=
  let h := (loc now).hour
  if !q.enabled then false
  else if q.startHour = q.endHour then false
  else if q.startHour < q.endHour then q.startHour ≤ h && h < q.endHour
  else q.startHour ≤ h || h < q.endHour

variable {V : Type} [LinearOrder V]

/-- `condition_met`. -/
def conditionMet (condition : Condition) (value threshold : V) : Bool :=
  match condition with
  | .greaterThan => threshold < value
  | .lessThan => value < threshold
  | .atLeast => threshold ≤ value

/-- The metric of the rule is present and meets its condition. -/
def met (rule : Rule V) (sample : Sample V) : Bool :=
  match sample.metrics rule.metric with
  | some value => conditionMet rule.condition value rule.threshold
  | none => false

/-- The cooldown gate: the rule never fired, or it fired long enough ago. -/
def cooldownOk (rule : Rule V) (st : RuleState) (now : Int) : Bool :=
  st.lastFired = 0 || rule.cooldownSeconds ≤ now - st.lastFired

/-- The loop body of `evaluate` for one rule: its new state and what it emits. -/
def step (rule : Rule V) (sample : Sample V) (st : RuleState) :
    RuleState × Option AlertKind :=
  if met rule sample then
    let since := if st.since = 0 then sample.now else st.since
    if rule.durationSeconds ≤ sample.now - since then
      if !st.notified && cooldownOk rule st sample.now then
        ({ since := since, firing := true, notified := true, lastFired := sample.now },
          some .firing)
      else ({ st with since := since, firing := true }, none)
    else ({ st with since := since }, none)
  else if st.notified then
    ({ st with since := 0, firing := false, notified := false }, some .recovered)
  else ({ st with since := 0, firing := false }, none)

/-- The start of the current streak after a sample that meets the condition. -/
def streakStart (sample : Sample V) (st : RuleState) : Int :=
  if st.since = 0 then sample.now else st.since

/-- A rule fires when its condition has held for its duration, the episode was
not announced yet and the cooldown is over. -/
theorem step_fires_iff (rule : Rule V) (sample : Sample V) (st : RuleState) :
    (step rule sample st).2 = some .firing ↔
      met rule sample = true ∧ rule.durationSeconds ≤ sample.now - streakStart sample st ∧
        st.notified = false ∧ cooldownOk rule st sample.now = true := by
  unfold step streakStart
  grind

/-- A rule recovers when its condition does not hold and the episode was announced. -/
theorem step_recovers_iff (rule : Rule V) (sample : Sample V) (st : RuleState) :
    (step rule sample st).2 = some .recovered ↔
      met rule sample = false ∧ st.notified = true := by
  unfold step
  grind

theorem step_since (rule : Rule V) (sample : Sample V) (st : RuleState) :
    (step rule sample st).1.since = if met rule sample then streakStart sample st else 0 := by
  unfold step streakStart
  grind

theorem step_notified (rule : Rule V) (sample : Sample V) (st : RuleState) :
    (step rule sample st).1.notified = true ↔ met rule sample = true ∧
      (st.notified = true ∨ (step rule sample st).2 = some .firing) := by
  unfold step
  grind

theorem step_lastFired (rule : Rule V) (sample : Sample V) (st : RuleState) :
    (step rule sample st).1.lastFired =
      if (step rule sample st).2 = some .firing then sample.now else st.lastFired := by
  unfold step
  grind

variable [Zero V] (fmt : V → Bytes)

omit [LinearOrder V] [Zero V] in
/-- `format_message`. -/
def formatMessage (rule : Rule V) (value : V) : AlertKind → Bytes
  | .firing =>
      rule.name ++ text ": " ++ rule.metric ++ text " = " ++ fmt value ++ text " (" ++
        rule.condition.toText ++ text " " ++ fmt rule.threshold ++ text ")"
  | .recovered =>
      rule.name ++ text ": recovered (" ++ rule.metric ++ text " = " ++ fmt value ++ text ")"

omit [LinearOrder V] in
/-- The event of a rule at a sample. Only a firing processor alert carries an
attribution, and quiet hours hold back what is not critical. -/
def event (quiet : Bool) (rule : Rule V) (sample : Sample V) (kind : AlertKind) :
    AlertEvent V :=
  let value := (sample.metrics rule.metric).getD 0
  { ruleName := rule.name
    severity := rule.severity
    metric := rule.metric
    kind := kind
    value := value
    threshold := rule.threshold
    ts := sample.now
    message := formatMessage fmt rule value kind
    attribution :=
      if kind = .firing ∧ rule.metric = text "system.cpu.percent" then sample.cpuAttribution
      else []
    notify := rule.severity = text "critical" || !quiet }

/-- One round of the loop over the rules, on the state map and the events so far. -/
def round (quiet : Bool) (sample : Sample V)
    (acc : (Bytes → RuleState) × List (AlertEvent V)) (rule : Rule V) :
    (Bytes → RuleState) × List (AlertEvent V) :=
  let next := step rule sample (acc.1 rule.name)
  (Function.update acc.1 rule.name next.1,
    acc.2 ++ (next.2.map (event fmt quiet rule sample)).toList)

/-- `AlertEngine::evaluate`. -/
def evaluate (loc : LocalTime) (e : AlertEngine V) (sample : Sample V) :
    AlertEngine V × List (AlertEvent V) :=
  let quiet := inQuietHours loc e.quietHours sample.now
  let result := e.rules.foldl (round fmt quiet sample) (e.state, [])
  ({ e with state := result.1 }, result.2)

/-- The pass over rules of distinct names reads every rule's own old state. -/
theorem foldl_round (quiet : Bool) (sample : Sample V) (rules : List (Rule V))
    (hn : (rules.map Rule.name).Nodup) (state : Bytes → RuleState)
    (events : List (AlertEvent V)) :
    (rules.foldl (round fmt quiet sample) (state, events)).2 =
        events ++ rules.filterMap (fun rule =>
          (step rule sample (state rule.name)).2.map (event fmt quiet rule sample)) ∧
      ∀ name, (rules.foldl (round fmt quiet sample) (state, events)).1 name =
        match rules.find? (fun rule => rule.name = name) with
        | some rule => (step rule sample (state name)).1
        | none => state name := by
  induction rules generalizing state events with
  | nil => simp
  | cons rule rest ih =>
      obtain ⟨hrule, hrest⟩ := List.nodup_cons.mp (List.map_cons ▸ hn)
      have hother : ∀ r ∈ rest, r.name ≠ rule.name := fun r hr heq =>
        hrule (heq ▸ List.mem_map_of_mem hr)
      obtain ⟨hevents, hstate⟩ := ih hrest
        (Function.update state rule.name (step rule sample (state rule.name)).1)
        (events ++ ((step rule sample (state rule.name)).2.map
          (event fmt quiet rule sample)).toList)
      constructor
      · rw [List.foldl_cons, round, hevents, List.append_assoc]
        congr 1
        have hcongr : rest.filterMap (fun r => (step r sample
              (Function.update state rule.name (step rule sample (state rule.name)).1
                r.name)).2.map (event fmt quiet r sample)) =
            rest.filterMap (fun r => (step r sample (state r.name)).2.map
              (event fmt quiet r sample)) := by
          apply List.filterMap_congr
          intro r hr
          rw [Function.update_of_ne (hother r hr)]
        rw [hcongr]
        cases hkind : (step rule sample (state rule.name)).2 <;> simp [hkind]
      · intro name
        rw [List.foldl_cons, round, hstate name]
        by_cases hname : rule.name = name
        · subst hname
          have hnone : rest.find? (fun r => r.name = rule.name) = none := by
            rw [List.find?_eq_none]
            intro r hr
            simpa using hother r hr
          simp [hnone]
        · rw [List.find?_cons_of_neg (by simpa using hname),
            Function.update_of_ne (Ne.symm hname)]

end AlertEngine
end AgentPulse
