import AgentPulse.Cron

/-!
# Jobs and alert rules

The records `config/config.hpp` loads from the configuration file. The
comparison value of a rule is a `double` in the source and an arbitrary
linearly ordered type here, since no rule depends on its arithmetic.

## Implementation notes

`int` fields whose full range is admitted somewhere are `Int32`. The durations
of a rule are only ever compared with differences of times and are integers.
-/

namespace AgentPulse

/-- What to do about a scheduled run that was skipped while the machine slept. -/
inductive MissedRunPolicy where
  | none
  | runOnWake
  | runNow
  deriving DecidableEq, Repr

/-- `to_string(MissedRunPolicy)`. -/
def MissedRunPolicy.toText : MissedRunPolicy → Bytes
  | .none => text "none"
  | .runOnWake => text "run_on_wake"
  | .runNow => text "run_now"

/-- The lenient reading of a policy: every unknown word means `none`. -/
def missedRunPolicyFromString (s : Bytes) : MissedRunPolicy :=
  if s = text "run_on_wake" then .runOnWake
  else if s = text "run_now" then .runNow
  else .none

/-- The lenient reading recovers every policy from its own text. -/
@[simp] theorem missedRunPolicyFromString_toText (p : MissedRunPolicy) :
    missedRunPolicyFromString p.toText = p := by
  cases p <;> decide

/-- Where a job was defined: in the configuration file or by a client. -/
inductive JobSource where
  | config
  | ui
  deriving DecidableEq, Repr

def JobSource.toText : JobSource → Bytes
  | .config => text "config"
  | .ui => text "ui"

/-- A monitored automation. -/
structure Job where
  name : Bytes
  command : Bytes
  schedule : Option CronSchedule := none
  scheduleExpr : Bytes := []
  missedRunPolicy : MissedRunPolicy := .none
  timeoutSeconds : Int32 := 0
  retries : Int32 := 0
  source : JobSource := .config
  deriving DecidableEq

inductive Condition where
  | greaterThan
  | lessThan
  | atLeast
  deriving DecidableEq, Repr

/-- `to_string(Condition)`. -/
def Condition.toText : Condition → Bytes
  | .greaterThan => text "greater_than"
  | .lessThan => text "less_than"
  | .atLeast => text "at_least"

/-- An alert rule over one metric. -/
structure Rule (V : Type) where
  name : Bytes
  metric : Bytes
  condition : Condition
  threshold : V
  durationSeconds : Int := 0
  cooldownSeconds : Int := 0
  severity : Bytes := text "warning"
  deriving DecidableEq

/-- The window in which notifications that are not critical are held back. -/
structure QuietHours where
  enabled : Bool := false
  startHour : Int := 0
  endHour : Int := 0
  deriving DecidableEq, Repr

end AgentPulse
