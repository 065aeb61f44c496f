import AgentPulse.Text

/-!
# The snapshots the socket thread reads

The records of `shared_state.hpp`. Each is written under the lock of
`SharedState` by one producer and copied out under the same lock, so that one
read or one write is a single step.
-/

namespace AgentPulse

/-- Whether an alert opens or closes an episode. -/
inductive AlertKind where
  | firing
  | recovered
  deriving DecidableEq, Repr

def AlertKind.toText : AlertKind → Bytes
  | .firing => text "firing"
  | .recovered => text "recovered"

/-- A recent alert, published for the socket API. -/
structure AlertInfo (V : Type) where
  ts : Int
  ruleName : Bytes
  severity : Bytes
  metric : Bytes
  kind : AlertKind
  value : V
  threshold : V
  message : Bytes
  attribution : Bytes
  notify : Bool := true
  deriving DecidableEq

/-- The resource usage of a process. -/
structure ProcInfo (V : Type) where
  pid : Int32
  name : Bytes
  cpuPercent : V
  rssBytes : UInt64
  deriving DecidableEq

/-- The health of the system as the sampler saw it last. -/
structure SystemSnapshot (V : Type) where
  valid : Bool
  sampledAt : Int
  memTotalBytes : UInt64
  memUsedBytes : UInt64
  memUsedPercent : V
  diskTotalBytes : UInt64
  diskAvailableBytes : UInt64
  diskUsedPercent : V
  thermalState : Bytes
  topProcesses : List (ProcInfo V)
  deriving DecidableEq

/-- The last processor sample. -/
structure CpuSnapshot (V : Type) where
  valid : Bool
  percent : V
  sampledAt : Int
  deriving DecidableEq

/-- The footprint of the daemon itself; `valid` is never read. -/
structure SelfSnapshot (V : Type) where
  rssBytes : UInt64
  cpuPercent : V
  deriving DecidableEq

/-- The last run of a job as its status shows it. -/
structure LastRun where
  status : Bytes
  startedAt : Int
  exitCode : Int32
  durationMs : Int
  trigger : Bytes
  deriving DecidableEq

/-- The published status of one job; `lastRun` is `none` while `has_last_run` is false. -/
structure JobStatus where
  name : Bytes
  scheduleExpr : Bytes
  source : Bytes
  nextRun : Int := 0
  running : Bool := false
  lastRun : Option LastRun := none
  deriving DecidableEq

/-- `SharedState::add_alert`: newest first, trimmed to the last `cap` alerts. -/
def addAlert {V : Type} (cap : Nat) (alerts : List (AlertInfo V)) (alert : AlertInfo V) :
    List (AlertInfo V) :=
  (alert :: alerts).take cap

end AgentPulse
