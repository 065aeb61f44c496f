import AgentPulse.Db
import AgentPulse.SharedState

/-!
# One execution of a job

`Scheduler::worker` as a step machine. A step ends wherever another thread can
see or influence what happens next: at the tests of `active_`, around the
command itself, at the two record writes, at the alert and at the final store
to `done`.

## Implementation notes

`retries + 1` is read over the integers. The command is not modelled here; it
takes its start and its end from the clock and everything else of its result
from an outcome supplied by the environment.
-/

namespace AgentPulse

inductive RunStatus where
  | success
  | failed
  | timeout
  | spawnError
  deriving DecidableEq, Repr

/-- `to_string(RunStatus)`. -/
def RunStatus.toText : RunStatus → Bytes
  | .success => text "success"
  | .failed => text "failed"
  | .timeout => text "timeout"
  | .spawnError => text "spawn_error"

/-- What `run_command` returns, as far as the worker reads it. -/
structure RunResult where
  status : RunStatus := .spawnError
  exitCode : Int32 := -1
  startedAt : Int := 0
  endedAt : Int := 0
  durationMs : Int := 0
  stdoutText : Bytes := []
  stderrText : Bytes := []
  deriving DecidableEq

/-- The part of a result the command decides. -/
structure Outcome where
  status : RunStatus
  exitCode : Int32 := 0
  durationMs : Int := 0
  stdoutText : Bytes := []
  stderrText : Bytes := []
  deriving DecidableEq

/-- What asked for a run. -/
inductive Trigger where
  | manual
  | missed
  | schedule
  deriving DecidableEq, Repr

def Trigger.toText : Trigger → Bytes
  | .manual => text "manual"
  | .missed => text "missed"
  | .schedule => text "schedule"

/-- An alert about a job, as `emit_alert` publishes it. -/
def jobAlert (ts : Int) (jobName severity message attribution : Bytes) (value : Int) :
    AlertInfo Int where
  ts := ts
  ruleName := jobName
  severity := severity
  metric := text "job"
  kind := .firing
  value := value
  threshold := 0
  message := message
  attribution := attribution
  notify := true

namespace Worker

/-- Where an execution stands. The counter is the number of the attempt. -/
inductive Pc where
  | attempt (n : Int) (res : RunResult)
  | command (n : Int) (startedAt : Int)
  | insertRun (n : Int) (res : RunResult)
  | setLastRun (n : Int) (res : RunResult)
  | backoff (n : Int) (res : RunResult)
  | finalCheck (res : RunResult)
  | alert (res : RunResult)
  | signalDone
  | returned
  deriving DecidableEq

/-- What a step does beyond moving on. -/
inductive Effect where
  | none
  | insertRun (record : RunRecord)
  | setLastRun (record : RunRecord)
  | alert (info : AlertInfo Int)
  | done
  deriving DecidableEq

/-- `const int attempts = job.retries + 1`. -/
def attempts (job : Job) : Int := job.retries.toInt + 1

def start : Pc := .attempt 1 {}

/-- The record of an attempt. -/
def record (job : Job) (trigger : Trigger) (res : RunResult) : RunRecord where
  jobName := job.name
  startedAt := res.startedAt
  endedAt := res.endedAt
  status := res.status.toText
  exitCode := res.exitCode
  durationMs := res.durationMs
  stdoutText := res.stdoutText
  stderrText := res.stderrText
  trigger := trigger.toText

/-- The trailing blanks and newlines removed: up to `find_last_not_of(" \t\r\n")`. -/
def trimmed (err : Bytes) : Bytes :=
  (err.reverse.dropWhile fun b => b == 32 || b == 9 || b == 13 || b == 10).reverse

/-- The last line of the standard error that is not blank, cut to 160 bytes. -/
def failureDetail (err : Bytes) : Bytes :=
  let line := ((trimmed err).reverse.takeWhile (· != 10)).reverse
  if line.length > 160 then line.take 157 ++ text "..." else line

/-- The message of the alert for a failed final attempt. -/
def failureMessage (job : Job) (res : RunResult) : Bytes :=
  text "run " ++ res.status.toText ++ text " (exit " ++ intText res.exitCode.toInt ++
    text ", after " ++ intText (attempts job) ++ text " attempt" ++
    (if attempts job = 1 then [] else text "s") ++ text ")"

/-- The next step of an execution, given `active_`, the clock and the outcome
of the command. -/
def step (job : Job) (trigger : Trigger) (active : Bool) (clock : Int) (outcome : Outcome) :
    Pc → Option (Pc × Effect)
  | .attempt n res =>
      if n ≤ attempts job ∧ active = true then some (.command n clock, .none)
      else some (.finalCheck res, .none)
  | .command n startedAt =>
      some (.insertRun n
        { status := outcome.status
          exitCode := outcome.exitCode
          startedAt := startedAt
          endedAt := clock
          durationMs := outcome.durationMs
          stdoutText := outcome.stdoutText
          stderrText := outcome.stderrText }, .none)
  | .insertRun n res => some (.setLastRun n res, .insertRun (record job trigger res))
  | .setLastRun n res =>
      some (if res.status = .success then .finalCheck res
        else if n < attempts job then .backoff n res
        else .attempt (n + 1) res, .setLastRun (record job trigger res))
  | .backoff n res => some (.attempt (n + 1) res, .none)
  | .finalCheck res =>
      if active = true ∧ res.status ≠ .success then some (.alert res, .none)
      else some (.signalDone, .none)
  | .alert res =>
      some (.signalDone, .alert (jobAlert clock job.name (text "serious")
        (failureMessage job res) (failureDetail res.stderrText) res.exitCode.toInt))
  | .signalDone => some (.returned, .done)
  | .returned => none

end Worker
end AgentPulse
