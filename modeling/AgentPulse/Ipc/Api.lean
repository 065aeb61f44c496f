import AgentPulse.Db
import AgentPulse.Ipc.Json
import AgentPulse.SharedState

/-!
# The socket API

`Api::handle` of `ipc/api.cpp`: a request line is read as a JSON object or as
bare words, and every command builds one JSON object and dumps it. Nothing in
between catches an exception of `dump`, so a line is answered only if every
string of its answer is well-formed.

## Implementation notes

What `handle` reads from elsewhere is its environment: one copy of each part of
the shared state, the results of the database, and the handlers, which are
functions here because only what they return matters to the answer. The JSON
library is a parameter, with what it promises of `dump` as a hypothesis.
-/

namespace AgentPulse

/-- What the JSON library contributes: `parse` without exceptions (`none` is
`discarded`), the conversion of a `double` to an integer, and `dump`. -/
structure JsonLibrary (V : Type) where
  parse : Bytes → Option (Json V)
  toInteger : V → Int
  dump : Json V → Except JsonError Bytes

/-- `dump` throws for a string that is not well-formed, and writes every other
value on one line. -/
structure JsonLibrary.Documented {V : Type} (lib : JsonLibrary V) : Prop where
  dumps : ∀ j, Json.Dumps j.Clean (fun out => (10 : UInt8) ∉ out) (lib.dump j)

/-- The queries of the read connection; an error is the text of a `DbError`. -/
structure HistoryDb (V : Type) where
  metricHistory : Bytes → Int → Except Bytes (List (Int × V))
  recentRuns : Bytes → Int32 → Except Bytes (List RunRecord)

/-- An `Api` and what it finds while it handles one request. -/
structure Api (V : Type) where
  startedAt : Int
  now : Int
  cpu : CpuSnapshot V
  self : SelfSnapshot V
  system : SystemSnapshot V
  jobs : List JobStatus
  alerts : List (AlertInfo V)
  db : Option (HistoryDb V)
  runHandler : Option (Bytes → Bool)
  addJobHandler : Option (Job → Bytes)
  removeJobHandler : Option (Bytes → Bytes)

/-- `Request`. -/
structure Request where
  cmd : Bytes := []
  arg : Bytes := []
  arg2 : Bytes := []
  deriving DecidableEq

/-- `std::strtol` with base ten: no digits is zero, and a value outside `long`
is its nearest bound. -/
def strtol (s : Bytes) : Int :=
  let t := s.dropWhile isSpace
  let negative := t.head? = some 45
  let unsigned := if t.head? = some 45 ∨ t.head? = some 43 then t.tail else t
  let magnitude : Int :=
    (unsigned.takeWhile isDigit).foldl (fun acc d => 10 * acc + (d.toNat - 48 : Int)) 0
  let value := if negative then -magnitude else magnitude
  max (-2 ^ 63) (min value (2 ^ 63 - 1))

section Values

variable {V : Type}

/-- `get<std::string>()` of a string. -/
def Json.asString : Json V → Option Bytes
  | .str s => some s
  | _ => none

/-- `get<long long>()` of a number. -/
def Json.asLong (lib : JsonLibrary V) : Json V → Option Int
  | .int i => some (i.bmod (2 ^ 64))
  | .float v => some (lib.toInteger v)
  | _ => none

/-- A string field, or the empty string. -/
def Json.strField (body : Json V) (key : String) : Bytes :=
  ((body.get? (text key)).bind Json.asString).getD []

/-- A number field as an `int`, or zero. -/
def Json.numField (lib : JsonLibrary V) (body : Json V) (key : String) : Int32 :=
  (((body.get? (text key)).bind (Json.asLong lib)).map Int32.ofInt).getD 0

/-- A text of the source as a JSON string. -/
def Json.lit (s : String) : Json V := .str (text s)

/-- A response that reports an error. -/
def failure (error : Bytes) : Json V :=
  .object [(text "ok", .bool false), (text "error", .str error)]

/-- `parse_request`. -/
def parseRequest (lib : JsonLibrary V) (line : Bytes) : Request :=
  match lib.parse line with
  | some parsed =>
      match (parsed.get? (text "cmd")).bind Json.asString with
      | some cmd =>
          { cmd := cmd
            arg := [text "job", text "metric"].foldl
              (fun arg key => ((parsed.get? key).bind Json.asString).getD arg) []
            arg2 := [text "seconds", text "limit"].foldl
              (fun arg2 key => (((parsed.get? key).bind (Json.asLong lib)).map intText).getD arg2) [] }
      | none => bare line
  | none => bare line
where
  bare (line : Bytes) : Request :=
    { cmd := (words line)[0]?.getD [], arg := (words line)[1]?.getD [],
      arg2 := (words line)[2]?.getD [] }

/-- `job_to_json`. -/
def jobToJson (s : JobStatus) : Json V :=
  .object [
    (text "name", .str s.name),
    (text "schedule", .str s.scheduleExpr),
    (text "source", .str s.source),
    (text "next_run", .int s.nextRun),
    (text "running", .bool s.running),
    (text "last_run", match s.lastRun with
      | some r => .object [
          (text "status", .str r.status),
          (text "started_at", .int r.startedAt),
          (text "exit_code", .int r.exitCode.toInt),
          (text "duration_ms", .int r.durationMs),
          (text "trigger", .str r.trigger)]
      | none => .null)]

/-- `jobs_array`. -/
def jobsArray (jobs : List JobStatus) : Json V := .arr (jobs.map jobToJson)

/-- A process in `system_to_json`. -/
def procToJson (p : ProcInfo V) : Json V :=
  .object [
    (text "pid", .int p.pid.toInt),
    (text "name", .str p.name),
    (text "cpu_percent", .float p.cpuPercent),
    (text "rss_bytes", .int p.rssBytes.toNat)]

/-- `system_to_json`. -/
def systemToJson (s : SystemSnapshot V) : Json V :=
  .object [
    (text "valid", .bool s.valid),
    (text "sampled_at", .int s.sampledAt),
    (text "memory", .object [
      (text "total_bytes", .int s.memTotalBytes.toNat),
      (text "used_bytes", .int s.memUsedBytes.toNat),
      (text "used_percent", .float s.memUsedPercent)]),
    (text "disk", .object [
      (text "total_bytes", .int s.diskTotalBytes.toNat),
      (text "available_bytes", .int s.diskAvailableBytes.toNat),
      (text "used_percent", .float s.diskUsedPercent)]),
    (text "thermal_state", .str s.thermalState),
    (text "top_processes", .arr (s.topProcesses.map procToJson))]

/-- An alert in `alerts_array`. -/
def alertToJson (a : AlertInfo V) : Json V :=
  .object [
    (text "ts", .int a.ts),
    (text "rule", .str a.ruleName),
    (text "severity", .str a.severity),
    (text "metric", .str a.metric),
    (text "kind", .str a.kind.toText),
    (text "value", .float a.value),
    (text "threshold", .float a.threshold),
    (text "message", .str a.message),
    (text "attribution", .str a.attribution),
    (text "notified", .bool a.notify)]

/-- `alerts_array`. -/
def alertsArray (alerts : List (AlertInfo V)) : Json V := .arr (alerts.map alertToJson)

/-- A run in the answer to `runs`. -/
def runToJson (r : RunRecord) : Json V :=
  .object [
    (text "started_at", .int r.startedAt),
    (text "ended_at", .int r.endedAt),
    (text "status", .str r.status),
    (text "exit_code", .int r.exitCode.toInt),
    (text "duration_ms", .int r.durationMs),
    (text "trigger", .str r.trigger)]

end Values

namespace Api

variable {V : Type} (lib : JsonLibrary V) (api : Api V)

/-- The branch `status` of `Api::handle`. -/
def statusResponse : Json V :=
  .object [
    (text "ok", .bool true),
    (text "cmd", .lit "status"),
    (text "daemon", .object [
      (text "started_at", .int api.startedAt),
      (text "rss_bytes", .int api.self.rssBytes.toNat),
      (text "cpu_percent", .float api.self.cpuPercent)]),
    (text "cpu", .object [
      (text "valid", .bool api.cpu.valid),
      (text "percent", .float api.cpu.percent),
      (text "sampled_at", .int api.cpu.sampledAt)]),
    (text "system", systemToJson api.system),
    (text "jobs", jobsArray api.jobs),
    (text "alerts", alertsArray api.alerts)]

/-- The query of `history`, over an hour unless the request has a window. -/
def historyQuery (db : HistoryDb V) (req : Request) : Except Bytes (List (Int × V)) :=
  let seconds := if req.arg2 = [] then 3600 else strtol req.arg2
  let window := if seconds ≤ 0 then 3600 else seconds
  db.metricHistory req.arg (api.now - window)

/-- The branch `history` of `Api::handle`. -/
def historyResponse (req : Request) : Json V :=
  match api.db with
  | none => failure (text "history unavailable")
  | some db =>
      if req.arg = [] then failure (text "missing metric")
      else match api.historyQuery db req with
        | .error what => failure what
        | .ok points =>
            .object [
              (text "ok", .bool true),
              (text "cmd", .lit "history"),
              (text "metric", .str req.arg),
              (text "points", .arr (points.map fun p =>
                .object [(text "t", .int p.1), (text "v", .float p.2)]))]

/-- The query of `runs`, for twenty runs unless the request has a limit. -/
def runsQuery (db : HistoryDb V) (req : Request) : Except Bytes (List RunRecord) :=
  let asked := if req.arg2 = [] then 20 else Int32.ofInt (strtol req.arg2)
  let limit := if asked ≤ 0 then 20 else asked
  db.recentRuns req.arg limit

/-- The branch `runs` of `Api::handle`. -/
def runsResponse (req : Request) : Json V :=
  match api.db with
  | none => failure (text "runs unavailable")
  | some db =>
      if req.arg = [] then failure (text "missing job name")
      else match runsQuery db req with
        | .error what => failure what
        | .ok runs =>
            .object [
              (text "ok", .bool true),
              (text "cmd", .lit "runs"),
              (text "job", .str req.arg),
              (text "runs", .arr (runs.map runToJson))]

/-- The job in the body of `add_job`, its schedule still to be parsed. -/
def bodyJob (body : Json V) : Job where
  name := body.strField "name"
  command := body.strField "command"
  scheduleExpr := body.strField "schedule"
  timeoutSeconds := body.numField lib "timeout_seconds"
  retries := body.numField lib "retries"
  missedRunPolicy :=
    if (body.get? (text "missed_run_policy")).isSome then
      missedRunPolicyFromString (body.strField "missed_run_policy")
    else .none

/-- The job `add_job` passes on, or the error it reports itself. -/
def readJob (body : Json V) : Except Bytes Job :=
  let job := bodyJob lib body
  if job.name = [] ∨ job.command = [] then .error (text "name and command are required")
  else if job.scheduleExpr = [] then .ok job
  else match CronSchedule.parse job.scheduleExpr with
    | none => .error (text "invalid cron schedule: '" ++ job.scheduleExpr ++ text "'")
    | some cron => .ok { job with schedule := some cron }

/-- The answer to a change of the job set, from the error the handler returned. -/
def changeResponse (cmd : String) (job error : Bytes) : Json V :=
  if error ≠ [] then failure error
  else .object [(text "ok", .bool true), (text "cmd", .lit cmd), (text "job", .str job)]

/-- The branch `add_job` of `Api::handle`. -/
def addJobResponse (line : Bytes) : Json V :=
  match api.addJobHandler with
  | none => failure (text "job control unavailable")
  | some handler =>
      match lib.parse line with
      | some (.obj fields) =>
          match readJob lib (.obj fields) with
          | .error error => failure error
          | .ok job => changeResponse "add_job" job.name (handler job)
      | _ => failure (text "add_job requires a JSON body")

/-- The branch `remove_job` of `Api::handle`. -/
def removeJobResponse (req : Request) : Json V :=
  match api.removeJobHandler with
  | none => failure (text "job control unavailable")
  | some handler =>
      if req.arg = [] then failure (text "missing job name")
      else changeResponse "remove_job" req.arg (handler req.arg)

/-- The branch `run` of `Api::handle`. -/
def runResponse (req : Request) : Json V :=
  match api.runHandler with
  | none => failure (text "job control unavailable")
  | some handler =>
      if req.arg = [] then failure (text "missing job name")
      else if handler req.arg then
        .object [
          (text "ok", .bool true),
          (text "cmd", .lit "run"),
          (text "job", .str req.arg),
          (text "queued", .bool true)]
      else
        .object [
          (text "ok", .bool false),
          (text "error", .lit "no such job"),
          (text "job", .str req.arg)]

/-- The object `handle` dumps. -/
def respond (line : Bytes) : Json V :=
  let req := parseRequest lib line
  if req.cmd = text "ping" then
    .object [(text "ok", .bool true), (text "cmd", .lit "ping"), (text "reply", .lit "pong")]
  else if req.cmd = text "status" then api.statusResponse
  else if req.cmd = text "jobs" then
    .object [(text "ok", .bool true), (text "cmd", .lit "jobs"), (text "jobs", jobsArray api.jobs)]
  else if req.cmd = text "alerts" then
    .object [
      (text "ok", .bool true),
      (text "cmd", .lit "alerts"),
      (text "alerts", alertsArray api.alerts)]
  else if req.cmd = text "history" then api.historyResponse req
  else if req.cmd = text "runs" then api.runsResponse req
  else if req.cmd = text "add_job" then api.addJobResponse lib line
  else if req.cmd = text "remove_job" then api.removeJobResponse req
  else if req.cmd = text "run" then api.runResponse req
  else
    .object [
      (text "ok", .bool false),
      (text "error", .lit "unknown command"),
      (text "cmd", .str req.cmd)]

/-- `Api::handle`. -/
def handle (line : Bytes) : Except JsonError Bytes := lib.dump (api.respond lib line)

end Api
end AgentPulse
