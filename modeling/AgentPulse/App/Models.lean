import AgentPulse.Ipc.Api
import AgentPulse.Ipc.JsonText

/-!
# What the app makes of the status

The `Codable` structures of the app and `API.decodeStatus`, applied to the
answer of the daemon. Every field comes back as the daemon published it. The
numbers that are not finite are the exception: they are written as `null`, and
where the app asks for a number the whole answer is rejected.

## Implementation notes

`Int` is the 64-bit integer. `JSONDecoder` is a parameter: how it reads a text,
and what it makes of a number of the other kind, an integer read as a `Double`
or a `Double` as an integer.
-/

namespace AgentPulse.Models

/-- `DaemonInfo` of `Models.swift`. -/
structure DaemonInfo (V : Type) where
  startedAt : Int
  rssBytes : Option UInt64
  cpuPercent : Option V
  deriving DecidableEq

/-- `CpuInfo` of `Models.swift`. -/
structure CpuInfo (V : Type) where
  valid : Bool
  percent : V
  sampledAt : Int
  deriving DecidableEq

/-- `MemoryInfo` of `Models.swift`. -/
structure MemoryInfo (V : Type) where
  totalBytes : UInt64
  usedBytes : UInt64
  usedPercent : V
  deriving DecidableEq

/-- `DiskInfo` of `Models.swift`. -/
structure DiskInfo (V : Type) where
  totalBytes : UInt64
  availableBytes : UInt64
  usedPercent : V
  deriving DecidableEq

/-- `ProcInfo` of `Models.swift`. -/
structure ProcInfo (V : Type) where
  pid : Int
  name : Bytes
  cpuPercent : V
  rssBytes : UInt64
  deriving DecidableEq

/-- `SystemInfo` of `Models.swift`. -/
structure SystemInfo (V : Type) where
  valid : Bool
  sampledAt : Int
  memory : MemoryInfo V
  disk : DiskInfo V
  thermalState : Bytes
  topProcesses : List (ProcInfo V)
  deriving DecidableEq

/-- `LastRun` of `Models.swift`. -/
structure LastRun where
  status : Bytes
  startedAt : Int
  exitCode : Int
  durationMs : Int
  trigger : Bytes
  deriving DecidableEq

/-- `JobStatus` of `Models.swift`; an answer may lack `source`. -/
structure JobStatus where
  name : Bytes
  schedule : Bytes
  source : Option Bytes
  nextRun : Int
  running : Bool
  lastRun : Option LastRun
  deriving DecidableEq

/-- `AlertInfo` of `Models.swift`. -/
structure AlertInfo (V : Type) where
  ts : Int
  rule : Bytes
  severity : Bytes
  metric : Bytes
  kind : Bytes
  value : V
  threshold : V
  message : Bytes
  attribution : Bytes
  notified : Bool
  deriving DecidableEq

/-- `StatusResponse` of `Models.swift`. -/
structure StatusResponse (V : Type) where
  ok : Bool
  daemon : Option (DaemonInfo V)
  cpu : Option (CpuInfo V)
  system : Option (SystemInfo V)
  jobs : Option (List JobStatus)
  alerts : Option (List (AlertInfo V))
  deriving DecidableEq

/-- What `JSONDecoder` contributes: the value of a text, the `Double` of an
integer and the exact integer of a `Double`. -/
structure JsonDecoder (V : Type) where
  read : Bytes → Option (Json V)
  ofInt : Int → V
  exactly : V → Option Int

/-- A reader gets back what the library of the daemon writes. A number that is
not finite comes back as `null`. -/
def ReadsDump {V : Type} (read : Bytes → Option (Json V)) (lib : JsonLibrary V)
    (finite : V → Bool) : Prop :=
  ∀ j out, lib.dump j = .ok out → read out = some (j.sent finite)

section Keys

/-- An ASCII letter in lower case. -/
def lower (b : UInt8) : UInt8 := if 65 ≤ b ∧ b ≤ 90 then b + 32 else b

/-- An ASCII letter in upper case. -/
def upper (b : UInt8) : UInt8 := if 97 ≤ b ∧ b ≤ 122 then b - 32 else b

/-- `String.capitalized` of a word. -/
def capitalized : Bytes → Bytes
  | [] => []
  | b :: rest => upper b :: rest.map lower

/-- `.convertFromSnakeCase`: the words between the underscores are capitalized
from the second on; underscores at both ends stay. -/
def fromSnakeCase (key : Bytes) : Bytes :=
  let core := ((key.dropWhile (· == 95)).reverse.dropWhile (· == 95)).reverse
  if core = [] then key
  else
    key.takeWhile (· == 95) ++
      (match (core.splitOn 95).filter (· ≠ []) with
        | first :: second :: rest =>
            first.map lower ++ ((second :: rest).map capitalized).flatten
        | _ => core) ++
      (key.reverse.takeWhile (· == 95))

end Keys

section Decoding

variable {V : Type} {α : Type} (decoder : JsonDecoder V)

/-- The value of a key of a keyed container. -/
def field (key : String) : Json V → Option (Json V)
  | .obj fields => (fields.find? fun f => fromSnakeCase f.1 = text key).map Prod.snd
  | _ => none

/-- `decode(_:forKey:)`; `none` is a thrown error. -/
def required (decode : Json V → Option α) (key : String) (j : Json V) : Option α :=
  (field key j).bind decode

/-- `decodeIfPresent(_:forKey:)`. -/
def optional (decode : Json V → Option α) (key : String) (j : Json V) : Option (Option α) :=
  match field key j with
  | none => some none
  | some .null => some none
  | some value => (decode value).map some

/-- `Bool` from a decoder. -/
def decodeBool : Json V → Option Bool
  | .bool b => some b
  | _ => none

/-- `String` from a decoder. -/
def decodeString : Json V → Option Bytes
  | .str s => some s
  | _ => none

/-- `Double` from a decoder. -/
def decodeDouble : Json V → Option V
  | .float v => some v
  | .int i => some (decoder.ofInt i)
  | _ => none

/-- The integer a number stands for. -/
def integer : Json V → Option Int
  | .int i => some i
  | .float v => decoder.exactly v
  | _ => none

/-- `Int` from a decoder. -/
def decodeInt (j : Json V) : Option Int :=
  (integer decoder j).filter fun i => -2 ^ 63 ≤ i ∧ i < 2 ^ 63

/-- `UInt64` from a decoder. -/
def decodeUInt64 (j : Json V) : Option UInt64 :=
  ((integer decoder j).filter fun i => 0 ≤ i ∧ i < 2 ^ 64).map fun i => UInt64.ofNat i.toNat

/-- An array of a `Decodable` type. -/
def decodeArray (decode : Json V → Option α) : Json V → Option (List α)
  | .arr items => items.mapM decode
  | _ => none

/-- The `Decodable` conformance of `DaemonInfo`. -/
def decodeDaemonInfo (j : Json V) : Option (DaemonInfo V) := do
  let startedAt ← required (decodeInt decoder) "startedAt" j
  let rssBytes ← optional (decodeUInt64 decoder) "rssBytes" j
  let cpuPercent ← optional (decodeDouble decoder) "cpuPercent" j
  some { startedAt, rssBytes, cpuPercent }

/-- The `Decodable` conformance of `CpuInfo`. -/
def decodeCpuInfo (j : Json V) : Option (CpuInfo V) := do
  let valid ← required decodeBool "valid" j
  let percent ← required (decodeDouble decoder) "percent" j
  let sampledAt ← required (decodeInt decoder) "sampledAt" j
  some { valid, percent, sampledAt }

/-- The `Decodable` conformance of `MemoryInfo`. -/
def decodeMemoryInfo (j : Json V) : Option (MemoryInfo V) := do
  let totalBytes ← required (decodeUInt64 decoder) "totalBytes" j
  let usedBytes ← required (decodeUInt64 decoder) "usedBytes" j
  let usedPercent ← required (decodeDouble decoder) "usedPercent" j
  some { totalBytes, usedBytes, usedPercent }

/-- The `Decodable` conformance of `DiskInfo`. -/
def decodeDiskInfo (j : Json V) : Option (DiskInfo V) := do
  let totalBytes ← required (decodeUInt64 decoder) "totalBytes" j
  let availableBytes ← required (decodeUInt64 decoder) "availableBytes" j
  let usedPercent ← required (decodeDouble decoder) "usedPercent" j
  some { totalBytes, availableBytes, usedPercent }

/-- The `Decodable` conformance of `ProcInfo`. -/
def decodeProcInfo (j : Json V) : Option (ProcInfo V) := do
  let pid ← required (decodeInt decoder) "pid" j
  let name ← required decodeString "name" j
  let cpuPercent ← required (decodeDouble decoder) "cpuPercent" j
  let rssBytes ← required (decodeUInt64 decoder) "rssBytes" j
  some { pid, name, cpuPercent, rssBytes }

/-- The `Decodable` conformance of `SystemInfo`. -/
def decodeSystemInfo (j : Json V) : Option (SystemInfo V) := do
  let valid ← required decodeBool "valid" j
  let sampledAt ← required (decodeInt decoder) "sampledAt" j
  let memory ← required (decodeMemoryInfo decoder) "memory" j
  let disk ← required (decodeDiskInfo decoder) "disk" j
  let thermalState ← required decodeString "thermalState" j
  let topProcesses ← required (decodeArray (decodeProcInfo decoder)) "topProcesses" j
  some { valid, sampledAt, memory, disk, thermalState, topProcesses }

/-- The `Decodable` conformance of `LastRun`. -/
def decodeLastRun (j : Json V) : Option LastRun := do
  let status ← required decodeString "status" j
  let startedAt ← required (decodeInt decoder) "startedAt" j
  let exitCode ← required (decodeInt decoder) "exitCode" j
  let durationMs ← required (decodeInt decoder) "durationMs" j
  let trigger ← required decodeString "trigger" j
  some { status, startedAt, exitCode, durationMs, trigger }

/-- The `Decodable` conformance of `JobStatus`. -/
def decodeJobStatus (j : Json V) : Option JobStatus := do
  let name ← required decodeString "name" j
  let schedule ← required decodeString "schedule" j
  let source ← optional decodeString "source" j
  let nextRun ← required (decodeInt decoder) "nextRun" j
  let running ← required decodeBool "running" j
  let lastRun ← optional (decodeLastRun decoder) "lastRun" j
  some { name, schedule, source, nextRun, running, lastRun }

/-- The `Decodable` conformance of `AlertInfo`. -/
def decodeAlertInfo (j : Json V) : Option (AlertInfo V) := do
  let ts ← required (decodeInt decoder) "ts" j
  let rule ← required decodeString "rule" j
  let severity ← required decodeString "severity" j
  let metric ← required decodeString "metric" j
  let kind ← required decodeString "kind" j
  let value ← required (decodeDouble decoder) "value" j
  let threshold ← required (decodeDouble decoder) "threshold" j
  let message ← required decodeString "message" j
  let attribution ← required decodeString "attribution" j
  let notified ← required decodeBool "notified" j
  some { ts, rule, severity, metric, kind, value, threshold, message, attribution, notified }

/-- The `Decodable` conformance of `StatusResponse`. -/
def decodeStatusResponse (j : Json V) : Option (StatusResponse V) := do
  let ok ← required decodeBool "ok" j
  let daemon ← optional (decodeDaemonInfo decoder) "daemon" j
  let cpu ← optional (decodeCpuInfo decoder) "cpu" j
  let system ← optional (decodeSystemInfo decoder) "system" j
  let jobs ← optional (decodeArray (decodeJobStatus decoder)) "jobs" j
  let alerts ← optional (decodeArray (decodeAlertInfo decoder)) "alerts" j
  some { ok, daemon, cpu, system, jobs, alerts }

/-- `API.decodeStatus`. -/
def decodeStatus (data : Bytes) : Option (StatusResponse V) :=
  (decoder.read data).bind (decodeStatusResponse decoder)

end Decoding

section Leaves

variable {V : Type} {decoder : JsonDecoder V} {finite : V → Bool}

/-- A 64-bit integer. -/
def IsLong (i : Int) : Prop := -2 ^ 63 ≤ i ∧ i < 2 ^ 63

theorem decodeInt_int {i : Int} (h : IsLong i) :
    decodeInt decoder (Json.sent finite (.int i)) = some i := by
  have hrange : -9223372036854775808 ≤ i ∧ i < 9223372036854775808 := h
  simp [decodeInt, integer, Json.sent, Option.filter, hrange]

theorem isLong_int32 (n : Int32) : IsLong n.toInt :=
  ⟨(by decide : (-2 : Int) ^ 63 ≤ -2 ^ 31).trans n.le_toInt, n.toInt_lt.trans (by decide)⟩

theorem decodeUInt64_nat (n : UInt64) :
    decodeUInt64 decoder (Json.sent finite (.int n.toNat)) = some n := by
  have hrange : n.toNat < 18446744073709551616 := n.toNat_lt
  have hint : (n.toNat : Int) < 18446744073709551616 := by omega
  simp [decodeUInt64, integer, Json.sent, Option.filter, hint]

theorem decodeDouble_float (v : V) :
    decodeDouble decoder (Json.sent finite (.float v)) = if finite v then some v else none := by
  rw [Json.sent]
  cases finite v <;> rfl

end Leaves

section Containers

variable {V : Type} {α : Type} {finite : V → Bool} {fields : List (Bytes × Json V)}

theorem sentFields_eq_map (fields : List (Bytes × Json V)) :
    Json.sentFields finite fields = fields.map fun f => (f.1, Json.sent finite f.2) := by
  induction fields with
  | nil => rfl
  | cons f fields ih =>
      obtain ⟨key, value⟩ := f
      rw [Json.sentFields, ih, List.map_cons]

theorem sentItems_eq_map (items : List (Json V)) :
    Json.sentItems finite items = items.map (Json.sent finite) := by
  induction items with
  | nil => rfl
  | cons item items ih => rw [Json.sentItems, ih, List.map_cons]

/-- The app finds the fields of a value under their converted keys. -/
def Keyed (finite : V → Bool) (j : Json V) (fields : List (Bytes × Json V)) : Prop :=
  ∀ f ∈ fields, ∀ key, fromSnakeCase f.1 = text key →
    field key (Json.sent finite j) = some (Json.sent finite f.2)

/-- An object has the fields it was built from, if their converted keys differ. -/
theorem keyed_object {keys : List Bytes} (hn : (keys.map fromSnakeCase).Nodup)
    (hkeys : fields.map Prod.fst = keys) : Keyed finite (.object fields) fields := by
  intro f hf key hkey
  have hperm := List.perm_insertionSort (fun a b : Bytes × Json V => a.1 ≤ b.1) fields
  have hnodup : (fields.map fun f => fromSnakeCase f.1).Nodup := by
    rw [← hkeys, List.map_map] at hn
    exact hn
  have hfind := (KeyedList.find?_eq_some_iff (f := fun f : Bytes × Json V => fromSnakeCase f.1)
    ((hperm.map _).nodup_iff.mpr hnodup)).mpr ⟨hperm.mem_iff.mpr hf, hkey⟩
  have hcomp : ((fun f : Bytes × Json V => decide (fromSnakeCase f.1 = text key)) ∘
      fun f : Bytes × Json V => (f.1, Json.sent finite f.2)) =
      fun f => decide (fromSnakeCase f.1 = text key) := rfl
  rw [Json.object, Json.sent, sentFields_eq_map, field, List.find?_map, hcomp, hfind]
  rfl

section Keyed

variable {j : Json V} {name : Bytes} {value : Json V} {decode : Json V → Option α}

theorem Keyed.required (h : Keyed finite j fields) (i : ℕ) (key : String)
    (hget : fields[i]? = some (name, value)) (hkey : fromSnakeCase name = text key) :
    required decode key (Json.sent finite j) = decode (Json.sent finite value) := by
  rw [Models.required, h _ (List.mem_of_getElem? hget) key hkey, Option.bind_some]

/-- An optional field that is there is decoded like a required one. -/
theorem Keyed.optional (h : Keyed finite j fields) (i : ℕ) (key : String)
    (hget : fields[i]? = some (name, value)) (hkey : fromSnakeCase name = text key)
    (hvalue : Json.sent finite value ≠ .null) :
    optional decode key (Json.sent finite j) = (decode (Json.sent finite value)).map some := by
  rw [Models.optional, h _ (List.mem_of_getElem? hget) key hkey]
  cases hsent : Json.sent finite value with
  | null => exact absurd hsent hvalue
  | bool b | int n | float v | str s | arr l | obj l => rfl

theorem Keyed.optional_null (h : Keyed finite j fields) (i : ℕ) (key : String)
    (hget : fields[i]? = some (name, value)) (hkey : fromSnakeCase name = text key)
    (hvalue : Json.sent finite value = .null) :
    Models.optional decode key (Json.sent finite j) = some none := by
  rw [Models.optional, h _ (List.mem_of_getElem? hget) key hkey, hvalue]

end Keyed

/-- An array is decoded if every item is. -/
theorem decodeArray_map {β : Type} {items : List β} {encode : β → Json V}
    {decode : Json V → Option α} (good : β → Bool) (shown : β → α)
    (h : ∀ x ∈ items, decode (Json.sent finite (encode x)) =
      if good x then some (shown x) else none) :
    decodeArray decode (Json.sent finite (.arr (items.map encode))) =
      if items.all good then some (items.map shown) else none := by
  rw [Json.sent, sentItems_eq_map, List.map_map, decodeArray]
  induction items with
  | nil => rfl
  | cons x items ih =>
      have hitems := ih fun y hy => h y (List.mem_cons_of_mem _ hy)
      rw [List.map_cons, List.mapM_cons, hitems, Function.comp_apply, h x List.mem_cons_self,
        List.all_cons]
      cases good x <;> cases items.all good <;> rfl

end Containers

section Shown

variable {V : Type} (finite : V → Bool)

/-- The last run of a job in the app. -/
def LastRun.of (r : AgentPulse.LastRun) : LastRun :=
  ⟨r.status, r.startedAt, r.exitCode.toInt, r.durationMs, r.trigger⟩

/-- The status of a job in the app. -/
def JobStatus.of (s : AgentPulse.JobStatus) : JobStatus :=
  ⟨s.name, s.scheduleExpr, some s.source, s.nextRun, s.running, s.lastRun.map LastRun.of⟩

/-- A process in the app. -/
def ProcInfo.of (p : AgentPulse.ProcInfo V) : ProcInfo V :=
  ⟨p.pid.toInt, p.name, p.cpuPercent, p.rssBytes⟩

/-- A system snapshot in the app. -/
def SystemInfo.of (s : SystemSnapshot V) : SystemInfo V :=
  ⟨s.valid, s.sampledAt, ⟨s.memTotalBytes, s.memUsedBytes, s.memUsedPercent⟩,
    ⟨s.diskTotalBytes, s.diskAvailableBytes, s.diskUsedPercent⟩, s.thermalState,
    s.topProcesses.map ProcInfo.of⟩

/-- An alert in the app. -/
def AlertInfo.of (a : AgentPulse.AlertInfo V) : AlertInfo V :=
  ⟨a.ts, a.ruleName, a.severity, a.metric, a.kind.toText, a.value, a.threshold, a.message,
    a.attribution, a.notify⟩

/-- The status in the app. Its own processor time is optional there. -/
def StatusResponse.of (api : Api V) : StatusResponse V where
  ok := true
  daemon := some
    { startedAt := api.startedAt
      rssBytes := some api.self.rssBytes
      cpuPercent := if finite api.self.cpuPercent then some api.self.cpuPercent else none }
  cpu := some ⟨api.cpu.valid, api.cpu.percent, api.cpu.sampledAt⟩
  system := some (SystemInfo.of api.system)
  jobs := some (api.jobs.map JobStatus.of)
  alerts := some (api.alerts.map AlertInfo.of)

/-- The numbers of a system snapshot the app cannot do without. -/
def finiteSystem (s : SystemSnapshot V) : Bool :=
  finite s.memUsedPercent && finite s.diskUsedPercent &&
    s.topProcesses.all fun p => finite p.cpuPercent

/-- The numbers of an alert the app cannot do without. -/
def finiteAlert (a : AgentPulse.AlertInfo V) : Bool := finite a.value && finite a.threshold

/-- The numbers of a status the app cannot do without. -/
def finiteStatus (api : Api V) : Bool :=
  finite api.cpu.percent && finiteSystem finite api.system && api.alerts.all (finiteAlert finite)

/-- The times of a job status are 64-bit integers. -/
def LongTimes (s : AgentPulse.JobStatus) : Prop :=
  IsLong s.nextRun ∧ ∀ r ∈ s.lastRun, IsLong r.startedAt ∧ IsLong r.durationMs

/-- The integers the daemon publishes are 64-bit integers. -/
structure LongFields (api : Api V) : Prop where
  startedAt : IsLong api.startedAt
  cpu : IsLong api.cpu.sampledAt
  system : IsLong api.system.sampledAt
  jobs : ∀ s ∈ api.jobs, LongTimes s
  alerts : ∀ a ∈ api.alerts, IsLong a.ts

end Shown

section Records

variable {V : Type} {decoder : JsonDecoder V} {finite : V → Bool}

/-- The object of a last run. -/
theorem decodeLastRun_sent {r : AgentPulse.LastRun} (hstart : IsLong r.startedAt)
    (hduration : IsLong r.durationMs) :
    decodeLastRun decoder (Json.sent finite (.object [
      (text "status", .str r.status),
      (text "started_at", .int r.startedAt),
      (text "exit_code", .int r.exitCode.toInt),
      (text "duration_ms", .int r.durationMs),
      (text "trigger", .str r.trigger)])) = some (LastRun.of r) := by
  have hn : ([text "status", text "started_at", text "exit_code", text "duration_ms",
      text "trigger"].map fromSnakeCase).Nodup := by decide
  have hk : Keyed finite (.object [
      (text "status", .str r.status),
      (text "started_at", .int r.startedAt),
      (text "exit_code", .int r.exitCode.toInt),
      (text "duration_ms", .int r.durationMs),
      (text "trigger", .str r.trigger)]) _ := keyed_object hn rfl
  rw [decodeLastRun, hk.required 0 "status" rfl (by decide),
    hk.required 1 "startedAt" rfl (by decide),
    hk.required 2 "exitCode" rfl (by decide),
    hk.required 3 "durationMs" rfl (by decide),
    hk.required 4 "trigger" rfl (by decide), decodeInt_int hstart, decodeInt_int hduration,
    decodeInt_int (isLong_int32 r.exitCode)]
  rfl

theorem decodeJobStatus_sent {s : AgentPulse.JobStatus} (h : LongTimes s) :
    decodeJobStatus decoder (Json.sent finite (jobToJson s)) = some (JobStatus.of s) := by
  have hn : ([text "name", text "schedule", text "source", text "next_run", text "running",
      text "last_run"].map fromSnakeCase).Nodup := by decide
  have hk : Keyed finite (jobToJson s) _ := keyed_object hn rfl
  have hlast : optional (decodeLastRun decoder) "lastRun" (Json.sent finite (jobToJson s)) =
      some (s.lastRun.map LastRun.of) := by
    cases hrun : s.lastRun with
    | none => exact hk.optional_null 5 "lastRun" rfl (by decide) (by rw [hrun]; rfl)
    | some r =>
        obtain ⟨hstart, hduration⟩ := h.2 r hrun
        rw [hk.optional 5 "lastRun" rfl (by decide) (by simp [hrun, Json.object, Json.sent])]
        simp only [hrun, decodeLastRun_sent hstart hduration]
        rfl
  rw [decodeJobStatus, hlast, hk.required 0 "name" rfl (by decide),
    hk.required 1 "schedule" rfl (by decide),
    hk.optional 2 "source" rfl (by decide) (by simp [Json.sent]),
    hk.required 3 "nextRun" rfl (by decide),
    hk.required 4 "running" rfl (by decide), decodeInt_int h.1]
  rfl

theorem decodeProcInfo_sent (p : AgentPulse.ProcInfo V) :
    decodeProcInfo decoder (Json.sent finite (procToJson p)) =
      if finite p.cpuPercent then some (ProcInfo.of p) else none := by
  have hn : ([text "pid", text "name", text "cpu_percent", text "rss_bytes"].map
      fromSnakeCase).Nodup := by decide
  have hk : Keyed finite (procToJson p) _ := keyed_object hn rfl
  rw [decodeProcInfo, hk.required 0 "pid" rfl (by decide),
    hk.required 1 "name" rfl (by decide),
    hk.required 2 "cpuPercent" rfl (by decide),
    hk.required 3 "rssBytes" rfl (by decide), decodeInt_int (isLong_int32 p.pid),
    decodeUInt64_nat, decodeDouble_float]
  cases finite p.cpuPercent <;> rfl

theorem decodeAlertInfo_sent {a : AgentPulse.AlertInfo V} (h : IsLong a.ts) :
    decodeAlertInfo decoder (Json.sent finite (alertToJson a)) =
      if finiteAlert finite a then some (AlertInfo.of a) else none := by
  have hn : ([text "ts", text "rule", text "severity", text "metric", text "kind", text "value",
      text "threshold", text "message", text "attribution", text "notified"].map
        fromSnakeCase).Nodup := by decide
  have hk : Keyed finite (alertToJson a) _ := keyed_object hn rfl
  rw [decodeAlertInfo, hk.required 0 "ts" rfl (by decide),
    hk.required 1 "rule" rfl (by decide),
    hk.required 2 "severity" rfl (by decide),
    hk.required 3 "metric" rfl (by decide), hk.required 4 "kind" rfl (by decide),
    hk.required 5 "value" rfl (by decide),
    hk.required 6 "threshold" rfl (by decide),
    hk.required 7 "message" rfl (by decide),
    hk.required 8 "attribution" rfl (by decide),
    hk.required 9 "notified" rfl (by decide), decodeInt_int h, decodeDouble_float,
    decodeDouble_float, finiteAlert]
  cases finite a.value <;> cases finite a.threshold <;> rfl

theorem decodeMemoryInfo_sent (total used : UInt64) (percent : V) :
    decodeMemoryInfo decoder (Json.sent finite (.object [
      (text "total_bytes", .int total.toNat),
      (text "used_bytes", .int used.toNat),
      (text "used_percent", .float percent)])) =
      if finite percent then some ⟨total, used, percent⟩ else none := by
  have hn : ([text "total_bytes", text "used_bytes", text "used_percent"].map
      fromSnakeCase).Nodup := by decide
  have hk : Keyed finite (.object [
      (text "total_bytes", .int total.toNat),
      (text "used_bytes", .int used.toNat),
      (text "used_percent", .float percent)]) _ := keyed_object hn rfl
  rw [decodeMemoryInfo, hk.required 0 "totalBytes" rfl (by decide),
    hk.required 1 "usedBytes" rfl (by decide),
    hk.required 2 "usedPercent" rfl (by decide), decodeUInt64_nat, decodeUInt64_nat,
    decodeDouble_float]
  cases finite percent <;> rfl

theorem decodeDiskInfo_sent (total available : UInt64) (percent : V) :
    decodeDiskInfo decoder (Json.sent finite (.object [
      (text "total_bytes", .int total.toNat),
      (text "available_bytes", .int available.toNat),
      (text "used_percent", .float percent)])) =
      if finite percent then some ⟨total, available, percent⟩ else none := by
  have hn : ([text "total_bytes", text "available_bytes", text "used_percent"].map
      fromSnakeCase).Nodup := by decide
  have hk : Keyed finite (.object [
      (text "total_bytes", .int total.toNat),
      (text "available_bytes", .int available.toNat),
      (text "used_percent", .float percent)]) _ := keyed_object hn rfl
  rw [decodeDiskInfo, hk.required 0 "totalBytes" rfl (by decide),
    hk.required 1 "availableBytes" rfl (by decide),
    hk.required 2 "usedPercent" rfl (by decide), decodeUInt64_nat, decodeUInt64_nat,
    decodeDouble_float]
  cases finite percent <;> rfl

theorem decodeSystemInfo_sent {s : SystemSnapshot V} (h : IsLong s.sampledAt) :
    decodeSystemInfo decoder (Json.sent finite (systemToJson s)) =
      if finiteSystem finite s then some (SystemInfo.of s) else none := by
  have hn : ([text "valid", text "sampled_at", text "memory", text "disk", text "thermal_state",
      text "top_processes"].map fromSnakeCase).Nodup := by decide
  have hk : Keyed finite (systemToJson s) _ := keyed_object hn rfl
  have hprocs : decodeArray (decodeProcInfo decoder)
      (Json.sent finite (.arr (s.topProcesses.map procToJson))) =
        if s.topProcesses.all fun p => finite p.cpuPercent then
          some (s.topProcesses.map ProcInfo.of)
        else none :=
    decodeArray_map _ _ fun p _ => decodeProcInfo_sent p
  rw [decodeSystemInfo, hk.required 0 "valid" rfl (by decide),
    hk.required 1 "sampledAt" rfl (by decide),
    hk.required 2 "memory" rfl (by decide), hk.required 3 "disk" rfl (by decide),
    hk.required 4 "thermalState" rfl (by decide),
    hk.required 5 "topProcesses" rfl (by decide), decodeInt_int h, decodeMemoryInfo_sent,
    decodeDiskInfo_sent, hprocs, finiteSystem]
  cases finite s.memUsedPercent <;> cases finite s.diskUsedPercent <;>
    cases s.topProcesses.all (fun p => finite p.cpuPercent) <;> rfl

theorem decodeDaemonInfo_sent {startedAt : Int} {self : SelfSnapshot V} (h : IsLong startedAt) :
    decodeDaemonInfo decoder (Json.sent finite (.object [
      (text "started_at", .int startedAt),
      (text "rss_bytes", .int self.rssBytes.toNat),
      (text "cpu_percent", .float self.cpuPercent)])) =
      some ⟨startedAt, some self.rssBytes,
        if finite self.cpuPercent then some self.cpuPercent else none⟩ := by
  have hn : ([text "started_at", text "rss_bytes", text "cpu_percent"].map
      fromSnakeCase).Nodup := by decide
  have hk : Keyed finite (.object [
      (text "started_at", .int startedAt),
      (text "rss_bytes", .int self.rssBytes.toNat),
      (text "cpu_percent", .float self.cpuPercent)]) _ := keyed_object hn rfl
  have hcpu : optional (decodeDouble decoder) "cpuPercent" (Json.sent finite (.object [
      (text "started_at", .int startedAt),
      (text "rss_bytes", .int self.rssBytes.toNat),
      (text "cpu_percent", .float self.cpuPercent)])) =
        some (if finite self.cpuPercent then some self.cpuPercent else none) := by
    cases hfinite : finite self.cpuPercent with
    | false =>
        exact hk.optional_null 2 "cpuPercent" rfl (by decide) (by simp [Json.sent, hfinite])
    | true =>
        rw [hk.optional 2 "cpuPercent" rfl (by decide) (by simp [Json.sent, hfinite]),
          decodeDouble_float, hfinite]
        rfl
  rw [decodeDaemonInfo, hcpu, hk.required 0 "startedAt" rfl (by decide),
    hk.optional 1 "rssBytes" rfl (by decide) (by simp [Json.sent]), decodeInt_int h,
    decodeUInt64_nat]
  rfl

theorem decodeCpuInfo_sent {cpu : CpuSnapshot V} (h : IsLong cpu.sampledAt) :
    decodeCpuInfo decoder (Json.sent finite (.object [
      (text "valid", .bool cpu.valid),
      (text "percent", .float cpu.percent),
      (text "sampled_at", .int cpu.sampledAt)])) =
      if finite cpu.percent then some ⟨cpu.valid, cpu.percent, cpu.sampledAt⟩ else none := by
  have hn : ([text "valid", text "percent", text "sampled_at"].map fromSnakeCase).Nodup := by
    decide
  have hk : Keyed finite (.object [
      (text "valid", .bool cpu.valid),
      (text "percent", .float cpu.percent),
      (text "sampled_at", .int cpu.sampledAt)]) _ := keyed_object hn rfl
  rw [decodeCpuInfo, hk.required 0 "valid" rfl (by decide),
    hk.required 1 "percent" rfl (by decide),
    hk.required 2 "sampledAt" rfl (by decide), decodeInt_int h, decodeDouble_float]
  cases finite cpu.percent <;> rfl

/-- The status as it is sent. -/
theorem decodeStatusResponse_sent {api : Api V} (h : LongFields api) :
    decodeStatusResponse decoder (Json.sent finite api.statusResponse) =
      if finiteStatus finite api then some (StatusResponse.of finite api) else none := by
  have hn : ([text "ok", text "cmd", text "daemon", text "cpu", text "system", text "jobs",
      text "alerts"].map fromSnakeCase).Nodup := by decide
  have hk : Keyed finite api.statusResponse _ := keyed_object hn rfl
  have hjobs : decodeArray (decodeJobStatus decoder) (Json.sent finite (jobsArray api.jobs)) =
      some (api.jobs.map JobStatus.of) := by
    rw [jobsArray, decodeArray_map (fun _ => true) JobStatus.of
      fun s hs => decodeJobStatus_sent (h.jobs s hs)]
    simp
  have halerts : decodeArray (decodeAlertInfo decoder) (Json.sent finite (alertsArray api.alerts)) =
      if api.alerts.all (finiteAlert finite) then some (api.alerts.map AlertInfo.of) else none :=
    decodeArray_map _ _ fun a ha => decodeAlertInfo_sent (h.alerts a ha)
  rw [decodeStatusResponse, hk.required 0 "ok" rfl (by decide),
    hk.optional 2 "daemon" rfl (by decide) (by simp [Json.object, Json.sent]),
    hk.optional 3 "cpu" rfl (by decide) (by simp [Json.object, Json.sent]),
    hk.optional 4 "system" rfl (by decide) (by simp [systemToJson, Json.object, Json.sent]),
    hk.optional 5 "jobs" rfl (by decide) (by simp [jobsArray, Json.sent]),
    hk.optional 6 "alerts" rfl (by decide) (by simp [alertsArray, Json.sent]),
    decodeDaemonInfo_sent h.startedAt, decodeCpuInfo_sent h.cpu, decodeSystemInfo_sent h.system,
    hjobs, halerts, finiteStatus]
  cases finite api.cpu.percent <;> cases finiteSystem finite api.system <;>
    cases api.alerts.all (finiteAlert finite) <;> rfl

end Records

end AgentPulse.Models
