import AgentPulse.Ipc.Api

/-!
# Which requests are answered

`handle` answers a line exactly if every byte string the answer quotes from
outside is well-formed UTF-8. Such strings come from bare request words, from
the configuration, from process names, from the standard error of jobs and
from the database, and nobody checks them.
-/

namespace AgentPulse

/-- The strings of a job status the API quotes. -/
def JobStatus.quotes (s : JobStatus) : List Bytes :=
  [s.name, s.scheduleExpr, s.source] ++
    match s.lastRun with
    | some r => [r.status, r.trigger]
    | none => []

def AlertInfo.quotes {V : Type} (a : AlertInfo V) : List Bytes :=
  [a.ruleName, a.severity, a.metric, a.message, a.attribution]

def SystemSnapshot.quotes {V : Type} (s : SystemSnapshot V) : List Bytes :=
  s.thermalState :: s.topProcesses.map ProcInfo.name

def RunRecord.quotes (r : RunRecord) : List Bytes := [r.status, r.trigger]

namespace Api

variable {V : Type} (lib : JsonLibrary V) (api : Api V)

def quotesHistory (req : Request) : List Bytes :=
  match api.db with
  | none => []
  | some db =>
      if req.arg = [] then []
      else match api.historyQuery db req with
        | .error what => [what]
        | .ok _ => [req.arg]

def quotesRuns (req : Request) : List Bytes :=
  match api.db with
  | none => []
  | some db =>
      if req.arg = [] then []
      else match runsQuery db req with
        | .error what => [what]
        | .ok runs => req.arg :: runs.flatMap RunRecord.quotes

/-- The error of a change of the job set, or the job if there is none. -/
def quotesChange (job error : Bytes) : List Bytes := if error ≠ [] then [error] else [job]

def quotesAddJob (line : Bytes) : List Bytes :=
  match api.addJobHandler with
  | none => []
  | some handler =>
      match lib.parse line with
      | some (.obj fields) =>
          match readJob lib (.obj fields) with
          | .error _ =>
              if (bodyJob lib (.obj fields)).name = [] ∨ (bodyJob lib (.obj fields)).command = []
              then [] else [(bodyJob lib (.obj fields)).scheduleExpr]
          | .ok job => quotesChange job.name (handler job)
      | _ => []

def quotesRemoveJob (req : Request) : List Bytes :=
  match api.removeJobHandler with
  | none => []
  | some handler => if req.arg = [] then [] else quotesChange req.arg (handler req.arg)

def quotesRun (req : Request) : List Bytes :=
  match api.runHandler with
  | none => []
  | some _ => [req.arg]

/-- The byte strings from outside that the answer to a line quotes. -/
def quotes (line : Bytes) : List Bytes :=
  let req := parseRequest lib line
  if req.cmd = text "ping" then []
  else if req.cmd = text "status" then
    api.system.quotes ++ api.jobs.flatMap JobStatus.quotes ++ api.alerts.flatMap AlertInfo.quotes
  else if req.cmd = text "jobs" then api.jobs.flatMap JobStatus.quotes
  else if req.cmd = text "alerts" then api.alerts.flatMap AlertInfo.quotes
  else if req.cmd = text "history" then api.quotesHistory req
  else if req.cmd = text "runs" then api.quotesRuns req
  else if req.cmd = text "add_job" then api.quotesAddJob lib line
  else if req.cmd = text "remove_job" then api.quotesRemoveJob req
  else if req.cmd = text "run" then api.quotesRun req
  else [req.cmd]

end Api

section Clean

open Json

variable {V : Type}

@[simp] theorem clean_str {s : Bytes} : (Json.str s : Json V).Clean ↔ Utf8.Valid s := by
  rw [Clean]

@[simp] theorem clean_lit {s : String} : (Json.lit s : Json V).Clean := by
  rw [Json.lit, clean_str]
  exact valid_text s

@[simp] theorem clean_int {i : Int} : (Json.int i : Json V).Clean := by simp [Clean]

@[simp] theorem clean_bool {b : Bool} : (Json.bool b : Json V).Clean := by simp [Clean]

@[simp] theorem clean_float {v : V} : (Json.float v).Clean := by simp [Clean]

@[simp] theorem clean_null : (Json.null : Json V).Clean := by simp [Clean]

theorem clean_map {α : Type} {f : α → Json V} {l : List α} :
    (Json.arr (l.map f)).Clean ↔ ∀ x ∈ l, (f x).Clean := by
  rw [Clean, cleanItems_iff]
  simp

theorem failure_clean {error : Bytes} : (failure error : Json V).Clean ↔ Utf8.Valid error := by
  simp [failure, object_clean, CleanFields, valid_text]

theorem jobToJson_clean {s : JobStatus} :
    (jobToJson s : Json V).Clean ↔ ∀ t ∈ s.quotes, Utf8.Valid t := by
  rw [jobToJson, object_clean, JobStatus.quotes]
  cases s.lastRun with
  | none => simp [CleanFields, valid_text]
  | some r => simp [object_clean, CleanFields, valid_text]

theorem jobsArray_clean {jobs : List JobStatus} :
    (jobsArray jobs : Json V).Clean ↔ ∀ t ∈ jobs.flatMap JobStatus.quotes, Utf8.Valid t := by
  rw [jobsArray, clean_map, List.forall_mem_flatMap]
  simp only [jobToJson_clean]

theorem alertToJson_clean {a : AlertInfo V} :
    (alertToJson a).Clean ↔ ∀ t ∈ a.quotes, Utf8.Valid t := by
  have hkind : Utf8.Valid a.kind.toText := by cases a.kind <;> exact valid_text _
  simp [alertToJson, object_clean, CleanFields, AlertInfo.quotes, valid_text, hkind]

theorem alertsArray_clean {alerts : List (AlertInfo V)} :
    (alertsArray alerts).Clean ↔ ∀ t ∈ alerts.flatMap AlertInfo.quotes, Utf8.Valid t := by
  rw [alertsArray, clean_map, List.forall_mem_flatMap]
  simp only [alertToJson_clean]

theorem systemToJson_clean {s : SystemSnapshot V} :
    (systemToJson s).Clean ↔ ∀ t ∈ s.quotes, Utf8.Valid t := by
  simp [systemToJson, procToJson, object_clean, CleanFields, clean_map, SystemSnapshot.quotes,
    valid_text]

theorem runToJson_clean {r : RunRecord} :
    (runToJson r : Json V).Clean ↔ ∀ t ∈ r.quotes, Utf8.Valid t := by
  simp [runToJson, object_clean, CleanFields, RunRecord.quotes, valid_text]

end Clean

namespace Api

variable {V : Type} {lib : JsonLibrary V} {api : Api V} {req : Request} {line : Bytes}

section Quotes

open Json

theorem statusResponse_clean : api.statusResponse.Clean ↔
    ∀ s ∈ api.system.quotes ++ api.jobs.flatMap JobStatus.quotes ++
      api.alerts.flatMap AlertInfo.quotes, Utf8.Valid s := by
  rw [List.forall_mem_append, List.forall_mem_append, ← systemToJson_clean,
    ← jobsArray_clean (V := V), ← alertsArray_clean]
  simp [statusResponse, object_clean, CleanFields, valid_text, and_assoc]

theorem historyResponse_clean :
    (api.historyResponse req).Clean ↔ ∀ s ∈ api.quotesHistory req, Utf8.Valid s := by
  unfold historyResponse quotesHistory
  cases api.db with
  | none => simp [failure_clean, valid_text]
  | some db =>
      by_cases harg : req.arg = []
      · simp [harg, failure_clean, valid_text]
      · simp only [if_neg harg]
        cases api.historyQuery db req with
        | error what => simp [failure_clean]
        | ok points => simp [object_clean, CleanFields, clean_map, valid_text]

theorem runsResponse_clean :
    (api.runsResponse req).Clean ↔ ∀ s ∈ api.quotesRuns req, Utf8.Valid s := by
  unfold runsResponse quotesRuns
  cases api.db with
  | none => simp [failure_clean, valid_text]
  | some db =>
      by_cases harg : req.arg = []
      · simp [harg, failure_clean, valid_text]
      · simp only [if_neg harg]
        cases runsQuery db req with
        | error what => simp [failure_clean]
        | ok runs =>
            rw [List.forall_mem_cons, List.forall_mem_flatMap]
            simp [object_clean, CleanFields, clean_map, runToJson_clean, valid_text]

theorem changeResponse_clean {cmd : String} {job error : Bytes} :
    (changeResponse cmd job error : Json V).Clean ↔ ∀ s ∈ quotesChange job error, Utf8.Valid s := by
  unfold changeResponse quotesChange
  split_ifs
  · simp [failure_clean]
  · simp [object_clean, CleanFields, valid_text]

/-- The errors of `readJob` are texts of the source around the schedule. -/
theorem readJob_error {body : Json V} {error : Bytes} (h : readJob lib body = .error error) :
    Utf8.Valid error ↔
      (bodyJob lib body).name = [] ∨ (bodyJob lib body).command = [] ∨
        Utf8.Valid (bodyJob lib body).scheduleExpr := by
  unfold readJob at h
  simp only at h
  split_ifs at h with hrequired hschedule
  · cases h
    simp [valid_text, ← or_assoc, hrequired]
  · rw [← or_assoc, or_iff_right hrequired]
    cases hparse : CronSchedule.parse (bodyJob lib body).scheduleExpr with
    | some cron => simp [hparse] at h
    | none =>
        simp only [hparse, Except.error.injEq] at h
        rw [← h, show text "'" = [39] from rfl, Utf8.valid_append_ascii (by decide),
          Utf8.valid_append_right (valid_text _)]

theorem addJobResponse_clean :
    (api.addJobResponse lib line).Clean ↔ ∀ s ∈ api.quotesAddJob lib line, Utf8.Valid s := by
  unfold addJobResponse quotesAddJob
  cases api.addJobHandler with
  | none => simp [failure_clean, valid_text]
  | some handler =>
      cases lib.parse line with
      | none => simp [failure_clean, valid_text]
      | some body =>
          cases body with
          | obj fields =>
              cases hread : readJob lib (.obj fields) with
              | ok job => simp only [hread, changeResponse_clean]
              | error error =>
                  simp only [hread, failure_clean, readJob_error hread]
                  split_ifs with hrequired
                  · simp [← or_assoc, hrequired]
                  · simp [← or_assoc, hrequired]
          | _ => simp [failure_clean, valid_text]

theorem removeJobResponse_clean :
    (api.removeJobResponse req).Clean ↔ ∀ s ∈ api.quotesRemoveJob req, Utf8.Valid s := by
  unfold removeJobResponse quotesRemoveJob
  cases api.removeJobHandler with
  | none => simp [failure_clean, valid_text]
  | some handler =>
      by_cases harg : req.arg = []
      · simp [harg, failure_clean, valid_text]
      · simp only [if_neg harg, changeResponse_clean]

theorem runResponse_clean :
    (api.runResponse req).Clean ↔ ∀ s ∈ api.quotesRun req, Utf8.Valid s := by
  unfold runResponse quotesRun
  cases api.runHandler with
  | none => simp [failure_clean, valid_text]
  | some handler =>
      by_cases harg : req.arg = []
      · simp [harg, failure_clean, valid_text]
      · simp only [if_neg harg]
        split_ifs
        · simp [object_clean, CleanFields, valid_text]
        · simp [object_clean, CleanFields, valid_text]

/-- One test of the dispatch on the command. -/
theorem clean_ite {c : Prop} [Decidable c] {a b : Json V} {p q : List Bytes}
    (ha : a.Clean ↔ ∀ s ∈ p, Utf8.Valid s) (hb : b.Clean ↔ ∀ s ∈ q, Utf8.Valid s) :
    (if c then a else b).Clean ↔ ∀ s ∈ if c then p else q, Utf8.Valid s := by
  by_cases hc : c
  · rw [if_pos hc, if_pos hc, ha]
  · rw [if_neg hc, if_neg hc, hb]

/-- Only the quoted strings can spoil an answer. -/
theorem respond_clean :
    (api.respond lib line).Clean ↔ ∀ s ∈ api.quotes lib line, Utf8.Valid s := by
  unfold respond quotes
  apply clean_ite
  · simp [object_clean, CleanFields, valid_text]
  apply clean_ite
  · exact statusResponse_clean
  apply clean_ite
  · rw [← jobsArray_clean (V := V)]
    simp [object_clean, CleanFields, valid_text]
  apply clean_ite
  · rw [← alertsArray_clean]
    simp [object_clean, CleanFields, valid_text]
  apply clean_ite
  · exact historyResponse_clean
  apply clean_ite
  · exact runsResponse_clean
  apply clean_ite
  · exact addJobResponse_clean
  apply clean_ite
  · exact removeJobResponse_clean
  apply clean_ite
  · exact runResponse_clean
  · simp [object_clean, CleanFields, valid_text]

end Quotes

section Ok

/-- An object with a boolean field `ok`. -/
def HasOk (j : Json V) : Prop := ∃ fields ok, j = .obj fields ∧ (text "ok", .bool ok) ∈ fields

theorem object_hasOk {fields : List (Bytes × Json V)} {ok : Bool}
    (h : (text "ok", .bool ok) ∈ fields) : HasOk (.object fields) :=
  ⟨_, ok, rfl, (List.mem_insertionSort _).mpr h⟩

theorem failure_hasOk {error : Bytes} : HasOk (failure error : Json V) :=
  object_hasOk List.mem_cons_self

theorem historyResponse_hasOk : HasOk (api.historyResponse req) := by
  unfold historyResponse
  split
  · exact failure_hasOk
  · split_ifs
    · exact failure_hasOk
    · split
      · exact failure_hasOk
      · exact object_hasOk List.mem_cons_self

theorem runsResponse_hasOk : HasOk (api.runsResponse req) := by
  unfold runsResponse
  split
  · exact failure_hasOk
  · split_ifs
    · exact failure_hasOk
    · split
      · exact failure_hasOk
      · exact object_hasOk List.mem_cons_self

theorem changeResponse_hasOk {cmd : String} {job error : Bytes} :
    HasOk (changeResponse cmd job error : Json V) := by
  unfold changeResponse
  split_ifs
  · exact failure_hasOk
  · exact object_hasOk List.mem_cons_self

theorem addJobResponse_hasOk : HasOk (api.addJobResponse lib line) := by
  unfold addJobResponse
  split
  · exact failure_hasOk
  · split
    · split
      · exact failure_hasOk
      · exact changeResponse_hasOk
    · exact failure_hasOk

theorem removeJobResponse_hasOk : HasOk (api.removeJobResponse req) := by
  unfold removeJobResponse
  split
  · exact failure_hasOk
  · split_ifs
    · exact failure_hasOk
    · exact changeResponse_hasOk

theorem runResponse_hasOk : HasOk (api.runResponse req) := by
  unfold runResponse
  split
  · exact failure_hasOk
  · split_ifs
    · exact failure_hasOk
    · exact object_hasOk List.mem_cons_self
    · exact object_hasOk List.mem_cons_self

theorem hasOk_ite {c : Prop} [Decidable c] {a b : Json V} (ha : HasOk a) (hb : HasOk b) :
    HasOk (if c then a else b) := by
  by_cases hc : c
  · rwa [if_pos hc]
  · rwa [if_neg hc]

theorem respond_hasOk : HasOk (api.respond lib line) := by
  unfold respond
  apply hasOk_ite (object_hasOk List.mem_cons_self)
  apply hasOk_ite (object_hasOk List.mem_cons_self)
  apply hasOk_ite (object_hasOk List.mem_cons_self)
  apply hasOk_ite (object_hasOk List.mem_cons_self)
  apply hasOk_ite historyResponse_hasOk
  apply hasOk_ite runsResponse_hasOk
  apply hasOk_ite addJobResponse_hasOk
  apply hasOk_ite removeJobResponse_hasOk
  apply hasOk_ite runResponse_hasOk
  exact object_hasOk List.mem_cons_self

end Ok

/-- A call returned one line that is a JSON object with a boolean `ok`. -/
def Answered (lib : JsonLibrary V) (r : Except JsonError Bytes) : Prop :=
  ∃ out j, r = .ok out ∧ lib.dump j = .ok out ∧ HasOk j ∧ (10 : UInt8) ∉ out

/-- A line is answered exactly if the strings its answer quotes are well formed. -/
theorem handle_answered_iff (hlib : lib.Documented) :
    Answered lib (api.handle lib line) ↔ ∀ s ∈ api.quotes lib line, Utf8.Valid s := by
  have hdumps := hlib.dumps (api.respond lib line)
  rw [← respond_clean]
  constructor
  · rintro ⟨out, j, hout, -, -, -⟩
    by_contra hclean
    have herror : api.handle lib line = .error .invalidUtf8 := hdumps.2 hclean
    rw [herror] at hout
    cases hout
  · intro hclean
    obtain ⟨out, hout, hline⟩ := hdumps.1 hclean
    exact ⟨out, _, hout, hout, respond_hasOk, hline⟩

/-- A library without the parser, which is enough for bare words. -/
def bareLibrary : JsonLibrary ℤ := ⟨fun _ => none, id, Json.dump intText⟩

theorem bareLibrary_documented : bareLibrary.Documented :=
  ⟨Json.dump_dumps Json.newline_not_mem_intText⟩

/-- An API that has not sampled anything yet, without a database and handlers. -/
def freshApi : Api ℤ where
  startedAt := 0
  now := 0
  cpu := { valid := false, percent := 0, sampledAt := 0 }
  self := { rssBytes := 0, cpuPercent := 0 }
  system := {
    valid := false
    sampledAt := 0
    memTotalBytes := 0
    memUsedBytes := 0
    memUsedPercent := 0
    diskTotalBytes := 0
    diskAvailableBytes := 0
    diskUsedPercent := 0
    thermalState := []
    topProcesses := [] }
  jobs := []
  alerts := []
  db := none
  runHandler := none
  addJobHandler := none
  removeJobHandler := none

theorem handle_answered_iff_unknown :
    Answered bareLibrary (freshApi.handle bareLibrary (text "hello")) :=
  (handle_answered_iff bareLibrary_documented).mpr (by decide +kernel)

/-- The unknown command of one byte `0xff` is quoted and not answered. -/
theorem unknown_command_unanswered :
    freshApi.handle bareLibrary [0xff] = .error .invalidUtf8 ∧
      ¬ Answered bareLibrary (freshApi.handle bareLibrary [0xff]) := by
  have herror : freshApi.handle bareLibrary [0xff] = .error .invalidUtf8 := by
    decide +kernel
  refine ⟨herror, ?_⟩
  rw [herror]
  rintro ⟨out, _, hout, -⟩
  cases hout

end Api
end AgentPulse
