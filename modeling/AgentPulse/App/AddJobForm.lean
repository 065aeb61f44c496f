import AgentPulse.App.StatusPolls
import AgentPulse.Ipc.AddJob
import AgentPulse.Ipc.SocketServer
import AgentPulse.Jobs.Restart

/-!
# A job added from the form of the app

What is typed into the form goes through `StatusStore.addJob`, a JSON text, the
socket, the parser of the daemon and `Scheduler::add_job` into the table of
client-defined jobs, and the answer comes back to the form. The job that arrives
is the one that was typed, and a restarted daemon has it.

## Implementation notes

A `String` of the app is a list of Unicode scalars. `JSONSerialization` and the
parser of the daemon are parameters, and what is asked of them is that the
dictionary of the form comes back. A serialiser that escapes the slash and keeps
no order of the fields is one that does.
-/

namespace AgentPulse

open SocketServer

/-- The texts of the form and its choice of a policy. -/
structure AddJobForm where
  name : List Char := []
  command : List Char := []
  schedule : List Char := []
  timeout : List Char := []
  retries : List Char := []
  missedPolicy : Bytes := text "none"

namespace AddJobForm

variable {V : Type}

section Texts

/-- `CharacterSet.whitespaces`: the space separators and the tab. -/
def isWhitespace (c : Char) : Bool :=
  c.toNat ∈ [0x9, 0x20, 0xa0, 0x1680, 0x202f, 0x205f, 0x3000] ||
    (0x2000 ≤ c.toNat && c.toNat ≤ 0x200a)

/-- `trimmingCharacters(in: .whitespaces)`. -/
def trimmed (s : List Char) : List Char :=
  ((s.dropWhile isWhitespace).reverse.dropWhile isWhitespace).reverse

/-- The bytes of a text. -/
def utf8 (s : List Char) : Bytes := s.flatMap String.utf8EncodeChar

/-- `Int(_:)`: an optional sign and digits, in the range of 64 bits. -/
def int (s : List Char) : Option Int :=
  let digits := if s.head? = some '-' ∨ s.head? = some '+' then s.tail else s
  let magnitude := numeralValue (utf8 digits)
  let value := if s.head? = some '-' then -magnitude else magnitude
  if IsNumeral (utf8 digits) ∧ -2 ^ 63 ≤ value ∧ value < 2 ^ 63 then some value else none

end Texts

/-- The choices of the picker. -/
def policies : List Bytes := [text "none", text "run_on_wake", text "run_now"]

/-- The button is enabled. -/
def canAdd (form : AddJobForm) : Prop := trimmed form.name ≠ [] ∧ trimmed form.command ≠ []

/-- A value of the dictionary. -/
inductive Value where
  | string (s : Bytes)
  | int (i : Int)

/-- The dictionary of `StatusStore.addJob`, called by `add`. -/
def body (form : AddJobForm) : List (Bytes × Value) :=
  [(text "cmd", .string (text "add_job")),
    (text "name", .string (utf8 (trimmed form.name))),
    (text "command", .string (utf8 (trimmed form.command))),
    (text "timeout_seconds", .int ((int form.timeout).getD 0)),
    (text "retries", .int ((int form.retries).getD 0)),
    (text "missed_run_policy", .string form.missedPolicy)] ++
  if trimmed form.schedule = [] then []
  else [(text "schedule", .string (utf8 (trimmed form.schedule)))]

section Serialization

/-- One byte of a string as `JSONSerialization` writes it. -/
def escape (b : UInt8) : Bytes := if b = 47 then [92, 47] else Json.escapeByte b

def quoted (s : Bytes) : Bytes := 34 :: (s.flatMap escape ++ [34])

def Value.write : Value → Bytes
  | .string s => quoted s
  | .int i => intText i

def writeField (field : Bytes × Value) : Bytes := quoted field.1 ++ 58 :: field.2.write

/-- The texts `JSONSerialization.data` may write for a dictionary. -/
def Serialized (body : List (Bytes × Value)) (line : Bytes) : Prop :=
  ∃ fields : List (Bytes × Value), fields.Perm body ∧
    line = 123 :: ([44].intercalate (fields.map writeField) ++ [125])

end Serialization

/-- What `sendCommand` makes of the answer: the error the form shows, if any.
`read` is `JSONSerialization.jsonObject`. -/
def actionError (read : Bytes → Option (Json V)) (describe : Bytes → Bytes) (resp : Bytes) :
    Option Bytes :=
  match read resp with
  | none => some (describe resp)
  | some answer =>
      match answer.get? (text "ok") with
      | some (.bool true) => none
      | _ =>
          match answer.get? (text "error") with
          | some (.str error) => some error
          | _ => some (text "request failed")

/-- The fields of the job that was typed. -/
def fields (form : AddJobForm) : JobFields where
  name := utf8 (trimmed form.name)
  command := utf8 (trimmed form.command)
  schedule := if trimmed form.schedule = [] then none else some (utf8 (trimmed form.schedule))
  missedRunPolicy := some form.missedPolicy
  timeoutSeconds := some ((int form.timeout).getD 0)
  retries := some ((int form.retries).getD 0)

/-- The error the daemon answers with, if any. -/
def outcome (form : AddJobForm) (jobs : List Job) (dbError : Option Bytes) : Option Bytes :=
  let job := form.fields.job
  if job.scheduleExpr ≠ [] ∧ CronSchedule.parse job.scheduleExpr = none then
    some (text "invalid cron schedule: '" ++ job.scheduleExpr ++ text "'")
  else if findJob jobs job.name ≠ none then
    some (text "a job named '" ++ job.name ++ text "' already exists")
  else dbError.map (text "could not persist job: " ++ ·)

/-- What the command makes of the scheduler: `addJobResponse` calls `add_job`. -/
def changed (lib : JsonLibrary V) (loc : LocalTime) (now : Int) (dbError : Option Bytes)
    (line : Bytes) (s : JobSet) : JobSet :=
  match lib.parse line with
  | some (.obj fields) =>
      match Api.readJob lib (.obj fields) with
      | .ok job => (s.addJob loc now job dbError).1
      | .error _ => s
  | _ => s

section Reading

variable {double : Bytes → Option V}

def Value.json : Value → Json V
  | .string s => .str s
  | .int i => .int i

/-- The dictionary of the form is written on one line, and the daemon parses it
as the object with its fields. -/
structure RoundTrips (lib : JsonLibrary V) (serialized : List (Bytes × Value) → Bytes → Prop)
    (form : AddJobForm) : Prop where
  line : ∀ line, serialized form.body line → (10 : UInt8) ∉ line
  parse : ∀ line, serialized form.body line →
    lib.parse line = some (.object (form.body.map fun field => (field.1, field.2.json)))

/-- The strings of a dictionary are well formed. -/
def Clean (fields : List (Bytes × Value)) : Prop :=
  ∀ field ∈ fields, Utf8.Valid field.1 ∧ ∀ s, field.2 = .string s → Utf8.Valid s

theorem readsBack_escape : Json.ReadsBack escape := by
  intro b rest
  rw [escape]
  split_ifs with hslash
  · refine ⟨.byte b, ?_, fun parts => rfl⟩
    exact Json.readParts_unescape rest (by decide) (by rw [hslash]; rfl)
  · exact Json.readsBack_escapeByte b rest

/-- A value is read back before a separator or a closing brace. -/
theorem readValue_write {value : Value} {rest : Bytes} {fuel : ℕ}
    (hclean : ∀ s, value = .string s → Utf8.Valid s) (hrest : Json.Ends rest) :
    Json.readValue double (fuel + 1) (value.write ++ rest) = some (value.json, rest) := by
  cases value with
  | string s =>
      rw [Value.write, quoted, List.cons_append, List.append_assoc, List.singleton_append,
        Json.readValue_string, Json.readString_escaped readsBack_escape (hclean s rfl)]
      rfl
  | int i =>
      obtain ⟨hread, hne, hbytes⟩ := Json.readInteger_intText i
      rw [Value.write, Json.readValue_number hne hbytes hrest, Json.readNumber, hread]
      rfl

/-- The dictionary is read back up to its closing brace. -/
theorem readFields_write {fields : List (Bytes × Value)} (hne : fields ≠ [])
    (hclean : Clean fields) {fuel : ℕ} (hfuel : fields.length < fuel) :
    Json.readFields double fuel ([44].intercalate (fields.map writeField) ++ [125]) =
      some (fields.map fun field => (field.1, field.2.json), []) := by
  induction fields generalizing fuel with
  | nil => exact absurd rfl hne
  | cons field fields ih =>
      obtain ⟨key, value⟩ := field
      obtain ⟨hkey, hvalue⟩ := hclean _ List.mem_cons_self
      obtain ⟨fuel, rfl⟩ := Nat.exists_eq_add_one_of_ne_zero (Nat.ne_zero_of_lt hfuel)
      obtain ⟨fuel, rfl⟩ : ∃ k, fuel = k + 1 := by
        rw [List.length_cons] at hfuel
        exact ⟨fuel - 1, by omega⟩
      by_cases hfields : fields = []
      · subst hfields
        have hstart : [44].intercalate ([(key, value)].map writeField) ++ [125] =
            34 :: (key.flatMap escape ++ 34 :: 58 :: (value.write ++ [125])) := by
          rw [List.map_singleton, Json.intercalate_singleton]
          simp [writeField, quoted]
        have hends : Json.Ends [125] := Json.ends_cons (by decide)
        rw [hstart]
        exact Json.readFields_last (Json.readKey readsBack_escape hkey)
          (readValue_write hvalue hends)
      · have hstart : [44].intercalate (((key, value) :: fields).map writeField) ++ [125] =
            34 :: (key.flatMap escape ++ 34 :: 58 ::
              (value.write ++ 44 :: ([44].intercalate (fields.map writeField) ++ [125]))) := by
          obtain ⟨next, more, rfl⟩ := List.exists_cons_of_ne_nil hfields
          rw [List.map_cons, List.map_cons, List.intercalate_cons_cons]
          simp [writeField, quoted]
        have hlength : fields.length < fuel + 1 := by
          rw [List.length_cons] at hfuel
          omega
        have hrest := ih hfields (fun f hf => hclean f (List.mem_cons_of_mem _ hf)) hlength
        have hends : ∀ rest, Json.Ends (44 :: rest) := fun rest => Json.ends_cons (by decide)
        rw [hstart]
        exact Json.readFields_more (Json.readKey readsBack_escape hkey)
          (readValue_write hvalue (hends _)) hrest

theorem length_le_intercalate (fields : List (Bytes × Value)) :
    fields.length ≤ ([44].intercalate (fields.map writeField)).length := by
  induction fields with
  | nil => exact Nat.zero_le _
  | cons field fields ih =>
      by_cases hfields : fields = []
      · subst hfields
        rw [List.map_singleton, Json.intercalate_singleton]
        simp [writeField, quoted]
      · obtain ⟨next, more, rfl⟩ := List.exists_cons_of_ne_nil hfields
        rw [List.map_cons, List.map_cons, List.intercalate_cons_cons]
        rw [List.map_cons] at ih
        simp only [List.length_append, List.length_cons] at ih ⊢
        omega

/-- The text of a dictionary is parsed as the object with its fields. -/
theorem parse_serialized {body : List (Bytes × Value)} {line : Bytes} (hne : body ≠ [])
    (hclean : Clean body) (hkeys : (body.map Prod.fst).Nodup) (h : Serialized body line) :
    Json.parse double line = some (.object (body.map fun field => (field.1, field.2.json))) := by
  obtain ⟨fields, hperm, rfl⟩ := h
  have hfields : fields ≠ [] := by
    rintro rfl
    exact hne hperm.nil_eq.symm
  obtain ⟨field, more, hcons⟩ := List.exists_cons_of_ne_nil hfields
  have hstart : ∃ tail, [44].intercalate (fields.map writeField) = 34 :: tail := by
    rw [hcons, List.map_cons]
    exact Json.intercalate_cons_starts _ rfl
  obtain ⟨tail, htail⟩ := hstart
  have hexpect : Json.expect 125 ([44].intercalate (fields.map writeField) ++ [125]) = none := by
    rw [htail, List.cons_append, Json.expect_cons (by decide), if_neg (by decide)]
  have hlength : fields.length ≤ ([44].intercalate (fields.map writeField)).length :=
    length_le_intercalate fields
  have hread : Json.read double (123 :: ([44].intercalate (fields.map writeField) ++ [125])) =
      some (.obj (fields.map fun field => (field.1, field.2.json))) := by
    rw [Json.read, Json.readValue_object hexpect, readFields_write hfields
      (fun f hf => hclean f (hperm.mem_iff.mp hf))
      (by rw [List.length_cons, List.length_append]; omega)]
    rfl
  have hflat : ∀ l : List (Bytes × Value),
      Json.storedFields (l.map fun field => (field.1, (field.2.json : Json V))) =
        l.map fun field => (field.1, field.2.json) := by
    intro l
    induction l with
    | nil => rfl
    | cons f l ih =>
        obtain ⟨key, value⟩ := f
        rw [List.map_cons, Json.storedFields, ih]
        cases value <;> rfl
  have hmap : ∀ l : List (Bytes × Value),
      (l.map fun field => (field.1, (field.2.json : Json V))).map Prod.fst = l.map Prod.fst :=
    fun l => by rw [List.map_map]; rfl
  have hkeys' : ((fields.map fun field => (field.1, (field.2.json : Json V))).map
      Prod.fst).Nodup := by
    rw [hmap]
    exact (hperm.map Prod.fst).nodup_iff.mpr hkeys
  rw [Json.parse, hread, Option.map_some, Json.stored, hflat, Json.lastFields_of_nodup hkeys',
    Json.object_perm (hperm.map _) hkeys']

end Reading

section Sending

variable {double : Bytes → Option V} {form : AddJobForm} {line : Bytes}

theorem valid_utf8 (s : List Char) : Utf8.Valid (utf8 s) := Utf8.valid_flatMap_utf8EncodeChar s

theorem body_clean (hpolicy : form.missedPolicy ∈ policies) : Clean form.body := by
  have hvalid : Utf8.Valid form.missedPolicy := by
    simp only [policies, List.mem_cons, List.not_mem_nil, or_false] at hpolicy
    obtain h | h | h := hpolicy <;> rw [h] <;> exact Json.valid_text _
  intro field hfield
  rw [body, List.mem_append] at hfield
  obtain hfield | hfield := hfield
  · simp only [List.mem_cons, List.not_mem_nil, or_false] at hfield
    obtain rfl | rfl | rfl | rfl | rfl | rfl := hfield <;>
      refine ⟨Json.valid_text _, fun s hs => ?_⟩ <;> cases hs
    · exact Json.valid_text _
    · exact valid_utf8 _
    · exact valid_utf8 _
    · exact hvalid
  · split_ifs at hfield with hblank
    · cases hfield
    · obtain rfl := List.mem_singleton.mp hfield
      refine ⟨Json.valid_text _, fun s hs => ?_⟩
      cases hs
      exact valid_utf8 _

theorem body_keys : (form.body.map Prod.fst).Nodup := by
  rw [body, List.map_append]
  split_ifs
  · rw [List.map_nil, List.append_nil]
    simp only [List.map_cons, List.map_nil]
    decide
  · simp only [List.map_cons, List.map_nil, List.cons_append, List.nil_append]
    decide

/-- The dictionary is the body of the command for the fields that were typed. -/
theorem object_body : Json.object (form.body.map fun field => (field.1, field.2.json)) =
    (form.fields.toJson : Json V) := by
  have hkeys : ((form.body.map fun field => (field.1, (field.2.json : Json V))).map
      Prod.fst).Nodup := by
    rw [List.map_map]
    exact body_keys
  rw [JobFields.toJson]
  refine Json.object_perm ?_ hkeys
  by_cases hblank : trimmed form.schedule = []
  · simp only [body, if_pos hblank, JobFields.entries, JobFields.slots, fields, Option.map_none,
      Option.map_some, List.append_nil, List.map_cons, List.map_nil]
    refine .cons _ (.cons _ (.cons _ ?_))
    exact (List.perm_append_comm : List.Perm ([_, _] ++ [_]) ([_] ++ [_, _]))
  · simp only [body, if_neg hblank, JobFields.entries, JobFields.slots, fields, Option.map_some,
      List.map_cons, List.map_nil, List.cons_append, List.nil_append]
    refine .cons _ (.cons _ (.cons _ ?_))
    refine List.Perm.trans (List.perm_append_comm : List.Perm ([_, _, _] ++ [_]) ([_] ++ [_, _, _]))
      (.cons _ ?_)
    exact (List.perm_append_comm : List.Perm ([_, _] ++ [_]) ([_] ++ [_, _]))

theorem newline_not_mem_serialized (h : Serialized form.body line) : (10 : UInt8) ∉ line := by
  obtain ⟨order, -, rfl⟩ := h
  have hescape : ∀ b, (10 : UInt8) ∉ escape b := by
    intro b
    rw [escape]
    split_ifs
    · decide
    · exact Json.newline_not_mem_escapeByte b
  have hquoted : ∀ s, (10 : UInt8) ∉ quoted s := by
    intro s
    simp only [quoted, List.mem_cons, List.mem_append, List.mem_flatMap]
    rintro (h | ⟨b, -, h⟩ | h | h)
    · revert h
      decide
    · exact hescape b h
    · revert h
      decide
    · cases h
  have hwrite : ∀ value : Value, (10 : UInt8) ∉ value.write := by
    intro value
    cases value with
    | string s => exact hquoted s
    | int i => exact Json.newline_not_mem_intText i
  have hparts : (10 : UInt8) ∉ [44].intercalate (order.map writeField) := by
    apply Json.newline_not_mem_intercalate
    intro part hpart
    obtain ⟨field, -, rfl⟩ := List.mem_map.mp hpart
    rw [writeField, List.mem_append, List.mem_cons]
    rintro (h | h | h)
    · exact hquoted _ h
    · revert h
      decide
    · exact hwrite _ h
  simp only [List.mem_cons, List.mem_append, List.not_mem_nil, or_false]
  rintro (h | h | h)
  · revert h
    decide
  · exact hparts h
  · revert h
    decide

/-- Such a serialiser and such a parser agree on a form whose policy was picked. -/
theorem roundTrips_serialized {lib : JsonLibrary V} (hlib : lib.parse = Json.parse double)
    (hpolicy : form.missedPolicy ∈ policies) : RoundTrips lib Serialized form where
  line _ h := newline_not_mem_serialized h
  parse _ h := by
    rw [hlib]
    exact parse_serialized (by simp [body]) (body_clean hpolicy) body_keys h

/-- The daemon parses the request line as the body of the command. -/
theorem RoundTrips.parse_line {lib : JsonLibrary V}
    {serialized : List (Bytes × Value) → Bytes → Prop} (h : RoundTrips lib serialized form)
    (hline : serialized form.body line) : lib.parse line = some form.fields.toJson :=
  (h.parse line hline).trans (congrArg some object_body)

end Sending

section Answers

variable {read : Bytes → Option (Json V)} {finite : V → Bool} {describe : Bytes → Bytes}
  {lib : JsonLibrary V} {form : AddJobForm} {line out : Bytes} {loc : LocalTime} {now : Int}
  {s : JobSet} {dbError : Option Bytes}

/-- The form shows the error of a failed command. -/
theorem actionError_failure (hread : Models.ReadsDump read lib finite) {error : Bytes}
    (hout : lib.dump (failure error) = .ok out) :
    actionError read describe out = some error := by
  have hkeys : [text "ok", text "error"].Nodup := by decide
  have hsent : Json.sent finite (failure error : Json V) = failure error := rfl
  have hget : ∀ key, (failure error : Json V).get? key = _ := Json.get?_object (by exact hkeys)
  have herror : text "ok" ≠ text "error" := by decide
  rw [actionError, hread _ out hout, hsent]
  simp [hget, herror]

/-- The form shows no error after a change. -/
theorem actionError_change (hread : Models.ReadsDump read lib finite) {job : Bytes}
    (hout : lib.dump (Api.changeResponse "add_job" job []) = .ok out) :
    actionError read describe out = none := by
  have hkeys : [text "ok", text "cmd", text "job"].Nodup := by decide
  have hchange : (Api.changeResponse "add_job" job [] : Json V) =
      .object [(text "ok", .bool true), (text "cmd", .lit "add_job"), (text "job", .str job)] := rfl
  have hget : ∀ key, (Json.object [(text "ok", .bool true), (text "cmd", .lit "add_job"),
      (text "job", .str job)] : Json V).get? key = _ := Json.get?_object (by exact hkeys)
  rw [hchange] at hout
  rw [actionError, hread _ out hout]
  have hsent : Json.sent finite (Json.object [(text "ok", .bool true), (text "cmd", .lit "add_job"),
      (text "job", .str job)] : Json V) = .object [(text "ok", .bool true),
        (text "cmd", .lit "add_job"), (text "job", .str job)] := rfl
  rw [hsent]
  simp [hget]

/-- A text that is not blank is not empty. -/
theorem utf8_ne_nil {s : List Char} (h : s ≠ []) : utf8 s ≠ [] := by
  obtain ⟨c, s, rfl⟩ := List.exists_cons_of_ne_nil h
  rw [utf8, List.flatMap_cons]
  exact List.append_ne_nil_of_left_ne_nil (String.utf8EncodeChar_ne_nil) _

/-- The command reads the job that was typed, unless it cannot parse its schedule. -/
theorem readJob_fields (hadd : form.canAdd) :
    Api.readJob lib form.fields.toJson =
      if form.fields.job.scheduleExpr ≠ [] ∧
        CronSchedule.parse form.fields.job.scheduleExpr = none then
        .error (text "invalid cron schedule: '" ++ form.fields.job.scheduleExpr ++ text "'")
      else .ok form.fields.job := by
  have hname : form.fields.name ≠ [] := utf8_ne_nil hadd.1
  have hcommand : form.fields.command ≠ [] := utf8_ne_nil hadd.2
  by_cases hbad : form.fields.job.scheduleExpr ≠ [] ∧
      CronSchedule.parse form.fields.job.scheduleExpr = none
  · obtain ⟨hne, hnone⟩ := hbad
    have hrequired : ¬ (form.fields.job.name = [] ∨ form.fields.job.command = []) :=
      not_or.mpr ⟨hname, hcommand⟩
    rw [if_pos ⟨hne, hnone⟩, Api.readJob, JobFields.bodyJob_toJson]
    simp only [if_neg hrequired, if_neg hne, hnone]
  · rw [if_neg hbad]
    refine JobFields.readJob_toJson.mpr ⟨⟨hname, hcommand, fun expr hexpr hne => ?_⟩, rfl⟩
    have hschedule : form.fields.job.scheduleExpr = expr := by
      rw [JobFields.job, hexpr]
      rfl
    rw [hschedule] at hbad
    exact Option.isSome_iff_ne_none.mpr fun hnone => hbad ⟨hne, hnone⟩

theorem changed_error {error : Bytes} (hline : lib.parse line = some form.fields.toJson)
    (hread : Api.readJob lib form.fields.toJson = .error error) :
    changed lib loc now dbError line s = s := by
  rw [changed, hline]
  unfold JobFields.toJson Json.object at hread ⊢
  simp only [hread]

theorem changed_ok {job : Job} (hline : lib.parse line = some form.fields.toJson)
    (hread : Api.readJob lib form.fields.toJson = .ok job) :
    changed lib loc now dbError line s = (s.addJob loc now job dbError).1 := by
  rw [changed, hline]
  unfold JobFields.toJson Json.object at hread ⊢
  simp only [hread]

theorem changeResponse_error {cmd : String} {job error : Bytes} (h : error ≠ []) :
    (Api.changeResponse cmd job error : Json V) = failure error := if_pos h

variable {api : Api V}

/-- Of a job that was typed only the name can be wrong. -/
theorem addJobCheck_typed (hadd : form.canAdd) (jobs : List Job) :
    JobSet.addJobCheck jobs form.fields.job =
      if findJob jobs form.fields.job.name ≠ none then
        some (text "a job named '" ++ form.fields.job.name ++ text "' already exists")
      else none := by
  have hname : ¬ form.fields.job.name = [] := utf8_ne_nil hadd.1
  have hcommand : ¬ form.fields.job.command = [] := utf8_ne_nil hadd.2
  rw [JobSet.addJobCheck, if_neg hname, if_neg hcommand]

/-- The answer of the command and what it does to the scheduler. -/
theorem respond_outcome (hadd : form.canAdd) (hline : lib.parse line = some form.fields.toJson)
    (hhandler : api.addJobHandler = some fun job => (s.addJob loc now job dbError).2) :
    (∀ error, form.outcome s.jobs dbError = some error →
      api.respond lib line = failure error ∧ changed lib loc now dbError line s = s) ∧
    (form.outcome s.jobs dbError = none →
      api.respond lib line = Api.changeResponse "add_job" form.fields.name [] ∧
      findJob s.jobs form.fields.name = none ∧
      changed lib loc now dbError line s = (s.addJob loc now form.fields.job none).1) := by
  have hread : Api.readJob lib form.fields.toJson = _ := readJob_fields hadd
  rw [JobFields.respond_toJson hline, outcome]
  by_cases hbad : form.fields.job.scheduleExpr ≠ [] ∧
      CronSchedule.parse form.fields.job.scheduleExpr = none
  · rw [if_pos hbad] at hread
    simp only [if_pos hbad]
    refine ⟨fun error herror => ?_, fun hnone => (Option.some_ne_none _ hnone).elim⟩
    obtain rfl := Option.some.inj herror
    exact ⟨JobFields.addJobResponse_error hhandler hline hread, changed_error hline hread⟩
  · rw [if_neg hbad] at hread
    simp only [if_neg hbad]
    have hcheck := addJobCheck_typed hadd s.jobs
    rw [JobFields.addJobResponse_ok hhandler hline hread, changed_ok hline hread]
    by_cases htaken : findJob s.jobs form.fields.job.name ≠ none
    · rw [if_pos htaken] at hcheck
      simp only [if_pos htaken, JobSet.addJob, hcheck]
      refine ⟨fun error herror => ?_, fun hnone => (Option.some_ne_none _ hnone).elim⟩
      obtain rfl := Option.some.inj herror
      exact ⟨changeResponse_error (by simp [text]), trivial⟩
    · rw [if_neg htaken] at hcheck
      simp only [if_neg htaken]
      cases dbError with
      | some what =>
          simp only [JobSet.addJob, hcheck]
          refine ⟨fun error herror => ?_, fun hnone => (Option.some_ne_none _ hnone).elim⟩
          obtain rfl := Option.some.inj herror
          exact ⟨changeResponse_error (by simp [text]), trivial⟩
      | none =>
          refine ⟨fun error herror => (Option.some_ne_none _ herror.symm).elim, fun _ =>
            ⟨?_, not_not.mp htaken, rfl⟩⟩
          simp only [JobSet.addJob, hcheck]
          rfl

/-- The errors quote what was typed, and the database's text. -/
theorem outcome_valid (hdb : ∀ what ∈ dbError, Utf8.Valid what) {jobs : List Job} {error : Bytes}
    (h : form.outcome jobs dbError = some error) : Utf8.Valid error := by
  have hexpr : Utf8.Valid form.fields.job.scheduleExpr := by
    simp only [JobFields.job, fields]
    split_ifs
    · exact Utf8.valid_nil
    · exact valid_utf8 _
  have hname : Utf8.Valid form.fields.job.name := valid_utf8 _
  rw [outcome] at h
  split_ifs at h
  · rw [← Option.some.inj h]
    exact ((Json.valid_text _).append hexpr).append (Json.valid_text _)
  · rw [← Option.some.inj h]
    exact ((Json.valid_text _).append hname).append (Json.valid_text _)
  · obtain ⟨what, hwhat, rfl⟩ := Option.map_eq_some_iff.mp h
    exact (Json.valid_text _).append (hdb what hwhat)

/-- What was typed has no NUL byte. -/
structure Plain (form : AddJobForm) : Prop where
  name : (0 : UInt8) ∉ form.fields.job.name
  command : (0 : UInt8) ∉ form.fields.job.command
  schedule : (0 : UInt8) ∉ form.fields.job.scheduleExpr

theorem builtByCommand (h : form.Plain) : JobSet.BuiltByCommand form.fields.job := by
  refine ⟨?_, h.name, h.command, h.schedule⟩
  by_cases hblank : trimmed form.schedule = []
  · simp [JobFields.job, fields, scheduleOf, hblank]
  · simp [JobFields.job, fields, scheduleOf, hblank, utf8_ne_nil hblank]

/-- The line of the answer is one that the form reads as the outcome. -/
theorem handle_outcome (describe : Bytes → Bytes)
    (hlib : lib.Documented) (hread : Models.ReadsDump read lib finite) (hadd : form.canAdd)
    (hline : lib.parse line = some form.fields.toJson)
    (hdb : ∀ what ∈ dbError, Utf8.Valid what)
    (hhandler : api.addJobHandler = some fun job => (s.addJob loc now job dbError).2) :
    ∃ out, api.handle lib line = .ok out ∧ 10 ∉ out ∧
      actionError read describe out = form.outcome s.jobs dbError := by
  obtain ⟨herror, hok⟩ := respond_outcome hadd hline hhandler
  have hclean : (api.respond lib line).Clean ∧ ∀ out,
      lib.dump (api.respond lib line) = .ok out →
        actionError read describe out = form.outcome s.jobs dbError := by
    cases houtcome : form.outcome s.jobs dbError with
    | some error =>
        rw [(herror error houtcome).1]
        exact ⟨failure_clean.mpr (outcome_valid hdb houtcome), fun out hout =>
          actionError_failure hread hout⟩
    | none =>
        rw [(hok houtcome).1]
        refine ⟨Api.changeResponse_clean.mpr fun quote hquote => ?_, fun out hout =>
          actionError_change hread hout⟩
        rw [Api.quotesChange, if_neg (not_not.mpr rfl), List.mem_singleton] at hquote
        rw [hquote]
        exact valid_utf8 _
  obtain ⟨out, hout, hnewline⟩ := (hlib.dumps (api.respond lib line)).1 hclean.1
  exact ⟨out, hout, hnewline, hclean.2 out hout⟩

/-- A typed job under a free name is added, and it is there after a restart. -/
theorem addJob_typed (hadd : form.canAdd) (hfree : findJob s.jobs form.fields.name = none) :
    (s.addJob loc now form.fields.job none).1.jobs =
      s.jobs ++ [JobSet.storedJob form.fields.job] := by
  have hcheck : JobSet.addJobCheck s.jobs form.fields.job = none := by
    rw [addJobCheck_typed hadd]
    exact if_neg (not_not.mpr hfree)
  simp only [JobSet.addJob, hcheck, JobSet.addJobUpdate]

theorem findJob_restarted {config : List Job} (hc : (config.map Job.name).Nodup)
    (hlive : JobSet.Agrees config s) (hplain : form.Plain) (hadd : form.canAdd)
    (hfree : findJob s.jobs form.fields.name = none) (lastRun' : Bytes → Option RunRecord)
    (now' : Int) :
    findJob (JobSet.construct loc config (s.addJob loc now form.fields.job none).1.table lastRun'
      now').jobs form.fields.name = some (JobSet.storedJob form.fields.job) := by
  have hafter : JobSet.Agrees config (s.addJob loc now form.fields.job none).1 :=
    JobSet.agrees_add hlive (builtByCommand hplain)
  have hrestart : JobSet.Agrees config (JobSet.construct loc config
      (s.addJob loc now form.fields.job none).1.table lastRun' now') :=
    JobSet.agrees_construct _ lastRun' now'
  have hmem : JobSet.storedJob form.fields.job ∈
      (s.addJob loc now form.fields.job none).1.jobs := by
    rw [addJob_typed hadd hfree]
    exact List.mem_append_right _ List.mem_cons_self
  exact (findJob_eq_some_iff (hrestart.nodup hc)).mpr
    ⟨(hafter.trans hrestart.symm).mem_iff.mp hmem, rfl⟩

/-- The request of the form arrives as it was written, exactly if it is shorter
than the limit. The form then shows the error of the daemon, if there is one: a
schedule it cannot parse, a name that is taken or a failed write. Otherwise the
scheduler has the job that was typed, and so has a restarted one. -/
theorem added_from_form (describe : Bytes → Bytes)
    {serialized : List (Bytes × Value) → Bytes → Prop} (hlib : lib.Documented)
    (hread : Models.ReadsDump read lib finite) (hround : RoundTrips lib serialized form)
    {config : List Job} (hsource : ∀ job ∈ config, job.source = .config)
    (hc : (config.map Job.name).Nodup) {table : JobTable} {lastRun : Bytes → Option RunRecord}
    {start : Int} {ops : List JobSet.Op} (hops : ∀ op ∈ ops, op.Admissible)
    (hs : s = JobSet.runOps loc (JobSet.construct loc config table lastRun start) ops)
    (hadd : form.canAdd) (hline : serialized form.body line)
    (hdb : ∀ what ∈ dbError, Utf8.Valid what)
    (hhandler : api.addJobHandler = some fun job => (s.addJob loc now job dbError).2) :
    ((∀ reads, Delivers (line ++ [10]) reads → readRequest [] reads = some line) ↔
      line.length < maxRequestBytes) ∧
    (∃ out, api.handle lib line = .ok out ∧ 10 ∉ out ∧
      actionError read describe out = form.outcome s.jobs dbError) ∧
    (form.outcome s.jobs dbError ≠ none → changed lib loc now dbError line s = s) ∧
    (form.outcome s.jobs dbError = none →
      (changed lib loc now dbError line s).jobs =
        s.jobs ++ [{ form.fields.job with source := .ui }] ∧
      (form.Plain → ∀ lastRun' now',
        findJob (JobSet.construct loc config (changed lib loc now dbError line s).table lastRun'
          now').jobs form.fields.name = some { form.fields.job with source := .ui })) := by
  have hparse : lib.parse line = some form.fields.toJson := hround.parse_line hline
  obtain ⟨herror, hok⟩ := respond_outcome hadd hparse hhandler
  have hlive : JobSet.Agrees config s := by
    rw [hs]
    exact JobSet.agrees_runOps hsource hc (JobSet.agrees_construct table lastRun start) hops
  refine ⟨forall_readRequest_iff (hround.line line hline) [],
    handle_outcome describe hlib hread hadd hparse hdb hhandler, ?_, ?_⟩
  · intro hfails
    obtain ⟨error, hfails⟩ := Option.ne_none_iff_exists'.mp hfails
    exact (herror error hfails).2
  · intro hadds
    obtain ⟨-, hfree, hchanged⟩ := hok hadds
    rw [hchanged]
    exact ⟨addJob_typed hadd hfree, fun hplain lastRun' now' =>
      findJob_restarted hc hlive hplain hadd hfree lastRun' now'⟩

/-- A form with blanks around the name, a slash in the command and no number of
retries. -/
def typed : AddJobForm where
  name := " nightly".toList
  command := "ls /tmp".toList
  schedule := "0 3 * * *".toList
  timeout := "60".toList
  retries := "x".toList
  missedPolicy := text "run_now"

/-- The text of the form in the order of its dictionary. -/
def typedLine : Bytes := 123 :: ([44].intercalate (typed.body.map writeField) ++ [125])

/-- The request that is typed arrives, the form shows no error, and a restarted
daemon has the job. -/
theorem added_from_form_typed :
    let lib : JsonLibrary (Option ℤ) :=
      { StatusStore.wholeLibrary with parse := Json.parse StatusStore.wholeDouble }
    let s := JobSet.construct midnight [] ⟨[], by decide, by decide⟩ (fun _ => none) 0
    let api : Api (Option ℤ) :=
      { StatusStore.alerting [] with
        addJobHandler := some fun job => (s.addJob midnight 5 job none).2 }
    typed.outcome s.jobs none = none ∧
      (∀ reads, Delivers (typedLine ++ [10]) reads → readRequest [] reads = some typedLine) ∧
      (∃ out, api.handle lib typedLine = .ok out ∧
        actionError StatusStore.wholeDecoder.read id out = none) ∧
      findJob (JobSet.construct midnight [] (changed lib midnight 5 none typedLine s).table
        (fun _ => none) 9).jobs (text "nightly") =
          some { typed.fields.job with source := .ui } := by
  intro lib s api
  have houtcome : typed.outcome s.jobs none = none := by decide
  have hadd : typed.canAdd := ⟨by decide, by decide⟩
  have hline : Serialized typed.body typedLine := ⟨typed.body, .refl _, rfl⟩
  have hrun : s = JobSet.runOps midnight s [] := rfl
  have hhandler : api.addJobHandler =
      some fun job => (s.addJob midnight 5 job none).2 := rfl
  have hlib : lib.Documented := ⟨StatusStore.wholeLibrary_documented.dumps⟩
  have hread : Models.ReadsDump StatusStore.wholeDecoder.read lib Option.isSome :=
    StatusStore.wholeLibrary_readsDump
  have hround : RoundTrips lib Serialized typed := roundTrips_serialized rfl (by decide)
  obtain ⟨harrives, ⟨out, hout, -, hshown⟩, -, hadded⟩ := added_from_form id hlib hread hround
    (by simp) (by decide) (by simp) hrun hadd hline (by simp) hhandler
  have hplain : typed.Plain := ⟨by decide, by decide, by decide⟩
  have hname : typed.fields.name = text "nightly" := by decide
  refine ⟨houtcome, harrives.mpr (by decide +kernel), ⟨out, hout, hshown.trans houtcome⟩, ?_⟩
  rw [← hname]
  exact (hadded houtcome).2 hplain (fun _ => none) 9

end Answers

end AddJobForm

end AgentPulse
