import AgentPulse.DbRecords
import AgentPulse.Lib.KeyedList

/-!
# Which records the database gives back

A record is given back, apart from its number, if and only if none of its texts
has a NUL byte and, for an alert, none of its values is NaN. Two names stay apart
as keys of `job_defs` if and only if they differ before their first NUL byte.
-/

namespace AgentPulse

open RowTable

universe u

variable {V : Type u}

/-- No text has a NUL byte. -/
def NoNul (texts : List Bytes) : Prop := ∀ s ∈ texts, (0 : UInt8) ∉ s

instance : DecidablePred NoNul := fun _ => inferInstanceAs (Decidable (∀ _ ∈ _, _))

def RunRecord.texts (run : RunRecord) : List Bytes :=
  [run.jobName, run.status, run.stdoutText, run.stderrText, run.trigger]

def AlertRecord.texts (alert : AlertRecord V) : List Bytes :=
  [alert.ruleName, alert.severity, alert.metric, alert.kind, alert.message, alert.attribution]

def JobDef.texts (d : JobDef) : List Bytes :=
  [d.name, d.command, d.scheduleExpr, d.missedRunPolicy]

/-- The record with its texts cut at their first NUL bytes. -/
def RunRecord.stored (run : RunRecord) : RunRecord :=
  { run with
    jobName := cString run.jobName
    status := cString run.status
    stdoutText := cString run.stdoutText
    stderrText := cString run.stderrText
    trigger := cString run.trigger }

@[inherit_doc RunRecord.stored]
def AlertRecord.stored (alert : AlertRecord V) : AlertRecord V :=
  { alert with
    ruleName := cString alert.ruleName
    severity := cString alert.severity
    metric := cString alert.metric
    kind := cString alert.kind
    message := cString alert.message
    attribution := cString alert.attribution }

theorem RunRecord.stored_eq_iff {run : RunRecord} : run.stored = run ↔ NoNul run.texts := by
  cases run
  simp [RunRecord.stored, NoNul, RunRecord.texts, cString_eq_self_iff]

theorem AlertRecord.stored_eq_iff {alert : AlertRecord V} :
    alert.stored = alert ↔ NoNul alert.texts := by
  cases alert
  simp [AlertRecord.stored, NoNul, AlertRecord.texts, cString_eq_self_iff]

theorem JobDef.stored_eq_iff {d : JobDef} : d.stored = d ↔ NoNul d.texts := by
  cases d
  simp [JobDef.stored, NoNul, JobDef.texts, cString_eq_self_iff]

/-! ### The positional encoders and decoders -/

section Codecs

variable {isNaN : V → Bool} {run : RunRecord} {alert : AlertRecord V} {id : ℕ}

/-- The row an INSERT of a run writes. -/
def runRow (run : RunRecord) : RunColumn → Cell V := bound runInsert (bindRun run)

@[inherit_doc runRow]
def alertRow (isNaN : V → Bool) (alert : AlertRecord V) : AlertColumn → Cell V :=
  bound alertInsert (bindAlert isNaN alert)

/-- No column of a run is ever NULL. -/
theorem insertRow_runRow (t : Table (RunColumn → Cell V)) :
    insertRow runNotNull (runRow run) t = some (t.nextId, t.insert (runRow run)) :=
  rfl

/-- The columns come back in the order they were bound in, after the number. -/
theorem selected_runRow :
    selected .id runSelect ⟨id, runRow run⟩ = Cell.bindInt64 (V := V) id :: bindRun run :=
  rfl

theorem isText_runRow : (runRow run .jobName : Cell V).isText run.jobName = true :=
  beq_self_eq_true (cString run.jobName)

theorem readRun_runRow :
    readRun (selected .id runSelect ⟨id, (runRow run : _ → Cell V)⟩) =
      { run.stored with id := id } := by
  rw [selected_runRow]
  simp [readRun, bindRun, column, RunRecord.stored]

/-- A NaN fails the INSERT of an alert, and nothing else does. -/
theorem insertRow_alertRow (isNaN : V → Bool) (alert : AlertRecord V)
    (t : Table (AlertColumn → Cell V)) :
    insertRow alertNotNull (alertRow isNaN alert) t =
      if isNaN alert.value || isNaN alert.threshold then none
      else some (t.nextId, t.insert (alertRow isNaN alert)) := by
  have hnull : (alertNotNull.any fun c => (alertRow isNaN alert c).isNull) =
      ((Cell.bindDouble isNaN alert.value).isNull ||
        ((Cell.bindDouble isNaN alert.threshold).isNull || false)) := rfl
  rw [insertRow, hnull, Cell.isNull_bindDouble, Cell.isNull_bindDouble, Bool.or_false]

theorem selected_alertRow :
    selected .id alertSelect ⟨id, alertRow isNaN alert⟩ =
      .bindInt64 id :: bindAlert isNaN alert :=
  rfl

theorem readAlert_alertRow [Zero V] (hvalue : isNaN alert.value = false)
    (hthreshold : isNaN alert.threshold = false) :
    readAlert (selected .id alertSelect ⟨id, alertRow isNaN alert⟩) =
      { alert.stored with id := id } := by
  rw [selected_alertRow]
  simp [readAlert, bindAlert, column, AlertRecord.stored, Cell.columnDouble_bindDouble hvalue,
    Cell.columnDouble_bindDouble hthreshold]

theorem readJobDef_bound (d : JobDef) :
    readJobDef (jobDefColumns.map (bound jobDefColumns (bindJobDef d : List (Cell V)))) =
      d.stored := by
  have hcolumns : jobDefColumns.map (bound jobDefColumns (bindJobDef d : List (Cell V))) =
      bindJobDef d := rfl
  rw [hcolumns]
  simp [readJobDef, bindJobDef, column, JobDef.stored]

end Codecs

/-! ### The operations -/

namespace Database

variable {isNaN : V → Bool} {db : Database V} {run : RunRecord} {alert : AlertRecord V}

/-- The row named by a definition, as `load_job_defs` reads it. -/
def jobDef? (db : Database V) (name : Bytes) : Option JobDef :=
  db.loadJobDefs.find? fun row => row.name = cString name

/-- A run is stored, the query for its job lists it unchanged under every limit
that covers the job's runs, and it is the last run unless a later one is stored. -/
def RunComesBack (db : Database V) (run : RunRecord) : Prop :=
  ∃ id after, db.insertRun run = some (id, after) ∧
    (∀ limit : Int, limit < 0 ∨ (after.recentRuns run.jobName (-1)).length ≤ limit →
      { run with id := (id : Int) } ∈ after.recentRuns run.jobName limit) ∧
    ((∀ earlier ∈ db.recentRuns run.jobName (-1), earlier.startedAt ≤ run.startedAt) →
      after.lastRun run.jobName = some { run with id := (id : Int) })

/-- An alert is stored and listed unchanged under every limit that covers the alerts. -/
def AlertComesBack [Zero V] (isNaN : V → Bool) (db : Database V) (alert : AlertRecord V) : Prop :=
  ∃ id after, db.insertAlert isNaN alert = some (id, after) ∧
    ∀ limit : Int, limit < 0 ∨ (after.recentAlerts (-1)).length ≤ limit →
      { alert with id := (id : Int) } ∈ after.recentAlerts limit

/-- A definition is loaded unchanged. -/
def JobDefComesBack (db : Database V) (d : JobDef) : Prop :=
  d ∈ (db.upsertJobDef d).loadJobDefs

/-- Upserting and deleting a definition leaves the row of another name alone. -/
def StaysApart (db : Database V) (name : Bytes) (d : JobDef) : Prop :=
  name ≠ d.name → ∀ row, db.jobDef? name = some row →
    (db.upsertJobDef d).jobDef? name = some row ∧
      (db.deleteJobDef d.name).jobDef? name = some row

theorem insertRun_eq : db.insertRun run =
    some (db.runs.nextId, { db with runs := db.runs.insert (runRow run) }) :=
  congrArg (Option.map _) (insertRow_runRow db.runs)

theorem insertAlert_eq (hvalue : isNaN alert.value = false)
    (hthreshold : isNaN alert.threshold = false) :
    db.insertAlert isNaN alert =
      some (db.alerts.nextId, { db with alerts := db.alerts.insert (alertRow isNaN alert) }) := by
  have hrow := insertRow_alertRow isNaN alert db.alerts
  rw [hvalue, hthreshold] at hrow
  exact congrArg (Option.map _) hrow

theorem insertAlert_of_isNaN (h : (isNaN alert.value || isNaN alert.threshold) = true) :
    db.insertAlert isNaN alert = none := by
  have hrow := insertRow_alertRow isNaN alert db.alerts
  rw [if_pos h] at hrow
  exact congrArg (Option.map _) hrow

theorem upsertJobDef_jobDefs (d : JobDef) :
    (db.upsertJobDef d).jobDefs = db.jobDefs.upsert d.stored :=
  congrArg db.jobDefs.upsert (readJobDef_bound d)

/-- After the insertion the query for the job lists the cut record. -/
theorem stored_mem_recentRuns {after : Database V}
    (hafter : after.runs = db.runs.insert (runRow run)) {limit : Int}
    (h : limit < 0 ∨ ((after.recentRuns run.jobName (-1)).length : Int) ≤ limit) :
    { run.stored with id := (db.runs.nextId : Int) } ∈ after.recentRuns run.jobName limit := by
  rw [recentRuns, selectRuns, List.length_map, hafter] at h
  rw [← readRun_runRow (V := V), recentRuns, selectRuns, hafter]
  apply List.mem_map_of_mem
  exact Table.mem_newest_insert isText_runRow h

/-- After the insertion of a run that is not older than the others of its job, the
cut record is the last run. -/
theorem lastRun_stored {after : Database V} (hafter : after.runs = db.runs.insert (runRow run))
    (h : ∀ earlier ∈ db.recentRuns run.jobName (-1), earlier.startedAt ≤ run.startedAt) :
    after.lastRun run.jobName = some { run.stored with id := (db.runs.nextId : Int) } := by
  have hone : after.runs.newest (fun row => (row .startedAt).columnInt64)
      (fun row => (row .jobName).isText run.jobName) 1 = [⟨db.runs.nextId, runRow run⟩] := by
    rw [hafter]
    apply Table.newest_one_insert
    · exact isText_runRow
    · intro r hr hname
      exact h _ (List.mem_map_of_mem (Table.mem_newest_all.mpr ⟨hr, hname⟩))
  rw [lastRun, selectRuns, hone, List.map_singleton, List.head?_singleton, readRun_runRow]

theorem columnText_noNul (c : Cell V) : (0 : UInt8) ∉ c.columnText := by
  cases c with
  | text s => exact cString_eq_self_iff.mp (cString_cString s)
  | null | integer _ | real _ => exact List.not_mem_nil

/-- What a query returns has no NUL byte. -/
theorem noNul_of_mem_recentRuns {name : Bytes} {limit : Int} {r : RunRecord}
    (h : r ∈ db.recentRuns name limit) : NoNul r.texts := by
  obtain ⟨row, _, rfl⟩ := List.mem_map.mp h
  simp [NoNul, RunRecord.texts, readRun, columnText_noNul]

theorem noNul_of_mem_recentAlerts [Zero V] {limit : Int} {a : AlertRecord V}
    (h : a ∈ db.recentAlerts limit) : NoNul a.texts := by
  obtain ⟨row, _, rfl⟩ := List.mem_map.mp h
  simp [NoNul, AlertRecord.texts, readAlert, columnText_noNul]

theorem runComesBack_iff : db.RunComesBack run ↔ NoNul run.texts := by
  constructor
  · rintro ⟨id, after, _, hlisted, _⟩
    have htexts := noNul_of_mem_recentRuns (hlisted (-1) (Or.inl (by decide)))
    exact htexts
  · intro htexts
    have hstored := RunRecord.stored_eq_iff.mpr htexts
    refine ⟨_, _, insertRun_eq, fun limit hlimit => ?_, fun hlast => ?_⟩
    · have hmem := stored_mem_recentRuns rfl hlimit
      rwa [hstored] at hmem
    · have hrun : lastRun { db with runs := db.runs.insert (runRow run) } run.jobName =
          some { run.stored with id := (db.runs.nextId : Int) } := lastRun_stored rfl hlast
      rwa [hstored] at hrun

/-- After the insertion the list of alerts has the cut record. -/
theorem stored_mem_recentAlerts [Zero V] {after : Database V}
    (hafter : after.alerts = db.alerts.insert (alertRow isNaN alert))
    (hvalue : isNaN alert.value = false) (hthreshold : isNaN alert.threshold = false) {limit : Int}
    (h : limit < 0 ∨ ((after.recentAlerts (-1)).length : Int) ≤ limit) :
    { alert.stored with id := (db.alerts.nextId : Int) } ∈ after.recentAlerts limit := by
  rw [recentAlerts, List.length_map, hafter] at h
  rw [← readAlert_alertRow hvalue hthreshold, recentAlerts, hafter]
  apply List.mem_map_of_mem
  exact Table.mem_newest_insert rfl h

theorem alertComesBack_iff [Zero V] : db.AlertComesBack isNaN alert ↔
    NoNul alert.texts ∧ isNaN alert.value = false ∧ isNaN alert.threshold = false := by
  constructor
  · rintro ⟨id, after, hinsert, hlisted⟩
    have htexts := noNul_of_mem_recentAlerts (hlisted (-1) (Or.inl (by decide)))
    refine ⟨htexts, ?_⟩
    rw [← Bool.or_eq_false_iff]
    by_contra hnan
    rw [insertAlert_of_isNaN (Bool.eq_true_of_not_eq_false hnan)] at hinsert
    cases hinsert
  · rintro ⟨htexts, hvalue, hthreshold⟩
    refine ⟨_, _, insertAlert_eq hvalue hthreshold, fun limit hlimit => ?_⟩
    have hmem := stored_mem_recentAlerts rfl hvalue hthreshold hlimit
    rwa [AlertRecord.stored_eq_iff.mpr htexts] at hmem

theorem mem_loadJobDefs {d : JobDef} : d ∈ db.loadJobDefs ↔ d ∈ db.jobDefs.rows :=
  db.jobDefs.load_perm.mem_iff

theorem jobDef?_eq_some_iff {name : Bytes} {row : JobDef} :
    db.jobDef? name = some row ↔ row ∈ db.jobDefs.rows ∧ row.name = cString name := by
  have hnodup : (db.loadJobDefs.map JobDef.name).Nodup :=
    (db.jobDefs.load_perm.map JobDef.name).nodup_iff.mpr db.jobDefs.nodup
  rw [jobDef?, KeyedList.find?_eq_some_iff hnodup, mem_loadJobDefs]

theorem jobDefComesBack_iff {d : JobDef} : db.JobDefComesBack d ↔ NoNul d.texts := by
  rw [JobDefComesBack, mem_loadJobDefs, upsertJobDef_jobDefs, ← JobDef.stored_eq_iff]
  constructor
  · exact (db.jobDefs.upsert d.stored).cStrings d
  · intro hstored
    rw [JobTable.mem_upsert, JobDef.stored_stored]
    exact Or.inl hstored.symm

/-- The row of a name is the only one an upsert or a deletion touches. -/
theorem staysApart_iff {name : Bytes} {d : JobDef} : db.StaysApart name d ↔
    name = d.name ∨ db.jobDef? name = none ∨ cString name ≠ cString d.name := by
  constructor
  · intro h
    by_contra! hcut
    obtain ⟨hne, hrow, hkey⟩ := hcut
    obtain ⟨row, hrow⟩ := Option.ne_none_iff_exists'.mp hrow
    obtain ⟨hmem, hname⟩ := jobDef?_eq_some_iff.mp (h hne row hrow).2
    have hdeleted : row ∈ db.jobDefs.rows.filter fun row => row.name ≠ cString d.name := hmem
    rw [List.mem_filter, decide_eq_true_eq] at hdeleted
    exact hdeleted.2 (hname.trans hkey)
  · rintro h hne row hrow
    have hkey : cString name ≠ cString d.name := by
      obtain h | h | h := h
      · exact absurd h hne
      · rw [h] at hrow
        cases hrow
      · exact h
    obtain ⟨hmem, hname⟩ := jobDef?_eq_some_iff.mp hrow
    rw [← hname] at hkey
    constructor
    · rw [jobDef?_eq_some_iff, upsertJobDef_jobDefs, JobTable.mem_upsert]
      refine ⟨Or.inr ⟨hmem, ?_⟩, hname⟩
      rwa [JobDef.stored_name, cString_cString]
    · rw [jobDef?_eq_some_iff]
      exact ⟨List.mem_filter.mpr ⟨hmem, decide_eq_true hkey⟩, hname⟩

/-- Exactly which records come back, and exactly which names stay apart. -/
theorem records_come_back_iff [Zero V] (isNaN : V → Bool) (db : Database V) :
    (∀ run, db.RunComesBack run ↔ NoNul run.texts) ∧
      (∀ alert, db.AlertComesBack isNaN alert ↔
        NoNul alert.texts ∧ isNaN alert.value = false ∧ isNaN alert.threshold = false) ∧
      (∀ d, db.JobDefComesBack d ↔ NoNul d.texts) ∧
      ∀ name d, db.StaysApart name d ↔
        name = d.name ∨ db.jobDef? name = none ∨ cString name ≠ cString d.name :=
  ⟨fun _ => runComesBack_iff, fun _ => alertComesBack_iff, fun _ => jobDefComesBack_iff,
    fun _ _ => staysApart_iff⟩

/-- A run of `printf 'a\0b'`. -/
def nulRun : RunRecord where
  jobName := text "j"
  startedAt := 100
  endedAt := 101
  status := text "success"
  exitCode := 0
  durationMs := 5
  stdoutText := [97, 0, 98]
  stderrText := []
  trigger := text "manual"

/-- Two definitions whose names differ after a NUL byte. -/
def nulDef (rest : Bytes) : JobDef where
  name := [97, 0] ++ rest
  command := text "true"
  scheduleExpr := []
  missedRunPolicy := text "none"
  timeoutSeconds := 0
  retries := 0

/-- The captured output comes back cut, and the second definition takes the row
of the first. -/
theorem nul_cuts_and_merges :
    ((empty : Database ℚ).insertRun nulRun).map (fun r => r.2.recentRuns (text "j") (-1)) =
        some [{ nulRun with id := 1, stdoutText := [97] }] ∧
      ¬(empty : Database ℚ).RunComesBack nulRun ∧
      (((empty : Database ℚ).upsertJobDef (nulDef [98])).upsertJobDef
        (nulDef [99])).loadJobDefs.length = 1 ∧
      ¬((empty : Database ℚ).upsertJobDef (nulDef [98])).StaysApart (nulDef [98]).name
        (nulDef [99]) := by
  refine ⟨by decide +kernel, ?_, by decide +kernel, ?_⟩
  · rw [runComesBack_iff]
    decide
  · rw [staysApart_iff]
    decide +kernel

end Database

end AgentPulse
