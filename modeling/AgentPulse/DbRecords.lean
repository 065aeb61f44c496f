import AgentPulse.Db
import AgentPulse.Lib.RowTable

/-!
# Writing records to the database and reading them back

`db.cpp` writes a record column by column through the parameters of an INSERT
and reads it column by column from a SELECT. Both are kept as lists in their
order in the source, so that a value in the wrong place would be a wrong value.
A row is a map from the columns of its table to cells.

SQLite is represented by its documented effect: a text bound with length `-1` is
stored up to its first NUL byte and read as a C string, a NaN is stored as NULL,
a NULL in a NOT NULL column fails the statement, and a new row has the number
after the largest one. A `double` is a value of any type that says which of its
values are NaN.
-/

namespace AgentPulse

open RowTable

universe u

variable {V : Type u}

/-- A persisted alert transition. -/
structure AlertRecord (V : Type u) where
  id : Int := 0
  ts : Int
  ruleName : Bytes
  severity : Bytes
  metric : Bytes
  kind : Bytes
  value : V
  threshold : V
  message : Bytes
  attribution : Bytes
  deriving DecidableEq

/-- The value of a column. -/
inductive Cell (V : Type u) where
  | null
  | integer (n : Int)
  | real (v : V)
  | text (s : Bytes)
  deriving DecidableEq

namespace Cell

/-- `sqlite3_bind_text` with length `-1`. -/
def bindText (s : Bytes) : Cell V := .text (cString s)

/-- `sqlite3_bind_int64`. -/
def bindInt64 (n : Int) : Cell V := .integer n

/-- `sqlite3_bind_int`. -/
def bindInt (n : Int32) : Cell V := .integer n.toInt

/-- `sqlite3_bind_double`. -/
def bindDouble (isNaN : V → Bool) (v : V) : Cell V := if isNaN v then .null else .real v

/-- The lambda `text` of the readers: the C string at `sqlite3_column_text`, or
the empty string. -/
def columnText : Cell V → Bytes
  | .text s => cString s
  | _ => []

/-- `sqlite3_column_int64`. -/
def columnInt64 : Cell V → Int
  | .integer n => n
  | _ => 0

/-- `sqlite3_column_int`: the lower 32 bits. -/
def columnInt (c : Cell V) : Int32 := Int32.ofInt c.columnInt64

/-- `sqlite3_column_double`. -/
def columnDouble [Zero V] : Cell V → V
  | .real v => v
  | _ => 0

/-- The cell is NULL. -/
def isNull : Cell V → Bool
  | .null => true
  | _ => false

/-- `column = ?` with a text bound. -/
def isText (s : Bytes) : Cell V → Bool
  | .text stored => stored == cString s
  | _ => false

@[simp] theorem columnText_bindText (s : Bytes) :
    (bindText s : Cell V).columnText = cString s := cString_cString s

@[simp] theorem columnInt64_bindInt64 (n : Int) : (bindInt64 n : Cell V).columnInt64 = n := rfl

@[simp] theorem columnInt_bindInt (n : Int32) : (bindInt n : Cell V).columnInt = n :=
  Int32.ofInt_toInt n

theorem columnDouble_bindDouble [Zero V] {isNaN : V → Bool} {v : V} (h : isNaN v = false) :
    (bindDouble isNaN v).columnDouble = v := by
  rw [bindDouble, h]
  rfl

@[simp] theorem isNull_bindDouble {isNaN : V → Bool} {v : V} :
    (bindDouble isNaN v).isNull = isNaN v := by
  unfold bindDouble
  cases h : isNaN v <;> rfl

end Cell

section Statements

variable {C : Type} [DecidableEq C]

/-- `INSERT INTO t(columns) VALUES(?, ..)` with the parameters bound to the values. -/
def bound (columns : List C) (values : List (Cell V)) (c : C) : Cell V :=
  ((columns.zip values).lookup c).getD .null

/-- The new row and its number; none if a NOT NULL column is NULL. -/
def insertRow (notNull : List C) (cells : C → Cell V) (t : Table (C → Cell V)) :
    Option (ℕ × Table (C → Cell V)) :=
  if notNull.any fun c => (cells c).isNull then none else some (t.nextId, t.insert cells)

/-- `SELECT columns`. The column of the primary key is the number of the row. -/
def selected (key : C) (columns : List C) (row : Row (C → Cell V)) : List (Cell V) :=
  columns.map fun c => if c = key then .integer row.id else row.val c

/-- The column of a selected row at an index. -/
def column (row : List (Cell V)) (col : ℕ) : Cell V := row.getD col .null

end Statements

/-! ### Runs -/

/-- The columns of the table `runs`. -/
inductive RunColumn where
  | id | jobName | startedAt | endedAt | status | exitCode | durationMs | stdout | stderr | trigger
  deriving DecidableEq

/-- The columns the schema declares NOT NULL. -/
def runNotNull : List RunColumn :=
  [.jobName, .startedAt, .endedAt, .status, .exitCode, .durationMs, .trigger]

/-- The columns that `Database::insert_run` names. -/
def runInsert : List RunColumn :=
  [.jobName, .startedAt, .endedAt, .status, .exitCode, .durationMs, .stdout, .stderr, .trigger]

/-- The columns that `Database::recent_runs` and `Database::last_run` select. -/
def runSelect : List RunColumn :=
  [.id, .jobName, .startedAt, .endedAt, .status, .exitCode, .durationMs, .stdout, .stderr, .trigger]

/-- The parameters that `Database::insert_run` binds. -/
def bindRun (run : RunRecord) : List (Cell V) :=
  [.bindText run.jobName, .bindInt64 run.startedAt, .bindInt64 run.endedAt, .bindText run.status,
    .bindInt run.exitCode, .bindInt64 run.durationMs, .bindText run.stdoutText,
    .bindText run.stderrText, .bindText run.trigger]

/-- A row of `Database::recent_runs` or `Database::last_run`. -/
def readRun (row : List (Cell V)) : RunRecord where
  id := (column row 0).columnInt64
  jobName := (column row 1).columnText
  startedAt := (column row 2).columnInt64
  endedAt := (column row 3).columnInt64
  status := (column row 4).columnText
  exitCode := (column row 5).columnInt
  durationMs := (column row 6).columnInt64
  stdoutText := (column row 7).columnText
  stderrText := (column row 8).columnText
  trigger := (column row 9).columnText

/-! ### Alerts -/

/-- The columns of the table `alerts`. -/
inductive AlertColumn where
  | id | ts | ruleName | severity | metric | kind | value | threshold | message | attribution
  deriving DecidableEq

/-- The columns the schema declares NOT NULL. -/
def alertNotNull : List AlertColumn :=
  [.ts, .ruleName, .severity, .metric, .kind, .value, .threshold]

/-- The columns that `Database::insert_alert` names. -/
def alertInsert : List AlertColumn :=
  [.ts, .ruleName, .severity, .metric, .kind, .value, .threshold, .message, .attribution]

/-- The columns that `Database::recent_alerts` selects. -/
def alertSelect : List AlertColumn :=
  [.id, .ts, .ruleName, .severity, .metric, .kind, .value, .threshold, .message, .attribution]

/-- The parameters that `Database::insert_alert` binds. -/
def bindAlert (isNaN : V → Bool) (alert : AlertRecord V) : List (Cell V) :=
  [.bindInt64 alert.ts, .bindText alert.ruleName, .bindText alert.severity, .bindText alert.metric,
    .bindText alert.kind, .bindDouble isNaN alert.value, .bindDouble isNaN alert.threshold,
    .bindText alert.message, .bindText alert.attribution]

/-- A row of `Database::recent_alerts`. -/
def readAlert [Zero V] (row : List (Cell V)) : AlertRecord V where
  id := (column row 0).columnInt64
  ts := (column row 1).columnInt64
  ruleName := (column row 2).columnText
  severity := (column row 3).columnText
  metric := (column row 4).columnText
  kind := (column row 5).columnText
  value := (column row 6).columnDouble
  threshold := (column row 7).columnDouble
  message := (column row 8).columnText
  attribution := (column row 9).columnText

/-! ### Job definitions -/

/-- The columns of the table `job_defs`. -/
inductive JobDefColumn where
  | name | command | scheduleExpr | missedRunPolicy | timeoutSeconds | retries
  deriving DecidableEq

/-- The columns that `Database::upsert_job_def` and `Database::load_job_defs` name. -/
def jobDefColumns : List JobDefColumn :=
  [.name, .command, .scheduleExpr, .missedRunPolicy, .timeoutSeconds, .retries]

/-- The parameters that `Database::upsert_job_def` binds. -/
def bindJobDef (d : JobDef) : List (Cell V) :=
  [.bindText d.name, .bindText d.command, .bindText d.scheduleExpr, .bindText d.missedRunPolicy,
    .bindInt d.timeoutSeconds, .bindInt d.retries]

/-- A row of `Database::load_job_defs`. -/
def readJobDef (row : List (Cell V)) : JobDef where
  name := (column row 0).columnText
  command := (column row 1).columnText
  scheduleExpr := (column row 2).columnText
  missedRunPolicy := (column row 3).columnText
  timeoutSeconds := (column row 4).columnInt
  retries := (column row 5).columnInt

/-! ### The database -/

/-- The tables of records. A row of `job_defs` is kept as `load_job_defs` reads it. -/
structure Database (V : Type u) where
  runs : Table (RunColumn → Cell V)
  alerts : Table (AlertColumn → Cell V)
  jobDefs : JobTable

namespace Database

/-- A database after its migration, without records. -/
def empty : Database V := ⟨Table.empty, Table.empty, JobTable.empty⟩

/-- `Database::insert_run`; none is a thrown DbError. -/
def insertRun (db : Database V) (run : RunRecord) : Option (ℕ × Database V) :=
  (insertRow runNotNull (bound runInsert (bindRun run)) db.runs).map fun (id, runs) =>
    (id, { db with runs })

/-- The query of `recent_runs` and `last_run`. -/
def selectRuns (db : Database V) (jobName : Bytes) (limit : Int) : List RunRecord :=
  (db.runs.newest (fun row => (row .startedAt).columnInt64)
    (fun row => (row .jobName).isText jobName) limit).map fun row =>
      readRun (selected .id runSelect row)

/-- `Database::recent_runs`. -/
def recentRuns (db : Database V) (jobName : Bytes) (limit : Int) : List RunRecord :=
  db.selectRuns jobName limit

/-- `Database::last_run`. -/
def lastRun (db : Database V) (jobName : Bytes) : Option RunRecord :=
  (db.selectRuns jobName 1).head?

/-- `Database::insert_alert`. -/
def insertAlert (isNaN : V → Bool) (db : Database V) (alert : AlertRecord V) :
    Option (ℕ × Database V) :=
  (insertRow alertNotNull (bound alertInsert (bindAlert isNaN alert)) db.alerts).map
    fun (id, alerts) => (id, { db with alerts })

/-- `Database::recent_alerts`. -/
def recentAlerts [Zero V] (db : Database V) (limit : Int) : List (AlertRecord V) :=
  (db.alerts.newest (fun row => (row .ts).columnInt64) (fun _ => true) limit).map fun row =>
    readAlert (selected .id alertSelect row)

/-- `Database::upsert_job_def`. -/
def upsertJobDef (db : Database V) (d : JobDef) : Database V :=
  let cells : JobDefColumn → Cell V := bound jobDefColumns (bindJobDef d)
  { db with jobDefs := db.jobDefs.upsert (readJobDef (jobDefColumns.map cells)) }

/-- `Database::delete_job_def`. -/
def deleteJobDef (db : Database V) (name : Bytes) : Database V :=
  { db with jobDefs := db.jobDefs.delete name }

/-- `Database::load_job_defs`. -/
def loadJobDefs (db : Database V) : List JobDef := db.jobDefs.load

end Database
end AgentPulse
