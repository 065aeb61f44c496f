import AgentPulse.DbRecords
import AgentPulse.Ipc.Answers

/-!
# The history of a metric

`sampler_loop` stores the metrics of a sample one after the other, and the first
statement that fails ends the storing of that sample. What the `history` command
answers with is exactly what was stored of the metric in its window.

## Implementation notes

A statement fails for a NaN, which is a NULL in a NOT NULL column, or because the
database says so. Points of one time are listed in the order of their rows, as
the index on metric and time has them.
-/

namespace AgentPulse.Metrics

open RowTable

variable {V : Type}

/-- The columns of the table `metrics`. -/
inductive MetricColumn where
  | id | ts | metric | value
  deriving DecidableEq

/-- The table `metrics`. -/
abbrev MetricTable (V : Type) := Table (MetricColumn → Cell V)

/-- The columns the schema declares NOT NULL. -/
def metricNotNull : List MetricColumn := [.ts, .metric, .value]

/-- The columns that `Database::insert_metric` names. -/
def metricInsert : List MetricColumn := [.ts, .metric, .value]

/-- The parameters that `Database::insert_metric` binds. -/
def bindMetric (isNaN : V → Bool) (ts : Int) (metric : Bytes) (value : V) : List (Cell V) :=
  [.bindInt64 ts, .bindText metric, .bindDouble isNaN value]

/-- `Database::insert_metric`; none is a thrown DbError. -/
def insertMetric (isNaN : V → Bool) (t : MetricTable V) (ts : Int) (metric : Bytes) (value : V) :
    Option (MetricTable V) :=
  (insertRow metricNotNull (bound metricInsert (bindMetric isNaN ts metric value)) t).map Prod.snd

/-- A row as the query returns it. -/
def point [Zero V] (row : Row (MetricColumn → Cell V)) : Int × V :=
  ((row.val .ts).columnInt64, (row.val .value).columnDouble)

/-- `ORDER BY ts ASC`. -/
def Earlier (p q : Int × V) : Prop := p.1 ≤ q.1

instance : DecidableRel (Earlier (V := V)) := fun _ _ => inferInstanceAs (Decidable (_ ≤ _))

/-- `Database::metric_history`. -/
def metricHistory [Zero V] (t : MetricTable V) (metric : Bytes) (since : Int) : List (Int × V) :=
  ((t.rows.filter fun row => (row.val .metric).isText metric &&
      decide (since ≤ (row.val .ts).columnInt64)).insertionSort fun r r' =>
        (r.val .ts).columnInt64 ≤ (r'.val .ts).columnInt64).map point

/-- What an iteration of `sampler_loop` collects, with what is missing if a
sampler is not valid: the used and available disk space, and the memory and
processor share of the daemon. -/
structure Collected (V : Type) where
  ts : Int
  cpuPercent : V
  memoryPercent : Option V
  disk : Option (V × V)
  thermalLevel : V
  self : Option (V × V)

/-- The statements of an iteration, in their order. -/
def Collected.inserts (c : Collected V) : List (Bytes × V) :=
  [(text "system.cpu.percent", c.cpuPercent)] ++
  (c.memoryPercent.elim [] fun percent => [(text "system.memory.percent", percent)]) ++
  (c.disk.elim [] fun disk =>
    [(text "system.disk.percent", disk.1), (text "system.disk.available_bytes", disk.2)]) ++
  [(text "system.thermal.level", c.thermalLevel)] ++
  (c.self.elim [] fun self =>
    [(text "daemon.rss_bytes", self.1), (text "daemon.cpu.percent", self.2)])

/-- An iteration, with the statements the database fails. -/
structure Tick (V : Type) extends Collected V where
  fails : Bytes → Bool := fun _ => false

/-- The statements of an iteration up to the first that throws. -/
def insertAll (isNaN : V → Bool) (fails : Bytes → Bool) (ts : Int) (t : MetricTable V) :
    List (Bytes × V) → MetricTable V
  | [] => t
  | (metric, value) :: rest =>
      if fails metric then t
      else match insertMetric isNaN t ts metric value with
        | none => t
        | some after => insertAll isNaN fails ts after rest

/-- The inserts of one iteration of `sampler_loop`. -/
def Tick.store (isNaN : V → Bool) (t : MetricTable V) (tick : Tick V) : MetricTable V :=
  insertAll isNaN tick.fails tick.ts t tick.inserts

/-- The table after the iterations. -/
def afterTicks (isNaN : V → Bool) (t : MetricTable V) (ticks : List (Tick V)) : MetricTable V :=
  ticks.foldl (Tick.store isNaN) t

section Stored

/-- The points of a metric in a table. -/
def points [Zero V] (t : MetricTable V) (metric : Bytes) : List (Int × V) :=
  (t.rows.filter fun row => (row.val .metric).isText metric).map point

/-- What is stored of an iteration. -/
def Tick.stored (isNaN : V → Bool) (tick : Tick V) : List (Bytes × V) :=
  tick.inserts.takeWhile fun p => !tick.fails p.1 && !isNaN p.2

/-- The points of a metric among these. -/
def Tick.points (isNaN : V → Bool) (metric : Bytes) (tick : Tick V) : List (Int × V) :=
  ((tick.stored isNaN).filter fun p => cString p.1 = cString metric).map fun p => (tick.ts, p.2)

variable {isNaN : V → Bool} {t : MetricTable V} {ts : Int} {metric name : Bytes} {value : V}

/-- A NaN fails the statement, and nothing else does. -/
theorem insertMetric_eq : insertMetric isNaN t ts metric value =
    if isNaN value then none
    else some (t.insert (bound metricInsert (bindMetric isNaN ts metric value))) := by
  have hnull : (metricNotNull.any fun c =>
      (bound metricInsert (bindMetric isNaN ts metric value) c).isNull) =
        (Cell.bindDouble isNaN value).isNull := Bool.or_false _
  rw [Cell.isNull_bindDouble] at hnull
  rw [insertMetric, insertRow, hnull]
  split_ifs <;> rfl

variable [Zero V]

theorem points_insert (hvalue : isNaN value = false) :
    points (t.insert (bound metricInsert (bindMetric isNaN ts metric value))) name =
      points t name ++ if cString metric = cString name then [(ts, value)] else [] := by
  have hrow : ((bound metricInsert (bindMetric isNaN ts metric value)) .metric : Cell V).isText
      name = decide (cString metric = cString name) := beq_eq_decide _ _
  have hpoint : point ⟨t.nextId, bound metricInsert (bindMetric isNaN ts metric value)⟩ =
      (ts, value) := Prod.ext rfl (Cell.columnDouble_bindDouble hvalue)
  rw [points, Table.insert, List.filter_append, List.map_append, ← points, List.filter_singleton]
  simp only [hrow, Bool.cond_decide]
  split_ifs
  · rw [List.map_singleton, hpoint]
  · rfl

/-- One iteration adds the points of its statements before the first failure. -/
theorem points_insertAll (fails : Bytes → Bool) (inserts : List (Bytes × V)) :
    points (insertAll isNaN fails ts t inserts) name =
      points t name ++ ((inserts.takeWhile fun p => !fails p.1 && !isNaN p.2).filter fun p =>
        cString p.1 = cString name).map fun p => (ts, p.2) := by
  induction inserts generalizing t with
  | nil => exact (List.append_nil _).symm
  | cons head rest ih =>
      obtain ⟨metric, value⟩ := head
      rw [insertAll]
      by_cases hfails : fails metric = true
      · rw [if_pos hfails, List.takeWhile_cons_of_neg (by simp [hfails])]
        exact (List.append_nil _).symm
      · rw [if_neg hfails, insertMetric_eq]
        by_cases hvalue : isNaN value = true
        · rw [if_pos hvalue, List.takeWhile_cons_of_neg (by simp [hvalue])]
          exact (List.append_nil _).symm
        · have hfalse : isNaN value = false := by simpa using hvalue
          rw [if_neg hvalue, List.takeWhile_cons_of_pos (by simp [hfails, hfalse])]
          simp only
          rw [ih, points_insert hfalse, List.append_assoc, List.filter_cons]
          by_cases hname : cString metric = cString name
          · simp [hname]
          · simp [hname]

theorem points_afterTicks (ticks : List (Tick V)) :
    points (afterTicks isNaN t ticks) name =
      points t name ++ ticks.flatMap (Tick.points isNaN name) := by
  induction ticks generalizing t with
  | nil => exact (List.append_nil _).symm
  | cons tick ticks ih =>
      have hstep : afterTicks isNaN t (tick :: ticks) =
          afterTicks isNaN (tick.store isNaN t) ticks := rfl
      have hstore : points (tick.store isNaN t) name = points t name ++ tick.points isNaN name :=
        points_insertAll tick.fails tick.inserts
      rw [hstep, ih, hstore, List.flatMap_cons, List.append_assoc]

/-- The query lists the points of its window by time. -/
theorem metricHistory_eq (since : Int) : metricHistory t metric since =
    ((points t metric).filter fun p => decide (since ≤ p.1)).insertionSort Earlier := by
  have hfilter : (t.rows.filter fun row => (row.val .metric).isText metric &&
      decide (since ≤ (row.val .ts).columnInt64)).map point =
        (points t metric).filter fun p => decide (since ≤ p.1) := by
    rw [points, List.filter_map, List.filter_filter]
    congr 1
    apply List.filter_congr
    intro row _
    exact Bool.and_comm _ _
  rw [metricHistory, ← hfilter]
  exact List.map_insertionSort _ _ _ _ fun _ _ _ _ => Iff.rfl

end Stored

section Answers

variable {isNaN : V → Bool} {t : MetricTable V} {metric : Bytes} [Zero V]

/-- The window of a `history` request. -/
def window (seconds : Bytes) : Int :=
  if seconds = [] ∨ strtol seconds ≤ 0 then 3600 else strtol seconds

/-- A point of the answer. -/
def pointToJson (p : Int × V) : Json V :=
  .object [(text "t", .int p.1), (text "v", .float p.2)]

omit [Zero V] in
/-- The answer to a `history` request whose query succeeds. -/
theorem respond_history {lib : JsonLibrary V} {api : Api V} {db : HistoryDb V}
    {line metric seconds : Bytes} {found : List (Int × V)}
    (hreq : parseRequest lib line = ⟨text "history", metric, seconds⟩) (hmetric : metric ≠ [])
    (hapi : api.db = some db)
    (hfound : db.metricHistory metric (api.now - window seconds) = .ok found) :
    api.respond lib line = .object [
      (text "ok", .bool true),
      (text "cmd", .lit "history"),
      (text "metric", .str metric),
      (text "points", .arr (found.map pointToJson))] := by
  have hquery : api.historyQuery db ⟨text "history", metric, seconds⟩ = .ok found := by
    rw [Api.historyQuery, ← hfound]
    by_cases hblank : seconds = []
    · simp [window, hblank]
    · simp [window, hblank]
  have hping : text "history" ≠ text "ping" := by decide
  have hstatus : text "history" ≠ text "status" := by decide
  have hjobs : text "history" ≠ text "jobs" := by decide
  have halerts : text "history" ≠ text "alerts" := by decide
  rw [Api.respond, hreq]
  simp only [if_neg hping, if_neg hstatus, if_neg hjobs, if_neg halerts, if_true]
  rw [Api.historyResponse, hapi]
  simp only [if_neg hmetric, hquery]
  rfl

/-- After any iterations on any table, `history` answers with the points of the
window, by time: those the table had and those of each iteration before its
first failing statement. If the clock never goes back, they come in the order in
which they were stored. -/
theorem history_shows_stored (isNaN : V → Bool) (t : MetricTable V) (ticks : List (Tick V))
    {lib : JsonLibrary V} {api : Api V} {db : HistoryDb V} {line metric seconds : Bytes}
    (hreq : parseRequest lib line = ⟨text "history", metric, seconds⟩) (hmetric : metric ≠ [])
    (hapi : api.db = some db)
    (hdb : db.metricHistory = fun metric since =>
      .ok (metricHistory (afterTicks isNaN t ticks) metric since)) :
    ∃ shown, api.respond lib line = .object [
        (text "ok", .bool true),
        (text "cmd", .lit "history"),
        (text "metric", .str metric),
        (text "points", .arr (shown.map pointToJson))] ∧
      shown = ((points t metric ++ ticks.flatMap (Tick.points isNaN metric)).filter fun p =>
        decide (api.now - window seconds ≤ p.1)).insertionSort Earlier ∧
      ((points t metric ++ ticks.flatMap (Tick.points isNaN metric)).Pairwise Earlier →
        shown = (points t metric ++ ticks.flatMap (Tick.points isNaN metric)).filter fun p =>
          decide (api.now - window seconds ≤ p.1)) := by
  have hfound : db.metricHistory metric (api.now - window seconds) =
      .ok (metricHistory (afterTicks isNaN t ticks) metric (api.now - window seconds)) := by
    rw [hdb]
  refine ⟨metricHistory (afterTicks isNaN t ticks) metric (api.now - window seconds),
    respond_history hreq hmetric hapi hfound, ?_, ?_⟩
  · rw [metricHistory_eq, points_afterTicks]
  · intro hsorted
    rw [metricHistory_eq, points_afterTicks]
    exact List.Pairwise.insertionSort_eq (hsorted.filter _)

/-- An iteration at a second that stores all it collected, and one in which the
database fails the statement for the used disk space. -/
def wholeTick : Tick ℤ where
  ts := 100
  cpuPercent := 7
  memoryPercent := some 40
  disk := some (80, 900)
  thermalLevel := 0
  self := some (5, 1)

def brokenTick : Tick ℤ :=
  { wholeTick with ts := 105, fails := fun metric => metric = text "system.disk.percent" }

/-- The failure costs the thermal level of its own iteration, and nothing else. -/
theorem history_shows_stored_broken :
    let db : HistoryDb ℤ :=
      { metricHistory := fun metric since =>
          .ok (metricHistory (afterTicks (fun _ => false) Table.empty
            [wholeTick, brokenTick, { wholeTick with ts := 110 }]) metric since)
        recentRuns := fun _ _ => .ok [] }
    let api : Api ℤ := { Api.freshApi with db := some db, now := 120 }
    api.respond Api.bareLibrary (text "history system.thermal.level 60") = .object [
      (text "ok", .bool true),
      (text "cmd", .lit "history"),
      (text "metric", .str (text "system.thermal.level")),
      (text "points", .arr ([(100, 0), (110, 0)].map pointToJson))] := by
  intro db api
  have hreq : parseRequest Api.bareLibrary (text "history system.thermal.level 60") =
      ⟨text "history", text "system.thermal.level", text "60"⟩ := by decide
  have hapi : api.db = some db := rfl
  obtain ⟨shown, hanswer, -, hordered⟩ := history_shows_stored (fun _ => false) Table.empty
    [wholeTick, brokenTick, { wholeTick with ts := 110 }] hreq (by decide) hapi rfl
  rw [hanswer, hordered (by decide)]
  have hshown : (points (Table.empty : MetricTable ℤ) (text "system.thermal.level") ++
      [wholeTick, brokenTick, { wholeTick with ts := 110 }].flatMap
        (Tick.points (fun _ => false) (text "system.thermal.level"))).filter
          (fun p => decide (api.now - window (text "60") ≤ p.1)) = [(100, 0), (110, 0)] := by
    decide
  rw [hshown]

end Answers

end AgentPulse.Metrics
