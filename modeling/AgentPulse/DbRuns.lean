import AgentPulse.DbRoundTrip
import AgentPulse.SharedState

/-!
# The last run after a list of insertions

The rows of a job after the insertion of some runs are its old rows and one for
each of its runs, in their order. So the run inserted last is the one `last_run`
gives back exactly if no row of the job is later.
-/

namespace AgentPulse

/-- The fields of a run that are shown for its job. -/
def RunRecord.summary (run : RunRecord) : LastRun where
  status := run.status
  startedAt := run.startedAt
  exitCode := run.exitCode
  durationMs := run.durationMs
  trigger := run.trigger

namespace Database

open RowTable

universe u

variable {V : Type u} {db : Database V} {run : RunRecord} {runs : List RunRecord} {name : Bytes}

/-- The database after the insertion of runs, one after the other. -/
def insertRuns (db : Database V) (runs : List RunRecord) : Database V :=
  runs.foldl (fun db run => ((db.insertRun run).map Prod.snd).getD db) db

/-- The rows that count as runs of a job. -/
def hits (db : Database V) (name : Bytes) : List (Row (RunColumn → Cell V)) :=
  db.runs.rows.filter fun row => (row.val .jobName).isText name

/-- The runs that are stored under a name. -/
def storedUnder (name : Bytes) (runs : List RunRecord) : List RunRecord :=
  runs.filter fun run => cString run.jobName = cString name

theorem storedUnder_snoc : storedUnder name (runs ++ [run]) =
    storedUnder name runs ++ if cString run.jobName = cString name then [run] else [] := by
  rw [storedUnder, List.filter_append, List.filter_singleton]
  simp [storedUnder]

theorem insertRuns_snoc : db.insertRuns (runs ++ [run]) =
    { db.insertRuns runs with runs := (db.insertRuns runs).runs.insert (runRow run) } := by
  have hfold : db.insertRuns (runs ++ [run]) =
      (((db.insertRuns runs).insertRun run).map Prod.snd).getD (db.insertRuns runs) :=
    List.foldl_append
  rw [hfold, insertRun_eq]
  rfl

theorem hits_insertRuns (db : Database V) (runs : List RunRecord) (name : Bytes) :
    ∃ new, (db.insertRuns runs).hits name = db.hits name ++ new ∧
      new.map Row.val = (storedUnder name runs).map runRow := by
  induction runs using List.reverseRecOn with
  | nil => exact ⟨[], (List.append_nil _).symm, rfl⟩
  | append_singleton runs run ih =>
      obtain ⟨new, hhits, hnew⟩ := ih
      have hrow : (runRow run .jobName : Cell V).isText name =
          decide (cString run.jobName = cString name) := beq_eq_decide _ _
      have hinsert : (db.insertRuns (runs ++ [run])).hits name = (db.insertRuns runs).hits name ++
          if cString run.jobName = cString name then
            [⟨(db.insertRuns runs).runs.nextId, runRow run⟩]
          else [] := by
        rw [insertRuns_snoc, hits, Table.insert, List.filter_append, ← hits, List.filter_singleton]
        simp only [hrow, Bool.cond_decide]
      rw [hinsert, hhits, storedUnder_snoc]
      by_cases hname : cString run.jobName = cString name
      · rw [if_pos hname, if_pos hname, List.append_assoc]
        refine ⟨_, rfl, ?_⟩
        rw [List.map_append, hnew, List.map_append]
        rfl
      · rw [if_neg hname, if_neg hname, List.append_nil, List.append_nil]
        exact ⟨new, rfl, hnew⟩

/-- Runs of other jobs leave the last run of a job as it is. -/
theorem lastRun_insertRuns_of_nil (h : storedUnder name runs = []) :
    (db.insertRuns runs).lastRun name = db.lastRun name := by
  obtain ⟨new, hhits, hnew⟩ := hits_insertRuns db runs name
  rw [h, List.map_nil, List.map_eq_nil_iff] at hnew
  rw [hnew, List.append_nil] at hhits
  unfold hits at hhits
  simp only [lastRun, selectRuns, Table.newest, hhits]

theorem summary_readRun {id : ℕ} (h : NoNul [run.status, run.trigger]) :
    (readRun (selected .id runSelect ⟨id, (runRow run : _ → Cell V)⟩)).summary = run.summary := by
  have hstatus : cString run.status = run.status := cString_eq_self (h _ (by simp))
  have htrigger : cString run.trigger = run.trigger := cString_eq_self (h _ (by simp))
  rw [readRun_runRow]
  simp only [RunRecord.summary, RunRecord.stored, hstatus, htrigger]

/-- No run of a job is later than the one `last_run` gives back. -/
theorem le_lastRun {last : RunRecord} (h : db.lastRun name = some last) :
    ∀ earlier ∈ db.recentRuns name (-1), earlier.startedAt ≤ last.startedAt := by
  intro earlier hearlier
  rw [lastRun, selectRuns, List.head?_map, Option.map_eq_some_iff] at h
  obtain ⟨row, hhead, rfl⟩ := h
  have hone : db.runs.newest (fun row => (row .startedAt).columnInt64)
      (fun row => (row .jobName).isText name) 1 = [row] := by
    rw [Table.newest, atMost, if_neg (by decide)] at hhead ⊢
    cases hlist : (db.runs.rows.filter fun row => (row.val .jobName).isText name).insertionSort
        (Newer fun row => (row .startedAt).columnInt64) with
    | nil =>
        rw [hlist] at hhead
        cases hhead
    | cons a l =>
        rw [hlist] at hhead
        obtain rfl : a = row := by simpa using hhead
        rfl
  obtain ⟨row', hrow', rfl⟩ := List.mem_map.mp hearlier
  obtain ⟨hmem, hname⟩ := Table.mem_newest_all.mp hrow'
  exact Table.le_of_newest_one hone hmem hname

/-- The runs of a job after the insertions are its old ones and those inserted. -/
theorem mem_recentRuns_insertRuns {earlier : RunRecord}
    (h : earlier ∈ (db.insertRuns runs).recentRuns name (-1)) :
    earlier ∈ db.recentRuns name (-1) ∨
      ∃ run ∈ storedUnder name runs, earlier.startedAt = run.startedAt := by
  obtain ⟨row, hrow, rfl⟩ := List.mem_map.mp h
  obtain ⟨hmem, hname⟩ := Table.mem_newest_all.mp hrow
  have hhit : row ∈ (db.insertRuns runs).hits name := List.mem_filter.mpr ⟨hmem, hname⟩
  obtain ⟨new, hhits, hnew⟩ := hits_insertRuns db runs name
  rw [hhits] at hhit
  obtain hold | hinserted := List.mem_append.mp hhit
  · obtain ⟨hmem, hname⟩ := List.mem_filter.mp hold
    exact Or.inl (List.mem_map_of_mem (Table.mem_newest_all.mpr ⟨hmem, hname⟩))
  · have hval := List.mem_map_of_mem (f := Row.val) hinserted
    rw [hnew] at hval
    obtain ⟨run, hrun, heq⟩ := List.mem_map.mp hval
    obtain ⟨id, val⟩ := row
    obtain rfl : runRow run = val := heq
    exact Or.inr ⟨run, hrun, rfl⟩

/-- The summaries agree exactly if the run inserted last, or the last run before
the insertions, is not older than any run of the job. -/
theorem lastRun_insertRuns_iff (db : Database V) (name : Bytes)
    (hnul : ∀ run ∈ runs, NoNul [run.status, run.trigger]) :
    ((db.insertRuns runs).lastRun name).map RunRecord.summary =
        ((storedUnder name runs).getLast?.or (db.lastRun name)).map RunRecord.summary ↔
      ∀ last ∈ (storedUnder name runs).getLast?.or (db.lastRun name),
        ∀ earlier ∈ (db.insertRuns runs).recentRuns name (-1),
          earlier.startedAt ≤ last.startedAt := by
  obtain hnil | ⟨init, last, hlast⟩ := (storedUnder name runs).eq_nil_or_concat
  · rw [lastRun_insertRuns_of_nil hnil, hnil]
    refine iff_of_true rfl fun last hmem => ?_
    exact le_lastRun ((lastRun_insertRuns_of_nil hnil).trans hmem)
  · rw [List.concat_eq_append] at hlast
    have hmem : last ∈ runs := by
      have hstored : last ∈ storedUnder name runs := by simp [hlast]
      exact List.mem_of_mem_filter hstored
    rw [hlast, List.getLast?_concat, Option.some_or]
    simp only [Option.map_some, Option.mem_def, Option.some.injEq, forall_eq']
    constructor
    · intro hsummary earlier hearlier
      obtain ⟨found, hfound, heq⟩ := Option.map_eq_some_iff.mp hsummary
      have hstart : found.startedAt = last.startedAt := congrArg LastRun.startedAt heq
      rw [← hstart]
      exact le_lastRun hfound earlier hearlier
    · intro hall
      obtain ⟨new, hhits, hnew⟩ := hits_insertRuns db runs name
      rw [hlast, List.map_append, List.map_singleton] at hnew
      obtain ⟨newInit, tail, rfl, hinit, htail⟩ := List.map_eq_append_iff.mp hnew
      obtain ⟨row, rfl, hrow⟩ := List.map_eq_singleton_iff.mp htail
      have hone : (db.insertRuns runs).runs.newest (fun row => (row .startedAt).columnInt64)
          (fun row => (row .jobName).isText name) 1 = [row] := by
        refine Table.newest_one_of_last (hhits.trans (List.append_assoc _ _ _).symm) ?_
        intro row' hrow'
        have hhit : row' ∈ (db.insertRuns runs).hits name := by
          rw [hhits]
          simp only [List.mem_append, List.mem_singleton] at hrow' ⊢
          tauto
        obtain ⟨hrow', hname⟩ := List.mem_filter.mp hhit
        have hle := hall _ (List.mem_map_of_mem (Table.mem_newest_all.mpr ⟨hrow', hname⟩))
        rw [hrow]
        exact hle
      obtain ⟨id, val⟩ := row
      obtain rfl : val = runRow last := hrow
      rw [lastRun, selectRuns, hone, List.map_singleton, List.head?_singleton, Option.map_some,
        summary_readRun (hnul last hmem)]

end Database

end AgentPulse
