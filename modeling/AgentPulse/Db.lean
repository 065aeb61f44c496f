import AgentPulse.Config
import Mathlib.Data.List.Sort
import Mathlib.Data.List.TakeWhile
import Mathlib.Data.List.Nodup

/-!
# Persisted records and the table of client-defined jobs

The rows of `db.cpp` the scheduler reads and writes. SQLite is represented by
its documented effect: `job_defs` is a table keyed by name, and a text bound
with length `-1` is stored up to its first NUL byte.
-/

namespace AgentPulse

/-- A persisted job execution. -/
structure RunRecord where
  id : Int := 0
  jobName : Bytes
  startedAt : Int
  endedAt : Int
  status : Bytes
  exitCode : Int32
  durationMs : Int
  stdoutText : Bytes
  stderrText : Bytes
  trigger : Bytes
  deriving DecidableEq

/-- A client-defined job as the database stores it. -/
structure JobDef where
  name : Bytes
  command : Bytes
  scheduleExpr : Bytes
  missedRunPolicy : Bytes
  timeoutSeconds : Int32
  retries : Int32
  deriving DecidableEq

/-- The part of a byte string that `sqlite3_bind_text` with length `-1` stores. -/
def cString (s : Bytes) : Bytes := s.takeWhile (· != 0)

theorem cString_eq_self {s : Bytes} (h : (0 : UInt8) ∉ s) : cString s = s := by
  rw [cString, List.takeWhile_eq_self_iff]
  intro b hb
  rw [bne_iff_ne]
  rintro rfl
  exact h hb

theorem cString_eq_self_iff {s : Bytes} : cString s = s ↔ (0 : UInt8) ∉ s := by
  refine ⟨fun h h0 => ?_, cString_eq_self⟩
  rw [← h] at h0
  simpa using List.mem_takeWhile_imp h0

@[simp] theorem cString_cString (s : Bytes) : cString (cString s) = cString s := by
  simp [cString, List.takeWhile_idem]

theorem cString_append {p s : Bytes} (h : (0 : UInt8) ∉ p) : cString (p ++ s) = p ++ cString s := by
  apply List.takeWhile_append_of_pos
  intro b hb
  rw [bne_iff_ne]
  rintro rfl
  exact h hb

/-- The row a definition becomes when its texts are bound. -/
def JobDef.stored (d : JobDef) : JobDef :=
  { d with
    name := cString d.name
    command := cString d.command
    scheduleExpr := cString d.scheduleExpr
    missedRunPolicy := cString d.missedRunPolicy }

@[simp] theorem JobDef.stored_name (d : JobDef) : d.stored.name = cString d.name := rfl

@[simp] theorem JobDef.stored_stored (d : JobDef) : d.stored.stored = d.stored := by
  simp [JobDef.stored]

/-- The `job_defs` table. No two rows share a name, and every text of a row is
a C string. -/
structure JobTable where
  rows : List JobDef
  nodup : (rows.map JobDef.name).Nodup
  cStrings : ∀ d ∈ rows, d.stored = d

namespace JobTable

def empty : JobTable := ⟨[], List.nodup_nil, by simp⟩

/-- The names of the rows. -/
def names (t : JobTable) : List Bytes := t.rows.map JobDef.name

/-- `Database::upsert_job_def`: replace the row of that name or append a new one. -/
def upsertRows (rows : List JobDef) (d : JobDef) : List JobDef :=
  if d.name ∈ rows.map JobDef.name then
    rows.map fun row => if row.name = d.name then d else row
  else rows ++ [d]

theorem upsertRows_names (rows : List JobDef) (d : JobDef) :
    (upsertRows rows d).map JobDef.name =
      if d.name ∈ rows.map JobDef.name then rows.map JobDef.name
      else rows.map JobDef.name ++ [d.name] := by
  unfold upsertRows
  split
  · rw [List.map_map]
    apply List.map_congr_left
    intro row _
    by_cases h : row.name = d.name <;> simp [h]
  · simp

theorem mem_upsertRows {rows : List JobDef} {d row : JobDef}
    (h : row ∈ upsertRows rows d) : row ∈ rows ∨ row = d := by
  unfold upsertRows at h
  split at h
  · obtain ⟨old, hold, hrow⟩ := List.mem_map.mp h
    by_cases hn : old.name = d.name
    · exact Or.inr (by simpa [hn] using hrow.symm)
    · rw [if_neg hn] at hrow
      exact Or.inl (hrow ▸ hold)
  · simpa using h

def upsert (t : JobTable) (d : JobDef) : JobTable where
  rows := upsertRows t.rows d.stored
  nodup := by
    rw [upsertRows_names]
    split
    · exact t.nodup
    · next h => exact List.concat_eq_append ▸ List.Nodup.concat h t.nodup
  cStrings := by
    intro row hrow
    obtain hold | rfl := mem_upsertRows hrow
    · exact t.cStrings row hold
    · exact d.stored_stored

/-- `Database::delete_job_def`. -/
def delete (t : JobTable) (name : Bytes) : JobTable where
  rows := t.rows.filter fun row => row.name ≠ cString name
  nodup := (List.filter_sublist.map JobDef.name).nodup t.nodup
  cStrings := fun row hrow => t.cStrings row (List.mem_of_mem_filter hrow)

/-- `Database::load_job_defs`: all rows, ordered by name. -/
def load (t : JobTable) : List JobDef :=
  t.rows.insertionSort fun a b => a.name ≤ b.name

theorem load_perm (t : JobTable) : t.load.Perm t.rows :=
  List.perm_insertionSort _ _

theorem upsert_rows_of_not_mem {t : JobTable} {d : JobDef}
    (h : cString d.name ∉ t.names) : (t.upsert d).rows = t.rows ++ [d.stored] := by
  have h' : d.stored.name ∉ t.rows.map JobDef.name := h
  simp only [upsert, upsertRows, if_neg h']

/-- The rows after an upsert: the new one and those of other names. -/
theorem mem_upsert {t : JobTable} {d row : JobDef} :
    row ∈ (t.upsert d).rows ↔ row = d.stored ∨ row ∈ t.rows ∧ row.name ≠ cString d.name := by
  by_cases hname : d.stored.name ∈ t.rows.map JobDef.name
  · have hrows : (t.upsert d).rows =
        t.rows.map fun row => if row.name = d.stored.name then d.stored else row := if_pos hname
    rw [hrows, List.mem_map]
    constructor
    · rintro ⟨old, hold, rfl⟩
      split_ifs with hkey
      · exact Or.inl rfl
      · exact Or.inr ⟨hold, hkey⟩
    · rintro (rfl | ⟨hrow, hkey⟩)
      · obtain ⟨old, hold, hkey⟩ := List.mem_map.mp hname
        exact ⟨old, hold, if_pos hkey⟩
      · exact ⟨row, hrow, if_neg hkey⟩
  · rw [upsert_rows_of_not_mem hname, List.mem_append, List.mem_singleton, or_comm]
    refine or_congr_right (iff_self_and.mpr fun hrow hkey => hname ?_)
    exact List.mem_map.mpr ⟨row, hrow, hkey⟩

theorem mem_upsert_names {t : JobTable} {d : JobDef} {n : Bytes} :
    n ∈ (t.upsert d).names ↔ n ∈ t.names ∨ n = cString d.name := by
  have hnames : (t.upsert d).names = _ := upsertRows_names t.rows d.stored
  rw [hnames]
  by_cases h : d.stored.name ∈ t.rows.map JobDef.name
  · rw [if_pos h]
    constructor
    · exact Or.inl
    · rintro (hn | rfl)
      · exact hn
      · exact h
  · rw [if_neg h, List.mem_append, List.mem_singleton]
    exact Iff.rfl

theorem mem_delete_names {t : JobTable} {name n : Bytes} :
    n ∈ (t.delete name).names ↔ n ∈ t.names ∧ n ≠ cString name := by
  simp only [names, delete, List.mem_map, List.mem_filter, decide_eq_true_eq]
  constructor
  · rintro ⟨row, ⟨hrow, hne⟩, rfl⟩
    exact ⟨⟨row, hrow, rfl⟩, hne⟩
  · rintro ⟨⟨row, hrow, rfl⟩, hne⟩
    exact ⟨row, ⟨hrow, hne⟩, rfl⟩

/-- The name of a row has no NUL byte. -/
theorem cString_of_mem_names {t : JobTable} {n : Bytes} (h : n ∈ t.names) : cString n = n := by
  obtain ⟨row, hrow, rfl⟩ := List.mem_map.mp h
  exact congrArg JobDef.name (t.cStrings row hrow)

end JobTable
end AgentPulse
