import Mathlib.Data.List.Nodup
import Mathlib.Data.List.Sort

/-!
# Tables of numbered rows

A row is numbered above all rows before it. A query lists the rows that meet a
condition, the latest first and, of two with one time, the one with the larger
number; a limit cuts the list.
-/

namespace RowTable

universe u

variable {α : Type u}

/-- A row with its number. -/
structure Row (α : Type u) where
  id : ℕ
  val : α

/-- The rows in the order of their insertion, with increasing numbers. -/
structure Table (α : Type u) where
  rows : List (Row α)
  increasing : (rows.map Row.id).Pairwise (· < ·)

namespace Table

def empty : Table α := ⟨[], List.Pairwise.nil⟩

/-- The number of the next row. -/
def nextId (t : Table α) : ℕ := (t.rows.map Row.id).foldr max 0 + 1

theorem id_lt_nextId {t : Table α} {r : Row α} (h : r ∈ t.rows) : r.id < t.nextId := by
  have hle : ∀ l : List ℕ, ∀ n ∈ l, n ≤ l.foldr max 0 := by
    intro l
    induction l with
    | nil => simp
    | cons m l ih =>
        intro n hn
        rw [List.foldr_cons]
        obtain rfl | hn := List.mem_cons.mp hn
        · exact le_max_left _ _
        · exact (ih n hn).trans (le_max_right _ _)
  exact Nat.lt_succ_of_le (hle _ _ (List.mem_map_of_mem h))

/-- A new row comes last. -/
def insert (t : Table α) (a : α) : Table α where
  rows := t.rows ++ [⟨t.nextId, a⟩]
  increasing := by
    rw [List.map_append, List.pairwise_append]
    refine ⟨t.increasing, List.pairwise_singleton _ _, ?_⟩
    intro n hn m hm
    obtain ⟨r, hr, rfl⟩ := List.mem_map.mp hn
    rw [List.mem_singleton.mp hm]
    exact id_lt_nextId hr

theorem mem_insert {t : Table α} {a : α} {r : Row α} :
    r ∈ (t.insert a).rows ↔ r ∈ t.rows ∨ r = ⟨t.nextId, a⟩ := by
  simp [insert]

/-- Rows with one number are one row. -/
theorem eq_of_id_eq {t : Table α} {r r' : Row α} (hr : r ∈ t.rows) (hr' : r' ∈ t.rows)
    (h : r.id = r'.id) : r = r' :=
  List.inj_on_of_nodup_map (t.increasing.imp fun hlt => ne_of_lt hlt) hr hr' h

end Table

section Queries

variable (time : α → Int) (p : α → Bool)

/-- The first row is listed before the second. -/
def Newer (r r' : Row α) : Prop :=
  time r'.val < time r.val ∨ time r'.val = time r.val ∧ r'.id ≤ r.id

instance : DecidableRel (Newer time) := fun _ _ => inferInstanceAs (Decidable (_ ∨ _))

instance : Std.Total (Newer time) where
  total r r' := by
    unfold Newer
    omega

instance : IsTrans (Row α) (Newer time) where
  trans r r' r'' := by
    unfold Newer
    omega

/-- A negative limit is none. -/
def atMost {β : Type*} (limit : Int) (l : List β) : List β :=
  if limit < 0 then l else l.take limit.toNat

/-- The rows that meet the condition, the latest first. -/
def Table.newest (t : Table α) (limit : Int) : List (Row α) :=
  atMost limit ((t.rows.filter (p ·.val)).insertionSort (Newer time))

variable {time p} {t : Table α} {r : Row α} {limit : Int}

/-- Without a limit every row that meets the condition is listed. -/
theorem Table.mem_newest_all : r ∈ t.newest time p (-1) ↔ r ∈ t.rows ∧ p r.val = true := by
  rw [Table.newest, atMost, if_pos (by decide), List.mem_insertionSort, List.mem_filter]

/-- A limit that is not below the number of hits changes nothing. -/
theorem Table.newest_of_covers
    (h : limit < 0 ∨ ((t.newest time p (-1)).length : Int) ≤ limit) :
    t.newest time p limit = t.newest time p (-1) := by
  have hall : t.newest time p (-1) = (t.rows.filter (p ·.val)).insertionSort (Newer time) := by
    rw [Table.newest, atMost, if_pos (by decide)]
  rw [hall] at h ⊢
  rw [Table.newest, atMost]
  split_ifs with hlimit
  · rfl
  · exact List.take_of_length_le (by omega)

/-- The first row listed is the one that comes before all others. -/
theorem Table.newest_one (hr : r ∈ t.rows) (hp : p r.val = true)
    (hfirst : ∀ r' ∈ t.rows, p r'.val = true → Newer time r r') : t.newest time p 1 = [r] := by
  have hmem : r ∈ (t.rows.filter (p ·.val)).insertionSort (Newer time) := by
    rw [List.mem_insertionSort, List.mem_filter]
    exact ⟨hr, hp⟩
  have hsorted := List.pairwise_insertionSort (Newer time) (t.rows.filter (p ·.val))
  have hhits : ∀ r' ∈ (t.rows.filter (p ·.val)).insertionSort (Newer time),
      r' ∈ t.rows ∧ p r'.val = true := by
    intro r' hr'
    rwa [List.mem_insertionSort, List.mem_filter] at hr'
  rw [Table.newest, atMost, if_neg (by decide)]
  cases hlist : (t.rows.filter (p ·.val)).insertionSort (Newer time) with
  | nil =>
      rw [hlist] at hmem
      cases hmem
  | cons a l =>
      rw [hlist] at hmem hsorted hhits
      obtain ⟨ha, hpa⟩ := hhits a List.mem_cons_self
      have hafter := hfirst a ha hpa
      have hfront : a = r := by
        obtain rfl | hmem := List.mem_cons.mp hmem
        · rfl
        · have hbefore := (List.pairwise_cons.mp hsorted).1 r hmem
          apply Table.eq_of_id_eq ha hr
          unfold Newer at hafter hbefore
          omega
      rw [hfront]
      rfl

/-- A new row is listed under every limit that covers the hits. -/
theorem Table.mem_newest_insert {a : α} (hp : p a = true)
    (h : limit < 0 ∨ (((t.insert a).newest time p (-1)).length : Int) ≤ limit) :
    ⟨t.nextId, a⟩ ∈ (t.insert a).newest time p limit := by
  rw [Table.newest_of_covers h, Table.mem_newest_all]
  exact ⟨Table.mem_insert.mpr (Or.inr rfl), hp⟩

/-- A new row that is not older than the hits is the first one listed. -/
theorem Table.newest_one_insert {a : α} (hp : p a = true)
    (h : ∀ r ∈ t.rows, p r.val = true → time r.val ≤ time a) :
    (t.insert a).newest time p 1 = [⟨t.nextId, a⟩] := by
  apply Table.newest_one (Table.mem_insert.mpr (Or.inr rfl)) hp
  intro r hr hpr
  obtain hold | rfl := Table.mem_insert.mp hr
  · have hid := Table.id_lt_nextId hold
    have htime := h r hold hpr
    simp only [Newer]
    omega
  · exact Or.inr ⟨rfl, le_rfl⟩

/-- The last hit has the largest number, so it is the first one listed as soon
as it is not older than the others. -/
theorem Table.newest_one_of_last {init : List (Row α)}
    (hlast : t.rows.filter (p ·.val) = init ++ [r])
    (h : ∀ r' ∈ init, time r'.val ≤ time r.val) : t.newest time p 1 = [r] := by
  have hmem : ∀ r', r' ∈ t.rows ∧ p r'.val = true ↔ r' ∈ init ++ [r] := by
    intro r'
    rw [← hlast, List.mem_filter]
  have hincreasing : ((init ++ [r]).map Row.id).Pairwise (· < ·) := by
    rw [← hlast]
    exact t.increasing.sublist (List.filter_sublist.map _)
  rw [List.map_append, List.pairwise_append] at hincreasing
  obtain ⟨hr, hp⟩ := (hmem r).mpr (by simp)
  apply Table.newest_one hr hp
  intro r' hr' hp'
  obtain hold | hnew := List.mem_append.mp ((hmem r').mp ⟨hr', hp'⟩)
  · have hid := hincreasing.2.2 _ (List.mem_map_of_mem hold) r.id (by simp)
    have htime := h r' hold
    simp only [Newer]
    omega
  · rw [List.mem_singleton.mp hnew]
    exact Or.inr ⟨rfl, le_rfl⟩

/-- The first row listed is not older than any hit. -/
theorem Table.le_of_newest_one (h : t.newest time p 1 = [r]) {r' : Row α} (hr' : r' ∈ t.rows)
    (hp' : p r'.val = true) : time r'.val ≤ time r.val := by
  have hsorted := List.pairwise_insertionSort (Newer time) (t.rows.filter (p ·.val))
  have hmem : r' ∈ (t.rows.filter (p ·.val)).insertionSort (Newer time) := by
    rw [List.mem_insertionSort, List.mem_filter]
    exact ⟨hr', hp'⟩
  rw [Table.newest, atMost, if_neg (by decide)] at h
  cases hlist : (t.rows.filter (p ·.val)).insertionSort (Newer time) with
  | nil =>
      rw [hlist] at hmem
      cases hmem
  | cons a l =>
      rw [hlist] at hmem hsorted h
      obtain rfl : a = r := by simpa using h
      obtain rfl | hmem := List.mem_cons.mp hmem
      · exact le_rfl
      · have hnewer := (List.pairwise_cons.mp hsorted).1 r' hmem
        unfold Newer at hnewer
        omega

end Queries

end RowTable
