import Mathlib.Data.Finset.Union
import Mathlib.Data.List.Nodup

/-!
# The first elements of their keys

A list is read from the left with a set of keys that grows, and an element is
kept if its key is new. What is kept of a key is the first element that has it.
-/

namespace FirstSeen

variable {α κ : Type*} [DecidableEq κ] {key : α → κ} {seen : Finset κ} {l m : List α} {a : α}

/-- The elements whose key is new, given the keys seen before. -/
def fresh (key : α → κ) (seen : Finset κ) : List α → List α
  | [] => []
  | a :: l =>
      if key a ∈ seen then fresh key seen l else a :: fresh key (insert (key a) seen) l

/-- What is kept of a longer list is kept with the keys of its first part seen. -/
theorem fresh_append :
    fresh key seen (l ++ m) = fresh key seen l ++ fresh key (seen ∪ (l.map key).toFinset) m := by
  induction l generalizing seen with
  | nil => simp [fresh]
  | cons a l ih =>
      rw [List.cons_append, fresh, fresh]
      by_cases ha : key a ∈ seen
      · rw [if_pos ha, if_pos ha, ih]
        congr 2
        ext k
        simp only [List.map_cons, List.toFinset_cons, Finset.mem_union, Finset.mem_insert]
        constructor
        · exact fun h => h.imp_right Or.inr
        · rintro (h | rfl | h)
          · exact Or.inl h
          · exact Or.inl ha
          · exact Or.inr h
      · rw [if_neg ha, if_neg ha, ih, List.cons_append, Finset.insert_union, List.map_cons,
          List.toFinset_cons, Finset.union_insert]

/-- An element is kept if it is the first of its key and the key is new. -/
theorem mem_fresh_iff :
    a ∈ fresh key seen l ↔ key a ∉ seen ∧ l.find? (fun b => key b = key a) = some a := by
  induction l generalizing seen with
  | nil => simp [fresh]
  | cons b l ih =>
      rw [fresh]
      by_cases hseen : key b ∈ seen
      · rw [if_pos hseen, ih]
        by_cases hkey : key b = key a
        · simp [← hkey, hseen]
        · rw [List.find?_cons_of_neg (by simpa using hkey)]
      · rw [if_neg hseen, List.mem_cons, ih]
        by_cases hkey : key b = key a
        · rw [List.find?_cons_of_pos (by simpa using hkey)]
          simp [← hkey, hseen, eq_comm]
        · have hne : a ≠ b := fun heq => hkey (heq ▸ rfl)
          rw [List.find?_cons_of_neg (by simpa using hkey)]
          simp [hne, Ne.symm hkey]

/-- At most one element of a key is kept. -/
theorem nodup_fresh : ((fresh key seen l).map key).Nodup := by
  induction l generalizing seen with
  | nil => simp [fresh]
  | cons a l ih =>
      rw [fresh]
      split_ifs
      · exact ih
      · rw [List.map_cons, List.nodup_cons]
        refine ⟨fun hmem => ?_, ih⟩
        obtain ⟨b, hb, hkey⟩ := List.mem_map.mp hmem
        exact (mem_fresh_iff.mp hb).1 (hkey ▸ Finset.mem_insert_self _ _)

end FirstSeen
