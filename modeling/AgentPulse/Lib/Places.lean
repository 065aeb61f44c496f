import Mathlib.Algebra.GroupWithZero.Nat
import Mathlib.Algebra.Order.BigOperators.Group.List
import Mathlib.Algebra.Order.Group.Nat

/-!
# The elements of a list and their places

A property of every element together with its place, kept when one element is
replaced, when the list grows at its end, and when a function is applied from
some place on. A sum over the list follows the same updates.
-/

namespace Places

variable {α : Type*} {P Q : ℕ → α → Prop} {l : List α} {a b : α} {f : α → α} {i k n : ℕ}

/-- Every element has the property at its place. -/
def AllAt (P : ℕ → α → Prop) (l : List α) : Prop := ∀ k a, l[k]? = some a → P k a

/-- Apply a function from place `n` on. -/
def mapFrom (n : ℕ) (f : α → α) (l : List α) : List α := l.take n ++ (l.drop n).map f

theorem getElem?_mapFrom (n : ℕ) (f : α → α) (l : List α) (k : ℕ) :
    (mapFrom n f l)[k]? = if k < n then l[k]? else l[k]?.map f := by
  rw [mapFrom]
  by_cases hk : k < l.length
  · by_cases hn : k < n
    · rw [if_pos hn, List.getElem?_append_left (by rw [List.length_take]; omega),
        List.getElem?_take_of_lt hn]
    · rw [if_neg hn, List.getElem?_append_right (by rw [List.length_take]; omega),
        List.getElem?_map, List.getElem?_drop, List.length_take]
      congr 2
      omega
  · rw [List.getElem?_eq_none (not_lt.mp hk), List.getElem?_eq_none]
    · simp
    · rw [List.length_append, List.length_map, List.length_take, List.length_drop]
      omega

theorem length_mapFrom (n : ℕ) (f : α → α) (l : List α) : (mapFrom n f l).length = l.length := by
  rw [mapFrom, List.length_append, List.length_map, List.length_take, List.length_drop]
  omega

theorem allAt_nil : AllAt P [] := by
  intro k a h
  cases h

theorem AllAt.mono (h : AllAt P l) (hmono : ∀ k a, l[k]? = some a → P k a → Q k a) :
    AllAt Q l :=
  fun k a hget => hmono k a hget (h k a hget)

/-- A replaced element needs the property, the others keep it. -/
theorem AllAt.set (h : AllAt P l) (hself : Q i b) (hother : ∀ k a, k ≠ i → P k a → Q k a) :
    AllAt Q (l.set i b) := by
  intro k a hget
  rw [List.getElem?_set] at hget
  split_ifs at hget with hik hlt
  · cases hget
    exact hik ▸ hself
  · exact hother k a (Ne.symm hik) (h k a hget)

theorem AllAt.concat (h : AllAt P l) (ha : P l.length a) : AllAt P (l ++ [a]) := by
  intro k b hget
  rw [List.getElem?_append] at hget
  split_ifs at hget with hk
  · exact h k b hget
  · have hlt := (List.getElem?_eq_some_iff.mp hget).1
    rw [List.length_singleton] at hlt
    obtain rfl : k = l.length := by omega
    rw [Nat.sub_self] at hget
    cases hget
    exact ha

theorem AllAt.mapFrom (h : AllAt P l) (hbefore : ∀ k a, k < n → P k a → Q k a)
    (hafter : ∀ k a, n ≤ k → P k a → Q k (f a)) : AllAt Q (mapFrom n f l) := by
  intro k b hget
  rw [getElem?_mapFrom] at hget
  split_ifs at hget with hk
  · exact hbefore k b hk (h k b hget)
  · obtain ⟨a, ha, rfl⟩ := Option.map_eq_some_iff.mp hget
    exact hafter k a (not_lt.mp hk) (h k a ha)

/-- The sum after one element has been replaced. -/
theorem sum_map_set (g : α → ℕ) (hget : l[i]? = some a) :
    ((l.set i b).map g).sum + g a = (l.map g).sum + g b := by
  induction l generalizing i with
  | nil => cases hget
  | cons c l ih =>
      cases i with
      | zero =>
          cases hget
          simp only [List.set_cons_zero, List.map_cons, List.sum_cons]
          omega
      | succ i =>
          have hrest := ih (i := i) hget
          simp only [List.set_cons_succ, List.map_cons, List.sum_cons]
          omega

theorem sum_map_mapFrom_le (g : α → ℕ) (hle : ∀ a, g (f a) ≤ g a) :
    ((mapFrom n f l).map g).sum ≤ (l.map g).sum := by
  have hdrop : (((l.drop n).map f).map g).sum ≤ ((l.drop n).map g).sum := by
    rw [List.map_map]
    exact List.sum_le_sum fun a _ => hle a
  calc ((mapFrom n f l).map g).sum
      = ((l.take n).map g).sum + (((l.drop n).map f).map g).sum := by
        rw [mapFrom, List.map_append, List.sum_append]
    _ ≤ ((l.take n).map g).sum + ((l.drop n).map g).sum := Nat.add_le_add_left hdrop _
    _ = (l.map g).sum := by rw [← List.sum_append, ← List.map_append, List.take_append_drop]

end Places
