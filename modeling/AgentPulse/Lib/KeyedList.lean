import Mathlib.Data.List.Nodup
import Mathlib.Data.List.Perm.Basic

/-!
# Lists searched by a key

A list whose elements have pairwise distinct keys is a finite map. The search
for a key is then membership, and the order of the list does not matter.
-/

namespace KeyedList

variable {α β : Type*} [DecidableEq β] {f : α → β} {l m : List α} {a : α} {b : β}

theorem find?_eq_none_iff : l.find? (fun x => f x = b) = none ↔ b ∉ l.map f := by
  simp

theorem find?_mem (h : l.find? (fun x => f x = b) = some a) : a ∈ l ∧ f a = b :=
  ⟨List.mem_of_find?_eq_some h, by simpa using List.find?_some h⟩

/-- With distinct keys the search finds exactly the element with that key. -/
theorem find?_eq_some_iff (hn : (l.map f).Nodup) :
    l.find? (fun x => f x = b) = some a ↔ a ∈ l ∧ f a = b := by
  constructor
  · exact find?_mem
  · rintro ⟨hmem, rfl⟩
    cases hfind : l.find? (fun x => f x = f a) with
    | none => exact absurd (List.mem_map_of_mem hmem) (find?_eq_none_iff.mp hfind)
    | some c =>
        obtain ⟨hc, hkey⟩ := find?_mem hfind
        rw [List.inj_on_of_nodup_map hn hc hmem hkey]

/-- A permutation of a list with distinct keys answers every search alike. -/
theorem find?_perm (hp : l.Perm m) (hn : (l.map f).Nodup) (b : β) :
    l.find? (fun x => f x = b) = m.find? (fun x => f x = b) := by
  apply Option.ext
  intro a
  rw [find?_eq_some_iff hn, find?_eq_some_iff ((hp.map f).nodup_iff.mp hn), hp.mem_iff]

/-- If every element produces at most one value, under its own key, the values
under a key are those of the element with that key. -/
theorem filter_filterMap_key {γ : Type*} {g : α → Option γ} {k : γ → β}
    (hg : ∀ x ∈ l, ∀ y ∈ g x, k y = f x) (hn : (l.map f).Nodup) (ha : a ∈ l) :
    (l.filterMap g).filter (fun y => k y = f a) = (g a).toList := by
  have hother : ∀ m ⊆ l, f a ∉ m.map f → (m.filterMap g).filter (fun y => k y = f a) = [] := by
    intro m hsub hm
    rw [List.filter_eq_nil_iff]
    intro y hy
    obtain ⟨x, hx, hxy⟩ := List.mem_filterMap.mp hy
    rw [hg x (hsub hx) y hxy]
    simp only [decide_eq_true_eq]
    exact fun heq => hm (heq ▸ List.mem_map_of_mem hx)
  obtain ⟨before, after, rfl⟩ := List.append_of_mem ha
  rw [List.map_append, List.map_cons, List.nodup_append] at hn
  obtain ⟨_, hafter, hdisjoint⟩ := hn
  have hself : (g a).toList.filter (fun y => k y = f a) = (g a).toList := by
    rw [List.filter_eq_self]
    intro y hy
    simpa using hg a ha y (Option.mem_toList.mp hy)
  have hbefore : f a ∉ before.map f := fun hmem => hdisjoint _ hmem _ List.mem_cons_self rfl
  rw [List.filterMap_append, List.filter_append, hother before (by simp) hbefore, List.nil_append,
    List.filterMap_cons]
  have hrest := hother after (by intro x hx; simp [hx]) (List.nodup_cons.mp hafter).1
  cases hga : g a with
  | none => exact hrest
  | some y =>
      rw [hga] at hself
      simpa [List.filter_cons, hrest] using hself

/-- The search for a key among the produced values asks the element with that key. -/
theorem find?_filterMap_key {γ : Type*} {g : α → Option γ} {k : γ → β}
    (hg : ∀ x ∈ l, ∀ y ∈ g x, k y = f x) (hn : (l.map f).Nodup) (ha : a ∈ l) :
    (l.filterMap g).find? (fun y => k y = f a) = g a := by
  rw [← List.head?_filter, filter_filterMap_key hg hn ha]
  cases g a with
  | none => rfl
  | some y => rfl

omit [DecidableEq β] in
/-- The produced values have distinct keys. -/
theorem nodup_filterMap_key {γ : Type*} {g : α → Option γ} {k : γ → β}
    (hg : ∀ x ∈ l, ∀ y ∈ g x, k y = f x) (hn : (l.map f).Nodup) :
    ((l.filterMap g).map k).Nodup := by
  induction l with
  | nil => simp
  | cons x l ih =>
      obtain ⟨hx, hl⟩ := List.nodup_cons.mp (List.map_cons ▸ hn)
      have hrest := ih (fun x' hx' => hg x' (List.mem_cons_of_mem _ hx')) hl
      cases hgx : g x with
      | none => rwa [List.filterMap_cons_none hgx]
      | some y =>
          rw [List.filterMap_cons_some hgx, List.map_cons, List.nodup_cons]
          refine ⟨fun hmem => hx ?_, hrest⟩
          obtain ⟨z, hz, hkey⟩ := List.mem_map.mp hmem
          obtain ⟨x', hx', hgz⟩ := List.mem_filterMap.mp hz
          rw [← hg x List.mem_cons_self y hgx, ← hkey, hg x' (List.mem_cons_of_mem _ hx') z hgz]
          exact List.mem_map_of_mem hx'

omit [DecidableEq β] in
/-- If no value is produced twice, the place that produces it is unique. -/
theorem index_unique {g : α → Option β} (hn : (l.filterMap g).Nodup) {i j : Nat} {a a' : α}
    (hi : l[i]? = some a) (hj : l[j]? = some a') (ha : g a = some b) (ha' : g a' = some b) :
    i = j := by
  have hpairs := List.pairwise_iff_getElem.mp (List.pairwise_filterMap.mp hn)
  obtain ⟨hi', rfl⟩ := List.getElem?_eq_some_iff.mp hi
  obtain ⟨hj', rfl⟩ := List.getElem?_eq_some_iff.mp hj
  obtain hlt | heq | hgt := Nat.lt_trichotomy i j
  · exact absurd rfl (hpairs i j hi' hj' hlt b ha b ha')
  · exact heq
  · exact absurd rfl (hpairs j i hj' hi' hgt b ha' b ha)

section Updates

variable {γ : Type*} {g : α → γ} {i : Nat}

/-- An update of one element that keeps its key keeps all keys. -/
theorem map_modify_of_key {h : α → α} (hkey : ∀ x, g (h x) = g x) :
    (l.modify i h).map g = l.map g := by
  apply List.ext_getElem?
  intro k
  rw [List.getElem?_map, List.getElem?_map, List.getElem?_modify]
  cases l[k]? with
  | none => rfl
  | some x => by_cases hik : i = k <;> simp [hik, hkey]

theorem map_set_of_key {a' : α} (hget : l[i]? = some a) (hkey : g a' = g a) :
    (l.set i a').map g = l.map g := by
  obtain ⟨hlt, rfl⟩ := List.getElem?_eq_some_iff.mp hget
  apply List.ext_getElem?
  intro k
  rw [List.map_set, hkey, List.getElem?_set]
  by_cases hik : i = k
  · simp [← hik, hlt]
  · simp [hik]

end Updates

end KeyedList
