import Mathlib.Tactic.Positivity
import Mathlib.Tactic.Ring
import Mathlib.Order.Bounds.Basic

/-!
# Bounded search along an arithmetic progression

The search tests `t, t + d, t + 2d, ...` and stops at the first hit or when
its budget of tests is used up. Both outcomes are characterised exactly, for
every predicate and every stride, including a negative one.
-/

namespace StrideSearch

/-- Test at most `n` points from `t` on, in steps of `d`, and return the first hit. -/
def search (p : Int → Bool) (d : Int) : Nat → Int → Option Int
  | 0, _ => none
  | n + 1, t => if p t then some t else search p d n (t + d)

/-- A hit is the first point of the progression on which the predicate holds. -/
theorem search_eq_some_iff (p : Int → Bool) (d : Int) (n : Nat) (t u : Int) :
    search p d n t = some u ↔
      ∃ k < n, u = t + k * d ∧ p u = true ∧ ∀ i < k, p (t + i * d) = false := by
  induction n generalizing t with
  | zero => simp [search]
  | succ n ih =>
      by_cases hp : p t = true
      · simp only [search, hp, if_true, Option.some.injEq]
        constructor
        · rintro rfl
          exact ⟨0, by omega, by simp, hp, by omega⟩
        · rintro ⟨k, _, hu, _, hk⟩
          cases k with
          | zero => simpa using hu.symm
          | succ k =>
              have h0 := hk 0 (by omega)
              simp [hp] at h0
      · simp only [search, hp]
        rw [if_neg (by simp), ih]
        constructor
        · rintro ⟨k, hk, hu, hpu, hlt⟩
          refine ⟨k + 1, by omega, by rw [hu]; push_cast; ring, hpu, ?_⟩
          intro i hi
          cases i with
          | zero => simpa using hp
          | succ i =>
              have h := hlt i (by omega)
              have he : t + d + i * d = t + (i + 1 : Nat) * d := by push_cast; ring
              rwa [he] at h
        · rintro ⟨k, hk, hu, hpu, hlt⟩
          cases k with
          | zero =>
              simp only [Nat.cast_zero, zero_mul, add_zero] at hu
              exact absurd (hu ▸ hpu) hp
          | succ k =>
              refine ⟨k, by omega, by rw [hu]; push_cast; ring, hpu, ?_⟩
              intro i hi
              have h := hlt (i + 1) (by omega)
              have he : t + d + i * d = t + (i + 1 : Nat) * d := by push_cast; ring
              rwa [he]

/-- The search gives up exactly when the predicate fails on its whole budget. -/
theorem search_eq_none_iff (p : Int → Bool) (d : Int) (n : Nat) (t : Int) :
    search p d n t = none ↔ ∀ k < n, p (t + k * d) = false := by
  induction n generalizing t with
  | zero => simp [search]
  | succ n ih =>
      by_cases hp : p t = true
      · simp only [search, hp, if_true, reduceCtorEq, false_iff, not_forall]
        exact ⟨0, by omega, by simp [hp]⟩
      · simp only [search, hp]
        rw [if_neg (by simp), ih]
        constructor
        · intro h k hk
          cases k with
          | zero => simpa using hp
          | succ k =>
              have he : t + (k + 1 : Nat) * d = t + d + k * d := by push_cast; ring
              rw [he]
              exact h k (by omega)
        · intro h k hk
          have he : t + d + k * d = t + (k + 1 : Nat) * d := by push_cast; ring
          rw [he]
          exact h (k + 1) (by omega)

section Bounds

variable {p : Int → Bool} {d s u : Int} {n : Nat}

/-- The points of the first `n` steps, by their place. -/
theorem exists_step_iff (hd : 0 < d) :
    (∃ k < n, u = s + (k : Nat) * d) ↔ s ≤ u ∧ d ∣ u - s ∧ u < s + n * d := by
  constructor
  · rintro ⟨k, hk, rfl⟩
    have hnonneg : 0 ≤ (k : Int) * d := by positivity
    have hlt : (k : Int) * d < n * d := mul_lt_mul_of_pos_right (by exact_mod_cast hk) hd
    exact ⟨by omega, ⟨k, by ring⟩, by omega⟩
  · rintro ⟨hle, ⟨k, hk⟩, hlt⟩
    have hu : u = s + k * d := by rw [mul_comm]; omega
    have hnonneg : 0 ≤ k := nonneg_of_mul_nonneg_right (by omega : 0 ≤ d * k) hd
    have hkn : k * d < n * d := by omega
    have hlt : k < n := lt_of_mul_lt_mul_right hkn hd.le
    exact ⟨k.toNat, by omega, by rw [hu, Int.toNat_of_nonneg hnonneg]⟩

/-- A forward search returns the least hit among the points of its budget. -/
theorem search_eq_some_iff_isLeast (hd : 0 < d) :
    search p d n s = some u ↔
      IsLeast {v | s ≤ v ∧ d ∣ v - s ∧ p v = true} u ∧ u < s + n * d := by
  rw [search_eq_some_iff]
  constructor
  · rintro ⟨k, hk, hu, hpu, hfirst⟩
    obtain ⟨hle, hdvd, hlt⟩ := (exists_step_iff hd).mp ⟨k, hk, hu⟩
    refine ⟨⟨⟨hle, hdvd, hpu⟩, ?_⟩, hlt⟩
    rintro v ⟨hv, hvd, hpv⟩
    by_contra hvu
    obtain ⟨i, hi, rfl⟩ := (exists_step_iff (n := k) hd).mpr ⟨hv, hvd, by omega⟩
    rw [hfirst i hi] at hpv
    cases hpv
  · rintro ⟨⟨⟨hle, hdvd, hpu⟩, hleast⟩, hlt⟩
    obtain ⟨k, hk, hu⟩ := (exists_step_iff hd).mpr ⟨hle, hdvd, hlt⟩
    refine ⟨k, hk, hu, hpu, ?_⟩
    intro i hi
    obtain ⟨hv, hvd, hvu⟩ := (exists_step_iff hd).mp ⟨i, hi, rfl⟩
    rw [← Bool.not_eq_true]
    intro hpv
    have huv := hleast ⟨hv, hvd, hpv⟩
    omega

/-- A forward search gives up if there is no hit among the points of its budget. -/
theorem search_eq_none_iff_of_pos (hd : 0 < d) :
    search p d n s = none ↔ ∀ v, s ≤ v → d ∣ v - s → v < s + n * d → p v = false := by
  rw [search_eq_none_iff]
  constructor
  · intro h v hv hvd hlt
    obtain ⟨k, hk, rfl⟩ := (exists_step_iff hd).mpr ⟨hv, hvd, hlt⟩
    exact h k hk
  · intro h k hk
    obtain ⟨hv, hvd, hlt⟩ := (exists_step_iff hd).mp ⟨k, hk, rfl⟩
    exact h _ hv hvd hlt

/-- A backward search is a forward search on the reflected line. -/
theorem search_reflect (n : Nat) (s : Int) :
    search p (-d) n s = (search (fun v => p (-v)) d n (-s)).map fun v => -v := by
  induction n generalizing s with
  | zero => rfl
  | succ n ih =>
      have hnext : -(s + -d) = -s + d := by ring
      simp only [search, neg_neg, ih, hnext]
      split_ifs
      · simp
      · rfl

/-- A backward search returns the greatest hit among the points of its budget. -/
theorem search_eq_some_iff_isGreatest (hd : 0 < d) :
    search p (-d) n s = some u ↔
      IsGreatest {v | v ≤ s ∧ d ∣ s - v ∧ p v = true} u ∧ s - n * d < u := by
  have hneg : ∀ v, s - -v = v - -s := fun v => by ring
  rw [search_reflect, Option.map_eq_some_iff]
  constructor
  · rintro ⟨w, hw, rfl⟩
    obtain ⟨⟨⟨hle, hdvd, hp⟩, hleast⟩, hlt⟩ := (search_eq_some_iff_isLeast hd).mp hw
    refine ⟨⟨⟨by omega, (hneg w).symm ▸ hdvd, hp⟩, ?_⟩, by omega⟩
    rintro v ⟨hv, hvd, hpv⟩
    have hwv : w ≤ -v := hleast ⟨by omega, by rwa [← hneg, neg_neg], by rwa [neg_neg]⟩
    omega
  · rintro ⟨⟨⟨hle, hdvd, hp⟩, hgreatest⟩, hlt⟩
    refine ⟨-u, (search_eq_some_iff_isLeast hd).mpr ⟨⟨⟨by omega, ?_, ?_⟩, ?_⟩, by omega⟩,
      neg_neg u⟩
    · rwa [← hneg, neg_neg]
    · rwa [neg_neg]
    · rintro v ⟨hv, hvd, hpv⟩
      have hvu : -v ≤ u := hgreatest ⟨by omega, by rwa [hneg], hpv⟩
      omega

/-- A backward search gives up if there is no hit among the points of its budget. -/
theorem search_eq_none_iff_of_neg (hd : 0 < d) :
    search p (-d) n s = none ↔ ∀ v, v ≤ s → d ∣ s - v → s - n * d < v → p v = false := by
  have hneg : ∀ v, s - -v = v - -s := fun v => by ring
  rw [search_reflect, Option.map_eq_none_iff, search_eq_none_iff_of_pos hd]
  constructor
  · intro h v hv hvd hlt
    have hv' := h (-v) (by omega) (by rwa [← hneg, neg_neg]) (by omega)
    rwa [neg_neg] at hv'
  · intro h v hv hvd hlt
    exact h (-v) (by omega) (by rwa [hneg]) (by omega)

end Bounds

end StrideSearch
