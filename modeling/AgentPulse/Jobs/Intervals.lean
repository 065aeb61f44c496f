import AgentPulse.Jobs.Scheduler

/-!
# The intervals between occurrences

The occurrences of a schedule cut time into intervals. The forward search, the
backward search and the detection of missed runs are separate loops with a
rounding of their own, and they agree on these intervals.
-/

namespace AgentPulse

/-- Two occurrences with none between them, the later one within the horizon of
the earlier one. -/
structure Consecutive (c : CronSchedule) (loc : LocalTime) (p u : Int) : Prop where
  left : c.Occurs loc p
  right : c.Occurs loc u
  lt : p < u
  gap : ∀ v, c.Occurs loc v → p < v → u ≤ v
  near : u ≤ p + 60 * CronSchedule.maxMinutes

section Intervals

variable {c : CronSchedule} {loc : LocalTime} {p u x t last : Int}

/-- The forward search from an occurrence ends at the other end of its interval. -/
theorem Consecutive.of_nextAfter (hp : c.Occurs loc p) (hu : c.nextAfter loc p = some u) :
    Consecutive c loc p u := by
  have hdvd := hp.1
  obtain ⟨⟨⟨hlt, hoccurs⟩, hleast⟩, hnear⟩ :=
    (CronSchedule.nextAfter_eq_some_iff (Or.inr hdvd)).mp hu
  exact ⟨hp, hoccurs, hlt, fun v hv hpv => hleast ⟨hpv, hv⟩, by omega⟩

/-- Within an interval the forward search ends at its right end. -/
theorem Consecutive.nextAfter_eq (h : Consecutive c loc p u) (hx : 0 ≤ x) (hpx : p ≤ x)
    (hxu : x < u) : c.nextAfter loc x = some u := by
  have hdvd := h.left.1
  have hnear := h.near
  apply (CronSchedule.nextAfter_eq_some_iff (Or.inl hx)).mpr
  refine ⟨⟨⟨hxu, h.right⟩, ?_⟩, by omega⟩
  rintro v ⟨hxv, hv⟩
  exact h.gap v hv (by omega)

/-- Within an interval the backward search ends at its left end. -/
theorem Consecutive.prevBefore_eq (h : Consecutive c loc p u) (hx : 0 ≤ x) (hpx : p ≤ x)
    (hxu : x < u) : c.prevBefore loc x = some p := by
  have hdvd := h.right.1
  have hnear := h.near
  apply (CronSchedule.prevBefore_eq_some_iff (Or.inl hx)).mpr
  refine ⟨⟨⟨hpx, h.left⟩, ?_⟩, by omega⟩
  rintro v ⟨hvx, hv⟩
  by_contra hpv
  have huv := h.gap v hv (by omega)
  omega

/-- At an occurrence the backward search ends at once. -/
theorem prevBefore_occurs (hx : 0 ≤ x) (h : c.Occurs loc x) : c.prevBefore loc x = some x := by
  have hdvd := h.1
  have hpos : (0 : Int) < CronSchedule.maxMinutes := by decide
  apply (CronSchedule.prevBefore_eq_some_iff (Or.inl hx)).mpr
  exact ⟨⟨⟨le_refl x, h⟩, fun v hv => hv.1⟩, by omega⟩

/-- A run is missed if the last one is before the occurrence found. -/
theorem detectMissedRun_eq (h : c.prevBefore loc x = some p) :
    detectMissedRun c loc last x = if last < p then some p else none := by
  rw [detectMissedRun, h]
  by_cases hlast : last < p
  · rw [if_pos hlast]
    exact if_neg (not_le.mpr hlast)
  · rw [if_neg hlast]
    exact if_pos (not_lt.mp hlast)

/-- The backward search finds an occurrence, and the forward search from it
passes the given time, also before the epoch. -/
theorem lt_nextAfter_of_prevBefore (ht : c.prevBefore loc x = some t)
    (hu : c.nextAfter loc t = some u) : x < u := by
  obtain ⟨⟨⟨hle, hdvd, hmatch⟩, hgreatest⟩, _⟩ :=
    (StrideSearch.search_eq_some_iff_isGreatest (by decide)).mp ht
  have hstart : (60 : Int) ∣ x - x.tmod 60 := Int.dvd_self_sub_tmod
  have hmod : x.tmod 60 < 60 := Int.tmod_lt_of_pos x (by decide)
  have hconsecutive : Consecutive c loc t u := .of_nextAfter ⟨by omega, hmatch⟩ hu
  have hu60 := hconsecutive.right.1
  have hlt := hconsecutive.lt
  by_contra hux
  have hut : u ≤ t := hgreatest ⟨by omega, by omega, hconsecutive.right.2⟩
  omega

/-- The two searches and the detection of missed runs agree on the intervals
between occurrences. -/
theorem searches_cohere (c : CronSchedule) (loc : LocalTime) :
    (∀ last now p u, 0 ≤ now → c.prevBefore loc now = some p → c.nextAfter loc p = some u →
      c.nextAfter loc now = some u ∧
      (∀ now', now ≤ now' → now' < u →
        detectMissedRun c loc last now' = if last < p then some p else none) ∧
      detectMissedRun c loc last u = if last < u then some u else none) ∧
    (∀ x t, c.prevBefore loc x = some t → ∀ u, c.nextAfter loc t = some u → x < u) ∧
    (∀ a t v x, 0 ≤ a → c.nextAfter loc a = some t → c.nextAfter loc t = some v →
      t ≤ x → x < v → c.prevBefore loc x = some t) := by
  refine ⟨?_, fun x t ht u hu => lt_nextAfter_of_prevBefore ht hu, ?_⟩
  · intro last now p u hnow hp hu
    obtain ⟨hle, hoccurs⟩ := (CronSchedule.prevBefore_isGreatest hnow hp).1
    have hnext : now < u := lt_nextAfter_of_prevBefore hp hu
    have hconsecutive : Consecutive c loc p u := .of_nextAfter hoccurs hu
    refine ⟨hconsecutive.nextAfter_eq hnow hle hnext, ?_, ?_⟩
    · intro now' hnow' hlt
      apply detectMissedRun_eq
      exact hconsecutive.prevBefore_eq (by omega) (by omega) hlt
    · apply detectMissedRun_eq
      exact prevBefore_occurs (by omega) hconsecutive.right
  · intro a t v x ha ht hv htx hxv
    obtain ⟨hat, hoccurs⟩ := (CronSchedule.nextAfter_isLeast ha ht).1
    exact (Consecutive.of_nextAfter hoccurs hv).prevBefore_eq (by omega) htx hxv

/-- In the minute after an occurrence the last run decides. -/
theorem searches_cohere_midnight :
    detectMissedRun ⟨![{0}, {0}, {1}, {1}, {0}], false, true⟩ midnight 59 90 = some 60 ∧
      detectMissedRun ⟨![{0}, {0}, {1}, {1}, {0}], false, true⟩ midnight 60 90 = none := by
  constructor
  · exact ((searches_cohere ⟨![{0}, {0}, {1}, {1}, {0}], false, true⟩ midnight).1 59 60 60 120
      (by decide) (by decide +kernel) (by decide +kernel)).2.1 90 (by decide) (by decide)
  · exact ((searches_cohere ⟨![{0}, {0}, {1}, {1}, {0}], false, true⟩ midnight).1 60 60 60 120
      (by decide) (by decide +kernel) (by decide +kernel)).2.1 90 (by decide) (by decide)

end Intervals

end AgentPulse
