import AgentPulse.Cron
import AgentPulse.Lib.Calendar

/-!
# The search horizon and the calendar

With local time read off the Gregorian calendar, a schedule that matches at all
matches within four years: its day recurs every year as a date or as a weekday
of its month, or every four years as the leap day. Both searches therefore find
an occurrence, as long as no year without a leap day is divisible by four.
-/

namespace AgentPulse

open Calendar

/-- Local time of the Gregorian calendar, `offset` minutes ahead of UTC. -/
def gregorian (offset : Int) : LocalTime := fun t =>
  let minute := t / 60 + offset
  let date := civil (minute / 1440)
  { min := minute % 60
    hour := minute % 1440 / 60
    mday := date.day
    mon := date.month - 1
    wday := weekday (minute / 1440) }

namespace CronSchedule

variable {c : CronSchedule} {offset x first : Int}

/-- The time at which the `k`-th minute of a day begins. -/
def minuteOf (offset day k : Int) : Int := 60 * (1440 * day + k - offset)

theorem gregorian_minuteOf (offset day : Int) {k : Int} (hk : 0 ≤ k) (hlt : k < 1440) :
    gregorian offset (minuteOf offset day k) =
      ⟨k % 60, k / 60, (civil day).day, (civil day).month - 1, weekday day⟩ := by
  have hminute : minuteOf offset day k / 60 + offset = 1440 * day + k := by
    unfold minuteOf
    omega
  have hday : (1440 * day + k) / 1440 = day := by omega
  have hin : (1440 * day + k) % 1440 = k := by omega
  have hsixty : (1440 * day + k) % 60 = k % 60 := by omega
  unfold gregorian
  simp only [hminute, hday, hin, hsixty]

/-- A match is due to the date of the day or to its weekday. -/
theorem matchesTm_of_day {tm : Tm} (h : c.matchesTm tm = true) :
    (∀ wday, c.matchesTm { tm with wday := wday } = true) ∨
      ∀ mday, c.matchesTm { tm with mday := mday } = true := by
  unfold matchesTm at h ⊢
  simp only at h ⊢
  split_ifs at h ⊢ with hmin hhour hmon hboth hdom hdow
  · exact Or.inl fun _ => rfl
  · exact Or.inr fun _ => h
  · exact Or.inl fun _ => h
  · rw [Bool.or_eq_true] at h
    obtain hmday | hwday := h
    · exact Or.inl fun _ => by rw [hmday, Bool.true_or]
    · exact Or.inr fun _ => by rw [hwday, Bool.or_true]

/-- A schedule that matches some minute matches at the same minute of a day
within any four years without an exception of the leap year. -/
theorem exists_matching_day (h : ∃ t, c.matchesTm (gregorian offset t) = true) :
    ∃ k, 0 ≤ k ∧ k < 1440 ∧ ∀ first, (Date.mk 1900 3 1).dayNumber ≤ first →
      first ≤ (Date.mk 2096 2 29).dayNumber → ∃ day, first ≤ day ∧ day < first + 1461 ∧
        c.matchesTm (gregorian offset (minuteOf offset day k)) = true := by
  obtain ⟨t, ht⟩ := h
  have hk : 0 ≤ (t / 60 + offset) % 1440 ∧ (t / 60 + offset) % 1440 < 1440 := by omega
  refine ⟨(t / 60 + offset) % 1440, hk.1, hk.2, fun first hfirst hlast => ?_⟩
  have htm : gregorian offset t = ⟨(t / 60 + offset) % 1440 % 60, (t / 60 + offset) % 1440 / 60,
      (civil ((t / 60 + offset) / 1440)).day, (civil ((t / 60 + offset) / 1440)).month - 1,
      weekday ((t / 60 + offset) / 1440)⟩ := by
    have hsixty : (t / 60 + offset) % 1440 % 60 = (t / 60 + offset) % 60 := by omega
    rw [hsixty]
    rfl
  rw [htm] at ht
  obtain hdate | hweekday := matchesTm_of_day ht
  · obtain ⟨day, hge, hlt, hmonth, hday⟩ :=
      exists_same_date ((t / 60 + offset) / 1440) hfirst hlast
    refine ⟨day, hge, hlt, ?_⟩
    rw [gregorian_minuteOf offset day hk.1 hk.2, hmonth, hday]
    exact hdate _
  · obtain ⟨day, hge, hlt, hmonth, hday⟩ :=
      exists_same_weekday ((t / 60 + offset) / 1440) first
    refine ⟨day, hge, hlt, ?_⟩
    rw [gregorian_minuteOf offset day hk.1 hk.2, hmonth, hday]
    exact hweekday _

/-- At a UTC offset that puts the epoch after the leap day of 1904, as every
offset of less than a day does, both searches find an occurrence of a schedule
that has one, from the epoch until the leap day of 2096. -/
theorem horizon_suffices (c : CronSchedule)
    (hoffset : 1440 * (Date.mk 1904 3 1).dayNumber ≤ offset)
    (hmatch : ∃ t, c.matchesTm (gregorian offset t) = true) (hx : 0 ≤ x)
    (hlocal : x / 60 + offset < 1440 * (Date.mk 2096 2 29).dayNumber) :
    (∃ t, c.nextAfter (gregorian offset) x = some t) ∧
      ∃ t, c.prevBefore (gregorian offset) x = some t := by
  obtain ⟨k, hk, hlt, hday⟩ := exists_matching_day hmatch
  have hbefore : (Date.mk 1900 3 1).dayNumber = (Date.mk 1904 3 1).dayNumber - 1461 := by decide
  have hspan : (maxMinutes : Int) = 1464 * 1440 := by decide
  have hoccurs : ∀ day, c.matchesTm (gregorian offset (minuteOf offset day k)) = true →
      c.Occurs (gregorian offset) (minuteOf offset day k) := fun day hmatch =>
    ⟨⟨_, rfl⟩, hmatch⟩
  constructor
  · obtain ⟨day, hge, hlt', hmatch'⟩ := hday ((x / 60 + offset) / 1440 + 1) (by omega) (by omega)
    apply Option.ne_none_iff_exists'.mp
    intro hnone
    refine (nextAfter_eq_none_iff hx).mp hnone _ ?_ ?_ (hoccurs day hmatch')
    · unfold minuteOf
      omega
    · unfold minuteOf
      omega
  · obtain ⟨day, hge, hlt', hmatch'⟩ := hday ((x / 60 + offset) / 1440 - 1461) (by omega) (by omega)
    apply Option.ne_none_iff_exists'.mp
    intro hnone
    refine (prevBefore_eq_none_iff hx).mp hnone _ ?_ ?_ (hoccurs day hmatch')
    · unfold minuteOf
      omega
    · unfold minuteOf
      omega

/-- Midnight of the leap day, five hours behind UTC. -/
theorem horizon_suffices_leap_day :
    (∃ t, (CronSchedule.mk ![{0}, {0}, {29}, {2}, {0}] false true).nextAfter (gregorian (-300))
        0 = some t) ∧
      ∃ t, (CronSchedule.mk ![{0}, {0}, {29}, {2}, {0}] false true).prevBefore (gregorian (-300))
        0 = some t :=
  horizon_suffices ⟨![{0}, {0}, {29}, {2}, {0}], false, true⟩ (by decide)
    ⟨minuteOf (-300) (Date.mk 1972 2 29).dayNumber 0, by decide +kernel⟩ (by decide) (by decide)

end CronSchedule
end AgentPulse
