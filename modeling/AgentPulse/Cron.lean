import AgentPulse.Text
import AgentPulse.Lib.StrideSearch
import Mathlib.Data.Finset.Insert
import Mathlib.Data.Fintype.Pi
import Mathlib.Data.Fin.VecNotation

/-!
# Cron schedules

The five-field cron expression of `schedule/cron.cpp`: its parser, the match
of a broken-down local time, and the two bounded minute searches on which the
scheduler rests. Local time is a parameter, since `localtime_r` depends on the
zone of the machine.

## Implementation notes

`time_t` is an integer with the truncating remainder of C++. Both searches
round with that remainder first, and the facts about them are therefore stated
for times since the epoch only.
-/

namespace AgentPulse

/-- The fields of `std::tm` the schedule reads, with `mon` counted from zero
and `wday` from Sunday. -/
structure Tm where
  min : Int
  hour : Int
  mday : Int
  mon : Int
  wday : Int
  deriving DecidableEq, Repr

/-- `localtime_r` for the zone of the machine. -/
abbrev LocalTime := Int → Tm

/-- A zone in which every moment is midnight of the first of January, for
concrete runs. -/
def midnight : LocalTime := fun _ => ⟨0, 0, 1, 0, 4⟩

structure FieldRange where
  lo : Int
  hi : Int
  deriving DecidableEq, Repr

/-- A parsed expression. The fields are minute, hour, day of month, month and
day of week, in this order. -/
structure CronSchedule where
  fields : Fin 5 → Finset Int
  domWildcard : Bool
  dowWildcard : Bool
  deriving DecidableEq

namespace CronSchedule

/-- The first of the five fields is field zero. -/
instance neZero_five : NeZero 5 := inferInstance

/-- The loop `for (int v = lo; v <= hi; v += step) out.insert(v)`, read over
the integers. The first argument bounds the number of rounds. -/
def insertSteps (hi step : Int) : Nat → Int → Finset Int → Finset Int
  | 0, _, out => out
  | n + 1, v, out => if v ≤ hi then insertSteps hi step n (v + step) (insert v out) else out

/-- One comma-separated token, added to the values found so far. -/
def parseToken (range : FieldRange) (token : Bytes) (out : Finset Int) :
    Option (Finset Int) := do
  if token = [] then none
  let (base, step) ← match splitFirst 47 token with
    | none => some (token, 1)
    | some (base, count) => (stoi count).map fun step => (base, step)
  if step ≤ 0 then none
  let (lo, hi) ←
    if base = text "*" then some (range.lo, range.hi)
    else match splitFirst 45 base with
      | some (first, last) => (stoi first).bind fun lo => (stoi last).map fun hi => (lo, hi)
      | none => (stoi base).map fun v => (v, v)
  if lo < range.lo ∨ hi > range.hi ∨ lo > hi then none
  some (insertSteps hi step ((hi - lo).toNat + 1) lo out)

/-- The values of one field and whether it is the bare wildcard. -/
def parseField (field : Bytes) (range : FieldRange) : Option (Finset Int × Bool) := do
  let out ← (getlines 44 field).foldlM (fun out token => parseToken range token out) ∅
  if out = ∅ then none
  some (out, field = text "*")

/-- The ranges of the five fields; day of week accepts both 0 and 7 for Sunday. -/
def ranges : Fin 5 → FieldRange :=
  ![⟨0, 59⟩, ⟨0, 23⟩, ⟨1, 31⟩, ⟨1, 12⟩, ⟨0, 7⟩]

/-- Day of week 7 also counts as 0, so that `tm_wday` matches it. -/
def normalizeSunday (days : Finset Int) : Finset Int :=
  if 7 ∈ days then insert 0 days else days

/-- `CronSchedule::parse`; `none` stands for a malformed expression. -/
def parse (expr : Bytes) : Option CronSchedule :=
  match words expr with
  | [p0, p1, p2, p3, p4] => do
      let (minute, _) ← parseField p0 (ranges 0)
      let (hour, _) ← parseField p1 (ranges 1)
      let (dom, domWildcard) ← parseField p2 (ranges 2)
      let (month, _) ← parseField p3 (ranges 3)
      let (dow, dowWildcard) ← parseField p4 (ranges 4)
      some {
        fields := ![minute, hour, dom, month, normalizeSunday dow]
        domWildcard := domWildcard
        dowWildcard := dowWildcard }
  | _ => none

/-- Whether a broken-down local time meets the schedule. If both day fields
are restricted, either of them is enough. -/
def matchesTm (c : CronSchedule) (tm : Tm) : Bool :=
  if tm.min ∉ c.fields 0 then false
  else if tm.hour ∉ c.fields 1 then false
  else if tm.mon + 1 ∉ c.fields 3 then false
  else
    let domOk : Bool := tm.mday ∈ c.fields 2
    let dowOk : Bool := tm.wday ∈ c.fields 4
    if c.domWildcard && c.dowWildcard then true
    else if c.domWildcard then dowOk
    else if c.dowWildcard then domOk
    else domOk || dowOk

/-- The search horizon of both directions, in minutes. -/
def maxMinutes : Nat := 4 * 366 * 24 * 60

/-- `CronSchedule::next_after`: the first matching minute after `after`. -/
def nextAfter (c : CronSchedule) (loc : LocalTime) (after : Int) : Option Int :=
  StrideSearch.search (fun t => c.matchesTm (loc t)) 60 maxMinutes
    (after - after.tmod 60 + 60)

/-- `CronSchedule::prev_before`: the last matching minute at or before `at`. -/
def prevBefore (c : CronSchedule) (loc : LocalTime) (now : Int) : Option Int :=
  StrideSearch.search (fun t => c.matchesTm (loc t)) (-60) maxMinutes (now - now.tmod 60)

/-- `t` is an occurrence: a whole minute whose local time meets the schedule. -/
def Occurs (c : CronSchedule) (loc : LocalTime) (t : Int) : Prop :=
  (60 : Int) ∣ t ∧ c.matchesTm (loc t) = true

instance (c : CronSchedule) (loc : LocalTime) (t : Int) : Decidable (c.Occurs loc t) :=
  inferInstanceAs (Decidable (_ ∧ _))

section Searches

variable {c : CronSchedule} {loc : LocalTime} {x t : Int}

/-- The remainder of C++ rounds down to the minute, except between the minutes
before the epoch. -/
theorem sub_tmod_eq (hx : 0 ≤ x ∨ (60 : Int) ∣ x) : x - x.tmod 60 = 60 * (x / 60) := by
  obtain hx | ⟨k, rfl⟩ := hx
  · rw [Int.tmod_eq_emod_of_nonneg hx]
    omega
  · rw [Int.mul_tmod_right]
    omega

/-- A found time lies after the given one, also before the epoch. -/
theorem nextAfter_gt (h : c.nextAfter loc x = some t) : x < t := by
  obtain ⟨k, _, rfl, _⟩ := (StrideSearch.search_eq_some_iff _ _ _ _ _).mp h
  have hmod : x.tmod 60 < 60 := Int.tmod_lt_of_pos x (by decide)
  omega

/-- The points after `x` the forward search has in reach are the whole minutes
after `x`. -/
theorem forward_points : {v | 60 * (x / 60) + 60 ≤ v ∧ (60 : Int) ∣ v - (60 * (x / 60) + 60) ∧
    c.matchesTm (loc v) = true} = {u | x < u ∧ c.Occurs loc u} := by
  ext v
  simp only [Set.mem_ofPred_eq, Occurs, ← and_assoc]
  apply and_congr_left
  intro _
  omega

/-- The points up to `x` the backward search has in reach are the whole minutes
up to `x`. -/
theorem backward_points : {v | v ≤ 60 * (x / 60) ∧ (60 : Int) ∣ 60 * (x / 60) - v ∧
    c.matchesTm (loc v) = true} = {u | u ≤ x ∧ c.Occurs loc u} := by
  ext v
  simp only [Set.mem_ofPred_eq, Occurs, ← and_assoc]
  apply and_congr_left
  intro _
  omega

/-- The forward search returns the least occurrence after `x`, if its horizon
reaches that far. -/
theorem nextAfter_eq_some_iff (hx : 0 ≤ x ∨ (60 : Int) ∣ x) :
    c.nextAfter loc x = some t ↔
      IsLeast {u | x < u ∧ c.Occurs loc u} t ∧ t ≤ 60 * (x / 60) + 60 * maxMinutes := by
  rw [nextAfter, sub_tmod_eq hx, StrideSearch.search_eq_some_iff_isLeast (by decide),
    forward_points]
  apply and_congr_right
  rintro ⟨⟨_, hdvd, _⟩, _⟩
  omega

/-- The backward search returns the greatest occurrence up to `x`, if its
horizon reaches that far. -/
theorem prevBefore_eq_some_iff (hx : 0 ≤ x ∨ (60 : Int) ∣ x) :
    c.prevBefore loc x = some t ↔
      IsGreatest {u | u ≤ x ∧ c.Occurs loc u} t ∧ 60 * (x / 60) - 60 * maxMinutes < t := by
  rw [prevBefore, sub_tmod_eq hx, StrideSearch.search_eq_some_iff_isGreatest (by decide),
    backward_points]
  apply and_congr_right
  intro _
  omega

/-- The forward search returns the least occurrence strictly after `x`. -/
theorem nextAfter_isLeast (hx : 0 ≤ x) (h : c.nextAfter loc x = some t) :
    IsLeast {u | x < u ∧ c.Occurs loc u} t :=
  ((nextAfter_eq_some_iff (Or.inl hx)).mp h).1

/-- The backward search returns the greatest occurrence at or before `x`. -/
theorem prevBefore_isGreatest (hx : 0 ≤ x) (h : c.prevBefore loc x = some t) :
    IsGreatest {u | u ≤ x ∧ c.Occurs loc u} t :=
  ((prevBefore_eq_some_iff (Or.inl hx)).mp h).1

/-- The forward search gives up if there is no occurrence in its horizon. -/
theorem nextAfter_eq_none_iff (hx : 0 ≤ x) :
    c.nextAfter loc x = none ↔
      ∀ u, x < u → u ≤ 60 * (x / 60) + 60 * maxMinutes → ¬ c.Occurs loc u := by
  rw [nextAfter, sub_tmod_eq (Or.inl hx), StrideSearch.search_eq_none_iff_of_pos (by decide)]
  simp only [Occurs, not_and, Bool.not_eq_true]
  apply forall_congr'
  intro u
  constructor
  · intro h hlt hle hdvd
    exact h (by omega) (by omega) (by omega)
  · intro h hle hdvd hlt
    exact h (by omega) (by omega) (by omega)

/-- The backward search gives up if there is no occurrence in its horizon. -/
theorem prevBefore_eq_none_iff (hx : 0 ≤ x) :
    c.prevBefore loc x = none ↔
      ∀ u, u ≤ x → 60 * (x / 60) - 60 * maxMinutes < u → ¬ c.Occurs loc u := by
  rw [prevBefore, sub_tmod_eq (Or.inl hx), StrideSearch.search_eq_none_iff_of_neg (by decide)]
  simp only [Occurs, not_and, Bool.not_eq_true]
  apply forall_congr'
  intro u
  constructor
  · intro h hle hlt hdvd
    exact h (by omega) (by omega) (by omega)
  · intro h hle hdvd hlt
    exact h (by omega) (by omega) (by omega)

/-- Both searches are exact within their horizons. -/
theorem searches_exact (c : CronSchedule) (loc : LocalTime) {x : Int} (hx : 0 ≤ x) :
    (∀ t, c.nextAfter loc x = some t ↔
      IsLeast {u | x < u ∧ c.Occurs loc u} t ∧ t ≤ 60 * (x / 60) + 60 * maxMinutes) ∧
    (c.nextAfter loc x = none ↔
      ∀ u, x < u → u ≤ 60 * (x / 60) + 60 * maxMinutes → ¬ c.Occurs loc u) ∧
    (∀ t, c.prevBefore loc x = some t ↔
      IsGreatest {u | u ≤ x ∧ c.Occurs loc u} t ∧ 60 * (x / 60) - 60 * maxMinutes < t) ∧
    (c.prevBefore loc x = none ↔
      ∀ u, u ≤ x → 60 * (x / 60) - 60 * maxMinutes < u → ¬ c.Occurs loc u) :=
  ⟨fun _ => nextAfter_eq_some_iff (Or.inl hx), nextAfter_eq_none_iff hx,
    fun _ => prevBefore_eq_some_iff (Or.inl hx), prevBefore_eq_none_iff hx⟩

/-- From the last second of a minute the forward search takes the next one. -/
theorem searches_exact_midnight :
    IsLeast {u | 59 < u ∧ (CronSchedule.mk ![{0}, {0}, {1}, {1}, {0}] false true).Occurs midnight u}
      60 ∧ (60 : Int) ≤ 60 * (59 / 60) + 60 * maxMinutes :=
  ((searches_exact ⟨![{0}, {0}, {1}, {1}, {0}], false, true⟩ midnight (by decide)).1 60).mp
    (by decide +kernel)

end Searches

end CronSchedule
end AgentPulse
