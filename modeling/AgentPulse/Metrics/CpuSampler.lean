import Mathlib.Algebra.Order.Field.Rat
import Mathlib.Data.List.ReduceOption
import Mathlib.Data.Nat.ModEq
import Mathlib.Data.Nat.GCD.Basic
import Mathlib.Tactic.Linarith
import Mathlib.Tactic.Positivity
import Mathlib.Tactic.Ring

/-!
# CPU utilisation

`CpuSampler::sample` of `cpu_sampler.cpp`. The host counts ticks in 32 bits and
the sampler subtracts in 64, so the counts of a sample are the true ones
exactly if no counter has wrapped since the sample before.

## Implementation notes

The percentage is an exact rational; the two conversions to `double` and their
quotient are not modelled.
-/

namespace AgentPulse

/-- The indices of `cpu_ticks`. -/
inductive CpuState where
  | user
  | system
  | idle
  | nice
  deriving DecidableEq

/-- `host_cpu_load_info_data_t`: counters of 32 bits. -/
abbrev CpuTicks := CpuState → UInt32

/-- The members of `CpuSampler`; `prev` holds the four `prev_` counters. -/
structure CpuSampler where
  havePrev : Bool := false
  prev : CpuState → UInt64 := fun _ => 0

namespace CpuSampler

/-- `d_user`, `d_system`, `d_idle` and `d_nice`. -/
def delta (s : CpuSampler) (ticks : CpuTicks) (c : CpuState) : UInt64 :=
  (ticks c).toUInt64 - s.prev c

def busy (s : CpuSampler) (ticks : CpuTicks) : UInt64 :=
  s.delta ticks .user + s.delta ticks .system + s.delta ticks .nice

def total (s : CpuSampler) (ticks : CpuTicks) : UInt64 := s.busy ticks + s.delta ticks .idle

/-- The quotient of the two. -/
def ratio (s : CpuSampler) (ticks : CpuTicks) : ℚ := (s.busy ticks).toNat / (s.total ticks).toNat

/-- `CpuSampler::sample`; `none` is a call of `host_statistics` that fails. -/
def sample (s : CpuSampler) : Option CpuTicks → CpuSampler × ℚ
  | none => (s, 0)
  | some ticks =>
      ({ havePrev := true, prev := fun c => (ticks c).toUInt64 },
        if s.havePrev = false then 0
        else if s.total ticks = 0 then 0
        else s.ratio ticks * 100)

/-- The ticks of each kind since the machine started. -/
abbrev Counts := CpuState → ℕ

/-- What the host's counters show of them. -/
def Counts.ticks (n : Counts) : CpuTicks := fun c => UInt32.ofNat (n c)

/-- The counts grow by less than `2 ^ 31` each. -/
def Advances (prev next : Counts) : Prop := ∀ c, prev c ≤ next c ∧ next c < prev c + 2 ^ 31

/-- The sampler after a sequence of samples. -/
def after (history : List (Option Counts)) : CpuSampler :=
  history.foldl (fun s reply => (s.sample (reply.map Counts.ticks)).1) {}

/-- The busy ticks between two counts. -/
def trueBusy (prev next : Counts) : ℕ :=
  (next .user - prev .user) + (next .system - prev .system) + (next .nice - prev .nice)

/-- All ticks between two counts. -/
def trueTotal (prev next : Counts) : ℕ := trueBusy prev next + (next .idle - prev .idle)

/-- The sample computes the true counts, and a part of the whole. -/
structure Exact (s : CpuSampler) (prev next : Counts) : Prop where
  busy : (s.busy next.ticks).toNat = trueBusy prev next
  total : (s.total next.ticks).toNat = trueTotal prev next
  busy_le_total : s.busy next.ticks ≤ s.total next.ticks
  ratio_nonneg : 0 ≤ s.ratio next.ticks
  ratio_le_one : s.ratio next.ticks ≤ 1

section Samples

variable {history : List (Option Counts)} {prev next : Counts} {s : CpuSampler}

/-- A failed call changes nothing; the sampler holds the last counters it read. -/
theorem after_of_getLast? (h : history.reduceOption.getLast? = some prev) :
    after history = { havePrev := true, prev := fun c => (prev.ticks c).toUInt64 } := by
  induction history using List.reverseRecOn with
  | nil => simp at h
  | append_singleton history reply ih =>
      rw [List.reduceOption_append] at h
      rw [after, List.foldl_append]
      cases reply with
      | none =>
          rw [List.reduceOption_cons_of_none, List.reduceOption_nil, List.append_nil] at h
          exact ih h
      | some n =>
          rw [List.reduceOption_singleton] at h
          simp only [Option.toList_some, List.getLast?_append, List.getLast?_singleton,
            Option.some_or, Option.some.injEq] at h
          rw [← h]
          rfl

/-- Modulo the square of a width, fewer wraps than the width never cancel. -/
theorem wrapped_mod_iff {w n k : ℕ} (hn : n < w * w) (hk : k < w) :
    (n + k * (w * w - w)) % (w * w) = n ↔ k = 0 := by
  have hw : 0 < w := Nat.zero_lt_of_lt hk
  constructor
  · intro h
    have hmod : n + k * (w * w - w) ≡ n + 0 [MOD w * w] := by
      rw [Nat.ModEq, h, Nat.add_zero, Nat.mod_eq_of_lt hn]
    have hdvd : w * w ∣ k * (w * w - w) :=
      Nat.modEq_zero_iff_dvd.mp (Nat.ModEq.add_left_cancel' n hmod)
    have hfactor : k * (w * w - w) = w * (k * (w - 1)) := by
      rw [Nat.mul_left_comm, Nat.mul_sub_one]
    rw [hfactor] at hdvd
    have hdvd' : w ∣ k * (w - 1) := Nat.dvd_of_mul_dvd_mul_left hw hdvd
    have hcoprime : Nat.Coprime w (w - 1) := by
      obtain ⟨m, rfl⟩ := Nat.exists_eq_succ_of_ne_zero hw.ne'
      simp
    exact Nat.eq_zero_of_dvd_of_lt (hcoprime.dvd_of_dvd_mul_right hdvd') hk
  · rintro rfl
    rw [Nat.zero_mul, Nat.add_zero]
    exact Nat.mod_eq_of_lt hn

/-- A counter that wraps adds `2 ^ 64 - 2 ^ 32` to its difference. -/
theorem delta_eq (hs : s.prev = fun c => (prev.ticks c).toUInt64) (h : Advances prev next)
    (c : CpuState) :
    ∃ wraps, (wraps = 0 ↔ prev.ticks c ≤ next.ticks c) ∧ wraps ≤ 1 ∧
      (s.delta next.ticks c).toNat = next c - prev c + wraps * (2 ^ 64 - 2 ^ 32) := by
  obtain ⟨hle, hlt⟩ := h c
  have hdelta : (s.delta next.ticks c).toNat =
      (2 ^ 64 - prev c % 2 ^ 32 + next c % 2 ^ 32) % 2 ^ 64 := by
    rw [delta, hs, UInt64.toNat_sub, UInt32.toNat_toUInt64, UInt32.toNat_toUInt64]
    rfl
  have hwraps : prev.ticks c ≤ next.ticks c ↔ prev c % 2 ^ 32 ≤ next c % 2 ^ 32 := Iff.rfl
  rw [hdelta, hwraps]
  by_cases hmod : prev c % 2 ^ 32 ≤ next c % 2 ^ 32
  · exact ⟨0, iff_of_true rfl hmod, Nat.zero_le _, by omega⟩
  · exact ⟨1, iff_of_false Nat.one_ne_zero hmod, le_refl _, by omega⟩

/-- The busy count is the true one with what the wraps add, in 64 bits. -/
theorem busy_toNat {wraps : CpuState → ℕ} (hdelta : ∀ c, (s.delta next.ticks c).toNat =
    next c - prev c + wraps c * (2 ^ 64 - 2 ^ 32)) :
    (s.busy next.ticks).toNat = (trueBusy prev next +
      (wraps .user + wraps .system + wraps .nice) * (2 ^ 64 - 2 ^ 32)) % 2 ^ 64 := by
  rw [busy, UInt64.toNat_add, UInt64.toNat_add, Nat.mod_add_mod, hdelta, hdelta, hdelta, trueBusy]
  congr 1
  ring

theorem total_toNat {wraps : CpuState → ℕ} (hdelta : ∀ c, (s.delta next.ticks c).toNat =
    next c - prev c + wraps c * (2 ^ 64 - 2 ^ 32)) :
    (s.total next.ticks).toNat = (trueTotal prev next +
      (wraps .user + wraps .system + wraps .nice + wraps .idle) * (2 ^ 64 - 2 ^ 32)) % 2 ^ 64 := by
  rw [total, UInt64.toNat_add, busy_toNat hdelta, Nat.mod_add_mod, hdelta, trueTotal]
  congr 1
  ring

/-- The counts of a sample are the true ones exactly if no counter wraps. -/
theorem counts_eq_iff (hs : s.prev = fun c => (prev.ticks c).toUInt64) (h : Advances prev next) :
    ((s.busy next.ticks).toNat = trueBusy prev next ∧
      (s.total next.ticks).toNat = trueTotal prev next) ↔
      ∀ c, prev.ticks c ≤ next.ticks c := by
  choose wraps hzero hone hdelta using delta_eq hs h
  have hwidth : (2 ^ 64 : ℕ) = 2 ^ 32 * 2 ^ 32 := rfl
  have hnone : (∀ c, prev.ticks c ≤ next.ticks c) ↔
      wraps .user + wraps .system + wraps .nice + wraps .idle = 0 := by
    simp only [← hzero, Nat.add_eq_zero_iff]
    exact ⟨fun h => ⟨⟨⟨h _, h _⟩, h _⟩, h _⟩, fun h c => by cases c <;> simp only [h]⟩
  have hfew : wraps .user + wraps .system + wraps .nice + wraps .idle ≤ 4 := by
    have := hone .user
    have := hone .system
    have := hone .idle
    have := hone .nice
    omega
  have hcounts : trueBusy prev next ≤ trueTotal prev next ∧ trueTotal prev next < 2 ^ 34 := by
    have := h .user
    have := h .system
    have := h .idle
    have := h .nice
    unfold trueTotal trueBusy
    omega
  have hbusy := wrapped_mod_iff (w := 2 ^ 32) (n := trueBusy prev next)
    (k := wraps .user + wraps .system + wraps .nice) (by omega) (by omega)
  have htotal := wrapped_mod_iff (w := 2 ^ 32) (n := trueTotal prev next)
    (k := wraps .user + wraps .system + wraps .nice + wraps .idle) (by omega) (by omega)
  rw [busy_toNat hdelta, total_toNat hdelta, hwidth, hbusy, htotal, hnone]
  exact ⟨And.right, fun h => ⟨Nat.eq_zero_of_add_eq_zero_right h, h⟩⟩

/-- Over every sequence of samples, a sample after the baseline is exact if and
only if no counter shows less than at the sample before. -/
theorem utilisation_exact_iff (hprev : history.reduceOption.getLast? = some prev)
    (hnext : Advances prev next) :
    Exact (after history) prev next ↔ ∀ c, prev.ticks c ≤ next.ticks c := by
  have hs : (after history).prev = fun c => (prev.ticks c).toUInt64 := by
    rw [after_of_getLast? hprev]
  rw [← counts_eq_iff hs hnext]
  constructor
  · exact fun h => ⟨h.busy, h.total⟩
  · rintro ⟨hbusy, htotal⟩
    have hle : ((after history).busy next.ticks).toNat ≤ ((after history).total next.ticks).toNat := by
      rw [hbusy, htotal]
      exact Nat.le_add_right _ _
    refine ⟨hbusy, htotal, hle, ?_, ?_⟩
    · rw [ratio]
      positivity
    · exact div_le_one_of_le₀ (by exact_mod_cast hle) (by positivity)

/-- The percentage of an exact sample is one. -/
theorem Exact.percentage (h : Exact s prev next) :
    0 ≤ (s.sample (some next.ticks)).2 ∧ (s.sample (some next.ticks)).2 ≤ 100 := by
  have hnonneg := h.ratio_nonneg
  have hle := h.ratio_le_one
  rw [sample]
  split_ifs
  · exact ⟨le_refl _, by norm_num⟩
  · exact ⟨le_refl _, by norm_num⟩
  · exact ⟨by positivity, by linarith⟩

/-- Two seconds in which nothing wraps. -/
theorem utilisation_exact_idle :
    Exact (after [some fun _ => 0, none, some fun _ => 5]) (fun _ => 5) (fun _ => 7) :=
  (utilisation_exact_iff rfl fun c => by cases c <;> decide).mpr fun c => by cases c <;> decide

/-- One busy tick wraps the user counter: the busy count is `2 ^ 64 - 2 ^ 32 + 1`
and an interval that was half idle shows as a full load. -/
theorem wrapped_counter_inexact :
    Advances (fun c => if c = .user then 2 ^ 32 - 1 else 0) (fun c => if c = .user then 2 ^ 32
      else if c = .idle then 1 else 0) ∧
      ¬ Exact (after [some fun c => if c = .user then 2 ^ 32 - 1 else 0])
        (fun c => if c = .user then 2 ^ 32 - 1 else 0)
        (fun c => if c = .user then 2 ^ 32 else if c = .idle then 1 else 0) := by
  refine ⟨fun c => by cases c <;> decide, fun h => absurd h.busy ?_⟩
  decide +kernel

end Samples

end CpuSampler
end AgentPulse
