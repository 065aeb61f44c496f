import AgentPulse.Alerts.Engine
import AgentPulse.Lib.KeyedList

/-!
# The engine remembers exactly its history

Four fields per rule summarise an unbounded sequence of calls. What a rule
emits at a call is characterised by the samples and the earlier events alone:
the streak that ends at the call, what was announced in it, and the last
firing before it.

## Implementation notes

A sequence of calls is a function on the natural numbers, and a finite
sequence is any such function read up to its length. The times need no order
among themselves, but must differ from zero, the mark for "not set".
-/

namespace AgentPulse.AlertEngine

variable {V : Type} [LinearOrder V]

/-- The calls `j` to `k` meet the condition, and call `j` is the first to do so. -/
def Streak (rule : Rule V) (calls : ℕ → Sample V) (j k : ℕ) : Prop :=
  j ≤ k ∧ (∀ i, j ≤ i → i ≤ k → met rule (calls i) = true) ∧
    (j = 0 ∨ met rule (calls (j - 1)) = false)

/-- `i` is the last index before `k` with the given property. -/
def LastBefore (P : ℕ → Prop) (k i : ℕ) : Prop :=
  i < k ∧ P i ∧ ∀ m, i < m → m < k → ¬ P m

/-- The state of one rule before call `k`, run on its own. -/
def ruleBefore (rule : Rule V) (calls : ℕ → Sample V) : ℕ → RuleState
  | 0 => {}
  | k + 1 => (step rule (calls k) (ruleBefore rule calls k)).1

/-- What one rule, run on its own, emits at call `k`. -/
def ruleEmits (rule : Rule V) (calls : ℕ → Sample V) (k : ℕ) : Option AlertKind :=
  (step rule (calls k) (ruleBefore rule calls k)).2

section OneRule

variable (rule : Rule V) (calls : ℕ → Sample V)

/-- The rule fires at a call. -/
def Fires (i : ℕ) : Prop := ruleEmits rule calls i = some .firing

/-- The four fields before call `k` as functions of the history. -/
structure Remembers (k : ℕ) : Prop where
  idle : (k = 0 ∨ met rule (calls (k - 1)) = false) →
    (ruleBefore rule calls k).since = 0 ∧ (ruleBefore rule calls k).notified = false
  streak : ∀ j, 0 < k → Streak rule calls j (k - 1) →
    (ruleBefore rule calls k).since = (calls j).now ∧
      ((ruleBefore rule calls k).notified = true ↔
        ∃ i, j ≤ i ∧ i < k ∧ Fires rule calls i)
  never : (∀ i < k, ¬ Fires rule calls i) → (ruleBefore rule calls k).lastFired = 0
  last : ∀ i, LastBefore (Fires rule calls) k i →
    (ruleBefore rule calls k).lastFired = (calls i).now

variable {rule calls}

/-- Every call that meets the condition ends exactly one streak. -/
theorem exists_streak {k : ℕ} (h : met rule (calls k) = true) : ∃ j, Streak rule calls j k := by
  induction k with
  | zero => exact ⟨0, le_refl 0, fun i _ hi => by rwa [Nat.le_zero.mp hi], Or.inl rfl⟩
  | succ k ih =>
      by_cases hk : met rule (calls k) = true
      · obtain ⟨j, hj, hall, hstart⟩ := ih hk
        refine ⟨j, by omega, ?_, hstart⟩
        intro i hji hik
        obtain hlt | rfl := Nat.lt_or_eq_of_le hik
        · exact hall i hji (by omega)
        · exact h
      · refine ⟨k + 1, le_refl _, ?_, Or.inr (by simpa using hk)⟩
        intro i hki hik
        obtain rfl : i = k + 1 := by omega
        exact h

/-- A streak that ends at `k + 1` starts there or extends one that ends at `k`. -/
theorem Streak.succ_cases {j k : ℕ} (h : Streak rule calls j (k + 1)) :
    (j = k + 1 ∧ met rule (calls k) = false) ∨ Streak rule calls j k := by
  obtain ⟨hj, hall, hstart⟩ := h
  obtain hlt | rfl := Nat.lt_or_eq_of_le hj
  · exact Or.inr ⟨by omega, fun i hji hik => hall i hji (by omega), hstart⟩
  · exact Or.inl ⟨rfl, by simpa using hstart⟩

theorem Remembers.streakStart_eq {k j : ℕ} (h : Remembers rule calls k)
    (hpos : ∀ i, 0 < (calls i).now) (hs : Streak rule calls j k) :
    streakStart (calls k) (ruleBefore rule calls k) = (calls j).now := by
  unfold streakStart
  cases k with
  | zero =>
      obtain rfl : j = 0 := Nat.le_zero.mp hs.1
      rw [(h.idle (Or.inl rfl)).1, if_pos rfl]
  | succ k =>
      obtain ⟨rfl, hoff⟩ | hprev := hs.succ_cases
      · rw [(h.idle (Or.inr hoff)).1, if_pos rfl]
      · rw [(h.streak j (Nat.succ_pos k) hprev).1, if_neg (hpos j).ne']

theorem Remembers.notified_iff {k j : ℕ} (h : Remembers rule calls k)
    (hs : Streak rule calls j k) :
    (ruleBefore rule calls k).notified = true ↔ ∃ i, j ≤ i ∧ i < k ∧ Fires rule calls i := by
  cases k with
  | zero => simp [(h.idle (Or.inl rfl)).2]
  | succ k =>
      obtain ⟨rfl, hoff⟩ | hprev := hs.succ_cases
      · rw [(h.idle (Or.inr hoff)).2]
        constructor
        · intro hfalse
          cases hfalse
        · rintro ⟨i, hle, hlt, _⟩
          omega
      · exact (h.streak j (Nat.succ_pos k) hprev).2

/-- A call that does not fire leaves the last firing where it was. -/
theorem lastBefore_succ_of_not {P : ℕ → Prop} {k i : ℕ} (hk : ¬ P k)
    (h : LastBefore P (k + 1) i) : LastBefore P k i := by
  obtain ⟨hi, hPi, hmax⟩ := h
  have hne : i ≠ k := fun heq => hk (heq ▸ hPi)
  exact ⟨by omega, hPi, fun m hm hmk => hmax m hm (by omega)⟩

theorem lastBefore_succ_of {P : ℕ → Prop} {k i : ℕ} (hk : P k)
    (h : LastBefore P (k + 1) i) : i = k := by
  by_contra hne
  exact h.2.2 k (by have := h.1; omega) (by omega) hk

theorem remembers (hpos : ∀ i, 0 < (calls i).now) (k : ℕ) : Remembers rule calls k := by
  induction k with
  | zero =>
      refine ⟨fun _ => ⟨rfl, rfl⟩, fun j hk => absurd hk (lt_irrefl 0), fun _ => rfl, ?_⟩
      rintro i ⟨hi, _⟩
      omega
  | succ k ih =>
      have hfires : Fires rule calls k ↔
          (step rule (calls k) (ruleBefore rule calls k)).2 = some .firing := Iff.rfl
      have hlast : (ruleBefore rule calls (k + 1)).lastFired = _ :=
        step_lastFired rule (calls k) (ruleBefore rule calls k)
      have hsince : (ruleBefore rule calls (k + 1)).since = _ :=
        step_since rule (calls k) (ruleBefore rule calls k)
      have hnotified : (ruleBefore rule calls (k + 1)).notified = true ↔ _ :=
        step_notified rule (calls k) (ruleBefore rule calls k)
      constructor
      · intro hoff
        have hmet : met rule (calls k) = false := by simpa using hoff
        refine ⟨by rw [hsince, hmet]; rfl, ?_⟩
        rw [← Bool.not_eq_true, hnotified, hmet]
        simp
      · intro j _ hs
        have hs : Streak rule calls j k := hs
        have hmet : met rule (calls k) = true := hs.2.1 k hs.1 (le_refl k)
        refine ⟨by rw [hsince, if_pos hmet, ih.streakStart_eq hpos hs], ?_⟩
        rw [hnotified, ih.notified_iff hs, ← hfires]
        constructor
        · rintro ⟨_, ⟨i, hji, hik, hi⟩ | hk⟩
          · exact ⟨i, hji, by omega, hi⟩
          · exact ⟨k, hs.1, by omega, hk⟩
        · rintro ⟨i, hji, hik, hi⟩
          refine ⟨hmet, ?_⟩
          obtain hlt | rfl := Nat.lt_or_eq_of_le (Nat.lt_succ_iff.mp hik)
          · exact Or.inl ⟨i, hji, hlt, hi⟩
          · exact Or.inr hi
      · intro hnone
        rw [hlast, if_neg (hfires.not.mp (hnone k (by omega)))]
        exact ih.never fun i hi => hnone i (by omega)
      · intro i hi
        rw [hlast]
        by_cases hk : Fires rule calls k
        · rw [if_pos (hfires.mp hk), lastBefore_succ_of hk hi]
        · rw [if_neg (hfires.not.mp hk)]
          exact ih.last i (lastBefore_succ_of_not hk hi)

/-- The last firing before a call exists as soon as there was one. -/
theorem exists_lastBefore {P : ℕ → Prop} {k : ℕ} (h : ∃ i < k, P i) :
    ∃ i, LastBefore P k i := by
  classical
  obtain ⟨i, hik, hi⟩ := h
  refine ⟨Nat.findGreatest P (k - 1), ?_, Nat.findGreatest_spec (by omega) hi, ?_⟩
  · have := Nat.findGreatest_le (P := P) (k - 1)
    omega
  · intro m hm hmk hPm
    have hle : m ≤ Nat.findGreatest P (k - 1) := Nat.le_findGreatest (by omega) hPm
    omega

/-- The cooldown gate as a statement about the history. -/
theorem Remembers.cooldownOk_iff {k : ℕ} (h : Remembers rule calls k)
    (hpos : ∀ i, 0 < (calls i).now) :
    cooldownOk rule (ruleBefore rule calls k) (calls k).now = true ↔
      (∀ i < k, ¬ Fires rule calls i) ∨ ∃ i, LastBefore (Fires rule calls) k i ∧
        rule.cooldownSeconds ≤ (calls k).now - (calls i).now := by
  simp only [cooldownOk, Bool.or_eq_true, decide_eq_true_eq]
  by_cases hnever : ∀ i < k, ¬ Fires rule calls i
  · exact iff_of_true (Or.inl (h.never hnever)) (Or.inl hnever)
  · obtain ⟨i, hi⟩ := exists_lastBefore (P := Fires rule calls) (k := k) (by simpa using hnever)
    have hne : (calls i).now ≠ 0 := (hpos i).ne'
    rw [h.last i hi]
    simp only [hne, false_or, hnever]
    constructor
    · intro hc
      exact ⟨i, hi, hc⟩
    · rintro ⟨m, hm, hc⟩
      have hmi := h.last m hm
      rw [h.last i hi] at hmi
      rwa [hmi]

/-- A rule fires at a call that ends a long enough streak in which it has not
fired, with its cooldown over. -/
theorem Remembers.fires_iff {k : ℕ} (h : Remembers rule calls k) (hpos : ∀ i, 0 < (calls i).now) :
    Fires rule calls k ↔ ∃ j, Streak rule calls j k ∧
      rule.durationSeconds ≤ (calls k).now - (calls j).now ∧
      (∀ i, j ≤ i → i < k → ¬ Fires rule calls i) ∧
      ((∀ i < k, ¬ Fires rule calls i) ∨ ∃ i, LastBefore (Fires rule calls) k i ∧
        rule.cooldownSeconds ≤ (calls k).now - (calls i).now) := by
  have hstep : Fires rule calls k ↔ _ := step_fires_iff rule (calls k) (ruleBefore rule calls k)
  rw [hstep]
  constructor
  · rintro ⟨hmet, hduration, hquiet, hcool⟩
    obtain ⟨j, hs⟩ := exists_streak hmet
    rw [h.streakStart_eq hpos hs] at hduration
    refine ⟨j, hs, hduration, ?_, (h.cooldownOk_iff hpos).mp hcool⟩
    intro i hji hik hi
    have htrue := (h.notified_iff hs).mpr ⟨i, hji, hik, hi⟩
    rw [hquiet] at htrue
    cases htrue
  · rintro ⟨j, hs, hduration, hnone, hcool⟩
    refine ⟨hs.2.1 k hs.1 (le_refl k), ?_, ?_, (h.cooldownOk_iff hpos).mpr hcool⟩
    · rwa [h.streakStart_eq hpos hs]
    · rw [← Bool.not_eq_true, h.notified_iff hs]
      rintro ⟨i, hji, hik, hi⟩
      exact hnone i hji hik hi

/-- A rule recovers at a call that ends an announced streak. -/
theorem Remembers.recovers_iff {k : ℕ} (h : Remembers rule calls k) :
    ruleEmits rule calls k = some .recovered ↔
      met rule (calls k) = false ∧ 0 < k ∧ ∃ j i, Streak rule calls j (k - 1) ∧
        j ≤ i ∧ i < k ∧ Fires rule calls i := by
  have hstep : ruleEmits rule calls k = some .recovered ↔ _ :=
    step_recovers_iff rule (calls k) (ruleBefore rule calls k)
  rw [hstep]
  constructor
  · rintro ⟨hmet, hnotified⟩
    have hon : 0 < k ∧ met rule (calls (k - 1)) = true := by
      by_contra hoff
      have hidle := (h.idle (by
        obtain hk | hk := Nat.eq_zero_or_pos k
        · exact Or.inl hk
        · exact Or.inr (by simpa [hk] using hoff))).2
      rw [hidle] at hnotified
      cases hnotified
    obtain ⟨j, hs⟩ := exists_streak hon.2
    obtain ⟨i, hji, hik, hi⟩ := ((h.streak j hon.1 hs).2).mp hnotified
    exact ⟨hmet, hon.1, j, i, hs, hji, hik, hi⟩
  · rintro ⟨hmet, hk, j, i, hs, hji, hik, hi⟩
    exact ⟨hmet, ((h.streak j hk hs).2).mpr ⟨i, hji, hik, hi⟩⟩

end OneRule

section WholeEngine

variable [Zero V] (fmt : V → Bytes) (loc : LocalTime) (rules : List (Rule V))
  (quietHours : QuietHours) (calls : ℕ → Sample V)

/-- The engine before call `k`. -/
def before : ℕ → AlertEngine V
  | 0 => create rules quietHours
  | k + 1 => (evaluate fmt loc (before k) (calls k)).1

/-- The events `evaluate` returns at call `k`. -/
def emitted (k : ℕ) : List (AlertEvent V) :=
  (evaluate fmt loc (before fmt loc rules quietHours calls k) (calls k)).2

/-- Call `k` returns an event of that kind for the rule. -/
def Emits (rule : Rule V) (kind : AlertKind) (k : ℕ) : Prop :=
  ∃ e ∈ emitted fmt loc rules quietHours calls k, e.ruleName = rule.name ∧ e.kind = kind

theorem before_rules (k : ℕ) :
    (before fmt loc rules quietHours calls k).rules = rules ∧
      (before fmt loc rules quietHours calls k).quietHours = quietHours := by
  induction k with
  | zero => exact ⟨rfl, rfl⟩
  | succ k ih => exact ih

variable {fmt loc rules quietHours calls}

/-- In the whole engine every rule keeps the state it would have on its own. -/
theorem before_state (hn : (rules.map Rule.name).Nodup) {rule : Rule V} (hr : rule ∈ rules)
    (k : ℕ) :
    (before fmt loc rules quietHours calls k).state rule.name = ruleBefore rule calls k := by
  induction k with
  | zero => rfl
  | succ k ih =>
      have hfind : rules.find? (fun r => r.name = rule.name) = some rule :=
        (KeyedList.find?_eq_some_iff hn).mpr ⟨hr, rfl⟩
      obtain ⟨hrules, _⟩ := before_rules fmt loc rules quietHours calls k
      have hpass := (foldl_round fmt (inQuietHours loc
        (before fmt loc rules quietHours calls k).quietHours (calls k).now) (calls k) rules hn
        (before fmt loc rules quietHours calls k).state []).2 rule.name
      simp only [hfind, ih] at hpass
      simp only [before, evaluate, hrules, ruleBefore]
      exact hpass

theorem emitted_eq (hn : (rules.map Rule.name).Nodup) (k : ℕ) :
    emitted fmt loc rules quietHours calls k = rules.filterMap fun rule =>
      (ruleEmits rule calls k).map
        (event fmt (inQuietHours loc quietHours (calls k).now) rule (calls k)) := by
  obtain ⟨hrules, hquiet⟩ := before_rules fmt loc rules quietHours calls k
  have hpass := (foldl_round fmt (inQuietHours loc quietHours (calls k).now) (calls k) rules hn
    (before fmt loc rules quietHours calls k).state []).1
  simp only [emitted, evaluate, hrules, hquiet]
  rw [hpass, List.nil_append]
  apply List.filterMap_congr
  intro rule hr
  rw [ruleEmits, before_state hn hr]

theorem emits_iff (hn : (rules.map Rule.name).Nodup) {rule : Rule V} (hr : rule ∈ rules)
    (kind : AlertKind) (k : ℕ) :
    Emits fmt loc rules quietHours calls rule kind k ↔ ruleEmits rule calls k = some kind := by
  unfold Emits
  rw [emitted_eq hn]
  simp only [List.mem_filterMap, Option.map_eq_some_iff]
  constructor
  · rintro ⟨e, ⟨r, hmem, found, hfound, rfl⟩, hname, hkind⟩
    have heq : r = rule := List.inj_on_of_nodup_map hn hmem hr hname
    have hkind : found = kind := hkind
    rw [← heq, hfound, hkind]
  · intro h
    exact ⟨_, ⟨rule, hr, kind, h, rfl⟩, rfl, rfl⟩

/-- A call returns at most one event for each rule, in the order of the rules. -/
theorem emitted_sublist (hn : (rules.map Rule.name).Nodup) (k : ℕ) :
    ((emitted fmt loc rules quietHours calls k).map AlertEvent.ruleName).Sublist
      (rules.map Rule.name) := by
  rw [emitted_eq hn]
  clear hn
  induction rules with
  | nil => simp
  | cons rule rest ih =>
      cases hkind : ruleEmits rule calls k with
      | none =>
          rw [List.filterMap_cons_none (by rw [hkind]; rfl)]
          exact ih.cons _
      | some kind =>
          rw [List.filterMap_cons_some (by rw [hkind]; rfl)]
          exact ih.cons_cons _

/-- What `evaluate` emits is a function of the samples and the earlier events.
A rule fires at a call that ends a long enough streak in which it has not
fired, with its cooldown over; it recovers at a call that ends an announced
streak; and nothing else is emitted. -/
theorem evaluate_history (fmt : V → Bytes) (loc : LocalTime) (rules : List (Rule V))
    (quietHours : QuietHours) (calls : ℕ → Sample V) (hn : (rules.map Rule.name).Nodup)
    (hpos : ∀ k, 0 < (calls k).now) (k : ℕ) :
    (∀ rule ∈ rules,
      (Emits fmt loc rules quietHours calls rule .firing k ↔
        ∃ j, Streak rule calls j k ∧
          rule.durationSeconds ≤ (calls k).now - (calls j).now ∧
          (∀ i, j ≤ i → i < k → ¬ Emits fmt loc rules quietHours calls rule .firing i) ∧
          ((∀ i < k, ¬ Emits fmt loc rules quietHours calls rule .firing i) ∨
            ∃ i, LastBefore (Emits fmt loc rules quietHours calls rule .firing) k i ∧
              rule.cooldownSeconds ≤ (calls k).now - (calls i).now)) ∧
      (Emits fmt loc rules quietHours calls rule .recovered k ↔
        met rule (calls k) = false ∧ 0 < k ∧ ∃ j i, Streak rule calls j (k - 1) ∧
          j ≤ i ∧ i < k ∧ Emits fmt loc rules quietHours calls rule .firing i)) ∧
    (∀ e ∈ emitted fmt loc rules quietHours calls k, ∃ rule ∈ rules,
      e = event fmt (inQuietHours loc quietHours (calls k).now) rule (calls k) e.kind) ∧
    ((emitted fmt loc rules quietHours calls k).map AlertEvent.ruleName).Sublist
      (rules.map Rule.name) := by
  refine ⟨fun rule hr => ?_, ?_, emitted_sublist hn k⟩
  · have hrem : Remembers rule calls k := remembers hpos k
    have hfun : Emits fmt loc rules quietHours calls rule .firing = Fires rule calls :=
      funext fun i => propext (emits_iff hn hr .firing i)
    rw [hfun, emits_iff hn hr]
    exact ⟨hrem.fires_iff hpos, hrem.recovers_iff⟩
  · intro e he
    rw [emitted_eq hn, List.mem_filterMap] at he
    obtain ⟨rule, hr, he⟩ := he
    obtain ⟨kind, _, rfl⟩ := Option.map_eq_some_iff.mp he
    exact ⟨rule, hr, rfl⟩

/-- A processor rule with a duration of a minute fires at the third of three
high samples and recovers at the low sample after them. -/
theorem evaluate_history_cpu :
    let rule : Rule ℤ :=
      { name := text "cpu", metric := text "system.cpu.percent", condition := .greaterThan,
        threshold := 90, durationSeconds := 60, cooldownSeconds := 300 }
    let calls : ℕ → Sample ℤ := fun k =>
      { metrics := fun m => if m = text "system.cpu.percent" then
          some (if k < 3 then 95 else 10) else none
        now := 1000 + 30 * k
        cpuAttribution := [] }
    let loc : LocalTime := fun _ => ⟨0, 0, 1, 0, 0⟩
    Emits (fun _ => []) loc [rule] {} calls rule .firing 2 ∧
      Emits (fun _ => []) loc [rule] {} calls rule .recovered 3 := by
  intro rule calls loc
  have hpos : ∀ k, 0 < (calls k).now := by
    intro k
    simp only [calls]
    omega
  have history := fun k => ((evaluate_history (fun _ => []) loc [rule] {} calls
    (by decide) hpos k).1 rule (by simp))
  have hmet : ∀ i < 3, met rule (calls i) = true := by decide
  have hempty : ∀ i < 2, emitted (fun _ => []) loc [rule] {} calls i = [] := by decide
  have hnot : ∀ i < 2, ¬ Emits (fun _ => []) loc [rule] {} calls rule .firing i := by
    rintro i hi ⟨e, he, _⟩
    rw [hempty i hi] at he
    cases he
  have hfirst : Emits (fun _ => []) loc [rule] {} calls rule .firing 2 :=
    (history 2).1.mpr ⟨0, ⟨by omega, fun i _ hi => hmet i (by omega), Or.inl rfl⟩, by decide,
      fun i _ hi => hnot i hi, Or.inl hnot⟩
  exact ⟨hfirst, (history 3).2.mpr ⟨by decide, by omega, 0, 2,
    ⟨by omega, fun i _ hi => hmet i (by omega), Or.inl rfl⟩, by omega, by omega, hfirst⟩⟩

end WholeEngine
end AgentPulse.AlertEngine
