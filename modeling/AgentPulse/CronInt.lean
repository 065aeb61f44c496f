import AgentPulse.CronMeaning
import Mathlib.Tactic.FinCases

/-!
# The step loop in machine integers

`parse_field` adds the step to an `int` once more after the last value it
inserts. Here the addition is checked: the parser stops with an overflow where
the behaviour of the code is undefined. Elsewhere it agrees with the parser that
reads the loop over the integers, and every set it builds is in range.
-/

namespace AgentPulse.CronSchedule

/-- The largest `int`. -/
def intMax : Int := 2 ^ 31 - 1

/-- How the parser ends without a result. -/
inductive Fault where
  | rejected
  | overflow
  deriving DecidableEq

/-- A parser that returns nothing has rejected. -/
def orRejected {α : Type*} : Option α → Except Fault α
  | none => .error .rejected
  | some a => .ok a

/-- The loop `for (int v = lo; v <= hi; v += step) out.insert(v)`. The first
argument bounds the number of rounds. -/
def stepLoop (hi step : Int) : Nat → Int → Finset Int → Except Fault (Finset Int)
  | 0, _, out => .ok out
  | n + 1, v, out =>
      if v ≤ hi then
        if v + step ≤ intMax then stepLoop hi step n (v + step) (insert v out)
        else .error .overflow
      else .ok out

/-- The bounds and the step of an accepted token. -/
structure Bounds where
  lo : Int
  hi : Int
  step : Int
  deriving DecidableEq

/-- What `parse_field` has read of a token when its checks have passed. -/
def tokenBounds (range : FieldRange) (token : Bytes) : Option Bounds :=
  if token = [] then none
  else (read token).stepValue.bind fun step =>
    if step ≤ 0 then none
    else ((read token).base.bounds range).bind fun b =>
      if b.1 < range.lo ∨ b.2 > range.hi ∨ b.1 > b.2 then none else some ⟨b.1, b.2, step⟩

/-- The step loop of an accepted token. -/
def Bounds.expand (b : Bounds) (out : Finset Int) : Except Fault (Finset Int) :=
  stepLoop b.hi b.step ((b.hi - b.lo).toNat + 1) b.lo out

/-- One token of `parse_field`. -/
def parseTokenInt (range : FieldRange) (out : Finset Int) (token : Bytes) :
    Except Fault (Finset Int) :=
  (orRejected (tokenBounds range token)).bind fun b => b.expand out

/-- `parse_field`. -/
def parseFieldInt (field : Bytes) (range : FieldRange) : Except Fault (Finset Int × Bool) := do
  let out ← (getlines 44 field).foldlM (parseTokenInt range) ∅
  if out = ∅ then .error .rejected
  else .ok (out, field = text "*")

/-- `CronSchedule::parse`. -/
def parseInt (expr : Bytes) : Except Fault CronSchedule :=
  match words expr with
  | [p0, p1, p2, p3, p4] => do
      let (minute, _) ← parseFieldInt p0 (ranges 0)
      let (hour, _) ← parseFieldInt p1 (ranges 1)
      let (dom, domWildcard) ← parseFieldInt p2 (ranges 2)
      let (month, _) ← parseFieldInt p3 (ranges 3)
      let (dow, dowWildcard) ← parseFieldInt p4 (ranges 4)
      .ok {
        fields := ![minute, hour, dom, month, normalizeSunday dow]
        domWildcard := domWildcard
        dowWildcard := dowWildcard }
  | _ => .error .rejected

/-- The tokens the parser expands: the accepted ones up to the first it rejects. -/
def expanded (range : FieldRange) : List Bytes → List Bounds
  | [] => []
  | token :: tokens =>
      match tokenBounds range token with
      | none => []
      | some b => b :: expanded range tokens

/-- The first value of the progression past the upper bound is an `int`. -/
def Bounds.Fits (b : Bounds) : Prop := b.lo + ((b.hi - b.lo) / b.step + 1) * b.step ≤ intMax

instance : DecidablePred Bounds.Fits := fun _ => inferInstanceAs (Decidable (_ ≤ _))

section Loop

variable {range : FieldRange} {token : Bytes} {out : Finset Int} {b : Bounds} {hi step v : Int}

theorem stepLoop_past (h : hi < v) (n : ℕ) : stepLoop hi step n v out = .ok out := by
  cases n with
  | zero => rfl
  | succ n => rw [stepLoop, if_neg (not_le.mpr h)]

theorem insertSteps_past (h : hi < v) (n : ℕ) : insertSteps hi step n v out = out := by
  cases n with
  | zero => rfl
  | succ n => rw [insertSteps, if_neg (not_le.mpr h)]

/-- The checked loop runs as the unchecked one if the first value past the bound
is an `int`, and overflows if it is not. -/
theorem stepLoop_eq (hstep : 0 < step) {n : ℕ} (hn : hi - v < n) (hv : v ≤ hi) :
    stepLoop hi step n v out =
      if v + ((hi - v) / step + 1) * step ≤ intMax then .ok (insertSteps hi step n v out)
      else .error .overflow := by
  induction n generalizing v out with
  | zero => omega
  | succ n ih =>
      rw [stepLoop, insertSteps, if_pos hv, if_pos hv]
      by_cases hnext : v + step ≤ hi
      · have hquotient : (hi - v) / step = (hi - (v + step)) / step + 1 := by
          rw [← Int.add_mul_ediv_right _ _ hstep.ne']
          congr 1
          omega
        have hpast : v + ((hi - v) / step + 1) * step =
            v + step + ((hi - (v + step)) / step + 1) * step := by
          rw [hquotient]
          ring
        rw [hpast, ← ih (by omega) hnext]
        by_cases hmax : v + step ≤ intMax
        · rw [if_pos hmax]
        · have hnonneg : 0 ≤ ((hi - (v + step)) / step + 1) * step := by
            have hquot : 0 ≤ (hi - (v + step)) / step := Int.ediv_nonneg (by omega) hstep.le
            positivity
          rw [if_neg hmax, ih (by omega) hnext, if_neg (by omega)]
      · have hzero : (hi - v) / step = 0 := Int.ediv_eq_zero_of_lt (by omega) (by omega)
        rw [hzero, zero_add, one_mul, stepLoop_past (by omega), insertSteps_past (by omega)]

/-- The bounds of an accepted token are in order and in the range. -/
theorem tokenBounds_spec (h : tokenBounds range token = some b) :
    range.lo ≤ b.lo ∧ b.lo ≤ b.hi ∧ b.hi ≤ range.hi ∧ 0 < b.step := by
  unfold tokenBounds at h
  split_ifs at h
  obtain ⟨step, -, h⟩ := Option.bind_eq_some_iff.mp h
  split_ifs at h with hstep
  obtain ⟨p, -, h⟩ := Option.bind_eq_some_iff.mp h
  split_ifs at h with hbounds
  obtain rfl := Option.some.inj h
  refine ⟨?_, ?_, ?_, ?_⟩ <;> simp only <;> omega

/-- The unchecked parser expands the same tokens. -/
theorem parseToken_eq_map : parseToken range token out = (tokenBounds range token).map fun b =>
    insertSteps b.hi b.step ((b.hi - b.lo).toNat + 1) b.lo out := by
  rw [parseToken_eq, tokenBounds]
  split_ifs
  · rfl
  · rw [Option.map_bind]
    congr 1
    ext1 step
    simp only [Function.comp]
    split_ifs
    · rfl
    · rw [Option.map_bind]
      congr 1
      ext1 p
      simp only [Function.comp]
      split_ifs <;> rfl

/-- An accepted token is expanded in full, or its loop overflows. -/
theorem expand_eq (h : tokenBounds range token = some b) (out : Finset Int) :
    b.expand out =
      if b.Fits then .ok (insertSteps b.hi b.step ((b.hi - b.lo).toNat + 1) b.lo out)
      else .error .overflow := by
  obtain ⟨-, hle, -, hstep⟩ := tokenBounds_spec h
  exact stepLoop_eq hstep (by omega) hle

/-- The values of an expanded token lie between its bounds. -/
theorem mem_expand (h : tokenBounds range token = some b) {out' : Finset Int}
    (hexpand : b.expand out = .ok out') (hv : v ∈ out') : v ∈ out ∨ b.lo ≤ v ∧ v ≤ b.hi := by
  obtain ⟨-, -, -, hstep⟩ := tokenBounds_spec h
  rw [expand_eq h] at hexpand
  split_ifs at hexpand
  obtain rfl := Except.ok.inj hexpand
  obtain hout | ⟨k, rfl, hle⟩ := (mem_insertSteps hstep _ _ _ (by omega)).mp hv
  · exact .inl hout
  · have hnonneg : 0 ≤ (k : Int) * b.step := by positivity
    exact .inr ⟨by omega, hle⟩

end Loop

section Fields

variable {range : FieldRange} {tokens : List Bytes} {field : Bytes} {out out' : Finset Int}
  {w : Bool}

/-- If every expanded token fits, the checked parser runs as the unchecked one. -/
theorem foldlM_of_fits (h : ∀ b ∈ expanded range tokens, b.Fits) :
    tokens.foldlM (parseTokenInt range) out =
      orRejected (tokens.foldlM (fun out token => parseToken range token out) out) := by
  induction tokens generalizing out with
  | nil => rfl
  | cons token tokens ih =>
      rw [List.foldlM_cons, List.foldlM_cons, parseTokenInt, parseToken_eq_map]
      cases hbounds : tokenBounds range token with
      | none => rfl
      | some b =>
          rw [expanded, hbounds] at h
          have hfits := h b List.mem_cons_self
          have hrest := @ih (insertSteps b.hi b.step ((b.hi - b.lo).toNat + 1) b.lo out)
            fun b hb => h b (List.mem_cons_of_mem _ hb)
          simp only [orRejected, Except.bind, expand_eq hbounds, if_pos hfits]
          exact hrest

/-- If one does not, the checked parser overflows. -/
theorem foldlM_of_not_fits (h : ¬ ∀ b ∈ expanded range tokens, b.Fits) :
    tokens.foldlM (parseTokenInt range) out = .error .overflow := by
  induction tokens generalizing out with
  | nil => exact absurd (by simp [expanded]) h
  | cons token tokens ih =>
      rw [List.foldlM_cons, parseTokenInt]
      cases hbounds : tokenBounds range token with
      | none => exact absurd (by simp [expanded, hbounds]) h
      | some b =>
          simp only [orRejected, Except.bind, expand_eq hbounds]
          by_cases hfits : b.Fits
          · rw [if_pos hfits]
            apply ih
            intro hrest
            apply h
            simpa [expanded, hbounds] using ⟨hfits, hrest⟩
          · rw [if_neg hfits]
            rfl

/-- Every value the checked parser finds is in the range. -/
theorem foldlM_subset (h : tokens.foldlM (parseTokenInt range) out = .ok out')
    (hout : ∀ v ∈ out, range.lo ≤ v ∧ v ≤ range.hi) : ∀ v ∈ out', range.lo ≤ v ∧ v ≤ range.hi := by
  induction tokens generalizing out with
  | nil =>
      obtain rfl := Except.ok.inj h
      exact hout
  | cons token tokens ih =>
      rw [List.foldlM_cons, parseTokenInt] at h
      cases hbounds : tokenBounds range token with
      | none =>
          rw [hbounds] at h
          cases h
      | some b =>
          obtain ⟨hlo, -, hhi, -⟩ := tokenBounds_spec hbounds
          cases hexpand : b.expand out with
          | error fault =>
              simp only [hbounds, orRejected, Except.bind, hexpand] at h
              cases h
          | ok next =>
              simp only [hbounds, orRejected, Except.bind, hexpand] at h
              refine ih h fun v hv => ?_
              obtain hold | ⟨hlo', hhi'⟩ := mem_expand hbounds hexpand hv
              · exact hout v hold
              · exact ⟨by omega, by omega⟩

/-- Every token of the field that is expanded fits. -/
def FieldFits (range : FieldRange) (field : Bytes) : Prop :=
  ∀ b ∈ expanded range (getlines 44 field), b.Fits

theorem parseFieldInt_of_fits (h : FieldFits range field) :
    parseFieldInt field range = orRejected (parseField field range) := by
  unfold parseFieldInt parseField
  rw [foldlM_of_fits h]
  cases (getlines 44 field).foldlM (fun out token => parseToken range token out) ∅ with
  | none => rfl
  | some out =>
      by_cases hempty : out = ∅
      · simp [hempty, orRejected, bind, Except.bind]
      · simp [hempty, orRejected, bind, Except.bind]

theorem parseFieldInt_of_not_fits (h : ¬ FieldFits range field) :
    parseFieldInt field range = .error .overflow := by
  unfold parseFieldInt
  rw [foldlM_of_not_fits h]
  rfl

/-- A field that is parsed is a set of values of its range, and not empty. -/
theorem parseFieldInt_set (h : parseFieldInt field range = .ok (out, w)) :
    out.Nonempty ∧ ∀ v ∈ out, range.lo ≤ v ∧ v ≤ range.hi := by
  unfold parseFieldInt at h
  cases hfold : (getlines 44 field).foldlM (parseTokenInt range) ∅ with
  | error fault =>
      rw [hfold] at h
      cases h
  | ok values =>
      rw [hfold] at h
      change (if values = ∅ then _ else _) = _ at h
      split_ifs at h with hempty
      obtain ⟨rfl, -⟩ := Prod.mk.inj (Except.ok.inj h)
      exact ⟨Finset.nonempty_iff_ne_empty.mpr hempty, foldlM_subset hfold (by simp)⟩

/-- The loop of `parse_field` stays in range. -/
structure StaysInRange (range : FieldRange) (field : Bytes) : Prop where
  noOverflow : parseFieldInt field range ≠ .error .overflow
  inserted : ∀ b ∈ expanded range (getlines 44 field), ∃ values, b.expand ∅ = .ok values ∧
    ∀ v ∈ values, b.lo ≤ v ∧ v ≤ b.hi
  fieldSet : ∀ out w, parseFieldInt field range = .ok (out, w) →
    out.Nonempty ∧ ∀ v ∈ out, range.lo ≤ v ∧ v ≤ range.hi

theorem exists_token_of_mem_expanded {b : Bounds} (h : b ∈ expanded range tokens) :
    ∃ token ∈ tokens, tokenBounds range token = some b := by
  induction tokens with
  | nil => cases h
  | cons token tokens ih =>
      rw [expanded] at h
      cases hbounds : tokenBounds range token with
      | none =>
          rw [hbounds] at h
          cases h
      | some b' =>
          rw [hbounds] at h
          obtain rfl | htail := List.mem_cons.mp h
          · exact ⟨token, List.mem_cons_self, hbounds⟩
          · obtain ⟨token', hmem, htoken⟩ := ih htail
            exact ⟨token', List.mem_cons_of_mem _ hmem, htoken⟩

theorem staysInRange_iff : StaysInRange range field ↔ FieldFits range field := by
  constructor
  · intro h
    by_contra hnot
    exact h.noOverflow (parseFieldInt_of_not_fits hnot)
  · intro h
    refine ⟨?_, ?_, fun out w hparse => parseFieldInt_set hparse⟩
    · rw [parseFieldInt_of_fits h]
      cases parseField field range <;> simp [orRejected]
    · intro b hb
      obtain ⟨token, -, hbounds⟩ := exists_token_of_mem_expanded hb
      have hexpand := expand_eq hbounds ∅
      rw [if_pos (h b hb)] at hexpand
      refine ⟨_, hexpand, fun v hv => ?_⟩
      exact (mem_expand hbounds hexpand hv).resolve_left (Finset.notMem_empty v)

end Fields

section Schedules

variable {expr : Bytes} {c : CronSchedule}

/-- Every field of the expression fits. -/
def FieldsFit : Bytes → Prop := FiveFields FieldFits

theorem bind_eq_ok {α β : Type} {x : Except Fault α} {f : α → Except Fault β} {b : β} :
    (x >>= f) = .ok b ↔ ∃ a, x = .ok a ∧ f a = .ok b := by
  cases x with
  | error fault => exact iff_of_false (fun h => by cases h) (fun ⟨_, h, _⟩ => by cases h)
  | ok a => exact ⟨fun h => ⟨a, rfl, h⟩, fun ⟨a', h, hf⟩ => Except.ok.inj h ▸ hf⟩

theorem orRejected_eq_ok {α : Type*} {o : Option α} {a : α} : orRejected o = .ok a ↔ o = some a := by
  cases o <;> simp [orRejected]

/-- The checked parser returns a schedule exactly if the unchecked one does and
no loop overflows. -/
theorem parseFieldInt_eq_ok_iff {range : FieldRange} {field : Bytes} {p : Finset Int × Bool} :
    parseFieldInt field range = .ok p ↔ parseField field range = some p ∧ FieldFits range field := by
  by_cases h : FieldFits range field
  · rw [parseFieldInt_of_fits h, orRejected_eq_ok, and_iff_left h]
  · rw [parseFieldInt_of_not_fits h]
    exact iff_of_false (fun heq => by cases heq) fun hand => h hand.2

/-- A schedule comes from five fields. -/
theorem parseInt_ok (h : parseInt expr = .ok c) :
    ∃ p0 p1 p2 p3 p4 f0 f1 f2 f3 f4, words expr = [p0, p1, p2, p3, p4] ∧
      parseFieldInt p0 (ranges 0) = .ok f0 ∧ parseFieldInt p1 (ranges 1) = .ok f1 ∧
      parseFieldInt p2 (ranges 2) = .ok f2 ∧ parseFieldInt p3 (ranges 3) = .ok f3 ∧
      parseFieldInt p4 (ranges 4) = .ok f4 ∧
      c = ⟨![f0.1, f1.1, f2.1, f3.1, normalizeSunday f4.1], f2.2, f4.2⟩ := by
  unfold parseInt at h
  split at h
  · next p0 p1 p2 p3 p4 hwords =>
      obtain ⟨f0, h0, h⟩ := bind_eq_ok.mp h
      obtain ⟨f1, h1, h⟩ := bind_eq_ok.mp h
      obtain ⟨f2, h2, h⟩ := bind_eq_ok.mp h
      obtain ⟨f3, h3, h⟩ := bind_eq_ok.mp h
      obtain ⟨f4, h4, h⟩ := bind_eq_ok.mp h
      exact ⟨p0, p1, p2, p3, p4, f0, f1, f2, f3, f4, hwords, h0, h1, h2, h3, h4,
        (Except.ok.inj h).symm⟩
  · cases h

/-- The checked parser returns a schedule exactly if the unchecked one does and
no loop overflows. -/
theorem parseInt_eq_ok_iff : parseInt expr = .ok c ↔ parse expr = some c ∧ FieldsFit expr := by
  constructor
  · intro h
    obtain ⟨p0, p1, p2, p3, p4, f0, f1, f2, f3, f4, hwords, h0, h1, h2, h3, h4, rfl⟩ := parseInt_ok h
    obtain ⟨h0, hfits0⟩ := parseFieldInt_eq_ok_iff.mp h0
    obtain ⟨h1, hfits1⟩ := parseFieldInt_eq_ok_iff.mp h1
    obtain ⟨h2, hfits2⟩ := parseFieldInt_eq_ok_iff.mp h2
    obtain ⟨h3, hfits3⟩ := parseFieldInt_eq_ok_iff.mp h3
    obtain ⟨h4, hfits4⟩ := parseFieldInt_eq_ok_iff.mp h4
    refine ⟨?_, p0, p1, p2, p3, p4, hwords, hfits0, hfits1, hfits2, hfits3, hfits4⟩
    simp [parse, hwords, h0, h1, h2, h3, h4]
  · rintro ⟨h, p0, p1, p2, p3, p4, hwords, hfits0, hfits1, hfits2, hfits3, hfits4⟩
    simp only [parse, hwords] at h
    obtain ⟨f0, h0, h⟩ := Option.bind_eq_some_iff.mp h
    obtain ⟨f1, h1, h⟩ := Option.bind_eq_some_iff.mp h
    obtain ⟨f2, h2, h⟩ := Option.bind_eq_some_iff.mp h
    obtain ⟨f3, h3, h⟩ := Option.bind_eq_some_iff.mp h
    obtain ⟨f4, h4, h⟩ := Option.bind_eq_some_iff.mp h
    obtain rfl := Option.some.inj h
    simp only [parseInt, hwords, parseFieldInt_eq_ok_iff.mpr ⟨h0, hfits0⟩,
      parseFieldInt_eq_ok_iff.mpr ⟨h1, hfits1⟩, parseFieldInt_eq_ok_iff.mpr ⟨h2, hfits2⟩,
      parseFieldInt_eq_ok_iff.mpr ⟨h3, hfits3⟩, parseFieldInt_eq_ok_iff.mpr ⟨h4, hfits4⟩]
    rfl

/-- A value added for Sunday is in the range of weekdays. -/
theorem normalizeSunday_set {days : Finset Int}
    (h : days.Nonempty ∧ ∀ v ∈ days, (ranges 4).lo ≤ v ∧ v ≤ (ranges 4).hi) :
    (normalizeSunday days).Nonempty ∧
      ∀ v ∈ normalizeSunday days, (ranges 4).lo ≤ v ∧ v ≤ (ranges 4).hi := by
  obtain ⟨⟨day, hday⟩, hrange⟩ := h
  refine ⟨⟨day, mem_normalizeSunday.mpr ⟨day, hday, .inl rfl⟩⟩, fun v hv => ?_⟩
  obtain ⟨w, hw, rfl | ⟨-, rfl⟩⟩ := mem_normalizeSunday.mp hv
  · exact hrange v hw
  · decide

/-- The field sets of a parsed schedule are subsets of their ranges, and not empty. -/
theorem fields_of_parseInt (h : parseInt expr = .ok c) (i : Fin 5) :
    (c.fields i).Nonempty ∧ ∀ v ∈ c.fields i, (ranges i).lo ≤ v ∧ v ≤ (ranges i).hi := by
  obtain ⟨p0, p1, p2, p3, p4, f0, f1, f2, f3, f4, -, h0, h1, h2, h3, h4, rfl⟩ := parseInt_ok h
  fin_cases i
  · exact parseFieldInt_set h0
  · exact parseFieldInt_set h1
  · exact parseFieldInt_set h2
  · exact parseFieldInt_set h3
  · exact normalizeSunday_set (parseFieldInt_set h4)

/-- The step loop of a field stays in range exactly if every token it expands
fits. Every schedule that is parsed has its field sets in range, and a schedule
is parsed exactly if it is so over the integers and its fields fit. -/
theorem step_loop_in_range_iff (field expr : Bytes) (range : FieldRange) (c : CronSchedule) :
    (StaysInRange range field ↔ FieldFits range field) ∧
    (parseInt expr = .ok c → ∀ i,
      (c.fields i).Nonempty ∧ ∀ v ∈ c.fields i, (ranges i).lo ≤ v ∧ v ≤ (ranges i).hi) ∧
    (parseInt expr = .ok c ↔ parse expr = some c ∧ FieldsFit expr) :=
  ⟨staysInRange_iff, fields_of_parseInt, parseInt_eq_ok_iff⟩

/-- From the first of the month, the largest step overflows. -/
theorem step_loop_overflows :
    ¬ StaysInRange (ranges 2) (text "*/2147483647") ∧
      parseInt (text "0 0 */2147483647 * *") = .error .overflow := by
  have hoverflow : parseFieldInt (text "*/2147483647") (ranges 2) = .error .overflow := by
    decide +kernel
  exact ⟨fun h => h.noOverflow hoverflow, by decide +kernel⟩

end Schedules

end AgentPulse.CronSchedule
