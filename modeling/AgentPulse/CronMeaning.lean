import AgentPulse.CronGrammar

/-!
# The meaning of cron expressions

What an expression of the documented grammar denotes, read off its text, and
that a parsed schedule matches exactly the broken-down times its expression
denotes. The sets of the fields come from the loop over tokens and steps, the
wildcard flags from the bare texts, and Sunday from a value added at the end.
-/

namespace AgentPulse.CronSchedule

/-- The values an element of the documented grammar denotes. -/
inductive ElementDenotes (range : FieldRange) : Bytes → Int → Prop
  | star (v : Int) (hlo : range.lo ≤ v) (hhi : v ≤ range.hi) : ElementDenotes range (text "*") v
  | value (a : Bytes) (ha : IsNumeral a) : ElementDenotes range a (numeralValue a)
  | span (a b : Bytes) (v : Int) (ha : IsNumeral a) (hb : IsNumeral b) (hlo : numeralValue a ≤ v)
      (hhi : v ≤ numeralValue b) : ElementDenotes range (a ++ 45 :: b) v
  | starStep (n : Bytes) (k : ℕ) (hn : IsNumeral n)
      (hhi : range.lo + k * numeralValue n ≤ range.hi) :
      ElementDenotes range (text "*" ++ 47 :: n) (range.lo + k * numeralValue n)
  | spanStep (a b n : Bytes) (k : ℕ) (ha : IsNumeral a) (hb : IsNumeral b) (hn : IsNumeral n)
      (hhi : numeralValue a + k * numeralValue n ≤ numeralValue b) :
      ElementDenotes range ((a ++ 45 :: b) ++ 47 :: n) (numeralValue a + k * numeralValue n)

/-- A field denotes the union over its elements. -/
def FieldDenotes (range : FieldRange) (field : Bytes) (v : Int) : Prop :=
  ∃ element ∈ field.splitOn 44, ElementDenotes range element v

/-- A field of weekdays, in which 7 denotes Sunday as 0 does. -/
def WeekdayDenotes (field : Bytes) (w : Int) : Prop :=
  ∃ v, FieldDenotes (ranges 4) field v ∧ (w = v ∨ v = 7 ∧ w = 0)

/-- The condition on the day. Only a field with the text `*` is unrestricted. -/
def DayDenotes (dom dow : Bytes) (tm : Tm) : Prop :=
  if dom = text "*" ∧ dow = text "*" then True
  else if dom = text "*" then WeekdayDenotes dow tm.wday
  else if dow = text "*" then FieldDenotes (ranges 2) dom tm.mday
  else FieldDenotes (ranges 2) dom tm.mday ∨ WeekdayDenotes dow tm.wday

/-- The broken-down times an expression denotes. -/
def Denotes (expr : Bytes) (tm : Tm) : Prop :=
  ∃ p0 p1 p2 p3 p4, words expr = [p0, p1, p2, p3, p4] ∧ FieldDenotes (ranges 0) p0 tm.min ∧
    FieldDenotes (ranges 1) p1 tm.hour ∧ FieldDenotes (ranges 3) p3 (tm.mon + 1) ∧
    DayDenotes p2 p4 tm

/-- Every numeral of the expression is an `int`. -/
def NumeralsFit (expr : Bytes) : Prop :=
  ∀ field ∈ words expr, ∀ element ∈ field.splitOn 44, ∀ s ∈ (read element).numerals,
    numeralValue s < 2 ^ 31

instance : DecidablePred NumeralsFit := fun expr => List.decidableBAll _ (words expr)

section Readings

variable {range : FieldRange} {e : Bytes} {v : Int}

/-- The bounds a base denotes. -/
def Base.interval (range : FieldRange) : Base → Int × Int
  | .star => (range.lo, range.hi)
  | .value a => (numeralValue a, numeralValue a)
  | .span a b => (numeralValue a, numeralValue b)

/-- The stride an element denotes. -/
def Reading.stride (r : Reading) : Int := r.step.elim 1 numeralValue

/-- The values an element denotes, by its reading. -/
def Reading.Denotes (range : FieldRange) (r : Reading) (v : Int) : Prop :=
  ∃ k : ℕ, v = (r.base.interval range).1 + k * r.stride ∧ v ≤ (r.base.interval range).2

/-- Without a step every value between the bounds is denoted. -/
theorem denotes_of_no_step (base : Base) : Reading.Denotes range ⟨base, none⟩ v ↔
    (base.interval range).1 ≤ v ∧ v ≤ (base.interval range).2 := by
  constructor
  · rintro ⟨k, hv, hle⟩
    simp only [Reading.stride, Option.elim_none, mul_one] at hv
    exact ⟨by omega, hle⟩
  · rintro ⟨hlo, hhi⟩
    refine ⟨(v - (base.interval range).1).toNat, ?_, hhi⟩
    simp only [Reading.stride, Option.elim_none, mul_one]
    omega

/-- The two ways to say what an element of the grammar denotes. -/
theorem elementDenotes_iff (h : Element range e) :
    ElementDenotes range e v ↔ (read e).Denotes range v := by
  have hstar : (47 : UInt8) ∉ text "*" := by decide
  have hreadStar : readBase (text "*") = .star := by decide
  constructor
  · intro hdenotes
    cases hdenotes with
    | star _ hlo hhi =>
        rw [read_of_not_mem hstar, hreadStar]
        exact (denotes_of_no_step _).mpr ⟨hlo, hhi⟩
    | value _ ha =>
        rw [read_of_not_mem (ha.not_mem (by decide)), readBase_numeral ha]
        exact (denotes_of_no_step _).mpr ⟨le_refl _, le_refl _⟩
    | span a b _ ha hb hlo hhi =>
        rw [read_of_not_mem (slash_not_mem_span ha hb), readBase_span ha]
        exact (denotes_of_no_step _).mpr ⟨hlo, hhi⟩
    | starStep n k hn hhi =>
        rw [read_step hstar, hreadStar]
        exact ⟨k, rfl, hhi⟩
    | spanStep a b n k ha hb hn hhi =>
        rw [read_step (slash_not_mem_span ha hb), readBase_span ha]
        exact ⟨k, rfl, hhi⟩
  · intro hdenotes
    cases h with
    | star =>
        rw [read_of_not_mem hstar, hreadStar] at hdenotes
        obtain ⟨hlo, hhi⟩ := (denotes_of_no_step _).mp hdenotes
        exact .star v hlo hhi
    | value _ ha _ _ =>
        rw [read_of_not_mem (ha.not_mem (by decide)), readBase_numeral ha] at hdenotes
        obtain ⟨hlo, hhi⟩ := (denotes_of_no_step _).mp hdenotes
        rw [le_antisymm hhi hlo]
        exact .value e ha
    | span a b ha hb _ _ _ =>
        rw [read_of_not_mem (slash_not_mem_span ha hb), readBase_span ha] at hdenotes
        obtain ⟨hlo, hhi⟩ := (denotes_of_no_step _).mp hdenotes
        exact .span a b v ha hb hlo hhi
    | starStep n hn _ =>
        rw [read_step hstar, hreadStar] at hdenotes
        obtain ⟨k, rfl, hhi⟩ := hdenotes
        exact .starStep n k hn hhi
    | spanStep a b n ha hb _ _ _ hn _ =>
        rw [read_step (slash_not_mem_span ha hb), readBase_span ha] at hdenotes
        obtain ⟨k, rfl, hhi⟩ := hdenotes
        exact .spanStep a b n k ha hb hn hhi

end Readings

section Loop

variable {range : FieldRange} {token field : Bytes} {u : Int}

/-- The step loop adds exactly the values of its progression. -/
theorem mem_insertSteps {hi step : Int} (hstep : 0 < step) (n : ℕ) (v : Int) (out : Finset Int)
    (hn : hi - v < n) :
    u ∈ insertSteps hi step n v out ↔ u ∈ out ∨ ∃ k : ℕ, u = v + k * step ∧ u ≤ hi := by
  have hpast : ∀ w : Int, hi < w → ¬ ∃ k : ℕ, u = w + k * step ∧ u ≤ hi := by
    rintro w hw ⟨k, rfl, hle⟩
    have hnonneg : 0 ≤ (k : Int) * step := by positivity
    omega
  induction n generalizing v out with
  | zero =>
      have hv : hi < v := by omega
      rw [insertSteps, or_iff_left (hpast v hv)]
  | succ n ih =>
      rw [insertSteps]
      split_ifs with hv
      · have hnext : hi - (v + step) < n := by omega
        apply (ih (v + step) (insert v out) hnext).trans
        rw [Finset.mem_insert, or_comm (a := u = v), or_assoc]
        apply or_congr_right
        constructor
        · rintro (rfl | ⟨k, rfl, hle⟩)
          · exact ⟨0, by simp, hv⟩
          · exact ⟨k + 1, by push_cast; ring, hle⟩
        · rintro ⟨k, rfl, hle⟩
          cases k with
          | zero => exact Or.inl (by simp)
          | succ k => exact Or.inr ⟨k, by push_cast; ring, hle⟩
      · rw [or_iff_left (hpast v (by omega))]

/-- A documented base is read as the bounds it denotes. -/
theorem bounds_of_documented (hrange : range.hi < 2 ^ 31) {base : Base}
    (h : base.Documented range) : base.bounds range = some (base.interval range) := by
  cases base with
  | star => rfl
  | value a =>
      obtain ⟨ha, _, hhi⟩ := h
      simp only [Base.bounds, stoi_of_lt ha (by omega), Option.map_some, Base.interval]
  | span a b =>
      obtain ⟨ha, hb, _, hle, hhi⟩ := h
      simp only [Base.bounds, stoi_of_lt ha (by omega), stoi_of_lt hb (by omega), Option.bind_some,
        Option.map_some, Base.interval]

/-- A documented base denotes bounds in order and in the range. -/
theorem interval_of_documented (hrange : range.lo ≤ range.hi) {base : Base}
    (h : base.Documented range) : range.lo ≤ (base.interval range).1 ∧
      (base.interval range).1 ≤ (base.interval range).2 ∧
      (base.interval range).2 ≤ range.hi := by
  cases base with
  | star => exact ⟨le_refl _, hrange, le_refl _⟩
  | value a => exact ⟨h.2.1, le_refl _, h.2.2⟩
  | span a b => exact ⟨h.2.2.1, h.2.2.2⟩

/-- A documented step that fits is read as the stride it denotes. -/
theorem stepValue_of_documented (h : (read token).Documented range)
    (hfits : ∀ s ∈ (read token).numerals, numeralValue s < 2 ^ 31) :
    (read token).stepValue = some (read token).stride ∧ 0 < (read token).stride := by
  unfold Reading.stepValue Reading.stride
  cases hstep : (read token).step with
  | none => exact ⟨rfl, one_pos⟩
  | some count =>
      obtain ⟨hn, hpos⟩ := h.step count hstep
      have hmem : count ∈ (read token).numerals :=
        List.mem_append_right _ (Option.mem_toList.mpr hstep)
      exact ⟨stoi_of_lt hn (hfits count hmem), hpos⟩

/-- A documented token adds the values it denotes. -/
theorem parseToken_denotes (hle : range.lo ≤ range.hi) (hlt : range.hi < 2 ^ 31)
    (out : Finset Int) (h : Element range token)
    (hfits : ∀ s ∈ (read token).numerals, numeralValue s < 2 ^ 31) :
    ∃ out', parseToken range token out = some out' ∧
      ∀ v, v ∈ out' ↔ v ∈ out ∨ ElementDenotes range token v := by
  have hdocumented := element_iff.mp h
  obtain ⟨hstep, hpos⟩ := stepValue_of_documented hdocumented hfits
  obtain ⟨hlo, hbounds, hhi⟩ := interval_of_documented hle hdocumented.base
  generalize hb : (read token).base.interval range = b at hlo hbounds hhi
  refine ⟨insertSteps b.2 (read token).stride ((b.2 - b.1).toNat + 1) b.1 out, ?_, ?_⟩
  · rw [parseToken_eq, if_neg h.ne_nil, hstep, Option.bind_some, if_neg (by omega),
      bounds_of_documented hlt hdocumented.base, hb, Option.bind_some, if_neg (by omega)]
  · intro v
    rw [elementDenotes_iff h, mem_insertSteps hpos _ _ _ (by omega), Reading.Denotes, hb]

/-- The loop over the tokens adds the values any of them denotes. -/
theorem foldlM_denotes (hle : range.lo ≤ range.hi) (hlt : range.hi < 2 ^ 31)
    (tokens : List Bytes) (out : Finset Int) (h : ∀ token ∈ tokens, Element range token)
    (hfits : ∀ token ∈ tokens, ∀ s ∈ (read token).numerals, numeralValue s < 2 ^ 31) :
    ∃ out', tokens.foldlM (fun out token => parseToken range token out) out = some out' ∧
      ∀ v, v ∈ out' ↔ v ∈ out ∨ ∃ token ∈ tokens, ElementDenotes range token v := by
  induction tokens generalizing out with
  | nil => exact ⟨out, rfl, by simp⟩
  | cons token tokens ih =>
      obtain ⟨next, hnext, hmem⟩ := parseToken_denotes hle hlt out
        (h token List.mem_cons_self) (hfits token List.mem_cons_self)
      obtain ⟨out', hrest, hmem'⟩ := ih next
        (fun t ht => h t (List.mem_cons_of_mem _ ht))
        (fun t ht => hfits t (List.mem_cons_of_mem _ ht))
      refine ⟨out', ?_, ?_⟩
      · rw [List.foldlM_cons, hnext]
        exact hrest
      · intro v
        rw [hmem', hmem, or_assoc, List.exists_mem_cons_iff]

/-- A documented field is parsed as the set it denotes. -/
theorem parseField_denotes (i : Fin 5)
    (h : ∀ element ∈ field.splitOn 44, Element (ranges i) element)
    (hfits : ∀ element ∈ field.splitOn 44, ∀ s ∈ (read element).numerals,
      numeralValue s < 2 ^ 31) :
    ∃ out, parseField field (ranges i) = some (out, decide (field = text "*")) ∧
      ∀ v, v ∈ out ↔ FieldDenotes (ranges i) field v := by
  obtain ⟨hle, hlt⟩ := ranges_bounds i
  obtain ⟨out, hfold, hmem⟩ := foldlM_denotes hle hlt _ ∅ h hfits
  have hne : out ≠ ∅ := foldlM_ne_empty hfold (Or.inl (List.splitOn_ne_nil 44 field))
  refine ⟨out, ?_, by simpa [FieldDenotes] using hmem⟩
  unfold parseField
  rw [getlines_eq (getLast?_of_elements h), hfold]
  simp [hne]

end Loop

theorem mem_normalizeSunday {days : Finset Int} {w : Int} :
    w ∈ normalizeSunday days ↔ ∃ v ∈ days, w = v ∨ v = 7 ∧ w = 0 := by
  unfold normalizeSunday
  split_ifs with hseven
  · rw [Finset.mem_insert]
    constructor
    · rintro (rfl | hw)
      · exact ⟨7, hseven, Or.inr ⟨rfl, rfl⟩⟩
      · exact ⟨w, hw, Or.inl rfl⟩
    · rintro ⟨v, hv, rfl | ⟨rfl, rfl⟩⟩
      · exact Or.inr hv
      · exact Or.inl rfl
  · constructor
    · intro hw
      exact ⟨w, hw, Or.inl rfl⟩
    · rintro ⟨v, hv, rfl | ⟨rfl, rfl⟩⟩
      · exact hv
      · exact absurd hv hseven

/-- A schedule whose sets and flags are those of its fields matches the times
the fields denote. -/
theorem matchesTm_iff {c : CronSchedule} {p0 p1 p2 p3 p4 : Bytes} (tm : Tm)
    (h0 : ∀ v, v ∈ c.fields 0 ↔ FieldDenotes (ranges 0) p0 v)
    (h1 : ∀ v, v ∈ c.fields 1 ↔ FieldDenotes (ranges 1) p1 v)
    (h2 : ∀ v, v ∈ c.fields 2 ↔ FieldDenotes (ranges 2) p2 v)
    (h3 : ∀ v, v ∈ c.fields 3 ↔ FieldDenotes (ranges 3) p3 v)
    (h4 : ∀ w, w ∈ c.fields 4 ↔ WeekdayDenotes p4 w)
    (hdom : c.domWildcard = decide (p2 = text "*"))
    (hdow : c.dowWildcard = decide (p4 = text "*")) :
    c.matchesTm tm = true ↔ FieldDenotes (ranges 0) p0 tm.min ∧
      FieldDenotes (ranges 1) p1 tm.hour ∧ FieldDenotes (ranges 3) p3 (tm.mon + 1) ∧
      DayDenotes p2 p4 tm := by
  unfold matchesTm DayDenotes
  rw [← h0, ← h1, ← h2, ← h3, ← h4, hdom, hdow]
  by_cases hmin : tm.min ∈ c.fields 0
  · by_cases hhour : tm.hour ∈ c.fields 1
    · by_cases hmon : tm.mon + 1 ∈ c.fields 3
      · by_cases hp2 : p2 = text "*"
        · by_cases hp4 : p4 = text "*"
          · simp [hmin, hhour, hmon, hp2, hp4]
          · simp [hmin, hhour, hmon, hp2, hp4]
        · by_cases hp4 : p4 = text "*"
          · simp [hmin, hhour, hmon, hp2, hp4]
          · simp [hmin, hhour, hmon, hp2, hp4]
      · simp [hmin, hhour, hmon]
    · simp [hmin, hhour]
  · simp [hmin]

/-- The parsed schedule of a documented expression matches exactly the times
the expression denotes. -/
theorem parse_denotes {expr : Bytes} (hdocumented : Documented expr)
    (hfits : NumeralsFit expr) :
    ∃ c, parse expr = some c ∧ ∀ tm : Tm, c.matchesTm tm = true ↔ Denotes expr tm := by
  obtain ⟨p0, p1, p2, p3, p4, hwords, h0, h1, h2, h3, h4⟩ := hdocumented
  unfold NumeralsFit at hfits
  rw [hwords] at hfits
  obtain ⟨s0, hp0, hs0⟩ := parseField_denotes 0 h0 (hfits p0 (by simp))
  obtain ⟨s1, hp1, hs1⟩ := parseField_denotes 1 h1 (hfits p1 (by simp))
  obtain ⟨s2, hp2, hs2⟩ := parseField_denotes 2 h2 (hfits p2 (by simp))
  obtain ⟨s3, hp3, hs3⟩ := parseField_denotes 3 h3 (hfits p3 (by simp))
  obtain ⟨s4, hp4, hs4⟩ := parseField_denotes 4 h4 (hfits p4 (by simp))
  refine ⟨⟨![s0, s1, s2, s3, normalizeSunday s4], decide (p2 = text "*"),
    decide (p4 = text "*")⟩, ?_, ?_⟩
  · unfold parse
    rw [hwords]
    simp only [hp0, hp1, hp2, hp3, hp4]
    rfl
  · intro tm
    have hsunday : ∀ w, w ∈ normalizeSunday s4 ↔ WeekdayDenotes p4 w := by
      intro w
      rw [mem_normalizeSunday]
      simp only [hs4, WeekdayDenotes]
    rw [matchesTm_iff tm hs0 hs1 hs2 hs3 hsunday rfl rfl]
    constructor
    · intro h
      exact ⟨p0, p1, p2, p3, p4, hwords, h⟩
    · rintro ⟨_, _, _, _, _, heq, h⟩
      obtain ⟨rfl, rfl, rfl, rfl, rfl⟩ : _ ∧ _ ∧ _ ∧ _ ∧ _ := by
        simpa only [List.cons.injEq, and_true] using hwords.symm.trans heq
      exact h

/-- Every twenty minutes of the working hours, on the first, the fifteenth, each
Friday and each Sunday. -/
theorem parse_denotes_weekends :
    ∃ c, parse (text "*/20 9-17 1,15 * 5-7/2") = some c ∧
      ∀ tm : Tm, c.matchesTm tm = true ↔ Denotes (text "*/20 9-17 1,15 * 5-7/2") tm := by
  apply parse_denotes
  · apply documented_of_loose
    · exact (parse_isSome_iff _).mp (by decide +kernel)
    · decide +kernel
  · decide +kernel

end AgentPulse.CronSchedule
