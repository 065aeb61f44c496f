import AgentPulse.Cron
import AgentPulse.Numerals

/-!
# The grammar of cron expressions

The documented grammar and what `CronSchedule::parse` accepts. The parser reads
its numerals with `std::stoi`, which takes a sign, ignores what follows the
digits and has a largest value; its split at commas does not see a comma at the
end; and it takes a step after a single value. Apart from these five points it
accepts the documented expressions and no others.
-/

namespace AgentPulse.CronSchedule

/-- An element of the documented grammar: `*`, `a`, `a-b`, `*/n` or `a-b/n`. -/
inductive Element (range : FieldRange) : Bytes → Prop
  | star : Element range (text "*")
  | value (a : Bytes) (ha : IsNumeral a) (hlo : range.lo ≤ numeralValue a)
      (hhi : numeralValue a ≤ range.hi) : Element range a
  | span (a b : Bytes) (ha : IsNumeral a) (hb : IsNumeral b) (hlo : range.lo ≤ numeralValue a)
      (hle : numeralValue a ≤ numeralValue b) (hhi : numeralValue b ≤ range.hi) :
      Element range (a ++ 45 :: b)
  | starStep (n : Bytes) (hn : IsNumeral n) (hpos : 1 ≤ numeralValue n) :
      Element range (text "*" ++ 47 :: n)
  | spanStep (a b n : Bytes) (ha : IsNumeral a) (hb : IsNumeral b)
      (hlo : range.lo ≤ numeralValue a) (hle : numeralValue a ≤ numeralValue b)
      (hhi : numeralValue b ≤ range.hi) (hn : IsNumeral n) (hpos : 1 ≤ numeralValue n) :
      Element range ((a ++ 45 :: b) ++ 47 :: n)

/-- The expression has five words, and each of them is a field of its range. -/
def FiveFields (field : FieldRange → Bytes → Prop) (expr : Bytes) : Prop :=
  ∃ p0 p1 p2 p3 p4, words expr = [p0, p1, p2, p3, p4] ∧ field (ranges 0) p0 ∧
    field (ranges 1) p1 ∧ field (ranges 2) p2 ∧ field (ranges 3) p3 ∧ field (ranges 4) p4

/-- The documented grammar: each field is a comma list of elements. -/
def Documented : Bytes → Prop :=
  FiveFields fun range field => ∀ element ∈ field.splitOn 44, Element range element

/-- The part of an element before its step. -/
inductive Base where
  | star
  | value (a : Bytes)
  | span (a b : Bytes)
  deriving DecidableEq

/-- The two searches of the parser in a base. -/
def readBase (base : Bytes) : Base :=
  if base = text "*" then .star
  else match splitFirst 45 base with
    | some (a, b) => .span a b
    | none => .value base

/-- An element split at its first slash. -/
structure Reading where
  base : Base
  step : Option Bytes

def read (element : Bytes) : Reading :=
  match splitFirst 47 element with
  | some (base, count) => ⟨readBase base, some count⟩
  | none => ⟨readBase element, none⟩

/-- The texts in the place of numerals. -/
def Base.numerals : Base → List Bytes
  | .star => []
  | .value a => [a]
  | .span a b => [a, b]

def Reading.numerals (r : Reading) : List Bytes := r.base.numerals ++ r.step.toList

/-- A base whose numerals `std::stoi` reads as values in order and in the range. -/
def Base.Admitted (range : FieldRange) : Base → Prop
  | .star => True
  | .value a => ∃ v ∈ stoi a, range.lo ≤ v ∧ v ≤ range.hi
  | .span a b => ∃ v ∈ stoi a, ∃ w ∈ stoi b, range.lo ≤ v ∧ v ≤ w ∧ w ≤ range.hi

/-- An element whose numerals `std::stoi` reads as values that fit. -/
def Admitted (range : FieldRange) (element : Bytes) : Prop :=
  (read element).base.Admitted range ∧ ∀ count ∈ (read element).step, ∃ n ∈ stoi count, 1 ≤ n

/-- The loose grammar: each field has an element before its first comma, and all
its elements, up to a comma at its end, are admitted. -/
def Loose : Bytes → Prop :=
  FiveFields fun range field => getlines 44 field ≠ [] ∧
    ∀ element ∈ getlines 44 field, element ≠ [] ∧ Admitted range element

/-- A single value has a step. -/
def Reading.StepsValue (r : Reading) : Prop :=
  match r.base with
  | .value _ => r.step.isSome = true
  | _ => False

/-- An element with a text other than digits in the place of a numeral, or with
a step after a single value. -/
def SlipsIn (element : Bytes) : Prop :=
  (∃ s ∈ (read element).numerals, ¬ IsNumeral s) ∨ (read element).StepsValue

/-- A field ends in a comma, or an element is outside the grammar. -/
def Slips (expr : Bytes) : Prop :=
  ∃ field ∈ words expr, (field.splitOn 44).getLast? = some [] ∨
    ∃ element ∈ field.splitOn 44, SlipsIn element

instance : DecidablePred Reading.StepsValue
  | ⟨.star, _⟩ => isFalse id
  | ⟨.value _, step⟩ => inferInstanceAs (Decidable (step.isSome = true))
  | ⟨.span _ _, _⟩ => isFalse id

instance : DecidablePred SlipsIn := fun _ => inferInstanceAs (Decidable (_ ∨ _))

instance : DecidablePred Slips := fun expr => List.decidableBEx _ (words expr)

/-- The step is larger than an `int`. -/
def LongStepIn (element : Bytes) : Prop :=
  ∃ count ∈ (read element).step, 2 ^ 31 ≤ numeralValue count

def LongStep (expr : Bytes) : Prop :=
  ∃ field ∈ words expr, ∃ element ∈ field.splitOn 44, LongStepIn element

section Splits

variable {sep : UInt8} {s x y : Bytes}

theorem splitFirst_cons (c : UInt8) (s : Bytes) :
    splitFirst sep (c :: s) =
      if c = sep then some ([], s) else (splitFirst sep s).map fun p => (c :: p.1, p.2) := by
  unfold splitFirst
  by_cases hc : c = sep
  · simp [hc]
  · have hne : (c != sep) = true := by simpa using hc
    rw [List.dropWhile_cons, List.takeWhile_cons, if_pos hne, if_pos hne, if_neg hc]
    cases s.dropWhile (· != sep) <;> rfl

theorem splitFirst_eq_none_iff : splitFirst sep s = none ↔ sep ∉ s := by
  induction s with
  | nil => simp [splitFirst]
  | cons c s ih =>
      rw [splitFirst_cons, List.mem_cons, not_or, ← ih]
      by_cases hc : c = sep
      · simp [hc]
      · simp [hc, Ne.symm hc]

theorem splitFirst_eq_some_iff : splitFirst sep s = some (x, y) ↔ s = x ++ sep :: y ∧ sep ∉ x := by
  induction s generalizing x with
  | nil => simp [splitFirst]
  | cons c s ih =>
      rw [splitFirst_cons]
      by_cases hc : c = sep
      · rw [if_pos hc, Option.some.injEq, Prod.mk.injEq]
        constructor
        · rintro ⟨rfl, rfl⟩
          exact ⟨by rw [hc]; rfl, List.not_mem_nil⟩
        · rintro ⟨heq, hx⟩
          cases x with
          | nil =>
              rw [List.nil_append] at heq
              exact ⟨rfl, (List.cons.inj heq).2⟩
          | cons d x =>
              obtain ⟨rfl, _⟩ := List.cons.inj heq
              exact absurd (hc ▸ List.mem_cons_self) hx
      · rw [if_neg hc]
        constructor
        · intro hmap
          obtain ⟨⟨x', y'⟩, hsplit, heq⟩ := Option.map_eq_some_iff.mp hmap
          cases heq
          obtain ⟨rfl, hx⟩ := ih.mp hsplit
          exact ⟨rfl, by simp [hx, Ne.symm hc]⟩
        · rintro ⟨heq, hx⟩
          cases x with
          | nil => exact absurd (List.cons.inj heq).1 hc
          | cons d x =>
              obtain ⟨rfl, rfl⟩ := List.cons.inj heq
              rw [ih.mpr ⟨rfl, fun hmem => hx (List.mem_cons_of_mem _ hmem)⟩]
              rfl

end Splits

section Elements

variable {range : FieldRange} {e : Bytes}

/-- A base of the documented grammar. -/
def Base.Documented (range : FieldRange) : Base → Prop
  | .star => True
  | .value a => IsNumeral a ∧ range.lo ≤ numeralValue a ∧ numeralValue a ≤ range.hi
  | .span a b => IsNumeral a ∧ IsNumeral b ∧ range.lo ≤ numeralValue a ∧
      numeralValue a ≤ numeralValue b ∧ numeralValue b ≤ range.hi

/-- An element of the documented grammar, by its reading. -/
structure Reading.Documented (range : FieldRange) (r : Reading) : Prop where
  base : r.base.Documented range
  step : ∀ count ∈ r.step, IsNumeral count ∧ 1 ≤ numeralValue count
  stepsValue : ¬ r.StepsValue

theorem readBase_numeral {a : Bytes} (ha : IsNumeral a) : readBase a = .value a := by
  rw [readBase, if_neg ha.ne_star, splitFirst_eq_none_iff.mpr (ha.not_mem (by decide))]

theorem readBase_span {a b : Bytes} (ha : IsNumeral a) : readBase (a ++ 45 :: b) = .span a b := by
  have hne : a ++ 45 :: b ≠ text "*" := by
    intro heq
    have hmem : (45 : UInt8) ∈ text "*" := heq ▸ List.mem_append_right _ List.mem_cons_self
    exact absurd hmem (by decide)
  rw [readBase, if_neg hne, splitFirst_eq_some_iff.mpr ⟨rfl, ha.not_mem (by decide)⟩]

theorem read_of_not_mem {base : Bytes} (h : 47 ∉ base) : read base = ⟨readBase base, none⟩ := by
  rw [read, splitFirst_eq_none_iff.mpr h]

theorem read_step {base n : Bytes} (h : 47 ∉ base) :
    read (base ++ 47 :: n) = ⟨readBase base, some n⟩ := by
  rw [read, splitFirst_eq_some_iff.mpr ⟨rfl, h⟩]

theorem slash_not_mem_span {a b : Bytes} (ha : IsNumeral a) (hb : IsNumeral b) :
    47 ∉ a ++ 45 :: b := by
  have hslash : isDigit 47 = false := by decide
  simp [ha.not_mem hslash, hb.not_mem hslash]

/-- The two ways to say what an element is. -/
theorem element_iff : Element range e ↔ (read e).Documented range := by
  have hstar : (47 : UInt8) ∉ text "*" := by decide
  have hreadStar : readBase (text "*") = .star := by decide
  constructor
  · intro h
    cases h with
    | star =>
        rw [read_of_not_mem hstar, hreadStar]
        exact ⟨trivial, by simp, id⟩
    | value a ha hlo hhi =>
        rw [read_of_not_mem (ha.not_mem (by decide)), readBase_numeral ha]
        exact ⟨⟨ha, hlo, hhi⟩, by simp, by simp [Reading.StepsValue]⟩
    | span a b ha hb hlo hle hhi =>
        rw [read_of_not_mem (slash_not_mem_span ha hb), readBase_span ha]
        exact ⟨⟨ha, hb, hlo, hle, hhi⟩, by simp, id⟩
    | starStep n hn hpos =>
        rw [read_step hstar, hreadStar]
        exact ⟨trivial, by simpa using ⟨hn, hpos⟩, id⟩
    | spanStep a b n ha hb hlo hle hhi hn hpos =>
        rw [read_step (slash_not_mem_span ha hb), readBase_span ha]
        exact ⟨⟨ha, hb, hlo, hle, hhi⟩, by simpa using ⟨hn, hpos⟩, id⟩
  · rintro ⟨hbase, hstep, hvalue⟩
    have hread : ∀ base : Bytes, (readBase base).Documented range →
        base = text "*" ∨ (readBase base = .value base ∧ IsNumeral base ∧
          range.lo ≤ numeralValue base ∧ numeralValue base ≤ range.hi) ∨
        ∃ a b, base = a ++ 45 :: b ∧ IsNumeral a ∧ IsNumeral b ∧ range.lo ≤ numeralValue a ∧
          numeralValue a ≤ numeralValue b ∧ numeralValue b ≤ range.hi := by
      intro base hdocumented
      unfold readBase at hdocumented ⊢
      split_ifs at hdocumented ⊢ with hbaseStar
      · exact Or.inl hbaseStar
      · right
        cases hsplit : splitFirst 45 base with
        | none =>
            rw [hsplit] at hdocumented
            exact Or.inl ⟨rfl, hdocumented⟩
        | some p =>
            obtain ⟨a, b⟩ := p
            rw [hsplit] at hdocumented
            exact Or.inr ⟨a, b, (splitFirst_eq_some_iff.mp hsplit).1, hdocumented⟩
    cases hslash : splitFirst 47 e with
    | none =>
        have heq : read e = ⟨readBase e, none⟩ := by rw [read, hslash]
        rw [heq] at hbase
        obtain rfl | ⟨_, ha, hlo, hhi⟩ | ⟨a, b, rfl, ha, hb, hlo, hle, hhi⟩ := hread e hbase
        · exact .star
        · exact .value e ha hlo hhi
        · exact .span a b ha hb hlo hle hhi
    | some p =>
        obtain ⟨base, n⟩ := p
        have heq : read e = ⟨readBase base, some n⟩ := by rw [read, hslash]
        rw [heq] at hbase hstep hvalue
        obtain ⟨rfl, _⟩ := splitFirst_eq_some_iff.mp hslash
        obtain ⟨hn, hpos⟩ := hstep n rfl
        obtain rfl | ⟨hreading, _⟩ | ⟨a, b, rfl, ha, hb, hlo, hle, hhi⟩ := hread base hbase
        · exact .starStep n hn hpos
        · exact absurd (by simp [Reading.StepsValue, hreading]) hvalue
        · exact .spanStep a b n ha hb hlo hle hhi hn hpos

/-- A documented element has nothing but digits in the place of numerals. -/
theorem not_slips_of_documented (h : (read e).Documented range) : ¬ SlipsIn e := by
  rintro (⟨s, hs, hnot⟩ | hvalue)
  · apply hnot
    obtain hbase | hstep := List.mem_append.mp hs
    · have hdocumented := h.base
      cases hcases : (read e).base with
      | star =>
          rw [hcases] at hbase
          cases hbase
      | value a =>
          rw [hcases] at hbase hdocumented
          rw [List.mem_singleton.mp hbase]
          exact hdocumented.1
      | span a b =>
          rw [hcases] at hbase hdocumented
          obtain rfl | hb := List.mem_cons.mp hbase
          · exact hdocumented.1
          · rw [List.mem_singleton.mp hb]
            exact hdocumented.2.1
    · exact (h.step s (Option.mem_toList.mp hstep)).1
  · exact h.stepsValue hvalue

/-- An admitted element without a slip is documented. -/
theorem documented_of_admitted (h : Admitted range e) (hslips : ¬ SlipsIn e) :
    (read e).Documented range := by
  obtain ⟨hbase, hstep⟩ := h
  obtain ⟨hnumerals, hvalue⟩ := not_or.mp hslips
  have hnumeral : ∀ s ∈ (read e).numerals, IsNumeral s := by
    intro s hs
    by_contra hnot
    exact hnumerals ⟨s, hs, hnot⟩
  refine ⟨?_, ?_, hvalue⟩
  · unfold Reading.numerals at hnumeral
    cases hcases : (read e).base with
    | star => trivial
    | value a =>
        rw [hcases] at hbase hnumeral
        have ha : IsNumeral a := hnumeral a (by simp [Base.numerals])
        obtain ⟨v, hv, hlo, hhi⟩ := hbase
        rw [value_of_stoi ha hv] at hlo hhi
        exact ⟨ha, hlo, hhi⟩
    | span a b =>
        rw [hcases] at hbase hnumeral
        have ha : IsNumeral a := hnumeral a (by simp [Base.numerals])
        have hb : IsNumeral b := hnumeral b (by simp [Base.numerals])
        obtain ⟨v, hv, w, hw, hlo, hle, hhi⟩ := hbase
        rw [value_of_stoi ha hv] at hlo hle
        rw [value_of_stoi hb hw] at hle hhi
        exact ⟨ha, hb, hlo, hle, hhi⟩
  · intro count hcount
    have hn : IsNumeral count :=
      hnumeral count (List.mem_append_right _ (Option.mem_toList.mpr hcount))
    obtain ⟨n, hread, hpos⟩ := hstep count hcount
    rw [value_of_stoi hn hread] at hpos
    exact ⟨hn, hpos⟩

/-- A documented element whose step fits is admitted. -/
theorem admitted_of_documented (hrange : range.hi < 2 ^ 31) (h : (read e).Documented range)
    (hlong : ¬ LongStepIn e) : Admitted range e := by
  constructor
  · have hdocumented := h.base
    cases hcases : (read e).base with
    | star => trivial
    | value a =>
        rw [hcases] at hdocumented
        obtain ⟨ha, hlo, hhi⟩ := hdocumented
        exact ⟨_, stoi_of_lt ha (by omega), hlo, hhi⟩
    | span a b =>
        rw [hcases] at hdocumented
        obtain ⟨ha, hb, hlo, hle, hhi⟩ := hdocumented
        exact ⟨_, stoi_of_lt ha (by omega), _, stoi_of_lt hb (by omega), hlo, hle, hhi⟩
  · intro count hcount
    obtain ⟨hn, hpos⟩ := h.step count hcount
    have hlt : numeralValue count < 2 ^ 31 := by
      by_contra hge
      exact hlong ⟨count, hcount, not_lt.mp hge⟩
    exact ⟨_, stoi_of_lt hn hlt, hpos⟩

/-- A step that is too long is never admitted. -/
theorem not_admitted_of_long {range' : FieldRange} (h : (read e).Documented range)
    (hlong : LongStepIn e) : ¬ Admitted range' e := by
  obtain ⟨count, hcount, hge⟩ := hlong
  intro hadmitted
  obtain ⟨n, hread, _⟩ := hadmitted.2 count hcount
  rw [stoi_numeral (h.step count hcount).1, if_neg (not_lt.mpr hge)] at hread
  cases hread

theorem Element.ne_nil (h : Element range e) : e ≠ [] := by
  rintro rfl
  obtain ⟨hbase, _, _⟩ := element_iff.mp h
  have hread : (read []).base = .value [] := by decide
  rw [hread] at hbase
  exact hbase.1.1 rfl

end Elements

section Parser

variable {range : FieldRange} {token field : Bytes} {out out' : Finset Int}

theorem subset_insertSteps (hi step : Int) (n : ℕ) (v : Int) (out : Finset Int) :
    out ⊆ insertSteps hi step n v out := by
  induction n generalizing v out with
  | zero => exact Finset.Subset.refl _
  | succ n ih =>
      unfold insertSteps
      split_ifs
      · exact (Finset.subset_insert _ _).trans (ih _ _)
      · exact Finset.Subset.refl _

/-- The bounds the parser takes from a base. -/
def Base.bounds (range : FieldRange) : Base → Option (Int × Int)
  | .star => some (range.lo, range.hi)
  | .value a => (stoi a).map fun v => (v, v)
  | .span a b => (stoi a).bind fun lo => (stoi b).map fun hi => (lo, hi)

/-- The step the parser takes from an element. -/
def Reading.stepValue (r : Reading) : Option Int :=
  match r.step with
  | none => some 1
  | some count => stoi count

theorem bounds_readBase (base : Bytes) :
    (readBase base).bounds range =
      if base = text "*" then some (range.lo, range.hi)
      else match splitFirst 45 base with
        | some (first, last) => (stoi first).bind fun lo => (stoi last).map fun hi => (lo, hi)
        | none => (stoi base).map fun v => (v, v) := by
  unfold readBase
  split_ifs
  · rfl
  · cases splitFirst 45 base <;> rfl

/-- The parser works on the reading of a token. -/
theorem parseToken_eq :
    parseToken range token out =
      if token = [] then none
      else (read token).stepValue.bind fun step =>
        if step ≤ 0 then none
        else ((read token).base.bounds range).bind fun b =>
          if b.1 < range.lo ∨ b.2 > range.hi ∨ b.1 > b.2 then none
          else some (insertSteps b.2 step ((b.2 - b.1).toNat + 1) b.1 out) := by
  unfold parseToken
  by_cases hempty : token = []
  · simp [hempty]
  · cases hslash : splitFirst 47 token with
    | none =>
        have hread : read token = ⟨readBase token, none⟩ := by rw [read, hslash]
        simp only [hread, bounds_readBase, Reading.stepValue, hempty, if_false]
        by_cases hstar : token = text "*"
        · simp [hstar]
        · cases hdash : splitFirst 45 token <;> simp [hstar, hdash]
    | some p =>
        obtain ⟨base, count⟩ := p
        have hread : read token = ⟨readBase base, some count⟩ := by rw [read, hslash]
        simp only [hread, bounds_readBase, Reading.stepValue, hempty, if_false]
        cases hstep : stoi count with
        | none => simp
        | some step =>
            by_cases hstar : base = text "*"
            · simp [hstar]
            · cases hdash : splitFirst 45 base <;> simp [hstar, hdash]

theorem admitted_iff_bounds (hrange : range.lo ≤ range.hi) (base : Base) :
    base.Admitted range ↔
      ∃ b ∈ base.bounds range, ¬ (b.1 < range.lo ∨ b.2 > range.hi ∨ b.1 > b.2) := by
  cases base with
  | star =>
      refine iff_of_true trivial ⟨_, rfl, ?_⟩
      simp only
      omega
  | value a =>
      constructor
      · rintro ⟨v, hv, hlo, hhi⟩
        refine ⟨(v, v), Option.map_eq_some_iff.mpr ⟨v, hv, rfl⟩, ?_⟩
        simp only
        omega
      · rintro ⟨b, hb, hfits⟩
        obtain ⟨v, hv, rfl⟩ := Option.map_eq_some_iff.mp hb
        simp only at hfits
        exact ⟨v, hv, by omega, by omega⟩
  | span a b =>
      constructor
      · rintro ⟨v, hv, w, hw, hlo, hle, hhi⟩
        refine ⟨(v, w), Option.bind_eq_some_iff.mpr ⟨v, hv, Option.map_eq_some_iff.mpr
          ⟨w, hw, rfl⟩⟩, ?_⟩
        simp only
        omega
      · rintro ⟨p, hp, hfits⟩
        obtain ⟨v, hv, hp⟩ := Option.bind_eq_some_iff.mp hp
        obtain ⟨w, hw, rfl⟩ := Option.map_eq_some_iff.mp hp
        simp only at hfits
        exact ⟨v, hv, w, hw, by omega, by omega, by omega⟩

theorem stepValue_iff (r : Reading) :
    (∀ count ∈ r.step, ∃ n ∈ stoi count, 1 ≤ n) ↔ ∃ n ∈ r.stepValue, ¬ n ≤ 0 := by
  unfold Reading.stepValue
  cases r.step with
  | none => simp
  | some count =>
      simp only [Option.mem_def, Option.some.injEq, forall_eq', not_le]
      exact ⟨fun ⟨n, hn, hpos⟩ => ⟨n, hn, by omega⟩, fun ⟨n, hn, hpos⟩ => ⟨n, hn, by omega⟩⟩

/-- The parser takes exactly the admitted tokens. -/
theorem parseToken_isSome_iff (hrange : range.lo ≤ range.hi) :
    (parseToken range token out).isSome = true ↔ token ≠ [] ∧ Admitted range token := by
  rw [parseToken_eq, Admitted, admitted_iff_bounds hrange, stepValue_iff]
  by_cases hempty : token = []
  · simp [hempty]
  · rw [if_neg hempty]
    constructor
    · intro hsome
      obtain ⟨out', hout⟩ := Option.isSome_iff_exists.mp hsome
      obtain ⟨n, hn, hout⟩ := Option.bind_eq_some_iff.mp hout
      split_ifs at hout with hpos
      obtain ⟨b, hb, hout⟩ := Option.bind_eq_some_iff.mp hout
      split_ifs at hout with hfits
      exact ⟨hempty, ⟨b, hb, hfits⟩, n, hn, hpos⟩
    · rintro ⟨_, ⟨b, hb, hfits⟩, n, hn, hpos⟩
      rw [Option.mem_def] at hb hn
      rw [hn, Option.bind_some, if_neg hpos, hb, Option.bind_some, if_neg hfits]
      rfl

/-- A token the parser takes leaves a value. -/
theorem parseToken_ne_empty (h : parseToken range token out = some out') : out' ≠ ∅ := by
  rw [parseToken_eq] at h
  split_ifs at h
  obtain ⟨n, _, h⟩ := Option.bind_eq_some_iff.mp h
  split_ifs at h
  obtain ⟨b, _, h⟩ := Option.bind_eq_some_iff.mp h
  split_ifs at h with hfits
  cases h
  have hle : b.1 ≤ b.2 := by omega
  unfold insertSteps
  rw [if_pos hle]
  exact Finset.ne_empty_of_mem (subset_insertSteps _ _ _ _ _ (Finset.mem_insert_self b.1 out))

/-- The loop goes through exactly if the parser takes each token. -/
theorem foldlM_isSome_iff (hrange : range.lo ≤ range.hi) {tokens : List Bytes} :
    (tokens.foldlM (fun out token => parseToken range token out) out).isSome = true ↔
      ∀ token ∈ tokens, token ≠ [] ∧ Admitted range token := by
  induction tokens generalizing out with
  | nil => simp
  | cons token tokens ih =>
      have htoken : (parseToken range token out).isSome = true ↔
          token ≠ [] ∧ Admitted range token := parseToken_isSome_iff hrange
      rw [List.forall_mem_cons, ← htoken, List.foldlM_cons]
      cases hparse : parseToken range token out with
      | none => simp
      | some next => simpa using ih

/-- The loop leaves a value if there is a token. -/
theorem foldlM_ne_empty {tokens : List Bytes}
    (h : tokens.foldlM (fun out token => parseToken range token out) out = some out')
    (hsome : tokens ≠ [] ∨ out ≠ ∅) : out' ≠ ∅ := by
  induction tokens generalizing out with
  | nil =>
      cases h
      exact hsome.resolve_left (not_not.mpr rfl)
  | cons token tokens ih =>
      rw [List.foldlM_cons] at h
      obtain ⟨next, hparse, hrest⟩ := Option.bind_eq_some_iff.mp h
      exact ih hrest (Or.inr (parseToken_ne_empty hparse))

theorem parseField_isSome_iff (hrange : range.lo ≤ range.hi) :
    (parseField field range).isSome = true ↔ getlines 44 field ≠ [] ∧
      ∀ element ∈ getlines 44 field, element ≠ [] ∧ Admitted range element := by
  have hloop : ((getlines 44 field).foldlM (fun out token => parseToken range token out)
      ∅).isSome = true ↔ ∀ element ∈ getlines 44 field, element ≠ [] ∧ Admitted range element :=
    foldlM_isSome_iff hrange
  rw [← hloop]
  unfold parseField
  cases hfold : (getlines 44 field).foldlM (fun out token => parseToken range token out) ∅ with
  | none => simp
  | some out =>
      by_cases htokens : getlines 44 field = []
      · rw [htokens] at hfold
        cases hfold
        simp [htokens]
      · have hne := foldlM_ne_empty hfold (Or.inl htokens)
        simp [htokens, hne]

theorem ranges_bounds (i : Fin 5) : (ranges i).lo ≤ (ranges i).hi ∧ (ranges i).hi < 2 ^ 31 := by
  revert i
  decide

/-- What the parser accepts is the loose grammar. -/
theorem parse_isSome_iff (expr : Bytes) : (parse expr).isSome = true ↔ Loose expr := by
  have hfield : ∀ (i : Fin 5) (field : Bytes), (getlines 44 field ≠ [] ∧
      ∀ element ∈ getlines 44 field, element ≠ [] ∧ Admitted (ranges i) element) ↔
        ∃ p, parseField field (ranges i) = some p := by
    intro i field
    rw [← parseField_isSome_iff (ranges_bounds i).1, Option.isSome_iff_exists]
  unfold parse Loose FiveFields
  simp only [hfield]
  split
  · next p0 p1 p2 p3 p4 hwords =>
      rw [Option.isSome_iff_exists]
      constructor
      · rintro ⟨c, hc⟩
        obtain ⟨f0, h0, hc⟩ := Option.bind_eq_some_iff.mp hc
        obtain ⟨f1, h1, hc⟩ := Option.bind_eq_some_iff.mp hc
        obtain ⟨f2, h2, hc⟩ := Option.bind_eq_some_iff.mp hc
        obtain ⟨f3, h3, hc⟩ := Option.bind_eq_some_iff.mp hc
        obtain ⟨f4, h4, _⟩ := Option.bind_eq_some_iff.mp hc
        exact ⟨p0, p1, p2, p3, p4, hwords, ⟨f0, h0⟩, ⟨f1, h1⟩, ⟨f2, h2⟩, ⟨f3, h3⟩, ⟨f4, h4⟩⟩
      · rintro ⟨_, _, _, _, _, heq, ⟨f0, h0⟩, ⟨f1, h1⟩, ⟨f2, h2⟩, ⟨f3, h3⟩, ⟨f4, h4⟩⟩
        obtain ⟨rfl, rfl, rfl, rfl, rfl⟩ : _ ∧ _ ∧ _ ∧ _ ∧ _ := by
          simpa only [List.cons.injEq, and_true] using hwords.symm.trans heq
        simp [h0, h1, h2, h3, h4]
  · next hwords =>
      refine iff_of_false (by simp) ?_
      rintro ⟨p0, p1, p2, p3, p4, heq, _⟩
      exact hwords p0 p1 p2 p3 p4 heq

end Parser

section Grammars

variable {expr field : Bytes} {range : FieldRange}

/-- Without a comma at the end the search for commas finds every element. -/
theorem getlines_eq (h : (field.splitOn 44).getLast? ≠ some []) :
    getlines 44 field = field.splitOn 44 := by
  rw [getlines, if_neg h]

/-- A documented field does not end in a comma. -/
theorem getLast?_of_elements (h : ∀ element ∈ field.splitOn 44, Element range element) :
    (field.splitOn 44).getLast? ≠ some [] := by
  intro hlast
  exact (h [] (List.mem_of_getLast? hlast)).ne_nil rfl

theorem FiveFields.imp {P Q : FieldRange → Bytes → Prop} (h : FiveFields P expr)
    (himp : ∀ (i : Fin 5), ∀ field ∈ words expr, P (ranges i) field → Q (ranges i) field) :
    FiveFields Q expr := by
  obtain ⟨p0, p1, p2, p3, p4, hwords, h0, h1, h2, h3, h4⟩ := h
  rw [hwords] at himp
  exact ⟨p0, p1, p2, p3, p4, hwords, himp 0 p0 (by simp) h0, himp 1 p1 (by simp) h1,
    himp 2 p2 (by simp) h2, himp 3 p3 (by simp) h3, himp 4 p4 (by simp) h4⟩

theorem FiveFields.of_mem {P : FieldRange → Bytes → Prop} (h : FiveFields P expr)
    (hfield : field ∈ words expr) : ∃ i, P (ranges i) field := by
  obtain ⟨p0, p1, p2, p3, p4, hwords, h0, h1, h2, h3, h4⟩ := h
  rw [hwords] at hfield
  simp only [List.mem_cons, List.not_mem_nil, or_false] at hfield
  obtain rfl | rfl | rfl | rfl | rfl := hfield
  · exact ⟨0, h0⟩
  · exact ⟨1, h1⟩
  · exact ⟨2, h2⟩
  · exact ⟨3, h3⟩
  · exact ⟨4, h4⟩

theorem documented_of_loose (h : Loose expr) (hslips : ¬ Slips expr) : Documented expr := by
  apply h.imp
  intro i field hfield hloose element helement
  have hcomma : (field.splitOn 44).getLast? ≠ some [] :=
    fun hlast => hslips ⟨field, hfield, Or.inl hlast⟩
  rw [getlines_eq hcomma] at hloose
  apply element_iff.mpr
  apply documented_of_admitted (hloose.2 element helement).2
  exact fun hslip => hslips ⟨field, hfield, Or.inr ⟨element, helement, hslip⟩⟩

theorem not_slips_of_grammar (h : Documented expr) : ¬ Slips expr := by
  rintro ⟨field, hfield, hlast | ⟨element, helement, hslip⟩⟩
  · obtain ⟨i, helements⟩ := h.of_mem hfield
    exact getLast?_of_elements helements hlast
  · obtain ⟨i, helements⟩ := h.of_mem hfield
    exact not_slips_of_documented (element_iff.mp (helements element helement)) hslip

theorem loose_of_documented (h : Documented expr) (hlong : ¬ LongStep expr) : Loose expr := by
  apply h.imp
  intro i field hfield helements
  rw [getlines_eq (getLast?_of_elements helements)]
  refine ⟨List.splitOn_ne_nil 44 field, fun element helement => ?_⟩
  have hdocumented := helements element helement
  refine ⟨hdocumented.ne_nil, ?_⟩
  apply admitted_of_documented (ranges_bounds i).2 (element_iff.mp hdocumented)
  exact fun hstep => hlong ⟨field, hfield, element, helement, hstep⟩

theorem not_loose_of_long (h : Documented expr) (hlong : LongStep expr) : ¬ Loose expr := by
  intro hloose
  obtain ⟨field, hfield, element, helement, hstep⟩ := hlong
  obtain ⟨i, helements⟩ := h.of_mem hfield
  obtain ⟨j, hadmitted⟩ := hloose.of_mem hfield
  rw [getlines_eq (getLast?_of_elements helements)] at hadmitted
  exact not_admitted_of_long (element_iff.mp (helements element helement)) hstep
    (hadmitted.2 element helement).2

/-- The parser decides the documented grammar on an expression exactly if that
is neither a loose expression with a slip, which it accepts, nor a documented
one with a step that is too long, which it rejects. -/
theorem parse_documented_iff (expr : Bytes) :
    ((parse expr).isSome = true ↔ Documented expr) ↔
      ¬ (Loose expr ∧ Slips expr) ∧ ¬ (Documented expr ∧ LongStep expr) := by
  rw [parse_isSome_iff]
  constructor
  · intro h
    constructor
    · rintro ⟨hloose, hslips⟩
      exact not_slips_of_grammar (h.mp hloose) hslips
    · rintro ⟨hdocumented, hlong⟩
      exact not_loose_of_long hdocumented hlong (h.mpr hdocumented)
  · rintro ⟨hslips, hlong⟩
    constructor
    · intro hloose
      exact documented_of_loose hloose fun hslip => hslips ⟨hloose, hslip⟩
    · intro hdocumented
      exact loose_of_documented hdocumented fun hstep => hlong ⟨hdocumented, hstep⟩

/-- Text after the digits is accepted. -/
theorem parse_accepts_trailing_text :
    (parse (text "5x * * * *")).isSome = true ∧ ¬ Documented (text "5x * * * *") := by
  refine ⟨by decide +kernel, fun h => not_slips_of_grammar h ?_⟩
  have hfield : text "5x" ∈ words (text "5x * * * *") := by decide +kernel
  have helement : text "5x" ∈ (text "5x").splitOn 44 := by decide +kernel
  refine ⟨text "5x", hfield, Or.inr ⟨text "5x", helement, Or.inl ⟨text "5x", ?_, ?_⟩⟩⟩
  · decide +kernel
  · decide +kernel

end Grammars

end AgentPulse.CronSchedule
