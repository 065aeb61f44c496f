import AgentPulse.Text
import Mathlib.Data.List.TakeWhile
import Mathlib.Tactic.NormNum

/-!
# Decimal numerals

What `std::stoi` makes of a run of digits, and that it reads back the text
`std::to_string` writes, within the range of an `int`.
-/

namespace AgentPulse

/-- An unsigned decimal numeral: digits only. -/
def IsNumeral (s : Bytes) : Prop := s ≠ [] ∧ ∀ b ∈ s, isDigit b = true

instance : DecidablePred IsNumeral := fun _ => inferInstanceAs (Decidable (_ ∧ _))

/-- The value of a numeral. -/
def numeralValue (s : Bytes) : Int := s.foldl (fun acc d => 10 * acc + (d.toNat - 48 : Int)) 0

section Digits

variable {s : Bytes} {v : Int}

theorem IsNumeral.not_mem (h : IsNumeral s) {b : UInt8} (hb : isDigit b = false) : b ∉ s := by
  intro hmem
  rw [h.2 b hmem] at hb
  cases hb

theorem IsNumeral.ne_star (h : IsNumeral s) : s ≠ text "*" := by
  rintro rfl
  revert h
  decide

theorem digit_bounds {d : UInt8} (h : isDigit d = true) : 48 ≤ d.toNat ∧ d.toNat ≤ 57 := by
  simpa [isDigit, UInt8.le_iff_toNat_le] using h

theorem numeralValue_nonneg (h : IsNumeral s) : 0 ≤ numeralValue s := by
  have hfold : ∀ (digits : Bytes) (acc : Int), (∀ b ∈ digits, isDigit b = true) → 0 ≤ acc →
      0 ≤ digits.foldl (fun acc d => 10 * acc + (d.toNat - 48 : Int)) acc := by
    intro digits
    induction digits with
    | nil =>
        intro acc _ hacc
        exact hacc
    | cons d digits ih =>
        intro acc hdigits hacc
        have hd := digit_bounds (hdigits d List.mem_cons_self)
        have hnext : 0 ≤ 10 * acc + (d.toNat - 48 : Int) := by omega
        exact ih _ (fun b hb => hdigits b (List.mem_cons_of_mem _ hb)) hnext
  exact hfold s 0 h.2 (le_refl _)

/-- A digit is neither white space nor a sign. -/
theorem digit_starts {d : UInt8} (h : isDigit d = true) :
    isSpace d = false ∧ d ≠ 45 ∧ d ≠ 43 := by
  obtain ⟨hlo, hhi⟩ := digit_bounds h
  refine ⟨?_, ?_, ?_⟩
  · rw [← Bool.not_eq_true]
    intro hspace
    simp only [isSpace, Bool.or_eq_true, beq_iff_eq, Bool.and_eq_true, decide_eq_true_eq,
      UInt8.le_iff_toNat_le] at hspace
    obtain rfl | ⟨_, hle⟩ := hspace
    · exact absurd hlo (by decide)
    · have hthirteen : d.toNat ≤ 13 := hle
      omega
  · rintro rfl
    exact absurd hlo (by decide)
  · rintro rfl
    exact absurd hlo (by decide)

/-- `std::stoi` reads a numeral as its value, up to the largest `int`. -/
theorem stoi_numeral (h : IsNumeral s) :
    stoi s = if numeralValue s < 2 ^ 31 then some (numeralValue s) else none := by
  have hnonneg := numeralValue_nonneg h
  obtain ⟨hne, hdigits⟩ := h
  obtain ⟨d, rest, hs⟩ := List.exists_cons_of_ne_nil hne
  obtain ⟨hspace, hminus, hplus⟩ := digit_starts (hdigits d (by rw [hs]; exact List.mem_cons_self))
  have hdrop : s.dropWhile isSpace = s := by
    rw [hs, List.dropWhile_cons, if_neg (by simp [hspace])]
  have htake : s.takeWhile isDigit = s := List.takeWhile_eq_self_iff.mpr hdigits
  have hsign : s.head? ≠ some 45 ∧ s.head? ≠ some 43 := by
    rw [hs]
    simpa using ⟨hminus, hplus⟩
  unfold stoi
  simp only [hdrop, hsign.1, hsign.2, or_self, if_false, htake, hne]
  have hlow : -2147483648 ≤ numeralValue s := by omega
  unfold numeralValue at hlow ⊢
  norm_num [hlow]

theorem stoi_of_lt (h : IsNumeral s) (hlt : numeralValue s < 2 ^ 31) :
    stoi s = some (numeralValue s) := by
  rw [stoi_numeral h, if_pos hlt]

theorem value_of_stoi (h : IsNumeral s) (hv : v ∈ stoi s) : v = numeralValue s := by
  rw [stoi_numeral h] at hv
  split_ifs at hv
  · exact (Option.some.inj hv).symm
  · cases hv

end Digits

section IntText

/-- A digit is a single byte, which `isDigit` takes. -/
theorem utf8EncodeChar_digit {c : Char} (h : c.isDigit = true) :
    ∃ d : UInt8, String.utf8EncodeChar c = [d] ∧ isDigit d = true ∧ d.toNat = c.toNat := by
  have hbounds : 48 ≤ c.val.toNat ∧ c.val.toNat ≤ 57 := by
    simpa [Char.isDigit, UInt32.le_iff_toNat_le] using h
  have hnat : (UInt8.ofNat c.val.toNat).toNat = c.val.toNat :=
    UInt8.toNat_ofNat_of_lt' (hbounds.2.trans_lt (by decide))
  refine ⟨UInt8.ofNat c.val.toNat, ?_, ?_, hnat⟩
  · exact if_pos (hbounds.2.trans (by decide))
  · rw [isDigit, Bool.and_eq_true, decide_eq_true_eq, decide_eq_true_eq, UInt8.le_iff_toNat_le,
      UInt8.le_iff_toNat_le, hnat]
    exact hbounds

/-- The bytes of a run of digits have its value. -/
theorem foldl_digits {l : List Char} (h : ∀ c ∈ l, c.isDigit = true) (acc : ℕ) :
    (∀ b ∈ l.flatMap String.utf8EncodeChar, isDigit b = true) ∧
      (l.flatMap String.utf8EncodeChar).foldl (fun acc d => 10 * acc + (d.toNat - 48 : Int)) acc =
        Nat.ofDigitChars 10 l acc := by
  induction l generalizing acc with
  | nil => simp
  | cons c l ih =>
      obtain ⟨d, hd, hdigit, hnat⟩ := utf8EncodeChar_digit (h c List.mem_cons_self)
      have hlow := (digit_bounds hdigit).1
      have hacc : (10 * acc + (d.toNat - 48 : Int) : Int) =
          ((10 * acc + (c.toNat - 48) : ℕ) : Int) := by omega
      obtain ⟨hrest, hvalue⟩ := ih (fun c' hc' => h c' (List.mem_cons_of_mem _ hc'))
        (10 * acc + (c.toNat - 48))
      rw [List.flatMap_cons, hd, List.singleton_append]
      constructor
      · exact List.forall_mem_cons.mpr ⟨hdigit, hrest⟩
      · rw [List.foldl_cons, hacc, hvalue, Nat.ofDigitChars_cons]
        rfl

/-- `std::to_string` of a natural number is a numeral with its value. -/
theorem isNumeral_repr (n : ℕ) : IsNumeral (text n.repr) ∧ numeralValue (text n.repr) = n := by
  have hchars : ∀ c ∈ Nat.toDigits 10 n, c.isDigit = true := fun c hc =>
    Nat.isDigit_of_mem_toDigits (by decide) (by decide) hc
  obtain ⟨hdigits, hvalue⟩ := foldl_digits hchars 0
  unfold text
  rw [Nat.toList_repr]
  refine ⟨⟨?_, hdigits⟩, ?_⟩
  · obtain ⟨c, l, hl⟩ := List.exists_cons_of_ne_nil (Nat.toDigits_ne_nil (n := n) (b := 10))
    obtain ⟨d, hd, -⟩ := utf8EncodeChar_digit (hchars c (hl ▸ List.mem_cons_self))
    simp [hl, hd]
  · rw [Nat.ofDigitChars_ten_toDigits] at hvalue
    exact hvalue

/-- `std::stoi` reads a numeral after a minus sign as its negation, down to the
smallest `int`. -/
theorem stoi_minus {s : Bytes} (h : IsNumeral s) :
    stoi (45 :: s) = if numeralValue s ≤ 2 ^ 31 then some (-numeralValue s) else none := by
  have hnonneg := numeralValue_nonneg h
  have htake : s.takeWhile isDigit = s := List.takeWhile_eq_self_iff.mpr h.2
  have hdrop : (45 :: s).dropWhile isSpace = 45 :: s := rfl
  unfold stoi
  simp only [hdrop, List.head?_cons, List.tail_cons, true_or, if_true, htake, h.1, if_false]
  have hhigh : -numeralValue s < 2147483648 := by omega
  unfold numeralValue at hhigh ⊢
  norm_num [hhigh]

/-- `std::stoi` reads back the text of an `int` and nothing larger. -/
theorem stoi_intText (i : Int) :
    stoi (intText i) = if -2 ^ 31 ≤ i ∧ i < 2 ^ 31 then some i else none := by
  unfold intText
  rw [Int.toString_eq_repr, Int.repr_eq_if]
  by_cases hi : 0 ≤ i
  · obtain ⟨hnumeral, hvalue⟩ := isNumeral_repr i.toNat
    rw [if_pos hi, stoi_numeral hnumeral, hvalue, Int.toNat_of_nonneg hi]
    have hlow : -2 ^ 31 ≤ i := by omega
    simp only [hlow, true_and]
  · obtain ⟨hnumeral, hvalue⟩ := isNumeral_repr (-i).toNat
    have htext : text ("-" ++ (-i).toNat.repr) = 45 :: text (-i).toNat.repr := by
      simp [text, String.toList_append]
      rfl
    rw [if_neg hi, htext, stoi_minus hnumeral, hvalue, Int.toNat_of_nonneg (by omega), neg_neg]
    have hiff : (-i ≤ 2 ^ 31) ↔ (-2 ^ 31 ≤ i ∧ i < 2 ^ 31) := by omega
    simp only [hiff]

end IntText

end AgentPulse
