import Mathlib.Data.List.Basic

/-!
# Well-formed UTF-8

A sequence of bytes is well formed if a machine that knows how many
continuation bytes are owed, and the bounds of the next one, accepts it. The
bounds rule out overlong forms, surrogates and values beyond the last code
point. Encoded characters are accepted, and well-formed sequences concatenate.
-/

namespace Utf8

/-- How many continuation bytes are owed, and the bounds of the next one. -/
structure Expect where
  owed : ℕ
  lo : ℕ
  hi : ℕ
  continuation : 0x80 ≤ lo
  deriving DecidableEq

/-- Owing `n` bytes, the next of which is any continuation byte. -/
def Expect.any (n : ℕ) : Expect := ⟨n, 0x80, 0xbf, Nat.le_refl _⟩

/-- The machine between two characters. -/
def start : Expect := .any 0

/-- What the first byte of a character owes. -/
def lead (n : ℕ) : Option Expect :=
  if n ≤ 0x7f then some start
  else if n < 0xc2 then none
  else if n ≤ 0xdf then some (.any 1)
  else if n = 0xe0 then some ⟨2, 0xa0, 0xbf, by decide⟩
  else if n = 0xed then some ⟨2, 0x80, 0x9f, by decide⟩
  else if n ≤ 0xef then some (.any 2)
  else if n = 0xf0 then some ⟨3, 0x90, 0xbf, by decide⟩
  else if n ≤ 0xf3 then some (.any 3)
  else if n = 0xf4 then some ⟨3, 0x80, 0x8f, by decide⟩
  else none

/-- One byte of the input. -/
def step (e : Expect) (b : UInt8) : Option Expect :=
  if e.owed = 0 then lead b.toNat
  else if e.lo ≤ b.toNat ∧ b.toNat ≤ e.hi then some (.any (e.owed - 1))
  else none

/-- The machine accepts the whole sequence. -/
def Valid (s : List UInt8) : Prop := s.foldlM step start = some start

instance (s : List UInt8) : Decidable (Valid s) := inferInstanceAs (Decidable (_ = _))

section Concatenation

variable {s t : List UInt8} {b : UInt8} {e : Expect}

@[simp] theorem valid_nil : Valid [] := rfl

/-- A well-formed beginning does not matter. -/
theorem valid_append_right (h : Valid s) : Valid (s ++ t) ↔ Valid t := by
  unfold Valid at h ⊢
  rw [List.foldlM_append, h]
  rfl

theorem Valid.append (hs : Valid s) (ht : Valid t) : Valid (s ++ t) :=
  (valid_append_right hs).mpr ht

/-- A byte below `0x80` is accepted between characters only. -/
theorem step_ascii (hb : b.toNat < 0x80) :
    step e b = if e.owed = 0 then some start else none := by
  have := e.continuation
  unfold step
  by_cases howed : e.owed = 0
  · rw [if_pos howed, if_pos howed, lead, if_pos (by omega)]
  · rw [if_neg howed, if_neg howed, if_neg (by omega)]

/-- The first byte of a character is the whole of it, or owes continuation bytes. -/
theorem lead_cases {n : ℕ} (h : lead n = some e) :
    e = start ∧ n ≤ 0x7f ∨ e.owed ≠ 0 ∧ e.hi ≤ 0xbf ∧ 0xc2 ≤ n := by
  unfold lead at h
  split_ifs at h
  · exact .inl ⟨(Option.some.inj h).symm, by assumption⟩
  all_goals
    obtain rfl := Option.some.inj h
    refine .inr ⟨?_, ?_, by omega⟩
    · exact Nat.succ_ne_zero _
    · simp [Expect.any]

theorem lead_settled {n : ℕ} (h : lead n = some e) (hsettled : e.owed = 0) : e = start := by
  obtain ⟨hstart, -⟩ | ⟨howed, -⟩ := lead_cases h
  · exact hstart
  · exact absurd hsettled howed

/-- Whenever nothing is owed, the machine is between characters. -/
theorem step_settled {e' : Expect} (h : step e b = some e') (hsettled : e'.owed = 0) :
    e' = start := by
  unfold step at h
  split_ifs at h
  · exact lead_settled h hsettled
  · cases h
    exact congrArg Expect.any hsettled

theorem foldlM_settled (he : e.owed = 0 → e = start) {e' : Expect}
    (h : s.foldlM step e = some e') (hsettled : e'.owed = 0) : e' = start := by
  induction s generalizing e with
  | nil =>
      cases h
      exact he hsettled
  | cons b s ih =>
      rw [List.foldlM_cons] at h
      obtain ⟨m, hm, hrest⟩ := Option.bind_eq_some_iff.mp h
      exact ih (step_settled hm) hrest

/-- Neither does a single such byte at the end. -/
theorem valid_append_ascii (hb : b.toNat < 0x80) : Valid (s ++ [b]) ↔ Valid s := by
  unfold Valid
  rw [List.foldlM_append]
  constructor
  · intro h
    obtain ⟨e, he, hstep⟩ := Option.bind_eq_some_iff.mp h
    rw [List.foldlM_cons] at hstep
    obtain ⟨e', he', _⟩ := Option.bind_eq_some_iff.mp hstep
    rw [step_ascii hb] at he'
    split_ifs at he' with howed
    rw [he, foldlM_settled (fun _ => rfl) he howed]
  · intro h
    rw [h]
    change (step start b).bind _ = _
    rw [step_ascii hb]
    rfl

end Concatenation

section Cuts

variable {s t : List UInt8} {b : UInt8} {e e' : Expect} {n : ℕ}

/-- A continuation byte. -/
def IsTail (b : UInt8) : Prop := 0x80 ≤ b.toNat ∧ b.toNat ≤ 0xbf

instance : DecidablePred IsTail := fun _ => inferInstanceAs (Decidable (_ ∧ _))

/-- No character begins with a continuation byte. -/
theorem not_tail_of_lead (h : lead b.toNat = some e) : ¬ IsTail b := by
  rintro ⟨hlo, hhi⟩
  obtain ⟨-, hn⟩ | ⟨-, -, hn⟩ := lead_cases h
  · omega
  · omega

theorem lead_hi (h : lead n = some e) : e.hi ≤ 0xbf := by
  obtain ⟨rfl, -⟩ | ⟨-, hhi, -⟩ := lead_cases h
  · exact Nat.le_refl _
  · exact hhi

theorem step_hi (h : step e b = some e') : e'.hi ≤ 0xbf := by
  unfold step at h
  split_ifs at h
  · exact lead_hi h
  · cases h
    exact Nat.le_refl _

theorem foldlM_hi (he : e.hi ≤ 0xbf) (h : s.foldlM step e = some e') : e'.hi ≤ 0xbf := by
  induction s generalizing e with
  | nil =>
      cases h
      exact he
  | cons b s ih =>
      rw [List.foldlM_cons] at h
      obtain ⟨m, hm, hrest⟩ := Option.bind_eq_some_iff.mp h
      exact ih (step_hi hm) hrest

/-- A well-formed sequence may be cut before every byte but a continuation byte. -/
theorem valid_cut_iff (h : Valid (s ++ b :: t)) : Valid s ↔ ¬ IsTail b := by
  unfold Valid at h ⊢
  rw [List.foldlM_append] at h
  obtain ⟨e, he, hrest⟩ := Option.bind_eq_some_iff.mp h
  rw [List.foldlM_cons] at hrest
  obtain ⟨e', hstep, -⟩ := Option.bind_eq_some_iff.mp hrest
  unfold step at hstep
  by_cases howed : e.owed = 0
  · rw [if_pos howed] at hstep
    rw [he, foldlM_settled (fun _ => rfl) he howed]
    exact iff_of_true rfl (not_tail_of_lead hstep)
  · rw [if_neg howed] at hstep
    split_ifs at hstep with hbounds
    have hlo : 0x80 ≤ b.toNat := Nat.le_trans e.continuation hbounds.1
    have hhi : b.toNat ≤ 0xbf := Nat.le_trans hbounds.2 (foldlM_hi (Nat.le_refl _) he)
    refine iff_of_false ?_ (not_not.mpr ⟨hlo, hhi⟩)
    rw [he, Option.some.injEq]
    rintro rfl
    exact howed rfl

/-- Around a byte below `0x80` both sides are well formed. -/
theorem valid_append_cons_ascii (hb : b.toNat < 0x80) :
    Valid (s ++ b :: t) ↔ Valid s ∧ Valid t := by
  have hbyte : Valid [b] := (valid_append_ascii (s := []) hb).mpr valid_nil
  constructor
  · intro h
    have hs : Valid s := (valid_cut_iff h).mpr fun htail => absurd htail.1 (by omega)
    exact ⟨hs, (valid_append_right hbyte).mp ((valid_append_right hs).mp h)⟩
  · rintro ⟨hs, ht⟩
    exact hs.append (hbyte.append ht)

end Cuts

section Encoding

variable {e : Expect} {n k v : ℕ}

/-- A continuation byte within the bounds. -/
theorem step_tail (howed : e.owed = n + 1) (hlo : e.lo ≤ k % 0x40 + 0x80)
    (hhi : k % 0x40 + 0x80 ≤ e.hi) : step e (UInt8.ofNat (k % 0x40 + 0x80)) = some (.any n) := by
  have hbyte : (UInt8.ofNat (k % 0x40 + 0x80)).toNat = k % 0x40 + 0x80 := by
    apply UInt8.toNat_ofNat_of_lt'
    change k % 0x40 + 0x80 < 256
    omega
  unfold step
  rw [hbyte, howed, if_neg (Nat.succ_ne_zero n), if_pos ⟨hlo, hhi⟩]
  rfl

theorem step_any : step (.any (n + 1)) (UInt8.ofNat (k % 0x40 + 0x80)) = some (.any n) :=
  step_tail rfl (Nat.le_add_left _ _) (by simp only [Expect.any]; omega)

/-- As many continuation bytes as are owed end the character. -/
theorem foldlM_tails (ks : List ℕ) :
    (ks.map fun k => UInt8.ofNat (k % 0x40 + 0x80)).foldlM step (.any ks.length) = some start := by
  induction ks with
  | nil => rfl
  | cons k ks ih =>
      rw [List.map_cons, List.foldlM_cons, List.length_cons, step_any]
      exact ih

theorem step_lead (hn : n < 256) : step start (UInt8.ofNat n) = lead n := by
  unfold step
  rw [if_pos (show start.owed = 0 from rfl), UInt8.toNat_ofNat_of_lt' hn]

/-- The first byte of three and the second one: no overlong form, no surrogate. -/
theorem lead_three {q r : ℕ} (hq : q ≤ 15) (hr : r ≤ 63) (hshort : q = 0 → 32 ≤ r)
    (hsurrogate : q = 13 → r < 32) :
    ∃ e, lead (q + 0xe0) = some e ∧ e.owed = 2 ∧ e.lo ≤ r + 0x80 ∧ r + 0x80 ≤ e.hi := by
  unfold lead
  rw [if_neg (by omega), if_neg (by omega), if_neg (by omega)]
  by_cases h0 : q = 0
  · have := hshort h0
    exact ⟨_, if_pos (by omega), rfl, by simp only; omega, by simp only; omega⟩
  · rw [if_neg (by omega)]
    by_cases h13 : q = 13
    · have := hsurrogate h13
      exact ⟨_, if_pos (by omega), rfl, by simp only; omega, by simp only; omega⟩
    · rw [if_neg (by omega), if_pos (by omega)]
      exact ⟨_, rfl, rfl, Nat.le_add_left _ _, by simp only [Expect.any]; omega⟩

/-- The first byte of four and the second one: no overlong form, nothing beyond
the last code point. -/
theorem lead_four {q r : ℕ} (hq : q ≤ 4) (hr : r ≤ 63) (hshort : q = 0 → 16 ≤ r)
    (hlast : q = 4 → r < 16) :
    ∃ e, lead (q + 0xf0) = some e ∧ e.owed = 3 ∧ e.lo ≤ r + 0x80 ∧ r + 0x80 ≤ e.hi := by
  unfold lead
  rw [if_neg (by omega), if_neg (by omega), if_neg (by omega), if_neg (by omega),
    if_neg (by omega), if_neg (by omega)]
  by_cases h0 : q = 0
  · have := hshort h0
    exact ⟨_, if_pos (by omega), rfl, by simp only; omega, by simp only; omega⟩
  · rw [if_neg (by omega)]
    by_cases h4 : q = 4
    · have := hlast h4
      rw [if_neg (by omega)]
      exact ⟨_, if_pos (by omega), rfl, by simp only; omega, by simp only; omega⟩
    · rw [if_pos (by omega)]
      exact ⟨_, rfl, rfl, Nat.le_add_left _ _, by simp only [Expect.any]; omega⟩

/-- The encoding of a character leads from one character to the next. -/
theorem valid_utf8EncodeChar (c : Char) : Valid (String.utf8EncodeChar c) := by
  have hscalar : c.val.toNat < 0xd800 ∨ 0xdfff < c.val.toNat ∧ c.val.toNat < 0x110000 := c.valid
  unfold String.utf8EncodeChar Valid
  simp only
  generalize c.val.toNat = v at hscalar
  split_ifs with h₁ h₂ h₃
  · rw [List.foldlM_cons, step_lead (by omega), lead, if_pos h₁]
    rfl
  · have hlead : lead (v / 64 % 0x20 + 0xc0) = some (.any 1) := by
      unfold lead
      rw [if_neg (by omega), if_neg (by omega), if_pos (by omega)]
    rw [List.foldlM_cons, step_lead (by omega), hlead]
    exact foldlM_tails [v]
  · obtain ⟨e, hlead, howed, hlo, hhi⟩ := lead_three
      (show v / 4096 % 0x10 ≤ 15 by omega) (show v / 64 % 0x40 ≤ 63 by omega)
      (by omega) (by omega)
    rw [List.foldlM_cons, step_lead (by omega), hlead]
    change List.foldlM step e _ = _
    rw [List.foldlM_cons, step_tail howed hlo hhi]
    exact foldlM_tails [v]
  · obtain ⟨e, hlead, howed, hlo, hhi⟩ := lead_four
      (show v / 262144 % 0x08 ≤ 4 by omega) (show v / 4096 % 0x40 ≤ 63 by omega)
      (by omega) (by omega)
    rw [List.foldlM_cons, step_lead (by omega), hlead]
    change List.foldlM step e _ = _
    rw [List.foldlM_cons, step_tail howed hlo hhi]
    exact foldlM_tails [v / 64, v]

theorem valid_flatMap_utf8EncodeChar (l : List Char) :
    Valid (l.flatMap String.utf8EncodeChar) := by
  induction l with
  | nil => exact valid_nil
  | cons c l ih =>
      rw [List.flatMap_cons]
      exact (valid_utf8EncodeChar c).append ih

end Encoding

end Utf8
