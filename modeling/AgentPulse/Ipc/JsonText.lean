import AgentPulse.Ipc.Json
import AgentPulse.Numerals

/-!
# Reading JSON texts

A reader of JSON texts, and that it reads back what `dump` writes. Only a number
that is not finite does not come back: `dump` writes `null` for it.

## Implementation notes

The fields of an object are kept in the order of the text. A number with a
fraction or an exponent is read by a parameter. The fuel is spent once for each
value and each separator, so that twice the length of the text is enough.
-/

namespace AgentPulse.Json

variable {V : Type}

/-- The white space between tokens. -/
def isBlank (b : UInt8) : Bool := b == 32 || b == 9 || b == 10 || b == 13

def skip (s : Bytes) : Bytes := s.dropWhile isBlank

/-- The bytes of numbers. -/
def isNumberByte (b : UInt8) : Bool :=
  isDigit b || b == 45 || b == 43 || b == 46 || b == 69 || b == 101

/-- Digits without a superfluous zero in front. -/
def IsInteger (s : Bytes) : Prop := IsNumeral s ∧ (s.head? = some 48 → s = [48])

instance : DecidablePred IsInteger := fun _ => inferInstanceAs (Decidable (_ ∧ _))

/-- A number without fraction and exponent. -/
def readInteger (s : Bytes) : Option Int :=
  if s.head? = some 45 then
    if IsInteger s.tail then some (-numeralValue s.tail) else none
  else if IsInteger s then some (numeralValue s) else none

def readNumber (double : Bytes → Option V) (token : Bytes) : Option (Json V) :=
  match readInteger token with
  | some i => some (.int i)
  | none => (double token).map .float

/-- What a backslash and one letter stand for. -/
def unescape (b : UInt8) : Option UInt8 :=
  if b = 34 ∨ b = 47 ∨ b = 92 then some b
  else if b = 98 then some 8
  else if b = 102 then some 12
  else if b = 110 then some 10
  else if b = 114 then some 13
  else if b = 116 then some 9
  else none

def hexValue (b : UInt8) : Option ℕ :=
  if 48 ≤ b ∧ b ≤ 57 then some (b.toNat - 48)
  else if 65 ≤ b ∧ b ≤ 70 then some (b.toNat - 55)
  else if 97 ≤ b ∧ b ≤ 102 then some (b.toNat - 87)
  else none

def hexCode (digits : Bytes) : Option ℕ :=
  digits.foldlM (fun acc d => (hexValue d).map (16 * acc + ·)) 0

/-- A part of a string: a byte, or a code unit of a `\u` escape. -/
inductive Part where
  | byte (b : UInt8)
  | code (n : ℕ)
  deriving DecidableEq

/-- The parts of a string up to its closing quote, and what follows. -/
def readParts : Bytes → Option (List Part × Bytes)
  | [] => none
  | b :: rest =>
      if b = 34 then some ([], rest)
      else if b = 92 then
        match rest with
        | [] => none
        | e :: rest =>
            if e = 117 then
              match rest with
              | p :: q :: r :: s :: rest =>
                  (hexCode [p, q, r, s]).bind fun n =>
                    (readParts rest).map fun (parts, rest) => (.code n :: parts, rest)
              | _ => none
            else (unescape e).bind fun u =>
              (readParts rest).map fun (parts, rest) => (.byte u :: parts, rest)
      else if b < 32 then none
      else (readParts rest).map fun (parts, rest) => (.byte b :: parts, rest)

/-- The string of its parts; the two halves of a surrogate pair are one character. -/
def joinParts : List Part → Option Bytes
  | [] => some []
  | .byte b :: rest => (joinParts rest).map (b :: ·)
  | .code n :: rest =>
      if 0xd800 ≤ n ∧ n < 0xdc00 then
        match rest with
        | .code m :: rest =>
            if 0xdc00 ≤ m ∧ m < 0xe000 then
              (joinParts rest).map (String.utf8EncodeChar
                (.ofNat (0x10000 + (n - 0xd800) * 0x400 + (m - 0xdc00))) ++ ·)
            else none
        | _ => none
      else if 0xdc00 ≤ n ∧ n < 0xe000 then none
      else (joinParts rest).map (String.utf8EncodeChar (.ofNat n) ++ ·)

/-- A string after its opening quote, and what follows. -/
def readString (s : Bytes) : Option (Bytes × Bytes) :=
  (readParts s).bind fun (parts, rest) =>
    (joinParts parts).bind fun value => if Utf8.Valid value then some (value, rest) else none

/-- A separator or a closing bracket. -/
def expect (b : UInt8) (s : Bytes) : Option Bytes :=
  match skip s with
  | [] => none
  | c :: rest => if c = b then some rest else none

mutual

/-- A value and what follows it. -/
def readValue (double : Bytes → Option V) : ℕ → Bytes → Option (Json V × Bytes)
  | 0, _ => none
  | fuel + 1, s =>
      match skip s with
      | [] => none
      | b :: rest =>
          if b = 34 then (readString rest).map fun (value, rest) => (.str value, rest)
          else if b = 91 then
            match expect 93 rest with
            | some rest => some (.arr [], rest)
            | none => (readItems double fuel rest).map fun (items, rest) => (.arr items, rest)
          else if b = 123 then
            match expect 125 rest with
            | some rest => some (.obj [], rest)
            | none => (readFields double fuel rest).map fun (fields, rest) => (.obj fields, rest)
          else if (b :: rest).take 4 = text "null" then some (.null, rest.drop 3)
          else if (b :: rest).take 4 = text "true" then some (.bool true, rest.drop 3)
          else if (b :: rest).take 5 = text "false" then some (.bool false, rest.drop 4)
          else (readNumber double ((b :: rest).takeWhile isNumberByte)).map fun j =>
            (j, (b :: rest).dropWhile isNumberByte)

/-- The items of an array up to its closing bracket, at least one. -/
def readItems (double : Bytes → Option V) : ℕ → Bytes → Option (List (Json V) × Bytes)
  | 0, _ => none
  | fuel + 1, s =>
      match readValue double fuel s with
      | none => none
      | some (item, rest) =>
          match expect 93 rest with
          | some rest => some ([item], rest)
          | none => (expect 44 rest).bind fun rest =>
              (readItems double fuel rest).map fun (items, rest) => (item :: items, rest)

/-- The fields of an object up to its closing brace, at least one. -/
def readFields (double : Bytes → Option V) : ℕ → Bytes → Option (List (Bytes × Json V) × Bytes)
  | 0, _ => none
  | fuel + 1, s =>
      match (expect 34 s).bind readString with
      | none => none
      | some (key, rest) =>
          match (expect 58 rest).bind (readValue double fuel) with
          | none => none
          | some (value, rest) =>
              match expect 125 rest with
              | some rest => some ([(key, value)], rest)
              | none => (expect 44 rest).bind fun rest =>
                  (readFields double fuel rest).map fun (fields, rest) =>
                    ((key, value) :: fields, rest)

end

/-- The value a text denotes. -/
def read (double : Bytes → Option V) (s : Bytes) : Option (Json V) :=
  (readValue double (2 * s.length + 1) s).bind fun (j, rest) =>
    if skip rest = [] then some j else none

/-- The fields of a `std::map`: a key that comes again replaces its value. -/
def lastFields {α : Type} : List (Bytes × α) → List (Bytes × α)
  | [] => []
  | field :: rest =>
      if field.1 ∈ rest.map Prod.fst then lastFields rest else field :: lastFields rest

mutual

/-- A value with its objects as `std::map`s. -/
def stored : Json V → Json V
  | .arr items => .arr (storedItems items)
  | .obj fields => .object (lastFields (storedFields fields))
  | j => j

def storedItems : List (Json V) → List (Json V)
  | [] => []
  | item :: rest => stored item :: storedItems rest

def storedFields : List (Bytes × Json V) → List (Bytes × Json V)
  | [] => []
  | (key, value) :: rest => (key, stored value) :: storedFields rest

end

/-- `json::parse` without exceptions. -/
def parse (double : Bytes → Option V) (s : Bytes) : Option (Json V) := (read double s).map stored

section Objects

theorem lastFields_of_nodup {α : Type} {fields : List (Bytes × α)}
    (h : (fields.map Prod.fst).Nodup) : lastFields fields = fields := by
  induction fields with
  | nil => rfl
  | cons field rest ih =>
      obtain ⟨hfield, hrest⟩ := List.nodup_cons.mp (List.map_cons ▸ h)
      rw [lastFields, if_neg hfield, ih hrest]

/-- The order in which the fields of an object are written does not matter. -/
theorem object_perm {fields fields' : List (Bytes × Json V)} (hp : fields.Perm fields')
    (hn : (fields.map Prod.fst).Nodup) : object fields = object fields' := by
  have hsorted : ∀ l : List (Bytes × Json V),
      (l.insertionSort fun a b => a.1 ≤ b.1).Pairwise fun a b => a.1 ≤ b.1 := by
    intro l
    exact List.pairwise_insertionSort (fun a b : Bytes × Json V => a.1 ≤ b.1) l
  have hperm : (fields.insertionSort fun a b => a.1 ≤ b.1).Perm
      (fields'.insertionSort fun a b => a.1 ≤ b.1) :=
    ((List.perm_insertionSort _ _).trans hp).trans (List.perm_insertionSort _ _).symm
  refine congrArg Json.obj (List.Perm.eq_of_pairwise ?_ (hsorted _) (hsorted _) hperm)
  intro a b ha hb hab hba
  have ha' := (List.perm_insertionSort _ _).mem_iff.mp ha
  have hb' := hp.mem_iff.mpr ((List.perm_insertionSort _ _).mem_iff.mp hb)
  exact List.inj_on_of_nodup_map hn ha' hb' (List.le_antisymm hab hba)

end Objects

section Strings

variable {s rest : Bytes} {b : UInt8}

/-- How a byte is written: as it is, after a backslash, or as a code unit. -/
theorem escapeByte_cases (b : UInt8) :
    (escapeByte b = [b] ∧ b ≠ 34 ∧ b ≠ 92 ∧ ¬ b < 32) ∨
      (∃ e, escapeByte b = [92, e] ∧ e ≠ 117 ∧ unescape e = some b) ∨
      ∃ p q r s, escapeByte b = [92, 117, p, q, r, s] ∧ hexCode [p, q, r, s] = some b.toNat ∧
        b < 32 := by
  have hcodes : ∀ n < 32, hexCode
      [48, 48, hexDigit (UInt8.ofNat n / 16), hexDigit (UInt8.ofNat n % 16)] = some n := by
    decide
  generalize hr : escapeByte b = r
  unfold escapeByte at hr
  split_ifs at hr with h8 h9 h10 h12 h13 h34 h92 hlow
  · exact Or.inr (Or.inl ⟨98, hr.symm, by decide, by rw [h8]; decide⟩)
  · exact Or.inr (Or.inl ⟨116, hr.symm, by decide, by rw [h9]; decide⟩)
  · exact Or.inr (Or.inl ⟨110, hr.symm, by decide, by rw [h10]; decide⟩)
  · exact Or.inr (Or.inl ⟨102, hr.symm, by decide, by rw [h12]; decide⟩)
  · exact Or.inr (Or.inl ⟨114, hr.symm, by decide, by rw [h13]; decide⟩)
  · exact Or.inr (Or.inl ⟨34, hr.symm, by decide, by rw [h34]; decide⟩)
  · exact Or.inr (Or.inl ⟨92, hr.symm, by decide, by rw [h92]; decide⟩)
  · have hcode := hcodes b.toNat (UInt8.lt_iff_toNat_lt.mp hlow)
    rw [UInt8.ofNat_toNat] at hcode
    exact Or.inr (Or.inr ⟨_, _, _, _, hr.symm, hcode, hlow⟩)
  · exact Or.inl ⟨hr.symm, h34, h92, hlow⟩

/-- A code unit of a control character is that byte. -/
theorem joinParts_code (parts : List Part) (h : b < 32) :
    joinParts (.code b.toNat :: parts) = (joinParts parts).map (b :: ·) := by
  have hsmall : b.toNat < 32 := UInt8.lt_iff_toNat_lt.mp h
  have hbytes : ∀ n < 32, String.utf8EncodeChar (.ofNat n) = [UInt8.ofNat n] := by decide
  rw [joinParts.eq_def]
  simp only
  rw [if_neg (by omega), if_neg (by omega), hbytes _ hsmall, UInt8.ofNat_toNat]
  rfl

/-- Every byte is written so that it is read as one part. -/
def ReadsBack (escape : UInt8 → Bytes) : Prop :=
  ∀ b rest, ∃ part, readParts (escape b ++ rest) =
      (readParts rest).map (fun (parts, rest) => (part :: parts, rest)) ∧
    ∀ parts, joinParts (part :: parts) = (joinParts parts).map (b :: ·)

/-- A backslash and a letter are read as the byte they stand for. -/
theorem readParts_unescape {e : UInt8} (rest : Bytes) (he : e ≠ 117) (h : unescape e = some b) :
    readParts ([92, e] ++ rest) =
      (readParts rest).map (fun (parts, rest) => (.byte b :: parts, rest)) := by
  rw [List.cons_append, List.singleton_append, readParts.eq_def]
  simp only
  rw [if_neg (by decide), if_pos trivial, if_neg he, h, Option.bind_some]

theorem readsBack_escapeByte : ReadsBack escapeByte := by
  intro b rest
  obtain ⟨hb, h34, h92, hlow⟩ | ⟨e, hb, he, hunescape⟩ | ⟨p, q, r, s, hb, hcode, hlow⟩ :=
    escapeByte_cases b
  · refine ⟨.byte b, ?_, fun parts => rfl⟩
    rw [hb, List.singleton_append, readParts.eq_def]
    simp only
    rw [if_neg h34, if_neg h92, if_neg hlow]
  · refine ⟨.byte b, ?_, fun parts => rfl⟩
    rw [hb, readParts_unescape rest he hunescape]
  · refine ⟨.code b.toNat, ?_, fun parts => joinParts_code parts hlow⟩
    rw [hb]
    simp only [List.cons_append, List.nil_append]
    rw [readParts.eq_def]
    simp only
    rw [if_neg (by decide), if_pos trivial, if_pos trivial, hcode, Option.bind_some]

theorem readParts_flatMap {escape : UInt8 → Bytes} (hescape : ReadsBack escape) (s rest : Bytes) :
    ∃ parts, readParts (s.flatMap escape ++ 34 :: rest) = some (parts, rest) ∧
      joinParts parts = some s := by
  induction s with
  | nil =>
      refine ⟨[], ?_, rfl⟩
      rw [List.flatMap_nil, List.nil_append, readParts.eq_def]
      exact if_pos rfl
  | cons b s ih =>
      obtain ⟨parts, hparts, hjoin⟩ := ih
      obtain ⟨part, hread, hpart⟩ := hescape b (s.flatMap escape ++ 34 :: rest)
      refine ⟨part :: parts, ?_, ?_⟩
      · rw [List.flatMap_cons, List.append_assoc, hread, hparts]
        rfl
      · rw [hpart, hjoin]
        rfl

/-- A string that is written with such an escape is read back. -/
theorem readString_escaped {escape : UInt8 → Bytes} (hescape : ReadsBack escape)
    (h : Utf8.Valid s) : readString (s.flatMap escape ++ 34 :: rest) = some (s, rest) := by
  obtain ⟨parts, hparts, hjoin⟩ := readParts_flatMap hescape s rest
  simp [readString, hparts, hjoin, h]

/-- A string that is written is read back. -/
theorem readString_dumpString (h : Utf8.Valid s) :
    readString (s.flatMap escapeByte ++ 34 :: rest) = some (s, rest) :=
  readString_escaped readsBack_escapeByte h

end Strings

section Numbers

/-- A positive number does not begin with a zero. -/
theorem head?_toDigits (n : ℕ) (h : 0 < n) : (Nat.toDigits 10 n).head? ≠ some '0' := by
  induction n using Nat.strongRecOn with
  | _ n ih =>
      rw [Nat.toDigits_eq_if (by decide)]
      split_ifs with hsmall
      · have hdigits : ∀ n < 10, 0 < n → Nat.digitChar n ≠ '0' := by decide
        simpa using hdigits n hsmall h
      · have hquotient := ih (n / 10) (by omega) (by omega)
        obtain ⟨c, l, hcl⟩ :=
          List.exists_cons_of_ne_nil (Nat.toDigits_ne_nil (n := n / 10) (b := 10))
        rw [hcl] at hquotient ⊢
        exact hquotient

theorem isInteger_repr (n : ℕ) : IsInteger (text n.repr) := by
  refine ⟨(isNumeral_repr n).1, fun hzero => ?_⟩
  obtain rfl | hpos := Nat.eq_zero_or_pos n
  · rfl
  · have hhead := head?_toDigits n hpos
    obtain ⟨c, l, hcl⟩ := List.exists_cons_of_ne_nil (Nat.toDigits_ne_nil (n := n) (b := 10))
    have hdigit : c.isDigit = true := by
      have hmem : c ∈ Nat.toDigits 10 n := by rw [hcl]; exact List.mem_cons_self
      exact Nat.isDigit_of_mem_toDigits (by decide) (by decide) hmem
    obtain ⟨d, hd, -, hnat⟩ := utf8EncodeChar_digit hdigit
    rw [text, Nat.toList_repr, hcl, List.flatMap_cons, hd] at hzero
    obtain rfl : d = 48 := by simpa using hzero
    rw [hcl] at hhead
    exact absurd (congrArg some (Char.toNat_inj.mp hnat.symm)) hhead

/-- An integer that is written is read back. -/
theorem readInteger_intText (i : Int) :
    readInteger (intText i) = some i ∧ intText i ≠ [] ∧ ∀ b ∈ intText i, isNumberByte b = true := by
  have hdigit : ∀ b, isDigit b = true → isNumberByte b = true := by
    intro b hb
    simp [isNumberByte, hb]
  unfold intText
  rw [Int.toString_eq_repr, Int.repr_eq_if]
  split_ifs with hi
  · obtain ⟨hnumeral, hvalue⟩ := isNumeral_repr i.toNat
    refine ⟨?_, hnumeral.1, fun b hb => hdigit b (hnumeral.2 b hb)⟩
    have hhead : (text i.toNat.repr).head? ≠ some 45 := by
      intro hminus
      exact hnumeral.not_mem (by decide) (List.mem_of_mem_head? hminus)
    rw [readInteger, if_neg hhead, if_pos (isInteger_repr _), hvalue, Int.toNat_of_nonneg hi]
  · obtain ⟨hnumeral, hvalue⟩ := isNumeral_repr (-i).toNat
    have htext : text ("-" ++ (-i).toNat.repr) = 45 :: text (-i).toNat.repr := by
      simp [text, String.toList_append]
      rfl
    rw [htext]
    refine ⟨?_, by simp, ?_⟩
    · rw [readInteger, List.head?_cons, if_pos rfl, List.tail_cons, if_pos (isInteger_repr _),
        hvalue, Int.toNat_of_nonneg (by omega), neg_neg]
    · intro b hb
      obtain rfl | hb := List.mem_cons.mp hb
      · rfl
      · exact hdigit b (hnumeral.2 b hb)

end Numbers

mutual

/-- A value as it is written: a number that is not finite becomes `null`. -/
def sent (finite : V → Bool) : Json V → Json V
  | .float v => if finite v then .float v else .null
  | .arr items => .arr (sentItems finite items)
  | .obj fields => .obj (sentFields finite fields)
  | j => j

def sentItems (finite : V → Bool) : List (Json V) → List (Json V)
  | [] => []
  | item :: rest => sent finite item :: sentItems finite rest

def sentFields (finite : V → Bool) : List (Bytes × Json V) → List (Bytes × Json V)
  | [] => []
  | (key, value) :: rest => (key, sent finite value) :: sentFields finite rest

end

/-- The texts of the numbers with a fraction: one that is finite is read back. -/
structure NumberTexts (fmt : V → Bytes) (double : Bytes → Option V) (finite : V → Bool) : Prop where
  read : ∀ v, finite v = true → fmt v ≠ [] ∧ (∀ b ∈ fmt v, isNumberByte b = true) ∧
    readInteger (fmt v) = none ∧ double (fmt v) = some v
  null : ∀ v, finite v = false → fmt v = text "null"

/-- The text of a number is on one line. -/
theorem NumberTexts.newline_not_mem {fmt : V → Bytes} {double : Bytes → Option V}
    {finite : V → Bool} (h : NumberTexts fmt double finite) (v : V) : (10 : UInt8) ∉ fmt v := by
  cases hv : finite v with
  | true =>
      intro hmem
      have hbyte := (h.read v hv).2.1 10 hmem
      revert hbyte
      decide
  | false =>
      rw [h.null v hv]
      decide

section Tokens

variable {double : Bytes → Option V} {s rest token : Bytes} {b c : UInt8} {fuel : ℕ}

theorem skip_cons (h : isBlank b = false) : skip (b :: s) = b :: s :=
  List.dropWhile_cons_of_neg (by simp [h])

theorem expect_cons (h : isBlank b = false) :
    expect c (b :: s) = if b = c then some s else none := by
  rw [expect, skip_cons h]

theorem readValue_string : readValue double (fuel + 1) (34 :: s) =
    (readString s).map fun (value, rest) => (.str value, rest) := by
  rw [readValue, skip_cons (by decide)]
  exact if_pos rfl

theorem readValue_array (h : expect 93 s = none) : readValue double (fuel + 1) (91 :: s) =
    (readItems double fuel s).map fun (items, rest) => (.arr items, rest) := by
  rw [readValue, skip_cons (by decide)]
  simp only
  rw [if_neg (by decide), if_pos trivial, h]

theorem readValue_object (h : expect 125 s = none) : readValue double (fuel + 1) (123 :: s) =
    (readFields double fuel s).map fun (fields, rest) => (.obj fields, rest) := by
  rw [readValue, skip_cons (by decide)]
  simp only
  rw [if_neg (by decide), if_neg (by decide), if_pos trivial, h]

theorem readItems_last {item : Json V} (hitem : readValue double fuel s = some (item, 93 :: rest)) :
    readItems double (fuel + 1) s = some ([item], rest) := by
  simp only [readItems, hitem, expect_cons (b := 93) (c := 93) (by decide), if_true]

theorem readItems_more {item : Json V} {items : List (Json V)}
    (hitem : readValue double fuel s = some (item, 44 :: token))
    (hitems : readItems double fuel token = some (items, rest)) :
    readItems double (fuel + 1) s = some (item :: items, rest) := by
  rw [readItems, hitem]
  simp only [expect_cons (b := 44) (by decide), if_true, Option.bind_some, hitems]
  rfl

theorem readFields_last {key text : Bytes} {value : Json V}
    (hkey : (expect 34 s).bind readString = some (key, 58 :: text))
    (hvalue : readValue double fuel text = some (value, 125 :: rest)) :
    readFields double (fuel + 1) s = some ([(key, value)], rest) := by
  rw [readFields, hkey]
  simp only [expect_cons (b := 58) (c := 58) (by decide), if_true, Option.bind_some, hvalue,
    expect_cons (b := 125) (c := 125) (by decide)]

theorem readFields_more {key text : Bytes} {value : Json V} {fields : List (Bytes × Json V)}
    (hkey : (expect 34 s).bind readString = some (key, 58 :: text))
    (hvalue : readValue double fuel text = some (value, 44 :: token))
    (hfields : readFields double fuel token = some (fields, rest)) :
    readFields double (fuel + 1) s = some ((key, value) :: fields, rest) := by
  rw [readFields, hkey]
  simp only [expect_cons (b := 58) (c := 58) (by decide), if_true, Option.bind_some, hvalue,
    expect_cons (b := 44) (by decide), hfields]
  rfl

/-- What may follow a number. -/
def Ends (rest : Bytes) : Prop := ∀ b ∈ rest.head?, isNumberByte b = false

theorem numberByte_starts (h : isNumberByte b = true) : isBlank b = false ∧ b ≠ 34 ∧ b ≠ 91 ∧
    b ≠ 93 ∧ b ≠ 123 ∧ b ≠ 110 ∧ b ≠ 116 ∧ b ≠ 102 := by
  have hall : ∀ n < 256, isNumberByte (UInt8.ofNat n) = true → isBlank (UInt8.ofNat n) = false ∧
      UInt8.ofNat n ≠ 34 ∧ UInt8.ofNat n ≠ 91 ∧ UInt8.ofNat n ≠ 93 ∧ UInt8.ofNat n ≠ 123 ∧
        UInt8.ofNat n ≠ 110 ∧ UInt8.ofNat n ≠ 116 ∧ UInt8.ofNat n ≠ 102 := by
    decide +kernel
  simpa using hall b.toNat b.toNat_lt (by simpa using h)

theorem takeWhile_number (htoken : ∀ b ∈ token, isNumberByte b = true) (hrest : Ends rest) :
    (token ++ rest).takeWhile isNumberByte = token ∧
      (token ++ rest).dropWhile isNumberByte = rest := by
  rw [List.takeWhile_append_of_pos htoken, List.dropWhile_append_of_pos htoken]
  cases rest with
  | nil => exact ⟨List.append_nil _, rfl⟩
  | cons b rest =>
      have hb : isNumberByte b = false := hrest b rfl
      rw [List.takeWhile_cons_of_neg (by simp [hb]), List.dropWhile_cons_of_neg (by simp [hb])]
      exact ⟨List.append_nil _, rfl⟩

theorem readValue_number (hne : token ≠ []) (htoken : ∀ b ∈ token, isNumberByte b = true)
    (hrest : Ends rest) : readValue double (fuel + 1) (token ++ rest) =
      (readNumber double token).map fun j => (j, rest) := by
  obtain ⟨htake, hdrop⟩ := takeWhile_number htoken hrest
  obtain ⟨b, tail, rfl⟩ := List.exists_cons_of_ne_nil hne
  obtain ⟨hblank, h34, h91, -, h123, h110, h116, h102⟩ :=
    numberByte_starts (htoken b List.mem_cons_self)
  have hliteral : ∀ (k : ℕ) (c : UInt8) (word : Bytes), word.head? = some c → b ≠ c →
      (b :: (tail ++ rest)).take (k + 1) ≠ word := by
    rintro k c word hword hne rfl
    exact hne (Option.some.inj hword)
  rw [List.cons_append] at htake hdrop ⊢
  rw [readValue, skip_cons hblank]
  simp only
  rw [if_neg h34, if_neg h91, if_neg h123, if_neg (hliteral 3 110 _ (by decide) h110),
    if_neg (hliteral 3 116 _ (by decide) h116),
    if_neg (hliteral 4 102 _ (by decide) h102), htake, hdrop]

theorem readValue_null :
    readValue double (fuel + 1) (text "null" ++ rest) = some (.null, rest) := by
  have htext : text "null" = [110, 117, 108, 108] := by decide
  rw [htext, readValue]
  rfl

theorem readValue_true : readValue double (fuel + 1) (text "true" ++ rest) =
    some (.bool true, rest) := by
  have htext : text "true" = [116, 114, 117, 101] := by decide
  rw [htext, readValue]
  rfl

theorem readValue_false : readValue double (fuel + 1) (text "false" ++ rest) =
    some (.bool false, rest) := by
  have htext : text "false" = [102, 97, 108, 115, 101] := by decide
  rw [htext, readValue]
  rfl

end Tokens

section RoundTrip

variable {fmt : V → Bytes} {double : Bytes → Option V} {finite : V → Bool}

theorem dumpString_ok {s out : Bytes} (h : dumpString s = .ok out) :
    Utf8.Valid s ∧ out = 34 :: (s.flatMap escapeByte ++ [34]) := by
  unfold dumpString at h
  split_ifs at h with hvalid
  exact ⟨hvalid, (Except.ok.inj h).symm⟩

theorem of_bind_ok {α β : Type} {r : Except JsonError α} {k : α → Except JsonError β} {out : β}
    (h : (r >>= k) = .ok out) : ∃ a, r = .ok a ∧ k a = .ok out := by
  cases r with
  | error e => cases h
  | ok a => exact ⟨a, rfl, h⟩

/-- No value begins with white space or like the end of an array. -/
theorem dump_starts (hnum : NumberTexts fmt double finite) {j : Json V} {out : Bytes}
    (h : dump fmt j = .ok out) : ∃ b tail, out = b :: tail ∧ isBlank b = false ∧ b ≠ 93 := by
  have htoken : ∀ token : Bytes, token ≠ [] → (∀ b ∈ token, isNumberByte b = true) →
      ∃ b tail, token = b :: tail ∧ isBlank b = false ∧ b ≠ 93 := by
    intro token hne hbytes
    obtain ⟨b, tail, rfl⟩ := List.exists_cons_of_ne_nil hne
    obtain ⟨hblank, -, -, h93, -⟩ := numberByte_starts (hbytes b List.mem_cons_self)
    exact ⟨b, tail, rfl, hblank, h93⟩
  cases j with
  | null =>
      cases h
      exact ⟨110, [117, 108, 108], by decide, by decide, by decide⟩
  | bool b =>
      cases b with
      | true =>
          cases h
          exact ⟨116, [114, 117, 101], by decide, by decide, by decide⟩
      | false =>
          cases h
          exact ⟨102, [97, 108, 115, 101], by decide, by decide, by decide⟩
  | int i =>
      cases h
      exact htoken _ (readInteger_intText i).2.1 (readInteger_intText i).2.2
  | float v =>
      cases h
      cases hv : finite v with
      | true => exact htoken _ (hnum.read v hv).1 (hnum.read v hv).2.1
      | false =>
          rw [hnum.null v hv]
          exact ⟨110, [117, 108, 108], by decide, by decide, by decide⟩
  | str s =>
      obtain ⟨-, rfl⟩ := dumpString_ok h
      exact ⟨34, _, rfl, by decide, by decide⟩
  | arr items =>
      obtain ⟨parts, -, hout⟩ := of_bind_ok h
      cases hout
      exact ⟨91, _, rfl, by decide, by decide⟩
  | obj fields =>
      obtain ⟨parts, -, hout⟩ := of_bind_ok h
      cases hout
      exact ⟨123, _, rfl, by decide, by decide⟩

theorem dumpItems_ne_nil {items : List (Json V)} {parts : List Bytes} (hne : items ≠ [])
    (h : dumpItems fmt items = .ok parts) : parts ≠ [] := by
  cases items with
  | nil => exact absurd rfl hne
  | cons item items =>
      obtain ⟨part, -, h⟩ := of_bind_ok h
      obtain ⟨rest, -, h⟩ := of_bind_ok h
      cases h
      exact List.cons_ne_nil _ _

theorem dumpFields_ne_nil {fields : List (Bytes × Json V)} {parts : List Bytes} (hne : fields ≠ [])
    (h : dumpFields fmt fields = .ok parts) : parts ≠ [] := by
  cases fields with
  | nil => exact absurd rfl hne
  | cons field fields =>
      obtain ⟨name, -, h⟩ := of_bind_ok h
      obtain ⟨part, -, h⟩ := of_bind_ok h
      obtain ⟨rest, -, h⟩ := of_bind_ok h
      cases h
      exact List.cons_ne_nil _ _

theorem intercalate_singleton (part : Bytes) : [44].intercalate [part] = part := by
  simp [List.intercalate]

/-- The parts of a list begin like the first of them. -/
theorem intercalate_cons_starts {part : Bytes} (parts : List Bytes) {b : UInt8} {tail : Bytes}
    (h : part = b :: tail) : ∃ tail, [44].intercalate (part :: parts) = b :: tail := by
  cases parts with
  | nil => exact ⟨tail, (intercalate_singleton part).trans h⟩
  | cons next parts =>
      rw [List.intercalate_cons_cons, h]
      exact ⟨_, rfl⟩

theorem intercalate_items_starts (hnum : NumberTexts fmt double finite) {items : List (Json V)}
    {parts : List Bytes} (hne : items ≠ []) (h : dumpItems fmt items = .ok parts) :
    ∃ b tail, [44].intercalate parts = b :: tail ∧ isBlank b = false ∧ b ≠ 93 := by
  cases items with
  | nil => exact absurd rfl hne
  | cons item items =>
      obtain ⟨part, hpart, h⟩ := of_bind_ok h
      obtain ⟨rest, -, h⟩ := of_bind_ok h
      cases h
      obtain ⟨b, tail, heq, hblank, hb⟩ := dump_starts hnum hpart
      obtain ⟨tail, hstart⟩ := intercalate_cons_starts rest heq
      exact ⟨b, tail, hstart, hblank, hb⟩

theorem intercalate_fields_starts {fields : List (Bytes × Json V)} {parts : List Bytes}
    (hne : fields ≠ []) (h : dumpFields fmt fields = .ok parts) :
    ∃ tail, [44].intercalate parts = 34 :: tail := by
  cases fields with
  | nil => exact absurd rfl hne
  | cons field fields =>
      obtain ⟨name, hname, h⟩ := of_bind_ok h
      obtain ⟨part, -, h⟩ := of_bind_ok h
      obtain ⟨rest, -, h⟩ := of_bind_ok h
      cases h
      obtain ⟨-, rfl⟩ := dumpString_ok hname
      exact intercalate_cons_starts _ rfl

theorem ends_cons {b : UInt8} {rest : Bytes} (h : isNumberByte b = false) : Ends (b :: rest) := by
  intro c hc
  rw [← Option.some.inj hc]
  exact h

theorem readKey {escape : UInt8 → Bytes} (hescape : ReadsBack escape) {key s : Bytes}
    (h : Utf8.Valid key) :
    (expect 34 (34 :: (key.flatMap escape ++ 34 :: s))).bind readString = some (key, s) := by
  rw [expect_cons (by decide), if_pos rfl, Option.bind_some, readString_escaped hescape h]

theorem field_append {key part s : Bytes} :
    34 :: (key.flatMap escapeByte ++ [34]) ++ 58 :: part ++ s =
      34 :: (key.flatMap escapeByte ++ 34 :: 58 :: (part ++ s)) := by
  simp

mutual

/-- A value that is written is read back, whatever follows it. -/
theorem readValue_dump (hnum : NumberTexts fmt double finite) (j : Json V) {out rest : Bytes}
    (hdump : dump fmt j = .ok out) (hrest : Ends rest) {fuel : ℕ}
    (hfuel : 2 * (out ++ rest).length < fuel) :
    readValue double fuel (out ++ rest) = some (sent finite j, rest) := by
  obtain ⟨fuel, rfl⟩ := Nat.exists_eq_add_one_of_ne_zero (Nat.ne_zero_of_lt hfuel)
  cases j with
  | null =>
      cases hdump
      exact readValue_null
  | bool b =>
      cases b with
      | true =>
          cases hdump
          exact readValue_true
      | false =>
          cases hdump
          exact readValue_false
  | int i =>
      cases hdump
      obtain ⟨hread, hne, hbytes⟩ := readInteger_intText i
      rw [readValue_number hne hbytes hrest, readNumber, hread]
      rfl
  | float v =>
      cases hdump
      cases hv : finite v with
      | true =>
          obtain ⟨hne, hbytes, hread, hdouble⟩ := hnum.read v hv
          rw [readValue_number hne hbytes hrest, readNumber, hread, hdouble, sent, hv]
          rfl
      | false =>
          rw [hnum.null v hv, readValue_null, sent, hv]
          rfl
  | str s =>
      obtain ⟨hvalid, rfl⟩ := dumpString_ok hdump
      rw [List.cons_append, List.append_assoc, List.singleton_append, readValue_string,
        readString_dumpString hvalid]
      rfl
  | arr items =>
      obtain ⟨parts, hparts, hout⟩ := of_bind_ok hdump
      cases hout
      by_cases hitems : items = []
      · subst hitems
        cases hparts
        rfl
      · have happend : 91 :: [44].intercalate parts ++ [93] ++ rest =
            91 :: ([44].intercalate parts ++ 93 :: rest) := by simp
        rw [happend] at hfuel ⊢
        obtain ⟨b, tail, hstart, hblank, hb⟩ := intercalate_items_starts hnum hitems hparts
        have hexpect : expect 93 ([44].intercalate parts ++ 93 :: rest) = none := by
          rw [hstart, List.cons_append, expect_cons hblank, if_neg hb]
        rw [readValue_array hexpect, readItems_dump hnum items hitems hparts
          (by rw [List.length_cons] at hfuel; omega), sent]
        rfl
  | obj fields =>
      obtain ⟨parts, hparts, hout⟩ := of_bind_ok hdump
      cases hout
      by_cases hfields : fields = []
      · subst hfields
        cases hparts
        rfl
      · have happend : 123 :: [44].intercalate parts ++ [125] ++ rest =
            123 :: ([44].intercalate parts ++ 125 :: rest) := by simp
        rw [happend] at hfuel ⊢
        obtain ⟨tail, hstart⟩ := intercalate_fields_starts hfields hparts
        have hexpect : expect 125 ([44].intercalate parts ++ 125 :: rest) = none := by
          rw [hstart, List.cons_append, expect_cons (by decide), if_neg (by decide)]
        rw [readValue_object hexpect, readFields_dump hnum fields hfields hparts
          (by rw [List.length_cons] at hfuel; omega), sent]
        rfl

theorem readItems_dump (hnum : NumberTexts fmt double finite) (items : List (Json V))
    (hne : items ≠ []) {parts : List Bytes} {rest : Bytes}
    (hdump : dumpItems fmt items = .ok parts) {fuel : ℕ}
    (hfuel : 2 * ([44].intercalate parts ++ 93 :: rest).length + 1 < fuel) :
    readItems double fuel ([44].intercalate parts ++ 93 :: rest) =
      some (sentItems finite items, rest) := by
  obtain ⟨fuel, rfl⟩ := Nat.exists_eq_add_one_of_ne_zero (Nat.ne_zero_of_lt hfuel)
  cases items with
  | nil => exact absurd rfl hne
  | cons item items =>
      obtain ⟨part, hpart, hdump⟩ := of_bind_ok hdump
      obtain ⟨parts, hparts, hdump⟩ := of_bind_ok hdump
      cases hdump
      by_cases hitems : items = []
      · subst hitems
        cases hparts
        rw [intercalate_singleton] at hfuel ⊢
        exact readItems_last (readValue_dump hnum item hpart (ends_cons (by decide)) (by omega))
      · have happend : [44].intercalate (part :: parts) ++ 93 :: rest =
            part ++ 44 :: ([44].intercalate parts ++ 93 :: rest) := by
          obtain ⟨next, more, rfl⟩ := List.exists_cons_of_ne_nil (dumpItems_ne_nil hitems hparts)
          rw [List.intercalate_cons_cons]
          simp
        rw [happend] at hfuel ⊢
        have hlength : 2 * ([44].intercalate parts ++ 93 :: rest).length + 1 < fuel := by
          rw [List.length_append, List.length_cons] at hfuel
          omega
        have hrest := readItems_dump hnum items hitems hparts hlength
        exact readItems_more
          (readValue_dump hnum item hpart (ends_cons (by decide)) (by omega)) hrest

/-- Fields that are written are read back, up to the closing brace. -/
theorem readFields_dump (hnum : NumberTexts fmt double finite) (fields : List (Bytes × Json V))
    (hne : fields ≠ []) {parts : List Bytes} {rest : Bytes}
    (hdump : dumpFields fmt fields = .ok parts) {fuel : ℕ}
    (hfuel : 2 * ([44].intercalate parts ++ 125 :: rest).length + 1 < fuel) :
    readFields double fuel ([44].intercalate parts ++ 125 :: rest) =
      some (sentFields finite fields, rest) := by
  obtain ⟨fuel, rfl⟩ := Nat.exists_eq_add_one_of_ne_zero (Nat.ne_zero_of_lt hfuel)
  cases fields with
  | nil => exact absurd rfl hne
  | cons field fields =>
      obtain ⟨key, value⟩ := field
      obtain ⟨name, hname, hdump⟩ := of_bind_ok hdump
      obtain ⟨part, hpart, hdump⟩ := of_bind_ok hdump
      obtain ⟨parts, hparts, hdump⟩ := of_bind_ok hdump
      cases hdump
      obtain ⟨hvalid, rfl⟩ := dumpString_ok hname
      by_cases hfields : fields = []
      · subst hfields
        cases hparts
        rw [intercalate_singleton, field_append] at hfuel ⊢
        have hlength : 2 * (part ++ 125 :: rest).length < fuel := by
          simp only [List.length_cons, List.length_append] at hfuel ⊢
          omega
        have hvalue := readValue_dump hnum value hpart (ends_cons (by decide)) hlength
        exact readFields_last (readKey readsBack_escapeByte hvalid) hvalue
      · have happend :
            [44].intercalate ((34 :: (key.flatMap escapeByte ++ [34]) ++ 58 :: part) :: parts) ++
                125 :: rest =
              34 :: (key.flatMap escapeByte ++ 34 :: 58 ::
                (part ++ 44 :: ([44].intercalate parts ++ 125 :: rest))) := by
          obtain ⟨next, more, rfl⟩ := List.exists_cons_of_ne_nil (dumpFields_ne_nil hfields hparts)
          rw [List.intercalate_cons_cons]
          simp
        rw [happend] at hfuel ⊢
        simp only [List.length_cons, List.length_append] at hfuel
        have hshort :
            2 * (part ++ 44 :: ([44].intercalate parts ++ 125 :: rest)).length < fuel := by
          simp only [List.length_cons, List.length_append]
          omega
        have hvalue := readValue_dump hnum value hpart (ends_cons (by decide)) hshort
        have hlength : 2 * ([44].intercalate parts ++ 125 :: rest).length + 1 < fuel := by
          simp only [List.length_cons, List.length_append]
          omega
        have hrest := readFields_dump hnum fields hfields hparts hlength
        exact readFields_more (readKey readsBack_escapeByte hvalid) hvalue hrest

end

/-- A value that is written is read back. -/
theorem read_dump (hnum : NumberTexts fmt double finite) {j : Json V} {out : Bytes}
    (h : dump fmt j = .ok out) : read double out = some (sent finite j) := by
  have hends : Ends [] := fun b hb => (nomatch hb)
  have hvalue := readValue_dump hnum j h hends (Nat.lt_succ_of_le (Nat.le_refl _))
  rw [List.append_nil] at hvalue
  rw [read, hvalue]
  rfl

end RoundTrip

end AgentPulse.Json
