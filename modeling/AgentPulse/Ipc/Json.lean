import AgentPulse.Text
import AgentPulse.Lib.KeyedList
import AgentPulse.Lib.Utf8
import Mathlib.Data.List.Sort

/-!
# JSON values and their serialisation

The part of `nlohmann::json` the socket API uses: values, the lookup of a field
and what is promised of `dump`, with a serialiser that keeps the promise.
Objects are sorted by key, a `double` is an arbitrary type, and a string is any
byte string.

## Implementation notes

`dump` throws `type_error.316` if a string or a key is not well-formed UTF-8.
The serialiser here writes no white space, escapes the characters JSON asks to
escape, and has the text of a `double` as a parameter.
-/

namespace AgentPulse

/-- A value of the JSON library. -/
inductive Json (V : Type) where
  | null
  | bool (b : Bool)
  | int (i : Int)
  | float (v : V)
  | str (s : Bytes)
  | arr (items : List (Json V))
  | obj (fields : List (Bytes × Json V))

/-- The exception of `dump`. -/
inductive JsonError where
  | invalidUtf8
  deriving DecidableEq, Repr

namespace Json

variable {V : Type}

/-- An object, from a list of fields with distinct keys. -/
def object (fields : List (Bytes × Json V)) : Json V :=
  .obj (fields.insertionSort fun a b => a.1 ≤ b.1)

/-- `value.contains(key)` and `value[key]` for an object. -/
def get? (key : Bytes) : Json V → Option (Json V)
  | .obj fields => (fields.find? fun f => f.1 = key).map Prod.snd
  | _ => none

/-- A digit of a control character in a `\u` escape. -/
def hexDigit (n : UInt8) : UInt8 := if n < 10 then 48 + n else 87 + n

/-- One byte of a string, escaped where JSON asks for it. -/
def escapeByte (b : UInt8) : Bytes :=
  if b = 8 then [92, 98]
  else if b = 9 then [92, 116]
  else if b = 10 then [92, 110]
  else if b = 12 then [92, 102]
  else if b = 13 then [92, 114]
  else if b = 34 then [92, 34]
  else if b = 92 then [92, 92]
  else if b < 32 then [92, 117, 48, 48, hexDigit (b / 16), hexDigit (b % 16)]
  else [b]

/-- A string or a key in quotes. -/
def dumpString (s : Bytes) : Except JsonError Bytes :=
  if Utf8.Valid s then .ok (34 :: s.flatMap escapeByte ++ [34]) else .error .invalidUtf8

mutual

/-- A value without white space between its tokens. -/
def dump (fmt : V → Bytes) : Json V → Except JsonError Bytes
  | .null => .ok (text "null")
  | .bool true => .ok (text "true")
  | .bool false => .ok (text "false")
  | .int i => .ok (intText i)
  | .float v => .ok (fmt v)
  | .str s => dumpString s
  | .arr items => do
      let parts ← dumpItems fmt items
      .ok (91 :: [44].intercalate parts ++ [93])
  | .obj fields => do
      let parts ← dumpFields fmt fields
      .ok (123 :: [44].intercalate parts ++ [125])

/-- The items of an array. -/
def dumpItems (fmt : V → Bytes) : List (Json V) → Except JsonError (List Bytes)
  | [] => .ok []
  | item :: rest => do
      let part ← dump fmt item
      let parts ← dumpItems fmt rest
      .ok (part :: parts)

/-- The fields of an object. -/
def dumpFields (fmt : V → Bytes) : List (Bytes × Json V) → Except JsonError (List Bytes)
  | [] => .ok []
  | (key, value) :: rest => do
      let name ← dumpString key
      let part ← dump fmt value
      let parts ← dumpFields fmt rest
      .ok ((name ++ 58 :: part) :: parts)

end

mutual

/-- All strings of a value are well-formed UTF-8. -/
def Clean : Json V → Prop
  | .str s => Utf8.Valid s
  | .arr items => CleanItems items
  | .obj fields => CleanFields fields
  | _ => True

/-- All strings of the items are well-formed UTF-8. -/
def CleanItems : List (Json V) → Prop
  | [] => True
  | item :: rest => Clean item ∧ CleanItems rest

/-- All keys and all strings of the fields are well-formed UTF-8. -/
def CleanFields : List (Bytes × Json V) → Prop
  | [] => True
  | (key, value) :: rest => Utf8.Valid key ∧ Clean value ∧ CleanFields rest

end

/-- A field of an object is looked up in the list it was built from. -/
theorem get?_object {fields : List (Bytes × Json V)} (hn : (fields.map Prod.fst).Nodup)
    (key : Bytes) :
    (object fields).get? key = (fields.find? fun f => f.1 = key).map Prod.snd := by
  have hperm := List.perm_insertionSort (fun a b : Bytes × Json V => a.1 ≤ b.1) fields
  rw [object, get?, KeyedList.find?_perm hperm ((hperm.map Prod.fst).nodup_iff.mpr hn)]

section Bytes

/-- A text of the source is well-formed. -/
theorem valid_text (s : String) : Utf8.Valid (text s) :=
  Utf8.valid_flatMap_utf8EncodeChar s.toList

theorem newline_not_mem_escapeByte (b : UInt8) : (10 : UInt8) ∉ escapeByte b := by
  have hall : ∀ n < 256, (10 : UInt8) ∉ escapeByte (UInt8.ofNat n) := by decide +kernel
  simpa using hall b.toNat b.toNat_lt

/-- The byte of a newline belongs to a newline only. -/
theorem newline_mem_utf8EncodeChar {c : Char} (h : (10 : UInt8) ∈ String.utf8EncodeChar c) :
    c.val.toNat = 10 := by
  have hbyte : ∀ n < 256, (10 : UInt8) = UInt8.ofNat n → n = 10 := by
    intro n hn heq
    have hnat := congrArg UInt8.toNat heq
    rw [UInt8.toNat_ofNat_of_lt' hn] at hnat
    exact hnat.symm
  unfold String.utf8EncodeChar at h
  simp only at h
  split_ifs at h
  all_goals
    simp only [List.mem_cons, List.not_mem_nil, or_false] at h
  · exact hbyte _ (by omega) h
  · obtain h | h := h <;> have := hbyte _ (by omega) h <;> omega
  · obtain h | h | h := h <;> have := hbyte _ (by omega) h <;> omega
  · obtain h | h | h | h := h <;> have := hbyte _ (by omega) h <;> omega

theorem newline_not_mem_text {s : String} (h : ∀ c ∈ s.toList, c.isDigit ∨ c = '-') :
    (10 : UInt8) ∉ text s := by
  intro hmem
  obtain ⟨c, hc, hbyte⟩ := List.mem_flatMap.mp hmem
  have hnewline := newline_mem_utf8EncodeChar hbyte
  obtain hdigit | rfl := h c hc
  · simp only [Char.isDigit, Bool.and_eq_true, decide_eq_true_eq, UInt32.le_iff_toNat_le,
      ge_iff_le] at hdigit
    have hlow := hdigit.1
    rw [hnewline] at hlow
    revert hlow
    decide
  · revert hnewline
    decide

theorem newline_not_mem_intText (i : Int) : (10 : UInt8) ∉ intText i := by
  have hdigits : ∀ n : ℕ, ∀ c ∈ n.repr.toList, c.isDigit = true := by
    intro n c hc
    rw [Nat.toList_repr] at hc
    exact Nat.isDigit_of_mem_toDigits (by decide) (by decide) hc
  apply newline_not_mem_text
  intro c hc
  rw [Int.toString_eq_repr, Int.repr_eq_if] at hc
  split_ifs at hc
  · exact Or.inl (hdigits _ c hc)
  · rw [String.toList_append, List.mem_append] at hc
    obtain hminus | hdigit := hc
    · exact Or.inr (by simpa using hminus)
    · exact Or.inl (hdigits _ c hdigit)

end Bytes

section Serialisation

variable {fmt : V → Bytes}

theorem cleanItems_iff {items : List (Json V)} : CleanItems items ↔ ∀ item ∈ items, item.Clean := by
  induction items with
  | nil => simp [CleanItems]
  | cons item rest ih => simp [CleanItems, ih]

theorem cleanFields_iff {fields : List (Bytes × Json V)} :
    CleanFields fields ↔ ∀ f ∈ fields, Utf8.Valid f.1 ∧ f.2.Clean := by
  induction fields with
  | nil => simp [CleanFields]
  | cons f rest ih =>
      obtain ⟨key, value⟩ := f
      simp [CleanFields, ih, and_assoc]

theorem object_clean {fields : List (Bytes × Json V)} :
    (object fields).Clean ↔ CleanFields fields := by
  rw [object, Clean, cleanFields_iff, cleanFields_iff]
  simp only [List.mem_insertionSort]

/-- The outcome of a serialisation: a clean value has a result with the given
property, and any other an exception. -/
def Dumps {α : Type} (clean : Prop) (P : α → Prop) (r : Except JsonError α) : Prop :=
  (clean → ∃ out, r = .ok out ∧ P out) ∧ (¬ clean → r = .error .invalidUtf8)

theorem Dumps.pure {α : Type} {P : α → Prop} {out : α} (h : P out) : Dumps True P (.ok out) :=
  ⟨fun _ => ⟨out, rfl, h⟩, fun hnot => absurd trivial hnot⟩

theorem Dumps.bind {α β : Type} {c d : Prop} {P : α → Prop} {Q : β → Prop}
    {r : Except JsonError α} {k : α → Except JsonError β} (h : Dumps c P r)
    (hk : ∀ out, P out → Dumps d Q (k out)) : Dumps (c ∧ d) Q (r >>= k) := by
  by_cases hc : c
  · obtain ⟨out, rfl, hP⟩ := h.1 hc
    refine ⟨fun hcd => (hk out hP).1 hcd.2, fun hnot => (hk out hP).2 fun hd => hnot ⟨hc, hd⟩⟩
  · rw [h.2 hc]
    exact ⟨fun hcd => absurd hcd.1 hc, fun _ => rfl⟩

theorem Dumps.congr {α : Type} {c d : Prop} {P : α → Prop} {r : Except JsonError α}
    (h : Dumps c P r) (hcd : d ↔ c) : Dumps d P r :=
  ⟨fun hd => h.1 (hcd.mp hd), fun hd => h.2 fun hc => hd (hcd.mpr hc)⟩

theorem dumpString_dumps (s : Bytes) :
    Dumps (Utf8.Valid s) (fun out => (10 : UInt8) ∉ out) (dumpString s) := by
  unfold dumpString
  refine ⟨fun h => ⟨_, if_pos h, ?_⟩, fun h => if_neg h⟩
  simp [newline_not_mem_escapeByte]

theorem newline_not_mem_intercalate {parts : List Bytes} (h : ∀ part ∈ parts, (10 : UInt8) ∉ part) :
    (10 : UInt8) ∉ [44].intercalate parts := by
  induction parts with
  | nil => simp [List.intercalate]
  | cons part rest ih =>
      have hpart := h part List.mem_cons_self
      cases rest with
      | nil => simpa [List.intercalate] using hpart
      | cons next rest =>
          have hrest := ih fun part hmem => h part (List.mem_cons_of_mem _ hmem)
          rw [List.intercalate_cons_cons, List.mem_append, List.mem_append]
          rintro ((hbyte | hbyte) | hbyte)
          · exact hpart hbyte
          · revert hbyte
            decide
          · exact hrest hbyte

mutual

theorem dump_dumps (hfmt : ∀ v, (10 : UInt8) ∉ fmt v) (j : Json V) :
    Dumps j.Clean (fun out => (10 : UInt8) ∉ out) (dump fmt j) := by
  cases j with
  | null => exact .pure (by decide)
  | bool b => cases b <;> exact .pure (by decide)
  | int i => exact .pure (newline_not_mem_intText i)
  | float v => exact .pure (hfmt v)
  | str s => exact dumpString_dumps s
  | arr items =>
      refine ((dumpItems_dumps hfmt items).bind fun parts hparts => .pure ?_).congr (by simp [Clean])
      simpa using newline_not_mem_intercalate hparts
  | obj fields =>
      refine ((dumpFields_dumps hfmt fields).bind fun parts hparts => .pure ?_).congr (by simp [Clean])
      simpa using newline_not_mem_intercalate hparts

theorem dumpItems_dumps (hfmt : ∀ v, (10 : UInt8) ∉ fmt v) (items : List (Json V)) :
    Dumps (CleanItems items) (fun parts => ∀ part ∈ parts, (10 : UInt8) ∉ part)
      (dumpItems fmt items) := by
  cases items with
  | nil => exact .pure (by simp)
  | cons item rest =>
      refine ((dump_dumps hfmt item).bind fun part hpart =>
        (dumpItems_dumps hfmt rest).bind fun parts hparts => .pure ?_).congr (by simp [CleanItems])
      simpa using ⟨hpart, hparts⟩

theorem dumpFields_dumps (hfmt : ∀ v, (10 : UInt8) ∉ fmt v) (fields : List (Bytes × Json V)) :
    Dumps (CleanFields fields) (fun parts => ∀ part ∈ parts, (10 : UInt8) ∉ part)
      (dumpFields fmt fields) := by
  cases fields with
  | nil => exact .pure (by simp)
  | cons f rest =>
      obtain ⟨key, value⟩ := f
      refine ((dumpString_dumps key).bind fun name hname => (dump_dumps hfmt value).bind
        fun part hpart => (dumpFields_dumps hfmt rest).bind fun parts hparts => .pure ?_).congr
        (by simp [CleanFields])
      simpa using ⟨⟨hname, hpart⟩, hparts⟩

end

end Serialisation

end Json
end AgentPulse
