import Mathlib.Data.List.Basic

/-!
# Words and quoted literals

A lexer for texts of words and quoted literals. A literal begins and ends at a
quote, and an escape character inside it gives the next character a meaning of
its own. Texts written by an escaper that answers for every character come back
as one literal each, whatever follows them.
-/

namespace QuotedLexer

universe u

variable {α : Type u}

/-- The characters a lexer tells apart. `decode` is the meaning of the
character after an escape, if it has one. -/
structure Rules (α : Type u) where
  blank : α → Bool
  quote : α
  escape : α
  decode : α → Option α
  quote_ne_escape : quote ≠ escape
  quote_not_blank : blank quote = false

inductive Token (α : Type u) where
  | word (s : List α)
  | literal (s : List α)
  deriving DecidableEq

/-- Where the lexer stands, with what it has read of an unfinished token. -/
inductive Mode (α : Type u) where
  | between
  | word (read : List α)
  | literal (read : List α)
  | escaped (read : List α)

variable [DecidableEq α]

/-- One character: the tokens it ends and the mode after it. -/
def step (r : Rules α) : Mode α → α → Option (List (Token α) × Mode α)
  | .between, c =>
      if c = r.quote then some ([], .literal [])
      else if r.blank c then some ([], .between)
      else some ([], .word [c])
  | .word read, c =>
      if c = r.quote then some ([.word read], .literal [])
      else if r.blank c then some ([.word read], .between)
      else some ([], .word (read ++ [c]))
  | .literal read, c =>
      if c = r.quote then some ([.literal read], .between)
      else if c = r.escape then some ([], .escaped read)
      else some ([], .literal (read ++ [c]))
  | .escaped read, c => (r.decode c).map fun d => ([], .literal (read ++ [d]))

/-- What the end of the text makes of an unfinished token. -/
def finish : Mode α → Option (List (Token α))
  | .between => some []
  | .word read => some [.word read]
  | .literal _ => none
  | .escaped _ => none

/-- The tokens of a text from a mode on; `none` is an unknown escape or a
literal that does not end. -/
def lexFrom (r : Rules α) : Mode α → List α → Option (List (Token α))
  | m, [] => finish m
  | m, c :: rest => (step r m c).bind fun next => (lexFrom r next.2 rest).map (next.1 ++ ·)

def lex (r : Rules α) (s : List α) : Option (List (Token α)) := lexFrom r .between s

section Words

variable {r : Rules α} {w : List α} {c : α}

/-- Plain characters extend a word. -/
theorem lexFrom_word (hw : ∀ c ∈ w, c ≠ r.quote ∧ r.blank c = false) (read rest : List α) :
    lexFrom r (.word read) (w ++ rest) = lexFrom r (.word (read ++ w)) rest := by
  induction w generalizing read with
  | nil => simp
  | cons c w ih =>
      obtain ⟨hquote, hblank⟩ := hw c List.mem_cons_self
      have hrest := ih (fun d hd => hw d (List.mem_cons_of_mem _ hd)) (read ++ [c])
      rw [List.append_assoc, List.singleton_append] at hrest
      simp [lexFrom, step, hquote, hblank, hrest]

/-- A blank between tokens is skipped. -/
theorem lexFrom_blank (hc : r.blank c = true) (rest : List α) :
    lexFrom r .between (c :: rest) = lexFrom r .between rest := by
  have hquote : c ≠ r.quote := by
    rintro rfl
    rw [r.quote_not_blank] at hc
    cases hc
  simp [lexFrom, step, hquote, hc]

/-- Plain characters up to a blank are a word. -/
theorem lexFrom_word_blank (hne : w ≠ []) (hw : ∀ c ∈ w, c ≠ r.quote ∧ r.blank c = false)
    (hc : r.blank c = true) (rest : List α) :
    lexFrom r .between (w ++ c :: rest) = (lexFrom r .between rest).map (.word w :: ·) := by
  obtain ⟨d, w, rfl⟩ := List.exists_cons_of_ne_nil hne
  obtain ⟨hquote, hblank⟩ := hw d List.mem_cons_self
  have hend : c ≠ r.quote := by
    rintro rfl
    rw [r.quote_not_blank] at hc
    cases hc
  have hword := lexFrom_word (fun e he => hw e (List.mem_cons_of_mem _ he)) [d] (c :: rest)
  calc lexFrom r .between (d :: w ++ c :: rest)
      = lexFrom r (.word [d]) (w ++ c :: rest) := by simp [lexFrom, step, hquote, hblank]
    _ = lexFrom r (.word (d :: w)) (c :: rest) := hword
    _ = (lexFrom r .between rest).map (.word (d :: w) :: ·) := by simp [lexFrom, step, hend, hc]

end Words

/-- An escaper that writes a character as itself if it is neither the quote nor
the escape, and else as an escape that means it. -/
def Escapes (r : Rules α) (enc : α → List α) : Prop :=
  ∀ c, (enc c = [c] ∧ c ≠ r.quote ∧ c ≠ r.escape) ∨
    ∃ e, enc c = [r.escape, e] ∧ r.decode e = some c

section Literals

variable {r : Rules α} {enc : α → List α}

/-- Inside a literal an escaped character reads as the character. -/
theorem Escapes.lexFrom_char (h : Escapes r enc) (c : α) (read rest : List α) :
    lexFrom r (.literal read) (enc c ++ rest) = lexFrom r (.literal (read ++ [c])) rest := by
  obtain ⟨henc, hquote, hescape⟩ | ⟨e, henc, hdecode⟩ := h c
  · simp [henc, lexFrom, step, hquote, hescape]
  · simp [henc, lexFrom, step, r.quote_ne_escape.symm, hdecode, Function.comp_def]

/-- Inside a literal an escaped text reads as the text. -/
theorem Escapes.lexFrom_text (h : Escapes r enc) (s read rest : List α) :
    lexFrom r (.literal read) (s.flatMap enc ++ rest) = lexFrom r (.literal (read ++ s)) rest := by
  induction s generalizing read with
  | nil => simp
  | cons c s ih =>
      rw [List.flatMap_cons, List.append_assoc, h.lexFrom_char, ih, List.append_assoc,
        List.singleton_append]

/-- A quoted escaped text is one literal, and the lexer goes on after it. -/
theorem Escapes.lexFrom_quoted (h : Escapes r enc) (s rest : List α) :
    lexFrom r .between (r.quote :: s.flatMap enc ++ r.quote :: rest) =
      (lexFrom r .between rest).map (.literal s :: ·) := by
  calc lexFrom r .between (r.quote :: s.flatMap enc ++ r.quote :: rest)
      = lexFrom r (.literal []) (s.flatMap enc ++ r.quote :: rest) := by simp [lexFrom, step]
    _ = lexFrom r (.literal s) (r.quote :: rest) := h.lexFrom_text s [] _
    _ = (lexFrom r .between rest).map (.literal s :: ·) := by simp [lexFrom, step]

/-- Without the closing quote there is no text. -/
theorem Escapes.lexFrom_unterminated (h : Escapes r enc) (s : List α) :
    lexFrom r .between (r.quote :: s.flatMap enc) = none := by
  have htext := h.lexFrom_text s [] []
  rw [List.append_nil] at htext
  simp [lexFrom, step, htext, finish]

end Literals

end QuotedLexer
