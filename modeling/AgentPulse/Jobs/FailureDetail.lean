import AgentPulse.Jobs.Worker
import AgentPulse.Lib.Utf8
import Mathlib.Data.List.DropRight

/-!
# The detail of a failure

The excerpt of the standard error a failed job's alert carries: the last line
with anything on it, cut to 160 bytes. The cut counts bytes, so it may fall
inside a character; everything else about the excerpt holds of every output.
-/

namespace AgentPulse.Worker

/-- A blank of a line: blank, tab or carriage return. -/
def isBlank (b : UInt8) : Bool := b == 32 || b == 9 || b == 13

/-- A blank or a newline. -/
def isBlankOrNewline (b : UInt8) : Bool := isBlank b || b == 10

/-- The line has something on it. -/
def hasText (line : Bytes) : Bool := line.any (!isBlank ·)

/-- The last line with something on it, without the blanks at its end. -/
def lastLine (err : Bytes) : Option Bytes :=
  ((err.splitOn 10).filter hasText).getLast?.map (·.rdropWhile isBlank)

/-- A well-formed excerpt of the standard error. -/
structure Excerpt (err detail : Bytes) : Prop where
  empty : (∀ b ∈ err, isBlankOrNewline b = true) → detail = []
  shown : (∃ b ∈ err, isBlankOrNewline b = false) → ∃ line ∈ lastLine err,
    line.length ≤ 160 ∧ detail = line ∨
      160 < line.length ∧ ∃ p, p <+: line ∧ p.length ≤ 157 ∧ detail = p ++ text "..."
  noNewline : 10 ∉ detail
  short : detail.length ≤ 160
  valid : Utf8.Valid detail

section Lines

variable {s before line after : Bytes}

theorem isBlank_of_ne {b : UInt8} (h : isBlankOrNewline b = true) (hb : b ≠ 10) :
    isBlank b = true := by
  simpa [isBlankOrNewline, hb] using h

/-- No line of a text of blanks and newlines has anything on it. -/
theorem filter_hasText_of_blank (h : ∀ b ∈ s, isBlankOrNewline b = true) :
    (s.splitOn 10).filter hasText = [] := by
  rw [List.filter_eq_nil_iff]
  induction s with
  | nil => simp [hasText]
  | cons b s ih =>
      have htail := ih fun c hc => h c (List.mem_cons_of_mem _ hc)
      rw [List.splitOn_cons_eq_if_modifyHead]
      by_cases hb : b = 10
      · rw [if_pos (by simpa using hb)]
        exact List.forall_mem_cons.mpr ⟨by simp [hasText], htail⟩
      · rw [if_neg (by simpa using hb)]
        obtain ⟨first, rest, hsplit⟩ := List.exists_cons_of_ne_nil (List.splitOn_ne_nil 10 s)
        have hblank := isBlank_of_ne (h b List.mem_cons_self) hb
        rw [hsplit] at htail ⊢
        simpa [hasText, hblank] using htail

/-- A line ends at the next newline or at the end of the text. -/
theorem splitOn_line (hnewline : 10 ∉ line) (hafter : ∀ b ∈ after, isBlankOrNewline b = true) :
    ∃ blanks rest, (line ++ after).splitOn 10 = (line ++ blanks) :: rest ∧
      (∀ b ∈ blanks, isBlank b = true) ∧ rest.filter hasText = [] := by
  by_cases hmem : 10 ∈ after
  · obtain ⟨blanks, rest, rfl, hblanks⟩ := List.eq_append_cons_of_mem hmem
    refine ⟨blanks, rest.splitOn 10, ?_, ?_, ?_⟩
    · rw [← List.append_assoc]
      exact List.splitOn_append_cons_self_of_not_mem (by simp [hnewline, hblanks]) rest
    · intro b hb
      exact isBlank_of_ne (hafter b (List.mem_append_left _ hb)) fun h => hblanks (h ▸ hb)
    · exact filter_hasText_of_blank fun b hb =>
        hafter b (List.mem_append_right _ (List.mem_cons_of_mem _ hb))
  · refine ⟨after, [], List.splitOn_eq_singleton (by simp [hnewline, hmem]), ?_, rfl⟩
    intro b hb
    exact isBlank_of_ne (hafter b hb) fun h => hmem (h ▸ hb)

/-- The blanks after the last character of a line are dropped. -/
theorem rdropWhile_blanks {blanks : Bytes} (hline : line ≠ [])
    (hlast : isBlank (line.getLast hline) = false) (hblanks : ∀ b ∈ blanks, isBlank b = true) :
    (line ++ blanks).rdropWhile isBlank = line := by
  have hself : line.rdropWhile isBlank = line :=
    List.rdropWhile_eq_self_iff.mpr fun _ => by simpa using hlast
  rw [List.rdropWhile, List.reverse_append, List.dropWhile_append_of_pos (by simpa using hblanks)]
  exact hself

/-- The last line is where nothing but blanks and newlines follow. -/
theorem lastLine_append (hbefore : before = [] ∨ ∃ p, before = p ++ [10]) (hline : line ≠ [])
    (hnewline : 10 ∉ line) (hlast : isBlank (line.getLast hline) = false)
    (hafter : ∀ b ∈ after, isBlankOrNewline b = true) :
    lastLine (before ++ (line ++ after)) = some line := by
  obtain ⟨blanks, rest, hsplit, hblanks, hrest⟩ := splitOn_line hnewline hafter
  have htext : hasText (line ++ blanks) = true :=
    List.any_eq_true.mpr ⟨_, List.mem_append_left _ (List.getLast_mem hline), by simp [hlast]⟩
  have hfilter : ((line ++ after).splitOn 10).filter hasText = [line ++ blanks] := by
    rw [hsplit, List.filter_cons_of_pos htext, hrest]
  have hdrop := rdropWhile_blanks hline hlast hblanks
  obtain rfl | ⟨p, rfl⟩ := hbefore
  · rw [lastLine, List.nil_append, hfilter]
    exact congrArg some hdrop
  · rw [lastLine, List.append_assoc, List.singleton_append, List.splitOn_append_cons_self,
      List.filter_append, hfilter, List.getLast?_append]
    exact congrArg some hdrop

end Lines

section Details

variable {err line : Bytes}

/-- The line `failureDetail` starts from. -/
def detailLine (err : Bytes) : Bytes := (trimmed err).rtakeWhile (· != 10)

theorem failureDetail_eq (err : Bytes) :
    failureDetail err = if (detailLine err).length > 160 then (detailLine err).take 157 ++ text "..."
      else detailLine err := rfl

/-- `find_last_not_of` finds something in a text that is not blank. -/
theorem trimmed_ne_nil (h : ∃ b ∈ err, isBlankOrNewline b = false) : trimmed err ≠ [] := by
  have htrimmed : trimmed err = err.rdropWhile isBlankOrNewline := rfl
  rw [htrimmed, Ne, List.rdropWhile_eq_nil_iff]
  intro hall
  obtain ⟨b, hb, hsome⟩ := h
  rw [hall b hb] at hsome
  cases hsome

/-- What it finds is neither blank nor a newline. -/
theorem trimmed_getLast (hne : trimmed err ≠ []) :
    isBlank ((trimmed err).getLast hne) = false ∧ (trimmed err).getLast hne ≠ 10 := by
  have hlast : ¬ isBlankOrNewline ((trimmed err).getLast hne) = true :=
    List.rdropWhile_last_not isBlankOrNewline err hne
  simpa [isBlankOrNewline] using hlast

/-- The line before it begins the text or follows a newline. -/
theorem before_detailLine (s : Bytes) :
    s.rdropWhile (· != 10) = [] ∨ ∃ p, s.rdropWhile (· != 10) = p ++ [10] := by
  by_cases hbefore : s.rdropWhile (· != 10) = []
  · exact .inl hbefore
  · have hten := List.rdropWhile_last_not _ s hbefore
    rw [Bool.not_eq_true, bne_eq_false_iff_eq] at hten
    have hsplit := List.dropLast_concat_getLast hbefore
    rw [hten] at hsplit
    exact .inr ⟨_, hsplit.symm⟩

/-- The line ends as the trimmed text does. -/
theorem detailLine_getLast (hne : trimmed err ≠ []) :
    ∃ hline : detailLine err ≠ [], isBlank ((detailLine err).getLast hline) = false := by
  obtain ⟨hblank, hten⟩ := trimmed_getLast hne
  have hline : detailLine err ≠ [] := by
    rw [detailLine, Ne, List.rtakeWhile_eq_nil_iff]
    exact fun hall => hall hne (by simpa using hten)
  have hsuffix : detailLine err <:+ trimmed err := List.rtakeWhile_suffix _ _
  exact ⟨hline, hsuffix.getLast hline ▸ hblank⟩

/-- The standard error around its last line. -/
theorem exists_around (h : ∃ b ∈ err, isBlankOrNewline b = false) :
    ∃ before after, err = before ++ (detailLine err ++ after) ∧
      (before = [] ∨ ∃ p, before = p ++ [10]) ∧
      (∃ hline : detailLine err ≠ [], isBlank ((detailLine err).getLast hline) = false) ∧
      ∀ b ∈ after, isBlankOrNewline b = true := by
  have hsplit : (trimmed err).rdropWhile (· != 10) ++ detailLine err = trimmed err :=
    List.rdropWhile_append_rtakeWhile
  have hwhole : trimmed err ++ err.rtakeWhile isBlankOrNewline = err :=
    List.rdropWhile_append_rtakeWhile
  refine ⟨(trimmed err).rdropWhile (· != 10), err.rtakeWhile isBlankOrNewline, ?_,
    before_detailLine _, detailLine_getLast (trimmed_ne_nil h),
    fun b hb => List.mem_rtakeWhile_imp hb⟩
  rw [← List.append_assoc, hsplit, hwhole]

theorem not_mem_detailLine : 10 ∉ detailLine err := by
  intro h
  simpa using List.mem_rtakeWhile_imp h

/-- `failureDetail` starts from the last line. -/
theorem lastLine_eq (h : ∃ b ∈ err, isBlankOrNewline b = false) :
    lastLine err = some (detailLine err) := by
  obtain ⟨before, after, herr, hbefore, ⟨hline, hlast⟩, hafter⟩ := exists_around h
  calc lastLine err
      = lastLine (before ++ (detailLine err ++ after)) := congrArg lastLine herr
    _ = some (detailLine err) := lastLine_append hbefore hline not_mem_detailLine hlast hafter

/-- Blanks and newlines alone have no last line and no detail. -/
theorem failureDetail_of_blank (h : ∀ b ∈ err, isBlankOrNewline b = true) :
    lastLine err = none ∧ failureDetail err = [] := by
  have htrimmed : trimmed err = [] := List.rdropWhile_eq_nil_iff.mpr h
  have hline : detailLine err = [] := by
    rw [detailLine, htrimmed, List.rtakeWhile_nil]
  rw [lastLine, filter_hasText_of_blank h, failureDetail_eq, hline]
  exact ⟨rfl, rfl⟩

/-- The last line of well-formed text is well formed. -/
theorem valid_detailLine (h : ∃ b ∈ err, isBlankOrNewline b = false) (hvalid : Utf8.Valid err) :
    Utf8.Valid (detailLine err) := by
  obtain ⟨before, after, herr, hbefore, -, hafter⟩ := exists_around h
  have hrest : Utf8.Valid (detailLine err ++ after) := by
    rw [herr] at hvalid
    obtain rfl | ⟨p, rfl⟩ := hbefore
    · exact hvalid
    · rw [List.append_assoc] at hvalid
      exact ((Utf8.valid_append_cons_ascii (by decide)).mp hvalid).2
  cases after with
  | nil => rwa [List.append_nil] at hrest
  | cons b after =>
      have hb := hafter b List.mem_cons_self
      have hascii : b.toNat < 0x80 := by
        simp only [isBlankOrNewline, isBlank, Bool.or_eq_true, beq_iff_eq] at hb
        obtain ((rfl | rfl) | rfl) | rfl := hb <;> decide
      exact ((Utf8.valid_append_cons_ascii hascii).mp hrest).1

/-- A long line is cut between characters exactly if no continuation byte follows. -/
theorem valid_take_iff (hvalid : Utf8.Valid line) (hlong : 160 < line.length) :
    Utf8.Valid (line.take 157 ++ text "...") ↔
      ∀ b ∈ (line.drop 157).head?, ¬ Utf8.IsTail b := by
  have hdots : text "..." = 46 :: [46, 46] := rfl
  have hdrop : line.drop 157 ≠ [] := by
    rw [Ne, List.drop_eq_nil_iff]
    omega
  obtain ⟨b, rest, hrest⟩ := List.exists_cons_of_ne_nil hdrop
  have hcut : line = line.take 157 ++ b :: rest := by
    rw [← hrest, List.take_append_drop]
  rw [hrest, List.head?_cons]
  simp only [Option.mem_some, forall_eq']
  rw [hdots, Utf8.valid_append_cons_ascii (by decide), and_iff_left (by decide)]
  exact Utf8.valid_cut_iff (hcut ▸ hvalid)

/-- Everything about the detail but its encoding holds of every output. -/
theorem failureDetail_excerpt (hvalid : Utf8.Valid (failureDetail err)) :
    Excerpt err (failureDetail err) := by
  have hdots : (text "...").length = 3 := rfl
  have hnewline : 10 ∉ text "..." := by decide
  refine ⟨fun hblank => (failureDetail_of_blank hblank).2,
    fun h => ⟨_, lastLine_eq h, ?_⟩, ?_, ?_, hvalid⟩
  · rw [failureDetail_eq]
    split_ifs with hlong
    · exact .inr ⟨hlong, _, List.take_prefix 157 _, List.length_take_le _ _, rfl⟩
    · exact .inl ⟨not_lt.mp hlong, rfl⟩
  · rw [failureDetail_eq]
    split_ifs with hlong
    · rw [List.mem_append]
      exact fun h => h.elim (fun hmem => not_mem_detailLine (List.mem_of_mem_take hmem)) hnewline
    · exact not_mem_detailLine
  · rw [failureDetail_eq]
    split_ifs with hlong
    · rw [List.length_append, List.length_take, hdots]
      omega
    · exact not_lt.mp hlong

/-- The detail is a well-formed excerpt exactly if the cut, where there is one,
falls between two characters. -/
theorem failureDetail_excerpt_iff (hvalid : Utf8.Valid err) :
    Excerpt err (failureDetail err) ↔
      ∀ line ∈ lastLine err, 160 < line.length →
        ∀ b ∈ (line.drop 157).head?, ¬ Utf8.IsTail b := by
  have hencoding : Excerpt err (failureDetail err) ↔ Utf8.Valid (failureDetail err) :=
    ⟨Excerpt.valid, failureDetail_excerpt⟩
  rw [hencoding]
  by_cases h : ∃ b ∈ err, isBlankOrNewline b = false
  · have hline := valid_detailLine h hvalid
    simp only [lastLine_eq h, Option.mem_some, forall_eq', failureDetail_eq]
    split_ifs with hlong
    · rw [imp_iff_right hlong, valid_take_iff hline hlong]
    · exact iff_of_true hline fun hlong' => absurd hlong' hlong
  · have hblank : ∀ b ∈ err, isBlankOrNewline b = true := by simpa using h
    obtain ⟨hnone, hempty⟩ := failureDetail_of_blank hblank
    rw [hnone, hempty]
    exact iff_of_true Utf8.valid_nil fun line hline => absurd hline (Option.not_mem_none line)

/-- A short line is shown whole. -/
theorem failureDetail_excerpt_short :
    Excerpt (text "usage: backup\nno such file\n") (failureDetail (text "usage: backup\nno such file\n")) :=
  (failureDetail_excerpt_iff (by decide)).mpr (by decide)

/-- A line whose character at the 157th byte is three bytes long is cut inside
that character. -/
theorem failureDetail_cut :
    Utf8.Valid (List.replicate 156 97 ++ text "€ aaaa") ∧
      ¬ Excerpt (List.replicate 156 97 ++ text "€ aaaa")
        (failureDetail (List.replicate 156 97 ++ text "€ aaaa")) :=
  ⟨by decide +kernel, fun h => absurd h.valid (by decide +kernel)⟩

end Details

end AgentPulse.Worker
