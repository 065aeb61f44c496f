import AgentPulse.Db
import AgentPulse.Lib.QuotedLexer

/-!
# Notifications

`send_notification` of `notifier.cpp`: the AppleScript text it builds and the
arguments it spawns `osascript` with. Titles and messages carry job names and
lines of command output; the script shows them as they are and nothing in them
becomes a part of the command.
-/

namespace AgentPulse.Notifier

open QuotedLexer

/-- The body of the loop of `escape_applescript`. -/
def escapeByte (c : UInt8) : Bytes :=
  if c = 10 then text "\\n"
  else if c = 92 ∨ c = 34 then [92, c]
  else [c]

/-- `escape_applescript`. -/
def escapeApplescript (s : Bytes) : Bytes := s.flatMap escapeByte

/-- The script `send_notification` builds. -/
def script (title message : Bytes) : Bytes :=
  text "display notification \"" ++ escapeApplescript message ++ text "\" with title \"" ++
    escapeApplescript title ++ text "\""

/-- The arguments of `posix_spawn`: the script is passed as a C string. -/
def arguments (title message : Bytes) : List Bytes :=
  [text "osascript", text "-e", cString (script title message)]

/-- AppleScript, as far as words and string literals go: a blank separates, a
double quote begins and ends a literal, and a backslash escapes a backslash, a
double quote and the `n` of a newline. -/
def appleScript : Rules UInt8 where
  blank := fun c => c == 32
  quote := 34
  escape := 92
  decode := fun c => if c = 92 then some 92 else if c = 34 then some 34
    else if c = 110 then some 10 else none
  quote_ne_escape := by decide
  quote_not_blank := by decide

/-- The notification with a title and a message, as tokens. -/
def notification (title message : Bytes) : List (Token UInt8) :=
  [.word (text "display"), .word (text "notification"), .literal message,
    .word (text "with"), .word (text "title"), .literal title]

theorem escapes_escapeByte : Escapes appleScript escapeByte := by
  intro c
  by_cases hnewline : c = 10
  · exact .inr ⟨110, by rw [escapeByte, if_pos hnewline]; rfl, by rw [hnewline]; rfl⟩
  · by_cases hspecial : c = 92 ∨ c = 34
    · refine .inr ⟨c, by rw [escapeByte, if_neg hnewline, if_pos hspecial]; rfl, ?_⟩
      obtain rfl | rfl := hspecial
      · rfl
      · rfl
    · rw [not_or] at hspecial
      exact .inl ⟨by rw [escapeByte, if_neg hnewline, if_neg (not_or.mpr hspecial)],
        hspecial.2, hspecial.1⟩

section Scripts

variable {rest : Bytes}

/-- The words before the message. -/
theorem lexFrom_display :
    lexFrom appleScript .between (text "display notification " ++ rest) =
      (lexFrom appleScript .between rest).map
        ([.word (text "display"), .word (text "notification")] ++ ·) := by
  have hdisplay := lexFrom_word_blank (r := appleScript) (w := text "display") (c := 32)
    (by decide) (by decide +kernel) rfl (text "notification" ++ 32 :: rest)
  have hnotification := lexFrom_word_blank (r := appleScript) (w := text "notification") (c := 32)
    (by decide) (by decide +kernel) rfl rest
  rw [hnotification, Option.map_map] at hdisplay
  exact hdisplay

/-- The words between the message and the title. -/
theorem lexFrom_withTitle :
    lexFrom appleScript .between (text " with title " ++ rest) =
      (lexFrom appleScript .between rest).map
        ([.word (text "with"), .word (text "title")] ++ ·) := by
  have hwith := lexFrom_word_blank (r := appleScript) (w := text "with") (c := 32)
    (by decide) (by decide +kernel) rfl (text "title" ++ 32 :: rest)
  have htitle := lexFrom_word_blank (r := appleScript) (w := text "title") (c := 32)
    (by decide) (by decide +kernel) rfl rest
  rw [htitle, Option.map_map] at hwith
  exact (lexFrom_blank rfl _).trans hwith

/-- A literal and what follows it. -/
theorem lexFrom_literal (s rest : Bytes) :
    lexFrom appleScript .between (34 :: s.flatMap escapeByte ++ 34 :: rest) =
      (lexFrom appleScript .between rest).map (.literal s :: ·) :=
  escapes_escapeByte.lexFrom_quoted s rest

/-- A literal that does not end. -/
theorem lexFrom_open (s : Bytes) : lexFrom appleScript .between (34 :: s.flatMap escapeByte) = none :=
  escapes_escapeByte.lexFrom_unterminated s

/-- The script as words and literals. -/
theorem script_eq (title message : Bytes) :
    script title message = text "display notification " ++
      (34 :: message.flatMap escapeByte ++ 34 :: (text " with title " ++
        (34 :: title.flatMap escapeByte ++ 34 :: []))) := by
  have hopen : text "display notification \"" = text "display notification " ++ [34] := rfl
  have hmiddle : text "\" with title \"" = 34 :: (text " with title " ++ [34]) := rfl
  have hclose : text "\"" = [34] := rfl
  simp [script, escapeApplescript, hopen, hmiddle, hclose]

/-- The script is the notification with these texts and nothing else. -/
theorem script_lexes (title message : Bytes) :
    lex appleScript (script title message) = some (notification title message) := by
  rw [lex, script_eq, lexFrom_display, lexFrom_literal, lexFrom_withTitle, lexFrom_literal]
  rfl

end Scripts

section Arguments

variable {s rest : Bytes}

theorem zero_mem_escape : 0 ∈ s.flatMap escapeByte ↔ 0 ∈ s := by
  rw [List.mem_flatMap]
  constructor
  · rintro ⟨c, hc, hzero⟩
    by_cases hnewline : c = 10
    · rw [hnewline] at hzero
      exact absurd hzero (by decide)
    · rw [escapeByte, if_neg hnewline] at hzero
      split_ifs at hzero with hspecial
      · simp only [List.mem_cons, List.not_mem_nil, or_false] at hzero
        exact hzero.elim (fun h => absurd h (by decide)) (· ▸ hc)
      · exact List.mem_singleton.mp hzero ▸ hc
  · exact fun h => ⟨0, h, List.mem_singleton.mpr rfl⟩

/-- The first NUL byte of an escaped text ends the C string there, between two
escaped bytes. -/
theorem cString_escape (h : 0 ∈ s) :
    cString (s.flatMap escapeByte ++ rest) = (cString s).flatMap escapeByte := by
  induction s with
  | nil => cases h
  | cons c s ih =>
      by_cases hc : c = 0
      · rw [hc]
        rfl
      · have hplain : 0 ∉ [c].flatMap escapeByte := fun hmem =>
          hc (List.mem_singleton.mp (zero_mem_escape.mp hmem)).symm
        rw [List.flatMap_singleton] at hplain
        have hcut : cString (c :: s) = c :: cString s :=
          List.takeWhile_cons_of_pos (by simpa using hc)
        rw [List.flatMap_cons, List.append_assoc, cString_append hplain,
          ih (List.mem_of_ne_of_mem (Ne.symm hc) h), hcut, List.flatMap_cons]

/-- `osascript` receives the notification, or a text with an open literal, which
is no script at all. -/
theorem argument_lexes (title message : Bytes) :
    ∃ argument, arguments title message = [text "osascript", text "-e", argument] ∧
      lex appleScript argument =
        if 0 ∈ message ∨ 0 ∈ title then none else some (notification title message) := by
  refine ⟨_, rfl, ?_⟩
  have hopen : 0 ∉ text "display notification \"" := by decide
  have hmiddle : 0 ∉ text "\" with title \"" := by decide
  have hclose : 0 ∉ text "\"" := by decide
  by_cases hmessage : 0 ∈ message
  · have hcut : cString (script title message) = text "display notification " ++
        (34 :: (cString message).flatMap escapeByte) := by
      rw [script, List.append_assoc, List.append_assoc, List.append_assoc, cString_append hopen,
        escapeApplescript, cString_escape hmessage]
      rfl
    rw [if_pos (.inl hmessage), lex, hcut, lexFrom_display, lexFrom_open]
    rfl
  · have hplain : 0 ∉ message.flatMap escapeByte := zero_mem_escape.not.mpr hmessage
    by_cases htitle : 0 ∈ title
    · have hcut : cString (script title message) = text "display notification " ++
          (34 :: message.flatMap escapeByte ++ 34 :: (text " with title " ++
            (34 :: (cString title).flatMap escapeByte))) := by
        rw [script, List.append_assoc, List.append_assoc, List.append_assoc, cString_append hopen,
          escapeApplescript, cString_append hplain, cString_append hmiddle, escapeApplescript,
          cString_escape htitle]
        simp [text, String.utf8EncodeChar]
      rw [if_pos (.inr htitle), lex, hcut, lexFrom_display, lexFrom_literal, lexFrom_withTitle,
        lexFrom_open]
      rfl
    · have hplainTitle : 0 ∉ title.flatMap escapeByte := zero_mem_escape.not.mpr htitle
      have hwhole : cString (script title message) = script title message := by
        apply cString_eq_self
        simp only [script, escapeApplescript, List.mem_append, not_or]
        exact ⟨⟨⟨⟨hopen, hplain⟩, hmiddle⟩, hplainTitle⟩, hclose⟩
      rw [hwhole, script_lexes, if_neg (not_or.mpr ⟨hmessage, htitle⟩)]

end Arguments

end AgentPulse.Notifier
