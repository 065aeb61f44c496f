import AgentPulse.Ipc.Answers
import AgentPulse.Ipc.SocketServer

/-!
# The commands of the app

The request lines `StatusStore` builds to run and to remove a job, sent by
`SocketClient.send` and read by the daemon. The removal is a JSON object and
the run is two bare words, so that a name with white space cannot be run.

## Implementation notes

The serialisation of a dictionary of strings is a parameter, as the parser of
the daemon is. What is asked of them at a name is that the dictionary comes
back as an object, on one line, and that no JSON text begins with `run`.
-/

namespace AgentPulse.StatusStore

open SocketServer

/-- The request line of `run`. -/
def run (job : Bytes) : Bytes := text "run " ++ job

/-- The dictionary of `removeJob`. -/
def removeBody (name : Bytes) : List (Bytes × Bytes) :=
  [(text "cmd", text "remove_job"), (text "job", name)]

/-- The request line of `removeJob`. -/
def removeJob (serialize : List (Bytes × Bytes) → Bytes) (name : Bytes) : Bytes :=
  serialize (removeBody name)

/-- What `SocketClient.send` writes for a command. -/
def send (command : Bytes) : Bytes := command ++ [10]

variable {V : Type}

/-- The round trip of the dictionary, and a bare run is not a JSON text. -/
structure RoundTrips (lib : JsonLibrary V) (serialize : List (Bytes × Bytes) → Bytes)
    (name : Bytes) : Prop where
  remove : lib.parse (removeJob serialize name) =
    some (.object ((removeBody name).map fun field => (field.1, .str field.2)))
  line : 10 ∉ removeJob serialize name
  bare : ∀ rest, lib.parse (text "run " ++ rest) = none

/-- However the stream arrives, the daemon reads a request with this command and
this argument from it. -/
def Understood (lib : JsonLibrary V) (stream : Bytes) (cmd : String) (arg : Bytes) : Prop :=
  ∀ reads, Delivers stream reads → ∃ line, readRequest [] reads = some line ∧
    (parseRequest lib line).cmd = text cmd ∧ (parseRequest lib line).arg = arg

section Words

variable {s w : Bytes}

theorem not_space_of_mem_splitOnP (h : w ∈ s.splitOnP isSpace) : ∀ b ∈ w, isSpace b = false := by
  induction s generalizing w with
  | nil =>
      rw [List.splitOnP_nil, List.mem_singleton] at h
      simp [h]
  | cons c s ih =>
      rw [List.splitOnP_cons_eq_if_modifyHead] at h
      split_ifs at h with hspace
      · obtain rfl | h := List.mem_cons.mp h
        · simp
        · exact ih h
      · obtain ⟨first, rest, hsplit⟩ := List.exists_cons_of_ne_nil (List.splitOnP_ne_nil isSpace s)
        rw [hsplit, List.modifyHead_cons, List.mem_cons] at h
        rw [hsplit] at ih
        obtain rfl | h := h
        · intro b hb
          obtain rfl | hb := List.mem_cons.mp hb
          · simpa using hspace
          · exact ih List.mem_cons_self b hb
        · exact ih (List.mem_cons_of_mem _ h)

/-- A word has no white space. -/
theorem not_space_of_mem_words (h : w ∈ words s) : ∀ b ∈ w, isSpace b = false :=
  not_space_of_mem_splitOnP (List.mem_of_mem_filter h)

/-- The line of `run` has two words if the name is one. -/
theorem words_run {name : Bytes} (hname : name ≠ []) (hspace : ∀ b ∈ name, isSpace b = false) :
    words (run name) = [text "run", name] := by
  have hrun : run name = text "run" ++ 32 :: name := rfl
  have hword : ∀ b ∈ text "run", isSpace b = false := by decide +kernel
  rw [words, hrun, List.splitOnP_append_cons_of_forall_mem hword 32 (by decide),
    List.splitOnP_eq_singleton hspace]
  have hne : text "run" ≠ [] := by decide
  simp [hne, hname]

end Words

section Requests

variable {lib : JsonLibrary V} {serialize : List (Bytes × Bytes) → Bytes} {name line : Bytes}

theorem parseRequest_run (hname : name ≠ []) (hspace : ∀ b ∈ name, isSpace b = false)
    (hbare : ∀ rest, lib.parse (text "run " ++ rest) = none) :
    (parseRequest lib (run name)).cmd = text "run" ∧ (parseRequest lib (run name)).arg = name := by
  have hwords := words_run hname hspace
  have hparse : lib.parse (run name) = none := hbare name
  unfold parseRequest parseRequest.bare
  simp [hparse, hwords]

/-- The argument of a bare request has no white space. -/
theorem not_space_of_bare (hparse : lib.parse line = none) :
    ∀ b ∈ (parseRequest lib line).arg, isSpace b = false := by
  unfold parseRequest parseRequest.bare
  simp only [hparse]
  cases hword : (words line)[1]? with
  | none => simp
  | some w => exact not_space_of_mem_words (List.mem_of_getElem? hword)

theorem parseRequest_removeJob (h : RoundTrips lib serialize name) :
    (parseRequest lib (removeJob serialize name)).cmd = text "remove_job" ∧
      (parseRequest lib (removeJob serialize name)).arg = name := by
  have hkeys : [text "cmd", text "job"].Nodup := by decide
  have hget : ∀ key, (Json.object ((removeBody name).map fun field =>
      (field.1, Json.str field.2)) : Json V).get? key =
      (((removeBody name).map fun field => (field.1, Json.str field.2)).find?
        fun field => field.1 = key).map Prod.snd := Json.get?_object (by exact hkeys)
  have hcmd : text "cmd" ≠ text "job" := by decide
  have hmetric : text "cmd" ≠ text "metric" ∧ text "job" ≠ text "metric" := by decide
  unfold parseRequest
  simp only [h.remove, hget]
  simp [removeBody, Json.asString, hcmd, hmetric]

/-- The app's run request names the job exactly if the name is a single word and
the line is below the limit. -/
theorem run_understood_iff (hname : name ≠ [])
    (hbare : ∀ rest, lib.parse (text "run " ++ rest) = none) :
    Understood lib (send (run name)) "run" name ↔
      (∀ b ∈ name, isSpace b = false) ∧ (run name).length < maxRequestBytes := by
  have hnewline : (∀ b ∈ name, isSpace b = false) → 10 ∉ run name := by
    intro hspace hmem
    obtain hmem | hmem := List.mem_append.mp hmem
    · revert hmem
      decide
    · have := hspace 10 hmem
      revert this
      decide
  constructor
  · intro h
    have hspace : ∀ b ∈ name, isSpace b = false := by
      obtain ⟨line, hread, -, harg⟩ := h _ (delivers_bytes _)
      obtain ⟨-, hline⟩ := line_of_readRequest (delivers_bytes _) hread
      have hstart : line = text "run " ++ (name ++ [10]).takeWhile (· != 10) := by
        rw [hline]
        rfl
      rw [← harg]
      exact not_space_of_bare (hstart ▸ hbare _)
    refine ⟨hspace, (forall_readRequest_iff (hnewline hspace) []).mp ?_⟩
    intro reads hreads
    obtain ⟨line, hread, -⟩ := h reads hreads
    obtain ⟨-, hline⟩ := line_of_readRequest hreads hread
    rw [List.nil_append, takeWhile_line (hnewline hspace)] at hline
    rw [hread, hline]
  · rintro ⟨hspace, hlt⟩ reads hreads
    exact ⟨run name, (forall_readRequest_iff (hnewline hspace) []).mpr hlt reads hreads,
      parseRequest_run hname hspace hbare⟩

/-- The app's removal names the job exactly if the line is below the limit. -/
theorem removeJob_understood_iff (h : RoundTrips lib serialize name) :
    Understood lib (send (removeJob serialize name)) "remove_job" name ↔
      (removeJob serialize name).length < maxRequestBytes := by
  rw [← forall_readRequest_iff h.line []]
  constructor
  · intro hunderstood reads hreads
    obtain ⟨line, hread, -⟩ := hunderstood reads hreads
    obtain ⟨-, hline⟩ := line_of_readRequest hreads hread
    rw [List.nil_append, takeWhile_line h.line] at hline
    rw [hread, hline]
  · intro hreads reads hdelivers
    exact ⟨_, hreads reads hdelivers, parseRequest_removeJob h⟩

end Requests

section Inputs

/-- A serialisation that escapes nothing. -/
def plainText (fields : List (Bytes × Bytes)) : Bytes :=
  123 :: [44].intercalate (fields.map fun field =>
    34 :: field.1 ++ [34, 58, 34] ++ field.2 ++ [34]) ++ [125]

/-- A JSON library that knows the removal of one job. -/
def removalLibrary (name : Bytes) : JsonLibrary ℤ where
  parse line :=
    if line = removeJob plainText name then
      some (.object ((removeBody name).map fun field => (field.1, .str field.2)))
    else none
  toInteger := id
  dump := Json.dump intText

theorem roundTrips_plainText {name : Bytes} (hname : 10 ∉ name) :
    RoundTrips (removalLibrary name) plainText name where
  remove := if_pos rfl
  line := by
    have htext : ∀ key ∈ [text "cmd", text "remove_job", text "job"], (10 : UInt8) ∉ key := by
      decide
    simp only [removeJob, plainText, removeBody, List.map_cons, List.map_nil,
      List.intercalate_cons_cons, List.intercalate_singleton]
    simp [hname, htext]
  bare := by
    intro rest
    have hne : text "run " ++ rest ≠ removeJob plainText name := by
      intro heq
      exact absurd (List.cons.inj heq).1 (by decide)
    simp only [removalLibrary, if_neg hne]

end Inputs

/-- Client and daemon agree on a job name exactly if it has no white space and
both lines are below the limit. -/
theorem names_agree_iff (lib : JsonLibrary V) (serialize : List (Bytes × Bytes) → Bytes)
    (name : Bytes) (hname : name ≠ []) (h : RoundTrips lib serialize name) :
    (Understood lib (send (run name)) "run" name ∧
      Understood lib (send (removeJob serialize name)) "remove_job" name) ↔
    (∀ b ∈ name, isSpace b = false) ∧ (run name).length < maxRequestBytes ∧
      (removeJob serialize name).length < maxRequestBytes := by
  rw [run_understood_iff hname h.bare, removeJob_understood_iff h, and_assoc]

theorem names_agree_iff_backup :
    Understood (removalLibrary (text "backup")) (send (run (text "backup"))) "run"
        (text "backup") ∧
      Understood (removalLibrary (text "backup")) (send (removeJob plainText (text "backup")))
        "remove_job" (text "backup") := by
  have hroundTrips : RoundTrips (removalLibrary (text "backup")) plainText (text "backup") :=
    roundTrips_plainText (by decide)
  exact (names_agree_iff _ plainText _ (by decide) hroundTrips).mpr
    ⟨by decide +kernel, by decide, by decide⟩

/-- A run of a job whose name has a blank names another job. -/
theorem spaced_name_cut :
    RoundTrips (removalLibrary (text "nightly backup")) plainText (text "nightly backup") ∧
      (parseRequest (removalLibrary (text "nightly backup"))
        (run (text "nightly backup"))).arg = text "nightly" ∧
      ¬ Understood (removalLibrary (text "nightly backup")) (send (run (text "nightly backup")))
        "run" (text "nightly backup") := by
  have hroundTrips : RoundTrips (removalLibrary (text "nightly backup")) plainText
      (text "nightly backup") := roundTrips_plainText (by decide)
  refine ⟨hroundTrips, by decide +kernel, ?_⟩
  rw [run_understood_iff (by decide) hroundTrips.bare]
  decide +kernel

end AgentPulse.StatusStore
