import AgentPulse.App.Models
import AgentPulse.Ipc.Answers
import Mathlib.Data.List.ReduceOption

/-!
# What the app shows after its polls

`StatusStore.refresh` asks for the status and applies what it can decode. A poll
that fails, an answer the daemon cannot write and an answer the app cannot read
all end in `applyError`, which keeps the old status. So the app shows the last
status that is well-formed and finite, and one number that is not finite keeps
every poll from being applied as long as the daemon publishes it.

## Implementation notes

The polls are in the order in which the app applies them. The daemon is seen
through the `Api` of each poll. Neither the text of the error nor the
notifications are part of the store here.
-/

namespace AgentPulse.StatusStore

open Models

variable {V : Type}

/-- The published members of `StatusStore` a poll changes. -/
structure Store (V : Type) where
  status : Option (StatusResponse V) := none
  connected : Bool := false

/-- `refresh`, from the line `SocketClient.send` returns; none is an error. -/
def refresh (decoder : JsonDecoder V) (store : Store V) (answer : Option Bytes) : Store V :=
  match answer.bind (decodeStatus decoder) with
  | some status => { store with status := some status, connected := true }
  | none => { store with connected := false }

/-- The answer to a poll; none is a daemon that is not there or does not answer. -/
def pollAnswer (lib : JsonLibrary V) (poll : Option (Api V)) : Option Bytes :=
  poll.bind fun api => (api.handle lib (text "status")).toOption

/-- The app after some polls. -/
def storeAfter (lib : JsonLibrary V) (decoder : JsonDecoder V) (polls : List (Option (Api V))) :
    Store V :=
  (polls.map (pollAnswer lib)).foldl (refresh decoder) {}

/-- The strings of the status are well-formed, and the numbers the app needs are finite. -/
def readable (finite : V → Bool) (api : Api V) : Bool :=
  decide (∀ s ∈ api.system.quotes ++ api.jobs.flatMap JobStatus.quotes ++
    api.alerts.flatMap AlertInfo.quotes, Utf8.Valid s) && finiteStatus finite api

section Polls

variable {lib : JsonLibrary V} {decoder : JsonDecoder V} {finite : V → Bool}

theorem handle_status (hparse : lib.parse (text "status") = none) (api : Api V) :
    api.handle lib (text "status") = lib.dump api.statusResponse := by
  have hwords : words (text "status") = [text "status"] := by decide
  have hping : text "status" ≠ text "ping" := by decide
  have hcmd : (parseRequest lib (text "status")).cmd = text "status" := by
    unfold parseRequest parseRequest.bare
    simp [hparse, hwords]
  rw [Api.handle, Api.respond]
  simp [hcmd, hping]

/-- A poll brings the published status exactly if it is readable. -/
theorem pollAnswer_decoded (hparse : lib.parse (text "status") = none)
    (hlib : lib.Documented) (hread : ReadsDump decoder.read lib finite) {api : Api V}
    (hlong : LongFields api) :
    (pollAnswer lib (some api)).bind (decodeStatus decoder) =
      if readable finite api then some (StatusResponse.of finite api) else none := by
  have hdumps := hlib.dumps api.statusResponse
  rw [Api.statusResponse_clean] at hdumps
  rw [pollAnswer, Option.bind_some, handle_status hparse, readable]
  by_cases hclean : ∀ s ∈ api.system.quotes ++ api.jobs.flatMap JobStatus.quotes ++
      api.alerts.flatMap AlertInfo.quotes, Utf8.Valid s
  · obtain ⟨out, hout, -⟩ := hdumps.1 hclean
    have hdecode : decodeStatus decoder out =
        if finiteStatus finite api then some (StatusResponse.of finite api) else none := by
      rw [decodeStatus, hread _ out hout, Option.bind_some, decodeStatusResponse_sent hlong]
    rw [hout, decide_eq_true hclean, Bool.true_and]
    exact hdecode
  · rw [hdumps.2 hclean, decide_eq_false hclean]
    rfl

theorem storeAfter_snoc (polls : List (Option (Api V))) (poll : Option (Api V)) :
    storeAfter lib decoder (polls ++ [poll]) =
      refresh decoder (storeAfter lib decoder polls) (pollAnswer lib poll) := by
  rw [storeAfter, List.map_append, List.foldl_append]
  rfl

/-- The app shows the last readable status, and is connected exactly if the last
poll brought it. -/
theorem shown_after_polls (hparse : lib.parse (text "status") = none)
    (hlib : lib.Documented) (hread : ReadsDump decoder.read lib finite)
    (polls : List (Option (Api V))) (hlong : ∀ api, some api ∈ polls → LongFields api) :
    (storeAfter lib decoder polls).status =
        (polls.reduceOption.filter (readable finite)).getLast?.map (StatusResponse.of finite) ∧
      ((storeAfter lib decoder polls).connected = true ↔
        ∃ api, polls.getLast? = some (some api) ∧ readable finite api = true) := by
  induction polls using List.reverseRecOn with
  | nil => exact ⟨rfl, by simp [storeAfter]⟩
  | append_singleton polls poll ih =>
      obtain ⟨hstatus, -⟩ := ih fun api hmem => hlong api (List.mem_append_left _ hmem)
      rw [storeAfter_snoc, List.reduceOption_append, List.filter_append, List.getLast?_concat]
      cases poll with
      | none =>
          rw [refresh, pollAnswer, Option.bind_none, Option.bind_none]
          refine ⟨?_, by simp⟩
          rw [List.reduceOption_singleton, Option.toList_none, List.filter_nil, List.append_nil]
          exact hstatus
      | some api =>
          have hdecoded := pollAnswer_decoded hparse hlib hread (hlong api (by simp))
          rw [refresh, hdecoded, List.reduceOption_singleton, Option.toList_some]
          cases hreadable : readable finite api with
          | true =>
              rw [List.filter_cons_of_pos hreadable, List.filter_nil, List.getLast?_concat]
              exact ⟨rfl, by simp [hreadable]⟩
          | false =>
              rw [List.filter_cons_of_neg (by simp [hreadable]), List.filter_nil, List.append_nil]
              exact ⟨hstatus, by simp [hreadable]⟩

end Polls

section ConcreteNumbers

/-- Whole numbers as `double`s, and one that is not finite. -/
def wholeText : Option ℤ → Bytes
  | some i => intText i ++ text ".0"
  | none => text "null"

def wholeDouble (s : Bytes) : Option (Option ℤ) :=
  if s.drop (s.length - 2) = text ".0" then (Json.readInteger (s.take (s.length - 2))).map some
  else none

def wholeDecoder : JsonDecoder (Option ℤ) := ⟨Json.read wholeDouble, some, id⟩

def wholeLibrary : JsonLibrary (Option ℤ) :=
  ⟨Json.read wholeDouble, fun v => v.getD 0, Json.dump wholeText⟩

theorem readInteger_of_point {s : Bytes} (h : 46 ∈ s.tail) : Json.readInteger s = none := by
  have hpoint : ∀ t : Bytes, 46 ∈ t → ¬ Json.IsInteger t := by
    intro t hmem hinteger
    exact hinteger.1.not_mem (by decide) hmem
  rw [Json.readInteger, if_neg (hpoint _ h), if_neg (hpoint _ (List.mem_of_mem_tail h)), ite_self]

theorem wholeTexts : Json.NumberTexts wholeText wholeDouble Option.isSome := by
  refine ⟨?_, ?_⟩
  · intro v hv
    obtain ⟨i, rfl⟩ := Option.isSome_iff_exists.mp hv
    obtain ⟨hread, hne, hbytes⟩ := Json.readInteger_intText i
    have hpoint : text ".0" = [46, 48] := by decide
    obtain ⟨b, rest, hcons⟩ := List.exists_cons_of_ne_nil hne
    refine ⟨?_, ?_, ?_, ?_⟩
    · simp [wholeText, hne]
    · intro c hc
      rw [wholeText, hpoint, List.mem_append] at hc
      obtain hc | hc := hc
      · exact hbytes c hc
      · obtain rfl | rfl : c = 46 ∨ c = 48 := by simpa using hc
        · decide
        · decide
    · apply readInteger_of_point
      rw [wholeText, hpoint, hcons]
      simp
    · have hlength : (intText i ++ [46, 48]).length - 2 = (intText i).length := by simp
      rw [wholeText, wholeDouble, hpoint, hlength, List.drop_left, List.take_left, if_pos rfl,
        hread]
      rfl
  · intro v hv
    obtain rfl : v = none := by simpa using hv
    rfl

theorem wholeLibrary_documented : wholeLibrary.Documented :=
  ⟨Json.dump_dumps wholeTexts.newline_not_mem⟩

theorem wholeLibrary_readsDump : ReadsDump wholeDecoder.read wholeLibrary Option.isSome :=
  fun _ _ hout => Json.read_dump wholeTexts hout

/-- A daemon with these alerts and nothing else. -/
def alerting (alerts : List (AlertInfo (Option ℤ))) : Api (Option ℤ) where
  startedAt := 0
  now := 0
  cpu := { valid := true, percent := some 7, sampledAt := 0 }
  self := { rssBytes := 0, cpuPercent := none }
  system := {
    valid := false
    sampledAt := 0
    memTotalBytes := 0
    memUsedBytes := 0
    memUsedPercent := some 0
    diskTotalBytes := 0
    diskAvailableBytes := 0
    diskUsedPercent := some 0
    thermalState := []
    topProcesses := [] }
  jobs := []
  alerts := alerts
  db := none
  runHandler := none
  addJobHandler := none
  removeJobHandler := none

/-- An alert of a rule whose threshold is infinite. -/
def unboundedAlert : AlertInfo (Option ℤ) where
  ts := 0
  ruleName := text "r"
  severity := text "warning"
  metric := text "m"
  kind := .firing
  value := some 1
  threshold := none
  message := []
  attribution := []

theorem longFields_alerting {alerts : List (AlertInfo (Option ℤ))} (h : ∀ a ∈ alerts, a.ts = 0) :
    LongFields (alerting alerts) := by
  have hzero : IsLong 0 := ⟨by decide, by decide⟩
  refine ⟨hzero, hzero, hzero, fun s hs => (nomatch hs), fun a ha => ?_⟩
  rw [h a ha]
  exact hzero

end ConcreteNumbers

/-- An alert with an infinite threshold disconnects the app, which goes on
showing the status before it. -/
theorem shown_after_polls_unbounded :
    (storeAfter wholeLibrary wholeDecoder
        [some (alerting []), some (alerting [unboundedAlert])]).status =
      some (StatusResponse.of Option.isSome (alerting [])) ∧
    ¬ (storeAfter wholeLibrary wholeDecoder
        [some (alerting []), some (alerting [unboundedAlert])]).connected = true := by
  have hquiet : readable Option.isSome (alerting []) = true := by decide
  have hloud : readable Option.isSome (alerting [unboundedAlert]) = false := by decide
  have hlong : ∀ api, some api ∈ [some (alerting []), some (alerting [unboundedAlert])] →
      LongFields api := by
    intro api hmem
    simp only [List.mem_cons, Option.some.injEq, List.not_mem_nil, or_false] at hmem
    obtain rfl | rfl := hmem
    · exact longFields_alerting fun a ha => (nomatch ha)
    · exact longFields_alerting fun a ha => by rw [List.mem_singleton.mp ha]; rfl
  have hparse : wholeLibrary.parse (text "status") = none := by decide
  obtain ⟨hstatus, hconnected⟩ := shown_after_polls hparse wholeLibrary_documented
    wholeLibrary_readsDump
    [some (alerting []), some (alerting [unboundedAlert])] hlong
  refine ⟨?_, ?_⟩
  · rw [hstatus]
    simp [List.reduceOption, hquiet, hloud]
  · rw [hconnected]
    rintro ⟨api, hlast, hreadable⟩
    have heq : alerting [unboundedAlert] = api := by simpa using hlast
    rw [← heq, hloud] at hreadable
    cases hreadable

end AgentPulse.StatusStore
