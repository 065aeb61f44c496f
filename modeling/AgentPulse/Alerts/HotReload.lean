import AgentPulse.Alerts.History
import AgentPulse.ConfigRoundTrip
import AgentPulse.Lib.Transition

/-!
# A changed configuration takes effect

`sampler_loop` of `main.cpp` against a file that changes and signals that arrive
between any two of its steps: the flag is read, then cleared, then the file is
read. After the last change of the file and the signal that announces it, the
loop ends up with the rules of that file and a fresh history for them, or, if
the file does not load, with the engine it had.

## Implementation notes

The steps of an iteration are those between which a signal makes a difference.
The signal sets a flag, so that two signals may be one reload.
-/

namespace AgentPulse.HotReload

open AlertEngine (create evaluate before emitted)
open Transition

/-- Where an iteration stands: before `if (g_reload)`, before `g_reload = 0`,
before `load_config`, and before `if (now >= next)`. -/
inductive Phase where
  | top
  | clearing
  | loading
  | sampling
  deriving DecidableEq, Repr

/-- The file, the flag `g_reload`, the loop with its engine, and the events so far. -/
structure State (V : Type) where
  file : Option Bytes
  reload : Bool
  phase : Phase
  engine : AlertEngine V
  events : List (AlertEvent V)

/-- Someone writes or removes the file, a `SIGHUP` arrives, or the loop takes its
next step, with a sample if one is due there. -/
inductive Label (V : Type) where
  | edit (file : Option Bytes)
  | sighup
  | advance (sample : Option (Sample V))

variable {V : Type}

/-- The samples that are evaluated. -/
def evaluated (s : State V) : Label V → List (Sample V)
  | .advance (some x) => if s.phase = .sampling then [x] else []
  | _ => []

/-- The steps until a signal has been dealt with. -/
def State.pending (s : State V) : ℕ :=
  match s.phase, s.reload with
  | .loading, true => 5
  | .sampling, true => 4
  | .top, true => 3
  | .clearing, _ => 2
  | .loading, false => 1
  | _, false => 0

section Pending

variable {s : State V}

theorem pending_signal : ({ s with reload := true } : State V).pending ≠ 0 ∧
    ({ s with reload := true } : State V).pending ≤ 5 := by
  obtain ⟨file, reload, phase, engine, events⟩ := s
  cases phase <;> simp [State.pending]

/-- The last step of a reload reads the file. -/
theorem loading_of_pending (h : s.pending = 1) : s.phase = .loading := by
  obtain ⟨file, reload, phase, engine, events⟩ := s
  cases phase <;> cases reload <;> simp_all [State.pending]

theorem not_loading_of_pending (h : s.pending = 0) : s.phase ≠ .loading := by
  obtain ⟨file, reload, phase, engine, events⟩ := s
  cases phase <;> cases reload <;> simp_all [State.pending]

/-- Before the reload only one step evaluates a sample. -/
theorem evaluated_of_pending {sample : Option (Sample V)} (h : s.pending ≠ 0) :
    s.pending = 4 ∨ evaluated s (.advance sample) = [] := by
  obtain ⟨file, reload, phase, engine, events⟩ := s
  cases phase <;> cases reload <;> cases sample <;> simp_all [State.pending, evaluated]

theorem length_evaluated {label : Label V} : (evaluated s label).length ≤ 1 := by
  cases label with
  | advance sample =>
      cases sample with
      | none => exact Nat.zero_le _
      | some x =>
          rw [evaluated]
          split_ifs <;> simp
  | _ => exact Nat.zero_le _

end Pending

variable [LinearOrder V] [Zero V] (lib : ConfigLibrary V) (fmt : V → Bytes) (loc : LocalTime)

/-- The next step of the loop. -/
def loopStep (s : State V) (sample : Option (Sample V)) : State V :=
  match s.phase with
  | .top => { s with phase := if s.reload then .clearing else .sampling }
  | .clearing => { s with phase := .loading, reload := false }
  | .loading =>
      match loadConfig lib s.file with
      | .ok config =>
          { s with phase := .sampling, engine := create config.rules config.quietHours }
      | .error _ => { s with phase := .sampling }
  | .sampling =>
      match sample with
      | none => { s with phase := .top }
      | some x =>
          { s with
            phase := .top
            engine := (evaluate fmt loc s.engine x).1
            events := s.events ++ (evaluate fmt loc s.engine x).2 }

/-- One step of the file, of a signal or of the loop. -/
def step (s : State V) : Label V → Option (State V)
  | .edit file => some { s with file := file }
  | .sighup => some { s with reload := true }
  | .advance sample => some (loopStep lib fmt loc s sample)

/-- A sequence of evaluations and what they emit. -/
def evaluateAll (e : AlertEngine V) : List (Sample V) → AlertEngine V × List (AlertEvent V)
  | [] => (e, [])
  | x :: rest =>
      ((evaluateAll (evaluate fmt loc e x).1 rest).1,
        (evaluate fmt loc e x).2 ++ (evaluateAll (evaluate fmt loc e x).1 rest).2)

section Evaluations

variable {lib fmt loc} {s : State V} {e : AlertEngine V}

theorem evaluateAll_append (xs ys : List (Sample V)) :
    evaluateAll fmt loc e (xs ++ ys) =
      ((evaluateAll fmt loc (evaluateAll fmt loc e xs).1 ys).1,
        (evaluateAll fmt loc e xs).2 ++
          (evaluateAll fmt loc (evaluateAll fmt loc e xs).1 ys).2) := by
  induction xs generalizing e with
  | nil => simp [evaluateAll]
  | cons x xs ih => simp [evaluateAll, ih]

theorem evaluateAll_snoc (samples : List (Sample V)) (x : Sample V) :
    evaluateAll fmt loc e (samples ++ [x]) =
      ((evaluate fmt loc (evaluateAll fmt loc e samples).1 x).1,
        (evaluateAll fmt loc e samples).2 ++
          (evaluate fmt loc (evaluateAll fmt loc e samples).1 x).2) := by
  rw [evaluateAll_append]
  simp [evaluateAll]

/-- From a new engine the evaluations are those of the history. -/
theorem evaluateAll_create {rules : List (Rule V)} {quietHours : QuietHours}
    {samples : List (Sample V)} {calls : ℕ → Sample V}
    (hcalls : ∀ (k : ℕ) (x : Sample V), samples[k]? = some x → calls k = x) :
    evaluateAll fmt loc (create rules quietHours) samples =
      (before fmt loc rules quietHours calls samples.length,
        (List.range samples.length).flatMap (emitted fmt loc rules quietHours calls)) := by
  induction samples using List.reverseRecOn with
  | nil => rfl
  | append_singleton samples x ih =>
      have hx : calls samples.length = x := hcalls _ _ (by simp)
      have hstart : ∀ (k : ℕ) (y : Sample V), samples[k]? = some y → calls k = y := by
        intro k y hy
        have hk : k < samples.length := (List.getElem?_eq_some_iff.mp hy).1
        exact hcalls k y (by rw [List.getElem?_append_left hk, hy])
      rw [evaluateAll_snoc, ih hstart, List.length_append, List.length_singleton,
        List.range_succ, List.flatMap_append, List.flatMap_singleton, ← hx]
      rfl

/-- A step of the loop brings the end of a reload nearer. -/
theorem pending_loopStep (sample : Option (Sample V)) :
    (loopStep lib fmt loc s sample).pending = s.pending - 1 := by
  obtain ⟨file, reload, phase, engine, events⟩ := s
  cases phase with
  | top => cases reload <;> rfl
  | clearing => rfl
  | loading =>
      cases hload : loadConfig lib file <;> cases reload <;> simp [loopStep, hload, State.pending]
  | sampling => cases sample <;> cases reload <;> rfl

theorem file_loopStep (sample : Option (Sample V)) :
    (loopStep lib fmt loc s sample).file = s.file := by
  obtain ⟨file, reload, phase, engine, events⟩ := s
  cases phase with
  | loading => cases hload : loadConfig lib file <;> simp [loopStep, hload]
  | sampling => cases sample <;> rfl
  | _ => rfl

/-- Outside a reload, the engine and the events change by the evaluations only. -/
theorem loopStep_evaluates {sample : Option (Sample V)}
    (h : s.phase ≠ .loading ∨ ∃ what, loadConfig lib s.file = .error what) :
    (loopStep lib fmt loc s sample).engine =
        (evaluateAll fmt loc s.engine (evaluated s (.advance sample))).1 ∧
      (loopStep lib fmt loc s sample).events =
        s.events ++ (evaluateAll fmt loc s.engine (evaluated s (.advance sample))).2 := by
  obtain ⟨file, reload, phase, engine, events⟩ := s
  cases phase with
  | loading =>
      obtain ⟨what, hload⟩ := h.resolve_left (not_not.mpr rfl)
      cases sample <;> simp [loopStep, hload, evaluated, evaluateAll]
  | sampling => cases sample <;> simp [loopStep, evaluated, evaluateAll]
  | top => cases sample <;> simp [loopStep, evaluated, evaluateAll]
  | clearing => cases sample <;> simp [loopStep, evaluated, evaluateAll]

/-- Evaluations that began with an engine go on from it. -/
theorem evaluateAll_loopStep {engine : AlertEngine V} {events : List (AlertEvent V)}
    {notes : List (Sample V)} {sample : Option (Sample V)}
    (h : s.phase ≠ .loading ∨ ∃ what, loadConfig lib s.file = .error what)
    (hengine : s.engine = (evaluateAll fmt loc engine notes).1)
    (hevents : s.events = events ++ (evaluateAll fmt loc engine notes).2) :
    (loopStep lib fmt loc s sample).engine =
        (evaluateAll fmt loc engine (notes ++ evaluated s (.advance sample))).1 ∧
      (loopStep lib fmt loc s sample).events =
        events ++ (evaluateAll fmt loc engine (notes ++ evaluated s (.advance sample))).2 := by
  obtain ⟨hnext, hmore⟩ :
      (loopStep lib fmt loc s sample).engine =
          (evaluateAll fmt loc s.engine (evaluated s (.advance sample))).1 ∧
        (loopStep lib fmt loc s sample).events =
          s.events ++ (evaluateAll fmt loc s.engine (evaluated s (.advance sample))).2 :=
    loopStep_evaluates h
  constructor
  · rw [hnext, hengine, evaluateAll_append]
  · rw [hmore, hevents, hengine, evaluateAll_append, List.append_assoc]

theorem engine_loopStep_loading {sample : Option (Sample V)} {config : Config V}
    (hphase : s.phase = .loading) (hload : loadConfig lib s.file = .ok config) :
    (loopStep lib fmt loc s sample).engine = create config.rules config.quietHours ∧
      (loopStep lib fmt loc s sample).events = s.events := by
  obtain ⟨file, reload, phase, engine, events⟩ := s
  obtain rfl : phase = .loading := hphase
  have hload : loadConfig lib file = .ok config := hload
  simp [loopStep, hload]

/-- Only an evaluation adds events. -/
theorem events_loopStep {sample : Option (Sample V)} :
    ∃ more, (loopStep lib fmt loc s sample).events = s.events ++ more ∧
      (evaluated s (.advance sample) = [] → more = []) := by
  by_cases hphase : s.phase = .loading
  · obtain ⟨file, reload, phase, engine, events⟩ := s
    obtain rfl : phase = .loading := hphase
    refine ⟨[], ?_, fun _ => rfl⟩
    cases hload : loadConfig lib file <;> simp [loopStep, hload]
  · refine ⟨_, (loopStep_evaluates (Or.inl hphase)).2, fun hnone => ?_⟩
    rw [hnone]
    rfl

end Evaluations

section TakesEffect

variable {lib fmt loc} {u s t : State V} {config : Config V} {notes : List (Sample V)}

/-- The reload is still to come. -/
def Waits (u s : State V) (notes : List (Sample V)) : Prop :=
  s.pending ≠ 0 ∧ (3 < s.pending → notes = []) ∧ notes.length ≤ 1 ∧
    ∃ earlier, s.events = u.events ++ earlier ∧ (notes = [] → earlier = [])

/-- The reload is done, and the engine knows what came after it. -/
def Follows (fmt : V → Bytes) (loc : LocalTime) (config : Config V) (u s : State V)
    (notes : List (Sample V)) : Prop :=
  s.pending = 0 ∧ ∃ old new earlier, notes = old ++ new ∧ old.length ≤ 1 ∧
    (old = [] → earlier = []) ∧
    s.engine = (evaluateAll fmt loc (create config.rules config.quietHours) new).1 ∧
    s.events = u.events ++ earlier ++
      (evaluateAll fmt loc (create config.rules config.quietHours) new).2

theorem Waits.advance (h : Waits u s notes) (hload : loadConfig lib s.file = .ok config)
    (sample : Option (Sample V)) :
    Waits u (loopStep lib fmt loc s sample) (notes ++ evaluated s (.advance sample)) ∨
      Follows fmt loc config u (loopStep lib fmt loc s sample)
        (notes ++ evaluated s (.advance sample)) := by
  obtain ⟨hpending, hfar, hlength, earlier, hevents, hnone⟩ := h
  have hsample : s.pending = 4 ∨ evaluated s (.advance sample) = [] :=
    evaluated_of_pending hpending
  by_cases hlast : s.pending = 1
  · have hnext : evaluated s (.advance sample) = [] := hsample.resolve_left (by omega)
    obtain ⟨hengine, hkept⟩ :
        (loopStep lib fmt loc s sample).engine = create config.rules config.quietHours ∧
          (loopStep lib fmt loc s sample).events = s.events :=
      engine_loopStep_loading (loading_of_pending hlast) hload
    refine Or.inr ⟨by rw [pending_loopStep, hlast], notes, [], earlier, by rw [hnext], hlength,
      hnone, hengine, ?_⟩
    rw [hkept, hevents]
    exact (List.append_nil _).symm
  · obtain ⟨more, hmore, hquiet⟩ :
        ∃ more, (loopStep lib fmt loc s sample).events = s.events ++ more ∧
          (evaluated s (.advance sample) = [] → more = []) := events_loopStep
    refine Or.inl ⟨?_, ?_, ?_, earlier ++ more, ?_, ?_⟩
    · rw [pending_loopStep]
      omega
    · rw [pending_loopStep]
      intro hstill
      rw [hfar (by omega), hsample.resolve_left (by omega), List.append_nil]
    · obtain hfour | hnext := hsample
      · rw [hfar (by omega), List.nil_append]
        exact length_evaluated
      · rwa [hnext, List.append_nil]
    · rw [hmore, hevents, List.append_assoc]
    · intro hnil
      obtain ⟨hnotes, hnext⟩ := List.append_eq_nil_iff.mp hnil
      rw [hnone hnotes, hquiet hnext, List.append_nil]

theorem Follows.advance (h : Follows fmt loc config u s notes) (sample : Option (Sample V)) :
    Follows fmt loc config u (loopStep lib fmt loc s sample)
      (notes ++ evaluated s (.advance sample)) := by
  obtain ⟨hpending, old, new, earlier, hnotes, hold, hnone, hengine, hevents⟩ := h
  have hphase : s.phase ≠ .loading := not_loading_of_pending hpending
  exact ⟨by rw [pending_loopStep, hpending], old, new ++ evaluated s (.advance sample), earlier,
    by rw [hnotes, List.append_assoc], hold, hnone,
    evaluateAll_loopStep (Or.inl hphase) hengine hevents⟩

/-- A step of the loop. -/
def IsAdvance : State V → Label V → Prop
  | _, .advance _ => True
  | _, _ => False

theorem isAdvance_of_run {inputs : List (Option (Sample V))}
    (h : Run (step lib fmt loc) free t (inputs.map .advance) s) :
    Run (step lib fmt loc) IsAdvance t (inputs.map .advance) s := by
  refine h.of_labels fun label hlabel s => ?_
  obtain ⟨sample, -, rfl⟩ := List.mem_map.mp hlabel
  trivial

theorem pending_run {inputs : List (Option (Sample V))}
    (h : Run (step lib fmt loc) free t (inputs.map .advance) s) :
    s.pending = t.pending - inputs.length := by
  induction inputs generalizing t with
  | nil =>
      cases h
      rfl
  | cons sample inputs ih =>
      cases h with
      | cons _ hstep tail =>
          cases hstep
          rw [ih tail, pending_loopStep, List.length_cons]
          omega

/-- If the file loads, the loop waits for the reload or follows its rules. -/
theorem waits_or_follows (hload : loadConfig lib u.file = .ok config) {labels : List (Label V)}
    (h : Run (step lib fmt loc) IsAdvance { u with reload := true } labels s) :
    Waits u s (trace (step lib fmt loc) evaluated { u with reload := true } labels) ∨
      Follows fmt loc config u s
        (trace (step lib fmt loc) evaluated { u with reload := true } labels) := by
  let I : State V → List (Sample V) → Prop := fun s notes =>
    s.file = u.file ∧ (Waits u s notes ∨ Follows fmt loc config u s notes)
  have hstart : I { u with reload := true } [] := by
    refine ⟨rfl, Or.inl ⟨pending_signal.1, fun _ => rfl, Nat.zero_le _, [], ?_, fun _ => rfl⟩⟩
    exact (List.append_nil _).symm
  have hinv : I s ([] ++ trace (step lib fmt loc) evaluated { u with reload := true } labels) := by
    refine h.invariant_trace ?_ hstart
    rintro s label t notes ⟨hfile, hplace⟩ hadvance hstep
    cases label with
    | edit file => cases hadvance
    | sighup => cases hadvance
    | advance sample =>
        cases hstep
        refine ⟨(file_loopStep sample).trans hfile, ?_⟩
        obtain hwaits | hfollows := hplace
        · exact hwaits.advance (by rw [hfile, hload]) sample
        · exact Or.inr (hfollows.advance sample)
  exact hinv.2

/-- If the file does not load, the signal changes nothing. -/
theorem evaluates_on {what : Bytes} (hload : loadConfig lib u.file = .error what)
    {labels : List (Label V)}
    (h : Run (step lib fmt loc) IsAdvance { u with reload := true } labels s) :
    s.engine = (evaluateAll fmt loc u.engine
        (trace (step lib fmt loc) evaluated { u with reload := true } labels)).1 ∧
      s.events = u.events ++ (evaluateAll fmt loc u.engine
        (trace (step lib fmt loc) evaluated { u with reload := true } labels)).2 := by
  let I : State V → List (Sample V) → Prop := fun s notes =>
    s.file = u.file ∧ s.engine = (evaluateAll fmt loc u.engine notes).1 ∧
      s.events = u.events ++ (evaluateAll fmt loc u.engine notes).2
  have hstart : I { u with reload := true } [] := ⟨rfl, rfl, (List.append_nil _).symm⟩
  have hinv : I s ([] ++ trace (step lib fmt loc) evaluated { u with reload := true } labels) := by
    refine h.invariant_trace ?_ hstart
    rintro s label t notes ⟨hfile, hengine, hevents⟩ hadvance hstep
    cases label with
    | edit file => cases hadvance
    | sighup => cases hadvance
    | advance sample =>
        cases hstep
        have hfails : ∃ what, loadConfig lib s.file = .error what :=
          ⟨what, by rw [hfile, hload]⟩
        exact ⟨(file_loopStep sample).trans hfile,
          evaluateAll_loopStep (Or.inr hfails) hengine hevents⟩
  exact hinv.2

/-- Wherever the loop stands when the last signal after the last change of the
file arrives: five steps later the file has been read. If it loads, at most one
more sample has been evaluated by an older engine, and the events after it are
those of a new engine with the rules of this file over the samples since. If it
does not load, the engine and the events are those without the signal. -/
theorem reload_takes_effect {inputs : List (Option (Sample V))} (hlong : 5 ≤ inputs.length)
    (h : Run (step lib fmt loc) free { u with reload := true } (inputs.map .advance) s) :
    (∀ config, loadConfig lib u.file = .ok config →
      ∃ old new earlier,
        trace (step lib fmt loc) evaluated { u with reload := true } (inputs.map .advance) =
          old ++ new ∧
        old.length ≤ 1 ∧ (old = [] → earlier = []) ∧
        ∀ calls, (∀ (k : ℕ) (x : Sample V), new[k]? = some x → calls k = x) →
          s.engine = before fmt loc config.rules config.quietHours calls new.length ∧
          s.events = u.events ++ earlier ++ (List.range new.length).flatMap
            (emitted fmt loc config.rules config.quietHours calls)) ∧
    ∀ what, loadConfig lib u.file = .error what →
      s.engine = (evaluateAll fmt loc u.engine
          (trace (step lib fmt loc) evaluated { u with reload := true } (inputs.map .advance))).1 ∧
        s.events = u.events ++ (evaluateAll fmt loc u.engine
          (trace (step lib fmt loc) evaluated { u with reload := true }
            (inputs.map .advance))).2 := by
  refine ⟨fun config hload => ?_, fun what hload => evaluates_on hload (isAdvance_of_run h)⟩
  have hdone : s.pending = 0 := by
    rw [pending_run h]
    have hpending := (pending_signal (s := u)).2
    omega
  obtain hwaits | hfollows := waits_or_follows hload (isAdvance_of_run h)
  · exact absurd hdone hwaits.1
  · obtain ⟨-, old, new, earlier, hnotes, hold, hnone, hengine, hevents⟩ := hfollows
    refine ⟨old, new, earlier, hnotes, hold, hnone, fun calls hcalls => ?_⟩
    rw [hengine, hevents, evaluateAll_create hcalls]
    exact ⟨rfl, rfl⟩

end TakesEffect

section Example

def cpuFile : Bytes :=
  text "rules:\n- name: cpu\n  metric: system.cpu.percent\n  condition: '>'\n  threshold: 90\n"

def cpuRoot : Yaml :=
  .map [(text "rules", .seq [.map [(text "name", .scalar (text "cpu")),
    (text "metric", .scalar (text "system.cpu.percent")), (text "condition", .scalar (text ">")),
    (text "threshold", .scalar (text "90"))]])]

/-- A YAML library that knows this file. -/
def cpuLibrary : ConfigLibrary ℤ :=
  { sampleLibrary with
    loadFile := fun content =>
      if content = cpuFile then .ok cpuRoot else .error (text "bad file") }

def cpuConfig : Config ℤ where
  rules := [{ name := text "cpu", metric := text "system.cpu.percent",
              condition := .greaterThan, threshold := 90 }]

/-- A loop without rules, about to sample, and the new file. -/
def unruled : State ℤ where
  file := some cpuFile
  reload := false
  phase := .sampling
  engine := create [] {}
  events := []

def busySample (now : ℤ) : Sample ℤ := ⟨fun _ => some 95, now, []⟩

/-- A sample that is due at once, and another one after the reload. -/
def busyInputs : List (Option (Sample ℤ)) :=
  [some (busySample 1000), none, none, none, some (busySample 1005)]

theorem reload_takes_effect_cpu :
    ∃ s, Run (step cpuLibrary (fun _ => []) midnight) free { unruled with reload := true }
        (busyInputs.map .advance) s ∧
      s.events.map AlertEvent.ts = [1005] ∧
      ∃ (old new : List (Sample ℤ)) (earlier : List (AlertEvent ℤ)),
        old.length ≤ 1 ∧ old.length + new.length = 2 ∧
        s.events = earlier ++ (List.range new.length).flatMap
          (emitted (fun _ => []) midnight cpuConfig.rules cpuConfig.quietHours
            fun k => new.getD k (busySample 0)) := by
  obtain ⟨s, hrun, hs⟩ := Run.of_exec_any (step cpuLibrary (fun _ => []) midnight) free
    { unruled with reload := true } (busyInputs.map .advance)
    (fun s => decide (s.events.map AlertEvent.ts = [1005])) (by decide +kernel)
  have hload : loadConfig cpuLibrary unruled.file = .ok cpuConfig := by
    have hfile : cpuLibrary.loadFile cpuFile = .ok cpuRoot := by
      simp only [cpuLibrary, if_true]
    change loadConfig cpuLibrary (some cpuFile) = _
    simp only [loadConfig, hfile]
    set_option maxRecDepth 4000 in
    rfl
  obtain ⟨old, new, earlier, htrace, hold, -, hhistory⟩ :=
    (reload_takes_effect (by decide) hrun).1 cpuConfig hload
  refine ⟨s, hrun, of_decide_eq_true hs, old, new, earlier, hold, ?_, ?_⟩
  · rw [← List.length_append, ← htrace]
    decide +kernel
  · refine (hhistory _ fun k x hx => ?_).2
    rw [List.getD_eq_getElem?_getD, hx]
    rfl

end Example

end AgentPulse.HotReload
