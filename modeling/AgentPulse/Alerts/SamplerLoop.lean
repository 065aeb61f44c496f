import AgentPulse.Alerts.Engine
import AgentPulse.Lib.KeyedList
import AgentPulse.Lib.Transition

/-!
# Alerts across configuration reloads

`sampler_loop` of `main.cpp`: an iteration first replaces the engine if a
`SIGHUP` asks for it and the configuration can be loaded, and then evaluates
the rules if a sample is due. A replaced engine has lost what it knew, so the
events of a rule keep their order and their distance only if nothing worth
keeping was lost.

## Implementation notes

A signal that arrives during an iteration is noticed by the next one, so that
an iteration is one step. What the loop does with the events of an iteration
(it stores, logs, announces and publishes them) does not come back to it; the
events are recorded here and nothing else.
-/

namespace AgentPulse

/-- The kind that may follow. -/
def AlertKind.other : AlertKind → AlertKind
  | .firing => .recovered
  | .recovered => .firing

namespace AlertEngine

open Transition

/-- The rules and quiet hours `load_config` returns; it refuses two rules of
one name. -/
structure RuleSet (V : Type) where
  rules : List (Rule V)
  quietHours : QuietHours := {}
  distinct : (rules.map Rule.name).Nodup

structure SamplerState (V : Type) where
  engine : AlertEngine V
  reload : Bool
  events : List (AlertEvent V)

/-- A signal, or an iteration with the outcome of a reload, should it come to
that, and with the sample if one is due. -/
inductive SamplerLabel (V : Type) where
  | sighup
  | iterate (loaded : Option (RuleSet V)) (sample : Option (Sample V))

/-- The sampler before its first iteration. -/
def SamplerState.start {V : Type} (config : RuleSet V) : SamplerState V where
  engine := create config.rules config.quietHours
  reload := false
  events := []

/-- The reload of an iteration: a configuration that does not load changes
nothing but the flag. -/
def SamplerState.reloadConfig {V : Type} (s : SamplerState V) (loaded : Option (RuleSet V)) :
    SamplerState V :=
  if s.reload then
    match loaded with
    | some config =>
        { s with engine := create config.rules config.quietHours, reload := false }
    | none => { s with reload := false }
  else s

/-- The events of one rule. -/
def eventsOf {V : Type} (rule : Rule V) (events : List (AlertEvent V)) : List (AlertEvent V) :=
  events.filter fun e => e.ruleName = rule.name

/-- The times at which a rule fired. -/
def firings {V : Type} (rule : Rule V) (events : List (AlertEvent V)) : List Int :=
  ((eventsOf rule events).filter fun e => e.kind = .firing).map AlertEvent.ts

/-- The kinds alternate, starting with the given one. -/
def Alternates : AlertKind → List AlertKind → Prop
  | _, [] => True
  | next, kind :: rest => kind = next ∧ Alternates next.other rest

theorem alternates_snoc {next kind : AlertKind} {kinds : List AlertKind} :
    Alternates next (kinds ++ [kind]) ↔
      Alternates next kinds ∧ kind = (kinds.getLast?.map AlertKind.other).getD next := by
  induction kinds generalizing next with
  | nil => simp [Alternates]
  | cons first rest ih =>
      rw [List.cons_append, Alternates, Alternates, ih, and_assoc]
      cases rest with
      | nil =>
          constructor
          · rintro ⟨rfl, h⟩
            exact ⟨rfl, h⟩
          · rintro ⟨rfl, h⟩
            exact ⟨rfl, h⟩
      | cons second rest =>
          obtain ⟨last, hlast⟩ : ∃ last, (second :: rest).getLast? = some last :=
            ⟨_, List.getLast?_eq_some_getLast (List.cons_ne_nil second rest)⟩
          rw [List.getLast?_cons_cons, hlast]
          rfl

section Loop

variable {V : Type} [LinearOrder V] [Zero V] (fmt : V → Bytes) (loc : LocalTime)

/-- The evaluation of an iteration. -/
def SamplerState.evaluateSample (s : SamplerState V) (sample : Option (Sample V)) :
    SamplerState V :=
  match sample with
  | none => s
  | some x =>
      { s with
        engine := (evaluate fmt loc s.engine x).1
        events := s.events ++ (evaluate fmt loc s.engine x).2 }

/-- One step of the sampler. -/
def samplerStep (s : SamplerState V) : SamplerLabel V → Option (SamplerState V)
  | .sighup => some { s with reload := true }
  | .iterate loaded sample => some ((s.reloadConfig loaded).evaluateSample fmt loc sample)

variable {rule : Rule V} {e : AlertEngine V}

/-- In an evaluation a rule advances its own state and emits its own event. -/
theorem evaluate_rule (x : Sample V) (hn : (e.rules.map Rule.name).Nodup) (hr : rule ∈ e.rules) :
    (evaluate fmt loc e x).1.state rule.name = (step rule x (e.state rule.name)).1 ∧
      eventsOf rule (evaluate fmt loc e x).2 = ((step rule x (e.state rule.name)).2.map
        (event fmt (inQuietHours loc e.quietHours x.now) rule x)).toList := by
  obtain ⟨hevents, hstate⟩ := foldl_round fmt (inQuietHours loc e.quietHours x.now) x e.rules hn
    e.state []
  constructor
  · have hfind : e.rules.find? (fun r => r.name = rule.name) = some rule :=
      (KeyedList.find?_eq_some_iff hn).mpr ⟨hr, rfl⟩
    have hrule := hstate rule.name
    rw [hfind] at hrule
    exact hrule
  · unfold eventsOf evaluate
    simp only [hevents, List.nil_append]
    refine KeyedList.filter_filterMap_key (fun r _ y hy => ?_) hn hr
    obtain ⟨kind, _, rfl⟩ := Option.map_eq_some_iff.mp hy
    rfl

end Loop

/-- The rule stays: a configuration that loads has it unchanged. -/
def KeepsRule {V : Type} (rule : Rule V) (s : SamplerState V) : SamplerLabel V → Prop
  | .sighup => True
  | .iterate loaded _ => s.reload = true → ∀ config ∈ loaded, rule ∈ config.rules

/-- The condition of a rule has held for its duration. -/
def Fulfilled {V : Type} [LinearOrder V] (rule : Rule V) (st : RuleState) (x : Sample V) : Prop :=
  met rule x = true ∧ rule.durationSeconds ≤ x.now - streakStart x st

/-- No reload forgets an announced episode, and an engine that has not fired
the rule yet finds its condition fulfilled for its duration only after the
cooldown of the last firing. -/
def ForgetsNothing {V : Type} [LinearOrder V] (rule : Rule V) (s : SamplerState V) :
    SamplerLabel V → Prop
  | .sighup => True
  | .iterate loaded sample =>
      (s.reload = true → loaded.isSome = true → (s.engine.state rule.name).notified = false) ∧
      ∀ x ∈ sample, Fulfilled rule ((s.reloadConfig loaded).engine.state rule.name) x →
        ((s.reloadConfig loaded).engine.state rule.name).lastFired = 0 →
          ∀ last ∈ (firings rule s.events).getLast?, rule.cooldownSeconds ≤ x.now - last

instance {V : Type} [DecidableEq V] (rule : Rule V) (s : SamplerState V) :
    DecidablePred (KeepsRule rule s)
  | .sighup => inferInstanceAs (Decidable True)
  | .iterate _ _ => inferInstanceAs (Decidable (_ → _))

instance {V : Type} [LinearOrder V] (rule : Rule V) (st : RuleState) (x : Sample V) :
    Decidable (Fulfilled rule st x) := inferInstanceAs (Decidable (_ ∧ _))

instance {V : Type} [LinearOrder V] (rule : Rule V) (s : SamplerState V) :
    DecidablePred (ForgetsNothing rule s)
  | .sighup => inferInstanceAs (Decidable True)
  | .iterate _ _ => inferInstanceAs (Decidable (_ ∧ _))

/-- A state of a rule agrees with the kinds of its events and the times of its
firings, which are in order and apart. -/
structure Recalls (cooldownSeconds : Int) (st : RuleState) (kinds : List AlertKind)
    (fired : List Int) : Prop where
  notified : st.notified = true ↔ kinds.getLast? = some .firing
  lastFired : st.lastFired ≠ 0 → fired.getLast? = some st.lastFired
  alternates : Alternates .firing kinds
  cooldown : fired.IsChain fun a b => cooldownSeconds ≤ b - a

section OneRule

variable {V : Type} [LinearOrder V] {rule : Rule V} {st : RuleState} {x : Sample V}
  {kinds : List AlertKind} {fired : List Int}

theorem Recalls.fire (h : Recalls rule.cooldownSeconds st kinds fired)
    (hfires : (step rule x st).2 = some .firing)
    (hcool : ∀ last ∈ fired.getLast?, rule.cooldownSeconds ≤ x.now - last) :
    Recalls rule.cooldownSeconds (step rule x st).1 (kinds ++ [.firing]) (fired ++ [x.now]) := by
  obtain ⟨hmet, _, hquiet, _⟩ := (step_fires_iff rule x st).mp hfires
  refine ⟨?_, ?_, ?_, ?_⟩
  · rw [step_notified, List.getLast?_concat]
    simp [hmet, hfires]
  · intro _
    rw [step_lastFired, if_pos hfires, List.getLast?_concat]
  · rw [alternates_snoc]
    refine ⟨h.alternates, ?_⟩
    have hlast : kinds.getLast? ≠ some .firing := by
      intro hlast
      rw [h.notified.mpr hlast] at hquiet
      cases hquiet
    cases hkind : kinds.getLast? with
    | none => rfl
    | some kind =>
        cases kind with
        | firing => exact absurd hkind hlast
        | recovered => rfl
  · rw [List.isChain_append]
    refine ⟨h.cooldown, List.isChain_singleton _, ?_⟩
    intro last hlast next hnext
    cases hnext
    exact hcool last hlast

theorem Recalls.recover (h : Recalls rule.cooldownSeconds st kinds fired)
    (hrecovers : (step rule x st).2 = some .recovered) :
    Recalls rule.cooldownSeconds (step rule x st).1 (kinds ++ [.recovered]) fired := by
  obtain ⟨hmet, hnotified⟩ := (step_recovers_iff rule x st).mp hrecovers
  refine ⟨?_, ?_, ?_, h.cooldown⟩
  · rw [step_notified, List.getLast?_concat]
    simp [hmet]
  · rw [step_lastFired, hrecovers]
    exact h.lastFired
  · rw [alternates_snoc, h.notified.mp hnotified]
    exact ⟨h.alternates, rfl⟩

theorem Recalls.silent (h : Recalls rule.cooldownSeconds st kinds fired)
    (hnone : (step rule x st).2 = none) :
    Recalls rule.cooldownSeconds (step rule x st).1 kinds fired := by
  refine ⟨?_, ?_, h.alternates, h.cooldown⟩
  · rw [step_notified, ← h.notified, hnone]
    constructor
    · rintro ⟨_, hold | hfires⟩
      · exact hold
      · cases hfires
    · intro hold
      refine ⟨?_, Or.inl hold⟩
      by_contra hmet
      have hrecovers := (step_recovers_iff rule x st).mpr ⟨by simpa using hmet, hold⟩
      rw [hnone] at hrecovers
      cases hrecovers
  · rw [step_lastFired, hnone]
    exact h.lastFired

/-- One evaluation of a rule, provided that a firing which the state does not
recall is over its cooldown. -/
theorem Recalls.step (h : Recalls rule.cooldownSeconds st kinds fired)
    (hcool : Fulfilled rule st x → st.lastFired = 0 →
      ∀ last ∈ fired.getLast?, rule.cooldownSeconds ≤ x.now - last) :
    Recalls rule.cooldownSeconds (step rule x st).1 (kinds ++ (step rule x st).2.toList)
      (fired ++ if (step rule x st).2 = some .firing then [x.now] else []) := by
  cases hkind : (AlertEngine.step rule x st).2 with
  | none => simpa using h.silent hkind
  | some kind =>
      cases kind with
      | recovered => simpa using h.recover hkind
      | firing =>
          obtain ⟨hmet, hduration, _, hcooldown⟩ := (step_fires_iff rule x st).mp hkind
          refine h.fire hkind fun last hlast => ?_
          by_cases hzero : st.lastFired = 0
          · exact hcool ⟨hmet, hduration⟩ hzero last hlast
          · have heq : st.lastFired = last := Option.some.inj ((h.lastFired hzero).symm.trans hlast)
            rw [← heq]
            simpa [cooldownOk, hzero] using hcooldown

end OneRule

/-- What the engine knows of a rule agrees with the events so far. -/
structure Agrees {V : Type} (rule : Rule V) (s : SamplerState V) : Prop where
  distinct : (s.engine.rules.map Rule.name).Nodup
  mem : rule ∈ s.engine.rules
  recalls : Recalls rule.cooldownSeconds (s.engine.state rule.name)
    ((eventsOf rule s.events).map AlertEvent.kind) (firings rule s.events)

section Runs

variable {V : Type} [LinearOrder V] {rule : Rule V} {s t : SamplerState V}

theorem Agrees.reload (h : Agrees rule s) {loaded : Option (RuleSet V)} {sample : Option (Sample V)}
    (hscope : KeepsRule rule s (.iterate loaded sample))
    (hok : ForgetsNothing rule s (.iterate loaded sample)) : Agrees rule (s.reloadConfig loaded) := by
  unfold SamplerState.reloadConfig
  split
  · next hreload =>
      cases loaded with
      | none => exact ⟨h.distinct, h.mem, h.recalls⟩
      | some config =>
          have hold := hok.1 hreload rfl
          refine ⟨config.distinct, hscope hreload config rfl, ?_, fun hne => absurd rfl hne,
            h.recalls.alternates, h.recalls.cooldown⟩
          rw [← h.recalls.notified, hold]
          rfl
  · exact h

variable [Zero V] {fmt : V → Bytes} {loc : LocalTime} {config : RuleSet V}
  {labels : List (SamplerLabel V)}

theorem Agrees.evaluate (h : Agrees rule s) {x : Sample V}
    (hcool : Fulfilled rule (s.engine.state rule.name) x →
      (s.engine.state rule.name).lastFired = 0 →
      ∀ last ∈ (firings rule s.events).getLast?, rule.cooldownSeconds ≤ x.now - last) :
    Agrees rule (s.evaluateSample fmt loc (some x)) := by
  obtain ⟨hstate, hevents⟩ := evaluate_rule fmt loc x h.distinct h.mem
  refine ⟨h.distinct, h.mem, ?_⟩
  have hnext := h.recalls.step hcool
  have hall : eventsOf rule (s.evaluateSample fmt loc (some x)).events =
      eventsOf rule s.events ++ eventsOf rule (AlertEngine.evaluate fmt loc s.engine x).2 :=
    List.filter_append _ _
  have hstate' : (s.evaluateSample fmt loc (some x)).engine.state rule.name = _ := hstate
  unfold firings at hnext ⊢
  rw [hall, hevents, hstate']
  cases hkind : (AlertEngine.step rule x (s.engine.state rule.name)).2 with
  | none => simpa [hkind] using hnext
  | some kind =>
      rw [hkind] at hnext
      cases kind <;> simpa [event] using hnext

theorem Agrees.iterate (h : Agrees rule s) {loaded : Option (RuleSet V)}
    {sample : Option (Sample V)} (hscope : KeepsRule rule s (.iterate loaded sample))
    (hok : ForgetsNothing rule s (.iterate loaded sample)) :
    Agrees rule ((s.reloadConfig loaded).evaluateSample fmt loc sample) := by
  have hreload := h.reload hscope hok
  cases sample with
  | none => exact hreload
  | some x =>
      refine hreload.evaluate fun hfulfilled hzero last hlast => ?_
      refine hok.2 x rfl hfulfilled hzero last ?_
      have hevents : (s.reloadConfig loaded).events = s.events := by
        unfold SamplerState.reloadConfig
        split
        · split <;> rfl
        · rfl
      rwa [hevents] at hlast

/-- If no reload forgets an announced episode or a running cooldown, the events
of a rule that all configurations have alternate over the whole run, starting
with a firing, and consecutive firings are a cooldown apart. -/
theorem rule_events_alternate (hrule : rule ∈ config.rules)
    (h : Run (samplerStep fmt loc)
      (fun s label => KeepsRule rule s label ∧ ForgetsNothing rule s label)
      (SamplerState.start config) labels s) :
    Alternates .firing ((eventsOf rule s.events).map AlertEvent.kind) ∧
      (firings rule s.events).IsChain fun a b => rule.cooldownSeconds ≤ b - a := by
  have hagrees : Agrees rule s := by
    refine h.invariant (I := fun s => Agrees rule s) ?_ ?_
    · intro s label t hinv hok hstep
      cases label with
      | sighup =>
          cases hstep
          exact ⟨hinv.distinct, hinv.mem, hinv.recalls⟩
      | iterate loaded sample =>
          cases hstep
          exact hinv.iterate hok.1 hok.2
    · refine ⟨config.distinct, hrule, ?_, fun hne => absurd rfl hne, trivial, List.isChain_nil⟩
      exact iff_of_false (by simp [SamplerState.start, create]) (by simp [SamplerState.start, eventsOf])
  exact ⟨hagrees.recalls.alternates, hagrees.recalls.cooldown⟩

/-- A rule that fires at once, and not again for five minutes. -/
def cpuRule : Rule ℤ where
  name := text "cpu"
  metric := text "system.cpu.percent"
  condition := .greaterThan
  threshold := 90
  cooldownSeconds := 300

def cpuRules : RuleSet ℤ where
  rules := [cpuRule]
  distinct := by decide

/-- An iteration with a sample of the processor and, should it come to that, a
reload of the same rules. -/
def cpuSample (now percent : ℤ) : SamplerLabel ℤ :=
  .iterate (some cpuRules) (some ⟨fun _ => some percent, now, []⟩)

/-- A reload between two episodes, with the cooldown over at the second one. -/
theorem rule_events_alternate_reloaded :
    ∃ s, Run (samplerStep (fun _ => []) midnight)
        (fun s label => KeepsRule cpuRule s label ∧ ForgetsNothing cpuRule s label)
        (SamplerState.start cpuRules)
        [cpuSample 1000 95, cpuSample 1005 10, .sighup, cpuSample 1300 95] s ∧
      firings cpuRule s.events = [1000, 1300] ∧
      Alternates .firing ((eventsOf cpuRule s.events).map AlertEvent.kind) ∧
      (firings cpuRule s.events).IsChain fun a b => cpuRule.cooldownSeconds ≤ b - a := by
  obtain ⟨s, hrun, hs⟩ := Run.of_exec_any (samplerStep (fun _ => []) midnight)
    (fun s label => KeepsRule cpuRule s label ∧ ForgetsNothing cpuRule s label)
    (SamplerState.start cpuRules)
    [cpuSample 1000 95, cpuSample 1005 10, .sighup, cpuSample 1300 95]
    (fun s => decide (firings cpuRule s.events = [1000, 1300]))
    (by decide +kernel)
  exact ⟨s, hrun, of_decide_eq_true hs, rule_events_alternate (by decide) hrun⟩

/-- A reload of the same rules during an episode: the rule fires again five
seconds later, without a recovery in between. -/
theorem fires_twice_across_reload :
    ∃ labels s, Run (samplerStep (fun _ => []) midnight) (KeepsRule cpuRule)
        (SamplerState.start cpuRules) labels s ∧
      ¬ (Alternates .firing ((eventsOf cpuRule s.events).map AlertEvent.kind) ∧
        (firings cpuRule s.events).IsChain fun a b => cpuRule.cooldownSeconds ≤ b - a) ∧
      (eventsOf cpuRule s.events).map AlertEvent.kind = [.firing, .firing] ∧
      firings cpuRule s.events = [1000, 1005] := by
  obtain ⟨s, hrun, hs⟩ := Run.of_exec_any (samplerStep (fun _ => []) midnight) (KeepsRule cpuRule)
    (SamplerState.start cpuRules) [cpuSample 1000 95, .sighup, cpuSample 1005 95]
    (fun s => decide ((eventsOf cpuRule s.events).map AlertEvent.kind = [.firing, .firing] ∧
      firings cpuRule s.events = [1000, 1005]))
    (by decide +kernel)
  obtain ⟨hkinds, hfirings⟩ := of_decide_eq_true hs
  refine ⟨_, s, hrun, ?_, hkinds, hfirings⟩
  rintro ⟨halternates, _⟩
  rw [hkinds] at halternates
  cases halternates.2.1

end Runs

end AlertEngine
end AgentPulse
