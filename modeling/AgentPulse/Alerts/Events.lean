import AgentPulse.Alerts.History

/-!
# The events of a rule

An event reports the value its rule has seen, which decides its kind: a firing
event meets the condition of the rule, and a recovery does not, unless its
metric was absent and the zero reported in its place does. The events of a rule
are those it would have on its own, whatever other rules there are.
-/

namespace AgentPulse.AlertEngine

variable {V : Type} [LinearOrder V]

/-- The rules of a pass with the states they find. -/
def visits (sample : Sample V) : (Bytes → RuleState) → List (Rule V) → List (Rule V × RuleState)
  | _, [] => []
  | state, rule :: rest =>
      (rule, state rule.name) ::
        visits sample (Function.update state rule.name (step rule sample (state rule.name)).1) rest

variable [Zero V]

section Consistency

variable (fmt : V → Bytes) (loc : LocalTime) (rules : List (Rule V)) (quietHours : QuietHours)
  (calls : ℕ → Sample V)

/-- The rules with the states they find at call `k`. -/
def visited (k : ℕ) : List (Rule V × RuleState) :=
  visits (calls k) (before fmt loc rules quietHours calls k).state rules

/-- The events of call `k` with the rules they are of. -/
def attributed (k : ℕ) : List (Rule V × AlertEvent V) :=
  (visited fmt loc rules quietHours calls k).filterMap fun visit =>
    (step visit.1 (calls k) visit.2).2.map fun kind =>
      (visit.1, event fmt (inQuietHours loc quietHours (calls k).now) visit.1 (calls k) kind)

/-- A pass emits the events of its visits. -/
theorem foldl_round_visits (quiet : Bool) (sample : Sample V) (state : Bytes → RuleState)
    (events : List (AlertEvent V)) :
    (rules.foldl (round fmt quiet sample) (state, events)).2 =
      events ++ (visits sample state rules).filterMap fun visit =>
        (step visit.1 sample visit.2).2.map (event fmt quiet visit.1 sample) := by
  induction rules generalizing state events with
  | nil => simp [visits]
  | cons rule rest ih =>
      rw [List.foldl_cons, round, ih, visits, List.append_assoc]
      congr 1
      cases hkind : (step rule sample (state rule.name)).2 with
      | none => rw [List.filterMap_cons_none (by rw [hkind]; rfl)]; rfl
      | some kind => rw [List.filterMap_cons_some (by rw [hkind]; rfl)]; rfl

theorem emitted_eq_attributed (k : ℕ) :
    emitted fmt loc rules quietHours calls k =
      (attributed fmt loc rules quietHours calls k).map Prod.snd := by
  obtain ⟨hrules, hquiet⟩ := before_rules fmt loc rules quietHours calls k
  simp only [emitted, evaluate, hrules, hquiet]
  rw [foldl_round_visits, List.nil_append, attributed, List.map_filterMap]
  apply List.filterMap_congr
  intro visit _
  rw [Option.map_map]
  rfl

variable {rules calls}

/-- An event says what its rule has seen, except for a recovery without a value. -/
theorem event_consistent_iff (quiet : Bool) {rule : Rule V} {sample : Sample V} {st : RuleState}
    {kind : AlertKind} (h : (step rule sample st).2 = some kind) :
    (kind = .firing ↔
        conditionMet rule.condition (event fmt quiet rule sample kind).value rule.threshold = true) ↔
      (st.notified = true → sample.metrics rule.metric = none →
        conditionMet rule.condition 0 rule.threshold = false) := by
  have hvalue : (event fmt quiet rule sample kind).value =
      (sample.metrics rule.metric).getD 0 := rfl
  have hmet : met rule sample = true ↔ ∃ value, sample.metrics rule.metric = some value ∧
      conditionMet rule.condition value rule.threshold = true := by
    unfold met
    cases sample.metrics rule.metric with
    | none => simp
    | some value => simp
  rw [hvalue]
  cases kind with
  | firing =>
      obtain ⟨hholds, _, hquiet, _⟩ := (step_fires_iff rule sample st).mp h
      obtain ⟨value, hsome, hcondition⟩ := hmet.mp hholds
      simp [hsome, hcondition]
  | recovered =>
      obtain ⟨hfails, hnotified⟩ := (step_recovers_iff rule sample st).mp h
      cases hmetric : sample.metrics rule.metric with
      | none => simp [hnotified]
      | some value =>
          have hcondition : conditionMet rule.condition value rule.threshold = false := by
            rw [← Bool.not_eq_true]
            intro hcondition
            rw [hmet.mpr ⟨value, hmetric, hcondition⟩] at hfails
            cases hfails
          simp [hcondition]

omit [Zero V] in
/-- A rule that is announced and has no value to go on emits its recovery. -/
theorem step_of_absent {rule : Rule V} {sample : Sample V} {st : RuleState}
    (hnotified : st.notified = true) (habsent : sample.metrics rule.metric = none) :
    (step rule sample st).2 = some .recovered := by
  apply (step_recovers_iff rule sample st).mpr
  exact ⟨by rw [met, habsent], hnotified⟩

end Consistency

/-- The events of the first `n` calls are consistent with their rules exactly if
no announced rule loses its metric while zero meets its condition. -/
theorem events_consistent_iff (fmt : V → Bytes) (loc : LocalTime) (rules : List (Rule V))
    (quietHours : QuietHours) (calls : ℕ → Sample V) :
    (∀ k, emitted fmt loc rules quietHours calls k =
      (attributed fmt loc rules quietHours calls k).map Prod.snd) ∧
    ∀ n, (∀ k < n, ∀ p ∈ attributed fmt loc rules quietHours calls k,
        (p.2.kind = .firing ↔ conditionMet p.1.condition p.2.value p.1.threshold = true)) ↔
      ∀ k < n, ∀ visit ∈ visited fmt loc rules quietHours calls k, visit.2.notified = true →
        (calls k).metrics visit.1.metric = none →
          conditionMet visit.1.condition 0 visit.1.threshold = false := by
  refine ⟨emitted_eq_attributed fmt loc rules quietHours calls, fun n => ?_⟩
  constructor
  · intro h k hk visit hvisit hnotified habsent
    have hkind : (step visit.1 (calls k) visit.2).2 = some .recovered :=
      step_of_absent hnotified habsent
    apply (event_consistent_iff fmt (inQuietHours loc quietHours (calls k).now) hkind).mp
      ?_ hnotified habsent
    refine h k hk (visit.1, event fmt (inQuietHours loc quietHours (calls k).now) visit.1 (calls k)
      .recovered) ?_
    apply List.mem_filterMap.mpr
    exact ⟨visit, hvisit, by rw [hkind]; rfl⟩
  · intro h k hk p hp
    obtain ⟨visit, hvisit, hp⟩ := List.mem_filterMap.mp hp
    obtain ⟨kind, hkind, rfl⟩ := Option.map_eq_some_iff.mp hp
    exact (event_consistent_iff _ _ hkind).mpr (h k hk visit hvisit)

/-- A disk that is reported as nearly full, until its collector fails. -/
theorem recovered_without_value :
    let rule : Rule ℤ :=
      { name := text "disk", metric := text "system.disk.available_gb", condition := .lessThan,
        threshold := 10 }
    let calls : ℕ → Sample ℤ := fun k =>
      { metrics := fun m => if m = text "system.disk.available_gb" ∧ k = 0 then some 5 else none
        now := 1000 + 5 * k
        cpuAttribution := [] }
    (emitted (fun _ => []) midnight [rule] {} calls 1).map (fun e => (e.kind, e.value)) =
        [(.recovered, 0)] ∧
      conditionMet rule.condition 0 rule.threshold = true := by
  decide +kernel

section Independence

variable {fmt : V → Bytes} {loc : LocalTime} {rules rules' : List (Rule V)}
  {quietHours : QuietHours} {calls : ℕ → Sample V}

omit [LinearOrder V] [Zero V] in
theorem mem_of_name_mem (hn : (rules'.map Rule.name).Nodup) (hsub : rules ⊆ rules')
    {rule : Rule V} (hrule : rule ∈ rules') (hname : rule.name ∈ rules.map Rule.name) :
    rule ∈ rules := by
  obtain ⟨other, hother, heq⟩ := List.mem_map.mp hname
  rwa [List.inj_on_of_nodup_map hn hrule (hsub hother) heq.symm]

/-- The events of the rules in a longer list are their events without the others. -/
theorem emitted_perm (hn : (rules.map Rule.name).Nodup) (hn' : (rules'.map Rule.name).Nodup)
    (hsub : rules ⊆ rules') (k : ℕ) :
    ((emitted fmt loc rules' quietHours calls k).filter
      fun e => e.ruleName ∈ rules.map Rule.name).Perm (emitted fmt loc rules quietHours calls k) := by
  have hrules : (rules'.filter fun rule => rule.name ∈ rules.map Rule.name).Perm rules := by
    apply (List.perm_ext_iff_of_nodup (hn'.of_map.filter _) hn.of_map).mpr
    intro rule
    rw [List.mem_filter, decide_eq_true_eq]
    constructor
    · rintro ⟨hrule, hname⟩
      exact mem_of_name_mem hn' hsub hrule hname
    · intro hrule
      exact ⟨hsub hrule, List.mem_map_of_mem hrule⟩
  rw [emitted_eq hn, emitted_eq hn', List.filter_filterMap]
  refine List.Perm.trans (List.Perm.of_eq ?_) (hrules.filterMap _)
  rw [List.filterMap_filter]
  apply List.filterMap_congr
  intro rule _
  cases ruleEmits rule calls k with
  | none => simp
  | some kind => rfl

/-- Rules do not interfere. In an engine with other rules a rule has the events
it has on its own, and the events of several rules differ in their order only. -/
theorem rules_do_not_interfere (fmt : V → Bytes) (loc : LocalTime) (rules : List (Rule V))
    (quietHours : QuietHours) (calls : ℕ → Sample V) (hn : (rules.map Rule.name).Nodup) :
    (∀ rule ∈ rules, ∀ k,
      (emitted fmt loc rules quietHours calls k).filter (fun e => e.ruleName = rule.name) =
        emitted fmt loc [rule] quietHours calls k) ∧
    ∀ rules', (rules'.map Rule.name).Nodup → rules ⊆ rules' → ∀ k,
      ((emitted fmt loc rules' quietHours calls k).filter
        fun e => e.ruleName ∈ rules.map Rule.name).Perm
          (emitted fmt loc rules quietHours calls k) := by
  refine ⟨fun rule hrule k => ?_, fun rules' hn' hsub k => emitted_perm hn hn' hsub k⟩
  have hsingle : ([rule].map Rule.name).Nodup := List.nodup_singleton _
  rw [emitted_eq hn, emitted_eq hsingle]
  rw [KeyedList.filter_filterMap_key (f := Rule.name) ?_ hn hrule]
  · cases hkind : ruleEmits rule calls k with
    | none => rw [List.filterMap_cons_none (by rw [hkind]; rfl)]; rfl
    | some kind => rw [List.filterMap_cons_some (by rw [hkind]; rfl)]; rfl
  · intro other _ e he
    obtain ⟨kind, _, rfl⟩ := Option.map_eq_some_iff.mp he
    rfl

/-- A rule on the processor fires in the company of a rule on the memory as it
does alone. -/
theorem rules_do_not_interfere_pair :
    let cpu : Rule ℤ :=
      { name := text "cpu", metric := text "system.cpu.percent", condition := .greaterThan,
        threshold := 90 }
    let memory : Rule ℤ :=
      { name := text "memory", metric := text "system.memory.percent", condition := .atLeast,
        threshold := 80 }
    let calls : ℕ → Sample ℤ := fun k =>
      { metrics := fun _ => some 95, now := 1000 + 5 * k, cpuAttribution := [] }
    ((emitted (fun _ => []) midnight [cpu, memory] {} calls 0).filter
        fun e => e.ruleName = cpu.name) = emitted (fun _ => []) midnight [cpu] {} calls 0 ∧
      (emitted (fun _ => []) midnight [cpu] {} calls 0).length = 1 := by
  intro cpu memory calls
  have hnames : ([cpu, memory].map Rule.name).Nodup := by decide
  exact ⟨(rules_do_not_interfere (fun _ => []) midnight [cpu, memory] {} calls hnames).1 cpu
    (List.mem_cons_self ..) 0, by decide +kernel⟩

end Independence

end AgentPulse.AlertEngine
