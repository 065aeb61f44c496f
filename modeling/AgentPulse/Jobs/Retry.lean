import AgentPulse.Jobs.Worker
import AgentPulse.Lib.Transition

/-!
# The retry protocol

One execution of a job from its first attempt to its `done` flag, with all it
does on the way. The outcome of every attempt is given in advance; `active_`
and the clock are read from the environment at every step.

## Implementation notes

`last_runs_` is seen through the entry of the job alone, which no other thread
writes while the execution is the only one of its name. Writes to the database
succeed.
-/

namespace AgentPulse.Worker

open Transition

/-- What a step reads of the environment: `active_` and the clock. -/
structure Input where
  active : Bool
  clock : Int
  deriving DecidableEq

/-- What `run_command` returns for a command with the given outcome. -/
def commandResult (o : Outcome) (startedAt endedAt : Int) : RunResult where
  status := o.status
  exitCode := o.exitCode
  startedAt := startedAt
  endedAt := endedAt
  durationMs := o.durationMs
  stdoutText := o.stdoutText
  stderrText := o.stderrText

/-- The alert for a failed final attempt. -/
def failureAlert (job : Job) (clock : Int) (res : RunResult) : AlertInfo Int :=
  jobAlert clock job.name (text "serious") (failureMessage job res)
    (failureDetail res.stderrText) res.exitCode.toInt

/-- An execution with all it has done: the attempts begun, the results of those
whose command has ended, and the writes to the daemon. -/
structure Progress where
  pc : Pc
  started : ℕ
  results : List RunResult
  records : List RunRecord
  lastRun : Option RunRecord
  alerts : List (AlertInfo Int)
  done : Bool
  deriving DecidableEq

namespace Progress

/-- A new execution of a job with the given entry in `last_runs_`. -/
def initial (lastRun : Option RunRecord) : Progress := ⟨start, 0, [], [], lastRun, [], false⟩

/-- The execution moves on. -/
def moveTo (p : Progress) (pc : Pc) : Progress :=
  match pc with
  | .command _ _ => { p with pc := pc, started := p.started + 1 }
  | .insertRun _ res => { p with pc := pc, results := p.results ++ [res] }
  | _ => { p with pc := pc }

/-- The execution takes effect on the daemon. -/
def perform (p : Progress) : Effect → Progress
  | .none => p
  | .insertRun record => { p with records := p.records ++ [record] }
  | .setLastRun record => { p with lastRun := some record }
  | .alert info => { p with alerts := p.alerts ++ [info] }
  | .done => { p with done := true }

/-- The value of `res`: the result of the last command that has ended. -/
def result (p : Progress) : RunResult := p.results.getLastD {}

end Progress

/-- The next step, with the outcome of the attempt it belongs to. -/
def advance (job : Job) (trigger : Trigger) (outcomes : ℕ → Outcome) (p : Progress) (i : Input) :
    Option Progress :=
  (step job trigger i.active i.clock (outcomes p.results.length) p.pc).map fun (pc, effect) =>
    (p.moveTo pc).perform effect

/-- What a step does to an execution. -/
inductive Move (job : Job) (trigger : Trigger) (outcomes : ℕ → Outcome) (i : Input) :
    Progress → Progress → Prop
  | attempt {p : Progress} (n : Int) (res : RunResult) (hpc : p.pc = .attempt n res)
      (hn : n ≤ attempts job) (hactive : i.active = true) :
      Move job trigger outcomes i p
        { p with pc := .command n i.clock, started := p.started + 1 }
  | giveUp {p : Progress} (n : Int) (res : RunResult) (hpc : p.pc = .attempt n res)
      (hstop : ¬ (n ≤ attempts job ∧ i.active = true)) :
      Move job trigger outcomes i p { p with pc := .finalCheck res }
  | command {p : Progress} (n startedAt : Int) (hpc : p.pc = .command n startedAt) :
      Move job trigger outcomes i p
        { p with
          pc := .insertRun n (commandResult (outcomes p.results.length) startedAt i.clock)
          results := p.results ++ [commandResult (outcomes p.results.length) startedAt i.clock] }
  | insertRun {p : Progress} (n : Int) (res : RunResult) (hpc : p.pc = .insertRun n res) :
      Move job trigger outcomes i p
        { p with pc := .setLastRun n res, records := p.records ++ [record job trigger res] }
  | success {p : Progress} (n : Int) (res : RunResult) (hpc : p.pc = .setLastRun n res)
      (hsuccess : res.status = .success) :
      Move job trigger outcomes i p
        { p with pc := .finalCheck res, lastRun := some (record job trigger res) }
  | failure {p : Progress} (n : Int) (res : RunResult) (hpc : p.pc = .setLastRun n res)
      (hfailed : res.status ≠ .success) (hn : n < attempts job) :
      Move job trigger outcomes i p
        { p with pc := .backoff n res, lastRun := some (record job trigger res) }
  | lastFailure {p : Progress} (n : Int) (res : RunResult) (hpc : p.pc = .setLastRun n res)
      (hfailed : res.status ≠ .success) (hn : ¬ n < attempts job) :
      Move job trigger outcomes i p
        { p with pc := .attempt (n + 1) res, lastRun := some (record job trigger res) }
  | backoff {p : Progress} (n : Int) (res : RunResult) (hpc : p.pc = .backoff n res) :
      Move job trigger outcomes i p { p with pc := .attempt (n + 1) res }
  | raise {p : Progress} (res : RunResult) (hpc : p.pc = .finalCheck res)
      (hactive : i.active = true) (hfailed : res.status ≠ .success) :
      Move job trigger outcomes i p { p with pc := .alert res }
  | quiet {p : Progress} (res : RunResult) (hpc : p.pc = .finalCheck res)
      (hquiet : ¬ (i.active = true ∧ res.status ≠ .success)) :
      Move job trigger outcomes i p { p with pc := .signalDone }
  | alert {p : Progress} (res : RunResult) (hpc : p.pc = .alert res) :
      Move job trigger outcomes i p
        { p with pc := .signalDone, alerts := p.alerts ++ [failureAlert job i.clock res] }
  | signalDone {p : Progress} (hpc : p.pc = .signalDone) :
      Move job trigger outcomes i p { p with pc := .returned, done := true }

section Steps

variable {job : Job} {trigger : Trigger} {outcomes : ℕ → Outcome} {i : Input} {p q : Progress}

theorem move_of_advance (h : advance job trigger outcomes p i = some q) :
    Move job trigger outcomes i p q := by
  obtain ⟨⟨pc, effect⟩, hstep, rfl⟩ := Option.map_eq_some_iff.mp h
  cases hpc : p.pc with
  | attempt n res =>
      rw [hpc, step] at hstep
      split_ifs at hstep with hgo
      · cases hstep
        exact .attempt n res hpc hgo.1 hgo.2
      · cases hstep
        exact .giveUp n res hpc hgo
  | command n startedAt =>
      rw [hpc, step] at hstep
      cases hstep
      exact .command n startedAt hpc
  | insertRun n res =>
      rw [hpc, step] at hstep
      cases hstep
      exact .insertRun n res hpc
  | setLastRun n res =>
      rw [hpc, step] at hstep
      split_ifs at hstep with hsuccess hn
      · cases hstep
        exact .success n res hpc hsuccess
      · cases hstep
        exact .failure n res hpc hsuccess hn
      · cases hstep
        exact .lastFailure n res hpc hsuccess hn
  | backoff n res =>
      rw [hpc, step] at hstep
      cases hstep
      exact .backoff n res hpc
  | finalCheck res =>
      rw [hpc, step] at hstep
      split_ifs at hstep with hfailed
      · cases hstep
        exact .raise res hpc hfailed.1 hfailed.2
      · cases hstep
        exact .quiet res hpc hfailed
  | alert res =>
      rw [hpc, step] at hstep
      cases hstep
      exact .alert res hpc
  | signalDone =>
      rw [hpc, step] at hstep
      cases hstep
      exact .signalDone hpc
  | returned =>
      rw [hpc, step] at hstep
      cases hstep

/-- An upper bound on the steps still to come. -/
def Pc.rank (job : Job) : Pc → ℕ
  | .attempt n _ => 5 * (attempts job + 1 - n).toNat + 4
  | .command n _ => 5 * (attempts job - n).toNat + 8
  | .insertRun n _ => 5 * (attempts job - n).toNat + 7
  | .setLastRun n _ => 5 * (attempts job - n).toNat + 6
  | .backoff n _ => 5 * (attempts job - n).toNat + 5
  | .finalCheck _ => 3
  | .alert _ => 2
  | .signalDone => 1
  | .returned => 0

end Steps

namespace Progress

/-- The records and the entry of `last_runs_` are those of the results. -/
def Written (job : Job) (trigger : Trigger) (lastRun : Option RunRecord) (p : Progress) : Prop :=
  p.records = p.results.map (record job trigger) ∧ p.lastRun = (p.records.getLast?).or lastRun

/-- What holds of an execution that stands at `pc`. -/
def Place (job : Job) (trigger : Trigger) (lastRun : Option RunRecord) (p : Progress) : Pc → Prop
  | .attempt n res => n = p.results.length + 1 ∧ p.started = p.results.length ∧
      res = p.result ∧ res.status ≠ .success ∧ p.Written job trigger lastRun
  | .command n _ => n = p.results.length + 1 ∧ p.started = p.results.length + 1 ∧
      n ≤ attempts job ∧ p.result.status ≠ .success ∧ p.Written job trigger lastRun
  | .insertRun n res => n = p.results.length ∧ p.started = p.results.length ∧
      ∃ before, p.results = before ++ [res] ∧ p.records = before.map (record job trigger)
  | .setLastRun n res => n = p.results.length ∧ p.started = p.results.length ∧
      ∃ before, p.results = before ++ [res] ∧ p.records = p.results.map (record job trigger)
  | .backoff n res => n = p.results.length ∧ p.started = p.results.length ∧
      res = p.result ∧ res.status ≠ .success ∧ p.Written job trigger lastRun
  | .finalCheck res => p.started = p.results.length ∧ res = p.result ∧
      p.Written job trigger lastRun
  | .alert res => p.started = p.results.length ∧ res = p.result ∧ res.status ≠ .success ∧
      p.Written job trigger lastRun
  | .signalDone => p.started = p.results.length ∧ p.Written job trigger lastRun
  | .returned => p.started = p.results.length ∧ p.Written job trigger lastRun

/-- What holds of every execution. -/
structure Kept (job : Job) (trigger : Trigger) (outcomes : ℕ → Outcome)
    (lastRun : Option RunRecord) (p : Progress) : Prop where
  results : ∀ n res, p.results[n]? = some res →
    ∃ startedAt endedAt, res = commandResult (outcomes n) startedAt endedAt
  failed : ∀ n, n + 1 < p.results.length → (outcomes n).status ≠ .success
  bound : (p.results.length : Int) ≤ attempts job
  done : p.done = true ↔ p.pc = .returned
  silent : p.alerts = [] ∨ p.pc = .signalDone ∨ p.pc = .returned
  place : p.Place job trigger lastRun p.pc

theorem kept_initial {job : Job} (hretries : 0 ≤ job.retries.toInt) (trigger : Trigger)
    (outcomes : ℕ → Outcome) (lastRun : Option RunRecord) :
    (initial lastRun).Kept job trigger outcomes lastRun where
  results := by simp [initial]
  failed := by simp [initial]
  bound := by
    have hattempts : attempts job = job.retries.toInt + 1 := rfl
    simp only [initial, List.length_nil]
    omega
  done := by simp [initial, start]
  silent := Or.inl rfl
  place := ⟨rfl, rfl, rfl, by decide, rfl, rfl⟩

/-- The result of the last command is that of its outcome. -/
theorem Kept.result_status {job : Job} {trigger : Trigger} {outcomes : ℕ → Outcome}
    {lastRun : Option RunRecord} {p : Progress} (h : p.Kept job trigger outcomes lastRun)
    (hpos : 0 < p.results.length) :
    p.result.status = (outcomes (p.results.length - 1)).status := by
  have hlast : p.results[p.results.length - 1]? = some p.result := by
    rw [← List.getLast?_eq_getElem?, List.getLast?_eq_some_getLast (List.ne_nil_of_length_pos hpos),
      result, List.getLastD_eq_getLast?, List.getLast?_eq_some_getLast
      (List.ne_nil_of_length_pos hpos)]
    rfl
  obtain ⟨startedAt, endedAt, heq⟩ := h.results _ _ hlast
  rw [heq]
  rfl

end Progress

section Invariant

variable {job : Job} {trigger : Trigger} {outcomes : ℕ → Outcome} {i : Input}
  {lastRun : Option RunRecord} {p q : Progress}

/-- A step that ends no command and raises no alert. -/
theorem Progress.Kept.move (h : p.Kept job trigger outcomes lastRun)
    (hresults : q.results = p.results) (halerts : q.alerts = p.alerts) (hdone : q.done = p.done)
    (hbefore : p.pc ≠ .signalDone ∧ p.pc ≠ .returned) (hpc : q.pc ≠ .returned)
    (hplace : q.Place job trigger lastRun q.pc) : q.Kept job trigger outcomes lastRun := by
  have hsilent : p.alerts = [] := by simpa [hbefore] using h.silent
  refine ⟨?_, ?_, ?_, ?_, Or.inl (halerts.trans hsilent), hplace⟩
  · rw [hresults]
    exact h.results
  · rw [hresults]
    exact h.failed
  · rw [hresults]
    exact h.bound
  · rw [hdone, h.done]
    exact iff_of_false hbefore.2 hpc

/-- The end of a command adds the result of its outcome. -/
theorem Progress.Kept.command (h : p.Kept job trigger outcomes lastRun) {n startedAt : Int}
    (hpc : p.pc = .command n startedAt) (clock : Int) :
    Progress.Kept job trigger outcomes lastRun { p with
      pc := .insertRun n (commandResult (outcomes p.results.length) startedAt clock)
      results := p.results ++ [commandResult (outcomes p.results.length) startedAt clock] } := by
  have hplace := h.place
  rw [hpc] at hplace
  obtain ⟨rfl, hstarted, hn, hfailed, hwritten⟩ := hplace
  have halerts : p.alerts = [] := by simpa [hpc] using h.silent
  refine ⟨?_, ?_, ?_, by simp [h.done, hpc], Or.inl halerts, ?_⟩
  · intro m res hget
    rw [List.getElem?_append] at hget
    split_ifs at hget with hlt
    · exact h.results m res hget
    · obtain ⟨hm, rfl⟩ := List.getElem?_eq_some_iff.mp hget
      have heq : m = p.results.length := by simp at hm; omega
      subst heq
      exact ⟨startedAt, clock, by simp⟩
  · intro m hm
    simp only [List.length_append, List.length_singleton] at hm
    by_cases hlt : m + 1 < p.results.length
    · exact h.failed m hlt
    · have hpos : 0 < p.results.length := by omega
      rw [h.result_status hpos] at hfailed
      rwa [show m = p.results.length - 1 by omega]
  · simpa using hn
  · exact ⟨by simp, by simp [hstarted], p.results, rfl, hwritten.1⟩

theorem kept_advance (h : p.Kept job trigger outcomes lastRun)
    (hstep : advance job trigger outcomes p i = some q) :
    q.Kept job trigger outcomes lastRun := by
  have hplace := h.place
  cases move_of_advance hstep with
  | attempt n res hpc hn hactive =>
      rw [hpc] at hplace
      obtain ⟨rfl, hstarted, rfl, hfailed, hwritten⟩ := hplace
      refine h.move rfl rfl rfl (by simp [hpc]) (by simp) ?_
      exact ⟨rfl, by simp [hstarted], hn, hfailed, hwritten⟩
  | giveUp n res hpc hstop =>
      rw [hpc] at hplace
      obtain ⟨rfl, hstarted, rfl, hfailed, hwritten⟩ := hplace
      refine h.move rfl rfl rfl (by simp [hpc]) (by simp) ?_
      exact ⟨hstarted, rfl, hwritten⟩
  | command n startedAt hpc => exact h.command hpc i.clock
  | insertRun n res hpc =>
      rw [hpc] at hplace
      obtain ⟨hn, hstarted, before, hresults, hrecords⟩ := hplace
      refine h.move rfl rfl rfl (by simp [hpc]) (by simp) ?_
      exact ⟨hn, hstarted, before, hresults, by simp [hresults, hrecords]⟩
  | success n res hpc hsuccess =>
      rw [hpc] at hplace
      obtain ⟨hn, hstarted, before, hresults, hrecords⟩ := hplace
      refine h.move rfl rfl rfl (by simp [hpc]) (by simp) ?_
      exact ⟨hstarted, by simp [Progress.result, hresults],
        hrecords, by simp [hrecords, hresults]⟩
  | failure n res hpc hfailed hn =>
      rw [hpc] at hplace
      obtain ⟨heq, hstarted, before, hresults, hrecords⟩ := hplace
      refine h.move rfl rfl rfl (by simp [hpc]) (by simp) ?_
      exact ⟨heq, hstarted, by simp [Progress.result, hresults], hfailed,
        hrecords, by simp [hrecords, hresults]⟩
  | lastFailure n res hpc hfailed hn =>
      rw [hpc] at hplace
      obtain ⟨rfl, hstarted, before, hresults, hrecords⟩ := hplace
      refine h.move rfl rfl rfl (by simp [hpc]) (by simp) ?_
      exact ⟨rfl, hstarted, by simp [Progress.result, hresults], hfailed,
        hrecords, by simp [hrecords, hresults]⟩
  | backoff n res hpc =>
      rw [hpc] at hplace
      obtain ⟨rfl, hstarted, rfl, hfailed, hwritten⟩ := hplace
      refine h.move rfl rfl rfl (by simp [hpc]) (by simp) ?_
      exact ⟨rfl, hstarted, rfl, hfailed, hwritten⟩
  | raise res hpc hactive hfailed =>
      rw [hpc] at hplace
      obtain ⟨hstarted, rfl, hwritten⟩ := hplace
      refine h.move rfl rfl rfl (by simp [hpc]) (by simp) ?_
      exact ⟨hstarted, rfl, hfailed, hwritten⟩
  | quiet res hpc hquiet =>
      rw [hpc] at hplace
      obtain ⟨hstarted, rfl, hwritten⟩ := hplace
      refine h.move rfl rfl rfl (by simp [hpc]) (by simp) ?_
      exact ⟨hstarted, hwritten⟩
  | alert res hpc =>
      rw [hpc] at hplace
      obtain ⟨hstarted, rfl, hfailed, hwritten⟩ := hplace
      exact ⟨h.results, h.failed, h.bound, by simp [h.done, hpc], by simp, hstarted, hwritten⟩
  | signalDone hpc =>
      rw [hpc] at hplace
      exact ⟨h.results, h.failed, h.bound, by simp, by simp, hplace⟩

theorem kept_of_run (hretries : 0 ≤ job.retries.toInt) {labels : List Input}
    (h : Run (advance job trigger outcomes) free (.initial lastRun) labels p) :
    p.Kept job trigger outcomes lastRun :=
  h.invariant (fun _ _ _ hs _ hstep => kept_advance hs hstep)
    (Progress.kept_initial hretries trigger outcomes lastRun)

end Invariant

/-- How an execution ends that never sees `active_` cleared. -/
def Progress.Decided (job : Job) (p : Progress) : Pc → Prop
  | .finalCheck res => res.status = .success ∨ (p.results.length : Int) = attempts job
  | .alert _ => (p.results.length : Int) = attempts job
  | .signalDone | .returned =>
      p.result.status = .success ∧ p.alerts = [] ∨
        p.result.status ≠ .success ∧ (p.results.length : Int) = attempts job ∧
          ∃ clock, p.alerts = [failureAlert job clock p.result]
  | _ => True

section Endings

variable {job : Job} {trigger : Trigger} {outcomes : ℕ → Outcome} {i : Input}
  {lastRun : Option RunRecord} {p q : Progress} {labels : List Input}

theorem decided_advance (hkept : p.Kept job trigger outcomes lastRun) (h : p.Decided job p.pc)
    (hactive : i.active = true) (hstep : advance job trigger outcomes p i = some q) :
    q.Decided job q.pc := by
  have hplace := hkept.place
  have hbound := hkept.bound
  cases move_of_advance hstep with
  | giveUp n res hpc hstop =>
      rw [hpc] at hplace
      obtain ⟨rfl, _⟩ := hplace
      have hend : ¬ ((p.results.length : Int) + 1 ≤ attempts job) := fun hn => hstop ⟨hn, hactive⟩
      exact Or.inr (by simp only; omega)
  | success n res hpc hsuccess => exact Or.inl hsuccess
  | raise res hpc hactive hfailed =>
      rw [hpc] at h
      exact h.resolve_left hfailed
  | quiet res hpc hquiet =>
      rw [hpc] at hplace
      obtain ⟨_, rfl, _⟩ := hplace
      have hsuccess : p.result.status = .success := by simpa [hactive] using hquiet
      exact Or.inl ⟨hsuccess, by simpa [hpc] using hkept.silent⟩
  | alert res hpc =>
      rw [hpc] at hplace h
      obtain ⟨_, rfl, hfailed, _⟩ := hplace
      have halerts : p.alerts = [] := by simpa [hpc] using hkept.silent
      exact Or.inr ⟨hfailed, h, i.clock, by simp [halerts, Progress.result]⟩
  | signalDone hpc =>
      rw [hpc] at h
      exact h
  | _ => exact trivial

theorem decided_of_run (hretries : 0 ≤ job.retries.toInt)
    (h : Run (advance job trigger outcomes) free (.initial lastRun) labels p)
    (hactive : ∀ i ∈ labels, i.active = true) : p.Decided job p.pc := by
  have hguarded : Run (advance job trigger outcomes) (fun _ i => i.active = true)
      (.initial lastRun) labels p := h.of_labels fun i hi _ => hactive i hi
  have hboth := hguarded.invariant
    (I := fun p => p.Kept job trigger outcomes lastRun ∧ p.Decided job p.pc)
    (fun _ _ _ hs hok hstep => ⟨kept_advance hs.1 hstep, decided_advance hs.1 hs.2 hok hstep⟩)
    ⟨Progress.kept_initial hretries trigger outcomes lastRun, trivial⟩
  exact hboth.2

/-- An execution that was not stopped has run the command at least once. -/
theorem results_pos (hretries : 0 ≤ job.retries.toInt)
    (hdecided : p.Decided job .returned) : 0 < p.results.length := by
  have hattempts : attempts job = job.retries.toInt + 1 := rfl
  obtain ⟨hsuccess, _⟩ | ⟨_, hall, _⟩ := hdecided
  · apply List.length_pos_of_ne_nil
    intro hnil
    rw [Progress.result, hnil] at hsuccess
    cases hsuccess
  · omega

end Endings

end AgentPulse.Worker
