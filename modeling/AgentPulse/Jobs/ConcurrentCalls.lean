import AgentPulse.Jobs.Restart
import AgentPulse.Jobs.Steps

/-!
# Concurrent additions and removals

`add_job` and `remove_job` check the name in one critical section and write in
two later ones. A call that passes its check while another call for the same
name is still writing acts on a stale answer, and two such additions leave the
job twice. Apart from these overlaps the names stay unique and the table
follows the live jobs.
-/

namespace AgentPulse.Scheduler

open Transition

/-- The name of a call that has passed its check and not finished its writes. -/
def CallPc.pending : CallPc → Option Bytes
  | .addPersist stored => some stored.name
  | .addUpdate stored => some stored.name
  | .removeDelete name => some name
  | .removeUpdate name => some name
  | _ => none

/-- The job of an addition that begins with the step. -/
def Label.added : Label → Option Job
  | .begin _ (.addJob job) => some job
  | _ => none

/-- An addition passes its check only while no other call for its name is
writing, and its name has no NUL byte. -/
def AddsAlone (s : State) (label : Label) : Prop :=
  ∀ job ∈ label.added, JobSet.addJobCheck s.jobs job = none →
    cString job.name = job.name ∧ ∀ other, (s.calls other).pending ≠ some job.name

/-- The part of the state that calls check and write. -/
structure CallView where
  jobs : List Job
  table : JobTable
  calls : Nat → CallPc

def State.callView (s : State) : CallView := ⟨s.jobs, s.table, s.calls⟩

/-- A call that moves on without writing. -/
def CallView.go (v : CallView) (thread : Nat) (pc : CallPc) : CallView :=
  { v with calls := Function.update v.calls thread pc }

theorem CallView.go_calls (v : CallView) (thread k : Nat) (pc : CallPc) :
    (v.go thread pc).calls k = if k = thread then pc else v.calls k := by
  simp [CallView.go, Function.update_apply]

/-- The moves of the calls. A call that gives up after its check reports a
database failure. -/
inductive CallMove (added : Option Job) (v : CallView) : CallView → Prop
  | stay : CallMove added v v
  | idle (thread : Nat) (pc : CallPc) (hold : (v.calls thread).pending = none)
      (hnew : pc.pending = none) : CallMove added v (v.go thread pc)
  | passAdd (thread : Nat) (job : Job) (hadded : added = some job)
      (hidle : v.calls thread = .idle)
      (hcheck : JobSet.addJobCheck v.jobs job = none) :
      CallMove added v (v.go thread (.addPersist (JobSet.storedJob job)))
  | passRemove (thread : Nat) (name : Bytes) (hidle : v.calls thread = .idle)
      (hcheck : JobSet.removeJobCheck v.jobs name = none) :
      CallMove added v (v.go thread (.removeDelete name))
  | fail (thread : Nat) (hpersist : (∃ stored, v.calls thread = .addPersist stored) ∨
      ∃ name, v.calls thread = .removeDelete name) : CallMove added v (v.go thread .idle)
  | persist (thread : Nat) (stored : Job) (hcall : v.calls thread = .addPersist stored) :
      CallMove added v { v.go thread (.addUpdate stored) with
        table := v.table.upsert (defFromJob stored) }
  | register (thread : Nat) (stored : Job) (hcall : v.calls thread = .addUpdate stored) :
      CallMove added v { v.go thread (.publish (.addJob stored)) with jobs := v.jobs ++ [stored] }
  | delete (thread : Nat) (name : Bytes) (hcall : v.calls thread = .removeDelete name) :
      CallMove added v { v.go thread (.removeUpdate name) with table := v.table.delete name }
  | unregister (thread : Nat) (name : Bytes) (hcall : v.calls thread = .removeUpdate name) :
      CallMove added v { v.go thread (.publish (.removeJob name)) with
        jobs := v.jobs.filter fun job => job.name ≠ name }

section Simulation

variable {loc : LocalTime} {s t : State} {thread : Nat}

theorem BeginStep.callMove {call : ClientCall} (h : BeginStep s thread call t) :
    CallMove (Label.begin thread call).added s.callView t.callView := by
  cases h with
  | refuse call error hidle hfree => exact .stay
  | requestRun name hidle hfree hfind =>
      exact .idle thread _ (by simp [State.callView, hidle, CallPc.pending]) rfl
  | addJob job hidle hfree hcheck => exact .passAdd thread job rfl hidle hcheck
  | removeJob name hidle hfree hcheck => exact .passRemove thread name hidle hcheck

theorem CallStep.callMove (h : CallStep loc s thread t) :
    CallMove none s.callView t.callView := by
  cases h with
  | enqueue name hcall hfree =>
      exact .idle thread _ (by simp [State.callView, hcall, CallPc.pending]) rfl
  | notPersisted stored error hcall => exact .fail thread (Or.inl ⟨stored, hcall⟩)
  | persist stored hcall => exact .persist thread stored hcall
  | add stored hcall hfree => exact .register thread stored hcall
  | notDeleted name error hcall => exact .fail thread (Or.inr ⟨name, hcall⟩)
  | delete name hcall => exact .delete thread name hcall
  | remove name hcall hfree => exact .unregister thread name hcall
  | publish call hcall hfree =>
      exact .idle thread _ (by simp [State.callView, hcall, CallPc.pending]) rfl
  | setJobs call statuses hcall =>
      exact .idle thread _ (by simp [State.callView, hcall, CallPc.pending]) rfl

/-- The loop never writes what the calls check. -/
theorem LoopStep.callView_eq (h : LoopStep loc s t) : t.callView = s.callView := by
  obtain ⟨_, _, _, _, _, _, _, _, _, _, _, _, _, rfl⟩ := h.frame
  rfl

theorem StopStep.callView_eq (h : StopStep s t) : t.callView = s.callView := by
  obtain ⟨_, _, _, _, _, rfl⟩ := h.frame
  rfl

/-- Each step of the scheduler is a move of the calls. -/
theorem step_callMove {label : Label} (h : step loc s label = some t) :
    CallMove label.added s.callView t.callView := by
  cases step_cases h with
  | clock time | active hactive | start hactive hloop hstarter hstopper | notifyWake => exact .stay
  | stop hstep => exact hstep.callView_eq ▸ .stay
  | loop hstep => exact hstep.callView_eq ▸ .stay
  | starter next hscan =>
      obtain ⟨_, _, _, _, rfl⟩ := scanStep_frame hscan
      exact .stay
  | begin thread call hstep => exact hstep.callMove
  | call thread dbError hstep => exact hstep.callMove
  | worker id outcome dbOk hstep =>
      obtain ⟨_, _, _, _, _, _, _⟩ := hstep
      exact .stay

end Simulation

/-- The names are unique, and the table holds the names of the client's jobs
up to the writes that calls in progress still owe. -/
structure Consistent (config : List Bytes) (v : CallView) : Prop where
  nodup : (v.jobs.map Job.name).Nodup
  configured : ∀ n ∈ config, n ∈ v.jobs.map Job.name
  ui : ∀ job ∈ v.jobs, job.source = .ui ↔ job.name ∉ config
  noNul : ∀ n ∈ v.jobs.map Job.name, n ∉ config → cString n = n
  adding : ∀ k stored, v.calls k = .addPersist stored ∨ v.calls k = .addUpdate stored →
    stored.source = .ui ∧ cString stored.name = stored.name ∧
      stored.name ∉ v.jobs.map Job.name ∧
      ∀ other, (v.calls other).pending = some stored.name → other = k
  unwritten : ∀ k stored, v.calls k = .addPersist stored → stored.name ∉ v.table.names
  written : ∀ k stored, v.calls k = .addUpdate stored → stored.name ∈ v.table.names
  removing : ∀ k n, v.calls k = .removeDelete n ∨ v.calls k = .removeUpdate n →
    n ∉ config ∧ cString n = n
  deleted : ∀ k n, v.calls k = .removeUpdate n → n ∉ v.table.names
  stored : ∀ n ∈ v.table.names, n ∉ config → n ∈ v.jobs.map Job.name ∨
    ∃ k stored, v.calls k = .addUpdate stored ∧ stored.name = n
  live : ∀ n ∈ v.jobs.map Job.name, n ∉ config → n ∈ v.table.names ∨
    ∃ k, v.calls k = .removeUpdate n

/-- The job of an addition that has not finished its writes. -/
def CallPc.adding : CallPc → Option Job
  | .addPersist stored => some stored
  | .addUpdate stored => some stored
  | _ => none

/-- What is known about a call from the stage it has reached, given the live
names and the names of the table. -/
def CallOk (config jobs table : List Bytes) : CallPc → Prop
  | .addPersist stored => stored.source = .ui ∧ cString stored.name = stored.name ∧
      stored.name ∉ jobs ∧ stored.name ∉ table
  | .addUpdate stored => stored.source = .ui ∧ cString stored.name = stored.name ∧
      stored.name ∉ jobs ∧ stored.name ∈ table
  | .removeDelete name => name ∉ config ∧ cString name = name
  | .removeUpdate name => name ∉ config ∧ cString name = name ∧ name ∉ table
  | _ => True

/-- No other call is writing the name of an addition. -/
def CallView.Alone (v : CallView) : Prop :=
  ∀ k, ∀ stored ∈ (v.calls k).adding, ∀ other,
    (v.calls other).pending = some stored.name → other = k

section Consistency

variable {config : List Bytes} {v w : CallView} {thread : Nat}

theorem CallView.go_other {pc old : CallPc} {k : Nat} (h : v.calls k = old) (hne : k ≠ thread) :
    (v.go thread pc).calls k = old := by
  rw [CallView.go_calls, if_neg hne, h]

/-- The rows stay accounted for when a call moves that is not registering a job. -/
theorem stored_go {pc : CallPc} {n : Bytes} (hold : ∀ job, v.calls thread ≠ .addUpdate job)
    (h : ∃ k stored, v.calls k = .addUpdate stored ∧ stored.name = n) :
    ∃ k stored, (v.go thread pc).calls k = .addUpdate stored ∧ stored.name = n := by
  obtain ⟨k, stored, hcall, hname⟩ := h
  refine ⟨k, stored, CallView.go_other hcall ?_, hname⟩
  rintro rfl
  exact hold stored hcall

/-- The jobs stay accounted for when a call moves that is not unregistering one. -/
theorem live_go {pc : CallPc} {n : Bytes} (hold : v.calls thread ≠ .removeUpdate n)
    (h : ∃ k, v.calls k = .removeUpdate n) : ∃ k, (v.go thread pc).calls k = .removeUpdate n := by
  obtain ⟨k, hcall⟩ := h
  refine ⟨k, CallView.go_other hcall ?_⟩
  rintro rfl
  exact hold hcall

theorem CallPc.mem_adding {pc : CallPc} {stored : Job} :
    stored ∈ pc.adding ↔ pc = .addPersist stored ∨ pc = .addUpdate stored := by
  cases pc <;> simp [CallPc.adding, eq_comm]

theorem CallPc.pending_of_adding {pc : CallPc} {stored : Job} (h : stored ∈ pc.adding) :
    pc.pending = some stored.name := by
  obtain rfl | rfl := CallPc.mem_adding.mp h
  · rfl
  · rfl

theorem Consistent.call (h : Consistent config v) (k : Nat) :
    CallOk config (v.jobs.map Job.name) v.table.names (v.calls k) := by
  cases hcall : v.calls k with
  | addPersist stored =>
      obtain ⟨hsource, hnoNul, hfree, _⟩ := h.adding k stored (Or.inl hcall)
      exact ⟨hsource, hnoNul, hfree, h.unwritten k stored hcall⟩
  | addUpdate stored =>
      obtain ⟨hsource, hnoNul, hfree, _⟩ := h.adding k stored (Or.inr hcall)
      exact ⟨hsource, hnoNul, hfree, h.written k stored hcall⟩
  | removeDelete name => exact h.removing k name (Or.inl hcall)
  | removeUpdate name =>
      obtain ⟨hconfig, hnoNul⟩ := h.removing k name (Or.inr hcall)
      exact ⟨hconfig, hnoNul, h.deleted k name hcall⟩
  | _ => trivial

theorem Consistent.alone (h : Consistent config v) : v.Alone := fun k stored hadding =>
  (h.adding k stored (CallPc.mem_adding.mp hadding)).2.2.2

/-- The invariant, with what it says about calls put together call by call. -/
theorem Consistent.of_calls (hnodup : (v.jobs.map Job.name).Nodup)
    (hconfigured : ∀ n ∈ config, n ∈ v.jobs.map Job.name)
    (hui : ∀ job ∈ v.jobs, job.source = .ui ↔ job.name ∉ config)
    (hnoNul : ∀ n ∈ v.jobs.map Job.name, n ∉ config → cString n = n)
    (hcall : ∀ k, CallOk config (v.jobs.map Job.name) v.table.names (v.calls k))
    (halone : v.Alone)
    (hstored : ∀ n ∈ v.table.names, n ∉ config → n ∈ v.jobs.map Job.name ∨
      ∃ k stored, v.calls k = .addUpdate stored ∧ stored.name = n)
    (hlive : ∀ n ∈ v.jobs.map Job.name, n ∉ config → n ∈ v.table.names ∨
      ∃ k, v.calls k = .removeUpdate n) : Consistent config v := by
  have hof : ∀ k pc, v.calls k = pc → CallOk config (v.jobs.map Job.name) v.table.names pc :=
    fun k pc heq => heq ▸ hcall k
  refine ⟨hnodup, hconfigured, hui, hnoNul, ?_, ?_, ?_, ?_, ?_, hstored, hlive⟩
  · intro k stored hadding
    have hothers := halone k stored (CallPc.mem_adding.mpr hadding)
    obtain hk | hk := hadding
    · obtain ⟨hsource, hnul, hfree, _⟩ := hof k _ hk
      exact ⟨hsource, hnul, hfree, hothers⟩
    · obtain ⟨hsource, hnul, hfree, _⟩ := hof k _ hk
      exact ⟨hsource, hnul, hfree, hothers⟩
  · intro k stored hk
    exact (hof k _ hk).2.2.2
  · intro k stored hk
    exact (hof k _ hk).2.2.2
  · rintro k n (hk | hk)
    · exact hof k _ hk
    · exact ⟨(hof k _ hk).1, (hof k _ hk).2.1⟩
  · intro k n hk
    exact (hof k _ hk).2.2

/-- The writes of another call do not concern a call with another name. A row
may go, unless the call is an addition that has written it. -/
theorem CallOk.frame {jobs jobs' table table' : List Bytes} {pc : CallPc}
    (h : CallOk config jobs table pc)
    (hjobs : ∀ n ∈ jobs', n ∈ jobs ∨ pc.pending ≠ some n)
    (hgain : ∀ n ∈ table', n ∈ table ∨ pc.pending ≠ some n)
    (hloss : ∀ stored ∈ pc.adding, stored.name ∈ table → stored.name ∈ table') :
    CallOk config jobs' table' pc := by
  cases pc with
  | addPersist stored =>
      obtain ⟨hsource, hnoNul, hfree, hrow⟩ := h
      refine ⟨hsource, hnoNul, fun hmem => ?_, fun hmem => ?_⟩
      · exact (hjobs _ hmem).elim hfree fun hne => hne rfl
      · exact (hgain _ hmem).elim hrow fun hne => hne rfl
  | addUpdate stored =>
      obtain ⟨hsource, hnoNul, hfree, hrow⟩ := h
      refine ⟨hsource, hnoNul, fun hmem => ?_, hloss stored rfl hrow⟩
      exact (hjobs _ hmem).elim hfree fun hne => hne rfl
  | removeDelete name => exact h
  | removeUpdate name =>
      obtain ⟨hconfig, hnoNul, hrow⟩ := h
      refine ⟨hconfig, hnoNul, fun hmem => ?_⟩
      exact (hgain _ hmem).elim hrow fun hne => hne rfl
  | _ => trivial

theorem callOk_of_pending {jobs table : List Bytes} {pc : CallPc} (h : pc.pending = none) :
    CallOk config jobs table pc := by
  cases pc with
  | idle | enqueue | publish | setJobs => trivial
  | _ => cases h

theorem callOk_go {jobs table : List Bytes} {pc : CallPc} (hnew : CallOk config jobs table pc)
    (hother : ∀ k, k ≠ thread → CallOk config jobs table (v.calls k)) (k : Nat) :
    CallOk config jobs table ((v.go thread pc).calls k) := by
  rw [CallView.go_calls]
  split_ifs with hk
  · exact hnew
  · exact hother k hk

/-- A call moves to a stage where it is writing a name that no addition writes. -/
theorem CallView.Alone.go (h : v.Alone) {pc : CallPc}
    (hnew : ∀ stored ∈ pc.adding, ∀ other, other ≠ thread →
      (v.calls other).pending ≠ some stored.name)
    (hold : ∀ k, k ≠ thread → ∀ stored ∈ (v.calls k).adding, pc.pending ≠ some stored.name) :
    (v.go thread pc).Alone := by
  intro k stored hadding other hpending
  rw [CallView.go_calls] at hadding hpending
  split_ifs at hadding hpending with hk hother hother
  · rw [hk, hother]
  · exact absurd hpending (hnew stored hadding other hother)
  · exact absurd hpending (hold k hk stored hadding)
  · exact h k stored hadding other hpending

/-- A call that goes on with its name, or is done with it. -/
theorem CallView.Alone.keep (h : v.Alone) {pc : CallPc}
    (hadding : ∀ stored ∈ pc.adding, stored ∈ (v.calls thread).adding)
    (hpending : ∀ n ∈ pc.pending, (v.calls thread).pending = some n) :
    (v.go thread pc).Alone := by
  apply h.go
  · intro stored hmem other hne heq
    exact hne (h thread stored (hadding stored hmem) other heq)
  · intro k hk stored hmem heq
    exact hk (h k stored hmem thread (hpending _ heq)).symm

/-- A call moves on without a write, and not from a stage that owes one. -/
theorem Consistent.go (h : Consistent config v) {pc : CallPc} (hpc : pc.pending = none)
    (hadd : ∀ job, v.calls thread ≠ .addUpdate job)
    (hremove : ∀ name, v.calls thread ≠ .removeUpdate name) :
    Consistent config (v.go thread pc) := by
  refine .of_calls h.nodup h.configured h.ui h.noNul ?_ ?_ ?_ ?_
  · exact callOk_go (callOk_of_pending hpc) fun k _ => h.call k
  · apply h.alone.keep
    · intro stored hmem
      rw [CallPc.pending_of_adding hmem] at hpc
      cases hpc
    · simp [hpc]
  · exact fun n hn hc => (h.stored n hn hc).imp_right (stored_go hadd)
  · exact fun n hn hc => (h.live n hn hc).imp_right (live_go (hremove n))

/-- An addition passes its check while no call for its name is writing. -/
theorem Consistent.passAdd (h : Consistent config v) {job : Job} (hidle : v.calls thread = .idle)
    (hcheck : JobSet.addJobCheck v.jobs job = none) (hnoNul : cString job.name = job.name)
    (halone : ∀ other, (v.calls other).pending ≠ some job.name) :
    Consistent config (v.go thread (.addPersist (JobSet.storedJob job))) := by
  have hfree := findJob_eq_none_iff.mp (JobSet.findJob_of_addJobCheck hcheck)
  have hrow : job.name ∉ v.table.names := by
    intro hmem
    obtain hjob | ⟨k, stored, hcall, hn⟩ := h.stored _ hmem fun hc => hfree (h.configured _ hc)
    · exact hfree hjob
    · exact halone k (by rw [hcall, CallPc.pending, hn])
  refine .of_calls h.nodup h.configured h.ui h.noNul ?_ ?_ ?_ ?_
  · exact callOk_go ⟨rfl, hnoNul, hfree, hrow⟩ fun k _ => h.call k
  · apply h.alone.go
    · intro stored hmem other _
      cases hmem
      exact halone other
    · intro k _ stored hmem heq
      have hname : job.name = stored.name := Option.some.inj heq
      exact halone k (hname ▸ CallPc.pending_of_adding hmem)
  · exact fun n hn hc => (h.stored n hn hc).imp_right (stored_go (by simp [hidle]))
  · exact fun n hn hc => (h.live n hn hc).imp_right (live_go (by simp [hidle]))

/-- A removal passes its check: the job is there and is the client's. -/
theorem Consistent.passRemove (h : Consistent config v) {name : Bytes}
    (hidle : v.calls thread = .idle) (hcheck : JobSet.removeJobCheck v.jobs name = none) :
    Consistent config (v.go thread (.removeDelete name)) := by
  obtain ⟨job, hfind, hsource⟩ := JobSet.removeJobCheck_eq_none_iff.mp hcheck
  obtain ⟨hmem, rfl⟩ := findJob_mem hfind
  have hjob : job.name ∈ v.jobs.map Job.name := List.mem_map_of_mem hmem
  have hconfig : job.name ∉ config := (h.ui job hmem).mp hsource
  refine .of_calls h.nodup h.configured h.ui h.noNul ?_ ?_ ?_ ?_
  · exact callOk_go ⟨hconfig, h.noNul _ hjob hconfig⟩ fun k _ => h.call k
  · apply h.alone.go
    · intro stored hadding
      cases hadding
    · intro k _ stored hadding heq
      obtain ⟨_, _, hfree, _⟩ := h.adding k stored (CallPc.mem_adding.mp hadding)
      have hname : job.name = stored.name := Option.some.inj heq
      exact hfree (hname ▸ hjob)
  · exact fun n hn hc => (h.stored n hn hc).imp_right (stored_go (by simp [hidle]))
  · exact fun n hn hc => (h.live n hn hc).imp_right (live_go (by simp [hidle]))

theorem Consistent.persist (h : Consistent config v) {stored : Job}
    (hcall : v.calls thread = .addPersist stored) :
    Consistent config { v.go thread (.addUpdate stored) with
      table := v.table.upsert (defFromJob stored) } := by
  obtain ⟨hsource, hnoNul, hfree, halone⟩ := h.adding thread stored (Or.inl hcall)
  have hnames : ∀ n, n ∈ (v.table.upsert (defFromJob stored)).names ↔
      n ∈ v.table.names ∨ n = stored.name := by
    intro n
    rw [JobTable.mem_upsert_names, show (defFromJob stored).name = stored.name from rfl, hnoNul]
  refine .of_calls h.nodup h.configured h.ui h.noNul ?_ ?_ ?_ ?_
  · apply callOk_go
    · exact ⟨hsource, hnoNul, hfree, (hnames _).mpr (Or.inr rfl)⟩
    · intro k hk
      apply (h.call k).frame
      · exact fun n hn => Or.inl hn
      · intro n hn
        obtain hold | rfl := (hnames n).mp hn
        · exact Or.inl hold
        · exact Or.inr fun hpending => hk (halone k hpending)
      · exact fun _ _ hrow => (hnames _).mpr (Or.inl hrow)
  · apply h.alone.keep
    · simp [hcall, CallPc.adding]
    · simp [hcall, CallPc.pending]
  · intro n hn hc
    obtain hold | rfl := (hnames n).mp hn
    · exact (h.stored n hold hc).imp_right (stored_go (by simp [hcall]))
    · exact Or.inr ⟨thread, stored, by simp [CallView.go_calls], rfl⟩
  · intro n hn hc
    obtain hrow | hk := h.live n hn hc
    · exact Or.inl ((hnames n).mpr (Or.inl hrow))
    · exact Or.inr (live_go (by simp [hcall]) hk)

theorem Consistent.register (h : Consistent config v) {stored : Job} {pc : CallPc}
    (hpc : pc.pending = none) (hcall : v.calls thread = .addUpdate stored) :
    Consistent config { v.go thread pc with jobs := v.jobs ++ [stored] } := by
  obtain ⟨hsource, hnoNul, hfree, halone⟩ := h.adding thread stored (Or.inr hcall)
  have hnames : ∀ n, n ∈ (v.jobs ++ [stored]).map Job.name ↔
      n ∈ v.jobs.map Job.name ∨ n = stored.name := by
    simp [or_comm, eq_comm]
  have hconfig : stored.name ∉ config := fun hc => hfree (h.configured _ hc)
  apply Consistent.of_calls
  · rw [List.map_append]
    exact List.Nodup.append h.nodup (by simp) (by simpa using hfree)
  · exact fun n hn => (hnames n).mpr (Or.inl (h.configured n hn))
  · intro job hjob
    obtain hold | hnew := List.mem_append.mp hjob
    · exact h.ui job hold
    · rw [List.mem_singleton.mp hnew]
      exact iff_of_true hsource hconfig
  · intro n hn hc
    obtain hold | rfl := (hnames n).mp hn
    · exact h.noNul n hold hc
    · exact hnoNul
  · apply callOk_go (callOk_of_pending hpc)
    intro k hk
    apply (h.call k).frame
    · intro n hn
      obtain hold | rfl := (hnames n).mp hn
      · exact Or.inl hold
      · exact Or.inr fun hpending => hk (halone k hpending)
    · exact fun n hn => Or.inl hn
    · exact fun _ _ hrow => hrow
  · apply h.alone.keep
    · intro job hmem
      rw [CallPc.pending_of_adding hmem] at hpc
      cases hpc
    · simp [hpc]
  · intro n hn hc
    obtain hjob | ⟨k, job, hk, hname⟩ := h.stored n hn hc
    · exact Or.inl ((hnames n).mpr (Or.inl hjob))
    · by_cases heq : k = thread
      · rw [heq, hcall] at hk
        cases hk
        exact Or.inl ((hnames n).mpr (Or.inr hname.symm))
      · exact Or.inr ⟨k, job, CallView.go_other hk heq, hname⟩
  · intro n hn hc
    obtain hold | rfl := (hnames n).mp hn
    · exact (h.live n hold hc).imp_right (live_go (by simp [hcall]))
    · exact Or.inl (h.written thread stored hcall)

theorem Consistent.delete (h : Consistent config v) {name : Bytes}
    (hcall : v.calls thread = .removeDelete name) :
    Consistent config { v.go thread (.removeUpdate name) with
      table := v.table.delete name } := by
  obtain ⟨hconfig, hnoNul⟩ := h.removing thread name (Or.inl hcall)
  have hnames : ∀ n, n ∈ (v.table.delete name).names ↔ n ∈ v.table.names ∧ n ≠ name := by
    intro n
    rw [JobTable.mem_delete_names, hnoNul]
  refine .of_calls h.nodup h.configured h.ui h.noNul ?_ ?_ ?_ ?_
  · apply callOk_go
    · exact ⟨hconfig, hnoNul, fun hmem => ((hnames name).mp hmem).2 rfl⟩
    · intro k hk
      apply (h.call k).frame
      · exact fun n hn => Or.inl hn
      · exact fun n hn => Or.inl ((hnames n).mp hn).1
      · rintro stored hadding hrow
        refine (hnames _).mpr ⟨hrow, fun heq => hk ?_⟩
        exact (h.alone k stored hadding thread (by rw [hcall, CallPc.pending, heq])).symm
  · apply h.alone.keep
    · simp [CallPc.adding]
    · simp [hcall, CallPc.pending]
  · intro n hn hc
    exact (h.stored n ((hnames n).mp hn).1 hc).imp_right (stored_go (by simp [hcall]))
  · intro n hn hc
    by_cases heq : n = name
    · exact Or.inr ⟨thread, by simp [CallView.go_calls, heq]⟩
    · obtain hrow | hk := h.live n hn hc
      · exact Or.inl ((hnames n).mpr ⟨hrow, heq⟩)
      · exact Or.inr (live_go (by simp [hcall]) hk)

theorem Consistent.unregister (h : Consistent config v) {name : Bytes} {pc : CallPc}
    (hpc : pc.pending = none) (hcall : v.calls thread = .removeUpdate name) :
    Consistent config { v.go thread pc with
      jobs := v.jobs.filter fun job => job.name ≠ name } := by
  have hnames : ∀ n, n ∈ (v.jobs.filter fun job => job.name ≠ name).map Job.name ↔
      n ∈ v.jobs.map Job.name ∧ n ≠ name := by
    intro n
    simp only [List.mem_map, List.mem_filter, decide_eq_true_eq]
    constructor
    · rintro ⟨job, ⟨hjob, hne⟩, rfl⟩
      exact ⟨⟨job, hjob, rfl⟩, hne⟩
    · rintro ⟨⟨job, hjob, rfl⟩, hne⟩
      exact ⟨job, ⟨hjob, hne⟩, rfl⟩
  have hconfig := (h.removing thread name (Or.inr hcall)).1
  have hrow := h.deleted thread name hcall
  apply Consistent.of_calls
  · exact (List.filter_sublist.map Job.name).nodup h.nodup
  · intro n hn
    refine (hnames n).mpr ⟨h.configured n hn, ?_⟩
    rintro rfl
    exact hconfig hn
  · exact fun job hjob => h.ui job (List.mem_filter.mp hjob).1
  · exact fun n hn => h.noNul n ((hnames n).mp hn).1
  · apply callOk_go (callOk_of_pending hpc)
    intro k _
    apply (h.call k).frame
    · exact fun n hn => Or.inl ((hnames n).mp hn).1
    · exact fun n hn => Or.inl hn
    · exact fun _ _ hrow => hrow
  · apply h.alone.keep
    · intro job hmem
      rw [CallPc.pending_of_adding hmem] at hpc
      cases hpc
    · simp [hpc]
  · intro n hn hc
    obtain hjob | hk := h.stored n hn hc
    · exact Or.inl ((hnames n).mpr ⟨hjob, fun heq => hrow (heq ▸ hn)⟩)
    · exact Or.inr (stored_go (by simp [hcall]) hk)
  · intro n hn hc
    obtain ⟨hjob, hne⟩ := (hnames n).mp hn
    exact (h.live n hjob hc).imp_right (live_go (by simp [hcall, Ne.symm hne]))

theorem Consistent.move (h : Consistent config v) {added : Option Job}
    (hmove : CallMove added v w)
    (halone : ∀ job ∈ added, JobSet.addJobCheck v.jobs job = none →
      cString job.name = job.name ∧ ∀ other, (v.calls other).pending ≠ some job.name) :
    Consistent config w := by
  cases hmove with
  | stay => exact h
  | idle thread pc hold hnew =>
      refine h.go hnew (fun job hcall => ?_) fun name hcall => ?_ <;>
        simp [hcall, CallPc.pending] at hold
  | passAdd thread job hadded hidle hcheck =>
      obtain ⟨hnoNul, hothers⟩ := halone job hadded hcheck
      exact h.passAdd hidle hcheck hnoNul hothers
  | passRemove thread name hidle hcheck => exact h.passRemove hidle hcheck
  | fail thread hpersist =>
      obtain ⟨stored, hcall⟩ | ⟨name, hcall⟩ := hpersist <;>
        exact h.go rfl (by simp [hcall]) (by simp [hcall])
  | persist thread stored hcall => exact h.persist hcall
  | register thread stored hcall => exact h.register rfl hcall
  | delete thread name hcall => exact h.delete hcall
  | unregister thread name hcall => exact h.unregister rfl hcall

end Consistency

section Runs

variable {loc : LocalTime} {config : List Job} {table : JobTable}
  {lastRun : Bytes → Option RunRecord} {now : ℕ} {labels : List Label} {s : State}

theorem consistent_initial (hsource : ∀ job ∈ config, job.source = .config)
    (hc : (config.map Job.name).Nodup) :
    Consistent (config.map Job.name) (initial loc config table lastRun now).callView := by
  have hagrees : JobSet.Agrees config (JobSet.construct loc config table lastRun now) :=
    JobSet.agrees_construct table lastRun now
  have hnames := fun n => hagrees.mem_names (n := n)
  have hcalls : ∀ k, (initial loc config table lastRun now).callView.calls k = .idle := fun _ => rfl
  refine ⟨hagrees.nodup hc, fun n hn => (hnames n).mpr (Or.inl hn), ?_, ?_, ?_, ?_, ?_, ?_, ?_,
    fun n hn _ => Or.inl ((hnames n).mpr (Or.inr hn)),
    fun n hn hconfig => Or.inl (((hnames n).mp hn).resolve_left hconfig)⟩
  · intro job hjob
    obtain hmem | hmem := List.mem_append.mp (hagrees.mem_iff.mp hjob)
    · have hname : job.name ∈ config.map Job.name := List.mem_map_of_mem hmem
      simp [hsource job hmem, hname]
    · obtain ⟨row, hrow, rfl⟩ := List.mem_map.mp hmem
      have hfree := (List.mem_filter.mp hrow).2
      exact iff_of_true rfl (by simpa [jobFromDef] using hfree)
  · intro n hn hconfig
    exact JobTable.cString_of_mem_names (((hnames n).mp hn).resolve_left hconfig)
  all_goals simp [hcalls]

/-- If no addition passes its check while another call for its name is writing,
the live names are always unique, and whenever no call is in progress the names
of the client's jobs are those of the table that are not configured. -/
theorem names_unique_of_run (hsource : ∀ job ∈ config, job.source = .config)
    (hc : (config.map Job.name).Nodup)
    (h : Run (step loc) AddsAlone (initial loc config table lastRun now) labels s) :
    (s.jobs.map Job.name).Nodup ∧
      ((∀ thread, s.calls thread = .idle) → ∀ n,
        n ∈ (s.jobs.filter fun job => job.source = .ui).map Job.name ↔
          n ∈ s.table.names ∧ n ∉ config.map Job.name) := by
  have hinv : Consistent (config.map Job.name) s.callView := by
    refine h.invariant (I := fun s => Consistent (config.map Job.name) s.callView) ?_
      (consistent_initial hsource hc)
    intro s label t hinv halone hstep
    exact hinv.move (step_callMove hstep) halone
  refine ⟨hinv.nodup, fun hidle n => ⟨fun hn => ?_, fun ⟨hrow, hconfig⟩ => ?_⟩⟩
  · obtain ⟨job, hjob, rfl⟩ := List.mem_map.mp hn
    obtain ⟨hmem, hui⟩ := List.mem_filter.mp hjob
    have hconfig := (hinv.ui job hmem).mp (by simpa using hui)
    obtain hrow | ⟨k, hcall⟩ := hinv.live _ (List.mem_map_of_mem hmem) hconfig
    · exact ⟨hrow, hconfig⟩
    · exact absurd ((hidle k).symm.trans hcall) (by simp)
  · obtain hmem | ⟨k, stored, hcall, _⟩ := hinv.stored n hrow hconfig
    · obtain ⟨job, hjob, rfl⟩ := List.mem_map.mp hmem
      have hui := (hinv.ui job hjob).mpr hconfig
      exact List.mem_map_of_mem (List.mem_filter.mpr ⟨hjob, by simpa using hui⟩)
    · exact absurd ((hidle k).symm.trans hcall) (by simp)

/-- A job without a schedule that a client adds. -/
def addedJob : Job := { name := text "a", command := text "true" }

/-- A scheduler whose configuration has one other job. -/
def configuredOnly : State :=
  initial midnight [{ name := text "b", command := text "date" }] JobTable.empty (fun _ => none) 0

/-- One addition from its check to its return. -/
theorem names_unique_of_run_added :
    ∃ s, Run (step midnight) AddsAlone configuredOnly
        (.begin 0 (.addJob addedJob) :: List.replicate 4 (.call 0 none)) s ∧
      (s.jobs.map Job.name).Nodup ∧
      (text "a" ∈ (s.jobs.filter fun job => job.source = .ui).map Job.name ↔
        text "a" ∈ s.table.names ∧ text "a" ∉ [text "b"]) ∧ text "a" ∈ s.table.names := by
  obtain ⟨s, hrun, hidle, hrow⟩ :
      ∃ s, Run (step midnight) AddsAlone configuredOnly
          (.begin 0 (.addJob addedJob) :: List.replicate 4 (.call 0 none)) s ∧
        (∀ thread, s.calls thread = .idle) ∧ text "a" ∈ s.table.names := by
    refine ⟨_, Run.cons ?_ rfl (Run.of_labels (Run.of_exec rfl) ?_), ?_, ?_⟩
    · intro job hjob _
      cases hjob
      exact ⟨by decide, fun other => by simp [configuredOnly, initial, CallPc.pending]⟩
    · intro label hlabel _ job hjob
      rw [List.eq_of_mem_replicate hlabel] at hjob
      cases hjob
    · intro thread
      cases thread <;> rfl
    · decide
  obtain ⟨hnodup, hagree⟩ := names_unique_of_run (by decide) (by decide) hrun
  exact ⟨s, hrun, hnodup, hagree hidle (text "a"), hrow⟩

/-- Two threads add a job of one name, and both pass the check before either
writes: the live jobs end up with two jobs of that name. -/
theorem added_twice :
    ∃ labels s, Run (step midnight) free configuredOnly labels s ∧
      (configuredOnly.jobs.map Job.name).Nodup ∧ ¬ (s.jobs.map Job.name).Nodup ∧
      ∀ thread, s.calls thread = .idle := by
  refine ⟨[.begin 0 (.addJob addedJob), .begin 1 (.addJob addedJob)] ++
    List.replicate 4 (.call 0 none) ++ List.replicate 4 (.call 1 none), _, Run.of_exec rfl,
    by decide, by decide, ?_⟩
  intro thread
  match thread with
  | 0 => rfl
  | 1 => rfl
  | n + 2 => rfl

end Runs

end AgentPulse.Scheduler
