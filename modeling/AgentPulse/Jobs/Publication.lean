import AgentPulse.Jobs.ConcurrentCalls
import AgentPulse.Jobs.Firing

/-!
# The published job list

`publish_status` takes its snapshot under `mutex_` and hands it over under the
lock of `SharedState`, and both the loop and the socket thread call it. A
snapshot the loop took before a client changed the jobs may therefore be handed
over after the client has published its own, and then the list goes back to the
jobs of before. When no such snapshot is in the hands of the loop at the return
of a call, the answer of that call stands.

## Implementation notes

Clients are served one after another, so every call is made on thread `0`.
-/

namespace AgentPulse.Scheduler

open Transition

/-- What a list of names shows of a write: the added name or not the removed one. -/
def JobWrite.Shows (names : List Bytes) : JobWrite → Prop
  | .register name => name ∈ names
  | .unregister name => name ∉ names

instance (names : List Bytes) : (write : JobWrite) → Decidable (write.Shows names)
  | .register name => inferInstanceAs (Decidable (name ∈ names))
  | .unregister name => inferInstanceAs (Decidable (name ∉ names))

/-- The write that takes another one back. -/
def JobWrite.opposite : JobWrite → JobWrite
  | .register name => .unregister name
  | .unregister name => .register name

/-- The names after a write. -/
def JobWrite.apply (names : List Bytes) : JobWrite → List Bytes
  | .register name => names ++ [name]
  | .unregister name => names.filter fun n => n ≠ name

/-- The write a call is made for. -/
def ClientCall.write : ClientCall → Option JobWrite
  | .requestRun _ => none
  | .addJob job => some (.register job.name)
  | .removeJob name => some (.unregister name)

/-- The write a call has before it. -/
def CallPc.write : CallPc → Option JobWrite
  | .addPersist stored => some (.register stored.name)
  | .addUpdate stored => some (.register stored.name)
  | .removeDelete name => some (.unregister name)
  | .removeUpdate name => some (.unregister name)
  | _ => none

/-- The names in the snapshot the loop has taken and not handed over. -/
def LoopPc.held : LoopPc → Option (List Bytes)
  | .setJobs statuses => some (statuses.map JobStatus.name)
  | _ => none

/-- The call that begins with the step, on its thread. -/
def Label.begun : Label → Option (Nat × ClientCall)
  | .begin thread c => some (thread, c)
  | _ => none

/-- The call for which the step hands over the list, and which then returns. -/
def State.returning (s : State) : Label → Option ClientCall
  | .call thread _ =>
      match s.calls thread with
      | .setJobs call _ => some call
      | _ => none
  | _ => none

/-- Clients are served one after another, on one thread. -/
def ServedInTurn (label : Label) : Prop := ∀ b ∈ label.begun, b.1 = 0

instance (label : Label) : Decidable (ServedInTurn label) :=
  inferInstanceAs (Decidable (∀ b ∈ label.begun, b.1 = 0))

/-- When a call returns, the loop does not hold a snapshot that does not show
its write. -/
def ReturnsFresh (s : State) (label : Label) : Prop :=
  ServedInTurn label ∧ ∀ call ∈ s.returning label, ∀ write ∈ call.write,
    ∀ names ∈ s.loop.held, write.Shows names

instance (s : State) (label : Label) : Decidable (ReturnsFresh s label) :=
  inferInstanceAs (Decidable (_ ∧ _))

/-- The step does not begin a call that takes the write back. -/
def Keeps (write : JobWrite) (label : Label) : Prop :=
  ∀ b ∈ label.begun, b.2.write ≠ some write.opposite

instance (write : JobWrite) (label : Label) : Decidable (Keeps write label) :=
  inferInstanceAs (Decidable (∀ b ∈ label.begun, _))

structure PublicationView where
  names : List Bytes
  published : List Bytes
  held : Option (List Bytes)
  calls : Nat → CallPc

def State.publication (s : State) : PublicationView where
  names := s.jobs.map Job.name
  published := s.published.map JobStatus.name
  held := s.loop.held
  calls := s.calls

def PublicationView.go (v : PublicationView) (thread : Nat) (pc : CallPc) : PublicationView :=
  { v with calls := Function.update v.calls thread pc }

theorem PublicationView.go_calls (v : PublicationView) (thread k : Nat) (pc : CallPc) :
    (v.go thread pc).calls k = if k = thread then pc else v.calls k := by
  simp [PublicationView.go, Function.update_apply]

/-- The moves of the published list. -/
inductive PublicationMove (begun : Option (Nat × ClientCall)) (v : PublicationView) :
    PublicationView → Prop
  | stay : PublicationMove begun v v
  | take : PublicationMove begun v { v with held := some v.names }
  | put (names : List Bytes) (hheld : v.held = some names) :
      PublicationMove begun v { v with published := names, held := none }
  | begin (thread : Nat) (call : ClientCall) (pc : CallPc) (hbegun : begun = some (thread, call))
      (hwrite : pc.write = call.write) (hnot : ∀ c, pc ≠ .publish c ∧ ∀ st, pc ≠ .setJobs c st) :
      PublicationMove begun v (v.go thread pc)
  | go (thread : Nat) (pc : CallPc) (hbusy : v.calls thread ≠ .idle)
      (hwrite : pc.write = none ∨ pc.write = (v.calls thread).write)
      (hnot : ∀ c, pc ≠ .publish c ∧ ∀ st, pc ≠ .setJobs c st) :
      PublicationMove begun v (v.go thread pc)
  | write (thread : Nat) (call : ClientCall) (write : JobWrite)
      (hold : (v.calls thread).write = some write) (hwrite : call.write = some write) :
      PublicationMove begun v { v.go thread (.publish call) with names := write.apply v.names }
  | snapshot (thread : Nat) (call : ClientCall) (statuses : List JobStatus)
      (hcall : v.calls thread = .publish call) (hnames : statuses.map JobStatus.name = v.names) :
      PublicationMove begun v (v.go thread (.setJobs call statuses))
  | ret (thread : Nat) (call : ClientCall) (statuses : List JobStatus)
      (hcall : v.calls thread = .setJobs call statuses) :
      PublicationMove begun v { v.go thread .idle with published := statuses.map JobStatus.name }

section Simulation

variable {loc : LocalTime} {s t : State} {begun : Option (Nat × ClientCall)}

theorem State.statuses_names (s : State) :
    s.statuses.map JobStatus.name = s.jobs.map Job.name := by
  rw [State.statuses, List.map_map]
  rfl

theorem LoopStep.publication (h : LoopStep loc s t) :
    PublicationMove begun s.publication t.publication := by
  have hframe : t.jobs = s.jobs ∧ t.calls = s.calls := by
    obtain ⟨_, _, _, _, _, _, _, _, _, _, _, _, _, rfl⟩ := h.frame
    exact ⟨rfl, rfl⟩
  have hstay : t.published = s.published → t.loop.held = s.loop.held →
      PublicationMove begun s.publication t.publication := by
    intro hpublished hheld
    convert PublicationMove.stay using 1
    simp [State.publication, hframe, hpublished, hheld]
  cases h with
  | reap hloop => exact hstay rfl (by simp [State.reap, LoopPc.held, hloop])
  | scan wall pc next hloop hscan =>
      obtain ⟨_, _, _, _, rfl⟩ := scanStep_frame hscan
      apply hstay rfl
      simp only
      split_ifs <;> simp [LoopPc.held, hloop]
  | launch entry rest hloop =>
      exact hstay rfl (by simp [State.launchEntry, LoopPc.held, hloop])
  | publish hloop =>
      convert PublicationMove.take using 1
      simp [State.publication, LoopPc.held, State.statuses_names]
  | setJobs statuses hloop =>
      have hheld : s.publication.held = some (statuses.map JobStatus.name) := by
        simp [State.publication, LoopPc.held, hloop]
      exact PublicationMove.put _ hheld
  | exit hloop | joined hloop | join _ _ hloop | gap hloop | wake hloop | awake hloop
  | lock _ hloop | drained _ _ _ hloop | drop _ _ _ _ _ hloop | defer _ _ _ _ _ hloop
  | place _ _ _ _ _ _ hloop | decided _ _ hloop | unscheduled _ _ _ _ hloop
  | unplanned _ _ _ _ _ hloop | later _ _ _ _ _ _ hloop | overlap _ _ _ _ _ _ hloop
  | fire _ _ _ _ _ _ hloop | launched hloop | startThread _ _ hloop =>
      exact hstay rfl (by simp [LoopPc.held, hloop])

theorem StopStep.publication (h : StopStep s t) :
    PublicationMove begun s.publication t.publication := by
  cases h with
  | joinLoop hstopper hloop =>
      convert PublicationMove.stay using 1
      simp [State.publication, LoopPc.held, hloop]
  | inactive | stop | takeTasks | joined | join => exact .stay

theorem BeginStep.publication {thread : Nat} {call : ClientCall} (h : BeginStep s thread call t) :
    PublicationMove (some (thread, call)) s.publication t.publication := by
  cases h with
  | refuse => exact .stay
  | requestRun | addJob | removeJob => exact .begin thread _ _ rfl rfl (by simp)

theorem CallStep.publication {thread : Nat} (h : CallStep loc s thread t) :
    PublicationMove begun s.publication t.publication := by
  cases h with
  | enqueue name hcall hfree =>
      exact .go thread .idle (by simp [State.publication, hcall]) (Or.inl rfl) (by simp)
  | notPersisted stored error hcall =>
      exact .go thread .idle (by simp [State.publication, hcall]) (Or.inl rfl) (by simp)
  | persist stored hcall =>
      exact .go thread (.addUpdate stored) (by simp [State.publication, hcall])
        (Or.inr (by simp [State.publication, hcall, CallPc.write])) (by simp)
  | add stored hcall hfree =>
      convert PublicationMove.write thread (.addJob stored) (.register stored.name) ?_ rfl using 1
      · simp [State.publication, PublicationView.go, JobSet.addJobUpdate, JobWrite.apply]
      · simp [State.publication, hcall, CallPc.write]
  | notDeleted name error hcall =>
      exact .go thread .idle (by simp [State.publication, hcall]) (Or.inl rfl) (by simp)
  | delete name hcall =>
      exact .go thread (.removeUpdate name) (by simp [State.publication, hcall])
        (Or.inr (by simp [State.publication, hcall, CallPc.write])) (by simp)
  | remove name hcall hfree =>
      convert PublicationMove.write thread (.removeJob name) (.unregister name) ?_ rfl using 1
      · simp [State.publication, PublicationView.go, JobSet.removeJobUpdate, JobWrite.apply,
          List.filter_map, Function.comp_def]
      · simp [State.publication, hcall, CallPc.write]
  | publish call hcall hfree => exact .snapshot thread call s.statuses hcall s.statuses_names
  | setJobs call statuses hcall => exact .ret thread call statuses hcall

/-- Each step of the scheduler is a move of the published list. -/
theorem step_publication {label : Label} (h : step loc s label = some t) :
    PublicationMove label.begun s.publication t.publication := by
  cases step_cases h with
  | clock | active | notifyWake => exact .stay
  | start hactive hloop hstarter hstopper =>
      convert PublicationMove.stay using 1
      simp [State.publication, LoopPc.held, hloop]
  | stop hstep => exact hstep.publication
  | loop hstep => exact hstep.publication
  | starter next hscan =>
      obtain ⟨_, _, _, _, rfl⟩ := scanStep_frame hscan
      exact .stay
  | begin thread call hstep => exact hstep.publication
  | call thread dbError hstep => exact hstep.publication
  | worker id outcome dbOk hstep =>
      obtain ⟨_, _, _, _, _, _, _⟩ := hstep
      exact .stay

end Simulation

section Shows

variable {write other : JobWrite} {names : List Bytes}

theorem JobWrite.shows_apply_self (write : JobWrite) (names : List Bytes) :
    write.Shows (write.apply names) := by
  cases write <;> simp [JobWrite.Shows, JobWrite.apply]

/-- Only the opposite write takes a write back. -/
theorem JobWrite.Shows.apply (h : write.Shows names) (hne : other ≠ write.opposite) :
    write.Shows (other.apply names) := by
  cases write with
  | register name =>
      cases other with
      | register added => exact List.mem_append_left _ h
      | unregister removed =>
          apply List.mem_filter.mpr
          refine ⟨h, decide_eq_true ?_⟩
          rintro rfl
          exact hne rfl
  | unregister name =>
      cases other with
      | register added =>
          intro hmem
          obtain hold | hnew := List.mem_append.mp hmem
          · exact h hold
          · rw [List.mem_singleton.mp hnew] at hne
            exact hne rfl
      | unregister removed =>
          intro hmem
          exact h (List.mem_filter.mp hmem).1

end Shows

/-- One client: the other threads are idle, and the list the client is about to
hand over shows what it has written. -/
structure OneClient (v : PublicationView) : Prop where
  others : ∀ k, k ≠ 0 → v.calls k = .idle
  written : ∀ call, v.calls 0 = .publish call → ∀ write ∈ call.write, write.Shows v.names
  taken : ∀ call statuses, v.calls 0 = .setJobs call statuses → ∀ write ∈ call.write,
    write.Shows v.names ∧ write.Shows (statuses.map JobStatus.name)

/-- The write stands: it shows in the jobs, in the published list and in every
list about to be published, and no call is about to take it back. -/
structure Stands (write : JobWrite) (v : PublicationView) : Prop where
  names : write.Shows v.names
  published : write.Shows v.published
  held : ∀ list ∈ v.held, write.Shows list
  taken : ∀ thread call statuses, v.calls thread = .setJobs call statuses →
    write.Shows (statuses.map JobStatus.name)
  pending : ∀ thread, (v.calls thread).write ≠ some write.opposite

section Invariants

variable {v w : PublicationView} {begun : Option (Nat × ClientCall)} {write : JobWrite}

/-- A step of a busy client is a step of thread `0`. -/
theorem OneClient.thread_eq (h : OneClient v) {thread : Nat} (hbusy : v.calls thread ≠ .idle) :
    thread = 0 := by
  by_contra hne
  exact hbusy (h.others thread hne)

theorem OneClient.of_go (h : OneClient v) (pc : CallPc)
    (hnot : ∀ c, pc ≠ .publish c ∧ ∀ st, pc ≠ .setJobs c st) : OneClient (v.go 0 pc) := by
  constructor
  · intro k hk
    rw [PublicationView.go_calls, if_neg hk]
    exact h.others k hk
  · intro call hcall
    rw [PublicationView.go_calls, if_pos rfl] at hcall
    exact absurd hcall (hnot call).1
  · intro call statuses hcall
    rw [PublicationView.go_calls, if_pos rfl] at hcall
    exact absurd hcall ((hnot call).2 statuses)

theorem OneClient.move (h : OneClient v) (hbegun : ∀ b ∈ begun, b.1 = 0)
    (hmove : PublicationMove begun v w) : OneClient w := by
  cases hmove with
  | stay => exact h
  | take => exact ⟨h.others, h.written, h.taken⟩
  | put names hheld => exact ⟨h.others, h.written, h.taken⟩
  | begin thread call pc hb hwrite hnot =>
      obtain rfl : thread = 0 := hbegun _ hb
      exact h.of_go pc hnot
  | go thread pc hbusy hwrite hnot =>
      obtain rfl := h.thread_eq hbusy
      exact h.of_go pc hnot
  | write thread call write hold hwrite =>
      obtain rfl : thread = 0 := by
        apply h.thread_eq
        intro hidle
        rw [hidle] at hold
        cases hold
      constructor
      · intro k hk
        exact (PublicationView.go_calls v 0 k _).trans ((if_neg hk).trans (h.others k hk))
      · intro call' hcall write' hwrite'
        rw [PublicationView.go_calls, if_pos rfl] at hcall
        cases hcall
        rw [hwrite] at hwrite'
        cases hwrite'
        exact write.shows_apply_self v.names
      · intro call' statuses hcall
        rw [PublicationView.go_calls, if_pos rfl] at hcall
        cases hcall
  | snapshot thread call statuses hcall hnames =>
      obtain rfl : thread = 0 := h.thread_eq (by simp [hcall])
      constructor
      · intro k hk
        rw [PublicationView.go_calls, if_neg hk]
        exact h.others k hk
      · intro call' hcall'
        rw [PublicationView.go_calls, if_pos rfl] at hcall'
        cases hcall'
      · intro call' statuses' hcall' write hwrite
        rw [PublicationView.go_calls, if_pos rfl] at hcall'
        cases hcall'
        have hshows := h.written call hcall write hwrite
        exact ⟨hshows, hnames ▸ hshows⟩
  | ret thread call statuses hcall =>
      obtain rfl : thread = 0 := h.thread_eq (by simp [hcall])
      have hidle := h.of_go .idle (by simp)
      exact ⟨hidle.others, hidle.written, hidle.taken⟩

/-- A call that returns leaves its write standing, unless the loop holds a list
from before. -/
theorem OneClient.stands (h : OneClient v) {thread : Nat} {call : ClientCall}
    {statuses : List JobStatus} (hcall : v.calls thread = .setJobs call statuses)
    (hwrite : call.write = some write) (hfresh : ∀ names ∈ v.held, write.Shows names) :
    Stands write { v.go thread .idle with published := statuses.map JobStatus.name } := by
  obtain rfl : thread = 0 := h.thread_eq (by simp [hcall])
  have hidle : ∀ k, (v.go 0 .idle).calls k = .idle := by
    intro k
    rw [PublicationView.go_calls]
    split_ifs with hk
    · rfl
    · exact h.others k hk
  obtain ⟨hnames, hstatuses⟩ := h.taken call statuses hcall write hwrite
  constructor
  · exact hnames
  · exact hstatuses
  · exact hfresh
  · intro k call' statuses' hcall'
    exact absurd ((hidle k).symm.trans hcall') (by simp)
  · intro k hpending
    have hnone : (((v.go 0 .idle).calls k).write) = none := by rw [hidle k]; rfl
    exact absurd (hnone.symm.trans hpending) (by simp)

theorem Stands.of_go (h : Stands write v) (thread : Nat) (pc : CallPc)
    (hpending : pc.write ≠ some write.opposite)
    (htaken : ∀ call statuses, pc = .setJobs call statuses →
      write.Shows (statuses.map JobStatus.name)) : Stands write (v.go thread pc) := by
  constructor
  · exact h.names
  · exact h.published
  · exact h.held
  · intro k call statuses hcall
    rw [PublicationView.go_calls] at hcall
    split_ifs at hcall
    · exact htaken call statuses hcall
    · exact h.taken k call statuses hcall
  · intro k
    rw [PublicationView.go_calls]
    split_ifs
    · exact hpending
    · exact h.pending k

theorem Stands.move (h : Stands write v) (hbegun : ∀ b ∈ begun, b.2.write ≠ some write.opposite)
    (hmove : PublicationMove begun v w) : Stands write w := by
  cases hmove with
  | stay => exact h
  | take =>
      refine ⟨h.names, h.published, ?_, h.taken, h.pending⟩
      rintro list ⟨⟩
      exact h.names
  | put names hheld => exact ⟨h.names, h.held names hheld, by simp, h.taken, h.pending⟩
  | begin thread call pc hb hwrite hnot =>
      apply h.of_go thread pc
      · rw [hwrite]
        exact hbegun _ hb
      · intro call' statuses hpc
        exact absurd hpc ((hnot call').2 statuses)
  | go thread pc hbusy hwrite hnot =>
      apply h.of_go thread pc
      · obtain hnone | hsame := hwrite
        · simp [hnone]
        · rw [hsame]
          exact h.pending thread
      · intro call statuses hpc
        exact absurd hpc ((hnot call).2 statuses)
  | write thread call other hold hwrite =>
      have hgo := h.of_go thread (.publish call) (by simp [CallPc.write]) (by simp)
      have hne : other ≠ write.opposite := by
        rintro rfl
        exact h.pending thread hold
      exact ⟨h.names.apply hne, hgo.published, hgo.held, hgo.taken, hgo.pending⟩
  | snapshot thread call statuses hcall hnames =>
      apply h.of_go thread (.setJobs call statuses)
      · simp [CallPc.write]
      · rintro call' statuses' ⟨⟩
        rw [hnames]
        exact h.names
  | ret thread call statuses hcall =>
      have hgo := h.of_go thread .idle (by simp [CallPc.write]) (by simp)
      exact ⟨hgo.names, h.taken thread call statuses hcall, hgo.held, hgo.taken, hgo.pending⟩

end Invariants

section Runs

variable {loc : LocalTime} {config : List Job} {table : JobTable}
  {lastRun : Bytes → Option RunRecord} {now : ℕ} {s m t : State} {labels later : List Label}

theorem oneClient_of_run
    (h : Run (step loc) ReturnsFresh (initial loc config table lastRun now) labels s) :
    OneClient s.publication := by
  apply h.invariant (I := fun s => OneClient s.publication)
  · intro s label t hinv hok hstep
    exact hinv.move hok.1 (step_publication hstep)
  · constructor <;> simp [initial, State.publication]

/-- A call that returns while the loop holds no older list leaves its write
standing. -/
theorem stands_of_return {label : Label} {call : ClientCall} {write : JobWrite}
    (hone : OneClient s.publication) (hfresh : ReturnsFresh s label)
    (hreturn : s.returning label = some call) (hwrite : call.write = some write)
    (hstep : step loc s label = some m) : Stands write m.publication := by
  unfold State.returning at hreturn
  split at hreturn
  · next thread dbError =>
      split at hreturn
      · next call' statuses hcall =>
          cases hreturn
          have hlists := hfresh.2 call (by simp [State.returning, hcall]) write hwrite
          have hstands := hone.stands hcall hwrite hlists
          unfold step at hstep
          split at hstep
          · cases hstep
          · simp only [callStep, hcall, Option.some.injEq] at hstep
            subst hstep
            exact hstands
      · cases hreturn
  · cases hreturn

/-- In every run in which no call returns while the loop holds a list from
before it: after `add_job` has returned the published list shows the job until
a removal of it begins, and after `remove_job` has returned it does not show
the job until an addition of it begins. -/
theorem published_follows_returns
    {label : Label} {call : ClientCall} {write : JobWrite}
    (hbefore : Run (step loc) ReturnsFresh (initial loc config table lastRun now) labels s)
    (hfresh : ReturnsFresh s label) (hreturn : s.returning label = some call)
    (hwrite : call.write = some write) (hstep : step loc s label = some m)
    (hafter : Run (step loc) (fun s label => ReturnsFresh s label ∧ Keeps write label) m later t) :
    write.Shows (t.published.map JobStatus.name) := by
  have hstands : Stands write t.publication := by
    apply hafter.invariant (I := fun s => Stands write s.publication)
    · intro s label t hinv hok hstep
      exact hinv.move hok.2 (step_publication hstep)
    · exact stands_of_return (oneClient_of_run hbefore) hfresh hreturn hwrite hstep
  exact hstands.published

/-- An addition from its check to the snapshot it hands over next. -/
def addUpToReturn : List Label := .begin 0 (.addJob addedJob) :: List.replicate 3 (.call 0 none)

/-- An addition returns between two ticks, and the next tick lists the job. -/
theorem published_follows_returns_added :
    ∃ s m t, Run (step midnight) ReturnsFresh configuredOnly (.start :: addUpToReturn) s ∧
      step midnight s (.call 0 none) = some m ∧
      Run (step midnight) (fun s label => ReturnsFresh s label ∧ Keeps (.register (text "a")) label)
        m (List.replicate 11 .loop) t ∧
      t.loop = .top ∧ (JobWrite.register (text "a")).Shows (t.published.map JobStatus.name) := by
  obtain ⟨s, hbefore, hs⟩ := Run.of_exec_any (step midnight) ReturnsFresh configuredOnly
    (.start :: addUpToReturn)
    (fun s => decide (ReturnsFresh s (.call 0 none) ∧
        s.returning (.call 0 none) = some (.addJob (JobSet.storedJob addedJob))) &&
      (step midnight s (.call 0 none)).any fun m => (exec (step midnight)
        (fun s label => ReturnsFresh s label ∧ Keeps (.register (text "a")) label) m
        (List.replicate 11 .loop)).any fun t : State => decide (t.loop = .top))
    (by decide +kernel)
  obtain ⟨hreturn, hlater⟩ := Bool.and_eq_true_iff.mp hs
  obtain ⟨hfresh, hcall⟩ := of_decide_eq_true hreturn
  obtain ⟨m, hstep, hm⟩ := (Option.any_eq_true _ _).mp hlater
  obtain ⟨t, hafter, ht⟩ := Run.of_exec_any _ _ m _ _ hm
  exact ⟨s, m, t, hbefore, hstep, hafter, of_decide_eq_true ht,
    published_follows_returns hbefore hfresh hcall rfl hstep hafter⟩

/-- The loop takes its snapshot before an addition and hands it over afterwards:
the call has returned, no removal was asked for, and the job is not listed. -/
theorem published_list_goes_back :
    ∃ s, Run (step midnight)
        (fun _ label => ServedInTurn label ∧ Keeps (.register (text "a")) label) configuredOnly
        (.start :: List.replicate 9 .loop ++ addUpToReturn ++ [.call 0 none, .loop]) s ∧
      s.returns = [(.addJob (JobSet.storedJob addedJob), none)] ∧
      ¬ (JobWrite.register (text "a")).Shows (s.published.map JobStatus.name) := by
  obtain ⟨s, hrun, hs⟩ := Run.of_exec_any (step midnight)
    (fun _ label => ServedInTurn label ∧ Keeps (.register (text "a")) label) configuredOnly
    (.start :: List.replicate 9 .loop ++ addUpToReturn ++ [.call 0 none, .loop])
    (fun s => decide (s.returns = [(.addJob (JobSet.storedJob addedJob), none)] ∧
      ¬ (JobWrite.register (text "a")).Shows (s.published.map JobStatus.name)))
    (by decide +kernel)
  obtain ⟨hreturns, hnot⟩ := of_decide_eq_true hs
  exact ⟨s, hrun, hreturns, hnot⟩

end Runs

end AgentPulse.Scheduler
