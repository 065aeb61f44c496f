import AgentPulse.Jobs.Ownership

/-!
# One worker per job, and no thread destroyed

The loop decides on its launches in one locked section and makes them
afterwards, so its test `is_running` does not see a launch decided in the same
tick. A launch destroys whatever entry `running_` has under its name, also one
whose worker is done but not reaped, and a thread that is not joined takes the
process with it. That is why a job never has two workers in any run. A name
decided on twice and a name that still has an entry are the two kinds of step
that end the process; away from them no thread is destroyed before it is joined.
-/

namespace AgentPulse.Scheduler

open Transition

/-- The step does not put a name into `to_launch` that is there already. -/
def LaunchesOnce (s : State) (label : Label) : Prop :=
  label = .loop → ∀ name ∈ s.nextLaunch, name ∉ s.loop.toLaunch.map fun entry => entry.job.name

/-- The step does not put a name into `to_launch` that still has an entry in
`running_`. -/
def FindsNoEntry (s : State) (label : Label) : Prop :=
  label = .loop → ∀ name ∈ s.nextLaunch, s.running name = none

instance (s : State) (label : Label) : Decidable (LaunchesOnce s label) :=
  inferInstanceAs (Decidable (_ → _))

instance (s : State) (label : Label) : Decidable (FindsNoEntry s label) :=
  inferInstanceAs (Decidable (_ → _))

/-- The names the loop has decided to launch. -/
def TaskView.names (v : TaskView) : List Bytes := v.toLaunch.map fun entry => entry.job.name

/-- A worker for the job `name` is alive in task `id`: its thread has been
created and it is not yet done. -/
def State.Alive (s : State) (id : Nat) (name : Bytes) : Prop :=
  s.view.Has id fun task => task.job.name = name ∧ task.thread ≠ .unstarted ∧ task.done = false

/-- No two tasks with the property `p` that are not done have the same name. -/
def TaskView.Sole (v : TaskView) (p : Task → Prop) : Prop :=
  ∀ (i j : Nat) (a b : Task), v.tasks[i]? = some a → v.tasks[j]? = some b → p a → p b →
    a.done = false → b.done = false → a.job.name = b.job.name → i = j

/-- Nothing is about to be destroyed: the names to launch are distinct and
`running_` has no entry under any of them. -/
structure Vacant (v : TaskView) : Prop where
  nodup : v.names.Nodup
  free : ∀ name ∈ v.names, v.running name = none
  live : v.terminated = false

section Exclusion

variable {next : Option Bytes} {v w : TaskView}

theorem names_put (entry : LaunchEntry) :
    ({ v with toLaunch := v.toLaunch ++ [entry] } : TaskView).names =
      v.names ++ [entry.job.name] := by
  simp [TaskView.names]

theorem names_launch {entry : LaunchEntry} {rest : List LaunchEntry}
    (hlaunch : v.toLaunch = entry :: rest) :
    v.names = entry.job.name :: rest.map fun entry => entry.job.name := by
  simp [TaskView.names, hlaunch]

theorem nodup_put {entry : LaunchEntry} (h : v.names.Nodup) (honce : entry.job.name ∉ v.names) :
    ({ v with toLaunch := v.toLaunch ++ [entry] } : TaskView).names.Nodup := by
  rw [names_put]
  exact List.Nodup.append h (List.nodup_singleton _) (by simpa using honce)

theorem TaskView.Sole.mono {p q : Task → Prop} (h : v.Sole p) (hpq : ∀ task, q task → p task) :
    v.Sole q :=
  fun i j a b ha hb hqa hqb => h i j a b ha hb (hpq a hqa) (hpq b hqb)

/-- Changing tasks without reviving one keeps them sole. -/
theorem TaskView.Sole.of_tasks (h : v.Sole fun _ => True)
    (htasks : ∀ (id : Nat) (task' : Task), w.tasks[id]? = some task' →
      ∃ task, v.tasks[id]? = some task ∧ task'.job = task.job ∧
        (task.done = true → task'.done = true)) :
    w.Sole fun _ => True := by
  intro i j a' b' ha' hb' _ _ hadone hbdone hname
  obtain ⟨a, ha, hajob, haold⟩ := htasks i a' ha'
  obtain ⟨b, hb, hbjob, hbold⟩ := htasks j b' hb'
  refine h i j a b ha hb trivial trivial ?_ ?_ (by rw [← hajob, ← hbjob, hname])
  · by_contra hdone
    simp [haold (by simpa using hdone)] at hadone
  · by_contra hdone
    simp [hbold (by simpa using hdone)] at hbdone

/-- A launch onto a free name adds the only task of this name that is not done. -/
theorem TaskView.Sole.launch (h : v.Sole fun _ => True) (howned : Owned v) {entry : LaunchEntry}
    (hactive : v.halted = false) (hfree : v.running entry.job.name = none)
    (hw : w.tasks = v.tasks ++ [entry.task]) : w.Sole fun _ => True := by
  have hdone : ∀ (id : Nat) (task : Task), v.tasks[id]? = some task →
      task.job.name = entry.job.name → task.done = true := by
    intro id task hget hname
    by_contra halive
    have hentry := howned.entry_of_alive hactive hget (by simpa using halive)
    rw [hname, hfree] at hentry
    cases hentry
  intro i j a b ha hb _ _ hadone hbdone hname
  rw [hw] at ha hb
  obtain ha | ⟨rfl, rfl⟩ := getElem?_concat_iff.mp ha
  · obtain hb | ⟨rfl, rfl⟩ := getElem?_concat_iff.mp hb
    · exact h i j a b ha hb trivial trivial hadone hbdone hname
    · rw [hdone i a ha hname] at hadone
      cases hadone
  · obtain hb | ⟨rfl, rfl⟩ := getElem?_concat_iff.mp hb
    · rw [hdone j b hb hname.symm] at hbdone
      cases hbdone
    · rfl

/-- A launch that terminates the process adds a task whose thread is never
created. -/
theorem TaskView.Sole.abort (h : v.Sole fun task => task.thread ≠ .unstarted)
    {entry : LaunchEntry} (hw : w.tasks = v.tasks ++ [entry.task]) :
    w.Sole fun task => task.thread ≠ .unstarted := by
  intro i j a b ha hb hastarted hbstarted
  rw [hw] at ha hb
  obtain ha | ⟨rfl, rfl⟩ := getElem?_concat_iff.mp ha
  · obtain hb | ⟨rfl, rfl⟩ := getElem?_concat_iff.mp hb
    · exact h i j a b ha hb hastarted hbstarted
    · exact absurd rfl hbstarted
  · exact absurd rfl hastarted

/-- Besides a launch no move adds a task or revives one, and none terminates. -/
theorem Move.tasks_kept (hmove : Move next v w) :
    (∃ entry : LaunchEntry, w.tasks = v.tasks ++ [entry.task] ∧ v.halted = false ∧
      v.starting = none ∧
      (w.terminated = true ↔ ∃ id, v.running entry.job.name = some id ∧
        v.Has id fun task => task.thread = .joinable)) ∨
    w.terminated = v.terminated ∧ ∀ (id : Nat) (task' : Task), w.tasks[id]? = some task' →
      ∃ task, v.tasks[id]? = some task ∧ task'.job = task.job ∧
        (task.done = true → task'.done = true) := by
  cases hmove with
  | launch entry rest terminated hlaunch hstarting hjoining hactive hterminated =>
      exact Or.inl ⟨entry, rfl, hactive, hstarting, hterminated⟩
  | join id rest | joinStopped id rest | create id =>
      refine Or.inr ⟨rfl, fun k new hnew => ?_⟩
      obtain ⟨old, hold, rfl⟩ := getElem?_modify_iff.mp hnew
      refine ⟨old, hold, ?_⟩
      split_ifs
      · exact ⟨rfl, fun hdone => hdone⟩
      · exact ⟨rfl, fun hdone => hdone⟩
  | work id task task' hget hthread hjob hthread' hdone =>
      refine Or.inr ⟨rfl, fun k new hnew => ?_⟩
      obtain ⟨old, hold, rfl⟩ := (getElem?_set_iff hget).mp hnew
      refine ⟨old, hold, ?_⟩
      by_cases hk : id = k
      · subst hk
        cases hget.symm.trans hold
        rw [if_pos rfl]
        exact ⟨hjob, hdone⟩
      · rw [if_neg hk]
        exact ⟨rfl, fun hold => hold⟩
  | _ => exact Or.inr ⟨rfl, fun _ task hget => ⟨task, hget, rfl, fun hdone => hdone⟩⟩

/-- One worker a name: while the process lives even among the tasks whose thread
is still to be created. -/
structure OneWorker (v : TaskView) : Prop where
  live : v.terminated = false → v.Sole fun _ => True
  started : v.Sole fun task => task.thread ≠ .unstarted

theorem OneWorker.move (h : OneWorker v) (howned : Owned v) (hlive : v.terminated = false)
    (hmove : Move next v w) : OneWorker w := by
  obtain ⟨entry, hw, hactive, hstarting, hterminated⟩ | ⟨hsame, hkept⟩ := hmove.tasks_kept
  · refine ⟨fun hsafe => ?_, h.started.abort hw⟩
    have hfree := howned.launch_free hstarting (mt hterminated.mpr (Bool.eq_false_iff.mp hsafe))
    exact (h.live hlive).launch howned hactive hfree hw
  · have hsole := (h.live hlive).of_tasks hkept
    exact ⟨fun _ => hsole, hsole.mono fun _ _ => trivial⟩

theorem Vacant.launch (h : Vacant v) {entry : LaunchEntry} {rest : List LaunchEntry}
    (hlaunch : v.toLaunch = entry :: rest) {id : Nat} {tasks : List Task} {starting : Option Nat}
    {terminated : Bool}
    (hterminated : terminated = true → ∃ old, v.running entry.job.name = some old) :
    Vacant { v with
      running := Function.update v.running entry.job.name (some id)
      tasks := tasks
      toLaunch := rest
      starting := starting
      terminated := terminated } := by
  have hnodup := h.nodup
  have hfree := h.free
  rw [names_launch hlaunch, List.nodup_cons] at hnodup
  rw [names_launch hlaunch] at hfree
  refine ⟨hnodup.2, ?_, ?_⟩
  · intro name hmem
    have hne : name ≠ entry.job.name := fun heq => hnodup.1 (heq ▸ hmem)
    simpa only [Function.update_of_ne hne] using hfree name (List.mem_cons_of_mem _ hmem)
  · by_contra hdead
    obtain ⟨old, hold⟩ := hterminated (by simpa using hdead)
    rw [hfree entry.job.name List.mem_cons_self] at hold
    cases hold

theorem Vacant.move (h : Vacant v) (hmove : Move next v w)
    (honce : ∀ name ∈ next, name ∉ v.names) (hnone : ∀ name ∈ next, v.running name = none) :
    Vacant w := by
  cases hmove with
  | put entry hnext hactive hidle =>
      refine ⟨nodup_put h.nodup (honce _ hnext), fun name hmem => ?_, h.live⟩
      rw [names_put, List.mem_append, List.mem_singleton] at hmem
      obtain hmem | rfl := hmem
      · exact h.free name hmem
      · exact hnone _ hnext
  | launch entry rest terminated hlaunch hstarting hjoining hactive hterminated =>
      refine h.launch hlaunch fun hdead => ?_
      obtain ⟨old, hold, _⟩ := hterminated.mp hdead
      exact ⟨old, hold⟩
  | reap ids hjoining hactive hids =>
      refine ⟨h.nodup, fun name hmem => ?_, h.live⟩
      simp only [h.free name hmem]
  | take ids hstopper hids => exact ⟨h.nodup, fun _ _ => rfl, h.live⟩
  | _ => exact ⟨h.nodup, h.free, h.live⟩

/-- An entry leaves `running_` only into the hands of `reap_finished` or `stop`. -/
theorem Move.running_kept (hmove : Move next v w) (howned : Owned v) (hw : w.terminated = false)
    {name : Bytes} {id : Nat} (hrunning : v.running name = some id) :
    w.running name = some id ∨ id ∈ w.joining ∨ id ∈ w.stopper.joining := by
  cases hmove with
  | reap ids hjoining hactive hids =>
      by_cases hmem : id ∈ ids
      · exact Or.inr (Or.inl hmem)
      · left
        simp only [hrunning, if_neg hmem]
  | launch entry rest terminated hlaunch hstarting hjoining hactive hterminated =>
      have hsafe := mt hterminated.mpr (Bool.eq_false_iff.mp hw)
      have hfree := howned.launch_free hstarting hsafe
      have hne : name ≠ entry.job.name := by
        rintro rfl
        rw [hfree] at hrunning
        cases hrunning
      left
      simpa [Function.update_of_ne hne] using hrunning
  | take ids hstopper hids =>
      obtain ⟨task, hget, rfl, _⟩ := howned.entry name id hrunning
      exact Or.inr (Or.inr ((hids id).mpr ⟨task, hget, hrunning⟩))
  | _ => exact Or.inl hrunning

end Exclusion

section ConcreteRuns

/-- A scheduler constructed at the epoch, with one job that has no schedule. -/
def manualOnly : State :=
  initial midnight [{ name := text "a", command := text "true" }] JobTable.empty (fun _ => none) 0

/-- A client asks for a run of the job. -/
def requestRun : List Label := [.begin 0 (.requestRun (text "a")), .call 0 none]

/-- `start`, and the first tick up to its locked section. -/
def firstTick : List Label := .start :: List.replicate 3 .loop

/-- A worker that succeeds at once. -/
def workerSucceeds (id : Nat) : List Label :=
  List.replicate 6 (.worker id { status := .success } true)

end ConcreteRuns

section Runs

variable {loc : LocalTime} {config : List Job} {table : JobTable}
  {lastRun : Bytes → Option RunRecord} {now : ℕ} {labels : List Label} {s : State}

/-- The guards of a step, read on its view. -/
theorem LaunchesOnce.view {label : Label} (h : LaunchesOnce s label) :
    ∀ name ∈ (if label = .loop then s.nextLaunch else none), name ∉ s.view.names := by
  intro name hname
  split at hname
  · next hloop => exact h hloop name hname
  · cases hname

theorem FindsNoEntry.view {label : Label} (h : FindsNoEntry s label) :
    ∀ name ∈ (if label = .loop then s.nextLaunch else none), s.view.running name = none := by
  intro name hname
  split at hname
  · next hloop => exact h hloop name hname
  · cases hname

/-- No job ever has two workers: a second launch while the first is not done
would destroy its thread, and the process ends before the second thread is
created. While the process lives there is at most one task of a name that is not
done, counting also the task whose thread is about to be created. -/
theorem one_worker_per_job
    (h : Run (step loc) free (initial loc config table lastRun now) labels s) :
    (∀ i j name, s.Alive i name → s.Alive j name → i = j) ∧
      (s.terminated = false → ∀ (i j : Nat) (a b : Task), s.tasks[i]? = some a →
        s.tasks[j]? = some b → a.done = false → b.done = false → a.job.name = b.job.name →
          i = j) := by
  have hinv := h.invariant (I := fun s => (s.terminated = false → Owned s.view) ∧ OneWorker s.view)
    ?_ ?_
  · obtain ⟨_, hone⟩ := hinv
    refine ⟨?_, fun hlive i j a b ha hb => hone.live hlive i j a b ha hb trivial trivial⟩
    rintro i j name ⟨a, ha, haname, hastarted, hadone⟩ ⟨b, hb, hbname, hbstarted, hbdone⟩
    exact hone.started i j a b ha hb hastarted hbstarted hadone hbdone (haname.trans hbname.symm)
  · intro s label t hinv _ hstep
    obtain ⟨hlive, hmove⟩ := step_moves hstep
    have howned := hinv.1 hlive
    exact ⟨howned.move hmove, hinv.2.move howned hlive hmove⟩
  · refine ⟨fun _ => owned_initial, ?_⟩
    constructor <;> simp [initial, State.view, TaskView.Sole]

/-- The worker of the first request is alive while the next tick finds a second
request of the same job: it is put back into the queue, and the worker stays the
only one. -/
theorem one_worker_per_job_requested :
    ∃ s, Run (step midnight) free manualOnly
        (firstTick ++ requestRun ++ List.replicate 13 .loop ++ requestRun ++
          List.replicate 3 .loop) s ∧
      s.Alive 0 (text "a") ∧ s.queue.map QueueEntry.name = [text "a"] ∧
      ∀ j, s.Alive j (text "a") → 0 = j := by
  obtain ⟨s, hrun, hs⟩ := Run.of_exec_any (step midnight) free manualOnly
    (firstTick ++ requestRun ++ List.replicate 13 .loop ++ requestRun ++ List.replicate 3 .loop)
    (fun s => decide (s.queue.map QueueEntry.name = [text "a"]) &&
      s.tasks[0]?.any fun task =>
        task.job.name = text "a" && task.thread ≠ .unstarted && !task.done)
    (by decide +kernel)
  obtain ⟨hqueue, htasks⟩ := Bool.and_eq_true_iff.mp hs
  have halive : s.Alive 0 (text "a") := by
    obtain ⟨task, hget, htask⟩ := (Option.any_eq_true _ _).mp htasks
    exact ⟨task, hget, by simpa [and_assoc] using htask⟩
  exact ⟨s, hrun, halive, of_decide_eq_true hqueue,
    fun j hj => (one_worker_per_job hrun).1 0 j _ halive hj⟩

/-- If no tick decides on one name twice or on a name that still has an entry, a launch
never overwrites an entry, no thread is destroyed, every thread that is not
joined is in hand, and an entry leaves `running_` only to be joined. -/
theorem joined_before_destroyed
    (h : Run (step loc) (fun s label => LaunchesOnce s label ∧ FindsNoEntry s label)
      (initial loc config table lastRun now) labels s) :
    s.terminated = false ∧
      (∀ entry rest, s.loop = .launch (entry :: rest) → s.running entry.job.name = none) ∧
      (∀ id task, s.tasks[id]? = some task → task.thread = .joined ∨
        s.running task.job.name = some id ∨ id ∈ s.loop.joining ∨ id ∈ s.stopper.joining) ∧
      ∀ label t, LaunchesOnce s label ∧ FindsNoEntry s label → step loc s label = some t →
        ∀ name id, s.running name = some id →
          t.running name = some id ∨ id ∈ t.loop.joining ∨ id ∈ t.stopper.joining := by
  have hkept : ∀ s label t, Vacant s.view → LaunchesOnce s label ∧ FindsNoEntry s label →
      step loc s label = some t → Vacant t.view := by
    intro s label t hvacant hok hstep
    exact hvacant.move (step_moves hstep).2 hok.1.view hok.2.view
  have hvacant : Vacant s.view := by
    refine h.invariant (I := fun s => Vacant s.view) hkept ?_
    constructor <;> simp [initial, State.view, TaskView.names]
  have howned : Owned s.view := owned_of_run h hvacant.live
  refine ⟨hvacant.live, ?_, howned.held, ?_⟩
  · intro entry rest hloop
    exact hvacant.free _ (by simp [TaskView.names, State.view, hloop])
  · intro label t hok hstep name id hrunning
    have hlive := (hkept s label t hvacant hok hstep).live
    exact (step_moves hstep).2.running_kept howned hlive hrunning

/-- One request, one tick: nothing is overwritten and the new thread is in hand. -/
theorem joined_before_destroyed_requested :
    ∃ s, Run (step midnight) (fun s label => LaunchesOnce s label ∧ FindsNoEntry s label)
        manualOnly (firstTick ++ requestRun ++ List.replicate 7 .loop) s ∧
      s.terminated = false ∧ ∃ task, s.tasks[0]? = some task ∧ task.thread = .joinable ∧
        (task.thread = .joined ∨ s.running task.job.name = some 0 ∨ 0 ∈ s.loop.joining ∨
          0 ∈ s.stopper.joining) := by
  obtain ⟨s, hrun, htasks⟩ := Run.of_exec_any (step midnight)
    (fun s label => LaunchesOnce s label ∧ FindsNoEntry s label) manualOnly
    (firstTick ++ requestRun ++ List.replicate 7 .loop)
    (fun s => s.tasks[0]?.any fun task => task.thread = .joinable) (by decide +kernel)
  obtain ⟨hlive, _, hheld, _⟩ := joined_before_destroyed hrun
  obtain ⟨task, hget, htask⟩ := (Option.any_eq_true _ _).mp htasks
  exact ⟨s, hrun, hlive, task, hget, by simpa using htask, hheld 0 task hget⟩

/-- The loop is about to launch a job whose name has an entry. -/
def State.overwritesNext (s : State) : Bool :=
  match s.loop with
  | .launch (entry :: _) => (s.running entry.job.name).isSome
  | _ => false

/-- A worker finishes between `reap_finished` and the locked section of a tick
that finds another request: no name is put twice, and yet the launch overwrites
the entry of the finished worker, whose thread nobody has joined. -/
theorem finished_thread_destroyed :
    ∃ labels s entry rest id t, Run (step midnight) LaunchesOnce manualOnly labels s ∧
      s.loop = .launch (entry :: rest) ∧ s.running entry.job.name = some id ∧
      step midnight s .loop = some t ∧ t.terminated = true := by
  obtain ⟨s, hrun, hs⟩ := Run.of_exec_any (step midnight) LaunchesOnce manualOnly
    (firstTick ++ requestRun ++ List.replicate 9 .loop ++ requestRun ++
      List.replicate 2 .loop ++ workerSucceeds 0 ++ List.replicate 7 .loop)
    (fun s => (step midnight s .loop).any (·.terminated) && s.overwritesNext) (by decide +kernel)
  obtain ⟨hstep, hloop⟩ := Bool.and_eq_true_iff.mp hs
  obtain ⟨t, ht, hterminated⟩ := (Option.any_eq_true _ _).mp hstep
  unfold State.overwritesNext at hloop
  split at hloop
  · next entry rest hlaunch =>
      obtain ⟨id, hid⟩ := Option.isSome_iff_exists.mp hloop
      exact ⟨_, s, entry, rest, id, t, hrun, hlaunch, hid, ht, hterminated⟩
  · cases hloop

end Runs

end AgentPulse.Scheduler
