import AgentPulse.Jobs.Tasks

/-!
# Every thread is in hand

An entry of `running_` names a task whose thread has not been joined, and a
thread that has not been joined is in `running_`, or in the hands of
`reap_finished` or `stop`. This holds in every run up to the point where the
process is terminated.
-/

namespace AgentPulse.Scheduler

open Transition

section Updates

variable {α : Type} {l : List α} {i k : Nat} {a b x : α} {f : α → α}

theorem getElem?_modify_iff :
    (l.modify i f)[k]? = some b ↔ ∃ a, l[k]? = some a ∧ (if i = k then f a else a) = b := by
  rw [List.getElem?_modify]
  split_ifs with hk
  · exact Option.map_eq_some_iff
  · simp

theorem getElem?_set_iff (hget : l[i]? = some x) :
    (l.set i b)[k]? = some a ↔ ∃ old, l[k]? = some old ∧ (if i = k then b else old) = a := by
  have hlt := (List.getElem?_eq_some_iff.mp hget).1
  rw [List.getElem?_set]
  split_ifs with hk
  · subst hk
    simp [hget]
  · simp

theorem getElem?_concat_iff :
    (l ++ [x])[k]? = some a ↔ l[k]? = some a ∨ k = l.length ∧ a = x := by
  rw [List.getElem?_append]
  split_ifs with hlt
  · have hne : k ≠ l.length := by omega
    simp [hne]
  · rw [List.getElem?_eq_none (by omega : l.length ≤ k), List.getElem?_singleton]
    split_ifs with hzero
    · have hk : k = l.length := by omega
      simp [hk, eq_comm]
    · have hne : k ≠ l.length := by omega
      simp [hne]

end Updates

/-- Every thread that is not joined is in somebody's hands: `running_` has it
under the name of its job, or the loop or the caller of `stop` is about to join
it. -/
structure Owned (v : TaskView) : Prop where
  entry : ∀ name id, v.running name = some id →
    ∃ task, v.tasks[id]? = some task ∧ task.job.name = name ∧ task.thread ≠ .joined
  held : ∀ (id : Nat) (task : Task), v.tasks[id]? = some task → task.thread = .joined ∨
    v.running task.job.name = some id ∨ id ∈ v.joining ∨ id ∈ v.stopper.joining
  unstarted : ∀ (id : Nat) (task : Task), v.tasks[id]? = some task →
    task.thread = .unstarted → v.starting = some id
  starting : ∀ id, v.starting = some id →
    ∃ task, v.tasks[id]? = some task ∧ task.thread = .unstarted
  reaped : ∀ id ∈ v.joining, ∃ task, v.tasks[id]? = some task ∧ task.done = true ∧
    v.running task.job.name ≠ some id
  finished : ∀ (id : Nat) (task : Task), v.tasks[id]? = some task →
    task.thread = .joined → task.done = true
  halted : v.halted = true → v.toLaunch = [] ∧ v.joining = [] ∧ v.starting = none
  stopping : v.stopper = .idle ∨ v.stopper = .joinLoop ∨ v.halted = true
  stopped : ∀ ids, v.stopper = .join ids → v.running = fun _ => none

section Ownership

variable {next : Option Bytes} {v w : TaskView}

/-- A launch that does not destroy a joinable thread finds no entry at all. -/
theorem Owned.launch_free (h : Owned v) {entry : LaunchEntry} (hstarting : v.starting = none)
    (hthread : ¬ ∃ id, v.running entry.job.name = some id ∧
      v.Has id fun task => task.thread = .joinable) :
    v.running entry.job.name = none := by
  cases hrunning : v.running entry.job.name with
  | none => rfl
  | some id =>
      obtain ⟨task, hget, _, hjoined⟩ := h.entry _ _ hrunning
      have hjoinable : task.thread ≠ .joinable :=
        fun hstate => hthread ⟨id, hrunning, task, hget, hstate⟩
      have hunstarted : task.thread = .unstarted := by
        cases hstate : task.thread <;> simp_all
      rw [h.unstarted id task hget hunstarted] at hstarting
      cases hstarting

theorem Owned.reap (h : Owned v) {ids : List Nat} (hjoining : v.joining = [])
    (hactive : v.halted = false)
    (hids : ∀ id, id ∈ ids ↔
      v.Has id fun task => task.done = true ∧ v.running task.job.name = some id) :
    Owned { v with
      running := fun name =>
        match v.running name with
        | none => none
        | some id => if id ∈ ids then none else some id
      joining := ids } := by
  have hrunning : ∀ name id, (match v.running name with
      | none => none
      | some id => if id ∈ ids then none else some id) = some id ↔
      v.running name = some id ∧ id ∉ ids := by
    intro name id
    cases v.running name with
    | none => simp
    | some old =>
        by_cases hold : old ∈ ids
        · simp only [hold, if_true, reduceCtorEq, Option.some.injEq, false_iff, not_and, not_not]
          rintro rfl
          exact hold
        · simp only [hold, if_false, Option.some.injEq]
          constructor
          · rintro rfl
            exact ⟨rfl, hold⟩
          · exact And.left
  refine ⟨?_, ?_, h.unstarted, h.starting, ?_, h.finished, ?_, h.stopping, ?_⟩
  · intro name id hid
    exact h.entry name id ((hrunning name id).mp hid).1
  · intro id task hget
    obtain hjoined | hentry | hreaped | htaken := h.held id task hget
    · exact Or.inl hjoined
    · by_cases hmem : id ∈ ids
      · exact Or.inr (Or.inr (Or.inl hmem))
      · exact Or.inr (Or.inl ((hrunning _ _).mpr ⟨hentry, hmem⟩))
    · rw [hjoining] at hreaped
      cases hreaped
    · exact Or.inr (Or.inr (Or.inr htaken))
  · intro id hmem
    obtain ⟨task, hget, hdone, _⟩ := (hids id).mp hmem
    exact ⟨task, hget, hdone, fun hid => ((hrunning _ _).mp hid).2 hmem⟩
  · intro hhalted
    rw [hactive] at hhalted
    cases hhalted
  · intro taken hstopper
    funext name
    simp only [h.stopped taken hstopper]

/-- A task that is done and has left `running_` is joined. -/
theorem Owned.joinTask (h : Owned v) {id : Nat} {joining : List Nat} {stopper : StopPc}
    (hdone : v.Has id fun task => task.done = true ∧ v.running task.job.name ≠ some id)
    (hstarting : v.starting = none)
    (hheld : ∀ k, id ≠ k → k ∈ v.joining ∨ k ∈ v.stopper.joining →
      k ∈ joining ∨ k ∈ stopper.joining)
    (hjoining : ∀ k ∈ joining, k ∈ v.joining)
    (hstopping : stopper = .idle ∨ stopper = .joinLoop ∨ v.halted = true)
    (hstopped : ∀ ids, stopper = .join ids → v.running = fun _ => none) :
    Owned { v with
      tasks := v.tasks.modify id Task.join
      joining := joining
      stopper := stopper } := by
  obtain ⟨old, hold, holddone, hleft⟩ := hdone
  refine ⟨?_, ?_, ?_, ?_, ?_, ?_, ?_, hstopping, hstopped⟩
  · intro name k hrunning
    obtain ⟨task, hget, hname, hjoined⟩ := h.entry name k hrunning
    have hne : id ≠ k := by
      rintro rfl
      cases hold.symm.trans hget
      exact hleft (hname ▸ hrunning)
    exact ⟨task, getElem?_modify_iff.mpr ⟨task, hget, if_neg hne⟩, hname, hjoined⟩
  · intro k task' hget'
    obtain ⟨task, hget, rfl⟩ := getElem?_modify_iff.mp hget'
    by_cases hk : id = k
    · rw [if_pos hk]
      exact Or.inl rfl
    · rw [if_neg hk]
      obtain hjoined | hentry | hhand := h.held k task hget
      · exact Or.inl hjoined
      · exact Or.inr (Or.inl hentry)
      · exact Or.inr (Or.inr (hheld k hk hhand))
  · intro k task' hget' hunstarted
    obtain ⟨task, hget, rfl⟩ := getElem?_modify_iff.mp hget'
    by_cases hk : id = k
    · rw [if_pos hk] at hunstarted
      cases hunstarted
    · rw [if_neg hk] at hunstarted
      exact h.unstarted k task hget hunstarted
  · intro k hk
    rw [hstarting] at hk
    cases hk
  · intro k hk
    obtain ⟨task, hget, hdone, hne⟩ := h.reaped k (hjoining k hk)
    refine ⟨_, getElem?_modify_iff.mpr ⟨task, hget, rfl⟩, ?_⟩
    split_ifs
    · exact ⟨hdone, hne⟩
    · exact ⟨hdone, hne⟩
  · intro k task' hget' hjoined
    obtain ⟨task, hget, rfl⟩ := getElem?_modify_iff.mp hget'
    by_cases hk : id = k
    · subst hk
      cases hold.symm.trans hget
      rw [if_pos rfl]
      exact holddone
    · rw [if_neg hk] at hjoined ⊢
      exact h.finished k task hget hjoined
  · intro hhalted
    obtain ⟨hlaunch, hnone, _⟩ := h.halted hhalted
    refine ⟨hlaunch, List.eq_nil_iff_forall_not_mem.mpr fun k hk => ?_, hstarting⟩
    have hmem := hjoining k hk
    rw [hnone] at hmem
    cases hmem

theorem Owned.join (h : Owned v) {id : Nat} {rest : List Nat} (hjoining : v.joining = id :: rest)
    (hnone : v.starting = none) :
    Owned { v with tasks := v.tasks.modify id Task.join, joining := rest } := by
  have hmem : id ∈ v.joining := hjoining ▸ List.mem_cons_self
  refine h.joinTask (h.reaped id hmem) hnone ?_ ?_ h.stopping h.stopped
  · rintro k hne (hk | hk)
    · rw [hjoining] at hk
      exact Or.inl ((List.mem_cons.mp hk).resolve_left hne.symm)
    · exact Or.inr hk
  · intro k hk
    rw [hjoining]
    exact List.mem_cons_of_mem _ hk

theorem Owned.launch (h : Owned v) {entry : LaunchEntry} {rest : List LaunchEntry}
    {terminated : Bool} (hnone : v.starting = none) (hjoining : v.joining = [])
    (hactive : v.halted = false) (hfree : v.running entry.job.name = none) :
    Owned { v with
      running := Function.update v.running entry.job.name (some v.tasks.length)
      tasks := v.tasks ++ [entry.task]
      toLaunch := rest
      starting := some v.tasks.length
      terminated := terminated } := by
  have hnew : (v.tasks ++ [entry.task])[v.tasks.length]? = some entry.task :=
    getElem?_concat_iff.mpr (Or.inr ⟨rfl, rfl⟩)
  refine ⟨?_, ?_, ?_, ?_, ?_, ?_, ?_, h.stopping, ?_⟩
  · intro name id hrunning
    by_cases hname : name = entry.job.name
    · have hid : v.tasks.length = id := by simpa [hname] using hrunning
      exact ⟨entry.task, hid ▸ hnew, hname.symm, by simp [LaunchEntry.task]⟩
    · obtain ⟨task, hget, hrest⟩ := h.entry name id (by simpa [hname] using hrunning)
      exact ⟨task, getElem?_concat_iff.mpr (Or.inl hget), hrest⟩
  · intro id task hget
    obtain hget | ⟨rfl, rfl⟩ := getElem?_concat_iff.mp hget
    · obtain hjoined | hentry | hhand := h.held id task hget
      · exact Or.inl hjoined
      · have hne : task.job.name ≠ entry.job.name := by
          intro heq
          rw [heq, hfree] at hentry
          cases hentry
        exact Or.inr (Or.inl ((Function.update_of_ne hne _ _).trans hentry))
      · exact Or.inr (Or.inr hhand)
    · exact Or.inr (Or.inl (Function.update_self _ _ _))
  · intro id task hget hunstarted
    obtain hget | ⟨rfl, rfl⟩ := getElem?_concat_iff.mp hget
    · have hstarting := h.unstarted id task hget hunstarted
      rw [hnone] at hstarting
      cases hstarting
    · rfl
  · intro id hid
    exact ⟨entry.task, Option.some.inj hid ▸ hnew, rfl⟩
  · intro id hmem
    rw [show _ = [] from hjoining] at hmem
    cases hmem
  · intro id task hget hjoined
    obtain hget | ⟨rfl, rfl⟩ := getElem?_concat_iff.mp hget
    · exact h.finished id task hget hjoined
    · cases hjoined
  · intro hhalted
    rw [hactive] at hhalted
    cases hhalted
  · intro ids hstopper
    obtain hidle | hloop | hhalted := h.stopping
    · rw [hidle] at hstopper
      cases hstopper
    · rw [hloop] at hstopper
      cases hstopper
    · rw [hactive] at hhalted
      cases hhalted

theorem Owned.create (h : Owned v) {id : Nat} (hid : v.starting = some id)
    (hjoining : v.joining = []) :
    Owned { v with tasks := v.tasks.modify id Task.create, starting := none } := by
  refine ⟨?_, ?_, ?_, ?_, ?_, ?_, ?_, h.stopping, h.stopped⟩
  · intro name k hrunning
    obtain ⟨task, hget, hname, hjoined⟩ := h.entry name k hrunning
    refine ⟨_, getElem?_modify_iff.mpr ⟨task, hget, rfl⟩, ?_⟩
    split_ifs
    · exact ⟨hname, by simp [Task.create]⟩
    · exact ⟨hname, hjoined⟩
  · intro k task' hget'
    obtain ⟨task, hget, rfl⟩ := getElem?_modify_iff.mp hget'
    obtain ⟨old, hold, hunstarted⟩ := h.starting id hid
    by_cases hk : id = k
    · subst hk
      cases hold.symm.trans hget
      rw [if_pos rfl]
      exact Or.inr ((h.held id task hget).resolve_left (by simp [hunstarted]))
    · rw [if_neg hk]
      exact h.held k task hget
  · intro k task' hget' hunstarted
    obtain ⟨task, hget, rfl⟩ := getElem?_modify_iff.mp hget'
    by_cases hk : id = k
    · rw [if_pos hk] at hunstarted
      cases hunstarted
    · rw [if_neg hk] at hunstarted
      exact absurd (Option.some.inj (hid.symm.trans (h.unstarted k task hget hunstarted))) hk
  · intro k hk
    cases hk
  · intro k hk
    rw [show _ = [] from hjoining] at hk
    cases hk
  · intro k task' hget' hjoined
    obtain ⟨task, hget, rfl⟩ := getElem?_modify_iff.mp hget'
    by_cases hk : id = k
    · rw [if_pos hk] at hjoined
      cases hjoined
    · rw [if_neg hk] at hjoined ⊢
      exact h.finished k task hget hjoined
  · intro hhalted
    exact ⟨(h.halted hhalted).1, hjoining, rfl⟩

theorem Owned.work (h : Owned v) {id : Nat} {task task' : Task} (hget : v.tasks[id]? = some task)
    (hthread : task.thread = .joinable) (hjob : task'.job = task.job)
    (hthread' : task'.thread = .joinable) (hdone : task.done = true → task'.done = true) :
    Owned { v with tasks := v.tasks.set id task' } := by
  have hforth : ∀ (k : Nat) (old : Task), v.tasks[k]? = some old →
      ∃ new, (v.tasks.set id task')[k]? = some new ∧ new.job = old.job ∧
        new.thread = old.thread ∧ (old.done = true → new.done = true) := by
    intro k old hold
    refine ⟨_, (getElem?_set_iff hget).mpr ⟨old, hold, rfl⟩, ?_⟩
    by_cases hk : id = k
    · subst hk
      cases hget.symm.trans hold
      rw [if_pos rfl]
      exact ⟨hjob, hthread'.trans hthread.symm, hdone⟩
    · rw [if_neg hk]
      exact ⟨rfl, rfl, fun hold => hold⟩
  have hback : ∀ (k : Nat) (new : Task), (v.tasks.set id task')[k]? = some new →
      ∃ old, v.tasks[k]? = some old ∧ new.job = old.job ∧ new.thread = old.thread ∧
        (old.done = true → new.done = true) := by
    intro k new hnew
    obtain ⟨old, hold, _⟩ := (getElem?_set_iff hget).mp hnew
    obtain ⟨new', hnew', hrest⟩ := hforth k old hold
    cases hnew.symm.trans hnew'
    exact ⟨old, hold, hrest⟩
  refine ⟨?_, ?_, ?_, ?_, ?_, ?_, h.halted, h.stopping, h.stopped⟩
  · intro name k hrunning
    obtain ⟨old, hold, hname, hjoined⟩ := h.entry name k hrunning
    obtain ⟨new, hnew, hjob, hstate, _⟩ := hforth k old hold
    exact ⟨new, hnew, hjob ▸ hname, hstate ▸ hjoined⟩
  · intro k new hnew
    obtain ⟨old, hold, hjob, hstate, _⟩ := hback k new hnew
    rw [hjob, hstate]
    exact h.held k old hold
  · intro k new hnew hunstarted
    obtain ⟨old, hold, _, hstate, _⟩ := hback k new hnew
    exact h.unstarted k old hold (hstate ▸ hunstarted)
  · intro k hk
    obtain ⟨old, hold, hunstarted⟩ := h.starting k hk
    obtain ⟨new, hnew, _, hstate, _⟩ := hforth k old hold
    exact ⟨new, hnew, hstate.trans hunstarted⟩
  · intro k hk
    obtain ⟨old, hold, holddone, hleft⟩ := h.reaped k hk
    obtain ⟨new, hnew, hjob, _, hkeep⟩ := hforth k old hold
    exact ⟨new, hnew, hkeep holddone, hjob ▸ hleft⟩
  · intro k new hnew hjoined
    obtain ⟨old, hold, _, hstate, hkeep⟩ := hback k new hnew
    exact hkeep (h.finished k old hold (hstate ▸ hjoined))

theorem Owned.take (h : Owned v) {ids : List Nat} (hstopper : v.stopper = .takeTasks)
    (hids : ∀ id, id ∈ ids ↔ v.Has id fun task => v.running task.job.name = some id) :
    Owned { v with running := fun _ => none, stopper := .join ids } := by
  refine ⟨fun _ _ hnone => (nomatch hnone), ?_, h.unstarted, h.starting, ?_, h.finished, h.halted,
    ?_, fun _ _ => rfl⟩
  · intro id task hget
    obtain hjoined | hentry | hreaped | htaken := h.held id task hget
    · exact Or.inl hjoined
    · exact Or.inr (Or.inr (Or.inr ((hids id).mpr ⟨task, hget, hentry⟩)))
    · exact Or.inr (Or.inr (Or.inl hreaped))
    · rw [hstopper] at htaken
      cases htaken
  · intro id hmem
    obtain ⟨task, hget, hdone, _⟩ := h.reaped id hmem
    exact ⟨task, hget, hdone, fun hnone => (nomatch hnone)⟩
  · obtain hidle | hloop | hhalted := h.stopping
    · rw [hstopper] at hidle
      cases hidle
    · rw [hstopper] at hloop
      cases hloop
    · exact Or.inr (Or.inr hhalted)

theorem Owned.joinStopped (h : Owned v) {id : Nat} {rest : List Nat}
    (hstopper : v.stopper = .join (id :: rest)) (hdone : v.Has id fun task => task.done = true) :
    Owned { v with tasks := v.tasks.modify id Task.join, stopper := .join rest } := by
  have hempty := h.stopped _ hstopper
  have hhalted : v.halted = true := by
    obtain hidle | hloop | hhalted := h.stopping
    · rw [hstopper] at hidle
      cases hidle
    · rw [hstopper] at hloop
      cases hloop
    · exact hhalted
  obtain ⟨task, hget, hdone⟩ := hdone
  refine h.joinTask ⟨task, hget, hdone, by simp [hempty]⟩ (h.halted hhalted).2.2 ?_
    (fun _ hk => hk) (Or.inr (Or.inr hhalted)) fun _ _ => hempty
  rintro k hne (hk | hk)
  · exact Or.inl hk
  · rw [hstopper] at hk
    exact Or.inr ((List.mem_cons.mp hk).resolve_left hne.symm)

/-- A move that does not terminate the process keeps every thread in hand. -/
theorem Owned.move (h : Owned v) (hmove : Move next v w) (hw : w.terminated = false) :
    Owned w := by
  cases hmove with
  | stay => exact h
  | start hstopper =>
      exact ⟨h.entry, h.held, h.unstarted, h.starting, h.reaped, h.finished,
        fun hfalse => absurd hfalse (by simp), Or.inl hstopper, h.stopped⟩
  | put entry hnext hactive hidle =>
      exact ⟨h.entry, h.held, h.unstarted, h.starting, h.reaped, h.finished,
        fun htrue => absurd htrue (by simp [hactive]), h.stopping, h.stopped⟩
  | reap ids hjoining hactive hids => exact h.reap hjoining hactive hids
  | join id rest hjoining hstarting => exact h.join hjoining hstarting
  | launch entry rest terminated hlaunch hstarting hjoining hactive hterminated =>
      have hsafe := mt hterminated.mpr (Bool.eq_false_iff.mp hw)
      exact h.launch hstarting hjoining hactive (h.launch_free hstarting hsafe)
  | create id hstarting hjoining => exact h.create hstarting hjoining
  | work id task task' hget hthread hjob hthread' hdone =>
      exact h.work hget hthread hjob hthread' hdone
  | stop hidle =>
      refine ⟨h.entry, ?_, h.unstarted, h.starting, h.reaped, h.finished, h.halted,
        Or.inr (Or.inl rfl), fun ids hjoin => (nomatch hjoin)⟩
      simpa [hidle] using h.held
  | exit hloop hlaunch hstarting hjoining =>
      refine ⟨h.entry, ?_, h.unstarted, h.starting, h.reaped, h.finished,
        fun _ => ⟨hlaunch, hjoining, hstarting⟩, Or.inr (Or.inr rfl),
        fun ids hjoin => (nomatch hjoin)⟩
      simpa [hloop] using h.held
  | take ids hstopper hids => exact h.take hstopper hids
  | joinStopped id rest hstopper hdone => exact h.joinStopped hstopper hdone
  | stopped hstopper =>
      refine ⟨h.entry, ?_, h.unstarted, h.starting, h.reaped, h.finished, h.halted, Or.inl rfl,
        fun ids hidle => (nomatch hidle)⟩
      simpa [hstopper] using h.held

/-- While the loop lives, a task that is not done is in `running_`. -/
theorem Owned.entry_of_alive (h : Owned v) (hactive : v.halted = false) {id : Nat} {task : Task}
    (hget : v.tasks[id]? = some task) (halive : task.done = false) :
    v.running task.job.name = some id := by
  obtain hjoined | hrunning | hjoining | hstopping := h.held id task hget
  · rw [h.finished id task hget hjoined] at halive
    cases halive
  · exact hrunning
  · obtain ⟨reaped, hreaped, hdone, _⟩ := h.reaped id hjoining
    rw [hget] at hreaped
    cases hreaped
    rw [hdone] at halive
    cases halive
  · obtain hidle | hloop | hhalted := h.stopping
    · simp [hidle] at hstopping
    · simp [hloop] at hstopping
    · rw [hactive] at hhalted
      cases hhalted

end Ownership

section Runs

variable {loc : LocalTime} {config : List Job} {table : JobTable}
  {lastRun : Bytes → Option RunRecord} {now : ℕ}

theorem owned_initial : Owned (initial loc config table lastRun now).view := by
  constructor <;> simp [initial, State.view]

/-- In every run every thread that is not joined is in somebody's hands, as
long as the process lives. -/
theorem owned_of_run {ok : State → Label → Prop} {labels : List Label} {s : State}
    (h : Run (step loc) ok (initial loc config table lastRun now) labels s)
    (hs : s.terminated = false) : Owned s.view := by
  refine h.invariant (I := fun s => s.terminated = false → Owned s.view) ?_ ?_ hs
  · intro s label t hinv _ hstep ht
    obtain ⟨hlive, hmove⟩ := step_moves hstep
    exact (hinv hlive).move hmove ht
  · intro _
    exact owned_initial

end Runs

end AgentPulse.Scheduler
