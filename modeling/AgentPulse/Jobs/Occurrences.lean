import AgentPulse.Jobs.MissedReports
import AgentPulse.Jobs.TaskSafety
import AgentPulse.Jobs.Tickets

/-!
# An occurrence is launched at most once

Two mechanisms launch runs on their own: the due scan, driven by `next_run_`,
and the missed-run scan, driven by `last_runs_` and `missed_handled_`. Each of
them alone counts an occurrence once. They overlap when the missed-run scan
looks at a job whose latest occurrence the due scan has not treated yet, or has
treated by a launch whose worker has not written its record. Away from these
moments, with a clock that is never set back and without `stop`, no occurrence
of a job that is not removed is launched twice.
-/

namespace AgentPulse.Scheduler

open Transition

/-- A launch counts for `t`: as a schedule launch that spans `t`, or as the
answer to a request queued for the missed occurrence `t`. -/
def Cause.CountsFor (tickets : List Ticket) (t : Int) : Cause → Prop
  | .due lo hi => lo ≤ t ∧ t ≤ hi
  | .request ticket => tickets[ticket]?.bind Ticket.occurrence = some t

instance (tickets : List Ticket) (t : Int) : DecidablePred (Cause.CountsFor tickets t)
  | .due _ _ => inferInstanceAs (Decidable (_ ∧ _))
  | .request _ => inferInstanceAs (Decidable (_ = _))

/-- The steps the count of occurrences is about: the clock is not set back,
`stop` is not called, and the job is not removed. -/
def InScope (name : Bytes) (s : State) : Label → Prop
  | .clock time => s.clock ≤ time
  | .stop => False
  | .call thread dbError => s.writes (.call thread dbError) ≠ some (.unregister name)
  | _ => True

/-- A scan that looks at the job is ready to do so. -/
def ScansReady (loc : LocalTime) (name : Bytes) (s : State) : Label → Prop
  | .loop => s.loop.scanPc.Ready loc name s
  | .starter => s.starter.Ready loc name s
  | _ => True

instance (name : Bytes) (s : State) : DecidablePred (InScope name s)
  | .clock _ => inferInstanceAs (Decidable (_ ≤ _))
  | .stop => inferInstanceAs (Decidable False)
  | .call _ _ => inferInstanceAs (Decidable (_ ≠ _))
  | .loop | .starter | .start | .notifyWake | .begin _ _ | .worker _ _ _ =>
      inferInstanceAs (Decidable True)

instance (loc : LocalTime) (name : Bytes) (s : State) : DecidablePred (ScansReady loc name s)
  | .loop => inferInstanceAs (Decidable (ScanPc.Ready _ _ _ _))
  | .starter => inferInstanceAs (Decidable (ScanPc.Ready _ _ _ _))
  | .clock _ | .stop | .call _ _ | .start | .notifyWake | .begin _ _ | .worker _ _ _ =>
      inferInstanceAs (Decidable True)

/-- What a step other than one of a scan leaves to the scans: it keeps what is
handled and reported, and lets a scan begin at most. -/
structure Quiet (name : Bytes) (s t : State) : Prop where
  clock : s.clock ≤ t.clock
  handled : t.missedHandled name = s.missedHandled name
  tickets : missedOf name t.tickets = missedOf name s.tickets
  starter : t.starter = s.starter ∨ s.starter = .idle ∧ t.starter = .start
  loop : t.loop.scanPc = s.loop.scanPc ∨ s.loop.scanPc = .idle ∧ t.loop.scanPc = .start

section Quiet

variable {loc : LocalTime} {name : Bytes} {s t : State}

/-- Only the clock itself moves the clock. -/
theorem step_clock {label : Label} (h : step loc s label = some t)
    (hclock : ∀ time, label ≠ .clock time) : t.clock = s.clock := by
  cases step_cases h with
  | clock time => exact absurd rfl (hclock time)
  | active | start | notifyWake => rfl
  | stop hstep =>
      obtain ⟨_, _, _, _, _, rfl⟩ := hstep.frame
      rfl
  | loop hstep =>
      obtain ⟨_, _, _, _, _, _, _, _, _, _, _, _, _, rfl⟩ := hstep.frame
      rfl
  | starter next hscan =>
      obtain ⟨_, _, _, _, rfl⟩ := scanStep_frame hscan
      rfl
  | begin thread call hstep =>
      obtain ⟨_, _, rfl⟩ := hstep.frame
      rfl
  | call thread dbError hstep =>
      obtain ⟨_, _, _, _, _, _, rfl⟩ := hstep.frame
      rfl
  | worker id outcome dbOk hstep =>
      obtain ⟨_, _, _, _, _, _, _⟩ := hstep
      rfl

/-- Every step outside of the scans, under the guard. -/
theorem step_quiet {label : Label} (h : step loc s label = some t)
    (hok : InScope name s label) (hstarter : label ≠ .starter)
    (hscan : label = .loop → ∀ wall pc, s.loop ≠ .scan wall pc) : Quiet name s t := by
  have hkept : KeepsJob name s label := by
    cases label with
    | call thread dbError => exact hok
    | _ => simp [KeepsJob, State.writes]
  have hclock : s.clock ≤ t.clock := by
    by_cases htime : ∃ time, label = .clock time
    · obtain ⟨time, rfl⟩ := htime
      cases step_cases h
      exact hok
    · exact (step_clock h fun time heq => htime ⟨time, heq⟩).ge
  have hundisturbed := step_undisturbed h hkept hstarter hscan
  exact ⟨hclock, hundisturbed.handled, hundisturbed.tickets, hundisturbed.starter,
    hundisturbed.loop⟩

end Quiet

/-- Everything that keeps occurrences of `name` from being launched twice. -/
structure Once (loc : LocalTime) (name : Bytes) (s : State) : Prop where
  owned : s.terminated = false → Owned s.view
  records : Records name s.terminated s.records
  spans : Spans name s.firing
  starter : ScanOk loc name s.firing (s.missedHandled name) s.starter
  loop : ScanOk loc name s.firing (s.missedHandled name) s.loop.scanPc
  reports : Reports name s.firing (s.missedHandled name) (s.reported name)

section Runs

variable {loc : LocalTime} {name : Bytes} {s t : State}

theorem ended_of_spans (h : Spans name s.firing) :
    ∀ e ∈ s.records.executions, e.job.name = name → ∀ lo hi, e.cause = .due lo hi →
      hi ≤ s.records.clock := by
  intro e he hname lo hi hcause
  obtain ⟨task, htask, rfl⟩ := List.mem_map.mp he
  refine (h.ended lo hi (List.mem_append_left _ (List.mem_map.mpr ⟨task, htask, ?_⟩))).1
  exact Prod.ext hname hcause

/-- The parts of the invariant that no scan touches are kept by every step. -/
theorem Once.base (h : Once loc name s) {label : Label} (hstep : step loc s label = some t)
    (hok : InScope name s label) (hclock : s.clock ≤ t.clock) :
    (t.terminated = false → Owned t.view) ∧ Records name t.terminated t.records ∧
      Spans name t.firing := by
  obtain ⟨hlive, hmove⟩ := step_moves hstep
  have howned := h.owned hlive
  have hstop : label ≠ .stop := by
    rintro rfl
    exact hok
  have hkept : s.writes label ≠ some (.unregister name) := by
    cases label with
    | call thread dbError => exact hok
    | _ => simp [State.writes]
  have hrecords : Records name false s.records := hlive ▸ h.records
  exact ⟨howned.move hmove,
    hrecords.move (ended_of_spans h.spans) (step_records hstep howned hstop) hkept,
    h.spans.move (step_firing hstep) hclock⟩

theorem Once.quiet (h : Once loc name s) {label : Label} (hstep : step loc s label = some t)
    (hok : InScope name s label) (hquiet : Quiet name s t) : Once loc name t := by
  obtain ⟨howned, hrecords, hspans⟩ := h.base hstep hok hquiet.clock
  have hfiring := step_firing hstep
  have hclock : s.firing.clock ≤ t.firing.clock := hquiet.clock
  have hstart : ScanOk loc name t.firing (s.missedHandled name) .start :=
    .of_pc (by simp) (by simp)
  have hreported : t.reported name = s.reported name := by
    unfold State.reported
    rw [hquiet.tickets]
    have hstarter : t.starter.reported name = s.starter.reported name := by
      obtain heq | ⟨hidle, heq⟩ := hquiet.starter
      · rw [heq]
      · rw [heq, hidle]
        rfl
    have hloop : t.loop.scanPc.reported name = s.loop.scanPc.reported name := by
      obtain heq | ⟨hidle, heq⟩ := hquiet.loop
      · rw [heq]
      · rw [heq, hidle]
        rfl
    rw [hstarter, hloop]
  refine ⟨howned, hrecords, hspans, ?_, ?_, ?_⟩
  · rw [hquiet.handled]
    obtain heq | ⟨_, heq⟩ := hquiet.starter
    · exact heq ▸ h.starter.move hfiring hclock
    · exact heq ▸ hstart
  · rw [hquiet.handled]
    obtain heq | ⟨_, heq⟩ := hquiet.loop
    · exact heq ▸ h.loop.move hfiring hclock
    · exact heq ▸ hstart
  · rw [hquiet.handled, hreported]
    exact h.reports.move hfiring hclock

/-- A step of the scan that `start` runs. -/
theorem Once.scanStarter (h : Once loc name s) (hstep : step loc s .starter = some t)
    (hready : s.starter.Ready loc name s) : Once loc name t := by
  obtain ⟨m, next, hscan, rfl⟩ := starter_scans hstep
  obtain ⟨fresh, hresult⟩ := scanStep_result hscan h.starter hready h.records
  obtain ⟨_, _, _, _, rfl⟩ := scanStep_frame hscan
  obtain ⟨howned, hrecords, hspans⟩ := h.base hstep trivial (le_refl _)
  refine ⟨howned, hrecords, hspans, hresult.ok, h.loop.handle hresult.handled, ?_⟩
  refine h.reports.report hresult.handled hresult.nodup hresult.later hresult.clear ?_
  exact (hresult.reported.append_right _).trans (perm_swap _ _ _)

/-- A step of a scan of the loop. -/
theorem Once.scanLoop (h : Once loc name s) (hstep : step loc s .loop = some t)
    (hready : s.loop.scanPc.Ready loc name s) {wall : Int} {pc : ScanPc}
    (hloop : s.loop = .scan wall pc) : Once loc name t := by
  obtain ⟨m, next, hscan, rfl⟩ := loop_scans hloop hstep
  have hpc : s.loop.scanPc = pc := by simp [hloop]
  obtain ⟨fresh, hresult⟩ := scanStep_result hscan (hpc ▸ h.loop) (hpc ▸ hready) h.records
  obtain ⟨handled, log, queue, tickets, rfl⟩ := scanStep_frame hscan
  obtain ⟨howned, hrecords, hspans⟩ := h.base hstep trivial (le_refl _)
  have hnext : (if next = .idle then LoopPc.lock wall else .scan wall next).scanPc = next := by
    split_ifs with hidle
    · exact hidle.symm
    · rfl
  have hfiring : State.firing { s with
      missedHandled := handled
      alertLog := log
      queue := queue
      tickets := tickets
      loop := if next = .idle then LoopPc.lock wall else .scan wall next } = s.firing := by
    unfold State.firing State.launches
    split_ifs <;> simp [hloop]
  refine ⟨howned, hrecords, hspans, ?_, ?_, ?_⟩
  · rw [hfiring]
    exact h.starter.handle hresult.handled
  · rw [hfiring]
    exact hnext.symm ▸ hresult.ok
  · rw [hfiring]
    refine h.reports.report hresult.handled hresult.nodup hresult.later hresult.clear ?_
    simp only [State.reported, hnext, hpc]
    calc
      (missedOf name tickets ++ s.starter.reported name ++ next.reported name).Perm
          (missedOf name tickets ++ next.reported name ++ s.starter.reported name) :=
        perm_swap _ _ _
      List.Perm _ (missedOf name s.tickets ++ pc.reported name ++ fresh ++
          s.starter.reported name) := hresult.reported.append_right _
      List.Perm _ (missedOf name s.tickets ++ pc.reported name ++ s.starter.reported name ++
          fresh) := perm_swap _ _ _
      List.Perm _ (missedOf name s.tickets ++ s.starter.reported name ++ pc.reported name ++
          fresh) := (perm_swap _ _ _).append_right _

theorem once_of_run {config : List Job} {table : JobTable} {lastRun : Bytes → Option RunRecord}
    {now : ℕ} {labels : List Label}
    (h : Run (step loc) (fun s label => InScope name s label ∧ ScansReady loc name s label)
      (initial loc config table lastRun now) labels s) :
    Once loc name s := by
  refine h.invariant ?_ ?_
  · intro s label t hinv hok hstep
    by_cases hstarter : label = .starter
    · subst hstarter
      exact hinv.scanStarter hstep hok.2
    · by_cases hscan : label = .loop ∧ ∃ wall pc, s.loop = .scan wall pc
      · obtain ⟨rfl, wall, pc, hloop⟩ := hscan
        exact hinv.scanLoop hstep hok.2 hloop
      · refine hinv.quiet hstep hok.1 (step_quiet hstep hok.1 hstarter ?_)
        rintro rfl wall pc hloop
        exact hscan ⟨rfl, wall, pc, hloop⟩
  · have hnolaunch : (initial loc config table lastRun now).launches = [] := rfl
    refine ⟨fun _ => owned_initial, ?_, ?_, ?_, ?_, ?_⟩
    · constructor <;> simp [initial, State.records]
    · constructor <;> simp [initial, State.firing, State.launches]
    · exact .of_pc (by simp [initial]) (by simp [initial])
    · exact .of_pc (by simp [initial]) (by simp [initial])
    · constructor <;> simp [initial, State.reported, missedOf]

/-- Of two schedule launches that span `t` neither is the earlier one. -/
theorem Spans.not_lt (h : Spans name s.firing) {i j : Nat} {a b : Task} {lo hi lo' hi' time : Int}
    (ha : s.tasks[i]? = some a) (hb : s.tasks[j]? = some b) (haname : a.job.name = name)
    (hbname : b.job.name = name) (hacause : a.cause = .due lo hi) (hbcause : b.cause = .due lo' hi')
    (hhi : time ≤ hi) (hlo : lo' ≤ time) : ¬ i < j := by
  intro hlt
  obtain ⟨hi, hai⟩ := List.getElem?_eq_some_iff.mp (launches_getElem? ha)
  obtain ⟨hj, hbj⟩ := List.getElem?_eq_some_iff.mp (launches_getElem? hb)
  have := List.pairwise_iff_getElem.mp h.disjoint i j hi hj hlt _ _ _ _
    (hai.trans (by rw [haname, hacause])) (hbj.trans (by rw [hbname, hbcause]))
  omega

/-- A missed launch that counts for `t` was reported. -/
theorem mem_reported (h : Ticketed s.tickets s.entries) {task : Task} {ticket : Nat} {time : Int}
    (hmem : task ∈ s.tasks) (hname : task.job.name = name) (hcause : task.cause = .request ticket)
    (hcounts : s.tickets[ticket]?.bind Ticket.occurrence = some time) :
    ∃ request, s.tickets[ticket]? = some request ∧ request.name = name ∧
      request.occurrence = some time ∧ time ∈ s.reported name := by
  obtain ⟨request, hget, hname'⟩ := h.of_task hmem hcause
  rw [hname] at hname'
  rw [hget] at hcounts
  refine ⟨request, hget, hname', hcounts, List.mem_append_left _ (List.mem_append_left _ ?_)⟩
  exact List.mem_filterMap.mpr ⟨request, List.mem_of_getElem? hget, by simpa [hname'] using hcounts⟩

/-- A schedule launch and a missed launch do not count for one occurrence. -/
theorem Once.due_missed (h : Once loc name s) (hticketed : Ticketed s.tickets s.entries)
    {a b : Task} {lo hi time : Int} {ticket : Nat} (ha : a ∈ s.tasks) (hb : b ∈ s.tasks)
    (haname : a.job.name = name) (hbname : b.job.name = name) (hacause : a.cause = .due lo hi)
    (hbcause : b.cause = .request ticket)
    (hbcounts : s.tickets[ticket]?.bind Ticket.occurrence = some time) :
    ¬ (lo ≤ time ∧ time ≤ hi) := by
  obtain ⟨_, _, _, _, hreported⟩ := mem_reported hticketed hb hbname hbcause hbcounts
  have hlaunch : (name, a.cause) ∈ s.firing.launches :=
    List.mem_append_left _ (List.mem_map.mpr ⟨a, ha, by rw [haname]⟩)
  have hclear := (h.reports.clear time hreported).2.spans a.cause hlaunch
  rw [hacause] at hclear
  exact Cause.due_spans_eq_false.mp hclear

/-- Two missed launches that count for one occurrence are the same launch. -/
theorem Once.missed_unique (h : Once loc name s) (hticketed : Ticketed s.tickets s.entries)
    {i j : Nat} {a b : Task} {time : Int} {ticket ticket' : Nat} (ha : s.tasks[i]? = some a)
    (hb : s.tasks[j]? = some b) (haname : a.job.name = name) (hbname : b.job.name = name)
    (hacause : a.cause = .request ticket) (hbcause : b.cause = .request ticket')
    (hacounts : s.tickets[ticket]?.bind Ticket.occurrence = some time)
    (hbcounts : s.tickets[ticket']?.bind Ticket.occurrence = some time) : i = j := by
  obtain ⟨request, hget, hname, htime, _⟩ :=
    mem_reported hticketed (List.mem_of_getElem? ha) haname hacause hacounts
  obtain ⟨request', hget', hname', htime', _⟩ :=
    mem_reported hticketed (List.mem_of_getElem? hb) hbname hbcause hbcounts
  have hmissed : (missedOf name s.tickets).Nodup :=
    (List.nodup_append.mp (List.nodup_append.mp h.reports.nodup).1).1
  have heq : ticket = ticket' := KeyedList.index_unique hmissed hget hget'
    (by rw [if_pos hname, htime]) (by rw [if_pos hname', htime'])
  exact hticketed.task_unique ha hb hacause (heq ▸ hbcause)

/-- In every run in scope whose scans are ready, no two launches of a job count
for the same occurrence. -/
theorem occurrence_launched_once {config : List Job} {table : JobTable}
    {lastRun : Bytes → Option RunRecord} {now : ℕ} {labels : List Label}
    (h : Run (step loc) (fun s label => InScope name s label ∧ ScansReady loc name s label)
      (initial loc config table lastRun now) labels s)
    {i j : Nat} {a b : Task} {time : Int} (ha : s.tasks[i]? = some a) (hb : s.tasks[j]? = some b)
    (haname : a.job.name = name) (hbname : b.job.name = name)
    (hacounts : a.cause.CountsFor s.tickets time) (hbcounts : b.cause.CountsFor s.tickets time) :
    i = j := by
  have honce := once_of_run h
  have hticketed := ticketed_of_run h
  have hamem := List.mem_of_getElem? ha
  have hbmem := List.mem_of_getElem? hb
  cases hacause : a.cause with
  | due lo hi =>
      rw [hacause] at hacounts
      cases hbcause : b.cause with
      | due lo' hi' =>
          rw [hbcause] at hbcounts
          have h₁ := honce.spans.not_lt ha hb haname hbname hacause hbcause hacounts.2 hbcounts.1
          have h₂ := honce.spans.not_lt hb ha hbname haname hbcause hacause hbcounts.2 hacounts.1
          omega
      | request ticket =>
          rw [hbcause] at hbcounts
          exact absurd hacounts (honce.due_missed hticketed hamem hbmem haname hbname hacause
            hbcause hbcounts)
  | request ticket =>
      rw [hacause] at hacounts
      cases hbcause : b.cause with
      | due lo hi =>
          rw [hbcause] at hbcounts
          exact absurd hbcounts (honce.due_missed hticketed hbmem hamem hbname haname hbcause
            hacause hacounts)
      | request ticket' =>
          rw [hbcause] at hbcounts
          exact honce.missed_unique hticketed ha hb haname hbname hacause hbcause hacounts hbcounts

/-- The first scan reports the minute before the start, which is launched, and
so is the minute after it; the first launch is the only one for its minute. -/
theorem occurrence_launched_once_recovered :
    ∃ s, Run (step midnight)
        (fun s label => InScope (text "a") s label ∧ ScansReady midnight (text "a") s label)
        (recovering (fun _ => some earlyRun) 100)
        (.start :: List.replicate 7 .starter ++ List.replicate 12 .loop ++ workerSucceeds 0 ++
          .clock 120 :: List.replicate 10 .loop) s ∧
      s.tasks.length = 2 ∧ ∃ task, s.tasks[0]? = some task ∧ task.cause.CountsFor s.tickets 60 ∧
        ∀ j other, s.tasks[j]? = some other → other.job.name = text "a" →
          other.cause.CountsFor s.tickets 60 → 0 = j := by
  obtain ⟨s, hrun, hs⟩ := Run.of_exec_any (step midnight)
    (fun s label => InScope (text "a") s label ∧ ScansReady midnight (text "a") s label)
    (recovering (fun _ => some earlyRun) 100)
    (.start :: List.replicate 7 .starter ++ List.replicate 12 .loop ++ workerSucceeds 0 ++
      .clock 120 :: List.replicate 10 .loop)
    (fun s => decide (s.tasks.length = 2) && s.tasks[0]?.any fun (task : Task) =>
      decide (task.job.name = text "a" ∧ task.cause.CountsFor s.tickets 60))
    (by decide +kernel)
  obtain ⟨hlength, hfirst⟩ := Bool.and_eq_true_iff.mp hs
  obtain ⟨task, hget, htask⟩ := (Option.any_eq_true _ _).mp hfirst
  obtain ⟨hname, hcounts⟩ := of_decide_eq_true htask
  refine ⟨s, hrun, of_decide_eq_true hlength, task, hget, hcounts, fun j other hother hname' h => ?_⟩
  exact occurrence_launched_once hrun hget hother hname hname' hcounts h

/-- The job is launched on schedule at the first minute. While its worker runs,
a wake makes the loop scan: `last_runs_` does not know of the run yet, and the
same minute is reported as missed and launched again. -/
theorem minute_launched_twice :
    ∃ labels s a b,
      Run (step midnight) (InScope (text "a")) (recovering (fun _ => none) 0) labels s ∧
      minutely.Occurs midnight 60 ∧ s.terminated = false ∧ s.tasks[0]? = some a ∧
      s.tasks[1]? = some b ∧ a.job.name = text "a" ∧ b.job.name = text "a" ∧
      a.cause.CountsFor s.tickets 60 ∧ b.cause.CountsFor s.tickets 60 := by
  obtain ⟨s, hrun, hs⟩ := Run.of_exec_any (step midnight) (InScope (text "a"))
    (recovering (fun _ => none) 0)
    (.start :: .clock 60 :: List.replicate 12 .loop ++ .notifyWake :: List.replicate 17 .loop ++
      workerSucceeds 0 ++ List.replicate 11 .loop)
    (fun s => !s.terminated && ((s.tasks[0]?.any fun (task : Task) =>
        decide (task.job.name = text "a" ∧ task.cause.CountsFor s.tickets 60)) &&
      s.tasks[1]?.any fun (task : Task) =>
        decide (task.job.name = text "a" ∧ task.cause.CountsFor s.tickets 60)))
    (by decide +kernel)
  obtain ⟨hlive, htasks⟩ := Bool.and_eq_true_iff.mp hs
  obtain ⟨hfirst, hsecond⟩ := Bool.and_eq_true_iff.mp htasks
  obtain ⟨a, hgeta, ha⟩ := (Option.any_eq_true _ _).mp hfirst
  obtain ⟨b, hgetb, hb⟩ := (Option.any_eq_true _ _).mp hsecond
  obtain ⟨haname, hacounts⟩ := of_decide_eq_true ha
  obtain ⟨hbname, hbcounts⟩ := of_decide_eq_true hb
  exact ⟨_, s, a, b, hrun, by decide +kernel, by simpa using hlive, hgeta, hgetb, haname, hbname,
    hacounts, hbcounts⟩

end Runs

end AgentPulse.Scheduler
