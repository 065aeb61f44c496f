import AgentPulse.Jobs.TaskSafety
import AgentPulse.Jobs.Tickets

/-!
# Every request is accounted for

A request enters the queue with a ticket. As long as its job is running, the
ticks put it back; a tick that finds no job of its name drops it, and any other
tick places it in `to_launch` with the job it finds. The tickets that wait,
those placed and those dropped are together all tickets, each of them once.

## Implementation notes

While the loop holds `mutex_` the entries of the queue are in its hands, and no
other thread can append to the queue. What waits is therefore either the queue
or what the locked section has in hand, never both.
-/

namespace AgentPulse.Scheduler

open Transition

/-- A request placed in `to_launch`: its ticket, and the job and the trigger it
was placed with. -/
structure Placement where
  ticket : Nat
  job : Job
  trigger : Trigger
  deriving DecidableEq

/-- The request a launch answers. -/
def LaunchEntry.placement (entry : LaunchEntry) : Option Placement :=
  match entry.cause with
  | .request ticket => some ⟨ticket, entry.job, entry.trigger⟩
  | .due _ _ => none

/-- The entry of `to_launch` a task was made from. -/
def Task.entry (task : Task) : LaunchEntry := ⟨task.job, task.trigger, task.cause⟩

/-- The requests that wait in the queue, or in the hands of the locked section. -/
def State.waiting (s : State) : List QueueEntry :=
  match s.loop with
  | .drain _ rest deferred _ => deferred ++ rest
  | _ => s.queue

/-- The requests ever placed in `to_launch`, launched or about to be. -/
def State.placements (s : State) : List Placement :=
  (s.tasks.map Task.entry ++ s.loop.toLaunch).filterMap LaunchEntry.placement

structure RequestView where
  jobs : List Job
  tickets : List Ticket
  waiting : List QueueEntry
  placements : List Placement
  dropped : List Nat

def State.requests (s : State) : RequestView where
  jobs := s.jobs
  tickets := s.tickets
  waiting := s.waiting
  placements := s.placements
  dropped := s.dropped

/-- The name a scan is about to queue. -/
def ScanPc.enqueues : ScanPc → Option Bytes
  | .enqueue _ job _ _ => some job.name
  | _ => none

/-- The name a step puts into the queue. -/
def State.enqueues (s : State) : Label → Option Bytes
  | .loop => s.loop.scanPc.enqueues
  | .starter => s.starter.enqueues
  | .call thread _ =>
      match s.calls thread with
      | .enqueue name => some name
      | _ => none
  | _ => none

/-- The moves of the requests; `enqueues` is the name the step puts into the
queue. -/
inductive RequestMove (enqueues : Option Bytes) (v : RequestView) : RequestView → Prop
  | stay (jobs : List Job) : RequestMove enqueues v { v with jobs := jobs }
  | issue (ticket : Ticket) (hissued : enqueues = some ticket.name) :
      RequestMove enqueues v { v with
        tickets := v.tickets ++ [ticket]
        waiting := v.waiting ++ [⟨ticket.name, ticket.trigger, v.tickets.length⟩] }
  | drop (before after : List QueueEntry) (entry : QueueEntry)
      (hwaiting : v.waiting = before ++ entry :: after)
      (hnone : findJob v.jobs entry.name = none) :
      RequestMove enqueues v { v with
        waiting := before ++ after
        dropped := v.dropped ++ [entry.ticket] }
  | place (before after : List QueueEntry) (entry : QueueEntry) (job : Job)
      (hwaiting : v.waiting = before ++ entry :: after)
      (hfind : findJob v.jobs entry.name = some job) :
      RequestMove enqueues v { v with
        waiting := before ++ after
        placements := v.placements ++ [⟨entry.ticket, job, entry.trigger⟩] }

/-- Every ticket waits, is placed or is dropped, exactly once; what waits and
what is placed has the name and the trigger of its ticket. -/
structure Accounted (v : RequestView) : Prop where
  partition : (v.waiting.map QueueEntry.ticket ++ v.placements.map Placement.ticket ++
    v.dropped).Perm (List.range v.tickets.length)
  waiting : ∀ entry ∈ v.waiting, ∃ ticket, v.tickets[entry.ticket]? = some ticket ∧
    entry.name = ticket.name ∧ entry.trigger = ticket.trigger
  placed : ∀ p ∈ v.placements, ∃ ticket, v.tickets[p.ticket]? = some ticket ∧
    p.job.name = ticket.name ∧ p.trigger = ticket.trigger

section Simulation

variable {loc : LocalTime} {s t : State} {enqueues : Option Bytes}

theorem RequestMove.of_eq (h : t.requests = { s.requests with jobs := t.jobs }) :
    RequestMove enqueues s.requests t.requests :=
  h ▸ .stay t.jobs

theorem waiting_of_lockFree (h : s.lockFree = true) : s.waiting = s.queue := by
  cases hloop : s.loop <;> simp_all [State.lockFree, State.waiting]

theorem waiting_of_drain {wall : Int} {entry : QueueEntry} {rest deferred : List QueueEntry}
    {toLaunch : List LaunchEntry}
    (hloop : s.loop = .drain wall (entry :: rest) deferred toLaunch) :
    s.requests.waiting = deferred ++ entry :: rest := by
  simp [State.requests, State.waiting, hloop]

/-- A step of a scan on either thread. -/
theorem scanStep_requests {pc next : ScanPc} (h : scanStep loc s pc = some (t, next)) :
    t.requests = s.requests ∨ ∃ ticket, pc.enqueues = some ticket.name ∧
      t.requests = { s.requests with
        tickets := s.tickets ++ [ticket]
        waiting := s.waiting ++ [⟨ticket.name, ticket.trigger, s.tickets.length⟩] } := by
  cases scanStep_cases h with
  | enqueue now job missed rest hfree =>
      right
      refine ⟨⟨job.name, .missed, some missed⟩, rfl, ?_⟩
      have hsame : (s.enqueue job.name .missed (some missed)).waiting =
          (s.enqueue job.name .missed (some missed)).queue := waiting_of_lockFree hfree
      simp only [State.requests, hsame, waiting_of_lockFree hfree]
      rfl
  | _ => exact Or.inl rfl

theorem map_entry_modify (id : Nat) (f : Task → Task) (hf : ∀ task, (f task).entry = task.entry) :
    (s.tasks.modify id f).map Task.entry = s.tasks.map Task.entry :=
  KeyedList.map_modify_of_key hf

/-- The loop thread stands in its scan or behind it, which the requests do not see. -/
theorem requests_of_scan {m : State} {wall : Int} {pc : ScanPc} (hloop : m.loop = .scan wall pc)
    (next : ScanPc) :
    State.requests { m with loop := if next = .idle then .lock wall else .scan wall next } =
      m.requests := by
  split_ifs
  · simp [State.requests, State.waiting, State.placements, hloop]
  · simp [State.requests, State.waiting, State.placements, hloop]

theorem LoopStep.requests (h : LoopStep loc s t) :
    RequestMove (s.enqueues .loop) s.requests t.requests := by
  cases h with
  | reap hloop hactive =>
      apply RequestMove.of_eq
      simp [State.requests, State.waiting, State.placements, State.reap, hloop]
  | join id rest hloop =>
      apply RequestMove.of_eq
      simp [State.requests, State.waiting, State.placements, State.joinTask, hloop,
        map_entry_modify id Task.join fun _ => rfl]
  | @scan m wall pc next hloop hscan =>
      have hm : m.loop = .scan wall pc := by
        obtain ⟨_, _, _, _, rfl⟩ := scanStep_frame hscan
        exact hloop
      rw [requests_of_scan hm]
      obtain heq | ⟨ticket, hissued, heq⟩ := scanStep_requests hscan
      · rw [heq]
        exact .stay s.jobs
      · rw [heq]
        exact .issue ticket (by simpa [State.enqueues, hloop] using hissued)
  | drop wall entry rest deferred toLaunch hloop hnone =>
      convert RequestMove.drop deferred rest entry (waiting_of_drain hloop) hnone using 1
      simp [State.requests, State.waiting, State.placements, hloop]
  | place wall entry rest deferred toLaunch job hloop hfind hidle =>
      convert RequestMove.place deferred rest entry job (waiting_of_drain hloop) hfind using 1
      simp [State.requests, State.waiting, State.placements, LaunchEntry.placement, hloop]
  | fire wall job rest toLaunch c next hloop hschedule hnext hdue hidle =>
      apply RequestMove.of_eq
      simp [State.requests, State.waiting, State.placements, LaunchEntry.placement, hloop]
  | launch entry rest hloop =>
      apply RequestMove.of_eq
      simp [State.requests, State.waiting, State.placements, State.launchEntry, LaunchEntry.task,
        Task.entry, hloop]
  | startThread id rest hloop =>
      apply RequestMove.of_eq
      simp [State.requests, State.waiting, State.placements, hloop,
        map_entry_modify id Task.create fun _ => rfl]
  | exit hloop | joined hloop | gap hloop | wake hloop | awake hloop | lock _ hloop
  | drained _ _ _ hloop | defer _ _ _ _ _ hloop | decided _ _ hloop | unscheduled _ _ _ _ hloop
  | unplanned _ _ _ _ _ hloop | later _ _ _ _ _ _ hloop | overlap _ _ _ _ _ _ hloop
  | launched hloop | publish hloop | setJobs _ hloop =>
      apply RequestMove.of_eq
      simp [State.requests, State.waiting, State.placements, hloop]

theorem StopStep.requests (h : StopStep s t) : RequestMove enqueues s.requests t.requests := by
  cases h with
  | joinLoop hstopper hloop =>
      apply RequestMove.of_eq
      simp [State.requests, State.waiting, State.placements, hloop]
  | join id rest task hstopper hget hdone =>
      apply RequestMove.of_eq
      simp [State.requests, State.waiting, State.placements, State.joinTask,
        map_entry_modify id Task.join fun _ => rfl]
  | inactive | stop | takeTasks | joined => exact .stay s.jobs

theorem CallStep.requests {thread : Nat} (h : CallStep loc s thread t) (dbError : Option Bytes) :
    RequestMove (s.enqueues (.call thread dbError)) s.requests t.requests := by
  cases h with
  | enqueue name hcall hfree =>
      have hsame : State.waiting ((s.enqueue name .manual none).ret thread (.requestRun name) none) =
          (s.enqueue name .manual none).queue := waiting_of_lockFree hfree
      have hissued : s.enqueues (.call thread dbError) = some name := by
        simp [State.enqueues, hcall]
      convert RequestMove.issue ⟨name, .manual, none⟩ hissued using 1
      simp only [State.requests, hsame, waiting_of_lockFree hfree]
      rfl
  | _ => exact .stay _

/-- Each step of the scheduler is a move of the requests. -/
theorem step_requests {label : Label} (h : step loc s label = some t) :
    RequestMove (s.enqueues label) s.requests t.requests := by
  cases step_cases h with
  | clock | active | notifyWake => exact .stay s.jobs
  | start hactive hloop hstarter hstopper =>
      apply RequestMove.of_eq
      simp [State.requests, State.waiting, State.placements, hloop]
  | stop hstep => exact hstep.requests
  | loop hstep => exact hstep.requests
  | @starter m next hscan =>
      have hm : State.requests { m with starter := next } = m.requests := rfl
      rw [hm]
      obtain heq | ⟨ticket, hissued, heq⟩ := scanStep_requests hscan
      · rw [heq]
        exact .stay s.jobs
      · rw [heq]
        exact .issue ticket hissued
  | begin thread call hstep =>
      obtain ⟨_, _, rfl⟩ := hstep.frame
      exact .stay s.jobs
  | call thread dbError hstep => exact hstep.requests dbError
  | worker id outcome dbOk hstep =>
      obtain ⟨task, pc, effect, _, hget, _, _⟩ := hstep
      apply RequestMove.of_eq
      have hentries : ∀ done, (s.tasks.set id { task with pc := pc, done := done }).map
          Task.entry = s.tasks.map Task.entry := fun _ => KeyedList.map_set_of_key hget rfl
      simp only [State.requests, State.waiting, State.placements, hentries]

end Simulation

section Accounting

variable {v w : RequestView} {enqueues : Option Bytes}

/-- Entries are known to tickets that are there. -/
theorem getElem?_issue {tickets : List Ticket} {k : Nat} {old ticket : Ticket}
    (h : tickets[k]? = some old) : (tickets ++ [ticket])[k]? = some old := by
  rw [List.getElem?_append_left (List.getElem?_eq_some_iff.mp h).1, h]

theorem Accounted.issue (h : Accounted v) (ticket : Ticket) :
    Accounted { v with
      tickets := v.tickets ++ [ticket]
      waiting := v.waiting ++ [⟨ticket.name, ticket.trigger, v.tickets.length⟩] } := by
  constructor
  · have hrange : List.range (v.tickets ++ [ticket]).length =
        List.range v.tickets.length ++ [v.tickets.length] := by
      rw [List.length_append, List.length_singleton, List.range_succ]
    rw [hrange, List.map_append]
    apply List.perm_iff_count.mpr
    intro k
    have hold := List.perm_iff_count.mp h.partition k
    simp only [List.count_append, List.map_cons, List.map_nil] at hold ⊢
    omega
  · intro entry hmem
    obtain hold | hnew := List.mem_append.mp hmem
    · obtain ⟨old, hget, hown⟩ := h.waiting entry hold
      exact ⟨old, getElem?_issue hget, hown⟩
    · rw [List.mem_singleton.mp hnew]
      exact ⟨ticket, by simp, rfl, rfl⟩
  · intro p hp
    obtain ⟨old, hget, hown⟩ := h.placed p hp
    exact ⟨old, getElem?_issue hget, hown⟩

theorem Accounted.drop (h : Accounted v) {before after : List QueueEntry} {entry : QueueEntry}
    (hwaiting : v.waiting = before ++ entry :: after) :
    Accounted { v with
      waiting := before ++ after
      dropped := v.dropped ++ [entry.ticket] } := by
  constructor
  · apply List.perm_iff_count.mpr
    intro k
    have hold := List.perm_iff_count.mp h.partition k
    simp only [hwaiting, List.map_append, List.map_cons, List.count_append, List.count_cons,
      List.count_nil] at hold ⊢
    omega
  · intro e he
    apply h.waiting e
    rw [hwaiting]
    obtain hold | hold := List.mem_append.mp he <;> simp [hold]
  · exact h.placed

theorem Accounted.place (h : Accounted v) {before after : List QueueEntry} {entry : QueueEntry}
    {job : Job} (hwaiting : v.waiting = before ++ entry :: after)
    (hfind : findJob v.jobs entry.name = some job) :
    Accounted { v with
      waiting := before ++ after
      placements := v.placements ++ [⟨entry.ticket, job, entry.trigger⟩] } := by
  constructor
  · apply List.perm_iff_count.mpr
    intro k
    have hold := List.perm_iff_count.mp h.partition k
    simp only [hwaiting, List.map_append, List.map_cons, List.map_nil, List.count_append,
      List.count_cons, List.count_nil] at hold ⊢
    omega
  · intro e he
    apply h.waiting e
    rw [hwaiting]
    obtain hold | hold := List.mem_append.mp he <;> simp [hold]
  · intro p hp
    obtain hold | hnew := List.mem_append.mp hp
    · exact h.placed p hold
    · rw [List.mem_singleton.mp hnew]
      obtain ⟨ticket, hget, hname, htrigger⟩ := h.waiting entry (by simp [hwaiting])
      exact ⟨ticket, hget, (findJob_mem hfind).2.trans hname, htrigger⟩

theorem Accounted.move (h : Accounted v) (hmove : RequestMove enqueues v w) : Accounted w := by
  cases hmove with
  | stay jobs => exact ⟨h.partition, h.waiting, h.placed⟩
  | issue ticket hissued => exact h.issue ticket
  | drop before after entry hwaiting hnone => exact h.drop hwaiting
  | place before after entry job hwaiting hfind => exact h.place hwaiting hfind

/-- A ticket waits, is placed or is dropped, and only one of it, once. -/
theorem Accounted.count (h : Accounted v) {k : Nat} {ticket : Ticket}
    (hget : v.tickets[k]? = some ticket) :
    (v.waiting.map QueueEntry.ticket).count k + (v.placements.map Placement.ticket).count k +
      v.dropped.count k = 1 := by
  have hlt := (List.getElem?_eq_some_iff.mp hget).1
  have hperm := List.perm_iff_count.mp h.partition k
  have hone : (List.range v.tickets.length).count k = 1 :=
    List.count_eq_one_of_mem List.nodup_range (List.mem_range.mpr hlt)
  rw [List.count_append, List.count_append, hone] at hperm
  exact hperm

/-- A request is dropped only while no job has its name, and placed only with
the job that has it; tickets stay. -/
theorem Accounted.step (h : Accounted v) (hmove : RequestMove enqueues v w) :
    v.tickets <+: w.tickets ∧
      (∀ k ∈ w.dropped, k ∈ v.dropped ∨
        ∃ ticket, v.tickets[k]? = some ticket ∧ findJob v.jobs ticket.name = none) ∧
      ∀ p ∈ w.placements, p ∈ v.placements ∨
        ∃ ticket, v.tickets[p.ticket]? = some ticket ∧ findJob v.jobs ticket.name = some p.job := by
  cases hmove with
  | stay jobs => exact ⟨List.prefix_refl _, fun _ hk => Or.inl hk, fun _ hp => Or.inl hp⟩
  | issue ticket hissued =>
      exact ⟨List.prefix_append _ _, fun _ hk => Or.inl hk, fun _ hp => Or.inl hp⟩
  | drop before after entry hwaiting hnone =>
      obtain ⟨ticket, hget, hname, _⟩ := h.waiting entry (by simp [hwaiting])
      refine ⟨List.prefix_refl _, fun k hk => ?_, fun _ hp => Or.inl hp⟩
      obtain hold | hnew := List.mem_append.mp hk
      · exact Or.inl hold
      · rw [List.mem_singleton.mp hnew]
        exact Or.inr ⟨ticket, hget, hname ▸ hnone⟩
  | place before after entry job hwaiting hfind =>
      obtain ⟨ticket, hget, hname, _⟩ := h.waiting entry (by simp [hwaiting])
      refine ⟨List.prefix_refl _, fun _ hk => Or.inl hk, fun p hp => ?_⟩
      obtain hold | hnew := List.mem_append.mp hp
      · exact Or.inl hold
      · rw [List.mem_singleton.mp hnew]
        exact Or.inr ⟨ticket, hget, hname ▸ hfind⟩

end Accounting

section Runs

variable {loc : LocalTime} {config : List Job} {table : JobTable}
  {lastRun : Bytes → Option RunRecord} {now : ℕ} {s : State}

theorem accounted_of_reachable
    (h : Reachable (step loc) (initial loc config table lastRun now) s) : Accounted s.requests := by
  obtain ⟨labels, hrun⟩ := h
  apply hrun.invariant (I := fun s => Accounted s.requests)
  · intro s label t hinv _ hstep
    exact hinv.move (step_requests hstep)
  · constructor <;> simp [initial, State.requests, State.waiting, State.placements]

/-- In every reachable state each request ever queued is still waiting, was
dropped, or was placed in `to_launch` with its own trigger, and exactly one of
these, once. It is dropped only by a tick that finds no job of its name, and
placed only with the job of its name at that tick. -/
theorem request_accounted_once
    (h : Reachable (step loc) (initial loc config table lastRun now) s) :
    (∀ k ticket, s.tickets[k]? = some ticket →
      (s.waiting.map QueueEntry.ticket).count k + (s.placements.map Placement.ticket).count k +
        s.dropped.count k = 1) ∧
      (∀ entry ∈ s.waiting, ∃ ticket, s.tickets[entry.ticket]? = some ticket ∧
        entry.name = ticket.name ∧ entry.trigger = ticket.trigger) ∧
      (∀ p ∈ s.placements, ∃ ticket, s.tickets[p.ticket]? = some ticket ∧
        p.job.name = ticket.name ∧ p.trigger = ticket.trigger) ∧
      ∀ label t, step loc s label = some t →
        s.tickets <+: t.tickets ∧
          (∀ k ∈ t.dropped, k ∈ s.dropped ∨
            ∃ ticket, s.tickets[k]? = some ticket ∧ findJob s.jobs ticket.name = none) ∧
          ∀ p ∈ t.placements, p ∈ s.placements ∨
            ∃ ticket, s.tickets[p.ticket]? = some ticket ∧
              findJob s.jobs ticket.name = some p.job := by
  have haccounted := accounted_of_reachable h
  refine ⟨?_, haccounted.waiting, haccounted.placed, ?_⟩
  · intro k ticket hget
    exact haccounted.count hget
  · intro label t hstep
    exact haccounted.step (step_requests hstep)

/-- Of two requests of one job the first is placed, the second waits while the
job runs. -/
theorem request_accounted_once_deferred :
    ∃ s, Reachable (step midnight) manualOnly s ∧ s.placements.map Placement.ticket = [0] ∧
      s.waiting.map QueueEntry.ticket = [1] ∧
      ∀ k ticket, s.tickets[k]? = some ticket →
        (s.waiting.map QueueEntry.ticket).count k + (s.placements.map Placement.ticket).count k +
          s.dropped.count k = 1 := by
  obtain ⟨s, hrun, hs⟩ := Run.of_exec_any (step midnight) free manualOnly
    (firstTick ++ requestRun ++ List.replicate 9 .loop ++ requestRun ++ List.replicate 7 .loop)
    (fun s => decide (s.placements.map Placement.ticket = [0] ∧
      s.waiting.map QueueEntry.ticket = [1]))
    (by decide +kernel)
  obtain ⟨hplaced, hwaiting⟩ := of_decide_eq_true hs
  have hreachable : Reachable (step midnight) manualOnly s := ⟨_, hrun⟩
  exact ⟨s, hreachable, hplaced, hwaiting, (request_accounted_once hreachable).1⟩

end Runs

end AgentPulse.Scheduler
