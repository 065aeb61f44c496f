import AgentPulse.Jobs.Firing
import AgentPulse.Lib.KeyedList
import Mathlib.Data.List.Perm.Subperm

/-!
# Every request is launched at most once

A request gets a ticket when it enters the queue. The locked section of a tick
drops it, keeps it for later or decides to launch it, and never copies it. The
tickets that wait and those of the launches so far are therefore distinct, and
each belongs to the job it was issued for.
-/

namespace AgentPulse.Scheduler

open Transition

/-- The queue entries the locked section has taken out of the queue. -/
@[simp] def LoopPc.inHand : LoopPc → List QueueEntry
  | .drain _ rest deferred _ => deferred ++ rest
  | _ => []

/-- The requests among the launches, with their tickets. -/
def requests (launches : List (Bytes × Cause)) : List (Bytes × Nat) :=
  launches.filterMap fun (name, cause) =>
    match cause with
    | .request ticket => some (name, ticket)
    | .due _ _ => none

/-- The requests launched and those that wait. -/
def State.entries (s : State) : List (Bytes × Nat) :=
  requests s.launches ++
    (s.queue ++ s.loop.inHand).map fun entry => (entry.name, entry.ticket)

/-- The tickets of the entries are distinct and issued for their names. -/
structure Ticketed (tickets : List Ticket) (entries : List (Bytes × Nat)) : Prop where
  nodup : (entries.map Prod.snd).Nodup
  named : ∀ e ∈ entries, ∃ ticket, tickets[e.2]? = some ticket ∧ ticket.name = e.1

section Entries

variable {tickets : List Ticket} {entries entries' : List (Bytes × Nat)}

theorem Ticketed.subperm (h : Ticketed tickets entries) (hsub : entries'.Subperm entries) :
    Ticketed tickets entries' := by
  refine ⟨?_, fun e he => h.named e (hsub.subset he)⟩
  obtain ⟨l, hperm, hsublist⟩ := hsub
  exact (hperm.map Prod.snd).nodup_iff.mp ((hsublist.map Prod.snd).nodup h.nodup)

/-- A new ticket is the next one. -/
theorem Ticketed.issue (h : Ticketed tickets entries) (ticket : Ticket) :
    Ticketed (tickets ++ [ticket]) (entries ++ [(ticket.name, tickets.length)]) := by
  have hold : ∀ e ∈ entries, e.2 < tickets.length := by
    intro e he
    obtain ⟨_, hget, _⟩ := h.named e he
    exact (List.getElem?_eq_some_iff.mp hget).1
  refine ⟨?_, ?_⟩
  · rw [List.map_append]
    refine List.Nodup.append h.nodup (List.nodup_singleton _) ?_
    intro k hk hnew
    obtain ⟨e, he, rfl⟩ := List.mem_map.mp hk
    have := hold e he
    simp only [List.map_cons, List.map_nil, List.mem_singleton] at hnew
    omega
  · intro e he
    obtain hmem | hmem := List.mem_append.mp he
    · obtain ⟨ticket', hget, hname⟩ := h.named e hmem
      exact ⟨ticket', by rw [List.getElem?_append_left (hold e hmem), hget], hname⟩
    · rw [List.mem_singleton.mp hmem]
      exact ⟨ticket, by simp, rfl⟩

end Entries

section Simulation

variable {loc : LocalTime} {s t : State}

/-- What a step of a scan does to the queue and the tickets. -/
theorem scanStep_queue {pc next : ScanPc} (h : scanStep loc s pc = some (t, next)) :
    t.tickets = s.tickets ∧ t.queue = s.queue ∨
      ∃ now job missed rest, pc = .enqueue now job missed rest ∧
        t.tickets = s.tickets ++ [⟨job.name, .missed, some missed⟩] ∧
        t.queue = s.queue ++ [⟨job.name, .missed, s.tickets.length⟩] := by
  cases scanStep_cases h with
  | enqueue now job missed rest hfree => exact Or.inr ⟨now, job, missed, rest, rfl, rfl, rfl⟩
  | _ => exact Or.inl ⟨rfl, rfl⟩

/-- A step keeps the tickets and copies no entry, or it issues one ticket. -/
inductive TicketMove (s t : State) : Prop
  | keep (htickets : t.tickets = s.tickets) (hentries : t.entries.Subperm s.entries)
  | issue (ticket : Ticket) (htickets : t.tickets = s.tickets ++ [ticket])
      (hentries : t.entries.Subperm (s.entries ++ [(ticket.name, s.tickets.length)]))

theorem TicketMove.of_eq (htickets : t.tickets = s.tickets) (hentries : t.entries = s.entries) :
    TicketMove s t :=
  .keep htickets (hentries ▸ List.Subperm.refl _)

/-- One more entry at the end of the queue. -/
theorem subperm_enqueue (launched : List (Bytes × Nat)) (queue inHand : List QueueEntry)
    (entry : QueueEntry) :
    (launched ++ ((queue ++ [entry]) ++ inHand).map fun e => (e.name, e.ticket)).Subperm
      (launched ++ (queue ++ inHand).map (fun e => (e.name, e.ticket)) ++
        [(entry.name, entry.ticket)]) := by
  refine List.subperm_iff_count.mpr fun a => ?_
  simp only [List.map_append, List.count_append, List.map_cons, List.map_nil]
  omega

theorem LoopStep.tickets (h : LoopStep loc s t) : TicketMove s t := by
  cases h with
  | reap hloop hactive =>
      refine .of_eq rfl ?_
      simp [State.entries, State.launches, State.reap, hloop]
  | join id rest hloop =>
      refine .of_eq rfl ?_
      simp [State.entries, State.launches, State.joinTask, hloop,
        map_cause_modify s.tasks id Task.join fun _ => ⟨rfl, rfl⟩]
  | scan wall pc next hloop hscan =>
      obtain ⟨htickets, hqueue⟩ | ⟨now, job, missed, rest, _, htickets, hqueue⟩ :=
        scanStep_queue hscan
      · obtain ⟨_, _, _, _, rfl⟩ := scanStep_frame hscan
        simp only at htickets hqueue
        refine .of_eq htickets ?_
        simp only [State.entries, State.launches, hloop, hqueue]
        split_ifs <;> simp
      · obtain ⟨_, _, _, _, rfl⟩ := scanStep_frame hscan
        simp only at htickets hqueue
        refine .issue ⟨job.name, .missed, some missed⟩ htickets ?_
        simp only [State.entries, State.launches, hloop, hqueue]
        split_ifs <;> simpa using subperm_enqueue _ s.queue [] ⟨job.name, .missed, s.tickets.length⟩
  | drained wall deferred toLaunch hloop =>
      refine .keep rfl (List.subperm_iff_count.mpr fun a => ?_)
      simp [State.entries, State.launches, hloop, List.count_append]
  | drop wall entry rest deferred toLaunch hloop hnone =>
      refine .keep rfl (List.subperm_iff_count.mpr fun a => ?_)
      simp only [State.entries, State.launches, hloop, LoopPc.toLaunch, LoopPc.inHand,
        List.map_append, List.map_cons, List.count_append, List.count_cons]
      omega
  | defer wall entry rest deferred toLaunch hloop hrunning =>
      refine .keep rfl (List.subperm_iff_count.mpr fun a => ?_)
      simp only [State.entries, State.launches, hloop, LoopPc.toLaunch, LoopPc.inHand,
        List.map_append, List.map_cons, List.map_nil, List.count_append, List.count_cons,
        List.count_nil]
      omega
  | place wall entry rest deferred toLaunch job hloop hfind hidle =>
      obtain ⟨_, hname⟩ := findJob_mem hfind
      refine .keep rfl (List.subperm_iff_count.mpr fun a => ?_)
      simp only [State.entries, State.launches, hloop, LoopPc.toLaunch, LoopPc.inHand,
        requests, List.filterMap_append, List.map_append, List.map_cons, List.map_nil,
        List.filterMap_cons, List.filterMap_nil, List.count_append, List.count_cons,
        List.count_nil, hname]
      omega
  | fire wall job rest toLaunch c next hloop hschedule hnext hdue hidle =>
      refine .of_eq rfl ?_
      simp [State.entries, State.launches, requests, hloop]
  | launch entry rest hloop =>
      refine .of_eq rfl ?_
      simp [State.entries, State.launches, State.launchEntry, LaunchEntry.task, hloop]
  | startThread id rest hloop =>
      refine .of_eq rfl ?_
      simp [State.entries, State.launches, hloop,
        map_cause_modify s.tasks id Task.create fun _ => ⟨rfl, rfl⟩]
  | exit hloop | joined hloop | gap hloop | wake hloop | awake hloop | lock _ hloop
  | decided _ _ hloop | unscheduled _ _ _ _ hloop | unplanned _ _ _ _ _ hloop
  | later _ _ _ _ _ _ hloop | overlap _ _ _ _ _ _ hloop | launched hloop | publish hloop
  | setJobs _ hloop =>
      refine .of_eq rfl ?_
      simp [State.entries, State.launches, hloop]

theorem StopStep.tickets (h : StopStep s t) : TicketMove s t := by
  cases h with
  | joinLoop hstopper hloop =>
      refine .of_eq rfl ?_
      simp [State.entries, State.launches, hloop]
  | join id rest task hstopper hget hdone =>
      refine .of_eq rfl ?_
      simp [State.entries, State.launches, State.joinTask,
        map_cause_modify s.tasks id Task.join fun _ => ⟨rfl, rfl⟩]
  | inactive | stop | takeTasks | joined => exact .of_eq rfl rfl

theorem CallStep.tickets {thread : Nat} (h : CallStep loc s thread t) : TicketMove s t := by
  cases h with
  | enqueue name hcall hfree =>
      exact .issue ⟨name, .manual, none⟩ rfl
        (subperm_enqueue _ s.queue s.loop.inHand ⟨name, .manual, s.tickets.length⟩)
  | _ => exact .of_eq rfl rfl

/-- Each step keeps the tickets and copies no entry, or issues one ticket. -/
theorem step_tickets {label : Label} (h : step loc s label = some t) : TicketMove s t := by
  cases step_cases h with
  | clock | active | notifyWake => exact .of_eq rfl rfl
  | start hactive hloop hstarter hstopper =>
      refine .of_eq rfl ?_
      simp [State.entries, State.launches, hloop]
  | stop hstep => exact hstep.tickets
  | loop hstep => exact hstep.tickets
  | starter next hscan =>
      obtain ⟨htickets, hqueue⟩ | ⟨now, job, missed, rest, _, htickets, hqueue⟩ :=
        scanStep_queue hscan
      · obtain ⟨_, _, _, _, rfl⟩ := scanStep_frame hscan
        refine .of_eq htickets ?_
        simp only at hqueue
        simp only [State.entries, State.launches, hqueue]
      · obtain ⟨_, _, _, _, rfl⟩ := scanStep_frame hscan
        refine .issue ⟨job.name, .missed, some missed⟩ htickets ?_
        simp only at hqueue
        simp only [State.entries, State.launches, hqueue]
        exact subperm_enqueue _ s.queue s.loop.inHand ⟨job.name, .missed, s.tickets.length⟩
  | begin thread call hstep =>
      obtain ⟨_, _, rfl⟩ := hstep.frame
      exact .of_eq rfl rfl
  | call thread dbError hstep => exact hstep.tickets
  | worker id outcome dbOk hstep =>
      obtain ⟨task, pc, effect, _, hget, _, _⟩ := hstep
      refine .of_eq rfl ?_
      simp only [State.entries, State.launches]
      rw [map_cause_set s.tasks id task]
      · exact hget
      · rfl
      · rfl

/-- In every run the tickets that wait and those launched are distinct. -/
theorem ticketed_of_run {ok : State → Label → Prop} {config : List Job} {table : JobTable}
    {lastRun : Bytes → Option RunRecord} {now : ℕ} {labels : List Label}
    (h : Run (step loc) ok (initial loc config table lastRun now) labels s) :
    Ticketed s.tickets s.entries := by
  refine h.invariant (I := fun s => Ticketed s.tickets s.entries) ?_ ?_
  · intro s label t hinv _ hstep
    cases step_tickets hstep with
    | keep htickets hentries => exact htickets ▸ hinv.subperm hentries
    | issue ticket htickets hentries => exact htickets ▸ (hinv.issue ticket).subperm hentries
  · constructor <;> simp [initial, State.entries, State.launches, requests]

theorem launches_getElem? {i : Nat} {task : Task} (h : s.tasks[i]? = some task) :
    s.launches[i]? = some (task.job.name, task.cause) := by
  have hlt := (List.getElem?_eq_some_iff.mp h).1
  rw [State.launches, List.getElem?_append_left (by simpa using hlt), List.getElem?_map, h]
  rfl

/-- A launched request has a ticket of its own name. -/
theorem Ticketed.of_task (h : Ticketed s.tickets s.entries) {task : Task} {ticket : Nat}
    (hmem : task ∈ s.tasks) (hcause : task.cause = .request ticket) :
    ∃ request, s.tickets[ticket]? = some request ∧ request.name = task.job.name := by
  refine h.named (task.job.name, ticket) (List.mem_append_left _ ?_)
  refine List.mem_filterMap.mpr ⟨(task.job.name, task.cause), ?_, by simp [hcause]⟩
  exact List.mem_append_left _ (List.mem_map_of_mem hmem)

/-- No two launches answer one request. -/
theorem Ticketed.task_unique (h : Ticketed s.tickets s.entries) {i j ticket : Nat} {a b : Task}
    (ha : s.tasks[i]? = some a) (hb : s.tasks[j]? = some b) (hacause : a.cause = .request ticket)
    (hbcause : b.cause = .request ticket) : i = j := by
  have hnodup := h.nodup
  rw [State.entries, List.map_append] at hnodup
  have hlaunched := (List.nodup_append.mp hnodup).1
  rw [requests, List.map_filterMap] at hlaunched
  exact KeyedList.index_unique (b := ticket) hlaunched (launches_getElem? ha) (launches_getElem? hb)
    (by simp [hacause]) (by simp [hbcause])

end Simulation

end AgentPulse.Scheduler
