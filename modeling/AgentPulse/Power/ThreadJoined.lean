import AgentPulse.Power.SleepMonitor
import Mathlib.Data.List.Nodup
import Mathlib.Data.List.Perm.Subperm

/-!
# When the thread of the sleep monitor is joined

Every thread that is created or about to be created is paid for by a join that
has been made or is owed: by a stop that has its join ahead or by `running_`. A
failed registration that clears `running_` breaks this balance, and so does a
stop that finds `thread_` empty. While no step breaks it, the end of the
destructor finds every thread joined. Once it is broken no later step mends it.
-/

namespace AgentPulse.SleepMonitor

open Transition

/-- The calls that owe something. -/
def inKind (calls : List Call) (k : Kind) : ℕ := calls.countP fun c => c.pc.kind = k

section Counting

variable {calls : List Call} {c : Call} {k : Kind}

theorem inKind_cons :
    inKind (c :: calls) k = inKind calls k + if c.pc.kind = k then 1 else 0 := by
  simp [inKind, List.countP_cons]

theorem inKind_erase (hc : c ∈ calls) :
    inKind (calls.erase c) k + (if c.pc.kind = k then 1 else 0) = inKind calls k := by
  rw [← inKind_cons, inKind, inKind]
  exact (List.perm_cons_erase hc).symm.countP_eq _

theorem inKind_move (hc : c ∈ calls) (pc : CallPc) :
    inKind ({ c with pc } :: calls.erase c) k + (if c.pc.kind = k then 1 else 0) =
      inKind calls k + if pc.kind = k then 1 else 0 := by
  rw [inKind_cons, Nat.add_right_comm, inKind_erase hc]

/-- A call that goes on owing the same changes no count. -/
theorem inKind_move_same (hc : c ∈ calls) (pc : CallPc) (hkind : c.pc.kind = pc.kind) :
    inKind ({ c with pc } :: calls.erase c) k = inKind calls k := by
  have hmove := inKind_move (k := k) hc pc
  rw [hkind] at hmove
  exact Nat.add_right_cancel hmove

end Counting

/-- A test of the place a thread has reached. -/
def threadIs (threads : List ThreadPc) (p : ThreadPc → Bool) (g : ℕ) : Bool :=
  (threads[g]?).any p

section Threads

variable {threads : List ThreadPc} {p : ThreadPc → Bool} {pc next : ThreadPc} {g : ℕ}

theorem threadIs_of_getElem? (hpc : threads[g]? = some pc) : threadIs threads p g = p pc := by
  rw [threadIs, hpc, Option.any_some]

theorem threadIs_set_self (hpc : threads[g]? = some pc) :
    threadIs (threads.set g next) p g = p next := by
  apply threadIs_of_getElem?
  rw [List.getElem?_set_self (List.getElem?_eq_some_iff.mp hpc).1]

theorem threadIs_set_ne {g' : ℕ} (hne : g ≠ g') :
    threadIs (threads.set g next) p g' = threadIs threads p g' := by
  rw [threadIs, threadIs, List.getElem?_set_ne hne]

/-- A test that the move of a thread does not take away is not taken away elsewhere. -/
theorem threadIs_set_of (hpc : threads[g]? = some pc) (hp : p pc = true → p next = true) {g' : ℕ}
    (h : threadIs threads p g' = true) : threadIs (threads.set g next) p g' = true := by
  by_cases hg : g = g'
  · subst hg
    rw [threadIs_of_getElem? hpc] at h
    rw [threadIs_set_self hpc]
    exact hp h
  · rwa [threadIs_set_ne hg]

/-- A thread that moves without changing the test changes no test. -/
theorem threadIs_set (hpc : threads[g]? = some pc) (hp : p next = p pc) (g' : ℕ) :
    threadIs (threads.set g next) p g' = threadIs threads p g' := by
  by_cases hg : g = g'
  · subst hg
    rw [threadIs_set_self hpc, threadIs_of_getElem? hpc, hp]
  · exact threadIs_set_ne hg

theorem threadIs_append (hp : p next = false) (g' : ℕ) :
    threadIs (threads ++ [next]) p g' = threadIs threads p g' := by
  rw [threadIs, threadIs, List.getElem?_append]
  split_ifs with hlt
  · rfl
  · rw [List.getElem?_eq_none (Nat.le_of_not_lt hlt)]
    cases hget : [next][g' - threads.length]? with
    | none => rfl
    | some q =>
        obtain rfl := List.mem_singleton.mp (List.mem_of_getElem? hget)
        rw [Option.any_some, Option.any_none, hp]

theorem ThreadPc.isDone_of_busy {pc : ThreadPc} (h : pc.returned = false) :
    pc.isDone = false := by
  cases pc with
  | done => cases h
  | _ => rfl

end Threads

/-- Every thread created has been joined, and every registration that succeeded has
been given back once. -/
structure Settled (s : State) : Prop where
  joined : ∀ g < s.threads.length, g ∈ s.joined
  deregistered : ∀ g, threadIs s.threads ThreadPc.registered g = true →
    s.deregistered.count g = 1

namespace State

/-- The threads created or about to be. -/
def due (s : State) : ℕ := s.threads.length + inKind s.calls .spawning

/-- The joins made, ahead in a stop, or ahead for the stop that takes `running_`. -/
def paid (s : State) : ℕ := s.joined.length + inKind s.calls .stopping + s.running.toNat

end State

/-- Each thread is joined, in `thread_` or with the start that created it. -/
def Held (s : State) : Prop := ∀ g,
  s.joined.count g + s.handle.toList.count g + inKind s.calls (.holding g) =
    (List.range s.threads.length).count g

/-- A joined thread has returned. -/
def JoinedReturned (s : State) : Prop :=
  ∀ g ∈ s.joined, threadIs s.threads ThreadPc.returned g = true

/-- A thread gives back its registration once, at its end. -/
def GivenBack (s : State) : Prop := ∀ g,
  s.deregistered.count g = (threadIs s.threads ThreadPc.isDone g).toNat

/-- The books of the monitor while every step is orderly. -/
structure Books (s : State) : Prop where
  held : Held s
  balanced : s.paid = s.due
  returned : JoinedReturned s
  givenBack : GivenBack s
  alive : s.phase ≠ .terminated
  ended : s.phase = .destroyed → s.joined.length = s.threads.length

/-- A state from which no run ends well: the monitor has ended, a thread has no join
ahead, or a registration is lost. -/
inductive Spoiled (s : State) : Prop
  | ended (h : s.phase = .destroyed ∨ s.phase = .terminated)
  | unpaid (h : s.paid < s.due)
  | lost (g : ℕ) (hdone : threadIs s.threads ThreadPc.isDone g = true)
      (hmissing : g ∉ s.deregistered) (hnotifier : s.notifier ≠ some g)

theorem books_init : Books init where
  held g := by simp [init, inKind]
  balanced := rfl
  returned := nofun
  givenBack g := by simp [init, threadIs]
  alive := nofun
  ended := nofun

/-! ### The end of the destructor -/

namespace Books

variable {s : State}

theorem joined_nodup (h : Books s) : s.joined.Nodup := by
  rw [List.nodup_iff_count_le_one]
  intro g
  have hheld := h.held g
  have hrange := List.nodup_iff_count_le_one.mp (List.nodup_range (n := s.threads.length)) g
  omega

theorem joined_subset (h : Books s) : s.joined ⊆ List.range s.threads.length := by
  intro g hg
  have hheld := h.held g
  have hcount := List.count_pos_iff.mpr hg
  apply List.count_pos_iff.mp
  omega

theorem joined_perm (h : Books s) (hlength : s.joined.length = s.threads.length) :
    s.joined.Perm (List.range s.threads.length) := by
  apply (List.subperm_of_subset h.joined_nodup h.joined_subset).perm_of_length_le
  exact Nat.le_of_eq (List.length_range.trans hlength.symm)

/-- Without a join ahead every thread has been joined. -/
theorem settleUp (h : Books s) (hok : Orderly s .release) :
    s.joined.length = s.threads.length := by
  obtain ⟨hrunning, hcalls⟩ := hok
  have hstops : inKind s.calls .stopping = 0 := by
    rw [inKind, List.countP_eq_zero]
    intro c hc
    rw [decide_eq_true_eq]
    exact hcalls c hc
  have hbalanced := h.balanced
  have hle := (List.subperm_of_subset h.joined_nodup h.joined_subset).length_le
  rw [State.paid, State.due, hstops, hrunning, Bool.toNat_false] at hbalanced
  rw [List.length_range] at hle
  omega

theorem handle_eq_none (h : Books s) (hlength : s.joined.length = s.threads.length) :
    s.handle = none := by
  cases hhandle : s.handle with
  | none => rfl
  | some g =>
      have hheld := h.held g
      rw [(h.joined_perm hlength).count_eq g, hhandle, Option.toList_some,
        List.count_singleton_self] at hheld
      omega

theorem settled (h : Books s) (hlength : s.joined.length = s.threads.length) : Settled s where
  joined g hg := (h.joined_perm hlength).mem_iff.mpr (List.mem_range.mpr hg)
  deregistered g hg := by
    cases hpc : s.threads[g]? with
    | none =>
        rw [threadIs, hpc] at hg
        cases hg
    | some pc =>
        rw [threadIs_of_getElem? hpc] at hg
        have hjoined : g ∈ s.joined := (h.joined_perm hlength).mem_iff.mpr
          (List.mem_range.mpr (List.getElem?_eq_some_iff.mp hpc).1)
        have hreturned := h.returned g hjoined
        rw [threadIs_of_getElem? hpc] at hreturned
        rw [h.givenBack, threadIs_of_getElem? hpc]
        cases pc with
        | done => rfl
        | register | report | failed => cases hg
        | publish | enter | looping | halted => cases hreturned

end Books

theorem length_le_joined {s : State} (h : Settled s) : s.threads.length ≤ s.joined.length := by
  have hsubset : List.range s.threads.length ⊆ s.joined := fun g hg =>
    h.joined g (List.mem_range.mp hg)
  have hle := (List.subperm_of_subset List.nodup_range hsubset).length_le
  rwa [List.length_range] at hle

/-! ### One step -/

section Moves

variable {s t : State} {a : Label}

/-- A failed registration reported while `running_` is set takes a join away. -/
theorem report_unpaid {g : ℕ} (hrunning : s.running = true) :
    ({ s.setThread g .failed with running := false } : State).paid + s.due <
      s.paid + ({ s.setThread g .failed with running := false } : State).due := by
  simp [State.paid, State.due, State.setThread, hrunning]

/-- So does a stop that finds `thread_` empty. -/
theorem skip_unpaid {c : Call} (hc : c ∈ s.calls) (hpc : c.pc = .check) :
    (s.moveCall c .clear).paid + s.due < s.paid + (s.moveCall c .clear).due := by
  have hspawning := inKind_move (k := .spawning) hc .clear
  have hstopping := inKind_move (k := .stopping) hc .clear
  simp [hpc, CallPc.kind] at hspawning hstopping
  simp [State.paid, State.due, State.moveCall]
  omega

/-- No step adds a payment without a thread, and only a step that is not orderly
drops one. -/
theorem Move.balance (hmove : Move s a t) : t.paid + s.due = s.paid + t.due ∨
    t.paid + s.due < s.paid + t.due ∧ ¬Orderly s a := by
  cases hmove with
  | idle a horderly => exact Or.inl rfl
  | start hrunning =>
      left
      simp [State.paid, State.due, State.beginCall, inKind_cons, CallPc.kind, hrunning]
      omega
  | stop a last phase horderly hrunning hphase =>
      left
      simp [State.paid, State.due, State.beginCall, inKind_cons, CallPc.kind, hrunning]
      omega
  | close hrunning => exact Or.inl rfl
  | destroy hhandle => exact Or.inl rfl
  | abort hhandle => exact Or.inl rfl
  | clash a hclash => exact Or.inl rfl
  | work g registers pc next runLoop notifier hpc hbusy horderly hnotifier =>
      left
      simp [State.paid, State.due, State.setThread]
  | report g registers hpc =>
      cases hrunning : s.running with
      | false =>
          left
          simp [State.paid, State.due, State.setThread, hrunning]
      | true =>
          refine Or.inr ⟨report_unpaid hrunning, fun hok => ?_⟩
          rw [hok.1 hpc] at hrunning
          cases hrunning
  | teardown g registers hpc =>
      left
      simp [State.paid, State.due, State.setThread]
  | spawn c hc hpc =>
      left
      have hspawning := inKind_move (k := .spawning) hc (.assign s.threads.length)
      have hstopping := inKind_move (k := .stopping) hc (.assign s.threads.length)
      simp [hpc, CallPc.kind] at hspawning hstopping
      simp [State.paid, State.due, State.moveCall]
      omega
  | assign c g hc hpc hhandle =>
      left
      have hspawning := inKind_erase (k := .spawning) hc
      have hstopping := inKind_erase (k := .stopping) hc
      simp [hpc, CallPc.kind] at hspawning hstopping
      simp [State.paid, State.due, State.endCall, hspawning, hstopping]
  | advance c next hc hkind horderly =>
      left
      have hcalls := fun k => inKind_move_same (k := k) hc next (hkind.1.trans hkind.2.symm)
      simp [State.paid, State.due, State.moveCall, hcalls]
  | halt c g hc hpc hloop =>
      left
      have hcalls := fun k => inKind_move_same (k := k) hc .check (by rw [hpc]; rfl)
      simp [State.paid, State.due, State.moveCall, State.setThread, hcalls]
  | skip c hc hpc hhandle =>
      refine Or.inr ⟨skip_unpaid hc hpc, fun hok => ?_⟩
      rw [Orderly, hpc] at hok
      exact hok hhandle
  | join c g hc hpc hreturned hhandle =>
      left
      have hspawning := inKind_move (k := .spawning) hc .clear
      have hstopping := inKind_move (k := .stopping) hc .clear
      simp [hpc, CallPc.kind] at hspawning hstopping
      simp [State.paid, State.due, State.moveCall]
      omega
  | leave c hc hpc =>
      left
      have hspawning := inKind_erase (k := .spawning) hc
      have hstopping := inKind_erase (k := .stopping) hc
      simp [hpc, CallPc.kind] at hspawning hstopping
      simp [State.paid, State.due, State.endCall, hspawning, hstopping]

theorem Move.held (hmove : Move s a t) (h : Held s) : Held t := by
  intro g'
  have hheld := h g'
  cases hmove with
  | idle a horderly => exact hheld
  | start hrunning => simpa [State.beginCall, inKind_cons, CallPc.kind] using hheld
  | stop a last phase horderly hrunning hphase =>
      simpa [State.beginCall, inKind_cons, CallPc.kind] using hheld
  | close hrunning => exact hheld
  | destroy hhandle => exact hheld
  | abort hhandle => exact hheld
  | clash a hclash => exact hheld
  | work g registers pc next runLoop notifier hpc hbusy horderly hnotifier =>
      simpa [State.setThread] using hheld
  | report g registers hpc => simpa [State.setThread] using hheld
  | teardown g registers hpc => simpa [State.setThread] using hheld
  | spawn c hc hpc =>
      have hmove := inKind_move (k := .holding g') hc (.assign s.threads.length)
      simp [hpc, CallPc.kind] at hmove
      simp [State.moveCall, List.range_succ, List.count_singleton, hmove] at hheld ⊢
      omega
  | assign c g hc hpc hhandle =>
      have herase := inKind_erase (k := .holding g') hc
      simp [hpc, CallPc.kind] at herase
      simp [State.endCall, hhandle, List.count_singleton] at hheld ⊢
      omega
  | advance c next hc hkind horderly =>
      have hcalls := inKind_move_same (k := .holding g') hc next (hkind.1.trans hkind.2.symm)
      simpa [State.moveCall, hcalls] using hheld
  | halt c g hc hpc hloop =>
      have hcalls := inKind_move_same (k := .holding g') hc .check (by rw [hpc]; rfl)
      simpa [State.moveCall, State.setThread, hcalls] using hheld
  | skip c hc hpc hhandle =>
      have hmove := inKind_move (k := .holding g') hc .clear
      simp [hpc, CallPc.kind] at hmove
      simpa [State.moveCall, hmove] using hheld
  | join c g hc hpc hreturned hhandle =>
      have hmove := inKind_move (k := .holding g') hc .clear
      simp [hpc, CallPc.kind] at hmove
      simp [State.moveCall, hhandle, hmove] at hheld ⊢
      omega
  | leave c hc hpc =>
      have herase := inKind_erase (k := .holding g') hc
      simp [hpc, CallPc.kind] at herase
      simpa [State.endCall, herase] using hheld

/-- A thread that has returned stays so. -/
theorem Move.returned (hmove : Move s a t) {g' : ℕ}
    (h : threadIs s.threads ThreadPc.returned g' = true) :
    threadIs t.threads ThreadPc.returned g' = true := by
  cases hmove with
  | work g registers pc next runLoop notifier hpc hbusy horderly hnotifier =>
      exact threadIs_set_of hpc (by simp [hbusy.1]) h
  | report g registers hpc => exact threadIs_set_of hpc (fun _ => rfl) h
  | teardown g registers hpc => exact threadIs_set_of hpc (fun _ => rfl) h
  | spawn c hc hpc => exact (threadIs_append rfl g').trans h
  | halt c g hc hpc hloop => exact threadIs_set_of hloop (by decide) h
  | idle | start | stop | close | destroy | abort | clash | assign | advance | skip | join | leave =>
      exact h

theorem Move.joinedReturned (hmove : Move s a t) (h : JoinedReturned s) : JoinedReturned t := by
  intro g' hg'
  have hold : g' ∈ s.joined → threadIs t.threads ThreadPc.returned g' = true := fun hmem =>
    hmove.returned (h g' hmem)
  cases hmove with
  | join c g hc hpc hreturned hhandle =>
      obtain hmem | hmem := List.mem_append.mp hg'
      · exact hold hmem
      · rw [List.mem_singleton.mp hmem]
        exact hreturned
  | _ => exact hold hg'

theorem Move.givenBack (hmove : Move s a t) (hok : Orderly s a) (h : GivenBack s) :
    GivenBack t := by
  intro g'
  have hcount := h g'
  cases hmove with
  | work g registers pc next runLoop notifier hpc hbusy horderly hnotifier =>
      have hdone : next.isDone = pc.isDone :=
        (ThreadPc.isDone_of_busy hbusy.2).trans (ThreadPc.isDone_of_busy hbusy.1).symm
      exact hcount.trans (congrArg Bool.toNat (threadIs_set hpc hdone g').symm)
  | report g registers hpc =>
      have hdone : ThreadPc.failed.isDone = ThreadPc.report.isDone := rfl
      exact hcount.trans (congrArg Bool.toNat (threadIs_set hpc hdone g').symm)
  | teardown g registers hpc =>
      simp only [State.setThread, hok.2 hpc, Option.toList_some, List.count_append]
      by_cases hg : g = g'
      · subst hg
        rw [threadIs_of_getElem? hpc] at hcount
        rw [threadIs_set_self hpc, hcount, List.count_singleton_self]
        rfl
      · rw [threadIs_set_ne hg, hcount, List.count_eq_zero_of_not_mem, Nat.add_zero]
        rw [List.mem_singleton]
        exact fun heq => hg heq.symm
  | spawn c hc hpc => exact hcount.trans (congrArg Bool.toNat (threadIs_append rfl g').symm)
  | halt c g hc hpc hloop =>
      have hdone : ThreadPc.halted.isDone = ThreadPc.looping.isDone := rfl
      exact hcount.trans (congrArg Bool.toNat (threadIs_set hloop hdone g').symm)
  | idle | start | stop | close | destroy | abort | clash | assign | advance | skip | join | leave =>
      exact hcount

/-- An orderly step ends the monitor only when every thread is joined. -/
theorem Move.phase (hmove : Move s a t) (hopen : s.phase ≠ .destroyed) (h : Books s)
    (hok : Orderly s a) :
    t.phase ≠ .terminated ∧ (t.phase = .destroyed → t.joined.length = t.threads.length) := by
  cases hmove with
  | stop a last phase horderly hrunning hphase =>
      exact ⟨hphase.2, fun hd => absurd hd hphase.1⟩
  | close hrunning => exact ⟨nofun, nofun⟩
  | destroy hhandle => exact ⟨nofun, fun _ => h.settleUp hok⟩
  | abort hhandle => exact absurd (h.handle_eq_none (h.settleUp hok)) hhandle
  | clash a hclash => exact absurd hok hclash
  | _ => exact ⟨h.alive, fun hd => absurd hd hopen⟩

theorem Move.books (hmove : Move s a t) (hopen : s.phase ≠ .destroyed) (h : Books s)
    (hok : Orderly s a) : Books t where
  held := hmove.held h.held
  balanced := by
    have hbalanced := h.balanced
    obtain heq | ⟨_, hbad⟩ := hmove.balance
    · omega
    · exact absurd hok hbad
  returned := hmove.joinedReturned h.returned
  givenBack := hmove.givenBack hok h.givenBack
  alive := (hmove.phase hopen h hok).1
  ended := (hmove.phase hopen h hok).2

/-- A step that is not orderly spoils the state. -/
theorem Move.orderly_or_spoiled (hmove : Move s a t) (h : Books s) : Orderly s a ∨ Spoiled t := by
  have hbalanced := h.balanced
  cases hmove with
  | idle a horderly => exact Or.inl horderly
  | start hrunning => exact Or.inl trivial
  | stop a last phase horderly hrunning hphase => exact Or.inl horderly
  | close hrunning => exact Or.inl trivial
  | destroy hhandle => exact Or.inr (.ended (Or.inl rfl))
  | abort hhandle => exact Or.inr (.ended (Or.inr rfl))
  | clash a hclash => exact Or.inr (.ended (Or.inr rfl))
  | work g registers pc next runLoop notifier hpc hbusy horderly hnotifier =>
      refine Or.inl ⟨fun hreport => ?_, fun hhalted => ?_⟩
      · exact absurd (Option.some.inj (hpc.symm.trans hreport)) horderly.1
      · exact absurd (Option.some.inj (hpc.symm.trans hhalted)) horderly.2
  | report g registers hpc =>
      cases hrunning : s.running with
      | false => exact Or.inl ⟨fun _ => hrunning, by simp [hpc]⟩
      | true =>
          have hunpaid := report_unpaid (g := g) hrunning
          exact Or.inr (.unpaid (by omega))
  | teardown g registers hpc =>
      by_cases hnotifier : s.notifier = some g
      · exact Or.inl ⟨by simp [hpc], fun _ => hnotifier⟩
      · refine Or.inr (.lost g (threadIs_set_self hpc) ?_ hnotifier)
        have hcount := h.givenBack g
        rw [threadIs_of_getElem? hpc] at hcount
        have hnotMem := List.count_eq_zero.mp hcount
        simpa [hnotMem] using hnotifier
  | spawn c hc hpc => exact Or.inl (by simp only [Orderly, hpc])
  | assign c g hc hpc hhandle => exact Or.inl (by simpa only [Orderly, hpc] using hhandle)
  | advance c next hc hkind horderly => exact Or.inl horderly
  | halt c g hc hpc hloop => exact Or.inl (by simp only [Orderly, hpc])
  | skip c hc hpc hhandle =>
      have hunpaid := skip_unpaid hc hpc
      exact Or.inr (.unpaid (by omega))
  | join c g hc hpc hreturned hhandle => exact Or.inl (by simpa only [Orderly, hpc] using hhandle)
  | leave c hc hpc => exact Or.inl (by simp only [Orderly, hpc])

/-- No step mends a spoiled state. -/
theorem Move.spoiled (hmove : Move s a t)
    (hopen : s.phase ≠ .destroyed ∧ s.phase ≠ .terminated) (h : Spoiled s) : Spoiled t := by
  cases h with
  | ended h => exact absurd h (not_or.mpr hopen)
  | unpaid h =>
      apply Spoiled.unpaid
      obtain heq | ⟨hlt, _⟩ := hmove.balance <;> omega
  | lost g' hdone hmissing hnotifier =>
      have hlost : t.notifier = s.notifier → t.deregistered = s.deregistered →
          threadIs t.threads ThreadPc.isDone g' = true → Spoiled t := by
        intro hn hd hdone'
        exact .lost g' hdone' (hd ▸ hmissing) (hn ▸ hnotifier)
      cases hmove with
      | work g registers pc next runLoop notifier hpc hbusy horderly hnext =>
          have hbusyDone := ThreadPc.isDone_of_busy hbusy.1
          refine .lost g' (threadIs_set_of hpc (by simp [hbusyDone]) hdone) hmissing ?_
          obtain rfl | rfl := hnext
          · exact hnotifier
          · rintro heq
            obtain rfl := Option.some.inj heq
            rw [threadIs_of_getElem? hpc, hbusyDone] at hdone
            cases hdone
      | report g registers hpc => exact hlost rfl rfl (threadIs_set_of hpc (by decide) hdone)
      | teardown g registers hpc =>
          refine .lost g' (threadIs_set_of hpc (fun _ => rfl) hdone) ?_ hnotifier
          rw [List.mem_append, not_or, Option.mem_toList]
          exact ⟨hmissing, hnotifier⟩
      | spawn c hc hpc => exact hlost rfl rfl ((threadIs_append rfl g').trans hdone)
      | halt c g hc hpc hloop => exact hlost rfl rfl (threadIs_set_of hloop (by decide) hdone)
      | idle | start | stop | close | destroy | abort | clash | assign | advance | skip | join
          | leave => exact hlost rfl rfl hdone

end Moves

/-! ### Runs -/

section Runs

variable {s t : State} {labels : List Label}

theorem books_of_run (hrun : Run step Orderly s labels t) (h : Books s) : Books t := by
  refine hrun.invariant (fun s a t hbooks hok hstep => ?_) h
  obtain ⟨hdestroyed, _, hmove⟩ := move_of_step hstep
  exact hmove.books hdestroyed hbooks hok

theorem spoiled_of_run (hrun : Run step free s labels t) (h : Spoiled s) : Spoiled t := by
  refine hrun.invariant (fun s a t hspoiled _ hstep => ?_) h
  obtain ⟨hdestroyed, hterminated, hmove⟩ := move_of_step hstep
  exact hmove.spoiled ⟨hdestroyed, hterminated⟩ hspoiled

/-- Every step of a run is orderly, or the run ends in a spoiled state. -/
theorem orderly_or_spoiled (hrun : Run step free s labels t) (h : Books s) :
    Run step Orderly s labels t ∨ Spoiled t := by
  induction hrun with
  | nil s => exact Or.inl (Run.nil s)
  | @cons s m t a rest hfree hstep tail ih =>
      obtain ⟨hdestroyed, _, hmove⟩ := move_of_step hstep
      obtain hok | hspoiled := hmove.orderly_or_spoiled h
      · exact (ih (hmove.books hdestroyed h hok)).imp_left (Run.cons hok hstep)
      · exact Or.inr (spoiled_of_run tail hspoiled)

/-- The end of the destructor changes only the phase. -/
theorem settled_of_release (hstep : step s .release = some t) (h : Settled t) : Settled s := by
  obtain rfl | rfl := step_release hstep
  · exact ⟨h.joined, h.deregistered⟩
  · exact ⟨h.joined, h.deregistered⟩

/-- The end of the destructor leaves a spoiled state unsettled. -/
theorem not_settled_of_spoiled (h : Spoiled s) (hstep : step s .release = some t)
    (hstarts : inKind s.calls .spawning = 0) : ¬Settled t := by
  obtain ⟨hdestroyed, hterminated, _⟩ := move_of_step hstep
  intro hsettled
  have hsettled := settled_of_release hstep hsettled
  cases h with
  | ended h => exact absurd h (not_or.mpr ⟨hdestroyed, hterminated⟩)
  | unpaid h =>
      have hle := length_le_joined hsettled
      simp only [State.paid, State.due, hstarts] at h hle
      omega
  | lost g hdone hmissing hnotifier =>
      have hregistered : threadIs s.threads ThreadPc.registered g = true := by
        obtain ⟨pc, hpc, hpcDone⟩ := (Option.any_eq_true _ _).mp hdone
        rw [threadIs_of_getElem? hpc]
        cases pc with
        | done => rfl
        | _ => cases hpcDone
      have hcount := hsettled.deregistered g hregistered
      rw [List.count_eq_zero_of_not_mem hmissing] at hcount
      cases hcount

/-- The end of the destructor was orderly if it leaves everything settled. -/
theorem orderly_release_of_settled (h : Books s) (hstep : step s .release = some t)
    (hstarts : inKind s.calls .spawning = 0) (hsettled : Settled t) : Orderly s .release := by
  have hle := length_le_joined (settled_of_release hstep hsettled)
  have hbalanced := h.balanced
  simp only [State.paid, State.due, hstarts] at hbalanced hle
  constructor
  · cases hrunning : s.running with
    | false => rfl
    | true =>
        rw [hrunning, Bool.toNat_true] at hbalanced
        omega
  · have hstops : inKind s.calls .stopping = 0 := by omega
    intro c hc
    rw [inKind, List.countP_eq_zero] at hstops
    simpa using hstops c hc

theorem inKind_spawning_eq_zero {calls : List Call} (h : ∀ c ∈ calls, c.pc ≠ .spawn) :
    inKind calls .spawning = 0 := by
  rw [inKind, List.countP_eq_zero]
  intro c hc
  rw [decide_eq_true_eq]
  cases hpc : c.pc with
  | spawn => exact absurd hpc (h c hc)
  | _ => nofun

/-- A run of orderly steps neither terminates the process nor leaves anything unsettled. -/
theorem safe_of_orderly (hrun : Run step Orderly init labels t) :
    t.phase ≠ .terminated ∧ (t.phase = .destroyed → Settled t) := by
  have hbooks := books_of_run hrun books_init
  exact ⟨hbooks.alive, fun hend => hbooks.settled (hbooks.ended hend)⟩

/-- In a run of orderly steps the process is never terminated, and the end of the
destructor finds every thread joined and every registration given back once.
Conversely, when the destructor ends and no start has its thread still to create,
this holds only if every step was orderly. -/
theorem joined_and_deregistered (labels : List Label) :
    (∀ t, Run step Orderly init labels t →
      t.phase ≠ .terminated ∧ (t.phase = .destroyed → Settled t)) ∧
    ∀ s t, Run step free init labels s → step s .release = some t →
      (∀ c ∈ s.calls, c.pc ≠ .spawn) →
        (t.phase = .destroyed ∧ Settled t ↔ Run step Orderly init (labels ++ [.release]) t) := by
  refine ⟨fun t hrun => safe_of_orderly hrun, fun s t hrun hstep hspawn => ?_⟩
  have hstarts := inKind_spawning_eq_zero hspawn
  constructor
  · rintro ⟨_, hsettled⟩
    obtain horderly | hspoiled := orderly_or_spoiled hrun books_init
    · have hbooks := books_of_run horderly books_init
      exact horderly.snoc (orderly_release_of_settled hbooks hstep hstarts hsettled) hstep
    · exact absurd hsettled (not_settled_of_spoiled hspoiled hstep hstarts)
  · intro horderly
    obtain ⟨halive, hend⟩ := safe_of_orderly horderly
    have hdestroyed : t.phase = .destroyed := by
      obtain rfl | rfl := step_release hstep
      · rfl
      · exact absurd rfl halive
    exact ⟨hdestroyed, hend hdestroyed⟩

end Runs

/-- A monitor that registers, is stopped and destroyed. -/
def healthyRun : List Label :=
  [.start, .call ⟨.spawn, false⟩, .thread 0 true, .call ⟨.assign 0, false⟩, .thread 0 true, .stop,
    .call ⟨.wait 0, false⟩, .thread 0 true, .call ⟨.halt, false⟩, .call ⟨.check, false⟩,
    .thread 0 true, .call ⟨.join 0, false⟩, .call ⟨.clear, false⟩, .destruct, .release]

theorem joined_and_deregistered_healthy :
    ∃ t, Run step Orderly init healthyRun t ∧ t.phase = .destroyed ∧ Settled t := by
  obtain ⟨t, hrun, hend⟩ := Run.of_exec_any step Orderly init healthyRun
    (fun t => t.phase = .destroyed) (by decide)
  have hdestroyed := of_decide_eq_true hend
  exact ⟨t, hrun, hdestroyed, ((joined_and_deregistered healthyRun).1 t hrun).2 hdestroyed⟩

/-- A registration that fails: the thread clears `running_`, so neither the stop nor
the destructor joins it. -/
def failedRegistration : List Label :=
  [.start, .call ⟨.spawn, false⟩, .call ⟨.assign 0, false⟩, .thread 0 false, .thread 0 false, .stop,
    .destruct, .release]

theorem failed_registration_terminates :
    ∃ t, Run step free init failedRegistration t ∧ t.phase = .terminated ∧
      t.threads = [.failed] ∧ t.joined = [] := by
  obtain ⟨t, hrun, hend⟩ := Run.of_exec_any step free init failedRegistration
    (fun t => t.phase = .terminated ∧ t.threads = [.failed] ∧ t.joined = []) (by decide)
  exact ⟨t, hrun, of_decide_eq_true hend⟩

end AgentPulse.SleepMonitor
