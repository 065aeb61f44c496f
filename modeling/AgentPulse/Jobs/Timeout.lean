import AgentPulse.Jobs.DrainLoop

/-!
# The timeout of `run_command`

The deadline is looked at by the poll loop only, and that loop ends when both
streams are given up: closed by the child, or read beyond the capture limit. A
child that keeps a stream the loop still reads is killed at most a second after
its timeout, whatever it does and whenever it does it. A child that closes both
of its streams, or writes too much to both, is waited for without a deadline.

## Implementation notes

Time is a step of the environment. It may pass while the parent has to wait: in
`poll` with nothing ready, up to the deadline of the call, in `waitpid` while
the child runs, and after the return. The other steps of the parent take no
time, since nothing bounds how long a process can be kept from running.
-/

namespace AgentPulse.ProcessRunner

open Transition

/-- The parent has to wait for some milliseconds. -/
def Pc.Waits (s : State) (ms : ℕ) : Pc → Prop
  | .polling fds deadline =>
      (∀ x ∈ fds, (s.pipe x).ready = false) ∧ ∀ time ∈ deadline, s.elapsed + ms ≤ time
  | .waiting => s.child.status = none
  | .returned _ _ => True
  | .top | .drain _ => False

/-- Time passes only while the parent waits, and no system call fails; `poll`
may be interrupted. -/
def Prompt (s : State) : Label → Prop
  | .elapse ms => s.pc.Waits s ms
  | .pollError interrupted => interrupted = true
  | .readError => False
  | .child | .parent _ => True

instance (s : State) (ms : ℕ) : DecidablePred (Pc.Waits s ms)
  | .polling _ _ => inferInstanceAs (Decidable (_ ∧ ∀ time ∈ _, _))
  | .waiting => inferInstanceAs (Decidable (_ = _))
  | .returned _ _ => inferInstanceAs (Decidable True)
  | .top | .drain _ => inferInstanceAs (Decidable False)

instance (s : State) : DecidablePred (Prompt s)
  | .elapse _ => inferInstanceAs (Decidable (Pc.Waits _ _ _))
  | .pollError _ => inferInstanceAs (Decidable (_ = _))
  | .readError => inferInstanceAs (Decidable False)
  | .child | .parent _ => inferInstanceAs (Decidable True)

/-- At every moment of its run the child has a stream that it has not closed and
to which it has not written more than the capture holds. -/
def Attached (todo : List Action) : Prop :=
  ∀ past, past <+: todo → ∃ x, .close x ∉ past ∧ sent x past ≤ maxCapture

/-- The end of the second after the timeout, in milliseconds. -/
def limit (timeoutSeconds : Int32) : ℕ := (timeoutSeconds.toInt.toNat + 1) * 1000

/-- The deadline the parent is under while the child runs. -/
def Pc.OnTime (timeoutSeconds : Int32) (elapsed : ℕ) : Pc → Prop
  | .polling _ deadline => ∃ time ∈ deadline, elapsed ≤ time ∧ time < limit timeoutSeconds
  | .top | .drain _ => elapsed < limit timeoutSeconds
  | .waiting | .returned _ _ => False

/-- While the child runs, the parent is in its loop and on time, and has not
killed it. -/
structure Timely (timeoutSeconds : Int32) (s : State) : Prop where
  onTime : s.pc.OnTime timeoutSeconds s.elapsed
  alive : s.killed = false
  readEnd : ∀ x, (s.pipe x).readEnd = true

/-- A child has ended by its own exit unless it was killed, and then the result
is a timeout. -/
structure Ended (exitCode : ℕ) (s : State) : Prop where
  code : s.child.exitCode = exitCode
  status : ∀ status ∈ s.child.status, s.killed = true ∨ status = .exited exitCode
  killed : s.killed = true → s.timedOut = true
  returned : ∀ status code, s.pc = .returned status code → s.timedOut = true → status = .timeout

section Deadlines

variable {timeoutSeconds : Int32} {elapsed : ℕ}

/-- A call of `poll` does not wait longer than to the end of the second after
the timeout. -/
theorem pollTimeout_lt (hpos : 1 ≤ timeoutSeconds.toInt)
    (hfits : timeoutSeconds.toInt * 1000 < 2 ^ 31) (h : elapsed < limit timeoutSeconds) :
    ¬ pollTimeout timeoutSeconds false elapsed < 0 ∧
      elapsed + (pollTimeout timeoutSeconds false elapsed).toInt.toNat < limit timeoutSeconds := by
  have hlt : (0 : Int32) < timeoutSeconds := Int32.lt_iff_toInt_lt.mpr (by
    rw [Int32.toInt_zero]
    omega)
  unfold limit at h ⊢
  unfold pollTimeout
  rw [if_pos ⟨hlt, rfl⟩]
  simp only
  split_ifs with hms
  · have hto : (Int32.ofInt ((timeoutSeconds.toInt - ↑elapsed / 1000) * 1000)).toInt =
        (timeoutSeconds.toInt - ↑elapsed / 1000) * 1000 :=
      Int32.toInt_ofInt_of_le (by omega) (by omega)
    rw [Int32.lt_iff_toInt_lt, hto]
    simp only [Int32.toInt_zero]
    omega
  · refine ⟨by decide, ?_⟩
    simpa using h

end Deadlines

section Steps

variable {capacity : ℕ} {timeoutSeconds : Int32} {todo : List Action} {exitCode : ℕ} {s t : State}

/-- As long as an attached child runs, the parent reads one of its streams. -/
theorem keeps_of_attached (hattached : Attached todo) (h : s.Carries capacity todo)
    (hrunning : s.child.status = none) : ∃ x, (s.capture x).keep = true := by
  obtain ⟨past, htodo, hchannel⟩ := h hrunning
  obtain ⟨x, hopen, hsent⟩ := hattached past ⟨_, htodo⟩
  refine ⟨x, ?_⟩
  by_contra hkeep
  have hcapped := (hchannel x hopen).capped (by simpa using hkeep)
  omega

theorem loopTest_of_keep {x : Stream} (h : (s.capture x).keep = true) :
    s.loopTest = { s with pc := .top } := by
  have hor : ((s.capture .out).keep || (s.capture .err).keep) = true :=
    fds_ne_nil.mp (List.ne_nil_of_mem (mem_fds.mpr h))
  rw [State.loopTest, if_pos hor]

/-- A stream has been read and one is still kept: the parent stays in its loop. -/
theorem afterRead_of_keep {x y : Stream} {p : Pipe} {c : Capture} {rest : List Stream}
    (h : ((s.afterRead x p c rest).capture y).keep = true) :
    ∃ pc, (pc = .top ∨ ∃ ready, pc = .drain ready) ∧ s.afterRead x p c rest =
      { s with
        pipe := Function.update s.pipe x p
        capture := Function.update s.capture x c
        pc := pc } := by
  cases rest with
  | nil =>
      rw [afterRead_capture] at h
      refine ⟨.top, Or.inl rfl, ?_⟩
      unfold State.afterRead
      exact loopTest_of_keep h
  | cons z zs => exact ⟨.drain (z :: zs), Or.inr ⟨_, rfl⟩, rfl⟩

theorem Timely.loop (h : Timely timeoutSeconds s) : s.elapsed < limit timeoutSeconds := by
  have honTime := h.onTime
  unfold Pc.OnTime at honTime
  split at honTime
  · obtain ⟨time, _, hle, hlt⟩ := honTime
    omega
  · exact honTime
  · exact honTime
  · exact honTime.elim
  · exact honTime.elim

/-- A child that runs ends by its exit, by writing to a closed pipe, or goes on. -/
theorem ChildMove.frame (hmove : ChildMove capacity s t) :
    s.child.status = none ∧ (∃ pipe child, t = { s with pipe := pipe, child := child }) ∧
      (∀ x, (t.pipe x).readEnd = (s.pipe x).readEnd) ∧ t.child.exitCode = s.child.exitCode ∧
      (t.child.status = none ∨ t.child.status = some (.exited s.child.exitCode) ∨
        ∃ x, (s.pipe x).readEnd = false) := by
  cases hmove with
  | exit hrunning htodo =>
      refine ⟨hrunning, ?_, ?_, ?_, Or.inr (Or.inl ?_)⟩ <;> simp [State.endChild, hrunning]
  | close x rest hrunning htodo =>
      refine ⟨hrunning, ⟨_, _, rfl⟩, fun y => ?_, rfl, Or.inl hrunning⟩
      by_cases hyx : y = x <;> simp [hyx]
  | lost x byte rest hrunning htodo hclosed =>
      exact ⟨hrunning, ⟨_, _, rfl⟩, fun _ => rfl, rfl, Or.inl hrunning⟩
  | broken x byte rest hrunning htodo hwrite hbroken =>
      refine ⟨hrunning, ?_, ?_, ?_, Or.inr (Or.inr ⟨x, hbroken⟩)⟩ <;>
        simp [State.endChild, hrunning]
  | write x byte rest hrunning htodo hwrite hread hroom =>
      refine ⟨hrunning, ⟨_, _, rfl⟩, fun y => ?_, rfl, Or.inl hrunning⟩
      by_cases hyx : y = x <;> simp [hyx]

/-- The child does not survive the deadline, unless it has passed before. -/
theorem timeout_running (hrunning : s.timeout.child.status = none) :
    s.child.status = none ∧ s.killed = true := by
  unfold State.timeout at hrunning
  split_ifs at hrunning with hkilled
  · exact ⟨hrunning, hkilled⟩
  · exact absurd hrunning (endChild_ended _)

/-- A stream has been read and one is still kept: the parent stays on time. -/
theorem afterRead_timely {x : Stream} {p : Pipe} {c : Capture} {rest : List Stream}
    (h : Timely timeoutSeconds s) (hread : p.readEnd = (s.pipe x).readEnd)
    (hkeep : ∃ y, ((s.afterRead x p c rest).capture y).keep = true) :
    Timely timeoutSeconds (s.afterRead x p c rest) := by
  obtain ⟨y, hy⟩ := hkeep
  obtain ⟨pc, hpc, heq⟩ := afterRead_of_keep hy
  rw [heq]
  refine ⟨?_, h.alive, fun z => ?_⟩
  · obtain rfl | ⟨ready, rfl⟩ := hpc
    · exact h.loop
    · exact h.loop
  · by_cases hzx : z = x
    · subst hzx
      simp [hread, h.readEnd z]
    · simpa [hzx] using h.readEnd z

theorem ParentMove.timely {size : ℕ} (hmove : ParentMove timeoutSeconds s size t)
    (hpos : 1 ≤ timeoutSeconds.toInt) (hfits : timeoutSeconds.toInt * 1000 < 2 ^ 31)
    (h : Timely timeoutSeconds s) (hrunning : t.child.status = none)
    (hkeep : ∃ x, (t.capture x).keep = true) : Timely timeoutSeconds t := by
  cases hmove with
  | compute hpc =>
      obtain ⟨hnonneg, hlt⟩ := pollTimeout_lt hpos hfits h.loop
      refine ⟨?_, h.alive, h.readEnd⟩
      simp only [h.alive, if_neg hnonneg]
      exact ⟨_, rfl, Nat.le_add_right _ _, hlt⟩
  | ready fds deadline hpc hready => exact ⟨h.loop, h.alive, h.readEnd⟩
  | expire fds time hpc hidle hle =>
      have hkilled := (timeout_running hrunning).2
      rw [h.alive] at hkilled
      cases hkilled
  | drained hpc =>
      obtain ⟨x, hx⟩ := hkeep
      rw [loopTest_capture] at hx
      rw [loopTest_of_keep hx]
      exact ⟨h.loop, h.alive, h.readEnd⟩
  | finish x rest hpc hempty hclosed => exact afterRead_timely h rfl hkeep
  | read x rest hpc hpos' hbuffer hle => exact afterRead_timely h rfl hkeep
  | wait status hpc hstatus =>
      have honTime := h.onTime
      rw [hpc] at honTime
      exact honTime.elim

/-- A child that has ended does not run again. -/
theorem running_of_step {label : Label} (hrunning : t.child.status = none)
    (hstep : step capacity timeoutSeconds s label = some t) : s.child.status = none := by
  cases label with
  | child => exact (childMove_of_step hstep).frame.1
  | parent size =>
      cases parentMove_of_step hstep with
      | compute hpc => exact hrunning
      | ready fds deadline hpc hready => exact hrunning
      | expire fds time hpc hidle hle => exact (timeout_running hrunning).1
      | drained hpc => simpa using hrunning
      | finish x rest hpc hempty hclosed => simpa using hrunning
      | read x rest hpc hpos hbuffer hle => simpa using hrunning
      | wait status hpc hstatus => exact hrunning
  | pollError interrupted =>
      obtain ⟨_, rfl⟩ := pollError_inv hstep
      cases interrupted with
      | true => exact hrunning
      | false => exact hrunning
  | readError =>
      obtain ⟨x, rest, _, rfl⟩ := readError_inv hstep
      simpa using hrunning
  | elapse ms =>
      cases hstep
      exact hrunning

/-- A running child has a parent on time, after any step. -/
theorem step_timely {label : Label} (hpos : 1 ≤ timeoutSeconds.toInt)
    (hfits : timeoutSeconds.toInt * 1000 < 2 ^ 31) (h : Timely timeoutSeconds s)
    (hprompt : Prompt s label) (hstep : step capacity timeoutSeconds s label = some t)
    (hrunning : t.child.status = none) (hkeep : ∃ x, (t.capture x).keep = true) :
    Timely timeoutSeconds t := by
  cases label with
  | child =>
      obtain ⟨_, ⟨pipe, child, rfl⟩, hread, _, _⟩ := (childMove_of_step hstep).frame
      exact ⟨h.onTime, h.alive, fun x => (hread x).trans (h.readEnd x)⟩
  | parent size => exact (parentMove_of_step hstep).timely hpos hfits h hrunning hkeep
  | pollError interrupted =>
      obtain rfl : interrupted = true := hprompt
      obtain ⟨_, rfl⟩ := pollError_inv hstep
      exact ⟨h.loop, h.alive, h.readEnd⟩
  | readError => exact hprompt.elim
  | elapse ms =>
      cases hstep
      have honTime := h.onTime
      have hwaits : s.pc.Waits s ms := hprompt
      refine ⟨?_, h.alive, h.readEnd⟩
      simp only
      cases hpc : s.pc with
      | polling fds deadline =>
          rw [hpc] at honTime hwaits
          obtain ⟨time, hmem, _, hlt⟩ := honTime
          exact ⟨time, hmem, hwaits.2 time hmem, hlt⟩
      | top | drain ready =>
          rw [hpc] at hwaits
          exact hwaits.elim
      | waiting | returned status code =>
          rw [hpc] at honTime
          exact honTime.elim

theorem loopTest_frame (s : State) :
    ∃ pipe pc, (∀ status code, pc ≠ .returned status code) ∧
      s.loopTest = { s with pipe := pipe, pc := pc } := by
  unfold State.loopTest
  split_ifs
  · exact ⟨_, .top, by simp, rfl⟩
  · exact ⟨_, .waiting, by simp, rfl⟩

theorem afterRead_frame (s : State) (x : Stream) (p : Pipe) (c : Capture) (rest : List Stream) :
    ∃ pipe capture pc, (∀ status code, pc ≠ .returned status code) ∧
      s.afterRead x p c rest = { s with pipe := pipe, capture := capture, pc := pc } := by
  cases rest with
  | nil =>
      obtain ⟨pipe, pc, hpc, heq⟩ := loopTest_frame
        { s with pipe := Function.update s.pipe x p, capture := Function.update s.capture x c }
      exact ⟨pipe, _, pc, hpc, heq⟩
  | cons z zs => exact ⟨_, _, .drain (z :: zs), by simp, rfl⟩

/-- The kill ends the child if it still runs. -/
theorem timeout_ended (h : Ended exitCode s) : Ended exitCode s.timeout := by
  unfold State.timeout
  split_ifs with hkilled
  · exact ⟨h.code, h.status, fun _ => rfl, by simp⟩
  · refine ⟨?_, fun _ _ => Or.inl rfl, fun _ => rfl, by simp⟩
    have hcode : (s.endChild (.signaled 9)).child.exitCode = s.child.exitCode := by
      unfold State.endChild
      split <;> rfl
    exact hcode.trans h.code

theorem ParentMove.ended {size : ℕ} (hmove : ParentMove timeoutSeconds s size t)
    (h : Ended exitCode s) : Ended exitCode t := by
  have hmoved : ∀ pipe capture pc, (∀ status code, pc ≠ .returned status code) →
      Ended exitCode { s with pipe := pipe, capture := capture, pc := pc } := by
    intro pipe capture pc hpc
    exact ⟨h.code, h.status, h.killed, fun status code heq => absurd heq (hpc status code)⟩
  have hafter : ∀ x p c rest, Ended exitCode (s.afterRead x p c rest) := by
    intro x p c rest
    obtain ⟨pipe, capture, pc, hpc, heq⟩ := afterRead_frame s x p c rest
    rw [heq]
    exact hmoved _ _ _ hpc
  cases hmove with
  | compute hpc => exact hmoved _ _ _ (by simp)
  | ready fds deadline hpc hready => exact hmoved _ _ _ (by simp)
  | expire fds time hpc hidle hle => exact timeout_ended h
  | drained hpc =>
      obtain ⟨pipe, pc, hpc', heq⟩ := loopTest_frame s
      rw [heq]
      exact hmoved _ _ _ hpc'
  | finish x rest hpc hempty hclosed => exact hafter _ _ _ _
  | read x rest hpc hpos hbuffer hle => exact hafter _ _ _ _
  | wait status hpc hstatus =>
      refine ⟨h.code, h.status, h.killed, ?_⟩
      rintro _ _ ⟨⟩ htimedOut
      cases status <;> simp_all [runStatus]

/-- How the child ends is kept by any step, as long as no read end is closed
while it runs. -/
theorem step_ended {label : Label} (h : Ended exitCode s) (hprompt : Prompt s label)
    (hread : s.child.status = none → ∀ x, (s.pipe x).readEnd = true)
    (hstep : step capacity timeoutSeconds s label = some t) : Ended exitCode t := by
  cases label with
  | child =>
      obtain ⟨hrunning, ⟨pipe, child, rfl⟩, _, hcode, hend⟩ := (childMove_of_step hstep).frame
      refine ⟨hcode.trans h.code, ?_, h.killed, h.returned⟩
      intro status hstatus
      obtain hnone | hexit | ⟨x, hclosed⟩ := hend
      · rw [hnone] at hstatus
        cases hstatus
      · rw [hexit] at hstatus
        cases hstatus
        exact Or.inr (congrArg _ h.code)
      · rw [hread hrunning x] at hclosed
        cases hclosed
  | parent size => exact (parentMove_of_step hstep).ended h
  | pollError interrupted =>
      obtain rfl : interrupted = true := hprompt
      obtain ⟨_, rfl⟩ := pollError_inv hstep
      exact ⟨h.code, h.status, h.killed, by simp⟩
  | readError => exact hprompt.elim
  | elapse ms =>
      cases hstep
      exact ⟨h.code, h.status, h.killed, h.returned⟩

end Steps

section Runs

variable {capacity : ℕ} {timeoutSeconds : Int32} {todo : List Action} {exitCode : ℕ}
  {labels : List Label} {s : State}

/-- What holds in every run of an attached child. -/
structure Supervised (capacity : ℕ) (timeoutSeconds : Int32) (todo : List Action) (exitCode : ℕ)
    (s : State) : Prop where
  carries : s.Carries capacity todo
  timely : s.child.status = none → Timely timeoutSeconds s
  ended : Ended exitCode s

theorem supervised_of_run (hpos : 1 ≤ timeoutSeconds.toInt)
    (hfits : timeoutSeconds.toInt * 1000 < 2 ^ 31) (hattached : Attached todo)
    (h : Run (step capacity timeoutSeconds) Prompt (spawned todo exitCode) labels s) :
    Supervised capacity timeoutSeconds todo exitCode s := by
  apply h.invariant (I := Supervised capacity timeoutSeconds todo exitCode)
  · intro s label t hinv hprompt hstep
    have hlabel : label ≠ .readError := by
      rintro rfl
      exact hprompt
    have hcarries := step_carries hinv.carries hlabel hstep
    refine ⟨hcarries, fun hrunning => ?_, ?_⟩
    · have hbefore : s.child.status = none := running_of_step hrunning hstep
      exact step_timely hpos hfits (hinv.timely hbefore) hprompt hstep hrunning
        (keeps_of_attached hattached hcarries hrunning)
    · exact step_ended hinv.ended hprompt (fun hrunning => (hinv.timely hrunning).readEnd) hstep
  · have hlimit : 0 < limit timeoutSeconds := by
      unfold limit
      omega
    exact ⟨carries_spawned, fun _ => ⟨hlimit, rfl, fun _ => rfl⟩, rfl, by simp [spawned],
      by simp [spawned], by simp [spawned]⟩

/-- A child that at every moment keeps open a stream with no more output than is
captured does not run to the end of the second after the timeout. It has ended
by its own exit before, or it is killed and the result is a timeout. -/
theorem timeout_enforced (hpos : 1 ≤ timeoutSeconds.toInt)
    (hfits : timeoutSeconds.toInt * 1000 < 2 ^ 31) (hattached : Attached todo)
    (h : Run (step capacity timeoutSeconds) Prompt (spawned todo exitCode) labels s) :
    (s.child.status = none → s.elapsed < limit timeoutSeconds) ∧
      (∀ status ∈ s.child.status, s.killed = true ∨ status = .exited exitCode) ∧
      (s.killed = true → ∀ status code, s.pc = .returned status code → status = .timeout) := by
  have hsupervised := supervised_of_run hpos hfits hattached h
  refine ⟨fun hrunning => (hsupervised.timely hrunning).loop, hsupervised.ended.status, ?_⟩
  intro hkilled status code hpc
  exact hsupervised.ended.returned status code hpc (hsupervised.ended.killed hkilled)

/-- A child that writes one byte and runs on is killed after its second, and the
result is a timeout. -/
theorem timeout_enforced_sleeping :
    ∃ s, Run (step 1 1) Prompt (spawned [.write .out 65] 0)
        (.child :: List.replicate 4 (.parent 1) ++ .elapse 1000 :: List.replicate 6 (.parent 1)) s ∧
      s.pc = .returned .timeout (-9) ∧ s.elapsed = 1000 ∧ s.killed = true ∧
      (s.killed = true → ∀ status code, s.pc = .returned status code → status = .timeout) := by
  have hattached : Attached [.write .out 65] := by
    intro past hpast
    refine ⟨.out, fun hmem => ?_, ?_⟩
    · have hclose := hpast.subset hmem
      simp at hclose
    · exact le_trans List.countP_le_length (le_trans hpast.length_le (by decide))
  obtain ⟨s, hrun, hs⟩ := Run.of_exec_any (step 1 1) Prompt (spawned [.write .out 65] 0)
    (.child :: List.replicate 4 (.parent 1) ++ .elapse 1000 :: List.replicate 6 (.parent 1))
    (fun s => decide (s.pc = .returned .timeout (-9) ∧ s.elapsed = 1000 ∧ s.killed = true))
    (by decide +kernel)
  obtain ⟨hpc, helapsed, hkilled⟩ := of_decide_eq_true hs
  exact ⟨s, hrun, hpc, helapsed, hkilled,
    (timeout_enforced (by decide) (by decide) hattached hrun).2.2⟩

/-- A child that closes both of its streams and runs on for five seconds is never
killed under a timeout of one, and its result is a success. -/
theorem timeout_ignored_after_close :
    ∃ s m, Run (step 1 1) Prompt (spawned [.close .out, .close .err] 0)
        ([.child, .child] ++ List.replicate 4 (.parent 1) ++ [.elapse 5000]) s ∧
      s.child.status = none ∧ ¬ s.elapsed < limit 1 ∧
      Run (step 1 1) Prompt s [.child, .parent 1] m ∧
      m.pc = .returned .success 0 ∧ m.killed = false := by
  obtain ⟨s, hrun, hs⟩ := Run.of_exec_any (step 1 1) Prompt (spawned [.close .out, .close .err] 0)
    ([.child, .child] ++ List.replicate 4 (.parent 1) ++ [.elapse 5000])
    (fun s => decide (s.child.status = none ∧ ¬ s.elapsed < limit 1) &&
      (exec (step 1 1) Prompt s [.child, .parent 1]).any fun m : State =>
        decide (m.pc = .returned .success 0 ∧ m.killed = false))
    (by decide +kernel)
  obtain ⟨hlate, hlater⟩ := Bool.and_eq_true_iff.mp hs
  obtain ⟨hrunning, helapsed⟩ := of_decide_eq_true hlate
  obtain ⟨m, hafter, hm⟩ := Run.of_exec_any _ _ s _ _ hlater
  obtain ⟨hpc, hkilled⟩ := of_decide_eq_true hm
  exact ⟨s, m, hrun, hrunning, helapsed, hafter, hpc, hkilled⟩

end Runs

end AgentPulse.ProcessRunner
