import AgentPulse.Jobs.DrainLoop

/-!
# No kill before the timeout

The time that remains is converted from a `long` to the `int` of `poll`. It
fits for timeouts of up to 2147483 seconds, and then a child is never killed
before its timeout. Of a longer timeout the first conversion drops the upper
bits, and `poll` may return after less than a second.
-/

namespace AgentPulse.ProcessRunner

open Transition

/-- Every value passed to `poll` is a time at least as long as what remains, and
no child is killed before its timeout. -/
structure NeverEarly (timeoutSeconds : Int32) : Prop where
  nonneg : ∀ elapsed, 0 ≤ (pollTimeout timeoutSeconds false elapsed).toInt
  remaining : ∀ elapsed : ℕ, timeoutSeconds.toInt * 1000 - elapsed ≤
    (pollTimeout timeoutSeconds false elapsed).toInt
  killed : ∀ capacity todo exitCode labels s,
    Run (step capacity timeoutSeconds) free (spawned todo exitCode) labels s →
      s.killed = true → timeoutSeconds.toInt * 1000 ≤ s.elapsed

/-- Neither the kill nor the deadline of a call of `poll` comes before the timeout. -/
structure OnTime (timeoutSeconds : Int32) (s : State) : Prop where
  killed : s.killed = true → timeoutSeconds.toInt * 1000 ≤ s.elapsed
  deadline : ∀ fds time, s.pc = .polling fds (some time) → timeoutSeconds.toInt * 1000 ≤ time

section Conversion

variable {timeoutSeconds : Int32} {elapsed : ℕ}

/-- A timeout that fits in milliseconds is converted exactly. -/
theorem pollTimeout_of_fits (hpos : 1 ≤ timeoutSeconds.toInt)
    (hfits : timeoutSeconds.toInt ≤ 2147483) :
    (pollTimeout timeoutSeconds false elapsed).toInt =
      max 0 ((timeoutSeconds.toInt - elapsed / 1000) * 1000) := by
  have hlt : (0 : Int32) < timeoutSeconds := Int32.lt_iff_toInt_lt.mpr hpos
  unfold pollTimeout
  rw [if_pos ⟨hlt, rfl⟩]
  simp only
  split_ifs with hms
  · rw [Int32.toInt_ofInt_of_le (by omega) (by omega)]
    omega
  · rw [Int32.toInt_zero]
    omega

theorem pollTimeout_of_killed : pollTimeout timeoutSeconds true elapsed = -1 := by
  unfold pollTimeout
  rw [if_neg (by simp)]

end Conversion

section Steps

variable {capacity : ℕ} {timeoutSeconds : Int32} {s t : State}

theorem OnTime.loopTest (h : OnTime timeoutSeconds s) : OnTime timeoutSeconds s.loopTest := by
  unfold State.loopTest
  split_ifs
  · exact ⟨h.killed, nofun⟩
  · exact ⟨h.killed, nofun⟩

theorem OnTime.afterRead (h : OnTime timeoutSeconds s) (x : Stream) (p : Pipe) (c : Capture)
    (rest : List Stream) : OnTime timeoutSeconds (s.afterRead x p c rest) := by
  cases rest with
  | nil =>
      apply OnTime.loopTest
      exact ⟨h.killed, h.deadline⟩
  | cons y ys => exact ⟨h.killed, nofun⟩

theorem OnTime.endChild (h : OnTime timeoutSeconds s) (status : WaitStatus) :
    OnTime timeoutSeconds (s.endChild status) := by
  unfold State.endChild
  split
  · exact h
  · exact ⟨h.killed, h.deadline⟩

theorem ChildMove.onTime (hmove : ChildMove capacity s t) (h : OnTime timeoutSeconds s) :
    OnTime timeoutSeconds t := by
  cases hmove with
  | exit hrunning htodo => exact h.endChild _
  | close x rest hrunning htodo => exact ⟨h.killed, h.deadline⟩
  | lost x byte rest hrunning htodo hclosed => exact ⟨h.killed, h.deadline⟩
  | broken x byte rest hrunning htodo hwrite hbroken => exact h.endChild _
  | write x byte rest hrunning htodo hwrite hread hroom => exact ⟨h.killed, h.deadline⟩

theorem ParentMove.onTime {size : ℕ} (hmove : ParentMove timeoutSeconds s size t)
    (hpos : 1 ≤ timeoutSeconds.toInt) (hfits : timeoutSeconds.toInt ≤ 2147483)
    (h : OnTime timeoutSeconds s) : OnTime timeoutSeconds t := by
  cases hmove with
  | compute hpc =>
      refine ⟨h.killed, fun fds time heq => ?_⟩
      cases hkilled : s.killed with
      | true =>
          simp only [hkilled, pollTimeout_of_killed] at heq
          rw [if_pos (by decide)] at heq
          cases heq
      | false =>
          have hvalue : (pollTimeout timeoutSeconds false s.elapsed).toInt =
              max 0 ((timeoutSeconds.toInt - s.elapsed / 1000) * 1000) :=
            pollTimeout_of_fits hpos hfits
          simp only [hkilled] at heq
          split_ifs at heq
          · cases heq
          · cases heq
            omega
  | ready fds deadline hpc hready => exact ⟨h.killed, nofun⟩
  | expire fds time hpc hidle hle =>
      have hdeadline := h.deadline fds time hpc
      obtain ⟨htop, helapsed⟩ := timeout_frame s
      refine ⟨fun _ => ?_, fun fds time heq => ?_⟩
      · rw [helapsed]
        omega
      · rw [htop] at heq
        cases heq
  | drained hpc => exact h.loopTest
  | finish x rest hpc hempty hclosed => exact h.afterRead _ _ _ _
  | read x rest hpc hpos hbuffer hle => exact h.afterRead _ _ _ _
  | wait status hpc hstatus => exact ⟨h.killed, nofun⟩

theorem step_onTime (hpos : 1 ≤ timeoutSeconds.toInt) (hfits : timeoutSeconds.toInt ≤ 2147483)
    {label : Label} (h : OnTime timeoutSeconds s)
    (hstep : step capacity timeoutSeconds s label = some t) : OnTime timeoutSeconds t := by
  cases label with
  | child => exact (childMove_of_step hstep).onTime h
  | parent size => exact (parentMove_of_step hstep).onTime hpos hfits h
  | pollError interrupted =>
      obtain ⟨_, rfl⟩ := pollError_inv hstep
      cases interrupted with
      | true => exact ⟨h.killed, nofun⟩
      | false => exact ⟨h.killed, nofun⟩
  | readError =>
      obtain ⟨x, rest, _, rfl⟩ := readError_inv hstep
      exact h.afterRead _ _ _ _
  | elapse ms =>
      cases hstep
      refine ⟨fun hkilled => ?_, h.deadline⟩
      have helapsed := h.killed hkilled
      push_cast
      omega

end Steps

/-- A child is never killed early exactly if its timeout fits in milliseconds. -/
theorem neverEarly_iff {timeoutSeconds : Int32} (hpos : 1 ≤ timeoutSeconds.toInt) :
    NeverEarly timeoutSeconds ↔ timeoutSeconds.toInt ≤ 2147483 := by
  constructor
  · intro h
    have hfirst := h.remaining 0
    have hhigh := Int32.toInt_lt (pollTimeout timeoutSeconds false 0)
    omega
  · intro hfits
    refine ⟨fun elapsed => ?_, fun elapsed => ?_, ?_⟩
    · rw [pollTimeout_of_fits hpos hfits]
      omega
    · rw [pollTimeout_of_fits hpos hfits]
      omega
    · intro capacity todo exitCode labels s hrun
      have hspawned : OnTime timeoutSeconds (spawned todo exitCode) := ⟨nofun, nofun⟩
      exact (hrun.invariant (fun _ _ _ hs _ hstep => step_onTime hpos hfits hs hstep)
        hspawned).killed

theorem neverEarly_minute : NeverEarly 60 := (neverEarly_iff (by decide)).mpr (by decide)

/-- With a timeout of 4294968 seconds the child is killed after 704 milliseconds. -/
theorem killed_early :
    ∃ s, Run (step 1 4294968) free (spawned [] 0) [.parent 0, .elapse 704, .parent 0] s ∧
      (s.killed && decide (s.elapsed = 704)) = true :=
  Run.of_exec_any _ free _ _ (fun s : State => s.killed && decide (s.elapsed = 704))
    (by decide +kernel)

end AgentPulse.ProcessRunner
