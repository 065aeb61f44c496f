import AgentPulse.Jobs.DrainLoop

/-!
# How the drain loop deadlocks

A parent that reads every byte as soon as it is written gives up a stream with
the first byte beyond its capture. What the child writes to this stream from
then on stays in the pipe. If the other stream fits its capture, the parent
waits for it without end, and the child blocks on the full pipe.
-/

namespace AgentPulse.ProcessRunner

open Transition

/-- The capture of a stream that was read byte by byte. -/
def captureOf (bytes : Bytes) : Capture where
  text := bytes.take maxCapture
  truncated := maxCapture < bytes.length
  keep := bytes.length ≤ maxCapture

/-- A parent that reads every byte at once, until it gives up the stream `x`;
what follows on `x` stays in its pipe. -/
def eager (x : Stream) (p rest : List (Stream × UInt8)) (exitCode : ℕ) : State where
  pipe := fun y => if y = x then { data := (bytesOf x p).drop (maxCapture + 1) } else {}
  capture := fun y => captureOf (bytesOf y p)
  timedOut := false
  killed := false
  elapsed := 0
  pc := .top
  child := { todo := writes rest, exitCode := exitCode }

/-- The guard admits every step of the two parties. -/
def AdmitsParties (ok : State → Label → Prop) : Prop :=
  ∀ s, ok s .child ∧ ∀ size, ok s (.parent size)

section Eager

variable {capacity : ℕ} {timeoutSeconds : Int32} {exitCode : ℕ} {s t : State} {x y : Stream}
  {b : UInt8} {p rest : List (Stream × UInt8)} {ok : State → Label → Prop}

theorem captureOf_drain {bytes : Bytes} (h : bytes.length ≤ maxCapture) :
    (captureOf bytes).drain [b] = captureOf (bytes ++ [b]) := by
  have htext : (captureOf bytes).text = bytes := List.take_of_length_le h
  rw [drain_spec (List.cons_ne_nil _ _) (by rw [htext]; exact h), htext]
  simp only [captureOf, Capture.mk.injEq, List.length_append, List.length_singleton, true_and]
  constructor
  · simp only [← Bool.decide_or, decide_eq_decide]
    omega
  · simp only [← Bool.decide_and, decide_eq_decide]
    omega

theorem captureOf_full {bytes : Bytes} (h : maxCapture < bytes.length) :
    captureOf (bytes ++ [b]) = captureOf bytes := by
  have htake : (bytes ++ [b]).take maxCapture = bytes.take maxCapture :=
    List.take_append_of_le_length h.le
  have hmore : maxCapture < bytes.length + 1 := h.trans (Nat.lt_succ_self _)
  simp [captureOf, htake, h, hmore, Nat.not_le.mpr h, Nat.not_le.mpr hmore]

theorem eager_nil : eager x [] rest exitCode = spawned (writes rest) exitCode := by
  unfold eager spawned
  congr 1
  funext y
  split_ifs <;> rfl

/-- One byte goes through the pipe at once. -/
theorem run_byte (hok : AdmitsParties ok) {todo : List Action} (hcapacity : 0 < capacity)
    (hpc : s.pc = .top)
    (hrunning : s.child.status = none) (htodo : s.child.todo = .write y b :: todo)
    (hpipe : s.pipe y = {}) (hmem : y ∈ s.fds)
    (hidle : ∀ z ∈ s.fds, z ≠ y → (s.pipe z).ready = false)
    (ht : t = { s with
      child := { s.child with todo := todo }
      capture := Function.update s.capture y ((s.capture y).drain [b]) })
    (hkeep : t.fds ≠ []) :
    Run (step capacity timeoutSeconds) ok s [.child, .parent 0, .parent 0, .parent 1] t := by
  obtain ⟨pipe, hp⟩ : ∃ pipe, pipe = Function.update s.pipe y { data := [b] } := ⟨_, rfl⟩
  have hready : (s.fds.filter fun z => (pipe z).ready) = [y] := by
    have honly : ∀ z ∈ s.fds, (pipe z).ready = (z == y) := by
      intro z hz
      by_cases hzy : z = y
      · simp [hp, hzy, Pipe.ready]
      · rw [hp, Function.update_of_ne hzy, hidle z hz hzy, beq_false_of_ne hzy]
    rw [List.filter_congr honly, List.filter_beq, List.count_eq_one_of_mem nodup_fds hmem]
    rfl
  have hchild : step capacity timeoutSeconds s .child =
      some { s with child := { s.child with todo := todo }, pipe := pipe } := by
    simp [step, childStep, hrunning, htodo, hpipe, hcapacity, hp]
  obtain ⟨deadline, htop⟩ : ∃ deadline, step capacity timeoutSeconds
      { s with child := { s.child with todo := todo }, pipe := pipe } (.parent 0) =
      some { s with
        child := { s.child with todo := todo }
        pipe := pipe
        pc := .polling s.fds deadline } := ⟨_, by simp only [step, parentStep, hpc]; rfl⟩
  have hpoll : step capacity timeoutSeconds { s with
      child := { s.child with todo := todo }
      pipe := pipe
      pc := .polling s.fds deadline } (.parent 0) =
      some { s with child := { s.child with todo := todo }, pipe := pipe, pc := .drain [y] } := by
    simp [step, parentStep, hready]
  have hread : step capacity timeoutSeconds
      { s with child := { s.child with todo := todo }, pipe := pipe, pc := .drain [y] }
      (.parent 1) = some t := by
    have hdata : pipe y = { data := [b] } := by rw [hp, Function.update_self]
    have hback : Function.update pipe y {} = s.pipe := by
      rw [hp, Function.update_idem, ← hpipe, Function.update_eq_self]
    rw [fds_ne_nil, ht] at hkeep
    simp [step, parentStep, hdata, State.afterRead, hback, ht, State.loopTest, hkeep,
      bufferSize, hpc]
  exact .cons (hok _).1 hchild (.cons ((hok _).2 _) htop (.cons ((hok _).2 _) hpoll
    (.cons ((hok _).2 _) hread (.nil _))))

theorem eager_pipe (h : written y p ≤ maxCapture + 1) : (eager x p rest exitCode).pipe y = {} := by
  simp only [eager]
  split_ifs with hyx
  · rw [← hyx, List.drop_of_length_le h]
  · rfl

theorem mem_eager_fds : y ∈ (eager x p rest exitCode).fds ↔ written y p ≤ maxCapture := by
  rw [mem_fds]
  exact decide_eq_true_iff

theorem eager_capture (h : written y p ≤ maxCapture) (rest rest' : List (Stream × UInt8)) :
    (eager x (p ++ [(y, b)]) rest exitCode).capture =
      Function.update (eager x p rest' exitCode).capture y
        (((eager x p rest' exitCode).capture y).drain [b]) := by
  funext z
  by_cases hzy : z = y
  · subst hzy
    rw [Function.update_self]
    simp only [eager, captureOf_drain h, bytesOf_snoc, if_true]
  · rw [Function.update_of_ne hzy]
    simp only [eager, bytesOf_snoc, if_neg (Ne.symm hzy), List.append_nil]

theorem eager_pipe_snoc (h : written y p ≤ maxCapture) (rest rest' : List (Stream × UInt8)) :
    (eager x (p ++ [(y, b)]) rest exitCode).pipe = (eager x p rest' exitCode).pipe := by
  funext z
  by_cases hzy : z = y
  · have hnext : written z (p ++ [(y, b)]) ≤ maxCapture + 1 := by
      rw [written_snoc, hzy, if_pos rfl]
      omega
    rw [eager_pipe hnext, eager_pipe (hzy ▸ Nat.le_succ_of_le h)]
  · simp only [eager]
    split_ifs with hzx
    · subst hzx
      rw [bytesOf_snoc, if_neg (Ne.symm hzy), List.append_nil]
    · rfl

/-- Beyond the capture the bytes of `x` stay in its pipe. -/
theorem step_overflow (hlong : maxCapture < written x p)
    (hroom : written x p < maxCapture + 1 + capacity) :
    step capacity timeoutSeconds (eager x p ((x, b) :: rest) exitCode) .child =
      some (eager x (p ++ [(x, b)]) rest exitCode) := by
  have hlength : ((bytesOf x p).drop (maxCapture + 1)).length < capacity := by
    rw [List.length_drop]
    change written x p - (maxCapture + 1) < capacity
    omega
  have hdrop : (bytesOf x (p ++ [(x, b)])).drop (maxCapture + 1) =
      (bytesOf x p).drop (maxCapture + 1) ++ [b] := by
    rw [bytesOf_snoc, if_pos rfl, List.drop_append_of_le_length hlong]
  have hcapture : (eager x (p ++ [(x, b)]) rest exitCode).capture =
      (eager x p ((x, b) :: rest) exitCode).capture := by
    funext z
    simp only [eager, bytesOf_snoc]
    split_ifs with hxz
    · subst hxz
      exact captureOf_full hlong
    · rw [List.append_nil]
  have hpipe : (eager x (p ++ [(x, b)]) rest exitCode).pipe =
      Function.update (eager x p ((x, b) :: rest) exitCode).pipe x
        { data := (bytesOf x p).drop (maxCapture + 1) ++ [b] } := by
    funext z
    by_cases hzx : z = x
    · subst hzx
      simp [eager, hdrop]
    · simp [eager, hzx]
  have hwrite : step capacity timeoutSeconds (eager x p ((x, b) :: rest) exitCode) .child =
      some { eager x p ((x, b) :: rest) exitCode with
        child := { todo := writes rest, exitCode := exitCode }
        pipe := Function.update (eager x p ((x, b) :: rest) exitCode).pipe x
          { data := (bytesOf x p).drop (maxCapture + 1) ++ [b] } } := by
    have hpipe' : (eager x p ((x, b) :: rest) exitCode).pipe x =
        { data := (bytesOf x p).drop (maxCapture + 1) } := if_pos rfl
    have htodo : (eager x p ((x, b) :: rest) exitCode).child =
        { todo := .write x b :: writes rest, exitCode := exitCode } := rfl
    simp only [step, childStep, htodo, hpipe', Bool.true_eq_false, if_false, if_pos hlength]
  rw [hwrite, ← hpipe]
  simp only [← hcapture]
  rfl

/-- The eager schedule goes on as long as the other stream fits its capture. -/
theorem run_eager_snoc (hok : AdmitsParties ok) (hcapacity : 0 < capacity)
    (hx : written x (p ++ [(y, b)]) ≤ maxCapture + 1 + capacity)
    (hother : written x.other (p ++ [(y, b)]) ≤ maxCapture) :
    ∃ labels, Run (step capacity timeoutSeconds) ok (eager x p ((y, b) :: rest) exitCode) labels
      (eager x (p ++ [(y, b)]) rest exitCode) := by
  by_cases hkept : written y p ≤ maxCapture
  · refine ⟨[.child, .parent 0, .parent 0, .parent 1], ?_⟩
    refine run_byte hok hcapacity rfl rfl rfl (eager_pipe (Nat.le_succ_of_le hkept))
      (mem_eager_fds.mpr hkept) ?_ ?_ ?_
    · intro z hz _
      rw [eager_pipe (Nat.le_succ_of_le (mem_eager_fds.mp hz))]
      rfl
    · rw [← eager_capture hkept rest, ← eager_pipe_snoc hkept rest]
      rfl
    · exact List.ne_nil_of_mem (mem_eager_fds.mpr hother)
  · have hyx : y = x := by
      obtain heq | rfl := Stream.eq_or_eq_other x y
      · exact heq
      · rw [written_snoc] at hother
        omega
    subst hyx
    rw [written_snoc, if_pos rfl] at hx
    exact ⟨[.child], .cons (hok _).1 (step_overflow (Nat.not_le.mp hkept) (by omega)) (.nil _)⟩

/-- The eager schedule over a whole output. -/
theorem run_eager (hok : AdmitsParties ok) (hcapacity : 0 < capacity)
    (hx : written x p ≤ maxCapture + 1 + capacity) (hother : written x.other p ≤ maxCapture)
    (rest : List (Stream × UInt8)) :
    ∃ labels, Run (step capacity timeoutSeconds) ok (spawned (writes (p ++ rest)) exitCode) labels
      (eager x p rest exitCode) := by
  induction p using List.reverseRecOn generalizing rest with
  | nil => exact ⟨[], eager_nil ▸ .nil _⟩
  | append_singleton p w ih =>
      obtain ⟨y, b⟩ := w
      have hle := fun z => (written_snoc (x := z) (p := p) (y := y) (b := b)).ge
      obtain ⟨labels, hrun⟩ := ih ((Nat.le_add_right _ _).trans ((hle x).trans hx))
        ((Nat.le_add_right _ _).trans ((hle x.other).trans hother)) ((y, b) :: rest)
      obtain ⟨labels', hrun'⟩ := run_eager_snoc hok hcapacity hx hother
      exact ⟨labels ++ labels', (by simpa using hrun.append hrun')⟩

/-- A child that goes on writing to a full stream while the other one fits its
capture blocks for ever if there is no timeout. -/
theorem deadlock_of_overflow (hcapacity : 0 < capacity) (htimeout : timeoutSeconds ≤ 0)
    (hx : written x p = maxCapture + 1 + capacity) (hother : written x.other p ≤ maxCapture)
    (rest : List (Stream × UInt8)) :
    ∃ labels s, Run (step capacity timeoutSeconds) (fun _ label => label ≠ .readError)
        (spawned (writes (p ++ (x, b) :: rest)) exitCode) labels s ∧
      s.BlockedOn capacity x ∧ ¬ s.Served x ∧ step capacity timeoutSeconds s .child = none ∧
      ∀ size, step capacity timeoutSeconds s (.parent size) = none := by
  have hok : AdmitsParties fun _ label => label ≠ .readError := fun _ => by simp
  obtain ⟨labels, hrun⟩ := run_eager hok hcapacity hx.le hother ((x, b) :: rest)
  obtain ⟨s, hs⟩ : ∃ s, s = eager x p ((x, b) :: rest) exitCode := ⟨_, rfl⟩
  have hdata : s.pipe x = { data := (bytesOf x p).drop (maxCapture + 1) } := by
    rw [hs]
    exact if_pos rfl
  have hfull : (s.pipe x).data.length = capacity := by
    rw [hdata, List.length_drop]
    change written x p - (maxCapture + 1) = capacity
    omega
  have hgiven : x ∉ s.fds := by
    rw [hs, mem_eager_fds]
    omega
  have hidle : ∀ y ∈ s.fds, (s.pipe y).ready = false := by
    intro y hy
    rw [hs, mem_eager_fds] at hy
    rw [hs, eager_pipe (Nat.le_succ_of_le hy)]
    rfl
  have hpoll : step capacity timeoutSeconds s (.parent 0) =
      some { s with pc := .polling s.fds none } := by
    have hpc : s.pc = .top := by rw [hs]; rfl
    have hnone : pollTimeout timeoutSeconds s.killed s.elapsed = -1 :=
      if_neg fun h => Int32.not_lt.mpr htimeout h.1
    simp [step, parentStep, hpc, hnone]
  have hrunning : s.child.status = none := by
    rw [hs]
    rfl
  have htodo : s.child.todo = .write x b :: writes rest := by
    rw [hs]
    rfl
  have hends : (s.pipe x).writeEnd = true ∧ (s.pipe x).readEnd = true := by
    rw [hdata]
    exact ⟨rfl, rfl⟩
  rw [← hs] at hrun
  refine ⟨_, _, hrun.snoc (by simp) hpoll, ?_, ?_, ?_, ?_⟩
  · exact ⟨hrunning, ⟨b, _, htodo⟩, hends.1, hfull.ge⟩
  · rintro (hmem | hclosed)
    · exact hgiven hmem
    · rw [hends.2] at hclosed
      cases hclosed
  · simp [step, childStep, hrunning, htodo, hends, hfull]
  · intro size
    have hready : (s.fds.filter fun y => (s.pipe y).ready) = [] := by
      apply List.filter_eq_nil_iff.mpr
      intro y hy
      simp [hidle y hy]
    simp only [step, parentStep, hready, ne_eq, not_true_eq_false, if_false]

/-- A child that writes only to its standard output, two bytes more than the
capture and the pipe hold, never ends. -/
theorem blocked_on_stdout :
    ∃ labels s, Run (step 65536 0) (fun _ label => label ≠ .readError)
        (spawned (writes (List.replicate (maxCapture + 1 + 65536) (.out, 0) ++ [(.out, 0)])) 0)
        labels s ∧
      s.BlockedOn 65536 .out ∧ ¬ (.out ∈ s.fds ∨ (s.pipe .out).readEnd = false) ∧
      step 65536 0 s .child = none ∧ ∀ size, step 65536 0 s (.parent size) = none := by
  have hbytes : ∀ x n, written x (List.replicate n (Stream.out, (0 : UInt8))) =
      if Stream.out = x then n else 0 := by
    intro x n
    unfold written bytesOf
    split_ifs with hx <;> simp [hx]
  refine deadlock_of_overflow (by decide) (by decide) ?_ ?_ []
  · exact hbytes .out _
  · rw [hbytes]
    decide

end Eager

end AgentPulse.ProcessRunner
