import AgentPulse.Lib.Transition
import Mathlib.Logic.Function.Basic

/-!
# Which daemon the socket path leads to

`SocketServer::start` and `SocketServer::stop` of several daemons with the same
path. Each removes what stands at the path before it binds its own socket, and
removes what stands there when it stops, without asking whose it is.

## Implementation notes

A daemon stands between two of its system calls on the socket and the path;
`chmod`, whose result nothing reads, is left out. A daemon may be killed
anywhere, and its file then stays.
-/

namespace AgentPulse.SocketPath

open Transition

/-- Where a daemon stands: before `socket()`, before the `unlink` of a stale
file, before `bind`, before `listen`, before the `unlink` after a failed
`listen`, in the accept loop, before the `close` and the `unlink` of `stop`, and
after `start` has thrown, `stop` has returned or the process was killed. -/
inductive Pc where
  | created
  | unlinking
  | binding
  | listening
  | removing
  | running
  | closing
  | unlinkingOwn
  | over
  deriving DecidableEq, Repr

/-- What a call does to the path. -/
inductive Effect where
  | keep
  | unlink
  | bind
  deriving DecidableEq, Repr

/-- The next call of a daemon, which may fail where the source checks it. -/
def Pc.next (fails : Bool) : Pc → Option (Pc × Effect)
  | .created => some (if fails then .over else .unlinking, .keep)
  | .unlinking => some (.binding, .unlink)
  | .binding => some (if fails then (.over, .keep) else (.listening, .bind))
  | .listening => some (if fails then .removing else .running, .keep)
  | .removing => some (.over, .unlink)
  | .running => some (.closing, .keep)
  | .closing => some (.unlinkingOwn, .keep)
  | .unlinkingOwn => some (.over, .unlink)
  | .over => none

/-- Where each daemon stands, and whose socket is at the path. -/
structure State where
  pc : ℕ → Pc
  path : Option ℕ

/-- No daemon has started and nothing is at the path. -/
def initial : State := ⟨fun _ => .created, none⟩

/-- A daemon makes its next call, or it is killed. -/
inductive Label where
  | advance (daemon : ℕ) (fails : Bool)
  | kill (daemon : ℕ)
  deriving DecidableEq

/-- The daemon that a step is about. -/
def Label.daemon : Label → ℕ
  | .advance daemon _ => daemon
  | .kill daemon => daemon

/-- Where the daemon of a step goes; a `bind` fails where a file stands. -/
def action (s : State) : Label → Option (Pc × Effect)
  | .advance daemon fails =>
      (s.pc daemon).next (fails || (s.pc daemon = .binding && s.path.isSome))
  | .kill _ => some (.over, .keep)

/-- What the call of a daemon makes of the path. -/
def Effect.apply (daemon : ℕ) (path : Option ℕ) : Effect → Option ℕ
  | .keep => path
  | .unlink => none
  | .bind => some daemon

/-- One step of a daemon. -/
def step (s : State) (label : Label) : Option State :=
  (action s label).map fun a =>
    { pc := Function.update s.pc label.daemon a.1, path := a.2.apply label.daemon s.path }

/-- A client that connects to the path reaches this daemon: its socket is there
and listens. -/
def State.reaches (s : State) (daemon : ℕ) : Bool :=
  s.path = some daemon && (s.pc daemon = .running || s.pc daemon = .closing)

/-- The daemons that bind or unlink at a step. -/
def changes (s : State) (label : Label) : List (ℕ × Effect) :=
  match action s label with
  | some (_, .unlink) => [(label.daemon, .unlink)]
  | some (_, .bind) => [(label.daemon, .bind)]
  | _ => []

/-- A daemon that has not bound its socket yet. -/
def Pc.early (pc : Pc) : Bool := pc = .created || pc = .unlinking || pc = .binding

variable {s t : State} {label : Label} {labels : List Label} {noted : List (ℕ × Effect)}
  {daemon : ℕ}

/-- Only the call of `bind` binds, and no call goes back before it. -/
theorem next_early {pc next : Pc} {fails : Bool} {effect : Effect}
    (h : pc.next fails = some (next, effect)) :
    (next.early = true → pc.early = true) ∧
      (effect = .bind → pc = .binding ∧ fails = false ∧ next.early = false) := by
  cases pc <;> cases fails <;> cases h <;> decide

/-- What a step can do: its daemon moves on and leaves the path alone, removes
what is there or binds its socket to a free path. -/
theorem step_cases (h : step s label = some t) :
    ∃ next, t.pc = Function.update s.pc label.daemon next ∧
      (next.early = true → (s.pc label.daemon).early = true) ∧
      ((changes s label = [] ∧ t.path = s.path) ∨
        (changes s label = [(label.daemon, .unlink)] ∧ t.path = none) ∨
        (changes s label = [(label.daemon, .bind)] ∧ s.path = none ∧
          t.path = some label.daemon ∧ (s.pc label.daemon).early = true ∧
          next.early = false)) := by
  obtain ⟨⟨next, effect⟩, haction, rfl⟩ := Option.map_eq_some_iff.mp h
  have hearly : (next.early = true → (s.pc label.daemon).early = true) ∧
      (effect = .bind → s.path = none ∧ (s.pc label.daemon).early = true ∧
        next.early = false) := by
    cases label with
    | kill daemon =>
        cases haction
        exact ⟨fun h => absurd h (by decide), fun h => absurd h (by decide)⟩
    | advance daemon fails =>
        obtain ⟨hback, hbind⟩ := next_early haction
        refine ⟨hback, fun heffect => ?_⟩
        obtain ⟨hpc, hfails, hnext⟩ := hbind heffect
        refine ⟨?_, ?_, hnext⟩
        · simpa [hpc] using (Bool.or_eq_false_iff.mp hfails).2
        · change (s.pc daemon).early = true
          rw [hpc]
          rfl
  refine ⟨next, rfl, hearly.1, ?_⟩
  cases effect with
  | keep => exact Or.inl ⟨by simp [changes, haction], rfl⟩
  | unlink => exact Or.inr (Or.inl ⟨by simp [changes, haction], rfl⟩)
  | bind =>
      obtain ⟨hfree, hpc, hnext⟩ := hearly.2 rfl
      exact Or.inr (Or.inr ⟨by simp [changes, haction], hfree, rfl, hpc, hnext⟩)

/-- What a step does to the path of a daemon that has bound its socket before. -/
theorem step_bound (hbound : (s.pc daemon).early = false) (h : step s label = some t) :
    (t.pc daemon).early = false ∧
      (t.path = some daemon ↔
        s.path = some daemon ∧ ∀ e ∈ changes s label, e.2 ≠ .unlink) := by
  obtain ⟨next, hpc, hback, hpath⟩ := step_cases h
  constructor
  · rw [hpc]
    by_cases hown : daemon = label.daemon
    · subst hown
      rw [Function.update_self, Bool.eq_false_iff]
      intro hearly
      rw [hback hearly] at hbound
      cases hbound
    · rwa [Function.update_of_ne hown]
  · obtain ⟨hchanges, hpath⟩ | ⟨hchanges, hpath⟩ | ⟨hchanges, hfree, hpath, hearly, -⟩ := hpath
    · simp [hchanges, hpath]
    · simp [hchanges, hpath]
    · have hne : label.daemon ≠ daemon := by
        rintro rfl
        rw [hearly] at hbound
        cases hbound
      simp [hchanges, hpath, hfree, hne]

/-- The path leads to the daemon whose `bind` is the last change, and whoever has
bound its socket never does so again. -/
structure Ledger (s : State) (noted : List (ℕ × Effect)) : Prop where
  last : ∀ daemon, s.path = some daemon ↔ noted.getLast? = some (daemon, .bind)
  once : ∀ daemon, (daemon, .bind) ∈ noted → (s.pc daemon).early = false

theorem Ledger.bound (h : Ledger s noted) (hpath : s.path = some daemon) :
    (s.pc daemon).early = false :=
  h.once daemon (List.mem_of_getLast? ((h.last daemon).mp hpath))

theorem Ledger.step (h : Ledger s noted) (hstep : step s label = some t) :
    Ledger t (noted ++ changes s label) := by
  obtain ⟨next, hpc, -, hpath⟩ := step_cases hstep
  have hkept : ∀ daemon, (daemon, .bind) ∈ noted → (t.pc daemon).early = false :=
    fun daemon hmem => (step_bound (h.once daemon hmem) hstep).1
  obtain ⟨hchanges, hpath⟩ | ⟨hchanges, hpath⟩ | ⟨hchanges, -, hpath, -, hnext⟩ := hpath
  · rw [hchanges, List.append_nil]
    exact ⟨fun daemon => by rw [hpath, h.last], hkept⟩
  · rw [hchanges]
    refine ⟨fun daemon => by simp [hpath], fun daemon hmem => ?_⟩
    obtain hmem | hmem := List.mem_append.mp hmem
    · exact hkept daemon hmem
    · cases List.mem_singleton.mp hmem
  · rw [hchanges]
    refine ⟨fun daemon => by simp [hpath], fun daemon hmem => ?_⟩
    obtain hmem | hmem := List.mem_append.mp hmem
    · exact hkept daemon hmem
    · cases List.mem_singleton.mp hmem
      rw [hpc, Function.update_self, hnext]

theorem ledger_of_run (h : Run step free initial labels s) :
    Ledger s (trace step changes initial labels) := by
  have hstart : Ledger initial [] := ⟨fun daemon => by simp [initial], fun daemon h => by cases h⟩
  have hinv : Ledger s ([] ++ trace step changes initial labels) :=
    h.invariant_trace (fun s label t notes hs _ hstep => hs.step hstep) hstart
  exact hinv

/-- A path that leads to a daemon does so until somebody unlinks it, and then
never again. -/
theorem path_of_run (hbound : (s.pc daemon).early = false) (h : Run step free s labels t) :
    t.path = some daemon ↔
      s.path = some daemon ∧ ∀ e ∈ trace step changes s labels, e.2 ≠ .unlink := by
  let I : State → List (ℕ × Effect) → Prop := fun t notes =>
    (t.pc daemon).early = false ∧
      (t.path = some daemon ↔ s.path = some daemon ∧ ∀ e ∈ notes, e.2 ≠ .unlink)
  have hstart : I s [] := ⟨hbound, by simp⟩
  have hstep : ∀ u label v notes, I u notes → free u label → step u label = some v →
      I v (notes ++ changes u label) := by
    rintro u label v notes ⟨hearly, hpath⟩ - hstep
    obtain ⟨hnext, hmoved⟩ := step_bound hearly hstep
    refine ⟨hnext, ?_⟩
    rw [hmoved, hpath]
    simp only [List.mem_append, or_imp, forall_and, and_assoc]
  have hinv : I t ([] ++ trace step changes s labels) := h.invariant_trace hstep hstart
  exact hinv.2

/-- Among daemons that start, stop and die in any order, the path leads to the
one whose `bind` is the last change of the path. It leads to it until anyone
unlinks it, be it a daemon that starts or one that stops, and a daemon that was
reached once and is not any more is never reached again, however long it runs. -/
theorem reached_until_unlinked (h : Run step free initial labels s) (daemon : ℕ) :
    (s.path = some daemon ↔
      (trace step changes initial labels).getLast? = some (daemon, .bind)) ∧
    (s.path = some daemon → ∀ later t, Run step free s later t →
      (t.path = some daemon ↔ ∀ e ∈ trace step changes s later, e.2 ≠ .unlink)) ∧
    ((daemon, .bind) ∈ trace step changes initial labels → s.path ≠ some daemon →
      ∀ later t, Run step free s later t → t.reaches daemon = false) := by
  have hledger := ledger_of_run h
  refine ⟨hledger.last daemon, fun hpath later t hlater => ?_, fun hmem hlost later t hlater => ?_⟩
  · rw [path_of_run (hledger.bound hpath) hlater]
    exact and_iff_right hpath
  · have hnever : t.path ≠ some daemon := fun hpath =>
      hlost ((path_of_run (hledger.once daemon hmem) hlater).mp hpath).1
    rw [State.reaches, decide_eq_false hnever, Bool.false_and]

/-- A daemon starts, another one takes the path over, and the first one stops. -/
def takenOver : List Label :=
  (List.replicate 4 (.advance 0 false) ++ List.replicate 4 (.advance 1 false)) ++
    List.replicate 3 (.advance 0 false)

/-- The stop of the first one cuts the second one off for good. -/
theorem reached_until_unlinked_taken_over :
    ∃ s, Run step free initial takenOver s ∧ s.pc 1 = .running ∧
      ∀ later t, Run step free s later t → t.reaches 0 = false ∧ t.reaches 1 = false := by
  obtain ⟨s, hrun, hs⟩ := Run.of_exec_any step free initial takenOver
    (fun s => decide (s.pc 1 = .running ∧ s.path = none)) (by decide)
  obtain ⟨hpc, hpath⟩ := of_decide_eq_true hs
  refine ⟨s, hrun, hpc, fun later t hlater => ⟨?_, ?_⟩⟩
  · exact (reached_until_unlinked hrun 0).2.2 (by decide) (by simp [hpath]) later t hlater
  · exact (reached_until_unlinked hrun 1).2.2 (by decide) (by simp [hpath]) later t hlater

end AgentPulse.SocketPath
