import Mathlib.Logic.Relation
import Mathlib.Data.List.Basic

/-!
# Labelled partial transitions

A transition system is a partial step function from a state and a label. A
run lists its labels, and every step of it meets a guard read in the state
before that step. Safety is proved once per step and lifted to runs here.

## Implementation notes

The guard is a parameter of the run and not of the step function, so that one
system can be run both freely and under the assumptions of a given result.
-/

namespace Transition

universe u v

variable {σ : Type u} {l : Type v}

/-- A run along a list of labels in which the guard holds before every step. -/
inductive Run (step : σ → l → Option σ) (ok : σ → l → Prop) : σ → List l → σ → Prop
  | nil (s : σ) : Run step ok s [] s
  | cons {s m t : σ} {a : l} {rest : List l} (hok : ok s a) (hstep : step s a = some m)
      (tail : Run step ok m rest t) : Run step ok s (a :: rest) t

/-- The guard that admits every step. -/
def free : σ → l → Prop := fun _ _ => True

instance (s : σ) (a : l) : Decidable (free s a) := inferInstanceAs (Decidable True)

/-- Execute the labels in order, failing at the first step that is not enabled
or not admitted by the guard. -/
def exec (step : σ → l → Option σ) (ok : σ → l → Prop) [∀ s a, Decidable (ok s a)] :
    σ → List l → Option σ
  | s, [] => some s
  | s, a :: rest => if ok s a then (step s a).bind fun m => exec step ok m rest else none

/-- What an observer notes along the labels: a list for every step, read in the
state before it. -/
def trace {η : Type*} (step : σ → l → Option σ) (note : σ → l → List η) : σ → List l → List η
  | _, [] => []
  | s, a :: rest =>
      note s a ++ match step s a with
        | some m => trace step note m rest
        | none => []

/-- The system with a history variable beside its state. `upd` reads the state
before each step, and no step depends on the variable. -/
def observe {η : Type*} (step : σ → l → Option σ) (upd : σ → l → η → η) (s : σ × η) (a : l) :
    Option (σ × η) :=
  (step s.1 a).map fun t => (t, upd s.1 a s.2)

/-- A state reached from `s` by some unguarded run. -/
def Reachable (step : σ → l → Option σ) (s t : σ) : Prop :=
  ∃ labels, Run step free s labels t

variable {step : σ → l → Option σ} {ok : σ → l → Prop}

/-- A successful execution is a run under its guard. -/
theorem Run.of_exec [∀ s a, Decidable (ok s a)] {s t : σ} {labels : List l}
    (h : exec step ok s labels = some t) : Run step ok s labels t := by
  induction labels generalizing s with
  | nil =>
      cases h
      exact Run.nil _
  | cons a rest ih =>
      by_cases hok : ok s a
      · rw [exec, if_pos hok] at h
        obtain ⟨m, hm, ht⟩ := Option.bind_eq_some_iff.mp h
        exact Run.cons hok hm (ih ht)
      · rw [exec, if_neg hok] at h
        cases h

/-- An execution whose last state passes a test is a run to such a state. -/
theorem Run.of_exec_any (step : σ → l → Option σ) (ok : σ → l → Prop) [∀ s a, Decidable (ok s a)]
    (s : σ) (labels : List l) (p : σ → Bool) (h : (exec step ok s labels).any p = true) :
    ∃ t, Run step ok s labels t ∧ p t = true := by
  obtain ⟨t, ht, hp⟩ := (Option.any_eq_true p _).mp h
  exact ⟨t, Run.of_exec ht, hp⟩

/-- A run whose labels meet the guard in every state is a run under the guard. -/
theorem Run.of_labels {s t : σ} {labels : List l} (h : Run step free s labels t)
    (hok : ∀ a ∈ labels, ∀ s, ok s a) : Run step ok s labels t := by
  induction h with
  | nil s => exact Run.nil s
  | cons _ hstep _ ih =>
      exact Run.cons (hok _ List.mem_cons_self _) hstep
        (ih fun a ha => hok a (List.mem_cons_of_mem _ ha))

/-- Runs compose by concatenating their labels. -/
theorem Run.append {s m t : σ} {as bs : List l} (h₁ : Run step ok s as m)
    (h₂ : Run step ok m bs t) : Run step ok s (as ++ bs) t := by
  induction h₁ with
  | nil s => simpa using h₂
  | cons hok hstep _ ih => exact Run.cons hok hstep (ih h₂)

/-- One more step at the end of a run. -/
theorem Run.snoc {s m t : σ} {as : List l} {a : l} (h : Run step ok s as m)
    (hok : ok m a) (hstep : step m a = some t) : Run step ok s (as ++ [a]) t :=
  h.append (Run.cons hok hstep (Run.nil t))

/-- A property kept by every guarded step from a state that has it holds at
the end of every guarded run. -/
theorem Run.invariant {I : σ → Prop}
    (hstep : ∀ s a t, I s → ok s a → step s a = some t → I t)
    {s t : σ} {labels : List l} (h : Run step ok s labels t) (hs : I s) : I t := by
  induction h with
  | nil s => exact hs
  | cons hok hs' _ ih => exact ih (hstep _ _ _ hs hok hs')

/-- An invariant that also speaks of what an observer has noted so far. -/
theorem Run.invariant_trace {η : Type*} {note : σ → l → List η} {I : σ → List η → Prop}
    (hstep : ∀ s a t notes, I s notes → ok s a → step s a = some t → I t (notes ++ note s a))
    {s t : σ} {labels : List l} (h : Run step ok s labels t) {notes : List η} (hs : I s notes) :
    I t (notes ++ trace step note s labels) := by
  induction h generalizing notes with
  | nil s => simpa [trace] using hs
  | @cons s m t a rest hok hm tail ih =>
      have htail := ih (hstep s a m notes hs hok hm)
      simpa only [trace, hm, List.append_assoc] using htail

section History

variable {η : Type*} {upd : σ → l → η → η}

theorem observe_eq_some_iff {s t : σ × η} {a : l} :
    observe step upd s a = some t ↔ step s.1 a = some t.1 ∧ t.2 = upd s.1 a s.2 := by
  obtain ⟨t, h⟩ := t
  simp only [observe, Option.map_eq_some_iff, Prod.mk.injEq]
  constructor
  · rintro ⟨m, hm, rfl, rfl⟩
    exact ⟨hm, rfl⟩
  · rintro ⟨hm, rfl⟩
    exact ⟨t, hm, rfl, rfl⟩

/-- Every run of the system is one of the system with a history variable. -/
theorem Run.observed {s t : σ} {labels : List l} (h : Run step ok s labels t)
    (upd : σ → l → η → η) (x : η) :
    ∃ y, Run (observe step upd) (fun s a => ok s.1 a) (s, x) labels (t, y) := by
  induction h generalizing x with
  | nil s => exact ⟨x, Run.nil _⟩
  | @cons s m t a rest hok hstep _ ih =>
      obtain ⟨y, htail⟩ := ih (upd s a x)
      exact ⟨y, Run.cons hok (observe_eq_some_iff.mpr ⟨hstep, rfl⟩) htail⟩

/-- The history variable may be forgotten. -/
theorem Run.unobserved {s t : σ × η} {labels : List l}
    (h : Run (observe step upd) (fun s a => ok s.1 a) s labels t) : Run step ok s.1 labels t.1 := by
  induction h with
  | nil s => exact Run.nil _
  | cons hok hstep _ ih => exact Run.cons hok (observe_eq_some_iff.mp hstep).1 ih

end History

/-- A guard that is met at every step by what an invariant and the rest of the
run say is met along the run. -/
theorem Run.strengthen {ok' : σ → l → Prop} {I : σ → Prop} {s t : σ} {labels : List l}
    (h : Run step ok s labels t) (hs : I s)
    (hstep : ∀ s a m, I s → ok s a → step s a = some m → I m)
    (hok : ∀ s a m rest, I s → ok s a → step s a = some m → Run step ok m rest t → ok' s a) :
    Run step ok' s labels t := by
  induction h with
  | nil s => exact Run.nil s
  | cons hstepOk hm tail ih =>
      have hrest := ih (hstep _ _ _ hs hstepOk hm) hok
      exact Run.cons (hok _ _ _ _ hs hstepOk hm tail) hm hrest

/-- A stronger guard admits fewer runs. -/
theorem Run.mono {ok' : σ → l → Prop} (hok : ∀ s a, ok s a → ok' s a) {s t : σ}
    {labels : List l} (h : Run step ok s labels t) : Run step ok' s labels t := by
  induction h with
  | nil s => exact Run.nil s
  | cons hstepOk hstep _ ih => exact Run.cons (hok _ _ hstepOk) hstep ih

/-- A run under two guards meets both. -/
theorem Run.and {ok' : σ → l → Prop} {s t : σ} {labels : List l} (h : Run step ok s labels t)
    (h' : Run step ok' s labels t) : Run step (fun s a => ok s a ∧ ok' s a) s labels t := by
  induction h with
  | nil s => exact Run.nil s
  | cons hok hstep _ ih =>
      cases h' with
      | cons hok' hstep' tail' =>
          cases hstep.symm.trans hstep'
          exact Run.cons ⟨hok, hok'⟩ hstep (ih tail')

/-- Reachability is closed under one further step. -/
theorem Reachable.snoc {s m t : σ} {a : l} (h : Reachable step s m)
    (hstep : step m a = some t) : Reachable step s t := by
  obtain ⟨labels, hrun⟩ := h
  exact ⟨labels ++ [a], hrun.snoc trivial hstep⟩

theorem Reachable.refl (s : σ) : Reachable step s s := ⟨[], Run.nil s⟩

theorem Reachable.trans {s m t : σ} (h₁ : Reachable step s m)
    (h₂ : Reachable step m t) : Reachable step s t := by
  obtain ⟨as, ha⟩ := h₁
  obtain ⟨bs, hb⟩ := h₂
  exact ⟨as ++ bs, ha.append hb⟩

end Transition
