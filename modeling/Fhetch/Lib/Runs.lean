/-
Runs of a state machine, for any states and any operations.

A run is a list of operations taken one after another. What a run must not do is
a condition on each operation and the state it is taken in, collected along the
run; an invariant that every allowed operation keeps holds where the run ends,
and a run that stops early is a run, so it holds at every point.
-/
import Mathlib.Data.List.Basic

set_option autoImplicit false

namespace Runs

variable {State Op : Type*} (step : State → Op → State) (allowed : State → Op → Prop)

/-- Where a list of operations leads. -/
def run (s : State) (ops : List Op) : State := ops.foldl step s

/-- Each operation is allowed in the state it is taken in. -/
def Along : State → List Op → Prop
  | _, [] => True
  | s, op :: ops => allowed s op ∧ Along (step s op) ops

@[simp] theorem run_nil (s : State) : run step s [] = s := rfl

@[simp] theorem run_cons (s : State) (op : Op) (ops : List Op) :
    run step s (op :: ops) = run step (step s op) ops := rfl

theorem run_append (s : State) (ops ops' : List Op) :
    run step s (ops ++ ops') = run step (run step s ops) ops' := List.foldl_append

variable {step allowed}

/-- What every allowed operation keeps, a run keeps. -/
theorem run_invariant {Inv : State → Prop}
    (hstep : ∀ s op, allowed s op → Inv s → Inv (step s op)) {s : State} (hs : Inv s)
    {ops : List Op} (hops : Along step allowed s ops) : Inv (run step s ops) := by
  induction ops generalizing s with
  | nil => exact hs
  | cons op ops ih =>
    obtain ⟨hop, hrest⟩ := hops
    exact ih (hstep s op hop hs) hrest

/-- Where nothing is forbidden, every run keeps it. -/
theorem run_invariant_of_always {Inv : State → Prop} (hstep : ∀ s op, Inv s → Inv (step s op))
    {s : State} (hs : Inv s) (ops : List Op) : Inv (run step s ops) := by
  induction ops generalizing s with
  | nil => exact hs
  | cons op ops ih => exact ih (hstep s op hs)

/-- An operation of an allowed run was allowed where it was taken. -/
theorem along_at {s : State} {ops ops' : List Op} {op : Op}
    (h : Along step allowed s (ops ++ op :: ops')) : allowed (run step s ops) op := by
  induction ops generalizing s with
  | nil => exact h.1
  | cons op' ops ih => exact ih h.2

/-- Two conditions met along a run are met together. -/
theorem Along.and {allowed' : State → Op → Prop} {s : State} {ops : List Op}
    (h : Along step allowed s ops) (h' : Along step allowed' s ops) :
    Along step (fun s op => allowed s op ∧ allowed' s op) s ops := by
  induction ops generalizing s with
  | nil => trivial
  | cons op ops ih => exact ⟨⟨h.1, h'.1⟩, ih h.2 h'.2⟩

/-- **Two conditions that agree under an invariant** are met by the same runs, when
the second one keeps the invariant. -/
theorem along_congr {Inv : State → Prop} {allowed' : State → Op → Prop}
    (hstep : ∀ s op, allowed' s op → Inv s → Inv (step s op))
    (hiff : ∀ s op, Inv s → (allowed s op ↔ allowed' s op)) {s : State} (hs : Inv s) (ops : List Op) :
    Along step allowed s ops ↔ Along step allowed' s ops := by
  induction ops generalizing s with
  | nil => exact Iff.rfl
  | cons op ops ih =>
    constructor
    · rintro ⟨hop, hrest⟩
      have hop' := (hiff s op hs).mp hop
      exact ⟨hop', (ih (hstep s op hop' hs)).mp hrest⟩
    · rintro ⟨hop, hrest⟩
      exact ⟨(hiff s op hs).mpr hop, (ih (hstep s op hop hs)).mpr hrest⟩

/-- **Two runs of the same operations.** What one step cannot tell from a view of the
states, no run can. -/
theorem view_run {View : Type*} {view : State → View}
    (hstep : ∀ s s' op, view s = view s' → view (step s op) = view (step s' op)) {s s' : State}
    (hview : view s = view s') (ops : List Op) : view (run step s ops) = view (run step s' ops) := by
  induction ops generalizing s s' with
  | nil => exact hview
  | cons op ops ih => exact ih (hstep s s' op hview)

/-- The operations of a run are operations of the list. -/
theorem Along.with_mem {s : State} {ops : List Op} (h : Along step allowed s ops) :
    Along step (fun s op => allowed s op ∧ op ∈ ops) s ops := by
  have hsub : ∀ (all rest : List Op), rest ⊆ all → ∀ s, Along step allowed s rest →
      Along step (fun s op => allowed s op ∧ op ∈ all) s rest := by
    intro all rest
    induction rest with
    | nil => exact fun _ _ _ => trivial
    | cons op rest ih =>
      intro hsub s hs
      obtain ⟨hmem, hrest⟩ := List.cons_subset.mp hsub
      exact ⟨⟨hs.1, hmem⟩, ih hrest _ hs.2⟩
  exact hsub ops ops (List.Subset.refl _) s h

end Runs
