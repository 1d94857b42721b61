/-
Single-assignment code, for any instructions and any values.

An instruction writes one address, and what it writes is a function of addresses it
reads. When every instruction reads below the address it writes and addresses only
go up, nothing is ever overwritten: the memory at the end satisfies the equation of
each instruction, all of them at once. So what code computes can be read off its
equations, in any order, without following the run.
-/
import Mathlib.Data.List.Basic
import Mathlib.Logic.Function.Basic

set_option autoImplicit false

namespace SingleAssignment

/-- Instructions `I` over a memory of values `V`. -/
structure Code (I V : Type*) where
  dest : I → ℕ
  reads : I → List ℕ
  rhs : I → (ℕ → V) → V
  /-- What is written depends on the reads alone. -/
  rhs_congr : ∀ i m m', (∀ a ∈ reads i, m a = m' a) → rhs i m = rhs i m'

namespace Code

variable {I V : Type*} (C : Code I V)

/-- The memory after an instruction. -/
def step (m : ℕ → V) (i : I) : ℕ → V := Function.update m (C.dest i) (C.rhs i m)

/-- The memory after a program. -/
def eval (m : ℕ → V) (ops : List I) : ℕ → V := ops.foldl C.step m

/-- The memory satisfies the equation of each instruction. -/
def Solves (m : ℕ → V) (ops : List I) : Prop := ∀ i ∈ ops, m (C.dest i) = C.rhs i m

/-- Code that writes each address once, from `n` on and below `n'`, and reads what
was there before. -/
def Grows : ℕ → List I → ℕ → Prop
  | n, [], n' => n ≤ n'
  | n, i :: ops, n' => n ≤ C.dest i ∧ (∀ a ∈ C.reads i, a < C.dest i) ∧ Grows (C.dest i + 1) ops n'

variable {C}

@[simp] theorem eval_nil (m : ℕ → V) : C.eval m [] = m := rfl

theorem eval_cons (m : ℕ → V) (i : I) (ops : List I) :
    C.eval m (i :: ops) = C.eval (C.step m i) ops := rfl

theorem eval_append (m : ℕ → V) (ops ops' : List I) :
    C.eval m (ops ++ ops') = C.eval (C.eval m ops) ops' := List.foldl_append

theorem solves_append {m : ℕ → V} {ops ops' : List I} :
    C.Solves m (ops ++ ops') ↔ C.Solves m ops ∧ C.Solves m ops' := List.forall_mem_append

theorem Grows.le {n n' : ℕ} {ops : List I} (h : C.Grows n ops n') : n ≤ n' := by
  induction ops generalizing n with
  | nil => exact h
  | cons i ops ih =>
    obtain ⟨hn, -, hrest⟩ := h
    have hlt := ih hrest
    omega

theorem Grows.append {n₁ n₂ n₃ : ℕ} {ops ops' : List I} (h : C.Grows n₁ ops n₂)
    (h' : C.Grows n₂ ops' n₃) : C.Grows n₁ (ops ++ ops') n₃ := by
  induction ops generalizing n₁ with
  | nil =>
    rcases ops' with - | ⟨i, ops'⟩
    · exact Nat.le_trans h h'
    · exact ⟨Nat.le_trans h h'.1, h'.2⟩
  | cons i ops ih => exact ⟨h.1, h.2.1, ih h.2.2⟩

/-- What is written is not below the start. -/
theorem Grows.le_dest {n n' : ℕ} {ops : List I} (h : C.Grows n ops n') {i : I} (hi : i ∈ ops) :
    n ≤ C.dest i := by
  induction ops generalizing n with
  | nil => exact absurd hi List.not_mem_nil
  | cons j ops ih =>
    obtain ⟨hn, -, hrest⟩ := h
    rcases List.mem_cons.mp hi with rfl | hi
    · exact hn
    · have hle := ih hrest hi
      omega

/-- What is written is below the end. -/
theorem Grows.dest_lt {n n' : ℕ} {ops : List I} (h : C.Grows n ops n') {i : I} (hi : i ∈ ops) :
    C.dest i < n' := by
  induction ops generalizing n with
  | nil => exact absurd hi List.not_mem_nil
  | cons j ops ih =>
    obtain ⟨-, -, hrest⟩ := h
    rcases List.mem_cons.mp hi with rfl | hi
    · exact hrest.le
    · exact ih hrest hi

/-- And so is what is read. -/
theorem Grows.reads_lt {n n' : ℕ} {ops : List I} (h : C.Grows n ops n') {i : I} (hi : i ∈ ops)
    {a : ℕ} (ha : a ∈ C.reads i) : a < n' := by
  induction ops generalizing n with
  | nil => exact absurd hi List.not_mem_nil
  | cons j ops ih =>
    obtain ⟨-, hreads, hrest⟩ := h
    rcases List.mem_cons.mp hi with rfl | hi
    · exact Nat.lt_trans (hreads a ha) hrest.le
    · exact ih hrest hi

theorem step_of_ne (m : ℕ → V) {i : I} {a : ℕ} (h : a ≠ C.dest i) : C.step m i a = m a :=
  Function.update_of_ne h _ _

/-- What no instruction writes stays. -/
theorem eval_of_not_dest {ops : List I} {a : ℕ} (h : ∀ i ∈ ops, C.dest i ≠ a) (m : ℕ → V) :
    C.eval m ops a = m a := by
  induction ops generalizing m with
  | nil => rfl
  | cons i ops ih =>
    obtain ⟨hi, hrest⟩ := List.forall_mem_cons.mp h
    rw [eval_cons, ih hrest, step_of_ne m hi.symm]

/-- Nothing below the start is written. -/
theorem Grows.eval_of_lt {n n' : ℕ} {ops : List I} (h : C.Grows n ops n') (m : ℕ → V) {a : ℕ}
    (ha : a < n) : C.eval m ops a = m a := by
  induction ops generalizing n m with
  | nil => rfl
  | cons i ops ih =>
    obtain ⟨hn, -, hrest⟩ := h
    have hne : a ≠ C.dest i := by omega
    rw [eval_cons, ih hrest _ (by omega), step_of_ne m hne]

/-- **The equations hold at the end.** -/
theorem Grows.solves {n n' : ℕ} {ops : List I} (h : C.Grows n ops n') (m : ℕ → V) :
    C.Solves (C.eval m ops) ops := by
  induction ops generalizing n m with
  | nil => exact List.forall_mem_nil _
  | cons i ops ih =>
    obtain ⟨-, hreads, hrest⟩ := h
    rw [eval_cons]
    refine List.forall_mem_cons.mpr ⟨?_, ih hrest _⟩
    have hkept : ∀ a ∈ C.reads i, m a = C.eval (C.step m i) ops a := by
      intro a ha
      have hlt := hreads a ha
      rw [hrest.eval_of_lt _ (by omega), step_of_ne m (by omega)]
    rw [hrest.eval_of_lt _ (Nat.lt_succ_self _), step, Function.update_self]
    exact C.rhs_congr i _ _ hkept

end Code

end SingleAssignment
