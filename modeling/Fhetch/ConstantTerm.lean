/-
Adding to a polynomial in coefficients (`exec_addps`, `exec_subps`).

A polynomial and a number have a sum, and the header says what it is in both
representations: in coefficients the number goes to the constant term, and in
evaluations to every value. The two agree, because evaluating a polynomial at the odd
powers of a root adds its constant term to every value.

The simulator has one handler for both opcodes, the one for evaluations. So what it
does to coefficients is right where it makes no difference.
-/
import Fhetch.Lib.Negacyclic
import Fhetch.RecordedCode
import Fhetch.WordArithmetic

set_option autoImplicit false

namespace Fhetch

/-! ## What the header says -/

/-- The sum of a polynomial and a number, and the difference. -/
inductive ConstantOp where
  | add
  | sub

namespace ConstantOp

/-- The opcode in coefficients. -/
def coefficient : ConstantOp → FhOpcode
  | add => .FH_SR_ADDPS_COEFF
  | sub => .FH_SR_SUBPS_COEFF

/-- The opcode in evaluations. -/
def evaluation : ConstantOp → FhOpcode
  | add => .FH_SR_ADDPS
  | sub => .FH_SR_SUBPS

/-- `(x + s) mod q`, `(x - s) mod q`. -/
def value (f : ConstantOp) (q s x : ℕ) : ℕ :=
  match f with
  | add => (x + s) % q
  | sub => (((x : ℤ) - s) % q).toNat

/-- `f_0 = (a_0 ± s) mod q`, `f_{i>0} = a_i`. -/
def onConstant (f : ConstantOp) (q s : ℕ) : Poly → Poly
  | [] => []
  | x :: a => f.value q s x :: a

/-- `f_i = (a_i ± s) mod q`. -/
def onAll (f : ConstantOp) (q s : ℕ) (a : Poly) : Poly := a.map (f.value q s)

end ConstantOp

/-- The values of a polynomial at the odd powers of `psi`. -/
def evaluations (q psi : ℕ) (a : Poly) : Poly :=
  (List.range a.length).map fun j =>
    (∑ i ∈ Finset.range a.length, a.getD i 0 * (psi ^ (2 * j + 1)) ^ i) % q

@[simp] theorem evaluations_length (q psi : ℕ) (a : Poly) : (evaluations q psi a).length = a.length := by
  rw [evaluations, List.length_map, List.length_range]

theorem evaluations_lt {q psi : ℕ} (hq : 0 < q) {a : Poly} {x : ℕ} (hx : x ∈ evaluations q psi a) : x < q := by
  obtain ⟨j, -, rfl⟩ := List.mem_map.mp hx
  exact Nat.mod_lt _ hq

/-- An evaluation is the value of the polynomial in the ring of residues. -/
theorem evaluations_cast {q psi : ℕ} {a : Poly} {j : ℕ} (hj : j < a.length) :
    ((evaluations q psi a).getD j 0 : ZMod q) =
      Negacyclic.eval a.length (fun i => (a.getD i 0 : ZMod q)) ((psi : ZMod q) ^ (2 * j + 1)) := by
  rw [List.getD_eq_getElem _ _ (by rwa [evaluations_length])]
  simp only [evaluations, List.getElem_map, List.getElem_range]
  rw [ZMod.natCast_mod, Negacyclic.eval]
  push_cast
  rfl

namespace ConstantOp

variable (f : ConstantOp) {q s x : ℕ}

/-- What is added, in the ring of residues. -/
def shift (q s : ℕ) : ZMod q :=
  match f with
  | add => s
  | sub => -s

theorem value_lt (hq : 0 < q) : f.value q s x < q := by
  cases f with
  | add => exact Nat.mod_lt _ hq
  | sub =>
    have hlt := Int.emod_lt_of_pos ((x : ℤ) - s) (Int.natCast_pos.mpr hq)
    have hnonneg := Int.emod_nonneg ((x : ℤ) - s) (Int.natCast_ne_zero.mpr hq.ne')
    show (((x : ℤ) - s) % q).toNat < q
    omega

theorem value_cast (hq : 0 < q) : (f.value q s x : ZMod q) = x + f.shift q s := by
  cases f with
  | add =>
    show (((x + s) % q : ℕ) : ZMod q) = x + (s : ZMod q)
    rw [ZMod.natCast_mod, Nat.cast_add]
  | sub =>
    have hnonneg := Int.emod_nonneg ((x : ℤ) - s) (Int.natCast_ne_zero.mpr hq.ne')
    show ((((x : ℤ) - s) % q).toNat : ZMod q) = x + -(s : ZMod q)
    rw [← Int.cast_natCast, Int.toNat_of_nonneg hnonneg, ZMod.intCast_mod]
    push_cast
    ring

/-- A reduced value stays as it is exactly when nothing is added. -/
theorem value_eq_self_iff (hx : x < q) : f.value q s x = x ↔ q ∣ s := by
  have hq : 0 < q := by omega
  have hshift : f.shift q s = 0 ↔ q ∣ s := by
    rw [← ZMod.natCast_eq_zero_iff]
    cases f with
    | add => exact Iff.rfl
    | sub => exact neg_eq_zero
  rw [← hshift, ← add_eq_left (a := (x : ZMod q)), ← f.value_cast hq, ZMod.natCast_eq_natCast_iff',
    Nat.mod_eq_of_lt (f.value_lt hq), Nat.mod_eq_of_lt hx]

/-- The constant term of the result, and the others. -/
theorem onConstant_getD (a : Poly) (i : ℕ) : (f.onConstant q s a).getD i 0 =
    if i = 0 ∧ a ≠ [] then f.value q s (a.getD 0 0) else a.getD i 0 := by
  rcases a with - | ⟨x, a⟩
  · simp [onConstant]
  · rcases i with - | i
    · simp [onConstant]
    · simp [onConstant]

theorem onConstant_length (a : Poly) : (f.onConstant q s a).length = a.length := by
  rcases a with - | ⟨x, a⟩
  · rfl
  · rfl

/-- **The two representations agree**: evaluating the sum is adding to the evaluations. -/
theorem evaluations_onConstant (hq : 0 < q) (psi : ℕ) (a : Poly) :
    evaluations q psi (f.onConstant q s a) = f.onAll q s (evaluations q psi a) := by
  apply List.ext_getElem
  · rw [onAll, List.length_map, evaluations_length, evaluations_length, onConstant_length]
  · intro j hj hj'
    have hlt : j < a.length := by rwa [evaluations_length, onConstant_length] at hj
    have hpos : 0 < a.length := by omega
    simp only [onAll, List.getElem_map]
    have hvalue : ((evaluations q psi (f.onConstant q s a)).getD j 0 : ZMod q) =
        (f.value q s ((evaluations q psi a).getD j 0) : ZMod q) := by
      rw [evaluations_cast (by rwa [onConstant_length]), f.value_cast hq, evaluations_cast hlt,
        onConstant_length, ← Negacyclic.eval_add_constant hpos]
      refine Negacyclic.eval_congr fun i _ => ?_
      rw [onConstant_getD]
      by_cases hi : i = 0
      · rw [if_pos ⟨hi, List.ne_nil_of_length_pos hpos⟩, if_pos hi, f.value_cast hq]
      · rw [if_neg fun h => hi h.1, if_neg hi]
    rw [List.getD_eq_getElem _ _ hj, List.getD_eq_getElem _ _ (by rwa [evaluations_length]),
      ZMod.natCast_eq_natCast_iff'] at hvalue
    rwa [Nat.mod_eq_of_lt (evaluations_lt hq (List.getElem_mem hj)),
      Nat.mod_eq_of_lt (f.value_lt hq)] at hvalue

end ConstantOp

/-! ## What the simulator does -/

section Simulator

variable {M : NativeMath} {s : Impl} {inst : Instruction} {q : UInt64}

/-- An operand of the ring dimension, reduced. -/
structure Impl.Operand (s : Impl) (q addr : ℕ) : Prop where
  length : (s.get_or_zero addr).length = s.ring_dim
  reduced : ∀ x ∈ s.get_or_zero addr, x < q

/-- **Both opcodes run the handler for evaluations.** -/
theorem ConstantOp.exec (f : ConstantOp) (hM : M.Exact) (hq : 0 < q.toNat)
    (hop : inst.opcode = f.coefficient ∨ inst.opcode = f.evaluation)
    (hsel : inst.selects s.trace.modulus_table = some q) (ha : s.Operand q.toNat inst.src1.toNat) :
    exec_instruction M s inst = some (s.write inst.dest.toNat
      (f.onAll q.toNat inst.imm (s.get_or_zero inst.src1.toNat)) q.toNat, true) := by
  cases f with
  | add =>
    have hexec : exec_instruction M s inst = exec_addps M s inst := by
      unfold exec_instruction
      rcases hop with hop | hop
      · rw [hop]
        rfl
      · rw [hop]
        rfl
    rw [hexec]
    refine exec_src1_map ha.length hsel fun _ => ?_
    by_cases himm : inst.imm = 0
    · -- an addition of 0 is a copy, and the operand is reduced
      rw [if_pos himm, himm]
      congr 3
      refine (List.map_id _).symm.trans (List.map_congr_left fun x hx => ?_)
      exact (Nat.mod_eq_of_lt (ha.reduced x hx)).symm
    · rw [if_neg himm, hM.ModAddEq _ _ _ hq, Option.map_some]
      rfl
  | sub =>
    have hexec : exec_instruction M s inst = exec_subps M s inst := by
      unfold exec_instruction
      rcases hop with hop | hop
      · rw [hop]
        rfl
      · rw [hop]
        rfl
    rw [hexec]
    refine exec_src1_map ha.length hsel fun _ => ?_
    rw [hM.ModSubEq _ _ _ hq, Option.map_some]
    simp only [sub_mod_toNat hq]
    rfl

/-- **Only the constant term is touched**: the instruction runs, and leaves the operand
with its constant term changed; and at any root, the evaluations of what it leaves are
what the instruction for evaluations makes of those of the operand. -/
def ConstantOp.TouchesConstant (f : ConstantOp) (M : NativeMath) (s : Impl) (inst : Instruction)
    (q : UInt64) : Prop :=
  ∃ s', exec_instruction M s inst = some (s', true) ∧
    s'.get_or_zero inst.dest.toNat =
      f.onConstant q.toNat inst.imm (s.get_or_zero inst.src1.toNat) ∧
    ∀ psi : ℕ, (psi ^ s.ring_dim + 1) % q.toNat = 0 →
      ∃ s'', exec_instruction M
          (s.write inst.src1.toNat (evaluations q.toNat psi (s.get_or_zero inst.src1.toNat)) q.toNat)
          { inst with opcode := f.evaluation } = some (s'', true) ∧
        s''.get_or_zero inst.dest.toNat =
          evaluations q.toNat psi (s'.get_or_zero inst.dest.toNat)

theorem ConstantOp.onAll_eq_onConstant_iff (f : ConstantOp) {q imm : ℕ} {a : Poly}
    (ha : ∀ x ∈ a, x < q) : f.onAll q imm a = f.onConstant q imm a ↔ a.length ≤ 1 ∨ q ∣ imm := by
  rcases a with - | ⟨x, a⟩
  · simp [onAll, onConstant]
  · rw [onAll, onConstant, List.map_cons, List.cons.injEq, and_iff_right rfl]
    constructor
    · intro h
      rcases a with - | ⟨y, a⟩
      · exact .inl (Nat.le_refl 1)
      · rw [List.map_cons, List.cons.injEq] at h
        exact .inr ((f.value_eq_self_iff (ha y (by simp))).mp h.1)
    · rintro (hshort | hdvd)
      · have hnil : a = [] := by
          rw [List.length_cons] at hshort
          exact List.eq_nil_of_length_eq_zero (by omega)
        rw [hnil, List.map_nil]
      · refine (List.map_congr_left fun y hy => ?_).trans (List.map_id _)
        exact (f.value_eq_self_iff (ha y (List.mem_cons_of_mem _ hy))).mpr hdvd

/-- **The handler touches the constant term alone exactly** when there is no other, or
nothing is added. -/
theorem constant_instruction_iff (hM : M.Exact) (f : ConstantOp) (s : Impl) (inst : Instruction)
    (hop : inst.opcode = f.coefficient) (hsel : inst.selects s.trace.modulus_table = some q)
    (hq : 0 < q.toNat) (ha : s.Operand q.toNat inst.src1.toNat) :
    f.TouchesConstant M s inst q ↔ s.ring_dim ≤ 1 ∨ q.toNat ∣ inst.imm := by
  have hexec := f.exec hM hq (.inl hop) hsel ha
  have hresult : ∀ {s' : Impl}, exec_instruction M s inst = some (s', true) →
      s'.get_or_zero inst.dest.toNat = f.onAll q.toNat inst.imm (s.get_or_zero inst.src1.toNat) := by
    intro s' h
    rw [hexec] at h
    rw [← (Prod.mk.inj (Option.some.inj h)).1, Impl.write_get_or_zero, if_pos rfl]
  rw [← ha.length, ← f.onAll_eq_onConstant_iff ha.reduced]
  constructor
  · rintro ⟨s', h, hconstant, -⟩
    exact (hresult h).symm.trans hconstant
  · intro hsame
    refine ⟨_, hexec, (hresult hexec).trans hsame, fun psi _ => ?_⟩
    rw [hresult hexec, hsame, f.evaluations_onConstant hq]
    let loaded := s.write inst.src1.toNat (evaluations q.toNat psi (s.get_or_zero inst.src1.toNat)) q.toNat
    have hloaded : loaded.get_or_zero inst.src1.toNat =
        evaluations q.toNat psi (s.get_or_zero inst.src1.toNat) := by
      rw [Impl.write_get_or_zero, if_pos rfl]
    have hoperand : loaded.Operand q.toNat inst.src1.toNat := by
      refine ⟨?_, ?_⟩
      · rw [hloaded, evaluations_length]
        exact ha.length
      · rw [hloaded]
        exact fun x hx => evaluations_lt hq hx
    have hexec' := @ConstantOp.exec M loaded { inst with opcode := f.evaluation } q f hM hq (.inr rfl)
      hsel hoperand
    refine ⟨_, hexec', ?_⟩
    rw [Impl.write_get_or_zero, if_pos rfl]
    exact congrArg (f.onAll q.toNat inst.imm) hloaded

end Simulator

/-- Two coefficients at `%1`. -/
def twoCoefficients : Impl where
  ring_dim := 2
  trace := { modulus_table := [17] }
  memory := Memory.empty.commit_dest 1 [3, 5] 17

/-- `sr_addps_coeff %2, %1, imm`. -/
def addCoefficient (imm : UInt64) : Instruction where
  opcode := .FH_SR_ADDPS_COEFF
  dest := 2
  src1 := 1
  immediate := some imm
  modulus := some 0

/-- The modulus itself may be added. -/
theorem constant_instruction_iff_modulus :
    ConstantOp.add.TouchesConstant referenceMath twoCoefficients (addCoefficient 17) 17 :=
  (constant_instruction_iff referenceMath_exact .add twoCoefficients (addCoefficient 17) rfl rfl
    (by decide) ⟨rfl, by decide⟩).mpr (.inr (Nat.dvd_refl 17))

/-- And 1 may not: it is added to both coefficients. -/
theorem constant_added_everywhere :
    ¬ ConstantOp.add.TouchesConstant referenceMath twoCoefficients (addCoefficient 1) 17 := by
  rintro ⟨s', hexec, hconstant, -⟩
  have hresult : (exec_instruction referenceMath twoCoefficients (addCoefficient 1)).map
      (fun r => r.1.get_or_zero 2) = some [4, 6] := by decide
  rw [hexec, Option.map_some] at hresult
  have hsum : [4, 5] = [4, 6] := hconstant.symm.trans (Option.some.inj hresult)
  exact absurd hsum (by decide)

end Fhetch
