/-
What of exact arithmetic the library promises (`src/fhetch_sim/simulator.cpp`).

`NativeMath.Exact` asks for exact results on whatever a kernel is handed. The library
promises them of residues under moduli of at most 60 bits. The two come apart only where
a trace reads a vector under another modulus than it was written under, or asks for more
bits. This file says of a trace that it does not, by the moduli of its addresses alone,
and settles that the library then leaves what exact arithmetic leaves.

What carries it is that an address is known to hold residues of the modulus it was last
written under. An instruction that reads it under that modulus is within the promise, and
leaves residues of it.
-/
import Fhetch.RingMeaning

set_option autoImplicit false

namespace Fhetch

open Renaming

/-! ## The promise -/

/-- The 60-bit limit of a `NativeInteger`. -/
def native_limit : ℕ := 2 ^ 60

/-- **The documented arithmetic within its range**: exact results for residues, with a
residue for a constant, under a positive modulus that is not too wide. -/
structure NativeMath.ExactOnResidues (M : NativeMath) : Prop where
  ModAdd : ∀ {N q u v}, 0 < q → q < native_limit → Residues N q u → Residues N q v →
    M.ModAdd q u v = some (List.zipWith (fun x y => (x + y) % q) u v)
  ModSub : ∀ {N q u v}, 0 < q → q < native_limit → Residues N q u → Residues N q v →
    M.ModSub q u v = some (List.zipWith (fun x y => (x + (q - y % q)) % q) u v)
  ModMul : ∀ {N q u v}, 0 < q → q < native_limit → Residues N q u → Residues N q v →
    M.ModMul q u v = some (List.zipWith (fun x y => x * y % q) u v)
  ModAddEq : ∀ {N q u c}, q < native_limit → Residues N q u → c < q →
    M.ModAddEq q u c = some (u.map fun x => (x + c) % q)
  ModSubEq : ∀ {N q u c}, q < native_limit → Residues N q u → c < q →
    M.ModSubEq q u c = some (u.map fun x => (x + (q - c % q)) % q)
  ModMulEq : ∀ {N q u c}, q < native_limit → Residues N q u → c < q →
    M.ModMulEq q u c = some (u.map fun x => x * c % q)

/-- The library, with exact results also where it promises none. Its transforms, and what
their tables are made of, stay its own. -/
def NativeMath.idealized (M : NativeMath) : NativeMath :=
  { M with
    ModAdd := referenceMath.ModAdd
    ModSub := referenceMath.ModSub
    ModMul := referenceMath.ModMul
    ModAddEq := referenceMath.ModAddEq
    ModSubEq := referenceMath.ModSubEq
    ModMulEq := referenceMath.ModMulEq }

section Promise

variable {M : NativeMath} {n q : ℕ} {inst : Instruction} {u v : Poly}

theorem NativeMath.idealized_exact (M : NativeMath) : M.idealized.Exact :=
  { referenceMath_exact with }

theorem NativeMath.MeetsNames.idealized (h : M.MeetsNames) : M.idealized.MeetsNames := { h with }

theorem NativeMath.Transforms.idealized (h : M.Transforms) : M.idealized.Transforms := { h with }

/-- Within the range the kernels with two sources give what the exact ones do. -/
theorem binary_result_idealized (hM : M.ExactOnResidues) (hq : 0 < q) (hlimit : q < native_limit)
    (hu : Residues (2 ^ n) q u) (hv : Residues (2 ^ n) q v) :
    binary_result M q inst u v = binary_result M.idealized q inst u v := by
  have hsame := hu.length.trans hv.length.symm
  unfold binary_result
  split
  · exact (hM.ModAdd hq hlimit hu hv).trans (M.idealized_exact.ModAdd q u v hq hsame).symm
  · exact (hM.ModSub hq hlimit hu hv).trans (M.idealized_exact.ModSub q u v hq hsame).symm
  · exact (hM.ModMul hq hlimit hu hv).trans (M.idealized_exact.ModMul q u v hq hsame).symm
  · rfl

/-- And so do those with one. -/
theorem unary_result_idealized (hM : M.ExactOnResidues) (hq : 0 < q) (hlimit : q < native_limit)
    (himm : fh_operand_form inst.opcode = .PolyScalar → inst.imm < q) (hu : Residues (2 ^ n) q u) :
    unary_result M (2 ^ n) q inst u = unary_result M.idealized (2 ^ n) q inst u := by
  unfold unary_result
  cases hop : inst.opcode with
  | FH_SR_ADDPS | FH_SR_ADDPS_COEFF =>
    have hc := himm (by rw [hop]; rfl)
    dsimp only
    split
    · rfl
    · exact (hM.ModAddEq hlimit hu hc).trans (M.idealized_exact.ModAddEq q u _ hq).symm
  | FH_SR_SUBPS | FH_SR_SUBPS_COEFF =>
    have hc := himm (by rw [hop]; rfl)
    exact (hM.ModSubEq hlimit hu hc).trans (M.idealized_exact.ModSubEq q u _ hq).symm
  | FH_SR_MULPS =>
    have hc := himm (by rw [hop]; rfl)
    exact (hM.ModMulEq hlimit hu hc).trans (M.idealized_exact.ModMulEq q u _ hq).symm
  | _ => rfl

/-- **An instruction within the range.** -/
theorem result_idealized (hM : M.ExactOnResidues) (hq : 0 < q) (hlimit : q < native_limit)
    (himm : fh_operand_form inst.opcode = .PolyScalar → inst.imm < q) {operands : List Poly}
    (hall : ∀ u ∈ operands, Residues (2 ^ n) q u) :
    inst.result M (2 ^ n) q operands = inst.result M.idealized (2 ^ n) q operands := by
  rcases operands with - | ⟨u, - | ⟨v, - | ⟨w, rest⟩⟩⟩
  · rfl
  · simp only [Instruction.result, unary_result_idealized hM hq hlimit himm (hall u (by simp))]
  · simp only [Instruction.result, binary_result_idealized hM hq hlimit (hall u (by simp)) (hall v (by simp))]
  · rfl

end Promise

/-! ## Lines -/

/-- For an address, the modulus that it holds residues of, where that is known. -/
abbrev Moduli : Type := ℕ → Option ℕ

/-- An instruction that leaves what its source holds, in another order or as it is. Its own
modulus says nothing of that. -/
def Instruction.Copies (inst : Instruction) : Prop :=
  inst.opcode = .FH_SR_AUTOMORPH_EVAL ∨
    (inst.opcode = .FH_SR_ADDPS ∨ inst.opcode = .FH_SR_ADDPS_COEFF) ∧ inst.imm = 0

instance (inst : Instruction) : Decidable inst.Copies := inferInstanceAs (Decidable (_ ∨ _ ∧ _))

/-- The modulus that a line leaves residues of. -/
def Moduli.under (moduli : Moduli) (l : Line Kernel ℕ) : Option ℕ :=
  if l.op.1.Copies then l.reads.head?.bind moduli else some l.op.2

/-- What is known of the moduli behind a line. -/
def Moduli.step (moduli : Moduli) (l : Line Kernel ℕ) : Moduli :=
  Function.update moduli l.dest (moduli.under l)

/-- A line that asks the library for no more than it promises, under `q`: each address
that it reads holds residues of that. -/
structure Moduli.WithinAt (moduli : Moduli) (l : Line Kernel ℕ) (q : ℕ) : Prop where
  pos : 0 < q
  limit : q < native_limit
  imm : fh_operand_form l.op.1.opcode = .PolyScalar → l.op.1.imm < q
  reads : ∀ a ∈ l.reads, moduli a = some q

def Moduli.Within (moduli : Moduli) (l : Line Kernel ℕ) : Prop := ∃ q ∈ moduli.under l, moduli.WithinAt l q

/-- What is known of the moduli is true of the memory. -/
def Moduli.Hold (moduli : Moduli) (N : ℕ) (m : ℕ → Poly) : Prop :=
  ∀ a q, moduli a = some q → Residues N q (m a)

section Lines

variable {M : NativeMath} {n : ℕ} {moduli : Moduli} {m m' : ℕ → Poly} {l : Line Kernel ℕ}

theorem Moduli.Hold.operands {q : ℕ} (h : moduli.Hold (2 ^ n) m) (hl : moduli.WithinAt l q) :
    ∀ u ∈ l.reads.map m, Residues (2 ^ n) q u := by
  intro u hu
  obtain ⟨a, ha, rfl⟩ := List.mem_map.mp hu
  exact h a q (hl.reads a ha)

/-- The result of a line is one under the modulus of what it leaves. -/
theorem kernel_result_under {q : ℕ} (hq : q ∈ moduli.under l) (operands : List Poly) :
    kernel_result M (2 ^ n) l.op operands = l.op.1.result M (2 ^ n) q operands := by
  unfold Moduli.under at hq
  split at hq
  · rename_i hcopies
    exact result_modless (hcopies.imp_right .inl)
  · rw [kernel_result, Option.mem_some.mp hq]

/-- A line of exact arithmetic keeps what is known. -/
theorem Moduli.Hold.step (hM : M.Exact) (hnames : M.MeetsNames) (htransforms : M.Transforms) (hn : n < 64)
    (h : moduli.Hold (2 ^ n) m) (hl : moduli.Within l) (hstep : l.step (kernel_result M (2 ^ n)) m = some m') :
    (moduli.step l).Hold (2 ^ n) m' := by
  obtain ⟨p, hp, hwithin⟩ := hl
  obtain ⟨v, hv, rfl⟩ := Option.map_eq_some_iff.mp hstep
  intro a q ha
  by_cases hdest : a = l.dest
  · subst hdest
    rw [Moduli.step, Function.update_self, hp] at ha
    obtain rfl := Option.some.inj ha
    rw [Function.update_self]
    rw [kernel_result_under hp] at hv
    have hfits : p < 2 ^ 64 := hwithin.limit.trans (by decide)
    exact residues_result hM hnames htransforms hn hwithin.pos hfits (h.operands hwithin) hv
  · rw [Moduli.step, Function.update_of_ne hdest] at ha
    rw [Function.update_of_ne hdest]
    exact h a q ha

/-- **A line within the range** leaves what it does in exact arithmetic. -/
theorem Moduli.Hold.step_idealized (hM : M.ExactOnResidues) (h : moduli.Hold (2 ^ n) m) (hl : moduli.Within l) :
    l.step (kernel_result M (2 ^ n)) m = l.step (kernel_result M.idealized (2 ^ n)) m := by
  obtain ⟨q, hq, hwithin⟩ := hl
  rw [Line.step, Line.step, kernel_result_under hq, kernel_result_under hq,
    result_idealized hM hwithin.pos hwithin.limit hwithin.imm (h.operands hwithin)]

/-- **Lines within the range** evaluate as in exact arithmetic. -/
theorem evaluate_idealized (hM : M.ExactOnResidues) (hnames : M.MeetsNames) (htransforms : M.Transforms)
    (hn : n < 64) (lines : List (Line Kernel ℕ)) : ∀ {moduli : Moduli} {m : ℕ → Poly}, moduli.Hold (2 ^ n) m →
      Runs.Along Moduli.step Moduli.Within moduli lines →
      evaluate (kernel_result M (2 ^ n)) m lines = evaluate (kernel_result M.idealized (2 ^ n)) m lines := by
  induction lines with
  | nil => exact fun _ _ => rfl
  | cons l lines ih =>
    rintro moduli m h ⟨hl, hlines⟩
    rw [evaluate_cons, evaluate_cons, h.step_idealized hM hl]
    rcases hstep : l.step (kernel_result M.idealized (2 ^ n)) m with - | m'
    · rfl
    · exact ih (h.step M.idealized_exact hnames.idealized htransforms.idealized hn hl hstep) hlines

/-- **A trace under one modulus** is within the range of what it reads, as long as its
constants are. -/
theorem along_within_one {q : ℕ} (hq : 0 < q) (hlimit : q < native_limit) (lines : List (Line Kernel ℕ))
    (hlines : ∀ l ∈ lines, (if l.op.1.Copies then l.reads ≠ [] else l.op.2 = q) ∧
      (fh_operand_form l.op.1.opcode = .PolyScalar → l.op.1.imm < q)) :
    Runs.Along Moduli.step Moduli.Within (fun _ => some q) lines := by
  induction lines with
  | nil => trivial
  | cons l lines ih =>
    obtain ⟨⟨hl, himm⟩, hrest⟩ := List.forall_mem_cons.mp hlines
    have hunder : Moduli.under (fun _ => some q) l = some q := by
      unfold Moduli.under
      split at hl
      · rw [if_pos ‹_›, List.head?_eq_some_head hl]
        rfl
      · rw [if_neg ‹_›, hl]
    refine ⟨⟨q, hunder, hq, hlimit, himm, fun _ _ => rfl⟩, ?_⟩
    rw [Moduli.step, hunder, Function.update_eq_self_iff.mpr rfl]
    exact ih hrest

/-- Two transforms, a product and the transform back. -/
example : Runs.Along Moduli.step Moduli.Within (fun _ => some 5)
    (trace_lines twoTransforms.trace.modulus_table twoTransforms.trace.instructions) :=
  along_within_one (by decide) (by decide) _ (by decide)

end Lines

/-! ## Runs -/

section Runs

variable {M : NativeMath} {n : ℕ} {moduli : Moduli}

/-- **A trace within the range is run as in exact arithmetic.** What the library reports
of a run without an error, with and without the schedule that frees what is not read again,
is what the same simulator over exact arithmetic reports. -/
theorem library_run_is_exact (hM : M.ExactOnResidues) (hnames : M.MeetsNames) (htransforms : M.Transforms)
    {s f : Simulator} {r : SimResult} (hn : n < 64) (hdim : s.ring_dim = 2 ^ n) (hcached : s.Cached M)
    (disabled : Bool) (hrun : run M (compute_liveness s disabled) = some (f, r)) (herrors : r.errors = 0)
    (hhold : moduli.Hold (2 ^ n) s.get_or_zero)
    (hrange : Runs.Along Moduli.step Moduli.Within moduli
      (trace_lines s.trace.modulus_table s.trace.instructions)) :
    ∃ f' r', run M.idealized (compute_liveness s true) = some (f', r') ∧ r'.errors = 0 ∧
      ∀ a ∈ s.live_out_, s.memory.is_initialized a = true ∨
          a ∈ (trace_lines s.trace.modulus_table s.trace.instructions).map Line.dest →
        get_polynomial f a = get_polynomial f' a := by
  obtain ⟨impl, k, hloop, hcount, hkeep⟩ := execute_loop_of_run hdim disabled hrun
  let start : Impl := { s.toImpl with error_count := 0 }
  have hstart : start.Cached M := hcached.congr rfl rfl
  have hnone : impl.error_count = start.error_count := hcount.symm.trans herrors
  have hlines := evaluate_of_execute_loop _ (s := start) hdim hstart hloop hnone
  -- the lines have the same outcome in exact arithmetic, so they run there
  have hsame := evaluate_idealized hM hnames htransforms hn _ (m := start.get_or_zero) hhold hrange
  replace hlines := hsame.symm.trans hlines
  have hselects : ∀ inst ∈ s.trace.instructions, (execUses inst).writes = true →
      (inst.selects s.trace.modulus_table).isSome := fun inst hinst hwrites => by
    obtain ⟨q, hq, -⟩ := results_of_execute_loop _ (s := start) hdim hstart hloop hnone inst hinst hwrites
    exact Option.isSome_iff_exists.mpr ⟨q, hq⟩
  obtain ⟨impl', hloop', hnone', hvalues, hinit⟩ :=
    execute_loop_of_evaluate (M := M.idealized) (i := 0) (k := 0) _ (s := start) hdim hstart hselects hlines
  have hN : (compute_liveness s true).ring_dim ≠ 0 :=
    ne_of_eq_of_ne hdim (Nat.two_pow_pos n).ne'
  let f' : Simulator := { compute_liveness s true with toImpl := impl' }
  refine ⟨f', ⟨0 + s.trace.instructions.length, impl'.error_count⟩, ?_, hnone', fun a hlive ha => ?_⟩
  · rw [run, if_neg hN, execute]
    exact congrArg (Option.map _) hloop'
  · have hread : get_polynomial f' a = impl'.get_or_zero a := get_polynomial_eq rfl (hinit a ha)
    rw [get_polynomial_eq (hkeep a hlive)
      (initialized_of_execute_loop _ (s := start) hdim hstart hloop hnone a ha), ← hvalues, hread]

end Runs

end Fhetch
