/-
What recorded arithmetic computes.

The calls of a session that do integer arithmetic are single-assignment code: each
writes the address of a new result. One coefficient of a result is a function of
that coefficient of the operands, so the meaning of a recording is the equations of
its calls, for each coefficient apart. This module says what a call means, and that
the simulator, given the instructions that the writer recorded, ends in a memory
whose coefficients are those.

An instruction holds 32 bits of an address and of an index; a session within them is
what the results here are about.
-/
import Fhetch.RecordedSession
import Fhetch.Simulator
import Fhetch.Lib.SingleAssignment

set_option autoImplicit false

namespace Fhetch

open SingleAssignment

/-! ## Meaning -/

/-- A coefficient of a sum, a difference or a product. -/
def ppValue (op : FhOpcode) (q x y : ℕ) : ℕ :=
  match op with
  | .FH_SR_ADDP => (x + y) % q
  | .FH_SR_SUBP => (x + (q - y % q)) % q
  | _ => x * y % q

/-- The same with a scalar. Adding 0 is a copy. -/
def psValue (op : FhOpcode) (q x imm : ℕ) : ℕ :=
  match op with
  | .FH_SR_ADDPS => if imm = 0 then x else (x + imm) % q
  | .FH_SR_SUBPS => (x + (q - imm % q)) % q
  | _ => x * imm % q

def negValue (q x : ℕ) : ℕ := if x = 0 then 0 else sub64 q x

/-- Adding a word to a reduced value reduces, 0 or not. -/
theorem psValue_addps {q x imm : ℕ} (hx : x < q) : psValue .FH_SR_ADDPS q x imm = (x + imm) % q := by
  unfold psValue
  dsimp only
  split
  · rename_i himm
    rw [himm, Nat.add_zero, Nat.mod_eq_of_lt hx]
  · rfl

namespace ApiOp

/-- The calls that are integer arithmetic under a modulus. -/
def Arithmetic : ApiOp → Prop
  | pp op _ _ _ _ q => (op = .FH_SR_ADDP ∨ op = .FH_SR_SUBP ∨ op = .FH_SR_MULP) ∧ q ≠ 0
  | ps op _ _ _ _ q => (op = .FH_SR_ADDPS ∨ op = .FH_SR_SUBPS ∨ op = .FH_SR_MULPS) ∧ q ≠ 0
  | un op _ _ _ q => op = .FH_SR_NEGP ∧ q ≠ 0
  | _ => False

/-- The address that an arithmetic call writes. -/
def dest : ApiOp → ℕ
  | pp _ _ d _ _ _ => d
  | ps _ _ d _ _ _ => d
  | un _ _ d _ _ => d
  | _ => 0

/-- The addresses it reads. -/
def reads : ApiOp → List ℕ
  | pp _ _ _ a b _ => [a, b]
  | ps _ _ _ a _ _ => [a]
  | un _ _ _ a _ => [a]
  | _ => []

/-- One coefficient of what it writes. -/
def value : ApiOp → (ℕ → ℕ) → ℕ
  | pp op _ _ a b q, m => ppValue op q.toNat (m a) (m b)
  | ps op _ _ a imm q, m => psValue op q.toNat (m a) imm.toNat
  | un _ _ _ a q, m => negValue q.toNat (m a)
  | _, _ => 0

/-- The instruction of an arithmetic call, but for its index. -/
def content : ApiOp → Instruction
  | pp op _ d a b _ => { ir op d a with src2 := UInt32.ofNat b }
  | ps op _ d a imm _ => { ir op d a with immediate := some imm }
  | un op _ d a _ => ir op d a
  | _ => {}

def modulus : ApiOp → UInt64
  | pp _ _ _ _ _ q => q
  | ps _ _ _ _ _ q => q
  | un _ _ _ _ q => q
  | _ => 0

/-- Recorded arithmetic as single-assignment code over one coefficient. -/
def code : Code ApiOp ℕ where
  dest := dest
  reads := reads
  rhs := value
  rhs_congr := by
    intro op m m' h
    cases op with
    | pp op form d a b q =>
      rw [value, value, h a (by simp [reads]), h b (by simp [reads])]
    | ps op form d a imm q => rw [value, value, h a (by simp [reads])]
    | un op form d a q => rw [value, value, h a (by simp [reads])]
    | ntt | sr_automorph_eval | sr_automorph_coeff | sr_rot_automorph_coeff | halt | tag_output
    | pause | resume => rfl

variable {op : ApiOp}

theorem record_arithmetic (h : op.Arithmetic) : op.record = emit_mod op.content op.modulus := by
  cases op with
  | pp | ps | un => rfl
  | ntt | sr_automorph_eval | sr_automorph_coeff | sr_rot_automorph_coeff | halt | tag_output
  | pause | resume => exact h.elim

/-- An instruction is a call's, under a table that its index goes into. -/
structure RecordedAs (table : List UInt64) (op : ApiOp) (inst : Instruction) : Prop where
  selects : inst.selects table = some op.modulus
  frame : inst = { op.content with modulus := inst.modulus }

theorem RecordedAs.grow {table table' : List UInt64} {inst : Instruction}
    (h : RecordedAs table op inst) (hpre : table <+: table') : RecordedAs table' op inst :=
  ⟨Instruction.selects_of_prefix hpre h.selects, h.frame⟩

/-- It still is when the table has been normalized. -/
theorem RecordedAs.normalize {tw : TraceWriter} {inst : Instruction} (hc : tw.Consistent)
    (hsize : tw.modulus_table_.length ≤ 2 ^ 32) (h : RecordedAs tw.modulus_table_ op inst) :
    RecordedAs (normalized tw.modulus_table_) op
      (TraceWriter.remap_instruction tw.modulus_table_ inst) := by
  refine ⟨TraceWriter.selects_remap_instruction hc hsize h.selects, ?_⟩
  have hframe := TraceWriter.remap_instruction_frame tw.modulus_table_ inst
  have hcontent := h.frame
  generalize (TraceWriter.remap_instruction tw.modulus_table_ inst).modulus = m at hframe ⊢
  rw [hframe, hcontent]

end ApiOp

/-! ## Recording -/

section Recording

variable {tw : TraceWriter}

/-- What is recorded for one arithmetic call. -/
theorem ApiOp.record_appends {op : ApiOp} (hop : op.Arithmetic) (hc : tw.Consistent)
    (hkeeps : tw.keeps = true) :
    (op.record tw).Consistent ∧ (op.record tw).keeps = true ∧
      tw.modulus_table_ <+: (op.record tw).modulus_table_ ∧
      ∃ inst, (op.record tw).instructions_ = tw.instructions_ ++ [inst] ∧
        ((op.record tw).modulus_table_.length ≤ 2 ^ 32 →
          op.RecordedAs (op.record tw).modulus_table_ inst) := by
  rw [ApiOp.record_arithmetic hop]
  obtain ⟨-, htable⟩ := TraceWriter.register_modulus_eq hc op.modulus
  have hconsistent := TraceWriter.register_modulus_consistent hc op.modulus
  have hframe := TraceWriter.register_modulus_frame tw op.modulus
  have hkeeps' : (tw.register_modulus op.modulus).2.keeps = true := by
    rw [hframe]
    exact hkeeps
  have hinstructions : (tw.register_modulus op.modulus).2.instructions_ = tw.instructions_ := by
    rw [hframe]
  -- the modulus is registered first, then the instruction is appended
  have hemit : emit_mod op.content op.modulus tw =
      { (tw.register_modulus op.modulus).2 with
        instructions_ := (tw.register_modulus op.modulus).2.instructions_ ++
          [{ op.content with modulus := some (tw.register_modulus op.modulus).1.toUInt64 }] } := by
    show (tw.register_modulus op.modulus).2.emit _ = _
    rw [TraceWriter.emit_eq, if_pos hkeeps']
    rfl
  rw [hemit, hinstructions]
  refine ⟨⟨hconsistent.head, hconsistent.nodup, hconsistent.lookup⟩, hkeeps', ?_, _, rfl, ?_⟩
  · show tw.modulus_table_ <+: (tw.register_modulus op.modulus).2.modulus_table_
    rw [htable]
    exact prefix_intern _ _
  · intro hsize
    refine ⟨?_, rfl⟩
    show Instruction.selects (tw.register_modulus op.modulus).2.modulus_table_ _ = _
    have hliteral : op.content.modulus_is_literal = false := by
      cases op <;> rfl
    rw [htable] at hsize ⊢
    rw [Instruction.selects]
    simp only [hliteral, Bool.false_eq_true, if_false]
    exact TraceWriter.register_modulus_selects hc op.modulus hsize

/-- **What is recorded for a sequence of them.** -/
theorem record_calls {ops : List ApiOp} (hops : ∀ op ∈ ops, op.Arithmetic) (hc : tw.Consistent)
    (hkeeps : tw.keeps = true) :
    (ops.foldl (fun tw op => op.record tw) tw).Consistent ∧
      (ops.foldl (fun tw op => op.record tw) tw).keeps = true ∧
      tw.modulus_table_ <+: (ops.foldl (fun tw op => op.record tw) tw).modulus_table_ ∧
      ∃ insts, (ops.foldl (fun tw op => op.record tw) tw).instructions_ = tw.instructions_ ++ insts ∧
        ((ops.foldl (fun tw op => op.record tw) tw).modulus_table_.length ≤ 2 ^ 32 →
          List.Forall₂ (ApiOp.RecordedAs (ops.foldl (fun tw op => op.record tw) tw).modulus_table_)
            ops insts) := by
  induction ops generalizing tw with
  | nil => exact ⟨hc, hkeeps, List.prefix_rfl, [], (List.append_nil _).symm, fun _ => .nil⟩
  | cons op ops ih =>
    obtain ⟨hop, hrest⟩ := List.forall_mem_cons.mp hops
    obtain ⟨hc', hkeeps', hpre, inst, hinst, hrec⟩ := op.record_appends hop hc hkeeps
    obtain ⟨hc'', hkeeps'', hpre', insts, hinsts, hrecs⟩ := ih hrest hc' hkeeps'
    refine ⟨hc'', hkeeps'', hpre.trans hpre', inst :: insts, ?_, fun hsize => ?_⟩
    · rw [List.foldl_cons, hinsts, hinst, List.append_assoc, List.singleton_append]
    · exact .cons ((hrec (hpre'.length_le.trans hsize)).grow hpre') (hrecs hsize)

end Recording

/-! ## Replaying -/

namespace Impl

variable {s : Impl} {inst : Instruction} {q : UInt64}

/-- Every buffer has the length of the ring dimension, as the stores leave them. -/
def Sized (s : Impl) : Prop := ∀ a, (s.get_or_zero a).length = s.ring_dim

/-- Coefficient `j` of what is at each address. -/
def coefficient (s : Impl) (j a : ℕ) : ℕ := (s.get_or_zero a).getD j 0

theorem write_get_or_zero (s : Impl) (d : ℕ) (v : Poly) (q a : ℕ) :
    (s.write d v q).get_or_zero a = if a = d then v else s.get_or_zero a := by
  unfold get_or_zero Memory.is_initialized Memory.get write
  by_cases had : a = d
  · subst had
    simp only [Memory.commit_dest_self, Option.getD_some, if_true]
  · simp only [Memory.commit_dest_of_ne _ _ _ had, if_neg had]

theorem Sized.write (hs : s.Sized) {v : Poly} (hv : v.length = s.ring_dim) (d q : ℕ) :
    (s.write d v q).Sized := by
  intro a
  rw [write_get_or_zero]
  split
  · exact hv
  · exact hs a

theorem write_initialized (s : Impl) (d : ℕ) (v : Poly) (q a : ℕ) :
    (s.write d v q).memory.is_initialized a = true ↔ a = d ∨ s.memory.is_initialized a = true := by
  unfold Memory.is_initialized Memory.get write
  by_cases had : a = d
  · subst had
    simp only [Memory.commit_dest_self, Option.getD_some, true_or]
  · simp only [Memory.commit_dest_of_ne _ _ _ had, had, false_or]

theorem coefficient_write (s : Impl) (d : ℕ) (v : Poly) (q j : ℕ) :
    (s.write d v q).coefficient j = Function.update (s.coefficient j) d (v.getD j 0) := by
  funext a
  rw [coefficient, write_get_or_zero, Function.update_apply]
  split
  · rfl
  · rfl

theorem resolve_of_selects (h : inst.selects s.trace.modulus_table = some q) :
    s.resolve_modulus inst = (s, q.toNat) := by
  unfold Instruction.selects at h
  unfold resolve_modulus
  rcases hm : inst.modulus with - | m
  · simp only [hm] at h
    exact absurd h (by simp)
  · simp only [hm] at h ⊢
    split at h
    · rename_i hliteral
      rw [if_pos hliteral, Option.some.inj h]
    · rename_i hliteral
      rw [if_neg hliteral, h]

end Impl

section Replaying

variable {M : NativeMath} {s : Impl} {inst : Instruction} {q : UInt64}

theorem exec_pp_of (hs : s.Sized) (hq : inst.selects s.trace.modulus_table = some q)
    {kernel : ℕ → Poly → Poly → Option Poly} {f : ℕ → ℕ → ℕ}
    (hf : ∀ a b, a.length = b.length → kernel q.toNat a b = some (List.zipWith f a b)) :
    exec_pp kernel s inst = some (s.write inst.dest.toNat
      (List.zipWith f (s.get_or_zero inst.src1.toNat) (s.get_or_zero inst.src2.toNat)) q.toNat,
        true) := by
  rw [exec_pp_eq, if_neg (not_or.mpr ⟨not_not.mpr (hs _), not_not.mpr (hs _)⟩),
    Impl.resolve_of_selects hq]
  rw [hf _ _ ((hs _).trans (hs _).symm), Option.map_some]

/-- A kernel that maps its operand, which is all that has to have the right length. -/
theorem exec_src1_map (ha : (s.get_or_zero inst.src1.toNat).length = s.ring_dim)
    (hq : inst.selects s.trace.modulus_table = some q)
    {kernel : Impl → ℕ → Poly → Poly → Option (Impl × Option Poly)} {f : ℕ → ℕ}
    (hf : ∀ out, kernel s q.toNat (s.get_or_zero inst.src1.toNat) out =
      some (s, some ((s.get_or_zero inst.src1.toNat).map f))) :
    exec_src1 kernel s inst = some (s.write inst.dest.toNat
      ((s.get_or_zero inst.src1.toNat).map f) q.toNat, true) := by
  rw [exec_src1_eq, if_neg (not_not.mpr ha), Impl.resolve_of_selects hq, hf, Option.map_some]

theorem exec_src1_of (hs : s.Sized) (hq : inst.selects s.trace.modulus_table = some q)
    {kernel : Impl → ℕ → Poly → Poly → Option (Impl × Option Poly)} {f : ℕ → ℕ}
    (hf : ∀ a out, kernel s q.toNat a out = some (s, some (a.map f))) :
    exec_src1 kernel s inst = some (s.write inst.dest.toNat
      ((s.get_or_zero inst.src1.toNat).map f) q.toNat, true) :=
  exec_src1_map (hs _) hq fun out => hf _ out

theorem getD_map_of_lt {v : Poly} {f : ℕ → ℕ} {j : ℕ} (hj : j < v.length) :
    (v.map f).getD j 0 = f (v.getD j 0) := by
  rw [List.getD_eq_getElem _ _ (by rwa [List.length_map]), List.getD_eq_getElem _ _ hj,
    List.getElem_map]

theorem getD_zipWith_of_lt {v w : Poly} {f : ℕ → ℕ → ℕ} {j : ℕ} (hv : j < v.length)
    (hw : j < w.length) : (List.zipWith f v w).getD j 0 = f (v.getD j 0) (w.getD j 0) := by
  rw [List.getD_eq_getElem _ _ (by rw [List.length_zipWith]; omega), List.getD_eq_getElem _ _ hv,
    List.getD_eq_getElem _ _ hw, List.getElem_zipWith]

/-- The addresses of a call are ones an instruction can hold. -/
def ApiOp.Fits (op : ApiOp) : Prop := op.dest < 2 ^ 32 ∧ ∀ a ∈ op.reads, a < 2 ^ 32

/-- What one instruction of arithmetic does. -/
structure Writes (s : Impl) (r : Option (Impl × Bool)) (d : ℕ) (value : (ℕ → ℕ) → ℕ) : Prop where
  write : ∃ v q, r = some (s.write d v q, true) ∧ v.length = s.ring_dim ∧
    ∀ j < s.ring_dim, v.getD j 0 = value (s.coefficient j)

theorem writes_pp (hs : s.Sized) {a b d : ℕ} {r : Option (Impl × Bool)} {f : ℕ → ℕ → ℕ} (q : ℕ)
    (hr : r = some (s.write d (List.zipWith f (s.get_or_zero a) (s.get_or_zero b)) q, true)) :
    Writes s r d fun m => f (m a) (m b) := by
  refine ⟨_, _, hr, ?_, fun j hj => ?_⟩
  · rw [List.length_zipWith, hs a, hs b, Nat.min_self]
  · exact getD_zipWith_of_lt (by rw [hs a]; exact hj) (by rw [hs b]; exact hj)

theorem writes_src1 (hs : s.Sized) {a d : ℕ} {r : Option (Impl × Bool)} {f : ℕ → ℕ} (q : ℕ)
    (hr : r = some (s.write d ((s.get_or_zero a).map f) q, true)) :
    Writes s r d fun m => f (m a) := by
  refine ⟨_, _, hr, ?_, fun j hj => ?_⟩
  · rw [List.length_map, hs a]
  · exact getD_map_of_lt (by rw [hs a]; exact hj)

theorem exec_pp_arithmetic (hM : M.Exact) (hs : s.Sized) {op : FhOpcode} {form : fh_operand_form op = .PolyPoly}
    {d a b : ℕ} (hop : (ApiOp.pp op form d a b q).Arithmetic) (hfits : (ApiOp.pp op form d a b q).Fits)
    (hrec : (ApiOp.pp op form d a b q).RecordedAs s.trace.modulus_table inst) :
    Writes s (exec_instruction M s inst) d fun m => ppValue op q.toNat (m a) (m b) := by
  obtain ⟨hkind, hq⟩ := hop
  have hpos : 0 < q.toNat := Nat.pos_of_ne_zero fun h => hq (UInt64.toNat_inj.mp h)
  have hsel : inst.selects s.trace.modulus_table = some q := hrec.selects
  have hopcode : inst.opcode = op := by rw [hrec.frame]; rfl
  -- addresses of 32 bits come back as they were
  have hdest : inst.dest.toNat = d := by
    rw [hrec.frame]
    exact UInt32.toNat_ofNat_of_lt' hfits.1
  have hsrc1 : inst.src1.toNat = a := by
    rw [hrec.frame]
    exact UInt32.toNat_ofNat_of_lt' (hfits.2 a (by simp [ApiOp.reads]))
  have hsrc2 : inst.src2.toNat = b := by
    rw [hrec.frame]
    exact UInt32.toNat_ofNat_of_lt' (hfits.2 b (by simp [ApiOp.reads]))
  rw [← hsrc1, ← hsrc2, ← hdest]
  unfold exec_instruction
  rw [hopcode]
  rcases hkind with rfl | rfl | rfl
  · exact writes_pp hs _ (exec_pp_of hs hsel fun a b => hM.ModAdd _ a b hpos)
  · exact writes_pp hs _ (exec_pp_of hs hsel fun a b => hM.ModSub _ a b hpos)
  · exact writes_pp hs _ (exec_pp_of hs hsel fun a b => hM.ModMul _ a b hpos)

theorem exec_ps_arithmetic (hM : M.Exact) (hs : s.Sized) {op : FhOpcode}
    {form : fh_operand_form op = .PolyScalar} {d a : ℕ} {imm : UInt64}
    (hop : (ApiOp.ps op form d a imm q).Arithmetic) (hfits : (ApiOp.ps op form d a imm q).Fits)
    (hrec : (ApiOp.ps op form d a imm q).RecordedAs s.trace.modulus_table inst) :
    Writes s (exec_instruction M s inst) d fun m => psValue op q.toNat (m a) imm.toNat := by
  obtain ⟨hkind, hq⟩ := hop
  have hpos : 0 < q.toNat := Nat.pos_of_ne_zero fun h => hq (UInt64.toNat_inj.mp h)
  have hsel : inst.selects s.trace.modulus_table = some q := hrec.selects
  have hopcode : inst.opcode = op := by rw [hrec.frame]; rfl
  have himm : inst.imm = imm.toNat := by rw [hrec.frame]; rfl
  have hdest : inst.dest.toNat = d := by
    rw [hrec.frame]
    exact UInt32.toNat_ofNat_of_lt' hfits.1
  have hsrc1 : inst.src1.toNat = a := by
    rw [hrec.frame]
    exact UInt32.toNat_ofNat_of_lt' (hfits.2 a (by simp [ApiOp.reads]))
  rw [← hsrc1, ← hdest, ← himm]
  unfold exec_instruction
  rw [hopcode]
  rcases hkind with rfl | rfl | rfl
  · refine writes_src1 (f := fun x => psValue .FH_SR_ADDPS q.toNat x inst.imm) hs q.toNat
      (exec_src1_of hs hsel ?_)
    intro v out
    -- adding zero is skipped: the source is copied
    by_cases hzero : inst.imm = 0
    · simp only [psValue, hzero, if_true, List.map_id']
    · simp only [psValue, hzero, if_false, hM.ModAddEq _ v _ hpos, Option.map_some]
  · refine writes_src1 (f := fun x => psValue .FH_SR_SUBPS q.toNat x inst.imm) hs q.toNat
      (exec_src1_of hs hsel ?_)
    intro v out
    simp only [psValue, hM.ModSubEq _ v _ hpos, Option.map_some]
  · show Writes s (exec_mulps M s inst) _ _
    unfold exec_mulps
    by_cases hzero : inst.imm = 0
    · -- zeros, without a look at the source
      rw [if_pos hzero, Impl.resolve_of_selects hsel]
      refine ⟨_, _, rfl, List.length_replicate, fun j hj => ?_⟩
      have hproduct : ∀ x, psValue .FH_SR_MULPS q.toNat x 0 = 0 := fun x => Nat.zero_mod _
      rw [hzero, hproduct, List.getD_replicate _ hj]
    · rw [if_neg hzero]
      refine writes_src1 (f := fun x => psValue .FH_SR_MULPS q.toNat x inst.imm) hs q.toNat
        (exec_src1_of hs hsel ?_)
      intro v out
      simp only [psValue, hM.ModMulEq _ v _ hpos, Option.map_some]

theorem exec_un_arithmetic (hs : s.Sized) {op : FhOpcode} {form : fh_operand_form op = .UnaryMod}
    {d a : ℕ} (hop : (ApiOp.un op form d a q).Arithmetic) (hfits : (ApiOp.un op form d a q).Fits)
    (hrec : (ApiOp.un op form d a q).RecordedAs s.trace.modulus_table inst) :
    Writes s (exec_instruction M s inst) d fun m => negValue q.toNat (m a) := by
  obtain ⟨rfl, -⟩ := hop
  have hsel : inst.selects s.trace.modulus_table = some q := hrec.selects
  have hopcode : inst.opcode = .FH_SR_NEGP := by rw [hrec.frame]; rfl
  have hdest : inst.dest.toNat = d := by
    rw [hrec.frame]
    exact UInt32.toNat_ofNat_of_lt' hfits.1
  have hsrc1 : inst.src1.toNat = a := by
    rw [hrec.frame]
    exact UInt32.toNat_ofNat_of_lt' (hfits.2 a (by simp [ApiOp.reads]))
  rw [← hsrc1, ← hdest]
  unfold exec_instruction
  rw [hopcode]
  exact writes_src1 hs q.toNat (exec_src1_of hs hsel fun _ _ => rfl)

/-- **One call.** -/
theorem exec_arithmetic (hM : M.Exact) (hs : s.Sized) {op : ApiOp} (hop : op.Arithmetic)
    (hfits : op.Fits) (hrec : op.RecordedAs s.trace.modulus_table inst) :
    Writes s (exec_instruction M s inst) op.dest op.value := by
  cases op with
  | pp op form d a b q => exact exec_pp_arithmetic hM hs hop hfits hrec
  | ps op form d a imm q => exact exec_ps_arithmetic hM hs hop hfits hrec
  | un op form d a q => exact exec_un_arithmetic hs hop hfits hrec
  | ntt | sr_automorph_eval | sr_automorph_coeff | sr_rot_automorph_coeff | halt | tag_output
  | pause | resume => exact hop.elim

/-- **A sequence of calls**: the run counts no error, what the code writes holds a
value, and each coefficient of the memory at the end is what the code makes of that
coefficient. -/
theorem replay_calls (hM : M.Exact) {ops : List ApiOp} {insts : List Instruction} (hs : s.Sized)
    (hops : ∀ op ∈ ops, op.Arithmetic) (hfits : ∀ op ∈ ops, op.Fits)
    {table : List UInt64} (htable : s.trace.modulus_table = table)
    (hrec : List.Forall₂ (ApiOp.RecordedAs table) ops insts) (i k : ℕ) :
    ∃ s', execute_loop M [] insts i s k = some (s', k + insts.length) ∧
      s'.error_count = s.error_count ∧ s'.toSetup = s.toSetup ∧ s'.Sized ∧
      (∀ a, a ∈ ops.map ApiOp.dest ∨ s.memory.is_initialized a = true →
        s'.memory.is_initialized a = true) ∧
      ∀ j < s.ring_dim, s'.coefficient j = ApiOp.code.eval (s.coefficient j) ops := by
  induction hrec generalizing s i k with
  | nil => exact ⟨s, rfl, rfl, rfl, hs, fun _ ha => ha.resolve_left List.not_mem_nil, fun _ _ => rfl⟩
  | @cons op inst ops insts hinst hrest ih =>
    obtain ⟨hop, hops⟩ := List.forall_mem_cons.mp hops
    obtain ⟨hfit, hfits⟩ := List.forall_mem_cons.mp hfits
    subst htable
    -- one call writes its destination, and the rest starts from there
    obtain ⟨v, q, hexec, hlen, hvalue⟩ := (exec_arithmetic hM hs hop hfit hinst).write
    obtain ⟨s', hrun, herror, hsetup, hsized, hinit, hcoefficient⟩ :=
      ih (s := s.write op.dest v q) (hs.write hlen _ _) hops hfits rfl (i + 1) (k + 1)
    refine ⟨s', ?_, herror, hsetup, hsized, fun a ha => ?_, fun j hj => ?_⟩
    · rw [execute_loop, hexec, List.length_cons]
      rw [show k + (insts.length + 1) = k + 1 + insts.length by omega]
      exact hrun
    · apply hinit
      rw [Impl.write_initialized]
      rw [List.map_cons, List.mem_cons] at ha
      tauto
    · rw [hcoefficient j hj, Impl.coefficient_write, hvalue j hj]
      rfl

theorem execute_loop_append (insts insts' : List Instruction) :
    ∀ (i : ℕ) (s : Impl) (k : ℕ), execute_loop M [] (insts ++ insts') i s k =
      (execute_loop M [] insts i s k).bind fun r =>
        execute_loop M [] insts' (i + insts.length) r.1 r.2 := by
  induction insts with
  | nil => exact fun i s k => rfl
  | cons inst insts ih =>
    intro i s k
    rw [List.cons_append, execute_loop, execute_loop, Option.bind_assoc]
    congr 1
    funext ⟨s₁, ok⟩
    dsimp only
    rw [ih, List.length_cons, show i + (insts.length + 1) = i + 1 + insts.length by omega]

end Replaying

end Fhetch
