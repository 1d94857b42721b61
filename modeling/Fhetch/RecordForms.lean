/-
An instruction and its record.

A record has one `imm` field for four operands and one `aux` field for two. The
writer takes the first operand that is there, the reader asks the opcode's form
which operand it was. So the two agree on an instruction whose operands are those
of its form, and only on one: that is what `Instruction.Conforms` says, with each
optional operand there or not.
-/
import Fhetch.EncodingRoundTrip
import Fhetch.ReaderSpec
import Fhetch.Writer

set_option autoImplicit false

namespace Fhetch

/-! ## Conforming instructions -/

/-- Only the operands of the opcode's form are set. Which of the form's own are
there is left open, and a modulus may be an index, a literal or absent. -/
structure Instruction.Conforms (inst : Instruction) : Prop where
  operands : fh_opcode_has_operands inst.opcode = false → inst.dest = 0 ∧ inst.src1 = 0
  src2 : fh_operand_form inst.opcode ≠ .PolyPoly → fh_operand_form inst.opcode ≠ .PolyPolyNI →
    inst.src2 = 0
  immediate : fh_operand_form inst.opcode ≠ .PolyScalar → inst.immediate = none
  fp_immediate : fh_operand_form inst.opcode ≠ .PolyScalarNI → inst.fp_immediate = none
  literal : inst.modulus = none → inst.modulus_is_literal = false
  omega : fh_operand_form inst.opcode ≠ .Ntt → inst.omega = none
  mask : fh_operand_form inst.opcode ≠ .AutomorphEval → inst.mask = none
  logn : fh_operand_form inst.opcode ≠ .AutomorphEval → inst.logn = none
  k : fh_operand_form inst.opcode ≠ .AutomorphEval →
    fh_operand_form inst.opcode ≠ .AutomorphCoeff → inst.k = none
  offset : fh_operand_form inst.opcode ≠ .RotAutomorphCoeff → inst.offset = none

/-- A form without operands is the form of an opcode without operands, when the
opcode has a row. -/
theorem form_none_of_no_operands {op : FhOpcode} (hrow : (fh_opcode_info op).isSome)
    (h : fh_opcode_has_operands op = false) : fh_operand_form op = .None := by
  obtain ⟨info, hinfo⟩ := Option.isSome_iff_exists.mp hrow
  have hill : op ≠ .FH_ILL := by
    rintro rfl
    exact absurd hrow (by decide)
  rw [fh_opcode_has_operands, if_neg hill, hinfo] at h
  rw [fh_operand_form, hinfo]
  exact not_not.mp (of_decide_eq_false h)

/-- What is shaped by a row of the vocabulary conforms, when its literal flag is
about a modulus it has. -/
theorem Instruction.Shaped.conforms {inst : Instruction} (h : inst.Shaped)
    (hrow : (fh_opcode_info inst.opcode).isSome)
    (hliteral : inst.modulus = none → inst.modulus_is_literal = false) : inst.Conforms where
  operands := fun hno => h.operands (form_none_of_no_operands hrow hno)
  src2 := h.src2
  immediate := h.immediate
  fp_immediate := h.fp_immediate
  literal := hliteral
  omega := h.omega
  mask := h.mask
  logn := h.logn
  k := h.k
  offset := h.offset

/-! ## One record -/

section Records

variable {inst : Instruction}

/-- The flag byte says for each flag whether it was raised. -/
theorem flags_has : ∀ src2 mod lit imm aux logn : Bool,
    let flags := flagIf src2 FH_FLAG_HAS_SRC2 ||| flagIf mod FH_FLAG_HAS_MOD |||
      flagIf lit FH_FLAG_MOD_LITERAL ||| flagIf imm FH_FLAG_HAS_IMM |||
      flagIf aux FH_FLAG_HAS_AUX ||| flagIf logn FH_FLAG_HAS_LOGN
    decide (flags &&& FH_FLAG_HAS_SRC2 ≠ 0) = src2 ∧ decide (flags &&& FH_FLAG_HAS_MOD ≠ 0) = mod ∧
      decide (flags &&& FH_FLAG_MOD_LITERAL ≠ 0) = lit ∧ decide (flags &&& FH_FLAG_HAS_IMM ≠ 0) = imm ∧
      decide (flags &&& FH_FLAG_HAS_AUX ≠ 0) = aux ∧ decide (flags &&& FH_FLAG_HAS_LOGN ≠ 0) = logn := by
  decide

/-- The flags of an instruction's record. -/
theorem to_record_has (inst : Instruction) :
    (to_record inst).has FH_FLAG_HAS_SRC2 = (decide (fh_operand_form inst.opcode = .PolyPoly) ||
        decide (fh_operand_form inst.opcode = .PolyPolyNI)) ∧
      (to_record inst).has FH_FLAG_HAS_MOD = inst.modulus.isSome ∧
      (to_record inst).has FH_FLAG_MOD_LITERAL = (inst.modulus.isSome && inst.modulus_is_literal) ∧
      (to_record inst).has FH_FLAG_HAS_IMM = inst.wireImm.isSome ∧
      (to_record inst).has FH_FLAG_HAS_AUX = inst.wireAux.isSome ∧
      (to_record inst).has FH_FLAG_HAS_LOGN = inst.logn.isSome :=
  flags_has _ _ _ _ _ _

/-- A record's flags, each raised exactly when its operand is there. -/
structure Flagged (inst : Instruction) (r : FhetchRecord) : Prop where
  src2 : r.has FH_FLAG_HAS_SRC2 = true ↔
    fh_operand_form inst.opcode = .PolyPoly ∨ fh_operand_form inst.opcode = .PolyPolyNI
  modulus : r.has FH_FLAG_HAS_MOD = inst.modulus.isSome
  literal : r.has FH_FLAG_MOD_LITERAL = inst.modulus_is_literal
  imm : r.has FH_FLAG_HAS_IMM = true ↔ inst.immediate.isSome ∨ inst.fp_immediate.isSome ∨
    inst.k.isSome ∨ inst.offset.isSome
  aux : r.has FH_FLAG_HAS_AUX = true ↔ inst.omega.isSome ∨ inst.mask.isSome
  logn : r.has FH_FLAG_HAS_LOGN = inst.logn.isSome

theorem to_record_flagged (h : inst.Conforms) : Flagged inst (to_record inst) := by
  obtain ⟨hsrc2, hmod, hlit, himm, haux, hlogn⟩ := to_record_has inst
  refine ⟨?_, hmod, ?_, ?_, ?_, hlogn⟩
  · rw [hsrc2, Bool.or_eq_true, decide_eq_true_eq, decide_eq_true_eq]
  · rw [hlit]
    rcases hm : inst.modulus with - | m
    · exact (h.literal hm).symm
    · exact Bool.true_and _
  · rw [himm, Instruction.wireImm]
    simp only [Option.isSome_or, Bool.or_eq_true]
    exact ⟨fun h => by tauto, fun h => by tauto⟩
  · rw [haux, Instruction.wireAux, Option.isSome_or, Bool.or_eq_true]

theorem some_getD_ite {α : Type} (o : Option α) (a : α) :
    (if o.isSome = true then some (o.getD a) else none) = o := by
  cases o <;> rfl

/-- **An instruction survives its record**, when only the operands of its form are
set: what the record multiplexes, the form tells apart. -/
theorem from_record_to_record (h : inst.Conforms) : from_record (to_record inst) = inst.content := by
  obtain ⟨hsrc2, hmod, -, himm, haux, hlogn⟩ := to_record_has inst
  have hlit := (to_record_flagged h).literal
  have hopcode : FhOpcode.ofByte (to_record inst).opcode = inst.opcode :=
    FhOpcode.ofByte_toByte inst.opcode
  obtain ⟨-, hs, hi, hf, hl, ho, hm, -, hk, hoff⟩ := h
  obtain ⟨opcode, dest, src1, src2, immediate, fp_immediate, modulus, modulus_is_literal, omega, mask,
    logn, k, offset, line_number⟩ := inst
  dsimp only at hs hi hf hl ho hm hk hoff
  have hliteral : (modulus.isSome && modulus_is_literal) = modulus_is_literal := by
    rcases modulus with - | m
    · exact (hl rfl).symm
    · rfl
  unfold from_record
  simp only [hsrc2, hmod, hlit, himm, haux, hlogn, hopcode, hliteral]
  -- in each form at most one operand goes through `imm`, and one through `aux`
  cases hform : fh_operand_form opcode <;> rw [hform] at hs hi hf ho hm hk hoff <;>
    simp [hform, to_record, Instruction.content, Instruction.wireImm, Instruction.wireAux, some_getD_ite] <;>
    simp at hs hi hf ho hm hk hoff <;> simp [*, some_getD_ite]

/-- And its record is one the encoder keeps. -/
theorem to_record_canonical (h : inst.Conforms) : (to_record inst).Canonical := by
  obtain ⟨hsrc2, hmod, -, himm, haux, hlogn⟩ := to_record_has inst
  have hnone : ∀ {α : Type} {o : Option α} (a : α), o.isSome = false → o.getD a = a := by
    intro α o a ho
    cases o with
    | none => rfl
    | some b => exact absurd ho (by simp)
  have hoperands : (to_record inst).hasOperands = fh_opcode_has_operands inst.opcode :=
    congrArg fh_opcode_has_operands (FhOpcode.ofByte_toByte inst.opcode)
  refine ⟨fun hf => hnone 0 (hlogn ▸ hf), fun hf => (h.operands (hoperands ▸ hf)).1,
    fun hf => (h.operands (hoperands ▸ hf)).2, fun hf => ?_, fun hf => hnone 0 (hmod ▸ hf),
    fun hf => hnone 0 (himm ▸ hf), fun hf => hnone 0 (haux ▸ hf)⟩
  rw [hsrc2] at hf
  show (if _ then inst.src2 else 0) = 0
  rw [hf]
  rfl

end Records

/-! ## A file of records -/

/-- The sections fit their counters: 32 bits for the metadata and the table, 64 for
the records. -/
structure Fits (metadata : TraceMetadata) (table : List UInt64) (insts : List Instruction)
    (spec : FhetchSpec) : Prop where
  metadata : (build_metadata metadata spec).length < 2 ^ 32
  table : table.length < 2 ^ 32
  records : insts.length < 2 ^ 64

/-- What an encoding of conforming instructions reads back as. -/
theorem read_encoded {metadata : TraceMetadata} {table : List UInt64} {insts : List Instruction}
    {spec : FhetchSpec} {bytes : Bytes} (hinsts : ∀ inst ∈ insts, inst.Conforms) (hspec : spec.valid)
    (hdate : spec.date.TwoDigit) (hfits : Fits metadata table insts spec)
    (henc : encode_fhetch_program metadata table (insts.map to_record) spec = some bytes) :
    ∃ r, read_fhetch_binary bytes = some r ∧ r.ok = true ∧ r.warnings = [] ∧
      r.program.instructions.map Instruction.content = insts.map Instruction.content ∧
      r.program.modulus_table = table := by
  have hcanonical : ∀ r ∈ insts.map to_record, r.Canonical := by
    intro r hr
    obtain ⟨inst, hinst, rfl⟩ := List.mem_map.mp hr
    exact to_record_canonical (hinsts inst hinst)
  obtain ⟨p, hdecode, htable, hrecords⟩ : ∃ p, decode_fhetch_program bytes = .ok p ∧
      p.modulus_table = table ∧ p.records = insts.map to_record :=
    ⟨_, decode_encoded hspec hdate hcanonical hfits.metadata hfits.table
      (by rw [List.length_map]; exact hfits.records) henc, rfl, rfl⟩
  refine ⟨{ ok := true, program := p.toProgram }, ?_, rfl, rfl, ?_, htable⟩
  · rw [read_fhetch_binary, hdecode]
  -- the number of a record is its place, which the content leaves out
  show (p.records.mapIdx _).map Instruction.content = _
  rw [hrecords]
  apply List.ext_getElem?
  intro i
  rw [List.getElem?_map, List.getElem?_mapIdx, List.getElem?_map, List.getElem?_map]
  rcases hi : insts[i]? with - | inst
  · rfl
  · have hback := from_record_to_record (hinsts inst (List.mem_of_getElem? hi))
    simp only [Option.map_some, hback]
    rfl

/-- **The conversion loses nothing.** A conforming instruction comes back from its
record, whose flags say which operands it has and whose other fields are zero; so
a list of them comes back from the file written for it, whatever else the program
holds. -/
theorem conversion_lossless :
    (∀ inst : Instruction, inst.Conforms → from_record (to_record inst) = inst.content ∧
      Flagged inst (to_record inst) ∧ (to_record inst).Canonical) ∧
    ∀ (program : Program) (spec : FhetchSpec), (∀ inst ∈ program.instructions, inst.Conforms) →
      spec.valid → spec.date.TwoDigit →
      Fits program.binary_metadata program.modulus_table program.instructions spec →
      ∃ bytes r, write_fhetch_binary program spec = some bytes ∧ read_fhetch_binary bytes = some r ∧
        r.ok = true ∧ r.warnings = [] ∧
        r.program.instructions.map Instruction.content = program.instructions.map Instruction.content := by
  refine ⟨fun inst h => ⟨from_record_to_record h, to_record_flagged h, to_record_canonical h⟩, ?_⟩
  intro program spec hinsts hspec hdate hfits
  have henc := encode_fhetch_program_eq program.binary_metadata program.modulus_table
    (program.instructions.map to_record) hspec
  obtain ⟨r, hread, hok, hwarnings, hback, -⟩ := read_encoded hinsts hspec hdate hfits henc
  exact ⟨_, r, henc, hread, hok, hwarnings, hback⟩

/-- An automorphism with a mask and without a `k`, and a literal modulus on it. -/
def maskedAutomorph : Instruction :=
  { opcode := .FH_SR_AUTOMORPH_EVAL, dest := 3, src1 := 1, modulus := some 97, modulus_is_literal := true,
    mask := some 5, logn := some 4, line_number := 12 }

theorem conversion_lossless_maskedAutomorph :
    from_record (to_record maskedAutomorph) = maskedAutomorph.content ∧
      ∃ bytes r, write_fhetch_binary { instructions := [maskedAutomorph] } kFhetchSpec = some bytes ∧
        read_fhetch_binary bytes = some r ∧ r.ok = true ∧ r.warnings = [] ∧
        r.program.instructions.map Instruction.content = [maskedAutomorph.content] := by
  have hconforms : maskedAutomorph.Conforms := by constructor <;> decide
  refine ⟨(conversion_lossless.1 _ hconforms).1, ?_⟩
  exact conversion_lossless.2 { instructions := [maskedAutomorph] } kFhetchSpec
    (List.forall_mem_singleton.mpr hconforms) (by decide) ⟨by decide, by decide⟩
    ⟨by decide, by decide, by decide⟩

end Fhetch
