/-
What a reader promises about a program, and which of the two keeps it.

The text reader checks each operand as it parses it, so a program it delivers is
validated whatever the text: that is `Readable`, restated against the table the
read ended with, which can only have grown. The binary reader converts records:
opcode byte, flags, `logn` and index go through as they are, and the program is
validated exactly when every record of the stream already was.
-/
import Fhetch.ReaderSpec

set_option autoImplicit false

namespace Fhetch

open Lib

/-! ## Validated programs -/

/-- An instruction a consumer can rely on: an opcode with a row in the table,
the operands its shape requires, and an index that the modulus table of this
size and the ISA both have. -/
structure Validated (table : ℕ) (inst : Instruction) : Prop where
  row : (fh_opcode_info inst.opcode).isSome
  modulus : (fh_operand_form inst.opcode).hasModulus → inst.modulus.isSome
  immediate : fh_operand_form inst.opcode = .PolyScalar → inst.immediate.isSome
  fp_immediate : fh_operand_form inst.opcode = .PolyScalarNI → inst.fp_immediate.isSome
  k : fh_operand_form inst.opcode = .AutomorphCoeff → inst.k.isSome
  offset : fh_operand_form inst.opcode = .RotAutomorphCoeff → inst.offset.isSome
  logn : ∀ l, inst.logn = some l → l.toNat ≤ 64
  index : ∀ m, inst.modulus = some m → inst.modulus_is_literal = false →
    m.toNat < table ∧ m.toNat < 256

/-- Every instruction of a program, against its own table. -/
def Program.Validated (p : Program) : Prop :=
  ∀ inst ∈ p.instructions, Fhetch.Validated p.modulus_table.length inst

theorem Validated.mono {table table' : ℕ} {inst : Instruction} (h : Validated table inst)
    (hle : table ≤ table') : Validated table' inst :=
  { h with index := fun m hm hl => ⟨(h.index m hm hl).1.trans_le hle, (h.index m hm hl).2⟩ }

/-! ## The text form -/

theorem Readable.validated {table : ℕ} {inst : Instruction} (h : Readable table inst) :
    Validated table inst := by
  refine ⟨h.row, fun hm => (h.modulus hm).present, h.immediate, h.fp_immediate, h.k, h.offset, h.logn, ?_⟩
  intro m hm hliteral
  -- a shape without a modulus has none to be an index
  have hmod : (fh_operand_form inst.opcode).hasModulus := by
    by_contra hno
    have := (h.shaped.modulus (Bool.not_eq_true _ ▸ hno)).1
    rw [hm] at this
    exact absurd this (by simp)
  have hread := h.modulus hmod
  have hlt : m.toNat < table := by
    have := hread.literal m hm
    rw [hliteral] at this
    exact Nat.not_le.mp (of_decide_eq_false this.symm)
  refine ⟨hlt, ?_⟩
  have hle : m.toNat ≤ kMaxModulusIndex := hread.encodable m hm hlt
  rw [kMaxModulusIndex] at hle
  omega

/-- A line keeps a read's program validated. -/
theorem validated_of_reads {F : FloatText} {t : Str} {r r' : Reader}
    (hr : r.result_.program.Validated) (h : Reader.Reads F t r.next r') :
    r'.result_.program.Validated := by
  cases h with
  | skip | header | note | error => exact hr
  | entry value =>
    intro inst hinst
    -- an index in range stays in range of a longer table
    apply (hr inst hinst).mono
    show _ ≤ (_ ++ [value]).length
    rw [List.length_append]
    exact Nat.le_add_right _ _
  | instruction =>
    rcases hL : r.next.lineInstruction F t with ⟨- | inst, d⟩
    · rw [Reader.instruction_line_of_none hL]
      exact hr
    · rw [Reader.instruction_line_of_some hL]
      intro inst' hinst'
      rcases List.mem_append.mp hinst' with hinst' | hinst'
      · exact hr inst' hinst'
      · rw [List.mem_singleton.mp hinst']
        exact ((Reader.lineInstruction_spec hL).2 inst rfl).1.validated

/-- **A text read is validated**, ok or not. -/
theorem read_fhetch_text_validated {F : FloatText} {text : Str} {r : ReadResult}
    (h : read_fhetch_text F text = some r) : r.program.Validated := by
  obtain ⟨final, hlines, rfl⟩ := Option.map_eq_some_iff.mp h
  have hstart : (Reader.result_ {}).program.Validated := fun inst h => absurd h List.not_mem_nil
  exact Reader.read_lines_induct (I := fun r => r.result_.program.Validated)
    (fun t r r' hr => validated_of_reads hr) (getlines text) hstart hlines

/-! ## The binary form -/

/-- The checks the binary reader leaves to the stream. -/
structure FhetchRecord.Checked (table : ℕ) (record : FhetchRecord) : Prop where
  row : (fh_opcode_info (FhOpcode.ofByte record.opcode)).isSome
  modulus : (fh_operand_form (FhOpcode.ofByte record.opcode)).hasModulus →
    record.has FH_FLAG_HAS_MOD
  immediate : fh_operand_form (FhOpcode.ofByte record.opcode) = .PolyScalar →
    record.has FH_FLAG_HAS_IMM
  fp_immediate : fh_operand_form (FhOpcode.ofByte record.opcode) = .PolyScalarNI →
    record.has FH_FLAG_HAS_IMM
  k : fh_operand_form (FhOpcode.ofByte record.opcode) = .AutomorphCoeff →
    record.has FH_FLAG_HAS_IMM
  offset : fh_operand_form (FhOpcode.ofByte record.opcode) = .RotAutomorphCoeff →
    record.has FH_FLAG_HAS_IMM
  logn : record.has FH_FLAG_HAS_LOGN → record.logn.toNat ≤ 64
  index : record.has FH_FLAG_HAS_MOD → record.has FH_FLAG_MOD_LITERAL = false →
    record.modulus.toNat < table ∧ record.modulus.toNat < 256

theorem isSome_ite {α : Type} {c : Prop} [Decidable c] {a : α} :
    (if c then some a else none).isSome ↔ c := by
  by_cases h : c <;> simp [h]

/-- The conversion neither adds nor removes a check. -/
theorem validated_from_record_iff (table n : ℕ) (record : FhetchRecord) :
    Validated table { from_record record with line_number := n } ↔ record.Checked table := by
  constructor
  · intro h
    refine ⟨h.row, fun hf => isSome_ite.mp (h.modulus hf), ?_, ?_, ?_, ?_, ?_, ?_⟩
    · intro hf
      have := h.immediate hf
      simp only [from_record, hf] at this
      exact isSome_ite.mp this
    · intro hf
      have := h.fp_immediate hf
      simp only [from_record, hf] at this
      exact isSome_ite.mp this
    · intro hf
      have := h.k hf
      simp only [from_record, hf] at this
      exact isSome_ite.mp this
    · intro hf
      have := h.offset hf
      simp only [from_record, hf] at this
      exact isSome_ite.mp this
    · intro hl
      exact h.logn record.logn (if_pos hl)
    · intro hm hl
      exact h.index record.modulus (if_pos hm) (by simp [from_record, hl])
  · intro h
    refine ⟨h.row, fun hf => isSome_ite.mpr (h.modulus hf), ?_, ?_, ?_, ?_, ?_, ?_⟩
    · intro hf
      replace hf : fh_operand_form (FhOpcode.ofByte record.opcode) = .PolyScalar := hf
      simp only [from_record, hf]
      exact isSome_ite.mpr (h.immediate hf)
    · intro hf
      replace hf : fh_operand_form (FhOpcode.ofByte record.opcode) = .PolyScalarNI := hf
      simp only [from_record, hf]
      exact isSome_ite.mpr (h.fp_immediate hf)
    · intro hf
      replace hf : fh_operand_form (FhOpcode.ofByte record.opcode) = .AutomorphCoeff := hf
      simp only [from_record, hf]
      exact isSome_ite.mpr (h.k hf)
    · intro hf
      replace hf : fh_operand_form (FhOpcode.ofByte record.opcode) = .RotAutomorphCoeff := hf
      simp only [from_record, hf]
      exact isSome_ite.mpr (h.offset hf)
    · intro l hl
      obtain ⟨hhas, rfl⟩ : record.has FH_FLAG_HAS_LOGN ∧ record.logn = l := by
        simpa [from_record] using hl
      exact h.logn hhas
    · intro m hm hl
      obtain ⟨hhas, rfl⟩ : record.has FH_FLAG_HAS_MOD ∧ record.modulus = m := by
        simpa [from_record] using hm
      refine h.index hhas ?_
      simpa [from_record, hhas] using hl

theorem toProgram_validated_iff (p : FhexProgram) :
    p.toProgram.Validated ↔ ∀ record ∈ p.records, record.Checked p.modulus_table.length := by
  simp only [Program.Validated, FhexProgram.toProgram, List.mem_mapIdx]
  constructor
  · intro h record hrecord
    obtain ⟨i, hi, rfl⟩ := List.mem_iff_getElem.mp hrecord
    exact (validated_from_record_iff _ (i + 1) _).mp (h _ ⟨i, hi, rfl⟩)
  · rintro h _ ⟨i, hi, rfl⟩
    exact (validated_from_record_iff _ (i + 1) _).mpr (h _ (List.getElem_mem hi))

/-! ## Both -/

/-- **A file that reads is validated** exactly when it is text, or its stream
holds checked records only. -/
theorem read_fhetch_file_validated_iff (F : FloatText) (path : Str) (data : Bytes)
    (r : ReadResult) (h : read_fhetch_file F path (some data) = some r) (hok : r.ok = true) :
    r.program.Validated ↔ kFhexMagic.isPrefixOf data = false ∨
      ∃ p, decode_fhetch_program data = .ok p ∧
        ∀ record ∈ p.records, record.Checked p.modulus_table.length := by
  rw [read_fhetch_file] at h
  cases hmagic : kFhexMagic.isPrefixOf data with
  | false =>
    rw [hmagic] at h
    exact iff_of_true (read_fhetch_text_validated h) (.inl rfl)
  | true =>
    rw [hmagic, if_pos rfl, read_fhetch_binary] at h
    split at h
    · obtain rfl := Option.some.inj h
      exact absurd hok Bool.false_ne_true
    · exact absurd h (by simp)
    · rename_i p hp
      obtain rfl := Option.some.inj h
      -- a container is decoded without checks: what its records hold decides
      rw [show Program.Validated _ ↔ _ from toProgram_validated_iff p]
      refine ⟨fun hchecked => .inr ⟨p, hp, hchecked⟩, ?_⟩
      rintro (hfalse | ⟨p', hp', hchecked⟩)
      · exact absurd hfalse (by decide)
      · obtain rfl : p = p' := Except.ok.inj (hp.symm.trans hp')
        exact hchecked

/-- The bytes of a container with an empty modulus table. -/
def containerOf (record : FhetchRecord) : Bytes :=
  (encode_fhetch_program {} [] [record] kFhetchSpec).getD []

/-- An addition modulo entry 300 of that table. -/
def strayIndex : FhetchRecord :=
  { opcode := 1, flags := 9, dst := 1, src1 := 2, src2 := 3, modulus := 300 }

theorem not_validated_strayIndex :
    ∃ r, read_fhetch_file zeroFloatText [] (some (containerOf strayIndex)) = some r ∧
      r.ok = true ∧ ¬ r.program.Validated := by
  refine ⟨_, rfl, rfl, fun h => ?_⟩
  have hinst := h _ List.mem_cons_self
  exact absurd (hinst.index 300 rfl rfl).2 (by decide)

/-- The same addition modulo a literal. -/
def literalModulus : FhetchRecord :=
  { opcode := 1, flags := 11, dst := 1, src1 := 2, src2 := 3, modulus := 97 }

theorem read_fhetch_file_validated_iff_literalModulus :
    ∃ r, read_fhetch_file zeroFloatText [] (some (containerOf literalModulus)) = some r ∧
      r.program.Validated := by
  refine ⟨_, rfl, (read_fhetch_file_validated_iff zeroFloatText [] (containerOf literalModulus) _
    rfl rfl).mpr (.inr ⟨_, rfl, fun record hrecord => ?_⟩)⟩
  rw [List.mem_singleton.mp hrecord]
  constructor <;> decide

end Fhetch
