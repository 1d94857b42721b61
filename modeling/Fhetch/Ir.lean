/-
The FHETCH IR (`include/niobium/fhetch_ir.h`): opcodes and their operand
shapes, instructions, programs.

Everything downstream speaks these types, so three representation choices are
made here once.

* A `std::string` is its bytes, `Str`. The text reader and writer and the
  binary container then share one type, and "any byte string" means that.
* An `FhOpcode` is a C++ enumeration over `uint8_t`: a `.fhex` record is cast
  to it unchecked, so the type holds the twenty-eight enumerators *and* every
  byte above them. `unassigned` carries those bytes.
* Operands keep the widths of the source (`UInt32` addresses, `UInt64`
  scalars). A `double` is its 64-bit pattern: nothing here computes with one.
-/
import Mathlib.Data.List.Basic
import Mathlib.Tactic.DeriveFintype

set_option autoImplicit false

namespace Fhetch

/-! ## Strings -/

/-- A `std::string`: its bytes. -/
abbrev Str := List UInt8

/-- The bytes of a source literal. -/
def str (s : String) : Str := s.toList.map fun c => UInt8.ofNat c.toNat

/-! ## Opcodes -/

/-- `FhOpcode`. The constructor `unassigned e` is the byte `28 + e`, which no
enumerator names and which a record can still carry. -/
inductive FhOpcode where
  | FH_ILL
  | FH_SR_ADDP
  | FH_SR_SUBP
  | FH_SR_MULP
  | FH_SR_ADDPS
  | FH_SR_SUBPS
  | FH_SR_MULPS
  | FH_SR_ADDPS_COEFF
  | FH_SR_SUBPS_COEFF
  | FH_SR_NEGP
  | FH_SR_NTT
  | FH_SR_INTT
  | FH_SR_PERMUTE
  | FH_SR_AUTOMORPH_EVAL
  | FH_SR_AUTOMORPH_COEFF
  | FH_SR_ROT_AUTOMORPH_COEFF
  | FH_SR_ADDP_NI
  | FH_SR_SUBP_NI
  | FH_SR_MULP_NI
  | FH_SR_ADDPS_NI
  | FH_SR_SUBPS_NI
  | FH_SR_MULPS_NI
  | FH_SR_ADDPS_COEFF_NI
  | FH_SR_SUBPS_COEFF_NI
  | FH_SR_NEGP_NI
  | FH_SR_FT
  | FH_SR_IFT
  | FH_HALT
  | unassigned (excess : Fin 228)
  deriving DecidableEq, Repr, Inhabited

open FhOpcode

/-- The enumerators in the order of their values, `FH_ILL = 0` first. -/
def FhOpcode.named : List FhOpcode :=
  [FH_ILL, FH_SR_ADDP, FH_SR_SUBP, FH_SR_MULP, FH_SR_ADDPS, FH_SR_SUBPS, FH_SR_MULPS,
    FH_SR_ADDPS_COEFF, FH_SR_SUBPS_COEFF, FH_SR_NEGP, FH_SR_NTT, FH_SR_INTT, FH_SR_PERMUTE,
    FH_SR_AUTOMORPH_EVAL, FH_SR_AUTOMORPH_COEFF, FH_SR_ROT_AUTOMORPH_COEFF, FH_SR_ADDP_NI,
    FH_SR_SUBP_NI, FH_SR_MULP_NI, FH_SR_ADDPS_NI, FH_SR_SUBPS_NI, FH_SR_MULPS_NI,
    FH_SR_ADDPS_COEFF_NI, FH_SR_SUBPS_COEFF_NI, FH_SR_NEGP_NI, FH_SR_FT, FH_SR_IFT, FH_HALT]

/-- `static_cast<uint8_t>(opcode)`. -/
def FhOpcode.toByte : FhOpcode → UInt8
  | unassigned e => UInt8.ofNat (28 + e.val)
  | op => UInt8.ofNat (named.idxOf op)

/-- `static_cast<FhOpcode>(byte)`. -/
def FhOpcode.ofByte (b : UInt8) : FhOpcode :=
  if h : b.toNat < 28 then named.get ⟨b.toNat, h⟩
  else unassigned ⟨b.toNat - 28, by have := b.toNat_lt; omega⟩

/-- The cast loses nothing in either direction: a record's opcode byte and the
instruction's opcode carry the same information. -/
theorem FhOpcode.toByte_ofByte (b : UInt8) : (ofByte b).toByte = b := by
  have hb : b.toNat < 256 := b.toNat_lt
  by_cases h : b.toNat < 28
  · have key : ∀ n (hn : n < 28), (named.get ⟨n, hn⟩).toByte = UInt8.ofNat n := by decide
    rw [ofByte, dif_pos h, key _ h, UInt8.ofNat_toNat]
  · rw [ofByte, dif_neg h, toByte, show 28 + (b.toNat - 28) = b.toNat by omega, UInt8.ofNat_toNat]

theorem FhOpcode.ofByte_toByte (op : FhOpcode) : ofByte op.toByte = op := by
  cases op with
  | unassigned e =>
    have he : e.val < 228 := e.isLt
    have hn : (UInt8.ofNat (28 + e.val)).toNat = 28 + e.val := by
      rw [UInt8.toNat_ofNat']; omega
    rw [toByte, ofByte, dif_neg (by omega)]
    simp only [hn, Nat.add_sub_cancel_left]
  | _ => decide

/-- `OperandForm`: which operands an opcode carries. -/
inductive OperandForm where
  | None
  | PolyPoly
  | PolyPolyNI
  | PolyScalar
  | PolyScalarNI
  | UnaryMod
  | UnaryNoMod
  | Ntt
  | AutomorphEval
  | AutomorphCoeff
  | RotAutomorphCoeff
  deriving DecidableEq, Repr

/-- One row of the opcode vocabulary. -/
structure OpcodeInfo where
  opcode : FhOpcode
  mnemonic : Str
  form : OperandForm

/-- `kOpcodeTable`. `FH_ILL` has no row, and neither has an unassigned byte. -/
def kOpcodeTable : List OpcodeInfo :=
  [⟨FH_SR_ADDP, str "sr_addp", .PolyPoly⟩,
   ⟨FH_SR_SUBP, str "sr_subp", .PolyPoly⟩,
   ⟨FH_SR_MULP, str "sr_mulp", .PolyPoly⟩,
   ⟨FH_SR_ADDPS, str "sr_addps", .PolyScalar⟩,
   ⟨FH_SR_SUBPS, str "sr_subps", .PolyScalar⟩,
   ⟨FH_SR_MULPS, str "sr_mulps", .PolyScalar⟩,
   ⟨FH_SR_ADDPS_COEFF, str "sr_addps_coeff", .PolyScalar⟩,
   ⟨FH_SR_SUBPS_COEFF, str "sr_subps_coeff", .PolyScalar⟩,
   ⟨FH_SR_NEGP, str "sr_negp", .UnaryMod⟩,
   ⟨FH_SR_NTT, str "sr_ntt", .Ntt⟩,
   ⟨FH_SR_INTT, str "sr_intt", .Ntt⟩,
   ⟨FH_SR_PERMUTE, str "sr_permute", .UnaryMod⟩,
   ⟨FH_SR_AUTOMORPH_EVAL, str "sr_automorph_eval", .AutomorphEval⟩,
   ⟨FH_SR_AUTOMORPH_COEFF, str "sr_automorph_coeff", .AutomorphCoeff⟩,
   ⟨FH_SR_ROT_AUTOMORPH_COEFF, str "sr_rot_automorph_coeff", .RotAutomorphCoeff⟩,
   ⟨FH_SR_ADDP_NI, str "sr_addp_ni", .PolyPolyNI⟩,
   ⟨FH_SR_SUBP_NI, str "sr_subp_ni", .PolyPolyNI⟩,
   ⟨FH_SR_MULP_NI, str "sr_mulp_ni", .PolyPolyNI⟩,
   ⟨FH_SR_ADDPS_NI, str "sr_addps_ni", .PolyScalarNI⟩,
   ⟨FH_SR_SUBPS_NI, str "sr_subps_ni", .PolyScalarNI⟩,
   ⟨FH_SR_MULPS_NI, str "sr_mulps_ni", .PolyScalarNI⟩,
   ⟨FH_SR_ADDPS_COEFF_NI, str "sr_addps_coeff_ni", .PolyScalarNI⟩,
   ⟨FH_SR_SUBPS_COEFF_NI, str "sr_subps_coeff_ni", .PolyScalarNI⟩,
   ⟨FH_SR_NEGP_NI, str "sr_negp_ni", .UnaryNoMod⟩,
   ⟨FH_SR_FT, str "sr_ft", .UnaryNoMod⟩,
   ⟨FH_SR_IFT, str "sr_ift", .UnaryNoMod⟩,
   ⟨FH_HALT, str "halt", .None⟩]

/-- The table row for an opcode, absent for `FH_ILL` and unassigned bytes. -/
def fh_opcode_info (op : FhOpcode) : Option OpcodeInfo :=
  kOpcodeTable.find? fun row => row.opcode = op

def fh_opcode_mnemonic (op : FhOpcode) : Option Str :=
  (fh_opcode_info op).map OpcodeInfo.mnemonic

def fh_opcode_from_mnemonic (mnemonic : Str) : Option FhOpcode :=
  (kOpcodeTable.find? fun row => mnemonic = row.mnemonic).map OpcodeInfo.opcode

def fh_operand_form (op : FhOpcode) : OperandForm :=
  match fh_opcode_info op with
  | some info => info.form
  | none => .None

/-- Whether an opcode carries a destination and first source. An unassigned
byte is assumed to, so that a newer toolchain's record can be skipped. -/
def fh_opcode_has_operands (op : FhOpcode) : Bool :=
  if op = FH_ILL then false
  else match fh_opcode_info op with
    | some info => info.form ≠ .None
    | none => true

@[simp] theorem fh_opcode_info_unassigned (e : Fin 228) :
    fh_opcode_info (unassigned e) = none := by
  simp [fh_opcode_info, kOpcodeTable]

@[simp] theorem fh_operand_form_unassigned (e : Fin 228) :
    fh_operand_form (unassigned e) = .None := by
  simp [fh_operand_form]

/-- The reader's lookup is the inverse of the writer's: a mnemonic names the
opcode whose row it is. -/
theorem fh_opcode_from_mnemonic_mnemonic {op : FhOpcode} {m : Str}
    (h : fh_opcode_mnemonic op = some m) : fh_opcode_from_mnemonic m = some op := by
  cases op with
  | unassigned e => simp [fh_opcode_mnemonic] at h
  | FH_ILL => simp [fh_opcode_mnemonic, fh_opcode_info, kOpcodeTable] at h
  | _ =>
    obtain rfl := Option.some.inj h
    decide

/-- Every opcode the text reader can name has a row. -/
theorem fh_opcode_info_of_mnemonic {m : Str} {op : FhOpcode}
    (h : fh_opcode_from_mnemonic m = some op) : (fh_opcode_info op).isSome := by
  unfold fh_opcode_from_mnemonic at h
  obtain ⟨row, hrow, rfl⟩ := Option.map_eq_some_iff.mp h
  have hmem : row ∈ kOpcodeTable := List.mem_of_find?_eq_some hrow
  exact List.find?_isSome.mpr ⟨row, hmem, by simp⟩

/-! ## Instructions and programs -/

/-- One FHETCH instruction. Operands are addresses, not SSA values: an address
may be written more than once and a destination may alias a source. -/
structure Instruction where
  opcode : FhOpcode := .FH_ILL
  dest : UInt32 := 0
  src1 : UInt32 := 0
  src2 : UInt32 := 0
  immediate : Option UInt64 := none
  /-- The bit pattern of the `double`. -/
  fp_immediate : Option UInt64 := none
  modulus : Option UInt64 := none
  modulus_is_literal : Bool := false
  omega : Option UInt64 := none
  mask : Option UInt64 := none
  logn : Option UInt8 := none
  k : Option UInt64 := none
  offset : Option UInt64 := none
  line_number : Nat := 0
  deriving DecidableEq, Repr, Inhabited

/-- What `operator==` compares: everything but the provenance. -/
def Instruction.content (inst : Instruction) : Instruction := { inst with line_number := 0 }

/-- Largest address an instruction can hold. -/
def kMaxAddress : Nat := 4294967295

/-- Largest modulus index the ISA can encode. -/
def kMaxModulusIndex : Nat := 255

/-- `TraceMetadata`: each field defaults to what a writer treats as absent. -/
structure TraceMetadata where
  program_name : Str := []
  program_version : Str := []
  trace_file : Str := []
  description : Str := []
  source_file : Str := []
  source_line : Int32 := 0
  build_timestamp : Str := []
  instruction_count : Int32 := 0
  generated_timestamp : UInt64 := 0
  scheme : Str := []
  ring_dimension : Int32 := 0
  multiplicative_depth : Int32 := 0
  security_level : Str := []
  modulus_chain : List UInt64 := []
  modulus_chain_length : Int32 := 0
  deriving DecidableEq, Inhabited

/-- A comment the reader kept, with the number of instructions before it. -/
structure Annotation where
  line_number : Nat := 0
  text : Str
  after_instruction : Nat := 0
  deriving DecidableEq

/-- A whole program in memory. -/
structure Program where
  metadata : TraceMetadata := {}
  modulus_table : List UInt64 := []
  instructions : List Instruction := []
  annotations : List Annotation := []
  deriving Inhabited

end Fhetch
