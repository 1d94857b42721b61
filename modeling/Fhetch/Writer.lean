/-
The text writer (`src/fhetch_writer.cpp`): an instruction's line, the header, the
modulus table, and the whole file with the annotations put back between the
instructions by position. The binary form of the same program is its records.

A stream is the text written to it. `std::to_string` of a `double` is the
parameter it is for the reader.
-/
import Fhetch.Reader

set_option autoImplicit false

namespace Fhetch

open Lib

/-! ## Operands -/

/-- `%N`. -/
def append_addr (out : Str) (a : UInt32) : Str := out ++ str "%" ++ decimal a.toNat

/-- `, <name>=N`. -/
def append_named (out name : Str) (v : ℕ) : Str := out ++ str ", " ++ name ++ str "=" ++ decimal v

/-- `m=<N>`; the text cannot say whether the number is an index or a literal. -/
def append_modulus (out : Str) (inst : Instruction) : Str :=
  match inst.modulus with
  | some m => append_named out (str "m") m.toNat
  | none => out

/-- `, <name>=N` of an operand that may be absent. -/
def append_optional (out name : Str) (v : Option ℕ) : Str :=
  match v with
  | some v => append_named out name v
  | none => out

/-- An instruction's line, without its end. An opcode without a mnemonic renders
as nothing. -/
def render_instruction (F : FloatText) (inst : Instruction) : Str :=
  match fh_opcode_mnemonic inst.opcode with
  | none => []
  | some mnemonic =>
    let operands := append_addr (append_addr (mnemonic ++ str " ") inst.dest ++ str ", ") inst.src1
    match fh_operand_form inst.opcode with
    | .None => mnemonic
    | .PolyPoly => append_modulus (append_addr (operands ++ str ", ") inst.src2) inst
    | .PolyPolyNI => append_addr (operands ++ str ", ") inst.src2
    | .PolyScalar =>
      append_modulus (operands ++ str ", " ++ decimal (inst.immediate.getD 0).toNat) inst
    | .PolyScalarNI => operands ++ str ", " ++ F.to_string (inst.fp_immediate.getD 0)
    | .UnaryMod => append_modulus operands inst
    | .UnaryNoMod => operands
    | .Ntt =>
      append_optional (append_modulus operands inst) (str "omega") (inst.omega.map UInt64.toNat)
    | .AutomorphEval =>
      let out := append_modulus operands inst
      let out := append_optional out (str "mask") (inst.mask.map UInt64.toNat)
      let out := append_optional out (str "logn") (inst.logn.map UInt8.toNat)
      append_optional out (str "k") (inst.k.map UInt64.toNat)
    | .AutomorphCoeff => append_modulus (append_named operands (str "k") (inst.k.getD 0).toNat) inst
    | .RotAutomorphCoeff =>
      append_modulus (append_named operands (str "offset") (inst.offset.getD 0).toNat) inst

/-! ## Lines -/

/-- A line with its end. -/
def endLine (s : Str) : Str := s ++ [newline]

/-- The separator of the header. -/
def kRule : Str := str "# ========================================="

/-- An `int` written to a stream. -/
def intDecimal (x : Int32) : Str :=
  if x.toInt < 0 then str "-" ++ decimal x.toInt.natAbs else decimal x.toInt.natAbs

/-- The leading comment block. -/
def render_header (metadata : TraceMetadata) (instruction_count modulus_count : ℕ) : Str :=
  let out := endLine kRule ++ endLine (str "# Niobium FHETCH Trace") ++ endLine kRule
  let out :=
    if metadata.program_name.isEmpty then out
    else
      let version :=
        if metadata.program_version.isEmpty then [] else str " v" ++ metadata.program_version
      out ++ endLine (str "# Program: " ++ metadata.program_name ++ version)
  let out :=
    if metadata.description.isEmpty then out
    else out ++ endLine (str "# Description: " ++ metadata.description)
  let out :=
    if metadata.source_file.isEmpty then out
    else out ++ endLine (str "# Source: " ++ metadata.source_file ++ str ":" ++
      intDecimal metadata.source_line)
  let out :=
    if metadata.build_timestamp.isEmpty then out
    else out ++ endLine (str "# Build: " ++ metadata.build_timestamp)
  let out := out ++ endLine (str "# Instruction Count: " ++ decimal instruction_count)
  let out := out ++ endLine (str "# Modulus Count: " ++ decimal modulus_count)
  let out :=
    if metadata.generated_timestamp = 0 then out
    else out ++ endLine (str "# Generated: " ++ decimal metadata.generated_timestamp.toNat)
  out ++ endLine kRule

/-- `m[<i>] 0x<HEX>`. -/
def render_modulus_entry (i : ℕ) (q : UInt64) : Str :=
  str "m[" ++ decimal i ++ str "] 0x" ++ numeral 16 q.toNat

/-- The count and the entries of the modulus table. -/
def render_modulus_table (table : List UInt64) : Str :=
  endLine (str "modulus_count " ++ decimal table.length) ++
    (table.mapIdx fun i q => endLine (render_modulus_entry i q)).flatten

/-- A comment line. -/
def render_note (note : Annotation) : Str := endLine (str "# " ++ note.text)

/-- The instructions from index `i` on, each after the notes not yet written that
belong before it; then the notes left over. -/
def render_stream (F : FloatText) : ℕ → List Instruction → List Annotation → Str
  | _, [], notes => notes.flatMap render_note
  | i, inst :: rest, notes =>
    let due := notes.takeWhile (·.after_instruction ≤ i)
    let later := notes.dropWhile (·.after_instruction ≤ i)
    let line := render_instruction F inst
    due.flatMap render_note ++ (if line.isEmpty then [] else endLine line) ++
      render_stream F (i + 1) rest later

/-- What `write_fhetch_text` puts in the file. -/
def write_fhetch_text (F : FloatText) (program : Program) : Str :=
  render_header program.metadata program.instructions.length program.modulus_table.length ++
    (endLine [] ++ endLine (str "# Modulus Table")) ++ render_modulus_table program.modulus_table ++
    (endLine [] ++ endLine (str "# Instructions")) ++
    render_stream F 0 program.instructions program.annotations

/-! ## The binary form -/

/-- The metadata of the binary form; its counts are of what is written. -/
def Program.binary_metadata (program : Program) : TraceMetadata :=
  { program.metadata with
    instruction_count := Int32.ofNat program.instructions.length
    modulus_chain := program.modulus_table
    modulus_chain_length := Int32.ofNat program.modulus_table.length }

/-- What `write_fhetch_binary` puts in the file; `none` when the encoder throws. -/
def write_fhetch_binary (program : Program) (spec : FhetchSpec) : Option Bytes :=
  encode_fhetch_program program.binary_metadata program.modulus_table
    (program.instructions.map to_record) spec

end Fhetch
