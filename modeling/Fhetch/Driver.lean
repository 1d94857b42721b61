/-
Driving a program through the recording API (`include/niobium/fhetch_parser.h`,
`src/fhetch_parser.cpp`): one call for each instruction of a file, so that a session
records a second program.

An address of the file is a key under which the driver keeps a polynomial, and the
API gives every polynomial an address of its own. A key is filled when it is written,
or by the first instruction that mentions it as a source: with the caller's values,
with a placeholder that is tagged as an input, or, where the source is not read, with
a placeholder that is not.
-/
import Fhetch.RootedTransforms
import Fhetch.Reader

set_option autoImplicit false

namespace Fhetch

open Lib

/-! ## What a drive is given and gives -/

/-- `DriveStats`, without the count that is always 0. -/
structure DriveStats where
  instructions_parsed : ℕ := 0
  instructions_replayed : ℕ := 0
  skipped_lines : ℕ := 0
  modulus_table : List UInt64 := []
  errors : List Str := []
  inputs_materialized : ℕ := 0
  outputs_tagged : ℕ := 0

/-- `DriveInputs::Element`. -/
structure DriveElement where
  values : List UInt64
  modulus : UInt64 := 0

/-- `DriveOutputs::Tag`. -/
structure DriveTag where
  name : Str
  poly_index : ℕ := 0

/-- What a `Driver` is made with. `outputs` is in the order in which the map behind it
goes over its entries; whether input values are streamed is up to the compiler. -/
structure Driver where
  ring_dim : ℕ
  inputs : ℕ → Option DriveElement := fun _ => none
  outputs : List (ℕ × DriveTag) := []
  input_streaming : Bool := false

/-- What driving changes: the process, the statistics and the map from file addresses
to polynomials. -/
structure Driven where
  compiler : Compiler
  stats : DriveStats := {}
  polys : ℕ → Option Polynomial := fun _ => none

/-- A call of the API on the way. -/
def Driven.call {α : Type} (f : Throws Session α) : Throws Driven α := fun d =>
  let (result, s) := f.on d.compiler.session
  (result, { d with compiler := { d.compiler with session := s } })

namespace Driver

open Throws Driven

variable (drv : Driver)

/-! ### Operands -/

/-- The name under which the input for a file address is captured or tagged. -/
def in_name (file_addr : ℕ) : Str := str "in_" ++ decimal file_addr

/-- The values that the caller gave for an address. -/
def given (file_addr : ℕ) : Option DriveElement :=
  (drv.inputs file_addr).filter fun e => !e.values.isEmpty

def emplace (file_addr : ℕ) (p : Polynomial) (d : Driven) : Driven :=
  { d with polys := Function.update d.polys file_addr (some p) }

/-- The element of a given input. -/
def materialized (e : DriveElement) (p : Polynomial) : CapturedElement where
  addr_id := p.address
  values := if drv.input_streaming then [] else e.values.map UInt64.toNat
  modulus := e.modulus.toNat

/-- A given input goes straight to what the compiler has captured. -/
def materialize (file_addr : ℕ) (e : DriveElement) (p : Polynomial) (d : Driven) : Driven :=
  { d with
    compiler := { d.compiler with
      captured_inputs := store_input_element (in_name file_addr) .SRP d.compiler.captured_inputs
        (drv.materialized e p) }
    stats := { d.stats with inputs_materialized := d.stats.inputs_materialized + 1 } }

def get_or_create_src (file_addr : ℕ) : Throws Driven Polynomial := do
  match (← get).polys file_addr with
  | some p => return p
  | none =>
    match drv.given file_addr with
    | some e =>
      let p ← call (api (Polynomial.from_data e.values drv.ring_dim .Evaluation))
      modify (drv.materialize file_addr e p)
      modify (emplace file_addr p)
      return p
    | none =>
      let p ← call (api (Polynomial.zeros drv.ring_dim .Evaluation))
      call (api (tag_input (in_name file_addr) (.POLY p)))
      modify (emplace file_addr p)
      return p

/-- The source of an instruction that reads nothing. -/
def get_or_create_zero_src (file_addr : ℕ) : Throws Driven Polynomial := do
  match (← get).polys file_addr with
  | some p => return p
  | none =>
    let p ← call (api (Polynomial.zeros drv.ring_dim .Evaluation))
    modify (emplace file_addr p)
    return p

def put (file_dst : ℕ) (r : Polynomial) : Throws Driven Unit := modify (emplace file_dst r)

/-- The value of an instruction's modulus: the literal, the entry of its index, or 0
where the instruction has none. -/
def modulus_of (table : List UInt64) (inst : Instruction) : Option UInt64 :=
  match inst.modulus with
  | none => some 0
  | some m => if inst.modulus_is_literal then some m else table[m.toNat]?

/-- An index outside the table is reported. -/
def reported (inst : Instruction) (d : Driven) : Driven :=
  { d with stats := { d.stats with errors := d.stats.errors ++
    [str "line " ++ decimal inst.line_number ++ str ": modulus index "
      ++ decimal (inst.modulus.getD 0).toNat ++ str " is outside the table of "
      ++ decimal d.stats.modulus_table.length ++ str " entries"] } }

def resolve (inst : Instruction) : Throws Driven (Option UInt64) := do
  match modulus_of (← get).stats.modulus_table inst with
  | some q => return some q
  | none =>
    modify (reported inst)
    return none

/-! ### Instructions -/

/-- The opcodes with two polynomials. -/
def drive_pp (inst : Instruction) (f : Polynomial → Polynomial → Api Polynomial) :
    Throws Driven Bool := do
  let a ← drv.get_or_create_src inst.src1.toNat
  let b ← drv.get_or_create_src inst.src2.toNat
  let r ← call (api (f a b))
  put inst.dest.toNat r
  return true

/-- The source of an opcode with an integer. A multiplication by 0 reads nothing. -/
def ps_src (inst : Instruction) : Throws Driven Polynomial :=
  if inst.opcode = .FH_SR_MULPS ∧ inst.immediate.getD 0 = 0 then
    drv.get_or_create_zero_src inst.src1.toNat
  else drv.get_or_create_src inst.src1.toNat

/-- The opcodes with a polynomial and an integer. -/
def drive_ps (inst : Instruction) (f : Polynomial → Scalar → Api Polynomial) :
    Throws Driven Bool := do
  let a ← drv.ps_src inst
  let s ← call (api (Scalar.from_int (inst.immediate.getD 0)))
  let r ← call (api (f a s))
  put inst.dest.toNat r
  return true

/-- The opcodes with one polynomial. -/
def drive_un (inst : Instruction) (f : Polynomial → Throws Session Polynomial) :
    Throws Driven Bool := do
  let a ← drv.get_or_create_src inst.src1.toNat
  let r ← call (f a)
  put inst.dest.toNat r
  return true

/-- A recorded root is recorded again. -/
def drive_ntt (inst : Instruction) (q : UInt64)
    (with_root : Polynomial → UInt64 → UInt64 → Throws Session Polynomial)
    (rootless : Polynomial → UInt64 → Api Polynomial) : Throws Driven Bool :=
  drv.drive_un inst fun a =>
    match inst.omega with
    | some omega => with_root a q omega
    | none => api (rootless a q)

/-- The opcodes with a polynomial and a `double`. -/
def drive_ps_ni (inst : Instruction) (f : Polynomial → UInt64 → Api Polynomial) :
    Throws Driven Bool := do
  let a ← drv.get_or_create_src inst.src1.toNat
  let _ ← call (api Scalar.from_double)
  let r ← call (api (f a (inst.fp_immediate.getD 0)))
  put inst.dest.toNat r
  return true

/-- The call that each opcode maps to. -/
def drive_opcode (inst : Instruction) (q : UInt64) : Throws Driven Bool :=
  match inst.opcode with
  | .FH_HALT => do
    call (api halt)
    return true
  | .FH_SR_ADDP => drv.drive_pp inst (sr_addp · · q)
  | .FH_SR_SUBP => drv.drive_pp inst (sr_subp · · q)
  | .FH_SR_MULP => drv.drive_pp inst (sr_mulp · · q)
  | .FH_SR_ADDPS => drv.drive_ps inst (sr_addps · · q)
  | .FH_SR_SUBPS => drv.drive_ps inst (sr_subps · · q)
  | .FH_SR_MULPS => drv.drive_ps inst (sr_mulps · · q)
  | .FH_SR_ADDPS_COEFF => drv.drive_ps inst (sr_addps_coeff · · q)
  | .FH_SR_SUBPS_COEFF => drv.drive_ps inst (sr_subps_coeff · · q)
  | .FH_SR_NEGP => drv.drive_un inst fun a => api (sr_negp a q)
  | .FH_SR_NTT => drv.drive_ntt inst q Throws.sr_ntt_with_root sr_ntt
  | .FH_SR_INTT => drv.drive_ntt inst q Throws.sr_intt_with_root sr_intt
  | .FH_SR_PERMUTE => drv.drive_un inst fun a => api (sr_permute a q)
  | .FH_SR_AUTOMORPH_EVAL => drv.drive_un inst fun a => api (sr_automorph_eval a (inst.k.getD 1))
  | .FH_SR_AUTOMORPH_COEFF => drv.drive_un inst fun a => api (sr_automorph_coeff a (inst.k.getD 0) q)
  | .FH_SR_ROT_AUTOMORPH_COEFF =>
    drv.drive_un inst fun a => api (sr_rot_automorph_coeff a (inst.offset.getD 0) q)
  | .FH_SR_ADDP_NI => drv.drive_pp inst sr_addp_ni
  | .FH_SR_SUBP_NI => drv.drive_pp inst sr_subp_ni
  | .FH_SR_MULP_NI => drv.drive_pp inst sr_mulp_ni
  | .FH_SR_ADDPS_NI => drv.drive_ps_ni inst sr_addps_ni
  | .FH_SR_SUBPS_NI => drv.drive_ps_ni inst sr_subps_ni
  | .FH_SR_MULPS_NI => drv.drive_ps_ni inst sr_mulps_ni
  | .FH_SR_ADDPS_COEFF_NI => drv.drive_ps_ni inst sr_addps_coeff_ni
  | .FH_SR_SUBPS_COEFF_NI => drv.drive_ps_ni inst sr_subps_coeff_ni
  | .FH_SR_NEGP_NI => drv.drive_un inst fun a => api (sr_negp_ni a)
  | .FH_SR_FT => drv.drive_un inst fun a => api (sr_ft a)
  | .FH_SR_IFT => drv.drive_un inst fun a => api (sr_ift a)
  | .FH_ILL | .unassigned _ => return false

/-- Drive one instruction. `false` where it was skipped. -/
def drive_instruction (inst : Instruction) : Throws Driven Bool := do
  match ← resolve inst with
  | none => return false
  | some q => drv.drive_opcode inst q

/-! ### Programs -/

def counted (replayed : Bool) (d : Driven) : Driven :=
  { d with stats :=
    if replayed then { d.stats with instructions_replayed := d.stats.instructions_replayed + 1 }
    else { d.stats with skipped_lines := d.stats.skipped_lines + 1 } }

/-- One turn of the loop: what the instruction throws gains its line. -/
def drive_line (inst : Instruction) : Throws Driven Unit := do
  let replayed ← tryCatch (drv.drive_instruction inst) fun what =>
    throw (str "line " ++ decimal inst.line_number ++ str ": " ++ what)
  modify (counted replayed)

def drive_lines (insts : List Instruction) : Throws Driven Unit := insts.forM drv.drive_line

/-- By name, then by the place in the ciphertext. -/
def tag_before (a b : ℕ × DriveTag) : Bool :=
  if a.2.name ≠ b.2.name then decide (a.2.name < b.2.name) else decide (a.2.poly_index < b.2.poly_index)

/-- Tag the last polynomial at each address that the caller marked, in order. -/
def finalize_outputs : Throws Driven Unit :=
  (drv.outputs.insertionSort fun a b => tag_before b a = false).forM fun (file_addr, tag) => do
    match (← get).polys file_addr with
    | none => return ()
    | some p =>
      call (api (tag_output tag.name (.POLY p)))
      modify fun d => { d with stats := { d.stats with outputs_tagged := d.stats.outputs_tagged + 1 } }

def diagnostic_text (e : ReadDiagnostic) : Str := str "line " ++ decimal e.line_number ++ str ": " ++ e.message

def absorb_diagnostics (read : ReadResult) (stats : DriveStats) : DriveStats :=
  { stats with
    errors := stats.errors ++ read.errors.map diagnostic_text ++ read.warnings.map diagnostic_text
    skipped_lines := stats.skipped_lines + read.warnings.length }

/-- The state in which the first instruction is driven. -/
def opened (read : ReadResult) (d : Driven) : Driven :=
  { d with
    stats := { absorb_diagnostics read d.stats with
      modulus_table := read.program.modulus_table
      instructions_parsed := d.stats.instructions_parsed + read.program.instructions.length }
    polys := fun _ => none }

def drive_program (read : ReadResult) : Throws Driven Bool := do
  if read.ok then
    modify (opened read)
    drv.drive_lines read.program.instructions
    drv.finalize_outputs
    return decide (0 < (← get).stats.instructions_replayed)
  else
    modify fun d => { d with stats := absorb_diagnostics read d.stats }
    return false

end Driver

end Fhetch
