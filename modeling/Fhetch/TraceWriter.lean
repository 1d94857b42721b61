/-
The trace writer (`src/trace_writer.h`, `src/trace_writer.cpp`): what a recording
accumulates, and the instruction builders both recorders put in front of it.

The modulus table is kept twice, as the vector that is written out and as a map
from values back to indices. Every operation of the class takes its mutex once,
so an operation here is one atomic step; what threads can do between two of them
is the business of `Fhetch.ModulusTable`.

An index is a `uint32_t`, cast from the size of the vector.
-/
import Fhetch.Ir
import Mathlib.Data.List.Sort
import Mathlib.Logic.Function.Basic

set_option autoImplicit false

namespace Fhetch

/-! ## State -/

/-- `TraceFormat`. -/
inductive TraceFormat where
  | Text
  | Binary
  | Both
  deriving DecidableEq, Repr

/-- The sentinel modulus of the copy and zero idioms, and its reserved index. -/
def COPY_MODULUS_VALUE : UInt64 := 0xFFFFFFFFFFFFFFFF

def COPY_MODULUS_INDEX : UInt32 := 0

structure TraceWriter where
  format_ : TraceFormat := .Text
  recording_ : Bool := false
  paused_ : Bool := false
  program_name_ : Str := []
  program_version_ : Str := []
  program_description_ : Str := []
  source_file_ : Str := []
  source_line_ : Int32 := 0
  build_timestamp_ : Str := []
  instructions_ : List Instruction := []
  annotations_ : List Annotation := []
  modulus_table_ : List UInt64 := [COPY_MODULUS_VALUE]
  /-- Modulus value to index. -/
  modulus_index_ : UInt64 → Option UInt32 :=
    Function.update (fun _ => none) COPY_MODULUS_VALUE (some COPY_MODULUS_INDEX)

namespace TraceWriter

variable (tw : TraceWriter)

/-! ## Recording -/

def set_program_info (name version description : Str) : TraceWriter :=
  { tw with program_name_ := name, program_version_ := version, program_description_ := description }

def set_source_info (file : Str) (line : Int32) (timestamp : Str) : TraceWriter :=
  { tw with source_file_ := file, source_line_ := line, build_timestamp_ := timestamp }

def set_trace_format (format : TraceFormat) : TraceWriter := { tw with format_ := format }

def start_recording : TraceWriter := { tw with recording_ := true, paused_ := false }

def stop_recording : TraceWriter := { tw with recording_ := false, paused_ := false }

def pause_recording : TraceWriter := { tw with paused_ := true }

def resume_recording : TraceWriter := { tw with paused_ := false }

/-- Whether what is emitted is kept. -/
def keeps : Bool := tw.recording_ && !tw.paused_

def register_modulus (modulus : UInt64) : UInt32 × TraceWriter :=
  match tw.modulus_index_ modulus with
  | some idx => (idx, tw)
  | none =>
    let idx := UInt32.ofNat tw.modulus_table_.length
    (idx, { tw with
      modulus_table_ := tw.modulus_table_ ++ [modulus]
      modulus_index_ := Function.update tw.modulus_index_ modulus (some idx) })

/-- The widest operand is refused past what an instruction can hold, which no
operand of an `Instruction` is. -/
def emit (instruction : Instruction) : TraceWriter :=
  if !tw.recording_ || tw.paused_ then tw
  else if kMaxAddress <
      max instruction.dest.toNat (max instruction.src1.toNat instruction.src2.toNat) then tw
  else { tw with instructions_ := tw.instructions_ ++ [instruction] }

def comment (text : Str) : TraceWriter :=
  if tw.recording_ && !tw.paused_ then
    { tw with annotations_ := tw.annotations_ ++ [⟨0, text, tw.instructions_.length⟩] }
  else tw

/-! ## Normalization -/

/-- The regular moduli, ascending. -/
def regular (table : List UInt64) : List UInt64 := (table.drop 1).insertionSort (· ≤ ·)

/-- `new_index`: the sentinel at 0, then the sorted moduli from 1 on. -/
def new_index (table : List UInt64) : UInt64 → Option UInt32 :=
  (regular table).zipIdx.foldl
    (fun index (q, i) => Function.update index q (some (UInt32.ofNat (i + 1))))
    (Function.update (fun _ => none) COPY_MODULUS_VALUE (some COPY_MODULUS_INDEX))

/-- Old index to new index. Looking up a value that is not there enters it at 0. -/
def remap (table : List UInt64) : List UInt32 :=
  table.map fun q => (new_index table q).getD 0

/-- An instruction's index, moved. A literal modulus is a prime, not an index. -/
def remap_instruction (table : List UInt64) (inst : Instruction) : Instruction :=
  match inst.modulus with
  | none => inst
  | some old_index =>
    if inst.modulus_is_literal then inst
    else match (remap table)[old_index.toNat]? with
      | some i => { inst with modulus := some i.toUInt64 }
      | none => inst

def normalize_modulus_table : TraceWriter :=
  if tw.modulus_table_.length ≤ 1 then tw
  else { tw with
    modulus_table_ := tw.modulus_table_.take 1 ++ regular tw.modulus_table_
    modulus_index_ := new_index tw.modulus_table_
    instructions_ := tw.instructions_.map (remap_instruction tw.modulus_table_) }

def clear : TraceWriter :=
  { tw with
    instructions_ := []
    annotations_ := []
    modulus_table_ := [COPY_MODULUS_VALUE]
    modulus_index_ := Function.update (fun _ => none) COPY_MODULUS_VALUE (some COPY_MODULUS_INDEX) }

/-! ## What is written -/

/-- The metadata of a trace, at the time it is written. -/
def metadata (now : UInt64) : TraceMetadata where
  program_name := tw.program_name_
  program_version := tw.program_version_
  description := tw.program_description_
  source_file := tw.source_file_
  source_line := tw.source_line_
  build_timestamp := tw.build_timestamp_
  generated_timestamp := now

/-- The program that `write` hands to the writers, after it has normalized. -/
def program (now : UInt64) : Program where
  metadata := tw.metadata now
  modulus_table := tw.modulus_table_
  instructions := tw.instructions_
  annotations := tw.annotations_

end TraceWriter

/-! ## Instruction builders

The probes and the recording API have the same ones, each in its own file. -/

/-- Register a modulus and return its table index. -/
def midx (q : UInt64) (tw : TraceWriter) : UInt32 × TraceWriter := tw.register_modulus q

/-- The two mandatory operands; the casts keep the low 32 bits of an address. -/
def ir (op : FhOpcode) (d s1 : ℕ) : Instruction :=
  { opcode := op, dest := UInt32.ofNat d, src1 := UInt32.ofNat s1 }

/-- Register a modulus and emit an instruction with its index. -/
def emit_mod (inst : Instruction) (q : UInt64) (tw : TraceWriter) : TraceWriter :=
  let (i, tw) := midx q tw
  tw.emit { inst with modulus := some i.toUInt64 }

/-- dest, src1, src2, m= -/
def emit_pp (op : FhOpcode) (d s1 s2 : ℕ) (q : UInt64) : TraceWriter → TraceWriter :=
  emit_mod { ir op d s1 with src2 := UInt32.ofNat s2 } q

/-- dest, src1, imm, m=<index> -/
def emit_ps_idx (op : FhOpcode) (d s1 : ℕ) (imm : UInt64) (modulus_index : UInt32)
    (tw : TraceWriter) : TraceWriter :=
  tw.emit { ir op d s1 with immediate := some imm, modulus := some modulus_index.toUInt64 }

/-- dest, src1, imm, m= -/
def emit_ps (op : FhOpcode) (d s1 : ℕ) (imm q : UInt64) : TraceWriter → TraceWriter :=
  emit_mod { ir op d s1 with immediate := some imm } q

/-- dest, src1, m= -/
def emit_un (op : FhOpcode) (d s1 : ℕ) (q : UInt64) : TraceWriter → TraceWriter :=
  emit_mod (ir op d s1) q

/-- dest, src1, m= [, omega=] -/
def emit_ntt (op : FhOpcode) (d s1 : ℕ) (q : UInt64) (omega : Option UInt64) :
    TraceWriter → TraceWriter :=
  emit_mod { ir op d s1 with omega := omega } q

end Fhetch
