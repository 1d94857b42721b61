/-
The binary container, `.fhex` (`include/niobium/fhetch_encoding.h`,
`src/fhetch_encoding.cpp`): the metadata entries, the modulus table, the
varint-packed records, and the conversion between records and instructions.

The decoder is a function to `Except Stop`. `Stop.failed` carries the reason
the source reports; `Stop.outOfBounds` is a read the source does not guard and
that falls outside the bytes it was given. Scalars of the wire are natural
numbers; the fields of a record or of the metadata have the widths of the
source, and the casts between the two are written where the source casts.
-/
import Fhetch.Ir
import Fhetch.Lib.Bytes

set_option autoImplicit false

namespace Fhetch

open Lib

/-! ## Constants -/

/-- The bytes `"NBFH"`. -/
def kFhexMagic : List UInt8 := [0x4E, 0x42, 0x46, 0x48]

def kFhexVersion : ℕ := 1

def kFhexPrologueBytes : ℕ := 24

def kFhexAlign : ℕ := 8

def kFhexMaxFileBytes : ℕ := 2 ^ 30

def kFhexMaxVarintBytes : ℕ := 10

/-- Round up to the alignment. -/
def fhex_align_up (n : ℕ) : ℕ := (n + kFhexAlign - 1) / kFhexAlign * kFhexAlign

/-! ## The specification a program is written in -/

structure FhetchVersion where
  major_version : UInt16 := 0
  minor_version : UInt16 := 0
  patch_version : UInt16 := 0
  deriving DecidableEq

def FhetchVersion.known (v : FhetchVersion) : Bool :=
  v.major_version ≠ 0 || v.minor_version ≠ 0 || v.patch_version ≠ 0

structure FhetchSpecDate where
  year : UInt16 := 0
  month : UInt8 := 0
  day : UInt8 := 0
  deriving DecidableEq

/-- Year 0 is not a date any revision could bear. -/
def FhetchSpecDate.known (d : FhetchSpecDate) : Bool := d.year ≠ 0

structure FhetchSpec where
  version : FhetchVersion := {}
  date : FhetchSpecDate := {}
  deriving DecidableEq

def FhetchSpec.valid (s : FhetchSpec) : Bool := s.version.known || s.date.known

/-- The revision this implementation targets. -/
def kFhetchSpec : FhetchSpec := { date := ⟨2025, 5, 19⟩ }

def fhex_pack_version (v : FhetchVersion) : ℕ :=
  v.major_version.toNat <<< 32 ||| v.minor_version.toNat <<< 16 ||| v.patch_version.toNat

def fhex_unpack_version (packed : ℕ) : FhetchVersion where
  major_version := UInt16.ofNat (packed >>> 32 &&& 0xFFFF)
  minor_version := UInt16.ofNat (packed >>> 16 &&& 0xFFFF)
  patch_version := UInt16.ofNat (packed &&& 0xFFFF)

/-- `YYYYMMDD`. -/
def fhex_pack_spec_date (d : FhetchSpecDate) : ℕ :=
  d.year.toNat * 10000 + d.month.toNat * 100 + d.day.toNat

def fhex_unpack_spec_date (packed : ℕ) : FhetchSpecDate where
  year := UInt16.ofNat (packed / 10000)
  month := UInt8.ofNat (packed / 100 % 100)
  day := UInt8.ofNat (packed % 100)

/-! ## Records -/

/-- `FhRecordFlags`. -/
def FH_FLAG_HAS_MOD : UInt8 := 1
def FH_FLAG_MOD_LITERAL : UInt8 := 2
def FH_FLAG_HAS_IMM : UInt8 := 4
def FH_FLAG_HAS_SRC2 : UInt8 := 8
def FH_FLAG_HAS_AUX : UInt8 := 16
def FH_FLAG_HAS_LOGN : UInt8 := 32

structure FhetchRecord where
  opcode : UInt8 := 0
  flags : UInt8 := 0
  logn : UInt8 := 0
  dst : UInt32 := 0
  src1 : UInt32 := 0
  src2 : UInt32 := 0
  modulus : UInt64 := 0
  imm : UInt64 := 0
  aux : UInt64 := 0
  deriving DecidableEq

/-- `(record.flags & flag) != 0`. -/
def FhetchRecord.has (r : FhetchRecord) (flag : UInt8) : Bool := r.flags &&& flag ≠ 0

/-- Whether the opcode of a record carries `dst` and `src1`. -/
def FhetchRecord.hasOperands (r : FhetchRecord) : Bool :=
  fh_opcode_has_operands (FhOpcode.ofByte r.opcode)

/-- The operand of the multiplexed `imm` field. -/
def Instruction.wireImm (inst : Instruction) : Option UInt64 :=
  inst.fp_immediate.or (inst.immediate.or (inst.k.or inst.offset))

/-- The operand of the multiplexed `aux` field. -/
def Instruction.wireAux (inst : Instruction) : Option UInt64 := inst.omega.or inst.mask

/-- `flags |= flag` when an operand is there. -/
def flagIf (present : Bool) (flag : UInt8) : UInt8 := if present then flag else 0

def to_record (inst : Instruction) : FhetchRecord :=
  let src2 := fh_operand_form inst.opcode = .PolyPoly || fh_operand_form inst.opcode = .PolyPolyNI
  { opcode := inst.opcode.toByte
    flags := flagIf src2 FH_FLAG_HAS_SRC2 ||| flagIf inst.modulus.isSome FH_FLAG_HAS_MOD |||
      flagIf (inst.modulus.isSome && inst.modulus_is_literal) FH_FLAG_MOD_LITERAL |||
      flagIf inst.wireImm.isSome FH_FLAG_HAS_IMM ||| flagIf inst.wireAux.isSome FH_FLAG_HAS_AUX |||
      flagIf inst.logn.isSome FH_FLAG_HAS_LOGN
    logn := inst.logn.getD 0
    dst := inst.dest
    src1 := inst.src1
    src2 := if src2 then inst.src2 else 0
    modulus := inst.modulus.getD 0
    imm := inst.wireImm.getD 0
    aux := inst.wireAux.getD 0 }

def from_record (record : FhetchRecord) : Instruction :=
  let opcode := FhOpcode.ofByte record.opcode
  let form := fh_operand_form opcode
  let imm := if record.has FH_FLAG_HAS_IMM then some record.imm else none
  let aux := if record.has FH_FLAG_HAS_AUX then some record.aux else none
  { opcode := opcode
    dest := record.dst
    src1 := record.src1
    src2 := if record.has FH_FLAG_HAS_SRC2 then record.src2 else 0
    modulus := if record.has FH_FLAG_HAS_MOD then some record.modulus else none
    modulus_is_literal := record.has FH_FLAG_HAS_MOD && record.has FH_FLAG_MOD_LITERAL
    k := if form = .AutomorphEval ∨ form = .AutomorphCoeff then imm else none
    offset := if form = .RotAutomorphCoeff then imm else none
    fp_immediate := if form = .PolyScalarNI then imm else none
    immediate :=
      if form = .AutomorphEval ∨ form = .AutomorphCoeff ∨ form = .RotAutomorphCoeff ∨
        form = .PolyScalarNI then none else imm
    omega := if form = .Ntt then aux else none
    mask := if form = .Ntt then none else aux
    logn := if record.has FH_FLAG_HAS_LOGN then some record.logn else none }

/-! ## Primitives -/

abbrev Bytes := List UInt8

def put_scalar (out : Bytes) (width value : ℕ) : Bytes := out ++ leBytes width value

/-- Zero-fill to the next boundary. -/
def pad_to_align (out : Bytes) : Bytes :=
  out ++ List.replicate ((kFhexAlign - out.length % kFhexAlign) % kFhexAlign) 0

def put_varint (out : Bytes) (value : ℕ) : Bytes := out ++ leb128 (kFhexMaxVarintBytes - 1) value

/-- A varint and the offset past it; `none` when it runs past the end or does
not fit 64 bits. -/
def get_varint (bytes : Bytes) (offset : ℕ) : Option (ℕ × ℕ) :=
  readLeb128 64 bytes kFhexMaxVarintBytes 0 offset 0

/-- A varint that must fit 32 bits. -/
def get_varint_u32 (bytes : Bytes) (offset : ℕ) : Option (ℕ × ℕ) :=
  (get_varint bytes offset).bind fun r => if 0xFFFFFFFF < r.1 then none else some r

/-! ## Metadata -/

inductive FhMetaTag where
  | ProgramName
  | TraceFile
  | Description
  | SourceFile
  | BuildTimestamp
  | Scheme
  | SecurityLevel
  | SourceLine
  | InstructionCount
  | GeneratedTimestamp
  | RingDimension
  | MultiplicativeDepth
  | ModulusChainLength
  | FhetchSpecVersion
  | FhetchSpecDateTag
  | ProgramVersion
  deriving DecidableEq, Repr

/-- The tags by value, the first being 1. -/
def FhMetaTag.all : List FhMetaTag :=
  [ProgramName, TraceFile, Description, SourceFile, BuildTimestamp, Scheme, SecurityLevel,
    SourceLine, InstructionCount, GeneratedTimestamp, RingDimension, MultiplicativeDepth,
    ModulusChainLength, FhetchSpecVersion, FhetchSpecDateTag, ProgramVersion]

def FhMetaTag.value (tag : FhMetaTag) : ℕ := all.idxOf tag + 1

/-- `static_cast<FhMetaTag>(tag)`, `none` for a value the switch has no case
for. -/
def FhMetaTag.ofValue (value : ℕ) : Option FhMetaTag :=
  if value = 0 then none else all[value - 1]?

def put_meta_entry (out : Bytes) (tag : FhMetaTag) (payload : Bytes) : Bytes :=
  let out := put_scalar out 2 tag.value
  let out := put_scalar out 2 0
  let out := put_scalar out 4 payload.length
  pad_to_align (out ++ payload)

def put_meta_string (tag : FhMetaTag) (value : Str) (out : Bytes) : Bytes :=
  if value.isEmpty then out else put_meta_entry out tag value

def put_meta_u64 (tag : FhMetaTag) (value : ℕ) (out : Bytes) : Bytes :=
  if value = 0 then out else put_meta_entry out tag (leBytes 8 value)

/-- `static_cast<uint64_t>(int)`. -/
def intToU64 (x : Int32) : ℕ := x.toInt64.toUInt64.toNat

/-- `static_cast<int>(uint64_t)`. -/
def u64ToInt (value : ℕ) : Int32 := (UInt64.ofNat value).toInt64.toInt32

def build_metadata (metadata : TraceMetadata) (spec : FhetchSpec) : Bytes :=
  let out := if spec.version.known then
    put_meta_u64 .FhetchSpecVersion (fhex_pack_version spec.version) [] else []
  let out := if spec.date.known then
    put_meta_u64 .FhetchSpecDateTag (fhex_pack_spec_date spec.date) out else out
  let out := put_meta_string .ProgramName metadata.program_name out
  let out := put_meta_string .ProgramVersion metadata.program_version out
  let out := put_meta_string .TraceFile metadata.trace_file out
  let out := put_meta_string .Description metadata.description out
  let out := put_meta_string .SourceFile metadata.source_file out
  let out := put_meta_string .BuildTimestamp metadata.build_timestamp out
  let out := put_meta_string .Scheme metadata.scheme out
  let out := put_meta_string .SecurityLevel metadata.security_level out
  let out := put_meta_u64 .SourceLine (intToU64 metadata.source_line) out
  let out := put_meta_u64 .InstructionCount (intToU64 metadata.instruction_count) out
  let out := put_meta_u64 .GeneratedTimestamp metadata.generated_timestamp.toNat out
  let out := put_meta_u64 .RingDimension (intToU64 metadata.ring_dimension) out
  let out := put_meta_u64 .MultiplicativeDepth (intToU64 metadata.multiplicative_depth) out
  put_meta_u64 .ModulusChainLength (intToU64 metadata.modulus_chain_length) out

inductive FhexDecodeError where
  | BadMagic
  | UnsupportedVersion
  | Truncated
  | Malformed
  | UnknownOpcode
  | MissingSpec
  | TooLarge
  deriving DecidableEq, Repr

/-- Why a decode does not give a program. -/
inductive Stop where
  | failed (reason : FhexDecodeError)
  | outOfBounds
  deriving DecidableEq, Repr

/-- A read the source has not guarded. -/
def unguarded {α : Type} (x : Option α) : Except Stop α :=
  match x with
  | some a => .ok a
  | none => .error .outOfBounds

/-- A read that reports running out of bytes. -/
def orTruncated {α : Type} (x : Option α) : Except Stop α :=
  match x with
  | some a => .ok a
  | none => .error (.failed .Truncated)

/-- What the entries fill in. -/
abbrev MetaState := TraceMetadata × FhetchSpec

/-- `as_u64`, after the width check of every numeric tag. -/
def numeric_payload (md : Bytes) (length payload : ℕ) : Except Stop ℕ :=
  if length = 8 then unguarded (readLe 8 md payload) else .error (.failed .Malformed)

/-- `as_string`. -/
def string_payload (md : Bytes) (length payload : ℕ) : Except Stop Str :=
  if payload + length ≤ md.length then .ok ((md.drop payload).take length) else .error .outOfBounds

/-- The `switch` over the tags. -/
def parse_entry (md : Bytes) (tag length payload : ℕ) (st : MetaState) : Except Stop MetaState :=
  let (m, spec) := st
  match FhMetaTag.ofValue tag with
  | some .ProgramName => do
    let text ← string_payload md length payload
    .ok ({ m with program_name := text }, spec)
  | some .ProgramVersion => do
    let text ← string_payload md length payload
    .ok ({ m with program_version := text }, spec)
  | some .TraceFile => do
    let text ← string_payload md length payload
    .ok ({ m with trace_file := text }, spec)
  | some .Description => do
    let text ← string_payload md length payload
    .ok ({ m with description := text }, spec)
  | some .SourceFile => do
    let text ← string_payload md length payload
    .ok ({ m with source_file := text }, spec)
  | some .BuildTimestamp => do
    let text ← string_payload md length payload
    .ok ({ m with build_timestamp := text }, spec)
  | some .Scheme => do
    let text ← string_payload md length payload
    .ok ({ m with scheme := text }, spec)
  | some .SecurityLevel => do
    let text ← string_payload md length payload
    .ok ({ m with security_level := text }, spec)
  | some .SourceLine => do
    let v ← numeric_payload md length payload
    .ok ({ m with source_line := u64ToInt v }, spec)
  | some .InstructionCount => do
    let v ← numeric_payload md length payload
    .ok ({ m with instruction_count := u64ToInt v }, spec)
  | some .GeneratedTimestamp => do
    let v ← numeric_payload md length payload
    .ok ({ m with generated_timestamp := UInt64.ofNat v }, spec)
  | some .RingDimension => do
    let v ← numeric_payload md length payload
    .ok ({ m with ring_dimension := u64ToInt v }, spec)
  | some .MultiplicativeDepth => do
    let v ← numeric_payload md length payload
    .ok ({ m with multiplicative_depth := u64ToInt v }, spec)
  | some .ModulusChainLength => do
    let v ← numeric_payload md length payload
    .ok ({ m with modulus_chain_length := u64ToInt v }, spec)
  | some .FhetchSpecVersion => do
    let v ← numeric_payload md length payload
    .ok (m, { spec with version := fhex_unpack_version v })
  | some .FhetchSpecDateTag => do
    let v ← numeric_payload md length payload
    .ok (m, { spec with date := fhex_unpack_spec_date v })
  | none => .ok (m, spec)

/-- The loop of `parse_metadata`. An entry takes at least eight bytes, so a
section's length is fuel enough for it. -/
def parse_entries (md : Bytes) : ℕ → ℕ → MetaState → Except Stop MetaState
  | 0, _, st => .ok st
  | fuel + 1, offset, st =>
    if offset + 8 ≤ md.length then do
      let tag ← unguarded (readLe 2 md offset)
      let length ← unguarded (readLe 4 md (offset + 4))
      let payload := offset + 8
      if md.length < payload + length then .error (.failed .Malformed)
      else do
        let st ← parse_entry md tag length payload st
        parse_entries md fuel (payload + fhex_align_up length) st
    else .ok st

def parse_metadata (md : Bytes) : Except Stop MetaState := parse_entries md md.length 0 ({}, {})

/-! ## Encoding -/

/-- A field written when its flag is set. -/
def put_field (present : Bool) (value : ℕ) (out : Bytes) : Bytes :=
  if present then put_varint out value else out

/-- One record of `encode_fhetch_program`. -/
def put_record (out : Bytes) (r : FhetchRecord) : Bytes :=
  let out := put_scalar out 1 r.opcode.toNat
  let out := put_scalar out 1 r.flags.toNat
  let out := if r.has FH_FLAG_HAS_LOGN then put_scalar out 1 r.logn.toNat else out
  let out := put_field r.hasOperands r.dst.toNat out
  let out := put_field r.hasOperands r.src1.toNat out
  let out := put_field (r.has FH_FLAG_HAS_SRC2) r.src2.toNat out
  let out := put_field (r.has FH_FLAG_HAS_MOD) r.modulus.toNat out
  let out := put_field (r.has FH_FLAG_HAS_IMM) r.imm.toNat out
  put_field (r.has FH_FLAG_HAS_AUX) r.aux.toNat out

/-- `encode_fhetch_program`; `none` is the exception for a specification that
names no revision. The counts are cast to their fields' widths. -/
def encode_fhetch_program (metadata : TraceMetadata) (modulus_table : List UInt64)
    (records : List FhetchRecord) (spec : FhetchSpec) : Option Bytes :=
  if !spec.valid then none
  else
    let md := build_metadata metadata spec
    let out := kFhexMagic
    let out := put_scalar out 2 kFhexVersion
    let out := put_scalar out 2 0
    let out := put_scalar out 4 md.length
    let out := put_scalar out 4 modulus_table.length
    let out := put_scalar out 8 records.length
    let out := out ++ md
    let out := modulus_table.foldl (fun out q => put_scalar out 8 q.toNat) out
    some (records.foldl put_record out)

/-! ## Decoding -/

structure FhexProgram where
  metadata : TraceMetadata
  format_version : ℕ
  spec : FhetchSpec
  modulus_table : List UInt64
  records : List FhetchRecord
  deriving DecidableEq

/-- A field read when its flag is set, with the offset past it. -/
def get_field (present : Bool) (get : ℕ → Option (ℕ × ℕ)) (offset : ℕ) : Except Stop (ℕ × ℕ) :=
  if present then orTruncated (get offset) else .ok (0, offset)

/-- One record at an offset, with the offset past it. -/
def get_record (bytes : Bytes) (offset : ℕ) : Except Stop (FhetchRecord × ℕ) :=
  if bytes.length < offset + 2 then .error (.failed .Truncated)
  else do
    let opcode ← unguarded bytes[offset]?
    let flags ← unguarded bytes[offset + 1]?
    let r : FhetchRecord := { opcode := opcode, flags := flags }
    let (logn, offset) ← get_field (r.has FH_FLAG_HAS_LOGN)
      (fun offset => bytes[offset]?.map fun b => (b.toNat, offset + 1)) (offset + 2)
    let (dst, offset) ← get_field r.hasOperands (get_varint_u32 bytes) offset
    let (src1, offset) ← get_field r.hasOperands (get_varint_u32 bytes) offset
    let (src2, offset) ← get_field (r.has FH_FLAG_HAS_SRC2) (get_varint_u32 bytes) offset
    let (modulus, offset) ← get_field (r.has FH_FLAG_HAS_MOD) (get_varint bytes) offset
    let (imm, offset) ← get_field (r.has FH_FLAG_HAS_IMM) (get_varint bytes) offset
    let (aux, offset) ← get_field (r.has FH_FLAG_HAS_AUX) (get_varint bytes) offset
    .ok ({ r with
      logn := UInt8.ofNat logn, dst := UInt32.ofNat dst, src1 := UInt32.ofNat src1,
      src2 := UInt32.ofNat src2, modulus := UInt64.ofNat modulus, imm := UInt64.ofNat imm,
      aux := UInt64.ofNat aux }, offset)

/-- The record stream. -/
def get_records (bytes : Bytes) : ℕ → ℕ → Except Stop (List FhetchRecord)
  | 0, _ => .ok []
  | count + 1, offset => do
    let (r, offset) ← get_record bytes offset
    let rest ← get_records bytes count offset
    .ok (r :: rest)

/-- The modulus table. -/
def get_table (bytes : Bytes) : ℕ → ℕ → Except Stop (List UInt64)
  | 0, _ => .ok []
  | count + 1, offset => do
    let q ← unguarded (readLe 8 bytes offset)
    let rest ← get_table bytes count (offset + 8)
    .ok (UInt64.ofNat q :: rest)

/-- The fields of the prologue after the version. -/
structure FhexPrologue where
  metadata_bytes : ℕ
  modulus_count : ℕ
  instruction_count : ℕ

def get_prologue (bytes : Bytes) : Except Stop FhexPrologue :=
  if bytes.length < kFhexPrologueBytes then .error (.failed .BadMagic)
  else if bytes.take 4 ≠ kFhexMagic then .error (.failed .BadMagic)
  else do
    let version ← unguarded (readLe 2 bytes 4)
    if version ≠ kFhexVersion then .error (.failed .UnsupportedVersion)
    else do
      let metadata_bytes ← unguarded (readLe 4 bytes 8)
      let modulus_count ← unguarded (readLe 4 bytes 12)
      let instruction_count ← unguarded (readLe 8 bytes 16)
      .ok ⟨metadata_bytes, modulus_count, instruction_count⟩

/-- The section bounds, each against what the sections before it leave. A
record takes at least two bytes. -/
def check_sections (size : ℕ) (p : FhexPrologue) : Except Stop Unit :=
  let modulus_offset := kFhexPrologueBytes + p.metadata_bytes
  let record_offset := modulus_offset + p.modulus_count * 8
  if p.metadata_bytes % kFhexAlign ≠ 0 then .error (.failed .Malformed)
  else if size - kFhexPrologueBytes < p.metadata_bytes then .error (.failed .Truncated)
  else if size - modulus_offset < p.modulus_count * 8 then .error (.failed .Truncated)
  else if (size - record_offset) / 2 < p.instruction_count then .error (.failed .Truncated)
  else .ok ()

def decode_fhetch_program (bytes : Bytes) : Except Stop FhexProgram := do
  let p ← get_prologue bytes
  check_sections bytes.length p
  let modulus_offset := kFhexPrologueBytes + p.metadata_bytes
  let (metadata, spec) ← parse_metadata ((bytes.drop kFhexPrologueBytes).take p.metadata_bytes)
  if !spec.valid then .error (.failed .MissingSpec)
  else do
    let modulus_table ← get_table bytes p.modulus_count modulus_offset
    let records ← get_records bytes p.instruction_count (modulus_offset + p.modulus_count * 8)
    .ok { metadata := { metadata with modulus_chain := modulus_table },
          format_version := kFhexVersion, spec := spec, modulus_table := modulus_table,
          records := records }

end Fhetch
