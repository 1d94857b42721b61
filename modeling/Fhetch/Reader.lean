/-
The program reader (`src/fhetch_reader.cpp`): a `.fhetch` text, line by line, or
a `.fhex` byte stream, into one `ReadResult`.

The operand helpers of the source are `bool` functions chained by `&&`, each of
which may add a diagnostic before it fails. Here they are `Check`s: a value or
nothing, and the diagnostics either way, so that the monad's bind is the chain's
short circuit. What a helper reads besides (the line number, the size of the
modulus table) is a parameter; it cannot change the program, and that is by
construction.

Two things of the C++ library are kept. `reserve` and `push_back` throw past
`max_size()`; a read that throws has no result, `none`. And a `double` is parsed
by `strtod`, which is a parameter: nothing here depends on its rounding.
-/
import Fhetch.Encoding
import Fhetch.Lib.Text

set_option autoImplicit false

namespace Fhetch

open Lib

/-! ## Tokens -/

/-- Drop one trailing comma. -/
def strip_comma (s : Str) : Str :=
  let s := trim s
  trim (if s.getLast? = some 0x2C then s.dropLast else s)

/-- Neither blanks nor the comma are a part of a number. -/
theorem mem_strip_comma {tok : Str} {c : UInt8} (hblank : isBlank c = false) (hcomma : c ≠ 0x2C)
    (h : c ∈ tok) : c ∈ strip_comma tok := by
  rw [strip_comma]
  apply mem_trim hblank
  have htok : c ∈ trim tok := mem_trim hblank h
  split
  · rename_i hlast
    -- the last character is the comma
    obtain ⟨s, hs⟩ := List.getLast?_eq_some_iff.mp hlast
    rw [hs] at htok ⊢
    rw [List.dropLast_concat]
    exact (List.mem_append.mp htok).resolve_right fun h => hcomma (List.mem_singleton.mp h)
  · exact htok

theorem mem_of_mem_strip_comma {tok : Str} {c : UInt8} (h : c ∈ strip_comma tok) : c ∈ tok := by
  rw [strip_comma] at h
  have hmem := mem_of_mem_trim h
  split at hmem
  · exact mem_of_mem_trim (List.mem_of_mem_dropLast hmem)
  · exact mem_of_mem_trim hmem

/-- An unsigned integer in any base the text may use; a leading sign is refused. -/
def to_uint (tok : Str) : Option UInt64 :=
  match strip_comma tok with
  | [] => none
  | c :: cs =>
    if c = 0x2D || c = 0x2B then none
    else
      let r := strtoull (c :: cs)
      -- overflow, or something left after the digits
      if r.erange || !r.rest.isEmpty then none else some (UInt64.ofNat r.value)

/-- The two conversions between text and `double`. -/
structure FloatText where
  /-- The value of a text that is a number as a whole and in range. -/
  strtod : Str → Option UInt64
  to_string : UInt64 → Str

/-- Conversions that know zero alone, for texts without another `double`. -/
def zeroFloatText : FloatText where
  strtod s := if s = str "0.000000" then some 0 else none
  to_string _ := str "0.000000"

/-- A floating-point immediate. -/
def to_double (F : FloatText) (tok : Str) : Option UInt64 :=
  let s := strip_comma tok
  if s.isEmpty then none else F.strtod s

/-- `%N`. -/
def to_addr_token (tok : Str) : Option UInt64 :=
  match strip_comma tok with
  | [] => none
  | c :: cs => if c = 0x25 then to_uint cs else none

/-- `<name>N`. -/
def to_named (tok name : Str) : Option UInt64 :=
  let s := strip_comma tok
  if s.length ≤ name.length || !name.isPrefixOf s then none else to_uint (s.drop name.length)

/-- `std::tolower`, of every character. -/
def lower (s : Str) : Str := s.map fun c => if 0x41 ≤ c && c ≤ 0x5A then c + 0x20 else c

/-! ## Header comments -/

/-- The text before and after the last occurrence of a pattern. -/
def rfind (pattern : Str) : Str → Option (Str × Str)
  | [] => none
  | c :: cs =>
    match rfind pattern cs with
    | some (before, after) => some (c :: before, after)
    | none =>
      if pattern.isPrefixOf (c :: cs) then some ([], (c :: cs).drop pattern.length) else none

/-- `static_cast<int>` of a parsed value, or what was there. -/
def as_int (value : Str) (dst : Int32) : Int32 :=
  match to_uint value with
  | some v => u64ToInt v.toNat
  | none => dst

/-- `<name> v<version>`, or a name alone. -/
def absorb_program (value : Str) (m : TraceMetadata) : TraceMetadata :=
  match rfind (str " v") value with
  | none => { m with program_name := value }
  | some (name, version) => { m with program_name := name, program_version := version }

/-- `<file>:<line>`, or a file alone. -/
def absorb_source (value : Str) (m : TraceMetadata) : TraceMetadata :=
  match rfind (str ":") value with
  | none => { m with source_file := value }
  | some (file, line) =>
    match to_uint line with
    | some line => { m with source_file := file, source_line := u64ToInt line.toNat }
    -- a colon that was not a line number
    | none => { m with source_file := value }

/-- The metadata with one header field set; `none` for a key of no field. -/
def absorb_field (key value : Str) (m : TraceMetadata) : Option TraceMetadata :=
  if key = str "Program" then some (absorb_program value m)
  else if key = str "Description" then some { m with description := value }
  else if key = str "Source" then some (absorb_source value m)
  else if key = str "Build" then some { m with build_timestamp := value }
  else if key = str "Instruction Count" then
    some { m with instruction_count := as_int value m.instruction_count }
  else if key = str "Modulus Count" then
    some { m with modulus_chain_length := as_int value m.modulus_chain_length }
  else if key = str "Modulus Chain Length" then
    some { m with modulus_chain_length := as_int value m.modulus_chain_length }
  else if key = str "Generated" then
    some { m with generated_timestamp := (to_uint value).getD m.generated_timestamp }
  else if key = str "Scheme" || key = str "Crypto Scheme" then some { m with scheme := value }
  else if key = str "Ring Dimension" then
    some { m with ring_dimension := as_int value m.ring_dimension }
  else if key = str "Multiplicative Depth" then
    some { m with multiplicative_depth := as_int value m.multiplicative_depth }
  else if key = str "Security Level" then some { m with security_level := value }
  else if key = str "Trace File" then some { m with trace_file := value }
  else none

/-- `<Key>: <value>`; `none` for a comment that is no header line. -/
def absorb_metadata (body : Str) (m : TraceMetadata) : Option TraceMetadata :=
  let key := body.takeWhile (· ≠ 0x3A)
  let value := trim (body.drop (key.length + 1))
  if key.length = body.length || value.isEmpty then none
  else absorb_field (trim key) value m

/-! ## Diagnostics -/

structure ReadDiagnostic where
  line_number : ℕ := 0
  message : Str
  deriving DecidableEq

/-- What the reader has to say. -/
structure Diagnostics where
  errors : List ReadDiagnostic := []
  warnings : List ReadDiagnostic := []
  deriving DecidableEq

def Diagnostics.error (d : Diagnostics) (line : ℕ) (message : Str) : Diagnostics :=
  { d with errors := d.errors ++ [⟨line, message⟩] }

def Diagnostics.warn (d : Diagnostics) (line : ℕ) (message : Str) : Diagnostics :=
  { d with warnings := d.warnings ++ [⟨line, message⟩] }

/-- A helper that gives something or fails, and may report. -/
def Check (α : Type) := Diagnostics → Option α × Diagnostics

namespace Check

variable {α β : Type}

instance : Monad Check where
  pure a := fun d => (some a, d)
  bind x f := fun d =>
    match x d with
    | (some a, d) => f a d
    | (none, d) => (none, d)

/-- Report and go on. -/
def warn (line : ℕ) (message : Str) : Check Unit := fun d => (some (), d.warn line message)

/-- Fail without a word. -/
def fail : Check α := fun d => (none, d)

def failError (line : ℕ) (message : Str) : Check α := fun d => (none, d.error line message)

def failWarn (line : ℕ) (message : Str) : Check α := fun d => (none, d.warn line message)

theorem pure_run (a : α) (d : Diagnostics) : (pure a : Check α) d = (some a, d) := rfl

theorem bind_some {x : Check α} {f : α → Check β} {a : α} {d d' : Diagnostics}
    (h : x d = (some a, d')) : (x >>= f) d = f a d' := by
  show (match x d with | (some a, d) => f a d | (none, d) => (none, d)) = _
  rw [h]

theorem bind_none {x : Check α} {f : α → Check β} {d d' : Diagnostics} (h : x d = (none, d')) :
    (x >>= f) d = (none, d') := by
  show (match x d with | (some a, d) => f a d | (none, d) => (none, d)) = _
  rw [h]

end Check

/-! ## Operands -/

section Operands

variable (F : FloatText) (line table : ℕ)

/-- An address wide enough to lose bits is refused, not truncated. -/
def address (tok : Str) : Check UInt32 :=
  match to_addr_token tok with
  | none => Check.fail
  | some v =>
    if kMaxAddress < v.toNat then
      Check.failError line (str "address %" ++ decimal v.toNat ++ str " exceeds the " ++
        decimal kMaxAddress ++ str " an instruction can hold")
    else pure v.toUInt32

/-- `m=<N>`: an index when it fits the table, a literal prime otherwise. -/
def modulus (tok : Str) (inst : Instruction) : Check Instruction :=
  match to_named tok (str "m=") with
  | none => Check.fail
  | some v =>
    if v.toNat < table then
      if kMaxModulusIndex < v.toNat then
        Check.failError line (str "modulus index " ++ decimal v.toNat ++
          str " exceeds the encodable maximum of " ++ decimal kMaxModulusIndex)
      else pure { inst with modulus := some v, modulus_is_literal := false }
    else pure { inst with modulus := some v, modulus_is_literal := true }

/-- At least so many operands. -/
def need (opcode : FhOpcode) (args : List Str) (n : ℕ) : Check Unit :=
  if n ≤ args.length then pure ()
  else Check.failWarn line ((fh_opcode_mnemonic opcode).getD [] ++ str " needs " ++ decimal n ++
    str " operands, found " ++ decimal args.length ++ str ", line skipped")

/-- The first two operands. -/
def dest_src1 (args : List Str) (inst : Instruction) : Check Instruction := do
  let dest ← address line (args.getD 0 [])
  let src1 ← address line (args.getD 1 [])
  pure { inst with dest := dest, src1 := src1 }

/-- `modulus(args[i], inst)` among named operands: anything else is passed over,
but not once the read has an error. The flag says whether a modulus was there. -/
def try_modulus (tok : Str) (inst : Instruction) : Check (Instruction × Bool) := fun d =>
  match modulus line table tok inst d with
  | (some inst, d) => (some (inst, true), d)
  | (none, d) => if d.errors.isEmpty then (some (inst, false), d) else (none, d)

/-- The named operands of `sr_automorph_eval`, in any order. -/
def automorph_eval_operands : List Str → Instruction → Bool → Check (Instruction × Bool)
  | [], inst, saw_mod => pure (inst, saw_mod)
  | tok :: rest, inst, saw_mod =>
    match to_named tok (str "k=") with
    | some v => automorph_eval_operands rest { inst with k := some v } saw_mod
    | none =>
      match to_named tok (str "mask=") with
      | some v => automorph_eval_operands rest { inst with mask := some v } saw_mod
      | none =>
        match to_named tok (str "logn=") with
        | some v =>
          if 64 < v.toNat then do
            Check.warn line (str "logn out of range, ignored")
            automorph_eval_operands rest inst saw_mod
          else automorph_eval_operands rest { inst with logn := some v.toUInt8 } saw_mod
        | none => do
          let (inst, found) ← try_modulus line table tok inst
          automorph_eval_operands rest inst (saw_mod || found)

/-- The index of a coefficient automorphism. -/
def Instruction.setIndex (is_rot : Bool) (v : UInt64) (inst : Instruction) : Instruction :=
  if is_rot then { inst with offset := some v } else { inst with k := some v }

/-- `k=` or `offset=`. -/
def index_name (is_rot : Bool) : Str := if is_rot then str "offset=" else str "k="

/-- The named operands of the coefficient automorphisms, in any order. -/
def automorph_coeff_operands (is_rot : Bool) :
    List Str → Instruction → Bool → Bool → Check (Instruction × Bool × Bool)
  | [], inst, saw_index, saw_mod => pure (inst, saw_index, saw_mod)
  | tok :: rest, inst, saw_index, saw_mod =>
    match to_named tok (index_name is_rot) with
    | some v => automorph_coeff_operands is_rot rest (inst.setIndex is_rot v) true saw_mod
    | none => do
      let (inst, found) ← try_modulus line table tok inst
      automorph_coeff_operands is_rot rest inst saw_index (saw_mod || found)

/-- The first `omega=` that parses. -/
def find_omega (args : List Str) : Option UInt64 := args.findSome? fun tok => to_named tok (str "omega=")

/-- The operand layout comes from the opcode's shape. -/
def operands (inst : Instruction) (args : List Str) : Check Instruction :=
  match fh_operand_form inst.opcode with
  | .None => pure inst
  | .PolyPoly => do
    need line inst.opcode args 4
    let inst ← dest_src1 line args inst
    let src2 ← address line (args.getD 2 [])
    modulus line table (args.getD 3 []) { inst with src2 := src2 }
  | .PolyPolyNI => do
    need line inst.opcode args 3
    let inst ← dest_src1 line args inst
    let src2 ← address line (args.getD 2 [])
    pure { inst with src2 := src2 }
  | .PolyScalar => do
    need line inst.opcode args 4
    let inst ← dest_src1 line args inst
    match to_uint (args.getD 2 []) with
    | none => Check.failWarn line (str "malformed immediate")
    | some imm => modulus line table (args.getD 3 []) { inst with immediate := some imm }
  | .PolyScalarNI => do
    need line inst.opcode args 3
    let inst ← dest_src1 line args inst
    match to_double F (args.getD 2 []) with
    | none => Check.failWarn line (str "malformed immediate")
    | some imm => pure { inst with fp_immediate := some imm }
  | .UnaryMod => do
    need line inst.opcode args 3
    let inst ← dest_src1 line args inst
    modulus line table (args.getD 2 []) inst
  | .UnaryNoMod => do
    need line inst.opcode args 2
    dest_src1 line args inst
  | .Ntt => do
    need line inst.opcode args 3
    let inst ← dest_src1 line args inst
    let inst ← modulus line table (args.getD 2 []) inst
    match find_omega (args.drop 3) with
    | some w => pure { inst with omega := some w }
    | none => pure inst
  | .AutomorphEval => do
    need line inst.opcode args 3
    let inst ← dest_src1 line args inst
    let (inst, saw_mod) ← automorph_eval_operands line table (args.drop 2) inst false
    if saw_mod then pure inst
    else Check.failWarn line (str "sr_automorph_eval without a modulus")
  | .AutomorphCoeff => coeff false
  | .RotAutomorphCoeff => coeff true
where
  /-- The two coefficient forms, which differ in the name of their index. -/
  coeff (is_rot : Bool) : Check Instruction := do
    need line inst.opcode args 4
    let inst ← dest_src1 line args inst
    let (inst, saw_index, saw_mod) ←
      automorph_coeff_operands line table is_rot (args.drop 2) inst false false
    if !saw_index then Check.failWarn line (str "expected " ++ index_name is_rot)
    else if !saw_mod then Check.failWarn line (str "missing modulus")
    else pure inst

/-- What precedes an inline comment. -/
def instruction_body (t : Str) : Str :=
  if 0x23 ∈ t then trim (t.takeWhile (· ≠ 0x23)) else t

/-- The instruction on a line, if the line has one. -/
def instruction (t : Str) : Check Instruction :=
  let body := instruction_body t
  if body.isEmpty then Check.fail
  else
    let mnemonic := (tokens body).headD []
    match fh_opcode_from_mnemonic (lower mnemonic) with
    | none => Check.failWarn line (str "unknown opcode '" ++ mnemonic ++ str "', line skipped")
    | some opcode =>
      operands F line table { opcode := opcode, line_number := line } (tokens body).tail

end Operands

/-! ## Lines -/

structure ReadResult extends Diagnostics where
  ok : Bool := false
  program : Program := {}

structure Reader where
  line_ : ℕ := 0
  result_ : ReadResult := {}

namespace Reader

def error (r : Reader) (message : Str) : Reader :=
  { r with result_ := { r.result_ with toDiagnostics := r.result_.toDiagnostics.error r.line_ message } }

/-- `std::vector<uint64_t>::max_size()`. -/
def max_size : ℕ := 2 ^ 60 - 1

/-- The labels the writer puts down itself. -/
def labels : List Str := [str "Niobium FHETCH Trace", str "Modulus Table", str "Instructions"]

/-- A comment the writer would not produce again: neither empty, nor a rule, nor
a label, nor a header line. -/
def comment (r : Reader) (t : Str) : Reader :=
  let body := trim (t.drop 1)
  if body.isEmpty || body.all (· = 0x3D) || body ∈ labels then r
  else match absorb_metadata body r.result_.program.metadata with
    | some m => { r with result_.program.metadata := m }
    | none =>
      let note : Annotation :=
        ⟨r.line_, body, r.result_.program.instructions.length⟩
      { r with result_.program.annotations := r.result_.program.annotations ++ [note] }

def modulus_count (r : Reader) (t : Str) : Option Reader :=
  match to_uint (t.drop (str "modulus_count").length) with
  | none => some (r.error (str "malformed modulus_count"))
  | some n => if max_size < n.toNat then none else some r

def modulus_entry (r : Reader) (t : Str) : Option Reader :=
  let close := t.idxOf 0x5D
  let space := t.idxOf 0x20
  let table := r.result_.program.modulus_table
  -- a character that is not there is found at the end
  if close = t.length || space = t.length || space < close then
    some (r.error (str "malformed modulus table entry"))
  else
    match to_uint ((t.take close).drop 2), to_uint (trim (t.drop (space + 1))) with
    | some index, some value =>
      if index.toNat ≠ table.length then
        some (r.error (str "modulus table entry out of order: expected index " ++
          decimal table.length ++ str ", got " ++ decimal index.toNat))
      else if max_size ≤ table.length then none
      else some { r with result_.program.modulus_table := table ++ [value] }
    | _, _ => some (r.error (str "malformed modulus table entry"))

/-- What a trimmed line is taken for. -/
inductive LineKind where
  | blank
  | comment
  | modulusCount
  | modulusEntry
  | instruction
  deriving DecidableEq

def lineKind (t : Str) : LineKind :=
  if t.isEmpty then .blank
  else if t.head? = some 0x23 then .comment
  else if (str "modulus_count").isPrefixOf t then .modulusCount
  else if t.length > 2 && (str "m[").isPrefixOf t then .modulusEntry
  else .instruction

/-- The instruction of a line, at the program so far. -/
def instruction_line (F : FloatText) (r : Reader) (t : Str) : Reader :=
  let p := r.result_.program
  match instruction F r.line_ p.modulus_table.length t r.result_.toDiagnostics with
  | (some inst, d) =>
    { r with result_ := { r.result_ with
        toDiagnostics := d
        program := { p with instructions := p.instructions ++ [inst] } } }
  | (none, d) => { r with result_ := { r.result_ with toDiagnostics := d } }

/-- The body of the loop of `run`. -/
def read_line (F : FloatText) (r : Reader) (line : Str) : Option Reader :=
  let r := { r with line_ := r.line_ + 1 }
  let t := trim line
  match lineKind t with
  | .blank => some r
  | .comment => some (r.comment t)
  | .modulusCount => r.modulus_count t
  | .modulusEntry => r.modulus_entry t
  | .instruction => some (r.instruction_line F t)

/-- Whatever the header claimed, the table actually read is the truth. -/
def finish (r : Reader) : ReadResult :=
  { r.result_ with
    ok := r.result_.errors.isEmpty
    program.metadata.modulus_chain := r.result_.program.modulus_table }

/-- The lines read so far. -/
def read_lines (F : FloatText) (r : Reader) (lines : List Str) : Option Reader :=
  lines.foldlM (read_line F) r

end Reader

/-- Parse a `.fhetch` trace; `none` when a container outgrows its largest size. -/
def read_fhetch_text (F : FloatText) (text : Str) : Option ReadResult :=
  (Reader.read_lines F {} (getlines text)).map Reader.finish

/-! ## The binary form -/

def fhex_decode_error_string : FhexDecodeError → Str
  | .BadMagic => str "bad magic (not a .fhex file)"
  | .UnsupportedVersion => str "unsupported format version"
  | .Truncated => str "truncated"
  | .Malformed => str "malformed"
  | .UnknownOpcode => str "unknown opcode"
  | .MissingSpec => str "names neither a FHETCH spec version nor a spec date"
  | .TooLarge => str "implausibly large"

/-- The program a decoded container gives. The instructions are numbered from 1. -/
def FhexProgram.toProgram (p : FhexProgram) : Program where
  metadata := p.metadata
  modulus_table := p.modulus_table
  instructions := p.records.mapIdx fun i record =>
    { from_record record with line_number := i + 1 }

/-- Decode a `.fhex` byte stream; `none` when the decoder reads out of bounds. -/
def read_fhetch_binary (bytes : Bytes) : Option ReadResult :=
  match decode_fhetch_program bytes with
  | .error (.failed reason) =>
    some { errors := [{ message := fhex_decode_error_string reason }] }
  | .error .outOfBounds => none
  | .ok decoded => some { ok := true, program := decoded.toProgram }

/-- Read a program from a file that cannot be opened or holds these bytes. The
form is detected from the content. -/
def read_fhetch_file (F : FloatText) (path : Str) : Option Bytes → Option ReadResult
  | none => some { errors := [{ message := str "cannot open " ++ path }] }
  | some data =>
    if kFhexMagic.isPrefixOf data then read_fhetch_binary data else read_fhetch_text F data

end Fhetch
