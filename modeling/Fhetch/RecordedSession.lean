/-
A recording session of the FHETCH API, and the two files written for it.

Every integer operation of the API comes down to one instruction builder: it
registers a modulus and emits one instruction of its opcode's shape. So a session
is a run of the trace writer of `Fhetch.RecordingRuns`, and the table invariant
holds of it. What the session adds is the shape of what is recorded.

The two readers then disagree about one thing. The binary form has room for any
index, and the text reader takes an index only as far as the ISA can encode it.
Nothing bounds what the recorder registers.
-/
import Fhetch.RecordingRuns
import Fhetch.TextRoundTrip
import Fhetch.RecordForms
import Fhetch.Validation

set_option autoImplicit false

namespace Fhetch

open Lib Runs

/-! ## The operations -/

/-- The recording calls of the API, by the builder they use. The operations of one
builder differ in their opcode; which opcodes those are is their shape. -/
inductive ApiOp where
  /-- `sr_addp`, `sr_subp`, `sr_mulp`. -/
  | pp (op : FhOpcode) (form : fh_operand_form op = .PolyPoly) (d s1 s2 : ℕ) (q : UInt64)
  /-- `sr_addps`, `sr_subps`, `sr_mulps` and the two `_coeff` forms. -/
  | ps (op : FhOpcode) (form : fh_operand_form op = .PolyScalar) (d s1 : ℕ) (imm q : UInt64)
  /-- `sr_negp`, `sr_permute`. -/
  | un (op : FhOpcode) (form : fh_operand_form op = .UnaryMod) (d s1 : ℕ) (q : UInt64)
  /-- `sr_ntt`, `sr_intt`, with a root or without. -/
  | ntt (op : FhOpcode) (form : fh_operand_form op = .Ntt) (d s1 : ℕ) (q : UInt64)
    (omega : Option UInt64)
  | sr_automorph_eval (d s1 : ℕ) (k : UInt64)
  | sr_automorph_coeff (d s1 : ℕ) (k q : UInt64)
  | sr_rot_automorph_coeff (d s1 : ℕ) (offset q : UInt64)
  | halt
  /-- The comment that `tag_output` leaves for one polynomial. -/
  | tag_output (name : Str) (address : ℕ)
  | pause
  | resume

namespace ApiOp

/-- What a call does to the trace writer. -/
def record : ApiOp → TraceWriter → TraceWriter
  | pp op _ d s1 s2 q => emit_pp op d s1 s2 q
  | ps op _ d s1 imm q => emit_ps op d s1 imm q
  | un op _ d s1 q => emit_un op d s1 q
  | ntt op _ d s1 q omega => emit_ntt op d s1 q omega
  | sr_automorph_eval d s1 k =>
    emit_mod { ir .FH_SR_AUTOMORPH_EVAL d s1 with k := some k } COPY_MODULUS_VALUE
  | sr_automorph_coeff d s1 k q => emit_mod { ir .FH_SR_AUTOMORPH_COEFF d s1 with k := some k } q
  | sr_rot_automorph_coeff d s1 offset q =>
    emit_mod { ir .FH_SR_ROT_AUTOMORPH_COEFF d s1 with offset := some offset } q
  | halt => fun tw => tw.emit (ir .FH_HALT 0 0)
  | tag_output name address => fun tw => tw.comment (str "output " ++ name ++ str " %" ++ decimal address)
  | pause => TraceWriter.pause_recording
  | resume => TraceWriter.resume_recording

/-- The operation of the writer that a call is. -/
def tableOp : ApiOp → TableOp
  | pp op _ d s1 s2 q => .register_emit { ir op d s1 with src2 := UInt32.ofNat s2 } q
  | ps op _ d s1 imm q => .register_emit { ir op d s1 with immediate := some imm } q
  | un op _ d s1 q => .register_emit (ir op d s1) q
  | ntt op _ d s1 q omega => .register_emit { ir op d s1 with omega := omega } q
  | sr_automorph_eval d s1 k =>
    .register_emit { ir .FH_SR_AUTOMORPH_EVAL d s1 with k := some k } COPY_MODULUS_VALUE
  | sr_automorph_coeff d s1 k q => .register_emit { ir .FH_SR_AUTOMORPH_COEFF d s1 with k := some k } q
  | sr_rot_automorph_coeff d s1 offset q =>
    .register_emit { ir .FH_SR_ROT_AUTOMORPH_COEFF d s1 with offset := some offset } q
  | halt => .emit_bare (ir .FH_HALT 0 0)
  | tag_output name address => .comment (str "output " ++ name ++ str " %" ++ decimal address)
  | pause => .pause
  | resume => .resume

/-- **A session is a run of the writer.** -/
theorem record_eq_step (op : ApiOp) (r : Recording) : op.record r.writer = (r.step op.tableOp).writer := by
  cases op <;> rfl

end ApiOp

/-- What is recorded after `start`, in a writer that carries the program info. -/
def session (tw : TraceWriter) (ops : List ApiOp) : TraceWriter :=
  ops.foldl (fun tw op => op.record tw) tw.clear.start_recording

/-! ## The shape of what is recorded -/

/-- An instruction as the builders make them: the fields of its shape are there
and no others, and a modulus is an index. -/
structure Built (inst : Instruction) : Prop where
  row : (fh_opcode_info inst.opcode).isSome
  integer : fh_operand_form inst.opcode ≠ .PolyScalarNI
  shaped : inst.Shaped
  modulus : (fh_operand_form inst.opcode).hasModulus → inst.modulus.isSome
  index : inst.modulus_is_literal = false
  immediate : fh_operand_form inst.opcode = .PolyScalar → inst.immediate.isSome
  k : fh_operand_form inst.opcode = .AutomorphCoeff → inst.k.isSome
  offset : fh_operand_form inst.opcode = .RotAutomorphCoeff → inst.offset.isSome
  unread : inst.line_number = 0

/-- And as the API makes them: it has no `logn` to give. -/
structure ApiBuilt (inst : Instruction) : Prop extends Built inst where
  logn : inst.logn = none

/-- Another index in it. -/
theorem Built.reindex {inst : Instruction} (h : Built inst) {m : Option UInt64}
    (hm : m.isSome = inst.modulus.isSome) : Built { inst with modulus := m } := by
  refine { h with
    modulus := fun hmod => hm.trans (h.modulus hmod)
    shaped := { h.shaped with modulus := fun hmod => ⟨?_, h.index⟩ } }
  have hnone := (h.shaped.modulus hmod).1
  rw [hnone] at hm
  exact Option.not_isSome_iff_eq_none.mp (by rw [hm]; decide)

theorem built_of_form {op : FhOpcode} {form : OperandForm} (hform : fh_operand_form op = form)
    (h : form ≠ .None) : (fh_opcode_info op).isSome := by
  unfold fh_operand_form at hform
  split at hform
  · rename_i hinfo
    rw [hinfo]
    rfl
  · exact absurd hform.symm h

/-- Every recorded instruction is one the builders make. -/
def TraceWriter.AllBuilt (tw : TraceWriter) : Prop := ∀ inst ∈ tw.instructions_, Built inst

def TraceWriter.AllApiBuilt (tw : TraceWriter) : Prop := ∀ inst ∈ tw.instructions_, ApiBuilt inst

section AllBuilt

variable {tw : TraceWriter} {inst : Instruction}

theorem TraceWriter.AllApiBuilt.emit (h : tw.AllApiBuilt) (hinst : ApiBuilt inst) :
    (tw.emit inst).AllApiBuilt := by
  rw [TraceWriter.emit_eq]
  split
  · exact List.forall_mem_append.mpr ⟨h, List.forall_mem_singleton.mpr hinst⟩
  · exact h

theorem TraceWriter.AllApiBuilt.emit_mod (h : tw.AllApiBuilt) (q : UInt64)
    (hinst : ApiBuilt { inst with modulus := some 0 }) : (emit_mod inst q tw).AllApiBuilt := by
  have hregister : (tw.register_modulus q).2.AllApiBuilt := by
    unfold TraceWriter.AllApiBuilt
    rw [TraceWriter.register_modulus_frame]
    exact h
  have hindexed : Built { inst with modulus := some (tw.register_modulus q).1.toUInt64 } :=
    hinst.toBuilt.reindex (m := some (tw.register_modulus q).1.toUInt64) rfl
  exact hregister.emit ⟨hindexed, hinst.logn⟩

theorem TraceWriter.AllBuilt.normalize (h : tw.AllBuilt) : tw.normalize_modulus_table.AllBuilt := by
  rw [TraceWriter.normalize_modulus_table]
  split
  · exact h
  · intro inst hinst
    obtain ⟨inst₀, hinst₀, rfl⟩ := List.mem_map.mp hinst
    have hbuilt := h inst₀ hinst₀
    rw [TraceWriter.remap_instruction_frame]
    apply hbuilt.reindex
    unfold TraceWriter.remap_instruction
    split
    · rfl
    · rename_i m hm
      split
      · rfl
      · split
        · rw [hm]
          rfl
        · rfl

end AllBuilt

/-- What a builder makes of an opcode's shape: whatever a field is set to, only
the fields of the shape are. -/
theorem built_of_fields {inst : Instruction} {form : OperandForm}
    (hform : fh_operand_form inst.opcode = form) (hne : form ≠ .None) (hni : form ≠ .PolyScalarNI)
    (hshaped : inst.Shaped) (hmod : inst.modulus.isSome) (hindex : inst.modulus_is_literal = false)
    (himm : form = .PolyScalar → inst.immediate.isSome) (hk : form = .AutomorphCoeff → inst.k.isSome)
    (hoffset : form = .RotAutomorphCoeff → inst.offset.isSome) (hlogn : inst.logn = none)
    (hline : inst.line_number = 0) : ApiBuilt inst := by
  subst hform
  exact ⟨⟨built_of_form rfl hne, hni, hshaped, fun _ => hmod, hindex, himm, hk, hoffset, hline⟩, hlogn⟩

/-- Every call records what a builder makes. -/
theorem ApiOp.record_built (op : ApiOp) {tw : TraceWriter} (h : tw.AllApiBuilt) :
    (op.record tw).AllApiBuilt := by
  cases op with
  | pp op form d s1 s2 q =>
    have hshaped : Instruction.Shaped
        { ir op d s1 with src2 := UInt32.ofNat s2, modulus := some 0 } := by
      -- the form of the opcode says which fields it has
      constructor <;> simp [ir, form, OperandForm.hasModulus]
    exact h.emit_mod q (built_of_fields form (by decide) (by decide) hshaped rfl rfl
      (by simp) (by simp) (by simp) rfl rfl)
  | ps op form d s1 imm q =>
    have hshaped : Instruction.Shaped
        { ir op d s1 with immediate := some imm, modulus := some 0 } := by
      constructor <;> simp [ir, form, OperandForm.hasModulus]
    exact h.emit_mod q (built_of_fields form (by decide) (by decide) hshaped rfl rfl (fun _ => rfl)
      (by simp) (by simp) rfl rfl)
  | un op form d s1 q =>
    have hshaped : Instruction.Shaped { ir op d s1 with modulus := some 0 } := by
      constructor <;> simp [ir, form, OperandForm.hasModulus]
    exact h.emit_mod q (built_of_fields form (by decide) (by decide) hshaped rfl rfl
      (by simp) (by simp) (by simp) rfl rfl)
  | ntt op form d s1 q omega =>
    have hshaped : Instruction.Shaped { ir op d s1 with omega := omega, modulus := some 0 } := by
      constructor <;> simp [ir, form, OperandForm.hasModulus]
    exact h.emit_mod q (built_of_fields form (by decide) (by decide) hshaped rfl rfl
      (by simp) (by simp) (by simp) rfl rfl)
  | sr_automorph_eval d s1 k =>
    have form : fh_operand_form .FH_SR_AUTOMORPH_EVAL = .AutomorphEval := by decide
    have hshaped : Instruction.Shaped
        { ir .FH_SR_AUTOMORPH_EVAL d s1 with k := some k, modulus := some 0 } := by
      constructor <;> simp [ir, form, OperandForm.hasModulus]
    exact h.emit_mod _ (built_of_fields form (by decide) (by decide) hshaped rfl rfl
      (by simp) (by simp) (by simp) rfl rfl)
  | sr_automorph_coeff d s1 k q =>
    have form : fh_operand_form .FH_SR_AUTOMORPH_COEFF = .AutomorphCoeff := by decide
    have hshaped : Instruction.Shaped
        { ir .FH_SR_AUTOMORPH_COEFF d s1 with k := some k, modulus := some 0 } := by
      constructor <;> simp [ir, form, OperandForm.hasModulus]
    exact h.emit_mod q (built_of_fields form (by decide) (by decide) hshaped rfl rfl (by simp)
      (fun _ => rfl) (by simp) rfl rfl)
  | sr_rot_automorph_coeff d s1 offset q =>
    have form : fh_operand_form .FH_SR_ROT_AUTOMORPH_COEFF = .RotAutomorphCoeff := by decide
    have hshaped : Instruction.Shaped
        { ir .FH_SR_ROT_AUTOMORPH_COEFF d s1 with offset := some offset, modulus := some 0 } := by
      constructor <;> simp [ir, form, OperandForm.hasModulus]
    exact h.emit_mod q (built_of_fields form (by decide) (by decide) hshaped rfl rfl (by simp) (by simp)
      (fun _ => rfl) rfl rfl)
  | halt =>
    -- nothing but an opcode
    have form : fh_operand_form .FH_HALT = .None := by decide
    have hshaped : Instruction.Shaped (ir .FH_HALT 0 0) := by
      constructor <;> simp [ir, form, OperandForm.hasModulus]
    exact h.emit ⟨⟨by decide, by decide, hshaped, fun hmod => absurd hmod (by decide), rfl,
      fun hform => absurd hform (by decide), fun hform => absurd hform (by decide),
      fun hform => absurd hform (by decide), rfl⟩, rfl⟩
  | tag_output name address =>
    show (tw.comment _).AllApiBuilt
    unfold TraceWriter.comment
    split
    · exact h
    · exact h
  | pause => exact h
  | resume => exact h

/-! ## A session's writer -/

/-- What recording keeps of a writer, whoever records: the table invariant of
`Fhetch.RecordingRuns`, and the shape of what is recorded. -/
structure Traced (tw : TraceWriter) : Prop where
  sound : ∃ meant, Recording.Sound ⟨tw, meant⟩
  built : tw.AllBuilt

theorem ApiOp.record_info (op : ApiOp) (tw : TraceWriter) (now : UInt64) :
    (op.record tw).metadata now = tw.metadata now := by
  cases op with
  | tag_output name address =>
    show (tw.comment _).metadata now = _
    rw [TraceWriter.comment_frame]
    rfl
  | halt =>
    show (tw.emit _).metadata now = _
    rw [TraceWriter.emit_frame]
    rfl
  | pause => rfl
  | resume => rfl
  | _ =>
    show (emit_mod _ _ tw).metadata now = _
    rw [TraceWriter.emit_mod_frame]
    rfl

theorem session_info (tw : TraceWriter) (ops : List ApiOp) (now : UInt64) :
    (session tw ops).metadata now = tw.metadata now := by
  refine List.foldlRecOn (motive := fun tw' : TraceWriter => tw'.metadata now = tw.metadata now) ops _ rfl ?_
  intro tw' h op _
  rw [op.record_info, h]

theorem session_built (tw : TraceWriter) (ops : List ApiOp) : (session tw ops).AllApiBuilt := by
  have hstart : tw.clear.start_recording.AllApiBuilt := fun _ h => absurd h List.not_mem_nil
  exact List.foldlRecOn (motive := TraceWriter.AllApiBuilt) ops _ hstart fun tw' h op _ => op.record_built h

theorem session_traced (tw : TraceWriter) (ops : List ApiOp) : Traced (session tw ops) := by
  refine ⟨?_, fun inst hinst => (session_built tw ops inst hinst).toBuilt⟩
  refine List.foldlRecOn (motive := fun tw : TraceWriter => ∃ meant, Recording.Sound ⟨tw, meant⟩) ops _
    ⟨[], (Recording.sound_clear tw).flags true false⟩ ?_
  rintro tw' ⟨meant, hsound⟩ op -
  refine ⟨(Recording.step ⟨tw', meant⟩ op.tableOp).meant, ?_⟩
  rw [op.record_eq_step ⟨tw', meant⟩]
  exact hsound.step op.tableOp

/-! ## The text form -/

/-- An instruction whose index is in the table and in the ISA can be said in text. -/
theorem Built.readable {inst : Instruction} (h : Built inst) {table : ℕ}
    (hlogn : ∀ l, inst.logn = some l → l.toNat ≤ 64)
    (hindex : ∀ m, inst.modulus = some m → m.toNat < table ∧ m.toNat ≤ kMaxModulusIndex) :
    Readable table inst := by
  refine ⟨h.row, h.shaped, fun hmod => ⟨h.modulus hmod, ?_, fun m hm _ => (hindex m hm).2⟩,
    h.immediate, fun hform => absurd hform h.integer, h.k, h.offset, hlogn⟩
  intro m hm
  rw [h.index, decide_eq_false (Nat.not_le.mpr (hindex m hm).1)]

/-- Text that takes a read's table and instructions on, whatever becomes of its
notes. -/
def Advances (F : FloatText) (text : Str) (table : List UInt64) (insts insts' : List Instruction) :
    Prop :=
  ∀ notes, ∃ notes', Turns F text ⟨table, insts, notes⟩ ⟨table, insts', notes'⟩

section Advances

variable {F : FloatText} {table : List UInt64} {insts insts' insts'' : List Instruction}
  {text text' : Str}

theorem Advances.of_turns (h : ∀ notes, Turns F text ⟨table, insts, notes⟩ ⟨table, insts', notes⟩) :
    Advances F text table insts insts' := fun notes => ⟨notes, h notes⟩

theorem Advances.append (h : Advances F text table insts insts')
    (h' : Advances F text' table insts' insts'') : Advances F (text ++ text') table insts insts'' := by
  intro notes
  obtain ⟨notes₁, hnotes₁⟩ := h notes
  obtain ⟨notes₂, hnotes₂⟩ := h' notes₁
  exact ⟨notes₂, hnotes₁.append hnotes₂⟩

/-- Any comment, kept or not. -/
theorem advances_comment {rest : Str} (hrest : newline ∉ rest) :
    Advances F (endLine (0x23 :: rest)) table insts insts := by
  intro notes
  by_cases hnote : Reader.IsNote (trim rest)
  · exact ⟨_, turns_kept hrest hnote⟩
  · refine ⟨notes, turns_unkept hrest ⟨?_⟩⟩
    by_contra hskip
    simp only [not_or, not_forall, Bool.not_eq_true] at hskip
    obtain ⟨hne, hcontent, hlabel, m, hm⟩ := hskip
    have hnone : absorb_metadata (trim rest) m = none :=
      Option.not_isSome_iff_eq_none.mp (by rw [hm]; decide)
    exact hnote ⟨hne, hcontent, hlabel, Reader.absorb_metadata_eq_none hnone⟩

/-- The strings of the header that would break a line. -/
structure TraceMetadata.Unbroken (m : TraceMetadata) : Prop where
  program_name : newline ∉ m.program_name
  program_version : newline ∉ m.program_version
  description : newline ∉ m.description
  source_file : newline ∉ m.source_file
  build_timestamp : newline ∉ m.build_timestamp

theorem advances_header {m : TraceMetadata} (hm : m.Unbroken) (n k : ℕ) :
    Advances F (render_header m n k) table insts insts := by
  have happ : ∀ {s t : Str}, newline ∉ s → newline ∉ t → newline ∉ s ++ t :=
    fun hs ht h => (List.mem_append.mp h).elim hs ht
  have hversion : newline ∉ if m.program_version.isEmpty then [] else
      str " v" ++ m.program_version := by
    split
    · exact List.not_mem_nil
    · exact happ (by decide) hm.program_version
  have hline : newline ∉ str ":" ++ intDecimal m.source_line :=
    happ (by decide) (intDecimal_unbroken _)
  have hfield : ∀ key ∈ Reader.header_keys, ∀ {value : Str}, newline ∉ value →
      Advances F (headerLine key value) table insts insts :=
    fun key hkey value hvalue => advances_comment (header_line_unbroken hkey hvalue)
  exact render_header_of_lines (P := fun text => Advances F text table insts insts) Advances.append
    (advances_comment (by decide)) (advances_comment (by decide))
    (fun _ => hfield _ (by decide) (happ hm.program_name hversion))
    (fun _ => hfield _ (by decide) hm.description)
    (fun _ => hfield _ (by decide) (happ hm.source_file hline))
    (fun _ => hfield _ (by decide) hm.build_timestamp)
    fun key hkey v => hfield key hkey (headerText_decimal v).unbroken

theorem advances_notes {notes : List Annotation} (h : ∀ note ∈ notes, newline ∉ note.text) :
    Advances F (notes.flatMap render_note) table insts insts := by
  induction notes with
  | nil => exact .of_turns fun _ => Turns.nil
  | cons note notes ih =>
    obtain ⟨hnote, hnotes⟩ := List.forall_mem_cons.mp h
    have hline : newline ∉ (0x20 :: note.text : Str) :=
      List.not_mem_cons_of_ne_of_not_mem (by decide) hnote
    exact (advances_comment hline).append (ih hnotes)

/-- **The stream** gives its instructions one after another. -/
theorem advances_stream (stream : List Instruction) : ∀ (i : ℕ) {notes : List Annotation}
    {insts : List Instruction}, (∀ note ∈ notes, newline ∉ note.text) →
    (∀ inst ∈ stream, Readable table.length inst ∧ fh_operand_form inst.opcode ≠ .PolyScalarNI) →
    Advances F (render_stream F i stream notes) table insts (insts ++ stream.map Instruction.content) := by
  induction stream with
  | nil =>
    intro i notes insts hnotes _
    rw [List.map_nil, List.append_nil]
    exact advances_notes hnotes
  | cons inst stream ih =>
    intro i notes insts hnotes hstream
    obtain ⟨⟨hread, hform⟩, hrest⟩ := List.forall_mem_cons.mp hstream
    have hline : InstructionLine (render_instruction F inst) := instructionLine_render hread hform
    -- the notes that are due come before the line, the later ones after it
    have hdue : ∀ note ∈ notes.takeWhile (·.after_instruction ≤ i), newline ∉ note.text :=
      fun note hnote => hnotes note ((List.takeWhile_sublist _).subset hnote)
    have hlater : ∀ note ∈ notes.dropWhile (·.after_instruction ≤ i), newline ∉ note.text :=
      fun note hnote => hnotes note ((List.dropWhile_sublist _).subset hnote)
    have hgiven : Advances F (endLine (render_instruction F inst)) table insts
        (insts ++ [inst.content]) := .of_turns fun notes => turns_instruction hread hform
    have hrendered : Advances F (render_stream F (i + 1) stream _) table (insts ++ [inst.content]) _ :=
      ih (i + 1) hlater hrest
    have hall := ((advances_notes hdue).append hgiven).append hrendered
    rw [render_stream]
    -- a line that says something is written with its end
    simp only [List.isEmpty_eq_false_iff.mpr hline.nonempty, Bool.false_eq_true, if_false]
    rw [List.append_assoc insts, List.singleton_append] at hall
    exact hall

end Advances

/-! ## Both files -/

/-- A file that reads back as a writer's recording: without a word, and with
exactly its instructions and its table. -/
def ReadsBack (F : FloatText) (path : Str) (data : Bytes) (tw : TraceWriter) : Prop :=
  ∃ r, read_fhetch_file F path (some data) = some r ∧ r.ok = true ∧ r.warnings = [] ∧
    r.program.instructions.map Instruction.content = tw.instructions_ ∧
    r.program.modulus_table = tw.modulus_table_

/-- The modulus of every recorded instruction gets an index the ISA can encode:
it is the sentinel, or fewer than 255 of the registered moduli are smaller. -/
def Encodable (tw : TraceWriter) : Prop :=
  ∀ inst ∈ tw.instructions_, ∀ q, inst.selects tw.modulus_table_ = some q → q ≠ COPY_MODULUS_VALUE →
    (tw.modulus_table_.drop 1).countP (· < q) < kMaxModulusIndex

section Files

variable {F : FloatText} {tw : TraceWriter}

/-- Without a line number there is nothing to forget. -/
theorem Built.content {inst : Instruction} (h : Built inst) : inst.content = inst := by
  have hline := h.unread
  obtain ⟨⟩ := inst
  exact congrArg _ hline.symm

theorem TraceWriter.AllBuilt.contents (h : tw.AllBuilt) :
    tw.instructions_.map Instruction.content = tw.instructions_ := by
  rw [List.map_congr_left fun inst hinst => (h inst hinst).content, List.map_id']

/-- Only the operands of its form are set. -/
theorem Built.conforms {inst : Instruction} (h : Built inst) : inst.Conforms :=
  h.shaped.conforms h.row fun _ => h.index

/-- The binary file of a recording reads back whatever the indices are. -/
theorem binary_reads_back (h : tw.AllBuilt) (path : Str)
    (htable : tw.modulus_table_.length < 2 ^ 32) (hcount : tw.instructions_.length < 2 ^ 64)
    {metadata : TraceMetadata} (hmd : (build_metadata metadata kFhetchSpec).length < 2 ^ 32)
    {bytes : Bytes} (hbytes : encode_fhetch_program metadata tw.modulus_table_
      (tw.instructions_.map to_record) kFhetchSpec = some bytes) : ReadsBack F path bytes tw := by
  have hconforms : ∀ inst ∈ tw.instructions_, inst.Conforms := fun inst hinst => (h inst hinst).conforms
  obtain ⟨r, hread, hok, hwarnings, hinsts, htab⟩ := read_encoded hconforms (by decide)
    ⟨by decide, by decide⟩ ⟨hmd, htable, hcount⟩ hbytes
  have hmagic : kFhexMagic.isPrefixOf bytes = true := by
    rw [encode_fhetch_program_eq _ _ _ (by decide)] at hbytes
    rw [← Option.some.inj hbytes]
    exact List.isPrefixOf_iff_prefix.mpr (List.prefix_append _ _)
  refine ⟨r, ?_, hok, hwarnings, hinsts.trans h.contents, htab⟩
  rw [read_fhetch_file, if_pos hmagic, hread]

/-- A text starts with the rule of its header. -/
theorem head_render_header (m : TraceMetadata) (n k : ℕ) : (render_header m n k).head? = some 0x23 := by
  have happend : ∀ {a b : Str}, a.head? = some 0x23 → (a ++ b).head? = some 0x23 := by
    intro a b h
    rw [List.head?_append, h]
    rfl
  have hoptional : ∀ {c : Prop} [Decidable c] {a b : Str}, a.head? = some 0x23 →
      (if c then a else a ++ b).head? = some 0x23 := by
    intro c _ a b h
    split
    · exact h
    · exact happend h
  have hrule : (endLine kRule ++ endLine (str "# Niobium FHETCH Trace") ++ endLine kRule).head? =
      some 0x23 := rfl
  exact happend (hoptional (happend (happend (hoptional (hoptional (hoptional (hoptional hrule)))))))

/-- A text is not taken for a container. -/
theorem text_without_magic (F : FloatText) (p : Program) :
    kFhexMagic.isPrefixOf (write_fhetch_text F p) = false := by
  have hhead := head_render_header p.metadata p.instructions.length p.modulus_table.length
  obtain ⟨rest, hrest⟩ := List.head?_eq_some_iff.mp hhead
  have htext : write_fhetch_text F p =
      render_header p.metadata p.instructions.length p.modulus_table.length ++ _ ++ _ ++ _ ++ _ := rfl
  rw [htext, hrest]
  rfl

/-- Every `logn` is one the text reader takes. -/
def TraceWriter.LognSayable (tw : TraceWriter) : Prop :=
  ∀ inst ∈ tw.instructions_, ∀ l, inst.logn = some l → l.toNat ≤ 64

/-- The text file of a recording does when the indices are encodable. -/
theorem text_reads_back (h : tw.AllBuilt) (hlogn : tw.LognSayable) (now : UInt64) (path : Str)
    (hinfo : (tw.metadata now).Unbroken) (hnotes : ∀ note ∈ tw.annotations_, newline ∉ note.text)
    (htable : tw.modulus_table_.length ≤ Reader.max_size)
    (hindex : ∀ inst ∈ tw.instructions_, ∀ m, inst.modulus = some m →
      m.toNat < tw.modulus_table_.length ∧ m.toNat ≤ kMaxModulusIndex) :
    ReadsBack F path (write_fhetch_text F (tw.program now)) tw := by
  have hreadable : ∀ inst ∈ tw.instructions_, Readable tw.modulus_table_.length inst ∧
      fh_operand_form inst.opcode ≠ .PolyScalarNI := fun inst hinst =>
    ⟨(h inst hinst).readable (hlogn inst hinst) (hindex inst hinst), (h inst hinst).integer⟩
  -- header, table and stream in turn, from the empty read on
  have hadvances : Advances F (render_header (tw.metadata now) _ _) [] [] [] :=
    advances_header hinfo tw.instructions_.length tw.modulus_table_.length
  have hgiven : Advances F _ tw.modulus_table_ [] _ := advances_stream tw.instructions_ 0 hnotes hreadable
  obtain ⟨notes₁, hheader⟩ := hadvances []
  obtain ⟨notes₂, hstream⟩ := hgiven notes₁
  have hall : Turns F (write_fhetch_text F (tw.program now)) ⟨[], [], []⟩ _ :=
    turns_write_fhetch_text (p := tw.program now) (s := ⟨tw.modulus_table_, [], notes₁⟩) hheader htable
      rfl rfl hstream
  obtain ⟨r, hread, hok, hwarnings, hshown⟩ := read_of_turns hall
  rw [Program.shown, Content.mk.injEq] at hshown
  refine ⟨r, ?_, hok, hwarnings, ?_, hshown.1⟩
  -- a text without the magic is read as text
  · rw [read_fhetch_file, text_without_magic, if_neg Bool.false_ne_true, hread]
  · rw [hshown.2.1, List.nil_append, h.contents]

/-- What a recorded instruction selects, and where normalization puts its index. -/
theorem Traced.normalized_index (h : Traced tw)
    (hsize : tw.modulus_table_.length ≤ 2 ^ 32) {inst : Instruction} (hinst : inst ∈ tw.instructions_) :
    (inst.modulus = none ∧ TraceWriter.remap_instruction tw.modulus_table_ inst = inst) ∨
      ∃ q, inst.selects tw.modulus_table_ = some q ∧ q ∈ tw.modulus_table_ ∧
        TraceWriter.remap_instruction tw.modulus_table_ inst = { inst with
          modulus := some (UInt32.ofNat ((normalized tw.modulus_table_).idxOf q)).toUInt64 } := by
  obtain ⟨meant, hsound⟩ := h.sound
  rcases hm : inst.modulus with - | m
  · exact Or.inl ⟨rfl, TraceWriter.remap_instruction_eq_self _ (Or.inl hm)⟩
  · obtain ⟨entry, -, hrec⟩ : ∃ entry ∈ meant, Recorded tw.modulus_table_ inst entry :=
      List.forall₂_iff_get.mp (hsound.recorded hsize) |> fun ⟨hlen, hall⟩ => by
        obtain ⟨i, hi, rfl⟩ := List.mem_iff_getElem.mp hinst
        exact ⟨_, List.getElem_mem (hlen ▸ hi), hall i hi (hlen ▸ hi)⟩
    -- what was meant decides: nothing, or a modulus that is in the table
    rcases hq : entry.2 with - | q
    · rw [hrec.bare hq] at hm
      exact absurd hm (by simp)
    · have hsel := hrec.selects
      rw [hq] at hsel
      have hentry : tw.modulus_table_[m.toNat]? = some q := by
        rw [Instruction.selects, hm, (h.built inst hinst).index] at hsel
        exact hsel
      exact Or.inr ⟨q, hsel, List.mem_of_getElem? hentry,
        TraceWriter.remap_instruction_index hsound.consistent hm (h.built inst hinst).index hentry⟩

/-- The place of a modulus is encodable when few enough are smaller. -/
theorem place_le_iff (h : tw.Consistent) {q : UInt64} (hmem : q ∈ tw.modulus_table_) :
    (normalized tw.modulus_table_).idxOf q ≤ kMaxModulusIndex ↔
      (q ≠ COPY_MODULUS_VALUE → (tw.modulus_table_.drop 1).countP (· < q) < kMaxModulusIndex) := by
  by_cases hq : q = COPY_MODULUS_VALUE
  · rw [hq, TraceWriter.idxOf_normalized_sentinel h]
    obtain ⟨rest, hrest⟩ := TraceWriter.head_cons h
    rw [hrest, List.idxOf_cons_self]
    exact ⟨fun _ hne => absurd rfl hne, fun _ => Nat.zero_le _⟩
  · rw [TraceWriter.idxOf_normalized h hmem hq]
    exact ⟨fun hle _ => hle, fun hlt => hlt hq⟩

end Files

/-- A call whose comment, if it leaves one, stays on its line. -/
def ApiOp.Unbroken : ApiOp → Prop
  | .tag_output name _ => newline ∉ name
  | _ => True

theorem session_notes_unbroken (tw : TraceWriter) {ops : List ApiOp} (hops : ∀ op ∈ ops, op.Unbroken) :
    ∀ note ∈ (session tw ops).annotations_, newline ∉ note.text := by
  refine List.foldlRecOn (motive := fun tw : TraceWriter => ∀ note ∈ tw.annotations_, newline ∉ note.text) ops _
    (fun _ h => absurd h List.not_mem_nil) ?_
  intro tw' hnotes op hop
  have hop' := hops op hop
  cases op with
  | tag_output name address =>
    show ∀ note ∈ (tw'.comment _).annotations_, _
    unfold TraceWriter.comment
    split
    -- the only note added is of the tag, around a name without a line end
    · refine List.forall_mem_append.mpr ⟨hnotes, List.forall_mem_singleton.mpr fun h => ?_⟩
      rcases List.mem_append.mp h with h | h
      · rcases List.mem_append.mp h with h | h
        · rcases List.mem_append.mp h with h | h
          · exact absurd h (by decide)
          · exact hop' h
        · exact absurd h (by decide)
      · exact (headerText_decimal _).unbroken h
    · exact hnotes
  | halt =>
    show ∀ note ∈ (tw'.emit _).annotations_, _
    rw [TraceWriter.emit_frame]
    exact hnotes
  | pause => exact hnotes
  | resume => exact hnotes
  | _ =>
    show ∀ note ∈ (emit_mod _ _ tw').annotations_, _
    rw [TraceWriter.emit_mod_frame]
    exact hnotes

/-- A place of the normalized table is below its length, which an index can hold. -/
theorem place_fits {tw : TraceWriter} (hsize : tw.modulus_table_.length ≤ 2 ^ 32) {q : UInt64}
    (hmem : q ∈ tw.modulus_table_) :
    (UInt32.ofNat ((normalized tw.modulus_table_).idxOf q)).toUInt64.toNat =
        (normalized tw.modulus_table_).idxOf q ∧
      (normalized tw.modulus_table_).idxOf q < tw.modulus_table_.length := by
  have hlt := List.idxOf_lt_length_of_mem (mem_normalized.mpr hmem)
  rw [(normalized_perm _).length_eq] at hlt
  exact ⟨toNat_place (by omega), hlt⟩

/-- A text file that reads back has encodable indices only: the reader refuses an
index it finds in the table and the ISA cannot encode. -/
theorem Traced.encodable_of_text {F : FloatText} {tw : TraceWriter} (h : Traced tw)
    (hsize : tw.modulus_table_.length ≤ 2 ^ 32) {now : UInt64} {path : Str}
    (htext : ReadsBack F path (write_fhetch_text F (tw.normalize_modulus_table.program now))
      tw.normalize_modulus_table) : Encodable tw := by
  obtain ⟨meant, hsound⟩ := h.sound
  obtain ⟨r, hread, -, -, hinsts, -⟩ := htext
  intro inst hinst q hsel
  rw [read_fhetch_file, text_without_magic, if_neg Bool.false_ne_true] at hread
  rcases h.normalized_index hsize hinst with ⟨hnone, -⟩ | ⟨q', hsel', hmem, hremap⟩
  · rw [Instruction.selects, hnone] at hsel
    exact absurd hsel (by simp)
  · obtain rfl : q' = q := Option.some.inj (hsel'.symm.trans hsel)
    have hin : TraceWriter.remap_instruction tw.modulus_table_ inst ∈
        r.program.instructions.map Instruction.content := by
      rw [hinsts, TraceWriter.normalize_eq hsound.consistent hsize]
      exact List.mem_map_of_mem hinst
    obtain ⟨x, hx, hcontent⟩ := List.mem_map.mp hin
    rw [hremap] at hcontent
    -- the reader has checked the index of the instruction it gives
    have hvalid := read_fhetch_text_validated hread x hx
    have hmod : x.content.modulus = _ := congrArg Instruction.modulus hcontent
    have hlit : x.content.modulus_is_literal = _ := congrArg Instruction.modulus_is_literal hcontent
    have hbound := (hvalid.index _ hmod (hlit.trans (h.built inst hinst).index)).2
    rw [(place_fits hsize hmem).1] at hbound
    exact (place_le_iff hsound.consistent hmem).mp (Nat.le_of_lt_succ hbound)

/-- And when they are encodable it reads back. -/
theorem Traced.text_of_encodable {F : FloatText} {tw : TraceWriter} (h : Traced tw)
    (hsize : tw.modulus_table_.length ≤ 2 ^ 32) {now : UInt64} {path : Str}
    (hinfo : (tw.metadata now).Unbroken) (hnotes : ∀ note ∈ tw.annotations_, newline ∉ note.text)
    (hlogn : tw.LognSayable) (henc : Encodable tw) :
    ReadsBack F path (write_fhetch_text F (tw.normalize_modulus_table.program now))
      tw.normalize_modulus_table := by
  obtain ⟨meant, hsound⟩ := h.sound
  have hnormal := TraceWriter.normalize_eq hsound.consistent hsize
  have hinfo' : (tw.normalize_modulus_table.metadata now).Unbroken := by
    have hsame : tw.normalize_modulus_table.metadata now = tw.metadata now := by
      rw [hnormal]
      rfl
    rw [hsame]
    exact hinfo
  have htable : tw.normalize_modulus_table.modulus_table_.length = tw.modulus_table_.length := by
    rw [hnormal]
    exact (normalized_perm _).length_eq
  -- an index is a place in the table, and that place can be said
  have hindex : ∀ inst ∈ tw.normalize_modulus_table.instructions_, ∀ m, inst.modulus = some m →
      m.toNat < tw.normalize_modulus_table.modulus_table_.length ∧ m.toNat ≤ kMaxModulusIndex := by
    rw [htable, hnormal]
    intro inst' hinst' m hm
    obtain ⟨inst, hinst, rfl⟩ := List.mem_map.mp hinst'
    rcases h.normalized_index hsize hinst with ⟨hnone, hremap⟩ | ⟨q, hsel, hmem, hremap⟩
    · rw [hremap, hnone] at hm
      exact absurd hm (by simp)
    · rw [hremap] at hm
      rw [← Option.some.inj hm, (place_fits hsize hmem).1]
      exact ⟨(place_fits hsize hmem).2,
        (place_le_iff hsound.consistent hmem).mpr (henc inst hinst q hsel)⟩
  refine text_reads_back h.built.normalize ?_ now path hinfo' ?_ ?_ hindex
  · unfold TraceWriter.LognSayable
    rw [hnormal]
    intro inst' hinst' l hl
    obtain ⟨inst, hinst, rfl⟩ := List.mem_map.mp hinst'
    rw [TraceWriter.remap_instruction_frame] at hl
    exact hlogn inst hinst l hl
  · rw [hnormal]
    exact hnotes
  · rw [htable, Reader.max_size]
    omega

/-- **What the recorder writes, both readers accept** exactly when every recorded
modulus gets an encodable index. The binary form's own counters have 32 bits for
the table and the metadata, and 64 for the instructions. -/
theorem recorded_files_read_back_iff (F : FloatText) (tw : TraceWriter) (ops : List ApiOp)
    (now : UInt64) (path : Str) (hinfo : (tw.metadata now).Unbroken)
    (hops : ∀ op ∈ ops, op.Unbroken)
    (htable : (session tw ops).modulus_table_.length < 2 ^ 32)
    (hcount : (session tw ops).instructions_.length < 2 ^ 64)
    (hmd : (build_metadata
      ((session tw ops).normalize_modulus_table.program now).binary_metadata kFhetchSpec).length < 2 ^ 32) :
    (ReadsBack F path (write_fhetch_text F ((session tw ops).normalize_modulus_table.program now))
        (session tw ops).normalize_modulus_table ∧
      ∃ bytes, write_fhetch_binary ((session tw ops).normalize_modulus_table.program now) kFhetchSpec =
          some bytes ∧
        ReadsBack F path bytes (session tw ops).normalize_modulus_table) ↔
      Encodable (session tw ops) := by
  have hstate := session_traced tw ops
  have hlogn : (session tw ops).LognSayable := by
    intro inst hinst l hl
    rw [(session_built tw ops inst hinst).logn] at hl
    exact absurd hl (by simp)
  have hnotes := session_notes_unbroken tw hops
  have hsize := Nat.le_of_lt htable
  obtain ⟨meant, hsound⟩ := hstate.sound
  have hnormal := TraceWriter.normalize_eq hsound.consistent hsize
  refine ⟨fun hread => hstate.encodable_of_text hsize hread.1,
    fun henc => ⟨hstate.text_of_encodable hsize (session_info tw ops now ▸ hinfo) hnotes hlogn henc, ?_⟩⟩
  have hspec : kFhetchSpec.valid = true := by decide
  have hencode := encode_fhetch_program_eq
    ((session tw ops).normalize_modulus_table.program now).binary_metadata
    (session tw ops).normalize_modulus_table.modulus_table_
    ((session tw ops).normalize_modulus_table.instructions_.map to_record) hspec
  refine ⟨_, hencode, binary_reads_back hstate.built.normalize path ?_ ?_ hmd hencode⟩
  · rw [hnormal]
    exact (normalized_perm _).length_eq.trans_lt htable
  · rw [hnormal, List.length_map]
    exact hcount

/-- A named program of two moduli, out of order, with an output. -/
def shortSession : List ApiOp :=
  [.pp .FH_SR_MULP (by decide) 3 1 2 97, .ntt .FH_SR_NTT (by decide) 4 3 17 none,
    .sr_automorph_eval 5 4 3, .tag_output (str "y") 5, .halt]

theorem recorded_files_read_back_iff_shortSession :
    ReadsBack zeroFloatText [] (write_fhetch_text zeroFloatText
      ((session { program_name_ := str "p" } shortSession).normalize_modulus_table.program 0))
      (session { program_name_ := str "p" } shortSession).normalize_modulus_table := by
  refine ((recorded_files_read_back_iff zeroFloatText { program_name_ := str "p" } shortSession 0 []
    ?_ ?_ ?_ ?_ ?_).mpr ?_).1
  · exact ⟨by decide, List.not_mem_nil, List.not_mem_nil, List.not_mem_nil, List.not_mem_nil⟩
  · simp only [shortSession, List.forall_mem_cons]
    exact ⟨trivial, trivial, trivial, (by decide : newline ∉ str "y"), trivial, fun _ h => absurd h List.not_mem_nil⟩
  · decide
  · decide
  · decide +kernel
  · intro inst _ q _ _
    exact List.countP_le_length.trans_lt (by decide)

/-! ## A recording the text reader refuses -/

/-- One negation under each of the moduli from 0 on. -/
def negations (n : ℕ) : List ApiOp :=
  (List.range n).map fun k => .un .FH_SR_NEGP (by decide) (k + 1) k (UInt64.ofNat k)

/-- Each negation puts its modulus in the table and leaves an instruction that
selects it. -/
theorem session_negations {n : ℕ} (hn : n < 2 ^ 32) :
    (session {} (negations n)).keeps = true ∧
      (session {} (negations n)).modulus_table_ = COPY_MODULUS_VALUE :: (List.range n).map UInt64.ofNat ∧
      ∀ k < n, ∃ inst ∈ (session {} (negations n)).instructions_,
        inst.selects (session {} (negations n)).modulus_table_ = some (UInt64.ofNat k) := by
  induction n with
  | zero => exact ⟨rfl, rfl, fun k hk => absurd hk (Nat.not_lt_zero k)⟩
  | succ n ih =>
    obtain ⟨hkeeps, htable, hall⟩ := ih (by omega)
    obtain ⟨⟨meant, hsound⟩, -⟩ := session_traced {} (negations n)
    have hlast : session {} (negations (n + 1)) =
        emit_un .FH_SR_NEGP (n + 1) n (UInt64.ofNat n) (session {} (negations n)) := by
      rw [session, negations, List.range_succ, List.map_append, List.foldl_append]
      rfl
    generalize session {} (negations n) = s at hkeeps htable hall hsound hlast
    obtain ⟨-, hintern⟩ := TraceWriter.register_modulus_eq hsound.consistent (UInt64.ofNat n)
    have hframe := TraceWriter.register_modulus_frame s (UInt64.ofNat n)
    have hgrown : (s.register_modulus (UInt64.ofNat n)).2.modulus_table_ =
        COPY_MODULUS_VALUE :: (List.range (n + 1)).map UInt64.ofNat := by
      have hnew : UInt64.ofNat n ∉ s.modulus_table_ := by
        rw [htable]
        exact Recording.ofNat_injOn (n := n + 1) (by omega) (by omega)
      rw [hintern, intern, if_neg hnew, htable, List.range_succ, List.map_append]
      rfl
    have hpre : s.modulus_table_ <+: (s.register_modulus (UInt64.ofNat n)).2.modulus_table_ := by
      rw [hintern]
      exact prefix_intern _ _
    have hselects := hsound.registered (UInt64.ofNat n) (by
      show (s.register_modulus (UInt64.ofNat n)).2.modulus_table_.length ≤ 2 ^ 32
      rw [hgrown, List.length_cons, List.length_map, List.length_range]
      omega)
    have hkeeps' : (s.register_modulus (UInt64.ofNat n)).2.keeps = true := by
      rw [hframe]
      exact hkeeps
    have hemit : emit_un .FH_SR_NEGP (n + 1) n (UInt64.ofNat n) s =
        { (s.register_modulus (UInt64.ofNat n)).2 with
          instructions_ := s.instructions_ ++ [{ ir .FH_SR_NEGP (n + 1) n with
            modulus := some (s.register_modulus (UInt64.ofNat n)).1.toUInt64 }] } := by
      have hinsts : (s.register_modulus (UInt64.ofNat n)).2.instructions_ = s.instructions_ := by
        rw [hframe]
      rw [← hinsts]
      exact (TraceWriter.emit_eq _ _).trans (if_pos hkeeps')
    rw [hlast, hemit]
    refine ⟨hkeeps', hgrown, fun k hk => ?_⟩
    by_cases hkn : k = n
    · exact ⟨_, List.mem_append_right _ List.mem_cons_self, hkn ▸ hselects⟩
    · obtain ⟨inst, hinst, hsel⟩ := hall k (by omega)
      exact ⟨inst, List.mem_append_left _ hinst, Instruction.selects_of_prefix hpre hsel⟩

/-- **One modulus too many**: with 256 of them and the sentinel, the last one gets
the index 256, which the text reader refuses. -/
theorem text_of_many_moduli_not_read :
    ¬ ReadsBack zeroFloatText [] (write_fhetch_text zeroFloatText
        ((session {} (negations 256)).normalize_modulus_table.program 0))
      (session {} (negations 256)).normalize_modulus_table := by
  intro htext
  obtain ⟨-, htable, hall⟩ := session_negations (n := 256) (by decide)
  have hsize : (session {} (negations 256)).modulus_table_.length ≤ 2 ^ 32 := by
    rw [htable, List.length_cons, List.length_map, List.length_range]
    decide
  have henc := (session_traced {} (negations 256)).encodable_of_text hsize htext
  obtain ⟨inst, hinst, hsel⟩ := hall 255 (by decide)
  have hfew := henc inst hinst _ hsel (by decide)
  rw [htable] at hfew
  exact absurd hfew (by decide +kernel)

end Fhetch
