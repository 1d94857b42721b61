/-
The header of a text that was read and is written again (`absorb_metadata` of
`src/fhetch_reader.cpp`, `render_header` of `src/fhetch_writer.cpp`).

A comment line is layout, a header line or a note. The reader keeps a note, and takes a
header line for its field and drops the line, since the writer puts the field out again.
The writer does not: it has no line for the scheme, the ring dimension, the
multiplicative depth, the security level and the trace file. Those fields are lost.

Of the fields that have a line, two can still change. A negative line number is no
number to the reader, and one without a file has no line. A name without a version is
split at its last ` v`, and loses the blanks behind it.

And a header line may leave nothing in its field: its value is no number, or a later line
has the same key.
-/
import Fhetch.HeaderFields
import Fhetch.ReadingBounds

set_option autoImplicit false

namespace Fhetch

open Lib

/-! ## What a read leaves in the header -/

/-- Metadata that came from header lines. -/
structure TraceMetadata.FromLines (m : TraceMetadata) : Prop extends m.Renderable where
  description_trimmed : Trimmed m.description
  build_trimmed : Trimmed m.build_timestamp
  version_last : ∀ c, m.program_version.getLast? = some c → isBlank c = false
  version_plain : ¬ str " v" <:+: m.program_version
  version_of_name : m.program_name = [] → m.program_version = []

theorem TraceMetadata.FromLines.default : ({} : TraceMetadata).FromLines :=
  ⟨⟨.nil, List.not_mem_nil, .nil, .nil, .nil⟩, .nil, .nil, by simp, by decide, fun _ => rfl⟩

/-- Only the fields the writer has lines for matter. -/
theorem TraceMetadata.FromLines.of_written {m m' : TraceMetadata} (hm : m.FromLines)
    (hname : m'.program_name = m.program_name) (hversion : m'.program_version = m.program_version)
    (hdescription : m'.description = m.description) (hfile : m'.source_file = m.source_file)
    (hbuild : m'.build_timestamp = m.build_timestamp) : m'.FromLines where
  program_name := hname ▸ hm.program_name
  program_version := hversion ▸ hm.program_version
  description := hdescription ▸ hm.description
  source_file := hfile ▸ hm.source_file
  build_timestamp := hbuild ▸ hm.build_timestamp
  description_trimmed := hdescription ▸ hm.description_trimmed
  build_trimmed := hbuild ▸ hm.build_trimmed
  version_last := hversion ▸ hm.version_last
  version_plain := hversion ▸ hm.version_plain
  version_of_name := by
    rw [hname, hversion]
    exact hm.version_of_name

/-- A value as the reader has it: trimmed, on one line, and not empty. -/
structure FieldValue (s : Str) : Prop extends HeaderValue s where
  nonempty : s ≠ []

theorem FieldValue.headerText {s : Str} (h : FieldValue s) : HeaderText s :=
  ⟨h.trimmed.head, h.unbroken⟩

theorem absorb_program_fromLines {value : Str} {m : TraceMetadata} (hv : FieldValue value)
    (hm : m.FromLines) : (absorb_program value m).FromLines := by
  have hrenderable := absorb_program_renderable hv.headerText hm.toRenderable
  rw [absorb_program] at hrenderable ⊢
  cases hfind : rfind (str " v") value with
  | none =>
    rw [hfind] at hrenderable
    exact { hm with
      toRenderable := hrenderable
      version_of_name := fun h => absurd h hv.nonempty }
  | some found =>
    obtain ⟨name, version⟩ := found
    rw [hfind] at hrenderable
    have hsplit := rfind_eq_some hfind
    refine { hm with
      toRenderable := hrenderable
      version_last := fun c hc => hv.trimmed.last c ?_
      version_plain := fun hinfix => rfind_last hfind (separator_infix_iff.mpr hinfix)
      version_of_name := fun hname => ?_ }
    -- the version is the end of the value, and that is trimmed
    · have hne : version ≠ [] := fun h => by
        rw [h] at hc
        exact absurd hc (by simp)
      rw [hsplit, List.getLast?_append_of_ne_nil _ (List.append_ne_nil_of_right_ne_nil _ hne),
        List.getLast?_append_of_ne_nil _ hne]
      exact hc
    · -- the separator starts with a blank, and the value does not
      have hblank := hv.trimmed.head 0x20
      rw [hsplit, show name = [] from hname] at hblank
      exact absurd (hblank rfl) (by decide)

theorem absorb_source_fromLines {value : Str} {m : TraceMetadata} (hv : FieldValue value)
    (hm : m.FromLines) : (absorb_source value m).FromLines := by
  have hrenderable := absorb_source_renderable hv.headerText hm.toRenderable
  have hsame : ∃ file line, absorb_source value m =
      { m with source_file := file, source_line := line } := by
    rw [absorb_source]
    split
    · exact ⟨_, _, rfl⟩
    split
    · exact ⟨_, _, rfl⟩
    · exact ⟨_, _, rfl⟩
  obtain ⟨file, line, heq⟩ := hsame
  rw [heq] at hrenderable ⊢
  exact { hm with toRenderable := hrenderable }

theorem absorb_metadata_fromLines {body : Str} {m m' : TraceMetadata} (hbody : newline ∉ body)
    (hm : m.FromLines) (h : absorb_metadata body m = some m') : m'.FromLines := by
  simp only [absorb_metadata] at h
  split at h
  · exact absurd h (by simp)
  · rename_i hshape
    rw [Bool.or_eq_true, not_or, List.isEmpty_iff] at hshape
    have hv : FieldValue (trim (body.drop ((body.takeWhile (· ≠ 0x3A)).length + 1))) :=
      ⟨⟨trim_trimmed _, fun hmem => hbody (List.mem_of_mem_drop (mem_of_mem_trim hmem))⟩, hshape.2⟩
    revert m' h
    rw [absorb_field]
    apply absorbed_of_ite (absorb_program_fromLines hv hm)
    refine absorbed_of_ite { hm with
      description := hv.headerText
      description_trimmed := hv.trimmed } ?_
    apply absorbed_of_ite (absorb_source_fromLines hv hm)
    refine absorbed_of_ite { hm with
      build_timestamp := hv.headerText
      build_trimmed := hv.trimmed } ?_
    -- the other fields are not written, or are numbers
    iterate 9 refine absorbed_of_ite (hm.of_written rfl rfl rfl rfl rfl) ?_
    exact fun m' h => absurd h (by simp)

/-- What holds of a program read from any text. -/
structure Program.FromLines (p : Program) : Prop where
  metadata : p.metadata.FromLines
  table : p.modulus_table.length ≤ Reader.max_size
  annotations : ∀ note ∈ p.annotations, note.Renderable

theorem fromLines_of_reads {F : FloatText} {t : Str} {r r' : Reader} (hline : newline ∉ t)
    (hr : r.result_.program.FromLines) (h : Reader.Reads F t r.next r') :
    r'.result_.program.FromLines := by
  -- what is taken from a line lies in it, so it has no break either
  have hbody : newline ∉ trim (t.drop 1) := fun hmem =>
    hline (List.mem_of_mem_drop (mem_of_mem_trim hmem))
  cases h with
  | skip | error => exact hr
  | header m _ habsorb =>
    exact { hr with metadata := absorb_metadata_fromLines hbody hr.metadata habsorb }
  | note _ hnote =>
    refine { hr with annotations := List.forall_mem_append.mpr ⟨hr.annotations, ?_⟩ }
    exact List.forall_mem_singleton.mpr ⟨hnote, trim_trimmed _, hbody⟩
  | entry value _ hroom =>
    refine { hr with table := ?_ }
    show (r.result_.program.modulus_table ++ [value]).length ≤ _
    rw [List.length_append, List.length_singleton]
    exact hroom
  | instruction =>
    rcases hL : r.next.lineInstruction F t with ⟨- | inst, d⟩
    · rw [Reader.instruction_line_of_none hL]
      exact hr
    · rw [Reader.instruction_line_of_some hL]
      exact { hr with }

theorem read_fhetch_text_fromLines {F : FloatText} {text : Str} {r : ReadResult}
    (h : read_fhetch_text F text = some r) : r.program.FromLines := by
  obtain ⟨final, hlines, rfl⟩ := Option.map_eq_some_iff.mp h
  have hstart : (Reader.result_ {}).program.FromLines :=
    ⟨.default, Nat.zero_le _, fun _ h => absurd h List.not_mem_nil⟩
  have hfinal : final.result_.program.FromLines := by
    refine Reader.read_lines_induct_at (I := fun r => r.result_.program.FromLines) hstart ?_ hlines
    intro pre line rest r r' hcut _ hr hreads
    apply fromLines_of_reads _ hr hreads
    intro hmem
    refine newline_not_mem_getlines text line ?_ (mem_of_mem_trim hmem)
    rw [hcut]
    exact List.mem_append_right pre List.mem_cons_self
  have hmeta := hfinal.metadata
  exact { hfinal with metadata := { hmeta with } }

/-! ## What the written header gives back -/

/-- The fields that the reader has a key for, but for the two counts, are the same. -/
structure TraceMetadata.SameHeader (m m' : TraceMetadata) : Prop where
  program_name : m'.program_name = m.program_name
  program_version : m'.program_version = m.program_version
  description : m'.description = m.description
  source_file : m'.source_file = m.source_file
  source_line : m'.source_line = m.source_line
  build_timestamp : m'.build_timestamp = m.build_timestamp
  generated_timestamp : m'.generated_timestamp = m.generated_timestamp
  scheme : m'.scheme = m.scheme
  ring_dimension : m'.ring_dimension = m.ring_dimension
  multiplicative_depth : m'.multiplicative_depth = m.multiplicative_depth
  security_level : m'.security_level = m.security_level
  trace_file : m'.trace_file = m.trace_file

/-- **Metadata that survives its header.** Nothing is set that the writer has no line for,
a line number is one and has its file, and a name without a version is no name with one. -/
structure TraceMetadata.Rewritable (m : TraceMetadata) : Prop where
  scheme : m.scheme = []
  ring_dimension : m.ring_dimension = 0
  multiplicative_depth : m.multiplicative_depth = 0
  security_level : m.security_level = []
  trace_file : m.trace_file = []
  source_line : 0 ≤ m.source_line.toInt
  line_of_file : m.source_file = [] → m.source_line = 0
  name_alone : m.program_version = [] → Trimmed m.program_name ∧ ¬ str " v" <:+: m.program_name

section Fields

variable {m : TraceMetadata}

theorem trim_eq_self_iff {s : Str} : trim s = s ↔ Trimmed s :=
  ⟨fun h => h ▸ trim_trimmed s, trim_of_trimmed⟩

theorem rereadProgram_iff (hm : m.FromLines) :
    rereadProgram m = (m.program_name, m.program_version) ↔
      (m.program_version = [] → Trimmed m.program_name ∧ ¬ str " v" <:+: m.program_name) := by
  by_cases hname : m.program_name = []
  · rw [rereadProgram, hname, hm.version_of_name hname]
    exact iff_of_true rfl fun _ => ⟨.nil, by decide⟩
  have hne : ¬ m.program_name.isEmpty = true := fun h => hname (List.isEmpty_iff.mp h)
  rw [rereadProgram, if_neg hne, programText]
  by_cases hversion : m.program_version = []
  · -- a name alone is taken whole when there is nothing to trim and nothing to split at
    rw [hversion, List.isEmpty_nil, if_pos rfl, List.append_nil, absorb_program]
    cases hfind : rfind (str " v") (trim m.program_name) with
    | none =>
      have hplain := rfind_eq_none_iff.mp hfind
      refine ⟨fun h _ => ?_, fun h => ?_⟩
      · have htrim : trim m.program_name = m.program_name := (Prod.mk.inj h).1
        rw [htrim] at hplain
        exact ⟨trim_eq_self_iff.mp htrim, hplain⟩
      · rw [trim_of_trimmed (h rfl).1]
    | some found =>
      have hsplit := rfind_eq_some hfind
      refine iff_of_false (fun h => ?_) fun h => ?_
      -- a name that was split off is shorter than the text by two
      · have hlong := congrArg List.length hsplit
        rw [show found.1 = m.program_name from (Prod.mk.inj h).1, List.length_append,
          List.length_append] at hlong
        have hshort := length_trim_le m.program_name
        have htwo : (str " v").length = 2 := rfl
        omega
      · obtain ⟨htrimmed, hplain⟩ := h rfl
        have hnone : rfind (str " v") m.program_name = none := rfind_eq_none_iff.mpr hplain
        rw [trim_of_trimmed htrimmed, hnone] at hfind
        exact absurd hfind (by simp)
  · have htrimmed : Trimmed (m.program_name ++ (str " v" ++ m.program_version)) := by
      obtain ⟨c, cs, hcons⟩ := List.exists_cons_of_ne_nil hname
      refine ⟨fun d hd => hm.program_name.start d ?_, fun d hd => hm.version_last d ?_⟩
      · rw [hcons] at hd ⊢
        exact hd
      · rwa [← List.append_assoc, List.getLast?_append_of_ne_nil _ hversion] at hd
    have hlast : ¬ str " v" <:+: str "v" ++ m.program_version := fun h =>
      hm.version_plain (separator_infix_iff.mp h)
    have hfind : rfind (str " v") (m.program_name ++ (str " v" ++ m.program_version)) =
        some (m.program_name, m.program_version) := rfind_append_pattern hlast m.program_name
    rw [if_neg fun h => hversion (List.isEmpty_iff.mp h), trim_of_trimmed htrimmed, absorb_program,
      hfind]
    exact iff_of_true rfl fun h => absurd h hversion

/-- A signed number is none to the reader. -/
theorem to_uint_minus (n : ℕ) : to_uint (str "-" ++ decimal n) = none := by
  have hoperand : Operand (str "-" ++ decimal n) :=
    (operand_decimal n).prepend ⟨.of_all (by decide) (by decide), by decide, by decide⟩
  rw [to_uint, strip_comma_operand hoperand]
  rfl

theorem rereadSource_iff (hm : m.FromLines) :
    rereadSource m = (m.source_file, m.source_line) ↔
      0 ≤ m.source_line.toInt ∧ (m.source_file = [] → m.source_line = 0) := by
  by_cases hfile : m.source_file = []
  · rw [rereadSource, hfile, List.isEmpty_nil, if_pos rfl]
    refine ⟨fun h => ?_, fun h => ?_⟩
    · have hline : m.source_line = 0 := (Prod.mk.inj h).2.symm
      rw [hline]
      exact ⟨by decide, fun _ => rfl⟩
    · rw [h.2 rfl]
  have hne : ¬ m.source_file.isEmpty = true := fun h => hfile (List.isEmpty_iff.mp h)
  have hoperand : Operand (intDecimal m.source_line) := by
    rw [intDecimal]
    split
    · exact (operand_decimal _).prepend ⟨.of_all (by decide) (by decide), by decide, by decide⟩
    · exact operand_decimal _
  have htrimmed : Trimmed (sourceText m) := by
    obtain ⟨c, cs, hcons⟩ := List.exists_cons_of_ne_nil hfile
    refine ⟨fun d hd => hm.source_file.start d ?_, fun d hd => hoperand.trimmed.last d ?_⟩
    · rw [sourceText, hcons] at hd
      rw [hcons]
      exact hd
    · rwa [sourceText, ← List.append_assoc,
        List.getLast?_append_of_ne_nil _ hoperand.nonempty] at hd
  rw [rereadSource, if_neg hne, trim_of_trimmed htrimmed]
  by_cases hline : 0 ≤ m.source_line.toInt
  · rw [sourceText, absorb_source_read hline]
    exact iff_of_true rfl ⟨hline, fun h => absurd h hfile⟩
  · refine iff_of_false (fun h => ?_) fun h => hline h.1
    have hminus : intDecimal m.source_line = str "-" ++ decimal m.source_line.toInt.natAbs :=
      if_pos (Int.not_le.mp hline)
    have hdigits : (0x3A : UInt8) ∉ decimal m.source_line.toInt.natAbs :=
      not_mem_numeral (by decide) (by decide) _ (by decide)
    have hcolon : ¬ [0x3A] <:+: ([] ++ (str "-" ++ decimal m.source_line.toInt.natAbs)) := by
      intro h
      rw [List.nil_append] at h
      exact (List.mem_append.mp (h.subset List.mem_cons_self)).elim (by decide) hdigits
    have hfind : rfind (str ":") (sourceText m) =
        some (m.source_file, str "-" ++ decimal m.source_line.toInt.natAbs) := by
      rw [sourceText, hminus]
      exact rfind_append_pattern hcolon m.source_file
    -- the number behind the colon is not taken, so the file gets it all
    rw [absorb_source, hfind] at h
    simp only [to_uint_minus] at h
    have hlong := congrArg List.length (Prod.mk.inj h).1
    rw [sourceText, List.length_append, List.length_append] at hlong
    have hone : (str ":").length = 1 := rfl
    omega

/-- **A header gives back exactly the metadata that survives it.** -/
theorem sameHeader_reread_iff (hm : m.FromLines) (n c : ℕ) :
    m.SameHeader (rereadMetadata m n c) ↔ m.Rewritable := by
  have hdescription := trim_of_trimmed hm.description_trimmed
  have hbuild := trim_of_trimmed hm.build_trimmed
  constructor
  · intro h
    have hprogram := (rereadProgram_iff hm).mp (Prod.ext h.program_name h.program_version)
    obtain ⟨hline, hfile⟩ := (rereadSource_iff hm).mp (Prod.ext h.source_file h.source_line)
    exact ⟨h.scheme.symm, h.ring_dimension.symm, h.multiplicative_depth.symm,
      h.security_level.symm, h.trace_file.symm, hline, hfile, hprogram⟩
  · intro h
    obtain ⟨hname, hversion⟩ := Prod.mk.inj ((rereadProgram_iff hm).mpr h.name_alone)
    obtain ⟨hfile, hline⟩ :=
      Prod.mk.inj ((rereadSource_iff hm).mpr ⟨h.source_line, h.line_of_file⟩)
    exact ⟨hname, hversion, hdescription, hfile, hline, hbuild, rfl, h.scheme.symm,
      h.ring_dimension.symm, h.multiplicative_depth.symm, h.security_level.symm,
      h.trace_file.symm⟩

end Fields

/-! ## The lines behind the header -/

/-- A line that the reader takes nothing for the header from. -/
def Unheaded (l : Str) : Prop := Reader.lineKind (trim l) = .comment →
  ∀ m, absorb_metadata (trim ((trim l).drop 1)) m = none

/-- A kept comment on a line of its own. -/
def noteLine (note : Annotation) : Str := str "# " ++ note.text

section Lines

variable {F : FloatText}

theorem unheaded_of_kind {l : Str} (h : Reader.lineKind (trim l) ≠ .comment) : Unheaded l :=
  fun hkind => absurd hkind h

theorem noteLine_body {note : Annotation} (h : note.Renderable) :
    newline ∉ noteLine note ∧ Reader.lineKind (trim (noteLine note)) = .comment ∧
      trim ((trim (noteLine note)).drop 1) = note.text := by
  have hhash : Trimmed [0x23] := .of_ends (by decide) (by decide)
  have htrimmed : Trimmed (noteLine note) :=
    hhash.between (List.cons_ne_nil _ _) h.trimmed h.content.nonempty [0x20]
  rw [trim_of_trimmed htrimmed]
  refine ⟨fun hmem => ?_, rfl, ?_⟩
  · exact (List.mem_append.mp hmem).elim (by decide) h.unbroken
  · exact (trim_cons_of_blank (by decide) note.text).trans (trim_of_trimmed h.trimmed)

theorem unheaded_noteLine {note : Annotation} (h : note.Renderable) : Unheaded (noteLine note) := by
  intro _
  rw [(noteLine_body h).2.2]
  exact h.content.unabsorbed

/-- An instruction is written on one line, which is no comment. -/
theorem render_instruction_line (hF : ∀ v, newline ∉ F.to_string v) {inst : Instruction}
    (h : ¬ (render_instruction F inst).isEmpty = true) : newline ∉ render_instruction F inst ∧
      Reader.lineKind (trim (render_instruction F inst)) = .instruction := by
  cases hm : fh_opcode_mnemonic inst.opcode with
  | none => exact absurd (by rw [render_instruction, hm]; rfl) h
  | some mnemonic =>
    by_cases hform : fh_operand_form inst.opcode = .PolyScalarNI
    · obtain ⟨hword, -, hhash, hm'⟩ := mnemonic_word hm
      obtain ⟨c, cs, hcons⟩ := List.exists_cons_of_ne_nil hword.nonempty
      have hline : render_instruction F inst = mnemonic ++ (str " %" ++ (decimal inst.dest.toNat ++
          (str ", %" ++ (decimal inst.src1.toNat ++
            (str ", " ++ F.to_string (inst.fp_immediate.getD 0)))))) := by
        simp only [render_instruction, hm, hform, append_addr, List.append_assoc]
        rfl
      have hdecimal : ∀ n, newline ∉ decimal n := fun n => (headerText_decimal n).unbroken
      have hmnemonic : newline ∉ mnemonic := fun h' => absurd (hword.solid _ h') (by decide)
      rw [hline]
      refine ⟨?_, ?_⟩
      · simp only [List.mem_append, not_or]
        exact ⟨hmnemonic, by decide, hdecimal _, by decide, hdecimal _, by decide, hF _⟩
      -- the mnemonic starts the line, and starts no other kind of line
      · have hc : isBlank c = false := hword.trimmed.head c (by rw [hcons]; rfl)
        rw [hcons, List.head?_cons] at hhash hm'
        rw [hcons, List.cons_append, trim_cons_of_not_blank hc]
        exact lineKind_of_head (fun h' => hhash (by rw [h'])) (fun h' => hm' (by rw [h'])) _
    · have hline : InstructionLine (render_instruction F inst) := by
        apply instructionLine_of_mnemonic hm
        rw [render_instruction_eq F hm hform]
        split
        · exact .inl rfl
        · rename_i hnone
          exact .inr ⟨operandTexts inst, operandTexts_ne_nil hnone, operand_operandTexts inst, rfl⟩
      rw [trim_of_trimmed hline.trimmed]
      exact ⟨hline.unbroken, hline.kind⟩

/-- A line of the stream: a note, or an instruction. -/
def StreamLine (l : Str) : Prop := newline ∉ l ∧
  ((∃ note : Annotation, note.Renderable ∧ l = noteLine note) ∨
    Reader.lineKind (trim l) = .instruction)

/-- **The stream is lines**, and every note is one of them. -/
theorem render_stream_lines (hF : ∀ v, newline ∉ F.to_string v) (insts : List Instruction) :
    ∀ (i : ℕ) {notes : List Annotation}, (∀ note ∈ notes, note.Renderable) →
      ∃ ls : List Str, render_stream F i insts notes = ls.flatMap endLine ∧
        (∀ l ∈ ls, StreamLine l) ∧ ∀ note ∈ notes, noteLine note ∈ ls := by
  have hnote : ∀ {note : Annotation}, note.Renderable → StreamLine (noteLine note) :=
    fun h => ⟨(noteLine_body h).1, .inl ⟨_, h, rfl⟩⟩
  have hblock : ∀ notes : List Annotation,
      notes.flatMap render_note = (notes.map noteLine).flatMap endLine := by
    intro notes
    rw [List.flatMap_map]
    rfl
  induction insts with
  | nil =>
    intro i notes hnotes
    refine ⟨notes.map noteLine, hblock notes, ?_, fun note h => List.mem_map_of_mem h⟩
    rintro _ hl
    obtain ⟨note, hmem, rfl⟩ := List.mem_map.mp hl
    exact hnote (hnotes note hmem)
  | cons inst insts ih =>
    intro i notes hnotes
    have hcut : notes.takeWhile (fun note => decide (note.after_instruction ≤ i)) ++
        notes.dropWhile (fun note => decide (note.after_instruction ≤ i)) = notes :=
      List.takeWhile_append_dropWhile
    rw [render_stream]
    generalize notes.takeWhile (fun note => decide (note.after_instruction ≤ i)) = due at hcut ⊢
    generalize notes.dropWhile (fun note => decide (note.after_instruction ≤ i)) = later at hcut ⊢
    obtain rfl := hcut
    obtain ⟨hdue, hlater⟩ := List.forall_mem_append.mp hnotes
    obtain ⟨ls, hls, hlines, hmem⟩ := ih (i + 1) hlater
    -- an instruction that renders to nothing has no line
    have hinst : ∃ line : List Str, (if (render_instruction F inst).isEmpty = true then [] else
        endLine (render_instruction F inst)) = line.flatMap endLine ∧ ∀ l ∈ line, StreamLine l := by
      split
      · exact ⟨[], rfl, fun _ h => absurd h List.not_mem_nil⟩
      · rename_i hsome
        obtain ⟨hunbroken, hkind⟩ := render_instruction_line hF hsome
        refine ⟨[render_instruction F inst], (List.append_nil _).symm, ?_⟩
        exact List.forall_mem_singleton.mpr ⟨hunbroken, .inr hkind⟩
    obtain ⟨line, hline, hline'⟩ := hinst
    refine ⟨due.map noteLine ++ (line ++ ls), ?_, ?_, ?_⟩
    · rw [hline, hls, hblock, List.flatMap_append, List.flatMap_append, List.append_assoc]
    · refine List.forall_mem_append.mpr ⟨fun l hl => ?_, List.forall_mem_append.mpr ⟨hline', hlines⟩⟩
      obtain ⟨note, hmem, rfl⟩ := List.mem_map.mp hl
      exact hnote (hdue note hmem)
    · intro note hnote
      rcases List.mem_append.mp hnote with h | h
      · exact List.mem_append_left _ (List.mem_map_of_mem h)
      · exact List.mem_append_right _ (List.mem_append_right _ (hmem note h))

theorem StreamLine.unheaded {l : Str} (h : StreamLine l) : Unheaded l := by
  rcases h.2 with ⟨note, hnote, rfl⟩ | hkind
  · exact unheaded_noteLine hnote
  · exact unheaded_of_kind (by rw [hkind]; decide)

/-- What stands between the header and the stream. -/
def tableText (table : List UInt64) : Str :=
  (endLine [] ++ endLine (str "# Modulus Table")) ++ render_modulus_table table ++
    (endLine [] ++ endLine (str "# Instructions"))

/-- A line that starts with anything but a comment's character is none. -/
theorem unheaded_of_head {c : UInt8} (hc : isBlank c = false) (hhash : c ≠ 0x23) (cs : Str) :
    Unheaded (c :: cs) := by
  apply unheaded_of_kind
  rw [trim_cons_of_not_blank hc, Reader.lineKind, List.isEmpty_cons, if_neg Bool.false_ne_true,
    List.head?_cons, if_neg (by rw [Option.some_inj]; exact hhash)]
  split
  · decide
  · split <;> decide

theorem tableText_lines (table : List UInt64) :
    ∃ ls : List Str, tableText table = ls.flatMap endLine ∧ ∀ l ∈ ls, newline ∉ l ∧ Unheaded l := by
  have hlabel : ∀ label ∈ [str "# Modulus Table", str "# Instructions"],
      newline ∉ label ∧ absorb_metadata (trim ((trim label).drop 1)) {} = none := by decide
  have hlabel' : ∀ label ∈ [str "# Modulus Table", str "# Instructions"],
      newline ∉ label ∧ Unheaded label := fun label hmem =>
    ⟨(hlabel label hmem).1, fun _ => Reader.absorb_metadata_eq_none (hlabel label hmem).2⟩
  have hblank : newline ∉ ([] : Str) ∧ Unheaded [] := ⟨List.not_mem_nil, unheaded_of_kind (by decide)⟩
  have hcount : newline ∉ str "modulus_count " ++ decimal table.length ∧
      Unheaded (str "modulus_count " ++ decimal table.length) :=
    ⟨fun h => (List.mem_append.mp h).elim (by decide) (headerText_decimal _).unbroken,
      unheaded_of_head (c := 0x6D) (by decide) (by decide) _⟩
  have hentry : ∀ i q, newline ∉ render_modulus_entry i q ∧ Unheaded (render_modulus_entry i q) := by
    intro i q
    have hhex : newline ∉ numeral 16 q.toNat :=
      not_mem_numeral (by decide) (by decide) _ (by decide)
    refine ⟨?_, unheaded_of_head (c := 0x6D) (by decide) (by decide) _⟩
    simp only [render_modulus_entry, List.mem_append, not_or]
    exact ⟨⟨⟨by decide, (headerText_decimal _).unbroken⟩, by decide⟩, hhex⟩
  refine ⟨[[], str "# Modulus Table", str "modulus_count " ++ decimal table.length] ++
    (table.mapIdx render_modulus_entry ++ [[], str "# Instructions"]), ?_, ?_⟩
  -- entry by entry or all lines at once, the text is the same
  · have hflat : (table.mapIdx fun i q => endLine (render_modulus_entry i q)).flatten =
        (table.mapIdx render_modulus_entry).flatMap endLine := by
      rw [List.flatMap_def, List.mapIdx_eq_zipIdx_map, List.mapIdx_eq_zipIdx_map, List.map_map]
      rfl
    rw [tableText, render_modulus_table, hflat]
    simp only [List.flatMap_append, List.flatMap_cons, List.flatMap_nil, List.append_nil,
      List.append_assoc]
  · intro l hl
    rcases List.mem_append.mp hl with hl | hl
    · simp only [List.mem_cons, List.not_mem_nil, or_false] at hl
      rcases hl with rfl | rfl | rfl
      · exact hblank
      · exact hlabel' _ List.mem_cons_self
      · exact hcount
    rcases List.mem_append.mp hl with hl | hl
    · obtain ⟨i, hi, rfl⟩ := List.mem_mapIdx.mp hl
      exact hentry i _
    · simp only [List.mem_cons, List.not_mem_nil, or_false] at hl
      rcases hl with rfl | rfl
      · exact hblank
      · exact hlabel' _ (List.mem_cons_of_mem _ List.mem_cons_self)

/-- **The text in front of the stream is read**, and leaves the table. -/
theorem turns_front (F : FloatText) {m : TraceMetadata} (hm : m.Renderable) {table : List UInt64}
    (htable : table.length ≤ Reader.max_size) (n c : ℕ) :
    Turns F (render_header m n c ++ tableText table) ⟨[], [], []⟩ ⟨table, [], []⟩ := by
  have hlabel : ∀ {s : Content} {l : Str}, newline ∉ l → trim l ∈ Reader.labels →
      Turns F (endLine [] ++ endLine (0x23 :: l)) s s :=
    fun hl h => turns_blank.append (turns_label hl (.inr h))
  have hmoduli : Turns F (render_modulus_table table) ⟨[], [], []⟩ ⟨table, [], []⟩ :=
    (turns_modulus_count htable).append (turns_modulus_table rfl table htable)
  exact (turns_render_header hm n c).append
    (((hlabel (by decide) (by decide)).append hmoduli).append (hlabel (by decide) (by decide)))

end Lines

/-! ## Notes are kept -/

namespace Reader

variable {F : FloatText} {r r' : Reader}

theorem comment_of_isNote (r : Reader) {t : Str} (h : IsNote (trim (t.drop 1))) :
    r.comment t = r.annotate (trim (t.drop 1)) := by
  have hskip : ¬ ((trim (t.drop 1)).isEmpty || (trim (t.drop 1)).all (· = 0x3D) ||
      decide (trim (t.drop 1) ∈ labels)) = true := by
    rw [List.isEmpty_eq_false_iff.mpr h.nonempty, h.content, decide_eq_false h.unlabelled]
    exact Bool.false_ne_true
  rw [comment, if_neg hskip, h.unabsorbed]
  rfl

/-- A read only adds notes. -/
theorem annotations_read_lines {lines : List Str} (h : read_lines F r lines = some r') :
    r.result_.program.annotations <+: r'.result_.program.annotations := by
  refine read_lines_induct
    (I := fun r' => r.result_.program.annotations <+: r'.result_.program.annotations) ?_ lines
    (List.prefix_refl _) h
  intro t r₁ r₂ hpre hreads
  cases hreads with
  | skip | header | error | entry => exact hpre
  | note => exact hpre.trans (List.prefix_append _ _)
  | instruction =>
    rcases hL : r₁.next.lineInstruction F t with ⟨- | inst, d⟩
    · rw [instruction_line_of_none hL]
      exact hpre
    · rw [instruction_line_of_some hL]
      exact hpre

theorem note_of_read_lines {lines : List Str} (h : read_lines F r lines = some r') {l : Str}
    (hl : l ∈ lines) (hkind : lineKind (trim l) = .comment)
    (hnote : IsNote (trim ((trim l).drop 1))) :
    ∃ note ∈ r'.result_.program.annotations, note.text = trim ((trim l).drop 1) := by
  obtain ⟨pre, rest, rfl⟩ := List.append_of_mem hl
  rw [read_lines, List.foldlM_append] at h
  obtain ⟨r₁, -, hlast⟩ := Option.bind_eq_some_iff.mp h
  rw [List.foldlM_cons] at hlast
  obtain ⟨r₂, hline, hrest⟩ := Option.bind_eq_some_iff.mp hlast
  rw [read_line, hkind] at hline
  obtain rfl := Option.some.inj hline
  refine ⟨⟨r₁.next.line_, trim ((trim l).drop 1), r₁.next.result_.program.instructions.length⟩,
    (annotations_read_lines hrest).subset ?_, rfl⟩
  show _ ∈ (r₁.next.comment (trim l)).result_.program.annotations
  rw [comment_of_isNote _ hnote]
  exact List.mem_append_right _ List.mem_cons_self

/-- Lines that are no counts and no entries are read. -/
theorem read_lines_of_plain {lines : List Str} : ∀ {r : Reader},
    (∀ l ∈ lines, lineKind (trim l) ≠ .modulusCount ∧ lineKind (trim l) ≠ .modulusEntry) →
      ∃ r', read_lines F r lines = some r' := by
  induction lines with
  | nil => exact fun _ => ⟨_, rfl⟩
  | cons l rest ih =>
    intro r h
    obtain ⟨⟨hcount, hentry⟩, hrest⟩ := List.forall_mem_cons.mp h
    have hline : ∃ r', read_line F r l = some r' := by
      rw [read_line]
      cases hkind : lineKind (trim l) with
      | modulusCount => exact absurd hkind hcount
      | modulusEntry => exact absurd hkind hentry
      | blank | comment | instruction => exact ⟨_, rfl⟩
    obtain ⟨mid, hmid⟩ := hline
    obtain ⟨r', hr'⟩ := ih (r := mid) hrest
    refine ⟨r', ?_⟩
    rw [read_lines, List.foldlM_cons, hmid]
    exact hr'

end Reader

/-! ## Reading what was written -/

theorem StreamLine.plain {l : Str} (h : StreamLine l) :
    Reader.lineKind (trim l) ≠ .modulusCount ∧ Reader.lineKind (trim l) ≠ .modulusEntry := by
  rcases h.2 with ⟨note, hnote, rfl⟩ | hkind
  · rw [(noteLine_body hnote).2.1]
    decide
  · rw [hkind]
    decide

/-- **What is written is read**: the header gives the metadata, and every note is back. -/
theorem read_rewritten {F : FloatText} (hF : ∀ v, newline ∉ F.to_string v) {p : Program}
    (hp : p.FromLines) : ∃ r : ReadResult, read_fhetch_text F (write_fhetch_text F p) = some r ∧
      { r.program.metadata with modulus_chain := [] } =
        rereadMetadata p.metadata p.instructions.length p.modulus_table.length ∧
      ∀ note ∈ p.annotations, ∃ note' ∈ r.program.annotations, note'.text = note.text := by
  obtain ⟨stream, hstream, hlines, hmem⟩ := render_stream_lines hF p.instructions 0 hp.annotations
  obtain ⟨front, hfront, hfront'⟩ := tableText_lines p.modulus_table
  have htext : write_fhetch_text F p =
      render_header p.metadata p.instructions.length p.modulus_table.length ++
        (tableText p.modulus_table ++ stream.flatMap endLine) := by
    rw [write_fhetch_text, hstream, tableText]
    simp only [List.append_assoc]
  have hgetlines : getlines (stream.flatMap endLine) = stream := by
    have := getlines_flatMap (fun l hl => (hlines l hl).1) []
    rwa [List.append_nil, getlines, List.append_nil] at this
  -- the front is read without a word, and the stream cannot fail
  obtain ⟨r₁, -, hread⟩ :=
    turns_front F hp.metadata.toRenderable hp.table p.instructions.length
      p.modulus_table.length {} ⟨rfl, rfl⟩
  obtain ⟨r₂, hr₂⟩ := Reader.read_lines_of_plain (F := F) (r := r₁) fun l hl => (hlines l hl).plain
  have hall : Reader.read_lines F {} (getlines (write_fhetch_text F p)) = some r₂ := by
    rw [htext, ← List.append_assoc, hread, hgetlines, hr₂]
  refine ⟨r₂.finish, by rw [read_fhetch_text, hall]; rfl, ?_, fun note hnote => ?_⟩
  · -- behind the header nothing more is taken for it
    obtain ⟨r₀, hr₀, hskip⟩ := absorbs_render_header_text F hp.metadata.toRenderable
      p.instructions.length p.modulus_table.length {} rfl
    have hheaderless : Headerless
        (getlines (tableText p.modulus_table ++ stream.flatMap endLine)) := by
      have hcut : getlines (front.flatMap endLine ++ stream.flatMap endLine) =
          front ++ getlines (stream.flatMap endLine) :=
        getlines_flatMap (fun l hl => (hfront' l hl).1) _
      rw [hfront, hcut, hgetlines]
      intro l hl
      rcases List.mem_append.mp hl with hl | hl
      · exact (hfront' l hl).2
      · exact (hlines l hl).unheaded
    rw [htext, hskip] at hall
    have hmeta := (metadata_of_headerless hheaderless hall).trans hr₀
    show { r₂.result_.program.metadata with modulus_chain := [] } = _
    rw [hmeta]
    rfl
  · have hrenderable := hp.annotations note hnote
    obtain ⟨-, hkind, hbody⟩ := noteLine_body hrenderable
    have hisNote : Reader.IsNote (trim ((trim (noteLine note)).drop 1)) := by
      rw [hbody]
      exact hrenderable.content
    obtain ⟨note', hnote', htext'⟩ :=
      Reader.note_of_read_lines hr₂ (hmem note hnote) hkind hisNote
    exact ⟨note', hnote', htext'.trans hbody⟩

/-! ## Comment lines -/

/-- The text of a comment line. -/
def commentBody (line : Str) : Str := trim ((trim line).drop 1)

/-- A comment that the writer has of its own: an empty one, a rule, or a label. -/
def Layout (body : Str) : Prop := body = [] ∨ body.all (· = 0x3D) ∨ body ∈ Reader.labels

/-- The keys whose value is an `int`. -/
def intKeys : List Str := [str "Instruction Count", str "Modulus Count", str "Modulus Chain Length",
  str "Ring Dimension", str "Multiplicative Depth"]

def headerKey (body : Str) : Str := trim (body.takeWhile (· ≠ 0x3A))

def headerValue (body : Str) : Str := trim (body.drop ((body.takeWhile (· ≠ 0x3A)).length + 1))

/-- A number that `static_cast<int>` leaves as it is. -/
def fitsInt (n : UInt64) : Bool := n.toNat < 2 ^ 31

/-- A header line whose value its field takes as it stands: of a number's key it is one
that fits, and so is the line number behind a source file. -/
structure Taken (body : Str) : Prop where
  int : headerKey body ∈ intKeys → (to_uint (headerValue body)).any fitsInt
  generated : headerKey body = str "Generated" → (to_uint (headerValue body)).isSome
  line : headerKey body = str "Source" →
    (rfind (str ":") (headerValue body)).all fun (_, line) => (to_uint line).all fitsInt

/-- Metadata without the counts and the table, which say what was written. -/
def TraceMetadata.header (m : TraceMetadata) : TraceMetadata :=
  { m with instruction_count := 0, modulus_chain_length := 0, modulus_chain := [] }

/-- A comment line that metadata say: a header line whose value is taken, and would change
nothing, a count apart. -/
def SaidBy (m : TraceMetadata) (body : Str) : Prop :=
  Taken body ∧ (absorb_metadata body m).map TraceMetadata.header = some m.header

theorem TraceMetadata.sameHeader_iff {m m' : TraceMetadata} : m.SameHeader m' ↔ m'.header = m.header := by
  constructor
  · intro h
    rw [header, header, h.program_name, h.program_version, h.description, h.source_file, h.source_line,
      h.build_timestamp, h.generated_timestamp, h.scheme, h.ring_dimension, h.multiplicative_depth,
      h.security_level, h.trace_file]
  · intro h
    rw [header, header, TraceMetadata.mk.injEq] at h
    obtain ⟨hname, hversion, htrace, hdescription, hfile, hline, hbuild, -, hgenerated, hscheme, hring, hdepth,
      hlevel, -, -⟩ := h
    exact ⟨hname, hversion, hdescription, hfile, hline, hbuild, hgenerated, hscheme, hring, hdepth, hlevel, htrace⟩

theorem map_header_ite {c : Prop} [Decidable c] {m m' : TraceMetadata} {o o' : Option TraceMetadata}
    (hm : m.header = m'.header) (ho : o.map TraceMetadata.header = o'.map TraceMetadata.header) :
    (if c then some m else o).map TraceMetadata.header = (if c then some m' else o').map TraceMetadata.header := by
  split
  · exact congrArg some hm
  · exact ho

theorem absorb_field_map_header (key value : Str) (m : TraceMetadata) :
    (absorb_field key value m.header).map TraceMetadata.header = (absorb_field key value m).map TraceMetadata.header := by
  have hprogram : (absorb_program value m.header).header = (absorb_program value m).header := by
    rw [absorb_program, absorb_program]
    split <;> rfl
  have hsource : (absorb_source value m.header).header = (absorb_source value m).header := by
    rw [absorb_source, absorb_source]
    split
    · rfl
    · split <;> rfl
  rw [absorb_field, absorb_field]
  refine map_header_ite hprogram (map_header_ite rfl (map_header_ite hsource ?_))
  -- every other field is set alike, or is a count
  iterate 10 refine map_header_ite rfl ?_
  rfl

/-- What a line makes of a header depends on the header only. -/
theorem absorb_map_header (body : Str) (m : TraceMetadata) :
    (absorb_metadata body m.header).map TraceMetadata.header = (absorb_metadata body m).map TraceMetadata.header := by
  rw [absorb_metadata, absorb_metadata]
  split
  · rfl
  · exact absorb_field_map_header _ _ m

/-- The same header says the same lines. -/
theorem SaidBy.of_sameHeader {m m' : TraceMetadata} {body : Str} (h : SaidBy m body) (hsame : m'.header = m.header) :
    SaidBy m' body := by
  refine ⟨h.1, ?_⟩
  rw [← absorb_map_header, hsame, absorb_map_header]
  exact h.2

/-- **Nothing of a header is lost**: its fields are the same when it is read again, and a
comment line that is no layout is said by the metadata then, or is a note of the new text. -/
structure HeaderSurvives (text : Str) (r r' : ReadResult) : Prop where
  fields : r.program.metadata.SameHeader r'.program.metadata
  comments : ∀ line ∈ getlines text, Reader.lineKind (trim line) = .comment →
    Layout (commentBody line) ∨ SaidBy r'.program.metadata (commentBody line) ∨
      ∃ note ∈ r'.program.annotations, note.text = commentBody line

/-- The header lines of a text whose values are taken, and are no other than what its
metadata say in the end. -/
def LinesSaid (text : Str) (m : TraceMetadata) : Prop :=
  ∀ line ∈ getlines text, Reader.lineKind (trim line) = .comment → ¬ Layout (commentBody line) →
    (absorb_metadata (commentBody line) m).isSome → SaidBy m (commentBody line)

/-- A comment that is neither layout nor a header line is a note. -/
theorem isNote_of_unabsorbed {body : Str} {m : TraceMetadata} (hlayout : ¬ Layout body)
    (h : absorb_metadata body m = none) : Reader.IsNote body := by
  obtain ⟨hne, hrest⟩ := not_or.mp hlayout
  obtain ⟨hcontent, hlabel⟩ := not_or.mp hrest
  exact ⟨hne, eq_false_of_ne_true hcontent, hlabel, Reader.absorb_metadata_eq_none h⟩

/-- **A header survives rewriting exactly when the writer has a line for what it sets**, and
every header line says what was read in the end. -/
theorem rewriting_keeps_header_iff (F : FloatText) (hF : ∀ v, newline ∉ F.to_string v) {text : Str}
    {r : ReadResult} (hread : read_fhetch_text F text = some r) :
    (∃ r', read_fhetch_text F (write_fhetch_text F r.program) = some r' ∧
      HeaderSurvives text r r') ↔ r.program.metadata.Rewritable ∧ LinesSaid text r.program.metadata := by
  have hlines := read_fhetch_text_fromLines hread
  obtain ⟨r', hr', hmeta, hnotes⟩ := read_rewritten hF hlines
  rw [← sameHeader_reread_iff hlines.metadata r.program.instructions.length
    r.program.modulus_table.length, ← hmeta]
  constructor
  · rintro ⟨r'', hr'', hsurvives⟩
    obtain rfl := Option.some.inj (hr'.symm.trans hr'')
    refine ⟨{ hsurvives.fields with }, fun line hline hkind hlayout habsorbed => ?_⟩
    have hsame := TraceMetadata.sameHeader_iff.mp hsurvives.fields
    rcases hsurvives.comments line hline hkind with h | h | ⟨note, hnote, heq⟩
    · exact absurd h hlayout
    · exact h.of_sameHeader hsame.symm
    · -- no note of a text that was read is a header line
      have hrenderable := (read_fhetch_text_fromLines hr').annotations note hnote
      rw [← heq, hrenderable.content.unabsorbed] at habsorbed
      exact absurd habsorbed (by simp)
  · rintro ⟨hsame, hsaid⟩
    have hfields : r.program.metadata.SameHeader r'.program.metadata := { hsame with }
    refine ⟨r', hr', hfields, fun line hline hkind => ?_⟩
    by_cases hlayout : Layout (commentBody line)
    · exact .inl hlayout
    cases habsorb : absorb_metadata (commentBody line) r.program.metadata with
    | some m =>
      have hline := hsaid line hline hkind hlayout (by rw [habsorb]; rfl)
      exact .inr (.inl (hline.of_sameHeader (TraceMetadata.sameHeader_iff.mp hfields)))
    | none =>
      have hnote := isNote_of_unabsorbed hlayout habsorb
      obtain ⟨final, hfinal, rfl⟩ := Option.map_eq_some_iff.mp hread
      obtain ⟨note, hmem, heq⟩ := Reader.note_of_read_lines hfinal hline hkind hnote
      obtain ⟨note', hmem', heq'⟩ := hnotes note hmem
      exact .inr (.inr ⟨note', hmem', heq'.trans heq⟩)

/-- A header of fields that the writer has lines for, and a note. -/
def matrixText : Str :=
  str "# Program: matrix_ops v1.0\n# Source: mat_mul.cpp:42\n# a note\nhalt\n"

theorem rewriting_keeps_header_plain : ∃ r, read_fhetch_text zeroFloatText matrixText = some r ∧
    ∃ r', read_fhetch_text zeroFloatText (write_fhetch_text zeroFloatText r.program) = some r' ∧
      HeaderSurvives matrixText r r' := by
  have hF : ∀ v, newline ∉ zeroFloatText.to_string v := fun _ => by
    show newline ∉ str "0.000000"
    decide
  have hany : (read_fhetch_text zeroFloatText matrixText).any (fun r =>
      let m := r.program.metadata
      decide (((m.scheme = [] ∧ m.ring_dimension = 0 ∧ m.multiplicative_depth = 0 ∧
        m.security_level = [] ∧ m.trace_file = []) ∧ 0 ≤ m.source_line.toInt ∧
          m.source_file ≠ [] ∧ m.program_version ≠ []) ∧
        ∀ line ∈ getlines matrixText, (absorb_metadata (commentBody line) m).isSome = true →
          (headerKey (commentBody line) ∉ intKeys ∧ headerKey (commentBody line) ≠ str "Generated" ∧
            ((rfind (str ":") (headerValue (commentBody line))).all fun (_, line) =>
              (to_uint line).all fitsInt) = true) ∧
            (absorb_metadata (commentBody line) m).map TraceMetadata.header = some m.header)) = true := by
    decide +kernel
  obtain ⟨r, hread, hr⟩ := (Option.any_eq_true _ _).mp hany
  obtain ⟨⟨⟨hscheme, hring, hdepth, hlevel, htrace⟩, hline, hfile, hversion⟩, hsaid⟩ := of_decide_eq_true hr
  exact ⟨r, hread, (rewriting_keeps_header_iff zeroFloatText hF hread).mpr
    ⟨⟨hscheme, hring, hdepth, hlevel, htrace, hline, fun h => absurd h hfile, fun h => absurd h hversion⟩,
      fun line hmem _ _ habsorbed =>
        have ⟨⟨hint, hgenerated, hline⟩, hsame⟩ := hsaid line hmem habsorbed
        ⟨⟨fun h => absurd h hint, fun h => absurd h hgenerated, fun _ => hline⟩, hsame⟩⟩⟩

/-- **The scheme is lost.** The text is read without an error, and what is written for it
says nothing of the scheme. -/
theorem scheme_is_lost : ∃ r, read_fhetch_text zeroFloatText (str "# Scheme: CKKS\nhalt\n") = some r ∧
    r.ok = true ∧ r.program.metadata.scheme = str "CKKS" ∧
    ¬ ∃ r', read_fhetch_text zeroFloatText (write_fhetch_text zeroFloatText r.program) = some r' ∧
      HeaderSurvives (str "# Scheme: CKKS\nhalt\n") r r' := by
  have hany : (read_fhetch_text zeroFloatText (str "# Scheme: CKKS\nhalt\n")).any (fun r =>
      decide (r.ok = true ∧ r.program.metadata.scheme = str "CKKS" ∧
        ((read_fhetch_text zeroFloatText (write_fhetch_text zeroFloatText r.program)).all fun r' =>
          decide (r'.program.metadata.scheme ≠ str "CKKS")) = true)) = true := by
    decide +kernel
  obtain ⟨r, hread, hr⟩ := (Option.any_eq_true _ _).mp hany
  obtain ⟨hok, hscheme, hall⟩ := of_decide_eq_true hr
  refine ⟨r, hread, hok, hscheme, ?_⟩
  rintro ⟨r', hr', hsurvives⟩
  rw [hr', Option.all_some, decide_eq_true_eq] at hall
  exact hall (hsurvives.fields.scheme.trans hscheme)

end Fhetch
