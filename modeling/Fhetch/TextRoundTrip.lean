/-
Text out, text in.

A program that a text read can give is `Renderable`: its instructions have what
their shapes require, its annotations are comments the reader would keep, in
order, and its header strings do not break their line. Such a program is written
as lines, and each line does one thing to a later read: nothing, an entry of the
table, a note, an instruction. The round trip is these lines, composed.
-/
import Fhetch.RenderedLines

set_option autoImplicit false

namespace Fhetch

open Lib

/-! ## What a text read gives -/

/-- A header value: it starts with something, and stays on its line. -/
structure HeaderText (s : Str) : Prop where
  start : ∀ c, s.head? = some c → isBlank c = false
  unbroken : newline ∉ s

/-- The header fields the writer puts out. -/
structure TraceMetadata.Renderable (m : TraceMetadata) : Prop where
  program_name : HeaderText m.program_name
  program_version : newline ∉ m.program_version
  description : HeaderText m.description
  source_file : HeaderText m.source_file
  build_timestamp : HeaderText m.build_timestamp

/-- A comment that is kept as it stands. -/
structure Annotation.Renderable (note : Annotation) : Prop where
  content : Reader.IsNote note.text
  trimmed : Trimmed note.text
  unbroken : newline ∉ note.text

/-- What holds of a program read from text. -/
structure Program.Renderable (p : Program) : Prop where
  metadata : p.metadata.Renderable
  table : p.modulus_table.length ≤ Reader.max_size
  instructions : ∀ inst ∈ p.instructions, Readable p.modulus_table.length inst
  annotations : ∀ note ∈ p.annotations, note.Renderable
  positions : ∀ note ∈ p.annotations, note.after_instruction ≤ p.instructions.length
  sorted : p.annotations.Pairwise fun a b => a.after_instruction ≤ b.after_instruction

theorem HeaderText.nil : HeaderText [] := ⟨by simp, List.not_mem_nil⟩

/-- The start of a header value is one. -/
theorem HeaderText.of_append {s t : Str} (h : HeaderText (s ++ t)) : HeaderText s := by
  refine ⟨fun c hc => h.start c ?_, fun hmem => h.unbroken (List.mem_append_left t hmem)⟩
  rw [List.head?_append, hc]
  rfl

theorem rfind_eq_some {pattern : Str} : ∀ {s before after : Str},
    rfind pattern s = some (before, after) → s = before ++ (pattern ++ after) := by
  intro s
  induction s with
  | nil =>
    intro before after h
    exact absurd h (by simp [rfind])
  | cons c cs ih =>
    intro before after h
    rw [rfind] at h
    split at h
    -- a match further on wins over one that starts here
    · rename_i b a hrest
      obtain ⟨rfl, rfl⟩ := Prod.mk.inj (Option.some.inj h)
      rw [List.cons_append, ← ih hrest]
    · split at h
      · rename_i hpre
        obtain ⟨rfl, rfl⟩ := Prod.mk.inj (Option.some.inj h)
        obtain ⟨rest, hrest⟩ := List.isPrefixOf_iff_prefix.mp hpre
        rw [← hrest, List.drop_left, List.nil_append]
      · exact absurd h (by simp)

theorem absorb_program_renderable {value : Str} {m : TraceMetadata} (hv : HeaderText value)
    (hm : m.Renderable) : (absorb_program value m).Renderable := by
  rw [absorb_program]
  split
  · exact { hm with program_name := hv }
  · rename_i name version h
    obtain rfl := rfind_eq_some h
    refine { hm with program_name := hv.of_append, program_version := fun hmem => ?_ }
    exact hv.unbroken (List.mem_append_right _ (List.mem_append_right _ hmem))

theorem absorb_source_renderable {value : Str} {m : TraceMetadata} (hv : HeaderText value)
    (hm : m.Renderable) : (absorb_source value m).Renderable := by
  rw [absorb_source]
  split
  · exact { hm with source_file := hv }
  · rename_i file line h
    split
    · obtain rfl := rfind_eq_some h
      exact { hm with source_file := hv.of_append }
    · exact { hm with source_file := hv }

/-- Whichever field is set. -/
theorem absorbed_of_ite {P : TraceMetadata → Prop} {c : Prop} [Decidable c] {m : TraceMetadata}
    {o : Option TraceMetadata} (hm : P m) (ho : ∀ m', o = some m' → P m') :
    ∀ m', (if c then some m else o) = some m' → P m' := by
  intro m' h
  split at h
  · obtain rfl := Option.some.inj h
    exact hm
  · exact ho m' h

theorem absorb_field_renderable {key value : Str} {m : TraceMetadata} (hv : HeaderText value)
    (hm : m.Renderable) : ∀ m', absorb_field key value m = some m' → m'.Renderable := by
  rw [absorb_field]
  apply absorbed_of_ite (absorb_program_renderable hv hm)
  refine absorbed_of_ite { hm with description := hv } ?_
  apply absorbed_of_ite (absorb_source_renderable hv hm)
  refine absorbed_of_ite { hm with build_timestamp := hv } ?_
  -- the other fields are not written, or are numbers
  iterate 9 refine absorbed_of_ite { hm with } ?_
  exact fun m' h => absurd h (by simp)

/-- A header line keeps the header fit to be written. -/
theorem absorb_metadata_renderable {body : Str} {m m' : TraceMetadata} (hbody : newline ∉ body)
    (hm : m.Renderable) (h : absorb_metadata body m = some m') : m'.Renderable := by
  simp only [absorb_metadata] at h
  split at h
  · exact absurd h (by simp)
  · refine absorb_field_renderable ⟨(trim_trimmed _).head, fun hmem => ?_⟩ hm m' h
    exact hbody (List.mem_of_mem_drop (mem_of_mem_trim hmem))

section Append

variable {p : Program}

theorem Program.Renderable.note (hp : p.Renderable) {note : Annotation} (hnote : note.Renderable)
    (hat : note.after_instruction = p.instructions.length) :
    { p with annotations := p.annotations ++ [note] }.Renderable where
  metadata := hp.metadata
  table := hp.table
  instructions := hp.instructions
  annotations :=
    List.forall_mem_append.mpr ⟨hp.annotations, List.forall_mem_singleton.mpr hnote⟩
  positions :=
    List.forall_mem_append.mpr ⟨hp.positions, List.forall_mem_singleton.mpr (Nat.le_of_eq hat)⟩
  sorted := by
    apply List.pairwise_append.mpr
    refine ⟨hp.sorted, List.pairwise_singleton _ _, fun a ha b hb => ?_⟩
    rw [List.mem_singleton.mp hb, hat]
    exact hp.positions a ha

/-- An entry of the table comes before any instruction: after one it could turn a
literal modulus into an index. -/
theorem Program.Renderable.entry (hp : p.Renderable) (value : UInt64) (hempty : p.instructions = [])
    (hroom : p.modulus_table.length < Reader.max_size) :
    { p with modulus_table := p.modulus_table ++ [value] }.Renderable where
  metadata := hp.metadata
  table := by
    rw [List.length_append, List.length_singleton]
    exact hroom
  instructions := fun inst hinst => by
    rw [hempty] at hinst
    exact absurd hinst List.not_mem_nil
  annotations := hp.annotations
  positions := hp.positions
  sorted := hp.sorted

theorem Program.Renderable.instruction (hp : p.Renderable) {inst : Instruction}
    (hinst : Readable p.modulus_table.length inst) :
    { p with instructions := p.instructions ++ [inst] }.Renderable where
  metadata := hp.metadata
  table := hp.table
  instructions :=
    List.forall_mem_append.mpr ⟨hp.instructions, List.forall_mem_singleton.mpr hinst⟩
  annotations := hp.annotations
  positions := fun note hnote => by
    rw [List.length_append]
    exact Nat.le_add_right_of_le (hp.positions note hnote)
  sorted := hp.sorted

end Append

/-- A line keeps the program renderable. -/
theorem renderable_of_reads {F : FloatText} {t : Str} {r r' : Reader} (hline : newline ∉ t)
    (hfirst : Reader.lineKind t = .modulusEntry → r.result_.program.instructions = [])
    (hr : r.result_.program.Renderable) (h : Reader.Reads F t r.next r') :
    r'.result_.program.Renderable := by
  have hbody : newline ∉ trim (t.drop 1) := fun hmem =>
    hline (List.mem_of_mem_drop (mem_of_mem_trim hmem))
  cases h with
  | skip | error => exact hr
  | header m _ habsorb =>
    exact { hr with metadata := absorb_metadata_renderable hbody hr.metadata habsorb }
  | note _ hnote => exact hr.note ⟨hnote, trim_trimmed _, hbody⟩ rfl
  | entry value hkind hroom => exact hr.entry value (hfirst hkind) hroom
  | instruction =>
    rcases hL : r.next.lineInstruction F t with ⟨- | inst, d⟩
    · rw [Reader.instruction_line_of_none hL]
      exact hr
    · rw [Reader.instruction_line_of_some hL]
      exact hr.instruction ((Reader.lineInstruction_spec hL).2 inst rfl).1

/-- No modulus-table line of a text follows a line that gave an instruction. -/
def TableFirst (F : FloatText) (text : Str) : Prop :=
  ∀ pre line rest r, getlines text = pre ++ line :: rest →
    Reader.read_lines F {} pre = some r → Reader.lineKind (trim line) = .modulusEntry →
      r.result_.program.instructions = []

/-- **A text read gives a renderable program.** -/
theorem read_fhetch_text_renderable {F : FloatText} {text : Str} {r : ReadResult}
    (hfirst : TableFirst F text) (h : read_fhetch_text F text = some r) : r.program.Renderable := by
  obtain ⟨final, hlines, rfl⟩ := Option.map_eq_some_iff.mp h
  have hstart : (Reader.result_ {}).program.Renderable :=
    ⟨⟨.nil, List.not_mem_nil, .nil, .nil, .nil⟩, Nat.zero_le _,
      fun _ h => absurd h List.not_mem_nil, fun _ h => absurd h List.not_mem_nil,
      fun _ h => absurd h List.not_mem_nil, .nil⟩
  have hfinal : final.result_.program.Renderable := by
    refine Reader.read_lines_induct_at (I := fun r => r.result_.program.Renderable) hstart ?_ hlines
    intro pre line rest r r' hcut hpre hr hreads
    apply renderable_of_reads _ (hfirst pre line rest r hcut hpre) hr hreads
    intro hmem
    refine newline_not_mem_getlines text line ?_ (mem_of_mem_trim hmem)
    rw [hcut]
    exact List.mem_append_right pre List.mem_cons_self
  have hmeta := hfinal.metadata
  exact { hfinal with metadata := { hmeta with } }

/-! ## What a line does to a read -/

/-- What the text of a program determines of it: no line numbers, and nothing of
the header. -/
structure Content where
  modulus_table : List UInt64
  instructions : List Instruction
  notes : List (Str × ℕ)

def Program.shown (p : Program) : Content :=
  ⟨p.modulus_table, p.instructions.map Instruction.content,
    p.annotations.map fun note => (note.text, note.after_instruction)⟩

/-- A read that has come to some content without a word. -/
structure Reader.Shows (r : Reader) (s : Content) : Prop where
  quiet : r.result_.toDiagnostics = {}
  content : r.result_.program.shown = s

/-- **Text that takes any read from one content to another**, at whatever line
it starts and whatever follows it. -/
def Turns (F : FloatText) (text : Str) (s s' : Content) : Prop :=
  ∀ r : Reader, r.Shows s → ∃ r' : Reader, r'.Shows s' ∧ ∀ rest,
    Reader.read_lines F r (getlines (text ++ rest)) = Reader.read_lines F r' (getlines rest)

section Turns

variable {F : FloatText} {s s' s'' : Content} {text text' : Str}

theorem Turns.nil : Turns F [] s s := fun r hr => ⟨r, hr, fun _ => rfl⟩

theorem Turns.append (h : Turns F text s s') (h' : Turns F text' s' s'') :
    Turns F (text ++ text') s s'' := by
  intro r hr
  obtain ⟨r₁, hr₁, hread₁⟩ := h r hr
  obtain ⟨r₂, hr₂, hread₂⟩ := h' r₁ hr₁
  refine ⟨r₂, hr₂, fun rest => ?_⟩
  rw [List.append_assoc, hread₁, hread₂]

theorem Turns.line {l : Str} (hl : newline ∉ l)
    (h : ∀ r : Reader, r.Shows s → ∃ r', Reader.read_line F r l = some r' ∧ r'.Shows s') :
    Turns F (endLine l) s s' := by
  intro r hr
  obtain ⟨r', hline, hr'⟩ := h r hr
  refine ⟨r', hr', fun rest => ?_⟩
  rw [endLine, List.append_assoc, List.singleton_append, getlines_append hl, Reader.read_lines,
    List.foldlM_cons, hline]
  rfl

theorem turns_blank : Turns F (endLine []) s s :=
  Turns.line List.not_mem_nil fun r hr => ⟨r.next, rfl, ⟨hr.quiet, hr.content⟩⟩

/-- A comment line reaches the comments as its body. -/
theorem read_line_comment (r : Reader) (rest : Str) :
    ∃ t, trim (t.drop 1) = trim rest ∧
      Reader.read_line F r (0x23 :: rest) = some (r.next.comment t) := by
  have htrim : trim (0x23 :: rest) = 0x23 :: rest.rdropWhile isBlank :=
    trim_cons_of_not_blank (by decide) rest
  refine ⟨0x23 :: rest.rdropWhile isBlank, trim_rdropWhile rest, ?_⟩
  rw [Reader.read_line, htrim]
  rfl

/-- A body the reader does not keep. -/
structure Unkept (body : Str) : Prop where
  skipped : body = [] ∨ body.all (· = 0x3D) ∨ body ∈ Reader.labels ∨
    ∀ m, (absorb_metadata body m).isSome

theorem turns_unkept {rest : Str} (hrest : newline ∉ rest) (h : Unkept (trim rest)) :
    Turns F (endLine (0x23 :: rest)) s s := by
  apply Turns.line (List.not_mem_cons_of_ne_of_not_mem (by decide) hrest)
  intro r hr
  obtain ⟨t, ht, hline⟩ := read_line_comment (F := F) r rest
  refine ⟨_, hline, ?_⟩
  have hnext : r.next.Shows s := ⟨hr.quiet, hr.content⟩
  rw [Reader.comment, ht]
  -- a rule or a label is dropped at once, the rest is given to the header
  by_cases hskip : (trim rest).isEmpty || (trim rest).all (· = 0x3D) ||
      decide (trim rest ∈ Reader.labels)
  · rw [if_pos hskip]
    exact hnext
  · rw [if_neg hskip]
    simp only [Bool.or_eq_true, not_or, Bool.not_eq_true, decide_eq_true_eq,
      List.isEmpty_eq_false_iff] at hskip
    obtain ⟨⟨hne, hcontent⟩, hlabel⟩ := hskip
    rcases h.skipped with h | h | h | h
    · exact absurd h hne
    · rw [hcontent] at h
      exact absurd h Bool.false_ne_true
    · exact absurd h hlabel
    · obtain ⟨m, hm⟩ := Option.isSome_iff_exists.mp (h r.next.result_.program.metadata)
      rw [hm]
      exact ⟨hnext.quiet, hnext.content⟩

/-- A body the reader keeps, trimmed. -/
theorem turns_kept {rest : Str} (hrest : newline ∉ rest) (h : Reader.IsNote (trim rest)) :
    Turns F (endLine (0x23 :: rest)) s
      { s with notes := s.notes ++ [(trim rest, s.instructions.length)] } := by
  apply Turns.line (List.not_mem_cons_of_ne_of_not_mem (by decide) hrest)
  intro r hr
  obtain ⟨t, ht, hline⟩ := read_line_comment (F := F) r rest
  refine ⟨_, hline, ?_⟩
  have hskip : ¬ (((trim rest).isEmpty || (trim rest).all (· = 0x3D) ||
      decide (trim rest ∈ Reader.labels)) = true) := by
    rw [List.isEmpty_eq_false_iff.mpr h.nonempty, h.content, decide_eq_false h.unlabelled]
    exact Bool.false_ne_true
  rw [Reader.comment, ht, if_neg hskip, h.unabsorbed]
  refine ⟨hr.quiet, ?_⟩
  obtain rfl := hr.content
  simp [Program.shown, Reader.next]

/-- A kept comment is kept again. -/
theorem turns_note {note : Annotation} (hnote : note.Renderable)
    (hat : note.after_instruction = s.instructions.length) :
    Turns F (render_note note) s
      { s with notes := s.notes ++ [(note.text, note.after_instruction)] } := by
  have htrim : trim (0x20 :: note.text) = note.text := by
    rw [trim_cons_of_blank (by decide), trim_of_trimmed hnote.trimmed]
  have hline : newline ∉ (0x20 :: note.text : Str) :=
    List.not_mem_cons_of_ne_of_not_mem (by decide) hnote.unbroken
  have hkept : Turns F (endLine (0x23 :: 0x20 :: note.text)) s
      { s with notes := s.notes ++ [(trim (0x20 :: note.text), s.instructions.length)] } :=
    turns_kept hline (htrim.symm ▸ hnote.content)
  rw [htrim, ← hat] at hkept
  exact hkept

/-- A rendered instruction comes back. -/
theorem turns_instruction {inst : Instruction} (hread : Readable s.modulus_table.length inst)
    (hform : fh_operand_form inst.opcode ≠ .PolyScalarNI) :
    Turns F (endLine (render_instruction F inst)) s
      { s with instructions := s.instructions ++ [inst.content] } := by
  have hline : InstructionLine (render_instruction F inst) := instructionLine_render hread hform
  apply Turns.line hline.unbroken
  intro r hr
  obtain rfl := hr.content
  have hgives : r.next.lineInstruction F (render_instruction F inst) =
      (some { inst with line_number := r.next.line_ }, r.next.result_.toDiagnostics) := by
    rw [Reader.lineInstruction]
    exact congrFun (instruction_render hread hform _) _
  refine ⟨r.next.append { inst with line_number := r.next.line_ }, ?_, hr.quiet, ?_⟩
  · rw [Reader.read_line, trim_of_trimmed hline.trimmed, hline.kind]
    exact congrArg some (Reader.instruction_line_of_some hgives)
  · simp [Program.shown, Reader.append, Reader.next, Instruction.content]

/-! ## The table -/

theorem operand_hex (v : UInt64) : Operand (0x30 :: 0x78 :: numeral 16 v.toNat) := by
  have hdigits : Operand (numeral 16 v.toNat) :=
    ⟨numeral_word (by decide) (by decide) _, not_mem_numeral (by decide) (by decide) _ (by decide),
      not_mem_numeral (by decide) (by decide) _ (by decide)⟩
  have hpre : Operand (str "0x") := ⟨.of_all (by decide) (by decide), by decide, by decide⟩
  exact hdigits.prepend hpre

theorem to_uint_hex (v : UInt64) : to_uint (0x30 :: 0x78 :: numeral 16 v.toNat) = some v := by
  rw [to_uint, strip_comma_operand (operand_hex v)]
  simp [strtoull_hex v.toNat_lt]

theorem turns_modulus_count {n : ℕ} (hn : n ≤ Reader.max_size) :
    Turns F (endLine (str "modulus_count " ++ decimal n)) s s := by
  have hword := operand_decimal n
  have hlt : n < 2 ^ 64 := by
    rw [Reader.max_size] at hn
    omega
  have hnat : (UInt64.ofNat n).toNat = n := by
    rw [UInt64.toNat_ofNat', Nat.mod_eq_of_lt hlt]
  have htrimmed : Trimmed (str "modulus_count " ++ decimal n) := by
    have hkey : Trimmed (str "modulus_count") := .of_ends (by decide) (by decide)
    exact hkey.between (by decide) hword.trimmed hword.nonempty [0x20]
  -- the number is read back as it was written
  have hread : to_uint ((str "modulus_count " ++ decimal n).drop (str "modulus_count").length) =
      some (UInt64.ofNat n) := by
    apply to_uint_of_strip
    show strip_comma (0x20 :: decimal n) = _
    rw [strip_comma, trim_cons_of_blank (by decide), hnat]
    exact strip_comma_operand hword
  apply Turns.line
  · intro h
    rcases List.mem_append.mp h with h | h
    · exact absurd h (by decide)
    · exact absurd (hword.solid _ h) (by decide)
  intro r hr
  refine ⟨r.next, ?_, hr.quiet, hr.content⟩
  have hkind : Reader.lineKind (str "modulus_count " ++ decimal n) = .modulusCount := rfl
  rw [Reader.read_line, trim_of_trimmed htrimmed, hkind]
  show Reader.modulus_count r.next _ = _
  rw [Reader.modulus_count, hread]
  exact if_neg (Nat.not_lt.mpr (by rw [hnat]; exact hn))

/-- The parts of an entry are found by its bracket and its blank. -/
theorem modulus_entry_parts (r : Reader) {pre value : Str} (hbracket : (0x5D : UInt8) ∉ pre)
    (hblank : (0x20 : UInt8) ∉ pre) {index v : UInt64} (hindex : to_uint (pre.drop 2) = some index)
    (hvalue : to_uint (trim value) = some v)
    (hat : index.toNat = r.result_.program.modulus_table.length)
    (hroom : r.result_.program.modulus_table.length < Reader.max_size) :
    r.modulus_entry (pre ++ 0x5D :: 0x20 :: value) = some (r.push v) := by
  have hcut : pre ++ 0x5D :: 0x20 :: value = (pre ++ [0x5D]) ++ 0x20 :: value := by
    rw [List.append_assoc, List.singleton_append]
  have hclose : (pre ++ 0x5D :: 0x20 :: value).idxOf 0x5D = pre.length := by
    rw [List.idxOf_append_of_notMem hbracket, List.idxOf_cons_self, Nat.add_zero]
  have hspace : (pre ++ 0x5D :: 0x20 :: value).idxOf 0x20 = pre.length + 1 := by
    have hout : (0x20 : UInt8) ∉ pre ++ [0x5D] :=
      fun h => (List.mem_append.mp h).elim hblank (by decide)
    rw [hcut, List.idxOf_append_of_notMem hout, List.idxOf_cons_self, Nat.add_zero,
      List.length_append, List.length_singleton]
  have hlength : (pre ++ 0x5D :: 0x20 :: value).length = pre.length + 2 + value.length := by
    rw [List.length_append, List.length_cons, List.length_cons]
    omega
  have hdrop : (pre ++ 0x5D :: 0x20 :: value).drop (pre.length + 1 + 1) = value := by
    rw [Nat.add_assoc, List.drop_append, Nat.add_sub_cancel_left,
      List.drop_eq_nil_of_le (Nat.le_add_right _ _)]
    rfl
  -- the bracket and the blank are found, in this order and with something behind
  have hwell : (decide (pre.length = pre.length + 2 + value.length) ||
      decide (pre.length + 1 = pre.length + 2 + value.length) ||
        decide (pre.length + 1 < pre.length)) = false := by
    simp only [Bool.or_eq_false_iff, decide_eq_false_iff_not]
    omega
  simp only [Reader.modulus_entry, hclose, hspace, hlength, hwell, Bool.false_eq_true, if_false,
    List.take_left, hdrop, hindex, hvalue]
  rw [if_neg (not_not.mpr hat), if_neg (Nat.not_le.mpr hroom)]
  rfl

/-- An entry comes back at the end of the table. -/
theorem turns_modulus_entry (q : UInt64) (hroom : s.modulus_table.length < Reader.max_size) :
    Turns F (endLine (render_modulus_entry s.modulus_table.length q)) s
      { s with modulus_table := s.modulus_table ++ [q] } := by
  have hindex := operand_decimal s.modulus_table.length
  have hhex : Operand (0x30 :: 0x78 :: numeral 16 q.toNat) := operand_hex q
  have hcut : render_modulus_entry s.modulus_table.length q =
      (str "m[" ++ decimal s.modulus_table.length) ++
        0x5D :: 0x20 :: 0x30 :: 0x78 :: numeral 16 q.toNat := by
    rw [render_modulus_entry, List.append_assoc (str "m[" ++ decimal s.modulus_table.length)]
    rfl
  have hfree : ∀ c : UInt8, c ∉ str "m[" → c ∉ decimal s.modulus_table.length →
      c ∉ str "m[" ++ decimal s.modulus_table.length :=
    fun c h h' hmem => (List.mem_append.mp hmem).elim h h'
  have htrimmed : Trimmed (render_modulus_entry s.modulus_table.length q) := by
    have hstart : Trimmed (str "m[") := .of_ends (by decide) (by decide)
    have hline := hstart.between (by decide) hhex.trimmed hhex.nonempty
      (decimal s.modulus_table.length ++ [0x5D, 0x20])
    rw [List.append_assoc, ← List.append_assoc (str "m[")] at hline
    rw [hcut]
    exact hline
  have hkind : Reader.lineKind (render_modulus_entry s.modulus_table.length q) = .modulusEntry := by
    rw [hcut, Reader.lineKind]
    simp [str]
  apply Turns.line
  · rw [hcut]
    intro h
    rcases List.mem_append.mp h with h | h
    · exact hfree newline (by decide) (fun h => absurd (hindex.solid _ h) (by decide)) h
    · rcases List.mem_cons.mp h with h | h
      · exact absurd h (by decide)
      · rcases List.mem_cons.mp h with h | h
        · exact absurd h (by decide)
        · exact absurd (hhex.solid _ h) (by decide)
  intro r hr
  -- the entry is the next one of the table, as the reader demands
  obtain rfl := hr.content
  refine ⟨r.next.push q, ?_, hr.quiet, rfl⟩
  have hlt : r.result_.program.modulus_table.length < 2 ^ 64 := by
    have : r.result_.program.modulus_table.length < Reader.max_size := hroom
    rw [Reader.max_size] at this
    omega
  have hnat : (UInt64.ofNat r.result_.program.modulus_table.length).toNat =
      r.result_.program.modulus_table.length := by
    rw [UInt64.toNat_ofNat', Nat.mod_eq_of_lt hlt]
  rw [Reader.read_line, trim_of_trimmed htrimmed, hkind, hcut]
  apply modulus_entry_parts r.next
    (hfree 0x5D (by decide) (not_mem_numeral (by decide) (by decide) _ (by decide)))
    (hfree 0x20 (by decide) (fun h => absurd (hindex.solid _ h) (by decide))) _ _ hnat hroom
  · apply to_uint_of_strip
    rw [hnat]
    exact strip_comma_operand hindex
  · rw [trim_of_trimmed hhex.trimmed]
    exact to_uint_hex q

/-- The whole table, from an empty one. -/
theorem turns_modulus_table (h : s.modulus_table = []) : ∀ table : List UInt64,
    table.length ≤ Reader.max_size →
    Turns F (table.mapIdx fun i q => endLine (render_modulus_entry i q)).flatten s
      { s with modulus_table := table } := by
  intro table
  induction table using List.reverseRecOn with
  | nil =>
    intro _
    have hsame : { s with modulus_table := [] } = s := by rw [← h]
    rw [hsame]
    exact Turns.nil
  | append_singleton table q ih =>
    intro hlen
    rw [List.length_append, List.length_singleton] at hlen
    rw [List.mapIdx_concat, List.flatten_append, List.flatten_singleton]
    exact (ih (Nat.le_of_succ_le hlen)).append (turns_modulus_entry q hlen)

/-! ## The header -/

/-- The line `# <key>: <value>` of a header. -/
def headerLine (key value : Str) : Str := endLine (0x23 :: 0x20 :: (key ++ 0x3A :: 0x20 :: value))

/-- **A header is a title between rules, its fields and a last rule**: what holds of
each line and of texts put together holds of the whole. An empty field has no line. -/
theorem render_header_of_lines {P : Str → Prop} {m : TraceMetadata} {n k : ℕ}
    (happend : ∀ {s t : Str}, P s → P t → P (s ++ t)) (hrule : P (endLine kRule))
    (htitle : P (endLine (str "# Niobium FHETCH Trace")))
    (hprogram : ¬ m.program_name.isEmpty → P (headerLine (str "Program") (m.program_name ++
      if m.program_version.isEmpty then [] else str " v" ++ m.program_version)))
    (hdescription : ¬ m.description.isEmpty → P (headerLine (str "Description") m.description))
    (hsource : ¬ m.source_file.isEmpty →
      P (headerLine (str "Source") (m.source_file ++ (str ":" ++ intDecimal m.source_line))))
    (hbuild : ¬ m.build_timestamp.isEmpty → P (headerLine (str "Build") m.build_timestamp))
    (hcount : ∀ key ∈ Reader.header_keys, ∀ v : ℕ, P (headerLine key (decimal v))) : P (render_header m n k) := by
  have hoptional : ∀ {c : Prop} [Decidable c] {out line : Str}, P out → (¬ c → P line) →
      P (if c then out else out ++ line) := by
    intro c _ out line hout hline
    split
    · exact hout
    · rename_i hc
      exact happend hout (hline hc)
  have hprogram' : ¬ m.program_name.isEmpty = true →
      P (endLine (str "# Program: " ++ m.program_name ++
        if m.program_version.isEmpty then [] else str " v" ++ m.program_version)) := by
    rw [List.append_assoc]
    exact hprogram
  have hsource' : ¬ m.source_file.isEmpty = true → P (endLine (str "# Source: " ++
      m.source_file ++ str ":" ++ intDecimal m.source_line)) := by
    rw [List.append_assoc, List.append_assoc]
    exact hsource
  -- line by line in the order of the writer
  have hfront := happend (happend hrule htitle) hrule
  have hblock := hoptional (hoptional hfront hprogram') hdescription
  have htexts := hoptional (hoptional hblock hsource') hbuild
  have hcounts := happend (happend htexts (hcount (str "Instruction Count") (by decide) n))
    (hcount (str "Modulus Count") (by decide) k)
  exact happend (hoptional hcounts fun _ => hcount (str "Generated") (by decide) _) hrule

theorem HeaderText.append {s t : Str} (h : HeaderText s) (hs : s ≠ []) (ht : newline ∉ t) :
    HeaderText (s ++ t) := by
  obtain ⟨c, cs, rfl⟩ := List.exists_cons_of_ne_nil hs
  refine ⟨h.start, fun hmem => ?_⟩
  exact (List.mem_append.mp hmem).elim h.unbroken ht

theorem headerText_decimal (n : ℕ) : HeaderText (decimal n) :=
  ⟨(operand_decimal n).trimmed.head, fun h => absurd ((operand_decimal n).solid _ h) (by decide)⟩

/-- The keys stand on their line as they are, before the colon. -/
theorem header_key_plain : ∀ key ∈ Reader.header_keys, trim key = key ∧ key ≠ [] ∧
    (0x3A : UInt8) ∉ key ∧ newline ∉ key := by decide

/-- **A header line is a header line to the reader**, with the value trimmed. -/
theorem absorb_metadata_header {key value : Str} (hkey : key ∈ Reader.header_keys)
    (hvalue : HeaderText value) (hne : value ≠ []) (m : TraceMetadata) :
    absorb_metadata (trim (0x20 :: (key ++ 0x3A :: 0x20 :: value))) m =
      absorb_field key (trim value) m := by
  obtain ⟨htrim, hkne, hcolon, -⟩ := header_key_plain key hkey
  obtain ⟨d, ds, rfl⟩ := List.exists_cons_of_ne_nil hne
  have hd : isBlank d = false := hvalue.start d rfl
  have hbody : trim (0x20 :: (key ++ 0x3A :: 0x20 :: d :: ds)) =
      key ++ 0x3A :: 0x20 :: d :: ds.rdropWhile isBlank := by
    obtain ⟨k, ks, rfl⟩ := List.exists_cons_of_ne_nil hkne
    have hk : isBlank k = false := by
      have htrimmed := trim_trimmed (k :: ks)
      rw [htrim] at htrimmed
      exact htrimmed.head k rfl
    have hcut : ks ++ 0x3A :: 0x20 :: d :: ds = (ks ++ [0x3A, 0x20]) ++ d :: ds := by
      rw [List.append_assoc]
      rfl
    rw [trim_cons_of_blank (by decide), List.cons_append, trim_cons_of_not_blank hk, hcut,
      rdropWhile_append_cons hd, List.append_assoc]
    rfl
  -- no colon in the key: the line is cut at the one that was written
  have htake : (key ++ 0x3A :: 0x20 :: d :: ds.rdropWhile isBlank).takeWhile (· ≠ 0x3A) = key := by
    have hpass : ∀ c ∈ key, decide (c ≠ 0x3A) = true :=
      fun c hc => decide_eq_true fun h => hcolon (h ▸ hc)
    rw [List.takeWhile_append_of_pos hpass]
    simp
  have hdrop : trim ((key ++ 0x3A :: 0x20 :: d :: ds.rdropWhile isBlank).drop (key.length + 1)) =
      d :: ds.rdropWhile isBlank := by
    rw [← List.drop_drop, List.drop_left]
    refine (trim_cons_of_blank (by decide) _).trans ((trim_cons_of_not_blank hd _).trans ?_)
    rw [List.rdropWhile_idempotent]
  have hshort : (decide (key.length =
      (key ++ 0x3A :: 0x20 :: d :: ds.rdropWhile isBlank).length)) = false := by
    rw [List.length_append, List.length_cons]
    exact decide_eq_false (by omega)
  rw [hbody, trim_cons_of_not_blank hd]
  simp only [absorb_metadata, htake, hdrop, hshort, List.isEmpty_cons, Bool.or_false,
    Bool.false_eq_true, if_false, htrim]

theorem header_line_unbroken {key value : Str} (hkey : key ∈ Reader.header_keys)
    (hvalue : newline ∉ value) : newline ∉ 0x20 :: (key ++ 0x3A :: 0x20 :: value) := by
  obtain ⟨-, -, -, hbroken⟩ := header_key_plain key hkey
  intro h
  rcases List.mem_cons.mp h with h | h
  · exact absurd h (by decide)
  rcases List.mem_append.mp h with h | h
  · exact hbroken h
  rcases List.mem_cons.mp h with h | h
  · exact absurd h (by decide)
  rcases List.mem_cons.mp h with h | h
  · exact absurd h (by decide)
  · exact hvalue h

theorem turns_header (key value : Str) (hkey : key ∈ Reader.header_keys) (hvalue : HeaderText value)
    (hne : value ≠ []) : Turns F (headerLine key value) s s := by
  apply turns_unkept (header_line_unbroken hkey hvalue.unbroken)
  refine ⟨.inr (.inr (.inr fun m => ?_))⟩
  rw [absorb_metadata_header hkey hvalue hne]
  exact Reader.absorb_field_of_mem hkey _ m

theorem turns_label {rest : Str} (hrest : newline ∉ rest)
    (h : (trim rest).all (· = 0x3D) ∨ trim rest ∈ Reader.labels) :
    Turns F (endLine (0x23 :: rest)) s s :=
  turns_unkept hrest ⟨h.elim (fun h => .inr (.inl h)) fun h => .inr (.inr (.inl h))⟩

theorem intDecimal_unbroken (x : Int32) : newline ∉ intDecimal x := by
  rw [intDecimal]
  split
  · intro h
    exact (List.mem_append.mp h).elim (by decide) (headerText_decimal _).unbroken
  · exact (headerText_decimal _).unbroken

theorem turns_render_header {m : TraceMetadata} (hm : m.Renderable) (n k : ℕ) :
    Turns F (render_header m n k) s s := by
  have hne : ∀ {l : Str}, ¬ l.isEmpty = true → l ≠ [] := fun h h' => h (by rw [h']; rfl)
  have happ : ∀ v w : Str, v ≠ [] → v ++ w ≠ [] :=
    fun v w h h' => h (List.append_eq_nil_iff.mp h').1
  have hversion : newline ∉ if m.program_version.isEmpty then [] else
      str " v" ++ m.program_version := by
    split
    · exact List.not_mem_nil
    · exact fun h => (List.mem_append.mp h).elim (by decide) hm.program_version
  -- the line number has no line end
  have hline : newline ∉ str ":" ++ intDecimal m.source_line :=
    fun h => (List.mem_append.mp h).elim (by decide) (intDecimal_unbroken _)
  refine render_header_of_lines (P := fun text => Turns F text s s) Turns.append
    (turns_label (by decide) (.inl (by decide))) (turns_label (by decide) (.inr (by decide)))
    (fun h => ?_) (fun h => ?_) (fun h => ?_) (fun h => ?_) fun key hkey v => ?_
  · exact turns_header _ _ (by decide) (hm.program_name.append (hne h) hversion)
      (happ m.program_name _ (hne h))
  · exact turns_header _ _ (by decide) hm.description (hne h)
  · exact turns_header _ _ (by decide) (hm.source_file.append (hne h) hline)
      (happ m.source_file _ (hne h))
  · exact turns_header _ _ (by decide) hm.build_timestamp (hne h)
  · exact turns_header _ _ hkey (headerText_decimal _) (operand_decimal v).nonempty

/-! ## The stream -/

/-- Notes that belong where the text has come to. -/
theorem turns_notes : ∀ {notes : List Annotation} {s : Content},
    (∀ note ∈ notes, note.Renderable) →
    (∀ note ∈ notes, note.after_instruction = s.instructions.length) →
    Turns F (notes.flatMap render_note) s { s with
      notes := s.notes ++ notes.map fun note => (note.text, note.after_instruction) } := by
  intro notes
  induction notes with
  | nil =>
    intro s _ _
    rw [List.map_nil, List.append_nil]
    exact Turns.nil
  | cons note notes ih =>
    intro s hnotes hat
    obtain ⟨hnote, hrest⟩ := List.forall_mem_cons.mp hnotes
    obtain ⟨hhere, hat'⟩ := List.forall_mem_cons.mp hat
    have hturn := (turns_note (F := F) hnote hhere).append (ih hrest hat')
    simp only [List.append_assoc, List.singleton_append] at hturn
    exact hturn

/-- What is left of notes in order comes later than what was dropped. -/
theorem lt_of_mem_dropWhile {n : ℕ} {notes : List Annotation}
    (h : notes.Pairwise fun a b => a.after_instruction ≤ b.after_instruction) :
    ∀ note ∈ notes.dropWhile (·.after_instruction ≤ n), n < note.after_instruction := by
  induction notes with
  | nil => exact fun _ h => absurd h List.not_mem_nil
  | cons note notes ih =>
    obtain ⟨hfirst, hrest⟩ := List.pairwise_cons.mp h
    rw [List.dropWhile_cons]
    split
    · exact ih hrest
    · rename_i hlate
      have hlt : n < note.after_instruction := by
        rw [decide_eq_true_eq] at hlate
        exact Nat.not_le.mp hlate
      exact List.forall_mem_cons.mpr ⟨hlt, fun b hb => hlt.trans_le (hfirst b hb)⟩

/-- **The stream.** Notes not yet written come after the instructions that were,
so those due now are those of this position. -/
theorem turns_render_stream : ∀ {insts : List Instruction} {notes : List Annotation} {s : Content},
    (∀ inst ∈ insts, Readable s.modulus_table.length inst ∧
      fh_operand_form inst.opcode ≠ .PolyScalarNI) →
    (∀ note ∈ notes, note.Renderable ∧ s.instructions.length ≤ note.after_instruction ∧
      note.after_instruction ≤ s.instructions.length + insts.length) →
    (notes.Pairwise fun a b => a.after_instruction ≤ b.after_instruction) →
    Turns F (render_stream F s.instructions.length insts notes) s { s with
      instructions := s.instructions ++ insts.map Instruction.content
      notes := s.notes ++ notes.map fun note => (note.text, note.after_instruction) } := by
  intro insts
  induction insts with
  | nil =>
    intro notes s _ hnotes _
    rw [List.map_nil, List.append_nil, render_stream]
    apply turns_notes (fun note hnote => (hnotes note hnote).1)
    intro note hnote
    obtain ⟨-, hle, hge⟩ := hnotes note hnote
    exact Nat.le_antisymm hge hle
  | cons inst insts ih =>
    intro notes s hinsts hnotes hsorted
    obtain ⟨⟨hread, hform⟩, hrest⟩ := List.forall_mem_cons.mp hinsts
    have hline : InstructionLine (render_instruction F inst) := instructionLine_render hread hform
    have hlate := lt_of_mem_dropWhile (n := s.instructions.length) hsorted
    have hcut : notes.takeWhile (fun note => decide (note.after_instruction ≤ s.instructions.length)) ++
        notes.dropWhile (·.after_instruction ≤ s.instructions.length) = notes :=
      List.takeWhile_append_dropWhile
    rw [render_stream]
    simp only [List.isEmpty_eq_false_iff.mpr hline.nonempty, Bool.false_eq_true, if_false]
    generalize hdue : notes.takeWhile (fun note => decide (note.after_instruction ≤ s.instructions.length)) =
      due at hcut ⊢
    generalize notes.dropWhile _ = later at hlate hcut ⊢
    -- what is due stands right here: nothing was skipped before
    have hsub : ∀ note ∈ due, note.after_instruction = s.instructions.length := by
      intro note hnote
      have hmem : note ∈ notes := by
        rw [← hcut]
        exact List.mem_append_left later hnote
      rw [← hdue] at hnote
      have hle := List.mem_takeWhile_imp hnote
      rw [decide_eq_true_eq] at hle
      exact Nat.le_antisymm hle (hnotes note hmem).2.1
    obtain rfl := hcut
    obtain ⟨hnotes₁, hnotes₂⟩ := List.forall_mem_append.mp hnotes
    have hstep := (turns_notes (F := F) (fun note hnote => (hnotes₁ note hnote).1) hsub).append
      (turns_instruction hread hform)
    have hlen : (s.instructions ++ [inst.content]).length = s.instructions.length + 1 := by
      rw [List.length_append, List.length_singleton]
    -- and what is not due comes behind the next instruction
    have hlater : ∀ note ∈ later, note.Renderable ∧
        (s.instructions ++ [inst.content]).length ≤ note.after_instruction ∧
        note.after_instruction ≤ (s.instructions ++ [inst.content]).length + insts.length := by
      intro note hnote
      obtain ⟨hok, -, hge⟩ := hnotes₂ note hnote
      have hlt := hlate note hnote
      rw [List.length_cons] at hge
      rw [hlen]
      exact ⟨hok, hlt, by omega⟩
    have hturn := hstep.append (ih hrest hlater (List.pairwise_append.mp hsorted).2.1)
    simp only [hlen, List.append_assoc, List.singleton_append] at hturn
    rw [List.map_cons, List.map_append, List.append_assoc]
    exact hturn

end Turns

/-! ## The whole text -/

/-- The labels, and the header and the table between them. -/
theorem turns_write_fhetch_text {F : FloatText} {p : Program} {s : Content} {before : List (Str × ℕ)}
    (hheader : Turns F (render_header p.metadata p.instructions.length p.modulus_table.length)
      ⟨[], [], before⟩ ⟨[], [], s.notes⟩) (htable : p.modulus_table.length ≤ Reader.max_size)
    {s' : Content} (hs : s.modulus_table = p.modulus_table) (hempty : s.instructions = [])
    (hstream : Turns F (render_stream F 0 p.instructions p.annotations) s s') :
    Turns F (write_fhetch_text F p) ⟨[], [], before⟩ s' := by
  obtain ⟨table, insts, notes⟩ := s
  obtain rfl : table = p.modulus_table := hs
  obtain rfl : insts = [] := hempty
  have hlabel : ∀ {s : Content} {l : Str}, newline ∉ l → trim l ∈ Reader.labels →
      Turns F (endLine [] ++ endLine (0x23 :: l)) s s :=
    fun hl h => turns_blank.append (turns_label hl (.inr h))
  have hmoduli : Turns F (render_modulus_table p.modulus_table) ⟨[], [], notes⟩
      ⟨p.modulus_table, [], notes⟩ :=
    (turns_modulus_count htable).append (turns_modulus_table rfl p.modulus_table htable)
  exact (((hheader.append (hlabel (by decide) (by decide))).append hmoduli).append
    (hlabel (by decide) (by decide))).append hstream

/-- A text that leads from nothing to some content is read as that. -/
theorem read_of_turns {F : FloatText} {text : Str} {s : Content} (h : Turns F text ⟨[], [], []⟩ s) :
    ∃ r, read_fhetch_text F text = some r ∧ r.ok = true ∧ r.warnings = [] ∧
      r.program.shown = s := by
  obtain ⟨r, hr, hread⟩ := h {} ⟨rfl, rfl⟩
  specialize hread []
  rw [List.append_nil] at hread
  refine ⟨r.finish, ?_, ?_, ?_, hr.content⟩
  · rw [read_fhetch_text, hread]
    rfl
  · rw [Reader.finish, hr.quiet]
    rfl
  · show r.result_.toDiagnostics.warnings = []
    rw [hr.quiet]

/-- **What is written is read back.** -/
theorem read_write_fhetch_text {F : FloatText} {p : Program} (hp : p.Renderable)
    (hform : ∀ inst ∈ p.instructions, fh_operand_form inst.opcode ≠ .PolyScalarNI) :
    ∃ r, read_fhetch_text F (write_fhetch_text F p) = some r ∧ r.ok = true ∧ r.warnings = [] ∧
      r.program.shown = p.shown := by
  have hstream : Turns F (render_stream F 0 p.instructions p.annotations)
      ⟨p.modulus_table, [], []⟩ p.shown := by
    apply turns_render_stream (s := ⟨p.modulus_table, [], []⟩)
      (fun inst hinst => ⟨hp.instructions inst hinst, hform inst hinst⟩) _ hp.sorted
    intro note hnote
    refine ⟨hp.annotations note hnote, Nat.zero_le _, ?_⟩
    rw [List.length_nil, Nat.zero_add]
    exact hp.positions note hnote
  exact read_of_turns (turns_write_fhetch_text (turns_render_header hp.metadata _ _) hp.table rfl rfl
    hstream)

/-- **Text writing undoes text reading**, up to layout and provenance: whatever
bases, spellings, spacing and order of operands a text uses, the text written for
what it gives gives the same again. -/
theorem write_undoes_read {F : FloatText} {text : Str} {r : ReadResult}
    (hread : read_fhetch_text F text = some r) (hfirst : TableFirst F text)
    (hform : ∀ inst ∈ r.program.instructions, fh_operand_form inst.opcode ≠ .PolyScalarNI) :
    ∃ r', read_fhetch_text F (write_fhetch_text F r.program) = some r' ∧
      r'.ok = true ∧ r'.warnings = [] ∧
      r'.program.instructions.map Instruction.content =
        r.program.instructions.map Instruction.content ∧
      r'.program.modulus_table = r.program.modulus_table ∧
      r'.program.annotations.map (fun note => (note.text, note.after_instruction)) =
        r.program.annotations.map fun note => (note.text, note.after_instruction) := by
  obtain ⟨r', hr', hok, hwarnings, hshown⟩ :=
    read_write_fhetch_text (read_fhetch_text_renderable hfirst hread) hform
  rw [Program.shown, Program.shown, Content.mk.injEq] at hshown
  exact ⟨r', hr', hok, hwarnings, hshown.2.1, hshown.1, hshown.2.2⟩

/-- A table ahead of everything that could be an instruction is first. -/
theorem tableFirst_of_split {F : FloatText} {text : Str} {head tail : List Str}
    (hcut : getlines text = head ++ tail)
    (hhead : ∀ l ∈ head, Reader.lineKind (trim l) ≠ .instruction)
    (htail : ∀ l ∈ tail, Reader.lineKind (trim l) ≠ .modulusEntry) : TableFirst F text := by
  intro pre line rest r hsplit hpre hkind
  have hsub : ∀ l ∈ pre, l ∈ head := by
    rw [hcut] at hsplit
    rcases List.append_eq_append_iff.mp hsplit with ⟨a, -, htail'⟩ | ⟨a, hhead', -⟩
    -- the table's line would be among the lines after the split
    · refine absurd hkind (htail line ?_)
      rw [htail']
      exact List.mem_append_right a List.mem_cons_self
    · intro l hl
      rw [hhead']
      exact List.mem_append_left a hl
  refine Reader.read_lines_induct_at (I := fun r => r.result_.program.instructions = []) rfl ?_ hpre
  intro pre' l rest' r₁ r₂ hcut' _ hempty hreads
  have hl : Reader.lineKind (trim l) ≠ .instruction := by
    apply hhead l (hsub l _)
    rw [hcut']
    exact List.mem_append_right pre' List.mem_cons_self
  cases hreads with
  | skip | header | note | error | entry => exact hempty
  | instruction hinst => exact absurd hinst hl

/-- Three bases, two spellings, a comment on its own and one on a line. -/
def mixedText : Str := str "m[0] 0x11\nSR_ADDP %0x2, %1, %010, m=0 # sum\n# then\nhalt"

theorem write_undoes_read_mixedText :
    ∃ r, read_fhetch_text zeroFloatText mixedText = some r ∧ r.program.instructions.length = 2 ∧
      ∃ r', read_fhetch_text zeroFloatText (write_fhetch_text zeroFloatText r.program) = some r' ∧
        r'.ok = true ∧ r'.warnings = [] ∧
        r'.program.instructions.map Instruction.content =
          r.program.instructions.map Instruction.content ∧
        r'.program.modulus_table = r.program.modulus_table ∧
        r'.program.annotations.map (fun note => (note.text, note.after_instruction)) =
          r.program.annotations.map fun note => (note.text, note.after_instruction) := by
  have hfirst : TableFirst zeroFloatText mixedText := by
    have hcut := (List.take_append_drop 1 (getlines mixedText)).symm
    exact tableFirst_of_split hcut (by decide) (by decide)
  have hany : (read_fhetch_text zeroFloatText mixedText).any (fun r =>
      decide (r.program.instructions.length = 2 ∧
        ∀ inst ∈ r.program.instructions, fh_operand_form inst.opcode ≠ .PolyScalarNI)) = true := by
    decide +kernel
  obtain ⟨r, hread, hr⟩ := (Option.any_eq_true _ _).mp hany
  obtain ⟨hlen, hform⟩ := of_decide_eq_true hr
  exact ⟨r, hread, hlen, write_undoes_read hread hfirst hform⟩

end Fhetch
