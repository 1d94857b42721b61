/-
Comments and program info in a written text.

The writer puts each of these strings behind `# ` on a line of its own. What it
does not look at is a line end inside the string: the rest of the string is then a
line like any other. So a string stays a comment exactly as far as its first line
end, and what decides whether it stays out of the program is what its later lines
are to the reader.

Two texts of the same program under different strings are read side by side. The
blocks that hold strings are hidden on both sides; the others are the same text.
-/
import Fhetch.TwoReads
import Fhetch.TextRoundTrip

set_option autoImplicit false

namespace Fhetch

open Lib

/-! ## Lines of a block -/

/-- A block that ends its last line ends before the next. -/
theorem getlines_endLine (s rest : Str) :
    getlines (endLine s ++ rest) = getlines (endLine s) ++ getlines rest := by
  rw [endLine, List.append_assoc]
  exact getlines_ended s rest

/-- The lines of a string put on a line: the first goes behind what stands there. -/
theorem getlines_behind {before : Str} (hbefore : newline ∉ before) (s : Str) :
    ∃ l, getlines (endLine (before ++ s)) = (before ++ l) :: (getlines (endLine s)).tail := by
  have hsplit : ∀ s : Str, ∃ l, getlines (endLine s) = l :: (getlines (endLine s)).tail := by
    intro s
    cases h : getlines (endLine s) with
    | nil =>
      cases s with
      | nil => simp [endLine, getlines] at h
      | cons c s =>
        rw [endLine, List.cons_append, getlines] at h
        split at h
        · exact absurd h (by simp)
        · split at h <;> exact absurd h (by simp)
    | cons l ls => exact ⟨l, rfl⟩
  obtain ⟨l, hl⟩ := hsplit s
  refine ⟨l, ?_⟩
  -- no break in front of the line, so it grows at its head
  induction before with
  | nil => exact hl
  | cons c before ih =>
    have hc : c ≠ newline := fun h => hbefore (h ▸ List.mem_cons_self)
    have hrest := ih fun h => hbefore (List.mem_cons_of_mem c h)
    rw [endLine] at hrest ⊢
    rw [List.cons_append, List.cons_append, getlines, if_neg hc, hrest]
    rfl

/-! ## Hidden text -/

section Hidden

variable {F : FloatText} {text text' rest : Str}

/-- **Text that no read notices**: behind it a read is as it was, but for line
numbers, metadata and notes. -/
def Hidden (F : FloatText) (text : Str) : Prop :=
  ∀ r : Reader, ∃ r' : Reader, r.Alike r' ∧ ∀ rest,
    Reader.read_lines F r (getlines (text ++ rest)) = Reader.read_lines F r' (getlines rest)

theorem Hidden.nil : Hidden F [] := fun r => ⟨r, .refl r, fun _ => rfl⟩

theorem Hidden.append (h : Hidden F text) (h' : Hidden F text') : Hidden F (text ++ text') := by
  intro r
  obtain ⟨r₁, hr₁, hread₁⟩ := h r
  obtain ⟨r₂, hr₂, hread₂⟩ := h' r₁
  refine ⟨r₂, hr₁.trans hr₂, fun rest => ?_⟩
  rw [List.append_assoc, hread₁, hread₂]

/-- A line that gives nothing to a read and takes nothing from it: blank, a
comment, a count within bounds, or one with no instruction and no error in it. -/
inductive Harmless (F : FloatText) (t : Str) : Prop where
  | blank : Reader.lineKind t = .blank → Harmless F t
  | comment : Reader.lineKind t = .comment → Harmless F t
  | count (n : UInt64) : Reader.lineKind t = .modulusCount →
      to_uint (t.drop (str "modulus_count").length) = some n → n.toNat ≤ Reader.max_size →
      Harmless F t
  | inert : Reader.lineKind t = .instruction →
      (∀ line table d, (instruction F line table t d).1 = none ∧
        (instruction F line table t d).2.errors.isEmpty = d.errors.isEmpty) → Harmless F t

theorem Harmless.read_line {l : Str} (h : Harmless F (trim l)) (r : Reader) :
    ∃ r', Reader.read_line F r l = some r' ∧ r.Alike r' := by
  have hnext := Reader.alike_next r
  unfold Reader.read_line
  dsimp only
  cases h with
  | blank hkind =>
    rw [hkind]
    exact ⟨_, rfl, hnext⟩
  | comment hkind =>
    rw [hkind]
    exact ⟨_, rfl, hnext.trans (Reader.alike_comment _ _)⟩
  | count n hkind hn hle =>
    rw [hkind]
    refine ⟨r.next, ?_, hnext⟩
    show Reader.modulus_count r.next (trim l) = _
    rw [Reader.modulus_count, hn]
    exact if_neg (Nat.not_lt.mpr hle)
  | inert hkind hinert =>
    rw [hkind]
    refine ⟨_, rfl, hnext.trans ?_⟩
    show r.next.Alike (r.next.instruction_line F (trim l))
    obtain ⟨hnone, herrors⟩ :=
      hinert r.next.line_ r.next.result_.program.modulus_table.length r.next.result_.toDiagnostics
    -- a line that gives no instruction leaves its diagnostics only
    rcases hL : r.next.lineInstruction F (trim l) with ⟨- | inst, d⟩
    · rw [Reader.instruction_line_of_none hL]
      rw [Reader.lineInstruction] at hL
      rw [hL] at herrors
      exact ⟨rfl, rfl, herrors.symm⟩
    · rw [Reader.lineInstruction] at hL
      rw [hL] at hnone
      exact absurd hnone (by simp)

theorem Harmless.read_lines {ls : List Str} (h : ∀ l ∈ ls, Harmless F (trim l)) (r : Reader) :
    ∃ r', Reader.read_lines F r ls = some r' ∧ r.Alike r' := by
  induction ls generalizing r with
  | nil => exact ⟨r, rfl, .refl r⟩
  | cons l ls ih =>
    obtain ⟨hl, hls⟩ := List.forall_mem_cons.mp h
    obtain ⟨r₁, hline, hr₁⟩ := hl.read_line r
    obtain ⟨r₂, hlines, hr₂⟩ := ih hls r₁
    refine ⟨r₂, ?_, hr₁.trans hr₂⟩
    rw [Reader.read_lines, List.foldlM_cons, hline]
    exact hlines

theorem hidden_of_lines {s : Str} (h : ∀ l ∈ getlines (endLine s), Harmless F (trim l)) :
    Hidden F (endLine s) := by
  intro r
  obtain ⟨r', hlines, hr'⟩ := Harmless.read_lines h r
  refine ⟨r', hr', fun rest => ?_⟩
  rw [Reader.read_lines] at hlines
  rw [getlines_endLine, Reader.read_lines, List.foldlM_append, hlines]
  rfl

/-- A line that starts with `#` is a comment, whatever follows. -/
theorem harmless_hash (l : Str) : Harmless F (trim (0x23 :: l)) := by
  rw [trim_cons_of_not_blank (by decide)]
  exact .comment rfl

/-- **A string that stays in its comment**: every line of it after the first is
harmless. -/
def Contained (F : FloatText) (s : Str) : Prop := ∀ l ∈ (getlines (endLine s)).tail, Harmless F (trim l)

/-- Strings without a line end do. -/
theorem contained_of_unbroken {s : Str} (h : newline ∉ s) : Contained F s := by
  intro l hl
  rw [endLine, getlines_append h] at hl
  exact absurd hl List.not_mem_nil

theorem hidden_comment {key s : Str} (hkey : newline ∉ key) (h : Contained F s) :
    Hidden F (endLine (0x23 :: key ++ s)) := by
  have hhash : newline ∉ (0x23 :: key : Str) := List.not_mem_cons_of_ne_of_not_mem (by decide) hkey
  obtain ⟨l, hl⟩ := getlines_behind hhash s
  apply hidden_of_lines
  rw [hl]
  exact List.forall_mem_cons.mpr ⟨harmless_hash _, h⟩

end Hidden

/-! ## Where the strings go -/

/-- What the header puts behind each of its keys for a string. -/
def headerTexts (m : TraceMetadata) : List Str :=
  [if m.program_name.isEmpty then [] else
      m.program_name ++ if m.program_version.isEmpty then [] else str " v" ++ m.program_version,
    m.description, m.source_file ++ (str ":" ++ intDecimal m.source_line), m.build_timestamp]

/-- Every string of a program stays in its comment. -/
structure Program.Contained (F : FloatText) (p : Program) : Prop where
  header : ∀ s ∈ headerTexts p.metadata, Fhetch.Contained F s
  annotations : ∀ note ∈ p.annotations, Fhetch.Contained F note.text

theorem hidden_header {F : FloatText} {m : TraceMetadata} (hm : ∀ s ∈ headerTexts m, Contained F s)
    (n k : ℕ) : Hidden F (render_header m n k) := by
  simp only [headerTexts, List.forall_mem_cons] at hm
  obtain ⟨hprogram, hdescription, hsource, hbuild, -⟩ := hm
  have hplain : ∀ {key : Str}, newline ∉ key → Hidden F (endLine (0x23 :: key)) := by
    intro key hkey
    have h := hidden_comment hkey (contained_of_unbroken (F := F) List.not_mem_nil)
    rwa [List.append_nil] at h
  have hfield : ∀ key ∈ Reader.header_keys, ∀ {value : Str}, Contained F value →
      Hidden F (headerLine key value) := by
    intro key hkey value hvalue
    have hunbroken := header_line_unbroken hkey (List.not_mem_nil (a := newline))
    have h := hidden_comment hunbroken hvalue
    rw [List.cons_append, List.cons_append, List.append_assoc] at h
    exact h
  refine render_header_of_lines Hidden.append (hplain (by decide)) (hplain (by decide)) (fun h => ?_)
    (fun _ => hfield _ (by decide) hdescription) (fun _ => hfield _ (by decide) hsource)
    (fun _ => hfield _ (by decide) hbuild)
    fun key hkey v => hfield key hkey (contained_of_unbroken (headerText_decimal v).unbroken)
  rw [if_neg h] at hprogram
  exact hfield _ (by decide) hprogram

/-! ## Two texts side by side -/

section Matches

variable {F : FloatText} {a a' b b' : Str}

/-- Blocks that keep two reads alike, as long as what follows them does. -/
def Matches (F : FloatText) (a a' : Str) : Prop :=
  ∀ rest rest', (∀ q q' : Reader, q.Alike q' →
      Option.Rel Reader.Alike (Reader.read_lines F q (getlines rest))
        (Reader.read_lines F q' (getlines rest'))) →
    ∀ r r' : Reader, r.Alike r' →
      Option.Rel Reader.Alike (Reader.read_lines F r (getlines (a ++ rest)))
        (Reader.read_lines F r' (getlines (a' ++ rest')))

theorem Matches.append (h : Matches F a a') (h' : Matches F b b') : Matches F (a ++ b) (a' ++ b') := by
  intro rest rest' hrest
  have hb := h' rest rest' hrest
  have ha := h (b ++ rest) (b' ++ rest') hb
  simpa only [List.append_assoc] using ha

/-- Hidden blocks, whatever they hold. -/
theorem Matches.hidden (h : Hidden F a) (h' : Hidden F a') : Matches F a a' := by
  intro rest rest' hrest r r' hr
  obtain ⟨q, hq, hread⟩ := h r
  obtain ⟨q', hq', hread'⟩ := h' r'
  rw [hread, hread']
  exact hrest q q' ((hq.symm.trans hr).trans hq')

theorem Matches.nil : Matches F [] [] := Matches.hidden Hidden.nil Hidden.nil

/-- The same line on both sides, even one that breaks into more. -/
theorem Matches.same (s : Str) : Matches F (endLine s) (endLine s) := by
  intro rest rest' hrest r r' hr
  rw [getlines_endLine, getlines_endLine, Reader.read_lines, Reader.read_lines, List.foldlM_append,
    List.foldlM_append]
  have hlines := hr.read_lines (F := F) (getlines (endLine s))
  rw [Reader.read_lines, Reader.read_lines] at hlines
  rcases hx : List.foldlM (Reader.read_line F) r (getlines (endLine s)) with - | q <;>
    rcases hy : List.foldlM (Reader.read_line F) r' (getlines (endLine s)) with - | q' <;>
    rw [hx, hy] at hlines
  · exact .none
  · cases hlines
  · cases hlines
  · cases hlines with
    | some hq => exact hrest q q' hq

theorem Matches.same_lines {blocks : List Str} (h : ∀ b ∈ blocks, ∃ l, b = endLine l) :
    Matches F blocks.flatten blocks.flatten := by
  induction blocks with
  | nil => exact Matches.nil
  | cons b blocks ih =>
    obtain ⟨⟨l, rfl⟩, hrest⟩ := List.forall_mem_cons.mp h
    exact (Matches.same l).append (ih hrest)

theorem hidden_notes : ∀ {notes : List Annotation}, (∀ note ∈ notes, Contained F note.text) →
    Hidden F (notes.flatMap render_note) := by
  intro notes
  induction notes with
  | nil => exact fun _ => Hidden.nil
  | cons note notes ih =>
    intro h
    obtain ⟨hnote, hnotes⟩ := List.forall_mem_cons.mp h
    exact (hidden_comment (by decide) hnote).append (ih hnotes)

/-- **The stream.** Which notes are due at an instruction depends on positions. -/
theorem matches_render_stream (insts : List Instruction) : ∀ (i : ℕ) {notes notes' : List Annotation},
    (∀ note ∈ notes, Contained F note.text) → (∀ note ∈ notes', Contained F note.text) →
    notes.map (·.after_instruction) = notes'.map (·.after_instruction) →
    Matches F (render_stream F i insts notes) (render_stream F i insts notes') := by
  induction insts with
  | nil =>
    intro i notes notes' h h' _
    exact Matches.hidden (hidden_notes h) (hidden_notes h')
  | cons inst insts ih =>
    intro i notes notes' h h' hpos
    -- what is due before an instruction depends on the positions alone
    have hlater : (notes.dropWhile (·.after_instruction ≤ i)).map (·.after_instruction) =
        (notes'.dropWhile (·.after_instruction ≤ i)).map (·.after_instruction) := by
      have hdrop := congrArg (List.dropWhile fun n => decide (n ≤ i)) hpos
      rwa [List.dropWhile_map, List.dropWhile_map] at hdrop
    have hdue : ∀ {notes : List Annotation}, (∀ note ∈ notes, Contained F note.text) →
        Hidden F ((notes.takeWhile (·.after_instruction ≤ i)).flatMap render_note) :=
      fun h => hidden_notes fun note hnote => h note ((List.takeWhile_sublist _).subset hnote)
    have hrest := ih (i + 1) (fun note hnote => h note ((List.dropWhile_sublist _).subset hnote))
      (fun note hnote => h' note ((List.dropWhile_sublist _).subset hnote)) hlater
    have hline : Matches F
        (if (render_instruction F inst).isEmpty then [] else endLine (render_instruction F inst))
        (if (render_instruction F inst).isEmpty then [] else endLine (render_instruction F inst)) := by
      split
      · exact Matches.nil
      · exact Matches.same _
    exact ((Matches.hidden (hdue h) (hdue h')).append hline).append hrest

end Matches

/-! ## The result -/

/-- Two programs that differ in their strings only: the info of the program, and
the texts of its comments. -/
structure Program.Recommented (p p' : Program) : Prop where
  metadata : p'.metadata = { p.metadata with
    program_name := p'.metadata.program_name
    program_version := p'.metadata.program_version
    description := p'.metadata.description
    source_file := p'.metadata.source_file
    build_timestamp := p'.metadata.build_timestamp }
  modulus_table : p'.modulus_table = p.modulus_table
  instructions : p'.instructions = p.instructions
  positions : p'.annotations.map (·.after_instruction) = p.annotations.map (·.after_instruction)

/-- The instruction list and the modulus table of a read. -/
def ReadResult.code (r : ReadResult) : List Instruction × List UInt64 :=
  (r.program.instructions.map Instruction.content, r.program.modulus_table)

/-- **Comments and program info do not become instructions** as long as each string
stays in its comment: two choices of the strings are read as the same instructions
under the same table. -/
theorem comments_change_no_code {F : FloatText} {p p' : Program} (hsame : p.Recommented p')
    (hp : p.Contained F) (hp' : p'.Contained F) :
    (read_fhetch_text F (write_fhetch_text F p)).map ReadResult.code =
      (read_fhetch_text F (write_fhetch_text F p')).map ReadResult.code := by
  have hheader : Matches F
      (render_header p.metadata p.instructions.length p.modulus_table.length)
      (render_header p'.metadata p'.instructions.length p'.modulus_table.length) :=
    Matches.hidden (hidden_header hp.header _ _) (hidden_header hp'.header _ _)
  have hlabel : ∀ l : Str, Matches F (endLine [] ++ endLine l) (endLine [] ++ endLine l) :=
    fun l => (Matches.same []).append (Matches.same l)
  have htable : Matches F (render_modulus_table p.modulus_table)
      (render_modulus_table p'.modulus_table) := by
    rw [hsame.modulus_table]
    apply (Matches.same _).append
    apply Matches.same_lines
    intro b hb
    obtain ⟨i, _, rfl⟩ := List.mem_mapIdx.mp hb
    exact ⟨_, rfl⟩
  have hstream : Matches F (render_stream F 0 p.instructions p.annotations)
      (render_stream F 0 p'.instructions p'.annotations) := by
    rw [hsame.instructions]
    exact matches_render_stream _ 0 hp.annotations hp'.annotations hsame.positions.symm
  have hall : Matches F (write_fhetch_text F p) (write_fhetch_text F p') :=
    (((hheader.append (hlabel _)).append htable).append (hlabel _)).append hstream
  -- the two texts as a whole, read from the start
  have hread := hall [] [] (fun _ _ hq => .some hq) {} {} (Reader.Alike.refl _)
  rw [List.append_nil, List.append_nil] at hread
  rw [read_fhetch_text, read_fhetch_text]
  rcases hx : Reader.read_lines F {} (getlines (write_fhetch_text F p)) with - | r <;>
    rcases hy : Reader.read_lines F {} (getlines (write_fhetch_text F p')) with - | r' <;>
    rw [hx, hy] at hread
  · cases hread
  · cases hread
  · cases hread with
    | some halike =>
      show some _ = some _
      exact congrArg some (Prod.ext halike.instructions halike.table)

/-- The empty program under one comment. -/
def commented (text : Str) : Program := { annotations := [⟨0, text, 0⟩] }

theorem recommented_commented (text text' : Str) : (commented text).Recommented (commented text') :=
  ⟨rfl, rfl, rfl, rfl⟩

/-- Two comments on a line each, the second of which names an opcode. -/
theorem comments_change_no_code_words :
    (read_fhetch_text zeroFloatText (write_fhetch_text zeroFloatText (commented (str "x")))).map
        ReadResult.code =
      (read_fhetch_text zeroFloatText (write_fhetch_text zeroFloatText (commented (str "halt")))).map
        ReadResult.code := by
  have hcontained : ∀ text : Str, newline ∉ text → (commented text).Contained zeroFloatText := by
    intro text htext
    refine ⟨fun s hs => contained_of_unbroken ?_, fun note hnote => ?_⟩
    · have hall : ∀ s ∈ headerTexts {}, newline ∉ s := by decide
      exact hall s hs
    · rw [List.mem_singleton.mp hnote]
      exact contained_of_unbroken htext
  exact comments_change_no_code (recommented_commented _ _) (hcontained _ (by decide))
    (hcontained _ (by decide))

/-- A comment with a line end in it, and what follows is read as an instruction. -/
theorem comment_becomes_instruction :
    (commented (str "x")).Recommented (commented (str "x\nhalt")) ∧
    (read_fhetch_text zeroFloatText (write_fhetch_text zeroFloatText (commented (str "x")))).map
        ReadResult.code = some ([], []) ∧
      (read_fhetch_text zeroFloatText (write_fhetch_text zeroFloatText (commented (str "x\nhalt")))).map
        ReadResult.code = some ([{ opcode := .FH_HALT }], []) := by
  have hread : ∀ (text : Str) (s : Content),
      Turns zeroFloatText (render_note ⟨0, text, 0⟩) ⟨[], [], []⟩ s →
      (read_fhetch_text zeroFloatText (write_fhetch_text zeroFloatText (commented text))).map
        ReadResult.code = some (s.instructions, s.modulus_table) := by
    intro text s hnote
    have hheader : Turns zeroFloatText (render_header {} 0 0) ⟨[], [], []⟩ ⟨[], [], []⟩ :=
      turns_render_header ⟨.nil, List.not_mem_nil, .nil, .nil, .nil⟩ 0 0
    have hstream : Turns zeroFloatText (render_stream zeroFloatText 0 [] [⟨0, text, 0⟩])
        ⟨[], [], []⟩ s := by
      rw [render_stream, List.flatMap_cons, List.flatMap_nil, List.append_nil]
      exact hnote
    have hall : Turns zeroFloatText (write_fhetch_text zeroFloatText (commented text)) ⟨[], [], []⟩ s :=
      turns_write_fhetch_text hheader (Nat.zero_le _) rfl rfl hstream
    obtain ⟨r, hr, -, -, hshown⟩ := read_of_turns hall
    rw [hr, ← hshown]
    rfl
  have hx : Turns zeroFloatText (endLine (0x23 :: 0x20 :: str "x")) ⟨[], [], []⟩
      ⟨[], [], [(str "x", 0)]⟩ := by
    apply turns_kept (by decide)
    exact ⟨by decide, by decide, by decide, fun _ => rfl⟩
  have hhalt : Turns zeroFloatText (endLine (render_instruction zeroFloatText { opcode := .FH_HALT }))
      ⟨[], [], [(str "x", 0)]⟩ ⟨[], [{ opcode := .FH_HALT }], [(str "x", 0)]⟩ := by
    apply turns_instruction
    · exact ⟨by decide, ⟨fun _ => ⟨rfl, rfl⟩, fun _ _ => rfl, fun _ => rfl, fun _ => rfl,
        fun _ => ⟨rfl, rfl⟩, fun _ => rfl, fun _ => rfl, fun _ => rfl, fun _ _ => rfl, fun _ => rfl⟩,
        fun h => absurd h (by decide), by decide, by decide, by decide, by decide, by rintro _ ⟨⟩⟩
    · decide
  -- behind the break stands a line of its own
  have hboth : render_note ⟨0, str "x\nhalt", 0⟩ = endLine (0x23 :: 0x20 :: str "x") ++
      endLine (render_instruction zeroFloatText { opcode := .FH_HALT }) := by decide
  have hbroken : Turns zeroFloatText (render_note ⟨0, str "x\nhalt", 0⟩) ⟨[], [], []⟩
      ⟨[], [{ opcode := .FH_HALT }], [(str "x", 0)]⟩ := by
    rw [hboth]
    exact hx.append hhalt
  exact ⟨recommented_commented _ _, hread (str "x") _ hx, hread (str "x\nhalt") _ hbroken⟩

end Fhetch
