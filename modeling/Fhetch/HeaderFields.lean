/-
The fields of the text header, read back.

The header puts name and version on one line with ` v` between them, and file and
line with a colon. The reader splits each at the last separator it finds. A line
number holds no colon, so the second split is the writer's; the first is the
writer's only when the version holds no ` v` of its own, and when there is none
to look for in a name that stands alone.

The other fields have a line each. A field that is not written is at its default.
-/
import Fhetch.TextRoundTrip

set_option autoImplicit false

namespace Fhetch

open Lib

/-! ## The last occurrence -/

section Rfind

variable {c : UInt8} {cs : Str}

theorem rfind_eq_none_iff {s : Str} : rfind (c :: cs) s = none ↔ ¬ (c :: cs) <:+: s := by
  induction s with
  | nil => simp [rfind]
  | cons d ds ih =>
    rw [List.infix_cons_iff, not_or, ← ih, ← List.isPrefixOf_iff_prefix, rfind]
    cases rfind (c :: cs) ds with
    | none =>
      by_cases hpre : (c :: cs).isPrefixOf (d :: ds) = true
      · simp [hpre]
      · simp [hpre]
    | some found => simp

/-- What stands behind the last occurrence holds none, its own end included. -/
theorem rfind_last {before after : Str} : ∀ {s : Str}, rfind (c :: cs) s = some (before, after) →
    ¬ (c :: cs) <:+: (cs ++ after) := by
  intro s
  induction s generalizing before with
  | nil => intro h; exact absurd h (by simp [rfind])
  | cons d ds ih =>
    intro h
    rw [rfind] at h
    split at h
    · rename_i b a hrest
      obtain ⟨-, rfl⟩ := Prod.mk.inj (Option.some.inj h)
      exact ih hrest
    · rename_i hrest
      split at h
      · rename_i hpre
        obtain ⟨-, rfl⟩ := Prod.mk.inj (Option.some.inj h)
        -- the occurrence is at the start, and there is none in the tail
        obtain ⟨rest, hsplit⟩ := List.isPrefixOf_iff_prefix.mp hpre
        rw [← hsplit, List.drop_left]
        rw [rfind_eq_none_iff, (List.cons.inj hsplit).2.symm] at hrest
        exact hrest
      · exact absurd h (by simp)

/-- The writer's separator is found when nothing behind it looks like one. -/
theorem rfind_append_pattern {after : Str} (h : ¬ (c :: cs) <:+: (cs ++ after)) (s : Str) :
    rfind (c :: cs) (s ++ ((c :: cs) ++ after)) = some (s, after) := by
  induction s with
  | nil =>
    have hpre : (c :: cs).isPrefixOf (c :: (cs ++ after)) = true :=
      List.isPrefixOf_iff_prefix.mpr (List.prefix_append (c :: cs) after)
    rw [List.nil_append, List.cons_append, rfind, rfind_eq_none_iff.mpr h]
    simp only [hpre, if_true]
    rw [← List.cons_append, List.drop_left]
  | cons d s ih =>
    rw [List.cons_append, rfind, ih]

end Rfind

/-! ## What a header line sets -/

/-- **Text that takes the metadata of any read from one value to another**, at
whatever line it starts and whatever follows it. -/
def Absorbs (F : FloatText) (text : Str) (a b : TraceMetadata) : Prop :=
  ∀ r : Reader, r.result_.program.metadata = a → ∃ r' : Reader,
    r'.result_.program.metadata = b ∧ ∀ rest,
      Reader.read_lines F r (getlines (text ++ rest)) = Reader.read_lines F r' (getlines rest)

section Absorbs

variable {F : FloatText} {a b c : TraceMetadata} {text text' : Str}

theorem Absorbs.append (h : Absorbs F text a b) (h' : Absorbs F text' b c) :
    Absorbs F (text ++ text') a c := by
  intro r hr
  obtain ⟨r₁, hr₁, hread₁⟩ := h r hr
  obtain ⟨r₂, hr₂, hread₂⟩ := h' r₁ hr₁
  refine ⟨r₂, hr₂, fun rest => ?_⟩
  rw [List.append_assoc, hread₁, hread₂]

/-- A field that is not written is at its default already. -/
theorem Absorbs.optional {p : Prop} [Decidable p] (h : Absorbs F text a b) (hskip : p → b = c)
    (h' : ¬ p → Absorbs F text' b c) : Absorbs F (if p then text else text ++ text') a c := by
  split
  · rename_i hp
    rw [← hskip hp]
    exact h
  · rename_i hp
    exact h.append (h' hp)

/-- A comment line, up to what is done with its body. -/
theorem absorbs_comment {rest : Str} (hrest : newline ∉ rest)
    (h : ∀ (r : Reader) (t : Str), r.result_.program.metadata = a → trim (t.drop 1) = trim rest →
      (r.comment t).result_.program.metadata = b) : Absorbs F (endLine (0x23 :: rest)) a b := by
  intro r hr
  obtain ⟨t, ht, hline⟩ := read_line_comment (F := F) r rest
  refine ⟨r.next.comment t, h r.next t hr ht, fun rest' => ?_⟩
  have hl : newline ∉ 0x23 :: rest := List.not_mem_cons_of_ne_of_not_mem (by decide) hrest
  rw [endLine, List.append_assoc, List.singleton_append, getlines_append hl, Reader.read_lines,
    List.foldlM_cons, hline]
  rfl

/-- Layout and labels set nothing. -/
theorem absorbs_layout {rest : Str} (hrest : newline ∉ rest)
    (h : (trim rest).all (· = 0x3D) ∨ trim rest ∈ Reader.labels) :
    Absorbs F (endLine (0x23 :: rest)) a a := by
  apply absorbs_comment hrest
  rintro r t rfl ht
  rw [Reader.comment, ht, if_pos]
  rw [Bool.or_eq_true, Bool.or_eq_true, decide_eq_true_eq]
  exact h.elim (fun h => .inl (.inr h)) .inr

/-- A body with a header line's shape is neither layout nor a label: those have no
colon. -/
theorem not_layout_of_absorbed {body : Str} (h : absorb_metadata body a = some b) :
    ¬ (body.isEmpty || body.all (· = 0x3D) || decide (body ∈ Reader.labels)) = true := by
  have hcolon : 0x3A ∈ body := by
    by_contra hout
    have hkey : body.takeWhile (· ≠ 0x3A) = body := List.takeWhile_eq_self_iff.mpr fun d hd =>
      decide_eq_true fun heq => hout (heq ▸ hd)
    simp only [absorb_metadata, hkey, decide_true, Bool.true_or, if_true] at h
    exact absurd h (by simp)
  have hlabels : ∀ l ∈ Reader.labels, (0x3A : UInt8) ∉ l := by decide
  simp only [Bool.or_eq_true, decide_eq_true_eq, not_or]
  refine ⟨⟨fun hnil => ?_, fun hall => ?_⟩, fun hmem => hlabels body hmem hcolon⟩
  · rw [List.isEmpty_iff.mp hnil] at hcolon
    exact List.not_mem_nil hcolon
  · have := List.all_eq_true.mp hall _ hcolon
    exact absurd this (by decide)

/-- **A header line sets its field**, to the value without the blanks behind it. -/
theorem absorbs_header_text (key value : Str) (hkey : key ∈ Reader.header_keys)
    (hvalue : HeaderText value) (hne : value ≠ []) (h : absorb_field key (trim value) a = some b) :
    Absorbs F (endLine (0x23 :: 0x20 :: (key ++ 0x3A :: 0x20 :: value))) a b := by
  apply absorbs_comment (header_line_unbroken hkey hvalue.unbroken)
  rintro r t rfl ht
  have habsorb := absorb_metadata_header hkey hvalue hne r.result_.program.metadata
  rw [h] at habsorb
  rw [Reader.comment, ht, if_neg (not_layout_of_absorbed habsorb), habsorb]

end Absorbs

/-! ## The header, read -/

/-- A string that fits on a header line as a value. -/
structure HeaderValue (s : Str) : Prop where
  trimmed : Trimmed s
  unbroken : newline ∉ s

/-- Metadata the header has room for. -/
structure TraceMetadata.Plain (m : TraceMetadata) : Prop where
  program_name : HeaderValue m.program_name
  program_version : HeaderValue m.program_version
  description : HeaderValue m.description
  source_file : HeaderValue m.source_file
  build_timestamp : HeaderValue m.build_timestamp
  source_line : 0 ≤ m.source_line.toInt
  version_of_name : m.program_name = [] → m.program_version = []
  line_of_file : m.source_file = [] → m.source_line = 0

/-- What the Program line puts behind its key. -/
def programText (m : TraceMetadata) : Str :=
  m.program_name ++ if m.program_version.isEmpty then [] else str " v" ++ m.program_version

/-- What the reader takes that for. -/
def programRead (m : TraceMetadata) : Str × Str :=
  if m.program_name.isEmpty then ([], [])
  else (rfind (str " v") (programText m)).getD (programText m, [])

/-- The metadata a header leaves in a fresh read. -/
def headerMetadata (m : TraceMetadata) (n c : ℕ) : TraceMetadata where
  program_name := (programRead m).1
  program_version := (programRead m).2
  description := m.description
  source_file := m.source_file
  source_line := m.source_line
  build_timestamp := m.build_timestamp
  instruction_count := Int32.ofNat n
  modulus_chain_length := Int32.ofNat c
  generated_timestamp := m.generated_timestamp

theorem absorb_program_read {m : TraceMetadata} (hne : ¬ m.program_name.isEmpty = true) :
    absorb_program (programText m) {} =
      { program_name := (programRead m).1, program_version := (programRead m).2 } := by
  rw [absorb_program, programRead, if_neg hne]
  cases rfind (str " v") (programText m) with
  | none => rfl
  | some found => rfl

theorem headerValue_decimal (n : ℕ) : HeaderValue (decimal n) :=
  ⟨(operand_decimal n).trimmed, (headerText_decimal n).unbroken⟩

theorem HeaderValue.glue {s mid t : Str} (hs : HeaderValue s) (hs₀ : s ≠ []) (hmid : newline ∉ mid)
    (ht : HeaderValue t) (ht₀ : t ≠ []) : HeaderValue (s ++ (mid ++ t)) := by
  refine ⟨hs.trimmed.between hs₀ ht.trimmed ht₀ mid, fun h => ?_⟩
  rcases List.mem_append.mp h with h | h
  · exact hs.unbroken h
  · exact (List.mem_append.mp h).elim hmid ht.unbroken

theorem headerValue_programText {m : TraceMetadata} (hm : m.Plain) (hne : m.program_name ≠ []) :
    HeaderValue (programText m) := by
  rw [programText]
  split
  · rw [List.append_nil]
    exact hm.program_name
  · rename_i h
    exact hm.program_name.glue hne (by decide) hm.program_version fun h' => h (by rw [h']; rfl)

theorem u64ToInt_ofNat (n : ℕ) : u64ToInt n = Int32.ofNat n := by
  rw [u64ToInt, UInt64.toInt64_ofNat', Int64.toInt32_ofNat']

/-- A count that fits an `int` is read as one. -/
theorem as_int_decimal {n : ℕ} (hn : n < 2 ^ 31) (dst : Int32) :
    as_int (decimal n) dst = Int32.ofNat n := by
  have hn' : (UInt64.ofNat n).toNat = n := Nat.mod_eq_of_lt (by omega)
  have hread : to_uint (decimal n) = some (UInt64.ofNat n) := by
    have := to_uint_decimal (UInt64.ofNat n)
    rwa [hn'] at this
  rw [as_int, hread]
  show u64ToInt (UInt64.ofNat n).toNat = _
  rw [hn', u64ToInt_ofNat]

/-- A line number is read as it was. -/
theorem absorb_source_read {m : TraceMetadata} (hsource : 0 ≤ m.source_line.toInt)
    (a : TraceMetadata) :
    absorb_source (m.source_file ++ (str ":" ++ intDecimal m.source_line)) a =
      { a with source_file := m.source_file, source_line := m.source_line } := by
  have hnat : m.source_line.toInt.natAbs < 2 ^ 31 := by
    have := m.source_line.toInt_lt
    have := hsource
    omega
  have hline : Int32.ofNat m.source_line.toInt.natAbs = m.source_line := by
    apply Int32.toInt.inj
    rw [Int32.toInt_ofNat_of_lt hnat, Int.natAbs_of_nonneg hsource]
  have hn : (UInt64.ofNat m.source_line.toInt.natAbs).toNat = m.source_line.toInt.natAbs :=
    Nat.mod_eq_of_lt (by omega)
  have hread := to_uint_decimal (UInt64.ofNat m.source_line.toInt.natAbs)
  -- a decimal has no colon, so the last one is the one that was written
  have hcolon : ¬ [0x3A] <:+: ([] ++ decimal m.source_line.toInt.natAbs) := fun h =>
    not_mem_numeral (by decide) (by decide) _ (by decide) (h.subset List.mem_cons_self)
  have hfind : rfind (str ":") (m.source_file ++ (str ":" ++ decimal m.source_line.toInt.natAbs)) =
      some (m.source_file, decimal m.source_line.toInt.natAbs) :=
    rfind_append_pattern hcolon m.source_file
  rw [hn] at hread
  rw [intDecimal, if_neg (not_lt.mpr hsource), absorb_source,
    hfind]
  simp only [hread]
  rw [hn, u64ToInt_ofNat, hline]

/-- What the Source line puts behind its key. -/
def sourceText (m : TraceMetadata) : Str := m.source_file ++ (str ":" ++ intDecimal m.source_line)

/-- Name and version of a header's Program line, if it has one. -/
def rereadProgram (m : TraceMetadata) : Str × Str :=
  let read := if m.program_name.isEmpty then {} else absorb_program (trim (programText m)) {}
  (read.program_name, read.program_version)

/-- File and line of its Source line. -/
def rereadSource (m : TraceMetadata) : Str × Int32 :=
  let read := if m.source_file.isEmpty then {} else absorb_source (trim (sourceText m)) {}
  (read.source_file, read.source_line)

/-- The metadata that any header leaves in a fresh read. -/
def rereadMetadata (m : TraceMetadata) (n c : ℕ) : TraceMetadata where
  program_name := (rereadProgram m).1
  program_version := (rereadProgram m).2
  description := trim m.description
  source_file := (rereadSource m).1
  source_line := (rereadSource m).2
  build_timestamp := trim m.build_timestamp
  instruction_count := as_int (decimal n) 0
  modulus_chain_length := as_int (decimal c) 0
  generated_timestamp := m.generated_timestamp

theorem absorb_program_reread {m : TraceMetadata} (hne : ¬ m.program_name.isEmpty = true) :
    absorb_program (trim (programText m)) {} =
      { program_name := (rereadProgram m).1, program_version := (rereadProgram m).2 } := by
  simp only [rereadProgram, if_neg hne, absorb_program]
  cases rfind (str " v") (trim (programText m)) with
  | none => rfl
  | some found => rfl

theorem absorb_source_reread {m : TraceMetadata} (hne : ¬ m.source_file.isEmpty = true)
    {a : TraceMetadata} (ha : a.source_line = 0) : absorb_source (trim (sourceText m)) a =
      { a with source_file := (rereadSource m).1, source_line := (rereadSource m).2 } := by
  simp only [rereadSource, if_neg hne, absorb_source]
  cases rfind (str ":") (trim (sourceText m)) with
  | none =>
    rw [← ha]
  | some found =>
    dsimp only
    cases to_uint found.2 with
    | none => rw [← ha]
    | some line => rfl

/-- **The header sets its fields.** -/
theorem absorbs_render_header_text (F : FloatText) {m : TraceMetadata} (hm : m.Renderable)
    (n c : ℕ) : Absorbs F (render_header m n c) {} (rereadMetadata m n c) := by
  have hrule : ∀ a, Absorbs F (endLine kRule) a a := fun a =>
    absorbs_layout (by decide) (.inl (by decide))
  have htitle : Absorbs F (endLine (str "# Niobium FHETCH Trace")) {} {} :=
    absorbs_layout (by decide) (.inr (by decide))
  have hempty : ∀ {l : Str}, l.isEmpty = true → trim l = [] := fun h => by
    rw [List.isEmpty_iff.mp h]
    rfl
  have hne : ∀ {l : Str}, ¬ l.isEmpty = true → l ≠ [] := fun h h' => h (by rw [h']; rfl)
  have hdecimal : ∀ v, decimal v ≠ [] := fun v => (operand_decimal v).nonempty
  have htrimmed : ∀ v, trim (decimal v) = decimal v :=
    fun v => trim_of_trimmed (operand_decimal v).trimmed
  -- one field a line
  let a₁ : TraceMetadata :=
    { program_name := (rereadProgram m).1, program_version := (rereadProgram m).2 }
  let a₂ : TraceMetadata := { a₁ with description := trim m.description }
  let a₃ : TraceMetadata :=
    { a₂ with source_file := (rereadSource m).1, source_line := (rereadSource m).2 }
  let a₄ : TraceMetadata := { a₃ with build_timestamp := trim m.build_timestamp }
  let a₅ : TraceMetadata := { a₄ with instruction_count := as_int (decimal n) 0 }
  let a₆ : TraceMetadata := { a₅ with modulus_chain_length := as_int (decimal c) 0 }
  have hprogram : ¬ m.program_name.isEmpty = true →
      Absorbs F (endLine (str "# Program: " ++ m.program_name ++
        if m.program_version.isEmpty then [] else str " v" ++ m.program_version)) {} a₁ := by
    intro h
    have hversion : newline ∉ if m.program_version.isEmpty then [] else
        str " v" ++ m.program_version := by
      split
      · exact List.not_mem_nil
      · exact fun h => (List.mem_append.mp h).elim (by decide) hm.program_version
    have hvalue := hm.program_name.append (hne h) hversion
    rw [List.append_assoc]
    exact absorbs_header_text (str "Program") (programText m) (by decide) hvalue
      (List.append_ne_nil_of_left_ne_nil (hne h) _) (congrArg some (absorb_program_reread h))
  have hdescription : ¬ m.description.isEmpty = true →
      Absorbs F (endLine (str "# Description: " ++ m.description)) a₁ a₂ := fun h =>
    absorbs_header_text (str "Description") m.description (by decide) hm.description (hne h) rfl
  have hsource : ¬ m.source_file.isEmpty = true → Absorbs F (endLine (str "# Source: " ++
      m.source_file ++ str ":" ++ intDecimal m.source_line)) a₂ a₃ := by
    intro h
    have hline : newline ∉ str ":" ++ intDecimal m.source_line :=
      fun h => (List.mem_append.mp h).elim (by decide) (intDecimal_unbroken _)
    have hvalue := hm.source_file.append (hne h) hline
    rw [List.append_assoc, List.append_assoc]
    exact absorbs_header_text (str "Source") (sourceText m) (by decide) hvalue
      (List.append_ne_nil_of_left_ne_nil (hne h) _) (congrArg some (absorb_source_reread h rfl))
  have hbuild : ¬ m.build_timestamp.isEmpty = true →
      Absorbs F (endLine (str "# Build: " ++ m.build_timestamp)) a₃ a₄ := fun h =>
    absorbs_header_text (str "Build") m.build_timestamp (by decide) hm.build_timestamp (hne h) rfl
  have hcount : Absorbs F (endLine (str "# Instruction Count: " ++ decimal n)) a₄ a₅ :=
    absorbs_header_text (str "Instruction Count") (decimal n) (by decide) (headerText_decimal n)
      (hdecimal n) (by rw [htrimmed]; rfl)
  have hmoduli : Absorbs F (endLine (str "# Modulus Count: " ++ decimal c)) a₅ a₆ :=
    absorbs_header_text (str "Modulus Count") (decimal c) (by decide) (headerText_decimal c)
      (hdecimal c) (by rw [htrimmed]; rfl)
  have hgenerated : ¬ m.generated_timestamp = 0 →
      Absorbs F (endLine (str "# Generated: " ++ decimal m.generated_timestamp.toNat)) a₆
        (rereadMetadata m n c) := fun _ =>
    absorbs_header_text (str "Generated") (decimal m.generated_timestamp.toNat) (by decide)
      (headerText_decimal _) (hdecimal _)
      (congrArg some (by rw [htrimmed, to_uint_decimal]; rfl))
  have htop := (((hrule {}).append htitle).append (hrule {})).optional (c := a₁)
    (fun h => by simp only [a₁, rereadProgram, if_pos h]) hprogram
  have hdesc := htop.optional (c := a₂) (fun h => by simp only [a₂, hempty h]; rfl) hdescription
  have hsrc := hdesc.optional (c := a₃)
    (fun h => by simp only [a₃, rereadSource, if_pos h]; rfl) hsource
  have hbld := hsrc.optional (c := a₄) (fun h => by simp only [a₄, hempty h]; rfl) hbuild
  have hgen := ((hbld.append hcount).append hmoduli).optional (c := rereadMetadata m n c)
    (fun h => by simp only [rereadMetadata, h]; rfl) hgenerated
  exact hgen.append (hrule _)

theorem TraceMetadata.Plain.renderable {m : TraceMetadata} (hm : m.Plain) : m.Renderable where
  program_name := ⟨hm.program_name.trimmed.head, hm.program_name.unbroken⟩
  program_version := hm.program_version.unbroken
  description := ⟨hm.description.trimmed.head, hm.description.unbroken⟩
  source_file := ⟨hm.source_file.trimmed.head, hm.source_file.unbroken⟩
  build_timestamp := ⟨hm.build_timestamp.trimmed.head, hm.build_timestamp.unbroken⟩

/-- Of plain metadata the values stand on their lines as they are. -/
theorem rereadMetadata_of_plain {m : TraceMetadata} (hm : m.Plain) {n c : ℕ} (hn : n < 2 ^ 31)
    (hc : c < 2 ^ 31) : rereadMetadata m n c = headerMetadata m n c := by
  have hprogram : rereadProgram m = programRead m := by
    by_cases h : m.program_name.isEmpty = true
    · rw [rereadProgram, programRead, if_pos h, if_pos h]
    · have hvalue := headerValue_programText hm fun h' => h (by rw [h']; rfl)
      rw [rereadProgram, if_neg h, trim_of_trimmed hvalue.trimmed, absorb_program_read h]
  have hsource : rereadSource m = (m.source_file, m.source_line) := by
    by_cases h : m.source_file.isEmpty = true
    · rw [rereadSource, if_pos h, List.isEmpty_iff.mp h, hm.line_of_file (List.isEmpty_iff.mp h)]
    · have hline : HeaderValue (intDecimal m.source_line) := by
        rw [intDecimal, if_neg (not_lt.mpr hm.source_line)]
        exact headerValue_decimal _
      have hline₀ : intDecimal m.source_line ≠ [] := by
        rw [intDecimal, if_neg (not_lt.mpr hm.source_line)]
        exact (operand_decimal _).nonempty
      have hvalue := hm.source_file.glue (fun h' => h (by rw [h']; rfl))
        (show newline ∉ str ":" by decide) hline hline₀
      rw [rereadSource, if_neg h, sourceText, trim_of_trimmed hvalue.trimmed,
        absorb_source_read hm.source_line]
  rw [rereadMetadata, hprogram, hsource, trim_of_trimmed hm.description.trimmed,
    trim_of_trimmed hm.build_timestamp.trimmed, as_int_decimal hn, as_int_decimal hc]
  rfl

/-- **Plain metadata, from its header.** -/
theorem absorbs_render_header (F : FloatText) {m : TraceMetadata} (hm : m.Plain) {n c : ℕ}
    (hn : n < 2 ^ 31) (hc : c < 2 ^ 31) :
    Absorbs F (render_header m n c) {} (headerMetadata m n c) := by
  rw [← rereadMetadata_of_plain hm hn hc]
  exact absorbs_render_header_text F hm.renderable n c

/-! ## Name and version -/

/-- The separator stands in the program line where the writer put it, last. -/
structure TraceMetadata.Separable (m : TraceMetadata) : Prop where
  program_version : ¬ str " v" <:+: m.program_version
  program_name : m.program_version = [] → ¬ str " v" <:+: m.program_name

/-- Behind the writer's separator, one more has to be in the version. -/
theorem separator_infix_iff {s : Str} : str " v" <:+: str "v" ++ s ↔ str " v" <:+: s := by
  show str " v" <:+: 0x76 :: s ↔ _
  rw [List.infix_cons_iff]
  refine or_iff_right fun h => ?_
  obtain ⟨rest, hrest⟩ := h
  exact absurd (List.cons.inj hrest).1 (by decide)

theorem programRead_iff {m : TraceMetadata} (hm : m.Plain) :
    programRead m = (m.program_name, m.program_version) ↔ m.Separable := by
  by_cases hname : m.program_name = []
  · have hversion := hm.version_of_name hname
    have hnot : ¬ str " v" <:+: ([] : Str) := by decide
    rw [programRead, hname, hversion]
    refine ⟨fun _ => ⟨?_, fun _ => ?_⟩, fun _ => rfl⟩
    · rwa [hversion]
    · rwa [hname]
  have hne : ¬ m.program_name.isEmpty = true := fun h => hname (List.isEmpty_iff.mp h)
  rw [programRead, if_neg hne, programText]
  by_cases hversion : m.program_version = []
  · -- a name alone is taken whole when there is nothing to split at
    rw [hversion, List.isEmpty_nil, if_pos rfl, List.append_nil]
    constructor
    · intro h
      refine ⟨by rw [hversion]; decide, fun _ => ?_⟩
      cases hfind : rfind (str " v") m.program_name with
      | none => exact rfind_eq_none_iff.mp hfind
      | some found =>
        rw [hfind, Option.getD_some] at h
        have hsplit := congrArg List.length (rfind_eq_some (h ▸ hfind))
        rw [List.length_append, List.length_append] at hsplit
        have : (str " v").length = 2 := rfl
        omega
    · intro h
      have hfind : rfind (str " v") m.program_name = none :=
        rfind_eq_none_iff.mpr (h.program_name hversion)
      rw [hfind]
      rfl
  · rw [if_neg fun h => hversion (List.isEmpty_iff.mp h)]
    constructor
    · intro h
      refine ⟨fun hinfix => ?_, fun h' => absurd h' hversion⟩
      -- the text is cut at its last " v", which may lie inside the version
      cases hfind : rfind (str " v") (m.program_name ++ (str " v" ++ m.program_version)) with
      | none =>
        rw [hfind] at h
        exact hversion (Prod.mk.inj h).2.symm
      | some found =>
        rw [hfind, Option.getD_some] at h
        rw [h] at hfind
        exact rfind_last hfind (separator_infix_iff.mpr hinfix)
    · intro h
      have hlast : ¬ str " v" <:+: str "v" ++ m.program_version := fun h' =>
        h.program_version (separator_infix_iff.mp h')
      have hfind : rfind (str " v") (m.program_name ++ (str " v" ++ m.program_version)) =
          some (m.program_name, m.program_version) := rfind_append_pattern hlast m.program_name
      rw [hfind]
      rfl

/-! ## The text behind the header -/

/-- Lines of which none is a header line. -/
def Headerless (lines : List Str) : Prop :=
  ∀ line ∈ lines, Reader.lineKind (trim line) = .comment →
    ∀ m, absorb_metadata (trim ((trim line).drop 1)) m = none

theorem metadata_of_headerless {F : FloatText} {lines : List Str} (h : Headerless lines)
    {r r' : Reader} (hread : Reader.read_lines F r lines = some r') :
    r'.result_.program.metadata = r.result_.program.metadata := by
  refine Reader.read_lines_induct_at
    (I := fun r' => r'.result_.program.metadata = r.result_.program.metadata) rfl ?_ hread
  intro pre line rest r₁ r₂ hcut _ hsame hreads
  have hmem : line ∈ lines := by
    rw [hcut]
    exact List.mem_append_right pre List.mem_cons_self
  rw [← hsame]
  -- of all that a line can do, only a header line touches the metadata
  cases hreads with
  | skip | note | error | entry => rfl
  | header m hkind habsorb =>
    rw [h line hmem hkind] at habsorb
    exact absurd habsorb (by simp)
  | instruction =>
    rcases hL : r₁.next.lineInstruction F (trim line) with ⟨- | inst, d⟩
    · rw [Reader.instruction_line_of_none hL]
      rfl
    · rw [Reader.instruction_line_of_some hL]
      rfl

/-- The fields of a header, as they were written. -/
structure TraceMetadata.ReadsBack (m : TraceMetadata) (n c : ℕ) (m' : TraceMetadata) : Prop where
  program_name : m'.program_name = m.program_name
  program_version : m'.program_version = m.program_version
  description : m'.description = m.description
  source_file : m'.source_file = m.source_file
  source_line : m'.source_line = m.source_line
  build_timestamp : m'.build_timestamp = m.build_timestamp
  generated_timestamp : m'.generated_timestamp = m.generated_timestamp
  instruction_count : m'.instruction_count.toInt = n
  modulus_chain_length : m'.modulus_chain_length.toInt = c

/-- **A header gives its fields back exactly when its separator is the last one.** -/
theorem render_header_reads_back_iff (F : FloatText) (m : TraceMetadata) (n c : ℕ) (rest : Str)
    (r : ReadResult) (hm : m.Plain) (hn : n < 2 ^ 31) (hc : c < 2 ^ 31)
    (hrest : Headerless (getlines rest))
    (hread : read_fhetch_text F (render_header m n c ++ rest) = some r) :
    m.ReadsBack n c r.program.metadata ↔ m.Separable := by
  obtain ⟨r', hr', hskip⟩ := absorbs_render_header F hm hn hc {} rfl
  rw [read_fhetch_text, hskip] at hread
  obtain ⟨final, hlines, rfl⟩ := Option.map_eq_some_iff.mp hread
  have hmeta := (metadata_of_headerless hrest hlines).trans hr'
  have hn' : (Int32.ofNat n).toInt = n := Int32.toInt_ofNat_of_lt hn
  have hc' : (Int32.ofNat c).toInt = c := Int32.toInt_ofNat_of_lt hc
  rw [← programRead_iff hm]
  simp only [Reader.finish, hmeta, headerMetadata]
  refine ⟨fun h => Prod.ext h.program_name h.program_version, fun h => ?_⟩
  rw [h]
  exact ⟨rfl, rfl, rfl, rfl, rfl, rfl, rfl, hn', hc'⟩

/-- The program of the writer's own test. -/
def matrixOps : TraceMetadata where
  program_name := str "matrix_ops"
  program_version := str "1.0"
  description := str "writer fixture"
  source_file := str "examples/mat_mul.cpp"
  source_line := 42
  build_timestamp := str "Mon Aug 17 2026"
  generated_timestamp := 1755400000000

theorem matrixOps_plain : matrixOps.Plain where
  program_name := ⟨.of_ends (by decide) (by decide), by decide⟩
  program_version := ⟨.of_ends (by decide) (by decide), by decide⟩
  description := ⟨.of_ends (by decide) (by decide), by decide⟩
  source_file := ⟨.of_ends (by decide) (by decide), by decide⟩
  build_timestamp := ⟨.of_ends (by decide) (by decide), by decide⟩
  source_line := by decide
  version_of_name := fun h => absurd h (by decide)
  line_of_file := fun h => absurd h (by decide)

theorem render_header_reads_back_iff_matrixOps :
    ∃ r, read_fhetch_text zeroFloatText (render_header matrixOps 1 2 ++ str "halt\n") = some r ∧
      (matrixOps.ReadsBack 1 2 r.program.metadata ↔ matrixOps.Separable) := by
  refine ⟨_, rfl, render_header_reads_back_iff zeroFloatText matrixOps 1 2 (str "halt\n") _
    matrixOps_plain (by decide) (by decide) ?_ rfl⟩
  rintro line hline hkind
  rw [List.mem_singleton.mp hline] at hkind
  exact absurd hkind (by decide)

/-- A second version of a program that has one in its name. -/
def fooTwo : TraceMetadata := { program_name := str "foo v2" }

/-- **A version in the name moves to the version.** -/
theorem version_taken_from_name :
    fooTwo.Plain ∧ ∃ r, read_fhetch_text zeroFloatText (render_header fooTwo 0 0) = some r ∧
      r.program.metadata.program_name = str "foo" ∧
      r.program.metadata.program_version = str "2" ∧
      ¬ fooTwo.ReadsBack 0 0 r.program.metadata := by
  have hnil : HeaderValue [] := ⟨.nil, List.not_mem_nil⟩
  refine ⟨⟨⟨.of_ends (by decide) (by decide), by decide⟩, hnil, hnil, hnil, hnil, by decide,
    fun _ => rfl, fun _ => rfl⟩, _, rfl, by decide, by decide, fun h => ?_⟩
  exact absurd h.program_version (by decide)

end Fhetch
