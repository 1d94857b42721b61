/-
Comments at the end of a line.

The README's example of a trace puts one behind a modulus table entry. The reader
cuts a line at its first `#` when it takes the line for an instruction, and only
then: what follows `modulus_count` or `m[i]` is a number to its end. So a comment
behind an instruction changes nothing wherever the line stands, and a comment
behind one of the other two is an error of the read.

One line lies between the two. `m[` alone is an instruction of no known opcode,
which is skipped; with anything behind it, it is a table entry.
-/
import Fhetch.SilentLines

set_option autoImplicit false

namespace Fhetch

open Lib

/-! ## A comment behind a line -/

/-- Blanks, a `#` and a comment text, on one line. -/
structure Remark where
  blanks : Str
  comment : Str
  blank : ∀ c ∈ blanks, isBlank c
  unbroken : newline ∉ blanks ++ comment

def Remark.text (k : Remark) : Str := k.blanks ++ 0x23 :: k.comment

theorem Remark.newline_not_mem (k : Remark) : newline ∉ k.text := by
  have h := k.unbroken
  rw [List.mem_append, not_or] at h
  rw [text, List.mem_append, List.mem_cons, not_or, not_or]
  exact ⟨h.1, by decide, h.2⟩

/-- A line of a text: between two line ends, or an end of the text. -/
structure LineAt (before line after : Str) : Prop where
  begins : before = [] ∨ before.getLast? = some newline
  ends : after = [] ∨ after.head? = some newline
  unbroken : newline ∉ line

theorem LineAt.remark {before line after : Str} (h : LineAt before line after) (k : Remark) :
    LineAt before (line ++ k.text) after := by
  refine ⟨h.begins, h.ends, fun hmem => ?_⟩
  rcases List.mem_append.mp hmem with hmem | hmem
  · exact h.unbroken hmem
  · exact k.newline_not_mem hmem

/-- The lines of a text, at one of them. -/
theorem LineAt.getlines_eq {before line after : Str} (h : LineAt before line after)
    (hne : line ≠ []) :
    getlines (before ++ line ++ after) = getlines before ++ line :: getlines after.tail := by
  have hrest : getlines (line ++ after) = line :: getlines after.tail := by
    rcases h.ends with rfl | hend
    · rw [List.append_nil, getlines_unended hne h.unbroken]
      rfl
    · obtain ⟨rest, rfl⟩ := List.head?_eq_some_iff.mp hend
      exact getlines_append h.unbroken rest
  rcases h.begins with rfl | hbegin
  · exact hrest
  · obtain ⟨s, rfl⟩ := List.getLast?_eq_some_iff.mp hbegin
    rw [List.append_assoc, List.append_assoc, List.singleton_append, getlines_ended, hrest]

/-- The trimmed line keeps its start, and the `#`. -/
theorem trim_remark {line : Str} (hline : trim line ≠ []) (k : Remark) :
    ∃ pad tail, (∀ b ∈ pad, isBlank b) ∧
      trim (line ++ k.text) = trim line ++ (pad ++ 0x23 :: tail) := by
  obtain ⟨pad, hpad, htrim⟩ := trim_append_cons hline (show isBlank 0x23 = false by decide)
  refine ⟨pad ++ k.blanks, k.comment.rdropWhile isBlank, fun b hb => ?_, ?_⟩
  · exact (List.mem_append.mp hb).elim (hpad b) (k.blank b)
  · rw [Remark.text, htrim, List.append_assoc]

/-! ## What the line is taken for -/

/-- A text behind another does not complete a prefix it has no character of. -/
theorem isPrefixOf_append_of_head {p s : Str} (h : ∀ c ∈ p, s.head? ≠ some c) (t : Str) :
    p.isPrefixOf (t ++ s) = p.isPrefixOf t := by
  induction p generalizing t with
  | nil => rw [List.isPrefixOf_nil_left, List.isPrefixOf_nil_left]
  | cons c p ih =>
    rcases t with - | ⟨d, t⟩
    · rcases s with - | ⟨d, s⟩
      · rfl
      · have hne : c ≠ d := fun heq => h c List.mem_cons_self (by rw [heq]; rfl)
        rw [List.nil_append, List.isPrefixOf_cons_cons, beq_eq_false_iff_ne.mpr hne]
        rfl
    · rw [List.cons_append, List.isPrefixOf_cons_cons, List.isPrefixOf_cons_cons,
        ih fun c' hc' => h c' (List.mem_cons_of_mem c hc')]

section Line

variable {t pad tail : Str} (hpad : ∀ b ∈ pad, isBlank b)

include hpad

/-- What a remark starts with. -/
theorem head_remark {c : UInt8} (hc : isBlank c = false) (hne : c ≠ 0x23) :
    (pad ++ 0x23 :: tail).head? ≠ some c := by
  rcases pad with - | ⟨b, pad⟩
  · exact fun h => hne (Option.some.inj h).symm
  · intro h
    have hb := hpad b List.mem_cons_self
    rw [Option.some.inj h, hc] at hb
    exact absurd hb (by decide)

theorem isPrefixOf_remark {p : Str} (hp : p.all fun c => !isBlank c && c ≠ 0x23) :
    p.isPrefixOf (t ++ (pad ++ 0x23 :: tail)) = p.isPrefixOf t := by
  apply isPrefixOf_append_of_head
  intro c hc
  have h := List.all_eq_true.mp hp c hc
  rw [Bool.and_eq_true, Bool.not_eq_true', decide_eq_true_eq] at h
  exact head_remark hpad h.1 h.2

/-- **A remark changes what one line is taken for.** -/
theorem lineKind_remark (hblank : Reader.lineKind t ≠ .blank)
    (hcomment : Reader.lineKind t ≠ .comment) :
    Reader.lineKind (t ++ (pad ++ 0x23 :: tail)) =
      if t = str "m[" then .modulusEntry else Reader.lineKind t := by
  have hcount : (str "modulus_count").isPrefixOf (t ++ (pad ++ 0x23 :: tail)) =
      (str "modulus_count").isPrefixOf t := isPrefixOf_remark hpad (by decide)
  have hentry : (str "m[").isPrefixOf (t ++ (pad ++ 0x23 :: tail)) = (str "m[").isPrefixOf t :=
    isPrefixOf_remark hpad (by decide)
  rcases t with - | ⟨c, cs⟩
  · exact absurd rfl hblank
  have hc : c ≠ 0x23 := by
    rintro rfl
    exact hcomment rfl
  have hhead : (some c = some (0x23 : UInt8)) ↔ False := by simp [hc]
  rw [List.cons_append] at hcount hentry ⊢
  simp only [Reader.lineKind, hcount, hentry, List.isEmpty_cons, List.head?_cons, hhead, if_false,
    Bool.false_eq_true]
  -- the bracket alone is too short for an entry until the remark stands behind it
  by_cases hshort : c :: cs = str "m["
  · rw [hshort, if_pos rfl, if_neg (by decide), if_pos]
    obtain rfl : cs = [0x5B] := (List.cons.inj hshort).2
    rw [Bool.and_eq_true, decide_eq_true_eq]
    exact ⟨by simp, by decide⟩
  · rw [if_neg hshort]
    split
    · rfl
    · -- behind the bracket there is something already
      by_cases hp : (str "m[").isPrefixOf (c :: cs) = true
      · obtain ⟨u, hu⟩ := List.isPrefixOf_iff_prefix.mp hp
        have hune : u ≠ [] := by
          rintro rfl
          exact hshort (by rw [← hu, List.append_nil])
        have hlong : (c :: cs).length > 2 := by
          rw [← hu, List.length_append]
          have := List.length_pos_iff.mpr hune
          show 2 < 2 + u.length
          omega
        have hlong' : (c :: (cs ++ (pad ++ 0x23 :: tail))).length > 2 := by
          rw [List.length_cons] at hlong ⊢
          rw [List.length_append]
          omega
        rw [hp, decide_eq_true hlong, decide_eq_true hlong']
      · rw [Bool.not_eq_true] at hp
        rw [hp, Bool.and_false, Bool.and_false]

omit hpad in
/-- A number does not go on past a `#`. -/
theorem to_uint_eq_none {tok : Str} (h : 0x23 ∈ tok) : to_uint tok = none := by
  have hstrip : 0x23 ∈ strip_comma tok := mem_strip_comma (by decide) (by decide) h
  rw [to_uint]
  split
  · rfl
  · rename_i c cs hcs
    rw [hcs] at hstrip
    have hrest := mem_strtoull_rest (by decide) (by decide) (by decide) hstrip
    split
    · rfl
    · rw [if_pos]
      rw [Bool.or_eq_true, Bool.not_eq_true']
      exact .inr (List.isEmpty_eq_false_iff.mpr (List.ne_nil_of_mem hrest))

/-- An instruction ends where the remark starts. -/
theorem instruction_body_remark (ht : Trimmed t) :
    instruction_body (t ++ (pad ++ 0x23 :: tail)) = instruction_body t := by
  have hmem : (0x23 : UInt8) ∈ t ++ (pad ++ 0x23 :: tail) :=
    List.mem_append_right _ (List.mem_append_right _ List.mem_cons_self)
  rw [instruction_body, if_pos hmem, instruction_body]
  split
  · rename_i hin
    -- `t` is cut at its own first `#`
    obtain ⟨u, v, rfl, hu⟩ := List.eq_append_cons_of_mem hin
    have hall : ∀ c ∈ u, decide (c ≠ 0x23) = true := fun c hc =>
      decide_eq_true fun heq => hu (heq ▸ hc)
    rw [List.append_assoc, List.takeWhile_append_of_pos hall, List.takeWhile_append_of_pos hall]
    rfl
  · rename_i hout
    have hall : ∀ c ∈ t ++ pad, decide (c ≠ 0x23) = true := by
      intro c hc
      apply decide_eq_true
      rintro rfl
      rcases List.mem_append.mp hc with hc | hc
      · exact hout hc
      · exact absurd (hpad _ hc) (by decide)
    rw [← List.append_assoc, List.takeWhile_append_of_pos hall, List.takeWhile_cons_of_neg (by decide),
      List.append_nil]
    rw [trim_append_blanks hpad, trim_of_trimmed ht]

omit hpad in
/-- A count is a number to the end of its line. -/
theorem modulus_count_remark (r : Reader) (hp : (str "modulus_count").isPrefixOf t) :
    r.modulus_count (t ++ (pad ++ 0x23 :: tail)) =
      some (r.error (str "malformed modulus_count")) := by
  obtain ⟨u, rfl⟩ := List.isPrefixOf_iff_prefix.mp hp
  have hmem : (0x23 : UInt8) ∈ u ++ (pad ++ 0x23 :: tail) :=
    List.mem_append_right _ (List.mem_append_right _ List.mem_cons_self)
  rw [Reader.modulus_count, List.append_assoc, List.drop_left, to_uint_eq_none hmem]

/-- So is the value of a table entry, and the index when its bracket is not
closed before the remark. -/
theorem modulus_entry_remark (r : Reader) (hp : (str "m[").isPrefixOf t)
    (hspace : 0x5D ∈ t → 0x20 ∈ t) : r.modulus_entry (t ++ (pad ++ 0x23 :: tail)) =
      some (r.error (str "malformed modulus table entry")) := by
  have hmem : (0x23 : UInt8) ∈ pad ++ 0x23 :: tail := List.mem_append_right _ List.mem_cons_self
  rw [Reader.modulus_entry]
  split
  · rfl
  -- the remark is in the value, or in the index when no bracket closes that
  · by_cases hclose : 0x5D ∈ t
    · have hvalue : to_uint (trim ((t ++ (pad ++ 0x23 :: tail)).drop
          ((t ++ (pad ++ 0x23 :: tail)).idxOf 0x20 + 1))) = none := by
        apply to_uint_eq_none
        apply mem_trim (by decide)
        have hlt := List.idxOf_lt_length_of_mem (hspace hclose)
        rw [List.idxOf_append_of_mem (hspace hclose), List.drop_append_of_le_length (by omega)]
        exact List.mem_append_right _ hmem
      rw [hvalue]
      split
      · rename_i h
        exact absurd h (by simp)
      · rfl
    · have hindex : to_uint (((t ++ (pad ++ 0x23 :: tail)).take
          ((t ++ (pad ++ 0x23 :: tail)).idxOf 0x5D)).drop 2) = none := by
        apply to_uint_eq_none
        have hlong : 2 ≤ t.length := (List.isPrefixOf_iff_prefix.mp hp).length_le
        have hopen : (0x5D : UInt8) ∉ t ++ (pad ++ [0x23]) := by
          intro h
          rcases List.mem_append.mp h with h | h
          · exact hclose h
          rcases List.mem_append.mp h with h | h
          · exact absurd (hpad _ h) (by decide)
          · exact absurd h (by decide)
        have hcut : t ++ (pad ++ 0x23 :: tail) = t ++ (pad ++ [0x23]) ++ tail := by simp
        rw [hcut, List.idxOf_append_of_notMem hopen, List.take_length_add_append,
          List.append_assoc, List.drop_append_of_le_length hlong]
        exact List.mem_append_right _
          (List.mem_append_left _ (List.mem_append_right _ List.mem_cons_self))
      rw [hindex]

end Line

/-! ## The line, read -/

/-- The lines that take a comment: instructions. `m[` alone is one, too, and does
not. -/
def TakesRemark (t : Str) : Prop := Reader.lineKind t = .instruction ∧ t ≠ str "m["

instance (t : Str) : Decidable (TakesRemark t) := inferInstanceAs (Decidable (_ ∧ _))

section Read

variable {F : FloatText} {line : Str}

/-- An instruction is read as if the remark were not there. -/
theorem read_line_remark (h : TakesRemark (trim line)) (k : Remark) (r : Reader) :
    Reader.read_line F r (line ++ k.text) = Reader.read_line F r line := by
  obtain ⟨hkind, hshort⟩ := h
  have hne : trim line ≠ [] := by
    intro hnil
    rw [hnil] at hkind
    exact absurd hkind (by decide)
  obtain ⟨pad, tail, hpad, htrim⟩ := trim_remark hne k
  have hkind' : Reader.lineKind (trim line ++ (pad ++ 0x23 :: tail)) = .instruction := by
    rw [lineKind_remark hpad (by rw [hkind]; decide) (by rw [hkind]; decide), if_neg hshort, hkind]
  have hbody : instruction_body (trim line ++ (pad ++ 0x23 :: tail)) = instruction_body (trim line) :=
    instruction_body_remark hpad (trim_trimmed line)
  simp only [Reader.read_line, htrim, hkind, hkind', Reader.instruction_line, instruction, hbody]

/-- The two kinds of a line that starts with a keyword. -/
theorem prefix_of_lineKind {t : Str} :
    (Reader.lineKind t = .modulusCount → (str "modulus_count").isPrefixOf t) ∧
      (Reader.lineKind t = .modulusEntry → (str "m[").isPrefixOf t) := by
  unfold Reader.lineKind
  split
  · exact ⟨fun h => absurd h (by decide), fun h => absurd h (by decide)⟩
  split
  · exact ⟨fun h => absurd h (by decide), fun h => absurd h (by decide)⟩
  split
  · rename_i hp
    exact ⟨fun _ => hp, fun h => absurd h (by decide)⟩
  split
  · rename_i hp
    rw [Bool.and_eq_true] at hp
    exact ⟨fun h => absurd h (by decide), fun _ => hp.2⟩
  · exact ⟨fun h => absurd h (by decide), fun h => absurd h (by decide)⟩

/-- A table entry that is none has no blank, or is not closed. -/
theorem space_of_modulus_entry {r after : Reader} {t : Str} (h : r.modulus_entry t = some after)
    (hok : after.result_.errors = []) : 0x20 ∈ t := by
  by_contra hspace
  rw [Reader.modulus_entry, if_pos (by simp [List.idxOf_eq_length hspace])] at h
  obtain rfl := Option.some.inj h
  exact absurd hok (List.append_ne_nil_of_right_ne_nil _ (List.cons_ne_nil _ _))

/-- **Any other line is an error with the remark**, if it was none without. -/
theorem read_line_remark_error (hblank : Reader.lineKind (trim line) ≠ .blank)
    (hcomment : Reader.lineKind (trim line) ≠ .comment) (h : ¬ TakesRemark (trim line)) (k : Remark)
    {r after : Reader} (hafter : Reader.read_line F r line = some after)
    (hok : after.result_.errors = []) :
    ∃ message, Reader.read_line F r (line ++ k.text) = some (r.next.error message) := by
  have hne : trim line ≠ [] := by
    intro hnil
    rw [hnil] at hblank
    exact hblank rfl
  obtain ⟨pad, tail, hpad, htrim⟩ := trim_remark hne k
  have hkind : Reader.lineKind (trim line ++ (pad ++ 0x23 :: tail)) =
      if trim line = str "m[" then .modulusEntry else Reader.lineKind (trim line) :=
    lineKind_remark hpad hblank hcomment
  obtain ⟨hcount, hentry⟩ := prefix_of_lineKind (t := trim line)
  rw [Reader.read_line, htrim, hkind]
  -- a line that takes no remark is a line of the table
  by_cases hshort : trim line = str "m["
  · rw [if_pos hshort]
    refine ⟨_, modulus_entry_remark hpad r.next (by rw [hshort]; decide) ?_⟩
    rw [hshort]
    decide
  rw [if_neg hshort]
  rw [Reader.read_line] at hafter
  cases hk : Reader.lineKind (trim line) with
  | blank => exact absurd hk hblank
  | comment => exact absurd hk hcomment
  | instruction => exact absurd ⟨hk, hshort⟩ h
  | modulusCount => exact ⟨_, modulus_count_remark r.next (hcount hk)⟩
  | modulusEntry =>
    rw [hk] at hafter
    exact ⟨_, modulus_entry_remark hpad r.next (hentry hk) fun _ => space_of_modulus_entry hafter hok⟩

/-- An error stays to the end of a read. -/
theorem Reader.errors_of_read_lines {lines : List Str} {r r' : Reader}
    (h : Reader.read_lines F r lines = some r') (hok : r'.result_.errors = []) :
    r.result_.errors = [] := by
  obtain ⟨-, hgrew⟩ := Reader.read_lines_grew lines h
  obtain ⟨added, heq, -⟩ := hgrew.errors
  rw [hok] at heq
  exact (List.append_eq_nil_iff.mp heq.symm).1

end Read

/-- **A remark is inert exactly behind an instruction.** The text reads as before,
without an error, with the same program; behind a count or a table entry the
read fails. -/
theorem inline_comment_inert_iff (F : FloatText) (before line after : Str) (k : Remark)
    (r : ReadResult) (hat : LineAt before line after)
    (hblank : Reader.lineKind (trim line) ≠ .blank)
    (hcomment : Reader.lineKind (trim line) ≠ .comment)
    (hread : read_fhetch_text F (before ++ line ++ after) = some r) (hok : r.ok = true) :
    (∃ r', read_fhetch_text F (before ++ (line ++ k.text) ++ after) = some r' ∧ r'.ok = true ∧
      r'.program = r.program) ↔ TakesRemark (trim line) := by
  have hne : line ≠ [] := by
    rintro rfl
    exact hblank rfl
  have hne' : line ++ k.text ≠ [] := List.append_ne_nil_of_left_ne_nil hne _
  rw [read_fhetch_text, hat.getlines_eq hne] at hread
  rw [read_fhetch_text, (hat.remark k).getlines_eq hne']
  obtain ⟨final, hlines, rfl⟩ := Option.map_eq_some_iff.mp hread
  replace hok : final.result_.errors = [] := List.isEmpty_iff.mp hok
  -- the lines before, this line, the lines behind
  have hcut : ∀ l, Reader.read_lines F {} (getlines before ++ l :: getlines after.tail) =
      ((Reader.read_lines F {} (getlines before)).bind fun r => (Reader.read_line F r l).bind
        fun r => Reader.read_lines F r (getlines after.tail)) := fun l => by
    rw [Reader.read_lines, List.foldlM_append]
    rfl
  rw [hcut] at hlines ⊢
  obtain ⟨r₁, h₁, hlines⟩ := Option.bind_eq_some_iff.mp hlines
  obtain ⟨r₂, h₂, h₃⟩ := Option.bind_eq_some_iff.mp hlines
  rw [h₁, Option.bind_some]
  constructor
  · rintro ⟨r', hread', hok', -⟩
    by_contra htakes
    -- the line alone was read without an error; with the remark it raises one
    obtain ⟨message, hline⟩ := read_line_remark_error hblank hcomment htakes k h₂
      (Reader.errors_of_read_lines h₃ hok)
    rw [hline, Option.bind_some] at hread'
    obtain ⟨final', h₃', rfl⟩ := Option.map_eq_some_iff.mp hread'
    have hnil := Reader.errors_of_read_lines h₃' (List.isEmpty_iff.mp hok')
    exact absurd hnil (List.append_ne_nil_of_right_ne_nil _ (List.cons_ne_nil _ _))
  · intro htakes
    rw [read_line_remark htakes k, h₂, Option.bind_some, h₃]
    exact ⟨_, rfl, List.isEmpty_iff.mpr hok, rfl⟩

/-- The remark of the README's example. -/
def copySentinel : Remark where
  blanks := str "    "
  comment := str " copy sentinel"
  blank := List.all_eq_true.mp (by decide)
  unbroken := by decide

/-- The example's table entry between the lines around it. -/
def exampleLines : Str × Str × Str :=
  (str "modulus_count 2\n", str "m[0] 0xFFFFFFFFFFFFFFFF",
    str "\nm[1] 0x3FFFFE80001\nsr_addp %2, %0, %1, m=1\nhalt\n")

/-- The example reads well without its comment, and not at all with it. -/
theorem copy_sentinel_rejected :
    (∃ r, read_fhetch_text zeroFloatText
        (exampleLines.1 ++ exampleLines.2.1 ++ exampleLines.2.2) = some r ∧ r.ok = true) ∧
      LineAt exampleLines.1 exampleLines.2.1 exampleLines.2.2 ∧
      Reader.lineKind (trim exampleLines.2.1) = .modulusEntry ∧
      ¬ ∃ r', read_fhetch_text zeroFloatText
        (exampleLines.1 ++ (exampleLines.2.1 ++ copySentinel.text) ++ exampleLines.2.2) = some r' ∧
          r'.ok = true := by
  refine ⟨⟨_, rfl, by decide⟩, ⟨.inr (by decide), .inr (by decide), by decide⟩, by decide, ?_⟩
  rintro ⟨r', hread, hok⟩
  obtain rfl := Option.some.inj hread
  exact absurd hok (by decide)

/-- Behind an instruction of the same text, the comment is inert. -/
theorem inline_comment_inert_iff_halt :
    ∃ r, read_fhetch_text zeroFloatText (exampleLines.1 ++ (str "halt") ++ []) = some r ∧
      ((∃ r', read_fhetch_text zeroFloatText (exampleLines.1 ++ (str "halt" ++ copySentinel.text) ++ [])
          = some r' ∧ r'.ok = true ∧ r'.program = r.program) ↔ TakesRemark (trim (str "halt"))) :=
  ⟨_, rfl, inline_comment_inert_iff zeroFloatText exampleLines.1 (str "halt") [] copySentinel _
    ⟨.inr (by decide), .inl rfl, by decide⟩ (by decide) (by decide) rfl (by decide)⟩

end Fhetch
