/-
What reading a text costs (`Reader` of `src/fhetch_reader.cpp`).

A line leaves one thing behind, an instruction, a table entry, an annotation or a
diagnostic, and besides it a warning for each `logn=` it declares out of range. So what
a read returns is bounded by its text, whatever the text says.

What it reserves is not. A `modulus_count` line is a number of 64 bits that goes to
`reserve` as it stands, where the decoder of the binary form first holds its counts
against the bytes it has. A read is in proportion to its text exactly when no such line
declares more entries than the text has lines; past the largest vector the call throws,
and there is no result at all.

The table itself never grows past that vector: an entry is written with its index, so a
table of 2⁵⁹ entries is a text of more bytes than a string holds.
-/
import Fhetch.NumberTokens
import Fhetch.ReaderSpec

set_option autoImplicit false

namespace Fhetch

open Lib

/-! ## What a check reports -/

/-- How many diagnostics there are. -/
def Diagnostics.count (d : Diagnostics) : ℕ := d.errors.length + d.warnings.length

theorem Diagnostics.count_error (d : Diagnostics) (line : ℕ) (message : Str) :
    (d.error line message).count = d.count + 1 := by
  simp only [Diagnostics.count, Diagnostics.error, List.length_append, List.length_singleton]
  omega

theorem Diagnostics.count_warn (d : Diagnostics) (line : ℕ) (message : Str) :
    (d.warn line message).count = d.count + 1 := by
  simp only [Diagnostics.count, Diagnostics.warn, List.length_append, List.length_singleton]
  omega

namespace Check

variable {α β : Type} {line ok bad : ℕ}

/-- A check reports at most `ok` times when it gives something, and at most `bad` times
when it fails. -/
structure Costs (x : Check α) (ok bad : ℕ) : Prop where
  gives : ∀ {d d' : Diagnostics} {a : α}, x d = (some a, d') → d'.count ≤ d.count + ok
  fails : ∀ {d d' : Diagnostics}, x d = (none, d') → d'.count ≤ d.count + bad

theorem Costs.mono {x : Check α} {ok' bad' : ℕ} (h : x.Costs ok bad) (hok : ok ≤ ok')
    (hbad : bad ≤ bad') : x.Costs ok' bad' where
  gives hx := (h.gives hx).trans (Nat.add_le_add_left hok _)
  fails hx := (h.fails hx).trans (Nat.add_le_add_left hbad _)

theorem costs_pure (a : α) : (pure a : Check α).Costs 0 bad := by
  constructor
  · rintro d _ _ ⟨⟩
    exact Nat.le_refl _
  · rintro d _ ⟨⟩

theorem costs_fail : (fail : Check α).Costs ok 0 := by
  constructor
  · rintro d _ _ ⟨⟩
  · rintro d _ ⟨⟩
    exact Nat.le_refl _

theorem costs_failError (message : Str) : (failError line message : Check α).Costs ok 1 := by
  constructor
  · rintro d _ _ ⟨⟩
  · rintro d _ ⟨⟩
    rw [Diagnostics.count_error]

theorem costs_failWarn (message : Str) : (failWarn line message : Check α).Costs ok 1 := by
  constructor
  · rintro d _ _ ⟨⟩
  · rintro d _ ⟨⟩
    rw [Diagnostics.count_warn]

theorem costs_warn (message : Str) : (warn line message).Costs 1 bad := by
  constructor
  · rintro d _ _ ⟨⟩
    rw [Diagnostics.count_warn]
  · rintro d _ ⟨⟩

/-- In a chain the reports of the links that give something add up, and one link fails
last. -/
theorem Costs.bind {x : Check α} {f : α → Check β} {ok' bad' : ℕ} (hx : x.Costs ok bad)
    (hf : ∀ a, (f a).Costs ok' bad') : (x >>= f).Costs (ok + ok') (max bad (ok + bad')) := by
  constructor
  · intro d d' b h
    rcases hxd : x d with ⟨- | a, mid⟩
    · rw [bind_none hxd] at h
      exact absurd h (by simp)
    · rw [bind_some hxd] at h
      have hmid := hx.gives hxd
      have hend := (hf a).gives h
      omega
  · intro d d' h
    rcases hxd : x d with ⟨- | a, mid⟩
    · rw [bind_none hxd] at h
      have hmid := hx.fails hxd
      rw [Prod.mk.injEq] at h
      rw [← h.2]
      omega
    · rw [bind_some hxd] at h
      have hmid := hx.gives hxd
      have hend := (hf a).fails h
      omega

/-- A link that is silent unless it fails. -/
theorem Costs.bind_free {x : Check α} {f : α → Check β} (hx : x.Costs 0 1)
    (hf : ∀ a, (f a).Costs ok (bad + 1)) : (x >>= f).Costs ok (bad + 1) :=
  (hx.bind hf).mono (by omega) (by omega)

end Check

/-! ## The operand helpers -/

section Operands

variable {F : FloatText} {line table : ℕ}

theorem costs_address (tok : Str) : (address line tok).Costs 0 1 := by
  rcases h : to_addr_token tok with - | v
  · rw [address_of_malformed h]
    exact Check.costs_fail.mono (Nat.le_refl _) (Nat.zero_le _)
  · by_cases hv : kMaxAddress < v.toNat
    · obtain ⟨message, heq⟩ := address_of_wide line h hv
      rw [heq]
      exact Check.costs_failError message
    · rw [address_of_fits h (Nat.not_lt.mp hv)]
      exact Check.costs_pure _

theorem costs_need (opcode : FhOpcode) (args : List Str) (n : ℕ) :
    (need line opcode args n).Costs 0 1 := by
  rw [need]
  split
  · exact Check.costs_pure ()
  · exact Check.costs_failWarn _

theorem costs_dest_src1 (args : List Str) (inst : Instruction) :
    (dest_src1 line args inst).Costs 0 1 := by
  apply (costs_address _).bind_free
  intro dest
  apply (costs_address _).bind_free
  exact fun src1 => Check.costs_pure _

/-- A modulus operand fails silently, fails with an error, or is read. -/
theorem modulus_cases (line table : ℕ) (tok : Str) (inst : Instruction) :
    modulus line table tok inst = Check.fail ∨
      (∃ message, modulus line table tok inst = Check.failError line message) ∨
      ∃ inst', modulus line table tok inst = pure inst' := by
  rcases h : to_named tok (str "m=") with - | v
  · exact .inl (modulus_of_malformed inst h)
  · by_cases hread : v.toNat < table → v.toNat ≤ kMaxModulusIndex
    · exact .inr (.inr ⟨_, modulus_of_read inst h hread⟩)
    · obtain ⟨hlt, hmax⟩ := Classical.not_imp.mp hread
      exact .inr (.inl (modulus_of_unencodable line inst h hlt (Nat.not_le.mp hmax)))

theorem costs_modulus (tok : Str) (inst : Instruction) :
    (modulus line table tok inst).Costs 0 1 := by
  rcases modulus_cases line table tok inst with h | ⟨message, h⟩ | ⟨inst', h⟩
  · rw [h]
    exact Check.costs_fail.mono (Nat.le_refl _) (Nat.zero_le _)
  · rw [h]
    exact Check.costs_failError message
  · rw [h]
    exact Check.costs_pure inst'

theorem costs_try_modulus (tok : Str) (inst : Instruction) :
    (try_modulus line table tok inst).Costs 0 1 := by
  -- an operand that is passed over has reported nothing: an error would stop it
  have hsame : ∀ d, (try_modulus line table tok inst d).2 = d ∨
      ((try_modulus line table tok inst d).1 = none ∧
        ∃ message, (try_modulus line table tok inst d).2 = d.error line message) := by
    intro d
    rcases modulus_cases line table tok inst with h | ⟨message, h⟩ | ⟨inst', h⟩
    · left
      simp only [try_modulus, h, Check.fail]
      split <;> rfl
    · right
      have hne : (d.error line message).errors.isEmpty = false := by simp [Diagnostics.error]
      simp only [try_modulus, h, Check.failError, hne]
      exact ⟨rfl, message, rfl⟩
    · left
      simp only [try_modulus, h, Check.pure_run]
  constructor
  · intro d d' r hr
    have := hsame d
    rw [hr] at this
    simp only [reduceCtorEq, false_and, or_false] at this
    rw [this]
    exact Nat.le_refl _
  · intro d d' hr
    have := hsame d
    rw [hr] at this
    rcases this with rfl | ⟨-, message, rfl⟩
    · exact Nat.le_succ _
    · rw [Diagnostics.count_error]

/-- Each operand of `sr_automorph_eval` is worth a warning, or the failure that ends the
line. -/
theorem costs_automorph_eval_operands (args : List Str) : ∀ (inst : Instruction) (saw_mod : Bool),
    (automorph_eval_operands line table args inst saw_mod).Costs args.length args.length := by
  induction args with
  | nil => exact fun inst saw_mod => Check.costs_pure _
  | cons tok rest ih =>
    intro inst saw_mod
    have hrest : ∀ inst saw_mod, (automorph_eval_operands line table rest inst saw_mod).Costs
        (rest.length + 1) (rest.length + 1) :=
      fun inst saw_mod => (ih inst saw_mod).mono (Nat.le_succ _) (Nat.le_succ _)
    rw [automorph_eval_operands, List.length_cons]
    split
    · exact hrest _ _
    split
    · exact hrest _ _
    split
    · rename_i v _
      by_cases hv : 64 < v.toNat
      · rw [if_pos hv]
        -- one warning for this token; the other tokens raise none or stop the line
        have hwarn : (Check.warn line (str "logn out of range, ignored")).Costs 1 0 :=
          Check.costs_warn _
        exact (hwarn.bind fun _ => ih inst saw_mod).mono (by omega) (by omega)
      · rw [if_neg hv]
        exact hrest _ _
    · apply (costs_try_modulus tok inst).bind_free
      exact fun r => hrest _ _

theorem costs_automorph_coeff_operands (is_rot : Bool) (args : List Str) :
    ∀ (inst : Instruction) (saw_index saw_mod : Bool),
      (automorph_coeff_operands line table is_rot args inst saw_index saw_mod).Costs 0 1 := by
  induction args with
  | nil => exact fun inst saw_index saw_mod => Check.costs_pure _
  | cons tok rest ih =>
    intro inst saw_index saw_mod
    rw [automorph_coeff_operands]
    split
    · exact ih _ _ _
    · apply (costs_try_modulus tok inst).bind_free
      exact fun r => ih _ _ _

theorem costs_coeff (inst : Instruction) (args : List Str) (is_rot : Bool) :
    (operands.coeff line table inst args is_rot).Costs 0 1 := by
  apply (costs_need _ _ _).bind_free
  intro _
  apply (costs_dest_src1 _ _).bind_free
  intro inst
  apply (costs_automorph_coeff_operands is_rot _ _ _ _).bind_free
  rintro ⟨inst', saw_index, saw_mod⟩
  cases saw_index with
  | false => exact Check.costs_failWarn _
  | true =>
    cases saw_mod with
    | false => exact Check.costs_failWarn _
    | true => exact Check.costs_pure _

/-- Only `sr_automorph_eval` reports and goes on. -/
theorem costs_operands_of_other {inst : Instruction}
    (hform : fh_operand_form inst.opcode ≠ .AutomorphEval) (args : List Str) :
    (operands F line table inst args).Costs 0 1 := by
  rw [operands]
  cases hcase : fh_operand_form inst.opcode with
  | None => exact Check.costs_pure _
  | PolyPoly =>
    apply (costs_need _ _ _).bind_free
    intro _
    apply (costs_dest_src1 _ _).bind_free
    intro inst
    apply (costs_address _).bind_free
    exact fun src2 => costs_modulus _ _
  | PolyPolyNI =>
    apply (costs_need _ _ _).bind_free
    intro _
    apply (costs_dest_src1 _ _).bind_free
    intro inst
    apply (costs_address _).bind_free
    exact fun src2 => Check.costs_pure _
  | PolyScalar =>
    apply (costs_need _ _ _).bind_free
    intro _
    apply (costs_dest_src1 _ _).bind_free
    intro inst
    rcases to_uint (args.getD 2 []) with - | imm
    · exact Check.costs_failWarn _
    · exact costs_modulus _ _
  | PolyScalarNI =>
    apply (costs_need _ _ _).bind_free
    intro _
    apply (costs_dest_src1 _ _).bind_free
    intro inst
    rcases to_double F (args.getD 2 []) with - | imm
    · exact Check.costs_failWarn _
    · exact Check.costs_pure _
  | UnaryMod =>
    apply (costs_need _ _ _).bind_free
    intro _
    apply (costs_dest_src1 _ _).bind_free
    exact fun inst => costs_modulus _ _
  | UnaryNoMod =>
    apply (costs_need _ _ _).bind_free
    exact fun _ => costs_dest_src1 _ _
  | Ntt =>
    apply (costs_need _ _ _).bind_free
    intro _
    apply (costs_dest_src1 _ _).bind_free
    intro inst
    apply (costs_modulus _ _).bind_free
    intro inst'
    rcases find_omega (args.drop 3) with - | w
    · exact Check.costs_pure _
    · exact Check.costs_pure _
  | AutomorphEval => exact absurd hcase hform
  | AutomorphCoeff => exact costs_coeff _ _ _
  | RotAutomorphCoeff => exact costs_coeff _ _ _

theorem costs_operands (inst : Instruction) (args : List Str) :
    (operands F line table inst args).Costs (args.length - 2) (args.length - 2 + 1) := by
  by_cases hform : fh_operand_form inst.opcode = .AutomorphEval
  · have hlength : (args.drop 2).length = args.length - 2 := List.length_drop
    rw [operands, hform]
    apply (costs_need _ _ _).bind_free
    intro _
    apply (costs_dest_src1 _ _).bind_free
    intro inst
    have hend : ∀ r : Instruction × Bool, Check.Costs (if r.2 then pure r.1 else
        Check.failWarn line (str "sr_automorph_eval without a modulus") : Check Instruction) 0 1 := by
      intro r
      split
      · exact Check.costs_pure _
      · exact Check.costs_failWarn _
    have hloop : (automorph_eval_operands line table (args.drop 2) inst false).Costs _ _ :=
      costs_automorph_eval_operands (args.drop 2) inst false
    exact (hloop.bind hend).mono (by omega) (by omega)
  · exact (costs_operands_of_other hform args).mono (Nat.zero_le _) (Nat.le_add_left _ _)

end Operands

/-! ## What a line leaves behind -/

/-- The number of diagnostics a line can raise: one, and a warning for each operand past
the second. -/
def line_diagnostics (t : Str) : ℕ := (tokens (instruction_body t)).length - 3 + 1

theorem costs_instruction {F : FloatText} {line table : ℕ} (t : Str) :
    (instruction F line table t).Costs ((tokens (instruction_body t)).length - 3)
      (line_diagnostics t) := by
  rw [instruction, line_diagnostics]
  by_cases hbody : (instruction_body t).isEmpty
  · simp only [if_pos hbody]
    exact Check.costs_fail.mono (Nat.le_refl _) (Nat.zero_le _)
  · simp only [if_neg hbody]
    split
    · exact (Check.costs_failWarn _).mono (Nat.le_refl _) (Nat.le_add_left _ _)
    · have hlength := List.length_tail (l := tokens (instruction_body t))
      exact (costs_operands _ _).mono (by omega) (by omega)

/-- A token that declares a `logn` out of range. -/
def bad_logn : Str := str "logn=65"

theorem automorph_eval_operands_bad_logn (line table n : ℕ) (inst : Instruction) :
    ∀ d, ∃ d', automorph_eval_operands line table (List.replicate n bad_logn) inst false d =
      (some (inst, false), d') ∧ d'.count = d.count + n := by
  have hk : to_named bad_logn (str "k=") = none := by decide
  have hmask : to_named bad_logn (str "mask=") = none := by decide
  have hlogn : to_named bad_logn (str "logn=") = some 65 := by decide
  induction n with
  | zero => exact fun d => ⟨d, rfl, rfl⟩
  | succ n ih =>
    intro d
    obtain ⟨d', hrest, hcount⟩ := ih (d.warn line (str "logn out of range, ignored"))
    refine ⟨d', ?_, ?_⟩
    · rw [List.replicate_succ, automorph_eval_operands, hk, hmask, hlogn]
      exact hrest
    · rw [hcount, Diagnostics.count_warn]
      omega

/-- **The bound is met**, at any number of operands: all of them past the second declare
a `logn` out of range, and none is a modulus. -/
theorem line_diagnostics_attained (F : FloatText) (line table n : ℕ) (d : Diagnostics) :
    ∃ d', operands F line table { opcode := .FH_SR_AUTOMORPH_EVAL, line_number := line }
      (str "%1" :: str "%2" :: List.replicate (n + 1) bad_logn) d = (none, d') ∧
        d'.count = d.count + (n + 2) := by
  have hform : fh_operand_form .FH_SR_AUTOMORPH_EVAL = .AutomorphEval := rfl
  have h₁ : address line (str "%1") = pure 1 := address_of_fits (v := 1) (by decide) (by decide)
  have h₂ : address line (str "%2") = pure 2 := address_of_fits (v := 2) (by decide) (by decide)
  obtain ⟨d', hloop, hcount⟩ := automorph_eval_operands_bad_logn line table (n + 1)
    { opcode := .FH_SR_AUTOMORPH_EVAL, dest := 1, src1 := 2, line_number := line } d
  refine ⟨d'.warn line (str "sr_automorph_eval without a modulus"), ?_, ?_⟩
  · simp only [operands, hform, need, dest_src1, List.length_cons, List.length_replicate,
      List.getD_cons_zero, List.getD_cons_succ, h₁, h₂, List.drop_succ_cons, List.drop_zero, Check.pure_bind]
    rw [if_pos (by omega), Check.pure_bind, Check.bind_some hloop]
    rfl
  · rw [Diagnostics.count_warn, hcount]
    omega

/-- All that a read holds: what it read, and what it says about the rest. -/
def ReadResult.size (result : ReadResult) : ℕ :=
  result.program.instructions.length + result.program.modulus_table.length +
    result.program.annotations.length + result.toDiagnostics.count

namespace Reader

variable {F : FloatText} {t : Str} {r r' : Reader}

theorem size_instruction_line (F : FloatText) (r : Reader) (t : Str) :
    (r.instruction_line F t).result_.size ≤ r.result_.size + line_diagnostics t := by
  have hcosts : (Fhetch.instruction F r.line_ r.result_.program.modulus_table.length t).Costs _ _ :=
    costs_instruction t
  rcases h : r.lineInstruction F t with ⟨- | inst, d⟩
  · have hd := hcosts.fails h
    rw [instruction_line_of_none h]
    simp only [ReadResult.size, withDiagnostics]
    omega
  · have hd := hcosts.gives h
    rw [instruction_line_of_some h]
    simp only [ReadResult.size, withDiagnostics, append, List.length_append, List.length_singleton,
      line_diagnostics]
    omega

/-- **A line adds** an element, or the diagnostics it can raise. -/
theorem Reads.size_le (h : Reads F t r r') :
    r'.result_.size ≤ r.result_.size + line_diagnostics t := by
  have hone : 1 ≤ line_diagnostics t := Nat.le_add_left 1 _
  cases h with
  | skip => exact Nat.le_add_right _ _
  | header => exact Nat.le_add_right _ _
  | note =>
    simp only [ReadResult.size, annotate, List.length_append, List.length_singleton]
    omega
  | error message =>
    have hsize : (r.error message).result_.size = r.result_.program.instructions.length +
      r.result_.program.modulus_table.length + r.result_.program.annotations.length +
        (r.result_.toDiagnostics.error r.line_ message).count := rfl
    rw [hsize, Diagnostics.count_error, ReadResult.size]
    omega
  | entry =>
    simp only [ReadResult.size, push, List.length_append, List.length_singleton]
    omega
  | instruction => exact size_instruction_line F r t

end Reader

/-- The most diagnostics a line of a text can raise. -/
def most_diagnostics (lines : List Str) : ℕ :=
  lines.foldr (fun line most => max (line_diagnostics (trim line)) most) 0

/-- **A text adds** no more than all its lines at the most that one of them can raise. -/
theorem size_read_lines {F : FloatText} {lines : List Str} : ∀ {r r' : Reader},
    Reader.read_lines F r lines = some r' →
      r'.result_.size ≤ r.result_.size + lines.length * most_diagnostics lines := by
  induction lines with
  | nil =>
    intro r r' h
    obtain rfl := Option.some.inj h
    exact Nat.le_add_right _ _
  | cons line rest ih =>
    intro r r' h
    rw [Reader.read_lines, List.foldlM_cons] at h
    obtain ⟨mid, hline, hrest⟩ := Option.bind_eq_some_iff.mp h
    -- this line, and the lines behind it at the most that any of all raises
    have hstep : mid.result_.size ≤ r.result_.size + _ := (Reader.reads_of_read_line hline).size_le
    have hrun := ih hrest
    have hmost : most_diagnostics (line :: rest) =
      max (line_diagnostics (trim line)) (most_diagnostics rest) := rfl
    have hle := Nat.mul_le_mul_left rest.length (Nat.le_max_right (line_diagnostics (trim line))
      (most_diagnostics rest))
    rw [List.length_cons, hmost, Nat.succ_mul]
    omega

/-! ## What a line asks of the table -/

namespace Reader

/-- What a line passes to the table's `reserve`. -/
def reserve_request (t : Str) : Option ℕ :=
  if lineKind t = .modulusCount then
    (to_uint (t.drop (str "modulus_count").length)).map UInt64.toNat
  else none

/-- The capacities a read reserves for the table, up to the line that throws. -/
def capacities (F : FloatText) : Reader → List Str → List ℕ
  | _, [] => []
  | r, line :: rest => (reserve_request (trim line)).toList ++
    match read_line F r line with
    | some r' => capacities F r' rest
    | none => []

variable {F : FloatText} {line t : Str} {r r' : Reader} {lines : List Str}

theorem reserve_request_of_count (h : lineKind t = .modulusCount) : reserve_request t =
    (to_uint (t.drop (str "modulus_count").length)).map UInt64.toNat := if_pos h

/-- A request past the largest vector throws. -/
theorem read_line_of_huge {n : ℕ} (h : reserve_request (trim line) = some n) (hn : max_size < n) :
    read_line F r line = none := by
  have hkind : lineKind (trim line) = .modulusCount := by
    by_contra hne
    rw [reserve_request, if_neg hne] at h
    exact absurd h (by simp)
  rw [reserve_request_of_count hkind, Option.map_eq_some_iff] at h
  obtain ⟨v, hv, rfl⟩ := h
  rw [read_line, hkind]
  show modulus_count r.next (trim line) = none
  rw [modulus_count, hv]
  exact if_pos hn

theorem modulus_entry_of_room (h : r.result_.program.modulus_table.length < max_size) :
    ∃ r', r.modulus_entry t = some r' := by
  rw [modulus_entry]
  split
  · exact ⟨_, rfl⟩
  split
  · split
    · exact ⟨_, rfl⟩
    · rw [if_neg (Nat.not_le.mpr h)]
      exact ⟨_, rfl⟩
  · exact ⟨_, rfl⟩

/-- Nothing else throws but an entry past it. -/
theorem read_line_of_room (F : FloatText)
    (hroom : r.result_.program.modulus_table.length < max_size)
    (hline : ∀ n, reserve_request (trim line) = some n → n ≤ max_size) :
    ∃ r', read_line F r line = some r' := by
  rw [read_line]
  cases hkind : lineKind (trim line) with
  | blank => exact ⟨_, rfl⟩
  | comment => exact ⟨_, rfl⟩
  -- the one line that reserves, for as many entries as it says
  | modulusCount =>
    rw [reserve_request_of_count hkind] at hline
    show ∃ r', modulus_count r.next (trim line) = some r'
    rw [modulus_count]
    split
    · exact ⟨_, rfl⟩
    · rename_i n hn
      rw [hn] at hline
      rw [if_neg (Nat.not_lt.mpr (hline _ rfl))]
      exact ⟨_, rfl⟩
  | modulusEntry => exact modulus_entry_of_room hroom
  | instruction => exact ⟨_, rfl⟩

/-- A read that ends has made every request of its text. -/
theorem mem_capacities {n : ℕ} : ∀ {r : Reader}, (∃ r', read_lines F r lines = some r') →
    (n ∈ capacities F r lines ↔ ∃ line ∈ lines, reserve_request (trim line) = some n) := by
  induction lines with
  | nil => exact fun _ => by simp [capacities]
  | cons line rest ih =>
    rintro r ⟨r', h⟩
    rw [read_lines, List.foldlM_cons] at h
    obtain ⟨mid, hline, hrest⟩ := Option.bind_eq_some_iff.mp h
    rw [capacities, hline, List.mem_append, ih ⟨r', hrest⟩]
    simp only [Option.mem_toList, List.mem_cons, exists_eq_or_imp]

/-! ## The table stays short -/

theorem length_strip_comma_le (tok : Str) : (strip_comma tok).length ≤ tok.length := by
  rw [strip_comma]
  refine (length_trim_le _).trans (le_trans ?_ (length_trim_le tok))
  split
  · rw [List.length_dropLast]
    exact Nat.sub_le _ _
  · exact Nat.le_refl _

theorem length_splitSign_le (s : Str) : (splitSign s).2.length ≤ s.length := by
  rcases s with - | ⟨c, cs⟩
  · exact Nat.le_refl _
  · rw [splitSign]
    split
    · exact Nat.le_succ _
    split
    · exact Nat.le_succ _
    · exact Nat.le_refl _

/-- An index this large takes fifteen characters, in any base and behind any sign. -/
theorem length_of_index {tok : Str} {index : UInt64} (h : to_uint tok = some index)
    (hlow : 2 ^ 59 ≤ index.toNat) (hhigh : index.toNat < 2 ^ 60) : 15 ≤ tok.length := by
  obtain ⟨-, -, -, m, hliteral, hm, hindex⟩ := to_uint_eq_some_iff.mp h
  have hlength := (length_splitSign_le ((strip_comma tok).dropWhile isSpace)).trans
    ((List.dropWhile_suffix isSpace).length_le.trans (length_strip_comma_le tok))
  -- a sign makes it larger still
  have hlarge : 2 ^ 59 ≤ m := by
    split at hindex
    · omega
    · omega
  by_contra hshort
  have hpow := hliteral.lt_pow.trans_le
    (Nat.pow_le_pow_right (by decide : 0 < 16) (show _ ≤ 14 by omega))
  omega

/-- A table of more than 2⁵⁹ entries has taken eighteen bytes for each of those. -/
def Paced (r : Reader) (bytes : ℕ) : Prop :=
  18 * (r.result_.program.modulus_table.length - 2 ^ 59) ≤ bytes

theorem paced_succ {bound k length bytes : ℕ} (h : 18 * (k - bound) ≤ bytes)
    (hlong : bound ≤ k → 17 ≤ length) : 18 * (k + 1 - bound) ≤ bytes + (length + 1) := by
  by_cases hk : bound ≤ k
  · have := hlong hk
    omega
  · omega

theorem modulus_entry_index (h : r.modulus_entry t = some r') :
    r'.result_.program.modulus_table = r.result_.program.modulus_table ∨
      ∃ value index, r'.result_.program.modulus_table = r.result_.program.modulus_table ++ [value] ∧
        to_uint ((t.take (t.idxOf 0x5D)).drop 2) = some index ∧
        index.toNat = r.result_.program.modulus_table.length := by
  rw [modulus_entry] at h
  split at h
  · obtain rfl := Option.some.inj h
    exact .inl rfl
  split at h
  · rename_i index value hindex hvalue
    split at h
    · obtain rfl := Option.some.inj h
      exact .inl rfl
    · rename_i heq
      rw [not_not] at heq
      split at h
      · exact absurd h (by simp)
      · obtain rfl := Option.some.inj h
        exact .inr ⟨value, index, rfl, hindex, heq⟩
  · obtain rfl := Option.some.inj h
    exact .inl rfl

theorem table_instruction_line (F : FloatText) (r : Reader) (t : Str) :
    (r.instruction_line F t).result_.program.modulus_table = r.result_.program.modulus_table := by
  rcases h : r.lineInstruction F t with ⟨- | inst, d⟩
  · rw [instruction_line_of_none h]
    rfl
  · rw [instruction_line_of_some h]
    rfl

/-- **A line pays for the entry it appends.** -/
theorem Paced.read_line {bytes : ℕ} (hpaced : r.Paced bytes) (h : read_line F r line = some r') :
    r'.Paced (bytes + (line.length + 1)) := by
  have hsame : r'.result_.program.modulus_table = r.result_.program.modulus_table →
      r'.Paced (bytes + (line.length + 1)) := by
    intro heq
    rw [Paced, heq]
    exact hpaced.trans (Nat.le_add_right _ _)
  cases reads_of_read_line h with
  | skip => exact hsame rfl
  | header => exact hsame rfl
  | note => exact hsame rfl
  | error => exact hsame rfl
  | entry value hkind hroom =>
    rw [Reader.read_line, hkind] at h
    rcases modulus_entry_index h with heq | ⟨-, index, -, hindex, hlength⟩
    · exact hsame heq
    · have htoken : ((trim line).take ((trim line).idxOf 0x5D)).length ≤ line.length :=
        (List.length_take_le' _ _).trans (length_trim_le line)
      -- an index past `2 ^ 59` has fifteen characters at least, behind the two of its bracket
      have hlong : 2 ^ 59 ≤ r.result_.program.modulus_table.length → 17 ≤ line.length := by
        intro hlow
        have hfifteen := length_of_index hindex (hlength ▸ hlow)
          (hlength ▸ hroom.trans (Nat.sub_lt (Nat.two_pow_pos 60) Nat.one_pos))
        rw [List.length_drop] at hfifteen
        omega
      rw [Paced] at hpaced
      show 18 * ((r.result_.program.modulus_table ++ [value]).length - 2 ^ 59) ≤ _
      rw [List.length_append, List.length_singleton]
      exact paced_succ hpaced hlong
  | instruction => exact hsame (table_instruction_line F r.next (trim line))

/-- The bytes of a string do not pay for a table that is full. -/
theorem Paced.room {bytes : ℕ} (h : r.Paced bytes) (hbytes : bytes ≤ 2 ^ 63) :
    r.result_.program.modulus_table.length < max_size := by
  by_contra hfull
  have hentries := Nat.mul_le_mul_left 18 (Nat.sub_le_sub_right (Nat.not_lt.mp hfull) (2 ^ 59))
  exact absurd (hentries.trans (h.trans hbytes)) (by decide)

/-- **A read of so many bytes ends**, if its requests fit. -/
theorem read_lines_of_room (F : FloatText) {lines : List Str} : ∀ {r : Reader} {bytes : ℕ},
    r.Paced bytes → bytes + (lines.map fun line => line.length + 1).sum ≤ 2 ^ 63 →
    (∀ line ∈ lines, ∀ n, reserve_request (trim line) = some n → n ≤ max_size) →
    ∃ r', read_lines F r lines = some r' := by
  induction lines with
  | nil => exact fun _ _ _ => ⟨_, rfl⟩
  | cons line rest ih =>
    intro r bytes hpaced hbytes hrequests
    rw [List.map_cons, List.sum_cons] at hbytes
    obtain ⟨mid, hline⟩ := read_line_of_room F (hpaced.room (by omega))
      (hrequests line List.mem_cons_self)
    obtain ⟨r', hrest⟩ := ih (hpaced.read_line hline) (by omega)
      fun line' hmem => hrequests line' (List.mem_cons_of_mem line hmem)
    refine ⟨r', ?_⟩
    rw [read_lines, List.foldlM_cons, hline]
    exact hrest

end Reader

/-! ## Reads in proportion to their text -/

/-- `std::string::max_size()`: the text is copied into one. -/
def max_string : ℕ := 2 ^ 63 - 1

/-- A text is read, and neither what the read holds nor what it reserves is out of
proportion to the number of lines. -/
structure Proportionate (F : FloatText) (text : Str) : Prop where
  returns : ∃ result, read_fhetch_text F text = some result ∧
    result.size ≤ (getlines text).length * most_diagnostics (getlines text)
  reserves : ∀ n ∈ Reader.capacities F {} (getlines text), n ≤ (getlines text).length

/-- What a read returns is in proportion to its text, whatever the text. -/
theorem size_read_fhetch_text {F : FloatText} {text : Str} {result : ReadResult}
    (h : read_fhetch_text F text = some result) :
    result.size ≤ (getlines text).length * most_diagnostics (getlines text) := by
  obtain ⟨r, hread, rfl⟩ := Option.map_eq_some_iff.mp h
  exact (size_read_lines hread).trans (Nat.le_of_eq (Nat.zero_add _))

/-- **A read is in proportion to its text exactly when each count in it is**: a
`modulus_count` line declares no more entries than the text has lines, nor more than the
largest vector holds. -/
theorem read_proportionate_iff (F : FloatText) {text : Str} (htext : text.length ≤ max_string) :
    Proportionate F text ↔ ∀ line ∈ getlines text, ∀ n,
      Reader.reserve_request (trim line) = some n →
        n ≤ (getlines text).length ∧ n ≤ Reader.max_size := by
  constructor
  · rintro ⟨⟨result, hread, -⟩, hreserves⟩ line hmem n hn
    obtain ⟨r, hlines, -⟩ := Option.map_eq_some_iff.mp hread
    refine ⟨hreserves n ((Reader.mem_capacities ⟨r, hlines⟩).mpr ⟨line, hmem, hn⟩), ?_⟩
    -- the line was read, so its request did not throw
    by_contra hhuge
    obtain ⟨pre, rest, heq⟩ := List.append_of_mem hmem
    rw [heq, Reader.read_lines, List.foldlM_append] at hlines
    obtain ⟨mid, -, hlast⟩ := Option.bind_eq_some_iff.mp hlines
    rw [List.foldlM_cons, Reader.read_line_of_huge hn (Nat.not_le.mp hhuge)] at hlast
    exact absurd hlast (by simp)
  · intro hrequests
    have hbytes : 0 + ((getlines text).map fun line => line.length + 1).sum ≤ 2 ^ 63 := by
      rw [Nat.zero_add]
      exact (sum_getlines_le text).trans (Nat.succ_le_succ htext)
    obtain ⟨r, hlines⟩ := Reader.read_lines_of_room F (r := {}) (Nat.zero_le 0) hbytes
      fun line hmem n hn => (hrequests line hmem n hn).2
    have hread : read_fhetch_text F text = some r.finish := by rw [read_fhetch_text, hlines]; rfl
    refine ⟨⟨r.finish, hread, size_read_fhetch_text hread⟩, fun n hn => ?_⟩
    obtain ⟨line, hmem, hn⟩ := (Reader.mem_capacities ⟨r, hlines⟩).mp hn
    exact (hrequests line hmem n hn).1

theorem read_proportionate_small :
    Proportionate zeroFloatText (str "modulus_count 1\nm[0] 97\nsr_negp %2, %1, m=0\n") := by
  refine (read_proportionate_iff zeroFloatText (by decide)).mpr ?_
  have hlines : getlines (str "modulus_count 1\nm[0] 97\nsr_negp %2, %1, m=0\n") =
    [str "modulus_count 1", str "m[0] 97", str "sr_negp %2, %1, m=0"] := by decide
  rw [hlines]
  decide

/-- One line that declares 2⁶⁴ - 1 entries, and the read throws. -/
theorem read_disproportionate :
    ¬ Proportionate zeroFloatText (str "modulus_count 18446744073709551615") := by
  rintro ⟨⟨result, hread, -⟩, -⟩
  have hnone : read_fhetch_text zeroFloatText (str "modulus_count 18446744073709551615") = none := by
    have hlines : getlines (str "modulus_count 18446744073709551615") =
      [str "modulus_count 18446744073709551615"] := by decide
    have hrequest : Reader.reserve_request (trim (str "modulus_count 18446744073709551615")) =
      some (2 ^ 64 - 1) := by decide
    rw [read_fhetch_text, hlines, Reader.read_lines, List.foldlM_cons,
      Reader.read_line_of_huge hrequest (by decide)]
    rfl
  rw [hnone] at hread
  exact absurd hread (by simp)

end Fhetch
