/-
Two reads side by side.

Two reads that have the same table and the same instructions so far, and that
either both have an error or both have none, take the same from any line. Line
numbers, metadata and notes play no part in that, and neither do the messages: a
check looks at the diagnostics only to see whether there is an error.
-/
import Fhetch.ReaderSpec

set_option autoImplicit false

namespace Fhetch

open Lib

/-! ## Checks -/

namespace Check

variable {α β γ δ : Type} {R : α → β → Prop} {S : γ → δ → Prop} {line line' : ℕ}

/-- Started with or without an error, both of them, two checks give related
values or nothing, and leave an error or none. -/
def Agree (R : α → β → Prop) (x : Check α) (y : Check β) : Prop :=
  ∀ d d' : Diagnostics, d.errors.isEmpty = d'.errors.isEmpty →
    Option.Rel R (x d).1 (y d').1 ∧ (x d).2.errors.isEmpty = (y d').2.errors.isEmpty

/-- Giving related values agrees. -/
theorem agree_pure {a : α} {b : β} (h : R a b) : Agree R (pure a) (pure b) :=
  fun _ _ hd => ⟨.some h, hd⟩

/-- Giving nothing agrees. -/
theorem agree_fail : Agree R (fail : Check α) (fail : Check β) := fun _ _ hd => ⟨.none, hd⟩

/-- A reported error is there. -/
theorem errors_error (d : Diagnostics) (message : Str) :
    (d.error line message).errors.isEmpty = false := by
  rw [Diagnostics.error, List.isEmpty_eq_false_iff]
  exact List.append_ne_nil_of_right_ne_nil _ (List.cons_ne_nil _ _)

/-- Failing with an error agrees, whatever the two messages say. -/
theorem agree_failError (message message' : Str) :
    Agree R (failError line message : Check α) (failError line' message' : Check β) := by
  intro d d' _
  refine ⟨.none, ?_⟩
  rw [failError, failError]
  exact (errors_error d message).trans (errors_error d' message').symm

/-- So does failing with a warning, which is no error. -/
theorem agree_failWarn (message message' : Str) :
    Agree R (failWarn line message : Check α) (failWarn line' message' : Check β) :=
  fun _ _ hd => ⟨.none, hd⟩

/-- And a warning that goes on. -/
theorem agree_warn (message message' : Str) :
    Agree (fun _ _ => True) (warn line message) (warn line' message') :=
  fun _ _ hd => ⟨.some trivial, hd⟩

/-- Checks in sequence agree where the first two do, and what follows does on related
values. -/
theorem agree_bind {x : Check α} {y : Check β} {f : α → Check γ} {g : β → Check δ}
    (hx : Agree R x y) (hf : ∀ a b, R a b → Agree S (f a) (g b)) : Agree S (x >>= f) (y >>= g) := by
  intro d d' hd
  obtain ⟨hrel, herrors⟩ := hx d d' hd
  rcases hxd : x d with ⟨- | a, d₁⟩ <;> rcases hyd : y d' with ⟨- | b, d₂⟩ <;>
    rw [hxd, hyd] at hrel herrors
  · rw [bind_none hxd, bind_none hyd]
    exact ⟨.none, herrors⟩
  · cases hrel
  · cases hrel
  · cases hrel with
    | some hab =>
      rw [bind_some hxd, bind_some hyd]
      exact hf a b hab d₁ d₂ herrors

end Check

open Check

/-! ## Operands -/

section Operands

variable {F : FloatText} {line line' table : ℕ}

/-- The same instruction, from another line. -/
def Renumbered (inst inst' : Instruction) : Prop := ∃ n, inst' = { inst with line_number := n }

/-- The number is no part of the content. -/
theorem Renumbered.content {inst inst' : Instruction} (h : Renumbered inst inst') :
    inst.content = inst'.content := by
  obtain ⟨n, rfl⟩ := h
  rfl

/-- An address is read from its token alone. -/
theorem address_agree (tok : Str) : Agree (· = ·) (address line tok) (address line' tok) := by
  unfold address
  split
  · exact agree_fail
  · split
    · exact agree_failError _ _
    · exact agree_pure rfl

/-- So is a modulus, at one size of the table. -/
theorem modulus_agree (tok : Str) {inst inst' : Instruction} (h : Renumbered inst inst') :
    Agree Renumbered (modulus line table tok inst) (modulus line' table tok inst') := by
  obtain ⟨n, rfl⟩ := h
  unfold modulus
  split
  · exact agree_fail
  · split
    · split
      · exact agree_failError _ _
      · exact agree_pure ⟨n, rfl⟩
    · exact agree_pure ⟨n, rfl⟩

/-- The number of operands does not depend on the line. -/
theorem need_agree (opcode : FhOpcode) (args : List Str) (n : ℕ) :
    Agree (fun _ _ => True) (need line opcode args n) (need line' opcode args n) := by
  unfold need
  split
  · exact agree_pure trivial
  · exact agree_failWarn _ _

/-- The first two operands set the same registers. -/
theorem dest_src1_agree (args : List Str) {inst inst' : Instruction} (h : Renumbered inst inst') :
    Agree Renumbered (dest_src1 line args inst) (dest_src1 line' args inst') := by
  obtain ⟨n, rfl⟩ := h
  apply agree_bind (address_agree _)
  rintro dest _ rfl
  apply agree_bind (address_agree _)
  rintro src1 _ rfl
  exact agree_pure ⟨n, rfl⟩

/-- The one place where an earlier error makes a difference. -/
theorem try_modulus_agree (tok : Str) {inst inst' : Instruction} (h : Renumbered inst inst') :
    Agree (fun a b => Renumbered a.1 b.1 ∧ a.2 = b.2) (try_modulus line table tok inst)
      (try_modulus line' table tok inst') := by
  intro d d' hd
  have hagree : Agree Renumbered (modulus line table tok inst) (modulus line' table tok inst') :=
    modulus_agree tok h
  obtain ⟨hrel, herrors⟩ := hagree d d' hd
  rw [try_modulus, try_modulus]
  -- the two attempts fail together or give renumbered instructions
  rcases hx : modulus line table tok inst d with ⟨- | a, d₁⟩ <;>
    rcases hy : modulus line' table tok inst' d' with ⟨- | b, d₂⟩ <;>
    rw [hx, hy] at hrel herrors
  · dsimp only at herrors ⊢
    rw [herrors]
    split
    · exact ⟨.some ⟨h, rfl⟩, herrors⟩
    · exact ⟨.none, herrors⟩
  · cases hrel
  · cases hrel
  · cases hrel with
    | some hab => exact ⟨.some ⟨hab, rfl⟩, herrors⟩

/-- The loop over the operands of an evaluation automorphism: the induction is on the
tokens left. -/
theorem automorph_eval_operands_agree (args : List Str) (saw_mod : Bool) {inst inst' : Instruction}
    (h : Renumbered inst inst') :
    Agree (fun a b => Renumbered a.1 b.1 ∧ a.2 = b.2)
      (automorph_eval_operands line table args inst saw_mod)
      (automorph_eval_operands line' table args inst' saw_mod) := by
  induction args generalizing inst inst' saw_mod with
  | nil => exact agree_pure ⟨h, rfl⟩
  | cons tok args ih =>
    obtain ⟨n, rfl⟩ := h
    unfold automorph_eval_operands
    split
    · exact ih saw_mod ⟨n, rfl⟩
    · split
      · exact ih saw_mod ⟨n, rfl⟩
      · split
        · split
          · apply agree_bind (agree_warn _ _)
            intro _ _ _
            exact ih saw_mod ⟨n, rfl⟩
          · exact ih saw_mod ⟨n, rfl⟩
        · apply agree_bind (try_modulus_agree tok ⟨n, rfl⟩)
          rintro ⟨a, found⟩ ⟨b, _⟩ ⟨hab, rfl⟩
          exact ih _ hab

/-- The loop over those of a coefficient automorphism, in the same way. -/
theorem automorph_coeff_operands_agree (is_rot : Bool) (args : List Str) (saw_index saw_mod : Bool)
    {inst inst' : Instruction} (h : Renumbered inst inst') :
    Agree (fun a b => Renumbered a.1 b.1 ∧ a.2 = b.2)
      (automorph_coeff_operands line table is_rot args inst saw_index saw_mod)
      (automorph_coeff_operands line' table is_rot args inst' saw_index saw_mod) := by
  induction args generalizing inst inst' saw_index saw_mod with
  | nil => exact agree_pure ⟨h, rfl⟩
  | cons tok args ih =>
    unfold automorph_coeff_operands
    split
    · apply ih
      obtain ⟨n, rfl⟩ := h
      refine ⟨n, ?_⟩
      unfold Instruction.setIndex
      split <;> rfl
    · apply agree_bind (try_modulus_agree tok h)
      rintro ⟨a, found⟩ ⟨b, _⟩ ⟨hab, rfl⟩
      exact ih _ _ hab

/-- Both forms of the coefficient automorphism. -/
theorem coeff_agree (args : List Str) (is_rot : Bool) {inst inst' : Instruction}
    (h : Renumbered inst inst') :
    Agree Renumbered (operands.coeff line table inst args is_rot)
      (operands.coeff line' table inst' args is_rot) := by
  have hop : inst'.opcode = inst.opcode := by
    obtain ⟨n, rfl⟩ := h
    rfl
  unfold operands.coeff
  rw [hop]
  apply agree_bind (need_agree _ _ _)
  intro _ _ _
  apply agree_bind (dest_src1_agree args h)
  intro a b hab
  apply agree_bind (automorph_coeff_operands_agree is_rot _ _ _ hab)
  rintro ⟨a, saw_index, saw_mod⟩ ⟨b, _, _⟩ ⟨hab, heq⟩
  obtain ⟨rfl, rfl⟩ := Prod.mk.inj heq
  dsimp only
  split
  · exact agree_failWarn _ _
  · split
    · exact agree_failWarn _ _
    · exact agree_pure hab

/-- **Every form** reads the same operands, from whatever line. -/
theorem operands_agree (args : List Str) {inst inst' : Instruction} (h : Renumbered inst inst') :
    Agree Renumbered (operands F line table inst args) (operands F line' table inst' args) := by
  have hop : inst'.opcode = inst.opcode := by
    obtain ⟨n, rfl⟩ := h
    rfl
  unfold operands
  rw [hop]
  -- every form reads its operands through helpers that ask for the line in messages only
  split
  · exact agree_pure h
  · apply agree_bind (need_agree _ _ _)
    intro _ _ _
    apply agree_bind (dest_src1_agree args h)
    rintro a _ ⟨n, rfl⟩
    apply agree_bind (address_agree _)
    rintro src2 _ rfl
    exact modulus_agree _ ⟨n, rfl⟩
  · apply agree_bind (need_agree _ _ _)
    intro _ _ _
    apply agree_bind (dest_src1_agree args h)
    rintro a _ ⟨n, rfl⟩
    apply agree_bind (address_agree _)
    rintro src2 _ rfl
    exact agree_pure ⟨n, rfl⟩
  · apply agree_bind (need_agree _ _ _)
    intro _ _ _
    apply agree_bind (dest_src1_agree args h)
    rintro a _ ⟨n, rfl⟩
    split
    · exact agree_failWarn _ _
    · exact modulus_agree _ ⟨n, rfl⟩
  · apply agree_bind (need_agree _ _ _)
    intro _ _ _
    apply agree_bind (dest_src1_agree args h)
    rintro a _ ⟨n, rfl⟩
    split
    · exact agree_failWarn _ _
    · exact agree_pure ⟨n, rfl⟩
  · apply agree_bind (need_agree _ _ _)
    intro _ _ _
    apply agree_bind (dest_src1_agree args h)
    intro a b hab
    exact modulus_agree _ hab
  · apply agree_bind (need_agree _ _ _)
    intro _ _ _
    exact dest_src1_agree args h
  · apply agree_bind (need_agree _ _ _)
    intro _ _ _
    apply agree_bind (dest_src1_agree args h)
    intro a b hab
    apply agree_bind (modulus_agree _ hab)
    rintro a _ ⟨n, rfl⟩
    split
    · exact agree_pure ⟨n, rfl⟩
    · exact agree_pure ⟨n, rfl⟩
  · apply agree_bind (need_agree _ _ _)
    intro _ _ _
    apply agree_bind (dest_src1_agree args h)
    intro a b hab
    apply agree_bind (automorph_eval_operands_agree _ _ hab)
    rintro ⟨a, saw_mod⟩ ⟨b, _⟩ ⟨hab, rfl⟩
    dsimp only
    split
    · exact agree_pure hab
    · exact agree_failWarn _ _
  · exact coeff_agree args false h
  · exact coeff_agree args true h

/-- A line gives the same instruction, but for its number, or none in both reads. -/
theorem instruction_agree (t : Str) :
    Agree Renumbered (instruction F line table t) (instruction F line' table t) := by
  unfold instruction
  dsimp only
  split
  · exact agree_fail
  · split
    · exact agree_failWarn _ _
    · exact operands_agree _ ⟨line', rfl⟩

end Operands

/-! ## Lines -/

namespace Reader

variable {F : FloatText} {r r' : Reader}

/-- What a later line can tell of a read, but for its number. -/
structure Alike (r r' : Reader) : Prop where
  table : r.result_.program.modulus_table = r'.result_.program.modulus_table
  instructions : r.result_.program.instructions.map Instruction.content =
    r'.result_.program.instructions.map Instruction.content
  errors : r.result_.errors.isEmpty = r'.result_.errors.isEmpty

theorem Alike.refl (r : Reader) : r.Alike r := ⟨rfl, rfl, rfl⟩

theorem Alike.symm (h : r.Alike r') : r'.Alike r :=
  ⟨h.table.symm, h.instructions.symm, h.errors.symm⟩

theorem Alike.trans {r'' : Reader} (h : r.Alike r') (h' : r'.Alike r'') : r.Alike r'' :=
  ⟨h.table.trans h'.table, h.instructions.trans h'.instructions, h.errors.trans h'.errors⟩

/-- The number of the line does not count. -/
theorem alike_next (r : Reader) : r.Alike r.next := ⟨rfl, rfl, rfl⟩

/-- A comment changes nothing that counts. -/
theorem alike_comment (r : Reader) (t : Str) : r.Alike (r.comment t) := by
  unfold comment
  dsimp only
  split
  · exact Alike.refl r
  · split
    · exact ⟨rfl, rfl, rfl⟩
    · exact ⟨rfl, rfl, rfl⟩

/-- Two reads that report something are alike again. -/
theorem Alike.error (h : r.Alike r') (message message' : Str) :
    (r.error message).Alike (r'.error message') :=
  ⟨h.table, h.instructions, (errors_error _ message).trans (errors_error _ message').symm⟩

/-- A count of the moduli is checked and changes nothing. -/
theorem Alike.modulus_count (h : r.Alike r') (t : Str) :
    Option.Rel Alike (r.modulus_count t) (r'.modulus_count t) := by
  unfold Reader.modulus_count
  split
  · exact .some (h.error _ _)
  · split
    · exact .none
    · exact .some h

/-- An entry of the table goes into both tables, or is an error in both reads. -/
theorem Alike.modulus_entry (h : r.Alike r') (t : Str) :
    Option.Rel Alike (r.modulus_entry t) (r'.modulus_entry t) := by
  unfold Reader.modulus_entry
  dsimp only
  rw [h.table]
  split
  · exact .some (h.error _ _)
  · split
    · split
      · exact .some (h.error _ _)
      · split
        · exact .none
        · exact .some ⟨rfl, h.instructions, h.errors⟩
    · exact .some (h.error _ _)

/-- An instruction goes into both programs, or into none. -/
theorem Alike.instruction_line (h : r.Alike r') (t : Str) :
    (r.instruction_line F t).Alike (r'.instruction_line F t) := by
  have hagree : Agree Renumbered (instruction F r.line_ r.result_.program.modulus_table.length t)
      (instruction F r'.line_ r.result_.program.modulus_table.length t) := instruction_agree t
  obtain ⟨hrel, herrors⟩ := hagree r.result_.toDiagnostics r'.result_.toDiagnostics h.errors
  rw [h.table] at hrel herrors
  have htable := h.table
  unfold Reader.instruction_line
  dsimp only
  rw [h.table]
  -- both readers get an instruction, or neither does
  rcases hx : instruction F r.line_ r'.result_.program.modulus_table.length t
    r.result_.toDiagnostics with ⟨- | a, d₁⟩ <;>
  rcases hy : instruction F r'.line_ r'.result_.program.modulus_table.length t
    r'.result_.toDiagnostics with ⟨- | b, d₂⟩ <;>
  rw [hx, hy] at hrel herrors
  · exact ⟨htable, h.instructions, herrors⟩
  · cases hrel
  · cases hrel
  · cases hrel with
    | some hab =>
      refine ⟨rfl, ?_, herrors⟩
      dsimp only
      rw [List.map_append, List.map_append, h.instructions, List.map_singleton,
        List.map_singleton, hab.content]

/-- **One line.** -/
theorem Alike.read_line (h : r.Alike r') (l : Str) :
    Option.Rel Alike (read_line F r l) (read_line F r' l) := by
  have hnext : r.next.Alike r'.next := ((alike_next r).symm.trans h).trans (alike_next r')
  unfold Reader.read_line
  dsimp only
  split
  · exact .some hnext
  · exact .some (((alike_comment _ _).symm.trans hnext).trans (alike_comment _ _))
  · exact hnext.modulus_count _
  · exact hnext.modulus_entry _
  · exact .some (hnext.instruction_line _)

/-- **All of them.** -/
theorem Alike.read_lines (h : r.Alike r') (ls : List Str) :
    Option.Rel Alike (read_lines F r ls) (read_lines F r' ls) := by
  induction ls generalizing r r' with
  | nil => exact .some h
  | cons l ls ih =>
    have hline := h.read_line (F := F) l
    rw [Reader.read_lines, Reader.read_lines, List.foldlM_cons, List.foldlM_cons]
    rcases hx : Reader.read_line F r l with - | a <;> rcases hy : Reader.read_line F r' l with - | b <;>
      rw [hx, hy] at hline
    · exact .none
    · cases hline
    · cases hline
    · cases hline with
      | some hab => exact ih hab

end Reader

end Fhetch
