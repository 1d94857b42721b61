/-
What the reader's checks guarantee, whatever the line.

A `Check` is reasoned about through `Check.Gives`: it only adds diagnostics, all
of its own line, and what it gives satisfies a postcondition. The rules follow
the monad, so that the eleven operand forms are eleven chains of them, and the
two facts the later files need come out at once: a line's instruction is
`Readable`, and a line's diagnostics carry its number.

`Readable` is what the text form can say: the fields of the opcode's shape, each
present where the shape requires it, and a modulus whose reading as index or
literal is the one its magnitude dictates.
-/
import Fhetch.Reader

set_option autoImplicit false

namespace Fhetch

open Lib

/-! ## Diagnostics only grow -/

/-- Diagnostics with some of one line added. -/
structure Diagnostics.Grows (line : ℕ) (d d' : Diagnostics) : Prop where
  errors : ∃ es, d'.errors = d.errors ++ es ∧ ∀ e ∈ es, e.line_number = line
  warnings : ∃ ws, d'.warnings = d.warnings ++ ws ∧ ∀ w ∈ ws, w.line_number = line

/-- Nothing was added. -/
theorem Diagnostics.Grows.refl (line : ℕ) (d : Diagnostics) : d.Grows line d :=
  ⟨⟨[], (List.append_nil _).symm, fun _ h => absurd h List.not_mem_nil⟩,
    ⟨[], (List.append_nil _).symm, fun _ h => absurd h List.not_mem_nil⟩⟩

/-- What two steps add on one line is of that line. -/
theorem Diagnostics.Grows.trans {line : ℕ} {d d' d'' : Diagnostics} (h : d.Grows line d')
    (h' : d'.Grows line d'') : d.Grows line d'' := by
  obtain ⟨⟨es, hes, hes'⟩, ⟨ws, hws, hws'⟩⟩ := h
  obtain ⟨⟨fs, hfs, hfs'⟩, ⟨vs, hvs, hvs'⟩⟩ := h'
  refine ⟨⟨es ++ fs, ?_, ?_⟩, ⟨ws ++ vs, ?_, ?_⟩⟩
  · rw [hfs, hes, List.append_assoc]
  · exact fun e he => (List.mem_append.mp he).elim (hes' e) (hfs' e)
  · rw [hvs, hws, List.append_assoc]
  · exact fun w hw => (List.mem_append.mp hw).elim (hws' w) (hvs' w)

/-- An error is added with its line. -/
theorem Diagnostics.grows_error (d : Diagnostics) (line : ℕ) (message : Str) :
    d.Grows line (d.error line message) :=
  ⟨⟨[_], rfl, fun e he => by rw [List.mem_singleton.mp he]⟩, (Diagnostics.Grows.refl line d).warnings⟩

/-- So is a warning. -/
theorem Diagnostics.grows_warn (d : Diagnostics) (line : ℕ) (message : Str) :
    d.Grows line (d.warn line message) :=
  ⟨(Diagnostics.Grows.refl line d).errors, ⟨[_], rfl, fun e he => by rw [List.mem_singleton.mp he]⟩⟩

/-! ## Rules for checks -/

namespace Check

variable {α β : Type} {line : ℕ}

/-- Checks in sequence can be grouped in any way. -/
theorem bind_assoc {γ : Type} (x : Check α) (f : α → Check β) (g : β → Check γ) :
    (x >>= f) >>= g = x >>= fun a => f a >>= g := by
  funext d
  rcases h : x d with ⟨- | a, d'⟩
  · rw [bind_none h, bind_none (bind_none h)]
  · rw [bind_some h]
    rcases hf : f a d' with ⟨- | b, d''⟩
    · rw [bind_none hf, bind_none ((bind_some h).trans hf)]
    · rw [bind_some hf, bind_some ((bind_some h).trans hf)]

/-- Giving what was given changes nothing. -/
theorem bind_pure (x : Check α) : x >>= pure = x := by
  funext d
  rcases h : x d with ⟨- | a, d'⟩
  · rw [bind_none h]
  · rw [bind_some h]
    rfl

/-- A value that is given goes to what follows. -/
theorem pure_bind (a : α) (f : α → Check β) : (pure a >>= f) = f a := rfl

/-- A check adds diagnostics of one line only, and what it gives satisfies
`post`. -/
def Gives (line : ℕ) (x : Check α) (post : α → Prop) : Prop :=
  ∀ d, d.Grows line (x d).2 ∧ ∀ a, (x d).1 = some a → post a

/-- What a check gives satisfies whatever follows from its postcondition. -/
theorem Gives.mono {x : Check α} {post post' : α → Prop} (h : Gives line x post)
    (himp : ∀ a, post a → post' a) : Gives line x post' :=
  fun d => ⟨(h d).1, fun a ha => himp a ((h d).2 a ha)⟩

/-- A value that is given satisfies what holds of it. -/
theorem gives_pure {a : α} {post : α → Prop} (h : post a) : Gives line (pure a) post := by
  intro d
  refine ⟨Diagnostics.Grows.refl line d, ?_⟩
  rintro _ ⟨rfl⟩
  exact h

/-- A warning is of its line. -/
theorem gives_warn (message : Str) : Gives line (warn line message) fun _ => True :=
  fun d => ⟨d.grows_warn line message, fun _ _ => trivial⟩

/-- Nothing is given. -/
theorem gives_fail {post : α → Prop} : Gives line (fail : Check α) post := by
  intro d
  refine ⟨Diagnostics.Grows.refl line d, ?_⟩
  rintro _ ⟨⟩

/-- Nothing is given, and one error of the line. -/
theorem gives_failError {post : α → Prop} (message : Str) :
    Gives line (failError line message : Check α) post := by
  intro d
  refine ⟨d.grows_error line message, ?_⟩
  rintro _ ⟨⟩

/-- Nothing is given, and one warning of the line. -/
theorem gives_failWarn {post : α → Prop} (message : Str) :
    Gives line (failWarn line message : Check α) post := by
  intro d
  refine ⟨d.grows_warn line message, ?_⟩
  rintro _ ⟨⟩

/-- Checks in sequence, through what the first one gives. -/
theorem gives_bind {x : Check α} {f : α → Check β} {mid : α → Prop} {post : β → Prop}
    (hx : Gives line x mid) (hf : ∀ a, mid a → Gives line (f a) post) :
    Gives line (x >>= f) post := by
  intro d
  obtain ⟨hgrows, hmid⟩ := hx d
  rcases h : x d with ⟨- | a, d'⟩
  · rw [bind_none h]
    rw [h] at hgrows
    exact ⟨hgrows, by rintro _ ⟨⟩⟩
  · rw [bind_some h]
    rw [h] at hgrows hmid
    obtain ⟨hgrows', hpost⟩ := hf a (hmid a rfl) d'
    exact ⟨hgrows.trans hgrows', hpost⟩

end Check

/-! ## What a text can say -/

/-- Whether a shape has a modulus. -/
def OperandForm.hasModulus : OperandForm → Bool
  | .PolyPoly | .PolyScalar | .UnaryMod | .Ntt | .AutomorphEval | .AutomorphCoeff
  | .RotAutomorphCoeff => true
  | .None | .PolyPolyNI | .PolyScalarNI | .UnaryNoMod => false

/-- Only the fields of the opcode's shape are set. -/
structure Instruction.Shaped (inst : Instruction) : Prop where
  operands : fh_operand_form inst.opcode = .None → inst.dest = 0 ∧ inst.src1 = 0
  src2 : fh_operand_form inst.opcode ≠ .PolyPoly → fh_operand_form inst.opcode ≠ .PolyPolyNI →
    inst.src2 = 0
  immediate : fh_operand_form inst.opcode ≠ .PolyScalar → inst.immediate = none
  fp_immediate : fh_operand_form inst.opcode ≠ .PolyScalarNI → inst.fp_immediate = none
  modulus : (fh_operand_form inst.opcode).hasModulus = false →
    inst.modulus = none ∧ inst.modulus_is_literal = false
  omega : fh_operand_form inst.opcode ≠ .Ntt → inst.omega = none
  mask : fh_operand_form inst.opcode ≠ .AutomorphEval → inst.mask = none
  logn : fh_operand_form inst.opcode ≠ .AutomorphEval → inst.logn = none
  k : fh_operand_form inst.opcode ≠ .AutomorphEval →
    fh_operand_form inst.opcode ≠ .AutomorphCoeff → inst.k = none
  offset : fh_operand_form inst.opcode ≠ .RotAutomorphCoeff → inst.offset = none

/-- A modulus, taken for an index exactly when it is below the table's size, and
then one the ISA can encode. -/
structure ModulusRead (table : ℕ) (modulus : Option UInt64) (is_literal : Bool) : Prop where
  present : modulus.isSome
  literal : ∀ m, modulus = some m → is_literal = decide (table ≤ m.toNat)
  encodable : ∀ m, modulus = some m → m.toNat < table → m.toNat ≤ kMaxModulusIndex

/-- An instruction the text form can say, at a modulus table of some size. -/
structure Readable (table : ℕ) (inst : Instruction) : Prop where
  row : (fh_opcode_info inst.opcode).isSome
  shaped : inst.Shaped
  modulus : (fh_operand_form inst.opcode).hasModulus →
    ModulusRead table inst.modulus inst.modulus_is_literal
  immediate : fh_operand_form inst.opcode = .PolyScalar → inst.immediate.isSome
  fp_immediate : fh_operand_form inst.opcode = .PolyScalarNI → inst.fp_immediate.isSome
  k : fh_operand_form inst.opcode = .AutomorphCoeff → inst.k.isSome
  offset : fh_operand_form inst.opcode = .RotAutomorphCoeff → inst.offset.isSome
  logn : ∀ l, inst.logn = some l → l.toNat ≤ 64

/-! ## The operand helpers -/

section Operands

variable {F : FloatText} {line table : ℕ}

/-- A token that is no address. -/
theorem address_of_malformed {tok : Str} (h : to_addr_token tok = none) :
    address line tok = Check.fail := by
  rw [address, h]

/-- An address that no register field holds. -/
theorem address_of_wide (line : ℕ) {tok : Str} {v : UInt64} (h : to_addr_token tok = some v)
    (hv : kMaxAddress < v.toNat) : ∃ message, address line tok = Check.failError line message := by
  rw [address, h]
  exact ⟨_, if_pos hv⟩

/-- Any other address is taken as it is. -/
theorem address_of_fits {tok : Str} {v : UInt64} (h : to_addr_token tok = some v)
    (hv : v.toNat ≤ kMaxAddress) : address line tok = pure v.toUInt32 := by
  rw [address, h]
  exact if_neg (Nat.not_lt.mpr hv)

/-- A token that is no modulus. -/
theorem modulus_of_malformed {tok : Str} (inst : Instruction)
    (h : to_named tok (str "m=") = none) : modulus line table tok inst = Check.fail := by
  rw [modulus, h]

/-- An index that the table has and the ISA cannot encode. -/
theorem modulus_of_unencodable (line : ℕ) {tok : Str} {v : UInt64} (inst : Instruction)
    (h : to_named tok (str "m=") = some v) (hlt : v.toNat < table)
    (hmax : kMaxModulusIndex < v.toNat) :
    ∃ message, modulus line table tok inst = Check.failError line message := by
  rw [modulus, h]
  exact ⟨_, (if_pos hlt).trans (if_pos hmax)⟩

/-- Any other value is taken, as an index below the table's size and as a literal from
there on. -/
theorem modulus_of_read {tok : Str} {v : UInt64} (inst : Instruction)
    (h : to_named tok (str "m=") = some v) (hread : v.toNat < table → v.toNat ≤ kMaxModulusIndex) :
    modulus line table tok inst =
      pure { inst with modulus := some v, modulus_is_literal := decide (table ≤ v.toNat) } := by
  rw [modulus, h]
  by_cases hlt : v.toNat < table
  · rw [decide_eq_false (Nat.not_le.mpr hlt)]
    exact (if_pos hlt).trans (if_neg (Nat.not_lt.mpr (hread hlt)))
  · rw [decide_eq_true (Nat.not_lt.mp hlt)]
    exact if_neg hlt

/-- Reading an address adds diagnostics of its line only. -/
theorem address_gives (tok : Str) : (address line tok).Gives line fun _ => True := by
  rcases h : to_addr_token tok with - | v
  · rw [address_of_malformed h]
    exact Check.gives_fail
  · by_cases hv : kMaxAddress < v.toNat
    · obtain ⟨message, heq⟩ := address_of_wide line h hv
      rw [heq]
      exact Check.gives_failError message
    · rw [address_of_fits h (Nat.not_lt.mp hv)]
      exact Check.gives_pure trivial

/-- So does counting the operands. -/
theorem need_gives (opcode : FhOpcode) (args : List Str) (n : ℕ) :
    (need line opcode args n).Gives line fun _ => True := by
  rw [need]
  split
  · exact Check.gives_pure trivial
  · exact Check.gives_failWarn _

/-- The first two operands set the two registers and nothing else. -/
theorem dest_src1_gives (args : List Str) (inst : Instruction) :
    (dest_src1 line args inst).Gives line
      fun inst' => ∃ dest src1, inst' = { inst with dest := dest, src1 := src1 } := by
  apply Check.gives_bind (address_gives _)
  intro dest _
  apply Check.gives_bind (address_gives _)
  intro src1 _
  exact Check.gives_pure ⟨dest, src1, rfl⟩

/-- What a modulus operand makes of an instruction. -/
def SetsModulus (table : ℕ) (inst inst' : Instruction) : Prop :=
  ∃ m literal, inst' = { inst with modulus := some m, modulus_is_literal := literal } ∧
    literal = decide (table ≤ m.toNat) ∧ (m.toNat < table → m.toNat ≤ kMaxModulusIndex)

/-- A modulus that was set is one that the reader takes. -/
theorem SetsModulus.read {inst inst' : Instruction} (h : SetsModulus table inst inst') :
    ModulusRead table inst'.modulus inst'.modulus_is_literal := by
  obtain ⟨m, literal, rfl, hliteral, hencodable⟩ := h
  refine ⟨rfl, ?_, ?_⟩
  · rintro _ ⟨rfl⟩
    exact hliteral
  · rintro _ ⟨rfl⟩
    exact hencodable

/-- Reading a modulus sets it. -/
theorem modulus_gives (tok : Str) (inst : Instruction) :
    (modulus line table tok inst).Gives line (SetsModulus table inst) := by
  rcases h : to_named tok (str "m=") with - | v
  · rw [modulus_of_malformed inst h]
    exact Check.gives_fail
  · by_cases hread : v.toNat < table → v.toNat ≤ kMaxModulusIndex
    · rw [modulus_of_read inst h hread]
      exact Check.gives_pure ⟨v, _, rfl, rfl, hread⟩
    · obtain ⟨hlt, hmax⟩ := Classical.not_imp.mp hread
      obtain ⟨message, heq⟩ :=
        modulus_of_unencodable line inst h hlt (Nat.not_le.mp hmax)
      rw [heq]
      exact Check.gives_failError message

/-- Trying to sets it, or leaves the instruction alone. -/
theorem try_modulus_gives (tok : Str) (inst : Instruction) :
    (try_modulus line table tok inst).Gives line
      fun r => if r.2 then SetsModulus table inst r.1 else r.1 = inst := by
  intro d
  have hmodulus : (modulus line table tok inst).Gives line _ := modulus_gives tok inst
  obtain ⟨hgrows, hpost⟩ := hmodulus d
  rw [try_modulus]
  rcases h : modulus line table tok inst d with ⟨- | inst', d'⟩
  · rw [h] at hgrows
    -- a token that is no modulus is skipped, unless there has been an error
    by_cases hempty : d'.errors.isEmpty
    · simp only [if_pos hempty]
      refine ⟨hgrows, ?_⟩
      rintro _ ⟨rfl⟩
      rfl
    · simp only [if_neg hempty]
      exact ⟨hgrows, by rintro _ ⟨⟩⟩
  · rw [h] at hgrows hpost
    refine ⟨hgrows, ?_⟩
    rintro _ ⟨rfl⟩
    exact hpost inst' rfl

/-- What the loop over named operands keeps: the shape, the bound on `logn`, and
a good modulus once one was seen. -/
structure NamedOk (table line : ℕ) (opcode : FhOpcode) (inst : Instruction) (saw_mod : Bool) :
    Prop where
  opcode : inst.opcode = opcode
  line_number : inst.line_number = line
  shaped : inst.Shaped
  logn : ∀ l, inst.logn = some l → l.toNat ≤ 64
  modulus : saw_mod → ModulusRead table inst.modulus inst.modulus_is_literal

variable {opcode : FhOpcode} {inst : Instruction}

/-- A modulus that is set has been seen. -/
theorem NamedOk.sets (hmod : (fh_operand_form opcode).hasModulus) {inst' : Instruction}
    {saw_mod : Bool} (h : NamedOk table line opcode inst saw_mod)
    (hset : SetsModulus table inst inst') : NamedOk table line opcode inst' true := by
  have hread := hset.read
  obtain ⟨m, literal, rfl, -, -⟩ := hset
  obtain rfl := h.opcode
  refine ⟨rfl, h.line_number, { h.shaped with modulus := fun hno => ?_ }, h.logn, fun _ => hread⟩
  exact absurd (hmod.symm.trans hno) Bool.true_eq_false.mp

/-- It has been seen exactly when the attempt found it. -/
theorem NamedOk.try_modulus (hmod : (fh_operand_form opcode).hasModulus) {saw_mod : Bool}
    (h : NamedOk table line opcode inst saw_mod) {r : Instruction × Bool}
    (hr : if r.2 then SetsModulus table inst r.1 else r.1 = inst) :
    NamedOk table line opcode r.1 (saw_mod || r.2) := by
  obtain ⟨inst', found⟩ := r
  cases found with
  | true =>
    rw [Bool.or_true]
    exact h.sets hmod hr
  | false =>
    rw [Bool.or_false]
    obtain rfl : inst' = inst := hr
    exact h

/-- The loop over the operands of an evaluation automorphism: the induction is on the
tokens left. -/
theorem automorph_eval_operands_gives (hform : fh_operand_form opcode = .AutomorphEval)
    (args : List Str) : ∀ (inst : Instruction) (saw_mod : Bool),
      NamedOk table line opcode inst saw_mod →
      (automorph_eval_operands line table args inst saw_mod).Gives line
        fun r => NamedOk table line opcode r.1 r.2 := by
  induction args with
  | nil => exact fun inst saw_mod h => Check.gives_pure h
  | cons tok rest ih =>
    intro inst saw_mod h
    obtain rfl := h.opcode
    rw [automorph_eval_operands]
    split
    · refine ih _ _ ⟨rfl, h.line_number, { h.shaped with k := ?_ }, h.logn, h.modulus⟩
      exact fun hne => absurd hform hne
    split
    · refine ih _ _ ⟨rfl, h.line_number, { h.shaped with mask := ?_ }, h.logn, h.modulus⟩
      exact fun hne => absurd hform hne
    split
    · rename_i v _
      -- a `logn` out of range is reported and not kept
      by_cases hv : 64 < v.toNat
      · rw [if_pos hv]
        apply Check.gives_bind (Check.gives_warn _)
        exact fun _ _ => ih inst saw_mod h
      · rw [if_neg hv]
        refine ih _ _ ⟨rfl, h.line_number, { h.shaped with logn := ?_ }, ?_, h.modulus⟩
        · exact fun hne => absurd hform hne
        · rintro _ ⟨rfl⟩
          rw [UInt64.toNat_toUInt8]
          omega
    · apply Check.gives_bind (try_modulus_gives tok inst)
      rintro ⟨inst', found⟩ hr
      exact ih _ _ (h.try_modulus (by rw [hform]; rfl) hr)

/-- An index operand keeps the shape it belongs to. -/
theorem NamedOk.setIndex {is_rot saw_mod : Bool}
    (hform : fh_operand_form opcode = if is_rot then .RotAutomorphCoeff else .AutomorphCoeff)
    (h : NamedOk table line opcode inst saw_mod) (v : UInt64) :
    NamedOk table line opcode (inst.setIndex is_rot v) saw_mod := by
  obtain rfl := h.opcode
  cases is_rot with
  | true =>
    refine ⟨rfl, h.line_number, { h.shaped with offset := ?_ }, h.logn, h.modulus⟩
    exact fun hne => absurd hform hne
  | false =>
    refine ⟨rfl, h.line_number, { h.shaped with k := ?_ }, h.logn, h.modulus⟩
    exact fun _ hne => absurd hform hne

/-- The index of a coefficient automorphism, in whichever field it is. -/
def Instruction.index (is_rot : Bool) (inst : Instruction) : Option UInt64 :=
  if is_rot then inst.offset else inst.k

/-- The loop over those of a coefficient automorphism; an index that was seen is set. -/
theorem automorph_coeff_operands_gives {is_rot : Bool}
    (hform : fh_operand_form opcode = if is_rot then .RotAutomorphCoeff else .AutomorphCoeff)
    (args : List Str) : ∀ (inst : Instruction) (saw_index saw_mod : Bool),
      NamedOk table line opcode inst saw_mod → (saw_index → (inst.index is_rot).isSome) →
      (automorph_coeff_operands line table is_rot args inst saw_index saw_mod).Gives line
        fun r => NamedOk table line opcode r.1 r.2.2 ∧ (r.2.1 → (r.1.index is_rot).isSome) := by
  have hmod : (fh_operand_form opcode).hasModulus := by rw [hform]; cases is_rot <;> rfl
  induction args with
  | nil => exact fun inst saw_index saw_mod h hindex => Check.gives_pure ⟨h, hindex⟩
  | cons tok rest ih =>
    intro inst saw_index saw_mod h hindex
    rw [automorph_coeff_operands]
    split
    · refine ih _ _ _ (h.setIndex hform _) fun _ => ?_
      cases is_rot <;> rfl
    · apply Check.gives_bind (try_modulus_gives tok inst)
      rintro ⟨inst', found⟩ hr
      refine ih _ _ _ (h.try_modulus hmod hr) fun hsaw => ?_
      -- a modulus operand touches neither index field
      have hsame : inst'.index is_rot = inst.index is_rot := by
        cases found with
        | true =>
          obtain ⟨m, literal, heq, -, -⟩ : SetsModulus table inst inst' := hr
          rw [heq]
          rfl
        | false => rw [show inst' = inst from hr]
      rw [hsame]
      exact hindex hsaw

/-! ## A line's instruction -/

/-- With its first two registers alone, an instruction has nothing that its shape lacks.
-/
theorem NamedOk.fresh (hform : fh_operand_form opcode ≠ .None) (dest src1 : UInt32) :
    NamedOk table line opcode
      { opcode := opcode, dest := dest, src1 := src1, line_number := line } false := by
  refine ⟨rfl, rfl, ⟨fun h => absurd h hform, ?_, ?_, ?_, ?_, ?_, ?_, ?_, ?_, ?_⟩, ?_, ?_⟩
  all_goals simp

section Fields

variable {saw_mod : Bool} (h : NamedOk table line opcode inst saw_mod)

include h

/-- A second source belongs to the forms with two polynomials. -/
theorem NamedOk.src2 (hform : fh_operand_form opcode = .PolyPoly ∨
    fh_operand_form opcode = .PolyPolyNI) (src2 : UInt32) :
    NamedOk table line opcode { inst with src2 := src2 } saw_mod := by
  obtain rfl := h.opcode
  refine ⟨rfl, h.line_number, { h.shaped with src2 := fun h₁ h₂ => ?_ }, h.logn, h.modulus⟩
  exact absurd hform (not_or.mpr ⟨h₁, h₂⟩)

/-- An immediate belongs to the forms with a scalar. -/
theorem NamedOk.immediate (hform : fh_operand_form opcode = .PolyScalar) (imm : UInt64) :
    NamedOk table line opcode { inst with immediate := some imm } saw_mod := by
  obtain rfl := h.opcode
  exact ⟨rfl, h.line_number, { h.shaped with immediate := fun hne => absurd hform hne }, h.logn,
    h.modulus⟩

/-- A floating-point one belongs to their non-integer counterparts. -/
theorem NamedOk.fp_immediate (hform : fh_operand_form opcode = .PolyScalarNI) (imm : UInt64) :
    NamedOk table line opcode { inst with fp_immediate := some imm } saw_mod := by
  obtain rfl := h.opcode
  exact ⟨rfl, h.line_number, { h.shaped with fp_immediate := fun hne => absurd hform hne }, h.logn,
    h.modulus⟩

/-- A root belongs to the transforms. -/
theorem NamedOk.omega (hform : fh_operand_form opcode = .Ntt) (w : UInt64) :
    NamedOk table line opcode { inst with omega := some w } saw_mod := by
  obtain rfl := h.opcode
  exact ⟨rfl, h.line_number, { h.shaped with omega := fun hne => absurd hform hne }, h.logn,
    h.modulus⟩

end Fields

/-- The first operands of a line, from its opcode alone. -/
theorem dest_src1_fresh (table : ℕ) (hform : fh_operand_form opcode ≠ .None) (args : List Str) :
    (dest_src1 line args { opcode := opcode, line_number := line }).Gives line
      fun inst' => NamedOk table line opcode inst' false := by
  apply (dest_src1_gives args _).mono
  rintro _ ⟨dest, src1, rfl⟩
  exact NamedOk.fresh hform dest src1

/-- A kept instruction with what its shape requires. -/
theorem NamedOk.readable {saw_mod : Bool} (hrow : (fh_opcode_info opcode).isSome)
    (h : NamedOk table line opcode inst saw_mod)
    (hmod : (fh_operand_form opcode).hasModulus → saw_mod)
    (himm : fh_operand_form opcode = .PolyScalar → inst.immediate.isSome)
    (hfp : fh_operand_form opcode = .PolyScalarNI → inst.fp_immediate.isSome)
    (hk : fh_operand_form opcode = .AutomorphCoeff → inst.k.isSome)
    (hoffset : fh_operand_form opcode = .RotAutomorphCoeff → inst.offset.isSome) :
    Readable table inst ∧ inst.line_number = line := by
  obtain rfl := h.opcode
  exact ⟨⟨hrow, h.shaped, fun hm => h.modulus (hmod hm), himm, hfp, hk, hoffset, h.logn⟩, h.line_number⟩

/-- Both forms of the coefficient automorphism. -/
theorem coeff_gives {args : List Str} {is_rot : Bool} (hrow : (fh_opcode_info opcode).isSome)
    (hform : fh_operand_form opcode = if is_rot then .RotAutomorphCoeff else .AutomorphCoeff) :
    (operands.coeff line table { opcode := opcode, line_number := line } args is_rot).Gives line
      fun inst' => Readable table inst' ∧ inst'.line_number = line := by
  have hnone : fh_operand_form opcode ≠ .None := by rw [hform]; cases is_rot <;> decide
  apply Check.gives_bind (need_gives _ _ _)
  intro _ _
  apply Check.gives_bind (dest_src1_fresh table hnone args)
  intro inst hinst
  have hstart : false = true → (inst.index is_rot).isSome := fun h => absurd h (by decide)
  apply Check.gives_bind (automorph_coeff_operands_gives hform _ inst false false hinst hstart)
  rintro ⟨inst', saw_index, saw_mod⟩ ⟨hok, hindex⟩
  cases saw_index with
  | false => exact Check.gives_failWarn _
  | true =>
    cases saw_mod with
    | false => exact Check.gives_failWarn _
    | true =>
      refine Check.gives_pure (hok.readable hrow (fun _ => rfl) ?_ ?_ ?_ ?_)
      · rw [hform]
        cases is_rot <;> exact fun h => absurd h (by decide)
      · rw [hform]
        cases is_rot <;> exact fun h => absurd h (by decide)
      · rw [hform]
        cases is_rot with
        | true => exact fun h => absurd h (by decide)
        | false => exact fun _ => hindex rfl
      · rw [hform]
        cases is_rot with
        | true => exact fun _ => hindex rfl
        | false => exact fun h => absurd h (by decide)

/-- **Whatever a line gives is readable**, and what it reports carries its
number. -/
theorem operands_gives (hrow : (fh_opcode_info opcode).isSome) (args : List Str) :
    (operands F line table { opcode := opcode, line_number := line } args).Gives line
      fun inst' => Readable table inst' ∧ inst'.line_number = line := by
  rw [operands]
  cases hform : fh_operand_form opcode with
  | None =>
    apply Check.gives_pure
    -- nothing is set: each field has its default
    refine ⟨⟨hrow, ⟨fun _ => ⟨rfl, rfl⟩, ?_, ?_, ?_, ?_, ?_, ?_, ?_, ?_, ?_⟩, ?_, ?_, ?_, ?_, ?_, ?_⟩, rfl⟩
    all_goals simp [hform, OperandForm.hasModulus]
  | PolyPoly =>
    apply Check.gives_bind (need_gives _ _ _)
    intro _ _
    apply Check.gives_bind (dest_src1_fresh table (by rw [hform]; decide) args)
    intro inst hinst
    apply Check.gives_bind (address_gives _)
    intro src2 _
    apply (modulus_gives _ _).mono
    intro inst' hset
    have hok := (hinst.src2 (.inl hform) src2).sets (by rw [hform]; rfl) hset
    apply hok.readable hrow (fun _ => rfl) <;> simp [hform]
  | PolyPolyNI =>
    apply Check.gives_bind (need_gives _ _ _)
    intro _ _
    apply Check.gives_bind (dest_src1_fresh table (by rw [hform]; decide) args)
    intro inst hinst
    apply Check.gives_bind (address_gives _)
    intro src2 _
    apply Check.gives_pure
    apply (hinst.src2 (.inr hform) src2).readable hrow <;> simp [hform, OperandForm.hasModulus]
  | PolyScalar =>
    apply Check.gives_bind (need_gives _ _ _)
    intro _ _
    apply Check.gives_bind (dest_src1_fresh table (by rw [hform]; decide) args)
    intro inst hinst
    rcases to_uint (args.getD 2 []) with - | imm
    · exact Check.gives_failWarn _
    · apply (modulus_gives _ _).mono
      intro inst' hset
      have hok := (hinst.immediate hform imm).sets (by rw [hform]; rfl) hset
      obtain ⟨m, literal, rfl, -, -⟩ := hset
      apply hok.readable hrow (fun _ => rfl) <;> simp [hform]
  | PolyScalarNI =>
    apply Check.gives_bind (need_gives _ _ _)
    intro _ _
    apply Check.gives_bind (dest_src1_fresh table (by rw [hform]; decide) args)
    intro inst hinst
    rcases to_double F (args.getD 2 []) with - | imm
    · exact Check.gives_failWarn _
    · apply Check.gives_pure
      apply (hinst.fp_immediate hform imm).readable hrow <;> simp [hform, OperandForm.hasModulus]
  | UnaryMod =>
    apply Check.gives_bind (need_gives _ _ _)
    intro _ _
    apply Check.gives_bind (dest_src1_fresh table (by rw [hform]; decide) args)
    intro inst hinst
    apply (modulus_gives _ _).mono
    intro inst' hset
    have hok := hinst.sets (by rw [hform]; rfl) hset
    apply hok.readable hrow (fun _ => rfl) <;> simp [hform]
  | UnaryNoMod =>
    apply Check.gives_bind (need_gives _ _ _)
    intro _ _
    apply (dest_src1_fresh table (by rw [hform]; decide) args).mono
    intro inst hinst
    apply hinst.readable hrow <;> simp [hform, OperandForm.hasModulus]
  | Ntt =>
    apply Check.gives_bind (need_gives _ _ _)
    intro _ _
    apply Check.gives_bind (dest_src1_fresh table (by rw [hform]; decide) args)
    intro inst hinst
    apply Check.gives_bind (modulus_gives _ _)
    intro inst' hset
    have hok := hinst.sets (by rw [hform]; rfl) hset
    rcases find_omega (args.drop 3) with - | w
    · apply Check.gives_pure
      apply hok.readable hrow (fun _ => rfl) <;> simp [hform]
    · apply Check.gives_pure
      apply (hok.omega hform w).readable hrow (fun _ => rfl) <;> simp [hform]
  | AutomorphEval =>
    apply Check.gives_bind (need_gives _ _ _)
    intro _ _
    apply Check.gives_bind (dest_src1_fresh table (by rw [hform]; decide) args)
    intro inst hinst
    apply Check.gives_bind (automorph_eval_operands_gives hform _ inst false hinst)
    rintro ⟨inst', saw_mod⟩ hok
    cases saw_mod with
    | false => exact Check.gives_failWarn _
    | true =>
      apply Check.gives_pure
      apply hok.readable hrow (fun _ => rfl) <;> simp [hform]
  | AutomorphCoeff => exact coeff_gives hrow hform
  | RotAutomorphCoeff => exact coeff_gives hrow hform

/-- A line gives a readable instruction with its number, or nothing. -/
theorem instruction_gives (t : Str) : (instruction F line table t).Gives line
    fun inst => Readable table inst ∧ inst.line_number = line := by
  rw [instruction]
  by_cases hbody : (instruction_body t).isEmpty
  · simp only [if_pos hbody]
    exact Check.gives_fail
  · simp only [if_neg hbody]
    split
    · exact Check.gives_failWarn _
    · rename_i opcode hopcode
      exact operands_gives (fh_opcode_info_of_mnemonic hopcode) _

end Operands

/-! ## What a line does to the read -/

namespace Reader

/-- The reader at its next line. -/
def next (r : Reader) : Reader := { r with line_ := r.line_ + 1 }

/-- Set the metadata. -/
def setMetadata (r : Reader) (m : TraceMetadata) : Reader :=
  { r with result_.program.metadata := m }

/-- Keep a comment. -/
def annotate (r : Reader) (body : Str) : Reader :=
  { r with result_.program.annotations := r.result_.program.annotations ++
      [⟨r.line_, body, r.result_.program.instructions.length⟩] }

/-- Add a modulus to the table. -/
def push (r : Reader) (value : UInt64) : Reader :=
  { r with result_.program.modulus_table := r.result_.program.modulus_table ++ [value] }

/-- Set the diagnostics. -/
def withDiagnostics (r : Reader) (d : Diagnostics) : Reader :=
  { r with result_ := { r.result_ with toDiagnostics := d } }

/-- Add an instruction to the program. -/
def append (r : Reader) (inst : Instruction) : Reader :=
  { r with result_.program.instructions := r.result_.program.instructions ++ [inst] }

/-- What the line at hand gives. -/
def lineInstruction (F : FloatText) (r : Reader) (t : Str) : Option Instruction × Diagnostics :=
  Fhetch.instruction F r.line_ r.result_.program.modulus_table.length t r.result_.toDiagnostics

/-- Its diagnostics carry its number, and its instruction is readable. -/
theorem lineInstruction_spec {F : FloatText} {r : Reader} {t : Str} {o : Option Instruction}
    {d : Diagnostics} (h : r.lineInstruction F t = (o, d)) :
    r.result_.toDiagnostics.Grows r.line_ d ∧ ∀ inst, o = some inst →
      Readable r.result_.program.modulus_table.length inst ∧ inst.line_number = r.line_ := by
  have hgives : (Fhetch.instruction F r.line_ r.result_.program.modulus_table.length t).Gives
    r.line_ _ := instruction_gives t
  obtain ⟨hgrows, hpost⟩ := hgives r.result_.toDiagnostics
  rw [lineInstruction] at h
  rw [h] at hgrows hpost
  exact ⟨hgrows, hpost⟩

/-- A line with an instruction adds it. -/
theorem instruction_line_of_some {F : FloatText} {r : Reader} {t : Str} {inst : Instruction}
    {d : Diagnostics} (h : r.lineInstruction F t = (some inst, d)) :
    r.instruction_line F t = (r.withDiagnostics d).append inst := by
  rw [lineInstruction] at h
  simp only [instruction_line, h]
  rfl

/-- A line without one leaves its diagnostics. -/
theorem instruction_line_of_none {F : FloatText} {r : Reader} {t : Str} {d : Diagnostics}
    (h : r.lineInstruction F t = (none, d)) : r.instruction_line F t = r.withDiagnostics d := by
  rw [lineInstruction] at h
  simp only [instruction_line, h]
  rfl

/-- A comment that is neither layout nor a header line. -/
structure IsNote (body : Str) : Prop where
  nonempty : body ≠ []
  content : body.all (· = 0x3D) = false
  unlabelled : body ∉ labels
  unabsorbed : ∀ m, absorb_metadata body m = none

/-- Everything a trimmed line can do to a read. -/
inductive Reads (F : FloatText) (t : Str) (r : Reader) : Reader → Prop where
  /-- A blank line, layout, or a count. -/
  | skip : lineKind t ≠ .instruction → Reads F t r r
  | header (m : TraceMetadata) : lineKind t = .comment →
      absorb_metadata (trim (t.drop 1)) r.result_.program.metadata = some m →
      Reads F t r (r.setMetadata m)
  | note : lineKind t = .comment → IsNote (trim (t.drop 1)) →
      Reads F t r (r.annotate (trim (t.drop 1)))
  | error (message : Str) : lineKind t ≠ .instruction → Reads F t r (r.error message)
  | entry (value : UInt64) : lineKind t = .modulusEntry →
      r.result_.program.modulus_table.length < max_size → Reads F t r (r.push value)
  | instruction : lineKind t = .instruction → Reads F t r (r.instruction_line F t)

/-- The keys of the header fields. -/
def header_keys : List Str :=
  [str "Program", str "Description", str "Source", str "Build", str "Instruction Count",
    str "Modulus Count", str "Modulus Chain Length", str "Generated", str "Scheme",
    str "Crypto Scheme", str "Ring Dimension", str "Multiplicative Depth", str "Security Level",
    str "Trace File"]

/-- A header key is absorbed, whatever its value. -/
theorem absorb_field_of_mem {key : Str} (h : key ∈ header_keys) (value : Str)
    (m : TraceMetadata) : (absorb_field key value m).isSome := by
  simp only [header_keys, List.mem_cons, List.not_mem_nil, or_false] at h
  rcases h with rfl | rfl | rfl | rfl | rfl | rfl | rfl | rfl | rfl | rfl | rfl | rfl | rfl | rfl
  all_goals rfl

/-- No other key is. -/
theorem absorb_field_of_not_mem {key : Str} (h : key ∉ header_keys) (value : Str)
    (m : TraceMetadata) : absorb_field key value m = none := by
  simp only [header_keys, List.mem_cons, List.not_mem_nil, or_false, not_or] at h
  obtain ⟨h₁, h₂, h₃, h₄, h₅, h₆, h₇, h₈, h₉, h₁₀, h₁₁, h₁₂, h₁₃, h₁₄⟩ := h
  have hscheme : ¬ (decide (key = str "Scheme") || decide (key = str "Crypto Scheme")) = true := by
    rw [decide_eq_false h₉, decide_eq_false h₁₀]
    decide
  rw [absorb_field, if_neg h₁, if_neg h₂, if_neg h₃, if_neg h₄, if_neg h₅, if_neg h₆, if_neg h₇,
    if_neg h₈, if_neg hscheme, if_neg h₁₁, if_neg h₁₂, if_neg h₁₃, if_neg h₁₄]

/-- The keys of the header are the ones that are absorbed. -/
theorem absorb_field_eq_none_iff {key value : Str} {m : TraceMetadata} :
    absorb_field key value m = none ↔ key ∉ header_keys := by
  refine ⟨fun h hmem => ?_, fun h => absorb_field_of_not_mem h value m⟩
  have := absorb_field_of_mem hmem value m
  rw [h] at this
  exact absurd this (by decide)

/-- Whether a comment is a header line does not depend on the metadata it would
go to. -/
theorem absorb_metadata_eq_none {body : Str} {m : TraceMetadata}
    (h : absorb_metadata body m = none) (m' : TraceMetadata) : absorb_metadata body m' = none := by
  simp only [absorb_metadata] at h ⊢
  split
  · rfl
  · rename_i hne
    rw [if_neg hne] at h
    exact absorb_field_eq_none_iff.mpr (absorb_field_eq_none_iff.mp h)

/-- A comment line is one of the steps. -/
theorem reads_comment (F : FloatText) (r : Reader) {t : Str} (ht : lineKind t = .comment) :
    Reads F t r (r.comment t) := by
  have hkind : lineKind t ≠ .instruction := by rw [ht]; decide
  rw [comment]
  split
  · exact .skip hkind
  · rename_i h
    simp only [Bool.or_eq_true, not_or, Bool.not_eq_true, decide_eq_true_eq] at h
    obtain ⟨⟨hne, hcontent⟩, hlabel⟩ := h
    split
    · rename_i habsorb
      exact .header _ ht habsorb
    · rename_i habsorb
      exact .note ht ⟨List.isEmpty_eq_false_iff.mp hne, hcontent, hlabel,
        absorb_metadata_eq_none habsorb⟩

/-- So is an entry of the table. -/
theorem reads_modulus_entry (F : FloatText) {r r' : Reader} {t : Str}
    (ht : lineKind t = .modulusEntry) (h : r.modulus_entry t = some r') : Reads F t r r' := by
  have hkind : lineKind t ≠ .instruction := by rw [ht]; decide
  rw [modulus_entry] at h
  split at h
  · obtain rfl := Option.some.inj h
    exact .error _ hkind
  · split at h
    · split at h
      · obtain rfl := Option.some.inj h
        exact .error _ hkind
      · split at h
        · exact absurd h (by simp)
        · rename_i hroom
          obtain rfl := Option.some.inj h
          exact .entry _ ht (Nat.not_le.mp hroom)
    · obtain rfl := Option.some.inj h
      exact .error _ hkind

/-- **The step lemma.** -/
theorem reads_of_read_line {F : FloatText} {r r' : Reader} {line : Str}
    (h : read_line F r line = some r') : Reads F (trim line) r.next r' := by
  rw [read_line] at h
  cases hkind : lineKind (trim line) with
  | blank =>
    rw [hkind] at h
    obtain rfl := Option.some.inj h
    exact .skip (by rw [hkind]; decide)
  | comment =>
    rw [hkind] at h
    obtain rfl := Option.some.inj h
    exact reads_comment F _ hkind
  -- the line only reserves, so the program is as it was
  | modulusCount =>
    have hne : lineKind (trim line) ≠ .instruction := by rw [hkind]; decide
    rw [hkind] at h
    replace h : modulus_count r.next (trim line) = some r' := h
    rw [modulus_count] at h
    split at h
    · obtain rfl := Option.some.inj h
      exact .error _ hne
    · split at h
      · exact absurd h (by simp)
      · obtain rfl := Option.some.inj h
        exact .skip hne
  | modulusEntry =>
    rw [hkind] at h
    exact reads_modulus_entry F hkind h
  | instruction =>
    rw [hkind] at h
    obtain rfl := Option.some.inj h
    exact .instruction hkind

/-- **The run lemma.** What every line preserves, at the point where a read
meets it, the read preserves. -/
theorem read_lines_induct_at {F : FloatText} {I : Reader → Prop} {lines : List Str} {r₀ : Reader}
    (h₀ : I r₀) (hstep : ∀ pre line rest r r', lines = pre ++ line :: rest →
      read_lines F r₀ pre = some r → I r → Reads F (trim line) r.next r' → I r') :
    ∀ {r : Reader}, read_lines F r₀ lines = some r → I r := by
  induction lines using List.reverseRecOn with
  | nil =>
    intro r h
    obtain rfl := Option.some.inj h
    exact h₀
  | append_singleton lines line ih =>
    intro r h
    rw [read_lines, List.foldlM_append] at h
    obtain ⟨r₁, hlines, hlast⟩ := Option.bind_eq_some_iff.mp h
    rw [List.foldlM_cons] at hlast
    obtain ⟨r₂, hline, hend⟩ := Option.bind_eq_some_iff.mp hlast
    obtain rfl := Option.some.inj hend
    apply hstep lines line [] r₁ r₂ rfl hlines _ (reads_of_read_line hline)
    refine ih (fun pre l rest r r' heq => ?_) hlines
    exact hstep pre l (rest ++ [line]) r r' (by rw [heq, List.append_assoc, List.cons_append])

/-- What a line preserves wherever it stands. -/
theorem read_lines_induct {F : FloatText} {I : Reader → Prop}
    (hstep : ∀ t r r', I r → Reads F t r.next r' → I r') (lines : List Str) {r₀ r : Reader}
    (h₀ : I r₀) (h : read_lines F r₀ lines = some r) : I r :=
  read_lines_induct_at h₀ (fun _ _ _ r r' _ _ => hstep _ r r') h

end Reader

end Fhetch
