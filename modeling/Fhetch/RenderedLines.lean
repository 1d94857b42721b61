/-
An instruction's line, read back.

The renderer joins operands with `", "`, so the tokens of a line are the operands
with a comma on all but the last, and every operand helper strips it. What is
left is one evaluation of `operands` for each shape, on tokens known exactly:
the shape's fields come back and the others were never set, which is `Readable`.
-/
import Fhetch.ReaderSpec
import Fhetch.Writer

set_option autoImplicit false

namespace Fhetch

open Lib

/-! ## Operand texts -/

/-- An operand as the renderer writes it: nothing in it separates operands or
starts a comment. -/
structure Operand (w : Str) : Prop extends Word w where
  comma : (0x2C : UInt8) ∉ w
  hash : (0x23 : UInt8) ∉ w

/-- A number is one operand. -/
theorem operand_decimal (n : ℕ) : Operand (decimal n) where
  toWord := numeral_word (by decide) (by decide) n
  comma := not_mem_numeral (by decide) (by decide) n (by decide)
  hash := not_mem_numeral (by decide) (by decide) n (by decide)

/-- A name in front of an operand. -/
theorem Operand.prepend {name w : Str} (hw : Operand w) (hname : Operand name) :
    Operand (name ++ w) where
  nonempty := fun h => hw.nonempty (List.append_eq_nil_iff.mp h).2
  solid := fun c hc => (List.mem_append.mp hc).elim (hname.solid c) (hw.solid c)
  comma := fun h => (List.mem_append.mp h).elim hname.comma hw.comma
  hash := fun h => (List.mem_append.mp h).elim hname.hash hw.hash

/-- The names, with what precedes their number. -/
theorem operand_name : ∀ name ∈ [str "%", str "m=", str "omega=", str "mask=", str "logn=",
    str "k=", str "offset="], Operand name := by
  intro name hname
  have hwhole : ∀ name ∈ [str "%", str "m=", str "omega=", str "mask=", str "logn=", str "k=",
      str "offset="], name ≠ [] ∧ name.all (! isSpace ·) ∧
        (0x2C : UInt8) ∉ name ∧ (0x23 : UInt8) ∉ name := by decide
  obtain ⟨hne, hsolid, hcomma, hhash⟩ := hwhole name hname
  exact ⟨.of_all hne hsolid, hcomma, hhash⟩

/-- So is a register. -/
theorem operand_addr (a : UInt32) : Operand (str "%" ++ decimal a.toNat) :=
  (operand_decimal _).prepend (operand_name _ (by decide))

/-- The token of an operand, with a comma or without, is stripped to it. -/
theorem strip_comma_operand {w : Str} (hw : Operand w) : strip_comma w = w := by
  have hlast : w.getLast? ≠ some 0x2C := fun h => hw.comma (List.mem_of_getLast? h)
  simp only [strip_comma, trim_of_trimmed hw.trimmed, if_neg hlast]

/-- The comma behind an operand is stripped. -/
theorem strip_comma_comma {w : Str} (hw : Operand w) : strip_comma (w ++ [0x2C]) = w := by
  have hsolid : ∀ c ∈ w ++ [0x2C], isSpace c = false := fun c hc => by
    rcases List.mem_append.mp hc with hc | hc
    · exact hw.solid c hc
    · rw [List.mem_singleton.mp hc]
      decide
  have hword : Word (w ++ [0x2C]) := ⟨by simp, hsolid⟩
  simp only [strip_comma, trim_of_trimmed hword.trimmed, List.getLast?_concat, if_true,
    List.dropLast_concat, trim_of_trimmed hw.trimmed]

/-- Operands as the renderer joins them. -/
def joined : List Str → Str
  | [] => []
  | w :: ws => w ++ ws.flatMap fun w => str ", " ++ w

/-- The tokens of such a text. -/
def withCommas : List Str → List Str
  | [] => []
  | [w] => [w]
  | w :: ws => (w ++ [0x2C]) :: withCommas ws

/-- Joined operands fall apart into themselves, with their commas. -/
theorem tokens_joined (ws : List Str) (hws : ∀ w ∈ ws, Operand w) :
    tokens (joined ws) = withCommas ws := by
  induction ws with
  | nil => rfl
  | cons w ws ih =>
    have hw := hws w List.mem_cons_self
    cases ws with
    | nil => rw [joined, List.flatMap_nil, List.append_nil, withCommas, tokens_word hw.toWord]
    | cons w' ws =>
      -- the comma stands at the word before it, with a blank behind
      have hcomma : Word (w ++ [0x2C]) := by
        refine ⟨by simp, fun c hc => ?_⟩
        rcases List.mem_append.mp hc with hc | hc
        · exact hw.solid c hc
        · rw [List.mem_singleton.mp hc]
          decide
      have hcut : joined (w :: w' :: ws) = (w ++ [0x2C]) ++ 0x20 :: joined (w' :: ws) := by
        simp only [joined, List.flatMap_cons, List.append_assoc]
        rfl
      rw [hcut, tokens_word_append hcomma (by decide), withCommas,
        ih fun v hv => hws v (List.mem_cons_of_mem w hv)]
      exact fun h => absurd h (by simp)

/-- Each token is stripped to its operand. -/
theorem strip_withCommas (ws : List Str) (hws : ∀ w ∈ ws, Operand w) :
    List.Forall₂ (fun tok w => strip_comma tok = w) (withCommas ws) ws := by
  induction ws with
  | nil => exact .nil
  | cons w ws ih =>
    have hw := hws w List.mem_cons_self
    cases ws with
    | nil => exact .cons (strip_comma_operand hw) .nil
    | cons w' ws =>
      exact .cons (strip_comma_comma hw) (ih fun v hv => hws v (List.mem_cons_of_mem w hv))

/-! ## Tokens, by what they are stripped to -/

section Tokens

variable {tok : Str}

/-- A token that is a number but for its comma reads as it. -/
theorem to_uint_of_strip {v : UInt64} (h : strip_comma tok = decimal v.toNat) :
    to_uint tok = some v := by
  obtain ⟨d, ds, heq⟩ := List.exists_cons_of_ne_nil (operand_decimal v.toNat).nonempty
  have hdigit : ∃ n < 10, d = digitChar n :=
    numeral_digits (by decide) (by decide) v.toNat d (by
      rw [← decimal, heq]
      exact List.mem_cons_self)
  obtain ⟨n, hn, rfl⟩ := hdigit
  have hsign : ∀ n < 10, (decide (digitChar n = 0x2D) || decide (digitChar n = 0x2B)) = false := by
    decide
  have hread : strtoull (digitChar n :: ds) = ⟨v.toNat, false, []⟩ := by
    rw [← heq]
    exact strtoull_decimal v.toNat_lt
  rw [to_uint, h, heq]
  simp only [hsign n hn, hread, Bool.false_eq_true, if_false, List.isEmpty_nil, Bool.not_true,
    Bool.or_false, UInt64.ofNat_toNat]

/-- A number reads as itself. -/
theorem to_uint_decimal (v : UInt64) : to_uint (decimal v.toNat) = some v :=
  to_uint_of_strip (strip_comma_operand (operand_decimal _))

/-- A register reads as its address. -/
theorem to_addr_of_strip {a : UInt32} (h : strip_comma tok = str "%" ++ decimal a.toNat) :
    to_addr_token tok = some a.toUInt64 := by
  rw [to_addr_token, h]
  have := to_uint_decimal a.toUInt64
  rw [UInt32.toNat_toUInt64] at this
  exact (if_pos rfl).trans this

/-- It is an address that fits. -/
theorem address_of_strip (line : ℕ) {a : UInt32}
    (h : strip_comma tok = str "%" ++ decimal a.toNat) : address line tok = pure a := by
  have hfits : a.toUInt64.toNat ≤ kMaxAddress := by
    have := a.toNat_lt
    rw [UInt32.toNat_toUInt64, kMaxAddress]
    omega
  rw [address_of_fits (to_addr_of_strip h) hfits, UInt32.toUInt32_toUInt64]

/-- A named operand reads as its value. -/
theorem to_named_of_strip {name : Str} {v : UInt64} (h : strip_comma tok = name ++ decimal v.toNat) :
    to_named tok name = some v := by
  have hlong : ¬ (name ++ decimal v.toNat).length ≤ name.length := by
    have := List.length_pos_of_ne_nil (operand_decimal v.toNat).nonempty
    rw [List.length_append]
    omega
  have hpre : name.isPrefixOf (name ++ decimal v.toNat) = true :=
    List.isPrefixOf_iff_prefix.mpr (List.prefix_append _ _)
  simp only [to_named, h, decide_eq_false hlong, hpre, Bool.not_true, Bool.or_false,
    Bool.false_eq_true, if_false, List.drop_left, to_uint_decimal]

/-- Under another name it reads as nothing. -/
theorem to_named_of_other {name w : Str} (h : strip_comma tok = w)
    (hne : name.isPrefixOf w = false) : to_named tok name = none := by
  simp only [to_named, h, hne, Bool.not_false, Bool.or_true, if_true]

end Tokens

/-! ## A line as its operands -/

/-- The text of the modulus operand. -/
def modulusText (inst : Instruction) : List Str :=
  (inst.modulus.map fun m => str "m=" ++ decimal m.toNat).toList

/-- The text of an optional operand, its name with the equals sign. -/
def namedText (name : Str) (v : Option ℕ) : List Str := (v.map fun v => name ++ decimal v).toList

/-- The operands of a line, in the writer's order. -/
def operandTexts (inst : Instruction) : List Str :=
  let two := [str "%" ++ decimal inst.dest.toNat, str "%" ++ decimal inst.src1.toNat]
  match fh_operand_form inst.opcode with
  | .None => []
  | .PolyPoly => two ++ (str "%" ++ decimal inst.src2.toNat) :: modulusText inst
  | .PolyPolyNI => two ++ [str "%" ++ decimal inst.src2.toNat]
  | .PolyScalar => two ++ decimal (inst.immediate.getD 0).toNat :: modulusText inst
  | .PolyScalarNI => two
  | .UnaryMod => two ++ modulusText inst
  | .UnaryNoMod => two
  | .Ntt => two ++ (modulusText inst ++ namedText (str "omega=") (inst.omega.map UInt64.toNat))
  | .AutomorphEval =>
    two ++ (modulusText inst ++ (namedText (str "mask=") (inst.mask.map UInt64.toNat) ++
      (namedText (str "logn=") (inst.logn.map UInt8.toNat) ++
        namedText (str "k=") (inst.k.map UInt64.toNat))))
  | .AutomorphCoeff => two ++ (str "k=" ++ decimal (inst.k.getD 0).toNat) :: modulusText inst
  | .RotAutomorphCoeff =>
    two ++ (str "offset=" ++ decimal (inst.offset.getD 0).toNat) :: modulusText inst

/-- What is written of a modulus, as operands. -/
theorem append_modulus_eq (out : Str) (inst : Instruction) :
    append_modulus out inst = out ++ (modulusText inst).flatMap fun w => str ", " ++ w := by
  rw [append_modulus, modulusText]
  cases inst.modulus with
  | none => exact (List.append_nil out).symm
  | some m =>
    simp only [append_named, Option.map_some, Option.toList_some, List.flatMap_singleton,
      List.append_assoc]
    rfl

/-- What is written of an optional operand. -/
theorem append_optional_eq (out name : Str) (v : Option ℕ) :
    append_optional out name v =
      out ++ (namedText (name ++ str "=") v).flatMap fun w => str ", " ++ w := by
  cases v with
  | none => exact (List.append_nil out).symm
  | some v =>
    simp only [append_optional, namedText, append_named, Option.map_some, Option.toList_some, List.flatMap_singleton,
      List.append_assoc]

/-- **A rendered line is its mnemonic and its operands, joined.** -/
theorem render_instruction_eq (F : FloatText) {inst : Instruction} {mnemonic : Str}
    (hm : fh_opcode_mnemonic inst.opcode = some mnemonic)
    (hform : fh_operand_form inst.opcode ≠ .PolyScalarNI) :
    render_instruction F inst = if fh_operand_form inst.opcode = .None then mnemonic
      else mnemonic ++ 0x20 :: joined (operandTexts inst) := by
  rw [render_instruction, operandTexts, hm]
  cases hf : fh_operand_form inst.opcode with
  | None => rfl
  | PolyScalarNI => exact absurd hf hform
  | _ =>
    simp only [append_modulus_eq, append_optional_eq, append_addr, append_named, joined,
      List.cons_append, List.nil_append, List.flatMap_cons, List.flatMap_append, List.append_assoc,
      List.flatMap_nil, List.append_nil]
    rfl

/-- A modulus is written as operands. -/
theorem operand_modulusText (inst : Instruction) : ∀ w ∈ modulusText inst, Operand w := by
  intro w hw
  obtain ⟨m, -, rfl⟩ := Option.map_eq_some_iff.mp (Option.mem_toList.mp hw)
  exact (operand_decimal _).prepend (operand_name _ (by decide))

/-- So is an operand that may be missing. -/
theorem operand_namedText {name : Str} (hname : Operand name) (v : Option ℕ) :
    ∀ w ∈ namedText name v, Operand w := by
  intro w hw
  obtain ⟨n, -, rfl⟩ := Option.map_eq_some_iff.mp (Option.mem_toList.mp hw)
  exact (operand_decimal _).prepend hname

/-- So is all that an instruction writes. -/
theorem operand_operandTexts (inst : Instruction) : ∀ w ∈ operandTexts inst, Operand w := by
  have htwo : ∀ w ∈ [str "%" ++ decimal inst.dest.toNat, str "%" ++ decimal inst.src1.toNat],
      Operand w :=
    List.forall_mem_cons.mpr ⟨operand_addr _, List.forall_mem_singleton.mpr (operand_addr _)⟩
  have hmod := operand_modulusText inst
  have hcons : ∀ {w : Str}, Operand w → ∀ v ∈ w :: modulusText inst, Operand v :=
    fun hw => List.forall_mem_cons.mpr ⟨hw, hmod⟩
  rw [operandTexts]
  cases fh_operand_form inst.opcode with
  | None => exact fun w hw => absurd hw List.not_mem_nil
  | PolyPoly => exact List.forall_mem_append.mpr ⟨htwo, hcons (operand_addr _)⟩
  | PolyPolyNI =>
    exact List.forall_mem_append.mpr ⟨htwo, List.forall_mem_singleton.mpr (operand_addr _)⟩
  | PolyScalar => exact List.forall_mem_append.mpr ⟨htwo, hcons (operand_decimal _)⟩
  | PolyScalarNI | UnaryNoMod => exact htwo
  | UnaryMod => exact List.forall_mem_append.mpr ⟨htwo, hmod⟩
  | Ntt =>
    exact List.forall_mem_append.mpr ⟨htwo, List.forall_mem_append.mpr
      ⟨hmod, operand_namedText (operand_name _ (by decide)) _⟩⟩
  | AutomorphEval =>
    exact List.forall_mem_append.mpr ⟨htwo, List.forall_mem_append.mpr
      ⟨hmod, List.forall_mem_append.mpr ⟨operand_namedText (operand_name _ (by decide)) _,
        List.forall_mem_append.mpr ⟨operand_namedText (operand_name _ (by decide)) _,
          operand_namedText (operand_name _ (by decide)) _⟩⟩⟩⟩
  | AutomorphCoeff | RotAutomorphCoeff =>
    exact List.forall_mem_append.mpr
      ⟨htwo, hcons ((operand_decimal _).prepend (operand_name _ (by decide)))⟩

/-! ## The operands, read -/

/-- The tokens of a line stand for these operands. -/
abbrev Stands (args ws : List Str) : Prop := List.Forall₂ (fun tok w => strip_comma tok = w) args ws

/-- Tokens that stand for some texts stand for them one by one. -/
theorem stands_cons_iff {args ws : List Str} {w : Str} : Stands args (w :: ws) ↔
    ∃ tok rest, strip_comma tok = w ∧ Stands rest ws ∧ args = tok :: rest :=
  List.forall₂_cons_right_iff

/-- The first two of them. -/
theorem stands_two {args ws : List Str} {v w : Str} (h : Stands args ([v, w] ++ ws)) :
    ∃ a b rest, strip_comma a = v ∧ strip_comma b = w ∧ Stands rest ws ∧ args = a :: b :: rest := by
  obtain ⟨a, args₁, ha, hargs₁, rfl⟩ := stands_cons_iff.mp h
  obtain ⟨b, rest, hb, hrest, rfl⟩ := stands_cons_iff.mp hargs₁
  exact ⟨a, b, rest, ha, hb, hrest, rfl⟩

section Operands

variable {F : FloatText} {line table : ℕ} {inst inst₀ : Instruction}

/-- There are operands enough. -/
theorem need_of_le {opcode : FhOpcode} {args : List Str} {n : ℕ} (h : n ≤ args.length) :
    need line opcode args n = pure () := if_pos h

/-- The first two operands that were written are read. -/
theorem dest_src1_stands {a b : Str} {rest : List Str}
    (ha : strip_comma a = str "%" ++ decimal inst.dest.toNat)
    (hb : strip_comma b = str "%" ++ decimal inst.src1.toNat) :
    dest_src1 line (a :: b :: rest) inst₀ =
      pure { inst₀ with dest := inst.dest, src1 := inst.src1 } := by
  rw [dest_src1, List.getD_cons_zero, List.getD_cons_succ, List.getD_cons_zero,
    address_of_strip line ha, address_of_strip line hb]
  rfl

/-- The modulus that was written is read, and taken for what it was. -/
theorem modulus_stands {tok : Str} {m : UInt64} (hm : inst.modulus = some m)
    (hread : ModulusRead table inst.modulus inst.modulus_is_literal)
    (h : strip_comma tok = str "m=" ++ decimal m.toNat) :
    modulus line table tok inst₀ = pure { inst₀ with
      modulus := inst.modulus, modulus_is_literal := inst.modulus_is_literal } := by
  rw [modulus_of_read inst₀ (to_named_of_strip h) (hread.encodable m hm), hm,
    hread.literal m hm]

/-- It is found where it is tried. -/
theorem try_modulus_stands {tok : Str} {m : UInt64} (hm : inst.modulus = some m)
    (hread : ModulusRead table inst.modulus inst.modulus_is_literal)
    (h : strip_comma tok = str "m=" ++ decimal m.toNat) :
    try_modulus line table tok inst₀ = pure ({ inst₀ with
      modulus := inst.modulus, modulus_is_literal := inst.modulus_is_literal }, true) := by
  funext d
  rw [try_modulus, modulus_stands hm hread h]
  rfl

/-- `=` ends a name, so no name is taken for another. -/
theorem eval_mask_stands {tok : Str} {v : UInt64} (h : strip_comma tok = str "mask=" ++ decimal v.toNat)
    (rest : List Str) (saw_mod : Bool) :
    automorph_eval_operands line table (tok :: rest) inst₀ saw_mod =
      automorph_eval_operands line table rest { inst₀ with mask := some v } saw_mod := by
  rw [automorph_eval_operands, to_named_of_other h rfl, to_named_of_strip h]

/-- The loop reads `k` and goes on. -/
theorem eval_k_stands {tok : Str} {v : UInt64} (h : strip_comma tok = str "k=" ++ decimal v.toNat)
    (rest : List Str) (saw_mod : Bool) :
    automorph_eval_operands line table (tok :: rest) inst₀ saw_mod =
      automorph_eval_operands line table rest { inst₀ with k := some v } saw_mod := by
  rw [automorph_eval_operands, to_named_of_strip h]

/-- It reads a `logn` in range and goes on. -/
theorem eval_logn_stands {tok : Str} {l : UInt8} (hl : l.toNat ≤ 64)
    (h : strip_comma tok = str "logn=" ++ decimal l.toNat) (rest : List Str) (saw_mod : Bool) :
    automorph_eval_operands line table (tok :: rest) inst₀ saw_mod =
      automorph_eval_operands line table rest { inst₀ with logn := some l } saw_mod := by
  have hnat : l.toUInt64.toNat = l.toNat := UInt8.toNat_toUInt64 l
  have hnamed : to_named tok (str "logn=") = some l.toUInt64 :=
    to_named_of_strip (by rw [h, hnat])
  rw [automorph_eval_operands, to_named_of_other h rfl, to_named_of_other h rfl, hnamed]
  simp only [hnat, if_neg (Nat.not_lt.mpr hl), UInt8.toUInt8_toUInt64]

/-- It reads the modulus, which has been seen from then on. -/
theorem eval_modulus_stands {tok : Str} {m : UInt64} (hm : inst.modulus = some m)
    (hread : ModulusRead table inst.modulus inst.modulus_is_literal)
    (h : strip_comma tok = str "m=" ++ decimal m.toNat) (rest : List Str) :
    automorph_eval_operands line table (tok :: rest) inst₀ false =
      automorph_eval_operands line table rest { inst₀ with
        modulus := inst.modulus, modulus_is_literal := inst.modulus_is_literal } true := by
  rw [automorph_eval_operands, to_named_of_other h rfl, to_named_of_other h rfl,
    to_named_of_other h rfl]
  simp only [try_modulus_stands hm hread h, Check.pure_bind, Bool.or_true]

/-! An operand that may be absent leaves the field as it is, which is absent. -/

/-- It reads the mask, if one was written. -/
theorem eval_mask_optional (inst₀ : Instruction) (h₀ : inst₀.mask = none) {v : Option UInt64} {args ws : List Str}
    (saw_mod : Bool) (h : Stands args (namedText (str "mask=") (v.map UInt64.toNat) ++ ws)) :
    ∃ rest, Stands rest ws ∧ automorph_eval_operands line table args inst₀ saw_mod =
      automorph_eval_operands line table rest { inst₀ with mask := v } saw_mod := by
  cases v with
  | none =>
    have hsame : { inst₀ with mask := none } = inst₀ := by rw [← h₀]
    exact ⟨args, h, by rw [hsame]⟩
  | some v =>
    obtain ⟨tok, rest, htok, hrest, rfl⟩ := stands_cons_iff.mp h
    exact ⟨rest, hrest, eval_mask_stands htok rest saw_mod⟩

/-- It reads `logn`, if it was written. -/
theorem eval_logn_optional (inst₀ : Instruction) (h₀ : inst₀.logn = none) {l : Option UInt8}
    (hl : ∀ n, l = some n → n.toNat ≤ 64) {args ws : List Str} (saw_mod : Bool)
    (h : Stands args (namedText (str "logn=") (l.map UInt8.toNat) ++ ws)) :
    ∃ rest, Stands rest ws ∧ automorph_eval_operands line table args inst₀ saw_mod =
      automorph_eval_operands line table rest { inst₀ with logn := l } saw_mod := by
  cases l with
  | none =>
    have hsame : { inst₀ with logn := none } = inst₀ := by rw [← h₀]
    exact ⟨args, h, by rw [hsame]⟩
  | some n =>
    obtain ⟨tok, rest, htok, hrest, rfl⟩ := stands_cons_iff.mp h
    exact ⟨rest, hrest, eval_logn_stands (hl n rfl) htok rest saw_mod⟩

/-- It reads `k`, if it was written, and ends. -/
theorem eval_k_optional (h₀ : inst₀.k = none) {v : Option UInt64} {args : List Str} (saw_mod : Bool)
    (h : Stands args (namedText (str "k=") (v.map UInt64.toNat))) :
    automorph_eval_operands line table args inst₀ saw_mod =
      pure ({ inst₀ with k := v }, saw_mod) := by
  cases v with
  | none =>
    have hsame : { inst₀ with k := none } = inst₀ := by rw [← h₀]
    obtain rfl := List.forall₂_nil_right_iff.mp h
    rw [hsame]
    rfl
  | some v =>
    obtain ⟨tok, rest, htok, hrest, rfl⟩ := stands_cons_iff.mp h
    obtain rfl := List.forall₂_nil_right_iff.mp hrest
    rw [eval_k_stands htok]
    rfl

/-- The operands of an evaluation automorphism that were written are read. -/
theorem automorph_eval_stands (hread : Readable table inst)
    (hf : fh_operand_form inst.opcode = .AutomorphEval) {args : List Str}
    (hargs : Stands args (modulusText inst ++
      (namedText (str "mask=") (inst.mask.map UInt64.toNat) ++
        (namedText (str "logn=") (inst.logn.map UInt8.toNat) ++
          namedText (str "k=") (inst.k.map UInt64.toNat))))) :
    automorph_eval_operands line table args
        { opcode := inst.opcode, dest := inst.dest, src1 := inst.src1, line_number := line } false =
      pure ({ inst with line_number := line }, true) := by
  have hs := hread.shaped
  have hmod := hread.modulus (by rw [hf]; rfl)
  obtain ⟨m, hm⟩ := Option.isSome_iff_exists.mp hmod.present
  rw [modulusText, hm] at hargs
  obtain ⟨tok, args₁, htok, hargs₁, rfl⟩ := stands_cons_iff.mp hargs
  let inst₁ : Instruction :=
    { opcode := inst.opcode, dest := inst.dest, src1 := inst.src1, line_number := line,
      modulus := inst.modulus, modulus_is_literal := inst.modulus_is_literal }
  -- behind the modulus the named operands, each of which may be missing
  obtain ⟨args₂, hargs₂, heq₂⟩ := eval_mask_optional inst₁ rfl true hargs₁
  obtain ⟨args₃, hargs₃, heq₃⟩ :=
    eval_logn_optional { inst₁ with mask := inst.mask } rfl hread.logn true hargs₂
  rw [eval_modulus_stands hm hmod htok, heq₂, heq₃, eval_k_optional rfl true hargs₃]
  refine congrArg (fun i : Instruction => (pure (i, true) : Check (Instruction × Bool))) ?_
  simp [inst₁, hs.src2, hs.immediate, hs.fp_immediate, hs.omega, hs.offset, hf]

/-- The index and the modulus of a coefficient automorphism. -/
theorem automorph_coeff_stands {is_rot : Bool} {a b : Str} {v m : UInt64}
    (hm : inst.modulus = some m) (hread : ModulusRead table inst.modulus inst.modulus_is_literal)
    (ha : strip_comma a = index_name is_rot ++ decimal v.toNat)
    (hb : strip_comma b = str "m=" ++ decimal m.toNat) :
    automorph_coeff_operands line table is_rot [a, b] inst₀ false false =
      pure ({ inst₀.setIndex is_rot v with
        modulus := inst.modulus, modulus_is_literal := inst.modulus_is_literal }, true, true) := by
  have hother : to_named b (index_name is_rot) = none :=
    to_named_of_other hb (by cases is_rot <;> rfl)
  have hindex : automorph_coeff_operands line table is_rot [a, b] inst₀ false false =
      automorph_coeff_operands line table is_rot [b] (inst₀.setIndex is_rot v) true false := by
    rw [automorph_coeff_operands, to_named_of_strip ha]
  rw [hindex, automorph_coeff_operands, hother]
  simp only [try_modulus_stands hm hread hb, Check.pure_bind, Bool.or_true]
  rfl

/-- So are those of a coefficient automorphism. -/
theorem coeff_stands (is_rot : Bool) (hread : Readable table inst)
    (hf : fh_operand_form inst.opcode = if is_rot then .RotAutomorphCoeff else .AutomorphCoeff)
    {v : UInt64} (hv : inst.index is_rot = some v) {args : List Str}
    (hargs : Stands args ([str "%" ++ decimal inst.dest.toNat, str "%" ++ decimal inst.src1.toNat] ++
      (index_name is_rot ++ decimal v.toNat) :: modulusText inst)) :
    operands.coeff line table { opcode := inst.opcode, line_number := line } args is_rot =
      pure { inst with line_number := line } := by
  have hs := hread.shaped
  have hmod := hread.modulus (by rw [hf]; cases is_rot <;> rfl)
  obtain ⟨m, hm⟩ := Option.isSome_iff_exists.mp hmod.present
  rw [modulusText, hm] at hargs
  obtain ⟨a, b, args₁, ha, hb, hargs₁, rfl⟩ := stands_two hargs
  obtain ⟨c, args₂, hc, hargs₂, rfl⟩ := stands_cons_iff.mp hargs₁
  obtain ⟨e, args₃, he, hargs₃, rfl⟩ := stands_cons_iff.mp hargs₂
  obtain rfl := List.forall₂_nil_right_iff.mp hargs₃
  rw [operands.coeff, need_of_le (show 4 ≤ [a, b, c, e].length from Nat.le_refl 4),
    dest_src1_stands ha hb]
  simp only [Check.pure_bind, List.drop_succ_cons, List.drop_zero,
    automorph_coeff_stands hm hmod hc he, Bool.not_true, Bool.false_eq_true, if_false]
  refine congrArg (fun i : Instruction => (pure i : Check Instruction)) ?_
  cases is_rot with
  | true =>
    rw [Instruction.index, if_pos rfl] at hv
    simp [Instruction.setIndex, hv, hs.src2, hs.immediate, hs.fp_immediate, hs.omega, hs.mask,
      hs.logn, hs.k, hf]
  | false =>
    rw [Instruction.index, if_neg Bool.false_ne_true] at hv
    simp [Instruction.setIndex, hv, hs.src2, hs.immediate, hs.fp_immediate, hs.omega, hs.mask,
      hs.logn, hs.offset, hf]

/-- So is a root, if one was written. -/
theorem find_omega_stands {args : List Str} {w : Option UInt64}
    (h : Stands args (namedText (str "omega=") (w.map UInt64.toNat))) : find_omega args = w := by
  cases w with
  | none =>
    obtain rfl := List.forall₂_nil_right_iff.mp h
    rfl
  | some w =>
    obtain ⟨tok, rest, htok, hrest, rfl⟩ := stands_cons_iff.mp h
    rw [find_omega, List.findSome?_cons, to_named_of_strip htok]

/-- The modulus operand alone. -/
theorem stands_modulus {args : List Str} (hmod : inst.modulus.isSome)
    (h : Stands args (modulusText inst)) :
    ∃ tok m, inst.modulus = some m ∧ strip_comma tok = str "m=" ++ decimal m.toNat ∧
      args = [tok] := by
  obtain ⟨m, hm⟩ := Option.isSome_iff_exists.mp hmod
  rw [modulusText, hm] at h
  obtain ⟨tok, rest, htok, hrest, rfl⟩ := stands_cons_iff.mp h
  obtain rfl := List.forall₂_nil_right_iff.mp hrest
  exact ⟨tok, m, hm, htok, rfl⟩

/-- **Operands come back.** Tokens that stand for a readable instruction's
operands are read as that instruction, and nothing is reported. -/
theorem operands_stands (hread : Readable table inst)
    (hform : fh_operand_form inst.opcode ≠ .PolyScalarNI) {args : List Str}
    (hargs : Stands args (operandTexts inst)) :
    operands F line table { opcode := inst.opcode, line_number := line } args =
      pure { inst with line_number := line } := by
  have hs := hread.shaped
  have hmod := hread.modulus
  rw [operandTexts] at hargs
  rw [operands]
  -- form by form: the texts stand for the operands the form has, and the fields that the
  -- form does not have are at their defaults
  cases hf : fh_operand_form inst.opcode with
  | None =>
    refine congrArg (fun i : Instruction => (pure i : Check Instruction)) ?_
    simp [hs.operands, hs.src2, hs.immediate, hs.fp_immediate, hs.modulus, hs.omega, hs.mask,
      hs.logn, hs.k, hs.offset, hf, OperandForm.hasModulus]
  | PolyPoly =>
    simp only [hf] at hargs hmod
    obtain ⟨a, b, args₁, ha, hb, hargs₁, rfl⟩ := stands_two hargs
    obtain ⟨c, args₂, hc, hargs₂, rfl⟩ := stands_cons_iff.mp hargs₁
    obtain ⟨e, m, hm, he, rfl⟩ := stands_modulus (hmod rfl).present hargs₂
    simp only [need_of_le (show 4 ≤ [a, b, c, e].length from Nat.le_refl 4),
      dest_src1_stands ha hb, Check.pure_bind, List.getD_cons_zero, List.getD_cons_succ,
      address_of_strip line hc, modulus_stands hm (hmod rfl) he]
    refine congrArg (fun i : Instruction => (pure i : Check Instruction)) ?_
    simp [hs.immediate, hs.fp_immediate, hs.omega, hs.mask, hs.logn, hs.k, hs.offset, hf]
  | PolyPolyNI =>
    simp only [hf] at hargs
    obtain ⟨a, b, args₁, ha, hb, hargs₁, rfl⟩ := stands_two hargs
    obtain ⟨c, args₂, hc, hargs₂, rfl⟩ := stands_cons_iff.mp hargs₁
    obtain rfl := List.forall₂_nil_right_iff.mp hargs₂
    simp only [need_of_le (show 3 ≤ [a, b, c].length from Nat.le_refl 3),
      dest_src1_stands ha hb, Check.pure_bind, List.getD_cons_zero, List.getD_cons_succ,
      address_of_strip line hc]
    refine congrArg (fun i : Instruction => (pure i : Check Instruction)) ?_
    simp [hs.immediate, hs.fp_immediate, hs.modulus, hs.omega, hs.mask, hs.logn, hs.k, hs.offset,
      hf, OperandForm.hasModulus]
  | PolyScalar =>
    simp only [hf] at hargs hmod
    obtain ⟨imm, himm⟩ := Option.isSome_iff_exists.mp (hread.immediate hf)
    rw [himm, Option.getD_some] at hargs
    obtain ⟨a, b, args₁, ha, hb, hargs₁, rfl⟩ := stands_two hargs
    obtain ⟨c, args₂, hc, hargs₂, rfl⟩ := stands_cons_iff.mp hargs₁
    obtain ⟨e, m, hm, he, rfl⟩ := stands_modulus (hmod rfl).present hargs₂
    simp only [need_of_le (show 4 ≤ [a, b, c, e].length from Nat.le_refl 4),
      dest_src1_stands ha hb, Check.pure_bind, List.getD_cons_zero, List.getD_cons_succ,
      to_uint_of_strip hc, modulus_stands hm (hmod rfl) he]
    refine congrArg (fun i : Instruction => (pure i : Check Instruction)) ?_
    simp [himm, hs.src2, hs.fp_immediate, hs.omega, hs.mask, hs.logn, hs.k, hs.offset, hf]
  | PolyScalarNI => exact absurd hf hform
  | UnaryMod =>
    simp only [hf] at hargs hmod
    obtain ⟨a, b, args₁, ha, hb, hargs₁, rfl⟩ := stands_two hargs
    obtain ⟨e, m, hm, he, rfl⟩ := stands_modulus (hmod rfl).present hargs₁
    simp only [need_of_le (show 3 ≤ [a, b, e].length from Nat.le_refl 3),
      dest_src1_stands ha hb, Check.pure_bind, List.getD_cons_zero, List.getD_cons_succ,
      modulus_stands hm (hmod rfl) he]
    refine congrArg (fun i : Instruction => (pure i : Check Instruction)) ?_
    simp [hs.src2, hs.immediate, hs.fp_immediate, hs.omega, hs.mask, hs.logn, hs.k, hs.offset, hf]
  | UnaryNoMod =>
    simp only [hf] at hargs
    obtain ⟨a, b, args₁, ha, hb, hargs₁, rfl⟩ := stands_two hargs
    obtain rfl := List.forall₂_nil_right_iff.mp hargs₁
    simp only [need_of_le (show 2 ≤ [a, b].length from Nat.le_refl 2), dest_src1_stands ha hb,
      Check.pure_bind]
    refine congrArg (fun i : Instruction => (pure i : Check Instruction)) ?_
    simp [hs.src2, hs.immediate, hs.fp_immediate, hs.modulus, hs.omega, hs.mask, hs.logn, hs.k,
      hs.offset, hf, OperandForm.hasModulus]
  | Ntt =>
    simp only [hf] at hargs hmod
    obtain ⟨a, b, args₁, ha, hb, hargs₁, rfl⟩ := stands_two hargs
    obtain ⟨m, hm⟩ := Option.isSome_iff_exists.mp (hmod rfl).present
    rw [modulusText, hm] at hargs₁
    obtain ⟨e, args₂, he, hargs₂, rfl⟩ := stands_cons_iff.mp hargs₁
    have homega : find_omega args₂ = inst.omega := find_omega_stands hargs₂
    simp only [need_of_le (show 3 ≤ (a :: b :: e :: args₂).length from Nat.le_add_left 3 _),
      dest_src1_stands ha hb, Check.pure_bind, List.getD_cons_zero, List.getD_cons_succ,
      modulus_stands hm (hmod rfl) he, List.drop_succ_cons, List.drop_zero, homega]
    rcases inst.omega with - | w
    · refine congrArg (fun i : Instruction => (pure i : Check Instruction)) ?_
      simp [hs.src2, hs.immediate, hs.fp_immediate, hs.mask, hs.logn, hs.k, hs.offset, hf]
    · refine congrArg (fun i : Instruction => (pure i : Check Instruction)) ?_
      simp [hs.src2, hs.immediate, hs.fp_immediate, hs.mask, hs.logn, hs.k, hs.offset, hf]
  | AutomorphEval =>
    simp only [hf] at hargs hmod
    obtain ⟨a, b, args₁, ha, hb, hargs₁, rfl⟩ := stands_two hargs
    have hlen : 3 ≤ (a :: b :: args₁).length := by
      obtain ⟨m, hm⟩ := Option.isSome_iff_exists.mp (hmod rfl).present
      rw [modulusText, hm] at hargs₁
      obtain ⟨e, args₂, -, -, rfl⟩ := stands_cons_iff.mp hargs₁
      exact Nat.le_add_left 3 _
    simp only [need_of_le hlen, dest_src1_stands ha hb, Check.pure_bind, List.drop_succ_cons,
      List.drop_zero, automorph_eval_stands hread hf hargs₁, if_true]
  | AutomorphCoeff =>
    obtain ⟨v, hv⟩ := Option.isSome_iff_exists.mp (hread.k hf)
    simp only [hf, hv, Option.getD_some] at hargs
    exact coeff_stands false hread hf hv hargs
  | RotAutomorphCoeff =>
    obtain ⟨v, hv⟩ := Option.isSome_iff_exists.mp (hread.offset hf)
    simp only [hf, hv, Option.getD_some] at hargs
    exact coeff_stands true hread hf hv hargs

end Operands

/-! ## The line -/

/-- A mnemonic is a word in lower case, and no line starting with one is taken
for anything but an instruction. -/
theorem mnemonic_word {opcode : FhOpcode} {mnemonic : Str}
    (h : fh_opcode_mnemonic opcode = some mnemonic) :
    Operand mnemonic ∧ lower mnemonic = mnemonic ∧
      mnemonic.head? ≠ some 0x23 ∧ mnemonic.head? ≠ some 0x6D := by
  have hrows : ∀ m ∈ kOpcodeTable.map OpcodeInfo.mnemonic,
      (m ≠ [] ∧ m.all (! isSpace ·) ∧ (0x2C : UInt8) ∉ m ∧ (0x23 : UInt8) ∉ m) ∧
        lower m = m ∧ m.head? ≠ some 0x23 ∧ m.head? ≠ some 0x6D := by
    decide
  obtain ⟨row, hrow, rfl⟩ := Option.map_eq_some_iff.mp h
  have hmem : row ∈ kOpcodeTable := List.mem_of_find?_eq_some hrow
  obtain ⟨⟨hne, hsolid, hcomma, hhash⟩, hrest⟩ := hrows _ (List.mem_map_of_mem hmem)
  exact ⟨⟨.of_all hne hsolid, hcomma, hhash⟩, hrest⟩

/-- What joins the operands brings in no character of its own but blanks and
commas. -/
theorem not_mem_joined {c : UInt8} (hc : c ∉ str ", ") {ws : List Str} (hws : ∀ w ∈ ws, c ∉ w) :
    c ∉ joined ws := by
  cases ws with
  | nil => exact List.not_mem_nil
  | cons w ws =>
    rw [joined, List.mem_append, List.mem_flatMap]
    rintro (h | ⟨v, hv, h⟩)
    · exact hws w List.mem_cons_self h
    · rcases List.mem_append.mp h with h | h
      · exact hc h
      · exact hws v (List.mem_cons_of_mem w hv) h

/-- Operands leave some text. -/
theorem joined_ne_nil {ws : List Str} (hws : ∀ w ∈ ws, Operand w) (hne : ws ≠ []) :
    joined ws ≠ [] := by
  obtain ⟨w, ws, rfl⟩ := List.exists_cons_of_ne_nil hne
  exact fun h => (hws w List.mem_cons_self).nonempty (List.append_eq_nil_iff.mp h).1

/-- Joined operands have no blank at either end. -/
theorem trimmed_joined {ws : List Str} (hws : ∀ w ∈ ws, Operand w) : Trimmed (joined ws) := by
  induction ws with
  | nil => exact .nil
  | cons w ws ih =>
    have hw := hws w List.mem_cons_self
    cases ws with
    | nil =>
      rw [joined, List.flatMap_nil, List.append_nil]
      exact hw.trimmed
    | cons w' ws =>
      have hrest : ∀ v ∈ w' :: ws, Operand v := fun v hv => hws v (List.mem_cons_of_mem w hv)
      have hcut : joined (w :: w' :: ws) = w ++ (str ", " ++ joined (w' :: ws)) := by
        simp only [joined, List.flatMap_cons, List.append_assoc]
      rw [hcut]
      exact hw.trimmed.between hw.nonempty (ih hrest)
        (joined_ne_nil hrest (List.cons_ne_nil _ _)) (str ", ")

section Line

variable {F : FloatText} {table : ℕ} {inst : Instruction}

/-- Every form but the empty one writes operands. -/
theorem operandTexts_ne_nil (h : fh_operand_form inst.opcode ≠ .None) : operandTexts inst ≠ [] := by
  rw [operandTexts]
  cases hf : fh_operand_form inst.opcode with
  | None => exact absurd hf h
  | _ => simp

/-- What the loop over lines needs to know of a rendered instruction. -/
structure InstructionLine (t : Str) : Prop where
  nonempty : t ≠ []
  trimmed : Trimmed t
  unbroken : newline ∉ t
  kind : Reader.lineKind t = .instruction
  body : instruction_body t = t

/-- What starts with a character that starts nothing else is an instruction. -/
theorem lineKind_of_head {c : UInt8} (hhash : c ≠ 0x23) (hm : c ≠ 0x6D) (cs : Str) :
    Reader.lineKind (c :: cs) = .instruction := by
  have hcount : (str "modulus_count").isPrefixOf (c :: cs) = false := by
    rw [show str "modulus_count" = 0x6D :: str "odulus_count" from rfl, List.isPrefixOf,
      beq_eq_false_iff_ne.mpr hm.symm, Bool.false_and]
  have hentry : (str "m[").isPrefixOf (c :: cs) = false := by
    rw [show str "m[" = 0x6D :: str "[" from rfl, List.isPrefixOf,
      beq_eq_false_iff_ne.mpr hm.symm, Bool.false_and]
  rw [Reader.lineKind, hcount, hentry]
  simp [hhash]

/-- A mnemonic, and possibly operands. -/
theorem instructionLine_of_mnemonic {mnemonic : Str} {opcode : FhOpcode}
    (hm : fh_opcode_mnemonic opcode = some mnemonic) {t : Str}
    (ht : t = mnemonic ∨ ∃ ws, ws ≠ [] ∧ (∀ w ∈ ws, Operand w) ∧ t = mnemonic ++ 0x20 :: joined ws) :
    InstructionLine t := by
  obtain ⟨hword, -, hhash, hm'⟩ := mnemonic_word hm
  obtain ⟨c, cs, hcons⟩ := List.exists_cons_of_ne_nil hword.nonempty
  have hstart : ∃ rest, t = c :: rest := by
    rcases ht with rfl | ⟨ws, -, -, rfl⟩
    · exact ⟨cs, hcons⟩
    · exact ⟨cs ++ 0x20 :: joined ws, by rw [hcons, List.cons_append]⟩
  -- a character that is in no operand and no separator is not in the line
  have hfree : ∀ d, d ∉ str ", " → (∀ w, Operand w → d ∉ w) → d ∉ t := by
    intro d hd hout
    rcases ht with rfl | ⟨ws, -, hws, rfl⟩
    · exact hout _ hword
    · intro h
      rcases List.mem_append.mp h with h | h
      · exact hout _ hword h
      · rcases List.mem_cons.mp h with rfl | h
        · exact hd (by decide)
        · exact not_mem_joined hd (fun w hw => hout w (hws w hw)) h
  obtain ⟨rest, hrest⟩ := hstart
  rw [hcons, List.head?_cons] at hhash hm'
  have hhash' : c ≠ 0x23 := fun h => hhash (by rw [h])
  have hm'' : c ≠ 0x6D := fun h => hm' (by rw [h])
  refine ⟨by rw [hrest]; exact List.cons_ne_nil _ _, ?_, ?_, ?_, ?_⟩
  · rcases ht with rfl | ⟨ws, hne, hws, rfl⟩
    · exact hword.trimmed
    · exact hword.trimmed.between hword.nonempty (trimmed_joined hws) (joined_ne_nil hws hne) [0x20]
  · exact hfree newline (by decide) fun w hw h => absurd (hw.solid _ h) (by decide)
  · rw [hrest]
    exact lineKind_of_head hhash' hm'' rest
  · rw [instruction_body, if_neg (hfree 0x23 (by decide) fun w hw => hw.hash)]

/-- What is written of an instruction is an instruction line. -/
theorem instructionLine_render (hread : Readable table inst)
    (hform : fh_operand_form inst.opcode ≠ .PolyScalarNI) :
    InstructionLine (render_instruction F inst) := by
  obtain ⟨row, hrow⟩ := Option.isSome_iff_exists.mp hread.row
  have hm : fh_opcode_mnemonic inst.opcode = some row.mnemonic := by
    rw [fh_opcode_mnemonic, hrow, Option.map_some]
  apply instructionLine_of_mnemonic hm
  rw [render_instruction_eq F hm hform]
  split
  · exact .inl rfl
  · rename_i hnone
    exact .inr ⟨operandTexts inst, operandTexts_ne_nil hnone, operand_operandTexts inst, rfl⟩

/-- **A rendered line is read as the instruction it was rendered from**, and
nothing is reported. -/
theorem instruction_render (hread : Readable table inst)
    (hform : fh_operand_form inst.opcode ≠ .PolyScalarNI) (line : ℕ) :
    instruction F line table (render_instruction F inst) = pure { inst with line_number := line } := by
  obtain ⟨row, hrow⟩ := Option.isSome_iff_exists.mp hread.row
  have hm : fh_opcode_mnemonic inst.opcode = some row.mnemonic := by
    rw [fh_opcode_mnemonic, hrow, Option.map_some]
  have hline : InstructionLine (render_instruction F inst) := instructionLine_render hread hform
  obtain ⟨hword, hlower, -⟩ := mnemonic_word hm
  have htokens : tokens (render_instruction F inst) =
      row.mnemonic :: withCommas (operandTexts inst) := by
    rw [render_instruction_eq F hm hform]
    split
    · rename_i hnone
      rw [tokens_word hword.toWord, operandTexts, hnone]
      rfl
    · rw [tokens_word_append hword.toWord (by decide),
        tokens_joined _ (operand_operandTexts inst)]
  rw [instruction, hline.body, if_neg (mt List.isEmpty_iff.mp hline.nonempty), htokens]
  simp only [List.headD_cons, List.tail_cons, hlower, fh_opcode_from_mnemonic_mnemonic hm]
  exact operands_stands hread hform (strip_withCommas _ (operand_operandTexts inst))

end Line

end Fhetch
