/-
Which lines a text read loses without a word.

A line that should hold an instruction either gives one, or leaves a diagnostic
with its number, or neither. The reader's failing paths are not uniform: too few
operands, a bad immediate, a missing named operand warn; an address or a modulus
index that does not fit is an error; an operand that is no address or no `m=` at
all fails the chain and says nothing, and so does a token the automorphism forms
do not know once an earlier line has put an error on the record.

`dropsSilently` says on the tokens of a line when that happens, and the theorem
is that a line is accounted for exactly when it does not. An address of twenty
digits is one of the silent ones, since it is no 64-bit number to begin with.
-/
import Fhetch.ReaderSpec

set_option autoImplicit false

namespace Fhetch

open Lib

/-! ## The operands a shape needs -/

/-- The least number of operands of a shape. -/
def OperandForm.minOperands : OperandForm → ℕ
  | .None => 0
  | .UnaryNoMod => 2
  | .PolyPolyNI | .PolyScalarNI | .UnaryMod | .Ntt | .AutomorphEval => 3
  | .PolyPoly | .PolyScalar | .AutomorphCoeff | .RotAutomorphCoeff => 4

/-- How many of them, the first ones, are addresses. -/
def OperandForm.addressOperands : OperandForm → ℕ
  | .None => 0
  | .PolyPoly | .PolyPolyNI => 3
  | _ => 2

/-! ## Silent failures, on the tokens -/

/-- Every token is an address that an instruction can hold. -/
def addressesFit (toks : List Str) : Bool :=
  toks.all fun tok => match to_addr_token tok with
    | some v => v.toNat ≤ kMaxAddress
    | none => false

/-- The first token that is not such an address is no 64-bit `%N` either. -/
def addressesDrop : List Str → Bool
  | [] => false
  | tok :: rest =>
    match to_addr_token tok with
    | none => true
    | some v => if kMaxAddress < v.toNat then false else addressesDrop rest

/-- A token that is no `m=<N>`. -/
def noModulus (tok : Str) : Bool := (to_named tok (str "m=")).isNone

/-- The first token that the forms with named operands neither take nor report
is an unknown one. -/
def namedDrop (table : ℕ) (taken reported : Str → Bool) : List Str → Bool
  | [] => false
  | tok :: rest =>
    if taken tok then namedDrop table taken reported rest
    else if reported tok then false
    else match to_named tok (str "m=") with
      | none => true
      | some v =>
        if v.toNat < table ∧ kMaxModulusIndex < v.toNat then false
        else namedDrop table taken reported rest

/-- A named operand that `sr_automorph_eval` takes. -/
def evalTakes (tok : Str) : Bool :=
  (to_named tok (str "k=")).isSome || (to_named tok (str "mask=")).isSome ||
    (to_named tok (str "logn=")).any fun v => v.toNat ≤ 64

/-- What follows the addresses of a line fails without a word. -/
def restDrops (hasErrors : Bool) (table : ℕ) (args : List Str) : OperandForm → Bool
  | .PolyPoly => noModulus (args.getD 3 [])
  | .PolyScalar => (to_uint (args.getD 2 [])).isSome && noModulus (args.getD 3 [])
  | .UnaryMod | .Ntt => noModulus (args.getD 2 [])
  | .AutomorphEval =>
    -- a `logn=` not taken is out of range, and reported
    hasErrors && namedDrop table evalTakes (fun tok => (to_named tok (str "logn=")).isSome)
      (args.drop 2)
  | .AutomorphCoeff =>
    hasErrors && namedDrop table (fun tok => (to_named tok (index_name false)).isSome)
      (fun _ => false) (args.drop 2)
  | .RotAutomorphCoeff =>
    hasErrors && namedDrop table (fun tok => (to_named tok (index_name true)).isSome)
      (fun _ => false) (args.drop 2)
  | .None | .PolyPolyNI | .PolyScalarNI | .UnaryNoMod => false

/-- The operands of a line fail without a word: there are enough of them, and
either the addresses drop it or they are good and the rest does. -/
def operandsDrop (hasErrors : Bool) (table : ℕ) (form : OperandForm) (args : List Str) : Bool :=
  decide (form.minOperands ≤ args.length) &&
    (addressesDrop (args.take form.addressOperands) ||
      addressesFit (args.take form.addressOperands) && restDrops hasErrors table args form)

/-- The line's opcode is known and its operands fail without a word. -/
def dropsSilently (hasErrors : Bool) (table : ℕ) (t : Str) : Bool :=
  let toks := tokens (instruction_body t)
  match fh_opcode_from_mnemonic (lower (toks.headD [])) with
  | none => false
  | some opcode => operandsDrop hasErrors table (fh_operand_form opcode) toks.tail

/-! ## What the checks do on such tokens -/

namespace Check

variable {α β : Type} {line : ℕ} {d : Diagnostics}

/-- A check fails and leaves the diagnostics as they were. -/
def SilentAt (x : Check α) (d : Diagnostics) : Prop := x d = (none, d)

theorem not_silentAt_pure (a : α) : ¬ (pure a : Check α).SilentAt d := by
  rintro ⟨⟩

end Check

namespace Diagnostics

variable {line : ℕ} {d d' : Diagnostics}

/-- An error on the way leaves more than there was. -/
theorem ne_of_grows_error {message : Str} (h : (d.error line message).Grows line d') : d' ≠ d := by
  rintro rfl
  obtain ⟨es, hes, -⟩ := h.errors
  have := congrArg List.length hes
  simp only [Diagnostics.error, List.length_append, List.length_singleton] at this
  omega

theorem ne_of_grows_warn {message : Str} (h : (d.warn line message).Grows line d') : d' ≠ d := by
  rintro rfl
  obtain ⟨ws, hws, -⟩ := h.warnings
  have := congrArg List.length hws
  simp only [Diagnostics.warn, List.length_append, List.length_singleton] at this
  omega

end Diagnostics

namespace Check

variable {α β : Type} {line : ℕ} {d : Diagnostics}

theorem not_silentAt_failError (message : Str) :
    ¬ (failError line message : Check α).SilentAt d := by
  intro h
  exact Diagnostics.ne_of_grows_error (Diagnostics.Grows.refl line _) (congrArg Prod.snd h)

theorem not_silentAt_failWarn (message : Str) :
    ¬ (failWarn line message : Check α).SilentAt d := by
  intro h
  exact Diagnostics.ne_of_grows_warn (Diagnostics.Grows.refl line _) (congrArg Prod.snd h)

end Check

/-- The addresses drop the line, or are good and something else does. -/
def AddrDrops (toks : List Str) (P : Prop) : Prop :=
  addressesDrop toks = true ∨ (addressesFit toks = true ∧ P)

theorem addrDrops_nil {P : Prop} : AddrDrops [] P ↔ P :=
  ⟨fun h => h.elim (fun h => absurd h (by decide)) And.right, fun h => .inr ⟨rfl, h⟩⟩

theorem addrDrops_cons {tok : Str} {rest : List Str} {P : Prop} :
    AddrDrops (tok :: rest) P ↔ AddrDrops [tok] (AddrDrops rest P) := by
  simp only [AddrDrops, addressesDrop, addressesFit, List.all_cons, List.all_nil, Bool.and_true]
  rcases to_addr_token tok with - | v
  · simp
  · by_cases hv : kMaxAddress < v.toNat
    · simp [hv, Nat.not_le.mpr hv]
    · simp [hv, Nat.not_lt.mp hv]

theorem addrDrops_append {toks rest : List Str} {P : Prop} :
    AddrDrops (toks ++ rest) P ↔ AddrDrops toks (AddrDrops rest P) := by
  induction toks generalizing P with
  | nil => exact addrDrops_nil.symm
  | cons tok toks ih =>
    have hcons : ∀ {Q : Prop}, AddrDrops (tok :: toks) Q ↔ AddrDrops [tok] (AddrDrops toks Q) :=
      addrDrops_cons
    rw [List.cons_append, hcons, ← ih]
    exact addrDrops_cons

/-- The first two of at least two tokens, and the first three of at least three. -/
theorem take_two {args : List Str} (h : 2 ≤ args.length) :
    args.take 2 = [args.getD 0 [], args.getD 1 []] := by
  rcases args with - | ⟨a, - | ⟨b, rest⟩⟩
  · exact absurd h (by simp)
  · exact absurd h (by simp)
  · rfl

theorem take_three {args : List Str} (h : 3 ≤ args.length) :
    args.take 3 = [args.getD 0 [], args.getD 1 []] ++ [args.getD 2 []] := by
  rcases args with - | ⟨a, - | ⟨b, - | ⟨c, rest⟩⟩⟩
  · exact absurd h (by simp)
  · exact absurd h (by simp)
  · exact absurd h (by simp)
  · rfl

section Operands

variable {F : FloatText} {line table : ℕ} {β : Type} {d : Diagnostics}

theorem silentAt_need (opcode : FhOpcode) (args : List Str) (n : ℕ) (f : Unit → Check β) :
    (need line opcode args n >>= f).SilentAt d ↔ n ≤ args.length ∧ (f ()).SilentAt d := by
  by_cases h : n ≤ args.length
  · rw [need, if_pos h]
    exact (and_iff_right h).symm
  · rw [need, if_neg h]
    refine iff_of_false ?_ fun hand => h hand.1
    intro hs
    exact Diagnostics.ne_of_grows_warn (Diagnostics.Grows.refl line _) (congrArg Prod.snd hs)

theorem silentAt_address {tok : Str} {f : UInt32 → Check β} {P : Prop}
    (hf : ∀ v, (f v).SilentAt d ↔ P) :
    (address line tok >>= f).SilentAt d ↔ AddrDrops [tok] P := by
  simp only [AddrDrops, addressesDrop, addressesFit, List.all_cons, List.all_nil, Bool.and_true]
  rcases h : to_addr_token tok with - | v
  · rw [address_of_malformed h]
    exact iff_of_true rfl (.inl rfl)
  · by_cases hv : kMaxAddress < v.toNat
    · obtain ⟨message, heq⟩ := address_of_wide line h hv
      rw [heq]
      refine iff_of_false (fun hs => ?_) (by simp [hv, Nat.not_le.mpr hv])
      exact Diagnostics.ne_of_grows_error (Diagnostics.Grows.refl line _) (congrArg Prod.snd hs)
    · rw [address_of_fits h (Nat.not_lt.mp hv), Check.pure_bind, hf]
      simp [hv, Nat.not_lt.mp hv]

theorem silentAt_dest_src1 {args : List Str} {inst : Instruction} {f : Instruction → Check β}
    {P : Prop} (hf : ∀ inst', (f inst').SilentAt d ↔ P) :
    (dest_src1 line args inst >>= f).SilentAt d ↔
      AddrDrops [args.getD 0 [], args.getD 1 []] P := by
  rw [addrDrops_cons, dest_src1, Check.bind_assoc]
  apply silentAt_address
  intro dest
  rw [Check.bind_assoc]
  apply silentAt_address
  exact fun src1 => hf _

theorem silentAt_modulus (tok : Str) (inst : Instruction) :
    (modulus line table tok inst).SilentAt d ↔ noModulus tok = true := by
  rw [noModulus]
  rcases h : to_named tok (str "m=") with - | v
  · rw [modulus_of_malformed inst h]
    exact iff_of_true rfl rfl
  · refine iff_of_false ?_ (by simp)
    by_cases hread : v.toNat < table → v.toNat ≤ kMaxModulusIndex
    · rw [modulus_of_read inst h hread]
      exact Check.not_silentAt_pure _
    · obtain ⟨hlt, hmax⟩ := Classical.not_imp.mp hread
      obtain ⟨message, heq⟩ := modulus_of_unencodable line inst h hlt (Nat.not_le.mp hmax)
      rw [heq]
      exact Check.not_silentAt_failError message

/-- Whether a read has an error yet. -/
def Diagnostics.hasErrors (d : Diagnostics) : Bool := !d.errors.isEmpty

/-- A token that is neither taken nor reported, in front of tokens that `P` says
are dropped. -/
theorem silentAt_try_modulus {tok : Str} {inst : Instruction} {f : Instruction × Bool → Check β}
    {P : Bool} (hf : ∀ r, (f r).SilentAt d ↔ (d.hasErrors && P) = true) :
    (try_modulus line table tok inst >>= f).SilentAt d ↔
      (d.hasErrors && match to_named tok (str "m=") with
        | none => true
        | some v => if v.toNat < table ∧ kMaxModulusIndex < v.toNat then false else P) = true := by
  rcases h : to_named tok (str "m=") with - | v
  · have hfail : modulus line table tok inst d = (none, d) := by
      rw [modulus_of_malformed inst h]
      rfl
    by_cases hempty : d.errors.isEmpty
    · have htry : try_modulus line table tok inst d = (some (inst, false), d) := by
        simp only [try_modulus, hfail, if_pos hempty]
      rw [Check.SilentAt, Check.bind_some htry]
      have hnone : d.hasErrors = false := by rw [Diagnostics.hasErrors, hempty]; rfl
      have := hf (inst, false)
      rw [hnone, Bool.false_and] at this ⊢
      exact this
    · have htry : try_modulus line table tok inst d = (none, d) := by
        simp only [try_modulus, hfail, if_neg hempty]
      rw [Check.SilentAt, Check.bind_none htry]
      exact iff_of_true rfl (by simp [Diagnostics.hasErrors, hempty])
  · by_cases hread : v.toNat < table ∧ kMaxModulusIndex < v.toNat
    · obtain ⟨message, heq⟩ := modulus_of_unencodable line inst h hread.1 hread.2
      have hfail : modulus line table tok inst d = (none, d.error line message) := by
        rw [heq]
        rfl
      have htry : try_modulus line table tok inst d = (none, d.error line message) := by
        simp only [try_modulus, hfail]
        exact if_neg (by simp [Diagnostics.error])
      rw [Check.SilentAt, Check.bind_none htry]
      refine iff_of_false (fun hs => ?_) (by simp [hread])
      exact Diagnostics.ne_of_grows_error (Diagnostics.Grows.refl line _) (congrArg Prod.snd hs)
    · have hok : modulus line table tok inst d = _ := congrFun
        (modulus_of_read inst h fun hlt => Nat.not_lt.mp fun hmax => hread ⟨hlt, hmax⟩) d
      have htry : ∃ inst', try_modulus line table tok inst d = (some (inst', true), d) := by
        rw [try_modulus, hok]
        exact ⟨_, rfl⟩
      obtain ⟨inst', htry⟩ := htry
      have hstep : (try_modulus line table tok inst >>= f).SilentAt d ↔
          (f (inst', true)).SilentAt d := by
        rw [Check.SilentAt, Check.bind_some htry]
        exact Iff.rfl
      rw [hstep, hf]
      simp only [if_neg hread]

/-- What follows a loop can only fail by reporting. -/
theorem silentAt_bind_loop {α : Type} {x : Check α} {f : α → Check β} {post : α → Prop}
    (hx : x.Gives line post) (hf : ∀ a d', d.Grows line d' → f a d' ≠ (none, d)) :
    (x >>= f).SilentAt d ↔ x.SilentAt d := by
  have hgrows := (hx d).1
  rcases h : x d with ⟨- | a, d'⟩
  · rw [Check.SilentAt, Check.bind_none h, Check.SilentAt, h]
    simp only [Prod.mk.injEq, true_and]
  · rw [h] at hgrows
    rw [Check.SilentAt, Check.bind_some h, Check.SilentAt, h]
    exact iff_of_false (hf a d' hgrows) (by simp)

theorem automorph_eval_operands_grows (args : List Str) : ∀ (inst : Instruction) (saw_mod : Bool),
    (automorph_eval_operands line table args inst saw_mod).Gives line fun _ => True := by
  induction args with
  | nil => exact fun _ _ => Check.gives_pure trivial
  | cons tok rest ih =>
    intro inst saw_mod
    rw [automorph_eval_operands]
    split
    · exact ih _ _
    split
    · exact ih _ _
    split
    · rename_i v _
      by_cases hv : 64 < v.toNat
      · rw [if_pos hv]
        apply Check.gives_bind (Check.gives_warn _)
        exact fun _ _ => ih _ _
      · rw [if_neg hv]
        exact ih _ _
    · apply Check.gives_bind (try_modulus_gives tok inst)
      exact fun _ _ => ih _ _

theorem automorph_coeff_operands_grows (is_rot : Bool) (args : List Str) :
    ∀ (inst : Instruction) (saw_index saw_mod : Bool),
      (automorph_coeff_operands line table is_rot args inst saw_index saw_mod).Gives line
        fun _ => True := by
  induction args with
  | nil => exact fun _ _ _ => Check.gives_pure trivial
  | cons tok rest ih =>
    intro inst saw_index saw_mod
    rw [automorph_coeff_operands]
    split
    · exact ih _ _ _
    · apply Check.gives_bind (try_modulus_gives tok inst)
      exact fun _ _ => ih _ _ _

/-- The loop over the named operands of `sr_automorph_eval`. -/
theorem silentAt_automorph_eval_operands (args : List Str) :
    ∀ (inst : Instruction) (saw_mod : Bool),
      (automorph_eval_operands line table args inst saw_mod).SilentAt d ↔
        (d.hasErrors && namedDrop table evalTakes
          (fun tok => (to_named tok (str "logn=")).isSome) args) = true := by
  induction args with
  | nil =>
    intro inst saw_mod
    rw [namedDrop, Bool.and_false]
    exact iff_of_false (Check.not_silentAt_pure _) Bool.false_ne_true
  | cons tok rest ih =>
    intro inst saw_mod
    rw [automorph_eval_operands, namedDrop, evalTakes]
    rcases hk : to_named tok (str "k=") with - | v
    · rcases hmask : to_named tok (str "mask=") with - | v
      · rcases hlogn : to_named tok (str "logn=") with - | v
        · simp only [Option.isSome_none, Option.any_none, Bool.or_self, Bool.false_eq_true, if_false]
          exact silentAt_try_modulus fun r => ih r.1 (saw_mod || r.2)
        · by_cases hv : 64 < v.toNat
          · simp only [Option.isSome_none, Option.any_some, Bool.or_self, Bool.false_or,
              decide_eq_true_eq, if_neg (Nat.not_le.mpr hv), Option.isSome_some, if_true,
              Bool.and_false, if_pos hv]
            -- the warning stays, whatever the rest of the line adds
            refine iff_of_false (fun hs => ?_) Bool.false_ne_true
            have hloop : (automorph_eval_operands line table rest inst saw_mod).Gives line _ :=
              automorph_eval_operands_grows rest inst saw_mod
            have hsame : (automorph_eval_operands line table rest inst saw_mod
              (d.warn line (str "logn out of range, ignored"))).2 = d := congrArg Prod.snd hs
            exact Diagnostics.ne_of_grows_warn (hloop _).1 hsame
          · simp only [Option.isSome_none, Option.any_some, Bool.or_self, Bool.false_or,
              decide_eq_true_eq, if_pos (Nat.not_lt.mp hv), if_neg hv]
            exact ih _ _
      · simp only [Option.isSome_some, Bool.or_true, Bool.true_or, if_true]
        exact ih _ _
    · simp only [Option.isSome_some, Bool.true_or, if_true]
      exact ih _ _

theorem silentAt_automorph_coeff_operands (is_rot : Bool) (args : List Str) :
    ∀ (inst : Instruction) (saw_index saw_mod : Bool),
      (automorph_coeff_operands line table is_rot args inst saw_index saw_mod).SilentAt d ↔
        (d.hasErrors && namedDrop table (fun tok => (to_named tok (index_name is_rot)).isSome)
          (fun _ => false) args) = true := by
  induction args with
  | nil =>
    intro inst saw_index saw_mod
    rw [namedDrop, Bool.and_false]
    exact iff_of_false (Check.not_silentAt_pure _) Bool.false_ne_true
  | cons tok rest ih =>
    intro inst saw_index saw_mod
    rw [automorph_coeff_operands, namedDrop]
    rcases to_named tok (index_name is_rot) with - | v
    · exact silentAt_try_modulus fun r => ih r.1 saw_index (saw_mod || r.2)
    · exact ih _ _ _

/-- Reporting after more has been said leaves more still. -/
theorem failWarn_ne {message : Str} {d' : Diagnostics} (hgrows : d.Grows line d') :
    (Check.failWarn line message : Check β) d' ≠ (none, d) := by
  intro hs
  obtain ⟨ws, hws, -⟩ := hgrows.warnings
  have := congrArg (fun r => r.2.warnings.length) hs
  simp only [Check.failWarn, Diagnostics.warn, hws, List.length_append, List.length_singleton] at this
  omega

theorem silentAt_coeff (inst : Instruction) (args : List Str) (is_rot : Bool) :
    (operands.coeff line table inst args is_rot).SilentAt d ↔
      4 ≤ args.length ∧ AddrDrops (args.take 2) ((d.hasErrors && namedDrop table
        (fun tok => (to_named tok (index_name is_rot)).isSome) (fun _ => false)
          (args.drop 2)) = true) := by
  refine (silentAt_need _ _ _ _).trans (and_congr_right fun hlen => ?_)
  rw [take_two (by omega)]
  apply silentAt_dest_src1
  intro inst'
  refine (silentAt_bind_loop (automorph_coeff_operands_grows _ _ _ _ _) ?_).trans
    (silentAt_automorph_coeff_operands _ _ _ _ _)
  rintro ⟨inst'', saw_index, saw_mod⟩ d' hgrows
  cases saw_index with
  | false => exact failWarn_ne hgrows
  | true =>
    cases saw_mod with
    | false => exact failWarn_ne hgrows
    | true => rintro ⟨⟩

/-- **When a line's operands fail without a word.** -/
theorem silentAt_operands (inst : Instruction) (args : List Str) :
    (operands F line table inst args).SilentAt d ↔
      operandsDrop d.hasErrors table (fh_operand_form inst.opcode) args = true := by
  rw [operandsDrop, Bool.and_eq_true, decide_eq_true_eq, Bool.or_eq_true, Bool.and_eq_true, operands]
  change _ ↔ _ ∧ AddrDrops _ _
  cases hform : fh_operand_form inst.opcode with
  | None =>
    refine iff_of_false (Check.not_silentAt_pure _) ?_
    rintro ⟨-, h⟩
    exact Bool.false_ne_true (addrDrops_nil.mp h)
  | PolyPoly =>
    refine (silentAt_need _ _ _ _).trans (and_congr_right fun hlen => ?_)
    change _ ↔ AddrDrops (args.take 3) _
    rw [take_three (by omega), addrDrops_append]
    apply silentAt_dest_src1
    intro inst'
    apply silentAt_address
    exact fun src2 => silentAt_modulus _ _
  | PolyPolyNI =>
    refine (silentAt_need _ _ _ _).trans (and_congr_right fun hlen => ?_)
    change _ ↔ AddrDrops (args.take 3) _
    rw [take_three (by omega), addrDrops_append]
    apply silentAt_dest_src1
    intro inst'
    apply silentAt_address
    exact fun src2 => iff_of_false (Check.not_silentAt_pure _) Bool.false_ne_true
  | PolyScalar =>
    refine (silentAt_need _ _ _ _).trans (and_congr_right fun hlen => ?_)
    change _ ↔ AddrDrops (args.take 2) _
    rw [take_two (by omega)]
    apply silentAt_dest_src1
    intro inst'
    rw [restDrops]
    rcases to_uint (args.getD 2 []) with - | imm
    · exact iff_of_false (Check.not_silentAt_failWarn _) Bool.false_ne_true
    · exact silentAt_modulus _ _
  | PolyScalarNI =>
    refine (silentAt_need _ _ _ _).trans (and_congr_right fun hlen => ?_)
    change _ ↔ AddrDrops (args.take 2) _
    rw [take_two (by omega)]
    apply silentAt_dest_src1
    intro inst'
    refine iff_of_false ?_ Bool.false_ne_true
    rcases to_double F (args.getD 2 []) with - | imm
    · exact Check.not_silentAt_failWarn _
    · exact Check.not_silentAt_pure _
  | UnaryMod =>
    refine (silentAt_need _ _ _ _).trans (and_congr_right fun hlen => ?_)
    change _ ↔ AddrDrops (args.take 2) _
    rw [take_two (by omega)]
    apply silentAt_dest_src1
    exact fun inst' => silentAt_modulus _ _
  -- two addresses and nothing else to read
  | UnaryNoMod =>
    refine (silentAt_need _ _ _ _).trans (and_congr_right fun hlen => ?_)
    change _ ↔ AddrDrops (args.take 2) _
    rw [take_two (by omega), ← Check.bind_pure (dest_src1 line args inst)]
    apply silentAt_dest_src1
    exact fun inst' => iff_of_false (Check.not_silentAt_pure _) Bool.false_ne_true
  | Ntt =>
    refine (silentAt_need _ _ _ _).trans (and_congr_right fun hlen => ?_)
    change _ ↔ AddrDrops (args.take 2) _
    rw [take_two (by omega)]
    apply silentAt_dest_src1
    intro inst'
    refine (silentAt_bind_loop (modulus_gives _ _) fun a d' _ => ?_).trans (silentAt_modulus _ _)
    rcases find_omega (args.drop 3) with - | w <;> rintro ⟨⟩
  | AutomorphEval =>
    refine (silentAt_need _ _ _ _).trans (and_congr_right fun hlen => ?_)
    change _ ↔ AddrDrops (args.take 2) _
    rw [take_two (by omega)]
    apply silentAt_dest_src1
    intro inst'
    refine (silentAt_bind_loop (automorph_eval_operands_grows _ _ _) ?_).trans
      (silentAt_automorph_eval_operands _ _ _)
    rintro ⟨inst'', saw_mod⟩ d' hgrows
    cases saw_mod with
    | true => rintro ⟨⟩
    | false => exact failWarn_ne hgrows
  | AutomorphCoeff => exact silentAt_coeff inst args false
  | RotAutomorphCoeff => exact silentAt_coeff inst args true

/-! ## Addresses that are too wide -/

/-- A check fails with an error. -/
def Check.ReportsAt {α : Type} (x : Check α) (line : ℕ) (d : Diagnostics) : Prop :=
  ∃ message, x d = (none, d.error line message)

/-- The first token that is no good address is a 64-bit `%N`. -/
def AddrReports (toks : List Str) : Prop :=
  addressesDrop toks = false ∧ addressesFit toks = false

theorem addrReports_append {toks rest : List Str} (h : AddrReports (toks ++ rest)) :
    AddrReports toks ∨ (addressesFit toks = true ∧ AddrReports rest) := by
  induction toks with
  | nil => exact .inr ⟨rfl, h⟩
  | cons tok toks ih =>
    obtain ⟨hdrop, hfit⟩ := h
    simp only [AddrReports, List.cons_append, addressesDrop, addressesFit, List.all_cons] at *
    rcases htok : to_addr_token tok with - | v
    · simp [htok] at hdrop
    · by_cases hv : kMaxAddress < v.toNat
      · exact .inl ⟨if_pos hv, by simp [Nat.not_le.mpr hv]⟩
      · simp only [htok, if_neg hv, Nat.not_lt.mp hv, decide_true, Bool.true_and] at hdrop hfit ⊢
        exact ih ⟨hdrop, hfit⟩

theorem reports_address {tok : Str} {f : UInt32 → Check β} {P : Prop}
    (hf : P → ∀ v, (f v).ReportsAt line d)
    (h : AddrReports [tok] ∨ (addressesFit [tok] = true ∧ P)) :
    (address line tok >>= f).ReportsAt line d := by
  simp only [AddrReports, addressesDrop, addressesFit, List.all_cons, List.all_nil,
    Bool.and_true] at h
  rcases htok : to_addr_token tok with - | v
  · simp [htok] at h
  · by_cases hv : kMaxAddress < v.toNat
    · obtain ⟨message, heq⟩ := address_of_wide line htok hv
      rw [heq]
      exact ⟨message, rfl⟩
    · simp only [htok, if_neg hv, Nat.not_lt.mp hv, decide_true, Bool.true_eq_false, and_false,
        false_or, true_and] at h
      rw [address_of_fits htok (Nat.not_lt.mp hv), Check.pure_bind]
      exact hf h _

theorem reports_dest_src1 {args : List Str} {inst : Instruction} {f : Instruction → Check β}
    {P : Prop} (hf : P → ∀ inst', (f inst').ReportsAt line d)
    (h : AddrReports [args.getD 0 [], args.getD 1 []] ∨
      (addressesFit [args.getD 0 [], args.getD 1 []] = true ∧ P)) :
    (dest_src1 line args inst >>= f).ReportsAt line d := by
  have hfit : addressesFit [args.getD 0 [], args.getD 1 []] = true ↔
      addressesFit [args.getD 0 []] = true ∧ addressesFit [args.getD 1 []] = true := by
    simp only [addressesFit, List.all_cons, List.all_nil, Bool.and_true, Bool.and_eq_true]
  -- the first address is at fault, or it is read and the second one is
  have hsplit : AddrReports [args.getD 0 []] ∨ (addressesFit [args.getD 0 []] = true ∧
      (AddrReports [args.getD 1 []] ∨ (addressesFit [args.getD 1 []] = true ∧ P))) := by
    rcases h with h | ⟨h, hP⟩
    · replace h : AddrReports ([args.getD 0 []] ++ [args.getD 1 []]) := h
      rcases addrReports_append h with h | ⟨h, h'⟩
      · exact .inl h
      · exact .inr ⟨h, .inl h'⟩
    · exact .inr ⟨(hfit.mp h).1, .inr ⟨(hfit.mp h).2, hP⟩⟩
  rw [dest_src1, Check.bind_assoc]
  refine reports_address (fun hP dest => ?_) hsplit
  rw [Check.bind_assoc]
  exact reports_address (fun hP src1 => hf hP _) hP

theorem reports_need {opcode : FhOpcode} {args : List Str} {n : ℕ} {f : Unit → Check β}
    (h : n ≤ args.length) (hf : (f ()).ReportsAt line d) :
    (need line opcode args n >>= f).ReportsAt line d := by
  rw [need, if_pos h]
  exact hf

/-- **A wide address is an error** unless the line is dropped. -/
theorem reports_operands {inst : Instruction} {args : List Str}
    (hlen : (fh_operand_form inst.opcode).minOperands ≤ args.length)
    (hwide : AddrReports (args.take (fh_operand_form inst.opcode).addressOperands)) :
    (operands F line table inst args).ReportsAt line d := by
  rw [operands]
  -- the forms with two addresses, whatever follows them
  have htwo : ∀ {n : ℕ} {f : Instruction → Check Instruction},
      AddrReports (args.take 2) → n ≤ args.length → 2 ≤ n →
      (need line inst.opcode args n >>= fun _ =>
        dest_src1 line args inst >>= f).ReportsAt line d := by
    intro n f hwide hn h2
    rw [take_two (by omega)] at hwide
    exact reports_need hn (reports_dest_src1 (fun h : False => h.elim) (.inl hwide))
  -- and those with three
  have hthree : ∀ {n : ℕ} {f : Instruction → UInt32 → Check Instruction},
      AddrReports (args.take 3) → n ≤ args.length → 3 ≤ n →
      (need line inst.opcode args n >>= fun _ => dest_src1 line args inst >>= fun inst' =>
        address line (args.getD 2 []) >>= f inst').ReportsAt line d := by
    intro n f hwide hn h3
    rw [take_three (by omega)] at hwide
    refine reports_need hn (reports_dest_src1 (fun hP inst' => ?_) (addrReports_append hwide))
    exact reports_address (fun h : False => h.elim) (.inl hP)
  cases hform : fh_operand_form inst.opcode with
  | None =>
    rw [hform] at hwide
    exact absurd hwide.2 (by simp [OperandForm.addressOperands, addressesFit])
  | PolyPoly => rw [hform] at hlen hwide; exact hthree hwide hlen (by decide)
  | PolyPolyNI => rw [hform] at hlen hwide; exact hthree hwide hlen (by decide)
  | PolyScalar => rw [hform] at hlen hwide; exact htwo hwide hlen (by decide)
  | PolyScalarNI => rw [hform] at hlen hwide; exact htwo hwide hlen (by decide)
  | UnaryMod => rw [hform] at hlen hwide; exact htwo hwide hlen (by decide)
  | UnaryNoMod =>
    rw [hform] at hlen hwide
    change (need line inst.opcode args 2 >>= fun _ => dest_src1 line args inst).ReportsAt line d
    rw [← Check.bind_pure (dest_src1 line args inst)]
    exact htwo hwide hlen (by decide)
  | Ntt => rw [hform] at hlen hwide; exact htwo hwide hlen (by decide)
  | AutomorphEval => rw [hform] at hlen hwide; exact htwo hwide hlen (by decide)
  | AutomorphCoeff => rw [hform] at hlen hwide; exact htwo hwide hlen (by decide)
  | RotAutomorphCoeff => rw [hform] at hlen hwide; exact htwo hwide hlen (by decide)

/-! ## A line -/

/-- A trimmed line that should hold an instruction. -/
def HoldsInstruction (t : Str) : Prop :=
  Reader.lineKind t = .instruction ∧ instruction_body t ≠ []

/-- `%N` with `N` past the largest address, of any number of digits. -/
def wideAddress (tok : Str) : Bool :=
  match strip_comma tok with
  | [] => false
  | c :: cs =>
    c = 0x25 && match strip_comma cs with
      | [] => false
      | d :: ds =>
        !(d = 0x2D || d = 0x2B) && (strtoull (d :: ds)).rest.isEmpty &&
          ((strtoull (d :: ds)).erange || kMaxAddress < (strtoull (d :: ds)).value)

/-- A known opcode, enough operands, and a wide address among the addresses. -/
def HasWideAddress (t : Str) : Prop :=
  ∃ opcode, fh_opcode_from_mnemonic (lower ((tokens (instruction_body t)).headD [])) = some opcode ∧
    (fh_operand_form opcode).minOperands ≤ (tokens (instruction_body t)).tail.length ∧
    ∃ tok ∈ (tokens (instruction_body t)).tail.take (fh_operand_form opcode).addressOperands,
      wideAddress tok = true

theorem silentAt_instruction {t : Str} (hbody : instruction_body t ≠ []) :
    (instruction F line table t).SilentAt d ↔ dropsSilently d.hasErrors table t = true := by
  simp only [instruction, dropsSilently, if_neg (mt List.isEmpty_iff.mp hbody)]
  rcases fh_opcode_from_mnemonic (lower ((tokens (instruction_body t)).headD [])) with - | opcode
  · exact iff_of_false (Check.not_silentAt_failWarn _) Bool.false_ne_true
  · exact silentAt_operands _ _

/-- A wide address is not one an instruction can hold. -/
theorem not_fit_of_wideAddress {tok : Str} (h : wideAddress tok = true) :
    addressesFit [tok] = false := by
  simp only [addressesFit, List.all_cons, List.all_nil, Bool.and_true, to_addr_token]
  revert h
  rw [wideAddress]
  rcases strip_comma tok with - | ⟨c, cs⟩
  · exact fun h => absurd h Bool.false_ne_true
  · intro h
    obtain ⟨hc, h⟩ := Bool.and_eq_true_iff.mp h
    revert h
    simp only [if_pos (decide_eq_true_eq.mp hc), to_uint]
    rcases strip_comma cs with - | ⟨d, ds⟩
    · exact fun _ => rfl
    · intro h
      simp only [Bool.and_eq_true, Bool.not_eq_true', Bool.or_eq_true, decide_eq_true_eq] at h
      obtain ⟨⟨hsign, hrest⟩, hrange⟩ := h
      simp only [hsign, hrest, Bool.false_eq_true, if_false, Bool.not_true, Bool.or_false]
      by_cases herange : (strtoull (d :: ds)).erange
      · rw [if_pos herange]
      · rw [if_neg herange]
        have hlt := strtoull_value_lt (d :: ds)
        -- not out of range for `strtoull`, but too large for an address
        have hval : kMaxAddress < (strtoull (d :: ds)).value := hrange.resolve_left herange
        simp only [UInt64.toNat_ofNat', Nat.mod_eq_of_lt hlt, decide_eq_false (Nat.not_le.mpr hval)]

theorem reports_instruction {t : Str} (hbody : instruction_body t ≠ []) (hwide : HasWideAddress t)
    (hdrop : dropsSilently d.hasErrors table t = false) :
    (instruction F line table t).ReportsAt line d := by
  obtain ⟨opcode, hopcode, hlen, tok, htok, hwide⟩ := hwide
  simp only [dropsSilently, hopcode, operandsDrop, decide_eq_true hlen, Bool.true_and,
    Bool.or_eq_false_iff] at hdrop
  simp only [instruction, if_neg (mt List.isEmpty_iff.mp hbody), hopcode]
  refine reports_operands hlen ⟨hdrop.1, ?_⟩
  -- one token that does not fit is enough
  obtain ⟨before, after, heq⟩ := List.append_of_mem htok
  have htokfit := not_fit_of_wideAddress hwide
  rw [addressesFit, List.all_cons, List.all_nil, Bool.and_true] at htokfit
  rw [heq, addressesFit, List.all_append, List.all_cons, htokfit, Bool.false_and, Bool.and_false]

end Operands

/-! ## What a read adds, by line number -/

section GrewBy

variable {α : Type} {number : α → ℕ} {lo mid hi : ℕ} {l l' l'' : List α}

/-- A list grew by elements numbered past `lo`, up to `hi`. -/
def GrewBy (number : α → ℕ) (lo hi : ℕ) (l l' : List α) : Prop :=
  ∃ added, l' = l ++ added ∧ ∀ x ∈ added, lo < number x ∧ number x ≤ hi

theorem GrewBy.refl : GrewBy number lo hi l l :=
  ⟨[], (List.append_nil l).symm, fun _ h => absurd h List.not_mem_nil⟩

theorem GrewBy.trans (hlo : lo ≤ mid) (hhi : mid ≤ hi) (h : GrewBy number lo mid l l')
    (h' : GrewBy number mid hi l' l'') : GrewBy number lo hi l l'' := by
  obtain ⟨xs, hxs, hnum⟩ := h
  obtain ⟨ys, hys, hnum'⟩ := h'
  refine ⟨xs ++ ys, by rw [hys, hxs, List.append_assoc], fun x hx => ?_⟩
  rcases List.mem_append.mp hx with hx | hx
  · exact ⟨(hnum x hx).1, (hnum x hx).2.trans hhi⟩
  · exact ⟨Nat.lt_of_le_of_lt hlo (hnum' x hx).1, (hnum' x hx).2⟩

theorem GrewBy.of_exact {n : ℕ} (h : ∃ added, l' = l ++ added ∧ ∀ x ∈ added, number x = n + 1) :
    GrewBy number n (n + 1) l l' := by
  obtain ⟨added, heq, hnum⟩ := h
  exact ⟨added, heq, fun x hx => by rw [hnum x hx]; omega⟩

end GrewBy

namespace Reader

/-- A read went on: its line number rose, and what it added is numbered past
where it was. -/
structure Grew (r r' : Reader) : Prop where
  line_le : r.line_ ≤ r'.line_
  instructions : GrewBy Instruction.line_number r.line_ r'.line_ r.result_.program.instructions
    r'.result_.program.instructions
  errors : GrewBy ReadDiagnostic.line_number r.line_ r'.line_ r.result_.errors r'.result_.errors
  warnings : GrewBy ReadDiagnostic.line_number r.line_ r'.line_ r.result_.warnings
    r'.result_.warnings

theorem Grew.trans {r r' r'' : Reader} (h : r.Grew r') (h' : r'.Grew r'') : r.Grew r'' :=
  ⟨h.line_le.trans h'.line_le, h.instructions.trans h.line_le h'.line_le h'.instructions,
    h.errors.trans h.line_le h'.line_le h'.errors,
    h.warnings.trans h.line_le h'.line_le h'.warnings⟩

theorem grew_of_reads {F : FloatText} {t : Str} {r r' : Reader} (h : Reads F t r.next r') :
    r'.line_ = r.line_ + 1 ∧ r.Grew r' := by
  have hle : r.line_ ≤ r.line_ + 1 := Nat.le_succ _
  cases h with
  | skip | header | note | entry => exact ⟨rfl, hle, GrewBy.refl, GrewBy.refl, GrewBy.refl⟩
  | error message =>
    refine ⟨rfl, hle, GrewBy.refl, GrewBy.of_exact ⟨[_], rfl, ?_⟩, GrewBy.refl⟩
    rintro e he
    rw [List.mem_singleton.mp he]
    rfl
  | instruction hkind =>
    rcases h : lineInstruction F r.next t with ⟨- | inst, d⟩
    · obtain ⟨hgrows, -⟩ := lineInstruction_spec h
      rw [instruction_line_of_none h]
      exact ⟨rfl, hle, GrewBy.refl, GrewBy.of_exact hgrows.errors, GrewBy.of_exact hgrows.warnings⟩
    · obtain ⟨hgrows, hpost⟩ := lineInstruction_spec h
      rw [instruction_line_of_some h]
      refine ⟨rfl, hle, GrewBy.of_exact ⟨[inst], rfl, ?_⟩, GrewBy.of_exact hgrows.errors,
        GrewBy.of_exact hgrows.warnings⟩
      intro x hx
      rw [List.mem_singleton.mp hx]
      exact (hpost inst rfl).2

theorem read_lines_grew {F : FloatText} (lines : List Str) : ∀ {r r' : Reader},
    read_lines F r lines = some r' → r'.line_ = r.line_ + lines.length ∧ r.Grew r' := by
  induction lines with
  | nil =>
    intro r r' h
    obtain rfl := Option.some.inj h
    exact ⟨rfl, Nat.le_refl _, GrewBy.refl, GrewBy.refl, GrewBy.refl⟩
  | cons line rest ih =>
    intro r r' h
    rw [read_lines, List.foldlM_cons] at h
    obtain ⟨r₁, hline, hrest⟩ := Option.bind_eq_some_iff.mp h
    obtain ⟨hn, hgrew⟩ := grew_of_reads (reads_of_read_line hline)
    obtain ⟨hn', hgrew'⟩ := ih hrest
    refine ⟨?_, hgrew.trans hgrew'⟩
    rw [hn', hn, List.length_cons]
    omega

/-- A read, cut at one of its lines. -/
theorem read_lines_split {F : FloatText} {lines : List Str} {r r' : Reader} {i : ℕ} {line : Str}
    (hline : lines[i]? = some line) (h : read_lines F r lines = some r') :
    ∃ before after, read_lines F r (lines.take i) = some before ∧
      read_line F before line = some after ∧ read_lines F after (lines.drop (i + 1)) = some r' := by
  obtain ⟨hi, hget⟩ := List.getElem?_eq_some_iff.mp hline
  have hcut : lines = lines.take i ++ line :: lines.drop (i + 1) := by
    rw [← hget, ← List.drop_eq_getElem_cons hi, List.take_append_drop]
  rw [read_lines, hcut, List.foldlM_append] at h
  obtain ⟨before, hbefore, h⟩ := Option.bind_eq_some_iff.mp h
  rw [List.foldlM_cons] at h
  obtain ⟨after, hafter, h⟩ := Option.bind_eq_some_iff.mp h
  exact ⟨before, after, hbefore, hafter, h⟩

end Reader

/-! ## Every line is accounted for, or dropped -/

/-- A line gave its instruction or left a diagnostic with its number, and a wide
address on it fails the read. -/
structure LineAccounted (r : ReadResult) (t : Str) (n : ℕ) : Prop where
  reported : (r.program.instructions.filter fun inst => inst.line_number = n).length = 1 ∨
    ∃ e ∈ r.errors ++ r.warnings, e.line_number = n
  wide : HasWideAddress t → r.ok = false

section Count

variable {α : Type} {number : α → ℕ} {lo hi n : ℕ} {l l' : List α}

/-- Growing past `n` or short of it adds nothing numbered `n`. -/
theorem GrewBy.filter_eq (h : GrewBy number lo hi l l') (hn : n ≤ lo ∨ hi < n) :
    l'.filter (fun x => number x = n) = l.filter fun x => number x = n := by
  obtain ⟨added, rfl, hnum⟩ := h
  have hnil : added.filter (fun x => number x = n) = [] := by
    rw [List.filter_eq_nil_iff]
    intro x hx
    have := hnum x hx
    rw [decide_eq_true_eq]
    omega
  rw [List.filter_append, hnil, List.append_nil]

theorem GrewBy.exists_number_iff (h : GrewBy number lo hi l l') (hn : n ≤ lo ∨ hi < n) :
    (∃ x ∈ l', number x = n) ↔ ∃ x ∈ l, number x = n := by
  have heq := h.filter_eq hn
  have hmem : ∀ xs : List α, (∃ x ∈ xs, number x = n) ↔
      xs.filter (fun x => number x = n) ≠ [] := by
    intro xs
    rw [Ne, List.filter_eq_nil_iff]
    simp
  rw [hmem, hmem, heq]

end Count

/-- Diagnostics that changed hold one of the line. -/
theorem Diagnostics.Grows.exists_of_ne {line : ℕ} {d d' : Diagnostics} (h : d.Grows line d')
    (hne : d' ≠ d) : ∃ e ∈ d'.errors ++ d'.warnings, e.line_number = line := by
  obtain ⟨⟨es, hes, hnum⟩, ⟨ws, hws, hnum'⟩⟩ := h
  rcases es with - | ⟨e, es⟩
  · rcases ws with - | ⟨w, ws⟩
    · refine absurd ?_ hne
      rcases d, d' with ⟨⟨_, _⟩, ⟨_, _⟩⟩
      simp only [List.append_nil] at hes hws
      rw [hes, hws]
    · refine ⟨w, List.mem_append_right _ ?_, hnum' w List.mem_cons_self⟩
      rw [hws]
      exact List.mem_append_right _ List.mem_cons_self
  · refine ⟨e, List.mem_append_left _ ?_, hnum e List.mem_cons_self⟩
    rw [hes]
    exact List.mem_append_right _ List.mem_cons_self

/-- Nothing of a read is numbered past where it is. -/
theorem Reader.not_numbered {F : FloatText} {lines : List Str} {r : Reader} {n : ℕ}
    (h : Reader.read_lines F {} lines = some r) (hn : lines.length < n) :
    (r.result_.program.instructions.filter fun inst => inst.line_number = n) = [] ∧
      ¬ ∃ e ∈ r.result_.errors ++ r.result_.warnings, e.line_number = n := by
  obtain ⟨hline, hgrew⟩ := Reader.read_lines_grew lines h
  have hpast : n ≤ 0 ∨ r.line_ < n := .inr (by rw [hline]; show 0 + _ < n; omega)
  refine ⟨hgrew.instructions.filter_eq hpast, ?_⟩
  rintro ⟨e, he, hnum⟩
  rcases List.mem_append.mp he with he | he
  · obtain ⟨e', he', -⟩ := (hgrew.errors.exists_number_iff hpast).mp ⟨e, he, hnum⟩
    exact absurd he' List.not_mem_nil
  · obtain ⟨e', he', -⟩ := (hgrew.warnings.exists_number_iff hpast).mp ⟨e, he, hnum⟩
    exact absurd he' List.not_mem_nil

/-- What is numbered by a line that was read is there already. -/
theorem Reader.reported_iff {F : FloatText} {lines : List Str} {r r' : Reader}
    (h : Reader.read_lines F r lines = some r') :
    (r'.result_.program.instructions.filter fun inst => inst.line_number = r.line_) =
        (r.result_.program.instructions.filter fun inst => inst.line_number = r.line_) ∧
      ((∃ e ∈ r'.result_.errors ++ r'.result_.warnings, e.line_number = r.line_) ↔
        ∃ e ∈ r.result_.errors ++ r.result_.warnings, e.line_number = r.line_) := by
  obtain ⟨-, hgrew⟩ := Reader.read_lines_grew lines h
  have hpast : r.line_ ≤ r.line_ ∨ r'.line_ < r.line_ := .inl (Nat.le_refl _)
  refine ⟨hgrew.instructions.filter_eq hpast, ?_⟩
  simp only [List.mem_append, or_and_right, exists_or]
  exact or_congr (hgrew.errors.exists_number_iff hpast) (hgrew.warnings.exists_number_iff hpast)

/-- **A line is accounted for exactly when its operands do not drop it** at the
state before it: whether the read has an error yet, and the size of the modulus
table. -/
theorem line_accounted_iff (F : FloatText) (text : Str) (r : ReadResult) (i : ℕ) (line : Str)
    (hread : read_fhetch_text F text = some r) (hline : (getlines text)[i]? = some line)
    (hinst : HoldsInstruction (trim line)) :
    ∃ before, Reader.read_lines F {} ((getlines text).take i) = some before ∧
      (LineAccounted r (trim line) (i + 1) ↔
        dropsSilently before.result_.toDiagnostics.hasErrors
          before.result_.program.modulus_table.length (trim line) = false) := by
  obtain ⟨final, hlines, rfl⟩ := Option.map_eq_some_iff.mp hread
  obtain ⟨before, after, hbefore, hafter, hrest⟩ := Reader.read_lines_split hline hlines
  refine ⟨before, hbefore, ?_⟩
  obtain ⟨hkind, hbody⟩ := hinst
  have hi : i < (getlines text).length := (List.getElem?_eq_some_iff.mp hline).1
  have hlen : ((getlines text).take i).length = i := List.length_take_of_le hi.le
  have hnext : before.next.line_ = i + 1 := by
    show before.line_ + 1 = i + 1
    rw [(Reader.read_lines_grew _ hbefore).1, hlen]
    show 0 + i + 1 = i + 1
    rw [Nat.zero_add]
  obtain ⟨hnone, hnodiag⟩ := Reader.not_numbered hbefore (show _ < i + 1 by omega)
  -- the line is read at `before.next`, and nothing after it carries its number
  simp only [Reader.read_line, hkind] at hafter
  replace hafter : before.next.instruction_line F (trim line) = after := Option.some.inj hafter
  have hreported := Reader.reported_iff hrest
  have hsilent : before.next.lineInstruction F (trim line) = (none, before.result_.toDiagnostics) ↔
      dropsSilently before.result_.toDiagnostics.hasErrors
        before.result_.program.modulus_table.length (trim line) = true :=
    silentAt_instruction hbody
  have hreports : HasWideAddress (trim line) → dropsSilently before.result_.toDiagnostics.hasErrors
      before.result_.program.modulus_table.length (trim line) = false →
      ∃ message, before.next.lineInstruction F (trim line) =
        (none, before.result_.toDiagnostics.error before.next.line_ message) :=
    reports_instruction hbody
  generalize dropsSilently _ _ _ = drops at *
  rcases hL : before.next.lineInstruction F (trim line) with ⟨- | inst, d⟩
  · obtain ⟨hgrows, -⟩ := Reader.lineInstruction_spec hL
    rw [Reader.instruction_line_of_none hL] at hafter
    rw [hL] at hsilent hreports
    subst hafter
    rw [hnext] at hgrows
    rw [show (before.next.withDiagnostics d).line_ = i + 1 from hnext] at hreported
    constructor
    · rintro ⟨hrep, -⟩
      by_contra hdrop
      have hsame := hsilent.mpr (eq_true_of_ne_false hdrop)
      rcases hrep with hcount | hdiag
      · rw [show final.finish.program.instructions.filter _ = _ from hreported.1] at hcount
        exact absurd (hcount.symm.trans (congrArg List.length hnone)) (by decide)
      · refine hnodiag ?_
        rw [← (Prod.mk.inj hsame).2]
        exact hreported.2.mp hdiag
    · rintro rfl
      have hne : d ≠ before.result_.toDiagnostics := fun h =>
        Bool.false_ne_true (hsilent.mp (by rw [h]))
      refine ⟨.inr (hreported.2.mpr (hgrows.exists_of_ne hne)), fun hwide => ?_⟩
      obtain ⟨message, heq⟩ := hreports hwide rfl
      -- the error is still there at the end
      obtain ⟨-, hgrew⟩ := Reader.read_lines_grew _ hrest
      obtain ⟨added, herrors, -⟩ := hgrew.errors
      show final.result_.errors.isEmpty = false
      rw [herrors, show (before.next.withDiagnostics d).result_.errors = d.errors from rfl,
        (Prod.mk.inj heq).2, Diagnostics.error]
      simp
  · rw [Reader.instruction_line_of_some hL] at hafter
    have hnum := ((Reader.lineInstruction_spec hL).2 inst rfl).2
    rw [hL] at hsilent hreports
    subst hafter
    have hdrop : drops = false := eq_false_of_ne_true fun h => by
      simpa using congrArg Prod.fst (hsilent.mpr h)
    refine iff_of_true ⟨.inl ?_, fun hwide => ?_⟩ hdrop
    · rw [show ((before.next.withDiagnostics d).append inst).line_ = i + 1 from hnext] at hreported
      rw [show final.finish.program.instructions.filter _ = _ from hreported.1]
      show ((before.result_.program.instructions ++ [inst]).filter _).length = 1
      rw [List.filter_append, hnone, List.nil_append, List.filter_singleton, hnum, hnext]
      simp
    · obtain ⟨message, heq⟩ := hreports hwide hdrop
      simpa using congrArg Prod.fst heq

instance (t : Str) : Decidable (HoldsInstruction t) := inferInstanceAs (Decidable (_ ∧ _))

/-- An address of twenty digits: no 64-bit number, so no address to refuse. -/
def twentyDigits : Str := str "sr_addp %99999999999999999999, %2, %3, m=0"

theorem line_lost_twentyDigits :
    (getlines twentyDigits)[0]? = some twentyDigits ∧ HoldsInstruction (trim twentyDigits) ∧
      HasWideAddress (trim twentyDigits) ∧
      ∃ r, read_fhetch_text zeroFloatText twentyDigits = some r ∧ r.ok = true ∧
        ¬ LineAccounted r (trim twentyDigits) 1 := by
  have hwide : HasWideAddress (trim twentyDigits) :=
    ⟨.FH_SR_ADDP, by decide, by decide, str "%99999999999999999999,", by decide, by decide⟩
  refine ⟨by decide, by decide, hwide, _, rfl, by decide, fun h => ?_⟩
  exact absurd (h.wide hwide) (by decide)

/-- A literal modulus, a comment, and an instruction the reader takes. -/
def plainText : Str := str "# one line\nsr_addp %1, %2, %3, m=97"

theorem line_accounted_iff_plainText :
    ∃ r, read_fhetch_text zeroFloatText plainText = some r ∧
      ∃ before, Reader.read_lines zeroFloatText {} ((getlines plainText).take 1) = some before ∧
        (LineAccounted r (trim (str "sr_addp %1, %2, %3, m=97")) 2 ↔
          dropsSilently before.result_.toDiagnostics.hasErrors
            before.result_.program.modulus_table.length
            (trim (str "sr_addp %1, %2, %3, m=97")) = false) :=
  ⟨_, rfl, line_accounted_iff zeroFloatText plainText _ 1 _ rfl (by decide) (by decide)⟩

end Fhetch
