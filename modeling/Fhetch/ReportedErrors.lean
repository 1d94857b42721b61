/-
What an instruction that is reported as an error still does.

A handler resolves its modulus first, and a lookup that fails counts an error and
gives 0. It is not told apart from a modulus of 0: the handler goes on with its
own checks, and when these pass it computes modulo 0, stores what it got and says
it succeeded. Only an error that a handler's own checks find ends the instruction.

So an instruction that is reported leaves the memory alone when its modulus
resolves, or when its own checks would have stopped it anyway, and otherwise it
does not.
-/
import Fhetch.Locality

set_option autoImplicit false

namespace Fhetch

open FhOpcode

/-! ## What is checked -/

/-- The modulus is there, and is a literal or an index of the table. -/
def Setup.Resolves (S : Setup) (inst : Instruction) : Prop :=
  ∃ m, inst.modulus = some m ∧ (inst.modulus_is_literal = true ∨ m.toNat < S.trace.modulus_table.length)

namespace Impl

/-- An operand of the wrong length. -/
def Short (s : Impl) (addr : UInt32) : Prop := (s.get_or_zero addr.toNat).length ≠ s.ring_dim

/-- No cached table answers for the omega, and it is no primitive root. -/
def OmegaRefused (s : Impl) (inst : Instruction) (q : ℕ) : Prop :=
  s.ntt_tables.lookup (q, inst.omega.map UInt64.toNat) = none ∧
    ∃ root, inst.omega = some root ∧ is_primitive_2n_root root.toNat s.ring_dim q = false

/-- The checks of a handler behind the modulus lookup, in the words of the source.
`sr_mulps` by 0 makes none. -/
def Rejects (s : Impl) (inst : Instruction) : Prop :=
  match inst.opcode with
  | FH_SR_ADDP | FH_SR_SUBP | FH_SR_MULP => s.Short inst.src1 ∨ s.Short inst.src2
  | FH_SR_ADDPS | FH_SR_ADDPS_COEFF | FH_SR_SUBPS | FH_SR_SUBPS_COEFF | FH_SR_NEGP => s.Short inst.src1
  | FH_SR_MULPS => inst.imm ≠ 0 ∧ s.Short inst.src1
  | FH_SR_NTT | FH_SR_INTT =>
    s.Short inst.src1 ∨ s.OmegaRefused inst (s.resolve_modulus inst).2
  | FH_SR_AUTOMORPH_EVAL => s.Short inst.src1 ∨ inst.k = none
  | FH_SR_ROT_AUTOMORPH_COEFF => s.Short inst.src1 ∨ inst.offset = none
  | _ => False

/-- A modulus that resolves counts no error, and one that does not counts one and
is taken for 0. -/
theorem resolve_modulus_cases (s : Impl) (inst : Instruction) :
    (s.Resolves inst ∧ (s.resolve_modulus inst).1 = s) ∨
      (¬ s.Resolves inst ∧ s.resolve_modulus inst = (s.error, 0)) := by
  rw [resolve_modulus, Setup.Resolves]
  rcases inst.modulus with - | m
  · exact Or.inr ⟨fun ⟨m, hm, _⟩ => absurd hm (by simp), rfl⟩
  · by_cases hliteral : inst.modulus_is_literal = true
    · exact Or.inl ⟨⟨m, rfl, Or.inl hliteral⟩, by simp only [if_pos hliteral]⟩
    · simp only [if_neg hliteral]
      by_cases hm : m.toNat < s.trace.modulus_table.length
      · refine Or.inl ⟨⟨m, rfl, Or.inr hm⟩, ?_⟩
        rw [List.getElem?_eq_getElem hm]
      · refine Or.inr ⟨?_, ?_⟩
        · rintro ⟨m', hm', h⟩
          obtain rfl := Option.some.inj hm'
          exact h.elim hliteral hm
        · rw [List.getElem?_eq_none (Nat.not_lt.mp hm)]

end Impl

/-! ## A kernel's own checks -/

/-- A kernel whose checks are `refused`: it reports exactly then, and before it
computes. -/
structure Checked (refused : Impl → ℕ → Prop)
    (kernel : Impl → ℕ → Poly → Poly → Option (Impl × Option Poly)) : Prop where
  stops : ∀ {s q} a out, refused s q → kernel s q a out = some (s.error, none)
  goes : ∀ {s q a out r}, ¬ refused s q → kernel s q a out = some r →
    r.2.isSome ∧ r.1.error_count = s.error_count

/-- A kernel that only computes a vector checks nothing. -/
theorem Checked.of_pure (f : Impl → ℕ → Poly → Option Poly) :
    Checked (fun _ _ => False) fun s q a _ => (f s q a).map fun result => (s, some result) where
  stops _ _ h := h.elim
  goes _ h := by
    obtain ⟨result, -, rfl⟩ := Option.map_eq_some_iff.mp h
    exact ⟨rfl, rfl⟩

section Frames

variable {s s' : Impl} {inst : Instruction} {ok : Bool}

theorem exec_pp_rejects (op : ℕ → Poly → Poly → Option Poly)
    (h : s.Short inst.src1 ∨ s.Short inst.src2) :
    exec_pp op s inst = some ((s.resolve_modulus inst).1.error, false) := by
  rw [exec_pp_eq]
  exact if_pos h

theorem exec_pp_accepts {op : ℕ → Poly → Poly → Option Poly}
    (h : ¬ (s.Short inst.src1 ∨ s.Short inst.src2)) (hexec : exec_pp op s inst = some (s', ok)) :
    ok = true ∧ s'.error_count = (s.resolve_modulus inst).1.error_count := by
  have hlength : ¬ ((s.get_or_zero inst.src1.toNat).length ≠ s.ring_dim ∨
      (s.get_or_zero inst.src2.toNat).length ≠ s.ring_dim) := h
  rw [exec_pp_eq, if_neg hlength] at hexec
  obtain ⟨result, -, hr⟩ := Option.map_eq_some_iff.mp hexec
  obtain ⟨rfl, rfl⟩ := Prod.mk.inj hr
  exact ⟨rfl, rfl⟩

variable {refused : Impl → ℕ → Prop}
  {kernel : Impl → ℕ → Poly → Poly → Option (Impl × Option Poly)}

theorem exec_src1_rejects (hk : Checked refused kernel)
    (h : s.Short inst.src1 ∨ refused (s.resolve_modulus inst).1 (s.resolve_modulus inst).2) :
    exec_src1 kernel s inst = some ((s.resolve_modulus inst).1.error, false) := by
  rw [exec_src1_eq]
  by_cases hshort : (s.get_or_zero inst.src1.toNat).length ≠ s.ring_dim
  · exact if_pos hshort
  · rw [if_neg hshort, hk.stops _ _ (h.resolve_left hshort)]
    rfl

theorem exec_src1_accepts (hk : Checked refused kernel)
    (h : ¬ (s.Short inst.src1 ∨ refused (s.resolve_modulus inst).1 (s.resolve_modulus inst).2))
    (hexec : exec_src1 kernel s inst = some (s', ok)) :
    ok = true ∧ s'.error_count = (s.resolve_modulus inst).1.error_count := by
  have hlength : ¬ (s.get_or_zero inst.src1.toNat).length ≠ s.ring_dim := fun hl => h (Or.inl hl)
  rw [exec_src1_eq, if_neg hlength] at hexec
  obtain ⟨⟨s₁, result⟩, hkernel, hr⟩ := Option.map_eq_some_iff.mp hexec
  obtain ⟨hsome, hcount⟩ := hk.goes (fun href => h (Or.inr href)) hkernel
  obtain ⟨result, rfl⟩ := Option.isSome_iff_exists.mp hsome
  obtain ⟨rfl, rfl⟩ := Prod.mk.inj hr
  exact ⟨rfl, hcount⟩

end Frames

/-! ## The handlers' checks -/

variable (M : NativeMath)

theorem addps_checked (imm : ℕ) : Checked (fun _ _ => False) fun s q a _ =>
    if imm = 0 then some (s, some a)
    else (M.ModAddEq q a imm).map fun result => (s, some result) := by
  by_cases h : imm = 0
  · simp only [if_pos h]
    exact Checked.of_pure fun _ _ a => some a
  · simp only [if_neg h]
    exact Checked.of_pure fun _ q a => M.ModAddEq q a imm

theorem ntt_tables_for_refused {s : Impl} {inst : Instruction} {q : ℕ} (h : s.OmegaRefused inst q) :
    ntt_tables_for M s inst q = some (s.error, none) := by
  obtain ⟨hlookup, root, homega, hroot⟩ := h
  rw [homega] at hlookup
  simp only [ntt_tables_for, homega, hlookup, hroot, Bool.false_eq_true, if_false]

/-- A transform reports the omega that is refused, and nothing else. -/
theorem transform_checked (inst : Instruction) (transform : ℕ → NttTables → Poly → Option Poly) :
    Checked (fun s q => s.OmegaRefused inst q) fun s q a _ => (ntt_tables_for M s inst q).bind fun
      | (s, none) => some (s, none)
      | (s, some t) => (transform q t a).map fun result => (s, some result) where
  stops a out h := by
    simp only [ntt_tables_for_refused M h, Option.bind_some]
  goes {s q a out r} h hkernel := by
    obtain ⟨⟨s', t⟩, ht, hr⟩ := Option.bind_eq_some_iff.mp hkernel
    rcases (ntt_tables_for_spec M ht).2 with ⟨rfl, -⟩ | ⟨hsome, hcount⟩
    · -- the tables are missing, so the omega was refused
      refine absurd ?_ h
      unfold ntt_tables_for at ht
      split at ht
      · exact absurd (Prod.mk.inj (Option.some.inj ht)).2 (by simp)
      · rename_i hlookup
        split at ht
        · rename_i root homega
          split at ht
          · obtain ⟨tables, -, he⟩ := Option.map_eq_some_iff.mp ht
            exact absurd (Prod.mk.inj he).2 (by simp)
          · rename_i hroot
            exact ⟨hlookup, root, homega, Bool.not_eq_true _ ▸ hroot⟩
        · obtain ⟨root, -, ht⟩ := Option.bind_eq_some_iff.mp ht
          obtain ⟨tables, -, he⟩ := Option.map_eq_some_iff.mp ht
          exact absurd (Prod.mk.inj he).2 (by simp)
    · obtain ⟨t, rfl⟩ := Option.isSome_iff_exists.mp hsome
      obtain ⟨result, -, rfl⟩ := Option.map_eq_some_iff.mp hr
      exact ⟨rfl, hcount⟩

theorem automorph_checked (k : Option UInt64) : Checked (fun _ _ => k = none) fun s _ a out =>
    match k with
    | none => some (s.error, none)
    | some k64 =>
      let k := k64.toNat % 2 ^ 32
      if 2 ^ 32 ≤ s.ring_dim then none
      else some (s, some (automorph_scatter (Nat.log2 s.ring_dim) k a s.ring_dim 0 k out)) where
  stops {s q} a out h := by
    subst h
    rfl
  goes {s q a out r} h hkernel := by
    obtain ⟨k64, rfl⟩ := Option.ne_none_iff_exists'.mp h
    simp only at hkernel
    split at hkernel
    · exact absurd hkernel (by simp)
    · obtain rfl := Option.some.inj hkernel
      exact ⟨rfl, rfl⟩

theorem rot_checked (offset : Option UInt64) : Checked (fun _ _ => offset = none) fun s q a _ =>
    match offset with
    | none => some (s.error, none)
    | some offset =>
      ((List.range s.ring_dim).mapM (rot_slot s.ring_dim q offset.toNat a)).map fun result =>
        (s, some result) where
  stops {s q} a out h := by
    subst h
    rfl
  goes {s q a out r} h hkernel := by
    obtain ⟨k64, rfl⟩ := Option.ne_none_iff_exists'.mp h
    obtain ⟨result, -, rfl⟩ := Option.map_eq_some_iff.mp hkernel
    exact ⟨rfl, rfl⟩

theorem omegaRefused_resolve (s : Impl) (inst : Instruction) (q : ℕ) :
    (s.resolve_modulus inst).1.OmegaRefused inst q ↔ s.OmegaRefused inst q := by
  rcases s.resolve_modulus_eq inst with h | h
  · rw [h]
  · rw [h]
    exact Iff.rfl

/-- What a dispatch does with its handler's verdict. -/
structure Verdict (s : Impl) (inst : Instruction) : Prop where
  rejects : s.Rejects inst → exec_instruction M s inst = some ((s.resolve_modulus inst).1.error, false)
  accepts : ¬ s.Rejects inst → ∀ s' ok, exec_instruction M s inst = some (s', ok) →
    ok = true ∧ s'.error_count = (s.resolve_modulus inst).1.error_count

section Dispatch

variable {M} {s : Impl} {inst : Instruction}

theorem Verdict.of_pp {op : ℕ → Poly → Poly → Option Poly}
    (hexec : exec_instruction M s inst = exec_pp op s inst)
    (hrejects : s.Rejects inst ↔ s.Short inst.src1 ∨ s.Short inst.src2) : Verdict M s inst where
  rejects h := hexec.trans (exec_pp_rejects op (hrejects.mp h))
  accepts h _ _ he := exec_pp_accepts (fun hs => h (hrejects.mpr hs)) (hexec ▸ he)

theorem Verdict.of_src1 {refused : Impl → ℕ → Prop}
    {kernel : Impl → ℕ → Poly → Poly → Option (Impl × Option Poly)} (hk : Checked refused kernel)
    (hexec : exec_instruction M s inst = exec_src1 kernel s inst)
    (hrejects : s.Rejects inst ↔ s.Short inst.src1 ∨
      refused (s.resolve_modulus inst).1 (s.resolve_modulus inst).2) : Verdict M s inst where
  rejects h := hexec.trans (exec_src1_rejects hk (hrejects.mp h))
  accepts h _ _ he := exec_src1_accepts hk (fun hs => h (hrejects.mpr hs)) (hexec ▸ he)

theorem Verdict.of_mulps (hop : inst.opcode = FH_SR_MULPS) : Verdict M s inst := by
  have hexec : exec_instruction M s inst = exec_mulps M s inst := by rw [exec_instruction, hop]
  have hrejects : s.Rejects inst ↔ inst.imm ≠ 0 ∧ s.Short inst.src1 := by rw [Impl.Rejects, hop]
  by_cases himm : inst.imm = 0
  · -- the zero fill looks at nothing
    refine ⟨fun h => absurd himm (hrejects.mp h).1, fun _ s' ok he => ?_⟩
    rw [hexec, exec_mulps, if_pos himm] at he
    obtain ⟨rfl, rfl⟩ := Prod.mk.inj (Option.some.inj he)
    exact ⟨rfl, rfl⟩
  · refine .of_src1 (.of_pure fun _ q a => M.ModMulEq q a inst.imm) ?_ ?_
    · rw [hexec, exec_mulps, if_neg himm]
    · rw [hrejects, and_iff_right himm, or_false]

end Dispatch

/-- **The dispatch.** An instruction without a handler does nothing. One with a
handler does what its checks say: it is reported and stops, or it succeeds if
there is an outcome at all. -/
theorem exec_instruction_verdict (s : Impl) (inst : Instruction) :
    ((execUses inst).writes = false ∧ exec_instruction M s inst = some (s, true)) ∨
      ((execUses inst).writes = true ∧ Verdict M s inst) := by
  have hnone : ∀ {p : Prop}, p ↔ p ∨ False := (or_iff_left not_false).symm
  obtain ⟨opcode, dest, src1, src2, immediate, fp_immediate, modulus, modulus_is_literal, omega, mask,
    logn, k, offset, line_number⟩ := inst
  cases opcode with
  | FH_SR_ADDP | FH_SR_SUBP | FH_SR_MULP => exact Or.inr ⟨rfl, .of_pp rfl Iff.rfl⟩
  | FH_SR_ADDPS | FH_SR_ADDPS_COEFF => exact Or.inr ⟨rfl, .of_src1 (addps_checked M _) rfl hnone⟩
  | FH_SR_SUBPS | FH_SR_SUBPS_COEFF =>
    exact Or.inr ⟨rfl, .of_src1 (.of_pure fun _ q a => M.ModSubEq q a _) rfl hnone⟩
  | FH_SR_NEGP =>
    exact Or.inr ⟨rfl, .of_src1
      (.of_pure fun _ q a => some (a.map fun x => if x = 0 then 0 else sub64 q x)) rfl hnone⟩
  | FH_SR_MULPS =>
    refine Or.inr ⟨?_, .of_mulps rfl⟩
    simp only [execUses, classify_uses]
    split <;> rfl
  | FH_SR_NTT | FH_SR_INTT =>
    refine Or.inr ⟨rfl, .of_src1 (transform_checked M _ _) rfl ?_⟩
    rw [omegaRefused_resolve]
    exact Iff.rfl
  | FH_SR_AUTOMORPH_EVAL => exact Or.inr ⟨rfl, .of_src1 (automorph_checked _) rfl Iff.rfl⟩
  | FH_SR_ROT_AUTOMORPH_COEFF => exact Or.inr ⟨rfl, .of_src1 (rot_checked _) rfl Iff.rfl⟩
  | _ => exact Or.inl ⟨rfl, rfl⟩

/-! ## Reported instructions -/

/-- Two libraries that agree except on what they do at modulus 0. -/
structure NativeMath.AgreeOffZero (M M' : NativeMath) : Prop where
  ModAdd : ∀ q ≠ 0, M.ModAdd q = M'.ModAdd q
  ModSub : ∀ q ≠ 0, M.ModSub q = M'.ModSub q
  ModMul : ∀ q ≠ 0, M.ModMul q = M'.ModMul q
  ModAddEq : ∀ q ≠ 0, M.ModAddEq q = M'.ModAddEq q
  ModSubEq : ∀ q ≠ 0, M.ModSubEq q = M'.ModSubEq q
  ModMulEq : ∀ q ≠ 0, M.ModMulEq q = M'.ModMulEq q
  ModMulInteger : ∀ q ≠ 0, M.ModMulInteger q = M'.ModMulInteger q
  ModInverse : ∀ q ≠ 0, M.ModInverse q = M'.ModInverse q
  PrepModMulConst : ∀ q ≠ 0, M.PrepModMulConst q = M'.PrepModMulConst q
  GetMSB : M.GetMSB = M'.GetMSB
  ReverseBits : M.ReverseBits = M'.ReverseBits
  RootOfUnity : ∀ m, ∀ q ≠ 0, M.RootOfUnity m q = M'.RootOfUnity m q
  Forward : ∀ q ≠ 0, M.ForwardTransformToBitReverseInPlace q = M'.ForwardTransformToBitReverseInPlace q
  Inverse : ∀ q ≠ 0, M.InverseTransformFromBitReverseInPlace q = M'.InverseTransformFromBitReverseInPlace q

/-- Executing an instruction counts an error: its handler does not find the
modulus, whatever becomes of it then, or the count has grown at its end. -/
def Reported (s : Impl) (inst : Instruction) : Prop :=
  ((execUses inst).writes = true ∧ ¬ s.Resolves inst) ∨
    ∃ s' ok, exec_instruction M s inst = some (s', ok) ∧ s.error_count < s'.error_count

/-- It ends without being counted as executed, with the memory as it was, and
nothing it does depends on what the library does at modulus 0. -/
structure ChangesNothing (s : Impl) (inst : Instruction) : Prop where
  memory : ∃ s', exec_instruction M s inst = some (s', false) ∧ s'.memory = s.memory
  noZero : ∀ M', M.AgreeOffZero M' → exec_instruction M' s inst = exec_instruction M s inst

theorem changesNothing_of_rejects {s : Impl} {inst : Instruction}
    (hwrites : (execUses inst).writes = true) (h : s.Rejects inst) : ChangesNothing M s inst := by
  have hstops : ∀ M', exec_instruction M' s inst = some ((s.resolve_modulus inst).1.error, false) := by
    intro M'
    rcases exec_instruction_verdict M' s inst with ⟨hno, -⟩ | ⟨-, hverdict⟩
    · exact absurd (hwrites.symm.trans hno) (by simp)
    · exact hverdict.rejects h
  exact ⟨⟨_, hstops M, s.resolve_modulus_memory inst⟩, fun M' _ => (hstops M').trans (hstops M).symm⟩

/-- **What a reported instruction changes.** It changes nothing exactly when its
modulus resolves, or the handler's own checks stop it, or there is no handler; else
it goes on modulo 0. -/
theorem reported_changes_nothing_iff (s : Impl) (inst : Instruction) :
    (Reported M s inst → ChangesNothing M s inst) ↔
      s.Resolves inst ∨ s.Rejects inst ∨ (execUses inst).writes = false := by
  rcases exec_instruction_verdict M s inst with ⟨hno, hexec⟩ | ⟨hwrites, hverdict⟩
  · refine ⟨fun _ => Or.inr (Or.inr hno), fun _ hreported => ?_⟩
    rcases hreported with ⟨hwrites, -⟩ | ⟨s', ok, he, hlt⟩
    · exact absurd (hwrites.symm.trans hno) (by simp)
    · rw [hexec] at he
      obtain ⟨rfl, -⟩ := Prod.mk.inj (Option.some.inj he)
      exact absurd hlt (lt_irrefl _)
  by_cases hrejects : s.Rejects inst
  · exact ⟨fun _ => Or.inr (Or.inl hrejects), fun _ _ => changesNothing_of_rejects M hwrites hrejects⟩
  have haccepts := hverdict.accepts hrejects
  rcases s.resolve_modulus_cases inst with ⟨hresolves, hsame⟩ | ⟨hunresolved, -⟩
  · -- nothing is reported: the lookup was fine, and the checks passed
    refine ⟨fun _ => Or.inl hresolves, fun _ hreported => ?_⟩
    rcases hreported with ⟨-, hun⟩ | ⟨s', ok, he, hlt⟩
    · exact absurd hresolves hun
    · rw [(haccepts s' ok he).2, hsame] at hlt
      exact absurd hlt (lt_irrefl _)
  · refine ⟨fun hinert => ?_, fun hcond => ?_⟩
    · obtain ⟨s', he, -⟩ := (hinert (Or.inl ⟨hwrites, hunresolved⟩)).memory
      exact absurd (haccepts s' false he).1 (by simp)
    · rcases hcond with h | h | h
      · exact absurd h hunresolved
      · exact absurd h hrejects
      · exact absurd (hwrites.symm.trans h) (by simp)

/-- One slot, and a copy whose modulus index is outside the empty table. -/
def unresolvedCopy : Instruction :=
  { opcode := FH_SR_ADDPS, dest := 2, src1 := 1, immediate := some 0, modulus := some 7 }

def fiveAtOne : Impl :=
  { ring_dim := 1, memory := Function.update Memory.empty 1 (some ⟨[5], 17, true⟩) }

/-- **A reported instruction that writes.** The error is counted, and %2 gets the
value all the same, under modulus 0. -/
theorem unresolved_copy_writes :
    Reported referenceMath fiveAtOne unresolvedCopy ∧
      ¬ ChangesNothing referenceMath fiveAtOne unresolvedCopy ∧
      (exec_instruction referenceMath fiveAtOne unresolvedCopy).map (fun r =>
        (r.1.memory 2, r.1.error_count, r.2)) = some (some ⟨[5], 0, true⟩, 1, true) := by
  have hunresolved : ¬ fiveAtOne.Resolves unresolvedCopy := by
    rintro ⟨m, hm, h⟩
    exact h.elim (by decide) (Nat.not_lt_zero _)
  have hexec : (exec_instruction referenceMath fiveAtOne unresolvedCopy).map (fun r =>
      (r.1.memory 2, r.1.error_count, r.2)) = some (some ⟨[5], 0, true⟩, 1, true) := by decide
  refine ⟨Or.inl ⟨rfl, hunresolved⟩, fun h => ?_, hexec⟩
  obtain ⟨s', he, -⟩ := h.memory
  rw [he, Option.map_some] at hexec
  exact absurd (congrArg (fun r => r.2.2) (Option.some.inj hexec)) (by simp)

end Fhetch
