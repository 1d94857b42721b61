/-
What an instruction leaves, as a function of the values of its operands
(`src/fhetch_sim/simulator.cpp`).

A kernel is handed more than its operands: the buffer of its destination, and the
tables that earlier transforms have built. Over a power of two neither shows in what it
leaves. The scatter of the automorphism covers its buffer, and tables that are found are
those that would be built. So an instruction that is counted as executed writes
`Instruction.result` of its operands, and one for which that has no outcome is not.
-/
import Fhetch.ReportedErrors

set_option autoImplicit false

namespace Fhetch

open FhOpcode

variable (M : NativeMath)

/-! ## Results -/

/-- The tables of a transform, built anew. -/
def tables_for (N q : ℕ) (omega : Option ℕ) : Option NttTables :=
  match omega with
  | some root => if is_primitive_2n_root root N q then build_ntt_tables M N q root else none
  | none => (M.RootOfUnity (2 * N) q).bind (build_ntt_tables M N q)

/-- The results of the kernels with one source. -/
def unary_result (N q : ℕ) (inst : Instruction) (a : Poly) : Option Poly :=
  match inst.opcode with
  | FH_SR_ADDPS | FH_SR_ADDPS_COEFF => if inst.imm = 0 then some a else M.ModAddEq q a inst.imm
  | FH_SR_SUBPS | FH_SR_SUBPS_COEFF => M.ModSubEq q a inst.imm
  | FH_SR_MULPS => M.ModMulEq q a inst.imm
  | FH_SR_NEGP => some (a.map fun x => if x = 0 then 0 else sub64 q x)
  | FH_SR_NTT => (tables_for M N q (inst.omega.map UInt64.toNat)).bind fun t =>
      M.ForwardTransformToBitReverseInPlace q t a
  | FH_SR_INTT => (tables_for M N q (inst.omega.map UInt64.toNat)).bind fun t =>
      M.InverseTransformFromBitReverseInPlace q t a
  | FH_SR_AUTOMORPH_EVAL => inst.k.bind fun k =>
      if 2 ^ 32 ≤ N then none
      else some (automorph_scatter (Nat.log2 N) (k.toNat % 2 ^ 32) a N 0 (k.toNat % 2 ^ 32)
        (List.replicate N 0))
  | FH_SR_ROT_AUTOMORPH_COEFF => inst.offset.bind fun offset =>
      (List.range N).mapM (rot_slot N q offset.toNat a)
  | _ => none

/-- The results of the kernels with two. -/
def binary_result (q : ℕ) (inst : Instruction) (a b : Poly) : Option Poly :=
  match inst.opcode with
  | FH_SR_ADDP => M.ModAdd q a b
  | FH_SR_SUBP => M.ModSub q a b
  | FH_SR_MULP => M.ModMul q a b
  | _ => none

/-- **What an instruction writes**, by the values of what it reads. -/
def Instruction.result (N q : ℕ) (inst : Instruction) (operands : List Poly) : Option Poly :=
  if ∀ a ∈ operands, a.length = N then
    match operands with
    | [] => if inst.opcode = FH_SR_MULPS ∧ inst.imm = 0 then some (List.replicate N 0) else none
    | [a] => unary_result M N q inst a
    | [a, b] => binary_result M q inst a b
    | _ => none
  else none

/-- The values of what an instruction reads. -/
def Impl.operands (s : Impl) (inst : Instruction) : List Poly :=
  (execUses inst).reads.map s.get_or_zero

/-! ## Tables -/

/-- Every table that was kept is the one that would be built now. -/
def Impl.Cached (s : Impl) : Prop :=
  ∀ e ∈ s.ntt_tables, tables_for M s.ring_dim e.1.1 e.1.2 = some e.2

/-- The same simulator with other tables. -/
def Impl.withTables (s : Impl) (tables : List ((ℕ × Option ℕ) × NttTables)) : Impl :=
  { s with ntt_tables := tables }

variable {M}

theorem Impl.Cached.congr {s s' : Impl} (h : s.Cached M) (hdim : s'.ring_dim = s.ring_dim)
    (htables : s'.ntt_tables = s.ntt_tables) : s'.Cached M := by
  intro e he
  rw [hdim]
  exact h e (htables ▸ he)

/-- Tables that are entered are those of their key. -/
theorem Impl.Cached.cons {s : Impl} (h : s.Cached M) {key : ℕ × Option ℕ} {t : NttTables}
    (ht : tables_for M s.ring_dim key.1 key.2 = some t) :
    (s.withTables ((key, t) :: s.ntt_tables)).Cached M := by
  intro e he
  rcases List.mem_cons.mp he with rfl | he
  · exact ht
  · exact h e he

/-- **A transform runs with the tables that would be built**, found or not, and with
none where they would not be. -/
theorem ntt_tables_for_cached {s : Impl} (h : s.Cached M) (inst : Instruction) (q : ℕ) :
    (∀ t, tables_for M s.ring_dim q (inst.omega.map UInt64.toNat) = some t →
      ∃ tables, (s.withTables tables).Cached M ∧
        ntt_tables_for M s inst q = some (s.withTables tables, some t)) ∧
    (tables_for M s.ring_dim q (inst.omega.map UInt64.toNat) = none →
      ∀ r, ntt_tables_for M s inst q = some r → r.2 = none) := by
  unfold ntt_tables_for
  rcases hlookup : s.ntt_tables.lookup (q, inst.omega.map UInt64.toNat) with - | t
  · dsimp only
    rcases homega : inst.omega with - | root
    -- no root is named, so the library's is taken
    · simp only [Option.map_none, tables_for]
      rcases hroot : M.RootOfUnity (2 * s.ring_dim) q with - | root
      · exact ⟨fun t ht => absurd ht (by simp), fun _ r hr => absurd hr (by simp)⟩
      · simp only [Option.bind_some, emplace_ntt_tables]
        refine ⟨fun t ht => ?_, fun hnone r hr => ?_⟩
        · refine ⟨((q, none), t) :: s.ntt_tables, h.cons ?_, ?_⟩
          · rw [tables_for, hroot, Option.bind_some, ht]
          · rw [ht]
            rfl
        · rw [hnone] at hr
          exact absurd hr (by simp)
    · simp only [Option.map_some, tables_for]
      by_cases hprimitive : is_primitive_2n_root root.toNat s.ring_dim q = true
      · simp only [hprimitive, if_true, emplace_ntt_tables]
        refine ⟨fun t ht => ?_, fun hnone r hr => ?_⟩
        · refine ⟨((q, some root.toNat), t) :: s.ntt_tables, h.cons ?_, ?_⟩
          · simp only [tables_for, hprimitive, if_true, ht]
          · rw [ht]
            rfl
        · rw [hnone] at hr
          exact absurd hr (by simp)
      · simp only [hprimitive, Bool.false_eq_true, if_false]
        refine ⟨fun t ht => absurd ht (by simp), fun _ r hr => ?_⟩
        rw [← Option.some.inj hr]
  · -- what is found was entered for this key
    obtain ⟨l₁, l₂, hl, -⟩ := List.lookup_eq_some_iff.mp hlookup
    have hbuilt := h ((q, inst.omega.map UInt64.toNat), t) (by simp [hl])
    dsimp only at hbuilt ⊢
    refine ⟨fun t' ht' => ⟨s.ntt_tables, h, ?_⟩, fun hnone => ?_⟩
    · rw [hbuilt] at ht'
      rw [← Option.some.inj ht']
      rfl
    · rw [hbuilt] at hnone
      exact absurd hnone (by simp)

/-! ## Kernels -/

variable (M) in
/-- A kernel that computes `f`: it gives the value where there is one, and builds tables at
most. Where there is none, it gives no result. -/
structure HasResult (N : ℕ) (f : ℕ → Poly → Option Poly)
    (kernel : Impl → ℕ → Poly → Poly → Option (Impl × Option Poly)) : Prop where
  gives : ∀ {s q a out v}, s.ring_dim = N → s.Cached M → out.length = N → f q a = some v →
    ∃ tables, (s.withTables tables).Cached M ∧
      kernel s q a out = some (s.withTables tables, some v)
  fails : ∀ {s q a out r}, s.ring_dim = N → s.Cached M → f q a = none →
    kernel s q a out = some r → r.2 = none

/-- A kernel that only computes a vector. -/
theorem HasResult.of_pure (N : ℕ) (f : ℕ → Poly → Option Poly) :
    HasResult M N f fun s q a _ => (f q a).map fun result => (s, some result) where
  gives _ hs _ hf := ⟨_, hs, by rw [hf]; rfl⟩
  fails _ _ hf h := by
    rw [hf] at h
    exact absurd h (by simp)

theorem evaluates_addps (N imm : ℕ) :
    HasResult M N (fun q a => if imm = 0 then some a else M.ModAddEq q a imm) fun s q a _ =>
      if imm = 0 then some (s, some a)
      else (M.ModAddEq q a imm).map fun result => (s, some result) := by
  by_cases himm : imm = 0
  · simp only [if_pos himm]
    exact .of_pure N fun _ a => some a
  · simp only [if_neg himm]
    exact .of_pure N fun q a => M.ModAddEq q a imm

theorem evaluates_transform (N : ℕ) (inst : Instruction)
    (transform : ℕ → NttTables → Poly → Option Poly) :
    HasResult M N (fun q a => (tables_for M N q (inst.omega.map UInt64.toNat)).bind fun t =>
        transform q t a) fun s q a _ =>
      (ntt_tables_for M s inst q).bind fun
      | (s, none) => some (s, none)
      | (s, some t) => (transform q t a).map fun result => (s, some result) where
  gives := by
    intro s q a out v hdim hs _ hf
    subst hdim
    obtain ⟨t, ht, hv⟩ := Option.bind_eq_some_iff.mp hf
    obtain ⟨tables, hcached, hfor⟩ := (ntt_tables_for_cached hs inst q).1 t ht
    refine ⟨tables, hcached, ?_⟩
    rw [hfor, Option.bind_some]
    dsimp only
    rw [hv]
    rfl
  fails := by
    intro s q a out r hdim hs hf h
    subst hdim
    obtain ⟨⟨s', t'⟩, hfor, hr⟩ := Option.bind_eq_some_iff.mp h
    obtain ⟨hsome, hnone⟩ := ntt_tables_for_cached hs inst q
    rcases ht : tables_for M s.ring_dim q (inst.omega.map UInt64.toNat) with - | t
    -- the tables are missing, or the transform has no outcome with them
    · obtain rfl : t' = none := hnone ht _ hfor
      rw [← Option.some.inj hr]
    · obtain ⟨tables, -, hbuilt⟩ := hsome t ht
      rw [hfor] at hbuilt
      obtain ⟨-, rfl⟩ := Prod.mk.inj (Option.some.inj hbuilt)
      rw [ht, Option.bind_some] at hf
      dsimp only at hr
      rw [hf] at hr
      exact absurd hr (by simp)

theorem evaluates_automorph (n : ℕ) (k : Option UInt64) :
    HasResult M (2 ^ n) (fun _ a => k.bind fun k =>
        if 2 ^ 32 ≤ 2 ^ n then none
        else some (automorph_scatter (Nat.log2 (2 ^ n)) (k.toNat % 2 ^ 32) a (2 ^ n) 0
          (k.toNat % 2 ^ 32) (List.replicate (2 ^ n) 0))) fun s _ a out =>
      match k with
      | none => some (s.error, none)
      | some k64 =>
        let k := k64.toNat % 2 ^ 32
        if 2 ^ 32 ≤ s.ring_dim then none
        else some (s, some (automorph_scatter (Nat.log2 s.ring_dim) k a s.ring_dim 0 k out)) := by
  cases k with
  | none =>
    refine ⟨fun _ _ _ hf => absurd hf (by simp), fun _ _ _ hr => ?_⟩
    rw [← Option.some.inj hr]
  | some k64 =>
    constructor
    · intro s q a out v hdim hs hout hf
      simp only [Option.bind_some] at hf
      split at hf
      · exact absurd hf (by simp)
      · rename_i hsmall
        refine ⟨s.ntt_tables, hs, ?_⟩
        simp only [hdim, if_neg hsmall]
        rw [← Option.some.inj hf, Nat.log2_two_pow]
        -- every slot of the buffer is written over
        rw [automorph_scatter_buffer _ _ a hout List.length_replicate]
        rfl
    · intro s q a out r hdim hs hf hr
      simp only [Option.bind_some] at hf
      split at hf
      · rename_i hlarge
        simp only [hdim, if_pos hlarge] at hr
        exact absurd hr (by simp)
      · exact absurd hf (by simp)

theorem evaluates_rot (N : ℕ) (offset : Option UInt64) :
    HasResult M N (fun q a => offset.bind fun offset =>
        (List.range N).mapM (rot_slot N q offset.toNat a)) fun s q a _ =>
      match offset with
      | none => some (s.error, none)
      | some offset =>
        ((List.range s.ring_dim).mapM (rot_slot s.ring_dim q offset.toNat a)).map fun result =>
          (s, some result) := by
  cases offset with
  | none =>
    refine ⟨fun _ _ _ hf => absurd hf (by simp), fun _ _ _ hr => ?_⟩
    rw [← Option.some.inj hr]
  | some offset =>
    constructor
    · intro s q a out v hdim hs _ hf
      subst hdim
      rw [Option.bind_some] at hf
      exact ⟨s.ntt_tables, hs, by simp only [hf, Option.map_some]; rfl⟩
    · intro s q a out r hdim hs hf hr
      subst hdim
      rw [Option.bind_some] at hf
      simp only [hf, Option.map_none] at hr
      exact absurd hr (by simp)

/-! ## Instructions -/

variable {s : Impl} {inst : Instruction} {q : ℕ}

variable (M) in
/-- What executing an instruction is, given the value that it should leave. -/
structure Executes (s : Impl) (inst : Instruction) (q : ℕ) (result : Option Poly) : Prop where
  gives : ∀ v, result = some v → ∃ tables, (s.withTables tables).Cached M ∧
    exec_instruction M s inst = some ((s.withTables tables).write inst.dest.toNat v q, true)
  fails : result = none → ∀ s', exec_instruction M s inst ≠ some (s', true)

theorem executes_pp {op : ℕ → Poly → Poly → Option Poly} (hs : s.Cached M)
    (hq : s.resolve_modulus inst = (s, q)) (hexec : exec_instruction M s inst = exec_pp op s inst)
    (huses : execUses inst = ⟨inst.dest.toNat, true, [inst.src1.toNat, inst.src2.toNat]⟩)
    (hresult : ∀ a b, binary_result M q inst a b = op q a b) :
    Executes M s inst q (inst.result M s.ring_dim q (s.operands inst)) := by
  have hoperands : s.operands inst = [s.get_or_zero inst.src1.toNat, s.get_or_zero inst.src2.toNat] := by
    rw [Impl.operands, huses]
    rfl
  have hstep := hexec.trans (exec_pp_eq op s inst)
  rw [hq] at hstep
  rw [hoperands, Instruction.result]
  by_cases hlength : (s.get_or_zero inst.src1.toNat).length = s.ring_dim ∧
      (s.get_or_zero inst.src2.toNat).length = s.ring_dim
  · rw [if_neg (by simp [hlength.1, hlength.2])] at hstep
    rw [if_pos (by simpa using hlength)]
    refine ⟨fun v hv => ⟨s.ntt_tables, hs, ?_⟩, fun hnone s' h => ?_⟩
    · rw [hstep, ← hresult, hv]
      rfl
    · rw [hstep, ← hresult, hnone] at h
      exact absurd h (by simp)
  · rw [if_pos (not_and_or.mp hlength)] at hstep
    rw [if_neg (by simpa using hlength)]
    exact ⟨fun v hv => absurd hv (by simp), fun _ s' h => absurd (hstep.symm.trans h) (by simp)⟩

theorem executes_src1 {kernel : Impl → ℕ → Poly → Poly → Option (Impl × Option Poly)}
    (hs : s.Cached M) (hq : s.resolve_modulus inst = (s, q))
    (hexec : exec_instruction M s inst = exec_src1 kernel s inst)
    (huses : execUses inst = ⟨inst.dest.toNat, true, [inst.src1.toNat]⟩)
    {f : ℕ → Poly → Option Poly} (hkernel : HasResult M s.ring_dim f kernel)
    (hresult : ∀ a, unary_result M s.ring_dim q inst a = f q a) :
    Executes M s inst q (inst.result M s.ring_dim q (s.operands inst)) := by
  have hoperands : s.operands inst = [s.get_or_zero inst.src1.toNat] := by
    rw [Impl.operands, huses]
    rfl
  have hstep := hexec.trans (exec_src1_eq kernel s inst)
  rw [hq] at hstep
  dsimp only at hstep
  rw [hoperands, Instruction.result]
  by_cases hlength : (s.get_or_zero inst.src1.toNat).length = s.ring_dim
  · rw [if_neg (not_not.mpr hlength)] at hstep
    rw [if_pos (by simpa using hlength)]
    rw [hresult]
    refine ⟨fun v hv => ?_, fun hnone s' h => ?_⟩
    · have hout := Memory.reserve_dest_length s.memory s.ring_dim inst.dest.toNat
      obtain ⟨tables, hcached, hgives⟩ := hkernel.gives rfl hs hout hv
      refine ⟨tables, hcached, ?_⟩
      rw [hstep, hgives]
      rfl
    · rw [hstep] at h
      obtain ⟨⟨s₁, result⟩, hr, h⟩ := Option.map_eq_some_iff.mp h
      obtain rfl : result = none := hkernel.fails rfl hs hnone hr
      exact absurd h (by simp)
  · rw [if_pos hlength] at hstep
    rw [if_neg (by simpa using hlength)]
    exact ⟨fun v hv => absurd hv (by simp), fun _ s' h => absurd (hstep.symm.trans h) (by simp)⟩

/-- The product by 0 reads nothing. -/
theorem executes_zeros (hs : s.Cached M) (hq : s.resolve_modulus inst = (s, q))
    (hop : inst.opcode = FH_SR_MULPS) (himm : inst.imm = 0) :
    Executes M s inst q (inst.result M s.ring_dim q (s.operands inst)) := by
  have huses : (execUses inst).reads = [] := by
    unfold execUses classify_uses
    simp only [hop, himm, if_true]
  have hexec : exec_instruction M s inst =
      some (s.write inst.dest.toNat (List.replicate s.ring_dim 0) q, true) := by
    simp only [exec_instruction, hop, exec_mulps, himm, if_true, hq]
  rw [Impl.operands, huses, List.map_nil, Instruction.result, if_pos (by simp),
    if_pos ⟨hop, himm⟩]
  refine ⟨fun v hv => ⟨s.ntt_tables, hs, ?_⟩, fun hnone => absurd hnone (by simp)⟩
  rw [hexec, ← Option.some.inj hv]
  rfl

/-- **One instruction.** With a modulus that resolves, over a power of two, it succeeds
exactly where its operands have a result, and writes it. -/
theorem exec_instruction_result {n : ℕ} (hdim : s.ring_dim = 2 ^ n) (hs : s.Cached M)
    (hq : s.resolve_modulus inst = (s, q)) (hwrites : (execUses inst).writes = true) :
    Executes M s inst q (inst.result M s.ring_dim q (s.operands inst)) := by
  cases hop : inst.opcode with
  | FH_SR_ADDP | FH_SR_SUBP | FH_SR_MULP =>
    refine executes_pp hs hq (by rw [exec_instruction, hop]; rfl)
      (by rw [execUses, classify_uses, hop]) fun a b => ?_
    rw [binary_result, hop]
  | FH_SR_ADDPS | FH_SR_ADDPS_COEFF =>
    refine executes_src1 hs hq (by rw [exec_instruction, hop]; rfl)
      (by rw [execUses, classify_uses, hop]) (evaluates_addps _ inst.imm) fun a => ?_
    rw [unary_result, hop]
  | FH_SR_SUBPS | FH_SR_SUBPS_COEFF =>
    refine executes_src1 hs hq (by rw [exec_instruction, hop]; rfl)
      (by rw [execUses, classify_uses, hop]) (.of_pure _ fun q a => M.ModSubEq q a inst.imm) fun a => ?_
    rw [unary_result, hop]
  | FH_SR_MULPS =>
    by_cases himm : inst.imm = 0
    · exact executes_zeros hs hq hop himm
    · refine executes_src1 hs hq ?_ ?_ (.of_pure _ fun q a => M.ModMulEq q a inst.imm) fun a => ?_
      · rw [exec_instruction, hop]
        exact if_neg himm
      · rw [execUses, classify_uses, hop]
        exact if_neg himm
      · rw [unary_result, hop]
  | FH_SR_NEGP =>
    refine executes_src1 hs hq (by rw [exec_instruction, hop]; rfl)
      (by rw [execUses, classify_uses, hop])
      (.of_pure _ fun q a => some (a.map fun x => if x = 0 then 0 else sub64 q x)) fun a => ?_
    rw [unary_result, hop]
  | FH_SR_NTT | FH_SR_INTT =>
    refine executes_src1 hs hq (by rw [exec_instruction, hop]; rfl)
      (by rw [execUses, classify_uses, hop]) (evaluates_transform _ inst _) fun a => ?_
    rw [unary_result, hop]
  | FH_SR_AUTOMORPH_EVAL =>
    refine executes_src1 hs hq (by rw [exec_instruction, hop]; rfl)
      (by rw [execUses, classify_uses, hop]) (hdim ▸ evaluates_automorph n inst.k) fun a => ?_
    rw [unary_result, hop]
  | FH_SR_ROT_AUTOMORPH_COEFF =>
    refine executes_src1 hs hq (by rw [exec_instruction, hop]; rfl)
      (by rw [execUses, classify_uses, hop]) (evaluates_rot _ inst.offset) fun a => ?_
    rw [unary_result, hop]
  | _ =>
    rw [execUses, classify_uses, hop] at hwrites
    exact absurd hwrites (by simp)

/-- **What an instruction that counts no error did**: its modulus resolved, its operands had
a result, and that is what it wrote. -/
structure Wrote (M : NativeMath) (s s' : Impl) (inst : Instruction) (q : ℕ) (v : Poly) : Prop where
  resolves : s.resolve_modulus inst = (s, q)
  result : inst.result M s.ring_dim q (s.operands inst) = some v
  write : ∃ tables, (s.withTables tables).Cached M ∧ s' = (s.withTables tables).write inst.dest.toNat v q

theorem exec_instruction_wrote {n : ℕ} {s' : Impl} {ok : Bool} (hdim : s.ring_dim = 2 ^ n)
    (hs : s.Cached M) (hwrites : (execUses inst).writes = true)
    (h : exec_instruction M s inst = some (s', ok)) (hcount : s'.error_count = s.error_count) :
    ok = true ∧ ∃ q v, Wrote M s s' inst q v := by
  obtain ⟨-, -, hfailed⟩ := exec_instruction_progress M h
  have hok : ok = true := by
    by_contra hok
    have := hfailed (Bool.not_eq_true _ ▸ hok)
    omega
  subst hok
  -- a modulus that does not resolve would have been counted
  have hresolves : (s.resolve_modulus inst).1 = s := by
    rcases s.resolve_modulus_cases inst with ⟨-, hsame⟩ | ⟨-, herror⟩
    · exact hsame
    · rcases exec_instruction_verdict M s inst with ⟨hquiet, -⟩ | ⟨-, hverdict⟩
      · rw [hwrites] at hquiet
        exact absurd hquiet (by simp)
      · have hone : (s.resolve_modulus inst).1.error_count = s.error_count + 1 := by rw [herror]; rfl
        by_cases hrejects : s.Rejects inst
        · rw [hverdict.rejects hrejects] at h
          exact absurd h (by simp)
        · have := (hverdict.accepts hrejects s' true h).2
          omega
  have hq : s.resolve_modulus inst = (s, (s.resolve_modulus inst).2) := Prod.ext hresolves rfl
  obtain ⟨hgives, hfails⟩ := exec_instruction_result hdim hs hq hwrites
  refine ⟨rfl, (s.resolve_modulus inst).2, ?_⟩
  rcases hresult : inst.result M s.ring_dim (s.resolve_modulus inst).2 (s.operands inst) with - | v
  · exact absurd h (hfails hresult s')
  · obtain ⟨tables, hcached, hexec⟩ := hgives v hresult
    rw [h] at hexec
    exact ⟨v, hq, hresult, tables, hcached, (Prod.mk.inj (Option.some.inj hexec)).1⟩

/-- Two instructions that differ in nothing that their opcode's form carries, up to their
addresses and their modulus. -/
structure Instruction.SameKernel (inst inst' : Instruction) : Prop where
  opcode : inst'.opcode = inst.opcode
  imm : fh_operand_form inst.opcode = .PolyScalar → inst'.imm = inst.imm
  omega : fh_operand_form inst.opcode = .Ntt → inst'.omega = inst.omega
  k : fh_operand_form inst.opcode = .AutomorphEval → inst'.k = inst.k
  offset : fh_operand_form inst.opcode = .RotAutomorphCoeff → inst'.offset = inst.offset

/-- They have the same results. -/
theorem Instruction.SameKernel.result {inst inst' : Instruction} (h : inst.SameKernel inst')
    (N q : ℕ) (operands : List Poly) : inst'.result M N q operands = inst.result M N q operands := by
  have hbinary : binary_result M q inst' = binary_result M q inst := by
    funext a b
    rw [binary_result, binary_result, h.opcode]
  have hunary : unary_result M N q inst' = unary_result M N q inst := by
    funext a
    rw [unary_result, unary_result, h.opcode]
    cases hop : inst.opcode with
    | FH_SR_ADDPS | FH_SR_ADDPS_COEFF | FH_SR_SUBPS | FH_SR_SUBPS_COEFF | FH_SR_MULPS =>
      rw [h.imm (by rw [hop]; rfl)]
    | FH_SR_NTT | FH_SR_INTT => rw [h.omega (by rw [hop]; rfl)]
    | FH_SR_AUTOMORPH_EVAL => rw [h.k (by rw [hop]; rfl)]
    | FH_SR_ROT_AUTOMORPH_COEFF => rw [h.offset (by rw [hop]; rfl)]
    | _ => rfl
  have hzero : (inst'.opcode = FH_SR_MULPS ∧ inst'.imm = 0) = (inst.opcode = FH_SR_MULPS ∧ inst.imm = 0) := by
    rw [h.opcode]
    exact propext (and_congr_right fun hop => by rw [h.imm (by rw [hop]; rfl)])
  unfold Instruction.result
  simp only [hbinary, hunary, hzero]

/-- The automorphism does not look at its modulus. -/
theorem result_automorph (hop : inst.opcode = FH_SR_AUTOMORPH_EVAL) (N q q' : ℕ)
    (operands : List Poly) : inst.result M N q operands = inst.result M N q' operands := by
  have hunary : unary_result M N q inst = unary_result M N q' inst := by
    funext a
    rw [unary_result, unary_result, hop]
  have hbinary : binary_result M q inst = binary_result M q' inst := by
    funext a b
    rw [binary_result, binary_result, hop]
  unfold Instruction.result
  rw [hunary, hbinary]

/-- An instruction with a result that is none of the others' has one of a single operand. -/
theorem unary_of_result {N : ℕ} {operands : List Poly} {v : Poly} (hzero : inst.opcode ≠ FH_SR_MULPS)
    (hbinary : ∀ a b, binary_result M q inst a b = none) (h : inst.result M N q operands = some v) :
    ∃ a, unary_result M N q inst a = some v := by
  unfold Instruction.result at h
  split at h
  · split at h
    · rw [if_neg fun hclears => hzero hclears.1] at h
      exact absurd h (by simp)
    · exact ⟨_, h⟩
    · rw [hbinary] at h
      exact absurd h (by simp)
    · exact absurd h (by simp)
  · exact absurd h (by simp)

end Fhetch
