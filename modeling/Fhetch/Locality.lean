/-
What one instruction can see and change.

Everything said about whole runs rests on one fact per kernel: over a memory
that agrees on the addresses the instruction reads, it does the same thing to
its destination and nothing to any other address. `exec_instruction_local` is
that fact for the whole dispatch, and `execUses` is the set of addresses it is
true of at a power-of-two ring dimension. `execUses` differs from
`classify_uses` on the bytes no enumerator names, and nowhere else: `execute`
runs them as no-ops.

The evaluation automorphism is the only kernel that could see what its
destination held. Bit reversal is an involution on `[0, 2^n)`, so for a
power-of-two ring dimension its scatter covers the buffer; at any other
dimension `usesAt` counts the destination among the reads.
-/
import Fhetch.Simulator

set_option autoImplicit false

namespace Fhetch

/-! ## The scatter covers its destination -/

private theorem rev_bits_fold_testBit (x b i : ℕ) :
    ∀ m, m ≤ b → ((List.range m).foldl
      (fun r i => if x.testBit i then r ||| 1 <<< (b - 1 - i) else r) 0).testBit i =
        (decide (b - m ≤ i ∧ i < b) && x.testBit (b - 1 - i)) := by
  intro m
  induction m with
  | zero =>
    intro _
    rw [decide_eq_false (by omega : ¬ (b - 0 ≤ i ∧ i < b)), Bool.false_and]
    exact Nat.zero_testBit i
  | succ m ih =>
    intro hm
    rw [List.range_succ, List.foldl_append, List.foldl_cons, List.foldl_nil]
    by_cases hi : i = b - 1 - m
    · -- the bit this step may set
      have hbm : b - 1 - i = m := by omega
      rw [decide_eq_true (by omega : b - (m + 1) ≤ i ∧ i < b), hbm, Bool.true_and]
      by_cases hx : x.testBit m
      · rw [if_pos hx, hx, Nat.testBit_or, Nat.one_shiftLeft, ← hi, Nat.testBit_two_pow_self,
          Bool.or_true]
      · rw [if_neg hx, ih (by omega), hbm, decide_eq_false (by omega), Bool.false_and]
        exact (Bool.not_eq_true _ ▸ hx).symm
    · rw [decide_eq_decide.mpr (by omega : (b - (m + 1) ≤ i ∧ i < b) ↔ (b - m ≤ i ∧ i < b)),
        ← ih (by omega)]
      by_cases hx : x.testBit m
      · rw [if_pos hx, Nat.testBit_or, Nat.one_shiftLeft,
          Nat.testBit_two_pow_of_ne (fun h => hi h.symm), Bool.or_false]
      · rw [if_neg hx]

theorem rev_bits_testBit (x b i : ℕ) :
    (rev_bits x b).testBit i = (decide (i < b) && x.testBit (b - 1 - i)) := by
  rw [rev_bits, rev_bits_fold_testBit x b i b le_rfl]
  simp

theorem rev_bits_lt (x b : ℕ) : rev_bits x b < 2 ^ b := by
  refine Nat.lt_pow_two_of_testBit _ fun i hi => ?_
  simp [rev_bits_testBit, Nat.not_lt.mpr hi]

/-- Reversing twice is the identity below `2^b`, so every slot of a
power-of-two buffer is the reversal of some index. -/
theorem rev_bits_rev_bits {x b : ℕ} (h : x < 2 ^ b) : rev_bits (rev_bits x b) b = x := by
  refine Nat.eq_of_testBit_eq fun i => ?_
  rw [rev_bits_testBit, rev_bits_testBit]
  by_cases hi : i < b
  · have h1 : b - 1 - i < b := by omega
    have h2 : b - 1 - (b - 1 - i) = i := by omega
    simp [hi, h1, h2]
  · have hx : x.testBit i = false :=
      Nat.testBit_lt_two_pow (h.trans_le (Nat.pow_le_pow_right (by omega) (by omega)))
    simp [hi, hx]

theorem automorph_scatter_congr {logn k : ℕ} {snapshot : Poly} (n : ℕ) :
    ∀ (j jk : ℕ) (r r' : Poly), r.length = r'.length →
      (∀ i, (∀ j', j ≤ j' → j' < j + n → rev_bits j' logn ≠ i) → r[i]? = r'[i]?) →
      automorph_scatter logn k snapshot n j jk r = automorph_scatter logn k snapshot n j jk r' := by
  induction n with
  | zero =>
    intro j jk r r' _ h
    exact List.ext_getElem? fun i => h i fun j' h1 h2 => by omega
  | succ n ih =>
    intro j jk r r' hl h
    refine ih (j + 1) _ _ _ (by simp only [List.length_set, hl]) fun i hi => ?_
    -- a slot that is written agrees; another one agreed before
    by_cases hij : rev_bits j logn = i
    · rw [hij, List.getElem?_set_self', List.getElem?_set_self']
      by_cases hlt : i < r.length
      · simp [List.getElem?_eq_getElem hlt, List.getElem?_eq_getElem (hl ▸ hlt)]
      · simp [List.getElem?_eq_none (Nat.not_lt.mp hlt),
          List.getElem?_eq_none (hl ▸ Nat.not_lt.mp hlt)]
    · rw [List.getElem?_set_ne hij, List.getElem?_set_ne hij]
      refine h i fun j' h1 h2 => ?_
      rcases Nat.eq_or_lt_of_le h1 with rfl | h1
      · exact hij
      · exact hi j' h1 (by omega)

/-- For a power-of-two dimension the automorphism overwrites the whole buffer
it is handed. -/
theorem automorph_scatter_buffer {n : ℕ} (k jk : ℕ) (snapshot : Poly) {r r' : Poly} (hr : r.length = 2 ^ n)
    (hr' : r'.length = 2 ^ n) :
    automorph_scatter n k snapshot (2 ^ n) 0 jk r =
      automorph_scatter n k snapshot (2 ^ n) 0 jk r' := by
  refine automorph_scatter_congr (2 ^ n) 0 jk r r' (hr.trans hr'.symm) fun i hi => ?_
  by_cases hlt : i < 2 ^ n
  · have := rev_bits_lt i n
    exact absurd (rev_bits_rev_bits hlt) (hi _ (Nat.zero_le _) (by omega))
  · rw [List.getElem?_eq_none (by omega), List.getElem?_eq_none (by omega)]

/-! ## Locality -/

/-- The same simulator over another memory. -/
def Impl.withMemory (s : Impl) (m : Memory) : Impl := { s with memory := m }

/-- The same, with the schedule along. -/
def Simulator.withMemory (s : Simulator) (m : Memory) : Simulator := { s with memory := m }

namespace Impl

variable (s : Impl) (m m' : Memory)

@[simp] theorem withMemory_memory : (s.withMemory m).memory = m := rfl
@[simp] theorem withMemory_ring_dim : (s.withMemory m).ring_dim = s.ring_dim := rfl
@[simp] theorem withMemory_ntt_tables : (s.withMemory m).ntt_tables = s.ntt_tables := rfl
@[simp] theorem withMemory_error : (s.withMemory m).error = s.error.withMemory m := rfl
@[simp] theorem write_withMemory (a q : ℕ) (b : Poly) :
    (s.write a b q).withMemory m = s.withMemory m := rfl

@[simp] theorem withMemory_resolve_modulus (inst : Instruction) :
    (s.withMemory m).resolve_modulus inst =
      ((s.resolve_modulus inst).1.withMemory m, (s.resolve_modulus inst).2) := by
  unfold resolve_modulus
  split
  · rfl
  · split
    · rfl
    · simp only [withMemory]
      split <;> rfl

theorem withMemory_get_or_zero {a : ℕ} (h : m a = s.memory a) :
    (s.withMemory m).get_or_zero a = s.get_or_zero a := by
  unfold get_or_zero Memory.is_initialized Memory.get
  rw [withMemory_memory, h, withMemory_ring_dim]

end Impl

/-- What an instruction that writes `dest` when it succeeds does over another
memory, given what it does over this one. -/
def relocate (m : Memory) (dest : ℕ) (writes : Bool) (r : Impl × Bool) : Impl × Bool :=
  (r.1.withMemory (if r.2 && writes then Function.update m dest (r.1.memory dest) else m), r.2)

theorem exec_pp_local {op : ℕ → Poly → Poly → Option Poly} {s : Impl} {inst : Instruction}
    {m : Memory}
    (h1 : (s.withMemory m).get_or_zero inst.src1.toNat = s.get_or_zero inst.src1.toNat)
    (h2 : (s.withMemory m).get_or_zero inst.src2.toNat = s.get_or_zero inst.src2.toNat) :
    exec_pp op (s.withMemory m) inst =
      (exec_pp op s inst).map (relocate m inst.dest.toNat true) := by
  simp only [exec_pp_eq, Impl.withMemory_resolve_modulus, h1, h2, Impl.withMemory_ring_dim]
  split
  · simp [relocate]
  · rw [Option.map_map]
    congr 1
    funext result
    simp [relocate, Impl.write, Impl.withMemory, Memory.commit_dest]

/-- A lawful kernel does not look at the memory of the state it is handed, sees
of the destination buffer only its length when it is `blind`, leaves the setup
alone, and counts an error when it gives no result. -/
structure LawfulKernel (N : ℕ) (blind : Prop)
    (kernel : Impl → ℕ → Poly → Poly → Option (Impl × Option Poly)) : Prop where
  memory : ∀ s q a out out' m, s.ring_dim = N → out.length = N → out'.length = N →
    (blind ∨ out' = out) →
    kernel (s.withMemory m) q a out' = (kernel s q a out).map fun r => (r.1.withMemory m, r.2)
  setup : ∀ s q a out r, kernel s q a out = some r → r.1.toSetup = s.toSetup
  errors : ∀ s q a out r, kernel s q a out = some r →
    s.error_count ≤ r.1.error_count ∧ (r.2 = none → s.error_count < r.1.error_count)

/-- A kernel that only computes a vector. -/
theorem LawfulKernel.of_pure {N : ℕ} {blind : Prop} (f : Impl → ℕ → Poly → Option Poly)
    (hf : ∀ s q a m, f (s.withMemory m) q a = f s q a) :
    LawfulKernel N blind fun s q a _ => (f s q a).map fun result => (s, some result) where
  memory s q a out out' m _ _ _ _ := by
    rw [hf, Option.map_map]
    rfl
  setup s q a out r h := by
    obtain ⟨result, -, rfl⟩ := Option.map_eq_some_iff.mp h
    rfl
  errors s q a out r h := by
    obtain ⟨result, -, rfl⟩ := Option.map_eq_some_iff.mp h
    exact ⟨le_rfl, fun h => absurd h (by simp)⟩

theorem exec_src1_local {kernel : Impl → ℕ → Poly → Poly → Option (Impl × Option Poly)}
    {s : Impl} {inst : Instruction} {m : Memory} {blind : Prop}
    (hk : LawfulKernel s.ring_dim blind kernel)
    (hb : blind ∨ m.reserve_dest s.ring_dim inst.dest.toNat =
      s.memory.reserve_dest s.ring_dim inst.dest.toNat)
    (h1 : (s.withMemory m).get_or_zero inst.src1.toNat = s.get_or_zero inst.src1.toNat) :
    exec_src1 kernel (s.withMemory m) inst =
      (exec_src1 kernel s inst).map (relocate m inst.dest.toNat true) := by
  simp only [exec_src1_eq, Impl.withMemory_resolve_modulus, h1, Impl.withMemory_ring_dim,
    Impl.withMemory_memory]
  split
  · simp [relocate]
  -- the kernel does not see the memory, only the source and its buffer
  · rw [hk.memory _ _ _ (s.memory.reserve_dest s.ring_dim inst.dest.toNat) _ m
        (by rw [Impl.resolve_modulus_setup]) (Memory.reserve_dest_length ..)
        (Memory.reserve_dest_length ..) hb, Option.map_map,
      Option.map_map]
    congr 1
    funext r
    obtain ⟨s', _ | result⟩ := r
    · simp [relocate]
    · simp [relocate, Impl.write, Impl.withMemory, Memory.commit_dest]

/-! ## The kernels are local -/

variable (M : NativeMath)

theorem addps_lawful (N imm : ℕ) (blind : Prop) : LawfulKernel N blind fun s q a _ =>
    if imm = 0 then some (s, some a)
    else (M.ModAddEq q a imm).map fun result => (s, some result) := by
  by_cases h : imm = 0
  · simp only [if_pos h]
    exact LawfulKernel.of_pure (fun _ _ a => some a) fun _ _ _ _ => rfl
  · simp only [if_neg h]
    exact LawfulKernel.of_pure (fun _ q a => M.ModAddEq q a imm) fun _ _ _ _ => rfl

theorem emplace_ntt_tables_local (s : Impl) (key : ℕ × Option ℕ) (root : ℕ) (m : Memory) :
    emplace_ntt_tables M (s.withMemory m) key root =
      (emplace_ntt_tables M s key root).map fun r => (r.1.withMemory m, r.2) := by
  rw [emplace_ntt_tables, emplace_ntt_tables, Option.map_map]
  rfl

theorem ntt_tables_for_local (s : Impl) (inst : Instruction) (q : ℕ) (m : Memory) :
    ntt_tables_for M (s.withMemory m) inst q =
      (ntt_tables_for M s inst q).map fun r => (r.1.withMemory m, r.2) := by
  unfold ntt_tables_for
  rw [Impl.withMemory_ntt_tables, Impl.withMemory_ring_dim]
  cases s.ntt_tables.lookup (q, inst.omega.map UInt64.toNat) with
  | some t => rfl
  | none =>
    cases inst.omega with
    | none => simp only [emplace_ntt_tables_local, Option.map_bind, Function.comp_def]
    | some root =>
      by_cases h : is_primitive_2n_root root.toNat s.ring_dim q = true
      · simp only [if_pos h, emplace_ntt_tables_local]
      · simp only [if_neg h]
        rfl

theorem emplace_ntt_tables_spec {s s' : Impl} {key : ℕ × Option ℕ} {root : ℕ}
    {t : Option NttTables} (h : emplace_ntt_tables M s key root = some (s', t)) :
    s'.toSetup = s.toSetup ∧ (t = none ∧ s'.error_count = s.error_count + 1 ∨
      t.isSome ∧ s'.error_count = s.error_count) := by
  obtain ⟨tables, -, he⟩ := Option.map_eq_some_iff.mp h
  obtain ⟨rfl, rfl⟩ := Prod.mk.inj he
  exact ⟨rfl, .inr ⟨rfl, rfl⟩⟩

/-- The tables are there, or an error was counted; the setup stays. -/
theorem ntt_tables_for_spec {s s' : Impl} {inst : Instruction} {q : ℕ} {t : Option NttTables}
    (h : ntt_tables_for M s inst q = some (s', t)) :
    s'.toSetup = s.toSetup ∧ (t = none ∧ s'.error_count = s.error_count + 1 ∨
      t.isSome ∧ s'.error_count = s.error_count) := by
  unfold ntt_tables_for at h
  split at h
  · obtain ⟨rfl, rfl⟩ := Prod.mk.inj (Option.some.inj h)
    exact ⟨rfl, .inr ⟨rfl, rfl⟩⟩
  · split at h
    · split at h
      · exact emplace_ntt_tables_spec M h
      · obtain ⟨rfl, rfl⟩ := Prod.mk.inj (Option.some.inj h)
        exact ⟨rfl, .inl ⟨rfl, rfl⟩⟩
    · obtain ⟨root, -, h⟩ := Option.bind_eq_some_iff.mp h
      exact emplace_ntt_tables_spec M h

/-- The two transforms differ in the library call only. -/
theorem transform_lawful (N : ℕ) (blind : Prop) (inst : Instruction)
    (transform : ℕ → NttTables → Poly → Option Poly) :
    LawfulKernel N blind fun s q a _ => (ntt_tables_for M s inst q).bind fun
      | (s, none) => some (s, none)
      | (s, some t) => (transform q t a).map fun result => (s, some result) where
  memory s q a out out' m _ _ _ _ := by
    rw [ntt_tables_for_local, Option.bind_map, Option.map_bind]
    congr 1
    funext r
    obtain ⟨s', _ | t⟩ := r
    · rfl
    · simp only [Function.comp_apply, Option.map_map]
      rfl
  setup s q a out r h := by
    obtain ⟨⟨s', t⟩, ht, h⟩ := Option.bind_eq_some_iff.mp h
    rw [← (ntt_tables_for_spec M ht).1]
    cases t with
    | none =>
      obtain rfl := Option.some.inj h
      rfl
    | some t =>
      obtain ⟨result, -, rfl⟩ := Option.map_eq_some_iff.mp h
      rfl
  errors s q a out r h := by
    obtain ⟨⟨s', t⟩, ht, h⟩ := Option.bind_eq_some_iff.mp h
    rcases (ntt_tables_for_spec M ht).2 with ⟨rfl, he⟩ | ⟨hsome, he⟩
    · obtain rfl := Option.some.inj h
      exact ⟨(Nat.le_succ _).trans he.ge, fun _ => (Nat.lt_succ_self _).trans_le he.ge⟩
    · obtain ⟨t, rfl⟩ := Option.isSome_iff_exists.mp hsome
      obtain ⟨result, -, rfl⟩ := Option.map_eq_some_iff.mp h
      exact ⟨he.ge, fun h => absurd h (by simp)⟩

theorem automorph_lawful {N : ℕ} {blind : Prop} (hN : blind → N = 2 ^ N.log2)
    (k : Option UInt64) : LawfulKernel N blind fun s _ a out =>
      match k with
      | none => some (s.error, none)
      | some k64 =>
        let k := k64.toNat % 2 ^ 32
        if 2 ^ 32 ≤ s.ring_dim then none
        else some (s, some (automorph_scatter (Nat.log2 s.ring_dim) k a s.ring_dim 0 k out)) where
  memory s q a out out' m hs ho ho' hb := by
    cases k with
    | none => rfl
    | some k64 =>
      have hscatter : automorph_scatter N.log2 (k64.toNat % 2 ^ 32) a N 0 (k64.toNat % 2 ^ 32) out' =
          automorph_scatter N.log2 (k64.toNat % 2 ^ 32) a N 0 (k64.toNat % 2 ^ 32) out := by
        -- either every slot of the buffer is written over, or the buffer is the same
        rcases hb with hb | rfl
        · have hpow := hN hb
          rw [hpow] at ho ho'
          have := automorph_scatter_buffer (k64.toNat % 2 ^ 32) (k64.toNat % 2 ^ 32) a ho' ho
          rwa [← hpow] at this
        · rfl
      simp only [Impl.withMemory_ring_dim, hs, hscatter]
      split <;> rfl
  setup s q a out r h := by
    cases k with
    | none =>
      obtain rfl := Option.some.inj h
      rfl
    | some k64 =>
      simp only at h
      split at h
      · exact absurd h (by simp)
      · obtain rfl := Option.some.inj h
        rfl
  errors s q a out r h := by
    cases k with
    | none =>
      obtain rfl := Option.some.inj h
      exact ⟨Nat.le_succ _, fun _ => Nat.lt_succ_self _⟩
    | some k64 =>
      simp only at h
      split at h
      · exact absurd h (by simp)
      · obtain rfl := Option.some.inj h
        exact ⟨le_rfl, fun h => absurd h (by simp)⟩

theorem rot_lawful (N : ℕ) (blind : Prop) (offset : Option UInt64) : LawfulKernel N blind fun s q a _ =>
    match offset with
    | none => some (s.error, none)
    | some offset =>
      ((List.range s.ring_dim).mapM (rot_slot s.ring_dim q offset.toNat a)).map fun result =>
        (s, some result) := by
  cases offset with
  | none =>
    refine ⟨fun _ _ _ _ _ _ _ _ _ _ => rfl, fun s q a out r h => ?_, fun s q a out r h => ?_⟩
    · obtain rfl := Option.some.inj h
      rfl
    · obtain rfl := Option.some.inj h
      exact ⟨Nat.le_succ _, fun _ => Nat.lt_succ_self _⟩
  | some offset =>
    exact LawfulKernel.of_pure
      (fun s q a => (List.range s.ring_dim).mapM (rot_slot s.ring_dim q offset.toNat a))
      fun _ _ _ _ => rfl

/-! ## The dispatch -/

/-- What `execute` makes an instruction read and write. -/
def execUses (inst : Instruction) : InstUses :=
  match inst.opcode with
  | .unassigned _ => ⟨0, false, []⟩
  | _ => classify_uses inst

/-- Whether an instruction leaves no slot of its destination as it was. -/
def CoversBuffer (N : ℕ) (inst : Instruction) : Prop :=
  inst.opcode = .FH_SR_AUTOMORPH_EVAL → N = 2 ^ N.log2

instance (N : ℕ) (inst : Instruction) : Decidable (CoversBuffer N inst) := by
  unfold CoversBuffer; infer_instance

/-- What an instruction reads and writes at any ring dimension. -/
def usesAt (N : ℕ) (inst : Instruction) : InstUses :=
  if CoversBuffer N inst then execUses inst
  else { execUses inst with reads := inst.dest.toNat :: (execUses inst).reads }

theorem usesAt_two_pow (n : ℕ) (inst : Instruction) : usesAt (2 ^ n) inst = execUses inst :=
  if_pos fun _ => by rw [Nat.log2_two_pow]

@[simp] theorem usesAt_writes (N : ℕ) (inst : Instruction) :
    (usesAt N inst).writes = (execUses inst).writes := by
  unfold usesAt
  split <;> rfl

@[simp] theorem usesAt_write (N : ℕ) (inst : Instruction) :
    (usesAt N inst).write = (execUses inst).write := by
  unfold usesAt
  split <;> rfl

theorem execUses_reads_usesAt {N : ℕ} {inst : Instruction} {a : ℕ}
    (h : a ∈ (execUses inst).reads) : a ∈ (usesAt N inst).reads := by
  unfold usesAt
  split
  · exact h
  · exact List.mem_cons_of_mem _ h

theorem dest_mem_usesAt {N : ℕ} {inst : Instruction} (h : ¬ CoversBuffer N inst) :
    inst.dest.toNat ∈ (usesAt N inst).reads := by
  rw [usesAt, if_neg h]
  exact List.mem_cons_self

/-- **The shapes of a kernel.** Whatever the opcode, an instruction runs the
frame of the two-source kernels, that of the one-source kernels, the zero fill
of `sr_mulps` with immediate 0, or nothing; and `execUses` says which. -/
theorem exec_instruction_shape (inst : Instruction) (N : ℕ) :
    (execUses inst = ⟨inst.dest.toNat, true, [inst.src1.toNat, inst.src2.toNat]⟩ ∧
      ∃ op, ∀ s, exec_instruction M s inst = exec_pp op s inst) ∨
    (execUses inst = ⟨inst.dest.toNat, true, [inst.src1.toNat]⟩ ∧
      ∃ kernel, LawfulKernel N (CoversBuffer N inst) kernel ∧
        ∀ s, exec_instruction M s inst = exec_src1 kernel s inst) ∨
    (execUses inst = ⟨inst.dest.toNat, true, []⟩ ∧
      ∀ s, exec_instruction M s inst = some ((s.resolve_modulus inst).1.write inst.dest.toNat
        (List.replicate s.ring_dim 0) (s.resolve_modulus inst).2, true)) ∨
    (execUses inst = ⟨0, false, []⟩ ∧ ∀ s, exec_instruction M s inst = some (s, true)) := by
  unfold exec_instruction execUses classify_uses
  cases hop : inst.opcode with
  | FH_SR_ADDP | FH_SR_SUBP | FH_SR_MULP => exact .inl ⟨rfl, _, fun _ => rfl⟩
  | FH_SR_ADDPS | FH_SR_ADDPS_COEFF =>
    exact .inr (.inl ⟨rfl, _, addps_lawful M _ inst.imm _, fun _ => rfl⟩)
  | FH_SR_SUBPS | FH_SR_SUBPS_COEFF =>
    exact .inr (.inl ⟨rfl, _, LawfulKernel.of_pure (fun _ q a => M.ModSubEq q a inst.imm)
      fun _ _ _ _ => rfl, fun _ => rfl⟩)
  | FH_SR_MULPS =>
    unfold exec_mulps
    -- a product by zero writes zeros and does not read its source
    by_cases himm : inst.imm = 0
    · simp only [if_pos himm]
      exact .inr (.inr (.inl ⟨trivial, fun s => by rw [Impl.resolve_modulus_setup]⟩))
    · simp only [if_neg himm]
      exact .inr (.inl ⟨trivial, _, LawfulKernel.of_pure (fun _ q a => M.ModMulEq q a inst.imm)
        fun _ _ _ _ => rfl, fun _ => rfl⟩)
  | FH_SR_NEGP =>
    exact .inr (.inl ⟨rfl, _, LawfulKernel.of_pure
      (fun _ q a => some (a.map fun x => if x = 0 then 0 else sub64 q x)) fun _ _ _ _ => rfl,
      fun _ => rfl⟩)
  | FH_SR_NTT | FH_SR_INTT =>
    exact .inr (.inl ⟨rfl, _, transform_lawful M _ _ inst _, fun _ => rfl⟩)
  | FH_SR_AUTOMORPH_EVAL =>
    exact .inr (.inl ⟨rfl, _, automorph_lawful (fun h => h hop) inst.k, fun _ => rfl⟩)
  | FH_SR_ROT_AUTOMORPH_COEFF =>
    exact .inr (.inl ⟨rfl, _, rot_lawful _ _ inst.offset, fun _ => rfl⟩)
  | _ => exact .inr (.inr (.inr ⟨rfl, fun _ => rfl⟩))

/-- An instruction that writes, writes its destination. -/
theorem execUses_write {inst : Instruction} (h : (execUses inst).writes) :
    (execUses inst).write = inst.dest.toNat := by
  rcases exec_instruction_shape referenceMath inst 0 with
    ⟨hu, -⟩ | ⟨hu, -⟩ | ⟨hu, -⟩ | ⟨hu, -⟩
  · rw [hu]
  · rw [hu]
  · rw [hu]
  · rw [hu] at h
    exact absurd h (by simp)

/-- An instruction is handed operands and the buffer of its destination; where it
is handed the same, it does the same. -/
theorem exec_instruction_handed {s : Impl} {inst : Instruction} {m : Memory}
    (hexec : ∀ a ∈ (execUses inst).reads, (s.withMemory m).get_or_zero a = s.get_or_zero a)
    (hdest : CoversBuffer s.ring_dim inst ∨ m.reserve_dest s.ring_dim inst.dest.toNat =
      s.memory.reserve_dest s.ring_dim inst.dest.toNat) :
    exec_instruction M (s.withMemory m) inst =
      (exec_instruction M s inst).map (relocate m inst.dest.toNat (execUses inst).writes) := by
  rcases exec_instruction_shape M inst s.ring_dim with
    ⟨hu, op, he⟩ | ⟨hu, kernel, hk, he⟩ | ⟨hu, he⟩ | ⟨hu, he⟩
  · simp only [hu, List.mem_cons, List.not_mem_nil, or_false, forall_eq_or_imp,
      forall_eq] at hexec
    rw [he, he, hu]
    exact exec_pp_local hexec.1 hexec.2
  · simp only [hu, List.mem_singleton, forall_eq] at hexec
    rw [he, he, hu]
    exact exec_src1_local hk hdest hexec
  · rw [he, he, hu, Option.map_some, Impl.withMemory_resolve_modulus]
    simp [relocate, Impl.write, Impl.withMemory, Memory.commit_dest]
  · rw [he, he, hu]
    simp [relocate]

/-- **One instruction is local.** Over a memory that agrees on what it reads,
an instruction succeeds or fails alike, and writes the same element. -/
theorem exec_instruction_local {s : Impl} {inst : Instruction} {m : Memory}
    (h : ∀ a ∈ (usesAt s.ring_dim inst).reads, m a = s.memory a) :
    exec_instruction M (s.withMemory m) inst =
      (exec_instruction M s inst).map (relocate m inst.dest.toNat (execUses inst).writes) := by
  apply exec_instruction_handed
  · intro a ha
    exact s.withMemory_get_or_zero m (h a (execUses_reads_usesAt ha))
  · by_cases hc : CoversBuffer s.ring_dim inst
    · exact .inl hc
    · exact .inr (Memory.reserve_dest_congr (h _ (dest_mem_usesAt hc)))

/-- The only address a step can change is its destination. -/
theorem exec_instruction_memory {s s' : Impl} {inst : Instruction} {ok : Bool}
    (h : exec_instruction M s inst = some (s', ok)) :
    s'.memory = if ok && (execUses inst).writes then
      Function.update s.memory inst.dest.toNat (s'.memory inst.dest.toNat) else s.memory := by
  have hloc : exec_instruction M (s.withMemory s.memory) inst = _ :=
    exec_instruction_local M fun _ _ => rfl
  rw [show s.withMemory s.memory = s from rfl, h, Option.map_some] at hloc
  exact congrArg (fun r => r.1.memory) (Option.some.inj hloc)

/-- What a step leaves behind whatever it computes: the setup, no fewer errors,
and one more when it did not succeed. -/
theorem exec_instruction_progress {s s' : Impl} {inst : Instruction} {ok : Bool}
    (h : exec_instruction M s inst = some (s', ok)) :
    s'.toSetup = s.toSetup ∧ s.error_count ≤ s'.error_count ∧
      (ok = false → s.error_count < s'.error_count) := by
  have hle : s.error_count ≤ (s.resolve_modulus inst).1.error_count := by
    rcases s.resolve_modulus_eq inst with h | h
    · rw [h]
    · rw [h]; exact Nat.le_succ _
  have hset := s.resolve_modulus_setup inst
  -- an instruction that is not counted has raised an error
  rcases exec_instruction_shape M inst 0 with
    ⟨hu, op, he⟩ | ⟨hu, kernel, hk, he⟩ | ⟨hu, he⟩ | ⟨hu, he⟩
  · rw [he, exec_pp_eq] at h
    split at h
    · obtain ⟨rfl, rfl⟩ := Prod.mk.inj (Option.some.inj h)
      exact ⟨hset, Nat.le_succ_of_le hle, fun _ => Nat.lt_succ_of_le hle⟩
    · obtain ⟨r, -, hr⟩ := Option.map_eq_some_iff.mp h
      obtain ⟨rfl, rfl⟩ := Prod.mk.inj hr
      exact ⟨hset, hle, fun h => absurd h (by simp)⟩
  · rw [he, exec_src1_eq] at h
    split at h
    · obtain ⟨rfl, rfl⟩ := Prod.mk.inj (Option.some.inj h)
      exact ⟨hset, Nat.le_succ_of_le hle, fun _ => Nat.lt_succ_of_le hle⟩
    · obtain ⟨⟨s₁, result⟩, hr, h⟩ := Option.map_eq_some_iff.mp h
      have hset₁ := hk.setup _ _ _ _ _ hr
      obtain ⟨hle₁, hlt₁⟩ := hk.errors _ _ _ _ _ hr
      cases result with
      | none =>
        obtain ⟨rfl, rfl⟩ := Prod.mk.inj h
        exact ⟨hset₁.trans hset, hle.trans hle₁, fun _ => hle.trans_lt (hlt₁ rfl)⟩
      | some result =>
        obtain ⟨rfl, rfl⟩ := Prod.mk.inj h
        exact ⟨hset₁.trans hset, hle.trans hle₁, fun h => absurd h (by simp)⟩
  · rw [he] at h
    obtain ⟨rfl, rfl⟩ := Prod.mk.inj (Option.some.inj h)
    exact ⟨hset, hle, fun h => absurd h (by simp)⟩
  · rw [he] at h
    obtain ⟨rfl, rfl⟩ := Prod.mk.inj (Option.some.inj h)
    exact ⟨rfl, le_rfl, fun h => absurd h (by simp)⟩

end Fhetch
