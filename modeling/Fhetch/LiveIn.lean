/-
The live-in set (`Simulator::get_read_before_write_addresses`) and what it
promises a caller that loads nothing else.

The scan is parameterised by the uses it consults. Over `usesAt`, what `execute`
does at a given ring dimension, it covers every read of the program by
construction (`covered_of_rbw`), and the general machine then gives the two-run
statement. The source scans with `classify_uses`,
whose `default` case takes a byte no enumerator names for a two-source write;
`execute` runs it as a no-op. The phantom write can hide a read (`HidesRead`), and
the promise holds of a program in which none does, in particular of every program
without such bytes.
-/
import Fhetch.Liveness

set_option autoImplicit false

namespace Fhetch

open Lib (Machine)

/-! ## The scan -/

/-- One read: an address not seen before is live-in. `written` also remembers
the addresses already reported. -/
def rbw_read (st : List ℕ × List ℕ) (a : ℕ) : List ℕ × List ℕ :=
  if a ∈ st.1 then st else (a :: st.1, st.2 ++ [a])

/-- One instruction of the scan, on `written` and `rbw`. -/
def rbw_instruction (uses : Instruction → InstUses) (st : List ℕ × List ℕ) (inst : Instruction) :
    List ℕ × List ℕ :=
  let u := uses inst
  let st := u.reads.foldl rbw_read st
  if u.writes then (u.write :: st.1, st.2) else st

def read_before_write (uses : Instruction → InstUses) (insts : List Instruction) : List ℕ :=
  (insts.foldl (rbw_instruction uses) ([], [])).2

def get_read_before_write_addresses (insts : List Instruction) : List ℕ :=
  read_before_write classify_uses insts

/-- A write is never reported, only remembered. -/
theorem rbw_instruction_rbw (uses : Instruction → InstUses) (st : List ℕ × List ℕ)
    (inst : Instruction) :
    (rbw_instruction uses st inst).2 = ((uses inst).reads.foldl rbw_read st).2 := by
  simp only [rbw_instruction]
  split <;> rfl

theorem mem_rbw_instruction_written {uses : Instruction → InstUses} {st : List ℕ × List ℕ}
    {inst : Instruction} {a : ℕ} :
    a ∈ (rbw_instruction uses st inst).1 ↔
      ((uses inst).writes ∧ a = (uses inst).write) ∨
        a ∈ ((uses inst).reads.foldl rbw_read st).1 := by
  simp only [rbw_instruction]
  split
  · simp [*]
  · simp [*]

/-- What a scan has marked and reported after some reads. -/
theorem mem_rbw_reads {a : ℕ} (reads : List ℕ) : ∀ st : List ℕ × List ℕ,
    (a ∈ (reads.foldl rbw_read st).1 ↔ a ∈ st.1 ∨ a ∈ reads) ∧
      (a ∈ (reads.foldl rbw_read st).2 ↔ a ∈ st.2 ∨ (a ∉ st.1 ∧ a ∈ reads)) := by
  induction reads with
  | nil => simp
  | cons b reads ih =>
    intro st
    obtain ⟨hmarked, hreported⟩ := ih (rbw_read st b)
    rw [List.foldl_cons, hmarked, hreported, rbw_read]
    by_cases hb : b ∈ st.1
    · rw [if_pos hb]
      grind
    · rw [if_neg hb]
      grind

theorem rbw_mono (uses : Instruction → InstUses) (insts : List Instruction) :
    ∀ (st : List ℕ × List ℕ), ∀ a ∈ st.2, a ∈ (insts.foldl (rbw_instruction uses) st).2 := by
  induction insts with
  | nil => intro st a ha; exact ha
  | cons inst rest ih =>
    intro st a ha
    refine ih _ a ?_
    rw [rbw_instruction_rbw]
    exact (mem_rbw_reads (uses inst).reads st).2.mpr (.inl ha)

/-- **The scan covers the program.** Any set containing what the scan over
`usesAt` reports covers the machine's reads. -/
theorem covered_of_rbw {M : NativeMath} {S : Setup} (insts : List Instruction) :
    ∀ (known : ℕ → Prop) (st : List ℕ × List ℕ), (∀ a ∈ st.1, known a) →
      (∀ a ∈ (insts.foldl (rbw_instruction (usesAt S.ring_dim)) st).2, known a) →
      (simMachine M S).Covered (fun inst => (execUses inst).writes) known insts := by
  induction insts with
  | nil => intro _ _ _ _; trivial
  | cons inst rest ih =>
    intro known st hst hrbw
    have hreads : ∀ a ∈ ((usesAt S.ring_dim inst).reads.foldl rbw_read st).1, known a := by
      intro a ha
      obtain ⟨hmarked, hreported⟩ := mem_rbw_reads (a := a) (usesAt S.ring_dim inst).reads st
      -- what is newly marked is reported
      by_cases hold : a ∈ st.1
      · exact hst a hold
      · have hnew := hreported.mpr (.inr ⟨hold, (hmarked.mp ha).resolve_left hold⟩)
        exact hrbw a (rbw_mono (usesAt S.ring_dim) rest _ a (by rwa [rbw_instruction_rbw]))
    refine ⟨fun a ha => hreads a ((mem_rbw_reads _ st).1.mpr (.inr ha)), ih _ _ (fun a ha => ?_) fun a ha => .inl (hrbw a ha)⟩
    rcases mem_rbw_instruction_written.mp ha with ⟨hw, rfl⟩ | ha
    · rw [usesAt_writes] at hw
      exact .inr ⟨hw, by rw [usesAt_write]; exact execUses_write hw⟩
    · exact .inl (hreads a ha)

/-! ## Hidden reads -/

/-- An address that is read before it is written, if `uses` says what is. -/
def ReadFirst (uses : Instruction → InstUses) (a : ℕ) : List Instruction → Prop
  | [] => False
  | inst :: rest => a ∈ (uses inst).reads ∨
      (¬ ((uses inst).writes ∧ (uses inst).write = a) ∧ ReadFirst uses a rest)

/-- **The scan reports what is read first**, as far as the uses it consults go. -/
theorem mem_read_before_write_iff (uses : Instruction → InstUses) (a : ℕ) (insts : List Instruction) :
    a ∈ read_before_write uses insts ↔ ReadFirst uses a insts := by
  have hfold : ∀ st : List ℕ × List ℕ, a ∈ (insts.foldl (rbw_instruction uses) st).2 ↔
      a ∈ st.2 ∨ (a ∉ st.1 ∧ ReadFirst uses a insts) := by
    induction insts with
    | nil => simp [ReadFirst]
    | cons inst rest ih =>
      intro st
      obtain ⟨hmarked, hreported⟩ := mem_rbw_reads (a := a) (uses inst).reads st
      rw [List.foldl_cons, ih, rbw_instruction_rbw, mem_rbw_instruction_written, hmarked, hreported, ReadFirst]
      grind
  rw [read_before_write, hfold]
  simp

/-- A byte that no enumerator names. -/
def Unassigned (inst : Instruction) : Prop := ∃ e, inst.opcode = .unassigned e

/-- **A read that the scan misses.** The first instruction that uses the address has it as
its destination and not as a source. It is an unassigned byte, and the address is then
read before anything writes it; or it is an automorphism that leaves part of the buffer as
it was, at a dimension that is no power of two. -/
def HidesRead (N : ℕ) (a : ℕ) (insts : List Instruction) : Prop :=
  ∃ before inst rest, insts = before ++ inst :: rest ∧ (∀ i ∈ before, ¬ Accesses (classify_uses i) a) ∧
    inst.dest.toNat = a ∧ a ∉ (classify_uses inst).reads ∧
    ((Unassigned inst ∧ ReadFirst (usesAt N) a rest) ∨ ¬ CoversBuffer N inst)

theorem execUses_of_assigned {inst : Instruction} (h : ¬ Unassigned inst) : execUses inst = classify_uses inst := by
  unfold execUses
  split
  · rename_i e he
    exact absurd ⟨e, he⟩ h
  · rfl

/-- An unassigned byte is taken to read both its sources and to write its destination, and
does nothing. -/
theorem unassigned_uses (N : ℕ) {inst : Instruction} (h : Unassigned inst) :
    usesAt N inst = ⟨0, false, []⟩ ∧
      classify_uses inst = ⟨inst.dest.toNat, true, [inst.src1.toNat, inst.src2.toNat]⟩ := by
  obtain ⟨e, he⟩ := h
  have hcovers : CoversBuffer N inst := fun hop => absurd (he.symm.trans hop) (by simp)
  rw [usesAt, if_pos hcovers, execUses, classify_uses, he]
  exact ⟨rfl, rfl⟩

theorem automorph_uses {N : ℕ} {inst : Instruction} (h : ¬ CoversBuffer N inst) :
    classify_uses inst = ⟨inst.dest.toNat, true, [inst.src1.toNat]⟩ := by
  have hop : inst.opcode = .FH_SR_AUTOMORPH_EVAL := (Classical.not_imp.mp h).1
  rw [classify_uses, hop]

/-- What an assigned instruction uses that leaves no part of its destination. -/
theorem usesAt_of_assigned {N : ℕ} {inst : Instruction} (hassigned : ¬ Unassigned inst) (hcovers : CoversBuffer N inst) :
    usesAt N inst = classify_uses inst := by
  rw [usesAt, if_pos hcovers, execUses_of_assigned hassigned]

theorem classify_uses_write {inst : Instruction} (h : (classify_uses inst).writes) :
    (classify_uses inst).write = inst.dest.toNat := by
  by_cases hbyte : Unassigned inst
  · rw [(unassigned_uses 0 hbyte).2]
  · rw [← execUses_of_assigned hbyte] at h ⊢
    exact execUses_write h

/-- What the scan takes to be no access is none. -/
theorem not_accesses_usesAt {N : ℕ} {inst : Instruction} {a : ℕ} (h : ¬ Accesses (classify_uses inst) a) :
    ¬ Accesses (usesAt N inst) a := by
  by_cases hbyte : Unassigned inst
  · rw [(unassigned_uses N hbyte).1]
    simp [Accesses]
  · by_cases hcovers : CoversBuffer N inst
    · rwa [usesAt_of_assigned hbyte hcovers]
    · -- the rest of the destination is read, and that the scan counts as written
      rw [usesAt, if_neg hcovers, execUses_of_assigned hbyte]
      rw [automorph_uses hcovers] at h ⊢
      simp only [Accesses, List.mem_cons] at h ⊢
      grind

/-- **What the scan misses** is what is hidden from it. -/
theorem hidesRead_iff (N a : ℕ) (insts : List Instruction) :
    HidesRead N a insts ↔ ReadFirst (usesAt N) a insts ∧ ¬ ReadFirst classify_uses a insts := by
  constructor
  · rintro ⟨before, inst, rest, rfl, hbefore, rfl, hsource, hides⟩
    induction before with
    | nil =>
      rw [List.nil_append, ReadFirst, ReadFirst]
      rcases hides with ⟨hbyte, hread⟩ | hcovers
      · obtain ⟨hnothing, hclaimed⟩ := unassigned_uses N hbyte
        rw [hclaimed] at hsource ⊢
        rw [hnothing]
        exact ⟨.inr ⟨fun h => absurd h.1 Bool.false_ne_true, hread⟩,
          not_or.mpr ⟨hsource, fun h => h.1 ⟨rfl, rfl⟩⟩⟩
      · refine ⟨.inl (dest_mem_usesAt hcovers), not_or.mpr ⟨hsource, fun h => h.1 ?_⟩⟩
        rw [automorph_uses hcovers]
        exact ⟨rfl, rfl⟩
    | cons i before ih =>
      obtain ⟨hi, hrest⟩ := List.forall_mem_cons.mp hbefore
      obtain ⟨hread, hmissed⟩ := ih hrest
      exact ⟨.inr ⟨fun h => not_accesses_usesAt hi (.inr h), hread⟩,
        not_or.mpr ⟨fun h => hi (.inl h), fun h => hmissed h.2⟩⟩
  · rintro ⟨hread, hmissed⟩
    induction insts with
    | nil => exact hread.elim
    | cons inst rest ih =>
      obtain ⟨hsource, hlater⟩ := not_or.mp hmissed
      by_cases htouched : (classify_uses inst).writes ∧ (classify_uses inst).write = a
      · -- the first use is a write, by the scan's account
        refine ⟨[], inst, rest, rfl, List.forall_mem_nil _, ?_, hsource, ?_⟩
        · exact (classify_uses_write htouched.1).symm.trans htouched.2
        · by_cases hcovers : CoversBuffer N inst
          · by_cases hbyte : Unassigned inst
            · refine .inl ⟨hbyte, ?_⟩
              rw [ReadFirst, (unassigned_uses N hbyte).1] at hread
              exact (hread.resolve_left List.not_mem_nil).2
            · rw [ReadFirst, usesAt_of_assigned hbyte hcovers] at hread
              exact absurd htouched (hread.resolve_left hsource).1
          · exact .inr hcovers
      · have huntouched : ¬ Accesses (classify_uses inst) a := not_or.mpr ⟨hsource, htouched⟩
        have hread' := (hread.resolve_left fun h => not_accesses_usesAt huntouched (.inl h)).2
        obtain ⟨before, i, rest', rfl, hbefore, hhides⟩ := ih hread' fun h => hlater ⟨htouched, h⟩
        exact ⟨inst :: before, i, rest', rfl, List.forall_mem_cons.mpr ⟨huntouched, hbefore⟩, hhides⟩

instance (N a : ℕ) (insts : List Instruction) : Decidable (HidesRead N a insts) :=
  decidable_of_iff (a ∈ read_before_write (usesAt N) insts ∧ a ∉ get_read_before_write_addresses insts) (by
    rw [hidesRead_iff, get_read_before_write_addresses, mem_read_before_write_iff, mem_read_before_write_iff])

/-- Without unassigned bytes, at a power of two, nothing is hidden. -/
theorem not_hidesRead_of_assigned (n a : ℕ) {insts : List Instruction} (h : ∀ inst ∈ insts, ¬ Unassigned inst) :
    ¬ HidesRead (2 ^ n) a insts := by
  rintro ⟨before, inst, rest, rfl, -, -, -, ⟨hbyte, -⟩ | hcovers⟩
  · exact h inst (List.mem_append_right _ List.mem_cons_self) hbyte
  · exact hcovers fun _ => by rw [Nat.log2_two_pow]

/-- What is not hidden is found. -/
theorem found_of_not_hidden {N a : ℕ} {insts : List Instruction} (h : ¬ HidesRead N a insts)
    (hread : a ∈ read_before_write (usesAt N) insts) : a ∈ get_read_before_write_addresses insts := by
  rw [hidesRead_iff] at h
  rw [get_read_before_write_addresses, mem_read_before_write_iff]
  rw [mem_read_before_write_iff] at hread
  exact Classical.not_not.mp (not_and.mp h hread)

/-! ## Two runs -/

/-- A run's control state with no error in it yet. -/
def ErrorFree (σ : Progress × ℕ) : Prop := σ.1.error_count = 0

/-- An error-free step came from an error-free state and wrote what it should. -/
theorem simMachine_ok {M : NativeMath} {S : Setup} (inst : Instruction) (σ : Progress × ℕ)
    (m : Memory) (σ' : Progress × ℕ) (w : Option (Option MemoryElement))
    (h : (simMachine M S).act inst σ m = some (σ', w)) (hok : ErrorFree σ') :
    ErrorFree σ ∧ ((execUses inst).writes → w.isSome) := by
  obtain ⟨⟨s', ok⟩, hres, he⟩ := Option.map_eq_some_iff.mp h
  obtain ⟨rfl, rfl⟩ := Prod.mk.inj he
  obtain ⟨-, hle, hlt⟩ := exec_instruction_progress M hres
  have hzero : s'.error_count = 0 := hok
  refine ⟨show σ.1.error_count = 0 by have : σ.1.error_count ≤ s'.error_count := hle; omega,
    fun hw => ?_⟩
  cases ok with
  | true => simp [hw]
  | false =>
    have : σ.1.error_count < s'.error_count := hlt rfl
    omega

/-- An address some instruction of the program writes when it runs. -/
def WrittenBy (insts : List Instruction) (a : ℕ) : Prop :=
  ∃ inst ∈ insts, (execUses inst).writes ∧ (execUses inst).write = a

/-- **The two-run lemma.** From memories that agree on a set containing every
live-in, an error-free run is matched by an error-free run that agrees on that
set and on everything written. -/
theorem run_agree {M : NativeMath} {s : Simulator} (hN : s.ring_dim ≠ 0) (known : ℕ → Prop)
    (hknown : ∀ a ∈ read_before_write (usesAt s.ring_dim) s.trace.instructions, known a)
    {m m' : Memory} (hm : ∀ a, known a → m a = m' a) {f : Simulator} {r : SimResult}
    (h : run M (s.withMemory m) = some (f, r)) (hr : r.errors = 0) :
    ∃ f', run M (s.withMemory m') = some (f', r) ∧
      ∀ a, known a ∨ WrittenBy s.trace.instructions a → f.memory a = f'.memory a := by
  rw [run_withMemory hN] at h
  obtain ⟨⟨σ, m₁⟩, hrun, he⟩ := Option.map_eq_some_iff.mp h
  obtain ⟨rfl, rfl⟩ := Prod.mk.inj he
  obtain ⟨m₂, hrun₂, hagree⟩ := Machine.runFreeing_agree_of_covered
    (simMachine M s.toSetup) simMachine_ok
    s.trace.instructions known 0 _ σ m m' m₁
    (covered_of_rbw _ known ([], []) (fun a ha => absurd ha List.not_mem_nil) hknown)
    hm hrun hr
  -- what the run of the machine left is read back as a simulator
  refine ⟨(simulatorOf s (σ, m₂)).1, ?_, fun a ha => ?_⟩
  · rw [run_withMemory hN, hrun₂]
    rfl
  · refine hagree a (ha.imp_right ?_)
    rintro ⟨inst, hinst, hw, rfl⟩
    exact ⟨inst, hinst, hw, execUses_write hw⟩

/-- The promise of the live-in set: from memories that agree on it, two
error-free runs agree on everything the program wrote. -/
def LiveInComplete (M : NativeMath) (s : Simulator) : Prop :=
  ∀ (m m' : Memory) (f f' : Simulator) (r r' : SimResult),
    (∀ a ∈ get_read_before_write_addresses s.trace.instructions, m a = m' a) →
    run M (s.withMemory m) = some (f, r) → run M (s.withMemory m') = some (f', r') →
    r.errors = 0 → r'.errors = 0 →
    ∀ a, WrittenBy s.trace.instructions a → f.memory a = f'.memory a

/-- **The live-in set is complete** exactly where no unassigned byte hides a read. What is
outside it then influences no computed value. -/
theorem live_in_complete (M : NativeMath) (s : Simulator) (n : ℕ) (hN : s.ring_dim = 2 ^ n) :
    ((∀ a, ¬ HidesRead s.ring_dim a s.trace.instructions) ↔
      ∀ a, ReadFirst execUses a s.trace.instructions →
        a ∈ get_read_before_write_addresses s.trace.instructions) ∧
    ((∀ a, ¬ HidesRead s.ring_dim a s.trace.instructions) → LiveInComplete M s) := by
  have huses : usesAt s.ring_dim = execUses := funext fun inst => by rw [hN, usesAt_two_pow]
  constructor
  · refine forall_congr' fun a => ?_
    rw [hidesRead_iff, huses, get_read_before_write_addresses, mem_read_before_write_iff, not_and,
      Classical.not_not]
  · intro hhidden m m' f f' r r' hm hrun hrun' hr _ a ha
    have hpos : s.ring_dim ≠ 0 := by rw [hN]; exact (Nat.two_pow_pos n).ne'
    obtain ⟨f₂, hrun₂, hagree⟩ := run_agree hpos _ (fun a ha => found_of_not_hidden (hhidden a) ha) hm hrun hr
    obtain ⟨rfl, -⟩ := Prod.mk.inj (Option.some.inj (hrun₂.symm.trans hrun'))
    exact hagree a (.inr ha)

/-- A record with the first unassigned opcode byte in front of an addition: the
scan takes it to write `%1`, and so does not report the read that follows. -/
def phantomWrite : Simulator where
  ring_dim := 1
  trace :=
    { modulus_table := [17]
      instructions :=
        [{ opcode := .unassigned 0, dest := 1, modulus := some 0 },
         { opcode := .FH_SR_ADDP, dest := 2, src1 := 1, src2 := 1, modulus := some 0 }] }

example : HidesRead 1 1 phantomWrite.trace.instructions := by decide

theorem live_in_incomplete_phantomWrite : ¬ LiveInComplete referenceMath phantomWrite := by
  intro h
  let m (x : ℕ) : Memory := Function.update Memory.empty 1 (some ⟨[x], 17, true⟩)
  have hagree : ∀ a ∈ get_read_before_write_addresses phantomWrite.trace.instructions,
      m 3 a = m 4 a := by decide
  have hsame := h (m 3) (m 4) _ _ _ _ hagree rfl rfl rfl rfl 2
    ⟨_, List.mem_cons_of_mem _ List.mem_cons_self, rfl, rfl⟩
  exact absurd (congrArg (Option.map MemoryElement.values) hsame) (by decide)

/-- A program whose opcodes are all assigned. -/
theorem live_in_complete_livenessExample :
    livenessExample.ring_dim = 2 ^ 1 ∧ (∀ a, ¬ HidesRead 2 a livenessExample.trace.instructions) ∧
      LiveInComplete referenceMath livenessExample := by
  have hassigned : ∀ a, ¬ HidesRead 2 a livenessExample.trace.instructions :=
    fun a => not_hidesRead_of_assigned 1 a (by simp [livenessExample, Unassigned])
  exact ⟨rfl, hassigned, (live_in_complete referenceMath livenessExample 1 rfl).2 hassigned⟩

end Fhetch
