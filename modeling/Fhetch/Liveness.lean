/-
The free schedule (`Simulator::compute_liveness`) and the proof that it cannot
be observed.

A run of the simulator is a run of the general machine of `Lib.StraightLine`:
`simMachine` is that instance, `execute_loop_eq` the correspondence, with
`release` as the machine's freeing. What remains is arithmetic on indices. The
forward scan leaves in `last_use` the largest index that reads an address
(`lookup_last_use_scan`), and an index frees an address exactly when it is that
index, or writes the address past it (`mem_schedule`). From there the two halves
are short: whatever index `i` frees, no index past `i` reads, and whatever is
accessed at all is freed at its last access.

Both passes use `classify_uses`, which also claims operands for the bytes no
enumerator names. That is harmless here, because freeing more reads than there
are only keeps an address longer; it is not harmless for `Fhetch.LiveIn`.
-/
import Fhetch.Lib.StraightLine
import Fhetch.Locality
import Mathlib.Data.List.AList

set_option autoImplicit false

namespace Fhetch

open Lib (Machine)

/-! ## The schedule -/

/-- `last_use`: an address and the last index seen reading it. -/
abbrev LastUse := AList fun _ : ℕ => ℕ

/-- One read in the forward scan; live-out addresses are passed over. -/
def last_use_read (live_out : List ℕ) (i : ℕ) (last_use : LastUse) (a : ℕ) : LastUse :=
  if a ∈ live_out then last_use else last_use.insert a i

/-- The forward last-use scan, from instruction `i` on. -/
def last_use_scan (live_out : List ℕ) : List Instruction → ℕ → LastUse → LastUse
  | [], _, last_use => last_use
  | inst :: rest, i, last_use =>
    last_use_scan live_out rest (i + 1)
      ((classify_uses inst).reads.foldl (last_use_read live_out i) last_use)

/-- Whether the write of instruction `i` is dead. -/
def dead_write (live_out : List ℕ) (last_use : LastUse) (i : ℕ) (u : InstUses) : Bool :=
  u.writes && u.write ∉ live_out &&
    match last_use.lookup u.write with
    | none => true
    | some death => death < i

/-- The dead-write scan, from instruction `i` on: a row of frees for each
instruction. -/
def dead_write_scan (live_out : List ℕ) (last_use : LastUse) :
    List Instruction → ℕ → List (List ℕ)
  | [], _ => []
  | inst :: rest, i =>
    let u := classify_uses inst
    (if dead_write live_out last_use i u then [u.write] else []) ::
      dead_write_scan live_out last_use rest (i + 1)

/-- `free_after[death].push_back(addr)` for every entry of `last_use`. The
source walks them in hash order, which no run can tell. -/
def schedule_reads (last_use : LastUse) (free_after : List (List ℕ)) : List (List ℕ) :=
  last_use.entries.foldl (fun free_after e => free_after.modify e.2 (· ++ [e.1])) free_after

/-- The free schedule of a program. -/
def free_schedule (live_out : List ℕ) (insts : List Instruction) : List (List ℕ) :=
  let last_use := last_use_scan live_out insts 0 ∅
  schedule_reads last_use (dead_write_scan live_out last_use insts 0)

/-- `compute_liveness`. `disabled` is `NIOBIUM_DISABLE_SIM_FREES`. -/
def compute_liveness (s : Simulator) (disabled : Bool) : Simulator :=
  { s with free_after_ := if disabled then [] else free_schedule s.live_out_ s.trace.instructions }

/-! ## What the scan finds -/

/-- The largest index at or after `i` that reads a pinned-free address `a`. -/
def lastRead (live_out : List ℕ) (a : ℕ) : List Instruction → ℕ → Option ℕ
  | [], _ => none
  | inst :: rest, i =>
    (lastRead live_out a rest (i + 1)).or
      (if a ∈ (classify_uses inst).reads ∧ a ∉ live_out then some i else none)

theorem lookup_last_use_reads (live_out : List ℕ) (i a : ℕ) (reads : List ℕ) :
    ∀ last_use : LastUse, (reads.foldl (last_use_read live_out i) last_use).lookup a =
      (if a ∈ reads ∧ a ∉ live_out then some i else none).or (last_use.lookup a) := by
  induction reads with
  | nil => intro last_use; simp
  | cons b reads ih =>
    intro last_use
    rw [List.foldl_cons, ih, last_use_read]
    -- what is live at the end has no last use
    by_cases hb : b ∈ live_out
    · rw [if_pos hb]
      by_cases hab : a = b
      · subst hab
        simp [hb]
      · simp [hab]
    · rw [if_neg hb]
      by_cases hab : a = b
      · subst hab
        by_cases ha : a ∈ reads <;> simp [ha, hb]
      · rw [AList.lookup_insert_ne hab]
        simp [hab]

theorem lookup_last_use_scan (live_out : List ℕ) (a : ℕ) (insts : List Instruction) :
    ∀ (i : ℕ) (last_use : LastUse), (last_use_scan live_out insts i last_use).lookup a =
      (lastRead live_out a insts i).or (last_use.lookup a) := by
  induction insts with
  | nil => intro i last_use; simp [last_use_scan, lastRead]
  | cons inst rest ih =>
    intro i last_use
    rw [last_use_scan, ih, lookup_last_use_reads, lastRead, Option.or_assoc]

theorem lastRead_none {live_out : List ℕ} {a : ℕ} (ha : a ∉ live_out) (insts : List Instruction) :
    ∀ i, lastRead live_out a insts i = none → ∀ inst ∈ insts, a ∉ (classify_uses inst).reads := by
  induction insts with
  | nil => intro i _ inst h; exact absurd h List.not_mem_nil
  | cons first rest ih =>
    intro i h inst hinst
    obtain ⟨hrest, hfirst⟩ := Option.or_eq_none_iff.mp h
    rcases List.mem_cons.mp hinst with rfl | hinst
    · intro hread
      rw [if_pos ⟨hread, ha⟩] at hfirst
      exact absurd hfirst (by simp)
    · exact ih (i + 1) hrest inst hinst

/-- A last read is an index that reads the address, and no larger one does. -/
theorem lastRead_some {live_out : List ℕ} {a d : ℕ} (insts : List Instruction) :
    ∀ i, lastRead live_out a insts i = some d → a ∉ live_out ∧ i ≤ d ∧
      (∃ inst, insts[d - i]? = some inst ∧ a ∈ (classify_uses inst).reads) ∧
      ∀ j inst, d - i < j → insts[j]? = some inst → a ∉ (classify_uses inst).reads := by
  induction insts with
  | nil => intro i h; exact absurd h (by simp [lastRead])
  | cons first rest ih =>
    intro i h
    -- a read further on wins over the one here
    rcases Option.or_eq_some_iff.mp h with h | ⟨hrest, hfirst⟩
    · obtain ⟨ha, hle, ⟨inst, hget, hread⟩, hlast⟩ := ih (i + 1) h
      refine ⟨ha, by omega, ⟨inst, ?_, hread⟩, fun j inst' hj hget' => ?_⟩
      · rwa [show d - i = (d - (i + 1)) + 1 by omega, List.getElem?_cons_succ]
      · obtain ⟨j, rfl⟩ : ∃ j', j = j' + 1 := ⟨j - 1, by omega⟩
        exact hlast j inst' (by omega) (by rwa [List.getElem?_cons_succ] at hget')
    · obtain ⟨hread, ha⟩ : a ∈ (classify_uses first).reads ∧ a ∉ live_out := by
        by_contra hcon
        rw [if_neg hcon] at hfirst
        exact absurd hfirst (by simp)
      obtain rfl : i = d := by simpa [hread, ha] using hfirst
      refine ⟨ha, le_rfl, ⟨first, by simp, hread⟩, fun j inst' hj hget' => ?_⟩
      obtain ⟨j, rfl⟩ : ∃ j', j = j' + 1 := ⟨j - 1, by omega⟩
      rw [List.getElem?_cons_succ] at hget'
      exact lastRead_none ha rest (i + 1) hrest inst' (List.mem_of_getElem? hget')

/-! ## What the schedule frees -/

theorem mem_modify_append {l : List (List ℕ)} {a b d j : ℕ} :
    a ∈ (l.modify d (· ++ [b])).getD j [] ↔
      a ∈ l.getD j [] ∨ (j < l.length ∧ a = b ∧ d = j) := by
  rw [List.getD_eq_getElem?_getD, List.getD_eq_getElem?_getD, List.getElem?_modify]
  by_cases hj : j < l.length
  · rw [List.getElem?_eq_getElem hj]
    by_cases hd : d = j <;> simp [hd, hj]
  · rw [List.getElem?_eq_none (Nat.not_lt.mp hj)]
    simp [hj]

theorem mem_schedule_reads {a j : ℕ} (es : List (Sigma fun _ : ℕ => ℕ)) :
    ∀ l : List (List ℕ),
      a ∈ (es.foldl (fun l e => l.modify e.2 (· ++ [e.1])) l).getD j [] ↔
        a ∈ l.getD j [] ∨ (j < l.length ∧ ⟨a, j⟩ ∈ es) := by
  induction es with
  | nil => intro l; simp
  | cons e es ih =>
    intro l
    obtain ⟨b, d⟩ := e
    rw [List.foldl_cons, ih, mem_modify_append, List.length_modify, List.mem_cons, or_assoc,
      ← and_or_left]
    have heq : (a = b ∧ d = j) ↔ (⟨a, j⟩ : Sigma fun _ : ℕ => ℕ) = ⟨b, d⟩ := by
      simp [eq_comm]
    rw [heq]

theorem dead_write_scan_length (live_out : List ℕ) (last_use : LastUse) (insts : List Instruction) :
    ∀ i, (dead_write_scan live_out last_use insts i).length = insts.length := by
  induction insts with
  | nil => intro i; rfl
  | cons inst rest ih => intro i; rw [dead_write_scan, List.length_cons, ih, List.length_cons]

theorem mem_dead_write_scan {live_out : List ℕ} {last_use : LastUse} {a : ℕ}
    (insts : List Instruction) :
    ∀ i j, a ∈ (dead_write_scan live_out last_use insts i).getD j [] ↔
      ∃ inst, insts[j]? = some inst ∧ (classify_uses inst).write = a ∧
        dead_write live_out last_use (i + j) (classify_uses inst) := by
  induction insts with
  | nil => intro i j; simp [dead_write_scan]
  | cons inst rest ih =>
    intro i j
    cases j with
    | zero =>
      rw [dead_write_scan, List.getD_cons_zero, List.getElem?_cons_zero, Nat.add_zero]
      by_cases h : dead_write live_out last_use i (classify_uses inst)
      · rw [if_pos h, List.mem_singleton]
        exact ⟨fun ha => ⟨inst, rfl, ha.symm, h⟩, fun ⟨_, hi, ha, _⟩ => by cases hi; exact ha.symm⟩
      · rw [if_neg h]
        exact ⟨fun ha => absurd ha List.not_mem_nil, fun ⟨_, hi, _, hd⟩ => by cases hi; exact absurd hd h⟩
    | succ j =>
      rw [dead_write_scan, List.getD_cons_succ, ih, List.getElem?_cons_succ,
        show i + 1 + j = i + (j + 1) by omega]

/-- Whether instruction `j` of a program frees `a`: it is the last to read it,
or it writes it with no read at `j` or after. -/
theorem mem_free_schedule {live_out : List ℕ} {insts : List Instruction} {a j : ℕ} :
    a ∈ (free_schedule live_out insts).getD j [] ↔
      (∃ inst, insts[j]? = some inst ∧ (classify_uses inst).write = a ∧
        (classify_uses inst).writes ∧ a ∉ live_out ∧
        ∀ d, lastRead live_out a insts 0 = some d → d < j) ∨
      lastRead live_out a insts 0 = some j := by
  have hlu : ∀ b, (last_use_scan live_out insts 0 ∅).lookup b = lastRead live_out b insts 0 := by
    intro b
    rw [lookup_last_use_scan, AList.lookup_empty, Option.or_none]
  rw [free_schedule, schedule_reads, mem_schedule_reads, mem_dead_write_scan,
    dead_write_scan_length]
  -- freed after a write that nobody reads, or after the last read
  refine or_congr (exists_congr fun inst => and_congr_right fun _ => ?_) ?_
  · refine and_congr_right fun hw => ?_
    subst hw
    simp only [dead_write, Bool.and_eq_true, decide_eq_true_eq, hlu, Nat.zero_add, and_assoc]
    refine and_congr_right fun _ => and_congr_right fun _ => ?_
    cases lastRead live_out (classify_uses inst).write insts 0 with
    | none => simp
    | some d => simp
  · rw [← AList.mem_lookup_iff, hlu, Option.mem_def]
    refine ⟨fun h => h.2, fun h => ⟨?_, h⟩⟩
    obtain ⟨-, -, ⟨inst, hget, -⟩, -⟩ := lastRead_some insts 0 h
    exact (List.getElem?_eq_some_iff.mp hget).1

/-! ## The simulator as a machine -/

/-- What `execute` does with an instruction is what the liveness passes take it
to do, or nothing. -/
theorem execUses_eq (inst : Instruction) :
    execUses inst = classify_uses inst ∨ execUses inst = ⟨0, false, []⟩ := by
  unfold execUses
  split
  · exact .inr rfl
  · exact .inl rfl

theorem execUses_reads_subset {inst : Instruction} {a : ℕ} (h : a ∈ (execUses inst).reads) :
    a ∈ (classify_uses inst).reads := by
  rcases execUses_eq inst with he | he
  · rwa [he] at h
  · rw [he] at h
    exact absurd h List.not_mem_nil

variable (M : NativeMath)

/-- The simulator over a fixed setup: what an instruction does to the progress
so far (with the executed count) and to its destination. -/
def simMachine (S : Setup) :
    Machine Instruction ℕ (Option MemoryElement) (Progress × ℕ) where
  act inst σ m := (exec_instruction M ⟨S, σ.1, m⟩ inst).map fun r =>
    ((r.1.toProgress, if r.2 then σ.2 + 1 else σ.2),
      if r.2 && (execUses inst).writes then some (r.1.memory inst.dest.toNat) else none)
  dest inst := inst.dest.toNat
  reads inst := (usesAt S.ring_dim inst).reads
  act_congr inst σ m m' h := by
    have hloc := exec_instruction_local M (s := ⟨S, σ.1, m'⟩) (m := m) h
    rw [Impl.withMemory] at hloc
    rw [hloc, Option.map_map]
    congr 1
    funext r
    obtain ⟨s', ok⟩ := r
    cases ok <;> cases (execUses inst).writes <;> simp [relocate, Impl.withMemory]

variable {M}

theorem simMachine_writes {S : Setup} {inst : Instruction} {σ σ' : Progress × ℕ} {m : Memory}
    {v : Option MemoryElement} (h : (simMachine M S).act inst σ m = some (σ', some v)) :
    (execUses inst).writes := by
  obtain ⟨r, -, hr⟩ := Option.map_eq_some_iff.mp h
  by_contra hw
  have := (Prod.mk.inj hr).2
  simp [hw] at this

/-- A step of the source is a step of the machine, and the setup stays. -/
theorem step_of_exec_instruction {S : Setup} {inst : Instruction} {p : Progress} (executed : ℕ)
    {m : Memory} {s' : Impl} {ok : Bool}
    (h : exec_instruction M ⟨S, p, m⟩ inst = some (s', ok)) :
    (simMachine M S).step inst ((p, executed), m) =
        some ((s'.toProgress, if ok then executed + 1 else executed), s'.memory) ∧
      s' = ⟨S, s'.toProgress, s'.memory⟩ := by
  have hset : s'.toSetup = S := (exec_instruction_progress M h).1
  have hmem := exec_instruction_memory M (s := ⟨S, p, m⟩) h
  refine ⟨?_, by rw [← hset]⟩
  rw [Machine.step]
  simp only [simMachine, h, Option.map_some]
  by_cases hw : (ok && (execUses inst).writes) = true
  · rw [if_pos hw] at hmem ⊢
    exact congrArg (fun x => some (_, x)) hmem.symm
  · rw [if_neg hw] at hmem ⊢
    exact congrArg (fun x => some (_, x)) hmem.symm

theorem foldl_erase_eq (as : List ℕ) :
    ∀ m : Memory, as.foldl Memory.erase m = Machine.erase none as m := by
  induction as with
  | nil => intro m; simp
  | cons a as ih =>
    intro m
    rw [List.foldl_cons, ih]
    funext b
    by_cases hb : b ∈ as
    · rw [Machine.erase_of_mem hb, Machine.erase_of_mem (List.mem_cons_of_mem _ hb)]
    · rw [Machine.erase_of_not_mem hb]
      by_cases hba : b = a
      · subst hba
        rw [Machine.erase_of_mem List.mem_cons_self, Memory.erase, Function.update_self]
      · rw [Machine.erase_of_not_mem (by simp [hb, hba]), Memory.erase, Function.update_of_ne hba]

/-- **The execution loop is the machine's freeing run.** -/
theorem execute_loop_eq {S : Setup} (free_after_ : List (List ℕ)) (insts : List Instruction) :
    ∀ (i : ℕ) (p : Progress) (m : Memory) (executed : ℕ),
      execute_loop M free_after_ insts i ⟨S, p, m⟩ executed =
        ((simMachine M S).runFreeing none (fun j => free_after_.getD j []) insts i
          ((p, executed), m)).map fun c => (⟨S, c.1.1, c.2⟩, c.1.2) := by
  induction insts with
  | nil => intro i p m executed; rfl
  | cons inst rest ih =>
    intro i p m executed
    rw [execute_loop, Machine.runFreeing]
    cases h : exec_instruction M ⟨S, p, m⟩ inst with
    | none =>
      rw [Machine.step]
      simp only [simMachine, h]
      rfl
    | some r =>
      obtain ⟨s', ok⟩ := r
      obtain ⟨hstep, hs'⟩ := step_of_exec_instruction executed h
      rw [hstep, hs']
      simp only [Option.bind_some, Impl.release, foldl_erase_eq]
      exact ih (i + 1) s'.toProgress _ _

/-- The result a machine's final state stands for. -/
def simulatorOf (s : Simulator) (c : (Progress × ℕ) × Memory) : Simulator × SimResult :=
  ({ s with toImpl := ⟨s.toSetup, c.1.1, c.2⟩ }, ⟨c.1.2, c.1.1.error_count⟩)

/-- A run of the simulator is a freeing run of the machine from its memory and
an error count of zero. -/
theorem run_eq_runFreeing {s : Simulator} (hN : s.ring_dim ≠ 0) :
    run M s = ((simMachine M s.toSetup).runFreeing none (fun j => s.free_after_.getD j [])
      s.trace.instructions 0 (({ s.toProgress with error_count := 0 }, 0), s.memory)).map
        (simulatorOf s) := by
  rw [run, if_neg hN, execute]
  have h := execute_loop_eq (M := M) (S := s.toSetup) s.free_after_ s.trace.instructions 0
    { s.toProgress with error_count := 0 } s.memory 0
  rw [show ({ s.toImpl with error_count := 0 } : Impl) =
    ⟨s.toSetup, { s.toProgress with error_count := 0 }, s.memory⟩ from rfl, h, Option.map_map]
  rfl

theorem run_withMemory {s : Simulator} (hN : s.ring_dim ≠ 0) (m : Memory) :
    run M (s.withMemory m) = ((simMachine M s.toSetup).runFreeing none
      (fun j => s.free_after_.getD j []) s.trace.instructions 0
      (({ s.toProgress with error_count := 0 }, 0), m)).map (simulatorOf s) :=
  run_eq_runFreeing (s := s.withMemory m) hN

/-- An address a run neither frees nor writes keeps its contents. -/
theorem run_keep {s f : Simulator} {m : Memory} {r : SimResult} {a : ℕ} (hN : s.ring_dim ≠ 0)
    (hfree : ∀ j, a ∉ s.free_after_.getD j [])
    (hw : ∀ inst ∈ s.trace.instructions, (execUses inst).writes → (execUses inst).write ≠ a)
    (h : run M (s.withMemory m) = some (f, r)) : f.memory a = m a := by
  rw [run_withMemory hN] at h
  obtain ⟨c, hrun, he⟩ := Option.map_eq_some_iff.mp h
  obtain ⟨rfl, -⟩ := Prod.mk.inj he
  refine Machine.runFreeing_keep _ hfree s.trace.instructions 0 _ c
    (fun inst hinst s₁ m₁ s₂ v hact => ?_) hrun
  have hwrites := simMachine_writes hact
  exact fun hdest => hw inst hinst hwrites ((execUses_write hwrites).trans hdest)

/-! ## Freeing is unobservable -/

/-- What an index frees is neither live-out nor read past it. -/
theorem free_schedule_safe {S : Setup} (live_out : List ℕ) (insts : List Instruction)
    (hcovers : ∀ inst ∈ insts, CoversBuffer S.ring_dim inst) :
    (simMachine M S).Safe (· ∈ live_out) (fun j => (free_schedule live_out insts).getD j [])
      insts 0 := by
  refine Machine.safe_of_index _ insts 0 fun j a hj ha => ?_
  rw [Nat.zero_add, mem_free_schedule] at ha
  -- in both cases no read comes after the index it is freed at
  have key : a ∉ live_out ∧
      ∀ j' inst, j < j' → insts[j']? = some inst → a ∉ (classify_uses inst).reads := by
    rcases ha with ⟨inst, -, -, -, hlive, hdead⟩ | hread
    · refine ⟨hlive, fun j' inst' hj' hget => ?_⟩
      cases hlast : lastRead live_out a insts 0 with
      | none => exact lastRead_none hlive insts 0 hlast inst' (List.mem_of_getElem? hget)
      | some d =>
        obtain ⟨-, -, -, hno⟩ := lastRead_some insts 0 hlast
        exact hno j' inst' (by have := hdead d hlast; omega) hget
    · obtain ⟨hlive, -, -, hno⟩ := lastRead_some insts 0 hread
      exact ⟨hlive, hno⟩
  refine ⟨key.1, fun j' inst hj' hget hr => key.2 j' inst hj' hget (execUses_reads_subset ?_)⟩
  change a ∈ (usesAt S.ring_dim inst).reads at hr
  rwa [usesAt, if_pos (hcovers inst (List.mem_of_getElem? hget))] at hr

theorem free_schedule_live_out {live_out : List ℕ} {insts : List Instruction} {a : ℕ}
    (ha : a ∈ live_out) (j : ℕ) : a ∉ (free_schedule live_out insts).getD j [] := by
  rw [mem_free_schedule]
  rintro (⟨-, -, -, -, hnot, -⟩ | hread)
  · exact hnot ha
  · exact (lastRead_some insts 0 hread).1 ha

/-- A run that frees as scheduled ends as one that frees nothing, for an outcome that the
latter has and at the addresses that are kept. -/
theorem run_of_execute_loop {s : Simulator} {s' : Impl} {k : ℕ} (hN : s.ring_dim ≠ 0)
    (hcovers : ∀ inst ∈ s.trace.instructions, CoversBuffer s.ring_dim inst)
    (hplain : execute_loop M [] s.trace.instructions 0 { s.toImpl with error_count := 0 } 0 =
      some (s', k)) :
    ∃ f, run M (compute_liveness s false) = some (f, ⟨k, s'.error_count⟩) ∧
      ∀ a ∈ s.live_out_, f.memory a = s'.memory a := by
  have hloop := execute_loop_eq (M := M) (S := s.toSetup) [] s.trace.instructions 0
    { s.toProgress with error_count := 0 } s.memory 0
  have hnone : (fun j => ([] : List (List ℕ)).getD j []) = fun _ => [] := funext fun _ => rfl
  rw [hnone, Machine.runFreeing_empty] at hloop
  obtain ⟨c, hrun, hend⟩ := Option.map_eq_some_iff.mp (hloop.symm.trans hplain)
  -- the run without a schedule and the one with it, from the same memory
  have hagree := Machine.runFreeing_agree _ none (· ∈ s.live_out_) _ s.trace.instructions 0
    ({ s.toProgress with error_count := 0 }, 0) s.memory s.memory
    (free_schedule_safe (M := M) (S := s.toSetup) s.live_out_ s.trace.instructions hcovers)
    fun _ _ => rfl
  rw [hrun] at hagree
  obtain ⟨rfl, rfl⟩ := Prod.mk.inj hend
  rw [run_eq_runFreeing (s := compute_liveness s false) hN]
  generalize hfreed : (simMachine M s.toSetup).runFreeing none
    (fun j => (free_schedule s.live_out_ s.trace.instructions).getD j []) s.trace.instructions 0
    (({ s.toProgress with error_count := 0 }, 0), s.memory) = freed at hagree
  obtain ⟨c', rfl, hsame, hkeep⟩ : ∃ c', freed = some c' ∧ c'.1 = c.1 ∧
      ∀ a ∈ s.live_out_, c'.2 a = c.2 a := by
    cases hagree with
    | some h => exact ⟨_, rfl, h⟩
  refine ⟨(simulatorOf (compute_liveness s false) c').1, ?_, hkeep⟩
  refine (congrArg (Option.map (simulatorOf (compute_liveness s false))) hfreed).trans ?_
  rw [Option.map_some, ← hsame]
  rfl

/-- An address is accessed by an instruction that reads it or writes it. -/
def Accesses (u : InstUses) (a : ℕ) : Prop := a ∈ u.reads ∨ (u.writes ∧ u.write = a)

private theorem exists_last_index {α : Type*} {P : α → Prop} (l : List α) (h : ∃ x ∈ l, P x) :
    ∃ j x, l[j]? = some x ∧ P x ∧ ∀ y ∈ l.drop (j + 1), ¬ P y := by
  induction l with
  | nil => obtain ⟨x, hx, -⟩ := h; exact absurd hx List.not_mem_nil
  | cons x rest ih =>
    by_cases hrest : ∃ y ∈ rest, P y
    · obtain ⟨j, y, hget, hy, hlast⟩ := ih hrest
      exact ⟨j + 1, y, by rwa [List.getElem?_cons_succ], hy, by rwa [List.drop_succ_cons]⟩
    · obtain ⟨y, hmem, hy⟩ := h
      rcases List.mem_cons.mp hmem with rfl | hmem
      · exact ⟨0, y, rfl, hy, fun z hz hPz => hrest ⟨z, hz, hPz⟩⟩
      · exact absurd ⟨y, hmem, hy⟩ hrest

/-- **Every accessed address is freed at its last access.** -/
theorem exists_freed_index {live_out : List ℕ} {insts : List Instruction} {a : ℕ}
    (ha : a ∉ live_out) (hacc : ∃ inst ∈ insts, Accesses (classify_uses inst) a) :
    ∃ j < insts.length, a ∈ (free_schedule live_out insts).getD j [] ∧
      ∀ inst ∈ insts.drop (j + 1), ¬ Accesses (classify_uses inst) a := by
  obtain ⟨j, inst, hget, hinst, hlast⟩ := exists_last_index insts hacc
  refine ⟨j, (List.getElem?_eq_some_iff.mp hget).1, mem_free_schedule.mpr ?_, hlast⟩
  -- no read lies past the last access
  have hle : ∀ d, lastRead live_out a insts 0 = some d → d ≤ j := by
    intro d hd
    obtain ⟨-, -, ⟨inst', hget', hread⟩, -⟩ := lastRead_some insts 0 hd
    by_contra hlt
    refine hlast inst' (List.mem_of_getElem? (i := d - 0 - (j + 1)) ?_) (.inl hread)
    rwa [List.getElem?_drop, show j + 1 + (d - 0 - (j + 1)) = d - 0 by omega]
  by_cases hj : lastRead live_out a insts 0 = some j
  · exact .inr hj
  · -- not read here, so the access is the write, and it is dead
    have hlt : ∀ d, lastRead live_out a insts 0 = some d → d < j := fun d hd =>
      Nat.lt_of_le_of_ne (hle d hd) fun h => hj (h ▸ hd)
    rcases hinst with hread | ⟨hw, rfl⟩
    · cases hl : lastRead live_out a insts 0 with
      | none => exact absurd hread (lastRead_none ha insts 0 hl inst (List.mem_of_getElem? hget))
      | some d =>
        obtain ⟨-, -, -, hno⟩ := lastRead_some insts 0 hl
        exact absurd hread (hno j inst (by have := hlt d hl; omega) hget)
    · exact .inl ⟨inst, hget, rfl, hw, ha, hlt⟩

/-- **Liveness-driven freeing is unobservable.** For a power-of-two ring
dimension the run with the computed schedule and the run that frees nothing
both lack an outcome, or end with the same counts and the same contents at
every live-out address; and the freed run leaves no other address resident that
any instruction reads or writes. -/
theorem freeing_unobservable (M : NativeMath) (s : Simulator) (n : ℕ)
    (hN : s.ring_dim = 2 ^ n) :
    Option.Rel (fun freed plain =>
        freed.2 = plain.2 ∧
        (∀ a ∈ s.live_out_, freed.1.memory a = plain.1.memory a) ∧
        ∀ a, a ∉ s.live_out_ → (∃ inst ∈ s.trace.instructions, Accesses (execUses inst) a) →
          freed.1.memory a = none)
      (run M (compute_liveness s false)) (run M { s with free_after_ := [] }) := by
  have hpos : s.ring_dim ≠ 0 := by rw [hN]; exact (Nat.two_pow_pos n).ne'
  rw [run_eq_runFreeing (s := compute_liveness s false) hpos,
    run_eq_runFreeing (s := { s with free_after_ := [] }) hpos]
  have hsafe := free_schedule_safe (M := M) (S := s.toSetup) s.live_out_ s.trace.instructions
    fun _ _ _ => by rw [hN, Nat.log2_two_pow]
  have hagree := Machine.runFreeing_agree _ none (· ∈ s.live_out_) _ s.trace.instructions 0
    ({ s.toProgress with error_count := 0 }, 0) s.memory s.memory hsafe fun _ _ => rfl
  rw [← Machine.runFreeing_empty _ none _ 0] at hagree
  refine Lib.rel_map hagree ?_
  rintro ⟨σ, m⟩ ⟨σ', m'⟩ hfreed - ⟨rfl, hkeep⟩
  refine ⟨rfl, hkeep, fun a ha hacc => ?_⟩
  obtain ⟨inst, hinst, hacc⟩ := hacc
  have hclass : Accesses (classify_uses inst) a := by
    rcases execUses_eq inst with he | he
    · rwa [he] at hacc
    · rw [he] at hacc
      simp [Accesses] at hacc
  obtain ⟨j, hj, hfree, hlast⟩ := exists_freed_index ha ⟨inst, hinst, hclass⟩
  refine Machine.runFreeing_freed _ s.trace.instructions j 0 _ (σ, m) hj
    (by rwa [Nat.zero_add]) (fun inst' hmem s₁ m₁ s₂ v hact hdest => ?_) hfreed
  -- a later write would be an access past the last one
  have hw := simMachine_writes hact
  refine hlast inst' hmem (.inr ?_)
  rcases execUses_eq inst' with he | he
  · rw [← he]
    exact ⟨hw, (execUses_write hw).trans hdest⟩
  · rw [he] at hw
    exact absurd hw (by simp)

/-- A program that rewrites an address, reads it aliased, and leaves a dead
write behind. -/
def livenessExample : Simulator where
  ring_dim := 2
  trace :=
    { modulus_table := [17]
      instructions :=
        [{ opcode := .FH_SR_ADDP, dest := 2, src1 := 1, src2 := 1, modulus := some 0 },
         { opcode := .FH_SR_MULP, dest := 2, src1 := 2, src2 := 1, modulus := some 0 },
         { opcode := .FH_SR_ADDPS, dest := 3, src1 := 2, immediate := some 5, modulus := some 0 },
         { opcode := .FH_SR_NEGP, dest := 4, src1 := 2, modulus := some 0 }] }
  memory := Function.update Memory.empty 1 (some ⟨[3, 4], 17, true⟩)
  live_out_ := [3]

theorem freeing_unobservable_example :
    livenessExample.ring_dim = 2 ^ 1 ∧
    Option.Rel (fun freed plain =>
        freed.2 = plain.2 ∧
        (∀ a ∈ livenessExample.live_out_, freed.1.memory a = plain.1.memory a) ∧
        ∀ a, a ∉ livenessExample.live_out_ →
          (∃ inst ∈ livenessExample.trace.instructions, Accesses (execUses inst) a) →
          freed.1.memory a = none)
      (run referenceMath (compute_liveness livenessExample false))
      (run referenceMath { livenessExample with free_after_ := [] }) :=
  ⟨rfl, freeing_unobservable referenceMath livenessExample 1 rfl⟩

end Fhetch
