/-
Traces as straight-line programs (`src/fhetch_sim/simulator.cpp`).

Of a trace that runs without an error only this matters: which kernel each instruction
applies, under which modulus, and the addresses it reads and writes. These are the lines
of the trace. A run without an error evaluates them, and lines that have an outcome run
without an error, from any state with the same values. So two traces with the same lines
do the same, whatever their modulus tables look like.
-/
import Fhetch.KernelValues
import Fhetch.RecordedCode
import Fhetch.RecordingWindows
import Fhetch.Lib.Renaming

set_option autoImplicit false

namespace Fhetch

open Renaming

/-! ## Lines -/

/-- An instruction but for its modulus, and the value of that. -/
abbrev Kernel := Instruction × ℕ

/-- What a kernel leaves, by the values of its operands. -/
def kernel_result (M : NativeMath) (N : ℕ) (k : Kernel) (operands : List Poly) : Option Poly :=
  k.1.result M N k.2 operands

/-- An instruction without its modulus. -/
def Instruction.unbound (inst : Instruction) : Instruction :=
  { inst with modulus := none, modulus_is_literal := false }

/-- The line of an instruction with the value of its modulus; those that write nothing
have none. -/
def entry_line (e : Entry) : Option (Line Kernel ℕ) :=
  if (execUses e.1).writes then
    some ⟨(e.1.unbound, (e.2.getD 0).toNat), (execUses e.1).reads, e.1.dest.toNat⟩
  else none

/-- The lines of a trace. -/
def trace_lines (table : List UInt64) (insts : List Instruction) : List (Line Kernel ℕ) :=
  insts.filterMap fun inst => entry_line (inst, inst.selects table)

theorem trace_lines_append (table : List UInt64) (insts insts' : List Instruction) :
    trace_lines table (insts ++ insts') = trace_lines table insts ++ trace_lines table insts' :=
  List.filterMap_append

/-- The lines of an instruction in front of others. -/
theorem trace_lines_cons (table : List UInt64) (inst : Instruction) (insts : List Instruction) :
    trace_lines table (inst :: insts) =
      (entry_line (inst, inst.selects table)).toList ++ trace_lines table insts := by
  rw [trace_lines, List.filterMap_cons]
  rcases entry_line (inst, inst.selects table) with - | l
  · rfl
  · rfl

theorem execUses_unbound (inst : Instruction) : execUses inst.unbound = execUses inst := rfl

theorem entry_line_of_writes {e : Entry} (h : (execUses e.1).writes = true) :
    entry_line e = some ⟨(e.1.unbound, (e.2.getD 0).toNat), (execUses e.1).reads, e.1.dest.toNat⟩ :=
  if_pos h

theorem entry_line_of_not_writes {e : Entry} (h : (execUses e.1).writes = false) :
    entry_line e = none := if_neg (by simp [h])

theorem unbound_sameKernel (inst : Instruction) : inst.SameKernel inst.unbound :=
  ⟨rfl, fun _ => rfl, fun _ => rfl, fun _ => rfl, fun _ => rfl⟩

/-- What was emitted has the lines of what is written. -/
theorem trace_lines_of_recorded {table : List UInt64} {insts : List Instruction} {emitted : List Entry}
    (h : List.Forall₂ (Recorded table) insts emitted) :
    trace_lines table insts = emitted.filterMap entry_line := by
  induction h with
  | nil => rfl
  | @cons inst entry insts emitted hinst hrest ih =>
    have hframe := hinst.frame
    have hdest : inst.dest = entry.1.dest := by rw [hframe]
    have hunbound : inst.unbound = entry.1.unbound := by
      rw [hframe]
      rfl
    have hline : entry_line (inst, inst.selects table) = entry_line entry := by
      rw [entry_line, entry_line, hinst.selects, ← execUses_unbound inst, ← execUses_unbound entry.1,
        hunbound, hdest]
    rw [trace_lines_cons, hline, ih, List.filterMap_cons]
    rcases entry_line entry with - | l
    · rfl
    · rfl

/-! ## Runs -/

section Runs

variable {M : NativeMath} {n : ℕ} {s s' : Impl} {inst : Instruction}

theorem withTables_write_get_or_zero (s : Impl) (tables : List ((ℕ × Option ℕ) × NttTables))
    (d q : ℕ) (v : Poly) : ((s.withTables tables).write d v q).get_or_zero =
      Function.update s.get_or_zero d v := by
  funext a
  rw [Impl.write_get_or_zero, Function.update_apply]
  rfl

/-- A modulus resolves to what it selects. -/
theorem Impl.selects_of_resolve {q : ℕ} (h : s.resolve_modulus inst = (s, q)) :
    ∃ m, inst.selects s.trace.modulus_table = some m ∧ q = m.toNat := by
  rcases s.resolve_modulus_cases inst with ⟨⟨m, hm, hplace⟩, -⟩ | ⟨-, herror⟩
  · by_cases hliteral : inst.modulus_is_literal = true
    · have hselects : inst.selects s.trace.modulus_table = some m := by
        simp [Instruction.selects, hm, hliteral]
      rw [Impl.resolve_of_selects hselects] at h
      exact ⟨m, hselects, (Prod.mk.inj h).2.symm⟩
    · have hlt := hplace.resolve_left hliteral
      have hselects : inst.selects s.trace.modulus_table =
          some s.trace.modulus_table[m.toNat] := by
        simp [Instruction.selects, hm, hliteral, hlt]
      rw [Impl.resolve_of_selects hselects] at h
      exact ⟨_, hselects, (Prod.mk.inj h).2.symm⟩
  · -- an error would have been counted
    have hcount := congrArg (fun r => r.1.error_count) (herror.symm.trans h)
    exact absurd (show s.error_count + 1 = s.error_count from hcount) (Nat.succ_ne_self _)

/-- A run counts no fewer errors than it began with. -/
theorem execute_loop_errors (insts : List Instruction) : ∀ {i k k' : ℕ} {s s' : Impl},
    execute_loop M [] insts i s k = some (s', k') → s.error_count ≤ s'.error_count := by
  induction insts with
  | nil =>
    intro i k k' s s' h
    rw [(Prod.mk.inj (Option.some.inj h)).1]
  | cons inst rest ih =>
    intro i k k' s s' h
    obtain ⟨⟨s₁, ok⟩, hexec, hloop⟩ := Option.bind_eq_some_iff.mp h
    exact (exec_instruction_progress M hexec).2.1.trans (ih (s := s₁) hloop)

/-- **A run without an error evaluates the lines of its trace.** -/
theorem evaluate_of_execute_loop (insts : List Instruction) :
    ∀ {i k k' : ℕ} {s s' : Impl}, s.ring_dim = 2 ^ n → s.Cached M →
      execute_loop M [] insts i s k = some (s', k') → s'.error_count = s.error_count →
      evaluate (kernel_result M (2 ^ n)) s.get_or_zero (trace_lines s.trace.modulus_table insts) =
        some s'.get_or_zero := by
  induction insts with
  | nil =>
    intro i k k' s s' _ _ h _
    obtain rfl := (Prod.mk.inj (Option.some.inj h)).1
    rfl
  | cons inst rest ih =>
    intro i k k' s s' hdim hs h hcount
    obtain ⟨⟨s₁, ok⟩, hexec, hloop⟩ := Option.bind_eq_some_iff.mp h
    have hsetup := (exec_instruction_progress M hexec).1
    have hle := (exec_instruction_progress M hexec).2.1
    replace hloop : execute_loop M [] rest (i + 1) s₁ (if ok then k + 1 else k) = some (s', k') := hloop
    have hrest := execute_loop_errors rest hloop
    have hcount₁ : s₁.error_count = s.error_count := by omega
    have hdim₁ : s₁.ring_dim = 2 ^ n := (congrArg Setup.ring_dim hsetup).trans hdim
    have htable : s₁.trace.modulus_table = s.trace.modulus_table :=
      congrArg (fun S => S.trace.modulus_table) hsetup
    rw [trace_lines_cons]
    by_cases hwrites : (execUses inst).writes = true
    · obtain ⟨-, q, v, hwrote⟩ := exec_instruction_wrote hdim hs hwrites hexec hcount₁
      obtain ⟨tables, hcached, rfl⟩ := hwrote.write
      obtain ⟨m, hselects, rfl⟩ := Impl.selects_of_resolve hwrote.resolves
      have hwhole := ih hdim₁ (hcached.congr rfl rfl) hloop (hcount.trans hcount₁.symm)
      rw [htable, withTables_write_get_or_zero] at hwhole
      have hresult : kernel_result M (2 ^ n) (inst.unbound, m.toNat) (s.operands inst) = some v := by
        rw [kernel_result, (unbound_sameKernel inst).result, ← hdim]
        exact hwrote.result
      rw [entry_line_of_writes hwrites, hselects, Option.toList_some, List.singleton_append,
        evaluate_cons, Line.step]
      dsimp only [Option.getD_some]
      rw [show (execUses inst).reads.map s.get_or_zero = s.operands inst from rfl, hresult]
      exact hwhole
    · rw [Bool.not_eq_true] at hwrites
      rcases exec_instruction_verdict M s inst with ⟨-, hsame⟩ | ⟨hwrites', -⟩
      · rw [hsame] at hexec
        obtain ⟨rfl, rfl⟩ := Prod.mk.inj (Option.some.inj hexec)
        rw [entry_line_of_not_writes hwrites]
        exact ih hdim hs hloop hcount
      · rw [hwrites] at hwrites'
        exact absurd hwrites' (by simp)

/-- Every instruction of it that writes selects a modulus, and has a result. -/
theorem results_of_execute_loop (insts : List Instruction) :
    ∀ {i k k' : ℕ} {s s' : Impl}, s.ring_dim = 2 ^ n → s.Cached M →
      execute_loop M [] insts i s k = some (s', k') → s'.error_count = s.error_count →
      ∀ inst ∈ insts, (execUses inst).writes = true → ∃ q, inst.selects s.trace.modulus_table = some q ∧
        ∃ operands v, inst.result M (2 ^ n) q.toNat operands = some v := by
  induction insts with
  | nil => exact fun _ _ _ _ => List.forall_mem_nil _
  | cons inst rest ih =>
    intro i k k' s s' hdim hs h hcount
    obtain ⟨⟨s₁, ok⟩, hexec, hloop⟩ := Option.bind_eq_some_iff.mp h
    obtain ⟨hsetup, hle, -⟩ := exec_instruction_progress M hexec
    replace hloop : execute_loop M [] rest (i + 1) s₁ (if ok then k + 1 else k) = some (s', k') := hloop
    have hrest := execute_loop_errors rest hloop
    have hcount₁ : s₁.error_count = s.error_count := by omega
    have htable : s₁.trace.modulus_table = s.trace.modulus_table :=
      congrArg (fun S => S.trace.modulus_table) hsetup
    have hcached : s₁.Cached M := by
      rcases exec_instruction_verdict M s inst with ⟨-, hsame⟩ | ⟨hwrites, -⟩
      · rw [hsame] at hexec
        rw [← (Prod.mk.inj (Option.some.inj hexec)).1]
        exact hs
      · obtain ⟨-, q, v, hwrote⟩ := exec_instruction_wrote hdim hs hwrites hexec hcount₁
        obtain ⟨tables, hcached, rfl⟩ := hwrote.write
        exact hcached.congr rfl rfl
    refine List.forall_mem_cons.mpr ⟨fun hwrites => ?_, ?_⟩
    · obtain ⟨-, q, v, hwrote⟩ := exec_instruction_wrote hdim hs hwrites hexec hcount₁
      obtain ⟨m, hselects, rfl⟩ := Impl.selects_of_resolve hwrote.resolves
      exact ⟨m, hselects, _, v, hdim ▸ hwrote.result⟩
    · have hwhole := ih ((congrArg Setup.ring_dim hsetup).trans hdim) hcached hloop
        (hcount.trans hcount₁.symm)
      rw [htable] at hwhole
      exact hwhole

/-- **Lines that have an outcome run without an error**, to the values that they evaluate
to. What a line writes is there in the end, and so is what was there before. -/
theorem execute_loop_of_evaluate (insts : List Instruction) :
    ∀ {i k : ℕ} {s : Impl} {m : ℕ → Poly}, s.ring_dim = 2 ^ n → s.Cached M →
      (∀ inst ∈ insts, (execUses inst).writes = true → (inst.selects s.trace.modulus_table).isSome) →
      evaluate (kernel_result M (2 ^ n)) s.get_or_zero (trace_lines s.trace.modulus_table insts) =
        some m →
      ∃ s', execute_loop M [] insts i s k = some (s', k + insts.length) ∧
        s'.error_count = s.error_count ∧ s'.get_or_zero = m ∧
        ∀ a, s.memory.is_initialized a = true ∨
            a ∈ (trace_lines s.trace.modulus_table insts).map Line.dest →
          s'.memory.is_initialized a = true := by
  induction insts with
  | nil =>
    intro i k s m _ _ _ h
    refine ⟨s, rfl, rfl, Option.some.inj h, fun a ha => ha.resolve_right List.not_mem_nil⟩
  | cons inst rest ih =>
    intro i k s m hdim hs hselects h
    obtain ⟨hinst, hrest⟩ := List.forall_mem_cons.mp hselects
    have hlength : k + (inst :: rest).length = k + 1 + rest.length := by
      rw [List.length_cons]
      omega
    rw [hlength]
    rw [trace_lines_cons] at h ⊢
    by_cases hwrites : (execUses inst).writes = true
    · obtain ⟨q, hq⟩ := Option.isSome_iff_exists.mp (hinst hwrites)
      rw [entry_line_of_writes hwrites, hq, Option.toList_some, List.singleton_append,
        evaluate_cons] at h
      obtain ⟨m₁, hstep, h⟩ := Option.bind_eq_some_iff.mp h
      obtain ⟨v, hv, rfl⟩ := Option.map_eq_some_iff.mp hstep
      have hresult : inst.result M s.ring_dim q.toNat (s.operands inst) = some v := by
        rw [hdim, ← (unbound_sameKernel inst).result]
        exact hv
      obtain ⟨tables, hcached, hexec⟩ := (exec_instruction_result hdim hs
        (Impl.resolve_of_selects hq) hwrites).gives v hresult
      -- the instruction writes its value, and the rest starts from there
      obtain ⟨s', hloop, hcount, hvalues, hinit⟩ := ih (i := i + 1) (k := k + 1)
        (s := (s.withTables tables).write inst.dest.toNat v q.toNat) hdim
        (hcached.congr rfl rfl) hrest (by rw [withTables_write_get_or_zero]; exact h)
      refine ⟨s', ?_, hcount, hvalues, fun a ha => hinit a ?_⟩
      · rw [execute_loop, hexec]
        exact hloop
      · rw [Impl.write_initialized]
        rw [entry_line_of_writes hwrites, Option.toList_some, List.singleton_append, List.map_cons,
          List.mem_cons] at ha
        rcases ha with ha | rfl | ha
        · exact .inl (.inr ha)
        · exact .inl (.inl rfl)
        · exact .inr ha
    · rw [Bool.not_eq_true] at hwrites
      have hsame : exec_instruction M s inst = some (s, true) := by
        rcases exec_instruction_verdict M s inst with ⟨-, hsame⟩ | ⟨hwrites', -⟩
        · exact hsame
        · rw [hwrites] at hwrites'
          exact absurd hwrites' (by simp)
      rw [entry_line_of_not_writes hwrites] at h ⊢
      obtain ⟨s', hloop, hrest⟩ := ih (i := i + 1) (k := k + 1) hdim hs hrest h
      refine ⟨s', ?_, hrest⟩
      rw [execute_loop, hsame]
      exact hloop

/-- **What a run without an error leaves can be read**, where it was there before or a line
writes it. -/
theorem initialized_of_execute_loop (insts : List Instruction) {i k k' : ℕ} (hdim : s.ring_dim = 2 ^ n)
    (hs : s.Cached M) (h : execute_loop M [] insts i s k = some (s', k'))
    (hcount : s'.error_count = s.error_count) (a : ℕ) (ha : s.memory.is_initialized a = true ∨
      a ∈ (trace_lines s.trace.modulus_table insts).map Line.dest) : s'.memory.is_initialized a = true := by
  -- the run that the lines have is the one there was
  obtain ⟨s'', hloop, -, -, hinit⟩ := execute_loop_of_evaluate (i := i) (k := k) insts hdim hs
    (fun inst hinst hwrites => by
      obtain ⟨q, hq, -⟩ := results_of_execute_loop insts hdim hs h hcount inst hinst hwrites
      exact Option.isSome_iff_exists.mpr ⟨q, hq⟩) (evaluate_of_execute_loop insts hdim hs h hcount)
  obtain ⟨rfl, -⟩ := Prod.mk.inj (Option.some.inj (hloop.symm.trans h))
  exact hinit a ha

/-- A run of the simulator is one of its loop, which frees nothing before a schedule is
made. -/
theorem loop_of_run {s f : Simulator} {r : SimResult} (hN : s.ring_dim ≠ 0) (hfree : s.free_after_ = [])
    (h : run M s = some (f, r)) :
    ∃ impl k, execute_loop M [] s.trace.instructions 0 { s.toImpl with error_count := 0 } 0 =
      some (impl, k) ∧ f.toImpl = impl ∧ r.errors = impl.error_count := by
  rw [run, if_neg hN, execute, hfree] at h
  obtain ⟨⟨impl, k⟩, hloop, hpair⟩ := Option.map_eq_some_iff.mp h
  obtain ⟨rfl, rfl⟩ := Prod.mk.inj hpair
  exact ⟨impl, k, hloop, rfl, rfl⟩

/-- The values of an initialized address are read back. -/
theorem get_polynomial_eq {f : Simulator} {impl : Impl} {a : ℕ} (hmemory : f.memory a = impl.memory a)
    (hinit : impl.memory.is_initialized a = true) : get_polynomial f a = impl.get_or_zero a := by
  rw [get_polynomial, Impl.get_or_zero, if_pos hinit, Memory.is_initialized, Memory.get, hmemory]
  exact if_pos hinit

end Runs

end Fhetch
