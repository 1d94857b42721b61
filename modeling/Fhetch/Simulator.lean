/-
The instruction-set simulator (`src/fhetch_sim/memory.h`, `simulator.cpp`):
memory, the arithmetic kernels and the execution loop.

OpenFHE itself is not part of this repository. What the kernels call of it is
the structure `NativeMath`, a parameter of every kernel; `NativeMath.Exact`
states the documented arithmetic for the results that need it.

A kernel is a function to `Option (Impl × Bool)`. The inner `Bool` is the `ok`
of the source. The outer `none` is a run with no outcome in the source either:
an exception out of OpenFHE, a read or write outside a buffer, a remainder by
zero, or a loop that never ends. It is never used for an error the simulator
counts.

Every kernel but one looks at the memory only through its sources. The
exception is the evaluation automorphism, which scatters into whatever the
destination buffer held; `Fhetch.Locality` settles what that means.
-/
import Fhetch.Ir
import Mathlib.Data.Nat.Bitwise
import Mathlib.Logic.Function.Basic

set_option autoImplicit false

namespace Fhetch

/-! ## Memory -/

/-- The values of one polynomial. -/
abbrev Poly := List ℕ

structure MemoryElement where
  values : Poly := []
  modulus : ℕ := 0
  initialized : Bool := false
  deriving DecidableEq

/-- `mem_`: the slots present, by address. The ring dimension the source keeps
beside it is passed to the operations that size a buffer. -/
abbrev Memory := ℕ → Option MemoryElement

/-- `std::vector::resize`. -/
def resize (values : Poly) (n : ℕ) : Poly := values.take n ++ List.replicate (n - values.length) 0

namespace Memory

def empty : Memory := fun _ => none

def get (m : Memory) (address : ℕ) : MemoryElement := (m address).getD {}

def is_initialized (m : Memory) (address : ℕ) : Bool := (m.get address).initialized

/-- The buffer a kernel is handed for its destination: what the slot held, at
the length of the ring dimension. -/
def reserve_dest (m : Memory) (ring_dim address : ℕ) : Poly :=
  resize (m.get address).values ring_dim

/-- `commit_dest`, together with the stores the kernel made into the reserved
buffer before calling it. -/
def commit_dest (m : Memory) (address : ℕ) (buffer : Poly) (modulus : ℕ) : Memory :=
  Function.update m address (some ⟨buffer, modulus, true⟩)

/-- The copying store. `std::copy` runs over the end of the reserved buffer
when the values are longer than it. -/
def set (m : Memory) (ring_dim address : ℕ) (values : Poly) (modulus : ℕ) : Option Memory :=
  if ring_dim < values.length then none
  else
    let out := m.reserve_dest ring_dim address
    some (m.commit_dest address (values ++ out.drop values.length) modulus)

/-- The donating store. -/
def set_owned (m : Memory) (ring_dim address : ℕ) (values : Poly) (modulus : ℕ) : Memory :=
  Function.update m address (some ⟨resize values ring_dim, modulus, true⟩)

def erase (m : Memory) (address : ℕ) : Memory := Function.update m address none

@[simp] theorem commit_dest_self (m : Memory) (a q : ℕ) (b : Poly) :
    m.commit_dest a b q a = some ⟨b, q, true⟩ := Function.update_self ..

theorem commit_dest_of_ne (m : Memory) {a a' : ℕ} (b : Poly) (q : ℕ) (h : a' ≠ a) :
    m.commit_dest a b q a' = m a' := Function.update_of_ne h _ _

end Memory

@[simp] theorem resize_length (values : Poly) (n : ℕ) : (resize values n).length = n := by
  rw [resize, List.length_append, List.length_take, List.length_replicate]
  omega

theorem Memory.reserve_dest_length (m : Memory) (ring_dim address : ℕ) :
    (m.reserve_dest ring_dim address).length = ring_dim := resize_length _ _

theorem Memory.reserve_dest_congr {m m' : Memory} {ring_dim address : ℕ}
    (h : m address = m' address) : m.reserve_dest ring_dim address = m'.reserve_dest ring_dim address := by
  rw [Memory.reserve_dest, Memory.reserve_dest, Memory.get, Memory.get, h]

theorem resize_of_length {values : Poly} {n : ℕ} (h : values.length = n) :
    resize values n = values := by
  rw [resize, ← h, List.take_length, Nat.sub_self, List.replicate_zero, List.append_nil]

/-! ## OpenFHE -/

/-- Twiddle tables for one modulus and root. -/
structure NttTables where
  forward : Poly
  forward_precon : Poly
  inverse : Poly
  inverse_precon : Poly
  n_inverse : ℕ
  n_inverse_precon : ℕ
  deriving DecidableEq

/-- What the simulator calls of OpenFHE. The modulus comes first; `none` is an
exception. -/
structure NativeMath where
  /-- `NativeVector::ModAdd` of two vectors over the modulus, and the other two
  binary operations. -/
  ModAdd : ℕ → Poly → Poly → Option Poly
  ModSub : ℕ → Poly → Poly → Option Poly
  ModMul : ℕ → Poly → Poly → Option Poly
  /-- `NativeVector::ModAddEq` by an integer, and its siblings. -/
  ModAddEq : ℕ → Poly → ℕ → Option Poly
  ModSubEq : ℕ → Poly → ℕ → Option Poly
  ModMulEq : ℕ → Poly → ℕ → Option Poly
  /-- `NativeInteger::ModMulEq` and `ModInverse`. -/
  ModMulInteger : ℕ → ℕ → ℕ → ℕ
  ModInverse : ℕ → ℕ → Option ℕ
  PrepModMulConst : ℕ → ℕ → ℕ
  GetMSB : ℕ → ℕ
  ReverseBits : ℕ → ℕ → ℕ
  /-- `RootOfUnity(m, q)`: the minimal primitive `m`-th root of unity. -/
  RootOfUnity : ℕ → ℕ → Option ℕ
  ForwardTransformToBitReverseInPlace : ℕ → NttTables → Poly → Option Poly
  InverseTransformFromBitReverseInPlace : ℕ → NttTables → Poly → Option Poly

/-- The documented arithmetic: over a positive modulus each operation is the
exact modular one, coefficient by coefficient. The library promises it of vectors of
reduced residues under moduli of at most 60 bits; for other operands and moduli
this idealizes it (`LibraryRange.lean` has the traces that stay within the promise). -/
structure NativeMath.Exact (M : NativeMath) : Prop where
  ModAdd : ∀ q a b, 0 < q → a.length = b.length →
    M.ModAdd q a b = some (List.zipWith (fun x y => (x + y) % q) a b)
  ModSub : ∀ q a b, 0 < q → a.length = b.length →
    M.ModSub q a b = some (List.zipWith (fun x y => (x + (q - y % q)) % q) a b)
  ModMul : ∀ q a b, 0 < q → a.length = b.length →
    M.ModMul q a b = some (List.zipWith (fun x y => x * y % q) a b)
  ModAddEq : ∀ q a s, 0 < q → M.ModAddEq q a s = some (a.map fun x => (x + s) % q)
  ModSubEq : ∀ q a s, 0 < q → M.ModSubEq q a s = some (a.map fun x => (x + (q - s % q)) % q)
  ModMulEq : ∀ q a s, 0 < q → M.ModMulEq q a s = some (a.map fun x => x * s % q)

/-! ## Simulator state -/

/-- What is set up before a run and no instruction changes. -/
structure Setup where
  ring_dim : ℕ := 0
  trace : Program := {}

/-- What an instruction can change besides the memory. -/
structure Progress where
  error_count : ℕ := 0
  /-- Keyed by modulus and by the trace's omega. -/
  ntt_tables : List ((ℕ × Option ℕ) × NttTables) := []
  deriving DecidableEq

/-- The part of `Simulator::Impl` the kernels work on. The addresses already
warned about are left out: they only thin the diagnostics. -/
structure Impl extends Setup, Progress where
  memory : Memory := Memory.empty

/-- The simulator: the rest of `Impl`, which only the execution loop and the
liveness pass look at. -/
structure Simulator extends Impl where
  /-- The addresses released after each instruction; empty frees nothing. -/
  free_after_ : List (List ℕ) := []
  live_out_ : List ℕ := []

namespace Impl

/-- Report an error against an instruction; the text goes to `stderr`. -/
def error (s : Impl) : Impl := { s with error_count := s.error_count + 1 }

/-- An instruction's modulus. An unresolvable one counts an error, and the
caller carries on modulo zero. -/
def resolve_modulus (s : Impl) (inst : Instruction) : Impl × ℕ :=
  match inst.modulus with
  | none => (s.error, 0)
  | some m =>
    if inst.modulus_is_literal then (s, m.toNat)
    else match s.trace.modulus_table[m.toNat]? with
      | some q => (s, q.toNat)
      | none => (s.error, 0)

/-- An operand's values, zeros when the address was never written. -/
def get_or_zero (s : Impl) (addr : ℕ) : Poly :=
  if s.memory.is_initialized addr then (s.memory.get addr).values
  else List.replicate s.ring_dim 0

variable (s : Impl) (inst : Instruction)

/-- Resolving a modulus at most counts an error. -/
theorem resolve_modulus_eq : (s.resolve_modulus inst).1 = s ∨ (s.resolve_modulus inst).1 = s.error := by
  unfold resolve_modulus
  split
  · exact .inr rfl
  · split
    · exact .inl rfl
    · split
      · exact .inl rfl
      · exact .inr rfl

@[simp] theorem resolve_modulus_setup : (s.resolve_modulus inst).1.toSetup = s.toSetup := by
  rcases s.resolve_modulus_eq inst with h | h
  · rw [h]
  · rw [h]; rfl

@[simp] theorem resolve_modulus_memory : (s.resolve_modulus inst).1.memory = s.memory := by
  rcases s.resolve_modulus_eq inst with h | h
  · rw [h]
  · rw [h]; rfl

@[simp] theorem resolve_modulus_get_or_zero (a : ℕ) :
    (s.resolve_modulus inst).1.get_or_zero a = s.get_or_zero a := by
  rcases s.resolve_modulus_eq inst with h | h
  · rw [h]
  · rw [h]; rfl

/-- `reserve_dest`, the stores of the kernel, `commit_dest`. -/
def write (s : Impl) (addr : ℕ) (result : Poly) (q : ℕ) : Impl :=
  { s with memory := s.memory.commit_dest addr result q }

end Impl

/-! ## Transform tables -/

/-- The squarings of `is_primitive_2n_root`, `n = 1, 2, 4, …` below the ring
dimension; a 64-bit dimension is passed after at most 64 of them. -/
def primitive_power (ring_dim q : ℕ) : ℕ → ℕ → ℕ → ℕ
  | 0, _, power => power
  | fuel + 1, n, power =>
    if n < ring_dim then primitive_power ring_dim q fuel (2 * n) (power * power % q) else power

/-- `include/niobium/checks.h`. -/
def is_primitive_2n_root (root ring_dim q : ℕ) : Bool :=
  if q ≤ 2 ∨ q ≤ root ∨ ring_dim = 0 ∨ ring_dim &&& (ring_dim - 1) ≠ 0 then false
  else primitive_power ring_dim q 64 1 root = q - 1

variable (M : NativeMath)

/-- One iteration of `build_ntt_tables`: the slot of `i` gets the current
powers, which then move on. -/
def ntt_tables_slot (q psi psi_inverse log_n : ℕ) (st : NttTables × ℕ × ℕ) (i : ℕ) :
    NttTables × ℕ × ℕ :=
  let (t, power, inverse_power) := st
  let slot := M.ReverseBits i log_n
  ({ t with
      forward := t.forward.set slot power
      forward_precon := t.forward_precon.set slot (M.PrepModMulConst q power)
      inverse := t.inverse.set slot inverse_power
      inverse_precon := t.inverse_precon.set slot (M.PrepModMulConst q inverse_power) },
    M.ModMulInteger q power psi, M.ModMulInteger q inverse_power psi_inverse)

/-- `psi^i` at slot `brv(i)`, and `psi^-i` likewise for the inverse. -/
def build_ntt_tables (ring_dim q root : ℕ) : Option NttTables :=
  let n := ring_dim % 2 ^ 32
  let log_n := M.GetMSB ((n + 2 ^ 32 - 1) % 2 ^ 32)
  (M.ModInverse q root).bind fun psi_inverse =>
    (M.ModInverse q n).map fun n_inverse =>
      let zeros := List.replicate n 0
      ((List.range n).foldl (ntt_tables_slot M q root psi_inverse log_n)
        (⟨zeros, zeros, zeros, zeros, n_inverse, M.PrepModMulConst q n_inverse⟩, 1, 1)).1

/-- Build the tables of a root and enter them under `key`. -/
def emplace_ntt_tables (s : Impl) (key : ℕ × Option ℕ) (root : ℕ) :
    Option (Impl × Option NttTables) :=
  (build_ntt_tables M s.ring_dim key.1 root).map fun t =>
    ({ s with ntt_tables := (key, t) :: s.ntt_tables }, some t)

/-- Tables for the root a transform runs with. `none` inside the pair is the
`nullptr` after a reported omega. -/
def ntt_tables_for (s : Impl) (inst : Instruction) (q : ℕ) : Option (Impl × Option NttTables) :=
  match s.ntt_tables.lookup (q, inst.omega.map UInt64.toNat) with
  | some t => some (s, some t)
  | none =>
    match inst.omega with
    | some root =>
      if is_primitive_2n_root root.toNat s.ring_dim q then
        emplace_ntt_tables M s (q, some root.toNat) root.toNat
      else some (s.error, none)
    | none =>
      (M.RootOfUnity (2 * s.ring_dim) q).bind fun root => emplace_ntt_tables M s (q, none) root

/-! ## Kernels -/

/-- The frame of `sr_addp`, `sr_subp` and `sr_mulp`. -/
def exec_pp (op : ℕ → Poly → Poly → Option Poly) (s : Impl) (inst : Instruction) :
    Option (Impl × Bool) :=
  let (s, q) := s.resolve_modulus inst
  let a := s.get_or_zero inst.src1.toNat
  let b := s.get_or_zero inst.src2.toNat
  if a.length ≠ s.ring_dim ∨ b.length ≠ s.ring_dim then some (s.error, false)
  else (op q a b).map fun result => (s.write inst.dest.toNat result q, true)

theorem exec_pp_eq (op : ℕ → Poly → Poly → Option Poly) (s : Impl) (inst : Instruction) :
    exec_pp op s inst =
      if (s.get_or_zero inst.src1.toNat).length ≠ s.ring_dim ∨
          (s.get_or_zero inst.src2.toNat).length ≠ s.ring_dim then
        some ((s.resolve_modulus inst).1.error, false)
      else (op (s.resolve_modulus inst).2 (s.get_or_zero inst.src1.toNat)
          (s.get_or_zero inst.src2.toNat)).map fun result =>
        ((s.resolve_modulus inst).1.write inst.dest.toNat result (s.resolve_modulus inst).2, true) := by
  simp only [exec_pp, Impl.resolve_modulus_get_or_zero, Impl.resolve_modulus_setup]

def exec_addp (s : Impl) (inst : Instruction) : Option (Impl × Bool) := exec_pp M.ModAdd s inst

def exec_subp (s : Impl) (inst : Instruction) : Option (Impl × Bool) := exec_pp M.ModSub s inst

def exec_mulp (s : Impl) (inst : Instruction) : Option (Impl × Bool) := exec_pp M.ModMul s inst

/-- The frame of the kernels with one source. The kernel is handed the modulus,
the operand and the reserved destination buffer; `none` inside its result is an
error it has reported. -/
def exec_src1 (kernel : Impl → ℕ → Poly → Poly → Option (Impl × Option Poly)) (s : Impl)
    (inst : Instruction) : Option (Impl × Bool) :=
  let (s, q) := s.resolve_modulus inst
  let a := s.get_or_zero inst.src1.toNat
  if a.length ≠ s.ring_dim then some (s.error, false)
  else (kernel s q a (s.memory.reserve_dest s.ring_dim inst.dest.toNat)).map fun
    | (s, some result) => (s.write inst.dest.toNat result q, true)
    | (s, none) => (s, false)

theorem exec_src1_eq (kernel : Impl → ℕ → Poly → Poly → Option (Impl × Option Poly)) (s : Impl)
    (inst : Instruction) :
    exec_src1 kernel s inst =
      if (s.get_or_zero inst.src1.toNat).length ≠ s.ring_dim then
        some ((s.resolve_modulus inst).1.error, false)
      else (kernel (s.resolve_modulus inst).1 (s.resolve_modulus inst).2
          (s.get_or_zero inst.src1.toNat)
          (s.memory.reserve_dest s.ring_dim inst.dest.toNat)).map fun r =>
        match r.2 with
        | some result => (r.1.write inst.dest.toNat result (s.resolve_modulus inst).2, true)
        | none => (r.1, false) := by
  simp only [exec_src1, Impl.resolve_modulus_get_or_zero, Impl.resolve_modulus_setup,
    Impl.resolve_modulus_memory]
  congr 1
  congr 1
  funext r
  obtain ⟨s', _ | result⟩ := r <;> rfl

/-- `inst.immediate.value_or(0)`. -/
def Instruction.imm (inst : Instruction) : ℕ := (inst.immediate.getD 0).toNat

/-- Immediate 0 is a plain copy, with no modular reduction. -/
def exec_addps (s : Impl) (inst : Instruction) : Option (Impl × Bool) :=
  exec_src1 (fun s q a _ =>
    if inst.imm = 0 then some (s, some a)
    else (M.ModAddEq q a inst.imm).map fun result => (s, some result)) s inst

def exec_subps (s : Impl) (inst : Instruction) : Option (Impl × Bool) :=
  exec_src1 (fun s q a _ => (M.ModSubEq q a inst.imm).map fun result => (s, some result)) s inst

/-- Immediate 0 writes zeros and does not look at the source. -/
def exec_mulps (s : Impl) (inst : Instruction) : Option (Impl × Bool) :=
  if inst.imm = 0 then
    let (s, q) := s.resolve_modulus inst
    some (s.write inst.dest.toNat (List.replicate s.ring_dim 0) q, true)
  else
    exec_src1 (fun s q a _ => (M.ModMulEq q a inst.imm).map fun result => (s, some result)) s inst

/-- Subtraction in a `uint64_t`. -/
def sub64 (x y : ℕ) : ℕ := (x + (2 ^ 64 - y)) % 2 ^ 64

def exec_negp (s : Impl) (inst : Instruction) : Option (Impl × Bool) :=
  exec_src1 (fun s q a _ => some (s, some (a.map fun x => if x = 0 then 0 else sub64 q x))) s inst

def exec_ntt (s : Impl) (inst : Instruction) : Option (Impl × Bool) :=
  exec_src1 (fun s q a _ => (ntt_tables_for M s inst q).bind fun
    | (s, none) => some (s, none)
    | (s, some t) =>
      (M.ForwardTransformToBitReverseInPlace q t a).map fun result => (s, some result)) s inst

def exec_intt (s : Impl) (inst : Instruction) : Option (Impl × Bool) :=
  exec_src1 (fun s q a _ => (ntt_tables_for M s inst q).bind fun
    | (s, none) => some (s, none)
    | (s, some t) =>
      (M.InverseTransformFromBitReverseInPlace q t a).map fun result => (s, some result)) s inst

/-- Reverse the low `bits` bits. -/
def rev_bits (x bits : ℕ) : ℕ :=
  (List.range bits).foldl
    (fun r i => if x.testBit i then r ||| 1 <<< (bits - 1 - i) else r) 0

/-- The scatter loop of `exec_automorph_eval`, from iteration `j` on. `jk` is a
`uint32_t`. -/
def automorph_scatter (logn k : ℕ) (snapshot : Poly) : ℕ → ℕ → ℕ → Poly → Poly
  | 0, _, _, result => result
  | n + 1, j, jk, result =>
    let idxrev := rev_bits ((jk >>> 1) &&& (2 ^ logn - 1)) logn
    automorph_scatter logn k snapshot n (j + 1) ((jk + 2 * k) % 2 ^ 32)
      (result.set (rev_bits j logn) (snapshot.getD idxrev 0))

/-- From `2^32` slots on, the `uint32_t` loop counter never reaches the ring
dimension. -/
def exec_automorph_eval (s : Impl) (inst : Instruction) : Option (Impl × Bool) :=
  exec_src1 (fun s _ a out =>
    match inst.k with
    | none => some (s.error, none)
    | some k64 =>
      let k := k64.toNat % 2 ^ 32
      if 2 ^ 32 ≤ s.ring_dim then none
      else some (s, some (automorph_scatter (Nat.log2 s.ring_dim) k a s.ring_dim 0 k out))) s inst

/-- One slot of the rotation: a read past the second wrap is out of bounds, and
`% q` needs a modulus. -/
def rot_slot (ring_dim q offset : ℕ) (snapshot : Poly) (i : ℕ) : Option ℕ :=
  let src_pos := (i + offset) % 2 ^ 64
  if src_pos < ring_dim then snapshot[src_pos]?
  else if q = 0 then none
  else snapshot[src_pos - ring_dim]?.map fun x => sub64 q x % q

def exec_rot_automorph_coeff (s : Impl) (inst : Instruction) : Option (Impl × Bool) :=
  exec_src1 (fun s q a _ =>
    match inst.offset with
    | none => some (s.error, none)
    | some offset =>
      ((List.range s.ring_dim).mapM (rot_slot s.ring_dim q offset.toNat a)).map fun result =>
        (s, some result)) s inst

/-! ## Execution -/

open FhOpcode in
/-- The `switch` of `execute`. The forms not implemented yet, `halt`, `FH_ILL`
and the bytes no enumerator names all leave `ok` as it started. -/
def exec_instruction (s : Impl) (inst : Instruction) : Option (Impl × Bool) :=
  match inst.opcode with
  | FH_SR_ADDP => exec_addp M s inst
  | FH_SR_SUBP => exec_subp M s inst
  | FH_SR_MULP => exec_mulp M s inst
  | FH_SR_ADDPS | FH_SR_ADDPS_COEFF => exec_addps M s inst
  | FH_SR_SUBPS | FH_SR_SUBPS_COEFF => exec_subps M s inst
  | FH_SR_MULPS => exec_mulps M s inst
  | FH_SR_NEGP => exec_negp s inst
  | FH_SR_NTT => exec_ntt M s inst
  | FH_SR_INTT => exec_intt M s inst
  | FH_SR_AUTOMORPH_EVAL => exec_automorph_eval s inst
  | FH_SR_ROT_AUTOMORPH_COEFF => exec_rot_automorph_coeff s inst
  | FH_SR_PERMUTE | FH_SR_AUTOMORPH_COEFF | FH_SR_ADDP_NI | FH_SR_SUBP_NI | FH_SR_MULP_NI
  | FH_SR_ADDPS_NI | FH_SR_SUBPS_NI | FH_SR_MULPS_NI | FH_SR_ADDPS_COEFF_NI
  | FH_SR_SUBPS_COEFF_NI | FH_SR_NEGP_NI | FH_SR_FT | FH_SR_IFT | FH_HALT | FH_ILL
  | unassigned _ => some (s, true)

/-- Release addresses. -/
def Impl.release (s : Impl) (addrs : List ℕ) : Impl :=
  { s with memory := addrs.foldl Memory.erase s.memory }

/-- The main loop from instruction `i` on, with the executed count so far. -/
def execute_loop (free_after_ : List (List ℕ)) :
    List Instruction → ℕ → Impl → ℕ → Option (Impl × ℕ)
  | [], _, s, executed => some (s, executed)
  | inst :: rest, i, s, executed =>
    (exec_instruction M s inst).bind fun (s, ok) =>
      execute_loop free_after_ rest (i + 1) (s.release (free_after_.getD i []))
        (if ok then executed + 1 else executed)

structure SimResult where
  instructions_executed : ℕ
  errors : ℕ
  deriving DecidableEq

def execute (s : Simulator) : Option (Simulator × SimResult) :=
  (execute_loop M s.free_after_ s.trace.instructions 0 { s.toImpl with error_count := 0 } 0).map
    fun (impl, executed) => ({ s with toImpl := impl }, ⟨executed, impl.error_count⟩)

/-! ## Uses -/

/-- `InstUses`; the source's fixed slots and count are the list `reads`. -/
structure InstUses where
  write : ℕ
  writes : Bool
  reads : List ℕ
  deriving DecidableEq

open FhOpcode in
/-- What the liveness passes take an instruction to read and write. The
`default` case of the source is the three two-source operations, and every byte
no enumerator names. -/
def classify_uses (inst : Instruction) : InstUses :=
  match inst.opcode with
  | FH_ILL | FH_HALT | FH_SR_PERMUTE | FH_SR_AUTOMORPH_COEFF | FH_SR_NEGP_NI | FH_SR_FT
  | FH_SR_IFT | FH_SR_ADDP_NI | FH_SR_SUBP_NI | FH_SR_MULP_NI | FH_SR_ADDPS_NI | FH_SR_SUBPS_NI
  | FH_SR_MULPS_NI | FH_SR_ADDPS_COEFF_NI | FH_SR_SUBPS_COEFF_NI => ⟨0, false, []⟩
  | FH_SR_MULPS =>
    if inst.imm = 0 then ⟨inst.dest.toNat, true, []⟩
    else ⟨inst.dest.toNat, true, [inst.src1.toNat]⟩
  | FH_SR_NEGP | FH_SR_NTT | FH_SR_INTT | FH_SR_AUTOMORPH_EVAL | FH_SR_ROT_AUTOMORPH_COEFF
  | FH_SR_ADDPS | FH_SR_SUBPS | FH_SR_ADDPS_COEFF | FH_SR_SUBPS_COEFF =>
    ⟨inst.dest.toNat, true, [inst.src1.toNat]⟩
  | FH_SR_ADDP | FH_SR_SUBP | FH_SR_MULP | unassigned _ =>
    ⟨inst.dest.toNat, true, [inst.src1.toNat, inst.src2.toNat]⟩

/-! ## Public API -/

def set_ring_dimension (s : Simulator) (N : ℕ) : Simulator :=
  { s with ring_dim := N, ntt_tables := [] }

/-- `load_trace`, once the file has been read without errors. -/
def load_program (s : Simulator) (p : Program) : Simulator × Bool :=
  ({ s with trace := p }, !p.instructions.isEmpty)

/-- `store_polynomial` by const reference. -/
def store_polynomial (s : Simulator) (address : ℕ) (values : Poly) (modulus : ℕ) :
    Option Simulator :=
  (s.memory.set s.ring_dim address values modulus).map fun m => { s with memory := m }

/-- `store_polynomial` by rvalue. -/
def store_polynomial_owned (s : Simulator) (address : ℕ) (values : Poly) (modulus : ℕ) :
    Simulator :=
  { s with memory := s.memory.set_owned s.ring_dim address values modulus }

def run (s : Simulator) : Option (Simulator × SimResult) :=
  if s.ring_dim = 0 then some (s, ⟨0, 1⟩) else execute M s

def get_polynomial (s : Simulator) (address : ℕ) : Poly :=
  if s.memory.is_initialized address then (s.memory.get address).values else []

def set_live_out_addresses (s : Simulator) (addrs : List ℕ) : Simulator :=
  { s with live_out_ := addrs }

/-! ## A reference arithmetic

The documented behaviour of the library calls, written out, for evaluating
programs. -/

/-- Slot `j` of the transform to bit-reversed order: the polynomial at
`psi^(2 brv(j) + 1)`. `psi` is in the slot of index 1. -/
def referenceForward (q : ℕ) (t : NttTables) (a : Poly) : Option Poly :=
  let logn := Nat.log2 a.length
  let psi := t.forward.getD (rev_bits 1 logn) 1
  some ((List.range a.length).map fun j => (List.range a.length).foldl
    (fun acc i => (acc + a.getD i 0 * psi ^ ((2 * rev_bits j logn + 1) * i)) % q) 0)

def referenceInverse (q : ℕ) (t : NttTables) (a : Poly) : Option Poly :=
  let logn := Nat.log2 a.length
  let psi_inverse := t.inverse.getD (rev_bits 1 logn) 1
  some ((List.range a.length).map fun i => t.n_inverse * (List.range a.length).foldl
    (fun acc j => (acc + a.getD j 0 * psi_inverse ^ ((2 * rev_bits j logn + 1) * i)) % q) 0 % q)

def referenceMath : NativeMath where
  ModAdd q a b := if q = 0 then none else some (List.zipWith (fun x y => (x + y) % q) a b)
  ModSub q a b := if q = 0 then none else some (List.zipWith (fun x y => (x + (q - y % q)) % q) a b)
  ModMul q a b := if q = 0 then none else some (List.zipWith (fun x y => x * y % q) a b)
  ModAddEq q a s := if q = 0 then none else some (a.map fun x => (x + s) % q)
  ModSubEq q a s := if q = 0 then none else some (a.map fun x => (x + (q - s % q)) % q)
  ModMulEq q a s := if q = 0 then none else some (a.map fun x => x * s % q)
  ModMulInteger q a b := a * b % q
  ModInverse q a := (List.range q).find? fun x => a * x % q = 1
  PrepModMulConst q w := w * 2 ^ 64 / q
  GetMSB n := if n = 0 then 0 else Nat.log2 n + 1
  ReverseBits := rev_bits
  RootOfUnity m q := (List.range q).find? fun root => is_primitive_2n_root root (m / 2) q
  ForwardTransformToBitReverseInPlace := referenceForward
  InverseTransformFromBitReverseInPlace := referenceInverse

theorem referenceMath_exact : referenceMath.Exact where
  ModAdd _ _ _ hq _ := if_neg hq.ne'
  ModSub _ _ _ hq _ := if_neg hq.ne'
  ModMul _ _ _ hq _ := if_neg hq.ne'
  ModAddEq _ _ _ hq := if_neg hq.ne'
  ModSubEq _ _ _ hq := if_neg hq.ne'
  ModMulEq _ _ _ hq := if_neg hq.ne'

end Fhetch
