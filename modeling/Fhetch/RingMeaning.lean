/-
What a trace computes in the ring (`src/fhetch_sim/simulator.cpp`).

A vector of residues stands for a polynomial modulo `X ^ N + 1` in two ways: by its
coefficients, or by its values at the odd powers of a root, in bit-reversed order. Which
of the two is meant is written nowhere, but each kernel is an operation of the ring in one
of them or in both: sums are sums in both, products are products of values, a transform
takes what the coefficients say for what the values say.

So what is known of the memory is, for each address and each of the two ways, an element
of the ring or nothing. `Root.ring_step` says what is known after a line, and a run
without an error makes it true. A line under another modulus leaves nothing known of its
result, unless it does not look at its modulus.
-/
import Fhetch.TraceLines
import Fhetch.Liveness
import Fhetch.RingAutomorphisms
import Fhetch.TransformTables
import Fhetch.Lib.NegacyclicValues

set_option autoImplicit false

namespace Fhetch

open Negacyclic Renaming
open Lib (Machine)

/-! ## Two ways to stand for a polynomial -/

/-- A modulus of 64 bits with a `2N`-th root of unity for the dimension `2 ^ n`. -/
structure Root (n q : ℕ) where
  psi : ℕ
  two_lt : 2 < q
  fits : q < 2 ^ 64
  root : Negacyclic2NRoot psi (2 ^ n) q

/-- The polynomials modulo `X ^ N + 1` with residues as coefficients. -/
abbrev RingOf (n q : ℕ) : Type := NegacyclicRing (ZMod q) (2 ^ n)

/-- A vector of residues of the length of the dimension. -/
structure Residues (N q : ℕ) (v : Poly) : Prop where
  length : v.length = N
  lt : ∀ x ∈ v, x < q

/-- What is known of a vector: what it stands for by its coefficients, and by its values. -/
abbrev Known (n q : ℕ) : Type := Format → Option (RingOf n q)

namespace Root

variable {n q : ℕ} (w : Root n q)

theorem pos {n q : ℕ} (w : Root n q) : 0 < q := Nat.zero_lt_of_lt w.two_lt

/-- The value at the `j`-th odd power of the root. -/
noncomputable def value (j : ℕ) : RingOf n q →+* ZMod q :=
  valueAt ((w.psi : ZMod q) ^ (2 * j + 1)) (odd_pow (odd_succ j) w.root.power)

/-- A vector stands for an element. -/
def Views : Format → Poly → RingOf n q → Prop
  | .Coefficient, v, r => toNegacyclic q (2 ^ n) v = r
  | .Evaluation, v, r => ∀ j < 2 ^ n, (v.getD (rev_bits j n) 0 : ZMod q) = w.value j r

/-- What is known of a vector is true of it. -/
def Tells (known : Known n q) (v : Poly) : Prop :=
  ∀ f r, known f = some r → Residues (2 ^ n) q v ∧ w.Views f v r

end Root

/-! ## What is known after an instruction -/

/-- Nothing is known. -/
def unknown {n q : ℕ} : Known n q := fun _ => none

/-- Known in one of the ways. -/
def knownAs {n q : ℕ} (f : Format) (r : Option (RingOf n q)) : Known n q := fun g => if g = f then r else none

/-- In each way, from what is known of two vectors in it. -/
def pointwise {n q : ℕ} (op : RingOf n q → RingOf n q → RingOf n q) (a b : Known n q) : Known n q :=
  fun f => (a f).bind fun x => (b f).map (op x)

/-- What a vector of ones stands for. -/
noncomputable def ones {n q : ℕ} : Format → RingOf n q
  | .Coefficient => ∑ i ∈ Finset.range (2 ^ n), X (ZMod q) (2 ^ n) ^ i
  | .Evaluation => 1

/-- An instruction that does the same under every modulus: the automorphism, a copy, or
one that clears its destination. -/
def Instruction.Modless {A : Type} (inst : Instruction) (reads : List A) : Prop :=
  inst.opcode = .FH_SR_AUTOMORPH_EVAL ∨
    (inst.opcode = .FH_SR_ADDPS ∨ inst.opcode = .FH_SR_ADDPS_COEFF) ∧ inst.imm = 0 ∨ reads = []

namespace Root

variable {n q : ℕ} (w : Root n q)

open FhOpcode Classical in
/-- **What is known of a result**, by what is known of the operands. -/
noncomputable def ring_result (inst : Instruction) : List (Known n q) → Known n q
  | [] => if inst.opcode = FH_SR_MULPS then fun _ => some 0 else unknown
  | [a] =>
    match inst.opcode with
    | FH_SR_ADDPS | FH_SR_ADDPS_COEFF =>
      if inst.imm = 0 then a else fun f => (a f).map (· + (inst.imm : RingOf n q) * ones f)
    | FH_SR_SUBPS | FH_SR_SUBPS_COEFF => fun f => (a f).map (· - (inst.imm : RingOf n q) * ones f)
    | FH_SR_MULPS => fun f => (a f).map ((inst.imm : RingOf n q) * ·)
    | FH_SR_NEGP => fun f => (a f).map (- ·)
    | FH_SR_NTT =>
      if RootFor (2 ^ n) q (inst.omega.map UInt64.toNat) w.psi then knownAs .Evaluation (a .Coefficient) else unknown
    | FH_SR_INTT =>
      if RootFor (2 ^ n) q (inst.omega.map UInt64.toNat) w.psi then knownAs .Coefficient (a .Evaluation) else unknown
    | FH_SR_AUTOMORPH_EVAL => knownAs .Evaluation (inst.k.bind fun k =>
        if hk : Odd k.toNat then (a .Evaluation).map (galois hk) else none)
    | FH_SR_ROT_AUTOMORPH_COEFF => knownAs .Coefficient (inst.offset.bind fun offset =>
        (a .Coefficient).map (X (ZMod q) (2 ^ n) ^ ((2 * 2 ^ n - 1) * offset.toNat) * ·))
    | _ => unknown
  | [a, b] =>
    match inst.opcode with
    | FH_SR_ADDP => pointwise (· + ·) a b
    | FH_SR_SUBP => pointwise (· - ·) a b
    | FH_SR_MULP => knownAs .Evaluation (pointwise (· * ·) a b .Evaluation)
    | _ => unknown
  | _ => unknown

open Classical in
/-- What is known after a line. -/
noncomputable def ring_step (known : ℕ → Known n q) (l : Line Kernel ℕ) : ℕ → Known n q :=
  Function.update known l.dest
    (if l.op.2 = q ∨ l.op.1.Modless l.reads then w.ring_result l.op.1 (l.reads.map known) else unknown)

/-- What is known after some lines. -/
noncomputable def ring_run (known : ℕ → Known n q) (lines : List (Line Kernel ℕ)) : ℕ → Known n q :=
  lines.foldl w.ring_step known

end Root

/-- The documented transforms: values at the odd powers of the root of the tables, in
bit-reversed order, and the sums that give the coefficients back. -/
structure NativeMath.Transforms (M : NativeMath) : Prop where
  forward : ∀ {n q psi t v u}, TablesOf (2 ^ n) q psi t → Residues (2 ^ n) q v →
    M.ForwardTransformToBitReverseInPlace q t v = some u → Residues (2 ^ n) q u ∧
      ∀ j < 2 ^ n, (u.getD (rev_bits j n) 0 : ZMod q) =
        eval (2 ^ n) (fun i => (v.getD i 0 : ZMod q)) ((psi : ZMod q) ^ (2 * j + 1))
  inverse : ∀ {n q psi t v u}, TablesOf (2 ^ n) q psi t → Residues (2 ^ n) q v →
    M.InverseTransformFromBitReverseInPlace q t v = some u → Residues (2 ^ n) q u ∧
      ∀ y : ZMod q, psi * y = 1 → ∀ i < 2 ^ n, 2 ^ n * (u.getD i 0 : ZMod q) =
        ∑ j ∈ Finset.range (2 ^ n), (v.getD (rev_bits j n) 0 : ZMod q) * y ^ ((2 * j + 1) * i)

/-! ## Views -/

section Views

variable {n q : ℕ} {w : Root n q} {u v x : Poly} {r r' : RingOf n q} {f : Format}

theorem Root.value_of (j : ℕ) (c : ZMod q) : w.value j (AdjoinRoot.of _ c) = c := valueAt_of _ c

theorem Root.value_toNegacyclic (j : ℕ) (v : Poly) : w.value j (toNegacyclic q (2 ^ n) v) =
    eval (2 ^ n) (fun i => (v.getD i 0 : ZMod q)) ((w.psi : ZMod q) ^ (2 * j + 1)) := valueAt_toRing _

/-- **What is linear slot by slot** is linear in both views. -/
theorem Root.Views.linear (c c' : ZMod q) (hu : w.Views f u r) (hv : w.Views f v r')
    (h : ∀ i < 2 ^ n, (x.getD i 0 : ZMod q) = c * (u.getD i 0 : ZMod q) + c' * (v.getD i 0 : ZMod q)) :
    w.Views f x (AdjoinRoot.of _ c * r + AdjoinRoot.of _ c' * r') := by
  cases f with
  | Coefficient =>
    show toNegacyclic q (2 ^ n) x = _
    rw [← (show toNegacyclic q (2 ^ n) u = r from hu), ← (show toNegacyclic q (2 ^ n) v = r' from hv)]
    exact toRing_linear h
  | Evaluation =>
    intro j hj
    rw [h _ (rev_bits_lt j n), hu j hj, hv j hj, map_add, map_mul, map_mul, value_of, value_of]

theorem Root.views_zero (h : ∀ i < 2 ^ n, x.getD i 0 = 0) : w.Views f x 0 := by
  cases f with
  | Coefficient => exact toRing_zero fun i hi => by rw [h i hi, Nat.cast_zero]
  | Evaluation =>
    intro j hj
    rw [h _ (rev_bits_lt j n), Nat.cast_zero, map_zero]

/-- **Products of values** are values of the product. -/
theorem Root.Views.mul (hu : w.Views .Evaluation u r) (hv : w.Views .Evaluation v r')
    (h : ∀ i < 2 ^ n, (x.getD i 0 : ZMod q) = (u.getD i 0 : ZMod q) * (v.getD i 0 : ZMod q)) :
    w.Views .Evaluation x (r * r') := by
  intro j hj
  rw [h _ (rev_bits_lt j n), hu j hj, hv j hj, map_mul]

/-- What is added to every slot is a multiple of what the ones stand for. -/
theorem Root.Views.add_ones (c : ZMod q) (hu : w.Views f u r)
    (h : ∀ i < 2 ^ n, (x.getD i 0 : ZMod q) = (u.getD i 0 : ZMod q) + c) :
    w.Views f x (r + AdjoinRoot.of _ c * ones f) := by
  have hones : w.Views f (List.replicate (2 ^ n) 1) (ones f) := by
    cases f with
    | Coefficient =>
      show toNegacyclic q (2 ^ n) (List.replicate (2 ^ n) 1) = ones .Coefficient
      rw [toNegacyclic, toRing, eval, ones]
      refine Finset.sum_congr rfl fun i hi => ?_
      simp [Finset.mem_range.mp hi]
    | Evaluation =>
      intro j hj
      simp [rev_bits_lt j n, ones]
  have hlinear := hu.linear 1 c hones (x := x) fun i hi => by
    rw [h i hi, List.getD_replicate 1 hi, one_mul, Nat.cast_one, mul_one]
  rwa [map_one, one_mul] at hlinear

/-- **A transform** shows by values what the coefficients stood for. -/
theorem Root.Views.forward {t : NttTables} {M : NativeMath} (hM : M.Transforms)
    (ht : TablesOf (2 ^ n) q w.psi t) (hres : Residues (2 ^ n) q u) (hu : w.Views .Coefficient u r)
    (h : M.ForwardTransformToBitReverseInPlace q t u = some x) :
    Residues (2 ^ n) q x ∧ w.Views .Evaluation x r := by
  obtain ⟨hx, hvalues⟩ := hM.forward ht hres h
  refine ⟨hx, fun j hj => ?_⟩
  rw [hvalues j hj, ← (show toNegacyclic q (2 ^ n) u = r from hu), value_toNegacyclic]

/-- **The transform back** has the coefficients of what the values stood for. -/
theorem Root.Views.inverse {t : NttTables} {M : NativeMath} (hM : M.Transforms)
    (ht : TablesOf (2 ^ n) q w.psi t) (hres : Residues (2 ^ n) q u) (hu : w.Views .Evaluation u r)
    (h : M.InverseTransformFromBitReverseInPlace q t u = some x) :
    Residues (2 ^ n) q x ∧ w.Views .Coefficient x r := by
  obtain ⟨hx, hsums⟩ := hM.inverse ht hres h
  refine ⟨hx, ?_⟩
  have hpsi : (w.psi : ZMod q) ^ 2 ^ n = -1 := w.root.power
  obtain ⟨a, rfl⟩ := exists_toRing (Nat.two_pow_pos n) r
  -- the inverse of the root is the power before the last
  let y : ZMod q := (w.psi : ZMod q) ^ (2 * 2 ^ n - 1)
  have hone : (w.psi : ZMod q) * y = 1 := by
    rw [← pow_succ', Nat.sub_add_cancel (by have := Nat.two_pow_pos n; omega), pow_two_mul hpsi]
  have hunit : (t.n_inverse : ZMod q) * 2 ^ n = 1 := by
    have hmod := congrArg (Nat.cast : ℕ → ZMod q) ht.n_inverse
    rw [ZMod.natCast_mod] at hmod
    push_cast at hmod
    exact hmod
  refine eval_congr fun i hi => congrArg _ ?_
  have hsum := hsums y hone i hi
  have hvalue : ∀ j ∈ Finset.range (2 ^ n), (u.getD (rev_bits j n) 0 : ZMod q) * y ^ ((2 * j + 1) * i) =
      eval (2 ^ n) a ((w.psi : ZMod q) ^ (2 * j + 1)) * y ^ ((2 * j + 1) * i) := by
    intro j hj
    rw [hu j (Finset.mem_range.mp hj), value, valueAt_toRing]
  rw [Finset.sum_congr rfl hvalue, sum_eval_odd_pow hpsi hone hi] at hsum
  show (x.getD i 0 : ZMod q) = a i
  rw [← one_mul ((x.getD i 0 : ℕ) : ZMod q), ← one_mul (a i), ← hunit, mul_assoc, hsum, mul_assoc]

/-- **The Galois automorphism** of the values. -/
theorem Root.Views.automorphed {k : ℕ} (hk : Odd k) (hu : w.Views .Evaluation u r) :
    w.Views .Evaluation (Fhetch.automorphed n k u) (galois hk r) := by
  intro j hj
  have hpsi : (w.psi : ZMod q) ^ 2 ^ n = -1 := w.root.power
  rw [automorphed_slot hj, hu _ (galoisIndex_lt n k j), value, value, valueAt_galois]
  refine valueAt_congr ?_ _ _ r
  rw [exponent_galoisIndex (Nat.odd_iff.mp hk), Negacyclic.pow_mod hpsi, ← pow_mul]

/-- **A rotation** divides by a power of `X`. -/
theorem Root.Views.rotated (o : ℕ) (hu : w.Views .Coefficient u r) : w.Views .Coefficient
    (Fhetch.rotated q (2 ^ n) o u) (X (ZMod q) (2 ^ n) ^ ((2 * 2 ^ n - 1) * o) * r) := by
  have hrotated := X_pow_mul_rotated (N := 2 ^ n) w.pos o u
  rw [show toNegacyclic q (2 ^ n) u = r from hu] at hrotated
  exact eq_of_X_pow_mul (Nat.two_pow_pos n) hrotated

end Views

/-! ## Instructions -/

section Instructions

variable {M : NativeMath} {n q q' : ℕ} {w : Root n q} {inst : Instruction} {u v x : Poly} {a b : Known n q}

/-- The tables of a transform are those of the root that it names. -/
theorem tables_for_root (hnames : M.MeetsNames) (hn : n < 64) {omega : Option ℕ} {t : NttTables}
    (h : tables_for M (2 ^ n) q omega = some t) :
    ∃ psi, RootFor (2 ^ n) q omega psi ∧ TablesOf (2 ^ n) q psi t := by
  have hlt : 2 ^ n < 2 ^ 64 := Nat.pow_lt_pow_right (by decide) hn
  unfold tables_for at h
  rcases omega with - | root
  · obtain ⟨psi, hpsi, ht⟩ := Option.bind_eq_some_iff.mp h
    have hroot := RootFor.derived (hnames.RootOfUnity hn hpsi)
    exact ⟨psi, hroot, build_ntt_tables_right hnames hroot.lt ht⟩
  · dsimp only at h
    split at h
    · rename_i hcheck
      obtain ⟨htwo, hroot⟩ := (is_primitive_2n_root_iff _ _ _ hlt).mp hcheck
      exact ⟨root, .recorded htwo hroot, build_ntt_tables_right hnames hroot.lt h⟩
    · exact absurd h (by simp)

theorem RootFor.unique {N : ℕ} {omega : Option ℕ} {psi psi' : ℕ} (h : RootFor N q omega psi)
    (h' : RootFor N q omega psi') : psi = psi' := by
  cases h with
  | recorded _ hroot =>
    cases h' with
    | recorded _ _ => rfl
  | derived hmin =>
    cases h' with
    | derived hmin' => exact Nat.le_antisymm (hmin.least _ hmin'.root) (hmin'.least _ hmin.root)

/-- A slot past the end of two rounds is out of bounds, so a rotation with a result is the
rotation. -/
theorem rot_slots_result (hn : n < 64) (hu : Residues (2 ^ n) q u) (hq : 0 < q) (hq64 : q < 2 ^ 64)
    {offset : ℕ} (h : (List.range (2 ^ n)).mapM (rot_slot (2 ^ n) q offset u) = some x) :
    x = rotated q (2 ^ n) offset u := by
  have hslots : ∀ i ∈ List.range (2 ^ n),
      rot_slot (2 ^ n) q offset u i = some (rotatedCoefficient q (2 ^ n) offset u i) := by
    intro i hi
    refine rot_slot_eq hq hq64 hu.length hu.lt ?_ (Nat.two_pow_pos n)
    have hround : 2 * 2 ^ n ∣ 2 ^ 64 := by
      rw [← pow_succ']
      exact pow_dvd_pow 2 hn
    have hwithin : (i + offset) % 2 ^ 64 < 2 * 2 ^ n := by
      by_contra hpast
      rw [Lib.mapM_of_none hi (rot_slot_none hu.length (not_lt.mp hpast))] at h
      exact absurd h (by simp)
    rw [← Nat.mod_mod_of_dvd (i + offset) hround, Nat.mod_eq_of_lt hwithin]
  rw [Lib.mapM_of_some hslots] at h
  exact (Option.some.inj h).symm

theorem knownAs_eq_some {f g : Format} {r : Option (RingOf n q)} {r' : RingOf n q}
    (h : knownAs f r g = some r') : g = f ∧ r = some r' := by
  unfold knownAs at h
  split at h
  · exact ⟨‹_›, h⟩
  · exact absurd h (by simp)

/-- A sum slot by slot. -/
theorem getD_zipWith {op : ℕ → ℕ → ℕ} (hu : u.length = 2 ^ n) (hv : v.length = 2 ^ n) {i : ℕ}
    (hi : i < 2 ^ n) : (List.zipWith op u v).getD i 0 = op (u.getD i 0) (v.getD i 0) :=
  getD_zipWith_of_lt (hu.symm ▸ hi) (hv.symm ▸ hi)

theorem getD_map {op : ℕ → ℕ} (hu : u.length = 2 ^ n) {i : ℕ} (hi : i < 2 ^ n) :
    (u.map op).getD i 0 = op (u.getD i 0) := getD_map_of_lt (hu.symm ▸ hi)

theorem residues_zipWith {op : ℕ → ℕ → ℕ} (hu : u.length = 2 ^ n) (hv : v.length = 2 ^ n)
    (hop : ∀ y z, op y z < q) : Residues (2 ^ n) q (List.zipWith op u v) := by
  refine ⟨by simp [hu, hv], fun y hy => ?_⟩
  obtain ⟨i, hi, rfl⟩ := List.getElem_of_mem hy
  rw [List.getElem_zipWith]
  exact hop _ _

theorem residues_map {op : ℕ → ℕ} (hu : u.length = 2 ^ n) (hop : ∀ y ∈ u, op y < q) :
    Residues (2 ^ n) q (u.map op) :=
  ⟨by simp [hu], fun y hy => by
    obtain ⟨z, hz, rfl⟩ := List.mem_map.mp hy
    exact hop z hz⟩

/-- The scatter only moves what the source holds. -/
theorem mem_automorph_scatter {logn k y : ℕ} (steps : ℕ) : ∀ {j jk : ℕ} {out : Poly},
    y ∈ automorph_scatter logn k u steps j jk out → y ∈ out ∨ y ∈ u ∨ y = 0 := by
  induction steps with
  | zero => exact fun h => .inl h
  | succ steps ih =>
    intro j jk out h
    rcases ih h with h | h
    · rcases List.mem_or_eq_of_mem_set h with h | rfl
      · exact .inl h
      · refine .inr ?_
        rw [List.getD_eq_getElem?_getD]
        rcases hget : u[rev_bits ((jk >>> 1) &&& (2 ^ logn - 1)) logn]? with - | z
        · exact .inr rfl
        · exact .inl (List.mem_of_getElem? hget)
    · exact .inr h

/-- **Residues of residues.** The kernels with two sources leave residues of their modulus. -/
theorem residues_binary (hM : M.Exact) (hq : 0 < q) (hu : Residues (2 ^ n) q u) (hv : Residues (2 ^ n) q v)
    (h : binary_result M q inst u v = some x) : Residues (2 ^ n) q x := by
  unfold binary_result at h
  have hsame := hu.length.trans hv.length.symm
  split at h
  · rw [hM.ModAdd q u v hq hsame] at h
    rw [← Option.some.inj h]
    exact residues_zipWith hu.length hv.length fun y z => Nat.mod_lt _ hq
  · rw [hM.ModSub q u v hq hsame] at h
    rw [← Option.some.inj h]
    exact residues_zipWith hu.length hv.length fun y z => Nat.mod_lt _ hq
  · rw [hM.ModMul q u v hq hsame] at h
    rw [← Option.some.inj h]
    exact residues_zipWith hu.length hv.length fun y z => Nat.mod_lt _ hq
  · exact absurd h (by simp)

/-- And so do those with one. -/
theorem residues_unary (hM : M.Exact) (hnames : M.MeetsNames) (htransforms : M.Transforms) (hn : n < 64)
    (hq : 0 < q) (hq64 : q < 2 ^ 64) (hu : Residues (2 ^ n) q u)
    (h : unary_result M (2 ^ n) q inst u = some x) : Residues (2 ^ n) q x := by
  unfold unary_result at h
  cases hop : inst.opcode with
  | FH_SR_ADDPS | FH_SR_ADDPS_COEFF =>
    rw [hop] at h
    dsimp only at h
    split at h
    · exact Option.some.inj h ▸ hu
    · rw [hM.ModAddEq q u inst.imm hq] at h
      rw [← Option.some.inj h]
      exact residues_map hu.length fun y _ => Nat.mod_lt _ hq
  | FH_SR_SUBPS | FH_SR_SUBPS_COEFF =>
    rw [hop] at h
    dsimp only at h
    rw [hM.ModSubEq q u inst.imm hq] at h
    rw [← Option.some.inj h]
    exact residues_map hu.length fun y _ => Nat.mod_lt _ hq
  | FH_SR_MULPS =>
    rw [hop] at h
    dsimp only at h
    rw [hM.ModMulEq q u inst.imm hq] at h
    rw [← Option.some.inj h]
    exact residues_map hu.length fun y _ => Nat.mod_lt _ hq
  | FH_SR_NEGP =>
    rw [hop] at h
    rw [← Option.some.inj h]
    refine residues_map hu.length fun y hy => ?_
    have hlt := hu.lt y hy
    split
    · exact hq
    · rw [sub64_of_le hlt.le hq64]
      omega
  | FH_SR_NTT | FH_SR_INTT =>
    rw [hop] at h
    obtain ⟨t, ht, h⟩ := Option.bind_eq_some_iff.mp h
    obtain ⟨psi, -, htables⟩ := tables_for_root hnames hn ht
    first
      | exact (htransforms.forward htables hu h).1
      | exact (htransforms.inverse htables hu h).1
  | FH_SR_AUTOMORPH_EVAL =>
    rw [hop] at h
    obtain ⟨k, -, h⟩ := Option.bind_eq_some_iff.mp h
    split at h
    · exact absurd h (by simp)
    · rw [← Option.some.inj h]
      refine ⟨by rw [automorph_scatter_eq, storeAll_length, List.length_replicate], fun y hy => ?_⟩
      rcases mem_automorph_scatter _ hy with hy | hy | rfl
      · exact List.eq_of_mem_replicate hy ▸ hq
      · exact hu.lt y hy
      · exact hq
  | FH_SR_ROT_AUTOMORPH_COEFF =>
    rw [hop] at h
    obtain ⟨offset, -, h⟩ := Option.bind_eq_some_iff.mp h
    rw [rot_slots_result hn hu hq hq64 h]
    exact ⟨rotated_length .., fun y hy => rotated_lt hq hy⟩
  | _ =>
    rw [hop] at h
    exact absurd h (by simp)

/-- **An instruction on residues of its modulus leaves residues of it.** -/
theorem residues_result (hM : M.Exact) (hnames : M.MeetsNames) (htransforms : M.Transforms) (hn : n < 64)
    (hq : 0 < q) (hq64 : q < 2 ^ 64) {operands : List Poly} (hall : ∀ u ∈ operands, Residues (2 ^ n) q u)
    (h : inst.result M (2 ^ n) q operands = some x) : Residues (2 ^ n) q x := by
  unfold Instruction.result at h
  split at h
  · split at h
    · split at h
      · rw [← Option.some.inj h]
        exact ⟨List.length_replicate, fun y hy => List.eq_of_mem_replicate hy ▸ hq⟩
      · exact absurd h (by simp)
    · exact residues_unary hM hnames htransforms hn hq hq64 (hall _ (by simp)) h
    · exact residues_binary hM hq (hall _ (by simp)) (hall _ (by simp)) h
    · exact absurd h (by simp)
  · exact absurd h (by simp)

/-- A difference modulo `q`, as it is computed. -/
theorem cast_sub_mod (hq : 0 < q) (y z : ℕ) : (((y + (q - z % q)) % q : ℕ) : ZMod q) = y - z := by
  rw [ZMod.natCast_mod, Nat.cast_add, Nat.cast_sub (Nat.mod_lt _ hq).le, ZMod.natCast_mod, ZMod.natCast_self,
    zero_sub, sub_eq_add_neg]

theorem pointwise_eq_some {op : RingOf n q → RingOf n q → RingOf n q} {f : Format} {r : RingOf n q}
    (h : pointwise op a b f = some r) : ∃ y z, a f = some y ∧ b f = some z ∧ op y z = r := by
  obtain ⟨y, hy, h⟩ := Option.bind_eq_some_iff.mp h
  obtain ⟨z, hz, h⟩ := Option.map_eq_some_iff.mp h
  exact ⟨y, z, hy, hz, h⟩

/-- **The kernels with two sources.** -/
theorem Root.tells_binary (hM : M.Exact) (h : binary_result M q inst u v = some x) (ha : w.Tells a u)
    (hb : w.Tells b v) : w.Tells (w.ring_result inst [a, b]) x := by
  intro f r hr
  have hresidues : Residues (2 ^ n) q u → Residues (2 ^ n) q v → Residues (2 ^ n) q x :=
    fun hu hv => residues_binary hM w.pos hu hv h
  unfold binary_result at h
  unfold ring_result at hr
  cases hop : inst.opcode with
  | FH_SR_ADDP =>
    rw [hop] at h hr
    obtain ⟨y, z, hy, hz, rfl⟩ := pointwise_eq_some hr
    obtain ⟨hu, hview⟩ := ha f y hy
    obtain ⟨hv, hview'⟩ := hb f z hz
    rw [hM.ModAdd q u v w.pos (hu.length.trans hv.length.symm)] at h
    obtain rfl := Option.some.inj h
    refine ⟨hresidues hu hv, ?_⟩
    have hlinear := hview.linear 1 1 hview' (x := List.zipWith (fun x y => (x + y) % q) u v) fun i hi => by
      rw [getD_zipWith hu.length hv.length hi, ZMod.natCast_mod, Nat.cast_add, one_mul, one_mul]
    rwa [map_one, one_mul, one_mul] at hlinear
  | FH_SR_SUBP =>
    rw [hop] at h hr
    obtain ⟨y, z, hy, hz, rfl⟩ := pointwise_eq_some hr
    obtain ⟨hu, hview⟩ := ha f y hy
    obtain ⟨hv, hview'⟩ := hb f z hz
    rw [hM.ModSub q u v w.pos (hu.length.trans hv.length.symm)] at h
    obtain rfl := Option.some.inj h
    refine ⟨hresidues hu hv, ?_⟩
    have hlinear := hview.linear 1 (-1) hview' (x := List.zipWith (fun x y => (x + (q - y % q)) % q) u v)
      fun i hi => by
        rw [getD_zipWith hu.length hv.length hi, cast_sub_mod w.pos, one_mul, neg_one_mul, sub_eq_add_neg]
    rwa [map_one, one_mul, map_neg, map_one, neg_one_mul, ← sub_eq_add_neg] at hlinear
  | FH_SR_MULP =>
    rw [hop] at h hr
    obtain ⟨rfl, hr⟩ := knownAs_eq_some hr
    obtain ⟨y, z, hy, hz, rfl⟩ := pointwise_eq_some hr
    obtain ⟨hu, hview⟩ := ha _ y hy
    obtain ⟨hv, hview'⟩ := hb _ z hz
    rw [hM.ModMul q u v w.pos (hu.length.trans hv.length.symm)] at h
    obtain rfl := Option.some.inj h
    refine ⟨hresidues hu hv, hview.mul hview' fun i hi => ?_⟩
    rw [getD_zipWith hu.length hv.length hi, ZMod.natCast_mod, Nat.cast_mul]
  | _ =>
    rw [hop] at h
    exact absurd h (by simp)

/-- **The kernels with one source**, under their modulus. -/
theorem Root.tells_unary (hM : M.Exact) (hnames : M.MeetsNames) (htransforms : M.Transforms) (hn : n < 64)
    (h : unary_result M (2 ^ n) q inst u = some x) (ha : w.Tells a u) :
    w.Tells (w.ring_result inst [a]) x := by
  intro f r hr
  have hresidues : Residues (2 ^ n) q u → Residues (2 ^ n) q x :=
    fun hu => residues_unary hM hnames htransforms hn w.pos w.fits hu h
  unfold unary_result at h
  unfold ring_result at hr
  cases hop : inst.opcode with
  | FH_SR_ADDPS | FH_SR_ADDPS_COEFF =>
    rw [hop] at h hr
    dsimp only at h hr
    by_cases himm : inst.imm = 0
    -- a copy
    · rw [if_pos himm] at h hr
      obtain rfl := Option.some.inj h
      exact ha f r hr
    · rw [if_neg himm] at h hr
      obtain ⟨y, hy, rfl⟩ := Option.map_eq_some_iff.mp hr
      obtain ⟨hu, hview⟩ := ha _ y hy
      rw [hM.ModAddEq q u inst.imm w.pos] at h
      obtain rfl := Option.some.inj h
      refine ⟨hresidues hu, ?_⟩
      rw [natCast_eq_of]
      refine hview.add_ones _ fun i hi => ?_
      rw [getD_map hu.length hi, ZMod.natCast_mod, Nat.cast_add]
  | FH_SR_SUBPS | FH_SR_SUBPS_COEFF =>
    rw [hop] at h hr
    obtain ⟨y, hy, rfl⟩ := Option.map_eq_some_iff.mp hr
    obtain ⟨hu, hview⟩ := ha _ y hy
    rw [hM.ModSubEq q u inst.imm w.pos] at h
    obtain rfl := Option.some.inj h
    refine ⟨hresidues hu, ?_⟩
    rw [sub_eq_add_neg, ← neg_mul, natCast_eq_of, ← map_neg]
    refine hview.add_ones _ fun i hi => ?_
    rw [getD_map hu.length hi, cast_sub_mod w.pos, sub_eq_add_neg]
  | FH_SR_MULPS =>
    rw [hop] at h hr
    obtain ⟨y, hy, rfl⟩ := Option.map_eq_some_iff.mp hr
    obtain ⟨hu, hview⟩ := ha _ y hy
    rw [hM.ModMulEq q u inst.imm w.pos] at h
    obtain rfl := Option.some.inj h
    refine ⟨hresidues hu, ?_⟩
    have hlinear := hview.linear (inst.imm : ZMod q) 0 hview (x := u.map fun x => x * inst.imm % q) fun i hi => by
      rw [getD_map hu.length hi, ZMod.natCast_mod, Nat.cast_mul, zero_mul, add_zero, mul_comm]
    rwa [map_natCast, map_zero, zero_mul, add_zero] at hlinear
  | FH_SR_NEGP =>
    rw [hop] at h hr
    obtain ⟨y, hy, rfl⟩ := Option.map_eq_some_iff.mp hr
    obtain ⟨hu, hview⟩ := ha _ y hy
    obtain rfl := Option.some.inj h
    have hneg : ∀ y ∈ u, (if y = 0 then 0 else sub64 q y) = (q - y) % q := by
      intro y hy
      have hlt := hu.lt y hy
      split
      · rename_i hzero
        rw [hzero, Nat.sub_zero, Nat.mod_self]
      · rw [sub64_of_le hlt.le w.fits, Nat.mod_eq_of_lt (by omega)]
    rw [List.map_congr_left hneg] at hresidues ⊢
    refine ⟨hresidues hu, ?_⟩
    have hlinear := hview.linear (-1) 0 hview (x := u.map fun y => (q - y) % q) fun i hi => by
      have hlt : u.getD i 0 < q := by
        rw [List.getD_eq_getElem _ _ (hu.length ▸ hi)]
        exact hu.lt _ (List.getElem_mem _)
      rw [getD_map hu.length hi, ZMod.natCast_mod, Nat.cast_sub hlt.le, ZMod.natCast_self, zero_mul, add_zero,
        zero_sub, neg_one_mul]
    rwa [map_neg, map_one, neg_one_mul, map_zero, zero_mul, add_zero] at hlinear
  | FH_SR_NTT | FH_SR_INTT =>
    rw [hop] at h hr
    obtain ⟨t, ht, h⟩ := Option.bind_eq_some_iff.mp h
    dsimp only at hr
    split at hr
    · rename_i hroot
      obtain ⟨psi, hpsi, htables⟩ := tables_for_root hnames hn ht
      obtain rfl := hpsi.unique hroot
      obtain ⟨rfl, hr⟩ := knownAs_eq_some hr
      obtain ⟨hu, hview⟩ := ha _ r hr
      first
        | exact hview.forward htransforms htables hu h
        | exact hview.inverse htransforms htables hu h
    · exact absurd hr (by simp [unknown])
  | FH_SR_AUTOMORPH_EVAL =>
    rw [hop] at h hr
    obtain ⟨k, hk, h⟩ := Option.bind_eq_some_iff.mp h
    dsimp only at hr
    rw [hk, Option.bind_some] at hr
    obtain ⟨rfl, hr⟩ := knownAs_eq_some hr
    split at hr
    · rename_i hodd
      obtain ⟨y, hy, rfl⟩ := Option.map_eq_some_iff.mp hr
      obtain ⟨hu, hview⟩ := ha _ y hy
      have hlarge : ¬ 2 ^ 32 ≤ 2 ^ n := fun hlarge => by
        rw [if_pos hlarge] at h
        exact absurd h (by simp)
      have hn31 : n ≤ 31 := by
        have := (Nat.pow_lt_pow_iff_right (by decide)).mp (not_le.mp hlarge)
        omega
      rw [if_neg hlarge, Nat.log2_two_pow, automorph_scatter_spec hn31 (Nat.odd_iff.mp hodd) u
        List.length_replicate] at h
      obtain rfl := Option.some.inj h
      exact ⟨hresidues hu, hview.automorphed hodd⟩
    · exact absurd hr.symm (Option.some_ne_none _)
  | FH_SR_ROT_AUTOMORPH_COEFF =>
    rw [hop] at h hr
    obtain ⟨offset, hoffset, h⟩ := Option.bind_eq_some_iff.mp h
    dsimp only at hr
    rw [hoffset, Option.bind_some] at hr
    obtain ⟨rfl, hr⟩ := knownAs_eq_some hr
    obtain ⟨y, hy, rfl⟩ := Option.map_eq_some_iff.mp hr
    obtain ⟨hu, hview⟩ := ha _ y hy
    obtain rfl := rot_slots_result hn hu w.pos w.fits h
    exact ⟨hresidues hu, hview.rotated _⟩
  | _ =>
    rw [hop] at hr
    exact absurd hr (by simp [unknown])

/-- The modulus of an instruction that does the same under every one. -/
theorem result_modless {N : ℕ} {operands : List Poly} (h : inst.Modless operands) :
    inst.result M N q' operands = inst.result M N q operands := by
  rcases h with hop | ⟨hop, himm⟩ | rfl
  · exact result_automorph hop N q' q operands
  · have hunary : unary_result M N q' inst = unary_result M N q inst := by
      funext a
      rcases hop with hop | hop
      · rw [unary_result, unary_result, hop, himm]
        rfl
      · rw [unary_result, unary_result, hop, himm]
        rfl
    have hbinary : binary_result M q' inst = binary_result M q inst := by
      funext a b
      rcases hop with hop | hop
      · rw [binary_result, binary_result, hop]
      · rw [binary_result, binary_result, hop]
    unfold Instruction.result
    rw [hunary, hbinary]
  · rfl

/-- **What is known of a result is true**, if it was of the operands. -/
theorem Root.tells_result (hM : M.Exact) (hnames : M.MeetsNames) (htransforms : M.Transforms) (hn : n < 64)
    {knowns : List (Known n q)} {operands : List Poly} (hall : List.Forall₂ w.Tells knowns operands)
    (h : inst.result M (2 ^ n) q operands = some x) : w.Tells (w.ring_result inst knowns) x := by
  unfold Instruction.result at h
  split at h
  · cases hall with
    | nil =>
      dsimp only at h
      split at h
      · rename_i hclears
        obtain rfl := Option.some.inj h
        intro f r hr
        rw [ring_result, if_pos hclears.1] at hr
        obtain rfl := Option.some.inj hr
        refine ⟨⟨List.length_replicate, fun y hy => ?_⟩, views_zero fun i hi => List.getD_replicate 0 hi⟩
        rw [List.eq_of_mem_replicate hy]
        exact w.pos
      · exact absurd h (by simp)
    | cons ha hall =>
      cases hall with
      | nil => exact w.tells_unary hM hnames htransforms hn h ha
      | cons hb hall =>
        cases hall with
        | nil => exact w.tells_binary hM h ha hb
        | cons _ _ => exact absurd h (by simp)
  · exact absurd h (by simp)

end Instructions

/-! ## Runs -/

section Runs

variable {M : NativeMath} {n q : ℕ} (w : Root n q)

/-- What is known of every address is true of the memory. -/
def Root.Knows (known : ℕ → Known n q) (m : ℕ → Poly) : Prop := ∀ a, w.Tells (known a) (m a)

variable {w} {known : ℕ → Known n q} {m m' : ℕ → Poly}

theorem Root.tells_unknown (v : Poly) : w.Tells unknown v := fun _ _ h => absurd h (by simp [unknown])

/-- A line. -/
theorem Root.Knows.step (hM : M.Exact) (hnames : M.MeetsNames) (htransforms : M.Transforms) (hn : n < 64)
    (hknows : w.Knows known m) {l : Line Kernel ℕ} (h : l.step (kernel_result M (2 ^ n)) m = some m') :
    w.Knows (w.ring_step known l) m' := by
  obtain ⟨v, hv, rfl⟩ := Option.map_eq_some_iff.mp h
  intro a
  by_cases ha : a = l.dest
  · subst ha
    rw [ring_step, Function.update_self, Function.update_self]
    have hall : List.Forall₂ w.Tells (l.reads.map known) (l.reads.map m) := by
      rw [List.forall₂_map_left_iff, List.forall₂_map_right_iff]
      exact List.forall₂_same.mpr fun a _ => hknows a
    split
    · rename_i hmodulus
      refine w.tells_result hM hnames htransforms hn hall ?_
      rcases hmodulus with hq | hmodless
      · rw [← hq]
        exact hv
      · have hmodless' : l.op.1.Modless (l.reads.map m) :=
          hmodless.imp_right (Or.imp_right List.map_eq_nil_iff.mpr)
        have hsame : l.op.1.result M (2 ^ n) l.op.2 (l.reads.map m) = l.op.1.result M (2 ^ n) q (l.reads.map m) :=
          result_modless hmodless'
        exact hsame ▸ hv
    · exact tells_unknown v
  · rw [ring_step, Function.update_of_ne ha, Function.update_of_ne ha]
    exact hknows a

/-- **Lines compute in the ring.** -/
theorem Root.Knows.run (hM : M.Exact) (hnames : M.MeetsNames) (htransforms : M.Transforms) (hn : n < 64)
    (lines : List (Line Kernel ℕ)) : ∀ {known : ℕ → Known n q} {m m' : ℕ → Poly}, w.Knows known m →
      evaluate (kernel_result M (2 ^ n)) m lines = some m' → w.Knows (w.ring_run known lines) m' := by
  induction lines with
  | nil =>
    intro known m m' hknows h
    rw [← Option.some.inj h]
    exact hknows
  | cons l lines ih =>
    intro known m m' hknows h
    rw [evaluate_cons] at h
    obtain ⟨m₁, hstep, h⟩ := Option.bind_eq_some_iff.mp h
    exact ih (hknows.step hM hnames htransforms hn hstep) h

/-- **A run is one of the loop that frees nothing**, at what is kept, whatever the
schedule. -/
theorem execute_loop_of_run {s f : Simulator} {r : SimResult} (hdim : s.ring_dim = 2 ^ n) (disabled : Bool)
    (h : run M (compute_liveness s disabled) = some (f, r)) :
    ∃ impl k, execute_loop M [] s.trace.instructions 0 { s.toImpl with error_count := 0 } 0 =
      some (impl, k) ∧ r.errors = impl.error_count ∧ ∀ a ∈ s.live_out_, f.memory a = impl.memory a := by
  have hN : s.ring_dim ≠ 0 := by
    rw [hdim]
    exact (Nat.two_pow_pos n).ne'
  cases disabled with
  | true =>
    obtain ⟨impl, k, hloop, hf, hcount⟩ := loop_of_run (s := compute_liveness s true) hN rfl h
    exact ⟨impl, k, hloop, hcount, fun a _ => congrFun (congrArg (fun i => i.memory) hf) a⟩
  | false =>
    have hloop := execute_loop_eq (M := M) (S := s.toSetup) [] s.trace.instructions 0
      { s.toProgress with error_count := 0 } s.memory 0
    have hnone : (fun j => ([] : List (List ℕ)).getD j []) = fun _ => [] := funext fun _ => rfl
    rw [hnone, Machine.runFreeing_empty] at hloop
    have hagree := Machine.runFreeing_agree _ none (· ∈ s.live_out_) _ s.trace.instructions 0
      ({ s.toProgress with error_count := 0 }, 0) s.memory s.memory
      (free_schedule_safe (M := M) (S := s.toSetup) s.live_out_ s.trace.instructions
        fun inst _ _ => by rw [hdim, Nat.log2_two_pow]) fun _ _ => rfl
    rw [run_eq_runFreeing (s := compute_liveness s false) hN] at h
    obtain ⟨c, hfreed, hpair⟩ := Option.map_eq_some_iff.mp h
    obtain ⟨rfl, rfl⟩ := Prod.mk.inj hpair
    replace hfreed : (simMachine M s.toSetup).runFreeing none
      (fun j => (free_schedule s.live_out_ s.trace.instructions).getD j []) s.trace.instructions 0
      (({ s.toProgress with error_count := 0 }, 0), s.memory) = some c := hfreed
    rw [hfreed] at hagree
    generalize hplain : (simMachine M s.toSetup).run s.trace.instructions
      (({ s.toProgress with error_count := 0 }, 0), s.memory) = plain at hagree hloop
    cases hagree with
    | some hsame =>
      obtain ⟨hprogress, hkeep⟩ := hsame
      exact ⟨_, _, hloop, congrArg (fun p => p.1.error_count) hprogress, hkeep⟩

/-- **A run without an error computes in the ring.** If what is known of the memory is
true before it, then what is known after its lines is true of the outputs, with and
without the schedule that frees what is not read again. -/
theorem trace_computes_in_ring (w : Root n q) (hM : M.Exact) (hnames : M.MeetsNames)
    (htransforms : M.Transforms) {s f : Simulator} {r : SimResult} (hn : n < 64) (hdim : s.ring_dim = 2 ^ n)
    (hcached : s.Cached M) (disabled : Bool) (hrun : run M (compute_liveness s disabled) = some (f, r))
    (herrors : r.errors = 0) (known : ℕ → Known n q) (hknown : w.Knows known s.get_or_zero) :
    ∀ a ∈ s.live_out_, s.memory.is_initialized a = true ∨
        a ∈ (trace_lines s.trace.modulus_table s.trace.instructions).map Line.dest →
      w.Tells (w.ring_run known (trace_lines s.trace.modulus_table s.trace.instructions) a)
        (get_polynomial f a) := by
  intro a hlive ha
  obtain ⟨impl, k, hloop, hcount, hkeep⟩ := execute_loop_of_run hdim disabled hrun
  let start : Impl := { s.toImpl with error_count := 0 }
  have hstart : start.Cached M := hcached.congr rfl rfl
  have hnone : impl.error_count = start.error_count := hcount.symm.trans herrors
  have hlines := evaluate_of_execute_loop _ (s := start) hdim hstart hloop hnone
  rw [get_polynomial_eq (hkeep a hlive)
    (initialized_of_execute_loop _ (s := start) hdim hstart hloop hnone a ha)]
  exact hknown.run hM hnames htransforms hn _ hlines a

end Runs

/-! ## An instance -/

section Reference

variable {n q psi : ℕ} {t : NttTables} {u v : Poly}

/-- A sum modulo `q`, as it is computed. -/
theorem foldl_sum_mod (hq : 0 < q) (f : ℕ → ℕ) (m : ℕ) :
    (List.range m).foldl (fun acc i => (acc + f i) % q) 0 < q ∧
      (((List.range m).foldl (fun acc i => (acc + f i) % q) 0 : ℕ) : ZMod q) =
        ∑ i ∈ Finset.range m, (f i : ZMod q) := by
  induction m with
  | zero => exact ⟨hq, by simp⟩
  | succ m ih =>
    rw [List.range_succ, List.foldl_append, Finset.sum_range_succ, ← ih.2]
    refine ⟨Nat.mod_lt _ hq, ?_⟩
    simp

theorem Residues.pos (h : Residues (2 ^ n) q v) : 0 < q := by
  have hmem : v.getD 0 0 ∈ v := by
    rw [List.getD_eq_getElem _ _ (h.length ▸ Nat.two_pow_pos n)]
    exact List.getElem_mem _
  exact Nat.zero_lt_of_lt (h.lt _ hmem)

theorem getD_map_range {f : ℕ → ℕ} {i m : ℕ} (hi : i < m) : ((List.range m).map f).getD i 0 = f i := by
  rw [List.getD_eq_getElem _ _ (by simp [hi]), List.getElem_map, List.getElem_range]

/-- The root is in the slot of index 1, if there is one. -/
theorem TablesOf.forward_one (ht : TablesOf (2 ^ n) q psi t) {e i : ℕ} (hi : i < 2 ^ n) :
    ((t.forward.getD (rev_bits 1 n) 1 : ℕ) : ZMod q) ^ (e * i) = (psi : ZMod q) ^ (e * i) := by
  rcases n with - | n
  · rw [show i = 0 by omega, Nat.mul_zero, pow_zero, pow_zero]
  · have hslot := ht.forward 1 (Nat.one_lt_two_pow (Nat.succ_ne_zero n))
    rw [Nat.log2_two_pow, pow_one] at hslot
    rw [List.getD_eq_getElem?_getD, hslot, Option.getD_some, ZMod.natCast_mod]

theorem TablesOf.inverse_one (ht : TablesOf (2 ^ n) q psi t) {y : ZMod q} (hy : psi * y = 1) {e i : ℕ}
    (hi : i < 2 ^ n) : ((t.inverse.getD (rev_bits 1 n) 1 : ℕ) : ZMod q) ^ (e * i) = y ^ (e * i) := by
  rcases n with - | n
  · rw [show i = 0 by omega, Nat.mul_zero, pow_zero, pow_zero]
  · obtain ⟨z, -, hslot, hone⟩ := ht.inverse 1 (Nat.one_lt_two_pow (Nat.succ_ne_zero n))
    rw [Nat.log2_two_pow] at hslot
    rw [pow_one] at hone
    have hz : (psi : ZMod q) * z = 1 := by
      have hcast := congrArg (Nat.cast : ℕ → ZMod q) hone
      rwa [ZMod.natCast_mod, Nat.cast_mul, Nat.cast_one] at hcast
    have hzy : (z : ZMod q) = y := by
      calc (z : ZMod q) = z * (psi * y) := by rw [hy, mul_one]
        _ = y := by rw [← mul_assoc, mul_comm (z : ZMod q), hz, one_mul]
    rw [List.getD_eq_getElem?_getD, hslot, Option.getD_some, hzy]

/-- The reference arithmetic has the documented transforms. -/
theorem referenceMath_transforms : referenceMath.Transforms where
  forward {n q psi t v u} ht hv h := by
    obtain rfl := Option.some.inj h
    have hsum := fun j => foldl_sum_mod hv.pos (fun i => v.getD i 0 *
      t.forward.getD (rev_bits 1 n) 1 ^ ((2 * rev_bits j n + 1) * i)) (2 ^ n)
    simp only [hv.length, Nat.log2_two_pow]
    refine ⟨⟨by simp, fun y hy => ?_⟩, fun j hj => ?_⟩
    · obtain ⟨j, -, rfl⟩ := List.mem_map.mp hy
      exact (hsum j).1
    · rw [getD_map_range (rev_bits_lt j n), (hsum _).2, eval]
      refine Finset.sum_congr rfl fun i hi => ?_
      rw [rev_bits_rev_bits hj, Nat.cast_mul, Nat.cast_pow, ht.forward_one (Finset.mem_range.mp hi), pow_mul]
  inverse {n q psi t v u} ht hv h := by
    obtain rfl := Option.some.inj h
    have hsum := fun i => foldl_sum_mod hv.pos (fun j => v.getD j 0 *
      t.inverse.getD (rev_bits 1 n) 1 ^ ((2 * rev_bits j n + 1) * i)) (2 ^ n)
    simp only [hv.length, Nat.log2_two_pow]
    refine ⟨⟨by simp, fun y hy => ?_⟩, fun y hy i hi => ?_⟩
    · obtain ⟨i, -, rfl⟩ := List.mem_map.mp hy
      exact Nat.mod_lt _ hv.pos
    · have hunit : (t.n_inverse : ZMod q) * 2 ^ n = 1 := by
        have hcast := congrArg (Nat.cast : ℕ → ZMod q) ht.n_inverse
        rw [ZMod.natCast_mod] at hcast
        push_cast at hcast
        exact hcast
      rw [getD_map_range hi, ZMod.natCast_mod, Nat.cast_mul, (hsum i).2, ← mul_assoc, mul_comm (2 ^ n : ZMod q),
        hunit, one_mul]
      -- slot by slot, in the order of the exponents
      refine Finset.sum_nbij' (fun j => rev_bits j n) (fun j => rev_bits j n)
        (fun j _ => Finset.mem_range.mpr (rev_bits_lt j n)) (fun j _ => Finset.mem_range.mpr (rev_bits_lt j n))
        (fun j hj => rev_bits_rev_bits (Finset.mem_range.mp hj))
        (fun j hj => rev_bits_rev_bits (Finset.mem_range.mp hj)) fun j hj => ?_
      rw [rev_bits_rev_bits (Finset.mem_range.mp hj), Nat.cast_mul, Nat.cast_pow, ht.inverse_one hy hi]

end Reference

/-- `%5 = INTT(NTT(%0) * NTT(%1))` modulo 5, where 2 is a root for the dimension 2. -/
def twoTransforms : Simulator where
  ring_dim := 2
  trace :=
    { modulus_table := [5]
      instructions :=
        [{ opcode := .FH_SR_NTT, dest := 2, src1 := 0, modulus := some 0, omega := some 2 },
          { opcode := .FH_SR_NTT, dest := 3, src1 := 1, modulus := some 0, omega := some 2 },
          { opcode := .FH_SR_MULP, dest := 4, src1 := 2, src2 := 3, modulus := some 0 },
          { opcode := .FH_SR_INTT, dest := 5, src1 := 4, modulus := some 0, omega := some 2 }] }
  memory := Function.update (Function.update Memory.empty 0 (some ⟨[1, 2], 5, true⟩)) 1 (some ⟨[3, 2], 5, true⟩)
  live_out_ := [5]

/-- The root 2. -/
def rootTwo : Root 1 5 where
  psi := 2
  two_lt := by decide
  fits := by decide
  root := ⟨by decide, by decide, ⟨1, rfl⟩, by decide⟩

/-- What is known of its inputs. -/
noncomputable def inputCoefficients : ℕ → Known 1 5 :=
  Function.update (Function.update (fun _ => unknown) 0
    (knownAs .Coefficient (some (toNegacyclic 5 (2 ^ 1) [1, 2])))) 1
      (knownAs .Coefficient (some (toNegacyclic 5 (2 ^ 1) [3, 2])))

theorem inputCoefficients_known : rootTwo.Knows inputCoefficients twoTransforms.get_or_zero := by
  intro a f r h
  by_cases hone : a = 1
  · subst hone
    obtain ⟨rfl, h⟩ := knownAs_eq_some h
    exact ⟨⟨rfl, by decide⟩, Option.some.inj h⟩
  · rw [inputCoefficients, Function.update_of_ne hone] at h
    by_cases hzero : a = 0
    · subst hzero
      obtain ⟨rfl, h⟩ := knownAs_eq_some h
      exact ⟨⟨rfl, by decide⟩, Option.some.inj h⟩
    · rw [Function.update_of_ne hzero] at h
      exact absurd h (by simp [unknown])

/-- The line of the last transform has the product. -/
theorem twoTransforms_product : rootTwo.ring_run inputCoefficients
    (trace_lines twoTransforms.trace.modulus_table twoTransforms.trace.instructions) 5 .Coefficient =
      some (toNegacyclic 5 (2 ^ 1) [1, 2] * toNegacyclic 5 (2 ^ 1) [3, 2]) := by
  have hroot : RootFor 2 5 (some 2) rootTwo.psi := .recorded (by decide) rootTwo.root
  have hlines : trace_lines twoTransforms.trace.modulus_table twoTransforms.trace.instructions =
      [⟨({ opcode := .FH_SR_NTT, dest := 2, src1 := 0, omega := some 2 }, 5), [0], 2⟩,
        ⟨({ opcode := .FH_SR_NTT, dest := 3, src1 := 1, omega := some 2 }, 5), [1], 3⟩,
        ⟨({ opcode := .FH_SR_MULP, dest := 4, src1 := 2, src2 := 3 }, 5), [2, 3], 4⟩,
        ⟨({ opcode := .FH_SR_INTT, dest := 5, src1 := 4, omega := some 2 }, 5), [4], 5⟩] := rfl
  rw [hlines]
  simp [Root.ring_run, Root.ring_step, Root.ring_result, inputCoefficients, knownAs, pointwise, hroot]

/-- The product modulo `X ^ 2 + 1`. -/
theorem trace_computes_in_ring_product : ∃ f r, run referenceMath (compute_liveness twoTransforms false) = some (f, r) ∧
    get_polynomial f 5 = [4, 3] ∧
      toNegacyclic 5 (2 ^ 1) [4, 3] = toNegacyclic 5 (2 ^ 1) [1, 2] * toNegacyclic 5 (2 ^ 1) [3, 2] := by
  have hvalues : (run referenceMath (compute_liveness twoTransforms false)).map
      (fun p => (get_polynomial p.1 5, p.2.errors)) = some ([4, 3], 0) := by decide +kernel
  obtain ⟨⟨f, r⟩, hrun, hpair⟩ := Option.map_eq_some_iff.mp hvalues
  obtain ⟨hvalue, herrors⟩ := Prod.mk.inj hpair
  refine ⟨f, r, hrun, hvalue, ?_⟩
  rw [← hvalue]
  exact (trace_computes_in_ring rootTwo referenceMath_exact referenceMath_meetsNames
    referenceMath_transforms (s := twoTransforms) (by decide) rfl (fun _ => (absurd · List.not_mem_nil)) false hrun
    herrors inputCoefficients inputCoefficients_known 5 (by decide) (.inr (by decide)) .Coefficient _
    twoTransforms_product).2

end Fhetch
