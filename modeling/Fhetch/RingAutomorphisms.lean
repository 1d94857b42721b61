/-
The automorphisms of the simulator (`exec_automorph_eval`, `exec_rot_automorph_coeff`).

The first permutes evaluations, which are kept in bit-reversed order: the value at an
odd power of a root goes where the automorphism takes the exponent. Its index is a
32-bit counter that wraps, and it wraps at a multiple of `2 N`.

The second rotates coefficients, with a sign for every time the end is passed. Its
index is a 64-bit sum, and it passes the end once: from there on it reads behind the
operand.
-/
import Fhetch.Lib.Cuts
import Fhetch.Lib.Negacyclic
import Fhetch.Locality
import Fhetch.RecordedCode
import Mathlib.Data.ZMod.Basic

set_option autoImplicit false

open scoped Polynomial

namespace Fhetch

/-! ## The Galois automorphism -/

/-- The exponent `2 j + 1`, times `k`, is `2 i + 1` for this `i`, modulo `2 N`. -/
def galoisIndex (n k j : ℕ) : ℕ := ((2 * j + 1) * k - 1) / 2 % 2 ^ n

/-- Evaluations in bit-reversed order, under `X ↦ X ^ k`. -/
def automorphed (n k : ℕ) (v : Poly) : Poly :=
  (List.range (2 ^ n)).map fun i => v.getD (rev_bits (galoisIndex n k (rev_bits i n)) n) 0

/-- The stores of the loop, in order. -/
def automorph_writes (logn k : ℕ) (snapshot : Poly) : ℕ → ℕ → ℕ → List (ℕ × ℕ)
  | 0, _, _ => []
  | n + 1, j, jk =>
    (rev_bits j logn, snapshot.getD (rev_bits ((jk >>> 1) &&& (2 ^ logn - 1)) logn) 0) ::
      automorph_writes logn k snapshot n (j + 1) ((jk + 2 * k) % 2 ^ 32)

/-- Stores at some places. -/
def storeAll (r : Poly) (writes : List (ℕ × ℕ)) : Poly := writes.foldl (fun r w => r.set w.1 w.2) r

theorem automorph_scatter_eq {logn k : ℕ} {snapshot : Poly} (n : ℕ) :
    ∀ (j jk : ℕ) (r : Poly), automorph_scatter logn k snapshot n j jk r =
      storeAll r (automorph_writes logn k snapshot n j jk) := by
  induction n with
  | zero => exact fun _ _ _ => rfl
  | succ n ih => exact fun j jk r => ih (j + 1) _ _

theorem storeAll_length (writes : List (ℕ × ℕ)) : ∀ r : Poly, (storeAll r writes).length = r.length := by
  induction writes with
  | nil => exact fun _ => rfl
  | cons w writes ih =>
    intro r
    show (storeAll (r.set w.1 w.2) writes).length = r.length
    rw [ih, List.length_set]

theorem storeAll_of_not_mem {i : ℕ} (writes : List (ℕ × ℕ)) :
    ∀ r : Poly, i ∉ writes.map Prod.fst → (storeAll r writes)[i]? = r[i]? := by
  induction writes with
  | nil => exact fun _ _ => rfl
  | cons w writes ih =>
    intro r hi
    rw [List.map_cons, List.mem_cons, not_or] at hi
    show (storeAll (r.set w.1 w.2) writes)[i]? = r[i]?
    rw [ih _ hi.2, List.getElem?_set_ne (Ne.symm hi.1)]

/-- Where every place is stored to once, what is stored stays. -/
theorem storeAll_of_mem {w : ℕ × ℕ} (writes : List (ℕ × ℕ)) :
    ∀ r : Poly, (writes.map Prod.fst).Nodup → w.1 < r.length → w ∈ writes →
      (storeAll r writes)[w.1]? = some w.2 := by
  induction writes with
  | nil => exact fun _ _ _ hw => absurd hw List.not_mem_nil
  | cons w' writes ih =>
    intro r hnodup hlt hw
    rw [List.map_cons, List.nodup_cons] at hnodup
    show (storeAll (r.set w'.1 w'.2) writes)[w.1]? = some w.2
    rcases List.mem_cons.mp hw with rfl | hw
    · rw [storeAll_of_not_mem _ _ hnodup.1, List.getElem?_set_self hlt]
    · exact ih _ hnodup.2 (by rwa [List.length_set]) hw

/-- The counter of the loop is an odd multiple of `k`, modulo `2 ^ 32`. -/
theorem automorph_writes_eq {logn k : ℕ} {snapshot : Poly} (n : ℕ) :
    ∀ j : ℕ, automorph_writes logn k snapshot n j ((2 * j + 1) * k % 2 ^ 32) =
      (List.range' j n).map fun j => (rev_bits j logn,
        snapshot.getD (rev_bits (((2 * j + 1) * k % 2 ^ 32) >>> 1 &&& (2 ^ logn - 1)) logn) 0) := by
  induction n with
  | zero => exact fun _ => rfl
  | succ n ih =>
    intro j
    have hnext : ((2 * j + 1) * k % 2 ^ 32 + 2 * k) % 2 ^ 32 = (2 * (j + 1) + 1) * k % 2 ^ 32 := by
      rw [Nat.mod_add_mod]
      congr 1
      ring
    rw [automorph_writes, hnext, ih, List.range'_succ, List.map_cons]

/-! ### Exponents -/

section Exponents

variable {n k : ℕ}

theorem galoisIndex_lt (n k j : ℕ) : galoisIndex n k j < 2 ^ n := Nat.mod_lt _ (Nat.two_pow_pos n)

/-- **The exponent** that an index stands for. -/
theorem exponent_galoisIndex (hk : k % 2 = 1) (j : ℕ) :
    2 * galoisIndex n k j + 1 = (2 * j + 1) * k % (2 * 2 ^ n) := by
  have hodd : (2 * j + 1) * k % 2 = 1 := by
    rw [Nat.mul_mod, hk]
    omega
  have hhalf : ((2 * j + 1) * k - 1) / 2 = (2 * j + 1) * k / 2 := by omega
  have hmod := Nat.mod_mul_right_div_self ((2 * j + 1) * k) 2 (2 ^ n)
  have hparity : (2 * j + 1) * k % (2 * 2 ^ n) % 2 = 1 := by
    rw [Nat.mod_mul_right_mod, hodd]
  rw [galoisIndex, hhalf, ← hmod]
  omega

/-- The index depends on `k` modulo `2 N`. -/
theorem galoisIndex_congr {k' : ℕ} (hk : k % 2 = 1) (h : k' % (2 * 2 ^ n) = k % (2 * 2 ^ n)) (j : ℕ) :
    galoisIndex n k' j = galoisIndex n k j := by
  have hk' : k' % 2 = 1 := by
    rw [← Nat.mod_mul_right_mod k' 2 (2 ^ n), h, Nat.mod_mul_right_mod, hk]
  have he := exponent_galoisIndex (n := n) hk' j
  have he' := exponent_galoisIndex (n := n) hk j
  have hsame : (2 * j + 1) * k' % (2 * 2 ^ n) = (2 * j + 1) * k % (2 * 2 ^ n) := by
    rw [Nat.mul_mod, h, ← Nat.mul_mod]
  omega

/-- Indices compose as their multipliers do. -/
theorem galoisIndex_galoisIndex {k' : ℕ} (hk : k % 2 = 1) (hk' : k' % 2 = 1) (j : ℕ) :
    galoisIndex n k (galoisIndex n k' j) = galoisIndex n (k * k' % (2 * 2 ^ n)) j := by
  have hprod : k * k' % (2 * 2 ^ n) % 2 = 1 := by
    rw [Nat.mod_mul_right_mod, Nat.mul_mod, hk, hk']
  have houter := exponent_galoisIndex (n := n) hk (galoisIndex n k' j)
  have hinner := exponent_galoisIndex (n := n) hk' j
  have hboth := exponent_galoisIndex (n := n) hprod j
  rw [hinner] at houter
  have hsame : (2 * j + 1) * k' % (2 * 2 ^ n) * k % (2 * 2 ^ n) =
      (2 * j + 1) * (k * k' % (2 * 2 ^ n)) % (2 * 2 ^ n) := by
    rw [Nat.mod_mul_mod, Nat.mul_mod_mod]
    congr 1
    ring
  omega

/-- Different indices go to different ones. -/
theorem galoisIndex_injective (hk : k % 2 = 1) {j j' : ℕ} (hj : j < 2 ^ n) (hj' : j' < 2 ^ n)
    (h : galoisIndex n k j = galoisIndex n k j') : j = j' := by
  have he := exponent_galoisIndex (n := n) hk j
  have he' := exponent_galoisIndex (n := n) hk j'
  have hcoprime : Nat.gcd (2 * 2 ^ n) k = 1 := by
    rw [← pow_succ']
    exact Nat.Coprime.pow_left _ ((Nat.coprime_two_left).mpr (Nat.odd_iff.mpr hk))
  have hmod : (2 * j + 1) * k ≡ (2 * j' + 1) * k [MOD 2 * 2 ^ n] := by
    show _ % _ = _ % _
    omega
  have hcancel := Nat.ModEq.cancel_right_of_coprime hcoprime hmod
  have heq : (2 * j + 1) % (2 * 2 ^ n) = (2 * j' + 1) % (2 * 2 ^ n) := hcancel
  rw [Nat.mod_eq_of_lt (by omega), Nat.mod_eq_of_lt (by omega)] at heq
  omega

end Exponents

/-! ### Slots -/

/-- An injective map of the first indices to themselves permutes them. -/
theorem map_range_perm {N : ℕ} {f : ℕ → ℕ} (hlt : ∀ i < N, f i < N)
    (hinj : ∀ i < N, ∀ j < N, f i = f j → i = j) : ((List.range N).map f).Perm (List.range N) := by
  have hnodup : ((List.range N).map f).Nodup := by
    refine List.Nodup.map_on (fun i hi j hj => ?_) List.nodup_range
    exact hinj i (List.mem_range.mp hi) j (List.mem_range.mp hj)
  have hsub : (List.range N).map f ⊆ List.range N := by
    intro i hi
    obtain ⟨j, hj, rfl⟩ := List.mem_map.mp hi
    exact List.mem_range.mpr (hlt j (List.mem_range.mp hj))
  refine (hnodup.subperm hsub).perm_of_length_le ?_
  rw [List.length_map]

/-- Bit reversal is a permutation of the slots. -/
theorem rev_bits_perm (n : ℕ) :
    ((List.range (2 ^ n)).map fun j => rev_bits j n).Perm (List.range (2 ^ n)) := by
  refine map_range_perm (fun i _ => rev_bits_lt i n) fun i hi j hj h => ?_
  rw [← rev_bits_rev_bits hi, h, rev_bits_rev_bits hj]

section Slots

variable {n k : ℕ} {v : Poly}

@[simp] theorem automorphed_length (n k : ℕ) (v : Poly) : (automorphed n k v).length = 2 ^ n := by
  rw [automorphed, List.length_map, List.length_range]

/-- **The slot of an exponent.** -/
theorem automorphed_slot {j : ℕ} (hj : j < 2 ^ n) : (automorphed n k v).getD (rev_bits j n) 0 =
    v.getD (rev_bits (galoisIndex n k j) n) 0 := by
  rw [List.getD_eq_getElem _ _ (by rw [automorphed_length]; exact rev_bits_lt j n)]
  simp only [automorphed, List.getElem_map, List.getElem_range, rev_bits_rev_bits hj]

/-- Two vectors with the same slots. -/
theorem ext_slots {v w : Poly} (hv : v.length = 2 ^ n) (hw : w.length = 2 ^ n)
    (h : ∀ j < 2 ^ n, v.getD (rev_bits j n) 0 = w.getD (rev_bits j n) 0) : v = w := by
  apply List.ext_getElem (hv.trans hw.symm)
  intro i hi hi'
  have hslot := h (rev_bits i n) (rev_bits_lt i n)
  rwa [rev_bits_rev_bits (hv ▸ hi), List.getD_eq_getElem _ _ hi, List.getD_eq_getElem _ _ hi'] at hslot

/-- The vector is the same values elsewhere. -/
theorem automorphed_perm (hk : k % 2 = 1) (hv : v.length = 2 ^ n) : (automorphed n k v).Perm v := by
  have hsource : v = (List.range (2 ^ n)).map fun i => v.getD i 0 := by
    apply List.ext_getElem
    · rw [List.length_map, List.length_range, hv]
    · intro i hi hi'
      rw [List.getElem_map, List.getElem_range, List.getD_eq_getElem _ _ hi]
  have hslots : ((List.range (2 ^ n)).map fun i => rev_bits (galoisIndex n k (rev_bits i n)) n).Perm
      (List.range (2 ^ n)) := by
    refine map_range_perm (fun i _ => rev_bits_lt _ n) fun i hi j hj h => ?_
    have hindex := congrArg (rev_bits · n) h
    simp only [rev_bits_rev_bits (galoisIndex_lt n k _)] at hindex
    have hrev := galoisIndex_injective hk (rev_bits_lt i n) (rev_bits_lt j n) hindex
    rw [← rev_bits_rev_bits hi, hrev, rev_bits_rev_bits hj]
  have hmapped := hslots.map fun i => v.getD i 0
  rw [List.map_map, ← hsource] at hmapped
  exact hmapped

theorem automorphed_congr {k' : ℕ} (hk : k % 2 = 1) (h : k' % (2 * 2 ^ n) = k % (2 * 2 ^ n)) :
    automorphed n k' v = automorphed n k v := by
  unfold automorphed
  simp only [galoisIndex_congr hk h]

/-- **Automorphisms compose.** -/
theorem automorphed_automorphed {k' : ℕ} (hk : k % 2 = 1) (hk' : k' % 2 = 1) :
    automorphed n k' (automorphed n k v) = automorphed n (k * k' % (2 * 2 ^ n)) v := by
  apply ext_slots (automorphed_length ..) (automorphed_length ..)
  intro j hj
  rw [automorphed_slot hj, automorphed_slot (galoisIndex_lt n k' j), automorphed_slot hj,
    galoisIndex_galoisIndex hk hk']

/-- **Values at the odd powers of a root** become those at their `k`-th powers. -/
theorem automorphed_values (hk : k % 2 = 1) {q : ℕ} {f : (ZMod q)[X]} {psi : ZMod q}
    (hpsi : psi ^ 2 ^ n = -1)
    (hv : ∀ j < 2 ^ n, (v.getD (rev_bits j n) 0 : ZMod q) = f.eval (psi ^ (2 * j + 1))) {j : ℕ}
    (hj : j < 2 ^ n) : ((automorphed n k v).getD (rev_bits j n) 0 : ZMod q) =
      f.eval (psi ^ (k * (2 * j + 1))) := by
  rw [automorphed_slot hj, hv _ (galoisIndex_lt n k j), exponent_galoisIndex hk, Negacyclic.pow_mod hpsi,
    mul_comm]

/-- The loop reads the slot of an exponent, whatever the counter has wrapped. -/
theorem automorph_index (hn : n ≤ 31) {k : UInt64} (hk : k.toNat % 2 = 1) (j : ℕ) :
    ((2 * j + 1) * (k.toNat % 2 ^ 32) % 2 ^ 32) >>> 1 &&& (2 ^ n - 1) = galoisIndex n k.toNat j := by
  have hodd : (2 * j + 1) * k.toNat % 2 = 1 := by
    rw [Nat.mul_mod, hk]
    omega
  have hhalf : ((2 * j + 1) * k.toNat - 1) / 2 = (2 * j + 1) * k.toNat / 2 := by omega
  have hdvd : 2 ^ n ∣ 2 ^ 31 := pow_dvd_pow 2 hn
  rw [Nat.and_two_pow_sub_one_eq_mod, Nat.shiftRight_eq_div_pow, pow_one, Nat.mul_mod_mod, galoisIndex,
    hhalf, show (2 : ℕ) ^ 32 = 2 * 2 ^ 31 by norm_num, Nat.mod_mul_right_div_self, Nat.mod_mod_of_dvd _ hdvd]

/-- The stores of the whole loop. -/
theorem automorph_writes_all (hn : n ≤ 31) {k : UInt64} (hk : k.toNat % 2 = 1) (v : Poly) :
    automorph_writes n (k.toNat % 2 ^ 32) v (2 ^ n) 0 (k.toNat % 2 ^ 32) =
      (List.range (2 ^ n)).map fun j =>
        (rev_bits j n, v.getD (rev_bits (galoisIndex n k.toNat j) n) 0) := by
  have hfirst : k.toNat % 2 ^ 32 = (2 * 0 + 1) * (k.toNat % 2 ^ 32) % 2 ^ 32 := by
    rw [Nat.mul_zero, Nat.zero_add, Nat.one_mul, Nat.mod_mod]
  have hwrites := @automorph_writes_eq n (k.toNat % 2 ^ 32) v (2 ^ n) 0
  rw [← hfirst] at hwrites
  rw [hwrites, ← List.range_eq_range']
  simp only [automorph_index hn hk]

/-- Every slot is stored to once. -/
theorem automorph_writes_perm (hn : n ≤ 31) {k : UInt64} (hk : k.toNat % 2 = 1) (v : Poly) :
    ((automorph_writes n (k.toNat % 2 ^ 32) v (2 ^ n) 0 (k.toNat % 2 ^ 32)).map Prod.fst).Perm
      (List.range (2 ^ n)) := by
  rw [automorph_writes_all hn hk, List.map_map]
  exact rev_bits_perm n

/-- **The loop**, over any buffer. -/
theorem automorph_scatter_spec (hn : n ≤ 31) {k : UInt64} (hk : k.toNat % 2 = 1) (v : Poly) {out : Poly}
    (hout : out.length = 2 ^ n) :
    automorph_scatter n (k.toNat % 2 ^ 32) v (2 ^ n) 0 (k.toNat % 2 ^ 32) out = automorphed n k.toNat v := by
  rw [automorph_scatter_eq]
  apply ext_slots ((storeAll_length _ _).trans hout) (automorphed_length ..)
  intro j hj
  have hnodup := (automorph_writes_perm hn hk v).nodup_iff.mpr List.nodup_range
  have hstored := storeAll_of_mem _ out hnodup (hout.symm ▸ rev_bits_lt j n) (by
    rw [automorph_writes_all hn hk]
    exact List.mem_map_of_mem (List.mem_range.mpr hj))
  rw [automorphed_slot hj, List.getD_eq_getElem?_getD, hstored, Option.getD_some]

end Slots

/-! ### The instruction -/

/-- The instruction runs and leaves a vector, over any memory that holds the operand. -/
def LeavesAutomorphed (M : NativeMath) (n : ℕ) (k : UInt64) (v w : Poly) : Prop :=
  ∀ (s : Impl) (inst : Instruction), inst.opcode = .FH_SR_AUTOMORPH_EVAL → inst.k = some k →
    s.ring_dim = 2 ^ n → s.get_or_zero inst.src1.toNat = v →
    ∃ s', exec_instruction M s inst = some (s', true) ∧ s'.get_or_zero inst.dest.toNat = w

theorem leaves_automorphed (M : NativeMath) {n : ℕ} (hn : n ≤ 31) {k : UInt64} (hk : k.toNat % 2 = 1)
    {v : Poly} (hv : v.length = 2 ^ n) : LeavesAutomorphed M n k v (automorphed n k.toNat v) := by
  intro s inst hop hinst hdim hsrc
  have hsmall : ¬ 2 ^ 32 ≤ s.ring_dim := by
    rw [hdim, not_le]
    exact Nat.pow_lt_pow_right (by omega) (by omega)
  have hdim' : (s.resolve_modulus inst).1.ring_dim = 2 ^ n :=
    (congrArg Setup.ring_dim (s.resolve_modulus_setup inst)).trans hdim
  have hbuffer : (s.memory.reserve_dest s.ring_dim inst.dest.toNat).length = 2 ^ n :=
    (Memory.reserve_dest_length _ _ _).trans hdim
  have hexec : exec_instruction M s inst = exec_automorph_eval s inst := by
    unfold exec_instruction
    rw [hop]
  refine ⟨(s.resolve_modulus inst).1.write inst.dest.toNat (automorphed n k.toNat v)
    (s.resolve_modulus inst).2, ?_, ?_⟩
  · rw [hexec, exec_automorph_eval, exec_src1_eq, hsrc, if_neg (not_not.mpr (hv.trans hdim.symm)), hinst]
    dsimp only
    rw [hdim', if_neg (hdim ▸ hsmall), Nat.log2_two_pow, automorph_scatter_spec hn hk v hbuffer]
    rfl
  · rw [Impl.write_get_or_zero, if_pos rfl]

/-- **The automorphism `X ↦ X ^ k` on evaluations**: what the instruction leaves. -/
structure AppliesGalois (M : NativeMath) (n : ℕ) (k : UInt64) (v w : Poly) : Prop where
  leaves : LeavesAutomorphed M n k v w
  stores : ∀ out : Poly, out.length = 2 ^ n →
    automorph_scatter n (k.toNat % 2 ^ 32) v (2 ^ n) 0 (k.toNat % 2 ^ 32) out =
        storeAll out (automorph_writes n (k.toNat % 2 ^ 32) v (2 ^ n) 0 (k.toNat % 2 ^ 32)) ∧
      ((automorph_writes n (k.toNat % 2 ^ 32) v (2 ^ n) 0 (k.toNat % 2 ^ 32)).map Prod.fst).Perm
        (List.range (2 ^ n))
  slots : ∀ j < 2 ^ n, w.getD (rev_bits j n) 0 =
    v.getD (rev_bits (((2 * j + 1) * k.toNat - 1) / 2 % 2 ^ n) n) 0
  values : ∀ (q : ℕ) (f : (ZMod q)[X]) (psi : ZMod q), psi ^ 2 ^ n = -1 →
    (∀ j < 2 ^ n, (v.getD (rev_bits j n) 0 : ZMod q) = f.eval (psi ^ (2 * j + 1))) →
    ∀ j < 2 ^ n, (w.getD (rev_bits j n) 0 : ZMod q) = f.eval (psi ^ (k.toNat * (2 * j + 1)))
  permutes : w.Perm v
  period : ∀ k' : UInt64, k'.toNat % (2 * 2 ^ n) = k.toNat % (2 * 2 ^ n) → LeavesAutomorphed M n k' v w
  composes : ∀ k' k'' : UInt64, k'.toNat % 2 = 1 →
    k''.toNat % (2 * 2 ^ n) = k.toNat * k'.toNat % (2 * 2 ^ n) →
    ∃ w', LeavesAutomorphed M n k' w w' ∧ LeavesAutomorphed M n k'' v w'

/-- **`sr_automorph_eval` is the Galois automorphism**, for every odd multiplier. -/
theorem automorph_eval_is_galois (M : NativeMath) {n : ℕ} (hn : n ≤ 31) {k : UInt64}
    (hk : k.toNat % 2 = 1) {v : Poly} (hv : v.length = 2 ^ n) :
    ∃ w : Poly, w.length = 2 ^ n ∧ AppliesGalois M n k v w := by
  have hodd : ∀ {k k' : ℕ}, k % 2 = 1 → k' % (2 * 2 ^ n) = k % (2 * 2 ^ n) → k' % 2 = 1 := by
    intro k k' hk h
    rw [← Nat.mod_mul_right_mod k' 2 (2 ^ n), h, Nat.mod_mul_right_mod, hk]
  refine ⟨automorphed n k.toNat v, automorphed_length .., leaves_automorphed M hn hk hv, ?_,
    fun j hj => automorphed_slot hj, fun q f psi hpsi hf j hj => automorphed_values hk hpsi hf hj,
    automorphed_perm hk hv, fun k' h => ?_, fun k' k'' hk' h => ?_⟩
  · exact fun out _ => ⟨automorph_scatter_eq _ _ _ _, automorph_writes_perm hn hk v⟩
  · rw [← automorphed_congr hk h]
    exact leaves_automorphed M hn (hodd hk h) hv
  · have hprod : k.toNat * k'.toNat % 2 = 1 := by
      rw [Nat.mul_mod, hk, hk']
    refine ⟨_, leaves_automorphed M hn hk' (automorphed_length ..), ?_⟩
    rw [automorphed_automorphed hk hk', ← h, automorphed_congr (k := k''.toNat) (hodd hprod h)
      (Nat.mod_mod _ _)]
    exact leaves_automorphed M hn (hodd hprod h) hv

/-- Four evaluations under `X ↦ X ^ 3`. -/
theorem automorph_eval_is_galois_cube :
    ∃ w : Poly, w.length = 2 ^ 2 ∧ AppliesGalois referenceMath 2 3 [1, 2, 3, 4] w :=
  automorph_eval_is_galois referenceMath (by decide) (by decide) rfl

example : automorphed 2 3 [1, 2, 3, 4] = [3, 4, 1, 2] := by decide

/-! ## The rotation -/

/-- One coefficient of the rotation: the sign is that of the number of times the end is
passed. -/
def rotatedCoefficient (q N o : ℕ) (a : Poly) (i : ℕ) : ℕ :=
  ((-1) ^ ((i + o) / N) * (a.getD ((i + o) % N) 0 : ℤ) % q).toNat

/-- The coefficients of `X ^ -o` times a polynomial. -/
def rotated (q N o : ℕ) (a : Poly) : Poly := (List.range N).map (rotatedCoefficient q N o a)

section Rotation

variable {q N o : ℕ} {a : Poly}

@[simp] theorem rotated_length (q N o : ℕ) (a : Poly) : (rotated q N o a).length = N := by
  rw [rotated, List.length_map, List.length_range]

theorem rotatedCoefficient_lt (hq : 0 < q) (i : ℕ) : rotatedCoefficient q N o a i < q := by
  have hlt := Int.emod_lt_of_pos ((-1) ^ ((i + o) / N) * (a.getD ((i + o) % N) 0 : ℤ))
    (Int.natCast_pos.mpr hq)
  unfold rotatedCoefficient
  omega

theorem rotatedCoefficient_cast (hq : 0 < q) (i : ℕ) : (rotatedCoefficient q N o a i : ZMod q) =
    Negacyclic.rotate N (fun i => (a.getD i 0 : ZMod q)) o i := by
  have hnonneg := Int.emod_nonneg ((-1) ^ ((i + o) / N) * (a.getD ((i + o) % N) 0 : ℤ))
    (Int.natCast_ne_zero.mpr hq.ne')
  unfold rotatedCoefficient
  rw [← Int.cast_natCast, Int.toNat_of_nonneg hnonneg, ZMod.intCast_mod, Negacyclic.rotate,
    Negacyclic.extend]
  push_cast
  rfl

theorem rotated_getD {i : ℕ} (hi : i < N) : (rotated q N o a).getD i 0 = rotatedCoefficient q N o a i := by
  rw [List.getD_eq_getElem _ _ (by rwa [rotated_length])]
  simp only [rotated, List.getElem_map, List.getElem_range]

theorem rotated_cast (hq : 0 < q) {i : ℕ} (hi : i < N) : ((rotated q N o a).getD i 0 : ZMod q) =
    Negacyclic.rotate N (fun i => (a.getD i 0 : ZMod q)) o i := by
  rw [rotated_getD hi, rotatedCoefficient_cast hq]

/-- A rotation looks at the coefficients below `N` only. -/
theorem rotate_congr {R : Type} [CommRing R] (hN : 0 < N) {f g : ℕ → R} (h : ∀ i < N, f i = g i) (o i : ℕ) :
    Negacyclic.rotate N f o i = Negacyclic.rotate N g o i := by
  rw [Negacyclic.rotate, Negacyclic.rotate, Negacyclic.extend, Negacyclic.extend, h _ (Nat.mod_lt _ hN)]

/-- Reduced vectors with the same residues. -/
theorem ext_residues {v w : Poly} (hlength : v.length = w.length) (hv : ∀ x ∈ v, x < q) (hw : ∀ x ∈ w, x < q)
    (h : ∀ i < v.length, (v.getD i 0 : ZMod q) = (w.getD i 0 : ZMod q)) : v = w := by
  apply List.ext_getElem hlength
  intro i hi hi'
  have hresidue := h i hi
  rwa [List.getD_eq_getElem _ _ hi, List.getD_eq_getElem _ _ hi', ZMod.natCast_eq_natCast_iff',
    Nat.mod_eq_of_lt (hv _ (List.getElem_mem hi)), Nat.mod_eq_of_lt (hw _ (List.getElem_mem hi'))] at hresidue

theorem rotated_lt (hq : 0 < q) {x : ℕ} (hx : x ∈ rotated q N o a) : x < q := by
  obtain ⟨i, -, rfl⟩ := List.mem_map.mp hx
  exact rotatedCoefficient_lt hq i

/-- **Rotations add up.** -/
theorem rotated_rotated (hq : 0 < q) (o o' : ℕ) (a : Poly) :
    rotated q N o' (rotated q N o a) = rotated q N (o + o') a := by
  apply ext_residues (by rw [rotated_length, rotated_length]) (fun x => rotated_lt hq) fun x => rotated_lt hq
  intro i hi
  rw [rotated_length] at hi
  have hN : 0 < N := by omega
  rw [rotated_cast hq hi, rotated_cast hq hi, ← Negacyclic.rotate_rotate hN]
  exact rotate_congr hN (fun j hj => rotated_cast hq hj) o' i

/-- Twice around is where it was. -/
theorem rotated_two_mul (hq : 0 < q) (hlength : a.length = N) (ha : ∀ x ∈ a, x < q) :
    rotated q N (2 * N) a = a := by
  apply ext_residues (by rw [rotated_length, hlength]) (fun x => rotated_lt hq) ha
  intro i hi
  rw [rotated_length] at hi
  rw [rotated_cast hq hi, Negacyclic.rotate_two_mul hi]

/-- The polynomial with some coefficients, modulo `X ^ N + 1`. -/
noncomputable def toNegacyclic (q N : ℕ) (a : Poly) : Negacyclic.NegacyclicRing (ZMod q) N :=
  Negacyclic.toRing N fun i => (a.getD i 0 : ZMod q)

/-- **The rotation is multiplication by `X ^ -o`.** -/
theorem X_pow_mul_rotated (hq : 0 < q) (o : ℕ) (a : Poly) :
    Negacyclic.X (ZMod q) N ^ o * toNegacyclic q N (rotated q N o a) = toNegacyclic q N a := by
  have hsame : toNegacyclic q N (rotated q N o a) =
      Negacyclic.toRing N (Negacyclic.rotate N (fun i => (a.getD i 0 : ZMod q)) o) :=
    Negacyclic.eval_congr fun i hi => congrArg _ (rotated_cast hq hi)
  rw [hsame, Negacyclic.X_pow_mul_toRing_rotate]
  rfl

/-! ### The slots -/

theorem sub64_of_le {x y : ℕ} (h : y ≤ x) (hx : x < 2 ^ 64) : sub64 x y = x - y := by
  rw [sub64, show x + (2 ^ 64 - y) = x - y + 2 ^ 64 by omega, Nat.add_mod_right]
  exact Nat.mod_eq_of_lt (by omega)

/-- A coefficient by the place in two rounds. -/
theorem rotatedCoefficient_eq {i t : ℕ} (hN : 0 < N) (ht : t = (i + o) % (2 * N)) :
    rotatedCoefficient q N o a i = ((-1) ^ (t / N) * (a.getD (t % N) 0 : ℤ) % q).toNat := by
  have hround : i + o = t + N * (2 * ((i + o) / (2 * N))) := by
    have h := Nat.mod_add_div (i + o) (2 * N)
    rw [← ht] at h
    rw [← mul_assoc, mul_comm N 2]
    exact h.symm
  rw [rotatedCoefficient, hround, Nat.add_mul_div_left _ _ hN, Nat.add_mul_mod_self_left, pow_add, pow_mul]
  norm_num

/-- **A slot that the index finds in its two rounds.** -/
theorem rot_slot_eq (hq : 0 < q) (hq64 : q < 2 ^ 64) (hlength : a.length = N) (ha : ∀ x ∈ a, x < q) {i : ℕ}
    (hwrap : (i + o) % 2 ^ 64 = (i + o) % (2 * N)) (hN : 0 < N) :
    rot_slot N q o a i = some (rotatedCoefficient q N o a i) := by
  have hlt : (i + o) % (2 * N) < 2 * N := Nat.mod_lt _ (by omega)
  rw [rotatedCoefficient_eq hN rfl, rot_slot]
  rw [hwrap]
  generalize (i + o) % (2 * N) = t at hlt
  by_cases hfirst : t < N
  · have hget : a[t]? = some (a.getD t 0) := by
      rw [List.getD_eq_getElem _ _ (hlength ▸ hfirst), List.getElem?_eq_getElem]
    have hreduced : a.getD t 0 < q := by
      rw [List.getD_eq_getElem _ _ (hlength ▸ hfirst)]
      exact ha _ (List.getElem_mem _)
    rw [if_pos hfirst, hget, Nat.div_eq_of_lt hfirst, Nat.mod_eq_of_lt hfirst, pow_zero, one_mul]
    have hmod : ((a.getD t 0 : ℤ) % q).toNat = a.getD t 0 % q := by
      rw [← Int.natCast_mod, Int.toNat_natCast]
    rw [hmod, Nat.mod_eq_of_lt hreduced]
  · -- the end was passed once
    have hsecond : t - N < a.length := by omega
    have hdiv : t / N = 1 :=
      Nat.div_eq_of_lt_le (by omega : 1 * N ≤ t) (by omega : t < (1 + 1) * N)
    have hmod : t % N = t - N := by
      rw [Nat.mod_eq_sub_mod (by omega), Nat.mod_eq_of_lt (by omega)]
    have hget : a[t - N]? = some (a.getD (t - N) 0) := by
      rw [List.getD_eq_getElem _ _ hsecond, List.getElem?_eq_getElem]
    have hreduced : a.getD (t - N) 0 < q := by
      rw [List.getD_eq_getElem _ _ hsecond]
      exact ha _ (List.getElem_mem _)
    rw [if_neg hfirst, if_neg hq.ne', hget, Option.map_some, hdiv, hmod, pow_one]
    generalize a.getD (t - N) 0 = x at hreduced
    have hneg : (-1 * (x : ℤ)) % q = ((q - x : ℕ) : ℤ) % q := by
      rw [Nat.cast_sub hreduced.le, ← Int.add_emod_right (-1 * (x : ℤ)) q]
      congr 1
      omega
    rw [sub64_of_le hreduced.le hq64, hneg, ← Int.natCast_mod, Int.toNat_natCast]

/-- A slot past the second round is out of bounds. -/
theorem rot_slot_none {i : ℕ} (hlength : a.length = N) (hpast : 2 * N ≤ (i + o) % 2 ^ 64) :
    rot_slot N q o a i = none := by
  rw [rot_slot, if_neg (by omega)]
  by_cases hq : q = 0
  · rw [if_pos hq]
  · rw [if_neg hq, List.getElem?_eq_none (by omega), Option.map_none]

/-- The loop over the slots. -/
theorem rot_slots_iff {n : ℕ} (hn : n < 64) {offset : ℕ} (hoffset : offset < 2 ^ 64) (hq : 0 < q)
    (hq64 : q < 2 ^ 64) (hlength : a.length = 2 ^ n) (ha : ∀ x ∈ a, x < q) :
    (List.range (2 ^ n)).mapM (rot_slot (2 ^ n) q offset a) = some (rotated q (2 ^ n) offset a) ↔
      offset ≤ 2 ^ n ∨ n = 63 := by
  have hpos := Nat.two_pow_pos n
  constructor
  · intro h
    by_contra hbad
    rw [not_or, not_le] at hbad
    have hdim : 4 * 2 ^ n ≤ 2 ^ 64 := by
      rw [show (4 : ℕ) = 2 ^ 2 by norm_num, ← pow_add]
      exact Nat.pow_le_pow_right (by omega) (by omega)
    -- the first slot is past the second round, or the last one is
    obtain ⟨i, hi, hpast⟩ : ∃ i < 2 ^ n, 2 * 2 ^ n ≤ (i + offset) % 2 ^ 64 := by
      by_cases hlarge : 2 * 2 ^ n ≤ offset
      · refine ⟨0, hpos, ?_⟩
        rw [Nat.zero_add, Nat.mod_eq_of_lt hoffset]
        exact hlarge
      · refine ⟨2 ^ n - 1, by omega, ?_⟩
        rw [Nat.mod_eq_of_lt (by omega)]
        omega
    rw [Lib.mapM_of_none (List.mem_range.mpr hi) (rot_slot_none hlength hpast)] at h
    exact absurd h (by simp)
  · intro h
    refine Lib.mapM_of_some fun i hi => ?_
    rw [List.mem_range] at hi
    apply rot_slot_eq hq hq64 hlength ha ?_ hpos
    rcases h with hsmall | rfl
    · have htwo : 2 * 2 ^ n ≤ 2 ^ 64 := by
        rw [← pow_succ']
        exact Nat.pow_le_pow_right (by omega) (by omega)
      by_cases hlt : i + offset < 2 * 2 ^ n
      · rw [Nat.mod_eq_of_lt (by omega), Nat.mod_eq_of_lt hlt]
      · omega
    · norm_num

end Rotation

/-! ### The instruction -/

/-- **The rotation of the operand**: every read is inside it, and the slots are those of
the product with `X ^ -offset`. -/
def Impl.Rotates (M : NativeMath) (s : Impl) (inst : Instruction) (q offset : ℕ) : Prop :=
  ∃ s', exec_instruction M s inst = some (s', true) ∧ s'.get_or_zero inst.dest.toNat =
    rotated q s.ring_dim offset (s.get_or_zero inst.src1.toNat)

/-- What holds of the rotations of an operand among themselves. -/
structure RotationLaws (q N : ℕ) (a : Poly) : Prop where
  product : ∀ o, Negacyclic.X (ZMod q) N ^ o * toNegacyclic q N (rotated q N o a) = toNegacyclic q N a
  adds : ∀ o o', rotated q N o' (rotated q N o a) = rotated q N (o + o') a
  period : rotated q N (2 * N) a = a

/-- **The rotation is right exactly** up to an offset of the ring dimension, whose last
slot is the first read past the end; in a ring of `2 ^ 63` the index itself goes around. -/
theorem rotation_iff (M : NativeMath) {s : Impl} {inst : Instruction} {q offset : UInt64} {n : ℕ}
    (hn : n < 64) (hdim : s.ring_dim = 2 ^ n) (hop : inst.opcode = .FH_SR_ROT_AUTOMORPH_COEFF)
    (hinst : inst.offset = some offset) (hsel : inst.selects s.trace.modulus_table = some q)
    (hlength : (s.get_or_zero inst.src1.toNat).length = 2 ^ n)
    (ha : ∀ x ∈ s.get_or_zero inst.src1.toNat, x < q.toNat) :
    (s.Rotates M inst q.toNat offset.toNat ↔ offset.toNat ≤ 2 ^ n ∨ n = 63) ∧
      RotationLaws q.toNat (2 ^ n) (s.get_or_zero inst.src1.toNat) := by
  have hq : 0 < q.toNat := by
    have hfirst := List.getElem_mem (l := s.get_or_zero inst.src1.toNat) (hlength ▸ Nat.two_pow_pos n)
    exact Nat.zero_lt_of_lt (ha _ hfirst)
  refine ⟨?_, ⟨fun o => X_pow_mul_rotated hq o _, fun o o' => rotated_rotated hq o o' _,
    rotated_two_mul hq hlength ha⟩⟩
  have hexec : exec_instruction M s inst = ((List.range (2 ^ n)).mapM
      (rot_slot (2 ^ n) q.toNat offset.toNat (s.get_or_zero inst.src1.toNat))).map fun result =>
        (s.write inst.dest.toNat result q.toNat, true) := by
    have hdispatch : exec_instruction M s inst = exec_rot_automorph_coeff s inst := by
      unfold exec_instruction
      rw [hop]
    rw [hdispatch, exec_rot_automorph_coeff, exec_src1_eq, Impl.resolve_of_selects hsel,
      if_neg (not_not.mpr (hlength.trans hdim.symm)), hinst]
    dsimp only
    rw [hdim, Option.map_map]
    rfl
  rw [← rot_slots_iff hn offset.toNat_lt hq q.toNat_lt hlength ha]
  constructor
  · rintro ⟨s', h, hresult⟩
    rw [hexec] at h
    obtain ⟨result, hslots, heq⟩ := Option.map_eq_some_iff.mp h
    obtain rfl := (Prod.mk.inj heq).1
    rw [Impl.write_get_or_zero, if_pos rfl, hdim] at hresult
    rw [hslots, hresult]
  · intro h
    rw [h] at hexec
    refine ⟨_, hexec, ?_⟩
    rw [Impl.write_get_or_zero, if_pos rfl, hdim]

/-- Two coefficients at `%1`. -/
def twoSlots : Impl where
  ring_dim := 2
  trace := { modulus_table := [17] }
  memory := Memory.empty.commit_dest 1 [3, 5] 17

/-- `sr_rot_automorph_coeff %1, %1`, in place. -/
def rotation (offset : UInt64) : Instruction where
  opcode := .FH_SR_ROT_AUTOMORPH_COEFF
  dest := 1
  src1 := 1
  modulus := some 0
  offset := some offset

theorem rotation_iff_half :
    (twoSlots.Rotates referenceMath (rotation 2) 17 2 ↔ 2 ≤ 2 ^ 1 ∨ 1 = 63) ∧ RotationLaws 17 (2 ^ 1) [3, 5] :=
  @rotation_iff referenceMath twoSlots (rotation 2) 17 2 1 (by decide) rfl rfl rfl rfl rfl (by decide)

/-- A rotation by the whole period reads past the operand. -/
theorem full_rotation_out_of_bounds : ¬ twoSlots.Rotates referenceMath (rotation 4) 17 4 := by
  rintro ⟨s', hexec, -⟩
  have hnone : exec_instruction referenceMath twoSlots (rotation 4) = none := by decide
  rw [hnone] at hexec
  exact absurd hexec (by simp)

end Fhetch
