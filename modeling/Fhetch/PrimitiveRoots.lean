/-
The check of a root (`is_primitive_2n_root` of `include/niobium/checks.h`) on 64-bit words.

The loop squares in 128 bits and doubles a 64-bit counter. Neither overflows, for a power
of two up to `2 ^ 63` is reached by doubling before the counter can wrap. An element whose
`N`-th power is -1 has the order `2 N`, and in a field there are no others of that order.
-/
import Fhetch.RootedTransforms
import Mathlib.GroupTheory.OrderOfElement

set_option autoImplicit false

namespace Fhetch

/-! ## Words -/

/-- The loop with its arithmetic checked: `none` when the doubled counter leaves 64 bits,
when a product leaves 128, or when the turns run out. -/
def checked_primitive_power (ring_dim q : ℕ) : ℕ → ℕ → ℕ → Option ℕ
  | 0, _, _ => none
  | fuel + 1, n, power =>
    if n < ring_dim then
      if 2 ^ 64 ≤ 2 * n ∨ 2 ^ 128 ≤ power * power then none
      else checked_primitive_power ring_dim q fuel (2 * n) (power * power % q)
    else some power

/-- The check with the checked loop, which is given 64 turns. -/
def checked_is_primitive_2n_root (root ring_dim q : UInt64) : Option Bool :=
  if q ≤ 2 || q ≤ root || ring_dim = 0 || ring_dim &&& (ring_dim - 1) ≠ 0 then some false
  else (checked_primitive_power ring_dim.toNat q.toNat 64 1 root.toNat).map (· = q.toNat - 1)

/-- Up to a power of two below `2 ^ 64`, nothing overflows and the turns suffice. -/
theorem checked_primitive_power_eq {q k : ℕ} (hk : k < 64) (hq : q < 2 ^ 64) :
    ∀ {fuel j power : ℕ}, j ≤ k → k - j < fuel → power < q →
      checked_primitive_power (2 ^ k) q fuel (2 ^ j) power =
        some (primitive_power (2 ^ k) q fuel (2 ^ j) power) := by
  intro fuel
  induction fuel with
  | zero => exact fun _ hfuel _ => absurd hfuel (Nat.not_lt_zero _)
  | succ fuel ih =>
    intro j power hj hfuel hpower
    rw [checked_primitive_power, primitive_power]
    by_cases hlast : j = k
    · rw [hlast, if_neg (lt_irrefl _), if_neg (lt_irrefl _)]
    · have hjk : j < k := by omega
      have hlt : 2 ^ j < 2 ^ k := Nat.pow_lt_pow_right (by decide) hjk
      have hcounter : 2 ^ (j + 1) < 2 ^ 64 := Nat.pow_lt_pow_right (by decide) (by omega)
      -- the square of a word fits into two words
      have hproduct : power * power < 2 ^ 128 := by
        calc power * power < 2 ^ 64 * 2 ^ 64 := Nat.mul_lt_mul'' (hpower.trans hq) (hpower.trans hq)
          _ = 2 ^ 128 := rfl
      rw [if_pos hlt, if_pos hlt, ← pow_succ', if_neg (by omega)]
      exact ih hjk (by omega) (Nat.mod_lt _ (by omega))

/-- **The check ends, without an overflow.** -/
theorem checked_is_primitive_2n_root_eq (root ring_dim q : UInt64) :
    checked_is_primitive_2n_root root ring_dim q =
      some (is_primitive_2n_root root.toNat ring_dim.toNat q.toNat) := by
  have hand : ring_dim = 0 ∨ (ring_dim &&& (ring_dim - 1) ≠ 0 ↔
      ring_dim.toNat &&& (ring_dim.toNat - 1) ≠ 0) := by
    by_cases hzero : ring_dim = 0
    · exact .inl hzero
    · right
      have hpos : 1 ≤ ring_dim.toNat :=
        Nat.pos_of_ne_zero fun h => hzero (UInt64.toNat_inj.mp h)
      have hsub : (ring_dim - 1).toNat = ring_dim.toNat - 1 :=
        UInt64.toNat_sub_of_le _ _ (UInt64.le_iff_toNat_le.mpr hpos)
      rw [Ne, ← UInt64.toNat_inj, UInt64.toNat_and, hsub]
      rfl
  have hguard : (q ≤ 2 || q ≤ root || ring_dim = 0 || ring_dim &&& (ring_dim - 1) ≠ 0) = true ↔
      q.toNat ≤ 2 ∨ q.toNat ≤ root.toNat ∨ ring_dim.toNat = 0 ∨
        ring_dim.toNat &&& (ring_dim.toNat - 1) ≠ 0 := by
    have hzero : ring_dim = 0 ↔ ring_dim.toNat = 0 := by
      rw [← UInt64.toNat_inj]
      rfl
    simp only [Bool.or_eq_true, decide_eq_true_eq, UInt64.le_iff_toNat_le, or_assoc]
    rcases hand with h | h
    · simp [h]
    · rw [h, hzero]
      rfl
  unfold checked_is_primitive_2n_root is_primitive_2n_root
  by_cases hbad : q.toNat ≤ 2 ∨ q.toNat ≤ root.toNat ∨ ring_dim.toNat = 0 ∨
      ring_dim.toNat &&& (ring_dim.toNat - 1) ≠ 0
  · rw [if_pos (hguard.mpr hbad), if_pos hbad]
  · rw [if_neg (mt hguard.mp hbad), if_neg hbad]
    -- past the guard the dimension is a power of two, and the counter runs through its divisors
    obtain ⟨k, hk⟩ : ring_dim.toNat.isPowerOfTwo :=
      Nat.ne_zero_and_sub_one_eq_zero_iff_isPowerOfTwo.mp ⟨by tauto, by tauto⟩
    have hlt : k < 64 := (Nat.pow_lt_pow_iff_right (by decide : 1 < 2)).mp (hk ▸ ring_dim.toNat_lt)
    have hloop : checked_primitive_power (2 ^ k) q.toNat 64 (2 ^ 0) root.toNat =
        some (primitive_power (2 ^ k) q.toNat 64 (2 ^ 0) root.toNat) :=
      checked_primitive_power_eq hlt q.toNat_lt (Nat.zero_le k) (by omega) (by omega)
    rw [pow_zero] at hloop
    rw [hk, hloop]
    rfl

/-! ## Orders -/

section Orders

variable {root ring_dim q : ℕ}

/-- **A root has the order `2 N`.** -/
theorem Negacyclic2NRoot.order (h : Negacyclic2NRoot root ring_dim q) (hq : 2 < q) :
    orderOf (root : ZMod q) = 2 * ring_dim := by
  obtain ⟨k, rfl⟩ := h.pow_two
  have : Fact (2 < q) := ⟨hq⟩
  have hne : (-1 : ZMod q) ≠ 1 := ZMod.neg_one_ne_one
  have hpower := h.power
  rw [← pow_succ']
  apply orderOf_eq_prime_pow
  · rw [hpower]
    exact hne
  · rw [pow_succ, pow_mul, hpower, neg_one_sq]

/-- **Modulo a prime, an element of the order `2 N` is a root.** -/
theorem negacyclic2NRoot_of_order (hq : q.Prime) (hpos : 1 ≤ root) (hlt : root < q)
    (hpow : ∃ k, ring_dim = 2 ^ k) (horder : orderOf (root : ZMod q) = 2 * ring_dim) :
    2 < q ∧ Negacyclic2NRoot root ring_dim q := by
  have : Fact q.Prime := ⟨hq⟩
  have hdim : 0 < ring_dim := by
    obtain ⟨k, rfl⟩ := hpow
    exact Nat.two_pow_pos k
  have hsquare : ((root : ZMod q) ^ ring_dim) ^ 2 = 1 := by
    rw [← pow_mul, Nat.mul_comm, ← horder]
    exact pow_orderOf_eq_one _
  have hne : (root : ZMod q) ^ ring_dim ≠ 1 :=
    pow_ne_one_of_lt_orderOf hdim.ne' (by omega)
  have hpower : (root : ZMod q) ^ ring_dim = -1 := (sq_eq_one_iff.mp hsquare).resolve_left hne
  refine ⟨?_, hpos, hlt, hpow, hpower⟩
  -- modulo 2 the only unit is 1
  by_contra hsmall
  obtain rfl : q = 2 := le_antisymm (not_lt.mp hsmall) hq.two_le
  obtain rfl : root = 1 := by omega
  rw [Nat.cast_one, one_pow] at hne
  exact hne rfl

end Orders

/-- **What `is_primitive_2n_root` decides.** -/
theorem is_primitive_2n_root_exact (root ring_dim q : UInt64) :
    checked_is_primitive_2n_root root ring_dim q =
        some (is_primitive_2n_root root.toNat ring_dim.toNat q.toNat) ∧
      (is_primitive_2n_root root.toNat ring_dim.toNat q.toNat = true ↔
        (∃ k, ring_dim.toNat = 2 ^ k) ∧ 2 < q.toNat ∧ 1 ≤ root.toNat ∧ root.toNat < q.toNat ∧
          (root.toNat : ZMod q.toNat) ^ ring_dim.toNat = -1) ∧
      (is_primitive_2n_root root.toNat ring_dim.toNat q.toNat = true →
        orderOf (root.toNat : ZMod q.toNat) = 2 * ring_dim.toNat) ∧
      (q.toNat.Prime → 1 ≤ root.toNat → root.toNat < q.toNat → (∃ k, ring_dim.toNat = 2 ^ k) →
        orderOf (root.toNat : ZMod q.toNat) = 2 * ring_dim.toNat →
        is_primitive_2n_root root.toNat ring_dim.toNat q.toNat = true) := by
  have hiff := is_primitive_2n_root_iff root.toNat ring_dim.toNat q.toNat ring_dim.toNat_lt
  refine ⟨checked_is_primitive_2n_root_eq root ring_dim q, ?_, fun h => ?_, ?_⟩
  · rw [hiff]
    constructor
    · rintro ⟨hq, hroot⟩
      exact ⟨hroot.pow_two, hq, hroot.pos, hroot.lt, hroot.power⟩
    · rintro ⟨hpow, hq, hpos, hlt, hpower⟩
      exact ⟨hq, hpos, hlt, hpow, hpower⟩
  · obtain ⟨hq, hroot⟩ := hiff.mp h
    exact hroot.order hq
  · intro hprime hpos hlt hpow horder
    exact hiff.mpr (negacyclic2NRoot_of_order hprime hpos hlt hpow horder)

/-- 2 is of the order 8 modulo 17. -/
theorem is_primitive_2n_root_exact_seventeen :
    orderOf ((2 : UInt64).toNat : ZMod (17 : UInt64).toNat) = 8 :=
  (is_primitive_2n_root_exact 2 4 17).2.2.1 (by decide)

end Fhetch
