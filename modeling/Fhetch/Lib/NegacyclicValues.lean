/-
Values of negacyclic polynomials, over any commutative ring.

At a root of `X ^ N + 1` taking the value is a ring homomorphism, and with a root all its
odd powers are roots. Where `N` is a power of two the values there determine the
polynomial up to a factor `N`: summed over the odd powers, a power of the root below the
`N`-th vanishes, and so each coefficient can be had back from the values.
-/
import Fhetch.Lib.Negacyclic
import Mathlib.Algebra.Ring.GeomSum

set_option autoImplicit false

namespace Negacyclic

/-- A root in the sense of `AdjoinRoot.lift`. -/
theorem eval₂_root {R S : Type*} [CommRing R] [CommRing S] {N : ℕ} (f : R →+* S) {x : S} (hx : x ^ N = -1) :
    (Polynomial.X ^ N + 1 : Polynomial R).eval₂ f x = 0 := by
  rw [Polynomial.eval₂_add, Polynomial.eval₂_X_pow, Polynomial.eval₂_one, hx, neg_add_cancel]

variable {R : Type*} [CommRing R] {N n : ℕ} {a : ℕ → R} {x y : R}

/-! ## Homomorphisms -/

/-- The value at a root. -/
noncomputable def valueAt (x : R) (hx : x ^ N = -1) : NegacyclicRing R N →+* R :=
  AdjoinRoot.lift (RingHom.id R) x (eval₂_root _ hx)

theorem valueAt_of (hx : x ^ N = -1) (c : R) : valueAt x hx (AdjoinRoot.of _ c) = c := AdjoinRoot.lift_of _

theorem valueAt_X (hx : x ^ N = -1) : valueAt x hx (X R N) = x := AdjoinRoot.lift_root _

theorem valueAt_toRing (hx : x ^ N = -1) : valueAt x hx (toRing N a) = eval N a x := by
  rw [toRing, eval, eval, map_sum]
  exact Finset.sum_congr rfl fun i _ => by rw [map_mul, map_pow, valueAt_of, valueAt_X]

theorem valueAt_congr (h : x = y) (hx : x ^ N = -1) (hy : y ^ N = -1) (r : NegacyclicRing R N) :
    valueAt x hx r = valueAt y hy r := by
  subst h
  rfl

/-- Odd powers of a root are roots. -/
theorem odd_pow {k : ℕ} (hk : Odd k) (hx : x ^ N = -1) : (x ^ k) ^ N = -1 := by
  rw [← pow_mul, mul_comm, pow_mul, hx, hk.neg_one_pow]

theorem odd_succ (j : ℕ) : Odd (2 * j + 1) := ⟨j, rfl⟩

/-- A number is a constant. -/
theorem natCast_eq_of (c : ℕ) : (c : NegacyclicRing R N) = AdjoinRoot.of _ (c : R) := (map_natCast _ c).symm

/-- The automorphism `X ↦ X ^ k`. -/
noncomputable def galois {k : ℕ} (hk : Odd k) : NegacyclicRing R N →+* NegacyclicRing R N :=
  AdjoinRoot.lift (AdjoinRoot.of _) (X R N ^ k) (eval₂_root _ (odd_pow hk X_pow))

/-- It takes the value at the power of the root. -/
theorem valueAt_galois {k : ℕ} (hk : Odd k) (hx : x ^ N = -1) (r : NegacyclicRing R N) :
    valueAt x hx (galois hk r) = valueAt (x ^ k) (odd_pow hk hx) r := by
  have hsame : (valueAt x hx).comp (galois hk) = valueAt (x ^ k) (odd_pow hk hx) := by
    apply AdjoinRoot.ringHom_ext
    · ext c
      show valueAt x hx (galois hk (AdjoinRoot.of _ c)) = valueAt (x ^ k) (odd_pow hk hx) (AdjoinRoot.of _ c)
      rw [galois, AdjoinRoot.lift_of, valueAt_of, valueAt_of]
    · show valueAt x hx (galois hk (AdjoinRoot.root _)) = valueAt (x ^ k) (odd_pow hk hx) (X R N)
      rw [galois, AdjoinRoot.lift_root, map_pow, valueAt_X, valueAt_X]
  exact congrArg (fun f => f r) hsame

/-- Division by a power of `X`. -/
theorem eq_of_X_pow_mul (hN : 0 < N) {o : ℕ} {r r' : NegacyclicRing R N} (h : X R N ^ o * r' = r) :
    r' = X R N ^ ((2 * N - 1) * o) * r := by
  have hone : X R N ^ ((2 * N - 1) * o) * X R N ^ o = 1 := by
    rw [← pow_add, ← Nat.succ_mul, show (2 * N - 1).succ = 2 * N by omega, pow_mul, pow_two_mul X_pow,
      one_pow]
  rw [← h, ← mul_assoc, hone, one_mul]

/-! ## Coefficients -/

/-- What is linear in the coefficients is linear in the ring. -/
theorem toRing_linear {b c : ℕ → R} {x y : R} (h : ∀ i < N, c i = x * a i + y * b i) :
    toRing N c = AdjoinRoot.of _ x * toRing N a + AdjoinRoot.of _ y * toRing N b := by
  rw [toRing, toRing, toRing, eval, eval, eval, Finset.mul_sum, Finset.mul_sum, ← Finset.sum_add_distrib]
  refine Finset.sum_congr rfl fun i hi => ?_
  rw [h i (Finset.mem_range.mp hi), map_add, map_mul, map_mul]
  ring

theorem toRing_zero (h : ∀ i < N, a i = 0) : toRing N a = 0 := by
  rw [toRing, eval]
  exact Finset.sum_eq_zero fun i hi => by rw [h i (Finset.mem_range.mp hi), map_zero, zero_mul]

open scoped Polynomial in
/-- Every element is that of some coefficients. -/
theorem exists_toRing (hN : 0 < N) (r : NegacyclicRing R N) : ∃ a : ℕ → R, toRing N a = r := by
  rcases subsingleton_or_nontrivial R with hR | hR
  · have hone : (1 : NegacyclicRing R N) = 0 := by
      rw [← map_one (AdjoinRoot.of (Polynomial.X ^ N + 1 : Polynomial R)), Subsingleton.elim (1 : R) 0, map_zero]
    exact ⟨0, by rw [← mul_one (toRing N 0), ← mul_one r, hone, mul_zero, mul_zero]⟩
  obtain ⟨p, rfl⟩ := AdjoinRoot.mk_surjective r
  have hmonic : (Polynomial.X ^ N + 1 : Polynomial R).Monic := Polynomial.monic_X_pow_add_C 1 hN.ne'
  have hdegree : (p %ₘ (Polynomial.X ^ N + 1)).natDegree < N := by
    have hnat : (Polynomial.X ^ N + 1 : Polynomial R).natDegree = N := Polynomial.natDegree_X_pow_add_C (r := 1)
    have hne : (Polynomial.X ^ N + 1 : Polynomial R) ≠ 1 := by
      intro heq
      rw [heq, Polynomial.natDegree_one] at hnat
      exact hN.ne hnat
    have hlt := Polynomial.natDegree_modByMonic_lt p hmonic hne
    rwa [hnat] at hlt
  -- a remainder is the sum of its terms
  refine ⟨(p %ₘ (Polynomial.X ^ N + 1)).coeff, ?_⟩
  have hmod : AdjoinRoot.mk (Polynomial.X ^ N + 1) p = AdjoinRoot.mk (Polynomial.X ^ N + 1) (p %ₘ (Polynomial.X ^ N + 1)) := by
    conv_lhs => rw [← Polynomial.modByMonic_add_div p (Polynomial.X ^ N + 1), map_add, map_mul, AdjoinRoot.mk_self, zero_mul, add_zero]
  rw [hmod]
  conv_rhs => rw [Polynomial.as_sum_range' _ N hdegree, map_sum]
  rw [toRing, eval]
  refine Finset.sum_congr rfl fun i _ => ?_
  rw [← Polynomial.C_mul_X_pow_eq_monomial, map_mul, map_pow]
  rfl

/-! ## Sums over the odd powers -/

/-- Twice as many powers have a factor more. -/
theorem sum_pow_double (z : R) (m : ℕ) : ∑ j ∈ Finset.range (2 * m), z ^ j =
    (1 + z ^ m) * ∑ j ∈ Finset.range m, z ^ j := by
  rw [two_mul, Finset.sum_range_add, add_mul, one_mul, Finset.mul_sum]
  exact congrArg _ (Finset.sum_congr rfl fun j _ => pow_add z m j)

theorem sum_pow_eq_zero {z : R} {t : ℕ} (hz : z ^ 2 ^ t = -1) (h : t < n) :
    ∑ j ∈ Finset.range (2 ^ n), z ^ j = 0 := by
  induction n with
  | zero => exact absurd h (Nat.not_lt_zero t)
  | succ n ih =>
    rw [pow_succ', sum_pow_double]
    rcases Nat.lt_succ_iff_lt_or_eq.mp h with hlt | rfl
    · rw [ih hlt, mul_zero]
    · rw [hz, add_neg_cancel, zero_mul]

/-- **A power of a root**, summed over the odd powers. -/
theorem sum_odd_pow (hx : x ^ 2 ^ n = -1) {d : ℕ} (hpos : 0 < d) (hlt : d < 2 ^ n) :
    ∑ j ∈ Finset.range (2 ^ n), (x ^ d) ^ (2 * j + 1) = 0 := by
  obtain ⟨e, m, hm, rfl⟩ := Nat.exists_eq_two_pow_mul_odd hpos.ne'
  have he : e < n := (Nat.pow_lt_pow_iff_right (by decide)).mp
    (lt_of_le_of_lt (Nat.le_mul_of_pos_right _ hm.pos) hlt)
  have hz : ((x ^ (2 ^ e * m)) ^ 2) ^ 2 ^ (n - 1 - e) = -1 := by
    have hexponent : 2 ^ e * m * 2 * 2 ^ (n - 1 - e) = 2 ^ n * m := by
      have hsplit : n = e + 1 + (n - 1 - e) := by omega
      conv_rhs => rw [hsplit, pow_add, pow_succ]
      ring
    rw [← pow_mul, ← pow_mul, ← Nat.mul_assoc, hexponent, pow_mul, hx, hm.neg_one_pow]
  have hsum : ∑ j ∈ Finset.range (2 ^ n), (x ^ (2 ^ e * m)) ^ (2 * j + 1) =
      x ^ (2 ^ e * m) * ∑ j ∈ Finset.range (2 ^ n), ((x ^ (2 ^ e * m)) ^ 2) ^ j := by
    rw [Finset.mul_sum]
    exact Finset.sum_congr rfl fun j _ => by rw [pow_succ', pow_mul (x ^ (2 ^ e * m)) 2 j]
  rw [hsum, sum_pow_eq_zero hz (by omega), mul_zero]

/-- **Coefficients from values**, up to the factor. -/
theorem sum_eval_odd_pow (hx : x ^ 2 ^ n = -1) (hxy : x * y = 1) {i : ℕ} (hi : i < 2 ^ n) :
    ∑ j ∈ Finset.range (2 ^ n), eval (2 ^ n) a (x ^ (2 * j + 1)) * y ^ ((2 * j + 1) * i) =
      2 ^ n * a i := by
  have hy : y ^ 2 ^ n = -1 := by
    have hone : x ^ 2 ^ n * y ^ 2 ^ n = 1 := by rw [← mul_pow, hxy, one_pow]
    rw [hx, neg_one_mul] at hone
    rw [← hone, neg_neg]
  -- the sum over the odd powers, of each coefficient by itself
  have hcoefficient : ∀ k < 2 ^ n, ∑ j ∈ Finset.range (2 ^ n), (x ^ k * y ^ i) ^ (2 * j + 1) =
      if k = i then 2 ^ n else 0 := by
    intro k hk
    rcases lt_trichotomy k i with hki | rfl | hki
    · have hpower : x ^ k * y ^ i = y ^ (i - k) := by
        rw [show i = k + (i - k) by omega, pow_add, ← mul_assoc, ← mul_pow, hxy, one_pow, one_mul]
        congr 1
        omega
      rw [if_neg hki.ne, hpower, sum_odd_pow hy (by omega) (by omega)]
    · have hpower : x ^ k * y ^ k = 1 := by rw [← mul_pow, hxy, one_pow]
      rw [if_pos rfl, hpower]
      simp
    · have hpower : x ^ k * y ^ i = x ^ (k - i) := by
        rw [show k = (k - i) + i by omega, pow_add, mul_assoc, ← mul_pow, hxy, one_pow, mul_one]
        congr 1
        omega
      rw [if_neg hki.ne', hpower, sum_odd_pow hx (by omega) (by omega)]
  calc ∑ j ∈ Finset.range (2 ^ n), eval (2 ^ n) a (x ^ (2 * j + 1)) * y ^ ((2 * j + 1) * i)
      = ∑ j ∈ Finset.range (2 ^ n), ∑ k ∈ Finset.range (2 ^ n), a k * (x ^ k * y ^ i) ^ (2 * j + 1) := by
        refine Finset.sum_congr rfl fun j _ => ?_
        rw [eval, Finset.sum_mul]
        refine Finset.sum_congr rfl fun k _ => ?_
        rw [mul_pow, ← pow_mul, ← pow_mul, ← pow_mul, mul_assoc]
        congr 3 <;> ring
    _ = ∑ k ∈ Finset.range (2 ^ n), a k * ∑ j ∈ Finset.range (2 ^ n), (x ^ k * y ^ i) ^ (2 * j + 1) := by
        rw [Finset.sum_comm]
        exact Finset.sum_congr rfl fun k _ => (Finset.mul_sum _ _ _).symm
    _ = ∑ k ∈ Finset.range (2 ^ n), a k * if k = i then 2 ^ n else 0 :=
        Finset.sum_congr rfl fun k hk => by rw [hcoefficient k (Finset.mem_range.mp hk)]
    _ = 2 ^ n * a i := by
        rw [Finset.sum_eq_single_of_mem i (Finset.mem_range.mpr hi) fun k _ hki => by rw [if_neg hki, mul_zero],
          if_pos rfl, mul_comm]

end Negacyclic
