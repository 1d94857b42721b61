/-
Negacyclic vectors, over any commutative ring.

The coefficients of a polynomial modulo `X ^ N + 1` go on past `N` with the sign that
`X ^ N = -1` brings. Reading them from a later place is a division by a power of `X`,
whatever the place; and at a root of `X ^ N + 1` the exponents count modulo `2 N` only.
-/
import Mathlib.Algebra.BigOperators.Intervals
import Mathlib.Data.Nat.ModEq
import Mathlib.RingTheory.AdjoinRoot

set_option autoImplicit false

namespace Negacyclic

variable {R S : Type*} [CommRing R] [CommRing S] (N : ℕ) (a : ℕ → R)

/-! ## Going on past the end -/

/-- A coefficient at any place. -/
def extend (i : ℕ) : R := (-1) ^ (i / N) * a (i % N)

/-- The coefficients from a place on. -/
def rotate (o i : ℕ) : R := extend N a (i + o)

variable {N} {a}

theorem extend_of_lt {i : ℕ} (h : i < N) : extend N a i = a i := by
  rw [extend, Nat.div_eq_of_lt h, Nat.mod_eq_of_lt h, pow_zero, one_mul]

theorem extend_add_mul (hN : 0 < N) (i k : ℕ) : extend N a (i + N * k) = (-1) ^ k * extend N a i := by
  rw [extend, extend, Nat.add_mul_div_left i k hN, Nat.add_mul_mod_self_left, pow_add]
  ring

theorem extend_add_self (hN : 0 < N) (i : ℕ) : extend N a (i + N) = -extend N a i := by
  have h := extend_add_mul (a := a) hN i 1
  rw [mul_one, pow_one, neg_one_mul] at h
  exact h

/-- A rotated vector goes on as the vector does. -/
theorem extend_rotate (hN : 0 < N) (o i : ℕ) : extend N (rotate N a o) i = extend N a (i + o) := by
  have hi : i + o = i % N + o + N * (i / N) := by
    have := Nat.mod_add_div i N
    omega
  rw [hi, extend_add_mul hN, extend, rotate]

/-- **Rotations add up.** -/
theorem rotate_rotate (hN : 0 < N) (o o' : ℕ) : rotate N (rotate N a o) o' = rotate N a (o + o') := by
  funext i
  rw [rotate, extend_rotate hN, rotate, Nat.add_right_comm, Nat.add_assoc]

theorem rotate_two_mul {i : ℕ} (h : i < N) : rotate N a (2 * N) i = a i := by
  have hN : 0 < N := by omega
  rw [rotate, show i + 2 * N = i + N + N by omega, extend_add_self hN, extend_add_self hN, neg_neg,
    extend_of_lt h]

/-- Rotations go through a ring homomorphism. -/
theorem map_rotate (f : R →+* S) (o i : ℕ) : f (rotate N a o i) = rotate N (fun i => f (a i)) o i := by
  rw [rotate, rotate, extend, extend, map_mul, map_pow, map_neg, map_one]

/-! ## Values -/

variable (N a) in
/-- The value at a point. -/
def eval (x : R) : R := ∑ i ∈ Finset.range N, a i * x ^ i

variable {x : R}

theorem eval_congr {b : ℕ → R} (h : ∀ i < N, a i = b i) : eval N a x = eval N b x :=
  Finset.sum_congr rfl fun i hi => by rw [h i (Finset.mem_range.mp hi)]

/-- What is added to the constant term is added to every value. -/
theorem eval_add_constant (hN : 0 < N) (s : R) :
    eval N (fun i => if i = 0 then a 0 + s else a i) x = eval N a x + s := by
  obtain ⟨n, rfl⟩ : ∃ n, N = n + 1 := ⟨N - 1, by omega⟩
  rw [eval, eval, Finset.sum_range_succ', Finset.sum_range_succ' (fun i => a i * x ^ i)]
  rw [if_pos rfl, pow_zero, mul_one, mul_one, ← add_assoc]
  congr 2

/-- A rotation by one place, at a root. -/
theorem mul_eval_rotate_one (hx : x ^ N = -1) : x * eval N (rotate N a 1) x = eval N a x := by
  rcases Nat.eq_zero_or_pos N with rfl | hN
  · rw [eval, eval, Finset.sum_range_zero, Finset.sum_range_zero, mul_zero]
  have hextend : eval N a x = ∑ i ∈ Finset.range N, extend N a i * x ^ i :=
    Finset.sum_congr rfl fun i hi => by rw [extend_of_lt (Finset.mem_range.mp hi)]
  have hshift : x * eval N (rotate N a 1) x = ∑ i ∈ Finset.range N, extend N a (i + 1) * x ^ (i + 1) := by
    rw [eval, Finset.mul_sum]
    refine Finset.sum_congr rfl fun i _ => ?_
    rw [rotate, pow_succ]
    ring
  -- the two sums differ in their ends: the first coefficient, and the first again past the end
  have hends := (Finset.sum_range_succ (fun i => extend N a i * x ^ i) N).symm.trans
    (Finset.sum_range_succ' (fun i => extend N a i * x ^ i) N)
  have hlast : extend N a N = -extend N a 0 := by
    have h := extend_add_self (a := a) hN 0
    rwa [Nat.zero_add] at h
  rw [hlast, hx, pow_zero, mul_one, neg_mul_neg, mul_one] at hends
  rw [hshift, hextend]
  exact (add_right_cancel hends).symm

/-- **A rotation divides by a power.** -/
theorem pow_mul_eval_rotate (hx : x ^ N = -1) (o : ℕ) : x ^ o * eval N (rotate N a o) x = eval N a x := by
  rcases Nat.eq_zero_or_pos N with rfl | hN
  · rw [eval, eval, Finset.sum_range_zero, Finset.sum_range_zero, mul_zero]
  induction o with
  | zero =>
    rw [pow_zero, one_mul]
    exact eval_congr fun i hi => extend_of_lt hi
  | succ o ih => rw [← rotate_rotate hN, pow_succ, mul_assoc, mul_eval_rotate_one hx, ih]

/-! ### Powers of a root -/

theorem pow_two_mul (hx : x ^ N = -1) : x ^ (2 * N) = 1 := by
  rw [two_mul, pow_add, hx, neg_mul_neg, one_mul]

/-- Exponents count modulo `2 N`. -/
theorem pow_mod (hx : x ^ N = -1) (m : ℕ) : x ^ (m % (2 * N)) = x ^ m := by
  conv_rhs => rw [← Nat.mod_add_div m (2 * N), pow_add, pow_mul, pow_two_mul hx, one_pow, mul_one]

/-! ## The ring -/

open Polynomial in
variable (R N) in
/-- Polynomials modulo `X ^ N + 1`. -/
abbrev NegacyclicRing : Type _ := AdjoinRoot (X ^ N + 1 : R[X])

variable (R N) in
/-- The class of `X`. -/
noncomputable def X : NegacyclicRing R N := AdjoinRoot.root _

variable (N a) in
/-- The polynomial with some coefficients. -/
noncomputable def toRing : NegacyclicRing R N := eval N (fun i => AdjoinRoot.of _ (a i)) (X R N)

theorem X_pow : X R N ^ N = -1 := by
  have h := AdjoinRoot.eval₂_root (Polynomial.X ^ N + 1 : Polynomial R)
  rw [Polynomial.eval₂_add, Polynomial.eval₂_pow, Polynomial.eval₂_X, Polynomial.eval₂_one] at h
  exact eq_neg_of_add_eq_zero_left h

/-- **A rotation divides by a power of `X`.** -/
theorem X_pow_mul_toRing_rotate (o : ℕ) : X R N ^ o * toRing N (rotate N a o) = toRing N a := by
  unfold toRing
  simp only [map_rotate]
  exact pow_mul_eval_rotate X_pow o

end Negacyclic
