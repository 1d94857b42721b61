/-
Recombining residues, for any finite family of moduli.

The residues of a number modulo pairwise coprime moduli `q i`, weighted each with the
product of the other moduli, add up to an integer that is congruent to the number
modulo the product of all, whatever representatives the weights are. How far it is
from the number is bounded by the size of the weights: each contributes at most
one multiple of the product. Centred representatives halve that.
-/
import Mathlib.Algebra.BigOperators.Ring.Finset
import Mathlib.Algebra.Order.BigOperators.Ring.Finset
import Mathlib.Data.Int.GCD
import Mathlib.Data.Int.ModEq
import Mathlib.Data.Nat.GCD.BigOperators
import Mathlib.Tactic.Linarith
import Mathlib.Tactic.Push

set_option autoImplicit false

namespace Crt

variable {ι : Type*} (s : Finset ι) (q : ι → ℕ)

/-! ## Moduli -/

/-- The moduli are coprime to one another. -/
def Coprimes : Prop := ∀ i ∈ s, ∀ j ∈ s, i ≠ j → (q i).Coprime (q j)

variable {s q}

/-- A congruence modulo each of the moduli is one modulo their product. -/
theorem modEq_prod_iff (hq : Coprimes s q) {a b : ℤ} :
    a ≡ b [ZMOD (∏ i ∈ s, q i : ℕ)] ↔ ∀ i ∈ s, a ≡ b [ZMOD q i] := by
  constructor
  · intro h i hi
    exact h.of_dvd (Int.natCast_dvd_natCast.mpr (Finset.dvd_prod_of_mem q hi))
  · intro h
    induction s using Finset.cons_induction with
    | empty => exact Int.modEq_one
    | cons i s hi ih =>
      have hrest : Coprimes s q := fun j hj k hk =>
        hq j (Finset.mem_cons_of_mem hj) k (Finset.mem_cons_of_mem hk)
      -- the new modulus is coprime to the product of the others
      have hcoprime : (q i).Coprime (∏ j ∈ s, q j) := by
        apply Nat.Coprime.prod_right
        intro j hj
        apply hq i (Finset.mem_cons_self i s) j (Finset.mem_cons_of_mem hj)
        rintro rfl
        exact hi hj
      rw [Finset.prod_cons, Nat.cast_mul]
      apply (Int.modEq_and_modEq_iff_modEq_mul _).mp
      · exact ⟨h i (Finset.mem_cons_self i s), ih hrest fun j hj => h j (Finset.mem_cons_of_mem hj)⟩
      · rw [Int.natAbs_natCast, Int.natAbs_natCast]
        exact hcoprime

variable [DecidableEq ι]

variable (s q) in
/-- The product of the other moduli. -/
def cofactor (i : ι) : ℕ := ∏ j ∈ s.erase i, q j

theorem mul_cofactor {i : ι} (hi : i ∈ s) : q i * cofactor s q i = ∏ j ∈ s, q j :=
  Finset.mul_prod_erase s q hi

theorem dvd_cofactor {i j : ι} (hj : j ∈ s) (hne : j ≠ i) : q j ∣ cofactor s q i :=
  Finset.dvd_prod_of_mem q (Finset.mem_erase_of_ne_of_mem hne hj)

theorem cofactor_coprime (hq : Coprimes s q) {i : ι} (hi : i ∈ s) :
    (cofactor s q i).Coprime (q i) := by
  apply Nat.Coprime.prod_left
  intro j hj
  obtain ⟨hne, hj⟩ := Finset.mem_erase.mp hj
  exact hq j hj i hi hne

theorem cofactor_pos (hpos : ∀ i ∈ s, 0 < q i) (i : ι) : 0 < cofactor s q i :=
  Finset.prod_pos fun j hj => hpos j (Finset.mem_of_mem_erase hj)

/-! ## Recombination -/

variable (s q) in
/-- What weights add up to. -/
def combine (c : ι → ℤ) : ℤ := ∑ i ∈ s, c i * cofactor s q i

/-- Modulo one of the moduli only its own weight counts. -/
theorem combine_modEq (c : ι → ℤ) {i : ι} (hi : i ∈ s) :
    combine s q c ≡ c i * cofactor s q i [ZMOD q i] := by
  rw [combine, ← Finset.add_sum_erase s _ hi]
  have hothers : ∑ j ∈ s.erase i, c j * cofactor s q j ≡ 0 [ZMOD q i] := by
    apply Int.modEq_zero_iff_dvd.mpr
    apply Finset.dvd_sum
    intro j hj
    apply Dvd.dvd.mul_left
    exact Int.natCast_dvd_natCast.mpr (dvd_cofactor hi (Finset.ne_of_mem_erase hj).symm)
  simpa using hothers.add_left (c i * cofactor s q i)

/-- **Recombination.** Weights that give back each residue give back the number. -/
theorem combine_lifts (hq : Coprimes s q) {c x : ι → ℤ}
    (h : ∀ i ∈ s, c i * cofactor s q i ≡ x i [ZMOD q i]) {X : ℤ} (hX : ∀ i ∈ s, X ≡ x i [ZMOD q i]) :
    combine s q c ≡ X [ZMOD (∏ i ∈ s, q i : ℕ)] := by
  apply (modEq_prod_iff hq).mpr
  intro i hi
  exact ((combine_modEq c hi).trans (h i hi)).trans (hX i hi).symm

/-- The inverse of a number modulo another, reduced. -/
def inverse (a m : ℕ) : ℤ := a.gcdA m % m

theorem mul_inverse {a m : ℕ} (h : a.Coprime m) : a * inverse a m ≡ 1 [ZMOD m] := by
  have hbezout := Nat.gcd_eq_gcd_ab a m
  rw [h.gcd_eq_one, Nat.cast_one] at hbezout
  calc a * inverse a m ≡ a * a.gcdA m [ZMOD m] := (Int.mod_modEq _ _).mul_left _
    _ ≡ a * a.gcdA m + m * a.gcdB m [ZMOD m] :=
        Int.modEq_iff_dvd.mpr ⟨a.gcdB m, by ring⟩
    _ = 1 := hbezout.symm

/-- **Recombination with inverses.** Each of the numbers stands for the whole one
modulo its own modulus. -/
theorem sum_mul_inverse (hq : Coprimes s q) {D : ι → ℤ} {X : ℤ} (hD : ∀ i ∈ s, D i ≡ X [ZMOD q i]) :
    ∑ i ∈ s, D i * cofactor s q i * inverse (cofactor s q i) (q i) ≡ X
      [ZMOD (∏ i ∈ s, q i : ℕ)] := by
  have hcombine : ∑ i ∈ s, D i * cofactor s q i * inverse (cofactor s q i) (q i) =
      combine s q fun i => D i * inverse (cofactor s q i) (q i) :=
    Finset.sum_congr rfl fun i _ => by ring
  rw [hcombine]
  apply combine_lifts hq (x := D) _ fun i hi => (hD i hi).symm
  intro i hi
  calc D i * inverse (cofactor s q i) (q i) * cofactor s q i
      = D i * (cofactor s q i * inverse (cofactor s q i) (q i)) := by ring
    _ ≡ D i * 1 [ZMOD q i] := (mul_inverse (cofactor_coprime hq hi)).mul_left _
    _ = D i := mul_one _

/-- **The overshoot.** Weights below `1/b` of their moduli add up to less than `1/b`
of as many products as there are moduli. -/
theorem combine_bound (hs : s.Nonempty) (hpos : ∀ i ∈ s, 0 < q i) {b : ℕ} {c : ι → ℤ}
    (h : ∀ i ∈ s, b * |c i| < q i) :
    b * |combine s q c| < s.card * (∏ i ∈ s, q i : ℕ) := by
  have hterm : ∀ i ∈ s, b * |c i * cofactor s q i| < ((∏ j ∈ s, q j : ℕ) : ℤ) := by
    intro i hi
    have hcofactor : (0 : ℤ) < cofactor s q i := Int.natCast_pos.mpr (cofactor_pos hpos i)
    rw [abs_mul, abs_of_pos hcofactor, ← mul_assoc, ← mul_cofactor hi, Nat.cast_mul]
    exact mul_lt_mul_of_pos_right (h i hi) hcofactor
  calc b * |combine s q c|
      ≤ b * ∑ i ∈ s, |c i * cofactor s q i| :=
        mul_le_mul_of_nonneg_left (Finset.abs_sum_le_sum_abs _ _) (Int.natCast_nonneg b)
    _ = ∑ i ∈ s, b * |c i * cofactor s q i| := Finset.mul_sum ..
    _ < ∑ _i ∈ s, ((∏ j ∈ s, q j : ℕ) : ℤ) := Finset.sum_lt_sum_of_nonempty hs hterm
    _ = s.card * (∏ j ∈ s, q j : ℕ) := by rw [Finset.sum_const, nsmul_eq_mul]

theorem combine_nonneg {c : ι → ℤ} (h : ∀ i ∈ s, 0 ≤ c i) : 0 ≤ combine s q c :=
  Finset.sum_nonneg fun i hi => mul_nonneg (h i hi) (Int.natCast_nonneg _)

/-! ## Centred representatives -/

/-- The representative of a residue that is nearest to zero. -/
def centered (q v : ℕ) : ℤ := if v ≤ (q - 1) / 2 then v else v - q

theorem centered_modEq (q v : ℕ) : centered q v ≡ v [ZMOD q] := by
  unfold centered
  split
  · exact Int.ModEq.refl _
  · exact Int.modEq_sub_modulus_iff.mpr (Int.ModEq.refl _) |>.symm

theorem centered_bound {q v : ℕ} (hodd : q % 2 = 1) (hv : v < q) : 2 * |centered q v| < q := by
  unfold centered
  split
  · rw [abs_of_nonneg (Int.natCast_nonneg v)]
    omega
  · rw [abs_of_neg (by omega)]
    omega

/-- Shifting by half the modulus, reducing, and shifting back centres. -/
theorem shift_reduce {q v : ℕ} (hodd : q % 2 = 1) (hv : v < q) :
    (((v + (q - 1) / 2) % q : ℕ) : ℤ) = centered q v + ((q - 1) / 2 : ℕ) := by
  unfold centered
  split
  · rw [Nat.mod_eq_of_lt (by omega), Nat.cast_add]
  · have hwrap : (v + (q - 1) / 2) % q = v + (q - 1) / 2 - q := by
      rw [Nat.mod_eq_sub_mod (by omega), Nat.mod_eq_of_lt (by omega)]
    rw [hwrap]
    omega

end Crt
