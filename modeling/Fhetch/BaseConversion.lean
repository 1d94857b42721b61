/-
Fast base conversion.

Each source residue is scaled by the inverse of its cofactor and weighted with the
cofactor in the target ring. Over the integers the weighted sum is congruent to the
number modulo the product of the source primes, and it is one integer for all
targets: what differs between them is only the modulus it is reduced by. Its
distance from the number is the overshoot, at most one product for each source
prime, or half of one when the scaled residues are centred.
-/
import Fhetch.Computations
import Fhetch.WordArithmetic

set_option autoImplicit false

namespace Fhetch

open Crt

/-! ## The integer behind the residues -/

/-- Distinct primes. -/
structure PrimeBase (base : ModuliBase) : Prop where
  nodup : base.Nodup
  prime : ∀ q ∈ base, q.toNat.Prime

theorem getD_mem {base : ModuliBase} {i : ℕ} (hi : i < base.length) : base.getD i 0 ∈ base := by
  rw [List.getD_eq_getElem _ _ hi]
  exact List.getElem_mem hi

theorem PrimeBase.coprimes {base : ModuliBase} (h : PrimeBase base) :
    Coprimes (Finset.range base.length) (modulusAt base) := by
  intro i hi j hj hne
  rw [Finset.mem_range] at hi hj
  apply (Nat.coprime_primes (h.prime _ (getD_mem hi)) (h.prime _ (getD_mem hj))).mpr
  intro heq
  rw [UInt64.toNat_inj, List.getD_eq_getElem _ _ hi, List.getD_eq_getElem _ _ hj,
    h.nodup.getElem_inj_iff] at heq
  exact hne heq

theorem PrimeBase.pos {base : ModuliBase} (h : PrimeBase base) :
    ∀ i ∈ Finset.range base.length, 0 < modulusAt base i :=
  fun _ hi => (h.prime _ (getD_mem (Finset.mem_range.mp hi))).pos

theorem PrimeBase.positive {base : ModuliBase} (h : PrimeBase base) : ∀ q ∈ base, 0 < q.toNat :=
  fun q hq => (h.prime q hq).pos

/-- The value of a residue in a memory of one coefficient. -/
def MRP.valueAt (x : MRP) (m : ℕ → ℕ) (q : UInt64) : ℕ :=
  ((x.residues_ q).map fun p => m p.address).getD 0

theorem MRP.valueAt_of_some {x : MRP} {q : UInt64} {p : Polynomial} (h : x.residues_ q = some p)
    (m : ℕ → ℕ) : x.valueAt m q = m p.address := by
  rw [MRP.valueAt, h, Option.map_some, Option.getD_some]

/-- Every residue is reduced. -/
def MRP.Reduced (x : MRP) (m : ℕ → ℕ) : Prop := ∀ q ∈ x.base_, x.valueAt m q < q.toNat

/-- The residues were made before an address was handed out. -/
def MRP.MadeBefore (x : MRP) (n : ℕ) : Prop := ∀ q p, x.residues_ q = some p → p.address < n

theorem MRP.exists_residue (x : MRP) {q : UInt64} (hq : q ∈ x.base_) : ∃ p, x.residues_ q = some p :=
  Option.isSome_iff_exists.mp ((x.covered q).mpr hq)

/-- An integer that has the residues. -/
def MRP.Lifts (x : MRP) (m : ℕ → ℕ) (X : ℤ) : Prop := ∀ q ∈ x.base_, X ≡ x.valueAt m q [ZMOD q.toNat]

/-- What a term weighs its cofactor with. -/
def fbcWeight (variant : FbcVariant) (q v : ℕ) : ℤ :=
  match variant with
  | .Standard => v
  | .ReducedNoise => centered q v

/-- How far the sum over `k` primes with product `Q` may go. -/
def FbcVariant.Bounds (variant : FbcVariant) (k Q : ℕ) (S : ℤ) : Prop :=
  match variant with
  | .Standard => 0 ≤ S ∧ S < k * Q
  | .ReducedNoise => 2 * |S| < k * Q

/-- A scaled residue. -/
def MRP.scaledAt (x : MRP) (m : ℕ → ℕ) (i : ℕ) : ℕ :=
  x.valueAt m (x.base_.getD i 0) * ((q_hat_inv_mod_q x.base_).getD i 0).toNat % modulusAt x.base_ i

/-- **The integer that a conversion reduces.** -/
def MRP.fbcSum (x : MRP) (variant : FbcVariant) (m : ℕ → ℕ) : ℤ :=
  combine (Finset.range x.base_.length) (modulusAt x.base_) fun i =>
    fbcWeight variant (modulusAt x.base_ i) (x.scaledAt m i)

theorem fbcWeight_modEq (variant : FbcVariant) (q v : ℕ) : fbcWeight variant q v ≡ v [ZMOD q] := by
  cases variant with
  | Standard => exact Int.ModEq.refl _
  | ReducedNoise => exact centered_modEq q v

theorem q_hat_getD {base : ModuliBase} {i : ℕ} (hi : i < base.length) :
    (q_hat_inv_mod_q base).getD i 0 =
      modinv_prime (prod_mod_skip_index base i (base.getD i 0)) (base.getD i 0) := by
  rw [q_hat_inv_mod_q, List.getD_eq_getElem _ _ (by rw [List.length_map, List.length_range]; exact hi),
    List.getElem_map, List.getElem_range]

theorem q_star_getD {base : ModuliBase} {i : ℕ} (hi : i < base.length) (p : UInt64) :
    (q_hat_mod_p base p).getD i 0 = prod_mod_skip_index base i p := by
  rw [q_hat_mod_p, List.getD_eq_getElem _ _ (by rw [List.length_map, List.length_range]; exact hi),
    List.getElem_map, List.getElem_range]

section Sum

variable {x : MRP} (m : ℕ → ℕ)

/-- Scaling is undone by the cofactor. -/
theorem PrimeBase.scaled_cofactor (hx : PrimeBase x.base_) {i : ℕ} (hi : i < x.base_.length) :
    x.scaledAt m i * cofactor (Finset.range x.base_.length) (modulusAt x.base_) i ≡
      x.valueAt m (x.base_.getD i 0) [MOD modulusAt x.base_ i] := by
  have hprime := hx.prime _ (getD_mem hi)
  have hskip : (prod_mod_skip_index x.base_ i (x.base_.getD i 0)).toNat = _ :=
    prod_mod_skip_index_toNat hprime.pos
  have hmodEq : (prod_mod_skip_index x.base_ i (x.base_.getD i 0)).toNat ≡
      cofactor (Finset.range x.base_.length) (modulusAt x.base_) i [MOD modulusAt x.base_ i] := by
    rw [hskip]
    exact Nat.mod_modEq _ _
  have hcoprime : (prod_mod_skip_index x.base_ i (x.base_.getD i 0)).toNat.Coprime
      (x.base_.getD i 0).toNat :=
    hmodEq.gcd_eq.trans (cofactor_coprime hx.coprimes (Finset.mem_range.mpr hi))
  -- the cofactor has an inverse modulo its own prime
  have hinverse := modinv_prime_spec hprime hcoprime
  rw [← q_hat_getD hi] at hinverse
  calc x.scaledAt m i * cofactor (Finset.range x.base_.length) (modulusAt x.base_) i
      ≡ x.valueAt m (x.base_.getD i 0) * ((q_hat_inv_mod_q x.base_).getD i 0).toNat *
          (prod_mod_skip_index x.base_ i (x.base_.getD i 0)).toNat [MOD modulusAt x.base_ i] :=
        (Nat.mod_modEq _ _).mul hmodEq.symm
    _ = x.valueAt m (x.base_.getD i 0) * ((prod_mod_skip_index x.base_ i (x.base_.getD i 0)).toNat *
          ((q_hat_inv_mod_q x.base_).getD i 0).toNat) := by ring
    _ ≡ x.valueAt m (x.base_.getD i 0) * 1 [MOD modulusAt x.base_ i] := hinverse.mul_left _
    _ = x.valueAt m (x.base_.getD i 0) := mul_one _

/-- **The sum has the residues.** -/
theorem PrimeBase.fbcSum_lifts (hx : PrimeBase x.base_) (variant : FbcVariant) :
    x.Lifts m (x.fbcSum variant m) := by
  intro q hq
  obtain ⟨i, hi, rfl⟩ := List.getElem_of_mem hq
  rw [← List.getD_eq_getElem _ 0 hi]
  have hscaled := hx.scaled_cofactor m hi
  rw [← Int.natCast_modEq_iff, Nat.cast_mul] at hscaled
  apply (combine_modEq _ (Finset.mem_range.mpr hi)).trans
  exact ((fbcWeight_modEq variant _ _).mul_right _).trans hscaled

/-- Integers with the same residues are the same modulo the product. -/
theorem PrimeBase.lifts_modEq (hx : PrimeBase x.base_) {S X : ℤ} (hS : x.Lifts m S)
    (hX : x.Lifts m X) : S ≡ X [ZMOD baseProduct x.base_] := by
  rw [← prod_modulusAt]
  apply (modEq_prod_iff hx.coprimes).mpr
  intro i hi
  have hmem := getD_mem (Finset.mem_range.mp hi)
  exact (hS _ hmem).trans (hX _ hmem).symm

theorem MRP.scaledAt_lt (hpos : ∀ q ∈ x.base_, 0 < q.toNat) {i : ℕ} (hi : i < x.base_.length) :
    x.scaledAt m i < modulusAt x.base_ i :=
  Nat.mod_lt _ (hpos _ (getD_mem hi))

/-- **The overshoot** of the plain sum, and of the centred one. -/
theorem PrimeBase.fbcSum_bounds (hx : PrimeBase x.base_) (hne : x.base_ ≠ []) {variant : FbcVariant}
    (hodd : variant = .ReducedNoise → ∀ q ∈ x.base_, q.toNat % 2 = 1) :
    variant.Bounds x.base_.length (baseProduct x.base_) (x.fbcSum variant m) := by
  have hrange : (Finset.range x.base_.length).Nonempty :=
    Finset.nonempty_range_iff.mpr (List.length_pos_iff.mpr hne).ne'
  cases variant with
  | Standard =>
    have hbound := combine_bound (b := 1) hrange hx.pos
      (c := fun i => ((x.scaledAt m i : ℕ) : ℤ)) (by
      intro i hi
      rw [Nat.cast_one, one_mul, abs_of_nonneg (Int.natCast_nonneg _)]
      exact Int.ofNat_lt.mpr (MRP.scaledAt_lt m hx.positive (Finset.mem_range.mp hi)))
    rw [Nat.cast_one, one_mul, Finset.card_range, prod_modulusAt] at hbound
    exact ⟨combine_nonneg fun i _ => Int.natCast_nonneg _, (le_abs_self _).trans_lt hbound⟩
  -- centred residues are below half a modulus, of either sign
  | ReducedNoise =>
    have hbound := combine_bound (b := 2) hrange hx.pos
      (c := fun i => centered (modulusAt x.base_ i) (x.scaledAt m i)) (by
      intro i hi
      rw [Finset.mem_range] at hi
      exact centered_bound (hodd rfl _ (getD_mem hi)) (MRP.scaledAt_lt m hx.positive hi))
    rw [Finset.card_range, prod_modulusAt] at hbound
    exact hbound

end Sum

/-! ## What the computations return -/

section Computations

variable {s : Session}

theorem computes_addps {a : Polynomial} {c : Scalar} {q : UInt64} (hq : q ≠ 0)
    (ha : a.address < s.next_address_) : Computes (sr_addps a c q) s (fun r n => r.address < n)
      fun r m => m r.address = psValue .FH_SR_ADDPS q.toNat (m a.address) c.int_value.toNat :=
  computes_ps (by decide) (.inl rfl) hq ha

theorem computes_mulps {a : Polynomial} {c : Scalar} {q : UInt64} (hq : q ≠ 0)
    (ha : a.address < s.next_address_) : Computes (sr_mulps a c q) s (fun r n => r.address < n)
      fun r m => m r.address = m a.address * c.int_value.toNat % q.toNat :=
  computes_ps (by decide) (.inr (.inr rfl)) hq ha

theorem computes_addp {a b : Polynomial} {q : UInt64} (hq : q ≠ 0)
    (ha : a.address < s.next_address_) (hb : b.address < s.next_address_) :
    Computes (sr_addp a b q) s (fun r n => r.address < n)
      fun r m => m r.address = (m a.address + m b.address) % q.toNat :=
  computes_pp (by decide) (.inl rfl) hq ha hb

theorem computes_subp {a b : Polynomial} {q : UInt64} (hq : q ≠ 0)
    (ha : a.address < s.next_address_) (hb : b.address < s.next_address_) :
    Computes (sr_subp a b q) s (fun r n => r.address < n)
      fun r m => m r.address = (m a.address + (q.toNat - m b.address % q.toNat)) % q.toNat :=
  computes_pp (by decide) (.inr (.inl rfl)) hq ha hb

/-- A scalar and a multiplication by it. -/
theorem computes_scale {a : Polynomial} {v q : UInt64} (hq : q ≠ 0) (ha : a.address < s.next_address_) :
    Computes (do let c ← Scalar.from_int v; sr_mulps a c q) s (fun r n => r.address < n)
      fun r m => m r.address = m a.address * v.toNat % q.toNat := by
  apply (computes_from_int v).bind
  rintro c s' hle rfl
  exact (computes_mulps hq (ha.trans_le hle)).mono (fun _ _ _ h => h) fun _ _ _ _ _ h _ => h

/-- A scalar and an addition of it to a reduced value. -/
theorem computes_shift {a : Polynomial} {v q : UInt64} (hq : q ≠ 0) (ha : a.address < s.next_address_) :
    Computes (do let c ← Scalar.from_int v; sr_addps a c q) s (fun r n => r.address < n)
      fun r m => m a.address < q.toNat → m r.address = (m a.address + v.toNat) % q.toNat := by
  apply (computes_from_int v).bind
  rintro c s' hle rfl
  apply (computes_addps hq (ha.trans_le hle)).mono (fun _ _ _ h => h)
  intro r _ m _ _ h _ hlt
  rw [h, psValue_addps hlt]

theorem computes_leading_identity {a : Polynomial} {q : UInt64} (hq : q ≠ 0)
    (ha : a.address < s.next_address_) (shape : FbcCenterShape) :
    Computes (leading_identity a q shape) s (fun r n => r.address < n)
      fun r m => m a.address < q.toNat → m r.address = m a.address := by
  cases shape with
  | ThreeOp => exact computes_pure ha fun _ _ => rfl
  | FourOp =>
    apply (computes_scale hq ha).mono (fun _ _ _ h => h)
    intro r _ m _ _ h hlt
    rw [h]
    show m a.address * 1 % q.toNat = _
    rw [mul_one, Nat.mod_eq_of_lt hlt]

/-- **Centring.** Three operations, or four, take a reduced value modulo an odd
modulus to its centred representative modulo the target. -/
theorem computes_center {a : Polynomial} {q p : UInt64} (hq : q.toNat % 2 = 1) (hp : 0 < p.toNat)
    (ha : a.address < s.next_address_) (shape : FbcCenterShape) :
    Computes (center_mod_q_into_p a q p shape) s (fun r n => r.address < n)
      fun r m => m a.address < q.toNat →
        (m r.address : ℤ) = centered q.toNat (m a.address) % p.toNat := by
  have hq₀ : q ≠ 0 := by
    rintro rfl
    exact absurd hq (by decide)
  have hp₀ : p ≠ 0 := by
    rintro rfl
    exact absurd hp (by decide)
  have hhalf : ((q - 1) / 2 : UInt64).toNat = (q.toNat - 1) / 2 := by
    rw [UInt64.toNat_div, UInt64.toNat_sub_of_le _ _ (UInt64.le_iff_toNat_le.mpr (by
      show 1 ≤ q.toNat
      omega))]
    rfl
  unfold center_mod_q_into_p
  apply (computes_leading_identity hq₀ ha shape).bind
  -- the four operations of the function in turn
  intro shift_in s₁ _ hin
  rw [← bind_assoc]
  apply (computes_shift hq₀ hin).bind
  intro shifted s₂ _ hshifted
  rw [← bind_assoc]
  apply (computes_scale hp₀ hshifted).bind
  intro rebased s₃ _ hrebased
  apply (computes_shift hp₀ hrebased).mono (fun _ _ _ h => h)
  intro r _ m _ _ hr hrebase hshift hlead hlt
  -- what they leave at the end is the centred value, reduced
  have hlead := hlead hlt
  have hshift := hshift (hlead ▸ hlt)
  have hrange : m rebased.address < p.toNat := hrebase ▸ Nat.mod_lt _ hp
  have hr := hr hrange
  have hneg := neg_half_modEq (h := (q - 1) / 2) hp
  rw [hhalf] at hneg
  apply eq_emod_of_modEq (hr ▸ Nat.mod_lt _ hp)
  rw [hr]
  have hone : (1 : UInt64).toNat = 1 := rfl
  rw [hrebase, hone, mul_one, hshift, hlead, hhalf]
  calc (((((m a.address + (q.toNat - 1) / 2) % q.toNat % p.toNat) +
          (if (q - 1) / 2 % p = 0 then 0 else p - (q - 1) / 2 % p : UInt64).toNat) % p.toNat : ℕ) : ℤ)
      ≡ (((m a.address + (q.toNat - 1) / 2) % q.toNat : ℕ) : ℤ) +
          ((if (q - 1) / 2 % p = 0 then 0 else p - (q - 1) / 2 % p : UInt64).toNat : ℤ)
            [ZMOD p.toNat] := by
        rw [← Nat.cast_add]
        exact Int.natCast_modEq_iff.mpr ((Nat.mod_modEq _ _).trans ((Nat.mod_modEq _ _).add_right _))
    _ ≡ (centered q.toNat (m a.address) + ((q.toNat - 1) / 2 : ℕ)) + -((q.toNat - 1) / 2 : ℕ)
          [ZMOD p.toNat] := by
        rw [shift_reduce hq hlt]
        exact hneg.add_left _
    _ = centered q.toNat (m a.address) := by ring

theorem computes_fbc_coeff {a : Polynomial} {q p : UInt64} (hp : 0 < p.toNat)
    (ha : a.address < s.next_address_) {variant : FbcVariant}
    (hodd : variant = .ReducedNoise → q.toNat % 2 = 1) (shape : FbcCenterShape) :
    Computes (fbc_coeff a q p shape variant) s (fun r n => r.address < n)
      fun r m => m a.address < q.toNat →
        (m r.address : ℤ) ≡ fbcWeight variant q.toNat (m a.address) [ZMOD p.toNat] := by
  cases variant with
  | Standard => exact computes_pure ha fun m _ => Int.ModEq.refl _
  | ReducedNoise =>
    apply (computes_center (hodd rfl) hp ha shape).mono (fun _ _ _ h => h)
    intro r _ m _ _ hr hlt
    rw [hr hlt]
    exact Int.mod_modEq _ _

theorem computes_fbc_term {a : Polynomial} {q p q_star : UInt64} (hp : 0 < p.toNat)
    (ha : a.address < s.next_address_) {variant : FbcVariant}
    (hodd : variant = .ReducedNoise → q.toNat % 2 = 1) (shape : FbcCenterShape) :
    Computes (fbc_term a q p q_star variant shape) s (fun r n => r.address < n)
      fun r m => m r.address < p.toNat ∧ (m a.address < q.toNat →
        (m r.address : ℤ) ≡ fbcWeight variant q.toNat (m a.address) * q_star.toNat [ZMOD p.toNat]) := by
  have hp₀ : p ≠ 0 := by
    rintro rfl
    exact absurd hp (by decide)
  unfold fbc_term
  apply (computes_fbc_coeff hp ha hodd shape).bind
  intro coeff s₁ _ hcoeff
  apply (computes_scale hp₀ hcoeff).mono (fun _ _ _ h => h)
  intro r _ m _ _ hr hweight
  refine ⟨hr ▸ Nat.mod_lt _ hp, fun hlt => ?_⟩
  rw [hr]
  have hreduced : ((m coeff.address * q_star.toNat % p.toNat : ℕ) : ℤ) ≡
      (m coeff.address : ℤ) * q_star.toNat [ZMOD p.toNat] := by
    rw [← Nat.cast_mul]
    exact Int.natCast_modEq_iff.mpr (Nat.mod_modEq _ _)
  exact hreduced.trans ((hweight hlt).mul_right _)

/-- Scaled residues as the list of handles holds them. -/
def Scaled (base : ModuliBase) (scaled : List Polynomial) (v : ℕ → ℕ) (m : ℕ → ℕ) : Prop :=
  ∀ i < base.length, ∀ p, scaled[i]? = some p → m p.address = v i ∧ v i < modulusAt base i

/-- There is a handle for each of them. -/
def HandlesOf (base : ModuliBase) (scaled : List Polynomial) (n : ℕ) : Prop :=
  ∀ i < base.length, ∃ p, scaled[i]? = some p ∧ p.address < n

variable {base : ModuliBase} {scaled : List Polynomial} {p : UInt64} {variant : FbcVariant}

theorem computes_fbc_term_at (hp : 0 < p.toNat) (hs : HandlesOf base scaled s.next_address_)
    (hodd : variant = .ReducedNoise → ∀ q ∈ base, q.toNat % 2 = 1) (shape : FbcCenterShape) {i : ℕ}
    (hi : i < base.length) :
    Computes (fbc_term_at scaled base p (q_hat_mod_p base p) variant shape i) s
      (fun r n => r.address < n)
      fun r m => m r.address < p.toNat ∧ ∀ v, Scaled base scaled v m →
        (m r.address : ℤ) ≡ fbcWeight variant (modulusAt base i) (v i) *
          cofactor (Finset.range base.length) (modulusAt base) i [ZMOD p.toNat] := by
  obtain ⟨a, hscaled, ha⟩ := hs i hi
  unfold fbc_term_at
  rw [hscaled]
  apply (computes_fbc_term hp ha (fun h => hodd h _ (getD_mem hi)) shape).mono (fun _ _ _ h => h)
  rintro r _ m _ _ ⟨hlt, hr⟩
  refine ⟨hlt, fun v hv => ?_⟩
  obtain ⟨hvalue, hreduced⟩ := hv i hi a hscaled
  have hr := hr (hvalue ▸ hreduced)
  rw [hvalue] at hr
  apply hr.trans
  apply Int.ModEq.mul_left
  rw [q_star_getD hi, prod_mod_skip_index_toNat hp]
  exact Int.natCast_modEq_iff.mpr (Nat.mod_modEq _ _)

/-- **The sum.** After index `i` the accumulator holds the first `i + 1` terms of the
recombination, modulo the target. -/
theorem computes_sum (hp : 0 < p.toNat) (hne : base ≠ []) (hs : HandlesOf base scaled s.next_address_)
    (hodd : variant = .ReducedNoise → ∀ q ∈ base, q.toNat % 2 = 1) (shape : FbcCenterShape) :
    Computes (sum_fbc_terms scaled base p (q_hat_mod_p base p) variant shape) s
      (fun r n => r.address < n)
      fun r m => ∀ v, Scaled base scaled v m → (m r.address : ℤ) =
        combine (Finset.range base.length) (modulusAt base)
          (fun i => fbcWeight variant (modulusAt base i) (v i)) % p.toNat := by
  have hp₀ : p ≠ 0 := by
    rintro rfl
    exact absurd hp (by decide)
  have hlength : 0 < base.length := List.length_pos_iff.mpr hne
  -- what the accumulator has seen once the indices below `i` are in it
  let Partial (i : ℕ) (r : Polynomial) (m : ℕ → ℕ) : Prop := m r.address < p.toNat ∧
    ∀ v, Scaled base scaled v m → (m r.address : ℤ) ≡ ∑ l ∈ Finset.range i,
      fbcWeight variant (modulusAt base l) (v l) *
        cofactor (Finset.range base.length) (modulusAt base) l [ZMOD p.toNat]
  unfold sum_fbc_terms
  apply (computes_fbc_term_at hp hs hodd shape hlength).bind
  intro acc s₁ hle hacc
  have hfold : Computes ((List.range' 1 (base.length - 1)).foldlM (fun acc i => do
      let term ← fbc_term_at scaled base p (q_hat_mod_p base p) variant shape i
      sr_addp acc term p) acc) s₁ (fun r n => r.address < n)
      fun r m => Partial 1 acc m → Partial (1 + (base.length - 1)) r m := by
    apply computes_foldlM (R := fun (r : Polynomial) n => r.address < n) (Q := Partial) _ hacc
    intro i hi hi' a s₂ hle₂ ha
    have hs₂ : HandlesOf base scaled s₂.next_address_ := by
      intro l hl
      obtain ⟨h, hh, hlt⟩ := hs l hl
      exact ⟨h, hh, hlt.trans_le (hle.trans hle₂)⟩
    apply (computes_fbc_term_at hp hs₂ hodd shape (by omega)).bind
    intro term s₃ hle₃ hterm
    apply (computes_addp hp₀ (ha.trans_le hle₃) hterm).mono (fun _ _ _ h => h)
    rintro r _ m _ _ hr ⟨-, hterm⟩ ⟨-, hsofar⟩
    refine ⟨hr ▸ Nat.mod_lt _ hp, fun v hv => ?_⟩
    rw [Finset.sum_range_succ, hr]
    have hadd := (hsofar v hv).add (hterm v hv)
    rw [← Nat.cast_add] at hadd
    exact (Int.natCast_modEq_iff.mpr (Nat.mod_modEq _ _)).trans hadd
  apply hfold.mono (fun _ _ _ h => h)
  rintro r _ m _ _ hr ⟨hlt, hfirst⟩ v hv
  have hsofar : Partial 1 acc m := by
    refine ⟨hlt, fun v hv => ?_⟩
    rw [Finset.sum_range_one]
    exact hfirst v hv
  obtain ⟨hlt', hsum⟩ := hr hsofar
  rw [show 1 + (base.length - 1) = base.length by omega] at hsum
  exact eq_emod_of_modEq hlt' (hsum v hv)

/-- A copy keeps the value, whatever it is. -/
theorem computes_copy_residue {a : Polynomial} (ha : a.address < s.next_address_) (p : UInt64) :
    Computes (copy_residue a p) s (fun r n => r.address < n) fun r m => m r.address = m a.address := by
  unfold copy_residue
  apply (computes_from_int 0).bind
  rintro zero s₁ hle hzero
  apply (computes_addps (by decide) (ha.trans_le hle)).bind
  intro z s₂ _ hz
  apply (computes_remember_modulus z.address p).bind
  intro _ s₃ hle₃ _
  refine computes_pure (R := fun (r : Polynomial) n => r.address < n) (hz.trans_le hle₃) ?_
  intro m _ hvalue _
  rw [hvalue, hzero]
  rfl

/-- Each element of the second list has its partner. -/
theorem exists_of_forall₂ {α β : Type} {R : α → β → Prop} {as : List α} {bs : List β}
    (h : List.Forall₂ R as bs) : ∀ b ∈ bs, ∃ a ∈ as, R a b := by
  induction h with
  | nil => exact List.forall_mem_nil _
  | cons hab _ ih =>
    rintro b (_ | ⟨_, hb⟩)
    · exact ⟨_, List.mem_cons_self, hab⟩
    · obtain ⟨a, ha, hR⟩ := ih b hb
      exact ⟨a, List.mem_cons_of_mem _ ha, hR⟩

/-- Pairs that are made under their keys have the keys in order. -/
theorem map_snd_of_forall₂ {α : Type} {key : α → UInt64} {R : α → Polynomial × UInt64 → Prop}
    {as : List α} {pairs : List (Polynomial × UInt64)} (h : List.Forall₂ R as pairs)
    (hkey : ∀ a pair, R a pair → pair.2 = key a) : pairs.map Prod.snd = as.map key := by
  rw [← List.forall₂_eq_eq_eq, List.forall₂_map_left_iff, List.forall₂_map_right_iff]
  exact (h.imp hkey).flip

/-- Each of the residues that a map makes is one of its results. -/
theorem computes_from_pairs {α : Type} {as : List α} (key : α → UInt64)
    {f : α → Api (Polynomial × UInt64)} {Q : α → ℕ → (ℕ → ℕ) → Prop}
    (h : ∀ a ∈ as, ∀ s', s.next_address_ ≤ s'.next_address_ →
      Computes (f a) s' (fun pair n => pair.2 = key a ∧ pair.1.address < n)
        fun pair m => Q a (m pair.1.address) m) :
    Computes (do let pairs ← as.mapM f; return MRP.from_pairs pairs) s
      (fun y n => y.base_ = as.map key ∧ y.MadeBefore n)
      fun y m => ∀ q ∈ as.map key, ∃ a ∈ as, key a = q ∧ Q a (y.valueAt m q) m := by
  have hmap := computes_mapM (R := fun a (pair : Polynomial × UInt64) n =>
      pair.2 = key a ∧ pair.1.address < n)
    (Q := fun a (pair : Polynomial × UInt64) m => Q a (m pair.1.address) m)
    (fun _ _ _ _ hle hpair => ⟨hpair.1, lt_of_lt_of_le hpair.2 hle⟩) h
  have hnamed : Computes (as.mapM f) s (fun pairs n => List.Forall₂ (fun a pair =>
      pair.2 = key a ∧ pair.1.address < n) as pairs) fun pairs m => List.Forall₂ (fun a pair =>
      key a = pair.2 ∧ Q a (m pair.1.address) m) as pairs :=
    hmap.mono (fun _ _ _ h => h) fun pairs n m _ hpairs hvalues =>
      List.Forall₂.mp (fun _ _ hpair hvalue => ⟨hpair.1.symm, hvalue⟩) hpairs hvalues
  apply hnamed.bind
  -- each residue that is found under a modulus was made from an element
  intro pairs s' _ hpairs
  have hkeys := map_snd_of_forall₂ hpairs fun _ _ h => h.1
  apply computes_pure
  · refine ⟨hkeys, fun q p hp => ?_⟩
    obtain ⟨a, -, -, hlt⟩ := exists_of_forall₂ hpairs _ (mem_of_assign_residues hp)
    exact hlt
  · intro m hvalues q hq
    rw [← hkeys] at hq
    obtain ⟨p, hp⟩ := (MRP.from_pairs pairs).exists_residue hq
    rw [MRP.valueAt_of_some hp]
    exact exists_of_forall₂ hvalues _ (mem_of_assign_residues hp)

end Computations

/-! ## The conversion -/

section Conversion

variable {s : Session} {x : MRP} {variant : FbcVariant}

theorem computes_prescale (hpos : ∀ q ∈ x.base_, 0 < q.toNat) (hmade : x.MadeBefore s.next_address_) :
    Computes (prescale_by_q_hat x (q_hat_inv_mod_q x.base_)) s (HandlesOf x.base_)
      fun scaled m => Scaled x.base_ scaled (x.scaledAt m) m := by
  have hmap : Computes (prescale_by_q_hat x (q_hat_inv_mod_q x.base_)) s
      (fun scaled n => List.Forall₂ (fun _ p => p.address < n) (List.range x.base_.length) scaled)
      fun scaled m => List.Forall₂ (fun i p => m p.address = x.scaledAt m i)
        (List.range x.base_.length) scaled := by
    apply computes_mapM (R := fun _ (p : Polynomial) n => p.address < n)
      (fun _ _ _ _ hle h => lt_of_lt_of_le h hle)
    intro i hi s' hle
    have hmem := getD_mem (List.mem_range.mp hi)
    obtain ⟨p, hp⟩ := x.exists_residue hmem
    have hq : x.base_.getD i 0 ≠ 0 := by
      intro hzero
      have := hpos _ hmem
      rw [hzero] at this
      exact absurd this (by decide)
    -- one residue, scaled by its own factor
    apply (computes_at hp).bind
    rintro r s₁ hle₁ rfl
    apply (computes_scale hq ((hmade _ _ hp).trans_le (hle.trans hle₁))).mono (fun _ _ _ h => h)
    intro r' _ m _ _ hr _
    rw [hr, MRP.scaledAt, MRP.valueAt_of_some hp]
    rfl
  apply hmap.mono
  · intro scaled n _ hscaled i hi
    obtain ⟨hlength, hall⟩ := List.forall₂_iff_get.mp hscaled
    rw [List.length_range] at hlength
    have hi' : i < scaled.length := hlength ▸ hi
    exact ⟨scaled[i], List.getElem?_eq_getElem hi', hall i (by rwa [List.length_range]) hi'⟩
  · intro scaled n m _ _ hscaled i hi p hp
    -- the values are below their moduli since they were reduced
    obtain ⟨_, hall⟩ := List.forall₂_iff_get.mp hscaled
    obtain ⟨hi', rfl⟩ := List.getElem?_eq_some_iff.mp hp
    refine ⟨?_, MRP.scaledAt_lt m hpos hi⟩
    have hvalue := hall i (by rwa [List.length_range]) hi'
    rwa [List.get_eq_getElem, List.get_eq_getElem, List.getElem_range] at hvalue

/-- What is promised of a residue of a conversion. -/
def MRP.convertedAt (x : MRP) (variant : FbcVariant) (m : ℕ → ℕ) (p : UInt64) (v : ℕ) : Prop :=
  if p ∈ x.base_ then v = x.valueAt m p else (v : ℤ) = x.fbcSum variant m % p.toNat

/-- **Conversion.** Shared primes keep their residues, and all others reduce one sum. -/
theorem computes_fast_base_convert (hpos : ∀ q ∈ x.base_, 0 < q.toNat) (hne : x.base_ ≠ [])
    (hmade : x.MadeBefore s.next_address_)
    (hodd : variant = .ReducedNoise → ∀ q ∈ x.base_, q.toNat % 2 = 1) {target_base : ModuliBase}
    (htarget : ∀ p ∈ target_base, 0 < p.toNat) (shape : FbcCenterShape) :
    Computes (fast_base_convert x target_base variant shape) s
      (fun y n => y.base_ = target_base ∧ y.MadeBefore n)
      fun y m => ∀ p ∈ target_base, x.convertedAt variant m p (y.valueAt m p) := by
  unfold fast_base_convert
  rw [if_neg (by rwa [List.isEmpty_iff])]
  apply (computes_prescale hpos hmade).bind
  intro scaled s₁ hle hscaled
  refine Computes.mono (computes_from_pairs id (Q := fun p v m =>
    Scaled x.base_ scaled (x.scaledAt m) m → x.convertedAt variant m p v) ?_) ?_ ?_
  · intro p hp s₂ hle₂
    simp only [id_eq]
    split
    · rename_i hmem
      -- a modulus of the old base: its residue is copied
      obtain ⟨r, hr⟩ := x.exists_residue hmem
      apply (computes_at hr).bind
      rintro r' s₃ hle₃ rfl
      apply (computes_copy_residue ((hmade _ _ hr).trans_le (hle.trans (hle₂.trans hle₃))) p).bind
      intro y s₄ _ hy
      apply computes_pure ⟨rfl, hy⟩
      intro m hvalue _ _
      rw [MRP.convertedAt, if_pos hmem, MRP.valueAt_of_some hr]
      exact hvalue
    · rename_i hmem
      -- a new modulus: the scaled residues are summed
      have hhandles : HandlesOf x.base_ scaled s₂.next_address_ := by
        intro i hi
        obtain ⟨h, hh, hlt⟩ := hscaled i hi
        exact ⟨h, hh, hlt.trans_le hle₂⟩
      apply (computes_sum (htarget p hp) hne hhandles hodd shape).bind
      intro y s₃ _ hy
      apply computes_pure ⟨rfl, hy⟩
      intro m hsum hvalues
      rw [MRP.convertedAt, if_neg hmem]
      exact hsum _ hvalues
  · rintro y n _ ⟨hbase, hmade⟩
    exact ⟨by rw [hbase, List.map_id], hmade⟩
  · intro y n m _ _ hvalues hvalue p hp
    obtain ⟨p', -, rfl, hp'⟩ := hvalues p (by rwa [List.map_id])
    exact hp' hvalue

/-- One coefficient before and after a conversion: there is an integer with the
residues, the number up to a bounded multiple of the product, and each residue of
the result either is shared or reduces it. -/
def MRP.ConvertsTo (x y : MRP) (variant : FbcVariant) (m m' : ℕ → ℕ) : Prop :=
  ∃ S : ℤ, x.Lifts m S ∧ (∀ X, x.Lifts m X → S ≡ X [ZMOD baseProduct x.base_]) ∧
    variant.Bounds x.base_.length (baseProduct x.base_) S ∧
    ∀ p ∈ y.base_, (p ∈ x.base_ → y.valueAt m' p = x.valueAt m p) ∧
      (p ∉ x.base_ → (y.valueAt m' p : ℤ) = S % p.toNat)

/-- What was made before is read from either memory. -/
theorem MRP.valueAt_congr (hmade : x.MadeBefore s.next_address_) {m m' : ℕ → ℕ}
    (h : ∀ a < s.next_address_, m' a = m a) (q : UInt64) : x.valueAt m' q = x.valueAt m q := by
  rcases hq : x.residues_ q with - | p
  · rw [MRP.valueAt, MRP.valueAt, hq]
    rfl
  · rw [MRP.valueAt_of_some hq, MRP.valueAt_of_some hq, h _ (hmade q p hq)]

theorem PrimeBase.convertsTo (hx : PrimeBase x.base_) (hne : x.base_ ≠ [])
    (hodd : variant = .ReducedNoise → ∀ q ∈ x.base_, q.toNat % 2 = 1) {y : MRP} {m m' : ℕ → ℕ}
    (hsame : ∀ q, x.valueAt m' q = x.valueAt m q)
    (h : ∀ p ∈ y.base_, x.convertedAt variant m' p (y.valueAt m' p)) :
    x.ConvertsTo y variant m m' := by
  have hlifts : ∀ X, x.Lifts m X ↔ x.Lifts m' X := fun X => by
    unfold MRP.Lifts
    simp only [hsame]
  refine ⟨x.fbcSum variant m', (hlifts _).mpr (hx.fbcSum_lifts m' variant), fun X hX => ?_,
    hx.fbcSum_bounds m' hne hodd, fun p hp => ⟨fun hmem => ?_, fun hmem => ?_⟩⟩
  · exact hx.lifts_modEq m' (hx.fbcSum_lifts m' variant) ((hlifts X).mp hX)
  · have hvalue := h p hp
    rw [MRP.convertedAt, if_pos hmem, hsame] at hvalue
    exact hvalue
  · have hvalue := h p hp
    rw [MRP.convertedAt, if_neg hmem] at hvalue
    exact hvalue

/-- **Base conversion is right up to a bounded multiple of the product.** The
recorded instructions, replayed, make every residue of the result from one integer
for each coefficient. -/
theorem fast_base_convert_overshoots {M : NativeMath} (hM : M.Exact) (hs : s.Recording)
    (hmade : x.MadeBefore s.next_address_) (hx : PrimeBase x.base_) (hne : x.base_ ≠ [])
    (hodd : variant = .ReducedNoise → ∀ q ∈ x.base_, q.toNat % 2 = 1) {target_base : ModuliBase}
    (htarget : ∀ p ∈ target_base, p.toNat.Prime) (shape : FbcCenterShape) :
    Replays M (fast_base_convert x target_base variant shape) s fun y impl impl' =>
      y.base_ = target_base ∧
        ∀ j < impl.ring_dim, x.ConvertsTo y variant (impl.coefficient j) (impl'.coefficient j) := by
  have hcomputes := computes_fast_base_convert hx.positive hne hmade hodd (fun p hp => (htarget p hp).pos) shape
  apply (hcomputes.replays hM hs).mono
  rintro y impl impl' ⟨⟨n, hbase, -⟩, hj⟩
  refine ⟨hbase, fun j hlt => ?_⟩
  obtain ⟨hvalues, hframe⟩ := hj j hlt
  exact hx.convertsTo hne hodd (MRP.valueAt_congr hmade hframe) (hbase ▸ hvalues)

end Conversion

/-! ### A session -/

/-- The residue made first, second or third. -/
def sampleResidue (address : ℕ) : Polynomial :=
  { address, ring_dim := 1, fmt := .Evaluation, ntype := .Integer }

/-- Three residues. -/
def sampleResidues : MRP :=
  MRP.from_pairs [(sampleResidue 0, 3), (sampleResidue 1, 5), (sampleResidue 2, 7)]

/-- The session that made them and is recording. -/
def sampleSession : Session where
  next_address_ := 3
  writer := TraceWriter.start_recording {}

theorem sampleSession_recording : sampleSession.Recording :=
  have h := TraceWriter.consistent_clear {}
  ⟨⟨h.head, h.nodup, h.lookup⟩, rfl⟩

theorem sampleResidues_primeBase : PrimeBase sampleResidues.base_ where
  nodup := by decide
  prime := by
    show ∀ q ∈ ([3, 5, 7] : ModuliBase), q.toNat.Prime
    simp only [List.forall_mem_cons]
    exact ⟨Nat.prime_three, Nat.prime_five, Nat.prime_seven, List.forall_mem_nil _⟩

theorem sampleResidues_odd : ∀ q ∈ sampleResidues.base_, q.toNat % 2 = 1 := by
  show ∀ q ∈ ([3, 5, 7] : ModuliBase), q.toNat % 2 = 1
  simp only [List.forall_mem_cons]
  exact ⟨rfl, rfl, rfl, List.forall_mem_nil _⟩

theorem sampleResidues_madeBefore : sampleResidues.MadeBefore sampleSession.next_address_ := by
  intro q p hp
  have hmem := mem_of_assign_residues hp
  rcases List.mem_cons.mp hmem with h | hmem
  · rw [(Prod.mk.inj h).1]
    decide
  · rcases List.mem_pair.mp hmem with h | h
    · rw [(Prod.mk.inj h).1]
      decide
    · rw [(Prod.mk.inj h).1]
      decide

theorem fast_base_convert_overshoots_sample :
    Replays referenceMath (fast_base_convert sampleResidues [11, 3] .ReducedNoise .ThreeOp)
      sampleSession fun y impl impl' => y.base_ = [11, 3] ∧ ∀ j < impl.ring_dim,
        sampleResidues.ConvertsTo y .ReducedNoise (impl.coefficient j) (impl'.coefficient j) :=
  fast_base_convert_overshoots referenceMath_exact sampleSession_recording sampleResidues_madeBefore
    sampleResidues_primeBase (by decide) (fun _ => sampleResidues_odd)
    (by
      simp only [List.forall_mem_cons]
      exact ⟨Nat.prime_eleven, Nat.prime_three, List.forall_mem_nil _⟩) .ThreeOp

end Fhetch
