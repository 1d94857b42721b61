/-
Digit decomposition.

Each digit is the part of the number that some primes of its base hold, converted to
all others and to some more. Its own primes are passed through, so the digit is one
integer, congruent to the number modulo the product of its primes; and the digits,
each weighted with the cofactor of its product and the inverse of that, add up to
the number at every prime of the base.
-/
import Fhetch.Rescaling

set_option autoImplicit false

namespace Fhetch

open Crt

/-! ## The products of the digits -/

/-- The product of a digit's primes. -/
def digitProduct (digit_bases : List ModuliBase) (i : ℕ) : ℕ := baseProduct (digit_bases.getD i [])

theorem baseProduct_append (base base' : ModuliBase) :
    baseProduct (base ++ base') = baseProduct base * baseProduct base' := by
  rw [baseProduct, List.map_append, List.prod_append]
  rfl

theorem prod_digitProduct (digit_bases : List ModuliBase) :
    ∏ i ∈ Finset.range digit_bases.length, digitProduct digit_bases i =
      baseProduct digit_bases.flatten := by
  induction digit_bases with
  | nil => rfl
  | cons digit digit_bases ih =>
    rw [List.length_cons, Finset.prod_range_succ', List.flatten_cons, baseProduct_append, ← ih,
      mul_comm]
    rfl

/-- Bases without a common prime have coprime products. -/
theorem baseProduct_coprime {base base' : ModuliBase} (h : PrimeBase base) (h' : PrimeBase base')
    (hdisjoint : base.Disjoint base') : (baseProduct base).Coprime (baseProduct base') := by
  rw [baseProduct, Nat.coprime_list_prod_left_iff]
  intro _ hmap
  obtain ⟨q, hq, rfl⟩ := List.mem_map.mp hmap
  rw [baseProduct, Nat.coprime_list_prod_right_iff]
  intro _ hmap'
  obtain ⟨q', hq', rfl⟩ := List.mem_map.mp hmap'
  apply (Nat.coprime_primes (h.prime q hq) (h'.prime q' hq')).mpr
  intro heq
  rw [UInt64.toNat_inj] at heq
  exact hdisjoint hq (heq ▸ hq')

/-! ## Partitions -/

/-- **A partition** of a base into digits. -/
structure Partition (base : ModuliBase) (digit_bases : List ModuliBase) : Prop where
  perm : digit_bases.flatten.Perm base
  nonempty : ∀ digit ∈ digit_bases, digit ≠ []

section Digits

variable {base : ModuliBase} {digit_bases : List ModuliBase}

theorem Partition.sub (h : Partition base digit_bases) {digit : ModuliBase}
    (hdigit : digit ∈ digit_bases) : ∀ q ∈ digit, q ∈ base :=
  fun _ hq => h.perm.subset (List.mem_flatten.mpr ⟨digit, hdigit, hq⟩)

theorem Partition.nodup (h : Partition base digit_bases) (hbase : PrimeBase base) :
    digit_bases.flatten.Nodup :=
  h.perm.nodup_iff.mpr hbase.nodup

theorem Partition.primeBase (h : Partition base digit_bases) (hbase : PrimeBase base)
    {digit : ModuliBase} (hdigit : digit ∈ digit_bases) : PrimeBase digit :=
  hbase.subset ((List.nodup_flatten.mp (h.nodup hbase)).1 digit hdigit) (h.sub hdigit)

theorem Partition.product (h : Partition base digit_bases) :
    ∏ i ∈ Finset.range digit_bases.length, digitProduct digit_bases i = baseProduct base := by
  rw [prod_digitProduct]
  exact (h.perm.map _).prod_eq

theorem digit_mem {i : ℕ} (hi : i < digit_bases.length) : digit_bases.getD i [] ∈ digit_bases := by
  rw [List.getD_eq_getElem _ _ hi]
  exact List.getElem_mem hi

theorem Partition.coprimes (h : Partition base digit_bases) (hbase : PrimeBase base) :
    Coprimes (Finset.range digit_bases.length) (digitProduct digit_bases) := by
  have hpairwise := List.pairwise_iff_getElem.mp (List.nodup_flatten.mp (h.nodup hbase)).2
  intro i hi j hj hne
  rw [Finset.mem_range] at hi hj
  apply baseProduct_coprime (h.primeBase hbase (digit_mem hi)) (h.primeBase hbase (digit_mem hj))
  rw [List.getD_eq_getElem _ _ hi, List.getD_eq_getElem _ _ hj]
  rcases Nat.lt_or_gt_of_ne hne with hlt | hlt
  · exact hpairwise i j hi hj hlt
  · exact (hpairwise j i hj hi hlt).symm

/-- The cofactor of a digit is the quotient of the products. -/
theorem Partition.cofactor_eq (h : Partition base digit_bases) (hbase : PrimeBase base) {i : ℕ}
    (hi : i < digit_bases.length) :
    cofactor (Finset.range digit_bases.length) (digitProduct digit_bases) i =
      baseProduct base / digitProduct digit_bases i := by
  have hpos : 0 < digitProduct digit_bases i := (h.primeBase hbase (digit_mem hi)).product_pos
  rw [← h.product, ← mul_cofactor (Finset.mem_range.mpr hi), Nat.mul_div_cancel_left _ hpos]

end Digits

/-! ## The decomposition -/

/-- One coefficient before and after a decomposition. -/
def MRP.DecomposesTo (x : MRP) (zs : List MRP) (digit_bases : List ModuliBase) (m m' : ℕ → ℕ) :
    Prop :=
  ∃ D : ℕ → ℤ, (∀ i digit z, digit_bases[i]? = some digit → zs[i]? = some z →
      (∀ p ∈ z.base_, (z.valueAt m' p : ℤ) = D i % p.toNat) ∧
      (∃ X, x.Lifts m X) ∧ (∀ X, x.Lifts m X → D i ≡ X [ZMOD baseProduct digit]) ∧
      2 * |D i| < digit.length * baseProduct digit) ∧
    ∀ q ∈ x.base_, ∑ i ∈ Finset.range digit_bases.length,
      D i * (baseProduct x.base_ / digitProduct digit_bases i : ℕ) *
        inverse (baseProduct x.base_ / digitProduct digit_bases i) (digitProduct digit_bases i) ≡
      x.valueAt m q [ZMOD q.toNat]

section Decomposition

variable {s : Session} {x : MRP} {digit_bases : List ModuliBase} {p_base : ModuliBase}

theorem computes_dig_decomp (hx : PrimeBase x.base_) (hmade : x.MadeBefore s.next_address_)
    (hodd : ∀ q ∈ x.base_, q.toNat % 2 = 1) (hdigits : Partition x.base_ digit_bases)
    (hp : ∀ p ∈ p_base, 0 < p.toNat) (shape : FbcCenterShape) :
    Computes (dig_decomp x digit_bases p_base shape) s
      (fun zs _ => List.Forall₂ (fun _ z => z.base_ = x.base_ ++ p_base) digit_bases zs)
      fun zs m => List.Forall₂ (fun digit z => ∀ r, x.subset digit = some r →
        ∀ p ∈ x.base_ ++ p_base, r.convertedAt .ReducedNoise m p (z.valueAt m p)) digit_bases zs := by
  have htarget : ∀ p ∈ x.base_ ++ p_base, 0 < p.toNat :=
    List.forall_mem_append.mpr ⟨fun q hq => (hx.prime q hq).pos, hp⟩
  unfold dig_decomp
  apply computes_mapM (R := fun _ (z : MRP) _ => z.base_ = x.base_ ++ p_base)
    (fun _ _ _ _ _ h => h)
  intro digit hdigit s₁ hle
  have hsub := hdigits.sub hdigit
  obtain ⟨r, hr⟩ := MRP.exists_subset hsub
  have hbase := MRP.subset_base hr
  apply (computes_mr_subset hr).bind
  rintro _ s₂ hle₂ rfl
  apply (computes_fast_base_convert (hbase ▸ (hdigits.primeBase hx hdigit).positive)
    (hbase ▸ hdigits.nonempty digit hdigit) ((hmade.mono (hle.trans hle₂)).subset hr)
    (fun _ q hq => hodd q (hsub q (hbase ▸ hq))) htarget shape).mono
  · exact fun _ _ _ h => h.1
  · intro z n m _ _ hvalues _ r' hr'
    obtain rfl : r' = _ := Option.some.inj (hr'.symm.trans hr)
    exact hvalues

/-- The integer of a digit. -/
def MRP.digitAt (x : MRP) (digit_bases : List ModuliBase) (m : ℕ → ℕ) (i : ℕ) : ℤ :=
  ((x.subset (digit_bases.getD i [])).map fun r => r.fbcSum .ReducedNoise m).getD 0

theorem MRP.digitAt_of_subset {r : MRP} {i : ℕ} (h : x.subset (digit_bases.getD i []) = some r)
    (m : ℕ → ℕ) : x.digitAt digit_bases m i = r.fbcSum .ReducedNoise m := by
  rw [MRP.digitAt, h, Option.map_some, Option.getD_some]

/-- A digit is the number modulo the product of its primes. -/
theorem PrimeBase.digitAt_modEq (hx : PrimeBase x.base_) (hdigits : Partition x.base_ digit_bases)
    {i : ℕ} (hi : i < digit_bases.length) {m : ℕ → ℕ} {X : ℤ} (hX : x.Lifts m X) :
    x.digitAt digit_bases m i ≡ X [ZMOD digitProduct digit_bases i] := by
  have hsub := hdigits.sub (digit_mem hi)
  obtain ⟨r, hr⟩ := MRP.exists_subset hsub
  have hbase := MRP.subset_base hr
  have hrprime : PrimeBase r.base_ := hbase ▸ hdigits.primeBase hx (digit_mem hi)
  rw [MRP.digitAt_of_subset hr, digitProduct, ← hbase]
  exact hrprime.lifts_modEq m (hrprime.fbcSum_lifts m _) (hX.subset hr hsub)

/-- **The digits add up** to the number at every prime of the base. -/
theorem PrimeBase.sum_digits (hx : PrimeBase x.base_) (hdigits : Partition x.base_ digit_bases)
    (m : ℕ → ℕ) : ∀ q ∈ x.base_, ∑ i ∈ Finset.range digit_bases.length,
      x.digitAt digit_bases m i * (baseProduct x.base_ / digitProduct digit_bases i : ℕ) *
        inverse (baseProduct x.base_ / digitProduct digit_bases i) (digitProduct digit_bases i) ≡
      x.valueAt m q [ZMOD q.toNat] := by
  intro q hq
  have hX := hx.fbcSum_lifts m .Standard
  have hsum := sum_mul_inverse (hdigits.coprimes hx) (D := x.digitAt digit_bases m)
    fun i hi => hx.digitAt_modEq hdigits (Finset.mem_range.mp hi) hX
  rw [hdigits.product] at hsum
  have hdvd : ((q.toNat : ℕ) : ℤ) ∣ (baseProduct x.base_ : ℕ) := by
    rw [Int.natCast_dvd_natCast]
    exact List.dvd_prod (List.mem_map.mpr ⟨q, hq, rfl⟩)
  have hcofactors : ∑ i ∈ Finset.range digit_bases.length,
      x.digitAt digit_bases m i * (baseProduct x.base_ / digitProduct digit_bases i : ℕ) *
        inverse (baseProduct x.base_ / digitProduct digit_bases i) (digitProduct digit_bases i) =
      ∑ i ∈ Finset.range digit_bases.length, x.digitAt digit_bases m i *
        cofactor (Finset.range digit_bases.length) (digitProduct digit_bases) i *
        inverse (cofactor (Finset.range digit_bases.length) (digitProduct digit_bases) i)
          (digitProduct digit_bases i) := by
    apply Finset.sum_congr rfl
    intro i hi
    rw [hdigits.cofactor_eq hx (Finset.mem_range.mp hi)]
  rw [hcofactors]
  exact (hsum.of_dvd hdvd).trans (hX q hq)

/-- **A digit is one integer** at every prime, its own and the others. -/
theorem PrimeBase.digit_residues (hx : PrimeBase x.base_) (hdigits : Partition x.base_ digit_bases)
    {i : ℕ} (hi : i < digit_bases.length) {r z : MRP} (hr : x.subset (digit_bases.getD i []) = some r)
    {m : ℕ → ℕ} (hreduced : x.Reduced m) {p : UInt64}
    (hz : r.convertedAt .ReducedNoise m p (z.valueAt m p)) :
    (z.valueAt m p : ℤ) = x.digitAt digit_bases m i % p.toNat := by
  have hbase := MRP.subset_base hr
  have hsub := hdigits.sub (digit_mem hi)
  rw [MRP.convertedAt, hbase] at hz
  rw [MRP.digitAt_of_subset hr]
  split at hz
  · rename_i hmem
    have hrprime : PrimeBase r.base_ := hbase ▸ hdigits.primeBase hx (digit_mem hi)
    have hlift := hrprime.fbcSum_lifts m .ReducedNoise p (hbase ▸ hmem)
    apply eq_emod_of_modEq
    · rw [hz, MRP.subset_valueAt hr hmem]
      exact hreduced p (hsub p hmem)
    · rw [hz]
      exact hlift.symm
  · exact hz

theorem PrimeBase.digitAt_bound (hx : PrimeBase x.base_) (hodd : ∀ q ∈ x.base_, q.toNat % 2 = 1)
    (hdigits : Partition x.base_ digit_bases) {i : ℕ} (hi : i < digit_bases.length) (m : ℕ → ℕ) :
    2 * |x.digitAt digit_bases m i| <
      (digit_bases.getD i []).length * baseProduct (digit_bases.getD i []) := by
  have hsub := hdigits.sub (digit_mem hi)
  obtain ⟨r, hr⟩ := MRP.exists_subset hsub
  have hbase := MRP.subset_base hr
  have hrprime : PrimeBase r.base_ := hbase ▸ hdigits.primeBase hx (digit_mem hi)
  rw [MRP.digitAt_of_subset hr, ← hbase]
  have hbounds : FbcVariant.Bounds .ReducedNoise _ _ (r.fbcSum .ReducedNoise m) :=
    hrprime.fbcSum_bounds m (hbase ▸ hdigits.nonempty _ (digit_mem hi))
      fun _ q hq => hodd q (hsub q (hbase ▸ hq))
  exact hbounds

/-- **Digits are a gadget decomposition.** The recorded instructions, replayed, leave
each digit as the residues of one small integer over the extended base, and the
digits add up. -/
theorem dig_decomp_recomposes {M : NativeMath} (hM : M.Exact) (hs : s.Recording)
    (hmade : x.MadeBefore s.next_address_) (hx : PrimeBase x.base_)
    (hodd : ∀ q ∈ x.base_, q.toNat % 2 = 1) (hdigits : Partition x.base_ digit_bases)
    (hp : ∀ p ∈ p_base, p.toNat.Prime) (shape : FbcCenterShape) :
    Replays M (dig_decomp x digit_bases p_base shape) s fun zs impl impl' =>
      zs.length = digit_bases.length ∧ (∀ z ∈ zs, z.base_ = x.base_ ++ p_base) ∧
        ∀ j < impl.ring_dim, x.Reduced (impl.coefficient j) →
          x.DecomposesTo zs digit_bases (impl.coefficient j) (impl'.coefficient j) := by
  have hcomputes := computes_dig_decomp hx hmade hodd hdigits (fun p h => (hp p h).pos) shape
  apply (hcomputes.replays hM hs).mono
  rintro zs impl impl' ⟨⟨_, hbases⟩, hj⟩
  refine ⟨hbases.length_eq.symm, fun z hz => ?_, fun j hlt hreduced => ?_⟩
  · obtain ⟨_, -, hbase⟩ := exists_of_forall₂ hbases z hz
    exact hbase
  obtain ⟨hvalues, hframe⟩ := hj j hlt
  have hsame := MRP.valueAt_congr hmade hframe
  generalize impl'.coefficient j = m' at *
  generalize impl.coefficient j = m at *
  have hlifts : ∀ X, x.Lifts m X → x.Lifts m' X := fun X hX q hq => by
    rw [hsame]
    exact hX q hq
  have hreduced' : x.Reduced m' := fun q hq => by
    rw [hsame]
    exact hreduced q hq
  refine ⟨x.digitAt digit_bases m', fun i digit z hdigit hz => ?_, fun q hq => ?_⟩
  · obtain ⟨hi, rfl⟩ := List.getElem?_eq_some_iff.mp hdigit
    obtain ⟨hi', rfl⟩ := List.getElem?_eq_some_iff.mp hz
    rw [← List.getD_eq_getElem _ [] hi]
    obtain ⟨r, hr⟩ := MRP.exists_subset (hdigits.sub (digit_mem hi))
    refine ⟨fun p hpz => ?_, ⟨_, hx.fbcSum_lifts m .Standard⟩, fun X hX => ?_,
      hx.digitAt_bound hodd hdigits hi m'⟩
    · obtain ⟨_, -, hbase⟩ := exists_of_forall₂ hbases _ (List.getElem_mem hi')
      have hconverted := hvalues.get hi hi' r (by
        rw [List.get_eq_getElem, ← List.getD_eq_getElem _ [] hi]
        exact hr) p (hbase ▸ hpz)
      exact hx.digit_residues hdigits hi hr hreduced' hconverted
    · exact hx.digitAt_modEq hdigits hi (hlifts X hX)
  · rw [← hsame]
    exact hx.sum_digits hdigits m' q hq

theorem dig_decomp_recomposes_sample :
    Replays referenceMath (dig_decomp sampleResidues [[5, 3], [7]] [11] .ThreeOp) sampleSession
      fun zs impl impl' => zs.length = ([[5, 3], [7]] : List ModuliBase).length ∧
        (∀ z ∈ zs, z.base_ = sampleResidues.base_ ++ [11]) ∧
          ∀ j < impl.ring_dim, sampleResidues.Reduced (impl.coefficient j) →
            sampleResidues.DecomposesTo zs [[5, 3], [7]] (impl.coefficient j) (impl'.coefficient j) :=
  dig_decomp_recomposes referenceMath_exact sampleSession_recording sampleResidues_madeBefore
    sampleResidues_primeBase sampleResidues_odd ⟨by decide, by decide⟩
    (by
      simp only [List.forall_mem_singleton]
      exact Nat.prime_eleven) .ThreeOp

end Decomposition

end Fhetch
