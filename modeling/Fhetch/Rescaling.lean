/-
Rescaling.

The residues of the dropped primes are converted to the others, subtracted, and the
difference is divided by the product `P` of the dropped primes, modulo each of the
others. The subtracted residues all reduce one integer that is congruent to the
number modulo `P`, so the division is exact over the integers and the results are
the residues of one quotient. How near it is to the true quotient is the overshoot
of the conversion, divided by `P`.
-/
import Fhetch.BaseConversion
import Mathlib.Algebra.Order.Field.Rat

set_option autoImplicit false

namespace Fhetch

/-! ## Residues of some of the primes -/

section Subset

variable {s : Session} {x r : MRP} {subbase : ModuliBase}

/-- A subset is over the moduli that were asked for. -/
theorem MRP.subset_base (h : x.subset subbase = some r) : r.base_ = subbase := by
  unfold MRP.subset at h
  split at h
  · rw [← Option.some.inj h]
  · exact absurd h (Option.some_ne_none r).symm

/-- It has the residues of the whole, and none besides. -/
theorem MRP.subset_residues (h : x.subset subbase = some r) (q : UInt64) :
    r.residues_ q = if q ∈ subbase then x.residues_ q else none := by
  unfold MRP.subset at h
  split at h
  · rw [← Option.some.inj h]
  · exact absurd h (Option.some_ne_none r).symm

/-- Moduli of the base are always a subset. -/
theorem MRP.exists_subset (h : ∀ q ∈ subbase, q ∈ x.base_) : ∃ r, x.subset subbase = some r := by
  have hall : subbase.all (· ∈ x.base_) := List.all_eq_true.mpr fun q hq => decide_eq_true (h q hq)
  unfold MRP.subset
  rw [dif_pos hall]
  exact ⟨_, rfl⟩

/-- Its residues have the values they had. -/
theorem MRP.subset_valueAt (h : x.subset subbase = some r) {q : UInt64} (hq : q ∈ subbase)
    (m : ℕ → ℕ) : r.valueAt m q = x.valueAt m q := by
  rw [MRP.valueAt, MRP.valueAt, MRP.subset_residues h, if_pos hq]

/-- They were made when the whole was. -/
theorem MRP.MadeBefore.subset {n : ℕ} (hmade : x.MadeBefore n) (h : x.subset subbase = some r) :
    r.MadeBefore n := by
  intro q p hp
  rw [MRP.subset_residues h] at hp
  split at hp
  · exact hmade q p hp
  · exact absurd hp (Option.some_ne_none p).symm

/-- What was made before was made before anything later. -/
theorem MRP.MadeBefore.mono {n n' : ℕ} (hmade : x.MadeBefore n) (h : n ≤ n') : x.MadeBefore n' :=
  fun q p hp => (hmade q p hp).trans_le h

/-- An integer with all residues has these. -/
theorem MRP.Lifts.subset {m : ℕ → ℕ} {X : ℤ} (hX : x.Lifts m X) (h : x.subset subbase = some r)
    (hsub : ∀ q ∈ subbase, q ∈ x.base_) : r.Lifts m X := by
  intro q hq
  rw [MRP.subset_base h] at hq
  rw [MRP.subset_valueAt h hq]
  exact hX q (hsub q hq)

/-- Some of the primes are primes. -/
theorem PrimeBase.subset {base : ModuliBase} (h : PrimeBase base) (hnodup : subbase.Nodup)
    (hsub : ∀ q ∈ subbase, q ∈ base) : PrimeBase subbase :=
  ⟨hnodup, fun q hq => h.prime q (hsub q hq)⟩

/-- Taking a subset records nothing. -/
theorem computes_mr_subset (h : x.subset subbase = some r) :
    Computes (mr_subset x subbase) s (fun r' _ => r' = r) fun _ _ => True := by
  refine ⟨r, s, [], ?_, .refl s, rfl, fun _ _ => trivial⟩
  show (x.subset subbase).map (·, s) = _
  rw [h, Option.map_some]

/-- A check that holds records nothing. -/
theorem computes_guard {p : Prop} [Decidable p] (h : p) :
    Computes (guard p) s (fun _ _ => True) fun _ _ => True := by
  rw [guard, if_pos h]
  exact computes_pure trivial fun _ => trivial

end Subset

/-! ## Division -/

/-- How near to `X / P` the quotient is, over `k` primes. -/
def FbcVariant.Near (variant : FbcVariant) (k P : ℕ) (X Z : ℤ) : Prop :=
  match variant with
  | .Standard => (X / P : ℚ) - k < Z ∧ (Z : ℚ) ≤ X / P
  | .ReducedNoise => |(Z : ℚ) - X / P| < k / 2

/-- The bounds on the error of the base conversion bound that of the quotient. -/
theorem FbcVariant.Bounds.near {variant : FbcVariant} {k P : ℕ} {X Z S : ℤ} (hP : 0 < P)
    (h : variant.Bounds k P S) (hZ : P * Z = X - S) : variant.Near k P X Z := by
  have hpos : (0 : ℚ) < P := Nat.cast_pos.mpr hP
  have hquotient : (Z : ℚ) - X / P = -S / P := by
    have hcast : (P : ℚ) * Z = X - S := by exact_mod_cast hZ
    rw [eq_div_iff hpos.ne', sub_mul, div_mul_cancel₀ _ hpos.ne', mul_comm, hcast]
    ring
  cases variant with
  | Standard =>
    obtain ⟨hnonneg, hlt⟩ := h
    have hlt' : (S : ℚ) / P < k := by
      rw [div_lt_iff₀ hpos]
      exact_mod_cast hlt
    have hnonneg' : (0 : ℚ) ≤ S / P := div_nonneg (by exact_mod_cast hnonneg) hpos.le
    rw [neg_div] at hquotient
    exact ⟨by linarith, by linarith⟩
  | ReducedNoise =>
    have hlt : (2 : ℚ) * |(S : ℚ)| < k * P := by exact_mod_cast h
    show |(Z : ℚ) - X / P| < k / 2
    rw [hquotient, abs_div, abs_neg, abs_of_pos hpos, div_lt_iff₀ hpos]
    linarith

/-- One coefficient before and after a rescaling. -/
def MRP.RescalesTo (x z : MRP) (rescale_base : ModuliBase) (variant : FbcVariant) (m m' : ℕ → ℕ) :
    Prop :=
  (∃ X, x.Lifts m X) ∧ ∀ X, x.Lifts m X → ∃ Z S : ℤ, baseProduct rescale_base * Z = X - S ∧
    S ≡ X [ZMOD baseProduct rescale_base] ∧
    variant.Bounds rescale_base.length (baseProduct rescale_base) S ∧
    variant.Near rescale_base.length (baseProduct rescale_base) X Z ∧
    ∀ q ∈ z.base_, (z.valueAt m' q : ℤ) = Z % q.toNat

section Rescaling

variable {s : Session} {x r : MRP} {rescale_base : ModuliBase} {variant : FbcVariant}

/-- One residue of the result: a subtraction and a multiplication by the inverse. -/
theorem computes_rescale_residue {x_q y_q : Polynomial} {q P_inv_q : UInt64} (hq : q ≠ 0)
    (hx : x_q.address < s.next_address_) (hy : y_q.address < s.next_address_) :
    Computes (rescale_residue x_q y_q q P_inv_q) s (fun r n => r.address < n) fun r m =>
      m r.address = (m x_q.address + (q.toNat - m y_q.address % q.toNat)) % q.toNat *
        P_inv_q.toNat % q.toNat := by
  unfold rescale_residue
  apply (computes_subp hq hx hy).bind
  intro diff s₁ _ hdiff
  apply (computes_scale hq hdiff).mono (fun _ _ _ h => h)
  intro r _ m _ _ hr hvalue
  rw [hr, hvalue]

/-- A subtraction and a multiplication, over the integers. -/
theorem rescaled_modEq {a b q c : ℕ} (hq : 0 < q) :
    (((a + (q - b % q)) % q * c % q : ℕ) : ℤ) ≡ ((a : ℤ) - b) * c [ZMOD q] := by
  have hle : b % q ≤ q := (Nat.mod_lt b hq).le
  have hsub : (((a + (q - b % q)) % q : ℕ) : ℤ) ≡ (a : ℤ) - b [ZMOD q] := by
    have hmod : ((b % q : ℕ) : ℤ) ≡ b [ZMOD q] := Int.natCast_modEq_iff.mpr (Nat.mod_modEq b q)
    calc (((a + (q - b % q)) % q : ℕ) : ℤ)
        ≡ ((a + (q - b % q) : ℕ) : ℤ) [ZMOD q] := Int.natCast_modEq_iff.mpr (Nat.mod_modEq _ _)
      _ = (a - (b % q : ℕ) : ℤ) + q := by
          rw [Nat.cast_add, Nat.cast_sub hle]
          ring
      _ ≡ (a : ℤ) - (b % q : ℕ) [ZMOD q] := Int.add_modEq_right
      _ ≡ (a : ℤ) - b [ZMOD q] := hmod.sub_left _
  calc (((a + (q - b % q)) % q * c % q : ℕ) : ℤ)
      ≡ (((a + (q - b % q)) % q * c : ℕ) : ℤ) [ZMOD q] := Int.natCast_modEq_iff.mpr (Nat.mod_modEq _ _)
    _ = (((a + (q - b % q)) % q : ℕ) : ℤ) * c := Nat.cast_mul _ _
    _ ≡ ((a : ℤ) - b) * c [ZMOD q] := hsub.mul_right _

/-- What is left of the base are the primes that are not dropped. -/
theorem mem_target {source_base : ModuliBase} {q : UInt64}
    (h : q ∈ target_after_rescale source_base rescale_base) : q ∈ source_base ∧ q ∉ rescale_base := by
  rw [target_after_rescale, List.mem_filter, decide_eq_true_iff] at h
  exact h

/-- Dropping a prime of the base leaves fewer. -/
theorem target_shorter {source_base : ModuliBase} (hne : rescale_base ≠ [])
    (hsub : ∀ q ∈ rescale_base, q ∈ source_base) :
    (target_after_rescale source_base rescale_base).length < source_base.length := by
  obtain ⟨q, hq⟩ := List.exists_mem_of_ne_nil _ hne
  apply lt_of_le_of_ne (List.length_filter_le _ _)
  intro heq
  have hall := List.length_filter_eq_length_iff.mp heq q (hsub q hq)
  exact absurd hq (of_decide_eq_true hall)

/-- The inverses beside their primes. -/
theorem zip_P_inv (rescale_base target_base : ModuliBase) :
    (target_base.zip (P_inv_mod_q rescale_base target_base)).map Prod.fst = target_base ∧
      ∀ pair ∈ target_base.zip (P_inv_mod_q rescale_base target_base),
        pair.1 ∈ target_base ∧ pair.2 = modinv_prime (prod_mod rescale_base pair.1) pair.1 := by
  have hzip : target_base.zip (P_inv_mod_q rescale_base target_base) =
      target_base.map fun q => (q, modinv_prime (prod_mod rescale_base q) q) :=
    List.map_prod_left_eq_zip.symm
  rw [hzip, List.map_map]
  refine ⟨List.map_id _, fun pair hpair => ?_⟩
  obtain ⟨q, hq, rfl⟩ := List.mem_map.mp hpair
  exact ⟨hq, rfl⟩

/-- What a rescaling records, residue by residue: the base conversion of the dropped ones,
and one residue of the result for each prime that is left. -/
theorem computes_rescale_fbc (hpos : ∀ q ∈ x.base_, 0 < q.toNat)
    (hmade : x.MadeBefore s.next_address_) (hne : rescale_base ≠ []) (hsub : ∀ q ∈ rescale_base, q ∈ x.base_)
    (hr : x.subset rescale_base = some r)
    (hodd : variant = .ReducedNoise → ∀ q ∈ x.base_, q.toNat % 2 = 1) (shape : FbcCenterShape) :
    Computes (rescale_fbc x rescale_base variant shape) s
      (fun z _ => z.base_ = target_after_rescale x.base_ rescale_base)
      fun z m => ∀ q ∈ target_after_rescale x.base_ rescale_base, z.valueAt m q < q.toNat ∧
        (z.valueAt m q : ℤ) ≡ (x.valueAt m q - r.fbcSum variant m) *
          (modinv_prime (prod_mod rescale_base q) q).toNat [ZMOD q.toNat] := by
  have hbase := MRP.subset_base hr
  have htarget : ∀ q ∈ target_after_rescale x.base_ rescale_base, 0 < q.toNat :=
    fun q hq => hpos q (mem_target hq).1
  obtain ⟨hkeys, hinverse⟩ := zip_P_inv rescale_base
    (target_after_rescale x.base_ rescale_base)
  unfold rescale_fbc
  apply (computes_guard hne).bind
  intro _ s₁ hle₁ _
  apply (computes_guard (target_shorter hne hsub)).bind
  intro _ s₂ hle₂ _
  apply (computes_mr_subset hr).bind
  rintro r' s₃ hle₃ rfl
  have hmade₃ := hmade.mono (hle₁.trans (hle₂.trans hle₃))
  apply (computes_fast_base_convert (x := r') (fun q hq => hpos q (hsub q (hbase ▸ hq)))
    (hbase ▸ hne) (hmade₃.subset hr) (fun h q hq => hodd h q (hsub q (hbase ▸ hq))) htarget shape).bind
  rintro y s₄ hle₄ ⟨hybase, hymade⟩
  refine Computes.mono (computes_from_pairs Prod.fst (Q := fun pair v m =>
    v = (x.valueAt m pair.1 + (pair.1.toNat - y.valueAt m pair.1 % pair.1.toNat)) % pair.1.toNat *
      pair.2.toNat % pair.1.toNat) ?_) ?_ ?_
  · rintro ⟨q, P_inv_q⟩ hmem s₅ hle₅
    have hq := (hinverse _ hmem).1
    have hq₀ : q ≠ 0 := by
      rintro rfl
      exact absurd (htarget 0 hq) (by decide)
    obtain ⟨x_q, hx_q⟩ := x.exists_residue (mem_target hq).1
    obtain ⟨y_q, hy_q⟩ := y.exists_residue (q := q) (hybase ▸ hq)
    apply (computes_at hx_q).bind
    rintro _ s₆ hle₆ rfl
    apply (computes_at hy_q).bind
    rintro _ s₇ hle₇ rfl
    have hle := hle₅.trans (hle₆.trans hle₇)
    apply (computes_rescale_residue hq₀ ((hmade₃.mono (hle₄.trans hle)) q _ hx_q)
      (hymade.mono hle q _ hy_q)).bind
    intro z s₈ _ hz
    apply computes_pure ⟨rfl, hz⟩
    intro m hvalue _ _
    rw [MRP.valueAt_of_some hx_q, MRP.valueAt_of_some hy_q]
    exact hvalue
  · rintro z n _ ⟨hzbase, -⟩
    rw [hzbase, hkeys]
  · intro z n m _ _ hvalues hconverted _ _ _ q hq
    obtain ⟨pair, hpair, rfl, hvalue⟩ := hvalues q (hkeys.symm ▸ hq)
    have hy := hconverted pair.1 hq
    rw [MRP.convertedAt, if_neg (by rw [hbase]; exact (mem_target hq).2)] at hy
    rw [hvalue, (hinverse pair hpair).2]
    refine ⟨Nat.mod_lt _ (htarget _ hq), (rescaled_modEq (htarget _ hq)).trans ?_⟩
    apply Int.ModEq.mul_right
    apply Int.ModEq.sub_left
    rw [hy]
    exact Int.mod_modEq _ _

/-- The product of primes is invertible modulo any other prime. -/
theorem P_inv_spec (hx : PrimeBase x.base_) (hsub : ∀ q ∈ rescale_base, q ∈ x.base_) {q : UInt64}
    (hq : q ∈ target_after_rescale x.base_ rescale_base) :
    (baseProduct rescale_base * (modinv_prime (prod_mod rescale_base q) q).toNat : ℤ) ≡ 1
      [ZMOD q.toNat] := by
  obtain ⟨hmem, hout⟩ := mem_target hq
  have hprime := hx.prime q hmem
  have hprod : (prod_mod rescale_base q).toNat ≡ baseProduct rescale_base [MOD q.toNat] := by
    rw [prod_mod_toNat hprime.pos]
    exact Nat.mod_modEq _ _
  have hcoprime : (baseProduct rescale_base).Coprime q.toNat := by
    rw [baseProduct, Nat.coprime_list_prod_left_iff]
    intro _ hmap
    obtain ⟨p, hp, rfl⟩ := List.mem_map.mp hmap
    apply (Nat.coprime_primes (hx.prime p (hsub p hp)) hprime).mpr
    intro heq
    rw [UInt64.toNat_inj] at heq
    exact hout (heq ▸ hp)
  have hinverse := modinv_prime_spec hprime (hprod.gcd_eq.trans hcoprime)
  rw [← Nat.cast_mul, ← Nat.cast_one, Int.natCast_modEq_iff]
  exact (hprod.symm.mul_right _).trans hinverse

/-- A product of primes is positive. -/
theorem PrimeBase.product_pos {base : ModuliBase} (h : PrimeBase base) : 0 < baseProduct base := by
  rw [← prod_modulusAt]
  exact Finset.prod_pos h.pos

/-- **Rescaling divides.** The recorded instructions, replayed, leave the residues of
one quotient by the product of the dropped primes, in the order of the base. -/
theorem rescale_fbc_divides {M : NativeMath} (hM : M.Exact) (hs : s.Recording)
    (hmade : x.MadeBefore s.next_address_) (hx : PrimeBase x.base_)
    (hodd : variant = .ReducedNoise → ∀ q ∈ x.base_, q.toNat % 2 = 1) (hne : rescale_base ≠ [])
    (hnodup : rescale_base.Nodup) (hsub : ∀ q ∈ rescale_base, q ∈ x.base_) (shape : FbcCenterShape) :
    Replays M (rescale_fbc x rescale_base variant shape) s fun z impl impl' =>
      z.base_ = x.base_.filter (· ∉ rescale_base) ∧ ∀ j < impl.ring_dim,
        x.RescalesTo z rescale_base variant (impl.coefficient j) (impl'.coefficient j) := by
  obtain ⟨r, hr⟩ := MRP.exists_subset hsub
  have hbase := MRP.subset_base hr
  have hrprime : PrimeBase r.base_ := hbase ▸ hx.subset hnodup hsub
  have hcomputes := computes_rescale_fbc hx.positive hmade hne hsub hr hodd shape
  apply (hcomputes.replays hM hs).mono
  rintro z impl impl' ⟨⟨_, hzbase⟩, hj⟩
  refine ⟨hzbase, fun j hlt => ?_⟩
  obtain ⟨hvalues, hframe⟩ := hj j hlt
  have hsame := MRP.valueAt_congr hmade hframe
  generalize impl'.coefficient j = m' at *
  generalize impl.coefficient j = m at *
  have hlifts : ∀ X, x.Lifts m X → x.Lifts m' X := fun X hX q hq => by
    rw [hsame]
    exact hX q hq
  refine ⟨⟨x.fbcSum .Standard m, hx.fbcSum_lifts m .Standard⟩, fun X hX => ?_⟩
  have hS := hrprime.lifts_modEq m' (hrprime.fbcSum_lifts m' variant) ((hlifts X hX).subset hr hsub)
  have hbounds : variant.Bounds _ _ (r.fbcSum variant m') := hrprime.fbcSum_bounds m' (hbase ▸ hne)
    fun h q hq => hodd h q (hsub q (hbase ▸ hq))
  rw [hbase] at hS hbounds
  obtain ⟨Z, hZ⟩ := hS.dvd
  refine ⟨Z, r.fbcSum variant m', hZ.symm, hS, hbounds,
    hbounds.near (hx.subset hnodup hsub).product_pos hZ.symm, fun q hq => ?_⟩
  rw [hzbase] at hq
  obtain ⟨hzlt, hz⟩ := hvalues q hq
  apply eq_emod_of_modEq hzlt
  calc (z.valueAt m' q : ℤ)
      ≡ (x.valueAt m' q - r.fbcSum variant m') *
          (modinv_prime (prod_mod rescale_base q) q).toNat [ZMOD q.toNat] := hz
    _ ≡ (X - r.fbcSum variant m') * (modinv_prime (prod_mod rescale_base q) q).toNat
          [ZMOD q.toNat] :=
        ((hlifts X hX q (mem_target hq).1).symm.sub_right _).mul_right _
    _ = Z * (baseProduct rescale_base * (modinv_prime (prod_mod rescale_base q) q).toNat) := by
        rw [hZ]
        ring
    _ ≡ Z * 1 [ZMOD q.toNat] := (P_inv_spec hx hsub hq).mul_left _
    _ = Z := mul_one Z

/-- Three primes, of which one is dropped. -/
theorem rescale_fbc_divides_sample :
    Replays referenceMath (rescale_fbc sampleResidues [7] .ReducedNoise .FourOp) sampleSession
      fun z impl impl' => z.base_ = sampleResidues.base_.filter (· ∉ ([7] : ModuliBase)) ∧
        ∀ j < impl.ring_dim, sampleResidues.RescalesTo z [7] .ReducedNoise (impl.coefficient j)
          (impl'.coefficient j) :=
  rescale_fbc_divides referenceMath_exact sampleSession_recording sampleResidues_madeBefore
    sampleResidues_primeBase (fun _ => sampleResidues_odd) (List.cons_ne_nil 7 [])
    (List.nodup_singleton 7)
    (List.forall_mem_singleton.mpr (List.mem_cons_of_mem _ (List.mem_cons_of_mem _ List.mem_cons_self)))
    .FourOp

end Rescaling

end Fhetch
