/-
What the client computes with 64-bit words: products and powers under a modulus,
and the inverse modulo a prime.
-/
import Fhetch.Gadgets
import Fhetch.Lib.Crt
import Mathlib.FieldTheory.Finite.Basic

set_option autoImplicit false

namespace Fhetch

/-! ## Products and powers -/

theorem toNat_mod_lt {m : UInt64} (hm : 0 < m.toNat) (n : ℕ) : n % m.toNat < 2 ^ 64 :=
  (Nat.mod_lt n hm).trans m.toNat_lt

theorem mulmod_toNat {a b m : UInt64} (hm : 0 < m.toNat) :
    (mulmod_u64 a b m).toNat = a.toNat * b.toNat % m.toNat :=
  UInt64.toNat_ofNat_of_lt' (toNat_mod_lt hm _)

theorem one_mod_toNat (m : UInt64) : (1 % m : UInt64).toNat = 1 % m.toNat := UInt64.toNat_mod 1 m

/-- **Square and multiply.** With enough rounds for the bits of the exponent the loop
multiplies its result by the power. -/
theorem powmod_loop_toNat {m : UInt64} (hm : 0 < m.toNat) (fuel : ℕ) {r a e : UInt64}
    (he : e.toNat < 2 ^ fuel) (hr : r.toNat < m.toNat) :
    (powmod_loop m fuel r a e).toNat = r.toNat * a.toNat ^ e.toNat % m.toNat := by
  induction fuel generalizing r a e with
  | zero =>
    have hzero : e.toNat = 0 := by omega
    rw [powmod_loop, hzero, pow_zero, mul_one, Nat.mod_eq_of_lt hr]
  | succ fuel ih =>
    rw [powmod_loop]
    split
    · have hhalf : (e >>> 1).toNat = e.toNat / 2 := by
        rw [UInt64.toNat_shiftRight]
        exact Nat.shiftRight_eq_div_pow _ 1
      have hbit : (e &&& 1 ≠ 0) ↔ e.toNat % 2 = 1 := by
        rw [ne_eq, ← UInt64.toNat_inj, UInt64.toNat_and]
        show ¬ (e.toNat &&& 1 = 0) ↔ _
        rw [Nat.and_one_is_mod]
        omega
      have hlt : (e >>> 1).toNat < 2 ^ fuel := by
        rw [hhalf]
        omega
      -- one bit of the exponent against one squaring of the base
      have hsquare : ∀ n, (a.toNat * a.toNat % m.toNat) ^ n ≡ a.toNat ^ (2 * n) [MOD m.toNat] := by
        intro n
        rw [pow_mul, pow_two]
        exact (Nat.mod_modEq _ _).pow n
      by_cases hodd : e &&& 1 ≠ 0
      · rw [if_pos hodd, ih hlt (by rw [mulmod_toNat hm]; exact Nat.mod_lt _ hm), mulmod_toNat hm,
          mulmod_toNat hm, hhalf]
        have hexp : e.toNat = 1 + 2 * (e.toNat / 2) := by
          have := hbit.mp hodd
          omega
        conv_rhs => rw [hexp, pow_add, pow_one, ← mul_assoc]
        exact (Nat.mod_modEq _ _).mul (hsquare _)
      · rw [if_neg hodd, ih hlt hr, mulmod_toNat hm, hhalf]
        have hexp : e.toNat = 2 * (e.toNat / 2) := by
          have := hbit.not.mp hodd
          omega
        conv_rhs => rw [hexp]
        exact (hsquare _).mul_left _
    · rename_i hpos
      have hzero : e.toNat = 0 := by
        have := UInt64.lt_iff_toNat_lt.not.mp hpos
        change ¬ (0 < e.toNat) at this
        omega
      rw [hzero, pow_zero, mul_one, Nat.mod_eq_of_lt hr]

theorem powmod_toNat {a e m : UInt64} (hm : 1 < m.toNat) :
    (powmod_u64 a e m).toNat = a.toNat ^ e.toNat % m.toNat := by
  have hone : (1 % m : UInt64).toNat = 1 := by
    rw [one_mod_toNat, Nat.mod_eq_of_lt hm]
  rw [powmod_u64, powmod_loop_toNat (by omega) 64 e.toNat_lt (by rw [hone]; exact hm), hone, one_mul,
    UInt64.toNat_mod]
  exact ((Nat.mod_modEq _ _).pow _)

/-- **Fermat.** -/
theorem modinv_prime_spec {a p : UInt64} (hp : p.toNat.Prime) (ha : a.toNat.Coprime p.toNat) :
    a.toNat * (modinv_prime a p).toNat ≡ 1 [MOD p.toNat] := by
  have htwo := hp.two_le
  have hsub : (p - 2).toNat = p.toNat - 2 := by
    rw [UInt64.toNat_sub_of_le p 2 (UInt64.le_iff_toNat_le.mpr htwo)]
    rfl
  rw [modinv_prime, powmod_toNat hp.one_lt, hsub, UInt64.toNat_mod]
  have hpow : (a.toNat % p.toNat) ^ (p.toNat - 2) % p.toNat ≡ a.toNat ^ (p.toNat - 2) [MOD p.toNat] :=
    (Nat.mod_modEq _ _).trans ((Nat.mod_modEq _ _).pow _)
  calc a.toNat * ((a.toNat % p.toNat) ^ (p.toNat - 2) % p.toNat)
      ≡ a.toNat * a.toNat ^ (p.toNat - 2) [MOD p.toNat] := hpow.mul_left _
    _ = a.toNat ^ p.toNat.totient := by
        rw [Nat.totient_prime hp, ← pow_succ']
        congr 1
        omega
    _ ≡ 1 [MOD p.toNat] := Nat.ModEq.pow_totient ha

/-! ## Products of a base -/

/-- The modulus at an index. -/
def modulusAt (base : ModuliBase) (i : ℕ) : ℕ := (base.getD i 0).toNat

/-- The product of a base. -/
def baseProduct (base : ModuliBase) : ℕ := (base.map UInt64.toNat).prod

theorem baseProduct_cons (q : UInt64) (base : ModuliBase) :
    baseProduct (q :: base) = q.toNat * baseProduct base := List.prod_cons

theorem prod_modulusAt (base : ModuliBase) :
    ∏ i ∈ Finset.range base.length, modulusAt base i = baseProduct base := by
  induction base with
  | nil => rfl
  | cons q base ih =>
    rw [List.length_cons, Finset.prod_range_succ', baseProduct_cons, ← ih, mul_comm]
    rfl

theorem prod_mod_toNat {base : ModuliBase} {m : UInt64} (hm : 0 < m.toNat) :
    (prod_mod base m).toNat = baseProduct base % m.toNat := by
  have hfold : ∀ r : UInt64, (base.foldl (fun r q => mulmod_u64 r (q % m) m) r).toNat ≡
      r.toNat * baseProduct base [MOD m.toNat] := by
    induction base with
    | nil =>
      intro r
      rw [baseProduct, List.map_nil, List.prod_nil, mul_one]
      rfl
    | cons q base ih =>
      intro r
      rw [List.foldl_cons]
      apply (ih _).trans
      rw [mulmod_toNat hm, UInt64.toNat_mod, baseProduct_cons, ← mul_assoc]
      exact ((Nat.mod_modEq _ _).trans ((Nat.mod_modEq _ _).mul_left _)).mul_right _
  -- the product is reduced, the empty one included
  have hlt : (prod_mod base m).toNat < m.toNat := by
    rw [prod_mod]
    induction base using List.reverseRecOn with
    | nil =>
      rw [List.foldl_nil, one_mod_toNat]
      exact Nat.mod_lt _ hm
    | append_singleton base q _ =>
      rw [List.foldl_append, List.foldl_cons, List.foldl_nil, mulmod_toNat hm]
      exact Nat.mod_lt _ hm
  have hone := (hfold (1 % m)).trans ((show (1 % m : UInt64).toNat ≡ 1 [MOD m.toNat] by
    rw [one_mod_toNat]
    exact Nat.mod_modEq _ _).mul_right _)
  rw [one_mul] at hone
  rw [← Nat.mod_eq_of_lt hlt]
  exact hone

/-- Skipping an index leaves out its factor. -/
theorem prod_mod_skip_index_toNat {base : ModuliBase} {skip : ℕ} {m : UInt64} (hm : 0 < m.toNat) :
    (prod_mod_skip_index base skip m).toNat =
      Crt.cofactor (Finset.range base.length) (modulusAt base) skip % m.toNat := by
  -- the skipped factor is one that is not there
  have hfactor : Crt.cofactor (Finset.range base.length) (modulusAt base) skip =
      ∏ i ∈ Finset.range base.length, if i = skip then 1 else modulusAt base i := by
    have hskip : ∏ i ∈ (Finset.range base.length).erase skip, (if i = skip then 1 else modulusAt base i) =
        ∏ i ∈ Finset.range base.length, if i = skip then 1 else modulusAt base i :=
      Finset.prod_erase _ (if_pos rfl)
    rw [Crt.cofactor, ← hskip]
    apply Finset.prod_congr rfl
    intro i hi
    rw [if_neg (Finset.ne_of_mem_erase hi)]
  rw [hfactor, prod_mod_skip_index]
  generalize base.length = n
  induction n with
  | zero => exact one_mod_toNat m
  | succ n ih =>
    rw [List.range_succ, List.foldl_append, List.foldl_cons, List.foldl_nil, Finset.prod_range_succ]
    split
    · rw [ih, mul_one]
    · rw [mulmod_toNat hm, ih, UInt64.toNat_mod]
      exact ((Nat.mod_modEq _ _).mul (Nat.mod_modEq _ _))

/-! ## Remainders -/

/-- A natural number below a modulus that is congruent to an integer is its
remainder. -/
theorem eq_emod_of_modEq {v p : ℕ} {S : ℤ} (hv : v < p) (h : (v : ℤ) ≡ S [ZMOD p]) :
    (v : ℤ) = S % p := by
  rw [← Int.emod_eq_of_lt (Int.natCast_nonneg v) (Int.ofNat_lt.mpr hv)]
  exact h

/-- A difference of residues, formed without a negative number. -/
theorem sub_mod_toNat {q : ℕ} (hq : 0 < q) (x y : ℕ) :
    (x + (q - y % q)) % q = (((x : ℤ) - y) % q).toNat := by
  have hlt := Nat.mod_lt y hq
  have hmod : ((x + (q - y % q)) % q : ℕ) ≡ (x : ℤ) - y [ZMOD q] := by
    calc ((x + (q - y % q)) % q : ℕ)
        ≡ ((x + (q - y % q) : ℕ) : ℤ) [ZMOD q] := Int.natCast_modEq_iff.mpr (Nat.mod_modEq _ _)
      _ = x - (y % q : ℕ) + q := by
          rw [Nat.cast_add, Nat.cast_sub hlt.le]
          ring
      _ ≡ x - (y % q : ℕ) [ZMOD q] := Int.modEq_iff_dvd.mpr ⟨-1, by ring⟩
      _ ≡ x - y [ZMOD q] := (Int.ModEq.refl _).sub (Int.natCast_modEq_iff.mpr (Nat.mod_modEq _ _))
  rw [← eq_emod_of_modEq (Nat.mod_lt _ hq) hmod, Int.toNat_natCast]

/-- What is added to shift back. -/
theorem neg_half_modEq {h p : UInt64} (hp : 0 < p.toNat) :
    ((if h % p = 0 then 0 else p - h % p : UInt64).toNat : ℤ) ≡ -(h.toNat : ℤ) [ZMOD p.toNat] := by
  have hmod : (h % p : UInt64).toNat = h.toNat % p.toNat := UInt64.toNat_mod h p
  have hlt := Nat.mod_lt h.toNat hp
  have hh : (h.toNat : ℤ) ≡ ((h % p : UInt64).toNat : ℤ) [ZMOD p.toNat] := by
    rw [hmod]
    exact Int.natCast_modEq_iff.mpr (Nat.mod_modEq _ _).symm
  apply Int.ModEq.trans _ hh.neg.symm
  split
  · rename_i hzero
    rw [hzero]
    exact Int.ModEq.refl _
  · have hle : h % p ≤ p := UInt64.le_iff_toNat_le.mpr (by omega)
    rw [UInt64.toNat_sub_of_le _ _ hle, Nat.cast_sub (by omega)]
    exact Int.modEq_iff_dvd.mpr ⟨-1, by ring⟩

end Fhetch
