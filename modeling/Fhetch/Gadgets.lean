/-
The gadgets of the recording API over residue number systems (`src/fhetch_api.cpp`):
base conversion, rescaling and digit decomposition, each a sequence of recorded
instructions over immediates that the client computes with 64-bit words.
-/
import Fhetch.Api

set_option autoImplicit false

namespace Fhetch

/-! ## Word arithmetic -/

/-- The product is taken in 128 bits. -/
def mulmod_u64 (a b m : UInt64) : UInt64 := UInt64.ofNat (a.toNat * b.toNat % m.toNat)

/-- The loop of `powmod_u64`. An exponent of 64 bits is gone after 64 rounds. -/
def powmod_loop (m : UInt64) : ℕ → UInt64 → UInt64 → UInt64 → UInt64
  | 0, r, _, _ => r
  | fuel + 1, r, a, e =>
    if e > 0 then
      powmod_loop m fuel (if e &&& 1 ≠ 0 then mulmod_u64 r a m else r) (mulmod_u64 a a m) (e >>> 1)
    else r

def powmod_u64 (a e m : UInt64) : UInt64 := powmod_loop m 64 (1 % m) (a % m) e

/-- Fermat's inverse modulo a prime. -/
def modinv_prime (a p : UInt64) : UInt64 := powmod_u64 (a % p) (p - 2) p

/-- The product of a base modulo `m`. -/
def prod_mod (base : ModuliBase) (m : UInt64) : UInt64 :=
  base.foldl (fun r q => mulmod_u64 r (q % m) m) (1 % m)

/-- The product of all primes of a base but the one at `skip`. -/
def prod_mod_skip_index (base : ModuliBase) (skip : ℕ) (m : UInt64) : UInt64 :=
  (List.range base.length).foldl
    (fun r i => if i = skip then r else mulmod_u64 r (base.getD i 0 % m) m) (1 % m)

/-- `q_hat[i] = (Q/q_i)^{-1} mod q_i` -/
def q_hat_inv_mod_q (source_base : ModuliBase) : List UInt64 :=
  (List.range source_base.length).map fun i =>
    let q_i := source_base.getD i 0
    modinv_prime (prod_mod_skip_index source_base i q_i) q_i

/-- `q_star[i] = (Q/q_i) mod target_p` -/
def q_hat_mod_p (source_base : ModuliBase) (target_p : UInt64) : List UInt64 :=
  (List.range source_base.length).map fun i => prod_mod_skip_index source_base i target_p

/-! ## Base conversion -/

inductive FbcVariant where
  | Standard
  | ReducedNoise
  deriving DecidableEq, Repr

inductive FbcCenterShape where
  | ThreeOp
  | FourOp
  deriving DecidableEq, Repr

/-- `scaled[i] = (x[q_i] * q_hat[i]) mod q_i` -/
def prescale_by_q_hat (x : MRP) (q_hat : List UInt64) : Api (List Polynomial) :=
  (List.range x.base_.length).mapM fun i => do
    let q_i := x.base_.getD i 0
    let residue ← x.at q_i
    let c ← Scalar.from_int (q_hat.getD i 0)
    sr_mulps residue c q_i

/-- The multiplication by one that makes the chain of `FourOp` recognizable. -/
def leading_identity (scaled_i : Polynomial) (q_i : UInt64) : FbcCenterShape → Api Polynomial
  | .FourOp => do
    let one ← Scalar.from_int 1
    sr_mulps scaled_i one q_i
  | .ThreeOp => return scaled_i

/-- Shift, rebase, unshift. -/
def center_mod_q_into_p (scaled_i : Polynomial) (q_i target_p : UInt64) (shape : FbcCenterShape) :
    Api Polynomial := do
  let half_q := (q_i - 1) / 2
  let x := half_q % target_p
  let neg_half := if x = 0 then 0 else target_p - x
  let shift_in ← leading_identity scaled_i q_i shape
  let shift ← Scalar.from_int half_q
  let shifted ← sr_addps shift_in shift q_i
  let one ← Scalar.from_int 1
  let rebased ← sr_mulps shifted one target_p
  let unshift ← Scalar.from_int neg_half
  sr_addps rebased unshift target_p

/-- What a term of the sum multiplies. -/
def fbc_coeff (scaled_i : Polynomial) (q_i target_p : UInt64) (shape : FbcCenterShape) :
    FbcVariant → Api Polynomial
  | .ReducedNoise => center_mod_q_into_p scaled_i q_i target_p shape
  | .Standard => return scaled_i

def fbc_term (scaled_i : Polynomial) (q_i target_p q_star_i : UInt64) (variant : FbcVariant)
    (shape : FbcCenterShape) : Api Polynomial := do
  let coeff ← fbc_coeff scaled_i q_i target_p shape variant
  let c ← Scalar.from_int q_star_i
  sr_mulps coeff c target_p

/-- Term `i` of the sum. -/
def fbc_term_at (scaled : List Polynomial) (source_base : ModuliBase) (target_p : UInt64)
    (q_star : List UInt64) (variant : FbcVariant) (shape : FbcCenterShape) (i : ℕ) : Api Polynomial :=
  match scaled[i]? with
  | some scaled_i =>
    fbc_term scaled_i (source_base.getD i 0) target_p (q_star.getD i 0) variant shape
  | none => failure

/-- The sum starts with term 0, so its first write is a real instruction. -/
def sum_fbc_terms (scaled : List Polynomial) (source_base : ModuliBase) (target_p : UInt64)
    (q_star : List UInt64) (variant : FbcVariant) (shape : FbcCenterShape) : Api Polynomial := do
  let acc ← fbc_term_at scaled source_base target_p q_star variant shape 0
  (List.range' 1 (source_base.length - 1)).foldlM (fun acc i => do
    let term ← fbc_term_at scaled source_base target_p q_star variant shape i
    sr_addp acc term target_p) acc

/-- A copy under the sentinel, bound to the real modulus. -/
def copy_residue (src : Polynomial) (p : UInt64) : Api Polynomial := do
  let zero ← Scalar.from_int 0
  let z ← sr_addps src zero COPY_MODULUS_VALUE
  remember_modulus z.address p
  return z

/-- Shared primes are passed through. -/
def fast_base_convert (x : MRP) (target_base : ModuliBase) (variant : FbcVariant)
    (shape : FbcCenterShape) : Api MRP :=
  let source_base := x.base_
  if source_base.isEmpty then do
    let pairs ← target_base.mapM fun p => do
      let zero ← Polynomial.zeros x.ring_dim_
      return (zero, p)
    return MRP.from_pairs pairs
  else do
    let q_hat := q_hat_inv_mod_q source_base
    let scaled ← prescale_by_q_hat x q_hat
    let pairs ← target_base.mapM fun p => do
      if p ∈ source_base then
        let residue ← x.at p
        let y ← copy_residue residue p
        return (y, p)
      else
        let q_star := q_hat_mod_p source_base p
        let y ← sum_fbc_terms scaled source_base p q_star variant shape
        return (y, p)
    return MRP.from_pairs pairs

/-! ## Rescaling and decomposition -/

theorem MRP.subset_covered (x : MRP) {subbase : ModuliBase} (h : subbase.all (· ∈ x.base_)) (q : UInt64) :
    (if q ∈ subbase then x.residues_ q else none).isSome ↔ q ∈ subbase := by
  by_cases hq : q ∈ subbase
  · have hbase : q ∈ x.base_ := of_decide_eq_true (List.all_eq_true.mp h q hq)
    simp [hq, (x.covered q).mpr hbase]
  · simp [hq]

/-- The residues of some moduli; `std::out_of_range` when one is not in the base. -/
def MRP.subset (x : MRP) (subbase : ModuliBase) : Option MRP :=
  if h : subbase.all (· ∈ x.base_) then
    some {
      base_ := subbase
      residues_ := fun q => if q ∈ subbase then x.residues_ q else none
      ring_dim_ := x.ring_dim_
      covered := x.subset_covered h }
  else none

def mr_subset (x : MRP) (subbase : ModuliBase) : Api MRP := fun s => (x.subset subbase).map (·, s)

/-- `source_base \ rescale_base`, in the order of `source_base`. -/
def target_after_rescale (source_base rescale_base : ModuliBase) : ModuliBase :=
  source_base.filter (· ∉ rescale_base)

/-- `P_inv[i] = (prod(rescale_base))^{-1} mod target_base[i]` -/
def P_inv_mod_q (rescale_base target_base : ModuliBase) : List UInt64 :=
  target_base.map fun q => modinv_prime (prod_mod rescale_base q) q

/-- `z[q] = (x[q] - y[q]) * P_inv (mod q)` -/
def rescale_residue (x_q y_q : Polynomial) (q P_inv_q : UInt64) : Api Polynomial := do
  let diff ← sr_subp x_q y_q q
  let c ← Scalar.from_int P_inv_q
  sr_mulps diff c q

/-- The two assertions abort. -/
def rescale_fbc (x : MRP) (rescale_base : ModuliBase) (variant : FbcVariant)
    (shape : FbcCenterShape) : Api MRP := do
  guard (rescale_base ≠ [])
  let target_base := target_after_rescale x.base_ rescale_base
  guard (target_base.length < x.base_.length)
  let x_rescale ← mr_subset x rescale_base
  let y ← fast_base_convert x_rescale target_base variant shape
  let P_inv := P_inv_mod_q rescale_base target_base
  let pairs ← (target_base.zip P_inv).mapM fun (q, P_inv_q) => do
    let x_q ← x.at q
    let y_q ← y.at q
    let z ← rescale_residue x_q y_q q P_inv_q
    return (z, q)
  return MRP.from_pairs pairs

def dig_decomp (x : MRP) (digit_bases : List ModuliBase) (p_base : ModuliBase)
    (shape : FbcCenterShape) : Api (List MRP) :=
  let target_base := x.base_ ++ p_base
  digit_bases.mapM fun digit => do
    let temp ← mr_subset x digit
    fast_base_convert temp target_base .ReducedNoise shape

end Fhetch
