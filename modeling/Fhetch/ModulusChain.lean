/-
The inverses of a chain of moduli (`set_crypto_context_info` and `write_replay_json` of
`src/compiler.cpp`).

Both compute the inverse of an odd modulus modulo `2 ^ 64` bit by bit: the product of the
modulus with the bits chosen so far is looked at in the next place only, and a bit there is
cancelled. The product wraps, which changes nothing below the place looked at.
-/
import Fhetch.RootedTransforms

set_option autoImplicit false

namespace Fhetch

open Lib Throws

/-! ## One inverse -/

/-- One turn of the loop: `if (((q * ninv) >> i) & 1) ninv |= (1ULL << i)`. -/
def ninv_step (q ninv : UInt64) (i : ℕ) : UInt64 :=
  if (q * ninv) >>> UInt64.ofNat i &&& 1 ≠ 0 then ninv ||| 1 <<< UInt64.ofNat i else ninv

/-- The loop, from `ninv = 1` over the places 1 to 63. -/
def modulus_inverse (q : UInt64) : UInt64 := (List.range' 1 63).foldl (ninv_step q) 1

/-- After the place below `i`: the bits chosen are below `i`, and the product is 1 there. -/
structure InverseBelow (q ninv : UInt64) (i : ℕ) : Prop where
  below : ninv.toNat < 2 ^ i
  product : q.toNat * ninv.toNat % 2 ^ i = 1

theorem InverseBelow.step {q ninv : UInt64} {i : ℕ} (hq : q.toNat % 2 = 1) (hi : 1 ≤ i) (hi' : i < 64)
    (h : InverseBelow q ninv i) : InverseBelow q (ninv_step q ninv i) (i + 1) := by
  obtain ⟨hbelow, hproduct⟩ := h
  have hshift : (UInt64.ofNat i).toNat = i :=
    UInt64.toNat_ofNat_of_lt' (hi'.trans (by decide))
  have hpow : 2 ^ (i + 1) = 2 * 2 ^ i := by ring
  -- the place that is looked at, whatever was lost above
  have hbit : ((q * ninv) >>> UInt64.ofNat i &&& 1).toNat = q.toNat * ninv.toNat / 2 ^ i % 2 := by
    rw [UInt64.toNat_and, UInt64.toNat_shiftRight, UInt64.toNat_mul, hshift, Nat.mod_eq_of_lt hi',
      Nat.shiftRight_eq_div_pow]
    show _ &&& 1 = _
    rw [Nat.and_one_is_mod]
    have hsplit : 2 ^ 64 = 2 ^ i * 2 ^ (64 - i) := by rw [← Nat.pow_add, Nat.add_sub_cancel' hi'.le]
    have heven : 2 ∣ 2 ^ (64 - i) := dvd_pow_self 2 (by omega)
    rw [hsplit, Nat.mod_mul_right_div_self, Nat.mod_mod_of_dvd _ heven]
  have hdecompose : q.toNat * ninv.toNat % 2 ^ (i + 1) =
      1 + 2 ^ i * (q.toNat * ninv.toNat / 2 ^ i % 2) := by
    rw [Nat.pow_succ, Nat.mod_mul, hproduct]
  unfold ninv_step
  by_cases hset : (q * ninv) >>> UInt64.ofNat i &&& 1 ≠ 0
  · rw [if_pos hset]
    have hone : q.toNat * ninv.toNat / 2 ^ i % 2 = 1 := by
      have hne : ((q * ninv) >>> UInt64.ofNat i &&& 1).toNat ≠ 0 := fun h => hset (UInt64.toNat_inj.mp h)
      omega
    have hvalue : (ninv ||| 1 <<< UInt64.ofNat i).toNat = ninv.toNat + 2 ^ i := by
      have hlt : (1 : ℕ) <<< i < 2 ^ 64 := by
        rw [Nat.one_shiftLeft]
        exact Nat.pow_lt_pow_right (by decide) hi'
      rw [UInt64.toNat_or, UInt64.toNat_shiftLeft, hshift, Nat.mod_eq_of_lt hi']
      show ninv.toNat ||| (1 <<< i) % 2 ^ 64 = _
      rw [Nat.mod_eq_of_lt hlt, or_shiftLeft hbelow, Nat.one_mul]
    refine ⟨by omega, ?_⟩
    rw [hone] at hdecompose
    rw [hvalue, Nat.mul_add, Nat.add_mod, hdecompose]
    -- an odd multiple of the place, with what was there, is the place above
    have hodd : q.toNat * 2 ^ i % 2 ^ (i + 1) = 2 ^ i := by
      rw [Nat.pow_succ', Nat.mul_comm q.toNat, Nat.mul_comm 2, Nat.mul_mod_mul_left, hq, Nat.mul_one]
    have hpos : 2 ≤ 2 ^ i := by
      calc 2 = 2 ^ 1 := rfl
        _ ≤ 2 ^ i := Nat.pow_le_pow_right (by decide) hi
    rw [hodd, hpow]
    have hsum : 1 + 2 ^ i * 1 + 2 ^ i = 1 + 2 * 2 ^ i := by ring
    rw [hsum, Nat.add_mod_right, Nat.mod_eq_of_lt (by omega)]
  · rw [if_neg hset]
    rw [not_not] at hset
    have hzero : q.toNat * ninv.toNat / 2 ^ i % 2 = 0 := by
      rw [← hbit, hset]
      rfl
    exact ⟨by omega, by rw [hdecompose, hzero, Nat.mul_zero]⟩

theorem inverseBelow_foldl {q : UInt64} (hq : q.toNat % 2 = 1) (n : ℕ) :
    ∀ {i : ℕ} {ninv : UInt64}, 1 ≤ i → i + n ≤ 64 → InverseBelow q ninv i →
      InverseBelow q ((List.range' i n).foldl (ninv_step q) ninv) (i + n) := by
  induction n with
  | zero => exact fun _ _ h => h
  | succ n ih =>
    intro i ninv hi hle h
    rw [List.range'_succ, List.foldl_cons]
    have hnext := ih (Nat.le_add_left 1 i) (by omega) (h.step hq hi (by omega))
    rwa [Nat.add_assoc, Nat.add_comm 1 n] at hnext

/-- **The loop ends with the inverse.** -/
theorem modulus_inverse_spec {q : UInt64} (hq : q.toNat % 2 = 1) : q * modulus_inverse q = 1 := by
  have hstart : InverseBelow q 1 1 := by
    refine ⟨by decide, ?_⟩
    rw [show (1 : UInt64).toNat = 1 from rfl, Nat.mul_one]
    exact hq
  have hend := inverseBelow_foldl hq 63 le_rfl (by decide) hstart
  apply UInt64.toNat_inj.mp
  rw [UInt64.toNat_mul]
  exact hend.product

/-- An inverse modulo `2 ^ 64` is the only one. -/
theorem inverse_unique {q m n : UInt64} (hm : q * m = 1) (hn : q * n = 1) : n = m := by
  calc n = q * m * n := by rw [hm, UInt64.one_mul]
    _ = q * n * m := by rw [UInt64.mul_assoc, UInt64.mul_comm m n, ← UInt64.mul_assoc]
    _ = m := by rw [hn, UInt64.one_mul]

/-! ## The chain -/

def is_compatible_prime (prime : UInt64) : Bool := prime &&& 0xFFFF = 0x0001

/-- What the compiler knows of the crypto context. -/
structure CryptoContext where
  scheme_name : Str := []
  multiplicative_depth : UInt32 := 0
  scaling_mod_size : UInt32 := 0
  security_level : Str := []
  modulus_chain : List UInt64 := []
  inverse_modulus_chain : List UInt64 := []
  check_primes : Bool := true

/-- One turn of the loop over the chain. -/
def push_inverse (q : UInt64) : Throws CryptoContext Unit := do
  if (← get).check_primes && !is_compatible_prime q then
    throw (str "Modulus " ++ decimal q.toNat ++ str " is not compatible with Niobium Hardware.")
  modify fun c => { c with inverse_modulus_chain := c.inverse_modulus_chain ++ [modulus_inverse q] }

def set_crypto_context_info (scheme_name : Str) (multiplicative_depth scaling_mod_size : UInt32)
    (security_level : Str) (modulus_chain : List UInt64) : Throws CryptoContext Unit := do
  modify fun c =>
    { c with scheme_name, multiplicative_depth, scaling_mod_size, security_level, modulus_chain,
             inverse_modulus_chain := [] }
  modulus_chain.forM push_inverse

/-- The chain and the inverse chain of `replay.json`: the recorded moduli, if there are any. -/
def CryptoContext.replay_chains (c : CryptoContext) (trace_moduli : List UInt64) :
    List UInt64 × List UInt64 :=
  if trace_moduli.isEmpty then (c.modulus_chain, c.inverse_modulus_chain)
  else (trace_moduli, trace_moduli.map modulus_inverse)

/-- A chain and its inverses, element by element. -/
def Inverts (chain inverses : List UInt64) : Prop := List.Forall₂ (fun q n => q * n = 1) chain inverses

theorem inverts_map {chain : List UInt64} (h : ∀ q ∈ chain, UInt64.toNat q % 2 = 1) :
    Inverts chain (chain.map modulus_inverse) := by
  rw [Inverts, List.forall₂_map_right_iff, List.forall₂_same]
  exact fun q hq => modulus_inverse_spec (h q hq)

theorem push_inverse_ok {q : UInt64} {c c' : CryptoContext} (h : (push_inverse q).on c = (.ok (), c')) :
    c' = { c with inverse_modulus_chain := c.inverse_modulus_chain ++ [modulus_inverse q] } := by
  rw [push_inverse, on_get_bind] at h
  by_cases hbad : (c.check_primes && !is_compatible_prime q) = true
  · rw [if_pos hbad] at h
    exact absurd (Prod.mk.inj h).1 (by simp)
  · rw [if_neg hbad] at h
    exact (Prod.mk.inj h).2.symm

/-- A loop that goes through has pushed one inverse for each modulus. -/
theorem push_inverses_ok {chain : List UInt64} : ∀ {c c' : CryptoContext},
    on (chain.forM push_inverse) c = (.ok (), c') →
      c' = { c with inverse_modulus_chain := c.inverse_modulus_chain ++ chain.map modulus_inverse } := by
  induction chain with
  | nil =>
    intro c c' h
    rw [← (Prod.mk.inj h).2, List.map_nil, List.append_nil]
  | cons q chain ih =>
    intro c c' h
    change on (push_inverse q >>= fun _ => chain.forM push_inverse) c = _ at h
    rcases hfirst : (push_inverse q).on c with ⟨text | ⟨⟩, c₁⟩
    · rw [on_bind_error hfirst] at h
      exact absurd (Prod.mk.inj h).1 (by simp)
    · rw [on_bind_ok hfirst] at h
      rw [ih h, push_inverse_ok hfirst, List.map_cons, List.append_assoc, List.singleton_append]

/-- **The modulus inverse chain.** -/
theorem inverse_modulus_chain_right :
    (∀ q : UInt64, q.toNat % 2 = 1 → q * modulus_inverse q = 1 ∧ ∀ n, q * n = 1 → n = modulus_inverse q) ∧
    (∀ (scheme_name : Str) (multiplicative_depth scaling_mod_size : UInt32) (security_level : Str)
      (chain : List UInt64) (c c' : CryptoContext), (∀ q ∈ chain, UInt64.toNat q % 2 = 1) →
      (set_crypto_context_info scheme_name multiplicative_depth scaling_mod_size security_level chain).on c =
        (.ok (), c') →
      c'.modulus_chain = chain ∧ c'.inverse_modulus_chain.length = c'.modulus_chain.length ∧
        Inverts c'.modulus_chain c'.inverse_modulus_chain) ∧
    ∀ (c : CryptoContext) (trace_moduli : List UInt64), trace_moduli ≠ [] →
      (∀ q ∈ trace_moduli, UInt64.toNat q % 2 = 1) →
      (c.replay_chains trace_moduli).1 = trace_moduli ∧
        Inverts (c.replay_chains trace_moduli).1 (c.replay_chains trace_moduli).2 := by
  refine ⟨fun q hq => ⟨modulus_inverse_spec hq, fun n hn => inverse_unique (modulus_inverse_spec hq) hn⟩,
    ?_, ?_⟩
  · intro scheme_name multiplicative_depth scaling_mod_size security_level chain c c' hodd h
    rw [set_crypto_context_info, on_modify_bind] at h
    have hc' := push_inverses_ok h
    rw [List.nil_append] at hc'
    rw [hc']
    have hinverts := inverts_map hodd
    exact ⟨rfl, hinverts.length_eq.symm, hinverts⟩
  · intro c trace_moduli hne hodd
    -- the moduli of the trace take the place of the ones that were set
    rw [CryptoContext.replay_chains, if_neg (by rwa [List.isEmpty_iff])]
    exact ⟨rfl, inverts_map hodd⟩

/-- The sentinel is its own inverse; a chain of two primes that is set, and one that is
recorded. -/
theorem inverse_modulus_chain_right_sentinel :
    (18446744073709551615 : UInt64) * modulus_inverse 18446744073709551615 = 1 ∧
      (∃ c, (set_crypto_context_info (str "CKKS") 1 40 (str "128") [786433, 17]).on { check_primes := false } =
        (.ok (), c) ∧ Inverts c.modulus_chain c.inverse_modulus_chain) ∧
      Inverts [786433, 17] [modulus_inverse 786433, modulus_inverse 17] := by
  obtain ⟨hinverse, hset, hrecorded⟩ := inverse_modulus_chain_right
  have hodd : ∀ q ∈ ([786433, 17] : List UInt64), q.toNat % 2 = 1 :=
    List.forall_mem_cons.mpr ⟨rfl, List.forall_mem_singleton.mpr rfl⟩
  obtain ⟨c, hc⟩ : ∃ c, (set_crypto_context_info (str "CKKS") 1 40 (str "128") [786433, 17]).on
      { check_primes := false } = (.ok (), c) := ⟨_, rfl⟩
  obtain ⟨hchain, -, hinverts⟩ := hset _ _ _ _ _ _ c hodd hc
  exact ⟨(hinverse 18446744073709551615 rfl).1, ⟨c, hc, hinverts⟩,
    (hrecorded {} [786433, 17] (List.cons_ne_nil _ _) hodd).2⟩

end Fhetch
