/-
Byte sequences: little-endian scalars and unsigned LEB128.

Both readers take the whole sequence and an offset, as a parser holding a
cursor does. The statements about them say what stands at the offset,
`bytes.drop offset = written ++ rest`: a fact that survives moving the cursor
(`drop_add`), so that a decoder's proof is a chain of them.
-/
import Mathlib.Data.List.Basic
import Mathlib.Data.Nat.Bitwise
import Mathlib.Tactic.Ring

set_option autoImplicit false

namespace Fhetch.Lib

/-! ## The cursor -/

/-- Past what has been read stands what follows it. -/
theorem drop_add {α : Type*} {bytes a b : List α} {offset : ℕ}
    (h : bytes.drop offset = a ++ b) : bytes.drop (offset + a.length) = b := by
  rw [← List.drop_drop, h, List.drop_left]

theorem getElem?_of_drop {α : Type*} {bytes rest : List α} {x : α} {offset : ℕ}
    (h : bytes.drop offset = x :: rest) : bytes[offset]? = some x := by
  have := congrArg (fun l => l[0]?) h
  simpa using this

/-- A prefix has the elements of the whole, as far as it goes. -/
theorem getElem?_of_prefixed {α : Type*} {pre bytes : List α} {x : α} {offset : ℕ}
    (hpre : pre <+: bytes) (h : pre[offset]? = some x) : bytes[offset]? = some x := by
  obtain ⟨rest, rfl⟩ := hpre
  rw [List.getElem?_append_left (List.getElem?_eq_some_iff.mp h).1, h]

theorem getElem?_behind {α : Type*} (pre bytes : List α) (offset : ℕ) :
    (pre ++ bytes)[pre.length + offset]? = bytes[offset]? := by
  rw [List.getElem?_append_right (Nat.le_add_right _ _), Nat.add_sub_cancel_left]

/-! ## Pieces -/

section Pieces

variable {α β : Type*} {f : α → List β}

theorem length_le_flatMap_of_mem {l : List α} {a : α} (ha : a ∈ l) :
    (f a).length ≤ (l.flatMap f).length := by
  rw [List.flatMap_def]
  exact (List.sublist_flatten_of_mem (List.mem_map_of_mem ha)).length_le

theorem length_mul_le_flatMap {k : ℕ} (h : ∀ a, k ≤ (f a).length) (l : List α) :
    l.length * k ≤ (l.flatMap f).length := by
  induction l with
  | nil => rw [List.length_nil, Nat.zero_mul]; exact Nat.zero_le _
  | cons a l ih =>
    have := h a
    rw [List.flatMap_cons, List.length_append, List.length_cons, Nat.add_mul, Nat.one_mul]
    omega

theorem dvd_length_flatMap {k : ℕ} (h : ∀ a, k ∣ (f a).length) (l : List α) :
    k ∣ (l.flatMap f).length := by
  induction l with
  | nil => exact Nat.dvd_zero k
  | cons a l ih =>
    rw [List.flatMap_cons, List.length_append]
    exact Nat.dvd_add (h a) ih

end Pieces

/-! ## Little-endian scalars -/

/-- The low `k` bytes of a number, least significant first. -/
def leBytes : ℕ → ℕ → List UInt8
  | 0, _ => []
  | k + 1, n => UInt8.ofNat n :: leBytes k (n / 256)

def leNat : List UInt8 → ℕ
  | [] => 0
  | b :: bs => b.toNat + 256 * leNat bs

@[simp] theorem leBytes_length (k n : ℕ) : (leBytes k n).length = k := by
  induction k generalizing n with
  | zero => rfl
  | succ k ih => rw [leBytes, List.length_cons, ih]

theorem leNat_leBytes {k n : ℕ} (h : n < 256 ^ k) : leNat (leBytes k n) = n := by
  induction k generalizing n with
  | zero => rw [Nat.pow_zero] at h; rw [leBytes, leNat]; omega
  | succ k ih =>
    have hdiv : n / 256 < 256 ^ k := Nat.div_lt_of_lt_mul (by rwa [Nat.pow_succ'] at h)
    rw [leBytes, leNat, ih hdiv, UInt8.toNat_ofNat']
    omega

/-- The bytes above the `k`-th are not written. -/
theorem leBytes_mod (k n : ℕ) : leBytes k (n % 256 ^ k) = leBytes k n := by
  induction k generalizing n with
  | zero => rfl
  | succ k ih =>
    have hbyte : UInt8.ofNat (n % 256 ^ (k + 1)) = UInt8.ofNat n := by
      apply UInt8.toNat_inj.mp
      rw [UInt8.toNat_ofNat', UInt8.toNat_ofNat']
      exact Nat.mod_mod_of_dvd n ⟨256 ^ k, Nat.pow_succ'⟩
    rw [leBytes, leBytes, hbyte, Nat.pow_succ', Nat.mod_mul_right_div_self, ih]

/-- The bytes of `k` at an offset, when the sequence has them. -/
def readLe (k : ℕ) (bytes : List UInt8) (offset : ℕ) : Option ℕ :=
  if offset + k ≤ bytes.length then some (leNat ((bytes.drop offset).take k)) else none

theorem leNat_lt (bs : List UInt8) : leNat bs < 256 ^ bs.length := by
  induction bs with
  | nil => exact Nat.one_pos
  | cons b bs ih =>
    have hb : b.toNat < 256 := b.toNat_lt
    rw [leNat, List.length_cons, Nat.pow_succ]
    omega

theorem readLe_lt {k v offset : ℕ} {bytes : List UInt8} (h : readLe k bytes offset = some v) :
    v < 256 ^ k := by
  rw [readLe] at h
  split at h
  · rename_i hle
    obtain rfl := Option.some.inj h
    have hlen : ((bytes.drop offset).take k).length = k := by
      rw [List.length_take, List.length_drop]
      omega
    have := leNat_lt ((bytes.drop offset).take k)
    rwa [hlen] at this
  · exact absurd h (by simp)

theorem readLe_of_le {k offset : ℕ} {bytes : List UInt8} (h : offset + k ≤ bytes.length) :
    ∃ v, readLe k bytes offset = some v := ⟨_, if_pos h⟩

theorem readLe_leBytes {k n offset : ℕ} {bytes rest : List UInt8} (hk : 0 < k) (hn : n < 256 ^ k)
    (h : bytes.drop offset = leBytes k n ++ rest) : readLe k bytes offset = some n := by
  have hlen := congrArg List.length h
  rw [List.length_drop, List.length_append, leBytes_length] at hlen
  rw [readLe, if_pos (by omega), h, List.take_left' (leBytes_length k n), leNat_leBytes hn]

/-- Behind other bytes the same scalar is read. -/
theorem readLe_behind (k : ℕ) (pre bytes : List UInt8) (offset : ℕ) :
    readLe k (pre ++ bytes) (pre.length + offset) = readLe k bytes offset := by
  rw [readLe, readLe, List.length_append, Nat.add_assoc, List.drop_length_add_append]
  simp only [Nat.add_le_add_iff_left]

/-! ## LEB128 -/

/-- Seven bits to a byte, low bits first, the high bit set on every byte but the
last; at most `k` continuation bytes. -/
def leb128 : ℕ → ℕ → List UInt8
  | 0, n => [UInt8.ofNat n]
  | k + 1, n =>
    if n < 0x80 then [UInt8.ofNat n]
    else UInt8.ofNat (n % 0x80 + 0x80) :: leb128 k (n / 0x80)

/-- Read a value of at most `bits` bits from byte `index` of its encoding on,
with `value` accumulated so far and at most that many bytes to go. The result is
the value and the offset past it. -/
def readLeb128 (bits : ℕ) (bytes : List UInt8) : ℕ → ℕ → ℕ → ℕ → Option (ℕ × ℕ)
  | 0, _, _, _ => none
  | fuel + 1, index, offset, value =>
    match bytes[offset]? with
    | none => none
    | some byte =>
      let payload := (byte &&& 0x7F).toNat
      let shift := index * 7
      if (2 ^ bits - 1) >>> shift < payload then none
      else
        let value := value ||| payload <<< shift
        if byte &&& 0x80 = 0 then some (value, offset + 1)
        else readLeb128 bits bytes fuel (index + 1) (offset + 1) value

theorem low_seven (b : UInt8) : (b &&& 0x7F).toNat = b.toNat % 128 := by
  rw [UInt8.toNat_and]
  exact Nat.and_two_pow_sub_one_eq_mod b.toNat 7

theorem high_bit_clear_iff (b : UInt8) : b &&& 0x80 = 0 ↔ b.toNat < 128 := by
  have hb : b.toNat < 256 := b.toNat_lt
  rw [← UInt8.toNat_inj, UInt8.toNat_and]
  change b.toNat &&& 2 ^ 7 = 0 ↔ _
  rw [Nat.and_two_pow, Nat.testBit_eq_decide_div_mod_eq]
  by_cases h : b.toNat < 128
  · have : b.toNat / 128 % 2 = 0 := by omega
    simp [this, h]
  · have : b.toNat / 128 % 2 = 1 := by omega
    simp [this, h]

/-- Seven more bits above a value that ends below them. -/
theorem or_shiftLeft {value shift : ℕ} (hv : value < 2 ^ shift) (payload : ℕ) :
    value ||| payload <<< shift = value + payload * 2 ^ shift := by
  rw [Nat.or_comm, Nat.shiftLeft_eq, Nat.mul_comm, ← Nat.two_pow_add_eq_or_of_lt hv, Nat.add_comm]

theorem payload_fits {bits shift payload value : ℕ} (h : value + payload * 2 ^ shift < 2 ^ bits) :
    ¬ (2 ^ bits - 1) >>> shift < payload := by
  rw [Nat.not_lt, Nat.shiftRight_eq_div_pow, Nat.le_div_iff_mul_le (Nat.two_pow_pos shift)]
  omega

/-- **Reading back.** At an encoding, with the value so far below the bits still
to come and the whole within `bits`, the reader gives the whole value and stops
right after it. -/
theorem readLeb128_leb128 {bits : ℕ} {bytes : List UInt8} (k : ℕ) :
    ∀ {n index offset value : ℕ} {rest : List UInt8},
      bytes.drop offset = leb128 k n ++ rest → n < 2 ^ (7 * (k + 1)) → value < 2 ^ (index * 7) →
      value + n * 2 ^ (index * 7) < 2 ^ bits →
      readLeb128 bits bytes (k + 1) index offset value =
        some (value + n * 2 ^ (index * 7), offset + (leb128 k n).length) := by
  -- a byte without the continuation bit ends the number, whatever fuel is left
  have last : ∀ {fuel n index offset value : ℕ} {rest : List UInt8},
      bytes.drop offset = UInt8.ofNat n :: rest → n < 128 → value < 2 ^ (index * 7) →
      value + n * 2 ^ (index * 7) < 2 ^ bits →
      readLeb128 bits bytes (fuel + 1) index offset value =
        some (value + n * 2 ^ (index * 7), offset + 1) := by
    intro fuel n index offset value rest h hn hv hbits
    have hbyte : (UInt8.ofNat n).toNat = n := by rw [UInt8.toNat_ofNat']; omega
    rw [readLeb128, getElem?_of_drop h]
    simp only [low_seven, hbyte, Nat.mod_eq_of_lt hn, if_neg (payload_fits hbits),
      if_pos ((high_bit_clear_iff _).mpr (hbyte.trans_lt hn)), or_shiftLeft hv]
  induction k with
  | zero =>
    intro n index offset value rest h hn hv hbits
    exact last h (by omega) hv hbits
  | succ k ih =>
    intro n index offset value rest h hn hv hbits
    rw [leb128] at h ⊢
    by_cases hsmall : n < 0x80
    · rw [if_pos hsmall] at h ⊢
      exact last h hsmall hv hbits
    · rw [if_neg hsmall] at h ⊢
      have hbyte : (UInt8.ofNat (n % 128 + 128)).toNat = n % 128 + 128 := by
        rw [UInt8.toNat_ofNat']; omega
      have hmod : (n % 128 + 128) % 128 = n % 128 := by omega
      have hpow : 2 ^ ((index + 1) * 7) = 128 * 2 ^ (index * 7) := by
        rw [Nat.add_mul, Nat.pow_add]; omega
      -- what is left after the low seven bits is worth 128 times as much
      have hsplit : value + n * 2 ^ (index * 7) =
          value + n % 128 * 2 ^ (index * 7) + n / 128 * 2 ^ ((index + 1) * 7) := by
        conv_lhs => rw [← Nat.mod_add_div n 128]
        rw [hpow]
        ring
      have hlow : n % 128 * 2 ^ (index * 7) ≤ 127 * 2 ^ (index * 7) :=
        Nat.mul_le_mul_right _ (by omega)
      rw [hsplit] at hbits ⊢
      rw [readLeb128, getElem?_of_drop h]
      simp only [low_seven, hbyte, hmod, or_shiftLeft hv,
        if_neg (payload_fits (Nat.lt_of_le_of_lt (Nat.le_add_right _ _) hbits)),
        if_neg (mt (high_bit_clear_iff (UInt8.ofNat (n % 128 + 128))).mp (by omega))]
      have hdiv : n / 128 < 2 ^ (7 * (k + 1)) := by
        refine Nat.div_lt_of_lt_mul ?_
        rwa [show 7 * (k + 1 + 1) = 7 + 7 * (k + 1) by ring, Nat.pow_add] at hn
      have hnext : bytes.drop (offset + 1) = leb128 k (n / 128) ++ rest := drop_add (a := [_]) h
      rw [ih hnext hdiv (by rw [hpow]; omega) hbits, List.length_cons]
      congr 2
      omega

/-- A value read fits the bits, and the cursor moved on within the bytes. -/
theorem readLeb128_bounds {bits : ℕ} {bytes : List UInt8} {v next : ℕ} :
    ∀ {fuel index offset value : ℕ}, value < 2 ^ bits →
      readLeb128 bits bytes fuel index offset value = some (v, next) →
      v < 2 ^ bits ∧ offset < next ∧ next ≤ bytes.length := by
  intro fuel
  induction fuel with
  | zero =>
    intro index offset value _ h
    exact absurd h (by simp [readLeb128])
  | succ fuel ih =>
    intro index offset value hv h
    rw [readLeb128] at h
    cases hbyte : bytes[offset]? with
    | none =>
      rw [hbyte] at h
      exact absurd h (by simp)
    | some byte =>
      rw [hbyte] at h
      obtain ⟨hlt, -⟩ := List.getElem?_eq_some_iff.mp hbyte
      simp only at h
      split at h
      · exact absurd h (by simp)
      · rename_i hfits
        -- what the shift places is below the limit, so the two together are
        have hplaced : (byte &&& 0x7F).toNat <<< (index * 7) < 2 ^ bits := by
          rw [Nat.not_lt, Nat.shiftRight_eq_div_pow,
            Nat.le_div_iff_mul_le (Nat.two_pow_pos _)] at hfits
          rw [Nat.shiftLeft_eq]
          have := Nat.two_pow_pos bits
          omega
        have hor := Nat.or_lt_two_pow hv hplaced
        split at h
        · obtain ⟨rfl, rfl⟩ := Prod.mk.inj (Option.some.inj h)
          exact ⟨hor, Nat.lt_succ_self _, hlt⟩
        · obtain ⟨hvalue, hnext, hend⟩ := ih hor h
          exact ⟨hvalue, by omega, hend⟩

/-- What is read from a prefix is read from the whole. -/
theorem readLeb128_of_prefixed {bits : ℕ} {pre bytes : List UInt8} (hpre : pre <+: bytes)
    {r : ℕ × ℕ} : ∀ {fuel index offset value : ℕ},
      readLeb128 bits pre fuel index offset value = some r →
      readLeb128 bits bytes fuel index offset value = some r := by
  intro fuel
  induction fuel with
  | zero =>
    intro index offset value h
    exact absurd h (by simp [readLeb128])
  | succ fuel ih =>
    intro index offset value h
    rw [readLeb128] at h ⊢
    cases hbyte : pre[offset]? with
    | none =>
      rw [hbyte] at h
      exact absurd h (by simp)
    | some byte =>
      -- the longer text has the same byte here, and the reader decides on it alone
      have hbyte' : bytes[offset]? = some byte := getElem?_of_prefixed hpre hbyte
      rw [hbyte] at h
      rw [hbyte']
      simp only at h ⊢
      split at h
      · exact absurd h (by simp)
      · rename_i hfits
        rw [if_neg hfits]
        split at h
        · rename_i hlast
          rw [if_pos hlast]
          exact h
        · rename_i hmore
          rw [if_neg hmore]
          exact ih h

/-- The reader looks at no more bytes than it has fuel. -/
theorem readLeb128_congr {bits : ℕ} {bytes bytes' : List UInt8} :
    ∀ {fuel index offset value : ℕ},
      (bytes.drop offset).take fuel = (bytes'.drop offset).take fuel →
      readLeb128 bits bytes fuel index offset value = readLeb128 bits bytes' fuel index offset value := by
  intro fuel
  induction fuel with
  | zero => exact fun _ => rfl
  | succ fuel ih =>
    intro index offset value h
    have hfirst : bytes[offset]? = bytes'[offset]? := by
      have := congrArg (fun l => l[0]?) h
      simpa [List.getElem?_take] using this
    have hrest : (bytes.drop (offset + 1)).take fuel = (bytes'.drop (offset + 1)).take fuel := by
      have := congrArg (List.drop 1) h
      rwa [List.drop_take, List.drop_take, List.drop_drop, List.drop_drop, Nat.add_sub_cancel] at this
    rw [readLeb128, readLeb128, hfirst]
    simp only [ih hrest]

/-- Behind other bytes the same value is read, and the cursor is moved by them. -/
theorem readLeb128_behind (bits : ℕ) (pre bytes : List UInt8) : ∀ fuel index offset value,
    readLeb128 bits (pre ++ bytes) fuel index (pre.length + offset) value =
      (readLeb128 bits bytes fuel index offset value).map fun r => (r.1, pre.length + r.2) := by
  intro fuel
  induction fuel with
  | zero => exact fun _ _ _ => rfl
  | succ fuel ih =>
    intro index offset value
    rw [readLeb128, readLeb128, getElem?_behind]
    cases bytes[offset]? with
    | none => rfl
    | some byte =>
      simp only [Nat.add_assoc, ih]
      split
      · rfl
      · split <;> rfl

/-- No group above the first that adds nothing: a last byte of 0 is one. -/
def ShortestForm (bytes : List UInt8) : Prop := bytes.length = 1 ∨ bytes.getLast? ≠ some 0

/-- What the reader took in: a value `n` above the value so far, and an encoding of `n`
exactly if it is in the shortest form. -/
structure TakenIn (k : ℕ) (taken : List UInt8) (n : ℕ) : Prop where
  ne_nil : taken ≠ []
  encoded_iff : taken = leb128 k n ↔ ShortestForm taken
  single : taken.length = 1 → n < 128 ∧ taken = [UInt8.ofNat n]
  zero : n = 0 → taken.getLast? = some 0
  bound : n < 2 ^ (7 * (k + 1))

theorem takenIn_last (k : ℕ) {b : UInt8} (hb : b.toNat < 128) : TakenIn k [b] b.toNat := by
  have hbyte : leb128 k b.toNat = [b] := by
    cases k with
    | zero => rw [leb128, UInt8.ofNat_toNat]
    | succ k => rw [leb128, if_pos hb, UInt8.ofNat_toNat]
  have hpow : 2 ^ 7 ≤ 2 ^ (7 * (k + 1)) := Nat.pow_le_pow_right (by decide) (by omega)
  refine ⟨List.cons_ne_nil _ _, ?_, fun _ => ⟨hb, by rw [UInt8.ofNat_toNat]⟩, fun h => ?_, by omega⟩
  · rw [hbyte]
    exact iff_of_true rfl (.inl rfl)
  · have hzero : b = 0 := UInt8.toNat_inj.mp h
    rw [hzero]
    rfl

theorem takenIn_more {k n : ℕ} {b : UInt8} {rest : List UInt8} (hb : ¬ b.toNat < 128)
    (h : TakenIn k rest n) : TakenIn (k + 1) (b :: rest) (b.toNat % 128 + 128 * n) := by
  have hlt : b.toNat < 256 := b.toNat_lt
  have hlast : (b :: rest).getLast? = rest.getLast? := by
    rw [List.getLast?_cons]
    cases hrest : rest.getLast? with
    | none => exact absurd (List.getLast?_eq_none_iff.mp hrest) h.ne_nil
    | some x => rfl
  have hlen : (b :: rest).length ≠ 1 := by
    have := List.length_pos_of_ne_nil h.ne_nil
    rw [List.length_cons]
    omega
  refine ⟨List.cons_ne_nil _ _, ?_, fun hone => absurd hone hlen, fun hzero => ?_, ?_⟩
  · rw [ShortestForm, or_iff_right hlen, hlast, leb128]
    by_cases hn : n = 0
    · -- the groups that were left add nothing
      rw [if_pos (by omega)]
      refine iff_of_false (fun heq => ?_) (not_not_intro (h.zero hn))
      exact h.ne_nil (List.cons.inj heq).2
    -- the encoder writes the same first group when there is more to come
    · have hbyte : UInt8.ofNat ((b.toNat % 128 + 128 * n) % 128 + 128) = b := by
        apply UInt8.toNat_inj.mp
        rw [UInt8.toNat_ofNat']
        omega
      have hdiv : (b.toNat % 128 + 128 * n) / 128 = n := by omega
      rw [if_neg (by omega), hbyte, hdiv, List.cons_inj_right, h.encoded_iff, ShortestForm]
      refine or_iff_right_of_imp fun hone => ?_
      -- a single group behind it is the last one, and it is not zero
      obtain ⟨hsmall, hsingle⟩ := h.single hone
      rw [hsingle]
      intro heq
      have hmod := congrArg UInt8.toNat (Option.some.inj heq)
      have hzero : (0 : UInt8).toNat = 0 := rfl
      rw [List.getLast_singleton, UInt8.toNat_ofNat', hzero] at hmod
      omega
  · rw [hlast]
    exact h.zero (by omega)
  · have hbound := h.bound
    have hpow : 2 ^ (7 * (k + 1 + 1)) = 2 ^ (7 * (k + 1)) * 128 := by
      rw [Nat.mul_add 7 (k + 1) 1, Nat.pow_add]
    omega

/-- **What is read is an encoding**, up to groups that add nothing. -/
theorem readLeb128_takenIn {bits : ℕ} {bytes : List UInt8} {v : ℕ} (k : ℕ) :
    ∀ {index offset value : ℕ}, value < 2 ^ (index * 7) →
      readLeb128 bits bytes (k + 1) index offset value = some (v, bytes.length) →
      ∃ n, v = value + n * 2 ^ (index * 7) ∧ TakenIn k (bytes.drop offset) n := by
  -- one step of the reader: it ends here, or goes on one group higher
  have hstep : ∀ {fuel index offset value : ℕ}, value < 2 ^ (index * 7) →
      readLeb128 bits bytes (fuel + 1) index offset value = some (v, bytes.length) →
      ∃ b, bytes.drop offset = b :: bytes.drop (offset + 1) ∧
        (b.toNat < 128 ∧ v = value + b.toNat * 2 ^ (index * 7) ∧ bytes.length = offset + 1 ∨
          ¬ b.toNat < 128 ∧ readLeb128 bits bytes fuel (index + 1) (offset + 1)
            (value + b.toNat % 128 * 2 ^ (index * 7)) = some (v, bytes.length)) := by
    intro fuel index offset value hv h
    rw [readLeb128] at h
    cases hbyte : bytes[offset]? with
    | none =>
      rw [hbyte] at h
      exact absurd h (by simp)
    | some b =>
      obtain ⟨hlt, hget⟩ := List.getElem?_eq_some_iff.mp hbyte
      refine ⟨b, by rw [List.drop_eq_getElem_cons hlt, hget], ?_⟩
      rw [hbyte] at h
      simp only [low_seven, or_shiftLeft hv] at h
      split at h
      · exact absurd h (by simp)
      · split at h
        · rename_i hclear
          obtain ⟨hvalue, hlength⟩ := Prod.mk.inj (Option.some.inj h)
          have hsmall := (high_bit_clear_iff b).mp hclear
          rw [Nat.mod_eq_of_lt hsmall] at hvalue
          exact .inl ⟨hsmall, hvalue.symm, hlength.symm⟩
        · rename_i hset
          exact .inr ⟨mt (high_bit_clear_iff b).mpr hset, h⟩
  induction k with
  | zero =>
    intro index offset value hv h
    obtain ⟨b, hdrop, ⟨hsmall, hvalue, hlength⟩ | ⟨-, hmore⟩⟩ := hstep hv h
    · refine ⟨b.toNat, hvalue, ?_⟩
      rw [hdrop, List.drop_eq_nil_of_le hlength.le]
      exact takenIn_last 0 hsmall
    · exact absurd hmore (by simp [readLeb128])
  | succ k ih =>
    intro index offset value hv h
    obtain ⟨b, hdrop, ⟨hsmall, hvalue, hlength⟩ | ⟨hbig, hmore⟩⟩ := hstep hv h
    · refine ⟨b.toNat, hvalue, ?_⟩
      rw [hdrop, List.drop_eq_nil_of_le hlength.le]
      exact takenIn_last _ hsmall
    · have hpow : 2 ^ ((index + 1) * 7) = 128 * 2 ^ (index * 7) := by
        rw [Nat.add_mul, Nat.pow_add]
        omega
      have hlow : b.toNat % 128 * 2 ^ (index * 7) ≤ 127 * 2 ^ (index * 7) :=
        Nat.mul_le_mul_right _ (by omega)
      obtain ⟨n, hvalue, htaken⟩ := ih (by rw [hpow]; omega) hmore
      refine ⟨b.toNat % 128 + 128 * n, ?_, ?_⟩
      · rw [hvalue, hpow]
        ring
      · rw [hdrop]
        exact takenIn_more hbig htaken

/-! ## Readers -/

/-- A reader that holds a cursor: from the bytes and an offset, a value and the
offset past it, or an error. -/
def Get (ε α : Type) := List UInt8 → ℕ → Except ε (α × ℕ)

section Get

variable {ε α β : Type} {bad : ε}

/-- One reader after another. -/
def Get.bind (g : Get ε α) (f : α → Get ε β) : Get ε β := fun bytes offset =>
  (g bytes offset).bind fun r => f r.1 bytes r.2

/-- A reader that never fails in one way, keeps its cursor within the bytes, and
reads from a prefix what it reads from the whole. -/
structure Get.Forward (bad : ε) (g : Get ε α) : Prop where
  guarded : ∀ bytes offset, g bytes offset ≠ .error bad
  bounds : ∀ bytes offset a next, offset ≤ bytes.length → g bytes offset = .ok (a, next) →
    offset ≤ next ∧ next ≤ bytes.length
  whole : ∀ pre bytes offset r, pre <+: bytes → g pre offset = .ok r → g bytes offset = .ok r

theorem Get.forward_pure (a : α) : Get.Forward bad fun _ offset => .ok (a, offset) where
  guarded _ _ h := by simp at h
  bounds bytes offset b next hle h := by
    obtain ⟨-, rfl⟩ := Prod.mk.inj (Except.ok.inj h)
    exact ⟨Nat.le_refl _, hle⟩
  whole _ _ _ _ _ h := h

theorem Get.Forward.bind {g : Get ε α} {f : α → Get ε β} (hg : g.Forward bad)
    (hf : ∀ a, (f a).Forward bad) : (g.bind f).Forward bad where
  guarded bytes offset h := by
    rw [Get.bind] at h
    cases hread : g bytes offset with
    | error e =>
      rw [hread] at h
      exact hg.guarded bytes offset (hread.trans (congrArg _ (Except.error.inj h)))
    | ok r =>
      rw [hread] at h
      exact (hf r.1).guarded bytes r.2 h
  bounds bytes offset b next hle h := by
    rw [Get.bind] at h
    cases hread : g bytes offset with
    | error e =>
      rw [hread] at h
      exact absurd h (by simp [Except.bind])
    | ok r =>
      rw [hread] at h
      -- both parts move forward, and the second one ends inside
      obtain ⟨hmid, hmid'⟩ := hg.bounds bytes offset r.1 r.2 hle hread
      obtain ⟨hend, hend'⟩ := (hf r.1).bounds bytes r.2 b next hmid' h
      exact ⟨hmid.trans hend, hend'⟩
  whole pre bytes offset r hpre h := by
    rw [Get.bind] at h ⊢
    cases hread : g pre offset with
    | error e =>
      rw [hread] at h
      exact absurd h (by simp [Except.bind])
    | ok a =>
      rw [hread] at h
      rw [hg.whole pre bytes offset a hpre hread]
      exact (hf a.1).whole pre bytes a.2 r hpre h

/-- A reader that only looks ahead: behind other bytes it reads the same. -/
def Get.LooksAhead (g : Get ε α) : Prop := ∀ pre bytes offset,
  g (pre ++ bytes) (pre.length + offset) = (g bytes offset).map fun r => (r.1, pre.length + r.2)

theorem Get.looksAhead_pure (a : α) : Get.LooksAhead (ε := ε) fun _ offset => .ok (a, offset) :=
  fun _ _ _ => rfl

theorem Get.LooksAhead.bind {g : Get ε α} {f : α → Get ε β} (hg : g.LooksAhead)
    (hf : ∀ a, (f a).LooksAhead) : (g.bind f).LooksAhead := by
  intro pre bytes offset
  rw [Get.bind, Get.bind, hg pre bytes offset]
  cases g bytes offset with
  | error e => rfl
  | ok r => exact hf r.1 pre bytes r.2

end Get

end Fhetch.Lib
