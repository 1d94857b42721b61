/-
Transforms with chosen roots (`src/fhetch_api.cpp`, `include/niobium/checks.h`): the
calls of the recording API that validate an operand and throw.

What such a call leaves behind where it throws is part of what it does, so a call
here is a state function in both outcomes. A multi-residue transform validates the
root of every residue before it records the first one: a rejected call leaves the
session as it was, an accepted one records one transform per residue.
-/
import Fhetch.DirectEvaluation
import Mathlib.Data.ZMod.Basic

set_option autoImplicit false

namespace Fhetch

open Lib

/-! ## Primitive 2N-th roots of unity -/

/-- What `checks.h` says of a root: `root` is in `[1, q)` and its N-th power is -1
modulo `q`, for a power of two N. -/
structure Negacyclic2NRoot (root ring_dim q : ℕ) : Prop where
  pos : 1 ≤ root
  lt : root < q
  pow_two : ∃ k, ring_dim = 2 ^ k
  power : (root : ZMod q) ^ ring_dim = -1

/-- From `n = 2^j` on, the loop squares up to the power of the dimension `2^k`. -/
theorem primitive_power_eq (q : ℕ) {k : ℕ} : ∀ {j fuel power : ℕ}, j ≤ k → k - j ≤ fuel → power < q →
    primitive_power (2 ^ k) q fuel (2 ^ j) power < q ∧
      (primitive_power (2 ^ k) q fuel (2 ^ j) power : ZMod q) = (power : ZMod q) ^ 2 ^ (k - j) := by
  intro j fuel
  induction fuel generalizing j with
  | zero =>
    intro power hj hfuel hlt
    obtain rfl : j = k := by omega
    refine ⟨hlt, ?_⟩
    rw [primitive_power, Nat.sub_self, pow_zero, pow_one]
  | succ fuel ih =>
    intro power hj hfuel hlt
    rw [primitive_power]
    -- one squaring for each doubling that is left
    by_cases hlast : j = k
    · subst hlast
      rw [if_neg (lt_irrefl _), Nat.sub_self, pow_zero, pow_one]
      exact ⟨hlt, rfl⟩
    · have hjk : j < k := by omega
      rw [if_pos (Nat.pow_lt_pow_right (by omega) hjk), ← pow_succ']
      obtain ⟨hlt', hvalue⟩ := @ih (j + 1) (power * power % q) hjk (by omega) (Nat.mod_lt _ (by omega))
      refine ⟨hlt', ?_⟩
      rw [hvalue, ZMod.natCast_mod, Nat.cast_mul, ← pow_two, ← pow_mul, ← pow_succ',
        show k - (j + 1) + 1 = k - j by omega]

/-- **The check is the definition** for every modulus above 2 and every 64-bit
dimension; it fails for every other modulus. -/
theorem is_primitive_2n_root_iff (root ring_dim q : ℕ) (hdim : ring_dim < 2 ^ 64) :
    is_primitive_2n_root root ring_dim q = true ↔ 2 < q ∧ Negacyclic2NRoot root ring_dim q := by
  rw [is_primitive_2n_root]
  -- the three tests the function fails at once
  by_cases hq : q ≤ 2
  · rw [if_pos (.inl hq)]
    simp [hq]
  by_cases hroot : q ≤ root
  · rw [if_pos (.inr (.inl hroot))]
    refine ⟨fun h => absurd h (by decide), fun h => absurd h.2.lt (by omega)⟩
  by_cases hpow : ring_dim = 0 ∨ ring_dim &&& (ring_dim - 1) ≠ 0
  · rw [if_pos (.inr (.inr hpow))]
    refine ⟨fun h => absurd h (by decide), fun h => ?_⟩
    obtain ⟨hzero, hand⟩ := Nat.ne_zero_and_sub_one_eq_zero_iff_isPowerOfTwo.mpr h.2.pow_two
    rcases hpow with hpow | hpow
    · exact absurd hpow hzero
    · exact absurd hand hpow
  rw [if_neg (by tauto)]
  obtain ⟨k, rfl⟩ : ring_dim.isPowerOfTwo :=
    Nat.ne_zero_and_sub_one_eq_zero_iff_isPowerOfTwo.mp ⟨by tauto, by tauto⟩
  have hk : k < 64 := (Nat.pow_lt_pow_iff_right (by omega)).mp hdim
  -- past them, it compares the power with `-1`
  obtain ⟨hlt, hvalue⟩ := primitive_power_eq q (Nat.zero_le k) (show k - 0 ≤ 64 by omega)
    (show root < q by omega)
  have hq1 : ((q - 1 : ℕ) : ZMod q) = -1 := by
    rw [Nat.cast_sub (by omega), ZMod.natCast_self, Nat.cast_one, zero_sub]
  have hpower : primitive_power (2 ^ k) q 64 1 root = q - 1 ↔ (root : ZMod q) ^ 2 ^ k = -1 := by
    rw [pow_zero, Nat.sub_zero] at hvalue
    rw [pow_zero] at hlt
    rw [← hvalue, ← hq1, ZMod.natCast_eq_natCast_iff', Nat.mod_eq_of_lt hlt,
      Nat.mod_eq_of_lt (show q - 1 < q by omega)]
  -- a root that has this power is not zero
  have hpos : (root : ZMod q) ^ 2 ^ k = -1 → 1 ≤ root := by
    intro h
    by_contra hzero
    obtain rfl : root = 0 := by omega
    rw [Nat.cast_zero, zero_pow (by positivity), ← hq1, ← Nat.cast_zero,
      ZMod.natCast_eq_natCast_iff', Nat.zero_mod, Nat.mod_eq_of_lt (show q - 1 < q by omega)] at h
    omega
  rw [decide_eq_true_iff, hpower]
  exact ⟨fun h => ⟨by omega, hpos h, by omega, ⟨k, rfl⟩, h⟩, fun h => h.2.power⟩

/-! ## Calls that throw -/

/-- A call that throws a text or returns, and leaves a state behind in either case. -/
abbrev Throws (σ α : Type) := ExceptT Str (StateM σ) α

namespace Throws

section Running

variable {σ α β : Type}

/-- What a call gives from a state, and the state it leaves. -/
def on (x : Throws σ α) (s : σ) : Except Str α × σ := x s

theorem on_bind_ok {x : Throws σ α} {f : α → Throws σ β} {s s' : σ} {a : α}
    (h : x.on s = (.ok a, s')) : on (x >>= f) s = (f a).on s' := by
  show on (ExceptT.bind x f) s = _
  simp only [on] at h ⊢
  simp only [ExceptT.bind, ExceptT.mk, bind, StateT.bind, h, ExceptT.bindCont]

theorem on_bind_error {x : Throws σ α} {f : α → Throws σ β} {s s' : σ} {e : Str}
    (h : x.on s = (.error e, s')) : on (x >>= f) s = (.error e, s') := by
  show on (ExceptT.bind x f) s = _
  simp only [on] at h ⊢
  simp only [ExceptT.bind, ExceptT.mk, bind, StateT.bind, h, ExceptT.bindCont]
  rfl

theorem on_get_bind (f : σ → Throws σ β) (s : σ) : on (get >>= f) s = (f s).on s := rfl

theorem on_modify_bind (g : σ → σ) (f : Unit → Throws σ β) (s : σ) :
    on (modify g >>= f) s = (f ()).on (g s) := rfl

end Running

/-- A call of the API that does not throw. -/
def api {α : Type} (f : Api α) : Throws Session α := fun s =>
  match f s with
  | some (a, s') => (.ok a, s')
  | none => (.error [], s)

/-- `x[q]`, with the text of its `std::out_of_range`. -/
def residue {σ : Type} (x : MRP) (q : UInt64) : Throws σ Polynomial :=
  match x.residues_ q with
  | some p => pure p
  | none => throw (str "Modulus not in MRP base")

/-- Throws unless `omega` is a primitive 2N-th root of unity mod q, N being `ring_dim`.
`what` names the caller and, for an MRP, the residue. -/
def require_ntt_root {σ : Type} (what : Str) (omega : UInt64) (ring_dim : ℕ) (q : UInt64) :
    Throws σ Unit :=
  if is_primitive_2n_root omega.toNat ring_dim q.toNat then pure ()
  else throw (what ++ str ": omega " ++ decimal omega.toNat
    ++ str " is not a primitive 2N-th root of unity mod " ++ decimal q.toNat
    ++ str " for N = " ++ decimal ring_dim)

def sr_ntt_with_root (a : Polynomial) (q omega : UInt64) : Throws Session Polynomial := do
  require_ntt_root (str "sr_ntt_with_root") omega a.ring_dim q
  api (record_ntt .FH_SR_NTT a q (some omega))

def sr_intt_with_root (a : Polynomial) (q omega : UInt64) : Throws Session Polynomial := do
  require_ntt_root (str "sr_intt_with_root") omega a.ring_dim q
  api (record_ntt .FH_SR_INTT a q (some omega))

/-- Throws unless `omegas` holds one valid root per residue of `x`, in base order. -/
def require_ntt_roots {σ : Type} (what : Str) (x : MRP) (omegas : List UInt64) : Throws σ Unit :=
  if omegas.length ≠ x.base_.length then
    throw (what ++ str ": expected one root per residue (" ++ decimal x.base_.length
      ++ str "), got " ++ decimal omegas.length)
  else (x.base_.zip omegas).zipIdx.forM fun ((q, omega), i) => do
    let a ← residue x q
    require_ntt_root (what ++ str " residue " ++ decimal i) omega a.ring_dim q

end Throws

def MRP.zero_residue (ring_dim : ℕ) (q : UInt64) : Api (Polynomial × UInt64) := do
  let p ← Polynomial.zeros ring_dim
  return (p, q)

/-- `MRP(base, ring_dim)`: a zero polynomial for each modulus of the base. -/
def MRP.zeros (base : ModuliBase) (ring_dim : ℕ) : Api MRP := do
  let pairs ← base.mapM (MRP.zero_residue ring_dim)
  return { MRP.from_pairs pairs with ring_dim_ := ring_dim }

/-- `z[q] = p`, for a modulus of the base. -/
def MRP.assign (z : MRP) (q : UInt64) (p : Polynomial) : MRP where
  base_ := z.base_
  residues_ q' := if q' = q then (z.residues_ q').map fun _ => p else z.residues_ q'
  ring_dim_ := z.ring_dim_
  covered q' := by
    rw [← z.covered q']
    split
    · rw [Option.isSome_map]
    · rfl

namespace Throws

/-- Records one `sr_ntt` or `sr_intt` per residue. The dimension of the result is that
of the first residue. -/
def record_mr_ntt (op : FhOpcode) (x : MRP) (omegas : List UInt64) : Throws Session MRP := do
  let first ← residue x (x.base_.headD 0)
  let z ← api (MRP.zeros x.base_ first.ring_dim)
  (x.base_.zip omegas).foldlM (fun z (q, omega) => do
    let a ← residue x q
    let r ← api (record_ntt op a q (some omega))
    return z.assign q r) z

def mr_ntt_with_roots (x : MRP) (omegas : List UInt64) : Throws Session MRP := do
  require_ntt_roots (str "mr_ntt_with_roots") x omegas
  record_mr_ntt .FH_SR_NTT x omegas

def mr_intt_with_roots (x : MRP) (omegas : List UInt64) : Throws Session MRP := do
  require_ntt_roots (str "mr_intt_with_roots") x omegas
  record_mr_ntt .FH_SR_INTT x omegas

end Throws

/-! ## What validation leaves -/

namespace Throws

/-- A call that looks at its operands: it returns if they are as they should be, throws
otherwise, and leaves the state alone in both cases. -/
def Checks {σ : Type} (x : Throws σ Unit) (valid : Prop) : Prop :=
  ∀ s, (valid → x.on s = (.ok (), s)) ∧ (¬ valid → ∃ text, x.on s = (.error text, s))

section Checking

variable {σ α : Type} {x y : Throws σ Unit} {valid valid' : Prop}

theorem Checks.bind (hx : Checks x valid) (hy : Checks y valid') :
    Checks (x >>= fun _ => y) (valid ∧ valid') := by
  intro s
  by_cases h : valid
  · have hon := on_bind_ok (f := fun _ => y) ((hx s).1 h)
    rw [hon]
    exact ⟨fun hboth => (hy s).1 hboth.2, fun hnot => (hy s).2 fun hy => hnot ⟨h, hy⟩⟩
  · obtain ⟨text, htext⟩ := (hx s).2 h
    exact ⟨fun hboth => absurd hboth.1 h, fun _ => ⟨text, on_bind_error htext⟩⟩

/-- A loop of checks is a check of everything it goes over. -/
theorem Checks.forM {f : α → Throws σ Unit} {valid : α → Prop} (l : List α)
    (h : ∀ a ∈ l, Checks (f a) (valid a)) : Checks (l.forM f) (∀ a ∈ l, valid a) := by
  induction l with
  | nil => exact fun s => ⟨fun _ => rfl, fun hnot => absurd (fun _ ha => absurd ha List.not_mem_nil) hnot⟩
  | cons a l ih =>
    have hcons : Checks (f a >>= fun _ => l.forM f) (valid a ∧ ∀ b ∈ l, valid b) :=
      (h a List.mem_cons_self).bind (ih fun b hb => h b (List.mem_cons_of_mem a hb))
    rwa [List.forall_mem_cons]

end Checking

theorem residue_of_some {σ : Type} {x : MRP} {q : UInt64} {a : Polynomial} (h : x.residues_ q = some a) :
    (residue x q : Throws σ Polynomial) = pure a := by
  rw [residue, h]

theorem checks_require_ntt_root {σ : Type} (what : Str) (omega : UInt64) (ring_dim : ℕ) (q : UInt64) :
    Checks (require_ntt_root (σ := σ) what omega ring_dim q)
      (is_primitive_2n_root omega.toNat ring_dim q.toNat = true) := by
  intro s
  unfold require_ntt_root
  refine ⟨fun h => ?_, fun h => ?_⟩
  · rw [if_pos h]
    rfl
  · rw [if_neg h]
    exact ⟨_, rfl⟩

/-- The root that a list gives for a modulus of the base is one for its residue. -/
def RootFor (x : MRP) (pair : UInt64 × UInt64) : Prop :=
  ∃ a, x.residues_ pair.1 = some a ∧
    is_primitive_2n_root pair.2.toNat a.ring_dim pair.1.toNat = true

theorem checks_require_ntt_roots {σ : Type} (what : Str) (x : MRP) (omegas : List UInt64) :
    Checks (require_ntt_roots (σ := σ) what x omegas)
      (omegas.length = x.base_.length ∧ ∀ pair ∈ x.base_.zip omegas, RootFor x pair) := by
  have hloop := @Checks.forM σ _ (fun pi => RootFor x pi.1)
    (f := fun ((q, omega), i) => do
      let a ← residue x q
      require_ntt_root (what ++ str " residue " ++ decimal i) omega a.ring_dim q)
    (x.base_.zip omegas).zipIdx (by
      rintro ⟨⟨q, omega⟩, i⟩ hmem
      obtain ⟨hq, -⟩ := List.of_mem_zip (List.fst_mem_of_mem_zipIdx hmem)
      obtain ⟨a, ha⟩ := Option.isSome_iff_exists.mp ((x.covered q).mpr hq)
      have hroot : RootFor x (q, omega) ↔
          is_primitive_2n_root omega.toNat a.ring_dim q.toNat = true := by
        simp [RootFor, ha]
      show Checks (residue x q >>= fun a => _) (RootFor x (q, omega))
      rw [hroot, residue_of_some ha, pure_bind]
      exact checks_require_ntt_root _ _ _ _)
  -- the index is for the message only
  have hpairs : (∀ pi ∈ (x.base_.zip omegas).zipIdx, RootFor x pi.1) ↔
      ∀ pair ∈ x.base_.zip omegas, RootFor x pair := by
    refine ⟨fun h pair hpair => ?_, fun h pi hpi => h pi.1 (List.fst_mem_of_mem_zipIdx hpi)⟩
    obtain ⟨i, hi, rfl⟩ := List.getElem_of_mem hpair
    exact h (_, i) (List.mem_zipIdx_iff_getElem?.mpr (List.getElem?_eq_getElem hi))
  rw [hpairs] at hloop
  intro s
  unfold require_ntt_roots
  by_cases hlength : omegas.length = x.base_.length
  · rw [if_neg (not_not_intro hlength)]
    exact ⟨fun h => (hloop s).1 h.2, fun h => (hloop s).2 fun hroots => h ⟨hlength, hroots⟩⟩
  · rw [if_pos hlength]
    exact ⟨fun h => absurd h.1 hlength, fun _ => ⟨_, rfl⟩⟩

end Throws

/-! ## What recording adds -/

/-- The instruction of one transform: from `a`, modulo `q` by its index, with the root
`omega`, to the address `d`. -/
def IsTransform (op : FhOpcode) (index : UInt64 → Option UInt32) (a : Polynomial)
    (q omega : UInt64) (d : ℕ) (inst : Instruction) : Prop :=
  ∃ i, index q = some i ∧
    inst = { ir op d a.address with omega := some omega, modulus := some i.toUInt64 }

theorem IsTransform.mono {op : FhOpcode} {index index' : UInt64 → Option UInt32} {a : Polynomial}
    {q omega : UInt64} {d : ℕ} {inst : Instruction} (h : IsTransform op index a q omega d inst)
    (hextends : ∀ q i, index q = some i → index' q = some i) :
    IsTransform op index' a q omega d inst := by
  obtain ⟨i, hi, hinst⟩ := h
  exact ⟨i, hextends q i hi, hinst⟩

/-- An index of a consistent table selects its modulus, as long as every place of the
table fits the index type. -/
theorem IsTransform.selects {tw : TraceWriter} (h : tw.Consistent)
    (hsize : tw.modulus_table_.length ≤ 2 ^ 32) {op : FhOpcode} {a : Polynomial} {q omega : UInt64}
    {d : ℕ} {inst : Instruction} (ht : IsTransform op tw.modulus_index_ a q omega d inst) :
    inst.selects tw.modulus_table_ = some q := by
  obtain ⟨i, hi, rfl⟩ := ht
  rw [h.lookup] at hi
  by_cases hmem : q ∈ tw.modulus_table_
  · rw [if_pos hmem] at hi
    have hlt := List.idxOf_lt_length_of_mem hmem
    obtain rfl := Option.some.inj hi
    show tw.modulus_table_[_]? = some q
    rw [toNat_place (by omega), getElem?_idxOf_of_mem hmem]
  · rw [if_neg hmem] at hi
    exact absurd hi (by simp)

/-- What the transforms of some residues, each modulus with its root, do to a session
and to the result they are assigned to. -/
structure Transforms (op : FhOpcode) (x : MRP) (l : List (UInt64 × UInt64)) (z : MRP) (s : Session)
    (z' : MRP) (s' : Session) : Prop where
  next : s'.next_address_ = s.next_address_ + l.length
  keeps : s'.writer.keeps = s.writer.keeps
  extends_index : ∀ q i, s.writer.modulus_index_ q = some i → s'.writer.modulus_index_ q = some i
  consistent : s.writer.Consistent → s'.writer.Consistent
  recorded : ∃ insts, s'.writer.instructions_ =
      s.writer.instructions_ ++ (if s.writer.keeps then insts else []) ∧
    List.Forall₂ (fun pair inst => ∃ a, x.residues_ pair.1.1 = some a ∧
      IsTransform op s'.writer.modulus_index_ a pair.1.1 pair.1.2 pair.2 inst)
      (l.zipIdx s.next_address_) insts
  base : z'.base_ = z.base_
  residues : ∀ q p, z'.residues_ q = some p →
    (∃ omega, ((q, omega), p.address) ∈ l.zipIdx s.next_address_) ∨
      (z.residues_ q = some p ∧ q ∉ l.map Prod.fst)

theorem Transforms.nil (op : FhOpcode) (x z : MRP) (s : Session) : Transforms op x [] z s z s where
  next := rfl
  keeps := rfl
  extends_index _ _ h := h
  consistent h := h
  recorded := ⟨[], by simp, List.Forall₂.nil⟩
  base := rfl
  residues _ _ h := .inr ⟨h, List.not_mem_nil⟩

theorem Transforms.trans {op : FhOpcode} {x z₀ z₁ z₂ : MRP} {s₀ s₁ s₂ : Session}
    {l₁ l₂ : List (UInt64 × UInt64)} (h₁ : Transforms op x l₁ z₀ s₀ z₁ s₁)
    (h₂ : Transforms op x l₂ z₁ s₁ z₂ s₂) : Transforms op x (l₁ ++ l₂) z₀ s₀ z₂ s₂ where
  next := by
    rw [h₂.next, h₁.next, List.length_append]
    omega
  keeps := h₂.keeps.trans h₁.keeps
  extends_index q i h := h₂.extends_index q i (h₁.extends_index q i h)
  consistent h := h₂.consistent (h₁.consistent h)
  recorded := by
    obtain ⟨insts₁, hinsts₁, hall₁⟩ := h₁.recorded
    obtain ⟨insts₂, hinsts₂, hall₂⟩ := h₂.recorded
    refine ⟨insts₁ ++ insts₂, ?_, ?_⟩
    · rw [hinsts₂, hinsts₁, h₁.keeps, List.append_assoc]
      split <;> rfl
    · rw [List.zipIdx_append, ← h₁.next]
      refine List.rel_append (hall₁.imp fun pair inst h => ?_) hall₂
      obtain ⟨a, ha, ht⟩ := h
      exact ⟨a, ha, ht.mono h₂.extends_index⟩
  base := h₂.base.trans h₁.base
  residues q p h := by
    rw [List.zipIdx_append, ← h₁.next]
    -- the last loop that writes a modulus decides
    rcases h₂.residues q p h with ⟨omega, hmem⟩ | ⟨hz, hnot⟩
    · exact .inl ⟨omega, List.mem_append_right _ hmem⟩
    · rcases h₁.residues q p hz with ⟨omega, hmem⟩ | ⟨hz, hnot'⟩
      · exact .inl ⟨omega, List.mem_append_left _ hmem⟩
      · refine .inr ⟨hz, fun h => ?_⟩
        rw [List.map_append, List.mem_append] at h
        exact h.elim hnot' hnot

namespace Throws

theorem api_of_some {α : Type} {f : Api α} {s s' : Session} {a : α} (h : f s = some (a, s')) :
    (api f).on s = (.ok a, s') := by
  show api f s = _
  simp only [api, h]

end Throws

/-- **One transform**: an address for the result, the moduli remembered, an instruction. -/
theorem record_ntt_gives (op : FhOpcode) (a : Polynomial) (q omega : UInt64) (s : Session) :
    ∃ r s', record_ntt op a q (some omega) s = some (r, s') ∧ r.address = s.next_address_ ∧
      s'.next_address_ = s.next_address_ + 1 ∧
      s'.writer = emit_ntt op s.next_address_ a.address q (some omega) s.writer := by
  obtain ⟨r, hmake, hr⟩ := make_result_gives s a
    (if op = .FH_SR_NTT then .Evaluation else .Coefficient)
  have hframe := Session.remember_moduli_frame [a.address, r.address] q
    { s with next_address_ := s.next_address_ + 1 }
  refine ⟨r, { s.prepared [a.address, r.address] q with
    writer := emit_ntt op r.address a.address q (some omega)
      (s.prepared [a.address, r.address] q).writer }, ?_, hr.address, ?_, ?_⟩
  · show (make_result a _ s).bind _ = _
    rw [hmake]
    rfl
  · rw [Session.prepared, hframe]
  · rw [Session.prepared, hframe, hr.address]

/-- The body of the loop. -/
theorem Transforms.one (op : FhOpcode) {x : MRP} (z : MRP) (s : Session) {q : UInt64} {a : Polynomial}
    (omega : UInt64) (ha : x.residues_ q = some a) :
    ∃ r s', record_ntt op a q (some omega) s = some (r, s') ∧
      Transforms op x [(q, omega)] z s (z.assign q r) s' := by
  obtain ⟨r, s', hrecord, haddress, hnext, hwriter⟩ := record_ntt_gives op a q omega s
  obtain ⟨hkeeps, hextends, hconsistent, i, hindex, hinsts⟩ :=
    emit_mod_gives { ir op s.next_address_ a.address with omega := some omega } q s.writer
  have hemit : emit_ntt op s.next_address_ a.address q (some omega) s.writer =
      emit_mod { ir op s.next_address_ a.address with omega := some omega } q s.writer := rfl
  rw [hemit] at hwriter
  refine ⟨r, s', hrecord, ⟨hnext, ?_, ?_, ?_, ?_, rfl, ?_⟩⟩
  · rw [hwriter, hkeeps]
  · rw [hwriter]
    exact hextends
  · rw [hwriter]
    exact hconsistent
  · refine ⟨_, by rw [hwriter, hinsts], ?_⟩
    rw [hwriter]
    exact List.Forall₂.cons ⟨a, ha, i, hindex, rfl⟩ List.Forall₂.nil
  · intro q' p hp
    simp only [MRP.assign] at hp
    -- the residue just written, or one from before
    by_cases hq : q' = q
    · subst hq
      rw [if_pos rfl] at hp
      obtain ⟨_, -, rfl⟩ := Option.map_eq_some_iff.mp hp
      exact .inl ⟨omega, by rw [haddress]; exact List.mem_singleton_self _⟩
    · rw [if_neg hq] at hp
      exact .inr ⟨hp, by simpa using hq⟩

namespace Throws

/-- The loop over the residues. -/
theorem transforms_loop (op : FhOpcode) {x : MRP} :
    ∀ (l : List (UInt64 × UInt64)) (z : MRP) (s : Session), (∀ pair ∈ l, pair.1 ∈ x.base_) →
      ∃ z' s', on (l.foldlM (fun z (q, omega) => do
          let a ← residue x q
          let r ← api (record_ntt op a q (some omega))
          return z.assign q r) z) s = (.ok z', s') ∧ Transforms op x l z s z' s' := by
  intro l
  induction l with
  | nil => exact fun z s _ => ⟨z, s, rfl, Transforms.nil op x z s⟩
  | cons pair l ih =>
    obtain ⟨q, omega⟩ := pair
    intro z s hbase
    -- every modulus of the base has a residue
    obtain ⟨a, ha⟩ := Option.isSome_iff_exists.mp ((x.covered q).mpr (hbase _ List.mem_cons_self))
    obtain ⟨r, s₁, hrecord, hone⟩ := Transforms.one op z s omega ha
    obtain ⟨z', s', hloop, hrest⟩ := ih (z.assign q r) s₁
      fun pair hpair => hbase pair (List.mem_cons_of_mem _ hpair)
    refine ⟨z', s', ?_, hone.trans hrest⟩
    rw [List.foldlM_cons]
    refine .trans ?_ hloop
    apply on_bind_ok
    show on (residue x q >>= fun a => _) s = _
    rw [residue_of_some ha, pure_bind, on_bind_ok (api_of_some hrecord)]
    rfl

end Throws

/-- The zero polynomials of a base take an address each. -/
theorem MRP.zeros_gives (base : ModuliBase) (ring_dim : ℕ) (s : Session) :
    ∃ z, MRP.zeros base ring_dim s = some (z, { s with next_address_ := s.next_address_ + base.length }) ∧
      z.base_ = base := by
  have hpairs : ∀ (base : ModuliBase) (s : Session), ∃ pairs : List (Polynomial × UInt64),
      base.mapM (MRP.zero_residue ring_dim) s =
        some (pairs, { s with next_address_ := s.next_address_ + base.length }) ∧
      pairs.map Prod.snd = base := by
    intro base
    induction base with
    | nil => exact fun s => ⟨[], rfl, rfl⟩
    | cons q base ih =>
      intro s
      -- each residue takes the next address
      obtain ⟨pairs, hpairs, hbase⟩ := ih { s with next_address_ := s.next_address_ + 1 }
      refine ⟨({ address := s.next_address_, ring_dim, fmt := .Evaluation, ntype := .Integer }, q) :: pairs,
        ?_, by rw [List.map_cons, hbase]⟩
      rw [List.mapM_cons]
      show (base.mapM (MRP.zero_residue ring_dim) { s with next_address_ := s.next_address_ + 1 }).bind _ = _
      rw [hpairs, List.length_cons, show s.next_address_ + (base.length + 1) =
        s.next_address_ + 1 + base.length by omega]
      rfl
  obtain ⟨pairs, hmap, hbase⟩ := hpairs base s
  refine ⟨{ MRP.from_pairs pairs with ring_dim_ := ring_dim }, ?_, hbase⟩
  show (base.mapM (MRP.zero_residue ring_dim) s).bind _ = _
  rw [hmap]
  rfl

/-! ## All or nothing -/

/-- The roots that the calls accept: one per residue, each a root for its residue's
modulus and dimension. No modulus up to 2 has one. -/
structure RootsOf (x : MRP) (omegas : List UInt64) : Prop where
  length : omegas.length = x.base_.length
  root : ∀ pair ∈ x.base_.zip omegas, ∀ a, x.residues_ pair.1 = some a →
    2 < pair.1.toNat ∧ Negacyclic2NRoot pair.2.toNat a.ring_dim pair.1.toNat

/-- What the transform of a residue carries: the source, the root, and the modulus by its
index. While addresses and places of the table fit 32 bits, its destination is the fresh
address, and the index selects the modulus. -/
structure CarriesResidue (op : FhOpcode) (x : MRP) (s s' : Session) (q omega : UInt64) (d : ℕ) (inst : Instruction) :
    Prop where
  opcode : inst.opcode = op
  omega : inst.omega = some omega
  index : ∃ i, s'.writer.modulus_index_ q = some i ∧ inst.modulus = some i.toUInt64
  fresh : s.next_address_ ≤ d
  dest : s'.next_address_ ≤ 2 ^ 32 → inst.dest.toNat = d
  src1 : ∃ a, x.residues_ q = some a ∧ (a.address < 2 ^ 32 → inst.src1.toNat = a.address)
  selects : s.writer.Consistent → s'.writer.modulus_table_.length ≤ 2 ^ 32 →
    inst.selects s'.writer.modulus_table_ = some q

theorem IsTransform.carries {op : FhOpcode} {x : MRP} {s s' : Session} {q omega : UInt64} {d : ℕ} {inst : Instruction}
    {a : Polynomial} (ha : x.residues_ q = some a) (h : IsTransform op s'.writer.modulus_index_ a q omega d inst)
    (hconsistent : s.writer.Consistent → s'.writer.Consistent) (hfresh : s.next_address_ ≤ d)
    (hbelow : d < s'.next_address_) : CarriesResidue op x s s' q omega d inst := by
  have hselects := fun hc hsize => h.selects (hconsistent hc) hsize
  obtain ⟨i, hi, rfl⟩ := h
  exact
    { opcode := rfl
      omega := rfl
      index := ⟨i, hi, rfl⟩
      fresh := hfresh
      dest := fun hfits => UInt32.toNat_ofNat_of_lt' (hbelow.trans_le hfits)
      src1 := ⟨a, ha, fun hfits => UInt32.toNat_ofNat_of_lt' hfits⟩
      selects := hselects }

/-- What an accepted call does: one transform per residue in base order, while the writer
keeps what it is given. The result has as many residues, each at the address that a
transform of its modulus writes; the addresses are the ones after those of the
placeholders it is made with, so none was handed out before. -/
structure TransformsAll (op : FhOpcode) (x : MRP) (omegas : List UInt64) (s : Session) (z : MRP)
    (s' : Session) : Prop where
  base : z.base_ = x.base_
  residues : ∀ q p, z.residues_ q = some p →
    ∃ omega, ((q, omega), p.address) ∈
      (x.base_.zip omegas).zipIdx (s.next_address_ + x.base_.length)
  next : s'.next_address_ = s.next_address_ + 2 * x.base_.length
  recorded : ∃ insts, s'.writer.instructions_ =
      s.writer.instructions_ ++ (if s.writer.keeps then insts else []) ∧
    List.Forall₂ (fun pair inst => CarriesResidue op x s s' pair.1.1 pair.1.2 pair.2 inst)
      ((x.base_.zip omegas).zipIdx (s.next_address_ + x.base_.length)) insts

structure AllOrNothing (op : FhOpcode) (x : MRP) (omegas : List UInt64) (s : Session)
    (outcome : Except Str MRP × Session) : Prop where
  throws_iff : (∃ text, outcome.1 = .error text) ↔ ¬ RootsOf x omegas
  nothing : ∀ text, outcome.1 = .error text → outcome.2 = s
  all : ∀ z, outcome.1 = .ok z → TransformsAll op x omegas s z outcome.2

namespace Throws

variable {x : MRP} {omegas : List UInt64}

/-- The validation loop and the list of roots mean the same. -/
theorem rootsOf_iff (hdim : ∀ q a, x.residues_ q = some a → a.ring_dim < 2 ^ 64) :
    RootsOf x omegas ↔
      omegas.length = x.base_.length ∧ ∀ pair ∈ x.base_.zip omegas, RootFor x pair := by
  have hfor : ∀ pair ∈ x.base_.zip omegas, RootFor x pair ↔ ∀ a, x.residues_ pair.1 = some a →
      2 < pair.1.toNat ∧ Negacyclic2NRoot pair.2.toNat a.ring_dim pair.1.toNat := by
    intro pair hpair
    obtain ⟨a, ha⟩ := Option.isSome_iff_exists.mp ((x.covered pair.1).mpr (List.of_mem_zip hpair).1)
    simp only [RootFor, ha, Option.some.injEq, exists_eq_left', forall_eq',
      is_primitive_2n_root_iff _ _ _ (hdim _ _ ha)]
  refine ⟨fun h => ⟨h.length, fun pair hpair => (hfor pair hpair).mpr (h.root pair hpair)⟩,
    fun h => ⟨h.1, fun pair hpair => (hfor pair hpair).mp (h.2 pair hpair)⟩⟩

/-- Behind its validation, the call records everything. -/
theorem record_mr_ntt_gives (op : FhOpcode) (hx : x.base_ ≠ [])
    (hlength : omegas.length = x.base_.length) (s : Session) :
    ∃ z s', (record_mr_ntt op x omegas).on s = (.ok z, s') ∧ TransformsAll op x omegas s z s' := by
  obtain ⟨q₀, base, hbase⟩ := List.exists_cons_of_ne_nil hx
  obtain ⟨first, hfirst⟩ := Option.isSome_iff_exists.mp ((x.covered q₀).mpr (by simp [hbase]))
  obtain ⟨z₀, hzeros, hz₀⟩ := MRP.zeros_gives x.base_ first.ring_dim s
  obtain ⟨z, s', hloop, ht⟩ := transforms_loop op (x.base_.zip omegas) z₀
    { s with next_address_ := s.next_address_ + x.base_.length }
    fun pair hpair => (List.of_mem_zip hpair).1
  have hmoduli : (x.base_.zip omegas).map Prod.fst = x.base_ := List.map_fst_zip (by omega)
  refine ⟨z, s', ?_, ?_, ?_, ?_, ?_⟩
  · rw [record_mr_ntt, hbase, List.headD_cons, residue_of_some hfirst, pure_bind, ← hbase,
      on_bind_ok (api_of_some hzeros)]
    exact hloop
  · rw [ht.base, hz₀]
  · intro q p hp
    rcases ht.residues q p hp with h | ⟨h, hnot⟩
    · exact h
    -- the base is covered, so no residue is left as it was allocated
    · refine absurd ?_ hnot
      rw [hmoduli, ← hz₀, ← z₀.covered, h]
      rfl
  · rw [ht.next, List.length_zip]
    show s.next_address_ + x.base_.length + _ = _
    omega
  · obtain ⟨insts, hinsts, hall⟩ := ht.recorded
    obtain ⟨hcount, hzip⟩ := List.forall₂_iff_zip.mp hall
    refine ⟨insts, hinsts, List.forall₂_iff_zip.mpr ⟨hcount, fun {pair inst} hmem => ?_⟩⟩
    obtain ⟨a, ha, hinst⟩ := hzip hmem
    -- the addresses behind those of the placeholders, up to the counter
    obtain ⟨hle, hlt, -⟩ := List.mem_zipIdx (List.of_mem_zip hmem).1
    have hnext := ht.next
    refine hinst.carries ha ht.consistent ?_ ?_
    · show s.next_address_ ≤ pair.2
      have hstart : s.next_address_ + x.base_.length ≤ pair.2 := hle
      omega
    · rw [hnext]
      exact hlt

theorem all_or_nothing (op : FhOpcode) (what : Str) (hx : x.base_ ≠ [])
    (hdim : ∀ q a, x.residues_ q = some a → a.ring_dim < 2 ^ 64) (s : Session) :
    AllOrNothing op x omegas s
      ((require_ntt_roots what x omegas >>= fun _ => record_mr_ntt op x omegas).on s) := by
  obtain ⟨hvalid, hinvalid⟩ := checks_require_ntt_roots what x omegas s
  rw [← rootsOf_iff hdim] at hvalid hinvalid
  by_cases hroots : RootsOf x omegas
  · obtain ⟨z, s', hrecord, hall⟩ := record_mr_ntt_gives op hx hroots.length s
    rw [on_bind_ok (hvalid hroots), hrecord]
    refine ⟨⟨?_, fun h => absurd hroots h⟩, ?_, ?_⟩
    · rintro ⟨text, htext⟩
      exact absurd htext (by simp)
    · exact fun text htext => absurd htext (by simp)
    · intro z' hz'
      obtain rfl := Except.ok.inj hz'
      exact hall
  · obtain ⟨text, htext⟩ := hinvalid hroots
    rw [on_bind_error htext]
    exact ⟨⟨fun _ => hroots, fun _ => ⟨text, rfl⟩⟩, fun _ _ => rfl, fun z hz => absurd hz (by simp)⟩

end Throws

/-- **Rooted multi-residue transforms are all-or-nothing**, in both directions. -/
theorem rooted_transforms_all_or_nothing (x : MRP) (hx : x.base_ ≠ [])
    (hdim : ∀ q a, x.residues_ q = some a → a.ring_dim < 2 ^ 64) (omegas : List UInt64) (s : Session) :
    AllOrNothing .FH_SR_NTT x omegas s ((Throws.mr_ntt_with_roots x omegas).on s) ∧
      AllOrNothing .FH_SR_INTT x omegas s ((Throws.mr_intt_with_roots x omegas).on s) :=
  ⟨Throws.all_or_nothing _ _ hx hdim s, Throws.all_or_nothing _ _ hx hdim s⟩

/-- One residue of dimension 1 modulo `q`. -/
def oneResidue (q : UInt64) : MRP :=
  MRP.from_pairs [({ address := 0, ring_dim := 1, fmt := .Coefficient, ntype := .Integer }, q)]

/-- Modulo 17, a root that is accepted and one that is not. -/
theorem rooted_transforms_all_or_nothing_seventeen :
    AllOrNothing .FH_SR_NTT (oneResidue 17) [16] {}
        ((Throws.mr_ntt_with_roots (oneResidue 17) [16]).on {}) ∧
      AllOrNothing .FH_SR_INTT (oneResidue 17) [16] {}
        ((Throws.mr_intt_with_roots (oneResidue 17) [16]).on {}) := by
  refine rooted_transforms_all_or_nothing (oneResidue 17) (by decide) (fun q a h => ?_) [16] {}
  obtain ⟨rfl, -⟩ := Prod.mk.inj (List.mem_singleton.mp (mem_of_assign_residues h))
  decide

/-- 1 is a root modulo 2 for the dimension 1 by the definition, and it is rejected. And
before a recording is started an accepted call records nothing. -/
theorem binary_root_rejected :
    ¬ ((∃ text, ((Throws.mr_ntt_with_roots (oneResidue 2) [1]).on {}).1 = .error text) ↔
      [(1 : UInt64)].length ≠ (oneResidue 2).base_.length ∨
        ∃ pair ∈ (oneResidue 2).base_.zip [(1 : UInt64)], ∃ a, (oneResidue 2).residues_ pair.1 = some a ∧
          ¬ Negacyclic2NRoot pair.2.toNat a.ring_dim pair.1.toNat) ∧
    ((Throws.mr_ntt_with_roots (oneResidue 17) [16]).on {}).1.isOk = true ∧
      ((Throws.mr_ntt_with_roots (oneResidue 17) [16]).on {}).2.writer.instructions_ = [] := by
  refine ⟨fun h => ?_, by decide, by decide⟩
  rcases h.mp ⟨_, rfl⟩ with hlength | ⟨pair, hpair, a, ha, hnot⟩
  · exact hlength rfl
  · obtain rfl : pair = (2, 1) := List.mem_singleton.mp hpair
    obtain rfl := Option.some.inj ha
    exact hnot ⟨by decide, by decide, ⟨0, rfl⟩, by decide⟩

end Fhetch
