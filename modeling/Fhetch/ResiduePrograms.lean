/-
Programs of multi-residue arithmetic (`src/fhetch_api.cpp`).

A call over a number with several residues makes one call for each modulus of its first
operand's base, into a result that has been filled with zeros; the base of the other operand
may be larger. A dot product is a first product and then, for each further pair, a product
and a sum.

What the residues of a handle stand for is one integer, up to the product of the base, and
none of the recorded instructions knows it. Each modulus sees arithmetic of its own. Every
integer that stood for the operands makes one that stands for the result, whatever the
base, and a program keeps that from call to call.
-/
import Fhetch.BaseConversion
import Fhetch.RootedTransforms

set_option autoImplicit false

namespace Fhetch

/-! ## The calls -/

/-- Scalars by their moduli. -/
structure MRS where
  base_ : ModuliBase
  scalars_ : UInt64 → Option Scalar

def MRS.from_pairs (pairs : List (Scalar × UInt64)) : MRS where
  base_ := pairs.map Prod.snd
  scalars_ := pairs.foldl (fun scalars pair => Function.update scalars pair.2 (some pair.1)) fun _ => none

/-- The scalar of a modulus; `std::out_of_range` outside the base. -/
def MRS.at (c : MRS) (q : UInt64) : Api Scalar := fun s => (c.scalars_ q).map (·, s)

/-- `MRP()`, which has no residues. -/
def MRP.blank : MRP := MRP.from_pairs []

/-- The loop of every call: zeros in the dimension of the first residue, and an assignment
for each modulus. -/
def mr_assign (x : MRP) (f : UInt64 → Api Polynomial) : Api MRP := do
  let first ← x.at (x.base_.headD 0)
  let z ← MRP.zeros x.base_ first.ring_dim
  x.base_.foldlM (fun z q => do return z.assign q (← f q)) z

/-- The calls with two numbers. -/
def mr_pp (call : Polynomial → Polynomial → UInt64 → Api Polynomial) (x y : MRP) : Api MRP :=
  mr_assign x fun q => do
    let a ← x.at q
    let b ← y.at q
    call a b q

def mr_addp : MRP → MRP → Api MRP := mr_pp sr_addp

def mr_subp : MRP → MRP → Api MRP := mr_pp sr_subp

def mr_mulp : MRP → MRP → Api MRP := mr_pp sr_mulp

/-- The calls with a number and scalars. -/
def mr_ps (call : Polynomial → Scalar → UInt64 → Api Polynomial) (x : MRP) (c : MRS) : Api MRP :=
  mr_assign x fun q => do
    let a ← x.at q
    let v ← c.at q
    call a v q

def mr_addps : MRP → MRS → Api MRP := mr_ps sr_addps

def mr_subps : MRP → MRS → Api MRP := mr_ps sr_subps

def mr_mulps : MRP → MRS → Api MRP := mr_ps sr_mulps

/-- The loop of `mrpa_dotproduct`, from the second pair on. Its arrays have one length;
where the second one ends first, its index is out of range. -/
def mrpa_dotproduct_loop : List MRP → List MRP → MRP → Api MRP
  | [], _, z => return z
  | _ :: _, [], _ => failure
  | a :: x, b :: y, z => do
    let temp ← mr_mulp a b
    let z ← mr_addp z temp
    mrpa_dotproduct_loop x y z

def mrpa_dotproduct : List MRP → List MRP → Api MRP
  | a :: x, b :: y => do
    let z ← mr_mulp a b
    mrpa_dotproduct_loop x y z
  | _, _ => failure

/-! ## What residues stand for -/

/-- An integer whose residues these are. -/
def MRP.Represents (x : MRP) (m : ℕ → ℕ) (X : ℤ) : Prop := ∀ q ∈ x.base_, (x.valueAt m q : ℤ) = X % q.toNat

/-- An integer that scalars are congruent to. They need not be reduced. -/
def MRS.Represents (c : MRS) (X : ℤ) : Prop :=
  ∀ q ∈ c.base_, ∃ v, c.scalars_ q = some v ∧ X ≡ v.int_value.toNat [ZMOD q.toNat]

theorem MRP.Represents.lifts {x : MRP} {m : ℕ → ℕ} {X : ℤ} (h : x.Represents m X) : x.Lifts m X := by
  intro q hq
  rw [h q hq]
  exact (Int.mod_modEq X _).symm

/-- The three operations, over the integers and as recorded. -/
inductive ResidueOp where
  | add
  | sub
  | mul

namespace ResidueOp

def apply : ResidueOp → ℤ → ℤ → ℤ
  | add, X, Y => X + Y
  | sub, X, Y => X - Y
  | mul, X, Y => X * Y

def pp : ResidueOp → FhOpcode
  | add => .FH_SR_ADDP
  | sub => .FH_SR_SUBP
  | mul => .FH_SR_MULP

def ps : ResidueOp → FhOpcode
  | add => .FH_SR_ADDPS
  | sub => .FH_SR_SUBPS
  | mul => .FH_SR_MULPS

/-- `mr_addp`, `mr_subp`, `mr_mulp`. -/
def callPp : ResidueOp → MRP → MRP → Api MRP
  | add => mr_addp
  | sub => mr_subp
  | mul => mr_mulp

/-- `mr_addps`, `mr_subps`, `mr_mulps`. -/
def callPs : ResidueOp → MRP → MRS → Api MRP
  | add => mr_addps
  | sub => mr_subps
  | mul => mr_mulps

variable {q a b c : ℕ} {X Y : ℤ}

/-- Taking a reduced word away. -/
theorem sub_modEq (hq : 0 < q) (ha : X ≡ a [ZMOD q]) (hb : Y ≡ b [ZMOD q]) :
    ((a + (q - b % q) : ℕ) : ℤ) ≡ X - Y [ZMOD q] := by
  have hle : b % q ≤ q := (Nat.mod_lt b hq).le
  have hself : (q : ℤ) ≡ 0 [ZMOD q] := Int.modEq_zero_iff_dvd.mpr dvd_rfl
  calc ((a + (q - b % q) : ℕ) : ℤ) = a + (q - (b % q : ℕ)) := by rw [Nat.cast_add, Nat.cast_sub hle]
    _ ≡ a + (0 - b) [ZMOD q] := by
        refine (hself.sub ?_).add_left _
        rw [Int.natCast_mod]
        exact Int.mod_modEq _ _
    _ = a - b := by ring
    _ ≡ X - Y [ZMOD q] := ha.symm.sub hb.symm

theorem ppValue_eq (op : ResidueOp) (hq : 0 < q) (ha : (a : ℤ) = X % q) (hb : (b : ℤ) = Y % q) :
    (ppValue op.pp q a b : ℤ) = op.apply X Y % q := by
  have hX : X ≡ a [ZMOD q] := ha ▸ (Int.mod_modEq X q).symm
  have hY : Y ≡ b [ZMOD q] := hb ▸ (Int.mod_modEq Y q).symm
  cases op with
  | add =>
    show (((a + b) % q : ℕ) : ℤ) = (X + Y) % q
    rw [Int.natCast_mod, Nat.cast_add]
    exact (hX.add hY).symm
  | sub =>
    show (((a + (q - b % q)) % q : ℕ) : ℤ) = (X - Y) % q
    rw [Int.natCast_mod]
    exact sub_modEq hq hX hY
  | mul =>
    show ((a * b % q : ℕ) : ℤ) = X * Y % q
    rw [Int.natCast_mod, Nat.cast_mul]
    exact (hX.mul hY).symm

/-- The same with a word that need not be reduced. -/
theorem psValue_eq (op : ResidueOp) (hq : 0 < q) (ha : (a : ℤ) = X % q) (hc : Y ≡ c [ZMOD q]) :
    (psValue op.ps q a c : ℤ) = op.apply X Y % q := by
  have hX : X ≡ a [ZMOD q] := ha ▸ (Int.mod_modEq X q).symm
  have hlt : a < q := by
    have hmod := Int.emod_lt_of_pos X (Int.natCast_pos.mpr hq)
    rw [← ha] at hmod
    exact Int.ofNat_lt.mp hmod
  cases op with
  | add =>
    show (psValue .FH_SR_ADDPS q a c : ℤ) = (X + Y) % q
    rw [psValue_addps hlt, Int.natCast_mod, Nat.cast_add]
    exact (hX.add hc).symm
  | sub =>
    show (((a + (q - c % q)) % q : ℕ) : ℤ) = (X - Y) % q
    rw [Int.natCast_mod]
    exact sub_modEq hq hX hc
  | mul =>
    show ((a * c % q : ℕ) : ℤ) = X * Y % q
    rw [Int.natCast_mod, Nat.cast_mul]
    exact (hX.mul hc).symm

end ResidueOp

/-! ## What the calls compute -/

section Calls

variable {s : Session} {x y z : MRP}

theorem MRP.MadeBefore.later {n n' : ℕ} (h : x.MadeBefore n) (hle : n ≤ n') : x.MadeBefore n' :=
  fun q p hp => (h q p hp).trans_le hle

theorem MRP.MadeBefore.assign {n : ℕ} {q : UInt64} {r : Polynomial} (hz : z.MadeBefore n) (hr : r.address < n) :
    (z.assign q r).MadeBefore n := by
  intro q' p hp
  change (if q' = q then (z.residues_ q').map fun _ => r else z.residues_ q') = some p at hp
  split at hp
  · obtain ⟨_, -, rfl⟩ := Option.map_eq_some_iff.mp hp
    exact hr
  · exact hz q' p hp

theorem MRP.assign_valueAt {q : UInt64} (hq : q ∈ z.base_) (r : Polynomial) (m : ℕ → ℕ) :
    (z.assign q r).valueAt m q = m r.address := by
  obtain ⟨p, hp⟩ := z.exists_residue hq
  refine MRP.valueAt_of_some ?_ m
  show (if q = q then (z.residues_ q).map fun _ => r else z.residues_ q) = some r
  rw [if_pos rfl, hp, Option.map_some]

theorem computes_zeros (base : ModuliBase) (ring_dim : ℕ) :
    Computes (MRP.zeros base ring_dim) s (fun z n => z.base_ = base ∧ z.MadeBefore n) fun _ _ => True := by
  have hzero : ∀ q ∈ base, ∀ s' : Session, s.next_address_ ≤ s'.next_address_ →
      Computes (MRP.zero_residue ring_dim q) s' (fun pair n => pair.2 = q ∧ pair.1.address < n) fun _ _ => True := by
    intro q _ s' _
    exact ⟨_, { s' with next_address_ := s'.next_address_ + 1 }, [], rfl,
      ⟨rfl, Nat.le_succ _, List.forall_mem_nil _⟩, ⟨rfl, Nat.lt_succ_self _⟩, fun _ _ => trivial⟩
  have hmap := computes_mapM (R := fun q (pair : Polynomial × UInt64) n => pair.2 = q ∧ pair.1.address < n)
    (Q := fun _ _ _ => True) (fun _ _ _ _ hle h => ⟨h.1, h.2.trans_le hle⟩) hzero
  unfold MRP.zeros
  apply hmap.bind
  intro pairs s' _ hpairs
  have hkeys : pairs.map Prod.snd = base := by
    have hnamed := map_snd_of_forall₂ hpairs fun _ _ h => h.1
    rw [hnamed, List.map_id']
  refine computes_pure ⟨hkeys, fun q p hp => ?_⟩ fun _ _ => trivial
  obtain ⟨_, -, -, hlt⟩ := exists_of_forall₂ hpairs _ (mem_of_assign_residues hp)
  exact hlt

/-- Assignments over moduli: what was computed for a modulus is there at the end. -/
theorem computes_assignments {f : UInt64 → Api Polynomial} {Q : UInt64 → ℕ → (ℕ → ℕ) → Prop} (base : ModuliBase) :
    ∀ {z : MRP} {s : Session}, z.MadeBefore s.next_address_ → base ⊆ z.base_ →
      (∀ q ∈ base, ∀ s', s.next_address_ ≤ s'.next_address_ →
        Computes (f q) s' (fun r n => r.address < n) fun r m => Q q (m r.address) m) →
      Computes (base.foldlM (fun z q => do return z.assign q (← f q)) z) s
        (fun z' n => z'.base_ = z.base_ ∧ z'.MadeBefore n)
        fun z' m => ∀ q, (q ∈ base → Q q (z'.valueAt m q) m) ∧ (q ∉ base → z'.valueAt m q = z.valueAt m q) := by
  induction base with
  | nil =>
    intro z s hz _ _
    exact computes_pure ⟨rfl, hz⟩ fun m q => ⟨fun h => absurd h List.not_mem_nil, fun _ => rfl⟩
  | cons q base ih =>
    intro z s hz hsub hf
    rw [List.foldlM_cons]
    obtain ⟨hq, hrest⟩ := List.cons_subset.mp hsub
    obtain ⟨hfirst, hlater⟩ := List.forall_mem_cons.mp hf
    have hassign : Computes (do return z.assign q (← f q)) s
        (fun z' n => z'.base_ = z.base_ ∧ z'.MadeBefore n)
        fun z' m => Q q (z'.valueAt m q) m ∧ ∀ q' ≠ q, z'.valueAt m q' = z.valueAt m q' := by
      apply (hfirst s (Nat.le_refl _)).bind
      intro r s₁ hle hr
      refine computes_pure ⟨rfl, (hz.later hle).assign hr⟩ fun m hvalue => ⟨?_, fun q' hne => ?_⟩
      · rw [MRP.assign_valueAt hq]
        exact hvalue
      · rw [MRP.valueAt, MRP.valueAt]
        exact congrArg (fun o : Option Polynomial => (o.map fun p => m p.address).getD 0) (if_neg hne)
    apply hassign.bind
    rintro z₁ s₁ hle ⟨hbase, hmade⟩
    refine (ih hmade (hbase ▸ hrest) fun q' hq' s' hs' => hlater q' hq' s' (hle.trans hs')).mono
      (fun z' n _ h => ⟨h.1.trans hbase, h.2⟩) ?_
    rintro z' n m - - hvalues ⟨hvalue, hothers⟩ q'
    obtain ⟨hin, hout⟩ := hvalues q'
    constructor
    · intro hmem
      by_cases hrest' : q' ∈ base
      · exact hin hrest'
      -- the last assignment to this modulus was the first one
      · obtain rfl := (List.mem_cons.mp hmem).resolve_right hrest'
        rw [hout hrest']
        exact hvalue
    · intro hmem
      obtain ⟨hne, hrest'⟩ := not_or.mp (mt List.mem_cons.mpr hmem)
      rw [hout hrest', hothers q' hne]

theorem computes_mr_assign {f : UInt64 → Api Polynomial} {Q : UInt64 → ℕ → (ℕ → ℕ) → Prop} (hne : x.base_ ≠ [])
    (hf : ∀ q ∈ x.base_, ∀ s', s.next_address_ ≤ s'.next_address_ →
      Computes (f q) s' (fun r n => r.address < n) fun r m => Q q (m r.address) m) :
    Computes (mr_assign x f) s (fun z n => z.base_ = x.base_ ∧ z.MadeBefore n)
      fun z m => ∀ q ∈ x.base_, Q q (z.valueAt m q) m := by
  obtain ⟨q₀, base, hbase⟩ := List.exists_cons_of_ne_nil hne
  obtain ⟨first, hfirst⟩ := x.exists_residue (q := x.base_.headD 0) (by rw [hbase]; exact List.mem_cons_self)
  unfold mr_assign
  apply (computes_at hfirst).bind
  intro r s₁ hle₁ _
  apply (computes_zeros x.base_ r.ring_dim).bind
  rintro z s₂ hle₂ ⟨hz, hmade⟩
  refine (computes_assignments x.base_ hmade (hz ▸ List.Subset.refl _) fun q hq s' hs' =>
    hf q hq s' (hle₁.trans (hle₂.trans hs'))).mono (fun z' n _ h => ⟨h.1.trans hz, h.2⟩) ?_
  intro z' n m _ _ hvalues _ _ q hq
  exact (hvalues q).1 hq

theorem ne_zero_of_toNat_pos {q : UInt64} (hq : 0 < q.toNat) : q ≠ 0 := by
  rintro rfl
  exact absurd hq (by decide)

/-- **A call with two numbers** makes what their integers make. -/
theorem computes_callPp (op : ResidueOp) (hne : x.base_ ≠ []) (hpos : ∀ q ∈ x.base_, 0 < q.toNat)
    (hsub : x.base_ ⊆ y.base_) (hx : x.MadeBefore s.next_address_) (hy : y.MadeBefore s.next_address_) :
    Computes (op.callPp x y) s (fun z n => z.base_ = x.base_ ∧ z.MadeBefore n)
      fun z m => ∀ X Y, x.Represents m X → y.Represents m Y → z.Represents m (op.apply X Y) := by
  have hcall : op.callPp x y = mr_assign x (fun q => do sr_pp op.pp (← x.at q) (← y.at q) q) := by
    cases op with
    | _ => rfl
  have hform : fh_operand_form op.pp = .PolyPoly := by
    cases op with
    | _ => decide
  have hop : op.pp = .FH_SR_ADDP ∨ op.pp = .FH_SR_SUBP ∨ op.pp = .FH_SR_MULP := by
    cases op with
    | _ => decide
  rw [hcall]
  have hassign := computes_mr_assign (s := s) (x := x)
    (f := fun q => do sr_pp op.pp (← x.at q) (← y.at q) q)
    (Q := fun q v m => v = ppValue op.pp q.toNat (x.valueAt m q) (y.valueAt m q)) hne (by
      intro q hq s' hle
      obtain ⟨a, ha⟩ := x.exists_residue hq
      obtain ⟨b, hb⟩ := y.exists_residue (hsub hq)
      apply (computes_at ha).bind
      rintro a' s₁ hle₁ rfl
      apply (computes_at hb).bind
      rintro b' s₂ hle₂ rfl
      have hle' := hle.trans (hle₁.trans hle₂)
      apply (computes_pp hform hop (ne_zero_of_toNat_pos (hpos q hq)) ((hx q _ ha).trans_le hle')
        ((hy q _ hb).trans_le hle')).mono (fun _ _ _ h => h)
      intro r n m _ _ hr _ _
      rw [MRP.valueAt_of_some ha, MRP.valueAt_of_some hb, hr])
  refine hassign.mono (fun _ _ _ h => h) ?_
  rintro z n m - ⟨hbase, -⟩ hvalues X Y hX hY q hq
  rw [hbase] at hq
  rw [hvalues q hq]
  exact op.ppValue_eq (hpos q hq) (hX q hq) (hY q (hsub hq))

/-- **A call with scalars** does. -/
theorem computes_callPs (op : ResidueOp) {c : MRS} (hne : x.base_ ≠ []) (hpos : ∀ q ∈ x.base_, 0 < q.toNat)
    (hsub : x.base_ ⊆ c.base_) {C : ℤ} (hc : c.Represents C) (hx : x.MadeBefore s.next_address_) :
    Computes (op.callPs x c) s (fun z n => z.base_ = x.base_ ∧ z.MadeBefore n)
      fun z m => ∀ X, x.Represents m X → z.Represents m (op.apply X C) := by
  have hcall : op.callPs x c = mr_assign x (fun q => do sr_ps op.ps (← x.at q) (← c.at q) q) := by
    cases op with
    | _ => rfl
  have hform : fh_operand_form op.ps = .PolyScalar := by
    cases op with
    | _ => decide
  have hop : op.ps = .FH_SR_ADDPS ∨ op.ps = .FH_SR_SUBPS ∨ op.ps = .FH_SR_MULPS := by
    cases op with
    | _ => decide
  rw [hcall]
  have hassign := computes_mr_assign (s := s) (x := x)
    (f := fun q => do sr_ps op.ps (← x.at q) (← c.at q) q)
    (Q := fun q v m => ∀ X : ℤ, (x.valueAt m q : ℤ) = X % q.toNat → (v : ℤ) = op.apply X C % q.toNat) hne (by
      intro q hq s' hle
      obtain ⟨a, ha⟩ := x.exists_residue hq
      obtain ⟨v, hv, hmod⟩ := hc q (hsub hq)
      apply (computes_at ha).bind
      rintro a' s₁ hle₁ rfl
      have hat : Computes (c.at q) s₁ (fun r _ => r = v) fun _ _ => True := by
        refine ⟨v, s₁, [], ?_, .refl s₁, rfl, fun _ _ => trivial⟩
        show (c.scalars_ q).map (·, s₁) = _
        rw [hv, Option.map_some]
      apply hat.bind
      rintro v' s₂ hle₂ rfl
      apply (computes_ps hform hop (ne_zero_of_toNat_pos (hpos q hq))
        ((hx q _ ha).trans_le (hle.trans (hle₁.trans hle₂)))).mono (fun _ _ _ h => h)
      intro r n m _ _ hr _ _ X hX
      rw [MRP.valueAt_of_some ha] at hX
      rw [hr]
      exact op.psValue_eq (hpos q hq) hX hmod)
  refine hassign.mono (fun _ _ _ h => h) ?_
  rintro z n m - ⟨hbase, -⟩ hvalues X hX q hq
  rw [hbase] at hq
  exact hvalues q hq X (hX q hq)

/-- The sum of products. -/
def dotValue (values : List (ℤ × ℤ)) : ℤ := (values.map fun v => v.1 * v.2).sum

/-- The integers of pairs. -/
def RepresentPairs (m : ℕ → ℕ) : List (MRP × MRP) → List (ℤ × ℤ) → Prop :=
  List.Forall₂ fun pair v => pair.1.Represents m v.1 ∧ pair.2.Represents m v.2

/-- What a pair of a dot product over a base is relied on for. -/
structure PairFits (base : ModuliBase) (n : ℕ) (pair : MRP × MRP) : Prop where
  first : base ⊆ pair.1.base_
  second : pair.1.base_ ⊆ pair.2.base_
  positive : ∀ q ∈ pair.1.base_, 0 < q.toNat
  made : pair.1.MadeBefore n ∧ pair.2.MadeBefore n

theorem PairFits.mono {base : ModuliBase} {n n' : ℕ} {pair : MRP × MRP} (h : PairFits base n pair) (hle : n ≤ n') :
    PairFits base n' pair :=
  ⟨h.first, h.second, h.positive, h.made.1.later hle, h.made.2.later hle⟩

theorem computes_dot_loop {base : ModuliBase} (hne : base ≠ []) (pairs : List (MRP × MRP)) :
    ∀ {z : MRP} {s : Session}, z.base_ = base → z.MadeBefore s.next_address_ → (∀ q ∈ base, 0 < q.toNat) →
      (∀ pair ∈ pairs, PairFits base s.next_address_ pair) →
      Computes (mrpa_dotproduct_loop (pairs.map Prod.fst) (pairs.map Prod.snd) z) s
        (fun r n => r.base_ = base ∧ r.MadeBefore n)
        fun r m => ∀ Z values, z.Represents m Z → RepresentPairs m pairs values → r.Represents m (Z + dotValue values) := by
  induction pairs with
  | nil =>
    intro z s hz hmade _ _
    refine computes_pure ⟨hz, hmade⟩ fun m Z values hZ hvalues => ?_
    cases hvalues
    rw [dotValue, List.map_nil, List.sum_nil, add_zero]
    exact hZ
  | cons pair pairs ih =>
    intro z s hz hmade hpos hpairs
    obtain ⟨hpair, hrest⟩ := List.forall_mem_cons.mp hpairs
    have hpairne : pair.1.base_ ≠ [] := fun h => hne (List.subset_nil.mp (h ▸ hpair.first))
    show Computes (mr_mulp pair.1 pair.2 >>= fun temp => mr_addp z temp >>= fun z' =>
      mrpa_dotproduct_loop (pairs.map Prod.fst) (pairs.map Prod.snd) z') s _ _
    apply (computes_callPp .mul hpairne hpair.positive hpair.second hpair.made.1 hpair.made.2).bind
    rintro temp s₁ hle₁ ⟨htemp, htempmade⟩
    apply (computes_callPp .add (hz ▸ hne) (hz ▸ hpos) (hz ▸ htemp ▸ hpair.first) (hmade.later hle₁) htempmade).bind
    rintro z' s₂ hle₂ ⟨hz', hmade'⟩
    refine (ih (hz'.trans hz) hmade' hpos fun p hp => (hrest p hp).mono (hle₁.trans hle₂)).mono (fun _ _ _ h => h) ?_
    intro r n m _ _ hloop hadd hmul Z values hZ hvalues
    obtain _ | ⟨hv, hvalues⟩ := hvalues
    rename_i v values
    have hfirst := hadd Z (v.1 * v.2) hZ (hmul v.1 v.2 hv.1 hv.2)
    have hall := hloop _ values hfirst hvalues
    rw [dotValue, List.map_cons, List.sum_cons, ← add_assoc]
    exact hall

/-- **A dot product** makes the sum of the products. -/
theorem computes_mrpa_dotproduct (pair : MRP × MRP) (pairs : List (MRP × MRP)) (hne : pair.1.base_ ≠ [])
    (hpairs : ∀ p ∈ pair :: pairs, PairFits pair.1.base_ s.next_address_ p) :
    Computes (mrpa_dotproduct ((pair :: pairs).map Prod.fst) ((pair :: pairs).map Prod.snd)) s
      (fun r n => r.base_ = pair.1.base_ ∧ r.MadeBefore n)
      fun r m => ∀ values, RepresentPairs m (pair :: pairs) values → r.Represents m (dotValue values) := by
  obtain ⟨hpair, hrest⟩ := List.forall_mem_cons.mp hpairs
  show Computes (mr_mulp pair.1 pair.2 >>= fun z =>
    mrpa_dotproduct_loop (pairs.map Prod.fst) (pairs.map Prod.snd) z) s _ _
  apply (computes_callPp .mul hne hpair.positive hpair.second hpair.made.1 hpair.made.2).bind
  rintro z s₁ hle ⟨hz, hmade⟩
  refine (computes_dot_loop hne pairs hz hmade hpair.positive fun p hp => (hrest p hp).mono hle).mono
    (fun _ _ _ h => h) ?_
  intro r n m _ _ hloop hmul values hvalues
  obtain _ | ⟨hv, hvalues⟩ := hvalues
  rename_i v values
  rw [dotValue, List.map_cons, List.sum_cons]
  exact hloop _ values (hmul v.1 v.2 hv.1 hv.2) hvalues

end Calls

/-! ## Programs -/

/-- A call of a program, on what it holds by position. -/
inductive MrCall where
  | pp (op : ResidueOp) (i j : ℕ)
  | ps (op : ResidueOp) (i k : ℕ)
  | dotproduct (first : ℕ × ℕ) (rest : List (ℕ × ℕ))

namespace MrCall

section Running

variable (scalars : List MRS) (held : List MRP)

def nth (i : ℕ) : MRP := held.getD i .blank

def call : MrCall → Api MRP
  | pp op i j => op.callPp (nth held i) (nth held j)
  | ps op i k => op.callPs (nth held i) (scalars.getD k ⟨[], fun _ => none⟩)
  | dotproduct first rest =>
    mrpa_dotproduct ((first :: rest).map fun p => nth held p.1) ((first :: rest).map fun p => nth held p.2)

/-- The calls in turn; the program holds every result. -/
def runAll : List MRP → List MrCall → Api (List MRP)
  | held, [] => return held
  | held, c :: calls => do
    let z ← c.call scalars held
    runAll (held ++ [z]) calls

end Running

/-- The base of a result is that of the first operand. -/
def base (bases : List ModuliBase) : MrCall → ModuliBase
  | pp _ i _ | ps _ i _ => bases.getD i []
  | dotproduct first _ => bases.getD first.1 []

/-- The operands are there, and have a residue for every modulus that is asked for. -/
def Fits (scalarBases bases : List ModuliBase) : MrCall → Prop
  | pp _ i j => bases.getD i [] ≠ [] ∧ bases.getD i [] ⊆ bases.getD j []
  | ps _ i k => bases.getD i [] ≠ [] ∧ bases.getD i [] ⊆ scalarBases.getD k []
  | dotproduct first rest => bases.getD first.1 [] ≠ [] ∧ ∀ p ∈ first :: rest,
      bases.getD first.1 [] ⊆ bases.getD p.1 [] ∧ bases.getD p.1 [] ⊆ bases.getD p.2 []

def AllFit (scalarBases : List ModuliBase) : List ModuliBase → List MrCall → Prop
  | _, [] => True
  | bases, c :: calls => c.Fits scalarBases bases ∧ AllFit scalarBases (bases ++ [c.base bases]) calls

/-- The same call over the integers. -/
def value (constants values : List ℤ) : MrCall → ℤ
  | pp op i j => op.apply (values.getD i 0) (values.getD j 0)
  | ps op i k => op.apply (values.getD i 0) (constants.getD k 0)
  | dotproduct first rest => dotValue ((first :: rest).map fun p => (values.getD p.1 0, values.getD p.2 0))

/-- The program over the integers. -/
def evaluateAll (constants : List ℤ) : List ℤ → List MrCall → List ℤ
  | values, [] => values
  | values, c :: calls => evaluateAll constants (values ++ [c.value constants values]) calls

end MrCall

/-- The integers of everything held. -/
def RepresentAll (m : ℕ → ℕ) : List MRP → List ℤ → Prop := List.Forall₂ fun x X => x.Represents m X

/-- An integer that residues stand for, and, over distinct primes, the only one up to the
product of the base. -/
structure MRP.StandsFor (x : MRP) (m : ℕ → ℕ) (X : ℤ) : Prop where
  residues : x.Represents m X
  unique : PrimeBase x.base_ → ∀ Y, x.Lifts m Y → Y ≡ X [ZMOD baseProduct x.base_]

theorem MRP.Represents.standsFor {x : MRP} {m : ℕ → ℕ} {X : ℤ} (h : x.Represents m X) : x.StandsFor m X :=
  ⟨h, fun hx _ hY => hx.lifts_modEq m hY h.lifts⟩

namespace MrCall

section Held

variable {held : List MRP} {m : ℕ → ℕ}

theorem nth_base (held : List MRP) (i : ℕ) : (held.map MRP.base_).getD i [] = (nth held i).base_ :=
  List.getD_map held .blank MRP.base_

/-- What holds of what is held, and of nothing, holds of every position. -/
theorem nth_of_forall {P : MRP → Prop} (hblank : P .blank) (h : ∀ x ∈ held, P x) (i : ℕ) : P (nth held i) := by
  rw [nth, List.getD_eq_getElem?_getD]
  rcases hi : held[i]? with - | x
  · exact hblank
  · exact h x (List.mem_of_getElem? hi)

theorem getD_of_forall₂ {α β : Type} {R : α → β → Prop} {as : List α} {bs : List β} {a : α} {b : β} (hab : R a b)
    (h : List.Forall₂ R as bs) : ∀ i, R (as.getD i a) (bs.getD i b) := by
  induction h with
  | nil => exact fun _ => hab
  | cons hfirst _ ih =>
    intro i
    cases i with
    | zero => exact hfirst
    | succ i => exact ih i

theorem nth_represents {values : List ℤ} (h : RepresentAll m held values) (i : ℕ) :
    (nth held i).Represents m (values.getD i 0) :=
  getD_of_forall₂ (R := fun (x : MRP) X => x.Represents m X) (fun _ hq => absurd hq List.not_mem_nil) h i

end Held

variable {s : Session} {scalars : List MRS} {constants : List ℤ} {held : List MRP}

/-- **A call of a program** makes what its value is over the integers. -/
theorem computes_call (hscalars : List.Forall₂ MRS.Represents scalars constants)
    (hpos : ∀ x ∈ held, ∀ q ∈ x.base_, 0 < q.toNat) (hmade : ∀ x ∈ held, x.MadeBefore s.next_address_) (c : MrCall)
    (hfits : c.Fits (scalars.map MRS.base_) (held.map MRP.base_)) :
    Computes (c.call scalars held) s
      (fun z n => z.base_ = c.base (held.map MRP.base_) ∧ z.MadeBefore n)
      fun z m => ∀ values, RepresentAll m held values → z.Represents m (c.value constants values) := by
  have hpos' := nth_of_forall (P := fun x => ∀ q ∈ x.base_, 0 < q.toNat) (List.forall_mem_nil _) hpos
  have hmade' := nth_of_forall (P := fun x => x.MadeBefore s.next_address_) (fun q p hp => absurd hp (by simp [MRP.blank, MRP.from_pairs, assign_residues])) hmade
  cases c with
  | pp op i j =>
    obtain ⟨hne, hsub⟩ := hfits
    rw [nth_base] at hne hsub
    rw [nth_base] at hsub
    refine (computes_callPp op hne (hpos' i) hsub (hmade' i) (hmade' j)).mono (fun z n _ h => ?_) ?_
    · rwa [base, nth_base]
    · exact fun z n m _ _ hz values hvalues => hz _ _ (nth_represents hvalues i) (nth_represents hvalues j)
  | ps op i k =>
    obtain ⟨hne, hsub⟩ := hfits
    have hscalar : (scalars.map MRS.base_).getD k [] = (scalars.getD k ⟨[], fun _ => none⟩).base_ :=
      List.getD_map scalars ⟨[], fun _ => none⟩ MRS.base_
    rw [nth_base] at hne hsub
    rw [hscalar] at hsub
    have hc : (scalars.getD k ⟨[], fun _ => none⟩).Represents (constants.getD k 0) :=
      getD_of_forall₂ (fun _ hq => absurd hq List.not_mem_nil) hscalars k
    refine (computes_callPs op hne (hpos' i) hsub hc (hmade' i)).mono (fun z n _ h => ?_) ?_
    · rwa [base, nth_base]
    · exact fun z n m _ _ hz values hvalues => hz _ (nth_represents hvalues i)
  | dotproduct first rest =>
    obtain ⟨hne, hpairs⟩ := hfits
    simp only [nth_base] at hne hpairs
    have hall : ∀ p ∈ (first :: rest).map (fun p : ℕ × ℕ => (nth held p.1, nth held p.2)),
        PairFits (nth held first.1).base_ s.next_address_ p := by
      intro p hp
      obtain ⟨p, hmem, rfl⟩ := List.mem_map.mp hp
      exact ⟨(hpairs p hmem).1, (hpairs p hmem).2, hpos' p.1, hmade' p.1, hmade' p.2⟩
    have hdot := computes_mrpa_dotproduct (s := s) (nth held first.1, nth held first.2)
      (rest.map fun p : ℕ × ℕ => (nth held p.1, nth held p.2)) hne hall
    simp only [← List.map_cons (f := fun p : ℕ × ℕ => (nth held p.1, nth held p.2)), List.map_map] at hdot
    refine hdot.mono (fun z n _ h => ?_) ?_
    · rwa [base, nth_base]
    · intro z n m _ _ hz values hvalues
      refine hz _ ?_
      rw [RepresentPairs, List.forall₂_map_left_iff, List.forall₂_map_right_iff]
      exact List.forall₂_same.mpr fun p _ => ⟨nth_represents hvalues p.1, nth_represents hvalues p.2⟩

/-- **A program** does, call by call. -/
theorem computes_runAll (hscalars : List.Forall₂ MRS.Represents scalars constants) (calls : List MrCall) :
    ∀ {held : List MRP} {s : Session}, (∀ x ∈ held, ∀ q ∈ x.base_, 0 < q.toNat) →
      (∀ x ∈ held, x.MadeBefore s.next_address_) → AllFit (scalars.map MRS.base_) (held.map MRP.base_) calls →
      Computes (runAll scalars held calls) s (fun _ _ => True)
        fun held' m => ∀ values, RepresentAll m held values →
          RepresentAll m held' (evaluateAll constants values calls) := by
  induction calls with
  | nil => exact fun _ _ _ => computes_pure trivial fun _ _ h => h
  | cons c calls ih =>
    intro held s hpos hmade hfits
    obtain ⟨hfirst, hrest⟩ := hfits
    unfold runAll
    apply (computes_call hscalars hpos hmade c hfirst).bind
    rintro z s₁ hle ⟨hbase, hz⟩
    have hposz : ∀ q ∈ z.base_, 0 < q.toNat := by
      rw [hbase]
      have hpos' := nth_of_forall (P := fun x => ∀ q ∈ x.base_, 0 < q.toNat) (List.forall_mem_nil _) hpos
      cases c with
      | pp op i j => rw [base, nth_base]; exact hpos' i
      | ps op i k => rw [base, nth_base]; exact hpos' i
      | dotproduct first rest => rw [base, nth_base]; exact hpos' first.1
    have hpos₁ : ∀ x ∈ held ++ [z], ∀ q ∈ x.base_, 0 < q.toNat :=
      List.forall_mem_append.mpr ⟨hpos, List.forall_mem_singleton.mpr hposz⟩
    have hmade₁ : ∀ x ∈ held ++ [z], x.MadeBefore s₁.next_address_ :=
      List.forall_mem_append.mpr ⟨fun x hx => (hmade x hx).later hle, List.forall_mem_singleton.mpr hz⟩
    have hfits₁ : AllFit (scalars.map MRS.base_) ((held ++ [z]).map MRP.base_) calls := by
      rw [List.map_append, List.map_singleton, hbase]
      exact hrest
    refine (ih hpos₁ hmade₁ hfits₁).mono (fun _ _ _ h => h) ?_
    intro held' n m _ _ hlater hvalue values hvalues
    exact hlater _ (List.rel_append hvalues (.cons (hvalue values hvalues) .nil))

end MrCall

/-- **A residue program computes over the integers.** Whatever integers stand for what it
holds, the recorded instructions, replayed, make every result stand for the value of the
program on them, coefficient by coefficient, up to the product of its base. -/
theorem residue_program_computes {M : NativeMath} (hM : M.Exact) {s : Session} (hs : s.Recording)
    {scalars : List MRS} {constants : List ℤ} (hscalars : List.Forall₂ MRS.Represents scalars constants)
    {held : List MRP} (hpos : ∀ x ∈ held, ∀ q ∈ x.base_, 0 < q.toNat)
    (hmade : ∀ x ∈ held, x.MadeBefore s.next_address_) {calls : List MrCall}
    (hfits : MrCall.AllFit (scalars.map MRS.base_) (held.map MRP.base_) calls) :
    Replays M (MrCall.runAll scalars held calls) s fun held' impl impl' =>
      ∀ j < impl.ring_dim, ∀ values, RepresentAll (impl.coefficient j) held values →
        List.Forall₂ (fun (z : MRP) Z => z.StandsFor (impl'.coefficient j) Z) held'
          (MrCall.evaluateAll constants values calls) := by
  have hcomputes := MrCall.computes_runAll hscalars calls hpos hmade hfits
  apply (hcomputes.replays hM hs).mono
  rintro held' impl impl' ⟨-, hj⟩ j hlt values hvalues
  obtain ⟨hresults, hframe⟩ := hj j hlt
  refine (hresults values ?_).imp fun _ _ h => h.standsFor
  -- what was held before has kept its values
  have hkept : ∀ x ∈ held, ∀ X, x.Represents (impl.coefficient j) X → x.Represents (impl'.coefficient j) X := by
    intro x hx X hX q hq
    rw [MRP.valueAt_congr (hmade x hx) hframe]
    exact hX q hq
  obtain ⟨hlength, hzip⟩ := List.forall₂_iff_zip.mp hvalues
  exact List.forall₂_iff_zip.mpr ⟨hlength, fun {x X} hmem => hkept x (List.of_mem_zip hmem).1 X (hzip hmem)⟩

/-! ### A program -/

/-- The scalar 2 under three moduli. -/
def sampleScalars : MRS :=
  MRS.from_pairs [(⟨3, .Integer, 2⟩, 3), (⟨4, .Integer, 2⟩, 5), (⟨5, .Integer, 2⟩, 7)]

theorem sampleScalars_represents : sampleScalars.Represents 2 := by
  show ∀ q ∈ ([3, 5, 7] : ModuliBase), ∃ v, sampleScalars.scalars_ q = some v ∧ (2 : ℤ) ≡ v.int_value.toNat [ZMOD q.toNat]
  simp only [List.forall_mem_cons]
  exact ⟨⟨_, rfl, rfl⟩, ⟨_, rfl, rfl⟩, ⟨_, rfl, rfl⟩, List.forall_mem_nil _⟩

/-- A number `X`, then `X * X`, `X * X - 2`, and `X * (X * X) + (X * X - 2) * X`. -/
def sampleCalls : List MrCall := [.pp .mul 0 0, .ps .sub 1 0, .dotproduct (0, 1) [(2, 0)]]

theorem residue_program_computes_sample :
    Replays referenceMath (MrCall.runAll [sampleScalars] [sampleResidues] sampleCalls) sampleSession
      fun held' impl impl' => ∀ j < impl.ring_dim, ∀ values, RepresentAll (impl.coefficient j) [sampleResidues] values →
        List.Forall₂ (fun (z : MRP) Z => z.StandsFor (impl'.coefficient j) Z) held'
          (MrCall.evaluateAll [2] values sampleCalls) :=
  residue_program_computes referenceMath_exact sampleSession_recording (.cons sampleScalars_represents .nil)
    (List.forall_mem_singleton.mpr sampleResidues_primeBase.positive)
    (List.forall_mem_singleton.mpr sampleResidues_madeBefore) (by
      have hfits : ∀ base : ModuliBase, base = [3, 5, 7] → MrCall.AllFit [base] [base] sampleCalls := by
        rintro base rfl
        simp [sampleCalls, MrCall.AllFit, MrCall.Fits, MrCall.base]
      exact hfits _ rfl)

end Fhetch
