/-
The signed modulus switch, in the three forms it is recorded in.

`center_mod_q_into_p` (`src/fhetch_api.cpp`) shifts by half the modulus, multiplies by
one under the new modulus and shifts back; its longer shape has a multiplication by one
before that, so that a driver can recognize the chain. `openfhe_cprobe_switchmodulus`
(`src/probes.cpp`) writes one address four times instead. All of them leave the
representative of the residue that is nearest to zero, reduced by the new modulus.

So the shape of the chains does not matter for a conversion, a rescaling or a
decomposition. Each takes other addresses in the other shape, and what it leaves is the
same function of the residues, as long as there was nothing at the addresses that it
takes: the residues of an empty product are never written.
-/
import Fhetch.DigitDecomposition
import Fhetch.ProbeMeaning

set_option autoImplicit false

namespace Fhetch

open Crt SingleAssignment

/-! ## The value -/

/-- The residue nearest to zero, reduced by another modulus. -/
def rebased (q p v : ℕ) : ℕ := (centered q v % p).toNat

theorem rebased_lt {q p : ℕ} (hp : 0 < p) (v : ℕ) : rebased q p v < p := by
  have hlt := Int.emod_lt_of_pos (centered q v) (Int.natCast_pos.mpr hp)
  have hnonneg := Int.emod_nonneg (centered q v) (Int.natCast_ne_zero.mpr hp.ne')
  unfold rebased
  omega

theorem switched_eq_rebased {q v : ℕ} (hq : q % 2 = 1) (hv : v < q) (p : ℕ) :
    switched q p v = rebased q p v := by
  have hhalf : q / 2 = (q - 1) / 2 := by omega
  unfold switched rebased centered
  rw [Nat.mod_eq_of_lt hv, hhalf]

/-! ## The chains of the recording API -/

theorem center_replays {M : NativeMath} (hM : M.Exact) {s : Session} (hs : s.Recording) {a : Polynomial}
    (ha : a.address < s.next_address_) {q p : UInt64} (hq : q.toNat % 2 = 1) (hp : 0 < p.toNat)
    (shape : FbcCenterShape) :
    Replays M (center_mod_q_into_p a q p shape) s fun r impl impl' => ∀ j < impl.ring_dim,
      impl.coefficient j a.address < q.toNat →
        impl'.coefficient j r.address = rebased q.toNat p.toNat (impl.coefficient j a.address) := by
  apply ((computes_center hq hp ha shape).replays hM hs).mono
  rintro r impl impl' ⟨-, hj⟩ j hlt hreduced
  obtain ⟨hvalue, hframe⟩ := hj j hlt
  rw [hframe a.address ha] at hvalue
  rw [rebased, ← hvalue hreduced, Int.toNat_natCast]

/-! ## The chain of the probe -/

theorem AddressAllocator.map_address_map (s : AddressAllocator) (id : ℕ) :
    (s.map_address id).2.address_map = Function.update s.address_map id (some (s.map_address id).1) := by
  unfold AddressAllocator.map_address
  rcases hid : s.address_map id with - | addr
  · have htake : (s.take id).2.address_map = s.address_map := by
      unfold AddressAllocator.take AddressAllocator.fresh
      split
      · split
        · rfl
        · rfl
      · rfl
    show Function.update (s.take id).2.address_map id _ = _
    rw [htake]
  · exact (Function.update_eq_self_iff.mpr hid.symm).symm

/-- The addresses of a destination and a source, that may be one. -/
theorem Probes.map_address_pair (p : Probes) (dst src : ℕ) :
    ((p.map_address dst).2.map_address src).2.address_map dst = some (p.map_address dst).1 ∧
      ((p.map_address dst).2.map_address src).2.address_map src =
        some ((p.map_address dst).2.map_address src).1 := by
  have hfirst : (p.map_address dst).2.address_map =
      Function.update p.address_map dst (some (p.map_address dst).1) :=
    p.toAddressAllocator.map_address_map dst
  have hsecond : ((p.map_address dst).2.map_address src).2.address_map =
      Function.update (p.map_address dst).2.address_map src
        (some ((p.map_address dst).2.map_address src).1) :=
    (p.map_address dst).2.toAddressAllocator.map_address_map src
  have hdst : (p.map_address dst).2.address_map dst = some (p.map_address dst).1 := by
    rw [hfirst, Function.update_self]
  rw [hsecond, Function.update_self]
  refine ⟨?_, rfl⟩
  by_cases hsame : dst = src
  · -- the second lookup finds what the first one made
    rw [← hsame, Function.update_self, Probes.map_address]
    dsimp only
    rw [AddressAllocator.map_address_of_some hdst]
  · rw [Function.update_of_ne hsame]
    exact hdst

/-- The instructions of a switch, run from any memory, leave the value at the address of the
destination. -/
def Probes.RecordsSwitch (M : NativeMath) (st : Probes) (dst src : ℕ) (q p : UInt64) : Prop :=
  ∃ insts da a, (st.openfhe_cprobe_switchmodulus dst src q p).writer.instructions_ =
      st.writer.instructions_ ++ insts ∧
    (st.openfhe_cprobe_switchmodulus dst src q p).address_map dst = some da ∧
    (st.openfhe_cprobe_switchmodulus dst src q p).address_map src = some a ∧
    (da < 2 ^ 32 → a < 2 ^ 32 →
      (st.openfhe_cprobe_switchmodulus dst src q p).writer.modulus_table_.length ≤ 2 ^ 32 →
      ∀ impl : Impl, impl.Sized →
        (st.openfhe_cprobe_switchmodulus dst src q p).writer.modulus_table_ <+: impl.trace.modulus_table →
        ∀ i k, ∃ impl', execute_loop M [] insts i impl k = some (impl', k + insts.length) ∧
          impl'.error_count = impl.error_count ∧ ∀ j < impl.ring_dim, impl.coefficient j a < q.toNat →
            impl'.coefficient j da = rebased q.toNat p.toNat (impl.coefficient j a))

theorem TraceWriter.comment_keeps (tw : TraceWriter) (text : Str) :
    (tw.comment text).keeps = tw.keeps ∧ (tw.comment text).instructions_ = tw.instructions_ := by
  unfold TraceWriter.comment
  split
  · exact ⟨rfl, rfl⟩
  · exact ⟨rfl, rfl⟩

theorem switchmodulus_records {M : NativeMath} (hM : M.Exact) {st : Probes} (hrecord : st.should_record = true)
    (hkeeps : st.writer.keeps = true) (hc : st.writer.Consistent) (dst src : ℕ) {q p : UInt64}
    (hq : q.toNat % 2 = 1) (hp : 0 < p.toNat) : st.RecordsSwitch M dst src q p := by
  have hq₀ : q ≠ 0 := by
    rintro rfl
    exact absurd hq (by decide)
  have hp₀ : p ≠ 0 := by
    rintro rfl
    exact absurd hp (by decide)
  have hboth := st.map_address_pair dst src
  -- what the writer is handed: a comment, and four operations
  obtain ⟨text, hwriter⟩ : ∃ text, (st.openfhe_cprobe_switchmodulus dst src q p).writer =
      (switchOps (st.map_address dst).1 ((st.map_address dst).2.map_address src).1 q p).foldl
        (fun tw op => op.record tw) (st.writer.comment text) := by
    rw [Probes.openfhe_cprobe_switchmodulus, if_pos hrecord]
    dsimp only
    have hsame : ((st.map_address dst).2.map_address src).2.writer = st.writer := rfl
    generalize ((st.map_address dst).2.map_address src).1 = a
    generalize ((st.map_address dst).2.map_address src).2 = st₂ at hsame ⊢
    generalize (st.map_address dst).1 = da
    rw [← hsame]
    exact ⟨_, rfl⟩
  have hmap : (st.openfhe_cprobe_switchmodulus dst src q p).address_map =
      ((st.map_address dst).2.map_address src).2.address_map := by
    rw [Probes.openfhe_cprobe_switchmodulus, if_pos hrecord]
    rfl
  generalize (st.map_address dst).1 = da at *
  generalize ((st.map_address dst).2.map_address src).1 = a at *
  have harith : ∀ op ∈ switchOps da a q p, op.Arithmetic := by
    simp only [switchOps, List.forall_mem_cons]
    exact ⟨⟨.inr (.inr rfl), hq₀⟩, ⟨.inl rfl, hq₀⟩, ⟨.inr (.inr rfl), hp₀⟩, ⟨.inl rfl, hp₀⟩,
      List.forall_mem_nil _⟩
  obtain ⟨hcomment, hinstructions⟩ := st.writer.comment_keeps text
  obtain ⟨-, -, -, insts, hinsts, hrec⟩ := record_calls harith (hc.comment text) (hcomment.trans hkeeps)
  rw [← hwriter] at hinsts hrec
  refine ⟨insts, da, a, hinsts.trans (by rw [hinstructions]), by rw [hmap]; exact hboth.1,
    by rw [hmap]; exact hboth.2, fun hda ha hsize impl hsized htable i k => ?_⟩
  have hfits : ∀ op ∈ switchOps da a q p, op.Fits := by
    simp only [switchOps, List.forall_mem_cons, ApiOp.Fits, ApiOp.dest, ApiOp.reads]
    exact ⟨⟨hda, ha, List.forall_mem_nil _⟩, ⟨hda, hda, List.forall_mem_nil _⟩,
      ⟨hda, hda, List.forall_mem_nil _⟩, ⟨hda, hda, List.forall_mem_nil _⟩, List.forall_mem_nil _⟩
  have hgrown := (hrec hsize).imp fun _ _ hinst => ApiOp.RecordedAs.grow hinst htable
  obtain ⟨impl', hexec, herror, -, -, -, hcoefficient⟩ := replay_calls hM hsized harith hfits rfl hgrown i k
  refine ⟨impl', hexec, herror, fun j hj hreduced => ?_⟩
  rw [hcoefficient j hj, eval_switchOps hq₀ hp₀, Function.update_self, switched_eq_rebased hq hreduced]

/-! ## What is taken and not written -/

/-- The addresses that were handed out and not written hold nothing. -/
def Vacant (s s' : Session) (ops : List ApiOp) (m : ℕ → ℕ) : Prop :=
  ∀ x, s.next_address_ ≤ x → x < s'.next_address_ → (∀ op ∈ ops, op.dest ≠ x) → m x = 0

/-- `Computes`, over memories that hold nothing at vacant addresses. -/
def Yields {α : Type} (c : Api α) (s : Session) (Q : α → (ℕ → ℕ) → Prop) : Prop :=
  ∃ a s' ops, c.run s = some (a, s') ∧ s.After s' ops ∧
    ∀ m, ApiOp.code.Solves m ops → Vacant s s' ops m → Q a m

section Yields

variable {α β : Type} {s s₁ s₂ : Session} {ops ops' : List ApiOp} {m : ℕ → ℕ}

theorem Computes.yields {c : Api α} {R : α → ℕ → Prop} {Q : α → (ℕ → ℕ) → Prop} (h : Computes c s R Q) :
    Yields c s fun a m => (∃ n, R a n) ∧ Q a m := by
  obtain ⟨a, s', ops, hrun, hafter, hR, hQ⟩ := h
  exact ⟨a, s', ops, hrun, hafter, fun m hm _ => ⟨⟨_, hR⟩, hQ m hm⟩⟩

theorem Yields.mono {c : Api α} {Q Q' : α → (ℕ → ℕ) → Prop} (h : Yields c s Q)
    (hQ : ∀ a m, Q a m → Q' a m) : Yields c s Q' := by
  obtain ⟨a, s', ops, hrun, hafter, ha⟩ := h
  exact ⟨a, s', ops, hrun, hafter, fun m hm hv => hQ a m (ha m hm hv)⟩

/-- What is vacant after two computations is vacant after each: neither writes where the
other takes addresses. -/
theorem Vacant.split (h : s.After s₁ ops) (h' : s₁.After s₂ ops') (hv : Vacant s s₂ (ops ++ ops') m) :
    Vacant s s₁ ops m ∧ Vacant s₁ s₂ ops' m := by
  refine ⟨fun x hle hlt hnot => ?_, fun x hle hlt hnot => ?_⟩
  · apply hv x hle (hlt.trans_le h'.grows.le)
    refine List.forall_mem_append.mpr ⟨hnot, fun op hop => ?_⟩
    have hdest : s₁.next_address_ ≤ op.dest := h'.grows.le_dest hop
    omega
  · apply hv x (h.grows.le.trans hle) hlt
    refine List.forall_mem_append.mpr ⟨fun op hop => ?_, hnot⟩
    have hdest : op.dest < s₁.next_address_ := h.grows.dest_lt hop
    omega

theorem yields_mapM {f : α → Api β} {Q : α → β → (ℕ → ℕ) → Prop} {as : List α}
    (h : ∀ a ∈ as, ∀ s', s.next_address_ ≤ s'.next_address_ → Yields (f a) s' (Q a)) :
    Yields (as.mapM f) s fun bs m => List.Forall₂ (fun a b => Q a b m) as bs := by
  induction as generalizing s with
  | nil => exact ⟨[], s, [], rfl, .refl s, fun _ _ _ => .nil⟩
  | cons a as ih =>
    obtain ⟨ha, has⟩ := List.forall_mem_cons.mp h
    obtain ⟨b, s₁, ops, hrun, hafter, hb⟩ := ha s (Nat.le_refl _)
    obtain ⟨bs, s₂, ops', hrun', hafter', hbs⟩ :=
      ih (s := s₁) fun a' ha' s' hs' => has a' ha' s' (hafter.grows.le.trans hs')
    refine ⟨b :: bs, s₂, ops ++ ops', ?_, hafter.trans hafter', fun m hm hv => ?_⟩
    · rw [List.mapM_cons, StateT.run_bind, hrun]
      show (as.mapM f >>= fun bs => pure (b :: bs)).run s₁ = _
      rw [StateT.run_bind, hrun']
      rfl
    · obtain ⟨hfirst, hrest⟩ := Code.solves_append.mp hm
      obtain ⟨hv₁, hv₂⟩ := hv.split hafter hafter'
      exact .cons (hb m hfirst hv₁) (hbs m hrest hv₂)

/-- Residues of zero, one for each modulus. -/
theorem yields_zeros (ring_dim : ℕ) (target_base : ModuliBase) :
    Yields (target_base.mapM fun p => do
        let zero ← Polynomial.zeros ring_dim
        return (zero, p)) s fun pairs m =>
      List.Forall₂ (fun p (pair : Polynomial × UInt64) => pair.2 = p ∧ m pair.1.address = 0) target_base pairs := by
  apply yields_mapM
  intro p _ s' _
  refine ⟨_, { s' with next_address_ := s'.next_address_ + 1 }, [], rfl,
    ⟨rfl, Nat.le_succ _, List.forall_mem_nil _⟩, fun m _ hv => ⟨rfl, ?_⟩⟩
  exact hv _ (Nat.le_refl _) (Nat.lt_succ_self _) (List.forall_mem_nil _)

end Yields

/-! ## In either shape -/

/-- In either shape a computation aborts or throws, or what it records leaves, when it is
replayed where there is nothing at the addresses it takes, one function of what was there. -/
def ShapeFree {α β : Type} (M : NativeMath) (c : FbcCenterShape → Api α) (s : Session)
    (values : α → (ℕ → ℕ) → β) : Prop :=
  (∀ shape, (c shape).run s = none) ∨ ∃ F : (ℕ → ℕ) → β, ∀ shape,
    Replays M (c shape) s fun a impl impl' => (∀ x, s.next_address_ ≤ x → impl.memory x = none) →
      ∀ j < impl.ring_dim, values a (impl'.coefficient j) = F (impl.coefficient j)

/-- There is nothing to read where nothing was stored. -/
theorem Impl.coefficient_of_none {impl : Impl} {x : ℕ} (h : impl.memory x = none) (j : ℕ) :
    impl.coefficient j x = 0 := by
  unfold Impl.coefficient Impl.get_or_zero Memory.is_initialized Memory.get
  rw [h]
  show (List.replicate impl.ring_dim 0).getD j 0 = 0
  by_cases hj : j < impl.ring_dim
  · exact List.getD_replicate _ hj
  · exact List.getD_eq_default _ _ (by rw [List.length_replicate]; omega)

/-- **A value that depends on what was there before alone**, and not on the shape. -/
theorem shapeFree_of_yields {α β : Type} {M : NativeMath} (hM : M.Exact) {c : FbcCenterShape → Api α}
    {s : Session} (hs : s.Recording) {values : α → (ℕ → ℕ) → β} (G : (ℕ → ℕ) → β)
    (hG : ∀ m m' : ℕ → ℕ, (∀ x < s.next_address_, m' x = m x) → G m' = G m)
    (h : ∀ shape, Yields (c shape) s fun a m => values a m = G m) : ShapeFree M c s values := by
  refine .inr ⟨G, fun shape => ?_⟩
  obtain ⟨a, s', ops, hrun, hafter, hvalue⟩ := h shape
  -- the calls are recorded, and their replay computes what the calls say
  obtain ⟨-, -, -, insts, hinsts, hrec⟩ := record_calls hafter.arithmetic hs.consistent hs.keeps
  rw [← hafter.writer] at hinsts hrec
  refine ⟨a, s', insts, hrun, hinsts, fun hfits impl hsized htable i k => ?_⟩
  have hgrown : List.Forall₂ (ApiOp.RecordedAs impl.trace.modulus_table) ops insts :=
    (hrec hfits.2).imp fun _ _ hinst => hinst.grow htable
  have hall : ∀ op ∈ ops, op.Fits := fun op hop =>
    ⟨(hafter.grows.dest_lt hop).trans_le hfits.1,
      fun x hx => (hafter.grows.reads_lt hop hx).trans_le hfits.1⟩
  obtain ⟨impl', hexec, herror, hsetup, -, -, hcoefficient⟩ :=
    replay_calls hM hsized hafter.arithmetic hall rfl hgrown i k
  refine ⟨impl', hexec, herror, hsetup, fun hempty j hj => ?_⟩
  rw [hcoefficient j hj]
  -- nothing stood at the new addresses
  have hvacant : Vacant s s' ops (ApiOp.code.eval (impl.coefficient j) ops) := by
    intro x hle _ hnot
    rw [Code.eval_of_not_dest hnot, Impl.coefficient_of_none (hempty x hle)]
  rw [hvalue _ (hafter.grows.solves _) hvacant]
  exact hG _ _ fun x hx => hafter.grows.eval_of_lt _ hx

/-! ## The gadgets -/

/-- A residue number as it is found in a memory of one coefficient. -/
def MRP.residuesAt (y : MRP) (m : ℕ → ℕ) : ModuliBase × (UInt64 → ℕ) := (y.base_, y.valueAt m)

/-- What is found of moduli that are not in the base is nothing. -/
theorem MRP.residuesAt_eq {y : MRP} {base : ModuliBase} {m : ℕ → ℕ} {f : UInt64 → ℕ} (hbase : y.base_ = base)
    (h : ∀ p ∈ base, y.valueAt m p = f p) :
    y.residuesAt m = (base, fun p => if p ∈ base then f p else 0) := by
  subst hbase
  refine Prod.ext rfl (funext fun p => ?_)
  show y.valueAt m p = if p ∈ y.base_ then f p else 0
  by_cases hp : p ∈ y.base_
  · rw [if_pos hp, h p hp]
  · have hnone : y.residues_ p = none := by
      rcases hres : y.residues_ p with - | r
      · rfl
      · exact absurd ((y.covered p).mp (by rw [hres]; rfl)) hp
    rw [if_neg hp, MRP.valueAt, hnone]
    rfl

/-- The residues of a conversion. -/
def MRP.convertedTo (x : MRP) (target_base : ModuliBase) (variant : FbcVariant) (m : ℕ → ℕ) :
    ModuliBase × (UInt64 → ℕ) :=
  (target_base, fun p => if p ∈ target_base then
    if x.base_ = [] then 0
    else if p ∈ x.base_ then x.valueAt m p else (x.fbcSum variant m % p.toNat).toNat
  else 0)

/-- The residues of a rescaling, over what it has of the dropped moduli. -/
def MRP.rescaledTo (x r : MRP) (rescale_base : ModuliBase) (variant : FbcVariant) (m : ℕ → ℕ) :
    ModuliBase × (UInt64 → ℕ) :=
  (target_after_rescale x.base_ rescale_base, fun q =>
    if q ∈ target_after_rescale x.base_ rescale_base then
      (((x.valueAt m q : ℤ) - r.fbcSum variant m) *
        (modinv_prime (prod_mod rescale_base q) q).toNat % q.toNat).toNat
    else 0)

section Gadgets

variable {s : Session} {x r : MRP} {m m' : ℕ → ℕ}

theorem MRP.fbcSum_congr (h : ∀ q, x.valueAt m' q = x.valueAt m q) (variant : FbcVariant) :
    x.fbcSum variant m' = x.fbcSum variant m := by
  unfold MRP.fbcSum MRP.scaledAt
  simp only [h]

theorem MRP.convertedTo_congr (h : ∀ q, x.valueAt m' q = x.valueAt m q) (target_base : ModuliBase)
    (variant : FbcVariant) : x.convertedTo target_base variant m' = x.convertedTo target_base variant m := by
  unfold MRP.convertedTo
  simp only [h, MRP.fbcSum_congr h]

/-- A computation stops where its first part does. -/
theorem run_bind_none {α β : Type} {c : Api α} {f : α → Api β} (h : c.run s = none) :
    (c >>= f).run s = none := by
  rw [StateT.run_bind, h]
  rfl

/-- Or where what follows does, whatever it gets. -/
theorem run_bind_none_after {α β : Type} {c : Api α} {f : α → Api β} (h : ∀ a s, (f a).run s = none)
    (s : Session) : (c >>= f).run s = none := by
  rw [StateT.run_bind]
  rcases c.run s with - | ⟨a, s'⟩
  · rfl
  · exact h a s'

theorem MRP.subset_none {subbase : ModuliBase} (h : ¬ ∀ q ∈ subbase, q ∈ x.base_) : x.subset subbase = none := by
  unfold MRP.subset
  refine dif_neg fun hall => h fun q hq => ?_
  exact of_decide_eq_true (List.all_eq_true.mp hall q hq)

theorem mr_subset_none {subbase : ModuliBase} (h : ¬ ∀ q ∈ subbase, q ∈ x.base_) (s : Session) :
    (mr_subset x subbase).run s = none := by
  show (x.subset subbase).map (·, s) = none
  rw [MRP.subset_none h, Option.map_none]

/-- A map stops where an element stops it, whatever came before. -/
theorem run_mapM_none {α β : Type} {f : α → Api β} {as : List α} {a : α} (ha : a ∈ as)
    (h : ∀ s, (f a).run s = none) : ∀ s, (as.mapM f).run s = none := by
  induction as with
  | nil => exact absurd ha List.not_mem_nil
  | cons b as ih =>
    intro s
    rw [List.mapM_cons]
    rcases List.mem_cons.mp ha with rfl | ha
    · exact run_bind_none (h s)
    · exact run_bind_none_after (fun _ s' => run_bind_none (ih ha s')) s

/-- **Conversion**, from an empty base too. -/
theorem yields_fast_base_convert (hpos : ∀ q ∈ x.base_, 0 < q.toNat) (hmade : x.MadeBefore s.next_address_)
    {variant : FbcVariant} (hodd : variant = .ReducedNoise → ∀ q ∈ x.base_, q.toNat % 2 = 1)
    {target_base : ModuliBase} (htarget : ∀ p ∈ target_base, 0 < p.toNat) (shape : FbcCenterShape) :
    Yields (fast_base_convert x target_base variant shape) s fun y m =>
      y.residuesAt m = x.convertedTo target_base variant m := by
  -- an empty base converts to zeros
  by_cases hempty : x.base_ = []
  · obtain ⟨pairs, s', ops, hrun, hafter, hpairs⟩ :=
      yields_zeros (s := s) x.ring_dim_ target_base
    refine ⟨MRP.from_pairs pairs, s', ops, ?_, hafter, fun m hm hv => ?_⟩
    · unfold fast_base_convert
      rw [if_pos (by rw [hempty]; rfl), StateT.run_bind, hrun]
      rfl
    · have hzero := hpairs m hm hv
      have hkeys : (MRP.from_pairs pairs).base_ = target_base := by
        have hmap : pairs.map Prod.snd = target_base.map id :=
          map_snd_of_forall₂ hzero fun _ _ h => h.1
        rwa [List.map_id] at hmap
      refine MRP.residuesAt_eq hkeys fun p hp => ?_
      obtain ⟨residue, hresidue⟩ := (MRP.from_pairs pairs).exists_residue (hkeys.symm ▸ hp)
      obtain ⟨_, -, -, hvalue⟩ := exists_of_forall₂ hzero _ (mem_of_assign_residues hresidue)
      rw [if_pos hempty, MRP.valueAt_of_some hresidue]
      exact hvalue
  · apply (computes_fast_base_convert hpos hempty hmade hodd htarget shape).yields.mono
    rintro y m ⟨⟨_, hbase, -⟩, hvalues⟩
    refine MRP.residuesAt_eq hbase fun p hp => ?_
    have hvalue := hvalues p hp
    rw [if_neg hempty]
    by_cases hmem : p ∈ x.base_
    · rw [MRP.convertedAt, if_pos hmem] at hvalue
      rw [if_pos hmem]
      exact hvalue
    · rw [MRP.convertedAt, if_neg hmem] at hvalue
      rw [if_neg hmem, ← hvalue, Int.toNat_natCast]

theorem yields_rescale_fbc (hpos : ∀ q ∈ x.base_, 0 < q.toNat) (hmade : x.MadeBefore s.next_address_)
    {rescale_base : ModuliBase} (hne : rescale_base ≠ []) (hsub : ∀ q ∈ rescale_base, q ∈ x.base_)
    (hr : x.subset rescale_base = some r) {variant : FbcVariant}
    (hodd : variant = .ReducedNoise → ∀ q ∈ x.base_, q.toNat % 2 = 1) (shape : FbcCenterShape) :
    Yields (rescale_fbc x rescale_base variant shape) s fun z m =>
      z.residuesAt m = x.rescaledTo r rescale_base variant m := by
  apply (computes_rescale_fbc hpos hmade hne hsub hr hodd shape).yields.mono
  rintro z m ⟨⟨_, hbase⟩, hvalues⟩
  refine MRP.residuesAt_eq hbase fun q hq => ?_
  obtain ⟨hlt, hvalue⟩ := hvalues q hq
  rw [← eq_emod_of_modEq hlt hvalue, Int.toNat_natCast]

/-- The residues of one digit. -/
def MRP.digitTo (x : MRP) (p_base digit : ModuliBase) (m : ℕ → ℕ) : ModuliBase × (UInt64 → ℕ) :=
  ((x.subset digit).map fun r => r.convertedTo (x.base_ ++ p_base) .ReducedNoise m).getD ([], fun _ => 0)

theorem yields_dig_decomp (hodd : ∀ q ∈ x.base_, q.toNat % 2 = 1) (hmade : x.MadeBefore s.next_address_)
    {digit_bases : List ModuliBase} (hsub : ∀ digit ∈ digit_bases, ∀ q ∈ digit, q ∈ x.base_)
    {p_base : ModuliBase} (hp : ∀ p ∈ p_base, 0 < p.toNat) (shape : FbcCenterShape) :
    Yields (dig_decomp x digit_bases p_base shape) s fun zs m =>
      zs.map (·.residuesAt m) = digit_bases.map fun digit => x.digitTo p_base digit m := by
  have hpos : ∀ q ∈ x.base_, 0 < q.toNat := fun q hq => by
    have := hodd q hq
    omega
  have hdigits : ∀ digit ∈ digit_bases, ∀ s' : Session, s.next_address_ ≤ s'.next_address_ →
      Yields (do
        let temp ← mr_subset x digit
        fast_base_convert temp (x.base_ ++ p_base) .ReducedNoise shape) s'
        fun z m => z.residuesAt m = x.digitTo p_base digit m := by
    intro digit hdigit s₁ hle
    have hdigitsub := hsub digit hdigit
    -- a digit is a part of the base, converted to the whole
    obtain ⟨r, hr⟩ := MRP.exists_subset hdigitsub
    have hbase := MRP.subset_base hr
    have hconverts : Yields (fast_base_convert r (x.base_ ++ p_base) .ReducedNoise shape) s₁
        fun z m => z.residuesAt m = r.convertedTo (x.base_ ++ p_base) .ReducedNoise m :=
      yields_fast_base_convert (fun q hq => hpos q (hdigitsub q (hbase ▸ hq)))
        ((hmade.mono hle).subset hr) (fun _ q hq => hodd q (hdigitsub q (hbase ▸ hq)))
        (List.forall_mem_append.mpr ⟨hpos, hp⟩) shape
    obtain ⟨z, s₂, ops, hrun, hafter, hvalue⟩ := hconverts
    refine ⟨z, s₂, ops, ?_, hafter, fun m hm hv => ?_⟩
    · rw [StateT.run_bind]
      show ((x.subset digit).map (·, s₁)).bind _ = _
      rw [hr]
      exact hrun
    · show z.residuesAt m = x.digitTo p_base digit m
      rw [hvalue m hm hv, MRP.digitTo, hr]
      rfl
  apply (yields_mapM hdigits).mono
  intro zs m hvalues
  rw [← List.forall₂_eq_eq_eq, List.forall₂_map_left_iff, List.forall₂_map_right_iff]
  exact hvalues.flip

end Gadgets

/-! ## All of them agree -/

/-- **Signed modulus switches.** All chains leave one value, so the shape of those in a
conversion, a rescaling or a decomposition does not matter. -/
theorem signed_switches_agree {M : NativeMath} (hM : M.Exact) :
    (∀ q p : UInt64, q.toNat % 2 = 1 → 0 < p.toNat →
      (∀ (s : Session) (a : Polynomial) (shape : FbcCenterShape), s.Recording → a.address < s.next_address_ →
        Replays M (center_mod_q_into_p a q p shape) s fun r impl impl' => ∀ j < impl.ring_dim,
          impl.coefficient j a.address < q.toNat →
            impl'.coefficient j r.address = rebased q.toNat p.toNat (impl.coefficient j a.address)) ∧
      (∀ (st : Probes) (dst src : ℕ), st.should_record = true → st.writer.keeps = true →
        st.writer.Consistent → st.RecordsSwitch M dst src q p) ∧
      ∀ v, rebased q.toNat p.toNat v < p.toNat) ∧
    ∀ (s : Session) (x : MRP), s.Recording → x.MadeBefore s.next_address_ →
      (∀ q ∈ x.base_, q.toNat % 2 = 1) →
      (∀ target_base variant, (∀ p ∈ target_base, 0 < UInt64.toNat p) →
        ShapeFree M (fast_base_convert x target_base variant) s MRP.residuesAt) ∧
      (∀ rescale_base variant, ShapeFree M (rescale_fbc x rescale_base variant) s MRP.residuesAt) ∧
      ∀ digit_bases p_base, (∀ p ∈ p_base, 0 < UInt64.toNat p) →
        ShapeFree M (dig_decomp x digit_bases p_base) s fun zs m => zs.map (·.residuesAt m) := by
  refine ⟨fun q p hq hp => ⟨fun s a shape hs ha => center_replays hM hs ha hq hp shape,
    fun st dst src hrecord hkeeps hc => switchmodulus_records hM hrecord hkeeps hc dst src hq hp,
    rebased_lt hp⟩, fun s x hs hmade hodd => ?_⟩
  have hpos : ∀ q ∈ x.base_, 0 < q.toNat := fun q hq => by
    have := hodd q hq
    omega
  have hcongr : ∀ {r : MRP}, r.MadeBefore s.next_address_ → ∀ {m m' : ℕ → ℕ},
      (∀ a < s.next_address_, m' a = m a) → ∀ q, r.valueAt m' q = r.valueAt m q :=
    fun hr _ _ hsame => MRP.valueAt_congr hr hsame
  refine ⟨fun target_base variant htarget => ?_, fun rescale_base variant => ?_, fun digit_bases p_base hp => ?_⟩
  · exact shapeFree_of_yields hM hs _ (fun m m' hsame => MRP.convertedTo_congr (hcongr hmade hsame) _ _)
      fun shape => yields_fast_base_convert hpos hmade (fun _ => hodd) htarget shape
  -- the assertion on the base fails before any shape is looked at
  · by_cases hne : rescale_base = []
    · exact .inl fun shape => by
        rw [hne]
        rfl
    · by_cases hsub : ∀ q ∈ rescale_base, q ∈ x.base_
      · obtain ⟨r, hr⟩ := MRP.exists_subset hsub
        refine shapeFree_of_yields hM hs (x.rescaledTo r rescale_base variant) (fun m m' hsame => ?_)
          fun shape => yields_rescale_fbc hpos hmade hne hsub hr (fun _ => hodd) shape
        unfold MRP.rescaledTo
        simp only [hcongr hmade hsame, MRP.fbcSum_congr (hcongr (hmade.subset hr) hsame)]
      · -- past the assertions there is a modulus that is not there
        refine .inl fun shape => ?_
        unfold rescale_fbc
        refine run_bind_none_after (fun _ s₁ => run_bind_none_after (fun _ s₂ => ?_) s₁) s
        exact run_bind_none (mr_subset_none hsub s₂)
  · by_cases hsub : ∀ digit ∈ digit_bases, ∀ q ∈ digit, q ∈ x.base_
    · refine shapeFree_of_yields hM hs (fun m => digit_bases.map fun digit => x.digitTo p_base digit m)
        (fun m m' hsame => List.map_congr_left fun digit hdigit => ?_)
        fun shape => yields_dig_decomp hodd hmade hsub hp shape
      obtain ⟨r, hr⟩ := MRP.exists_subset (hsub digit hdigit)
      rw [MRP.digitTo, MRP.digitTo, hr, Option.map_some, Option.map_some, Option.getD_some, Option.getD_some]
      exact MRP.convertedTo_congr (hcongr (hmade.subset hr) hsame) _ _
    -- some digit has a modulus that is not in the base
    · push Not at hsub
      obtain ⟨digit, hdigit, q, hq, hout⟩ := hsub
      refine .inl fun shape => run_mapM_none hdigit (fun s' => run_bind_none ?_) s
      exact mr_subset_none (fun hall => hout (hall q hq)) s'

theorem signed_switches_agree_sample :
    (∀ shape, Replays referenceMath (center_mod_q_into_p (sampleResidue 1) 5 11 shape) sampleSession
      fun r impl impl' => ∀ j < impl.ring_dim, impl.coefficient j 1 < 5 →
        impl'.coefficient j r.address = rebased 5 11 (impl.coefficient j 1)) ∧
    ShapeFree referenceMath (fast_base_convert sampleResidues [11, 3] .ReducedNoise) sampleSession
      MRP.residuesAt := by
  have hagree := signed_switches_agree referenceMath_exact
  refine ⟨fun shape => ?_, ?_⟩
  · exact (hagree.1 5 11 rfl (by decide)).1 sampleSession (sampleResidue 1) shape
      sampleSession_recording (by decide)
  · apply (hagree.2 sampleSession sampleResidues sampleSession_recording sampleResidues_madeBefore
      sampleResidues_odd).1
    simp only [List.forall_mem_cons]
    exact ⟨by decide, by decide, List.forall_mem_nil _⟩

end Fhetch
