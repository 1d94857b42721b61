/-
Reasoning about recording computations.

A computation of the API is judged by what it returns and by equations: it records
arithmetic calls, and whatever memory satisfies the equations of those calls has,
at the addresses of the returned handles, the values that were promised. Since
nothing is overwritten, what was established before a step still holds after it, so
the rules for sequences, maps and folds carry no frame conditions.

A judgement is worth what the last theorem makes of it: the simulator, run over the
recorded instructions, reaches a memory that satisfies them.
-/
import Fhetch.Gadgets
import Fhetch.RecordedCode

set_option autoImplicit false

namespace Fhetch

open SingleAssignment

/-! ## The judgement -/

/-- One session is another after some arithmetic calls. -/
structure Session.After (s s' : Session) (ops : List ApiOp) : Prop where
  writer : s'.writer = ops.foldl (fun tw op => op.record tw) s.writer
  grows : ApiOp.code.Grows s.next_address_ ops s'.next_address_
  arithmetic : ∀ op ∈ ops, op.Arithmetic

/-- **A computation.** `R` is what is known of the result and the address counter
when it returns, and `Q` what the result means in a memory that satisfies the calls
it recorded. -/
def Computes {α : Type} (c : Api α) (s : Session) (R : α → ℕ → Prop) (Q : α → (ℕ → ℕ) → Prop) :
    Prop :=
  ∃ a s' ops, c.run s = some (a, s') ∧ s.After s' ops ∧ R a s'.next_address_ ∧
    ∀ m, ApiOp.code.Solves m ops → Q a m

theorem Session.After.refl (s : Session) : s.After s [] :=
  ⟨rfl, Nat.le_refl _, List.forall_mem_nil _⟩

theorem Session.After.trans {s₁ s₂ s₃ : Session} {ops ops' : List ApiOp} (h : s₁.After s₂ ops)
    (h' : s₂.After s₃ ops') : s₁.After s₃ (ops ++ ops') where
  writer := by rw [List.foldl_append, ← h.writer, h'.writer]
  grows := h.grows.append h'.grows
  arithmetic := List.forall_mem_append.mpr ⟨h.arithmetic, h'.arithmetic⟩

section Rules

variable {α β : Type} {s : Session} {c : Api α} {f : α → Api β} {R : α → ℕ → Prop}
  {Q : α → (ℕ → ℕ) → Prop} {R' : β → ℕ → Prop} {Q' : β → (ℕ → ℕ) → Prop}

theorem computes_pure {a : α} (hR : R a s.next_address_) (hQ : ∀ m, Q a m) :
    Computes (pure a) s R Q :=
  ⟨a, s, [], rfl, .refl s, hR, fun m _ => hQ m⟩

/-- What the first computation promised is there for the second one's promise. -/
theorem Computes.bind (hc : Computes c s R Q)
    (hf : ∀ a s', s.next_address_ ≤ s'.next_address_ → R a s'.next_address_ →
      Computes (f a) s' R' fun b m => Q a m → Q' b m) :
    Computes (c >>= f) s R' Q' := by
  obtain ⟨a, s₁, ops, hrun, hafter, hR, hQ⟩ := hc
  obtain ⟨b, s₂, ops', hrun', hafter', hR', hQ'⟩ := hf a s₁ hafter.grows.le hR
  refine ⟨b, s₂, ops ++ ops', ?_, hafter.trans hafter', hR', fun m hm => ?_⟩
  · rw [StateT.run_bind, hrun]
    exact hrun'
  · obtain ⟨hfirst, hsecond⟩ := Code.solves_append.mp hm
    exact hQ' m hsecond (hQ m hfirst)

theorem Computes.mono {R' : α → ℕ → Prop} {Q' : α → (ℕ → ℕ) → Prop} (h : Computes c s R Q)
    (hR : ∀ a n, s.next_address_ ≤ n → R a n → R' a n)
    (hQ : ∀ a n m, s.next_address_ ≤ n → R a n → Q a m → Q' a m) : Computes c s R' Q' := by
  obtain ⟨a, s', ops, hrun, hafter, hRa, hQa⟩ := h
  exact ⟨a, s', ops, hrun, hafter, hR a _ hafter.grows.le hRa,
    fun m hm => hQ a _ m hafter.grows.le hRa (hQa m hm)⟩

/-- A map keeps for each result what its own computation promised. -/
theorem computes_mapM {f : α → Api β} {R : α → β → ℕ → Prop} {Q : α → β → (ℕ → ℕ) → Prop}
    {as : List α} (hmono : ∀ a b n n', n ≤ n' → R a b n → R a b n')
    (h : ∀ a ∈ as, ∀ s', s.next_address_ ≤ s'.next_address_ → Computes (f a) s' (R a) (Q a)) :
    Computes (as.mapM f) s (fun bs n => List.Forall₂ (fun a b => R a b n) as bs)
      (fun bs m => List.Forall₂ (fun a b => Q a b m) as bs) := by
  induction as generalizing s with
  | nil => exact computes_pure .nil fun _ => .nil
  | cons a as ih =>
    rw [List.mapM_cons]
    obtain ⟨ha, has⟩ := List.forall_mem_cons.mp h
    apply (ha s (Nat.le_refl _)).bind
    intro b s₁ hle hb
    apply (ih fun a' ha' s' hs' => has a' ha' s' (Nat.le_trans hle hs')).bind
    intro bs s₂ hle' hbs
    apply computes_pure
    · exact .cons (hmono a b _ _ hle' hb) hbs
    · exact fun m hQs hQ => .cons hQ hQs

/-- A fold over a range of indices keeps an invariant that each index moves on. -/
theorem computes_foldlM {f : α → ℕ → Api α} {Q : ℕ → α → (ℕ → ℕ) → Prop} (count : ℕ) :
    ∀ {first : ℕ} {a : α} {s : Session}, R a s.next_address_ →
      (∀ i, first ≤ i → i < first + count → ∀ a s', s.next_address_ ≤ s'.next_address_ →
        R a s'.next_address_ → Computes (f a i) s' R fun b m => Q i a m → Q (i + 1) b m) →
      Computes ((List.range' first count).foldlM f a) s R
        fun b m => Q first a m → Q (first + count) b m := by
  induction count with
  | zero =>
    intro first a s ha _
    exact computes_pure ha fun m hQ => hQ
  | succ count ih =>
    intro first a s ha h
    rw [List.range'_succ, List.foldlM_cons]
    apply (h first (Nat.le_refl _) (by omega) a s (Nat.le_refl _) ha).bind
    intro b s₁ hle hb
    have hrest : Computes ((List.range' (first + 1) count).foldlM f b) s₁ R
        fun b' m => Q (first + 1) b m → Q (first + 1 + count) b' m := by
      apply ih hb
      intro i hi hi' a' s' hs'
      exact h i (by omega) (by omega) a' s' (Nat.le_trans hle hs')
    apply hrest.mono (fun _ _ _ h => h)
    intro b' n m _ _ hQ hstep hfirst
    rw [show first + (count + 1) = first + 1 + count by omega]
    exact hQ (hstep hfirst)

end Rules

/-! ## The calls -/

section Calls

variable {s : Session} {a b : Polynomial} {c : Scalar} {q : UInt64}

theorem computes_from_int (v : UInt64) :
    Computes (Scalar.from_int v) s (fun c _ => c.int_value = v) fun _ _ => True :=
  ⟨⟨s.next_address_, .Integer, v⟩, { s with next_address_ := s.next_address_ + 1 }, [], rfl,
    ⟨rfl, Nat.le_succ _, List.forall_mem_nil _⟩, rfl, fun _ _ => trivial⟩

theorem computes_at {x : MRP} {p : Polynomial} (h : x.residues_ q = some p) :
    Computes (x.at q) s (fun r _ => r = p) fun _ _ => True := by
  refine ⟨p, s, [], ?_, .refl s, rfl, fun _ _ => trivial⟩
  show (x.residues_ q).map (·, s) = _
  rw [h, Option.map_some]

/-- Remembering a modulus records nothing and makes no handle. -/
theorem remember_modulus_frame (s : Session) (a : ℕ) (q : UInt64) :
    (s.remember_modulus a q).next_address_ = s.next_address_ ∧
      (s.remember_modulus a q).writer = s.writer := by
  rw [Session.remember_modulus_frame]
  exact ⟨rfl, rfl⟩

theorem computes_remember_modulus (a : ℕ) (q : UInt64) :
    Computes (remember_modulus a q) s (fun _ _ => True) fun _ _ => True := by
  obtain ⟨hnext, hwriter⟩ := remember_modulus_frame s a q
  refine ⟨(), s.remember_modulus a q, [], rfl, ⟨hwriter, ?_, List.forall_mem_nil _⟩, trivial,
    fun _ _ => trivial⟩
  exact Nat.le_of_eq hnext.symm

/-- A result takes the next address. -/
theorem run_make_result (a : Polynomial) (fmt : Format) : ∃ r : Polynomial,
    (make_result a fmt).run s = some (r, { s with next_address_ := s.next_address_ + 1 }) ∧
      r.address = s.next_address_ := by
  unfold make_result
  rcases a.ntype with - | -
  · exact ⟨_, rfl, rfl⟩
  · exact ⟨_, rfl, rfl⟩

/-- A call that makes a result, remembers some moduli and records one instruction. -/
theorem computes_call (op : ApiOp) {r : Polynomial} (s₁ : Session) {s₂ : Session}
    {call : Api Polynomial} (hop : op.Arithmetic) (hdest : op.dest = s.next_address_)
    (hreads : ∀ a ∈ op.reads, a < s.next_address_) (hr : r.address = s.next_address_)
    (hnext : s₁.next_address_ = s.next_address_ + 1) (hwriter : s₁.writer = s.writer)
    (hs₂ : s₂ = { s₁ with writer := op.record s₁.writer }) (hrun : call.run s = some (r, s₂)) :
    Computes call s (fun r n => r.address < n) fun r m => m r.address = op.value m := by
  refine ⟨r, s₂, [op], hrun, ?_, ?_, fun m hm => ?_⟩
  · subst hs₂
    refine ⟨by rw [hwriter]; rfl, ⟨Nat.le_of_eq hdest.symm, ?_, ?_⟩, List.forall_mem_singleton.mpr hop⟩
    · intro a ha
      show a < op.dest
      rw [hdest]
      exact hreads a ha
    · show op.dest + 1 ≤ s₁.next_address_
      rw [hdest, hnext]
  · show r.address < s₂.next_address_
    rw [hs₂, hr]
    show s.next_address_ < s₁.next_address_
    rw [hnext]
    exact Nat.lt_succ_self _
  · show m r.address = op.value m
    rw [hr, ← hdest]
    exact hm op (List.mem_singleton_self op)

theorem computes_pp {op : FhOpcode} (form : fh_operand_form op = .PolyPoly)
    (hop : op = .FH_SR_ADDP ∨ op = .FH_SR_SUBP ∨ op = .FH_SR_MULP) (hq : q ≠ 0)
    (ha : a.address < s.next_address_) (hb : b.address < s.next_address_) :
    Computes (sr_pp op a b q) s (fun r n => r.address < n)
      fun r m => m r.address = ppValue op q.toNat (m a.address) (m b.address) := by
  obtain ⟨r, hmake, hr⟩ := run_make_result (s := s) a a.fmt
  have hframe := fun (s : Session) a => remember_modulus_frame s a q
  refine computes_call (.pp op form s.next_address_ a.address b.address q)
    (((({ s with next_address_ := s.next_address_ + 1 } : Session).remember_modulus a.address
      q).remember_modulus b.address q).remember_modulus r.address q)
    ⟨hop, hq⟩ rfl ?_ hr ?_ ?_ rfl ?_
  · intro x hx
    rcases List.mem_pair.mp hx with rfl | rfl
    · exact ha
    · exact hb
  · rw [(hframe _ _).1, (hframe _ _).1, (hframe _ _).1]
  · rw [(hframe _ _).2, (hframe _ _).2, (hframe _ _).2]
  · rw [sr_pp, StateT.run_bind, hmake, ← hr]
    rfl

theorem computes_ps {op : FhOpcode} (form : fh_operand_form op = .PolyScalar)
    (hop : op = .FH_SR_ADDPS ∨ op = .FH_SR_SUBPS ∨ op = .FH_SR_MULPS) (hq : q ≠ 0)
    (ha : a.address < s.next_address_) :
    Computes (sr_ps op a c q) s (fun r n => r.address < n)
      fun r m => m r.address = psValue op q.toNat (m a.address) c.int_value.toNat := by
  obtain ⟨r, hmake, hr⟩ := run_make_result (s := s) a a.fmt
  have hframe := fun (s : Session) a => remember_modulus_frame s a q
  refine computes_call (.ps op form s.next_address_ a.address c.int_value q)
    ((({ s with next_address_ := s.next_address_ + 1 } : Session).remember_modulus a.address
      q).remember_modulus r.address q)
    ⟨hop, hq⟩ rfl ?_ hr ?_ ?_ rfl ?_
  · intro x hx
    rw [List.mem_singleton.mp hx]
    exact ha
  · rw [(hframe _ _).1, (hframe _ _).1]
  · rw [(hframe _ _).2, (hframe _ _).2]
  · rw [sr_ps, StateT.run_bind, hmake, ← hr]
    rfl

end Calls

/-! ## Replaying a computation -/

/-- The writer of a session that records. -/
structure Session.Recording (s : Session) : Prop where
  consistent : s.writer.Consistent
  keeps : s.writer.keeps = true

/-- The addresses and the table of a session are within what an instruction can
hold of them. -/
def Session.Fits (s : Session) : Prop :=
  s.next_address_ ≤ 2 ^ 32 ∧ s.writer.modulus_table_.length ≤ 2 ^ 32

/-- **Replaying a computation.** It returns and appends instructions to the
recording; and the simulator, wherever it arrives at them with a table that their
indices go into, runs them without an error from `impl` to an `impl'` related as
`post` says. -/
def Replays {α : Type} (M : NativeMath) (c : Api α) (s : Session) (post : α → Impl → Impl → Prop) :
    Prop :=
  ∃ a s' insts, c.run s = some (a, s') ∧
    s'.writer.instructions_ = s.writer.instructions_ ++ insts ∧
    (s'.Fits → ∀ impl : Impl, impl.Sized → s'.writer.modulus_table_ <+: impl.trace.modulus_table →
      ∀ i k, ∃ impl', execute_loop M [] insts i impl k = some (impl', k + insts.length) ∧
        impl'.error_count = impl.error_count ∧ impl'.toSetup = impl.toSetup ∧ post a impl impl')

theorem Replays.mono {α : Type} {M : NativeMath} {c : Api α} {s : Session}
    {post post' : α → Impl → Impl → Prop} (h : Replays M c s post)
    (hpost : ∀ a impl impl', post a impl impl' → post' a impl impl') : Replays M c s post' := by
  obtain ⟨a, s', insts, hrun, hinsts, hreplay⟩ := h
  refine ⟨a, s', insts, hrun, hinsts, fun hfits impl hsized htable i k => ?_⟩
  obtain ⟨impl', hexec, herror, hsetup, ha⟩ := hreplay hfits impl hsized htable i k
  exact ⟨impl', hexec, herror, hsetup, hpost a impl impl' ha⟩

/-- **What was promised of the equations is what the simulator reaches**, and what
was there before is still there. -/
theorem Computes.replays {α : Type} {c : Api α} {s : Session} {R : α → ℕ → Prop}
    {Q : α → (ℕ → ℕ) → Prop} {M : NativeMath} (h : Computes c s R Q) (hM : M.Exact)
    (hs : s.Recording) : Replays M c s fun a impl impl' => (∃ n, R a n) ∧
      ∀ j < impl.ring_dim, Q a (impl'.coefficient j) ∧
        ∀ x < s.next_address_, impl'.coefficient j x = impl.coefficient j x := by
  obtain ⟨a, s', ops, hrun, hafter, hR, hQ⟩ := h
  obtain ⟨-, -, -, insts, hinsts, hrec⟩ := record_calls hafter.arithmetic hs.consistent hs.keeps
  rw [← hafter.writer] at hinsts hrec
  refine ⟨a, s', insts, hrun, hinsts, fun hfits impl hsized htable i k => ?_⟩
  have hgrown : List.Forall₂ (ApiOp.RecordedAs impl.trace.modulus_table) ops insts :=
    (hrec hfits.2).imp fun _ _ hinst => hinst.grow htable
  have hall : ∀ op ∈ ops, op.Fits := fun op hop =>
    ⟨(hafter.grows.dest_lt hop).trans_le hfits.1,
      fun x hx => (hafter.grows.reads_lt hop hx).trans_le hfits.1⟩
  obtain ⟨impl', hexec, herror, hsetup, -, -, hcoefficient⟩ :=
    replay_calls hM hsized hafter.arithmetic hall rfl hgrown i k
  refine ⟨impl', hexec, herror, hsetup, ⟨_, hR⟩, fun j hj => ?_⟩
  rw [hcoefficient j hj]
  exact ⟨hQ _ (hafter.grows.solves _), fun x hx => hafter.grows.eval_of_lt _ hx⟩

end Fhetch
