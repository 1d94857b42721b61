/-
The transform tables of the simulator (`build_ntt_tables` and `ntt_tables_for` of
`src/fhetch_sim/simulator.cpp`).

Tables are kept across instructions and runs, under a key that does not name the ring
dimension they were built for. They are the right ones at every later transform because
`set_ring_dimension` drops all of them, and because nothing is entered under a root that
was not checked. A run that an exception ends leaves the tables it had built.
-/
import Fhetch.PrimitiveRoots

set_option autoImplicit false

namespace Fhetch

/-! ## The library -/

/-- The minimal primitive `2N`-th root of unity modulo `q`, in the sense of `checks.h`. -/
structure MinimalRoot (ring_dim q psi : ℕ) : Prop where
  two_lt : 2 < q
  root : Negacyclic2NRoot psi ring_dim q
  least : ∀ other, Negacyclic2NRoot other ring_dim q → psi ≤ other

/-- What the tables rely on: each call does what its name says, or throws. -/
structure NativeMath.MeetsNames (M : NativeMath) : Prop where
  ModInverse : ∀ {q a x}, M.ModInverse q a = some x → x < q ∧ a * x % q = 1
  ModMulInteger : ∀ {q a b}, a < q → b < q → M.ModMulInteger q a b = a * b % q
  GetMSB : ∀ {k}, k ≤ 32 → M.GetMSB (2 ^ k - 1) = k
  ReverseBits : ∀ {x bits}, bits ≤ 32 → x < 2 ^ bits → M.ReverseBits x bits = rev_bits x bits
  RootOfUnity : ∀ {k q root}, k < 64 → M.RootOfUnity (2 * 2 ^ k) q = some root →
    MinimalRoot (2 ^ k) q root

/-! ## The layout -/

/-- The tables of the root `psi` for the dimension `N`: `psi^i` is in the slot `brv(i)`,
and its inverse in that slot of the other vector. -/
structure TablesOf (N q psi : ℕ) (t : NttTables) : Prop where
  forward_length : t.forward.length = N
  inverse_length : t.inverse.length = N
  forward : ∀ i < N, t.forward[rev_bits i N.log2]? = some (psi ^ i % q)
  inverse : ∀ i < N, ∃ y < q, t.inverse[rev_bits i N.log2]? = some y ∧ psi ^ i * y % q = 1
  /-- No slot is left out. -/
  filled : ∀ slot < N, ∃ i < N, rev_bits i N.log2 = slot
  n_inverse : t.n_inverse * N % q = 1

/-- The powers of `x` below the `i`-th are at their places. -/
structure PowersTo (q k x i : ℕ) (v : Poly) : Prop where
  length : v.length = 2 ^ k
  powers : ∀ j < i, v[rev_bits j k]? = some (x ^ j % q)

theorem rev_bits_injective {i j k : ℕ} (hi : i < 2 ^ k) (hj : j < 2 ^ k)
    (h : rev_bits i k = rev_bits j k) : i = j := by
  rw [← rev_bits_rev_bits hi, h, rev_bits_rev_bits hj]

/-- The next power is put into a slot that none of those before it has. -/
theorem PowersTo.set {q k x i : ℕ} {v : Poly} (h : PowersTo q k x i v) (hi : i < 2 ^ k) :
    PowersTo q k x (i + 1) (v.set (rev_bits i k) (x ^ i % q)) where
  length := by rw [List.length_set, h.length]
  powers j hj := by
    by_cases hji : j = i
    · rw [hji, List.getElem?_set_self (by rw [h.length]; exact rev_bits_lt i k)]
    · rw [List.getElem?_set_ne fun heq => hji (rev_bits_injective hi (by omega) heq).symm]
      exact h.powers j (by omega)

variable {M : NativeMath}

/-- What the loop has done before its `i`-th iteration. -/
structure SlotsTo (q k psi psi_inverse n_inverse i : ℕ) (st : NttTables × ℕ × ℕ) : Prop where
  forward : PowersTo q k psi i st.1.forward
  inverse : PowersTo q k psi_inverse i st.1.inverse
  power : st.2.1 = psi ^ i % q
  inverse_power : st.2.2 = psi_inverse ^ i % q
  n_inverse : st.1.n_inverse = n_inverse

theorem ntt_tables_slot_to (hM : M.MeetsNames) {q k psi psi_inverse n_inverse i : ℕ}
    {st : NttTables × ℕ × ℕ} (hk : k ≤ 32) (hi : i < 2 ^ k) (hpsi : psi < q)
    (hinv : psi_inverse < q) (h : SlotsTo q k psi psi_inverse n_inverse i st) :
    SlotsTo q k psi psi_inverse n_inverse (i + 1)
      (ntt_tables_slot M q psi psi_inverse k st i) := by
  have hmod : ∀ x, x ^ i % q < q := fun x => Nat.mod_lt _ (by omega)
  have hnext : ∀ x, x < q → M.ModMulInteger q (x ^ i % q) x = x ^ (i + 1) % q := by
    intro x hx
    rw [hM.ModMulInteger (hmod x) hx, Nat.mod_mul_mod, ← pow_succ]
  unfold ntt_tables_slot
  simp only [hM.ReverseBits hk hi, h.power, h.inverse_power]
  exact ⟨h.forward.set hi, h.inverse.set hi, hnext psi hpsi, hnext psi_inverse hinv, h.n_inverse⟩

/-- The loop, from the tables filled with zeros on. -/
theorem ntt_tables_loop (hM : M.MeetsNames) {q k psi psi_inverse n_inverse : ℕ}
    {st : NttTables × ℕ × ℕ} (hk : k ≤ 32) (hpsi : psi < q) (hinv : psi_inverse < q)
    (h : SlotsTo q k psi psi_inverse n_inverse 0 st) : ∀ {i : ℕ}, i ≤ 2 ^ k →
      SlotsTo q k psi psi_inverse n_inverse i
        ((List.range i).foldl (ntt_tables_slot M q psi psi_inverse k) st) := by
  intro i
  induction i with
  | zero => exact fun _ => h
  | succ i ih =>
    intro hi
    rw [List.range_succ, List.foldl_append]
    exact ntt_tables_slot_to hM hk (by omega) hpsi hinv (ih (by omega))

/-- **Tables that are built are those of their root.** From `2 ^ 32` on the dimension does
not fit the counter, and its inverse is asked of 0. -/
theorem build_ntt_tables_right (hM : M.MeetsNames) {k q psi : ℕ} {t : NttTables} (hpsi : psi < q)
    (h : build_ntt_tables M (2 ^ k) q psi = some t) : TablesOf (2 ^ k) q psi t := by
  unfold build_ntt_tables at h
  obtain ⟨psi_inverse, hpsi_inverse, h⟩ := Option.bind_eq_some_iff.mp h
  obtain ⟨n_inverse, hn_inverse, rfl⟩ := Option.map_eq_some_iff.mp h
  obtain ⟨hinv, hone⟩ := hM.ModInverse hpsi_inverse
  obtain ⟨-, hn⟩ := hM.ModInverse hn_inverse
  -- from `2 ^ 32` on the word is zero, and zero has no inverse
  by_cases hk : 32 ≤ k
  · rw [Nat.mod_eq_zero_of_dvd (pow_dvd_pow 2 hk), Nat.zero_mul, Nat.zero_mod] at hn
    exact absurd hn (by decide)
  · have hpos : 0 < 2 ^ k := Nat.two_pow_pos k
    have hlt : 2 ^ k < 2 ^ 32 := Nat.pow_lt_pow_right (by decide) (by omega)
    have hq : 1 < q := by
      by_contra hsmall
      have : q = 1 := by omega
      rw [this, Nat.mod_one] at hone
      exact absurd hone (by decide)
    rw [Nat.mod_eq_of_lt hlt] at hn
    rw [Nat.mod_eq_of_lt hlt, show (2 ^ k + 2 ^ 32 - 1) % 2 ^ 32 = 2 ^ k - 1 by omega,
      hM.GetMSB (by omega)]
    have hzeros : ∀ x, PowersTo q k x 0 (List.replicate (2 ^ k) 0) := fun x =>
      ⟨List.length_replicate, fun j hj => absurd hj (Nat.not_lt_zero j)⟩
    have hone_mod : ∀ x, 1 = x ^ 0 % q := fun x => by rw [pow_zero, Nat.mod_eq_of_lt hq]
    have hle : k ≤ 32 := by omega
    -- before the loop the tables are zeros and both powers are one
    have hstart : SlotsTo q k psi psi_inverse n_inverse 0 (⟨List.replicate (2 ^ k) 0,
        List.replicate (2 ^ k) 0, List.replicate (2 ^ k) 0, List.replicate (2 ^ k) 0, n_inverse,
        M.PrepModMulConst q n_inverse⟩, 1, 1) :=
      ⟨hzeros psi, hzeros psi_inverse, hone_mod psi, hone_mod psi_inverse, rfl⟩
    have hloop := ntt_tables_loop hM hle hpsi hinv hstart le_rfl
    refine ⟨hloop.forward.length, hloop.inverse.length, ?_, ?_, ?_, ?_⟩
    · rw [Nat.log2_two_pow]
      exact hloop.forward.powers
    · intro i hi
      refine ⟨psi_inverse ^ i % q, Nat.mod_lt _ (by omega), ?_, ?_⟩
      · rw [Nat.log2_two_pow]
        exact hloop.inverse.powers i hi
      · calc psi ^ i * (psi_inverse ^ i % q) % q
            = (psi * psi_inverse) ^ i % q := by rw [Nat.mul_mod_mod, mul_pow]
          _ = (psi * psi_inverse % q) ^ i % q := Nat.pow_mod _ _ _
          _ = 1 := by rw [hone, one_pow, Nat.mod_eq_of_lt hq]
    · intro slot hslot
      rw [Nat.log2_two_pow]
      exact ⟨rev_bits slot k, rev_bits_lt slot k, rev_bits_rev_bits hslot⟩
    · rw [hloop.n_inverse, Nat.mul_comm]
      exact hn

/-! ## The cache -/

/-- The root a transform runs with: the one it records, or the least one. -/
inductive RootFor (N q : ℕ) : Option ℕ → ℕ → Prop where
  | recorded {psi : ℕ} : 2 < q → Negacyclic2NRoot psi N q → RootFor N q (some psi) psi
  | derived {psi : ℕ} : MinimalRoot N q psi → RootFor N q none psi

theorem RootFor.lt {N q psi : ℕ} {omega : Option ℕ} (h : RootFor N q omega psi) : psi < q := by
  cases h with
  | recorded _ hroot => exact hroot.lt
  | derived hroot => exact hroot.root.lt

/-- Whatever is kept, is kept for the current ring dimension. -/
def Impl.Current (s : Impl) : Prop :=
  ∀ e ∈ s.ntt_tables, ∃ psi, RootFor s.ring_dim e.1.1 e.1.2 psi ∧ TablesOf s.ring_dim e.1.1 psi e.2

theorem Impl.Current.congr {s s' : Impl} (h : s.Current) (hdim : s'.ring_dim = s.ring_dim)
    (htables : s'.ntt_tables = s.ntt_tables) : s'.Current := by
  unfold Impl.Current
  rw [hdim, htables]
  exact h

theorem Impl.Current.resolve_modulus {s : Impl} (h : s.Current) (inst : Instruction) :
    (s.resolve_modulus inst).1.Current := by
  rcases s.resolve_modulus_eq inst with he | he
  · rw [he]
    exact h
  · rw [he]
    exact h.congr rfl rfl

/-- What is found under a key is right. -/
theorem Impl.Current.lookup {s : Impl} (h : s.Current) {key : ℕ × Option ℕ} {t : NttTables}
    (hfound : s.ntt_tables.lookup key = some t) :
    ∃ psi, RootFor s.ring_dim key.1 key.2 psi ∧ TablesOf s.ring_dim key.1 psi t := by
  obtain ⟨l₁, l₂, hl, -⟩ := List.lookup_eq_some_iff.mp hfound
  exact h (key, t) (by simp [hl])

/-- What is entered is right, where the root is. -/
theorem emplace_ntt_tables_current (hM : M.MeetsNames) {s s' : Impl} {k psi : ℕ}
    {key : ℕ × Option ℕ} {t : Option NttTables} (hdim : s.ring_dim = 2 ^ k) (hs : s.Current)
    (hroot : RootFor s.ring_dim key.1 key.2 psi)
    (h : emplace_ntt_tables M s key psi = some (s', t)) :
    s'.Current ∧ ∀ tables, t = some tables →
      ∃ psi, RootFor s.ring_dim key.1 key.2 psi ∧ TablesOf s.ring_dim key.1 psi tables := by
  obtain ⟨built, hbuilt, he⟩ := Option.map_eq_some_iff.mp h
  obtain ⟨rfl, rfl⟩ := Prod.mk.inj he
  have hright : TablesOf s.ring_dim key.1 psi built := by
    rw [hdim] at hbuilt ⊢
    exact build_ntt_tables_right hM hroot.lt hbuilt
  constructor
  · intro e hmem
    rcases List.mem_cons.mp hmem with rfl | hmem
    · exact ⟨psi, hroot, hright⟩
    · exact hs e hmem
  · intro tables htables
    rw [← Option.some.inj htables]
    exact ⟨psi, hroot, hright⟩

/-- **The tables of an instruction** are those of its root, found or built. -/
theorem ntt_tables_for_current (hM : M.MeetsNames) {s s' : Impl} {k q : ℕ} {inst : Instruction}
    {t : Option NttTables} (hk : k < 64) (hdim : s.ring_dim = 2 ^ k) (hs : s.Current)
    (h : ntt_tables_for M s inst q = some (s', t)) :
    s'.Current ∧ ∀ tables, t = some tables →
      ∃ psi, RootFor s.ring_dim q (inst.omega.map UInt64.toNat) psi ∧
        TablesOf s.ring_dim q psi tables := by
  have hlt : s.ring_dim < 2 ^ 64 := by
    rw [hdim]
    exact Nat.pow_lt_pow_right (by decide) hk
  unfold ntt_tables_for at h
  split at h
  · next tables hfound =>
    obtain ⟨rfl, rfl⟩ := Prod.mk.inj (Option.some.inj h)
    refine ⟨hs, fun tables' htables => ?_⟩
    rw [← Option.some.inj htables]
    exact hs.lookup hfound
  · split at h
    · next root homega =>
      rw [homega]
      split at h
      · next hcheck =>
        -- the recorded root is checked before a table is built from it
        obtain ⟨hq, hroot⟩ := (is_primitive_2n_root_iff _ _ _ hlt).mp hcheck
        exact emplace_ntt_tables_current hM hdim hs (.recorded hq hroot) h
      · obtain ⟨rfl, rfl⟩ := Prod.mk.inj (Option.some.inj h)
        exact ⟨hs.congr rfl rfl, fun _ hnone => absurd hnone (by simp)⟩
    · next homega =>
      -- without a recorded root the least one is derived
      obtain ⟨root, hleast, h⟩ := Option.bind_eq_some_iff.mp h
      rw [homega]
      rw [hdim] at hleast
      have hroot : RootFor s.ring_dim q none root := by
        rw [hdim]
        exact .derived (hM.RootOfUnity hk hleast)
      exact emplace_ntt_tables_current hM hdim hs hroot h

/-- **A root that is not one** finds no tables and leaves none. -/
theorem ntt_tables_for_invalid {s : Impl} {q : ℕ} {inst : Instruction} {omega : UInt64}
    (hdim : s.ring_dim < 2 ^ 64) (hs : s.Current) (homega : inst.omega = some omega)
    (hinvalid : ¬ (2 < q ∧ Negacyclic2NRoot omega.toNat s.ring_dim q)) :
    (∀ t, ((q, some omega.toNat), t) ∉ s.ntt_tables) ∧
      ntt_tables_for M s inst q = some (s.error, none) := by
  -- no table was ever kept for a root that is none
  have habsent : ∀ t, ((q, some omega.toNat), t) ∉ s.ntt_tables := by
    intro t hmem
    obtain ⟨psi, hroot, -⟩ := hs _ hmem
    cases hroot with
    | recorded hq hroot => exact hinvalid ⟨hq, hroot⟩
  refine ⟨habsent, ?_⟩
  unfold ntt_tables_for
  rw [homega, Option.map_some]
  cases hfound : s.ntt_tables.lookup (q, some omega.toNat) with
  | some t =>
    obtain ⟨l₁, l₂, hl, -⟩ := List.lookup_eq_some_iff.mp hfound
    exact absurd (by simp [hl]) (habsent t)
  | none =>
    have hcheck : ¬ is_primitive_2n_root omega.toNat s.ring_dim q = true :=
      mt (is_primitive_2n_root_iff _ _ _ hdim).mp hinvalid
    simp only [if_neg hcheck]

/-! ## Instructions -/

theorem exec_pp_current {op : ℕ → Poly → Poly → Option Poly} {s s' : Impl} {inst : Instruction}
    {ok : Bool} (hs : s.Current) (h : exec_pp op s inst = some (s', ok)) : s'.Current := by
  have hresolved := hs.resolve_modulus inst
  rw [exec_pp_eq] at h
  split at h
  · obtain ⟨rfl, rfl⟩ := Prod.mk.inj (Option.some.inj h)
    exact hresolved.congr rfl rfl
  · obtain ⟨result, -, he⟩ := Option.map_eq_some_iff.mp h
    obtain ⟨rfl, rfl⟩ := Prod.mk.inj he
    exact hresolved.congr rfl rfl

theorem ntt_tables_for_memory {s s' : Impl} {inst : Instruction} {q : ℕ} {t : Option NttTables}
    (h : ntt_tables_for M s inst q = some (s', t)) : s'.memory = s.memory := by
  have hlocal := ntt_tables_for_local M s inst q s.memory
  rw [show s.withMemory s.memory = s from rfl, h, Option.map_some] at hlocal
  exact congrArg (fun r => r.1.memory) (Option.some.inj hlocal)

/-- A kernel may only leave tables that are right for the dimension it runs under. -/
def KeepsTables (N : ℕ) (kernel : Impl → ℕ → Poly → Poly → Option (Impl × Option Poly)) : Prop :=
  ∀ s q a out r, s.ring_dim = N → s.Current → kernel s q a out = some r → r.1.Current

theorem exec_src1_current {kernel : Impl → ℕ → Poly → Poly → Option (Impl × Option Poly)}
    {s s' : Impl} {inst : Instruction} {ok : Bool} (hkernel : KeepsTables s.ring_dim kernel)
    (hs : s.Current) (h : exec_src1 kernel s inst = some (s', ok)) : s'.Current := by
  have hresolved := hs.resolve_modulus inst
  rw [exec_src1_eq] at h
  split at h
  · obtain ⟨rfl, rfl⟩ := Prod.mk.inj (Option.some.inj h)
    exact hresolved.congr rfl rfl
  · obtain ⟨r, hr, he⟩ := Option.map_eq_some_iff.mp h
    have hr := hkernel _ _ _ _ r (by rw [Impl.resolve_modulus_setup]) hresolved hr
    split at he
    · obtain ⟨rfl, rfl⟩ := Prod.mk.inj he
      exact hr.congr rfl rfl
    · obtain ⟨rfl, rfl⟩ := Prod.mk.inj he
      exact hr

/-- A kernel that only computes a vector builds nothing. -/
theorem keepsTables_of_pure (N : ℕ) (f : ℕ → Poly → Option Poly) :
    KeepsTables N fun s q a _ => (f q a).map fun result => (s, some result) := by
  rintro s q a out r - hs h
  obtain ⟨result, -, rfl⟩ := Option.map_eq_some_iff.mp h
  exact hs

theorem keepsTables_transform (hM : M.MeetsNames) {k : ℕ} (hk : k < 64) (inst : Instruction)
    (transform : ℕ → NttTables → Poly → Option Poly) :
    KeepsTables (2 ^ k) fun s q a _ => (ntt_tables_for M s inst q).bind fun
      | (s, none) => some (s, none)
      | (s, some t) => (transform q t a).map fun result => (s, some result) := by
  rintro s q a out r hdim hs h
  obtain ⟨⟨s', t⟩, ht, h⟩ := Option.bind_eq_some_iff.mp h
  have hs' := (ntt_tables_for_current hM hk hdim hs ht).1
  cases t with
  | none =>
    obtain rfl := Option.some.inj h
    exact hs'
  | some t =>
    obtain ⟨result, -, rfl⟩ := Option.map_eq_some_iff.mp h
    exact hs'

/-- The kernels without tables give back the state they are handed, or one more error. -/
theorem keepsTables_of_eq {N : ℕ} {kernel : Impl → ℕ → Poly → Poly → Option (Impl × Option Poly)}
    (h : ∀ s q a out r, kernel s q a out = some r → r.1 = s ∨ r.1 = s.error) :
    KeepsTables N kernel := by
  rintro s q a out r - hs hr
  rcases h s q a out r hr with he | he
  · rw [he]
    exact hs
  · rw [he]
    exact hs.congr rfl rfl

theorem keepsTables_automorph (N : ℕ) (k : Option UInt64) : KeepsTables N fun s _ a out =>
    match k with
    | none => some (s.error, none)
    | some k64 =>
      let k := k64.toNat % 2 ^ 32
      if 2 ^ 32 ≤ s.ring_dim then none
      else some (s, some (automorph_scatter (Nat.log2 s.ring_dim) k a s.ring_dim 0 k out)) := by
  apply keepsTables_of_eq
  intro s q a out r h
  cases k with
  | none => exact .inr (congrArg Prod.fst (Option.some.inj h)).symm
  | some k64 =>
    simp only [Option.ite_none_left_eq_some] at h
    exact .inl (congrArg Prod.fst (Option.some.inj h.2)).symm

theorem keepsTables_rot (N : ℕ) (offset : Option UInt64) : KeepsTables N fun s q a _ =>
    match offset with
    | none => some (s.error, none)
    | some offset =>
      ((List.range s.ring_dim).mapM (rot_slot s.ring_dim q offset.toNat a)).map fun result =>
        (s, some result) := by
  apply keepsTables_of_eq
  intro s q a out r h
  cases offset with
  | none => exact .inr (congrArg Prod.fst (Option.some.inj h)).symm
  | some offset =>
    obtain ⟨result, -, rfl⟩ := Option.map_eq_some_iff.mp h
    exact .inl rfl

theorem keepsTables_addps (N imm : ℕ) : KeepsTables N fun s q a _ =>
    if imm = 0 then some (s, some a)
    else (M.ModAddEq q a imm).map fun result => (s, some result) := by
  by_cases h : imm = 0
  · simp only [if_pos h]
    exact keepsTables_of_pure N fun _ a => some a
  · simp only [if_neg h]
    exact keepsTables_of_pure N fun q a => M.ModAddEq q a imm

/-- **An instruction leaves right tables**, whatever it is and however it ends. -/
theorem exec_instruction_current (hM : M.MeetsNames) {s s' : Impl} {k : ℕ} {inst : Instruction}
    {ok : Bool} (hk : k < 64) (hdim : s.ring_dim = 2 ^ k) (hs : s.Current)
    (h : exec_instruction M s inst = some (s', ok)) : s'.Current := by
  unfold exec_instruction at h
  cases hop : inst.opcode with
  | FH_SR_ADDP | FH_SR_SUBP | FH_SR_MULP =>
    rw [hop] at h
    exact exec_pp_current hs h
  | FH_SR_ADDPS | FH_SR_ADDPS_COEFF =>
    rw [hop] at h
    exact exec_src1_current (keepsTables_addps _ inst.imm) hs h
  | FH_SR_SUBPS | FH_SR_SUBPS_COEFF =>
    rw [hop] at h
    exact exec_src1_current (keepsTables_of_pure _ fun q a => M.ModSubEq q a inst.imm) hs h
  | FH_SR_MULPS =>
    rw [hop] at h
    simp only [exec_mulps] at h
    split at h
    -- a product with zero is written without a look at the source
    · obtain ⟨rfl, rfl⟩ := Prod.mk.inj (Option.some.inj h)
      exact (hs.resolve_modulus inst).congr rfl rfl
    · exact exec_src1_current (keepsTables_of_pure _ fun q a => M.ModMulEq q a inst.imm) hs h
  | FH_SR_NEGP =>
    rw [hop] at h
    exact exec_src1_current (keepsTables_of_pure _
      fun q a => some (a.map fun x => if x = 0 then 0 else sub64 q x)) hs h
  | FH_SR_NTT | FH_SR_INTT =>
    rw [hop] at h
    apply exec_src1_current _ hs h
    rw [hdim]
    exact keepsTables_transform hM hk inst _
  | FH_SR_AUTOMORPH_EVAL =>
    rw [hop] at h
    exact exec_src1_current (keepsTables_automorph _ inst.k) hs h
  | FH_SR_ROT_AUTOMORPH_COEFF =>
    rw [hop] at h
    exact exec_src1_current (keepsTables_rot _ inst.offset) hs h
  | _ =>
    rw [hop] at h
    obtain ⟨rfl, -⟩ := Prod.mk.inj (Option.some.inj h)
    exact hs

/-- **What a transform that succeeds has done**: with the tables of its own root, it has put
the transform of its operand at its destination. -/
def TransformedWith (transform : ℕ → NttTables → Poly → Option Poly) (N : ℕ) (s : Impl)
    (inst : Instruction) (s' : Impl) : Prop :=
  ∃ psi t values, RootFor N (s.resolve_modulus inst).2 (inst.omega.map UInt64.toNat) psi ∧
    TablesOf N (s.resolve_modulus inst).2 psi t ∧
    transform (s.resolve_modulus inst).2 t (s.get_or_zero inst.src1.toNat) = some values ∧
    s'.memory = s.memory.commit_dest inst.dest.toNat values (s.resolve_modulus inst).2

theorem exec_transform_with (hM : M.MeetsNames) {s s' : Impl} {k : ℕ} {inst : Instruction}
    (transform : ℕ → NttTables → Poly → Option Poly) (hk : k < 64) (hdim : s.ring_dim = 2 ^ k)
    (hs : s.Current)
    (h : exec_src1 (fun s q a _ => (ntt_tables_for M s inst q).bind fun
      | (s, none) => some (s, none)
      | (s, some t) => (transform q t a).map fun result => (s, some result)) s inst =
        some (s', true)) : TransformedWith transform s.ring_dim s inst s' := by
  have hset := s.resolve_modulus_setup inst
  have hdim' : (s.resolve_modulus inst).1.ring_dim = s.ring_dim := congrArg Setup.ring_dim hset
  rw [exec_src1_eq] at h
  split at h
  · exact absurd (congrArg Prod.snd (Option.some.inj h)) (by simp)
  · obtain ⟨r, hr, he⟩ := Option.map_eq_some_iff.mp h
    obtain ⟨⟨s'', t⟩, ht, hr⟩ := Option.bind_eq_some_iff.mp hr
    obtain ⟨-, htables⟩ :=
      ntt_tables_for_current hM hk (hdim'.trans hdim) (hs.resolve_modulus inst) ht
    cases t with
    | none =>
      obtain rfl := Option.some.inj hr
      exact absurd (congrArg Prod.snd he) (by simp)
    | some t =>
      obtain ⟨values, hvalues, rfl⟩ := Option.map_eq_some_iff.mp hr
      -- the table found is the one that would be built
      obtain ⟨psi, hroot, hright⟩ := htables t rfl
      rw [hdim'] at hroot hright
      obtain ⟨rfl, -⟩ := Prod.mk.inj he
      refine ⟨psi, t, values, hroot, hright, hvalues, ?_⟩
      have hmemory : s''.memory = s.memory := by
        rw [ntt_tables_for_memory ht, Impl.resolve_modulus_memory]
      rw [← hmemory]
      rfl

/-- The instruction names a root of unity that is none. -/
def NamesNoRoot (N q : ℕ) (inst : Instruction) : Prop :=
  ∃ omega, inst.omega = some omega ∧ ¬ (2 < q ∧ Negacyclic2NRoot omega.toNat N q)

/-- **A transform by an invalid omega** counts an error and leaves the tables alone. -/
theorem exec_transform_invalid {s : Impl} {inst : Instruction}
    (transform : ℕ → NttTables → Poly → Option Poly) (hdim : s.ring_dim < 2 ^ 64) (hs : s.Current)
    (hinvalid : NamesNoRoot s.ring_dim (s.resolve_modulus inst).2 inst) :
    ∃ s', exec_src1 (fun s q a _ => (ntt_tables_for M s inst q).bind fun
      | (s, none) => some (s, none)
      | (s, some t) => (transform q t a).map fun result => (s, some result)) s inst =
        some (s', false) ∧ s'.ntt_tables = s.ntt_tables := by
  obtain ⟨omega, homega, hinvalid⟩ := hinvalid
  have hdim' : (s.resolve_modulus inst).1.ring_dim = s.ring_dim :=
    congrArg Setup.ring_dim (s.resolve_modulus_setup inst)
  have htables : (s.resolve_modulus inst).1.ntt_tables = s.ntt_tables := by
    rcases s.resolve_modulus_eq inst with he | he
    · rw [he]
    · rw [he]
      rfl
  -- either there is no source, or there is no table
  rw [exec_src1_eq]
  split
  · exact ⟨_, rfl, htables⟩
  · rw [← hdim'] at hdim hinvalid
    rw [(ntt_tables_for_invalid hdim (hs.resolve_modulus inst) homega hinvalid).2]
    exact ⟨_, rfl, htables⟩

/-! ## Runs -/

variable (M)

/-- The run of `s`, just before its `i`-th instruction. -/
def Before (s : Simulator) (i : ℕ) (impl : Impl) : Prop :=
  s.ring_dim ≠ 0 ∧ ∃ executed, execute_loop M s.free_after_ (s.trace.instructions.take i) 0
    { s.toImpl with error_count := 0 } 0 = some (impl, executed)

/-- What an instruction may leave that an exception ends: any memory and count, and the
tables it found, or those with its own entered. -/
def Interrupts (inst : Instruction) (s s' : Impl) : Prop :=
  exec_instruction M s inst = none ∧ s'.toSetup = s.toSetup ∧
    (s'.ntt_tables = s.ntt_tables ∨ ∃ built t,
      ntt_tables_for M (s.resolve_modulus inst).1 inst (s.resolve_modulus inst).2 =
        some (built, t) ∧ s'.ntt_tables = built.ntt_tables)

/-- A simulator after any sequence of calls. Stores and the liveness pass may change the
memory and the schedule in any way. -/
inductive Reached : Simulator → Prop where
  | fresh : Reached {}
  | set_ring_dimension {s : Simulator} {k : ℕ} :
      Reached s → k < 64 → Reached (Fhetch.set_ring_dimension s (2 ^ k))
  | load {s : Simulator} (p : Program) : Reached s → Reached (load_program s p).1
  | prepare {s : Simulator} (m : Memory) (free : List (List ℕ)) (live : List ℕ) : Reached s →
      Reached { s with memory := m, free_after_ := free, live_out_ := live }
  | run {s s' : Simulator} {r : SimResult} :
      Reached s → Fhetch.run M s = some (s', r) → Reached s'
  | interrupted {s : Simulator} {i : ℕ} {inst : Instruction} {impl impl' : Impl} :
      Reached s → Before M s i impl → s.trace.instructions[i]? = some inst →
        Interrupts M inst impl impl' → Reached { s with toImpl := impl' }

variable {M}

/-- What every call preserves. -/
structure Impl.Kept (s : Impl) : Prop where
  dim : s.ring_dim = 0 ∨ ∃ k < 64, s.ring_dim = 2 ^ k
  tables : s.Current

/-- The loop keeps the setup and the tables. -/
theorem execute_loop_current (hM : M.MeetsNames) {k : ℕ} (hk : k < 64)
    (free_after_ : List (List ℕ)) (insts : List Instruction) :
    ∀ {i executed executed' : ℕ} {s s' : Impl}, s.ring_dim = 2 ^ k → s.Current →
      execute_loop M free_after_ insts i s executed = some (s', executed') →
      s'.toSetup = s.toSetup ∧ s'.Current := by
  induction insts with
  | nil =>
    intro i executed executed' s s' _ hs h
    obtain ⟨rfl, rfl⟩ := Prod.mk.inj (Option.some.inj h)
    exact ⟨rfl, hs⟩
  | cons inst rest ih =>
    intro i executed executed' s s' hdim hs h
    obtain ⟨⟨s₁, ok⟩, hexec, hloop⟩ := Option.bind_eq_some_iff.mp h
    have hset : s₁.toSetup = s.toSetup := (exec_instruction_progress M hexec).1
    have hs₁ := exec_instruction_current hM hk hdim hs hexec
    have hdim₁ : s₁.ring_dim = 2 ^ k := (congrArg Setup.ring_dim hset).trans hdim
    obtain ⟨hset', hs'⟩ := ih (s := s₁.release (free_after_.getD i [])) hdim₁
      (hs₁.congr rfl rfl) hloop
    exact ⟨hset'.trans hset, hs'⟩

/-- At every instruction of a run, the dimension is that of the simulator and all tables
are right for it. -/
theorem Before.current (hM : M.MeetsNames) {s : Simulator} {i : ℕ} {impl : Impl}
    (hs : s.Kept) (h : Before M s i impl) :
    ∃ k < 64, s.ring_dim = 2 ^ k ∧ impl.toSetup = s.toSetup ∧ impl.Current := by
  obtain ⟨hne, executed, hloop⟩ := h
  rcases hs.dim with hzero | ⟨k, hk, hdim⟩
  · exact absurd hzero hne
  · obtain ⟨hset, hcurrent⟩ := execute_loop_current hM hk _ _
      (s := { s.toImpl with error_count := 0 }) hdim (hs.tables.congr rfl rfl) hloop
    exact ⟨k, hk, hdim, hset, hcurrent⟩

/-- **The invariant of the cache**, over every sequence of calls. -/
theorem Reached.kept (hM : M.MeetsNames) {s : Simulator} (h : Reached M s) : s.Kept := by
  induction h with
  | fresh => exact ⟨.inl rfl, fun e he => absurd he List.not_mem_nil⟩
  | set_ring_dimension _ hk _ =>
    -- nothing is kept
    exact ⟨.inr ⟨_, hk, rfl⟩, fun e he => absurd he List.not_mem_nil⟩
  | load p _ ih => exact ⟨ih.dim, ih.tables.congr rfl rfl⟩
  | prepare m free live _ ih => exact ⟨ih.dim, ih.tables.congr rfl rfl⟩
  | @run s s' r _ hrun ih =>
    unfold Fhetch.run at hrun
    split at hrun
    · obtain ⟨rfl, -⟩ := Prod.mk.inj (Option.some.inj hrun)
      exact ih
    · next hne =>
      obtain ⟨⟨impl, executed⟩, hloop, he⟩ := Option.map_eq_some_iff.mp hrun
      obtain ⟨rfl, -⟩ := Prod.mk.inj he
      have hbefore : Before M s s.trace.instructions.length impl := by
        refine ⟨hne, executed, ?_⟩
        rw [List.take_length]
        exact hloop
      obtain ⟨k, hk, hdim, hset, hcurrent⟩ := hbefore.current hM ih
      exact ⟨.inr ⟨k, hk, (congrArg Setup.ring_dim hset).trans hdim⟩, hcurrent⟩
  | @interrupted s i inst impl impl' _ hbefore hinst hinterrupts ih =>
    obtain ⟨k, hk, hdim, hset, hcurrent⟩ := hbefore.current hM ih
    obtain ⟨-, hset', htables⟩ := hinterrupts
    have hdim' : impl'.ring_dim = impl.ring_dim := congrArg Setup.ring_dim hset'
    have hdimension : impl.ring_dim = 2 ^ k := (congrArg Setup.ring_dim hset).trans hdim
    refine ⟨.inr ⟨k, hk, hdim'.trans hdimension⟩, ?_⟩
    rcases htables with htables | ⟨built, t, hbuilt, htables⟩
    · exact hcurrent.congr hdim' htables
    · have hresolved : (impl.resolve_modulus inst).1.ring_dim = impl.ring_dim :=
        congrArg Setup.ring_dim (impl.resolve_modulus_setup inst)
      have hbuilt' := (ntt_tables_for_current hM hk (hresolved.trans hdimension)
        (hcurrent.resolve_modulus inst) hbuilt).1
      have hset'' : built.toSetup = _ := (ntt_tables_for_spec M hbuilt).1
      exact hbuilt'.congr
        (hdim'.trans (hresolved.symm.trans (congrArg Setup.ring_dim hset'').symm)) htables

/-- **Transforms use the tables of their own root and dimension**, after any sequence of
calls. -/
theorem transform_tables_own (hM : M.MeetsNames) {s : Simulator} (hs : Reached M s) :
    s.Current ∧ ∀ i impl inst, Before M s i impl → s.trace.instructions[i]? = some inst →
      impl.Current ∧ (∀ impl', exec_instruction M impl inst = some (impl', true) →
        (inst.opcode = .FH_SR_NTT → TransformedWith M.ForwardTransformToBitReverseInPlace
          s.ring_dim impl inst impl') ∧
        (inst.opcode = .FH_SR_INTT → TransformedWith M.InverseTransformFromBitReverseInPlace
          s.ring_dim impl inst impl')) ∧
      (inst.opcode = .FH_SR_NTT ∨ inst.opcode = .FH_SR_INTT →
        NamesNoRoot s.ring_dim (impl.resolve_modulus inst).2 inst →
        ∃ impl', exec_instruction M impl inst = some (impl', false) ∧
          impl'.ntt_tables = impl.ntt_tables) := by
  have hkept := hs.kept hM
  refine ⟨hkept.tables, fun i impl inst hbefore hinst => ?_⟩
  obtain ⟨k, hk, hdim, hset, hcurrent⟩ := hbefore.current hM hkept
  -- the ring dimension is a power of two all along
  have hdim' : impl.ring_dim = s.ring_dim := congrArg Setup.ring_dim hset
  have hdimension : impl.ring_dim = 2 ^ k := hdim'.trans hdim
  rw [← hdim']
  refine ⟨hcurrent, ?_, ?_⟩
  · intro impl' hexec
    constructor
    · intro hop
      simp only [exec_instruction, hop] at hexec
      exact exec_transform_with hM _ hk hdimension hcurrent hexec
    · intro hop
      simp only [exec_instruction, hop] at hexec
      exact exec_transform_with hM _ hk hdimension hcurrent hexec
  · intro hop hinvalid
    have hlt : impl.ring_dim < 2 ^ 64 := by
      rw [hdimension]
      exact Nat.pow_lt_pow_right (by decide) hk
    rcases hop with hop | hop
    · simp only [exec_instruction, hop]
      exact exec_transform_invalid _ hlt hcurrent hinvalid
    · simp only [exec_instruction, hop]
      exact exec_transform_invalid _ hlt hcurrent hinvalid

/-! ## An instance -/

/-- The reference arithmetic does what the names say. -/
theorem referenceMath_meetsNames : referenceMath.MeetsNames where
  ModInverse {q a x} h := by
    have hfound : (List.range q).find? (fun x => decide (a * x % q = 1)) = some x := h
    obtain ⟨hone, hx, -⟩ := List.find?_range_eq_some.mp hfound
    exact ⟨List.mem_range.mp hx, of_decide_eq_true hone⟩
  ModMulInteger _ _ := rfl
  GetMSB {k} _ := by
    by_cases hk : k = 0
    · rw [hk]
      rfl
    · have hle : 2 ^ (k - 1) ≤ 2 ^ k - 1 := by
        have := Nat.pow_lt_pow_right (by decide : 1 < 2) (by omega : k - 1 < k)
        omega
      have hpos := Nat.two_pow_pos (k - 1)
      have hlog : Nat.log2 (2 ^ k - 1) = k - 1 := by
        rw [Nat.log2_eq_iff (by omega), show k - 1 + 1 = k by omega]
        exact ⟨hle, by omega⟩
      show (if 2 ^ k - 1 = 0 then 0 else Nat.log2 (2 ^ k - 1) + 1) = k
      rw [if_neg (by omega), hlog]
      omega
  ReverseBits _ _ := rfl
  RootOfUnity {k q root} hk h := by
    have hlt : 2 ^ k < 2 ^ 64 := Nat.pow_lt_pow_right (by decide) hk
    -- the search goes upwards, so its first hit is the least root
    obtain ⟨hcheck, -, hleast⟩ := List.find?_range_eq_some.mp h
    rw [Nat.mul_div_cancel_left _ (by decide)] at hcheck hleast
    obtain ⟨hq, hroot⟩ := (is_primitive_2n_root_iff _ _ _ hlt).mp hcheck
    refine ⟨hq, hroot, fun other hother => ?_⟩
    by_contra hsmaller
    have hno := hleast other (by omega)
    rw [(is_primitive_2n_root_iff _ _ _ hlt).mpr ⟨hq, hother⟩] at hno
    exact absurd hno (by decide)

/-- A transform of address 0, with its root if one is recorded. -/
def someTransform (dest : UInt32) (q : UInt64) (omega : Option UInt64) : Instruction where
  opcode := .FH_SR_NTT
  dest := dest
  src1 := 0
  modulus := some q
  modulus_is_literal := true
  omega := omega

/-- A simulator with the dimension 2 and transforms modulo 5 under both roots. -/
def twoRootsRun : Simulator :=
  (load_program (set_ring_dimension {} (2 ^ 1))
    { instructions := [someTransform 1 5 (some 2), someTransform 2 5 (some 3), someTransform 3 5 (some 2)] }).1

/-- After that run, the dimension 4 and transforms modulo 17: under a root of its own, and
twice under none. -/
def unrootedRun : Simulator :=
  (load_program (set_ring_dimension ((run referenceMath twoRootsRun).getD (twoRootsRun, ⟨0, 0⟩)).1 (2 ^ 2))
    { instructions := [someTransform 1 17 (some 8), someTransform 2 17 none, someTransform 3 17 none] }).1

/-- What the last of them finds. -/
def unrootedFound : Impl :=
  ((execute_loop referenceMath unrootedRun.free_after_ (unrootedRun.trace.instructions.take 2) 0
    { unrootedRun.toImpl with error_count := 0 } 0).getD (unrootedRun.toImpl, 0)).1

theorem transform_tables_own_unrooted :
    unrootedFound.ntt_tables.length = 2 ∧
      ∃ impl', TransformedWith referenceMath.ForwardTransformToBitReverseInPlace 4 unrootedFound
        (someTransform 3 17 none) impl' := by
  have hgets : ∀ {α : Type} {o : Option α} {a : α}, o.isSome = true → o = some (o.getD a) := by
    rintro α (- | a) - ho
    · exact absurd ho Bool.false_ne_true
    · rfl
  have hran : run referenceMath twoRootsRun =
      some ((run referenceMath twoRootsRun).getD (twoRootsRun, ⟨0, 0⟩)) := hgets (by decide +kernel)
  have hreached : Reached referenceMath unrootedRun :=
    .load _ (.set_ring_dimension (.run (.load _ (.set_ring_dimension .fresh (by decide))) hran) (by decide))
  have hbefore : Before referenceMath unrootedRun 2 unrootedFound :=
    ⟨by decide +kernel, _, hgets (a := (unrootedRun.toImpl, 0)) (by decide +kernel)⟩
  obtain ⟨impl', hexec⟩ : ∃ impl', exec_instruction referenceMath unrootedFound (someTransform 3 17 none) =
      some (impl', true) := ⟨_, rfl⟩
  exact ⟨by decide +kernel, impl', (((transform_tables_own referenceMath_meetsNames hreached).2 2 unrootedFound
    (someTransform 3 17 none) hbefore rfl).2.1 impl' hexec).1 rfl⟩

end Fhetch
