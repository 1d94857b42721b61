/-
A drive that stops at an instruction the API rejects (`src/fhetch_parser.cpp`).

The header says that the instructions before the rejected one, and the inputs they
read, are recorded by then, and that the rejected one records nothing. The driver
makes the polynomial of its source before the API looks at the root, though. Where no
earlier instruction mentioned that address, an input of the rejected instruction stays
behind: captured, if the caller gave values for it, and tagged otherwise.
-/
import Fhetch.Driver

set_option autoImplicit false

namespace Fhetch

open Lib

/-! ## Calls that return -/

/-- A call of the API that always returns. -/
def Api.Returns {α : Type} (f : Api α) : Prop := ∀ s, ∃ a s', f s = some (a, s')

namespace Api.Returns

variable {α β : Type}

theorem pure (a : α) : Returns (pure a : Api α) := fun s => ⟨a, s, rfl⟩

theorem bind {f : Api α} {g : α → Api β} (hf : f.Returns) (hg : ∀ a, (g a).Returns) :
    Returns (f >>= g) := by
  intro s
  obtain ⟨a, s', hs'⟩ := hf s
  obtain ⟨b, s'', hs''⟩ := hg a s'
  refine ⟨b, s'', ?_⟩
  show (f s).bind _ = _
  rw [hs']
  exact hs''

theorem alloc : Returns alloc_address := fun _ => ⟨_, _, rfl⟩

theorem remember (a : ℕ) (q : UInt64) : Returns (remember_modulus a q) := fun _ => ⟨_, _, rfl⟩

theorem recorded (f : TraceWriter → TraceWriter) : Returns (recorded f) := fun _ => ⟨_, _, rfl⟩

theorem make_result (a : Polynomial) (fmt : Format) : Returns (make_result a fmt) := by
  unfold Fhetch.make_result
  split
  · exact bind alloc fun _ => pure _
  · exact bind alloc fun _ => pure _

theorem pp (op : FhOpcode) (a b : Polynomial) (q : UInt64) : Returns (sr_pp op a b q) :=
  bind (make_result _ _) fun _ => bind (remember _ _) fun _ => bind (remember _ _) fun _ =>
    bind (remember _ _) fun _ => bind (recorded _) fun _ => pure _

theorem ps (op : FhOpcode) (a : Polynomial) (c : Scalar) (q : UInt64) : Returns (sr_ps op a c q) :=
  bind (make_result _ _) fun _ => bind (remember _ _) fun _ => bind (remember _ _) fun _ =>
    bind (recorded _) fun _ => pure _

theorem derived (a : Polynomial) (fmt : Format) (q : UInt64) (f : ℕ → TraceWriter → TraceWriter) :
    Returns (sr_derived a fmt q f) :=
  bind (make_result _ _) fun _ => bind (remember _ _) fun _ => bind (remember _ _) fun _ =>
    bind (recorded _) fun _ => pure _

theorem ntt (op : FhOpcode) (a : Polynomial) (q : UInt64) (omega : Option UInt64) :
    Returns (record_ntt op a q omega) := derived _ _ _ _

theorem unbound (a : Polynomial) (fmt : Format) (f : ℕ → TraceWriter → TraceWriter) :
    Returns (sr_unbound a fmt f) :=
  bind (make_result _ _) fun _ => bind (recorded _) fun _ => pure _

theorem pp_ni (op : FhOpcode) (a b : Polynomial) : Returns (sr_pp_ni op a b) := unbound _ _ _

theorem ps_ni (op : FhOpcode) (a : Polynomial) (fmt : Format) (v : UInt64) :
    Returns (sr_ps_ni op a fmt v) := unbound _ _ _

theorem negp (a : Polynomial) (q : UInt64) : Returns (sr_negp a q) :=
  bind (make_result _ _) fun _ => bind (remember _ _) fun _ => bind (remember _ _) fun _ =>
    bind (recorded _) fun _ => pure _

end Api.Returns

/-! ## Sources -/

/-- The state after an address was taken. -/
def Driven.taken (d : Driven) : Driven :=
  { d with compiler := { d.compiler with session :=
    { d.compiler.session with next_address_ := d.compiler.session.next_address_ + 1 } } }

/-- The state after a polynomial was tagged as the input for a file address. -/
def Driven.tagged (d : Driven) (file_addr : ℕ) (p : Polynomial) : Driven :=
  { d with compiler := { d.compiler with session :=
    { d.compiler.session with
      input_registry := d.compiler.session.input_registry ++ [⟨Driver.in_name file_addr, .POLY p⟩] } } }

namespace Driver

open Throws Driven

variable (drv : Driver)

/-- The polynomial that a source is made as. -/
def made (data : List UInt64) (d : Driven) : Polynomial where
  address := d.compiler.session.next_address_
  ring_dim := drv.ring_dim
  fmt := .Evaluation
  ntype := .Integer
  int_data := data

/-- **What asking for a source does**: nothing where the address has a polynomial, and
otherwise an input, with the caller's values or tagged. -/
inductive Sourced (file_addr : ℕ) (d : Driven) : Polynomial → Driven → Prop
  | held {p : Polynomial} (h : d.polys file_addr = some p) : Sourced file_addr d p d
  | given {e : DriveElement} (h : d.polys file_addr = none) (hgiven : drv.given file_addr = some e) :
    Sourced file_addr d (drv.made e.values d) (emplace file_addr (drv.made e.values d)
      (drv.materialize file_addr e (drv.made e.values d) d.taken))
  | tagged (h : d.polys file_addr = none) (hgiven : drv.given file_addr = none) :
    Sourced file_addr d (drv.made [] d)
      (emplace file_addr (drv.made [] d) (d.taken.tagged file_addr (drv.made [] d)))

theorem get_or_create_src_gives (file_addr : ℕ) (d : Driven) :
    ∃ p d', (drv.get_or_create_src file_addr).on d = (.ok p, d') ∧ drv.Sourced file_addr d p d' := by
  rcases h : d.polys file_addr with - | p
  · rcases hgiven : drv.given file_addr with - | e
    · refine ⟨_, _, ?_, .tagged h hgiven⟩
      rw [get_or_create_src, on_get_bind, h]
      dsimp only
      rw [hgiven]
      rfl
    · refine ⟨_, _, ?_, .given h hgiven⟩
      rw [get_or_create_src, on_get_bind, h]
      dsimp only
      rw [hgiven]
      rfl
  · refine ⟨_, _, ?_, .held h⟩
    rw [get_or_create_src, on_get_bind, h]
    rfl

end Driver

/-! ## What an instruction puts into the map -/

namespace Driver

open Throws Driven

variable {drv : Driver}

/-- What filling the map at `as` does: the table stays, and so do the kinds of the inputs
of other addresses. -/
structure Filled (as : List ℕ) (d d' : Driven) : Prop where
  table : d'.stats.modulus_table = d.stats.modulus_table
  keys : ∀ a, (d'.polys a).isSome ↔ a ∈ as ∨ (d.polys a).isSome
  kinds : ∀ a, a ∉ as → kindOf d'.compiler.captured_inputs (in_name a) =
    kindOf d.compiler.captured_inputs (in_name a)

theorem Filled.nil {d d' : Driven} (htable : d'.stats.modulus_table = d.stats.modulus_table)
    (hpolys : d'.polys = d.polys)
    (hcaptured : d'.compiler.captured_inputs = d.compiler.captured_inputs) : Filled [] d d' :=
  ⟨htable, fun a => by simp [hpolys], fun _ _ => by rw [hcaptured]⟩

theorem Filled.trans {as bs : List ℕ} {d₀ d₁ d₂ : Driven} (h : Filled as d₀ d₁) (h' : Filled bs d₁ d₂) :
    Filled (as ++ bs) d₀ d₂ := by
  refine ⟨h'.table.trans h.table, fun a => ?_, fun a ha => ?_⟩
  · rw [h'.keys, h.keys, List.mem_append, or_left_comm, or_assoc]
  · rw [List.mem_append, not_or] at ha
    rw [h'.kinds a ha.2, h.kinds a ha.1]

theorem in_name_injective {a b : ℕ} (h : in_name a = in_name b) : a = b :=
  decimal_injective (List.append_cancel_left h)

/-- An entry alone. -/
theorem Filled.emplace (file_addr : ℕ) (p : Polynomial) {d d₁ : Driven}
    (h : Filled [] d d₁) : Filled [file_addr] d (emplace file_addr p d₁) := by
  refine ⟨h.table, fun a => ?_, fun a _ => h.kinds a List.not_mem_nil⟩
  have hkeys := h.keys a
  by_cases ha : a = file_addr
  · subst ha
    simp [Driver.emplace]
  · simpa [Driver.emplace, ha] using hkeys

theorem Sourced.filled {file_addr : ℕ} {d d' : Driven} {p : Polynomial}
    (h : drv.Sourced file_addr d p d') : Filled [file_addr] d d' := by
  cases h with
  | held h =>
    refine ⟨rfl, fun a => ⟨.inr, fun ha => ?_⟩, fun _ _ => rfl⟩
    rcases ha with ha | ha
    · rw [List.mem_singleton.mp ha, h]
      rfl
    · exact ha
  | tagged _ _ =>
    have htagged : Filled [] d (d.taken.tagged file_addr (drv.made [] d)) := .nil rfl rfl rfl
    exact htagged.emplace file_addr _
  | given _ _ =>
    rename_i e _ _
    have htaken : Filled [] d d.taken := .nil rfl rfl rfl
    refine ⟨rfl, (htaken.emplace file_addr _).keys, fun a ha => ?_⟩
    refine (kindOf_store_element _ _).trans (if_neg fun hname => ha ?_)
    rw [in_name_injective hname]
    exact List.mem_singleton_self _

/-- From `d`, an action returns and fills the map at `as`. -/
def FillsAt {α : Type} (x : Throws Driven α) (as : List ℕ) (d : Driven) : Prop :=
  ∃ r d', x.on d = (.ok r, d') ∧ Filled as d d'

def Fills {α : Type} (x : Throws Driven α) (as : List ℕ) : Prop := ∀ d, FillsAt x as d

section Filling

variable {α β : Type}

theorem FillsAt.bind {x : Throws Driven α} {f : α → Throws Driven β} {as bs : List ℕ} {d : Driven}
    (hx : FillsAt x as d) (hf : ∀ a, Fills (f a) bs) : FillsAt (x >>= f) (as ++ bs) d := by
  obtain ⟨a, d₁, hon, hfilled⟩ := hx
  obtain ⟨b, d₂, hon', hfilled'⟩ := hf a d₁
  exact ⟨b, d₂, by rw [on_bind_ok hon, hon'], hfilled.trans hfilled'⟩

namespace Fills

theorem pure (a : α) : Fills (pure a : Throws Driven α) [] :=
  fun d => ⟨a, d, rfl, .nil rfl rfl rfl⟩

theorem bind {x : Throws Driven α} {f : α → Throws Driven β} {as bs : List ℕ} (hx : Fills x as)
    (hf : ∀ a, Fills (f a) bs) : Fills (x >>= f) (as ++ bs) := fun d => (hx d).bind hf

theorem call_api {f : Api α} (hf : f.Returns) : Fills (call (api f)) [] := by
  intro d
  obtain ⟨a, s, hs⟩ := hf d.compiler.session
  refine ⟨a, { d with compiler := { d.compiler with session := s } }, ?_, .nil rfl rfl rfl⟩
  show call (api f) d = _
  rw [call, api_of_some hs]

theorem put (a : ℕ) (r : Polynomial) : Fills (put a r) [a] :=
  fun d => ⟨(), emplace a r d, rfl, .emplace a r (.nil rfl rfl rfl)⟩

theorem src (file_addr : ℕ) : Fills (drv.get_or_create_src file_addr) [file_addr] := by
  intro d
  obtain ⟨p, d', hon, hsourced⟩ := drv.get_or_create_src_gives file_addr d
  exact ⟨p, d', hon, hsourced.filled⟩

theorem zero_src (file_addr : ℕ) : Fills (drv.get_or_create_zero_src file_addr) [file_addr] := by
  intro d
  rcases h : d.polys file_addr with - | p
  · refine ⟨drv.made [] d, emplace file_addr (drv.made [] d) d.taken, ?_,
      .emplace file_addr _ (.nil rfl rfl rfl)⟩
    rw [Driver.get_or_create_zero_src, on_get_bind, h]
    rfl
  · refine ⟨p, d, ?_, (show drv.Sourced file_addr d p d from .held h).filled⟩
    rw [Driver.get_or_create_zero_src, on_get_bind, h]
    rfl

variable {inst : Instruction}

theorem drive_pp {f : Polynomial → Polynomial → Api Polynomial} (hf : ∀ a b, (f a b).Returns) :
    Fills (drv.drive_pp inst f) [inst.src1.toNat, inst.src2.toNat, inst.dest.toNat] :=
  bind (src _) fun _ => bind (src _) fun _ => bind (call_api (hf _ _)) fun _ =>
    bind (put _ _) fun _ => pure _

theorem ps_src : Fills (drv.ps_src inst) [inst.src1.toNat] := by
  unfold Driver.ps_src
  split
  · exact zero_src _
  · exact src _

theorem drive_ps {f : Polynomial → Scalar → Api Polynomial} (hf : ∀ a b, (f a b).Returns) :
    Fills (drv.drive_ps inst f) [inst.src1.toNat, inst.dest.toNat] :=
  bind ps_src fun _ => bind (call_api (.bind .alloc fun _ => .pure _)) fun _ =>
    bind (call_api (hf _ _)) fun _ => bind (put _ _) fun _ => pure _

theorem drive_ps_ni {f : Polynomial → UInt64 → Api Polynomial} (hf : ∀ a v, (f a v).Returns) :
    Fills (drv.drive_ps_ni inst f) [inst.src1.toNat, inst.dest.toNat] :=
  bind (src _) fun _ => bind (call_api (.bind .alloc fun _ => .pure _)) fun _ =>
    bind (call_api (hf _ _)) fun _ => bind (put _ _) fun _ => pure _

theorem drive_un {f : Polynomial → Api Polynomial} (hf : ∀ a, (f a).Returns) :
    Fills (drv.drive_un inst fun a => api (f a)) [inst.src1.toNat, inst.dest.toNat] :=
  bind (src _) fun _ => bind (call_api (hf _)) fun _ => bind (put _ _) fun _ => pure _

end Fills

end Filling

/-! ## What an instruction can do -/

section Running

variable {α : Type}

theorem call_of_ok {f : Throws Session α} {d : Driven} {a : α} {s : Session}
    (h : f.on d.compiler.session = (.ok a, s)) :
    (call f).on d = (.ok a, { d with compiler := { d.compiler with session := s } }) := by
  show call f d = _
  rw [call, h]

theorem call_of_error {f : Throws Session α} {d : Driven} {text : Str}
    (h : f.on d.compiler.session = (.error text, d.compiler.session)) :
    (call f).on d = (.error text, d) := by
  show call f d = _
  rw [call, h]

/-- Catching what is not thrown changes nothing. -/
theorem on_tryCatch_ok {x : Throws Driven α} {handler : Str → Throws Driven α} {d d' : Driven} {a : α}
    (h : x.on d = (.ok a, d')) : on (tryCatch x handler) d = (.ok a, d') := by
  simp only [on] at h ⊢
  simp only [tryCatch, tryCatchThe, MonadExceptOf.tryCatch, ExceptT.tryCatch, ExceptT.mk, bind,
    StateT.bind, h]
  rfl

/-- The handler goes on from the state that was left. -/
theorem on_tryCatch_error {x : Throws Driven α} {handler : Str → Throws Driven α} {d d' : Driven}
    {text : Str} (h : x.on d = (.error text, d')) : on (tryCatch x handler) d = (handler text).on d' := by
  simp only [on] at h ⊢
  simp only [tryCatch, tryCatchThe, MonadExceptOf.tryCatch, ExceptT.tryCatch, ExceptT.mk, bind,
    StateT.bind, h]

end Running

/-- A transform is driven like any other opcode with one polynomial, unless its root is
rejected. -/
theorem drive_ntt_cases (inst : Instruction) (q : UInt64) (d : Driven) (op : FhOpcode) (what : Str)
    {with_root : Polynomial → UInt64 → UInt64 → Throws Session Polynomial}
    {rootless : Polynomial → UInt64 → Api Polynomial}
    (hwith : ∀ a q omega, with_root a q omega =
      Throws.require_ntt_root what omega a.ring_dim q >>= fun _ => api (record_ntt op a q (some omega)))
    (hrootless : ∀ a, (rootless a q).Returns) :
    FillsAt (drv.drive_ntt inst q with_root rootless) [inst.src1.toNat, inst.dest.toNat] d ∨
      ∃ text p d' omega, (drv.drive_ntt inst q with_root rootless).on d = (.error text, d') ∧
        drv.Sourced inst.src1.toNat d p d' ∧ inst.omega = some omega ∧
        is_primitive_2n_root omega.toNat p.ring_dim q.toNat = false := by
  rcases homega : inst.omega with - | omega
  · left
    simp only [drive_ntt, homega]
    exact Fills.drive_un hrootless d
  · obtain ⟨p, d₁, hon, hsourced⟩ := drv.get_or_create_src_gives inst.src1.toNat d
    obtain ⟨hvalid, hinvalid⟩ := checks_require_ntt_root what omega p.ring_dim q d₁.compiler.session
    have hdrive : drv.drive_ntt inst q with_root rootless =
        drv.drive_un inst fun a => with_root a q omega := by
      simp only [drive_ntt, homega]
    by_cases hroot : is_primitive_2n_root omega.toNat p.ring_dim q.toNat = true
    · left
      obtain ⟨r, s', hrecord, -⟩ := record_ntt_gives op p q omega d₁.compiler.session
      have hcall : (with_root p q omega).on d₁.compiler.session = (.ok r, s') := by
        rw [hwith, on_bind_ok (hvalid hroot), api_of_some hrecord]
      have hcalled : Filled [] d₁ { d₁ with compiler := { d₁.compiler with session := s' } } :=
        .nil rfl rfl rfl
      refine ⟨true, emplace inst.dest.toNat r
        { d₁ with compiler := { d₁.compiler with session := s' } }, ?_,
        hsourced.filled.trans (.emplace _ _ hcalled)⟩
      rw [hdrive, drive_un, on_bind_ok hon, on_bind_ok (call_of_ok hcall)]
      rfl
    · right
      obtain ⟨text, htext⟩ := hinvalid hroot
      have hcall : (with_root p q omega).on d₁.compiler.session = (.error text, d₁.compiler.session) := by
        rw [hwith, on_bind_error htext]
      refine ⟨text, p, d₁, omega, ?_, hsourced, rfl, by simpa using hroot⟩
      rw [hdrive, drive_un, on_bind_ok hon, on_bind_error (call_of_error hcall)]

/-- The addresses that driving an opcode leaves in the map, by its operands. -/
def opcode_touches (inst : Instruction) : List ℕ :=
  match inst.opcode with
  | .FH_HALT | .FH_ILL | .unassigned _ => []
  | .FH_SR_ADDP | .FH_SR_SUBP | .FH_SR_MULP | .FH_SR_ADDP_NI | .FH_SR_SUBP_NI | .FH_SR_MULP_NI =>
    [inst.src1.toNat, inst.src2.toNat, inst.dest.toNat]
  | _ => [inst.src1.toNat, inst.dest.toNat]

variable (drv) in
/-- Every opcode fills the map, or is a transform whose root is rejected. -/
theorem drive_opcode_cases (inst : Instruction) (q : UInt64) (d : Driven) :
    FillsAt (drv.drive_opcode inst q) (opcode_touches inst) d ∨
      ∃ text p d' omega, (drv.drive_opcode inst q).on d = (.error text, d') ∧
        (inst.opcode = .FH_SR_NTT ∨ inst.opcode = .FH_SR_INTT) ∧
        drv.Sourced inst.src1.toNat d p d' ∧ inst.omega = some omega ∧
        is_primitive_2n_root omega.toNat p.ring_dim q.toNat = false := by
  unfold drive_opcode opcode_touches
  cases hop : inst.opcode with
  | FH_SR_NTT =>
    refine (drive_ntt_cases inst q d .FH_SR_NTT (str "sr_ntt_with_root") (fun _ _ _ => rfl)
      fun a => .ntt _ a q none).imp id ?_
    rintro ⟨text, p, d', omega, hon, hsourced, homega, hroot⟩
    exact ⟨text, p, d', omega, hon, .inl rfl, hsourced, homega, hroot⟩
  | FH_SR_INTT =>
    refine (drive_ntt_cases inst q d .FH_SR_INTT (str "sr_intt_with_root") (fun _ _ _ => rfl)
      fun a => .ntt _ a q none).imp id ?_
    rintro ⟨text, p, d', omega, hon, hsourced, homega, hroot⟩
    exact ⟨text, p, d', omega, hon, .inr rfl, hsourced, homega, hroot⟩
  | FH_HALT => exact .inl (Fills.bind (.call_api (.recorded _)) (fun _ => .pure _) d)
  | FH_ILL => exact .inl (Fills.pure _ d)
  | unassigned e => exact .inl (Fills.pure _ d)
  | FH_SR_ADDP => exact .inl (Fills.drive_pp (fun a b => .pp _ a b _) d)
  | FH_SR_SUBP => exact .inl (Fills.drive_pp (fun a b => .pp _ a b _) d)
  | FH_SR_MULP => exact .inl (Fills.drive_pp (fun a b => .pp _ a b _) d)
  | FH_SR_ADDPS => exact .inl (Fills.drive_ps (fun a c => .ps _ a c _) d)
  | FH_SR_SUBPS => exact .inl (Fills.drive_ps (fun a c => .ps _ a c _) d)
  | FH_SR_MULPS => exact .inl (Fills.drive_ps (fun a c => .ps _ a c _) d)
  | FH_SR_ADDPS_COEFF => exact .inl (Fills.drive_ps (fun a c => .derived a _ _ _) d)
  | FH_SR_SUBPS_COEFF => exact .inl (Fills.drive_ps (fun a c => .derived a _ _ _) d)
  | FH_SR_NEGP => exact .inl (Fills.drive_un (fun a => .negp a _) d)
  | FH_SR_PERMUTE => exact .inl (Fills.drive_un (fun a => .derived a _ _ _) d)
  | FH_SR_AUTOMORPH_EVAL => exact .inl (Fills.drive_un (fun a => .unbound a _ _) d)
  | FH_SR_AUTOMORPH_COEFF => exact .inl (Fills.drive_un (fun a => .derived a _ _ _) d)
  | FH_SR_ROT_AUTOMORPH_COEFF => exact .inl (Fills.drive_un (fun a => .derived a _ _ _) d)
  | FH_SR_ADDP_NI => exact .inl (Fills.drive_pp (f := sr_addp_ni) (fun a b => .pp_ni _ a b) d)
  | FH_SR_SUBP_NI => exact .inl (Fills.drive_pp (f := sr_subp_ni) (fun a b => .pp_ni _ a b) d)
  | FH_SR_MULP_NI => exact .inl (Fills.drive_pp (f := sr_mulp_ni) (fun a b => .pp_ni _ a b) d)
  | FH_SR_ADDPS_NI =>
    exact .inl (Fills.drive_ps_ni (f := sr_addps_ni) (fun a v => .ps_ni _ a _ v) d)
  | FH_SR_SUBPS_NI =>
    exact .inl (Fills.drive_ps_ni (f := sr_subps_ni) (fun a v => .ps_ni _ a _ v) d)
  | FH_SR_MULPS_NI =>
    exact .inl (Fills.drive_ps_ni (f := sr_mulps_ni) (fun a v => .ps_ni _ a _ v) d)
  | FH_SR_ADDPS_COEFF_NI =>
    exact .inl (Fills.drive_ps_ni (f := sr_addps_coeff_ni) (fun a v => .ps_ni _ a _ v) d)
  | FH_SR_SUBPS_COEFF_NI =>
    exact .inl (Fills.drive_ps_ni (f := sr_subps_coeff_ni) (fun a v => .ps_ni _ a _ v) d)
  | FH_SR_NEGP_NI => exact .inl (Fills.drive_un (fun a => .unbound a _ _) d)
  | FH_SR_FT => exact .inl (Fills.drive_un (fun a => .unbound a _ _) d)
  | FH_SR_IFT => exact .inl (Fills.drive_un (fun a => .unbound a _ _) d)

/-- The file addresses that an instruction leaves in the map; none, if it is skipped. -/
def touched (table : List UInt64) (inst : Instruction) : List ℕ :=
  if (modulus_of table inst).isSome then opcode_touches inst else []

/-- The API rejects the root of a transform, behind the polynomial of its source. -/
structure Rejects (drv : Driver) (inst : Instruction) (d d' : Driven) : Prop where
  opcode : inst.opcode = .FH_SR_NTT ∨ inst.opcode = .FH_SR_INTT
  root : ∃ p q omega, drv.Sourced inst.src1.toNat d p d' ∧
    modulus_of d.stats.modulus_table inst = some q ∧ inst.omega = some omega ∧
    is_primitive_2n_root omega.toNat p.ring_dim q.toNat = false

theorem resolve_of_some {inst : Instruction} {d : Driven} {q : UInt64}
    (h : modulus_of d.stats.modulus_table inst = some q) : (resolve inst).on d = (.ok (some q), d) := by
  rw [resolve, on_get_bind, h]
  rfl

theorem resolve_of_none {inst : Instruction} {d : Driven}
    (h : modulus_of d.stats.modulus_table inst = none) :
    (resolve inst).on d = (.ok none, reported inst d) := by
  rw [resolve, on_get_bind, h]
  rfl

variable (drv) in
theorem drive_instruction_cases (inst : Instruction) (d : Driven) :
    FillsAt (drv.drive_instruction inst) (touched d.stats.modulus_table inst) d ∨
      ∃ text d', (drv.drive_instruction inst).on d = (.error text, d') ∧ drv.Rejects inst d d' := by
  rcases hq : modulus_of d.stats.modulus_table inst with - | q
  · left
    refine ⟨false, reported inst d, ?_, ?_⟩
    · rw [drive_instruction, on_bind_ok (resolve_of_none hq)]
      rfl
    · rw [touched, hq]
      exact .nil rfl rfl rfl
  · have hinst : (drv.drive_instruction inst).on d = (drv.drive_opcode inst q).on d := by
      rw [drive_instruction, on_bind_ok (resolve_of_some hq)]
    rw [touched, hq]
    rcases drive_opcode_cases drv inst q d with hopcode | hrejects
    · left
      obtain ⟨r, d₁, hon, hrest⟩ := hopcode
      exact ⟨r, d₁, hinst.trans hon, hrest⟩
    · right
      obtain ⟨text, p, d', omega, hon, hop, hsourced, homega, hroot⟩ := hrejects
      exact ⟨text, d', hinst.trans hon, hop, p, q, omega, hsourced, hq, homega, hroot⟩

variable (drv) in
/-- **What one turn of the loop can do**: it goes on, or it stops at a rejected root. -/
theorem drive_line_cases (inst : Instruction) (d : Driven) :
    FillsAt (drv.drive_line inst) (touched d.stats.modulus_table inst) d ∨
      ∃ text d', (drv.drive_line inst).on d =
          (.error (str "line " ++ decimal inst.line_number ++ str ": " ++ text), d') ∧
        drv.Rejects inst d d' := by
  rcases drive_instruction_cases drv inst d with ⟨r, d₁, hon, hfilled⟩ | hrejects
  · left
    refine ⟨(), counted r d₁, ?_, ?_, hfilled.keys, hfilled.kinds⟩
    · rw [drive_line, on_bind_ok (on_tryCatch_ok hon)]
      rfl
    · rw [← hfilled.table, counted]
      cases r
      · rfl
      · rfl
  · right
    obtain ⟨text, d', hon, hrejects⟩ := hrejects
    exact ⟨text, d', on_bind_error (on_tryCatch_error hon), hrejects⟩

/-! ## Runs of the loop -/

theorem on_drive_lines_cons_ok {inst : Instruction} {insts : List Instruction} {d d₁ : Driven}
    (h : (drv.drive_line inst).on d = (.ok (), d₁)) :
    (drv.drive_lines (inst :: insts)).on d = (drv.drive_lines insts).on d₁ :=
  on_bind_ok (f := fun _ => drv.drive_lines insts) h

theorem on_drive_lines_cons_error {inst : Instruction} {insts : List Instruction} {d d₁ : Driven}
    {text : Str} (h : (drv.drive_line inst).on d = (.error text, d₁)) :
    (drv.drive_lines (inst :: insts)).on d = (.error text, d₁) :=
  on_bind_error (f := fun _ => drv.drive_lines insts) h

/-- A run that goes through fills the map with what its instructions mention. -/
theorem drive_lines_fills {insts : List Instruction} : ∀ {d d' : Driven},
    (drv.drive_lines insts).on d = (.ok (), d') →
      Filled (insts.flatMap (touched d.stats.modulus_table)) d d' := by
  induction insts with
  | nil =>
    intro d d' h
    obtain rfl : d = d' := (Prod.mk.inj h).2
    exact .nil rfl rfl rfl
  | cons inst insts ih =>
    intro d d' h
    rcases drive_line_cases drv inst d with ⟨⟨⟩, d₁, hon, hfilled⟩ | ⟨text, d₁, hon, -⟩
    · rw [on_drive_lines_cons_ok hon] at h
      have hrest := ih h
      rw [hfilled.table] at hrest
      exact hfilled.trans hrest
    · rw [on_drive_lines_cons_error hon] at h
      exact absurd (Prod.mk.inj h).1 (by simp)

/-- A run that throws does so at one instruction, behind a run that goes through. -/
theorem drive_lines_error {insts : List Instruction} : ∀ {d d' : Driven} {text : Str},
    (drv.drive_lines insts).on d = (.error text, d') → ∃ before inst after dn,
      insts = before ++ inst :: after ∧ (drv.drive_lines before).on d = (.ok (), dn) ∧
      (drv.drive_line inst).on dn = (.error text, d') := by
  induction insts with
  | nil =>
    intro d d' text h
    exact absurd (Prod.mk.inj h).1 (by simp)
  | cons inst insts ih =>
    intro d d' text h
    rcases drive_line_cases drv inst d with ⟨⟨⟩, d₁, hon, -⟩ | ⟨text', d₁, hon, -⟩
    · rw [on_drive_lines_cons_ok hon] at h
      obtain ⟨before, inst', after, dn, rfl, hbefore, hinst⟩ := ih h
      refine ⟨inst :: before, inst', after, dn, rfl, ?_, hinst⟩
      rw [on_drive_lines_cons_ok hon, hbefore]
    · rw [on_drive_lines_cons_error hon] at h
      obtain ⟨htext, rfl⟩ := Prod.mk.inj h
      exact ⟨[], inst, insts, d, rfl, rfl, by rw [hon, htext]⟩

variable (drv) in
/-- Tagging the outputs does not throw. -/
theorem finalize_outputs_returns (d : Driven) : ∃ d', drv.finalize_outputs.on d = (.ok (), d') := by
  have hall : ∀ (f : ℕ × DriveTag → Throws Driven Unit), (∀ o d, ∃ d', (f o).on d = (.ok (), d')) →
      ∀ (l : List (ℕ × DriveTag)) (d : Driven), ∃ d', on (l.forM f) d = (.ok (), d') := by
    intro f hf l
    induction l with
    | nil => exact fun d => ⟨d, rfl⟩
    | cons o l ih =>
      intro d
      obtain ⟨d₁, h₁⟩ := hf o d
      obtain ⟨d₂, h₂⟩ := ih d₁
      exact ⟨d₂, (on_bind_ok (f := fun _ => l.forM f) h₁).trans h₂⟩
  refine hall _ ?_ _ d
  rintro ⟨file_addr, tag⟩ d
  rcases h : d.polys file_addr with - | p
  · refine ⟨d, ?_⟩
    rw [on_get_bind, h]
    rfl
  · apply Exists.intro
    rw [on_get_bind, h]
    rfl

/-- A drive throws what its loop throws. -/
theorem drive_program_error {read : ReadResult} {d d' : Driven} {text : Str}
    (h : (drv.drive_program read).on d = (.error text, d')) :
    (drv.drive_lines read.program.instructions).on (opened read d) = (.error text, d') := by
  unfold drive_program at h
  by_cases hok : read.ok = true
  · rw [if_pos hok, on_modify_bind] at h
    rcases hlines : (drv.drive_lines read.program.instructions).on (opened read d) with ⟨text' | ⟨⟨⟩⟩, d₁⟩
    · rw [on_bind_error hlines] at h
      obtain ⟨htext, rfl⟩ := Prod.mk.inj h
      rw [Except.error.inj htext]
    · obtain ⟨d₂, hfinal⟩ := finalize_outputs_returns drv d₁
      rw [on_bind_ok hlines, on_bind_ok hfinal] at h
      exact absurd (Prod.mk.inj h).1 (by simp)
  · rw [if_neg hok] at h
    exact absurd (Prod.mk.inj h).1 (by simp)

/-! ## What a rejected instruction leaves -/

/-- What a session records: instructions, moduli, inputs and outputs. -/
structure SameRecord (d d' : Driven) : Prop where
  instructions :
    d'.compiler.session.writer.instructions_ = d.compiler.session.writer.instructions_
  modulus_table :
    d'.compiler.session.writer.modulus_table_ = d.compiler.session.writer.modulus_table_
  captured_inputs : d'.compiler.captured_inputs = d.compiler.captured_inputs
  tagged_inputs : d'.compiler.session.input_registry = d.compiler.session.input_registry
  tagged_outputs : d'.compiler.session.probe_registry = d.compiler.session.probe_registry

/-- The name of the input for an address was captured with a kind that drops it. -/
def NameTaken (records : List (CapturedRecord CapturedElement)) (file_addr : ℕ) : Prop :=
  ∃ kind, kindOf records (in_name file_addr) = some kind ∧ kind ≠ .SRP

/-- **A source leaves the record alone** when its address has a polynomial, or when
its values are dropped. -/
theorem Sourced.sameRecord_iff {file_addr : ℕ} {d d' : Driven} {p : Polynomial}
    (h : drv.Sourced file_addr d p d') :
    SameRecord d d' ↔ (d.polys file_addr).isSome ∨
      (drv.given file_addr).isSome ∧ NameTaken d.compiler.captured_inputs file_addr := by
  cases h with
  | held h => exact ⟨fun _ => .inl (by rw [h]; rfl), fun _ => ⟨rfl, rfl, rfl, rfl, rfl⟩⟩
  | given h hgiven =>
    rw [h, hgiven]
    simp only [Option.isSome_none, Option.isSome_some, Bool.false_eq_true, false_or, true_and]
    rename_i e
    have hcaptured : ((emplace file_addr (drv.made e.values d)
          (drv.materialize file_addr e (drv.made e.values d) d.taken)).compiler.captured_inputs =
        d.compiler.captured_inputs) ↔ NameTaken d.compiler.captured_inputs file_addr :=
      store_element_eq_iff
    exact ⟨fun h => hcaptured.mp h.captured_inputs, fun h => ⟨rfl, rfl, hcaptured.mpr h, rfl, rfl⟩⟩
  | tagged h hgiven =>
    rw [h, hgiven]
    simp only [Option.isSome_none, Bool.false_eq_true, false_and, or_self, iff_false]
    intro hsame
    have hlength := congrArg List.length hsame.tagged_inputs
    simp [emplace, Driven.tagged, Driven.taken] at hlength

/-- **A rejected instruction records nothing** when an earlier instruction left its source
address in the map, or when the caller's values for it are dropped, their name having
been captured with another kind before. -/
theorem rejected_instruction_iff (drv : Driver) {read : ReadResult} {d d' : Driven} {text : Str}
    (h : (drv.drive_program read).on d = (.error text, d')) :
    ∃ before inst after dn, read.program.instructions = before ++ inst :: after ∧
      (drv.drive_lines before).on (opened read d) = (.ok (), dn) ∧ drv.Rejects inst dn d' ∧
      (∃ reason, text = str "line " ++ decimal inst.line_number ++ str ": " ++ reason) ∧
      (SameRecord dn d' ↔
        (∃ earlier ∈ before, inst.src1.toNat ∈ touched read.program.modulus_table earlier) ∨
          (drv.given inst.src1.toNat).isSome ∧ NameTaken d.compiler.captured_inputs inst.src1.toNat) := by
  obtain ⟨before, inst, after, dn, hprogram, hbefore, hinst⟩ :=
    drive_lines_error (drive_program_error h)
  have hfilled := drive_lines_fills hbefore
  rcases drive_line_cases drv inst dn with ⟨⟨⟩, d₁, hon, -⟩ | ⟨reason, d₁, hon, hrejects⟩
  · rw [hon] at hinst
    exact absurd (Prod.mk.inj hinst).1 (by simp)
  rw [hon] at hinst
  obtain ⟨htext, rfl⟩ := Prod.mk.inj hinst
  refine ⟨before, inst, after, dn, hprogram, hbefore, hrejects, ⟨reason, (Except.error.inj htext).symm⟩, ?_⟩
  obtain ⟨p, q, omega, hsourced, -⟩ := hrejects.root
  have hkeys : (dn.polys inst.src1.toNat).isSome ↔
      ∃ earlier ∈ before, inst.src1.toNat ∈ touched read.program.modulus_table earlier := by
    rw [hfilled.keys, List.mem_flatMap]
    exact or_iff_left (by simp [opened])
  rw [hsourced.sameRecord_iff, hkeys]
  by_cases hknown : ∃ earlier ∈ before, inst.src1.toNat ∈ touched read.program.modulus_table earlier
  · exact ⟨fun _ => .inl hknown, fun _ => .inl hknown⟩
  · have hkind := hfilled.kinds inst.src1.toNat fun hmem => hknown (List.mem_flatMap.mp hmem)
    rw [NameTaken, hkind]
    exact Iff.rfl

/-- A transform modulo 17, of which 5 is no root for the dimension 2: its square is 8. -/
def badTransform : Instruction :=
  { opcode := .FH_SR_NTT, dest := 1, modulus := some 1, omega := some 5, line_number := 3 }

def badRoot : ReadResult where
  ok := true
  program := { modulus_table := [COPY_MODULUS_VALUE, 17], instructions := [badTransform] }

/-- Driving it, for the dimension 2 and without inputs. -/
def badRootDrive : Except Str Bool × Driven :=
  (({ ring_dim := 2 } : Driver).drive_program badRoot).on { compiler := {} }

theorem rejected_instruction_iff_badRoot :
    ∃ text d', badRootDrive = (.error text, d') ∧
      ∃ before inst after dn, badRoot.program.instructions = before ++ inst :: after ∧
        (({ ring_dim := 2 } : Driver).drive_lines before).on (opened badRoot { compiler := {} }) =
          (.ok (), dn) ∧ ({ ring_dim := 2 } : Driver).Rejects inst dn d' ∧
        (∃ reason, text = str "line " ++ decimal inst.line_number ++ str ": " ++ reason) ∧
        (SameRecord dn d' ↔
          (∃ earlier ∈ before, inst.src1.toNat ∈ touched badRoot.program.modulus_table earlier) ∨
            (({ ring_dim := 2 } : Driver).given inst.src1.toNat).isSome ∧
              NameTaken ({} : Compiler).captured_inputs inst.src1.toNat) :=
  ⟨_, _, rfl, rejected_instruction_iff { ring_dim := 2 } rfl⟩

/-- The transform is rejected, and the placeholder for its source is an input from then on;
before it, there is none. -/
theorem rejected_transform_tags_its_source :
    (∃ text, badRootDrive.1 = .error text) ∧
      ¬ SameRecord (opened badRoot { compiler := {} }) badRootDrive.2 := by
  refine ⟨⟨_, rfl⟩, fun h => ?_⟩
  have hlength := congrArg List.length h.tagged_inputs
  have hone : badRootDrive.2.compiler.session.input_registry.length = 1 := rfl
  exact absurd (hone.symm.trans hlength) (by decide)

end Driver

end Fhetch
