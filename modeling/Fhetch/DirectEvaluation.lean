/-
What the calls of a session say.

A session of the recording API makes polynomials from data, tags them, starts, and
calls for sums, differences, products and negations, which the header defines
coefficient by coefficient. This module evaluates the calls so, next to the library,
and relates the two while a recording runs: the instructions recorded so far compute
what the calls say, from any memory that holds the inputs they read.

`start()` rolls the counter of addresses back to 0 and empties the registry of inputs,
and the program keeps the polynomials it made before. So it is asked of each call that
it makes no polynomial at the address of an older one, and that it reads no input whose
tag is gone.
-/
import Fhetch.HostPrograms
import Fhetch.RecordedCode
import Fhetch.WordArithmetic

set_option autoImplicit false

namespace Fhetch

open Lib

/-! ## The calls -/

/-- A coefficient of a result, as the header defines it. -/
def PolyPoly.says (f : PolyPoly) (q x y : ℕ) : ℕ :=
  match f with
  | sr_addp => (x + y) % q
  | sr_subp => (((x : ℤ) - y) % q).toNat
  | sr_mulp => x * y % q

/-- The calls that do the same to every coefficient. -/
inductive Pointwise where
  | sr_addps
  | sr_subps
  | sr_mulps

def Pointwise.toPolyScalar : Pointwise → PolyScalar
  | sr_addps => .sr_addps
  | sr_subps => .sr_subps
  | sr_mulps => .sr_mulps

def Pointwise.says (f : Pointwise) (q x imm : ℕ) : ℕ :=
  match f with
  | sr_addps => (x + imm) % q
  | sr_subps => (((x : ℤ) - imm) % q).toNat
  | sr_mulps => x * imm % q

/-- The opcodes behind the calls. -/
def PolyPoly.opcode : PolyPoly → FhOpcode
  | sr_addp => .FH_SR_ADDP
  | sr_subp => .FH_SR_SUBP
  | sr_mulp => .FH_SR_MULP

def Pointwise.opcode : Pointwise → FhOpcode
  | sr_addps => .FH_SR_ADDPS
  | sr_subps => .FH_SR_SUBPS
  | sr_mulps => .FH_SR_MULPS

theorem PolyPoly.form (f : PolyPoly) : fh_operand_form f.opcode = .PolyPoly := by
  cases f with
  | sr_addp | sr_subp | sr_mulp => rfl

theorem Pointwise.form (f : Pointwise) : fh_operand_form f.opcode = .PolyScalar := by
  cases f with
  | sr_addps | sr_subps | sr_mulps => rfl

theorem PolyPoly.call_eq (f : PolyPoly) : f.call = sr_pp f.opcode := by
  cases f with
  | sr_addp | sr_subp | sr_mulp => rfl

theorem Pointwise.call_eq (f : Pointwise) : f.toPolyScalar.call = sr_ps f.opcode := by
  cases f with
  | sr_addps | sr_subps | sr_mulps => rfl

/-- The simulator computes what the header says. -/
theorem PolyPoly.value_eq (f : PolyPoly) {q : ℕ} (hq : 0 < q) (x y : ℕ) :
    ppValue f.opcode q x y = f.says q x y := by
  cases f with
  | sr_addp => rfl
  | sr_subp => exact sub_mod_toNat hq x y
  | sr_mulp => rfl

/-- And here too, except that adding 0 does not reduce. -/
theorem Pointwise.value_eq (f : Pointwise) {q : ℕ} (hq : 0 < q) {x imm : ℕ}
    (hadd : f = sr_addps → imm = 0 → x < q) : psValue f.opcode q x imm = f.says q x imm := by
  cases f with
  | sr_addps =>
    by_cases himm : imm = 0
    · exact psValue_addps (hadd rfl himm)
    · exact if_neg himm
  | sr_subps => exact sub_mod_toNat hq x imm
  | sr_mulps => rfl

/-- Negating subtracts from the modulus, which only what does not exceed it can be. -/
theorem negValue_eq {q x : ℕ} (hx : x ≤ q) (hq : q < 2 ^ 64) :
    negValue q x = (-(x : ℤ) % q).toNat := by
  unfold negValue sub64
  by_cases hzero : x = 0
  · rw [if_pos hzero, hzero]
    simp
  · rw [if_neg hzero]
    rcases Nat.eq_or_lt_of_le hx with rfl | hlt
    · have hself : -(x : ℤ) % x = 0 := Int.emod_eq_zero_of_dvd (dvd_neg.mpr (dvd_refl _))
      rw [hself, show x + (2 ^ 64 - x) = 2 ^ 64 by omega, Nat.mod_self]
      rfl
    · have hmod : -(x : ℤ) % q = (q - x : ℕ) := by
        rw [← Int.add_emod_right, Nat.cast_sub hx, show -(x : ℤ) + q = q - x by omega,
          Int.emod_eq_of_lt (by omega) (by omega)]
      rw [hmod, Int.toNat_natCast, show q + (2 ^ 64 - x) = (q - x) + 2 ^ 64 by omega,
        Nat.add_mod_right, Nat.mod_eq_of_lt (by omega)]

/-- What a session calls. Polynomials and scalars are named by their places. -/
inductive SessionCall where
  | from_data (components : List UInt64) (fmt : Format)
  | from_int (value : UInt64)
  | tag_input (name : Str) (i : ℕ)
  | tag_output (name : Str) (i : ℕ)
  | pp (f : PolyPoly) (a b : ℕ) (q : UInt64)
  | ps (f : Pointwise) (a s : ℕ) (q : UInt64)
  | sr_negp (a : ℕ) (q : UInt64)

namespace SessionCall

/-- The call of the API, at a ring dimension. -/
def toApi (N : ℕ) : SessionCall → ApiCall
  | from_data components fmt => .from_data components N fmt
  | from_int value => .from_int value
  | tag_input name i => .tag_input name (.poly i)
  | tag_output name i => .tag_output name (.poly i)
  | pp f a b q => .pp f a b q
  | ps f a s q => .ps f.toPolyScalar a s q
  | sr_negp a q => .un .sr_negp a q

/-- The polynomials that a call computes with. -/
def operands : SessionCall → List ℕ
  | pp _ a b _ => [a, b]
  | ps _ a _ _ => [a]
  | sr_negp a _ => [a]
  | _ => []

/-- Data for `N` coefficients, and moduli that are some. -/
def WellFormed (N : ℕ) : SessionCall → Prop
  | from_data components _ => components.length ≤ N
  | pp _ _ _ q => q ≠ 0
  | ps _ _ _ q => q ≠ 0
  | sr_negp _ q => q ≠ 0
  | _ => True

/-- What may be called before a recording: making inputs and tagging them. -/
def Prepares : SessionCall → Prop
  | from_data _ _ | from_int _ | tag_input _ _ => True
  | _ => False

end SessionCall

/-! ## The evaluation -/

/-- A polynomial as the calls define it: its coefficients, and whether it is a result. -/
structure Made (N : ℕ) where
  value : Fin N → ℕ
  computed : Bool

/-- What a call makes of what was made before. -/
def SessionCall.makes {N : ℕ} (made : List (Made N)) (scalars : List HeldScalar) :
    SessionCall → Option (Made N)
  | from_data components _ => some ⟨fun j => (components.getD j 0).toNat, false⟩
  | pp f a b q => made[a]?.bind fun x => made[b]?.map fun y =>
    ⟨fun j => f.says q.toNat (x.value j) (y.value j), true⟩
  | ps f a s q => made[a]?.bind fun x => scalars[s]?.map fun c =>
    ⟨fun j => f.says q.toNat (x.value j) c.1.int_value.toNat, true⟩
  | sr_negp a q => made[a]?.map fun x => ⟨fun j => (-(x.value j : ℤ) % q.toNat).toNat, true⟩
  | _ => none

/-- The process, next to the evaluation of its calls. -/
structure Evaluated (N : ℕ) where
  host : Host := {}
  made : List (Made N) := []

namespace Evaluated

variable {N : ℕ}

def step (s : Evaluated N) (c : SessionCall) : Evaluated N where
  host := s.host.api (c.toApi N)
  made := s.made ++ (c.makes s.made s.host.scalars).toList

def start (s : Evaluated N) : Evaluated N := { s with host := s.host.start }

/-- The polynomials the program holds, each with what the calls make it. -/
def held (s : Evaluated N) : List (Polynomial × Made N) := s.host.polys.zip s.made

/-- What a recorded call must find: an address that no polynomial from before the
recording has, if it makes one; operands that are results or tagged; and coefficients
that are reduced where zero is added to them, or that the modulus is subtracted from.
An output is a result. -/
structure Clean (early : List Polynomial) (tagged : ℕ → Prop) (s : Evaluated N) (c : SessionCall) :
    Prop where
  formed : c.WellFormed N
  apart : (c.makes s.made s.host.scalars).isSome →
    ∀ p ∈ early, p.address ≠ s.host.compiler.session.next_address_
  operands : ∀ i ∈ c.operands, ∀ p x, s.host.polys[i]? = some p → s.made[i]? = some x →
    x.computed = true ∨ tagged p.address
  addition : ∀ a i q x c', c = .ps .sr_addps a i q → s.made[a]? = some x →
    s.host.scalars[i]? = some c' → c'.1.int_value = 0 → ∀ j, x.value j < q.toNat
  negation : ∀ a q x, c = .sr_negp a q → s.made[a]? = some x → ∀ j, x.value j ≤ q.toNat
  output : ∀ name i x, c = .tag_output name i → s.made[i]? = some x → x.computed = true

end Evaluated

/-! ## What a call does to the session -/

/-- A call that records one operation: it takes an address for the result and knows the
moduli of what it reads from then on. -/
structure Session.Called (s s' : Session) (op : ApiOp) : Prop where
  next : s'.next_address_ = s.next_address_ + 1
  writer : s'.writer = op.record s.writer
  inputs : s'.input_registry = s.input_registry
  probes : s'.probe_registry = s.probe_registry
  known : ∀ a, (s.address_modulus_map a).isSome ∨ a ∈ op.reads → (s'.address_modulus_map a).isSome

/-- A result of the dimension of an operand, at the next address. -/
structure Session.GivesResult (s : Session) (a r : Polynomial) : Prop where
  address : r.address = s.next_address_
  ring_dim : r.ring_dim = a.ring_dim
  int_data : r.int_data = []

/-- Several moduli, remembered one after another. -/
def Session.remember_moduli (s : Session) (as : List ℕ) (q : UInt64) : Session :=
  as.foldl (fun s a => s.remember_modulus a q) s

theorem Session.remember_moduli_frame (as : List ℕ) (q : UInt64) :
    ∀ s : Session, s.remember_moduli as q =
      { s with address_modulus_map := (s.remember_moduli as q).address_modulus_map } := by
  induction as with
  | nil => exact fun s => rfl
  | cons a as ih =>
    intro s
    show (s.remember_modulus a q).remember_moduli as q = { s with
      address_modulus_map := ((s.remember_modulus a q).remember_moduli as q).address_modulus_map }
    rw [ih, Session.remember_modulus_frame]

theorem Session.remember_moduli_isSome (as : List ℕ) (q : UInt64) (b : ℕ) :
    ∀ s : Session, ((s.remember_moduli as q).address_modulus_map b).isSome ↔
      b ∈ as ∨ (s.address_modulus_map b).isSome := by
  induction as with
  | nil => exact fun s => by simp [Session.remember_moduli]
  | cons a as ih =>
    intro s
    show (((s.remember_modulus a q).remember_moduli as q).address_modulus_map b).isSome ↔ _
    rw [ih, Session.remember_modulus_isSome, List.mem_cons]
    tauto

/-- The session in which a call records: its result has an address, and the moduli are
remembered. -/
def Session.prepared (s : Session) (as : List ℕ) (q : UInt64) : Session :=
  ({ s with next_address_ := s.next_address_ + 1 } : Session).remember_moduli as q

/-- What the three kinds of calls have in common. -/
theorem Session.called (s : Session) (op : ApiOp) (as : List ℕ) (q : UInt64)
    (hreads : ∀ a ∈ op.reads, a ∈ as) :
    s.Called { s.prepared as q with writer := op.record (s.prepared as q).writer } op := by
  have hframe := Session.remember_moduli_frame as q { s with next_address_ := s.next_address_ + 1 }
  refine ⟨?_, ?_, ?_, ?_, fun x hx => ?_⟩
  · rw [Session.prepared, hframe]
  · rw [Session.prepared, hframe]
  · rw [Session.prepared, hframe]
  · rw [Session.prepared, hframe]
  · apply (Session.remember_moduli_isSome as q x _).mpr
    rcases hx with hx | hx
    · exact .inr hx
    · exact .inl (hreads x hx)

section Calls

variable (s : Session) (a b : Polynomial) (q : UInt64)

theorem make_result_gives (fmt : Format) : ∃ r : Polynomial,
    make_result a fmt s = some (r, { s with next_address_ := s.next_address_ + 1 }) ∧
      s.GivesResult a r := by
  unfold make_result
  rcases a.ntype with - | -
  · exact ⟨_, rfl, rfl, rfl, rfl⟩
  · exact ⟨_, rfl, rfl, rfl, rfl⟩

theorem called_pp (op : FhOpcode) (form : fh_operand_form op = .PolyPoly) :
    ∃ r s', sr_pp op a b q s = some (r, s') ∧ s.GivesResult a r ∧
      s.Called s' (.pp op form r.address a.address b.address q) := by
  obtain ⟨r, hmake, hr⟩ := make_result_gives s a a.fmt
  refine ⟨r, _, ?_, hr, s.called _ [a.address, b.address, r.address] q ?_⟩
  · show (make_result a a.fmt s).bind _ = _
    rw [hmake]
    rfl
  · intro x hx
    rcases List.mem_pair.mp hx with rfl | rfl
    · exact List.mem_cons_self
    · exact List.mem_cons_of_mem _ List.mem_cons_self

theorem called_ps (c : Scalar) (op : FhOpcode) (form : fh_operand_form op = .PolyScalar) :
    ∃ r s', sr_ps op a c q s = some (r, s') ∧ s.GivesResult a r ∧
      s.Called s' (.ps op form r.address a.address c.int_value q) := by
  obtain ⟨r, hmake, hr⟩ := make_result_gives s a a.fmt
  refine ⟨r, _, ?_, hr, s.called _ [a.address, r.address] q ?_⟩
  · show (make_result a a.fmt s).bind _ = _
    rw [hmake]
    rfl
  · intro x hx
    rw [List.mem_singleton.mp hx]
    exact List.mem_cons_self

theorem called_negp : ∃ r s', Fhetch.sr_negp a q s = some (r, s') ∧ s.GivesResult a r ∧
    s.Called s' (.un .FH_SR_NEGP rfl r.address a.address q) := by
  obtain ⟨r, hmake, hr⟩ := make_result_gives s a a.fmt
  refine ⟨r, _, ?_, hr, s.called _ [a.address, r.address] q ?_⟩
  · show (make_result a a.fmt s).bind _ = _
    rw [hmake]
    rfl
  · intro x hx
    rw [List.mem_singleton.mp hx]
    exact List.mem_cons_self

end Calls

/-- A call that returns. -/
theorem Host.api_of_given {h : Host} {c : ApiCall} {call : Api Handed} {given : Handed}
    {session : Session} (hcall : c.call h.polys h.scalars = some call)
    (hrun : call h.compiler.session = some (given, session)) :
    h.api c = { h with
      compiler := { h.compiler with session := session }
      polys := h.polys ++ given.polys
      scalars := h.scalars ++ given.scalars } := by
  unfold Host.api
  rw [hcall]
  dsimp only
  rw [hrun]

theorem gives_poly_run {call : Api Polynomial} {s session : Session} {r : Polynomial}
    (hrun : call s = some (r, session)) : gives_poly call s = some ({ polys := [r] }, session) := by
  show (call s).bind _ = _
  rw [hrun]
  rfl

/-- A call that names what the program does not hold. -/
theorem Host.api_of_none {h : Host} {c : ApiCall} (hcall : c.call h.polys h.scalars = none) :
    h.api c = h := by
  unfold Host.api
  rw [hcall]

/-! ## What a call does to the evaluation -/

/-- A change of the session that records nothing: tags, comments and addresses for
scalars. -/
structure Session.Quiet {N : ℕ} (s s' : Session) (held : List (Polynomial × Made N)) : Prop where
  next : s.next_address_ ≤ s'.next_address_
  moduli : s'.address_modulus_map = s.address_modulus_map
  writer : ∃ notes, s'.writer = { s.writer with annotations_ := notes }
  inputs : ∀ e ∈ s'.input_registry, e ∈ s.input_registry ∨ ∃ px ∈ held, e.tagged = .POLY px.1
  probes : ∀ e ∈ s'.probe_registry,
    e ∈ s.probe_registry ∨ ∃ px ∈ held, px.2.computed = true ∧ e.tagged = .POLY px.1

/-- A polynomial that holds its own data. -/
structure Polynomial.HoldsData {N : ℕ} (p : Polynomial) (x : Made N) : Prop where
  ring_dim : p.ring_dim = N
  length : p.int_data.length ≤ N
  value : x.computed = false → ∀ j : Fin N, x.value j = (p.int_data.getD j 0).toNat

/-- What an operation reads, and what it makes of it. -/
structure ApiOp.Says {N : ℕ} (op : ApiOp) (held : List (Polynomial × Made N)) (tagged : ℕ → Prop)
    (r : Polynomial) (x : Made N) : Prop where
  arithmetic : op.Arithmetic
  dest : op.dest = r.address
  reads : ∀ a ∈ op.reads, ∃ px ∈ held, px.1.address = a ∧ (px.2.computed = true ∨ tagged a)
  value : ∀ (j : Fin N) m, (∀ px ∈ held, px.1.address ∈ op.reads → m px.1.address = px.2.value j) →
    op.value m = x.value j

namespace Evaluated

variable {N : ℕ}

/-- **What a call can do.** -/
inductive Effect (tagged : ℕ → Prop) (s : Evaluated N) : Evaluated N → Prop
  | quiet (session : Session) (scalars : List HeldScalar)
      (h : s.host.compiler.session.Quiet session s.held) :
    Effect tagged s ⟨{ s.host with
      compiler := { s.host.compiler with session := session }, scalars := scalars }, s.made⟩
  | input (p : Polynomial) (x : Made N) (hp : p.HoldsData x) (hx : x.computed = false)
      (haddress : p.address = s.host.compiler.session.next_address_) :
    Effect tagged s ⟨{ s.host with
      compiler := { s.host.compiler with session := { s.host.compiler.session with
        next_address_ := s.host.compiler.session.next_address_ + 1 } }
      polys := s.host.polys ++ [p] }, s.made ++ [x]⟩
  | computed (session : Session) (op : ApiOp) (r : Polynomial) (x : Made N)
      (hr : r.HoldsData x) (hx : x.computed = true)
      (haddress : r.address = s.host.compiler.session.next_address_)
      (hcalled : s.host.compiler.session.Called session op) (hop : op.Says s.held tagged r x) :
    Effect tagged s ⟨{ s.host with
      compiler := { s.host.compiler with session := session }
      polys := s.host.polys ++ [r] }, s.made ++ [x]⟩

/-- What the program holds, of which `early` is from before the recording. -/
structure Holding (early : List Polynomial) (s : Evaluated N) : Prop where
  length : s.host.polys.length = s.made.length
  below : ∀ p ∈ s.host.polys, p ∈ early ∨ p.address < s.host.compiler.session.next_address_
  apart : (s.host.polys.map Polynomial.address).Nodup
  data : ∀ px ∈ s.held, px.1.HoldsData px.2

/-- **What a recording has come to**, by the operations recorded so far. In the end the
addresses `tagged` are those of inputs. -/
structure Recorded (early : List Polynomial) (tagged : ℕ → Prop) (s : Evaluated N) (ops : List ApiOp) :
    Prop extends Holding early s where
  consistent : s.host.compiler.session.writer.Consistent
  keeps : s.host.compiler.session.writer.keeps = true
  inputs : ∀ e ∈ s.host.compiler.session.input_registry, ∃ px ∈ s.held, e.tagged = .POLY px.1
  probes : ∀ e ∈ s.host.compiler.session.probe_registry,
    ∃ px ∈ s.held, px.2.computed = true ∧ e.tagged = .POLY px.1
  arithmetic : ∀ op ∈ ops, op.Arithmetic
  dests : ∀ op ∈ ops, ∃ px ∈ s.held, px.2.computed = true ∧ px.1.address = op.dest
  reads : ∀ op ∈ ops, ∀ a ∈ op.reads, (s.host.compiler.session.address_modulus_map a).isSome ∧
    ∃ px ∈ s.held, px.1.address = a ∧ (px.2.computed = true ∨ tagged a)
  written : ∀ px ∈ s.held, px.2.computed = true → px.1.address ∈ ops.map ApiOp.dest
  instructions : s.host.compiler.session.writer.modulus_table_.length ≤ 2 ^ 32 →
    List.Forall₂ (ApiOp.RecordedAs s.host.compiler.session.writer.modulus_table_) ops
      s.host.compiler.session.writer.instructions_
  means : ∀ (j : Fin N) m, (∀ px ∈ s.held, px.2.computed = false →
      px.1.address ∈ ops.flatMap ApiOp.reads → m px.1.address = px.2.value j) →
    ∀ px ∈ s.held, px.2.computed = true → ApiOp.code.eval m ops px.1.address = px.2.value j

variable {early : List Polynomial} {tagged : ℕ → Prop} {s s' : Evaluated N} {ops : List ApiOp}

theorem mem_held {p : Polynomial} {x : Made N} :
    (p, x) ∈ s.held ↔ ∃ i : ℕ, s.host.polys[i]? = some p ∧ s.made[i]? = some x := by
  rw [held, List.mem_iff_getElem?]
  exact exists_congr fun i => List.getElem?_zip_eq_some

theorem Holding.mem_polys (h : s.Holding early) {p : Polynomial} :
    p ∈ s.host.polys ↔ ∃ x, (p, x) ∈ s.held := by
  constructor
  · intro hp
    obtain ⟨i, hi⟩ := List.mem_iff_getElem?.mp hp
    have hlt := (List.getElem?_eq_some_iff.mp hi).1
    exact ⟨s.made.get ⟨i, h.length ▸ hlt⟩, mem_held.mpr ⟨i, hi, List.getElem?_eq_getElem _⟩⟩
  · rintro ⟨x, hpx⟩
    obtain ⟨i, hi, -⟩ := mem_held.mp hpx
    exact List.mem_of_getElem? hi

/-- An address is one polynomial's. -/
theorem Holding.unique (h : s.Holding early) {px px' : Polynomial × Made N}
    (hpx : px ∈ s.held) (hpx' : px' ∈ s.held) (haddress : px.1.address = px'.1.address) : px = px' := by
  obtain ⟨i, hp, hx⟩ := mem_held.mp hpx
  obtain ⟨i', hp', hx'⟩ := mem_held.mp hpx'
  have hi : (s.host.polys.map Polynomial.address)[i]? = some px.1.address := by
    rw [List.getElem?_map, hp, Option.map_some]
  have hi' : (s.host.polys.map Polynomial.address)[i']? = some px.1.address := by
    rw [List.getElem?_map, hp', Option.map_some, haddress]
  have hlt := (List.getElem?_eq_some_iff.mp hi).1
  obtain rfl : i = i' := (List.getElem?_inj hlt h.apart).mp (hi.trans hi'.symm)
  rw [hp] at hp'
  rw [hx] at hx'
  exact Prod.ext (Option.some.inj hp') (Option.some.inj hx')

/-- A polynomial is added, at the next address. -/
theorem Holding.fresh (h : s.Holding early)
    (hearly : ∀ p ∈ early, p.address ≠ s.host.compiler.session.next_address_) :
    ∀ px ∈ s.held, px.1.address ≠ s.host.compiler.session.next_address_ := by
  rintro ⟨p, x⟩ hpx
  rcases h.below p (h.mem_polys.mpr ⟨x, hpx⟩) with hp | hp
  · exact hearly p hp
  · exact hp.ne

theorem held_append {host : Host} {p : Polynomial} {x : Made N}
    (hlength : s.host.polys.length = s.made.length) (hpolys : host.polys = s.host.polys ++ [p]) :
    (⟨host, s.made ++ [x]⟩ : Evaluated N).held = s.held ++ [(p, x)] := by
  show host.polys.zip (s.made ++ [x]) = _
  rw [hpolys, List.zip_append hlength]
  rfl

theorem Holding.quiet (h : s.Holding early) {session : Session} (scalars : List HeldScalar)
    (hnext : s.host.compiler.session.next_address_ ≤ session.next_address_) :
    Holding early ⟨{ s.host with
      compiler := { s.host.compiler with session := session }, scalars := scalars }, s.made⟩ := by
  refine ⟨h.length, fun p hp => ?_, h.apart, h.data⟩
  exact (h.below p hp).imp_right fun hlt => hlt.trans_le hnext

/-- One polynomial more, at the next address. -/
theorem Holding.more (h : s.Holding early) {p : Polynomial} {x : Made N} (hp : p.HoldsData x)
    (haddress : p.address = s.host.compiler.session.next_address_)
    (hearly : ∀ p ∈ early, p.address ≠ s.host.compiler.session.next_address_) {session : Session}
    (hnext : session.next_address_ = s.host.compiler.session.next_address_ + 1) :
    Holding early ⟨{ s.host with
      compiler := { s.host.compiler with session := session }
      polys := s.host.polys ++ [p] }, s.made ++ [x]⟩ := by
  refine ⟨?_, fun p' hp' => ?_, ?_, ?_⟩
  · rw [List.length_append, List.length_append, h.length]
    rfl
  -- the new address is the next one, above all that are held
  · show p' ∈ early ∨ p'.address < session.next_address_
    rw [hnext]
    rcases List.mem_append.mp hp' with hp' | hp'
    · exact (h.below p' hp').imp_right fun hlt => Nat.lt_succ_of_lt hlt
    · rw [List.mem_singleton.mp hp', haddress]
      exact .inr (Nat.lt_succ_self _)
  · rw [List.map_append, List.nodup_append]
    refine ⟨h.apart, List.nodup_singleton _, ?_⟩
    intro a ha b hb
    obtain ⟨p', hp', rfl⟩ := List.mem_map.mp ha
    obtain ⟨x', hpx'⟩ := h.mem_polys.mp hp'
    rw [List.mem_singleton.mp hb, haddress]
    exact h.fresh hearly _ hpx'
  · rw [held_append h.length rfl]
    exact List.forall_mem_append.mpr ⟨h.data, List.forall_mem_singleton.mpr hp⟩

/-- Nothing is recorded. -/
theorem Recorded.quiet (h : s.Recorded early tagged ops) {session : Session}
    (scalars : List HeldScalar) (hquiet : s.host.compiler.session.Quiet session s.held) :
    Recorded early tagged ⟨{ s.host with
      compiler := { s.host.compiler with session := session }, scalars := scalars }, s.made⟩ ops := by
  obtain ⟨notes, hwriter⟩ := hquiet.writer
  refine ⟨h.toHolding.quiet scalars hquiet.next, ?_, ?_, ?_, ?_, h.arithmetic, h.dests, ?_, h.written,
    ?_, h.means⟩
  · show session.writer.Consistent
    rw [hwriter]
    exact ⟨h.consistent.head, h.consistent.nodup, h.consistent.lookup⟩
  · show session.writer.keeps = true
    rw [hwriter]
    exact h.keeps
  -- what is new among the tags was tagged just now
  · intro e he
    exact (hquiet.inputs e he).elim (h.inputs e) id
  · intro e he
    exact (hquiet.probes e he).elim (h.probes e) id
  · intro op hop a ha
    show (session.address_modulus_map a).isSome ∧ _
    rw [hquiet.moduli]
    exact h.reads op hop a ha
  · show session.writer.modulus_table_.length ≤ 2 ^ 32 →
      List.Forall₂ (ApiOp.RecordedAs session.writer.modulus_table_) ops session.writer.instructions_
    rw [hwriter]
    exact h.instructions

/-- No operation writes an input. -/
theorem Recorded.dest_ne (h : s.Recorded early tagged ops) {px : Polynomial × Made N}
    (hpx : px ∈ s.held) (hinput : px.2.computed = false) {op : ApiOp} (hop : op ∈ ops) :
    op.dest ≠ px.1.address := by
  intro hdest
  obtain ⟨px', hpx', hcomputed, haddress⟩ := h.dests op hop
  rw [h.unique hpx' hpx (haddress.trans hdest), hinput] at hcomputed
  exact Bool.false_ne_true hcomputed

/-- An input is made. -/
theorem Recorded.input (h : s.Recorded early tagged ops) {p : Polynomial} {x : Made N}
    (hp : p.HoldsData x) (hx : x.computed = false)
    (haddress : p.address = s.host.compiler.session.next_address_)
    (hearly : ∀ p ∈ early, p.address ≠ s.host.compiler.session.next_address_) :
    Recorded early tagged ⟨{ s.host with
      compiler := { s.host.compiler with session := { s.host.compiler.session with
        next_address_ := s.host.compiler.session.next_address_ + 1 } }
      polys := s.host.polys ++ [p] }, s.made ++ [x]⟩ ops := by
  have hsub : ∀ px ∈ s.held, px ∈ s.held ++ [(p, x)] := fun px hpx => List.mem_append_left _ hpx
  have hold : ∀ {P : Polynomial × Made N → Prop}, (∃ px ∈ s.held, P px) → ∃ px ∈ s.held ++ [(p, x)], P px :=
    fun ⟨px, hpx, hP⟩ => ⟨px, hsub px hpx, hP⟩
  -- the new polynomial is an input, so the computed ones are the old ones
  have hnew : ∀ px ∈ s.held ++ [(p, x)], px.2.computed = true → px ∈ s.held := by
    intro px hpx hcomputed
    rcases List.mem_append.mp hpx with hpx | hpx
    · exact hpx
    · rw [List.mem_singleton.mp hpx, hx] at hcomputed
      exact absurd hcomputed Bool.false_ne_true
  refine ⟨h.toHolding.more hp haddress hearly rfl, h.consistent, h.keeps, ?_, ?_, h.arithmetic, ?_,
    ?_, ?_, h.instructions, ?_⟩ <;> rw [held_append h.length rfl]
  · exact fun e he => hold (h.inputs e he)
  · exact fun e he => hold (h.probes e he)
  · exact fun op hop => hold (h.dests op hop)
  · exact fun op hop a ha => ⟨(h.reads op hop a ha).1, hold (h.reads op hop a ha).2⟩
  · exact fun px hpx hcomputed => h.written px (hnew px hpx hcomputed) hcomputed
  · intro j m hm px hpx hcomputed
    exact h.means j m (fun px hpx => hm px (hsub px hpx)) px (hnew px hpx hcomputed) hcomputed

/-- A result is made, and the operation that makes it recorded. -/
theorem Recorded.computed (h : s.Recorded early tagged ops) {session : Session} {op : ApiOp}
    {r : Polynomial} {x : Made N} (hr : r.HoldsData x) (hx : x.computed = true)
    (haddress : r.address = s.host.compiler.session.next_address_)
    (hcalled : s.host.compiler.session.Called session op) (hop : op.Says s.held tagged r x)
    (hearly : ∀ p ∈ early, p.address ≠ s.host.compiler.session.next_address_) :
    Recorded early tagged ⟨{ s.host with
      compiler := { s.host.compiler with session := session }
      polys := s.host.polys ++ [r] }, s.made ++ [x]⟩ (ops ++ [op]) := by
  have hfresh := h.fresh hearly
  have hlast : (r, x) ∈ s.held ++ [(r, x)] := List.mem_append_right _ (List.mem_singleton_self _)
  have hsub : ∀ px ∈ s.held, px ∈ s.held ++ [(r, x)] := fun px hpx => List.mem_append_left _ hpx
  have hold : ∀ {P : Polynomial × Made N → Prop}, (∃ px ∈ s.held, P px) → ∃ px ∈ s.held ++ [(r, x)], P px :=
    fun ⟨px, hpx, hP⟩ => ⟨px, hsub px hpx, hP⟩
  obtain ⟨hconsistent, hkeeps, htable, inst, hinst, hrec⟩ :=
    op.record_appends hop.arithmetic h.consistent h.keeps
  rw [← hcalled.writer] at hconsistent hkeeps htable hinst hrec
  refine ⟨h.toHolding.more hr haddress hearly hcalled.next, hconsistent, hkeeps, ?_, ?_, ?_, ?_, ?_,
    ?_, ?_, ?_⟩ <;> try rw [held_append h.length rfl]
  · intro e he
    exact hold (h.inputs e (hcalled.inputs ▸ he))
  · intro e he
    exact hold (h.probes e (hcalled.probes ▸ he))
  · exact List.forall_mem_append.mpr ⟨h.arithmetic, List.forall_mem_singleton.mpr hop.arithmetic⟩
  · refine List.forall_mem_append.mpr ⟨fun op hop => hold (h.dests op hop), ?_⟩
    exact List.forall_mem_singleton.mpr ⟨(r, x), hlast, hx, hop.dest.symm⟩
  · refine List.forall_mem_append.mpr ⟨fun op' hop' a ha => ?_, List.forall_mem_singleton.mpr fun a ha => ?_⟩
    · obtain ⟨hknown, hread⟩ := h.reads op' hop' a ha
      exact ⟨hcalled.known a (.inl hknown), hold hread⟩
    · exact ⟨hcalled.known a (.inr ha), hold (hop.reads a ha)⟩
  · intro px hpx hcomputed
    rw [List.map_append, List.mem_append]
    rcases List.mem_append.mp hpx with hpx | hpx
    · exact .inl (h.written px hpx hcomputed)
    · rw [List.mem_singleton.mp hpx]
      exact .inr (List.mem_singleton.mpr hop.dest.symm)
  · intro hsize
    show List.Forall₂ (ApiOp.RecordedAs session.writer.modulus_table_) _ session.writer.instructions_
    rw [hinst]
    refine List.rel_append ?_ (.cons (hrec hsize) .nil)
    exact (h.instructions (htable.length_le.trans hsize)).imp fun _ _ hinst => hinst.grow htable
  · intro j m hm px hpx hcomputed
    have hreads : ∀ a ∈ ops.flatMap ApiOp.reads, a ∈ (ops ++ [op]).flatMap ApiOp.reads := by
      intro a ha
      rw [List.flatMap_append]
      exact List.mem_append_left _ ha
    have hmeans := h.means j m fun px hpx hinput ha => hm px (hsub px hpx) hinput (hreads _ ha)
    rw [SingleAssignment.Code.eval_append]
    rcases List.mem_append.mp hpx with hpx | hpx
    · refine Eq.trans ?_ (hmeans px hpx hcomputed)
      apply SingleAssignment.Code.eval_of_not_dest
      refine List.forall_mem_singleton.mpr fun hdest => hfresh px hpx ?_
      exact hdest.symm.trans (hop.dest.trans haddress)
    · rw [List.mem_singleton.mp hpx]
      show SingleAssignment.Code.step ApiOp.code (ApiOp.code.eval m ops) op r.address = x.value j
      rw [← hop.dest]
      refine (Function.update_self _ _ _).trans (hop.value j _ fun px hpx hread => ?_)
      -- an operand holds its value already: a result was computed, and an input is not written
      by_cases hresult : px.2.computed = true
      · exact hmeans px hpx hresult
      · rw [Bool.not_eq_true] at hresult
        rw [SingleAssignment.Code.eval_of_not_dest fun op' hop' => h.dest_ne hpx hresult hop']
        apply hm px (hsub px hpx) hresult
        rw [List.flatMap_append, List.mem_append, List.flatMap_singleton]
        exact .inr hread

/-! ## A step -/

/-- Nothing has happened. -/
theorem effect_none (tagged : ℕ → Prop) (s : Evaluated N) : Effect tagged s s :=
  .quiet (s := s) s.host.compiler.session s.host.scalars
    ⟨Nat.le_refl _, rfl, ⟨_, rfl⟩, fun _ he => .inl he, fun _ he => .inl he⟩

/-- The place of a polynomial is that of its value. -/
theorem Holding.operand (h : s.Holding early) {i : ℕ} {x : Made N}
    (hx : s.made[i]? = some x) : ∃ p, s.host.polys[i]? = some p ∧ (p, x) ∈ s.held := by
  have hlt := (List.getElem?_eq_some_iff.mp hx).1
  have hp := List.getElem?_eq_getElem (h.length.symm ▸ hlt : i < s.host.polys.length)
  exact ⟨_, hp, mem_held.mpr ⟨i, hp, hx⟩⟩

theorem Holding.operand_none (h : s.Holding early) {i : ℕ}
    (hx : s.made[i]? = none) : s.host.polys[i]? = none := by
  rw [List.getElem?_eq_none_iff] at hx ⊢
  rw [h.length]
  exact hx

/-- The data of a result is its operand's in length, and there is none. -/
theorem Holding.result_data (h : s.Holding early) {a r : Polynomial} {x y : Made N}
    (ha : (a, x) ∈ s.held) (hr : s.host.compiler.session.GivesResult a r) (hy : y.computed = true) :
    r.HoldsData y := by
  refine ⟨hr.ring_dim.trans (h.data _ ha).ring_dim, ?_, fun hinput => ?_⟩
  · rw [hr.int_data]
    exact Nat.zero_le _
  · rw [hy] at hinput
    exact absurd hinput.symm Bool.false_ne_true

/-- A call that does not find its operands. -/
theorem step_of_none {c : SessionCall} (hcall : (c.toApi N).call s.host.polys s.host.scalars = none)
    (hmakes : c.makes s.made s.host.scalars = none) : s.step c = s := by
  rw [step, Host.api_of_none hcall, hmakes, Option.toList_none, List.append_nil]

/-- A call that makes a polynomial. -/
theorem step_of_made {c : SessionCall} {call : Api Polynomial} {r : Polynomial} {session : Session}
    (x : Made N) (hcall : (c.toApi N).call s.host.polys s.host.scalars = some (gives_poly call))
    (hrun : call s.host.compiler.session = some (r, session))
    (hmakes : c.makes s.made s.host.scalars = some x) :
    s.step c = ⟨{ s.host with
      compiler := { s.host.compiler with session := session }
      polys := s.host.polys ++ [r] }, s.made ++ [x]⟩ := by
  rw [step, Host.api_of_given hcall (gives_poly_run hrun), hmakes, Option.toList_some, List.append_nil]

/-- A call that gives nothing. -/
theorem step_of_nothing {c : SessionCall} {call : Api Unit} {session : Session}
    (hcall : (c.toApi N).call s.host.polys s.host.scalars = some (gives_nothing call))
    (hrun : call s.host.compiler.session = some ((), session))
    (hmakes : c.makes s.made s.host.scalars = none) :
    s.step c = ⟨{ s.host with compiler := { s.host.compiler with session := session } }, s.made⟩ := by
  have hgiven : gives_nothing call s.host.compiler.session = some ({}, session) := by
    show (call s.host.compiler.session).bind _ = _
    rw [hrun]
    rfl
  rw [step, Host.api_of_given hcall hgiven, hmakes, Option.toList_none, List.append_nil, List.append_nil,
    List.append_nil]

/-- A comment is a note. -/
theorem comment_notes (tw : TraceWriter) (text : Str) :
    ∃ notes, tw.comment text = { tw with annotations_ := notes } := by
  unfold TraceWriter.comment
  split
  · exact ⟨_, rfl⟩
  · exact ⟨_, rfl⟩

theorem modulus_pos {q : UInt64} (hq : q ≠ 0) : 0 < q.toNat :=
  Nat.pos_of_ne_zero fun h => hq (UInt64.toNat_inj.mp h)

theorem Recorded.effect_pp (h : s.Recorded early tagged ops) {f : PolyPoly} {a b : ℕ} {q : UInt64}
    (hc : s.Clean early tagged (.pp f a b q)) : s.Effect tagged (s.step (.pp f a b q)) := by
  -- a handle that is not there stops both
  rcases ha : s.made[a]? with - | x
  · rw [step_of_none]
    · exact effect_none tagged s
    · simp only [SessionCall.toApi, ApiCall.call, h.operand_none ha, Option.bind_none]
    · simp only [SessionCall.makes, ha, Option.bind_none]
  obtain ⟨p, hp, hpx⟩ := h.operand ha
  rcases hb : s.made[b]? with - | y
  · rw [step_of_none]
    · exact effect_none tagged s
    · simp only [SessionCall.toApi, ApiCall.call, hp, h.operand_none hb, Option.map_none,
        Option.bind_some]
    · simp only [SessionCall.makes, ha, hb, Option.map_none, Option.bind_some]
  obtain ⟨p', hp', hpy⟩ := h.operand hb
  obtain ⟨r, session, hrun, hr, hcalled⟩ := called_pp s.host.compiler.session p p' q f.opcode f.form
  have hcall : (SessionCall.toApi N (.pp f a b q)).call s.host.polys s.host.scalars =
      some (gives_poly (sr_pp f.opcode p p' q)) := by
    simp only [SessionCall.toApi, ApiCall.call, hp, hp', Option.map_some, Option.bind_some, f.call_eq]
  have hmakes : (SessionCall.pp f a b q).makes s.made s.host.scalars =
      some ⟨fun j => f.says q.toNat (x.value j) (y.value j), true⟩ := by
    simp only [SessionCall.makes, ha, hb, Option.map_some, Option.bind_some]
  rw [step_of_made _ hcall hrun hmakes]
  refine .computed session _ r _ (h.result_data hpx hr rfl) rfl hr.address hcalled ?_
  have hsecond : b ∈ (SessionCall.pp f a b q).operands := List.mem_cons_of_mem _ (List.mem_singleton_self b)
  refine ⟨⟨?_, hc.formed⟩, rfl, ?_, fun j m hm => ?_⟩
  -- an arithmetic call with operands that were made before
  · cases f with
    | sr_addp => exact .inl rfl
    | sr_subp => exact .inr (.inl rfl)
    | sr_mulp => exact .inr (.inr rfl)
  · intro addr haddr
    rcases List.mem_pair.mp haddr with rfl | rfl
    · exact ⟨_, hpx, rfl, hc.operands a List.mem_cons_self p x hp ha⟩
    · exact ⟨_, hpy, rfl, hc.operands b hsecond p' y hp' hb⟩
  · show ppValue f.opcode q.toNat (m p.address) (m p'.address) = _
    rw [hm _ hpx List.mem_cons_self, hm _ hpy (List.mem_cons_of_mem _ (List.mem_singleton_self _)),
      f.value_eq (modulus_pos hc.formed)]

theorem Recorded.effect_ps (h : s.Recorded early tagged ops) {f : Pointwise} {a i : ℕ} {q : UInt64}
    (hc : s.Clean early tagged (.ps f a i q)) : s.Effect tagged (s.step (.ps f a i q)) := by
  rcases ha : s.made[a]? with - | x
  · rw [step_of_none]
    · exact effect_none tagged s
    · simp only [SessionCall.toApi, ApiCall.call, h.operand_none ha, Option.bind_none]
    · simp only [SessionCall.makes, ha, Option.bind_none]
  obtain ⟨p, hp, hpx⟩ := h.operand ha
  rcases hs : s.host.scalars[i]? with - | c
  · rw [step_of_none]
    · exact effect_none tagged s
    · simp only [SessionCall.toApi, ApiCall.call, hp, hs, Option.map_none, Option.bind_some]
    · simp only [SessionCall.makes, ha, hs, Option.map_none, Option.bind_some]
  obtain ⟨r, session, hrun, hr, hcalled⟩ := called_ps s.host.compiler.session p q c.1 f.opcode f.form
  have hcall : (SessionCall.toApi N (.ps f a i q)).call s.host.polys s.host.scalars =
      some (gives_poly (sr_ps f.opcode p c.1 q)) := by
    simp only [SessionCall.toApi, ApiCall.call, hp, hs, Option.map_some, Option.bind_some, f.call_eq]
  have hmakes : (SessionCall.ps f a i q).makes s.made s.host.scalars =
      some ⟨fun j => f.says q.toNat (x.value j) c.1.int_value.toNat, true⟩ := by
    simp only [SessionCall.makes, ha, hs, Option.map_some, Option.bind_some]
  rw [step_of_made _ hcall hrun hmakes]
  refine .computed session _ r _ (h.result_data hpx hr rfl) rfl hr.address hcalled ?_
  refine ⟨⟨?_, hc.formed⟩, rfl, ?_, fun j m hm => ?_⟩
  · cases f with
    | sr_addps => exact .inl rfl
    | sr_subps => exact .inr (.inl rfl)
    | sr_mulps => exact .inr (.inr rfl)
  · intro addr haddr
    rw [List.mem_singleton.mp haddr]
    exact ⟨_, hpx, rfl, hc.operands a List.mem_cons_self p x hp ha⟩
  · show psValue f.opcode q.toNat (m p.address) c.1.int_value.toNat = _
    rw [hm _ hpx List.mem_cons_self, f.value_eq (modulus_pos hc.formed)]
    -- adding 0 copies, so it is asked of what 0 is added to that it is reduced
    intro hf hzero
    subst hf
    exact hc.addition a i q x c rfl ha hs (UInt64.toNat_inj.mp hzero) j

theorem Recorded.effect_negp (h : s.Recorded early tagged ops) {a : ℕ} {q : UInt64}
    (hc : s.Clean early tagged (.sr_negp a q)) : s.Effect tagged (s.step (.sr_negp a q)) := by
  -- a handle that is not there stops both
  rcases ha : s.made[a]? with - | x
  · rw [step_of_none]
    · exact effect_none tagged s
    · simp only [SessionCall.toApi, ApiCall.call, h.operand_none ha, Option.map_none]
    · simp only [SessionCall.makes, ha, Option.map_none]
  obtain ⟨p, hp, hpx⟩ := h.operand ha
  obtain ⟨r, session, hrun, hr, hcalled⟩ := called_negp s.host.compiler.session p q
  have hcall : (SessionCall.toApi N (.sr_negp a q)).call s.host.polys s.host.scalars =
      some (gives_poly (Fhetch.sr_negp p q)) := by
    simp only [SessionCall.toApi, ApiCall.call, hp, Option.map_some, Unary.call]
  have hmakes : (SessionCall.sr_negp a q).makes s.made s.host.scalars =
      some ⟨fun j => (-(x.value j : ℤ) % q.toNat).toNat, true⟩ := by
    simp only [SessionCall.makes, ha, Option.map_some]
  rw [step_of_made _ hcall hrun hmakes]
  refine .computed session _ r _ (h.result_data hpx hr rfl) rfl hr.address hcalled ?_
  refine ⟨⟨rfl, hc.formed⟩, rfl, ?_, fun j m hm => ?_⟩
  · intro addr haddr
    rw [List.mem_singleton.mp haddr]
    exact ⟨_, hpx, rfl, hc.operands a List.mem_cons_self p x hp ha⟩
  · show negValue q.toNat (m p.address) = _
    rw [hm _ hpx List.mem_cons_self]
    exact negValue_eq (hc.negation a q x rfl ha j) q.toNat_lt

theorem effect_from_data {components : List UInt64}
    {fmt : Format} (hformed : components.length ≤ N) :
    s.Effect tagged (s.step (.from_data components fmt)) := by
  let p : Polynomial := ⟨s.host.compiler.session.next_address_, N, fmt, .Integer, components⟩
  have hcall : (SessionCall.toApi N (.from_data components fmt)).call s.host.polys s.host.scalars =
      some (gives_poly (Polynomial.from_data components N fmt)) := rfl
  rw [step_of_made ⟨fun j => (components.getD j 0).toNat, false⟩ hcall (r := p) rfl rfl]
  exact .input p _ ⟨rfl, hformed, fun _ _ => rfl⟩ rfl rfl

theorem effect_from_int (tagged : ℕ → Prop) (value : UInt64) :
    s.Effect tagged (s.step (.from_int value)) := by
  have hgiven : gives_scalar (Scalar.from_int value) 0 s.host.compiler.session =
      some ({ scalars := [(⟨s.host.compiler.session.next_address_, .Integer, value⟩, 0)] },
        { s.host.compiler.session with next_address_ := s.host.compiler.session.next_address_ + 1 }) := rfl
  have hstep := Host.api_of_given (h := s.host) (c := SessionCall.toApi N (.from_int value)) rfl hgiven
  rw [step, hstep, List.append_nil, show (SessionCall.from_int value).makes s.made s.host.scalars = none
    from rfl, Option.toList_none, List.append_nil]
  exact .quiet _ _ ⟨Nat.le_succ _, rfl, ⟨_, rfl⟩, fun _ he => .inl he, fun _ he => .inl he⟩

theorem Holding.effect_tag_input (h : s.Holding early) (name : Str) (i : ℕ) :
    s.Effect tagged (s.step (.tag_input name i)) := by
  rcases hx : s.made[i]? with - | x
  · rw [step_of_none _ rfl]
    · exact effect_none tagged s
    · simp only [SessionCall.toApi, ApiCall.call, Reference.resolve, h.operand_none hx, Option.map_none]
  obtain ⟨p, hp, hpx⟩ := h.operand hx
  have hcall : (SessionCall.toApi N (.tag_input name i)).call s.host.polys s.host.scalars =
      some (gives_nothing (tag_input name (.POLY p))) := by
    simp only [SessionCall.toApi, ApiCall.call, Reference.resolve, hp, Option.map_some]
  rw [step_of_nothing hcall rfl rfl]
  refine .quiet _ _ ⟨Nat.le_refl _, rfl, ⟨_, rfl⟩, fun e he => ?_, fun _ he => .inl he⟩
  rcases List.mem_append.mp he with he | he
  · exact .inl he
  · exact .inr ⟨_, hpx, by rw [List.mem_singleton.mp he]⟩

theorem Recorded.effect_tag_output (h : s.Recorded early tagged ops) {name : Str} {i : ℕ}
    (hc : s.Clean early tagged (.tag_output name i)) : s.Effect tagged (s.step (.tag_output name i)) := by
  rcases hx : s.made[i]? with - | x
  · rw [step_of_none _ rfl]
    · exact effect_none tagged s
    · simp only [SessionCall.toApi, ApiCall.call, Reference.resolve, h.operand_none hx, Option.map_none]
  obtain ⟨p, hp, hpx⟩ := h.operand hx
  have hcall : (SessionCall.toApi N (.tag_output name i)).call s.host.polys s.host.scalars =
      some (gives_nothing (tag_output name (.POLY p))) := by
    simp only [SessionCall.toApi, ApiCall.call, Reference.resolve, hp, Option.map_some]
  rw [step_of_nothing hcall rfl rfl]
  refine .quiet _ _ ⟨Nat.le_refl _, rfl, comment_notes _ _, fun _ he => .inl he, fun e he => ?_⟩
  rcases List.mem_append.mp he with he | he
  · exact .inl he
  · exact .inr ⟨_, hpx, hc.output name i x rfl hx, by rw [List.mem_singleton.mp he]⟩

/-- **Every call is one of the three.** -/
theorem Recorded.effect (h : s.Recorded early tagged ops) {c : SessionCall}
    (hc : s.Clean early tagged c) : s.Effect tagged (s.step c) := by
  cases c with
  | from_data components fmt => exact effect_from_data hc.formed
  | from_int value => exact effect_from_int tagged value
  | tag_input name i => exact h.effect_tag_input name i
  | tag_output name i => exact h.effect_tag_output hc
  | pp f a b q => exact h.effect_pp hc
  | ps f a i q => exact h.effect_ps hc
  | sr_negp a q => exact h.effect_negp hc

/-! ## A recording -/

variable {c : SessionCall}

theorem made_append_ne (made : List (Made N)) (x : Made N) : made ++ [x] ≠ made := by
  intro h
  have hlength := congrArg List.length h
  rw [List.length_append, List.length_singleton] at hlength
  omega

/-- Whatever makes a polynomial makes it at the next address. -/
theorem Holding.effect (h : s.Holding early) (heffect : s.Effect tagged s')
    (hearly : s'.made ≠ s.made → ∀ p ∈ early, p.address ≠ s.host.compiler.session.next_address_) :
    s'.Holding early := by
  cases heffect with
  | quiet session scalars hquiet => exact h.quiet scalars hquiet.next
  | input p x hp hx haddress => exact h.more hp haddress (hearly (made_append_ne _ x)) rfl
  | computed session op r x hr hx haddress hcalled hop =>
    exact h.more hr haddress (hearly (made_append_ne _ x)) hcalled.next

theorem Clean.early_ne (hc : s.Clean early tagged c) (hmade : (s.step c).made ≠ s.made) :
    ∀ p ∈ early, p.address ≠ s.host.compiler.session.next_address_ := by
  apply hc.apart
  rw [Option.isSome_iff_ne_none]
  intro hnone
  apply hmade
  show s.made ++ (c.makes s.made s.host.scalars).toList = s.made
  rw [hnone, Option.toList_none, List.append_nil]

/-- **One call.** -/
theorem Recorded.step (h : s.Recorded early tagged ops) (hc : s.Clean early tagged c) :
    ∃ ops', (s.step c).Recorded early tagged ops' := by
  have hearly := hc.early_ne
  have heffect := h.effect hc
  generalize s.step c = s' at hearly heffect ⊢
  cases heffect with
  | quiet session scalars hquiet => exact ⟨ops, h.quiet scalars hquiet⟩
  | input p x hp hx haddress => exact ⟨ops, h.input hp hx haddress (hearly (made_append_ne _ x))⟩
  | computed session op r x hr hx haddress hcalled hop =>
    exact ⟨ops ++ [op], h.computed hr hx haddress hcalled hop (hearly (made_append_ne _ x))⟩

/-- **A run.** -/
theorem Recorded.run (h : s.Recorded early tagged ops) {calls : List SessionCall}
    (hcalls : Runs.Along Evaluated.step (Clean early tagged) s calls) :
    ∃ ops', (Runs.run Evaluated.step s calls).Recorded early tagged ops' := by
  have hstep : ∀ s c, Clean early tagged s c → (∃ ops, s.Recorded early tagged ops) →
      ∃ ops, (Evaluated.step (N := N) s c).Recorded early tagged ops := by
    rintro s c hc ⟨ops, hs⟩
    exact hs.step hc
  exact Runs.run_invariant hstep ⟨ops, h⟩ hcalls

/-! ### Up to its start -/

/-- What was made before any recording: inputs alone, each at its own address. -/
structure Prepared (s : Evaluated N) : Prop extends Holding [] s where
  idle : s.host.compiler.running = false
  inputs : ∀ x ∈ s.made, x.computed = false

theorem prepared_empty : ({} : Evaluated N).Prepared :=
  ⟨⟨rfl, List.forall_mem_nil _, List.nodup_nil, List.forall_mem_nil _⟩, rfl, List.forall_mem_nil _⟩

theorem Prepared.step (h : s.Prepared) (hformed : c.WellFormed N) (hc : c.Prepares) :
    (s.step c).Prepared := by
  have hmade : ∀ x, c.makes s.made s.host.scalars = some x → x.computed = false := by
    intro x hx
    cases c with
    | from_data components fmt => rw [← Option.some.inj hx]
    | from_int | tag_input => exact absurd hx (by simp [SessionCall.makes])
    | tag_output | pp | ps | sr_negp => exact hc.elim
  have heffect : s.Effect (fun _ => True) (s.step c) := by
    cases c with
    | from_data components fmt => exact effect_from_data hformed
    | from_int value => exact effect_from_int _ value
    | tag_input name i => exact h.effect_tag_input name i
    | tag_output | pp | ps | sr_negp => exact hc.elim
  refine ⟨h.toHolding.effect heffect fun _ => List.forall_mem_nil _, ?_, fun x hx => ?_⟩
  · show (s.host.api (c.toApi N)).compiler.running = false
    rw [Host.api_frame]
    exact h.idle
  · rcases List.mem_append.mp hx with hx | hx
    · exact h.inputs x hx
    · exact hmade x (Option.mem_toList.mp hx)

/-- **A recording starts**: it has computed nothing, and keeps what is held. -/
theorem Prepared.start (h : s.Prepared) (tagged : ℕ → Prop) :
    s.start.Recorded s.host.polys tagged [] := by
  have hstart : s.host.compiler.start = { s.host.compiler with
      session := { reset_for_epoch s.host.compiler.session with
        writer := s.host.compiler.session.writer.clear.start_recording }
      g_synced_since_reset := false
      running := true } := if_neg (Bool.not_eq_true _ ▸ h.idle)
  have hcomputed : ∀ px ∈ s.held, px.2.computed = false :=
    fun px hpx => h.inputs px.2 (List.of_mem_zip hpx).2
  unfold Evaluated.start Host.start
  rw [hstart]
  have hclear := TraceWriter.consistent_clear s.host.compiler.session.writer
  refine ⟨⟨h.length, fun p hp => .inl hp, h.apart, h.data⟩, ⟨hclear.head, hclear.nodup, hclear.lookup⟩,
    rfl, List.forall_mem_nil _, List.forall_mem_nil _, List.forall_mem_nil _, List.forall_mem_nil _,
    List.forall_mem_nil _, ?_, fun _ => .nil, ?_⟩
  · intro px hpx hpx'
    rw [hcomputed px hpx] at hpx'
    exact absurd hpx' Bool.false_ne_true
  · intro j m hm px hpx hpx'
    rw [hcomputed px hpx] at hpx'
    exact absurd hpx' Bool.false_ne_true

end Evaluated

end Fhetch
