/-
The recording API (`include/niobium/fhetch_api.h`, `src/fhetch_api.cpp`): what a
session keeps, the handles it gives out, and the calls that record one instruction.

Every handle takes an address from one counter when it is made, scalars as well as
polynomials, and a call makes its result before it records. A call that throws has
no outcome here.
-/
import Fhetch.TraceWriter
import Mathlib.Algebra.Group.Nat.Defs

set_option autoImplicit false

namespace Fhetch

/-! ## Handles -/

inductive NumberType where
  | Integer
  | NonInteger
  deriving DecidableEq, Repr

inductive Format where
  | Coefficient
  | Evaluation
  deriving DecidableEq, Repr

/-- A valid polynomial: what `PolynomialImpl` holds of an integer one. -/
structure Polynomial where
  address : ℕ
  ring_dim : ℕ
  fmt : Format
  ntype : NumberType
  int_data : List UInt64 := []
  deriving DecidableEq, Repr

structure Scalar where
  address : ℕ
  ntype : NumberType
  int_value : UInt64

abbrev ModuliBase := List UInt64

/-- A multi-residue polynomial: it has a residue for each modulus of its base and
no others. -/
structure MRP where
  base_ : ModuliBase := []
  residues_ : UInt64 → Option Polynomial := fun _ => none
  ring_dim_ : ℕ := 0
  covered : ∀ q, (residues_ q).isSome ↔ q ∈ base_ := by simp

/-- The assignments `impl->residues_[q] = poly`, one after another. -/
def assign_residues (pairs : List (Polynomial × UInt64)) : UInt64 → Option Polynomial :=
  pairs.foldl (fun residues pair => Function.update residues pair.2 (some pair.1)) fun _ => none

theorem assign_residues_append (pairs : List (Polynomial × UInt64)) (pair : Polynomial × UInt64) :
    assign_residues (pairs ++ [pair]) = Function.update (assign_residues pairs) pair.2 (some pair.1) :=
  List.foldl_append

theorem assign_residues_covered (pairs : List (Polynomial × UInt64)) (q : UInt64) :
    (assign_residues pairs q).isSome ↔ q ∈ pairs.map Prod.snd := by
  induction pairs using List.reverseRecOn with
  | nil => simp [assign_residues]
  | append_singleton pairs pair ih =>
    rw [assign_residues_append, Function.update_apply, List.map_append, List.mem_append]
    split
    · rename_i hq
      simp [hq]
    · rename_i hq
      simp [ih, hq]

/-- A residue of the map is one of those assigned. -/
theorem mem_of_assign_residues {pairs : List (Polynomial × UInt64)} {q : UInt64} {p : Polynomial}
    (h : assign_residues pairs q = some p) : (p, q) ∈ pairs := by
  induction pairs using List.reverseRecOn with
  | nil => exact absurd h (by simp [assign_residues])
  | append_singleton pairs pair ih =>
    rw [assign_residues_append, Function.update_apply] at h
    rw [List.mem_append, List.mem_singleton]
    split at h
    · rename_i hq
      exact .inr (by rw [← Option.some.inj h, hq])
    · exact .inl (ih h)

def MRP.from_pairs (pairs : List (Polynomial × UInt64)) : MRP where
  base_ := pairs.map Prod.snd
  residues_ := assign_residues pairs
  ring_dim_ := (pairs.head?.map (·.1.ring_dim)).getD 0
  covered := assign_residues_covered pairs

/-! ## The session -/

/-- What an entry of the registries holds. -/
inductive Tagged where
  | POLY (poly : Polynomial)
  | MRP_KIND (mrp : MRP)
  | MRPA (mrpa : List MRP)
  | SRPA (srpa : List Polynomial)

/-- `InputEntry`, `ProbeEntry`. -/
structure RegistryEntry where
  name : Str
  tagged : Tagged

structure Session where
  /-- `next_address_`, a 64-bit counter that no session exhausts. -/
  next_address_ : ℕ := 0
  address_modulus_map : ℕ → Option UInt64 := fun _ => none
  input_registry : List RegistryEntry := []
  probe_registry : List RegistryEntry := []
  writer : TraceWriter := {}

/-- A call: what it returns and the session it leaves, unless it throws. -/
abbrev Api := StateT Session Option

def alloc_address : Api ℕ := fun s => some (s.next_address_, { s with next_address_ := s.next_address_ + 1 })

/-- The first mention of an address decides, except that a real modulus replaces
the sentinel. -/
def Session.remember_modulus (s : Session) (a : ℕ) (q : UInt64) : Session :=
  match s.address_modulus_map a with
  | none => { s with address_modulus_map := Function.update s.address_modulus_map a (some q) }
  | some q₀ =>
    if q₀ = COPY_MODULUS_VALUE ∧ q ≠ COPY_MODULUS_VALUE then
      { s with address_modulus_map := Function.update s.address_modulus_map a (some q) }
    else s

/-- Remembering a modulus changes the map alone. -/
theorem Session.remember_modulus_frame (s : Session) (a : ℕ) (q : UInt64) :
    s.remember_modulus a q =
      { s with address_modulus_map := (s.remember_modulus a q).address_modulus_map } := by
  unfold Session.remember_modulus
  split
  · rfl
  · split
    · rfl
    · rfl

def remember_modulus (a : ℕ) (q : UInt64) : Api Unit := fun s => some ((), s.remember_modulus a q)

/-- What a call hands to the trace writer. -/
def recorded (f : TraceWriter → TraceWriter) : Api Unit := fun s => some ((), { s with writer := f s.writer })

/-! ### Making handles -/

def Polynomial.zeros (ring_dim : ℕ) (fmt : Format := .Evaluation) : Api Polynomial := do
  let address ← alloc_address
  return { address, ring_dim, fmt, ntype := .Integer }

def Polynomial.zeros_ni (ring_dim : ℕ) (fmt : Format := .Evaluation) : Api Polynomial := do
  let address ← alloc_address
  return { address, ring_dim, fmt, ntype := .NonInteger }

def Polynomial.from_data (components : List UInt64) (ring_dim : ℕ) (fmt : Format := .Evaluation) :
    Api Polynomial := do
  let address ← alloc_address
  return { address, ring_dim, fmt, ntype := .Integer, int_data := components }

def Scalar.from_int (value : UInt64) : Api Scalar := do
  let address ← alloc_address
  return { address, ntype := .Integer, int_value := value }

/-- The residue of a modulus; `std::out_of_range` outside the base. -/
def MRP.at (x : MRP) (q : UInt64) : Api Polynomial := fun s => (x.residues_ q).map (·, s)

def make_result (a : Polynomial) (fmt : Format) : Api Polynomial :=
  match a.ntype with
  | .NonInteger => Polynomial.zeros_ni a.ring_dim fmt
  | .Integer => Polynomial.zeros a.ring_dim fmt

/-! ### Recording -/

/-- The calls with two polynomials. -/
def sr_pp (op : FhOpcode) (a b : Polynomial) (q : UInt64) : Api Polynomial := do
  let result ← make_result a a.fmt
  remember_modulus a.address q
  remember_modulus b.address q
  remember_modulus result.address q
  recorded (emit_pp op result.address a.address b.address q)
  return result

def sr_addp (a b : Polynomial) (q : UInt64) : Api Polynomial := sr_pp .FH_SR_ADDP a b q

def sr_subp (a b : Polynomial) (q : UInt64) : Api Polynomial := sr_pp .FH_SR_SUBP a b q

def sr_mulp (a b : Polynomial) (q : UInt64) : Api Polynomial := sr_pp .FH_SR_MULP a b q

/-- The calls with a polynomial and a scalar. -/
def sr_ps (op : FhOpcode) (a : Polynomial) (c : Scalar) (q : UInt64) : Api Polynomial := do
  let result ← make_result a a.fmt
  remember_modulus a.address q
  remember_modulus result.address q
  recorded (emit_ps op result.address a.address c.int_value q)
  return result

def sr_addps (a : Polynomial) (c : Scalar) (q : UInt64) : Api Polynomial := sr_ps .FH_SR_ADDPS a c q

def sr_subps (a : Polynomial) (c : Scalar) (q : UInt64) : Api Polynomial := sr_ps .FH_SR_SUBPS a c q

def sr_mulps (a : Polynomial) (c : Scalar) (q : UInt64) : Api Polynomial := sr_ps .FH_SR_MULPS a c q

def sr_negp (a : Polynomial) (q : UInt64) : Api Polynomial := do
  let result ← make_result a a.fmt
  remember_modulus a.address q
  remember_modulus result.address q
  recorded (emit_un .FH_SR_NEGP result.address a.address q)
  return result

end Fhetch
