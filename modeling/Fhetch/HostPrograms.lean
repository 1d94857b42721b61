/-
Host programs of the recording API (`src/fhetch_api.cpp`, `src/compiler.cpp`): the
calls a program makes, over all that its process keeps from one call to the next.

A program names what it holds by the order in which it was given it. Which addresses
are behind that is up to the library, so the same calls can be made from two states.

The calls that record are put together from a few steps, `Records`, and what every
one of them does to the session follows from what the steps do.
-/
import Fhetch.Sessions
import Fhetch.RecordingWindows

set_option autoImplicit false

namespace Fhetch

open Lib Runs

/-! ## The other calls that record -/

/-- A scalar without an integer; its `double` is kept by the program that holds it. -/
def Scalar.from_double : Api Scalar := do
  let address ← alloc_address
  return { address, ntype := .NonInteger, int_value := 0 }

/-- The calls that derive a polynomial from one other, modulo `q`. -/
def sr_derived (a : Polynomial) (fmt : Format) (q : UInt64) (f : ℕ → TraceWriter → TraceWriter) :
    Api Polynomial := do
  let result ← make_result a fmt
  remember_modulus a.address q
  remember_modulus result.address q
  recorded (f result.address)
  return result

def sr_addps_coeff (a : Polynomial) (s : Scalar) (q : UInt64) : Api Polynomial :=
  sr_derived a .Coefficient q fun d => emit_ps .FH_SR_ADDPS_COEFF d a.address s.int_value q

def sr_subps_coeff (a : Polynomial) (s : Scalar) (q : UInt64) : Api Polynomial :=
  sr_derived a .Coefficient q fun d => emit_ps .FH_SR_SUBPS_COEFF d a.address s.int_value q

/-- The permutation itself is not recorded. -/
def sr_permute (a : Polynomial) (q : UInt64) : Api Polynomial :=
  sr_derived a a.fmt q fun d => emit_un .FH_SR_PERMUTE d a.address q

/-- The result of `sr_ntt` is in evaluation format, and that of `sr_intt` in
coefficients. -/
def record_ntt (op : FhOpcode) (a : Polynomial) (q : UInt64) (omega : Option UInt64) : Api Polynomial :=
  sr_derived a (if op = .FH_SR_NTT then .Evaluation else .Coefficient) q fun d =>
    emit_ntt op d a.address q omega

def sr_ntt (a : Polynomial) (q : UInt64) : Api Polynomial := record_ntt .FH_SR_NTT a q none

def sr_intt (a : Polynomial) (q : UInt64) : Api Polynomial := record_ntt .FH_SR_INTT a q none

/-- Throws unless `omega` is a primitive 2N-th root of unity. -/
def require_ntt_root (omega : UInt64) (ring_dim : ℕ) (q : UInt64) : Api Unit := fun s =>
  if is_primitive_2n_root omega.toNat ring_dim q.toNat then some ((), s) else none

def sr_ntt_with_root (a : Polynomial) (q omega : UInt64) : Api Polynomial := do
  require_ntt_root omega a.ring_dim q
  record_ntt .FH_SR_NTT a q (some omega)

def sr_intt_with_root (a : Polynomial) (q omega : UInt64) : Api Polynomial := do
  require_ntt_root omega a.ring_dim q
  record_ntt .FH_SR_INTT a q (some omega)

def sr_automorph_coeff (x : Polynomial) (k q : UInt64) : Api Polynomial :=
  sr_derived x .Coefficient q fun d => emit_mod { ir .FH_SR_AUTOMORPH_COEFF d x.address with k := some k } q

def sr_rot_automorph_coeff (x : Polynomial) (offset q : UInt64) : Api Polynomial :=
  sr_derived x .Coefficient q fun d =>
    emit_mod { ir .FH_SR_ROT_AUTOMORPH_COEFF d x.address with offset := some offset } q

/-- The calls that derive a polynomial from one other without a modulus. -/
def sr_unbound (a : Polynomial) (fmt : Format) (f : ℕ → TraceWriter → TraceWriter) : Api Polynomial := do
  let result ← make_result a fmt
  recorded (f result.address)
  return result

/-- The line of an evaluation automorphism carries the sentinel in any case. -/
def emit_automorph_eval (x : Polynomial) (k : UInt64) (d : ℕ) : TraceWriter → TraceWriter :=
  emit_mod { ir .FH_SR_AUTOMORPH_EVAL d x.address with k := some k } COPY_MODULUS_VALUE

/-- The overload without a modulus. -/
def sr_automorph_eval (x : Polynomial) (k : UInt64) : Api Polynomial :=
  sr_unbound x x.fmt (emit_automorph_eval x k)

/-- The overload with a modulus, which is remembered and not recorded. -/
def sr_automorph_eval_mod (x : Polynomial) (k q : UInt64) : Api Polynomial := do
  let result ← make_result x x.fmt
  recorded (emit_automorph_eval x k result.address)
  remember_modulus x.address q
  remember_modulus result.address q
  return result

/-! ### Non-integer calls -/

/-- dest, src1, src2 -/
def emit_pp_ni (op : FhOpcode) (d s1 s2 : ℕ) : TraceWriter → TraceWriter := fun tw =>
  tw.emit { ir op d s1 with src2 := UInt32.ofNat s2 }

/-- dest, src1, imm, as the bit pattern of a `double` -/
def emit_ps_ni (op : FhOpcode) (d s1 : ℕ) (imm : UInt64) : TraceWriter → TraceWriter := fun tw =>
  tw.emit { ir op d s1 with fp_immediate := some imm }

/-- dest, src1 -/
def emit_un_ni (op : FhOpcode) (d s1 : ℕ) : TraceWriter → TraceWriter := fun tw => tw.emit (ir op d s1)

def sr_pp_ni (op : FhOpcode) (a b : Polynomial) : Api Polynomial :=
  sr_unbound a a.fmt fun d => emit_pp_ni op d a.address b.address

def sr_addp_ni (a b : Polynomial) : Api Polynomial := sr_pp_ni .FH_SR_ADDP_NI a b

def sr_subp_ni (a b : Polynomial) : Api Polynomial := sr_pp_ni .FH_SR_SUBP_NI a b

def sr_mulp_ni (a b : Polynomial) : Api Polynomial := sr_pp_ni .FH_SR_MULP_NI a b

def sr_ps_ni (op : FhOpcode) (a : Polynomial) (fmt : Format) (fp_value : UInt64) : Api Polynomial :=
  sr_unbound a fmt fun d => emit_ps_ni op d a.address fp_value

def sr_addps_ni (a : Polynomial) (fp_value : UInt64) : Api Polynomial :=
  sr_ps_ni .FH_SR_ADDPS_NI a a.fmt fp_value

def sr_addps_coeff_ni (a : Polynomial) (fp_value : UInt64) : Api Polynomial :=
  sr_ps_ni .FH_SR_ADDPS_COEFF_NI a .Coefficient fp_value

def sr_subps_ni (a : Polynomial) (fp_value : UInt64) : Api Polynomial :=
  sr_ps_ni .FH_SR_SUBPS_NI a a.fmt fp_value

def sr_subps_coeff_ni (a : Polynomial) (fp_value : UInt64) : Api Polynomial :=
  sr_ps_ni .FH_SR_SUBPS_COEFF_NI a .Coefficient fp_value

def sr_mulps_ni (a : Polynomial) (fp_value : UInt64) : Api Polynomial :=
  sr_ps_ni .FH_SR_MULPS_NI a a.fmt fp_value

def sr_negp_ni (a : Polynomial) : Api Polynomial :=
  sr_unbound a a.fmt fun d => emit_un_ni .FH_SR_NEGP_NI d a.address

def sr_ft (a : Polynomial) : Api Polynomial :=
  sr_unbound a .Evaluation fun d => emit_un_ni .FH_SR_FT d a.address

def sr_ift (a : Polynomial) : Api Polynomial :=
  sr_unbound a .Coefficient fun d => emit_un_ni .FH_SR_IFT d a.address

/-! ### Calls that record nothing yet -/

def sr_coeff_extract : Api Scalar := Scalar.from_int 0

def sr_coeff_assign (p : Polynomial) : Api Polynomial := make_result p p.fmt

def sr_torus_mod_reduce (p : Polynomial) : Api Polynomial := make_result p p.fmt

def halt : Api Unit := recorded fun tw => tw.emit (ir .FH_HALT 0 0)

/-! ## What a program calls -/

/-- What a program tags, by the places of the polynomials among those it holds. -/
inductive Reference where
  | poly (i : ℕ)
  | mrp (pairs : List (ℕ × UInt64))
  | mrpa (elements : List (List (ℕ × UInt64)))
  | srpa (elements : List ℕ)

/-- The polynomials behind a reference; a program has none for a place that it was not
given. -/
def Reference.resolve (polys : List Polynomial) : Reference → Option Tagged
  | poly i => polys[i]?.map .POLY
  | mrp pairs => (residues pairs).map .MRP_KIND
  | mrpa elements => (elements.mapM residues).map .MRPA
  | srpa elements => (elements.mapM (polys[·]?)).map .SRPA
where
  residues (pairs : List (ℕ × UInt64)) : Option MRP :=
    (pairs.mapM fun pair : ℕ × UInt64 => polys[pair.1]?.map (·, pair.2)).map MRP.from_pairs

/-- The calls with two polynomials. -/
inductive PolyPoly where
  | sr_addp
  | sr_subp
  | sr_mulp

def PolyPoly.call : PolyPoly → Polynomial → Polynomial → UInt64 → Api Polynomial
  | sr_addp => Fhetch.sr_addp
  | sr_subp => Fhetch.sr_subp
  | sr_mulp => Fhetch.sr_mulp

/-- The calls with a polynomial and a scalar. -/
inductive PolyScalar where
  | sr_addps
  | sr_addps_coeff
  | sr_subps
  | sr_subps_coeff
  | sr_mulps

def PolyScalar.call : PolyScalar → Polynomial → Scalar → UInt64 → Api Polynomial
  | sr_addps => Fhetch.sr_addps
  | sr_addps_coeff => Fhetch.sr_addps_coeff
  | sr_subps => Fhetch.sr_subps
  | sr_subps_coeff => Fhetch.sr_subps_coeff
  | sr_mulps => Fhetch.sr_mulps

/-- The calls with one polynomial, and a word of their own where they have one. -/
inductive Unary where
  | sr_negp
  | sr_permute
  | sr_ntt
  | sr_ntt_with_root (omega : UInt64)
  | sr_intt
  | sr_intt_with_root (omega : UInt64)
  | sr_automorph_eval (k : UInt64)
  | sr_automorph_coeff (k : UInt64)
  | sr_rot_automorph_coeff (offset : UInt64)

def Unary.call : Unary → Polynomial → UInt64 → Api Polynomial
  | sr_negp, a, q => Fhetch.sr_negp a q
  | sr_permute, a, q => Fhetch.sr_permute a q
  | sr_ntt, a, q => Fhetch.sr_ntt a q
  | sr_ntt_with_root omega, a, q => Fhetch.sr_ntt_with_root a q omega
  | sr_intt, a, q => Fhetch.sr_intt a q
  | sr_intt_with_root omega, a, q => Fhetch.sr_intt_with_root a q omega
  | sr_automorph_eval k, a, q => sr_automorph_eval_mod a k q
  | sr_automorph_coeff k, a, q => Fhetch.sr_automorph_coeff a k q
  | sr_rot_automorph_coeff offset, a, q => Fhetch.sr_rot_automorph_coeff a offset q

/-- The calls without a modulus. -/
inductive Unbound where
  | sr_negp_ni
  | sr_ft
  | sr_ift
  | sr_automorph_eval (k : UInt64)
  | sr_coeff_assign
  | sr_torus_mod_reduce

def Unbound.call : Unbound → Polynomial → Api Polynomial
  | sr_negp_ni => Fhetch.sr_negp_ni
  | sr_ft => Fhetch.sr_ft
  | sr_ift => Fhetch.sr_ift
  | sr_automorph_eval k => fun x => Fhetch.sr_automorph_eval x k
  | sr_coeff_assign => Fhetch.sr_coeff_assign
  | sr_torus_mod_reduce => Fhetch.sr_torus_mod_reduce

inductive PolyPolyNi where
  | sr_addp_ni
  | sr_subp_ni
  | sr_mulp_ni

def PolyPolyNi.call : PolyPolyNi → Polynomial → Polynomial → Api Polynomial
  | sr_addp_ni => Fhetch.sr_addp_ni
  | sr_subp_ni => Fhetch.sr_subp_ni
  | sr_mulp_ni => Fhetch.sr_mulp_ni

inductive PolyScalarNi where
  | sr_addps_ni
  | sr_addps_coeff_ni
  | sr_subps_ni
  | sr_subps_coeff_ni
  | sr_mulps_ni

def PolyScalarNi.call : PolyScalarNi → Polynomial → UInt64 → Api Polynomial
  | sr_addps_ni => Fhetch.sr_addps_ni
  | sr_addps_coeff_ni => Fhetch.sr_addps_coeff_ni
  | sr_subps_ni => Fhetch.sr_subps_ni
  | sr_subps_coeff_ni => Fhetch.sr_subps_coeff_ni
  | sr_mulps_ni => Fhetch.sr_mulps_ni

/-- A call of the recording API. Polynomials and scalars are named by their places. -/
inductive ApiCall where
  | zeros (ring_dim : ℕ) (fmt : Format)
  | zeros_ni (ring_dim : ℕ) (fmt : Format)
  | from_data (components : List UInt64) (ring_dim : ℕ) (fmt : Format)
  | from_int (value : UInt64)
  /-- With the bit pattern of the `double`. -/
  | from_double (value : UInt64)
  | bind_modulus (p : ℕ) (q : UInt64)
  | tag_input (name : Str) (t : Reference)
  | tag_output (name : Str) (t : Reference)
  | pp (f : PolyPoly) (a b : ℕ) (q : UInt64)
  | ps (f : PolyScalar) (a s : ℕ) (q : UInt64)
  | un (f : Unary) (a : ℕ) (q : UInt64)
  | unbound (f : Unbound) (a : ℕ)
  | pp_ni (f : PolyPolyNi) (a b : ℕ)
  | ps_ni (f : PolyScalarNi) (a s : ℕ)
  | sr_coeff_extract
  | halt

/-- A scalar, and the bit pattern of its `fp_value`. -/
abbrev HeldScalar := Scalar × UInt64

/-- What a call gives a program. -/
structure Handed where
  polys : List Polynomial := []
  scalars : List HeldScalar := []

def gives_poly (call : Api Polynomial) : Api Handed := do
  let p ← call
  return { polys := [p] }

def gives_scalar (call : Api Scalar) (fp_value : UInt64) : Api Handed := do
  let s ← call
  return { scalars := [(s, fp_value)] }

def gives_nothing (call : Api Unit) : Api Handed := do
  call
  return {}

/-- The call behind the names, if every name has a handle behind it. -/
def ApiCall.call (polys : List Polynomial) (scalars : List HeldScalar) : ApiCall → Option (Api Handed)
  | zeros ring_dim fmt => some (gives_poly (Polynomial.zeros ring_dim fmt))
  | zeros_ni ring_dim fmt => some (gives_poly (Polynomial.zeros_ni ring_dim fmt))
  | from_data components ring_dim fmt => some (gives_poly (Polynomial.from_data components ring_dim fmt))
  | from_int value => some (gives_scalar (Scalar.from_int value) 0)
  | from_double value => some (gives_scalar Scalar.from_double value)
  | bind_modulus p q => polys[p]?.map fun p => gives_nothing (Fhetch.bind_modulus p q)
  | tag_input name t => (t.resolve polys).map fun t => gives_nothing (Fhetch.tag_input name t)
  | tag_output name t => (t.resolve polys).map fun t => gives_nothing (Fhetch.tag_output name t)
  | pp f a b q => polys[a]?.bind fun a => polys[b]?.map fun b => gives_poly (f.call a b q)
  | ps f a s q => polys[a]?.bind fun a => scalars[s]?.map fun s => gives_poly (f.call a s.1 q)
  | un f a q => polys[a]?.map fun a => gives_poly (f.call a q)
  | unbound f a => polys[a]?.map fun a => gives_poly (f.call a)
  | pp_ni f a b => polys[a]?.bind fun a => polys[b]?.map fun b => gives_poly (f.call a b)
  | ps_ni f a s => polys[a]?.bind fun a => scalars[s]?.map fun s => gives_poly (f.call a s.2)
  | sr_coeff_extract => some (gives_scalar Fhetch.sr_coeff_extract 0)
  | halt => some (gives_nothing Fhetch.halt)

/-! ## The process -/

/-- What a process keeps from one call to the next, and what the program in it holds. -/
structure Host where
  compiler : Compiler := {}
  /-- Whether the values of an input are left out of what is captured. -/
  input_streaming : Bool := false
  polys : List Polynomial := []
  scalars : List HeldScalar := []

namespace Host

variable (h : Host)

/-- A call of the API. One that throws leaves everything as it was. -/
def api (c : ApiCall) : Host :=
  match c.call h.polys h.scalars with
  | none => h
  | some call =>
    match call h.compiler.session with
    | none => h
    | some (given, s) =>
      { h with
        compiler := { h.compiler with session := s }
        polys := h.polys ++ given.polys
        scalars := h.scalars ++ given.scalars }

/-- `store_input_element` keeps no values while inputs are streamed. -/
def stored_element (e : CapturedElement) : CapturedElement :=
  if h.input_streaming then { e with values := [] } else e

/-- The elements of a tag, as `sync` stores them. -/
def stored_elements (t : Tagged) : List CapturedElement :=
  (t.elements h.compiler.session.address_modulus_map).map h.stored_element

def sync_fhetch_state_to_compiler : Host :=
  if h.compiler.g_synced_since_reset then h
  else { h with compiler := { h.compiler with
    g_synced_since_reset := true
    captured_inputs := sync_registry h.stored_elements store_input_element
      h.compiler.session.input_registry h.compiler.captured_inputs
    captured_outputs := sync_registry (Tagged.probes h.compiler.session.address_modulus_map)
      store_output_probe h.compiler.session.probe_registry h.compiler.captured_outputs } }

/-- As long as inputs are not streamed, it is what the compiler does. -/
theorem sync_of_not_streaming (hstreaming : h.input_streaming = false) :
    h.sync_fhetch_state_to_compiler.compiler = h.compiler.sync_fhetch_state_to_compiler := by
  have hstored : h.stored_elements = Tagged.elements h.compiler.session.address_modulus_map := by
    funext t
    have hsame : h.stored_element = id := funext fun e => by simp [stored_element, hstreaming]
    rw [stored_elements, hsame, List.map_id]
  unfold sync_fhetch_state_to_compiler Compiler.sync_fhetch_state_to_compiler
  split
  · rfl
  · rw [hstored]

/-- Up to the files that it writes, for which the writer normalizes its table. -/
def stop : Host :=
  if h.compiler.running then
    let h := h.sync_fhetch_state_to_compiler
    { h with compiler := { h.compiler with
      session := { h.compiler.session with
        writer := ((h.compiler.session.writer.emit { opcode := .FH_HALT }).stop_recording
          |>.normalize_modulus_table) }
      running := false } }
  else h

def start : Host := { h with compiler := h.compiler.start }

/-- With no outputs captured, `replay` takes over those that `outputs.json` lists, whose
moduli are unknown. -/
def rehydrate (listed : List (Str × ℕ)) : Host :=
  if h.compiler.captured_outputs.isEmpty then
    { h with compiler := { h.compiler with
      captured_outputs := listed.foldl
        (fun records out => store_output_probe out.1 .SRP records (out.2, 0)) [] } }
  else h

/-- An in-process replay, up to the simulator's memory, which is populated when the
trace loads. What it depends on beside the process is whether it gets as far as a
trace, what `outputs.json` lists, and whether the trace loads. -/
def replay (ready : Bool) (listed : List (Str × ℕ)) (loads : Bool) : Host :=
  if ready then
    let h := h.rehydrate listed
    if loads then h.sync_fhetch_state_to_compiler else h
  else h

end Host

/-! ## What the calls are made of -/

/-- The steps of the recording calls: an address taken, a modulus remembered, an emission,
or a root that is refused. -/
inductive Records : {α : Type} → Api α → Prop
  | pure {α : Type} (a : α) : Records (pure a)
  | bind {α β : Type} {x : Api α} {f : α → Api β} (hx : Records x) (hf : ∀ a, Records (f a)) :
    Records (x >>= f)
  | alloc : Records alloc_address
  | remember (a : ℕ) (q : UInt64) : Records (remember_modulus a q)
  | emit (e : Emission) : Records (recorded e.record)
  | require (omega : UInt64) (ring_dim : ℕ) (q : UInt64) : Records (require_ntt_root omega ring_dim q)

namespace Records

theorem zeros (ring_dim : ℕ) (fmt : Format) : Records (Polynomial.zeros ring_dim fmt) :=
  bind alloc fun _ => pure _

theorem zeros_ni (ring_dim : ℕ) (fmt : Format) : Records (Polynomial.zeros_ni ring_dim fmt) :=
  bind alloc fun _ => pure _

theorem make_result (a : Polynomial) (fmt : Format) : Records (Fhetch.make_result a fmt) := by
  unfold Fhetch.make_result
  split
  · exact zeros_ni _ _
  · exact zeros _ _

theorem pp (op : FhOpcode) (a b : Polynomial) (q : UInt64) : Records (sr_pp op a b q) :=
  bind (make_result a a.fmt) fun r => bind (remember _ _) fun _ => bind (remember _ _) fun _ =>
    bind (remember _ _) fun _ =>
      bind (emit (.indexed { ir op r.address a.address with src2 := UInt32.ofNat b.address } q)) fun _ => pure r

theorem ps (op : FhOpcode) (a : Polynomial) (s : Scalar) (q : UInt64) : Records (sr_ps op a s q) :=
  bind (make_result a a.fmt) fun r => bind (remember _ _) fun _ => bind (remember _ _) fun _ =>
    bind (emit (.indexed { ir op r.address a.address with immediate := some s.int_value } q)) fun _ => pure r

theorem derived (a : Polynomial) (fmt : Format) (q : UInt64) (e : ℕ → Emission) :
    Records (sr_derived a fmt q fun d => (e d).record) :=
  bind (make_result a fmt) fun r => bind (remember _ _) fun _ => bind (remember _ _) fun _ =>
    bind (emit (e r.address)) fun _ => pure r

theorem unbound (a : Polynomial) (fmt : Format) (e : ℕ → Emission) :
    Records (sr_unbound a fmt fun d => (e d).record) :=
  bind (make_result a fmt) fun r => bind (emit (e r.address)) fun _ => pure r

theorem ntt (op : FhOpcode) (a : Polynomial) (q : UInt64) (omega : Option UInt64) :
    Records (record_ntt op a q omega) :=
  derived a _ q fun d => .indexed { ir op d a.address with omega := omega } q

end Records

theorem PolyPoly.records (f : PolyPoly) (a b : Polynomial) (q : UInt64) : Records (f.call a b q) := by
  cases f with
  | sr_addp => exact Records.pp _ a b q
  | sr_subp => exact Records.pp _ a b q
  | sr_mulp => exact Records.pp _ a b q

theorem PolyScalar.records (f : PolyScalar) (a : Polynomial) (s : Scalar) (q : UInt64) :
    Records (f.call a s q) := by
  have hcoeff : ∀ op, Records (sr_derived a .Coefficient q fun d => emit_ps op d a.address s.int_value q) :=
    fun op => Records.derived a _ q fun d => .indexed { ir op d a.address with immediate := some s.int_value } q
  cases f with
  | sr_addps => exact Records.ps _ a s q
  | sr_subps => exact Records.ps _ a s q
  | sr_mulps => exact Records.ps _ a s q
  | sr_addps_coeff => exact hcoeff _
  | sr_subps_coeff => exact hcoeff _

theorem Unary.records (f : Unary) (a : Polynomial) (q : UInt64) : Records (f.call a q) := by
  have hun : ∀ op, Records (sr_derived a a.fmt q fun d => emit_un op d a.address q) :=
    fun op => Records.derived a _ q fun d => .indexed (ir op d a.address) q
  cases f with
  | sr_negp => exact hun _
  | sr_permute => exact hun _
  | sr_ntt => exact Records.ntt _ a q none
  | sr_intt => exact Records.ntt _ a q none
  | sr_ntt_with_root omega => exact .bind (.require _ _ _) fun _ => Records.ntt _ a q _
  | sr_intt_with_root omega => exact .bind (.require _ _ _) fun _ => Records.ntt _ a q _
  | sr_automorph_eval k =>
    exact .bind (.make_result a a.fmt) fun r =>
      .bind (.emit (.indexed { ir .FH_SR_AUTOMORPH_EVAL r.address a.address with k := some k }
        COPY_MODULUS_VALUE)) fun _ =>
        .bind (.remember _ _) fun _ => .bind (.remember _ _) fun _ => .pure r
  | sr_automorph_coeff k =>
    exact Records.derived a _ q fun d =>
      .indexed { ir .FH_SR_AUTOMORPH_COEFF d a.address with k := some k } q
  | sr_rot_automorph_coeff offset =>
    exact Records.derived a _ q fun d =>
      .indexed { ir .FH_SR_ROT_AUTOMORPH_COEFF d a.address with offset := some offset } q

theorem Unbound.records (f : Unbound) (a : Polynomial) : Records (f.call a) := by
  have hun : ∀ op fmt, Records (sr_unbound a fmt fun d => emit_un_ni op d a.address) :=
    fun op fmt => Records.unbound a fmt fun d => .bare (ir op d a.address)
  cases f with
  | sr_negp_ni => exact hun _ _
  | sr_ft => exact hun _ _
  | sr_ift => exact hun _ _
  | sr_automorph_eval k =>
    exact Records.unbound a _ fun d =>
      .indexed { ir .FH_SR_AUTOMORPH_EVAL d a.address with k := some k } COPY_MODULUS_VALUE
  | sr_coeff_assign => exact .make_result a a.fmt
  | sr_torus_mod_reduce => exact .make_result a a.fmt

theorem PolyPolyNi.records (f : PolyPolyNi) (a b : Polynomial) : Records (f.call a b) := by
  have hpp : ∀ op, Records (sr_pp_ni op a b) :=
    fun op => Records.unbound a _ fun d => .bare { ir op d a.address with src2 := UInt32.ofNat b.address }
  cases f with
  | sr_addp_ni => exact hpp _
  | sr_subp_ni => exact hpp _
  | sr_mulp_ni => exact hpp _

theorem PolyScalarNi.records (f : PolyScalarNi) (a : Polynomial) (v : UInt64) : Records (f.call a v) := by
  have hps : ∀ op fmt, Records (sr_ps_ni op a fmt v) :=
    fun op fmt => Records.unbound a fmt fun d => .bare { ir op d a.address with fp_immediate := some v }
  cases f with
  | sr_addps_ni => exact hps _ _
  | sr_addps_coeff_ni => exact hps _ _
  | sr_subps_ni => exact hps _ _
  | sr_subps_coeff_ni => exact hps _ _
  | sr_mulps_ni => exact hps _ _

/-- The input that a call tags, if any. -/
def ApiCall.inputTag (polys : List Polynomial) : ApiCall → Option RegistryEntry
  | tag_input name t => (t.resolve polys).map (⟨name, ·⟩)
  | _ => none

/-- The output that a call tags, if any. -/
def ApiCall.outputTag (polys : List Polynomial) : ApiCall → Option RegistryEntry
  | tag_output name t => (t.resolve polys).map (⟨name, ·⟩)
  | _ => none

/-- What a call does beyond the steps of `Records`: it puts down a tag. -/
inductive Tags : Option RegistryEntry → Option RegistryEntry → Api Handed → Prop
  | input (name : Str) (t : Tagged) : Tags (some ⟨name, t⟩) none (gives_nothing (tag_input name t))
  | output (name : Str) (t : Tagged) : Tags none (some ⟨name, t⟩) (gives_nothing (tag_output name t))

/-- A call that names what the program does not hold tags nothing. -/
theorem ApiCall.tags_of_none {polys : List Polynomial} {scalars : List HeldScalar} {c : ApiCall}
    (h : c.call polys scalars = none) : c.inputTag polys = none ∧ c.outputTag polys = none := by
  cases c with
  | tag_input name t =>
    have ht : t.resolve polys = none := Option.map_eq_none_iff.mp h
    exact ⟨Option.map_eq_none_iff.mpr ht, rfl⟩
  | tag_output name t =>
    have ht : t.resolve polys = none := Option.map_eq_none_iff.mp h
    exact ⟨rfl, Option.map_eq_none_iff.mpr ht⟩
  | _ => exact ⟨rfl, rfl⟩

/-- **Every call records and tags nothing, or puts down its tag.** -/
theorem ApiCall.records_or_tags {polys : List Polynomial} {scalars : List HeldScalar} {c : ApiCall}
    {call : Api Handed} (h : c.call polys scalars = some call) :
    (Records call ∧ c.inputTag polys = none ∧ c.outputTag polys = none) ∨
      Tags (c.inputTag polys) (c.outputTag polys) call := by
  have quiet : ∀ {call : Api Handed} {i o : Option RegistryEntry}, Records call → i = none → o = none →
      (Records call ∧ i = none ∧ o = none) ∨ Tags i o call := fun h hi ho => .inl ⟨h, hi, ho⟩
  have hpoly : ∀ {x : Api Polynomial}, Records x → Records (gives_poly x) :=
    fun hx => .bind hx fun _ => .pure _
  have hscalar : ∀ {x : Api Scalar} (v : UInt64), Records x → Records (gives_scalar x v) :=
    fun _ hx => .bind hx fun _ => .pure _
  have hmade : ∀ value, Records (Scalar.from_int value) := fun _ => .bind .alloc fun _ => .pure _
  cases c with
  | zeros ring_dim fmt => exact quiet (Option.some.inj h ▸ hpoly (.zeros _ _)) rfl rfl
  | zeros_ni ring_dim fmt => exact quiet (Option.some.inj h ▸ hpoly (.zeros_ni _ _)) rfl rfl
  | from_data components ring_dim fmt =>
    exact quiet (Option.some.inj h ▸ hpoly (.bind .alloc fun _ => .pure _)) rfl rfl
  | from_int value => exact quiet (Option.some.inj h ▸ hscalar _ (hmade _)) rfl rfl
  | from_double value => exact quiet (Option.some.inj h ▸ hscalar _ (.bind .alloc fun _ => .pure _)) rfl rfl
  | bind_modulus p q =>
    obtain ⟨p, -, rfl⟩ := Option.map_eq_some_iff.mp h
    exact quiet (.bind (.remember _ _) fun _ => .pure _) rfl rfl
  | tag_input name t =>
    obtain ⟨t', ht, rfl⟩ := Option.map_eq_some_iff.mp h
    have hin : (tag_input name t).inputTag polys = some ⟨name, t'⟩ :=
      Option.map_eq_some_iff.mpr ⟨t', ht, rfl⟩
    exact .inr (hin ▸ .input name t')
  | tag_output name t =>
    obtain ⟨t', ht, rfl⟩ := Option.map_eq_some_iff.mp h
    have hout : (tag_output name t).outputTag polys = some ⟨name, t'⟩ :=
      Option.map_eq_some_iff.mpr ⟨t', ht, rfl⟩
    exact .inr (hout ▸ .output name t')
  | pp f a b q =>
    obtain ⟨a, -, h⟩ := Option.bind_eq_some_iff.mp h
    obtain ⟨b, -, rfl⟩ := Option.map_eq_some_iff.mp h
    exact quiet (hpoly (f.records a b q)) rfl rfl
  | ps f a s q =>
    obtain ⟨a, -, h⟩ := Option.bind_eq_some_iff.mp h
    obtain ⟨s, -, rfl⟩ := Option.map_eq_some_iff.mp h
    exact quiet (hpoly (f.records a s.1 q)) rfl rfl
  | un f a q =>
    obtain ⟨a, -, rfl⟩ := Option.map_eq_some_iff.mp h
    exact quiet (hpoly (f.records a q)) rfl rfl
  | unbound f a =>
    obtain ⟨a, -, rfl⟩ := Option.map_eq_some_iff.mp h
    exact quiet (hpoly (f.records a)) rfl rfl
  | pp_ni f a b =>
    obtain ⟨a, -, h⟩ := Option.bind_eq_some_iff.mp h
    obtain ⟨b, -, rfl⟩ := Option.map_eq_some_iff.mp h
    exact quiet (hpoly (f.records a b)) rfl rfl
  | ps_ni f a s =>
    obtain ⟨a, -, h⟩ := Option.bind_eq_some_iff.mp h
    obtain ⟨s, -, rfl⟩ := Option.map_eq_some_iff.mp h
    exact quiet (hpoly (f.records a s.2)) rfl rfl
  | sr_coeff_extract => exact quiet (Option.some.inj h ▸ hscalar _ (hmade _)) rfl rfl
  | halt => exact quiet (Option.some.inj h ▸ .bind (.emit (.bare (ir .FH_HALT 0 0))) fun _ => .pure _) rfl rfl

/-! ## Moduli -/

/-- A modulus is remembered for its address, and none is forgotten. -/
theorem Session.remember_modulus_isSome (s : Session) (a : ℕ) (q : UInt64) (b : ℕ) :
    ((s.remember_modulus a q).address_modulus_map b).isSome ↔
      b = a ∨ (s.address_modulus_map b).isSome := by
  have hupdate : (Function.update s.address_modulus_map a (some q) b).isSome ↔
      b = a ∨ (s.address_modulus_map b).isSome := by
    by_cases hb : b = a
    · rw [hb, Function.update_self]
      simp
    · rw [Function.update_of_ne hb]
      simp [hb]
  unfold Session.remember_modulus
  split
  · exact hupdate
  · rename_i q₀ hsome
    split
    · exact hupdate
    · refine ⟨Or.inr, fun h => ?_⟩
      rcases h with rfl | h
      · rw [hsome]
        rfl
      · exact h

/-- Recording forgets no modulus. -/
theorem Records.known {α : Type} {call : Api α} (h : Records call) (b : ℕ) :
    ∀ {s s' : Session} {a : α}, call s = some (a, s') →
      (s.address_modulus_map b).isSome → (s'.address_modulus_map b).isSome := by
  induction h with
  | pure a =>
    rintro s s' a' hrun hb
    obtain rfl := (Prod.mk.inj (Option.some.inj hrun)).2
    exact hb
  | alloc =>
    rintro s s' a' hrun hb
    obtain rfl := (Prod.mk.inj (Option.some.inj hrun)).2
    exact hb
  | remember a q =>
    rintro s s' a' hrun hb
    obtain rfl := (Prod.mk.inj (Option.some.inj hrun)).2
    exact (s.remember_modulus_isSome a q b).mpr (Or.inr hb)
  | emit e =>
    rintro s s' a' hrun hb
    obtain rfl := (Prod.mk.inj (Option.some.inj hrun)).2
    exact hb
  | require omega ring_dim q =>
    rintro s s' a' hrun hb
    unfold require_ntt_root at hrun
    split at hrun
    · obtain rfl := (Prod.mk.inj (Option.some.inj hrun)).2
      exact hb
    · exact absurd hrun (by simp)
  | @bind α β x f _ _ ihx ihf =>
    rintro s s' a' hrun hb
    obtain ⟨⟨a, s₁⟩, hx, hf⟩ := Option.bind_eq_some_iff.mp hrun
    exact ihf a hf (ihx hx hb)

/-! ## Registries -/

/-- Recording leaves both registries alone. -/
theorem Records.registries {α : Type} {call : Api α} (h : Records call) :
    ∀ {s s' : Session} {a : α}, call s = some (a, s') →
      s'.input_registry = s.input_registry ∧ s'.probe_registry = s.probe_registry := by
  induction h with
  | pure a =>
    rintro s s' b hrun
    obtain rfl := (Prod.mk.inj (Option.some.inj hrun)).2
    exact ⟨rfl, rfl⟩
  | alloc =>
    rintro s s' b hrun
    obtain rfl := (Prod.mk.inj (Option.some.inj hrun)).2
    exact ⟨rfl, rfl⟩
  | remember a q =>
    rintro s s' b hrun
    obtain rfl := (Prod.mk.inj (Option.some.inj hrun)).2
    rw [Session.remember_modulus_frame]
    exact ⟨rfl, rfl⟩
  | emit e =>
    rintro s s' b hrun
    obtain rfl := (Prod.mk.inj (Option.some.inj hrun)).2
    exact ⟨rfl, rfl⟩
  | require omega ring_dim q =>
    rintro s s' b hrun
    unfold require_ntt_root at hrun
    split at hrun
    · obtain rfl := (Prod.mk.inj (Option.some.inj hrun)).2
      exact ⟨rfl, rfl⟩
    · exact absurd hrun (by simp)
  | @bind α β x f _ _ ihx ihf =>
    rintro s s' b hrun
    obtain ⟨⟨a, s₁⟩, hx, hf⟩ := Option.bind_eq_some_iff.mp hrun
    obtain ⟨hin, hout⟩ := ihx hx
    obtain ⟨hin', hout'⟩ := ihf a hf
    exact ⟨hin'.trans hin, hout'.trans hout⟩

namespace Host

variable (h : Host)

/-- A call of the API reaches the session only. -/
theorem api_frame (c : ApiCall) : (h.api c).compiler =
    { h.compiler with session := (h.api c).compiler.session } := by
  unfold api
  split
  · rfl
  · split
    · rfl
    · rfl

/-- A call puts its tag behind the others. -/
theorem api_registries (c : ApiCall) :
    (h.api c).compiler.session.input_registry =
        h.compiler.session.input_registry ++ (c.inputTag h.polys).toList ∧
      (h.api c).compiler.session.probe_registry =
        h.compiler.session.probe_registry ++ (c.outputTag h.polys).toList := by
  have hquiet : ∀ {i o : Option RegistryEntry} {s : Session}, i = none → o = none →
      s.input_registry = h.compiler.session.input_registry →
      s.probe_registry = h.compiler.session.probe_registry →
      s.input_registry = h.compiler.session.input_registry ++ i.toList ∧
        s.probe_registry = h.compiler.session.probe_registry ++ o.toList := by
    rintro _ _ s rfl rfl hin hout
    exact ⟨hin.trans (List.append_nil _).symm, hout.trans (List.append_nil _).symm⟩
  unfold api
  rcases hcall : c.call h.polys h.scalars with _ | call
  · obtain ⟨hin, hout⟩ := ApiCall.tags_of_none hcall
    exact hquiet hin hout rfl rfl
  · rcases ApiCall.records_or_tags hcall with ⟨hrecords, hin, hout⟩ | htags
    · dsimp only
      rcases hrun : call h.compiler.session with _ | ⟨given, s⟩
      · exact hquiet hin hout rfl rfl
      · obtain ⟨hin', hout'⟩ := hrecords.registries hrun
        exact hquiet hin hout hin' hout'
    · generalize c.inputTag h.polys = i at htags ⊢
      generalize c.outputTag h.polys = o at htags ⊢
      rcases htags with ⟨name, t⟩ | ⟨name, t⟩
      · exact ⟨rfl, (List.append_nil _).symm⟩
      · exact ⟨(List.append_nil _).symm, rfl⟩

/-- A call forgets no modulus. -/
theorem api_known (c : ApiCall) (b : ℕ) (hb : (h.compiler.session.address_modulus_map b).isSome) :
    ((h.api c).compiler.session.address_modulus_map b).isSome := by
  unfold api
  rcases hcall : c.call h.polys h.scalars with _ | call
  · exact hb
  · dsimp only
    rcases hrun : call h.compiler.session with _ | ⟨given, s⟩
    · exact hb
    · rcases ApiCall.records_or_tags hcall with ⟨hrecords, -, -⟩ | htags
      · exact hrecords.known b hrun hb
      · generalize c.inputTag h.polys = i at htags
        generalize c.outputTag h.polys = o at htags
        rcases htags with ⟨name, t⟩ | ⟨name, t⟩
        · obtain rfl := (Prod.mk.inj (Option.some.inj hrun)).2
          exact hb
        · obtain rfl := (Prod.mk.inj (Option.some.inj hrun)).2
          exact hb

end Host

end Fhetch
