/-
The OpenFHE probes (`src/probes.cpp`): the calls that the instrumented library
makes while it computes, and the trace they leave.

A polynomial is known by its id, and a trace address is found for it the first
time a recorded call mentions it. Addresses come from a pool of recycled ones or
from a counter. Every call holds the probe mutex while it changes anything, so a
call is one step here; the flag of a serialization thread is that of the thread
whose call comes next. Ids and addresses are `uintptr_t`.
-/
import Fhetch.TraceWriter
import Fhetch.Lib.Text
import Mathlib.Algebra.Group.Nat.Defs

set_option autoImplicit false

namespace Fhetch

open Lib

/-! ## Addresses -/

/-- The maps behind `map_address`, and the reference counts that recycle an address. -/
structure AddressAllocator where
  /-- `g_address_map`. -/
  address_map : ℕ → Option ℕ := fun _ => none
  /-- `g_next_fhetch_addr`: address 0 is a sentinel. -/
  next_fhetch_addr : ℕ := 1
  /-- `g_compact_free_pool`, its back first. -/
  compact_free_pool : List ℕ := []
  /-- `g_pinned_openfhe_ids`. -/
  pinned_openfhe_ids : List ℕ := []
  /-- `g_refcount`. -/
  refcount : ℕ → Option ℤ := fun _ => none

namespace AddressAllocator

variable (s : AddressAllocator)

/-- `g_next_fhetch_addr++`. -/
def fresh : ℕ × AddressAllocator :=
  (s.next_fhetch_addr, { s with next_fhetch_addr := (s.next_fhetch_addr + 1) % 2 ^ 64 })

/-- The address for an id that has none yet: a pinned id takes a fresh one. -/
def take (openfhe_id : ℕ) : ℕ × AddressAllocator :=
  match s.compact_free_pool with
  | addr :: pool =>
    if openfhe_id ∈ s.pinned_openfhe_ids then s.fresh else (addr, { s with compact_free_pool := pool })
  | [] => s.fresh

def map_address (openfhe_id : ℕ) : ℕ × AddressAllocator :=
  match s.address_map openfhe_id with
  | some addr => (addr, s)
  | none =>
    let (addr, s) := s.take openfhe_id
    (addr, { s with address_map := Function.update s.address_map openfhe_id (some addr) })

/-- `g_pinned_openfhe_ids.insert`. -/
def pin (openfhe_id : ℕ) : AddressAllocator :=
  { s with pinned_openfhe_ids := s.pinned_openfhe_ids.insert openfhe_id }

/-- `g_refcount.emplace(poly_id, 1)`, which leaves an entry that is there. -/
def construct (poly_id : ℕ) : AddressAllocator :=
  { s with refcount := Function.update s.refcount poly_id (some ((s.refcount poly_id).getD 1)) }

/-- `g_address_map[dst_id] = src_addr`. -/
def assign (dst_id addr : ℕ) : AddressAllocator :=
  { s with address_map := Function.update s.address_map dst_id (some addr) }

/-- `++g_refcount[src]`. -/
def retain (src : ℕ) : AddressAllocator :=
  { s with refcount := Function.update s.refcount src (some ((s.refcount src).getD 0 + 1)) }

/-- The address that losing a reference recycles: that of an id on its last one,
mapped and not pinned. -/
def recycled (dst_old : ℕ) : Option ℕ :=
  if s.refcount dst_old = some 1 ∧ dst_old ∉ s.pinned_openfhe_ids then s.address_map dst_old else none

/-- `dst_old` loses a reference. -/
def release (dst_old : ℕ) : AddressAllocator :=
  match s.refcount dst_old with
  | none => s
  | some count =>
    if count - 1 = 0 then
      let s := { s with refcount := Function.update s.refcount dst_old none }
      if dst_old ∈ s.pinned_openfhe_ids then s
      else match s.address_map dst_old with
        | none => s
        | some addr => { s with
            compact_free_pool := addr :: s.compact_free_pool
            address_map := Function.update s.address_map dst_old none }
    else { s with refcount := Function.update s.refcount dst_old (some (count - 1)) }

/-- The scratch address of `openfhe_cprobe_multacceq`, back in the pool after the
product has been added. -/
def scratch : ℕ × AddressAllocator :=
  match s.compact_free_pool with
  | tmp :: _ => (tmp, s)
  | [] =>
    let (tmp, s) := s.fresh
    (tmp, { s with compact_free_pool := [tmp] })

def reserve_fhetch_addresses (next_addr : UInt64) : AddressAllocator :=
  { s with next_fhetch_addr := max next_addr.toNat s.next_fhetch_addr }

end AddressAllocator

/-! ## The probe layer -/

structure Probes extends AddressAllocator where
  /-- `g_data_parent`: which address a copy was made from. -/
  data_parent : ℕ → Option ℕ := fun _ => none
  suppressed : Bool := false
  /-- Whether the thread of the next call is a serialization thread. -/
  serialization_thread : Bool := false
  /-- `running_p()` of the compiler. -/
  running : Bool := false
  writer : TraceWriter := {}

namespace Probes

variable (p : Probes)

/-- The gate of every side effect. -/
def should_record : Bool := p.running && !p.suppressed && !p.serialization_thread

def map_address (openfhe_id : ℕ) : ℕ × Probes :=
  let (addr, s) := p.toAddressAllocator.map_address openfhe_id
  (addr, { p with toAddressAllocator := s })

/-- What a call hands to the trace writer. -/
def recording (f : TraceWriter → TraceWriter) : Probes := { p with writer := f p.writer }

/-- An in-place source is read from the address that the destination was copied
from. -/
def resolve_inplace_src (src_addr dst_addr : ℕ) : ℕ :=
  if src_addr = dst_addr then (p.data_parent src_addr).getD src_addr else src_addr

def invalidate_clone_parent_on_write (dst_addr : ℕ) : Probes :=
  { p with data_parent := Function.update p.data_parent dst_addr none }

/-! ### Recording control -/

/-- `Compiler::start`. The address map outlives it. -/
def start : Probes :=
  if p.running then p else { p with running := true, writer := p.writer.clear.start_recording }

/-- `Compiler::stop`, which writes the trace out and normalizes it for that. -/
def stop : Probes :=
  if p.running then
    { p with running := false, writer :=
        ((p.writer.emit (ir .FH_HALT 0 0)).stop_recording).normalize_modulus_table }
  else p

def openfhe_cprobe_pause_recording : Probes :=
  if p.running then p.recording TraceWriter.pause_recording else p

def openfhe_cprobe_resume_recording : Probes :=
  if p.running then p.recording TraceWriter.resume_recording else p

def openfhe_cprobe_annotate ( annotation : Str) : Probes :=
  if p.should_record then p.recording (·.comment annotation) else p

def openfhe_suppress_probes (suppress : Bool) : Probes := { p with suppressed := suppress }

def openfhe_cprobe_set_serialization_thread (is_serialization : Bool) : Probes :=
  { p with serialization_thread := is_serialization }

/-! ### Identity -/

def openfhe_cprobe_id (poly_id : ℕ) : Probes :=
  { p with toAddressAllocator := p.construct poly_id }

/-- What the probes do that only see to it that a polynomial has an address. -/
def mention (poly_id : ℕ) : Probes := if p.should_record then (p.map_address poly_id).2 else p

def openfhe_cprobe_address (poly_id : ℕ) : Probes := p.mention poly_id

def openfhe_cprobe_result (poly_id : ℕ) : Probes := p.mention poly_id

def openfhe_cprobe_max (poly_id : ℕ) : Probes := p.mention poly_id

def openfhe_cprobe_input (poly_id : ℕ) : Probes := p.mention poly_id

def openfhe_cprobe_output (poly_id : ℕ) : Probes := p.mention poly_id

def openfhe_cprobe_key (poly_id : ℕ) : Probes := p.mention poly_id

def pin_openfhe_id (poly_id : ℕ) : Probes := { p with toAddressAllocator := p.pin poly_id }

/-- The four random distributions: the data cannot be made again, so the id is
pinned. -/
def sampled (poly_id : ℕ) : Probes := (p.pin_openfhe_id poly_id).mention poly_id

def openfhe_cprobe_discrete_gaussian (poly_id : ℕ) : Probes := p.sampled poly_id

def openfhe_cprobe_discrete_uniform (poly_id : ℕ) : Probes := p.sampled poly_id

def openfhe_cprobe_binary_uniform (poly_id : ℕ) : Probes := p.sampled poly_id

def openfhe_cprobe_ternary_uniform (poly_id : ℕ) : Probes := p.sampled poly_id

/-- Pins outside a recording too, and leaves the address to whoever uses the
polynomial first. -/
def openfhe_cprobe_precompute (poly_id : ℕ) : Probes := p.pin_openfhe_id poly_id

def ensure_fhetch_address (openfhe_poly_id : ℕ) : Probes := (p.map_address openfhe_poly_id).2

def reserve_fhetch_addresses (next_addr : UInt64) : Probes :=
  { p with toAddressAllocator := p.toAddressAllocator.reserve_fhetch_addresses next_addr }

/-! ### Lifecycle -/

def openfhe_cprobe_zero (poly_id : ℕ) (modulus : UInt64) : Probes :=
  if p.should_record then
    let (a, p) := p.map_address poly_id
    let p := p.recording fun tw =>
      if modulus ≠ 0 then emit_ps .FH_SR_MULPS a a 0 modulus tw
      else emit_ps_idx .FH_SR_MULPS a a 0 COPY_MODULUS_INDEX tw
    p.invalidate_clone_parent_on_write a
  else p

def openfhe_cprobe_copy (dst_id src_id : ℕ) : Probes :=
  if p.should_record then
    let (src_addr, p) := p.map_address src_id
    let (dst_addr, p) := p.map_address dst_id
    let p := { p with data_parent := Function.update p.data_parent dst_addr (some src_addr) }
    p.recording (emit_ps_idx .FH_SR_ADDPS dst_addr src_addr 0 COPY_MODULUS_INDEX)
  else p

def openfhe_cprobe_move (dst_id src_id : ℕ) : Probes :=
  if p.should_record then
    let (src_addr, p) := p.map_address src_id
    { p with toAddressAllocator := p.assign dst_id src_addr }
  else p

/-- Runs whether or not anything is recorded. The link of a recycled address goes
with it. -/
def openfhe_cprobe_reassign_id (dst_old src : ℕ) : Probes :=
  let p := { p with toAddressAllocator := p.retain src }
  match p.recycled dst_old with
  | some addr =>
    { p with
      toAddressAllocator := p.release dst_old
      data_parent := Function.update p.data_parent addr none }
  | none => { p with toAddressAllocator := p.release dst_old }

/-! ### Arithmetic -/

/-- A call with two sources. -/
def arithmetic (op : FhOpcode) (dst src1 src2 : ℕ) (modulus : UInt64) : Probes :=
  if p.should_record then
    let (da, p) := p.map_address dst
    let (a1, p) := p.map_address src1
    let s1 := p.resolve_inplace_src a1 da
    let (s2, p) := p.map_address src2
    let p := p.recording (emit_pp op da s1 s2 modulus)
    p.invalidate_clone_parent_on_write da
  else p

def openfhe_cprobe_add (dst src1 src2 : ℕ) (modulus : UInt64) : Probes :=
  p.arithmetic .FH_SR_ADDP dst src1 src2 modulus

def openfhe_cprobe_sub (dst src1 src2 : ℕ) (modulus : UInt64) : Probes :=
  p.arithmetic .FH_SR_SUBP dst src1 src2 modulus

def openfhe_cprobe_mul (dst src1 src2 : ℕ) (modulus : UInt64) : Probes :=
  p.arithmetic .FH_SR_MULP dst src1 src2 modulus

/-- A call with one source, whose in-place reading is resolved; the rest of the
instruction is the call's own. -/
def inplace (dst src : ℕ) (emit : ℕ → ℕ → TraceWriter → TraceWriter) : Probes :=
  if p.should_record then
    let (da, p) := p.map_address dst
    let (a, p) := p.map_address src
    let sa := p.resolve_inplace_src a da
    let p := p.recording (emit da sa)
    p.invalidate_clone_parent_on_write da
  else p

def openfhe_cprobe_addi (dst src : ℕ) (immediate modulus : UInt64) : Probes :=
  p.inplace dst src fun da sa => emit_ps .FH_SR_ADDPS da sa immediate modulus

def openfhe_cprobe_subi (dst src : ℕ) (immediate modulus : UInt64) : Probes :=
  p.inplace dst src fun da sa => emit_ps .FH_SR_SUBPS da sa immediate modulus

def openfhe_cprobe_muli (dst src : ℕ) (immediate modulus : UInt64) : Probes :=
  p.inplace dst src fun da sa => emit_ps .FH_SR_MULPS da sa immediate modulus

def openfhe_cprobe_ntt (dst src : ℕ) (modulus omega : UInt64) : Probes :=
  p.inplace dst src fun da sa => emit_ntt .FH_SR_NTT da sa modulus (some omega)

def openfhe_cprobe_intt (dst src : ℕ) (modulus omega : UInt64) : Probes :=
  p.inplace dst src fun da sa => emit_ntt .FH_SR_INTT da sa modulus (some omega)

def openfhe_cprobe_automorphism (dst src : ℕ) (modulus mask logn k : UInt64) : Probes :=
  p.inplace dst src fun da sa => emit_mod { ir .FH_SR_AUTOMORPH_EVAL da sa with
    mask := some mask, logn := some logn.toUInt8, k := some k } modulus

/-- `dst = src_acc + src_mul * immediate`, the product at an address of its own
because `dst` usually is `src_acc`. -/
def openfhe_cprobe_multacceq (dst src_acc src_mul : ℕ) (immediate modulus : UInt64) : Probes :=
  if p.should_record then
    let immediate := if modulus ≠ 0 then immediate % modulus else immediate
    let (da, p) := p.map_address dst
    let (a, p) := p.map_address src_acc
    let acc := p.resolve_inplace_src a da
    let (sm, p) := p.map_address src_mul
    let (tmp, s) := p.toAddressAllocator.scratch
    let p := { p with toAddressAllocator := s }
    let p := p.recording (emit_ps .FH_SR_MULPS tmp sm immediate modulus)
    let p := p.recording (emit_pp .FH_SR_ADDP da acc tmp modulus)
    p.invalidate_clone_parent_on_write da
  else p

/-- `(old_modulus - 1) / 2`. -/
def half_om (old_modulus : UInt64) : UInt64 := (old_modulus - 1) >>> 1

/-- Its negative under the new modulus. -/
def neg_half (old_modulus new_modulus : UInt64) : UInt64 :=
  let x := half_om old_modulus % new_modulus
  if x = 0 then 0 else new_modulus - x

/-- Expands to muli, addi, muli, addi, three of them in place and none of them
resolved. -/
def openfhe_cprobe_switchmodulus (dst src : ℕ) (old_modulus new_modulus : UInt64) : Probes :=
  if p.should_record then
    let (d, p) := p.map_address dst
    let (s, p) := p.map_address src
    let p := p.recording (·.comment (str "switchmodulus %" ++ decimal d ++ str ", %" ++ decimal s ++
      str ", old_mod=" ++ decimal old_modulus.toNat ++ str ", new_mod=" ++ decimal new_modulus.toNat))
    let p := p.recording (emit_ps .FH_SR_MULPS d s 1 old_modulus)
    let p := p.recording (emit_ps .FH_SR_ADDPS d d (half_om old_modulus) old_modulus)
    let p := p.recording (emit_ps .FH_SR_MULPS d d 1 new_modulus)
    let p := p.recording (emit_ps .FH_SR_ADDPS d d (neg_half old_modulus new_modulus) new_modulus)
    p.invalidate_clone_parent_on_write d
  else p

end Probes

/-! ## Calls -/

/-- The calls that reach the probe layer. `openfhe_cprobe_free`,
`openfhe_cprobe_execute` and `openfhe_cprobe_cache` do nothing. -/
inductive ProbeCall where
  | start
  | stop
  | pause_recording
  | resume_recording
  | annotate ( annotation : Str)
  | suppress_probes (suppress : Bool)
  | set_serialization_thread (is_serialization : Bool)
  | id (poly_id : ℕ)
  | address (poly_id : ℕ)
  | result (poly_id : ℕ)
  | max (poly_id : ℕ)
  | input (poly_id : ℕ)
  | output (poly_id : ℕ)
  | key (poly_id : ℕ)
  | discrete_gaussian (poly_id : ℕ)
  | discrete_uniform (poly_id : ℕ)
  | binary_uniform (poly_id : ℕ)
  | ternary_uniform (poly_id : ℕ)
  | precompute (poly_id : ℕ)
  | zero (poly_id : ℕ) (modulus : UInt64)
  | copy (dst_id src_id : ℕ)
  | move (dst_id src_id : ℕ)
  | reassign_id (dst_old src : ℕ)
  | add (dst src1 src2 : ℕ) (modulus : UInt64)
  | sub (dst src1 src2 : ℕ) (modulus : UInt64)
  | mul (dst src1 src2 : ℕ) (modulus : UInt64)
  | addi (dst src : ℕ) (immediate modulus : UInt64)
  | subi (dst src : ℕ) (immediate modulus : UInt64)
  | muli (dst src : ℕ) (immediate modulus : UInt64)
  | multacceq (dst src_acc src_mul : ℕ) (immediate modulus : UInt64)
  | ntt (dst src : ℕ) (modulus omega : UInt64)
  | intt (dst src : ℕ) (modulus omega : UInt64)
  | automorphism (dst src : ℕ) (modulus mask logn k : UInt64)
  | switchmodulus (dst src : ℕ) (old_modulus new_modulus : UInt64)
  | pin_openfhe_id (poly_id : ℕ)
  | ensure_fhetch_address (openfhe_poly_id : ℕ)
  | reserve_fhetch_addresses (next_addr : UInt64)

/-- One call. -/
def Probes.step (p : Probes) : ProbeCall → Probes
  | .start => p.start
  | .stop => p.stop
  | .pause_recording => p.openfhe_cprobe_pause_recording
  | .resume_recording => p.openfhe_cprobe_resume_recording
  | .annotate annotation => p.openfhe_cprobe_annotate annotation
  | .suppress_probes suppress => p.openfhe_suppress_probes suppress
  | .set_serialization_thread is => p.openfhe_cprobe_set_serialization_thread is
  | .id poly_id => p.openfhe_cprobe_id poly_id
  | .address poly_id => p.openfhe_cprobe_address poly_id
  | .result poly_id => p.openfhe_cprobe_result poly_id
  | .max poly_id => p.openfhe_cprobe_max poly_id
  | .input poly_id => p.openfhe_cprobe_input poly_id
  | .output poly_id => p.openfhe_cprobe_output poly_id
  | .key poly_id => p.openfhe_cprobe_key poly_id
  | .discrete_gaussian poly_id => p.openfhe_cprobe_discrete_gaussian poly_id
  | .discrete_uniform poly_id => p.openfhe_cprobe_discrete_uniform poly_id
  | .binary_uniform poly_id => p.openfhe_cprobe_binary_uniform poly_id
  | .ternary_uniform poly_id => p.openfhe_cprobe_ternary_uniform poly_id
  | .precompute poly_id => p.openfhe_cprobe_precompute poly_id
  | .zero poly_id modulus => p.openfhe_cprobe_zero poly_id modulus
  | .copy dst src => p.openfhe_cprobe_copy dst src
  | .move dst src => p.openfhe_cprobe_move dst src
  | .reassign_id dst_old src => p.openfhe_cprobe_reassign_id dst_old src
  | .add dst src1 src2 q => p.openfhe_cprobe_add dst src1 src2 q
  | .sub dst src1 src2 q => p.openfhe_cprobe_sub dst src1 src2 q
  | .mul dst src1 src2 q => p.openfhe_cprobe_mul dst src1 src2 q
  | .addi dst src imm q => p.openfhe_cprobe_addi dst src imm q
  | .subi dst src imm q => p.openfhe_cprobe_subi dst src imm q
  | .muli dst src imm q => p.openfhe_cprobe_muli dst src imm q
  | .multacceq dst acc mul imm q => p.openfhe_cprobe_multacceq dst acc mul imm q
  | .ntt dst src q omega => p.openfhe_cprobe_ntt dst src q omega
  | .intt dst src q omega => p.openfhe_cprobe_intt dst src q omega
  | .automorphism dst src q mask logn k => p.openfhe_cprobe_automorphism dst src q mask logn k
  | .switchmodulus dst src old new => p.openfhe_cprobe_switchmodulus dst src old new
  | .pin_openfhe_id poly_id => p.pin_openfhe_id poly_id
  | .ensure_fhetch_address poly_id => p.ensure_fhetch_address poly_id
  | .reserve_fhetch_addresses next => p.reserve_fhetch_addresses next

end Fhetch
