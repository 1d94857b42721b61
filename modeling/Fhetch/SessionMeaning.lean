/-
What a session replays to.

`stop` takes the registries of the recording over and closes the trace; `replay` stores
what was captured of the inputs, runs the trace, and reads the outputs back. With what
`Fhetch.DirectEvaluation` knows of a recording, the values it reports are those of the
calls, as long as every call found what is asked of it there.

The shipped example makes and tags its inputs before `start()`, which forgets the tags
and gives their addresses out again.
-/
import Fhetch.CacheHit
import Fhetch.DirectEvaluation

set_option autoImplicit false

namespace Fhetch

open Lib

/-! ## Stopping -/

/-- The captured outputs that `replay()` reports. -/
def Compiler.replay_outputs (c : Compiler) : List OutputRecord :=
  c.sync_fhetch_state_to_compiler.captured_outputs.map fun r => ⟨r.name, r.elements⟩

namespace Host

/-- The trace that is left when the recording stops. -/
def trace (h : Host) (now : UInt64) : Program := h.stop.compiler.session.writer.program now

/-- The first recording of a process, before anything is captured. -/
structure FirstRecording (h : Host) : Prop where
  running : h.compiler.running = true
  armed : h.compiler.g_synced_since_reset = false
  streaming : h.input_streaming = false
  inputs : h.compiler.captured_inputs = []
  outputs : h.compiler.captured_outputs = []

variable {h : Host}

theorem api_streaming (c : ApiCall) : (h.api c).input_streaming = h.input_streaming := by
  unfold api
  split
  · rfl
  · split
    · rfl
    · rfl

theorem FirstRecording.api (hh : h.FirstRecording) (c : ApiCall) : (h.api c).FirstRecording := by
  have hframe := h.api_frame c
  refine ⟨?_, ?_, ?_, ?_, ?_⟩
  · rw [hframe]
    exact hh.running
  · rw [hframe]
    exact hh.armed
  · rw [api_streaming]
    exact hh.streaming
  · rw [hframe]
    exact hh.inputs
  · rw [hframe]
    exact hh.outputs

/-- **What `stop` leaves**: the closed trace, and what the tags capture. -/
theorem FirstRecording.stop_compiler (hh : h.FirstRecording) : h.stop.compiler =
    { session := { h.compiler.session with
        writer := ((h.compiler.session.writer.emit { opcode := .FH_HALT }).stop_recording
          |>.normalize_modulus_table) }
      captured_inputs := sync_registry (Tagged.elements h.compiler.session.address_modulus_map)
        store_element h.compiler.session.input_registry []
      captured_outputs := sync_registry (Tagged.probes h.compiler.session.address_modulus_map)
        store_element h.compiler.session.probe_registry []
      g_synced_since_reset := true
      running := false } := by
  have hsync := h.sync_of_not_streaming hh.streaming
  unfold Compiler.sync_fhetch_state_to_compiler at hsync
  rw [if_neg (Bool.not_eq_true _ ▸ hh.armed), hh.inputs, hh.outputs] at hsync
  unfold Host.stop
  rw [if_pos hh.running]
  dsimp only
  rw [hsync]
  rfl

theorem FirstRecording.replay_inputs (hh : h.FirstRecording) : h.stop.compiler.replay_inputs =
    (sync_registry (Tagged.elements h.compiler.session.address_modulus_map) store_element
      h.compiler.session.input_registry []).map fun r => ⟨r.name, r.elements⟩ := by
  unfold Compiler.replay_inputs
  rw [hh.stop_compiler]
  rfl

theorem FirstRecording.replay_outputs (hh : h.FirstRecording) : h.stop.compiler.replay_outputs =
    (sync_registry (Tagged.probes h.compiler.session.address_modulus_map) store_element
      h.compiler.session.probe_registry []).map fun r => ⟨r.name, r.elements⟩ := by
  unfold Compiler.replay_outputs
  rw [hh.stop_compiler]
  rfl

/-- **The trace** is the instructions with their indices normalized, and a halt. -/
theorem FirstRecording.trace_eq (hh : h.FirstRecording) (now : UInt64)
    (hconsistent : h.compiler.session.writer.Consistent) (hkeeps : h.compiler.session.writer.keeps = true)
    (hsize : h.compiler.session.writer.modulus_table_.length ≤ 2 ^ 32) :
    (h.trace now).modulus_table = normalized h.compiler.session.writer.modulus_table_ ∧
      (h.trace now).instructions = h.compiler.session.writer.instructions_.map
        (TraceWriter.remap_instruction h.compiler.session.writer.modulus_table_) ++
          [{ opcode := .FH_HALT }] := by
  have hclosed : (h.compiler.session.writer.emit { opcode := .FH_HALT }).stop_recording.Consistent := by
    rw [TraceWriter.emit_eq, if_pos hkeeps]
    exact ⟨hconsistent.head, hconsistent.nodup, hconsistent.lookup⟩
  unfold trace
  rw [hh.stop_compiler]
  dsimp only
  rw [TraceWriter.normalize_eq hclosed ?_]
  · rw [TraceWriter.emit_eq, if_pos hkeeps]
    refine ⟨rfl, ?_⟩
    exact List.map_append
  · rw [TraceWriter.emit_eq, if_pos hkeeps]
    exact hsize

end Host

/-! ## What is captured -/

/-- Where every tag is of one polynomial, no name is taken by another kind. -/
theorem name_kind_of_srp {α : Type} {f : Tagged → List α} {registry : List RegistryEntry}
    (hkinds : ∀ e ∈ registry, e.tagged.kind = .SRP) {e : RegistryEntry} (he : e ∈ registry) {x : α}
    (hx : x ∈ f e.tagged) : name_kind f registry e.name = some .SRP := by
  obtain ⟨k, hk⟩ := Option.isSome_iff_exists.mp (name_kind_isSome he hx)
  rw [hk]
  obtain ⟨e', he', rfl⟩ := Option.map_eq_some_iff.mp hk
  rw [hkinds e' (List.mem_of_find?_eq_some he')]

/-- So a sync captures what each tag captures, -/
theorem mem_sync_registry {α : Type} {f : Tagged → List α} {registry : List RegistryEntry}
    (hkinds : ∀ e ∈ registry, e.tagged.kind = .SRP) {x : α} :
    x ∈ (sync_registry f store_element registry []).flatMap CapturedRecord.elements ↔
      ∃ e ∈ registry, x ∈ f e.tagged := by
  rw [(sync_registry_spec f registry).2 x]
  constructor
  · rintro ⟨e, he, -, hx⟩
    exact ⟨e, he, hx⟩
  · rintro ⟨e, he, hx⟩
    exact ⟨e, he, by rw [name_kind_of_srp hkinds he hx, hkinds e he], hx⟩

/-- and under its name. -/
theorem captured_under_name {α : Type} {f : Tagged → List α} {registry : List RegistryEntry}
    (hkinds : ∀ e ∈ registry, e.tagged.kind = .SRP) {e : RegistryEntry} (he : e ∈ registry) {x : α}
    (hx : x ∈ f e.tagged) :
    ∃ r ∈ sync_registry f store_element registry [], r.name = e.name ∧ x ∈ r.elements := by
  have hmem : x ∈ elementsUnder (sync_registry f store_element registry []) e.name := by
    rw [elementsUnder_sync_registry]
    apply List.mem_append_right
    refine List.mem_flatMap.mpr ⟨e, List.mem_filter.mpr ⟨he, decide_eq_true ⟨rfl, ?_⟩⟩, hx⟩
    rw [syncedKind, name_kind_of_srp hkinds he hx, hkinds e he]
    rfl
  unfold elementsUnder at hmem
  rcases hfind : (sync_registry f store_element registry []).find? (·.name = e.name) with - | r
  · rw [hfind] at hmem
    exact absurd hmem List.not_mem_nil
  · have hname := List.find?_some hfind
    rw [decide_eq_true_iff] at hname
    rw [hfind] at hmem
    exact ⟨r, List.mem_of_find?_eq_some hfind, hname, hmem⟩

namespace Evaluated

variable {N : ℕ} {early : List Polynomial} {tagged : ℕ → Prop} {s : Evaluated N} {ops : List ApiOp}

/-- The addresses with an input's tag. -/
def TaggedInput (s : Evaluated N) (a : ℕ) : Prop :=
  ∃ e ∈ s.host.compiler.session.input_registry, ∃ p, e.tagged = .POLY p ∧ p.address = a

/-- The data of the polynomial at an address. -/
def dataAt (s : Evaluated N) (a : ℕ) : Poly :=
  ((s.host.polys.find? (·.address = a)).map input_values).getD []

theorem Holding.dataAt (h : s.Holding early) {p : Polynomial} (hp : p ∈ s.host.polys) :
    s.dataAt p.address = input_values p := by
  have hsome : (s.host.polys.find? (·.address = p.address)).isSome :=
    List.find?_isSome.mpr ⟨p, hp, decide_eq_true rfl⟩
  obtain ⟨p', hp'⟩ := Option.isSome_iff_exists.mp hsome
  have haddress := List.find?_some hp'
  rw [decide_eq_true_iff] at haddress
  obtain ⟨x, hpx⟩ := h.mem_polys.mp hp
  obtain ⟨x', hpx'⟩ := h.mem_polys.mp (List.mem_of_find?_eq_some hp')
  have hsame := h.unique hpx' hpx haddress
  rw [Evaluated.dataAt, hp', (Prod.mk.inj hsame).1]
  rfl

theorem input_values_length {p : Polynomial} {x : Made N} (hp : p.HoldsData x) :
    (input_values p).length ≤ N := by
  rw [input_values, List.length_map]
  unfold data_or_zeros
  split
  · rw [List.length_replicate, hp.ring_dim]
  · exact hp.length

/-- What is loaded for an input is what the calls make it. -/
theorem resize_input_values {p : Polynomial} {x : Made N} (hp : p.HoldsData x)
    (hinput : x.computed = false) : resize (input_values p) N = List.ofFn x.value := by
  -- without data the reader of the file sees zeros
  have hdata : ∀ j, (input_values p).getD j 0 = (p.int_data.getD j 0).toNat := by
    intro j
    unfold input_values data_or_zeros
    split
    · rename_i hnone
      rw [hnone, List.map_replicate]
      by_cases hj : j < p.ring_dim
      · rw [List.getD_replicate _ hj]
        rfl
      · rw [List.getD_eq_default _ _ (by rw [List.length_replicate]; omega)]
        rfl
    · rw [List.getD_eq_getElem?_getD, List.getD_eq_getElem?_getD, List.getElem?_map]
      rcases p.int_data[j]? with - | v
      · rfl
      · rfl
  apply List.ext_getElem
  · rw [resize_length, List.length_ofFn]
  · intro j hj hj'
    rw [resize_length] at hj
    rw [List.getElem_ofFn, hp.value hinput ⟨j, hj⟩, ← hdata, ← List.getD_eq_getElem _ 0]
    rw [resize_of_le (input_values_length hp)]
    show _ = (input_values p).getD j 0
    -- short data is filled up with zeros
    by_cases hshort : j < (input_values p).length
    · rw [List.getD_append _ _ _ _ hshort]
    · rw [List.getD_append_right _ _ _ _ (by omega), List.getD_eq_default (input_values p) 0 (by omega),
        List.getD_replicate _ (by omega)]

/-- Every tag is of one polynomial. -/
theorem Recorded.kinds (h : s.Recorded early tagged ops) :
    (∀ e ∈ s.host.compiler.session.input_registry, e.tagged.kind = .SRP) ∧
      ∀ e ∈ s.host.compiler.session.probe_registry, e.tagged.kind = .SRP := by
  constructor
  · intro e he
    obtain ⟨px, -, heq⟩ := h.inputs e he
    rw [heq]
    rfl
  · intro e he
    obtain ⟨px, -, -, heq⟩ := h.probes e he
    rw [heq]
    rfl

/-- What `replay` stores are tagged polynomials of known modulus. -/
theorem Recorded.mem_replay_inputs (h : s.Recorded early tagged ops) (hh : s.host.FirstRecording)
    {e : CapturedElement} : e ∈ s.host.stop.compiler.replay_inputs.flatMap InputRecord.elements ↔
      ∃ entry ∈ s.host.compiler.session.input_registry,
        e ∈ entry.tagged.elements s.host.compiler.session.address_modulus_map := by
  rw [hh.replay_inputs, List.flatMap_map]
  exact mem_sync_registry h.kinds.1

/-- **What `replay` stores**: every input that an operation reads, and nothing that
does not fit. -/
theorem Recorded.store (h : s.Recorded early s.TaggedInput ops) (hh : s.host.FirstRecording)
    (p : Program) : ∃ m, store_captured (load_program (set_ring_dimension {} N) p).1
        (s.host.stop.compiler.replay_inputs.flatMap InputRecord.elements) =
          some ((load_program (set_ring_dimension {} N) p).1.withMemory m) ∧
      (∀ px ∈ s.held, px.2.computed = false → px.1.address ∈ ops.flatMap ApiOp.reads →
        m.Holds N px.1.address (List.ofFn px.2.value)) ∧
      ∀ a, m a = none ∨ ∃ values, m.Holds N a values := by
  -- each element carries the data of the polynomial at its address
  have hvalues : ∀ e ∈ s.host.stop.compiler.replay_inputs.flatMap InputRecord.elements,
      e.values = s.dataAt e.addr_id ∧ e.values.length ≤ N := by
    intro e he
    obtain ⟨entry, hentry, he⟩ := (h.mem_replay_inputs hh).mp he
    obtain ⟨⟨p, x⟩, hpx, hpoly⟩ := h.inputs entry hentry
    rw [hpoly] at he
    obtain ⟨q, -, rfl⟩ := mem_srp_elements.mp he
    exact ⟨(h.dataAt (h.mem_polys.mpr ⟨x, hpx⟩)).symm, input_values_length (h.data _ hpx)⟩
  obtain ⟨m, hstore, hin, hout⟩ := store_captured_values hvalues
    (load_program (set_ring_dimension {} N) p).1 rfl fun _ _ => .inl rfl
  refine ⟨m, hstore, ?_, fun a => ?_⟩
  · rintro ⟨p, x⟩ hpx hinput hread
    obtain ⟨op, hop, hread⟩ := List.mem_flatMap.mp hread
    obtain ⟨hknown, px', hpx', haddress, hgood⟩ := h.reads op hop _ hread
    -- an input that is read was tagged, hence captured
    rw [h.unique hpx' hpx haddress, hinput] at hgood
    obtain ⟨entry, hentry, p', hpoly, haddress'⟩ := hgood.resolve_left Bool.false_ne_true
    obtain ⟨q, hcaptured⟩ := srp_captures (p := p') (haddress'.symm ▸ hknown)
    have hmem : p.address ∈ (s.host.stop.compiler.replay_inputs.flatMap InputRecord.elements).map
        CapturedElement.addr_id := by
      refine List.mem_map.mpr ⟨captured_residue p' q, ?_, haddress'⟩
      exact (h.mem_replay_inputs hh).mpr ⟨entry, hentry, by rw [hpoly]; exact hcaptured⟩
    obtain ⟨q', hq'⟩ := hin _ hmem
    refine ⟨q', ?_⟩
    rw [hq', h.dataAt (h.mem_polys.mpr ⟨x, hpx⟩), resize_input_values (h.data _ hpx) hinput,
      resize_of_length List.length_ofFn]
  · by_cases hmem : a ∈ (s.host.stop.compiler.replay_inputs.flatMap InputRecord.elements).map
        CapturedElement.addr_id
    · exact .inr ⟨_, hin a hmem⟩
    · exact .inl (hout a hmem)

end Evaluated

/-! ## Replaying -/

section Loading

variable {impl : Impl} {N : ℕ}

/-- What was loaded has the length of the ring dimension. -/
theorem Impl.sized_of_holds (h : ∀ a, impl.memory a = none ∨ ∃ values, impl.memory.Holds impl.ring_dim a values) :
    impl.Sized := by
  intro a
  unfold Impl.get_or_zero Memory.is_initialized Memory.get
  rcases h a with hnone | ⟨values, q, hsome⟩
  · rw [hnone]
    exact List.length_replicate
  · rw [hsome]
    exact resize_length _ _

theorem Impl.coefficient_of_holds {a : ℕ} {f : Fin N → ℕ} (h : impl.memory.Holds N a (List.ofFn f))
    (j : Fin N) : impl.coefficient j a = f j := by
  obtain ⟨q, hq⟩ := h
  unfold Impl.coefficient Impl.get_or_zero Memory.is_initialized Memory.get
  rw [hq, resize_of_length List.length_ofFn]
  show (List.ofFn f).getD j 0 = f j
  rw [List.getD_eq_getElem _ _ (by rw [List.length_ofFn]; exact j.isLt), List.getElem_ofFn]

/-- What a replay reads back of an address that holds a value. -/
theorem replay_element_of {f : Simulator} {a : ℕ} (q : ℕ) {value : Fin N → ℕ} (hN : N ≠ 0)
    (hmemory : f.memory a = impl.memory a) (hinit : impl.memory.is_initialized a = true)
    (hsized : impl.Sized) (hdim : impl.ring_dim = N) (hvalue : ∀ j : Fin N, impl.coefficient j a = value j) :
    (replay_element f a q).addr_id = a ∧ (replay_element f a q).status = .computed ∧
      (replay_element f a q).values = List.ofFn value := by
  have hread : get_polynomial f a = impl.get_or_zero a := by
    rw [get_polynomial, Impl.get_or_zero, if_pos hinit, Memory.is_initialized, Memory.get, hmemory]
    exact if_pos hinit
  have hlist : get_polynomial f a = List.ofFn value := by
    rw [hread]
    apply List.ext_getElem
    · rw [hsized a, hdim, List.length_ofFn]
    · intro j hj hj'
      rw [List.getElem_ofFn, ← hvalue, Impl.coefficient, List.getD_eq_getElem _ _ hj]
  refine ⟨rfl, ?_, hlist⟩
  have hne : (List.ofFn value).isEmpty = false := by
    rw [List.isEmpty_eq_false_iff, Ne, ← List.length_eq_zero_iff, List.length_ofFn]
    exact hN
  show (if (get_polynomial f a).isEmpty then ElementStatus.missing else .computed) = _
  rw [hlist, hne]
  rfl

/-- An instruction of a recording is one of its calls'. -/
theorem exists_recorded {table : List UInt64} {ops : List ApiOp} {insts : List Instruction}
    (h : List.Forall₂ (ApiOp.RecordedAs table) ops insts) {inst : Instruction} (hinst : inst ∈ insts) :
    ∃ op ∈ ops, op.RecordedAs table inst := by
  obtain ⟨i, hi, rfl⟩ := List.mem_iff_getElem.mp hinst
  have hop : i < ops.length := h.length_eq ▸ hi
  exact ⟨ops[i], List.getElem_mem hop, h.get hop hi⟩

/-- A product with 0 reads nothing. -/
theorem mulps_reads {inst : Instruction} (h : inst.opcode = .FH_SR_MULPS) :
    (execUses inst).reads ⊆ [inst.src1.toNat] := by
  unfold execUses classify_uses
  rw [h]
  dsimp only
  split
  · exact List.nil_subset _
  · exact List.Subset.refl _

/-- What an instruction reads, its call reads. -/
theorem ApiOp.RecordedAs.execUses_reads {op : ApiOp} {table : List UInt64} {inst : Instruction}
    (h : op.RecordedAs table inst) (hop : op.Arithmetic) (hfits : op.Fits) {a : ℕ}
    (ha : a ∈ (execUses inst).reads) : a ∈ op.reads := by
  have hfit : ∀ a ∈ op.reads, (UInt32.ofNat a).toNat = a :=
    fun a ha => UInt32.toNat_ofNat_of_lt' (hfits.2 a ha)
  rw [h.frame] at ha
  cases op with
  | pp op form d a₁ a₂ q =>
    have hreads : (execUses { (ApiOp.pp op form d a₁ a₂ q).content with modulus := inst.modulus }).reads =
        [(UInt32.ofNat a₁).toNat, (UInt32.ofNat a₂).toNat] := by
      rcases hop.1 with rfl | rfl | rfl
      · rfl
      · rfl
      · rfl
    rw [hreads, hfit a₁ List.mem_cons_self,
      hfit a₂ (List.mem_cons_of_mem _ (List.mem_singleton_self a₂))] at ha
    exact ha
  | ps op form d a₁ imm q =>
    -- a product with zero reads nothing
    have hreads : (execUses { (ApiOp.ps op form d a₁ imm q).content with modulus := inst.modulus }).reads ⊆
        [(UInt32.ofNat a₁).toNat] := by
      rcases hop.1 with rfl | rfl | rfl
      · exact List.Subset.refl _
      · exact List.Subset.refl _
      · exact mulps_reads rfl
    rw [hfit a₁ List.mem_cons_self] at hreads
    exact hreads ha
  | un op form d a₁ q =>
    obtain ⟨rfl, -⟩ := hop
    have hreads : (execUses { (ApiOp.un .FH_SR_NEGP form d a₁ q).content with
        modulus := inst.modulus }).reads = [(UInt32.ofNat a₁).toNat] := rfl
    rw [hreads, hfit a₁ List.mem_cons_self] at ha
    exact ha
  | ntt | sr_automorph_eval | sr_automorph_coeff | sr_rot_automorph_coeff | halt | tag_output
  | pause | resume => exact hop.elim

/-- Arithmetic covers its buffer. -/
theorem ApiOp.RecordedAs.coversBuffer {op : ApiOp} {table : List UInt64} {inst : Instruction}
    (h : op.RecordedAs table inst) (hop : op.Arithmetic) (N : ℕ) : CoversBuffer N inst := by
  have hopcode : inst.opcode ≠ .FH_SR_AUTOMORPH_EVAL := by
    rw [h.frame]
    cases op with
    | pp op form d a₁ a₂ q =>
      rcases hop.1 with rfl | rfl | rfl
      · exact FhOpcode.noConfusion
      · exact FhOpcode.noConfusion
      · exact FhOpcode.noConfusion
    | ps op form d a₁ imm q =>
      rcases hop.1 with rfl | rfl | rfl
      · exact FhOpcode.noConfusion
      · exact FhOpcode.noConfusion
      · exact FhOpcode.noConfusion
    | un op form d a₁ q =>
      obtain ⟨rfl, -⟩ := hop
      exact FhOpcode.noConfusion
    | ntt | sr_automorph_eval | sr_automorph_coeff | sr_rot_automorph_coeff | halt | tag_output
    | pause | resume => exact hop.elim
  exact fun h => absurd h hopcode

end Loading

namespace Evaluated

variable {N : ℕ} {early : List Polynomial} {tagged : ℕ → Prop} {s : Evaluated N} {ops : List ApiOp}

/-- The addresses and the table are within what an instruction can hold of them. -/
def Fits (s : Evaluated N) : Prop :=
  (∀ p ∈ s.host.polys, p.address < 2 ^ 32) ∧
    s.host.compiler.session.writer.modulus_table_.length ≤ 2 ^ 32

/-- **A session computes what its calls say**: stopped and replayed, it has given each
result an address of its own, loads every input that an instruction reads, and reports
for every output what the calls make of the data. -/
structure ComputesItsCalls (M : NativeMath) (s : Evaluated N) (now : UInt64) : Prop where
  apart : ∀ (i j : ℕ) p p' x, s.host.polys[i]? = some p → s.host.polys[j]? = some p' → i ≠ j →
    s.made[i]? = some x → x.computed = true → p.address ≠ p'.address
  loaded : ∃ m, store_captured (load_program (set_ring_dimension {} N) (s.host.trace now)).1
      (s.host.stop.compiler.replay_inputs.flatMap InputRecord.elements) =
        some ((load_program (set_ring_dimension {} N) (s.host.trace now)).1.withMemory m) ∧
    ∀ px ∈ s.held, px.2.computed = false →
      (∃ inst ∈ (s.host.trace now).instructions, px.1.address ∈ (execUses inst).reads) →
      m.Holds N px.1.address (List.ofFn px.2.value)
  replayed : ∃ out, Compiler.replay M N (s.host.trace now) s.host.stop.compiler.replay_inputs []
      s.host.stop.compiler.replay_outputs = some (some out) ∧
    ∀ e ∈ s.host.compiler.session.probe_registry, ∀ px ∈ s.held, e.tagged = .POLY px.1 →
      ∃ o ∈ out, o.name = e.name ∧ ∃ r ∈ o.elements, r.addr_id = px.1.address ∧
        r.status = .computed ∧ r.values = List.ofFn px.2.value

/-- The trace is the operations', and a halt. -/
theorem Recorded.trace (h : s.Recorded early tagged ops) (hh : s.host.FirstRecording) (now : UInt64)
    (hsize : s.host.compiler.session.writer.modulus_table_.length ≤ 2 ^ 32) :
    ∃ insts, (s.host.trace now).instructions = insts ++ [{ opcode := .FH_HALT }] ∧
      List.Forall₂ (ApiOp.RecordedAs (s.host.trace now).modulus_table) ops insts := by
  obtain ⟨htable, hinsts⟩ := hh.trace_eq now h.consistent h.keeps hsize
  refine ⟨_, hinsts, ?_⟩
  rw [htable, List.forall₂_map_right_iff]
  exact (h.instructions hsize).imp fun _ _ hinst => hinst.normalize h.consistent hsize

theorem Recorded.op_fits (h : s.Recorded early tagged ops) (hfits : s.Fits) {op : ApiOp} (hop : op ∈ ops) :
    op.Fits := by
  have hlt : ∀ px ∈ s.held, px.1.address < 2 ^ 32 :=
    fun px hpx => hfits.1 px.1 (List.of_mem_zip hpx).1
  constructor
  · obtain ⟨px, hpx, -, haddress⟩ := h.dests op hop
    rw [← haddress]
    exact hlt px hpx
  · intro a ha
    obtain ⟨-, px, hpx, rfl, -⟩ := h.reads op hop a ha
    exact hlt px hpx

/-- The replay of a recording: it runs without an error, and what is an output has in
the end what the calls make of it. -/
theorem Recorded.runs {M : NativeMath} (hM : M.Exact) (hN : N ≠ 0)
    (h : s.Recorded early tagged ops) (hfits : s.Fits) {p : Program} {insts : List Instruction}
    (hinsts : p.instructions = insts ++ [{ opcode := .FH_HALT }])
    (hrec : List.Forall₂ (ApiOp.RecordedAs p.modulus_table) ops insts) {inputs : List InputRecord}
    {outputs : List OutputRecord} {m : Memory}
    (hstore : store_captured (load_program (set_ring_dimension {} N) p).1
      (inputs.flatMap InputRecord.elements) =
        some ((load_program (set_ring_dimension {} N) p).1.withMemory m))
    (hloaded : ∀ px ∈ s.held, px.2.computed = false → px.1.address ∈ ops.flatMap ApiOp.reads →
      m.Holds N px.1.address (List.ofFn px.2.value))
    (hholds : ∀ a, m a = none ∨ ∃ values, m.Holds N a values) :
    ∃ f, Compiler.replay M N p inputs [] outputs =
        some (some (Compiler.write_replay_outputs f outputs)) ∧
      ∀ px ∈ s.held, px.2.computed = true → px.1.address ∈ outputs.flatMap OutputRecord.addrs →
        ∀ q, (replay_element f px.1.address q).addr_id = px.1.address ∧
          (replay_element f px.1.address q).status = .computed ∧
          (replay_element f px.1.address q).values = List.ofFn px.2.value := by
  -- the replay starts from the captured values with the outputs kept live
  let sim := (set_live_out_addresses (load_program (set_ring_dimension {} N) p).1
    (outputs.flatMap OutputRecord.addrs)).withMemory m
  let impl : Impl := { sim.toImpl with error_count := 0 }
  have hsized : impl.Sized := Impl.sized_of_holds hholds
  obtain ⟨impl', hexec, herror, hsetup, hsized', hinit, hcoefficient⟩ := replay_calls hM hsized
    h.arithmetic (fun op hop => h.op_fits hfits hop) rfl hrec 0 0
  have hloop : execute_loop M [] p.instructions 0 impl 0 = some (impl', insts.length + 1) := by
    rw [hinsts, execute_loop_append, hexec, Option.bind_some, Nat.zero_add]
    rfl
  -- no instruction leaves part of a buffer as it was
  have hcovers : ∀ inst ∈ p.instructions, CoversBuffer N inst := by
    rw [hinsts]
    refine List.forall_mem_append.mpr ⟨fun inst hinst => ?_, List.forall_mem_singleton.mpr ?_⟩
    · obtain ⟨op, hop, hrecorded⟩ := exists_recorded hrec hinst
      exact hrecorded.coversBuffer (h.arithmetic op hop) N
    · exact FhOpcode.noConfusion
  obtain ⟨f, hrun, hkept⟩ := run_of_execute_loop (s := sim) hN hcovers hloop
  refine ⟨f, ?_, fun px hpx hcomputed hout q => ?_⟩
  · have hsome : p.instructions ≠ [] := by
      rw [hinsts]
      exact List.append_ne_nil_of_right_ne_nil _ (List.cons_ne_nil _ _)
    rw [Compiler.replay_stored hN hsome hstore]
    have hreplay : Fhetch.run M ((replaySimulator N p (outputs.flatMap OutputRecord.addrs)).withMemory m) =
      some (f, ⟨insts.length + 1, impl'.error_count⟩) := hrun
    rw [hreplay, Option.map_some, herror]
    rfl
  -- coefficient by coefficient, an output is what its call computed
  · apply replay_element_of q hN (hkept _ hout) (hinit _ (.inl (h.written px hpx hcomputed))) hsized'
    · exact congrArg Setup.ring_dim hsetup
    · intro j
      rw [hcoefficient j j.isLt]
      refine h.means j _ (fun px hpx hinput hread => ?_) px hpx hcomputed
      exact Impl.coefficient_of_holds (hloaded px hpx hinput hread) j

/-- **What a recording is replayed to.** -/
theorem Recorded.computes {M : NativeMath} (hM : M.Exact) (hN : N ≠ 0)
    (h : s.Recorded early s.TaggedInput ops) (hh : s.host.FirstRecording) (hfits : s.Fits) (now : UInt64) :
    s.ComputesItsCalls M now := by
  obtain ⟨insts, hinsts, hrec⟩ := h.trace hh now hfits.2
  obtain ⟨m, hstore, hloaded, hholds⟩ := h.store hh (s.host.trace now)
  refine ⟨?_, ⟨m, hstore, ?_⟩, ?_⟩
  -- no two handles share an address
  · intro i j p p' x hp hp' hij _ _ haddress
    have hi : (s.host.polys.map Polynomial.address)[i]? = some p.address := by
      rw [List.getElem?_map, hp, Option.map_some]
    have hj : (s.host.polys.map Polynomial.address)[j]? = some p.address := by
      rw [List.getElem?_map, hp', Option.map_some, haddress]
    have hlt := (List.getElem?_eq_some_iff.mp hi).1
    exact hij ((List.getElem?_inj hlt h.apart).mp (hi.trans hj.symm))
  -- what an instruction reads, its call reads
  · rintro px hpx hinput ⟨inst, hinst, hread⟩
    apply hloaded px hpx hinput
    rw [hinsts] at hinst
    rcases List.mem_append.mp hinst with hinst | hinst
    · obtain ⟨op, hop, hrecorded⟩ := exists_recorded hrec hinst
      exact List.mem_flatMap.mpr ⟨op, hop, hrecorded.execUses_reads (h.arithmetic op hop)
        (h.op_fits hfits hop) hread⟩
    · rw [List.mem_singleton.mp hinst] at hread
      exact absurd hread List.not_mem_nil
  -- each tagged output is among the captured ones
  · obtain ⟨f, hreplay, hread⟩ := h.runs hM hN hfits hinsts hrec hstore hloaded hholds
    refine ⟨_, hreplay, fun e he px hpx hpoly => ?_⟩
    obtain ⟨px', hpx', hcomputed, hpoly'⟩ := h.probes e he
    obtain rfl : px' = px := h.unique hpx' hpx
      (congrArg Polynomial.address (Tagged.POLY.inj (hpoly'.symm.trans hpoly)))
    have hprobe : (px'.1.address, ((s.host.compiler.session.address_modulus_map px'.1.address).getD 0).toNat) ∈
        e.tagged.probes s.host.compiler.session.address_modulus_map := by
      rw [hpoly]
      exact List.mem_singleton_self _
    obtain ⟨r, hr, hname, hmem⟩ := captured_under_name h.kinds.2 he hprobe
    have hout : (⟨r.name, r.elements⟩ : OutputRecord) ∈ s.host.stop.compiler.replay_outputs := by
      rw [hh.replay_outputs]
      exact List.mem_map_of_mem hr
    refine ⟨_, List.mem_map_of_mem hout, hname, _, List.mem_map_of_mem hmem, ?_⟩
    exact hread px' hpx hcomputed (List.mem_flatMap.mpr ⟨_, hout, List.mem_map_of_mem hmem⟩) _

/-! ## Sessions -/

/-- What some calls prepare, from a process that has just begun. -/
def prepare (N : ℕ) (before : List SessionCall) : Evaluated N := Runs.run step {} before

/-- A session: the calls before its recording and those in it. -/
def session (N : ℕ) (before calls : List SessionCall) : Evaluated N :=
  Runs.run step (prepare N before).start calls

theorem prepared_prepare {before : List SessionCall}
    (hbefore : ∀ c ∈ before, c.WellFormed N ∧ c.Prepares) : (prepare N before).Prepared := by
  have hrun : ∀ s : Evaluated N, s.Prepared → (Runs.run step s before).Prepared := by
    induction before with
    | nil => exact fun s hs => hs
    | cons c before ih =>
      intro s hs
      obtain ⟨hc, hbefore⟩ := List.forall_mem_cons.mp hbefore
      exact ih hbefore _ (hs.step hc.1 hc.2)
  exact hrun {} prepared_empty

/-- Nothing is captured yet. -/
structure Uncaptured (s : Evaluated N) : Prop where
  streaming : s.host.input_streaming = false
  inputs : s.host.compiler.captured_inputs = []
  outputs : s.host.compiler.captured_outputs = []

theorem Uncaptured.step (h : s.Uncaptured) (c : SessionCall) : (s.step c).Uncaptured := by
  have hframe := s.host.api_frame (c.toApi N)
  refine ⟨?_, ?_, ?_⟩
  · exact (Host.api_streaming _).trans h.streaming
  · show (s.host.api (c.toApi N)).compiler.captured_inputs = []
    rw [hframe]
    exact h.inputs
  · show (s.host.api (c.toApi N)).compiler.captured_outputs = []
    rw [hframe]
    exact h.outputs

/-- The recording is the first of its process. -/
theorem firstRecording_session {before calls : List SessionCall}
    (hbefore : ∀ c ∈ before, c.WellFormed N ∧ c.Prepares) :
    (session N before calls).host.FirstRecording := by
  have hidle := (prepared_prepare hbefore).idle
  have huncaptured : (prepare N before).Uncaptured :=
    Runs.run_invariant_of_always (fun _ c h => h.step c) ⟨rfl, rfl, rfl⟩ before
  have hstart : (prepare N before).start.host.FirstRecording := by
    have hcompiler : (prepare N before).host.compiler.start = { (prepare N before).host.compiler with
        session := { reset_for_epoch (prepare N before).host.compiler.session with
          writer := (prepare N before).host.compiler.session.writer.clear.start_recording }
        g_synced_since_reset := false
        running := true } := if_neg (Bool.not_eq_true _ ▸ hidle)
    unfold start Host.start
    rw [hcompiler]
    exact ⟨rfl, rfl, huncaptured.streaming, huncaptured.inputs, huncaptured.outputs⟩
  have hstep : ∀ (s : Evaluated N) (c : SessionCall), s.host.FirstRecording →
      (s.step c).host.FirstRecording := fun s c hs => hs.api (c.toApi N)
  exact Runs.run_invariant_of_always hstep hstart calls

/-- **A session computes what its calls say**, if every call in it finds what is asked
of it. -/
theorem session_computes_its_calls {M : NativeMath} (hM : M.Exact) (hN : N ≠ 0)
    (before calls : List SessionCall) (hbefore : ∀ c ∈ before, c.WellFormed N ∧ c.Prepares)
    (hcalls : Runs.Along step
      (Clean (prepare N before).host.polys (session N before calls).TaggedInput)
      (prepare N before).start calls)
    (hfits : (session N before calls).Fits) (now : UInt64) :
    (session N before calls).ComputesItsCalls M now := by
  have hstart := (prepared_prepare hbefore).start (session N before calls).TaggedInput
  obtain ⟨ops, hrecorded⟩ := hstart.run hcalls
  exact hrecorded.computes hM hN (firstRecording_session hbefore) hfits now

/-- Data, a tag, and a sum with itself as the output. -/
def dataInside : List SessionCall :=
  [.from_data [3] .Coefficient, .tag_input (str "x") 0, .pp .sr_addp 0 0 17, .tag_output (str "y") 1]

theorem dataInside_clean : Runs.Along step
    (Clean (prepare 1 []).host.polys (session 1 [] dataInside).TaggedInput) (prepare 1 []).start
    dataInside := by
  have hearly : ∀ {a : ℕ}, ∀ p ∈ (prepare 1 []).host.polys, p.address ≠ a := List.forall_mem_nil _
  have htagged : (session 1 [] dataInside).TaggedInput 0 := ⟨_, List.mem_cons_self, _, rfl, rfl⟩
  refine ⟨⟨Nat.le_refl 1, fun _ => hearly, ?_, ?_, ?_, ?_⟩, ⟨trivial, fun _ => hearly, ?_, ?_, ?_, ?_⟩,
    ⟨show (17 : UInt64) ≠ 0 by decide, fun _ => hearly, ?_, ?_, ?_, ?_⟩,
    ⟨trivial, fun _ => hearly, ?_, ?_, ?_, ?_⟩, trivial⟩
  · exact List.forall_mem_nil _
  · exact fun _ _ _ _ _ h => SessionCall.noConfusion h
  · exact fun _ _ _ h => SessionCall.noConfusion h
  · exact fun _ _ _ h => SessionCall.noConfusion h
  · exact List.forall_mem_nil _
  · exact fun _ _ _ _ _ h => SessionCall.noConfusion h
  · exact fun _ _ _ h => SessionCall.noConfusion h
  · exact fun _ _ _ h => SessionCall.noConfusion h
  · intro i hi p x hp _
    have hi : i = 0 := by
      rcases List.mem_pair.mp hi with rfl | rfl
      · rfl
      · rfl
    subst hi
    obtain rfl := Option.some.inj hp
    exact .inr htagged
  · exact fun _ _ _ _ _ h => SessionCall.noConfusion h
  · exact fun _ _ _ h => SessionCall.noConfusion h
  · exact fun _ _ _ h => SessionCall.noConfusion h
  · exact List.forall_mem_nil _
  · exact fun _ _ _ _ _ h => SessionCall.noConfusion h
  · exact fun _ _ _ h => SessionCall.noConfusion h
  · intro name i x h hx
    obtain rfl : 1 = i := (SessionCall.tag_output.inj h).2
    obtain rfl := Option.some.inj hx
    rfl

theorem session_computes_its_calls_dataInside :
    (session 1 [] dataInside).ComputesItsCalls referenceMath 0 :=
  session_computes_its_calls referenceMath_exact Nat.one_ne_zero [] dataInside (List.forall_mem_nil _)
    dataInside_clean ⟨by decide +kernel, by decide +kernel⟩ 0

/-- The same calls, of which the data and its tag come before `start()`. -/
theorem data_before_start_overwritten : ¬ (session 1
    [.from_data [3] .Coefficient, .tag_input (str "x") 0]
    [.pp .sr_addp 0 0 17, .tag_output (str "y") 1]).ComputesItsCalls referenceMath 0 :=
  fun h => h.apart 1 0 _ _ _ rfl rfl Nat.one_ne_zero rfl rfl rfl

end Evaluated

end Fhetch
