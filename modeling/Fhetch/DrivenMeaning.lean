/-
Driving a program preserves what it computes (`src/fhetch_parser.cpp`,
`src/compiler.cpp`).

A file is parsed, driven through the API into a recording, stopped and replayed. What the
replay reports of a tagged address is what the simulator leaves there when it runs the
file itself, with the given inputs in its memory. `Driver.Follows` says what the recording
is, `Renaming.Translates.runs` that it runs as the file does; here both ends are tied to
the process: what is captured of the inputs is what the file finds in memory, and what is
tagged as an output is where the file's result went.

The condition on the program is that it runs without an error, that every instruction is
one the simulator has a kernel for, and that no placeholder of a product by 0 is read
later where the caller gave values for it.
-/
import Fhetch.DrivenLines
import Fhetch.SessionMeaning

set_option autoImplicit false

namespace Fhetch

open Lib Renaming Throws Driven

/-! ## Outputs -/

namespace Driver

variable (drv : Driver)

/-- The outputs in the order in which they are tagged. -/
def ordered : List (ℕ × DriveTag) := drv.outputs.insertionSort fun a b => tag_before b a = false

/-- The file addresses that are tagged with a name, in order. -/
def tagged_as (name : Str) : List ℕ := (drv.ordered.filter (·.2.name = name)).map Prod.fst

/-- The tags of some outputs: those of the polynomials in the map. -/
def output_tags (outputs : List (ℕ × DriveTag)) (d : Driven) : List RegistryEntry :=
  outputs.filterMap fun o => (d.polys o.1).map fun p => ⟨o.2.name, .POLY p⟩

variable {drv} {M : NativeMath} {n start : ℕ} {lines : List (Line Kernel ℕ)} {d d' : Driven}
  {emitted : List Entry} {inputs : List (ℕ × ℕ)} {ns : Names ℕ}

/-- What tags on outputs change: they are entered, and the rest of the process stays. -/
structure Finalizes (tags : List RegistryEntry) (d d' : Driven) : Prop where
  polys : d'.polys = d.polys
  probes : d'.compiler.session.probe_registry = d.compiler.session.probe_registry ++ tags
  outputs : d'.compiler.captured_outputs = d.compiler.captured_outputs
  armed : d'.compiler.g_synced_since_reset = d.compiler.g_synced_since_reset
  running : d'.compiler.running = d.compiler.running

theorem Finalizes.trans {tags tags' : List RegistryEntry} {d'' : Driven} (h : Finalizes tags d d')
    (h' : Finalizes tags' d' d'') : Finalizes (tags ++ tags') d d'' where
  polys := h'.polys.trans h.polys
  probes := by rw [h'.probes, h.probes, List.append_assoc]
  outputs := h'.outputs.trans h.outputs
  armed := h'.armed.trans h.armed
  running := h'.running.trans h.running

/-- A tag on an output is a comment in the trace. -/
theorem Follows.tag (h : drv.Follows M n start lines d emitted inputs ns) (name : Str) (p : Polynomial) :
    ∃ d', (call (api (tag_output name (.POLY p)))).on d = (.ok (), d') ∧
      drv.Follows M n start lines d' emitted inputs ns ∧ Finalizes [⟨name, .POLY p⟩] d d' := by
  have hframe := TraceWriter.comment_frame d.compiler.session.writer (output_comment name p)
  refine ⟨_, rfl, ?_, rfl, rfl, rfl, rfl, rfl⟩
  refine
    { kinds := h.kinds
      captured := h.captured
      supplied := h.supplied
      tagged := h.tagged
      translates := h.translates
      tells := h.tells.comment _
      keeps := ?_
      moduli := h.moduli
      place := h.place
      next := h.next
      dims := h.dims }
  show (d.compiler.session.writer.comment (output_comment name p)).keeps = true
  rw [hframe]
  exact h.keeps

/-- **Tagging the outputs** is no part of what a drive has come to. -/
theorem Follows.finalize (h : drv.Follows M n start lines d emitted inputs ns) :
    ∃ d', drv.finalize_outputs.on d = (.ok (), d') ∧ drv.Follows M n start lines d' emitted inputs ns ∧
      Finalizes (output_tags drv.ordered d) d d' := by
  unfold finalize_outputs
  rw [show (drv.outputs.insertionSort fun a b => tag_before b a = false) = drv.ordered from rfl]
  generalize drv.ordered = outputs
  induction outputs generalizing d with
  | nil => exact ⟨d, rfl, h, rfl, (List.append_nil _).symm, rfl, rfl, rfl⟩
  | cons o outputs ih =>
    have hcons : ∀ f : ℕ × DriveTag → Throws Driven Unit,
        (o :: outputs).forM f = f o >>= fun _ => outputs.forM f := fun _ => rfl
    rw [hcons]
    dsimp only
    rcases hpoly : d.polys o.1 with - | p
    · have htags : output_tags (o :: outputs) d = output_tags outputs d := by
        rw [output_tags, List.filterMap_cons, hpoly]
        rfl
      obtain ⟨d', hon, hrest⟩ := ih h
      refine ⟨d', (on_bind_ok (a := ()) ?_).trans hon, htags ▸ hrest⟩
      rw [on_get_bind, hpoly]
      rfl
    · have htags : output_tags (o :: outputs) d = [⟨o.2.name, .POLY p⟩] ++ output_tags outputs d := by
        rw [output_tags, List.filterMap_cons, hpoly]
        rfl
      obtain ⟨d₁, htag, hfollows₁, hfinal₁⟩ := h.tag o.2.name p
      obtain ⟨d', hon, hfollows, hfinal⟩ := ih (hfollows₁.stats
        { d₁.stats with outputs_tagged := d₁.stats.outputs_tagged + 1 })
      have hsame : output_tags outputs d₁ = output_tags outputs d := by
        rw [output_tags, output_tags, hfinal₁.polys]
      rw [htags, ← hsame]
      refine ⟨d', ?_, hfollows, hfinal₁.trans ⟨hfinal.polys, hfinal.probes, hfinal.outputs, hfinal.armed,
        hfinal.running⟩⟩
      rw [on_bind_ok (a := ())]
      · exact hon
      · rw [on_get_bind, hpoly]
        exact on_bind_ok htag

end Driver

/-! ## Stopping -/

/-- Over what was captured of single polynomials, a sync captures what each tag does. -/
theorem mem_sync_over {α : Type} {f : Tagged → List α} (registry : List RegistryEntry) :
    ∀ {records : List (CapturedRecord α)}, (∀ name, (kindOf records name).getD .SRP = .SRP) →
      (∀ e ∈ registry, e.tagged.kind = .SRP) → ∀ x,
        x ∈ (sync_registry f store_element registry records).flatMap CapturedRecord.elements ↔
          x ∈ records.flatMap CapturedRecord.elements ∨ ∃ e ∈ registry, x ∈ f e.tagged := by
  induction registry with
  | nil => exact fun _ _ x => by simp [sync_registry]
  | cons e registry ih =>
    intro records hrecords hkinds x
    obtain ⟨he, hrest⟩ := List.forall_mem_cons.mp hkinds
    obtain ⟨hkind, hmem⟩ := store_elements_spec e.name e.tagged.kind (f e.tagged) records
    have hstored : ∀ name, (kindOf ((f e.tagged).foldl (store_element e.name e.tagged.kind) records)
        name).getD .SRP = .SRP := by
      intro name
      rw [hkind, he]
      split
      · rw [Option.getD_some]
        exact hrecords e.name
      · exact hrecords name
    have hstep : sync_registry f store_element (e :: registry) records =
        sync_registry f store_element registry
          ((f e.tagged).foldl (store_element e.name e.tagged.kind) records) := rfl
    rw [hstep, ih hstored hrest x, hmem, he, hrecords, eq_self, and_true, List.exists_mem_cons_iff, or_assoc]

/-- The elements of tags on single polynomials that all capture something, by their name. -/
theorem elementsUnder_of_srp {α : Type} {f : Tagged → List α} {registry : List RegistryEntry}
    (hkinds : ∀ e ∈ registry, e.tagged.kind = .SRP) (hcapture : ∀ e ∈ registry, f e.tagged ≠ [])
    (name : Str) : elementsUnder (sync_registry f store_element registry []) name =
      (registry.filter (·.name = name)).flatMap fun e => f e.tagged := by
  rw [elementsUnder_sync_registry, show elementsUnder ([] : List (CapturedRecord α)) name = [] from rfl,
    List.nil_append, tagsUnder]
  congr 1
  refine List.filter_congr fun e he => decide_eq_decide.mpr (and_iff_left_of_imp ?_)
  rintro rfl
  obtain ⟨x, hx⟩ := List.exists_mem_of_ne_nil _ (hcapture e he)
  rw [hkinds e he]
  exact name_kind_of_srp hkinds he hx

namespace Host

variable {h : Host}

/-- **What `stop` leaves** of a running recording, over what was captured before. -/
theorem stop_captured (hrunning : h.compiler.running = true)
    (harmed : h.compiler.g_synced_since_reset = false) (hstreaming : h.input_streaming = false) :
    h.stop.compiler =
      { session := { h.compiler.session with
          writer := ((h.compiler.session.writer.emit { opcode := .FH_HALT }).stop_recording
            |>.normalize_modulus_table) }
        captured_inputs := sync_registry (Tagged.elements h.compiler.session.address_modulus_map)
          store_element h.compiler.session.input_registry h.compiler.captured_inputs
        captured_outputs := sync_registry (Tagged.probes h.compiler.session.address_modulus_map)
          store_element h.compiler.session.probe_registry h.compiler.captured_outputs
        g_synced_since_reset := true
        running := false } := by
  have hsync := h.sync_of_not_streaming hstreaming
  unfold Compiler.sync_fhetch_state_to_compiler at hsync
  rw [if_neg (Bool.not_eq_true _ ▸ harmed)] at hsync
  unfold Host.stop
  rw [if_pos hrunning]
  dsimp only
  rw [hsync]
  rfl

end Host

namespace Driver

variable {drv : Driver} {M : NativeMath} {n start : ℕ} {lines : List (Line Kernel ℕ)} {d : Driven}
  {emitted : List Entry} {inputs : List (ℕ × ℕ)} {ns : Names ℕ}

variable (drv) in
/-- The process that drives. -/
def host (d : Driven) : Host := { compiler := d.compiler, input_streaming := drv.input_streaming }

/-- Its recording can be stopped, and it takes the tags over then. -/
structure Recording (d : Driven) : Prop where
  running : d.compiler.running = true
  armed : d.compiler.g_synced_since_reset = false
  outputs : d.compiler.captured_outputs = []

/-- What is emitted is what the stopped recording holds, and a halt. -/
theorem Follows.recorded (h : drv.Follows M n start lines d emitted inputs ns) (hd : Recording d)
    (hstreaming : drv.input_streaming = false) (now : UInt64)
    (hsize : ((drv.host d).trace now).modulus_table.length ≤ 2 ^ 32) :
    List.Forall₂ (Fhetch.Recorded ((drv.host d).trace now).modulus_table)
      ((drv.host d).trace now).instructions (emitted ++ [({ opcode := .FH_HALT }, none)]) := by
  let w := ((d.compiler.session.writer.emit { opcode := .FH_HALT }).stop_recording).normalize_modulus_table
  have hstop := Host.stop_captured (h := drv.host d) hd.running hd.armed hstreaming
  have htrace : (drv.host d).trace now = w.program now := by
    rw [Host.trace, hstop]
    rfl
  have hhalt : WrittenAs d.compiler.session.writer.modulus_table_ { opcode := .FH_HALT }
      ({ opcode := .FH_HALT }, none) := .of_recorded ⟨rfl, fun _ => rfl, rfl, fun _ => rfl⟩
  have htells : Tells w (emitted ++ [({ opcode := .FH_HALT }, none)]) :=
    ((h.tells.emit hhalt h.keeps).flags _ _).normalize
  rw [htrace] at hsize ⊢
  exact htells.written.imp fun _ _ hentry => hentry.recorded hsize

/-! ## Inputs -/

variable (drv) in
/-- What the file finds at an address before it runs. -/
def value (a : ℕ) : Poly :=
  ((drv.given a).map fun e => e.values.map UInt64.toNat).getD (List.replicate drv.ring_dim 0)

variable (drv) in
/-- A simulator that is to run the file itself, with the given inputs in its memory. -/
def simulator (p : Program) : Simulator :=
  (load_program (set_ring_dimension {} drv.ring_dim) p).1.withMemory fun a =>
    (drv.given a).map fun e => ⟨resize (e.values.map UInt64.toNat) drv.ring_dim, e.modulus.toNat, true⟩

/-- What an initialized address holds is read, and what another one holds is zero. -/
theorem get_or_zero_of_holds {s : Impl} {a : ℕ} {values : Poly} (h : s.memory.Holds s.ring_dim a values) :
    s.get_or_zero a = resize values s.ring_dim := by
  obtain ⟨q, hq⟩ := h
  unfold Impl.get_or_zero Memory.is_initialized Memory.get
  rw [hq]
  rfl

theorem get_or_zero_of_none {s : Impl} {a : ℕ} (h : s.memory a = none) :
    s.get_or_zero a = List.replicate s.ring_dim 0 := by
  unfold Impl.get_or_zero Memory.is_initialized Memory.get
  rw [h]
  rfl

theorem resize_zeros (N : ℕ) : resize (List.replicate N 0) N = List.replicate N 0 :=
  resize_of_length List.length_replicate

theorem simulator_get_or_zero (p : Program) (a : ℕ) :
    (drv.simulator p).get_or_zero a = resize (drv.value a) drv.ring_dim := by
  rcases hgiven : drv.given a with - | e
  · rw [value, hgiven, Option.map_none, Option.getD_none, resize_zeros]
    refine get_or_zero_of_none (s := (drv.simulator p).toImpl) ?_
    show (drv.given a).map _ = none
    rw [hgiven, Option.map_none]
  · rw [value, hgiven, Option.map_some, Option.getD_some]
    refine get_or_zero_of_holds (s := (drv.simulator p).toImpl) ⟨e.modulus.toNat, ?_⟩
    show (drv.given a).map _ = _
    rw [hgiven, Option.map_some]
    rfl

/-- What is captured of an input is what the file finds there. -/
theorem Follows.captures (h : drv.Follows M n start lines d emitted inputs ns) (hd : Recording d)
    (hstreaming : drv.input_streaming = false) :
    (∀ x ∈ (drv.host d).stop.compiler.replay_inputs.flatMap InputRecord.elements,
        ∃ a, (a, x.addr_id) ∈ inputs ∧ x.values = drv.value a) ∧
      ∀ a i, (a, i) ∈ inputs → (drv.given a).isSome →
        i ∈ ((drv.host d).stop.compiler.replay_inputs.flatMap InputRecord.elements).map
          CapturedElement.addr_id := by
  have hstop := Host.stop_captured (h := drv.host d) hd.running hd.armed hstreaming
  have hkinds : ∀ e ∈ d.compiler.session.input_registry, e.tagged.kind = .SRP := by
    intro e he
    obtain ⟨a, p, -, -, hpoly, -⟩ := h.tagged e he
    rw [hpoly]
    rfl
  have hmem : ∀ x, x ∈ (drv.host d).stop.compiler.replay_inputs.flatMap InputRecord.elements ↔
      x ∈ d.compiler.captured_inputs.flatMap CapturedRecord.elements ∨
        ∃ e ∈ d.compiler.session.input_registry,
          x ∈ e.tagged.elements d.compiler.session.address_modulus_map := by
    intro x
    have hsync := mem_sync_over (f := Tagged.elements d.compiler.session.address_modulus_map)
      d.compiler.session.input_registry h.kinds hkinds x
    rw [← hsync, Compiler.replay_inputs, hstop, List.flatMap_map]
    rfl
  refine ⟨fun x hx => ?_, fun a i hinput hgiven => ?_⟩
  · rcases (hmem x).mp hx with hx | ⟨e, he, hx⟩
    · obtain ⟨a, i, e, hinput, hgiven, rfl⟩ := h.captured x hx
      exact ⟨a, hinput, by rw [value, hgiven]; rfl⟩
    · obtain ⟨a, p, hinput, hnone, hpoly, hdata, hdim⟩ := h.tagged e he
      rw [hpoly] at hx
      obtain ⟨q, -, rfl⟩ := mem_srp_elements.mp hx
      refine ⟨a, hinput, ?_⟩
      show (data_or_zeros p).map UInt64.toNat = _
      rw [value, hnone, data_or_zeros, if_pos hdata, List.map_replicate, hdim]
      rfl
  · obtain ⟨e, he⟩ := Option.isSome_iff_exists.mp hgiven
    exact List.mem_map.mpr ⟨_, (hmem _).mpr (.inl (h.supplied a i e hinput he)), rfl⟩

/-- **What the replay stores**: at the number of each input, what the file finds there. -/
theorem Follows.store (h : drv.Follows M n start lines d emitted inputs ns) (hd : Recording d)
    (hstreaming : drv.input_streaming = false)
    (hapart : ∀ {a b x}, (a, x) ∈ inputs → (b, x) ∈ inputs → a = b)
    (hvalues : ∀ a e, drv.given a = some e → e.values.length ≤ drv.ring_dim) (p : Program) :
    ∃ m, store_captured (load_program (set_ring_dimension {} drv.ring_dim) p).1
        ((drv.host d).stop.compiler.replay_inputs.flatMap InputRecord.elements) =
          some ((load_program (set_ring_dimension {} drv.ring_dim) p).1.withMemory m) ∧
      ∀ s : Impl, s.memory = m → s.ring_dim = drv.ring_dim →
        ∀ e ∈ inputs, s.get_or_zero e.2 = resize (drv.value e.1) drv.ring_dim := by
  obtain ⟨hcaptured, hsupplied⟩ := h.captures hd hstreaming
  let held (i : ℕ) : Poly := ((inputs.find? (·.2 = i)).map fun e => drv.value e.1).getD []
  have hheld : ∀ a i, (a, i) ∈ inputs → held i = drv.value a := by
    intro a i hinput
    obtain ⟨⟨b, j⟩, hfind⟩ := Option.isSome_iff_exists.mp
      (List.find?_isSome.mpr ⟨_, hinput, decide_eq_true rfl⟩ :
        (inputs.find? (·.2 = i)).isSome)
    have hj := List.find?_some hfind
    rw [decide_eq_true_iff] at hj
    obtain rfl : j = i := hj
    obtain rfl := hapart hinput (List.mem_of_find?_eq_some hfind)
    show ((inputs.find? (·.2 = j)).map _).getD [] = _
    rw [hfind]
    rfl
  have hlength : ∀ a, (drv.value a).length ≤ drv.ring_dim := by
    intro a
    rcases hgiven : drv.given a with - | e
    · rw [value, hgiven]
      exact (List.length_replicate (n := drv.ring_dim) (a := 0)).le
    · rw [value, hgiven, Option.map_some, Option.getD_some, List.length_map]
      exact hvalues a e hgiven
  have hall : ∀ x ∈ (drv.host d).stop.compiler.replay_inputs.flatMap InputRecord.elements,
      x.values = held x.addr_id ∧ x.values.length ≤ drv.ring_dim := by
    intro x hx
    obtain ⟨a, hinput, hx⟩ := hcaptured x hx
    exact ⟨hx.trans (hheld a _ hinput).symm, hx ▸ hlength a⟩
  obtain ⟨m, hstore, hin, hout⟩ := store_captured_values hall
    (load_program (set_ring_dimension {} drv.ring_dim) p).1 rfl fun _ _ => .inl rfl
  refine ⟨m, hstore, fun s hmemory hdim => ?_⟩
  rintro ⟨a, i⟩ hinput
  by_cases hmem : i ∈ ((drv.host d).stop.compiler.replay_inputs.flatMap InputRecord.elements).map
      CapturedElement.addr_id
  · have hholds := hin i hmem
    rw [hheld a i hinput, ← hmemory, ← hdim] at hholds
    rw [get_or_zero_of_holds hholds, hdim]
  · -- a placeholder of unknown modulus is not captured, and reads as the zeros that it is
    have hnone : drv.given a = none := Option.not_isSome_iff_eq_none.mp fun hgiven =>
      hmem (hsupplied a i hinput hgiven)
    have hempty : s.memory i = none := by
      rw [hmemory, hout i hmem]
      rfl
    rw [get_or_zero_of_none hempty, hdim, value, hnone, Option.map_none, Option.getD_none, resize_zeros]

/-! ## What is written -/

/-- The result of an instruction is mentioned. -/
theorem dest_mem_touches {inst : Instruction} (hwrites : (execUses inst).writes = true) :
    inst.dest.toNat ∈ opcode_touches inst := by
  by_cases hform : fh_operand_form inst.opcode = .PolyPoly
  · rw [touches_pp hform]
    exact List.mem_append_right _ (List.mem_singleton_self _)
  · rw [touches_un hwrites hform]
    exact List.mem_append_right _ (List.mem_singleton_self _)

/-- What is known and not hidden stays so. -/
theorem mentioned_keeps (m : Mentions) (inst : Instruction) {a : ℕ} (h : a ∈ m.known ∧ a ∉ m.planted) :
    a ∈ (drv.mentioned m inst).known ∧ a ∉ (drv.mentioned m inst).planted := by
  refine ⟨List.mem_append_right _ h.1, ?_⟩
  -- a placeholder is only made for an address that is not known
  have hplanting : a ∉ drv.planting m inst := by
    unfold planting
    split
    · rename_i hplants
      rw [List.mem_cons, not_or]
      exact ⟨fun heq => hplants.2.1 (heq ▸ h.1), h.2⟩
    · exact h.2
  unfold mentioned
  dsimp only
  split
  · exact fun hmem => hplanting (List.mem_filter.mp hmem).1
  · exact h.2

/-- What is written is not hidden in the end. -/
theorem not_planted_of_writes (m : Mentions) {insts : List Instruction} {inst : Instruction}
    (hinst : inst ∈ insts) (hwrites : (execUses inst).writes = true) :
    inst.dest.toNat ∉ (Runs.run drv.mentioned m insts).planted := by
  obtain ⟨before, after, rfl⟩ := List.append_of_mem hinst
  rw [Runs.run_append, Runs.run_cons]
  have hkeeps : ∀ (m : Mentions) (i : Instruction),
      inst.dest.toNat ∈ m.known ∧ inst.dest.toNat ∉ m.planted →
        inst.dest.toNat ∈ (drv.mentioned m i).known ∧ inst.dest.toNat ∉ (drv.mentioned m i).planted :=
    fun m i h => mentioned_keeps m i h
  refine (Runs.run_invariant_of_always hkeeps ⟨?_, ?_⟩ after).2
  · exact List.mem_append_left _ (dest_mem_touches hwrites)
  · show _ ∉ if _ then _ else _
    rw [if_pos hwrites]
    exact fun hmem => of_decide_eq_true (List.mem_filter.mp hmem).2 rfl

/-- The instructions that write have lines. -/
theorem dest_mem_lines (table : List UInt64) {insts : List Instruction} {inst : Instruction}
    (hinst : inst ∈ insts) (hwrites : (execUses inst).writes = true) :
    ∃ l ∈ trace_lines table insts, l.dest = inst.dest.toNat :=
  ⟨_, List.mem_filterMap.mpr ⟨inst, hinst, entry_line_of_writes hwrites⟩, rfl⟩

/-! ## Outputs of a replay -/

/-- What the replay is asked for under a name: the numbers of the addresses, in order. -/
theorem Follows.asked (h : drv.Follows M n start lines d emitted inputs ns) (hd : Recording d)
    (hstreaming : drv.input_streaming = false)
    (hprobes : d.compiler.session.probe_registry = output_tags drv.ordered d)
    (hpolys : ∀ o ∈ drv.ordered, (ns.place o.1).isSome) {o : ℕ × DriveTag} (ho : o ∈ drv.ordered) :
    ∃ r ∈ (drv.host d).stop.compiler.replay_outputs, r.name = o.2.name ∧
      r.elements.map Prod.fst = (drv.tagged_as o.2.name).map fun a => (ns.place a).getD 0 := by
  have hstop := Host.stop_captured (h := drv.host d) hd.running hd.armed hstreaming
  let probes := Tagged.probes d.compiler.session.address_modulus_map
  have hreplay : (drv.host d).stop.compiler.replay_outputs =
      (sync_registry probes store_element (output_tags drv.ordered d) []).map fun r =>
        ⟨r.name, r.elements⟩ := by
    rw [← hprobes, Compiler.replay_outputs, hstop, ← hd.outputs]
    rfl
  have hpoly : ∀ e ∈ output_tags drv.ordered d, ∃ p, e.tagged = .POLY p := by
    intro e he
    obtain ⟨o', -, he⟩ := List.mem_filterMap.mp he
    obtain ⟨p, -, rfl⟩ := Option.map_eq_some_iff.mp he
    exact ⟨p, rfl⟩
  have hkinds : ∀ e ∈ output_tags drv.ordered d, e.tagged.kind = .SRP := by
    intro e he
    obtain ⟨p, hp⟩ := hpoly e he
    rw [hp]
    rfl
  have hcapture : ∀ e ∈ output_tags drv.ordered d, probes e.tagged ≠ [] := by
    intro e he
    obtain ⟨p, hp⟩ := hpoly e he
    rw [hp]
    exact List.cons_ne_nil _ _
  have hunder := elementsUnder_of_srp hkinds hcapture o.2.name
  -- a tag under the name for each address
  have helements : ((elementsUnder (sync_registry probes store_element (output_tags drv.ordered d) [])
      o.2.name).map Prod.fst) = (drv.tagged_as o.2.name).map fun a => (ns.place a).getD 0 := by
    rw [hunder, tagged_as]
    generalize drv.ordered = outputs at hpolys ⊢
    induction outputs with
    | nil => rfl
    | cons o' outputs ih =>
      obtain ⟨ho', hrest⟩ := List.forall_mem_cons.mp hpolys
      rw [h.place, Option.isSome_map] at ho'
      obtain ⟨p, hp⟩ := Option.isSome_iff_exists.mp ho'
      have hcons : output_tags (o' :: outputs) d = ⟨o'.2.name, .POLY p⟩ :: output_tags outputs d := by
        rw [output_tags, List.filterMap_cons, hp]
        rfl
      rw [hcons, List.filter_cons, List.filter_cons]
      dsimp only
      split
      · rw [List.flatMap_cons, List.map_append, ih hrest, List.map_cons, List.map_cons, h.place, hp]
        rfl
      · exact ih hrest
  have hne : elementsUnder (sync_registry probes store_element (output_tags drv.ordered d) []) o.2.name ≠ [] := by
    intro hnil
    rw [hnil, List.map_nil, eq_comm, List.map_eq_nil_iff, tagged_as, List.map_eq_nil_iff,
      List.filter_eq_nil_iff] at helements
    exact helements o ho (decide_eq_true rfl)
  unfold elementsUnder at hne helements
  rcases hfind : (sync_registry probes store_element (output_tags drv.ordered d) []).find?
      (·.name = o.2.name) with - | r
  · rw [hfind] at hne
    exact absurd rfl hne
  · rw [hfind] at helements
    have hname := List.find?_some hfind
    rw [decide_eq_true_iff] at hname
    exact ⟨⟨r.name, r.elements⟩, hreplay ▸ List.mem_map.mpr ⟨r, List.mem_of_find?_eq_some hfind, rfl⟩,
      hname, helements⟩

/-! ## Programs -/

/-- **What the replay of a drive reports**: under the name of each output, the values at
the addresses that are tagged with it, in their order. -/
def ReplaysAs (M : NativeMath) (drv : Driver) (d : Driven) (now : UInt64) (values : ℕ → Poly) : Prop :=
  ∃ out, Compiler.replay M drv.ring_dim ((drv.host d).trace now)
      (drv.host d).stop.compiler.replay_inputs [] (drv.host d).stop.compiler.replay_outputs =
        some (some out) ∧
    ∀ o ∈ drv.outputs, ∃ r ∈ out, r.name = o.2.name ∧
      r.elements.map ReplayElement.values = (drv.tagged_as o.2.name).map values

/-- A process before its first recording. -/
structure Unrecorded (c : Compiler) : Prop where
  idle : c.running = false
  inputs : c.captured_inputs = []
  outputs : c.captured_outputs = []

variable (drv M n) in
/-- Nothing has been driven yet. -/
theorem follows_start {c : Compiler} (hc : Unrecorded c) (read : ReadResult) :
    drv.Follows M n 0 [] (opened read { compiler := c.start }) [] [] (.fresh 0) ∧
      Recording (opened read { compiler := c.start }) ∧
      (opened read { compiler := c.start }).compiler.session.probe_registry = [] := by
  have hstart : c.start = { c with
      session := { reset_for_epoch c.session with
        writer := (reset_for_epoch c.session).writer.clear.start_recording }
      g_synced_since_reset := false
      running := true } := if_neg (by rw [hc.idle]; exact Bool.false_ne_true)
  rw [hstart]
  refine ⟨?_, ⟨rfl, rfl, hc.outputs⟩, rfl⟩
  refine
    { kinds := fun name => ?_
      captured := fun x hx => ?_
      supplied := fun a i e h => absurd h List.not_mem_nil
      tagged := List.forall_mem_nil _
      translates := fun _ => .nil
      tells := (tells_clear _).flags true false
      keeps := rfl
      moduli := List.forall_mem_nil _
      place := fun _ => rfl
      next := rfl
      dims := fun a p h => absurd h (by simp [opened]) }
  · show (kindOf c.captured_inputs name).getD .SRP = .SRP
    rw [hc.inputs]
    rfl
  · replace hx : x ∈ c.captured_inputs.flatMap CapturedRecord.elements := hx
    rw [hc.inputs] at hx
    exact absurd hx List.not_mem_nil

/-- What a run of the file does: every instruction that writes has a result, the lines
have an outcome, and what they write can be read. -/
theorem lines_of_run (hdim : drv.ring_dim = 2 ^ n) {p : Program} {f : Simulator} {r : SimResult}
    (hrun : run M (drv.simulator p) = some (f, r)) (herrors : r.errors = 0) :
    (∀ inst ∈ p.instructions, (execUses inst).writes = true → ∃ q,
        inst.selects p.modulus_table = some q ∧
          ∃ operands v, inst.result M (2 ^ n) q.toNat operands = some v) ∧
      ∃ m, evaluate (kernel_result M (2 ^ n)) (fun a => resize (drv.value a) drv.ring_dim)
          (trace_lines p.modulus_table p.instructions) = some m ∧
        ∀ l ∈ trace_lines p.modulus_table p.instructions, get_polynomial f l.dest = m l.dest := by
  have hN : drv.ring_dim ≠ 0 := by
    rw [hdim]
    exact (Nat.two_pow_pos n).ne'
  obtain ⟨impl, k, hloop, hf, hcount⟩ := loop_of_run (s := drv.simulator p) hN rfl hrun
  let s : Impl := { (drv.simulator p).toImpl with error_count := 0 }
  have hcached : s.Cached M := List.forall_mem_nil _
  have hnone : impl.error_count = s.error_count := hcount.symm.trans herrors
  have hvalues : s.get_or_zero = fun a => resize (drv.value a) drv.ring_dim :=
    funext (simulator_get_or_zero p)
  have hresults := results_of_execute_loop _ hdim hcached hloop hnone
  have hlines := evaluate_of_execute_loop _ hdim hcached hloop hnone
  rw [hvalues] at hlines
  refine ⟨hresults, _, hlines, fun l hl => ?_⟩
  exact get_polynomial_eq (congrFun (congrArg (fun i => i.memory) hf) _)
    (initialized_of_execute_loop _ hdim hcached hloop hnone _ (.inr (List.mem_map_of_mem hl)))

/-- What is held of a recording was emitted. -/
theorem exists_emitted {table : List UInt64} {insts : List Instruction} {emitted : List Entry}
    (h : List.Forall₂ (Fhetch.Recorded table) insts emitted) :
    ∀ inst ∈ insts, ∃ entry ∈ emitted, Fhetch.Recorded table inst entry := by
  induction h with
  | nil => exact List.forall_mem_nil _
  | cons hinst _ ih =>
    refine List.forall_mem_cons.mpr ⟨⟨_, List.mem_cons_self, hinst⟩, fun inst hmem => ?_⟩
    obtain ⟨entry, hentry, hrecord⟩ := ih inst hmem
    exact ⟨entry, List.mem_cons_of_mem _ hentry, hrecord⟩

/-- **The replay of a recording** whose lines are a program's under new names. -/
theorem Follows.replays (h : drv.Follows M n start lines d emitted inputs ns) (hd : Recording d)
    (hdim : drv.ring_dim = 2 ^ n) (hstreaming : drv.input_streaming = false)
    (hprobes : d.compiler.session.probe_registry = output_tags drv.ordered d)
    (hvalues : ∀ a e, drv.given a = some e → e.values.length ≤ drv.ring_dim)
    (hwritten : ∀ o ∈ drv.outputs, ∃ l ∈ lines, l.dest = o.1 ∧ o.1 ∉ ns.planted)
    (hfits : d.compiler.session.next_address_ ≤ 2 ^ 32) (now : UInt64)
    (hsize : ((drv.host d).trace now).modulus_table.length ≤ 2 ^ 32) {m : ℕ → Poly}
    (hlines : evaluate (kernel_result M (2 ^ n)) (fun a => resize (drv.value a) drv.ring_dim) lines = some m) :
    ReplaysAs M drv d now m := by
  have hN : drv.ring_dim ≠ 0 := by
    rw [hdim]
    exact (Nat.two_pow_pos n).ne'
  have htranslates := h.translates hfits
  have hrecorded := h.recorded hd hstreaming now hsize
  let p := (drv.host d).trace now
  let outputs := (drv.host d).stop.compiler.replay_outputs
  have hmem : ∀ o, o ∈ drv.ordered ↔ o ∈ drv.outputs := fun o => (List.perm_insertionSort _ _).mem_iff
  -- the replay holds what the file finds, so the recording has an outcome where the file has
  obtain ⟨stored, hstore, hheld⟩ := h.store hd hstreaming htranslates.inputs_apart.2 hvalues p
  let sim := (set_live_out_addresses (load_program (set_ring_dimension {} drv.ring_dim) p).1
    (outputs.flatMap OutputRecord.addrs)).withMemory stored
  let impl : Impl := { sim.toImpl with error_count := 0 }
  obtain ⟨m', hevaluate, hagrees⟩ := htranslates.runs impl.get_or_zero (hheld impl rfl rfl) hlines
  have hhalt : entry_line ({ opcode := .FH_HALT }, none) = none := rfl
  have htrace : trace_lines p.modulus_table p.instructions = emitted.filterMap entry_line := by
    rw [trace_lines_of_recorded hrecorded, List.filterMap_append, List.filterMap_cons, hhalt,
      List.filterMap_nil, List.append_nil]
  have hselects : ∀ inst ∈ p.instructions, (execUses inst).writes = true →
      (inst.selects p.modulus_table).isSome := by
    intro inst hinst hwrites
    obtain ⟨entry, hentry, hrecord⟩ := exists_emitted hrecorded inst hinst
    have huses : (execUses entry.1).writes = true := by
      rw [← hwrites, hrecord.frame]
      rfl
    rw [hrecord.selects]
    rcases List.mem_append.mp hentry with hentry | hentry
    · exact h.moduli entry hentry huses
    · rw [List.mem_singleton.mp hentry] at huses
      exact absurd huses (by decide)
  obtain ⟨impl', hloop, herror, hvalue, hinit⟩ := execute_loop_of_evaluate (i := 0) (k := 0) p.instructions
    (s := impl) hdim (List.forall_mem_nil _) hselects (htrace ▸ hevaluate)
  have hcovers : ∀ inst ∈ p.instructions, CoversBuffer drv.ring_dim inst := by
    intro inst _ _
    rw [hdim, Nat.log2_two_pow]
  obtain ⟨f, hrun, hkept⟩ := run_of_execute_loop (s := sim) hN hcovers hloop
  refine ⟨Compiler.write_replay_outputs f outputs, ?_, fun o ho => ?_⟩
  · have hsome : p.instructions ≠ [] := by
      intro hnil
      have hlength := hrecorded.length_eq
      rw [show ((drv.host d).trace now).instructions = [] from hnil, List.length_append] at hlength
      exact absurd hlength (by simp)
    rw [Compiler.replay_stored hN hsome hstore]
    have hreplay : Fhetch.run M ((replaySimulator drv.ring_dim p (outputs.flatMap OutputRecord.addrs)).withMemory
        stored) = some (f, ⟨0 + p.instructions.length, impl'.error_count⟩) := hrun
    rw [hreplay, Option.map_some, herror]
    rfl
  -- each address under the name is that of a result, and holds what the file leaves
  · have hplaces : ∀ o ∈ drv.ordered, ∃ l' ∈ emitted.filterMap entry_line, ns.place o.1 = some l'.dest := by
      intro o ho
      obtain ⟨l, hl, hdest, hplanted⟩ := hwritten o ((hmem o).mp ho)
      obtain ⟨l', hl', hplace⟩ := htranslates.place_dest l hl (hdest ▸ hplanted)
      exact ⟨l', hl', hdest ▸ hplace⟩
    obtain ⟨r, hr, hname, haddrs⟩ := h.asked hd hstreaming hprobes (fun o ho => by
      obtain ⟨l', -, hplace⟩ := hplaces o ho
      rw [hplace]
      rfl) ((hmem o).mpr ho)
    refine ⟨_, List.mem_map_of_mem hr, hname, ?_⟩
    rw [List.map_map]
    show (r.elements.map fun e => get_polynomial f e.1) = _
    have hsplit : (r.elements.map fun e => get_polynomial f e.1) =
        (r.elements.map Prod.fst).map (get_polynomial f) := by rw [List.map_map]; rfl
    rw [hsplit, haddrs, List.map_map]
    refine List.map_congr_left fun a ha => ?_
    obtain ⟨o', ho', rfl⟩ := List.mem_map.mp ha
    have ho'' := (List.mem_filter.mp ho').1
    obtain ⟨l', hl', hplace⟩ := hplaces o' ho''
    obtain ⟨-, -, -, hplanted⟩ := hwritten o' ((hmem o').mp ho'')
    have haddr : (ns.place o'.1).getD 0 = l'.dest := by rw [hplace, Option.getD_some]
    have hout : l'.dest ∈ outputs.flatMap OutputRecord.addrs := by
      refine List.mem_flatMap.mpr ⟨r, hr, ?_⟩
      rw [OutputRecord.addrs, haddrs, ← haddr]
      exact List.mem_map_of_mem ha
    show get_polynomial f ((ns.place o'.1).getD 0) = m o'.1
    rw [haddr, get_polynomial_eq (hkept _ hout) (hinit _ (.inr (by
      rw [show trace_lines impl.trace.modulus_table p.instructions = _ from htrace]
      exact List.mem_map_of_mem hl'))), hvalue]
    exact hagrees.known o'.1 _ hplace hplanted

/-- **Driving a program preserves what it computes.** Where the simulator runs the file
without an error, every instruction of which it has a kernel for or ignores like the
driver does, the file is driven, and the replay of the recording reports for every output
what the file leaves at its addresses. -/
theorem driven_program_computes {M : NativeMath} {n : ℕ} {drv : Driver} {read : ReadResult} {c : Compiler}
    (now : UInt64) (hc : Unrecorded c) (hdim : drv.ring_dim = 2 ^ n)
    (hstreaming : drv.input_streaming = false) (hok : read.ok = true)
    (hvalues : ∀ a e, drv.given a = some e → e.values.length ≤ drv.ring_dim)
    (hinsts : ∀ inst ∈ read.program.instructions, (execUses inst).writes = true ∨ Idle inst.opcode)
    (hreads : Runs.Along drv.mentioned ReadsKnown {} read.program.instructions)
    (houtputs : ∀ o ∈ drv.outputs, ∃ inst ∈ read.program.instructions,
      (execUses inst).writes = true ∧ inst.dest.toNat = o.1)
    {f : Simulator} {r : SimResult} (hrun : run M (drv.simulator read.program) = some (f, r))
    (herrors : r.errors = 0) :
    ∃ b d, (drv.drive_program read).on { compiler := c.start } = (.ok b, d) ∧
      (d.compiler.session.next_address_ ≤ 2 ^ 32 →
        ((drv.host d).trace now).modulus_table.length ≤ 2 ^ 32 →
        ReplaysAs M drv d now (get_polynomial f)) := by
  obtain ⟨hresults, m, hlines, hleft⟩ := lines_of_run hdim hrun herrors
  obtain ⟨hstart, hrecording, hnone⟩ := follows_start drv M n hc read
  have htable : (opened read { compiler := c.start }).stats.modulus_table = read.program.modulus_table := rfl
  have hmatches : Matches {} (opened read { compiler := c.start }) (.fresh 0) :=
    ⟨fun b => ⟨fun h => absurd h List.not_mem_nil, fun h => absurd h (by simp [opened])⟩, rfl⟩
  -- the instructions one after another, and the tags on the outputs
  obtain ⟨d₁, emitted, inputs, ns, hon₁, h₁, hmatches₁, hleaves⟩ :=
    Follows.run hstreaming hdim read.program.instructions hstart hmatches (fun inst hinst => by
      rcases hinsts inst hinst with hwrites | hidle
      · exact .inl ⟨hwrites, hresults inst hinst hwrites⟩
      · exact .inr hidle) hreads
  obtain ⟨d, hon, h, hfinal⟩ := h₁.finalize
  refine ⟨decide (0 < d.stats.instructions_replayed), d, ?_, fun hfits hsize => ?_⟩
  · rw [drive_program, if_pos hok, on_modify_bind, on_bind_ok hon₁, on_bind_ok hon, on_get_bind]
    rfl
  have hd : Recording d :=
    ⟨hfinal.running.trans (hleaves.running.trans hrecording.running),
      hfinal.armed.trans (hleaves.armed.trans hrecording.armed),
      hfinal.outputs.trans (hleaves.outputs.trans hrecording.outputs)⟩
  have hprobes : d.compiler.session.probe_registry = output_tags drv.ordered d := by
    rw [hfinal.probes, hleaves.probes, hnone, List.nil_append, output_tags, output_tags, hfinal.polys]
  rw [htable, List.nil_append] at h
  have hwritten : ∀ o ∈ drv.outputs, ∃ l ∈ trace_lines read.program.modulus_table read.program.instructions,
      l.dest = o.1 ∧ o.1 ∉ ns.planted := by
    intro o ho
    obtain ⟨inst, hinst, hwrites, hdest⟩ := houtputs o ho
    obtain ⟨l, hl, hl'⟩ := dest_mem_lines read.program.modulus_table hinst hwrites
    exact ⟨l, hl, hl'.trans hdest, hmatches₁.planted ▸ hdest ▸ not_planted_of_writes {} hinst hwrites⟩
  obtain ⟨out, hreplay, hout⟩ :=
    h.replays hd hdim hstreaming hprobes hvalues hwritten hfits now hsize hlines
  refine ⟨out, hreplay, fun o ho => ?_⟩
  obtain ⟨r', hr', hname, hvalues'⟩ := hout o ho
  refine ⟨r', hr', hname, hvalues'.trans (List.map_congr_left fun a ha => ?_)⟩
  -- the file's result is read at the address that its last line there writes
  obtain ⟨o', ho', rfl⟩ := List.mem_map.mp ha
  have hmem : o' ∈ drv.outputs :=
    (List.perm_insertionSort _ _).mem_iff.mp (List.mem_filter.mp ho').1
  obtain ⟨l, hl, hdest, -⟩ := hwritten o' hmem
  rw [← hdest, hleft l hl]

/-- `%1 = 3 * %0` and then `%1 = %1 + %0`, modulo 17. -/
def fourfold : ReadResult where
  ok := true
  program :=
    { modulus_table := [COPY_MODULUS_VALUE, 17]
      instructions :=
        [{ opcode := .FH_SR_MULPS, dest := 1, src1 := 0, immediate := some 3, modulus := some 1 },
          { opcode := .FH_SR_ADDP, dest := 1, src1 := 1, src2 := 0, modulus := some 1 },
          { opcode := .FH_HALT }] }

/-- Values for `%0`, and `%1` as an output. -/
def fourfoldDriver : Driver where
  ring_dim := 2
  inputs a := if a = 0 then some { values := [5, 6], modulus := 17 } else none
  outputs := [(1, { name := str "y" })]

/-- The process after it was driven. -/
def fourfoldDriven : Driven :=
  ((fourfoldDriver.drive_program fourfold).on { compiler := ({} : Compiler).start }).2

theorem driven_program_computes_fourfold : ∃ f r,
    Fhetch.run referenceMath (fourfoldDriver.simulator fourfold.program) = some (f, r) ∧
      get_polynomial f 1 = [3, 7] ∧ ReplaysAs referenceMath fourfoldDriver fourfoldDriven 0 (get_polynomial f) := by
  have hrun : Fhetch.run referenceMath (fourfoldDriver.simulator fourfold.program) = some (_, _) := rfl
  refine ⟨_, _, hrun, by decide, ?_⟩
  have hvalues : ∀ a e, fourfoldDriver.given a = some e → e.values.length ≤ fourfoldDriver.ring_dim := by
    intro a e he
    obtain ⟨he, -⟩ := Option.filter_eq_some_iff.mp he
    replace he : (if a = 0 then some { values := [5, 6], modulus := 17 } else none) = some e := he
    split at he
    · rw [← Option.some.inj he]
      decide
    · exact absurd he (by simp)
  have hinsts : ∀ inst ∈ fourfold.program.instructions,
      (execUses inst).writes = true ∨ Idle inst.opcode :=
    List.forall_mem_cons.mpr ⟨.inl rfl, List.forall_mem_cons.mpr ⟨.inl rfl,
      List.forall_mem_singleton.mpr (.inr (.inl rfl))⟩⟩
  obtain ⟨b, d, hon, h⟩ := driven_program_computes (n := 1) (c := {}) 0 ⟨rfl, rfl, rfl⟩ rfl rfl rfl hvalues hinsts
    ⟨by decide, by decide, by decide, trivial⟩ (by decide) hrun rfl
  obtain rfl : fourfoldDriven = d := congrArg Prod.snd hon
  exact h (by decide +kernel) (by decide +kernel)

end Driver

end Fhetch
