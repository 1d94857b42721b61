/-
The two local replays: `Compiler::replay()` in the recording process
(`src/compiler.cpp`) and the project worker `run_local_replay_from_project`
(`src/local_replay.cpp`).

They are the same pipeline written twice, and differ in what they load. The
process stores every captured polynomial, because its copy lineage may need one
the trace never reads; the worker stores the live-in ones and drops the rest.
Both pin the output addresses, compute the same schedule, run, and read back.

Files are the data in them: a project is its program, the polynomials its
`.bin`/`.ids` pairs hold in order, and its named outputs. An outer `none` is a
run with no outcome (see `Fhetch.Simulator`), an inner one a replay that
reports failure.

What the two memories share is `a ∉ captured ∨ a ∈ live_in`. The two-run lemma of
`Fhetch.LiveIn` carries that to the end, and adds whatever the program writes. A
captured output address outside all three is the one place the worker reports
`missing` and the process does not.
-/
import Fhetch.LiveIn

set_option autoImplicit false

namespace Fhetch

/-! ## Captured data -/

/-- One captured residue: `InputRecord`'s element, and what a `PolySink` gets. -/
structure CapturedElement where
  addr_id : ℕ
  values : Poly
  modulus : ℕ
  deriving DecidableEq

structure InputRecord where
  name : Str
  elements : List CapturedElement

/-- A captured output; each element is an `addr_ids` entry and its `moduli`
entry. -/
structure OutputRecord where
  name : Str
  elements : List (ℕ × ℕ)

/-- An output as the worker finds it in `<prog>.outputs.json`. -/
structure NamedOutput where
  name : Str
  addr_ids : List ℕ

/-- What the recording process writes of an output for the worker to read. -/
def OutputRecord.toNamed (output : OutputRecord) : NamedOutput :=
  ⟨output.name, output.elements.map Prod.fst⟩

inductive ElementStatus where
  | computed
  | missing
  deriving DecidableEq, Repr

/-- One element of `fhetch_replay_outputs.json`. -/
structure ReplayElement where
  addr_id : ℕ
  modulus : ℕ
  status : ElementStatus
  values : Poly
  deriving DecidableEq

structure ReplayOutput where
  name : Str
  elements : List ReplayElement
  deriving DecidableEq

def COPY_MODULUS : ℕ := 0xFFFFFFFFFFFFFFFF

/-- Both `write_replay_outputs` build an element the same way, from a modulus
each gets elsewhere. -/
def replay_element (sim : Simulator) (addr modulus : ℕ) : ReplayElement :=
  let values := get_polynomial sim addr
  { addr_id := addr
    modulus := if modulus = 0 then COPY_MODULUS else modulus
    status := if values.isEmpty then .missing else .computed
    values := values }

/-! ## In process -/

/-- Store every captured input, in order. -/
def store_captured (sim : Simulator) (elements : List CapturedElement) : Option Simulator :=
  elements.foldlM (fun sim e => store_polynomial sim e.addr_id e.values e.modulus) sim

/-- `copy_one`: fill an address from another, when only the other has data. The
`Bool` is `changed`. What `get_polynomial` returns is given away, and so cut or
extended to the ring dimension. -/
def copy_one (st : Simulator × Bool) (dst src : ℕ) : Simulator × Bool :=
  if !st.1.memory.is_initialized dst && st.1.memory.is_initialized src then
    (store_polynomial_owned st.1 dst (get_polynomial st.1 src) (st.1.memory.get src).modulus, true)
  else st

/-- One visit of an edge of the lineage: forward, then reverse. -/
def propagate_edge (rbw : List ℕ) (st : Simulator × Bool) (edge : ℕ × ℕ) : Simulator × Bool :=
  let (child, parent) := edge
  let st := if child ∈ rbw then copy_one st child parent else st
  if parent ∈ rbw then copy_one st parent child else st

/-- The lineage fixpoint. A pass that changes anything initialises a live-in
address, so one pass more than there are live-ins is enough fuel. -/
def propagate (rbw : List ℕ) (parent_map : List (ℕ × ℕ)) : ℕ → Simulator → Simulator
  | 0, sim => sim
  | fuel + 1, sim =>
    let (sim, changed) := parent_map.foldl (propagate_edge rbw) (sim, false)
    if changed then propagate rbw parent_map fuel sim else sim

/-- `Compiler::write_replay_outputs`: the moduli are those captured. -/
def Compiler.write_replay_outputs (sim : Simulator) (outputs : List OutputRecord) :
    List ReplayOutput :=
  outputs.map fun o => ⟨o.name, o.elements.map fun e => replay_element sim e.1 e.2⟩

variable (M : NativeMath)

/-- `Compiler::replay()`, from the loaded trace on. -/
def Compiler.replay (N : ℕ) (p : Program) (inputs : List InputRecord) (parent_map : List (ℕ × ℕ))
    (outputs : List OutputRecord) : Option (Option (List ReplayOutput)) :=
  if N = 0 then some none
  else
    let (sim, loaded) := load_program (set_ring_dimension {} N) p
    if !loaded then some none
    else
      let rbw := get_read_before_write_addresses p.instructions
      (store_captured sim (inputs.flatMap InputRecord.elements)).bind fun sim =>
        let sim := propagate rbw parent_map (rbw.length + 1) sim
        let live_out := outputs.flatMap fun o => o.elements.map Prod.fst
        (run M (compute_liveness (set_live_out_addresses sim live_out) false)).map
          fun (sim, result) =>
            if 0 < result.errors then none
            else some (Compiler.write_replay_outputs sim outputs)

/-! ## The worker -/

/-- The sink of `populate_inputs`: live-in residues are donated, the rest
dropped. -/
def populate_sink (live_in : List ℕ) (st : Simulator × List ℕ) (e : CapturedElement) :
    Simulator × List ℕ :=
  if e.addr_id ∈ live_in then
    (store_polynomial_owned st.1 e.addr_id e.values e.modulus, e.addr_id :: st.2)
  else st

/-- `populate_inputs`; `none` when a live-in address was not supplied. The source
compares the sizes of two sets of which one contains the other. -/
def populate_inputs (sim : Simulator) (elements : List CapturedElement) : Option Simulator :=
  let live_in := get_read_before_write_addresses sim.trace.instructions
  let (sim, stored_addrs) := elements.foldl (populate_sink live_in) (sim, [])
  if live_in.all (· ∈ stored_addrs) then some sim else none

/-- `write_replay_outputs` of `local_replay.cpp`: the moduli are the
simulator's. -/
def write_replay_outputs (sim : Simulator) (outputs : List NamedOutput) : List ReplayOutput :=
  outputs.map fun o =>
    ⟨o.name, o.addr_ids.map fun addr => replay_element sim addr (sim.memory.get addr).modulus⟩

def run_local_replay_from_project (N : ℕ) (p : Program) (elements : List CapturedElement)
    (outputs : List NamedOutput) : Option (Option (List ReplayOutput)) :=
  if N = 0 then some none
  else
    let (sim, loaded) := load_program (set_ring_dimension {} N) p
    if !loaded then some none
    else match populate_inputs sim elements with
      | none => some none
      | some sim =>
        let live_out := outputs.flatMap NamedOutput.addr_ids
        (run M (compute_liveness (set_live_out_addresses sim live_out) false)).map
          fun (sim, result) =>
            if 0 < result.errors then none else some (write_replay_outputs sim outputs)

/-! ## What each loads -/

/-- The element a list of captured residues puts at an address. -/
def loaded (N : ℕ) (elements : List CapturedElement) : Memory := fun a =>
  (elements.find? fun e => e.addr_id = a).map fun e => ⟨resize e.values N, e.modulus, true⟩

theorem loaded_cons_self (N : ℕ) (e : CapturedElement) (elements : List CapturedElement) :
    loaded N (e :: elements) e.addr_id = some ⟨resize e.values N, e.modulus, true⟩ := by
  simp [loaded]

theorem loaded_cons_of_ne {N a : ℕ} {e : CapturedElement} {elements : List CapturedElement}
    (h : a ≠ e.addr_id) : loaded N (e :: elements) a = loaded N elements a := by
  simp [loaded, h.symm]

theorem loaded_eq_none_iff {N a : ℕ} {elements : List CapturedElement} :
    loaded N elements a = none ↔ a ∉ elements.map CapturedElement.addr_id := by
  simp [loaded]

/-- Over an empty slot the copying store pads with zeros, as the donating one
does. -/
theorem store_polynomial_of_none {sim sim' : Simulator} {a q : ℕ} {values : Poly}
    (hnone : sim.memory a = none) (h : store_polynomial sim a values q = some sim') :
    sim' = sim.withMemory
      (Function.update sim.memory a (some ⟨resize values sim.ring_dim, q, true⟩)) := by
  obtain ⟨m, hm, rfl⟩ := Option.map_eq_some_iff.mp h
  rw [Memory.set] at hm
  split at hm
  · exact absurd hm (by simp)
  · rename_i hlen
    obtain rfl := Option.some.inj hm
    have hbuf : values ++ (sim.memory.reserve_dest sim.ring_dim a).drop values.length =
        resize values sim.ring_dim := by
      rw [Memory.reserve_dest, Memory.get, hnone]
      simp [resize, List.take_of_length_le (Nat.not_lt.mp hlen)]
    rw [hbuf]
    rfl

theorem store_captured_spec (elements : List CapturedElement) :
    ∀ sim sim' : Simulator, (elements.map CapturedElement.addr_id).Nodup →
      (∀ e ∈ elements, sim.memory e.addr_id = none) →
      store_captured sim elements = some sim' →
      sim' = sim.withMemory fun a => (loaded sim.ring_dim elements a).or (sim.memory a) := by
  induction elements with
  | nil =>
    intro sim sim' _ _ h
    obtain rfl := Option.some.inj h
    rfl
  | cons e rest ih =>
    intro sim sim' hnodup hnone h
    rw [store_captured, List.foldlM_cons] at h
    obtain ⟨sim₁, hstore, hrest⟩ := Option.bind_eq_some_iff.mp h
    obtain ⟨hnotin, hnodup⟩ := List.nodup_cons.mp hnodup
    -- the addresses differ, so what is stored first is not stored over
    have hne : ∀ e' ∈ rest, e'.addr_id ≠ e.addr_id := fun e' he' heq =>
      hnotin (heq ▸ List.mem_map_of_mem he')
    obtain rfl := store_polynomial_of_none (hnone e List.mem_cons_self) hstore
    rw [ih _ sim' hnodup (fun e' he' => ?_) hrest]
    · refine congrArg sim.withMemory (funext fun a => ?_)
      by_cases ha : a = e.addr_id
      · subst ha
        rw [loaded_cons_self]
        simp [Simulator.withMemory, loaded_eq_none_iff.mpr hnotin]
      · rw [loaded_cons_of_ne ha]
        simp [Simulator.withMemory, Function.update_of_ne ha]
    · exact (Function.update_of_ne (hne e' he') _ _).trans
        (hnone e' (List.mem_cons_of_mem _ he'))

theorem populate_sink_spec (live_in : List ℕ) (elements : List CapturedElement) :
    ∀ st : Simulator × List ℕ, (elements.map CapturedElement.addr_id).Nodup →
      (elements.foldl (populate_sink live_in) st).1 =
          (st.1.withMemory fun a =>
            if a ∈ live_in then (loaded st.1.ring_dim elements a).or (st.1.memory a)
            else st.1.memory a) ∧
        ∀ a, a ∈ (elements.foldl (populate_sink live_in) st).2 ↔
          a ∈ st.2 ∨ (a ∈ live_in ∧ a ∈ elements.map CapturedElement.addr_id) := by
  induction elements with
  | nil =>
    intro st _
    refine ⟨?_, fun a => by simp⟩
    simp [loaded, Simulator.withMemory]
  | cons e rest ih =>
    intro st hnodup
    obtain ⟨hnotin, hnodup⟩ := List.nodup_cons.mp hnodup
    obtain ⟨hmem, hstored⟩ := ih (populate_sink live_in st e) hnodup
    refine ⟨?_, fun a => ?_⟩
    · rw [List.foldl_cons, hmem]
      -- only live-in elements are stored and counted
      by_cases hlive : e.addr_id ∈ live_in
      · rw [populate_sink, if_pos hlive]
        refine congrArg st.1.withMemory (funext fun a => ?_)
        by_cases ha : a = e.addr_id
        · subst ha
          rw [loaded_cons_self]
          simp [hlive, store_polynomial_owned, Memory.set_owned, loaded_eq_none_iff.mpr hnotin]
        · rw [loaded_cons_of_ne ha]
          simp [store_polynomial_owned, Memory.set_owned, Function.update_of_ne ha]
      · rw [populate_sink, if_neg hlive]
        refine congrArg st.1.withMemory (funext fun a => ?_)
        by_cases ha : a = e.addr_id
        · subst ha
          rw [if_neg hlive, if_neg hlive]
        · rw [loaded_cons_of_ne ha]
    · rw [List.foldl_cons, hstored a]
      by_cases hlive : e.addr_id ∈ live_in
      · rw [populate_sink, if_pos hlive]
        by_cases ha : a = e.addr_id
        · subst ha
          simp [hlive]
        · simp [ha]
      · rw [populate_sink, if_neg hlive]
        by_cases ha : a = e.addr_id
        · subst ha
          simp [hlive, hnotin]
        · simp [ha]

/-! ## The two runs -/

/-- The simulator both replays run, up to its memory. -/
def replaySimulator (N : ℕ) (p : Program) (live_out : List ℕ) : Simulator :=
  compute_liveness
    (set_live_out_addresses (load_program (set_ring_dimension {} N) p).1 live_out) false

def OutputRecord.addrs (output : OutputRecord) : List ℕ := output.elements.map Prod.fst

variable {M} {N : ℕ} {p : Program} {inputs : List InputRecord} {outputs : List OutputRecord}

/-- The process runs over everything it captured. -/
theorem Compiler.replay_run {A : List ReplayOutput}
    (hnodup : ((inputs.flatMap InputRecord.elements).map CapturedElement.addr_id).Nodup)
    (h : Compiler.replay M N p inputs [] outputs = some (some A)) :
    N ≠ 0 ∧ p.instructions.isEmpty = false ∧ ∃ f r,
      run M ((replaySimulator N p (outputs.flatMap OutputRecord.addrs)).withMemory
        (loaded N (inputs.flatMap InputRecord.elements))) = some (f, r) ∧
      r.errors = 0 ∧ A = Compiler.write_replay_outputs f outputs := by
  rw [Compiler.replay] at h
  -- each check that fails returns no outputs, so a run with outputs has passed them all
  by_cases hN : N = 0
  · rw [if_pos hN] at h
    exact absurd (Option.some.inj h) (by simp)
  · rw [if_neg hN] at h
    cases hempty : p.instructions.isEmpty with
    | true => simp [load_program, hempty] at h
    | false =>
      refine ⟨hN, rfl, ?_⟩
      simp only [load_program, hempty, Bool.not_false, Bool.not_true, Bool.false_eq_true,
        if_false] at h
      obtain ⟨sim, hstore, h⟩ := Option.bind_eq_some_iff.mp h
      obtain rfl := store_captured_spec _ _ sim hnodup (fun _ _ => rfl) hstore
      simp only [propagate, List.foldl_nil] at h
      obtain ⟨⟨f, r⟩, hrun, hA⟩ := Option.map_eq_some_iff.mp h
      refine ⟨f, r, ?_, ?_⟩
      · rw [← hrun]
        refine congrArg (fun m => run M ((replaySimulator N p _).withMemory m)) (funext fun a => ?_)
        exact (Option.or_none).symm
      · by_cases herr : 0 < r.errors
        · rw [if_pos herr] at hA
          exact absurd hA (by simp)
        · rw [if_neg herr] at hA
          exact ⟨by omega, (Option.some.inj hA).symm⟩

/-- The worker runs over the live-in part of it. -/
theorem run_local_replay_run {elements : List CapturedElement} (named : List NamedOutput)
    (hN : N ≠ 0) (hempty : p.instructions.isEmpty = false)
    (hnodup : (elements.map CapturedElement.addr_id).Nodup)
    (hsupply : ∀ a ∈ get_read_before_write_addresses p.instructions,
      a ∈ elements.map CapturedElement.addr_id) :
    run_local_replay_from_project M N p elements named =
      (run M ((replaySimulator N p (named.flatMap NamedOutput.addr_ids)).withMemory fun a =>
        if a ∈ get_read_before_write_addresses p.instructions then loaded N elements a
        else none)).map fun r =>
          if 0 < r.2.errors then none else some (write_replay_outputs r.1 named) := by
  obtain ⟨hmem, hstored⟩ := populate_sink_spec (get_read_before_write_addresses p.instructions)
    elements ((load_program (set_ring_dimension {} N) p).1, []) hnodup
  -- every live-in is found among the elements, so nothing is reported missing
  have hall : (get_read_before_write_addresses p.instructions).all fun a => a ∈
      (elements.foldl (populate_sink (get_read_before_write_addresses p.instructions))
        ((load_program (set_ring_dimension {} N) p).1, [])).2 := by
    rw [List.all_eq_true]
    intro a ha
    exact decide_eq_true ((hstored a).mpr (.inr ⟨ha, hsupply a ha⟩))
  have hpopulate : populate_inputs (load_program (set_ring_dimension {} N) p).1 elements =
      some ((load_program (set_ring_dimension {} N) p).1.withMemory fun a =>
        if a ∈ get_read_before_write_addresses p.instructions then loaded N elements a
        else none) := by
    rw [populate_inputs]
    refine (if_pos hall).trans (congrArg some (hmem.trans ?_))
    refine congrArg (Simulator.withMemory _) (funext fun a => ?_)
    split
    · exact Option.or_none
    · rfl
  have hloaded : (load_program (set_ring_dimension {} N) p).2 = true := by
    simp [load_program, hempty]
  rw [run_local_replay_from_project, if_neg hN]
  simp only [hloaded, Bool.not_true, Bool.false_eq_true, if_false, hpopulate]
  rfl

/-! ## Agreement -/

/-- What the two reports have in common: names, statuses and values. The moduli
come from different places. -/
def ReplayOutput.view (o : ReplayOutput) : Str × List (ℕ × ElementStatus × Poly) :=
  (o.name, o.elements.map fun e => (e.addr_id, e.status, e.values))

theorem view_eq_iff {f f' : Simulator} :
    (Compiler.write_replay_outputs f outputs).map ReplayOutput.view =
        (write_replay_outputs f' (outputs.map OutputRecord.toNamed)).map ReplayOutput.view ↔
      ∀ a ∈ outputs.flatMap OutputRecord.addrs, get_polynomial f a = get_polynomial f' a := by
  rw [Compiler.write_replay_outputs, write_replay_outputs, List.map_map, List.map_map,
    List.map_map, List.map_inj_left]
  simp only [List.mem_flatMap, OutputRecord.addrs, List.mem_map, Function.comp_apply,
    ReplayOutput.view, OutputRecord.toNamed, List.map_map, Prod.mk.injEq, true_and,
    List.map_inj_left, replay_element]
  constructor
  · rintro h a ⟨o, ho, e, he, rfl⟩
    exact (h o ho e he).2
  · intro h o ho e he
    have := h e.1 ⟨o, ho, e, he, rfl⟩
    rw [this]
    exact ⟨rfl, rfl⟩

theorem get_polynomial_congr {f f' : Simulator} {a : ℕ} (h : f.memory a = f'.memory a) :
    get_polynomial f a = get_polynomial f' a := by
  rw [get_polynomial, get_polynomial, Memory.is_initialized, Memory.is_initialized, Memory.get,
    Memory.get, h]

/-- Two error-free replays of one project report the same statuses and
values. -/
def ReplaysAgree (M : NativeMath) (N : ℕ) (p : Program) (inputs : List InputRecord)
    (outputs : List OutputRecord) : Prop :=
  ∀ A B, Compiler.replay M N p inputs [] outputs = some (some A) →
    run_local_replay_from_project M N p (inputs.flatMap InputRecord.elements)
      (outputs.map OutputRecord.toNamed) = some (some B) →
    A.map ReplayOutput.view = B.map ReplayOutput.view

/-- Every captured output address is live-in or written by the program. -/
def NonePassedThrough (p : Program) (inputs : List InputRecord) (outputs : List OutputRecord) : Prop :=
  ∀ a ∈ outputs.flatMap OutputRecord.addrs,
    a ∈ (inputs.flatMap InputRecord.elements).map CapturedElement.addr_id →
      a ∈ get_read_before_write_addresses p.instructions ∨ WrittenBy p.instructions a

/-- An output that both runs hold the same values for, if it was captured, is live-in or
written: the process still has what it loaded there, and the worker loaded only what is
live-in. -/
theorem used_of_same_values {elements : List CapturedElement} {live_out : List ℕ} {f f' : Simulator} {r r' : SimResult}
    (hN : N ≠ 0)
    (hf : run M ((replaySimulator N p live_out).withMemory (loaded N elements)) = some (f, r))
    (hf' : run M ((replaySimulator N p live_out).withMemory fun a =>
      if a ∈ get_read_before_write_addresses p.instructions then loaded N elements a else none) = some (f', r'))
    {a : ℕ} (hout : a ∈ live_out) (hcapt : a ∈ elements.map CapturedElement.addr_id)
    (heq : get_polynomial f a = get_polynomial f' a) :
    a ∈ get_read_before_write_addresses p.instructions ∨ WrittenBy p.instructions a := by
  by_contra hneither
  obtain ⟨hnotlive, hnotwritten⟩ := not_or.mp hneither
  have hfree : ∀ j, a ∉ ((replaySimulator N p live_out).free_after_).getD j [] :=
    free_schedule_live_out hout
  have hw : ∀ inst ∈ p.instructions, (execUses inst).writes → (execUses inst).write ≠ a :=
    fun inst hinst hw hdest => hnotwritten ⟨inst, hinst, hw, hdest⟩
  have h₁ : f.memory a = loaded N elements a := run_keep hN hfree hw hf
  have h₂ : f'.memory a = none := (run_keep hN hfree hw hf').trans (if_neg hnotlive)
  obtain ⟨e, he⟩ : ∃ e, loaded N elements a = some e :=
    Option.ne_none_iff_exists'.mp fun hnone => loaded_eq_none_iff.mp hnone hcapt
  obtain ⟨c, -, rfl⟩ := Option.map_eq_some_iff.mp he
  rw [get_polynomial, get_polynomial, Memory.is_initialized, Memory.is_initialized, Memory.get,
    Memory.get, h₁, h₂, he] at heq
  have hlen := congrArg List.length heq
  simp only [Option.getD_some, Option.getD_none, if_true, resize_length] at hlen
  exact hN hlen

/-- **The worker and the process agree** on an error-free run if no captured address is
read where the scan misses it, and every captured output address is live-in or written by
the program. Wherever the worker returns, the second is needed. -/
theorem replays_agree_iff (M : NativeMath) (N : ℕ) (p : Program) (inputs : List InputRecord)
    (outputs : List OutputRecord) (A : List ReplayOutput)
    (hnodup : ((inputs.flatMap InputRecord.elements).map CapturedElement.addr_id).Nodup)
    (hsupply : ∀ a ∈ get_read_before_write_addresses p.instructions,
      a ∈ (inputs.flatMap InputRecord.elements).map CapturedElement.addr_id)
    (hrun : Compiler.replay M N p inputs [] outputs = some (some A)) :
    ((∀ a ∈ (inputs.flatMap InputRecord.elements).map CapturedElement.addr_id, ¬ HidesRead N a p.instructions) →
      (∃ B, run_local_replay_from_project M N p (inputs.flatMap InputRecord.elements)
        (outputs.map OutputRecord.toNamed) = some (some B)) ∧
      (ReplaysAgree M N p inputs outputs ↔ NonePassedThrough p inputs outputs)) ∧
    ((∃ B, run_local_replay_from_project M N p (inputs.flatMap InputRecord.elements)
        (outputs.map OutputRecord.toNamed) = some (some B)) →
      ReplaysAgree M N p inputs outputs → NonePassedThrough p inputs outputs) := by
  have hreplay := hrun
  obtain ⟨hN, hempty, f, r, hf, hr, rfl⟩ := Compiler.replay_run hnodup hrun
  have hnamed : (outputs.map OutputRecord.toNamed).flatMap NamedOutput.addr_ids =
      outputs.flatMap OutputRecord.addrs := by
    rw [List.flatMap_map]
    rfl
  have hworker := run_local_replay_run (M := M) (outputs.map OutputRecord.toNamed)
    hN hempty hnodup hsupply
  rw [hnamed] at hworker
  -- what the worker's return says of a run of it
  have hneeded : (∃ B, run_local_replay_from_project M N p (inputs.flatMap InputRecord.elements)
      (outputs.map OutputRecord.toNamed) = some (some B)) →
      ReplaysAgree M N p inputs outputs → NonePassedThrough p inputs outputs := by
    rintro ⟨B, hB⟩ hagree a hout hcapt
    have hsame := hagree _ B hreplay hB
    rw [hworker] at hB
    obtain ⟨⟨f', r'⟩, hf', hB⟩ := Option.map_eq_some_iff.mp hB
    dsimp only at hB
    split at hB
    · exact absurd hB (by simp)
    · obtain rfl := Option.some.inj hB
      exact used_of_same_values hN hf hf' hout hcapt (view_eq_iff.mp hsame a hout)
  refine ⟨fun hhidden => ?_, hneeded⟩
  -- the two memories share what was not captured and what is live-in
  let known (a : ℕ) : Prop := a ∉ (inputs.flatMap InputRecord.elements).map CapturedElement.addr_id ∨
    a ∈ get_read_before_write_addresses p.instructions
  have hcover : ∀ a ∈ read_before_write (usesAt N) p.instructions, known a := fun a ha => by
    by_cases hmem : a ∈ (inputs.flatMap InputRecord.elements).map CapturedElement.addr_id
    · exact .inr (found_of_not_hidden (hhidden a hmem) ha)
    · exact .inl hmem
  have hm : ∀ a, known a → loaded N (inputs.flatMap InputRecord.elements) a =
      if a ∈ get_read_before_write_addresses p.instructions then loaded N (inputs.flatMap InputRecord.elements) a
      else none := fun a ha => by
    split
    · rfl
    · exact loaded_eq_none_iff.mpr (ha.resolve_right ‹_›)
  obtain ⟨f', hf', hagree⟩ :=
    run_agree (s := replaySimulator N p (outputs.flatMap OutputRecord.addrs)) hN known hcover hm hf hr
  have hreturns : run_local_replay_from_project M N p (inputs.flatMap InputRecord.elements)
      (outputs.map OutputRecord.toNamed) = some (some (write_replay_outputs f' (outputs.map OutputRecord.toNamed))) := by
    rw [hworker, hf', Option.map_some, if_neg (show ¬ 0 < r.errors by omega)]
  refine ⟨⟨_, hreturns⟩, hneeded ⟨_, hreturns⟩, fun hnone A B hA hB => ?_⟩
  obtain rfl := Option.some.inj (Option.some.inj (hreplay.symm.trans hA))
  obtain rfl := Option.some.inj (Option.some.inj (hreturns.symm.trans hB))
  refine view_eq_iff.mpr fun a hout => get_polynomial_congr (hagree a ?_)
  by_cases hcapt : a ∈ (inputs.flatMap InputRecord.elements).map CapturedElement.addr_id
  · exact (hnone a hout hcapt).imp .inr id
  · exact .inl (.inl hcapt)

/-- One addition; a residue at `%5` is captured and tagged as an output, and the
program touches neither. -/
def passThrough : Program where
  modulus_table := [17]
  instructions := [{ opcode := .FH_SR_ADDP, dest := 2, src1 := 1, src2 := 1, modulus := some 0 }]

theorem replays_disagree_passThrough :
    (∀ a ∈ get_read_before_write_addresses passThrough.instructions, a ∈ [1, 5]) ∧
      ¬ ReplaysAgree referenceMath 1 passThrough [⟨str "in", [⟨1, [3], 17⟩, ⟨5, [4], 17⟩]⟩]
        [⟨str "out", [(5, 17)]⟩] := by
  refine ⟨by decide, fun h => ?_⟩
  exact absurd (h _ _ rfl rfl) (by decide)

theorem replays_agree_iff_passThrough :
    ∃ A, Compiler.replay referenceMath 1 passThrough [⟨str "in", [⟨1, [3], 17⟩, ⟨5, [4], 17⟩]⟩] []
        [⟨str "out", [(2, 17)]⟩] = some (some A) ∧
      ReplaysAgree referenceMath 1 passThrough [⟨str "in", [⟨1, [3], 17⟩, ⟨5, [4], 17⟩]⟩]
        [⟨str "out", [(2, 17)]⟩] := by
  refine ⟨_, rfl, ((replays_agree_iff referenceMath 1 passThrough _ _ _ (by decide) (by decide) rfl).1 ?_).2.mpr ?_⟩
  · exact fun a _ => not_hidesRead_of_assigned 0 a (by simp [passThrough, Unassigned])
  · exact fun a ha _ => .inr ⟨_, List.mem_cons_self, rfl, (List.mem_singleton.mp (show a ∈ [2] from ha)).symm⟩

end Fhetch
