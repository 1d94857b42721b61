/-
Replaying on a cache hit.

A process that finds the trace in the cache builds and tags its inputs and records
nothing, so it has a modulus for an input only where one comes with the tag or was
bound by hand. The sync passes the others over, and the trace then reads zeros. What
is lost is exactly that: an input that is captured under no tag and that the trace
reads before it writes it, or that is an output the trace does not write.
-/
import Fhetch.Sessions
import Fhetch.Lib.Runs

set_option autoImplicit false

namespace Fhetch

open Runs

/-! ## Building inputs -/

/-- What a program calls to build and tag its inputs. An MRP over a base makes its
residues with `zeros`. -/
inductive InputCall where
  | zeros (ring_dim : ℕ) (fmt : Format)
  | zeros_ni (ring_dim : ℕ) (fmt : Format)
  | from_data (components : List UInt64) (ring_dim : ℕ) (fmt : Format)
  | from_int (value : UInt64)
  | bind_modulus (p : Polynomial) (q : UInt64)
  | tag_input (name : Str) (t : Tagged)

/-- A client: what its process keeps, and the polynomials it was given. -/
structure Client where
  compiler : Compiler := {}
  made : List Polynomial := []

namespace Client

/-- Perform a call and keep the polynomials it gives. -/
def perform {α : Type} (c : Client) (call : Api α) (given : α → List Polynomial) : Client :=
  match call.run c.compiler.session with
  | some (a, s) => { compiler := { c.compiler with session := s }, made := given a ++ c.made }
  | none => c

def input (c : Client) : InputCall → Client
  | .zeros ring_dim fmt => c.perform (Polynomial.zeros ring_dim fmt) ([·])
  | .zeros_ni ring_dim fmt => c.perform (Polynomial.zeros_ni ring_dim fmt) ([·])
  | .from_data components ring_dim fmt =>
    c.perform (Polynomial.from_data components ring_dim fmt) ([·])
  | .from_int value => c.perform (Scalar.from_int value) fun _ => []
  | .bind_modulus p q => c.perform (bind_modulus p q) fun _ => []
  | .tag_input name t => c.perform (Fhetch.tag_input name t) fun _ => []

/-- A polynomial comes out of a call. -/
def Allowed (c : Client) : InputCall → Prop
  | .bind_modulus p _ => p ∈ c.made
  | .tag_input _ t => ∀ p ∈ t.polynomials, p ∈ c.made
  | _ => True

/-- A polynomial is tagged as an input, or as part of one. -/
def IsInput (c : Client) (t : Polynomial) : Prop :=
  ∃ e ∈ c.compiler.session.input_registry, t ∈ e.tagged.polynomials

/-- What holds of a client that has built inputs in a fresh process. -/
structure Building (c : Client) : Prop where
  handed : ∀ t ∈ c.made, t.address < c.compiler.session.next_address_
  apart : ∀ t ∈ c.made, ∀ t' ∈ c.made, t.address = t'.address → t = t'
  inputs : ∀ t, c.IsInput t → t ∈ c.made
  fresh : c.compiler.captured_inputs = [] ∧ c.compiler.g_synced_since_reset = false

theorem building_start : Building {} where
  handed := List.forall_mem_nil _
  apart := List.forall_mem_nil _
  inputs := by
    rintro t ⟨e, he, -⟩
    exact absurd he List.not_mem_nil
  fresh := ⟨rfl, rfl⟩

variable {c : Client}

/-- The session one address further on. -/
def pass (c : Client) : Session :=
  { c.compiler.session with next_address_ := c.compiler.session.next_address_ + 1 }

/-- A new polynomial is at an address that no other one has. -/
theorem Building.make (h : c.Building) {t : Polynomial}
    (ht : t.address = c.compiler.session.next_address_) :
    Building ⟨{ c.compiler with session := c.pass }, t :: c.made⟩ where
  handed := by
    rintro t' (_ | ⟨_, ht'⟩)
    · exact ht ▸ Nat.lt_succ_self _
    · exact (h.handed t' ht').trans (Nat.lt_succ_self _)
  apart := by
    -- an older address is below the counter
    have hne : ∀ t' ∈ c.made, t'.address ≠ t.address := fun t' ht' =>
      ht ▸ (h.handed t' ht').ne
    rintro t₁ (_ | ⟨_, h₁⟩) t₂ (_ | ⟨_, h₂⟩) heq
    · rfl
    · exact absurd heq.symm (hne t₂ h₂)
    · exact absurd heq (hne t₁ h₁)
    · exact h.apart t₁ h₁ t₂ h₂ heq
  inputs := fun t' ht' => List.mem_cons_of_mem _ (h.inputs t' ht')
  fresh := h.fresh

theorem Building.input (h : c.Building) {call : InputCall} (hcall : c.Allowed call) :
    (c.input call).Building := by
  cases call with
  | zeros ring_dim fmt => exact h.make (t := ⟨_, ring_dim, fmt, .Integer, []⟩) rfl
  | zeros_ni ring_dim fmt => exact h.make (t := ⟨_, ring_dim, fmt, .NonInteger, []⟩) rfl
  | from_data components ring_dim fmt =>
    exact h.make (t := ⟨_, ring_dim, fmt, .Integer, components⟩) rfl
  | from_int value =>
    exact ⟨fun t ht => (h.handed t ht).trans (Nat.lt_succ_self _), h.apart, h.inputs, h.fresh⟩
  | bind_modulus p q =>
    have hframe : (c.compiler.session.remember_modulus p.address q).next_address_ =
        c.compiler.session.next_address_ ∧
        (c.compiler.session.remember_modulus p.address q).input_registry =
        c.compiler.session.input_registry := by
      rw [Session.remember_modulus_frame]
      exact ⟨rfl, rfl⟩
    refine ⟨fun t ht => ?_, h.apart, fun t ht => ?_, h.fresh⟩
    · show t.address < (c.compiler.session.remember_modulus p.address q).next_address_
      rw [hframe.1]
      exact h.handed t ht
    · obtain ⟨e, he, hmem⟩ := ht
      change e ∈ (c.compiler.session.remember_modulus p.address q).input_registry at he
      rw [hframe.2] at he
      exact h.inputs t ⟨e, he, hmem⟩
  | tag_input name t =>
    refine ⟨h.handed, h.apart, fun t' ht' => ?_, h.fresh⟩
    obtain ⟨e, he, hmem⟩ := ht'
    rcases List.mem_append.mp he with he | he
    · exact h.inputs t' ⟨e, he, hmem⟩
    · obtain rfl := List.mem_singleton.mp he
      exact hcall t' hmem

/-- The client that some calls lead to. -/
def after (calls : List InputCall) : Client := Runs.run Client.input {} calls

theorem building_after {calls : List InputCall} (h : Along Client.input Allowed {} calls) :
    (after calls).Building :=
  run_invariant (fun _ _ hcall h => h.input hcall) building_start h

end Client

/-! ## What a replay loads -/

/-- The captured inputs that `replay()` goes through. -/
def Compiler.replay_inputs (c : Compiler) : List InputRecord :=
  c.sync_fhetch_state_to_compiler.captured_inputs.map fun r => ⟨r.name, r.elements⟩

/-- An address that a run reads before it writes it. -/
def ReadsFirst (N : ℕ) (p : Program) (a : ℕ) : Prop :=
  a ∈ read_before_write (usesAt N) p.instructions

instance (N : ℕ) (p : Program) (a : ℕ) : Decidable (ReadsFirst N p a) := by
  unfold ReadsFirst; infer_instance

/-- The values of a polynomial. -/
def input_values (t : Polynomial) : Poly := (data_or_zeros t).map UInt64.toNat

namespace Client

variable {c : Client} {N : ℕ} {p : Program}

/-- Every input that the trace reads before it writes it is stored. -/
def StoresReads (c : Client) (N : ℕ) (p : Program) : Prop :=
  ∀ t, c.IsInput t → ReadsFirst N p t.address →
    ∃ e ∈ c.compiler.replay_inputs.flatMap InputRecord.elements,
      e.addr_id = t.address ∧ e.values = input_values t

/-- **What reaches the compiler**: a polynomial under a tag that brings its modulus, or
whose modulus was bound, unless the name of the tag was taken by another kind. -/
def Captured (c : Client) (t : Polynomial) : Prop :=
  ∃ e ∈ c.compiler.session.input_registry, t ∈ e.tagged.polynomials ∧
    (e.tagged.HasModuli ∨ (c.compiler.session.address_modulus_map t.address).isSome) ∧
    name_kind (Tagged.elements c.compiler.session.address_modulus_map)
      c.compiler.session.input_registry e.name = some e.tagged.kind

theorem Captured.isInput {t : Polynomial} (h : c.Captured t) : c.IsInput t := by
  obtain ⟨e, he, ht, -⟩ := h
  exact ⟨e, he, ht⟩

theorem Building.mem_replay_inputs (h : c.Building) {x : CapturedElement} :
    x ∈ c.compiler.replay_inputs.flatMap InputRecord.elements ↔
      ∃ e ∈ c.compiler.session.input_registry,
        name_kind (Tagged.elements c.compiler.session.address_modulus_map)
          c.compiler.session.input_registry e.name = some e.tagged.kind ∧
        x ∈ e.tagged.elements c.compiler.session.address_modulus_map := by
  obtain ⟨hcaptured, hlatch⟩ := h.fresh
  have hsync : c.compiler.sync_fhetch_state_to_compiler.captured_inputs =
      sync_registry (Tagged.elements c.compiler.session.address_modulus_map) store_element
        c.compiler.session.input_registry [] := by
    rw [Compiler.sync_fhetch_state_to_compiler, hlatch, ← hcaptured]
    rfl
  rw [Compiler.replay_inputs, hsync, List.flatMap_map]
  exact (sync_registry_spec _ _).2 x

/-- What is stored is the data of a captured polynomial. -/
theorem Building.captured_of_mem (h : c.Building) {x : CapturedElement}
    (hx : x ∈ c.compiler.replay_inputs.flatMap InputRecord.elements) :
    ∃ t, c.Captured t ∧ ∃ q, x = captured_residue t q := by
  obtain ⟨e, he, hkind, hmem⟩ := h.mem_replay_inputs.mp hx
  obtain ⟨t, ht, q, rfl⟩ := Tagged.mem_elements hmem
  exact ⟨t, ⟨e, he, ht, (Tagged.captures_iff ht).mp ⟨q, hmem⟩, hkind⟩, q, rfl⟩

theorem Building.mem_of_captured (h : c.Building) {t : Polynomial} (ht : c.Captured t) :
    ∃ q, captured_residue t q ∈ c.compiler.replay_inputs.flatMap InputRecord.elements := by
  obtain ⟨e, he, hmem, hmodulus, hkind⟩ := ht
  obtain ⟨q, hq⟩ := (Tagged.captures_iff hmem).mpr hmodulus
  exact ⟨q, h.mem_replay_inputs.mpr ⟨e, he, hkind, hq⟩⟩

/-- The addresses that are stored to. -/
theorem Building.stored_address (h : c.Building) {t : Polynomial} (ht : c.IsInput t) :
    t.address ∈ (c.compiler.replay_inputs.flatMap InputRecord.elements).map CapturedElement.addr_id ↔
      c.Captured t := by
  constructor
  · intro hmem
    obtain ⟨x, hx, haddress⟩ := List.mem_map.mp hmem
    obtain ⟨t', ht', q, rfl⟩ := h.captured_of_mem hx
    rwa [← h.apart t' (h.inputs t' ht'.isInput) t (h.inputs t ht) haddress]
  · intro hcaptured
    obtain ⟨q, hq⟩ := h.mem_of_captured hcaptured
    exact List.mem_map.mpr ⟨_, hq, rfl⟩

/-- **The inputs a trace reads are stored** exactly when they are captured. -/
theorem Building.storesReads_iff (h : c.Building) : c.StoresReads N p ↔
    ∀ t, c.IsInput t → ReadsFirst N p t.address → c.Captured t := by
  refine forall_congr' fun t => forall_congr' fun ht => forall_congr' fun _ => ?_
  rw [← h.stored_address ht]
  constructor
  · rintro ⟨x, hx, haddress, -⟩
    exact List.mem_map.mpr ⟨x, hx, haddress⟩
  · intro hmem
    obtain ⟨q, hq⟩ := h.mem_of_captured ((h.stored_address ht).mp hmem)
    exact ⟨_, hq, rfl, rfl⟩

/-! ## The evaluation on the tagged data -/

/-- A memory that holds every tagged polynomial and nothing else. -/
structure InputMemory (c : Client) (N : ℕ) (m : Memory) : Prop where
  holds : ∀ t, c.IsInput t → (input_values t).length ≤ N ∧ m.Holds N t.address (input_values t)
  blank : ∀ a, (∀ t, c.IsInput t → t.address ≠ a) → m a = none

/-- **The evaluation** of a trace on the tagged data: the simulator runs over such a
memory without errors, and these are the outputs. -/
structure Evaluates (M : NativeMath) (c : Client) (N : ℕ) (p : Program)
    (outputs : List OutputRecord) (out : List ReplayOutput) : Prop where
  loads : p.instructions ≠ []
  runs : ∃ m f r, c.InputMemory N m ∧
    Fhetch.run M ((replaySimulator N p (outputs.flatMap OutputRecord.addrs)).withMemory m) =
      some (f, r) ∧
    r.errors = 0 ∧ out = Compiler.write_replay_outputs f outputs

/-- What an address is given. -/
def valueOf (c : Client) (a : ℕ) : Poly :=
  (((c.compiler.session.input_registry.flatMap fun e => e.tagged.polynomials).find?
    (·.address = a)).map input_values).getD []

theorem Building.valueOf_address (h : c.Building) {t : Polynomial} (ht : c.IsInput t) :
    c.valueOf t.address = input_values t := by
  have hmem : t ∈ c.compiler.session.input_registry.flatMap fun e => e.tagged.polynomials :=
    List.mem_flatMap.mpr ht
  have hsome : ((c.compiler.session.input_registry.flatMap fun e => e.tagged.polynomials).find?
      (·.address = t.address)).isSome := List.find?_isSome.mpr ⟨t, hmem, decide_eq_true rfl⟩
  obtain ⟨t', ht'⟩ := Option.isSome_iff_exists.mp hsome
  have haddress := List.find?_some ht'
  rw [decide_eq_true_iff] at haddress
  have hinput : c.IsInput t' := List.mem_flatMap.mp (List.mem_of_find?_eq_some ht')
  rw [valueOf, ht', h.apart t' (h.inputs t' hinput) t (h.inputs t ht) haddress]
  rfl

/-- What a replay stores, over the tagged data. -/
theorem Building.store (h : c.Building) {m : Memory} (hm : c.InputMemory N m) :
    ∃ m', store_captured (load_program (set_ring_dimension {} N) p).1
        (c.compiler.replay_inputs.flatMap InputRecord.elements) =
          some ((load_program (set_ring_dimension {} N) p).1.withMemory m') ∧
      (∀ t, c.Captured t → m'.Holds N t.address (input_values t)) ∧
      ∀ a, (¬ ∃ t, c.Captured t ∧ t.address = a) → m' a = none := by
  have hvalues : ∀ x ∈ c.compiler.replay_inputs.flatMap InputRecord.elements,
      x.values = c.valueOf x.addr_id ∧ x.values.length ≤ N := by
    intro x hx
    obtain ⟨t, ht, q, rfl⟩ := h.captured_of_mem hx
    exact ⟨(h.valueOf_address ht.isInput).symm, (hm.holds t ht.isInput).1⟩
  obtain ⟨m', hstore, hin, hout⟩ := store_captured_values hvalues
    (load_program (set_ring_dimension {} N) p).1 rfl fun _ _ => .inl rfl
  refine ⟨m', hstore, fun t ht => ?_, fun a ha => hout a fun hmem => ?_⟩
  · rw [← h.valueOf_address ht.isInput]
    exact hin _ ((h.stored_address ht.isInput).mpr ht)
  · obtain ⟨x, hx, rfl⟩ := List.mem_map.mp hmem
    obtain ⟨t, ht, q, rfl⟩ := h.captured_of_mem hx
    exact ha ⟨t, ht, rfl⟩

end Client

/-- Reports of the same outputs agree where the polynomials do. -/
theorem write_replay_outputs_eq_iff {f f' : Simulator} {outputs : List OutputRecord} :
    Compiler.write_replay_outputs f outputs = Compiler.write_replay_outputs f' outputs ↔
      ∀ a ∈ outputs.flatMap OutputRecord.addrs, get_polynomial f a = get_polynomial f' a := by
  rw [Compiler.write_replay_outputs, Compiler.write_replay_outputs, List.map_inj_left]
  simp only [List.mem_flatMap, OutputRecord.addrs, List.mem_map, ReplayOutput.mk.injEq, true_and,
    List.map_inj_left, replay_element]
  constructor
  · rintro h a ⟨o, ho, e, he, rfl⟩
    exact (ReplayElement.mk.inj (h o ho e he)).2.2.2
  · intro h o ho e he
    rw [h e.1 ⟨o, ho, e, he, rfl⟩]

namespace Client

variable {c : Client} {N : ℕ} {p : Program} {M : NativeMath} {outputs : List OutputRecord}

/-- A memory that is one where something holds and another elsewhere. -/
theorem exists_overlay (P : ℕ → Prop) (m m' : Memory) :
    ∃ m₁ : Memory, (∀ a, P a → m₁ a = m' a) ∧ ∀ a, ¬ P a → m₁ a = m a := by
  classical
  exact ⟨fun a => if P a then m' a else m a, fun a ha => if_pos ha, fun a ha => if_neg ha⟩

/-- **A replay next to the evaluation.** When what the trace reads is captured, the
replay runs as the evaluation does; it ends with the same polynomial wherever the
trace wrote or no input was lost, and with nothing where a lost input lies unwritten. -/
theorem Building.replay_beside (h : c.Building)
    (hreads : ∀ t, c.IsInput t → ReadsFirst N p t.address → c.Captured t) (hp : p.instructions ≠ [])
    {m : Memory} {f : Simulator} {r : SimResult} (hm : c.InputMemory N m)
    (hrun : Fhetch.run M ((replaySimulator N p (outputs.flatMap OutputRecord.addrs)).withMemory m) =
      some (f, r)) (hr : r.errors = 0) :
    ∃ f', Compiler.replay M N p c.compiler.replay_inputs [] outputs =
        some (some (Compiler.write_replay_outputs f' outputs)) ∧
      (∀ a, (∀ t, c.IsInput t → t.address = a → c.Captured t) ∨ WrittenBy p.instructions a →
        get_polynomial f a = get_polynomial f' a) ∧
      ∀ t, c.IsInput t → ¬ c.Captured t → t.address ∈ outputs.flatMap OutputRecord.addrs →
        ¬ WrittenBy p.instructions t.address →
        get_polynomial f t.address ≠ get_polynomial f' t.address := by
  have hN : N ≠ 0 := by
    rintro rfl
    obtain ⟨-, rfl⟩ := Prod.mk.inj (Option.some.inj hrun)
    exact absurd hr (by decide)
  obtain ⟨m', hstore, hin, hout⟩ := h.store (p := p) hm
  -- the evaluation's memory, with the moduli that the replay stores
  obtain ⟨m₁, hstored, hrest⟩ := exists_overlay (fun a => ∃ t, c.Captured t ∧ t.address = a) m m'
  have hsame : m₁.SameValues m := by
    intro a
    by_cases ha : ∃ t, c.Captured t ∧ t.address = a
    · rw [hstored a ha]
      obtain ⟨t, ht, rfl⟩ := ha
      obtain ⟨q, hq⟩ := hin t ht
      obtain ⟨q', hq'⟩ := (hm.holds t ht.isInput).2
      rw [hq, hq']
      rfl
    · rw [hrest a ha]
  obtain ⟨f₁, hrun₁, hvalues⟩ := run_sameValues hsame hrun
  -- the two memories differ at the lost inputs only
  have hknown : ∀ a, (∀ t, c.IsInput t → t.address = a → c.Captured t) → m₁ a = m' a := by
    intro a ha
    by_cases hcaptured : ∃ t, c.Captured t ∧ t.address = a
    · exact hstored a hcaptured
    · rw [hrest a hcaptured, hout a hcaptured]
      exact hm.blank a fun t ht heq => hcaptured ⟨t, ha t ht heq, heq⟩
  obtain ⟨f', hrun', hagree⟩ := run_agree
    (s := replaySimulator N p (outputs.flatMap OutputRecord.addrs)) hN
    (fun a => ∀ t, c.IsInput t → t.address = a → c.Captured t)
    (fun a ha t ht heq => hreads t ht (heq ▸ ha)) hknown hrun₁ hr
  refine ⟨f', ?_, fun a ha => ?_, fun t ht hlost hlive hunwritten heq => ?_⟩
  · rw [Compiler.replay_stored hN hp hstore, hrun', Option.map_some,
      if_neg (show ¬ 0 < r.errors by omega)]
  · rw [← hvalues.get_polynomial a]
    exact get_polynomial_congr (hagree a ha)
  · -- an output is not freed, so it is as it was at the start
    have hkeep : ∀ {m : Memory} {f : Simulator}, Fhetch.run M ((replaySimulator N p
        (outputs.flatMap OutputRecord.addrs)).withMemory m) = some (f, r) →
        f.memory t.address = m t.address := by
      intro m f hrun
      exact run_keep hN (free_schedule_live_out hlive)
        (fun inst hinst hw hdest => hunwritten ⟨inst, hinst, hw, hdest⟩) hrun
    obtain ⟨q, hq⟩ := (hm.holds t ht).2
    have hnone : m' t.address = none := by
      apply hout
      rintro ⟨t', ht', haddress⟩
      exact hlost (h.apart t' (h.inputs t' ht'.isInput) t (h.inputs t ht) haddress ▸ ht')
    rw [get_polynomial, get_polynomial, Memory.is_initialized, Memory.is_initialized, Memory.get,
      Memory.get, hkeep hrun, hkeep hrun', hq, hnone] at heq
    have hlength := congrArg List.length heq
    simp only [Option.getD_some, Option.getD_none, if_true, resize_length] at hlength
    exact hN hlength

/-- **A cache-hit replay loads what the trace reads** exactly when each input that the
trace reads before it writes it is captured; and where the trace evaluates on the
tagged data, the replay also reports that evaluation exactly when each input that is
an output and that the trace does not write is captured too. -/
theorem cache_hit_replay_iff {calls : List InputCall} (hcalls : Along Client.input Allowed {} calls)
    (M : NativeMath) (N : ℕ) (p : Program) (outputs : List OutputRecord) :
    ((after calls).StoresReads N p ↔
        ∀ t, (after calls).IsInput t → ReadsFirst N p t.address → (after calls).Captured t) ∧
      ∀ out, (after calls).Evaluates M N p outputs out →
        ((after calls).StoresReads N p ∧
            Compiler.replay M N p (after calls).compiler.replay_inputs [] outputs = some (some out) ↔
          ∀ t, (after calls).IsInput t →
            (ReadsFirst N p t.address ∨ (t.address ∈ outputs.flatMap OutputRecord.addrs ∧
              ¬ WrittenBy p.instructions t.address)) → (after calls).Captured t) := by
  have h := building_after hcalls
  refine ⟨h.storesReads_iff, fun out hout => ?_⟩
  obtain ⟨m, f, r, hm, hrun, hr, rfl⟩ := hout.runs
  rw [h.storesReads_iff]
  constructor
  · rintro ⟨hreads, hreplay⟩ t ht (hread | ⟨hlive, hunwritten⟩)
    · exact hreads t ht hread
    · obtain ⟨f', hreplay', -, hlost⟩ := h.replay_beside hreads hout.loads hm hrun hr
      rw [hreplay', Option.some.injEq, Option.some.injEq, eq_comm, write_replay_outputs_eq_iff] at hreplay
      -- an input that was dropped reads as absent where it had been loaded
      by_contra hcaptured
      exact hlost t ht hcaptured hlive hunwritten (hreplay _ hlive)
  · intro hcond
    have hreads : ∀ t, (after calls).IsInput t → ReadsFirst N p t.address → (after calls).Captured t :=
      fun t ht hread => hcond t ht (.inl hread)
    obtain ⟨f', hreplay', hagree, -⟩ := h.replay_beside hreads hout.loads hm hrun hr
    refine ⟨hreads, ?_⟩
    rw [hreplay', Option.some.injEq, Option.some.injEq, eq_comm, write_replay_outputs_eq_iff]
    intro a ha
    apply hagree
    -- what the program writes agrees anyway; what it does not write was loaded
    by_cases hwritten : WrittenBy p.instructions a
    · exact .inr hwritten
    · exact .inl fun t ht heq => hcond t ht (.inr ⟨heq ▸ ha, heq ▸ hwritten⟩)

/-! ### One input, doubled -/

/-- What both processes call first. -/
def oneInput : List InputCall :=
  [.from_data [3] 1 .Evaluation,
   .tag_input (str "a") (.POLY ⟨0, 1, .Evaluation, .Integer, [3]⟩)]

/-- The process that finds no trace goes on to record a sum and to tag it; this is
what it writes. -/
def recordDoubling : Option Program := do
  let a ← (after oneInput).made.head?
  let c := (after oneInput).compiler.start
  let (r, s) ← (sr_addp a a 17).run c.session
  let (_, s) ← (tag_output (str "r") (.POLY r)).run s
  return ({ c with session := s } : Compiler).stop.session.writer.normalize_modulus_table.program 0

def doubling : Program where
  modulus_table := [COPY_MODULUS_VALUE, 17]
  instructions :=
    [{ opcode := .FH_SR_ADDP, dest := 0, src1 := 0, src2 := 0, modulus := some 1 },
     { opcode := .FH_HALT }]

theorem cache_hit_drops_single_residue :
    (recordDoubling.map Program.instructions = some doubling.instructions ∧
      recordDoubling.map Program.modulus_table = some doubling.modulus_table) ∧
    ¬ (after oneInput).StoresReads 1 doubling ∧
    ∃ out, (after oneInput).Evaluates referenceMath 1 doubling [⟨str "r", [(0, 0)]⟩] out ∧
      Compiler.replay referenceMath 1 doubling (after oneInput).compiler.replay_inputs []
        [⟨str "r", [(0, 0)]⟩] ≠ some (some out) := by
  have hinput : ∀ t, (after oneInput).IsInput t ↔ t = ⟨0, 1, .Evaluation, .Integer, [3]⟩ := by
    intro t
    constructor
    · rintro ⟨e, he, ht⟩
      obtain rfl := List.mem_singleton.mp he
      exact List.mem_singleton.mp ht
    · rintro rfl
      exact ⟨_, List.mem_singleton_self _, List.mem_singleton_self _⟩
  refine ⟨⟨by decide, by decide⟩, fun h => ?_, ?_⟩
  · obtain ⟨e, he, -⟩ := h _ ((hinput _).mpr rfl) (by decide)
    exact absurd he List.not_mem_nil
  · refine ⟨[⟨str "r", [⟨0, COPY_MODULUS, .computed, [6]⟩]⟩],
      ⟨by decide, Function.update Memory.empty 0 (some ⟨[3], 17, true⟩), _, _, ⟨?_, ?_⟩, rfl, rfl, ?_⟩,
      ?_⟩
    · intro t ht
      rw [(hinput t).mp ht]
      exact ⟨by decide, 17, rfl⟩
    · intro a ha
      exact Function.update_of_ne (Ne.symm (ha _ ((hinput _).mpr rfl))) _ _
    · decide
    · decide

/-- The same input in an MRP. -/
def oneResidue : List InputCall :=
  [.from_data [3] 1 .Evaluation,
   .tag_input (str "a") (.MRP_KIND (MRP.from_pairs [(⟨0, 1, .Evaluation, .Integer, [3]⟩, 17)]))]

theorem cache_hit_replay_iff_oneResidue :
    ((after oneResidue).StoresReads 1 doubling ↔ ∀ t, (after oneResidue).IsInput t →
        ReadsFirst 1 doubling t.address → (after oneResidue).Captured t) ∧
      ∀ out, (after oneResidue).Evaluates referenceMath 1 doubling [⟨str "r", [(0, 0)]⟩] out →
        ((after oneResidue).StoresReads 1 doubling ∧
            Compiler.replay referenceMath 1 doubling (after oneResidue).compiler.replay_inputs []
              [⟨str "r", [(0, 0)]⟩] = some (some out) ↔
          ∀ t, (after oneResidue).IsInput t → (ReadsFirst 1 doubling t.address ∨
            (t.address ∈ [(⟨str "r", [(0, 0)]⟩ : OutputRecord)].flatMap OutputRecord.addrs ∧
              ¬ WrittenBy doubling.instructions t.address)) → (after oneResidue).Captured t) :=
  cache_hit_replay_iff (show Along Client.input Allowed {} oneResidue from ⟨trivial, fun _ h => h, trivial⟩)
    referenceMath 1 doubling [⟨str "r", [(0, 0)]⟩]

end Client

end Fhetch
