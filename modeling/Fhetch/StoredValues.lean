/-
What a run depends on of what was stored: the values.

A slot also holds the modulus it was stored with. No kernel looks at that, and a
replay takes the moduli it reports from elsewhere. So two memories with the same
values, slot by slot, give the same run, whatever their moduli; and storing captured
residues, in any order and as often as one likes, comes to the same as long as an
address is always given the same values.
-/
import Fhetch.Replay

set_option autoImplicit false

namespace Fhetch

/-! ## Two memories with the same values -/

/-- The same slots, with the same values in them. -/
def Memory.SameValues (m m' : Memory) : Prop :=
  ∀ a, (m a).map (fun e => (e.values, e.initialized)) = (m' a).map fun e => (e.values, e.initialized)

namespace Memory.SameValues

variable {m m' : Memory}

theorem get_eq (h : m.SameValues m') (a : ℕ) :
    (m.get a).values = (m'.get a).values ∧ m.is_initialized a = m'.is_initialized a := by
  have ha := h a
  unfold Memory.is_initialized Memory.get
  rcases hm : m a with - | e
  · rw [hm, Option.map_none, eq_comm, Option.map_eq_none_iff] at ha
    rw [ha]
    exact ⟨rfl, rfl⟩
  · rw [hm, Option.map_some, eq_comm, Option.map_eq_some_iff] at ha
    obtain ⟨e', he', heq⟩ := ha
    rw [he']
    obtain ⟨hvalues, hinit⟩ := Prod.mk.inj heq
    exact ⟨hvalues.symm, hinit.symm⟩

theorem get_or_zero (s : Impl) (h : m.SameValues s.memory) (a : ℕ) :
    (s.withMemory m).get_or_zero a = s.get_or_zero a := by
  obtain ⟨hvalues, hinit⟩ := h.get_eq a
  unfold Impl.get_or_zero
  rw [Impl.withMemory_memory, Impl.withMemory_ring_dim, hvalues, hinit]

theorem reserve_dest (h : m.SameValues m') (N a : ℕ) : m.reserve_dest N a = m'.reserve_dest N a := by
  rw [Memory.reserve_dest, Memory.reserve_dest, (h.get_eq a).1]

theorem update (h : m.SameValues m') (a : ℕ) (e : Option MemoryElement) :
    Memory.SameValues (Function.update m a e) (Function.update m' a e) := by
  intro b
  by_cases hb : b = a
  · rw [hb, Function.update_self, Function.update_self]
  · rw [Function.update_of_ne hb, Function.update_of_ne hb]
    exact h b

theorem erase (h : m.SameValues m') (as : List ℕ) :
    Memory.SameValues (as.foldl Memory.erase m) (as.foldl Memory.erase m') := by
  induction as generalizing m m' with
  | nil => exact h
  | cons a as ih => exact ih (h.update a none)

theorem get_polynomial {f f' : Simulator} (h : f.memory.SameValues f'.memory) (a : ℕ) :
    get_polynomial f a = Fhetch.get_polynomial f' a := by
  obtain ⟨hvalues, hinit⟩ := h.get_eq a
  rw [Fhetch.get_polynomial, Fhetch.get_polynomial, hvalues, hinit]

end Memory.SameValues

section Runs

variable {M : NativeMath}

/-- One instruction. -/
theorem exec_instruction_sameValues {s s' : Impl} {m : Memory} {inst : Instruction} {ok : Bool}
    (hm : m.SameValues s.memory) (h : exec_instruction M s inst = some (s', ok)) :
    ∃ m', exec_instruction M (s.withMemory m) inst = some (s'.withMemory m', ok) ∧
      m'.SameValues s'.memory := by
  have hexec : exec_instruction M (s.withMemory m) inst = _ :=
    exec_instruction_handed M (fun a _ => hm.get_or_zero s a)
      (.inr (hm.reserve_dest s.ring_dim inst.dest.toNat))
  have hmemory := exec_instruction_memory M h
  rw [h, Option.map_some] at hexec
  refine ⟨_, hexec, ?_⟩
  rw [hmemory]
  dsimp only
  by_cases hwrites : (ok && (execUses inst).writes) = true
  · rw [if_pos hwrites, if_pos hwrites, Function.update_self]
    exact hm.update _ _
  · rw [if_neg hwrites, if_neg hwrites]
    exact hm

/-- And all of them. -/
theorem execute_loop_sameValues (free_after_ : List (List ℕ)) (insts : List Instruction) :
    ∀ {i : ℕ} {s s' : Impl} {m : Memory} {k k' : ℕ}, m.SameValues s.memory →
      execute_loop M free_after_ insts i s k = some (s', k') →
      ∃ m', execute_loop M free_after_ insts i (s.withMemory m) k = some (s'.withMemory m', k') ∧
        m'.SameValues s'.memory := by
  induction insts with
  | nil =>
    intro i s s' m k k' hm h
    obtain ⟨rfl, rfl⟩ := Prod.mk.inj (Option.some.inj h)
    exact ⟨m, rfl, hm⟩
  | cons inst rest ih =>
    intro i s s' m k k' hm h
    rw [execute_loop] at h
    obtain ⟨⟨s₁, ok⟩, hexec, hrest⟩ := Option.bind_eq_some_iff.mp h
    obtain ⟨m₁, hexec', hm₁⟩ := exec_instruction_sameValues hm hexec
    obtain ⟨m', hrest', hm'⟩ := ih (m := (free_after_.getD i []).foldl Memory.erase m₁)
      (hm₁.erase _) hrest
    refine ⟨m', ?_, hm'⟩
    rw [execute_loop, hexec', Option.bind_some]
    exact hrest'

/-- **The moduli in the memory do not matter.** -/
theorem run_sameValues {s f : Simulator} {m m' : Memory} {r : SimResult} (hm : m'.SameValues m)
    (h : run M (s.withMemory m) = some (f, r)) :
    ∃ f', run M (s.withMemory m') = some (f', r) ∧ f'.memory.SameValues f.memory := by
  rw [run] at h ⊢
  by_cases hN : s.ring_dim = 0
  · rw [if_pos (show (s.withMemory m).ring_dim = 0 from hN)] at h
    rw [if_pos (show (s.withMemory m').ring_dim = 0 from hN)]
    obtain ⟨rfl, rfl⟩ := Prod.mk.inj (Option.some.inj h)
    exact ⟨_, rfl, hm⟩
  · rw [if_neg (show ¬ (s.withMemory m).ring_dim = 0 from hN)] at h
    rw [if_neg (show ¬ (s.withMemory m').ring_dim = 0 from hN)]
    obtain ⟨⟨s₁, k⟩, hloop, he⟩ := Option.map_eq_some_iff.mp h
    obtain ⟨rfl, rfl⟩ := Prod.mk.inj he
    obtain ⟨m₁, hloop', hm₁⟩ := execute_loop_sameValues (m := m') s.free_after_
      s.trace.instructions hm hloop
    refine ⟨{ s with toImpl := s₁.withMemory m₁ }, ?_, hm₁⟩
    exact congrArg (Option.map _) hloop'

end Runs

/-! ## Storing -/

/-- Values that fit, padded. -/
theorem resize_of_le {values : Poly} {N : ℕ} (h : values.length ≤ N) :
    resize values N = values ++ List.replicate (N - values.length) 0 := by
  rw [resize, List.take_of_length_le h]

/-- Storing values in an empty slot, or again where they are already. -/
theorem set_eq_commit {m : Memory} {N a : ℕ} {values : Poly} (hfits : values.length ≤ N)
    (ha : m a = none ∨ ∃ q, m a = some ⟨resize values N, q, true⟩) (q : ℕ) :
    m.set N a values q = some (m.commit_dest a (resize values N) q) := by
  have hdrop : (m.reserve_dest N a).drop values.length = List.replicate (N - values.length) 0 := by
    rw [Memory.reserve_dest, Memory.get]
    rcases ha with hnone | ⟨q', hsome⟩
    · rw [hnone, Option.getD_none]
      show (resize [] N).drop values.length = _
      rw [resize_of_le (Nat.zero_le _), List.nil_append, List.drop_replicate]
      rfl
    · rw [hsome, Option.getD_some]
      show (resize (resize values N) N).drop values.length = _
      rw [resize_of_length (resize_length _ _), resize_of_le hfits, List.drop_left]
  rw [Memory.set, if_neg (Nat.not_lt.mpr hfits)]
  dsimp only
  rw [hdrop, ← resize_of_le hfits]

/-- A slot that holds values. -/
def Memory.Holds (m : Memory) (N a : ℕ) (values : Poly) : Prop :=
  ∃ q, m a = some ⟨resize values N, q, true⟩

/-- **Storing captured residues**, one value for each address. -/
theorem store_captured_values {N : ℕ} {value : ℕ → Poly} {elements : List CapturedElement}
    (hvalue : ∀ e ∈ elements, e.values = value e.addr_id ∧ e.values.length ≤ N) :
    ∀ sim : Simulator, sim.ring_dim = N →
      (∀ e ∈ elements, sim.memory e.addr_id = none ∨
        sim.memory.Holds N e.addr_id (value e.addr_id)) →
      ∃ m, store_captured sim elements = some (sim.withMemory m) ∧
        (∀ a ∈ elements.map CapturedElement.addr_id, m.Holds N a (value a)) ∧
        ∀ a, a ∉ elements.map CapturedElement.addr_id → m a = sim.memory a := by
  induction elements with
  | nil => exact fun sim _ _ => ⟨sim.memory, rfl, List.forall_mem_nil _, fun _ _ => rfl⟩
  | cons e rest ih =>
    intro sim hN hslots
    obtain ⟨⟨hvalues, hfits⟩, hrest⟩ := List.forall_mem_cons.mp hvalue
    obtain ⟨hslot, hslots⟩ := List.forall_mem_cons.mp hslots
    let m₁ := sim.memory.commit_dest e.addr_id (resize e.values N) e.modulus
    have hstore : store_polynomial sim e.addr_id e.values e.modulus = some (sim.withMemory m₁) := by
      rw [store_polynomial, hN, set_eq_commit hfits (hvalues ▸ hslot), Option.map_some]
      rfl
    have hself : m₁.Holds N e.addr_id (value e.addr_id) := by
      rw [← hvalues]
      exact ⟨e.modulus, Memory.commit_dest_self _ _ _ _⟩
    -- an address that comes up again holds the same value already
    have hslots₁ : ∀ e' ∈ rest, m₁ e'.addr_id = none ∨ m₁.Holds N e'.addr_id (value e'.addr_id) := by
      intro e' he'
      by_cases heq : e'.addr_id = e.addr_id
      · rw [heq]
        exact .inr hself
      · have hkeep : m₁ e'.addr_id = sim.memory e'.addr_id := Memory.commit_dest_of_ne _ _ _ heq
        unfold Memory.Holds
        rw [hkeep]
        exact hslots e' he'
    obtain ⟨m, hm, hin, hout⟩ := ih hrest (sim.withMemory m₁) hN hslots₁
    refine ⟨m, ?_, fun a ha => ?_, fun a ha => ?_⟩
    · rw [store_captured, List.foldlM_cons, hstore]
      exact hm
    · by_cases hmem : a ∈ rest.map CapturedElement.addr_id
      · exact hin a hmem
      · obtain rfl : a = e.addr_id := by
          rw [List.map_cons, List.mem_cons] at ha
          exact ha.resolve_right hmem
        have hkeep := hout _ hmem
        obtain ⟨q, hq⟩ := hself
        exact ⟨q, hkeep.trans hq⟩
    · rw [List.map_cons, List.mem_cons, not_or] at ha
      exact (hout a ha.2).trans (Memory.commit_dest_of_ne _ _ _ ha.1)

/-- **A replay in process** is a run over what was stored. -/
theorem Compiler.replay_stored {M : NativeMath} {N : ℕ} {p : Program} {inputs : List InputRecord}
    {outputs : List OutputRecord} {m : Memory} (hN : N ≠ 0) (hp : p.instructions ≠ [])
    (hstore : store_captured (load_program (set_ring_dimension {} N) p).1
        (inputs.flatMap InputRecord.elements) =
      some ((load_program (set_ring_dimension {} N) p).1.withMemory m)) :
    Compiler.replay M N p inputs [] outputs =
      (run M ((replaySimulator N p (outputs.flatMap OutputRecord.addrs)).withMemory m)).map fun r =>
        if 0 < r.2.errors then none else some (Compiler.write_replay_outputs r.1 outputs) := by
  have hloaded : (load_program (set_ring_dimension {} N) p).2 = true := by
    rw [load_program, List.isEmpty_eq_false_iff.mpr hp]
    rfl
  rw [Compiler.replay, if_neg hN]
  dsimp only
  rw [hloaded, hstore, Option.bind_some]
  simp only [propagate, List.foldl_nil]
  rfl

end Fhetch
