/-
The copy lineage at replay (`Compiler::replay` in `src/compiler.cpp`).

Captured data spreads over the parent links of recorded copies, from a parent to its
child and back, until every live-in address it can get to has some. The links are
visited in the order of a hash map. That order decides nothing but one thing: two
captured addresses with different data, as two copies of one original are when one of
them was changed before it was captured, can both get to a live-in, and the first one
there fills it.
-/
import Fhetch.StoredValues
import Fhetch.Lib.Flooding

set_option autoImplicit false

namespace Fhetch

open Flooding

/-! ## The loop -/

/-- One pass, over the links in some order. -/
def lineage_pass (rbw : List ℕ) (order : ℕ → List (ℕ × ℕ)) (k : ℕ) (sim : Simulator) :
    Option (Simulator × Bool) := some ((order k).foldl (propagate_edge rbw) (sim, false))

/-- The loop with enough fuel ends where its passes do. -/
theorem propagate_of_passes {rbw : List ℕ} {parent_map : List (ℕ × ℕ)} {k n : ℕ} {sim sim' : Simulator}
    (h : Passes (lineage_pass rbw fun _ => parent_map) k sim n sim') :
    ∀ {fuel : ℕ}, n ≤ fuel → propagate rbw parent_map fuel sim = sim' := by
  induction h with
  | last hpass =>
    intro fuel hfuel
    obtain ⟨fuel, rfl⟩ : ∃ m, fuel = m + 1 := ⟨fuel - 1, by omega⟩
    rw [propagate, show parent_map.foldl (propagate_edge rbw) _ = _ from Option.some.inj hpass]
    rfl
  | more hpass _ ih =>
    intro fuel hfuel
    obtain ⟨fuel, rfl⟩ : ∃ m, fuel = m + 1 := ⟨fuel - 1, by omega⟩
    rw [propagate, show parent_map.foldl (propagate_edge rbw) _ = _ from Option.some.inj hpass]
    exact ih (by omega)

/-! ## Memory as labels -/

/-- The data of an address, as a copy of it would be: its values, cut or extended to the
ring dimension, and its modulus. -/
def Memory.datum (m : Memory) (N a : ℕ) : Option (Poly × ℕ) :=
  if m.is_initialized a then some (resize (m.get a).values N, (m.get a).modulus) else none

/-- A memory with data in the addresses that had none. -/
def Memory.filled (m : Memory) (f : Labels ℕ (Poly × ℕ)) : Memory := fun a =>
  match f a with
  | some (values, modulus) => if m.is_initialized a then m a else some ⟨values, modulus, true⟩
  | none => m a

/-- Data that a memory may be filled with: it has its own, and all of it fits. -/
structure Memory.Fillable (m : Memory) (N : ℕ) (f : Labels ℕ (Poly × ℕ)) : Prop where
  own : ∀ a d, m.datum N a = some d → f a = some d
  sized : ∀ a values modulus, f a = some (values, modulus) → values.length = N

section Filled

variable {m : Memory} {N : ℕ} {f : Labels ℕ (Poly × ℕ)}

theorem Memory.filled_datum (m : Memory) (N : ℕ) : m.filled (m.datum N) = m := by
  funext a
  unfold Memory.filled Memory.datum
  by_cases h : m.is_initialized a = true
  · rw [if_pos h]
    exact if_pos h
  · rw [if_neg h]

theorem Memory.fillable_datum (m : Memory) (N : ℕ) : m.Fillable N (m.datum N) := by
  refine ⟨fun _ _ h => h, fun a values modulus ha => ?_⟩
  unfold Memory.datum at ha
  split at ha
  · rw [← (Prod.mk.inj (Option.some.inj ha)).1, resize_length]
  · exact absurd ha (by simp)

theorem Memory.get_filled (h : m.Fillable N f) {a : ℕ} {values : Poly} {modulus : ℕ}
    (ha : f a = some (values, modulus)) : (m.filled f).is_initialized a = true ∧
      resize ((m.filled f).get a).values N = values ∧ ((m.filled f).get a).modulus = modulus := by
  by_cases hinit : m.is_initialized a = true
  -- its own value is the label it was given
  · have hdatum : m.datum N a = some (resize (m.get a).values N, (m.get a).modulus) := if_pos hinit
    have hown := h.own a _ hdatum
    rw [ha] at hown
    obtain ⟨rfl, rfl⟩ := Prod.mk.inj (Option.some.inj hown)
    have hslot : m.filled f a = m a := by
      unfold Memory.filled
      rw [ha]
      exact if_pos hinit
    unfold Memory.is_initialized Memory.get at hinit ⊢
    rw [hslot]
    exact ⟨hinit, rfl, rfl⟩
  -- an empty slot is filled with the label
  · have hslot : m.filled f a = some ⟨values, modulus, true⟩ := by
      unfold Memory.filled
      rw [ha]
      exact if_neg hinit
    unfold Memory.is_initialized Memory.get
    rw [hslot]
    exact ⟨rfl, resize_of_length (h.sized a values modulus ha), rfl⟩

theorem Memory.not_initialized_filled (h : m.Fillable N f) {a : ℕ} (ha : f a = none) :
    (m.filled f).is_initialized a = false := by
  have hinit : m.is_initialized a = false := by
    by_contra hinit
    rw [Bool.not_eq_false] at hinit
    have hown := h.own a _ (if_pos hinit)
    exact absurd (ha.symm.trans hown) (by simp)
  have hslot : m.filled f a = m a := by
    unfold Memory.filled
    rw [ha]
  unfold Memory.is_initialized Memory.get at hinit ⊢
  rw [hslot, hinit]

theorem Memory.filled_update (h : m.Fillable N f) {a : ℕ} (ha : f a = none) (values : Poly) (modulus : ℕ) :
    m.filled (Function.update f a (some (values, modulus))) =
      Function.update (m.filled f) a (some ⟨values, modulus, true⟩) := by
  funext b
  by_cases hb : b = a
  · subst hb
    have hinit : ¬ m.is_initialized b = true := by
      intro hinit
      have hown := h.own b _ (if_pos hinit)
      exact absurd (ha.symm.trans hown) (by simp)
    simp only [Memory.filled, Function.update_self, if_neg hinit]
  · simp only [Memory.filled, Function.update_of_ne hb]

end Filled

/-! ## The loop spreads labels -/

section Spreading

variable {sim : Simulator} {rbw : List ℕ} {st : Labels ℕ (Poly × ℕ) × Bool}

/-- A simulator whose memory is filled, with the flag of the pass. -/
def Simulator.filledWith (sim : Simulator) (st : Labels ℕ (Poly × ℕ) × Bool) : Simulator × Bool :=
  (sim.withMemory (sim.memory.filled st.1), st.2)

/-- `copy_one`, if its destination is live in, takes a label. -/
theorem copy_one_takes (rbw : List ℕ) (h : sim.memory.Fillable sim.ring_dim st.1) (dst src : ℕ) :
    sim.memory.Fillable sim.ring_dim (take (· ∈ rbw) st dst src).1 ∧
      (if dst ∈ rbw then copy_one (sim.filledWith st) dst src else sim.filledWith st) =
        sim.filledWith (take (· ∈ rbw) st dst src) := by
  rcases take_cases (· ∈ rbw) st dst src with ⟨hsame, hstays⟩ | ⟨hlive, hdst, ⟨values, modulus⟩, hsrc, htake⟩
  · rw [hsame]
    refine ⟨h, ?_⟩
    -- the label does not move: nor does the copy
    by_cases hlive : dst ∈ rbw
    · rw [if_pos hlive]
      refine if_neg fun hcond => ?_
      rw [Bool.and_eq_true, Bool.not_eq_true'] at hcond
      rcases hdst : st.1 dst with - | ⟨values, modulus⟩
      · have hsrc := Memory.not_initialized_filled h (hstays hlive hdst)
        exact absurd (hsrc.symm.trans hcond.2) (by decide)
      · have hinit := (Memory.get_filled h hdst).1
        exact absurd (hinit.symm.trans hcond.1) (by decide)
    · rw [if_neg hlive]
  -- the label moves: the copy writes the same slot
  · obtain ⟨hinit, hvalues, hmodulus⟩ := Memory.get_filled h hsrc
    have hlength := h.sized src values modulus hsrc
    rw [htake, if_pos hlive]
    refine ⟨⟨fun a d ha => ?_, fun a values' modulus' ha => ?_⟩, ?_⟩
    · have hne : a ≠ dst := by
        rintro rfl
        exact absurd (hdst.symm.trans (h.own a d ha)) (by simp)
      exact (Function.update_of_ne hne _ _).trans (h.own a d ha)
    · dsimp only at ha
      by_cases heq : a = dst
      · subst heq
        rw [Function.update_self] at ha
        obtain ⟨rfl, rfl⟩ := Prod.mk.inj (Option.some.inj ha)
        exact hlength
      · rw [Function.update_of_ne heq] at ha
        exact h.sized a values' modulus' ha
    · have hcond : (!(sim.filledWith st).1.memory.is_initialized dst &&
          (sim.filledWith st).1.memory.is_initialized src) = true := by
        rw [Bool.and_eq_true, Bool.not_eq_true']
        exact ⟨Memory.not_initialized_filled h hdst, hinit⟩
      have hget : get_polynomial (sim.filledWith st).1 src = ((sim.memory.filled st.1).get src).values := by
        rw [get_polynomial, show (sim.filledWith st).1.memory.is_initialized src = true from hinit, if_pos rfl]
        rfl
      have hstore : store_polynomial_owned (sim.filledWith st).1 dst ((sim.memory.filled st.1).get src).values modulus =
          sim.withMemory (Function.update (sim.memory.filled st.1) dst (some ⟨values, modulus, true⟩)) := by
        show sim.withMemory ((sim.memory.filled st.1).set_owned sim.ring_dim dst _ modulus) = _
        rw [Memory.set_owned, hvalues]
      rw [copy_one, if_pos hcond, hget,
        show ((sim.filledWith st).1.memory.get src).modulus = modulus from hmodulus, hstore]
      show (sim.withMemory _, true) = (sim.withMemory _, true)
      rw [Memory.filled_update h hdst]

theorem propagate_edge_visits (h : sim.memory.Fillable sim.ring_dim st.1) (e : ℕ × ℕ) :
    sim.memory.Fillable sim.ring_dim (visit (· ∈ rbw) st e).1 ∧
      propagate_edge rbw (sim.filledWith st) e = sim.filledWith (visit (· ∈ rbw) st e) := by
  obtain ⟨h₁, hforward⟩ := copy_one_takes rbw h e.1 e.2
  obtain ⟨h₂, hreverse⟩ := copy_one_takes rbw h₁ e.2 e.1
  refine ⟨h₂, ?_⟩
  rw [propagate_edge, hforward]
  exact hreverse

/-- **A pass of the loop is a pass of labels.** -/
theorem lineage_pass_spreads {order : ℕ → List (ℕ × ℕ)} (k : ℕ) {f g : Labels ℕ (Poly × ℕ)}
    {changed : Bool} (h : sim.memory.Fillable sim.ring_dim f)
    (hpass : passes (· ∈ rbw) order k f = some (g, changed)) :
    sim.memory.Fillable sim.ring_dim g ∧
      lineage_pass rbw order k (sim.withMemory (sim.memory.filled f)) =
        some (sim.withMemory (sim.memory.filled g), changed) := by
  have hvisits : ∀ (es : List (ℕ × ℕ)) (st : Labels ℕ (Poly × ℕ) × Bool),
      sim.memory.Fillable sim.ring_dim st.1 →
        sim.memory.Fillable sim.ring_dim (es.foldl (visit (· ∈ rbw)) st).1 ∧
          es.foldl (propagate_edge rbw) (sim.filledWith st) = sim.filledWith (es.foldl (visit (· ∈ rbw)) st) := by
    -- edge by edge
    intro es
    induction es with
    | nil => exact fun st h => ⟨h, rfl⟩
    | cons e es ih =>
      intro st h
      obtain ⟨h₁, hedge⟩ := propagate_edge_visits h e
      obtain ⟨h₂, hrest⟩ := ih _ h₁
      refine ⟨h₂, ?_⟩
      rw [List.foldl_cons, hedge]
      exact hrest
  obtain ⟨hfillable, hfold⟩ := hvisits (order k) (f, false) h
  rw [show (order k).foldl (visit (· ∈ rbw)) (f, false) = (g, changed) from Option.some.inj hpass] at *
  exact ⟨hfillable, congrArg some hfold⟩

end Spreading

/-! ## Termination and order -/

/-- The orders in which the links may be visited, pass by pass. -/
def Orders (parent_map : List (ℕ × ℕ)) (order : ℕ → List (ℕ × ℕ)) : Prop :=
  ∀ k, (order k).Perm parent_map

/-- Data gets to an address from one way only: any two initialized addresses from which
links lead to it, through live-in addresses that are not initialized, would be copied to
the same. -/
def OneSource (rbw : List ℕ) (parent_map : List (ℕ × ℕ)) (m : Memory) (N : ℕ) : Prop :=
  Consistent (· ∈ rbw) (m.datum N) parent_map

theorem lineage_ends (rbw : List ℕ) (order : ℕ → List (ℕ × ℕ)) (sim : Simulator) :
    ∃ n g, Passes (passes (· ∈ rbw) order) 0 (sim.memory.datum sim.ring_dim) n g ∧
      Passes (lineage_pass rbw order) 0 sim n (sim.withMemory (sim.memory.filled g)) ∧
      n ≤ rbw.toFinset.card + 1 := by
  have hnodes : ∀ a, a ∈ rbw → a ∈ rbw.toFinset := fun a ha => List.mem_toFinset.mpr ha
  obtain ⟨n, g, hpasses, hn⟩ := exists_passes hnodes order 0 (sim.memory.datum sim.ring_dim)
  have hpending : pending rbw.toFinset (sim.memory.datum sim.ring_dim) ≤ rbw.toFinset.card :=
    Finset.card_le_card (Finset.filter_subset _ _)
  refine ⟨n, g, hpasses, ?_, by omega⟩
  have hpass : ∀ k f g changed, sim.memory.Fillable sim.ring_dim f →
      passes (· ∈ rbw) order k f = some (g, changed) → sim.memory.Fillable sim.ring_dim g ∧
        lineage_pass rbw order k (sim.withMemory (sim.memory.filled f)) =
          some (sim.withMemory (sim.memory.filled g), changed) :=
    fun k f g changed h hpass => lineage_pass_spreads k h hpass
  have hsim := Passes.map hpass hpasses (Memory.fillable_datum sim.memory sim.ring_dim)
  rw [Memory.filled_datum] at hsim
  exact hsim

/-- The labels of a filled memory can be read off it. -/
theorem Memory.filled_injective {m : Memory} {N : ℕ} {f g : Labels ℕ (Poly × ℕ)} (hf : m.Fillable N f)
    (hg : m.Fillable N g) (h : m.filled f = m.filled g) : f = g := by
  funext a
  rcases hfa : f a with - | ⟨values, modulus⟩
  · rcases hga : g a with - | ⟨values, modulus⟩
    · rfl
    · have hnot := Memory.not_initialized_filled hf hfa
      rw [h, (Memory.get_filled hg hga).1] at hnot
      exact absurd hnot (by decide)
  · obtain ⟨hinit, hvalues, hmodulus⟩ := Memory.get_filled hf hfa
    rw [h] at hinit hvalues hmodulus
    rcases hga : g a with - | ⟨values', modulus'⟩
    · rw [Memory.not_initialized_filled hg hga] at hinit
      exact absurd hinit (by decide)
    · obtain ⟨-, hvalues', hmodulus'⟩ := Memory.get_filled hg hga
      rw [← hvalues, ← hmodulus, hvalues', hmodulus']

/-- The data the loop leaves in memory fits it, and is where it was. -/
theorem fillable_of_passes {rbw : List ℕ} {order : ℕ → List (ℕ × ℕ)}
    {sim : Simulator} {n : ℕ} {g : Labels ℕ (Poly × ℕ)}
    (h : Passes (passes (· ∈ rbw) order) 0 (sim.memory.datum sim.ring_dim) n g) :
    sim.memory.Fillable sim.ring_dim g :=
  h.invariant (fun k _ _ _ hf hpass => (lineage_pass_spreads k hf hpass).1)
    (Memory.fillable_datum sim.memory sim.ring_dim)

/-- An address that has data keeps its slot. -/
theorem Memory.filled_of_initialized {m : Memory} {f : Labels ℕ (Poly × ℕ)} {a : ℕ}
    (h : m.is_initialized a = true) : m.filled f a = m a := by
  unfold Memory.filled
  split
  · exact if_pos h
  · rfl

/-- **The copy lineage.** In whatever orders the links are visited, the loop ends after at
most one pass more than there are live-in addresses, and an initialized address keeps
what it holds. The orders do not decide what memory it ends in exactly if data gets to
an address from one way only. -/
theorem lineage_fixpoint (rbw : List ℕ) (parent_map : List (ℕ × ℕ)) (sim : Simulator)
    (hkeys : (parent_map.map Prod.fst).Nodup) :
    (∀ order, Orders parent_map order → ∃ n sim', Passes (lineage_pass rbw order) 0 sim n sim' ∧
      n ≤ rbw.toFinset.card + 1 ∧
      ∀ a, sim.memory.is_initialized a = true → sim'.memory a = sim.memory a) ∧
    ((∀ order order', Orders parent_map order → Orders parent_map order' → ∀ n n' sim' sim'',
        Passes (lineage_pass rbw order) 0 sim n sim' → Passes (lineage_pass rbw order') 0 sim n' sim'' →
          sim'.memory = sim''.memory) ↔ OneSource rbw parent_map sim.memory sim.ring_dim) := by
  constructor
  · intro order _
    obtain ⟨n, g, -, hpasses, hn⟩ := lineage_ends rbw order sim
    exact ⟨n, _, hpasses, hn, fun a ha => Memory.filled_of_initialized ha⟩
  · have hnodes : ∀ a, a ∈ rbw → a ∈ rbw.toFinset := fun a ha => List.mem_toFinset.mpr ha
    rw [OneSource, ← order_independent_iff hnodes hkeys.of_map]
    constructor
    · intro h order order' horder horder' n n' g g' hlabels hlabels'
      -- the passes over labels are those of the loop
      obtain ⟨n₁, g₁, hl₁, hp₁, -⟩ := lineage_ends rbw order sim
      obtain ⟨n₂, g₂, hl₂, hp₂, -⟩ := lineage_ends rbw order' sim
      obtain ⟨-, rfl⟩ := hlabels.unique hl₁
      obtain ⟨-, rfl⟩ := hlabels'.unique hl₂
      have hsame := h order order' horder horder' n₁ n₂ _ _ hp₁ hp₂
      exact Memory.filled_injective (fillable_of_passes hlabels) (fillable_of_passes hlabels') hsame
    · intro h order order' horder horder' n n' sim' sim'' hpasses hpasses'
      obtain ⟨n₁, g₁, hl₁, hp₁, -⟩ := lineage_ends rbw order sim
      obtain ⟨n₂, g₂, hl₂, hp₂, -⟩ := lineage_ends rbw order' sim
      obtain ⟨-, rfl⟩ := hpasses.unique hp₁
      obtain ⟨-, rfl⟩ := hpasses'.unique hp₂
      rw [h order order' horder horder' n₁ n₂ g₁ g₂ hl₁ hl₂]

/-- Replay with two captured copies of a live-in original. -/
theorem lineage_fixpoint_twoCopies : ∃ sim,
    store_captured (set_ring_dimension {} 1) [⟨1, [3], 17⟩, ⟨2, [3], 17⟩] = some sim ∧
      (([(1, 0), (2, 0)] : List (ℕ × ℕ)).map Prod.fst).Nodup ∧
      ∃ n sim', Passes (lineage_pass [0] fun _ => [(1, 0), (2, 0)]) 0 sim n sim' ∧ n ≤ 2 := by
  obtain ⟨sim, hstored⟩ : ∃ sim, store_captured (set_ring_dimension {} 1)
    [⟨1, [3], 17⟩, ⟨2, [3], 17⟩] = some sim := ⟨_, rfl⟩
  obtain ⟨n, sim', hpasses, hn, -⟩ := (lineage_fixpoint [0] [(1, 0), (2, 0)] sim (by decide)).1
    (fun _ => [(1, 0), (2, 0)]) fun _ => List.Perm.refl _
  exact ⟨sim, hstored, by decide, n, sim', hpasses, hn⟩

/-- The two copies hold different data when they are captured: whichever is visited first
fills the original. -/
theorem competing_copies_depend_on_order : ∃ sim sim' sim'' n n',
    store_captured (set_ring_dimension {} 1) [⟨1, [3], 17⟩, ⟨2, [5], 17⟩] = some sim ∧
      Passes (lineage_pass [0] fun _ => [(1, 0), (2, 0)]) 0 sim n sim' ∧
      Passes (lineage_pass [0] fun _ => [(2, 0), (1, 0)]) 0 sim n' sim'' ∧
      get_polynomial sim' 0 = [3] ∧ get_polynomial sim'' 0 = [5] :=
  ⟨_, _, _, 2, 2, rfl, .more rfl (.last rfl), .more rfl (.last rfl), by decide, by decide⟩

/-! ## The loop in replay -/

/-- The fuel that the loop is given is enough. -/
theorem propagate_ends (rbw : List ℕ) (parent_map : List (ℕ × ℕ)) (sim : Simulator) : ∃ n sim',
      Passes (lineage_pass rbw fun _ => parent_map) 0 sim n sim' ∧
      propagate rbw parent_map (rbw.length + 1) sim = sim' := by
  obtain ⟨n, g, -, hpasses, hn⟩ := lineage_ends rbw (fun _ => parent_map) sim
  have hcard := rbw.toFinset_card_le
  exact ⟨n, _, hpasses, propagate_of_passes hpasses (by omega)⟩

end Fhetch
