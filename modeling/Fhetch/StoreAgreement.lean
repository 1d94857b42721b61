/-
The two overloads of `store_polynomial` (`src/fhetch_sim/memory.h`, `simulator.cpp`).

The donating store puts a vector of the ring dimension in place of the slot's. The
copying store keeps the slot's buffer, which it sizes and writes from the front. So
what the slot held stays visible behind a shorter vector, and a longer one is copied
past the end. What a slot holds depends on everything stored and computed before:
buffers survive a store, a run and a change of the ring dimension.
-/
import Fhetch.StoredValues
import Fhetch.Lib.Runs

set_option autoImplicit false

namespace Fhetch

open Runs

/-! ## A store -/

/-- What a store is for: the vector, cut or extended with zeros to the ring dimension, at
its address, and everything else as it was. -/
def Simulator.stored (s : Simulator) (a : ℕ) (values : Poly) (q : ℕ) : Simulator :=
  { s with memory := Function.update s.memory a (some ⟨resize values s.ring_dim, q, true⟩) }

/-- Both overloads store that, the copying one inside the buffer of the slot. -/
def StoresAgree (s : Simulator) (a : ℕ) (values : Poly) (q : ℕ) : Prop :=
  store_polynomial s a values q = some (s.stored a values q) ∧
    store_polynomial_owned s a values q = s.stored a values q

/-- The vector is not longer than the ring dimension, and the buffer that the slot is
given for it is zero behind its end. -/
def FitsSlot (s : Simulator) (a : ℕ) (values : Poly) : Prop :=
  values.length ≤ s.ring_dim ∧
    ∀ v ∈ (s.memory.reserve_dest s.ring_dim a).drop values.length, v = 0

instance (s : Simulator) (a : ℕ) (values : Poly) : Decidable (FitsSlot s a values) :=
  inferInstanceAs (Decidable (_ ∧ _))

/-- The donating store is always right. -/
theorem store_polynomial_owned_eq (s : Simulator) (a : ℕ) (values : Poly) (q : ℕ) :
    store_polynomial_owned s a values q = s.stored a values q := rfl

/-- **The copying store agrees** exactly when the vector fits its slot. -/
theorem storesAgree_iff (s : Simulator) (a : ℕ) (values : Poly) (q : ℕ) :
    StoresAgree s a values q ↔ FitsSlot s a values := by
  unfold StoresAgree FitsSlot
  rw [and_iff_left (store_polynomial_owned_eq s a values q), store_polynomial, Memory.set]
  by_cases hlength : values.length ≤ s.ring_dim
  · rw [if_neg (Nat.not_lt.mpr hlength), and_iff_right hlength, Option.map_some, Option.some.injEq]
    have hdrop : ((s.memory.reserve_dest s.ring_dim a).drop values.length).length =
        s.ring_dim - values.length := by
      rw [List.length_drop, Memory.reserve_dest_length]
    constructor
    · intro h
      have hslot := congrArg (fun t : Simulator => (t.memory.get a).values) h
      simp only [Simulator.stored, Memory.get, Memory.commit_dest, Function.update_self,
        Option.getD_some] at hslot
      rw [resize_of_le hlength, List.append_cancel_left_eq] at hslot
      rw [hslot]
      exact fun v hv => List.eq_of_mem_replicate hv
    · intro h
      rw [Simulator.stored, Memory.commit_dest, resize_of_le hlength,
        List.eq_replicate_iff.mpr ⟨hdrop, h⟩]
  · rw [if_pos (Nat.lt_of_not_le hlength), Option.map_none]
    exact ⟨fun h => absurd h (by simp), fun h => absurd h.1 hlength⟩

/-! ## Runs -/

variable (M : NativeMath)

/-- The calls on a simulator that its memory depends on. -/
inductive SimCall where
  | store (address : ℕ) (values : Poly) (modulus : ℕ)
  | store_owned (address : ℕ) (values : Poly) (modulus : ℕ)
  | set_ring_dimension (N : ℕ)
  | load (p : Program)
  | run

/-- A call, if the one before it had an outcome. -/
def SimCall.apply : Option Simulator → SimCall → Option Simulator
  | none, _ => none
  | some s, store a values q => store_polynomial s a values q
  | some s, store_owned a values q => some (store_polynomial_owned s a values q)
  | some s, set_ring_dimension N => some (Fhetch.set_ring_dimension s N)
  | some s, load p => some (load_program s p).1
  | some s, run => (Fhetch.run M s).map Prod.fst

/-- The copying stores replaced by donating ones. -/
def SimCall.donated : SimCall → SimCall
  | store a values q => store_owned a values q
  | c => c

/-- At a store, both overloads do the same. -/
def SimCall.Agrees : Option Simulator → SimCall → Prop
  | some s, store a values q | some s, store_owned a values q => StoresAgree s a values q
  | _, _ => True

/-- What is stored fits the slot. -/
def SimCall.Fits : Option Simulator → SimCall → Prop
  | some s, store a values _ | some s, store_owned a values _ => FitsSlot s a values
  | _, _ => True

theorem SimCall.agrees_iff (s : Option Simulator) (c : SimCall) : c.Agrees s ↔ c.Fits s := by
  rcases s with - | s
  · cases c <;> exact Iff.rfl
  · cases c with
    | store a values q => exact storesAgree_iff s a values q
    | store_owned a values q => exact storesAgree_iff s a values q
    | set_ring_dimension N => exact Iff.rfl
    | load p => exact Iff.rfl
    | run => exact Iff.rfl

theorem SimCall.apply_donated {s : Option Simulator} {c : SimCall} (h : c.Fits s) :
    c.donated.apply M s = c.apply M s := by
  rcases s with - | s
  · cases c <;> rfl
  · cases c with
    | store a values q =>
      obtain ⟨hcopied, howned⟩ := (storesAgree_iff s a values q).mpr h
      show some (store_polynomial_owned s a values q) = store_polynomial s a values q
      rw [hcopied, howned]
    | store_owned a values q => rfl
    | set_ring_dimension N => rfl
    | load p => rfl
    | run => rfl

/-- **A run whose stores all fit** may donate its vectors or have them copied. -/
theorem run_donated {calls : List SimCall} : ∀ {s : Option Simulator},
    Along (SimCall.apply M) SimCall.Fits s calls →
      Runs.run (SimCall.apply M) s (calls.map SimCall.donated) = Runs.run (SimCall.apply M) s calls := by
  induction calls with
  | nil => exact fun _ => rfl
  | cons c calls ih =>
    rintro s ⟨hc, hcalls⟩
    rw [List.map_cons, run_cons, run_cons, SimCall.apply_donated M hc]
    exact ih hcalls

/-- **When the copying and the donating store agree**: at each store of a run, and at any
store in the memory that a run reaches, exactly when the vector fits its slot; and runs
of which that holds do not depend on which of the two they use. -/
theorem stores_agree_iff (calls : List SimCall) :
    (Along (SimCall.apply M) SimCall.Agrees (some {}) calls ↔
      Along (SimCall.apply M) SimCall.Fits (some {}) calls) ∧
    (Along (SimCall.apply M) SimCall.Fits (some {}) calls →
      Runs.run (SimCall.apply M) (some {}) (calls.map SimCall.donated) =
        Runs.run (SimCall.apply M) (some {}) calls) ∧
    ∀ s, Runs.run (SimCall.apply M) (some {}) calls = some s → ∀ a values q,
      StoresAgree s a values q ↔ FitsSlot s a values := by
  refine ⟨?_, run_donated M, fun s _ a values q => storesAgree_iff s a values q⟩
  exact @along_congr _ _ (SimCall.apply M) _ (fun _ => True) _ (fun _ _ _ _ => trivial)
    (fun s c _ => SimCall.agrees_iff s c) _ trivial calls

/-- The dimension is set and two vectors of it are stored at one address. -/
def twoStores : List SimCall := [.set_ring_dimension 2, .store 0 [3, 5] 17, .store 0 [7, 9] 17]

theorem stores_agree_iff_twoStores :
    Along (SimCall.apply referenceMath) SimCall.Agrees (some {}) twoStores ∧
      Runs.run (SimCall.apply referenceMath) (some {}) (twoStores.map SimCall.donated) =
        Runs.run (SimCall.apply referenceMath) (some {}) twoStores := by
  have hfits : Along (SimCall.apply referenceMath) SimCall.Fits (some {}) twoStores :=
    ⟨trivial, show FitsSlot _ _ _ by decide, show FitsSlot _ _ _ by decide, trivial⟩
  obtain ⟨hiff, hdonated, -⟩ := stores_agree_iff referenceMath twoStores
  exact ⟨hiff.mpr hfits, hdonated hfits⟩

/-- Behind the shorter vector, the copying store leaves the 5 that was there. -/
theorem shorter_vector_keeps_tail :
    ∃ s, Runs.run (SimCall.apply referenceMath) (some {}) [.set_ring_dimension 2, .store 0 [3, 5] 17] = some s ∧
      ¬ StoresAgree s 0 [7] 17 := by
  refine ⟨_, rfl, ?_⟩
  rw [storesAgree_iff]
  decide

end Fhetch
