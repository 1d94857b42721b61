/-
Lists cut into consecutive parts, and offsets to say where.

A list that grows at its end, with an offset noted at each part's beginning, can be cut
back into its parts later: the offset of a part is the length of what stands before it,
which nothing that is pushed afterwards changes.
-/
import Mathlib.Data.List.Basic

set_option autoImplicit false

namespace Fhetch.Lib

variable {α β : Type}

/-! ## Results in order -/

theorem mapM_of_some {f : α → Option β} {g : α → β} {l : List α}
    (h : ∀ x ∈ l, f x = some (g x)) : l.mapM f = some (l.map g) := by
  induction l with
  | nil => rfl
  | cons x l ih =>
    obtain ⟨hx, hl⟩ := List.forall_mem_cons.mp h
    rw [List.mapM_cons, hx, ih hl]
    rfl

theorem mapM_of_none {f : α → Option β} {l : List α} {x : α} (hx : x ∈ l) (h : f x = none) :
    l.mapM f = none := by
  induction l with
  | nil => exact absurd hx List.not_mem_nil
  | cons y l ih =>
    rw [List.mapM_cons]
    rcases List.mem_cons.mp hx with rfl | hx
    · rw [h]
      rfl
    · rw [ih hx]
      rcases f y with - | z
      · rfl
      · rfl

/-! ## Offsets -/

/-- Where each part begins. -/
def beginnings (parts : List (List α)) : List ℕ :=
  (List.range parts.length).map fun i => (parts.take i).flatten.length

theorem beginnings_length (parts : List (List α)) : (beginnings parts).length = parts.length := by
  rw [beginnings, List.length_map, List.length_range]

theorem beginnings_getD (parts : List (List α)) {i : ℕ} (hi : i < parts.length) (d : ℕ) :
    (beginnings parts).getD i d = (parts.take i).flatten.length := by
  rw [List.getD_eq_getElem?_getD, beginnings, List.getElem?_map, List.getElem?_range hi]
  rfl

/-- A part that is put behind the others begins at their end. -/
theorem beginnings_concat (parts : List (List α)) (part : List α) :
    beginnings (parts ++ [part]) = beginnings parts ++ [parts.flatten.length] := by
  rw [beginnings, List.length_append, List.length_singleton, List.range_succ, List.map_append,
    List.map_singleton, List.take_left, beginnings]
  congr 1
  apply List.map_congr_left
  intro i hi
  have hlt : i < parts.length := List.mem_range.mp hi
  rw [List.take_append_of_le_length (by omega)]

/-- The last part may grow. -/
theorem beginnings_extend (parts : List (List α)) (part more : List α) :
    beginnings (parts ++ [part ++ more]) = beginnings (parts ++ [part]) := by
  rw [beginnings_concat, beginnings_concat]

/-- What stands in the parts does not matter. -/
theorem beginnings_map (f : α → β) (parts : List (List α)) :
    beginnings (parts.map (List.map f)) = beginnings parts := by
  rw [beginnings, beginnings, List.length_map]
  apply List.map_congr_left
  intro i _
  rw [← List.map_take, ← List.map_flatten, List.length_map]

/-- The elements from `lo` on and below `hi`, when the list has that many. -/
def between (l : List α) (lo hi : ℕ) : Option (List α) :=
  if lo ≤ hi ∧ hi ≤ l.length then some ((l.drop lo).take (hi - lo)) else none

/-- Between its beginning and that of the next one, a part stands. -/
theorem between_parts (parts : List (List α)) {i : ℕ} (hi : i < parts.length) :
    between parts.flatten (parts.take i).flatten.length (parts.take (i + 1)).flatten.length =
      some parts[i] := by
  have hnext : (parts.take (i + 1)).flatten = (parts.take i).flatten ++ parts[i] := by
    rw [List.take_succ_eq_append_getElem hi, List.flatten_append, List.flatten_singleton]
  have hall : parts.flatten = (parts.take i).flatten ++ (parts[i] ++ (parts.drop (i + 1)).flatten) := by
    rw [← List.append_assoc, ← hnext, ← List.flatten_append, List.take_append_drop]
  rw [hnext, List.length_append, between, if_pos, hall, List.drop_left, Nat.add_sub_cancel_left,
    List.take_left]
  rw [hall, List.length_append, List.length_append]
  omega

end Fhetch.Lib
