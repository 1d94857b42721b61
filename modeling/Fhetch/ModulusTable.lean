/-
The modulus table under recording.

The vector and the map say the same thing at every step: the map sends a value to
where the vector has it. Normalization permutes the vector, and moves each
recorded index to where its value went, so what an index selects is never changed
for an instruction already recorded. It is changed for an index that was handed
out and not yet used: between registering a modulus and emitting with its index a
thread holds no lock, and a normalization in between leaves it with the position
of another value.
-/
import Fhetch.TraceWriter
import Mathlib.Algebra.Group.Nat.Defs

set_option autoImplicit false

namespace Fhetch

/-! ## The table as an order on its values -/

/-- The table with a modulus in it. -/
def intern (table : List UInt64) (q : UInt64) : List UInt64 :=
  if q ∈ table then table else table ++ [q]

theorem mem_intern (table : List UInt64) (q : UInt64) : q ∈ intern table q := by
  rw [intern]
  split
  · assumption
  · exact List.mem_append_right _ List.mem_cons_self

theorem prefix_intern (table : List UInt64) (q : UInt64) : table <+: intern table q := by
  rw [intern]
  split
  · exact List.prefix_rfl
  · exact List.prefix_append _ _

theorem intern_of_mem {table : List UInt64} {q : UInt64} (h : q ∈ table) : intern table q = table :=
  if_pos h

theorem intern_nodup {table : List UInt64} (h : table.Nodup) (q : UInt64) : (intern table q).Nodup := by
  rw [intern]
  split
  · exact h
  · rename_i hq
    exact List.nodup_append.mpr ⟨h, List.nodup_singleton q, fun a ha b hb => by
      rw [List.mem_singleton.mp hb]
      exact fun heq => hq (heq ▸ ha)⟩

/-- A value keeps its place when another one comes in. -/
theorem idxOf_intern {table : List UInt64} {q : UInt64} (q' : UInt64) (h : q ∈ table) :
    (intern table q').idxOf q = table.idxOf q := by
  rw [intern]
  split
  · rfl
  · exact List.idxOf_append_of_mem h

/-- The new one goes to the end. -/
theorem idxOf_intern_self {table : List UInt64} {q : UInt64} (h : q ∉ table) :
    (intern table q).idxOf q = table.length := by
  rw [intern, if_neg h, List.idxOf_append_of_notMem h, List.idxOf_cons_self, Nat.add_zero]

/-- The table that a normalization leaves. -/
def normalized (table : List UInt64) : List UInt64 := table.take 1 ++ TraceWriter.regular table

theorem normalized_perm (table : List UInt64) : (normalized table).Perm table := by
  have hsort : (TraceWriter.regular table).Perm (table.drop 1) := List.perm_insertionSort _ _
  have happ := hsort.append_left (table.take 1)
  rwa [List.take_append_drop] at happ

theorem mem_normalized {table : List UInt64} {q : UInt64} : q ∈ normalized table ↔ q ∈ table :=
  (normalized_perm table).mem_iff

/-- Sorting what is sorted does nothing. -/
theorem normalized_normalized (table : List UInt64) : normalized (normalized table) = normalized table := by
  cases table with
  | nil => rfl
  | cons q rest =>
    have hsorted : (rest.insertionSort (· ≤ ·)).Pairwise (· ≤ ·) := List.pairwise_insertionSort _ _
    show q :: (rest.insertionSort (· ≤ ·)).insertionSort (· ≤ ·) = q :: rest.insertionSort (· ≤ ·)
    rw [hsorted.insertionSort_eq]

/-- The values after the first are strictly ascending: they were sorted, and no
two are equal. -/
theorem normalized_ascending {table : List UInt64} (h : table.Nodup) :
    ((normalized table).drop 1).Pairwise (· < ·) := by
  cases table with
  | nil => exact List.Pairwise.nil
  | cons q rest =>
    have hsorted : (rest.insertionSort (· ≤ ·)).Pairwise (· ≤ ·) := List.pairwise_insertionSort _ _
    have hnodup : (rest.insertionSort (· ≤ ·)).Nodup :=
      (List.perm_insertionSort _ rest).nodup_iff.mpr (List.nodup_cons.mp h).2
    show (rest.insertionSort (· ≤ ·)).Pairwise (· < ·)
    refine hsorted.imp₂ (fun a b hle hne => ?_) hnodup
    exact UInt64.lt_of_le_of_ne hle hne

/-- Entering the sorted values one after another leaves each at its position. -/
theorem foldl_update_zipIdx {l : List UInt64} (h : l.Nodup) (k : ℕ) (index : UInt64 → Option UInt32)
    (q : UInt64) :
    (l.zipIdx k).foldl
      (fun index (q, i) => Function.update index q (some (UInt32.ofNat (i + 1)))) index q =
      if q ∈ l then some (UInt32.ofNat (k + l.idxOf q + 1)) else index q := by
  induction l generalizing k index with
  | nil => rfl
  | cons a l ih =>
    obtain ⟨ha, hl⟩ := List.nodup_cons.mp h
    -- `a` is not met again behind its first place, so what is noted for it stays
    rw [List.zipIdx_cons, List.foldl_cons, ih hl]
    dsimp only
    by_cases hq : q = a
    · rw [if_neg (hq ▸ ha), if_pos (hq ▸ List.mem_cons_self), hq, Function.update_self,
        List.idxOf_cons_self]
    · rw [Function.update_of_ne hq]
      by_cases hmem : q ∈ l
      · rw [if_pos hmem, if_pos (List.mem_cons_of_mem a hmem),
          List.idxOf_cons_ne l (fun h => hq h.symm)]
        congr 2
        omega
      · rw [if_neg hmem, if_neg (List.not_mem_cons_of_ne_of_not_mem hq hmem)]

namespace TraceWriter

/-- The map sends each value of the table to its place there. This holds for any
number of moduli; a place from `2 ^ 32` on has lost bits. -/
structure Consistent (tw : TraceWriter) : Prop where
  head : tw.modulus_table_.head? = some COPY_MODULUS_VALUE
  nodup : tw.modulus_table_.Nodup
  lookup : ∀ q, tw.modulus_index_ q =
    if q ∈ tw.modulus_table_ then some (UInt32.ofNat (tw.modulus_table_.idxOf q)) else none

theorem consistent_clear (tw : TraceWriter) : tw.clear.Consistent := by
  refine ⟨rfl, List.nodup_singleton _, fun q => ?_⟩
  show Function.update (fun _ => none) COPY_MODULUS_VALUE (some COPY_MODULUS_INDEX) q =
    if q ∈ [COPY_MODULUS_VALUE] then some (UInt32.ofNat ([COPY_MODULUS_VALUE].idxOf q)) else none
  by_cases hq : q = COPY_MODULUS_VALUE
  · rw [hq, Function.update_self]
    rfl
  · rw [Function.update_of_ne hq, if_neg (fun h => hq (List.mem_singleton.mp h))]

variable {tw : TraceWriter}

/-- **Registering** enters the value and gives its place. -/
theorem register_modulus_eq (h : tw.Consistent) (q : UInt64) :
    (tw.register_modulus q).1 = UInt32.ofNat ((intern tw.modulus_table_ q).idxOf q) ∧
      (tw.register_modulus q).2.modulus_table_ = intern tw.modulus_table_ q := by
  have hq := h.lookup q
  rw [register_modulus]
  by_cases hmem : q ∈ tw.modulus_table_
  · rw [if_pos hmem] at hq
    rw [hq, intern_of_mem hmem]
    exact ⟨rfl, rfl⟩
  · rw [if_neg hmem] at hq
    rw [hq]
    refine ⟨?_, (if_neg hmem).symm⟩
    show UInt32.ofNat tw.modulus_table_.length = _
    rw [idxOf_intern_self hmem]

/-- Registering touches nothing else. -/
theorem register_modulus_frame (tw : TraceWriter) (q : UInt64) :
    (tw.register_modulus q).2 = { tw with
      modulus_table_ := (tw.register_modulus q).2.modulus_table_
      modulus_index_ := (tw.register_modulus q).2.modulus_index_ } := by
  rw [register_modulus]
  split <;> rfl

theorem register_modulus_consistent (h : tw.Consistent) (q : UInt64) :
    (tw.register_modulus q).2.Consistent := by
  obtain ⟨-, htable⟩ := register_modulus_eq h q
  have hhead : (intern tw.modulus_table_ q).head? = some COPY_MODULUS_VALUE := by
    obtain ⟨rest, hrest⟩ := prefix_intern tw.modulus_table_ q
    rw [← hrest, List.head?_append, h.head]
    rfl
  refine ⟨by rw [htable]; exact hhead, by rw [htable]; exact intern_nodup h.nodup q, fun q' => ?_⟩
  rw [htable]
  have hold := h.lookup q'
  rw [register_modulus]
  by_cases hmem : q ∈ tw.modulus_table_
  · have hq := h.lookup q
    rw [if_pos hmem] at hq
    rw [hq, intern_of_mem hmem]
    exact hold
  · have hq := h.lookup q
    rw [if_neg hmem] at hq
    rw [hq]
    show Function.update tw.modulus_index_ q (some (UInt32.ofNat tw.modulus_table_.length)) q' = _
    by_cases heq : q' = q
    · rw [heq, Function.update_self, if_pos (mem_intern _ q), idxOf_intern_self hmem]
    · rw [Function.update_of_ne heq, hold]
      by_cases hmem' : q' ∈ tw.modulus_table_
      · rw [if_pos hmem', if_pos ((prefix_intern _ q).subset hmem'), idxOf_intern q hmem']
      · have hout : q' ∉ intern tw.modulus_table_ q := by
          rw [intern, if_neg hmem]
          exact fun h => (List.mem_append.mp h).elim hmem' fun h => heq (List.mem_singleton.mp h)
        rw [if_neg hmem', if_neg hout]

/-! ## Normalization -/

theorem head_cons (h : tw.Consistent) : ∃ rest, tw.modulus_table_ = COPY_MODULUS_VALUE :: rest := by
  obtain ⟨rest, hrest⟩ := List.head?_eq_some_iff.mp h.head
  exact ⟨rest, hrest⟩

/-- A table of the sentinel alone is left as it is, and would be anyway. -/
theorem normalize_table (h : tw.Consistent) :
    tw.normalize_modulus_table.modulus_table_ = normalized tw.modulus_table_ := by
  rw [normalize_modulus_table]
  split
  · rename_i hshort
    obtain ⟨rest, hrest⟩ := head_cons h
    rw [hrest, List.length_cons] at hshort
    obtain rfl : rest = [] := List.length_eq_zero_iff.mp (by omega)
    rw [hrest]
    rfl
  · rfl

/-- The new map sends each value to its new place. -/
theorem new_index_eq (h : tw.Consistent) (q : UInt64) :
    new_index tw.modulus_table_ q = if q ∈ normalized tw.modulus_table_ then
      some (UInt32.ofNat ((normalized tw.modulus_table_).idxOf q)) else none := by
  obtain ⟨rest, hrest⟩ := head_cons h
  have hnodup := h.nodup
  rw [hrest] at hnodup ⊢
  obtain ⟨hsentinel, hrest'⟩ := List.nodup_cons.mp hnodup
  have hsorted : (regular (COPY_MODULUS_VALUE :: rest)).Nodup :=
    (List.perm_insertionSort _ rest).nodup_iff.mpr hrest'
  -- the sentinel stands in front of the sorted moduli and is not one of them
  have hout : COPY_MODULUS_VALUE ∉ regular (COPY_MODULUS_VALUE :: rest) :=
    fun hmem => hsentinel ((List.perm_insertionSort _ rest).mem_iff.mp hmem)
  rw [new_index, foldl_update_zipIdx hsorted]
  show _ = if q ∈ COPY_MODULUS_VALUE :: regular (COPY_MODULUS_VALUE :: rest) then
    some (UInt32.ofNat ((COPY_MODULUS_VALUE :: regular (COPY_MODULUS_VALUE :: rest)).idxOf q)) else none
  by_cases hq : q = COPY_MODULUS_VALUE
  · rw [hq, if_neg hout, if_pos List.mem_cons_self, Function.update_self, List.idxOf_cons_self]
    rfl
  · by_cases hmem : q ∈ regular (COPY_MODULUS_VALUE :: rest)
    · rw [if_pos hmem, if_pos (List.mem_cons_of_mem _ hmem),
        List.idxOf_cons_ne _ (fun h => hq h.symm), Nat.zero_add]
    · rw [if_neg hmem, if_neg (List.not_mem_cons_of_ne_of_not_mem hq hmem),
        Function.update_of_ne hq]

theorem normalize_consistent (h : tw.Consistent) : tw.normalize_modulus_table.Consistent := by
  have htable := normalize_table h
  obtain ⟨rest, hrest⟩ := head_cons h
  refine ⟨?_, ?_, fun q => ?_⟩
  · rw [htable, hrest]
    rfl
  · rw [htable]
    exact (normalized_perm _).nodup_iff.mpr h.nodup
  · rw [htable, ← new_index_eq h q, normalize_modulus_table]
    split
    · rename_i hshort
      rw [hrest, List.length_cons] at hshort
      obtain rfl : rest = [] := List.length_eq_zero_iff.mp (by omega)
      rw [h.lookup, new_index_eq h, hrest]
      rfl
    · rfl

end TraceWriter

/-! ## What an instruction's index selects -/

/-- The modulus value of an instruction: the entry that its index selects, or its
literal modulus itself. -/
def Instruction.selects (table : List UInt64) (inst : Instruction) : Option UInt64 :=
  match inst.modulus with
  | none => none
  | some m => if inst.modulus_is_literal then some m else table[m.toNat]?

/-- The entry at the place of a value. -/
theorem getElem?_idxOf_of_mem {table : List UInt64} {q : UInt64} (h : q ∈ table) :
    table[table.idxOf q]? = some q := by
  rw [List.getElem?_eq_getElem (List.idxOf_lt_length_of_mem h), List.getElem_idxOf]

/-- A place below `2 ^ 32` goes through the index types unchanged. -/
theorem toNat_place {n : ℕ} (h : n < 2 ^ 32) : (UInt32.ofNat n).toUInt64.toNat = n := by
  rw [UInt32.toNat_toUInt64, UInt32.toNat_ofNat_of_lt' (by exact h)]

/-- Right after it was registered, the index of a modulus selects it. -/
theorem TraceWriter.register_modulus_selects {tw : TraceWriter} (h : tw.Consistent) (q : UInt64)
    (hsize : (intern tw.modulus_table_ q).length ≤ 2 ^ 32) :
    (intern tw.modulus_table_ q)[(tw.register_modulus q).1.toUInt64.toNat]? = some q := by
  have hmem := mem_intern tw.modulus_table_ q
  have hlt := List.idxOf_lt_length_of_mem hmem
  rw [(register_modulus_eq h q).1, toNat_place (by omega), getElem?_idxOf_of_mem hmem]

/-- An index that selects an entry keeps selecting it when the table grows. -/
theorem Instruction.selects_of_prefix {table table' : List UInt64} {inst : Instruction} {q : UInt64}
    (hpre : table <+: table') (h : inst.selects table = some q) : inst.selects table' = some q := by
  unfold Instruction.selects at h ⊢
  split at h
  · exact absurd h (by simp)
  · split at h
    · rename_i hlit
      rw [if_pos hlit]
      exact h
    · rename_i hlit
      rw [if_neg hlit]
      obtain ⟨rest, rfl⟩ := hpre
      rw [List.getElem?_append_left (List.getElem?_eq_some_iff.mp h).1]
      exact h

namespace TraceWriter

variable {tw : TraceWriter}

/-- Only the index moves. -/
theorem remap_instruction_frame (table : List UInt64) (inst : Instruction) :
    remap_instruction table inst =
      { inst with modulus := (remap_instruction table inst).modulus } := by
  unfold remap_instruction
  split
  · rfl
  · split
    · rfl
    · split <;> rfl

/-- An instruction without an index is left as it is. -/
theorem remap_instruction_eq_self (table : List UInt64) {inst : Instruction}
    (h : inst.modulus = none ∨ inst.modulus_is_literal = true) :
    remap_instruction table inst = inst := by
  unfold remap_instruction
  rcases h with h | h
  · rw [h]
  · split
    · rfl
    · rw [if_pos h]

/-- An index that selects an entry moves to where the entry went. -/
theorem remap_instruction_index (h : tw.Consistent) {inst : Instruction} {m q : UInt64}
    (hm : inst.modulus = some m) (hlit : inst.modulus_is_literal = false)
    (hq : tw.modulus_table_[m.toNat]? = some q) :
    remap_instruction tw.modulus_table_ inst = { inst with
      modulus := some (UInt32.ofNat ((normalized tw.modulus_table_).idxOf q)).toUInt64 } := by
  have hmem : q ∈ normalized tw.modulus_table_ := mem_normalized.mpr (List.mem_of_getElem? hq)
  have hplace : (remap tw.modulus_table_)[m.toNat]? =
      some (UInt32.ofNat ((normalized tw.modulus_table_).idxOf q)) := by
    rw [remap, List.getElem?_map, hq, Option.map_some, new_index_eq h, if_pos hmem, Option.getD_some]
  unfold remap_instruction
  rw [hm]
  dsimp only
  rw [hlit, hplace]
  rfl

/-- **Normalization keeps what an instruction selects**, as long as its index can
hold any place of the table. -/
theorem selects_remap_instruction (h : tw.Consistent) (hsize : tw.modulus_table_.length ≤ 2 ^ 32)
    {inst : Instruction} {q : UInt64} (hq : inst.selects tw.modulus_table_ = some q) :
    (remap_instruction tw.modulus_table_ inst).selects (normalized tw.modulus_table_) = some q := by
  have hq' := hq
  unfold Instruction.selects at hq'
  split at hq'
  · exact absurd hq' (by simp)
  · rename_i m hm
    by_cases hlit : inst.modulus_is_literal = true
    · rw [remap_instruction_eq_self _ (Or.inr hlit)]
      unfold Instruction.selects at hq ⊢
      rw [hm] at hq ⊢
      dsimp only at hq ⊢
      rw [if_pos hlit] at hq ⊢
      exact hq
    -- an index follows its modulus to the new place
    · rw [if_neg hlit] at hq'
      have hmem : q ∈ normalized tw.modulus_table_ := mem_normalized.mpr (List.mem_of_getElem? hq')
      have hlt : (normalized tw.modulus_table_).idxOf q < 2 ^ 32 := by
        have hidx := List.idxOf_lt_length_of_mem hmem
        rw [(normalized_perm _).length_eq] at hidx
        omega
      rw [remap_instruction_index h hm (by simpa using hlit) hq']
      unfold Instruction.selects
      dsimp only
      rw [if_neg hlit, toNat_place hlt, getElem?_idxOf_of_mem hmem]

/-- In a sorted table every index is where it should be already. -/
theorem remap_instruction_normalized (h : tw.Consistent)
    (hsize : tw.modulus_table_.length ≤ 2 ^ 32)
    (hsorted : normalized tw.modulus_table_ = tw.modulus_table_) (inst : Instruction) :
    remap_instruction tw.modulus_table_ inst = inst := by
  by_cases hlit : inst.modulus = none ∨ inst.modulus_is_literal = true
  · exact remap_instruction_eq_self _ hlit
  · obtain ⟨hsome, hlit⟩ := not_or.mp hlit
    obtain ⟨m, hm⟩ := Option.ne_none_iff_exists'.mp hsome
    by_cases hlt : m.toNat < tw.modulus_table_.length
    · have hq : tw.modulus_table_[m.toNat]? = some tw.modulus_table_[m.toNat] :=
        List.getElem?_eq_getElem hlt
      rw [remap_instruction_index h hm (by simpa using hlit) hq, hsorted,
        h.nodup.idxOf_getElem _ hlt]
      -- in a sorted table a modulus is where its index says
      have hback : (UInt32.ofNat m.toNat).toUInt64 = m :=
        UInt64.toNat_inj.mp (toNat_place (by omega))
      rw [hback, ← hm]
    · have hnone : (remap tw.modulus_table_)[m.toNat]? = none := by
        rw [remap, List.getElem?_map, List.getElem?_eq_none (by omega), Option.map_none]
      unfold remap_instruction
      rw [hm]
      dsimp only
      rw [if_neg hlit, hnone]

/-- What a normalization does to the whole writer. A table of the sentinel alone
is the case of no regular moduli. -/
theorem normalize_eq (h : tw.Consistent) (hsize : tw.modulus_table_.length ≤ 2 ^ 32) :
    tw.normalize_modulus_table = { tw with
      modulus_table_ := normalized tw.modulus_table_
      modulus_index_ := tw.normalize_modulus_table.modulus_index_
      instructions_ := tw.instructions_.map (remap_instruction tw.modulus_table_) } := by
  by_cases hshort : tw.modulus_table_.length ≤ 1
  · have hsame : tw.normalize_modulus_table = tw := by rw [normalize_modulus_table, if_pos hshort]
    have htable := normalize_table h
    rw [hsame] at htable ⊢
    rw [← htable, List.map_congr_left fun inst _ =>
      remap_instruction_normalized h hsize htable.symm inst, List.map_id']
  · rw [normalize_modulus_table, if_neg hshort]
    rfl

/-- A strictly ascending list has each value behind the smaller ones. -/
theorem idxOf_eq_countP {l : List UInt64} (h : l.Pairwise (· < ·)) {q : UInt64} (hq : q ∈ l) :
    l.idxOf q = l.countP (· < q) := by
  induction l with
  | nil => exact absurd hq List.not_mem_nil
  | cons a l ih =>
    obtain ⟨ha, hl⟩ := List.pairwise_cons.mp h
    by_cases heq : a = q
    · have hzero : (a :: l).countP (· < q) = 0 := by
        rw [List.countP_eq_zero]
        intro b hb
        rw [decide_eq_true_eq, ← heq, UInt64.not_lt]
        rcases List.mem_cons.mp hb with rfl | hb
        · exact UInt64.le_refl b
        · exact UInt64.le_of_lt (ha b hb)
      rw [hzero, heq, List.idxOf_cons_self]
    · have hmem : q ∈ l := (List.mem_cons.mp hq).resolve_left fun h => heq h.symm
      rw [List.idxOf_cons_ne l heq, ih hl hmem, List.countP_cons_of_pos (by simpa using ha q hmem)]

/-- Sorting puts a regular modulus behind the sentinel and the smaller ones. -/
theorem idxOf_normalized (h : tw.Consistent) {q : UInt64} (hmem : q ∈ tw.modulus_table_)
    (hq : q ≠ COPY_MODULUS_VALUE) :
    (normalized tw.modulus_table_).idxOf q = (tw.modulus_table_.drop 1).countP (· < q) + 1 := by
  obtain ⟨rest, hrest⟩ := head_cons h
  have hnodup := h.nodup
  have hasc : (regular tw.modulus_table_).Pairwise (· < ·) := by
    have hdrop := normalized_ascending h.nodup
    rw [hrest] at hdrop ⊢
    exact hdrop
  rw [hrest] at hmem hnodup hasc ⊢
  have hperm : (regular (COPY_MODULUS_VALUE :: rest)).Perm rest := List.perm_insertionSort _ rest
  have hrestmem : q ∈ regular (COPY_MODULUS_VALUE :: rest) :=
    hperm.mem_iff.mpr ((List.mem_cons.mp hmem).resolve_left hq)
  show (COPY_MODULUS_VALUE :: regular (COPY_MODULUS_VALUE :: rest)).idxOf q = rest.countP (· < q) + 1
  rw [List.idxOf_cons_ne _ fun h => hq h.symm, idxOf_eq_countP hasc hrestmem, hperm.countP_eq]

theorem idxOf_normalized_sentinel (h : tw.Consistent) :
    (normalized tw.modulus_table_).idxOf COPY_MODULUS_VALUE =
      tw.modulus_table_.idxOf COPY_MODULUS_VALUE := by
  obtain ⟨rest, hrest⟩ := head_cons h
  rw [hrest, List.idxOf_cons_self]
  exact List.idxOf_cons_self

/-- **Normalizing twice is normalizing once.** -/
theorem normalize_normalize (h : tw.Consistent) (hsize : tw.modulus_table_.length ≤ 2 ^ 32) :
    tw.normalize_modulus_table.normalize_modulus_table = tw.normalize_modulus_table := by
  have hnext := normalize_consistent h
  have htable := normalize_table h
  have hsorted : normalized tw.normalize_modulus_table.modulus_table_ =
      tw.normalize_modulus_table.modulus_table_ := by rw [htable, normalized_normalized]
  have hsize' : tw.normalize_modulus_table.modulus_table_.length ≤ 2 ^ 32 := by
    rw [htable, (normalized_perm _).length_eq]
    exact hsize
  have hindex : tw.normalize_modulus_table.normalize_modulus_table.modulus_index_ =
      tw.normalize_modulus_table.modulus_index_ := by
    funext q
    rw [(normalize_consistent hnext).lookup, hnext.lookup, normalize_table hnext, hsorted]
  rw [normalize_eq hnext hsize', hindex, hsorted, List.map_congr_left fun inst _ =>
    remap_instruction_normalized hnext hsize' hsorted inst, List.map_id']

end TraceWriter

end Fhetch
