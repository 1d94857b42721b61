/-
Runs of a trace writer.

Two systems over the same class. In the first one party performs the operations
of the writer in any order. Its table invariant is the agreement of the vector
with the map, and what normalization owes the instructions already recorded.

In the second any number of threads record. To record an instruction takes two
operations, to register the modulus and to emit with the index that came back, and
the lock is free in between. The index a thread holds is then the index of the
table as it was.
-/
import Fhetch.ModulusTable
import Fhetch.Lib.Runs

set_option autoImplicit false

namespace Fhetch

open Runs

/-! ## A writer and what was meant -/

/-- A writer, with what is not in the code: each instruction it keeps as it was
emitted, and the modulus value its emitter meant. -/
structure Recording where
  writer : TraceWriter
  meant : List (Instruction × Option UInt64) := []

namespace Recording

variable (r : Recording)

def emit (inst : Instruction) (q : Option UInt64) : Recording where
  writer := r.writer.emit inst
  meant := if r.writer.keeps then r.meant ++ [(inst, q)] else r.meant

end Recording

/-- An instruction as it stands in the writer, against what was emitted: it
selects the modulus that was meant, has none where none was meant, and differs at
most in its index, which a literal is not. -/
structure Recorded (table : List UInt64) (inst : Instruction) (entry : Instruction × Option UInt64) :
    Prop where
  selects : inst.selects table = entry.2
  bare : entry.2 = none → inst.modulus = none
  frame : inst = { entry.1 with modulus := inst.modulus }
  literal : entry.1.modulus_is_literal = true → inst = entry.1

/-- Emission appends one instruction or none. The bound on the operands never
refuses one: they are 32 bits wide. -/
theorem TraceWriter.emit_eq (tw : TraceWriter) (inst : Instruction) :
    tw.emit inst = if tw.keeps then { tw with instructions_ := tw.instructions_ ++ [inst] } else tw := by
  have hwide : ¬ kMaxAddress < max inst.dest.toNat (max inst.src1.toNat inst.src2.toNat) := by
    have hdest := inst.dest.toNat_lt
    have hsrc1 := inst.src1.toNat_lt
    have hsrc2 := inst.src2.toNat_lt
    unfold kMaxAddress
    omega
  rw [TraceWriter.emit, if_neg hwide]
  unfold TraceWriter.keeps
  cases tw.recording_ <;> cases tw.paused_ <;> rfl

/-- Emission touches nothing but the instructions. -/
theorem TraceWriter.emit_frame (tw : TraceWriter) (inst : Instruction) :
    tw.emit inst = { tw with instructions_ := (tw.emit inst).instructions_ } := by
  rw [TraceWriter.emit_eq]
  split <;> rfl

/-- With a modulus, nothing but these and the table. -/
theorem TraceWriter.emit_mod_frame (inst : Instruction) (q : UInt64) (tw : TraceWriter) :
    emit_mod inst q tw = { tw with
      modulus_table_ := (emit_mod inst q tw).modulus_table_
      modulus_index_ := (emit_mod inst q tw).modulus_index_
      instructions_ := (emit_mod inst q tw).instructions_ } := by
  unfold emit_mod midx
  dsimp only
  rw [TraceWriter.emit_frame, TraceWriter.register_modulus_frame]

theorem TraceWriter.comment_frame (tw : TraceWriter) (text : Str) :
    tw.comment text = { tw with annotations_ := (tw.comment text).annotations_ } := by
  unfold TraceWriter.comment
  split <;> rfl

section Consistent

variable {tw : TraceWriter}

theorem TraceWriter.Consistent.emit (h : tw.Consistent) (inst : Instruction) : (tw.emit inst).Consistent := by
  rw [TraceWriter.emit_eq]
  split
  · exact ⟨h.head, h.nodup, h.lookup⟩
  · exact h

theorem TraceWriter.Consistent.emit_mod (h : tw.Consistent) (inst : Instruction) (q : UInt64) :
    (emit_mod inst q tw).Consistent :=
  (TraceWriter.register_modulus_consistent h q).emit _

theorem TraceWriter.Consistent.comment (h : tw.Consistent) (text : Str) : (tw.comment text).Consistent := by
  unfold TraceWriter.comment
  split
  · exact ⟨h.head, h.nodup, h.lookup⟩
  · exact h

theorem TraceWriter.Consistent.flags (h : tw.Consistent) (recording paused : Bool) :
    TraceWriter.Consistent { tw with recording_ := recording, paused_ := paused } :=
  ⟨h.head, h.nodup, h.lookup⟩

end Consistent

/-- An index that was given stays, and a registered modulus has the index it was given. -/
theorem TraceWriter.register_modulus_index (tw : TraceWriter) (q : UInt64) :
    (tw.register_modulus q).2.modulus_index_ q = some (tw.register_modulus q).1 ∧
      ∀ q' i, tw.modulus_index_ q' = some i → (tw.register_modulus q).2.modulus_index_ q' = some i := by
  rw [TraceWriter.register_modulus]
  split
  · rename_i i hq
    exact ⟨hq, fun _ _ h => h⟩
  · rename_i hq
    refine ⟨Function.update_self _ _ _, fun q' i hq' => ?_⟩
    have hne : q' ≠ q := by
      rintro rfl
      rw [hq] at hq'
      exact absurd hq' (by simp)
    exact (Function.update_of_ne hne _ _).trans hq'

/-- **One instruction with a modulus**, on its way into the writer. -/
theorem emit_mod_gives (inst : Instruction) (q : UInt64) (tw : TraceWriter) :
    (emit_mod inst q tw).keeps = tw.keeps ∧
      (∀ q' i, tw.modulus_index_ q' = some i → (emit_mod inst q tw).modulus_index_ q' = some i) ∧
      (tw.Consistent → (emit_mod inst q tw).Consistent) ∧
      ∃ i, (emit_mod inst q tw).modulus_index_ q = some i ∧
        (emit_mod inst q tw).instructions_ = tw.instructions_ ++
          if tw.keeps then [{ inst with modulus := some i.toUInt64 }] else [] := by
  have hframe := TraceWriter.register_modulus_frame tw q
  have hinsts : (tw.register_modulus q).2.instructions_ = tw.instructions_ := by rw [hframe]
  -- registering a modulus changes neither the instructions nor the flags
  have hkeeps : (tw.register_modulus q).2.keeps = tw.keeps := by
    rw [hframe]
    rfl
  obtain ⟨hindex, hextends⟩ := tw.register_modulus_index q
  have hconsistent : tw.Consistent → (tw.register_modulus q).2.Consistent :=
    fun h => TraceWriter.register_modulus_consistent h q
  simp only [emit_mod, midx, TraceWriter.emit_eq, hkeeps]
  by_cases h : tw.keeps = true
  · simp only [if_pos h]
    exact ⟨hkeeps, hextends, fun hc => ⟨(hconsistent hc).head, (hconsistent hc).nodup, (hconsistent hc).lookup⟩,
      _, hindex, by rw [hinsts]⟩
  · simp only [if_neg h]
    exact ⟨hkeeps, hextends, hconsistent, _, hindex, by rw [hinsts, List.append_nil]⟩

/-- Emission leaves the table alone. -/
theorem Recording.emit_table (r : Recording) (inst : Instruction) (q : Option UInt64) :
    (r.emit inst q).writer.modulus_table_ = r.writer.modulus_table_ := by
  unfold Recording.emit
  rw [TraceWriter.emit_frame]

theorem Recording.mem_meant_of_emit {r : Recording} {inst : Instruction} {q : Option UInt64}
    {entry : Instruction × Option UInt64} (h : entry ∈ (r.emit inst q).meant) :
    entry ∈ r.meant ∨ entry = (inst, q) := by
  unfold Recording.emit at h
  split at h
  · exact (List.mem_append.mp h).imp_right List.mem_singleton.mp
  · exact Or.inl h

/-! ## A recorded instruction under a changing table -/

namespace Recorded

variable {tw : TraceWriter} {inst : Instruction} {entry : Instruction × Option UInt64}

/-- What an instruction selects stays when the table grows. -/
theorem grow {table table' : List UInt64} (h : Recorded table inst entry) (hpre : table <+: table') :
    Recorded table' inst entry := by
  obtain ⟨e, q⟩ := entry
  refine { h with selects := ?_ }
  cases q with
  | none =>
    have hnone := h.bare rfl
    rw [Instruction.selects, hnone]
  | some q => exact Instruction.selects_of_prefix hpre h.selects

/-- And when the table is normalized and the instruction remapped. -/
theorem normalize (hc : tw.Consistent) (hsize : tw.modulus_table_.length ≤ 2 ^ 32)
    (h : Recorded tw.modulus_table_ inst entry) :
    Recorded (normalized tw.modulus_table_) (TraceWriter.remap_instruction tw.modulus_table_ inst)
      entry := by
  have hframe : TraceWriter.remap_instruction tw.modulus_table_ inst = { entry.1 with
      modulus := (TraceWriter.remap_instruction tw.modulus_table_ inst).modulus } := by
    rw [TraceWriter.remap_instruction_frame, h.frame]
  have hliteral : entry.1.modulus_is_literal = true →
      TraceWriter.remap_instruction tw.modulus_table_ inst = entry.1 := by
    intro hlit
    have hinst := h.literal hlit
    rw [TraceWriter.remap_instruction_eq_self _ (Or.inr (hinst ▸ hlit)), hinst]
  obtain ⟨e, q⟩ := entry
  -- without a modulus nothing is remapped
  cases q with
  | none =>
    have hnone := h.bare rfl
    have hsame := TraceWriter.remap_instruction_eq_self tw.modulus_table_ (Or.inl hnone)
    refine ⟨?_, fun _ => ?_, hframe, hliteral⟩
    · rw [hsame, Instruction.selects, hnone]
    · rw [hsame]
      exact hnone
  | some q =>
    exact ⟨TraceWriter.selects_remap_instruction hc hsize h.selects, fun hq => absurd hq (by simp),
      hframe, hliteral⟩

end Recorded

/-! ## One recorder -/

/-- The operations on a writer, each atomic. -/
inductive TableOp where
  | start
  | stop
  | pause
  | resume
  | register (q : UInt64)
  /-- Register a modulus and emit with its index, as the instruction builders do. -/
  | register_emit (inst : Instruction) (q : UInt64)
  /-- Emit with the sentinel index, as the copy and zero idioms do. -/
  | emit_sentinel (inst : Instruction)
  | emit_literal (inst : Instruction) (q : UInt64)
  /-- Emit an instruction that has no modulus. -/
  | emit_bare (inst : Instruction)
  | comment (text : Str)
  | normalize
  | clear

namespace Recording

variable (r : Recording)

/-- Register, and emit with the index that came back. -/
def register_emit (inst : Instruction) (q : UInt64) : Recording :=
  let (i, tw) := r.writer.register_modulus q
  Recording.emit { r with writer := tw }
    { inst with modulus := some i.toUInt64, modulus_is_literal := false } (some q)

def step : TableOp → Recording
  | .start => { r with writer := r.writer.start_recording }
  | .stop => { r with writer := r.writer.stop_recording }
  | .pause => { r with writer := r.writer.pause_recording }
  | .resume => { r with writer := r.writer.resume_recording }
  | .register q => { r with writer := (r.writer.register_modulus q).2 }
  | .register_emit inst q => r.register_emit inst q
  | .emit_sentinel inst =>
    r.emit { inst with modulus := some COPY_MODULUS_INDEX.toUInt64, modulus_is_literal := false }
      (some COPY_MODULUS_VALUE)
  | .emit_literal inst q =>
    r.emit { inst with modulus := some q, modulus_is_literal := true } (some q)
  | .emit_bare inst => r.emit { inst with modulus := none } none
  | .comment text => { r with writer := r.writer.comment text }
  | .normalize => { r with writer := r.writer.normalize_modulus_table }
  | .clear => ⟨r.writer.clear, []⟩

/-- **The invariant.** The two forms of the table agree whatever its size is. What
an index selects is kept while every place of the table fits the index type. -/
structure Sound : Prop where
  consistent : r.writer.Consistent
  ordered : r.writer.annotations_.Pairwise fun a b => a.after_instruction ≤ b.after_instruction
  behind : ∀ a ∈ r.writer.annotations_, a.after_instruction ≤ r.writer.instructions_.length
  recorded : r.writer.modulus_table_.length ≤ 2 ^ 32 →
    List.Forall₂ (Recorded r.writer.modulus_table_) r.writer.instructions_ r.meant

variable {r}

/-- Emitting an instruction that selects what was meant. -/
theorem Sound.emit (h : r.Sound) {inst : Instruction} {q : Option UInt64}
    (hsel : r.writer.modulus_table_.length ≤ 2 ^ 32 → inst.selects r.writer.modulus_table_ = q)
    (hbare : q = none → inst.modulus = none) : (r.emit inst q).Sound := by
  unfold Recording.emit
  rw [TraceWriter.emit_eq]
  by_cases hkeeps : r.writer.keeps = true
  · rw [if_pos hkeeps, if_pos hkeeps]
    refine ⟨⟨h.consistent.head, h.consistent.nodup, h.consistent.lookup⟩, h.ordered, ?_, ?_⟩
    · intro a ha
      have hle := h.behind a ha
      show a.after_instruction ≤ (r.writer.instructions_ ++ [inst]).length
      rw [List.length_append]
      omega
    · intro hsize
      refine List.rel_append (h.recorded hsize) (List.Forall₂.cons ?_ List.Forall₂.nil)
      exact ⟨hsel hsize, hbare, rfl, fun _ => rfl⟩
  · rw [if_neg hkeeps, if_neg hkeeps]
    exact h

/-- Registering alone. -/
theorem Sound.register (h : r.Sound) (q : UInt64) :
    Sound { r with writer := (r.writer.register_modulus q).2 } := by
  have hframe := TraceWriter.register_modulus_frame r.writer q
  obtain ⟨-, htable⟩ := TraceWriter.register_modulus_eq h.consistent q
  have hpre : r.writer.modulus_table_ <+: (r.writer.register_modulus q).2.modulus_table_ := by
    rw [htable]
    exact prefix_intern _ q
  have hann : (r.writer.register_modulus q).2.annotations_ = r.writer.annotations_ := by rw [hframe]
  have hinst : (r.writer.register_modulus q).2.instructions_ = r.writer.instructions_ := by rw [hframe]
  refine ⟨TraceWriter.register_modulus_consistent h.consistent q, ?_, ?_, fun hsize => ?_⟩
  · rw [hann]
    exact h.ordered
  · rw [hann, hinst]
    exact h.behind
  · rw [hinst]
    have hsize' : r.writer.modulus_table_.length ≤ 2 ^ 32 := hpre.length_le.trans hsize
    exact (h.recorded hsize').imp fun _ _ hrec => hrec.grow hpre

/-- Right after it was registered, the index of a modulus selects it. -/
theorem Sound.registered (h : r.Sound) (q : UInt64)
    (hsize : (r.writer.register_modulus q).2.modulus_table_.length ≤ 2 ^ 32) :
    (r.writer.register_modulus q).2.modulus_table_[(r.writer.register_modulus q).1.toUInt64.toNat]? =
      some q := by
  obtain ⟨-, htable⟩ := TraceWriter.register_modulus_eq h.consistent q
  rw [htable] at hsize ⊢
  exact TraceWriter.register_modulus_selects h.consistent q hsize

theorem Sound.register_emit (h : r.Sound) (inst : Instruction) (q : UInt64) :
    (r.register_emit inst q).Sound := by
  refine (h.register q).emit (fun hsize => ?_) (fun hq => absurd hq (by simp))
  exact h.registered q hsize

theorem Sound.comment (h : r.Sound) (text : Str) :
    Sound { r with writer := r.writer.comment text } := by
  unfold TraceWriter.comment
  split
  · refine ⟨⟨h.consistent.head, h.consistent.nodup, h.consistent.lookup⟩, ?_, ?_, h.recorded⟩
    · refine List.pairwise_append.mpr ⟨h.ordered, List.pairwise_singleton _ _, fun a ha b hb => ?_⟩
      rw [List.mem_singleton.mp hb]
      exact h.behind a ha
    · intro a ha
      rcases List.mem_append.mp ha with ha | ha
      · exact h.behind a ha
      · rw [List.mem_singleton.mp ha]
  · exact h

theorem Sound.normalize (h : r.Sound) :
    Sound { r with writer := r.writer.normalize_modulus_table } := by
  have htable := TraceWriter.normalize_table h.consistent
  have hlen : r.writer.normalize_modulus_table.modulus_table_.length = r.writer.modulus_table_.length := by
    rw [htable, (normalized_perm _).length_eq]
  -- the annotations and the number of instructions stay
  have hann : r.writer.normalize_modulus_table.annotations_ = r.writer.annotations_ := by
    rw [TraceWriter.normalize_modulus_table]
    split <;> rfl
  have hcount : r.writer.normalize_modulus_table.instructions_.length = r.writer.instructions_.length := by
    rw [TraceWriter.normalize_modulus_table]
    split
    · rfl
    · exact List.length_map _
  refine ⟨TraceWriter.normalize_consistent h.consistent, ?_, ?_, fun hsize => ?_⟩
  · rw [hann]
    exact h.ordered
  · rw [hann, hcount]
    exact h.behind
  · have hsize' : r.writer.modulus_table_.length ≤ 2 ^ 32 := hlen ▸ hsize
    show List.Forall₂ (Recorded r.writer.normalize_modulus_table.modulus_table_)
      r.writer.normalize_modulus_table.instructions_ r.meant
    rw [TraceWriter.normalize_eq h.consistent hsize']
    exact List.forall₂_map_left_iff.mpr
      ((h.recorded hsize').imp fun _ _ hrec => hrec.normalize h.consistent hsize')

theorem sound_clear (tw : TraceWriter) : Sound ⟨tw.clear, []⟩ :=
  ⟨TraceWriter.consistent_clear tw, List.Pairwise.nil, fun _ ha => absurd ha List.not_mem_nil,
    fun _ => List.Forall₂.nil⟩

/-- Whether the writer records is no part of it. -/
theorem Sound.flags (h : r.Sound) (recording paused : Bool) :
    Sound { r with writer := { r.writer with recording_ := recording, paused_ := paused } } :=
  ⟨h.consistent.flags recording paused, h.ordered, h.behind, h.recorded⟩

theorem Sound.step (h : r.Sound) (op : TableOp) : (r.step op).Sound := by
  cases op with
  | start => exact h.flags true false
  | stop => exact h.flags false false
  | pause => exact h.flags r.writer.recording_ true
  | resume => exact h.flags r.writer.recording_ false
  | register q => exact h.register q
  | register_emit inst q => exact h.register_emit inst q
  | emit_sentinel inst =>
    refine h.emit (fun _ => ?_) (fun hq => absurd hq (by simp))
    obtain ⟨rest, hrest⟩ := TraceWriter.head_cons h.consistent
    rw [hrest]
    rfl
  | emit_literal inst q => exact h.emit (fun _ => rfl) (fun hq => absurd hq (by simp))
  | emit_bare inst => exact h.emit (fun _ => rfl) (fun _ => rfl)
  | comment text => exact h.comment text
  | normalize => exact h.normalize
  | clear => exact sound_clear r.writer

/-- A new writer, and any sequence of operations on it. -/
def after (ops : List TableOp) : Recording := Runs.run step ⟨{}, []⟩ ops

theorem after_sound (ops : List TableOp) : (after ops).Sound :=
  run_invariant_of_always (fun _ op h => h.step op) (sound_clear {}) ops

end Recording

namespace TraceWriter

/-- What a table and its map owe each other, and the positions of the comments. -/
structure TableInvariant (tw : TraceWriter) : Prop where
  sentinel : ∀ i : ℕ, tw.modulus_table_[i]? = some COPY_MODULUS_VALUE ↔ i = 0
  nodup : tw.modulus_table_.Nodup
  inverse : ∀ (q : UInt64) (i : UInt32),
    tw.modulus_index_ q = some i ↔ tw.modulus_table_[i.toNat]? = some q
  ordered : tw.annotations_.Pairwise fun a b => a.after_instruction ≤ b.after_instruction
  behind : ∀ a ∈ tw.annotations_, a.after_instruction ≤ tw.instructions_.length

/-- What of it holds of a table of any size. -/
structure TableShape (tw : TraceWriter) : Prop where
  sentinel : ∀ i : ℕ, tw.modulus_table_[i]? = some COPY_MODULUS_VALUE ↔ i = 0
  nodup : tw.modulus_table_.Nodup
  ordered : tw.annotations_.Pairwise fun a b => a.after_instruction ≤ b.after_instruction
  behind : ∀ a ∈ tw.annotations_, a.after_instruction ≤ tw.instructions_.length

theorem getElem?_eq_some_iff_idxOf {table : List UInt64} (h : table.Nodup) {i : ℕ} {q : UInt64} :
    table[i]? = some q ↔ q ∈ table ∧ table.idxOf q = i := by
  constructor
  · intro hi
    obtain ⟨hlt, hq⟩ := List.getElem?_eq_some_iff.mp hi
    exact ⟨List.mem_of_getElem? hi, hq ▸ h.idxOf_getElem i hlt⟩
  · rintro ⟨hmem, rfl⟩
    exact getElem?_idxOf_of_mem hmem

theorem Consistent.inverse {tw : TraceWriter} (h : tw.Consistent)
    (hsize : tw.modulus_table_.length ≤ 2 ^ 32) (q : UInt64) (i : UInt32) :
    tw.modulus_index_ q = some i ↔ tw.modulus_table_[i.toNat]? = some q := by
  rw [h.lookup, getElem?_eq_some_iff_idxOf h.nodup]
  split
  · rename_i hmem
    have hlt : tw.modulus_table_.idxOf q < 2 ^ 32 :=
      (List.idxOf_lt_length_of_mem hmem).trans_le hsize
    rw [Option.some_inj, ← UInt32.toNat_inj, UInt32.toNat_ofNat_of_lt' (by exact hlt)]
    exact ⟨fun heq => ⟨hmem, heq⟩, fun heq => heq.2⟩
  · rename_i hmem
    exact ⟨fun heq => absurd heq (by simp), fun heq => absurd heq.1 hmem⟩

/-- The sentinel stands at the head and nowhere else. -/
theorem Consistent.sentinel {tw : TraceWriter} (h : tw.Consistent) (i : ℕ) :
    tw.modulus_table_[i]? = some COPY_MODULUS_VALUE ↔ i = 0 := by
  obtain ⟨rest, hrest⟩ := head_cons h
  rw [getElem?_eq_some_iff_idxOf h.nodup, hrest, List.idxOf_cons_self]
  exact ⟨fun hi => hi.2.symm, fun hi => ⟨List.mem_cons_self, hi.symm⟩⟩

end TraceWriter

namespace Recording

/-- **The table invariant of a writer**, in whatever order its operations come: the
sentinel stands at the head, no modulus stands twice, and the comments are in order.
As long as the table fits its index type, its two forms are inverse to each other and
every instruction selects what it was emitted with. A normalization sorts the table, is
idempotent, and leaves each instruction selecting the same, with no change to a literal
or to another field. -/
theorem writer_keeps_table_invariant (ops : List TableOp) :
    (after ops).writer.TableShape ∧
      ((after ops).writer.normalize_modulus_table.modulus_table_.drop 1).Pairwise (· < ·) ∧
      ((after ops).writer.modulus_table_.length ≤ 2 ^ 32 →
        (after ops).writer.TableInvariant ∧
          List.Forall₂ (Recorded (after ops).writer.modulus_table_)
            (after ops).writer.instructions_ (after ops).meant ∧
          (after ops).writer.normalize_modulus_table.normalize_modulus_table =
            (after ops).writer.normalize_modulus_table ∧
          List.Forall₂ (Recorded (after ops).writer.normalize_modulus_table.modulus_table_)
            (after ops).writer.normalize_modulus_table.instructions_ (after ops).meant) := by
  have h := after_sound ops
  have htable := TraceWriter.normalize_table h.consistent
  refine ⟨⟨h.consistent.sentinel, h.consistent.nodup, h.ordered, h.behind⟩, ?_, fun hsize => ?_⟩
  · rw [htable]
    exact normalized_ascending h.consistent.nodup
  · refine ⟨⟨h.consistent.sentinel, h.consistent.nodup, h.consistent.inverse hsize, h.ordered, h.behind⟩,
      h.recorded hsize, TraceWriter.normalize_normalize h.consistent hsize, ?_⟩
    apply h.normalize.recorded
    show (after ops).writer.normalize_modulus_table.modulus_table_.length ≤ 2 ^ 32
    rw [htable, (normalized_perm _).length_eq]
    exact hsize

/-- Two moduli out of order, a comment and a literal, then a normalization. -/
theorem writer_keeps_table_invariant_two_moduli :
    (after [.start, .register_emit (ir .FH_SR_ADDP 3 1) 7, .comment (str "c"),
      .register_emit (ir .FH_SR_MULP 4 3) 5, .emit_literal (ir .FH_SR_MULP 5 4) 1,
      .normalize]).writer.TableInvariant := by
  obtain ⟨-, -, hfits⟩ := writer_keeps_table_invariant [.start, .register_emit (ir .FH_SR_ADDP 3 1) 7,
    .comment (str "c"), .register_emit (ir .FH_SR_MULP 4 3) 5, .emit_literal (ir .FH_SR_MULP 5 4) 1,
    .normalize]
  exact (hfits (by decide)).1

/-! ## A table that outgrows its index type -/

/-- Registering the values from 0 on, one after another. -/
def registerUpTo (n : ℕ) : List TableOp := (List.range n).map fun k => .register (UInt64.ofNat k)

theorem ofNat_injOn {n : ℕ} (hn : n < 2 ^ 64) {k : ℕ} (hk : k < n) :
    UInt64.ofNat k ∉ COPY_MODULUS_VALUE :: (List.range k).map UInt64.ofNat := by
  have hval : (UInt64.ofNat k).toNat = k := UInt64.toNat_ofNat_of_lt' (by exact hk.trans hn)
  intro hmem
  rcases List.mem_cons.mp hmem with heq | hmem
  · have hcopy : (UInt64.ofNat k).toNat = 2 ^ 64 - 1 := by
      rw [heq]
      rfl
    omega
  · obtain ⟨j, hj, heq⟩ := List.mem_map.mp hmem
    have hjk : j < k := List.mem_range.mp hj
    have hvalj : (UInt64.ofNat j).toNat = j := UInt64.toNat_ofNat_of_lt' (by exact (hjk.trans hk).trans hn)
    rw [heq] at hvalj
    omega

theorem table_registerUpTo {n : ℕ} (hn : n < 2 ^ 64) :
    (after (registerUpTo n)).writer.modulus_table_ =
      COPY_MODULUS_VALUE :: (List.range n).map UInt64.ofNat := by
  induction n with
  | zero => rfl
  | succ n ih =>
    have hlast : registerUpTo (n + 1) = registerUpTo n ++ [.register (UInt64.ofNat n)] := by
      rw [registerUpTo, List.range_succ, List.map_append]
      rfl
    have ih := ih (by omega)
    have h := (after_sound (registerUpTo n)).consistent
    have htable := (TraceWriter.register_modulus_eq h (UInt64.ofNat n)).2
    rw [hlast, after, run_append]
    show ((after (registerUpTo n)).writer.register_modulus (UInt64.ofNat n)).2.modulus_table_ = _
    rw [htable, ih, intern, if_neg (ofNat_injOn hn (by omega)), List.range_succ, List.map_append]
    rfl

/-- One modulus more than there are indices: the last one is told index 0, where
the sentinel is. -/
theorem index_of_last_registered :
    (after (registerUpTo (2 ^ 32))).writer.modulus_index_ (UInt64.ofNat (2 ^ 32 - 1)) = some 0 ∧
      (after (registerUpTo (2 ^ 32))).writer.modulus_table_[(0 : UInt32).toNat]? =
        some COPY_MODULUS_VALUE := by
  obtain ⟨n, hn⟩ : ∃ n : ℕ, n = 2 ^ 32 := ⟨_, rfl⟩
  have h := (after_sound (registerUpTo n)).consistent
  have htable := table_registerUpTo (show n < 2 ^ 64 by omega)
  have hplace : (after (registerUpTo n)).writer.modulus_table_[n]? = some (UInt64.ofNat (n - 1)) := by
    obtain ⟨m, rfl⟩ : ∃ m, n = m + 1 := ⟨n - 1, by omega⟩
    rw [htable, List.getElem?_cons_succ, List.getElem?_map, List.getElem?_range (by omega)]
    rfl
  obtain ⟨hmem, hidx⟩ := (TraceWriter.getElem?_eq_some_iff_idxOf h.nodup).mp hplace
  rw [← hn]
  refine ⟨?_, (h.sentinel 0).mpr rfl⟩
  rw [h.lookup, if_pos hmem, hidx, hn]
  rfl

/-- So for some sequence of operations the map is not the inverse of the table. -/
theorem table_invariant_fails_past_index_type :
    ¬ (after (registerUpTo (2 ^ 32))).writer.TableInvariant := by
  intro hinv
  obtain ⟨hindex, hhead⟩ := index_of_last_registered
  have hentry := (hinv.inverse _ _).mp hindex
  rw [hhead] at hentry
  have hval : COPY_MODULUS_VALUE = UInt64.ofNat (2 ^ 32 - 1) := Option.some.inj hentry
  exact absurd hval (by decide)

end Recording

/-! ## Many recorders -/

/-- Any number of threads over one writer. A thread that has registered and not
yet emitted holds the index it was given, and the modulus it registered. -/
structure Recorders (Thread : Type) where
  recording : Recording
  pending : Thread → Option (UInt32 × UInt64) := fun _ => none

/-- What can happen under the lock. A thread may register again and drop the index
it holds; to emit it must hold one. -/
inductive LockedStep (Thread : Type) where
  | register (t : Thread) (q : UInt64)
  | emit (t : Thread) (inst : Instruction)
  /-- `normalize_modulus_table`, or `write`, which begins with it and changes
  nothing else of the writer. -/
  | normalize

namespace Recorders

variable {Thread : Type}

/-- Recording has just been switched on, in a writer that was cleared. -/
def start (tw : TraceWriter) : Recorders Thread := { recording := ⟨tw.clear.start_recording, []⟩ }

def step [DecidableEq Thread] (s : Recorders Thread) : LockedStep Thread → Recorders Thread
  | .register t q =>
    let (i, tw) := s.recording.writer.register_modulus q
    { recording := { s.recording with writer := tw }
      pending := Function.update s.pending t (some (i, q)) }
  | .emit t inst =>
    match s.pending t with
    | none => s
    | some (i, q) =>
      { recording := s.recording.emit
          { inst with modulus := some i.toUInt64, modulus_is_literal := false } (some q)
        pending := Function.update s.pending t none }
  | .normalize =>
    { s with recording := { s.recording with writer := s.recording.writer.normalize_modulus_table } }

/-- Every recorded instruction has an index inside the table, and the entry there
is the modulus its thread registered for it. -/
def Linearizable (s : Recorders Thread) : Prop :=
  List.Forall₂
    (fun inst entry => ∃ m q, inst.modulus = some m ∧ entry.2 = some q ∧
      m.toNat < s.recording.writer.modulus_table_.length ∧
      s.recording.writer.modulus_table_[m.toNat]? = some q)
    s.recording.writer.instructions_ s.recording.meant

/-- A step that disturbs no index a thread holds. A modulus that is new to the
table needs an index, of which there are `2 ^ 32`. Normalization needs that every
modulus that is registered and not yet emitted stands where sorting puts it: as
many places behind the sentinel as there are smaller moduli. -/
def Undisturbed (s : Recorders Thread) : LockedStep Thread → Prop
  | .register _ q =>
    q ∈ s.recording.writer.modulus_table_ ∨ s.recording.writer.modulus_table_.length < 2 ^ 32
  | .emit _ _ => True
  | .normalize => ∀ t i q, s.pending t = some (i, q) → q ≠ COPY_MODULUS_VALUE →
      s.recording.writer.modulus_table_.idxOf q =
        (s.recording.writer.modulus_table_.drop 1).countP (· < q) + 1

/-- The invariant of runs without disturbance. -/
structure Steady (s : Recorders Thread) : Prop where
  sound : s.recording.Sound
  size : s.recording.writer.modulus_table_.length ≤ 2 ^ 32
  indexed : ∀ entry ∈ s.recording.meant, entry.2 ≠ none ∧ entry.1.modulus_is_literal = false
  pending : ∀ t i q, s.pending t = some (i, q) →
    s.recording.writer.modulus_table_[i.toNat]? = some q

variable {s : Recorders Thread}

theorem Steady.linearizable (h : s.Steady) : s.Linearizable := by
  have hrec := h.sound.recorded h.size
  have hin := h.indexed
  unfold Linearizable
  generalize s.recording.writer.instructions_ = insts at hrec ⊢
  generalize s.recording.meant = meant at hrec hin ⊢
  induction hrec with
  | nil => exact List.Forall₂.nil
  | @cons inst entry insts meant hhead _ ih =>
    refine List.Forall₂.cons ?_ (ih fun e he => hin e (List.mem_cons_of_mem _ he))
    -- what was meant is an index, and the table holds its modulus there
    obtain ⟨hne, hlit⟩ := hin entry List.mem_cons_self
    obtain ⟨q, hq⟩ := Option.ne_none_iff_exists'.mp hne
    have hsel := hhead.selects
    have hlit' : inst.modulus_is_literal = false := by
      rw [hhead.frame]
      exact hlit
    rw [hq, Instruction.selects] at hsel
    split at hsel
    · exact absurd hsel (by simp)
    · rename_i m hm
      rw [hlit', if_neg (by simp)] at hsel
      exact ⟨m, q, hm, hq, (List.getElem?_eq_some_iff.mp hsel).1, hsel⟩

theorem steady_start (tw : TraceWriter) : (start tw : Recorders Thread).Steady :=
  ⟨(Recording.sound_clear tw).flags true false, Nat.le_of_ble_eq_true rfl, fun _ he => absurd he List.not_mem_nil,
    fun _ _ _ h => absurd h (by simp [start])⟩

variable [DecidableEq Thread]

theorem Steady.register (h : s.Steady) (t : Thread) {q : UInt64}
    (hroom : q ∈ s.recording.writer.modulus_table_ ∨ s.recording.writer.modulus_table_.length < 2 ^ 32) :
    (s.step (.register t q)).Steady := by
  obtain ⟨-, htable⟩ := TraceWriter.register_modulus_eq h.sound.consistent q
  have hsize : (s.recording.writer.register_modulus q).2.modulus_table_.length ≤ 2 ^ 32 := by
    rw [htable]
    rcases hroom with hmem | hlt
    · rw [intern_of_mem hmem]
      exact h.size
    · unfold intern
      split
      · exact h.size
      · rw [List.length_append, List.length_singleton]
        exact hlt
  refine ⟨h.sound.register q, hsize, h.indexed, fun t' i' q' hpend => ?_⟩
  show (s.recording.writer.register_modulus q).2.modulus_table_[i'.toNat]? = some q'
  change Function.update s.pending t (some ((s.recording.writer.register_modulus q).1, q)) t' =
    some (i', q') at hpend
  by_cases ht : t' = t
  · -- the index just handed out
    rw [ht, Function.update_self] at hpend
    obtain ⟨rfl, rfl⟩ := Prod.mk.inj (Option.some.inj hpend)
    have hreg := h.sound.registered q hsize
    rwa [UInt32.toNat_toUInt64] at hreg
  · -- an index handed out before: the table has only grown
    rw [Function.update_of_ne ht] at hpend
    have hold := h.pending t' i' q' hpend
    obtain ⟨rest, hrest⟩ := prefix_intern s.recording.writer.modulus_table_ q
    rw [htable, ← hrest, List.getElem?_append_left (List.getElem?_eq_some_iff.mp hold).1]
    exact hold

theorem Steady.emit (h : s.Steady) (t : Thread) (inst : Instruction) :
    (s.step (.emit t inst)).Steady := by
  unfold step
  dsimp only
  cases hpend : s.pending t with
  | none => exact h
  | some held =>
    obtain ⟨i, q⟩ := held
    have hq := h.pending t i q hpend
    -- the thread emits under the index it holds, and gives it up
    refine ⟨h.sound.emit (fun _ => ?_) (fun hq => absurd hq (by simp)), ?_, ?_, ?_⟩
    · show s.recording.writer.modulus_table_[i.toUInt64.toNat]? = some q
      rw [UInt32.toNat_toUInt64]
      exact hq
    · rw [Recording.emit_table]
      exact h.size
    · intro entry he
      rcases Recording.mem_meant_of_emit he with he | rfl
      · exact h.indexed entry he
      · exact ⟨by simp, rfl⟩
    · intro t' i' q' hpend'
      dsimp only at hpend' ⊢
      rw [Recording.emit_table]
      by_cases ht : t' = t
      · rw [ht, Function.update_self] at hpend'
        exact absurd hpend' (by simp)
      · rw [Function.update_of_ne ht] at hpend'
        exact h.pending t' i' q' hpend'

theorem Steady.normalize (h : s.Steady) (hstay : s.Undisturbed .normalize) :
    (s.step .normalize).Steady := by
  have hc := h.sound.consistent
  have htable := TraceWriter.normalize_table hc
  refine ⟨h.sound.normalize, ?_, h.indexed, fun t i q hpend => ?_⟩
  · show s.recording.writer.normalize_modulus_table.modulus_table_.length ≤ 2 ^ 32
    rw [htable, (normalized_perm _).length_eq]
    exact h.size
  · show s.recording.writer.normalize_modulus_table.modulus_table_[i.toNat]? = some q
    obtain ⟨hmem, hidx⟩ := (TraceWriter.getElem?_eq_some_iff_idxOf hc.nodup).mp (h.pending t i q hpend)
    have hnodup := (normalized_perm s.recording.writer.modulus_table_).nodup_iff.mpr hc.nodup
    rw [htable, TraceWriter.getElem?_eq_some_iff_idxOf hnodup]
    refine ⟨mem_normalized.mpr hmem, ?_⟩
    rw [← hidx]
    by_cases hq : q = COPY_MODULUS_VALUE
    · rw [hq]
      exact TraceWriter.idxOf_normalized_sentinel hc
    · rw [TraceWriter.idxOf_normalized hc hmem hq]
      exact (hstay t i q hpend hq).symm

theorem Steady.step (h : s.Steady) (op : LockedStep Thread) (hop : s.Undisturbed op) :
    (s.step op).Steady := by
  cases op with
  | register t q => exact h.register t hop
  | emit t inst => exact h.emit t inst
  | normalize => exact h.normalize hop

/-- **Recording from many threads is linearizable in the modulus** as long as no
normalization comes between a thread's two steps and moves the modulus it has
registered, and the table has an index for every modulus. -/
theorem undisturbed_recording_linearizable (tw : TraceWriter) (ops : List (LockedStep Thread))
    (hops : Runs.Along step Undisturbed (start tw) ops) : (Runs.run step (start tw) ops).Linearizable := by
  have hsteady : (Runs.run step (start tw) ops).Steady :=
    run_invariant (fun _ op hop h => h.step op hop) (steady_start tw) hops
  exact hsteady.linearizable

/-- Two threads and a normalization before and after both have emitted. -/
theorem undisturbed_recording_linearizable_two_threads :
    (Runs.run step (start {} : Recorders Bool)
      [.register true 5, .register false 7, .normalize, .emit false (ir .FH_SR_ADDP 3 1),
        .emit true (ir .FH_SR_MULP 4 3), .normalize]).Linearizable :=
  undisturbed_recording_linearizable {} _ (by
    refine ⟨Or.inr (by decide), Or.inr (by decide), ?_, trivial, trivial, ?_, trivial⟩
    · intro t i q hpend _
      cases t with
      | true =>
        obtain ⟨-, rfl⟩ := Prod.mk.inj (Option.some.inj hpend)
        decide
      | false =>
        obtain ⟨-, rfl⟩ := Prod.mk.inj (Option.some.inj hpend)
        decide
    · intro t i q hpend _
      cases t with
      | true => cases hpend
      | false => cases hpend)

/-- The condition is no stronger than it has to be: after a normalization that
moves a modulus some thread has registered, that thread's next instruction selects
another one. -/
theorem Steady.disturbed_normalization (h : s.Steady) (hkeeps : s.recording.writer.keeps = true)
    (hmoved : ¬ s.Undisturbed .normalize) :
    ∃ t, ∀ inst, ¬ (Runs.run Recorders.step s [.normalize, .emit t inst]).Linearizable := by
  unfold Undisturbed at hmoved
  push Not at hmoved
  obtain ⟨t, i, q, hpend, hq, hplace⟩ := hmoved
  refine ⟨t, fun inst hlin => hplace ?_⟩
  have hc := h.sound.consistent
  have htable := TraceWriter.normalize_table hc
  have hkeeps' : s.recording.writer.normalize_modulus_table.keeps = true := by
    rw [TraceWriter.normalize_modulus_table]
    split
    · exact hkeeps
    · exact hkeeps
  have hstep : Runs.run Recorders.step s [.normalize, .emit t inst] =
      { recording := Recording.emit
          { s.recording with writer := s.recording.writer.normalize_modulus_table }
          { inst with modulus := some i.toUInt64, modulus_is_literal := false } (some q)
        pending := Function.update s.pending t none } := by
    show Recorders.step (Recorders.step s .normalize) (.emit t inst) = _
    unfold Recorders.step
    dsimp only
    rw [hpend]
  rw [hstep, Linearizable, Recording.emit_table] at hlin
  unfold Recording.emit at hlin
  rw [TraceWriter.emit_eq, if_pos hkeeps', if_pos hkeeps', htable] at hlin
  -- the last instruction and the last entry belong to each other
  have hlast := List.forall₂_reverse_iff.mpr hlin
  rw [List.reverse_concat, List.reverse_concat] at hlast
  obtain ⟨⟨m, q', hm, hq', -, hsel⟩, -⟩ := List.forall₂_cons.mp hlast
  obtain rfl : i.toUInt64 = m := Option.some.inj hm
  obtain rfl : q = q' := Option.some.inj hq'
  have hnodup := (normalized_perm s.recording.writer.modulus_table_).nodup_iff.mpr hc.nodup
  have hold := h.pending t i q hpend
  rw [TraceWriter.getElem?_eq_some_iff_idxOf hc.nodup] at hold
  rw [UInt32.toNat_toUInt64, TraceWriter.getElem?_eq_some_iff_idxOf hnodup,
    TraceWriter.idxOf_normalized hc hold.1 hq] at hsel
  rw [hold.2, ← hsel.2]

/-- The thread that registers 7 first holds index 1. Another registers 5, and a
normalization puts 5 there before the first thread emits. -/
theorem normalization_moves_registered_modulus :
    ¬ (Runs.run step (start {} : Recorders Bool)
      [.register true 7, .register false 5, .normalize, .emit true (ir .FH_SR_ADDP 3 1)]).Linearizable := by
  intro h
  obtain ⟨m, q, hm, hq, -, hsel⟩ := List.forall₂_iff_get.mp h |>.2 0 (by decide) (by decide)
  obtain rfl : 1 = m := Option.some.inj hm
  obtain rfl : 7 = q := Option.some.inj hq
  exact absurd hsel (by decide)

end Recorders

end Fhetch
