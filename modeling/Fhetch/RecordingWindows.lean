/-
The recording windows of a compiler (`src/compiler.cpp`): what `start`, `pause`,
`resume`, `stop_epoch` and `stop` make of what is emitted between them.

Two flags in the trace writer decide what is kept, and the compiler has its own for
whether it runs. The closing halt of a trace is emitted like any instruction, so it
is kept or dropped as any instruction would be: it is missing from a trace that is
closed while the recording is paused. An epoch that ends there also ends the pause.

What a written trace should hold is stated over the calls alone, by `Window`.
-/
import Fhetch.RecordedSession

set_option autoImplicit false

namespace Fhetch

open Lib Runs

/-! ## Emissions -/

/-- What a recording call does to the trace writer. -/
inductive Emission where
  /-- Register a modulus and emit with its index, as the instruction builders do. -/
  | indexed (inst : Instruction) (q : UInt64)
  /-- Emit with the sentinel index, as the copy and zero idioms do. -/
  | sentinel (inst : Instruction)
  | literal (inst : Instruction) (q : UInt64)
  /-- Emit an instruction that has no modulus. -/
  | bare (inst : Instruction)
  | comment (text : Str)
  | register (q : UInt64)

/-- An instruction as it was emitted, and the modulus value it was emitted with. -/
abbrev Entry := Instruction × Option UInt64

namespace Emission

def record : Emission → TraceWriter → TraceWriter
  | indexed inst q => emit_mod { inst with modulus_is_literal := false } q
  | sentinel inst => fun tw => tw.emit
    { inst with modulus := some COPY_MODULUS_INDEX.toUInt64, modulus_is_literal := false }
  | literal inst q => fun tw => tw.emit { inst with modulus := some q, modulus_is_literal := true }
  | bare inst => fun tw => tw.emit { inst with modulus := none }
  | comment text => fun tw => tw.comment text
  | register q => fun tw => (tw.register_modulus q).2

/-- The instructions of a call: one, or none. -/
def entries : Emission → List Entry
  | indexed inst q => [({ inst with modulus_is_literal := false }, some q)]
  | sentinel inst => [({ inst with modulus_is_literal := false }, some COPY_MODULUS_VALUE)]
  | literal inst q => [({ inst with modulus := some q, modulus_is_literal := true }, some q)]
  | bare inst => [({ inst with modulus := none }, none)]
  | comment _ => []
  | register _ => []

end Emission

/-! ## The compiler's part -/

/-- The calls that open, close and interrupt a recording, and the emissions. -/
inductive CompilerOp where
  | start
  | pause
  | resume
  | stop_epoch
  | stop
  | emit (e : Emission)

/-- The trace writer, and what the compiler keeps beside it. -/
structure Recorder where
  trace_writer : TraceWriter := {}
  running : Bool := false
  epoch_id : UInt32 := 0

namespace Recorder

variable (r : Recorder)

/-- What `stop` and `stop_epoch` leave of the trace writer when they have written it. -/
def closed : TraceWriter :=
  (r.trace_writer.emit { opcode := .FH_HALT }).stop_recording.normalize_modulus_table

def start : Recorder :=
  if r.running then r
  else { r with trace_writer := r.trace_writer.clear.start_recording, running := true }

def pause : Recorder :=
  if r.running then { r with trace_writer := r.trace_writer.pause_recording } else r

def resume : Recorder :=
  if r.running then { r with trace_writer := r.trace_writer.resume_recording } else r

def stop : Recorder :=
  if r.running then { r with trace_writer := r.closed, running := false } else r

def stop_epoch : Recorder :=
  if r.running then
    { r with trace_writer := r.closed.clear.start_recording, epoch_id := r.epoch_id + 1 }
  else r

def step : CompilerOp → Recorder
  | .start => r.start
  | .pause => r.pause
  | .resume => r.resume
  | .stop_epoch => r.stop_epoch
  | .stop => r.stop
  | .emit e => { r with trace_writer := e.record r.trace_writer }

/-- The trace that a call writes: `stop` and `stop_epoch` do, when they succeed. -/
def written : CompilerOp → Option TraceWriter
  | .stop => if r.running then some r.closed else none
  | .stop_epoch => if r.running then some r.closed else none
  | _ => none

end Recorder

/-! ## What a trace should hold -/

/-- What the calls so far say: whether the last `start` has been stopped, whether a
`pause` waits for its `resume`, and what was emitted since the last `start` or
`stop_epoch` while neither kept it out. -/
structure Window where
  running : Bool := false
  paused : Bool := false
  emitted : List Entry := []

namespace Window

variable (w : Window)

def step : CompilerOp → Window
  | .start => if w.running then w else { running := true }
  | .pause => if w.running then { w with paused := true } else w
  | .resume => if w.running then { w with paused := false } else w
  | .stop_epoch => if w.running then { w with emitted := [] } else w
  | .stop => { w with running := false }
  | .emit e => if w.running && !w.paused then { w with emitted := w.emitted ++ e.entries } else w

/-- The emissions, and one halt behind them. -/
def trace : List Entry := w.emitted ++ [({ opcode := .FH_HALT }, none)]

end Window

/-- A recorder, and what its calls say. -/
structure Cycle where
  recorder : Recorder := {}
  window : Window := {}

namespace Cycle

variable (s : Cycle)

def step (op : CompilerOp) : Cycle := ⟨s.recorder.step op, s.window.step op⟩

end Cycle

/-- An instruction as it is written, against an emission: it differs at most in its
modulus index, and the index selects the modulus of the emission, as long as every
place of the table fits the index type. -/
structure WrittenAs (table : List UInt64) (inst : Instruction) (entry : Entry) : Prop where
  frame : inst = { entry.1 with modulus := inst.modulus }
  recorded : table.length ≤ 2 ^ 32 → Recorded table inst entry

/-- The trace that a call writes, if any, is what the calls say. -/
def Cycle.WritesTrace (s : Cycle) (op : CompilerOp) : Prop :=
  ∀ tw, s.recorder.written op = some tw →
    List.Forall₂ (WrittenAs tw.modulus_table_) tw.instructions_ s.window.trace

/-- A trace is closed with no pause pending. -/
def Cycle.ClosesUnpaused (s : Cycle) (op : CompilerOp) : Prop :=
  op = .stop ∨ op = .stop_epoch → s.window.running = true → s.window.paused = false

/-! ## What a writer holds -/

/-- The writer holds what was emitted, and its table is in order. -/
structure Tells (tw : TraceWriter) (emitted : List Entry) : Prop where
  consistent : tw.Consistent
  written : List.Forall₂ (WrittenAs tw.modulus_table_) tw.instructions_ emitted

theorem WrittenAs.of_recorded {table : List UInt64} {inst : Instruction} {entry : Entry}
    (h : Recorded table inst entry) : WrittenAs table inst entry := ⟨h.frame, fun _ => h⟩

theorem tells_clear (tw : TraceWriter) : Tells tw.clear [] :=
  ⟨TraceWriter.consistent_clear tw, List.Forall₂.nil⟩

section Tells

variable {tw : TraceWriter} {emitted : List Entry}

/-- Whether the writer records is no part of it. -/
theorem Tells.flags (h : Tells tw emitted) (recording paused : Bool) :
    Tells { tw with recording_ := recording, paused_ := paused } emitted :=
  ⟨⟨h.consistent.head, h.consistent.nodup, h.consistent.lookup⟩, h.written⟩

theorem emit_dropped {inst : Instruction} (h : tw.keeps = false) : tw.emit inst = tw := by
  rw [TraceWriter.emit_eq, h]
  rfl

/-- An instruction that says its entry is kept behind the others. -/
theorem Tells.emit (h : Tells tw emitted) {inst : Instruction} {entry : Entry}
    (hentry : WrittenAs tw.modulus_table_ inst entry) (hkeeps : tw.keeps = true) :
    Tells (tw.emit inst) (emitted ++ [entry]) := by
  rw [TraceWriter.emit_eq, if_pos hkeeps]
  exact ⟨⟨h.consistent.head, h.consistent.nodup, h.consistent.lookup⟩,
    List.rel_append h.written (List.Forall₂.cons hentry List.Forall₂.nil)⟩

theorem Tells.register (h : Tells tw emitted) (q : UInt64) : Tells (tw.register_modulus q).2 emitted := by
  obtain ⟨-, htable⟩ := TraceWriter.register_modulus_eq h.consistent q
  have hframe := TraceWriter.register_modulus_frame tw q
  have hpre : tw.modulus_table_ <+: (tw.register_modulus q).2.modulus_table_ := by
    rw [htable]
    exact prefix_intern _ q
  refine ⟨TraceWriter.register_modulus_consistent h.consistent q, ?_⟩
  have hinsts : (tw.register_modulus q).2.instructions_ = tw.instructions_ := by rw [hframe]
  rw [hinsts]
  refine h.written.imp fun inst entry hentry => ⟨hentry.frame, fun hsize => ?_⟩
  exact (hentry.recorded (hpre.length_le.trans hsize)).grow hpre

theorem Tells.comment (h : Tells tw emitted) (text : Str) : Tells (tw.comment text) emitted := by
  unfold TraceWriter.comment
  split
  · exact ⟨⟨h.consistent.head, h.consistent.nodup, h.consistent.lookup⟩, h.written⟩
  · exact h

/-- What a builder emits selects what was registered just before. -/
theorem writtenAs_indexed (h : tw.Consistent) (inst : Instruction) (q : UInt64) :
    WrittenAs (tw.register_modulus q).2.modulus_table_
      { inst with modulus := some (tw.register_modulus q).1.toUInt64, modulus_is_literal := false }
      ({ inst with modulus_is_literal := false }, some q) := by
  refine ⟨rfl, fun hsize => ⟨?_, fun hq => absurd hq (by simp), rfl, fun hlit => absurd hlit (by simp)⟩⟩
  obtain ⟨-, htable⟩ := TraceWriter.register_modulus_eq h q
  rw [htable] at hsize ⊢
  exact TraceWriter.register_modulus_selects h q hsize

theorem record_flags (e : Emission) (tw : TraceWriter) :
    (e.record tw).recording_ = tw.recording_ ∧ (e.record tw).paused_ = tw.paused_ := by
  have hemit : ∀ (tw : TraceWriter) (inst : Instruction),
      (tw.emit inst).recording_ = tw.recording_ ∧ (tw.emit inst).paused_ = tw.paused_ := by
    intro tw inst
    rw [TraceWriter.emit_frame]
    exact ⟨rfl, rfl⟩
  have hregister : ∀ q : UInt64, (tw.register_modulus q).2.recording_ = tw.recording_ ∧
      (tw.register_modulus q).2.paused_ = tw.paused_ := by
    intro q
    rw [TraceWriter.register_modulus_frame]
    exact ⟨rfl, rfl⟩
  cases e with
  | indexed inst q =>
    obtain ⟨hrecording, hpaused⟩ := hemit (tw.register_modulus q).2
      { inst with modulus := some (tw.register_modulus q).1.toUInt64, modulus_is_literal := false }
    exact ⟨hrecording.trans (hregister q).1, hpaused.trans (hregister q).2⟩
  | sentinel inst => exact hemit tw _
  | literal inst q => exact hemit tw _
  | bare inst => exact hemit tw _
  | comment text =>
    show (tw.comment text).recording_ = _ ∧ (tw.comment text).paused_ = _
    rw [TraceWriter.comment_frame]
    exact ⟨rfl, rfl⟩
  | register q => exact hregister q

/-- **One emission.** It is kept when the writer keeps, and else it is not. -/
theorem Tells.record (h : Tells tw emitted) (e : Emission) :
    Tells (e.record tw) (if tw.keeps then emitted ++ e.entries else emitted) := by
  have hemit : ∀ {tw : TraceWriter} {inst : Instruction} {entry : Entry}, Tells tw emitted →
      WrittenAs tw.modulus_table_ inst entry →
      Tells (tw.emit inst) (if tw.keeps then emitted ++ [entry] else emitted) := by
    intro tw inst entry htells hentry
    -- kept at the end, or dropped
    by_cases hkeeps : tw.keeps = true
    · rw [if_pos hkeeps]
      exact htells.emit hentry hkeeps
    · rw [if_neg hkeeps, emit_dropped (Bool.not_eq_true _ ▸ hkeeps)]
      exact htells
  have hquiet : (if tw.keeps then emitted ++ [] else emitted) = emitted := by
    rw [List.append_nil, ite_self]
  cases e with
  | indexed inst q =>
    have hkeeps : (tw.register_modulus q).2.keeps = tw.keeps := by
      rw [TraceWriter.register_modulus_frame]
      rfl
    rw [← hkeeps]
    exact hemit (h.register q) (writtenAs_indexed h.consistent inst q)
  | sentinel inst =>
    refine hemit h (.of_recorded ⟨?_, fun hq => absurd hq (by simp), rfl, fun hlit => absurd hlit (by simp)⟩)
    obtain ⟨rest, hrest⟩ := TraceWriter.head_cons h.consistent
    rw [hrest]
    rfl
  | literal inst q =>
    exact hemit h (.of_recorded ⟨rfl, fun hq => absurd hq (by simp), rfl, fun _ => rfl⟩)
  | bare inst => exact hemit h (.of_recorded ⟨rfl, fun _ => rfl, rfl, fun _ => rfl⟩)
  | comment text =>
    rw [Emission.entries, hquiet]
    exact h.comment text
  | register q =>
    rw [Emission.entries, hquiet]
    exact h.register q

/-- Normalizing moves indices and nothing else. -/
theorem Tells.normalize (h : Tells tw emitted) : Tells tw.normalize_modulus_table emitted := by
  refine ⟨TraceWriter.normalize_consistent h.consistent, ?_⟩
  have htable := TraceWriter.normalize_table h.consistent
  have hwritten : ∀ inst entry, WrittenAs tw.modulus_table_ inst entry →
      WrittenAs (normalized tw.modulus_table_)
        (TraceWriter.remap_instruction tw.modulus_table_ inst) entry := by
    intro inst entry hentry
    refine ⟨?_, fun hsize => ?_⟩
    · rw [TraceWriter.remap_instruction_frame, hentry.frame]
    · rw [(normalized_perm _).length_eq] at hsize
      exact (hentry.recorded hsize).normalize h.consistent hsize
  rw [htable]
  by_cases hshort : tw.modulus_table_.length ≤ 1
  · -- the sentinel alone
    have hsame : tw.normalize_modulus_table = tw := by rw [TraceWriter.normalize_modulus_table, if_pos hshort]
    rw [hsame] at htable ⊢
    rw [← htable]
    exact h.written
  · rw [TraceWriter.normalize_modulus_table, if_neg hshort]
    exact List.forall₂_map_left_iff.mpr (h.written.imp fun inst entry => hwritten inst entry)

end Tells

/-! ## A run of calls -/

/-- What holds between the recorder and its calls, as long as no trace was closed
with a pause pending. -/
structure Cycle.Tracks (s : Cycle) : Prop where
  recording : s.recorder.trace_writer.recording_ = s.recorder.running
  running : s.window.running = s.recorder.running
  paused : s.recorder.running = true → s.recorder.trace_writer.paused_ = s.window.paused
  tells : s.recorder.running = true → Tells s.recorder.trace_writer s.window.emitted

namespace Cycle

variable {s : Cycle}

theorem tracks_new : Tracks {} := ⟨rfl, rfl, fun h => absurd h (by simp), fun h => absurd h (by simp)⟩

/-- While it runs, a recorder keeps what is emitted outside a pause. -/
theorem Tracks.keeps (h : s.Tracks) (hrunning : s.recorder.running = true) :
    s.recorder.trace_writer.keeps = !s.window.paused := by
  rw [TraceWriter.keeps, h.recording, hrunning, h.paused hrunning]
  exact Bool.true_and _

/-- What is written holds the closing halt when there is no pause. -/
theorem Tracks.closed (h : s.Tracks) (hrunning : s.recorder.running = true)
    (hpaused : s.window.paused = false) : Tells s.recorder.closed s.window.trace := by
  have hkeeps : s.recorder.trace_writer.keeps = true := by rw [h.keeps hrunning, hpaused]; rfl
  have hhalt : WrittenAs s.recorder.trace_writer.modulus_table_ { opcode := .FH_HALT }
      ({ opcode := .FH_HALT }, none) := .of_recorded ⟨rfl, fun _ => rfl, rfl, fun _ => rfl⟩
  exact (((h.tells hrunning).emit hhalt hkeeps).flags false false).normalize

/-- And one instruction too few when there is one. -/
theorem Tracks.closed_paused (h : s.Tracks) (hrunning : s.recorder.running = true)
    (hpaused : s.window.paused = true) :
    s.recorder.closed.instructions_.length < s.window.trace.length := by
  have hkeeps : s.recorder.trace_writer.keeps = false := by rw [h.keeps hrunning, hpaused]; rfl
  have hclosed : Tells s.recorder.closed s.window.emitted := by
    rw [Recorder.closed, emit_dropped hkeeps]
    exact ((h.tells hrunning).flags false false).normalize
  rw [hclosed.written.length_eq, Window.trace, List.length_append]
  exact Nat.lt_succ_self _

/-- The two conditions on a call agree. -/
theorem Tracks.writesTrace_iff (h : s.Tracks) (op : CompilerOp) :
    s.WritesTrace op ↔ s.ClosesUnpaused op := by
  have hcloses : ((s.recorder.running = true → List.Forall₂
        (WrittenAs s.recorder.closed.modulus_table_) s.recorder.closed.instructions_ s.window.trace) ↔
      (s.window.running = true → s.window.paused = false)) := by
    rw [h.running]
    refine forall_congr' fun hrunning => ⟨fun hwritten => ?_, fun hpaused => (h.closed hrunning hpaused).written⟩
    -- a window closed in a pause has lost its last entries
    by_contra hpaused
    have hlt := h.closed_paused hrunning (Bool.not_eq_false _ ▸ hpaused)
    rw [hwritten.length_eq] at hlt
    exact lt_irrefl _ hlt
  -- only a stop writes a trace
  have hquiet : s.recorder.written op = none → ¬ (op = .stop ∨ op = .stop_epoch) →
      (s.WritesTrace op ↔ s.ClosesUnpaused op) := by
    intro hnone hop
    exact ⟨fun _ h => absurd h hop, fun _ tw htw => absurd (hnone.symm.trans htw) (by simp)⟩
  have hwrites : s.recorder.written op = (if s.recorder.running then some s.recorder.closed else none) →
      (op = .stop ∨ op = .stop_epoch) → (s.WritesTrace op ↔ s.ClosesUnpaused op) := by
    intro hwritten hop
    rw [Cycle.WritesTrace, Cycle.ClosesUnpaused, hwritten, imp_iff_right hop, ← hcloses]
    refine ⟨fun hall hrunning => hall _ (if_pos hrunning), fun hall tw htw => ?_⟩
    by_cases hrunning : s.recorder.running = true
    · rw [if_pos hrunning] at htw
      obtain rfl := Option.some.inj htw
      exact hall hrunning
    · rw [if_neg hrunning] at htw
      exact absurd htw (by simp)
  cases op with
  | stop => exact hwrites rfl (Or.inl rfl)
  | stop_epoch => exact hwrites rfl (Or.inr rfl)
  | start => exact hquiet rfl (by simp)
  | pause => exact hquiet rfl (by simp)
  | resume => exact hquiet rfl (by simp)
  | emit e => exact hquiet rfl (by simp)

/-- A call that fails because nothing runs changes neither. -/
theorem Tracks.idle (h : s.Tracks) {op : CompilerOp} (hrecorder : s.recorder.step op = s.recorder)
    (hwindow : s.window.step op = s.window) : (s.step op).Tracks := by
  rw [Cycle.step, hrecorder, hwindow]
  exact h

/-- **One call** keeps the recorder and the window together. -/
theorem Tracks.step (h : s.Tracks) (op : CompilerOp) (hop : s.ClosesUnpaused op) : (s.step op).Tracks := by
  -- each operation does nothing or the same to both sides
  by_cases hrunning : s.recorder.running = true
  · have hwindow : s.window.running = true := h.running.trans hrunning
    cases op with
    | start =>
      refine h.idle ?_ ?_
      · rw [Recorder.step, Recorder.start, if_pos hrunning]
      · rw [Window.step, if_pos hwindow]
    | pause =>
      have hrecorder : s.recorder.step .pause = { s.recorder with
          trace_writer := s.recorder.trace_writer.pause_recording } := if_pos hrunning
      have hpaused : s.window.step .pause = { s.window with paused := true } := if_pos hwindow
      rw [Cycle.step, hrecorder, hpaused]
      exact ⟨h.recording, h.running, fun _ => rfl, fun _ => (h.tells hrunning).flags _ true⟩
    | resume =>
      have hrecorder : s.recorder.step .resume = { s.recorder with
          trace_writer := s.recorder.trace_writer.resume_recording } := if_pos hrunning
      have hresumed : s.window.step .resume = { s.window with paused := false } := if_pos hwindow
      rw [Cycle.step, hrecorder, hresumed]
      exact ⟨h.recording, h.running, fun _ => rfl, fun _ => (h.tells hrunning).flags _ false⟩
    | stop_epoch =>
      have hrecorder : s.recorder.step .stop_epoch = { s.recorder with
          trace_writer := s.recorder.closed.clear.start_recording
          epoch_id := s.recorder.epoch_id + 1 } := if_pos hrunning
      have hepoch : s.window.step .stop_epoch = { s.window with emitted := [] } := if_pos hwindow
      have hpaused : s.window.paused = false := hop (Or.inr rfl) hwindow
      rw [Cycle.step, hrecorder, hepoch]
      exact ⟨hrunning.symm, h.running, fun _ => hpaused.symm, fun _ => (tells_clear _).flags true false⟩
    | stop =>
      have hrecorder : s.recorder.step .stop = { s.recorder with
          trace_writer := s.recorder.closed, running := false } := if_pos hrunning
      have hrecording : s.recorder.closed.recording_ = false := by
        rw [Recorder.closed, TraceWriter.normalize_modulus_table]
        split
        · rfl
        · rfl
      rw [Cycle.step, hrecorder]
      exact ⟨hrecording, rfl, fun hr => absurd hr (by simp), fun hr => absurd hr (by simp)⟩
    | emit e =>
      have hkeeps := h.keeps hrunning
      obtain ⟨hrecording, hpaused⟩ := record_flags e s.recorder.trace_writer
      have hemitted : s.window.step (.emit e) = { s.window with
          emitted := if s.recorder.trace_writer.keeps then s.window.emitted ++ e.entries
            else s.window.emitted } := by
        have hcond : (s.window.running && !s.window.paused) = s.recorder.trace_writer.keeps := by
          rw [hkeeps, hwindow, Bool.true_and]
        rw [Window.step, hcond]
        split
        · rfl
        · rfl
      rw [Cycle.step, hemitted]
      exact ⟨hrecording.trans h.recording, h.running, fun _ => hpaused.trans (h.paused hrunning),
        fun _ => (h.tells hrunning).record e⟩
  · have hwindow : ¬ s.window.running = true := h.running ▸ hrunning
    have hoff : s.window.running = false := by
      rw [← Bool.not_eq_true]
      exact hwindow
    cases op with
    | start =>
      have hrecorder : s.recorder.step .start = { s.recorder with
          trace_writer := s.recorder.trace_writer.clear.start_recording, running := true } :=
        if_neg hrunning
      have hstarted : s.window.step .start = { running := true } := if_neg hwindow
      rw [Cycle.step, hrecorder, hstarted]
      exact ⟨rfl, rfl, fun _ => rfl, fun _ => (tells_clear _).flags true false⟩
    | pause => exact h.idle (if_neg hrunning) (if_neg hwindow)
    | resume => exact h.idle (if_neg hrunning) (if_neg hwindow)
    | stop_epoch => exact h.idle (if_neg hrunning) (if_neg hwindow)
    | stop =>
      have hstopped : s.window.step .stop = s.window := by
        rw [Window.step, ← hoff]
      exact h.idle (if_neg hrunning) hstopped
    | emit e =>
      have hemitted : s.window.step (.emit e) = s.window := by
        rw [Window.step, hoff]
        rfl
      obtain ⟨hrecording, -⟩ := record_flags e s.recorder.trace_writer
      rw [Cycle.step, hemitted]
      have hstill : ¬ (s.recorder.step (.emit e)).running = true := hrunning
      exact ⟨hrecording.trans h.recording, h.running, fun hr => absurd hr hstill,
        fun hr => absurd hr hstill⟩

end Cycle

/-- **A written trace is what was emitted, and a halt.** In every run of calls from a
new process on, every trace that `stop` or `stop_epoch` writes is what the calls since
the last `start` or `stop_epoch` say, exactly when none is closed with a pause
pending. -/
theorem written_traces_iff (ops : List CompilerOp) :
    Along Cycle.step Cycle.WritesTrace {} ops ↔ Along Cycle.step Cycle.ClosesUnpaused {} ops := by
  have hstep : ∀ s op, Cycle.ClosesUnpaused s op → Cycle.Tracks s → Cycle.Tracks (s.step op) :=
    fun _ op hop h => h.step op hop
  have hiff : ∀ s op, Cycle.Tracks s → (s.WritesTrace op ↔ s.ClosesUnpaused op) :=
    fun _ op h => h.writesTrace_iff op
  exact along_congr hstep hiff Cycle.tracks_new ops

/-- **Stopped while paused.** One addition is recorded, and the trace that `stop`
writes has no halt behind it. -/
theorem paused_stop_drops_halt :
    ¬ Along Cycle.step Cycle.WritesTrace {}
      [.start, .emit (.indexed (ir .FH_SR_ADDP 3 1) 97), .pause, .stop] := by
  rintro ⟨-, -, -, hstop, -⟩
  have hlength := (hstop _ rfl).length_eq
  exact absurd hlength (by decide)

/-- Closed epoch by epoch, with a pause in between. -/
example : Along Cycle.step Cycle.ClosesUnpaused {}
    [.start, .emit (.indexed (ir .FH_SR_ADDP 3 1) 97), .pause, .emit (.bare (ir .FH_HALT 0 0)), .resume,
      .stop_epoch, .emit (.sentinel (ir .FH_SR_MULPS 1 1)), .stop] := by
  simp [Along, Cycle.ClosesUnpaused, Cycle.step, Window.step]

end Fhetch
