/-
What `reset` leaves of a program (`src/compiler.cpp`), for the programs after it.

Two histories are compared by the same calls made after them. What those calls can
tell of a process is `Host.seen`: it leaves out the registries that `start` will empty,
the trace format, and a pause while nothing is recorded. `reset` clears the rest but
for the address counter, whether the writer records, the program's and the build's
information in the writer, and the streaming of inputs. Each of these shows in what is
recorded or captured later.
-/
import Fhetch.HostPrograms

set_option autoImplicit false

namespace Fhetch

/-! ## Histories -/

/-- The calls of a program that records: those of the API, between `start` and `stop`. -/
inductive ProgramCall where
  | api (c : ApiCall)
  | start
  | stop

/-- The calls that a process may have made before a `reset`. -/
inductive HostCall where
  | program (c : ProgramCall)
  | pause
  | resume
  | stop_epoch
  | reset
  | set_program_info (name version description : Str)
  | set_build_info (file : Str) (line : Int32) (timestamp : Str)
  /-- `init` with a trace format. -/
  | set_trace_format (format : TraceFormat)
  | enable_input_streaming (enabled : Bool)
  | store_input_element (name : Str) (kind : CapturedKind) (e : CapturedElement)
  | store_output_probe (name : Str) (kind : CapturedKind) (e : ℕ × ℕ)
  | clear_captured_inputs
  | clear_captured_outputs
  | reset_for_epoch
  | replay (ready : Bool) (listed : List (Str × ℕ)) (loads : Bool)

namespace Host

variable (h : Host)

/-- A call on the trace writer. -/
def writes (f : TraceWriter → TraceWriter) : Host :=
  { h with compiler := { h.compiler with
    session := { h.compiler.session with writer := f h.compiler.session.writer } } }

/-- `Compiler::reset`, with `clear_recording_registries`. The two calls reach neither
the registries nor the address counter, and `clear` neither flag of the writer. -/
def reset : Host :=
  { h with compiler := {
      session := { h.compiler.session with
        address_modulus_map := fun _ => none
        writer := h.compiler.session.writer.clear }
      captured_inputs := []
      captured_outputs := []
      g_synced_since_reset := false
      running := false } }

def stop_epoch : Host :=
  if h.compiler.running then
    h.writes fun tw => (((tw.emit { opcode := .FH_HALT }).stop_recording).normalize_modulus_table.clear).start_recording
  else h

def step : ProgramCall → Host
  | .api c => h.api c
  | .start => h.start
  | .stop => h.stop

def call : HostCall → Host
  | .program c => h.step c
  | .pause => if h.compiler.running then h.writes TraceWriter.pause_recording else h
  | .resume => if h.compiler.running then h.writes TraceWriter.resume_recording else h
  | .stop_epoch => h.stop_epoch
  | .reset => h.reset
  | .set_program_info name version description =>
    h.writes (TraceWriter.set_program_info · name version description)
  | .set_build_info file line timestamp => h.writes (TraceWriter.set_source_info · file line timestamp)
  | .set_trace_format format => h.writes (TraceWriter.set_trace_format · format)
  | .enable_input_streaming enabled => { h with input_streaming := enabled }
  | .store_input_element name kind e => { h with compiler := { h.compiler with
      captured_inputs := store_element name kind h.compiler.captured_inputs (h.stored_element e) } }
  | .store_output_probe name kind e => { h with compiler := { h.compiler with
      captured_outputs := store_element name kind h.compiler.captured_outputs e } }
  | .clear_captured_inputs => { h with compiler := { h.compiler with captured_inputs := [] } }
  | .clear_captured_outputs => { h with compiler := { h.compiler with captured_outputs := [] } }
  | .reset_for_epoch => { h with compiler := { h.compiler with
      session := reset_for_epoch h.compiler.session
      g_synced_since_reset := false } }
  | .replay ready listed loads => h.replay ready listed loads

end Host

/-! ## Isolation -/

/-- What the writer holds, and what is captured. -/
structure Observation where
  instructions : List Instruction
  modulus_table : List UInt64
  /-- The header of a trace, by the time it is written at. -/
  metadata : UInt64 → TraceMetadata
  recording : Bool
  captured_inputs : List (CapturedRecord CapturedElement)
  captured_outputs : List (CapturedRecord (ℕ × ℕ))

namespace Host

def observation (h : Host) : Observation where
  instructions := h.compiler.session.writer.instructions_
  modulus_table := h.compiler.session.writer.modulus_table_
  metadata := h.compiler.session.writer.metadata
  recording := h.compiler.session.writer.recording_
  captured_inputs := h.compiler.captured_inputs
  captured_outputs := h.compiler.captured_outputs

/-- The process after a `reset`, for a program that holds nothing yet. -/
def handover (h : Host) : Host := { h.reset with polys := [], scalars := [] }

/-- The same calls show the same after a `reset` of either process. -/
def Isolated (h h' : Host) : Prop :=
  ∀ calls : List ProgramCall,
    (Runs.run step h.handover calls).observation = (Runs.run step h'.handover calls).observation

/-- The two processes agree on what `reset` keeps. -/
structure Retains (h h' : Host) : Prop where
  next_address_ : h.compiler.session.next_address_ = h'.compiler.session.next_address_
  recording_ : h.compiler.session.writer.recording_ = h'.compiler.session.writer.recording_
  paused_ : h.compiler.session.writer.recording_ = true →
    h.compiler.session.writer.paused_ = h'.compiler.session.writer.paused_
  metadata : h.compiler.session.writer.metadata = h'.compiler.session.writer.metadata
  input_streaming : h.input_streaming = h'.input_streaming

end Host

/-! ## What later calls can tell -/

/-- A pause shows only while the writer records, and the format only in files. -/
def TraceWriter.seen (tw : TraceWriter) : TraceWriter :=
  { tw with format_ := .Text, paused_ := tw.recording_ && tw.paused_ }

/-- The registries show only while the compiler runs: `start` empties them. -/
def Session.seen (running : Bool) (s : Session) : Session :=
  { s with
    input_registry := if running then s.input_registry else []
    probe_registry := if running then s.probe_registry else []
    writer := s.writer.seen }

def Host.seen (h : Host) : Host :=
  { h with compiler := { h.compiler with session := h.compiler.session.seen h.compiler.running } }

namespace TraceWriter

variable (tw : TraceWriter)

theorem seen_seen : tw.seen.seen = tw.seen := by
  unfold seen
  rw [← Bool.and_assoc, Bool.and_self]

theorem keeps_seen : tw.seen.keeps = tw.keeps := by
  rcases hrecording : tw.recording_ with _ | _
  · simp [keeps, seen, hrecording]
  · simp [keeps, seen, hrecording]

theorem emit_seen (inst : Instruction) : tw.seen.emit inst = (tw.emit inst).seen := by
  rw [emit_eq, emit_eq, keeps_seen]
  split
  · rfl
  · rfl

theorem register_seen (q : UInt64) :
    tw.seen.register_modulus q = ((tw.register_modulus q).1, (tw.register_modulus q).2.seen) := by
  have hindex : tw.seen.modulus_index_ = tw.modulus_index_ := rfl
  unfold register_modulus
  rw [hindex]
  split
  · rfl
  · rfl

theorem comment_seen (text : Str) : tw.seen.comment text = (tw.comment text).seen := by
  have hkeeps := tw.keeps_seen
  unfold keeps at hkeeps
  unfold comment
  rw [hkeeps]
  split
  · rfl
  · rfl

theorem normalize_seen : tw.seen.normalize_modulus_table = tw.normalize_modulus_table.seen := by
  have htable : tw.seen.modulus_table_ = tw.modulus_table_ := rfl
  unfold normalize_modulus_table
  rw [htable]
  split
  · rfl
  · rfl

/-- **No emission tells a writer from what is seen of it.** -/
theorem record_seen (e : Emission) : e.record tw.seen = (e.record tw).seen := by
  cases e with
  | indexed inst q =>
    show emit_mod _ q tw.seen = (emit_mod _ q tw).seen
    unfold emit_mod midx
    rw [register_seen]
    exact emit_seen _ _
  | sentinel inst => exact emit_seen _ _
  | literal inst q => exact emit_seen _ _
  | bare inst => exact emit_seen _ _
  | comment text => exact comment_seen _ _
  | register q => exact congrArg Prod.snd (tw.register_seen q)

end TraceWriter

/-! ## Calls of the API -/

/-- A call gives the same in a session and in what is seen of it. -/
def Blind {α : Type} (call : Api α) : Prop :=
  ∀ running s, call (s.seen running) = (call s).map (Prod.map id (Session.seen running))

theorem remember_seen (running : Bool) (s : Session) (a : ℕ) (q : UInt64) :
    (s.seen running).remember_modulus a q = (s.remember_modulus a q).seen running := by
  have hmap : (s.seen running).address_modulus_map = s.address_modulus_map := rfl
  unfold Session.remember_modulus
  rw [hmap]
  split
  · rfl
  · split
    · rfl
    · rfl

theorem Records.blind {α : Type} {call : Api α} (h : Records call) : Blind call := by
  induction h with
  | pure a => exact fun _ _ => rfl
  | alloc => exact fun _ _ => rfl
  | remember a q =>
    intro running s
    exact congrArg (fun s => some ((), s)) (remember_seen running s a q)
  | emit e =>
    intro running s
    exact congrArg (fun tw => some ((), { s.seen running with writer := tw })) (s.writer.record_seen e)
  | require omega ring_dim q =>
    intro running s
    unfold require_ntt_root
    split
    · rfl
    · rfl
  | @bind α β x f _ _ ihx ihf =>
    intro running s
    have hrun : ∀ s, (x >>= f) s = (x s).bind fun r => f r.1 r.2 := fun _ => rfl
    rw [hrun, hrun, ihx running s]
    rcases x s with _ | ⟨a, s'⟩
    · rfl
    · exact ihf a running s'

/-! ## A program's calls -/

theorem Session.seen_seen (running : Bool) (s : Session) : (s.seen running).seen running = s.seen running := by
  unfold Session.seen
  cases running with
  | true => simp only [if_true, TraceWriter.seen_seen]
  | false => simp only [Bool.false_eq_true, if_false, TraceWriter.seen_seen]

theorem comments_seen (name : Str) (ps : List Polynomial) (tw : TraceWriter) :
    ps.foldl (fun tw p => tw.comment (output_comment name p)) tw.seen =
      (ps.foldl (fun tw p => tw.comment (output_comment name p)) tw).seen := by
  induction ps generalizing tw with
  | nil => rfl
  | cons p ps ih => rw [List.foldl_cons, List.foldl_cons, TraceWriter.comment_seen, ih]

/-- A tag is put down behind the others, or where no registry is seen. -/
theorem Tags.seen {i o : Option RegistryEntry} {call : Api Handed} (h : Tags i o call) (running : Bool) (s : Session) :
    (call (s.seen running)).map (Prod.map id (Session.seen running)) =
      (call s).map (Prod.map id (Session.seen running)) := by
  have hin : ∀ registry e, (if running then (if running then registry else []) ++ [e] else []) =
      if running then registry ++ [e] else ([] : List RegistryEntry) := by
    intro registry e
    cases running with
    | true => rfl
    | false => rfl
  have hkept : ∀ registry : List RegistryEntry,
      (if running then (if running then registry else []) else []) = if running then registry else [] := by
    intro registry
    cases running with
    | true => rfl
    | false => rfl
  cases h with
  | input name t =>
    show some (({} : Handed), Session.seen running _) = some (({} : Handed), Session.seen running _)
    unfold Session.seen
    simp only [hin, hkept, TraceWriter.seen_seen]
  | output name t =>
    show some (({} : Handed), Session.seen running _) = some (({} : Handed), Session.seen running _)
    unfold Session.seen
    simp only [hin, hkept, comments_seen, TraceWriter.seen_seen]

namespace Host

variable (h : Host)

theorem seen_seen : h.seen.seen = h.seen :=
  congrArg (fun s => { h with compiler := { h.compiler with session := s } }) (Session.seen_seen _ _)

theorem seen_api (c : ApiCall) : (h.seen.api c).seen = (h.api c).seen := by
  have hsame : c.call h.seen.polys h.seen.scalars = c.call h.polys h.scalars := rfl
  unfold api
  rw [hsame]
  rcases hcall : c.call h.polys h.scalars with _ | call
  · exact h.seen_seen
  · -- both kinds of call leave the same to be seen
    have hseen : (call (h.compiler.session.seen h.compiler.running)).map
          (Prod.map id (Session.seen h.compiler.running)) =
        (call h.compiler.session).map (Prod.map id (Session.seen h.compiler.running)) := by
      rcases ApiCall.records_or_tags hcall with ⟨hrecords, -⟩ | htags
      · rw [hrecords.blind]
        rcases call h.compiler.session with _ | ⟨given, s⟩
        · rfl
        · exact congrArg (fun s => some (given, s)) (Session.seen_seen _ s)
      · exact htags.seen _ _
    have hsession : h.seen.compiler.session = h.compiler.session.seen h.compiler.running := rfl
    simp only [hsession]
    rcases hleft : call (h.compiler.session.seen h.compiler.running) with _ | ⟨given, s⟩ <;>
      rcases hright : call h.compiler.session with _ | ⟨given', s'⟩ <;>
      rw [hleft, hright] at hseen
    · exact h.seen_seen
    · exact absurd hseen (by simp)
    · exact absurd hseen (by simp)
    · obtain ⟨hgiven, hs⟩ := Prod.mk.inj (Option.some.inj hseen)
      obtain rfl : given = given' := hgiven
      exact congrArg (fun s => { h with
        compiler := { h.compiler with session := s }
        polys := h.polys ++ given.polys
        scalars := h.scalars ++ given.scalars }) hs

theorem seen_start : h.seen.start.seen = h.start.seen := by
  have hrunning : h.seen.compiler.running = h.compiler.running := rfl
  unfold start Compiler.start
  rw [hrunning]
  split
  · exact h.seen_seen
  · rfl

theorem seen_stop : h.seen.stop.seen = h.stop.seen := by
  have hrunning : h.seen.compiler.running = h.compiler.running := rfl
  unfold stop
  rw [hrunning]
  split
  · rename_i hon
    -- the registries are there to be seen
    have hsync : h.seen.sync_fhetch_state_to_compiler = h.sync_fhetch_state_to_compiler.seen := by
      have hsynced : h.seen.compiler.g_synced_since_reset = h.compiler.g_synced_since_reset := rfl
      have hin : h.seen.compiler.session.input_registry = h.compiler.session.input_registry := if_pos hon
      have hout : h.seen.compiler.session.probe_registry = h.compiler.session.probe_registry := if_pos hon
      unfold sync_fhetch_state_to_compiler
      rw [hsynced]
      split
      · rfl
      · rw [hin, hout]
        rfl
    have hwriter : ∀ tw : TraceWriter,
        (tw.seen.emit { opcode := .FH_HALT }).stop_recording.normalize_modulus_table =
          (tw.emit { opcode := .FH_HALT }).stop_recording.normalize_modulus_table.seen := by
      intro tw
      rw [TraceWriter.emit_seen, ← TraceWriter.normalize_seen]
      rfl
    have hsession : h.sync_fhetch_state_to_compiler.seen.compiler.session.writer =
        h.sync_fhetch_state_to_compiler.compiler.session.writer.seen := rfl
    dsimp only
    rw [hsync, hsession, hwriter]
    unfold seen Session.seen
    simp only [Bool.false_eq_true, if_false, TraceWriter.seen_seen]
  · exact h.seen_seen

/-- **One call** of a program cannot tell a process from what is seen of it. -/
theorem seen_step (c : ProgramCall) : (h.seen.step c).seen = (h.step c).seen := by
  cases c with
  | api c => exact h.seen_api c
  | start => exact h.seen_start
  | stop => exact h.seen_stop

/-- And so no run of them can. -/
theorem seen_run {h h' : Host} (hseen : h.seen = h'.seen) (calls : List ProgramCall) :
    (Runs.run step h calls).seen = (Runs.run step h' calls).seen := by
  refine Runs.view_run (fun h h' c hview => ?_) hseen calls
  rw [← h.seen_step, ← h'.seen_step, hview]

theorem observation_seen : h.seen.observation = h.observation := rfl

/-! ## What reset keeps -/

variable {h h' : Host}

/-- What is kept is all that can be seen of a process that was reset. -/
theorem Retains.seen_handover (hretains : Retains h h') : h.handover.seen = h'.handover.seen := by
  obtain ⟨hnext, hrecording, hpaused, hmetadata, hstreaming⟩ := hretains
  have hinfo := congrFun hmetadata 0
  simp only [TraceWriter.metadata, TraceMetadata.mk.injEq] at hinfo
  obtain ⟨hname, hversion, -, hdescription, hfile, hline, htimestamp, -⟩ := hinfo
  have hpause : (h'.compiler.session.writer.recording_ && h.compiler.session.writer.paused_) =
      (h'.compiler.session.writer.recording_ && h'.compiler.session.writer.paused_) := by
    rw [← hrecording]
    by_cases hon : h.compiler.session.writer.recording_ = true
    · rw [hpaused hon]
    · rw [Bool.not_eq_true] at hon
      rw [hon]
      rfl
  unfold handover reset seen Session.seen TraceWriter.seen TraceWriter.clear
  simp only [Bool.false_eq_true, if_false, hnext, hpause, hrecording, hname, hversion, hdescription, hfile,
    hline, htimestamp, hstreaming]

/-- A polynomial that was made before `start` is captured at its address. -/
theorem shows_address (h : Host) : (Runs.run step h.handover
      [.api (.zeros 1 .Evaluation), .start, .api (.tag_output (str "x") (.poly 0)), .stop]).observation.captured_outputs =
    [⟨str "x", .SRP, [(h.compiler.session.next_address_, 0)]⟩] := rfl

theorem length_emit_mod (inst : Instruction) (q : UInt64) (tw : TraceWriter) :
    (emit_mod inst q tw).instructions_.length =
      tw.instructions_.length + if tw.keeps then 1 else 0 := by
  unfold emit_mod midx
  dsimp only
  rw [TraceWriter.register_modulus_frame, TraceWriter.emit_eq]
  have hkeeps : ∀ table index, ({ tw with modulus_table_ := table, modulus_index_ := index } : TraceWriter).keeps =
      tw.keeps := fun _ _ => rfl
  rw [hkeeps]
  split
  · exact List.length_append
  · rfl

/-- A negation is recorded where the writer was left recording, outside a pause. -/
theorem shows_pause (h : Host) : (Runs.run step h.handover
      [.api (.zeros 1 .Evaluation), .api (.un .sr_negp 0 97)]).observation.instructions.length =
    if h.compiler.session.writer.keeps then 1 else 0 := by
  show (emit_mod (ir .FH_SR_NEGP (h.compiler.session.next_address_ + 1) h.compiler.session.next_address_) 97
    (Session.remember_modulus (Session.remember_modulus _ _ 97) _ 97).writer).instructions_.length = _
  rw [length_emit_mod, Session.remember_modulus_frame, Session.remember_modulus_frame]
  exact Nat.zero_add _

/-- The values of an input are captured unless they are streamed. -/
theorem shows_streaming (h : Host) : (Runs.run step h.handover
      [.start, .api (.from_data [5] 1 .Evaluation), .api (.un .sr_negp 0 97),
        .api (.tag_input (str "x") (.poly 0)), .stop]).observation.captured_inputs =
    [⟨str "x", .SRP, [⟨0, if h.input_streaming then [] else [5], 97⟩]⟩] := by
  show [(⟨str "x", .SRP, [if h.input_streaming then _ else _]⟩ : CapturedRecord CapturedElement)] = _
  split
  · rfl
  · rfl

theorem Isolated.retains (hisolated : Isolated h h') : Retains h h' := by
  have hnone := hisolated []
  have hrecording : h.compiler.session.writer.recording_ = h'.compiler.session.writer.recording_ :=
    congrArg Observation.recording hnone
  refine ⟨?_, hrecording, fun hon => ?_, congrArg Observation.metadata hnone, ?_⟩
  · have hcaptured := congrArg Observation.captured_outputs (hisolated
      [.api (.zeros 1 .Evaluation), .start, .api (.tag_output (str "x") (.poly 0)), .stop])
    rw [shows_address, shows_address] at hcaptured
    simpa using hcaptured
  · have hlength := congrArg (fun o => o.instructions.length) (hisolated
      [.api (.zeros 1 .Evaluation), .api (.un .sr_negp 0 97)])
    simp only [shows_pause, TraceWriter.keeps, ← hrecording, hon, Bool.true_and] at hlength
    revert hlength
    cases h.compiler.session.writer.paused_ <;> cases h'.compiler.session.writer.paused_ <;> simp
  · have hcaptured := congrArg Observation.captured_inputs (hisolated
      [.start, .api (.from_data [5] 1 .Evaluation), .api (.un .sr_negp 0 97),
        .api (.tag_input (str "x") (.poly 0)), .stop])
    rw [shows_streaming, shows_streaming] at hcaptured
    revert hcaptured
    cases h.input_streaming <;> cases h'.input_streaming <;> simp

end Host

open Host

/-- **Programs are isolated by `reset`** exactly as far as their processes agree on what
it keeps: after any two histories, the same calls leave the same to be seen if and only
if the address counter, the flags of the writer, the program's information and the
streaming of inputs were the same before the `reset`. -/
theorem reset_isolates_iff (history history' : List HostCall) :
    Isolated (Runs.run call {} history) (Runs.run call {} history') ↔
      Retains (Runs.run call {} history) (Runs.run call {} history') := by
  refine ⟨Isolated.retains, fun hretains calls => ?_⟩
  rw [← observation_seen, ← (Runs.run step (handover _) calls).observation_seen, seen_run hretains.seen_handover]

/-- **The name of the program before.** A trace that is recorded after a `reset` and
never named carries it in its header. -/
theorem reset_keeps_program_name :
    ¬ Isolated (Runs.run call {} [.set_program_info (str "first") [] []]) (Runs.run call {} []) := by
  intro hisolated
  have hmetadata := congrArg (fun o => (o.metadata 0).program_name) (hisolated [.start])
  exact absurd hmetadata (by decide)

end Fhetch
