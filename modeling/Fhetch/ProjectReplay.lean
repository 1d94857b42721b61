/-
A replay from the directory of a project: the rest of `src/local_replay.cpp`, with the
loaders that read the index files and the worker `run_local_replay_from_project`.

The worker knows the recording by its directory alone. It finds the trace, the ring
dimension and the names of what was tagged in the index files, and the polynomials in the
data files. The last files of an item are what it is given, whatever else the recording
process stored under the name. Where each item was tagged once, that is what the process
has itself, in another order, and both replays run over the same memory.

`none` is a load that fails, by `false` or by what it throws. An index whose `inputs`,
`outputs` or elements are no arrays is left out.
-/
import Fhetch.ProjectRecording
import Fhetch.Replay

set_option autoImplicit false

namespace Fhetch

open Lib Runs

/-! ## Index files -/

namespace Json

/-- `contains`, with what there is under the key. -/
def member (key : Str) : Json → Option Json
  | obj fields => fields key
  | _ => none

/-- `value` of a text, which is empty if there is none. -/
def textAt (key : Str) : Json → Option Str
  | obj fields =>
    match fields key with
    | none => some []
    | some (text s) => some s
    | some _ => none
  | _ => none

/-- `value` of a number. -/
def numAt (key : Str) : Json → Option ℕ
  | obj fields =>
    match fields key with
    | none => some 0
    | some (num n) => some n
    | some _ => none
  | _ => none

def asNum : Json → Option ℕ
  | num n => some n
  | _ => none

end Json

structure ProjectIndex where
  ring_dim : ℕ
  trace_file : Str
  prog : Str

def read_project_index (J : JsonLibrary) (d : Dir) : Option ProjectIndex := do
  let data ← d (str "fhetch_replay.json")
  let j ← J.parse data
  let crypto_context ← j.member (str "crypto_context")
  let files ← j.member (str "files")
  let ring_dim ← crypto_context.numAt (str "ring_dimension")
  let trace_file ← files.textAt (str "instructions")
  if ring_dim = 0 ∨ trace_file = [] then none
  else some ⟨ring_dim, trace_file, stem trace_file⟩

/-- The addresses of a polynomial of an output. -/
def poly_elements (poly : Json) : Option (List ℕ) :=
  match poly with
  | .obj fields =>
    match fields (str "elements") with
    | none => some []
    | some (.arr l) => l.mapM Json.asNum
    | some _ => none
  | _ => none

/-- An entry of the outputs; one without a name, or without data, is passed over. -/
def read_output (o : Json) : Option (List NamedOutput) := do
  let name ← o.textAt (str "name")
  if name = [] then some []
  else match o.member (str "ciphertext_data") with
    | none => some []
    | some (.arr polys) => (polys.mapM poly_elements).map fun addr_ids => [⟨name, addr_ids.flatten⟩]
    | some _ => none

def read_output_probes (J : JsonLibrary) (d : Dir) (prog : Str) : Option (List NamedOutput) := do
  let data ← d (outputsFile prog)
  let j ← J.parse data
  match ← j.member (str "outputs") with
  | .arr outputs => (outputs.mapM read_output).map List.flatten
  | _ => none

/-! ## Data files -/

section Loads

variable (A : Archive) (J : JsonLibrary) (d : Dir) (prog : Str)

/-- An entry of the inputs. -/
def load_entry (entry : Json) : Option (List CapturedElement) := do
  let bin ← entry.textAt (str "bin_file")
  let ids ← entry.textAt (str "ids_file")
  if bin = [] ∨ ids = [] then some []
  else
    let bin_data ← d bin
    let ids_data ← d ids
    let addr_ids ← read_ids ids_data
    load_input_bin A bin_data addr_ids

/-- Without an index there are no inputs. -/
def load_source_inputs : Option (List CapturedElement) :=
  match d (inputsFile prog) with
  | none => some []
  | some data => do
    let j ← J.parse data
    match j.member (str "inputs") with
    | none => some []
    | some (.arr entries) => (entries.mapM (load_entry A d)).map List.flatten
    | some _ => none

/-- `load_with`: the files of a key are optional. -/
def load_with (item : Item) : Option (List CapturedElement) :=
  match d (item.file prog (str ".bin")), d (item.file prog (str ".ids")) with
  | some bin, some ids => (read_ids ids).bind (item.load A bin)
  | _, _ => some []

def load_source_keys : Option (List CapturedElement) := do
  let mk ← load_with A d prog .mk
  let rk ← load_with A d prog .rk
  let bp ← load_with A d prog .bp
  return mk ++ (rk ++ bp)

/-- What the sink of the worker is handed. -/
def load_sources : Option (List CapturedElement) := do
  let inputs ← load_source_inputs A J d prog
  let keys ← load_source_keys A d prog
  return inputs ++ keys

end Loads

/-! ## The worker -/

/-- `load_trace` of a file, up to its check for instructions. -/
def load_trace (F : FloatText) (d : Dir) (path : Str) : Option (Option Program) :=
  (read_fhetch_file F path (d path)).map fun r => if r.ok then some r.program else none

/-- `run_local_replay_from_project`, up to the outputs. Whether the ciphertexts can be
made from these is left out. -/
def Dir.run_local_replay_from_project (M : NativeMath) (A : Archive) (J : JsonLibrary) (F : FloatText) (d : Dir) :
    Option (Option (List ReplayOutput)) :=
  match read_project_index J d with
  | none => some none
  | some idx => (load_trace F d idx.trace_file).bind fun
    | none => some none
    | some p =>
      match load_sources A J d idx.prog, read_output_probes J d idx.prog with
      | some elements, some outputs => Fhetch.run_local_replay_from_project M idx.ring_dim p elements outputs
      | _, _ => some none

/-! ## What the worker is given -/

/-- Everything on a shelf that an index names. An input has to be there; a key does not. -/
def Shelf.gather (s : Shelf) (names : List Str) : Option (List CapturedElement) := do
  let inputs ← names.mapM fun name => (s (.input name)).join
  let mk ← (s .mk).getD (some [])
  let rk ← (s .rk).getD (some [])
  let bp ← (s .bp).getD (some [])
  return inputs.flatten ++ (mk ++ (rk ++ bp))

section Gathering

variable {A : Archive} {J : JsonLibrary} {d : Dir} {prog : Str}

theorem load_entry_input (name : Str) :
    load_entry A d (input_entry prog name) = (shelf A prog d (.input name)).join := by
  have hbin : (input_entry prog name).textAt (str "bin_file") = some ((Item.input name).file prog (str ".bin")) := rfl
  have hids : (input_entry prog name).textAt (str "ids_file") = some ((Item.input name).file prog (str ".ids")) := rfl
  have hne : ∀ ext, DataExt ext → (Item.input name).file prog ext ≠ [] := by
    intro ext hext h
    have hlength := congrArg List.length h
    simp [Item.file, hext.length] at hlength
  rw [load_entry, hbin, Option.bind_eq_bind, Option.bind_some, hids, Option.bind_eq_bind, Option.bind_some,
    if_neg (not_or.mpr ⟨hne _ (.inr rfl), hne _ (.inl rfl)⟩), shelf]
  rcases d ((Item.input name).file prog (str ".bin")) with - | bin
  · rfl
  · rcases d ((Item.input name).file prog (str ".ids")) with - | ids
    · rfl
    · rfl

theorem load_with_eq (item : Item) : load_with A d prog item = (shelf A prog d item).getD (some []) := by
  rw [load_with, shelf]
  rcases d (item.file prog (str ".bin")) with - | bin
  · rfl
  · rcases d (item.file prog (str ".ids")) with - | ids
    · rfl
    · rfl

/-- Where the index of inputs says these names, the loads gather them. -/
theorem load_sources_eq {names : List Str} {about : List (Str × Json)} {data : Bytes} (hdata : d (inputsFile prog) = some data)
    (hparse : J.parse data = some (.object ((str "inputs", .arr (names.map (input_entry prog))) :: about))) :
    load_sources A J d prog = (shelf A prog d).gather names := by
  have hentries : (names.map (input_entry prog)).mapM (load_entry A d) =
      names.mapM fun name => (shelf A prog d (.input name)).join := by
    rw [List.mapM_map]
    exact congrArg (fun f => List.mapM f names) (funext load_entry_input)
  have hinputs : load_source_inputs A J d prog =
      (names.mapM fun name => (shelf A prog d (.input name)).join).map List.flatten := by
    rw [load_source_inputs, hdata]
    show (J.parse data).bind _ = _
    rw [hparse, ← hentries]
    rfl
  rw [load_sources, hinputs, load_source_keys, load_with_eq, load_with_eq, load_with_eq, Shelf.gather]
  simp only [Option.bind_eq_bind, Option.bind_map, Option.bind_assoc]
  rfl

end Gathering

/-! ## The last tags -/

theorem json_not_data : ¬ DataExt (str "json") := by
  rintro (h | h)
  · exact absurd h (by decide)
  · exact absurd h (by decide)

theorem inputsFile_eq (prog : Str) : inputsFile prog = (prog ++ str ".inputs.") ++ str "json" := by
  rw [inputsFile, List.append_assoc]
  rfl

theorem outputsFile_eq (prog : Str) : outputsFile prog = (prog ++ str ".outputs.") ++ str "json" := by
  rw [outputsFile, List.append_assoc]
  rfl

theorem replayFile_eq : str "fhetch_replay.json" = str "fhetch_replay." ++ str "json" := by decide

/-- The index files have names of their own. -/
theorem index_files_ne (prog : Str) : inputsFile prog ≠ outputsFile prog ∧
    inputsFile prog ≠ str "fhetch_replay.json" ∧ outputsFile prog ≠ str "fhetch_replay.json" := by
  have hreplay : str "fhetch_replay.json" = str "fhetch" ++ str "_replay.json" := by decide
  have hreplay' : str "fhetch_replay.json" = str "fhetc" ++ str "h_replay.json" := by decide
  refine ⟨fun h => ?_, fun h => ?_, fun h => ?_⟩
  · exact absurd (List.append_cancel_left h) (by decide)
  · exact absurd (List.append_inj_right' (h.trans hreplay) (by decide)) (by decide)
  · exact absurd (List.append_inj_right' (h.trans hreplay') (by decide)) (by decide)

namespace Capturer

variable {S : Project} {r : Capturer}

theorem write_replay_json_inputs : r.write_replay_json S (inputsFile S.prog) =
    some (S.json.dump (inputs_index S.about S.prog r.captured_inputs)) := by
  obtain ⟨houtputs, hreplay, -⟩ := index_files_ne S.prog
  simp [write_replay_json, Dir.put, Function.update_of_ne houtputs, Function.update_of_ne hreplay]

theorem shelf_write_replay_json :
    shelf S.archive S.prog (r.write_replay_json S) = shelf S.archive S.prog r.dir := by
  unfold write_replay_json
  rw [shelf_put _ fun item ext hext => replayFile_eq ▸ item.file_ne hext _ rfl json_not_data,
    shelf_put _ fun item ext hext => outputsFile_eq S.prog ▸ item.file_ne hext _ rfl json_not_data,
    shelf_put _ fun item ext hext => inputsFile_eq S.prog ▸ item.file_ne hext _ rfl json_not_data]

end Capturer

/-- **The worker is given the last tag of each item.** After any steps of a recording, the
loads of a worker give the captures that were the last ones for their items, those of the
inputs in the order in which their names were first captured, and what the directory had
before of items that were not tagged. -/
theorem worker_loads_last_tags (S : Project) (hA : S.archive.Documented) (hbytes : S.archive.Takes) (r : Capturer)
    (steps : List HostStep) (hfits : Along (Capturer.step S) (Capturer.Fits S) r steps)
    (hjson : S.json.parse (S.json.dump (inputs_index S.about S.prog (Runs.run (Capturer.step S) r steps).captured_inputs)) =
      some (inputs_index S.about S.prog (Runs.run (Capturer.step S) r steps).captured_inputs)) :
    load_sources S.archive S.json ((Runs.run (Capturer.step S) r steps).write_replay_json S) S.prog =
      ((shelf S.archive S.prog r.dir).after (r.captures S steps)).gather
        (indexed (Runs.run (Capturer.step S) r steps).captured_inputs) := by
  rw [load_sources_eq Capturer.write_replay_json_inputs hjson, Capturer.shelf_write_replay_json,
    Capturer.shelf_run hA hbytes steps r hfits]

/-! ## A project -/

/-- The index files of a project with one input and one output, as the library writes them. -/
def oneInputText : Bytes := str "\x7b\n  \"inputs\": [\n    \x7b\n      \"bin_file\": \"p.input_x.bin\",\n" ++
  str "      \"ids_file\": \"p.input_x.ids\",\n      \"instances_count\": 1,\n      \"name\": \"x\"\n" ++
  str "    \x7d\n  ]\n\x7d\n"

def oneOutputText : Bytes := str "\x7b\n  \"outputs\": [\n    \x7b\n      \"ciphertext_data\": [\n        \x7b\n" ++
  str "          \"elements\": [\n            2\n          ],\n          \"poly_index\": 0\n        \x7d\n      ],\n" ++
  str "      \"name\": \"y\",\n      \"payload_type\": \"ciphertext\"\n    \x7d\n  ]\n\x7d\n"

def oneReplayText : Bytes := str "\x7b\n  \"crypto_context\": \x7b\n    \"ring_dimension\": 1\n  \x7d,\n" ++
  str "  \"files\": \x7b\n    \"instructions\": \"p.fhetch\"\n  \x7d\n\x7d\n"

def oneInput : Json := inputs_index {} (str "p") [⟨str "x", .SRP, []⟩]

def oneOutput : Json := outputs_data {} [⟨str "y", .SRP, [(2, 17)]⟩]

def oneReplay : Json := replay_index {} 1 (str "p.fhetch")

/-- The library, on these. -/
def oneJson : JsonLibrary where
  dump j := if (j.member (str "inputs")).isSome then oneInputText
    else if (j.member (str "outputs")).isSome then oneOutputText else oneReplayText
  parse b := if b = oneInputText then some oneInput else if b = oneOutputText then some oneOutput
    else if b = oneReplayText then some oneReplay else none

theorem oneJson_inputs : oneJson.parse (oneJson.dump oneInput) = some oneInput := by
  have hmember : (oneInput.member (str "inputs")).isSome = true := by decide
  simp only [oneJson, hmember, if_true]

def oneProject : Project := ⟨str "p", referenceArchive, zeroFloatText, oneJson, id, {}⟩

def emptyCapturer : Capturer where
  probes := ({} : Probes).start
  captured_inputs := []
  captured_outputs := []
  input_streaming := false
  counter := 0
  ring_dimension := 1
  last_trace_path := []
  dir _ := none

/-- A tag of one residue. -/
def tagOne (id : ℕ) (value : ℕ) : HostStep := .tag_ciphertext (str "x") [⟨.Evaluation, [⟨id, 17, [value]⟩]⟩]

theorem fits_tagOne {r : Capturer} {id value : ℕ} (hvalue : value < 2 ^ 64)
    (haddr : ∀ a ∈ (r.captureOf (.ciphertext (str "x") [⟨.Evaluation, [⟨id, 17, [value]⟩]⟩])).addr_ids, a < 2 ^ 64) :
    r.Fits oneProject (tagOne id value) := by
  have hone : ∀ n, n ≠ 0 → 1 < 2 ^ n := fun n => Nat.one_lt_two_pow
  have hmodulus : 17 < 2 ^ 64 := by decide
  have htower : TowerFits (17, [value]) := ⟨hmodulus, hone 64 (by decide), List.forall_mem_singleton.mpr hvalue⟩
  have hdcrt : DcrtPoly.Fits ⟨.Evaluation, [(17, [value])]⟩ :=
    ⟨hone 64 (by decide), List.forall_mem_singleton.mpr htower⟩
  have hgroup : GroupFits [⟨.Evaluation, [(17, [value])]⟩] :=
    ⟨hone 32 (by decide), List.forall_mem_singleton.mpr hdcrt⟩
  exact ⟨⟨⟨hone 32 (by decide), List.forall_mem_singleton.mpr hgroup⟩, hone 60 (by decide), haddr⟩, trivial⟩

/-- An input that is tagged again. -/
theorem worker_loads_last_tags_again :
    load_sources referenceArchive oneJson ((Runs.run (Capturer.step oneProject) emptyCapturer
      [tagOne 7 3, tagOne 9 4]).write_replay_json oneProject) (str "p") = some [⟨2, [4], 17⟩] := by
  refine (worker_loads_last_tags oneProject referenceArchive_documented referenceArchive_takes emptyCapturer
    [tagOne 7 3, tagOne 9 4] ⟨fits_tagOne (by decide) (by decide), fits_tagOne (by decide) (by decide), trivial⟩
    ?_).trans (by decide +kernel)
  have hnames : indexed (Runs.run (Capturer.step oneProject) emptyCapturer [tagOne 7 3, tagOne 9 4]).captured_inputs =
      [str "x"] := by decide +kernel
  rw [inputs_index, hnames]
  exact oneJson_inputs

end Fhetch
