/-
The directory of a recorded project: the tags of `src/auto_facade.cpp`, which put its data
files there, and `Compiler::stop` with `write_replay_json` (`src/compiler.cpp`), which put
the trace and the index files beside them.

A tag pins the polynomials it is handed, finds addresses for them, stores them under its
name for a replay in this process, and puts an `.ids` and a `.bin` of its own in the
directory. What is stored under a name grows with every tag of that name, and the files
are those of the last one. `Shelf` is what the loaders make of the files, item by item. A
tag is one update of it, and nothing else in a recording touches it.

Left out are polynomials without an id, plaintexts that are null, and the fields of index
files that no replay here reads (`Particulars`). Writes succeed, as in
`Fhetch.TraceDirectory`.
-/
import Fhetch.Probes
import Fhetch.ProjectFiles
import Fhetch.Sessions
import Fhetch.TraceDirectory
import Fhetch.Lib.Runs

set_option autoImplicit false

namespace Fhetch

open Lib Runs

/-! ## The library's polynomials -/

/-- A residue polynomial, with the id that the probes know it by. -/
structure NativePoly where
  id : ℕ
  modulus : ℕ
  values : Poly

/-- The residue as a file holds it. -/
def NativePoly.tower (p : NativePoly) : ℕ × Poly := (p.modulus, p.values)

structure HostPoly where
  format : Format
  towers : List NativePoly

def HostPoly.stored (d : HostPoly) : DcrtPoly := ⟨d.format, d.towers.map NativePoly.tower⟩

/-- A key: its A vector, and its B vector. -/
abbrev HostKey := List HostPoly × List HostPoly

def towersOf (l : List HostPoly) : List NativePoly := l.flatMap HostPoly.towers

theorem towersOf_tower (l : List HostPoly) :
    (towersOf l).map NativePoly.tower = (l.map HostPoly.stored).flatMap DcrtPoly.towers := by
  rw [towersOf, List.map_flatMap, List.flatMap_map]
  rfl

/-- The polynomials of a bootstrap's tables, in the order of the file. -/
def BootTables.polys {α : Type} (e : BootTables α) : List α :=
  e.m_U0hatTPreFFT.flatten ++ e.m_U0PreFFT.flatten ++ e.m_U0Pre ++ e.m_U0hatTPre

def BootTables.map {α β : Type} (f : α → β) (e : BootTables α) : BootTables β where
  m_slots := e.m_slots
  m_dim1 := e.m_dim1
  params_enc := e.params_enc
  params_dec := e.params_dec
  m_U0hatTPreFFT := e.m_U0hatTPreFFT.map (List.map f)
  m_U0PreFFT := e.m_U0PreFFT.map (List.map f)
  m_U0Pre := e.m_U0Pre.map f
  m_U0hatTPre := e.m_U0hatTPre.map f

theorem BootTables.map_towers (e : BootTables HostPoly) :
    (towersOf e.polys).map NativePoly.tower = BootPrecompute.towers (e.map HostPoly.stored) := by
  have hgroup : ∀ l : List HostPoly, (towersOf l).map NativePoly.tower =
      (l.map HostPoly.stored).flatMap DcrtPoly.towers := towersOf_tower
  have htable : ∀ l : List (List HostPoly), (towersOf l.flatten).map NativePoly.tower =
      (l.map (List.map HostPoly.stored)).flatMap (·.flatMap DcrtPoly.towers) := by
    intro l
    rw [hgroup]
    simp [List.flatMap_def, Function.comp_def, List.flatten_flatten]
  rw [polys, towersOf, List.flatMap_append, List.flatMap_append, List.flatMap_append, List.map_append,
    List.map_append, List.map_append]
  show (towersOf _).map _ ++ (towersOf _).map _ ++ (towersOf _).map _ ++ (towersOf _).map _ = _
  rw [htable, htable, hgroup, hgroup, List.append_assoc, List.append_assoc]
  rfl

/-! ## Items and tags -/

/-- What a project can have data files of. -/
inductive Item where
  | input (name : Str)
  | mk
  | rk
  | bp
  deriving DecidableEq

/-- What the files of an item are called, between the program and the extension. -/
def Item.base : Item → Str
  | input name => str "input_" ++ name
  | mk => str "mk"
  | rk => str "rk"
  | bp => str "bp"

def Item.file (prog : Str) (item : Item) (ext : Str) : Str := prog ++ (str "." ++ (item.base ++ ext))

/-- What it is captured under. -/
def Item.name : Item → Str
  | input name => name
  | mk => str "evalmult_key"
  | rk => str "automorphism_key"
  | bp => str "bootstrap_precompute"

/-- The loader of an item's files. -/
def Item.load : Item → Archive → Bytes → List ℕ → Option (List CapturedElement)
  | input _ => load_input_bin
  | mk | rk => load_key_bin
  | bp => load_bp_bin

/-- A tag: what is captured for an item, and the file, which has the same residues in the
layout that the loader of the item expects. -/
structure Tag where
  item : Item
  polys : List NativePoly
  file : ProjectFile
  holds : file.towers = polys.map NativePoly.tower
  layout : ∀ A, item.load A = file.load A

namespace Tag

/-- `tag_input` of a ciphertext, with `write_ciphertext_input_files`. -/
def ciphertext (input_name : Str) (elements : List HostPoly) : Tag where
  item := .input input_name
  polys := towersOf elements
  file := .input [.ciphertext (elements.map HostPoly.stored)]
  holds := by simp [ProjectFile.towers, Payload.towers, towersOf_tower]
  layout _ := rfl

/-- `tag_input` of a plaintext, with `write_plaintext_input_files`. -/
def plaintext (input_name : Str) (el : HostPoly) : Tag where
  item := .input input_name
  polys := el.towers
  file := .input [.plaintext el.stored]
  holds := by simp [ProjectFile.towers, Payload.towers, HostPoly.stored]
  layout _ := rfl

/-- `save_dcrt_poly_as_input`. -/
def dcrtpoly (counter : UInt64) (dcrt : HostPoly) : Tag where
  item := .input (str "dcrtpoly_" ++ decimal counter.toNat)
  polys := dcrt.towers
  file := .input [.dcrtpoly_proxy dcrt.format (dcrt.towers.map NativePoly.tower)]
  holds := by simp [ProjectFile.towers, Payload.towers]
  layout _ := rfl

/-- One half of `tag_keys`, with `serialize_eval_keys`. -/
def keys (item : Item) (hitem : item.load = load_key_bin) (all : List HostKey) : Tag where
  item := item
  polys := all.flatMap fun key => towersOf key.1 ++ towersOf key.2
  file := .keys (all.map fun key => (key.1.map HostPoly.stored, key.2.map HostPoly.stored))
  holds := by
    simp only [ProjectFile.towers, keyTowers, List.flatMap_map, List.map_flatMap, List.map_append,
      towersOf_tower]
  layout A := congrFun hitem A

/-- `tag_bootstrap_precompute`. -/
def bootstrap (bootMap : List (Option (BootTables HostPoly))) : Tag where
  item := .bp
  polys := (bootMap.filterMap id).flatMap fun e => towersOf e.polys
  file := .bootstrap (bootMap.map (Option.map (BootTables.map HostPoly.stored)))
  holds := by
    have hfilter : (bootMap.map (Option.map (BootTables.map HostPoly.stored))).filterMap id =
        (bootMap.filterMap id).map (BootTables.map HostPoly.stored) := by
      rw [List.filterMap_map, List.map_filterMap]
      rfl
    rw [ProjectFile.towers, hfilter, List.flatMap_map, List.map_flatMap]
    exact List.flatMap_congr fun e _ => (e.map_towers).symm
  layout _ := rfl

end Tag

/-! ## Index files -/

/-- A JSON value. An object is what it has under each key. -/
inductive Json where
  | num (n : ℕ)
  | text (s : Str)
  | arr (l : List Json)
  | obj (fields : Str → Option Json)

def Json.object (fields : List (Str × Json)) : Json :=
  .obj fun key => (fields.find? (·.1 = key)).map Prod.snd

/-- The library for it. -/
structure JsonLibrary where
  dump : Json → Bytes
  parse : Bytes → Option Json

/-- What the index files say besides, for other readers. -/
structure Particulars where
  inputs : List (Str × Json) := []
  outputs : List (Str × Json) := []
  crypto_context : List (Str × Json) := []
  files : List (Str × Json) := []
  replay : List (Str × Json) := []

/-- The names that have files of their own, and no entry among the inputs. -/
def keyNames : List Str := [Item.mk.name, Item.rk.name, Item.bp.name]

/-- The names in the index of inputs. -/
def indexed (captured_inputs : List (CapturedRecord CapturedElement)) : List Str :=
  (captured_inputs.map CapturedRecord.name).filter fun name => !keyNames.contains name

theorem indexed_eq_filter (captured_inputs : List (CapturedRecord CapturedElement)) :
    indexed captured_inputs = (captured_inputs.map CapturedRecord.name).filter (· ∉ keyNames) := by
  simp [indexed]

def input_entry (prog name : Str) : Json := .object [
  (str "name", .text name),
  (str "ids_file", .text ((Item.input name).file prog (str ".ids"))),
  (str "bin_file", .text ((Item.input name).file prog (str ".bin"))),
  (str "instances_count", .num 1)]

def inputs_index (about : Particulars) (prog : Str)
    (captured_inputs : List (CapturedRecord CapturedElement)) : Json :=
  .object ((str "inputs", .arr ((indexed captured_inputs).map (input_entry prog))) :: about.inputs)

/-- An output, each of its polynomials with the one address of it. -/
def output_entry (output : CapturedRecord (ℕ × ℕ)) : Json := .object [
  (str "name", .text output.name),
  (str "payload_type", .text (str "ciphertext")),
  (str "ciphertext_data", .arr (output.elements.mapIdx fun j e =>
    .object [(str "poly_index", .num j), (str "elements", .arr [.num e.1])]))]

def outputs_data (about : Particulars) (captured_outputs : List (CapturedRecord (ℕ × ℕ))) : Json :=
  .object ((str "outputs", .arr (captured_outputs.map output_entry)) :: about.outputs)

def replay_index (about : Particulars) (ring_dimension : ℕ) (instructions : Str) : Json :=
  .object ((str "crypto_context", .object ((str "ring_dimension", .num ring_dimension) :: about.crypto_context)) ::
    (str "files", .object ((str "instructions", .text instructions) :: about.files)) :: about.replay)

def inputsFile (prog : Str) : Str := prog ++ str ".inputs.json"

def outputsFile (prog : Str) : Str := prog ++ str ".outputs.json"

/-! ## The recorder -/

/-- The process that records, and the directory. -/
structure Capturer where
  probes : Probes
  captured_inputs : List (CapturedRecord CapturedElement)
  captured_outputs : List (CapturedRecord (ℕ × ℕ))
  input_streaming : Bool
  /-- `counter` of `save_dcrt_poly_as_input`. -/
  counter : UInt64
  ring_dimension : ℕ
  last_trace_path : Str
  dir : Dir

/-- What is kept of a residue: with streaming not its values. -/
def kept (input_streaming : Bool) (e : CapturedElement) : CapturedElement :=
  if input_streaming then { e with values := [] } else e

/-- What a host program does with the recorder between `start` and `stop`, and the parts
of `stop`. Of the probes `stop` itself is no call. -/
inductive HostStep where
  | tag_ciphertext (input_name : Str) (elements : List HostPoly)
  | tag_plaintext (input_name : Str) (el : HostPoly)
  | save_dcrt_poly_as_input (dcrt : HostPoly)
  | tag_keys (mult automorphism : List HostKey)
  | tag_bootstrap_precompute (bootMap : List (Option (BootTables HostPoly)))
  | probe (var_name : Str) (elements : List HostPoly)
  | call (c : ProbeCall) (h : c ≠ .stop)
  | write_trace (now : UInt64)

/-- What a recording goes by: its program's full name, the archive, the text of numbers,
the JSON library, `SetFormat(EVALUATION)`, and what else the index files say. -/
structure Project where
  prog : Str
  archive : Archive
  floats : FloatText
  json : JsonLibrary
  setEvaluation : HostPoly → HostPoly
  about : Particulars := {}

variable (S : Project)

/-- A polynomial of a key, in the form that keys are captured in. -/
def Project.evaluated (d : HostPoly) : HostPoly := if d.format = .Evaluation then d else S.setEvaluation d

/-- The tags of a step. Without keys, or without tables, there is none. -/
def HostStep.tags (counter : UInt64) : HostStep → List Tag
  | tag_ciphertext input_name elements => [.ciphertext input_name elements]
  | tag_plaintext input_name el => [.plaintext input_name el]
  | save_dcrt_poly_as_input dcrt => [.dcrtpoly counter dcrt]
  | tag_keys mult automorphism =>
    let captured (keys : List HostKey) := keys.map fun key => (key.1.map S.evaluated, key.2.map S.evaluated)
    (if mult.isEmpty then [] else [.keys .mk rfl (captured mult)]) ++
      if automorphism.isEmpty then [] else [.keys .rk rfl (captured automorphism)]
  | tag_bootstrap_precompute bootMap => if bootMap.isEmpty then [] else [.bootstrap bootMap]
  | probe _ _ | call _ _ | write_trace _ => []

namespace Capturer

/-- One residue: it is pinned, and stored at its address. -/
def capture_poly (name : Str) (r : Capturer) (p : NativePoly) : ℕ × Capturer :=
  let (addr, probes) := (r.probes.pin_openfhe_id p.id).map_address p.id
  (addr, { r with
    probes := probes
    captured_inputs := store_input_element name .SRP r.captured_inputs
      (kept r.input_streaming ⟨addr, p.values, p.modulus⟩) })

/-- The loop of every tag over its residues. -/
def capture (name : Str) : Capturer → List NativePoly → List ℕ × Capturer
  | r, [] => ([], r)
  | r, p :: polys =>
    let (addr, r) := r.capture_poly name p
    let (addr_ids, r) := capture name r polys
    (addr :: addr_ids, r)

def tag (r : Capturer) (t : Tag) : Capturer :=
  let (addr_ids, r) := r.capture t.item.name t.polys
  let d := r.dir.put (t.item.file S.prog (str ".ids")) (write_addr_ids addr_ids)
  { r with dir := d.put (t.item.file S.prog (str ".bin")) (t.file.bytes S.archive) }

/-- A residue of a probed ciphertext, if it has an address. -/
def probe_poly (var_name : Str) (r : Capturer) (p : NativePoly) : Capturer :=
  match r.probes.address_map p.id with
  | none => r
  | some addr => { r with
      captured_outputs := store_output_probe var_name .SRP r.captured_outputs (addr, p.modulus) }

/-- The first part of `stop`: the trace. Its path is that of the text, if there is one. -/
def write_trace (now : UInt64) (r : Capturer) : Capturer :=
  if r.probes.running then
    let tw := (r.probes.writer.emit (ir .FH_HALT 0 0)).stop_recording
    let path := S.prog ++ str ".fhetch"
    { r with
      probes := r.probes.stop
      last_trace_path := if tw.format_ = .Binary then replace_extension path (str ".fhex") else path
      dir := tw.write S.floats S.prog now r.dir }
  else r

/-- What a step does besides its tags. -/
def afterTags (r : Capturer) : HostStep → Capturer
  | .save_dcrt_poly_as_input _ => { r with counter := r.counter + 1 }
  | .probe var_name elements => (towersOf elements).foldl (probe_poly var_name) r
  | .call c _ => { r with probes := r.probes.step c }
  | .write_trace now => r.write_trace S now
  | _ => r

def step (r : Capturer) (s : HostStep) : Capturer := ((s.tags S r.counter).foldl (tag S) r).afterTags S s

/-- The last part of `stop`. -/
def write_replay_json (r : Capturer) : Dir :=
  let dump := S.json.dump
  let d := r.dir.put (inputsFile S.prog) (dump (inputs_index S.about S.prog r.captured_inputs))
  let d := d.put (outputsFile S.prog) (dump (outputs_data S.about r.captured_outputs))
  d.put (str "fhetch_replay.json")
    (dump (replay_index S.about r.ring_dimension (filename r.last_trace_path)))

/-- `Compiler::stop`, with the hook that tags the tables of a bootstrap, if it is set. -/
def stop (now : UInt64) (auto_capture : Option (List (Option (BootTables HostPoly)))) (r : Capturer) : Capturer :=
  if r.probes.running then
    let r := Runs.run (step S) r
      (.write_trace now :: (auto_capture.map HostStep.tag_bootstrap_precompute).toList)
    { r with dir := r.write_replay_json S }
  else r

end Capturer

/-! ## The shelf -/

/-- What the loaders make of each item: `none` where a file of it is missing, and
`some none` where its files are refused. -/
abbrev Shelf := Item → Option (Option (List CapturedElement))

def shelf (A : Archive) (prog : Str) (d : Dir) : Shelf := fun item =>
  match d (item.file prog (str ".bin")), d (item.file prog (str ".ids")) with
  | some bin, some ids => some ((read_ids ids).bind (item.load A bin))
  | _, _ => none

/-- The extensions of data files. -/
def DataExt (ext : Str) : Prop := ext = str ".ids" ∨ ext = str ".bin"

theorem DataExt.length {ext : Str} (h : DataExt ext) : ext.length = 4 := by
  rcases h with rfl | rfl
  · rfl
  · rfl

theorem Item.base_injective {item item' : Item} (h : item.base = item'.base) : item = item' := by
  have hinput : ∀ name, (str "input_" ++ name).head? = some 105 := fun name => rfl
  cases item with
  | input name =>
    cases item' with
    | input name' => rw [List.append_cancel_left h]
    | mk => exact absurd (congrArg List.head? h) (by rw [base, hinput]; decide)
    | rk => exact absurd (congrArg List.head? h) (by rw [base, hinput]; decide)
    | bp => exact absurd (congrArg List.head? h) (by rw [base, hinput]; decide)
  | mk =>
    cases item' with
    | input name' => exact absurd (congrArg List.head? h) (by rw [base, base, hinput]; decide)
    | mk => rfl
    | rk => exact absurd h (by decide)
    | bp => exact absurd h (by decide)
  | rk =>
    cases item' with
    | input name' => exact absurd (congrArg List.head? h) (by rw [base, base, hinput]; decide)
    | mk => exact absurd h (by decide)
    | rk => rfl
    | bp => exact absurd h (by decide)
  | bp =>
    cases item' with
    | input name' => exact absurd (congrArg List.head? h) (by rw [base, base, hinput]; decide)
    | mk => exact absurd h (by decide)
    | rk => exact absurd h (by decide)
    | bp => rfl

/-- **Every data file is one item's.** -/
theorem Item.file_inj {prog ext ext' : Str} {item item' : Item} (hext : DataExt ext) (hext' : DataExt ext')
    (h : item.file prog ext = item'.file prog ext') : item = item' ∧ ext = ext' := by
  have hbase := List.append_cancel_left (List.append_cancel_left h)
  have hlength : ext.length = ext'.length := hext.length.trans hext'.length.symm
  exact ⟨base_injective (List.append_inj_left' hbase hlength), List.append_inj_right' hbase hlength⟩

/-- Files with other extensions are no item's. -/
theorem Item.file_ne {prog ext : Str} (item : Item) (hext : DataExt ext) (s : Str) {t : Str} (hlength : t.length = 4)
    (ht : ¬ DataExt t) : item.file prog ext ≠ s ++ t := by
  intro h
  have hfile : item.file prog ext = (prog ++ (str "." ++ item.base)) ++ ext := by
    simp [Item.file, List.append_assoc]
  rw [hfile] at h
  exact ht (List.append_inj_right' h (hext.length.trans hlength.symm) ▸ hext)

section Shelves

variable {A : Archive} {prog : Str} {d d' : Dir}

theorem shelf_congr (h : ∀ (item : Item) ext, DataExt ext → d' (item.file prog ext) = d (item.file prog ext)) :
    shelf A prog d' = shelf A prog d := by
  funext item
  rw [shelf, h item _ (.inl rfl), h item _ (.inr rfl)]
  rfl

theorem shelf_put {name : Str} (data : Bytes) (h : ∀ (item : Item) ext, DataExt ext → item.file prog ext ≠ name) :
    shelf A prog (d.put name data) = shelf A prog d :=
  shelf_congr fun item ext hext => Function.update_of_ne (h item ext hext) _ _

/-- The two files of an item, put there. -/
theorem shelf_put_files (item : Item) (ids bin : Bytes) :
    shelf A prog ((d.put (item.file prog (str ".ids")) ids).put (item.file prog (str ".bin")) bin) =
      Function.update (shelf A prog d) item (some ((read_ids ids).bind (item.load A bin))) := by
  have hext : str ".ids" ≠ str ".bin" := by decide
  have hne : item.file prog (str ".ids") ≠ item.file prog (str ".bin") := fun h =>
    hext (Item.file_inj (.inl rfl) (.inr rfl) h).2
  funext item'
  by_cases hitem : item' = item
  · subst hitem
    rw [Function.update_self, shelf, Dir.put, Dir.put, Function.update_self, Function.update_of_ne hne,
      Function.update_self]
  · have hother : ∀ ext ext', DataExt ext → DataExt ext' → item'.file prog ext ≠ item.file prog ext' :=
      fun ext ext' hext hext' h => hitem (Item.file_inj hext hext' h).1
    rw [Function.update_of_ne hitem, shelf, Dir.put, Dir.put,
      Function.update_of_ne (hother _ _ (.inr rfl) (.inr rfl)), Function.update_of_ne (hother _ _ (.inr rfl) (.inl rfl)),
      Function.update_of_ne (hother _ _ (.inl rfl) (.inr rfl)), Function.update_of_ne (hother _ _ (.inl rfl) (.inl rfl))]
    rfl

/-- Writing a trace touches its own two files. -/
theorem TraceWriter.write_other {F : FloatText} {tw : TraceWriter} {now : UInt64} {name : Str}
    (htext : name ≠ prog ++ str ".fhetch") (hbinary : name ≠ replace_extension (prog ++ str ".fhetch") (str ".fhex")) :
    tw.write F prog now d name = d name := by
  obtain ⟨bytes, hbytes⟩ := write_fhetch_binary_isSome (tw.normalize_modulus_table.program now)
  unfold TraceWriter.write
  simp only [hbytes]
  cases tw.format_ with
  | Text => simp [Dir.put, Function.update_of_ne htext]
  | Binary => simp [Dir.put, Dir.remove, Function.update_of_ne htext, Function.update_of_ne hbinary]
  | Both => simp [Dir.put, Function.update_of_ne htext, Function.update_of_ne hbinary]

theorem shelf_write {F : FloatText} {tw : TraceWriter} {now : UInt64} :
    shelf A prog (tw.write F prog now d) = shelf A prog d := by
  have hfhex : ¬ DataExt (str "fhex") := by
    rintro (h | h)
    · exact absurd h (by decide)
    · exact absurd h (by decide)
  have hetch : ¬ DataExt (str "etch") := by
    rintro (h | h)
    · exact absurd h (by decide)
    · exact absurd h (by decide)
  refine shelf_congr fun item ext hext => TraceWriter.write_other ?_ ?_
  · have hpath : prog ++ str ".fhetch" = (prog ++ str ".fh") ++ str "etch" := by
      rw [List.append_assoc]
      rfl
    rw [hpath]
    exact item.file_ne hext _ rfl hetch
  · rw [replace_extension_fhetch]
    split
    · have hpath : prog ++ str ".fhetch.fhex" = (prog ++ str ".fhetch.") ++ str "fhex" := by
        rw [List.append_assoc]
        rfl
      rw [hpath]
      exact item.file_ne hext _ rfl hfhex
    · have hpath : prog ++ str ".fhex" = (prog ++ str ".") ++ str "fhex" := by
        rw [List.append_assoc]
        rfl
      rw [hpath]
      exact item.file_ne hext _ rfl hfhex

end Shelves

/-! ## What a recording delivers -/

/-- A tag that was made, with the addresses for it. -/
structure Capture where
  tag : Tag
  addr_ids : List ℕ

namespace Capture

/-- What is captured. -/
def elements (c : Capture) : List CapturedElement := addressed c.addr_ids (c.tag.polys.map NativePoly.tower)

/-- What the loaders will make of it. -/
def given (c : Capture) : Option (List CapturedElement) := if c.tag.file.Counted then some c.elements else none

end Capture

/-- The last of the captures for an item. -/
def latest (l : List Capture) (item : Item) : Option Capture := l.reverse.find? (·.tag.item = item)

/-- A shelf with the files of captures put in their places. -/
def Shelf.after (s : Shelf) (l : List Capture) : Shelf := fun item => ((latest l item).map Capture.given).or (s item)

theorem latest_append (l l' : List Capture) (item : Item) :
    latest (l ++ l') item = (latest l' item).or (latest l item) := by
  rw [latest, List.reverse_append, List.find?_append]
  rfl

namespace Shelf

theorem after_append (s : Shelf) (l l' : List Capture) : s.after (l ++ l') = (s.after l).after l' := by
  funext item
  rw [after, latest_append, Option.map_or, Option.or_assoc]
  rfl

theorem after_singleton (s : Shelf) (c : Capture) : s.after [c] = Function.update s c.tag.item (some c.given) := by
  funext item
  rw [after, latest, List.reverse_singleton, List.find?_singleton]
  by_cases h : item = c.tag.item
  · rw [h, Function.update_self]
    simp
  · rw [Function.update_of_ne h]
    simp [Ne.symm h]

end Shelf

namespace Capturer

/-- A tag, with the addresses that it finds. -/
def captureOf (r : Capturer) (t : Tag) : Capture := ⟨t, (r.capture t.item.name t.polys).1⟩

/-- The captures of tags in a row. -/
def capturesOf (r : Capturer) : List Tag → List Capture
  | [] => []
  | t :: tags => r.captureOf t :: (r.tag S t).capturesOf tags

/-- The captures of a run. -/
def captures (r : Capturer) : List HostStep → List Capture
  | [] => []
  | s :: steps => r.capturesOf S (s.tags S r.counter) ++ (r.step S s).captures steps

/-- The files of a tag can be read: 64 bits hold what is in them, and 32 bits their sizes. -/
structure TagFits (r : Capturer) (t : Tag) : Prop where
  file : t.file.Fits
  length : t.polys.length < 2 ^ 60
  addresses : ∀ a ∈ (r.captureOf t).addr_ids, a < 2 ^ 64

/-- And so can those of every tag of a step. -/
def Fits (r : Capturer) (s : HostStep) : Prop := Along (tag S) TagFits r (s.tags S r.counter)

variable {S} {r : Capturer}

/-- Capturing finds an address for each residue, and stores each with it. -/
theorem capture_spec (name : Str) (polys : List NativePoly) : ∀ r : Capturer,
    (r.capture name polys).1.length = polys.length ∧ ∃ probes,
      (r.capture name polys).2 = { r with
        probes := probes
        captured_inputs := ((addressed (r.capture name polys).1 (polys.map NativePoly.tower)).map
          (kept r.input_streaming)).foldl (store_input_element name .SRP) r.captured_inputs } := by
  induction polys with
  | nil => exact fun r => ⟨rfl, r.probes, rfl⟩
  | cons p polys ih =>
    intro r
    obtain ⟨hlength, probes, hrest⟩ := ih (r.capture_poly name p).2
    refine ⟨congrArg Nat.succ hlength, probes, ?_⟩
    show (capture name (r.capture_poly name p).2 polys).2 = _
    rw [hrest]
    rfl

/-- **One tag** is one update of the shelf. -/
theorem shelf_tag (hA : S.archive.Documented) (hbytes : S.archive.Takes) {t : Tag} (hfits : TagFits r t) :
    shelf S.archive S.prog (r.tag S t).dir = (shelf S.archive S.prog r.dir).after [r.captureOf t] := by
  obtain ⟨hlength, probes, hcapture⟩ := r.capture_spec t.item.name t.polys
  have hdir : (r.capture t.item.name t.polys).2.dir = r.dir := by rw [hcapture]
  have hids : read_ids (write_addr_ids (r.capture t.item.name t.polys).1) = some (r.captureOf t).addr_ids :=
    read_ids_write (hlength.trans_lt hfits.length) hfits.addresses
  have henough : t.file.towers.length ≤ (r.captureOf t).addr_ids.length := by
    rw [t.holds, List.length_map]
    exact hlength.ge
  rw [Shelf.after_singleton]
  show shelf _ _ (((r.capture t.item.name t.polys).2.dir.put _ _).put _ _) = _
  rw [hdir, shelf_put_files, hids, Option.bind_some, t.layout, ProjectFile.load_bytes hA hbytes hfits.file henough,
    t.holds]
  rfl

theorem shelf_tags (hA : S.archive.Documented) (hbytes : S.archive.Takes) (tags : List Tag) :
    ∀ r : Capturer, Along (tag S) TagFits r tags →
      shelf S.archive S.prog (tags.foldl (tag S) r).dir =
        (shelf S.archive S.prog r.dir).after (r.capturesOf S tags) := by
  induction tags with
  | nil => exact fun r _ => rfl
  | cons t tags ih =>
    intro r h
    obtain ⟨hfits, hrest⟩ := h
    rw [List.foldl_cons, ih _ hrest, shelf_tag hA hbytes hfits, ← Shelf.after_append]
    rfl

theorem probe_polys_frame (var_name : Str) (polys : List NativePoly) : ∀ r : Capturer, ∃ captured_outputs,
    polys.foldl (probe_poly var_name) r = { r with captured_outputs := captured_outputs } := by
  induction polys with
  | nil => exact fun r => ⟨r.captured_outputs, rfl⟩
  | cons p polys ih =>
    intro r
    obtain ⟨captured_outputs, h⟩ := ih (r.probe_poly var_name p)
    refine ⟨captured_outputs, ?_⟩
    rw [List.foldl_cons, h, probe_poly]
    split
    · rfl
    · rfl

/-- Nothing but tags touches the shelf. -/
theorem shelf_afterTags (s : HostStep) :
    shelf S.archive S.prog (r.afterTags S s).dir = shelf S.archive S.prog r.dir := by
  cases s with
  | probe var_name elements =>
    obtain ⟨captured_outputs, h⟩ := probe_polys_frame var_name (towersOf elements) r
    show shelf _ _ ((towersOf elements).foldl (probe_poly var_name) r).dir = _
    rw [h]
  | write_trace now =>
    show shelf _ _ (r.write_trace S now).dir = _
    rw [write_trace]
    split
    · exact shelf_write
    · rfl
  | _ => rfl

theorem shelf_step (hA : S.archive.Documented) (hbytes : S.archive.Takes) {s : HostStep} (hfits : r.Fits S s) :
    shelf S.archive S.prog (r.step S s).dir =
      (shelf S.archive S.prog r.dir).after (r.capturesOf S (s.tags S r.counter)) := by
  rw [step, shelf_afterTags, shelf_tags hA hbytes _ _ hfits]

/-- **A run** leaves on the shelf the last capture for each item. -/
theorem shelf_run (hA : S.archive.Documented) (hbytes : S.archive.Takes) (steps : List HostStep) :
    ∀ r : Capturer, Along (step S) (Fits S) r steps →
      shelf S.archive S.prog (Runs.run (step S) r steps).dir =
        (shelf S.archive S.prog r.dir).after (r.captures S steps) := by
  induction steps with
  | nil => exact fun r _ => rfl
  | cons s steps ih =>
    intro r h
    obtain ⟨hfits, hrest⟩ := h
    rw [captures, Shelf.after_append, ← shelf_step hA hbytes hfits]
    exact ih _ hrest

end Capturer

end Fhetch
