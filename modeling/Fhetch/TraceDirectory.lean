/-
The program directory: what a recording leaves there (`TraceWriter::write`), and
what a replay picks up again (`existing_trace_path` in `src/compiler.cpp`).

Either side knows two names for a trace. The writer puts the text under one, the
binary under the other, and for each format touches the files of that format. The
lookup prefers the binary. A recording written as text alone leaves an older
binary where it is, and that is the one a replay finds.

Only writes that succeed are modelled. A name is a path relative to the directory.
-/
import Fhetch.RecordedSession

set_option autoImplicit false

namespace Fhetch

open Lib Runs

/-! ## File names -/

/-- `stem()` of a file name: up to its last period, unless that is where the name
starts. -/
def stem (name : Str) : Str :=
  if name = str "." ∨ name = str ".." then name
  else match rfind (str ".") name with
    | none => name
    | some (before, _) => if before.isEmpty then name else before

/-- `replace_extension`, with an extension that has its period. -/
def replace_extension (path ext : Str) : Str :=
  match rfind (str "/") path with
  | none => stem path ++ ext
  | some (parent, name) => parent ++ str "/" ++ stem name ++ ext

/-- `filename()`. -/
def filename (path : Str) : Str :=
  match rfind (str "/") path with
  | none => path
  | some (_, name) => name

theorem rfind_eq_none {c : UInt8} {t : Str} (ht : c ∉ t) : rfind [c] t = none := by
  induction t with
  | nil => rfl
  | cons d t ih =>
    obtain ⟨hd, ht'⟩ := not_or.mp (mt List.mem_cons.mpr ht)
    rw [rfind, ih ht']
    simp [List.isPrefixOf, hd]

/-- The last occurrence of a character that a suffix does not have. -/
theorem rfind_append {c : UInt8} {t : Str} (ht : c ∉ t) (s : Str) :
    rfind [c] (s ++ t) = (rfind [c] s).map fun (before, after) => (before, after ++ t) := by
  induction s with
  | nil => exact rfind_eq_none ht
  | cons d s ih =>
    rw [List.cons_append, rfind, rfind, ih]
    cases rfind [c] s with
    | some cut => rfl
    | none => by_cases hcd : c = d <;> simp [List.isPrefixOf, hcd]

/-- The last period of a name with `.fhetch` behind it. -/
theorem rfind_fhetch (s : Str) : rfind (str ".") (s ++ str ".fhetch") = some (s, str "fhetch") := by
  induction s with
  | nil => decide
  | cons c s ih => rw [List.cons_append, rfind, ih]

/-- **The binary name.** It is the program's name with `.fhex`, unless there is no
name in front of the extension to replace. -/
theorem replace_extension_fhetch (program : Str) :
    replace_extension (program ++ str ".fhetch") (str ".fhex") =
      if filename program = [] then program ++ str ".fhetch.fhex" else program ++ str ".fhex" := by
  -- the extension is the last dot of the file name, and the name may be empty
  have hstem : ∀ name : Str, stem (name ++ str ".fhetch") =
      if name = [] then str ".fhetch" else name := by
    intro name
    have hlen : ∀ t : Str, t.length < 3 → name ++ str ".fhetch" ≠ t := by
      intro t ht heq
      rw [← heq, List.length_append] at ht
      have h7 : (str ".fhetch").length = 7 := by decide
      omega
    rw [stem, if_neg (not_or.mpr ⟨hlen _ (by decide), hlen _ (by decide)⟩), rfind_fhetch]
    cases name <;> rfl
  have hslash : rfind (str "/") (program ++ str ".fhetch") =
      (rfind (str "/") program).map fun (before, after) => (before, after ++ str ".fhetch") :=
    rfind_append (by decide) program
  rw [replace_extension, filename, hslash]
  rcases hcut : rfind (str "/") program with - | ⟨parent, name⟩
  · dsimp only [Option.map_none]
    rw [hstem]
    split
    · rename_i hnil
      rw [hnil]
      rfl
    · rfl
  · have hprogram := rfind_eq_some hcut
    dsimp only [Option.map_some]
    rw [hstem, hprogram]
    split
    · rename_i hnil
      rw [hnil]
      simp [str]
    · simp [List.append_assoc]

/-! ## The directory -/

/-- The files there are, by name. -/
abbrev Dir := Str → Option Bytes

def Dir.put (d : Dir) (name : Str) (data : Bytes) : Dir := Function.update d name (some data)

def Dir.remove (d : Dir) (name : Str) : Dir := Function.update d name none

/-- `TraceWriter::write`. The text file is opened, and with that emptied, before
anything else, and removed again when no text is wanted. -/
def TraceWriter.write (F : FloatText) (tw : TraceWriter) (program_name : Str) (now : UInt64) (d : Dir) :
    Dir :=
  let program := tw.normalize_modulus_table.program now
  let path := program_name ++ str ".fhetch"
  let binary_path := replace_extension path (str ".fhex")
  let want_text := tw.format_ ≠ .Binary
  let want_binary := tw.format_ ≠ .Text
  let d := d.put path []
  let d := if want_text then d.put path (write_fhetch_text F program) else d
  let d :=
    if want_binary then
      match write_fhetch_binary program kFhetchSpec with
      | some bytes => d.put binary_path bytes
      | none => d
    else d
  if want_text then d else d.remove path

/-- The trace a recording left, the binary one first. A path is looked up as it is spelled:
that two spellings with a slash in them may lead to one file is left to the system. -/
def existing_trace_path (d : Dir) (program : Str) : Option Str :=
  [str ".fhex", str ".fhetch"].findSome? fun ext =>
    if (d (program ++ ext)).isSome then some (program ++ ext) else none

/-- `is_cache_valid`. -/
def is_cache_valid (d : Dir) (program : Str) : Bool := (existing_trace_path d program).isSome

/-! ## One write -/

section Write

variable {F : FloatText} {tw : TraceWriter} {program : Str} {now : UInt64} {d : Dir}

/-- The encoder refuses a specification without a revision only. -/
theorem write_fhetch_binary_isSome (p : Program) :
    ∃ bytes, write_fhetch_binary p kFhetchSpec = some bytes := by
  have hspec : kFhetchSpec.valid = true := by decide
  exact ⟨_, encode_fhetch_program_eq p.binary_metadata p.modulus_table (p.instructions.map to_record) hspec⟩

theorem fhex_ne_fhetch (program : Str) {ext ext' : Str} (h : ext ≠ ext') :
    program ++ ext ≠ program ++ ext' := fun heq => h (List.append_cancel_left heq)

/-- The text file is the new text, or gone. -/
theorem write_text_file : tw.write F program now d (program ++ str ".fhetch") =
    if tw.format_ = .Binary then none
    else some (write_fhetch_text F (tw.normalize_modulus_table.program now)) := by
  have hbinary : program ++ str ".fhetch" ≠ replace_extension (program ++ str ".fhetch") (str ".fhex") := by
    rw [replace_extension_fhetch]
    split
    · exact fhex_ne_fhetch program (by decide)
    · exact fhex_ne_fhetch program (by decide)
  obtain ⟨bytes, hbytes⟩ := write_fhetch_binary_isSome (tw.normalize_modulus_table.program now)
  unfold TraceWriter.write
  simp only [hbytes]
  cases tw.format_ with
  | Text => simp [Dir.put]
  | Binary => simp [Dir.put, Dir.remove]
  | Both => simp [Dir.put, Function.update_of_ne hbinary]

/-- The binary file is new where one is written under its name, else it is as it
was. -/
theorem write_binary_file : tw.write F program now d (program ++ str ".fhex") =
    if tw.format_ = .Text ∨ filename program = [] then d (program ++ str ".fhex")
    else write_fhetch_binary (tw.normalize_modulus_table.program now) kFhetchSpec := by
  have htext : program ++ str ".fhex" ≠ program ++ str ".fhetch" := fhex_ne_fhetch program (by decide)
  have hnameless : program ++ str ".fhex" ≠ program ++ str ".fhetch.fhex" :=
    fhex_ne_fhetch program (by decide)
  obtain ⟨bytes, hbytes⟩ := write_fhetch_binary_isSome (tw.normalize_modulus_table.program now)
  unfold TraceWriter.write
  rw [replace_extension_fhetch]
  simp only [hbytes]
  by_cases hname : filename program = [] <;> cases tw.format_ <;>
    simp [Dir.put, Dir.remove, hname, Function.update_of_ne htext, Function.update_of_ne hnameless]

end Write

/-! ## Runs of writes -/

/-- A recording at the moment it is written. -/
structure Write where
  writer : TraceWriter
  traced : Traced writer
  now : UInt64

def Dir.step (F : FloatText) (program : Str) (d : Dir) (w : Write) : Dir :=
  w.writer.write F program w.now d

/-- What the lookup names reads back as the recording. -/
def Fresh (F : FloatText) (program : Str) (d : Dir) (w : Write) : Prop :=
  ∃ name data, existing_trace_path d program = some name ∧ d name = some data ∧
    ReadsBack F name data w.writer.normalize_modulus_table

/-- The counters of the binary form hold the recording. -/
structure BinaryFits (w : Write) : Prop where
  table : w.writer.modulus_table_.length < 2 ^ 32
  instructions : w.writer.instructions_.length < 2 ^ 64
  metadata : (build_metadata (w.writer.normalize_modulus_table.program w.now).binary_metadata
    kFhetchSpec).length < 2 ^ 32

/-- The text form can say the recording: its strings are on one line, and its
indices and `logn` are in the reader's bounds. -/
structure TextFits (w : Write) : Prop where
  table : w.writer.modulus_table_.length ≤ 2 ^ 32
  info : (w.writer.metadata w.now).Unbroken
  notes : ∀ note ∈ w.writer.annotations_, newline ∉ note.text
  logn : w.writer.LognSayable
  indices : Encodable w.writer

/-- A write after which the lookup finds the recording. The file it will name can
hold the recording; a binary file is written under the name that is looked for;
and where only text is written, no binary file of another recording is there. -/
def Findable (F : FloatText) (program : Str) (d : Dir) (w : Write) : Prop :=
  match w.writer.format_ with
  | .Binary => filename program ≠ [] ∧ BinaryFits w
  | .Both => if filename program = [] then TextFits w else BinaryFits w
  | .Text => TextFits w ∧ ∀ data, d (program ++ str ".fhex") = some data →
      ReadsBack F (program ++ str ".fhex") data w.writer.normalize_modulus_table

section Run

variable {F : FloatText} {program : Str} {d : Dir} {w : Write}

/-- Without a name in front of the extension no binary file is ever under the name
that is looked for. -/
def Nameless (program : Str) (d : Dir) : Prop :=
  filename program = [] → d (program ++ str ".fhex") = none

theorem Nameless.step (h : Nameless program d) (w : Write) : Nameless program (d.step F program w) := by
  intro hname
  rw [Dir.step, write_binary_file, if_pos (Or.inr hname)]
  exact h hname

theorem fresh_of_binary {data : Bytes} (hdata : d (program ++ str ".fhex") = some data)
    (hread : ReadsBack F (program ++ str ".fhex") data w.writer.normalize_modulus_table) :
    Fresh F program d w := by
  refine ⟨_, data, ?_, hdata, hread⟩
  rw [existing_trace_path, List.findSome?_cons, hdata]
  rfl

theorem fresh_of_text {data : Bytes} (hbinary : d (program ++ str ".fhex") = none)
    (hdata : d (program ++ str ".fhetch") = some data)
    (hread : ReadsBack F (program ++ str ".fhetch") data w.writer.normalize_modulus_table) :
    Fresh F program d w := by
  refine ⟨_, data, ?_, hdata, hread⟩
  rw [existing_trace_path, List.findSome?_cons, hbinary, List.findSome?_cons, hdata]
  rfl

theorem TextFits.reads_back (h : TextFits w) (name : Str) :
    ReadsBack F name (write_fhetch_text F (w.writer.normalize_modulus_table.program w.now))
      w.writer.normalize_modulus_table :=
  w.traced.text_of_encodable h.table h.info h.notes h.logn h.indices

theorem BinaryFits.reads_back (h : BinaryFits w) (name : Str) {bytes : Bytes}
    (hbytes : write_fhetch_binary (w.writer.normalize_modulus_table.program w.now) kFhetchSpec =
      some bytes) : ReadsBack F name bytes w.writer.normalize_modulus_table := by
  obtain ⟨meant, hsound⟩ := w.traced.sound
  have hnormal := TraceWriter.normalize_eq hsound.consistent (Nat.le_of_lt h.table)
  refine binary_reads_back w.traced.built.normalize name ?_ ?_ h.metadata hbytes
  · rw [hnormal]
    exact (normalized_perm _).length_eq.trans_lt h.table
  · rw [hnormal, List.length_map]
    exact h.instructions

/-- **One write.** -/
theorem fresh_step (hinv : Nameless program d) (hok : Findable F program d w) :
    Fresh F program (d.step F program w) w := by
  obtain ⟨bytes, hbytes⟩ := write_fhetch_binary_isSome (w.writer.normalize_modulus_table.program w.now)
  have htext : w.writer.write F program w.now d (program ++ str ".fhetch") = _ := write_text_file
  have hbinary : w.writer.write F program w.now d (program ++ str ".fhex") = _ := write_binary_file
  unfold Findable at hok
  cases hformat : w.writer.format_ with
  | Binary =>
    rw [hformat] at hok hbinary
    obtain ⟨hname, hfits⟩ := hok
    rw [if_neg (by simp [hname]), hbytes] at hbinary
    exact fresh_of_binary hbinary (hfits.reads_back _ hbytes)
  | Both =>
    rw [hformat] at hok hbinary htext
    dsimp only at hok
    -- a program without a name has no binary file to be found
    by_cases hname : filename program = []
    · rw [if_pos hname] at hok
      rw [if_pos (Or.inr hname), hinv hname] at hbinary
      exact fresh_of_text hbinary htext (hok.reads_back _)
    · rw [if_neg hname] at hok
      rw [if_neg (by simp [hname]), hbytes] at hbinary
      exact fresh_of_binary hbinary (hok.reads_back _ hbytes)
  | Text =>
    rw [hformat] at hok hbinary htext
    obtain ⟨hfits, hstale⟩ := hok
    rw [if_pos (Or.inl rfl)] at hbinary
    -- the text is written beside whatever binary file there was
    cases hold : d (program ++ str ".fhex") with
    | none => exact fresh_of_text (hbinary.trans hold) htext (hfits.reads_back _)
    | some data => exact fresh_of_binary (hbinary.trans hold) (hstale data hold)

end Run

/-- **Replay picks the latest recording**, after each write of a run in which every
write is findable. -/
theorem replay_picks_latest (F : FloatText) (program : Str) (before after : List Write) (w : Write)
    (hrun : Runs.Along (Dir.step F program) (Findable F program) (fun _ => none) (before ++ w :: after)) :
    Fresh F program (Runs.run (Dir.step F program) (fun _ => none) (before ++ [w])) w := by
  have hstart : Nameless program (fun _ => none) := fun _ => rfl
  have hinv : Nameless program (Runs.run (Dir.step F program) (fun _ => none) before) :=
    run_invariant_of_always (fun _ w h => h.step w) hstart before
  rw [run_append]
  exact fresh_step hinv (along_at hrun)

/-- A session written in some format. -/
def writeOf (format : TraceFormat) (ops : List ApiOp) : Write :=
  ⟨session { format_ := format } ops, session_traced _ _, 0⟩

/-- A text recording, and then another one in both forms. -/
theorem replay_picks_latest_text_then_both :
    Fresh zeroFloatText (str "p") (Runs.run (Dir.step zeroFloatText (str "p")) (fun _ => none)
      ([writeOf .Text shortSession] ++ [writeOf .Both [.halt]])) (writeOf .Both [.halt]) := by
  refine replay_picks_latest zeroFloatText (str "p") _ [] _ ⟨?_, ?_, trivial⟩
  · refine ⟨⟨by decide, ?_, by decide, ?_, fun inst _ q _ _ => ?_⟩, ?_⟩
    · exact ⟨List.not_mem_nil, List.not_mem_nil, List.not_mem_nil, List.not_mem_nil, List.not_mem_nil⟩
    · intro inst hinst l hl
      rw [(session_built _ shortSession inst hinst).logn] at hl
      exact absurd hl (by simp)
    · exact List.countP_le_length.trans_lt (by decide)
    · exact fun data hdata => absurd hdata (by simp)
  · have hfits : BinaryFits (writeOf .Both [.halt]) := ⟨by decide, by decide, by decide +kernel⟩
    have hname : filename (str "p") ≠ [] := by decide
    have hboth : if filename (str "p") = [] then TextFits (writeOf .Both [.halt])
        else BinaryFits (writeOf .Both [.halt]) := by
      rw [if_neg hname]
      exact hfits
    exact hboth

/-- A binary recording of nothing, and then a text recording of a `halt`: the
lookup names the binary file, which holds the first. -/
theorem stale_binary_preferred :
    ¬ Fresh zeroFloatText (str "p") (Runs.run (Dir.step zeroFloatText (str "p")) (fun _ => none)
      [writeOf .Binary [], writeOf .Text [.halt]]) (writeOf .Text [.halt]) := by
  rintro ⟨name, data, hname, hdata, r, hread, -, -, hinsts, -⟩
  obtain ⟨bytes, hbytes⟩ := write_fhetch_binary_isSome
    ((writeOf .Binary []).writer.normalize_modulus_table.program 0)
  have hfirst : Runs.run (Dir.step zeroFloatText (str "p")) (fun _ => none)
      [writeOf .Binary [], writeOf .Text [.halt]] (str "p" ++ str ".fhex") = some bytes := by
    have hbinary : ∀ d : Dir, d.step zeroFloatText (str "p") (writeOf .Binary [])
        (str "p" ++ str ".fhex") = some bytes := by
      intro d
      rw [Dir.step, write_binary_file]
      exact (if_neg (by decide)).trans hbytes
    -- the second run writes no binary, so the first one is still there
    have htext : ∀ d : Dir, d.step zeroFloatText (str "p") (writeOf .Text [.halt])
        (str "p" ++ str ".fhex") = d (str "p" ++ str ".fhex") := by
      intro d
      rw [Dir.step, write_binary_file]
      exact if_pos (Or.inl rfl)
    exact (htext (Dir.step zeroFloatText (str "p") (fun _ => none) (writeOf .Binary []))).trans (hbinary _)
  rw [existing_trace_path, List.findSome?_cons, hfirst] at hname
  obtain rfl := Option.some.inj hname
  obtain rfl := Option.some.inj (hfirst.symm.trans hdata)
  have hfits : BinaryFits (writeOf .Binary []) := ⟨by decide, by decide, by decide +kernel⟩
  obtain ⟨r', hread', -, -, hinsts', -⟩ :=
    hfits.reads_back (F := zeroFloatText) (str "p" ++ str ".fhex") hbytes
  obtain rfl := Option.some.inj (hread.symm.trans hread')
  rw [hinsts] at hinsts'
  exact absurd hinsts' (by decide)

end Fhetch
