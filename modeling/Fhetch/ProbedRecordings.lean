/-
From a probe to its result: the templates that `Compiler::probe` leaves in the directory of
a recording, and what a replay in the same process makes of them.

A probe writes the ciphertext as it is, and stores the addresses of its residues under the
name. The template is that of the last probe of a name; the addresses are those of all of
them, in order. Where a name was probed once, the two belong together, and the result is
the ciphertext with what the replay computed at its addresses.
-/
import Fhetch.ProbeResults
import Fhetch.SeparateProcesses

set_option autoImplicit false

namespace Fhetch

open Lib Runs

/-! ## Probes of a recording -/

namespace Capturer

variable (S : Project) (L : CiphertextLibrary)

/-- The residues of a ciphertext that have addresses, with their moduli. -/
def found (r : Capturer) (elements : List HostPoly) : List (ℕ × ℕ) :=
  (towersOf elements).filterMap fun p => (r.probes.address_map p.id).map (·, p.modulus)

/-- A step, with the template that `probe` writes. The bytes are what the ciphertext has
beside its polynomials. -/
def template_step (r : Capturer) (s : HostStep × Bytes) : Capturer :=
  match s.1 with
  | .probe var_name elements =>
    let r := r.step S (.probe var_name elements)
    { r with dir := r.dir.put (templateFile var_name) (L.serialize ⟨s.2, elements.map HostPoly.stored⟩) }
  | step => r.step S step

/-- The template that a step leaves under a name. -/
def templateOf (name : Str) (s : HostStep × Bytes) : Option Ciphertext :=
  match s.1 with
  | .probe var_name elements => if var_name = name then some ⟨s.2, elements.map HostPoly.stored⟩ else none
  | _ => none

/-- What a step stores under a name. -/
def storedUnder (name : Str) (r : Capturer) (s : HostStep × Bytes) : List (ℕ × ℕ) :=
  match s.1 with
  | .probe var_name elements => if name = var_name then r.found elements else []
  | _ => []

def lastTemplate (name : Str) : List (HostStep × Bytes) → Option Ciphertext
  | [] => none
  | s :: steps => (lastTemplate name steps).or (templateOf name s)

def probedUnder (name : Str) : Capturer → List (HostStep × Bytes) → List (ℕ × ℕ)
  | _, [] => []
  | r, s :: steps => storedUnder name r s ++ probedUnder name (r.template_step S L s) steps

end Capturer

/-! ## What probes store -/

/-- Records of differently named polynomials. -/
structure PolyRecords (records : List (CapturedRecord (ℕ × ℕ))) : Prop where
  nodup : (records.map CapturedRecord.name).Nodup
  kinds : ∀ name, (kindOf records name).getD .SRP = .SRP

theorem PolyRecords.store_element {records : List (CapturedRecord (ℕ × ℕ))} (h : PolyRecords records) (name : Str)
    (e : ℕ × ℕ) : PolyRecords (store_element name .SRP records e) where
  nodup := by
    unfold Fhetch.store_element
    split
    · rename_i hnone
      have hnew : name ∉ records.map CapturedRecord.name := fun hmem => by
        obtain ⟨r, hr, hname⟩ := List.mem_map.mp hmem
        exact absurd (decide_eq_true hname) (List.find?_eq_none.mp hnone r hr)
      rw [List.map_append]
      exact List.Nodup.append h.nodup (List.nodup_singleton _) (List.disjoint_singleton.mpr hnew)
    · split
      · exact h.nodup
      · have hnames : (records.map fun r => if r.name = name then { r with elements := r.elements ++ [e] } else r).map
            CapturedRecord.name = records.map CapturedRecord.name := by
          rw [List.map_map]
          refine List.map_congr_left fun r _ => ?_
          rw [Function.comp_apply]
          split
          · rfl
          · rfl
        rw [hnames]
        exact h.nodup
  kinds n := by
    rw [kindOf_store_element]
    split
    · exact h.kinds name
    · exact h.kinds n

theorem PolyRecords.store_elements (name : Str) (es : List (ℕ × ℕ)) : ∀ {records : List (CapturedRecord (ℕ × ℕ))},
    PolyRecords records → PolyRecords (es.foldl (Fhetch.store_element name .SRP) records) := by
  induction es with
  | nil => exact fun h => h
  | cons e es ih => exact fun h => ih (h.store_element name e)

/-- The record of a name that something was stored under. -/
theorem exists_record {records : List (CapturedRecord (ℕ × ℕ))} {name : Str} (h : elementsUnder records name ≠ []) :
    ∃ r ∈ records, r.name = name ∧ r.elements = elementsUnder records name := by
  rw [elementsUnder] at h ⊢
  rcases hfind : records.find? (·.name = name) with - | r
  · rw [hfind] at h
    exact absurd rfl h
  · have hname := List.find?_some hfind
    rw [decide_eq_true_iff] at hname
    refine ⟨r, List.mem_of_find?_eq_some hfind, hname, ?_⟩
    rw [hfind]
    rfl

namespace Capturer

variable {S : Project} {L : CiphertextLibrary} {r : Capturer}

theorem probe_polys_eq (name : Str) (polys : List NativePoly) : ∀ r : Capturer, polys.foldl (probe_poly name) r =
    { r with
      captured_outputs := (polys.filterMap fun p => (r.probes.address_map p.id).map (·, p.modulus)).foldl
        (store_output_probe name .SRP) r.captured_outputs } := by
  induction polys with
  | nil => exact fun _ => rfl
  | cons p polys ih =>
    intro r
    rw [List.foldl_cons, List.filterMap_cons]
    cases haddr : r.probes.address_map p.id with
    | none =>
      have hprobe : r.probe_poly name p = r := by
        rw [probe_poly, haddr]
      rw [hprobe, ih]
      rfl
    | some addr =>
      have hprobe : r.probe_poly name p = { r with
          captured_outputs := store_output_probe name .SRP r.captured_outputs (addr, p.modulus) } := by
        rw [probe_poly, haddr]
      rw [hprobe, ih]
      rfl

theorem tags_outputs (tags : List Tag) : ∀ r : Capturer,
    (tags.foldl (tag S) r).captured_outputs = r.captured_outputs := by
  induction tags with
  | nil => exact fun _ => rfl
  | cons t tags ih =>
    intro r
    obtain ⟨-, probes, hcapture⟩ := r.capture_spec t.item.name t.polys
    rw [List.foldl_cons, ih]
    show (r.capture t.item.name t.polys).2.captured_outputs = _
    rw [hcapture]

theorem write_trace_outputs (now : UInt64) : (r.write_trace S now).captured_outputs = r.captured_outputs := by
  rw [write_trace]
  split
  · rfl
  · rfl

/-- What is captured after a step. -/
theorem template_step_outputs (h : PolyRecords r.captured_outputs) (name : Str) (s : HostStep × Bytes) :
    PolyRecords (r.template_step S L s).captured_outputs ∧
      elementsUnder (r.template_step S L s).captured_outputs name =
        elementsUnder r.captured_outputs name ++ storedUnder name r s := by
  obtain ⟨s, shell⟩ := s
  have hsame : ∀ r' : Capturer, r'.captured_outputs = r.captured_outputs → PolyRecords r'.captured_outputs ∧
      elementsUnder r'.captured_outputs name = elementsUnder r.captured_outputs name ++ [] := by
    intro r' hr'
    rw [hr', List.append_nil]
    exact ⟨h, rfl⟩
  cases s with
  | probe var_name elements =>
    have hprobe : (r.template_step S L (.probe var_name elements, shell)).captured_outputs =
        (r.found elements).foldl (store_element var_name .SRP) r.captured_outputs := by
      show ((towersOf elements).foldl (probe_poly var_name) r).captured_outputs = _
      rw [probe_polys_eq]
      rfl
    rw [hprobe]
    refine ⟨h.store_elements var_name _, ?_⟩
    rw [elementsUnder_store_elements]
    by_cases hname : name = var_name
    · rw [if_pos ⟨hname, h.kinds var_name⟩]
      exact congrArg _ (if_pos hname).symm
    · rw [if_neg fun h => hname h.1]
      exact congrArg _ (if_neg hname).symm
  | write_trace now => exact hsame _ (write_trace_outputs now)
  | _ => exact hsame _ (tags_outputs _ r)

/-! ### Templates -/

theorem templateFile_eq (name : Str) : templateFile name = (str "ciphertext_templates/" ++ (name ++ str ".temp")) ++ str "late" := by
  have hext : str ".template" = str ".temp" ++ str "late" := by decide
  rw [templateFile, hext, List.append_assoc, List.append_assoc]

theorem late_not_data : ¬ DataExt (str "late") := by
  rintro (h | h)
  · exact absurd h (by decide)
  · exact absurd h (by decide)

/-- A template is no trace. -/
theorem templateFile_ne_append (name s : Str) {t : Str} (hlength : t.length = 4) (ht : t ≠ str "late") :
    templateFile name ≠ s ++ t := by
  rw [templateFile_eq]
  exact fun h => ht (List.append_inj_right' h hlength.symm).symm

theorem tags_template (name : Str) (tags : List Tag) : ∀ r : Capturer,
    (tags.foldl (tag S) r).dir (templateFile name) = r.dir (templateFile name) := by
  induction tags with
  | nil => exact fun _ => rfl
  | cons t tags ih =>
    intro r
    obtain ⟨-, probes, hcapture⟩ := r.capture_spec t.item.name t.polys
    have hne : ∀ ext, DataExt ext → templateFile name ≠ t.item.file S.prog ext := fun ext hext h =>
      t.item.file_ne hext _ rfl late_not_data (h.symm.trans (templateFile_eq name))
    rw [List.foldl_cons, ih]
    show ((((r.capture t.item.name t.polys).2.dir.put _ _).put _ _) : Dir) _ = _
    rw [Dir.put, Function.update_of_ne (hne _ (.inr rfl)), Dir.put, Function.update_of_ne (hne _ (.inl rfl)), hcapture]

theorem write_trace_template (name : Str) (now : UInt64) :
    (r.write_trace S now).dir (templateFile name) = r.dir (templateFile name) := by
  rw [write_trace]
  split
  · refine TraceWriter.write_other ?_ ?_
    · have htext : S.prog ++ str ".fhetch" = (S.prog ++ str ".fh") ++ str "etch" := by
        rw [List.append_assoc]
        rfl
      rw [htext]
      exact templateFile_ne_append name _ rfl (by decide)
    · rw [replace_extension_fhetch]
      split
      · have htext : S.prog ++ str ".fhetch.fhex" = (S.prog ++ str ".fhetch.") ++ str "fhex" := by
          rw [List.append_assoc]
          rfl
        rw [htext]
        exact templateFile_ne_append name _ rfl (by decide)
      · have htext : S.prog ++ str ".fhex" = (S.prog ++ str ".") ++ str "fhex" := by
          rw [List.append_assoc]
          rfl
        rw [htext]
        exact templateFile_ne_append name _ rfl (by decide)
  · rfl

theorem templateFile_inj {name name' : Str} (h : templateFile name = templateFile name') : name = name' :=
  List.append_cancel_right (List.append_cancel_left h)

/-- The template of a name after a step. -/
theorem template_step_template (name : Str) (s : HostStep × Bytes) :
    (r.template_step S L s).dir (templateFile name) =
      ((templateOf name s).map L.serialize).or (r.dir (templateFile name)) := by
  obtain ⟨s, shell⟩ := s
  cases s with
  | probe var_name elements =>
    obtain ⟨captured_outputs, hprobe⟩ := probe_polys_frame var_name (towersOf elements) r
    show (((towersOf elements).foldl (probe_poly var_name) r).dir.put (templateFile var_name) _) _ = _
    rw [hprobe, Dir.put, templateOf]
    dsimp only
    by_cases hname : var_name = name
    · rw [if_pos hname, hname, Function.update_self]
      rfl
    · rw [if_neg hname, Function.update_of_ne fun h => hname (templateFile_inj h).symm]
      rfl
  | write_trace now => exact write_trace_template name now
  | save_dcrt_poly_as_input dcrt => exact tags_template name [.dcrtpoly r.counter dcrt] r
  | _ => exact tags_template name _ r

/-- **A recording and its probes**: under each name what all of them stored, and the
template of the last. -/
theorem probes_run (name : Str) (steps : List (HostStep × Bytes)) : ∀ {r : Capturer}, PolyRecords r.captured_outputs →
    PolyRecords (Runs.run (template_step S L) r steps).captured_outputs ∧
      elementsUnder (Runs.run (template_step S L) r steps).captured_outputs name =
        elementsUnder r.captured_outputs name ++ probedUnder S L name r steps ∧
      (Runs.run (template_step S L) r steps).dir (templateFile name) =
        ((lastTemplate name steps).map L.serialize).or (r.dir (templateFile name)) := by
  induction steps with
  | nil => exact fun h => ⟨h, (List.append_nil _).symm, rfl⟩
  | cons s steps ih =>
    intro r h
    obtain ⟨hfirst, hstored⟩ := template_step_outputs (S := S) (L := L) h name s
    obtain ⟨hrecords, hunder, htemplate⟩ := ih hfirst
    refine ⟨hrecords, ?_, ?_⟩
    · show elementsUnder (Runs.run (template_step S L) (r.template_step S L s) steps).captured_outputs name = _
      rw [hunder, hstored, List.append_assoc]
      rfl
    · show (Runs.run (template_step S L) (r.template_step S L s) steps).dir (templateFile name) = _
      rw [htemplate, template_step_template, lastTemplate]
      cases lastTemplate name steps with
      | none => rfl
      | some ct => rfl

theorem written_template (name : Str) : (r.written S).dir (templateFile name) = r.dir (templateFile name) := by
  have hne : ∀ s, templateFile name ≠ s ++ str "json" := fun s => templateFile_ne_append name s rfl (by decide)
  rw [written]
  dsimp only
  rw [write_replay_json, Dir.put, Function.update_of_ne (replayFile_eq ▸ hne _), Dir.put, Function.update_of_ne (outputsFile_eq S.prog ▸ hne _),
    Dir.put, Function.update_of_ne (inputsFile_eq S.prog ▸ hne _)]

end Capturer

/-! ## What a replay hands back -/

section Replayed

variable {M : NativeMath} {parent_map : List (ℕ × ℕ)} {A : List ReplayOutput}

theorem Compiler.replay_writes {N : ℕ} {p : Program} {inputs : List InputRecord} {outputs : List OutputRecord}
    (h : Compiler.replay M N p inputs parent_map outputs = some (some A)) :
    ∃ f, A = Compiler.write_replay_outputs f outputs := by
  unfold Compiler.replay at h
  split at h
  · exact absurd (Option.some.inj h) (by simp)
  · dsimp only at h
    split at h
    · exact absurd (Option.some.inj h) (by simp)
    · obtain ⟨sim, -, h⟩ := Option.bind_eq_some_iff.mp h
      obtain ⟨⟨f, result⟩, -, h⟩ := Option.map_eq_some_iff.mp h
      dsimp only at h
      split at h
      · exact absurd h (by simp)
      · exact ⟨f, (Option.some.inj h).symm⟩

/-- The outputs are those of the recording, with what some simulator holds. -/
theorem Capturer.replay_writes {S : Project} {r : Capturer} (h : r.replay M S parent_map = some (some A)) :
    ∃ f, A = Compiler.write_replay_outputs f r.replay_outputs := by
  obtain ⟨p, -, h⟩ := Option.bind_eq_some_iff.mp h
  cases p with
  | none => exact absurd (Option.some.inj h) (by simp)
  | some p => exact Compiler.replay_writes h

/-- Captured moduli that are those of the towers. -/
theorem ownModuli_captured {f : Simulator} {ct : Ciphertext} {es : List (ℕ × ℕ)} (name : Str)
    (h : ∀ p ∈ es.zip ct.towers, p.1.2 = p.2.1) :
    OwnModuli ct ⟨name, es.map fun e => replay_element f e.1 e.2⟩ := by
  intro p hp
  dsimp only at hp
  rw [← List.map_take, List.zip_map_left] at hp
  obtain ⟨⟨e, t⟩, hmem, rfl⟩ := List.mem_map.mp hp
  have hzip : (es.take ct.towers.length).zip ct.towers = (es.zip ct.towers).take ct.towers.length := by
    show List.zipWith Prod.mk _ _ = (List.zipWith Prod.mk _ _).take _
    rw [List.take_zipWith, List.take_length]
  rw [hzip] at hmem
  have hmodulus : e.2 = t.1 := h _ (List.mem_of_mem_take hmem)
  by_cases hzero : e.2 = 0
  · exact .inl (if_pos hzero)
  · exact .inr ((if_neg hzero).trans hmodulus)

end Replayed

/-- **What a probe hands back.** After a recording, its replay, and the reconstruction, the
result of a name is the template of its last probe, filled tower by tower with what the
replay computed at the addresses that its probes stored, from the first of them on. Where
the replay did not compute them all, it is what it was before. -/
theorem probe_hands_back (M : NativeMath) (S : Project) (L : CiphertextLibrary) (J : JsonLibrary) (hL : L.Documented)
    {r₀ r : Capturer} {steps : List (HostStep × Bytes)} (parent_map : List (ℕ × ℕ))
    (hr : r = Runs.run (Capturer.template_step S L) r₀ steps) (hfirst : r₀.captured_outputs = []) {name : Str}
    {ct : Ciphertext} (htemplate : Capturer.lastTemplate name steps = some ct)
    (hprobed : Capturer.probedUnder S L name r₀ steps ≠ [])
    (hmoduli : ∀ p ∈ (Capturer.probedUnder S L name r₀ steps).zip ct.towers, p.1.2 = p.2.1)
    {A : List ReplayOutput} (hreplay : (r.written S).replay M S parent_map = some (some A))
    (hjson : J.parse (J.dump (replay_outputs_json A)) = some (replay_outputs_json A)) :
    ∃ d', reconstruct_probes_in L J ((r.written S).dir.put replayOutputsFile (J.dump (replay_outputs_json A))) = some d' ∧
      ∃ o ∈ A, o.name = name ∧
        o.elements.map ReplayElement.addr_id = (Capturer.probedUnder S L name r₀ steps).map Prod.fst ∧
        (Complete ct o → ∃ ct', result L d' name = some ct' ∧ Refilled ct o ct') ∧
        (¬ Complete ct o → result L d' name = result L (r.written S).dir name) := by
  have hnone : PolyRecords r₀.captured_outputs := by
    rw [hfirst]
    exact ⟨List.nodup_nil, fun _ => rfl⟩
  obtain ⟨hrecords, hunder, hfile⟩ := Capturer.probes_run (S := S) (L := L) name steps hnone
  rw [← hr] at hrecords hunder hfile
  rw [hfirst] at hunder
  replace hunder : elementsUnder r.captured_outputs name = Capturer.probedUnder S L name r₀ steps := hunder
  obtain ⟨record, hmem, rfl, helements⟩ := exists_record (hunder ▸ hprobed)
  rw [hunder] at helements
  obtain ⟨f, hA⟩ := Capturer.replay_writes hreplay
  -- what the replay made of that record
  let o : ReplayOutput := ⟨record.name, record.elements.map fun e => replay_element f e.1 e.2⟩
  have ho : o ∈ A := by
    rw [hA]
    exact List.mem_map_of_mem (List.mem_map_of_mem hmem)
  have hnodup : (A.map ReplayOutput.name).Nodup := by
    rw [hA, Compiler.write_replay_outputs, Capturer.replay_outputs, List.map_map, List.map_map]
    exact hrecords.nodup
  obtain ⟨d', hrun, -, hown⟩ := reconstruct_written (L := L) A (r.written S).dir hnodup hjson
  have hct : ((r.written S).dir (templateFile o.name)).bind L.deserialize = some ct := by
    rw [Capturer.written_template, hfile, htemplate]
    exact hL.reads ct
  obtain ⟨hcomplete, hincomplete⟩ := result_outcome hL hct (hown o ho)
  refine ⟨d', hrun, o, ho, rfl, ?_, fun h => hcomplete h (ownModuli_captured _ (helements ▸ hmoduli)), hincomplete⟩
  rw [← helements, List.map_map]
  rfl

/-! ## A probed sum -/

theorem add_ne_stop (dst a b : ℕ) (q : UInt64) : ProbeCall.add dst a b q ≠ .stop := by simp

/-- An input, its sum with itself, and that as an output. -/
def probedSumSteps : List (HostStep × Bytes) :=
  [(tagOne 7 3, []), (.call (.add 8 7 7 17) (add_ne_stop 8 7 7 17), []),
    (.probe (str "y") [⟨.Evaluation, [⟨8, 17, [3]⟩]⟩], []), (.write_trace 0, [])]

def probedSum : Capturer := Runs.run (Capturer.template_step oneProject referenceCiphertexts) emptyCapturer probedSumSteps

/-- The sum, as the host program gets it. -/
theorem probe_hands_back_sum : ∃ d', reconstruct_probes_in referenceCiphertexts oneResultJson
      ((probedSum.written oneProject).dir.put replayOutputsFile oneResultText) = some d' ∧
    ∃ ct', result referenceCiphertexts d' (str "y") = some ct' ∧ ct'.towers = [(17, [6])] := by
  have hprobed : Capturer.probedUnder oneProject referenceCiphertexts (str "y") emptyCapturer probedSumSteps = [(2, 17)] := by
    decide +kernel
  have htemplate : Capturer.lastTemplate (str "y") probedSumSteps = some oneTemplate := rfl
  have hreplay : (probedSum.written oneProject).replay referenceMath oneProject [] = some (some oneResult) := by
    decide +kernel
  obtain ⟨d', hd', o, ho, -, -, hcomplete, -⟩ := probe_hands_back referenceMath oneProject referenceCiphertexts
    oneResultJson referenceCiphertexts_documented (r := probedSum) [] rfl rfl htemplate
    (by rw [hprobed]; exact List.cons_ne_nil _ _) (by rw [hprobed]; exact List.forall_mem_singleton.mpr rfl) hreplay
    oneResultJson_reads
  obtain rfl := List.mem_singleton.mp ho
  obtain ⟨ct', hct', hrefilled⟩ := hcomplete (.cons ⟨rfl, rfl⟩ .nil)
  exact ⟨d', hd', ct', hct', hrefilled.refills.towers⟩

end Fhetch
