/-
What a host program gets back: the last part of `src/auto_facade.cpp`, where
`reconstruct_probes_in` fills the template of each probed ciphertext with what a replay
computed, and `result` reads it.

A template is filled tower by tower, in step with the elements of the output. Whatever
goes wrong on the way, the probe is not written, and a file that an earlier replay left
under its name stays there for `result` to find.

A template that the library cannot read is passed over. That it may throw there instead is
left out.
-/
import Fhetch.ProjectReplay
import Fhetch.Lib.Cuts
import Mathlib.Data.Nat.Digits.Lemmas
import Mathlib.Logic.Encodable.Basic
import Mathlib.Logic.Equiv.List

set_option autoImplicit false

namespace Fhetch

open Lib

/-! ## Ciphertexts -/

/-- A ciphertext: its polynomials, and what else the library writes of it. -/
structure Ciphertext where
  shell : Bytes
  elements : List DcrtPoly

def Ciphertext.towers (ct : Ciphertext) : List (ℕ × Poly) := ct.elements.flatMap DcrtPoly.towers

/-- The library for them. `SetValues` puts a vector under a modulus in place of a tower's,
or throws. -/
structure CiphertextLibrary where
  serialize : Ciphertext → Bytes
  deserialize : Bytes → Option Ciphertext
  SetValues : ℕ × Poly → ℕ → Poly → Option (ℕ × Poly)

/-- What is relied on: it reads back what it wrote, and takes a vector of the tower's
length under the tower's own modulus. -/
structure CiphertextLibrary.Documented (L : CiphertextLibrary) : Prop where
  reads : ∀ ct, L.deserialize (L.serialize ct) = some ct
  sets : ∀ (t : ℕ × Poly) (values : Poly), values.length = t.2.length → L.SetValues t t.1 values = some (t.1, values)

/-! ## Replay outputs -/

def ElementStatus.text : ElementStatus → Str
  | computed => str "computed"
  | missing => str "missing"

def element_json (e : ReplayElement) : Json := .object [
  (str "addr_id", .num e.addr_id),
  (str "modulus", .num e.modulus),
  (str "status", .text e.status.text),
  (str "values", .arr (e.values.map Json.num))]

def output_json (o : ReplayOutput) : Json := .object [
  (str "name", .text o.name),
  (str "elements", .arr (o.elements.map element_json))]

/-- What both `write_replay_outputs` write. -/
def replay_outputs_json (outputs : List ReplayOutput) : Json :=
  .object [(str "outputs", .arr (outputs.map output_json))]

/-! ## Reconstruction -/

structure ComputedElement where
  modulus : ℕ
  values : Poly

/-- `none` is thrown. -/
def parse_sim_element (sim_elem : Json) : Option (Option ComputedElement) := do
  let status ← sim_elem.textAt (str "status")
  if status ≠ str "computed" then some none
  else match sim_elem.member (str "values") with
    | none => some none
    | some (.arr l) => do
      let modulus ← (sim_elem.member (str "modulus")).bind Json.asNum
      let values ← l.mapM Json.asNum
      some (some ⟨modulus, values⟩)
    | some _ => none

section Reconstruction

variable (L : CiphertextLibrary) (J : JsonLibrary)

/-- Under the sentinel, the template's own modulus is kept. -/
def apply_sim_output (native_poly : ℕ × Poly) (ce : ComputedElement) : Option (ℕ × Poly) :=
  if ce.values.length ≠ native_poly.2.length then none
  else L.SetValues native_poly (if ce.modulus = COPY_MODULUS then native_poly.1 else ce.modulus) ce.values

/-- A tower, and 1 if it was filled. -/
def fill_tower (native_poly : ℕ × Poly) (sim_elem : Json) : Option ((ℕ × Poly) × ℕ) :=
  (parse_sim_element sim_elem).bind fun
    | some ce => (apply_sim_output L native_poly ce).map (·, 1)
    | none => some (native_poly, 0)

/-- Towers in step with elements: the towers, how many were filled, and what is left. -/
def fill_towers : List (ℕ × Poly) → List Json → Option (List (ℕ × Poly) × ℕ × List Json)
  | [], sim_elements => some ([], 0, sim_elements)
  | _ :: _, [] => none
  | native_poly :: towers, sim_elem :: sim_elements => do
    let (native_poly, one) ← fill_tower L native_poly sim_elem
    let (towers, filled, rest) ← fill_towers towers sim_elements
    some (native_poly :: towers, one + filled, rest)

def fill_elements : List DcrtPoly → List Json → Option (List DcrtPoly × ℕ)
  | [], _ => some ([], 0)
  | dcrt :: elements, sim_elements => do
    let (towers, filled, rest) ← fill_towers L dcrt.towers sim_elements
    let (elements, more) ← fill_elements elements rest
    some ({ dcrt with towers := towers } :: elements, filled + more)

/-- The part of the loop that catches what is thrown: a filled template, if there is one. -/
def refill (ct : Ciphertext) (sim_elements : List Json) : Option Ciphertext := do
  let total_towers := ct.towers.length
  if sim_elements.length < total_towers then none
  else
    let (elements, filled) ← fill_elements L ct.elements sim_elements
    if filled ≠ total_towers then none
    else some { ct with elements := elements }

def templateFile (name : Str) : Str := str "ciphertext_templates/" ++ (name ++ str ".template")

def probeFile (name : Str) : Str := str "serialized_probes/" ++ (name ++ str ".ct")

def replayOutputsFile : Str := str "fhetch_replay_outputs.json"

/-- One output. -/
def reconstruct_probe (d : Dir) (output_entry : Json) : Option Dir := do
  let name ← output_entry.textAt (str "name")
  match (d (templateFile name)).bind L.deserialize with
  | none => some d
  | some ct => match output_entry.member (str "elements") with
    | some (.arr sim_elements) => match refill L ct sim_elements with
      | none => some d
      | some ct => some (d.put (probeFile name) (L.serialize ct))
    | _ => some d

def reconstruct_probes_in (d : Dir) : Option Dir :=
  match (d replayOutputsFile).bind J.parse with
  | none => some d
  | some outputs_json => match outputs_json.member (str "outputs") with
    | none => some d
    | some (.arr outputs) => outputs.foldlM (reconstruct_probe L) d
    | some _ => none

/-- `Compiler::result`. -/
def result (d : Dir) (var_name : Str) : Option Ciphertext := (d (probeFile var_name)).bind L.deserialize

end Reconstruction

/-! ## What a fill does -/

/-- What an element needs to fill a tower. -/
structure Fillable (e : ReplayElement) (t : ℕ × Poly) : Prop where
  computed : e.status = .computed
  length : e.values.length = t.2.length

/-- An element under the modulus of its tower, or under none. -/
def OwnModulus (e : ReplayElement) (t : ℕ × Poly) : Prop := e.modulus = COPY_MODULUS ∨ e.modulus = t.1

def filledTower (t : ℕ × Poly) (e : ReplayElement) : ℕ × Poly := (t.1, e.values)

section Filling

variable {L : CiphertextLibrary}

/-- An element is read as it was written. -/
theorem parse_element_json (e : ReplayElement) : parse_sim_element (element_json e) =
    some (if e.status = .computed then some ⟨e.modulus, e.values⟩ else none) := by
  have hvalues : (e.values.map Json.num).mapM Json.asNum = some e.values := by
    rw [List.mapM_map]
    exact (mapM_of_some fun _ _ => rfl).trans (congrArg some (List.map_id e.values))
  have hmember : (element_json e).member (str "values") = some (.arr (e.values.map Json.num)) := rfl
  have hmodulus : (element_json e).member (str "modulus") = some (.num e.modulus) := rfl
  have hstatus : (element_json e).textAt (str "status") = some e.status.text := rfl
  rw [parse_sim_element, hstatus]
  cases e.status with
  | computed => simp [ElementStatus.text, hmember, hmodulus, hvalues, Json.asNum]
  | missing =>
    have hne : ElementStatus.missing.text ≠ str "computed" := by decide
    simp [hne]

theorem apply_sim_output_own (hL : L.Documented) {e : ReplayElement} {t : ℕ × Poly} (hfill : Fillable e t)
    (hown : OwnModulus e t) : apply_sim_output L t ⟨e.modulus, e.values⟩ = some (filledTower t e) := by
  have hmodulus : (if e.modulus = COPY_MODULUS then t.1 else e.modulus) = t.1 := by
    rcases hown with h | h
    · rw [if_pos h]
    · rw [h, ite_self]
  rw [apply_sim_output, if_neg (not_not.mpr hfill.length), hmodulus, hL.sets _ _ hfill.length]
  rfl

/-- Elements that all fit fill the towers. -/
theorem fill_towers_complete (hL : L.Documented) {es : List ReplayElement} {towers : List (ℕ × Poly)}
    (h : List.Forall₂ (fun e t => Fillable e t ∧ OwnModulus e t) es towers) (rest : List Json) :
    fill_towers L towers (es.map element_json ++ rest) =
      some (List.zipWith filledTower towers es, towers.length, rest) := by
  induction h with
  | nil => rfl
  | @cons e t es towers hfirst _ ih =>
    have hone : fill_tower L t (element_json e) = some (filledTower t e, 1) := by
      rw [fill_tower, parse_element_json, if_pos hfirst.1.computed]
      show (apply_sim_output L t ⟨e.modulus, e.values⟩).map _ = _
      rw [apply_sim_output_own hL hfirst.1 hfirst.2, Option.map_some]
    rw [List.map_cons, List.cons_append, fill_towers, hone]
    simp [ih, Nat.add_comm]

/-- What was counted was computed, and had the length. -/
theorem fill_tower_spec {t : ℕ × Poly} {sim_elem : Json} {t' : ℕ × Poly} {one : ℕ}
    (h : fill_tower L t sim_elem = some (t', one)) :
    one ≤ 1 ∧ ∀ e, sim_elem = element_json e → one = 1 → Fillable e t := by
  obtain ⟨ce, hce, hfill⟩ := Option.bind_eq_some_iff.mp h
  cases ce with
  | none =>
    obtain ⟨-, rfl⟩ : t = t' ∧ 0 = one := by simpa using hfill
    exact ⟨Nat.zero_le 1, fun _ _ hone => absurd hone (by decide)⟩
  | some ce =>
    obtain ⟨t₁, happly, heq⟩ := Option.map_eq_some_iff.mp hfill
    obtain ⟨-, rfl⟩ : t₁ = t' ∧ 1 = one := by simpa using heq
    refine ⟨Nat.le_refl 1, ?_⟩
    rintro e rfl -
    rw [parse_element_json, Option.some.injEq] at hce
    split at hce
    · rename_i hcomputed
      obtain rfl := Option.some.inj hce
      refine ⟨hcomputed, ?_⟩
      by_contra hne
      rw [apply_sim_output, if_pos hne] at happly
      exact absurd happly (by simp)
    · exact absurd hce (by simp)

/-- A count that reaches the towers has found an element for each. -/
theorem fill_towers_spec (towers : List (ℕ × Poly)) :
    ∀ {sim_elements : List Json} {filled : List (ℕ × Poly)} {count : ℕ} {left : List Json},
      fill_towers L towers sim_elements = some (filled, count, left) → count ≤ towers.length ∧
        ∀ (es : List ReplayElement) rest, sim_elements = es.map element_json ++ rest → es.length = towers.length →
          left = rest ∧ (count = towers.length → List.Forall₂ Fillable es towers) := by
  induction towers with
  | nil =>
    intro sim_elements filled count left h
    obtain ⟨rfl, rfl, rfl⟩ : [] = filled ∧ 0 = count ∧ sim_elements = left := by simpa [fill_towers] using h
    refine ⟨Nat.le_refl _, fun es rest hes hlength => ?_⟩
    obtain rfl := List.length_eq_zero_iff.mp hlength
    exact ⟨hes, fun _ => .nil⟩
  | cons t towers ih =>
    intro sim_elements filled count left h
    cases sim_elements with
    | nil => exact absurd h (by simp [fill_towers])
    | cons sim_elem sim_elements =>
      simp only [fill_towers, Option.bind_eq_bind, Option.bind_eq_some_iff] at h
      obtain ⟨⟨t', one⟩, hone, ⟨towers', count', left'⟩, hrest, heq⟩ := h
      obtain ⟨-, rfl, rfl⟩ : t' :: towers' = filled ∧ one + count' = count ∧ left' = left := by simpa using heq
      obtain ⟨hle, hfillable⟩ := fill_tower_spec hone
      obtain ⟨hcount, hspec⟩ := ih hrest
      refine ⟨by rw [List.length_cons]; omega, fun es rest hes hlength => ?_⟩
      obtain _ | ⟨e, es⟩ := es
      · exact absurd hlength (by simp)
      rw [List.map_cons, List.cons_append, List.cons.injEq] at hes
      obtain ⟨he, hes⟩ := hes
      obtain ⟨hleft, hall⟩ := hspec es rest hes (Nat.succ.inj hlength)
      refine ⟨hleft, fun htotal => ?_⟩
      rw [List.length_cons] at htotal
      exact .cons (hfillable e he (by omega)) (hall (by omega))

/-- What stays of the polynomials, and what they are filled with. -/
structure Refills (elements elements' : List DcrtPoly) (towers' : List (ℕ × Poly)) : Prop where
  formats : elements'.map DcrtPoly.format = elements.map DcrtPoly.format
  counts : elements'.map (fun dcrt => dcrt.towers.length) = elements.map fun dcrt => dcrt.towers.length
  towers : elements'.flatMap DcrtPoly.towers = towers'

theorem fill_elements_complete (hL : L.Documented) (elements : List DcrtPoly) :
    ∀ {es : List ReplayElement} (rest : List Json),
      List.Forall₂ (fun e t => Fillable e t ∧ OwnModulus e t) es (elements.flatMap DcrtPoly.towers) →
      ∃ elements', fill_elements L elements (es.map element_json ++ rest) =
          some (elements', (elements.flatMap DcrtPoly.towers).length) ∧
        Refills elements elements' (List.zipWith filledTower (elements.flatMap DcrtPoly.towers) es) := by
  induction elements with
  | nil => exact fun _ _ => ⟨[], rfl, rfl, rfl, rfl⟩
  | cons dcrt elements ih =>
    intro es rest h
    rw [List.flatMap_cons] at h
    have hfirst := List.forall₂_take_append _ _ _ h
    obtain ⟨elements', hfill, hrefills⟩ := ih rest (List.forall₂_drop_append _ _ _ h)
    have hsplit := List.take_append_drop dcrt.towers.length es
    have htowers := fill_towers_complete hL hfirst ((es.drop dcrt.towers.length).map element_json ++ rest)
    rw [← List.append_assoc, ← List.map_append, hsplit] at htowers
    have hlength : dcrt.towers.length = (es.take dcrt.towers.length).length := hfirst.length_eq.symm
    refine ⟨{ dcrt with towers := List.zipWith filledTower dcrt.towers (es.take dcrt.towers.length) } :: elements', ?_,
      ?_, ?_, ?_⟩
    · rw [fill_elements, htowers]
      show (fill_elements L elements _).bind _ = _
      rw [hfill, List.flatMap_cons, List.length_append]
      rfl
    · rw [List.map_cons, List.map_cons, hrefills.formats]
    · rw [List.map_cons, List.map_cons, hrefills.counts, List.length_zipWith, ← hlength, Nat.min_self]
    · rw [List.flatMap_cons, List.flatMap_cons, hrefills.towers]
      conv_rhs => rw [← hsplit]
      rw [List.zipWith_append hlength]

theorem fill_elements_spec (elements : List DcrtPoly) :
    ∀ {sim_elements : List Json} {elements' : List DcrtPoly} {count : ℕ},
      fill_elements L elements sim_elements = some (elements', count) →
        count ≤ (elements.flatMap DcrtPoly.towers).length ∧
        ∀ (es : List ReplayElement) rest, sim_elements = es.map element_json ++ rest →
          es.length = (elements.flatMap DcrtPoly.towers).length →
            count = (elements.flatMap DcrtPoly.towers).length →
              List.Forall₂ Fillable es (elements.flatMap DcrtPoly.towers) := by
  induction elements with
  | nil =>
    intro sim_elements elements' count h
    obtain ⟨-, rfl⟩ : [] = elements' ∧ 0 = count := by simpa [fill_elements] using h
    refine ⟨Nat.zero_le _, fun es rest _ hlength _ => ?_⟩
    obtain rfl := List.length_eq_zero_iff.mp hlength
    exact .nil
  | cons dcrt elements ih =>
    intro sim_elements elements' count h
    simp only [fill_elements, Option.bind_eq_bind, Option.bind_eq_some_iff] at h
    obtain ⟨⟨towers', filled, left⟩, hfirst, ⟨later, more⟩, hrest, heq⟩ := h
    obtain ⟨-, rfl⟩ : { dcrt with towers := towers' } :: later = elements' ∧ filled + more = count := by
      simpa using heq
    obtain ⟨hfilled, hfirst⟩ := fill_towers_spec dcrt.towers hfirst
    obtain ⟨hmore, hrest⟩ := ih hrest
    rw [List.flatMap_cons, List.length_append]
    refine ⟨by omega, fun es rest hes hlength hcount => ?_⟩
    have hsplit := List.take_append_drop dcrt.towers.length es
    have htake : (es.take dcrt.towers.length).length = dcrt.towers.length := by
      rw [List.length_take]
      omega
    have hes' : sim_elements = (es.take dcrt.towers.length).map element_json ++
        ((es.drop dcrt.towers.length).map element_json ++ rest) := by
      rw [← List.append_assoc, ← List.map_append, hsplit, hes]
    obtain ⟨hleft, hall⟩ := hfirst _ _ hes' htake
    have hdrop : (es.drop dcrt.towers.length).length = (elements.flatMap DcrtPoly.towers).length := by
      rw [List.length_drop]
      omega
    rw [← hsplit]
    exact List.rel_append (hall (by omega)) (hrest _ rest hleft hdrop (by omega))

end Filling

/-! ## What a replay hands back -/

/-- Every tower of the template has a computed element of its length. There may be more. -/
def Complete (ct : Ciphertext) (o : ReplayOutput) : Prop :=
  List.Forall₂ Fillable (o.elements.take ct.towers.length) ct.towers

def OwnModuli (ct : Ciphertext) (o : ReplayOutput) : Prop :=
  ∀ p ∈ (o.elements.take ct.towers.length).zip ct.towers, OwnModulus p.1 p.2

/-- The template with the values of an output. -/
structure Refilled (ct : Ciphertext) (o : ReplayOutput) (ct' : Ciphertext) : Prop where
  shell : ct'.shell = ct.shell
  refills : Refills ct.elements ct'.elements
    (List.zipWith filledTower ct.towers (o.elements.take ct.towers.length))

section Results

variable {L : CiphertextLibrary} {J : JsonLibrary} {d : Dir} {o : ReplayOutput} {ct : Ciphertext}

theorem elements_split (o : ReplayOutput) (n : ℕ) : o.elements.map element_json =
    (o.elements.take n).map element_json ++ (o.elements.drop n).map element_json := by
  rw [← List.map_append, List.take_append_drop]

theorem refill_complete (hL : L.Documented) (hcomplete : Complete ct o) (hown : OwnModuli ct o) :
    ∃ ct', refill L ct (o.elements.map element_json) = some ct' ∧ Refilled ct o ct' := by
  have hboth : List.Forall₂ (fun e t => Fillable e t ∧ OwnModulus e t) (o.elements.take ct.towers.length)
      (ct.elements.flatMap DcrtPoly.towers) := by
    obtain ⟨hlength, hzip⟩ := List.forall₂_iff_zip.mp hcomplete
    exact List.forall₂_iff_zip.mpr ⟨hlength, fun hmem => ⟨hzip hmem, hown _ hmem⟩⟩
  obtain ⟨elements', hfill, hrefills⟩ :=
    fill_elements_complete hL ct.elements ((o.elements.drop ct.towers.length).map element_json) hboth
  rw [← elements_split] at hfill
  have hlength : ¬ (o.elements.map element_json).length < ct.towers.length := by
    have htake := hcomplete.length_eq
    rw [List.length_take] at htake
    rw [List.length_map]
    omega
  refine ⟨{ ct with elements := elements' }, ?_, rfl, hrefills⟩
  rw [refill]
  dsimp only
  rw [if_neg hlength, hfill]
  exact if_neg (not_not.mpr rfl)

theorem refill_incomplete (hincomplete : ¬ Complete ct o) : refill L ct (o.elements.map element_json) = none := by
  rw [refill]
  dsimp only
  split
  · rfl
  · rename_i hlength
    rw [List.length_map, not_lt] at hlength
    rcases hfill : fill_elements L ct.elements (o.elements.map element_json) with - | ⟨elements', filled⟩
    · rfl
    · refine if_pos fun hfilled => hincomplete ?_
      rw [elements_split o ct.towers.length] at hfill
      obtain ⟨-, hspec⟩ := fill_elements_spec ct.elements hfill
      refine hspec _ _ rfl ?_ hfilled
      rw [List.length_take]
      exact Nat.min_eq_left hlength

/-- What becomes of an output. -/
def outcome (L : CiphertextLibrary) (d : Dir) (o : ReplayOutput) : Option Ciphertext :=
  ((d (templateFile o.name)).bind L.deserialize).bind fun ct => refill L ct (o.elements.map element_json)

theorem reconstruct_probe_output (o : ReplayOutput) : reconstruct_probe L d (output_json o) =
    some ((outcome L d o).elim d fun ct => d.put (probeFile o.name) (L.serialize ct)) := by
  have hname : (output_json o).textAt (str "name") = some o.name := rfl
  have helements : (output_json o).member (str "elements") = some (.arr (o.elements.map element_json)) := rfl
  rw [reconstruct_probe, hname, outcome]
  dsimp only [Option.bind_eq_bind, Option.bind_some]
  rcases (d (templateFile o.name)).bind L.deserialize with - | ct
  · rfl
  · rw [helements]
    dsimp only [Option.bind_some]
    rcases refill L ct (o.elements.map element_json) with - | ct'
    · rfl
    · rfl

theorem probeFile_inj {name name' : Str} (h : probeFile name = probeFile name') : name = name' :=
  List.append_cancel_right (List.append_cancel_left h)

theorem templateFile_ne (name name' : Str) : templateFile name ≠ probeFile name' := by
  intro h
  have hhead : some (99 : UInt8) = some 115 := congrArg List.head? h
  exact absurd hhead (by decide)

/-- The loop over outputs: each has its own outcome. -/
theorem reconstruct_outputs (outputs : List ReplayOutput) : ∀ d : Dir, (outputs.map ReplayOutput.name).Nodup →
    ∃ d', (outputs.map output_json).foldlM (reconstruct_probe L) d = some d' ∧
      (∀ name, name ∉ outputs.map ReplayOutput.name → d' (probeFile name) = d (probeFile name)) ∧
      ∀ o ∈ outputs, d' (probeFile o.name) = ((outcome L d o).map L.serialize).or (d (probeFile o.name)) := by
  induction outputs with
  | nil => exact fun d _ => ⟨d, rfl, fun _ _ => rfl, List.forall_mem_nil _⟩
  | cons o outputs ih =>
    intro d hnodup
    obtain ⟨hnot, hnodup⟩ := List.nodup_cons.mp hnodup
    obtain ⟨d', hrest, hothers, hown⟩ := ih ((outcome L d o).elim d fun ct => d.put (probeFile o.name) (L.serialize ct)) hnodup
    have hput : ∀ path, path ≠ probeFile o.name →
        ((outcome L d o).elim d fun ct => d.put (probeFile o.name) (L.serialize ct)) path = d path := by
      intro path hne
      cases outcome L d o with
      | none => rfl
      | some ct => exact Function.update_of_ne hne _ _
    have hself : ((outcome L d o).elim d fun ct => d.put (probeFile o.name) (L.serialize ct)) (probeFile o.name) =
        ((outcome L d o).map L.serialize).or (d (probeFile o.name)) := by
      cases outcome L d o with
      | none => rfl
      | some ct => exact Function.update_self _ _ _
    refine ⟨d', ?_, fun name hname => ?_, List.forall_mem_cons.mpr ⟨?_, fun o' ho' => ?_⟩⟩
    · rw [List.map_cons, List.foldlM_cons, reconstruct_probe_output]
      exact hrest
    · obtain ⟨hne, hname⟩ := not_or.mp (mt List.mem_cons.mpr hname)
      rw [hothers name hname, hput _ fun h => hne (probeFile_inj h)]
    · rw [hothers o.name hnot, hself]
    · have hne : o'.name ≠ o.name := fun h => hnot (h ▸ List.mem_map_of_mem ho')
      rw [hown o' ho', hput _ fun h => hne (probeFile_inj h), outcome, hput _ (templateFile_ne _ _)]
      rfl

theorem result_congr {d' : Dir} {name : Str} (h : d' (probeFile name) = d (probeFile name)) :
    result L d' name = result L d name := by
  rw [result, h, result]

theorem replayOutputsFile_ne (name : Str) : templateFile name ≠ replayOutputsFile ∧ probeFile name ≠ replayOutputsFile := by
  constructor
  · intro h
    have hhead : some (99 : UInt8) = some 102 := congrArg List.head? h
    exact absurd hhead (by decide)
  · intro h
    have hhead : some (115 : UInt8) = some 102 := congrArg List.head? h
    exact absurd hhead (by decide)

/-- The outputs of a replay, from file to files. -/
theorem reconstruct_written (outputs : List ReplayOutput) (d : Dir) (hnodup : (outputs.map ReplayOutput.name).Nodup)
    (hjson : J.parse (J.dump (replay_outputs_json outputs)) = some (replay_outputs_json outputs)) :
    ∃ d', reconstruct_probes_in L J (d.put replayOutputsFile (J.dump (replay_outputs_json outputs))) = some d' ∧
      (∀ name, name ∉ outputs.map ReplayOutput.name → d' (probeFile name) = d (probeFile name)) ∧
      ∀ o ∈ outputs, d' (probeFile o.name) = ((outcome L d o).map L.serialize).or (d (probeFile o.name)) := by
  obtain ⟨d', hloop, hothers, hown⟩ :=
    reconstruct_outputs (L := L) outputs (d.put replayOutputsFile (J.dump (replay_outputs_json outputs))) hnodup
  have hprobe : ∀ name, (d.put replayOutputsFile (J.dump (replay_outputs_json outputs))) (probeFile name) =
      d (probeFile name) := fun name => Function.update_of_ne (replayOutputsFile_ne name).2 _ _
  have htemplate : ∀ name, (d.put replayOutputsFile (J.dump (replay_outputs_json outputs))) (templateFile name) =
      d (templateFile name) := fun name => Function.update_of_ne (replayOutputsFile_ne name).1 _ _
  refine ⟨d', ?_, fun name hname => (hothers name hname).trans (hprobe name), fun o ho => ?_⟩
  · have hfile : (d.put replayOutputsFile (J.dump (replay_outputs_json outputs))) replayOutputsFile =
        some (J.dump (replay_outputs_json outputs)) := Function.update_self _ _ _
    rw [reconstruct_probes_in, hfile, Option.bind_some, hjson]
    exact hloop
  · rw [hown o ho, outcome, htemplate, hprobe]
    rfl

/-- A result, by the outcome of its output. -/
theorem result_outcome {d' : Dir} (hL : L.Documented) (hct : (d (templateFile o.name)).bind L.deserialize = some ct)
    (hdone : d' (probeFile o.name) = ((outcome L d o).map L.serialize).or (d (probeFile o.name))) :
    (Complete ct o → OwnModuli ct o → ∃ ct', result L d' o.name = some ct' ∧ Refilled ct o ct') ∧
      (¬ Complete ct o → result L d' o.name = result L d o.name) := by
  rw [outcome, hct, Option.bind_some] at hdone
  constructor
  · intro hcomplete hmoduli
    obtain ⟨ct', hrefill, hrefilled⟩ := refill_complete hL hcomplete hmoduli
    refine ⟨ct', ?_, hrefilled⟩
    rw [result, hdone, hrefill]
    exact hL.reads ct'
  · intro hincomplete
    rw [refill_incomplete hincomplete] at hdone
    exact result_congr hdone

end Results

/-- **A result is all of a replay's, or what was there before.** Once the outputs of a
replay have been written, the probe of a name whose template is complete reads as that
template with the values of the output, tower by tower. One that is not complete, or is no
output of this replay, reads as it did before the replay. -/
theorem result_of_replay (L : CiphertextLibrary) (J : JsonLibrary) (hL : L.Documented) (d : Dir)
    (outputs : List ReplayOutput) (hnodup : (outputs.map ReplayOutput.name).Nodup)
    (hjson : J.parse (J.dump (replay_outputs_json outputs)) = some (replay_outputs_json outputs)) :
    ∃ d', reconstruct_probes_in L J (d.put replayOutputsFile (J.dump (replay_outputs_json outputs))) = some d' ∧
      (∀ o ∈ outputs, ∀ ct, (d (templateFile o.name)).bind L.deserialize = some ct →
        (Complete ct o → OwnModuli ct o → ∃ ct', result L d' o.name = some ct' ∧ Refilled ct o ct') ∧
        (¬ Complete ct o → result L d' o.name = result L d o.name)) ∧
      ∀ name, name ∉ outputs.map ReplayOutput.name → result L d' name = result L d name := by
  obtain ⟨d', hrun, hothers, hown⟩ := reconstruct_written (L := L) outputs d hnodup hjson
  exact ⟨d', hrun, fun o ho _ hct => result_outcome hL hct (hown o ho), fun name hname => result_congr (hothers name hname)⟩

/-! ## A probe -/

/-- A ciphertext as one number. -/
def Ciphertext.number (ct : Ciphertext) : ℕ :=
  Encodable.encode (ct.shell.map UInt8.toNat, ct.elements.map fun dcrt => (decide (dcrt.format = .Evaluation), dcrt.towers))

def ciphertextOf (n : ℕ) : Option Ciphertext :=
  (Encodable.decode n : Option (List ℕ × List (Bool × List (ℕ × List ℕ)))).map fun code =>
    ⟨code.1.map UInt8.ofNat, code.2.map fun dcrt => ⟨if dcrt.1 then .Evaluation else .Coefficient, dcrt.2⟩⟩

theorem ciphertextOf_number (ct : Ciphertext) : ciphertextOf ct.number = some ct := by
  obtain ⟨shell, elements⟩ := ct
  have hshell : (shell.map UInt8.toNat).map UInt8.ofNat = shell := by
    rw [List.map_map]
    exact (List.map_congr_left fun _ _ => UInt8.ofNat_toNat).trans (List.map_id shell)
  have helements : (elements.map fun dcrt => (decide (dcrt.format = .Evaluation), dcrt.towers)).map
      (fun dcrt => (⟨if dcrt.1 then .Evaluation else .Coefficient, dcrt.2⟩ : DcrtPoly)) = elements := by
    rw [List.map_map]
    refine (List.map_congr_left fun dcrt _ => ?_).trans (List.map_id elements)
    obtain ⟨format, towers⟩ := dcrt
    cases format with
    | _ => rfl
  rw [ciphertextOf, Ciphertext.number, Encodable.encodek, Option.map_some]
  exact congrArg some (congrArg₂ Ciphertext.mk hshell helements)

/-- A library that writes that number in bytes. -/
def referenceCiphertexts : CiphertextLibrary where
  serialize ct := (Nat.digits 256 ct.number).map UInt8.ofNat
  deserialize b := ciphertextOf (Nat.ofDigits 256 (b.map UInt8.toNat))
  SetValues t modulus values := if modulus = t.1 ∧ values.length = t.2.length then some (modulus, values) else none

theorem referenceCiphertexts_documented : referenceCiphertexts.Documented where
  reads ct := by
    have hdigits : ((Nat.digits 256 ct.number).map UInt8.ofNat).map UInt8.toNat = Nat.digits 256 ct.number := by
      rw [List.map_map]
      refine (List.map_congr_left fun x hx => ?_).trans (List.map_id _)
      exact UInt8.toNat_ofNat_of_lt (Nat.digits_lt_base (by decide) hx)
    show ciphertextOf (Nat.ofDigits 256 (((Nat.digits 256 ct.number).map UInt8.ofNat).map UInt8.toNat)) = some ct
    rw [hdigits, Nat.ofDigits_digits, ciphertextOf_number]
  sets t values hlength := if_pos ⟨rfl, hlength⟩

def oneResult : List ReplayOutput := [⟨str "y", [⟨2, 17, .computed, [6]⟩]⟩]

/-- The outputs of this replay, as the library writes them. -/
def oneResultText : Bytes := str "\x7b\n  \"outputs\": [\n    \x7b\n      \"elements\": [\n        \x7b\n" ++
  str "          \"addr_id\": 2,\n          \"modulus\": 17,\n          \"status\": \"computed\",\n" ++
  str "          \"values\": [\n            6\n          ]\n        \x7d\n      ],\n" ++
  str "      \"name\": \"y\"\n    \x7d\n  ]\n\x7d\n"

def oneResultJson : JsonLibrary where
  dump _ := oneResultText
  parse b := if b = oneResultText then some (replay_outputs_json oneResult) else none

theorem oneResultJson_reads :
    oneResultJson.parse (oneResultJson.dump (replay_outputs_json oneResult)) = some (replay_outputs_json oneResult) := by
  simp only [oneResultJson, if_true]

/-- A template of one residue. -/
def oneTemplate : Ciphertext := ⟨[], [⟨.Evaluation, [(17, [3])]⟩]⟩

def oneDirectory : Dir := Dir.put (fun _ => none) (templateFile (str "y")) (referenceCiphertexts.serialize oneTemplate)

theorem oneDirectory_template :
    (oneDirectory (templateFile (str "y"))).bind referenceCiphertexts.deserialize = some oneTemplate := by
  rw [oneDirectory, Dir.put, Function.update_self]
  exact referenceCiphertexts_documented.reads oneTemplate

/-- A probe of the value 6. -/
theorem result_of_replay_one : ∃ d', reconstruct_probes_in referenceCiphertexts oneResultJson
      (oneDirectory.put replayOutputsFile oneResultText) = some d' ∧
    ∃ ct', result referenceCiphertexts d' (str "y") = some ct' ∧ ct'.towers = [(17, [6])] := by
  obtain ⟨d', hd', hresults, -⟩ := result_of_replay referenceCiphertexts oneResultJson referenceCiphertexts_documented
    oneDirectory oneResult (List.nodup_singleton _) oneResultJson_reads
  obtain ⟨hcomplete, -⟩ := hresults _ List.mem_cons_self oneTemplate oneDirectory_template
  obtain ⟨ct', hct', hrefilled⟩ := hcomplete (.cons ⟨rfl, rfl⟩ .nil) (by
    rintro p (_ | ⟨_, hp⟩)
    · exact .inr rfl
    · exact absurd hp List.not_mem_nil)
  exact ⟨d', hd', ct', hct', hrefilled.refills.towers⟩

/-! ## Two replays -/

/-- Polynomials of the same formats and sizes, with the same towers in all. -/
theorem Refills.unique {elements : List DcrtPoly} {towers : List (ℕ × Poly)} :
    ∀ {elements₁ elements₂ : List DcrtPoly}, Refills elements elements₁ towers → Refills elements elements₂ towers →
      elements₁ = elements₂ := by
  have hsame : ∀ elements₁ elements₂ : List DcrtPoly,
      elements₁.map DcrtPoly.format = elements₂.map DcrtPoly.format →
      elements₁.map (fun dcrt => dcrt.towers.length) = elements₂.map (fun dcrt => dcrt.towers.length) →
      elements₁.flatMap DcrtPoly.towers = elements₂.flatMap DcrtPoly.towers → elements₁ = elements₂ := by
    intro elements₁
    induction elements₁ with
    | nil =>
      intro elements₂ hformats _ _
      exact (List.map_eq_nil_iff.mp hformats.symm).symm
    | cons dcrt elements₁ ih =>
      intro elements₂ hformats hcounts htowers
      cases elements₂ with
      | nil => exact absurd hformats (by simp)
      | cons dcrt₂ elements₂ =>
        rw [List.map_cons, List.map_cons, List.cons.injEq] at hformats hcounts
        rw [List.flatMap_cons, List.flatMap_cons] at htowers
        obtain ⟨hfirst, hrest⟩ := List.append_inj htowers hcounts.1
        rw [ih elements₂ hformats.2 hcounts.2 hrest]
        obtain ⟨format, towers⟩ := dcrt
        obtain ⟨format₂, towers₂⟩ := dcrt₂
        obtain rfl : format = format₂ := hformats.1
        obtain rfl : towers = towers₂ := hfirst
        rfl
  intro elements₁ elements₂ h₁ h₂
  exact hsame _ _ (h₁.formats.trans h₂.formats.symm) (h₁.counts.trans h₂.counts.symm) (h₁.towers.trans h₂.towers.symm)

section Views

variable {L : CiphertextLibrary} {ct : Ciphertext} {o o' : ReplayOutput}

/-- What a template needs of an output is in what the output shows. -/
theorem complete_iff_view : Complete ct o ↔
    List.Forall₂ (fun (v : ℕ × ElementStatus × Poly) t => v.2.1 = .computed ∧ v.2.2.length = t.2.length)
      (o.view.2.take ct.towers.length) ct.towers := by
  rw [Complete, ReplayOutput.view, ← List.map_take, List.forall₂_map_left_iff]
  exact ⟨fun h => h.imp fun _ _ h => ⟨h.computed, h.length⟩, fun h => h.imp fun _ _ h => ⟨h.1, h.2⟩⟩

theorem filled_view : List.zipWith filledTower ct.towers (o.elements.take ct.towers.length) =
    List.zipWith (fun t (v : ℕ × ElementStatus × Poly) => (t.1, v.2.2)) ct.towers (o.view.2.take ct.towers.length) := by
  rw [ReplayOutput.view, ← List.map_take, List.zipWith_map_right]
  rfl

/-- Outputs that show the same fill a template alike. -/
theorem refill_view (hL : L.Documented) (hview : o.view = o'.view) (hown : OwnModuli ct o) (hown' : OwnModuli ct o') :
    refill L ct (o.elements.map element_json) = refill L ct (o'.elements.map element_json) := by
  have hiff : Complete ct o ↔ Complete ct o' := by
    rw [complete_iff_view, complete_iff_view, hview]
  by_cases hcomplete : Complete ct o
  · obtain ⟨ct₁, hrefill₁, h₁⟩ := refill_complete hL hcomplete hown
    obtain ⟨ct₂, hrefill₂, h₂⟩ := refill_complete hL (hiff.mp hcomplete) hown'
    have hrefills := h₂.refills
    rw [filled_view, ← hview, ← filled_view] at hrefills
    obtain ⟨shell₁, elements₁⟩ := ct₁
    obtain ⟨shell₂, elements₂⟩ := ct₂
    obtain rfl : shell₁ = shell₂ := h₁.shell.trans h₂.shell.symm
    obtain rfl : elements₁ = elements₂ := h₁.refills.unique hrefills
    rw [hrefill₁, hrefill₂]
  · rw [refill_incomplete hcomplete, refill_incomplete (mt hiff.mpr hcomplete)]

end Views

/-- **Two replays that show the same hand back the same.** Over directories with the same
templates and the same probes of before, the moduli that their outputs come with make no
difference, as long as each is a tower's own or none. -/
theorem same_views_same_results (L : CiphertextLibrary) (J₁ J₂ : JsonLibrary) (hL : L.Documented) {d₁ d₂ : Dir}
    (htemplates : ∀ name, d₁ (templateFile name) = d₂ (templateFile name))
    (hprobes : ∀ name, d₁ (probeFile name) = d₂ (probeFile name)) {outputs₁ outputs₂ : List ReplayOutput}
    (hviews : outputs₁.map ReplayOutput.view = outputs₂.map ReplayOutput.view)
    (hnodup : (outputs₁.map ReplayOutput.name).Nodup)
    (hjson₁ : J₁.parse (J₁.dump (replay_outputs_json outputs₁)) = some (replay_outputs_json outputs₁))
    (hjson₂ : J₂.parse (J₂.dump (replay_outputs_json outputs₂)) = some (replay_outputs_json outputs₂))
    (hown₁ : ∀ o ∈ outputs₁, ∀ ct, (d₁ (templateFile o.name)).bind L.deserialize = some ct → OwnModuli ct o)
    (hown₂ : ∀ o ∈ outputs₂, ∀ ct, (d₂ (templateFile o.name)).bind L.deserialize = some ct → OwnModuli ct o) :
    ∃ d₁' d₂', reconstruct_probes_in L J₁ (d₁.put replayOutputsFile (J₁.dump (replay_outputs_json outputs₁))) = some d₁' ∧
      reconstruct_probes_in L J₂ (d₂.put replayOutputsFile (J₂.dump (replay_outputs_json outputs₂))) = some d₂' ∧
      ∀ name, result L d₁' name = result L d₂' name := by
  have hnames : outputs₁.map ReplayOutput.name = outputs₂.map ReplayOutput.name := by
    have hfst := congrArg (List.map Prod.fst) hviews
    rw [List.map_map, List.map_map] at hfst
    exact hfst
  obtain ⟨d₁', hrun₁, hothers₁, hdone₁⟩ := reconstruct_written (L := L) outputs₁ d₁ hnodup hjson₁
  obtain ⟨d₂', hrun₂, hothers₂, hdone₂⟩ := reconstruct_written (L := L) outputs₂ d₂ (hnames ▸ hnodup) hjson₂
  refine ⟨d₁', d₂', hrun₁, hrun₂, fun name => result_congr ?_⟩
  by_cases hname : name ∈ outputs₁.map ReplayOutput.name
  · obtain ⟨o, ho, rfl⟩ := List.mem_map.mp hname
    -- the output of the other replay that shows the same
    have hshown : o.view ∈ outputs₂.map ReplayOutput.view := hviews ▸ List.mem_map_of_mem ho
    obtain ⟨o', ho', hview⟩ := List.mem_map.mp hshown
    have hsame : o'.name = o.name := congrArg Prod.fst hview
    have houtcome : outcome L d₁ o = outcome L d₂ o' := by
      rw [outcome, outcome, hsame, ← htemplates]
      rcases hct : (d₁ (templateFile o.name)).bind L.deserialize with - | ct
      · rfl
      · have hct' : (d₂ (templateFile o'.name)).bind L.deserialize = some ct := by
          rw [hsame, ← htemplates, hct]
        exact refill_view hL hview.symm (hown₁ o ho ct hct) (hown₂ o' ho' ct hct')
    have hsecond := hdone₂ o' ho'
    rw [hsame] at hsecond
    rw [hdone₁ o ho, hsecond, houtcome, hprobes]
  · rw [hothers₁ name hname, hothers₂ name (hnames ▸ hname), hprobes]

/-- The same output from a replay whose simulator knew no modulus. -/
def copiedResult : List ReplayOutput := [⟨str "y", [⟨2, COPY_MODULUS, .computed, [6]⟩]⟩]

def copiedResultText : Bytes := str "\x7b\n  \"outputs\": [\n    \x7b\n      \"elements\": [\n        \x7b\n" ++
  str "          \"addr_id\": 2,\n          \"modulus\": 18446744073709551615,\n" ++
  str "          \"status\": \"computed\",\n          \"values\": [\n            6\n          ]\n" ++
  str "        \x7d\n      ],\n      \"name\": \"y\"\n    \x7d\n  ]\n\x7d\n"

def copiedResultJson : JsonLibrary where
  dump _ := copiedResultText
  parse b := if b = copiedResultText then some (replay_outputs_json copiedResult) else none

/-- The same probe, with a modulus and without. -/
theorem same_views_same_results_one : ∃ d₁' d₂', reconstruct_probes_in referenceCiphertexts oneResultJson
      (oneDirectory.put replayOutputsFile oneResultText) = some d₁' ∧
    reconstruct_probes_in referenceCiphertexts copiedResultJson
      (oneDirectory.put replayOutputsFile copiedResultText) = some d₂' ∧
    ∀ name, result referenceCiphertexts d₁' name = result referenceCiphertexts d₂' name := by
  have hread : copiedResultJson.parse (copiedResultJson.dump (replay_outputs_json copiedResult)) =
      some (replay_outputs_json copiedResult) := by
    simp only [copiedResultJson, if_true]
  have hsame : ∀ name, oneDirectory (templateFile name) = oneDirectory (templateFile name) := fun _ => rfl
  have hviews : oneResult.map ReplayOutput.view = copiedResult.map ReplayOutput.view := rfl
  refine same_views_same_results referenceCiphertexts oneResultJson copiedResultJson referenceCiphertexts_documented
    hsame (fun _ => rfl) hviews (List.nodup_singleton _) oneResultJson_reads hread ?_ ?_
  · intro o ho ct hct
    obtain rfl := List.mem_singleton.mp ho
    obtain rfl : oneTemplate = ct := Option.some.inj (oneDirectory_template.symm.trans hct)
    rintro p (_ | ⟨_, hp⟩)
    · exact .inr rfl
    · exact absurd hp List.not_mem_nil
  · intro o ho ct hct
    obtain rfl := List.mem_singleton.mp ho
    obtain rfl : oneTemplate = ct := Option.some.inj (oneDirectory_template.symm.trans hct)
    rintro p (_ | ⟨_, hp⟩)
    · exact .inl rfl
    · exact absurd hp List.not_mem_nil

end Fhetch
