/-
The process that recorded and the worker of its project: the same replay, of the
same recording, from memory and from disk.

Where each item is tagged once, what the process stored under its names is what the files
hold, in another order. The order does not matter to a memory whose addresses differ. A
worker refuses a project in which an address that is read first has no data. Where all of
them have, the process has nothing to look for in the lineage of copies either, and the
two runs differ in what the trace never reads alone.
-/
import Fhetch.ProjectReplay
import Fhetch.Lib.Cuts
import Mathlib.Tactic.Abel

set_option autoImplicit false

namespace Fhetch

open Lib Runs

/-! ## Items that are tagged once -/

/-- What the process keeps of a capture, under the name of its item. -/
def Capture.record (c : Capture) : CapturedRecord CapturedElement := ⟨c.tag.item.name, .SRP, c.elements⟩

/-- No item is tagged twice, no input is called like a key, and everything that a file
counts is in it. -/
structure TaggedOnce (l : List Capture) : Prop where
  nodup : (l.map fun c => c.tag.item.name).Nodup
  inputs : ∀ c ∈ l, ∀ name, c.tag.item = .input name → name ∉ keyNames
  counted : ∀ c ∈ l, c.tag.file.Counted

def Item.isInput : Item → Bool
  | input _ => true
  | _ => false

/-- The inputs among captures, and those of an item. -/
def inputsAmong (l : List Capture) : List Capture := l.filter (·.tag.item.isInput)

def among (l : List Capture) (item : Item) : List Capture := l.filter (·.tag.item = item)

/-- What a worker gathers of captures. -/
def gathered (l : List Capture) : List CapturedElement :=
  (inputsAmong l).flatMap Capture.elements ++ ((among l .mk).flatMap Capture.elements ++
    ((among l .rk).flatMap Capture.elements ++ (among l .bp).flatMap Capture.elements))

namespace TaggedOnce

variable {l : List Capture} {c : Capture}

theorem tail (h : TaggedOnce (c :: l)) : TaggedOnce l where
  nodup := (List.nodup_cons.mp h.nodup).2
  inputs c' hc' := h.inputs c' (List.mem_cons_of_mem _ hc')
  counted c' hc' := h.counted c' (List.mem_cons_of_mem _ hc')

theorem item_nodup (h : TaggedOnce l) : (l.map fun c => c.tag.item).Nodup := by
  have hnodup : ((l.map fun c => c.tag.item).map Item.name).Nodup := by
    rw [List.map_map]
    exact h.nodup
  exact hnodup.of_map _

/-- The one capture of an item is the last one. -/
theorem latest_of_mem (h : TaggedOnce l) (hc : c ∈ l) : latest l c.tag.item = some c := by
  rw [latest]
  have hitems := h.item_nodup
  obtain ⟨c', hc'⟩ : ∃ c', l.reverse.find? (·.tag.item = c.tag.item) = some c' :=
    Option.isSome_iff_exists.mp (List.find?_isSome.mpr ⟨c, List.mem_reverse.mpr hc, decide_eq_true rfl⟩)
  have hmem := List.mem_reverse.mp (List.mem_of_find?_eq_some hc')
  have hitem := List.find?_some hc'
  rw [decide_eq_true_iff] at hitem
  rw [hc', List.inj_on_of_nodup_map hitems hmem hc hitem]

theorem given_eq (h : TaggedOnce l) (hc : c ∈ l) : c.given = some c.elements := if_pos (h.counted c hc)

/-- What is not called like a key is an input. -/
theorem item_of_name (h : TaggedOnce l) (hc : c ∈ l) :
    c.tag.item.name ∉ keyNames ↔ ∃ name, c.tag.item = .input name := by
  constructor
  · intro hname
    cases hitem : c.tag.item with
    | input name => exact ⟨name, rfl⟩
    | mk => exact absurd (by rw [hitem]; exact List.mem_cons_self) hname
    | rk => exact absurd (by rw [hitem]; exact List.mem_cons_of_mem _ List.mem_cons_self) hname
    | bp =>
      exact absurd (by rw [hitem]; exact List.mem_cons_of_mem _ (List.mem_cons_of_mem _ List.mem_cons_self)) hname
  · rintro ⟨name, hitem⟩
    rw [hitem]
    exact h.inputs c hc name hitem

/-- A worker is given everything, in another order. -/
theorem gathered_perm (l : List Capture) : (gathered l).Perm (l.flatMap Capture.elements) := by
  refine Multiset.coe_eq_coe.mp ?_
  induction l with
  | nil => rfl
  | cons c l ih =>
    simp only [gathered, ← Multiset.coe_add, List.flatMap_cons] at ih ⊢
    rw [← ih]
    cases hitem : c.tag.item with
    | _ =>
      simp [inputsAmong, among, hitem, Item.isInput, ← Multiset.coe_add]
      abel

theorem isInput_iff (h : TaggedOnce l) (hc : c ∈ l) : c.tag.item.name ∉ keyNames ↔ c.tag.item.isInput = true := by
  rw [h.item_of_name hc]
  cases c.tag.item with
  | input name => exact ⟨fun _ => rfl, fun _ => ⟨name, rfl⟩⟩
  | _ => exact ⟨fun ⟨_, h⟩ => absurd h (by simp), fun h => absurd h (by decide)⟩

/-- The names that go into the index. -/
theorem indexed_eq (h : TaggedOnce l) : indexed ((l.filter (·.elements ≠ [])).map Capture.record) =
    ((inputsAmong l).filter (·.elements ≠ [])).map fun c => c.tag.item.name := by
  rw [indexed_eq_filter, List.map_map, List.filter_map, inputsAmong, List.filter_filter, List.filter_filter]
  refine congrArg (List.map _) (List.filter_congr fun c hc => ?_)
  rw [Bool.eq_iff_iff, Bool.and_eq_true, Bool.and_eq_true, Function.comp_apply, decide_eq_true_iff, and_comm]
  exact and_congr_right fun _ => h.isInput_iff hc

theorem after_of_mem (h : TaggedOnce l) (s : Shelf) (hc : c ∈ l) :
    s.after l c.tag.item = some (some c.elements) := by
  rw [Shelf.after, h.latest_of_mem hc, Option.map_some, h.given_eq hc]
  rfl

theorem among_of_mem (h : TaggedOnce l) (hc : c ∈ l) : among l c.tag.item = [c] := by
  have hitems := h.item_nodup
  clear h
  induction l with
  | nil => exact absurd hc List.not_mem_nil
  | cons c' l ih =>
    obtain ⟨hnot, hrest⟩ := List.nodup_cons.mp hitems
    rw [among, List.filter_cons]
    rcases List.mem_cons.mp hc with rfl | hc
    · have hnone : among l c.tag.item = [] := List.filter_eq_nil_iff.mpr fun c'' hc'' heq =>
        hnot (List.mem_map.mpr ⟨c'', hc'', of_decide_eq_true heq⟩)
      rw [if_pos (decide_eq_true rfl)]
      exact congrArg _ hnone
    · have hne : ¬ decide (c'.tag.item = c.tag.item) = true := fun heq =>
        hnot (List.mem_map.mpr ⟨c, hc, (of_decide_eq_true heq).symm⟩)
      rw [if_neg hne]
      exact ih hc hrest

/-- A key that was tagged, or that there is none of. -/
theorem key_eq (h : TaggedOnce l) {s : Shelf} {item : Item} (hs : s item = none) :
    (s.after l item).getD (some []) = some ((among l item).flatMap Capture.elements) := by
  by_cases hmem : ∃ c ∈ l, c.tag.item = item
  · obtain ⟨c, hc, rfl⟩ := hmem
    rw [h.after_of_mem s hc, h.among_of_mem hc]
    simp
  · have hnone : among l item = [] := List.filter_eq_nil_iff.mpr fun c hc heq =>
      hmem ⟨c, hc, of_decide_eq_true heq⟩
    have hlatest : latest l item = none := by
      rw [latest, List.find?_eq_none]
      exact fun c hc heq => hmem ⟨c, List.mem_reverse.mp hc, of_decide_eq_true heq⟩
    rw [Shelf.after, hlatest, hs, hnone]
    rfl

/-- **A worker gathers everything.** -/
theorem gather_eq (h : TaggedOnce l) {s : Shelf} (hs : ∀ item, s item = none) :
    (s.after l).gather (indexed ((l.filter (·.elements ≠ [])).map Capture.record)) = some (gathered l) := by
  have hinputs : (((inputsAmong l).filter (·.elements ≠ [])).map fun c => c.tag.item.name).mapM
      (fun name => (s.after l (.input name)).join) =
        some (((inputsAmong l).filter (·.elements ≠ [])).map Capture.elements) := by
    rw [List.mapM_map]
    refine mapM_of_some fun c hc => ?_
    obtain ⟨hc, hinput⟩ := List.mem_filter.mp (List.mem_of_mem_filter hc)
    obtain ⟨name, hitem⟩ := (h.item_of_name hc).mp ((h.isInput_iff hc).mpr hinput)
    have hafter := h.after_of_mem s hc
    show (s.after l (.input c.tag.item.name)).join = _
    rw [hitem] at hafter ⊢
    show (s.after l (.input name)).join = _
    rw [hafter]
    rfl
  -- a name without elements is not in the index, and nothing is missing without it
  have hflatten : (((inputsAmong l).filter (·.elements ≠ [])).map Capture.elements).flatten =
      (inputsAmong l).flatMap Capture.elements := by
    induction inputsAmong l with
    | nil => rfl
    | cons c rest ih =>
      rw [List.filter_cons]
      split
      · rw [List.map_cons, List.flatten_cons, ih]
        rfl
      · rename_i hempty
        rw [ih, List.flatMap_cons, not_not.mp (mt decide_eq_true hempty), List.nil_append]
  rw [h.indexed_eq, Shelf.gather, hinputs, h.key_eq (hs .mk), h.key_eq (hs .rk), h.key_eq (hs .bp), gathered, ← hflatten]
  rfl

end TaggedOnce

/-! ## What the process has -/

section Stores

variable {α : Type} {name : Str} {kind : CapturedKind}

theorem find_new {records : List (CapturedRecord α)} (hname : name ∉ records.map CapturedRecord.name) :
    records.find? (·.name = name) = none :=
  List.find?_eq_none.mpr fun r hr heq => hname (List.mem_map.mpr ⟨r, hr, of_decide_eq_true heq⟩)

/-- Elements go on in the record of their name. -/
theorem store_elements_last {records : List (CapturedRecord α)} (hname : name ∉ records.map CapturedRecord.name)
    (es : List α) : ∀ stored, es.foldl (store_element name kind) (records ++ [⟨name, kind, stored⟩]) =
      records ++ [⟨name, kind, stored ++ es⟩] := by
  induction es with
  | nil => exact fun stored => by simp
  | cons e es ih =>
    intro stored
    have hothers : records.map (fun r => if r.name = name then { r with elements := r.elements ++ [e] } else r) =
        records := by
      refine (List.map_congr_left fun r hr => if_neg fun heq => ?_).trans (List.map_id records)
      exact hname (List.mem_map.mpr ⟨r, hr, heq⟩)
    have hstore : store_element name kind (records ++ [⟨name, kind, stored⟩]) e =
        records ++ [⟨name, kind, stored ++ [e]⟩] := by
      rw [store_element, List.find?_append, find_new hname, Option.none_or, List.find?_singleton,
        if_pos (decide_eq_true rfl)]
      simp [hothers]
    rw [List.foldl_cons, hstore, ih, List.append_assoc]
    rfl

/-- Elements under a new name. -/
theorem store_elements_new {records : List (CapturedRecord α)} (hname : name ∉ records.map CapturedRecord.name)
    (es : List α) : es.foldl (store_element name kind) records =
      records ++ if es = [] then [] else [⟨name, kind, es⟩] := by
  cases es with
  | nil => simp
  | cons e es =>
    have hstore : store_element name kind records e = records ++ [⟨name, kind, [e]⟩] := by
      rw [store_element, find_new hname]
    rw [List.foldl_cons, hstore, store_elements_last hname, if_neg (List.cons_ne_nil _ _)]
    rfl

end Stores

/-- The records of captures. -/
def recordsOf (l : List Capture) : List (CapturedRecord CapturedElement) :=
  (l.filter (·.elements ≠ [])).map Capture.record

namespace Capturer

variable {S : Project}

theorem capture_record {r : Capturer} (hstreaming : r.input_streaming = false) {t : Tag}
    (hname : t.item.name ∉ r.captured_inputs.map CapturedRecord.name) :
    (r.tag S t).captured_inputs = r.captured_inputs ++ recordsOf [r.captureOf t] ∧
      (r.tag S t).input_streaming = false := by
  obtain ⟨-, probes, hcapture⟩ := r.capture_spec t.item.name t.polys
  have hkept : kept r.input_streaming = id := by
    rw [hstreaming]
    rfl
  rw [hkept, List.map_id] at hcapture
  constructor
  · show (r.capture t.item.name t.polys).2.captured_inputs = _
    rw [hcapture]
    refine (store_elements_new hname _).trans (congrArg _ ?_)
    show (if (r.captureOf t).elements = [] then [] else [(r.captureOf t).record]) = _
    rw [recordsOf]
    by_cases hempty : (r.captureOf t).elements = []
    · simp [hempty]
    · simp [hempty]
  · show (r.capture t.item.name t.polys).2.input_streaming = _
    rw [hcapture]
    exact hstreaming

/-- The names that are taken, and those that captures will take. -/
def names (records : List (CapturedRecord CapturedElement)) (l : List Capture) : List Str :=
  records.map CapturedRecord.name ++ l.map fun c => c.tag.item.name

/-- Captures take their own names only. -/
theorem names_later {records : List (CapturedRecord CapturedElement)} {l l' : List Capture}
    (h : (names records (l ++ l')).Nodup) : (names (records ++ recordsOf l) l').Nodup := by
  refine h.sublist ?_
  rw [names, names, List.map_append, List.map_append, List.append_assoc]
  refine List.Sublist.append (List.Sublist.refl _) (List.Sublist.append ?_ (List.Sublist.refl _))
  rw [recordsOf, List.map_map]
  exact List.Sublist.map _ List.filter_sublist

theorem recordsOf_append (l l' : List Capture) : recordsOf (l ++ l') = recordsOf l ++ recordsOf l' := by
  rw [recordsOf, List.filter_append, List.map_append]
  rfl

theorem capture_records (tags : List Tag) : ∀ r : Capturer, r.input_streaming = false →
    (names r.captured_inputs (r.capturesOf S tags)).Nodup →
      (tags.foldl (tag S) r).captured_inputs = r.captured_inputs ++ recordsOf (r.capturesOf S tags) ∧
        (tags.foldl (tag S) r).input_streaming = false := by
  induction tags with
  | nil => exact fun r hstreaming _ => ⟨(List.append_nil _).symm, hstreaming⟩
  | cons t tags ih =>
    intro r hstreaming hnodup
    have hname : t.item.name ∉ r.captured_inputs.map CapturedRecord.name := fun hmem =>
      List.disjoint_of_nodup_append hnodup hmem List.mem_cons_self
    obtain ⟨hrecord, hstreaming'⟩ := capture_record (S := S) hstreaming hname
    have hlater : (names (r.tag S t).captured_inputs ((r.tag S t).capturesOf S tags)).Nodup := by
      rw [hrecord]
      exact names_later hnodup
    obtain ⟨hrest, hstreaming''⟩ := ih _ hstreaming' hlater
    refine ⟨?_, hstreaming''⟩
    rw [List.foldl_cons, hrest, hrecord, List.append_assoc, ← recordsOf_append]
    rfl

theorem afterTags_inputs (r : Capturer) (s : HostStep) :
    (r.afterTags S s).captured_inputs = r.captured_inputs ∧
      (r.afterTags S s).input_streaming = r.input_streaming := by
  cases s with
  | probe var_name elements =>
    obtain ⟨captured_outputs, h⟩ := probe_polys_frame var_name (towersOf elements) r
    show (_ : Capturer).captured_inputs = _ ∧ (_ : Capturer).input_streaming = _
    rw [show r.afterTags S (.probe var_name elements) = _ from h]
    exact ⟨rfl, rfl⟩
  | write_trace now =>
    show (r.write_trace S now).captured_inputs = _ ∧ (r.write_trace S now).input_streaming = _
    rw [write_trace]
    split
    · exact ⟨rfl, rfl⟩
    · exact ⟨rfl, rfl⟩
  | _ => exact ⟨rfl, rfl⟩

/-- **What the process has** after a run that tags each item once: a record for each
capture of anything. -/
theorem captured_run (steps : List HostStep) : ∀ r : Capturer, r.input_streaming = false →
    (names r.captured_inputs (r.captures S steps)).Nodup →
      (Runs.run (step S) r steps).captured_inputs = r.captured_inputs ++ recordsOf (r.captures S steps) := by
  induction steps with
  | nil => exact fun r _ _ => (List.append_nil _).symm
  | cons s steps ih =>
    intro r hstreaming hnodup
    have hfirst : (names r.captured_inputs (r.capturesOf S (s.tags S r.counter))).Nodup := by
      refine hnodup.sublist ?_
      rw [names, names, captures, List.map_append, ← List.append_assoc]
      exact List.sublist_append_left _ _
    obtain ⟨htags, hstreaming'⟩ := capture_records _ r hstreaming hfirst
    obtain ⟨hinputs, hsame⟩ := ((s.tags S r.counter).foldl (tag S) r).afterTags_inputs (S := S) s
    have hstep : (r.step S s).captured_inputs =
        r.captured_inputs ++ recordsOf (r.capturesOf S (s.tags S r.counter)) := hinputs.trans htags
    have hlater : (names (r.step S s).captured_inputs ((r.step S s).captures S steps)).Nodup := by
      rw [hstep]
      exact names_later hnodup
    show (Runs.run (step S) (r.step S s) steps).captured_inputs = _
    rw [ih (r.step S s) (hsame.trans hstreaming') hlater, hstep, List.append_assoc, captures, recordsOf_append]

/-! ### The trace -/

/-- The names that a trace is found under. -/
def TracePath (S : Project) (path : Str) : Prop :=
  path = S.prog ++ str ".fhetch" ∨ path = replace_extension (S.prog ++ str ".fhetch") (str ".fhex")

theorem tags_last_trace_path (tags : List Tag) : ∀ r : Capturer,
    (tags.foldl (tag S) r).last_trace_path = r.last_trace_path := by
  induction tags with
  | nil => exact fun _ => rfl
  | cons t tags ih =>
    intro r
    obtain ⟨-, probes, hcapture⟩ := r.capture_spec t.item.name t.polys
    rw [List.foldl_cons, ih]
    show (r.capture t.item.name t.polys).2.last_trace_path = _
    rw [hcapture]

theorem trace_path_step {r : Capturer} (s : HostStep)
    (h : r.last_trace_path = [] ∨ TracePath S r.last_trace_path) :
    (r.step S s).last_trace_path = [] ∨ TracePath S (r.step S s).last_trace_path := by
  rw [← tags_last_trace_path (S := S) (s.tags S r.counter)] at h
  rw [step]
  generalize (s.tags S r.counter).foldl (tag S) r = r at h ⊢
  cases s with
  | probe var_name elements =>
    obtain ⟨captured_outputs, heq⟩ := probe_polys_frame var_name (towersOf elements) r
    rw [show r.afterTags S (.probe var_name elements) = _ from heq]
    exact h
  | write_trace now =>
    show (r.write_trace S now).last_trace_path = [] ∨ TracePath S (r.write_trace S now).last_trace_path
    rw [write_trace]
    split
    · right
      dsimp only
      split
      · exact .inr rfl
      · exact .inl rfl
    · exact h
  | _ => exact h

end Capturer

section Names

variable {prog : Str}

theorem rfind_dot (s : Str) : rfind (str ".") (s ++ str ".") = some (s, []) := by
  induction s with
  | nil => decide
  | cons c s ih => rw [List.cons_append, rfind, ih]

/-- A file name without a path is found where it is. -/
theorem filename_eq {name : Str} (h : 47 ∉ name) : filename name = name := by
  have hnone : rfind (str "/") name = none := rfind_eq_none h
  rw [filename, hnone]

theorem stem_eq (hprog : prog ≠ []) {e : Str} (he : 46 ∉ e) (hlong : 1 < e.length) :
    stem (prog ++ (str "." ++ e)) = prog := by
  have hlast : rfind (str ".") (prog ++ (str "." ++ e)) = some (prog, e) := by
    rw [← List.append_assoc]
    exact (rfind_append he _).trans (by rw [show [(46 : UInt8)] = str "." from rfl, rfind_dot]; rfl)
  have hshort : ∀ t : Str, t.length ≤ 2 → prog ++ (str "." ++ e) ≠ t := by
    rintro t ht rfl
    have hdot : (str ".").length = 1 := rfl
    rw [List.length_append, List.length_append, hdot] at ht
    omega
  rw [stem, if_neg (not_or.mpr ⟨hshort _ (by decide), hshort _ (by decide)⟩), hlast]
  dsimp only
  rw [if_neg]
  simpa using hprog

/-- A trace names its program, when that has a name, and no path. -/
theorem Capturer.TracePath.names {S : Project} {path : Str} (h : Capturer.TracePath S path) (hprog : S.prog ≠ [])
    (hpath : 47 ∉ S.prog) : filename path = path ∧ stem path = S.prog ∧
      ∃ s t : Str, path = s ++ t ∧ t.length = 4 ∧ t ≠ str "json" := by
  rcases h with rfl | h
  · refine ⟨filename_eq ?_, stem_eq hprog (e := str "fhetch") (by decide) (by decide), S.prog ++ str ".fh", str "etch",
      ?_, rfl, by decide⟩
    · rw [List.mem_append]
      exact not_or.mpr ⟨hpath, by decide⟩
    · rw [List.append_assoc]
      rfl
  · rw [replace_extension_fhetch, filename_eq hpath, if_neg hprog] at h
    rw [h]
    refine ⟨filename_eq ?_, stem_eq hprog (e := str "fhex") (by decide) (by decide), S.prog ++ str ".", str "fhex",
      ?_, rfl, by decide⟩
    · rw [List.mem_append]
      exact not_or.mpr ⟨hpath, by decide⟩
    · rw [List.append_assoc]
      rfl

end Names

/-! ## Two memories -/

section Memories

variable {M : NativeMath} {N : ℕ} {p : Program} {elements elements' : List CapturedElement}

theorem loaded_of_mem (hnodup : (elements.map CapturedElement.addr_id).Nodup) {e : CapturedElement} (he : e ∈ elements) :
    loaded N elements e.addr_id = some ⟨resize e.values N, e.modulus, true⟩ := by
  obtain ⟨e', he'⟩ : ∃ e', elements.find? (·.addr_id = e.addr_id) = some e' :=
    Option.isSome_iff_exists.mp (List.find?_isSome.mpr ⟨e, he, decide_eq_true rfl⟩)
  have haddr := List.find?_some he'
  rw [decide_eq_true_iff] at haddr
  rw [loaded, he', List.inj_on_of_nodup_map hnodup (List.mem_of_find?_eq_some he') he haddr]
  rfl

/-- The order of residues at different addresses does not matter. -/
theorem loaded_perm (hperm : elements'.Perm elements) (hnodup : (elements.map CapturedElement.addr_id).Nodup) :
    loaded N elements' = loaded N elements := by
  have hnodup' : (elements'.map CapturedElement.addr_id).Nodup := (hperm.map _).nodup_iff.mpr hnodup
  funext a
  by_cases ha : a ∈ elements.map CapturedElement.addr_id
  · obtain ⟨e, he, rfl⟩ := List.mem_map.mp ha
    rw [loaded_of_mem hnodup he, loaded_of_mem hnodup' (hperm.mem_iff.mpr he)]
  · rw [loaded_eq_none_iff.mpr ha, loaded_eq_none_iff.mpr fun ha' => ha ((hperm.map _).mem_iff.mp ha')]

/-- Where every live-in has data, nothing is copied along the lineage. -/
theorem propagate_supplied {rbw : List ℕ} {sim : Simulator}
    (hrbw : ∀ a ∈ rbw, sim.memory.is_initialized a = true) (parent_map : List (ℕ × ℕ)) (fuel : ℕ) :
    propagate rbw parent_map fuel sim = sim := by
  have hcopy : ∀ dst ∈ rbw, ∀ src, copy_one (sim, false) dst src = (sim, false) := by
    intro dst hdst src
    rw [copy_one]
    simp [hrbw dst hdst]
  have hedge : ∀ edge, propagate_edge rbw (sim, false) edge = (sim, false) := by
    rintro ⟨child, parent⟩
    have hchild : (if child ∈ rbw then copy_one (sim, false) child parent else (sim, false)) = (sim, false) := by
      split
      · exact hcopy child ‹_› parent
      · rfl
    rw [propagate_edge, hchild]
    split
    · exact hcopy parent ‹_› child
    · rfl
  have hpass : parent_map.foldl (propagate_edge rbw) (sim, false) = (sim, false) := by
    induction parent_map with
    | nil => rfl
    | cons edge rest ih => rw [List.foldl_cons, hedge, ih]
  cases fuel with
  | zero => rfl
  | succ fuel =>
    rw [propagate, hpass]
    rfl

/-- A replay in process, where every live-in was captured, does not depend on the lineage. -/
theorem Compiler.replay_supplied {inputs : List InputRecord} {outputs : List OutputRecord} (parent_map : List (ℕ × ℕ))
    (hnodup : ((inputs.flatMap InputRecord.elements).map CapturedElement.addr_id).Nodup)
    (hsupply : ∀ a ∈ get_read_before_write_addresses p.instructions,
      a ∈ (inputs.flatMap InputRecord.elements).map CapturedElement.addr_id) :
    Compiler.replay M N p inputs parent_map outputs = Compiler.replay M N p inputs [] outputs := by
  rw [Compiler.replay, Compiler.replay]
  dsimp only
  split
  · rfl
  · split
    · rfl
    · rcases hstore : store_captured (load_program (set_ring_dimension {} N) p).1
          (inputs.flatMap InputRecord.elements) with - | sim
      · rfl
      · have hspec := store_captured_spec _ _ sim hnodup (fun _ _ => rfl) hstore
        have hinit : ∀ a ∈ get_read_before_write_addresses p.instructions, sim.memory.is_initialized a = true := by
          intro a ha
          obtain ⟨e, he, rfl⟩ := List.mem_map.mp (hsupply a ha)
          have hmem : sim.memory e.addr_id = some ⟨resize e.values N, e.modulus, true⟩ := by
            rw [hspec]
            show (loaded N _ e.addr_id).or _ = _
            rw [loaded_of_mem hnodup he, Option.some_or]
          rw [Memory.is_initialized, Memory.get, hmem]
          rfl
        rw [Option.bind_some, Option.bind_some, propagate_supplied hinit, propagate_supplied hinit]

/-- A worker refuses a project without data for an address that is read first. -/
theorem run_local_replay_refused (named : List NamedOutput) (hnodup : (elements.map CapturedElement.addr_id).Nodup)
    (hmissing : ¬ ∀ a ∈ get_read_before_write_addresses p.instructions, a ∈ elements.map CapturedElement.addr_id) :
    Fhetch.run_local_replay_from_project M N p elements named = some none := by
  rw [Fhetch.run_local_replay_from_project]
  dsimp only
  split
  · rfl
  · split
    · rfl
    · obtain ⟨-, hstored⟩ := populate_sink_spec (get_read_before_write_addresses p.instructions) elements
        ((load_program (set_ring_dimension {} N) p).1, []) hnodup
      have hnone : populate_inputs (load_program (set_ring_dimension {} N) p).1 elements = none := by
        rw [populate_inputs]
        refine if_neg fun hall => hmissing fun a ha => ?_
        have hmem := of_decide_eq_true (List.all_eq_true.mp hall a ha)
        exact (((hstored a).mp hmem).resolve_left List.not_mem_nil).2
      rw [hnone]

/-- **One recording, two replays.** Where every live-in was captured, an error-free replay
in process is matched by the worker's over the same residues, in any order, if no output
was only passed through. -/
theorem run_local_replay_agrees {inputs : List InputRecord} {outputs : List OutputRecord} {A : List ReplayOutput}
    (parent_map : List (ℕ × ℕ)) (hperm : elements.Perm (inputs.flatMap InputRecord.elements))
    (hnodup : ((inputs.flatMap InputRecord.elements).map CapturedElement.addr_id).Nodup)
    (hsupply : ∀ a ∈ get_read_before_write_addresses p.instructions,
      a ∈ (inputs.flatMap InputRecord.elements).map CapturedElement.addr_id)
    (hfound : ∀ a ∈ read_before_write (usesAt N) p.instructions,
      a ∈ (inputs.flatMap InputRecord.elements).map CapturedElement.addr_id →
        a ∈ get_read_before_write_addresses p.instructions)
    (hrun : Compiler.replay M N p inputs parent_map outputs = some (some A)) :
    ∃ B, Fhetch.run_local_replay_from_project M N p elements (outputs.map OutputRecord.toNamed) = some (some B) ∧
      ((∀ a ∈ outputs.flatMap OutputRecord.addrs,
        a ∈ (inputs.flatMap InputRecord.elements).map CapturedElement.addr_id →
          a ∈ get_read_before_write_addresses p.instructions ∨ WrittenBy p.instructions a) →
        A.map ReplayOutput.view = B.map ReplayOutput.view) := by
  rw [Compiler.replay_supplied parent_map hnodup hsupply] at hrun
  obtain ⟨hN, hempty, f, r, hf, hr, rfl⟩ := Compiler.replay_run hnodup hrun
  have hnamed : (outputs.map OutputRecord.toNamed).flatMap NamedOutput.addr_ids =
      outputs.flatMap OutputRecord.addrs := by
    rw [List.flatMap_map]
    rfl
  have haddrs := hperm.map CapturedElement.addr_id
  have hworker := run_local_replay_run (M := M) (outputs.map OutputRecord.toNamed) hN hempty
    (haddrs.nodup_iff.mpr hnodup) fun a ha => haddrs.mem_iff.mpr (hsupply a ha)
  rw [hnamed, loaded_perm hperm hnodup] at hworker
  generalize inputs.flatMap InputRecord.elements = captured at *
  -- the memories share what was not captured, and what is live-in
  let known (a : ℕ) : Prop := a ∉ captured.map CapturedElement.addr_id ∨
    a ∈ get_read_before_write_addresses p.instructions
  have hcover : ∀ a ∈ read_before_write (usesAt N) p.instructions, known a := fun a ha => by
    by_cases hmem : a ∈ captured.map CapturedElement.addr_id
    · exact .inr (hfound a ha hmem)
    · exact .inl hmem
  have hm : ∀ a, known a → loaded N captured a =
      if a ∈ get_read_before_write_addresses p.instructions then loaded N captured a else none := fun a ha => by
    split
    · rfl
    · exact loaded_eq_none_iff.mpr (ha.resolve_right ‹_›)
  obtain ⟨f', hf', hagree⟩ := run_agree (s := replaySimulator N p (outputs.flatMap OutputRecord.addrs)) hN known
    hcover hm hf hr
  rw [hf', Option.map_some, if_neg (show ¬ 0 < r.errors by omega)] at hworker
  refine ⟨_, hworker, fun hout => view_eq_iff.mpr fun a ha => get_polynomial_congr (hagree a ?_)⟩
  by_cases hcapt : a ∈ captured.map CapturedElement.addr_id
  · exact (hout a ha hcapt).imp .inr id
  · exact .inl (.inl hcapt)

end Memories

/-! ## Two processes -/

namespace Capturer

def replay_inputs (r : Capturer) : List InputRecord := r.captured_inputs.map fun c => ⟨c.name, c.elements⟩

def replay_outputs (r : Capturer) : List OutputRecord := r.captured_outputs.map fun o => ⟨o.name, o.elements⟩

/-- The addresses that a residue was captured for. -/
def capturedAddrs (r : Capturer) : List ℕ :=
  (r.captured_inputs.flatMap CapturedRecord.elements).map CapturedElement.addr_id

/-- `Compiler::replay` in the process that recorded. -/
def replay (M : NativeMath) (S : Project) (parent_map : List (ℕ × ℕ)) (r : Capturer) :
    Option (Option (List ReplayOutput)) :=
  (load_trace S.floats r.dir r.last_trace_path).bind fun
    | none => some none
    | some p => Compiler.replay M r.ring_dimension p r.replay_inputs parent_map r.replay_outputs

end Capturer

/-- A recording that starts with nothing, and tags each item once. -/
structure FreshRecording (S : Project) (r : Capturer) (steps : List HostStep) : Prop where
  fits : Along (Capturer.step S) (Capturer.Fits S) r steps
  once : TaggedOnce (r.captures S steps)
  captured : r.captured_inputs = []
  shelf : ∀ item, shelf S.archive S.prog r.dir item = none
  input_streaming : r.input_streaming = false
  last_trace_path : r.last_trace_path = []
  traced : (Runs.run (Capturer.step S) r steps).last_trace_path ≠ []

/-- What is relied on of a project: its libraries do as documented, its program has a name
without a path, and of this recording the JSON library reads back what it wrote. -/
structure Project.Documented (S : Project) (r : Capturer) : Prop where
  archive : S.archive.Documented
  takes : S.archive.Takes
  named : S.prog ≠ []
  flat : 47 ∉ S.prog
  inputs : S.json.parse (S.json.dump (inputs_index S.about S.prog r.captured_inputs)) =
    some (inputs_index S.about S.prog r.captured_inputs)
  outputs : S.json.parse (S.json.dump (outputs_data S.about r.captured_outputs)) =
    some (outputs_data S.about r.captured_outputs)
  replay : S.json.parse (S.json.dump (replay_index S.about r.ring_dimension (filename r.last_trace_path))) =
    some (replay_index S.about r.ring_dimension (filename r.last_trace_path))

/-- The recorder when its index files have been written. -/
def Capturer.written (S : Project) (r : Capturer) : Capturer := { r with dir := r.write_replay_json S }

section Worker

variable {M : NativeMath} {S : Project} {r : Capturer}

/-- An output is read as it was written. -/
theorem read_output_entry {o : CapturedRecord (ℕ × ℕ)} (hname : o.name ≠ []) :
    read_output (output_entry o) = some [⟨o.name, o.elements.map Prod.fst⟩] := by
  have hpolys : (o.elements.mapIdx fun j e => Json.object [(str "poly_index", .num j), (str "elements", .arr [.num e.1])]).mapM
      poly_elements = some (o.elements.map fun e => [e.1]) := by
    rw [List.mapIdx_eq_zipIdx_map, List.mapM_map]
    refine (mapM_of_some (g := fun x : (ℕ × ℕ) × ℕ => [x.1.1]) fun x _ => rfl).trans (congrArg some ?_)
    have hfst := congrArg (List.map fun e : ℕ × ℕ => [e.1]) (List.zipIdx_map_fst 0 o.elements)
    rw [List.map_map] at hfst
    exact hfst
  have hflatten : (o.elements.map fun e => [e.1]).flatten = o.elements.map Prod.fst := by
    induction o.elements with
    | nil => rfl
    | cons e rest ih => rw [List.map_cons, List.flatten_cons, ih]; rfl
  show (if o.name = [] then some [] else
    (List.mapM poly_elements _).map fun addr_ids => [(⟨o.name, addr_ids.flatten⟩ : NamedOutput)]) = _
  rw [if_neg hname, hpolys, Option.map_some, hflatten]

/-- **The outputs** that a worker reports are those of the recording. -/
theorem read_output_probes_written (hS : S.Documented r) (hnames : ∀ o ∈ r.captured_outputs, o.name ≠ []) :
    read_output_probes S.json (r.written S).dir S.prog =
      some (r.captured_outputs.map fun o => ⟨o.name, o.elements.map Prod.fst⟩) := by
  have hfile : (r.written S).dir (outputsFile S.prog) = some (S.json.dump (outputs_data S.about r.captured_outputs)) := by
    obtain ⟨-, -, hreplay⟩ := index_files_ne S.prog
    simp [Capturer.written, Capturer.write_replay_json, Dir.put, Function.update_of_ne hreplay]
  have hentries : (r.captured_outputs.map output_entry).mapM read_output =
      some (r.captured_outputs.map fun o => [⟨o.name, o.elements.map Prod.fst⟩]) := by
    rw [List.mapM_map]
    exact mapM_of_some fun o ho => read_output_entry (hnames o ho)
  rw [read_output_probes, hfile]
  show (S.json.parse _).bind _ = _
  rw [hS.outputs]
  show (List.mapM read_output _).map List.flatten = _
  rw [hentries, Option.map_some]
  refine congrArg some ?_
  induction r.captured_outputs with
  | nil => rfl
  | cons o rest ih => rw [List.map_cons, List.flatten_cons, ih]; rfl

/-- **The index** leads to the trace, and to the name of the program. -/
theorem read_project_index_written (hS : S.Documented r) (hN : r.ring_dimension ≠ 0)
    (hpath : Capturer.TracePath S r.last_trace_path) :
    read_project_index S.json (r.written S).dir = some ⟨r.ring_dimension, r.last_trace_path, S.prog⟩ := by
  obtain ⟨hfilename, hstem, s, t, hst, hlength, -⟩ := hpath.names hS.named hS.flat
  have hne : r.last_trace_path ≠ [] := by
    rw [hst]
    exact fun h => absurd (List.append_eq_nil_iff.mp h).2 (List.ne_nil_of_length_eq_add_one hlength)
  have hfile : (r.written S).dir (str "fhetch_replay.json") =
      some (S.json.dump (replay_index S.about r.ring_dimension (filename r.last_trace_path))) := by
    simp [Capturer.written, Capturer.write_replay_json, Dir.put]
  rw [read_project_index, hfile]
  show (S.json.parse _).bind _ = _
  rw [hS.replay, hfilename]
  show (if r.ring_dimension = 0 ∨ r.last_trace_path = [] then none
    else some (ProjectIndex.mk r.ring_dimension r.last_trace_path (stem r.last_trace_path))) = _
  rw [if_neg (not_or.mpr ⟨hN, hne⟩), hstem]

/-- The index files are beside the trace. -/
theorem written_dir_trace (hS : S.Documented r) (hpath : Capturer.TracePath S r.last_trace_path) :
    (r.written S).dir r.last_trace_path = r.dir r.last_trace_path := by
  obtain ⟨-, -, s, t, hst, hlength, ht⟩ := hpath.names hS.named hS.flat
  have hne : ∀ s' : Str, r.last_trace_path ≠ s' ++ str "json" := fun s' h =>
    ht (List.append_inj_right' (hst.symm.trans h) hlength)
  show (((r.dir.put (inputsFile S.prog) _).put (outputsFile S.prog) _).put (str "fhetch_replay.json") _) _ = _
  rw [Dir.put, Function.update_of_ne (replayFile_eq ▸ hne _), Dir.put, Function.update_of_ne (outputsFile_eq S.prog ▸ hne _),
    Dir.put, Function.update_of_ne (inputsFile_eq S.prog ▸ hne _)]

end Worker

/-- Elements by records are elements by captures. -/
theorem recordsOf_elements (l : List Capture) :
    (recordsOf l).flatMap CapturedRecord.elements = l.flatMap Capture.elements := by
  induction l with
  | nil => rfl
  | cons c l ih =>
    rw [show c :: l = [c] ++ l from rfl, Capturer.recordsOf_append, List.flatMap_append, ih, List.flatMap_append]
    by_cases hempty : c.elements = []
    · simp [recordsOf, hempty]
    · simp [recordsOf, hempty, Capture.record]

/-- **The worker replays what the process recorded.** After a recording that tags each item
once, of an error-free replay in process, whatever the lineage it is given: the worker of
the directory refuses the project where an address that the trace reads first was not
captured. Where all of them were, and the scan for live-ins found each captured one, it
reports the same statuses and values, unless a captured output was only passed through. -/
theorem separate_processes_agree (M : NativeMath) (S : Project) {r₀ r : Capturer} {steps : List HostStep}
    (parent_map : List (ℕ × ℕ)) (hr : r = Runs.run (Capturer.step S) r₀ steps) (hrec : FreshRecording S r₀ steps)
    (hS : S.Documented r) (hnames : ∀ o ∈ r.captured_outputs, o.name ≠ []) (hnodup : r.capturedAddrs.Nodup)
    {p : Program} (hload : load_trace S.floats r.dir r.last_trace_path = some (some p)) {A : List ReplayOutput}
    (hreplay : (r.written S).replay M S parent_map = some (some A)) :
    (¬ (∀ a ∈ get_read_before_write_addresses p.instructions, a ∈ r.capturedAddrs) →
      (r.written S).dir.run_local_replay_from_project M S.archive S.json S.floats = some none) ∧
    ((∀ a ∈ get_read_before_write_addresses p.instructions, a ∈ r.capturedAddrs) →
      (∀ a ∈ read_before_write (usesAt r.ring_dimension) p.instructions, a ∈ r.capturedAddrs →
        a ∈ get_read_before_write_addresses p.instructions) →
      ∃ B, (r.written S).dir.run_local_replay_from_project M S.archive S.json S.floats = some (some B) ∧
        ((∀ a ∈ r.replay_outputs.flatMap OutputRecord.addrs, a ∈ r.capturedAddrs →
            a ∈ get_read_before_write_addresses p.instructions ∨ WrittenBy p.instructions a) →
          A.map ReplayOutput.view = B.map ReplayOutput.view)) := by
  have hpath : Capturer.TracePath S r.last_trace_path := by
    have hrun : _ ∨ Capturer.TracePath S _ := run_invariant_of_always
      (fun r s h => Capturer.trace_path_step (S := S) (r := r) s h) (.inl hrec.last_trace_path) steps
    rw [hr]
    exact hrun.resolve_left hrec.traced
  have hload' : load_trace S.floats (r.written S).dir r.last_trace_path = some (some p) := by
    rw [← hload, load_trace, load_trace, written_dir_trace hS hpath]
  have hprocess : Compiler.replay M r.ring_dimension p r.replay_inputs parent_map r.replay_outputs = some (some A) := by
    have h : (load_trace S.floats (r.written S).dir r.last_trace_path).bind _ = some (some A) := hreplay
    rw [hload'] at h
    exact h
  have hN : r.ring_dimension ≠ 0 := by
    intro hzero
    rw [Compiler.replay, if_pos hzero] at hprocess
    exact absurd (Option.some.inj hprocess) (by simp)
  -- what the process captured is what the worker gathers
  have hcaptured : r.captured_inputs = recordsOf (r₀.captures S steps) := by
    have hnodup' : (Capturer.names r₀.captured_inputs (r₀.captures S steps)).Nodup := by
      rw [Capturer.names, hrec.captured]
      exact hrec.once.nodup
    rw [hr, Capturer.captured_run steps r₀ hrec.input_streaming hnodup', hrec.captured, List.nil_append]
  have hsources : load_sources S.archive S.json (r.written S).dir S.prog = some (gathered (r₀.captures S steps)) := by
    have hshelf := Capturer.shelf_run hS.archive hS.takes steps r₀ hrec.fits
    have hgather := hrec.once.gather_eq hrec.shelf
    show load_sources S.archive S.json (r.write_replay_json S) S.prog = _
    rw [load_sources_eq Capturer.write_replay_json_inputs hS.inputs, Capturer.shelf_write_replay_json, hr, hshelf,
      ← hr, hcaptured]
    exact hgather
  have hinputs : r.replay_inputs.flatMap InputRecord.elements = r.captured_inputs.flatMap CapturedRecord.elements := by
    rw [Capturer.replay_inputs, List.flatMap_map]
  have hperm : (gathered (r₀.captures S steps)).Perm (r.replay_inputs.flatMap InputRecord.elements) := by
    rw [hinputs, hcaptured, recordsOf_elements]
    exact TaggedOnce.gathered_perm _
  have hworker : (r.written S).dir.run_local_replay_from_project M S.archive S.json S.floats =
      Fhetch.run_local_replay_from_project M r.ring_dimension p (gathered (r₀.captures S steps))
        (r.replay_outputs.map OutputRecord.toNamed) := by
    rw [Dir.run_local_replay_from_project, read_project_index_written hS hN hpath]
    dsimp only
    rw [hload', Option.bind_some, hsources, read_output_probes_written hS hnames]
    dsimp only
    rw [Capturer.replay_outputs, List.map_map]
    rfl
  rw [Capturer.capturedAddrs, ← hinputs] at hnodup ⊢
  rw [hworker]
  refine ⟨fun hmissing => ?_, fun hsupply hfound => ?_⟩
  · have haddrs := hperm.map CapturedElement.addr_id
    exact run_local_replay_refused _ (haddrs.nodup_iff.mpr hnodup) fun h => hmissing fun a ha =>
      haddrs.mem_iff.mp (h a ha)
  · exact run_local_replay_agrees parent_map hperm hnodup hsupply hfound hprocess

/-! ## A sum -/

/-- An input, its sum with itself, and that as an output. -/
def sumSteps : List HostStep :=
  [tagOne 7 3, .call (.add 8 7 7 17) (by simp), .probe (str "y") [⟨.Evaluation, [⟨8, 17, []⟩]⟩], .write_trace 0]

def sumCapturer : Capturer := Runs.run (Capturer.step oneProject) emptyCapturer sumSteps

theorem sum_recording : FreshRecording oneProject emptyCapturer sumSteps where
  fits := ⟨fits_tagOne (by decide) (by decide), trivial, trivial, trivial, trivial⟩
  once := by
    have hcaptures : emptyCapturer.captures oneProject sumSteps =
        [⟨.ciphertext (str "x") [⟨.Evaluation, [⟨7, 17, [3]⟩]⟩], [1]⟩] := rfl
    rw [hcaptures]
    refine ⟨by decide, fun c hc name hname => ?_, List.forall_mem_singleton.mpr trivial⟩
    rw [List.mem_singleton.mp hc] at hname
    obtain rfl := Item.input.inj hname
    decide
  captured := rfl
  shelf _ := rfl
  input_streaming := rfl
  last_trace_path := rfl
  traced := by decide +kernel

theorem oneJson_outputs : oneJson.parse (oneJson.dump oneOutput) = some oneOutput := by
  have hinputs : (oneOutput.member (str "inputs")).isSome = false := by decide
  have houtputs : (oneOutput.member (str "outputs")).isSome = true := by decide
  have hne : oneOutputText ≠ oneInputText := by decide +kernel
  simp [oneJson, hinputs, houtputs, hne]

theorem oneJson_replay : oneJson.parse (oneJson.dump oneReplay) = some oneReplay := by
  have hinputs : (oneReplay.member (str "inputs")).isSome = false := by decide
  have houtputs : (oneReplay.member (str "outputs")).isSome = false := by decide
  have hne : oneReplayText ≠ oneInputText := by decide +kernel
  have hne' : oneReplayText ≠ oneOutputText := by decide +kernel
  simp [oneJson, hinputs, houtputs, hne, hne']

theorem sum_documented : oneProject.Documented sumCapturer where
  archive := referenceArchive_documented
  takes := referenceArchive_takes
  named := by decide
  flat := by decide
  inputs := by
    have hnames : indexed sumCapturer.captured_inputs = [str "x"] := by decide +kernel
    rw [inputs_index, hnames]
    exact oneJson_inputs
  outputs := by
    have houtputs : sumCapturer.captured_outputs = [⟨str "y", .SRP, [(2, 17)]⟩] := rfl
    rw [houtputs]
    exact oneJson_outputs
  replay := by
    have hpath : filename sumCapturer.last_trace_path = str "p.fhetch" := by decide +kernel
    rw [hpath]
    exact oneJson_replay

/-- The sum, by either process. -/
theorem separate_processes_agree_sum :
    ∃ B, (sumCapturer.written oneProject).dir.run_local_replay_from_project referenceMath referenceArchive oneJson
      zeroFloatText = some (some B) ∧ [(str "y", [(2, ElementStatus.computed, [6])])] = B.map ReplayOutput.view := by
  have hprogram : (load_trace zeroFloatText sumCapturer.dir sumCapturer.last_trace_path).map
      (Option.map Program.instructions) = some (some
        [{ line_number := 14, opcode := .FH_SR_ADDP, dest := 2, src1 := 1, src2 := 1, modulus := some 1 },
          { line_number := 15, opcode := .FH_HALT }]) := by
    decide +kernel
  obtain ⟨q, hload, hq⟩ := Option.map_eq_some_iff.mp hprogram
  obtain ⟨p, rfl, hinstructions⟩ := Option.map_eq_some_iff.mp hq
  have hreplay : (sumCapturer.written oneProject).replay referenceMath oneProject [] =
      some (some [⟨str "y", [⟨2, 17, .computed, [6]⟩]⟩]) := by
    decide +kernel
  have haddrs : sumCapturer.capturedAddrs = [1] := by decide +kernel
  have houtputs : sumCapturer.replay_outputs.flatMap OutputRecord.addrs = [2] := by decide +kernel
  obtain ⟨-, hagree⟩ := separate_processes_agree referenceMath oneProject [] (r := sumCapturer) rfl sum_recording
    sum_documented (by decide +kernel) (by rw [haddrs]; decide) hload hreplay
  rw [hinstructions, haddrs, houtputs] at hagree
  obtain ⟨B, hB, hsame⟩ := hagree (by decide +kernel) (by decide +kernel)
  have hapart : ∀ a ∈ [2], a ∉ [1] := by decide
  exact ⟨B, hB, hsame fun a ha hcapt => absurd hcapt (hapart a ha)⟩

end Fhetch
