/-
The shapes of captured records (`find_or_create_record`, `store_input_element`,
`store_output_probe` and `slice_per_element_moduli` of `src/compiler.cpp`).

Residues arrive one at a time, under names in any order. A record keeps them in one flat
list, and notes where each array element starts; the lists per element are cut out much
later. Here the records have those offsets and the index that finds them by name, which
`Fhetch.Sessions` leaves out; without them, a store is the one of that module.
-/
import Fhetch.Lib.Cuts
import Fhetch.Sessions

set_option autoImplicit false

namespace Fhetch

open Lib

/-! ## Records with offsets -/

/-- `InputRecord`, or `OutputRecord` with the two vectors it pushes to together as one
list of pairs. -/
structure ShapedRecord (α : Type) where
  name : Str
  kind : CapturedKind
  elements : List α := []
  element_starts : List ℕ := []

/-- The records and the index by name. -/
structure Captures (α : Type) where
  records : List (ShapedRecord α) := []
  index : Str → Option ℕ := fun _ => none

/-- The arguments of a store. -/
structure StoreCall (α : Type) where
  name : Str
  kind : CapturedKind
  starts_new_element : Bool
  element : α

variable {α : Type}

/-- An element at the end of a record, and its offset if it starts one. -/
def ShapedRecord.push (r : ShapedRecord α) (starts_new_element : Bool) (e : α) : ShapedRecord α :=
  { r with
    element_starts :=
      if starts_new_element then r.element_starts ++ [r.elements.length] else r.element_starts
    elements := r.elements ++ [e] }

namespace Captures

/-- The record of a name, by its place; a fresh one has the kind given. -/
def find_or_create_record (c : Captures α) (name : Str) (default_kind : CapturedKind) :
    Captures α × ℕ :=
  match c.index name with
  | some idx => (c, idx)
  | none =>
    let idx := c.records.length
    ({ records := c.records ++ [{ name := name, kind := default_kind }]
       index := Function.update c.index name (some idx) }, idx)

/-- Both stores. `none` is an index past the records. A residue of another kind is
reported and dropped. -/
def store (c : Captures α) (call : StoreCall α) : Option (Captures α) :=
  let (c, idx) := c.find_or_create_record call.name call.kind
  c.records[idx]?.map fun rec =>
    if rec.kind ≠ call.kind then c
    else { c with records := c.records.set idx (rec.push call.starts_new_element call.element) }

/-- An address and its modulus. -/
def store_output_probe (c : Captures (ℕ × ℕ)) (call : StoreCall (ℕ × ℕ)) :
    Option (Captures (ℕ × ℕ)) := c.store call

end Captures

/-- What is kept of an input: with streaming not its values, but its address and modulus. -/
def StoreCall.kept (input_streaming : Bool) (call : StoreCall CapturedElement) :
    StoreCall CapturedElement :=
  { call with
    element := if input_streaming then { call.element with values := [] } else call.element }

@[simp] theorem StoreCall.kept_modulus (input_streaming : Bool) (call : StoreCall CapturedElement) :
    (call.kept input_streaming).element.modulus = call.element.modulus := by
  cases input_streaming <;> rfl

def Captures.store_input_element (c : Captures CapturedElement) (input_streaming : Bool)
    (call : StoreCall CapturedElement) : Option (Captures CapturedElement) :=
  c.store (call.kept input_streaming)

/-! ## Shapes -/

/-- The lists per element. `none` is a range outside the vector. -/
def slice_per_element_moduli (kind : CapturedKind) (flat : List ℕ) (element_starts : List ℕ) :
    Option (List (List ℕ)) :=
  if flat.isEmpty then some [[]]
  else
    match kind with
    | .SRP | .MRP => some [flat]
    | .SRPArray => some (flat.map fun q => [q])
    | .MRPArray =>
      if element_starts.isEmpty then some [flat]
      else
        let k := element_starts.length
        (List.range k).mapM fun i =>
          let lo := element_starts.getD i 0
          let hi := if i + 1 < k then element_starts.getD (i + 1) 0 else flat.length
          between flat lo hi

structure CapturedShape where
  kind : CapturedKind
  per_element_moduli : List (List ℕ)

/-- The shape `for_each_captured_input` and `for_each_captured_output` hand on. -/
def ShapedRecord.shape (modulus : α → ℕ) (r : ShapedRecord α) : Option CapturedShape :=
  (slice_per_element_moduli r.kind (r.elements.map modulus) r.element_starts).map fun out =>
    ⟨r.kind, out⟩

/-! ## Calls in order -/

/-- What a record was made of: the calls under its name and of its kind, in order. -/
def callsOf (calls : List (StoreCall α)) (r : ShapedRecord α) : List (StoreCall α) :=
  calls.filter fun c => c.name = r.name ∧ c.kind = r.kind

/-- The first call of each name that is an MRPArray starts an element. -/
def StartsFirst (calls : List (StoreCall α)) : Prop :=
  ∀ before call after, calls = before ++ call :: after → call.kind = .MRPArray →
    (∀ c ∈ before, c.name ≠ call.name) → call.starts_new_element = true

/-- The calls cut before every one that starts an element. -/
structure CutAtStarts (calls : List (StoreCall α)) (groups : List (List (StoreCall α))) : Prop where
  all : groups.flatten = calls
  starting : ∀ g ∈ groups, ∃ first rest, g = first :: rest ∧ first.starts_new_element = true ∧
    ∀ c ∈ rest, c.starts_new_element = false

theorem CutAtStarts.start {calls : List (StoreCall α)} {groups : List (List (StoreCall α))}
    (h : CutAtStarts calls groups) {c : StoreCall α} (hc : c.starts_new_element = true) :
    CutAtStarts (calls ++ [c]) (groups ++ [[c]]) where
  all := by rw [List.flatten_append, List.flatten_singleton, h.all]
  starting g hg := by
    rcases List.mem_append.mp hg with hg | hg
    · exact h.starting g hg
    · rw [List.mem_singleton.mp hg]
      exact ⟨c, [], rfl, hc, fun c' hc' => absurd hc' List.not_mem_nil⟩

theorem CutAtStarts.go_on {calls : List (StoreCall α)} {groups : List (List (StoreCall α))}
    {g : List (StoreCall α)} (h : CutAtStarts calls (groups ++ [g])) {c : StoreCall α}
    (hc : c.starts_new_element = false) :
    CutAtStarts (calls ++ [c]) (groups ++ [g ++ [c]]) where
  all := by
    rw [← h.all, List.flatten_append, List.flatten_append, List.flatten_singleton,
      List.flatten_singleton, List.append_assoc]
  starting g' hg' := by
    rcases List.mem_append.mp hg' with hg' | hg'
    · exact h.starting g' (List.mem_append_left _ hg')
    · rw [List.mem_singleton.mp hg']
      obtain ⟨first, rest, rfl, hfirst, hrest⟩ :=
        h.starting g (List.mem_append_right _ (List.mem_singleton_self g))
      refine ⟨first, rest ++ [c], rfl, hfirst, fun c' hc' => ?_⟩
      rcases List.mem_append.mp hc' with hc' | hc'
      · exact hrest c' hc'
      · rw [List.mem_singleton.mp hc']
        exact hc

/-- A record made of these calls: its elements are theirs, and an MRPArray has noted where
each group of them begins. -/
structure MadeOf (own : List (StoreCall α)) (r : ShapedRecord α) : Prop where
  ne_nil : own ≠ []
  elements : r.elements = own.map StoreCall.element
  starts : r.kind = .MRPArray → ∃ groups, CutAtStarts own groups ∧ r.element_starts = beginnings groups

/-- The first call makes the record. -/
theorem madeOf_first {call : StoreCall α} (h : call.kind = .MRPArray → call.starts_new_element = true) :
    MadeOf [call] (ShapedRecord.push { name := call.name, kind := call.kind }
      call.starts_new_element call.element) where
  ne_nil := List.cons_ne_nil _ _
  elements := rfl
  starts hkind := by
    refine ⟨[[call]], ⟨rfl, fun g hg => ?_⟩, ?_⟩
    · rw [List.mem_singleton.mp hg]
      exact ⟨call, [], rfl, h hkind, fun c hc => absurd hc List.not_mem_nil⟩
    · rw [ShapedRecord.push, h hkind]
      rfl

/-- Each later one of its kind goes behind the others. -/
theorem MadeOf.push {own : List (StoreCall α)} {r : ShapedRecord α} (h : MadeOf own r)
    (call : StoreCall α) :
    MadeOf (own ++ [call]) (r.push call.starts_new_element call.element) where
  ne_nil := List.append_ne_nil_of_right_ne_nil _ (List.cons_ne_nil _ _)
  elements := by
    rw [ShapedRecord.push, h.elements, List.map_append]
    rfl
  starts hkind := by
    obtain ⟨groups, hgroups, hstarts⟩ := h.starts hkind
    have hlength : r.elements.length = groups.flatten.length := by
      rw [h.elements, List.length_map, hgroups.all]
    by_cases hnew : call.starts_new_element = true
    · refine ⟨groups ++ [[call]], hgroups.start hnew, ?_⟩
      rw [ShapedRecord.push, if_pos hnew, hstarts, beginnings_concat, hlength]
    -- a call that goes on has a group to go on with: the record was not empty
    · have hne : groups ≠ [] := by
        rintro rfl
        exact h.ne_nil hgroups.all.symm
      obtain ⟨before, g, rfl⟩ : ∃ before g, groups = before ++ [g] :=
        ⟨_, _, (List.dropLast_append_getLast hne).symm⟩
      refine ⟨before ++ [g ++ [call]], hgroups.go_on (Bool.not_eq_true _ ▸ hnew), ?_⟩
      rw [ShapedRecord.push, if_neg hnew, hstarts, beginnings_extend]

/-! ## Slices -/

/-- What the lists per element are, by kind. -/
def SlicesOf (q : StoreCall α → ℕ) (kind : CapturedKind) (own : List (StoreCall α))
    (out : List (List ℕ)) : Prop :=
  match kind with
  | .SRP | .MRP => out = [own.map q]
  | .SRPArray => out = own.map fun c => [q c]
  | .MRPArray => ∃ groups, CutAtStarts own groups ∧ out = groups.map (List.map q)

/-- **No slice loses or invents a residue.** -/
theorem SlicesOf.flatten {q : StoreCall α → ℕ} {kind : CapturedKind} {own : List (StoreCall α)}
    {out : List (List ℕ)} (h : SlicesOf q kind own out) : out.flatten = own.map q := by
  cases kind with
  | SRP | MRP =>
    rw [show out = [own.map q] from h, List.flatten_singleton]
  | SRPArray =>
    rw [show out = own.map fun c => [q c] from h, ← List.flatMap_def, List.map_eq_flatMap]
  | MRPArray =>
    obtain ⟨groups, hgroups, rfl⟩ := h
    rw [← hgroups.all, List.map_flatten]

/-- The loop over the offsets cuts the vector at the beginnings of its parts. -/
theorem slice_of_beginnings {parts : List (List ℕ)} (hne : parts ≠ []) (hflat : parts.flatten ≠ []) :
    slice_per_element_moduli .MRPArray parts.flatten (beginnings parts) = some parts := by
  have hlength := beginnings_length parts
  have hstarts : (beginnings parts).isEmpty = false := by
    rw [List.isEmpty_eq_false_iff, ← List.length_pos_iff, hlength]
    exact List.length_pos_of_ne_nil hne
  have hloop : (List.range parts.length).mapM (fun i =>
      between parts.flatten ((beginnings parts).getD i 0)
        (if i + 1 < parts.length then (beginnings parts).getD (i + 1) 0 else parts.flatten.length)) =
      some ((List.range parts.length).map fun i => parts.getD i []) := by
    apply mapM_of_some
    intro i hi
    have hi : i < parts.length := List.mem_range.mp hi
    -- a part ends where the next one begins, the last one at the end
    have hend : (if i + 1 < parts.length then (beginnings parts).getD (i + 1) 0
        else parts.flatten.length) = (parts.take (i + 1)).flatten.length := by
      by_cases hlast : i + 1 < parts.length
      · rw [if_pos hlast, beginnings_getD parts hlast]
      · rw [if_neg hlast, List.take_of_length_le (by omega)]
    rw [beginnings_getD parts hi, hend, between_parts parts hi,
      List.getD_eq_getElem?_getD, List.getElem?_eq_getElem hi, Option.getD_some]
  have hparts : (List.range parts.length).map (fun i => parts.getD i []) = parts := by
    apply List.ext_getElem
    · rw [List.length_map, List.length_range]
    · intro i hi hi'
      rw [List.getElem_map, List.getElem_range, List.getD_eq_getElem?_getD,
        List.getElem?_eq_getElem hi', Option.getD_some]
  rw [slice_per_element_moduli, if_neg (by simpa using hflat)]
  simp only [hstarts, hlength, hloop, hparts]
  rfl

/-- **The slices of a record** are those of the calls it was made of. -/
theorem MadeOf.slices {own : List (StoreCall α)} {r : ShapedRecord α} (h : MadeOf own r)
    (modulus : α → ℕ) : ∃ out,
      slice_per_element_moduli r.kind (r.elements.map modulus) r.element_starts = some out ∧
        SlicesOf (fun c => modulus c.element) r.kind own out := by
  have hflat : r.elements.map modulus = own.map fun c => modulus c.element := by
    rw [h.elements, List.map_map]
    rfl
  have hne : ¬ (r.elements.map modulus).isEmpty = true := by
    rw [hflat, List.isEmpty_iff, List.map_eq_nil_iff]
    exact h.ne_nil
  cases hkind : r.kind with
  | SRP | MRP =>
    refine ⟨_, if_neg hne, ?_⟩
    rw [hflat]
    exact rfl
  | SRPArray =>
    refine ⟨_, if_neg hne, ?_⟩
    rw [hflat, List.map_map]
    exact rfl
  | MRPArray =>
    -- the groups of calls are what the offsets cut the residues into
    obtain ⟨groups, hgroups, hstarts⟩ := h.starts hkind
    have hparts : r.elements.map modulus =
        (groups.map (List.map fun c => modulus c.element)).flatten := by
      rw [hflat, ← hgroups.all, List.map_flatten]
    refine ⟨groups.map (List.map fun c => modulus c.element), ?_, groups, hgroups, rfl⟩
    rw [hparts, hstarts, ← beginnings_map fun c : StoreCall α => modulus c.element]
    apply slice_of_beginnings
    · intro hnil
      apply h.ne_nil
      rw [← hgroups.all, List.map_eq_nil_iff.mp hnil]
      rfl
    · rw [← hparts]
      simpa using hne

/-! ## Runs -/

namespace Captures

/-- The index holds the place of every record, and of nothing else, by its name. -/
def Indexed (c : Captures α) : Prop :=
  ∀ (name : Str) (i : ℕ), c.index name = some i ↔
    ∃ r : ShapedRecord α, c.records[i]? = some r ∧ r.name = name

/-- No two records have one name. -/
theorem Indexed.unique {c : Captures α} (h : c.Indexed) {i j : ℕ} {r r' : ShapedRecord α}
    (hi : c.records[i]? = some r) (hj : c.records[j]? = some r') (hname : r.name = r'.name) :
    i = j := by
  have hi' := (h r.name i).mpr ⟨r, hi, rfl⟩
  have hj' := (h r.name j).mpr ⟨r', hj, hname.symm⟩
  exact Option.some.inj (hi'.symm.trans hj')

/-- **What a store does**: it makes a record, drops the residue, or pushes it. -/
theorem store_cases {c : Captures α} (h : c.Indexed) (call : StoreCall α) :
    (c.index call.name = none ∧ c.store call = some
      { records := c.records ++ [ShapedRecord.push { name := call.name, kind := call.kind }
          call.starts_new_element call.element]
        index := Function.update c.index call.name (some c.records.length) }) ∨
    ∃ i r, c.index call.name = some i ∧ c.records[i]? = some r ∧ r.name = call.name ∧
      ((r.kind ≠ call.kind ∧ c.store call = some c) ∨
        (r.kind = call.kind ∧ c.store call = some { c with
          records := c.records.set i (r.push call.starts_new_element call.element) })) := by
  -- a name that is not in the index yet, or the record that it stands for
  cases hindex : c.index call.name with
  | none =>
    refine .inl ⟨rfl, ?_⟩
    simp only [store, find_or_create_record, hindex]
    rw [List.getElem?_concat_length]
    simp only [Option.map_some, ne_eq, not_true_eq_false, if_false]
    rw [List.set_append_right _ _ le_rfl, Nat.sub_self]
    rfl
  | some i =>
    obtain ⟨r, hr, hname⟩ := (h call.name i).mp hindex
    refine .inr ⟨i, r, rfl, hr, hname, ?_⟩
    simp only [store, find_or_create_record, hindex, hr, Option.map_some]
    by_cases hkind : r.kind = call.kind
    · exact .inr ⟨hkind, by rw [if_neg (not_not_intro hkind)]⟩
    · exact .inl ⟨hkind, by rw [if_pos hkind]⟩

/-- Records stay where they are, under their names and of their kinds. -/
def KindsKept (c c' : Captures α) : Prop :=
  ∀ (i : ℕ) (r : ShapedRecord α), c.records[i]? = some r →
    ∃ r' : ShapedRecord α, c'.records[i]? = some r' ∧ r'.name = r.name ∧ r'.kind = r.kind

theorem KindsKept.refl (c : Captures α) : KindsKept c c := fun _ r h => ⟨r, h, rfl, rfl⟩

theorem KindsKept.trans {c c' c'' : Captures α} (h : KindsKept c c') (h' : KindsKept c' c'') :
    KindsKept c c'' := by
  intro i r hr
  obtain ⟨r', hr', hname, hkind⟩ := h i r hr
  obtain ⟨r'', hr'', hname', hkind'⟩ := h' i r' hr'
  exact ⟨r'', hr'', hname'.trans hname, hkind'.trans hkind⟩

end Captures

theorem callsOf_concat (calls : List (StoreCall α)) (call : StoreCall α) (r : ShapedRecord α) :
    callsOf (calls ++ [call]) r =
      callsOf calls r ++ if call.name = r.name ∧ call.kind = r.kind then [call] else [] := by
  rw [callsOf, callsOf, List.filter_append, List.filter_singleton]
  by_cases h : call.name = r.name ∧ call.kind = r.kind
  · simp [h]
  · simp [h]

/-- A call under another name, or of another kind, is none of the record's. -/
theorem callsOf_other {calls : List (StoreCall α)} {call : StoreCall α} {r : ShapedRecord α}
    (h : ¬ (call.name = r.name ∧ call.kind = r.kind)) :
    callsOf (calls ++ [call]) r = callsOf calls r := by
  rw [callsOf_concat, if_neg h, List.append_nil]

namespace Captures

/-- What holds after the calls. -/
structure After (calls : List (StoreCall α)) (c : Captures α) : Prop where
  indexed : c.Indexed
  made : ∀ (i : ℕ) (r : ShapedRecord α), c.records[i]? = some r → MadeOf (callsOf calls r) r
  named : ∀ call ∈ calls, c.index call.name ≠ none

theorem after_nil : After [] ({} : Captures α) where
  indexed _ _ := iff_of_false (by simp) (by simp)
  made _ _ hr := absurd hr (by simp)
  named _ hcall := absurd hcall List.not_mem_nil

/-- The call that makes a record. -/
theorem After.fresh {calls : List (StoreCall α)} {c : Captures α} {call : StoreCall α}
    {new : ShapedRecord α} (h : After calls c) (hindex : c.index call.name = none)
    (hname : new.name = call.name) (hnew : MadeOf [call] new) (hkind : call.kind = new.kind) :
    After (calls ++ [call]) { records := c.records ++ [new]
                              index := Function.update c.index call.name (some c.records.length) } := by
  -- the new record stands at the end, the others where they were
  have hplace : ∀ (i : ℕ) (r : ShapedRecord α), (c.records ++ [new])[i]? = some r ↔
      c.records[i]? = some r ∨ (i = c.records.length ∧ new = r) := by
    intro i r
    rw [List.getElem?_append, List.getElem?_singleton]
    by_cases hlt : i < c.records.length
    · rw [if_pos hlt, or_iff_left fun hend => absurd hend.1 hlt.ne]
    · rw [if_neg hlt, List.getElem?_eq_none (by omega)]
      by_cases hend : i = c.records.length
      · simp [hend]
      · simp [hend, show ¬ i - c.records.length = 0 by omega]
  have hother : ∀ (i : ℕ) (r : ShapedRecord α), c.records[i]? = some r → r.name ≠ call.name := by
    intro i r hr hsame
    have := (h.indexed call.name i).mpr ⟨r, hr, hsame⟩
    rw [hindex] at this
    exact absurd this (by simp)
  constructor
  · intro name i
    dsimp only
    by_cases hsame : name = call.name
    · rw [hsame, Function.update_self, Option.some.injEq]
      constructor
      · rintro rfl
        exact ⟨new, (hplace _ _).mpr (.inr ⟨rfl, rfl⟩), hname⟩
      · rintro ⟨r, hr, hrname⟩
        rcases (hplace i r).mp hr with hr | ⟨hi, -⟩
        · exact absurd hrname (hother i r hr)
        · exact hi.symm
    · rw [Function.update_of_ne hsame, h.indexed name i]
      constructor
      · rintro ⟨r, hr, hrname⟩
        exact ⟨r, (hplace i r).mpr (.inl hr), hrname⟩
      · rintro ⟨r, hr, hrname⟩
        rcases (hplace i r).mp hr with hr | ⟨-, rfl⟩
        · exact ⟨r, hr, hrname⟩
        · exact absurd (hrname.symm.trans hname) hsame
  · intro i r hr
    rcases (hplace i r).mp hr with hr | ⟨-, rfl⟩
    · rw [callsOf_other fun hown => hother i r hr hown.1.symm]
      exact h.made i r hr
    · have hnone : callsOf calls new = [] := by
        rw [callsOf, List.filter_eq_nil_iff]
        intro d hd hown
        rw [decide_eq_true_iff] at hown
        apply h.named d hd
        rw [hown.1, hname]
        exact hindex
      rw [callsOf_concat, hnone, if_pos ⟨hname.symm, hkind⟩]
      exact hnew
  · intro d hd
    dsimp only
    by_cases hsame : d.name = call.name
    · rw [hsame, Function.update_self]
      exact Option.some_ne_none _
    · rw [Function.update_of_ne hsame]
      rcases List.mem_append.mp hd with hd | hd
      · exact h.named d hd
      · exact absurd (congrArg StoreCall.name (List.mem_singleton.mp hd)) hsame

/-- The call that is dropped. -/
theorem After.dropped {calls : List (StoreCall α)} {c : Captures α} {call : StoreCall α} {i : ℕ}
    {r : ShapedRecord α} (h : After calls c) (hindex : c.index call.name = some i)
    (hr : c.records[i]? = some r) (hname : r.name = call.name) (hkind : r.kind ≠ call.kind) :
    After (calls ++ [call]) c where
  indexed := h.indexed
  made j r' hr' := by
    rw [callsOf_other]
    · exact h.made j r' hr'
    · rintro ⟨hown, hown'⟩
      obtain rfl := h.indexed.unique hr hr' (hname.trans hown)
      obtain rfl := Option.some.inj (hr.symm.trans hr')
      exact hkind hown'.symm
  named d hd := by
    rcases List.mem_append.mp hd with hd | hd
    · exact h.named d hd
    · rw [List.mem_singleton.mp hd, hindex]
      exact Option.some_ne_none _

/-- The call that is pushed. -/
theorem After.pushed {calls : List (StoreCall α)} {c : Captures α} {call : StoreCall α} {i : ℕ}
    {r : ShapedRecord α} (h : After calls c) (hindex : c.index call.name = some i)
    (hr : c.records[i]? = some r) (hname : r.name = call.name) (hkind : r.kind = call.kind) :
    After (calls ++ [call]) { c with
      records := c.records.set i (r.push call.starts_new_element call.element) } := by
  obtain ⟨hlt, -⟩ := List.getElem?_eq_some_iff.mp hr
  have hplace : ∀ j, j ≠ i →
      (c.records.set i (r.push call.starts_new_element call.element))[j]? = c.records[j]? :=
    fun j hj => List.getElem?_set_ne hj.symm
  -- only the record at `i` changes
  have hself : (c.records.set i (r.push call.starts_new_element call.element))[i]? =
      some (r.push call.starts_new_element call.element) := List.getElem?_set_self hlt
  constructor
  · intro name j
    rw [h.indexed name j]
    by_cases hj : j = i
    · rw [hj, hr, hself]
      simp only [Option.some.injEq, exists_eq_left', ShapedRecord.push]
    · rw [hplace j hj]
  · intro j r' hr'
    by_cases hj : j = i
    · rw [hj, hself] at hr'
      obtain rfl := Option.some.inj hr'
      have hcalls : callsOf (calls ++ [call]) (r.push call.starts_new_element call.element) =
          callsOf calls r ++ [call] := by
        rw [callsOf_concat, if_pos ⟨hname.symm, hkind.symm⟩]
        rfl
      rw [hcalls]
      exact (h.made i r hr).push call
    · rw [hplace j hj] at hr'
      rw [callsOf_other]
      · exact h.made j r' hr'
      · rintro ⟨hown, -⟩
        exact hj (h.indexed.unique hr' hr (hown.symm.trans hname.symm))
  · intro d hd
    rcases List.mem_append.mp hd with hd | hd
    · exact h.named d hd
    · rw [List.mem_singleton.mp hd, hindex]
      exact Option.some_ne_none _

/-- **One call**, the first of an MRPArray's name starting an element. -/
theorem After.store {calls : List (StoreCall α)} {c : Captures α} (h : After calls c)
    (call : StoreCall α) (hfirst : call.kind = .MRPArray → (∀ d ∈ calls, d.name ≠ call.name) →
      call.starts_new_element = true) :
    ∃ c', c.store call = some c' ∧ After (calls ++ [call]) c' ∧ KindsKept c c' := by
  rcases store_cases h.indexed call with ⟨hindex, hstore⟩ | ⟨i, r, hindex, hr, hname, hcases⟩
  · refine ⟨_, hstore, h.fresh hindex rfl (madeOf_first fun hkind => ?_) rfl, ?_⟩
    · apply hfirst hkind
      intro d hd hsame
      exact h.named d hd (hsame ▸ hindex)
    · intro j r' hr'
      obtain ⟨hlt, -⟩ := List.getElem?_eq_some_iff.mp hr'
      exact ⟨r', by rw [List.getElem?_append_left hlt, hr'], rfl, rfl⟩
  · rcases hcases with ⟨hkind, hstore⟩ | ⟨hkind, hstore⟩
    · exact ⟨c, hstore, h.dropped hindex hr hname hkind, KindsKept.refl c⟩
    · refine ⟨_, hstore, h.pushed hindex hr hname hkind, ?_⟩
      intro j r' hr'
      obtain ⟨hlt, -⟩ := List.getElem?_eq_some_iff.mp hr'
      -- the record that grew keeps its name and kind, the others are the same
      by_cases hj : i = j
      · subst hj
        obtain rfl := Option.some.inj (hr.symm.trans hr')
        exact ⟨_, List.getElem?_set_self hlt, rfl, rfl⟩
      · exact ⟨r', by rw [List.getElem?_set_ne hj, hr'], rfl, rfl⟩

/-- A sequence of calls. -/
def storeAll (c : Captures α) (calls : List (StoreCall α)) : Option (Captures α) :=
  calls.foldlM store c

/-- **Any sequence of calls**, whose records keep their names and kinds at every point. -/
theorem storeAll_after {calls : List (StoreCall α)} (hfirst : StartsFirst calls) :
    ∃ c, storeAll {} calls = some c ∧ After calls c ∧ ∀ before after, calls = before ++ after →
      ∃ c₀, storeAll {} before = some c₀ ∧ KindsKept c₀ c := by
  induction calls using List.reverseRecOn with
  | nil =>
    refine ⟨{}, rfl, after_nil, fun before after hsplit => ⟨{}, ?_, KindsKept.refl _⟩⟩
    rw [(List.append_eq_nil_iff.mp hsplit.symm).1]
    rfl
  | append_singleton calls call ih =>
    obtain ⟨c, hrun, hafter, hkept⟩ := ih (fun before d after hsplit => by
      apply hfirst before d (after ++ [call])
      rw [hsplit, List.append_assoc, List.cons_append])
    obtain ⟨c', hstore, hafter', hkept'⟩ := hafter.store call (hfirst calls call [] rfl)
    have hrun' : storeAll {} (calls ++ [call]) = some c' := by
      rw [storeAll, List.foldlM_append]
      change (storeAll {} calls).bind _ = _
      rw [hrun, Option.bind_some, List.foldlM_cons]
      change (c.store call).bind _ = _
      rw [hstore]
      rfl
    refine ⟨c', hrun', hafter', fun before after hsplit => ?_⟩
    -- the whole run, or a part of what ran before this call
    rcases List.eq_nil_or_concat after with rfl | ⟨after, d, rfl⟩
    · rw [List.append_nil] at hsplit
      rw [← hsplit]
      exact ⟨c', hrun', KindsKept.refl c'⟩
    · rw [List.concat_eq_append, ← List.append_assoc] at hsplit
      obtain ⟨c₀, hrun₀, hkept₀⟩ := hkept before after (List.append_inj_left' hsplit rfl)
      exact ⟨c₀, hrun₀, hkept₀.trans hkept'⟩

/-! ## Without offsets and index -/

/-- The record that `Fhetch.Sessions` keeps. -/
def forget (r : ShapedRecord α) : CapturedRecord α := ⟨r.name, r.kind, r.elements⟩

@[simp] theorem forget_name (r : ShapedRecord α) : (forget r).name = r.name := rfl

theorem find?_forget {c : Captures α} (h : c.Indexed) (name : Str) :
    (c.records.map forget).find? (·.name = name) =
      (c.index name).bind fun i => c.records[i]?.map forget := by
  cases hindex : c.index name with
  | none =>
    rw [Option.bind_none, List.find?_eq_none]
    intro r' hr' hsame
    obtain ⟨r, hr, rfl⟩ := List.mem_map.mp hr'
    obtain ⟨i, hi⟩ := List.mem_iff_getElem?.mp hr
    have := (h name i).mpr ⟨r, hi, of_decide_eq_true hsame⟩
    rw [hindex] at this
    exact absurd this (by simp)
  | some i =>
    obtain ⟨r, hr, hname⟩ := (h name i).mp hindex
    rw [Option.bind_some, hr, Option.map_some]
    cases hfound : (c.records.map forget).find? (·.name = name) with
    | none =>
      have hmem : forget r ∈ c.records.map forget :=
        List.mem_map_of_mem (List.mem_of_getElem? hr)
      exact absurd (decide_eq_true hname) (List.find?_eq_none.mp hfound _ hmem)
    | some r' =>
      obtain ⟨r₀, hr₀, rfl⟩ := List.mem_map.mp (List.mem_of_find?_eq_some hfound)
      have hname₀ := List.find?_some hfound
      rw [decide_eq_true_iff, forget_name] at hname₀
      obtain ⟨j, hj⟩ := List.mem_iff_getElem?.mp hr₀
      -- no two records have one name, so the first one found is the one indexed
      obtain rfl := h.unique hr hj (hname.trans hname₀.symm)
      rw [Option.some.inj (hr.symm.trans hj)]

/-- **A store, forgetting offsets and index**, is `store_element`. -/
theorem store_forget {c c' : Captures α} (h : c.Indexed) {call : StoreCall α}
    (hstore : c.store call = some c') :
    c'.records.map forget =
      store_element call.name call.kind (c.records.map forget) call.element := by
  unfold store_element
  rw [find?_forget h]
  rcases store_cases h call with ⟨hindex, hgives⟩ | ⟨i, r, hindex, hr, hname, hcases⟩
  · obtain rfl := Option.some.inj (hstore.symm.trans hgives)
    rw [hindex, Option.bind_none, List.map_append]
    rfl
  · rw [hindex, Option.bind_some, hr, Option.map_some]
    rcases hcases with ⟨hkind, hgives⟩ | ⟨hkind, hgives⟩
    · obtain rfl := Option.some.inj (hstore.symm.trans hgives)
      exact (if_pos hkind).symm
    · obtain rfl := Option.some.inj (hstore.symm.trans hgives)
      refine Eq.trans ?_ (if_neg (not_not_intro hkind)).symm
      apply List.ext_getElem?
      intro j
      rw [List.getElem?_map, List.getElem?_map, List.getElem?_map]
      by_cases hj : i = j
      · subst hj
        obtain ⟨hlt, -⟩ := List.getElem?_eq_some_iff.mp hr
        rw [List.getElem?_set_self hlt, hr, Option.map_some, Option.map_some, Option.map_some,
          forget_name, if_pos hname]
        rfl
      · rw [List.getElem?_set_ne hj]
        cases hr' : c.records[j]? with
        | none => rfl
        | some r' =>
          have hne : r'.name ≠ call.name := fun hsame =>
            hj (h.unique hr hr' (hname.trans hsame.symm))
          rw [Option.map_some, Option.map_some, forget_name, if_neg hne]

end Captures

/-- **Any sequence of calls**, forgetting offsets and index. -/
theorem Captures.storeAll_forget {α : Type} {calls : List (StoreCall α)} (hfirst : StartsFirst calls) :
    ∀ {c : Captures α}, storeAll {} calls = some c → c.records.map forget =
      calls.foldl (fun records call => store_element call.name call.kind records call.element) [] := by
  induction calls using List.reverseRecOn with
  | nil =>
    intro c hrun
    obtain rfl := Option.some.inj hrun
    rfl
  | append_singleton calls call ih =>
    intro c hrun
    have hearlier : StartsFirst calls := fun before d after hsplit => by
      apply hfirst before d (after ++ [call])
      rw [hsplit, List.append_assoc, List.cons_append]
    obtain ⟨c₀, hrun₀, hafter, -⟩ := storeAll_after hearlier
    have hstore : c₀.store call = some c := by
      rw [storeAll, List.foldlM_append] at hrun
      change (storeAll {} calls).bind _ = _ at hrun
      rw [hrun₀, Option.bind_some, List.foldlM_cons] at hrun
      obtain ⟨c', hc', hrun⟩ := Option.bind_eq_some_iff.mp hrun
      rw [hc', ← Option.some.inj hrun]
    rw [List.foldl_append, store_forget hafter.indexed hstore, ih hearlier hrun₀]
    rfl

/-! ## The captured shapes -/

/-- What a sequence of calls leaves: the index and the records correspond; a call of
another kind changes nothing; and the shape of every record has the moduli of its calls, in
their order, in one list per element. -/
structure ShapesOf (modulus : α → ℕ) (calls : List (StoreCall α)) (c : Captures α) : Prop where
  indexed : c.Indexed
  mismatch : ∀ (call : StoreCall α) (i : ℕ) (r : ShapedRecord α), c.index call.name = some i →
    c.records[i]? = some r → r.kind ≠ call.kind → c.store call = some c
  shapes : ∀ r ∈ c.records, ∃ shape, r.shape modulus = some shape ∧ shape.kind = r.kind ∧
    shape.per_element_moduli.flatten = (callsOf calls r).map (fun c => modulus c.element) ∧
    SlicesOf (fun c => modulus c.element) r.kind (callsOf calls r) shape.per_element_moduli

theorem Captures.After.shapesOf (modulus : α → ℕ) {calls : List (StoreCall α)} {c : Captures α}
    (h : After calls c) : ShapesOf modulus calls c where
  indexed := h.indexed
  mismatch call i r hindex hr hkind := by
    rcases store_cases h.indexed call with ⟨hnone, -⟩ | ⟨i', r', hindex', hr', -, hcases⟩
    · rw [hnone] at hindex
      exact absurd hindex (by simp)
    · obtain rfl := Option.some.inj (hindex.symm.trans hindex')
      obtain rfl := Option.some.inj (hr.symm.trans hr')
      rcases hcases with ⟨-, hstore⟩ | ⟨hsame, -⟩
      · exact hstore
      · exact absurd hsame hkind
  shapes r hr := by
    obtain ⟨i, hi⟩ := List.mem_iff_getElem?.mp hr
    obtain ⟨out, hout, hslices⟩ := (h.made i r hi).slices modulus
    exact ⟨⟨r.kind, out⟩, by rw [ShapedRecord.shape, hout, Option.map_some], rfl,
      hslices.flatten, hslices⟩

/-- **Captured shapes lose and invent no residues**, whatever is stored in whatever order:
for probes, and for inputs, each stored with or without streaming. The records are those
of `store_element`, with the offsets and the index beside them. -/
theorem captured_shapes :
    (∀ calls : List (StoreCall (ℕ × ℕ)), StartsFirst calls →
      ∃ c, calls.foldlM Captures.store_output_probe {} = some c ∧ ShapesOf Prod.snd calls c ∧
        c.records.map Captures.forget = calls.foldl
          (fun records call => store_element call.name call.kind records call.element) [] ∧
        ∀ before after, calls = before ++ after →
          ∃ c₀, before.foldlM Captures.store_output_probe {} = some c₀ ∧ c₀.KindsKept c) ∧
    ∀ calls : List (Bool × StoreCall CapturedElement),
      StartsFirst (calls.map fun call => call.2.kept call.1) →
      ∃ c, calls.foldlM (fun c call => c.store_input_element call.1 call.2) {} = some c ∧
        ShapesOf CapturedElement.modulus (calls.map fun call => call.2.kept call.1) c ∧
        c.records.map Captures.forget = (calls.map fun call => call.2.kept call.1).foldl
          (fun records call => store_element call.name call.kind records call.element) [] ∧
        ∀ before after, calls = before ++ after →
          ∃ c₀, before.foldlM (fun c call => Captures.store_input_element c call.1 call.2) {} =
            some c₀ ∧ c₀.KindsKept c := by
  constructor
  · intro calls hfirst
    obtain ⟨c, hrun, hafter, hkept⟩ := Captures.storeAll_after hfirst
    exact ⟨c, hrun, hafter.shapesOf Prod.snd, Captures.storeAll_forget hfirst hrun, hkept⟩
  · intro calls hfirst
    have hstores : ∀ calls : List (Bool × StoreCall CapturedElement),
        calls.foldlM (fun c call => Captures.store_input_element c call.1 call.2) {} =
          Captures.storeAll {} (calls.map fun call => call.2.kept call.1) := by
      intro calls
      rw [Captures.storeAll, List.foldlM_map]
      rfl
    obtain ⟨c, hrun, hafter, hkept⟩ := Captures.storeAll_after hfirst
    refine ⟨c, (hstores calls).trans hrun, hafter.shapesOf _, Captures.storeAll_forget hfirst hrun,
      fun before after hsplit => ?_⟩
    rw [hstores before]
    apply hkept _ (after.map fun call => call.2.kept call.1)
    rw [hsplit, List.map_append]

/-- Two elements under one name, with a probe of another name between them. -/
def interleavedProbes : List (StoreCall (ℕ × ℕ)) :=
  [⟨str "a", .MRPArray, true, (1, 5)⟩, ⟨str "b", .SRP, false, (2, 7)⟩,
    ⟨str "a", .MRPArray, false, (3, 11)⟩, ⟨str "a", .MRPArray, true, (4, 13)⟩]

theorem captured_shapes_interleaved : ∃ c,
    interleavedProbes.foldlM Captures.store_output_probe {} = some c ∧
      ShapesOf Prod.snd interleavedProbes c := by
  have hfirst : StartsFirst interleavedProbes := by
    intro before call after hsplit hkind hbefore
    have harrays : ∀ c ∈ interleavedProbes, c.kind = .MRPArray → c.name = str "a" := by decide
    rcases before with - | ⟨d, before⟩
    · rw [← (List.cons.inj hsplit).1]
    · -- a later array call is not the first of its name
      have hcall : call ∈ interleavedProbes := by
        rw [hsplit]
        exact List.mem_append_right _ List.mem_cons_self
      apply absurd _ (hbefore d List.mem_cons_self)
      rw [harrays call hcall hkind, ← (List.cons.inj hsplit).1]
  obtain ⟨c, hrun, hshapes, -⟩ := captured_shapes.1 interleavedProbes hfirst
  exact ⟨c, hrun, hshapes⟩

end Fhetch
