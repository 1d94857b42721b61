/-
Sessions of the recording API (`src/fhetch_api.cpp`, `src/compiler.cpp`): the
registries of tagged inputs and outputs, and how they reach the compiler, which
keeps what it captured by name.

A name is captured with the kind of the first element stored under it; an element of
another kind is reported and dropped. A single-residue input has no modulus of its
own, so one that no instruction has mentioned is not stored at all.
-/
import Fhetch.Api
import Fhetch.StoredValues
import Fhetch.Lib.Text

set_option autoImplicit false

namespace Fhetch

open Lib

/-! ## Captured records -/

inductive CapturedKind where
  | SRP
  | SRPArray
  | MRP
  | MRPArray
  deriving DecidableEq, Repr

/-- What was captured under a name. -/
structure CapturedRecord (α : Type) where
  name : Str
  kind : CapturedKind
  elements : List α

section Records

variable {α : Type} (name : Str) (kind : CapturedKind)

/-- `find_or_create_record` and an element pushed, unless the kinds disagree. -/
def store_element (records : List (CapturedRecord α)) (e : α) : List (CapturedRecord α) :=
  match records.find? (·.name = name) with
  | none => records ++ [⟨name, kind, [e]⟩]
  | some r =>
    if r.kind ≠ kind then records
    else records.map fun r => if r.name = name then { r with elements := r.elements ++ [e] } else r

def store_input_element (records : List (CapturedRecord CapturedElement)) (e : CapturedElement) :
    List (CapturedRecord CapturedElement) := store_element name kind records e

/-- An address and its modulus. -/
def store_output_probe (records : List (CapturedRecord (ℕ × ℕ))) (e : ℕ × ℕ) :
    List (CapturedRecord (ℕ × ℕ)) := store_element name kind records e

/-- The kind that a name was captured with. -/
def kindOf (records : List (CapturedRecord α)) (name : Str) : Option CapturedKind :=
  (records.find? (·.name = name)).map CapturedRecord.kind

variable {name kind} {records : List (CapturedRecord α)}

theorem kindOf_append (records records' : List (CapturedRecord α)) (n : Str) :
    kindOf (records ++ records') n = (kindOf records n).or (kindOf records' n) := by
  rw [kindOf, List.find?_append, Option.map_or]
  rfl

/-- Pushing an element changes no name and no kind. -/
theorem kindOf_push (records : List (CapturedRecord α)) (e : α) (n : Str) :
    kindOf (records.map fun r => if r.name = name then { r with elements := r.elements ++ [e] } else r)
      n = kindOf records n := by
  induction records with
  | nil => rfl
  | cons r rest ih =>
    have hsplit : ∀ rs : List (CapturedRecord α), ∀ r, kindOf (r :: rs) n =
        if r.name = n then some r.kind else kindOf rs n := by
      intro rs r
      rw [kindOf, List.find?_cons]
      by_cases hn : r.name = n
      · simp [hn]
      · simp [hn, kindOf]
    rw [List.map_cons, hsplit, hsplit, ih]
    split <;> rfl

/-- The first element under a name decides its kind. -/
theorem kindOf_store_element (e : α) (n : Str) : kindOf (store_element name kind records e) n =
    if n = name then some ((kindOf records name).getD kind) else kindOf records n := by
  have hother : kindOf [(⟨name, kind, [e]⟩ : CapturedRecord α)] n = if n = name then some kind else none := by
    rw [kindOf, List.find?_singleton]
    by_cases hn : n = name
    · simp [hn]
    · simp [hn, Ne.symm hn]
  unfold store_element
  split
  · rename_i hnone
    have hkind : kindOf records name = none := by
      rw [kindOf, hnone, Option.map_none]
    rw [kindOf_append, hother]
    by_cases hn : n = name
    · rw [if_pos hn, if_pos hn, hn, hkind, Option.none_or, Option.getD_none]
    · rw [if_neg hn, if_neg hn, Option.or_none]
  · rename_i r hsome
    have hkind : kindOf records name = some r.kind := by
      rw [kindOf, hsome, Option.map_some]
    have hsame : kindOf records n =
        if n = name then some ((kindOf records name).getD kind) else kindOf records n := by
      by_cases hn : n = name
      · rw [if_pos hn, hn, hkind, Option.getD_some]
      · rw [if_neg hn]
    split
    · exact hsame
    · rw [kindOf_push]
      exact hsame

/-- An element changes the records, unless its name was captured with another kind. -/
theorem store_element_eq_iff {e : α} : store_element name kind records e = records ↔
    ∃ k, kindOf records name = some k ∧ k ≠ kind := by
  unfold store_element
  split
  · rename_i hnone
    have hkind : kindOf records name = none := by
      rw [kindOf, hnone, Option.map_none]
    refine ⟨fun h => ?_, fun ⟨k, hk, _⟩ => absurd (hk.symm.trans hkind) (by simp)⟩
    exact absurd (congrArg List.length h) (by simp)
  · rename_i r hsome
    have hkind : kindOf records name = some r.kind := by
      rw [kindOf, hsome, Option.map_some]
    split
    · rename_i hne
      exact ⟨fun _ => ⟨r.kind, hkind, hne⟩, fun _ => rfl⟩
    · rename_i heq
      refine ⟨fun h => ?_, fun ⟨k, hk, hne⟩ => ?_⟩
      · -- the record that was found has grown
        have hname := List.find?_some hsome
        rw [decide_eq_true_iff] at hname
        have hsame := List.map_inj_left.mp (h.trans (List.map_id records).symm) r
          (List.mem_of_find?_eq_some hsome)
        rw [if_pos hname] at hsame
        exact absurd (congrArg (List.length ∘ CapturedRecord.elements) hsame) (by simp)
      · rw [hkind] at hk
        exact absurd (Option.some.inj hk ▸ hne) heq

/-- An element of the kind of its name is stored, and one of another is not. -/
theorem mem_store_element (e x : α) :
    x ∈ (store_element name kind records e).flatMap CapturedRecord.elements ↔
      x ∈ records.flatMap CapturedRecord.elements ∨
        (x = e ∧ (kindOf records name).getD kind = kind) := by
  unfold store_element
  split
  · rename_i hnone
    rw [kindOf, hnone, Option.map_none, Option.getD_none, List.flatMap_append, List.mem_append]
    simp
  · rename_i r hsome
    have hname := List.find?_some hsome
    rw [decide_eq_true_iff] at hname
    have hmem := List.mem_of_find?_eq_some hsome
    rw [kindOf, hsome, Option.map_some, Option.getD_some]
    split
    · rename_i hkind
      simp [hkind]
    · rename_i hkind
      rw [not_not] at hkind
      -- the record of that name grows by the element; the others are as they were
      simp only [hkind, and_true, List.mem_flatMap, List.mem_map]
      constructor
      · rintro ⟨_, ⟨r', hr', rfl⟩, hx⟩
        split at hx
        · rcases List.mem_append.mp hx with hx | hx
          · exact .inl ⟨r', hr', hx⟩
          · exact .inr (List.mem_singleton.mp hx)
        · exact .inl ⟨r', hr', hx⟩
      · rintro (⟨r', hr', hx⟩ | rfl)
        · refine ⟨_, ⟨r', hr', rfl⟩, ?_⟩
          split
          · exact List.mem_append_left _ hx
          · exact hx
        · refine ⟨_, ⟨r, hmem, rfl⟩, ?_⟩
          rw [if_pos hname]
          exact List.mem_append_right _ (List.mem_singleton_self x)

variable (name kind) in
/-- Storing several elements under one name. -/
theorem store_elements_spec (es : List α) :
    ∀ records : List (CapturedRecord α),
      (∀ n, kindOf (es.foldl (store_element name kind) records) n =
        if n = name ∧ es ≠ [] then some ((kindOf records name).getD kind) else kindOf records n) ∧
      ∀ x, x ∈ (es.foldl (store_element name kind) records).flatMap CapturedRecord.elements ↔
        x ∈ records.flatMap CapturedRecord.elements ∨
          (x ∈ es ∧ (kindOf records name).getD kind = kind) := by
  induction es with
  | nil => exact fun records => ⟨fun n => by simp, fun x => by simp⟩
  | cons e es ih =>
    intro records
    obtain ⟨hkind, hmem⟩ := ih (store_element name kind records e)
    rw [List.foldl_cons]
    refine ⟨fun n => ?_, fun x => ?_⟩
    · rw [hkind, kindOf_store_element, kindOf_store_element]
      by_cases hn : n = name
      · simp [hn]
      · simp [hn]
    · rw [hmem, mem_store_element, kindOf_store_element, if_pos rfl, Option.getD_some,
        List.mem_cons, or_and_right, or_assoc]

/-! ### By name -/

/-- What was captured under a name, in order. -/
def elementsUnder (records : List (CapturedRecord α)) (name : Str) : List α :=
  ((records.find? (·.name = name)).map CapturedRecord.elements).getD []

/-- An element goes behind those of its name, if it is of their kind. -/
theorem elementsUnder_store_element (e : α) (n : Str) :
    elementsUnder (store_element name kind records e) n =
      elementsUnder records n ++
        if n = name ∧ (kindOf records name).getD kind = kind then [e] else [] := by
  -- changing a record does not change its name, and so not which one is found
  have hfind : ∀ f : CapturedRecord α → CapturedRecord α, (∀ r, (f r).name = r.name) →
      (records.map f).find? (·.name = n) = (records.find? (·.name = n)).map f := by
    intro f hf
    rw [List.find?_map]
    have hsame : ((fun r : CapturedRecord α => decide (r.name = n)) ∘ f) = fun r => decide (r.name = n) :=
      funext fun r => by rw [Function.comp_apply, hf]
    rw [hsame]
  unfold store_element
  split
  · rename_i hnone
    rw [kindOf, hnone, elementsUnder, elementsUnder, List.find?_append, List.find?_singleton]
    by_cases hn : n = name
    · subst hn
      simp [hnone]
    · simp [hn, Ne.symm hn]
  · rename_i r hsome
    rw [kindOf, hsome, Option.map_some, Option.getD_some]
    split
    · rename_i hkind
      rw [if_neg fun h => hkind h.2, List.append_nil]
    · rename_i hkind
      rw [not_not] at hkind
      rw [elementsUnder, elementsUnder, hfind]
      · by_cases hn : n = name
        · subst hn
          have hname := List.find?_some hsome
          rw [decide_eq_true_iff] at hname
          simp [hsome, hname, hkind]
        · rw [if_neg fun h => hn h.1, List.append_nil]
          rw [Option.map_map]
          refine congrArg (Option.getD · []) (Option.map_congr fun r' hr' => ?_)
          have hname := List.find?_some hr'
          rw [decide_eq_true_iff] at hname
          rw [Function.comp_apply, if_neg fun h => hn (hname.symm.trans h)]
      · intro r'
        split
        · rfl
        · rfl

variable (name kind) in
theorem elementsUnder_store_elements (es : List α) (n : Str) :
    ∀ records : List (CapturedRecord α), elementsUnder (es.foldl (store_element name kind) records) n =
      elementsUnder records n ++
        if n = name ∧ (kindOf records name).getD kind = kind then es else [] := by
  induction es with
  | nil => simp
  | cons e es ih =>
    intro records
    rw [List.foldl_cons, ih, elementsUnder_store_element, kindOf_store_element, if_pos rfl,
      Option.getD_some, List.append_assoc]
    by_cases h : n = name ∧ (kindOf records name).getD kind = kind
    · rw [if_pos h, if_pos h, if_pos h]
      rfl
    · rw [if_neg h, if_neg h, if_neg h]
      rfl

end Records

/-! ## What a tag captures -/

/-- The data of a polynomial; one made without data is zero. -/
def data_or_zeros (p : Polynomial) : List UInt64 :=
  if p.int_data = [] then List.replicate p.ring_dim 0 else p.int_data

/-- A residue as it is captured. -/
def captured_residue (p : Polynomial) (q : UInt64) : CapturedElement where
  addr_id := p.address
  values := (data_or_zeros p).map UInt64.toNat
  modulus := q.toNat

/-- The residues of an MRP have their moduli with them. -/
def mrp_elements (m : MRP) : List CapturedElement :=
  m.base_.filterMap fun q => (m.residues_ q).map fun p => captured_residue p q

/-- A polynomial that no instruction mentioned has no modulus, and is passed over. -/
def srp_elements (mod_map : ℕ → Option UInt64) (p : Polynomial) : List CapturedElement :=
  ((mod_map p.address).map (captured_residue p)).toList

namespace Tagged

def kind : Tagged → CapturedKind
  | POLY _ => .SRP
  | MRP_KIND _ => .MRP
  | MRPA _ => .MRPArray
  | SRPA _ => .SRPArray

/-- What `sync_fhetch_state_to_compiler` stores of an input. -/
def elements (mod_map : ℕ → Option UInt64) : Tagged → List CapturedElement
  | POLY p => srp_elements mod_map p
  | MRP_KIND m => mrp_elements m
  | MRPA ms => ms.flatMap mrp_elements
  | SRPA ps => ps.flatMap (srp_elements mod_map)

end Tagged

/-- The residues of an MRP. -/
def MRP.polynomials (m : MRP) : List Polynomial := m.base_.filterMap m.residues_

/-- The polynomials under a tag. -/
def Tagged.polynomials : Tagged → List Polynomial
  | POLY p => [p]
  | MRP_KIND m => m.polynomials
  | MRPA ms => ms.flatMap MRP.polynomials
  | SRPA ps => ps

/-- Whether an input's polynomials come with moduli. -/
def Tagged.HasModuli : Tagged → Prop
  | POLY _ => False
  | MRP_KIND _ => True
  | MRPA _ => True
  | SRPA _ => False

theorem mem_mrp_elements {m : MRP} {e : CapturedElement} :
    e ∈ mrp_elements m ↔ ∃ q ∈ m.base_, ∃ p, m.residues_ q = some p ∧ captured_residue p q = e := by
  simp [mrp_elements]

theorem mem_srp_elements {mod_map : ℕ → Option UInt64} {p : Polynomial} {e : CapturedElement} :
    e ∈ srp_elements mod_map p ↔ ∃ q, mod_map p.address = some q ∧ captured_residue p q = e := by
  simp [srp_elements]

theorem MRP.mem_polynomials {m : MRP} {p : Polynomial} :
    p ∈ m.polynomials ↔ ∃ q ∈ m.base_, m.residues_ q = some p := List.mem_filterMap

/-- **What a tag captures**: the polynomials whose modulus is known, each as its
residue. -/
theorem Tagged.mem_elements {mod_map : ℕ → Option UInt64} {t : Tagged} {e : CapturedElement}
    (h : e ∈ t.elements mod_map) : ∃ p ∈ t.polynomials, ∃ q, e = captured_residue p q := by
  cases t with
  | POLY p =>
    obtain ⟨q, -, rfl⟩ := mem_srp_elements.mp h
    exact ⟨p, List.mem_singleton_self p, q, rfl⟩
  | MRP_KIND m =>
    obtain ⟨q, hq, p, hp, rfl⟩ := mem_mrp_elements.mp h
    exact ⟨p, MRP.mem_polynomials.mpr ⟨q, hq, hp⟩, q, rfl⟩
  | MRPA ms =>
    obtain ⟨m, hm, hmem⟩ := List.mem_flatMap.mp h
    obtain ⟨q, hq, p, hp, rfl⟩ := mem_mrp_elements.mp hmem
    exact ⟨p, List.mem_flatMap.mpr ⟨m, hm, MRP.mem_polynomials.mpr ⟨q, hq, hp⟩⟩, q, rfl⟩
  | SRPA ps =>
    obtain ⟨p, hp, hmem⟩ := List.mem_flatMap.mp h
    obtain ⟨q, -, rfl⟩ := mem_srp_elements.mp hmem
    exact ⟨p, hp, q, rfl⟩

theorem modulus_of_mem_srp {mod_map : ℕ → Option UInt64} {p : Polynomial} {e : CapturedElement}
    (h : e ∈ srp_elements mod_map p) : (mod_map e.addr_id).isSome := by
  obtain ⟨q, hq, rfl⟩ := mem_srp_elements.mp h
  exact Option.isSome_iff_exists.mpr ⟨q, hq⟩

theorem srp_captures {mod_map : ℕ → Option UInt64} {p : Polynomial}
    (h : (mod_map p.address).isSome) : ∃ q, captured_residue p q ∈ srp_elements mod_map p := by
  obtain ⟨q, hq⟩ := Option.isSome_iff_exists.mp h
  exact ⟨q, mem_srp_elements.mpr ⟨q, hq, rfl⟩⟩

theorem mrp_captures {m : MRP} {p : Polynomial} (h : p ∈ m.polynomials) :
    ∃ q, captured_residue p q ∈ mrp_elements m := by
  obtain ⟨q, hq, hp⟩ := MRP.mem_polynomials.mp h
  exact ⟨q, mem_mrp_elements.mpr ⟨q, hq, p, hp, rfl⟩⟩

/-- A polynomial is captured when its modulus comes with it or is known. -/
theorem Tagged.captures_iff {mod_map : ℕ → Option UInt64} {t : Tagged} {p : Polynomial}
    (hp : p ∈ t.polynomials) :
    (∃ q, captured_residue p q ∈ t.elements mod_map) ↔
      t.HasModuli ∨ (mod_map p.address).isSome := by
  cases t with
  | POLY p' =>
    obtain rfl := List.mem_singleton.mp hp
    exact ⟨fun ⟨q, hq⟩ => .inr (modulus_of_mem_srp hq), fun h => srp_captures (h.resolve_left id)⟩
  | MRP_KIND m => exact ⟨fun _ => .inl trivial, fun _ => mrp_captures hp⟩
  | MRPA ms =>
    obtain ⟨m, hm, hp⟩ := List.mem_flatMap.mp hp
    obtain ⟨q, hq⟩ := mrp_captures hp
    exact ⟨fun _ => .inl trivial, fun _ => ⟨q, List.mem_flatMap.mpr ⟨m, hm, hq⟩⟩⟩
  | SRPA ps =>
    constructor
    · rintro ⟨q, hq⟩
      obtain ⟨p', -, hq⟩ := List.mem_flatMap.mp hq
      exact .inr (modulus_of_mem_srp hq)
    · intro h
      obtain ⟨q, hq⟩ := srp_captures (h.resolve_left id)
      exact ⟨q, List.mem_flatMap.mpr ⟨p, hp, hq⟩⟩

/-! ## Syncing -/

section Sync

variable {α : Type} (f : Tagged → List α)

/-- One half of `sync_fhetch_state_to_compiler`: what each tag of a registry holds,
stored over what was captured before. -/
def sync_registry
    (store : Str → CapturedKind → List (CapturedRecord α) → α → List (CapturedRecord α))
    (registry : List RegistryEntry) (records : List (CapturedRecord α)) : List (CapturedRecord α) :=
  registry.foldl (fun records e => (f e.tagged).foldl (store e.name e.tagged.kind) records) records

/-- The kind of the first input under a name that captures anything. -/
def name_kind (registry : List RegistryEntry) (name : Str) : Option CapturedKind :=
  (registry.find? fun e => e.name = name ∧ f e.tagged ≠ []).map fun e => e.tagged.kind

theorem name_kind_append (registry registry' : List RegistryEntry) (name : Str) :
    name_kind f (registry ++ registry') name =
      (name_kind f registry name).or (name_kind f registry' name) := by
  rw [name_kind, List.find?_append, Option.map_or]
  rfl

variable {f} in
theorem name_kind_isSome {registry : List RegistryEntry} {e : RegistryEntry} (he : e ∈ registry)
    {x : α} (hx : x ∈ f e.tagged) : (name_kind f registry e.name).isSome := by
  rw [name_kind, Option.isSome_map, List.find?_isSome]
  exact ⟨e, he, decide_eq_true ⟨rfl, List.ne_nil_of_mem hx⟩⟩

/-- **What a sync captures**: of each input what its tag captures, unless its name was
taken by another kind. -/
theorem sync_registry_spec (registry : List RegistryEntry) :
    (∀ n, kindOf (sync_registry f store_element registry []) n = name_kind f registry n) ∧
      ∀ x, x ∈ (sync_registry f store_element registry []).flatMap CapturedRecord.elements ↔
        ∃ e ∈ registry, name_kind f registry e.name = some e.tagged.kind ∧
          x ∈ f e.tagged := by
  induction registry using List.reverseRecOn with
  | nil => exact ⟨fun _ => rfl, fun x => by simp [sync_registry]⟩
  | append_singleton registry e ih =>
    obtain ⟨ihkind, ihmem⟩ := ih
    have hsync : sync_registry f store_element (registry ++ [e]) [] =
        (f e.tagged).foldl (store_element e.name e.tagged.kind)
          (sync_registry f store_element registry []) := by
      rw [sync_registry, List.foldl_append]
      rfl
    have hlast : ∀ n, name_kind f [e] n =
        if n = e.name ∧ f e.tagged ≠ [] then some e.tagged.kind else none := by
      intro n
      rw [name_kind, List.find?_singleton]
      by_cases hn : n = e.name
      · by_cases hes : f e.tagged = []
        · simp [hes]
        · simp [hn, hes]
      · simp [hn, Ne.symm hn]
    obtain ⟨hkind, hmem⟩ := store_elements_spec e.name e.tagged.kind
      (f e.tagged) (sync_registry f store_element registry [])
    rw [hsync]
    refine ⟨fun n => ?_, fun x => ?_⟩
    · rw [hkind, name_kind_append, hlast, ihkind, ihkind]
      by_cases hn : n = e.name ∧ f e.tagged ≠ []
      · rw [if_pos hn, if_pos hn, hn.1]
        rcases name_kind f registry e.name with - | k
        · rfl
        · rfl
      · rw [if_neg hn, if_neg hn, Option.or_none]
    · rw [hmem, ihmem, ihkind]
      constructor
      · rintro (⟨e', he', hkind', hx⟩ | ⟨hx, hkind'⟩)
        · refine ⟨e', List.mem_append_left _ he', ?_, hx⟩
          rw [name_kind_append, hkind', Option.some_or]
        · refine ⟨e, List.mem_append_right _ (List.mem_singleton_self e), ?_, hx⟩
          rw [name_kind_append, hlast, if_pos ⟨rfl, List.ne_nil_of_mem hx⟩]
          rcases hname : name_kind f registry e.name with - | k
          · rfl
          · rw [hname, Option.getD_some] at hkind'
            rw [hkind', Option.some_or]
      · rintro ⟨e', he', hkind', hx⟩
        rw [name_kind_append] at hkind'
        rcases List.mem_append.mp he' with he' | he'
        · obtain ⟨k, hk⟩ := Option.isSome_iff_exists.mp (name_kind_isSome he' hx)
          rw [hk, Option.some_or] at hkind'
          exact .inl ⟨e', he', hk.trans hkind', hx⟩
        · obtain rfl := List.mem_singleton.mp he'
          refine .inr ⟨hx, ?_⟩
          rcases hname : name_kind f registry e'.name with - | k
          · rfl
          · rw [hname, Option.some_or, Option.some.injEq] at hkind'
            rw [Option.getD_some, hkind']

/-- The kind that a name has after a sync over what was captured before. -/
def syncedKind (registry : List RegistryEntry) (records : List (CapturedRecord α)) (name : Str) :
    Option CapturedKind := (kindOf records name).or (name_kind f registry name)

/-- The tags of a registry under a name that are of its kind. -/
def tagsUnder (registry : List RegistryEntry) (records : List (CapturedRecord α)) (name : Str) :
    List RegistryEntry :=
  registry.filter fun e => e.name = name ∧ syncedKind f registry records name = some e.tagged.kind

/-- **What a sync captures under a name**: behind what was there, the elements of its
tags, one after another. -/
theorem elementsUnder_sync_registry (registry : List RegistryEntry) (name : Str) :
    ∀ records : List (CapturedRecord α),
      elementsUnder (sync_registry f store_element registry records) name =
        elementsUnder records name ++ (tagsUnder f registry records name).flatMap fun e => f e.tagged := by
  induction registry with
  | nil => exact fun records => (List.append_nil _).symm
  | cons e registry ih =>
    intro records
    have hstored : sync_registry f store_element (e :: registry) records =
        sync_registry f store_element registry ((f e.tagged).foldl (store_element e.name e.tagged.kind) records) :=
      rfl
    have hhead : ∀ rest, name_kind f (e :: rest) name =
        if e.name = name ∧ f e.tagged ≠ [] then some e.tagged.kind else name_kind f rest name := by
      intro rest
      rw [name_kind, List.find?_cons]
      by_cases he : e.name = name ∧ f e.tagged ≠ []
      · simp [he]
      · rw [if_neg he, decide_eq_false he]
        rfl
    -- the kind is settled by the records and the tags up to the first that captures anything
    have hkind : syncedKind f registry ((f e.tagged).foldl (store_element e.name e.tagged.kind) records) name =
        syncedKind f (e :: registry) records name := by
      rw [syncedKind, syncedKind, (store_elements_spec e.name e.tagged.kind (f e.tagged) records).1, hhead]
      by_cases he : e.name = name ∧ f e.tagged ≠ []
      · rw [if_pos he, if_pos ⟨he.1.symm, he.2⟩, he.1]
        rcases kindOf records name with - | k
        · rfl
        · rfl
      · rw [if_neg he, if_neg fun h => he ⟨h.1.symm, h.2⟩]
    have hown : (if name = e.name ∧ (kindOf records e.name).getD e.tagged.kind = e.tagged.kind
          then f e.tagged else []) =
        if e.name = name ∧ syncedKind f (e :: registry) records name = some e.tagged.kind
          then f e.tagged else [] := by
      by_cases hes : f e.tagged = []
      · rw [hes, ite_self, ite_self]
      · refine if_congr ?_ rfl rfl
        rw [eq_comm]
        refine and_congr_right fun hname => ?_
        rw [syncedKind, hhead, if_pos ⟨hname, hes⟩, hname]
        rcases kindOf records name with - | k
        · simp
        · simp
    rw [hstored, ih, elementsUnder_store_elements, hown, List.append_assoc]
    congr 1
    rw [tagsUnder, tagsUnder, hkind, List.filter_cons]
    by_cases he : e.name = name ∧ syncedKind f (e :: registry) records name = some e.tagged.kind
    · rw [if_pos he, if_pos (decide_eq_true he), List.flatMap_cons]
    · rw [if_neg he, if_neg fun h => he (of_decide_eq_true h), List.nil_append]

end Sync

/-- The elements of an output; an unknown modulus is 0. -/
def Tagged.probes (mod_map : ℕ → Option UInt64) : Tagged → List (ℕ × ℕ)
  | POLY p => [(p.address, ((mod_map p.address).getD 0).toNat)]
  | MRP_KIND m => mrp_probes m
  | MRPA ms => ms.flatMap mrp_probes
  | SRPA ps => ps.map fun p => (p.address, ((mod_map p.address).getD 0).toNat)
where
  mrp_probes (m : MRP) : List (ℕ × ℕ) :=
    m.base_.filterMap fun q => (m.residues_ q).map fun p => (p.address, q.toNat)

/-! ## The compiler -/

/-- `Compiler::Impl`, and what the recording API keeps beside it. -/
structure Compiler where
  session : Session := {}
  captured_inputs : List (CapturedRecord CapturedElement) := []
  captured_outputs : List (CapturedRecord (ℕ × ℕ)) := []
  g_synced_since_reset : Bool := false
  running : Bool := false

/-- The first call since the registries were reset takes them over; later ones do
nothing. -/
def Compiler.sync_fhetch_state_to_compiler (c : Compiler) : Compiler :=
  if c.g_synced_since_reset then c
  else
    let mod_map := c.session.address_modulus_map
    { c with
      g_synced_since_reset := true
      captured_inputs := sync_registry (Tagged.elements mod_map) store_input_element
        c.session.input_registry c.captured_inputs
      captured_outputs := sync_registry (Tagged.probes mod_map) store_output_probe
        c.session.probe_registry c.captured_outputs }

/-- The counter rolls back, and the registries and the moduli go. -/
def reset_for_epoch (s : Session) : Session :=
  { s with
    next_address_ := 0
    address_modulus_map := fun _ => none
    input_registry := []
    probe_registry := [] }

/-- A call while running has no effect. -/
def Compiler.start (c : Compiler) : Compiler :=
  if c.running then c
  else
    let s := reset_for_epoch c.session
    { c with
      session := { s with writer := s.writer.clear.start_recording }
      g_synced_since_reset := false
      running := true }

/-- Up to the trace file, which has the recording that is left here. -/
def Compiler.stop (c : Compiler) : Compiler :=
  if c.running then
    let c := c.sync_fhetch_state_to_compiler
    { c with
      session := { c.session with
        writer := (c.session.writer.emit { opcode := .FH_HALT }).stop_recording }
      running := false }
  else c

/-! ## Tags -/

def tag_input (name : Str) (t : Tagged) : Api Unit := fun s =>
  some ((), { s with input_registry := s.input_registry ++ [⟨name, t⟩] })

/-- The comment on an output; the arrays get none. -/
def output_comment (name : Str) (p : Polynomial) : Str :=
  str "output " ++ name ++ str " %" ++ decimal p.address

/-- The addresses that `tag_output` comments on. -/
def Tagged.commented : Tagged → List Polynomial
  | POLY p => [p]
  | MRP_KIND m => m.polynomials
  | MRPA _ => []
  | SRPA _ => []

def tag_output (name : Str) (t : Tagged) : Api Unit := fun s =>
  some ((), { s with
    writer := t.commented.foldl (fun tw p => tw.comment (output_comment name p)) s.writer
    probe_registry := s.probe_registry ++ [⟨name, t⟩] })

/-- Metadata only: no instruction. -/
def bind_modulus (p : Polynomial) (q : UInt64) : Api Unit := remember_modulus p.address q

end Fhetch
