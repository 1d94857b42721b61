/-
What a cycle captures of its tags (`src/compiler.cpp`, `src/fhetch_api.cpp`): from
`start` on, recording calls, tags, `stop` and `replay` in any order.

The first `stop`, or the first `replay` whose trace loads, takes the registries over.
A latch keeps every later one from doing it again: what was tagged by then is in the
records once, and what is tagged behind it is in none. It goes behind what a name held
before: `start` clears no record, and a `replay` with no outputs captured takes over
what was written of them.
-/
import Fhetch.HostPrograms

set_option autoImplicit false

namespace Fhetch

/-! ## Residues -/

/-- The residues of an MRP, one for each entry of its base. -/
def MRP.residues (m : MRP) : List (Polynomial × Option UInt64) :=
  m.base_.filterMap fun q => (m.residues_ q).map fun p => (p, some q)

/-- The residues under a tag, with the modulus that comes with each. -/
def Tagged.residues : Tagged → List (Polynomial × Option UInt64)
  | POLY p => [(p, none)]
  | MRP_KIND m => m.residues
  | MRPA ms => ms.flatMap MRP.residues
  | SRPA ps => ps.map fun p => (p, none)

/-- The modulus of a residue: its own, or what the address was last bound to. -/
def residueModulus (mod_map : ℕ → Option UInt64) (r : Polynomial × Option UInt64) : Option UInt64 :=
  r.2.or (mod_map r.1.address)

/-- A residue as an input, if its modulus is known. -/
def capturedInput (mod_map : ℕ → Option UInt64) (r : Polynomial × Option UInt64) : Option CapturedElement :=
  (residueModulus mod_map r).map (captured_residue r.1)

/-- A residue as an output, at modulus 0 if it has none. -/
def capturedOutput (mod_map : ℕ → Option UInt64) (r : Polynomial × Option UInt64) : ℕ × ℕ :=
  (r.1.address, ((residueModulus mod_map r).getD 0).toNat)

section Residues

variable (mod_map : ℕ → Option UInt64)

theorem mrp_elements_eq (m : MRP) : mrp_elements m = m.residues.filterMap (capturedInput mod_map) := by
  rw [mrp_elements, MRP.residues, List.filterMap_filterMap]
  refine congrArg (List.filterMap · m.base_) (funext fun q => ?_)
  rcases m.residues_ q with - | p
  · rfl
  · rfl

theorem mrp_probes_eq (m : MRP) : Tagged.probes.mrp_probes m = m.residues.map (capturedOutput mod_map) := by
  rw [Tagged.probes.mrp_probes, MRP.residues, List.map_filterMap]
  refine congrArg (List.filterMap · m.base_) (funext fun q => ?_)
  rcases m.residues_ q with - | p
  · rfl
  · rfl

theorem srp_elements_eq (p : Polynomial) : srp_elements mod_map p = (capturedInput mod_map (p, none)).toList :=
  rfl

/-- An input stores its residues whose modulus is known. -/
theorem Tagged.elements_eq (t : Tagged) : t.elements mod_map = t.residues.filterMap (capturedInput mod_map) := by
  cases t with
  | POLY p =>
    rw [Tagged.elements, Tagged.residues, srp_elements_eq, List.filterMap_cons, List.filterMap_nil]
    rcases capturedInput mod_map (p, none) with - | e
    · rfl
    · rfl
  | MRP_KIND m => exact mrp_elements_eq mod_map m
  | MRPA ms =>
    rw [Tagged.elements, Tagged.residues, List.filterMap_flatMap]
    exact List.flatMap_congr fun m _ => mrp_elements_eq mod_map m
  | SRPA ps =>
    rw [Tagged.elements, Tagged.residues, List.filterMap_map, List.filterMap_eq_flatMap_toList]
    rfl

/-- An output stores all of them. -/
theorem Tagged.probes_eq (t : Tagged) : t.probes mod_map = t.residues.map (capturedOutput mod_map) := by
  cases t with
  | POLY p => rfl
  | MRP_KIND m => exact mrp_probes_eq mod_map m
  | MRPA ms =>
    rw [Tagged.probes, Tagged.residues, List.map_flatMap]
    exact List.flatMap_congr fun m _ => mrp_probes_eq mod_map m
  | SRPA ps =>
    rw [Tagged.probes, Tagged.residues, List.map_map]
    rfl

end Residues

/-! ## Cycles -/

/-- The calls of a cycle, behind its `start`. -/
inductive CycleCall where
  | api (c : ApiCall)
  | stop
  | replay (ready : Bool) (listed : List (Str × ℕ)) (loads : Bool)

/-- Whether a call comes to take the registries over: a `replay` does when it populates
the simulator. -/
def CycleCall.TakesOver : CycleCall → Prop
  | api _ => False
  | stop => True
  | replay ready _ loads => ready = true ∧ loads = true

namespace Host

variable (h : Host)

def cycle : CycleCall → Host
  | .api c => h.api c
  | .stop => h.stop
  | .replay ready listed loads => h.replay ready listed loads

/-- What a call that takes the registries over puts them on top of. -/
def beforeSync : CycleCall → Host
  | .replay _ listed _ => h.rehydrate listed
  | _ => h

/-- What the calls tag, in order, if `tag` says what one of them does. -/
def taggedBy (tag : List Polynomial → ApiCall → Option RegistryEntry) (h : Host) :
    List CycleCall → List RegistryEntry
  | [] => []
  | .api c :: calls => (tag h.polys c).toList ++ taggedBy tag (h.api c) calls
  | c :: calls => taggedBy tag (h.cycle c) calls

/-- The inputs that the calls tag. -/
def taggedInputs (calls : List CycleCall) : List RegistryEntry := h.taggedBy ApiCall.inputTag calls

/-- The outputs that the calls tag. -/
def taggedOutputs (calls : List CycleCall) : List RegistryEntry := h.taggedBy ApiCall.outputTag calls

/-- What comes later is tagged on top. -/
theorem taggedBy_append (tag : List Polynomial → ApiCall → Option RegistryEntry)
    (before after : List CycleCall) : ∀ h : Host, h.taggedBy tag (before ++ after) =
      h.taggedBy tag before ++ (Runs.run cycle h before).taggedBy tag after := by
  induction before with
  | nil => exact fun h => (List.nil_append _).symm
  | cons c before ih =>
    intro h
    cases c with
    | api c =>
      rw [List.cons_append, taggedBy, taggedBy, ih, List.append_assoc]
      rfl
    | stop => exact ih _
    | replay ready listed loads => exact ih _

/-! ### Up to the take-over -/

/-- A cycle whose registries have not been taken over: what they hold, and what was
captured as inputs before the cycle. -/
structure Recording (s : Host) (inputs outputs : List RegistryEntry)
    (captured : List (CapturedRecord CapturedElement)) : Prop where
  running : s.compiler.running = true
  armed : s.compiler.g_synced_since_reset = false
  inputs : s.compiler.session.input_registry = inputs
  outputs : s.compiler.session.probe_registry = outputs
  captured : s.compiler.captured_inputs = captured

/-- `start` empties the registries and keeps the records. -/
theorem recording_start (hidle : h.compiler.running = false) :
    h.start.Recording [] [] h.compiler.captured_inputs := by
  have hstart : h.compiler.start = { h.compiler with
      session := { reset_for_epoch h.compiler.session with
        writer := h.compiler.session.writer.clear.start_recording }
      g_synced_since_reset := false
      running := true } := if_neg (Bool.not_eq_true _ ▸ hidle)
  unfold start
  rw [hstart]
  exact ⟨rfl, rfl, rfl, rfl, rfl⟩

/-- Rehydrating reaches the outputs only. -/
theorem rehydrate_frame (listed : List (Str × ℕ)) : h.rehydrate listed = { h with
    compiler := { h.compiler with captured_outputs := (h.rehydrate listed).compiler.captured_outputs } } := by
  unfold rehydrate
  split
  · rfl
  · rfl

variable {h} {s : Host} {inputs outputs : List RegistryEntry}
  {captured : List (CapturedRecord CapturedElement)}

/-- **One call** before the take-over adds its tag. -/
theorem Recording.api (hs : s.Recording inputs outputs captured) (c : ApiCall) :
    (s.api c).Recording (inputs ++ (c.inputTag s.polys).toList) (outputs ++ (c.outputTag s.polys).toList)
      captured := by
  obtain ⟨hin, hout⟩ := s.api_registries c
  have hframe := s.api_frame c
  refine ⟨?_, ?_, ?_, ?_, ?_⟩
  · rw [hframe]
    exact hs.running
  · rw [hframe]
    exact hs.armed
  · rw [hin, hs.inputs]
  · rw [hout, hs.outputs]
  · rw [hframe]
    exact hs.captured

theorem Recording.rehydrate (hs : s.Recording inputs outputs captured) (listed : List (Str × ℕ)) :
    (s.rehydrate listed).Recording inputs outputs captured := by
  rw [rehydrate_frame]
  exact ⟨hs.running, hs.armed, hs.inputs, hs.outputs, hs.captured⟩

/-- A `replay` that stops short of the simulator adds nothing. -/
theorem Recording.replay (hs : s.Recording inputs outputs captured) {ready loads : Bool}
    (listed : List (Str × ℕ)) (hshort : ¬ (ready = true ∧ loads = true)) :
    (s.replay ready listed loads).Recording inputs outputs captured := by
  unfold Host.replay
  split
  · rename_i hready
    rw [if_neg fun hloads => hshort ⟨hready, hloads⟩]
    exact hs.rehydrate listed
  · exact hs

/-- **A run** before the take-over: the registries hold its tags. -/
theorem Recording.run (calls : List CycleCall) (hcalls : ∀ c ∈ calls, ¬ c.TakesOver) :
    ∀ {s : Host} {inputs outputs : List RegistryEntry}, s.Recording inputs outputs captured →
      (Runs.run cycle s calls).Recording (inputs ++ s.taggedInputs calls)
        (outputs ++ s.taggedOutputs calls) captured := by
  induction calls with
  | nil =>
    intro s inputs outputs hs
    rw [taggedInputs, taggedOutputs, taggedBy, taggedBy, List.append_nil, List.append_nil]
    exact hs
  | cons c calls ih =>
    intro s inputs outputs hs
    have hrest := fun c' hc' => hcalls c' (List.mem_cons_of_mem _ hc')
    have hc := hcalls c List.mem_cons_self
    cases c with
    | api c =>
      rw [taggedInputs, taggedOutputs, taggedBy, taggedBy, ← List.append_assoc, ← List.append_assoc]
      exact ih hrest (hs.api c)
    | stop => exact absurd trivial hc
    | replay ready listed loads => exact ih hrest (hs.replay listed hc)

/-! ### The take-over -/

/-- What the first sync of a cycle leaves. -/
theorem Recording.sync (hs : s.Recording inputs outputs captured) : s.sync_fhetch_state_to_compiler = { s with
    compiler := { s.compiler with
      g_synced_since_reset := true
      captured_inputs := sync_registry s.stored_elements store_element inputs captured
      captured_outputs := sync_registry (Tagged.probes s.compiler.session.address_modulus_map) store_element
        outputs s.compiler.captured_outputs } } := by
  unfold sync_fhetch_state_to_compiler
  rw [if_neg (Bool.not_eq_true _ ▸ hs.armed), hs.inputs, hs.outputs, hs.captured]
  rfl

theorem Recording.beforeSync (hs : s.Recording inputs outputs captured) (c : CycleCall) :
    (s.beforeSync c).Recording inputs outputs captured := by
  cases c with
  | api c => exact hs
  | stop => exact hs
  | replay ready listed loads => exact hs.rehydrate listed

/-- **The take-over**: both registries are stored, and the latch is set. -/
theorem Recording.takeOver (hs : s.Recording inputs outputs captured) {c : CycleCall} (hc : c.TakesOver) :
    (s.cycle c).compiler.g_synced_since_reset = true ∧
      (s.cycle c).compiler.captured_inputs =
        sync_registry (s.beforeSync c).stored_elements store_element inputs captured ∧
      (s.cycle c).compiler.captured_outputs =
        sync_registry (Tagged.probes (s.beforeSync c).compiler.session.address_modulus_map) store_element
          outputs (s.beforeSync c).compiler.captured_outputs := by
  cases c with
  | api c => exact hc.elim
  | stop =>
    have hstop : s.cycle .stop = { s.sync_fhetch_state_to_compiler with
        compiler := { s.sync_fhetch_state_to_compiler.compiler with
          session := (s.cycle .stop).compiler.session
          running := false } } := by
      unfold Host.cycle Host.stop
      rw [if_pos hs.running]
    rw [hstop, hs.sync]
    exact ⟨rfl, rfl, rfl⟩
  | replay ready listed loads =>
    have hreplay : s.cycle (.replay ready listed loads) =
        (s.rehydrate listed).sync_fhetch_state_to_compiler := by
      show s.replay ready listed loads = _
      unfold Host.replay
      rw [if_pos hc.1, if_pos hc.2]
    rw [hreplay, (hs.rehydrate listed).sync]
    exact ⟨rfl, rfl, rfl⟩

/-! ### Behind it -/

/-- A latched sync does nothing. -/
theorem sync_of_synced (hsynced : s.compiler.g_synced_since_reset = true) :
    s.sync_fhetch_state_to_compiler = s := if_pos hsynced

/-- The outputs that `replay` takes over when there are none. -/
def rehydrated (listed : List (Str × ℕ)) : List (CapturedRecord (ℕ × ℕ)) :=
  listed.foldl (fun records out => store_element out.1 .SRP records (out.2, 0)) []

/-- What stays of a host whose registries were taken over: its records, except that a
`replay` may find no output among them and take over a list of them. -/
structure Keeps (s : Host) (calls : List CycleCall) (t : Host) : Prop where
  synced : t.compiler.g_synced_since_reset = true
  inputs : t.compiler.captured_inputs = s.compiler.captured_inputs
  outputs : t.compiler.captured_outputs = s.compiler.captured_outputs ∨
    s.compiler.captured_outputs = [] ∧ ∃ ready listed loads,
      .replay ready listed loads ∈ calls ∧ t.compiler.captured_outputs = rehydrated listed

/-- Rehydrating takes over a list, or nothing. -/
theorem rehydrate_outputs (t : Host) (listed : List (Str × ℕ)) :
    (t.rehydrate listed).compiler.captured_outputs = t.compiler.captured_outputs ∨
      t.compiler.captured_outputs = [] ∧
        (t.rehydrate listed).compiler.captured_outputs = rehydrated listed := by
  unfold rehydrate
  split
  · rename_i hnone
    exact .inr ⟨List.isEmpty_iff.mp hnone, rfl⟩
  · exact .inl rfl

/-- **One call** behind the take-over changes no record; the outputs are rehydrated only
where there are none. -/
theorem Keeps.cycle {t : Host} {calls : List CycleCall} (ht : s.Keeps calls t) (c : CycleCall)
    (hc : c ∈ calls) : s.Keeps calls (t.cycle c) := by
  cases c with
  | api c =>
    have hframe : (t.cycle (.api c)).compiler = _ := t.api_frame c
    refine ⟨?_, ?_, ?_⟩
    · rw [hframe]
      exact ht.synced
    · rw [hframe]
      exact ht.inputs
    · rw [hframe]
      exact ht.outputs
  | stop =>
    show s.Keeps calls t.stop
    -- what was taken over is not taken over again
    unfold stop
    rw [sync_of_synced ht.synced]
    split
    · exact ⟨ht.synced, ht.inputs, ht.outputs⟩
    · exact ht
  | replay ready listed loads =>
    have hrehydrated : s.Keeps calls (t.rehydrate listed) := by
      refine ⟨?_, ?_, ?_⟩
      · rw [rehydrate_frame]
        exact ht.synced
      · rw [rehydrate_frame]
        exact ht.inputs
      · rcases rehydrate_outputs t listed with hsame | ⟨hnone, hlisted⟩
        · rw [hsame]
          exact ht.outputs
        · rcases ht.outputs with hkept | ⟨hempty, -⟩
          · exact .inr ⟨hkept ▸ hnone, ready, listed, loads, hc, hlisted⟩
          · exact .inr ⟨hempty, ready, listed, loads, hc, hlisted⟩
    show s.Keeps calls (t.replay ready listed loads)
    unfold Host.replay
    split
    · dsimp only
      rw [sync_of_synced hrehydrated.synced, ite_self]
      exact hrehydrated
    · exact ht

/-- **A run** behind the take-over. -/
theorem Keeps.run {calls : List CycleCall} (after : List CycleCall) (hafter : after ⊆ calls) :
    ∀ {t : Host}, s.Keeps calls t → s.Keeps calls (Runs.run Host.cycle t after) := by
  induction after with
  | nil => exact fun ht => ht
  | cons c after ih =>
    exact fun ht => ih (List.subset_of_cons_subset hafter) (ht.cycle c (hafter List.mem_cons_self))

/-- **A call** forgets no modulus. -/
theorem cycle_known (t : Host) (c : CycleCall) (b : ℕ)
    (hb : (t.compiler.session.address_modulus_map b).isSome) :
    ((t.cycle c).compiler.session.address_modulus_map b).isSome := by
  have hsync : t.sync_fhetch_state_to_compiler.compiler.session = t.compiler.session := by
    unfold sync_fhetch_state_to_compiler
    split
    · rfl
    · rfl
  cases c with
  | api c => exact t.api_known c b hb
  | stop =>
    show (t.stop.compiler.session.address_modulus_map b).isSome
    unfold stop
    split
    · show (t.sync_fhetch_state_to_compiler.compiler.session.address_modulus_map b).isSome
      rw [hsync]
      exact hb
    · exact hb
  | replay ready listed loads =>
    have hrehydrated : (t.rehydrate listed).compiler.session = t.compiler.session := by
      rw [rehydrate_frame]
    have hsynced : (t.rehydrate listed).sync_fhetch_state_to_compiler.compiler.session =
        t.compiler.session := by
      unfold sync_fhetch_state_to_compiler
      split
      · exact hrehydrated
      · exact hrehydrated
    show ((t.replay ready listed loads).compiler.session.address_modulus_map b).isSome
    unfold Host.replay
    split
    · dsimp only
      split
      · rw [hsynced]
        exact hb
      · rw [hrehydrated]
        exact hb
    · exact hb

end Host

open Host

/-! ## Addresses -/

/-- The addresses of the residues under a tag. -/
def Tagged.addresses (t : Tagged) : List ℕ := t.residues.map fun r => r.1.address

/-- The addresses of those whose modulus is known. -/
def Tagged.known (mod_map : ℕ → Option UInt64) (t : Tagged) : List ℕ :=
  (t.residues.filter fun r => (residueModulus mod_map r).isSome).map fun r => r.1.address

/-- A sync stores an input at the addresses whose modulus is known to it. -/
theorem Host.stored_addresses (s : Host) (t : Tagged) :
    (s.stored_elements t).map CapturedElement.addr_id =
      t.known s.compiler.session.address_modulus_map := by
  have hkeeps : CapturedElement.addr_id ∘ s.stored_element = CapturedElement.addr_id := by
    funext e
    rw [Function.comp_apply, Host.stored_element]
    split
    · rfl
    · rfl
  rw [Host.stored_elements, List.map_map, hkeeps, Tagged.elements_eq, Tagged.known]
  induction t.residues with
  | nil => rfl
  | cons r residues ih =>
    rw [List.filterMap_cons, List.filter_cons, capturedInput]
    rcases residueModulus s.compiler.session.address_modulus_map r with - | q
    · exact ih
    · exact congrArg (r.1.address :: ·) ih

/-- It stores an output at all of them. -/
theorem Tagged.probe_addresses (mod_map : ℕ → Option UInt64) (t : Tagged) :
    (t.probes mod_map).map Prod.fst = t.addresses := by
  rw [Tagged.probes_eq, List.map_map]
  rfl

/-- Where no modulus is forgotten, what was known stays known. -/
theorem Tagged.known_sublist {mod_map mod_map' : ℕ → Option UInt64}
    (h : ∀ b, (mod_map b).isSome → (mod_map' b).isSome) (t : Tagged) :
    (t.known mod_map).Sublist (t.known mod_map') := by
  refine (List.monotone_filter_right _ fun r hr => ?_).map _
  rw [residueModulus, Option.isSome_or] at hr ⊢
  rcases Bool.or_eq_true_iff.mp hr with hown | hmap
  · rw [hown, Bool.true_or]
  · rw [h _ hmap, Bool.or_true]

/-! ## Captured once -/

section Counting

variable {ι α : Type} [DecidableEq α]

/-- Where items give no more than they could, an element that comes as often as it could
comes so from each of them, and from no item behind them. -/
theorem count_flatMap_of_eq {taken all : ι → List α} {early late : List ι} {a : α}
    (hsub : ∀ e, (taken e).Sublist (all e))
    (hcount : (early.flatMap taken).count a = ((early ++ late).flatMap all).count a) :
    (∀ e ∈ early, (taken e).count a = (all e).count a) ∧ ∀ e ∈ late, a ∉ all e := by
  induction early with
  | nil =>
    rw [List.nil_append] at hcount
    have hnone : a ∉ late.flatMap all := List.count_eq_zero.mp hcount.symm
    exact ⟨fun e he => absurd he List.not_mem_nil, fun e he ha => hnone (List.mem_flatMap_of_mem he ha)⟩
  | cons e early ih =>
    rw [List.flatMap_cons, List.cons_append, List.flatMap_cons, List.count_append, List.count_append] at hcount
    have hhead : (taken e).count a ≤ (all e).count a := (hsub e).count_le a
    have htail : (early.flatMap taken).count a ≤ ((early ++ late).flatMap all).count a := by
      rw [List.flatMap_append, List.count_append]
      exact Nat.le_add_right_of_le ((List.Sublist.flatMap_right early fun e _ => hsub e).count_le a)
    obtain ⟨hearly, hlate⟩ := ih (by omega)
    refine ⟨fun e' he' => ?_, hlate⟩
    rcases List.mem_cons.mp he' with rfl | he'
    · omega
    · exact hearly e' he'

end Counting

/-- Each residue under a tag is captured under its name, as often as it is tagged under
it. -/
def CapturedOnce (addresses : Tagged → List ℕ) (captured : Str → List ℕ) (tags : List RegistryEntry) : Prop :=
  ∀ e ∈ tags, ∀ a ∈ addresses e.tagged, (captured e.name).count a =
    ((tags.filter fun e' => e'.name = e.name).flatMap fun e' => addresses e'.tagged).count a

section Taken

variable {α : Type} (f : Tagged → List α) (addr : α → ℕ) (addresses : Tagged → List ℕ)
  (records : List (CapturedRecord α)) (early late : List RegistryEntry)

/-- A sync takes all of the tags `early`, and there are none to take in `late`: each tag
is of the kind of its record, and each address is known to the sync. -/
structure AllTaken : Prop where
  kind : ∀ e ∈ early, f e.tagged ≠ [] → syncedKind f early records e.name = some e.tagged.kind
  known : ∀ e ∈ early, addresses e.tagged = (f e.tagged).map addr
  late : ∀ e ∈ late, addresses e.tagged = []

/-- No record holds under its name what is tagged. -/
def NoneHeld (tags : List RegistryEntry) : Prop :=
  ∀ e ∈ tags, ∀ a ∈ addresses e.tagged, a ∉ (elementsUnder records e.name).map addr

/-- What a sync takes of a tag. -/
def takenOf (e : RegistryEntry) : List ℕ :=
  if syncedKind f early records e.name = some e.tagged.kind then (f e.tagged).map addr else []

/-- Behind what was under a name, a sync puts what it takes of its tags. -/
theorem addresses_sync_registry (name : Str) :
    (elementsUnder (sync_registry f store_element early records) name).map addr =
      (elementsUnder records name).map addr ++
        (early.filter fun e => e.name = name).flatMap (takenOf f addr records early) := by
  rw [elementsUnder_sync_registry, List.map_append, List.map_flatMap, tagsUnder]
  congr 1
  generalize hkinds : syncedKind f early records = kinds
  have htaken : ∀ e : RegistryEntry, e.name = name → takenOf f addr records early e =
      if kinds name = some e.tagged.kind then (f e.tagged).map addr else [] := by
    rintro e rfl
    rw [takenOf, hkinds]
  clear hkinds
  generalize takenOf f addr records early = taken at htaken ⊢
  induction early with
  | nil => rfl
  | cons e early ih =>
    rw [List.filter_cons, List.filter_cons]
    by_cases hname : e.name = name
    · rw [if_pos (decide_eq_true hname), List.flatMap_cons, htaken e hname, ← ih]
      by_cases hkind : kinds name = some e.tagged.kind
      · rw [if_pos (decide_eq_true ⟨hname, hkind⟩), List.flatMap_cons, if_pos hkind]
      · rw [if_neg fun h => hkind (of_decide_eq_true h).2, if_neg hkind, List.nil_append]
    · rw [if_neg fun h => hname (of_decide_eq_true h).1, if_neg fun h => hname (of_decide_eq_true h), ih]

variable {f addr addresses records early late} {captured : Str → List ℕ}

/-- **Where all is taken**, each residue is captured once just if no record held it. -/
theorem AllTaken.capturedOnce_iff (hall : AllTaken f addr addresses records early late)
    (hcaptured : sync_registry f store_element early records ≠ [] →
      ∀ n, captured n = (elementsUnder (sync_registry f store_element early records) n).map addr) :
    CapturedOnce addresses captured (early ++ late) ↔ NoneHeld addr addresses records (early ++ late) := by
  have htaken : ∀ e ∈ early, takenOf f addr records early e = addresses e.tagged := by
    intro e he
    rw [hall.known e he, takenOf]
    by_cases hnone : f e.tagged = []
    · rw [hnone, List.map_nil, ite_self]
    · rw [if_pos (hall.kind e he hnone)]
  have htags : ∀ name, (early.filter fun e => e.name = name).flatMap (takenOf f addr records early) =
      ((early ++ late).filter fun e => e.name = name).flatMap fun e => addresses e.tagged := by
    intro name
    have hlate : ((late.filter fun e => e.name = name).flatMap fun e => addresses e.tagged) = [] :=
      List.flatMap_eq_nil_iff.mpr fun e he => hall.late e (List.mem_of_mem_filter he)
    rw [List.filter_append, List.flatMap_append, hlate, List.append_nil]
    exact List.flatMap_congr fun e he => htaken e (List.mem_of_mem_filter he)
  refine forall₂_congr fun e he => forall₂_congr fun a ha => ?_
  have hmem : a ∈ ((early ++ late).filter fun e' => e'.name = e.name).flatMap fun e' => addresses e'.tagged :=
    List.mem_flatMap_of_mem (List.mem_filter.mpr ⟨he, decide_eq_true rfl⟩) ha
  have hsome : sync_registry f store_element early records ≠ [] := by
    intro hnone
    have happend := addresses_sync_registry f addr records early e.name
    rw [hnone, htags] at happend
    exact List.not_mem_nil ((List.append_eq_nil_iff.mp happend.symm).2 ▸ hmem)
  rw [hcaptured hsome, addresses_sync_registry, htags, List.count_append, Nat.add_eq_right, List.count_eq_zero]

/-- **Where no record held them**, each residue is captured once only if all is taken. -/
theorem allTaken_of_capturedOnce (hheld : NoneHeld addr addresses records (early ++ late))
    (hsub : ∀ t, ((f t).map addr).Sublist (addresses t))
    (hcaptured : (∀ n, captured n = (elementsUnder (sync_registry f store_element early records) n).map addr) ∨
      ∀ e ∈ early ++ late, ∀ a ∈ addresses e.tagged, a ∉ captured e.name)
    (honce : CapturedOnce addresses captured (early ++ late)) :
    AllTaken f addr addresses records early late := by
  have hempty : ∀ {e : RegistryEntry}, addresses e.tagged = [] → f e.tagged = [] := by
    intro e he
    exact List.map_eq_nil_iff.mp (List.sublist_nil.mp (he ▸ hsub e.tagged))
  have hsubTaken : ∀ e, (takenOf f addr records early e).Sublist (addresses e.tagged) := by
    intro e
    unfold takenOf
    split
    · exact hsub e.tagged
    · exact List.nil_sublist _
  -- an address as often captured as tagged is taken of each tag, and of none behind the sync
  have hcount : ∀ e ∈ early ++ late, ∀ a ∈ addresses e.tagged,
      (e ∈ early → (takenOf f addr records early e).count a = (addresses e.tagged).count a) ∧ e ∉ late := by
    intro e he a ha
    have hname : ∀ {tags : List RegistryEntry}, e ∈ tags → e ∈ tags.filter fun e' => e'.name = e.name :=
      fun he => List.mem_filter.mpr ⟨he, decide_eq_true rfl⟩
    have heq := honce e he a ha
    rcases hcaptured with hsynced | hnone
    · rw [hsynced, addresses_sync_registry, List.count_append, List.count_eq_zero.mpr (hheld e he a ha),
        Nat.zero_add, List.filter_append] at heq
      obtain ⟨hearly, hlate⟩ := count_flatMap_of_eq hsubTaken heq
      exact ⟨fun he => hearly e (hname he), fun he => hlate e (hname he) ha⟩
    · rw [List.count_eq_zero.mpr (hnone e he a ha)] at heq
      exact absurd (List.mem_flatMap_of_mem (hname he) ha) (List.count_eq_zero.mp heq.symm)
  have htaken : ∀ e ∈ early, takenOf f addr records early e = addresses e.tagged := by
    intro e he
    have hperm : (takenOf f addr records early e).Perm (addresses e.tagged) := by
      refine List.perm_iff_count.mpr fun a => ?_
      by_cases ha : a ∈ addresses e.tagged
      · exact (hcount e (List.mem_append_left _ he) a ha).1 he
      · rw [List.count_eq_zero.mpr ha, List.count_eq_zero.mpr fun h => ha ((hsubTaken e).subset h)]
    exact (hsubTaken e).eq_of_length hperm.length_eq
  refine ⟨fun e he hsome => ?_, fun e he => ?_, fun e he => ?_⟩
  · by_contra hkind
    have hnone := htaken e he
    rw [takenOf, if_neg hkind] at hnone
    exact hsome (hempty hnone.symm)
  · have hown := htaken e he
    unfold takenOf at hown
    split at hown
    · exact hown.symm
    · rw [← hown, hempty hown.symm, List.map_nil]
  · refine List.eq_nil_iff_forall_not_mem.mpr fun a ha => ?_
    exact (hcount e (List.mem_append_right _ he) a ha).2 he

end Taken

/-! ## Cycles cut at the take-over -/

/-- A cycle, cut at the first call that takes the registries over. -/
structure TagCycle where
  host : Host
  before : List CycleCall
  call : CycleCall
  after : List CycleCall
  idle : host.compiler.running = false
  short : ∀ c ∈ before, ¬ c.TakesOver
  takes : call.TakesOver

namespace TagCycle

variable (y : TagCycle)

/-- All calls behind `start`. -/
def calls : List CycleCall := y.before ++ y.call :: y.after

/-- The host that the registries are taken over from. -/
def found : Host := (Runs.run Host.cycle y.host.start y.before).beforeSync y.call

/-- The host that the calls leave. -/
def left : Host := Runs.run Host.cycle y.host.start y.calls

/-- The inputs tagged when the registries are taken over. -/
def inputs : List RegistryEntry := y.host.start.taggedInputs y.before

/-- Those tagged from then on. -/
def lateInputs : List RegistryEntry :=
  (Runs.run Host.cycle y.host.start y.before).taggedInputs (y.call :: y.after)

def outputs : List RegistryEntry := y.host.start.taggedOutputs y.before

def lateOutputs : List RegistryEntry :=
  (Runs.run Host.cycle y.host.start y.before).taggedOutputs (y.call :: y.after)

/-- The inputs at an end of the cycle, by their addresses: those whose modulus is known
there. -/
def inputAddresses : Tagged → List ℕ := Tagged.known y.left.compiler.session.address_modulus_map

/-- **Every tag is captured once**: each residue of an input whose modulus is known, and
each residue of an output. -/
def TagsCapturedOnce : Prop :=
  CapturedOnce y.inputAddresses
      (fun n => (elementsUnder y.left.compiler.captured_inputs n).map CapturedElement.addr_id)
      (y.host.start.taggedInputs y.calls) ∧
    CapturedOnce Tagged.addresses (fun n => (elementsUnder y.left.compiler.captured_outputs n).map Prod.fst)
      (y.host.start.taggedOutputs y.calls)

/-- No tag is lost: there is nothing to capture under one that comes after the take-over,
each one before it is of the kind of its record, and no modulus becomes known only later. -/
def NoTagLost : Prop :=
  AllTaken y.found.stored_elements CapturedElement.addr_id y.inputAddresses y.host.compiler.captured_inputs
      y.inputs y.lateInputs ∧
    AllTaken (Tagged.probes y.found.compiler.session.address_modulus_map) Prod.fst Tagged.addresses
      y.found.compiler.captured_outputs y.outputs y.lateOutputs

/-- No residue was captured under its name before: by an earlier cycle, or as an output
that a `replay` took over. -/
def NoTagHeld : Prop :=
  NoneHeld CapturedElement.addr_id y.inputAddresses y.host.compiler.captured_inputs
      (y.host.start.taggedInputs y.calls) ∧
    NoneHeld Prod.fst Tagged.addresses y.found.compiler.captured_outputs (y.host.start.taggedOutputs y.calls)

/-- No residue of an output is on the list that a `replay` behind the take-over reads. -/
def NoTagListed : Prop :=
  ∀ ready listed loads, .replay ready listed loads ∈ y.after →
    ∀ e ∈ y.host.start.taggedOutputs y.calls, ∀ a ∈ e.tagged.addresses, (e.name, a) ∉ listed

/-- What is rehydrated under a name was listed under it. -/
theorem mem_rehydrated {name : Str} {a : ℕ} (listed : List (Str × ℕ)) :
    ∀ {records : List (CapturedRecord (ℕ × ℕ))},
      a ∈ (elementsUnder (listed.foldl (fun records out => store_element out.1 .SRP records (out.2, 0))
        records) name).map Prod.fst →
      a ∈ (elementsUnder records name).map Prod.fst ∨ (name, a) ∈ listed := by
  induction listed with
  | nil => exact fun ha => .inl ha
  | cons out listed ih =>
    intro records ha
    rcases ih ha with ha | ha
    · rw [elementsUnder_store_element, List.map_append] at ha
      rcases List.mem_append.mp ha with ha | ha
      · exact .inl ha
      · split at ha
        · rename_i hname
          obtain rfl := List.mem_singleton.mp ha
          rw [hname.1]
          exact .inr List.mem_cons_self
        · exact absurd ha List.not_mem_nil
    · exact .inr (List.mem_cons_of_mem _ ha)

/-- **The records that a cycle leaves** are those of the take-over, except where it took
over no output. -/
theorem left_records (y : TagCycle) :
    y.left.compiler.captured_inputs =
        sync_registry y.found.stored_elements store_element y.inputs y.host.compiler.captured_inputs ∧
      (y.left.compiler.captured_outputs =
          sync_registry (Tagged.probes y.found.compiler.session.address_modulus_map) store_element y.outputs
            y.found.compiler.captured_outputs ∨
        sync_registry (Tagged.probes y.found.compiler.session.address_modulus_map) store_element y.outputs
            y.found.compiler.captured_outputs = [] ∧
          ∃ ready listed loads, .replay ready listed loads ∈ y.after ∧
            y.left.compiler.captured_outputs = rehydrated listed) := by
  have hfound : (Runs.run Host.cycle y.host.start y.before).Recording ([] ++ y.inputs) ([] ++ y.outputs)
      y.host.compiler.captured_inputs :=
    Recording.run y.before y.short (recording_start y.host y.idle)
  rw [List.nil_append, List.nil_append] at hfound
  obtain ⟨hsynced, hinputs, houtputs⟩ := hfound.takeOver y.takes
  have hleft : ((Runs.run Host.cycle y.host.start y.before).cycle y.call).Keeps y.after y.left := by
    have hrun : y.left = Runs.run Host.cycle ((Runs.run Host.cycle y.host.start y.before).cycle y.call) y.after :=
      Runs.run_append Host.cycle y.host.start y.before (y.call :: y.after)
    rw [hrun]
    exact Keeps.run y.after (List.Subset.refl _) ⟨hsynced, rfl, .inl rfl⟩
  refine ⟨hleft.inputs.trans hinputs, ?_⟩
  rw [found, ← houtputs]
  exact hleft.outputs

/-- What is known at the take-over is known at the end. -/
theorem known_left (y : TagCycle) (b : ℕ) (hb : (y.found.compiler.session.address_modulus_map b).isSome) :
    (y.left.compiler.session.address_modulus_map b).isSome := by
  have hbefore : ((Runs.run Host.cycle y.host.start y.before).compiler.session.address_modulus_map b).isSome := by
    rcases hcall : y.call with c | - | ⟨ready, listed, loads⟩
    · rw [found, hcall] at hb
      exact hb
    · rw [found, hcall] at hb
      exact hb
    · rw [found, hcall, beforeSync, rehydrate_frame] at hb
      exact hb
  have hrun : y.left = Runs.run Host.cycle (Runs.run Host.cycle y.host.start y.before) (y.call :: y.after) :=
    Runs.run_append Host.cycle y.host.start y.before (y.call :: y.after)
  rw [hrun]
  exact @Runs.run_invariant_of_always _ _ _ (fun t => (t.compiler.session.address_modulus_map b).isSome)
    (fun t c ht => cycle_known t c b ht) _ hbefore _

end TagCycle

/-- **Every tag is captured once.** Take a cycle from `start` on, cut at the first call that
takes the registries over, and any point behind that call, such as wherever a `replay`
populates the simulator. If no tag is lost, each residue is captured once just if none
was captured before; if none was, it is captured once just if no tag is lost. -/
theorem tags_captured_once_iff (y : TagCycle) :
    (y.NoTagLost → (y.TagsCapturedOnce ↔ y.NoTagHeld)) ∧
      (y.NoTagHeld → y.NoTagListed → (y.TagsCapturedOnce ↔ y.NoTagLost)) := by
  obtain ⟨hinputs, houtputs⟩ := y.left_records
  have hin : y.host.start.taggedInputs y.calls = y.inputs ++ y.lateInputs :=
    taggedBy_append ApiCall.inputTag y.before (y.call :: y.after) y.host.start
  have hout : y.host.start.taggedOutputs y.calls = y.outputs ++ y.lateOutputs :=
    taggedBy_append ApiCall.outputTag y.before (y.call :: y.after) y.host.start
  have hiff : y.NoTagLost → (y.TagsCapturedOnce ↔ y.NoTagHeld) := by
    rintro ⟨hinTaken, houtTaken⟩
    unfold TagCycle.TagsCapturedOnce TagCycle.NoTagHeld
    rw [hin, hout]
    refine and_congr (hinTaken.capturedOnce_iff fun _ n => by rw [hinputs])
      (houtTaken.capturedOnce_iff fun hsome n => ?_)
    rcases houtputs with hsame | ⟨hnone, -⟩
    · rw [hsame]
    · exact absurd hnone hsome
  refine ⟨hiff, fun hheld hlisted => ⟨fun honce => ?_, fun htaken => (hiff htaken).mpr hheld⟩⟩
  unfold TagCycle.TagsCapturedOnce at honce
  unfold TagCycle.NoTagHeld at hheld
  unfold TagCycle.NoTagListed at hlisted
  rw [hin, hout] at honce hheld
  rw [hout] at hlisted
  constructor
  · refine allTaken_of_capturedOnce hheld.1 (fun t => ?_) (.inl fun n => by rw [hinputs]) honce.1
    rw [Host.stored_addresses]
    exact t.known_sublist y.known_left
  · refine allTaken_of_capturedOnce hheld.2 (fun t => ?_) ?_ honce.2
    · rw [Tagged.probe_addresses]
    · rcases houtputs with hsame | ⟨-, ready, listed, loads, hreplay, hrehydrated⟩
      · exact .inl fun n => by rw [hsame]
      · refine .inr fun e he a ha hmem => hlisted ready listed loads hreplay e he a ha ?_
        rw [hrehydrated] at hmem
        exact (TagCycle.mem_rehydrated listed hmem).resolve_left List.not_mem_nil

/-- An input and an output, stopped, and replayed twice with a call between. -/
def TagCycle.negation : TagCycle where
  host := {}
  before := [.api (.from_data [5] 1 .Evaluation), .api (.tag_input (str "x") (.poly 0)),
    .api (.un .sr_negp 0 97), .api (.tag_output (str "y") (.poly 1))]
  call := .stop
  after := [.replay true [] true, .api (.un .sr_negp 1 97), .replay true [] true]
  idle := rfl
  short := by simp [CycleCall.TakesOver]
  takes := trivial

theorem tags_captured_once_iff_negation :
    TagCycle.negation.TagsCapturedOnce ∧
      (TagCycle.negation.TagsCapturedOnce ↔ TagCycle.negation.NoTagLost) := by
  have htaken : TagCycle.negation.NoTagLost :=
    ⟨⟨by decide, by decide, by decide⟩, ⟨by decide, by decide, by decide⟩⟩
  have hheld : TagCycle.negation.NoTagHeld := by
    unfold TagCycle.NoTagHeld NoneHeld
    decide
  have hlisted : TagCycle.negation.NoTagListed := by
    rintro ready listed loads hmem e - a -
    obtain ⟨-, rfl, -⟩ : ready = true ∧ listed = [] ∧ loads = true := by
      simpa [TagCycle.negation] using hmem
    exact List.not_mem_nil
  obtain ⟨hiff, hiff'⟩ := tags_captured_once_iff TagCycle.negation
  exact ⟨(hiff htaken).mpr hheld, hiff' hheld hlisted⟩

/-- An output that is tagged when recording has stopped. -/
def TagCycle.late : TagCycle where
  host := {}
  before := [.api (.zeros 1 .Evaluation)]
  call := .stop
  after := [.api (.tag_output (str "x") (.poly 0)), .replay true [] true]
  idle := rfl
  short := by simp [CycleCall.TakesOver]
  takes := trivial

/-- **A tag behind the first `stop`.** The `replay` that follows does not take it over, and
its residue is captured nowhere. -/
theorem late_tag_not_captured : ¬ TagCycle.late.TagsCapturedOnce := by
  unfold TagCycle.TagsCapturedOnce CapturedOnce
  decide

end Fhetch
