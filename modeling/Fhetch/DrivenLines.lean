/-
What a drive records, line by line (`src/fhetch_parser.cpp`).

The driver makes one call of the API for each instruction, and every handle that the API
gives takes the next address: those of sources that no instruction mentioned before, those
of scalars, and those of results. So the recording is the program over again, each result
at an address of its own, `Renaming.Translates` of its lines.

A source gets an address under which its value is captured, if the caller gave one, and
one that holds zeros otherwise. The exception is the source of a product by 0: nothing is
captured for it, and it keeps that address. `Driver.mentioned` says for which addresses
this hides a value that the caller gave.
-/
import Fhetch.RejectedInstructions
import Fhetch.TraceLines
import Fhetch.Lib.Runs

set_option autoImplicit false

namespace Fhetch

open Lib Renaming

/-! ## Placeholders -/

/-- The file addresses that were mentioned so far, and those of them behind which there is
a placeholder although the caller gave values. -/
structure Mentions where
  known : List ℕ := []
  planted : List ℕ := []

/-- The product by 0, which reads nothing. -/
def Instruction.Clears (inst : Instruction) : Prop :=
  inst.opcode = .FH_SR_MULPS ∧ inst.immediate.getD 0 = 0

instance (inst : Instruction) : Decidable inst.Clears :=
  inferInstanceAs (Decidable (inst.opcode = .FH_SR_MULPS ∧ inst.immediate.getD 0 = 0))

namespace Driver

variable (drv : Driver)

/-- What the sources of an instruction are made as. -/
def planting (m : Mentions) (inst : Instruction) : List ℕ :=
  if inst.Clears ∧ inst.src1.toNat ∉ m.known ∧ (drv.given inst.src1.toNat).isSome then
    inst.src1.toNat :: m.planted
  else m.planted

/-- One instruction: it mentions its operands, and what it writes is known from then on. -/
def mentioned (m : Mentions) (inst : Instruction) : Mentions where
  known := opcode_touches inst ++ m.known
  planted :=
    if (execUses inst).writes then (drv.planting m inst).filter (· ≠ inst.dest.toNat) else m.planted

/-- An instruction reads no placeholder that hides values. -/
def ReadsKnown (m : Mentions) (inst : Instruction) : Prop :=
  ∀ a ∈ (execUses inst).reads, a ∉ m.planted

instance (m : Mentions) (inst : Instruction) : Decidable (ReadsKnown m inst) :=
  inferInstanceAs (Decidable (∀ a ∈ (execUses inst).reads, a ∉ m.planted))

end Driver

/-! ## What a drive has come to -/

namespace Driver

open Throws Driven

variable (drv : Driver) (M : NativeMath) (n start : ℕ)

/-- What the compiler has captured of given inputs, and what is left for it to take over of
the tagged ones: of each address that has to be supplied, the values that the caller gave,
or a placeholder without any. -/
structure Supplies (d : Driven) (inputs : List (ℕ × ℕ)) : Prop where
  kinds : ∀ name, (kindOf d.compiler.captured_inputs name).getD .SRP = .SRP
  captured : ∀ x ∈ d.compiler.captured_inputs.flatMap CapturedRecord.elements, ∃ a i e,
    (a, i) ∈ inputs ∧ drv.given a = some e ∧ x = ⟨i, e.values.map UInt64.toNat, e.modulus.toNat⟩
  supplied : ∀ a i e, (a, i) ∈ inputs → drv.given a = some e →
    ⟨i, e.values.map UInt64.toNat, e.modulus.toNat⟩ ∈
      d.compiler.captured_inputs.flatMap CapturedRecord.elements
  tagged : ∀ entry ∈ d.compiler.session.input_registry, ∃ a p, (a, p.address) ∈ inputs ∧
    drv.given a = none ∧ entry.tagged = .POLY p ∧ p.int_data = [] ∧ p.ring_dim = drv.ring_dim

/-- **What a drive has come to** after some lines: the entries it emitted are those lines
under the addresses of the polynomials in its map, as long as the addresses fit into an
instruction. -/
structure Follows (lines : List (Line Kernel ℕ)) (d : Driven) (emitted : List Entry)
    (inputs : List (ℕ × ℕ)) (ns : Names ℕ) : Prop extends drv.Supplies d inputs where
  translates : d.compiler.session.next_address_ ≤ 2 ^ 32 →
    Translates (kernel_result M (2 ^ n)) start lines (emitted.filterMap entry_line) inputs ns
  tells : Tells d.compiler.session.writer emitted
  keeps : d.compiler.session.writer.keeps = true
  moduli : ∀ e ∈ emitted, (execUses e.1).writes = true → e.2.isSome
  place : ∀ a, ns.place a = (d.polys a).map Polynomial.address
  next : ns.next = d.compiler.session.next_address_
  dims : ∀ a p, d.polys a = some p → p.ring_dim = drv.ring_dim

/-- What a drive leaves alone: the table, the outputs and the compiler's flags. -/
structure Leaves (d d' : Driven) : Prop where
  table : d'.stats.modulus_table = d.stats.modulus_table
  probes : d'.compiler.session.probe_registry = d.compiler.session.probe_registry
  outputs : d'.compiler.captured_outputs = d.compiler.captured_outputs
  armed : d'.compiler.g_synced_since_reset = d.compiler.g_synced_since_reset
  running : d'.compiler.running = d.compiler.running

theorem Leaves.refl (d : Driven) : Leaves d d := ⟨rfl, rfl, rfl, rfl, rfl⟩

theorem Leaves.trans {d d' d'' : Driven} (h : Leaves d d') (h' : Leaves d' d'') : Leaves d d'' :=
  ⟨h'.table.trans h.table, h'.probes.trans h.probes, h'.outputs.trans h.outputs,
    h'.armed.trans h.armed, h'.running.trans h.running⟩

end Driver

namespace Driver

open Throws Driven

variable {drv : Driver} {M : NativeMath} {n start : ℕ} {lines : List (Line Kernel ℕ)} {d d' : Driven}
  {emitted : List Entry} {inputs : List (ℕ × ℕ)} {ns : Names ℕ}

theorem emplace_polys (a : ℕ) (p : Polynomial) (d : Driven) (b : ℕ) :
    (emplace a p d).polys b = if b = a then some p else d.polys b := Function.update_apply ..

/-- The map and the numbers stay together when an address is filled. -/
theorem Follows.place_emplace (h : drv.Follows M n start lines d emitted inputs ns) {a : ℕ}
    {p : Polynomial} (haddress : p.address = d.compiler.session.next_address_) (b : ℕ) :
    (ns.supply a).place b = ((emplace a p d).polys b).map Polynomial.address := by
  rw [Names.supply_place, emplace_polys, h.next]
  split
  · rw [Option.map_some, haddress]
  · exact h.place b

theorem Follows.dims_emplace (h : drv.Follows M n start lines d emitted inputs ns) {a : ℕ}
    {p : Polynomial} (hdim : p.ring_dim = drv.ring_dim) (b : ℕ) (p' : Polynomial)
    (hp' : (emplace a p d).polys b = some p') : p'.ring_dim = drv.ring_dim := by
  rw [emplace_polys] at hp'
  split at hp'
  · rw [← Option.some.inj hp', hdim]
  · exact h.dims b p' hp'

theorem Follows.no_place (h : drv.Follows M n start lines d emitted inputs ns) {a : ℕ}
    (ha : d.polys a = none) : ns.place a = none := by
  rw [h.place, ha, Option.map_none]

/-- What has to be supplied more keeps what was supplied. -/
theorem Supplies.weaken (h : drv.Supplies d inputs) {a i : ℕ} (hnew : drv.given a = none) :
    drv.Supplies d (inputs ++ [(a, i)]) where
  kinds := h.kinds
  captured x hx := by
    obtain ⟨b, j, e, hmem, hrest⟩ := h.captured x hx
    exact ⟨b, j, e, List.mem_append_left _ hmem, hrest⟩
  supplied b j e hmem he := by
    rcases List.mem_append.mp hmem with hmem | hmem
    · exact h.supplied b j e hmem he
    · obtain ⟨rfl, rfl⟩ := Prod.mk.inj (List.mem_singleton.mp hmem)
      rw [hnew] at he
      exact absurd he (by simp)
  tagged entry hentry := by
    obtain ⟨b, p, hmem, hrest⟩ := h.tagged entry hentry
    exact ⟨b, p, List.mem_append_left _ hmem, hrest⟩

/-- A given input is made: its values are captured under its address. -/
theorem Follows.given (h : drv.Follows M n start lines d emitted inputs ns)
    (hstreaming : drv.input_streaming = false) {a : ℕ} {e : DriveElement} (ha : d.polys a = none)
    (he : drv.given a = some e) :
    drv.Follows M n start lines (emplace a (drv.made e.values d)
      (drv.materialize a e (drv.made e.values d) d.taken)) emitted
      (inputs ++ [(a, d.compiler.session.next_address_)]) (ns.supply a) := by
  have helement : drv.materialized e (drv.made e.values d) =
      ⟨d.compiler.session.next_address_, e.values.map UInt64.toNat, e.modulus.toNat⟩ := by
    rw [materialized, hstreaming]
    rfl
  have hmem : ∀ x, x ∈ (store_input_element (in_name a) .SRP d.compiler.captured_inputs
        (drv.materialized e (drv.made e.values d))).flatMap CapturedRecord.elements ↔
      x ∈ d.compiler.captured_inputs.flatMap CapturedRecord.elements ∨
        x = drv.materialized e (drv.made e.values d) := by
    intro x
    rw [store_input_element, mem_store_element, h.kinds, eq_self, and_true]
  refine
    { kinds := fun name => ?_
      captured := fun x hx => ?_
      supplied := fun b i e' hb he' => ?_
      tagged := fun entry hentry => ?_
      translates := fun hfits => ?_
      tells := h.tells
      keeps := h.keeps
      moduli := h.moduli
      place := h.place_emplace rfl
      next := congrArg Nat.succ h.next
      dims := h.dims_emplace rfl }
  · show (kindOf (store_input_element _ _ _ _) name).getD .SRP = .SRP
    rw [store_input_element, kindOf_store_element]
    split
    · rw [Option.getD_some]
      exact h.kinds _
    · exact h.kinds name
  · rcases (hmem x).mp hx with hx | rfl
    · obtain ⟨b, i, e', hb, hrest⟩ := h.captured x hx
      exact ⟨b, i, e', List.mem_append_left _ hb, hrest⟩
    · exact ⟨a, _, e, List.mem_append_right _ (List.mem_singleton_self _), he, helement⟩
  · apply (hmem _).mpr
    rcases List.mem_append.mp hb with hb | hb
    · exact .inl (h.supplied b i e' hb he')
    · obtain ⟨rfl, rfl⟩ := Prod.mk.inj (List.mem_singleton.mp hb)
      rw [he] at he'
      rw [← Option.some.inj he', helement]
      exact .inr rfl
  · obtain ⟨b, p, hb, hrest⟩ := h.tagged entry hentry
    exact ⟨b, p, List.mem_append_left _ hb, hrest⟩
  · have hold : d.compiler.session.next_address_ + 1 ≤ 2 ^ 32 := hfits
    rw [← h.next]
    exact .supply a (h.translates (Nat.le_of_succ_le hold)) (h.no_place ha)

/-- A placeholder is made for an address without values, and tagged or not. -/
theorem Follows.placeholder (h : drv.Follows M n start lines d emitted inputs ns) {a : ℕ}
    (ha : d.polys a = none) (hnone : drv.given a = none) (d₁ : Driven)
    (hd₁ : d₁ = d.taken.tagged a (drv.made [] d) ∨ d₁ = d.taken) :
    drv.Follows M n start lines (emplace a (drv.made [] d) d₁) emitted
      (inputs ++ [(a, d.compiler.session.next_address_)]) (ns.supply a) := by
  have hweak := h.toSupplies.weaken (i := d.compiler.session.next_address_) hnone
  have htranslates : d.compiler.session.next_address_ + 1 ≤ 2 ^ 32 →
      Translates (kernel_result M (2 ^ n)) start lines (emitted.filterMap entry_line)
        (inputs ++ [(a, d.compiler.session.next_address_)]) (ns.supply a) := by
    intro hfits
    rw [← h.next]
    exact .supply a (h.translates (Nat.le_of_succ_le hfits)) (h.no_place ha)
  rcases hd₁ with rfl | rfl
  · refine
      { kinds := h.kinds
        captured := hweak.captured
        supplied := hweak.supplied
        tagged := fun entry hentry => ?_
        translates := htranslates
        tells := h.tells
        keeps := h.keeps
        moduli := h.moduli
        place := h.place_emplace rfl
        next := congrArg Nat.succ h.next
        dims := h.dims_emplace rfl }
    rcases List.mem_append.mp hentry with hentry | hentry
    · exact hweak.tagged entry hentry
    · rw [List.mem_singleton.mp hentry]
      exact ⟨a, drv.made [] d, List.mem_append_right _ (List.mem_singleton_self _), hnone, rfl, rfl, rfl⟩
  · exact
      { kinds := h.kinds
        captured := hweak.captured
        supplied := hweak.supplied
        tagged := hweak.tagged
        translates := htranslates
        tells := h.tells
        keeps := h.keeps
        moduli := h.moduli
        place := h.place_emplace rfl
        next := congrArg Nat.succ h.next
        dims := h.dims_emplace rfl }

/-- A placeholder is made that hides values. -/
theorem Follows.planted (h : drv.Follows M n start lines d emitted inputs ns) (a : ℕ) :
    drv.Follows M n start lines (emplace a (drv.made [] d) d.taken) emitted inputs (ns.plant a) where
  kinds := h.kinds
  captured := h.captured
  supplied := h.supplied
  tagged := h.tagged
  translates hfits := by
    have hold : d.compiler.session.next_address_ + 1 ≤ 2 ^ 32 := hfits
    exact .plant a (h.translates (Nat.le_of_succ_le hold))
  tells := h.tells
  keeps := h.keeps
  moduli := h.moduli
  place := h.place_emplace rfl
  next := congrArg Nat.succ h.next
  dims := h.dims_emplace rfl

/-- An address is taken for a scalar. -/
theorem Follows.skip (h : drv.Follows M n start lines d emitted inputs ns) :
    drv.Follows M n start lines d.taken emitted inputs ns.skip where
  kinds := h.kinds
  captured := h.captured
  supplied := h.supplied
  tagged := h.tagged
  translates hfits := by
    have hold : d.compiler.session.next_address_ + 1 ≤ 2 ^ 32 := hfits
    exact .skip (h.translates (Nat.le_of_succ_le hold))
  tells := h.tells
  keeps := h.keeps
  moduli := h.moduli
  place := h.place
  next := congrArg Nat.succ h.next
  dims := h.dims

/-! ## Sources -/

/-- What filling the map at some addresses changes: these have a polynomial from then on, and
the others have what they had. -/
structure Fetches (as : List ℕ) (d d' : Driven) : Prop extends Leaves d d' where
  kept : ∀ b p, d.polys b = some p → d'.polys b = some p
  keys : ∀ b, (d'.polys b).isSome ↔ b ∈ as ∨ (d.polys b).isSome

theorem Fetches.refl {as : List ℕ} (h : ∀ a ∈ as, (d.polys a).isSome) : Fetches as d d :=
  ⟨.refl d, fun _ _ hp => hp, fun b => ⟨.inr, fun hb => hb.elim (h b) id⟩⟩

theorem Fetches.trans {as bs : List ℕ} {d'' : Driven} (h : Fetches as d d') (h' : Fetches bs d' d'') :
    Fetches (as ++ bs) d d'' where
  toLeaves := h.toLeaves.trans h'.toLeaves
  kept b p hp := h'.kept b p (h.kept b p hp)
  keys b := by
    rw [h'.keys, h.keys, List.mem_append, or_left_comm, or_assoc]

theorem Fetches.emplace (d₁ : Driven) (h : Leaves d d₁) (hpolys : d₁.polys = d.polys) {a : ℕ}
    (ha : d.polys a = none) (p : Polynomial) : Fetches [a] d (emplace a p d₁) where
  toLeaves := ⟨h.table, h.probes, h.outputs, h.armed, h.running⟩
  kept b p' hp' := by
    rw [emplace_polys, hpolys]
    split
    · rename_i hb
      rw [hb, ha] at hp'
      exact absurd hp' (by simp)
    · exact hp'
  keys b := by
    rw [emplace_polys, hpolys, List.mem_singleton]
    split
    · rename_i hb
      simp [hb]
    · rename_i hb
      simp [hb]

/-- **A source**, of an instruction that reads it. -/
theorem Follows.src (h : drv.Follows M n start lines d emitted inputs ns)
    (hstreaming : drv.input_streaming = false) (a : ℕ) :
    ∃ p d' inputs' ns', (drv.get_or_create_src a).on d = (.ok p, d') ∧
      drv.Follows M n start lines d' emitted inputs' ns' ∧ ns'.planted = ns.planted ∧
      d'.polys a = some p ∧ Fetches [a] d d' := by
  obtain ⟨p, d', hon, hsourced⟩ := drv.get_or_create_src_gives a d
  have hself : ∀ p d₁, (emplace a p d₁).polys a = some p := by
    intro p d₁
    rw [emplace_polys, if_pos rfl]
  cases hsourced with
  | held ha =>
    refine ⟨p, d, inputs, ns, hon, h, rfl, ha, .refl fun b hb => ?_⟩
    rw [List.mem_singleton.mp hb, ha]
    rfl
  | given ha he =>
    rename_i e
    exact ⟨_, _, _, _, hon, h.given hstreaming ha he, rfl, hself _ _,
      .emplace (d := d) (drv.materialize a e (drv.made e.values d) d.taken) ⟨rfl, rfl, rfl, rfl, rfl⟩ rfl ha _⟩
  | tagged ha hnone =>
    exact ⟨_, _, _, _, hon, h.placeholder ha hnone _ (.inl rfl), rfl, hself _ _,
      .emplace (d := d) (d.taken.tagged a (drv.made [] d)) ⟨rfl, rfl, rfl, rfl, rfl⟩ rfl ha _⟩

/-- **A source** of the product by 0. Where it is new and the caller gave values, they are
hidden from then on. -/
theorem Follows.zero_src (h : drv.Follows M n start lines d emitted inputs ns) (a : ℕ) :
    ∃ p d' inputs' ns', (drv.get_or_create_zero_src a).on d = (.ok p, d') ∧
      drv.Follows M n start lines d' emitted inputs' ns' ∧
      ns'.planted = (if d.polys a = none ∧ (drv.given a).isSome then a :: ns.planted else ns.planted) ∧
      d'.polys a = some p ∧ Fetches [a] d d' := by
  rcases ha : d.polys a with - | p
  · have hon : (drv.get_or_create_zero_src a).on d =
        (.ok (drv.made [] d), emplace a (drv.made [] d) d.taken) := by
      rw [get_or_create_zero_src, on_get_bind, ha]
      rfl
    have hself : (emplace a (drv.made [] d) d.taken).polys a = some (drv.made [] d) := by
      rw [emplace_polys, if_pos rfl]
    have hfetches : Fetches [a] d (emplace a (drv.made [] d) d.taken) :=
      .emplace (d := d) d.taken ⟨rfl, rfl, rfl, rfl, rfl⟩ rfl ha _
    rcases hgiven : drv.given a with - | e
    · exact ⟨_, _, _, _, hon, h.placeholder ha hgiven _ (.inr rfl), by simp [Names.supply], hself,
        hfetches⟩
    · exact ⟨_, _, _, _, hon, h.planted a, by simp [Names.plant], hself, hfetches⟩
  · refine ⟨p, d, inputs, ns, ?_, h, by simp, ha, .refl fun b hb => ?_⟩
    · rw [get_or_create_zero_src, on_get_bind, ha]
      rfl
    · rw [List.mem_singleton.mp hb, ha]
      rfl

/-! ## Results -/

/-- A call that makes a result at the next address and emits one instruction for it. -/
structure Emits (s s' : Session) (r : Polynomial) (e : Emission) : Prop where
  address : r.address = s.next_address_
  next : s'.next_address_ = s.next_address_ + 1
  writer : s'.writer = e.record s.writer
  inputs : s'.input_registry = s.input_registry
  probes : s'.probe_registry = s.probe_registry

/-- The session after moduli were remembered differs in the moduli. -/
theorem emits_prepared (s : Session) (as : List ℕ) (q : UInt64) {a r : Polynomial}
    (hr : s.GivesResult a r) (e : Emission) :
    Emits s { s.prepared as q with writer := e.record (s.prepared as q).writer } r e := by
  have hframe := Session.remember_moduli_frame as q { s with next_address_ := s.next_address_ + 1 }
  refine ⟨hr.address, ?_, ?_, ?_, ?_⟩
  · rw [Session.prepared, hframe]
  · rw [Session.prepared, hframe]
  · rw [Session.prepared, hframe]
  · rw [Session.prepared, hframe]

section Calls

variable (s : Session) (a b : Polynomial) (q : UInt64)

theorem emits_pp (op : FhOpcode) : ∃ r s', sr_pp op a b q s = some (r, s') ∧ r.ring_dim = a.ring_dim ∧
    Emits s s' r (.indexed { ir op r.address a.address with src2 := UInt32.ofNat b.address } q) := by
  obtain ⟨r, hmake, hr⟩ := make_result_gives s a a.fmt
  refine ⟨r, _, ?_, hr.ring_dim, emits_prepared s [a.address, b.address, r.address] q hr _⟩
  show (make_result a a.fmt s).bind _ = _
  rw [hmake]
  rfl

theorem emits_ps (op : FhOpcode) (c : Scalar) :
    ∃ r s', sr_ps op a c q s = some (r, s') ∧ r.ring_dim = a.ring_dim ∧
      Emits s s' r (.indexed { ir op r.address a.address with immediate := some c.int_value } q) := by
  obtain ⟨r, hmake, hr⟩ := make_result_gives s a a.fmt
  refine ⟨r, _, ?_, hr.ring_dim, emits_prepared s [a.address, r.address] q hr _⟩
  show (make_result a a.fmt s).bind _ = _
  rw [hmake]
  rfl

theorem emits_negp : ∃ r s', sr_negp a q s = some (r, s') ∧ r.ring_dim = a.ring_dim ∧
    Emits s s' r (.indexed (ir .FH_SR_NEGP r.address a.address) q) := by
  obtain ⟨r, hmake, hr⟩ := make_result_gives s a a.fmt
  refine ⟨r, _, ?_, hr.ring_dim, emits_prepared s [a.address, r.address] q hr _⟩
  show (make_result a a.fmt s).bind _ = _
  rw [hmake]
  rfl

theorem emits_derived (fmt : Format) (e : ℕ → Emission) :
    ∃ r s', sr_derived a fmt q (fun d => (e d).record) s = some (r, s') ∧ r.ring_dim = a.ring_dim ∧
      Emits s s' r (e r.address) := by
  obtain ⟨r, hmake, hr⟩ := make_result_gives s a fmt
  refine ⟨r, _, ?_, hr.ring_dim, emits_prepared s [a.address, r.address] q hr _⟩
  show (make_result a fmt s).bind _ = _
  rw [hmake]
  rfl

theorem emits_unbound (fmt : Format) (e : ℕ → Emission) :
    ∃ r s', sr_unbound a fmt (fun d => (e d).record) s = some (r, s') ∧ r.ring_dim = a.ring_dim ∧
      Emits s s' r (e r.address) := by
  obtain ⟨r, hmake, hr⟩ := make_result_gives s a fmt
  let s₁ : Session := { s with next_address_ := s.next_address_ + 1 }
  refine ⟨r, { s₁ with writer := (e r.address).record s₁.writer }, ?_, hr.ring_dim, hr.address, rfl, rfl,
    rfl, rfl⟩
  show (make_result a fmt s).bind _ = _
  rw [hmake]
  rfl

end Calls

/-- **A result**: what a call emits is the line of the instruction under the new names. -/
theorem Follows.result (h : drv.Follows M n start lines d emitted inputs ns) {s' : Session}
    {r : Polynomial} {content : Instruction} {q : UInt64} (hdim : r.ring_dim = drv.ring_dim)
    (hemits : Emits d.compiler.session s' r (.indexed content q)) {l : Line Kernel ℕ}
    (hline : d.compiler.session.next_address_ < 2 ^ 32 → ∃ l',
      entry_line ({ content with modulus_is_literal := false }, some q) = some l' ∧
        ns.Renames (kernel_result M (2 ^ n)) l l') :
    drv.Follows M n start (lines ++ [l])
      (emplace l.dest r { d with compiler := { d.compiler with session := s' } })
      (emitted ++ [({ content with modulus_is_literal := false }, some q)]) inputs (ns.write l.dest) := by
  have htells := h.tells.record (.indexed content q)
  rw [h.keeps, if_pos rfl, ← hemits.writer] at htells
  refine
    { kinds := h.kinds
      captured := h.captured
      supplied := h.supplied
      tagged := fun entry hentry => h.tagged entry (hemits.inputs ▸ hentry)
      translates := fun hfits => ?_
      tells := htells
      keeps := ?_
      moduli := ?_
      place := fun b => ?_
      next := ?_
      dims := fun b p hp => ?_ }
  · have hnext : d.compiler.session.next_address_ + 1 ≤ 2 ^ 32 := hemits.next ▸ hfits
    obtain ⟨l', hentry, hrenames⟩ := hline hnext
    rw [List.filterMap_append, List.filterMap_cons, hentry, List.filterMap_nil]
    exact .line (h.translates (Nat.le_of_succ_le hnext)) hrenames
  · show s'.writer.keeps = true
    rw [hemits.writer, TraceWriter.keeps, (record_flags _ _).1, (record_flags _ _).2]
    exact h.keeps
  · exact List.forall_mem_append.mpr ⟨h.moduli, List.forall_mem_singleton.mpr fun _ => rfl⟩
  · show (ns.supply l.dest).place b = _
    rw [h.place_emplace hemits.address, emplace_polys, emplace_polys]
  · show ns.next + 1 = s'.next_address_
    rw [h.next, hemits.next]
  · rw [emplace_polys] at hp
    split at hp
    · rw [← Option.some.inj hp, hdim]
    · exact h.dims b p hp

/-! ## Lines -/

variable {inst content : Instruction} {q q' : UInt64} {m : Mentions}

/-- Whether an instruction writes is up to its opcode. -/
theorem writes_congr (h : content.opcode = inst.opcode) :
    (execUses content).writes = (execUses inst).writes := by
  unfold execUses classify_uses
  rw [h]
  cases hop : inst.opcode with
  | FH_SR_MULPS =>
    dsimp only
    split
    · split <;> rfl
    · split <;> rfl
  | _ => rfl

theorem uses_pp {i : Instruction} (hform : fh_operand_form i.opcode = .PolyPoly) :
    execUses i = ⟨i.dest.toNat, true, [i.src1.toNat, i.src2.toNat]⟩ := by
  unfold execUses classify_uses
  cases hop : i.opcode with
  | FH_SR_ADDP | FH_SR_SUBP | FH_SR_MULP => rfl
  | unassigned e => simp [hop] at hform
  | _ =>
    rw [hop] at hform
    exact absurd hform (by decide)

theorem uses_un {i : Instruction} (hwrites : (execUses i).writes = true)
    (hform : fh_operand_form i.opcode ≠ .PolyPoly) : execUses i =
      ⟨i.dest.toNat, true, if i.opcode = .FH_SR_MULPS ∧ i.imm = 0 then [] else [i.src1.toNat]⟩ := by
  unfold execUses classify_uses at hwrites ⊢
  cases hop : i.opcode with
  | FH_SR_ADDP | FH_SR_SUBP | FH_SR_MULP =>
    rw [hop] at hform
    exact absurd rfl hform
  | FH_SR_MULPS =>
    by_cases himm : i.imm = 0
    · simp [himm]
    · simp [himm]
  | FH_SR_ADDPS | FH_SR_SUBPS | FH_SR_ADDPS_COEFF | FH_SR_SUBPS_COEFF | FH_SR_NEGP | FH_SR_NTT | FH_SR_INTT
  | FH_SR_AUTOMORPH_EVAL | FH_SR_ROT_AUTOMORPH_COEFF => rfl
  | _ =>
    rw [hop] at hwrites
    exact absurd hwrites (by simp)

/-- The line of an instruction under a modulus. -/
def lineOf (inst : Instruction) (q : UInt64) : Line Kernel ℕ :=
  ⟨(inst.unbound, q.toNat), (execUses inst).reads, inst.dest.toNat⟩

/-- The same kernel gives the same results, under the same modulus where that matters. -/
theorem kernel_result_same (hsame : inst.SameKernel content)
    (hq : q' = q ∨ inst.opcode = .FH_SR_AUTOMORPH_EVAL) (N : ℕ) :
    kernel_result M N (content.unbound, q'.toNat) = kernel_result M N (inst.unbound, q.toNat) := by
  funext operands
  rw [kernel_result, kernel_result, (unbound_sameKernel content).result, (unbound_sameKernel inst).result,
    hsame.result]
  rcases hq with rfl | hop
  · rfl
  · exact result_automorph hop N _ _ operands

/-- The number of a source is the address of its polynomial. -/
theorem Follows.source (h : drv.Follows M n start lines d emitted inputs ns)
    (hfits : d.compiler.session.next_address_ < 2 ^ 32) {x : ℕ} {a : Polynomial}
    (hpoly : d.polys x = some a) : ns.place x = some a.address ∧ a.address < 2 ^ 32 := by
  have hplace : ns.place x = some a.address := by rw [h.place, hpoly, Option.map_some]
  have hlt := (h.translates hfits.le).place_lt x a.address hplace
  rw [h.next] at hlt
  exact ⟨hplace, hlt.trans hfits⟩

theorem Follows.renames_un (h : drv.Follows M n start lines d emitted inputs ns)
    (hfits : d.compiler.session.next_address_ < 2 ^ 32) (hwrites : (execUses inst).writes = true)
    (hform : fh_operand_form inst.opcode ≠ .PolyPoly) (hsame : inst.SameKernel content)
    (hq : q' = q ∨ inst.opcode = .FH_SR_AUTOMORPH_EVAL) {a : Polynomial}
    (hdest : content.dest = UInt32.ofNat d.compiler.session.next_address_)
    (hsrc : content.src1 = UInt32.ofNat a.address) (hpoly : d.polys inst.src1.toNat = some a)
    (hreads : ∀ x ∈ (execUses inst).reads, x ∉ ns.planted) : ∃ l',
      entry_line ({ content with modulus_is_literal := false }, some q') = some l' ∧
        ns.Renames (kernel_result M (2 ^ n)) (lineOf inst q) l' := by
  obtain ⟨hplace, hlt⟩ := h.source hfits hpoly
  have huses := uses_un hwrites hform
  have hcontent : execUses content = ⟨content.dest.toNat, true,
      if inst.opcode = .FH_SR_MULPS ∧ inst.imm = 0 then [] else [content.src1.toNat]⟩ := by
    -- both clear, or both read their source
    have hzero : (content.opcode = .FH_SR_MULPS ∧ content.imm = 0) =
        (inst.opcode = .FH_SR_MULPS ∧ inst.imm = 0) := by
      rw [hsame.opcode]
      exact propext (and_congr_right fun hop => by rw [hsame.imm (by rw [hop]; rfl)])
    have hcontent := uses_un (i := content) ((writes_congr hsame.opcode).trans hwrites)
      (hsame.opcode ▸ hform)
    simp only [hzero] at hcontent
    exact hcontent
  have hwrites' : (execUses { content with modulus_is_literal := false }).writes = true := by
    show (execUses content).writes = true
    rw [hcontent]
  refine ⟨_, entry_line_of_writes hwrites', ?_, ?_, ?_⟩
  · show List.Forall₂ _ (execUses inst).reads (execUses content).reads
    rw [hcontent]
    rw [huses] at hreads ⊢
    dsimp only at hreads ⊢
    split
    · exact .nil
    · rename_i hclears
      rw [if_neg hclears] at hreads
      refine .cons ⟨?_, hreads _ (List.mem_singleton_self _)⟩ .nil
      rw [hplace, hsrc, UInt32.toNat_ofNat_of_lt' hlt]
  · show content.dest.toNat = ns.next
    rw [hdest, h.next, UInt32.toNat_ofNat_of_lt' hfits]
  · exact kernel_result_same hsame hq _

theorem Follows.renames_pp (h : drv.Follows M n start lines d emitted inputs ns)
    (hfits : d.compiler.session.next_address_ < 2 ^ 32)
    (hform : fh_operand_form inst.opcode = .PolyPoly) (hsame : inst.SameKernel content)
    {a b : Polynomial} (hdest : content.dest = UInt32.ofNat d.compiler.session.next_address_)
    (hsrc1 : content.src1 = UInt32.ofNat a.address) (hsrc2 : content.src2 = UInt32.ofNat b.address)
    (hpoly1 : d.polys inst.src1.toNat = some a) (hpoly2 : d.polys inst.src2.toNat = some b)
    (hreads : ∀ x ∈ (execUses inst).reads, x ∉ ns.planted) : ∃ l',
      entry_line ({ content with modulus_is_literal := false }, some q) = some l' ∧
        ns.Renames (kernel_result M (2 ^ n)) (lineOf inst q) l' := by
  obtain ⟨hplace1, hlt1⟩ := h.source hfits hpoly1
  obtain ⟨hplace2, hlt2⟩ := h.source hfits hpoly2
  have huses := uses_pp hform
  have hcontent := uses_pp (i := content) (hsame.opcode ▸ hform)
  have hwrites' : (execUses { content with modulus_is_literal := false }).writes = true := by
    show (execUses content).writes = true
    rw [hcontent]
  refine ⟨_, entry_line_of_writes hwrites', ?_, ?_, ?_⟩
  · show List.Forall₂ _ (execUses inst).reads (execUses content).reads
    rw [hcontent]
    rw [huses] at hreads ⊢
    refine .cons ⟨?_, hreads _ List.mem_cons_self⟩
      (.cons ⟨?_, hreads _ (List.mem_cons_of_mem _ (List.mem_singleton_self _))⟩ .nil)
    · rw [hplace1, hsrc1, UInt32.toNat_ofNat_of_lt' hlt1]
    · rw [hplace2, hsrc2, UInt32.toNat_ofNat_of_lt' hlt2]
  · show content.dest.toNat = ns.next
    rw [hdest, h.next, UInt32.toNat_ofNat_of_lt' hfits]
  · exact kernel_result_same hsame (.inl rfl) _

/-! ## Instructions -/

/-- The addresses in the map are those that were mentioned, and the placeholders that hide
values are those of the driver. -/
structure Matches (m : Mentions) (d : Driven) (ns : Names ℕ) : Prop where
  known : ∀ b, b ∈ m.known ↔ (d.polys b).isSome
  planted : m.planted = ns.planted

variable (drv M n start) in
/-- What driving an instruction that writes comes to. -/
def DrivesTo (lines : List (Line Kernel ℕ)) (x : Throws Driven Bool) (d : Driven) (m' : Mentions) : Prop :=
  ∃ d' emitted inputs ns, x.on d = (.ok true, d') ∧
    drv.Follows M n start lines d' emitted inputs ns ∧ Matches m' d' ns ∧ Leaves d d'

/-- A result is put into the map, behind its sources. -/
theorem Follows.put_result (h : drv.Follows M n start lines d emitted inputs ns) {d₀ : Driven}
    {as : List ℕ} (hfetches : Fetches as d₀ d) {s' : Session} {r : Polynomial}
    (hdim : r.ring_dim = drv.ring_dim) (hemits : Emits d.compiler.session s' r (.indexed content q'))
    (hline : d.compiler.session.next_address_ < 2 ^ 32 → ∃ l',
      entry_line ({ content with modulus_is_literal := false }, some q') = some l' ∧
        ns.Renames (kernel_result M (2 ^ n)) (lineOf inst q) l')
    (hwrites : (execUses inst).writes = true) (hknown : ∀ b, b ∈ m.known ↔ (d₀.polys b).isSome)
    (htouches : opcode_touches inst = as ++ [inst.dest.toNat])
    (hplanted : ns.planted = drv.planting m inst) {x : Throws Driven Bool}
    (hon : x.on d₀ = (.ok true, emplace inst.dest.toNat r
      { d with compiler := { d.compiler with session := s' } })) :
    drv.DrivesTo M n start (lines ++ [lineOf inst q]) x d₀ (drv.mentioned m inst) := by
  refine ⟨_, _, _, _, hon, h.result hdim hemits hline, ⟨fun b => ?_, ?_⟩, ?_⟩
  · rw [mentioned, htouches, List.mem_append, List.mem_append, List.mem_singleton, hknown, emplace_polys]
    have hkeys := hfetches.keys b
    by_cases hb : b = inst.dest.toNat
    · rw [if_pos hb]
      exact ⟨fun _ => rfl, fun _ => .inl (.inr hb)⟩
    · rw [if_neg hb, or_iff_left hb]
      exact hkeys.symm
  · show (if _ then _ else _) = ns.planted.filter _
    rw [if_pos hwrites, hplanted]
    rfl
  · exact ⟨hfetches.table, hemits.probes.trans hfetches.probes, hfetches.outputs, hfetches.armed,
      hfetches.running⟩

theorem touches_pp (hform : fh_operand_form inst.opcode = .PolyPoly) :
    opcode_touches inst = [inst.src1.toNat] ++ [inst.src2.toNat] ++ [inst.dest.toNat] := by
  unfold opcode_touches
  cases hop : inst.opcode with
  | FH_SR_ADDP | FH_SR_SUBP | FH_SR_MULP => rfl
  | unassigned e => simp [hop] at hform
  | _ =>
    rw [hop] at hform
    exact absurd hform (by decide)

theorem touches_un (hwrites : (execUses inst).writes = true)
    (hform : fh_operand_form inst.opcode ≠ .PolyPoly) :
    opcode_touches inst = [inst.src1.toNat] ++ [inst.dest.toNat] := by
  unfold execUses classify_uses at hwrites
  unfold opcode_touches
  cases hop : inst.opcode with
  | FH_SR_ADDP | FH_SR_SUBP | FH_SR_MULP =>
    rw [hop] at hform
    exact absurd rfl hform
  | FH_ILL | FH_HALT | unassigned e | FH_SR_ADDP_NI | FH_SR_SUBP_NI | FH_SR_MULP_NI =>
    rw [hop] at hwrites
    exact absurd hwrites (by simp)
  | _ => rfl

theorem planting_of_not_clears (h : ¬ inst.Clears) : drv.planting m inst = m.planted :=
  if_neg fun hclears => h hclears.1

/-- An instruction reads what is known. -/
theorem Matches.reads (h : Matches m d ns) (hreads : ReadsKnown m inst) {ns' : Names ℕ}
    (hplanted : ns'.planted = ns.planted) : ∀ x ∈ (execUses inst).reads, x ∉ ns'.planted := by
  intro x hx
  rw [hplanted, ← h.planted]
  exact hreads x hx

/-- **The opcodes with two polynomials.** -/
theorem Follows.drive_pp (h : drv.Follows M n start lines d emitted inputs ns)
    (hstreaming : drv.input_streaming = false) (hmatches : Matches m d ns) (hreads : ReadsKnown m inst)
    (hform : fh_operand_form inst.opcode = .PolyPoly) {f : Polynomial → Polynomial → Api Polynomial}
    (hf : ∀ a b s, ∃ r s', f a b s = some (r, s') ∧ r.ring_dim = a.ring_dim ∧ Emits s s' r
      (.indexed { ir inst.opcode r.address a.address with src2 := UInt32.ofNat b.address } q)) :
    drv.DrivesTo M n start (lines ++ [lineOf inst q]) (drv.drive_pp inst f) d (drv.mentioned m inst) := by
  obtain ⟨a, d₁, inputs₁, ns₁, hon₁, h₁, hplanted₁, hpoly₁, hfetches₁⟩ := h.src hstreaming inst.src1.toNat
  obtain ⟨b, d₂, inputs₂, ns₂, hon₂, h₂, hplanted₂, hpoly₂, hfetches₂⟩ := h₁.src hstreaming inst.src2.toNat
  obtain ⟨r, s', hcall, hdim, hemits⟩ := hf a b d₂.compiler.session
  have ha := hfetches₂.kept _ _ hpoly₁
  have hplanted : ns₂.planted = ns.planted := hplanted₂.trans hplanted₁
  have hclears : ¬ inst.Clears := by
    rintro ⟨hop, -⟩
    rw [hop] at hform
    exact absurd hform (by decide)
  have hsame : inst.SameKernel { ir inst.opcode r.address a.address with src2 := UInt32.ofNat b.address } :=
    ⟨rfl, fun h => absurd (hform.symm.trans h) (by simp), fun h => absurd (hform.symm.trans h) (by simp),
      fun h => absurd (hform.symm.trans h) (by simp), fun h => absurd (hform.symm.trans h) (by simp)⟩
  refine h₂.put_result (hfetches₁.trans hfetches₂) (hdim.trans (h₂.dims _ _ ha)) hemits (fun hfits => ?_)
    (by rw [uses_pp hform]) hmatches.known (touches_pp hform) ?_ ?_
  · refine h₂.renames_pp hfits hform hsame ?_ rfl rfl ha hpoly₂ (hmatches.reads hreads hplanted)
    show UInt32.ofNat r.address = _
    rw [hemits.address]
  · rw [hplanted, planting_of_not_clears hclears, hmatches.planted]
  · rw [Driver.drive_pp, on_bind_ok hon₁, on_bind_ok hon₂, on_bind_ok (call_of_ok (api_of_some hcall))]
    rfl

/-- **The opcodes with one polynomial.** -/
theorem Follows.drive_un (h : drv.Follows M n start lines d emitted inputs ns)
    (hstreaming : drv.input_streaming = false) (hmatches : Matches m d ns) (hreads : ReadsKnown m inst)
    (hwrites : (execUses inst).writes = true) (hform : fh_operand_form inst.opcode ≠ .PolyPoly)
    (hclears : ¬ inst.Clears) (hq : q' = q ∨ inst.opcode = .FH_SR_AUTOMORPH_EVAL)
    {f : Polynomial → Throws Session Polynomial} {content : Instruction}
    (hsame : inst.SameKernel content)
    (hf : ∀ a s, a.ring_dim = drv.ring_dim → ∃ r s', (f a).on s = (.ok r, s') ∧
      r.ring_dim = a.ring_dim ∧ Emits s s' r (.indexed { content with
        dest := UInt32.ofNat r.address, src1 := UInt32.ofNat a.address } q')) :
    drv.DrivesTo M n start (lines ++ [lineOf inst q]) (drv.drive_un inst f) d (drv.mentioned m inst) := by
  obtain ⟨a, d₁, inputs₁, ns₁, hon₁, h₁, hplanted₁, hpoly₁, hfetches₁⟩ := h.src hstreaming inst.src1.toNat
  obtain ⟨r, s', hcall, hdim, hemits⟩ := hf a d₁.compiler.session (h₁.dims _ _ hpoly₁)
  have hsame' : inst.SameKernel { content with
      dest := UInt32.ofNat r.address, src1 := UInt32.ofNat a.address } :=
    ⟨hsame.opcode, hsame.imm, hsame.omega, hsame.k, hsame.offset⟩
  refine h₁.put_result hfetches₁ (hdim.trans (h₁.dims _ _ hpoly₁)) hemits (fun hfits => ?_)
    hwrites hmatches.known (touches_un hwrites hform) ?_ ?_
  · refine h₁.renames_un hfits hwrites hform hsame' hq ?_ rfl hpoly₁ (hmatches.reads hreads hplanted₁)
    show UInt32.ofNat r.address = _
    rw [hemits.address]
  · rw [hplanted₁, planting_of_not_clears hclears, hmatches.planted]
  · rw [Driver.drive_un, on_bind_ok hon₁, on_bind_ok (call_of_ok hcall)]
    rfl

/-- The source of an opcode with an integer. -/
theorem Follows.ps_src (h : drv.Follows M n start lines d emitted inputs ns)
    (hstreaming : drv.input_streaming = false) (hmatches : Matches m d ns) :
    ∃ p d' inputs' ns', (drv.ps_src inst).on d = (.ok p, d') ∧
      drv.Follows M n start lines d' emitted inputs' ns' ∧ ns'.planted = drv.planting m inst ∧
      d'.polys inst.src1.toNat = some p ∧ Fetches [inst.src1.toNat] d d' := by
  have hsrc : drv.ps_src inst = if inst.Clears then drv.get_or_create_zero_src inst.src1.toNat
    else drv.get_or_create_src inst.src1.toNat := rfl
  rw [hsrc]
  by_cases hclears : inst.Clears
  · rw [if_pos hclears]
    obtain ⟨p, d', inputs', ns', hon, hfollows, hplanted, hrest⟩ := h.zero_src inst.src1.toNat
    refine ⟨p, d', inputs', ns', hon, hfollows, ?_, hrest⟩
    have hknown : inst.src1.toNat ∉ m.known ↔ d.polys inst.src1.toNat = none := by
      rw [hmatches.known, Option.not_isSome_iff_eq_none]
    rw [hplanted, planting, hmatches.planted]
    simp only [hclears, true_and, hknown]
  · rw [if_neg hclears, planting_of_not_clears hclears]
    obtain ⟨p, d', inputs', ns', hon, hfollows, hplanted, hrest⟩ := h.src hstreaming inst.src1.toNat
    exact ⟨p, d', inputs', ns', hon, hfollows, hplanted.trans hmatches.planted.symm, hrest⟩

/-- **The opcodes with a polynomial and an integer.** -/
theorem Follows.drive_ps (h : drv.Follows M n start lines d emitted inputs ns)
    (hstreaming : drv.input_streaming = false) (hmatches : Matches m d ns) (hreads : ReadsKnown m inst)
    (hform : fh_operand_form inst.opcode = .PolyScalar) {f : Polynomial → Scalar → Api Polynomial}
    (hf : ∀ a c s, ∃ r s', f a c s = some (r, s') ∧ r.ring_dim = a.ring_dim ∧ Emits s s' r
      (.indexed { ir inst.opcode r.address a.address with immediate := some c.int_value } q)) :
    drv.DrivesTo M n start (lines ++ [lineOf inst q]) (drv.drive_ps inst f) d (drv.mentioned m inst) := by
  obtain ⟨a, d₁, inputs₁, ns₁, hon₁, h₁, hplanted₁, hpoly₁, hfetches₁⟩ :=
    h.ps_src hstreaming hmatches
  -- the scalar takes an address of its own
  have h₂ := h₁.skip
  have hfetches₂ : Fetches [inst.src1.toNat] d d₁.taken :=
    ⟨⟨hfetches₁.table, hfetches₁.probes, hfetches₁.outputs, hfetches₁.armed, hfetches₁.running⟩,
      hfetches₁.kept, hfetches₁.keys⟩
  let c : Scalar := ⟨d₁.compiler.session.next_address_, .Integer, inst.immediate.getD 0⟩
  have hscalar : (call (api (Scalar.from_int (inst.immediate.getD 0)))).on d₁ = (.ok c, d₁.taken) := rfl
  obtain ⟨r, s', hcall, hdim, hemits⟩ := hf a c d₁.taken.compiler.session
  have hsame : inst.SameKernel { ir inst.opcode r.address a.address with immediate := some c.int_value } :=
    ⟨rfl, fun _ => rfl, fun h => absurd (hform.symm.trans h) (by simp),
      fun h => absurd (hform.symm.trans h) (by simp), fun h => absurd (hform.symm.trans h) (by simp)⟩
  have hnot : fh_operand_form inst.opcode ≠ .PolyPoly := by
    rw [hform]
    decide
  have hwrites : (execUses inst).writes = true := by
    unfold execUses classify_uses
    cases hop : inst.opcode with
    | FH_SR_MULPS =>
      dsimp only
      split <;> rfl
    | FH_SR_ADDPS | FH_SR_SUBPS | FH_SR_ADDPS_COEFF | FH_SR_SUBPS_COEFF => rfl
    | unassigned e => simp [hop] at hform
    | _ => exact absurd hform (by rw [hop]; decide)
  have hreads' : ∀ x ∈ (execUses inst).reads, x ∉ ns₁.planted := by
    rw [hplanted₁]
    by_cases hclears : inst.Clears
    · have hzero : inst.opcode = .FH_SR_MULPS ∧ inst.imm = 0 := by
        refine ⟨hclears.1, ?_⟩
        rw [Instruction.imm, hclears.2]
        rfl
      rw [uses_un hwrites hnot, if_pos hzero]
      exact List.forall_mem_nil _
    · rw [planting_of_not_clears hclears]
      exact hreads
  refine h₂.put_result hfetches₂ (hdim.trans (h₁.dims _ _ hpoly₁)) hemits (fun hfits => ?_)
    hwrites hmatches.known (touches_un hwrites hnot) hplanted₁ ?_
  · refine h₂.renames_un hfits hwrites hnot hsame (.inl rfl) ?_ rfl hpoly₁ hreads'
    show UInt32.ofNat r.address = _
    rw [hemits.address]
  · rw [Driver.drive_ps, on_bind_ok hon₁, on_bind_ok hscalar, on_bind_ok (call_of_ok (api_of_some hcall))]
    rfl

/-- A root that tables are built for passes the check of the API. -/
theorem root_of_result (hop : inst.opcode = .FH_SR_NTT ∨ inst.opcode = .FH_SR_INTT) {omega : UInt64}
    (homega : inst.omega = some omega) {N : ℕ} {operands : List Poly} {v : Poly}
    (h : inst.result M N q.toNat operands = some v) :
    is_primitive_2n_root omega.toNat N q.toNat = true := by
  have hne : inst.opcode ≠ .FH_SR_MULPS := by
    rcases hop with hop | hop
    · rw [hop]
      decide
    · rw [hop]
      decide
  have hbinary : ∀ a b, binary_result M q.toNat inst a b = none := by
    intro a b
    rcases hop with hop | hop
    · rw [binary_result, hop]
    · rw [binary_result, hop]
  obtain ⟨a, ha⟩ := unary_of_result hne hbinary h
  have htables : ∃ t, tables_for M N q.toNat (some omega.toNat) = some t := by
    rcases hop with hop | hop
    · rw [unary_result, hop] at ha
      simp only [homega, Option.map_some] at ha
      obtain ⟨t, ht, -⟩ := Option.bind_eq_some_iff.mp ha
      exact ⟨t, ht⟩
    · rw [unary_result, hop] at ha
      simp only [homega, Option.map_some] at ha
      obtain ⟨t, ht, -⟩ := Option.bind_eq_some_iff.mp ha
      exact ⟨t, ht⟩
  obtain ⟨t, ht⟩ := htables
  by_contra hroot
  simp only [tables_for, hroot, if_false] at ht
  exact absurd ht (by simp)

/-- **A transform.** Its root is recorded again. -/
theorem Follows.drive_ntt (h : drv.Follows M n start lines d emitted inputs ns)
    (hstreaming : drv.input_streaming = false) (hdim : drv.ring_dim = 2 ^ n) (hmatches : Matches m d ns)
    (hreads : ReadsKnown m inst) (hop : inst.opcode = .FH_SR_NTT ∨ inst.opcode = .FH_SR_INTT)
    {operands : List Poly} {v : Poly} (hresult : inst.result M (2 ^ n) q.toNat operands = some v)
    (what : Str) {with_root : Polynomial → UInt64 → UInt64 → Throws Session Polynomial}
    {rootless : Polynomial → UInt64 → Api Polynomial}
    (hwith : ∀ a q omega, with_root a q omega = Throws.require_ntt_root what omega a.ring_dim q >>=
      fun _ => api (record_ntt inst.opcode a q (some omega)))
    (hrootless : ∀ a q, rootless a q = record_ntt inst.opcode a q none) :
    drv.DrivesTo M n start (lines ++ [lineOf inst q]) (drv.drive_ntt inst q with_root rootless) d
      (drv.mentioned m inst) := by
  have hform : fh_operand_form inst.opcode = .Ntt := by
    rcases hop with hop | hop
    · rw [hop]
      rfl
    · rw [hop]
      rfl
  have hwrites : (execUses inst).writes = true := by
    rcases hop with hop | hop
    · rw [execUses, classify_uses, hop]
    · rw [execUses, classify_uses, hop]
  have hnot : fh_operand_form inst.opcode ≠ .PolyPoly := by
    rw [hform]
    decide
  have hclears : ¬ inst.Clears := by
    rintro ⟨hmulps, -⟩
    rw [hmulps] at hform
    exact absurd hform (by decide)
  have hsame : inst.SameKernel { opcode := inst.opcode, omega := inst.omega } :=
    ⟨rfl, fun h => absurd (hform.symm.trans h) (by simp), fun _ => rfl,
      fun h => absurd (hform.symm.trans h) (by simp), fun h => absurd (hform.symm.trans h) (by simp)⟩
  refine h.drive_un hstreaming hmatches hreads hwrites hnot hclears (.inl rfl) hsame fun a s ha => ?_
  obtain ⟨r, s', hcall, hrest⟩ := emits_derived s a q
    (if inst.opcode = .FH_SR_NTT then .Evaluation else .Coefficient)
    fun x => .indexed { ir inst.opcode x a.address with omega := inst.omega } q
  refine ⟨r, s', ?_, hrest⟩
  have hrecord : record_ntt inst.opcode a q inst.omega s = some (r, s') := hcall
  -- the root of a transform that has a result is accepted
  rcases homega : inst.omega with - | omega
  · dsimp only
    rw [hrootless, ← homega]
    exact api_of_some hrecord
  · dsimp only
    have hroot := root_of_result hop homega hresult
    rw [← hdim, ← ha] at hroot
    rw [hwith, on_bind_ok ((checks_require_ntt_root what omega a.ring_dim q s).1 hroot), ← homega]
    exact api_of_some hrecord

/-- **The opcodes.** One that has a result is driven. -/
theorem Follows.drive_opcode (h : drv.Follows M n start lines d emitted inputs ns)
    (hstreaming : drv.input_streaming = false) (hdim : drv.ring_dim = 2 ^ n) (hmatches : Matches m d ns)
    (hreads : ReadsKnown m inst) (hwrites : (execUses inst).writes = true)
    {operands : List Poly} {v : Poly} (hresult : inst.result M (2 ^ n) q.toNat operands = some v) :
    drv.DrivesTo M n start (lines ++ [lineOf inst q]) (drv.drive_opcode inst q) d (drv.mentioned m inst) := by
  have hunary : ∀ op form, inst.opcode = op → fh_operand_form op = form → form ≠ .PolyPoly →
      form ≠ .PolyScalar → fh_operand_form inst.opcode ≠ .PolyPoly ∧ ¬ inst.Clears ∧
        inst.opcode ≠ .FH_SR_MULPS := by
    rintro op form hop rfl hpp hps
    rw [hop]
    have hne : op ≠ .FH_SR_MULPS := fun heq => hps (by rw [heq]; rfl)
    exact ⟨hpp, fun hclears => hne (hop ▸ hclears.1), hne⟩
  unfold Driver.drive_opcode
  cases hop : inst.opcode with
  | FH_SR_ADDP | FH_SR_SUBP | FH_SR_MULP =>
    refine h.drive_pp hstreaming hmatches hreads (by rw [hop]; rfl) fun a b s => ?_
    rw [hop]
    exact emits_pp s a b q _
  | FH_SR_ADDPS | FH_SR_SUBPS | FH_SR_MULPS =>
    refine h.drive_ps hstreaming hmatches hreads (by rw [hop]; rfl) fun a c s => ?_
    rw [hop]
    exact emits_ps s a q _ c
  | FH_SR_ADDPS_COEFF | FH_SR_SUBPS_COEFF =>
    refine h.drive_ps hstreaming hmatches hreads (by rw [hop]; rfl) fun a c s => ?_
    rw [hop]
    exact emits_derived s a q _ fun x => .indexed { ir _ x a.address with immediate := some c.int_value } q
  | FH_SR_NEGP =>
    obtain ⟨hform, hclears, -⟩ := hunary _ _ hop rfl (by decide) (by decide)
    have hsame : inst.SameKernel { opcode := .FH_SR_NEGP } := by
      refine ⟨hop.symm, ?_, ?_, ?_, ?_⟩ <;> exact fun h => absurd h (by rw [hop]; decide)
    refine h.drive_un hstreaming hmatches hreads hwrites hform hclears (.inl rfl) hsame fun a s _ => ?_
    obtain ⟨r, s', hcall, hrest⟩ := emits_negp s a q
    exact ⟨r, s', api_of_some hcall, hrest⟩
  | FH_SR_NTT =>
    exact h.drive_ntt hstreaming hdim hmatches hreads (.inl hop) hresult (str "sr_ntt_with_root")
      (fun _ _ _ => by rw [hop]; rfl) fun _ _ => by rw [hop]; rfl
  | FH_SR_INTT =>
    exact h.drive_ntt hstreaming hdim hmatches hreads (.inr hop) hresult (str "sr_intt_with_root")
      (fun _ _ _ => by rw [hop]; rfl) fun _ _ => by rw [hop]; rfl
  | FH_SR_AUTOMORPH_EVAL =>
    obtain ⟨hform, hclears, hne⟩ := hunary _ _ hop rfl (by decide) (by decide)
    -- without an exponent there is no result
    obtain ⟨a, ha⟩ := unary_of_result hne (fun a b => by rw [binary_result, hop]) hresult
    rw [unary_result, hop] at ha
    obtain ⟨k, hk, -⟩ := Option.bind_eq_some_iff.mp ha
    have hsame : inst.SameKernel { opcode := .FH_SR_AUTOMORPH_EVAL, k := some (inst.k.getD 1) } := by
      refine ⟨hop.symm, ?_, ?_, ?_, ?_⟩
      · exact fun h => absurd h (by rw [hop]; decide)
      · exact fun h => absurd h (by rw [hop]; decide)
      · exact fun _ => by rw [hk]; rfl
      · exact fun h => absurd h (by rw [hop]; decide)
    have hq : COPY_MODULUS_VALUE = q ∨ inst.opcode = .FH_SR_AUTOMORPH_EVAL := .inr hop
    refine h.drive_un hstreaming hmatches hreads hwrites hform hclears hq hsame fun a s _ => ?_
    obtain ⟨r, s', hcall, hrest⟩ := emits_unbound s a a.fmt fun x =>
      .indexed { ir .FH_SR_AUTOMORPH_EVAL x a.address with k := some (inst.k.getD 1) } COPY_MODULUS_VALUE
    exact ⟨r, s', api_of_some hcall, hrest⟩
  | FH_SR_ROT_AUTOMORPH_COEFF =>
    obtain ⟨hform, hclears, hne⟩ := hunary _ _ hop rfl (by decide) (by decide)
    obtain ⟨a, ha⟩ := unary_of_result hne (fun a b => by rw [binary_result, hop]) hresult
    rw [unary_result, hop] at ha
    obtain ⟨offset, hoffset, -⟩ := Option.bind_eq_some_iff.mp ha
    have hsame : inst.SameKernel
        { opcode := .FH_SR_ROT_AUTOMORPH_COEFF, offset := some (inst.offset.getD 0) } := by
      refine ⟨hop.symm, ?_, ?_, ?_, ?_⟩
      · exact fun h => absurd h (by rw [hop]; decide)
      · exact fun h => absurd h (by rw [hop]; decide)
      · exact fun h => absurd h (by rw [hop]; decide)
      · exact fun _ => by rw [hoffset]; rfl
    refine h.drive_un hstreaming hmatches hreads hwrites hform hclears (.inl rfl) hsame fun a s _ => ?_
    obtain ⟨r, s', hcall, hrest⟩ := emits_derived s a q .Coefficient fun x =>
      .indexed { ir .FH_SR_ROT_AUTOMORPH_COEFF x a.address with offset := some (inst.offset.getD 0) } q
    exact ⟨r, s', api_of_some hcall, hrest⟩
  | _ =>
    rw [execUses, classify_uses, hop] at hwrites
    exact absurd hwrites (by simp)

/-! ## Programs -/

/-- The instructions that neither the simulator nor the driver does anything for, and the
halt. -/
def Idle (op : FhOpcode) : Prop := op = .FH_HALT ∨ op = .FH_ILL ∨ ∃ e, op = .unassigned e

variable (M n) in
/-- An instruction that can be driven: it has a result under the modulus it selects, or
there is nothing to do for it. -/
def Drivable (table : List UInt64) (inst : Instruction) : Prop :=
  ((execUses inst).writes = true ∧ ∃ q, inst.selects table = some q ∧
    ∃ operands v, inst.result M (2 ^ n) q.toNat operands = some v) ∨ Idle inst.opcode

/-- The statistics are no part of what a drive has come to. -/
theorem Follows.stats (h : drv.Follows M n start lines d emitted inputs ns) (stats : DriveStats) :
    drv.Follows M n start lines { d with stats := stats } emitted inputs ns :=
  ⟨⟨h.kinds, h.captured, h.supplied, h.tagged⟩, h.translates, h.tells, h.keeps, h.moduli, h.place, h.next,
    h.dims⟩

/-- A halt is emitted, and has no line. -/
theorem Follows.halted (h : drv.Follows M n start lines d emitted inputs ns) :
    ∃ d', (call (api halt)).on d = (.ok (), d') ∧ d'.polys = d.polys ∧ Leaves d d' ∧
      drv.Follows M n start lines d' (emitted ++ [({ ir .FH_HALT 0 0 with modulus := none }, none)])
        inputs ns := by
  let w := (Emission.bare (ir .FH_HALT 0 0)).record d.compiler.session.writer
  have htells := h.tells.record (.bare (ir .FH_HALT 0 0))
  rw [h.keeps, if_pos rfl] at htells
  refine ⟨{ d with compiler := { d.compiler with session := { d.compiler.session with writer := w } } },
    rfl, rfl, ⟨rfl, rfl, rfl, rfl, rfl⟩, ?_⟩
  refine
    { kinds := h.kinds
      captured := h.captured
      supplied := h.supplied
      tagged := h.tagged
      translates := fun hfits => ?_
      tells := htells
      keeps := ?_
      moduli := ?_
      place := h.place
      next := h.next
      dims := h.dims }
  · rw [List.filterMap_append]
    show Translates _ _ _ (_ ++ []) _ _
    rw [List.append_nil]
    exact h.translates hfits
  · show w.keeps = true
    rw [TraceWriter.keeps, (record_flags _ _).1, (record_flags _ _).2]
    exact h.keeps
  · exact List.forall_mem_append.mpr ⟨h.moduli, List.forall_mem_singleton.mpr fun hw =>
      absurd hw (by decide)⟩

/-- What a turn of the loop comes to. -/
theorem Follows.line (h : drv.Follows M n start lines d emitted inputs ns)
    (hstreaming : drv.input_streaming = false) (hdim : drv.ring_dim = 2 ^ n) (hmatches : Matches m d ns)
    (hreads : ReadsKnown m inst) (hdrivable : Drivable M n d.stats.modulus_table inst) :
    ∃ d' emitted' inputs' ns', (drv.drive_line inst).on d = (.ok (), d') ∧
      drv.Follows M n start (lines ++ trace_lines d.stats.modulus_table [inst]) d' emitted' inputs' ns' ∧
      Matches (drv.mentioned m inst) d' ns' ∧ Leaves d d' := by
  have hturn : ∀ {b : Bool} {e : Driven} {lines' : List (Line Kernel ℕ)} {emitted' : List Entry}
      {inputs' : List (ℕ × ℕ)} {ns' : Names ℕ}, (drv.drive_instruction inst).on d = (.ok b, e) →
      drv.Follows M n start lines' e emitted' inputs' ns' → Matches (drv.mentioned m inst) e ns' →
      Leaves d e → lines' = lines ++ trace_lines d.stats.modulus_table [inst] →
      ∃ d' emitted' inputs' ns', (drv.drive_line inst).on d = (.ok (), d') ∧
        drv.Follows M n start (lines ++ trace_lines d.stats.modulus_table [inst]) d' emitted' inputs' ns' ∧
        Matches (drv.mentioned m inst) d' ns' ∧ Leaves d d' := by
    rintro b d₁ lines' emitted' inputs' ns' hon hfollows hmatches' hleaves rfl
    have hstats : counted b d₁ = { d₁ with stats := (counted b d₁).stats } := rfl
    have htable : (counted b d₁).stats.modulus_table = d₁.stats.modulus_table := by
      rw [counted]
      cases b <;> rfl
    refine ⟨counted b d₁, emitted', inputs', ns', ?_, ?_, ⟨hmatches'.known, hmatches'.planted⟩, ?_⟩
    · rw [drive_line, on_bind_ok (on_tryCatch_ok hon)]
      rfl
    · rw [hstats]
      exact hfollows.stats _
    · exact ⟨htable.trans hleaves.table, hleaves.probes, hleaves.outputs, hleaves.armed, hleaves.running⟩
  rcases hdrivable with ⟨hwrites, q, hq, operands, v, hresult⟩ | hidle
  · have hmodulus : modulus_of d.stats.modulus_table inst = some q := by
      unfold Instruction.selects at hq
      unfold modulus_of
      rcases hm : inst.modulus with - | x
      · rw [hm] at hq
        exact absurd hq (by simp)
      · rw [hm] at hq
        exact hq
    obtain ⟨d', emitted', inputs', ns', hon, hfollows, hmatches', hleaves⟩ :=
      h.drive_opcode hstreaming hdim hmatches hreads hwrites hresult
    refine hturn (b := true) ?_ hfollows hmatches' hleaves ?_
    · rw [drive_instruction, on_bind_ok (resolve_of_some hmodulus), hon]
    · rw [trace_lines_cons, entry_line_of_writes hwrites, hq]
      rfl
  · -- nothing is mentioned, and there is no line
    have hnot : (execUses inst).writes = false := by
      unfold execUses classify_uses
      rcases hidle with hop | hop | ⟨e, hop⟩
      · rw [hop]
      · rw [hop]
      · rw [hop]
    have hsame : drv.mentioned m inst = m := by
      have htouches : opcode_touches inst = [] := by
        rcases hidle with hop | hop | ⟨e, hop⟩
        · rw [opcode_touches, hop]
        · rw [opcode_touches, hop]
        · rw [opcode_touches, hop]
      rw [mentioned, htouches, if_neg (by simp [hnot])]
      rfl
    have hlines : lines = lines ++ trace_lines d.stats.modulus_table [inst] := by
      rw [trace_lines_cons, entry_line_of_not_writes hnot]
      exact (List.append_nil _).symm
    rw [hsame] at hturn ⊢
    rcases hq : modulus_of d.stats.modulus_table inst with - | q
    · refine hturn (b := false) (e := reported inst d) ?_ (h.stats _) ⟨hmatches.known, hmatches.planted⟩
        ⟨rfl, rfl, rfl, rfl, rfl⟩ hlines
      rw [drive_instruction, on_bind_ok (resolve_of_none hq)]
      rfl
    · have hinst : (drv.drive_instruction inst).on d = (drv.drive_opcode inst q).on d := by
        rw [drive_instruction, on_bind_ok (resolve_of_some hq)]
      rcases hidle with hop | hskip
      · obtain ⟨d', hon, hpolys, hleaves, hfollows⟩ := h.halted
        refine hturn (b := true) ?_ hfollows ⟨fun x => ?_, hmatches.planted⟩ hleaves hlines
        · rw [hinst, Driver.drive_opcode, hop]
          exact on_bind_ok hon
        · rw [hpolys]
          exact hmatches.known x
      · refine hturn (b := false) (e := d) ?_ h hmatches (.refl d) hlines
        rw [hinst, Driver.drive_opcode]
        rcases hskip with hop | ⟨e, hop⟩
        · rw [hop]
          rfl
        · rw [hop]
          rfl

/-- **A drive of a program comes to the lines of the program.** -/
theorem Follows.run (hstreaming : drv.input_streaming = false) (hdim : drv.ring_dim = 2 ^ n)
    (insts : List Instruction) : ∀ {lines d emitted inputs ns m},
      drv.Follows M n start lines d emitted inputs ns → Matches m d ns →
      (∀ inst ∈ insts, Drivable M n d.stats.modulus_table inst) →
      Runs.Along drv.mentioned ReadsKnown m insts →
      ∃ d' emitted' inputs' ns', (drv.drive_lines insts).on d = (.ok (), d') ∧
        drv.Follows M n start (lines ++ trace_lines d.stats.modulus_table insts) d' emitted' inputs' ns' ∧
        Matches (Runs.run drv.mentioned m insts) d' ns' ∧ Leaves d d' := by
  induction insts with
  | nil =>
    intro lines d emitted inputs ns m h hmatches _ _
    refine ⟨d, emitted, inputs, ns, rfl, ?_, hmatches, .refl d⟩
    rw [trace_lines, List.filterMap_nil, List.append_nil]
    exact h
  | cons inst rest ih =>
    intro lines d emitted inputs ns m h hmatches hdrivable hreads
    obtain ⟨hinst, hrest⟩ := List.forall_mem_cons.mp hdrivable
    obtain ⟨d₁, emitted₁, inputs₁, ns₁, hon, h₁, hmatches₁, hleaves₁⟩ :=
      h.line hstreaming hdim hmatches hreads.1 hinst
    obtain ⟨d₂, emitted₂, inputs₂, ns₂, hon₂, h₂, hmatches₂, hleaves₂⟩ :=
      ih h₁ hmatches₁ (hleaves₁.table ▸ hrest) hreads.2
    refine ⟨d₂, emitted₂, inputs₂, ns₂, ?_, ?_, hmatches₂, hleaves₁.trans hleaves₂⟩
    · rw [on_drive_lines_cons_ok hon, hon₂]
    · rw [hleaves₁.table, List.append_assoc, ← trace_lines_append] at h₂
      exact h₂

end Driver

end Fhetch
