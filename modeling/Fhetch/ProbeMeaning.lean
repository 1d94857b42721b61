/-
What a recording through the probes computes.

The library computes on polynomials, which it knows by id; of each call one
instruction is recorded, or four, over the addresses of its polynomials. An in-place
call is what a clone and a compound assignment make, and it is recorded as reading the
address that its destination was copied from. The link to that address is dropped
when the copy is written. It is not dropped when the original is, nor when a recording
starts, and an in-place call that follows such a link reads what is not there any
more. So a recording means what the library computed for runs whose in-place calls
find good links.

Which write a value comes from is followed beside the run: a copy has the origin of
its source, every other call makes one of its own. A link is good when both ends have
the same origin, and nothing else about the links has to be known.
-/
import Fhetch.RecordedCode
import Fhetch.RecycledAddresses
import Fhetch.WordArithmetic

set_option autoImplicit false

namespace Fhetch

open Lib
open AddressAllocator (Request)

/-! ## The library -/

/-- What a residue becomes under another modulus: of its representatives the one
nearest to zero is kept. -/
def switched (old_modulus new_modulus v : ℕ) : ℕ :=
  let r := v % old_modulus
  ((if r ≤ old_modulus / 2 then (r : ℤ) else r - old_modulus) % new_modulus).toNat

namespace ProbeCall

/-- The calls that compute with integers, under moduli there are. A zero needs none. -/
def Computation : ProbeCall → Prop
  | zero _ _ | copy _ _ => True
  | add _ _ _ q | sub _ _ _ q | mul _ _ _ q => q ≠ 0
  | addi _ _ _ q | subi _ _ _ q | muli _ _ _ q => q ≠ 0
  | switchmodulus _ _ old_modulus new_modulus => old_modulus ≠ 0 ∧ new_modulus ≠ 0
  | _ => False

/-- What the library does to its polynomials, of `N` coefficients each. -/
def compute {N : ℕ} (val : ℕ → Fin N → ℕ) : ProbeCall → ℕ → Fin N → ℕ
  | zero poly_id _ => Function.update val poly_id fun _ => 0
  | copy dst_id src_id => Function.update val dst_id (val src_id)
  | add dst src1 src2 q => Function.update val dst fun j => (val src1 j + val src2 j) % q.toNat
  | sub dst src1 src2 q =>
    Function.update val dst fun j => (((val src1 j : ℤ) - val src2 j) % q.toNat).toNat
  | mul dst src1 src2 q => Function.update val dst fun j => val src1 j * val src2 j % q.toNat
  | addi dst src immediate q =>
    Function.update val dst fun j => (val src j + immediate.toNat) % q.toNat
  | subi dst src immediate q =>
    Function.update val dst fun j => (((val src j : ℤ) - immediate.toNat) % q.toNat).toNat
  | muli dst src immediate q => Function.update val dst fun j => val src j * immediate.toNat % q.toNat
  | switchmodulus dst src old_modulus new_modulus =>
    Function.update val dst fun j => switched old_modulus.toNat new_modulus.toNat (val src j)
  | _ => val

/-- The destination of an arithmetic call in place. -/
def inplace : ProbeCall → Option ℕ
  | add dst src _ _ | sub dst src _ _ | mul dst src _ _ | addi dst src _ _ | subi dst src _ _
  | muli dst src _ _ => if src = dst then some dst else none
  | _ => none

end ProbeCall

/-- Where the value of a polynomial comes from. -/
inductive Origin where
  /-- It had it before the run. -/
  | initial (poly_id : ℕ)
  /-- A call of the run computed it. -/
  | computed (index : ℕ)
  deriving DecidableEq

/-- The origins after the call of an index. -/
def ProbeCall.origins (origin : ℕ → Origin) (index : ℕ) : ProbeCall → ℕ → Origin
  | copy dst_id src_id => Function.update origin dst_id (origin src_id)
  | zero dst _ | add dst _ _ _ | sub dst _ _ _ | mul dst _ _ _ | addi dst _ _ _ | subi dst _ _ _
  | muli dst _ _ _ | switchmodulus dst _ _ _ => Function.update origin dst (.computed index)
  | _ => origin

/-! ## Runs -/

/-- The library and the probes in it, with what is followed beside them. -/
structure Instrumented (N : ℕ) where
  probes : Probes
  value : ℕ → Fin N → ℕ
  origin : ℕ → Origin := .initial
  calls : ℕ := 0

/-- What an in-place call on an id reads instead, if anything, is the value of the
id's own origin. -/
def Probes.LinkGood (p : Probes) (origin : ℕ → Origin) (dst : ℕ) : Prop :=
  ∀ parent, p.data_parent (p.map_address dst).1 = some parent →
    ∃ id, (p.map_address dst).2.address_map id = some parent ∧ origin id = origin dst

namespace Instrumented

variable {N : ℕ}

def step (s : Instrumented N) (call : ProbeCall) : Instrumented N where
  probes := s.probes.step call
  value := call.compute s.value
  origin := call.origins s.origin s.calls
  calls := s.calls + 1

/-- What a call must find: addresses to hand out, a good link if it is in place, and
an operand that is reduced if zero is added to it, for that is recorded as a copy. -/
structure Clean (s : Instrumented N) (call : ProbeCall) : Prop where
  computation : call.Computation
  allowed : s.probes.Allowed call
  link : ∀ dst, call.inplace = some dst → s.probes.LinkGood s.origin dst
  reduced : ∀ dst src q, call = .addi dst src 0 q → ∀ j, s.value src j < q.toNat

end Instrumented

/-- A recording goes on, and each address in use is one id's. -/
structure Probes.Ready (p : Probes) : Prop where
  should_record : p.should_record = true
  keeps : p.writer.keeps = true
  consistent : p.writer.Consistent
  sound : p.toAddressAllocator.Sound
  injective : ∀ id id' addr, p.address_map id = some addr → p.address_map id' = some addr →
    id = id'

/-! ## What calls leave in the trace -/

/-- From one state to a later one operations were recorded, all of them arithmetic
over addresses in use. -/
structure Probes.Traces (p : Probes) (ops : List ApiOp) (p' : Probes) : Prop where
  ready : p'.Ready
  grows : ∀ id addr, p.address_map id = some addr → p'.address_map id = some addr
  table : p.writer.modulus_table_ <+: p'.writer.modulus_table_
  arithmetic : ∀ op ∈ ops, op.Arithmetic
  used : ∀ op ∈ ops, ∀ addr ∈ op.dest :: op.reads, ∃ id, p'.address_map id = some addr
  recorded : ∃ insts, p'.writer.instructions_ = p.writer.instructions_ ++ insts ∧
    (p'.writer.modulus_table_.length ≤ 2 ^ 32 →
      List.Forall₂ (ApiOp.RecordedAs p'.writer.modulus_table_) ops insts)

namespace Probes

variable {p p' p'' : Probes} {ops ops' : List ApiOp}

theorem Traces.refl (h : p.Ready) : p.Traces [] p where
  ready := h
  grows := fun _ _ h => h
  table := List.prefix_rfl
  arithmetic := List.forall_mem_nil _
  used := List.forall_mem_nil _
  recorded := ⟨[], (List.append_nil _).symm, fun _ => .nil⟩

theorem Traces.trans (h : p.Traces ops p') (h' : p'.Traces ops' p'') :
    p.Traces (ops ++ ops') p'' where
  ready := h'.ready
  grows := fun id addr hid => h'.grows id addr (h.grows id addr hid)
  table := h.table.trans h'.table
  arithmetic := List.forall_mem_append.mpr ⟨h.arithmetic, h'.arithmetic⟩
  used := by
    refine List.forall_mem_append.mpr ⟨fun op hop => ?_, h'.used⟩
    intro addr haddr
    obtain ⟨id, hid⟩ := h.used op hop addr haddr
    exact ⟨id, h'.grows id addr hid⟩
  recorded := by
    obtain ⟨insts, hinsts, hrec⟩ := h.recorded
    obtain ⟨insts', hinsts', hrec'⟩ := h'.recorded
    refine ⟨insts ++ insts', by rw [hinsts', hinsts, List.append_assoc], fun hsize => ?_⟩
    -- indices into the table of then are indices into the table of later
    have hgrown := (hrec (h'.table.length_le.trans hsize)).imp fun _ _ hinst => hinst.grow h'.table
    exact List.rel_append hgrown (hrec' hsize)

/-- An id that has an address, and one that has none and is given a free one. -/
theorem Ready.map_address (h : p.Ready) {id : ℕ} (hid : p.Mappable id) :
    p.Traces [] (p.map_address id).2 ∧
      (p.map_address id).2.address_map id = some (p.map_address id).1 := by
  obtain ⟨hsound, hmapped⟩ := h.sound.map_address hid
  have hmap : (p.map_address id).2.address_map =
      Function.update p.address_map id (some (p.map_address id).1) ∧
      ∀ id', id' ≠ id → p.address_map id' ≠ some (p.map_address id).1 := by
    show (p.toAddressAllocator.map_address id).2.address_map =
      Function.update p.address_map id (some (p.toAddressAllocator.map_address id).1) ∧
      ∀ id', id' ≠ id → p.address_map id' ≠ some (p.toAddressAllocator.map_address id).1
    by_cases hnone : p.address_map id = none
    · have ho := h.sound.take (hid.resolve_left (by rw [hnone]; exact Bool.false_ne_true))
      rw [AddressAllocator.map_address_of_none hnone]
      refine ⟨?_, fun id' _ => ho.unused id'⟩
      show Function.update _ _ _ = _
      rw [ho.map]
    · obtain ⟨addr, haddr⟩ := Option.ne_none_iff_exists'.mp hnone
      rw [AddressAllocator.map_address_of_some haddr]
      refine ⟨(Function.update_eq_self_iff.mpr haddr.symm).symm, fun id' hne hid' => ?_⟩
      exact hne (h.injective id' id addr hid' haddr)
  refine ⟨⟨⟨h.should_record, h.keeps, h.consistent, hsound, ?_⟩, ?_, List.prefix_rfl,
    List.forall_mem_nil _, List.forall_mem_nil _, [], (List.append_nil _).symm, fun _ => .nil⟩, hmapped⟩
  · intro id₁ id₂ addr h₁ h₂
    rw [hmap.1, Function.update_apply] at h₁ h₂
    -- two ids other than the new one had their addresses before
    by_cases h₁' : id₁ = id
    · by_cases h₂' : id₂ = id
      · rw [h₁', h₂']
      · rw [if_pos h₁'] at h₁
        rw [if_neg h₂'] at h₂
        exact absurd (h₂.trans h₁.symm) (hmap.2 id₂ h₂')
    · rw [if_neg h₁'] at h₁
      by_cases h₂' : id₂ = id
      · rw [if_pos h₂'] at h₂
        exact absurd (h₁.trans h₂.symm) (hmap.2 id₁ h₁')
      · rw [if_neg h₂'] at h₂
        exact h.injective id₁ id₂ addr h₁ h₂
  · intro id' addr hid'
    rw [hmap.1, Function.update_apply]
    by_cases heq : id' = id
    · rw [if_pos heq]
      rw [heq] at hid'
      show some (p.toAddressAllocator.map_address id).1 = _
      rw [AddressAllocator.map_address_of_some hid']
    · rw [if_neg heq]
      exact hid'

/-- Arithmetic over addresses in use is recorded. -/
theorem Ready.record (h : p.Ready) (ops : List ApiOp) (harith : ∀ op ∈ ops, op.Arithmetic)
    (hused : ∀ op ∈ ops, ∀ addr ∈ op.dest :: op.reads, ∃ id, p.address_map id = some addr) :
    p.Traces ops (p.recording fun tw => ops.foldl (fun tw op => op.record tw) tw) := by
  obtain ⟨hc, hkeeps, htable, hrec⟩ := record_calls harith h.consistent h.keeps
  exact ⟨⟨h.should_record, hkeeps, hc, h.sound, h.injective⟩, fun _ _ hid => hid, htable, harith,
    hused, hrec⟩

/-- What else changes with a call is no part of the trace. -/
theorem Ready.links (h : p.Ready) (data_parent : ℕ → Option ℕ) :
    p.Traces [] { p with data_parent := data_parent } :=
  ⟨⟨h.should_record, h.keeps, h.consistent, h.sound, h.injective⟩, fun _ _ hid => hid,
    List.prefix_rfl, List.forall_mem_nil _, List.forall_mem_nil _, [], (List.append_nil _).symm,
    fun _ => .nil⟩

theorem Ready.comment (h : p.Ready) (text : Str) : p.Traces [] (p.recording (·.comment text)) := by
  have hcomment : p.writer.comment text =
      { p.writer with annotations_ := (p.writer.comment text).annotations_ } := by
    unfold TraceWriter.comment
    split
    · rfl
    · rfl
  have hstate : p.recording (·.comment text) = { p with
      writer := { p.writer with annotations_ := (p.writer.comment text).annotations_ } } := by
    rw [← hcomment]
    rfl
  rw [hstate]
  exact ⟨⟨h.should_record, h.keeps, ⟨h.consistent.head, h.consistent.nodup, h.consistent.lookup⟩,
    h.sound, h.injective⟩, fun _ _ hid => hid, List.prefix_rfl, List.forall_mem_nil _,
    List.forall_mem_nil _, [], (List.append_nil _).symm, fun _ => .nil⟩

end Probes

/-- The copy idiom names the index of the sentinel, which registering the sentinel
would give. -/
theorem emit_ps_idx_sentinel {tw : TraceWriter} (hc : tw.Consistent) (op : FhOpcode) (d s1 : ℕ)
    (imm : UInt64) :
    emit_ps_idx op d s1 imm COPY_MODULUS_INDEX tw = emit_ps op d s1 imm COPY_MODULUS_VALUE tw := by
  obtain ⟨rest, hrest⟩ := TraceWriter.head_cons hc
  have hindex : tw.modulus_index_ COPY_MODULUS_VALUE = some COPY_MODULUS_INDEX := by
    rw [hc.lookup, hrest, if_pos List.mem_cons_self, List.idxOf_cons_self]
    rfl
  have hregister : midx COPY_MODULUS_VALUE tw = (COPY_MODULUS_INDEX, tw) := by
    rw [midx, TraceWriter.register_modulus, hindex]
  rw [emit_ps, emit_mod, hregister, emit_ps_idx]

/-! ## What they mean -/

/-- A memory shows a value for each id at its address. -/
def Shows (F : ℕ → Option ℕ) (m v : ℕ → ℕ) : Prop := ∀ id addr, F id = some addr → m addr = v id

/-- What the operations do to the memory is what has become of the values, however
many addresses are in use in the end. -/
def Probes.Means {N : ℕ} (p' : Probes) (ops : List ApiOp) (val val' : ℕ → Fin N → ℕ) : Prop :=
  ∀ F : ℕ → Option ℕ, (∀ id id' addr, F id = some addr → F id' = some addr → id = id') →
    (∀ id addr, p'.address_map id = some addr → F id = some addr) →
    ∀ (j : Fin N) m, Shows F m (fun id => val id j) →
      Shows F (ApiOp.code.eval m ops) fun id => val' id j

/-- Operations that end up writing one polynomial. -/
theorem Probes.means_write {N : ℕ} {p' : Probes} {ops : List ApiOp} {val : ℕ → Fin N → ℕ}
    {x : Fin N → ℕ} {dst da : ℕ} (hdst : p'.address_map dst = some da)
    (hvalue : ∀ (j : Fin N) m, (∀ id addr, p'.address_map id = some addr → m addr = val id j) →
      ApiOp.code.eval m ops = Function.update m da (x j)) :
    p'.Means ops val (Function.update val dst x) := by
  intro F hF hsub j m hm id addr hid
  rw [hvalue j m fun id addr hid => hm id addr (hsub id addr hid)]
  show Function.update m da (x j) addr = Function.update val dst x id j
  by_cases heq : id = dst
  · subst heq
    rw [hsub id da hdst] at hid
    rw [← Option.some.inj hid, Function.update_self, Function.update_self]
  · have hne : addr ≠ da := by
      rintro rfl
      exact heq (hF id dst addr hid (hsub dst addr hdst))
    rw [Function.update_of_ne hne, Function.update_of_ne heq]
    exact hm id addr hid

/-! ## One call -/

section Calls

variable {p : Probes} {origin : ℕ → Origin} {dst src : ℕ}

/-- **The rewriting of an in-place source**: with a good link, the address that is read
holds a value of the source's origin. -/
theorem Probes.Ready.resolve (h : p.Ready) (hdst : p.Mappable dst)
    (hsrc : (p.map_address dst).2.Mappable src) (hlink : src = dst → p.LinkGood origin dst) :
    ∃ id, ((p.map_address dst).2.map_address src).2.address_map id =
        some (((p.map_address dst).2.map_address src).2.resolve_inplace_src
          ((p.map_address dst).2.map_address src).1 (p.map_address dst).1) ∧
      origin id = origin src := by
  obtain ⟨htraces, hda⟩ := h.map_address hdst
  obtain ⟨htraces', hsa⟩ := htraces.ready.map_address hsrc
  have hda' := htraces'.grows dst _ hda
  have hparent : ((p.map_address dst).2.map_address src).2.data_parent = p.data_parent := rfl
  unfold Probes.resolve_inplace_src
  rw [hparent]
  by_cases haddr : ((p.map_address dst).2.map_address src).1 = (p.map_address dst).1
  · -- one address, so one id
    have hsame : src = dst := by
      rw [haddr] at hsa
      exact htraces'.ready.injective src dst _ hsa hda'
    rw [if_pos haddr, haddr]
    rcases hfound : p.data_parent (p.map_address dst).1 with - | parent
    · exact ⟨dst, hda', by rw [hsame]⟩
    · obtain ⟨id, hid, horigin⟩ := hlink hsame parent hfound
      exact ⟨id, htraces'.grows id parent hid, by rw [horigin, hsame]⟩
  · rw [if_neg haddr]
    exact ⟨src, hsa, rfl⟩

/-- A call with two sources records one operation, over the addresses of its second
source, of its destination, and of an id that has the first source's value. -/
theorem Probes.Ready.arithmetic (h : p.Ready) {op : FhOpcode} (form : fh_operand_form op = .PolyPoly)
    (hop : op = .FH_SR_ADDP ∨ op = .FH_SR_SUBP ∨ op = .FH_SR_MULP) {src₂ : ℕ} {q : UInt64} (hq : q ≠ 0)
    (hallowed : Runs.Along AddressAllocator.step AddressAllocator.Allowed p.toAddressAllocator
      [.map dst, .map src, .map src₂])
    (hlink : src = dst → p.LinkGood origin dst) :
    ∃ da s1 s2 id, p.Traces [.pp op form da s1 s2 q] (p.arithmetic op dst src src₂ q) ∧
      (p.arithmetic op dst src src₂ q).address_map dst = some da ∧
      (p.arithmetic op dst src src₂ q).address_map id = some s1 ∧ origin id = origin src ∧
      (p.arithmetic op dst src src₂ q).address_map src₂ = some s2 := by
  obtain ⟨hdst, hsrc, hsrc₂, -⟩ := hallowed
  obtain ⟨htraces₁, hda⟩ := h.map_address hdst
  obtain ⟨htraces₂, -⟩ := htraces₁.ready.map_address hsrc
  obtain ⟨htraces₃, hs2⟩ := htraces₂.ready.map_address hsrc₂
  obtain ⟨id, hid, horigin⟩ := h.resolve hdst hsrc hlink
  have hda' := htraces₃.grows _ _ (htraces₂.grows _ _ hda)
  have hid' := htraces₃.grows _ _ hid
  have hrecord := htraces₃.ready.record
    [.pp op form (p.map_address dst).1
      (((p.map_address dst).2.map_address src).2.resolve_inplace_src
        ((p.map_address dst).2.map_address src).1 (p.map_address dst).1)
      (((p.map_address dst).2.map_address src).2.map_address src₂).1 q]
    (List.forall_mem_singleton.mpr ⟨hop, hq⟩)
    (List.forall_mem_singleton.mpr (by
      intro addr haddr
      rcases List.mem_cons.mp haddr with rfl | haddr
      · exact ⟨dst, hda'⟩
      · rcases List.mem_cons.mp haddr with rfl | haddr
        · exact ⟨id, hid'⟩
        · rw [List.mem_singleton.mp haddr]
          exact ⟨src₂, hs2⟩))
  rw [Probes.arithmetic, if_pos h.should_record]
  exact ⟨_, _, _, id, (htraces₁.trans (htraces₂.trans htraces₃)).trans
    (hrecord.trans (hrecord.ready.links _)), hda', hid', horigin, hs2⟩

/-- And so does one with a source and an immediate. -/
theorem Probes.Ready.inplace (h : p.Ready) {op : FhOpcode} (form : fh_operand_form op = .PolyScalar)
    (hop : op = .FH_SR_ADDPS ∨ op = .FH_SR_SUBPS ∨ op = .FH_SR_MULPS) {imm q : UInt64} (hq : q ≠ 0)
    (hallowed : Runs.Along AddressAllocator.step AddressAllocator.Allowed p.toAddressAllocator
      [.map dst, .map src])
    (hlink : src = dst → p.LinkGood origin dst) :
    ∃ da sa id, p.Traces [.ps op form da sa imm q]
        (p.inplace dst src fun da sa => emit_ps op da sa imm q) ∧
      (p.inplace dst src fun da sa => emit_ps op da sa imm q).address_map dst = some da ∧
      (p.inplace dst src fun da sa => emit_ps op da sa imm q).address_map id = some sa ∧
      origin id = origin src := by
  obtain ⟨hdst, hsrc, -⟩ := hallowed
  obtain ⟨htraces₁, hda⟩ := h.map_address hdst
  obtain ⟨htraces₂, -⟩ := htraces₁.ready.map_address hsrc
  obtain ⟨id, hid, horigin⟩ := h.resolve hdst hsrc hlink
  have hda' := htraces₂.grows _ _ hda
  have hrecord := htraces₂.ready.record
    [.ps op form (p.map_address dst).1
      (((p.map_address dst).2.map_address src).2.resolve_inplace_src
        ((p.map_address dst).2.map_address src).1 (p.map_address dst).1) imm q]
    (List.forall_mem_singleton.mpr ⟨hop, hq⟩)
    (List.forall_mem_singleton.mpr (by
      intro addr haddr
      rcases List.mem_cons.mp haddr with rfl | haddr
      · exact ⟨dst, hda'⟩
      · rw [List.mem_singleton.mp haddr]
        exact ⟨id, hid⟩))
  rw [Probes.inplace, if_pos h.should_record]
  exact ⟨_, _, id, (htraces₁.trans htraces₂).trans (hrecord.trans (hrecord.ready.links _)), hda',
    hid, horigin⟩

/-- The zero and the copy idiom. -/
theorem Probes.Ready.sentinel (h : p.Ready) (op : FhOpcode) (form : fh_operand_form op = .PolyScalar)
    (hop : op = .FH_SR_ADDPS ∨ op = .FH_SR_SUBPS ∨ op = .FH_SR_MULPS) {d a : ℕ} (imm : UInt64)
    (hd : ∃ id, p.address_map id = some d) (ha : ∃ id, p.address_map id = some a) :
    p.Traces [.ps op form d a imm COPY_MODULUS_VALUE]
      (p.recording (emit_ps_idx op d a imm COPY_MODULUS_INDEX)) := by
  have hrecord := h.record [.ps op form d a imm COPY_MODULUS_VALUE]
    (List.forall_mem_singleton.mpr ⟨hop, by decide⟩)
    (List.forall_mem_singleton.mpr (List.forall_mem_cons.mpr ⟨hd, List.forall_mem_singleton.mpr ha⟩))
  have hsame : p.recording (emit_ps_idx op d a imm COPY_MODULUS_INDEX) =
      p.recording (emit_ps op d a imm COPY_MODULUS_VALUE) := by
    unfold Probes.recording
    rw [emit_ps_idx_sentinel h.consistent]
  rw [hsame]
  exact hrecord

variable {N : ℕ} {val : ℕ → Fin N → ℕ}

theorem Probes.Ready.zero (h : p.Ready) (modulus : UInt64)
    (hallowed : Runs.Along AddressAllocator.step AddressAllocator.Allowed p.toAddressAllocator
      [.map dst]) :
    ∃ ops, p.Traces ops (p.openfhe_cprobe_zero dst modulus) ∧
      (p.openfhe_cprobe_zero dst modulus).Means ops val (Function.update val dst fun _ => 0) := by
  obtain ⟨hdst, -⟩ := hallowed
  obtain ⟨htraces, hda⟩ := h.map_address hdst
  have hzero : ∀ q x, psValue .FH_SR_MULPS q x 0 = 0 := fun q x => Nat.zero_mod q
  rw [Probes.openfhe_cprobe_zero, if_pos h.should_record]
  dsimp only
  by_cases hq : modulus = 0
  · have hrecord := htraces.ready.sentinel .FH_SR_MULPS rfl (.inr (.inr rfl)) 0 ⟨dst, hda⟩
      ⟨dst, hda⟩
    simp only [hq, ne_eq, not_true_eq_false, if_false]
    refine ⟨_, htraces.trans (hrecord.trans (hrecord.ready.links _)), ?_⟩
    exact Probes.means_write hda fun j m _ => congrArg (Function.update m _) (hzero _ _)
  · have hrecord := htraces.ready.record
      [.ps .FH_SR_MULPS rfl (p.map_address dst).1 (p.map_address dst).1 0 modulus]
      (List.forall_mem_singleton.mpr ⟨.inr (.inr rfl), hq⟩)
      (List.forall_mem_singleton.mpr (List.forall_mem_cons.mpr
        ⟨⟨dst, hda⟩, List.forall_mem_singleton.mpr ⟨dst, hda⟩⟩))
    simp only [ne_eq, hq, not_false_eq_true, if_true]
    refine ⟨_, htraces.trans (hrecord.trans (hrecord.ready.links _)), ?_⟩
    exact Probes.means_write hda fun j m _ => congrArg (Function.update m _) (hzero _ _)

theorem Probes.Ready.copy (h : p.Ready)
    (hallowed : Runs.Along AddressAllocator.step AddressAllocator.Allowed p.toAddressAllocator
      [.map src, .map dst]) :
    ∃ ops, p.Traces ops (p.openfhe_cprobe_copy dst src) ∧
      (p.openfhe_cprobe_copy dst src).Means ops val (Function.update val dst (val src)) := by
  obtain ⟨hsrc, hdst, -⟩ := hallowed
  obtain ⟨htraces₁, hsa⟩ := h.map_address hsrc
  obtain ⟨htraces₂, hda⟩ := htraces₁.ready.map_address hdst
  have hsa' := htraces₂.grows _ _ hsa
  have hlinked := htraces₂.ready.links
    (Function.update p.data_parent ((p.map_address src).2.map_address dst).1
      (some (p.map_address src).1))
  have hrecord := hlinked.ready.sentinel .FH_SR_ADDPS rfl (.inl rfl) 0 ⟨dst, hda⟩ ⟨src, hsa'⟩
  rw [Probes.openfhe_cprobe_copy, if_pos h.should_record]
  refine ⟨_, htraces₁.trans (htraces₂.trans (hlinked.trans hrecord)), ?_⟩
  apply Probes.means_write hda
  intro j m hm
  exact congrArg (Function.update m _) (hm src _ hsa')

/-- Centring by a shift, for a modulus of any parity. -/
theorem shift_switched {q r : ℕ} (hr : r < q) :
    (((r + (q - 1) / 2) % q : ℕ) : ℤ) =
      (if r ≤ q / 2 then (r : ℤ) else r - q) + ((q - 1) / 2 : ℕ) := by
  by_cases hle : r ≤ q / 2
  · rw [if_pos hle, Nat.mod_eq_of_lt (by omega), Nat.cast_add]
  · have hwrap : (r + (q - 1) / 2) % q = r + (q - 1) / 2 - q := by
      rw [Nat.mod_eq_sub_mod (by omega), Nat.mod_eq_of_lt (by omega)]
    rw [if_neg hle, hwrap]
    omega

/-- **The four operations of a modulus switch.** -/
theorem switchmodulus_value {old_modulus new_modulus : UInt64} (hold : old_modulus ≠ 0)
    (hnew : new_modulus ≠ 0) (x : ℕ) :
    psValue .FH_SR_ADDPS new_modulus.toNat (psValue .FH_SR_MULPS new_modulus.toNat
      (psValue .FH_SR_ADDPS old_modulus.toNat (psValue .FH_SR_MULPS old_modulus.toNat x 1)
        (Probes.half_om old_modulus).toNat) 1) (Probes.neg_half old_modulus new_modulus).toNat =
      switched old_modulus.toNat new_modulus.toNat x := by
  have hpos : 0 < old_modulus.toNat := Nat.pos_of_ne_zero fun h => hold (UInt64.toNat_inj.mp h)
  have hpos' : 0 < new_modulus.toNat := Nat.pos_of_ne_zero fun h => hnew (UInt64.toNat_inj.mp h)
  have hhalf : (Probes.half_om old_modulus).toNat = (old_modulus.toNat - 1) / 2 := by
    rw [Probes.half_om, UInt64.toNat_shiftRight,
      UInt64.toNat_sub_of_le _ _ (UInt64.le_iff_toNat_le.mpr (by
        show 1 ≤ old_modulus.toNat
        exact hpos))]
    exact Nat.shiftRight_eq_div_pow _ 1
  have hmul : ∀ q y, psValue .FH_SR_MULPS q y 1 = y % q := fun q y => by
    show y * 1 % q = _
    rw [mul_one]
  have hr : x % old_modulus.toNat < old_modulus.toNat := Nat.mod_lt _ hpos
  rw [hmul, hmul, psValue_addps hr, psValue_addps (Nat.mod_lt _ hpos'), hhalf]
  have hshift := shift_switched hr
  have hneg := neg_half_modEq (h := Probes.half_om old_modulus) hpos'
  rw [hhalf] at hneg
  have hmod : (((x % old_modulus.toNat + (old_modulus.toNat - 1) / 2) % old_modulus.toNat %
        new_modulus.toNat + (Probes.neg_half old_modulus new_modulus).toNat) % new_modulus.toNat : ℕ) ≡
      (if x % old_modulus.toNat ≤ old_modulus.toNat / 2 then ((x % old_modulus.toNat : ℕ) : ℤ)
        else (x % old_modulus.toNat : ℕ) - old_modulus.toNat) [ZMOD new_modulus.toNat] := by
    calc (((x % old_modulus.toNat + (old_modulus.toNat - 1) / 2) % old_modulus.toNat %
            new_modulus.toNat + (Probes.neg_half old_modulus new_modulus).toNat) %
            new_modulus.toNat : ℕ)
        ≡ (((x % old_modulus.toNat + (old_modulus.toNat - 1) / 2) % old_modulus.toNat : ℕ) : ℤ) +
            ((Probes.neg_half old_modulus new_modulus).toNat : ℤ) [ZMOD new_modulus.toNat] := by
          rw [← Nat.cast_add]
          exact Int.natCast_modEq_iff.mpr ((Nat.mod_modEq _ _).trans ((Nat.mod_modEq _ _).add_right _))
      _ ≡ _ + -((old_modulus.toNat - 1) / 2 : ℕ) [ZMOD new_modulus.toNat] := hneg.add_left _
      _ = _ := by rw [hshift, add_neg_cancel_right]
  unfold switched
  dsimp only
  rw [← eq_emod_of_modEq (Nat.mod_lt _ hpos') hmod, Int.toNat_natCast]

/-- The operations of a modulus switch, from an address to another or in place. -/
def switchOps (d a : ℕ) (old_modulus new_modulus : UInt64) : List ApiOp :=
  [.ps .FH_SR_MULPS rfl d a 1 old_modulus,
    .ps .FH_SR_ADDPS rfl d d (Probes.half_om old_modulus) old_modulus,
    .ps .FH_SR_MULPS rfl d d 1 new_modulus,
    .ps .FH_SR_ADDPS rfl d d (Probes.neg_half old_modulus new_modulus) new_modulus]

/-- Each of the four overwrites what the one before it wrote. -/
theorem eval_switchOps {old_modulus new_modulus : UInt64} (hold : old_modulus ≠ 0)
    (hnew : new_modulus ≠ 0) (d a : ℕ) (m : ℕ → ℕ) :
    ApiOp.code.eval m (switchOps d a old_modulus new_modulus) =
      Function.update m d (switched old_modulus.toNat new_modulus.toNat (m a)) := by
  rw [← switchmodulus_value hold hnew]
  simp only [switchOps, SingleAssignment.Code.eval, List.foldl_cons, List.foldl_nil,
    SingleAssignment.Code.step, ApiOp.code, ApiOp.dest, ApiOp.value, Function.update_self,
    Function.update_idem]
  rfl

theorem Probes.Ready.switchOps (h : p.Ready) {d a : ℕ} {old_modulus new_modulus : UInt64}
    (hold : old_modulus ≠ 0) (hnew : new_modulus ≠ 0) (hd : ∃ id, p.address_map id = some d)
    (ha : ∃ id, p.address_map id = some a) :
    p.Traces (switchOps d a old_modulus new_modulus) (p.recording fun tw =>
      (switchOps d a old_modulus new_modulus).foldl (fun tw op => op.record tw) tw) := by
  apply h.record
  · simp only [Fhetch.switchOps, List.forall_mem_cons]
    exact ⟨⟨.inr (.inr rfl), hold⟩, ⟨.inl rfl, hold⟩, ⟨.inr (.inr rfl), hnew⟩, ⟨.inl rfl, hnew⟩,
      List.forall_mem_nil _⟩
  · simp only [Fhetch.switchOps, List.forall_mem_cons, ApiOp.dest, ApiOp.reads]
    exact ⟨⟨hd, ha, List.forall_mem_nil _⟩, ⟨hd, hd, List.forall_mem_nil _⟩,
      ⟨hd, hd, List.forall_mem_nil _⟩, ⟨hd, hd, List.forall_mem_nil _⟩, List.forall_mem_nil _⟩

theorem Probes.Ready.switchmodulus (h : p.Ready) {old_modulus new_modulus : UInt64}
    (hold : old_modulus ≠ 0) (hnew : new_modulus ≠ 0)
    (hallowed : Runs.Along AddressAllocator.step AddressAllocator.Allowed p.toAddressAllocator
      [.map dst, .map src]) :
    ∃ ops, p.Traces ops (p.openfhe_cprobe_switchmodulus dst src old_modulus new_modulus) ∧
      (p.openfhe_cprobe_switchmodulus dst src old_modulus new_modulus).Means ops val
        (Function.update val dst fun j =>
          switched old_modulus.toNat new_modulus.toNat (val src j)) := by
  obtain ⟨hdst, hsrc, -⟩ := hallowed
  obtain ⟨htraces₁, hd⟩ := h.map_address hdst
  obtain ⟨htraces₂, ha⟩ := htraces₁.ready.map_address hsrc
  replace hd := htraces₂.grows _ _ hd
  have htraces := htraces₁.trans htraces₂
  rw [Probes.openfhe_cprobe_switchmodulus, if_pos h.should_record]
  dsimp only
  -- the addresses and the state with both of them are all that matters from here on
  generalize ((p.map_address dst).2.map_address src).1 = a at ha htraces ⊢
  generalize ((p.map_address dst).2.map_address src).2 = p₂ at ha hd htraces ⊢
  generalize (p.map_address dst).1 = d at hd ⊢
  have hnote := htraces.ready.comment (str "switchmodulus %" ++ decimal d ++ str ", %" ++ decimal a ++
    str ", old_mod=" ++ decimal old_modulus.toNat ++ str ", new_mod=" ++ decimal new_modulus.toNat)
  have hrecord := hnote.ready.switchOps hold hnew ⟨dst, hd⟩ ⟨src, ha⟩
  refine ⟨_, htraces.trans (hnote.trans (hrecord.trans (hrecord.ready.links _))), ?_⟩
  apply Probes.means_write hd
  intro j m hm
  simp only [List.append_nil, List.nil_append]
  rw [eval_switchOps hold hnew, hm src a ha]

/-- What is computed from two sources, one of them perhaps read at another address. -/
theorem Probes.Ready.means_arithmetic (h : p.Ready) (val : ℕ → Fin N → ℕ)
    (htracked : ∀ id id', origin id = origin id' → val id = val id') {op : FhOpcode}
    (form : fh_operand_form op = .PolyPoly)
    (hop : op = .FH_SR_ADDP ∨ op = .FH_SR_SUBP ∨ op = .FH_SR_MULP) {src₂ : ℕ} {q : UInt64} (hq : q ≠ 0)
    (hallowed : Runs.Along AddressAllocator.step AddressAllocator.Allowed p.toAddressAllocator
      [.map dst, .map src, .map src₂])
    (hlink : src = dst → p.LinkGood origin dst) :
    ∃ ops, p.Traces ops (p.arithmetic op dst src src₂ q) ∧
      (p.arithmetic op dst src src₂ q).Means ops val
        (Function.update val dst fun j => ppValue op q.toNat (val src j) (val src₂ j)) := by
  obtain ⟨da, s1, s2, id, htraces, hda, hid, horigin, hs2⟩ :=
    h.arithmetic form hop hq hallowed hlink
  refine ⟨_, htraces, Probes.means_write hda fun j m hm => ?_⟩
  show Function.update m da (ppValue op q.toNat (m s1) (m s2)) = _
  rw [hm id s1 hid, hm src₂ s2 hs2, htracked id src horigin]

theorem Probes.Ready.means_inplace (h : p.Ready) (val : ℕ → Fin N → ℕ)
    (htracked : ∀ id id', origin id = origin id' → val id = val id') {op : FhOpcode}
    (form : fh_operand_form op = .PolyScalar)
    (hop : op = .FH_SR_ADDPS ∨ op = .FH_SR_SUBPS ∨ op = .FH_SR_MULPS) {imm q : UInt64} (hq : q ≠ 0)
    (hallowed : Runs.Along AddressAllocator.step AddressAllocator.Allowed p.toAddressAllocator
      [.map dst, .map src])
    (hlink : src = dst → p.LinkGood origin dst) :
    ∃ ops, p.Traces ops (p.inplace dst src fun da sa => emit_ps op da sa imm q) ∧
      (p.inplace dst src fun da sa => emit_ps op da sa imm q).Means ops val
        (Function.update val dst fun j => psValue op q.toNat (val src j) imm.toNat) := by
  obtain ⟨da, sa, id, htraces, hda, hid, horigin⟩ := h.inplace form hop hq hallowed hlink
  refine ⟨_, htraces, Probes.means_write hda fun j m hm => ?_⟩
  show Function.update m da (psValue op q.toNat (m sa) imm.toNat) = _
  rw [hm id sa hid, htracked id src horigin]

end Calls

namespace Instrumented

variable {N : ℕ} {s : Instrumented N} {call : ProbeCall}

/-- Values of one origin are equal, and no origin is a call to come. -/
structure Inv (s : Instrumented N) : Prop where
  ready : s.probes.Ready
  tracked : ∀ id id', s.origin id = s.origin id' → s.value id = s.value id'
  past : ∀ id index, s.origin id = .computed index → index < s.calls

/-- **What a call leaves in the trace does what the call did.** -/
theorem Inv.step_means (hs : s.Inv) (hc : s.Clean call) :
    ∃ ops, s.probes.Traces ops (s.step call).probes ∧
      (s.step call).probes.Means ops s.value (s.step call).value := by
  have hpos : ∀ {q : UInt64}, q ≠ 0 → 0 < q.toNat :=
    fun hq => Nat.pos_of_ne_zero fun h => hq (UInt64.toNat_inj.mp h)
  have hallowed := hc.allowed
  have hcomputation := hc.computation
  have hlink := hc.link
  unfold Probes.Allowed at hallowed
  cases call with
  | zero poly_id q =>
    rw [ProbeCall.requests, if_pos hs.ready.should_record] at hallowed
    exact hs.ready.zero q hallowed
  | copy dst_id src_id =>
    rw [ProbeCall.requests, if_pos hs.ready.should_record] at hallowed
    exact hs.ready.copy hallowed
  | add dst src1 src2 q =>
    rw [ProbeCall.requests, if_pos hs.ready.should_record] at hallowed
    exact hs.ready.means_arithmetic _ hs.tracked rfl (.inl rfl) hcomputation hallowed
      fun h => hlink dst (if_pos h)
  | mul dst src1 src2 q =>
    rw [ProbeCall.requests, if_pos hs.ready.should_record] at hallowed
    exact hs.ready.means_arithmetic _ hs.tracked rfl (.inr (.inr rfl)) hcomputation hallowed
      fun h => hlink dst (if_pos h)
  | sub dst src1 src2 q =>
    rw [ProbeCall.requests, if_pos hs.ready.should_record] at hallowed
    obtain ⟨ops, htraces, hmeans⟩ := hs.ready.means_arithmetic s.value hs.tracked rfl
      (.inr (.inl rfl)) hcomputation hallowed fun h => hlink dst (if_pos h)
    refine ⟨ops, htraces, ?_⟩
    simp only [ppValue, sub_mod_toNat (hpos hcomputation)] at hmeans
    exact hmeans
  | muli dst src imm q =>
    rw [ProbeCall.requests, if_pos hs.ready.should_record] at hallowed
    exact hs.ready.means_inplace _ hs.tracked rfl (.inr (.inr rfl)) hcomputation hallowed
      fun h => hlink dst (if_pos h)
  | subi dst src imm q =>
    rw [ProbeCall.requests, if_pos hs.ready.should_record] at hallowed
    obtain ⟨ops, htraces, hmeans⟩ := hs.ready.means_inplace s.value hs.tracked rfl
      (.inr (.inl rfl)) hcomputation hallowed fun h => hlink dst (if_pos h)
    refine ⟨ops, htraces, ?_⟩
    simp only [psValue, sub_mod_toNat (hpos hcomputation)] at hmeans
    exact hmeans
  | addi dst src imm q =>
    rw [ProbeCall.requests, if_pos hs.ready.should_record] at hallowed
    obtain ⟨ops, htraces, hmeans⟩ := hs.ready.means_inplace s.value hs.tracked rfl
      (.inl rfl) hcomputation hallowed fun h => hlink dst (if_pos h)
    refine ⟨ops, htraces, ?_⟩
    have hvalue : ∀ j, psValue .FH_SR_ADDPS q.toNat (s.value src j) imm.toNat =
        (s.value src j + imm.toNat) % q.toNat := by
      intro j
      -- an addition of 0 is a copy, and the operand is reduced
      by_cases himm : imm = 0
      · subst himm
        exact psValue_addps (hc.reduced dst src q rfl j)
      · exact if_neg fun h => himm (UInt64.toNat_inj.mp h)
    simp only [hvalue] at hmeans
    exact hmeans
  | switchmodulus dst src old_modulus new_modulus =>
    rw [ProbeCall.requests, if_pos hs.ready.should_record] at hallowed
    exact hs.ready.switchmodulus hcomputation.1 hcomputation.2 hallowed
  | _ => exact hcomputation.elim

/-- A value that a call computes is of that call alone. -/
theorem Inv.computed (hs : s.Inv) (dst : ℕ) (x : Fin N → ℕ) :
    (∀ id id', Function.update s.origin dst (.computed s.calls) id =
        Function.update s.origin dst (.computed s.calls) id' →
      Function.update s.value dst x id = Function.update s.value dst x id') ∧
    ∀ id index, Function.update s.origin dst (.computed s.calls) id = .computed index →
      index < s.calls + 1 := by
  have hother : ∀ id, id ≠ dst → s.origin id ≠ .computed s.calls :=
    fun id _ hid => absurd (hs.past id _ hid) (Nat.lt_irrefl _)
  constructor
  · intro id id' h
    rw [Function.update_apply, Function.update_apply] at h ⊢
    by_cases hid : id = dst
    · rw [if_pos hid] at h ⊢
      by_cases hid' : id' = dst
      · rw [if_pos hid']
      · rw [if_neg hid'] at h
        exact absurd h.symm (hother id' hid')
    · rw [if_neg hid] at h ⊢
      by_cases hid' : id' = dst
      · rw [if_pos hid'] at h
        exact absurd h (hother id hid)
      · rw [if_neg hid'] at h ⊢
        exact hs.tracked id id' h
  · intro id index h
    rw [Function.update_apply] at h
    by_cases hid : id = dst
    · rw [if_pos hid] at h
      have := Origin.computed.inj h
      omega
    · rw [if_neg hid] at h
      have := hs.past id index h
      omega

/-- A value that is copied keeps its origin. -/
theorem Inv.copied (hs : s.Inv) (dst src : ℕ) :
    (∀ id id', Function.update s.origin dst (s.origin src) id =
        Function.update s.origin dst (s.origin src) id' →
      Function.update s.value dst (s.value src) id = Function.update s.value dst (s.value src) id') ∧
    ∀ id index, Function.update s.origin dst (s.origin src) id = .computed index →
      index < s.calls + 1 := by
  -- a copy is where its source was
  have hsource : ∀ id, ∃ id₀, Function.update s.origin dst (s.origin src) id = s.origin id₀ ∧
      Function.update s.value dst (s.value src) id = s.value id₀ := by
    intro id
    by_cases hid : id = dst
    · refine ⟨src, ?_, ?_⟩
      · rw [hid, Function.update_self]
      · rw [hid, Function.update_self]
    · exact ⟨id, Function.update_of_ne hid _ _, Function.update_of_ne hid _ _⟩
  constructor
  · intro id id' h
    obtain ⟨id₀, horigin, hvalue⟩ := hsource id
    obtain ⟨id₀', horigin', hvalue'⟩ := hsource id'
    rw [hvalue, hvalue']
    rw [horigin, horigin'] at h
    exact hs.tracked id₀ id₀' h
  · intro id index h
    obtain ⟨id₀, horigin, -⟩ := hsource id
    rw [horigin] at h
    exact (hs.past id₀ index h).trans (Nat.lt_succ_self _)

theorem Inv.step (hs : s.Inv) (hc : s.Clean call) : (s.step call).Inv := by
  obtain ⟨ops, htraces, -⟩ := hs.step_means hc
  have hcomputation := hc.computation
  have hflow : (∀ id id', (s.step call).origin id = (s.step call).origin id' →
        (s.step call).value id = (s.step call).value id') ∧
      ∀ id index, (s.step call).origin id = .computed index → index < s.calls + 1 := by
    cases call with
    | copy dst_id src_id => exact hs.copied dst_id src_id
    | zero | add | sub | mul | addi | subi | muli | switchmodulus => exact hs.computed _ _
    | _ => exact hcomputation.elim
  exact ⟨htraces.ready, hflow.1, hflow.2⟩

/-- **What a run leaves in the trace.** -/
theorem Inv.run_means (hs : s.Inv) {calls : List ProbeCall}
    (hcalls : Runs.Along Instrumented.step Clean s calls) :
    ∃ ops, s.probes.Traces ops (Runs.run Instrumented.step s calls).probes ∧
      (Runs.run Instrumented.step s calls).probes.Means ops s.value
        (Runs.run Instrumented.step s calls).value := by
  induction calls generalizing s with
  | nil => exact ⟨[], Probes.Traces.refl hs.ready, fun _ _ _ _ _ hm => hm⟩
  | cons call calls ih =>
    obtain ⟨hc, hrest⟩ := hcalls
    obtain ⟨ops, htraces, hmeans⟩ := hs.step_means hc
    obtain ⟨ops', htraces', hmeans'⟩ := ih (hs.step hc) hrest
    refine ⟨ops ++ ops', htraces.trans htraces', ?_⟩
    intro F hF hsub j m hm
    rw [SingleAssignment.Code.eval_append]
    apply hmeans' F hF hsub
    -- the addresses of then are still those of later
    exact hmeans F hF (fun id addr hid => hsub id addr (htraces'.grows id addr hid)) j m hm

end Instrumented

/-! ## Replaying -/

/-- **A recording preserves the meaning of a run**: its instructions run, without an
error, from any memory that holds each polynomial's initial value at its address to
one that holds there what the library has computed. -/
def Instrumented.Preserved {N : ℕ} (M : NativeMath) (s s' : Instrumented N) : Prop :=
  ∃ insts, s'.probes.writer.instructions_ = s.probes.writer.instructions_ ++ insts ∧
    ∀ impl : Impl, impl.Sized → impl.ring_dim = N →
      s'.probes.writer.modulus_table_ <+: impl.trace.modulus_table →
      (∀ id addr, s'.probes.address_map id = some addr →
        ∀ j : Fin N, impl.coefficient j addr = s.value id j) →
      ∀ i k, ∃ impl', execute_loop M [] insts i impl k = some (impl', k + insts.length) ∧
        impl'.error_count = impl.error_count ∧
        ∀ id addr, s'.probes.address_map id = some addr →
          ∀ j : Fin N, impl'.coefficient j addr = s'.value id j

/-- A run begins, over a recording that has been started. -/
def Instrumented.start {N : ℕ} (p : Probes) (init : ℕ → Fin N → ℕ) : Instrumented N where
  probes := p
  value := init

theorem Instrumented.inv_start {N : ℕ} {p : Probes} (hp : p.Ready) (init : ℕ → Fin N → ℕ) :
    (Instrumented.start p init).Inv := by
  refine ⟨hp, fun id id' h => ?_, fun id index h => ?_⟩
  · rw [Origin.initial.inj h]
  · exact absurd h (by simp [Instrumented.start])

/-- The addresses and the table are within what an instruction can hold of them. -/
def Probes.Fits (p : Probes) : Prop :=
  p.next_fhetch_addr ≤ 2 ^ 32 ∧ p.writer.modulus_table_.length ≤ 2 ^ 32

/-- **Recording through the probes preserves meaning** where every in-place call finds
a good link. -/
theorem recording_preserves_meaning {M : NativeMath} (hM : M.Exact) {N : ℕ} {p : Probes}
    (hp : p.Ready) (init : ℕ → Fin N → ℕ) (calls : List ProbeCall)
    (hcalls : Runs.Along Instrumented.step Instrumented.Clean (.start p init) calls)
    (hfits : (Runs.run Instrumented.step (.start p init) calls).probes.Fits) :
    Instrumented.Preserved M (.start p init) (Runs.run Instrumented.step (.start p init) calls) := by
  obtain ⟨ops, htraces, hmeans⟩ := (Instrumented.inv_start hp init).run_means hcalls
  obtain ⟨insts, hinsts, hrec⟩ := htraces.recorded
  refine ⟨insts, hinsts, fun impl hsized hdim hpre hinit i k => ?_⟩
  have hall : ∀ op ∈ ops, op.Fits := by
    intro op hop
    have hlt : ∀ addr ∈ op.dest :: op.reads, addr < 2 ^ 32 := by
      intro addr hmem
      obtain ⟨id, hid⟩ := htraces.used op hop addr hmem
      exact (htraces.ready.sound.mapped id addr hid).2.trans_le hfits.1
    exact ⟨hlt _ List.mem_cons_self, fun addr hmem => hlt addr (List.mem_cons_of_mem _ hmem)⟩
  have hgrown := (hrec hfits.2).imp fun _ _ hinst => ApiOp.RecordedAs.grow hinst hpre
  obtain ⟨impl', hexec, herror, -, -, -, hcoefficient⟩ :=
    replay_calls hM hsized htraces.arithmetic hall rfl hgrown i k
  refine ⟨impl', hexec, herror, fun id addr hid j => ?_⟩
  rw [hcoefficient j (by rw [hdim]; exact j.isLt)]
  exact hmeans _ htraces.ready.injective (fun _ _ h => h) j _ (fun id addr hid => hinit id addr hid j) id
    addr hid

/-- A recording that has just been started is one. -/
theorem ready_start : ({} : Probes).start.Ready where
  should_record := rfl
  keeps := rfl
  consistent := by
    have h := TraceWriter.consistent_clear {}
    exact ⟨h.head, h.nodup, h.lookup⟩
  sound := (probes_inv []).sound
  injective := fun _ _ _ h => absurd h (by simp [Probes.start])

/-- A clone, and the clone added to in place before the original is. -/
def cloneThenAdd : List ProbeCall := [.copy 2 1, .addi 2 2 1 97, .addi 1 1 1 97]

theorem cloneThenAdd_clean : Runs.Along Instrumented.step Instrumented.Clean
    (.start ({} : Probes).start fun _ (_ : Fin 1) => 5) cloneThenAdd := by
  have hnext : ∀ {dst src : ℕ} {imm q : UInt64}, imm ≠ 0 → ∀ dst' src' q',
      ProbeCall.addi dst src imm q = .addi dst' src' 0 q' → False := by
    intro dst src imm q himm dst' src' q' h
    exact himm (ProbeCall.addi.inj h).2.2.1
  have hmodulus : (97 : UInt64) ≠ 0 := by decide
  refine ⟨⟨trivial, ?_, ?_, ?_⟩, ⟨hmodulus, ?_, ?_, ?_⟩, ⟨hmodulus, ?_, ?_, ?_⟩, trivial⟩
  · exact ⟨.inr (.inr (show 1 + 1 < 2 ^ 64 by decide)), .inr (.inr (show 2 + 1 < 2 ^ 64 by decide)),
      trivial⟩
  · exact fun dst h => absurd h (by simp [ProbeCall.inplace])
  · exact fun dst src q h => absurd h (by simp)
  · exact ⟨.inl rfl, .inl rfl, trivial⟩
  · -- the link leads to the original, which is what it was
    intro dst h parent hparent
    obtain rfl : 2 = dst := Option.some.inj h
    obtain rfl : 1 = parent := Option.some.inj hparent
    exact ⟨1, rfl, rfl⟩
  · exact fun dst src q h => (hnext (by decide) dst src q h).elim
  · exact ⟨.inl rfl, .inl rfl, trivial⟩
  · intro dst h parent hparent
    obtain rfl : 1 = dst := Option.some.inj h
    exact absurd (show none = some parent from hparent) (by simp)
  · exact fun dst src q h => (hnext (by decide) dst src q h).elim

theorem recording_preserves_meaning_clone : Instrumented.Preserved referenceMath
    (.start ({} : Probes).start fun _ (_ : Fin 1) => 5)
    (Runs.run Instrumented.step (.start ({} : Probes).start fun _ (_ : Fin 1) => 5) cloneThenAdd) :=
  recording_preserves_meaning referenceMath_exact ready_start _ cloneThenAdd cloneThenAdd_clean
    ⟨by decide +kernel, by decide +kernel⟩

/-- The original added to before the clone is. -/
def cloneAfterAdd : List ProbeCall := [.copy 2 1, .addi 1 1 1 97, .addi 2 2 1 97]

/-- A simulator of one coefficient, with 0 at every address. -/
def blankImpl : Impl where
  ring_dim := 1
  trace := { modulus_table := [COPY_MODULUS_VALUE, 97] }

/-- The clone is read from the original, which is another value by then. -/
theorem clone_reads_written_original : ¬ Instrumented.Preserved referenceMath
    (.start ({} : Probes).start fun _ (_ : Fin 1) => 0)
    (Runs.run Instrumented.step (.start ({} : Probes).start fun _ (_ : Fin 1) => 0) cloneAfterAdd) := by
  rintro ⟨insts, hinsts, hreplays⟩
  have hlist : insts = (Runs.run Instrumented.step
      (.start ({} : Probes).start fun _ (_ : Fin 1) => 0) cloneAfterAdd).probes.writer.instructions_ := by
    rw [hinsts]
    rfl
  have hblank : ∀ (a : ℕ) (j : Fin 1), blankImpl.coefficient j a = 0 := by
    intro a j
    have hj : (j : ℕ) = 0 := by omega
    rw [hj]
    rfl
  obtain ⟨impl', hexec, -, hvalue⟩ := hreplays blankImpl (fun _ => rfl) rfl (by decide +kernel)
    (fun _ addr _ j => hblank addr j) 0 0
  have hreplayed : (execute_loop referenceMath [] insts 0 blankImpl 0).map
      (fun r => r.1.coefficient 0 2) = some 2 := by
    rw [hlist]
    decide +kernel
  have hclone : impl'.coefficient 0 2 = 1 := hvalue 2 2 (by decide +kernel) 0
  rw [hexec, Option.map_some, hclone] at hreplayed
  exact absurd hreplayed (by decide)

end Fhetch
