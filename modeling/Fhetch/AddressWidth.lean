/-
Addresses on their way into an instruction (`src/fhetch_api.cpp`, `src/probes.cpp`,
`src/trace_writer.cpp`).

An address is pointer-sized until an instruction is built and 32 bits wide in it.
Both files say above their builders that `TraceWriter::emit` narrows, refusing
what does not fit. The cast stands in the builders, though: by the time `emit`
compares, the operands are 32-bit fields, none of which is above `kMaxAddress`.
So a wider address is recorded as its low half, which another polynomial may own.
-/
import Fhetch.HostPrograms

set_option autoImplicit false

namespace Fhetch

/-! ## The builders' calls -/

/-- A call of an instruction builder, of the recording API or of the probes, with
the addresses as wide as a caller can give them. `spelled` is an `ir` whose other
fields the caller fills in on the spot: the transforms and automorphisms of the
probes, the automorphisms of the API. -/
inductive BuilderCall where
  | pp (op : FhOpcode) (d s1 s2 : UInt64) (q : UInt64)
  | pp_ni (op : FhOpcode) (d s1 s2 : UInt64)
  | ps (op : FhOpcode) (d s1 : UInt64) (imm q : UInt64)
  | ps_idx (op : FhOpcode) (d s1 : UInt64) (imm : UInt64) (modulus_index : UInt32)
  | ps_ni (op : FhOpcode) (d s1 : UInt64) (imm : UInt64)
  | un (op : FhOpcode) (d s1 : UInt64) (q : UInt64)
  | un_ni (op : FhOpcode) (d s1 : UInt64)
  | ntt (op : FhOpcode) (d s1 : UInt64) (q : UInt64) (omega : Option UInt64)
  | spelled (op : FhOpcode) (d s1 : UInt64) (q : UInt64) (omega mask k offset : Option UInt64)
      (logn : Option UInt8)

namespace BuilderCall

def run : BuilderCall → TraceWriter → TraceWriter
  | pp op d s1 s2 q => emit_pp op d.toNat s1.toNat s2.toNat q
  | pp_ni op d s1 s2 => emit_pp_ni op d.toNat s1.toNat s2.toNat
  | ps op d s1 imm q => emit_ps op d.toNat s1.toNat imm q
  | ps_idx op d s1 imm modulus_index => emit_ps_idx op d.toNat s1.toNat imm modulus_index
  | ps_ni op d s1 imm => emit_ps_ni op d.toNat s1.toNat imm
  | un op d s1 q => emit_un op d.toNat s1.toNat q
  | un_ni op d s1 => emit_un_ni op d.toNat s1.toNat
  | ntt op d s1 q omega => emit_ntt op d.toNat s1.toNat q omega
  | spelled op d s1 q omega mask k offset logn =>
    emit_mod { ir op d.toNat s1.toNat with
      omega := omega, mask := mask, k := k, offset := offset, logn := logn } q

/-- The destination and the first source. -/
def dest : BuilderCall → UInt64
  | pp _ d _ _ _ | pp_ni _ d _ _ | ps _ d _ _ _ | ps_idx _ d _ _ _ | ps_ni _ d _ _
  | un _ d _ _ | un_ni _ d _ | ntt _ d _ _ _ | spelled _ d _ _ _ _ _ _ _ => d

def src1 : BuilderCall → UInt64
  | pp _ _ s _ _ | pp_ni _ _ s _ | ps _ _ s _ _ | ps_idx _ _ s _ _ | ps_ni _ _ s _
  | un _ _ s _ | un_ni _ _ s | ntt _ _ s _ _ | spelled _ _ s _ _ _ _ _ _ => s

/-- The second source, which only the forms over two polynomials have. -/
def src2 : BuilderCall → Option UInt64
  | pp _ _ _ s _ | pp_ni _ _ _ s => some s
  | _ => none

def addresses (b : BuilderCall) : List UInt64 := b.dest :: b.src1 :: b.src2.toList

/-- The instruction names the addresses that the call gave. -/
structure NamedBy (b : BuilderCall) (inst : Instruction) : Prop where
  dest : inst.dest.toNat = b.dest.toNat
  src1 : inst.src1.toNat = b.src1.toNat
  src2 : ∀ s ∈ b.src2, inst.src2.toNat = s.toNat

/-- What the call records, if it records anything, names its addresses. -/
def KeepsAddresses (b : BuilderCall) (tw : TraceWriter) : Prop :=
  ∃ recorded : List Instruction, (b.run tw).instructions_ = tw.instructions_ ++ recorded ∧
    ∀ inst ∈ recorded, b.NamedBy inst

/-! ## What a call records -/

/-- The operands of the instruction a call builds: the low halves. -/
structure Narrowed (b : BuilderCall) (inst : Instruction) : Prop where
  dest : inst.dest = UInt32.ofNat b.dest.toNat
  src1 : inst.src1 = UInt32.ofNat b.src1.toNat
  src2 : ∀ s ∈ b.src2, inst.src2 = UInt32.ofNat s.toNat

/-- Registering a modulus records nothing, and recording goes on as it did. -/
theorem emit_mod_records (inst : Instruction) (q : UInt64) (tw : TraceWriter) :
    ∃ index, (emit_mod inst q tw).instructions_ =
      tw.instructions_ ++ if tw.keeps then [{ inst with modulus := index }] else [] := by
  obtain ⟨-, -, -, i, -, hinsts⟩ := emit_mod_gives inst q tw
  exact ⟨some i.toUInt64, hinsts⟩

theorem emit_records (inst : Instruction) (tw : TraceWriter) :
    (tw.emit inst).instructions_ = tw.instructions_ ++ if tw.keeps then [inst] else [] := by
  rw [TraceWriter.emit_eq]
  split
  · rfl
  · rw [List.append_nil]

/-- **A call records one instruction with the low halves of its addresses**, or
nothing while the writer is not keeping what it is given. The width of an address
plays no part in which of the two it is. -/
theorem run_records (b : BuilderCall) (tw : TraceWriter) :
    ∃ inst, b.Narrowed inst ∧
      (b.run tw).instructions_ = tw.instructions_ ++ if tw.keeps then [inst] else [] := by
  have indexed : ∀ inst q, b.run tw = emit_mod inst q tw →
      (∀ index, b.Narrowed { inst with modulus := index }) →
      ∃ inst, b.Narrowed inst ∧
        (b.run tw).instructions_ = tw.instructions_ ++ if tw.keeps then [inst] else [] := by
    intro inst q hrun hnarrowed
    obtain ⟨index, hrecords⟩ := emit_mod_records inst q tw
    exact ⟨_, hnarrowed index, hrun ▸ hrecords⟩
  cases b with
  | pp op d s1 s2 q => exact indexed _ q rfl fun _ => ⟨rfl, rfl, by simp [src2]⟩
  | ps op d s1 imm q => exact indexed _ q rfl fun _ => ⟨rfl, rfl, by simp [src2]⟩
  | un op d s1 q => exact indexed _ q rfl fun _ => ⟨rfl, rfl, by simp [src2]⟩
  | ntt op d s1 q omega => exact indexed _ q rfl fun _ => ⟨rfl, rfl, by simp [src2]⟩
  | spelled op d s1 q omega mask k offset logn =>
    exact indexed _ q rfl fun _ => ⟨rfl, rfl, by simp [src2]⟩
  | pp_ni op d s1 s2 => exact ⟨_, ⟨rfl, rfl, by simp [src2]⟩, emit_records _ tw⟩
  | ps_idx op d s1 imm index => exact ⟨_, ⟨rfl, rfl, by simp [src2]⟩, emit_records _ tw⟩
  | ps_ni op d s1 imm => exact ⟨_, ⟨rfl, rfl, by simp [src2]⟩, emit_records _ tw⟩
  | un_ni op d s1 => exact ⟨_, ⟨rfl, rfl, by simp [src2]⟩, emit_records _ tw⟩

/-! ## When the addresses survive -/

/-- The cast keeps exactly the addresses that fit. -/
theorem toNat_narrowed (a : UInt64) :
    (UInt32.ofNat a.toNat).toNat = a.toNat ↔ a.toNat ≤ kMaxAddress := by
  rw [UInt32.toNat_ofNat']
  unfold kMaxAddress
  omega

/-- So the instruction of a call names its addresses when they all fit. -/
theorem Narrowed.namedBy_iff {b : BuilderCall} {inst : Instruction} (h : b.Narrowed inst) :
    b.NamedBy inst ↔ ∀ a ∈ b.addresses, a.toNat ≤ kMaxAddress := by
  have hsrc2 : (∀ s ∈ b.src2, inst.src2.toNat = s.toNat) ↔ ∀ s ∈ b.src2, s.toNat ≤ kMaxAddress := by
    refine forall₂_congr fun s hs => ?_
    rw [h.src2 s hs, toNat_narrowed]
  have hfields : b.NamedBy inst ↔ inst.dest.toNat = b.dest.toNat ∧ inst.src1.toNat = b.src1.toNat ∧
      ∀ s ∈ b.src2, inst.src2.toNat = s.toNat :=
    ⟨fun h => ⟨h.dest, h.src1, h.src2⟩, fun h => ⟨h.1, h.2.1, h.2.2⟩⟩
  rw [hfields, hsrc2, h.dest, h.src1, toNat_narrowed, toNat_narrowed]
  simp only [addresses, List.forall_mem_cons, Option.mem_toList, Option.mem_def]

/-- **A builder keeps the addresses it is given exactly when they fit** an
instruction's operands, or when the writer keeps nothing. -/
theorem keeps_addresses_iff (b : BuilderCall) (tw : TraceWriter) :
    b.KeepsAddresses tw ↔ tw.keeps = false ∨ ∀ a ∈ b.addresses, a.toNat ≤ kMaxAddress := by
  obtain ⟨inst, hnarrowed, hrecords⟩ := b.run_records tw
  unfold KeepsAddresses
  rw [hrecords]
  simp only [List.append_cancel_left_eq]
  by_cases hkeeps : tw.keeps = true
  · rw [if_pos hkeeps, ← hnarrowed.namedBy_iff]
    simp [hkeeps]
  · rw [if_neg hkeeps]
    simp [hkeeps]

/-- `sr_addp` with the destination 2^32, the first address that does not fit: the
recorded instruction writes to address 0. -/
theorem wide_destination_recorded_as_zero :
    ¬ (pp .FH_SR_ADDP 4294967296 1 2 97).KeepsAddresses ({} : TraceWriter).start_recording := by
  rintro ⟨recorded, hrecorded, hnamed⟩
  have hone : recorded = [{ ir .FH_SR_ADDP 0 1 with src2 := 2, modulus := some 1 }] :=
    hrecorded.symm.trans (by decide)
  have hdest := (hnamed _ (hone ▸ List.mem_singleton_self _)).dest
  exact absurd hdest (by decide)

end BuilderCall

end Fhetch
