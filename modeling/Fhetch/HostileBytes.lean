/-
Decoding bytes nobody vouches for.

Two facts about the decoder of the container. It is safe: each read the source
does not guard is guarded by what was checked before it, on any bytes; the loops
end; what is reserved is bounded by the size of the file. And it takes no file cut
short: a prefix of a container declares the counts of the whole, so its record
stream would have to end where the whole one does.

Both rest on one property of the readers, `Get.Forward`. A record reader never
reads out of bounds, keeps its cursor within the bytes, and reads from a prefix
what it would read from the whole.
-/
import Fhetch.EncodingRoundTrip

set_option autoImplicit false

namespace Fhetch

open Lib

/-! ## The readers go forward -/

theorem get_varint_bounds {bytes : Bytes} {offset v next : ℕ}
    (h : get_varint bytes offset = some (v, next)) :
    v < 2 ^ 64 ∧ offset < next ∧ next ≤ bytes.length :=
  readLeb128_bounds (Nat.two_pow_pos 64) h

theorem get_varint_u32_eq_some {bytes : Bytes} {offset : ℕ} {r : ℕ × ℕ}
    (h : get_varint_u32 bytes offset = some r) : get_varint bytes offset = some r ∧ r.1 < 2 ^ 32 := by
  rw [get_varint_u32] at h
  obtain ⟨a, ha, hr⟩ := Option.bind_eq_some_iff.mp h
  split at hr
  · exact absurd hr (by simp)
  · rename_i hfits
    obtain rfl := Option.some.inj hr
    exact ⟨ha, by omega⟩

theorem orTruncated_eq_ok {α : Type} {x : Option α} {a : α} :
    orTruncated x = .ok a ↔ x = some a := by
  cases x with
  | none => simp [orTruncated]
  | some b => simp [orTruncated]

theorem orTruncated_guarded {α : Type} (x : Option α) : orTruncated x ≠ .error .outOfBounds := by
  cases x with
  | none => simp [orTruncated]
  | some b => simp [orTruncated]

/-- An operand reader goes forward if what it reads with does. -/
theorem forward_field (present : Bool) {get : Bytes → ℕ → Option (ℕ × ℕ)}
    (hbounds : ∀ bytes offset v next, get bytes offset = some (v, next) →
      offset < next ∧ next ≤ bytes.length)
    (hwhole : ∀ pre bytes offset r, pre <+: bytes → get pre offset = some r →
      get bytes offset = some r) :
    Get.Forward Stop.outOfBounds fun bytes offset => get_field present (get bytes) offset where
  guarded bytes offset h := by
    rw [get_field] at h
    split at h
    · exact orTruncated_guarded _ h
    · simp at h
  bounds bytes offset v next hle h := by
    rw [get_field] at h
    split at h
    · obtain ⟨hlt, hend⟩ := hbounds bytes offset v next (orTruncated_eq_ok.mp h)
      exact ⟨hlt.le, hend⟩
    -- an absent field reads nothing
    · obtain ⟨-, rfl⟩ := Prod.mk.inj (Except.ok.inj h)
      exact ⟨Nat.le_refl _, hle⟩
  whole pre bytes offset r hpre h := by
    rw [get_field] at h ⊢
    split
    · rename_i hpresent
      rw [if_pos hpresent] at h
      exact orTruncated_eq_ok.mpr (hwhole pre bytes offset r hpre (orTruncated_eq_ok.mp h))
    · rename_i hpresent
      rw [if_neg hpresent] at h
      exact h

theorem forward_varint (present : Bool) :
    Get.Forward Stop.outOfBounds fun bytes offset => get_field present (get_varint bytes) offset :=
  forward_field present (fun _ _ _ _ h => (get_varint_bounds h).2)
    fun _ _ _ _ hpre h => readLeb128_of_prefixed hpre h

theorem forward_varint_u32 (present : Bool) : Get.Forward Stop.outOfBounds fun bytes offset =>
    get_field present (get_varint_u32 bytes) offset := by
  apply forward_field
  · rintro bytes offset v next h
    exact (get_varint_bounds (get_varint_u32_eq_some h).1).2
  · rintro pre bytes offset r hpre h
    obtain ⟨hread, hfits⟩ := get_varint_u32_eq_some h
    have hwhole : get_varint bytes offset = some r := readLeb128_of_prefixed hpre hread
    rw [get_varint_u32, hwhole, Option.bind_some, if_neg (by omega)]

theorem forward_byte (present : Bool) : Get.Forward Stop.outOfBounds fun bytes offset =>
    get_field present (fun offset => bytes[offset]?.map fun b => (b.toNat, offset + 1)) offset := by
  refine forward_field present ?_ ?_
  · rintro bytes offset v next h
    obtain ⟨b, hb, heq⟩ := Option.map_eq_some_iff.mp h
    obtain ⟨-, rfl⟩ := Prod.mk.inj heq
    exact ⟨Nat.lt_succ_self _, (List.getElem?_eq_some_iff.mp hb).1⟩
  · rintro pre bytes offset r hpre h
    obtain ⟨b, hb, heq⟩ := Option.map_eq_some_iff.mp h
    rw [getElem?_of_prefixed hpre hb, ← heq]
    rfl

/-- The two fixed bytes of a record. -/
def get_head : Get Stop (UInt8 × UInt8) := fun bytes offset =>
  if bytes.length < offset + 2 then .error (.failed .Truncated)
  else do
    let opcode ← unguarded bytes[offset]?
    let flags ← unguarded bytes[offset + 1]?
    .ok ((opcode, flags), offset + 2)

theorem forward_head : Get.Forward Stop.outOfBounds get_head where
  guarded bytes offset h := by
    rw [get_head] at h
    split at h
    · simp at h
    · rename_i hle
      -- two bytes are left, so both reads find one
      rw [List.getElem?_eq_getElem (by omega), List.getElem?_eq_getElem (by omega)] at h
      simp [unguarded, bind, Except.bind] at h
  bounds bytes offset a next hle h := by
    rw [get_head] at h
    split at h
    · simp at h
    · rename_i hlong
      rw [List.getElem?_eq_getElem (by omega), List.getElem?_eq_getElem (by omega)] at h
      obtain ⟨-, rfl⟩ := Prod.mk.inj (Except.ok.inj h)
      omega
  whole pre bytes offset r hpre h := by
    have hlen := hpre.length_le
    rw [get_head] at h ⊢
    split at h
    · simp at h
    · rename_i hlong
      have h₀ := List.getElem?_eq_getElem (show offset < pre.length by omega)
      have h₁ := List.getElem?_eq_getElem (show offset + 1 < pre.length by omega)
      rw [h₀, h₁] at h
      rw [if_neg (by omega), getElem?_of_prefixed hpre h₀, getElem?_of_prefixed hpre h₁]
      exact h

/-- A record is its head, and the operands its head announces. -/
theorem get_record_eq : get_record = get_head.bind fun head =>
    let r : FhetchRecord := { opcode := head.1, flags := head.2 }
    Get.bind (fun bytes offset => get_field (r.has FH_FLAG_HAS_LOGN)
      (fun offset => bytes[offset]?.map fun b => (b.toNat, offset + 1)) offset) fun logn =>
    Get.bind (fun bytes offset => get_field r.hasOperands (get_varint_u32 bytes) offset) fun dst =>
    Get.bind (fun bytes offset => get_field r.hasOperands (get_varint_u32 bytes) offset) fun src1 =>
    Get.bind (fun bytes offset => get_field (r.has FH_FLAG_HAS_SRC2) (get_varint_u32 bytes) offset)
      fun src2 =>
    Get.bind (fun bytes offset => get_field (r.has FH_FLAG_HAS_MOD) (get_varint bytes) offset)
      fun modulus =>
    Get.bind (fun bytes offset => get_field (r.has FH_FLAG_HAS_IMM) (get_varint bytes) offset)
      fun imm =>
    Get.bind (fun bytes offset => get_field (r.has FH_FLAG_HAS_AUX) (get_varint bytes) offset)
      fun aux => fun _ offset => .ok ({ r with
        logn := UInt8.ofNat logn, dst := UInt32.ofNat dst, src1 := UInt32.ofNat src1,
        src2 := UInt32.ofNat src2, modulus := UInt64.ofNat modulus, imm := UInt64.ofNat imm,
        aux := UInt64.ofNat aux }, offset) := by
  -- the head as one step, the fields as they are
  funext bytes offset
  rw [get_record, Get.bind, get_head]
  split
  · rfl
  · cases bytes[offset]? with
    | none => rfl
    | some opcode =>
      cases bytes[offset + 1]? with
      | none => rfl
      | some flags => rfl

theorem forward_record : Get.Forward Stop.outOfBounds get_record := by
  rw [get_record_eq]
  apply forward_head.bind
  intro head
  apply (forward_byte _).bind
  intro logn
  apply (forward_varint_u32 _).bind
  intro dst
  apply (forward_varint_u32 _).bind
  intro src1
  apply (forward_varint_u32 _).bind
  intro src2
  apply (forward_varint _).bind
  intro modulus
  apply (forward_varint _).bind
  intro imm
  apply (forward_varint _).bind
  intro aux
  exact Get.forward_pure _

/-! ## No read out of bounds -/

section Guarded

variable {α β : Type}

theorem bind_guarded {x : Except Stop α} {f : α → Except Stop β} (hx : x ≠ .error .outOfBounds)
    (hf : ∀ a, x = .ok a → f a ≠ .error .outOfBounds) : x >>= f ≠ .error .outOfBounds := by
  cases x with
  | error e => exact fun h => hx (congrArg Except.error (Except.error.inj h))
  | ok a => exact hf a rfl

theorem unguarded_guarded {x : Option α} (h : x.isSome) : unguarded x ≠ .error .outOfBounds := by
  obtain ⟨a, rfl⟩ := Option.isSome_iff_exists.mp h
  simp [unguarded]

end Guarded

section Payload

variable {md : Bytes} {length payload : ℕ} (h : payload + length ≤ md.length)

include h

theorem string_payload_guarded : string_payload md length payload ≠ .error .outOfBounds := by
  rw [string_payload, if_pos h]
  simp

theorem numeric_payload_guarded : numeric_payload md length payload ≠ .error .outOfBounds := by
  rw [numeric_payload]
  split
  · rename_i h8
    obtain ⟨v, hv⟩ := readLe_of_le (k := 8) (by omega : payload + 8 ≤ md.length)
    exact unguarded_guarded (by rw [hv]; rfl)
  · simp

/-- An entry reads its payload, which was found to be in the section. -/
theorem parse_entry_guarded (tag : ℕ) (st : MetaState) :
    parse_entry md tag length payload st ≠ .error .outOfBounds := by
  have hstring : ∀ set : Str → MetaState, (string_payload md length payload >>= fun text =>
      (.ok (set text) : Except Stop MetaState)) ≠ .error .outOfBounds := fun set =>
    bind_guarded (string_payload_guarded h) fun text _ => by simp
  have hnumeric : ∀ set : ℕ → MetaState, (numeric_payload md length payload >>= fun v =>
      (.ok (set v) : Except Stop MetaState)) ≠ .error .outOfBounds := fun set =>
    bind_guarded (numeric_payload_guarded h) fun v _ => by simp
  rw [parse_entry]
  split
  all_goals first
    | exact hstring _
    | exact hnumeric _
    | simp

end Payload

/-- The walk over the entries reads their heads and payloads, each checked first. -/
theorem parse_entries_guarded (md : Bytes) : ∀ (fuel offset : ℕ) (st : MetaState),
    parse_entries md fuel offset st ≠ .error .outOfBounds := by
  intro fuel
  induction fuel with
  | zero => exact fun _ _ => by simp [parse_entries]
  | succ fuel ih =>
    intro offset st
    rw [parse_entries]
    split
    · rename_i hroom
      obtain ⟨tag, htag⟩ := readLe_of_le (k := 2) (by omega : offset + 2 ≤ md.length)
      obtain ⟨length, hlength⟩ := readLe_of_le (k := 4) (by omega : offset + 4 + 4 ≤ md.length)
      apply bind_guarded (unguarded_guarded (by rw [htag]; rfl))
      rintro tag -
      apply bind_guarded (unguarded_guarded (by rw [hlength]; rfl))
      rintro length -
      -- a length past the end is refused before the payload is looked at
      show (if _ then _ else _) ≠ _
      split
      · simp
      · rename_i hfits
        exact bind_guarded (parse_entry_guarded (Nat.not_lt.mp hfits) tag st) fun st' _ => ih _ st'
    · simp

/-- **The walk ends within the length of the section**: more turns change nothing. -/
theorem parse_entries_fuel (md : Bytes) : ∀ (fuel fuel' offset : ℕ) (st : MetaState),
    md.length ≤ offset + fuel → md.length ≤ offset + fuel' →
    parse_entries md fuel offset st = parse_entries md fuel' offset st := by
  intro fuel
  induction fuel with
  | zero =>
    intro fuel' offset st h _
    -- either fuel ends past the last entry
    cases fuel' with
    | zero => rfl
    | succ fuel' => rw [parse_entries, parse_entries, if_neg (by omega)]
  | succ fuel ih =>
    intro fuel' offset st h h'
    cases fuel' with
    | zero => rw [parse_entries, parse_entries, if_neg (by omega)]
    | succ fuel' =>
      rw [parse_entries, parse_entries]
      split
      · -- an entry moves the offset by its head at least
        have hnext : ∀ length st, parse_entries md fuel (offset + 8 + fhex_align_up length) st =
            parse_entries md fuel' (offset + 8 + fhex_align_up length) st := fun length st =>
          ih fuel' _ st (by omega) (by omega)
        simp only [hnext]
      · rfl

theorem get_table_of_le {bytes : Bytes} : ∀ (count offset : ℕ),
    offset + count * 8 ≤ bytes.length →
    ∃ table, get_table bytes count offset = .ok table ∧ table.length = count := by
  intro count
  induction count with
  | zero => exact fun offset _ => ⟨[], rfl, rfl⟩
  | succ count ih =>
    intro offset h
    obtain ⟨q, hq⟩ := readLe_of_le (k := 8) (by omega : offset + 8 ≤ bytes.length)
    obtain ⟨table, htable, hlen⟩ := ih (offset + 8) (by omega)
    refine ⟨UInt64.ofNat q :: table, ?_, by rw [List.length_cons, hlen]⟩
    rw [get_table, hq, htable]
    rfl

theorem get_records_guarded (bytes : Bytes) : ∀ (count offset : ℕ),
    get_records bytes count offset ≠ .error .outOfBounds := by
  intro count
  induction count with
  | zero => exact fun _ => by simp [get_records]
  | succ count ih =>
    intro offset
    rw [get_records]
    apply bind_guarded (forward_record.guarded bytes offset)
    rintro ⟨r, next⟩ -
    exact bind_guarded (ih next) fun rest _ => by simp

theorem get_records_length {bytes : Bytes} : ∀ {count offset : ℕ} {records : List FhetchRecord},
    get_records bytes count offset = .ok records → records.length = count := by
  intro count
  induction count with
  | zero =>
    intro offset records h
    obtain rfl := Except.ok.inj h
    rfl
  | succ count ih =>
    intro offset records h
    rw [get_records] at h
    -- a record that fails fails them all
    cases hr : get_record bytes offset with
    | error e =>
      rw [hr] at h
      simp [bind, Except.bind] at h
    | ok r =>
      rw [hr] at h
      cases hrest : get_records bytes count r.2 with
      | error e => simp [bind, Except.bind, hrest] at h
      | ok rest =>
        simp only [bind, Except.bind, hrest] at h
        obtain rfl := Except.ok.inj h
        rw [List.length_cons, ih hrest]

/-! ## The sections -/

/-- What the prologue holds, field by field. -/
theorem get_prologue_ok {bytes : Bytes} {p : FhexPrologue} (h : get_prologue bytes = .ok p) :
    kFhexPrologueBytes ≤ bytes.length ∧ readLe 4 bytes 8 = some p.metadata_bytes ∧
      readLe 4 bytes 12 = some p.modulus_count ∧ readLe 8 bytes 16 = some p.instruction_count := by
  rw [get_prologue] at h
  split at h
  · simp at h
  rename_i hlong
  rw [kFhexPrologueBytes, Nat.not_lt] at hlong
  split at h
  · simp at h
  -- the size was checked, so every scalar of the prologue is there
  obtain ⟨version, hversion⟩ := readLe_of_le (k := 2) (by omega : 4 + 2 ≤ bytes.length)
  obtain ⟨metadata_bytes, hmetadata⟩ := readLe_of_le (k := 4) (by omega : 8 + 4 ≤ bytes.length)
  obtain ⟨modulus_count, htable⟩ := readLe_of_le (k := 4) (by omega : 12 + 4 ≤ bytes.length)
  obtain ⟨instruction_count, hrecords⟩ := readLe_of_le (k := 8) (by omega : 16 + 8 ≤ bytes.length)
  rw [hversion, hmetadata, htable, hrecords] at h
  simp only [unguarded, bind, Except.bind] at h
  split at h
  · simp at h
  · obtain rfl := Except.ok.inj h
    exact ⟨hlong, hmetadata, htable, hrecords⟩

theorem get_prologue_guarded (bytes : Bytes) : get_prologue bytes ≠ .error .outOfBounds := by
  rw [get_prologue]
  split
  · simp
  rename_i hlong
  rw [kFhexPrologueBytes, Nat.not_lt] at hlong
  split
  · simp
  obtain ⟨version, hversion⟩ := readLe_of_le (k := 2) (by omega : 4 + 2 ≤ bytes.length)
  obtain ⟨metadata_bytes, hmetadata⟩ := readLe_of_le (k := 4) (by omega : 8 + 4 ≤ bytes.length)
  obtain ⟨modulus_count, htable⟩ := readLe_of_le (k := 4) (by omega : 12 + 4 ≤ bytes.length)
  obtain ⟨instruction_count, hrecords⟩ := readLe_of_le (k := 8) (by omega : 16 + 8 ≤ bytes.length)
  rw [hversion, hmetadata, htable, hrecords]
  simp only [unguarded, bind, Except.bind]
  split <;> simp

/-- The sections a prologue declares lie one behind the other within the bytes,
and each count is one the bytes can hold. -/
structure FhexPrologue.Within (p : FhexPrologue) (size : ℕ) : Prop where
  aligned : p.metadata_bytes % kFhexAlign = 0
  metadata : kFhexPrologueBytes + p.metadata_bytes ≤ size
  table : kFhexPrologueBytes + p.metadata_bytes + p.modulus_count * 8 ≤ size
  records : p.instruction_count * 2 ≤ size -
    (kFhexPrologueBytes + p.metadata_bytes + p.modulus_count * 8)
  modulus_count : p.modulus_count ≤ size / 8
  instruction_count : p.instruction_count ≤ size / 2

theorem check_sections_ok_iff {size : ℕ} {p : FhexPrologue} (hsize : kFhexPrologueBytes ≤ size) :
    check_sections size p = .ok () ↔ p.Within size := by
  constructor
  · intro h
    simp only [check_sections] at h
    split at h
    · simp at h
    rename_i haligned
    split at h
    · simp at h
    split at h
    · simp at h
    split at h
    · simp at h
    rw [not_not] at haligned
    exact ⟨haligned, by omega, by omega, by omega, by omega, by omega⟩
  · intro h
    have htable := h.table
    have hrecords := h.records
    simp only [check_sections]
    rw [if_neg (not_not.mpr h.aligned), if_neg (by omega), if_neg (by omega), if_neg (by omega)]

/-- The same checks, in the arithmetic of `size_t`. -/
def check_sections64 (size : UInt64) (metadata_bytes modulus_count : UInt32)
    (instruction_count : UInt64) : Except Stop Unit :=
  let meta_offset : UInt64 := 24
  if metadata_bytes % 8 ≠ 0 then .error (.failed .Malformed)
  else if size - meta_offset < metadata_bytes.toUInt64 then .error (.failed .Truncated)
  else
    let modulus_offset := meta_offset + metadata_bytes.toUInt64
    if size - modulus_offset < modulus_count.toUInt64 * 8 then .error (.failed .Truncated)
    else
      let record_offset := modulus_offset + modulus_count.toUInt64 * 8
      if (size - record_offset) / 2 < instruction_count then .error (.failed .Truncated)
      else .ok ()

/-- **The bounds do not wrap.** -/
theorem check_sections64_eq {size : UInt64} (hsize : kFhexPrologueBytes ≤ size.toNat)
    (metadata_bytes modulus_count : UInt32) (instruction_count : UInt64) :
    check_sections64 size metadata_bytes modulus_count instruction_count =
      check_sections size.toNat
        ⟨metadata_bytes.toNat, modulus_count.toNat, instruction_count.toNat⟩ := by
  rw [kFhexPrologueBytes] at hsize
  have hcount := modulus_count.toNat_lt
  have hs := size.toNat_lt
  have hmodulo : (metadata_bytes % 8).toNat = metadata_bytes.toNat % 8 := UInt32.toNat_mod _ _
  have hbody : (size - 24).toNat = size.toNat - 24 :=
    UInt64.toNat_sub_of_le size 24 (UInt64.le_iff_toNat_le.mpr hsize)
  have htable : (modulus_count.toUInt64 * 8).toNat = modulus_count.toNat * 8 := by
    rw [UInt64.toNat_mul, UInt32.toNat_toUInt64]
    exact Nat.mod_eq_of_lt (by show _ * 8 < _; omega)
  have h₁ : metadata_bytes % 8 ≠ 0 ↔ metadata_bytes.toNat % 8 ≠ 0 := by
    rw [Ne, ← UInt32.toNat_inj, hmodulo]
    rfl
  simp only [check_sections64, check_sections]
  refine if_ctx_congr h₁ (fun _ => rfl) fun _ => ?_
  have h₂ : size - 24 < metadata_bytes.toUInt64 ↔ size.toNat - 24 < metadata_bytes.toNat := by
    rw [UInt64.lt_iff_toNat_lt, hbody, UInt32.toNat_toUInt64]
  refine if_ctx_congr h₂ (fun _ => rfl) fun hmd => ?_
  rw [kFhexPrologueBytes] at hmd
  -- each sum is bounded by the size once its check has passed
  have hoffset : (24 + metadata_bytes.toUInt64).toNat = 24 + metadata_bytes.toNat := by
    rw [UInt64.toNat_add, UInt32.toNat_toUInt64]
    exact Nat.mod_eq_of_lt (by show 24 + _ < _; omega)
  have hrest : (size - (24 + metadata_bytes.toUInt64)).toNat =
      size.toNat - (24 + metadata_bytes.toNat) := by
    rw [UInt64.toNat_sub_of_le, hoffset]
    rw [UInt64.le_iff_toNat_le, hoffset]
    omega
  have h₃ : size - (24 + metadata_bytes.toUInt64) < modulus_count.toUInt64 * 8 ↔
      size.toNat - (24 + metadata_bytes.toNat) < modulus_count.toNat * 8 := by
    rw [UInt64.lt_iff_toNat_lt, hrest, htable]
  refine if_ctx_congr h₃ (fun _ => rfl) fun hmc => ?_
  rw [kFhexPrologueBytes] at hmc
  have hrecord : (24 + metadata_bytes.toUInt64 + modulus_count.toUInt64 * 8).toNat =
      24 + metadata_bytes.toNat + modulus_count.toNat * 8 := by
    rw [UInt64.toNat_add, hoffset, htable]
    exact Nat.mod_eq_of_lt (by omega)
  have hstream : ((size - (24 + metadata_bytes.toUInt64 + modulus_count.toUInt64 * 8)) / 2).toNat =
      (size.toNat - (24 + metadata_bytes.toNat + modulus_count.toNat * 8)) / 2 := by
    rw [UInt64.toNat_div, UInt64.toNat_sub_of_le, hrecord]
    · rfl
    · rw [UInt64.le_iff_toNat_le, hrecord]
      omega
  have h₄ : (size - (24 + metadata_bytes.toUInt64 + modulus_count.toUInt64 * 8)) / 2 <
        instruction_count ↔
      (size.toNat - (24 + metadata_bytes.toNat + modulus_count.toNat * 8)) / 2 <
        instruction_count.toNat := by
    rw [UInt64.lt_iff_toNat_lt, hstream]
  exact if_ctx_congr h₄ (fun _ => rfl) fun _ => rfl

/-! ## Decoding is safe -/

/-- What a decoder owes to bytes nobody vouches for. -/
structure SafelyDecoded (bytes : Bytes) : Prop where
  /-- The walk over the metadata ends within its length. -/
  terminates : ∀ md fuel, md.length ≤ fuel →
    parse_entries md fuel 0 ({}, {}) = parse_metadata md
  in_bounds : decode_fhetch_program bytes ≠ .error .outOfBounds
  /-- Past the checks, the sections are where the reads look for them. -/
  within : ∀ p, get_prologue bytes = .ok p → check_sections bytes.length p = .ok () →
    p.Within bytes.length ∧
      ((bytes.drop kFhexPrologueBytes).take p.metadata_bytes).length = p.metadata_bytes
  /-- The checks in machine arithmetic are the checks. -/
  no_wrap : ∀ p, get_prologue bytes = .ok p → bytes.length < 2 ^ 64 →
    check_sections64 (UInt64.ofNat bytes.length) (UInt32.ofNat p.metadata_bytes)
      (UInt32.ofNat p.modulus_count) (UInt64.ofNat p.instruction_count) =
        check_sections bytes.length p
  /-- A reason, or a program with a revision and the counts the prologue declares. -/
  outcome : (∃ reason, decode_fhetch_program bytes = .error (.failed reason)) ∨
    ∃ program, decode_fhetch_program bytes = .ok program ∧ program.spec.valid = true ∧
      ∃ p, get_prologue bytes = .ok p ∧ check_sections bytes.length p = .ok () ∧
        program.modulus_table.length = p.modulus_count ∧
        program.records.length = p.instruction_count

/-- What a decode that gives a program has been through. -/
theorem decode_ok {bytes : Bytes} {program : FhexProgram}
    (h : decode_fhetch_program bytes = .ok program) :
    program.spec.valid = true ∧ ∃ p, get_prologue bytes = .ok p ∧
      check_sections bytes.length p = .ok () ∧
      get_table bytes p.modulus_count (kFhexPrologueBytes + p.metadata_bytes) =
        .ok program.modulus_table ∧
      get_records bytes p.instruction_count
        (kFhexPrologueBytes + p.metadata_bytes + p.modulus_count * 8) = .ok program.records := by
  rw [decode_fhetch_program] at h
  cases hp : get_prologue bytes with
  | error e => simp [hp, bind, Except.bind] at h
  | ok p =>
    cases hs : check_sections bytes.length p with
    | error e => simp [hp, hs, bind, Except.bind] at h
    | ok u =>
      cases hm : parse_metadata ((bytes.drop kFhexPrologueBytes).take p.metadata_bytes) with
      | error e => simp [hp, hs, hm, bind, Except.bind] at h
      | ok st =>
        simp only [hp, hs, hm, bind, Except.bind] at h
        -- the specification is checked before the sections behind the metadata are read
        split at h
        · simp at h
        · rename_i hvalid
          rw [Bool.not_eq_true', Bool.not_eq_false] at hvalid
          cases ht : get_table bytes p.modulus_count (kFhexPrologueBytes + p.metadata_bytes) with
          | error e => simp [ht] at h
          | ok table =>
            cases hr : get_records bytes p.instruction_count
              (kFhexPrologueBytes + p.metadata_bytes + p.modulus_count * 8) with
            | error e => simp [ht, hr] at h
            | ok records =>
              simp only [ht, hr] at h
              obtain rfl := Except.ok.inj h
              exact ⟨hvalid, p, rfl, hs, ht, hr⟩

theorem decode_guarded (bytes : Bytes) : decode_fhetch_program bytes ≠ .error .outOfBounds := by
  rw [decode_fhetch_program]
  apply bind_guarded (get_prologue_guarded bytes)
  intro p hp
  apply bind_guarded
  · simp only [check_sections]
    split
    · simp
    split
    · simp
    split
    · simp
    split <;> simp
  rintro ⟨⟩ hs
  -- from here on the sections are known to lie inside the bytes
  have hwithin := (check_sections_ok_iff (get_prologue_ok hp).1).mp hs
  apply bind_guarded (parse_entries_guarded _ _ _ _)
  rintro ⟨metadata, spec⟩ -
  show (if _ then _ else _) ≠ _
  split
  · simp
  · obtain ⟨table, htable, -⟩ := get_table_of_le p.modulus_count _ hwithin.table
    rw [htable]
    exact bind_guarded (by simp) fun table _ =>
      bind_guarded (get_records_guarded bytes _ _) fun records _ => by simp

/-- **Any bytes are safe to decode.** -/
theorem decode_fhetch_program_safe (bytes : Bytes) : SafelyDecoded bytes where
  terminates md fuel h := parse_entries_fuel md fuel md.length 0 _ (by omega) (by omega)
  in_bounds := decode_guarded bytes
  within p hp hs := by
    have hwithin := (check_sections_ok_iff (get_prologue_ok hp).1).mp hs
    refine ⟨hwithin, ?_⟩
    have := hwithin.metadata
    rw [List.length_take, List.length_drop]
    omega
  no_wrap p hp hsize := by
    -- counts are read in the width of their fields
    obtain ⟨hlong, hmd, hmc, hic⟩ := get_prologue_ok hp
    have hmd' : (UInt32.ofNat p.metadata_bytes).toNat = p.metadata_bytes :=
      Nat.mod_eq_of_lt (readLe_lt hmd)
    have hmc' : (UInt32.ofNat p.modulus_count).toNat = p.modulus_count :=
      Nat.mod_eq_of_lt (readLe_lt hmc)
    have hic' : (UInt64.ofNat p.instruction_count).toNat = p.instruction_count :=
      Nat.mod_eq_of_lt (readLe_lt hic)
    have hsize' : (UInt64.ofNat bytes.length).toNat = bytes.length := Nat.mod_eq_of_lt hsize
    rw [check_sections64_eq (by rwa [hsize']), hsize', hmd', hmc', hic']
  outcome := by
    cases h : decode_fhetch_program bytes with
    | error stop =>
      cases stop with
      | failed reason => exact .inl ⟨reason, rfl⟩
      | outOfBounds => exact absurd h (decode_guarded bytes)
    | ok program =>
      obtain ⟨hvalid, p, hp, hs, htable, hrecords⟩ := decode_ok h
      have hwithin := (check_sections_ok_iff (get_prologue_ok hp).1).mp hs
      obtain ⟨table, htable', hlen⟩ := get_table_of_le p.modulus_count _ hwithin.table
      rw [htable'] at htable
      obtain rfl := Except.ok.inj htable
      exact .inr ⟨program, rfl, hvalid, p, hp, hs, hlen, get_records_length hrecords⟩

/-! ## A container cut short -/

/-- The record that stands for the bytes of any record: what is not written is
zero. -/
def FhetchRecord.canonical (r : FhetchRecord) : FhetchRecord :=
  { r with
    logn := if r.has FH_FLAG_HAS_LOGN then r.logn else 0
    dst := if r.hasOperands then r.dst else 0
    src1 := if r.hasOperands then r.src1 else 0
    src2 := if r.has FH_FLAG_HAS_SRC2 then r.src2 else 0
    modulus := if r.has FH_FLAG_HAS_MOD then r.modulus else 0
    imm := if r.has FH_FLAG_HAS_IMM then r.imm else 0
    aux := if r.has FH_FLAG_HAS_AUX then r.aux else 0 }

theorem FhetchRecord.canonical_has (r : FhetchRecord) (flag : UInt8) :
    r.canonical.has flag = r.has flag := rfl

theorem FhetchRecord.canonical_hasOperands (r : FhetchRecord) :
    r.canonical.hasOperands = r.hasOperands := rfl

theorem FhetchRecord.canonical_canonical (r : FhetchRecord) : r.canonical.Canonical := by
  constructor <;> intro h
  all_goals simp only [canonical_has, canonical_hasOperands] at h
  all_goals simp only [canonical, h, Bool.false_eq_true, if_false]

theorem recordBytes_canonical (r : FhetchRecord) : recordBytes r.canonical = recordBytes r := by
  have h32 : ∀ (present : Bool) (v : UInt32), fieldBytes present (if present then v else 0).toNat =
      fieldBytes present v.toNat := fun present v => by cases present <;> rfl
  have h64 : ∀ (present : Bool) (v : UInt64), fieldBytes present (if present then v else 0).toNat =
      fieldBytes present v.toNat := fun present v => by cases present <;> rfl
  have hlogn : (if r.canonical.has FH_FLAG_HAS_LOGN then [r.canonical.logn] else []) =
      if r.has FH_FLAG_HAS_LOGN then [r.logn] else [] := by
    rw [FhetchRecord.canonical_has]
    by_cases h : r.has FH_FLAG_HAS_LOGN = true
    · simp only [FhetchRecord.canonical, h, if_true]
    · rw [if_neg h, if_neg h]
  rw [recordBytes, recordBytes, hlogn]
  simp only [FhetchRecord.canonical_has, FhetchRecord.canonical_hasOperands]
  simp only [FhetchRecord.canonical, h32, h64]

/-- **A record's bytes are consumed whole**, also those of a record with operands
it does not announce. -/
theorem get_record_consumes {bytes rest : Bytes} {offset : ℕ} (r : FhetchRecord)
    (h : bytes.drop offset = recordBytes r ++ rest) :
    get_record bytes offset = .ok (r.canonical, offset + (recordBytes r).length) := by
  rw [← recordBytes_canonical] at h ⊢
  exact get_record_spec r.canonical_canonical h

/-- A stream read from a prefix ends where the whole one does. -/
theorem get_records_reach {pre bytes : Bytes} (hpre : pre <+: bytes) (records : List FhetchRecord) :
    ∀ {offset : ℕ} {read : List FhetchRecord}, offset ≤ pre.length →
      bytes.drop offset = records.flatMap recordBytes →
      get_records pre records.length offset = .ok read → bytes.length ≤ pre.length := by
  induction records with
  | nil =>
    intro offset read hle hdrop _
    rw [List.flatMap_nil, List.drop_eq_nil_iff] at hdrop
    exact hdrop.trans hle
  | cons r records ih =>
    intro offset read hle hdrop hread
    rw [List.flatMap_cons] at hdrop
    rw [List.length_cons, get_records] at hread
    cases hr : get_record pre offset with
    | error e => simp [hr, bind, Except.bind] at hread
    | ok found =>
      cases hrest : get_records pre records.length found.2 with
      | error e => simp [hr, hrest, bind, Except.bind] at hread
      | ok rest =>
        -- the whole stream has the cursor at the same place behind this record
        have hwhole := forward_record.whole pre bytes offset found hpre hr
        rw [get_record_consumes r hdrop] at hwhole
        have hnext : found.2 = offset + (recordBytes r).length :=
          congrArg Prod.snd (Except.ok.inj hwhole).symm
        have hbound := (forward_record.bounds pre offset found.1 found.2 hle hr).2
        exact ih hbound (by rw [hnext]; exact drop_add hdrop) hrest

/-- A prefix that has a prologue has the one of the whole. -/
theorem readLe_of_prefixed {k offset v : ℕ} {pre bytes : Bytes} (hpre : pre <+: bytes)
    (h : readLe k pre offset = some v) : readLe k bytes offset = some v := by
  obtain ⟨rest, rfl⟩ := hpre
  rw [readLe] at h ⊢
  split at h
  · rename_i hle
    rw [if_pos (by rw [List.length_append]; omega), List.drop_append_of_le_length (by omega),
      List.take_append_of_le_length (by rw [List.length_drop]; omega)]
    exact h
  · exact absurd h (by simp)

/-- **No container cut short decodes.** -/
theorem truncated_refused (metadata : TraceMetadata) (table : List UInt64)
    (records : List FhetchRecord) (spec : FhetchSpec) (bytes pre : Bytes)
    (henc : encode_fhetch_program metadata table records spec = some bytes)
    (hmd : (build_metadata metadata spec).length < 2 ^ 32) (htable : table.length < 2 ^ 32)
    (hcount : records.length < 2 ^ 64) (hpre : pre <+: bytes) (hstrict : pre ≠ bytes) :
    ∃ reason, decode_fhetch_program pre = .error (.failed reason) := by
  have hspec : spec.valid = true := by
    by_contra h
    rw [Bool.not_eq_true] at h
    simp [encode_fhetch_program, h] at henc
  rw [encode_fhetch_program_eq metadata table records hspec] at henc
  obtain ⟨hprologue, hbody⟩ := get_prologue_spec
    (p := ⟨(build_metadata metadata spec).length, table.length, records.length⟩)
    hmd htable hcount (Option.some.inj henc).symm
  have hstream := drop_add (drop_add hbody)
  rw [table_length] at hstream
  obtain ⟨-, hmd₁, htable₁, hcount₁⟩ := get_prologue_ok hprologue
  cases h : decode_fhetch_program pre with
  | error stop =>
    cases stop with
    | failed reason => exact ⟨reason, rfl⟩
    | outOfBounds => exact absurd h (decode_guarded pre)
  | ok program =>
    exfalso
    obtain ⟨-, p, hp, hs, -, hread⟩ := decode_ok h
    -- the prefix declares what the whole does
    obtain ⟨hlong, hmd₂, htable₂, hcount₂⟩ := get_prologue_ok hp
    have hmd' := Option.some.inj ((readLe_of_prefixed hpre hmd₂).symm.trans hmd₁)
    have htable' := Option.some.inj ((readLe_of_prefixed hpre htable₂).symm.trans htable₁)
    have hcount' := Option.some.inj ((readLe_of_prefixed hpre hcount₂).symm.trans hcount₁)
    have hwithin := (check_sections_ok_iff hlong).mp hs
    have hroom := hwithin.table
    simp only [hmd', htable', hcount'] at hread hroom
    have hreach := get_records_reach hpre records hroom hstream hread
    exact hstrict (hpre.eq_of_length_le hreach)

/-- One addition, without its last byte. -/
theorem truncated_refused_addition :
    ∃ bytes, encode_fhetch_program {} [97] [{ opcode := 1, flags := 9, dst := 300 }] kFhetchSpec =
        some bytes ∧
      ∃ reason, decode_fhetch_program bytes.dropLast = .error (.failed reason) :=
  ⟨_, rfl, truncated_refused {} [97] [{ opcode := 1, flags := 9, dst := 300 }] kFhetchSpec _ _ rfl
    (by decide) (by decide) (by decide) (List.dropLast_prefix _) (by decide)⟩

end Fhetch
