/-
Metadata entries of a later toolchain (`parse_metadata`, `decode_fhetch_program` of
`src/fhetch_encoding.cpp`).

A reader skips the entries whose tags it does not know. An entry is skipped by its padded
length, so what its payload looks like does not matter; and the sections behind the
metadata are found from the length that the prologue declares. The readers of those
sections only look ahead: where their bytes stand makes no difference to them.
-/
import Fhetch.HostileBytes

set_option autoImplicit false

namespace Fhetch

open Lib

/-! ## The readers look ahead -/

theorem get_varint_behind (pre bytes : Bytes) (offset : ℕ) :
    get_varint (pre ++ bytes) (pre.length + offset) =
      (get_varint bytes offset).map fun r => (r.1, pre.length + r.2) :=
  readLeb128_behind 64 pre bytes kFhexMaxVarintBytes 0 offset 0

theorem get_varint_u32_behind (pre bytes : Bytes) (offset : ℕ) :
    get_varint_u32 (pre ++ bytes) (pre.length + offset) =
      (get_varint_u32 bytes offset).map fun r => (r.1, pre.length + r.2) := by
  rw [get_varint_u32, get_varint_u32, get_varint_behind]
  cases get_varint bytes offset with
  | none => rfl
  | some r =>
    simp only [Option.map_some, Option.bind_some]
    split <;> rfl

/-- An operand reader looks ahead if what it reads with does. -/
theorem looksAhead_field (present : Bool) {get : Bytes → ℕ → Option (ℕ × ℕ)}
    (hget : ∀ pre bytes offset, get (pre ++ bytes) (pre.length + offset) =
      (get bytes offset).map fun r => (r.1, pre.length + r.2)) :
    Get.LooksAhead fun bytes offset => get_field present (get bytes) offset := by
  intro pre bytes offset
  simp only [get_field, hget]
  split
  · cases get bytes offset <;> rfl
  · rfl

theorem looksAhead_byte (present : Bool) : Get.LooksAhead fun bytes offset =>
    get_field present (fun offset => bytes[offset]?.map fun b => (b.toNat, offset + 1)) offset := by
  apply looksAhead_field
  intro pre bytes offset
  rw [getElem?_behind]
  cases bytes[offset]? <;> rfl

theorem looksAhead_head : get_head.LooksAhead := by
  intro pre bytes offset
  rw [get_head, get_head, Nat.add_assoc, getElem?_behind, Nat.add_assoc, getElem?_behind,
    List.length_append]
  simp only [Nat.add_lt_add_iff_left]
  split
  · rfl
  · cases bytes[offset]? with
    | none => rfl
    | some opcode => cases bytes[offset + 1]? <;> rfl

theorem looksAhead_record : Get.LooksAhead get_record := by
  rw [get_record_eq]
  apply looksAhead_head.bind
  intro head
  apply (looksAhead_byte _).bind
  intro logn
  apply (looksAhead_field _ get_varint_u32_behind).bind
  intro dst
  apply (looksAhead_field _ get_varint_u32_behind).bind
  intro src1
  apply (looksAhead_field _ get_varint_u32_behind).bind
  intro src2
  apply (looksAhead_field _ get_varint_behind).bind
  intro modulus
  apply (looksAhead_field _ get_varint_behind).bind
  intro imm
  apply (looksAhead_field _ get_varint_behind).bind
  intro aux
  exact Get.looksAhead_pure _

theorem get_records_behind (pre bytes : Bytes) : ∀ count offset,
    get_records (pre ++ bytes) count (pre.length + offset) = get_records bytes count offset := by
  intro count
  induction count with
  | zero => exact fun _ => rfl
  | succ count ih =>
    intro offset
    have hrecord : get_record (pre ++ bytes) (pre.length + offset) = _ :=
      looksAhead_record pre bytes offset
    rw [get_records, get_records, hrecord]
    cases get_record bytes offset with
    | error e => simp only [Except.map, bind, Except.bind]
    | ok r => simp only [Except.map, bind, Except.bind, ih]

theorem get_table_behind (pre bytes : Bytes) : ∀ count offset,
    get_table (pre ++ bytes) count (pre.length + offset) = get_table bytes count offset := by
  intro count
  induction count with
  | zero => exact fun _ => rfl
  | succ count ih =>
    intro offset
    rw [get_table, get_table, readLe_behind, Nat.add_assoc, ih]

/-! ## A container with any entries -/

/-- The prologue, the entries and what follows them. -/
def containerWith (entries : List TlvEntry) (modulus_count : UInt32) (instruction_count : UInt64)
    (rest : Bytes) : Bytes :=
  kFhexMagic ++ (leBytes 2 kFhexVersion ++ (leBytes 2 0 ++
    (leBytes 4 (entries.flatMap TlvEntry.bytes).length ++ (leBytes 4 modulus_count.toNat ++
      (leBytes 8 instruction_count.toNat ++ (entries.flatMap TlvEntry.bytes ++ rest))))))

/-- What is decoded of the sections behind the metadata, and of the metadata once parsed. -/
def decodeBehind (modulus_count instruction_count : ℕ) (rest : Bytes)
    (parsed : Except Stop MetaState) : Except Stop FhexProgram :=
  if rest.length < modulus_count * 8 then .error (.failed .Truncated)
  else if (rest.length - modulus_count * 8) / 2 < instruction_count then
    .error (.failed .Truncated)
  else do
    let (metadata, spec) ← parsed
    if !spec.valid then .error (.failed .MissingSpec)
    else do
      let modulus_table ← get_table rest modulus_count 0
      let records ← get_records rest instruction_count (modulus_count * 8)
      .ok { metadata := { metadata with modulus_chain := modulus_table },
            format_version := kFhexVersion, spec := spec, modulus_table := modulus_table,
            records := records }

theorem entries_length_le (es : List TlvEntry) :
    es.length ≤ (es.flatMap TlvEntry.bytes).length := by
  have hone : ∀ e : TlvEntry, 1 ≤ e.bytes.length := fun e => by rw [e.bytes_length]; omega
  have hle := length_mul_le_flatMap hone es
  rwa [Nat.mul_one] at hle

theorem TlvEntry.payload_length_le {es : List TlvEntry} {e : TlvEntry} (he : e ∈ es) :
    e.payload.length ≤ (es.flatMap TlvEntry.bytes).length := by
  have hle := length_le_flatMap_of_mem (f := TlvEntry.bytes) he
  have := e.padded
  rw [e.bytes_length] at hle
  omega

theorem section_aligned (es : List TlvEntry) :
    (es.flatMap TlvEntry.bytes).length % kFhexAlign = 0 := by
  apply Nat.mod_eq_zero_of_dvd
  apply dvd_length_flatMap
  intro e
  rw [e.bytes_length, fhex_align_up, kFhexAlign]
  omega

/-- A section is parsed entry by entry. -/
theorem parse_metadata_section {entries : List TlvEntry}
    (hsize : (entries.flatMap TlvEntry.bytes).length < 2 ^ 32) :
    parse_metadata (entries.flatMap TlvEntry.bytes) =
      entries.foldlM TlvEntry.effect ({}, {}) := by
  rw [parse_metadata]
  apply parse_entries_tlv entries _ 0 _ (entries_length_le entries) _ List.drop_zero
  exact fun e he => (TlvEntry.payload_length_le he).trans_lt hsize

/-- **What a container decodes to**: the entries enter only through what they parse to. -/
theorem decode_containerWith {entries : List TlvEntry} (modulus_count : UInt32)
    (instruction_count : UInt64) (rest : Bytes)
    (hsize : (entries.flatMap TlvEntry.bytes).length < 2 ^ 32) :
    decode_fhetch_program (containerWith entries modulus_count instruction_count rest) =
      decodeBehind modulus_count.toNat instruction_count.toNat rest
        (entries.foldlM TlvEntry.effect ({}, {})) := by
  obtain ⟨hprologue, hbody⟩ := get_prologue_spec
    (p := ⟨(entries.flatMap TlvEntry.bytes).length, modulus_count.toNat, instruction_count.toNat⟩)
    hsize modulus_count.toNat_lt instruction_count.toNat_lt
    (rfl : containerWith entries modulus_count instruction_count rest = _)
  generalize hsection : entries.flatMap TlvEntry.bytes = md at *
  have hlength : (containerWith entries modulus_count instruction_count rest).length =
      kFhexPrologueBytes + md.length + rest.length := by
    simp only [containerWith, hsection, List.length_append, leBytes_length, kFhexMagic,
      List.length_cons, List.length_nil, kFhexPrologueBytes]
    omega
  generalize containerWith entries modulus_count instruction_count rest = bytes at *
  have hparsed : parse_metadata ((bytes.drop kFhexPrologueBytes).take md.length) =
      entries.foldlM TlvEntry.effect ({}, {}) := by
    rw [hbody, List.take_left, ← hsection]
    exact parse_metadata_section (hsection ▸ hsize)
  have haligned : md.length % kFhexAlign = 0 := by
    rw [← hsection]
    exact section_aligned entries
  -- behind the metadata stands the rest
  have hbehind : bytes = bytes.take (kFhexPrologueBytes + md.length) ++ rest := by
    rw [← drop_add hbody, List.take_append_drop]
  have hbefore : (bytes.take (kFhexPrologueBytes + md.length)).length =
      kFhexPrologueBytes + md.length := by
    rw [List.length_take]
    omega
  have htable : ∀ count offset, get_table bytes count (kFhexPrologueBytes + md.length + offset) =
      get_table rest count offset := by
    intro count offset
    have := get_table_behind (bytes.take (kFhexPrologueBytes + md.length)) rest count offset
    rwa [← hbehind, hbefore] at this
  have hrecords : ∀ count offset,
      get_records bytes count (kFhexPrologueBytes + md.length + offset) =
        get_records rest count offset := by
    intro count offset
    have := get_records_behind (bytes.take (kFhexPrologueBytes + md.length)) rest count offset
    rwa [← hbehind, hbefore] at this
  have htable₀ := htable modulus_count.toNat 0
  rw [Nat.add_zero] at htable₀
  rw [decode_fhetch_program, hprologue, decodeBehind]
  simp only [bind, Except.bind, check_sections, if_neg (not_not.mpr haligned), hparsed, hrecords,
    htable₀]
  rw [if_neg (by omega), hlength, Nat.add_sub_cancel_left, Nat.add_sub_add_left]
  by_cases hshort : rest.length < modulus_count.toNat * 8
  · rw [if_pos hshort, if_pos hshort]
  · rw [if_neg hshort, if_neg hshort]
    by_cases hfew : (rest.length - modulus_count.toNat * 8) / 2 < instruction_count.toNat
    · rw [if_pos hfew, if_pos hfew]
    · rw [if_neg hfew, if_neg hfew]

/-! ## Foreign entries -/

/-- A tag that no enumerator names. -/
def TlvEntry.Foreign (e : TlvEntry) : Prop := FhMetaTag.ofValue e.tag.toNat = none

/-- The second list is the first with foreign entries inserted, at any places. -/
inductive Inserted : List TlvEntry → List TlvEntry → Prop where
  | nil : Inserted [] []
  | keep {es fs : List TlvEntry} (e : TlvEntry) : Inserted es fs → Inserted (e :: es) (e :: fs)
  | insert {es fs : List TlvEntry} {e : TlvEntry} :
      e.Foreign → Inserted es fs → Inserted es (e :: fs)

theorem Inserted.refl (es : List TlvEntry) : Inserted es es := by
  induction es with
  | nil => exact .nil
  | cons e es ih => exact .keep e ih

/-- A foreign entry does nothing, whatever it holds. -/
theorem TlvEntry.Foreign.effect {e : TlvEntry} (h : e.Foreign) (st : MetaState) :
    TlvEntry.effect st e = .ok st := by
  rw [TlvEntry.effect, parse_entry, h]

/-- **Foreign entries change nothing** that is parsed. -/
theorem Inserted.parsed {es fs : List TlvEntry} (h : Inserted es fs) :
    ∀ st, fs.foldlM TlvEntry.effect st = es.foldlM TlvEntry.effect st := by
  induction h with
  | nil => exact fun _ => rfl
  | keep e _ ih =>
    intro st
    rw [List.foldlM_cons, List.foldlM_cons]
    congr 1
    funext st'
    exact ih st'
  | insert he _ ih =>
    intro st
    rw [List.foldlM_cons, he.effect]
    exact ih st

theorem Inserted.length_le {es fs : List TlvEntry} (h : Inserted es fs) :
    (es.flatMap TlvEntry.bytes).length ≤ (fs.flatMap TlvEntry.bytes).length := by
  induction h with
  | nil => exact le_rfl
  | keep e _ ih =>
    rw [List.flatMap_cons, List.flatMap_cons, List.length_append, List.length_append]
    omega
  | insert _ _ ih =>
    rw [List.flatMap_cons, List.length_append]
    omega

/-- The entries of an encoding, as they are written. -/
def writtenEntries (metadata : TraceMetadata) (spec : FhetchSpec) : List TlvEntry :=
  (metaEntries metadata spec).map TlvEntry.ofMeta

/-- An encoding is a container with those entries. -/
theorem encode_eq_containerWith {metadata : TraceMetadata} {table : List UInt64}
    {records : List FhetchRecord} {spec : FhetchSpec} {bytes : Bytes}
    (h : encode_fhetch_program metadata table records spec = some bytes) :
    bytes = containerWith (writtenEntries metadata spec) (UInt32.ofNat table.length)
      (UInt64.ofNat records.length)
      ((table.flatMap fun q => leBytes 8 q.toNat) ++ records.flatMap recordBytes) := by
  have hspec : spec.valid = true := by
    by_contra hinvalid
    rw [Bool.not_eq_true] at hinvalid
    simp [encode_fhetch_program, hinvalid] at h
  rw [encode_fhetch_program_eq metadata table records hspec] at h
  have hsection : (writtenEntries metadata spec).flatMap TlvEntry.bytes =
      build_metadata metadata spec := by
    rw [build_metadata_eq, writtenEntries]
    simp only [List.flatMap_map, TlvEntry.bytes_ofMeta]
  -- the prologue keeps four bytes of a length, and so does the count that is named here
  have htable : leBytes 4 (UInt32.ofNat table.length).toNat = leBytes 4 table.length := by
    rw [UInt32.toNat_ofNat']
    exact leBytes_mod 4 _
  have hrecords : leBytes 8 (UInt64.ofNat records.length).toNat = leBytes 8 records.length := by
    rw [UInt64.toNat_ofNat']
    exact leBytes_mod 8 _
  rw [containerWith, hsection, htable, hrecords]
  exact (Option.some.inj h).symm

/-- **Unknown tags are skipped without effect.** Whatever foreign entries are put into the
metadata of an encoding, with its length adjusted, it decodes to the same. -/
theorem unknown_tags_skipped (metadata : TraceMetadata) (table : List UInt64)
    (records : List FhetchRecord) (spec : FhetchSpec) (bytes : Bytes)
    (henc : encode_fhetch_program metadata table records spec = some bytes) :
    ∃ modulus_count instruction_count rest,
      bytes = containerWith (writtenEntries metadata spec) modulus_count instruction_count rest ∧
      ∀ entries, Inserted (writtenEntries metadata spec) entries →
        (entries.flatMap TlvEntry.bytes).length < 2 ^ 32 →
        decode_fhetch_program (containerWith entries modulus_count instruction_count rest) =
          decode_fhetch_program bytes := by
  refine ⟨_, _, _, encode_eq_containerWith henc, fun entries hentries hsize => ?_⟩
  rw [encode_eq_containerWith henc, decode_containerWith _ _ _ hsize,
    decode_containerWith _ _ _ (hentries.length_le.trans_lt hsize), hentries.parsed]

/-- An entry with the tag 999, whose payload is itself an entry that names a program. -/
def disguisedEntry : TlvEntry where
  tag := 999
  reserved := 7
  payload := [1, 0, 0, 0, 3, 0, 0, 0, 97, 98, 99]
  padding := [255, 255, 255, 255, 255]
  padded := rfl

theorem unknown_tags_skipped_disguised : ∃ bytes modulus_count instruction_count rest,
    encode_fhetch_program { program_name := [112] } [97] [{ opcode := 1, flags := 9 }]
        kFhetchSpec = some bytes ∧
      decode_fhetch_program (containerWith
        (disguisedEntry :: writtenEntries { program_name := [112] } kFhetchSpec)
          modulus_count instruction_count rest) = decode_fhetch_program bytes := by
  obtain ⟨modulus_count, instruction_count, rest, -, hskipped⟩ :=
    unknown_tags_skipped { program_name := [112] } [97] [{ opcode := 1, flags := 9 }]
      kFhetchSpec _ rfl
  exact ⟨_, modulus_count, instruction_count, rest, rfl,
    hskipped _ (.insert rfl (Inserted.refl _)) (by decide)⟩

end Fhetch
