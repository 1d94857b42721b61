/-
The container round-trips: decoding what was encoded gives back the metadata,
the specification, the modulus table and the records.

The encoder appends, so each `put_…` is rewritten once as `out ++ bytes`; the
decoder holds a cursor, so each `get_…` is stated from what stands at it. The
metadata section is the one place with structure: its entries are optional and
padded, and `metaEntries` lists them. A field whose entry was omitted keeps its
default, which is the value it was omitted for.

The one field that does not survive is a date with year 0 and a month or day:
`FhetchSpecDate.known` looks at the year alone, and such a date is not written.
-/
import Fhetch.Encoding

set_option autoImplicit false

namespace Fhetch

open Lib

/-! ## Fields -/

/-- The bytes of a field written when its flag is set. -/
def fieldBytes (present : Bool) (value : ℕ) : Bytes :=
  if present then leb128 (kFhexMaxVarintBytes - 1) value else []

theorem put_field_eq (present : Bool) (value : ℕ) (out : Bytes) :
    put_field present value out = out ++ fieldBytes present value := by
  cases present with
  | true => rfl
  | false => exact (List.append_nil out).symm

theorem get_varint_spec {bytes rest : Bytes} {offset value : ℕ} (hv : value < 2 ^ 64)
    (h : bytes.drop offset = leb128 (kFhexMaxVarintBytes - 1) value ++ rest) :
    get_varint bytes offset =
      some (value, offset + (leb128 (kFhexMaxVarintBytes - 1) value).length) := by
  have hread : get_varint bytes offset = some (0 + value * 2 ^ (0 * 7),
      offset + (leb128 (kFhexMaxVarintBytes - 1) value).length) :=
    readLeb128_leb128 (kFhexMaxVarintBytes - 1) h (hv.trans (by decide)) (by decide)
      (by simpa using hv)
  rwa [Nat.zero_mul, Nat.pow_zero, Nat.mul_one, Nat.zero_add] at hread

theorem get_field_spec {bytes rest : Bytes} {offset value : ℕ} {present : Bool}
    (hv : value < 2 ^ 64) (habsent : present = false → value = 0)
    (h : bytes.drop offset = fieldBytes present value ++ rest) :
    get_field present (get_varint bytes) offset =
      .ok (value, offset + (fieldBytes present value).length) := by
  cases present with
  | false => rw [habsent rfl]; rfl
  | true =>
    rw [get_field, if_pos rfl, get_varint_spec hv h]
    rfl

theorem get_field_u32_spec {bytes rest : Bytes} {offset value : ℕ} {present : Bool}
    (hv : value < 2 ^ 32) (habsent : present = false → value = 0)
    (h : bytes.drop offset = fieldBytes present value ++ rest) :
    get_field present (get_varint_u32 bytes) offset =
      .ok (value, offset + (fieldBytes present value).length) := by
  cases present with
  | false => rw [habsent rfl]; rfl
  | true =>
    rw [get_field, if_pos rfl, get_varint_u32, get_varint_spec (hv.trans (by decide)) h,
      Option.bind_some, if_neg (by simp only; omega)]
    rfl

/-! ## Records -/

/-- A record in which every absent operand is zero. -/
structure FhetchRecord.Canonical (r : FhetchRecord) : Prop where
  logn : r.has FH_FLAG_HAS_LOGN = false → r.logn = 0
  dst : r.hasOperands = false → r.dst = 0
  src1 : r.hasOperands = false → r.src1 = 0
  src2 : r.has FH_FLAG_HAS_SRC2 = false → r.src2 = 0
  modulus : r.has FH_FLAG_HAS_MOD = false → r.modulus = 0
  imm : r.has FH_FLAG_HAS_IMM = false → r.imm = 0
  aux : r.has FH_FLAG_HAS_AUX = false → r.aux = 0

/-- The bytes of a record. -/
def recordBytes (r : FhetchRecord) : Bytes :=
  [r.opcode, r.flags] ++ ((if r.has FH_FLAG_HAS_LOGN then [r.logn] else []) ++
    (fieldBytes r.hasOperands r.dst.toNat ++ (fieldBytes r.hasOperands r.src1.toNat ++
      (fieldBytes (r.has FH_FLAG_HAS_SRC2) r.src2.toNat ++
        (fieldBytes (r.has FH_FLAG_HAS_MOD) r.modulus.toNat ++
          (fieldBytes (r.has FH_FLAG_HAS_IMM) r.imm.toNat ++
            fieldBytes (r.has FH_FLAG_HAS_AUX) r.aux.toNat))))))

theorem put_record_eq (out : Bytes) (r : FhetchRecord) :
    put_record out r = out ++ recordBytes r := by
  simp only [put_record, put_field_eq, put_scalar, leBytes, UInt8.ofNat_toNat, recordBytes]
  split <;> simp only [List.append_assoc, List.nil_append, List.cons_append]

theorem recordBytes_length (r : FhetchRecord) : 2 ≤ (recordBytes r).length := by
  rw [recordBytes, List.length_append]
  exact Nat.le_add_right _ _

theorem get_record_spec {bytes rest : Bytes} {offset : ℕ} {r : FhetchRecord} (hr : r.Canonical)
    (h : bytes.drop offset = recordBytes r ++ rest) :
    get_record bytes offset = .ok (r, offset + (recordBytes r).length) := by
  have hlen : ¬ bytes.length < offset + 2 := by
    have := congrArg List.length h
    have := recordBytes_length r
    simp only [List.length_drop, List.length_append] at *
    omega
  simp only [recordBytes, List.append_assoc] at h
  have hopcode : bytes[offset]? = some r.opcode := getElem?_of_drop h
  have hflags : bytes[offset + 1]? = some r.flags :=
    getElem?_of_drop (drop_add (a := [r.opcode]) h)
  have h₁ : bytes.drop (offset + 2) = _ := drop_add (a := [r.opcode, r.flags]) h
  have hlogn : get_field (r.has FH_FLAG_HAS_LOGN)
      (fun offset => bytes[offset]?.map fun b => (b.toNat, offset + 1)) (offset + 2) =
      .ok (r.logn.toNat, offset + 2 + (if r.has FH_FLAG_HAS_LOGN then [r.logn] else []).length) := by
    cases hl : r.has FH_FLAG_HAS_LOGN with
    | false => rw [hr.logn hl]; rfl
    | true =>
      rw [hl] at h₁
      have hget : bytes[offset + 2]? = some r.logn := getElem?_of_drop h₁
      rw [get_field, if_pos rfl, hget]
      rfl
  have h₂ := drop_add h₁
  have hdst := get_field_u32_spec r.dst.toNat_lt (fun h => by rw [hr.dst h]; rfl) h₂
  have h₃ := drop_add h₂
  have hsrc1 := get_field_u32_spec r.src1.toNat_lt (fun h => by rw [hr.src1 h]; rfl) h₃
  have h₄ := drop_add h₃
  have hsrc2 := get_field_u32_spec r.src2.toNat_lt (fun h => by rw [hr.src2 h]; rfl) h₄
  have h₅ := drop_add h₄
  have hmodulus := get_field_spec r.modulus.toNat_lt (fun h => by rw [hr.modulus h]; rfl) h₅
  have h₆ := drop_add h₅
  have himm := get_field_spec r.imm.toNat_lt (fun h => by rw [hr.imm h]; rfl) h₆
  have h₇ := drop_add h₆
  have haux := get_field_spec r.aux.toNat_lt (fun h => by rw [hr.aux h]; rfl) h₇
  rw [get_record, if_neg hlen, hopcode, hflags]
  -- the decoder asks a record that has only its opcode and flags yet
  have hhas : ∀ flag, ({ opcode := r.opcode, flags := r.flags } : FhetchRecord).has flag =
      r.has flag := fun _ => rfl
  have hops : ({ opcode := r.opcode, flags := r.flags } : FhetchRecord).hasOperands =
      r.hasOperands := rfl
  simp only [unguarded, bind, Except.bind, hhas, hops, hlogn, hdst, hsrc1, hsrc2, hmodulus, himm,
    haux, UInt8.ofNat_toNat, UInt32.ofNat_toNat, UInt64.ofNat_toNat]
  refine congrArg (fun n => Except.ok (r, n)) ?_
  simp only [recordBytes, List.length_append, List.length_cons, List.length_nil]
  omega

theorem put_records_eq (records : List FhetchRecord) :
    ∀ out, records.foldl put_record out = out ++ records.flatMap recordBytes := by
  induction records with
  | nil => intro out; exact (List.append_nil out).symm
  | cons r rest ih =>
    intro out
    rw [List.foldl_cons, put_record_eq, ih, List.flatMap_cons, List.append_assoc]

theorem get_records_spec {bytes : Bytes} (records : List FhetchRecord) :
    ∀ offset, (∀ r ∈ records, r.Canonical) → bytes.drop offset = records.flatMap recordBytes →
      get_records bytes records.length offset = .ok records := by
  induction records with
  | nil => intro offset _ _; rfl
  | cons r rest ih =>
    intro offset hr h
    rw [List.flatMap_cons] at h
    rw [List.length_cons, get_records, get_record_spec (hr r List.mem_cons_self) h]
    simp only [bind, Except.bind]
    rw [ih _ (fun r' hr' => hr r' (List.mem_cons_of_mem _ hr')) (drop_add h)]

theorem records_length (records : List FhetchRecord) :
    records.length * 2 ≤ (records.flatMap recordBytes).length :=
  length_mul_le_flatMap recordBytes_length records

/-! ## The modulus table -/

theorem put_table_eq (table : List UInt64) :
    ∀ out, table.foldl (fun out q => put_scalar out 8 q.toNat) out =
      out ++ table.flatMap fun q => leBytes 8 q.toNat := by
  induction table with
  | nil => intro out; exact (List.append_nil out).symm
  | cons q rest ih =>
    intro out
    rw [List.foldl_cons, ih, put_scalar, List.flatMap_cons, List.append_assoc]

theorem table_length (table : List UInt64) :
    (table.flatMap fun q => leBytes 8 q.toNat).length = table.length * 8 := by
  induction table with
  | nil => rfl
  | cons q rest ih =>
    rw [List.flatMap_cons, List.length_append, leBytes_length, ih, List.length_cons]
    omega

theorem get_table_spec {bytes rest : Bytes} (table : List UInt64) :
    ∀ offset, bytes.drop offset = (table.flatMap fun q => leBytes 8 q.toNat) ++ rest →
      get_table bytes table.length offset = .ok table := by
  induction table with
  | nil => intro offset _; rfl
  | cons q table ih =>
    intro offset h
    rw [List.flatMap_cons, List.append_assoc] at h
    have hq : readLe 8 bytes offset = some q.toNat :=
      readLe_leBytes (by decide) q.toNat_lt h
    have hnext := drop_add h
    rw [leBytes_length] at hnext
    rw [List.length_cons, get_table, hq]
    simp only [unguarded, bind, Except.bind, UInt64.ofNat_toNat]
    rw [ih _ hnext]

/-! ## The metadata section -/

/-- The bytes of one entry, at an aligned place. -/
def entryBytes (e : FhMetaTag × Bytes) : Bytes :=
  leBytes 2 e.1.value ++ (leBytes 2 0 ++ (leBytes 4 e.2.length ++ (e.2 ++
    List.replicate ((kFhexAlign - e.2.length % kFhexAlign) % kFhexAlign) 0)))

theorem entryBytes_length (e : FhMetaTag × Bytes) :
    (entryBytes e).length = 8 + fhex_align_up e.2.length := by
  simp only [entryBytes, List.length_append, leBytes_length, List.length_replicate, fhex_align_up,
    kFhexAlign]
  omega

theorem entries_aligned (es : List (FhMetaTag × Bytes)) :
    (es.flatMap entryBytes).length % kFhexAlign = 0 := by
  apply Nat.mod_eq_zero_of_dvd
  apply dvd_length_flatMap
  intro e
  rw [entryBytes_length, fhex_align_up, kFhexAlign]
  omega

theorem put_meta_entry_eq (es : List (FhMetaTag × Bytes)) (tag : FhMetaTag) (payload : Bytes) :
    put_meta_entry (es.flatMap entryBytes) tag payload =
      (es ++ [(tag, payload)]).flatMap entryBytes := by
  have hal := entries_aligned es
  have hlen : (es.flatMap entryBytes ++ leBytes 2 tag.value ++ leBytes 2 0 ++
      leBytes 4 payload.length ++ payload).length % kFhexAlign = payload.length % kFhexAlign := by
    simp only [List.length_append, leBytes_length, kFhexAlign] at *
    omega
  simp only [put_meta_entry, put_scalar, pad_to_align]
  rw [hlen]
  simp only [List.flatMap_append, List.flatMap_cons, List.flatMap_nil, List.append_nil, entryBytes,
    List.append_assoc]

/-- The entry of a string, omitted when empty. -/
def stringEntry (tag : FhMetaTag) (value : Str) : List (FhMetaTag × Bytes) :=
  if value.isEmpty then [] else [(tag, value)]

/-- The entry of an integer, omitted when zero. -/
def u64Entry (tag : FhMetaTag) (value : ℕ) : List (FhMetaTag × Bytes) :=
  if value = 0 then [] else [(tag, leBytes 8 value)]

theorem put_meta_string_eq (es : List (FhMetaTag × Bytes)) (tag : FhMetaTag) (value : Str) :
    put_meta_string tag value (es.flatMap entryBytes) =
      (es ++ stringEntry tag value).flatMap entryBytes := by
  rw [put_meta_string, stringEntry]
  split
  · rw [List.append_nil]
  · exact put_meta_entry_eq es tag value

theorem put_meta_u64_eq (es : List (FhMetaTag × Bytes)) (tag : FhMetaTag) (value : ℕ) :
    put_meta_u64 tag value (es.flatMap entryBytes) =
      (es ++ u64Entry tag value).flatMap entryBytes := by
  rw [put_meta_u64, u64Entry]
  split
  · rw [List.append_nil]
  · exact put_meta_entry_eq es tag _

/-- The entries `build_metadata` writes, in its order. -/
def metaEntries (m : TraceMetadata) (spec : FhetchSpec) : List (FhMetaTag × Bytes) :=
  (if spec.version.known then u64Entry .FhetchSpecVersion (fhex_pack_version spec.version)
    else []) ++
  (if spec.date.known then u64Entry .FhetchSpecDateTag (fhex_pack_spec_date spec.date) else []) ++
  stringEntry .ProgramName m.program_name ++ stringEntry .ProgramVersion m.program_version ++
  stringEntry .TraceFile m.trace_file ++ stringEntry .Description m.description ++
  stringEntry .SourceFile m.source_file ++ stringEntry .BuildTimestamp m.build_timestamp ++
  stringEntry .Scheme m.scheme ++ stringEntry .SecurityLevel m.security_level ++
  u64Entry .SourceLine (intToU64 m.source_line) ++
  u64Entry .InstructionCount (intToU64 m.instruction_count) ++
  u64Entry .GeneratedTimestamp m.generated_timestamp.toNat ++
  u64Entry .RingDimension (intToU64 m.ring_dimension) ++
  u64Entry .MultiplicativeDepth (intToU64 m.multiplicative_depth) ++
  u64Entry .ModulusChainLength (intToU64 m.modulus_chain_length)

theorem build_metadata_eq (m : TraceMetadata) (spec : FhetchSpec) :
    build_metadata m spec = (metaEntries m spec).flatMap entryBytes := by
  have hversion : (if spec.version.known then
      put_meta_u64 .FhetchSpecVersion (fhex_pack_version spec.version) [] else []) =
      (if spec.version.known then u64Entry .FhetchSpecVersion (fhex_pack_version spec.version)
        else []).flatMap entryBytes := by
    split
    · exact put_meta_u64_eq [] _ _
    · rfl
  -- the two fields of the specification are written only when they are known
  have hdate : ∀ es : List (FhMetaTag × Bytes), (if spec.date.known then
      put_meta_u64 .FhetchSpecDateTag (fhex_pack_spec_date spec.date) (es.flatMap entryBytes)
        else es.flatMap entryBytes) =
      (es ++ if spec.date.known then
        u64Entry .FhetchSpecDateTag (fhex_pack_spec_date spec.date) else []).flatMap entryBytes := by
    intro es
    split
    · exact put_meta_u64_eq es _ _
    · rw [List.append_nil]
  unfold build_metadata
  simp only []
  rw [hversion, hdate]
  simp only [put_meta_string_eq, put_meta_u64_eq, metaEntries]

/-- What an entry does, read off its payload alone. -/
def entryEffect (st : MetaState) (e : FhMetaTag × Bytes) : Except Stop MetaState :=
  parse_entry e.2 e.1.value e.2.length 0 st

theorem parse_entry_spec {md rest payload : Bytes} {tag offset : ℕ} {st : MetaState}
    (hle : offset ≤ md.length) (h : md.drop offset = payload ++ rest) :
    parse_entry md tag payload.length offset st = parse_entry payload tag payload.length 0 st := by
  have htext : (md.drop offset).take payload.length = payload := by rw [h, List.take_left]
  have hself : (payload.drop 0).take payload.length = payload := by simp
  have hstring : string_payload md payload.length offset =
      string_payload payload payload.length 0 := by
    have hlen := congrArg List.length h
    rw [List.length_drop, List.length_append] at hlen
    rw [string_payload, string_payload, if_pos (by omega), if_pos (by omega), htext, hself]
  have hnum : numeric_payload md payload.length offset =
      numeric_payload payload payload.length 0 := by
    unfold numeric_payload
    split
    · rename_i h8
      have hlen := congrArg List.length h
      rw [List.length_drop, List.length_append] at hlen
      rw [readLe, readLe, if_pos (by omega), if_pos (by omega), ← h8, htext, hself]
    · rfl
  -- an entry reads its payload in these two ways only
  unfold parse_entry
  rw [hstring, hnum]

/-- An entry as it may stand in a section, whoever wrote it. -/
structure TlvEntry where
  tag : UInt16
  reserved : UInt16
  payload : Bytes
  padding : Bytes
  padded : payload.length + padding.length = fhex_align_up payload.length

def TlvEntry.bytes (e : TlvEntry) : Bytes :=
  leBytes 2 e.tag.toNat ++ (leBytes 2 e.reserved.toNat ++ (leBytes 4 e.payload.length ++
    (e.payload ++ e.padding)))

/-- What it does, read off its payload alone. -/
def TlvEntry.effect (st : MetaState) (e : TlvEntry) : Except Stop MetaState :=
  parse_entry e.payload e.tag.toNat e.payload.length 0 st

theorem TlvEntry.bytes_length (e : TlvEntry) : e.bytes.length = 8 + fhex_align_up e.payload.length := by
  have := e.padded
  simp only [bytes, List.length_append, leBytes_length]
  omega

/-- **The walk stays in step** with the entries, whatever they hold. -/
theorem parse_entries_tlv {md : Bytes} (es : List TlvEntry) :
    ∀ (fuel offset : ℕ) (st : MetaState), es.length ≤ fuel →
      (∀ e ∈ es, e.payload.length < 2 ^ 32) → md.drop offset = es.flatMap TlvEntry.bytes →
      parse_entries md fuel offset st = es.foldlM TlvEntry.effect st := by
  induction es with
  | nil =>
    intro fuel offset st _ _ h
    have hlen := congrArg List.length h
    rw [List.flatMap_nil, List.length_nil, List.length_drop] at hlen
    cases fuel with
    | zero => rfl
    | succ fuel => rw [parse_entries, if_neg (by omega)]; rfl
  | cons e rest ih =>
    intro fuel offset st hfuel hpay h
    rw [List.flatMap_cons] at h
    have hlen := congrArg List.length h
    rw [List.length_drop, List.length_append, e.bytes_length] at hlen
    have halign := e.padded
    obtain ⟨fuel, rfl⟩ : ∃ n, fuel = n + 1 := ⟨fuel - 1, by rw [List.length_cons] at hfuel; omega⟩
    -- behind the padding stands the next entry
    have hnext : md.drop (offset + 8 + fhex_align_up e.payload.length) =
        rest.flatMap TlvEntry.bytes := by
      have := drop_add h
      rwa [e.bytes_length, ← Nat.add_assoc] at this
    simp only [TlvEntry.bytes, List.append_assoc] at h
    have htag : readLe 2 md offset = some e.tag.toNat := readLe_leBytes (by decide) e.tag.toNat_lt h
    have h₄ : md.drop (offset + 4) = _ := drop_add (drop_add h)
    have hlength : readLe 4 md (offset + 4) = some e.payload.length :=
      readLe_leBytes (by decide) (hpay e List.mem_cons_self) h₄
    have h₈ : md.drop (offset + 8) = _ := drop_add h₄
    rw [parse_entries, if_pos (by omega), htag, hlength]
    simp only [unguarded, bind, Except.bind]
    rw [if_neg (by omega), parse_entry_spec (by omega) h₈, List.foldlM_cons]
    change (parse_entry e.payload e.tag.toNat e.payload.length 0 st).bind _ =
      (TlvEntry.effect st e).bind _
    rw [TlvEntry.effect]
    congr 1
    funext st
    exact ih fuel _ st (by rw [List.length_cons] at hfuel; omega)
      (fun e' he' => hpay e' (List.mem_cons_of_mem _ he')) hnext

/-- An entry of a known tag, with the reserved bytes and the padding zero. -/
def TlvEntry.ofMeta (e : FhMetaTag × Bytes) : TlvEntry where
  tag := UInt16.ofNat e.1.value
  reserved := 0
  payload := e.2
  padding := List.replicate ((kFhexAlign - e.2.length % kFhexAlign) % kFhexAlign) 0
  padded := by
    rw [List.length_replicate, fhex_align_up, kFhexAlign]
    omega

theorem FhMetaTag.toNat_value (tag : FhMetaTag) : (UInt16.ofNat tag.value).toNat = tag.value := by
  cases tag <;> rfl

theorem TlvEntry.bytes_ofMeta (e : FhMetaTag × Bytes) : (ofMeta e).bytes = entryBytes e := by
  rw [bytes, ofMeta, e.1.toNat_value]
  rfl

theorem TlvEntry.effect_ofMeta (st : MetaState) (e : FhMetaTag × Bytes) :
    effect st (ofMeta e) = entryEffect st e := by
  rw [effect, ofMeta, e.1.toNat_value]
  rfl

theorem parse_entries_spec {md : Bytes} (es : List (FhMetaTag × Bytes)) :
    ∀ (fuel offset : ℕ) (st : MetaState), es.length ≤ fuel →
      (∀ e ∈ es, e.2.length < 2 ^ 32) → md.drop offset = es.flatMap entryBytes →
      parse_entries md fuel offset st = es.foldlM entryEffect st := by
  intro fuel offset st hfuel hpay h
  have hbytes : es.flatMap entryBytes = (es.map TlvEntry.ofMeta).flatMap TlvEntry.bytes := by
    simp only [List.flatMap_map, TlvEntry.bytes_ofMeta]
  have hwalk := parse_entries_tlv (es.map TlvEntry.ofMeta) fuel offset st
    (by rwa [List.length_map]) (by
      intro e he
      obtain ⟨e', he', rfl⟩ := List.mem_map.mp he
      exact hpay e' he') (h.trans hbytes)
  rw [hwalk, List.foldlM_map]
  simp only [TlvEntry.effect_ofMeta]

/-! ## Reading the metadata back -/

/-- Reading a run of entries takes the state `st` to `st'`. -/
def Folds (es : List (FhMetaTag × Bytes)) (st st' : MetaState) : Prop :=
  es.foldlM entryEffect st = .ok st'

theorem Folds.append {es fs : List (FhMetaTag × Bytes)} {st st' st'' : MetaState}
    (h : Folds es st st') (h' : Folds fs st' st'') : Folds (es ++ fs) st st'' := by
  rw [Folds, List.foldlM_append, h]
  exact h'

/-- A string comes back, and one omitted is the default. -/
theorem folds_string (tag : FhMetaTag) (value : Str) (set : TraceMetadata → Str → TraceMetadata)
    {m : TraceMetadata} {spec : FhetchSpec}
    (hset : ∀ md length, parse_entry md tag.value length 0 (m, spec) =
      (string_payload md length 0).bind fun text => .ok (set m text, spec))
    (hdef : set m [] = m) : Folds (stringEntry tag value) (m, spec) (set m value, spec) := by
  rw [Folds, stringEntry]
  by_cases h : value.isEmpty
  · rw [if_pos h, List.isEmpty_iff.mp h, hdef]
    rfl
  · rw [if_neg h]
    have heffect := hset value value.length
    rw [string_payload, if_pos (Nat.zero_add _).le, List.drop_zero, List.take_length] at heffect
    simp only [List.foldlM_cons, List.foldlM_nil, entryEffect, heffect, bind, Except.bind]
    rfl

/-- So does an integer. -/
theorem folds_u64 (tag : FhMetaTag) (st : MetaState) (set : MetaState → ℕ → MetaState) {value : ℕ}
    (hvalue : value < 2 ^ 64)
    (hset : ∀ md length, parse_entry md tag.value length 0 st =
      (numeric_payload md length 0).bind fun v => .ok (set st v))
    (hdef : value = 0 → set st value = st) : Folds (u64Entry tag value) st (set st value) := by
  rw [Folds, u64Entry]
  by_cases h : value = 0
  · rw [if_pos h, hdef h]
    rfl
  · have hread : readLe 8 (leBytes 8 value) 0 = some value :=
      readLe_leBytes (by decide) hvalue (List.append_nil _).symm
    have heffect := hset (leBytes 8 value) (leBytes 8 value).length
    rw [numeric_payload, if_pos (leBytes_length 8 value), hread] at heffect
    rw [if_neg h]
    simp only [List.foldlM_cons, List.foldlM_nil, entryEffect, heffect, bind, Except.bind, unguarded]
    rfl

/-- Sign extension loses nothing. -/
theorem u64ToInt_intToU64 (x : Int32) : u64ToInt (intToU64 x) = x := by
  rw [u64ToInt, intToU64, UInt64.ofNat_toNat, Int64.toInt64_toUInt64, Int32.toInt32_toInt64]

theorem intToU64_lt (x : Int32) : intToU64 x < 2 ^ 64 := UInt64.toNat_lt _

/-- The entry of an `int`: zero, its default, is what is omitted. -/
theorem folds_int (tag : FhMetaTag) (x : Int32) (set : MetaState → Int32 → MetaState)
    {st : MetaState}
    (hset : ∀ md length, parse_entry md tag.value length 0 st =
      (numeric_payload md length 0).bind fun v => .ok (set st (u64ToInt v)))
    (hdef : set st 0 = st) : Folds (u64Entry tag (intToU64 x)) st (set st x) := by
  have h := folds_u64 tag st (fun st v => set st (u64ToInt v)) (intToU64_lt x) hset fun h0 => by
    rw [h0]
    exact hdef
  simp only [u64ToInt_intToU64] at h
  exact h

/-- The packed fields do not overlap. -/
theorem fhex_pack_version_eq (v : FhetchVersion) : fhex_pack_version v =
    v.patch_version.toNat + (v.minor_version.toNat + v.major_version.toNat * 2 ^ 16) * 2 ^ 16 := by
  have hshift : v.major_version.toNat <<< 32 ||| v.minor_version.toNat <<< 16 =
      (v.minor_version.toNat ||| v.major_version.toNat <<< 16) <<< 16 := by
    rw [Nat.shiftLeft_or_distrib, ← Nat.shiftLeft_add, Nat.or_comm]
  rw [fhex_pack_version, hshift, Nat.or_comm, or_shiftLeft v.patch_version.toNat_lt,
    or_shiftLeft v.minor_version.toNat_lt]

theorem fhex_unpack_pack_version (v : FhetchVersion) :
    fhex_unpack_version (fhex_pack_version v) = v := by
  have hmajor := v.major_version.toNat_lt
  have hminor := v.minor_version.toNat_lt
  have hpatch := v.patch_version.toNat_lt
  have hmask : ∀ n : ℕ, n &&& 0xFFFF = n % 2 ^ 16 := fun n => Nat.and_two_pow_sub_one_eq_mod n 16
  have h₁ : fhex_pack_version v >>> 32 % 2 ^ 16 = v.major_version.toNat := by
    rw [fhex_pack_version_eq, Nat.shiftRight_eq_div_pow]
    omega
  have h₂ : fhex_pack_version v >>> 16 % 2 ^ 16 = v.minor_version.toNat := by
    rw [fhex_pack_version_eq, Nat.shiftRight_eq_div_pow]
    omega
  have h₃ : fhex_pack_version v % 2 ^ 16 = v.patch_version.toNat := by
    rw [fhex_pack_version_eq]
    omega
  rw [fhex_unpack_version, hmask, hmask, hmask, h₁, h₂, h₃, UInt16.ofNat_toNat, UInt16.ofNat_toNat,
    UInt16.ofNat_toNat]

theorem fhex_pack_version_lt (v : FhetchVersion) : fhex_pack_version v < 2 ^ 64 := by
  have hmajor := v.major_version.toNat_lt
  have hminor := v.minor_version.toNat_lt
  have hpatch := v.patch_version.toNat_lt
  rw [fhex_pack_version_eq]
  omega

/-- Decimal packing holds months and days of at most two digits. -/
theorem fhex_unpack_pack_spec_date {d : FhetchSpecDate} (hm : d.month.toNat < 100)
    (hd : d.day.toNat < 100) : fhex_unpack_spec_date (fhex_pack_spec_date d) = d := by
  have h₁ : fhex_pack_spec_date d / 10000 = d.year.toNat := by rw [fhex_pack_spec_date]; omega
  have h₂ : fhex_pack_spec_date d / 100 % 100 = d.month.toNat := by rw [fhex_pack_spec_date]; omega
  have h₃ : fhex_pack_spec_date d % 100 = d.day.toNat := by rw [fhex_pack_spec_date]; omega
  rw [fhex_unpack_spec_date, h₁, h₂, h₃, UInt16.ofNat_toNat, UInt8.ofNat_toNat, UInt8.ofNat_toNat]

theorem fhex_pack_spec_date_lt (d : FhetchSpecDate) : fhex_pack_spec_date d < 2 ^ 64 := by
  have hy := d.year.toNat_lt
  have hm := d.month.toNat_lt
  have hd := d.day.toNat_lt
  rw [fhex_pack_spec_date]
  omega

/-- The dates a container holds: none, or one with a year. -/
def FhetchSpecDate.Recordable (d : FhetchSpecDate) : Prop :=
  d = {} ∨ (d.year ≠ 0 ∧ d.month.toNat < 100 ∧ d.day.toNat < 100)

instance (d : FhetchSpecDate) : Decidable d.Recordable :=
  inferInstanceAs (Decidable (_ ∨ _))

/-- A month and a day of two digits. -/
def FhetchSpecDate.TwoDigit (d : FhetchSpecDate) : Prop := d.month.toNat < 100 ∧ d.day.toNat < 100

/-- What a container holds of a specification: a date without a year is not
written. -/
def FhetchSpec.recorded (spec : FhetchSpec) : FhetchSpec :=
  if spec.date.known then spec else { version := spec.version }

theorem FhetchSpecDate.Recordable.twoDigit {d : FhetchSpecDate} (h : d.Recordable) : d.TwoDigit := by
  rcases h with rfl | ⟨-, h⟩
  · exact ⟨by decide, by decide⟩
  · exact h

theorem FhetchSpec.recorded_eq {spec : FhetchSpec} (h : spec.date.Recordable) : spec.recorded = spec := by
  rw [FhetchSpec.recorded]
  split
  · rfl
  · rename_i hknown
    rcases h with h | ⟨hy, -⟩
    · obtain ⟨v, d⟩ := spec
      subst h
      rfl
    · exact absurd (decide_eq_true hy) hknown

/-- And what it holds still names the revision. -/
theorem FhetchSpec.recorded_valid {spec : FhetchSpec} (h : spec.valid) : spec.recorded.valid := by
  rw [FhetchSpec.recorded]
  split
  · exact h
  · rename_i hknown
    rw [FhetchSpec.valid, Bool.or_eq_true] at h
    exact Bool.or_eq_true_iff.mpr (Or.inl (h.resolve_right hknown))

/-- A version comes back; the unknown one, which is not written, is the default. -/
theorem folds_version (m : TraceMetadata) (v : FhetchVersion) :
    Folds (if v.known then u64Entry .FhetchSpecVersion (fhex_pack_version v) else [])
      (m, {}) (m, { version := v }) := by
  by_cases h : v.known
  · rw [if_pos h]
    have := folds_u64 .FhetchSpecVersion (m, {})
      (fun st n => (st.1, { st.2 with version := fhex_unpack_version n }))
      (fhex_pack_version_lt v) (fun _ _ => rfl) (fun h0 => by rw [h0]; rfl)
    simp only [fhex_unpack_pack_version] at this
    exact this
  · rw [if_neg h]
    have hv : v = {} := by
      obtain ⟨a, b, c⟩ := v
      simp only [FhetchVersion.known, Bool.or_eq_true, decide_eq_true_eq, not_or, not_not] at h
      obtain ⟨⟨rfl, rfl⟩, rfl⟩ := h
      rfl
    rw [hv]
    rfl

/-- A date comes back when it has a year. -/
theorem folds_date (m : TraceMetadata) {spec : FhetchSpec} (hd : spec.date.TwoDigit) :
    Folds (if spec.date.known then
        u64Entry .FhetchSpecDateTag (fhex_pack_spec_date spec.date) else [])
      (m, { version := spec.version }) (m, spec.recorded) := by
  rw [FhetchSpec.recorded]
  split
  · have := folds_u64 .FhetchSpecDateTag (m, { version := spec.version })
      (fun st n => (st.1, { st.2 with date := fhex_unpack_spec_date n }))
      (fhex_pack_spec_date_lt spec.date) (fun _ _ => rfl) (fun h0 => by rw [h0]; rfl)
    simp only [fhex_unpack_pack_spec_date hd.1 hd.2] at this
    exact this
  · rfl

/-- The whole section comes back, up to the chain, which it does not hold. -/
theorem folds_metadata (m : TraceMetadata) {spec : FhetchSpec} (hd : spec.date.TwoDigit) :
    Folds (metaEntries m spec) ({}, {}) ({ m with modulus_chain := [] }, spec.recorded) := by
  -- field by field, in the order in which the entries are written
  have h := (folds_version {} spec.version).append (folds_date {} hd)
  have h := h.append (folds_string .ProgramName m.program_name
    (fun m v => { m with program_name := v }) (fun _ _ => rfl) rfl)
  dsimp only at h
  have h := h.append (folds_string .ProgramVersion m.program_version
    (fun m v => { m with program_version := v }) (fun _ _ => rfl) rfl)
  dsimp only at h
  have h := h.append (folds_string .TraceFile m.trace_file
    (fun m v => { m with trace_file := v }) (fun _ _ => rfl) rfl)
  dsimp only at h
  have h := h.append (folds_string .Description m.description
    (fun m v => { m with description := v }) (fun _ _ => rfl) rfl)
  dsimp only at h
  have h := h.append (folds_string .SourceFile m.source_file
    (fun m v => { m with source_file := v }) (fun _ _ => rfl) rfl)
  dsimp only at h
  have h := h.append (folds_string .BuildTimestamp m.build_timestamp
    (fun m v => { m with build_timestamp := v }) (fun _ _ => rfl) rfl)
  dsimp only at h
  have h := h.append (folds_string .Scheme m.scheme (fun m v => { m with scheme := v }) (fun _ _ => rfl) rfl)
  dsimp only at h
  have h := h.append (folds_string .SecurityLevel m.security_level
    (fun m v => { m with security_level := v }) (fun _ _ => rfl) rfl)
  dsimp only at h
  have h := h.append (folds_int .SourceLine m.source_line
    (fun st x => ({ st.1 with source_line := x }, st.2)) (fun _ _ => rfl) rfl)
  dsimp only at h
  have h := h.append (folds_int .InstructionCount m.instruction_count
    (fun st x => ({ st.1 with instruction_count := x }, st.2)) (fun _ _ => rfl) rfl)
  dsimp only at h
  have h := h.append (folds_u64 .GeneratedTimestamp _
    (fun st v => ({ st.1 with generated_timestamp := UInt64.ofNat v }, st.2))
    m.generated_timestamp.toNat_lt (fun _ _ => rfl) (fun h0 => by rw [h0]; rfl))
  rw [UInt64.ofNat_toNat] at h
  dsimp only at h
  have h := h.append (folds_int .RingDimension m.ring_dimension
    (fun st x => ({ st.1 with ring_dimension := x }, st.2)) (fun _ _ => rfl) rfl)
  dsimp only at h
  have h := h.append (folds_int .MultiplicativeDepth m.multiplicative_depth
    (fun st x => ({ st.1 with multiplicative_depth := x }, st.2)) (fun _ _ => rfl) rfl)
  dsimp only at h
  exact h.append (folds_int .ModulusChainLength m.modulus_chain_length
    (fun st x => ({ st.1 with modulus_chain_length := x }, st.2)) (fun _ _ => rfl) rfl)

theorem metaEntries_length_le (es : List (FhMetaTag × Bytes)) :
    es.length ≤ (es.flatMap entryBytes).length := by
  have hone : ∀ e, 1 ≤ (entryBytes e).length := fun e => by rw [entryBytes_length]; omega
  have hle := length_mul_le_flatMap hone es
  rwa [Nat.mul_one] at hle

theorem payload_length_le {es : List (FhMetaTag × Bytes)} {e : FhMetaTag × Bytes} (he : e ∈ es) :
    e.2.length ≤ (es.flatMap entryBytes).length := by
  have hle := length_le_flatMap_of_mem (f := entryBytes) he
  rw [entryBytes_length, fhex_align_up, kFhexAlign] at hle
  omega

theorem parse_build_metadata (m : TraceMetadata) {spec : FhetchSpec} (hd : spec.date.TwoDigit)
    (hlen : (build_metadata m spec).length < 2 ^ 32) :
    parse_metadata (build_metadata m spec) = .ok ({ m with modulus_chain := [] }, spec.recorded) := by
  rw [build_metadata_eq] at hlen ⊢
  rw [parse_metadata, parse_entries_spec (metaEntries m spec) _ 0 _ (metaEntries_length_le _)
    (fun e he => (payload_length_le he).trans_lt hlen) List.drop_zero]
  exact folds_metadata m hd

/-! ## The container -/

/-- Encoding gives bytes, and decoding them gives back what was encoded. -/
def RoundTrips (metadata : TraceMetadata) (modulus_table : List UInt64)
    (records : List FhetchRecord) (spec : FhetchSpec) : Prop :=
  (encode_fhetch_program metadata modulus_table records spec).map decode_fhetch_program =
    some (.ok { metadata := { metadata with modulus_chain := modulus_table },
                format_version := kFhexVersion, spec := spec, modulus_table := modulus_table,
                records := records })

instance (metadata : TraceMetadata) (modulus_table : List UInt64) (records : List FhetchRecord)
    (spec : FhetchSpec) : Decidable (RoundTrips metadata modulus_table records spec) :=
  inferInstanceAs (Decidable (_ = _))

/-- The sections of a container, in order. -/
theorem encode_fhetch_program_eq (metadata : TraceMetadata) (table : List UInt64)
    (records : List FhetchRecord) {spec : FhetchSpec} (hspec : spec.valid) :
    encode_fhetch_program metadata table records spec =
      some (kFhexMagic ++ (leBytes 2 kFhexVersion ++ (leBytes 2 0 ++
        (leBytes 4 (build_metadata metadata spec).length ++ (leBytes 4 table.length ++
          (leBytes 8 records.length ++ (build_metadata metadata spec ++
            ((table.flatMap fun q => leBytes 8 q.toNat) ++
              records.flatMap recordBytes)))))))) := by
  rw [encode_fhetch_program, hspec]
  simp only [Bool.not_true, Bool.false_eq_true, if_false]
  rw [put_records_eq, put_table_eq]
  simp only [put_scalar, List.append_assoc]

/-- The prologue is read back field by field. -/
theorem get_prologue_spec {bytes body : Bytes} {p : FhexPrologue}
    (hmd : p.metadata_bytes < 2 ^ 32) (htable : p.modulus_count < 2 ^ 32)
    (hrecords : p.instruction_count < 2 ^ 64)
    (h : bytes = kFhexMagic ++ (leBytes 2 kFhexVersion ++ (leBytes 2 0 ++
      (leBytes 4 p.metadata_bytes ++ (leBytes 4 p.modulus_count ++
        (leBytes 8 p.instruction_count ++ body)))))) :
    get_prologue bytes = .ok p ∧ bytes.drop kFhexPrologueBytes = body := by
  have h₀ : bytes.drop 0 = _ := h
  have h₄ : bytes.drop 4 = _ := drop_add h₀
  have h₆ : bytes.drop 6 = _ := drop_add h₄
  have h₈ : bytes.drop 8 = _ := drop_add h₆
  have h₁₂ : bytes.drop 12 = _ := drop_add h₈
  have h₁₆ : bytes.drop 16 = _ := drop_add h₁₂
  have h₂₄ : bytes.drop 24 = _ := drop_add h₁₆
  refine ⟨?_, h₂₄⟩
  have hlen : ¬ bytes.length < kFhexPrologueBytes := by
    have := congrArg List.length h
    simp only [List.length_append, leBytes_length, kFhexMagic, List.length_cons,
      List.length_nil] at this
    rw [kFhexPrologueBytes]
    omega
  have hmagic : bytes.take 4 = kFhexMagic := by rw [h]; rfl
  rw [get_prologue, if_neg hlen, if_neg (not_not.mpr hmagic),
    readLe_leBytes (by decide) (by decide) h₄, readLe_leBytes (by decide) hmd h₈,
    readLe_leBytes (by decide) htable h₁₂, readLe_leBytes (by decide) hrecords h₁₆]
  rfl

/-- What an encoding decodes to. -/
theorem decode_encoded {metadata : TraceMetadata} {table : List UInt64}
    {records : List FhetchRecord} {spec : FhetchSpec} {bytes : Bytes} (hspec : spec.valid)
    (hdate : spec.date.TwoDigit) (hrecords : ∀ r ∈ records, r.Canonical)
    (hmd : (build_metadata metadata spec).length < 2 ^ 32) (htable : table.length < 2 ^ 32)
    (hcount : records.length < 2 ^ 64)
    (henc : encode_fhetch_program metadata table records spec = some bytes) :
    decode_fhetch_program bytes = .ok {
      metadata := { metadata with modulus_chain := table }, format_version := kFhexVersion,
      spec := spec.recorded, modulus_table := table, records := records } := by
  rw [encode_fhetch_program_eq metadata table records hspec] at henc
  have hbytes := Option.some.inj henc
  obtain ⟨hprologue, hbody⟩ := get_prologue_spec
    (p := ⟨(build_metadata metadata spec).length, table.length, records.length⟩)
    hmd htable hcount hbytes.symm
  have htables := drop_add hbody
  have hstream := drop_add htables
  rw [table_length] at hstream
  have hsize := congrArg List.length hbody
  simp only [List.length_drop, List.length_append, table_length] at hsize
  have hcounted := records_length records
  have haligned : (build_metadata metadata spec).length % kFhexAlign = 0 := by
    rw [build_metadata_eq]
    exact entries_aligned _
  -- the sections are as long as the prologue says, so no check refuses them
  have hsections : check_sections bytes.length
      ⟨(build_metadata metadata spec).length, table.length, records.length⟩ = .ok () := by
    have hle : kFhexPrologueBytes ≤ bytes.length := by
      rw [← hbytes]
      simp only [List.length_append, leBytes_length, kFhexMagic, List.length_cons,
        List.length_nil, kFhexPrologueBytes]
      omega
    simp only [check_sections]
    rw [if_neg (not_not.mpr haligned), if_neg (by omega), if_neg (by omega), if_neg (by omega)]
  have hmetadata : (bytes.drop kFhexPrologueBytes).take (build_metadata metadata spec).length =
      build_metadata metadata spec := by
    rw [hbody, List.take_left]
  rw [decode_fhetch_program, hprologue]
  simp only [bind, Except.bind, hsections, hmetadata, parse_build_metadata metadata hdate hmd,
    FhetchSpec.recorded_valid hspec, Bool.not_true, Bool.false_eq_true, if_false, get_table_spec table _ htables,
    get_records_spec records _ hrecords hstream]

/-- **The container round-trips.** Any metadata, any table, any records whose
absent operands are zero, under any specification that names a revision and
whose date is none or has a year. -/
theorem fhetch_program_roundTrips (metadata : TraceMetadata) (table : List UInt64)
    (records : List FhetchRecord) (spec : FhetchSpec) (hspec : spec.valid)
    (hdate : spec.date.Recordable) (hrecords : ∀ r ∈ records, r.Canonical)
    (hmd : (build_metadata metadata spec).length < 2 ^ 32) (htable : table.length < 2 ^ 32)
    (hcount : records.length < 2 ^ 64) : RoundTrips metadata table records spec := by
  rw [RoundTrips, encode_fhetch_program_eq metadata table records hspec, Option.map_some]
  have hdecode := decode_encoded hspec hdate.twoDigit hrecords hmd htable hcount
    (encode_fhetch_program_eq metadata table records hspec)
  rw [FhetchSpec.recorded_eq hdate] at hdecode
  exact congrArg some hdecode

/-- A version and a date without a year: `known` looks at the year alone, so the
date is not written and comes back as none. -/
def yearlessSpec : FhetchSpec := { version := ⟨1, 0, 0⟩, date := ⟨0, 5, 19⟩ }

theorem roundTrips_fails_yearlessDate :
    yearlessSpec.valid ∧ yearlessSpec.date.month.toNat < 100 ∧
      yearlessSpec.date.day.toNat < 100 ∧ (build_metadata {} yearlessSpec).length < 2 ^ 32 ∧
      ¬ RoundTrips {} [] [] yearlessSpec := by
  decide

/-- A named program with a negative ring dimension, one modulus, an addition and
a record of an unassigned opcode. -/
theorem fhetch_program_roundTrips_example :
    RoundTrips { program_name := [112], ring_dimension := -1 } [65537]
      [{ opcode := 1, flags := 9, dst := 300, src1 := 1, src2 := 2, modulus := 0 },
        { opcode := 200 }] kFhetchSpec :=
  fhetch_program_roundTrips _ _ _ _ (by decide) (by decide)
    (by
      intro r hr
      rcases List.mem_cons.mp hr with rfl | hr
      · constructor <;> decide
      · rcases List.mem_singleton.mp hr with rfl
        constructor <;> decide)
    (by decide) (by decide) (by decide)

/-! ## Varints that were not written

The tenth byte is checked so that two byte sequences do not decode to one value. Groups
of zeros at the end are not: `80 00` is read as 0, which is written `00`. -/

/-- `put_varint` never writes a last group of zeros that it could leave out. -/
theorem get_varint_canonical_iff {bytes : Bytes} {value : ℕ}
    (h : get_varint bytes 0 = some (value, bytes.length)) :
    bytes = put_varint [] value ↔ ShortestForm bytes := by
  obtain ⟨n, hvalue, htaken⟩ := readLeb128_takenIn (kFhexMaxVarintBytes - 1) (by decide) h
  rw [Nat.zero_mul, Nat.pow_zero, Nat.mul_one, Nat.zero_add] at hvalue
  rw [List.drop_zero] at htaken
  rw [hvalue]
  exact htaken.encoded_iff

/-- **Varints.** A value that was written is read back wherever it stands, within ten bytes,
and bytes that are read are those that would be written exactly if they end in no group of
zeros. -/
theorem varint_one_encoding_iff (bytes : Bytes) :
    (∀ (before : Bytes) (value : UInt64),
      get_varint (before ++ put_varint [] value.toNat ++ bytes) before.length =
        some (value.toNat, before.length + (put_varint [] value.toNat).length)) ∧
    (∀ (bytes' : Bytes) (offset : ℕ),
      (bytes.drop offset).take kFhexMaxVarintBytes = (bytes'.drop offset).take kFhexMaxVarintBytes →
        get_varint bytes offset = get_varint bytes' offset) ∧
    ∀ value : ℕ, get_varint bytes 0 = some (value, bytes.length) →
      value < 2 ^ 64 ∧ (bytes = put_varint [] value ↔ ShortestForm bytes) := by
  refine ⟨fun before value => ?_, fun bytes' offset h => readLeb128_congr h,
    fun value h => ⟨(readLeb128_bounds (by decide) h).1, get_varint_canonical_iff h⟩⟩
  have hdrop : (before ++ put_varint [] value.toNat ++ bytes).drop before.length =
      leb128 (kFhexMaxVarintBytes - 1) value.toNat ++ bytes := by
    rw [List.append_assoc, List.drop_left]
    rfl
  exact get_varint_spec value.toNat_lt hdrop

/-- Each part where it has something to say: 300 between other bytes, and 128 read from the
bytes it is written as. -/
theorem varint_one_encoding_iff_onehundredtwentyeight :
    get_varint ([7] ++ put_varint [] (300 : UInt64).toNat ++ [9]) 1 = some (300, 3) ∧
      ([0x80, 0x01] = put_varint [] 128 ↔ ShortestForm [0x80, 0x01]) :=
  ⟨(varint_one_encoding_iff [9]).1 [7] 300,
    ((varint_one_encoding_iff [0x80, 0x01]).2.2 128 (by decide)).2⟩

theorem zero_has_two_encodings :
    get_varint [0x80, 0x00] 0 = some (0, 2) ∧ get_varint [0x00] 0 = some (0, 1) ∧
      ([0x80, 0x00] : Bytes) ≠ put_varint [] 0 := by
  decide

end Fhetch
