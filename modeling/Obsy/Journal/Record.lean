import Obsy.Journal.Marks

/-!
# WAL records

What the journal writes for one accepted export, and how a record reads back.

* `TenantId`: a validated tenant; `TenantId.parse` checks it.
* `AppendItem`: an append in the writer's channel.  An item that names a tenant fits the
  record limit, which the enqueue functions check before they hand it over.
* `frameRecord`: `length | checksum | data`.  A tenant record's data is
  `LGY3 | kind | tenant length | tenant | payload` (`tenantRecordData`), and
  `decodeTenantRecord` reads it back (`decodeTenantRecord_tenantRecordData`).
* `Codec`: compression and the normalization of an export, as the ingest and the replay
  call them.
-/

namespace Obsy

namespace Journal

open Bytes

/-! ### Tenants -/

/-- `MAX_TENANT_ID_BYTES`. -/
def maxTenantIdBytes : ℕ := 64

/-- The characters a tenant id is made of. -/
def tenantChar (c : Char) : Bool := c.isAlphanum || c == '_' || c == '-'

/-- A validated tenant identifier. -/
structure TenantId where
  /-- The identifier as text. -/
  raw : String
  nonempty : raw ≠ ""
  short : raw.utf8ByteSize ≤ maxTenantIdBytes
  allowed : raw.toList.all tenantChar = true
deriving DecidableEq

/-- Why a text is not a tenant id. -/
inductive TenantError
  | empty
  /-- The id has this many bytes. -/
  | tooLong (bytes : ℕ)
  /-- The id contains an unsupported character. -/
  | unsupported (invalid : Char)
deriving DecidableEq

/-- Validate a tenant id. -/
def TenantId.parse (raw : String) : Except TenantError TenantId :=
  if h₁ : raw = "" then .error .empty
  else if h₂ : maxTenantIdBytes < raw.utf8ByteSize then .error (.tooLong raw.utf8ByteSize)
  else if h₃ : raw.toList.all tenantChar = true then
    .ok ⟨raw, h₁, Nat.le_of_not_lt h₂, h₃⟩
  else .error (.unsupported ((raw.toList.find? fun c => !tenantChar c).getD default))

@[simp] theorem TenantId.parse_raw (tenant : TenantId) : parse tenant.raw = .ok tenant := by
  simp only [parse, dif_neg tenant.nonempty, dif_neg (Nat.not_lt.2 tenant.short),
    dif_pos tenant.allowed]

def TenantId.bytes (tenant : TenantId) : List UInt8 := tenant.raw.toByteArray.data.toList

theorem TenantId.length_bytes (tenant : TenantId) :
    tenant.bytes.length = tenant.raw.utf8ByteSize := by
  rw [bytes, Array.length_toList, ByteArray.size_data, String.size_toByteArray]

theorem TenantId.length_bytes_lt (tenant : TenantId) : tenant.bytes.length < 256 := by
  have h := tenant.short
  rw [length_bytes]
  simp only [maxTenantIdBytes] at h
  omega

def utf8Text (bytes : List UInt8) : Option String := String.fromUTF8? ⟨bytes.toArray⟩

@[simp] theorem utf8Text_bytes (tenant : TenantId) : utf8Text tenant.bytes = some tenant.raw := by
  have h : (⟨tenant.bytes.toArray⟩ : ByteArray) = tenant.raw.toByteArray := by
    simp only [TenantId.bytes, Array.toArray_toList]
  rw [utf8Text, h, String.fromUTF8?, dif_pos tenant.raw.isValidUTF8]
  rfl

/-! ### Tenant records -/

/-- `RECORD_HEADER_SIZE`. -/
def recordHeaderSize : ℕ := 8

/-- `MAX_RECORD_BYTES`. -/
def maxRecordBytes : ℕ := 256 * 1024 * 1024

/-- `TENANT_RECORD_MAGIC`: `LGY3`. -/
def tenantRecordMagic : List UInt8 := [76, 71, 89, 51]

/-- `TENANT_RECORD_PREFIX_SIZE`. -/
def tenantRecordPrefixSize : ℕ := 4 + 2

/-- `TENANT_RECORD_KIND_LOGS`, the kind nothing writes any more. -/
def tenantRecordKindLogs : UInt8 := 0

/-- `TENANT_RECORD_KIND_TRACES`. -/
def tenantRecordKindTraces : UInt8 := 1

/-- `TENANT_RECORD_KIND_OTLP_LOGS`. -/
def tenantRecordKindOtlpLogs : UInt8 := 2

/-- `TENANT_RECORD_KIND_OTLP_METRICS`. -/
def tenantRecordKindOtlpMetrics : UInt8 := 3

/-- The length of a tenant record before its header. -/
def framedRecordLen (tenant : TenantId) (payload : List UInt8) : ℕ :=
  tenantRecordPrefixSize + tenant.bytes.length + payload.length

/-- `LGY3 | kind | tenant length | tenant | payload`. -/
def tenantRecordData (tenant : TenantId) (kind : UInt8) (payload : List UInt8) : List UInt8 :=
  tenantRecordMagic ++ ([kind, UInt8.ofNat tenant.bytes.length] ++ (tenant.bytes ++ payload))

@[simp] theorem length_tenantRecordData (tenant : TenantId) (kind : UInt8)
    (payload : List UInt8) :
    (tenantRecordData tenant kind payload).length = framedRecordLen tenant payload := by
  simp only [tenantRecordData, tenantRecordMagic, framedRecordLen, tenantRecordPrefixSize,
    List.length_append, List.length_cons, List.length_nil]
  omega

/-- Why a record that starts as a tenant record is not one. -/
inductive TenantRecordError
  /-- The record ends before its tenant does. -/
  | truncated
  | nonUtf8
  /-- The tenant does not parse. -/
  | tenant (error : TenantError)
deriving DecidableEq

/-- Who wrote a record, its kind and its payload; nothing when it is no tenant record. -/
def decodeTenantRecord (data : List UInt8) :
    Except TenantRecordError (Option (TenantId × UInt8 × List UInt8)) :=
  if data.take 4 ≠ tenantRecordMagic then .ok none
  else if data.length < tenantRecordPrefixSize then .error .truncated
  else
    let kind := data.getD 4 0
    let tenantLen := (data.getD 5 0).toNat
    let tenantEnd := tenantRecordPrefixSize + tenantLen
    if data.length < tenantEnd then .error .truncated
    else
      match utf8Text (slice data tenantRecordPrefixSize tenantLen) with
      | none => .error .nonUtf8
      | some raw =>
        match TenantId.parse raw with
        | .error error => .error (.tenant error)
        | .ok tenant => .ok (some (tenant, kind, data.drop tenantEnd))

/-- **A tenant record reads back as written.** -/
theorem decodeTenantRecord_tenantRecordData (tenant : TenantId) (kind : UInt8)
    (payload : List UInt8) :
    decodeTenantRecord (tenantRecordData tenant kind payload) =
      .ok (some (tenant, kind, payload)) := by
  have hlen := length_tenantRecordData tenant kind payload
  have hmagic : (tenantRecordData tenant kind payload).take 4 = tenantRecordMagic := by
    simp [tenantRecordData, tenantRecordMagic]
  have hkind : (tenantRecordData tenant kind payload).getD 4 0 = kind := by
    simp [tenantRecordData, tenantRecordMagic]
  have htenantLen : ((tenantRecordData tenant kind payload).getD 5 0).toNat =
      tenant.bytes.length := by
    have h := tenant.length_bytes_lt
    simp only [tenantRecordData, tenantRecordMagic, List.cons_append, List.nil_append,
      List.getD_cons_succ, List.getD_cons_zero, UInt8.toNat_ofNat']
    omega
  have htenant : slice (tenantRecordData tenant kind payload) tenantRecordPrefixSize
      tenant.bytes.length = tenant.bytes := by
    rw [tenantRecordData, ← List.append_assoc]
    exact slice_append rfl rfl
  have hpayload : (tenantRecordData tenant kind payload).drop
      (tenantRecordPrefixSize + tenant.bytes.length) = payload := by
    rw [tenantRecordData, ← List.append_assoc, ← List.append_assoc]
    exact List.drop_left' (by
      simp [tenantRecordMagic, tenantRecordPrefixSize]
      omega)
  have hprefix : ¬ framedRecordLen tenant payload < tenantRecordPrefixSize := by
    simp only [framedRecordLen]; omega
  have hend : ¬ framedRecordLen tenant payload <
      tenantRecordPrefixSize + tenant.bytes.length := by
    simp only [framedRecordLen]; omega
  simp only [decodeTenantRecord, hmagic, ne_eq, not_true_eq_false, if_false, hlen, hprefix,
    htenantLen, hend, htenant, utf8Text_bytes, TenantId.parse_raw, hkind, hpayload]

/-- A mark is no tenant record and a tenant record is no mark. -/
theorem decodeMark_tenantRecordData (tenant : TenantId) (kind : UInt8) (payload : List UInt8) :
    decodeMark (tenantRecordData tenant kind payload) = none := by
  refine decodeMark_eq_none ?_
  simp [tenantRecordData, tenantRecordMagic, markRecordMagic]

/-! ### Framing -/

variable (C : Checksum)

/-- `length | checksum | data`. -/
def frameRecord (data : List UInt8) : List UInt8 :=
  leBytes 4 data.length ++ (leBytes 4 (C.hash data).toNat ++ data)

variable {C}

@[simp] theorem length_frameRecord (data : List UInt8) :
    (frameRecord C data).length = recordHeaderSize + data.length := by
  simp only [frameRecord, List.length_append, length_leBytes, recordHeaderSize]
  omega

theorem frameRecord_len {data rest : List UInt8} (h : data.length ≤ maxRecordBytes) :
    leNat ((frameRecord C data ++ rest).take 4) = data.length := by
  have hlt : data.length < 256 ^ 4 := by
    simp only [maxRecordBytes] at h; omega
  rw [frameRecord, List.append_assoc, List.take_left' (length_leBytes 4 _), leNat_leBytes hlt]

theorem frameRecord_crc (data rest : List UInt8) :
    leNat (slice (frameRecord C data ++ rest) 4 4) = (C.hash data).toNat := by
  rw [frameRecord, List.append_assoc, List.append_assoc,
    slice_append (length_leBytes 4 _) (length_leBytes 4 _),
    leNat_leBytes (C.hash data).toNat_lt]

theorem frameRecord_data (data rest : List UInt8) :
    slice (frameRecord C data ++ rest) recordHeaderSize data.length = data := by
  rw [frameRecord, ← List.append_assoc, List.append_assoc]
  exact slice_append (by simp [recordHeaderSize]) rfl

/-! ### Exports and appends -/

/-- What the ingest and the replay do to an export outside the journal: compression, and the
decoding and normalization of each signal's request.  `none` is an empty request. -/
structure Codec (Entry Span Sample : Type) where
  zstdEncode : List UInt8 → Except String (List UInt8)
  zstdDecode : List UInt8 → Except String (List UInt8)
  /-- What was compressed decompresses. -/
  zstdDecode_zstdEncode : ∀ data payload, zstdEncode data = .ok payload →
    zstdDecode payload = .ok data
  /-- An encoded log export as entries. -/
  normalizeLogs : List UInt8 → Except String (Option (List Entry))
  normalizeTraces : TenantId → List UInt8 → Except String (List Span)
  /-- An encoded metric export as samples. -/
  normalizeMetrics : TenantId → List UInt8 → Except String (Option (List Sample))

section Append

variable {Entry Span Sample : Type}

/-- Decompress a payload, bounded by the record limit. -/
def decompressPayload (codec : Codec Entry Span Sample) (payload : List UInt8) :
    Except String (List UInt8) :=
  match codec.zstdDecode payload with
  | .error error => .error error
  | .ok out =>
    if maxRecordBytes < out.length then
      .error "journal payload decompresses past the record limit"
    else .ok out

/-- An append the writer takes from its channel. -/
structure AppendItem (Entry Span Sample : Type) where
  /-- The record's kind. -/
  kind : UInt8
  /-- The compressed export. -/
  payload : List UInt8
  /-- Whose record it is; none for a mark with nothing under it. -/
  tenant : Option TenantId
  /-- The log rows the export holds. -/
  entries : List Entry
  traces : List Span
  /-- The samples the export holds. -/
  metricSamples : List Sample
  /-- The mark that rides the append. -/
  mark : Option CollectMark
  fits : ∀ owner, tenant = some owner → framedRecordLen owner payload ≤ maxRecordBytes

/-- Why an append is not handed over. -/
inductive EnqueueError
  /-- The export could not be compressed. -/
  | compress (error : String)
  /-- The framed record has this many bytes. -/
  | tooLarge (framedLen : ℕ)

/-- Check the record limit and hand an append over. -/
def enqueueAppend (kind : UInt8) (payload : List UInt8) (tenant : Option TenantId)
    (entries : List Entry) (traces : List Span) (metricSamples : List Sample)
    (mark : Option CollectMark) : Except EnqueueError (AppendItem Entry Span Sample) :=
  let framedLen := (tenant.map fun owner => framedRecordLen owner payload).getD 0
  if h : maxRecordBytes < framedLen then .error (.tooLarge framedLen)
  else .ok
    { kind, payload, tenant, entries, traces, metricSamples, mark,
      fits := fun owner howner => by
        subst howner
        exact Nat.le_of_not_lt h }

variable (codec : Codec Entry Span Sample)

/-- Compress an export and enqueue it as a record of `kind`. -/
def enqueueExport (kind : UInt8) (tenant : TenantId) (data : List UInt8) (entries : List Entry)
    (traces : List Span) (metricSamples : List Sample) (mark : Option CollectMark) :
    Except EnqueueError (AppendItem Entry Span Sample) :=
  match codec.zstdEncode data with
  | .error error => .error (.compress error)
  | .ok payload => enqueueAppend kind payload (some tenant) entries traces metricSamples mark

/-- `Journal::enqueue_otlp_logs`. -/
def enqueueOtlpLogs (tenant : TenantId) (data : List UInt8) (entries : List Entry)
    (mark : Option CollectMark) : Except EnqueueError (AppendItem Entry Span Sample) :=
  enqueueExport codec tenantRecordKindOtlpLogs tenant data entries [] [] mark

/-- `Journal::enqueue_trace`. -/
def enqueueTrace (tenant : TenantId) (data : List UInt8) (spans : List Span)
    (mark : Option CollectMark) : Except EnqueueError (AppendItem Entry Span Sample) :=
  enqueueExport codec tenantRecordKindTraces tenant data [] spans [] mark

/-- `Journal::enqueue_metrics`, and one record of `enqueue_metrics_reserved_batch`. -/
def enqueueMetrics (tenant : TenantId) (data : List UInt8) (samples : List Sample)
    (mark : Option CollectMark) : Except EnqueueError (AppendItem Entry Span Sample) :=
  enqueueExport codec tenantRecordKindOtlpMetrics tenant data [] [] samples mark

/-- `Journal::enqueue_mark`: a number to remember with nothing to store under it. -/
def enqueueMark (mark : CollectMark) : Except EnqueueError (AppendItem Entry Span Sample) :=
  enqueueAppend tenantRecordKindOtlpLogs [] none [] [] [] (some mark)

/-- The appends the ingest hands over: an export within the limit a replayed payload has, with
the rows that normalizing it gave, or a mark on its own. -/
inductive Live : AppendItem Entry Span Sample → Prop
  | logs {tenant data entries mark item} (hdata : data.length ≤ maxRecordBytes)
      (hrows : codec.normalizeLogs data = .ok (some entries))
      (henqueue : enqueueOtlpLogs codec tenant data entries mark = .ok item) : Live item
  | traces {tenant data spans mark item} (hdata : data.length ≤ maxRecordBytes)
      (hrows : codec.normalizeTraces tenant data = .ok spans)
      (henqueue : enqueueTrace codec tenant data spans mark = .ok item) : Live item
  | metrics {tenant data samples mark item} (hdata : data.length ≤ maxRecordBytes)
      (hrows : codec.normalizeMetrics tenant data = .ok (some samples))
      (henqueue : enqueueMetrics codec tenant data samples mark = .ok item) : Live item
  | mark {mark item} (henqueue : enqueueMark mark = .ok item) : Live item

variable {codec}

theorem enqueueAppend_eq_ok {kind : UInt8} {payload : List UInt8} {tenant : Option TenantId}
    {entries : List Entry} {traces : List Span} {metricSamples : List Sample}
    {mark : Option CollectMark} {item : AppendItem Entry Span Sample}
    (h : enqueueAppend kind payload tenant entries traces metricSamples mark = .ok item) :
    item.kind = kind ∧ item.payload = payload ∧ item.tenant = tenant ∧ item.entries = entries ∧
      item.traces = traces ∧ item.metricSamples = metricSamples ∧ item.mark = mark := by
  simp only [enqueueAppend] at h
  split_ifs at h
  cases h
  exact ⟨rfl, rfl, rfl, rfl, rfl, rfl, rfl⟩

theorem enqueueExport_eq_ok {kind : UInt8} {tenant : TenantId} {data : List UInt8}
    {entries : List Entry} {traces : List Span} {metricSamples : List Sample}
    {mark : Option CollectMark} {item : AppendItem Entry Span Sample}
    (hdata : data.length ≤ maxRecordBytes)
    (h : enqueueExport codec kind tenant data entries traces metricSamples mark = .ok item) :
    item.kind = kind ∧ item.tenant = some tenant ∧ item.entries = entries ∧
      item.traces = traces ∧ item.metricSamples = metricSamples ∧
      decompressPayload codec item.payload = .ok data := by
  simp only [enqueueExport] at h
  split at h
  · cases h
  · rename_i payload hpayload
    obtain ⟨hkind, hpay, htenant, hentries, htraces, hsamples, -⟩ := enqueueAppend_eq_ok h
    refine ⟨hkind, htenant, hentries, htraces, hsamples, ?_⟩
    rw [hpay, decompressPayload, codec.zstdDecode_zstdEncode _ _ hpayload]
    simp only [if_neg (Nat.not_lt.2 hdata)]

end Append

end Journal

end Obsy
