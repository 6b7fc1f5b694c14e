import ShardLog.Foundation.AssocMap
import ShardLog.Foundation.Integers
import ShardLog.Foundation.Runs
import ShardLog.Types

/-!
# Native protocol - grouped batches

The payload of a native append: a header, the tenant, and the records grouped
by stream with the labels written once per stream.  Two readers are modelled:
the borrowed view used by the ingest path and the reader of owned events.
-/

namespace ShardLog.Native

open ByteReader Utf8 Runs

/-! ## Cursor -/

/-- Error of the native protocol. -/
structure NativeProtocolError where
  message : String
deriving DecidableEq, Repr

abbrev NativeResult := Except NativeProtocolError

/-- Readers over a native payload. -/
abbrev Cursor := Reader NativeProtocolError

/-- The next `length` bytes. -/
def Cursor.bytes (length : Nat) (field : String) : Cursor Bytes := fun s =>
  if length ≤ s.rest.length then .ok (s.rest.take length, ⟨s.cursor + length, s.rest.drop length⟩)
  else .error ⟨"native " ++ field ++ " is truncated"⟩

/-- A little-endian integer of `width` bytes. -/
def Cursor.unsigned (width : Nat) (field : String) : Cursor Nat := do
  let bytes ← Cursor.bytes width field
  pure (Integers.fromLeBytes bytes)

def Cursor.u16 (field : String) : Cursor Nat := Cursor.unsigned 2 field

def Cursor.u32 (field : String) : Cursor Nat := Cursor.unsigned 4 field

def Cursor.u64 (field : String) : Cursor Nat := Cursor.unsigned 8 field

/-- `std::str::from_utf8` with the error of the cursor. -/
def textOf (field : String) (bytes : Bytes) : NativeResult Str :=
  match fromUtf8 bytes with
  | some text => .ok text
  | none => .error ⟨"native " ++ field ++ " is not UTF-8"⟩

def Cursor.string (length : Nat) (field : String) : Cursor Str := do
  let bytes ← Cursor.bytes length field
  ofResult (textOf field bytes)

def Cursor.string16 (field : String) : Cursor Str := do
  let length ← Cursor.u16 field
  Cursor.string length field

def Cursor.finish : Cursor Unit := do
  let state ← input
  require state.rest.isEmpty ⟨"native payload contains trailing bytes"⟩

/-! ## Header -/

def batchMagic : Bytes := utf8 "SLB1".toList

def batchHeaderBytes : Nat := 16

def maxTenantBytes : Nat := 1024

def maxLabelsPerStream : Nat := 256

def maxMetadataPerEntry : Nat := 256

def linearNativeKeyLimit : Nat := 16

def maxNativeFrameBytes : Nat := 16 * 1024 * 1024

def labelPrefix : Str := "resource.loki.label.".toList

def metadataPrefix : Str := "attr.loki.metadata.".toList

def tenantField : Str := "resource.loki.tenant".toList

/-- Information read from the header of a batch. -/
structure NativeBatchInfo where
  tenant : Str
  recordCount : Nat
deriving DecidableEq, Repr

/-- Text of the tenant, which must not be empty. -/
def tenantOf (bytes : Bytes) : NativeResult Str :=
  match fromUtf8 bytes with
  | some tenant =>
    if tenant = [] then .error ⟨"native log batch tenant must not be empty"⟩ else .ok tenant
  | none => .error ⟨"native log batch tenant is not UTF-8"⟩

/-- Read the bounded header without decoding the records. -/
def inspectNativeLogBatch (payload : Bytes) : NativeResult NativeBatchInfo := do
  ensure (batchHeaderBytes ≤ payload.length) ⟨"native log batch is shorter than its header"⟩
  ensure (payload.take 4 = batchMagic) ⟨"invalid native log batch magic"⟩
  ensure (slice payload ⟨12, 16⟩ = [0, 0, 0, 0]) ⟨"native log batch reserved bytes must be zero"⟩
  let tenantLength := Integers.fromLeBytes (slice payload ⟨4, 6⟩)
  ensure (tenantLength ≤ maxTenantBytes) ⟨"native log batch tenant exceeds its limit"⟩
  ensure (batchHeaderBytes + tenantLength ≤ payload.length) ⟨"native log batch tenant is truncated"⟩
  let tenant ← tenantOf (slice payload ⟨batchHeaderBytes, batchHeaderBytes + tenantLength⟩)
  .ok ⟨tenant, Integers.fromLeBytes (slice payload ⟨8, 12⟩)⟩

/-- Number of streams declared by the header. -/
def declaredStreams (payload : Bytes) : Nat := Integers.fromLeBytes (slice payload ⟨6, 8⟩)

/-- The cursor after header and tenant. -/
def bodyInput (payload : Bytes) (info : NativeBatchInfo) : Input :=
  ⟨batchHeaderBytes + (utf8 info.tenant).length,
    payload.drop (batchHeaderBytes + (utf8 info.tenant).length)⟩

/-! ## Stream and entry headers -/

/-- One step of the stream hash. -/
def cohortHashByte (hash byte : UInt64) : UInt64 := (hash ^^^ byte) * 0x00000100000001b3

/-- Hash one label into the cohort of its stream. -/
def updateCohortHash (hash : UInt64) (key value : Str) : UInt64 :=
  cohortHashByte ((utf8 key ++ [0xff] ++ utf8 value).foldl
    (fun hash (byte : UInt8) => cohortHashByte hash byte.toUInt64) hash) 0xfe

def initialCohortHash : UInt64 := 0xcbf29ce484222325

/-- Label and entry counts of a stream.  `observed` records precede it. -/
def readStreamHead (recordCount observed : Nat) : Cursor (Nat × Nat) := do
  let labelCount ← Cursor.u16 "label count"
  require (decide (labelCount ≤ maxLabelsPerStream)) ⟨"native stream contains too many labels"⟩
  let reserved ← Cursor.u16 "stream reserved bytes"
  require (reserved == 0) ⟨"native stream reserved bytes must be zero"⟩
  let entryCount ← Cursor.u32 "entry count"
  require (decide (observed + entryCount ≤ recordCount))
    ⟨"native stream counts exceed declared record count"⟩
  pure (labelCount, entryCount)

/-- What precedes the metadata of an entry. -/
structure EntryHead where
  timestampUnixNanos : UInt64
  message : Str
  metadataCount : Nat

def readEntryHead : Cursor EntryHead := do
  let timestamp ← Cursor.u64 "timestamp"
  require (decide (timestamp < 2 ^ 63)) ⟨"native log timestamp exceeds the signed i64 range"⟩
  let lineLength ← Cursor.u32 "line length"
  let metadataCount ← Cursor.u16 "metadata count"
  require (decide (metadataCount ≤ maxMetadataPerEntry))
    ⟨"native entry contains too much structured metadata"⟩
  let reserved ← Cursor.u16 "entry reserved bytes"
  require (reserved == 0) ⟨"native entry reserved bytes must be zero"⟩
  let message ← Cursor.string lineLength "log line"
  pure ⟨UInt64.ofNat timestamp, message, metadataCount⟩

/-- The message of a batch whose streams hold another number of records. -/
def recordCountMismatch (observed declared : Nat) : NativeProtocolError :=
  ⟨"native batch decoded " ++ toString observed ++ " records, expected " ++ toString declared⟩

/-- Whether a key was seen: large groups keep a set of keys, small ones are scanned, with the given
result. -/
def noteKey (large : Option (List Str)) (scanned : Bool) (key : Str) : Bool × Option (List Str) :=
  match large with
  | some keys => (keys.contains key, some (key :: keys))
  | none => (scanned, none)

/-- Large groups start with an empty set of keys. -/
def keySet (count : Nat) : Option (List Str) :=
  if linearNativeKeyLimit < count then some [] else none

/-! ## The borrowed view -/

structure NativeFieldView where
  key : Str
  rawKey : Str
  value : Str
deriving DecidableEq, Repr

structure NativeStreamView where
  labels : List NativeFieldView
  compressionCohort : CompressionCohortId
deriving DecidableEq, Repr

structure NativeMetadataView where
  keyId : Nat
  value : Str
deriving DecidableEq, Repr

structure NativeRecordView where
  streamId : Nat
  timestampUnixNanos : UInt64
  message : Str
  metadata : IndexRange
deriving DecidableEq, Repr

structure NativeMetadataKey where
  raw : Str
  normalized : Str
deriving DecidableEq, Repr

/-- Interned metadata keys; from the seventeenth key on they are also hashed. -/
structure NativeMetadataKeys where
  entries : List NativeMetadataKey := []
  ids : Option (List (Str × Nat)) := none
deriving DecidableEq, Repr

def NativeMetadataKeys.raws (keys : NativeMetadataKeys) : List Str := keys.entries.map (·.raw)

/-- The identifier of a key that is already known. -/
def NativeMetadataKeys.existing (keys : NativeMetadataKeys) (key : Str) : Option Nat :=
  match keys.ids with
  | some ids => AssocMap.get ids key
  | none => AssocMap.position keys.raws key

/-- The hash map when one more key is added. -/
def NativeMetadataKeys.hashed (keys : NativeMetadataKeys) : Option (List (Str × Nat)) :=
  if keys.entries.length = linearNativeKeyLimit then some keys.raws.zipIdx else keys.ids

def NativeMetadataKeys.intern (keys : NativeMetadataKeys) (key : Str) : Nat × NativeMetadataKeys :=
  match keys.existing key with
  | some id => (id, keys)
  | none =>
    let id := keys.entries.length
    (id, ⟨keys.entries ++ [⟨key, metadataPrefix ++ key⟩],
      keys.hashed.map fun ids => AssocMap.insert ids key id⟩)

/-- Validated view over one grouped batch. -/
structure NativeBatchView where
  tenant : Str
  streams : List NativeStreamView := []
  records : List NativeRecordView := []
  metadata : List NativeMetadataView := []
  metadataKeys : NativeMetadataKeys := {}
deriving DecidableEq, Repr

def emptyOrDuplicateLabel : NativeProtocolError :=
  ⟨"native stream contains an empty or duplicate label"⟩

def emptyOrDuplicateMetadata : NativeProtocolError :=
  ⟨"native entry contains empty or duplicate metadata"⟩

def readViewLabels : Nat → Option (List Str) → List NativeFieldView → UInt64 →
    Cursor (List NativeFieldView × UInt64)
  | 0, _, labels, hash => pure (labels, hash)
  | count + 1, large, labels, hash => do
      let key ← Cursor.string16 "label key"
      let value ← Cursor.string16 "label value"
      let noted := noteKey large (labels.any fun field => field.rawKey == key) key
      require (!(key.isEmpty || noted.1)) emptyOrDuplicateLabel
      readViewLabels count noted.2 (labels ++ [⟨labelPrefix ++ key, key, value⟩])
        (updateCohortHash hash key value)

/-- Metadata of an entry that started at `start`. -/
def readViewMetadata (start : Nat) : Nat → Option (List Str) → List NativeMetadataView →
    NativeMetadataKeys → Cursor (List NativeMetadataView × NativeMetadataKeys)
  | 0, _, metadata, keys => pure (metadata, keys)
  | count + 1, large, metadata, keys => do
      let key ← Cursor.string16 "metadata key"
      let value ← Cursor.string16 "metadata value"
      let interned := keys.intern key
      let noted := noteKey large
        ((metadata.drop start).any fun field => field.keyId == interned.1) key
      require (!(key.isEmpty || noted.1)) emptyOrDuplicateMetadata
      readViewMetadata start count noted.2 (metadata ++ [⟨interned.1, value⟩]) interned.2

def readViewEntry (streamId : Nat) (view : NativeBatchView) : Cursor NativeBatchView := do
  let head ← readEntryHead
  let start := view.metadata.length
  let read ← readViewMetadata start head.metadataCount (keySet head.metadataCount) view.metadata
    view.metadataKeys
  pure { view with
    records := view.records ++
      [⟨streamId, head.timestampUnixNanos, head.message, ⟨start, read.1.length⟩⟩]
    metadata := read.1
    metadataKeys := read.2 }

def readViewEntries (streamId : Nat) : Nat → NativeBatchView → Cursor NativeBatchView
  | 0, view => pure view
  | count + 1, view => do
      let view ← readViewEntry streamId view
      readViewEntries streamId count view

def readViewStream (recordCount streamId : Nat) (view : NativeBatchView) :
    Cursor NativeBatchView := do
  let head ← readStreamHead recordCount view.records.length
  let labels ← readViewLabels head.1 (keySet head.1) [] initialCohortHash
  readViewEntries streamId head.2 { view with streams := view.streams ++ [⟨labels.1, labels.2⟩] }

def readViewStreams (recordCount : Nat) : Nat → Nat → NativeBatchView → Cursor NativeBatchView
  | 0, _, view => pure view
  | count + 1, streamId, view => do
      let view ← readViewStream recordCount streamId view
      readViewStreams recordCount count (streamId + 1) view

/-- All streams of a view, which must hold the declared records and end the
payload. -/
def readView (tenant : Str) (recordCount streamCount : Nat) : Cursor NativeBatchView := do
  let view ← readViewStreams recordCount streamCount 0 ⟨tenant, [], [], [], {}⟩
  require (view.records.length == recordCount) (recordCountMismatch view.records.length recordCount)
  Cursor.finish
  pure view

/-- Validate a grouped batch and describe it. -/
def decodeNativeLogBatchView (payload : Bytes) : NativeResult NativeBatchView := do
  let info ← inspectNativeLogBatch payload
  ensure (info.recordCount ≤ payload.length / 16)
    ⟨"native batch record count exceeds its bounded payload"⟩
  ((readView info.tenant info.recordCount (declaredStreams payload)).run
    (bodyInput payload info)).map Prod.fst

/-! ### Records of a view -/

def NativeBatchView.recordCohort (view : NativeBatchView) (index : Nat) :
    Option CompressionCohortId := do
  let record ← view.records[index]?
  let stream ← view.streams[record.streamId]?
  some stream.compressionCohort

def NativeBatchView.recordTimestamp (view : NativeBatchView) (index : Nat) : Option UInt64 :=
  view.records[index]?.map (·.timestampUnixNanos)

def NativeBatchView.recordMessage (view : NativeBatchView) (index : Nat) : Option Str :=
  view.records[index]?.map (·.message)

def NativeBatchView.recordFieldCount (view : NativeBatchView) (index : Nat) : Option Nat := do
  let record ← view.records[index]?
  let stream ← view.streams[record.streamId]?
  some (1 + stream.labels.length + (record.metadata.stop - record.metadata.start))

/-- A metadata item with its normalized key. -/
def NativeBatchView.metadataPair (view : NativeBatchView) (item : NativeMetadataView) :
    Option (Str × Str) :=
  view.metadataKeys.entries[item.keyId]?.map fun key => (key.normalized, item.value)

def NativeBatchView.recordField (view : NativeBatchView) (recordIndex index : Nat) :
    Option (Str × Str) := do
  let record ← view.records[recordIndex]?
  if index = 0 then some (tenantField, view.tenant)
  else do
    let stream ← view.streams[record.streamId]?
    match stream.labels[index - 1]? with
    | some label => some (label.key, label.value)
    | none =>
      let position := record.metadata.start + (index - (1 + stream.labels.length))
      if record.metadata.stop ≤ position then none
      else view.metadata[position]?.bind view.metadataPair

/-- The fields visited after tenant and labels. -/
def NativeBatchView.visitedMetadata (view : NativeBatchView) (range : IndexRange) :
    List (LogDbResult (Str × Str)) :=
  if range.start ≤ range.stop ∧ range.stop ≤ view.metadata.length then
    (slice view.metadata range).map fun item =>
      match view.metadataPair item with
      | some pair => .ok pair
      | none => .error (.invalidBlockEncoding "validated native metadata key is out of range")
  else [.error (.invalidBlockEncoding "validated native metadata range is out of bounds")]

/-- The sequence visited by `try_for_each_record_field`. -/
def NativeBatchView.visitedRecordFields (view : NativeBatchView) (recordIndex : Nat) :
    List (LogDbResult (Str × Str)) :=
  match view.records[recordIndex]? with
  | none => [.error (.invalidBlockEncoding "validated native record index is out of range")]
  | some record =>
    match view.streams[record.streamId]? with
    | none => [.error (.invalidBlockEncoding "validated native stream index is out of range")]
    | some stream =>
      [.ok (tenantField, view.tenant)] ++
        stream.labels.map (fun label => .ok (label.key, label.value)) ++
        view.visitedMetadata record.metadata

/-! ## The reader of owned events -/

def labelField (key value : Str) : MetadataField := ⟨labelPrefix ++ key, value⟩

def metadataField (key value : Str) : MetadataField := ⟨metadataPrefix ++ key, value⟩

def readEventLabels : Nat → List Str → List MetadataField → UInt64 →
    Cursor (List MetadataField × UInt64)
  | 0, _, fields, hash => pure (fields, hash)
  | count + 1, keys, fields, hash => do
      let key ← Cursor.string16 "label key"
      let value ← Cursor.string16 "label value"
      require (!(key.isEmpty || keys.contains key)) emptyOrDuplicateLabel
      readEventLabels count (key :: keys) (fields ++ [labelField key value])
        (updateCohortHash hash key value)

def readEventMetadata : Nat → List Str → List MetadataField → Cursor (List MetadataField)
  | 0, _, fields => pure fields
  | count + 1, keys, fields => do
      let key ← Cursor.string16 "metadata key"
      let value ← Cursor.string16 "metadata value"
      require (!(key.isEmpty || keys.contains key)) emptyOrDuplicateMetadata
      readEventMetadata count (key :: keys) (fields ++ [metadataField key value])

/-- Values shared between neighbouring events of a stream. -/
structure EventCache where
  previousLine : Option Str := none
  previousSingleMetadata : Option (Str × Str × List MetadataField) := none

/-- The line, shared with the previous event when equal. -/
def EventCache.line (cache : EventCache) (observed : Str) : Str × EventCache :=
  match cache.previousLine with
  | some previous =>
    if previous = observed then (previous, cache)
    else (observed, { cache with previousLine := some observed })
  | none => (observed, { cache with previousLine := some observed })

/-- Fields with one metadata item, shared with the previous such event. -/
def EventCache.single (cache : EventCache) (labelFields : List MetadataField) (key value : Str) :
    List MetadataField × EventCache :=
  let built := labelFields ++ [metadataField key value]
  let kept : EventCache := { cache with previousSingleMetadata := some (key, value, built) }
  match cache.previousSingleMetadata with
  | some (previousKey, previousValue, fields) =>
    if previousKey = key ∧ previousValue = value then (fields, cache) else (built, kept)
  | none => (built, kept)

def readEventFields (labelFields : List MetadataField) (cache : EventCache) (metadataCount : Nat) :
    Cursor (List MetadataField × EventCache) :=
  match metadataCount with
  | 0 => pure (labelFields, cache)
  | 1 => do
      let key ← Cursor.string16 "metadata key"
      let value ← Cursor.string16 "metadata value"
      require (!key.isEmpty) ⟨"native entry contains empty metadata"⟩
      pure (cache.single labelFields key value)
  | count => do
      let fields ← readEventMetadata count [] labelFields
      pure (fields, cache)

def readEvent (labelFields : List MetadataField) (cohort : CompressionCohortId)
    (cache : EventCache) : Cursor (OtlpLogEvent × EventCache) := do
  let head ← readEntryHead
  let line := cache.line head.message
  let fields ← readEventFields labelFields line.2 head.metadataCount
  pure (⟨head.timestampUnixNanos, line.1, fields.1, cohort⟩, fields.2)

def readEvents (labelFields : List MetadataField) (cohort : CompressionCohortId) :
    Nat → EventCache → List OtlpLogEvent → Cursor (List OtlpLogEvent)
  | 0, _, events => pure events
  | count + 1, cache, events => do
      let read ← readEvent labelFields cohort cache
      readEvents labelFields cohort count read.2 (events ++ [read.1])

def readEventStream (tenant : Str) (recordCount : Nat) (events : List OtlpLogEvent) :
    Cursor (List OtlpLogEvent) := do
  let head ← readStreamHead recordCount events.length
  let labels ← readEventLabels head.1 [] [⟨tenantField, tenant⟩] initialCohortHash
  readEvents labels.1 labels.2 head.2 {} events

def readEventStreams (tenant : Str) (recordCount : Nat) :
    Nat → List OtlpLogEvent → Cursor (List OtlpLogEvent)
  | 0, events => pure events
  | count + 1, events => do
      let events ← readEventStream tenant recordCount events
      readEventStreams tenant recordCount count events

def readEventBatch (tenant : Str) (recordCount streamCount : Nat) : Cursor (List OtlpLogEvent) := do
  let events ← readEventStreams tenant recordCount streamCount []
  require (events.length == recordCount) (recordCountMismatch events.length recordCount)
  Cursor.finish
  pure events

/-- Decode a grouped batch into normalized events. -/
def decodeNativeLogEvents (payload : Bytes) : NativeResult (Str × List OtlpLogEvent) := do
  let info ← inspectNativeLogBatch payload
  let events ← ((readEventBatch info.tenant info.recordCount (declaredStreams payload)).run
    (bodyInput payload info)).map Prod.fst
  .ok (info.tenant, events)

end ShardLog.Native
