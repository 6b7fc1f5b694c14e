import ShardLog.Native.Events
import ShardLog.Structural.Selective

/-!
# Ingest packs - format

A batch is regrouped by compression cohort.  Each group becomes a compressed
structural block in the durable payload, and its index is repeated in a
transient context that travels with the payload while it is live.
-/

namespace ShardLog.Ingest

open ByteReader Utf8 Runs Structural Native Integers

/-! ## Third-party codecs -/

/-- The bulk compressor and decompressor; the second argument of `decompress` is
the capacity of the result. -/
structure Zstd where
  compress : Bytes → Except String Bytes
  decompress : Bytes → Nat → Except String Bytes

/-- Compressed content decompresses to itself when the capacity is its length. -/
def Zstd.Lawful (zstd : Zstd) : Prop :=
  ∀ content compressed, zstd.compress content = .ok compressed →
    zstd.decompress compressed content.length = .ok content

/-- What the ingest path takes from other crates: the Unicode tables, the number
codec, the compressor and the hash. -/
structure Codecs where
  tables : UnicodeTables
  pco : Pco
  zstd : Zstd
  blake3 : Bytes → Bytes

structure Codecs.Lawful (codecs : Codecs) : Prop where
  tables : codecs.tables.Lawful
  pco : codecs.pco.Lawful
  zstd : codecs.zstd.Lawful

/-- The first four bytes of the hash. -/
def Codecs.payloadChecksum (codecs : Codecs) (payload : Bytes) : Nat :=
  fromLeBytes ((codecs.blake3 payload).take 4)

def Codecs.compress (codecs : Codecs) (content : Bytes) : LogDbResult Bytes :=
  match codecs.zstd.compress content with
  | .ok compressed => .ok compressed
  | .error e => .error (.compressionFailed e)

def Codecs.decompress (codecs : Codecs) (compressed : Bytes) (capacity : Nat) : LogDbResult Bytes :=
  match codecs.zstd.decompress compressed capacity with
  | .ok content => .ok content
  | .error e => .error (.compressionFailed e)

/-! ## Records of a batch -/

/-- One record of a batch; its offset is its ordinal. -/
structure NativeIngestRecordView where
  ordinal : Nat
  recordIndex : Nat
  batch : NativeBatchView
deriving DecidableEq

instance : StructuralRecordView NativeIngestRecordView where
  structuralOffset record := UInt64.ofNat record.ordinal
  structuralTimestampUnixNanos record := (record.batch.recordTimestamp record.recordIndex).getD 0
  structuralMessage record := (record.batch.recordMessage record.recordIndex).getD []
  structuralFieldCount record := (record.batch.recordFieldCount record.recordIndex).getD 0
  structuralField record index := record.batch.recordField record.recordIndex index
  visitedFields record := record.batch.visitedRecordFields record.recordIndex

/-- Cohort and view of the record at an index. -/
def cohortRecord (batch : NativeBatchView) (recordIndex : Nat) :
    LogDbResult (CompressionCohortId × NativeIngestRecordView) :=
  match batch.recordCohort recordIndex with
  | none => .error (invalid "validated native record has no stream cohort")
  | some cohort => do
      let ordinal ← tryU32 recordIndex
      .ok (cohort, ⟨ordinal, recordIndex, batch⟩)

/-- The groups in the order of an ordered map. -/
def cohortGroups {R : Type} (records : List (CompressionCohortId × R)) :
    List (CompressionCohortId × List R) :=
  Sorted.sortBy (fun group => group.1.toNat) (AssocMap.groupBy records)

/-! ## Encoding -/

def ingestPackMagic : Bytes := utf8 "SLW1".toList

def ingestPackHeaderBytes : Nat := 12

def ingestGroupHeaderBytes : Nat := 40

def transientPackMagic : Bytes := utf8 "SLT1".toList

def transientPackHeaderBytes : Nat := 8

def transientGroupHeaderBytes : Nat := 20

def maxIngestStructuralBytes : Nat := 64 * 1024 * 1024

structure PreparedIngestPack where
  payload : Bytes
  transientContext : Bytes

structure PreparedNativeIngestPack where
  tenant : Str
  recordCount : Nat
  ingestPack : PreparedIngestPack

section Encoding

variable {R : Type} [StructuralRecordView R]

def timestampsOf (records : List R) : List Nat :=
  records.map fun record => (structuralTimestampUnixNanos record).toNat

/-- The least timestamp of a group, which is never empty. -/
def minTimestamp (records : List R) : Nat := (timestampsOf records).min?.getD 0

def maxTimestamp (records : List R) : Nat := (timestampsOf records).max?.getD 0

/-- Durable bytes and transient bytes of one group. -/
def encodeGroup (codecs : Codecs) (placements : ∀ records : List R, Placement records)
    (group : CompressionCohortId × List R) : LogDbResult (Bytes × Bytes) := do
  let indexed ← encodeIndexedStructuralRecords codecs.tables codecs.pco (placements group.2)
  let embeddedIndex ← indexed.index.encode
  let structural := indexed.structural
  ensure (structural.length ≤ maxIngestStructuralBytes) LogDbError.recordTooLarge
  let compressed ← codecs.compress structural
  let recordCount ← tryU32 group.2.length
  let structuralBytes ← tryU32 structural.length
  let compressedBytes ← tryU32 compressed.length
  let embeddedIndexBytes ← tryU32 embeddedIndex.length
  let coordinates := leBytes 8 group.1.toNat ++ leBytes 4 recordCount ++ leBytes 4 structuralBytes
  .ok (coordinates ++ leBytes 4 compressedBytes ++ leBytes 4 (codecs.payloadChecksum compressed) ++
      leBytes 8 (minTimestamp group.2) ++ leBytes 8 (maxTimestamp group.2) ++
      compressed,
    coordinates ++ leBytes 4 embeddedIndexBytes ++ embeddedIndex)

def prepareGroupedIngestPack (codecs : Codecs) (placements : ∀ records : List R, Placement records)
    (recordCount : Nat) (cohorts : List (CompressionCohortId × List R)) :
    LogDbResult PreparedIngestPack := do
  let groupCount ← tryUnsigned 16 cohorts.length
  let groups ← collect (encodeGroup codecs placements) cohorts
  let payload := ingestPackMagic ++ leBytes 4 recordCount ++
    leBytes 2 groupCount ++ [0, 0] ++ (groups.map Prod.fst).flatten
  ensure (payload.length ≤ maxNativeFrameBytes) LogDbError.recordTooLarge
  .ok ⟨payload, transientPackMagic ++ leBytes 2 groupCount ++ [0, 0] ++
    (groups.map Prod.snd).flatten⟩

end Encoding

/-- `placements` says where the borrowed fields lie in memory. -/
def prepareNativeIngestPack (codecs : Codecs)
    (placements : ∀ records : List NativeIngestRecordView, Placement records) (payload : Bytes) :
    LogDbResult PreparedNativeIngestPack :=
  match decodeNativeLogBatchView payload with
  | .error e => .error (.invalidNativePayload e.message)
  | .ok batch => do
      let recordCount ← tryU32 batch.records.length
      let records ← collect (cohortRecord batch) (List.range batch.records.length)
      let ingestPack ← prepareGroupedIngestPack codecs placements recordCount (cohortGroups records)
      .ok ⟨batch.tenant, recordCount, ingestPack⟩

/-! ## Reading groups -/

/-- One group of a durable payload. -/
structure IngestGroup where
  cohort : CompressionCohortId
  recordCount : Nat
  structuralBytes : Nat
  checksum : Nat
  minTimestampUnixNanos : UInt64
  maxTimestampUnixNanos : UInt64
  compressed : Bytes
  compressedRange : IndexRange
deriving DecidableEq, Repr

/-- The little-endian integer at a range of a header. -/
def headerField (header : Bytes) (start stop : Nat) : Nat :=
  fromLeBytes (slice header ⟨start, stop⟩)

/-- Open a durable payload: the number of its groups. -/
def openIngestPack (payload : Bytes) (expectedRecordCount : Nat) : LogDbResult Nat := do
  ensure (ingestPackHeaderBytes ≤ payload.length ∧ payload.take 4 = ingestPackMagic ∧
      slice payload ⟨10, 12⟩ = [0, 0])
    (invalid "invalid compressed ingest pack header")
  ensure (headerField payload 4 8 = expectedRecordCount)
    (invalid "compressed ingest record count mismatch")
  .ok (headerField payload 8 10)

/-- An opened payload declares the expected number of records. -/
theorem recordCount_of_openIngestPack {payload : Bytes} {expectedRecordCount groupCount : Nat}
    (h : openIngestPack payload expectedRecordCount = .ok groupCount) :
    headerField payload 4 8 = expectedRecordCount := by
  obtain ⟨_, _, h⟩ := bind_eq_ok_iff.mp h
  obtain ⟨_, hcount, _⟩ := bind_eq_ok_iff.mp h
  exact ensure_eq_ok_iff.mp hcount

/-- The cursor after the header of a durable payload. -/
def ingestBody (payload : Bytes) : Input :=
  ⟨ingestPackHeaderBytes, payload.drop ingestPackHeaderBytes⟩

/-- Header and compressed bytes of the next group. -/
def nextGroup : BlockReader IngestGroup := do
  let header ← takeExactly "compressed ingest group header is truncated"
    "compressed ingest group header is truncated" ingestGroupHeaderBytes
  let start ← input
  let compressed ← takeExactly "compressed ingest group payload is truncated"
    "compressed ingest group payload is truncated" (headerField header 16 20)
  pure ⟨UInt64.ofNat (headerField header 0 8), headerField header 8 12, headerField header 12 16,
    headerField header 20 24, UInt64.ofNat (headerField header 24 32),
    UInt64.ofNat (headerField header 32 40), compressed,
    ⟨start.cursor, start.cursor + headerField header 16 20⟩⟩

/-- Count the records of one more group. -/
def observeRecords (observed : Nat) (group : IngestGroup) : LogDbResult Nat :=
  tryU64 (observed + group.recordCount)

/-- All groups end the payload and hold the declared records. -/
def finishIngestPack (groupCount expectedRecordCount observed : Nat) : BlockReader Unit := do
  let state ← input
  require (!(!state.rest.isEmpty || observed != expectedRecordCount ||
      (decide (0 < expectedRecordCount) && groupCount == 0)))
    (invalid "compressed ingest pack totals are invalid")

def validateGroup (codecs : Codecs) (group : IngestGroup) : LogDbResult Unit :=
  ensure (group.recordCount ≠ 0 ∧ group.structuralBytes ≠ 0 ∧
      group.structuralBytes ≤ maxIngestStructuralBytes ∧
      group.minTimestampUnixNanos ≤ group.maxTimestampUnixNanos ∧
      codecs.payloadChecksum group.compressed = group.checksum)
    (invalid "invalid compressed ingest group")

/-- Decompress a block of a known length. -/
def decompressStructural (codecs : Codecs) (compressed : Bytes) (structuralBytes : Nat) :
    LogDbResult Bytes := do
  let structural ← codecs.decompress compressed structuralBytes
  ensure (structural.length = structuralBytes)
    (invalid "compressed ingest structural length mismatch")
  .ok structural

def decompressGroup (codecs : Codecs) (group : IngestGroup) : LogDbResult Bytes :=
  decompressStructural codecs group.compressed group.structuralBytes

/-! ## Decoding events -/

/-- An event with the ordinal it had in the batch. -/
def ordinalEvent (expectedRecordCount : Nat) (cohort : CompressionCohortId)
    (record : DecodedStructuralRecord) : LogDbResult (Nat × OtlpLogEvent) := do
  let ordinal ← tryU32 record.offset.toNat
  ensure (ordinal < expectedRecordCount) (invalid "compressed ingest ordinal is out of range")
  .ok (ordinal, ⟨record.timestampUnixNanos, record.message, record.fields, cohort⟩)

/-- The events of one group. -/
def groupEvents (codecs : Codecs) (expectedRecordCount : Nat) (group : IngestGroup) :
    LogDbResult (List (Nat × OtlpLogEvent)) := do
  validateGroup codecs group
  let structural ← decompressGroup codecs group
  let records ← decodeStructuralBlock codecs.pco structural
  ensure (records.length = group.recordCount)
    (invalid "compressed ingest group record count mismatch")
  collect (ordinalEvent expectedRecordCount group.cohort) records

/-- The loop over the groups; `observed` counts the records declared so far. -/
def readGroupEvents (codecs : Codecs) (expectedRecordCount : Nat) :
    Nat → Nat → BlockReader (List (Nat × OtlpLogEvent) × Nat)
  | 0, observed => pure ([], observed)
  | count + 1, observed => do
      let group ← nextGroup
      let observed ← ofResult (observeRecords observed group)
      let events ← ofResult (groupEvents codecs expectedRecordCount group)
      let rest ← readGroupEvents codecs expectedRecordCount count observed
      pure (events ++ rest.1, rest.2)

/-- Restore the order of the batch. -/
def restoreOrder (expectedRecordCount : Nat) (events : List (Nat × OtlpLogEvent)) :
    LogDbResult (List OtlpLogEvent) := do
  let sorted := Sorted.sortBy (fun event => event.1) events
  ensure (sorted.map Prod.fst = List.range expectedRecordCount)
    (invalid "compressed ingest ordinals are not contiguous")
  .ok (sorted.map Prod.snd)

def decodeIngestPack (codecs : Codecs) (payload : Bytes) : LogDbResult (List OtlpLogEvent) := do
  ensure (8 ≤ payload.length) (invalid "compressed ingest pack header is truncated")
  let expectedRecordCount := headerField payload 4 8
  let groupCount ← openIngestPack payload expectedRecordCount
  let events ← ((do
    let events ← readGroupEvents codecs expectedRecordCount groupCount 0
    finishIngestPack groupCount expectedRecordCount events.2
    pure events.1).run (ingestBody payload)).map Prod.fst
  restoreOrder expectedRecordCount events

/-! ## Decoding indexed frames -/

/-- One group of a transient context. -/
structure TransientGroup where
  cohort : CompressionCohortId
  recordCount : Nat
  structuralBytes : Nat
  embeddedIndex : Bytes

/-- Open a transient context that describes the expected number of groups. -/
def openTransientPack (payload : Bytes) (expectedGroupCount : Nat) : LogDbResult Input := do
  ensure (transientPackHeaderBytes ≤ payload.length ∧ payload.take 4 = transientPackMagic ∧
      slice payload ⟨6, 8⟩ = [0, 0])
    (invalid "invalid transient ingest pack header")
  ensure (headerField payload 4 6 = expectedGroupCount)
    (invalid "transient ingest group count mismatch")
  .ok ⟨transientPackHeaderBytes, payload.drop transientPackHeaderBytes⟩

def nextTransientGroup : BlockReader TransientGroup := do
  let header ← takeExactly "transient ingest group header is truncated"
    "transient ingest group header is truncated" transientGroupHeaderBytes
  let embeddedIndex ← takeExactly "transient ingest index payload is truncated"
    "transient ingest index payload is truncated" (headerField header 16 20)
  pure ⟨UInt64.ofNat (headerField header 0 8), headerField header 8 12, headerField header 12 16,
    embeddedIndex⟩

/-- A transient context that was passed on; any other context is ignored. -/
def liveContext (context : Option Bytes) (groupCount : Nat) : LogDbResult (Option Input) :=
  match context with
  | some context =>
    if transientPackMagic.isPrefixOf context then do
      let state ← openTransientPack context groupCount
      .ok (some state)
    else .ok none
  | none => .ok none

structure IndexedIngestFrame where
  cohort : CompressionCohortId
  recordCount : Nat
  structuralBytes : Nat
  minTimestampUnixNanos : UInt64
  maxTimestampUnixNanos : UInt64
  compressed : Bytes
  index : EmbeddedFrameIndex

/-- The index of a group, from the live context or from the compressed block. -/
def groupIndex (codecs : Codecs) (group : IngestGroup) (live : Option Input) :
    LogDbResult (EmbeddedFrameIndex × Option Input) :=
  match live with
  | some state => do
      let (transient, next) ← nextTransientGroup.run state
      ensure (transient.cohort = group.cohort ∧ transient.recordCount = group.recordCount ∧
          transient.structuralBytes = group.structuralBytes)
        (invalid "transient ingest group disagrees with durable group")
      let index ← decodeEmbeddedFrameIndexSection transient.embeddedIndex group.recordCount
      .ok (index, some next)
  | none => do
      let structural ← decompressGroup codecs group
      let index ← decodeEmbeddedFrameIndex structural
      .ok (index, none)

/-- The frame of a group; its compressed bytes are a slice of the payload. -/
def groupFrame (codecs : Codecs) (payload : Bytes) (group : IngestGroup) (live : Option Input) :
    LogDbResult (IndexedIngestFrame × Option Input) := do
  validateGroup codecs group
  let index ← groupIndex codecs group live
  ensure (index.1.recordCount = group.recordCount)
    (invalid "compressed ingest frame index record count mismatch")
  .ok (⟨group.cohort, index.1.recordCount, group.structuralBytes, group.minTimestampUnixNanos,
    group.maxTimestampUnixNanos, slice payload group.compressedRange, index.1⟩, index.2)

def readGroupFrames (codecs : Codecs) (payload : Bytes) :
    Nat → Nat → Option Input → BlockReader (List IndexedIngestFrame × Nat × Option Input)
  | 0, observed, live => pure ([], observed, live)
  | count + 1, observed, live => do
      let group ← nextGroup
      let observed ← ofResult (observeRecords observed group)
      let frame ← ofResult (groupFrame codecs payload group live)
      let rest ← readGroupFrames codecs payload count observed frame.2
      pure (frame.1 :: rest.1, rest.2)

/-- The live context must end with the last group. -/
def finishTransient (live : Option Input) : LogDbResult Unit :=
  match live with
  | some state => ensure (state.rest = []) (invalid "transient ingest pack totals are invalid")
  | none => .ok ()

def decodeIndexedIngestFrames (codecs : Codecs) (payload : Bytes) (transientContext : Option Bytes)
    (expectedRecordCount : Nat) : LogDbResult (List IndexedIngestFrame) := do
  let groupCount ← openIngestPack payload expectedRecordCount
  let live ← liveContext transientContext groupCount
  let frames ← ((do
    let frames ← readGroupFrames codecs payload groupCount 0 live
    finishIngestPack groupCount expectedRecordCount frames.2.1
    pure frames).run (ingestBody payload)).map Prod.fst
  finishTransient frames.2.2
  .ok frames.1

/-- The records of a frame at some ordinals. -/
def decodeIndexedIngestRecords (codecs : Codecs) (frame : IndexedIngestFrame)
    (recordOrdinals : List Nat) : LogDbResult (List DecodedStructuralRecord) := do
  let structural ← decompressStructural codecs frame.compressed frame.structuralBytes
  decodeStructuralRecords codecs.pco structural recordOrdinals

end ShardLog.Ingest
