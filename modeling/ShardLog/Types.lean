import Mathlib.Algebra.GroupWithZero.Nat
import ShardLog.Foundation.Utf8

/-!
# Records, addresses and errors

The data model shared by the encoder, the ingest path and the query engine:
errors, partition addresses, metadata fields, durable records and the record
view through which the structural encoder and the query engine read any
concrete record type.
-/

namespace ShardLog

open Utf8

/-! ## Errors -/

/-- A physical worker of the append stream. -/
abbrev ShardId := Nat

/-- Durable logical offset inside one partition. -/
abbrev LogicalOffset := UInt64

/-- A logical topic and one of its partitions. -/
structure TopicPartition where
  topic : Nat
  partition : Nat
deriving DecidableEq, Repr

/-- A topic identifier has 128 bits and a partition identifier 32 bits. -/
structure InRange (partition : TopicPartition) : Prop where
  topic : partition.topic < 2 ^ 128
  partition : partition.partition < 2 ^ 32

/-- Identifier of a compression dictionary, a `u128`. -/
abbrev DictionaryId := Nat

/-- Errors of the database, with the texts the source attaches to them. -/
inductive LogDbError where
  | invalidConfig (message : String)
  | unknownStripe (shard : ShardId)
  | wrongStripe (expected observed : ShardId)
  | offsetOutOfOrder (partition : TopicPartition) (expected observed : LogicalOffset)
  | offsetExhausted (partition : TopicPartition)
  | duplicateRecord (partition : TopicPartition) (offset : LogicalOffset)
  | conflictingRecord (partition : TopicPartition) (offset : LogicalOffset)
  | unknownBlock (block : UInt64)
  | emptyDictionary
  | dictionaryTooLarge (bytes capacity : Nat)
  | dictionaryIdConflict (dictionary : DictionaryId)
  | dictionaryCatalogUnavailable
  | missingDictionary (dictionary : DictionaryId)
  | recordTooLarge
  | invalidBlockEncoding (message : String)
  | compressionFailed (message : String)
  | invalidOtlpPayload (message : String)
  | invalidNativePayload (message : String)
  | invalidQuery (message : String)
  | storageIo (message : String)
  | corruptSinkJournal (message : String)
  | sinkJournalFull (bytes capacity : Nat)
  | objectStore (message : String)
  | corruptTier (message : String)
  | staleCatalog (expected observed : Option Str)
  | missingStagedPayload (block : UInt64)
deriving DecidableEq, Repr

/-- Result of a database operation. -/
abbrev LogDbResult := Except LogDbError

/-- Fail with an error unless a condition holds. -/
def ensure {ε : Type} (condition : Prop) [Decidable condition] (e : ε) : Except ε Unit :=
  if condition then .ok () else .error e

variable {ε : Type} {value result : Nat}

theorem ensure_eq_ok_iff {condition : Prop} [Decidable condition] {e : ε} {u : Unit} :
    ensure condition e = .ok u ↔ condition := by
  unfold ensure
  split <;> simp_all

theorem ensure_of_true {condition : Prop} [Decidable condition] (h : condition) (e : ε) :
    ensure condition e = .ok () :=
  if_pos h

/-! ## Fixed-width arithmetic on lengths and counts -/

/-- Conversion of a length, count or identifier to an unsigned type. -/
def tryUnsigned (bits value : Nat) : LogDbResult Nat :=
  if value < 2 ^ bits then .ok value else .error .recordTooLarge

/-- `u64::try_from` with the encoder's error. -/
def tryU64 (value : Nat) : LogDbResult Nat := tryUnsigned 64 value

/-- `u32::try_from` with the encoder's error. -/
def tryU32 (value : Nat) : LogDbResult Nat := tryUnsigned 32 value

/-- `usize::saturating_add`. -/
def saturatingAdd (left right : Nat) : Nat := min (left + right) (2 ^ 64 - 1)

/-- A conversion succeeds if the value fits. -/
theorem tryUnsigned_eq_ok_iff {bits : Nat} :
    tryUnsigned bits value = .ok result ↔ result = value ∧ value < 2 ^ bits := by
  unfold tryUnsigned
  split
  · grind
  · grind

theorem tryU64_eq_ok_iff :
    tryU64 value = .ok result ↔ result = value ∧ value < 2 ^ 64 :=
  tryUnsigned_eq_ok_iff

theorem tryU32_eq_ok_iff :
    tryU32 value = .ok result ↔ result = value ∧ value < 2 ^ 32 :=
  tryUnsigned_eq_ok_iff

/-! ## Records -/

/-- A normalized metadata field stored alongside a log message. -/
structure MetadataField where
  key : Str
  value : Str
deriving DecidableEq, Repr

/-- Stable address of one record. -/
structure RecordRef where
  topicPartition : TopicPartition
  offset : LogicalOffset
deriving DecidableEq, Repr

/-- Identifier of the group of records that are compressed together. -/
abbrev CompressionCohortId := UInt64

/-- One log event accepted after its append became durable. -/
structure DurableLogRecord where
  streamShardId : ShardId
  recordRef : RecordRef
  timestampUnixNanos : UInt64
  message : Str
  fields : List MetadataField
  compressionCohort : CompressionCohortId
deriving DecidableEq, Repr

/-- A normalized event before its append assigns it an offset. -/
structure OtlpLogEvent where
  timestampUnixNanos : UInt64
  message : Str
  fields : List MetadataField
  compressionCohort : CompressionCohortId
deriving DecidableEq, Repr

/-- A record reconstructed from a structural block. -/
structure DecodedStructuralRecord where
  offset : LogicalOffset
  timestampUnixNanos : UInt64
  message : Str
  fields : List MetadataField
deriving DecidableEq, Repr

/-! ## Record views -/

/-- The fields visited by the default `try_for_each_structural_field`: one call for every index
below the count; a missing field is an error at its place. -/
def indexedFields (count : Nat) (field : Nat → Option (Str × Str)) :
    List (LogDbResult (Str × Str)) :=
  (List.range count).map fun index =>
    match field index with
    | some pair => .ok pair
    | none => .error (.invalidBlockEncoding "record field count changed while encoding")

/-- The normalized fields that encoder and query engine read of a record. `visitedFields` are those
passed to the visitor of `try_for_each_structural_field`. -/
class StructuralRecordView (R : Type) where
  structuralOffset : R → LogicalOffset
  structuralTimestampUnixNanos : R → UInt64
  structuralMessage : R → Str
  structuralFieldCount : R → Nat
  structuralField : R → Nat → Option (Str × Str)
  visitedFields : R → List (LogDbResult (Str × Str)) := fun record =>
    indexedFields (structuralFieldCount record) (structuralField record)

export StructuralRecordView (structuralOffset structuralTimestampUnixNanos structuralMessage
  structuralFieldCount structuralField visitedFields)

/-- Field access of a record that stores its fields in one vector. -/
def storedField (fields : List MetadataField) (index : Nat) : Option (Str × Str) :=
  fields[index]?.map fun field => (field.key, field.value)

instance : StructuralRecordView DurableLogRecord where
  structuralOffset record := record.recordRef.offset
  structuralTimestampUnixNanos record := record.timestampUnixNanos
  structuralMessage record := record.message
  structuralFieldCount record := record.fields.length
  structuralField record := storedField record.fields

instance : StructuralRecordView DecodedStructuralRecord where
  structuralOffset record := record.offset
  structuralTimestampUnixNanos record := record.timestampUnixNanos
  structuralMessage record := record.message
  structuralFieldCount record := record.fields.length
  structuralField record := storedField record.fields

/-- Visiting stored fields by index visits them all, in order. -/
theorem indexedFields_storedField (fields : List MetadataField) :
    indexedFields fields.length (storedField fields) =
      fields.map fun field => .ok (field.key, field.value) := by
  apply List.ext_getElem
  · simp [indexedFields]
  · intro index hleft hright
    have hindex : index < fields.length := by simpa [indexedFields] using hleft
    simp [indexedFields, storedField, hindex]

/-- The fields a query sees through the indexed accessor. -/
def recordFields {R : Type} [StructuralRecordView R] (record : R) : List (Str × Str) :=
  (List.range (structuralFieldCount record)).filterMap (structuralField record)

/-- Reading stored fields by index gives them all, in order. -/
theorem filterMap_storedField (fields : List MetadataField) :
    (List.range fields.length).filterMap (storedField fields) =
      fields.map fun field => (field.key, field.value) := by
  induction fields with
  | nil => rfl
  | cons field rest ih =>
    rw [List.length_cons, List.range_succ_eq_map, List.map_cons, ← ih]
    have hfirst : storedField (field :: rest) 0 = some (field.key, field.value) := rfl
    rw [List.filterMap_cons_some hfirst, List.filterMap_map]
    rfl

theorem recordFields_durable (record : DurableLogRecord) :
    recordFields record = record.fields.map fun field => (field.key, field.value) :=
  filterMap_storedField record.fields

/-- `decoded` carries exactly the data of `record`, field by field. -/
structure Represents {R : Type} [StructuralRecordView R] (record : R)
    (decoded : DecodedStructuralRecord) : Prop where
  offset : decoded.offset = structuralOffset record
  timestamp : decoded.timestampUnixNanos = structuralTimestampUnixNanos record
  message : decoded.message = structuralMessage record
  fields : visitedFields record = decoded.fields.map fun field => .ok (field.key, field.value)

end ShardLog
