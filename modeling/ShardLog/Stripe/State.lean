import ShardLog.Foundation.Stateful
import ShardLog.Ingest.Pack
import ShardLog.Stripe.Inverted

/-!
# Stripe - State and hot indexing

One log stripe: the hot index of each partition, the indexed frames of each
partition, the two caches in front of the hot index, and the block stage that
collects records into compressed blocks.

The block stage (locality placement, dictionaries, sealing, the block catalog) is
a parameter.  It sees every record and may fail, and all it writes into the index
is the final placement of records.
-/

namespace ShardLog.Stripe

open ByteReader Utf8 Ingest Sorted AssocMap

/-! ## The block stage -/

/-- What the block stage reports: descriptors of sealed blocks or an error, the records of these
blocks, and its next state. -/
structure BlockOutcome (State Placement Descriptor : Type) where
  result : LogDbResult (List Descriptor)
  placed : List (RecordRef × Placement)
  state : State

/-- The collection of records into compressed blocks. -/
structure BlockStage where
  State : Type
  Placement : Type
  Descriptor : Type
  /-- Source size, fingerprint, tentative placement and dictionary of a record. -/
  tentativePlacement : State → DurableLogRecord → LogDbResult Placement × State
  /-- Add a record to its active block; a full block is redistributed or sealed. -/
  accept : State → DurableLogRecord → Placement → BlockOutcome State Placement Descriptor
  /-- Seal every active block. -/
  sealAll : State → BlockOutcome State Placement Descriptor
  /-- Adopt the published dictionaries. -/
  refresh : State → LogDbResult Bool × State

/-- A block stage that keeps nothing. -/
def idleStage : BlockStage where
  State := Unit
  Placement := Unit
  Descriptor := Unit
  tentativePlacement _ _ := (.ok (), ())
  accept _ _ _ := ⟨.ok [], [], ()⟩
  sealAll _ := ⟨.ok [], [], ()⟩
  refresh _ := (.ok false, ())

def samplePartition : TopicPartition := ⟨1, 1⟩

/-! ## State -/

/-- A record of the hot index and its placements. -/
structure IndexedRecord (Placement : Type) where
  record : DurableLogRecord
  tentativePlacement : Placement
  finalPlacement : Option Placement

/-- Hot index of one partition. -/
structure PartitionIndex (Placement : Type) where
  records : List (IndexedRecord Placement) := []
  termIds : List (Str × Nat) := []
  termPostings : List HotPostingList := []
  fieldIds : List (Str × List (Str × Nat)) := []
  fieldPostings : List HotPostingList := []
  indexedThrough : Option LogicalOffset := none

/-- Term numbers of a message seen before in a partition. -/
structure CachedMessageTerms where
  topicPartition : TopicPartition
  message : Str
  termIds : List Nat

/-- Field numbers of a list of fields seen before in a partition. -/
structure CachedFields where
  topicPartition : TopicPartition
  fields : List MetadataField
  fieldIds : List Nat

/-- The frames of one durable ingest pack. -/
structure IndexedFrameAppend where
  firstOffset : LogicalOffset
  lastOffset : LogicalOffset
  recordCount : Nat
  frames : List IndexedIngestFrame

structure IndexedFramePartition where
  appends : List IndexedFrameAppend := []
  indexedThrough : Option LogicalOffset := none

/-- One shard-aligned stripe. -/
structure LogStripe (stage : BlockStage) where
  streamShardId : ShardId
  partitions : List (TopicPartition × PartitionIndex stage.Placement) := []
  indexedFramePartitions : List (TopicPartition × IndexedFramePartition) := []
  messageTermCache : Nat → Option CachedMessageTerms := fun _ => none
  fieldCache : Nat → Option CachedFields := fun _ => none
  blocks : stage.State

/-- Acknowledgement of one indexed record. -/
structure IndexReceipt (Placement Descriptor : Type) where
  recordRef : RecordRef
  indexedThrough : LogicalOffset
  tentativePlacement : Placement
  sealedBlocks : List Descriptor

structure AppliedRecord (Placement Descriptor : Type) where
  receipt : IndexReceipt Placement Descriptor
  ordinal : Nat
  termIds : Option (List Nat)
  fieldIds : Option (List Nat)

section PartitionIndex

variable {Placement : Type}

def IndexedRecord.offset (record : IndexedRecord Placement) : LogicalOffset :=
  record.record.recordRef.offset

/-- Position of the record with an offset. -/
def PartitionIndex.position (index : PartitionIndex Placement) (offset : LogicalOffset) :
    Option Nat :=
  findBy (fun record : IndexedRecord Placement => record.offset.toNat) index.records offset.toNat

def PartitionIndex.record (index : PartitionIndex Placement) (offset : LogicalOffset) :
    Option (IndexedRecord Placement) :=
  (index.position offset).bind fun position => index.records[position]?

def PartitionIndex.lastOffset (index : PartitionIndex Placement) : Option LogicalOffset :=
  index.records.getLast?.map IndexedRecord.offset

/-- Record the final placement of a record, if it is there. -/
def PartitionIndex.setFinalPlacement (index : PartitionIndex Placement) (offset : LogicalOffset)
    (placement : Placement) : PartitionIndex Placement :=
  match index.position offset with
  | some position =>
    { index with
      records := index.records.modify position fun record =>
        { record with finalPlacement := some placement } }
  | none => index

end PartitionIndex

namespace LogStripe

variable {stage : BlockStage}

/-- The hot index of a partition; a partition not seen before has an empty one. -/
def partitionOf (stripe : LogStripe stage) (partition : TopicPartition) :
    PartitionIndex stage.Placement :=
  (get stripe.partitions partition).getD {}

def modifyPartition (stripe : LogStripe stage) (partition : TopicPartition)
    (f : PartitionIndex stage.Placement → PartitionIndex stage.Placement) : LogStripe stage :=
  { stripe with partitions := update stripe.partitions partition {} f }

/-- The visible watermark of a partition. -/
def indexedThrough (stripe : LogStripe stage) (partition : TopicPartition) : Option LogicalOffset :=
  let recordWatermark := (get stripe.partitions partition).bind (·.indexedThrough)
  let frameWatermark := (get stripe.indexedFramePartitions partition).bind (·.indexedThrough)
  match recordWatermark, frameWatermark with
  | some record, some frame => some (if record < frame then frame else record)
  | some record, none => some record
  | none, frame => frame

/-- Write the outcome of the block stage: its state and the final placements. -/
def settle (stripe : LogStripe stage) (outcome : BlockOutcome stage.State stage.Placement stage.Descriptor) :
    LogStripe stage :=
  outcome.placed.foldl (fun stripe placed =>
      match get stripe.partitions placed.1.topicPartition with
      | some _ =>
        stripe.modifyPartition placed.1.topicPartition fun index =>
          index.setFinalPlacement placed.1.offset placed.2
      | none => stripe)
    { stripe with blocks := outcome.state }

end LogStripe

/-- Programs of one stripe. -/
abbrev StripeM (stage : BlockStage) := EStateM LogDbError (LogStripe stage)

/-! ## Offsets -/

/-- The offset of the record at an index of a batch. -/
def batchOffset (partition : TopicPartition) (firstOffset : LogicalOffset) (index : Nat) :
    LogDbResult LogicalOffset :=
  if firstOffset.toNat + index < 2 ^ 64 then .ok (UInt64.ofNat (firstOffset.toNat + index))
  else .error (.offsetExhausted partition)

def validateBatchOffsetRange (partition : TopicPartition) (firstOffset : LogicalOffset)
    (recordCount : Nat) : LogDbResult Unit :=
  match recordCount with
  | 0 => .ok ()
  | lastIndex + 1 => do
      let _ ← batchOffset partition firstOffset lastIndex
      .ok ()

/-- A record has to follow the last one of its partition. -/
def LogStripe.validateOffset {stage : BlockStage} (stripe : LogStripe stage)
    (record : DurableLogRecord) : LogDbResult Unit :=
  let partition := record.recordRef.topicPartition
  match (get stripe.partitions partition).bind PartitionIndex.lastOffset with
  | none => .ok ()
  | some previous =>
    if previous.toNat + 1 < 2 ^ 64 then
      ensure (previous < record.recordRef.offset)
        (.offsetOutOfOrder partition (UInt64.ofNat (previous.toNat + 1)) record.recordRef.offset)
    else .error (.offsetExhausted partition)

/-! ## Caches -/

def messageTermCacheEntries : Nat := 1024

def fieldCacheEntries : Nat := 1024

def rotateLeft (value : UInt64) (bits : UInt64) : UInt64 :=
  (value <<< bits) ||| (value >>> (64 - bits))

def littleEndianU64 (bytes : Bytes) : UInt64 := UInt64.ofNat (Integers.fromLeBytes bytes)

/-- Slot of a message in the cache of term numbers. -/
def messageTermCacheSlot (partition : TopicPartition) (message : Bytes) : Nat :=
  let seed := UInt64.ofNat message.length ^^^
    (UInt64.ofNat partition.partition * 0x9e3779b97f4a7c15)
  let mixed :=
    if 16 ≤ message.length then
      seed ^^^ (rotateLeft (littleEndianU64 (message.take 8)) 17 ^^^
        rotateLeft (littleEndianU64 (message.drop (message.length - 8))) 41)
    else message.foldl (fun hash byte => (hash ^^^ byte.toUInt64) * 0x100000001b3) seed
  let folded := (mixed ^^^ (mixed >>> 33)) * 0xff51afd7ed558ccd
  folded.toNat % messageTermCacheEntries

/-- Slot of a shared list of fields, from the address of its allocation. -/
def fieldCacheSlot (partition : TopicPartition) (address : UInt64) : Nat :=
  (rotateLeft address 17 ^^^ (UInt64.ofNat partition.partition * 0x9e3779b9)).toNat %
    fieldCacheEntries

/-! ## Numbering the terms and fields of a record -/

section Interning

variable {Placement : Type}

/-- The number of a normalized term; a new term gets an empty posting list. -/
def PartitionIndex.internTerm (index : PartitionIndex Placement) (normalized : Str) :
    Nat × PartitionIndex Placement :=
  match get index.termIds normalized with
  | some termId => (termId, index)
  | none =>
    let termId := index.termPostings.length
    (termId, { index with
        termIds := insert index.termIds normalized termId
        termPostings := index.termPostings ++ [{}] })

/-- The numbers of the scanned terms, each once. -/
def PartitionIndex.internTerms (tables : UnicodeTables) :
    List Str → List Nat → PartitionIndex Placement → List Nat × PartitionIndex Placement
  | [], termIds, index => (termIds, index)
  | term :: rest, termIds, index =>
    let interned := index.internTerm (normalizeTerm tables term)
    internTerms tables rest
      (if termIds.contains interned.1 then termIds else termIds ++ [interned.1]) interned.2

/-- The number of a pair of field key and value. -/
def lookupField (fieldIds : List (Str × List (Str × Nat))) (field : Str × Str) : Option Nat :=
  (get fieldIds field.1).bind fun values => get values field.2

/-- The number of a field; a new field gets an empty posting list. -/
def PartitionIndex.internField (index : PartitionIndex Placement) (field : MetadataField) :
    Nat × PartitionIndex Placement :=
  match lookupField index.fieldIds (field.key, field.value) with
  | some fieldId => (fieldId, index)
  | none =>
    let fieldId := index.fieldPostings.length
    (fieldId, { index with
        fieldIds := update index.fieldIds field.key [] fun values =>
          insert values field.value fieldId
        fieldPostings := index.fieldPostings ++ [{}] })

/-- The numbers of the fields; a field equal to an earlier one is passed over. -/
def PartitionIndex.internFields (earlier : List MetadataField) :
    List MetadataField → List Nat → PartitionIndex Placement → List Nat × PartitionIndex Placement
  | [], fieldIds, index => (fieldIds, index)
  | field :: rest, fieldIds, index =>
    if earlier.any fun existing => existing.key == field.key && existing.value == field.value then
      internFields (earlier ++ [field]) rest fieldIds index
    else
      let interned := index.internField field
      internFields (earlier ++ [field]) rest (fieldIds ++ [interned.1]) interned.2

end Interning

section Indexing

variable {stage : BlockStage} (tables : UnicodeTables)

/-- The numbers of the terms of a record's message, from the cache or by
numbering them. -/
def LogStripe.recordTermIds (stripe : LogStripe stage) (record : DurableLogRecord) :
    List Nat × LogStripe stage :=
  let partition := record.recordRef.topicPartition
  let slot := messageTermCacheSlot partition (utf8 record.message)
  let numbered :=
    let interned := PartitionIndex.internTerms tables (scanMessageTerms tables record.message) []
      (stripe.partitionOf partition)
    let stripe := stripe.modifyPartition partition fun _ => interned.2
    (interned.1, { stripe with
        messageTermCache := Function.update stripe.messageTermCache slot
          (some ⟨partition, record.message, interned.1⟩) })
  match stripe.messageTermCache slot with
  | some cached =>
    if cached.topicPartition = partition ∧ cached.message = record.message then
      (cached.termIds, stripe)
    else numbered
  | none => numbered

/-- The numbers of the fields of a record, from the cache or by numbering them. -/
def LogStripe.recordFieldIds (stripe : LogStripe stage) (address : UInt64)
    (record : DurableLogRecord) : List Nat × LogStripe stage :=
  let partition := record.recordRef.topicPartition
  let slot := fieldCacheSlot partition address
  let numbered :=
    let interned := PartitionIndex.internFields [] record.fields [] (stripe.partitionOf partition)
    let stripe := stripe.modifyPartition partition fun _ => interned.2
    (interned.1, { stripe with
        fieldCache := Function.update stripe.fieldCache slot
          (some ⟨partition, record.fields, interned.1⟩) })
  match stripe.fieldCache slot with
  | some cached =>
    if cached.topicPartition = partition ∧ cached.fields = record.fields then
      (cached.fieldIds, stripe)
    else numbered
  | none => numbered

/-- Push a range of ordinals to the posting lists of the numbered terms. -/
def PartitionIndex.pushTerms {Placement : Type} (index : PartitionIndex Placement)
    (termIds : List Nat) (first last : Nat) : PartitionIndex Placement :=
  { index with termPostings := pushRangeAll index.termPostings termIds first last }

/-- Push a range of ordinals to the posting lists of the numbered fields. -/
def PartitionIndex.pushFields {Placement : Type} (index : PartitionIndex Placement)
    (fieldIds : List Nat) (first last : Nat) : PartitionIndex Placement :=
  { index with fieldPostings := pushRangeAll index.fieldPostings fieldIds first last }

def LogStripe.indexTerms (stripe : LogStripe stage) (record : DurableLogRecord)
    (recordOrdinal : Nat) : List Nat × LogStripe stage :=
  let numbered := stripe.recordTermIds tables record
  (numbered.1, numbered.2.modifyPartition record.recordRef.topicPartition fun index =>
    index.pushTerms numbered.1 recordOrdinal recordOrdinal)

def LogStripe.indexFields (stripe : LogStripe stage) (address : UInt64)
    (record : DurableLogRecord) (recordOrdinal : Nat) : List Nat × LogStripe stage :=
  let numbered := stripe.recordFieldIds address record
  (numbered.1, numbered.2.modifyPartition record.recordRef.topicPartition fun index =>
    index.pushFields numbered.1 recordOrdinal recordOrdinal)

end Indexing

end ShardLog.Stripe
