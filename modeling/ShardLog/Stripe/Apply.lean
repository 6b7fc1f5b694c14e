import ShardLog.Stripe.State

/-!
# Stripe - Operations

The operations that publish records on a stripe: single durable records, batches
of events, compressed ingest packs, and the sealing of active blocks.
-/

namespace ShardLog.Stripe

open ByteReader Ingest Stateful Sorted

variable {stage : BlockStage} (tables : UnicodeTables)

/-! ## One record -/

/-- Size, placement and dictionary of a record. -/
def chooseTentativePlacement (record : DurableLogRecord) : StripeM stage stage.Placement := do
  let chosen ← modifyGet fun stripe =>
    let chosen := stage.tentativePlacement stripe.blocks record
    (chosen.1, { stripe with blocks := chosen.2 })
  liftResult chosen

/-- Append a record to its partition; its ordinal has to fit 32 bits. -/
def pushRecord (record : DurableLogRecord) (placement : stage.Placement) : StripeM stage Nat := do
  let partition := record.recordRef.topicPartition
  modify fun stripe => stripe.modifyPartition partition id
  let stripe ← get
  let recordOrdinal := (stripe.partitionOf partition).records.length
  if recordOrdinal < 2 ^ 32 then
    modify fun stripe => stripe.modifyPartition partition fun index =>
      { index with records := index.records ++ [⟨record, placement, none⟩] }
    pure recordOrdinal
  else throw .recordTooLarge

/-- Hand a record to the block stage; if that fails, the record is taken back. -/
def admitRecord (record : DurableLogRecord) (placement : stage.Placement) :
    StripeM stage (List stage.Descriptor) := do
  let result ← modifyGet fun stripe =>
    let outcome := stage.accept stripe.blocks record placement
    (outcome.result, stripe.settle outcome)
  match result with
  | .ok sealedBlocks => pure sealedBlocks
  | .error e =>
    modify fun stripe => stripe.modifyPartition record.recordRef.topicPartition fun index =>
      { index with records := index.records.dropLast }
    throw e

/-- Publish the watermark of a partition. -/
def publishWatermark (partition : TopicPartition) (offset : LogicalOffset) : StripeM stage Unit :=
  modify fun stripe => stripe.modifyPartition partition fun index =>
    { index with indexedThrough := some offset }

/-- Append a record and, unless it is deferred, index it.  `address` is the address
of the record's shared fields. -/
def applyDurableNewInner (address : UInt64) (record : DurableLogRecord) (indexRecord : Bool) :
    StripeM stage (AppliedRecord stage.Placement stage.Descriptor) := do
  let stripe ← get
  liftResult (stripe.validateOffset record)
  let placement ← chooseTentativePlacement record
  let recordOrdinal ← pushRecord record placement
  let sealedBlocks ← admitRecord record placement
  let receipt := ⟨record.recordRef, record.recordRef.offset, placement, sealedBlocks⟩
  if indexRecord then
    let termIds ← modifyGet fun stripe => stripe.indexTerms tables record recordOrdinal
    let fieldIds ← modifyGet fun stripe => stripe.indexFields address record recordOrdinal
    publishWatermark record.recordRef.topicPartition record.recordRef.offset
    pure ⟨receipt, recordOrdinal, some termIds, some fieldIds⟩
  else pure ⟨receipt, recordOrdinal, none, none⟩

def applyDurableNew (address : UInt64) (record : DurableLogRecord) :
    StripeM stage (IndexReceipt stage.Placement stage.Descriptor) := do
  let applied ← applyDurableNewInner tables address record true
  pure applied.receipt

/-- Publish one record whose append is durable. -/
def applyDurable (address : UInt64) (record : DurableLogRecord) :
    StripeM stage (IndexReceipt stage.Placement stage.Descriptor) := do
  let stripe ← get
  let partition := record.recordRef.topicPartition
  if record.streamShardId ≠ stripe.streamShardId then
    throw (.wrongStripe stripe.streamShardId record.streamShardId)
  else if ((AssocMap.get stripe.partitions partition).bind
      fun index => index.record record.recordRef.offset).isSome then
    throw (.duplicateRecord partition record.recordRef.offset)
  else applyDurableNew tables address record

/-- The record of the hot index at the offset of another. -/
def LogStripe.existingRecord (stripe : LogStripe stage) (partition : TopicPartition)
    (offset : LogicalOffset) : Option (IndexedRecord stage.Placement) :=
  (AssocMap.get stripe.partitions partition).bind fun index =>
    index.records.getLast?.bind fun last =>
      match orderingOf last.offset.toNat offset.toNat with
      | .lt => none
      | .eq => some last
      | .gt => index.record offset

/-- Publish one record, accepting a repetition of the same record. -/
def applyDurableIdempotent (address : UInt64) (record : DurableLogRecord) :
    StripeM stage (IndexReceipt stage.Placement stage.Descriptor) := do
  let stripe ← get
  let partition := record.recordRef.topicPartition
  let offset := record.recordRef.offset
  match stripe.existingRecord partition offset with
  | some existing =>
    if existing.record ≠ record then throw (.conflictingRecord partition offset)
    else pure ⟨record.recordRef, (stripe.indexedThrough partition).getD offset,
      existing.tentativePlacement, []⟩
  | none => applyDurableNew tables address record

/-! ## Batches of events -/

/-- Give an event its shard and its offset. -/
def intoDurable (event : OtlpLogEvent) (shard : ShardId) (partition : TopicPartition)
    (offset : LogicalOffset) : DurableLogRecord where
  streamShardId := shard
  recordRef := ⟨partition, offset⟩
  timestampUnixNanos := event.timestampUnixNanos
  message := event.message
  fields := event.fields
  compressionCohort := event.compressionCohort

/-- At least two new events with one message and one list of fields. -/
def LogStripe.canIndexAsHomogeneousRange (stripe : LogStripe stage) (partition : TopicPartition)
    (firstOffset : LogicalOffset) : List OtlpLogEvent → Bool
  | first :: second :: rest =>
    !((((AssocMap.get stripe.partitions partition).bind PartitionIndex.lastOffset).any
        fun lastOffset => decide (firstOffset ≤ lastOffset))) &&
      (second :: rest).all fun event =>
        first.message == event.message && first.fields == event.fields
  | _ => false

/-- Index a range of deferred records with the numbers of the first one. -/
def publishHomogeneousPostingRange (partition : TopicPartition) (firstOrdinal lastOrdinal : Nat)
    (lastOffset : LogicalOffset) (termIds fieldIds : List Nat) : StripeM stage Unit :=
  modify fun stripe => stripe.modifyPartition partition fun index =>
    { (index.pushTerms termIds firstOrdinal lastOrdinal).pushFields fieldIds firstOrdinal
        lastOrdinal with indexedThrough := some lastOffset }

/-- Publish the deferred records collected so far. -/
def publishDeferred (partition : TopicPartition) (firstOrdinal : Nat)
    (termIds fieldIds : List Nat) : Option (Nat × LogicalOffset) → StripeM stage Unit
  | some (lastOrdinal, lastOffset) =>
    publishHomogeneousPostingRange partition (firstOrdinal + 1) lastOrdinal lastOffset termIds
      fieldIds
  | none => pure ()

/-- Append the events after the first one without indexing them; a failure
publishes what was appended. -/
def applyDeferred (addresses : Nat → UInt64) (partition : TopicPartition)
    (firstOffset : LogicalOffset) (firstOrdinal : Nat) (termIds fieldIds : List Nat) :
    List (OtlpLogEvent × Nat) → Option (Nat × LogicalOffset) →
      StripeM stage (List (IndexReceipt stage.Placement stage.Descriptor) × Option (Nat × LogicalOffset))
  | [], lastDeferred => pure ([], lastDeferred)
  | (event, index) :: rest, lastDeferred => do
      let offset ← liftResult (batchOffset partition firstOffset index)
      let stripe ← get
      let attempted ← attempt (applyDurableNewInner tables (addresses index)
        (intoDurable event stripe.streamShardId partition offset) false)
      match attempted with
      | .ok applied =>
        let later ← applyDeferred addresses partition firstOffset firstOrdinal termIds fieldIds
          rest (some (applied.ordinal, offset))
        pure (applied.receipt :: later.1, later.2)
      | .error e =>
        publishDeferred partition firstOrdinal termIds fieldIds lastDeferred
        throw e

/-- Publish events with one message and fields: the first is indexed, the others join its postings
as a range. -/
def applyHomogeneousEvents (addresses : Nat → UInt64) (partition : TopicPartition)
    (firstOffset : LogicalOffset) (first : OtlpLogEvent) (rest : List OtlpLogEvent) :
    StripeM stage (List (IndexReceipt stage.Placement stage.Descriptor)) := do
  let stripe ← get
  let firstApplied ← applyDurableNewInner tables (addresses 0)
    (intoDurable first stripe.streamShardId partition firstOffset) true
  let termIds := firstApplied.termIds.getD []
  let fieldIds := firstApplied.fieldIds.getD []
  let deferred ← applyDeferred tables addresses partition firstOffset firstApplied.ordinal termIds
    fieldIds (rest.zipIdx 1) none
  publishDeferred partition firstApplied.ordinal termIds fieldIds deferred.2
  pure (firstApplied.receipt :: deferred.1)

/-- Publish events one by one. -/
def applyEvents (addresses : Nat → UInt64) (partition : TopicPartition)
    (firstOffset : LogicalOffset) :
    List (OtlpLogEvent × Nat) → StripeM stage (List (IndexReceipt stage.Placement stage.Descriptor))
  | [] => pure []
  | (event, index) :: rest => do
      let offset ← liftResult (batchOffset partition firstOffset index)
      let stripe ← get
      let receipt ← applyDurableIdempotent tables (addresses index)
        (intoDurable event stripe.streamShardId partition offset)
      let later ← applyEvents addresses partition firstOffset rest
      pure (receipt :: later)

/-- Adopt the published dictionaries at an append boundary. -/
def beginAppendBatch : StripeM stage Bool := do
  let refreshed ← modifyGet fun stripe =>
    let refreshed := stage.refresh stripe.blocks
    (refreshed.1, { stripe with blocks := refreshed.2 })
  liftResult refreshed

/-- Publish the events of one durable append. -/
def applyOtlpEvents (addresses : Nat → UInt64) (partition : TopicPartition)
    (firstOffset : LogicalOffset) (events : List OtlpLogEvent) :
    StripeM stage (List (IndexReceipt stage.Placement stage.Descriptor)) := do
  let _ ← beginAppendBatch
  liftResult (validateBatchOffsetRange partition firstOffset events.length)
  let stripe ← get
  match events with
  | first :: rest =>
    if stripe.canIndexAsHomogeneousRange partition firstOffset (first :: rest) then
      applyHomogeneousEvents tables addresses partition firstOffset first rest
    else applyEvents tables addresses partition firstOffset ((first :: rest).zipIdx 0)
  | [] => pure []

/-- Seal every active block. -/
def sealActiveBlocks : StripeM stage (List stage.Descriptor) := do
  let result ← modifyGet fun stripe =>
    let outcome := stage.sealAll stripe.blocks
    (outcome.result, stripe.settle outcome)
  liftResult result

/-! ## Ingest packs -/

/-- The next offset of a partition whose watermark has reached an offset. -/
def validatePackOffset (partition : TopicPartition) (firstOffset : LogicalOffset) :
    Option LogicalOffset → LogDbResult Unit
  | none => .ok ()
  | some previous =>
    if firstOffset ≤ previous then
      if previous.toNat + 1 < 2 ^ 64 then
        .error (.offsetOutOfOrder partition (UInt64.ofNat (previous.toNat + 1)) firstOffset)
      else .error (.offsetExhausted partition)
    else .ok ()

/-- Publish one durable ingest pack by its frames. -/
def applyIndexedIngestPack (codecs : Codecs) (partition : TopicPartition)
    (firstOffset : LogicalOffset) (recordCount : Nat) (payload : Bytes)
    (transientContext : Option Bytes) : StripeM stage Unit := do
  liftResult (ensure (recordCount ≠ 0)
    (.invalidConfig "compressed ingest append must contain records"))
  let lastOffset ← liftResult (batchOffset partition firstOffset (recordCount - 1))
  let stripe ← get
  liftResult (validatePackOffset partition firstOffset (stripe.indexedThrough partition))
  let frames ← liftResult (decodeIndexedIngestFrames codecs payload transientContext recordCount)
  modify fun stripe =>
    { stripe with
      indexedFramePartitions := AssocMap.update stripe.indexedFramePartitions partition {}
        fun frameIndex =>
          { appends := frameIndex.appends ++ [⟨firstOffset, lastOffset, recordCount, frames⟩]
            indexedThrough := some lastOffset } }

end ShardLog.Stripe
