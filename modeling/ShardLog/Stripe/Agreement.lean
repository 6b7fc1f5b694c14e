import ShardLog.Stripe.HotRun

/-!
# Stripe - Runs that store the same records

What an operation does to the stored records, their placements and the blocks does
not depend on the index, the caches or the frames.  So the two ways to publish a
batch of new events, as one range or event by event, store the same records.
-/

namespace ShardLog.Stripe

open LogStripe PartitionIndex Utf8 Stateful Sorted List

variable {stage : BlockStage} {tables : UnicodeTables} {view : View}
  {stripe left right : LogStripe stage} {Placement : Type} {index : PartitionIndex Placement}
  {record : DurableLogRecord} {partition : TopicPartition} {offset : LogicalOffset}

/-! ## Stripes with the same records -/

/-- Two stripes that store the same records, with the same blocks. -/
structure SameRecords (left right : LogStripe stage) : Prop where
  shard : left.streamShardId = right.streamShardId
  blocks : left.blocks = right.blocks
  records : ∀ partition, (left.partitionOf partition).records = (right.partitionOf partition).records

namespace SameRecords

theorem refl : SameRecords stripe stripe := ⟨rfl, rfl, fun _ => rfl⟩

theorem symm (h : SameRecords left right) : SameRecords right left :=
  ⟨h.shard.symm, h.blocks.symm, fun partition => (h.records partition).symm⟩

theorem trans (h : SameRecords left stripe) (h' : SameRecords stripe right) :
    SameRecords left right :=
  ⟨h.shard.trans h'.shard, h.blocks.trans h'.blocks, fun partition =>
    (h.records partition).trans (h'.records partition)⟩

section

variable (h : SameRecords left right)

include h

theorem setBlocks (blocks : stage.State) :
    SameRecords { left with blocks := blocks } { right with blocks := blocks } :=
  ⟨h.shard, rfl, h.records⟩

theorem modifyPartition (partition : TopicPartition)
    {f g : PartitionIndex stage.Placement → PartitionIndex stage.Placement}
    (hsame : (f (left.partitionOf partition)).records = (g (right.partitionOf partition)).records) :
    SameRecords (left.modifyPartition partition f) (right.modifyPartition partition g) where
  shard := h.shard
  blocks := h.blocks
  records other := by
    rw [partitionOf_modifyPartition, partitionOf_modifyPartition]
    split
    · exact hsame
    · exact h.records other

theorem validateOffset (record : DurableLogRecord) :
    left.validateOffset record = right.validateOffset record := by
  simp only [LogStripe.validateOffset, get_bind_lastOffset, PartitionIndex.lastOffset, h.records]

end

end SameRecords

/-- A change of the index alone. -/
theorem sameRecords_modifyPartition (stripe : LogStripe stage) (partition : TopicPartition)
    {f : PartitionIndex stage.Placement → PartitionIndex stage.Placement}
    (hsame : (f (stripe.partitionOf partition)).records = (stripe.partitionOf partition).records) :
    SameRecords stripe (stripe.modifyPartition partition f) where
  shard := rfl
  blocks := rfl
  records other := by
    rw [partitionOf_modifyPartition]
    split
    · rename_i heq
      rw [hsame, heq]
    · rfl

/-- A partition that is not there has no record to place. -/
theorem partitionOf_settleOne (stripe : LogStripe stage) (placed : RecordRef × stage.Placement) :
    SameRecords (match AssocMap.get stripe.partitions placed.1.topicPartition with
        | some _ => stripe.modifyPartition placed.1.topicPartition fun index =>
          index.setFinalPlacement placed.1.offset placed.2
        | none => stripe)
      (stripe.modifyPartition placed.1.topicPartition fun index =>
        index.setFinalPlacement placed.1.offset placed.2) := by
  cases hget : AssocMap.get stripe.partitions placed.1.topicPartition with
  | some index => exact .refl
  | none =>
    apply sameRecords_modifyPartition
    rw [partitionOf, hget]
    rfl

theorem SameRecords.settle (h : SameRecords left right)
    (outcome : BlockOutcome stage.State stage.Placement stage.Descriptor) :
    SameRecords (left.settle outcome) (right.settle outcome) := by
  unfold LogStripe.settle
  have hblocks := h.setBlocks outcome.state
  generalize { left with blocks := outcome.state } = first at hblocks
  generalize { right with blocks := outcome.state } = second at hblocks
  induction outcome.placed generalizing first second with
  | nil => exact hblocks
  | cons placed rest ih =>
    rw [foldl_cons, foldl_cons]
    apply ih
    refine (partitionOf_settleOne first placed).trans (.trans ?_
      (partitionOf_settleOne second placed).symm)
    apply hblocks.modifyPartition
    simp only [setFinalPlacement, position, hblocks.records]
    split
    · rfl
    · exact hblocks.records _

/-! ## One record -/

/-- Placements are chosen by the blocks. -/
theorem agree_chooseTentativePlacement (h : SameRecords left right) (record : DurableLogRecord) :
    Agree SameRecords Eq ((chooseTentativePlacement record).run left)
      ((chooseTentativePlacement record).run right) := by
  have hrun : ∀ stripe : LogStripe stage, (chooseTentativePlacement record).run stripe =
      (liftResult (stage.tentativePlacement stripe.blocks record).1 :
        StripeM stage stage.Placement).run
        { stripe with blocks := (stage.tentativePlacement stripe.blocks record).2 } := fun _ => rfl
  rw [hrun, hrun, h.blocks]
  exact agree_liftResult _ (h.setBlocks _)

/-- Storing depends on the records only. -/
theorem agree_pushRecord (h : SameRecords left right) (record : DurableLogRecord)
    (placement : stage.Placement) :
    Agree SameRecords Eq ((pushRecord record placement).run left)
      ((pushRecord record placement).run right) := by
  have hrun : ∀ stripe : LogStripe stage, (pushRecord record placement).run stripe =
      (if ((stripe.modifyPartition record.recordRef.topicPartition id).partitionOf
          record.recordRef.topicPartition).records.length < 2 ^ 32 then do
        modify fun stripe => stripe.modifyPartition record.recordRef.topicPartition fun index =>
          { index with records := index.records ++ [⟨record, placement, none⟩] }
        pure ((stripe.modifyPartition record.recordRef.topicPartition id).partitionOf
          record.recordRef.topicPartition).records.length
      else throw .recordTooLarge : StripeM stage Nat).run
        (stripe.modifyPartition record.recordRef.topicPartition id) := fun _ => rfl
  have hopened := h.modifyPartition record.recordRef.topicPartition (f := id) (g := id)
    (h.records _)
  rw [hrun, hrun, hopened.records]
  split
  · refine ⟨rfl, hopened.modifyPartition _ ?_⟩
    rw [hopened.records]
  · exact ⟨rfl, hopened⟩

theorem run_admitRecord (record : DurableLogRecord) (placement : stage.Placement)
    (stripe : LogStripe stage) : (admitRecord record placement).run stripe =
      (match (stage.accept stripe.blocks record placement).result with
        | .ok sealedBlocks => pure sealedBlocks
        | .error e => do
            modify fun stripe => stripe.modifyPartition record.recordRef.topicPartition fun index =>
              { index with records := index.records.dropLast }
            throw e : StripeM stage (List stage.Descriptor)).run
        (stripe.settle (stage.accept stripe.blocks record placement)) := rfl

/-- Admission depends on the blocks only. -/
theorem agree_admitRecord (h : SameRecords left right) (record : DurableLogRecord)
    (placement : stage.Placement) :
    Agree SameRecords Eq ((admitRecord record placement).run left)
      ((admitRecord record placement).run right) := by
  rw [run_admitRecord, run_admitRecord, h.blocks]
  have hsettled := h.settle (stage.accept right.blocks record placement)
  cases (stage.accept right.blocks record placement).result with
  | ok sealedBlocks => exact ⟨rfl, hsettled⟩
  | error e =>
    refine ⟨rfl, hsettled.modifyPartition _ ?_⟩
    rw [hsettled.records]

/-- Numbering terms stores nothing. -/
theorem records_internTerms {terms : List Str} {termIds : List Nat} :
    (internTerms tables terms termIds index).2.records = index.records := by
  induction terms generalizing termIds index with
  | nil => rfl
  | cons term rest ih =>
    rw [internTerms, ih]
    unfold internTerm
    split <;> rfl

/-- Numbering fields stores nothing. -/
theorem records_internFields {fields earlier : List MetadataField} {fieldIds : List Nat} :
    (internFields earlier fields fieldIds index).2.records = index.records := by
  induction fields generalizing earlier fieldIds index with
  | nil => rfl
  | cons field rest ih =>
    unfold internFields
    split
    · exact ih
    · rw [ih]
      unfold internField
      split <;> rfl

/-- Indexing terms stores nothing. -/
theorem sameRecords_indexTerms (stripe : LogStripe stage) (record : DurableLogRecord)
    (ordinal : Nat) : SameRecords stripe (stripe.indexTerms tables record ordinal).2 := by
  have hnumbered : SameRecords stripe (stripe.recordTermIds tables record).2 := by
    have hinterned := sameRecords_modifyPartition stripe record.recordRef.topicPartition
      (f := fun _ => (internTerms tables (scanMessageTerms tables record.message) []
        (stripe.partitionOf record.recordRef.topicPartition)).2) records_internTerms
    unfold recordTermIds
    dsimp only
    split
    · split
      · exact .refl
      · exact ⟨rfl, rfl, hinterned.records⟩
    · exact ⟨rfl, rfl, hinterned.records⟩
  exact hnumbered.trans (sameRecords_modifyPartition _ _ rfl)

/-- Indexing fields stores nothing. -/
theorem sameRecords_indexFields (stripe : LogStripe stage) (address : UInt64)
    (record : DurableLogRecord) (ordinal : Nat) :
    SameRecords stripe (stripe.indexFields address record ordinal).2 := by
  have hnumbered : SameRecords stripe (stripe.recordFieldIds address record).2 := by
    have hinterned := sameRecords_modifyPartition stripe record.recordRef.topicPartition
      (f := fun _ => (internFields [] record.fields []
        (stripe.partitionOf record.recordRef.topicPartition)).2) records_internFields
    unfold recordFieldIds
    dsimp only
    split
    · split
      · exact .refl
      · exact ⟨rfl, rfl, hinterned.records⟩
    · exact ⟨rfl, rfl, hinterned.records⟩
  exact hnumbered.trans (sameRecords_modifyPartition _ _ rfl)

/-- Two applications of one record, by what they return. -/
def SameApplied {Placement Descriptor : Type} (left right : AppliedRecord Placement Descriptor) :
    Prop :=
  left.receipt = right.receipt ∧ left.ordinal = right.ordinal

/-- The end of an application: a record is indexed or deferred. -/
theorem exists_run_indexRecord (address : UInt64) (record : DurableLogRecord) (ordinal : Nat)
    (receipt : IndexReceipt stage.Placement stage.Descriptor) (indexRecord : Bool)
    (stripe : LogStripe stage) :
    ∃ applied final, (if indexRecord then do
        let termIds ← modifyGet fun stripe => stripe.indexTerms tables record ordinal
        let fieldIds ← modifyGet fun stripe => stripe.indexFields address record ordinal
        publishWatermark record.recordRef.topicPartition record.recordRef.offset
        pure ⟨receipt, ordinal, some termIds, some fieldIds⟩
      else pure ⟨receipt, ordinal, none, none⟩ :
        StripeM stage (AppliedRecord stage.Placement stage.Descriptor)).run stripe =
          .ok applied final ∧
      applied.receipt = receipt ∧ applied.ordinal = ordinal ∧ SameRecords stripe final := by
  cases indexRecord with
  | false => exact ⟨_, _, rfl, rfl, rfl, .refl⟩
  | true =>
    refine ⟨_, _, rfl, rfl, rfl, ?_⟩
    exact (sameRecords_indexTerms stripe record ordinal).trans
      ((sameRecords_indexFields _ address record ordinal).trans
        (sameRecords_modifyPartition _ _ rfl))

/-- What storing a record does and returns depends on the records and the blocks alone. -/
theorem agree_applyDurableNewInner (h : SameRecords left right) (address other : UInt64)
    (record : DurableLogRecord) (indexRecord indexOther : Bool) :
    Agree SameRecords SameApplied ((applyDurableNewInner tables address record indexRecord).run left)
      ((applyDurableNewInner tables other record indexOther).run right) := by
  change Agree _ _ ((liftResult (left.validateOffset record) >>= _ : StripeM stage _).run left)
    ((liftResult (right.validateOffset record) >>= _ : StripeM stage _).run right)
  rw [h.validateOffset]
  apply (agree_liftResult _ h).bind
  intro _ _ left right _ _ h
  apply (agree_chooseTentativePlacement h record).bind
  rintro placement _ left right _ rfl h
  apply (agree_pushRecord h record placement).bind
  rintro ordinal _ left right _ rfl h
  apply (agree_admitRecord h record placement).bind
  rintro sealedBlocks _ left right _ rfl h
  obtain ⟨applied, final, hrun, hreceipt, hordinal, hfinal⟩ := @exists_run_indexRecord stage tables
    address record ordinal ⟨record.recordRef, record.recordRef.offset, placement, sealedBlocks⟩
    indexRecord left
  obtain ⟨applied', final', hrun', hreceipt', hordinal', hfinal'⟩ := @exists_run_indexRecord stage tables
    other record ordinal ⟨record.recordRef, record.recordRef.offset, placement, sealedBlocks⟩
    indexOther right
  rw [hrun, hrun']
  exact ⟨⟨hreceipt.trans hreceipt'.symm, hordinal.trans hordinal'.symm⟩,
    hfinal.symm.trans (h.trans hfinal')⟩

/-! ## New records -/

/-- A record beyond all stored ones has a valid offset. -/
theorem Holds.validateOffset_of_lt (h : Holds tables view stripe)
    (hbeyond : Beyond (view.progressOf record).stored record) :
    stripe.validateOffset record = .ok () := by
  have hindexes := h.indexes record.recordRef.topicPartition
  simp only [validateOffset, get_bind_lastOffset, hindexes.lastOffset]
  cases hlast : (view.progressOf record).stored.getLast? with
  | none => rfl
  | some last =>
    have hlt := hbeyond last (mem_of_getLast? hlast)
    have hbound := record.recordRef.offset.toNat_lt
    dsimp only [Option.map_some]
    rw [if_pos (lt_of_le_of_lt (UInt64.lt_iff_toNat_lt.mp hlt) hbound), ensure_of_true hlt]

/-- No record is found at an offset beyond all stored ones. -/
theorem Holds.existingRecord_of_lt (h : Holds tables view stripe)
    (hbeyond : ∀ earlier ∈ (view.progress partition).stored, earlier.recordRef.offset < offset) :
    stripe.existingRecord partition offset = none := by
  unfold existingRecord
  cases hindex : AssocMap.get stripe.partitions partition with
  | none => rfl
  | some index =>
    have hpartition : stripe.partitionOf partition = index := by
      rw [partitionOf, hindex, Option.getD_some]
    have hstored := (h.indexes partition).stored
    cases hlast : index.records.getLast? with
    | none => simp [hlast]
    | some last =>
      have hmem : last.record ∈ (view.progress partition).stored := by grind
      have hlt : orderingOf last.offset.toNat offset.toNat = .lt :=
        orderingOf_lt_iff.mpr (UInt64.lt_iff_toNat_lt.mp (hbeyond _ hmem))
      simp [hlast, hlt]

/-- A record beyond all stored ones is new to the partition. -/
theorem record_eq_none_of_beyond
    (h : ∀ record ∈ stripe.hotRecords partition, record.recordRef.offset < offset) :
    ((AssocMap.get stripe.partitions partition).bind fun index => index.record offset) = none := by
  rw [Option.eq_none_iff_forall_ne_some]
  intro found hfound
  obtain ⟨index, hindex, hrecord⟩ := Option.bind_eq_some_iff.mp hfound
  obtain ⟨position, hposition, hat⟩ := Option.bind_eq_some_iff.mp hrecord
  obtain ⟨other, hother, hoffset⟩ := findBy_eq_some hposition
  have hmem : other.record ∈ stripe.hotRecords partition := by
    rw [hotRecords, partitionOf, hindex, Option.getD_some]
    exact mem_map_of_mem (mem_of_getElem? hother)
  have hlt := h other.record hmem
  rw [UInt64.toNat_inj.mp hoffset.symm] at hlt
  exact UInt64.lt_irrefl _ hlt

section

variable (h : Holds tables view stripe)

include h

theorem Holds.length_records (partition : TopicPartition) :
    (stripe.partitionOf partition).records.length = (view.progress partition).stored.length := by
  rw [← (h.indexes partition).stored, length_map]

/-- A record beyond all stored ones is applied as a new one. -/
theorem Holds.run_applyDurableIdempotent {address : UInt64}
    (hbeyond : Beyond (view.progressOf record).stored record) :
    (applyDurableIdempotent tables address record).run stripe =
      (applyDurableNew tables address record).run stripe := by
  rw [applyDurableIdempotent, EStateM.run_bind, EStateM.run_get]
  simp only [h.existingRecord_of_lt hbeyond]

/-- A record beyond the others is new. -/
theorem Holds.run_applyDurable {address : UInt64}
    (hshard : record.streamShardId = stripe.streamShardId)
    (hbeyond : Beyond (view.progressOf record).stored record) :
    (applyDurable tables address record).run stripe =
      (applyDurableNew tables address record).run stripe := by
  rw [← h.hotRecords_eq] at hbeyond
  change (if _ then _ else if _ then _ else _ : StripeM stage _).run stripe = _
  rw [if_neg (not_not.mpr hshard), record_eq_none_of_beyond hbeyond, if_neg (by simp)]

end

/-- A new record, deferred or not on one side and applied on the other. -/
theorem agree_applyDurableNew (h : SameRecords left right) (address other : UInt64)
    (indexRecord : Bool) (record : DurableLogRecord) :
    Agree SameRecords (fun applied receipt => applied.receipt = receipt)
      ((applyDurableNewInner tables address record indexRecord).run left)
      ((applyDurableNew tables other record).run right) := by
  have hinner := @agree_applyDurableNewInner stage tables left right h address other record
    indexRecord true
  rw [applyDurableNew, EStateM.run_bind]
  revert hinner
  cases (applyDurableNewInner tables address record indexRecord).run left <;>
    cases (applyDurableNewInner tables other record true).run right
  · exact fun hinner => ⟨hinner.1.1, hinner.2⟩
  · exact fun hinner => hinner
  · exact fun hinner => hinner
  · exact fun hinner => hinner

/-! ## Batches of events -/

section Batch

variable {firstOffset : LogicalOffset} {progress : Progress} {start count : Nat}
  {event : OtlpLogEvent} {later : Progress} {shard : ShardId} {events : List OtlpLogEvent}

/-- The offset of an event of a batch that fits. -/
theorem toNat_batchOffset {index : Nat} (h : firstOffset.toNat + index < 2 ^ 64) :
    (UInt64.ofNat (firstOffset.toNat + index)).toNat = firstOffset.toNat + index :=
  UInt64.toNat_ofNat_of_lt' h

/-- The stored records lie before the events of a batch from an index on. -/
structure Progress.Precedes (progress : Progress) (firstOffset : LogicalOffset)
    (start count : Nat) : Prop where
  before : ∀ earlier ∈ progress.stored, earlier.recordRef.offset.toNat < firstOffset.toNat + start
  fits : firstOffset.toNat + start + count ≤ 2 ^ 64

section

variable (h : progress.Precedes firstOffset start (count + 1))

include h

theorem Progress.Precedes.offset_lt : firstOffset.toNat + start < 2 ^ 64 := by
  have hfits := h.fits
  omega

/-- The next event lies beyond the stored records. -/
theorem Progress.Precedes.beyond :
    ∀ earlier ∈ progress.stored,
      earlier.recordRef.offset < UInt64.ofNat (firstOffset.toNat + start) := by
  intro earlier hearlier
  rw [UInt64.lt_iff_toNat_lt, toNat_batchOffset h.offset_lt]
  exact h.before earlier hearlier

/-- One event further. -/
theorem Progress.Precedes.next (hstored : later.stored = progress.stored ++
      [intoDurable event shard partition (UInt64.ofNat (firstOffset.toNat + start))]) :
    later.Precedes firstOffset (start + 1) count where
  before := by
    rw [hstored]
    exact forall_mem_append.mpr ⟨fun earlier hold => (h.before earlier hold).trans (by omega),
        forall_mem_singleton.mpr ((toNat_batchOffset h.offset_lt).trans_lt (by omega))⟩
  fits := by
    have hfits := h.fits
    omega

end

/-- The stored records lie before the events of a batch from an index on, and there
is room for those events. -/
structure Progress.Awaits (progress : Progress) (firstOffset : LogicalOffset) (start count : Nat) :
    Prop where
  before : ∀ earlier ∈ progress.stored, earlier.recordRef.offset.toNat < firstOffset.toNat + start
  room : progress.stored.length + count ≤ 2 ^ 32
  fits : firstOffset.toNat + start + count ≤ 2 ^ 64

theorem Progress.Awaits.precedes (h : progress.Awaits firstOffset start count) :
    progress.Precedes firstOffset start count :=
  ⟨h.before, h.fits⟩

/-- After the next event is stored, the others are awaited. -/
theorem Progress.Awaits.next (h : progress.Awaits firstOffset start (count + 1))
    (hstored : later.stored = progress.stored ++
      [intoDurable event shard partition (UInt64.ofNat (firstOffset.toNat + start))]) :
    later.Awaits firstOffset (start + 1) count where
  before := (h.precedes.next hstored).before
  room := by
    have hroom := h.room
    rw [hstored, length_append, length_singleton]
    omega
  fits := (h.precedes.next hstored).fits

/-- What one new event of a batch leaves behind for the next ones. -/
theorem Progress.Precedes.step {address : UInt64}
    {receipt : IndexReceipt stage.Placement stage.Descriptor} {final : LogStripe stage}
    (h : (view.progress partition).Precedes firstOffset start (count + 1))
    (hcomplete : (view.progress partition).Complete) (hholds : Holds tables view stripe)
    (hrun : (applyDurableNew tables address (intoDurable event stripe.streamShardId partition
      (UInt64.ofNat (firstOffset.toNat + start)))).run stripe = .ok receipt final) :
    ∃ view : View, Holds tables view final ∧ (view.progress partition).Complete ∧
      (view.progress partition).Precedes firstOffset (start + 1) count := by
  obtain ⟨progress, htook, hfinal⟩ := (triple_applyDurableNew address _ hcomplete).of_ok hholds hrun
  refine ⟨view.set partition progress, hfinal, ?_, ?_⟩
  · rw [View.progress_set_self]
    exact htook.complete
  · rw [View.progress_set_self]
    exact h.next htook.stored

theorem run_publishDeferred (partition : TopicPartition) (firstOrdinal : Nat)
    (termIds fieldIds : List Nat) (lastDeferred : Option (Nat × LogicalOffset))
    (stripe : LogStripe stage) :
    ∃ final, (publishDeferred partition firstOrdinal termIds fieldIds lastDeferred).run stripe =
      .ok () final ∧ SameRecords stripe final := by
  cases lastDeferred with
  | none => exact ⟨_, rfl, .refl⟩
  | some last => exact ⟨_, rfl, sameRecords_modifyPartition _ _ rfl⟩

/-- New events stored without being indexed, and the same events published one by one. -/
theorem agree_applyDeferred (addresses others : Nat → UInt64) (firstOrdinal : Nat)
    (termIds fieldIds : List Nat) {left right : LogStripe stage}
    {lastDeferred : Option (Nat × LogicalOffset)} (h : SameRecords left right)
    (hholds : Holds tables view right) (hcomplete : (view.progress partition).Complete)
    (hprecedes : (view.progress partition).Precedes firstOffset start events.length) :
    Agree SameRecords (fun deferred receipts => deferred.1 = receipts)
      ((applyDeferred tables addresses partition firstOffset firstOrdinal termIds fieldIds
        (events.zipIdx start) lastDeferred).run left)
      ((applyEvents tables others partition firstOffset (events.zipIdx start)).run right) := by
  induction events generalizing start view left right lastDeferred with
  | nil => exact ⟨rfl, h⟩
  | cons event rest ih =>
    rw [zipIdx_cons, applyDeferred, applyEvents, batchOffset_eq hprecedes.offset_lt]
    set record := intoDurable event right.streamShardId partition
      (UInt64.ofNat (firstOffset.toNat + start)) with hrecord
    change Agree _ _ ((attempt (applyDurableNewInner tables (addresses start) (intoDurable event
        left.streamShardId partition _) false) >>= _ : StripeM stage _).run left)
      ((applyDurableIdempotent tables (others start) record >>= _ : StripeM stage _).run right)
    have hnew := @Holds.run_applyDurableIdempotent stage tables view right record hholds
      (others start) hprecedes.beyond
    rw [h.shard]
    apply Agree.attempt_bind (fun applied receipt => applied.receipt = receipt)
    · rw [hnew]
      exact agree_applyDurableNew h (addresses start) (others start) false record
    · rintro applied _ left right hrun rfl h
      rw [hnew] at hrun
      obtain ⟨next, hnext, hlater, hothers⟩ := hprecedes.step hcomplete hholds hrun
      apply (ih h hnext hlater hothers).bind
      rintro later _ left right _ rfl h
      exact ⟨rfl, h⟩
    · intro e left right h
      obtain ⟨final, hrun, hfinal⟩ := run_publishDeferred partition firstOrdinal termIds fieldIds
        lastDeferred left
      rw [EStateM.run_bind, hrun]
      exact ⟨rfl, hfinal.symm.trans h⟩

/-- One range stores what its events store one by one. -/
theorem agree_applyHomogeneousEvents (addresses others : Nat → UInt64) {first : OtlpLogEvent}
    {rest : List OtlpLogEvent} (hholds : Holds tables view stripe)
    (hcomplete : (view.progress partition).Complete)
    (hprecedes : (view.progress partition).Precedes firstOffset 0 (first :: rest).length) :
    Agree SameRecords Eq
      ((applyHomogeneousEvents tables addresses partition firstOffset first rest).run stripe)
      ((applyEvents tables others partition firstOffset ((first :: rest).zipIdx 0)).run stripe) := by
  have hfirst : UInt64.ofNat (firstOffset.toNat + 0) = firstOffset :=
    UInt64.toNat_inj.mp (toNat_batchOffset hprecedes.offset_lt)
  rw [zipIdx_cons, applyEvents, batchOffset_eq hprecedes.offset_lt]
  set record := intoDurable first stripe.streamShardId partition
    (UInt64.ofNat (firstOffset.toNat + 0)) with hrecord
  change Agree _ _ ((applyDurableNewInner tables (addresses 0) (intoDurable first
      stripe.streamShardId partition firstOffset) true >>= _ : StripeM stage _).run stripe)
    ((applyDurableIdempotent tables (others 0) record >>= _ : StripeM stage _).run stripe)
  have hnew := @Holds.run_applyDurableIdempotent stage tables view stripe record hholds (others 0)
    hprecedes.beyond
  rw [show intoDurable first stripe.streamShardId partition firstOffset = record by
    rw [hrecord, hfirst]]
  apply Agree.bind fun applied receipt => applied.receipt = receipt
  · rw [hnew]
    exact agree_applyDurableNew .refl (addresses 0) (others 0) true record
  rintro applied _ left right hrun rfl h
  rw [hnew] at hrun
  obtain ⟨next, hnext, hlater, hothers⟩ := hprecedes.step hcomplete hholds hrun
  apply (agree_applyDeferred addresses others applied.ordinal (applied.termIds.getD [])
    (applied.fieldIds.getD []) h hnext hlater hothers).bind
  rintro deferred _ left right _ rfl h
  obtain ⟨final, hpublish, hfinal⟩ := run_publishDeferred partition applied.ordinal
    (applied.termIds.getD []) (applied.fieldIds.getD []) deferred.2 left
  rw [EStateM.run_bind, hpublish]
  exact ⟨rfl, hfinal.symm.trans h⟩

variable (tables) in
/-- Apply the events of a batch in order, each as one durable record. -/
def applyInOrder (addresses : Nat → UInt64) (partition : TopicPartition)
    (firstOffset : LogicalOffset) :
    List (OtlpLogEvent × Nat) → StripeM stage (List (IndexReceipt stage.Placement stage.Descriptor))
  | [] => pure []
  | (event, index) :: rest => do
      let offset ← liftResult (batchOffset partition firstOffset index)
      let stripe ← get
      let receipt ← applyDurable tables (addresses index)
        (intoDurable event stripe.streamShardId partition offset)
      let later ← applyInOrder addresses partition firstOffset rest
      pure (receipt :: later)

/-- On new events no repetition is found. -/
theorem run_applyEvents_eq (addresses : Nat → UInt64) {stripe : LogStripe stage}
    (hholds : Holds tables view stripe) (hcomplete : (view.progress partition).Complete)
    (hprecedes : (view.progress partition).Precedes firstOffset start events.length) :
    (applyEvents tables addresses partition firstOffset (events.zipIdx start)).run stripe =
      (applyInOrder tables addresses partition firstOffset (events.zipIdx start)).run stripe := by
  induction events generalizing start view stripe with
  | nil => rfl
  | cons event rest ih =>
    rw [zipIdx_cons, applyEvents, applyInOrder, batchOffset_eq hprecedes.offset_lt]
    set record := intoDurable event stripe.streamShardId partition
      (UInt64.ofNat (firstOffset.toNat + start)) with hrecord
    change (applyDurableIdempotent tables (addresses start) record >>= _ :
        StripeM stage _).run stripe =
      (applyDurable tables (addresses start) record >>= _ : StripeM stage _).run stripe
    rw [EStateM.run_bind, EStateM.run_bind,
      @Holds.run_applyDurableIdempotent stage tables view stripe record hholds (addresses start)
        hprecedes.beyond,
      @Holds.run_applyDurable stage tables view stripe record hholds (addresses start) rfl
        hprecedes.beyond]
    cases hrun : (applyDurableNew tables (addresses start) record).run stripe with
    | error e final => rfl
    | ok receipt final =>
      obtain ⟨next, hnext, hlater, hothers⟩ := hprecedes.step hcomplete hholds hrun
      dsimp only
      rw [EStateM.run_bind, EStateM.run_bind, ih hnext hlater hothers]

end Batch

end ShardLog.Stripe
