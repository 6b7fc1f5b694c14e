import ShardLog.Stripe.Frames

/-!
# Stripe - Partitions that hold ingest packs

A partition that was filled with ingest packs answers every query as a selection
over all records of the packs, at the offsets their appends gave them.

Main results:

- Theorem `queryChecked_holdsPacks`: query results over packs.
-/

namespace ShardLog.Stripe

open ByteReader Utf8 Ingest Structural Sorted Stateful Native AssocMap LogMatch List

variable {stage : BlockStage} {codecs : Codecs} {partition : TopicPartition}
  {firstOffset : LogicalOffset} {stripe : LogStripe stage} {rules : TextRules} {query : LogQuery}

/-! ## Accepted packs -/

theorem batchOffset_eq_ok_iff {offset : LogicalOffset} {index : Nat} :
    batchOffset partition firstOffset index = .ok offset ↔
      offset.toNat = firstOffset.toNat + index := by
  unfold batchOffset
  have hbound := offset.toNat_lt
  by_cases hlt : firstOffset.toNat + index < 2 ^ 64
  · rw [if_pos hlt, Except.ok.injEq]
    constructor
    · rintro rfl
      exact UInt64.toNat_ofNat_of_lt' hlt
    · intro h
      rw [← h]
      exact UInt64.ofNat_toNat
  · grind

/-- A pack starts behind the watermark. -/
theorem validatePackOffset_eq_ok_iff {watermark : Option LogicalOffset} :
    validatePackOffset partition firstOffset watermark = .ok () ↔
      ∀ previous, watermark = some previous → previous < firstOffset := by
  cases watermark with
  | none => simp [validatePackOffset]
  | some previous =>
    simp only [validatePackOffset, Option.some.injEq, forall_eq']
    by_cases hle : firstOffset ≤ previous
    · grind
    · grind

/-- The frames of an accepted append, added to those of its partition. -/
def LogStripe.addFrames (stripe : LogStripe stage) (partition : TopicPartition)
    (append : IndexedFrameAppend) : LogStripe stage :=
  { stripe with
    indexedFramePartitions := update stripe.indexedFramePartitions partition {}
      fun frameIndex =>
        { appends := frameIndex.appends ++ [append]
          indexedThrough := some append.lastOffset } }

/-- A pack is accepted if it has records, fits behind the watermark and decodes; it only adds its
frames. -/
theorem run_applyIndexedIngestPack_eq_ok_iff {final : LogStripe stage} {recordCount : Nat}
    {payload : Bytes} {transientContext : Option Bytes} :
    (applyIndexedIngestPack codecs partition firstOffset recordCount payload
        transientContext).run stripe = .ok () final ↔
      recordCount ≠ 0 ∧
        (∀ previous, stripe.indexedThrough partition = some previous → previous < firstOffset) ∧
        ∃ lastOffset frames, lastOffset.toNat = firstOffset.toNat + (recordCount - 1) ∧
          decodeIndexedIngestFrames codecs payload transientContext recordCount = .ok frames ∧
          final = stripe.addFrames partition ⟨firstOffset, lastOffset, recordCount, frames⟩ := by
  unfold applyIndexedIngestPack
  simp only [succeeds_bind_iff, succeeds_liftResult_iff, ensure_eq_ok_iff,
    batchOffset_eq_ok_iff, EStateM.run_get, EStateM.run_modify, EStateM.Result.ok.injEq]
  constructor
  · rintro ⟨_, _, ⟨hcount, rfl⟩, lastOffset, _, ⟨hlast, rfl⟩, _, _, ⟨rfl, rfl⟩, _, _,
      ⟨hvalid, rfl⟩, frames, _, ⟨hframes, rfl⟩, _, rfl⟩
    exact ⟨hcount, validatePackOffset_eq_ok_iff.mp hvalid, lastOffset, frames, hlast, hframes, rfl⟩
  · rintro ⟨hcount, hvalid, lastOffset, frames, hlast, hframes, rfl⟩
    exact ⟨(), stripe, ⟨hcount, rfl⟩, lastOffset, stripe, ⟨hlast, rfl⟩, stripe, stripe, ⟨rfl, rfl⟩,
      (), stripe, ⟨validatePackOffset_eq_ok_iff.mpr hvalid, rfl⟩, frames, stripe, ⟨hframes, rfl⟩,
      trivial, rfl⟩

/-! ## Partitions filled with packs -/

/-- The append of a pack prepared from a native batch, with the arguments it is
published with. -/
structure PackAppend (codecs : Codecs) where
  placements : ∀ records : List NativeIngestRecordView, Placement records
  batch : Bytes
  prepared : PreparedNativeIngestPack
  events : List OtlpLogEvent
  prepares : prepareNativeIngestPack codecs placements batch = .ok prepared
  decodes : decodeNativeLogEvents batch = .ok (prepared.tenant, events)
  topicPartition : TopicPartition
  firstOffset : LogicalOffset
  recordCount : Nat
  live : Bool

/-- The context travels with a live append only. -/
def PackAppend.transientContext (append : PackAppend codecs) : Option Bytes :=
  if append.live then some append.prepared.ingestPack.transientContext else none

/-- Publish the pack. -/
def PackAppend.program (append : PackAppend codecs) : StripeM stage Unit :=
  applyIndexedIngestPack codecs append.topicPartition append.firstOffset append.recordCount
    append.prepared.ingestPack.payload append.transientContext

/-- The records of the pack, at the offsets behind its first one. -/
def PackAppend.records (append : PackAppend codecs) (shard : ShardId) : List DurableLogRecord :=
  batchRecords shard append.topicPartition append.firstOffset append.events

/-- A partition without hot records that holds accepted packs. Other steps may come between, as long
as they leave it alone. -/
inductive HoldsPacks (partition : TopicPartition) (shard : ShardId) :
    LogStripe stage → List (PackAppend codecs) → Prop
  | empty {stripe : LogStripe stage} :
      stripe.streamShardId = shard → (stripe.partitionOf partition).records = [] →
      get stripe.indexedFramePartitions partition = none →
      HoldsPacks partition shard stripe []
  | append {stripe final : LogStripe stage} {appends : List (PackAppend codecs)}
      (next : PackAppend codecs) :
      HoldsPacks partition shard stripe appends → next.topicPartition = partition →
      next.program.run stripe = .ok () final →
      HoldsPacks partition shard final (appends ++ [next])
  | other {stripe final : LogStripe stage} {appends : List (PackAppend codecs)} :
      HoldsPacks partition shard stripe appends → final.streamShardId = stripe.streamShardId →
      get final.partitions partition = get stripe.partitions partition →
      get final.indexedFramePartitions partition = get stripe.indexedFramePartitions partition →
      HoldsPacks partition shard final appends

/-- An accepted pack is stored as the frames of its batch. -/
theorem PackAppend.holdsBatch (hcodecs : codecs.Lawful) (append : PackAppend codecs)
    {lastOffset : LogicalOffset} {frames : List IndexedIngestFrame} (hcount : append.recordCount ≠ 0)
    (hlast : lastOffset.toNat = append.firstOffset.toNat + (append.recordCount - 1))
    (hframes : decodeIndexedIngestFrames codecs append.prepared.ingestPack.payload
      append.transientContext append.recordCount = .ok frames) :
    HoldsBatch codecs ⟨append.firstOffset, lastOffset, append.recordCount, frames⟩
      append.events := by
  obtain ⟨events, packed, hevents, hprepared, hcarries, hholds⟩ :=
    exists_carriesBatch append.prepares
  have hsame := append.decodes
  rw [hevents, Except.ok.injEq, Prod.mk.injEq] at hsame
  obtain ⟨_, rfl⟩ := hsame
  -- only the count that the payload declares is accepted
  have hdeclared : append.recordCount = append.events.length := by
    obtain ⟨groupCount, hopen, _⟩ := bind_eq_ok_iff.mp hframes
    rw [← recordCount_of_openIngestPack hopen]
    exact (hholds.openIngestPack_eq hcarries.length_lt).1
  have hcontext : append.transientContext =
      some append.prepared.ingestPack.transientContext ∨ append.transientContext = none := by
    unfold PackAppend.transientContext
    split
    · exact Or.inl rfl
    · exact Or.inr rfl
  have hstored := hholds.decodeIndexedIngestFrames_eq hcodecs hcarries.recordTotal_eq
    hcarries.length_lt hcontext
  rw [hdeclared, hstored, Except.ok.injEq] at hframes
  rw [hdeclared] at hlast hcount
  exact ⟨⟨append.placements, packed, hcarries, hframes.symm⟩, hdeclared,
    fun hnil => hcount (by rw [hnil]; rfl), hlast⟩

/-- The frames of a partition. -/
def LogStripe.framesIn (stripe : LogStripe stage) (partition : TopicPartition) :
    IndexedFramePartition :=
  (get stripe.indexedFramePartitions partition).getD {}

theorem LogStripe.framesIn_addFrames (stripe : LogStripe stage) (partition other : TopicPartition)
    (append : IndexedFrameAppend) :
    (stripe.addFrames partition append).framesIn other =
      if other = partition then
        { appends := (stripe.framesIn partition).appends ++ [append]
          indexedThrough := some append.lastOffset }
      else stripe.framesIn other := by
  unfold LogStripe.addFrames LogStripe.framesIn
  rw [get_update]
  split <;> rfl

/-- The watermark of a partition is not below that of its frames. -/
theorem LogStripe.frameWatermark_le {watermark : LogicalOffset}
    (h : (stripe.framesIn partition).indexedThrough = some watermark) :
    ∃ visible, stripe.indexedThrough partition = some visible ∧ watermark ≤ visible := by
  unfold LogStripe.framesIn at h
  unfold LogStripe.indexedThrough
  cases hframes : get stripe.indexedFramePartitions partition with
  | none =>
    rw [hframes] at h
    cases h
  | some frameIndex => grind

/-- The appends stored for a partition follow each other up to the watermark. -/
structure OrderedAppends (frameIndex : IndexedFramePartition) : Prop where
  ordered : frameIndex.appends.Pairwise fun earlier later => earlier.lastOffset < later.firstOffset
  bounded : ∀ append ∈ frameIndex.appends, append.firstOffset ≤ append.lastOffset ∧
    ∃ watermark, frameIndex.indexedThrough = some watermark ∧ append.lastOffset ≤ watermark

/-- An append accepted behind the watermark keeps the appends ordered. -/
theorem OrderedAppends.addFrames (h : OrderedAppends (stripe.framesIn partition))
    {append : IndexedFrameAppend}
    (hbehind : ∀ previous, stripe.indexedThrough partition = some previous →
      previous < append.firstOffset) (hrange : append.firstOffset ≤ append.lastOffset) :
    OrderedAppends ((stripe.addFrames partition append).framesIn partition) := by
  have hbefore : ∀ earlier ∈ (stripe.framesIn partition).appends,
      earlier.lastOffset < append.firstOffset := by
    intro earlier hearlier
    obtain ⟨_, watermark, hwatermark, hle⟩ := h.bounded earlier hearlier
    obtain ⟨visible, hvisible, hle'⟩ := LogStripe.frameWatermark_le hwatermark
    exact UInt64.lt_of_le_of_lt hle (UInt64.lt_of_le_of_lt hle' (hbehind visible hvisible))
  rw [LogStripe.framesIn_addFrames, if_pos rfl]
  constructor
  · refine pairwise_append.mpr ⟨h.ordered, pairwise_singleton _ _, ?_⟩
    intro earlier hearlier later hlater
    rw [mem_singleton.mp hlater]
    exact hbefore earlier hearlier
  · intro stored hstored
    rcases mem_append.mp hstored with hold | hnew
    · refine ⟨(h.bounded stored hold).1, _, rfl, ?_⟩
      exact UInt64.le_of_lt (UInt64.lt_of_lt_of_le (hbefore stored hold) hrange)
    · grind

/-! ## Offsets of the records -/

section Offsets

variable {shard : ShardId} {partition : TopicPartition} {append : IndexedFrameAppend}
  {events : List OtlpLogEvent}

/-- A record of a stored batch lies between the offsets of its append. -/
theorem HoldsBatch.offset_mem (h : HoldsBatch codecs append events) {record : DurableLogRecord}
    (hrecord : record ∈ batchRecords shard partition append.firstOffset events) :
    append.firstOffset ≤ structuralOffset record ∧ structuralOffset record ≤ append.lastOffset := by
  obtain ⟨ordinal, hordinal, rfl⟩ := mem_map.mp hrecord
  have hlt := mem_range.mp hordinal
  have hlast := h.lastOffset
  have hbound := append.lastOffset.toNat_lt
  have hfits : append.firstOffset.toNat + ordinal < 2 ^ 64 := by omega
  have hoffset : (structuralOffset (recordAt shard partition append.firstOffset events
      ordinal)).toNat = append.firstOffset.toNat + ordinal := UInt64.toNat_ofNat_of_lt' hfits
  rw [UInt64.le_iff_toNat_le, UInt64.le_iff_toNat_le, hoffset]
  omega

/-- The offsets of one batch increase. -/
theorem HoldsBatch.pairwise_offsets (h : HoldsBatch codecs append events) :
    (batchRecords shard partition append.firstOffset events).Pairwise fun left right =>
      structuralOffset left < structuralOffset right := by
  have hlast := h.lastOffset
  have hbound := append.lastOffset.toNat_lt
  rw [batchRecords, pairwise_map]
  refine (Pairwise.and_mem.mp pairwise_lt_range).imp ?_
  rintro left right ⟨hleft, hright, hlt⟩
  have hright' := mem_range.mp hright
  have hfits : append.firstOffset.toNat + left < 2 ^ 64 := by omega
  have hfits' : append.firstOffset.toNat + right < 2 ^ 64 := by omega
  have hoffset : (structuralOffset (recordAt shard partition append.firstOffset events
      left)).toNat = append.firstOffset.toNat + left := UInt64.toNat_ofNat_of_lt' hfits
  have hoffset' : (structuralOffset (recordAt shard partition append.firstOffset events
      right)).toNat = append.firstOffset.toNat + right := UInt64.toNat_ofNat_of_lt' hfits'
  rw [UInt64.lt_iff_toNat_lt, hoffset, hoffset']
  omega

/-- The offsets of batches stored one behind the other increase. -/
theorem pairwise_offsets_batches {appends : List IndexedFrameAppend}
    {batches : List (LogicalOffset × List OtlpLogEvent)}
    (hstored : Forall₂ (fun append batch => append.firstOffset = batch.1 ∧
      HoldsBatch codecs append batch.2) appends batches)
    (hordered : appends.Pairwise fun earlier later => earlier.lastOffset < later.firstOffset) :
    (batches.flatMap fun batch => batchRecords shard partition batch.1 batch.2).Pairwise
      fun left right => structuralOffset left < structuralOffset right := by
  induction hstored with
  | nil => exact Pairwise.nil
  | @cons append batch appends batches hfirst hrest ih =>
    obtain ⟨hbefore, hlater⟩ := pairwise_cons.mp hordered
    obtain ⟨hoffset, hholds⟩ := hfirst
    rw [flatMap_cons, ← hoffset]
    refine pairwise_append.mpr ⟨hholds.pairwise_offsets, ih hlater, ?_⟩
    intro left hleft right hright
    obtain ⟨other, hother, hright⟩ := mem_flatMap.mp hright
    obtain ⟨stored, hstoredAt, hstoredOffset, hstoredHolds⟩ := forall₂_mem hrest.flip hother
    rw [← hstoredOffset] at hright
    have hgap := hbefore stored hstoredAt
    have hlow := (hholds.offset_mem hleft).2
    have hhigh := (hstoredHolds.offset_mem hright).1
    exact UInt64.lt_of_le_of_lt hlow (UInt64.lt_of_lt_of_le hgap hhigh)

end Offsets

/-! ## Queries -/

/-- How the packs of a partition are stored. -/
structure PacksStored (partition : TopicPartition) (shard : ShardId) (stripe : LogStripe stage)
    (appends : List (PackAppend codecs)) : Prop where
  shard : stripe.streamShardId = shard
  hot : (stripe.partitionOf partition).records = []
  inPartition : ∀ append ∈ appends, append.topicPartition = partition
  stored : List.Forall₂ (fun append batch => append.firstOffset = batch.1 ∧
    HoldsBatch codecs append batch.2) (stripe.framesIn partition).appends
    (appends.map fun append => (append.firstOffset, append.events))
  ordered : OrderedAppends (stripe.framesIn partition)

variable {shard : ShardId} {appends : List (PackAppend codecs)}

/-- The packs are stored in order. -/
theorem HoldsPacks.packsStored (hcodecs : codecs.Lawful)
    (h : HoldsPacks partition shard stripe appends) :
    PacksStored partition shard stripe appends := by
  induction h with
  | @empty stripe hshard hhot hframes =>
    have hnone : stripe.framesIn partition = {} := by
      rw [LogStripe.framesIn, hframes]
      rfl
    refine ⟨hshard, hhot, by simp, ?_, ?_⟩
    · rw [hnone]
      exact Forall₂.nil
    · rw [hnone]
      exact ⟨Pairwise.nil, by simp⟩
  | @append stripe final appends next _ hpartition hrun ih =>
    obtain ⟨hcount, hbehind, lastOffset, frames, hlast, hframes, rfl⟩ :=
      run_applyIndexedIngestPack_eq_ok_iff.mp hrun
    have hholds := next.holdsBatch hcodecs hcount hlast hframes
    rw [hpartition] at hbehind
    refine ⟨ih.shard, ih.hot, forall_mem_append.mpr
      ⟨ih.inPartition, forall_mem_singleton.mpr hpartition⟩, ?_, ?_⟩
    · rw [hpartition, LogStripe.framesIn_addFrames, if_pos rfl, map_append]
      exact rel_append ih.stored (Forall₂.cons ⟨rfl, hholds⟩ Forall₂.nil)
    · rw [hpartition]
      apply ih.ordered.addFrames hbehind
      rw [UInt64.le_iff_toNat_le, hlast]
      exact Nat.le_add_right _ _
  | @other stripe final appends _ hshard hhot hframes ih =>
    have hsame : final.framesIn partition = stripe.framesIn partition := by
      rw [LogStripe.framesIn, hframes, LogStripe.framesIn]
    have hsameHot : final.partitionOf partition = stripe.partitionOf partition := by
      rw [LogStripe.partitionOf, hhot, LogStripe.partitionOf]
    exact ⟨hshard.trans ih.shard, hsameHot ▸ ih.hot, ih.inPartition, hsame ▸ ih.stored,
      hsame ▸ ih.ordered⟩

/-- A partition without hot records contributes no hot match. -/
theorem queryHotMatches_eq_nil (h : (stripe.partitionOf query.topicPartition).records = []) :
    stripe.queryHotMatches rules query = .ok [] := by
  unfold LogStripe.queryHotMatches
  cases hindex : get stripe.partitions query.topicPartition with
  | none => rfl
  | some index =>
    have hrecords : index.records = [] := by
      rw [LogStripe.partitionOf, hindex] at h
      exact h
    have hordinals : ∃ ordinals, queryOrdinals rules query index = .ok ordinals := by
      unfold queryOrdinals
      split
      · exact ⟨_, rfl⟩
      · dsimp only
        split
        · exact ⟨_, rfl⟩
        · have hwindow : ordinalRecordWindow index.records query.startOffset query.endOffset =
              (0, 0) := by
            rw [hrecords]
            cases query.startOffset <;> cases query.endOffset <;> rfl
          have hzero : expectU32 "record ordinal was bounded by ingest" 0 = .ok 0 := rfl
          rw [hwindow, hzero, ok_bind, ok_bind]
          split <;> exact ⟨_, rfl⟩
    obtain ⟨ordinals, hordinals⟩ := hordinals
    dsimp only
    rw [hordinals, ok_bind, hrecords]
    simp

theorem queryFrameMatches_eq (rules : TextRules) (query : LogQuery) (codecs : Codecs)
    (stripe : LogStripe stage) :
    stripe.queryFrameMatches rules query codecs =
      stripe.queryIndexedFrames rules query codecs (stripe.framesIn query.topicPartition) := by
  unfold LogStripe.queryFrameMatches LogStripe.framesIn
  cases get stripe.indexedFramePartitions query.topicPartition with
  | none =>
    unfold LogStripe.queryIndexedFrames
    simp [collect]
  | some frameIndex => rfl

/-- Sorting and truncating found matches selects from the records with distinct
offsets that they come from. -/
theorem truncate_sort_matches {records : List DurableLogRecord}
    (hoffsets : (records.map structuralOffset).Nodup) {found : List LogMatch}
    (hfound : found.Perm ((records.filter (query.matches rules)).map mk)) :
    truncateTo query.limit
        (sortUnstableBy (fun left right => query.compare left.record right.record) found) =
      (query.select rules records).map mk := by
  have hrecords : (found.map record).Perm (records.filter (query.matches rules)) := by
    have hperm := hfound.map record
    rwa [map_map, show record ∘ mk = id from rfl, map_id] at hperm
  have hsorted := @map_sortUnstableBy _ query.compare _ mk
    (fun left right => query.compare left.record right.record) (found.map record)
    fun _ _ _ _ => rfl
  rw [map_map, show mk ∘ record = id from rfl, map_id] at hsorted
  rw [← hsorted, truncateTo_map, query.select_eq_of_perm hoffsets hrecords]

/-- The selection over packs, whatever rules file their terms as the query asks. -/
theorem PacksStored.queryChecked_eq (hcodecs : codecs.Lawful)
    (h : PacksStored query.topicPartition shard stripe appends)
    (hfiled : ∀ append ∈ appends, BatchFiled rules codecs.tables query append.events) :
    stripe.queryChecked rules query codecs =
      .ok ((query.select rules (appends.flatMap (·.records shard))).map LogMatch.mk) := by
  unfold LogStripe.queryChecked
  by_cases hearly : query.limit = some 0 ∨ query.hasInvalidRange = true
  · rw [if_pos hearly, query.select_eq_nil hearly]
    rfl
  · rw [if_neg hearly, queryHotMatches_eq_nil h.hot, ok_bind]
    have hrecords : appends.flatMap (·.records shard) =
        (appends.map fun append => (append.firstOffset, append.events)).flatMap fun batch =>
          batchRecords shard query.topicPartition batch.1 batch.2 := by
      rw [flatMap_map]
      apply flatMap_congr
      intro append happend
      rw [PackAppend.records, h.inPartition append happend]
    have hoffsets : ((appends.flatMap (·.records shard)).map structuralOffset).Nodup := by
      rw [hrecords, Nodup, pairwise_map]
      exact (pairwise_offsets_batches h.stored h.ordered.ordered).imp fun hlt => UInt64.ne_of_lt hlt
    have hall : ∀ batch ∈ appends.map fun append => (append.firstOffset, append.events),
        BatchFiled rules codecs.tables query batch.2 := by grind
    obtain ⟨found, hfound, hperm⟩ := @queryIndexedFrames_perm codecs rules query stage stripe hcodecs
      _ _ h.stored hall
    rw [h.shard, ← hrecords] at hperm
    rw [queryFrameMatches_eq, hfound, ok_bind, nil_append, truncate_sort_matches hoffsets hperm]

/-- A partition of packs answers with the selection over all their records, terms being equal if
filed under one key. -/
theorem queryChecked_holdsPacks (hcodecs : codecs.Lawful) (isMatch : LogRegex → Str → Bool)
    {shard : ShardId} {stripe : LogStripe stage} {appends : List (PackAppend codecs)}
    (h : HoldsPacks query.topicPartition shard stripe appends) :
    stripe.queryChecked (TextRules.normalized codecs.tables isMatch) query codecs =
      .ok ((query.select (TextRules.normalized codecs.tables isMatch)
        (appends.flatMap (·.records shard))).map mk) := by
  apply (h.packsStored hcodecs).queryChecked_eq hcodecs
  intro append _ event _
  exact filedUnderRequest_normalized codecs.tables isMatch query event.message

/-! ## A sample partition -/

def freshStripe : LogStripe idleStage := { streamShardId := 0, blocks := () }

/-- A fresh stripe accepts the sample pack at offset five. -/
theorem exists_sampleAppend : ∃ (append : PackAppend sampleCodecs)
    (frames : List IndexedIngestFrame), append.events.length = 3 ∧
    append.topicPartition = samplePartition ∧ append.firstOffset = 5 ∧
    append.program.run freshStripe =
      .ok () (freshStripe.addFrames samplePartition ⟨5, 7, 3, frames⟩) := by
  obtain ⟨prepared, hprepared⟩ := exists_samplePack
  obtain ⟨events, packed, hevents, hcount, hcarries, hholds⟩ := exists_carriesBatch hprepared
  have hthree : (decodeNativeLogEvents sampleBatch).map (·.2.length) = .ok 3 := by decide +kernel
  have hlength : events.length = 3 := by
    rw [hevents] at hthree
    exact Except.ok.inj hthree
  have hframes := hholds.decodeIndexedIngestFrames_eq sampleCodecs_lawful hcarries.recordTotal_eq
    hcarries.length_lt (.inl rfl)
  rw [hlength] at hframes
  refine ⟨⟨Placement.byContent, sampleBatch, prepared, events, hprepared, hevents, samplePartition,
    5, 3, true⟩, framesOf packed, hlength, rfl, rfl, ?_⟩
  apply run_applyIndexedIngestPack_eq_ok_iff.mpr
  have hlast : (7 : UInt64).toNat = (5 : UInt64).toNat + (3 - 1) := by decide
  refine ⟨Nat.succ_ne_zero 2, ?_, 7, framesOf packed, hlast, hframes, rfl⟩
  intro previous hprevious
  cases hprevious

theorem queryChecked_sampleAppend : ∃ (append : PackAppend sampleCodecs)
    (stripe : LogStripe idleStage), append.events.length = 3 ∧
    HoldsPacks samplePartition 0 stripe [append] ∧
    stripe.queryChecked (TextRules.normalized latinTables fun _ _ => false)
        { topicPartition := samplePartition, terms := ["get".toList], order := .newestFirst }
        sampleCodecs =
      .ok ((LogQuery.select
        { topicPartition := samplePartition, terms := ["get".toList], order := .newestFirst }
        (TextRules.normalized latinTables fun _ _ => false)
        ([append].flatMap (·.records 0))).map mk) := by
  obtain ⟨append, frames, hlength, hpartition, _, hrun⟩ := exists_sampleAppend
  have hempty : @HoldsPacks idleStage sampleCodecs samplePartition 0 freshStripe [] :=
    .empty rfl rfl rfl
  have hholds := hempty.append append hpartition hrun
  exact ⟨append, _, hlength, hholds,
    queryChecked_holdsPacks sampleCodecs_lawful (fun _ _ => false) hholds⟩

end ShardLog.Stripe
