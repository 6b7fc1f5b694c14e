import ShardLog.Stripe.HotQuery
import ShardLog.Stripe.Packs

/-!
# Stripe - Unique offsets

Hot records and indexed frames of one partition keep separate watermarks.  A pack
is checked against both; a hot record only against the hot one, so a hot record
may take an offset that a frame already has.  In runs whose hot records lie beyond
the frames of their partition, every offset is shown at most once.

Main results:

- Theorem `uniqueOffsets_of_offsetRun`: offsets in runs whose hot records lie
  beyond the frames.
- Theorem `hot_record_repeats_frame_offset`: an offset shown twice.
-/

namespace ShardLog.Stripe

open ByteReader Ingest Structural Sorted Stateful LogMatch LogStripe List
open HotPostingList (inWindow inWindow_eq_true_iff)

variable {stage : BlockStage} {codecs : Codecs} {rules : TextRules} {query : LogQuery}
  {stripe : LogStripe stage} {tables : UnicodeTables} {view : View} {Placement : Type}
  {index : PartitionIndex Placement} {ordinals : List Nat} {partition : TopicPartition}
  {progress : Progress} {found : List LogMatch} {batches : List (LogicalOffset × List OtlpLogEvent)}
  {record : DurableLogRecord} {operation : HotOperation} {final : LogStripe stage}
  {added : List DurableLogRecord} {succeeded : Prop}

/-! ## What queries show -/

/-- Whatever candidates are finished, no ordinal is returned twice. -/
theorem nodup_finishOrdinals (h : ordinals.Nodup) :
    (finishOrdinals rules query index ordinals).Nodup := by
  have hfiltered : (residualFilter rules query index ordinals).Nodup := by
    unfold residualFilter
    split
    · exact h.filter _
    · exact h
  refine Nodup.sublist (truncateTo_sublist _ _) ?_
  split
  · exact (perm_sortUnstableBy _ _).nodup_iff.mpr hfiltered
  · split
    · exact nodup_reverse.mpr hfiltered
    · exact hfiltered

/-- The posting lists of an exact index are well formed. -/
theorem wellFormed_constraintPostings (h : Indexes tables partition progress index)
    {constraints : RequiredIndexConstraints} {start stop : Nat} {lists : List HotPostingList}
    (hlists : constraintPostings rules index constraints start stop = some lists) :
    ∀ list ∈ lists, list.WellFormed := by
  have hterms := @postingListsIn_spec _ _ _ _ _ start stop h.terms
    (constraints.terms.map (normalizeTerm rules.tables))
  have hfields := @postingListsIn_spec _ _ _ _ _ start stop h.fields constraints.fields
  rw [← postingListsIn_map] at hterms
  unfold constraintPostings at hlists
  rw [h.termIds, h.fieldIds] at hlists
  cases hfound : postingListsIn (fun term => AssocMap.get progress.termIds
      (normalizeTerm rules.tables term)) index.termPostings start stop constraints.terms with
  | none =>
    rw [hfound] at hlists
    cases hlists
  | some termLists => grind [wellFormed_lists]

/-- A query of an exact index returns no ordinal twice. -/
theorem nodup_queryOrdinals (h : Indexes tables partition progress index)
    (hordinals : queryOrdinals rules query index = .ok ordinals) :
    ordinals.Nodup := by
  unfold queryOrdinals at hordinals
  split at hordinals
  · cases hordinals
    exact nodup_nil
  · dsimp only at hordinals
    split at hordinals
    · cases hordinals
      exact nodup_nil
    · obtain ⟨start, hstart, hrest⟩ := bind_eq_ok_iff.mp hordinals
      obtain ⟨stop, hstop, hplan⟩ := bind_eq_ok_iff.mp hrest
      have hfits : stop < 2 ^ 32 := by grind [expectU32_of_lt, expectU32_of_ge]
      split at hplan
      · cases hplan
        exact nodup_nil
      · rename_i lists hlists
        cases hplan
        rw [planOrdinals_eq (wellFormed_constraintPostings h hlists) hfits]
        exact nodup_finishOrdinals (pairwise_windowCandidates _ _ _).nodup

/-- The hot matches of a query are some of the hot records, each once. -/
theorem queryHotMatches_subperm (h : Holds tables view stripe)
    (hfound : stripe.queryHotMatches rules query = .ok found) :
    found.Subperm ((stripe.hotRecords query.topicPartition).map mk) := by
  have hindexes := h.indexes query.topicPartition
  unfold queryHotMatches at hfound
  unfold hotRecords partitionOf
  unfold partitionOf at hindexes
  cases hget : AssocMap.get stripe.partitions query.topicPartition with
  | none =>
    rw [hget] at hfound
    cases hfound
    exact nil_subperm
  | some index =>
    rw [hget] at hfound hindexes
    obtain ⟨ordinals, hordinals, hmatches⟩ := bind_eq_ok_iff.mp hfound
    cases hmatches
    rw [Option.getD_some, map_map]
    have hread : (ordinals.filterMap fun ordinal => index.records[ordinal]?.map fun record =>
        (⟨record.record⟩ : LogMatch)) =
        ordinals.filterMap ((index.records.map fun record => LogMatch.mk record.record)[·]?) := by
      simp
    rw [hread]
    exact subperm_filterMap_getElem? _ (nodup_queryOrdinals hindexes hordinals)

/-- The frames of a partition hold batches, one behind the other. -/
structure FramesStored (codecs : Codecs) (frameIndex : IndexedFramePartition)
    (batches : List (LogicalOffset × List OtlpLogEvent)) : Prop where
  stored : List.Forall₂ (fun append batch => append.firstOffset = batch.1 ∧
    HoldsBatch codecs append batch.2) frameIndex.appends batches
  ordered : OrderedAppends frameIndex

/-- The records that the frames of a partition stand for. -/
def frameRecords (shard : ShardId) (partition : TopicPartition)
    (batches : List (LogicalOffset × List OtlpLogEvent)) : List DurableLogRecord :=
  batches.flatMap fun batch => batchRecords shard partition batch.1 batch.2

section

variable (hcodecs : codecs.Lawful)

include hcodecs

/-- The matches of a query in one append are some of its records, each once. -/
theorem queryAppend_subperm {append : IndexedFrameAppend} {events : List OtlpLogEvent}
    (h : HoldsBatch codecs append events) {results : List (List LogMatch)}
    (hresults : collect (stripe.queryIndexedFrame rules query codecs append)
      (append.frames.filter (frameMatchesQueryBounds query)) = .ok results) :
    results.flatten.Subperm ((batchRecords stripe.streamShardId query.topicPartition
      append.firstOffset events).map mk) := by
  obtain ⟨placements, packed, hcarries, hframes⟩ := h.frames
  have hbound := append.lastOffset.toNat_lt
  have hoffsets : append.firstOffset.toNat + (events.length - 1) < 2 ^ 64 := h.lastOffset ▸ hbound
  let record := recordAt stripe.streamShardId query.topicPartition append.firstOffset events
  let contribution := fun entry : PackedGroup codecs placements =>
    (entry.group.2.map fun view => record view.ordinal).map LogMatch.mk
  have hframe : ∀ entry ∈ packed, ∀ found,
      stripe.queryIndexedFrame rules query codecs append (entry.parts.frame entry.group) =
        .ok found → found.Subperm (contribution entry) := by
    intro entry hentry found hfound
    have hviews := groupOf_of_carriesBatch hcarries hentry
    exact (queryIndexedFrame_sublist hcodecs h.recordCount hoffsets hviews hfound).subperm
  have hperm := (perm_flatMap_of_carriesBatch hcarries record).map LogMatch.mk
  rw [map_flatMap] at hperm
  rw [hframes] at hresults
  have hsubperm := subperm_of_collect_filter
    (forall₂_map_left_iff.mpr (forall₂_same.mpr hframe)) hresults
  exact hsubperm.trans hperm.subperm

/-- The matches of a query in the frames are some of their records, each once. -/
theorem queryFrameMatches_subperm
    (h : FramesStored codecs (stripe.framesIn query.topicPartition) batches)
    (hfound : stripe.queryFrameMatches rules query codecs = .ok found) :
    found.Subperm ((frameRecords stripe.streamShardId query.topicPartition batches).map mk) := by
  rw [queryFrameMatches_eq] at hfound
  unfold queryIndexedFrames at hfound
  split at hfound
  · cases hfound
    exact nil_subperm
  · obtain ⟨results, hresults, hflatten⟩ := bind_eq_ok_iff.mp hfound
    cases hflatten
    have happend : Forall₂ (fun append batch => ∀ found, (do
          let found ← collect (stripe.queryIndexedFrame rules query codecs append)
            (append.frames.filter (frameMatchesQueryBounds query))
          .ok found.flatten : QueryResult (List LogMatch)) = .ok found →
        found.Subperm ((batchRecords stripe.streamShardId query.topicPartition batch.1
          batch.2).map mk)) (stripe.framesIn query.topicPartition).appends batches := by
      refine h.stored.imp ?_
      rintro append batch ⟨hfirst, hholds⟩ found hrun
      obtain ⟨lists, hlists, heq⟩ := bind_eq_ok_iff.mp hrun
      cases heq
      rw [← hfirst]
      exact queryAppend_subperm hcodecs hholds hlists
    have hsubperm := subperm_of_collect_filter happend hresults
    rwa [← map_flatMap] at hsubperm

/-- A query shows some of the records that its partition stores, each once. -/
theorem queryChecked_subperm (h : Holds tables view stripe)
    (hframes : FramesStored codecs (stripe.framesIn query.topicPartition) batches)
    (hfound : stripe.queryChecked rules query codecs = .ok found) :
    found.Subperm ((stripe.hotRecords query.topicPartition ++
      frameRecords stripe.streamShardId query.topicPartition batches).map mk) := by
  unfold queryChecked at hfound
  split at hfound
  · cases hfound
    exact nil_subperm
  · obtain ⟨hot, hhot, hrest⟩ := bind_eq_ok_iff.mp hfound
    obtain ⟨framed, hframed, heq⟩ := bind_eq_ok_iff.mp hrest
    cases heq
    have hboth := (queryHotMatches_subperm h hhot).append
      (queryFrameMatches_subperm hcodecs hframes hframed)
    rw [← map_append] at hboth
    exact ((truncateTo_sublist _ _).subperm.trans (perm_sortUnstableBy _ _).subperm).trans hboth

end

/-! ## Unique offsets -/

/-- A query of the partition returns these matches. -/
def Shows (codecs : Codecs) (rules : TextRules) (stripe : LogStripe stage)
    (partition : TopicPartition) (found : List LogMatch) : Prop :=
  ∃ query : LogQuery, query.topicPartition = partition ∧
    stripe.queryChecked rules query codecs = .ok found

/-- No two records that queries of a partition show have the same offset. -/
structure UniqueOffsets (codecs : Codecs) (rules : TextRules) (stripe : LogStripe stage)
    (partition : TopicPartition) : Prop where
  once : ∀ found, Shows codecs rules stripe partition found →
    (found.map (·.record.recordRef.offset)).Nodup
  same : ∀ found other, Shows codecs rules stripe partition found →
    Shows codecs rules stripe partition other → ∀ left ∈ found, ∀ right ∈ other,
      left.record.recordRef.offset = right.record.recordRef.offset → left = right

/-- Hot records and frames of a partition do not share offsets. -/
def Apart (hot : List DurableLogRecord) (appends : List IndexedFrameAppend) : Prop :=
  ∀ record ∈ hot, ∀ append ∈ appends,
    record.recordRef.offset < append.firstOffset ∨ append.lastOffset < record.recordRef.offset

/-- What keeps the offsets of a stripe unique. -/
structure OffsetsStored (codecs : Codecs) (view : View) (stripe : LogStripe stage) : Prop where
  complete : view.Complete
  holds : Holds codecs.tables view stripe
  frames : ∀ partition, ∃ batches, FramesStored codecs (stripe.framesIn partition) batches
  apart : ∀ partition, Apart (stripe.hotRecords partition) (stripe.framesIn partition).appends

/-- Records of frames lie in an append. -/
theorem mem_frameRecords {shard : ShardId} {frameIndex : IndexedFramePartition}
    (h : FramesStored codecs frameIndex batches)
    (hrecord : record ∈ frameRecords shard partition batches) :
    ∃ append ∈ frameIndex.appends, append.firstOffset ≤ record.recordRef.offset ∧
      record.recordRef.offset ≤ append.lastOffset := by
  obtain ⟨batch, hbatch, hmem⟩ := mem_flatMap.mp hrecord
  obtain ⟨append, happend, hfirst, hholds⟩ := forall₂_mem h.stored.flip hbatch
  rw [← hfirst] at hmem
  exact ⟨append, happend, hholds.offset_mem hmem⟩

/-- Stored records of a partition have distinct offsets. -/
theorem OffsetsStored.nodup (h : OffsetsStored codecs view stripe)
    (hframes : FramesStored codecs (stripe.framesIn partition) batches) :
    ((stripe.hotRecords partition ++
      frameRecords stripe.streamShardId partition batches).map (·.recordRef.offset)).Nodup := by
  rw [map_append]
  refine nodup_append.mpr ⟨?_, ?_, ?_⟩
  · rw [h.holds.hotRecords_eq]
    exact (h.holds.indexes partition).increasing.nodup
  · exact OffsetsIncrease.nodup (pairwise_offsets_batches hframes.stored hframes.ordered.ordered)
  · intro offset hhot other hframed heq
    obtain ⟨record, hrecord, rfl⟩ := mem_map.mp hhot
    obtain ⟨framed, hframedRecord, rfl⟩ := mem_map.mp hframed
    obtain ⟨append, happend, hlow, hhigh⟩ := mem_frameRecords hframes hframedRecord
    rcases h.apart partition record hrecord append happend with hbefore | hbehind
    · grind
    · grind

/-- Separate offsets are unique. -/
theorem OffsetsStored.uniqueOffsets (hcodecs : codecs.Lawful)
    (h : OffsetsStored codecs view stripe) (rules : TextRules) (partition : TopicPartition) :
    UniqueOffsets codecs rules stripe partition := by
  obtain ⟨batches, hframes⟩ := h.frames partition
  have hnodup := h.nodup hframes
  have hshown : ∀ found, Shows codecs rules stripe partition found →
      found.Subperm ((stripe.hotRecords partition ++
        frameRecords stripe.streamShardId partition batches).map LogMatch.mk) := by
    rintro found ⟨query, rfl, hfound⟩
    exact queryChecked_subperm hcodecs h.holds hframes hfound
  constructor
  · intro found hfound
    obtain ⟨part, hperm, hsublist⟩ := hshown found hfound
    have hoffsets := hsublist.map (·.record.recordRef.offset)
    rw [map_map] at hoffsets
    exact (hperm.map _).nodup_iff.mp (hnodup.sublist hoffsets)
  · intro found other hfound hother left hleft right hright heq
    obtain ⟨first, hfirst, rfl⟩ := mem_map.mp ((hshown found hfound).subset hleft)
    obtain ⟨second, hsecond, rfl⟩ := mem_map.mp ((hshown other hother).subset hright)
    exact congrArg LogMatch.mk (inj_on_of_nodup_map hnodup hfirst hsecond heq)

/-! ## Steps -/

/-- Operations that publish records on a stripe, hot or by packs. -/
inductive StripeOperation (codecs : Codecs) where
  | hot (operation : HotOperation)
  | pack (append : PackAppend codecs)

def StripeOperation.program : StripeOperation codecs → StripeM stage Unit
  | .hot operation => operation.program codecs.tables
  | .pack append => append.program

/-- The records that a hot operation asks to publish. -/
def HotOperation.records (shard : ShardId) : HotOperation → List DurableLogRecord
  | .applyDurable _ record => [record]
  | .applyOtlpEvents _ partition firstOffset events =>
    durableEvents shard partition firstOffset (events.zipIdx 0)
  | .sealActiveBlocks => []

/-- Every hot record lies beyond the frames of its partition, or is a repetition of
a hot record. -/
def StripeOperation.Beyond (stripe : LogStripe stage) : StripeOperation codecs → Prop
  | .hot operation => ∀ record ∈ operation.records stripe.streamShardId,
      record ∈ stripe.hotRecords record.recordRef.topicPartition ∨
        ∀ through, (stripe.framesIn record.recordRef.topicPartition).indexedThrough = some through →
          through < record.recordRef.offset
  | .pack _ => True

/-- An operation adds some of its records, beyond the old ones, and all of them if it succeeds. -/
structure HotStep (operation : HotOperation) (stripe final : LogStripe stage) (succeeded : Prop) :
    Prop where
  shard : final.streamShardId = stripe.streamShardId
  frames : final.indexedFramePartitions = stripe.indexedFramePartitions
  added : ∀ partition, ∃ added, final.hotRecords partition = stripe.hotRecords partition ++ added ∧
      OffsetsIncrease (stripe.hotRecords partition ++ added) ∧
      ∀ record ∈ added, record ∈ operation.records stripe.streamShardId ∧
        record.recordRef.topicPartition = partition
  all : succeeded → ∀ record ∈ operation.records stripe.streamShardId,
    record ∈ final.hotRecords record.recordRef.topicPartition

/-- A grown stripe has made a step. -/
theorem Grown.hotStep (h : Grown tables view partition added final)
    (hholds : Holds tables view stripe)
    (hadded : ∀ record ∈ added, record ∈ operation.records stripe.streamShardId)
    (hall : succeeded → ∀ record ∈ operation.records stripe.streamShardId,
      record.recordRef.topicPartition = partition ∧
        record ∈ (view.progress partition).stored ++ added) :
    HotStep operation stripe final succeeded := by
  obtain ⟨progress, htook, hfinal⟩ := h
  have hstored : final.hotRecords partition = (view.progress partition).stored ++ added := by
    rw [hfinal.hotRecords_eq, View.progress_set_self, htook.stored]
  refine ⟨?_, ?_, ?_, ?_⟩
  · rw [hfinal.shard]
    exact hholds.shard.symm
  · rw [hfinal.frames]
    exact hholds.frames.symm
  · intro other
    have hincreasing := (hfinal.indexes other).increasing
    have hhome := (hfinal.indexes other).home
    rw [← hfinal.hotRecords_eq] at hincreasing hhome
    by_cases hother : other = partition
    · subst hother
      rw [← hholds.hotRecords_eq] at hstored
      refine ⟨added, hstored, hstored ▸ hincreasing, ?_⟩
      intro record hrecord
      exact ⟨hadded record hrecord, hhome record (hstored ▸ mem_append_right _ hrecord)⟩
    · have hsame : final.hotRecords other = stripe.hotRecords other := by
        rw [hfinal.hotRecords_eq, View.progress_set, if_neg hother, hholds.hotRecords_eq]
      refine ⟨[], by rw [hsame, append_nil], ?_, by simp⟩
      rwa [append_nil, ← hsame]
  · grind

/-- Every operation makes a step. -/
theorem triple_hotStep (operation : HotOperation) (hcomplete : view.Complete)
    (hholds : Holds tables view stripe) :
    Triple (fun state => state = stripe) (operation.program tables : StripeM stage Unit)
      (fun _ final => HotStep operation stripe final True ∧
        ∃ next : View, next.Complete ∧ Holds tables next final)
      (fun final => HotStep operation stripe final False ∧
        ∃ next : View, next.Complete ∧ Holds tables next final) := by
  have hgrown : ∀ {partition added} {final : LogStripe stage},
      Grown tables view partition added final →
      ∃ next : View, next.Complete ∧ Holds tables next final := by
    intro partition added final hgrown
    obtain ⟨next, hnext, _, hfinal⟩ := hgrown.hotExact hcomplete
    exact ⟨next, hnext, hfinal⟩
  have hunchanged : ∀ final : LogStripe stage, Holds tables view final →
      HotStep operation stripe final False ∧ ∃ next : View, next.Complete ∧ Holds tables next final := by
    intro final hfinal
    refine ⟨?_, view, hcomplete, hfinal⟩
    exact (grown_nil hfinal (hcomplete samplePartition)).hotStep hholds (by simp) (fun h => h.elim)
  cases operation with
  | applyDurable address record =>
    refine Triple.bind _ ((triple_applyDurable address record (hcomplete _)).consequence
      (fun state h => h ▸ hholds) (fun _ _ h => h) hunchanged) ?_
    intro _
    apply triple_pure
    intro final hfinal
    refine ⟨hfinal.hotStep hholds (fun _ h => h) ?_, hgrown hfinal⟩
    intro _ other hother
    rw [mem_singleton.mp hother]
    exact ⟨rfl, mem_append_right _ mem_cons_self⟩
  | applyOtlpEvents addresses partition firstOffset events =>
    refine Triple.bind _ ((triple_applyOtlpEvents addresses partition firstOffset events
      (hcomplete partition)).consequence (fun state h => h ▸ hholds) (fun _ _ h => h) ?_) ?_
    · rintro final ⟨added, hsublist, hfinal⟩
      rw [← hholds.shard] at hsublist
      exact ⟨hfinal.hotStep hholds (fun _ hrecord => hsublist.subset hrecord) (fun h => h.elim),
        hgrown hfinal⟩
    · intro _
      apply triple_pure
      rintro final ⟨added, hsublist, hall, hfinal⟩
      rw [← hholds.shard] at hsublist hall
      refine ⟨hfinal.hotStep hholds (fun _ hrecord => hsublist.subset hrecord) ?_, hgrown hfinal⟩
      intro _ record hrecord
      refine ⟨?_, hall record hrecord⟩
      obtain ⟨event, _, rfl⟩ := mem_map.mp hrecord
      rfl
  | sealActiveBlocks =>
    refine Triple.bind _ (triple_sealActiveBlocks.consequence (fun state h => h ▸ hholds)
      (fun _ _ h => h) hunchanged) ?_
    intro _
    apply triple_pure
    intro final hfinal
    refine ⟨?_, view, hcomplete, hfinal⟩
    exact (grown_nil hfinal (hcomplete samplePartition)).hotStep hholds (by simp)
      (fun _ record hrecord => by cases hrecord)

/-- Every hot operation is such a step, whether it succeeds or fails. -/
theorem hotStep_run (operation : HotOperation) (hcomplete : view.Complete)
    (hholds : Holds tables view stripe) :
    HotStep operation stripe (finalState ((operation.program tables).run stripe))
        (∃ final, (operation.program tables).run stripe = .ok () final) ∧
      ∃ next : View, next.Complete ∧
        Holds tables next (finalState ((operation.program tables).run stripe)) := by
  have htriple := triple_hotStep operation hcomplete hholds stripe rfl
  cases hrun : (operation.program tables).run stripe with
  | ok value final =>
    rw [hrun] at htriple
    obtain ⟨⟨hshard, hframes, hadded, hall⟩, hnext⟩ := htriple
    exact ⟨⟨hshard, hframes, hadded, fun _ => hall trivial⟩, hnext⟩
  | error e final =>
    rw [hrun] at htriple
    obtain ⟨⟨hshard, hframes, hadded, _⟩, hnext⟩ := htriple
    exact ⟨⟨hshard, hframes, hadded, fun ⟨_, hok⟩ => by cases hok⟩, hnext⟩

/-- A rejected pack changes nothing. -/
theorem triple_applyIndexedIngestPack (partition : TopicPartition) (firstOffset : LogicalOffset)
    (recordCount : Nat) (payload : Bytes) (transientContext : Option Bytes) :
    Triple (fun state => state = stripe)
      (applyIndexedIngestPack codecs partition firstOffset recordCount payload transientContext)
      (fun _ _ => True) (fun state => state = stripe) := by
  refine triple_liftResult_bind (fun _ h => h) fun _ _ => ?_
  refine triple_liftResult_bind (fun _ h => h) fun _ _ => ?_
  refine triple_get_bind fun _ _ => ?_
  refine triple_liftResult_bind (fun _ h => h.2) fun _ _ => ?_
  refine triple_liftResult_bind (fun _ h => h.2) fun _ _ => ?_
  exact triple_modify fun _ _ => trivial

/-! ## Watermarks -/

/-- The visible watermark, from the watermarks of the hot index and the frames. -/
theorem indexedThrough_eq (stripe : LogStripe stage) (partition : TopicPartition) :
    stripe.indexedThrough partition =
      match (stripe.partitionOf partition).indexedThrough,
        (stripe.framesIn partition).indexedThrough with
      | some record, some frame => some (if record < frame then frame else record)
      | some record, none => some record
      | none, frame => frame := by
  unfold indexedThrough partitionOf framesIn
  cases AssocMap.get stripe.partitions partition with
  | none =>
    cases AssocMap.get stripe.indexedFramePartitions partition with
    | none => rfl
    | some frameIndex => rfl
  | some index =>
    cases AssocMap.get stripe.indexedFramePartitions partition with
    | none => rfl
    | some frameIndex => rfl

section

variable (h : Holds tables view stripe)

include h

/-- The watermark is the last record. -/
theorem Holds.hotWatermark (hcomplete : view.Complete) (partition : TopicPartition) :
    (stripe.partitionOf partition).indexedThrough =
      (stripe.hotRecords partition).getLast?.map (·.recordRef.offset) := by
  rw [(h.indexes partition).published, (hcomplete partition).published, h.hotRecords_eq]

/-- No hot record lies beyond the visible watermark. -/
theorem Holds.le_indexedThrough (hcomplete : view.Complete)
    (hrecord : record ∈ stripe.hotRecords partition) :
    ∃ through, stripe.indexedThrough partition = some through ∧
      record.recordRef.offset ≤ through := by
  have hincreasing := (h.indexes partition).increasing
  rw [← h.hotRecords_eq] at hincreasing
  have hne : stripe.hotRecords partition ≠ [] := ne_nil_of_mem hrecord
  obtain ⟨last, hlast⟩ : ∃ last, (stripe.hotRecords partition).getLast? = some last :=
    ⟨_, getLast?_eq_some_getLast hne⟩
  have hle := hincreasing.le_getLast hlast record hrecord
  rw [indexedThrough_eq, h.hotWatermark hcomplete, hlast]
  cases (stripe.framesIn partition).indexedThrough with
  | none => exact ⟨_, rfl, hle⟩
  | some frame => grind

/-- The visible watermark is the offset of a hot record or the watermark of the
frames. -/
theorem Holds.indexedThrough_cases (hcomplete : view.Complete) {through : LogicalOffset}
    (hthrough : stripe.indexedThrough partition = some through) :
    (∃ record ∈ stripe.hotRecords partition, record.recordRef.offset = through) ∨
      (stripe.framesIn partition).indexedThrough = some through := by
  rw [indexedThrough_eq, h.hotWatermark hcomplete] at hthrough
  cases hlast : (stripe.hotRecords partition).getLast? with
  | none =>
    rw [hlast] at hthrough
    exact Or.inr hthrough
  | some last => grind

end

/-- A hot record that is added beyond the frames lies beyond the visible watermark. -/
theorem lt_of_added
    (hbeyond : (StripeOperation.hot operation : StripeOperation codecs).Beyond stripe)
    (hincreasing : OffsetsIncrease (stripe.hotRecords partition ++ added))
    (hadded : ∀ record ∈ added, record ∈ operation.records stripe.streamShardId ∧
      record.recordRef.topicPartition = partition) (hrecord : record ∈ added) :
    (∀ earlier ∈ stripe.hotRecords partition, earlier.recordRef.offset < record.recordRef.offset) ∧
    (∀ through, (stripe.framesIn partition).indexedThrough = some through →
      through < record.recordRef.offset) := by
  have hlater : ∀ earlier ∈ stripe.hotRecords partition,
      earlier.recordRef.offset < record.recordRef.offset :=
    fun earlier hearlier => (pairwise_append.mp hincreasing).2.2 earlier hearlier record hrecord
  refine ⟨hlater, ?_⟩
  obtain ⟨hasked, hpartition⟩ := hadded record hrecord
  rcases hbeyond record hasked with hrepeated | hframes
  · grind
  · rwa [hpartition] at hframes

/-! ## Runs -/

/-- A hot operation beyond the frames keeps the offsets apart. -/
theorem OffsetsStored.hotStep (h : OffsetsStored codecs view stripe)
    (hbeyond : (StripeOperation.hot operation : StripeOperation codecs).Beyond stripe)
    (hstep : HotStep operation stripe final succeeded) {next : View} (hcomplete : next.Complete)
    (hholds : Holds codecs.tables next final) :
    OffsetsStored codecs next final := by
  have hframes : ∀ partition, final.framesIn partition = stripe.framesIn partition := by
    intro partition
    rw [framesIn, hstep.frames, framesIn]
  refine ⟨hcomplete, hholds, ?_, ?_⟩
  · intro partition
    rw [hframes]
    exact h.frames partition
  · intro partition
    obtain ⟨added, hrecords, hincreasing, hadded⟩ := hstep.added partition
    rw [hframes, hrecords]
    intro record hrecord append happend
    rcases mem_append.mp hrecord with hold | hnew
    · exact h.apart partition record hold append happend
    · obtain ⟨batches, hstored⟩ := h.frames partition
      obtain ⟨_, through, hthrough, hle⟩ := hstored.ordered.bounded append happend
      have hlt := (lt_of_added hbeyond hincreasing hadded hnew).2 through hthrough
      exact Or.inr (UInt64.lt_of_le_of_lt hle hlt)

/-- An accepted pack keeps the offsets apart. -/
theorem OffsetsStored.packStep (hcodecs : codecs.Lawful) (h : OffsetsStored codecs view stripe)
    {append : PackAppend codecs} (hrun : append.program.run stripe = .ok () final) :
    OffsetsStored codecs { view with frames := final.indexedFramePartitions } final := by
  obtain ⟨hcount, hbehind, lastOffset, frames, hlast, hdecoded, rfl⟩ :=
    run_applyIndexedIngestPack_eq_ok_iff.mp hrun
  have hbatch := append.holdsBatch hcodecs hcount hlast hdecoded
  have hrange : append.firstOffset ≤ lastOffset := by
    rw [UInt64.le_iff_toNat_le, hlast]
    exact Nat.le_add_right _ _
  have hhot : ∀ partition, (stripe.addFrames append.topicPartition
      ⟨append.firstOffset, lastOffset, append.recordCount, frames⟩).hotRecords partition =
        stripe.hotRecords partition := fun _ => rfl
  refine ⟨h.complete, ⟨h.holds.shard, rfl, h.holds.indexes, h.holds.cachedTerms,
    h.holds.cachedFields⟩, ?_, ?_⟩
  · intro partition
    obtain ⟨batches, hstored⟩ := h.frames partition
    by_cases hpartition : partition = append.topicPartition
    · refine ⟨batches ++ [(append.firstOffset, append.events)], ?_, ?_⟩
      · rw [framesIn_addFrames, if_pos hpartition, ← hpartition]
        exact rel_append hstored.stored (Forall₂.cons ⟨rfl, hbatch⟩ Forall₂.nil)
      · subst hpartition
        exact hstored.ordered.addFrames hbehind hrange
    · grind [framesIn_addFrames]
  · intro partition record hrecord stored hstored
    rw [framesIn_addFrames] at hstored
    split at hstored
    · rename_i hpartition
      subst hpartition
      rcases mem_append.mp hstored with hold | hnew
      · exact h.apart _ record hrecord stored hold
      · rw [mem_singleton.mp hnew]
        obtain ⟨through, hthrough, hle⟩ := h.holds.le_indexedThrough h.complete hrecord
        exact Or.inl (UInt64.lt_of_le_of_lt hle (hbehind through hthrough))
    · exact h.apart partition record hrecord stored hstored

/-- Stripes reached by operations, successful or not, whose hot records lie beyond the frames of
their partition. -/
inductive OffsetRun (codecs : Codecs) : LogStripe stage → Prop
  | fresh (shard : ShardId) (blocks : stage.State) :
      OffsetRun codecs { streamShardId := shard, blocks := blocks }
  | step {stripe : LogStripe stage} (operation : StripeOperation codecs) :
      OffsetRun codecs stripe → operation.Beyond stripe →
      OffsetRun codecs (finalState (operation.program.run stripe))

/-- A run keeps hot and framed offsets apart. -/
theorem OffsetRun.offsetsStored (hcodecs : codecs.Lawful) (h : OffsetRun codecs stripe) :
    ∃ view, OffsetsStored codecs view stripe := by
  induction h with
  | fresh shard blocks =>
    refine ⟨⟨shard, [], fun _ => {}⟩, fun _ => ⟨rfl, rfl, rfl⟩, holds_fresh shard blocks, ?_, ?_⟩
    · exact fun _ => ⟨[], Forall₂.nil, ⟨Pairwise.nil, by simp [framesIn]⟩⟩
    · intro _ record hrecord
      cases hrecord
  | @step stripe operation _ hbeyond ih =>
    obtain ⟨view, hstored⟩ := ih
    cases operation with
    | hot operation =>
      obtain ⟨hstep, next, hcomplete, hholds⟩ :=
        hotStep_run operation hstored.complete hstored.holds
      exact ⟨next, hstored.hotStep hbeyond hstep hcomplete hholds⟩
    | pack append =>
      unfold StripeOperation.program
      cases hrun : append.program.run stripe with
      | ok value final => exact ⟨_, hstored.packStep hcodecs hrun⟩
      | error e final =>
        have hsame := @triple_applyIndexedIngestPack stage codecs stripe append.topicPartition
          append.firstOffset append.recordCount append.prepared.ingestPack.payload append.transientContext
          stripe rfl
        rw [PackAppend.program] at hrun
        rw [hrun] at hsame
        exact ⟨view, by rw [show finalState (.error e final) = stripe from hsame]; exact hstored⟩

/-- What an operation publishes lies beyond the visible watermark, repetitions of
hot records apart. -/
def PublishesBeyond (stripe : LogStripe stage) : StripeOperation codecs → Prop
  | .hot operation => ∀ partition, ∃ added,
      (finalState ((operation.program codecs.tables).run stripe)).hotRecords partition =
          stripe.hotRecords partition ++ added ∧
        OffsetsIncrease added ∧
        (∀ record ∈ added, ∀ through, stripe.indexedThrough partition = some through →
          through < record.recordRef.offset) ∧
        ∀ final, (operation.program codecs.tables).run stripe = .ok () final →
          ∀ record ∈ operation.records stripe.streamShardId,
            record.recordRef.topicPartition = partition →
            record ∈ stripe.hotRecords partition ∨ record ∈ added
  | .pack append => ∀ final, append.program.run stripe = .ok () final →
      ∀ record ∈ append.records stripe.streamShardId, ∀ through,
        stripe.indexedThrough append.topicPartition = some through →
          through < record.recordRef.offset

/-- While hot records lie beyond the frames, no two records shown share an offset, and publications
lie beyond the watermark. -/
theorem uniqueOffsets_of_offsetRun (hcodecs : codecs.Lawful) (h : OffsetRun codecs stripe) :
    (∀ rules partition, UniqueOffsets codecs rules stripe partition) ∧
      ∀ operation : StripeOperation codecs, operation.Beyond stripe →
        PublishesBeyond stripe operation := by
  obtain ⟨view, hstored⟩ := h.offsetsStored hcodecs
  refine ⟨hstored.uniqueOffsets hcodecs, ?_⟩
  intro operation hbeyond
  cases operation with
  | hot operation =>
    intro partition
    obtain ⟨hstep, _⟩ := hotStep_run operation hstored.complete hstored.holds
    obtain ⟨added, hrecords, hincreasing, hadded⟩ := hstep.added partition
    refine ⟨added, hrecords, (List.pairwise_append.mp hincreasing).2.1, ?_, ?_⟩
    · intro record hrecord through hthrough
      obtain ⟨hhot, hframes⟩ := lt_of_added hbeyond hincreasing hadded hrecord
      rcases hstored.holds.indexedThrough_cases hstored.complete hthrough with
        ⟨last, hlast, rfl⟩ | hwatermark
      · exact hhot last hlast
      · exact hframes through hwatermark
    · intro final hrun record hrecord hpartition
      have hmem := hstep.all ⟨final, hrun⟩ record hrecord
      rw [hpartition, hrecords] at hmem
      exact List.mem_append.mp hmem
  | pack append =>
    intro final hrun record hrecord through hthrough
    obtain ⟨hcount, hbehind, lastOffset, frames, hlast, hdecoded, _⟩ :=
      run_applyIndexedIngestPack_eq_ok_iff.mp hrun
    have hbatch := append.holdsBatch hcodecs hcount hlast hdecoded
    exact UInt64.lt_of_lt_of_le (hbehind through hthrough) (hbatch.offset_mem hrecord).1

/-! ## A sample partition with a pack and a hot record -/

theorem matches_all (partition : TopicPartition) (rules : TextRules) (record : DurableLogRecord) :
    LogQuery.matches { topicPartition := partition } rules record = true := by
  simp [LogQuery.matches, LogQuery.offsetMatches, LogQuery.timestampMatches,
    LogQuery.cursorMatches, LogQuery.legacyTermsMatch, LogQuery.legacyFieldsMatch, isNoneOr,
    predicateMatches]

/-- Behind the sample pack, a hot record is accepted at any offset. -/
theorem exists_run_plainRecord (frames : List IndexedIngestFrame) (offset : LogicalOffset) :
    ∃ receipt final, (applyDurable latinTables 0 (plainRecord offset)).run
        (freshStripe.addFrames samplePartition ⟨5, 7, 3, frames⟩) = .ok receipt final ∧
      final.hotRecords samplePartition = [plainRecord offset] ∧
      final.indexedFramePartitions = (freshStripe.addFrames samplePartition
        ⟨5, 7, 3, frames⟩).indexedFramePartitions ∧
      final.streamShardId = 0 ∧ ∃ view : View, view.Complete ∧ Holds latinTables view final := by
  have hcomplete : View.Complete ⟨0, (freshStripe.addFrames samplePartition
      ⟨5, 7, 3, frames⟩).indexedFramePartitions, fun _ => {}⟩ := fun _ => ⟨rfl, rfl, rfl⟩
  have hfresh := @holds_fresh idleStage latinTables 0 ()
  have hholds : Holds latinTables ⟨0, (freshStripe.addFrames samplePartition
      ⟨5, 7, 3, frames⟩).indexedFramePartitions, fun _ => {}⟩
      (freshStripe.addFrames samplePartition ⟨5, 7, 3, frames⟩) :=
    ⟨rfl, rfl, hfresh.indexes, hfresh.cachedTerms, hfresh.cachedFields⟩
  obtain ⟨receipt, final, hrun⟩ := (@leads_applyDurable idleStage latinTables _ _
    (plainRecord offset) 0 hholds rfl (by simp [Beyond]) (by simp)).exists_ok_iff.mpr rfl
  obtain ⟨progress, htook, hfinal⟩ :=
    (triple_applyDurable 0 (plainRecord offset) (hcomplete _)).of_ok hholds hrun
  refine ⟨receipt, final, hrun, ?_, hfinal.frames, hfinal.shard, _,
    hcomplete.set htook.complete, hfinal⟩
  rw [hfinal.hotRecords_eq]
  exact (congrArg Progress.stored (View.progress_set_self _ samplePartition progress)).trans
    htook.stored

/-- Without a limit, a query returns all it finds. -/
theorem exists_queryChecked_perm (hlimit : query.limit = none)
    (hrange : query.hasInvalidRange = false) {hot framed : List LogMatch}
    (hhot : stripe.queryHotMatches rules query = .ok hot)
    (hframed : stripe.queryFrameMatches rules query codecs = .ok framed) :
    ∃ found, stripe.queryChecked rules query codecs = .ok found ∧ found.Perm (hot ++ framed) := by
  unfold queryChecked
  rw [if_neg (by simp [hlimit, hrange]), hhot, ok_bind, hframed, ok_bind, hlimit]
  exact ⟨_, rfl, perm_sortUnstableBy _ _⟩

/-- A hot record takes an offset of the pack: it is accepted below the watermark, and
a query shows the offset twice. -/
theorem hot_record_repeats_frame_offset : ∃ (append : PackAppend sampleCodecs)
    (packed final : LogStripe idleStage) (receipt : IndexReceipt idleStage.Placement idleStage.Descriptor)
    (found : List LogMatch),
    append.program.run freshStripe = .ok () packed ∧
    packed.indexedThrough samplePartition = some 7 ∧
    (applyDurable latinTables 0 (plainRecord 6)).run packed = .ok receipt final ∧
    final.queryChecked (TextRules.normalized latinTables fun _ _ => false)
      { topicPartition := samplePartition } sampleCodecs = .ok found ∧
    ¬ (found.map (·.record.recordRef.offset)).Nodup := by
  obtain ⟨append, frames, hlength, hpartition, hfirst, hpack⟩ := exists_sampleAppend
  obtain ⟨receipt, final, hrun, hhot, hframes, hshard, view, hcomplete, hholds⟩ :=
    exists_run_plainRecord frames 6
  have hempty : @HoldsPacks idleStage sampleCodecs samplePartition 0 freshStripe [] :=
    .empty rfl rfl rfl
  have hstored := (hempty.append append hpartition hpack).packsStored sampleCodecs_lawful
  have hin : final.framesIn samplePartition =
      (freshStripe.addFrames samplePartition ⟨5, 7, 3, frames⟩).framesIn samplePartition := by
    rw [LogStripe.framesIn, hframes, LogStripe.framesIn]
  -- the frames show the three records of the pack, the hot index shows the new one
  obtain ⟨framed, hframed, hperm⟩ := @queryIndexedFrames_perm sampleCodecs
    (TextRules.normalized latinTables fun _ _ => false) { topicPartition := samplePartition }
    idleStage final sampleCodecs_lawful _ _ (hin ▸ hstored.stored)
    (fun batch _ event _ => filedUnderRequest_normalized _ _ _ _)
  have hrecord : (final.partitionOf samplePartition).records.length = 1 := by
    have hlengths := congrArg List.length hhot
    rwa [LogStripe.hotRecords, List.length_map] at hlengths
  have hhotMatches := @queryHotMatches_of_fits idleStage latinTables (fun _ _ => false)
    { topicPartition := samplePartition } view final hholds hcomplete
    (lt_of_le_of_lt (window_stop_le _ _) (by rw [hrecord]; decide)) (by decide) rfl
  have hall : ∀ records : List DurableLogRecord, records.filter (LogQuery.matches
      { topicPartition := samplePartition } (TextRules.normalized latinTables fun _ _ => false)) =
        records := fun records =>
    List.filter_eq_self.mpr fun record _ => matches_all samplePartition _ record
  obtain ⟨found, hfound, hfoundPerm⟩ := @exists_queryChecked_perm idleStage sampleCodecs
    (TextRules.normalized latinTables fun _ _ => false) { topicPartition := samplePartition } final
    rfl rfl _ _ hhotMatches (by rw [queryFrameMatches_eq]; exact hframed)
  refine ⟨append, _, final, receipt, found, hpack, rfl, hrun, hfound, ?_⟩
  intro hnodup
  have hsorted := (hfoundPerm.map _).nodup_iff.mp hnodup
  rw [List.map_append] at hsorted
  refine (List.nodup_append.mp hsorted).2.2 6 ?_ 6 ?_ rfl
  · refine List.mem_map.mpr ⟨⟨plainRecord 6⟩, List.mem_map_of_mem ?_, rfl⟩
    rw [hhot, LogQuery.select, hall]
    exact (perm_sortUnstableBy _ _).mem_iff.mpr List.mem_cons_self
  · refine List.mem_map.mpr ⟨⟨recordAt 0 samplePartition 5 append.events 1⟩, ?_, rfl⟩
    rw [hperm.mem_iff, hall, hshard]
    apply List.mem_map_of_mem
    simp only [List.nil_append, List.map_cons, List.map_nil, List.flatMap_cons, List.flatMap_nil,
      List.append_nil, hfirst]
    exact List.mem_map_of_mem (List.mem_range.mpr (by omega))

/-- A hot record behind the sample pack leaves every offset unique. -/
theorem uniqueOffsets_sampleAppend : ∃ stripe : LogStripe idleStage,
    OffsetRun sampleCodecs stripe ∧ (stripe.framesIn samplePartition).appends.length = 1 ∧
    stripe.hotRecords samplePartition = [plainRecord 9] ∧
    ∀ rules, UniqueOffsets sampleCodecs rules stripe samplePartition := by
  obtain ⟨append, frames, _, hpartition, _, hpack⟩ := exists_sampleAppend
  obtain ⟨receipt, final, hrun, hhot, hframes, _⟩ := exists_run_plainRecord frames 9
  have hpacked : OffsetRun sampleCodecs
      (freshStripe.addFrames samplePartition ⟨5, 7, 3, frames⟩) := by
    have hstep := (@OffsetRun.fresh idleStage sampleCodecs 0 ()).step (.pack append) trivial
    have hsame : finalState (append.program.run freshStripe) =
        freshStripe.addFrames samplePartition ⟨5, 7, 3, frames⟩ := by rw [hpack]; rfl
    exact hsame ▸ hstep
  have hbeyond : (StripeOperation.hot (.applyDurable 0 (plainRecord 9)) :
      StripeOperation sampleCodecs).Beyond
        (freshStripe.addFrames samplePartition ⟨5, 7, 3, frames⟩) := by
    intro record hrecord
    rw [List.mem_singleton.mp hrecord]
    right
    intro through hthrough
    cases hthrough
    exact (by decide : (7 : UInt64) < 9)
  have hfinal := hpacked.step _ hbeyond
  have hprogram : ((HotOperation.applyDurable 0 (plainRecord 9)).program latinTables).run
      (freshStripe.addFrames samplePartition ⟨5, 7, 3, frames⟩) = .ok () final :=
    succeeds_bind_iff.mpr ⟨receipt, final, hrun, rfl⟩
  have hreached : finalState ((StripeOperation.hot (.applyDurable 0 (plainRecord 9)) :
      StripeOperation sampleCodecs).program.run
        (freshStripe.addFrames samplePartition ⟨5, 7, 3, frames⟩)) = final := by
    rw [StripeOperation.program, show sampleCodecs.tables = latinTables from rfl, hprogram]
    rfl
  rw [hreached] at hfinal
  refine ⟨final, hfinal, ?_, hhot, fun rules =>
    (uniqueOffsets_of_offsetRun sampleCodecs_lawful hfinal).1 rules samplePartition⟩
  rw [framesIn, hframes]
  rfl

end ShardLog.Stripe
