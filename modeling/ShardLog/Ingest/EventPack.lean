import ShardLog.Ingest.NativePack
import ShardLog.Structural.Plain

/-!
# Ingest packs - owned events

A pack can be prepared from borrowed records of a native batch or from owned
events.  Both see the same views in the same groups, so both give the same bytes.

Main results:

- Theorem `prepareNativeIngestPack_eq_prepareIngestPack`: the borrowed and the owned
  path agree, also on errors.
-/

namespace ShardLog.Ingest

open ByteReader Structural Native List

/-! ## Preparing a pack from events -/

structure IngestRecordView where
  ordinal : Nat
  event : OtlpLogEvent
deriving DecidableEq

instance : StructuralRecordView IngestRecordView where
  structuralOffset record := UInt64.ofNat record.ordinal
  structuralTimestampUnixNanos record := record.event.timestampUnixNanos
  structuralMessage record := record.event.message
  structuralFieldCount record := record.event.fields.length
  structuralField record := storedField record.event.fields

/-- Cohort and view of an event. -/
def eventRecord (event : OtlpLogEvent × Nat) :
    LogDbResult (CompressionCohortId × IngestRecordView) := do
  let ordinal ← tryU32 event.2
  .ok (event.1.compressionCohort, ⟨ordinal, event.1⟩)

def prepareIngestPack (codecs : Codecs)
    (placements : ∀ records : List IngestRecordView, Placement records)
    (events : List OtlpLogEvent) : LogDbResult PreparedIngestPack := do
  let recordCount ← tryU32 events.length
  let records ← collect eventRecord events.zipIdx
  prepareGroupedIngestPack codecs placements recordCount (cohortGroups records)

/-! ## Groups with the same views -/

theorem cohortGroups_map {R S : Type} (f : R → S) (records : List (CompressionCohortId × R)) :
    cohortGroups (records.map (Prod.map id f)) =
      (cohortGroups records).map (Prod.map id (List.map f)) := by
  rw [cohortGroups, cohortGroups, AssocMap.groupBy_map, ← Sorted.map_sortBy]
  rfl

section Groups

variable {R S : Type} [StructuralRecordView R] [StructuralRecordView S] (codecs : Codecs)
  (placements : ∀ records : List R, Placement records)
  (placements' : ∀ records : List S, Placement records)

/-- Equal views are encoded alike. -/
theorem encodeGroup_congr {cohort : CompressionCohortId} {left : List R} {right : List S}
    (h : SameViews left right) :
    encodeGroup codecs placements (cohort, left) = encodeGroup codecs placements' (cohort, right) := by
  have htimestamps : timestampsOf left = timestampsOf right := by
    have hnumbers := congrArg (List.map UInt64.toNat) h.timestamps
    rwa [map_map, map_map] at hnumbers
  rw [encodeGroup, encodeGroup,
    encodeIndexedStructuralRecords_congr h codecs.tables codecs.pco (placements left)
      (placements' right)]
  simp only [h.length, minTimestamp, maxTimestamp, htimestamps]

/-- The same indices, grouped alike and viewed in two ways. -/
theorem prepareGroupedIngestPack_congr (recordCount : Nat)
    (cohorts : List (CompressionCohortId × List Nat)) (left : Nat → R) (right : Nat → S)
    (h : ∀ group ∈ cohorts, SameViews (group.2.map left) (group.2.map right)) :
    prepareGroupedIngestPack codecs placements recordCount
        (cohorts.map (Prod.map id (List.map left))) =
      prepareGroupedIngestPack codecs placements' recordCount
        (cohorts.map (Prod.map id (List.map right))) := by
  have hgroups : collect (encodeGroup codecs placements)
        (cohorts.map (Prod.map id (List.map left))) =
      collect (encodeGroup codecs placements') (cohorts.map (Prod.map id (List.map right))) := by
    grind [collect_map, collect_congr, encodeGroup_congr]
  rw [prepareGroupedIngestPack, prepareGroupedIngestPack, hgroups, length_map, length_map]

end Groups

/-! ## Records of a batch and records of its events -/

section Records

variable {batch : NativeBatchView} {events : List OtlpLogEvent}

/-- Index and cohort of the records of a batch. -/
def cohortIndices (events : List OtlpLogEvent) : List (CompressionCohortId × Nat) :=
  (List.range events.length).map fun index => ((eventAt events index).compressionCohort, index)

/-- The records of the events. -/
theorem collect_eventRecord (hlt : events.length < 2 ^ 32) :
    collect eventRecord events.zipIdx = .ok ((cohortIndices events).map
      (Prod.map id fun index => ⟨index, eventAt events index⟩)) := by
  have hzip : events.zipIdx = (range events.length).map fun index =>
      (eventAt events index, index) := by
    apply ext_getElem
    · simp
    · intro index hleft hright
      have hindex : index < events.length := by simpa using hleft
      simp [eventAt, hindex]
  have heach : ∀ index ∈ range events.length, eventRecord (eventAt events index, index) =
      .ok ((eventAt events index).compressionCohort, ⟨index, eventAt events index⟩) := by
    intro index hindex
    rw [eventRecord, tryU32_eq_ok_iff.mpr ⟨rfl, (mem_range.mp hindex).trans hlt⟩]
    rfl
  rw [hzip, collect_map, collect_congr heach, collect_ok, cohortIndices, map_map]
  rfl

section

variable (h : Describes batch events)

include h

theorem cohortRecord_eq (hlt : events.length < 2 ^ 32) {index : Nat}
    (hindex : index < events.length) :
    cohortRecord batch index =
      .ok ((eventAt events index).compressionCohort, ⟨index, index, batch⟩) := by
  obtain ⟨record, hrecord, hdescribed⟩ :=
    forall₂_getElem? h.records.flip (getElem?_eq_getElem hindex)
  obtain ⟨stream, _, hstream, hcohort, _⟩ := hdescribed.fields
  have hevent : eventAt events index = events[index] := by simp [eventAt, hindex]
  have hfound : batch.recordCohort index = some (eventAt events index).compressionCohort := by
    simp [NativeBatchView.recordCohort, hrecord, hstream, hevent, hcohort]
  rw [cohortRecord, hfound]
  simp only [tryU32_eq_ok_iff.mpr ⟨rfl, hindex.trans hlt⟩, ok_bind]

/-- The records of the batch. -/
theorem collect_cohortRecord (hlt : events.length < 2 ^ 32) :
    collect (cohortRecord batch) (range events.length) = .ok ((cohortIndices events).map
      (Prod.map id fun index => ⟨index, index, batch⟩)) := by
  have heach : ∀ index ∈ range events.length, cohortRecord batch index =
      .ok ((eventAt events index).compressionCohort, ⟨index, index, batch⟩) :=
    fun index hindex => cohortRecord_eq h hlt (mem_range.mp hindex)
  rw [collect_congr heach, collect_ok, cohortIndices, map_map]
  rfl

/-- A record of the batch and the event there show the same data. -/
theorem sameViews_indices (hlt : events.length < 2 ^ 32) {indices : List Nat}
    (hindices : ∀ index ∈ indices, index < events.length) :
    SameViews (indices.map fun index => (⟨index, index, batch⟩ : NativeIngestRecordView))
      (indices.map fun index => (⟨index, eventAt events index⟩ : IngestRecordView)) := by
  apply sameViews_of_forall₂
  rw [forall₂_map_left_iff, forall₂_map_right_iff, forall₂_same]
  intro index hindex
  have hlength := hindices index hindex
  obtain ⟨_, event, hevent, hview⟩ := viewOf_cohortRecord h (cohortRecord_eq h hlt hlength)
  have hsame : eventAt events index = event := by
    rw [eventAt, getD_eq_getElem?_getD, hevent]
    rfl
  refine ⟨rfl, ?_, ?_, ?_⟩
  · rw [hview.timestamp, ← hsame]
    rfl
  · rw [hview.message, ← hsame]
    rfl
  · rw [hview.fields, ← hsame]
    exact (indexedFields_storedField _).symm

end

/-- Groups have events of the batch. -/
theorem lt_of_mem_cohortGroups {group : CompressionCohortId × List Nat}
    (hgroup : group ∈ cohortGroups (cohortIndices events)) {index : Nat}
    (hindex : index ∈ group.2) : index < events.length := by
  have hpair : (group.1, index) ∈ AssocMap.ungroup (cohortGroups (cohortIndices events)) :=
    mem_flatMap.mpr ⟨group, hgroup, mem_map.mpr ⟨index, hindex, rfl⟩⟩
  have hfound := (perm_ungroup_cohortGroups _).mem_iff.mp hpair
  obtain ⟨other, hother, heq⟩ := mem_map.mp hfound
  have hsame : other = index := (Prod.ext_iff.mp heq).2
  exact hsame ▸ mem_range.mp hother

/-- The pack of a batch is the pack of its events, byte for byte; if one path fails,
the other fails with the same error. -/
theorem prepareNativeIngestPack_eq_prepareIngestPack {payload : Bytes}
    (hview : decodeNativeLogBatchView payload = .ok batch) (codecs : Codecs)
    (placements : ∀ records : List NativeIngestRecordView, Placement records)
    (placements' : ∀ records : List IngestRecordView, Placement records) :
    ∃ events, decodeNativeLogEvents payload = .ok (batch.tenant, events) ∧
      (prepareNativeIngestPack codecs placements payload).map (·.ingestPack) =
        prepareIngestPack codecs placements' events := by
  obtain ⟨events, hevents, hdescribes⟩ := exists_events_of_view hview
  refine ⟨events, hevents, ?_⟩
  have hlength : batch.records.length = events.length := hdescribes.records.length_eq
  unfold prepareNativeIngestPack prepareIngestPack
  rw [hview]
  dsimp only
  rw [hlength]
  by_cases hlt : events.length < 2 ^ 32
  · rw [tryU32_eq_ok_iff.mpr ⟨rfl, hlt⟩, ok_bind, ok_bind, collect_cohortRecord hdescribes hlt,
      collect_eventRecord hlt, ok_bind, ok_bind, cohortGroups_map, cohortGroups_map,
      prepareGroupedIngestPack_congr codecs placements placements']
    · cases prepareGroupedIngestPack codecs placements' events.length _ <;> rfl
    · grind [sameViews_indices, lt_of_mem_cohortGroups]
  · have hfails : tryU32 events.length = .error .recordTooLarge := if_neg hlt
    rw [hfails]
    rfl

end Records

theorem sampleBatch_packs_agree : ∃ prepared events,
    prepareNativeIngestPack sampleCodecs Placement.byContent sampleBatch = .ok prepared ∧
    decodeNativeLogEvents sampleBatch = .ok (prepared.tenant, events) ∧
    prepareIngestPack sampleCodecs Placement.byContent events = .ok prepared.ingestPack := by
  obtain ⟨prepared, hprepared⟩ := exists_samplePack
  obtain ⟨batch, hbatch⟩ := exists_of_isOk (x := decodeNativeLogBatchView sampleBatch)
    (by decide +kernel)
  obtain ⟨events, hevents, hagree⟩ := prepareNativeIngestPack_eq_prepareIngestPack hbatch
    sampleCodecs Placement.byContent Placement.byContent
  obtain ⟨_, _, hcarried, _⟩ := exists_carriesBatch hprepared
  have htenant : prepared.tenant = batch.tenant :=
    (Prod.ext_iff.mp (Except.ok.inj (hcarried.symm.trans hevents))).1
  rw [hprepared] at hagree
  exact ⟨prepared, events, hprepared, htenant ▸ hevents, hagree.symm⟩

end ShardLog.Ingest
