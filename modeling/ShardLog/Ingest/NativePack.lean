import ShardLog.Ingest.RoundTrip

/-!
# Ingest packs - native batches

The pack prepared from a native batch carries the events of the batch: every
record of every group is the view of one event, and every event has one record.

Main results:

- Theorem `ingestPack_roundTrip`: events and frames read back from the pack.
-/

namespace ShardLog.Ingest

open ByteReader Utf8 Structural Native Integers List

/-- A record of a batch is the view of an event. -/
structure ViewOf (event : OtlpLogEvent) (record : CompressionCohortId × NativeIngestRecordView) :
    Prop where
  ordinal_lt : record.2.ordinal < 2 ^ 32
  timestamp : structuralTimestampUnixNanos record.2 = event.timestampUnixNanos
  message : structuralMessage record.2 = event.message
  fields : visitedFields record.2 = event.fields.map fun field => .ok (field.key, field.value)
  cohort : record.1 = event.compressionCohort

/-- The record at an index of a described batch is the view of the event there. -/
theorem viewOf_cohortRecord {batch : NativeBatchView} {events : List OtlpLogEvent}
    (h : Describes batch events) {index : Nat}
    {record : CompressionCohortId × NativeIngestRecordView}
    (hrecord : cohortRecord batch index = .ok record) :
    record.2.ordinal = index ∧ ∃ event, events[index]? = some event ∧ ViewOf event record := by
  unfold cohortRecord at hrecord
  split at hrecord
  · cases hrecord
  · rename_i cohort hcohort
    obtain ⟨ordinal, hordinal, hview⟩ := bind_eq_ok_iff.mp hrecord
    obtain ⟨rfl, hlt⟩ := tryU32_eq_ok_iff.mp hordinal
    cases hview
    obtain ⟨viewed, hviewed, hstream⟩ := Option.bind_eq_some_iff.mp hcohort
    obtain ⟨stream, hstreamAt, hcohortEq⟩ := Option.bind_eq_some_iff.mp hstream
    obtain ⟨event, hevent, hdescribed⟩ := forall₂_getElem? h.records hviewed
    obtain ⟨stream', _, hstreamAt', hcohort', _⟩ := hdescribed.fields
    rw [hstreamAt] at hstreamAt'
    cases hstreamAt'
    refine ⟨rfl, event, hevent, hlt, ?_, ?_, ?_, ?_⟩
    · simp [structuralTimestampUnixNanos, NativeBatchView.recordTimestamp, hviewed,
        hdescribed.timestamp]
    · simp [structuralMessage, NativeBatchView.recordMessage, hviewed, hdescribed.message]
    · exact hdescribed.visitedRecordFields_eq hviewed
    · rw [hcohort']
      exact (Option.some.inj hcohortEq).symm

section View

variable {event : OtlpLogEvent} {record : CompressionCohortId × NativeIngestRecordView}
  {decoded : DecodedStructuralRecord}

section

variable (h : ViewOf event record)

include h

theorem ViewOf.decoded_offset (hdecoded : Represents record.2 decoded) :
    decoded.offset.toNat = record.2.ordinal := by
  rw [hdecoded.offset]
  exact UInt64.toNat_ofNat_of_lt' (lt_trans h.ordinal_lt (by decide))

theorem ViewOf.decoded_fields (hdecoded : Represents record.2 decoded) :
    decoded.fields = event.fields := by
  have hvisited := hdecoded.fields
  rw [h.fields] at hvisited
  have hinj : Function.Injective fun field : MetadataField =>
      (.ok (field.key, field.value) : LogDbResult (Str × Str)) := by
    intro left right heq
    cases left
    cases right
    cases heq
    rfl
  exact (map_injective_iff.mpr hinj hvisited).symm

/-- Decoding the view of an event gives the event. -/
theorem ViewOf.ordinalEvent_eq {expectedRecordCount : Nat}
    (hlt : record.2.ordinal < expectedRecordCount) (hdecoded : Represents record.2 decoded) :
    ordinalEvent expectedRecordCount record.1 decoded = .ok (record.2.ordinal, event) := by
  have hordinal : tryU32 decoded.offset.toNat = .ok record.2.ordinal :=
    tryU32_eq_ok_iff.mpr ⟨(h.decoded_offset hdecoded).symm, h.decoded_offset hdecoded ▸ h.ordinal_lt⟩
  rw [ordinalEvent, hordinal, ok_bind, ensure_of_true hlt, ok_bind, hdecoded.timestamp,
    hdecoded.message, h.timestamp, h.message, h.decoded_fields hdecoded, h.cohort]

end

end View

/-! ## What a prepared pack holds -/

section Prepared

variable {codecs : Codecs} {placements : ∀ records : List NativeIngestRecordView, Placement records}
  {events : List OtlpLogEvent} {packed : List (PackedGroup codecs placements)} {R : Type}

/-- The records of the groups are the views of the events, one for each. -/
structure CarriesBatch (events : List OtlpLogEvent)
    (packed : List (PackedGroup codecs placements)) : Prop where
  length_lt : events.length < 2 ^ 32
  ordinals : ((packedRecords packed).map (·.2.ordinal)).Perm (List.range events.length)
  views : ∀ record ∈ packedRecords packed,
    ∃ event, events[record.2.ordinal]? = some event ∧ ViewOf event record

/-- Every event is in one group. -/
theorem CarriesBatch.recordTotal_eq (h : CarriesBatch events packed) :
    recordTotal packed = events.length := by
  have hlength := h.ordinals.length_eq
  rwa [length_map, length_packedRecords, length_range] at hlength

theorem perm_ungroup_cohortGroups (records : List (CompressionCohortId × R)) :
    (AssocMap.ungroup (cohortGroups records)).Perm records :=
  ((Sorted.perm_sortBy _ _).flatMap_right _).trans (AssocMap.perm_groupBy records)

/-- A prepared pack carries its batch. -/
theorem exists_carriesBatch {payload : Bytes} {prepared : PreparedNativeIngestPack}
    (h : prepareNativeIngestPack codecs placements payload = .ok prepared) :
    ∃ events, ∃ packed : List (PackedGroup codecs placements),
      decodeNativeLogEvents payload = .ok (prepared.tenant, events) ∧
      prepared.recordCount = events.length ∧ CarriesBatch events packed ∧
      prepared.ingestPack.HoldsGroups events.length packed := by
  unfold prepareNativeIngestPack at h
  split at h
  · cases h
  · rename_i batch hbatch
    simp only [bind_eq_ok_iff] at h
    obtain ⟨recordCount, hcount, records, hrecords, pack, hpack, h⟩ := h
    cases h
    obtain ⟨rfl, hlt⟩ := tryU32_eq_ok_iff.mp hcount
    obtain ⟨events, hevents, hdescribes⟩ := exists_events_of_view hbatch
    obtain ⟨packed, hgroups, hholds⟩ :=
      exists_holdsGroups hpack fun _ h => (AssocMap.mem_groupBy (Sorted.mem_sortBy.mp h)).2
    have hlength : batch.records.length = events.length := hdescribes.records.length_eq
    rw [hlength] at hlt hholds hrecords
    have hperm : (packedRecords packed).Perm records := by
      rw [packedRecords, hgroups]
      exact perm_ungroup_cohortGroups records
    have hviews := (collect_eq_ok_iff.mp hrecords).imp fun _ _ => viewOf_cohortRecord hdescribes
    have hordinals : records.map (·.2.ordinal) = range events.length := by
      have hsame : Forall₂ (· = ·) (range events.length) (records.map (·.2.ordinal)) :=
        forall₂_map_right_iff.mpr (hviews.imp fun _ _ hview => hview.1.symm)
      rw [forall₂_eq_eq_eq] at hsame
      exact hsame.symm
    refine ⟨events, packed, hevents, hlength, ⟨hlt, ?_, ?_⟩, hholds⟩
    · exact hordinals ▸ hperm.map _
    · intro record hrecord
      obtain ⟨_, _, hordinal, event, hevent, hview⟩ := forall₂_mem hviews.flip (hperm.mem_iff.mp hrecord)
      rw [← hordinal] at hevent
      exact ⟨event, hevent, hview⟩

/-- The event at an ordinal of a batch. -/
def eventAt (events : List OtlpLogEvent) (ordinal : Nat) : OtlpLogEvent :=
  events.getD ordinal ⟨0, [], [], 0⟩

theorem map_range_eventAt (events : List OtlpLogEvent) :
    (range events.length).map (fun ordinal => (ordinal, eventAt events ordinal)) =
      numbered events := by
  apply ext_getElem
  · simp [numbered]
  · intro index hleft hright
    have hlt : index < events.length := by simpa using hleft
    simp [numbered, eventAt, hlt]

/-- The pack of a batch reads back as the events of the batch. -/
theorem CarriesBatch.decodeIngestPack_eq (hcodecs : codecs.Lawful) (h : CarriesBatch events packed)
    {pack : PreparedIngestPack} (hholds : pack.HoldsGroups events.length packed) :
    decodeIngestPack codecs pack.payload = .ok events := by
  have hevent : ∀ record ∈ packedRecords packed, ∀ decoded, Represents record.2 decoded →
      ordinalEvent events.length record.1 decoded =
        .ok (record.2.ordinal, eventAt events record.2.ordinal) := by
    intro record hrecord decoded hdecoded
    obtain ⟨event, hevent, hview⟩ := h.views record hrecord
    obtain ⟨hlt, rfl⟩ := List.getElem?_eq_some_iff.mp hevent
    rw [hview.ordinalEvent_eq hlt hdecoded]
    simp [eventAt, hlt]
  have hperm := h.ordinals.map fun ordinal => (ordinal, eventAt events ordinal)
  rw [map_map, map_range_eventAt] at hperm
  exact hholds.decodeIngestPack_eq hcodecs h.recordTotal_eq h.length_lt hevent hperm

/-- A pack of a native batch reads back as its events in order, with the same frames from the live
context and without. -/
theorem ingestPack_roundTrip (hcodecs : codecs.Lawful) {payload : Bytes}
    {prepared : PreparedNativeIngestPack}
    (h : prepareNativeIngestPack codecs placements payload = .ok prepared) :
    ∃ events frames, decodeNativeLogEvents payload = .ok (prepared.tenant, events) ∧
      decodeIngestPack codecs prepared.ingestPack.payload = .ok events ∧
      decodeIndexedIngestFrames codecs prepared.ingestPack.payload
        (some prepared.ingestPack.transientContext) prepared.recordCount = .ok frames ∧
      decodeIndexedIngestFrames codecs prepared.ingestPack.payload none prepared.recordCount =
        .ok frames := by
  obtain ⟨events, packed, hevents, hcount, hcarries, hholds⟩ := exists_carriesBatch h
  refine ⟨events, framesOf packed, hevents, hcarries.decodeIngestPack_eq hcodecs hholds, ?_, ?_⟩
  · rw [hcount]
    exact hholds.decodeIndexedIngestFrames_eq hcodecs hcarries.recordTotal_eq hcarries.length_lt
      (.inl rfl)
  · rw [hcount]
    exact hholds.decodeIndexedIngestFrames_eq hcodecs hcarries.recordTotal_eq hcarries.length_lt
      (.inr rfl)

end Prepared

/-! ## A sample batch -/

/-- A compressor that stores its input behind a magic number. -/
def storedZstd : Zstd where
  compress content := .ok (0x28 :: 0xb5 :: 0x2f :: 0xfd :: content)
  decompress compressed capacity :=
    match compressed with
    | 0x28 :: 0xb5 :: 0x2f :: 0xfd :: content =>
      if content.length ≤ capacity then .ok content else .error "destination is too small"
    | _ => .error "unknown frame descriptor"

theorem storedZstd_lawful : storedZstd.Lawful := by
  intro content compressed h
  cases h
  exact if_pos le_rfl

def sampleCodecs : Codecs where
  tables := latinTables
  pco := wordPco
  zstd := storedZstd
  blake3 payload := leBytes 32 (fromLeBytes payload)

theorem sampleCodecs_lawful : sampleCodecs.Lawful :=
  ⟨latinTables_lawful, wordPco_lawful, storedZstd_lawful⟩

/-- A length-prefixed text of the batch format. -/
def sampleText (text : String) : Bytes :=
  leBytes 2 (utf8 text.toList).length ++ utf8 text.toList

/-- Two streams of a tenant, with two records and one record. -/
def sampleBatch : Bytes :=
  batchMagic ++ leBytes 2 4 ++ leBytes 2 2 ++ leBytes 4 3 ++ [0, 0, 0, 0] ++ utf8 "acme".toList ++
    (leBytes 2 1 ++ [0, 0] ++ leBytes 4 2 ++ sampleText "app" ++ sampleText "api" ++
      (leBytes 8 101 ++ leBytes 4 6 ++ leBytes 2 1 ++ [0, 0] ++
        utf8 "GET 17".toList ++ sampleText "span" ++ sampleText "one") ++
      (leBytes 8 102 ++ leBytes 4 6 ++ leBytes 2 0 ++ [0, 0] ++ utf8 "GET 18".toList)) ++
    (leBytes 2 0 ++ [0, 0] ++ leBytes 4 1 ++
      (leBytes 8 103 ++ leBytes 4 4 ++ leBytes 2 0 ++ [0, 0] ++ utf8 "done".toList))

theorem exists_samplePack : ∃ prepared,
    prepareNativeIngestPack sampleCodecs Placement.byContent sampleBatch = .ok prepared :=
  exists_of_isOk (by decide +kernel)

theorem sampleBatch_roundTrip : ∃ prepared events,
    prepareNativeIngestPack sampleCodecs Placement.byContent sampleBatch = .ok prepared ∧
    decodeNativeLogEvents sampleBatch = .ok (prepared.tenant, events) ∧
    decodeIngestPack sampleCodecs prepared.ingestPack.payload = .ok events := by
  obtain ⟨prepared, hprepared⟩ := exists_samplePack
  obtain ⟨events, frames, hevents, hdecoded, _, _⟩ :=
    ingestPack_roundTrip sampleCodecs_lawful hprepared
  exact ⟨prepared, events, hprepared, hevents, hdecoded⟩

end ShardLog.Ingest
