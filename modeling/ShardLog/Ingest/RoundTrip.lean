import ShardLog.Ingest.Pack

/-!
# Ingest packs - round trip

A pack read back delivers the events of its batch in their order, and its frames
are the same whether their indexes come from the live context or from the
compressed blocks.
-/

namespace ShardLog.Ingest

open ByteReader Runs Structural Integers List

/-! ## One group -/

/-- What the encoder computes for one group. -/
structure GroupParts where
  block : IndexedStructuralBlock
  compressed : Bytes
  embeddedIndex : Bytes

section Group

variable {R : Type} [StructuralRecordView R] {codecs : Codecs}
  {placements : ∀ records : List R, Placement records} {group : CompressionCohortId × List R}
  {encoded : Bytes × Bytes} {parts : GroupParts} {records : List R} {record : R}

/-- Cohort, record count and block length, which open both headers. -/
def GroupParts.coordinates (parts : GroupParts) (group : CompressionCohortId × List R) : Bytes :=
  leBytes 8 group.1.toNat ++ leBytes 4 group.2.length ++ leBytes 4 parts.block.structural.length

/-- The header of the durable group. -/
def GroupParts.header (codecs : Codecs) (parts : GroupParts)
    (group : CompressionCohortId × List R) : Bytes :=
  parts.coordinates group ++ leBytes 4 parts.compressed.length ++
    leBytes 4 (codecs.payloadChecksum parts.compressed) ++
    leBytes 8 (minTimestamp group.2) ++ leBytes 8 (maxTimestamp group.2)

/-- The parts are those of this group. -/
structure GroupParts.PartsOf (codecs : Codecs) (placements : ∀ records : List R, Placement records)
    (group : CompressionCohortId × List R) (encoded : Bytes × Bytes) (parts : GroupParts) :
    Prop where
  block : encodeIndexedStructuralRecords codecs.tables codecs.pco (placements group.2) =
    .ok parts.block
  embeddedIndex : parts.block.index.encode = .ok parts.embeddedIndex
  structural_le : parts.block.structural.length ≤ maxIngestStructuralBytes
  compressed : codecs.zstd.compress parts.block.structural = .ok parts.compressed
  recordCount_lt : group.2.length < 2 ^ 32
  compressed_lt : parts.compressed.length < 2 ^ 32
  embeddedIndex_lt : parts.embeddedIndex.length < 2 ^ 32
  durable : encoded.1 = parts.header codecs group ++ parts.compressed
  transient : encoded.2 = parts.coordinates group ++
    leBytes 4 parts.embeddedIndex.length ++ parts.embeddedIndex

/-- What an encoded group consists of. -/
theorem exists_partsOf (h : encodeGroup codecs placements group = .ok encoded) :
    ∃ parts, GroupParts.PartsOf codecs placements group encoded parts := by
  simp only [encodeGroup, bind_eq_ok_iff] at h
  obtain ⟨block, hblock, embeddedIndex, hindex, _, hlength, compressed, hcompressed, recordCount,
    hrecordCount, structuralBytes, hstructuralBytes, compressedBytes, hcompressedBytes, indexBytes,
    hindexBytes, h⟩ := h
  obtain ⟨rfl, hrecordLt⟩ := tryU32_eq_ok_iff.mp hrecordCount
  obtain ⟨rfl, _⟩ := tryU32_eq_ok_iff.mp hstructuralBytes
  obtain ⟨rfl, hcompressedLt⟩ := tryU32_eq_ok_iff.mp hcompressedBytes
  obtain ⟨rfl, hindexLt⟩ := tryU32_eq_ok_iff.mp hindexBytes
  cases h
  refine ⟨⟨block, compressed, embeddedIndex⟩, hblock, hindex, ensure_eq_ok_iff.mp hlength, ?_,
    hrecordLt, hcompressedLt, hindexLt, rfl, rfl⟩
  unfold Codecs.compress at hcompressed
  cases hzstd : codecs.zstd.compress block.structural <;> simp_all

/-- The group as the reader sees it at a cursor. -/
def GroupParts.ingestGroup (codecs : Codecs) (parts : GroupParts)
    (group : CompressionCohortId × List R) (cursor : Nat) : IngestGroup :=
  ⟨group.1, group.2.length, parts.block.structural.length,
    codecs.payloadChecksum parts.compressed, UInt64.ofNat (minTimestamp group.2),
    UInt64.ofNat (maxTimestamp group.2), parts.compressed,
    ⟨cursor + ingestGroupHeaderBytes, cursor + ingestGroupHeaderBytes + parts.compressed.length⟩⟩

theorem payloadChecksum_lt (codecs : Codecs) (payload : Bytes) :
    codecs.payloadChecksum payload < 256 ^ 4 := by
  have hlt := fromLeBytes_lt ((codecs.blake3 payload).take 4)
  have hlength : ((codecs.blake3 payload).take 4).length ≤ 4 := by simp
  exact lt_of_lt_of_le hlt (Nat.pow_le_pow_right (by decide) hlength)

theorem mem_timestampsOf_lt {timestamp : Nat} (h : timestamp ∈ timestampsOf records) :
    timestamp < 2 ^ 64 := by
  obtain ⟨record, _, rfl⟩ := mem_map.mp h
  exact (structuralTimestampUnixNanos record).toNat_lt

theorem minTimestamp_lt (records : List R) : minTimestamp records < 2 ^ 64 := by
  unfold minTimestamp
  cases h : (timestampsOf records).min? with
  | none => simp
  | some least => exact mem_timestampsOf_lt (min?_mem h)

theorem maxTimestamp_lt (records : List R) : maxTimestamp records < 2 ^ 64 := by
  unfold maxTimestamp
  cases h : (timestampsOf records).max? with
  | none => simp
  | some greatest => exact mem_timestampsOf_lt (max?_mem h)

theorem minTimestamp_le (h : record ∈ records) :
    minTimestamp records ≤ (structuralTimestampUnixNanos record).toNat := by
  have hmem : (structuralTimestampUnixNanos record).toNat ∈ timestampsOf records := mem_map_of_mem h
  unfold minTimestamp
  cases hmin : (timestampsOf records).min? with
  | none => exact Nat.zero_le _
  | some least => exact (min?_eq_some_iff.mp hmin).2 _ hmem

theorem le_maxTimestamp (h : record ∈ records) :
    (structuralTimestampUnixNanos record).toNat ≤ maxTimestamp records := by
  have hmem : (structuralTimestampUnixNanos record).toNat ∈ timestampsOf records := mem_map_of_mem h
  unfold maxTimestamp
  cases hmax : (timestampsOf records).max? with
  | none => grind
  | some greatest => exact (max?_eq_some_iff.mp hmax).2 _ hmem

/-- A group has a time range. -/
theorem minTimestamp_le_maxTimestamp (hne : records ≠ []) :
    UInt64.ofNat (minTimestamp records) ≤ UInt64.ofNat (maxTimestamp records) := by
  obtain ⟨record, hrecord⟩ := exists_mem_of_ne_nil records hne
  have hlow := minTimestamp_le hrecord
  have hhigh := le_maxTimestamp hrecord
  rw [UInt64.le_iff_toNat_le, UInt64.toNat_ofNat_of_lt' (minTimestamp_lt records),
    UInt64.toNat_ofNat_of_lt' (maxTimestamp_lt records)]
  exact hlow.trans hhigh

/-- The fields of a durable header, in the order they are written. -/
structure GroupParts.HeaderFields (codecs : Codecs) (parts : GroupParts)
    (group : CompressionCohortId × List R) (header : Bytes) : Prop where
  length : header.length = ingestGroupHeaderBytes
  cohort : headerField header 0 8 = group.1.toNat
  recordCount : headerField header 8 12 = group.2.length
  structuralBytes : headerField header 12 16 = parts.block.structural.length
  compressedBytes : headerField header 16 20 = parts.compressed.length
  checksum : headerField header 20 24 = codecs.payloadChecksum parts.compressed
  minTimestamp : headerField header 24 32 = Ingest.minTimestamp group.2
  maxTimestamp : headerField header 32 40 = Ingest.maxTimestamp group.2

/-- The frame of a group. -/
def GroupParts.frame (parts : GroupParts) (group : CompressionCohortId × List R) :
    IndexedIngestFrame :=
  ⟨group.1, group.2.length, parts.block.structural.length, UInt64.ofNat (minTimestamp group.2),
    UInt64.ofNat (maxTimestamp group.2), parts.compressed, parts.block.index⟩

namespace GroupParts.PartsOf

variable (h : parts.PartsOf codecs placements group encoded)

include h

theorem structural_lt : parts.block.structural.length < 256 ^ 4 :=
  lt_of_le_of_lt h.structural_le (by decide)

/-- The header fields are where the decoder looks. -/
theorem headerFields :
    parts.HeaderFields codecs group (parts.header codecs group) := by
  have hcohort := fromLeBytes_leBytes (show group.1.toNat < 256 ^ 8 from group.1.toNat_lt)
  have hcount := fromLeBytes_leBytes (show group.2.length < 256 ^ 4 from h.recordCount_lt)
  have hstructural := fromLeBytes_leBytes h.structural_lt
  have hcompressed := fromLeBytes_leBytes (show parts.compressed.length < 256 ^ 4 from
    h.compressed_lt)
  have hchecksum := fromLeBytes_leBytes (payloadChecksum_lt codecs parts.compressed)
  have hmin := fromLeBytes_leBytes (show minTimestamp group.2 < 256 ^ 8 from minTimestamp_lt _)
  have hmax := fromLeBytes_leBytes (show maxTimestamp group.2 < 256 ^ 8 from maxTimestamp_lt _)
  constructor <;>
    simp [GroupParts.header, GroupParts.coordinates, ingestGroupHeaderBytes, headerField, slice,
      drop_append, drop_eq_nil_of_le, take_of_length_le, *]

/-- Reading the group that was written. -/
theorem run_nextGroup (cursor : Nat) (tail : Bytes) :
    nextGroup.run ⟨cursor, encoded.1 ++ tail⟩ =
      .ok (parts.ingestGroup codecs group cursor, ⟨cursor + encoded.1.length, tail⟩) := by
  have hfields := h.headerFields
  have hheader := reads_takeExactly "compressed ingest group header is truncated"
    "compressed ingest group header is truncated" (parts.header codecs group)
  rw [hfields.length] at hheader
  have hcompressed := reads_takeExactly "compressed ingest group payload is truncated"
    "compressed ingest group payload is truncated" parts.compressed
  rw [← hfields.compressedBytes] at hcompressed
  unfold nextGroup
  rw [h.durable, append_assoc, run_bind_ok (hheader cursor _), run_bind_ok (run_input _),
    run_bind_ok (hcompressed _ tail), hfields.cohort, hfields.recordCount,
    hfields.structuralBytes, hfields.compressedBytes, hfields.checksum, hfields.minTimestamp,
    hfields.maxTimestamp, UInt64.ofNat_toNat, length_append, hfields.length, ← Nat.add_assoc]
  rfl

theorem structural_ne_nil : parts.block.structural ≠ [] := by
  obtain ⟨pieces, hpieces⟩ := exists_piecesOf h.block
  obtain ⟨count, blobs, _, _, hstructural⟩ := hpieces.structural
  rw [hstructural]
  exact append_ne_nil_of_left_ne_nil (by decide) _

/-- A written group is valid. -/
theorem validateGroup_eq (hne : group.2 ≠ []) (cursor : Nat) :
    validateGroup codecs (parts.ingestGroup codecs group cursor) = .ok () := by
  apply ensure_of_true
  refine ⟨?_, ?_, h.structural_le, minTimestamp_le_maxTimestamp hne, rfl⟩
  · exact fun hzero => hne (eq_nil_of_length_eq_zero hzero)
  · exact fun hzero => h.structural_ne_nil (eq_nil_of_length_eq_zero hzero)

/-- The block is decompressed. -/
theorem decompress_eq (hcodecs : codecs.Lawful) :
    decompressStructural codecs parts.compressed parts.block.structural.length =
      .ok parts.block.structural := by
  have hinverse := hcodecs.zstd _ _ h.compressed
  unfold decompressStructural Codecs.decompress
  rw [hinverse]
  rw [ok_bind, ensure_of_true rfl, ok_bind]

/-- The events of a group, one for each of its records. -/
theorem groupEvents_eq
    (hcodecs : codecs.Lawful) (hne : group.2 ≠ []) {expectedRecordCount : Nat}
    {event : R → Nat × OtlpLogEvent}
    (hevent : ∀ record ∈ group.2, ∀ decoded, Represents record decoded →
      ordinalEvent expectedRecordCount group.1 decoded = .ok (event record)) (cursor : Nat) :
    groupEvents codecs expectedRecordCount (parts.ingestGroup codecs group cursor) =
      .ok (group.2.map event) := by
  obtain ⟨pieces, hpieces⟩ := exists_piecesOf h.block
  obtain ⟨decoded, hdecoded, hrecords⟩ := hpieces.exists_decoded hcodecs.pco
  have hcollect : collect (ordinalEvent expectedRecordCount group.1) decoded =
      .ok (group.2.map event) := by
    rw [collect_eq_ok_iff, forall₂_map_right_iff]
    have hboth := (forall₂_and_left group.2 decoded).mpr ⟨fun _ hmem => hmem, hrecords⟩
    exact hboth.flip.imp fun _ record hrecord => hevent record hrecord.1 _ hrecord.2
  unfold groupEvents
  rw [h.validateGroup_eq hne cursor, ok_bind]
  unfold decompressGroup GroupParts.ingestGroup
  rw [h.decompress_eq hcodecs, ok_bind, hdecoded, ok_bind,
    ensure_of_true hrecords.length_eq.symm, ok_bind, hcollect]

/-- The transient group is read back by the live reader. -/
theorem run_nextTransientGroup (cursor : Nat) (tail : Bytes) :
    nextTransientGroup.run ⟨cursor, encoded.2 ++ tail⟩ =
      .ok (⟨group.1, group.2.length, parts.block.structural.length, parts.embeddedIndex⟩,
        ⟨cursor + encoded.2.length, tail⟩) := by
  have hcohort := fromLeBytes_leBytes (show group.1.toNat < 256 ^ 8 from group.1.toNat_lt)
  have hcount := fromLeBytes_leBytes (show group.2.length < 256 ^ 4 from h.recordCount_lt)
  have hstructural := fromLeBytes_leBytes h.structural_lt
  have hindex := fromLeBytes_leBytes (show parts.embeddedIndex.length < 256 ^ 4 from
    h.embeddedIndex_lt)
  have hheader := reads_takeExactly "transient ingest group header is truncated"
    "transient ingest group header is truncated"
    (parts.coordinates group ++ leBytes 4 parts.embeddedIndex.length)
  have hlength : (parts.coordinates group ++ leBytes 4 parts.embeddedIndex.length).length =
      transientGroupHeaderBytes := by
    simp [GroupParts.coordinates, transientGroupHeaderBytes]
  rw [hlength] at hheader
  have hpayload := reads_takeExactly "transient ingest index payload is truncated"
    "transient ingest index payload is truncated" parts.embeddedIndex
  unfold nextTransientGroup
  rw [h.transient, append_assoc, run_bind_ok (hheader cursor _), hlength,
    length_append, hlength, ← Nat.add_assoc]
  simp [GroupParts.coordinates, headerField, slice, drop_append, drop_eq_nil_of_le,
    take_of_length_le, hcohort, hcount, hstructural, hindex, hpayload _ tail]

/-- The index of a group is the index built with its block, from either source. -/
theorem groupIndex_recovered (hcodecs : codecs.Lawful) (cursor : Nat) :
    groupIndex codecs (parts.ingestGroup codecs group cursor) none =
      .ok (parts.block.index, none) := by
  unfold groupIndex decompressGroup GroupParts.ingestGroup
  rw [h.decompress_eq hcodecs, ok_bind, decodeEmbeddedFrameIndex_encode h.block, ok_bind]

/-- The live context has the index of the block. -/
theorem groupIndex_live (cursor position : Nat) (tail : Bytes) :
    groupIndex codecs (parts.ingestGroup codecs group cursor) (some ⟨position, encoded.2 ++ tail⟩) =
      .ok (parts.block.index, some ⟨position + encoded.2.length, tail⟩) := by
  have hindex := decodeEmbeddedFrameIndexSection_encode h.block h.embeddedIndex
  apply bind_eq_ok_iff.mpr
  refine ⟨_, h.run_nextTransientGroup position tail, ?_⟩
  apply bind_eq_ok_iff.mpr
  refine ⟨(), ensure_of_true ⟨rfl, rfl, rfl⟩ _, ?_⟩
  exact bind_eq_ok_iff.mpr ⟨_, hindex, rfl⟩

/-- The frame of a group, from any source of its index. -/
theorem groupFrame_eq
    (hne : group.2 ≠ []) {before after : Bytes} {live next : Option Input}
    (hindex : groupIndex codecs (parts.ingestGroup codecs group before.length) live =
      .ok (parts.block.index, next)) :
    groupFrame codecs (before ++ encoded.1 ++ after)
        (parts.ingestGroup codecs group before.length) live =
      .ok (parts.frame group, next) := by
  have hcompressed : slice (before ++ encoded.1 ++ after)
      (parts.ingestGroup codecs group before.length).compressedRange = parts.compressed := by
    have hslice := slice_append (before ++ parts.header codecs group) parts.compressed after
    rw [length_append, h.headerFields.length] at hslice
    rw [h.durable, ← append_assoc before]
    exact hslice
  have hcount := recordCount_index h.block
  apply bind_eq_ok_iff.mpr
  refine ⟨(), h.validateGroup_eq hne _, ?_⟩
  apply bind_eq_ok_iff.mpr
  refine ⟨_, hindex, ?_⟩
  apply bind_eq_ok_iff.mpr
  refine ⟨(), ensure_of_true hcount _, ?_⟩
  rw [hcompressed, GroupParts.frame, ← hcount]
  rfl

end GroupParts.PartsOf

end Group

/-! ## All groups -/

section Groups

variable {R : Type} [StructuralRecordView R] {codecs : Codecs}
  {placements : ∀ records : List R, Placement records}

/-- A nonempty group with its encoding. -/
structure PackedGroup (codecs : Codecs) (placements : ∀ records : List R, Placement records) where
  group : CompressionCohortId × List R
  encoded : Bytes × Bytes
  parts : GroupParts
  partsOf : parts.PartsOf codecs placements group encoded
  nonempty : group.2 ≠ []

/-- Encoded groups are packed groups. -/
theorem exists_packedGroups {groups : List (CompressionCohortId × List R)}
    {encoded : List (Bytes × Bytes)} (h : collect (encodeGroup codecs placements) groups =
      .ok encoded) (hne : ∀ group ∈ groups, group.2 ≠ []) :
    ∃ packed : List (PackedGroup codecs placements),
      packed.map (·.group) = groups ∧ packed.map (·.encoded) = encoded := by
  have hall := collect_eq_ok_iff.mp h
  clear h
  induction hall with
  | nil => exact ⟨[], rfl, rfl⟩
  | @cons group bytes groups encoded hgroup _ ih =>
    obtain ⟨parts, hparts⟩ := exists_partsOf hgroup
    obtain ⟨packed, rfl, rfl⟩ := ih fun other hother => hne other (mem_cons_of_mem _ hother)
    exact ⟨⟨group, bytes, parts, hparts, hne group mem_cons_self⟩ :: packed, rfl, rfl⟩

/-- The durable bytes of the groups. -/
def durableBytes (packed : List (PackedGroup codecs placements)) : Bytes :=
  (packed.map (·.encoded.1)).flatten

def transientBytes (packed : List (PackedGroup codecs placements)) : Bytes :=
  (packed.map (·.encoded.2)).flatten

/-- The number of records of the groups. -/
def recordTotal (packed : List (PackedGroup codecs placements)) : Nat :=
  (packed.map (·.group.2.length)).sum

/-- The cohorts and records of the groups. -/
def packedRecords (packed : List (PackedGroup codecs placements)) :
    List (CompressionCohortId × R) :=
  AssocMap.ungroup (packed.map (·.group))

theorem length_packedRecords (packed : List (PackedGroup codecs placements)) :
    (packedRecords packed).length = recordTotal packed := by
  simp [packedRecords, recordTotal, AssocMap.ungroup, length_flatMap, Function.comp_def]

variable {packed : List (PackedGroup codecs placements)} {observed : Nat}

/-- The loop over the groups delivers the events of all their records. -/
theorem run_readGroupEvents (hcodecs : codecs.Lawful) {expectedRecordCount : Nat}
    {event : CompressionCohortId × R → Nat × OtlpLogEvent}
    (hevent : ∀ record ∈ packedRecords packed, ∀ decoded, Represents record.2 decoded →
      ordinalEvent expectedRecordCount record.1 decoded = .ok (event record))
    (htotal : observed + recordTotal packed < 2 ^ 64) (cursor : Nat) (tail : Bytes) :
    (readGroupEvents codecs expectedRecordCount packed.length observed).run
        ⟨cursor, durableBytes packed ++ tail⟩ =
      .ok (((packedRecords packed).map event, observed + recordTotal packed),
        ⟨cursor + (durableBytes packed).length, tail⟩) := by
  induction packed generalizing observed cursor with
  | nil => rfl
  | cons first packed ih =>
    have hrecords : packedRecords (first :: packed) =
        first.group.2.map (fun record => (first.group.1, record)) ++ packedRecords packed := by
      rw [packedRecords, map_cons, AssocMap.ungroup, flatMap_cons]
      rfl
    have htotalEq : recordTotal (first :: packed) = first.group.2.length + recordTotal packed := rfl
    have hobserve : observeRecords observed (first.parts.ingestGroup codecs first.group cursor) =
        .ok (observed + first.group.2.length) :=
      tryU64_eq_ok_iff.mpr ⟨rfl, by dsimp only [GroupParts.ingestGroup]; omega⟩
    have hgroup := first.partsOf.groupEvents_eq hcodecs first.nonempty
      (fun record hrecord => hevent (first.group.1, record) (by
        rw [hrecords]
        exact mem_append_left _ (mem_map_of_mem hrecord))) cursor
    have hrest := @ih (observed + first.group.2.length) (fun record hrecord => hevent record (by
        rw [hrecords]
        exact mem_append_right _ hrecord)) (by omega)
      (cursor + first.encoded.1.length)
    have hbytes : durableBytes (first :: packed) = first.encoded.1 ++ durableBytes packed := rfl
    rw [length_cons, readGroupEvents, hbytes, append_assoc,
      run_bind_ok (first.partsOf.run_nextGroup cursor _),
      run_bind_ok (run_ofResult_eq_ok_iff.mpr ⟨hobserve, rfl⟩),
      run_bind_ok (run_ofResult_eq_ok_iff.mpr ⟨hgroup, rfl⟩), run_bind_ok hrest, hrecords,
      map_append, map_map, htotalEq, length_append, ← Nat.add_assoc,
      ← Nat.add_assoc]
    rfl

/-- The frames of the groups. -/
def framesOf (packed : List (PackedGroup codecs placements)) : List IndexedIngestFrame :=
  packed.map fun entry => entry.parts.frame entry.group

/-- The loop over the groups delivers their frames; a live context is consumed
group by group. -/
theorem run_readGroupFrames (hcodecs : codecs.Lawful) {live : Option Input}
    (hlive : ∀ state, live = some state → state.rest = transientBytes packed)
    (htotal : observed + recordTotal packed < 2 ^ 64) (before after : Bytes) :
    ∃ next, (readGroupFrames codecs (before ++ durableBytes packed ++ after) packed.length
        observed live).run ⟨before.length, durableBytes packed ++ after⟩ =
      .ok ((framesOf packed, observed + recordTotal packed, next),
        ⟨before.length + (durableBytes packed).length, after⟩) ∧
      ∀ state, next = some state → state.rest = [] := by
  induction packed generalizing observed live before with
  | nil => exact ⟨live, rfl, hlive⟩
  | cons first packed ih =>
    have htotalEq : recordTotal (first :: packed) = first.group.2.length + recordTotal packed := rfl
    have hbytes : durableBytes (first :: packed) = first.encoded.1 ++ durableBytes packed := rfl
    have hobserve : observeRecords observed
        (first.parts.ingestGroup codecs first.group before.length) =
        .ok (observed + first.group.2.length) :=
      tryU64_eq_ok_iff.mpr ⟨rfl, by dsimp only [GroupParts.ingestGroup]; omega⟩
    -- the index comes from whichever source there is
    obtain ⟨next, hindex, hnext⟩ : ∃ next, groupIndex codecs
        (first.parts.ingestGroup codecs first.group before.length) live =
          .ok (first.parts.block.index, next) ∧
        ∀ state, next = some state → state.rest = transientBytes packed := by
      cases live with
      | none => exact ⟨none, first.partsOf.groupIndex_recovered hcodecs _, by simp⟩
      | some state =>
        obtain ⟨position, rest⟩ := state
        have hrest := hlive _ rfl
        subst hrest
        refine ⟨_, first.partsOf.groupIndex_live _ position (transientBytes packed), ?_⟩
        intro state hstate
        cases hstate
        rfl
    have hframe := @GroupParts.PartsOf.groupFrame_eq _ _ _ _ _ _ _ first.partsOf first.nonempty
      before (durableBytes packed ++ after) _ _ hindex
    obtain ⟨final, hrun, hfinal⟩ := @ih (observed + first.group.2.length) next hnext (by omega)
      (before ++ first.encoded.1)
    refine ⟨final, ?_, hfinal⟩
    rw [← append_assoc] at hframe
    rw [length_append] at hrun
    rw [length_cons, readGroupFrames, hbytes, append_assoc first.encoded.1,
      run_bind_ok (first.partsOf.run_nextGroup before.length _),
      run_bind_ok (run_ofResult_eq_ok_iff.mpr ⟨hobserve, rfl⟩), ← append_assoc before,
      run_bind_ok (run_ofResult_eq_ok_iff.mpr ⟨hframe, rfl⟩), run_bind_ok hrun, htotalEq,
      length_append, ← Nat.add_assoc, ← Nat.add_assoc]
    rfl

/-! ## Whole packs -/

/-- A pack is its headers and the bytes of its groups. -/
structure PreparedIngestPack.HoldsGroups (pack : PreparedIngestPack) (recordCount : Nat)
    (packed : List (PackedGroup codecs placements)) : Prop where
  groupCount_lt : packed.length < 2 ^ 16
  payload : pack.payload = (ingestPackMagic ++ leBytes 4 recordCount ++
    leBytes 2 packed.length ++ [0, 0]) ++ durableBytes packed
  transientContext : pack.transientContext = (transientPackMagic ++
    leBytes 2 packed.length ++ [0, 0]) ++ transientBytes packed

/-- A prepared pack holds its groups. -/
theorem exists_holdsGroups {recordCount : Nat} {cohorts : List (CompressionCohortId × List R)}
    {pack : PreparedIngestPack}
    (h : prepareGroupedIngestPack codecs placements recordCount cohorts = .ok pack)
    (hne : ∀ group ∈ cohorts, group.2 ≠ []) :
    ∃ packed : List (PackedGroup codecs placements),
      packed.map (·.group) = cohorts ∧ pack.HoldsGroups recordCount packed := by
  simp only [prepareGroupedIngestPack, bind_eq_ok_iff] at h
  obtain ⟨groupCount, hgroupCount, encoded, hencoded, _, _, h⟩ := h
  obtain ⟨rfl, hlt⟩ := tryUnsigned_eq_ok_iff.mp hgroupCount
  obtain ⟨packed, rfl, rfl⟩ := exists_packedGroups hencoded hne
  cases h
  rw [length_map] at hlt ⊢
  refine ⟨packed, rfl, hlt, ?_, ?_⟩
  · simp [durableBytes, Function.comp_def]
  · simp [transientBytes, Function.comp_def]

section Payload

variable {pack : PreparedIngestPack} {recordCount : Nat}
  {packed : List (PackedGroup codecs placements)} {events : List OtlpLogEvent}

section

variable (h : pack.HoldsGroups recordCount packed)

include h

/-- A prepared pack is opened. -/
theorem PreparedIngestPack.HoldsGroups.openIngestPack_eq (hcount : recordCount < 2 ^ 32) :
    headerField pack.payload 4 8 = recordCount ∧
      openIngestPack pack.payload recordCount = .ok packed.length := by
  have hmagic : ingestPackMagic.length = 4 := by decide
  have hrecords : headerField pack.payload 4 8 = recordCount := by
    simp [h.payload, headerField, slice, hmagic,
      fromLeBytes_leBytes (show recordCount < 256 ^ 4 from hcount)]
  have hgroups : headerField pack.payload 8 10 = packed.length := by
    simp [h.payload, headerField, slice, drop_append, drop_eq_nil_of_le, hmagic,
      fromLeBytes_leBytes (show packed.length < 256 ^ 2 from h.groupCount_lt)]
  have hheader : ingestPackHeaderBytes ≤ pack.payload.length ∧
      pack.payload.take 4 = ingestPackMagic ∧ slice pack.payload ⟨10, 12⟩ = [0, 0] := by
    rw [h.payload]
    refine ⟨?_, by simp [hmagic], ?_⟩
    · simp [ingestPackHeaderBytes, hmagic]
      omega
    · simp [slice, drop_append, drop_eq_nil_of_le, hmagic]
  refine ⟨hrecords, ?_⟩
  rw [openIngestPack, ensure_of_true hheader, ok_bind, ensure_of_true hrecords, ok_bind, hgroups]

theorem PreparedIngestPack.HoldsGroups.ingestBody_eq :
    ingestBody pack.payload = ⟨ingestPackHeaderBytes, durableBytes packed⟩ := by
  have hmagic : ingestPackMagic.length = 4 := by decide
  simp [ingestBody, h.payload, ingestPackHeaderBytes, drop_append, drop_eq_nil_of_le, hmagic]

theorem PreparedIngestPack.HoldsGroups.liveContext_eq :
    liveContext (some pack.transientContext) packed.length =
      .ok (some ⟨transientPackHeaderBytes, transientBytes packed⟩) := by
  have hmagic : transientPackMagic.length = 4 := by decide
  have hgroups : headerField pack.transientContext 4 6 = packed.length := by
    simp [h.transientContext, headerField, slice, hmagic,
      fromLeBytes_leBytes (show packed.length < 256 ^ 2 from h.groupCount_lt)]
  have hheader : transientPackHeaderBytes ≤ pack.transientContext.length ∧
      pack.transientContext.take 4 = transientPackMagic ∧
      slice pack.transientContext ⟨6, 8⟩ = [0, 0] := by
    rw [h.transientContext]
    refine ⟨?_, by simp [hmagic], ?_⟩
    · simp [transientPackHeaderBytes, hmagic]
      omega
    · simp [slice, drop_append, drop_eq_nil_of_le, hmagic]
  have hstarts : transientPackMagic.isPrefixOf pack.transientContext = true := by grind
  have hbody : pack.transientContext.drop transientPackHeaderBytes = transientBytes packed := by
    simp [h.transientContext, transientPackHeaderBytes, drop_append, drop_eq_nil_of_le, hmagic]
  unfold liveContext
  dsimp only
  rw [if_pos hstarts, openTransientPack, ensure_of_true hheader, ok_bind, ensure_of_true hgroups,
    ok_bind, ok_bind, hbody]

end

/-- The groups of a pack end it and hold the declared records. -/
theorem run_finishIngestPack (hcount : recordTotal packed = recordCount) (cursor : Nat) :
    (finishIngestPack packed.length recordCount (0 + recordTotal packed)).run ⟨cursor, []⟩ =
      .ok ((), ⟨cursor, []⟩) := by
  have hgroups : 0 < recordCount → packed.length ≠ 0 := by
    intro hpos hzero
    rw [eq_nil_of_length_eq_zero hzero] at hcount
    change 0 = recordCount at hcount
    omega
  unfold finishIngestPack
  rw [run_bind_ok (run_input _), run_require_eq_ok_iff]
  refine ⟨?_, rfl⟩
  by_cases hpos : 0 < recordCount
  · simp [hcount, hpos, hgroups hpos]
  · simp [hcount, hpos]

/-- Events with their ordinals. -/
def numbered (events : List OtlpLogEvent) : List (Nat × OtlpLogEvent) :=
  events.zipIdx.map fun entry => (entry.2, entry.1)

theorem map_fst_numbered (events : List OtlpLogEvent) :
    (numbered events).map Prod.fst = range events.length := by
  rw [numbered, map_map]
  exact zipIdx_map_snd 0 events ▸ range_eq_range' ▸ rfl

theorem map_snd_numbered (events : List OtlpLogEvent) :
    (numbered events).map Prod.snd = events := by
  rw [numbered, map_map]
  exact zipIdx_map_fst 0 events

/-- Whatever the order of the groups, the batch order is restored. -/
theorem restoreOrder_eq {collected : List (Nat × OtlpLogEvent)}
    (h : collected.Perm (numbered events)) :
    restoreOrder events.length collected = .ok events := by
  have hsorted : Sorted.StrictlySorted (fun event => event.1) (numbered events) := by
    have hrange : ((numbered events).map Prod.fst).Pairwise (· < ·) := by
      rw [map_fst_numbered]
      exact pairwise_lt_range
    exact pairwise_map.mp hrange
  rw [restoreOrder, Sorted.sortBy_eq_of_perm h hsorted, map_fst_numbered, map_snd_numbered,
    ensure_of_true rfl, ok_bind]

/-- A pack decodes to the events its groups carry. -/
theorem PreparedIngestPack.HoldsGroups.decodeIngestPack_eq (hcodecs : codecs.Lawful)
    (h : pack.HoldsGroups events.length packed) (hcount : recordTotal packed = events.length)
    (hlt : events.length < 2 ^ 32) {event : CompressionCohortId × R → Nat × OtlpLogEvent}
    (hevent : ∀ record ∈ packedRecords packed, ∀ decoded, Represents record.2 decoded →
      ordinalEvent events.length record.1 decoded = .ok (event record))
    (hperm : ((packedRecords packed).map event).Perm (numbered events)) :
    decodeIngestPack codecs pack.payload = .ok events := by
  obtain ⟨hfield, hopen⟩ := h.openIngestPack_eq hlt
  have htotal : 0 + recordTotal packed < 2 ^ 64 := by omega
  have hrun := run_readGroupEvents hcodecs hevent htotal ingestPackHeaderBytes []
  rw [append_nil] at hrun
  have hlength : 8 ≤ pack.payload.length := by
    rw [h.payload]
    have hmagic : ingestPackMagic.length = 4 := by decide
    simp only [length_append, length_leBytes, hmagic]
    omega
  unfold decodeIngestPack
  rw [ensure_of_true hlength, ok_bind]
  dsimp only
  rw [hfield, hopen, ok_bind, h.ingestBody_eq, run_bind_ok hrun,
    run_bind_ok (run_finishIngestPack hcount _)]
  exact restoreOrder_eq hperm

/-- The frames of a pack, with or without its live context. -/
theorem PreparedIngestPack.HoldsGroups.decodeIndexedIngestFrames_eq (hcodecs : codecs.Lawful)
    (h : pack.HoldsGroups recordCount packed) (hcount : recordTotal packed = recordCount)
    (hlt : recordCount < 2 ^ 32) {context : Option Bytes}
    (hcontext : context = some pack.transientContext ∨ context = none) :
    decodeIndexedIngestFrames codecs pack.payload context recordCount = .ok (framesOf packed) := by
  obtain ⟨_, hopen⟩ := h.openIngestPack_eq hlt
  obtain ⟨live, hlive, hrest⟩ : ∃ live, liveContext context packed.length = .ok live ∧
      ∀ state, live = some state → state.rest = transientBytes packed := by
    rcases hcontext with rfl | rfl
    · refine ⟨_, h.liveContext_eq, ?_⟩
      intro state hstate
      cases hstate
      rfl
    · exact ⟨none, rfl, by simp⟩
  have hlength : (ingestPackMagic ++ leBytes 4 recordCount ++
      leBytes 2 packed.length ++ [0, 0]).length = ingestPackHeaderBytes := by
    have hmagic : ingestPackMagic.length = 4 := by decide
    simp [hmagic, ingestPackHeaderBytes]
  have htotal : 0 + recordTotal packed < 2 ^ 64 := by omega
  obtain ⟨next, hrun, hnext⟩ := run_readGroupFrames hcodecs hrest htotal
    (ingestPackMagic ++ leBytes 4 recordCount ++ leBytes 2 packed.length ++ [0, 0]) []
  rw [append_nil, append_nil, ← h.payload, hlength] at hrun
  have hfinish : finishTransient next = .ok () := by
    cases next with
    | none => rfl
    | some state => exact ensure_of_true (hnext state rfl) _
  unfold decodeIndexedIngestFrames
  rw [hopen, ok_bind, hlive, ok_bind, h.ingestBody_eq, run_bind_ok hrun,
    run_bind_ok (run_finishIngestPack hcount _)]
  change (finishTransient next >>= fun _ => .ok (framesOf packed)) = _
  rw [hfinish, ok_bind]

end Payload

end Groups

end ShardLog.Ingest
