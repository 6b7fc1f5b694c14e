import ShardLog.Persistent.Lookup

/-!
# Persistent index - Candidates of a query

What the three queries of a directory return, in terms of the records of its
blocks, and that an unlimited query without message literals loses no match.

Main results:

- Theorem `mem_candidateHits_of_matches`: every matching record is a candidate.
-/

namespace ShardLog.Persistent

open Utf8 Sorted Merge PersistentQueryIndex LogQuery List

variable {tables : UnicodeTables} {R : Type} [StructuralRecordView R]
  {directory : PersistentQueryIndex} {blocks : List (SealedBlock tables R)} {query : LogQuery}
  {block : SealedBlock tables R} {slots : List Nat} {record : R} {isMatch : LogRegex → Str → Bool}
  {rules : TextRules}

/-! ## Candidates in terms of records -/

/-- The record passes the test of every required term and field. -/
def isCandidate (tables : UnicodeTables) (query : LogQuery) (record : R) : Bool :=
  (tests R tables query.requiredIndexConstraints).all fun accept => accept record

/-- The blocks of the partition that a query looks into, by ordinal. -/
def visitedBlocks (query : LogQuery) (blocks : List (SealedBlock tables R)) :
    List (SealedBlock tables R) :=
  (blocksOf query.topicPartition blocks).filter fun block => blockOverlaps query block.metadata &&
      block.passesTrigrams query.requiredIndexConstraints.messageLiterals

/-- The candidates of one block. -/
def SealedBlock.hits (query : LogQuery) (block : SealedBlock tables R) : List QueryHit :=
  (orient (newestFirst query) (block.accepted (isCandidate tables query))).map fun recordOrdinal =>
    ⟨block.ordinal, recordOrdinal⟩

/-- A test that no record of the block passes leaves no candidate. -/
theorem accepted_isCandidate_eq_nil {accept : R → Bool}
    (haccept : accept ∈ tests R tables query.requiredIndexConstraints)
    (hnone : block.accepted accept = []) : block.accepted (isCandidate tables query) = [] := by
  rw [eq_nil_iff_forall_not_mem]
  intro ordinal hordinal
  obtain ⟨record, hrecord, hall⟩ := mem_accepted.mp hordinal
  have hpasses := all_eq_true.mp hall accept haccept
  have hmem := mem_accepted.mpr ⟨record, hrecord, hpasses⟩
  rw [hnone] at hmem
  cases hmem

theorem hits_eq_nil (h : block.accepted (isCandidate tables query) = []) :
    block.hits query = [] := by
  rw [SealedBlock.hits, h, orient_nil, map_nil]

/-- A block without a required key has no candidates. -/
theorem hits_eq_nil_of_not_hasAll
    (h : block.hasAll (tests R tables query.requiredIndexConstraints) = false) :
    block.hits query = [] := by
  rw [SealedBlock.hasAll, all_eq_false] at h
  obtain ⟨accept, haccept, hempty⟩ := h
  refine hits_eq_nil (accepted_isCandidate_eq_nil haccept ?_)
  simpa [List.isEmpty_iff] using hempty

/-- The lists of a block give the records that pass every test. -/
theorem entryHits_entry (laws : tables.Lawful) (hvalid : block.metadata.Valid block.index)
    (query : LogQuery) : entryHits tables query block.entry = block.hits query := by
  have hcount : block.metadata.recordCount = block.records.length :=
    hvalid.1.trans (build_spec laws block.built).recordCount
  rcases entryLists_spec laws block query.requiredIndexConstraints with
    ⟨hnone, accept, haccept, hempty⟩ | ⟨lists, hsome, hall⟩
  · rw [entryHits, SealedBlock.entry, hnone, hits_eq_nil (accepted_isCandidate_eq_nil haccept hempty)]
  · have hcommon : commonOrdinals block.metadata.recordCount lists =
        block.accepted (isCandidate tables query) := by
      rw [commonOrdinals, SealedBlock.accepted, hcount]
      apply filter_congr
      intro ordinal hordinal
      have hrecord := getElem?_eq_getElem (mem_range.mp hordinal)
      rw [all_lists_eq hall hrecord, hrecord, Option.any_some, isCandidate]
    rw [entryHits, SealedBlock.entry, hsome, SealedBlock.hits]
    dsimp only
    rw [hcommon]
    rfl

/-! ## Candidate records -/

/-- Entries are visited as blocks are. -/
theorem visitedEntries_map_entry (h : Merges directory blocks)
    (hslots : slotsOf tables directory query = some slots) :
    visitedEntries directory query slots (blocks.map SealedBlock.entry) =
      (visitedBlocks query blocks).map SealedBlock.entry := by
  rw [visitedEntries, entriesOf, filter_map, filter_map, visitedBlocks, blocksOf]
  congr 1
  apply filter_congr
  intro block hblock
  have hmatch := messageMightMatch_prepared h hslots (mem_filter.mp hblock).1
  exact congrArg (blockOverlaps query block.metadata && ·) hmatch

/-- The visited blocks with a record for every test. -/
def blocksWithAll (query : LogQuery) (blocks : List (SealedBlock tables R)) :
    List (SealedBlock tables R) :=
  (visitedBlocks query blocks).filter fun block =>
    block.hasAll (tests R tables query.requiredIndexConstraints)

/-- Entries are retained as blocks are. -/
theorem retainedEntries_map_entry (laws : tables.Lawful) (h : Merges directory blocks)
    (hslots : slotsOf tables directory query = some slots) :
    retainedEntries tables directory query slots (blocks.map SealedBlock.entry) =
      (blocksWithAll query blocks).map SealedBlock.entry := by
  rw [retainedEntries, visitedEntries_map_entry h hslots, filter_map, blocksWithAll]
  congr 1
  apply filter_congr
  intro block _
  exact isSome_entryLists_eq_hasAll laws block _

/-- A literal that no block has leaves nothing to visit. -/
theorem visitedBlocks_eq_nil (h : Merges directory blocks)
    (hnone : slotsOf tables directory query = none) : visitedBlocks query blocks = [] := by
  refine filter_eq_nil_iff.mpr fun block hblock => ?_
  rw [passesTrigrams_of_prepare_none h hnone (mem_blocksOf.mp hblock).1]
  simp

/-- Literals in no block leave nothing to plan. -/
theorem plan_of_prepare_none (hquery : ¬Vacuous query)
    (hnone : slotsOf tables directory query = none) :
    directory.plan tables query = none := by
  rw [plan_of_not_vacuous hquery, hnone, Option.bind_none]

theorem visitedBlocks_sublist : (visitedBlocks query blocks).Sublist blocks :=
  filter_sublist.trans filter_sublist

/-- Entries and blocks have the same candidates. -/
theorem flatMap_entryHits (laws : tables.Lawful) (h : Merges directory blocks)
    {visited : List (SealedBlock tables R)} (hvisited : visited ⊆ blocks) :
    (visited.map SealedBlock.entry).flatMap (entryHits tables query) =
      visited.flatMap (SealedBlock.hits query) := by
  rw [flatMap_map]
  exact flatMap_congr fun block hblock =>
    entryHits_entry laws (h.valid block (hvisited hblock)) query

/-- The candidates of the visited blocks, by block ordinal, cut at the safe limit. -/
theorem candidateHits_eq (laws : tables.Lawful) (h : Merges directory blocks)
    (hquery : ¬Vacuous query) :
    directory.candidateHits tables query =
      ((orient (newestFirst query) (visitedBlocks query blocks)).flatMap
        (SealedBlock.hits query)).take (safeLimit query) := by
  cases hslots : slotsOf tables directory query with
  | none =>
    rw [candidateHits, plan_of_prepare_none hquery hslots,
      visitedBlocks_eq_nil h hslots, orient_nil, flatMap_nil, take_nil]
  | some slots =>
    have hin : orient (newestFirst query) (blocksWithAll query blocks) ⊆ blocks :=
      fun block hblock => visitedBlocks_sublist.subset (mem_filter.mp (mem_orient.mp hblock)).1
    rw [candidateHits_of_slots h.entries hquery hslots,
      retainedEntries_map_entry laws h hslots, ← map_orient, flatMap_entryHits laws h hin,
      blocksWithAll, ← filter_orient,
      flatMap_filter_of_nil fun block _ hall => hits_eq_nil_of_not_hasAll hall]

/-- The limit cuts the candidates only when postings alone answer the query. -/
theorem candidateHits_eq_truncateTo (laws : tables.Lawful) (h : Merges directory blocks)
    (hquery : ¬Vacuous query) :
    directory.candidateHits tables query =
      truncateTo (if query.canApplyIndexLimit then query.limit else none)
        ((orient (newestFirst query) (visitedBlocks query blocks)).flatMap
          (SealedBlock.hits query)) := by
  have hperm := perm_orient (newestFirst query) (visitedBlocks query blocks)
  have hall : ((orient (newestFirst query) (visitedBlocks query blocks)).flatMap
      (SealedBlock.hits query)).take usizeMax =
        (orient (newestFirst query) (visitedBlocks query blocks)).flatMap
          (SealedBlock.hits query) := by
    rw [← flatMap_entryHits laws h fun block hblock =>
      visitedBlocks_sublist.subset (hperm.subset hblock)]
    exact take_of_length_le (length_flatMap_entryHits_le h.entries
      ((hperm.map _).subperm.trans (visitedBlocks_sublist.map _).subperm))
  rw [candidateHits_eq laws h hquery, safeLimit]
  by_cases happly : query.canApplyIndexLimit = true
  · rw [if_pos happly, if_pos happly]
    cases query.limit with
    | none => exact hall
    | some limit => rfl
  · rw [if_neg happly, if_neg happly, hall]
    rfl

/-! ## Candidate blocks, and the candidate records of one block -/

/-- The blocks with all required keys, by first offset. -/
theorem candidateBlocks_eq (laws : tables.Lawful) (h : Merges directory blocks)
    (hquery : ¬Vacuous query) :
    directory.candidateBlocks tables query =
      (orient (newestFirst query) (sortBy (fun block => block.metadata.firstOffset.toNat)
        (blocksWithAll query blocks))).map SealedBlock.ordinal := by
  cases hslots : slotsOf tables directory query with
  | none =>
    have hsorted : sortBy (fun block : SealedBlock tables R => block.metadata.firstOffset.toNat)
        [] = [] := rfl
    rw [candidateBlocks, plan_of_prepare_none hquery hslots, blocksWithAll,
      visitedBlocks_eq_nil h hslots, filter_nil, hsorted, orient_nil]
    rfl
  | some slots =>
    rw [candidateBlocks_of_slots h.entries hquery hslots, retainedEntries_map_entry laws h hslots,
      ← map_sortBy SealedBlock.entry fun entry => entry.1.firstOffset.toNat, ← map_orient,
      map_map]
    rfl

/-- The bounds of the metadata cover the records of the block. -/
def SealedBlock.Covers (block : SealedBlock tables R) : Prop :=
  ∀ record ∈ block.records, (block.metadata.firstOffset ≤ structuralOffset record ∧
      structuralOffset record ≤ block.metadata.lastOffset) ∧
    (block.metadata.minTimestampUnixNanos ≤ structuralTimestampUnixNanos record ∧
      structuralTimestampUnixNanos record ≤ block.metadata.maxTimestampUnixNanos)

/-- Under the equality of index keys, a term of the message is a key of the record. -/
theorem hasTerm_normalized_iff {term : Str} :
    hasTerm (.normalized tables isMatch) (structuralMessage record) term = true ↔
      hasKey tables term record = true := by
  rw [hasKey, carries_iff, messageKeys, mem_map, hasTerm, any_eq_true]
  simp only [TextRules.normalized, beq_iff_eq]

/-- The candidates are the records that satisfy the constraints of the query. -/
theorem isCandidate_iff (hpossible : query.requiredIndexConstraints.impossible = false) :
    isCandidate tables query record = true ↔
      query.requiredIndexConstraints.SatisfiedBy (.normalized tables isMatch) record := by
  rw [isCandidate, all_eq_true, tests]
  simp only [mem_append, mem_map, or_imp, forall_and, forall_exists_index, and_imp,
    forall_apply_eq_imp_iff₂]
  constructor
  · rintro ⟨hterms, hfields⟩
    refine ⟨hpossible, fun term hterm => hasTerm_normalized_iff.mpr (hterms term hterm), ?_⟩
    exact fun field hfield => carries_iff.mp (hfields field hfield)
  · intro h
    exact ⟨fun term hterm => hasTerm_normalized_iff.mp (h.terms term hterm),
      fun field hfield => carries_iff.mpr (h.fields field hfield)⟩

/-- A query with a matching record looks at the blocks, unless its limit is zero. -/
theorem not_vacuous_of_matches (hlimit : query.limit ≠ some 0)
    (h : query.matches rules record = true) : ¬Vacuous query := by
  rintro (hzero | hrange | himpossible)
  · exact hlimit hzero
  · simp only [LogQuery.matches, Bool.and_eq_true] at h
    obtain ⟨⟨⟨⟨⟨hoffset, htimestamp⟩, _⟩, _⟩, _⟩, _⟩ := h
    rcases Bool.or_eq_true _ _ ▸ hrange with hempty | hempty
    · exact inRange_eq_false hempty _ hoffset
    · exact inRange_eq_false hempty _ htimestamp
  · have hpossible := (satisfiedBy_of_matches h).possible
    rw [himpossible] at hpossible
    cases hpossible

/-- A block that covers a match overlaps the query. -/
theorem blockOverlaps_of_matches (hcovers : block.Covers) (hrecord : record ∈ block.records)
    (h : query.matches rules record = true) :
    blockOverlaps query block.metadata = true := by
  simp only [LogQuery.matches, LogQuery.offsetMatches, LogQuery.timestampMatches,
    Bool.and_eq_true] at h
  obtain ⟨⟨⟨⟨⟨⟨hstart, hstop⟩, hfrom, huntil⟩, _⟩, _⟩, _⟩, _⟩ := h
  obtain ⟨⟨hfirst, hlast⟩, hmin, hmax⟩ := hcovers record hrecord
  simp only [blockOverlaps, Bool.and_eq_true]
  exact ⟨⟨⟨isNoneOr_start_mono hlast hstart, isNoneOr_stop_mono hfirst hstop⟩,
    isNoneOr_start_mono hmax hfrom⟩, isNoneOr_stop_mono hmin huntil⟩

/-- A record that satisfies the constraints is a hit of its block. -/
theorem mem_hits {ordinal : Nat} (hrecord : block.records[ordinal]? = some record)
    (hcandidate : isCandidate tables query record = true) :
    (⟨block.ordinal, ordinal⟩ : QueryHit) ∈ block.hits query :=
  mem_map_of_mem (mem_orient.mpr (mem_accepted.mpr ⟨record, hrecord, hcandidate⟩))

/-- The persistent index loses no match of a query without limit and without
message literals. -/
theorem mem_candidateHits_of_matches (laws : tables.Lawful) (isMatch : LogRegex → Str → Bool)
    (hdirectory : fromBlocks (blocks.map SealedBlock.entry) = .ok directory)
    (hcovers : ∀ block ∈ blocks, block.Covers) (hlimit : query.limit = none)
    (hliterals : query.requiredIndexConstraints.messageLiterals = [])
    {block : SealedBlock tables R} (hblock : block ∈ blocks)
    (hpartition : block.metadata.topicPartition = query.topicPartition) {ordinal : Nat} {record : R}
    (hrecord : block.records[ordinal]? = some record)
    (hmatch : query.matches (.normalized tables isMatch) record = true) :
    (⟨block.ordinal, ordinal⟩ : QueryHit) ∈ directory.candidateHits tables query := by
  have hmerges := fromBlocks_spec laws hdirectory
  have hquery : ¬Vacuous query := not_vacuous_of_matches (by simp [hlimit]) hmatch
  have hsatisfied := satisfiedBy_of_matches hmatch
  have hvisited : block ∈ visitedBlocks query (sortBy SealedBlock.ordinal blocks) := by
    refine List.mem_filter.mpr ⟨mem_blocksOf.mpr ⟨mem_sortBy.mpr hblock, hpartition⟩, ?_⟩
    rw [blockOverlaps_of_matches (hcovers block hblock) (List.mem_of_getElem? hrecord) hmatch,
      hliterals]
    rfl
  have hnone : (if query.canApplyIndexLimit then query.limit else none) = none := by
    rw [hlimit, ite_self]
  rw [candidateHits_eq_truncateTo laws hmerges hquery, hnone]
  exact List.mem_flatMap.mpr ⟨block, mem_orient.mpr hvisited,
    mem_hits hrecord ((isCandidate_iff hsatisfied.possible).mpr hsatisfied)⟩

/-! ## Small directories -/

/-- Metadata of a block of a sample partition. -/
def sampleMetadata (ordinal : BlockOrdinal) (firstOffset lastOffset : LogicalOffset)
    (recordCount : Nat) : QueryBlockMetadata where
  blockOrdinal := ordinal
  topicPartition := ⟨1, 0⟩
  firstOffset := firstOffset
  lastOffset := lastOffset
  minTimestampUnixNanos := 0
  maxTimestampUnixNanos := 9
  recordCount := recordCount

/-- A record whose timestamp is zero. -/
def sampleRecord (offset : LogicalOffset) (message : Str) (fields : List MetadataField) :
    DecodedStructuralRecord :=
  ⟨offset, 0, message, fields⟩

/-- Blocks over given records, with the directory that merges them. -/
theorem exists_sampleDirectory (laws : tables.Lawful)
    (contents : List (QueryBlockMetadata × List DecodedStructuralRecord))
    (hordinals : (contents.map fun content => content.1.blockOrdinal).Nodup)
    (hvalid : ∀ content ∈ contents, content.1.recordCount = content.2.length ∧
      content.2.length < 2 ^ 32 ∧ content.1.firstOffset ≤ content.1.lastOffset ∧
      content.1.minTimestampUnixNanos ≤ content.1.maxTimestampUnixNanos) :
    ∃ (blocks : List (SealedBlock tables DecodedStructuralRecord))
      (directory : PersistentQueryIndex),
      blocks.map (fun block => (block.metadata, block.records)) = contents ∧
        fromBlocks (blocks.map SealedBlock.entry) = .ok directory := by
  have hblocks : ∃ blocks : List (SealedBlock tables DecodedStructuralRecord),
      blocks.map (fun block => (block.metadata, block.records)) = contents := by
    clear hordinals
    induction contents with
    | nil => exact ⟨[], rfl⟩
    | cons content rest ih =>
      obtain ⟨blocks, hblocks⟩ := ih fun later hlater => hvalid later (mem_cons_of_mem _ hlater)
      obtain ⟨index, hindex, _⟩ := exists_build laws (hvalid content mem_cons_self).2.1
        fun record _ => fieldsReadable_decoded record
      exact ⟨⟨content.1, content.2, index, hindex⟩ :: blocks, by rw [map_cons, hblocks]⟩
  obtain ⟨blocks, rfl⟩ := hblocks
  rw [map_map] at hordinals
  refine ⟨blocks, _, rfl, fromBlocks_eq_ok_iff.mpr ⟨?_, forall_mem_map.mpr ?_, rfl⟩⟩
  · apply strictlySorted_sortBy
    rw [map_map]
    exact hordinals
  · intro block hblock
    obtain ⟨hcount, _, hoffsets, htimestamps⟩ := hvalid _ (mem_map_of_mem hblock)
    exact ⟨hcount.trans (build_spec laws block.built).recordCount.symm, hoffsets, htimestamps⟩

/-- A directory over one block. -/
theorem exists_singleBlock (laws : tables.Lawful) (metadata : QueryBlockMetadata)
    (records : List DecodedStructuralRecord)
    (hvalid : metadata.recordCount = records.length ∧ records.length < 2 ^ 32 ∧
      metadata.firstOffset ≤ metadata.lastOffset ∧
      metadata.minTimestampUnixNanos ≤ metadata.maxTimestampUnixNanos) :
    ∃ (block : SealedBlock tables DecodedStructuralRecord) (directory : PersistentQueryIndex),
      block.metadata = metadata ∧ block.records = records ∧
        fromBlocks ([block].map SealedBlock.entry) = .ok directory := by
  obtain ⟨blocks, directory, hcontents, hdirectory⟩ := exists_sampleDirectory laws
    [(metadata, records)] (nodup_singleton _) (by simpa using hvalid)
  obtain ⟨block, rfl⟩ : ∃ block, blocks = [block] := by
    have hlength := congrArg List.length hcontents
    rw [length_map] at hlength
    exact length_eq_one_iff.mp hlength
  rw [map_singleton, cons.injEq, Prod.mk.injEq] at hcontents
  exact ⟨block, directory, hcontents.1.1, hcontents.1.2, hdirectory⟩

/-- Records from offset 6 on with a term and a field. -/
def diskQuery : LogQuery where
  topicPartition := ⟨1, 0⟩
  terms := ["DISK".toList]
  exactFields := [⟨"host".toList, "a".toList⟩]
  startOffset := some 6

/-- A term in another case and a field find the second record of a block. -/
theorem candidateHits_second_record : ∃ (block : SealedBlock latinTables DecodedStructuralRecord)
      (directory : PersistentQueryIndex),
      block.records = [sampleRecord 5 "ready".toList [],
        sampleRecord 7 "disk full".toList [⟨"host".toList, "a".toList⟩]] ∧
      fromBlocks ([block].map SealedBlock.entry) = .ok directory ∧
        (⟨0, 1⟩ : QueryHit) ∈ directory.candidateHits latinTables diskQuery := by
  obtain ⟨block, directory, hmetadata, hrecords, hdirectory⟩ := exists_singleBlock
    latinTables_lawful (sampleMetadata 0 5 7 2) [sampleRecord 5 "ready".toList [],
      sampleRecord 7 "disk full".toList [⟨"host".toList, "a".toList⟩]] (by decide)
  have hordinal : block.ordinal = 0 := by rw [SealedBlock.ordinal, hmetadata]; rfl
  have hcovers : ∀ other ∈ [block], other.Covers := by
    intro other hother
    rw [List.mem_singleton.mp hother, SealedBlock.Covers, hmetadata, hrecords]
    decide
  have hsecond : block.records[1]? =
      some (sampleRecord 7 "disk full".toList [⟨"host".toList, "a".toList⟩]) := by
    rw [hrecords]
    rfl
  have hhit : (⟨block.ordinal, 1⟩ : QueryHit) ∈ directory.candidateHits latinTables diskQuery :=
    mem_candidateHits_of_matches latinTables_lawful (fun _ _ => false) hdirectory hcovers rfl rfl
      List.mem_cons_self (by rw [hmetadata]; rfl) hsecond (by decide +kernel)
  rw [hordinal] at hhit
  exact ⟨block, directory, hrecords, hdirectory, hhit⟩

end ShardLog.Persistent
