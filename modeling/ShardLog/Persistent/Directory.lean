import Mathlib.Order.WithBot
import ShardLog.Persistent.BlockIndex
import ShardLog.Query.Select

/-!
# Persistent index - The directory of sealed blocks

Metadata, trigram filters and merged postings of a set of blocks, and the three
queries of the directory: candidate records, candidate blocks, and the candidate
records of one block.
-/

namespace ShardLog.Persistent

open List hiding isEmpty_iff

open ByteReader Utf8 AssocMap Sorted Merge

/-! ## Data -/

/-- Stable ordinal of a block in the pack manifest, a `u32`. -/
abbrev BlockOrdinal := Fin (2 ^ 32)

/-- Offset and timestamp bounds for one independently compressed block. -/
structure QueryBlockMetadata where
  blockOrdinal : BlockOrdinal
  topicPartition : TopicPartition
  firstOffset : LogicalOffset
  lastOffset : LogicalOffset
  minTimestampUnixNanos : UInt64
  maxTimestampUnixNanos : UInt64
  recordCount : Nat
deriving DecidableEq, Repr

/-- Exact location of a candidate record inside a sealed block. -/
structure QueryHit where
  blockOrdinal : BlockOrdinal
  recordOrdinal : Nat
deriving DecidableEq, Repr

/-- The postings of one key in one block. -/
structure BlockPosting where
  blockOrdinal : BlockOrdinal
  recordOrdinals : PostingList
deriving DecidableEq, Repr

/-- Immutable query directory. It has a trigram filter for each block; nested maps are maps from
pairs. -/
structure PersistentQueryIndex where
  blocks : List QueryBlockMetadata := []
  messageTrigrams : List MessageTrigramFilter := []
  messageTrigramUnion : MessageTrigramFilter := .new
  messageTrigramIntersection : MessageTrigramFilter := .new
  partitionBlocks : List (TopicPartition × List BlockOrdinal) := []
  termPostings : List ((TopicPartition × Str) × List BlockPosting) := []
  fieldPostings : List ((TopicPartition × (Str × Str)) × List BlockPosting) := []

/-! ## Building -/

/-- The posting lists of one block under the keys of its partition. -/
def blockEntries {κ : Type} (metadata : QueryBlockMetadata) (postings : List (κ × PostingList)) :
    List ((TopicPartition × κ) × BlockPosting) :=
  postings.map fun entry => ((metadata.topicPartition, entry.1), ⟨metadata.blockOrdinal, entry.2⟩)

/-- Append entries to the lists of their keys. -/
def appendEntries {κ ν : Type} [DecidableEq κ] (groups : List (κ × List ν))
    (entries : List (κ × ν)) : List (κ × List ν) :=
  entries.foldl (fun groups entry => update groups entry.1 [] (· ++ [entry.2])) groups

/-- The metadata agrees with the index and its ranges are in order. -/
def QueryBlockMetadata.Valid (metadata : QueryBlockMetadata) (index : BlockQueryIndex) : Prop :=
  metadata.recordCount = index.recordCount ∧ metadata.firstOffset ≤ metadata.lastOffset ∧
    metadata.minTimestampUnixNanos ≤ metadata.maxTimestampUnixNanos

instance (metadata : QueryBlockMetadata) (index : BlockQueryIndex) :
    Decidable (metadata.Valid index) :=
  inferInstanceAs (Decidable (_ ∧ _ ∧ _))

namespace PersistentQueryIndex

/-- Enter one block. -/
def addBlock (directory : PersistentQueryIndex) (block : QueryBlockMetadata × BlockQueryIndex) :
    LogDbResult PersistentQueryIndex := do
  ensure (block.1.Valid block.2) (.invalidBlockEncoding "invalid query block metadata")
  .ok { directory with
    blocks := directory.blocks ++ [block.1]
    messageTrigrams := directory.messageTrigrams ++ [block.2.messageTrigrams]
    partitionBlocks := appendEntries directory.partitionBlocks
      [(block.1.topicPartition, block.1.blockOrdinal)]
    termPostings := appendEntries directory.termPostings (blockEntries block.1 block.2.termPostings)
    fieldPostings := appendEntries directory.fieldPostings
      (blockEntries block.1 block.2.fieldPostings) }

/-- `windows(2).any(|pair| pair[0] == pair[1])`, negated. -/
def noRepeats : List BlockOrdinal → Bool
  | first :: second :: rest => decide (first ≠ second) && noRepeats (second :: rest)
  | _ => true

def fromBlocks (blocks : List (QueryBlockMetadata × BlockQueryIndex)) :
    LogDbResult PersistentQueryIndex := do
  let blocks := sortBy (fun block => block.1.blockOrdinal) blocks
  ensure (noRepeats (blocks.map fun block => block.1.blockOrdinal) = true)
    (.invalidBlockEncoding "duplicate query block ordinal")
  let directory ← blocks.foldlM addBlock {}
  let aggregates := aggregateMessageTrigrams directory.messageTrigrams
  .ok { directory with
    messageTrigramUnion := aggregates.1
    messageTrigramIntersection := aggregates.2 }

/-! ## Lookups -/

/-- Position of a block in the directory. -/
def position (directory : PersistentQueryIndex) (ordinal : BlockOrdinal) : Option Nat :=
  findBy QueryBlockMetadata.blockOrdinal directory.blocks ordinal

def block (directory : PersistentQueryIndex) (ordinal : BlockOrdinal) : Option QueryBlockMetadata :=
  (directory.position ordinal).bind fun position => directory.blocks[position]?

/-- The filter of a block reports every required slot. -/
def messageMightMatch (directory : PersistentQueryIndex) (ordinal : BlockOrdinal)
    (requiredSlots : List Nat) : Bool :=
  match directory.position ordinal with
  | none => false
  | some position =>
    directory.messageTrigrams[position]?.any fun filter => filter.mightContainAll requiredSlots

/-- The slots left to check in each block; none if no block can have them all. -/
def prepareRequiredMessageTrigrams (tables : UnicodeTables) (directory : PersistentQueryIndex)
    (literals : List Str) : Option (List Nat) :=
  let slots := requiredMessageTrigramSlots tables literals
  if directory.messageTrigramUnion.mightContainAll slots then
    some (slots.filter fun slot => !directory.messageTrigramIntersection.mightContainAll [slot])
  else none

end PersistentQueryIndex

open PersistentQueryIndex

/-- The ranges of the block and of the query meet. -/
def blockOverlaps (query : LogQuery) (metadata : QueryBlockMetadata) : Bool :=
  isNoneOr query.startOffset (fun start => decide (start ≤ metadata.lastOffset)) &&
    isNoneOr query.endOffset (fun stop => decide (metadata.firstOffset < stop)) &&
    isNoneOr query.startTimestampUnixNanos
      (fun start => decide (start ≤ metadata.maxTimestampUnixNanos)) &&
    isNoneOr query.endTimestampUnixNanos
      (fun stop => decide (metadata.minTimestampUnixNanos < stop))

def postingForBlock (postings : List BlockPosting) (ordinal : BlockOrdinal) : Option PostingList :=
  (findBy BlockPosting.blockOrdinal postings ordinal).bind fun position =>
    postings[position]?.map BlockPosting.recordOrdinals

def intersectBlockOrdinals (candidates : List BlockOrdinal) (postings : List BlockPosting) :
    List BlockOrdinal :=
  mergeIntersect BlockPosting.blockOrdinal candidates postings

/-- Look every key up; none as soon as one is missing. -/
def lookupAll {κ ν : Type} (lookup : κ → Option ν) : List κ → Option (List ν)
  | [] => some []
  | key :: rest => (lookup key).bind fun value => (lookupAll lookup rest).map (value :: ·)

/-! ## Candidate records and blocks -/

namespace PersistentQueryIndex

variable (tables : UnicodeTables) (directory : PersistentQueryIndex) (query : LogQuery)

/-- The merged postings of the required terms and fields, in order. -/
def constraints (required : RequiredIndexConstraints) : Option (List (List BlockPosting)) :=
  (lookupAll (fun term =>
      get directory.termPostings (query.topicPartition, normalizeTerm tables term))
    required.terms).bind fun terms =>
    (lookupAll (fun field => get directory.fieldPostings (query.topicPartition, field))
      required.fields).map fun fields => terms ++ fields

/-- Blocks with every required key, by ordinal. The early exit of the source only saves
intersections. -/
def commonBlocks (constraints : List (List BlockPosting)) : List BlockOrdinal :=
  match sortBy List.length constraints with
  | [] => (get directory.partitionBlocks query.topicPartition).getD []
  | first :: rest => rest.foldl intersectBlockOrdinals (first.map BlockPosting.blockOrdinal)

/-- The common blocks that overlap the query and pass the trigram filter. -/
def retainedBlocks (constraints : List (List BlockPosting)) (slots : List Nat) :
    List BlockOrdinal :=
  (directory.commonBlocks query constraints).filter fun ordinal =>
    (directory.block ordinal).any (blockOverlaps query) && directory.messageMightMatch ordinal slots

/-- What a query asks of the indexes: the slots to check and the postings to
intersect; none if nothing can match. -/
def plan : Option (List Nat × List (List BlockPosting)) :=
  if query.limit = some 0 ∨ query.hasInvalidRange = true then none
  else if query.requiredIndexConstraints.impossible then none
  else
    (directory.prepareRequiredMessageTrigrams tables
      query.requiredIndexConstraints.messageLiterals).bind fun slots =>
      (directory.constraints tables query query.requiredIndexConstraints).map fun constraints =>
        (slots, constraints)

/-- `usize::MAX`. -/
def usizeMax : Nat := 2 ^ 64 - 1

/-- The limit that may cut the candidates. -/
def safeLimit : Nat :=
  if query.canApplyIndexLimit then query.limit.getD usizeMax else usizeMax

/-- The posting lists of a block under every constraint; none of them if the block
lacks one. -/
def recordConstraints (constraints : List (List BlockPosting)) (ordinal : BlockOrdinal) :
    List PostingList :=
  (lookupAll (fun postings => postingForBlock postings ordinal)
    (sortBy List.length constraints)).getD []

/-- The ordinals common to posting lists, from the end at which the query starts. -/
def intersectRecords (newestFirst : Bool) (remaining : Nat) : List PostingList → List Nat
  | [] => []
  | [only] => only.takeOrdered newestFirst remaining
  | postings =>
    match sortBy PostingList.cardinality postings with
    | [] => []
    | first :: rest =>
      if min (remaining * 8) usizeMax < first.cardinality then
        intersectPostingsLimited first rest newestFirst remaining
      else
        (orient newestFirst (rest.foldl intersectPosting first.toVec)).take remaining

/-- Candidate records of one block, at most as many as remain. -/
def hitsOfBlock (constraints : List (List BlockPosting)) (ordinal : BlockOrdinal)
    (remaining : Nat) : List QueryHit :=
  match directory.block ordinal with
  | none => []
  | some metadata =>
    let newestFirst := decide (query.order = .newestFirst)
    let ordinals :=
      if constraints.isEmpty then
        (orient newestFirst (List.range metadata.recordCount)).take remaining
      else intersectRecords newestFirst remaining (recordConstraints constraints ordinal)
    ordinals.map fun recordOrdinal => ⟨ordinal, recordOrdinal⟩

/-- Candidate records of a query. -/
def candidateHits : List QueryHit :=
  match directory.plan tables query with
  | none => []
  | some (slots, constraints) =>
    gatherLimited (directory.hitsOfBlock query constraints) (safeLimit query)
      (orient (decide (query.order = .newestFirst))
        (directory.retainedBlocks query constraints slots)) []

/-- Lowest offset of a block; as in the source, below all offsets if there is no
such block. -/
def firstOffsetOf (ordinal : BlockOrdinal) : WithBot Nat :=
  (directory.block ordinal).map fun metadata => metadata.firstOffset.toNat

/-- Candidate blocks of a query by first offset. -/
def candidateBlocks : List BlockOrdinal :=
  match directory.plan tables query with
  | none => []
  | some (slots, constraints) =>
    orient (decide (query.order = .newestFirst))
      (sortBy directory.firstOffsetOf (directory.retainedBlocks query constraints slots))

/-- The posting lists of one block under the required terms and fields. -/
def blockConstraints (required : RequiredIndexConstraints) (ordinal : BlockOrdinal) :
    Option (List PostingList) :=
  (lookupAll (fun term =>
      (get directory.termPostings (query.topicPartition, normalizeTerm tables term)).bind
        fun postings => postingForBlock postings ordinal)
    required.terms).bind fun terms =>
    (lookupAll (fun field => (get directory.fieldPostings (query.topicPartition, field)).bind
          fun postings => postingForBlock postings ordinal)
      required.fields).map fun fields => terms ++ fields

/-- Candidate records of one selected block, whatever the limit. -/
def candidateHitsInBlock (ordinal : BlockOrdinal) : List QueryHit :=
  if query.limit = some 0 ∨ query.hasInvalidRange = true then []
  else
    match directory.block ordinal with
    | none => []
    | some metadata =>
      if metadata.topicPartition ≠ query.topicPartition ∨ blockOverlaps query metadata = false then
        []
      else if query.requiredIndexConstraints.impossible then []
      else
        match directory.prepareRequiredMessageTrigrams tables
            query.requiredIndexConstraints.messageLiterals with
        | none => []
        | some slots =>
          if directory.messageMightMatch ordinal slots then
            match directory.blockConstraints tables query query.requiredIndexConstraints
                ordinal with
            | none => []
            | some constraints =>
              let ordinals :=
                match sortBy PostingList.cardinality constraints with
                | [] => List.range metadata.recordCount
                | first :: rest => rest.foldl intersectPosting first.toVec
              (orient (decide (query.order = .newestFirst)) ordinals).map
                fun recordOrdinal => ⟨ordinal, recordOrdinal⟩
          else []

end PersistentQueryIndex

/-! ## What the building loop enters -/

section Entries

/-- A block on its way into a directory. -/
abbrev BlockEntry := QueryBlockMetadata × BlockQueryIndex

/-- The maps after some blocks were entered. -/
def directoryOf (entries : List BlockEntry) : PersistentQueryIndex where
  blocks := entries.map Prod.fst
  messageTrigrams := entries.map fun entry => entry.2.messageTrigrams
  partitionBlocks := groupBy (entries.map fun entry =>
    (entry.1.topicPartition, entry.1.blockOrdinal))
  termPostings := groupBy (entries.flatMap fun entry => blockEntries entry.1 entry.2.termPostings)
  fieldPostings := groupBy (entries.flatMap fun entry => blockEntries entry.1 entry.2.fieldPostings)

/-- The aggregates of the filters are taken at the end. -/
def withAggregates (directory : PersistentQueryIndex) : PersistentQueryIndex :=
  { directory with
    messageTrigramUnion := (aggregateMessageTrigrams directory.messageTrigrams).1
    messageTrigramIntersection := (aggregateMessageTrigrams directory.messageTrigrams).2 }

/-- Merging groups further entries. -/
theorem appendEntries_groupBy {κ ν : Type} [DecidableEq κ] (entries more : List (κ × ν)) :
    appendEntries (groupBy entries) more = groupBy (entries ++ more) := by
  rw [appendEntries, groupBy, groupBy, foldl_append]

variable {entries : List BlockEntry} {directory : PersistentQueryIndex}

/-- Entering a valid block extends the maps by it. -/
theorem addBlock_directoryOf_eq_ok_iff {entry : BlockEntry} :
    (directoryOf entries).addBlock entry = .ok directory ↔
      entry.1.Valid entry.2 ∧ directory = directoryOf (entries ++ [entry]) := by
  have hgrown : { directoryOf entries with
      blocks := (directoryOf entries).blocks ++ [entry.1]
      messageTrigrams := (directoryOf entries).messageTrigrams ++ [entry.2.messageTrigrams]
      partitionBlocks := appendEntries (directoryOf entries).partitionBlocks
        [(entry.1.topicPartition, entry.1.blockOrdinal)]
      termPostings := appendEntries (directoryOf entries).termPostings
        (blockEntries entry.1 entry.2.termPostings)
      fieldPostings := appendEntries (directoryOf entries).fieldPostings
        (blockEntries entry.1 entry.2.fieldPostings) } =
      directoryOf (entries ++ [entry]) := by
    simp only [directoryOf, appendEntries_groupBy, map_append, map_singleton,
      flatMap_append, flatMap_singleton]
  unfold addBlock
  rw [hgrown]
  simp only [bind_eq_ok_iff, ensure_eq_ok_iff, Except.ok.injEq]
  constructor
  · rintro ⟨_, hvalid, rfl⟩
    exact ⟨hvalid, rfl⟩
  · rintro ⟨hvalid, rfl⟩
    exact ⟨(), hvalid, rfl⟩

/-- The loop enters every block. -/
theorem foldlM_addBlock {rest : List BlockEntry} :
    ∀ {entries : List BlockEntry} {directory : PersistentQueryIndex},
      rest.foldlM addBlock (directoryOf entries) = .ok directory ↔
      (∀ entry ∈ rest, entry.1.Valid entry.2) ∧ directory = directoryOf (entries ++ rest) := by
  induction rest with
  | nil => grind [pure_eq_ok]
  | cons entry rest ih => grind [bind_eq_ok_iff, addBlock_directoryOf_eq_ok_iff]

/-- Sorted ordinals without repeats increase. -/
theorem pairwise_lt_of_noRepeats {ordinals : List BlockOrdinal}
    (hsorted : ordinals.Pairwise (· ≤ ·)) :
    noRepeats ordinals = true ↔ ordinals.Pairwise (· < ·) := by
  induction ordinals using noRepeats.induct with
  | case1 first second rest ih =>
    obtain ⟨hfirst, hrest⟩ := pairwise_cons.mp hsorted
    rw [noRepeats, Bool.and_eq_true, decide_eq_true_eq, ih hrest,
      pairwise_cons_cons_iff_of_trans, (hfirst second mem_cons_self).lt_iff_ne]
  | case2 ordinals hshort =>
    match ordinals, hshort with
    | [], _ => simp [noRepeats]
    | [_], _ => simp [noRepeats]
    | first :: second :: rest, hshort => exact absurd rfl (hshort first second rest)

/-- Blocks can be merged exactly if their ordinals are distinct and their metadata is valid; they
are entered by ordinal. -/
theorem fromBlocks_eq_ok_iff :
    fromBlocks entries = .ok directory ↔ StrictlySorted (fun entry => entry.1.blockOrdinal)
          (sortBy (fun entry => entry.1.blockOrdinal) entries) ∧
        (∀ entry ∈ entries, entry.1.Valid entry.2) ∧
        directory =
          withAggregates (directoryOf (sortBy (fun entry => entry.1.blockOrdinal) entries)) := by
  have hordered := pairwise_sortBy (fun entry : BlockEntry => entry.1.blockOrdinal) entries
  have hstart : directoryOf [] = {} := rfl
  unfold fromBlocks
  rw [← hstart]
  simp only [bind_eq_ok_iff, ensure_eq_ok_iff, foldlM_addBlock, nil_append, mem_sortBy]
  rw [← pairwise_map] at hordered
  rw [pairwise_lt_of_noRepeats hordered, pairwise_map]
  constructor
  · rintro ⟨_, hstrict, _, ⟨hvalid, rfl⟩, h⟩
    exact ⟨hstrict, hvalid, (Except.ok.inj h).symm⟩
  · rintro ⟨hstrict, hvalid, rfl⟩
    exact ⟨(), hstrict, _, ⟨hvalid, rfl⟩, rfl⟩

theorem valuesOf_append {κ ν : Type} [DecidableEq κ] (pairs more : List (κ × ν)) (key : κ) :
    valuesOf (pairs ++ more) key = valuesOf pairs key ++ valuesOf more key := by
  rw [valuesOf, filter_append, map_append, valuesOf, valuesOf]

/-- The entries of one block under a key of a partition. -/
theorem valuesOf_blockEntries {κ : Type} [DecidableEq κ] (metadata : QueryBlockMetadata)
    {postings : List (κ × PostingList)} (hnodup : (postings.map Prod.fst).Nodup)
    (partition : TopicPartition) (key : κ) :
    valuesOf (blockEntries metadata postings) (partition, key) =
      if metadata.topicPartition = partition then
        ((get postings key).map (BlockPosting.mk metadata.blockOrdinal)).toList
      else [] := by
  induction postings with
  | nil => simp [blockEntries, valuesOf]
  | cons entry rest ih =>
    obtain ⟨other, posting⟩ := entry
    obtain ⟨hnew, hrest⟩ := nodup_cons.mp (show (other :: rest.map Prod.fst).Nodup from hnodup)
    have hcons : valuesOf (blockEntries metadata ((other, posting) :: rest)) (partition, key) =
        (if (metadata.topicPartition, other) = (partition, key) then
          [BlockPosting.mk metadata.blockOrdinal posting] else []) ++
          valuesOf (blockEntries metadata rest) (partition, key) := by
      rw [blockEntries, map_cons, ← singleton_append, valuesOf_append]
      congr 1
      by_cases hkey : (metadata.topicPartition, other) = (partition, key)
      · simp [valuesOf, hkey]
      · simp only [valuesOf, filter_cons, hkey, decide_false, Bool.false_eq_true, if_false,
          filter_nil, map_nil]
    rw [hcons, ih hrest]
    by_cases hpartition : metadata.topicPartition = partition
    · by_cases hkey : other = key
      · have hnone : get rest key = none := by
          cases hget : get rest key with
          | none => rfl
          | some value => exact absurd (mem_map_of_mem (mem_of_get hget)) (hkey ▸ hnew)
        simp [hpartition, hkey, AssocMap.get, hnone]
      · simp [hpartition, hkey, AssocMap.get]
    · simp [hpartition]

/-- A list of postings is listed only when there are any. -/
def listed {α : Type} (items : List α) : Option (List α) := if items.isEmpty then none else some items

/-- The postings of a key in the entries of a partition. -/
def entryColumn {κ : Type} [DecidableEq κ] (postings : BlockQueryIndex → List (κ × PostingList))
    (entries : List BlockEntry) (partition : TopicPartition)
    (key : κ) : List BlockPosting :=
  entries.filterMap fun entry =>
    if entry.1.topicPartition = partition then
      (get (postings entry.2) key).map (BlockPosting.mk entry.1.blockOrdinal)
    else none

/-- The loop collects the column of every key. -/
theorem valuesOf_flatMap_blockEntries {κ : Type} [DecidableEq κ]
    {postings : BlockQueryIndex → List (κ × PostingList)}
    (hnodup : ∀ entry ∈ entries, ((postings entry.2).map Prod.fst).Nodup)
    (partition : TopicPartition) (key : κ) :
    valuesOf (entries.flatMap fun entry => blockEntries entry.1 (postings entry.2))
      (partition, key) = entryColumn postings entries partition key := by
  induction entries with
  | nil => rfl
  | cons entry rest ih =>
    have hrest := ih fun other hother => hnodup other (mem_cons_of_mem _ hother)
    rw [flatMap_cons, valuesOf_append, hrest,
      valuesOf_blockEntries entry.1 (hnodup entry mem_cons_self), entryColumn, entryColumn]
    by_cases hpartition : entry.1.topicPartition = partition
    · grind
    · simp [hpartition]

/-- The merged postings of a key are the column of the key. -/
theorem get_groupBy_blockEntries {κ : Type} [DecidableEq κ]
    {postings : BlockQueryIndex → List (κ × PostingList)}
    (hnodup : ∀ entry ∈ entries, ((postings entry.2).map Prod.fst).Nodup)
    (partition : TopicPartition) (key : κ) :
    get (groupBy (entries.flatMap fun entry => blockEntries entry.1 (postings entry.2)))
      (partition, key) = listed (entryColumn postings entries partition key) := by
  rw [get_groupBy, valuesOf_flatMap_blockEntries hnodup, listed]
  simp only [List.isEmpty_iff]

/-- A partition lists its blocks. -/
theorem get_groupBy_partitions (entries : List BlockEntry) (partition : TopicPartition) :
    get (groupBy (entries.map fun entry => (entry.1.topicPartition, entry.1.blockOrdinal)))
      partition =
        listed ((entries.filter fun entry => decide (entry.1.topicPartition = partition)).map
          fun entry => entry.1.blockOrdinal) := by
  have hvalues : valuesOf (entries.map fun entry =>
      (entry.1.topicPartition, entry.1.blockOrdinal)) partition =
        (entries.filter fun entry => decide (entry.1.topicPartition = partition)).map
          fun entry => entry.1.blockOrdinal := by
    rw [valuesOf, filter_map, map_map]
    rfl
  rw [get_groupBy, hvalues, listed]
  simp only [List.isEmpty_iff]

end Entries

/-! ## Sealed blocks and their directory -/

section Sealed

variable {tables : UnicodeTables} {R : Type} [StructuralRecordView R]

/-- A block with the index built from its records. -/
structure SealedBlock (tables : UnicodeTables) (R : Type) [StructuralRecordView R] where
  metadata : QueryBlockMetadata
  records : List R
  index : BlockQueryIndex
  built : BlockQueryIndex.build tables records = .ok index

def SealedBlock.ordinal (block : SealedBlock tables R) : BlockOrdinal := block.metadata.blockOrdinal

/-- What the directory is built from. -/
def SealedBlock.entry (block : SealedBlock tables R) : BlockEntry :=
  (block.metadata, block.index)

/-- The blocks of one partition. -/
def blocksOf (partition : TopicPartition) (blocks : List (SealedBlock tables R)) :
    List (SealedBlock tables R) :=
  blocks.filter fun block => decide (block.metadata.topicPartition = partition)

end Sealed

end ShardLog.Persistent
