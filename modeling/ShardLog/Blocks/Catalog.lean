import ShardLog.Foundation.AssocMap
import ShardLog.Types

/-!
# Blocks - The catalog of sealed blocks

Descriptors of the sealed blocks of a stripe, and the compressed payloads that are
kept until an object tier has taken them over.
-/

namespace ShardLog.Blocks

open ByteReader Utf8 AssocMap

/-! ## Descriptors -/

/-- Compression format of a sealed block. -/
inductive CompressionCodec where
  | zstd
deriving DecidableEq, Repr

/-- Stable identifier of a final compression placement. -/
abbrev CompressionPlacementId := UInt64

/-- Integer compression-locality temperature: the bits of a SimHash. -/
abbrev CompressionTemperature := UInt16

/-- Number of a sealed block. -/
abbrev BlockId := UInt64

/-- Metadata of a sealed block. -/
structure BlockDescriptor where
  blockId : BlockId
  streamShardId : ShardId
  topicPartition : TopicPartition
  sourceCompressionCohort : CompressionCohortId
  placementId : CompressionPlacementId
  dictionaryId : Option DictionaryId
  compressionCodec : CompressionCodec
  compressionLevel : Int
  firstOffset : LogicalOffset
  lastOffset : LogicalOffset
  recordCount : Nat
  sourceBytes : Nat
  structuralBytes : Nat
  storedBytes : Nat
  minTimestampUnixNanos : UInt64
  maxTimestampUnixNanos : UInt64
  compressionTemperature : CompressionTemperature
  compressionShapeHash : UInt64
  compressionTemperatureVarianceQ8 : Nat
  maxCompressionTemperatureDeviation : Nat
  objectKey : Option Str
  objectOffset : Option Nat
deriving DecidableEq, Repr

/-! ## Catalog -/

/-- Directory of the sealed blocks of one stripe. -/
structure BlockCatalog where
  nextBlockId : BlockId := 0
  blocks : List (BlockId × BlockDescriptor) := []
  stagedPayloads : List (BlockId × Bytes) := []
deriving DecidableEq, Repr

namespace BlockCatalog

variable (catalog : BlockCatalog)

def get (blockId : BlockId) : Option BlockDescriptor := AssocMap.get catalog.blocks blockId

def stagedPayload (blockId : BlockId) : Option Bytes := AssocMap.get catalog.stagedPayloads blockId

/-- Enter a block under the next number and keep its payload. -/
def sealBlock (block : BlockDescriptor) (payload : Bytes) : BlockDescriptor × BlockCatalog :=
  let block := { block with
    blockId := catalog.nextBlockId }
  (block,
    { nextBlockId := catalog.nextBlockId + 1
      blocks := insert catalog.blocks catalog.nextBlockId block
      stagedPayloads := insert catalog.stagedPayloads catalog.nextBlockId payload })

/-- Record where the object store holds a block and drop the local payload. -/
def markOffloadedRange (blockId : BlockId) (objectKey : Str) (objectOffset : Nat) :
    LogDbResult BlockCatalog :=
  match catalog.get blockId with
  | none => .error (.unknownBlock blockId)
  | some block =>
    .ok { catalog with
      blocks := insert catalog.blocks blockId
        { block with
          objectKey := some objectKey
          objectOffset := some objectOffset }
      stagedPayloads := erase catalog.stagedPayloads blockId }

/-- Every descriptor stands under its own number. -/
def WellKeyed : Prop := ∀ blockId block, catalog.get blockId = some block → block.blockId = blockId

variable {catalog} {after : BlockCatalog} {blockId : BlockId} {objectKey : Str} {objectOffset : Nat}

/-- A known block can be marked. -/
theorem exists_markOffloadedRange (h : (catalog.get blockId).isSome) (objectKey : Str)
    (objectOffset : Nat) :
    ∃ after, catalog.markOffloadedRange blockId objectKey objectOffset = .ok after := by
  obtain ⟨block, hblock⟩ := Option.isSome_iff_exists.mp h
  rw [markOffloadedRange, hblock]
  exact ⟨_, rfl⟩

section

variable (h : catalog.markOffloadedRange blockId objectKey objectOffset = .ok after)

include h

/-- Only the block itself is changed. -/
theorem get_markOffloadedRange (other : BlockId) :
    after.get other = if other = blockId then (catalog.get other).map fun block =>
      { block with objectKey := some objectKey, objectOffset := some objectOffset }
    else catalog.get other := by
  unfold markOffloadedRange at h
  split at h
  · cases h
  · rename_i block hblock
    cases h
    rw [get, get_insert]
    split
    · rename_i heq
      rw [heq, hblock]
      rfl
    · rfl

/-- Only the payload of the block itself is dropped. -/
theorem stagedPayload_markOffloadedRange (other : BlockId) :
    after.stagedPayload other = if other = blockId then none else catalog.stagedPayload other := by
  unfold markOffloadedRange at h
  split at h
  · cases h
  · cases h
    exact get_erase _ _ _

/-- No block is forgotten. -/
theorem isSome_get_markOffloadedRange {other : BlockId} (hother : (catalog.get other).isSome) :
    (after.get other).isSome := by
  rw [get_markOffloadedRange h]
  split
  · rwa [Option.isSome_map]
  · exact hother

/-- Marking keeps the keys. -/
theorem wellKeyed_markOffloadedRange (hkeyed : catalog.WellKeyed) : after.WellKeyed := by
  intro other found hfound
  rw [get_markOffloadedRange h] at hfound
  split at hfound
  · obtain ⟨block, hblock, rfl⟩ := Option.map_eq_some_iff.mp hfound
    exact hkeyed other block hblock
  · exact hkeyed other found hfound

end

/-- Sealing keeps the keys. -/
theorem wellKeyed_sealBlock (h : catalog.WellKeyed) (block : BlockDescriptor) (payload : Bytes) :
    (catalog.sealBlock block payload).2.WellKeyed := by
  intro blockId found hfound
  rw [sealBlock, get, get_insert] at hfound
  split at hfound
  · rename_i hid
    cases hfound
    exact hid.symm
  · exact h blockId found hfound

end BlockCatalog

end ShardLog.Blocks
