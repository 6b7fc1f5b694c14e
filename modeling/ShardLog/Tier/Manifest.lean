import ShardLog.Blocks.Catalog

/-!
# Object tier - Group manifests

A block group is described by an immutable manifest: the extents of its blocks in
the payload pack and the objects that were uploaded for it.
-/

namespace ShardLog.Tier

open ByteReader Utf8 Blocks

/-! ## Text -/

/-- `to_string` of an unsigned number. -/
def decimal (value : Nat) : Str := Nat.toDigits 10 value

/-- `parse` for an unsigned type; a leading plus sign is allowed. -/
def parseUnsigned (bits : Nat) (text : Str) : Option Nat :=
  let digits := if text.head? = some '+' then text.tail else text
  if digits.isEmpty || !digits.all Char.isDigit then none
  else
    let value := digits.foldl (fun value digit => 10 * value + (digit.toNat - '0'.toNat)) 0
    if value < 2 ^ bits then some value else none

def isLowerHexDigit (c : Char) : Bool := c.isDigit || ('a' ≤ c && c ≤ 'f')

/-- Texts of other than ASCII characters are rejected, so bytes and characters agree. -/
def validChecksum (checksum : Str) : Bool :=
  decide (checksum.length = 64) && checksum.all isLowerHexDigit

/-- `split('/')`. -/
def segments : Str → List Str
  | [] => [[]]
  | c :: rest =>
    if c = '/' then [] :: segments rest
    else
      match segments rest with
      | [] => [[c]]
      | first :: more => (c :: first) :: more

/-- The key is relative and stays below the root.  As in the path library, empty
segments and inner dots are skipped. -/
def isSafeKey (key : Str) : Bool :=
  !key.isEmpty && !key.contains '\\' && decide (key.head? ≠ some '/') &&
    (segments key).all (fun segment => decide (segment ≠ ['.', '.'])) &&
    decide ((segments key).head? ≠ some ['.'])

def validateObjectKey (key : Str) : LogDbResult Unit :=
  ensure (isSafeKey key = true) (.objectStore ("unsafe object key " ++ (String.ofList key).quote))

/-! ## Objects -/

/-- Metadata of one object of the store. -/
structure ObjectMetadata where
  bytes : Nat
  versionToken : Str
  contentDigest : Str
deriving DecidableEq, Repr

/-! ## Artifacts -/

/-- Kind of immutable artifact attached to a block group. -/
inductive TierArtifactKind where
  | payloadPack
  | queryIndex
  | dictionary
  | dictionaryCatalog
deriving DecidableEq, Repr

def TierArtifactKind.keyName : TierArtifactKind → Str
  | .payloadPack => "payload".toList
  | .queryIndex => "query-index".toList
  | .dictionary => "dictionary".toList
  | .dictionaryCatalog => "dictionary-catalog".toList

/-- Object metadata of a published artifact. -/
structure TierArtifact where
  kind : TierArtifactKind
  name : Str
  objectKey : Str
  bytes : Nat
  checksumAlgorithm : Str
  checksum : Str
deriving DecidableEq, Repr

def checksumAlgorithm : Str := "blake3".toList

def isArtifactNameChar (c : Char) : Bool := c.isAlphanum || c == '.' || c == '_' || c == '-'

def validateArtifactName (name : Str) : LogDbResult Unit :=
  ensure ((!name.isEmpty && decide (name.length ≤ 128) && name.all isArtifactNameChar) = true)
    (.objectStore "artifact names must be 1..=128 path-free ASCII characters")

def validateArtifact (artifact : TierArtifact) : LogDbResult Unit := do
  validateArtifactName artifact.name
  validateObjectKey artifact.objectKey
  ensure (artifact.bytes ≠ 0 ∧ artifact.checksumAlgorithm = checksumAlgorithm ∧
    validChecksum artifact.checksum = true) (.corruptTier "group artifact metadata is invalid")

/-! ## Block entries -/

/-- Durable metadata of a block and its extent in the payload pack. -/
structure TierBlockEntry where
  blockId : BlockId
  sourceCompressionCohort : CompressionCohortId
  placementId : CompressionPlacementId
  dictionaryId : Option Str
  compressionCodec : Str
  compressionLevel : Int
  firstOffset : UInt64
  lastOffset : UInt64
  recordCount : Nat
  sourceBytes : Nat
  structuralBytes : Nat
  storedBytes : Nat
  minTimestampUnixNanos : UInt64
  maxTimestampUnixNanos : UInt64
  compressionTemperature : CompressionTemperature
  compressionShapeHash : UInt64
  compressionTemperatureVarianceQ8 : Nat
  maxCompressionTemperatureDeviation : Nat
  payloadOffset : Nat
  payloadBytes : Nat
  payloadChecksum : Str
deriving DecidableEq, Repr

namespace TierBlockEntry

def zstdName : Str := "zstd".toList

def fromDescriptor (descriptor : BlockDescriptor) (payloadOffset : Nat) (payloadChecksum : Str) :
    TierBlockEntry where
  blockId := descriptor.blockId
  sourceCompressionCohort := descriptor.sourceCompressionCohort
  placementId := descriptor.placementId
  dictionaryId := descriptor.dictionaryId.map decimal
  compressionCodec := match descriptor.compressionCodec with
    | .zstd => zstdName
  compressionLevel := descriptor.compressionLevel
  firstOffset := descriptor.firstOffset
  lastOffset := descriptor.lastOffset
  recordCount := descriptor.recordCount
  sourceBytes := descriptor.sourceBytes
  structuralBytes := descriptor.structuralBytes
  storedBytes := descriptor.storedBytes
  minTimestampUnixNanos := descriptor.minTimestampUnixNanos
  maxTimestampUnixNanos := descriptor.maxTimestampUnixNanos
  compressionTemperature := descriptor.compressionTemperature
  compressionShapeHash := descriptor.compressionShapeHash
  compressionTemperatureVarianceQ8 := descriptor.compressionTemperatureVarianceQ8
  maxCompressionTemperatureDeviation := descriptor.maxCompressionTemperatureDeviation
  payloadOffset := payloadOffset
  payloadBytes := descriptor.storedBytes
  payloadChecksum := payloadChecksum

/-- What a valid entry satisfies; an extent that overflows also exceeds the pack. -/
def Valid (entry : TierBlockEntry) (payloadBytes : Nat) : Prop :=
  entry.firstOffset ≤ entry.lastOffset ∧
    entry.minTimestampUnixNanos ≤ entry.maxTimestampUnixNanos ∧ entry.recordCount ≠ 0 ∧
    entry.storedBytes ≠ 0 ∧ entry.payloadBytes = entry.storedBytes ∧
    entry.compressionCodec = zstdName ∧ validChecksum entry.payloadChecksum = true ∧
    (entry.payloadOffset + entry.payloadBytes < 2 ^ 64 ∧
      entry.payloadOffset + entry.payloadBytes ≤ payloadBytes) ∧
    entry.dictionaryId.all (fun text => (parseUnsigned 128 text).isSome) = true

instance (entry : TierBlockEntry) (payloadBytes : Nat) : Decidable (entry.Valid payloadBytes) :=
  inferInstanceAs (Decidable (_ ∧ _ ∧ _ ∧ _ ∧ _ ∧ _ ∧ _ ∧ _ ∧ _))

def validate (entry : TierBlockEntry) (payloadBytes : Nat) : LogDbResult Unit :=
  ensure (entry.Valid payloadBytes) (.corruptTier "group contains invalid block metadata")

end TierBlockEntry

/-! ## Manifests -/

def tierFormatVersion : Nat := 1

/-- Immutable manifest of a block group. -/
structure TierGroupManifest where
  formatVersion : Nat
  groupSequence : UInt64
  shardId : Nat
  topicId : Str
  partitionId : Nat
  blocks : List TierBlockEntry
  artifacts : List TierArtifact
deriving DecidableEq, Repr

/-- Two artifacts of one kind have the same name. -/
def hasDuplicateNames {α : Type} (kind : α → TierArtifactKind) (name : α → Str) : List α → Bool
  | [] => false
  | artifact :: rest =>
    (rest.any fun other => decide (kind artifact = kind other) && name artifact == name other) ||
      hasDuplicateNames kind name rest

/-- The loop over the blocks: numbers increase and extents do not overlap. -/
def validateBlocks (payloadBytes : Nat) : Option BlockId → Nat → List TierBlockEntry →
    LogDbResult Unit
  | _, _, [] => .ok ()
  | previousBlock, previousEnd, block :: rest => do
      block.validate payloadBytes
      ensure (previousBlock.all (· < block.blockId) = true ∧ previousEnd ≤ block.payloadOffset)
        (.corruptTier "group blocks are not strictly ordered")
      validateBlocks payloadBytes (some block.blockId) (block.payloadOffset + block.payloadBytes)
        rest

namespace TierGroupManifest

/-- The artifact with a role. -/
def artifact (manifest : TierGroupManifest) (kind : TierArtifactKind) : Option TierArtifact :=
  manifest.artifacts.find? fun artifact => decide (artifact.kind = kind)

def countKind (manifest : TierGroupManifest) (kind : TierArtifactKind) : Nat :=
  manifest.artifacts.countP fun artifact => decide (artifact.kind = kind)

def validate (manifest : TierGroupManifest) (shardId : ShardId) (partition : TopicPartition)
    (maxBlocksPerGroup maxGroupPayloadBytes : Nat) : LogDbResult Unit := do
  ensure (manifest.formatVersion = tierFormatVersion ∧ manifest.shardId = shardId ∧
      manifest.topicId = decimal partition.topic ∧ manifest.partitionId = partition.partition ∧
      manifest.blocks ≠ [] ∧ manifest.blocks.length ≤ maxBlocksPerGroup ∧
      manifest.artifacts ≠ [])
    (.corruptTier "group manifest identity or cardinality is invalid")
  ensure (manifest.countKind .payloadPack = 1 ∧ manifest.countKind .queryIndex = 1)
    (.corruptTier "group requires exactly one payload and one query-index artifact")
  let _ ← collect validateArtifact manifest.artifacts
  ensure (hasDuplicateNames TierArtifact.kind TierArtifact.name manifest.artifacts = false)
    (.corruptTier "group contains duplicate artifact names")
  -- one payload pack was counted
  let payloadBytes := ((manifest.artifact .payloadPack).map TierArtifact.bytes).getD 0
  ensure (payloadBytes ≤ maxGroupPayloadBytes)
    (.corruptTier s!"group payload is {payloadBytes} bytes, exceeding limit {maxGroupPayloadBytes}")
  validateBlocks payloadBytes none 0 manifest.blocks

end TierGroupManifest

/-! ## What validation establishes -/

/-- Valid blocks follow each other in the pack. -/
theorem validateBlocks_eq_ok {payloadBytes : Nat} {blocks : List TierBlockEntry}
    {previousBlock : Option BlockId} {previousEnd : Nat}
    (h : validateBlocks payloadBytes previousBlock previousEnd blocks = .ok ()) :
    (∀ block ∈ blocks, block.Valid payloadBytes) ∧
      (∀ block ∈ blocks, previousBlock.all (· < block.blockId) = true) ∧
      blocks.Pairwise fun left right => left.blockId < right.blockId := by
  induction blocks generalizing previousBlock previousEnd with
  | nil => simp
  | cons block rest ih =>
    obtain ⟨_, hvalid, h⟩ := bind_eq_ok_iff.mp h
    obtain ⟨_, hordered, h⟩ := bind_eq_ok_iff.mp h
    obtain ⟨hrest, hlater, hpairs⟩ := ih h
    have hafter : ∀ other ∈ rest, block.blockId < other.blockId := fun other hother =>
      of_decide_eq_true (hlater other hother)
    refine ⟨List.forall_mem_cons.mpr ⟨ensure_eq_ok_iff.mp hvalid, hrest⟩,
      List.forall_mem_cons.mpr ⟨(ensure_eq_ok_iff.mp hordered).1, fun other hother => ?_⟩,
      List.pairwise_cons.mpr ⟨hafter, hpairs⟩⟩
    cases previousBlock with
    | none => rfl
    | some previous => grind [ensure_eq_ok_iff]

/-- The blocks of a valid manifest have increasing numbers. -/
theorem TierGroupManifest.pairwise_blocks {manifest : TierGroupManifest} {shardId : ShardId}
    {partition : TopicPartition} {maxBlocks maxPayload : Nat}
    (h : manifest.validate shardId partition maxBlocks maxPayload = .ok ()) :
    manifest.blocks.Pairwise fun left right => left.blockId < right.blockId := by
  obtain ⟨_, _, h⟩ := bind_eq_ok_iff.mp h
  obtain ⟨_, _, h⟩ := bind_eq_ok_iff.mp h
  obtain ⟨_, _, h⟩ := bind_eq_ok_iff.mp h
  obtain ⟨_, _, h⟩ := bind_eq_ok_iff.mp h
  obtain ⟨_, _, h⟩ := bind_eq_ok_iff.mp h
  exact (validateBlocks_eq_ok h).2.2

end ShardLog.Tier
