import ShardLog.Tier.Manifest

/-!
# Object tier - Offloading published groups

Staged payloads are concatenated into a payload pack and, once their group is
published, dropped from the local catalog.

Main results:

- Theorem `offloadsDescribed_iff`: when a payload that is dropped is the one the
  manifest describes.
-/

namespace ShardLog.Tier

open ByteReader Utf8 Blocks

/-! ## Payload packs -/

section Pack

variable (checksumBytes : Bytes → Str)

/-- Append blocks to a pack.  The pack is what the file holds at the end. -/
def packBlocks (catalog : BlockCatalog) (first : BlockDescriptor) :
    List BlockId → Nat → LogDbResult (Bytes × List TierBlockEntry)
  | [], _ => .ok ([], [])
  | blockId :: rest, offset =>
    match catalog.get blockId with
    | none => .error (.unknownBlock blockId)
    | some descriptor => do
        ensure (descriptor.streamShardId = first.streamShardId ∧
            descriptor.topicPartition = first.topicPartition)
          (.objectStore "one payload pack cannot cross a shard or logical partition")
        match catalog.stagedPayload blockId with
        | none => .error (.missingStagedPayload blockId)
        | some payload => do
            ensure (payload.length = descriptor.storedBytes)
              (.corruptTier s!"staged block {blockId} length differs from its descriptor")
            ensure (offset + descriptor.storedBytes < 2 ^ 64)
              (.objectStore "payload-pack length overflow")
            let (pack, entries) ← packBlocks catalog first rest (offset + descriptor.storedBytes)
            .ok (payload ++ pack,
              .fromDescriptor descriptor offset (checksumBytes payload) :: entries)

/-- `windows(2).any(|pair| pair[0] >= pair[1])`, negated. -/
def strictlyIncreasing : List BlockId → Bool
  | first :: second :: rest => decide (first < second) && strictlyIncreasing (second :: rest)
  | _ => true

/-- The pack and the entries of its blocks; failures of the file system are not
modelled. -/
def writeStagedPayloadPack (catalog : BlockCatalog) (blockIds : List BlockId) :
    LogDbResult (Bytes × List TierBlockEntry) :=
  match blockIds with
  | [] => .error (.objectStore "a payload pack requires at least one block")
  | first :: rest => do
      ensure (strictlyIncreasing (first :: rest) = true)
        (.objectStore "payload-pack block IDs must be strictly increasing")
      match catalog.get first with
      | none => .error (.unknownBlock first)
      | some descriptor => packBlocks checksumBytes catalog descriptor (first :: rest) 0

end Pack

/-! ## Marking a group -/

/-- The checks of one block of a published group. -/
def checkOffload (catalog : BlockCatalog) (manifest : TierGroupManifest) (payload : TierArtifact)
    (block : TierBlockEntry) : LogDbResult Unit :=
  match catalog.get block.blockId with
  | none => .error (.unknownBlock block.blockId)
  | some descriptor => do
      ensure (block.payloadOffset + descriptor.storedBytes < 2 ^ 64)
        (.corruptTier "payload range overflow")
      ensure (block.payloadOffset + descriptor.storedBytes ≤ payload.bytes)
        (.corruptTier ("block " ++ toString block.blockId ++ " exceeds payload artifact length"))
      ensure (descriptor.streamShardId = manifest.shardId ∧
          decimal descriptor.topicPartition.topic = manifest.topicId ∧
          descriptor.topicPartition.partition = manifest.partitionId)
        (.corruptTier
          ("block " ++ toString block.blockId ++ " belongs to another catalog namespace"))

/-- The loop over all blocks that precedes any change. -/
def checkGroup (catalog : BlockCatalog) (manifest : TierGroupManifest) : LogDbResult TierArtifact :=
  match manifest.artifact .payloadPack with
  | none => .error (.corruptTier "group has no payload artifact")
  | some payload => do
      let _ ← collect (checkOffload catalog manifest payload) manifest.blocks
      .ok payload

/-- The loop that changes the catalog; an error leaves the blocks before it changed. -/
def offloadBlocks (payload : TierArtifact) :
    List TierBlockEntry → BlockCatalog → LogDbResult Unit × BlockCatalog
  | [], catalog => (.ok (), catalog)
  | block :: rest, catalog =>
    match catalog.markOffloadedRange block.blockId payload.objectKey block.payloadOffset with
    | .error e => (.error e, catalog)
    | .ok after => offloadBlocks payload rest after

/-- The result and the catalog after the call. -/
def markGroupOffloaded (catalog : BlockCatalog) (manifest : TierGroupManifest) :
    LogDbResult Unit × BlockCatalog :=
  match checkGroup catalog manifest with
  | .error e => (.error e, catalog)
  | .ok payload => offloadBlocks payload manifest.blocks catalog

/-! ## What the calls do -/

section Facts

variable {catalog : BlockCatalog} {manifest : TierGroupManifest} {payload : TierArtifact}

/-- Known blocks are all marked, and exactly their payloads are dropped. -/
theorem offloadBlocks_of_known {blocks : List TierBlockEntry} {catalog : BlockCatalog}
    (hknown : ∀ block ∈ blocks, (catalog.get block.blockId).isSome) :
    ∃ after, offloadBlocks payload blocks catalog = (.ok (), after) ∧
      ∀ blockId, after.stagedPayload blockId =
        if blockId ∈ blocks.map TierBlockEntry.blockId then none
        else catalog.stagedPayload blockId := by
  induction blocks generalizing catalog with
  | nil => exact ⟨catalog, rfl, by simp⟩
  | cons block rest ih =>
    obtain ⟨marked, hmarked⟩ := BlockCatalog.exists_markOffloadedRange
      (hknown block List.mem_cons_self) payload.objectKey block.payloadOffset
    obtain ⟨after, hafter, hstaged⟩ := @ih marked fun other hother =>
      BlockCatalog.isSome_get_markOffloadedRange hmarked
        (hknown other (List.mem_cons_of_mem _ hother))
    refine ⟨after, by rw [offloadBlocks, hmarked]; exact hafter, fun blockId => ?_⟩
    rw [hstaged, BlockCatalog.stagedPayload_markOffloadedRange hmarked, List.map_cons]
    by_cases hrest : blockId ∈ rest.map TierBlockEntry.blockId
    · simp [hrest]
    · grind

/-- The checked payload is the pack of the group. -/
theorem artifact_of_checkGroup (h : checkGroup catalog manifest = .ok payload) :
    manifest.artifact .payloadPack = some payload := by
  unfold checkGroup at h
  split at h
  · cases h
  · obtain ⟨_, _, h⟩ := bind_eq_ok_iff.mp h
    cases h
    assumption

/-- All blocks are in the catalog. -/
theorem isSome_get_of_checkGroup (h : checkGroup catalog manifest = .ok payload) :
    ∀ block ∈ manifest.blocks, (catalog.get block.blockId).isSome := by
  unfold checkGroup at h
  split at h
  · cases h
  · obtain ⟨results, hresults, _⟩ := bind_eq_ok_iff.mp h
    intro block hblock
    obtain ⟨_, _, hchecked⟩ := forall₂_mem (collect_eq_ok_iff.mp hresults) hblock
    unfold checkOffload at hchecked
    split at hchecked
    · cases hchecked
    · rename_i descriptor hget
      rw [hget]
      rfl

/-- The transition is checked before any block changes: an error leaves the catalog alone, otherwise
exactly the payloads of the group are dropped. -/
theorem markGroupOffloaded_eq (catalog : BlockCatalog) (manifest : TierGroupManifest) :
    (∃ e, checkGroup catalog manifest = .error e ∧
      markGroupOffloaded catalog manifest = (.error e, catalog)) ∨
    ∃ payload after, checkGroup catalog manifest = .ok payload ∧
      markGroupOffloaded catalog manifest = (.ok (), after) ∧
      ∀ blockId, after.stagedPayload blockId =
        if blockId ∈ manifest.blocks.map TierBlockEntry.blockId then none
        else catalog.stagedPayload blockId := by
  cases hcheck : checkGroup catalog manifest with
  | error e =>
    left
    exact ⟨e, rfl, by rw [markGroupOffloaded, hcheck]⟩
  | ok payload =>
    right
    obtain ⟨after, hafter, hstaged⟩ :=
      @offloadBlocks_of_known payload _ _ (isSome_get_of_checkGroup hcheck)
    exact ⟨payload, after, rfl, by rw [markGroupOffloaded, hcheck]; exact hafter, hstaged⟩

end Facts

/-! ## Payloads that are dropped -/

section Described

variable (checksumBytes : Bytes → Str) {blockIds : List BlockId} {pack : Bytes}
  {entries : List TierBlockEntry}

/-- A payload was held before and is no longer. -/
def Releases (before after : BlockCatalog) (blockId : BlockId) (payload : Bytes) : Prop :=
  before.stagedPayload blockId = some payload ∧ after.stagedPayload blockId = none

/-- The manifest entry of a block gives the length and the checksum of a payload. -/
def Describes (catalog : BlockCatalog) (block : TierBlockEntry) (payload : Bytes) : Prop :=
  (∃ descriptor, catalog.get block.blockId = some descriptor ∧
    block.payloadBytes = descriptor.storedBytes) ∧
    block.payloadChecksum = checksumBytes payload

/-- An error leaves the catalog as it was, and a success drops only payloads that the
manifest describes. -/
def OffloadsDescribed (catalog : BlockCatalog) (manifest : TierGroupManifest) : Prop :=
  match markGroupOffloaded catalog manifest with
  | (.error _, after) => after = catalog
  | (.ok (), after) => ∀ blockId payload, Releases catalog after blockId payload →
      ∃ block ∈ manifest.blocks, block.blockId = blockId ∧
        Describes checksumBytes catalog block payload

/-- Every staged payload with an entry in the manifest is the described one. -/
def DescribesStaged (catalog : BlockCatalog) (manifest : TierGroupManifest) : Prop :=
  ∀ block ∈ manifest.blocks, ∀ payload, catalog.stagedPayload block.blockId = some payload →
    Describes checksumBytes catalog block payload

variable {checksumBytes} {catalog : BlockCatalog} {manifest : TierGroupManifest}

/-- Numbers of the blocks of a valid manifest name one entry. -/
theorem eq_of_blockId_eq {blocks : List TierBlockEntry}
    (hpairs : blocks.Pairwise fun left right => left.blockId < right.blockId)
    {left right : TierBlockEntry} (hleft : left ∈ blocks) (hright : right ∈ blocks)
    (hsame : left.blockId = right.blockId) : left = right := by
  have hnodup : (blocks.map TierBlockEntry.blockId).Nodup := by
    rw [List.Nodup, List.pairwise_map]
    exact hpairs.imp UInt64.ne_of_lt
  exact List.inj_on_of_nodup_map hnodup hleft hright hsame

/-- Length and checksum of a staged payload are not compared with the manifest, so a dropped payload
is the described one exactly if another check refuses the group or the two agree beforehand. -/
theorem offloadsDescribed_iff {shardId : ShardId} {partition : TopicPartition}
    {maxBlocks maxPayload : Nat}
    (hvalid : manifest.validate shardId partition maxBlocks maxPayload = .ok ()) :
    OffloadsDescribed checksumBytes catalog manifest ↔
      (∃ e, checkGroup catalog manifest = .error e) ∨
        DescribesStaged checksumBytes catalog manifest := by
  unfold OffloadsDescribed
  rcases markGroupOffloaded_eq catalog manifest with
    ⟨e, hcheck, hmark⟩ | ⟨payload, after, hcheck, hmark, hstaged⟩
  · rw [hmark, hcheck]
    simp
  · rw [hmark, hcheck]
    simp only [reduceCtorEq, exists_false, false_or]
    constructor
    · intro hdescribed block hblock staged hget
      have hgone : after.stagedPayload block.blockId = none := by
        rw [hstaged, if_pos (List.mem_map_of_mem hblock)]
      obtain ⟨other, hother, hsame, hdescribes⟩ := hdescribed block.blockId staged ⟨hget, hgone⟩
      rwa [eq_of_blockId_eq (manifest.pairwise_blocks hvalid) hother hblock hsame] at hdescribes
    · rintro hdescribed blockId staged ⟨hget, hgone⟩
      rw [hstaged] at hgone
      split at hgone
      · rename_i hmem
        obtain ⟨block, hblock, rfl⟩ := List.mem_map.mp hmem
        exact ⟨block, hblock, rfl, hdescribed block hblock staged hget⟩
      · rw [hget] at hgone
        cases hgone

/-- Every extent of a pack is a staged payload, and its entry describes it.  What is in the
file already stays in front of the blocks that are left. -/
theorem packBlocks_spec (hkeyed : catalog.WellKeyed) {first : BlockDescriptor} (written : Bytes)
    (h : packBlocks checksumBytes catalog first blockIds written.length = .ok (pack, entries)) :
    ∀ entry ∈ entries, ∃ payload, catalog.stagedPayload entry.blockId = some payload ∧
      Describes checksumBytes catalog entry payload ∧
      ((written ++ pack).drop entry.payloadOffset).take payload.length = payload := by
  induction blockIds generalizing written pack entries with
  | nil =>
    cases h
    simp
  | cons blockId rest ih =>
    rw [packBlocks] at h
    split at h
    · cases h
    · rename_i descriptor hdescriptor
      obtain ⟨_, _, h⟩ := bind_eq_ok_iff.mp h
      split at h
      · cases h
      · rename_i payload hpayload
        simp only [bind_eq_ok_iff, ensure_eq_ok_iff] at h
        obtain ⟨_, hlength, _, _, ⟨pack', entries'⟩, hrest, h⟩ := h
        cases h
        obtain rfl : descriptor.blockId = blockId := hkeyed blockId descriptor hdescriptor
        rw [← hlength, ← List.length_append] at hrest
        have hpacked := ih _ hrest
        rw [List.append_assoc] at hpacked
        refine List.forall_mem_cons.mpr ⟨⟨payload, hpayload, ?_, ?_⟩, hpacked⟩
        · exact ⟨⟨descriptor, hdescriptor, rfl⟩, rfl⟩
        · simp [TierBlockEntry.fromDescriptor]

/-- Entries describe staged payloads. -/
theorem writeStagedPayloadPack_spec (hkeyed : catalog.WellKeyed)
    (h : writeStagedPayloadPack checksumBytes catalog blockIds = .ok (pack, entries)) :
    ∀ entry ∈ entries, ∃ payload, catalog.stagedPayload entry.blockId = some payload ∧
      Describes checksumBytes catalog entry payload ∧
      (pack.drop entry.payloadOffset).take payload.length = payload := by
  unfold writeStagedPayloadPack at h
  split at h
  · cases h
  · obtain ⟨_, _, h⟩ := bind_eq_ok_iff.mp h
    split at h
    · cases h
    · exact packBlocks_spec hkeyed [] h

end Described

/-! ## A stale manifest -/

/-- A stand-in for the checksum. -/
def toyChecksum (bytes : Bytes) : Str :=
  List.replicate 63 '0' ++ [Nat.digitChar ((bytes.map UInt8.toNat).sum % 16)]

def stagedDescriptor : BlockDescriptor where
  blockId := 0
  streamShardId := 8
  topicPartition := ⟨91, 3⟩
  sourceCompressionCohort := 4
  placementId := 5
  dictionaryId := none
  compressionCodec := .zstd
  compressionLevel := 1
  firstOffset := 0
  lastOffset := 0
  recordCount := 1
  sourceBytes := 20
  structuralBytes := 12
  storedBytes := 4
  minTimestampUnixNanos := 0
  maxTimestampUnixNanos := 0
  compressionTemperature := 7
  compressionShapeHash := 8
  compressionTemperatureVarianceQ8 := 0
  maxCompressionTemperatureDeviation := 0
  objectKey := none
  objectOffset := none

/-- A catalog with one staged block. -/
def stagedCatalog : BlockCatalog := (BlockCatalog.sealBlock {} stagedDescriptor [1, 2, 3, 4]).2

/-- A published group whose only block has the number of the staged one. -/
def groupOf (payloadChecksum : Str) : TierGroupManifest where
  formatVersion := 1
  groupSequence := 0
  shardId := 8
  topicId := "91".toList
  partitionId := 3
  blocks := [.fromDescriptor stagedDescriptor 0 payloadChecksum]
  artifacts :=
    [⟨.payloadPack, "blocks.pack".toList, "groups/0/payload".toList, 4, checksumAlgorithm,
        payloadChecksum⟩,
      ⟨.queryIndex, "query.index".toList, "groups/0/index".toList, 5, checksumAlgorithm,
        payloadChecksum⟩]

/-- A valid manifest of another payload of the same length releases the staged one. -/
theorem stale_group_releases_payload :
    (groupOf (toyChecksum [9, 9, 9, 9])).validate 8 ⟨91, 3⟩ 4096 (2 ^ 31) = .ok () ∧
      Releases stagedCatalog
        (markGroupOffloaded stagedCatalog (groupOf (toyChecksum [9, 9, 9, 9]))).2 0 [1, 2, 3, 4] ∧
      ¬OffloadsDescribed toyChecksum stagedCatalog (groupOf (toyChecksum [9, 9, 9, 9])) := by
  have hmark : markGroupOffloaded stagedCatalog (groupOf (toyChecksum [9, 9, 9, 9])) =
      (.ok (), (markGroupOffloaded stagedCatalog (groupOf (toyChecksum [9, 9, 9, 9]))).2) := by
    decide +kernel
  have hreleased : Releases stagedCatalog
      (markGroupOffloaded stagedCatalog (groupOf (toyChecksum [9, 9, 9, 9]))).2 0 [1, 2, 3, 4] :=
    ⟨by decide +kernel, by decide +kernel⟩
  refine ⟨by decide +kernel, hreleased, fun hdescribed => ?_⟩
  obtain ⟨block, hblock, _, _, hchecksum⟩ := hdescribed 0 [1, 2, 3, 4] hreleased
  rw [List.mem_singleton.mp hblock] at hchecksum
  exact absurd hchecksum (by decide +kernel)

/-- The manifest of the staged payload releases only what it describes. -/
theorem described_group_offloads :
    OffloadsDescribed toyChecksum stagedCatalog (groupOf (toyChecksum [1, 2, 3, 4])) := by
  have hvalid : (groupOf (toyChecksum [1, 2, 3, 4])).validate 8 ⟨91, 3⟩ 4096 (2 ^ 31) = .ok () := by
    decide +kernel
  refine (offloadsDescribed_iff hvalid).mpr (.inr ?_)
  intro block hblock payload hpayload
  rw [List.mem_singleton.mp hblock] at hpayload ⊢
  cases hpayload
  exact ⟨⟨_, rfl, rfl⟩, rfl⟩

end ShardLog.Tier
