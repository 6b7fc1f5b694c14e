import ShardLog.Tier.Linear

/-!
# Object tier - Offloading loses no payload

A stripe seals blocks, packs their payloads and offloads the packs that were published,
while the object store is shared with other handles.

Main results:

- Theorem `Retained.step`: no step takes the payload of a block away.
- Theorem `sealed_payload_readable`: what was sealed can be read in every later state.
-/

namespace ShardLog.Tier

open ByteReader Utf8 Blocks AssocMap Relation

/-! ## The stripe and the store -/

/-- The payload of a block: the staged one, or the range that the descriptor names. -/
def readBlock (catalog : BlockCatalog) (store : ObjectStore) (blockId : BlockId) : Option Bytes :=
  match catalog.stagedPayload blockId with
  | some payload => some payload
  | none => do
    let descriptor ← catalog.get blockId
    let object ← store.content (← descriptor.objectKey)
    some ((object.drop (← descriptor.objectOffset)).take descriptor.storedBytes)

/-- The catalog of a stripe, the store, and the packs written so far. -/
structure OffloadState where
  catalog : BlockCatalog
  store : ObjectStore
  packs : List (Bytes × List TierBlockEntry)

section System

variable (services : TierServices)

/-- A pack may be offloaded at any time after it was written, once its group is uploaded. -/
inductive OffloadStep (state : OffloadState) : OffloadState → Prop where
  /-- The next number is free: fewer than `2 ^ 64` blocks were sealed. -/
  | seals {block : BlockDescriptor} {payload : Bytes} (hstored : block.storedBytes = payload.length)
      (hlocal : block.objectKey = none)
      (hfree : state.catalog.get state.catalog.nextBlockId = none) :
      OffloadStep state { state with catalog := (state.catalog.sealBlock block payload).2 }
  | packs {blockIds : List BlockId} {pack : Bytes × List TierBlockEntry}
      (hpack : writeStagedPayloadPack services.checksumBytes state.catalog blockIds = .ok pack) :
      OffloadStep state { state with packs := pack :: state.packs }
  /-- Handles of any namespace write to the store; see `SystemHolds.step`. -/
  | grows {shardId : ShardId} {partition : TopicPartition} {store : ObjectStore}
      (hgrows : Grows (currentKey shardId partition) state.store store) :
      OffloadStep state { state with store := store }
  | offloads {shardId : ShardId} {partition : TopicPartition} {config : ObjectTierConfig}
      {source : TierGroupSource} {manifest : TierGroupManifest} {entry : CatalogGroupEntry}
      {pack : Bytes}
      (huploaded : Uploaded services shardId partition config state.store source manifest entry)
      (hpack : (pack, source.blocks) ∈ state.packs)
      (hfile : ∀ artifact ∈ source.artifacts, artifact.kind = .payloadPack →
        artifact.contents = some pack) :
      OffloadStep state { state with catalog := (markGroupOffloaded state.catalog manifest).2 }

/-! ## What holds between steps -/

/-- Where a file has the block, it has the payload with which the block was sealed. -/
def Packs (blockId : BlockId) (payload : Option Bytes) (file : Bytes)
    (entries : List TierBlockEntry) : Prop :=
  ∀ entry ∈ entries, entry.blockId = blockId → ∃ bytes ∈ payload,
    (file.drop entry.payloadOffset).take bytes.length = bytes

/-- What is known of a block, whether it was sealed already or not. -/
structure Retained (blockId : BlockId) (payload : Option Bytes) (state : OffloadState) : Prop where
  keyed : state.catalog.WellKeyed
  stored : (state.catalog.get blockId).map BlockDescriptor.storedBytes = payload.map List.length
  key_ne : ∀ key ∈ (state.catalog.get blockId).bind BlockDescriptor.objectKey,
    ∀ shardId partition, key ≠ currentKey shardId partition
  read : ∀ bytes ∈ payload, readBlock state.catalog state.store blockId = some bytes
  packed : ∀ pack ∈ state.packs, Packs blockId payload pack.1 pack.2

end System

section System

variable {services : TierServices} {before after : OffloadState} {blockId : BlockId} {payload : Option Bytes}

section Steps

variable (h : Retained blockId payload before)

include h

/-- Other blocks do not matter. -/
theorem Retained.congr {catalog : BlockCatalog} (hkeyed : catalog.WellKeyed)
    (hget : catalog.get blockId = before.catalog.get blockId)
    (hstaged : catalog.stagedPayload blockId = before.catalog.stagedPayload blockId) :
    Retained blockId payload { before with catalog := catalog } := by
  obtain ⟨_, hstored, hkey, hread, hpacked⟩ := h
  simp only [readBlock, ← hget, ← hstaged] at hstored hkey hread
  exact ⟨hkeyed, hstored, hkey, hread, hpacked⟩

/-- A block may be marked with a range that has its payload. -/
theorem Retained.markOffloadedRange {other : BlockId} {key : Str} {offset : Nat} {object : Bytes}
    {marked : BlockCatalog}
    (hmark : before.catalog.markOffloadedRange other key offset = .ok marked)
    (hne : ∀ shardId partition, key ≠ currentKey shardId partition) (hobject : before.store.content key = some object)
    (hrange : other = blockId → ∃ bytes ∈ payload,
      (object.drop offset).take bytes.length = bytes) :
    Retained blockId payload { before with catalog := marked } := by
  have hget := BlockCatalog.get_markOffloadedRange hmark blockId
  have hstaged := BlockCatalog.stagedPayload_markOffloadedRange hmark blockId
  have hkeyed := BlockCatalog.wellKeyed_markOffloadedRange hmark h.keyed
  by_cases hid : blockId = other
  · obtain ⟨bytes, rfl, hextent⟩ := hrange hid.symm
    obtain ⟨descriptor, hfound, hlength⟩ := Option.map_eq_some_iff.mp h.stored
    rw [if_pos hid] at hget hstaged
    rw [hfound] at hget
    refine ⟨hkeyed, ?_, ?_, ?_, h.packed⟩
    · simp [hget, hlength]
    · simpa [hget] using hne
    · simp [readBlock, hget, hstaged, hobject, hlength, hextent]
  · exact h.congr hkeyed (hget.trans (if_neg hid)) (hstaged.trans (if_neg hid))

theorem Retained.offloadBlocks {artifact : TierArtifact} {object : Bytes}
    {blocks : List TierBlockEntry} (hne : ∀ shardId partition, artifact.objectKey ≠ currentKey shardId partition)
    (hobject : before.store.content artifact.objectKey = some object)
    (hblocks : Packs blockId payload object blocks) :
    Retained blockId payload
      { before with catalog := (offloadBlocks artifact blocks before.catalog).2 } := by
  induction blocks generalizing before with
  | nil => exact h
  | cons block rest ih =>
    rw [Tier.offloadBlocks]
    split
    · exact h
    · rename_i marked hmark
      obtain ⟨hfirst, hrest⟩ := List.forall_mem_cons.mp hblocks
      exact ih (h.markOffloadedRange hmark hne hobject hfirst) hobject hrest

/-- A sealed block is staged. -/
theorem Retained.sealBlock {block : BlockDescriptor} {bytes : Bytes}
    (hid : blockId = before.catalog.nextBlockId) (hstored : block.storedBytes = bytes.length)
    (hlocal : block.objectKey = none) (hfree : before.catalog.get blockId = none) :
    payload = none ∧ Retained blockId (some bytes)
      { before with catalog := (before.catalog.sealBlock block bytes).2 } := by
  obtain rfl : payload = none := by simpa [hfree] using h.stored.symm
  refine ⟨rfl, BlockCatalog.wellKeyed_sealBlock h.keyed block bytes, ?_, ?_, ?_, ?_⟩
  · simp [BlockCatalog.sealBlock, BlockCatalog.get, hid, hstored]
  · simp [BlockCatalog.sealBlock, BlockCatalog.get, hid, hlocal]
  · simp [readBlock, BlockCatalog.sealBlock, BlockCatalog.stagedPayload, hid]
  · intro pack hpack entry hentry hid
    obtain ⟨_, ⟨⟩, _⟩ := h.packed pack hpack entry hentry hid

/-- No step takes the payload of a block away. -/
theorem Retained.step (hstep : OffloadStep services before after) :
    ∃ sealed, Retained blockId sealed after ∧
      ∀ bytes ∈ payload, bytes ∈ sealed := by
  cases hstep with
  | @seals block bytes hstored hlocal hfree =>
    by_cases hid : blockId = before.catalog.nextBlockId
    · obtain ⟨rfl, hsealed⟩ := h.sealBlock hid hstored hlocal (hid ▸ hfree)
      exact ⟨_, hsealed, nofun⟩
    · exact ⟨payload, h.congr (BlockCatalog.wellKeyed_sealBlock h.keyed block bytes)
        (get_insert_of_ne _ _ hid) (get_insert_of_ne _ _ hid), fun _ => id⟩
  | packs hpack =>
    refine ⟨payload, { h with packed := List.forall_mem_cons.mpr ⟨?_, h.packed⟩ }, fun _ => id⟩
    rintro entry hentry rfl
    obtain ⟨staged, hstaged, ⟨⟨descriptor, hget, _⟩, _⟩, hrange⟩ :=
      writeStagedPayloadPack_spec h.keyed hpack entry hentry
    obtain ⟨bytes, hbytes, _⟩ := Option.map_eq_some_iff.mp (h.stored.symm.trans (by rw [hget]; rfl))
    have hread := h.read bytes hbytes
    rw [readBlock, hstaged] at hread
    cases hread
    exact ⟨staged, hbytes, hrange⟩
  | grows hgrows =>
    refine ⟨payload, { h with read := fun bytes hbytes => ?_ }, fun _ => id⟩
    have hread := h.read bytes hbytes
    cases hstaged : before.catalog.stagedPayload blockId with
    | some staged => simpa [readBlock, hstaged] using hread
    | none =>
      simp only [readBlock, hstaged, Option.bind_eq_bind, Option.bind_eq_some_iff] at hread ⊢
      obtain ⟨descriptor, hget, key, hkey, object, hobject, hrange⟩ := hread
      have hne := h.key_ne key (by simp [hget, hkey])
      exact ⟨descriptor, hget, key, hkey, object, hgrows.content_eq (hne _ _) hobject, hrange⟩
  | offloads huploaded hpack hfile =>
    refine ⟨payload, ?_, fun _ => id⟩
    rw [markGroupOffloaded]
    split
    · exact h
    · rename_i artifact hcheck
      obtain ⟨artifacts, hartifacts, rfl⟩ := huploaded.artifacts
      have hartifact := artifact_of_checkGroup hcheck
      have hkind : artifact.kind = .payloadPack := by simpa using List.find?_some hartifact
      obtain ⟨file, hmem, bytes, hcontents, _, _, hcontent, rfl⟩ :=
        forall₂_mem hartifacts.flip (List.mem_of_find?_eq_some hartifact)
      cases hcontents.symm.trans (hfile file hmem hkind)
      exact h.offloadBlocks (fun _ _ => artifactKey_ne_currentKey) hcontent (h.packed _ hpack)

/-- No run loses a payload. -/
theorem Retained.run (hrun : ReflTransGen (OffloadStep services) before after) :
    ∃ sealed, Retained blockId sealed after ∧
      ∀ bytes ∈ payload, bytes ∈ sealed := by
  induction hrun with
  | refl => exact ⟨payload, h, fun _ => id⟩
  | tail _ hstep ih =>
    obtain ⟨middle, hmiddle, hkept⟩ := ih
    obtain ⟨sealed, hsealed, hkept'⟩ := hmiddle.step hstep
    exact ⟨sealed, hsealed, fun bytes hbytes => hkept' bytes (hkept bytes hbytes)⟩

end Steps

/-- A payload that was sealed can be read in every later state, from the catalog or from
the store. -/
theorem sealed_payload_readable {store : ObjectStore} {block : BlockDescriptor} {payload : Bytes}
    (hbefore : ReflTransGen (OffloadStep services) ⟨{}, store, []⟩ before)
    (hstored : block.storedBytes = payload.length) (hlocal : block.objectKey = none)
    (hfree : before.catalog.get before.catalog.nextBlockId = none)
    (hafter : ReflTransGen (OffloadStep services)
      { before with catalog := (before.catalog.sealBlock block payload).2 } after) :
    readBlock after.catalog after.store before.catalog.nextBlockId = some payload := by
  have hstart : Retained before.catalog.nextBlockId none ⟨{}, store, []⟩ :=
    ⟨nofun, rfl, nofun, nofun, nofun⟩
  obtain ⟨_, hretained, _⟩ := hstart.run hbefore
  obtain ⟨_, hlast, hkept⟩ := (hretained.sealBlock rfl hstored hlocal hfree).2.run hafter
  exact hlast.read payload (hkept payload rfl)

end System

def sampleDescriptor : BlockDescriptor :=
  { stagedDescriptor with
    streamShardId := 0, topicPartition := samplePartition, sourceCompressionCohort := 0
    placementId := 0, compressionLevel := 3, sourceBytes := 1, structuralBytes := 1
    storedBytes := 1, compressionTemperature := 0, compressionShapeHash := 0 }

/-- A block is sealed, packed, published and offloaded; its payload comes from the store. -/
theorem sample_payload_readable :
    let sealed := (BlockCatalog.sealBlock {} sampleDescriptor [0]).2
    ∃ manifest, (markGroupOffloaded sealed manifest).2.stagedPayload 0 = none ∧
      readBlock (markGroupOffloaded sealed manifest).2 sampleAfter.store 0 = some [0] := by
  intro sealed
  have hdropped : sampleRun.1.map (fun publication =>
      (markGroupOffloaded sealed publication.manifest).2.stagedPayload 0) = .ok none := by
    decide +kernel
  have hsystem : SystemHolds toyServices 0 samplePartition sampleAfter :=
    systemHolds_of_reachable (sampleBefore_reachable.run sampleBefore_run)
  cases hdone : sampleRun.1 with
  | error e =>
    rw [hdone] at hdropped
    cases hdropped
  | ok publication =>
    rw [hdone] at hdropped
    have hhandle : sampleAfter.handles 0 =
        .publishing sampleTier sampleSource (.done (.ok publication)) := by
      rw [← hdone]
      rfl
    obtain ⟨entry, huploaded, _⟩ := hsystem.settled hhandle
    generalize sampleAfter.store = store at huploaded ⊢
    have hgrows : Grows (currentKey 0 samplePartition) emptyStore store :=
      ⟨fun _ _ habsent => absurd rfl habsent, List.nil_prefix⟩
    have hpacks : OffloadStep toyServices ⟨sealed, emptyStore, []⟩
        ⟨sealed, emptyStore, [([0], [sampleBlock])]⟩ :=
      @OffloadStep.packs _ ⟨sealed, emptyStore, []⟩ [0] _ rfl
    have hstored := (ReflTransGen.single hpacks).tail (.grows hgrows)
    have hoffloaded := hstored.tail (.offloads huploaded List.mem_cons_self (by decide))
    exact ⟨publication.manifest, Except.ok.inj hdropped,
      @sealed_payload_readable toyServices ⟨{}, emptyStore, []⟩ _ _
        sampleDescriptor [0] .refl rfl rfl rfl hoffloaded⟩

end ShardLog.Tier
