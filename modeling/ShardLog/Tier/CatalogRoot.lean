import ShardLog.Tier.Manifest

/-!
# Object tier - Catalog pages, roots and the CURRENT pointer

The groups of a partition are listed in immutable pages.  An immutable root names the
pages in order, and the small `CURRENT` object names the root that is valid now.
-/

namespace ShardLog.Tier

open ByteReader Utf8

/-! ## Text and options -/

/-- `{:020}` and `{:032x}`. -/
def paddedDigits (base width value : Nat) : Str :=
  let digits := Nat.toDigits base value
  List.replicate (width - digits.length) '0' ++ digits

/-- `ok_or_else`. -/
def okOr {α : Type} (e : LogDbError) : Option α → LogDbResult α
  | some value => .ok value
  | none => .error e

theorem okOr_eq_ok_iff {α : Type} {e : LogDbError} {option : Option α} {value : α} :
    okOr e option = .ok value ↔ option = some value := by
  cases option <;> simp [okOr]

/-! ## Groups -/

/-- Catalog entry of one group manifest. -/
structure CatalogGroupEntry where
  groupSequence : UInt64
  manifestKey : Str
  manifestBytes : Nat
  manifestChecksum : Str
  firstOffset : UInt64
  lastOffset : UInt64
  minTimestampUnixNanos : UInt64
  maxTimestampUnixNanos : UInt64
  blockCount : Nat
  payloadBytes : Nat
deriving DecidableEq, Repr

namespace CatalogGroupEntry

def fromManifest (manifest : TierGroupManifest) (manifestKey : Str) (metadata : ObjectMetadata) :
    LogDbResult CatalogGroupEntry := do
  let firstOffset ← okOr (.corruptTier "group has no block bounds")
    (manifest.blocks.map TierBlockEntry.firstOffset).min?
  let lastOffset ← okOr (.corruptTier "group has no block bounds")
    (manifest.blocks.map TierBlockEntry.lastOffset).max?
  let minTimestampUnixNanos ← okOr (.corruptTier "group has no time bounds")
    (manifest.blocks.map TierBlockEntry.minTimestampUnixNanos).min?
  let maxTimestampUnixNanos ← okOr (.corruptTier "group has no time bounds")
    (manifest.blocks.map TierBlockEntry.maxTimestampUnixNanos).max?
  ensure (manifest.blocks.length < 2 ^ 32) (.corruptTier "group has too many blocks")
  let payloadBytes := (manifest.blocks.map TierBlockEntry.payloadBytes).sum
  -- the partial sums do not decrease, so the total decides whether one of them overflows
  ensure (payloadBytes < 2 ^ 64) (.corruptTier "group payload bytes overflow")
  .ok {
    groupSequence := manifest.groupSequence
    manifestKey := manifestKey
    manifestBytes := metadata.bytes
    manifestChecksum := metadata.contentDigest
    firstOffset := firstOffset
    lastOffset := lastOffset
    minTimestampUnixNanos := minTimestampUnixNanos
    maxTimestampUnixNanos := maxTimestampUnixNanos
    blockCount := manifest.blocks.length
    payloadBytes := payloadBytes }

def validate (entry : CatalogGroupEntry) : LogDbResult Unit := do
  validateObjectKey entry.manifestKey
  ensure (entry.manifestBytes ≠ 0 ∧ validChecksum entry.manifestChecksum = true ∧
      entry.firstOffset ≤ entry.lastOffset ∧
      entry.minTimestampUnixNanos ≤ entry.maxTimestampUnixNanos ∧
      entry.blockCount ≠ 0 ∧ entry.payloadBytes ≠ 0)
    (.corruptTier "catalog contains an invalid group entry")

end CatalogGroupEntry

/-! ## Pages -/

/-- Immutable page of group entries. -/
structure CatalogPage where
  formatVersion : Nat
  pageSequence : Nat
  shardId : Nat
  topicId : Str
  partitionId : Nat
  groups : List CatalogGroupEntry
deriving DecidableEq, Repr

/-- The loop over the groups of a page. -/
def validateGroups : Option UInt64 → List CatalogGroupEntry → LogDbResult Unit
  | _, [] => .ok ()
  | previous, group :: rest => do
      group.validate
      ensure (previous.all (· < group.groupSequence) = true)
        (.corruptTier "catalog group sequences are not increasing")
      validateGroups (some group.groupSequence) rest

namespace CatalogPage

def validate (page : CatalogPage) (shardId : ShardId) (partition : TopicPartition)
    (groupsPerPage : Nat) : LogDbResult Unit := do
  ensure (page.formatVersion = tierFormatVersion ∧ page.shardId = shardId ∧
      page.topicId = decimal partition.topic ∧ page.partitionId = partition.partition ∧
      page.groups ≠ [] ∧ page.groups.length ≤ groupsPerPage)
    (.corruptTier "catalog page identity or cardinality is invalid")
  validateGroups none page.groups

/-- A valid page has groups. -/
theorem groups_ne_nil {page : CatalogPage} {shardId : ShardId} {partition : TopicPartition}
    {groupsPerPage : Nat} (h : page.validate shardId partition groupsPerPage = .ok ()) :
    page.groups ≠ [] := by
  obtain ⟨_, hidentity, _⟩ := bind_eq_ok_iff.mp h
  exact (ensure_eq_ok_iff.mp hidentity).2.2.2.2.1

end CatalogPage

/-- Coarse bounds of a page and the key of its object. -/
structure CatalogPageRef where
  pageSequence : Nat
  pageKey : Str
  pageBytes : Nat
  pageChecksum : Str
  firstGroupSequence : UInt64
  lastGroupSequence : UInt64
  groupCount : Nat
  firstOffset : UInt64
  lastOffset : UInt64
  minTimestampUnixNanos : UInt64
  maxTimestampUnixNanos : UInt64
deriving DecidableEq, Repr

namespace CatalogPageRef

/-- The bounds exist because the page is not empty. -/
def fromPage (page : CatalogPage) (pageKey : Str) (metadata : ObjectMetadata) :
    LogDbResult CatalogPageRef := do
  let first ← okOr (.corruptTier "catalog page is empty") page.groups.head?
  let last ← okOr (.corruptTier "catalog page is empty") page.groups.getLast?
  ensure (page.groups.length < 2 ^ 32) (.corruptTier "catalog page is too large")
  .ok {
    pageSequence := page.pageSequence
    pageKey := pageKey
    pageBytes := metadata.bytes
    pageChecksum := metadata.contentDigest
    firstGroupSequence := first.groupSequence
    lastGroupSequence := last.groupSequence
    groupCount := page.groups.length
    firstOffset := (page.groups.map CatalogGroupEntry.firstOffset).min?.getD 0
    lastOffset := (page.groups.map CatalogGroupEntry.lastOffset).max?.getD 0
    minTimestampUnixNanos := (page.groups.map CatalogGroupEntry.minTimestampUnixNanos).min?.getD 0
    maxTimestampUnixNanos := (page.groups.map CatalogGroupEntry.maxTimestampUnixNanos).max?.getD 0 }

def validate (reference : CatalogPageRef) : LogDbResult Unit := do
  validateObjectKey reference.pageKey
  ensure (reference.pageBytes ≠ 0 ∧ validChecksum reference.pageChecksum = true ∧
      reference.firstGroupSequence ≤ reference.lastGroupSequence ∧ reference.groupCount ≠ 0 ∧
      reference.firstOffset ≤ reference.lastOffset ∧
      reference.minTimestampUnixNanos ≤ reference.maxTimestampUnixNanos)
    (.corruptTier "catalog root contains an invalid page reference")

end CatalogPageRef

/-! ## Roots -/

/-- Immutable catalog root of a partition. -/
structure CatalogRoot where
  formatVersion : Nat
  generation : Nat
  shardId : Nat
  topicId : Str
  partitionId : Nat
  pages : List CatalogPageRef
deriving DecidableEq, Repr

/-- The loop over the pages of a root. -/
def validatePages : Option Nat → Option UInt64 → List CatalogPageRef → LogDbResult Unit
  | _, _, [] => .ok ()
  | previousPage, previousGroup, page :: rest => do
      page.validate
      ensure (previousPage.all (· < page.pageSequence) = true ∧
          previousGroup.all (· < page.firstGroupSequence) = true)
        (.corruptTier "catalog root pages are not strictly increasing")
      validatePages (some page.pageSequence) (some page.lastGroupSequence) rest

namespace CatalogRoot

/-- The root of a partition without published groups. -/
def empty (shardId : ShardId) (partition : TopicPartition) : CatalogRoot where
  formatVersion := tierFormatVersion
  generation := 0
  shardId := shardId
  topicId := decimal partition.topic
  partitionId := partition.partition
  pages := []

def validate (root : CatalogRoot) (shardId : ShardId) (partition : TopicPartition) :
    LogDbResult Unit := do
  ensure (root.formatVersion = tierFormatVersion ∧ root.shardId = shardId ∧
      root.topicId = decimal partition.topic ∧ root.partitionId = partition.partition)
    (.corruptTier "catalog root belongs to a different namespace")
  validatePages none none root.pages

end CatalogRoot

/-- Valid pages are valid one by one. -/
theorem validate_of_validatePages {references : List CatalogPageRef} {previousPage : Option Nat}
    {previousGroup : Option UInt64}
    (h : validatePages previousPage previousGroup references = .ok ()) :
    ∀ reference ∈ references, reference.validate = .ok () := by
  induction references generalizing previousPage previousGroup with
  | nil => simp
  | cons first rest ih =>
    obtain ⟨_, hfirst, h⟩ := bind_eq_ok_iff.mp h
    obtain ⟨_, _, h⟩ := bind_eq_ok_iff.mp h
    exact List.forall_mem_cons.mpr ⟨hfirst, ih h⟩

/-! ## CURRENT -/

/-- The small mutable object that selects the root. -/
structure CatalogPointer where
  formatVersion : Nat
  generation : Nat
  rootKey : Str
  rootBytes : Nat
  rootChecksum : Str
deriving DecidableEq, Repr

def CatalogPointer.validate (pointer : CatalogPointer) : LogDbResult Unit := do
  validateObjectKey pointer.rootKey
  ensure (pointer.formatVersion = tierFormatVersion ∧ pointer.rootBytes ≠ 0 ∧
      validChecksum pointer.rootChecksum = true)
    (.corruptTier "catalog CURRENT pointer is invalid")

/-! ## Configuration -/

def pointerReadLimit : Nat := 64 * 1024

/-- Limits of the tier; the preferred group size is read only by its validation. -/
structure ObjectTierConfig where
  targetGroupPayloadBytes : Nat := 1024 * 1024 * 1024
  maxGroupPayloadBytes : Nat := 2 * 1024 * 1024 * 1024
  maxBlocksPerGroup : Nat := 4096
  groupsPerPage : Nat := 1024
  maxControlObjectBytes : Nat := 64 * 1024 * 1024
deriving DecidableEq, Repr

def ObjectTierConfig.validate (config : ObjectTierConfig) : LogDbResult Unit := do
  ensure (config.targetGroupPayloadBytes ≠ 0 ∧
      config.targetGroupPayloadBytes ≤ config.maxGroupPayloadBytes)
    (.invalidConfig "object tier group payload limits are invalid")
  ensure (config.maxBlocksPerGroup ≠ 0)
    (.invalidConfig "object tier max_blocks_per_group must be nonzero")
  ensure (config.groupsPerPage ≠ 0) (.invalidConfig "object tier groups_per_page must be nonzero")
  ensure (pointerReadLimit ≤ config.maxControlObjectBytes)
    (.invalidConfig "object tier control-object limit must be at least 64 KiB")

/-! ## Third-party functions -/

/-- The digest, the version tokens, which may depend on how often the object was written, and JSON,
which is read back as written. -/
structure TierServices where
  checksumBytes : Bytes → Str
  versionToken : Nat → Bytes → Str
  encodeManifest : TierGroupManifest → Bytes
  encodePage : CatalogPage → Bytes
  decodePage : Bytes → LogDbResult CatalogPage
  decodePage_encodePage : ∀ page, decodePage (encodePage page) = .ok page
  encodeRoot : CatalogRoot → Bytes
  decodeRoot : Bytes → LogDbResult CatalogRoot
  decodeRoot_encodeRoot : ∀ root, decodeRoot (encodeRoot root) = .ok root
  encodePointer : CatalogPointer → Bytes
  decodePointer : Bytes → LogDbResult CatalogPointer
  decodePointer_encodePointer : ∀ pointer, decodePointer (encodePointer pointer) = .ok pointer

end ShardLog.Tier
