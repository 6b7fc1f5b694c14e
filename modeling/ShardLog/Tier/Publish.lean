import ShardLog.Tier.Offload
import ShardLog.Tier.Store

/-!
# Object tier - Opening a catalog and publishing groups

The programs of a catalog handle.  Everything a publication writes is immutable,
except that its last call swaps `CURRENT`.
-/

namespace ShardLog.Tier

open ByteReader Utf8 Interleave

/-! ## Sources -/

/-- Local file to publish as an artifact; the content is missing if it cannot be read. -/
structure TierArtifactSource where
  kind : TierArtifactKind
  name : Str
  contents : Option Bytes
deriving DecidableEq, Repr

/-- A block group that is to be published. -/
structure TierGroupSource where
  groupSequence : UInt64
  blocks : List TierBlockEntry
  artifacts : List TierArtifactSource
deriving DecidableEq, Repr

def validateSource (source : TierGroupSource) : LogDbResult Unit := do
  ensure (source.blocks ≠ [] ∧ source.artifacts ≠ [])
    (.objectStore "a tier group requires blocks and artifacts")
  ensure (strictlyIncreasing (source.blocks.map TierBlockEntry.blockId) = true)
    (.objectStore "tier group blocks must be strictly increasing")
  let _ ← collect (fun artifact => validateArtifactName artifact.name) source.artifacts
  ensure (hasDuplicateNames TierArtifactSource.kind TierArtifactSource.name source.artifacts =
      false)
    (.objectStore "tier group artifact names must be unique per role")

/-- The bytes that `hash_file` reads. -/
def hashFile (source : TierArtifactSource) : LogDbResult Bytes :=
  okOr (.storageIo "open file for BLAKE3 hashing") source.contents

/-! ## Keys -/

section Keys

variable (shardId : ShardId) (partition : TopicPartition) {groupSequence : UInt64}

def catalogNamespace : Str :=
  "catalog/shard-".toList ++ decimal shardId ++ "/topic-".toList ++
    paddedDigits 16 32 partition.topic ++ "/partition-".toList ++ decimal partition.partition

def currentKey : Str := catalogNamespace shardId partition ++ "/CURRENT".toList

def artifactKey (groupSequence : UInt64) (source : TierArtifactSource) (contentDigest : Str) :
    Str :=
  catalogNamespace shardId partition ++ ("/groups/".toList ++
    (paddedDigits 10 20 groupSequence.toNat ++ "/".toList ++ source.kind.keyName ++ "-".toList ++
      source.name ++ "-".toList ++ contentDigest))

def manifestKey (groupSequence : UInt64) (manifestChecksum : Str) : Str :=
  catalogNamespace shardId partition ++ ("/groups/".toList ++
    (paddedDigits 10 20 groupSequence.toNat ++ "/manifest-".toList ++ manifestChecksum ++
      ".json".toList))

def pageKey (pageSequence : Nat) (pageChecksum : Str) : Str :=
  catalogNamespace shardId partition ++ ("/pages/page-".toList ++
    (paddedDigits 10 20 pageSequence ++ "-".toList ++ pageChecksum ++ ".json".toList))

def rootKey (generation : Nat) (rootChecksum : Str) : Str :=
  catalogNamespace shardId partition ++ ("/roots/root-".toList ++
    (paddedDigits 10 20 generation ++ "-".toList ++ rootChecksum ++ ".json".toList))

variable {shardId partition}

theorem slash_not_mem_toDigits (base value : Nat) : '/' ∉ Nat.toDigits base value := by
  have hchar : ∀ digit, Nat.digitChar digit ≠ '/' := by
    intro digit
    rcases lt_or_ge digit 16 with hlt | hge
    · exact (by decide : ∀ digit < 16, Nat.digitChar digit ≠ '/') digit hlt
    · rw [Nat.digitChar_eq_star.mpr hge]
      decide
  have hcore : ∀ fuel value digits, '/' ∉ digits →
      '/' ∉ Nat.toDigitsCore base fuel value digits := by
    intro fuel
    induction fuel with
    | zero => exact fun _ _ h => h
    | succ fuel ih =>
      intro value digits h
      have hnext : '/' ∉ (value % base).digitChar :: digits := by
        simp [h, (hchar (value % base)).symm]
      rw [Nat.toDigitsCore]
      split
      · exact hnext
      · exact ih _ _ hnext
  exact hcore _ _ _ List.not_mem_nil

theorem slash_not_mem_paddedDigits (base width value : Nat) :
    '/' ∉ paddedDigits base width value := by
  simp [paddedDigits, slash_not_mem_toDigits, List.mem_replicate]

/-- A namespace has three separators. -/
theorem count_slash_catalogNamespace : (catalogNamespace shardId partition).count '/' = 3 := by
  have hcount : ∀ shard topic number : Str, '/' ∉ shard → '/' ∉ topic → '/' ∉ number →
      List.count '/' ("catalog/shard-".toList ++ shard ++ "/topic-".toList ++ topic ++
        "/partition-".toList ++ number) = 3 := by
    intro shard topic number hshard htopic hnumber
    simp [List.count_append, List.count_eq_zero.mpr hshard, List.count_eq_zero.mpr htopic,
      List.count_eq_zero.mpr hnumber]
  exact hcount _ _ _ (slash_not_mem_toDigits 10 shardId) (slash_not_mem_paddedDigits 16 32 _)
    (slash_not_mem_toDigits 10 partition.partition)

/-- An artifact is not the `CURRENT` object of any namespace. -/
theorem artifactKey_ne_currentKey {source : TierArtifactSource} {contentDigest : Str}
    {other : ShardId} {target : TopicPartition} :
    artifactKey shardId partition groupSequence source contentDigest ≠ currentKey other target := by
  intro h
  have hcount := congrArg (List.count '/') h
  simp [artifactKey, currentKey, List.count_append, count_slash_catalogNamespace] at hcount
  omega

/-- Manifests are not `CURRENT`. -/
theorem manifestKey_ne_currentKey {manifestChecksum : Str} :
    manifestKey shardId partition groupSequence manifestChecksum ≠
      currentKey shardId partition := by
  intro h
  simpa using List.append_cancel_left h

/-- Pages are not `CURRENT`. -/
theorem pageKey_ne_currentKey {pageSequence : Nat} {pageChecksum : Str} :
    pageKey shardId partition pageSequence pageChecksum ≠ currentKey shardId partition := by
  intro h
  simpa using List.append_cancel_left h

/-- Roots are not `CURRENT`. -/
theorem rootKey_ne_currentKey {generation : Nat} {rootChecksum : Str} :
    rootKey shardId partition generation rootChecksum ≠ currentKey shardId partition := by
  intro h
  simpa using List.append_cancel_left h

end Keys

/-! ## Calls and checks -/

def putBytesIfAbsent (key : Str) (bytes : Bytes) : StoreScript ObjectMetadata :=
  Script.request (StoreOp.putBytesIfAbsent key bytes)

def putFileIfAbsent (key : Str) (bytes : Bytes) : StoreScript ObjectMetadata :=
  Script.request (StoreOp.putFileIfAbsent key bytes)

def getObject (key : Str) (maxBytes : Nat) : StoreScript Bytes :=
  Script.request (StoreOp.get key maxBytes)

def headObject (key : Str) : StoreScript (Option ObjectMetadata) :=
  Script.request (StoreOp.head key)

def compareAndSwap (key : Str) (expectedVersion : Option Str) (bytes : Bytes) :
    StoreScript ObjectMetadata :=
  Script.request (StoreOp.compareAndSwap key expectedVersion bytes)

/-- A check within a program. -/
def require (condition : Prop) [Decidable condition] (e : LogDbError) : StoreScript Unit :=
  .done (ensure condition e)

def ensureControlSize (bytes limit : Nat) (context : String) : LogDbResult Unit :=
  ensure (bytes ≤ limit)
    (.objectStore s!"{context} exceeds configured control-object limit {limit}")

/-- Catalog handle of a partition. The store, the shard, the partition and the namespace are
parameters of its programs. -/
structure LogObjectTier where
  config : ObjectTierConfig
  root : CatalogRoot
  currentVersion : Option Str
deriving DecidableEq, Repr

section Programs

variable (services : TierServices) (shardId : ShardId) (partition : TopicPartition)

def verifyExpectedObject (bytes : Bytes) (expectedBytes : Nat) (expectedChecksum : Str)
    (context : String) : LogDbResult Unit :=
  ensure (bytes.length = expectedBytes ∧ services.checksumBytes bytes = expectedChecksum)
    (.corruptTier s!"{context} failed length or BLAKE3 verification")

/-! ## Opening -/

/-- The root that the bytes of `CURRENT` select. -/
def loadRoot (config : ObjectTierConfig) (pointerBytes : Bytes) : StoreScript CatalogRoot := do
  let pointer ← services.decodePointer pointerBytes
  pointer.validate
  let rootBytes ← getObject pointer.rootKey config.maxControlObjectBytes
  verifyExpectedObject services rootBytes pointer.rootBytes pointer.rootChecksum "catalog root"
  let root ← services.decodeRoot rootBytes
  root.validate shardId partition
  require (root.generation = pointer.generation)
    (.corruptTier "catalog CURRENT and root generations disagree")
  pure root

/-- `LogObjectTier::open`. -/
def openTier (config : ObjectTierConfig) : StoreScript LogObjectTier := do
  config.validate
  match ← headObject (currentKey shardId partition) with
  | none => pure ⟨config, .empty shardId partition, none⟩
  | some currentMetadata =>
    require (currentMetadata.bytes ≤ pointerReadLimit)
      (.corruptTier "catalog CURRENT pointer exceeds its read limit")
    let pointerBytes ← getObject (currentKey shardId partition) pointerReadLimit
    verifyExpectedObject services pointerBytes currentMetadata.bytes
      currentMetadata.contentDigest "catalog CURRENT"
    let root ← loadRoot services shardId partition config pointerBytes
    pure ⟨config, root, some currentMetadata.versionToken⟩

/-! ## Publishing -/

def loadPage (config : ObjectTierConfig) (reference : CatalogPageRef) :
    StoreScript CatalogPage := do
  reference.validate
  let bytes ← getObject reference.pageKey config.maxControlObjectBytes
  verifyExpectedObject services bytes reference.pageBytes reference.pageChecksum "catalog page"
  let page ← services.decodePage bytes
  page.validate shardId partition config.groupsPerPage
  require (page.pageSequence = reference.pageSequence)
    (.corruptTier "catalog root and page sequences disagree")
  pure page

/-- The catalog's description of an uploaded artifact. -/
def describeArtifact (groupSequence : UInt64) (source : TierArtifactSource) (bytes : Nat)
    (contentDigest objectDigest : Str) : TierArtifact where
  kind := source.kind
  name := source.name
  objectKey := artifactKey shardId partition groupSequence source contentDigest
  bytes := bytes
  checksumAlgorithm := checksumAlgorithm
  checksum := objectDigest

def publishArtifact (groupSequence : UInt64) (source : TierArtifactSource) :
    StoreScript TierArtifact := do
  let bytes ← hashFile source
  let contentDigest := services.checksumBytes bytes
  let stored ← putFileIfAbsent (artifactKey shardId partition groupSequence source contentDigest)
    bytes
  require (stored.bytes = bytes.length ∧ stored.contentDigest = contentDigest)
    (.corruptTier s!"object store changed artifact {String.ofList source.name}")
  pure (describeArtifact shardId partition groupSequence source stored.bytes contentDigest
    stored.contentDigest)

/-- The loop over the artifacts. -/
def publishArtifacts (groupSequence : UInt64) :
    List TierArtifactSource → StoreScript (List TierArtifact)
  | [] => pure []
  | source :: rest => do
      let artifact ← publishArtifact services shardId partition groupSequence source
      let artifacts ← publishArtifacts groupSequence rest
      pure (artifact :: artifacts)

def groupManifest (source : TierGroupSource) (artifacts : List TierArtifact) :
    TierGroupManifest where
  formatVersion := tierFormatVersion
  groupSequence := source.groupSequence
  shardId := shardId
  topicId := decimal partition.topic
  partitionId := partition.partition
  blocks := source.blocks
  artifacts := artifacts

/-- Upload the artifacts and the manifest of a group. -/
def publishManifest (config : ObjectTierConfig) (source : TierGroupSource) :
    StoreScript (TierGroupManifest × CatalogGroupEntry) := do
  validateSource source
  let artifacts ← publishArtifacts services shardId partition source.groupSequence source.artifacts
  let manifest := groupManifest shardId partition source artifacts
  manifest.validate shardId partition config.maxBlocksPerGroup config.maxGroupPayloadBytes
  let manifestBytes := services.encodeManifest manifest
  ensureControlSize manifestBytes.length config.maxControlObjectBytes "group manifest"
  let key := manifestKey shardId partition manifest.groupSequence
    (services.checksumBytes manifestBytes)
  let metadata ← putBytesIfAbsent key manifestBytes
  let entry ← CatalogGroupEntry.fromManifest manifest key metadata
  pure (manifest, entry)

/-- Whether the group is the last one of the root; a group before it is refused. -/
def isRetry (config : ObjectTierConfig) (root : CatalogRoot) (source : TierGroupSource)
    (entry : CatalogGroupEntry) : StoreScript Bool :=
  match root.pages.getLast? with
  | none => pure false
  | some reference => do
      let lastPage ← loadPage services shardId partition config reference
      -- cannot fail: validated catalog pages are nonempty
      let lastGroup ← okOr (.corruptTier "validated catalog pages are nonempty")
        lastPage.groups.getLast?
      if source.groupSequence = lastGroup.groupSequence then
        require (lastGroup = entry)
          (.corruptTier "group sequence was retried with different contents")
        pure true
      else
        require (lastGroup.groupSequence < source.groupSequence)
          (.objectStore "group sequences must be published in increasing order")
        pure false

/-- A page with one group. -/
def singlePage (pageSequence : Nat) (entry : CatalogGroupEntry) : CatalogPage where
  formatVersion := tierFormatVersion
  pageSequence := pageSequence
  shardId := shardId
  topicId := decimal partition.topic
  partitionId := partition.partition
  groups := [entry]

/-- The page that lists the new group, and whether it replaces the last one. -/
def nextPage (config : ObjectTierConfig) (root : CatalogRoot) (entry : CatalogGroupEntry) :
    StoreScript (CatalogPage × Bool) :=
  match root.pages.getLast? with
  | some reference => do
      let last ← loadPage services shardId partition config reference
      if last.groups.length < config.groupsPerPage then
        pure ({ last with groups := last.groups ++ [entry] }, true)
      else
        require (last.pageSequence + 1 < 2 ^ 64) (.objectStore "catalog page sequence exhausted")
        pure (singlePage shardId partition (last.pageSequence + 1) entry, false)
  | none => pure (singlePage shardId partition 0 entry, false)

def publishPage (config : ObjectTierConfig) (page : CatalogPage) :
    StoreScript CatalogPageRef := do
  page.validate shardId partition config.groupsPerPage
  let pageBytes := services.encodePage page
  ensureControlSize pageBytes.length config.maxControlObjectBytes "catalog page"
  let key := pageKey shardId partition page.pageSequence (services.checksumBytes pageBytes)
  let metadata ← putBytesIfAbsent key pageBytes
  CatalogPageRef.fromPage page key metadata

/-- The root after the page was added or replaced. -/
def nextRoot (root : CatalogRoot) (reference : CatalogPageRef) (replaceLast : Bool) :
    CatalogRoot :=
  { root with
    generation := root.generation + 1
    pages := (if replaceLast then root.pages.dropLast else root.pages) ++ [reference] }

/-- Upload a root; the bytes select it once they are the content of `CURRENT`. -/
def publishRoot (config : ObjectTierConfig) (next : CatalogRoot) : StoreScript Bytes := do
  require (next.generation < 2 ^ 64) (.objectStore "catalog generation exhausted")
  next.validate shardId partition
  let rootBytes := services.encodeRoot next
  ensureControlSize rootBytes.length config.maxControlObjectBytes "catalog root"
  let key := rootKey shardId partition next.generation (services.checksumBytes rootBytes)
  let metadata ← putBytesIfAbsent key rootBytes
  let pointerBytes := services.encodePointer
    { formatVersion := tierFormatVersion
      generation := next.generation
      rootKey := key
      rootBytes := metadata.bytes
      rootChecksum := metadata.contentDigest }
  require (pointerBytes.length ≤ pointerReadLimit)
    (.corruptTier "catalog CURRENT pointer exceeds its read limit")
  pure pointerBytes

/-- Everything up to the swap: the manifest and, unless the group is a retry, the next
root with the bytes that select it. -/
def preparePublication (config : ObjectTierConfig) (root : CatalogRoot) (source : TierGroupSource) :
    StoreScript (TierGroupManifest × Option (CatalogRoot × Bytes)) := do
  let (manifest, entry) ← publishManifest services shardId partition config source
  if ← isRetry services shardId partition config root source entry then
    pure (manifest, none)
  else
    let (page, replaceLast) ← nextPage services shardId partition config root entry
    let reference ← publishPage services shardId partition config page
    let next := nextRoot root reference replaceLast
    let pointerBytes ← publishRoot services shardId partition config next
    pure (manifest, some (next, pointerBytes))

/-- The manifest, and the root and version of `CURRENT` that the handle takes over unless the group
was a retry. -/
structure Publication where
  manifest : TierGroupManifest
  advance : Option (CatalogRoot × Str)
deriving DecidableEq, Repr

def publishGroup (tier : LogObjectTier) (source : TierGroupSource) : StoreScript Publication := do
  let (manifest, prepared) ← preparePublication services shardId partition tier.config tier.root
    source
  match prepared with
  | none => pure ⟨manifest, none⟩
  | some (next, pointerBytes) =>
    let currentMetadata ← compareAndSwap (currentKey shardId partition) tier.currentVersion
      pointerBytes
    pure ⟨manifest, some (next, currentMetadata.versionToken)⟩

end Programs

/-- The handle after a publication. -/
def LogObjectTier.finish (tier : LogObjectTier) : LogDbResult Publication → LogObjectTier
  | .ok ⟨_, some (root, version)⟩ => { tier with root := root, currentVersion := some version }
  | .ok ⟨_, none⟩ => tier
  | .error _ => tier

/-! ## Where the programs write -/

/-- The operation writes `CURRENT`. -/
def WritesCurrent (shardId : ShardId) (partition : TopicPartition) (op : StoreOp) : Prop :=
  ¬op.Plain (currentKey shardId partition)

section Writes

variable {services : TierServices} {shardId : ShardId} {partition : TopicPartition}
  {config : ObjectTierConfig} {source : TierGroupSource} {key : Str} {root : CatalogRoot}
  {entry : CatalogGroupEntry}

theorem avoids_getObject {maxBytes : Nat} :
    Avoids (WritesCurrent shardId partition) (getObject key maxBytes) :=
  avoids_request (not_not_intro trivial)

theorem avoids_putBytesIfAbsent {bytes : Bytes} (h : key ≠ currentKey shardId partition) :
    Avoids (WritesCurrent shardId partition) (putBytesIfAbsent key bytes) :=
  avoids_request (not_not_intro h)

theorem avoids_loadPage {reference : CatalogPageRef} : Avoids (WritesCurrent shardId partition)
      (loadPage services shardId partition config reference) :=
  .bind trivial fun _ => .bind avoids_getObject fun _ => .bind trivial fun _ =>
    .bind trivial fun _ => .bind trivial fun _ => .bind trivial fun _ => trivial

/-- Artifacts are written apart from `CURRENT`. -/
theorem avoids_publishArtifacts {groupSequence : UInt64} {sources : List TierArtifactSource} :
    Avoids (WritesCurrent shardId partition)
      (publishArtifacts services shardId partition groupSequence sources) := by
  induction sources with
  | nil => trivial
  | cons source rest ih =>
    refine .bind ?_ fun _ => .bind ih fun _ => trivial
    exact .bind trivial fun _ =>
      .bind (avoids_request (not_not_intro artifactKey_ne_currentKey)) fun _ =>
      .bind trivial fun _ => trivial

/-- So is the manifest. -/
theorem avoids_publishManifest : Avoids (WritesCurrent shardId partition)
      (publishManifest services shardId partition config source) :=
  .bind trivial fun _ => .bind avoids_publishArtifacts fun _ => .bind trivial fun _ =>
    .bind trivial fun _ => .bind (avoids_putBytesIfAbsent manifestKey_ne_currentKey) fun _ =>
    .bind trivial fun _ => trivial

theorem avoids_isRetry : Avoids (WritesCurrent shardId partition)
      (isRetry services shardId partition config root source entry) := by
  unfold isRetry
  split
  · trivial
  · refine .bind avoids_loadPage fun _ => .bind trivial fun _ => ?_
    split
    · exact .bind trivial fun _ => trivial
    · exact .bind trivial fun _ => trivial

theorem avoids_nextPage : Avoids (WritesCurrent shardId partition)
      (nextPage services shardId partition config root entry) := by
  unfold nextPage
  split
  · refine .bind avoids_loadPage fun _ => ?_
    split
    · trivial
    · exact .bind trivial fun _ => trivial
  · trivial

/-- So is everything before the swap. -/
theorem avoids_preparePublication : Avoids (WritesCurrent shardId partition)
      (preparePublication services shardId partition config root source) := by
  refine .bind avoids_publishManifest fun (manifest, entry) =>
    .bind avoids_isRetry fun retried => ?_
  cases retried with
  | true => trivial
  | false =>
    refine .bind avoids_nextPage fun (page, replaceLast) => .bind ?_ fun reference =>
      .bind ?_ fun _ => trivial
    · exact .bind trivial fun _ => .bind trivial fun _ =>
        .bind (avoids_putBytesIfAbsent pageKey_ne_currentKey) fun _ => trivial
    · exact .bind trivial fun _ => .bind trivial fun _ => .bind trivial fun _ =>
        .bind (avoids_putBytesIfAbsent rootKey_ne_currentKey) fun _ => .bind trivial fun _ =>
        trivial

/-- `CURRENT` is written with the last call, and exactly by a publication that returns a
new root. -/
theorem commits_publishGroup {tier : LogObjectTier} :
    Commits (WritesCurrent shardId partition) (fun publication => publication.advance.isSome)
      (publishGroup services shardId partition tier source) := by
  refine .bind avoids_preparePublication fun (manifest, prepared) => ?_
  cases prepared with
  | none =>
    intro publication h
    cases h
    exact Bool.false_ne_true
  | some advance => refine .inr ⟨fun hplain => hplain, fun metadata => ⟨_, rfl, rfl⟩, fun e => rfl⟩

end Writes

end ShardLog.Tier
