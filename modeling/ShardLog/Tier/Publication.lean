import ShardLog.Tier.Publish

/-!
# Object tier - What a publication ensures

What the objects of the store say, and what the programs of a handle ensure about them
while other handles use the store.
-/

namespace ShardLog.Tier

open ByteReader Utf8 Interleave CatalogGroupEntry List

section Meaning

variable (services : TierServices) (shardId : ShardId) (partition : TopicPartition)

/-! ## The groups of a root -/

/-- The object of a page reference. -/
structure PageAt (store : ObjectStore) (reference : CatalogPageRef) (page : CatalogPage) :
    Prop where
  key_ne : reference.pageKey ≠ currentKey shardId partition
  content_eq : store.content reference.pageKey = some (services.encodePage page)

/-- The groups listed by the pages of a root. -/
structure RootHolds (store : ObjectStore) (root : CatalogRoot)
    (groups : List CatalogGroupEntry) : Prop where
  pages : ∃ pages, List.Forall₂ (PageAt services shardId partition store) root.pages pages ∧
    groups = pages.flatMap CatalogPage.groups
  ordered : groups.Pairwise fun left right => left.groupSequence < right.groupSequence

/-- The bytes are a pointer to a root that lists the groups. -/
def Denotes (store : ObjectStore) (bytes : Bytes) (root : CatalogRoot)
    (groups : List CatalogGroupEntry) : Prop :=
  ∃ pointer : CatalogPointer, bytes = services.encodePointer pointer ∧
    pointer.rootKey ≠ currentKey shardId partition ∧
    store.content pointer.rootKey = some (services.encodeRoot root) ∧
    RootHolds services shardId partition store root groups

/-- Read the pages of a root one after the other. -/
def readPages (store : ObjectStore) : List CatalogPageRef → Option (List CatalogGroupEntry)
  | [] => some []
  | reference :: rest => do
      let bytes ← store.content reference.pageKey
      let page ← (services.decodePage bytes).toOption
      let groups ← readPages store rest
      some (page.groups ++ groups)

/-- The groups that can be reached from a content of `CURRENT`. -/
def selectedGroups (store : ObjectStore) (bytes : Bytes) : Option (List CatalogGroupEntry) := do
  let pointer ← (services.decodePointer bytes).toOption
  let rootBytes ← store.content pointer.rootKey
  let root ← (services.decodeRoot rootBytes).toOption
  readPages services store root.pages

/-- The groups that can be reached from `CURRENT`. -/
def currentGroups (store : ObjectStore) : Option (List CatalogGroupEntry) :=
  match store.content (currentKey shardId partition) with
  | none => some []
  | some bytes => selectedGroups services store bytes

/-! ## Uploaded groups -/

/-- An artifact and its object. -/
def ArtifactStored (store : ObjectStore) (groupSequence : UInt64) (source : TierArtifactSource)
    (artifact : TierArtifact) : Prop :=
  ∃ bytes, source.contents = some bytes ∧ bytes ≠ [] ∧
    validateObjectKey (artifactKey shardId partition groupSequence source
      (services.checksumBytes bytes)) = .ok () ∧
    store.content (artifactKey shardId partition groupSequence source
      (services.checksumBytes bytes)) = some bytes ∧
    artifact = describeArtifact shardId partition groupSequence source bytes.length
      (services.checksumBytes bytes) (services.checksumBytes bytes)

/-- The key under which a manifest is stored. -/
def keyOfManifest (manifest : TierGroupManifest) : Str :=
  manifestKey shardId partition manifest.groupSequence
    (services.checksumBytes (services.encodeManifest manifest))

/-- The store has the artifacts and the manifest of a group, and the entry names them. -/
structure Uploaded (config : ObjectTierConfig) (store : ObjectStore) (source : TierGroupSource)
    (manifest : TierGroupManifest) (entry : CatalogGroupEntry) : Prop where
  source_valid : validateSource source = .ok ()
  artifacts : ∃ artifacts, List.Forall₂
    (ArtifactStored services shardId partition store source.groupSequence) source.artifacts
      artifacts ∧ manifest = groupManifest shardId partition source artifacts
  manifest_valid : manifest.validate shardId partition config.maxBlocksPerGroup
    config.maxGroupPayloadBytes = .ok ()
  length_le : (services.encodeManifest manifest).length ≤ config.maxControlObjectBytes
  key_valid : validateObjectKey (keyOfManifest services shardId partition manifest) = .ok ()
  content_eq : store.content (keyOfManifest services shardId partition manifest) =
    some (services.encodeManifest manifest)
  entry_eq : ∀ version, fromManifest manifest (keyOfManifest services shardId partition manifest)
    (objectMetadata services version (services.encodeManifest manifest)) = .ok entry

/-- The page of a reference passes every check when it is loaded. -/
structure Loadable (config : ObjectTierConfig) (store : ObjectStore)
    (reference : CatalogPageRef) (page : CatalogPage) : Prop where
  at_key : PageAt services shardId partition store reference page
  key_valid : validateObjectKey reference.pageKey = .ok ()
  length_le : (services.encodePage page).length ≤ config.maxControlObjectBytes
  bytes_eq : (services.encodePage page).length = reference.pageBytes
  checksum_eq : services.checksumBytes (services.encodePage page) = reference.pageChecksum
  page_valid : page.validate shardId partition config.groupsPerPage = .ok ()
  sequence_eq : page.pageSequence = reference.pageSequence

/-- The group is the last one of the root. -/
def EndsWith (config : ObjectTierConfig) (store : ObjectStore) (root : CatalogRoot)
    (entry : CatalogGroupEntry) : Prop :=
  ∃ reference page, root.pages.getLast? = some reference ∧ reference.validate = .ok () ∧
    Loadable services shardId partition config store reference page ∧
    page.groups.getLast? = some entry

/-! ## Handles and the discipline of the store -/

/-- The handle stands for a version of `CURRENT`, which need not be the latest. -/
def HandleHolds (store : ObjectStore) (tier : LogObjectTier)
    (groups : List CatalogGroupEntry) : Prop :=
  (tier.currentVersion = none ∧ tier.root.pages = [] ∧ groups = []) ∨
    ∃ version bytes, (store.versions (currentKey shardId partition))[version]? = some bytes ∧
      tier.currentVersion = some (services.versionToken version bytes) ∧
      Denotes services shardId partition store bytes tier.root groups

/-- Every content that `CURRENT` has had selects a root. -/
def Consistent (store : ObjectStore) : Prop :=
  ∀ bytes ∈ store.versions (currentKey shardId partition),
    ∃ root groups, Denotes services shardId partition store bytes root groups

/-- The digest and the version token tell the contents that `CURRENT` has had apart. -/
structure Collisionless (store : ObjectStore) : Prop where
  digests : ∀ bytes ∈ store.versions (currentKey shardId partition),
    ∀ others ∈ store.versions (currentKey shardId partition),
      services.checksumBytes bytes = services.checksumBytes others → bytes = others
  tokens : ∀ version other bytes others,
    (store.versions (currentKey shardId partition))[version]? = some bytes →
    (store.versions (currentKey shardId partition))[other]? = some others →
    services.versionToken version bytes = services.versionToken other others → bytes = others

/-- The rules by which the handles share the store. -/
def tierDiscipline : Discipline LogDbError ObjectStore StoreOp StoreOp.Value where
  performs op before response after :=
    Performs services op before response after ∧ Collisionless services shardId partition after
  grows := Grows (currentKey shardId partition)
  inv store := Consistent services shardId partition store ∧
    Collisionless services shardId partition store
  grows_refl := grows_refl _
  grows_trans := grows_trans

/-- The groups grow by one, the group of the source, whose sequence is the largest. -/
def ExtendsBy (config : ObjectTierConfig) (source : TierGroupSource)
    (before after : ObjectStore) : Prop :=
  ∃ groups manifest entry, currentGroups services shardId partition before = some groups ∧
    currentGroups services shardId partition after = some (groups ++ [entry]) ∧
    entry.groupSequence = source.groupSequence ∧
    (∀ group ∈ groups, group.groupSequence < entry.groupSequence) ∧
    Uploaded services shardId partition config after source manifest entry

/-- A call keeps `CURRENT`. -/
def KeepsCurrent (_op : StoreOp) (before : ObjectStore) (_response : LogDbResult _op.Value)
    (after : ObjectStore) : Prop :=
  after.versions (currentKey shardId partition) = before.versions (currentKey shardId partition)

/-- A call keeps `CURRENT`; a successful swap adds the group of the source. -/
def KeepsOrExtends (config : ObjectTierConfig) (source : TierGroupSource) (op : StoreOp)
    (before : ObjectStore) (response : LogDbResult op.Value) (after : ObjectStore) : Prop :=
  ((op.Plain (currentKey shardId partition) ∨ ∃ e, response = .error e) ∧
      KeepsCurrent shardId partition op before response after) ∨
    ExtendsBy services shardId partition config source before after

end Meaning

section Meaning

variable {services : TierServices} {shardId : ShardId} {partition : TopicPartition}
  {config : ObjectTierConfig} {store before after : ObjectStore}

/-! ## Objects stay as they are -/

section Later

variable (hgrows : Grows (currentKey shardId partition) before after)

include hgrows

variable {reference : CatalogPageRef} {page : CatalogPage} {root : CatalogRoot}
  {groups : List CatalogGroupEntry} {bytes : Bytes} {entry : CatalogGroupEntry}

/-- A page stays. -/
theorem PageAt.later (h : PageAt services shardId partition before reference page) :
    PageAt services shardId partition after reference page :=
  ⟨h.key_ne, hgrows.content_eq h.key_ne h.content_eq⟩

/-- A root stays. -/
theorem RootHolds.later (h : RootHolds services shardId partition before root groups) :
    RootHolds services shardId partition after root groups := by
  obtain ⟨pages, hpages, hgroups⟩ := h.pages
  exact ⟨⟨pages, hpages.imp fun _ _ hpage => hpage.later hgrows, hgroups⟩, h.ordered⟩

/-- A pointer denotes the same. -/
theorem Denotes.later (h : Denotes services shardId partition before bytes root groups) :
    Denotes services shardId partition after bytes root groups := by
  obtain ⟨pointer, hbytes, hkey, hcontent, hroot⟩ := h
  exact ⟨pointer, hbytes, hkey, hgrows.content_eq hkey hcontent, hroot.later hgrows⟩

/-- An artifact stays. -/
theorem ArtifactStored.later {groupSequence : UInt64} {source : TierArtifactSource}
    {artifact : TierArtifact}
    (h : ArtifactStored services shardId partition before groupSequence source artifact) :
    ArtifactStored services shardId partition after groupSequence source artifact := by
  obtain ⟨bytes, hcontents, hbytes, hkey, hcontent, hartifact⟩ := h
  exact ⟨bytes, hcontents, hbytes, hkey, hgrows.content_eq artifactKey_ne_currentKey hcontent,
    hartifact⟩

/-- A group stays uploaded. -/
theorem Uploaded.later {source : TierGroupSource} {manifest : TierGroupManifest}
    (h : Uploaded services shardId partition config before source manifest entry) :
    Uploaded services shardId partition config after source manifest entry := by
  obtain ⟨artifacts, hartifacts, hmanifest⟩ := h.artifacts
  exact { h with
    artifacts := ⟨artifacts, hartifacts.imp fun _ _ hartifact => hartifact.later hgrows, hmanifest⟩
    content_eq := hgrows.content_eq manifestKey_ne_currentKey h.content_eq }

/-- A page stays loadable. -/
theorem Loadable.later (h : Loadable services shardId partition config before reference page) :
    Loadable services shardId partition config after reference page :=
  { h with
    at_key := h.at_key.later hgrows }

/-- The last group stays. -/
theorem EndsWith.later (h : EndsWith services shardId partition config before root entry) :
    EndsWith services shardId partition config after root entry := by
  obtain ⟨reference, page, hlast, hvalid, hpage, hentry⟩ := h
  exact ⟨reference, page, hlast, hvalid, hpage.later hgrows, hentry⟩

/-- A handle stays right. -/
theorem HandleHolds.later {tier : LogObjectTier}
    (h : HandleHolds services shardId partition before tier groups) :
    HandleHolds services shardId partition after tier groups := by
  rcases h with h | ⟨version, bytes, hversion, htoken, hdenotes⟩
  · exact .inl h
  · exact .inr ⟨version, bytes, hgrows.getElem?_eq hversion, htoken, hdenotes.later hgrows⟩

end Later

/-! ## Reading the groups -/

theorem readPages_of_forall₂ {references : List CatalogPageRef} {pages : List CatalogPage}
    (h : Forall₂ (PageAt services shardId partition store) references pages) :
    readPages services store references = some (pages.flatMap CatalogPage.groups) := by
  induction h with
  | nil => rfl
  | cons hpage _ ih =>
    simp only [readPages, hpage.content_eq, Option.bind_eq_bind, Option.bind_some,
      services.decodePage_encodePage, Except.toOption, ih, flatMap_cons]

/-- The groups of a pointer. -/
theorem selectedGroups_of_denotes (h : Denotes services shardId partition store bytes root groups) :
    selectedGroups services store bytes = some groups := by
  obtain ⟨pointer, rfl, _, hcontent, hroot⟩ := h
  obtain ⟨pages, hpages, rfl⟩ := hroot.pages
  simp only [selectedGroups, services.decodePointer_encodePointer, Except.toOption,
    Option.bind_eq_bind, Option.bind_some, hcontent, services.decodeRoot_encodeRoot]
  exact readPages_of_forall₂ hpages

/-- The groups of `CURRENT`. -/
theorem currentGroups_of_denotes
    (hcontent : store.content (currentKey shardId partition) = some bytes)
    (h : Denotes services shardId partition store bytes root groups) :
    currentGroups services shardId partition store = some groups := by
  rw [currentGroups, hcontent]
  exact selectedGroups_of_denotes h

/-- No `CURRENT`, no groups. -/
theorem currentGroups_of_absent (h : store.versions (currentKey shardId partition) = []) :
    currentGroups services shardId partition store = some [] := by
  rw [currentGroups, ObjectStore.content, h]
  rfl

end Meaning

/-! ## Entries and references -/

variable {manifest : TierGroupManifest} {entry : CatalogGroupEntry} {services : TierServices}
  {shardId : ShardId} {partition : TopicPartition} {store : ObjectStore} {config : ObjectTierConfig}
  {page : CatalogPage} {reference : CatalogPageRef} {root : CatalogRoot}
  {groups : List CatalogGroupEntry} {replaceLast : Bool} {tier : LogObjectTier}

theorem Uploaded.groupSequence_eq {source : TierGroupSource}
    (h : Uploaded services shardId partition config store source manifest entry) :
    entry.groupSequence = source.groupSequence := by
  obtain ⟨artifacts, _, rfl⟩ := h.artifacts
  have hentry := h.entry_eq 0
  simp only [fromManifest, bind_eq_ok_iff] at hentry
  obtain ⟨_, _, _, _, _, _, _, _, _, _, _, _, hentry⟩ := hentry
  cases hentry
  rfl

/-- The last page of a root, and the pages before it. -/
theorem RootHolds.split (h : RootHolds services shardId partition store root groups)
    (hlast : root.pages.getLast? = some reference) :
    ∃ front page, Forall₂ (PageAt services shardId partition store) root.pages.dropLast front ∧
      PageAt services shardId partition store reference page ∧
      groups = front.flatMap CatalogPage.groups ++ page.groups := by
  obtain ⟨pages, hpages, hgroups⟩ := h.pages
  rw [← dropLast_append_getLast? reference hlast] at hpages
  have hfront := forall₂_take_append _ _ _ hpages.flip
  have hback := forall₂_drop_append _ _ _ hpages.flip
  obtain ⟨page, rest, hpage, hrest, hdrop⟩ := forall₂_cons_right_iff.mp hback
  obtain rfl := forall₂_nil_right_iff.mp hrest
  refine ⟨_, page, hfront.flip, hpage, ?_⟩
  rw [hgroups]
  nth_rewrite 1 [← take_append_drop root.pages.dropLast.length pages]
  rw [hdrop, flatMap_append, flatMap_singleton]

/-- The last group has the largest sequence. -/
theorem lt_of_ordered {last : CatalogGroupEntry} {sequence : UInt64}
    (hordered : groups.Pairwise fun left right => left.groupSequence < right.groupSequence)
    (hlast : groups.getLast? = some last) (hsequence : last.groupSequence < sequence) :
    ∀ group ∈ groups, group.groupSequence < sequence := by
  rw [← dropLast_append_getLast? last hlast] at hordered ⊢
  refine forall_mem_append.mpr ⟨fun group hgroup => ?_, forall_mem_singleton.mpr hsequence⟩
  have hbefore := (pairwise_append.mp hordered).2.2 group hgroup last (by simp)
  exact UInt64.lt_trans hbefore hsequence

/-- Adding the page of a new group adds the group. -/
theorem rootHolds_nextRoot {kept : List CatalogPage}
    (hkept : Forall₂ (PageAt services shardId partition store)
      (if replaceLast then root.pages.dropLast else root.pages) kept)
    (hpage : PageAt services shardId partition store reference page)
    (hgroups : kept.flatMap CatalogPage.groups ++ page.groups = groups ++ [entry])
    (hordered : groups.Pairwise fun left right => left.groupSequence < right.groupSequence)
    (hlarger : ∀ group ∈ groups, group.groupSequence < entry.groupSequence) :
    RootHolds services shardId partition store (nextRoot root reference replaceLast)
      (groups ++ [entry]) := by
  refine ⟨⟨kept ++ [page], rel_append hkept (.cons hpage .nil), ?_⟩, ?_⟩
  · rw [flatMap_append, flatMap_singleton, hgroups]
  · grind

/-- The new group is the last one of the root it was added to. -/
theorem endsWith_nextRoot {earlier : List CatalogGroupEntry}
    (hvalid : (nextRoot root reference replaceLast).validate shardId partition = .ok ())
    (hpage : Loadable services shardId partition config store reference page)
    (hgroups : earlier ++ page.groups = groups ++ [entry]) :
    EndsWith services shardId partition config store (nextRoot root reference replaceLast)
      entry := by
  obtain ⟨_, _, hpages⟩ := bind_eq_ok_iff.mp hvalid
  refine ⟨reference, page, getLast?_concat, ?_, hpage, ?_⟩
  · exact validate_of_validatePages hpages reference (mem_append_right _ (by simp))
  · have hlast := congrArg getLast? hgroups
    rwa [getLast?_append_of_ne_nil _ (CatalogPage.groups_ne_nil hpage.page_valid),
      getLast?_concat] at hlast

section

variable (h : HandleHolds services shardId partition store tier groups)

include h

theorem HandleHolds.rootHolds : RootHolds services shardId partition store tier.root groups := by
  rcases h with ⟨_, hpages, rfl⟩ | ⟨_, _, _, _, pointer, _, _, _, hroot⟩
  · exact ⟨⟨[], hpages ▸ .nil, rfl⟩, Pairwise.nil⟩
  · exact hroot

/-- The version token identifies what the handle's root lists. -/
theorem HandleHolds.currentGroups_eq
    (hcollisionless : Collisionless services shardId partition store)
    (hversion : (store.metadata services (currentKey shardId partition)).map
      ObjectMetadata.versionToken = tier.currentVersion) :
    currentGroups services shardId partition store = some groups := by
  cases hcontent : store.content (currentKey shardId partition) with
  | none =>
    rw [ObjectStore.metadata, hcontent] at hversion
    rcases h with ⟨_, _, rfl⟩ | ⟨_, _, _, htoken, _⟩
    · exact currentGroups_of_absent (getLast?_eq_none_iff.mp hcontent)
    · cases hversion.trans htoken
  | some bytes =>
    rw [metadata_of_content hcontent] at hversion
    rcases h with ⟨habsent, _, _⟩ | ⟨version, others, hothers, htoken, hdenotes⟩
    · cases hversion.trans habsent
    · have hlatest : (store.versions (currentKey shardId partition))[
          (store.versions (currentKey shardId partition)).length - 1]? = some bytes := by
        rw [← getLast?_eq_getElem?]
        exact hcontent
      have hsame := hcollisionless.tokens _ version bytes others hlatest hothers
        (Option.some.inj (hversion.trans htoken))
      subst hsame
      exact currentGroups_of_denotes hcontent hdenotes

end

/-! ## Calls -/

section Calls

variable {allowed : (op : StoreOp) → ObjectStore → LogDbResult op.Value → ObjectStore → Prop}

/-- A call that does not write `CURRENT` keeps to the discipline. -/
theorem keeps_of_plain {op : StoreOp} {before after : ObjectStore} {response : LogDbResult op.Value}
    (hallowed : ∀ op before response after, op.Plain (currentKey shardId partition) →
      KeepsCurrent shardId partition op before response after → allowed op before response after)
    (hplain : op.Plain (currentKey shardId partition))
    (hinv : (tierDiscipline services shardId partition).inv before)
    (h : (tierDiscipline services shardId partition).performs op before response after) :
    (tierDiscipline services shardId partition).grows before after ∧
      (tierDiscipline services shardId partition).inv after ∧ allowed op before response after := by
  obtain ⟨hgrows, hcurrent⟩ := performs_plain hplain h.1
  refine ⟨hgrows, ⟨fun bytes hbytes => ?_, h.2⟩, hallowed op before response after hplain hcurrent⟩
  obtain ⟨root, groups, hdenotes⟩ := hinv.1 bytes (hcurrent ▸ hbytes)
  exact ⟨root, groups, hdenotes.later hgrows⟩

variable (hallowed : ∀ op before response after, op.Plain (currentKey shardId partition) →
  KeepsCurrent shardId partition op before response after → allowed op before response after)

include hallowed

variable {key : Str} {bytes : Bytes} {groupSequence : UInt64} {source : TierGroupSource}

section

variable (hkey : key ≠ currentKey shardId partition)

include hkey

/-- The bytes are there afterwards. -/
theorem ensures_putBytesIfAbsent : Ensures (tierDiscipline services shardId partition) allowed
      (fun metadata later => validateObjectKey key = .ok () ∧ metadata.bytes = bytes.length ∧
        metadata.contentDigest = services.checksumBytes bytes ∧ later.content key = some bytes)
      (putBytesIfAbsent key bytes) store := by
  refine ensures_request fun before response after _ hinv hperforms =>
    ⟨keeps_of_plain hallowed hkey hinv hperforms, fun metadata hresponse later hlater _ => ?_⟩
  rcases performs_putBytes hperforms.1 with ⟨⟨e, herror⟩, _⟩ | ⟨_, hok, hstored⟩
  · cases hresponse.symm.trans herror
  · cases hresponse.symm.trans hok
    exact ⟨hstored.key_valid, hstored.bytes_eq, hstored.digest_eq,
      hlater.content_eq hkey hstored.content_eq⟩

/-- The file is there afterwards. -/
theorem ensures_putFileIfAbsent : Ensures (tierDiscipline services shardId partition) allowed
      (fun metadata later => bytes ≠ [] ∧ validateObjectKey key = .ok () ∧
        metadata.bytes = bytes.length ∧ metadata.contentDigest = services.checksumBytes bytes ∧
        later.content key = some bytes)
      (putFileIfAbsent key bytes) store := by
  refine ensures_request fun before response after _ hinv hperforms =>
    ⟨keeps_of_plain hallowed hkey hinv hperforms, fun metadata hresponse later hlater _ => ?_⟩
  rcases performs_putFile hperforms.1 with ⟨⟨e, herror⟩, _⟩ | ⟨_, hok, hbytes, hstored⟩
  · cases hresponse.symm.trans herror
  · cases hresponse.symm.trans hok
    exact ⟨hbytes, hstored.key_valid, hstored.bytes_eq, hstored.digest_eq,
      hlater.content_eq hkey hstored.content_eq⟩

/-- An object that exists is read as it is. -/
theorem ensures_getObject {maxBytes : Nat} (hcontent : store.content key = some bytes) :
    Ensures (tierDiscipline services shardId partition) allowed
      (fun read _ => read = bytes ∧ validateObjectKey key = .ok () ∧ bytes.length ≤ maxBytes)
      (getObject key maxBytes) store := by
  refine ensures_request fun before response after hbefore hinv hperforms =>
    ⟨keeps_of_plain hallowed trivial hinv hperforms, fun read hresponse _ _ _ => ?_⟩
  obtain ⟨hvalid, hread, hlength⟩ := (performs_get hperforms.1).2 read hresponse
  cases (hbefore.content_eq hkey hcontent).symm.trans hread
  exact ⟨rfl, hvalid, hlength⟩

end

/-! ## Pages -/

/-- The page of a reference is loaded. -/
theorem ensures_loadPage {reference : CatalogPageRef}
    (hpage : PageAt services shardId partition store reference page) :
    Ensures (tierDiscipline services shardId partition) allowed
      (fun loaded later => loaded = page ∧ reference.validate = .ok () ∧
        Loadable services shardId partition config later reference page)
      (loadPage services shardId partition config reference) store := by
  refine ensures_lift_bind fun _ hreference =>
    (ensures_getObject hallowed hpage.key_ne hpage.content_eq).bind
      fun bytes later hlater _ hread => ?_
  obtain ⟨rfl, hkey, hlength⟩ := hread
  refine ensures_lift_bind fun _ hverified => ensures_lift_bind fun loaded hloaded =>
    ensures_lift_bind fun _ hvalid => ensures_lift_bind fun _ hsequence =>
      ensures_pure fun final hfinal _ => ?_
  cases (services.decodePage_encodePage page).symm.trans hloaded
  obtain ⟨hbytes, hchecksum⟩ := ensure_eq_ok_iff.mp hverified
  exact ⟨rfl, hreference, (hpage.later hlater).later hfinal, hkey, hlength, hbytes, hchecksum,
    hvalid, ensure_eq_ok_iff.mp hsequence⟩

/-! ## Uploading a group -/

/-- An artifact is stored. -/
theorem ensures_publishArtifact {source : TierArtifactSource} :
    Ensures (tierDiscipline services shardId partition) allowed
      (fun artifact later => ArtifactStored services shardId partition later groupSequence source
        artifact)
      (publishArtifact services shardId partition groupSequence source) store := by
  refine ensures_lift_bind fun bytes hcontents =>
    (ensures_putFileIfAbsent hallowed artifactKey_ne_currentKey).bind
      fun metadata later _ _ hput => ensures_lift_bind fun _ _ => ensures_pure fun final hfinal _ => ?_
  obtain ⟨hbytes, hkey, hlength, hdigest, hcontent⟩ := hput
  refine ⟨bytes, okOr_eq_ok_iff.mp hcontents, hbytes, hkey,
    hfinal.content_eq artifactKey_ne_currentKey hcontent, ?_⟩
  rw [hlength, hdigest]

/-- All artifacts are stored. -/
theorem ensures_publishArtifacts {sources : List TierArtifactSource} :
    Ensures (tierDiscipline services shardId partition) allowed (fun artifacts later => Forall₂
        (ArtifactStored services shardId partition later groupSequence) sources artifacts)
      (publishArtifacts services shardId partition groupSequence sources) store := by
  induction sources generalizing store with
  | nil => exact ensures_pure fun _ _ _ => .nil
  | cons source rest ih =>
    refine (ensures_publishArtifact hallowed).bind fun artifact later _ _ hartifact =>
      ih.bind fun artifacts final hfinal _ hrest => ensures_pure fun last hlast _ => ?_
    exact .cons ((hartifact.later hfinal).later hlast) (hrest.imp fun _ _ h => h.later hlast)

/-- The group is uploaded. -/
theorem ensures_publishManifest : Ensures (tierDiscipline services shardId partition) allowed
      (fun result later => Uploaded services shardId partition config later source result.1
        result.2)
      (publishManifest services shardId partition config source) store := by
  refine ensures_lift_bind fun _ hsource =>
    (ensures_publishArtifacts hallowed).bind fun artifacts later _ _ hartifacts =>
      ensures_lift_bind fun _ hvalid => ensures_lift_bind fun _ hsize =>
        (ensures_putBytesIfAbsent hallowed manifestKey_ne_currentKey).bind
          fun metadata next hnext _ hput => ensures_lift_bind fun entry hentry =>
            ensures_pure fun final hfinal _ => ?_
  obtain ⟨hkey, hlength, hdigest, hcontent⟩ := hput
  exact {
    source_valid := hsource
    artifacts := ⟨artifacts, hartifacts.imp fun _ _ h => (h.later hnext).later hfinal, rfl⟩
    manifest_valid := hvalid
    length_le := ensure_eq_ok_iff.mp hsize
    key_valid := hkey
    content_eq := hfinal.content_eq manifestKey_ne_currentKey hcontent
    entry_eq := fun version => by
      simp only [fromManifest, hlength, hdigest] at hentry ⊢
      exact hentry }

/-! ## Adding a group to the root -/

section

variable (hroot : RootHolds services shardId partition store root groups)

include hroot

/-- A retry is the last group, other groups are new. -/
theorem ensures_isRetry : Ensures (tierDiscipline services shardId partition) allowed
      (fun retried later =>
        (retried = true → EndsWith services shardId partition config later root entry) ∧
        (retried = false → ∀ group ∈ groups, group.groupSequence < source.groupSequence))
      (isRetry services shardId partition config root source entry) store := by
  unfold isRetry
  split
  · rename_i hlast
    refine ensures_pure fun later _ _ => ⟨fun h => absurd h Bool.false_ne_true, fun _ => ?_⟩
    obtain ⟨pages, hpages, rfl⟩ := hroot.pages
    rw [getLast?_eq_none_iff.mp hlast] at hpages
    cases hpages
    simp
  · rename_i reference hlast
    obtain ⟨front, page, _, hpage, hgroups⟩ := hroot.split hlast
    refine (ensures_loadPage hallowed hpage).bind fun loaded later _ _ hloaded =>
      ensures_lift_bind fun lastGroup hlastGroup => ?_
    obtain ⟨rfl, hreference, hloadable⟩ := hloaded
    have hlastGroup := okOr_eq_ok_iff.mp hlastGroup
    split
    · refine ensures_lift_bind fun _ hsame => ensures_pure fun final hfinal _ =>
        ⟨fun _ => ?_, fun h => absurd h.symm Bool.false_ne_true⟩
      rw [ensure_eq_ok_iff.mp hsame] at hlastGroup
      exact ⟨reference, loaded, hlast, hreference, hloadable.later hfinal, hlastGroup⟩
    · refine ensures_lift_bind fun _ hless => ensures_pure fun final hfinal _ =>
        ⟨fun h => absurd h Bool.false_ne_true, fun _ => ?_⟩
      refine lt_of_ordered hroot.ordered ?_ (ensure_eq_ok_iff.mp hless)
      rw [hgroups, getLast?_append, hlastGroup]
      rfl

/-- The page that takes the group. -/
theorem ensures_nextPage : Ensures (tierDiscipline services shardId partition) allowed
      (fun result later => ∃ kept, Forall₂ (PageAt services shardId partition later)
          (if result.2 then root.pages.dropLast else root.pages) kept ∧
        kept.flatMap CatalogPage.groups ++ result.1.groups = groups ++ [entry])
      (nextPage services shardId partition config root entry) store := by
  obtain ⟨pages, hpages, hall⟩ := hroot.pages
  unfold nextPage
  split
  · rename_i reference hlast
    obtain ⟨front, page, hfront, hpage, hgroups⟩ := hroot.split hlast
    refine (ensures_loadPage hallowed hpage).bind fun loaded later hlater _ hloaded => ?_
    obtain ⟨rfl, _, _⟩ := hloaded
    split
    · refine ensures_pure fun final hfinal _ =>
        ⟨front, hfront.imp fun _ _ h => (h.later hlater).later hfinal, ?_⟩
      rw [hgroups, append_assoc]
    · refine ensures_lift_bind fun _ _ => ensures_pure fun final hfinal _ =>
        ⟨pages, hpages.imp fun _ _ h => (h.later hlater).later hfinal, ?_⟩
      rw [hall]
      rfl
  · refine ensures_pure fun final hfinal _ => ⟨pages, hpages.imp fun _ _ h => h.later hfinal, ?_⟩
    rw [hall]
    rfl

end

/-- The page is loadable. -/
theorem ensures_publishPage : Ensures (tierDiscipline services shardId partition) allowed
      (fun reference later => Loadable services shardId partition config later reference page)
      (publishPage services shardId partition config page) store := by
  refine ensures_lift_bind fun _ hvalid => ensures_lift_bind fun _ hsize =>
    (ensures_putBytesIfAbsent hallowed pageKey_ne_currentKey).bind fun metadata later _ _ hput => ?_
  obtain ⟨hkey, hlength, hdigest, hcontent⟩ := hput
  cases hreference : CatalogPageRef.fromPage page (pageKey shardId partition page.pageSequence
      (services.checksumBytes (services.encodePage page))) metadata with
  | error e => trivial
  | ok reference =>
    refine ensures_pure fun final hfinal _ => ?_
    simp only [CatalogPageRef.fromPage, bind_eq_ok_iff] at hreference
    obtain ⟨_, _, _, _, _, _, hreference⟩ := hreference
    cases hreference
    exact {
      at_key := ⟨pageKey_ne_currentKey, hfinal.content_eq pageKey_ne_currentKey hcontent⟩
      key_valid := hkey
      length_le := ensure_eq_ok_iff.mp hsize
      bytes_eq := hlength.symm
      checksum_eq := hdigest.symm
      page_valid := hvalid
      sequence_eq := rfl }

/-- The bytes denote the root. -/
theorem ensures_publishRoot {next : CatalogRoot}
    (hroot : RootHolds services shardId partition store next groups) :
    Ensures (tierDiscipline services shardId partition) allowed
      (fun pointerBytes later => next.validate shardId partition = .ok () ∧
        Denotes services shardId partition later pointerBytes next groups)
      (publishRoot services shardId partition config next) store := by
  refine ensures_lift_bind fun _ _ => ensures_lift_bind fun _ hvalid =>
    ensures_lift_bind fun _ _ => (ensures_putBytesIfAbsent hallowed rootKey_ne_currentKey).bind
      fun metadata later hlater _ hput => ensures_lift_bind fun _ _ =>
        ensures_pure fun final hfinal _ => ⟨hvalid, ?_⟩
  exact ⟨_, rfl, rootKey_ne_currentKey, hfinal.content_eq rootKey_ne_currentKey hput.2.2.2,
    (hroot.later hlater).later hfinal⟩

/-- Everything up to the swap: the group is uploaded, and either it is the last one of
the root or the bytes select a root that has it in addition. -/
theorem ensures_preparePublication (hroot : RootHolds services shardId partition store root groups) :
    Ensures (tierDiscipline services shardId partition) allowed (fun result later => ∃ entry,
        Uploaded services shardId partition config later source result.1 entry ∧
        (result.2 = none → EndsWith services shardId partition config later root entry) ∧
        ∀ next pointerBytes, result.2 = some (next, pointerBytes) →
          (∀ group ∈ groups, group.groupSequence < entry.groupSequence) ∧
          Denotes services shardId partition later pointerBytes next (groups ++ [entry]) ∧
          EndsWith services shardId partition config later next entry)
      (preparePublication services shardId partition config root source) store := by
  refine (ensures_publishManifest hallowed).bind fun (manifest, entry) uploaded huploaded _
    hentry => (ensures_isRetry hallowed (hroot.later huploaded)).bind
      fun retried checked hchecked _ hretry => ?_
  have hroot := (hroot.later huploaded).later hchecked
  have hentry := hentry.later hchecked
  cases retried with
  | true =>
    refine ensures_pure fun final hfinal _ => ⟨entry, hentry.later hfinal, fun _ => ?_, ?_⟩
    · exact (hretry.1 rfl).later hfinal
    · intro next pointerBytes h
      cases h
  | false =>
    have hlarger : ∀ group ∈ groups, group.groupSequence < entry.groupSequence := by
      rw [hentry.groupSequence_eq]
      exact hretry.2 rfl
    refine (ensures_nextPage hallowed hroot).bind fun (page, replaceLast) planned hplanned _
      hplan => (ensures_publishPage hallowed).bind fun reference paged hpaged _ hpage => ?_
    obtain ⟨kept, hkept, hgroups⟩ := hplan
    have hnext := rootHolds_nextRoot (hkept.imp fun _ _ h => h.later hpaged) hpage.at_key
      hgroups hroot.ordered hlarger
    refine (ensures_publishRoot hallowed hnext).bind fun pointerBytes rooted hrooted _ hpointer =>
      ensures_pure fun final hfinal _ => ⟨entry, ?_, ?_, ?_⟩
    · exact (((hentry.later hplanned).later hpaged).later hrooted).later hfinal
    · intro h
      cases h
    · intro next bytes h
      cases h
      exact ⟨hlarger, hpointer.2.later hfinal,
        endsWith_nextRoot hpointer.1 ((hpage.later hrooted).later hfinal) hgroups⟩

end Calls

/-! ## Publishing -/

section Publishing

variable {source : TierGroupSource} {before after : ObjectStore} {pointerBytes : Bytes}
  {next : CatalogRoot}

/-- The group of the source is uploaded and is the last one of the root. -/
def Settled (services : TierServices) (shardId : ShardId) (partition : TopicPartition)
    (config : ObjectTierConfig) (store : ObjectStore) (source : TierGroupSource)
    (manifest : TierGroupManifest) (root : CatalogRoot) : Prop :=
  ∃ entry, Uploaded services shardId partition config store source manifest entry ∧
    EndsWith services shardId partition config store root entry

/-- A settled group stays. -/
theorem Settled.later {config : ObjectTierConfig}
    (h : Settled services shardId partition config before source manifest root)
    (hgrows : Grows (currentKey shardId partition) before after) :
    Settled services shardId partition config after source manifest root := by
  obtain ⟨entry, huploaded, hends⟩ := h
  exact ⟨entry, huploaded.later hgrows, hends.later hgrows⟩

/-- A swap keeps the history consistent. -/
theorem consistent_write (h : Consistent services shardId partition before)
    (hdenotes : Denotes services shardId partition before pointerBytes root groups) :
    Consistent services shardId partition
      (before.write (currentKey shardId partition) pointerBytes) := by
  unfold Consistent
  rw [versions_write_self]
  refine forall_mem_append.mpr ⟨fun bytes hbytes => ?_,
    forall_mem_singleton.mpr ⟨root, groups, hdenotes.later grows_write_current⟩⟩
  obtain ⟨root, groups, hdenotes⟩ := h bytes hbytes
  exact ⟨root, groups, hdenotes.later grows_write_current⟩

section

variable (htier : HandleHolds services shardId partition store tier groups)

include htier

/-- The swap succeeds only while `CURRENT` is what the handle's root was built from. -/
theorem ensures_compareAndSwap
    (huploaded : Uploaded services shardId partition tier.config store source manifest entry)
    (hlarger : ∀ group ∈ groups, group.groupSequence < entry.groupSequence)
    (hdenotes : Denotes services shardId partition store pointerBytes next (groups ++ [entry])) :
    Ensures (tierDiscipline services shardId partition)
      (KeepsOrExtends services shardId partition tier.config source)
      (fun metadata later => ∃ version,
        (later.versions (currentKey shardId partition))[version]? = some pointerBytes ∧
        metadata.versionToken = services.versionToken version pointerBytes)
      (compareAndSwap (currentKey shardId partition) tier.currentVersion pointerBytes) store := by
  refine ensures_request fun before response after hbefore hinv hperforms => ?_
  rcases performs_swap hperforms.1 with ⟨⟨e, rfl⟩, rfl⟩ | ⟨rfl, hafter, hversion⟩
  · refine ⟨⟨grows_refl _ _, hinv, .inl ⟨.inr ⟨e, rfl⟩, rfl⟩⟩, fun metadata h => ?_⟩
    cases h
  · subst hafter
    have hdenotes := hdenotes.later hbefore
    have hgrows : Grows (currentKey shardId partition) before
        (before.write (currentKey shardId partition) pointerBytes) := grows_write_current
    refine ⟨⟨hgrows, ⟨consistent_write hinv.1 hdenotes, hperforms.2⟩, .inr ?_⟩,
      fun metadata h later hlater _ => ?_⟩
    · exact ⟨groups, manifest, entry, (htier.later hbefore).currentGroups_eq hinv.2 hversion,
        currentGroups_of_denotes (content_write_self _ _ _) (hdenotes.later hgrows),
        huploaded.groupSequence_eq, hlarger, (huploaded.later hbefore).later hgrows⟩
    · cases h
      refine ⟨_, hlater.getElem?_eq ?_, rfl⟩
      rw [versions_write_self, getElem?_append_right (le_refl _), Nat.sub_self]
      rfl

/-- `CURRENT` is extended by the group or left alone. -/
theorem ensures_publishGroup : Ensures (tierDiscipline services shardId partition)
      (KeepsOrExtends services shardId partition tier.config source)
      (fun publication later =>
        Settled services shardId partition tier.config later source publication.manifest
          (tier.finish (.ok publication)).root ∧
        ∃ groups, HandleHolds services shardId partition later (tier.finish (.ok publication))
          groups)
      (publishGroup services shardId partition tier source) store := by
  refine (ensures_preparePublication (fun _ _ _ _ hplain h => .inl ⟨.inl hplain, h⟩) htier.rootHolds).bind
    fun (manifest, prepared) ready hready _ hprepared => ?_
  obtain ⟨entry, huploaded, hretried, hadvanced⟩ := hprepared
  have htier := htier.later hready
  cases prepared with
  | none =>
    refine ensures_pure fun final hfinal _ => ⟨?_, groups, htier.later hfinal⟩
    exact ⟨entry, huploaded.later hfinal, (hretried rfl).later hfinal⟩
  | some advance =>
    obtain ⟨next, pointerBytes⟩ := advance
    obtain ⟨hlarger, hdenotes, hends⟩ := hadvanced next pointerBytes rfl
    refine (ensures_compareAndSwap htier huploaded hlarger hdenotes).bind
      fun metadata swapped hswapped _ hversion => ensures_pure fun final hfinal _ => ⟨?_, ?_⟩
    · exact ⟨entry, (huploaded.later hswapped).later hfinal, (hends.later hswapped).later hfinal⟩
    · obtain ⟨version, hbytes, htoken⟩ := hversion
      refine ⟨groups ++ [entry], HandleHolds.later hfinal (.inr ⟨version, pointerBytes, hbytes,
        ?_, ?_⟩)⟩
      · exact congrArg some htoken
      · exact hdenotes.later hswapped

end

end Publishing

/-! ## Opening -/

/-- The metadata of `CURRENT` are those of one of its versions. -/
theorem ensures_headObject :
    Ensures (tierDiscipline services shardId partition) (KeepsCurrent shardId partition)
      (fun metadata later => ∀ current, metadata = some current → ∃ version bytes,
        (later.versions (currentKey shardId partition))[version]? = some bytes ∧
        current = objectMetadata services version bytes)
      (headObject (currentKey shardId partition)) store := by
  refine ensures_request fun before response after _ hinv hperforms =>
    ⟨keeps_of_plain (fun _ _ _ _ _ h => h) trivial hinv hperforms, ?_⟩
  intro metadata hresponse later hlater _ current hcurrent
  obtain ⟨rfl, hmetadata⟩ := performs_head hperforms.1
  have hmetadata := (hmetadata metadata hresponse).symm.trans hcurrent
  obtain ⟨bytes, hcontent, hcurrent⟩ := Option.map_eq_some_iff.mp hmetadata
  refine ⟨_, bytes, hlater.getElem?_eq ?_, hcurrent.symm⟩
  rw [← getLast?_eq_getElem?]
  exact hcontent

/-- Whatever is read from `CURRENT` is one of its versions. -/
theorem ensures_getCurrent {maxBytes : Nat} :
    Ensures (tierDiscipline services shardId partition) (KeepsCurrent shardId partition)
      (fun read later => read ∈ later.versions (currentKey shardId partition))
      (getObject (currentKey shardId partition) maxBytes) store := by
  refine ensures_request fun before response after _ hinv hperforms =>
    ⟨keeps_of_plain (fun _ _ _ _ _ h => h) trivial hinv hperforms, ?_⟩
  intro read hresponse later hlater _
  obtain ⟨rfl, hread⟩ := performs_get hperforms.1
  exact hlater.2.subset (mem_of_getLast? (hread read hresponse).2.1)

/-- The root of a pointer is loaded. -/
theorem ensures_loadRoot {pointerBytes : Bytes} {root : CatalogRoot}
    {groups : List CatalogGroupEntry}
    (hdenotes : Denotes services shardId partition store pointerBytes root groups) :
    Ensures (tierDiscipline services shardId partition) (KeepsCurrent shardId partition)
      (fun loaded _ => loaded = root)
      (loadRoot services shardId partition config pointerBytes) store := by
  obtain ⟨pointer, rfl, hkey, hcontent, _⟩ := hdenotes
  refine ensures_lift_bind fun decoded hdecoded => ?_
  cases (services.decodePointer_encodePointer pointer).symm.trans hdecoded
  refine ensures_lift_bind fun _ _ => (ensures_getObject (fun _ _ _ _ _ h => h) hkey hcontent).bind
    fun bytes later _ _ hread => ?_
  obtain ⟨rfl, _, _⟩ := hread
  refine ensures_lift_bind fun _ _ => ensures_lift_bind fun loaded hloaded =>
    ensures_lift_bind fun _ _ => ensures_lift_bind fun _ _ => ensures_pure fun _ _ _ => ?_
  cases (services.decodeRoot_encodeRoot root).symm.trans hloaded
  rfl

/-- An opened handle is right. -/
theorem ensures_openTier :
    Ensures (tierDiscipline services shardId partition) (KeepsCurrent shardId partition)
      (fun tier later => ∃ groups, HandleHolds services shardId partition later tier groups)
      (openTier services shardId partition config) store := by
  refine ensures_lift_bind fun _ _ => ensures_headObject.bind fun metadata seen _ _ hmetadata => ?_
  cases metadata with
  | none => exact ensures_pure fun _ _ _ => ⟨[], .inl ⟨rfl, rfl, rfl⟩⟩
  | some current =>
    obtain ⟨version, bytes, hversion, rfl⟩ := hmetadata current rfl
    refine ensures_lift_bind fun _ _ => ensures_getCurrent.bind fun read later hlater hinv hread =>
      ensures_lift_bind fun _ hverified => ?_
    -- `CURRENT` may have changed in between, but then the digest would differ
    have hbytes : bytes ∈ later.versions (currentKey shardId partition) :=
      hlater.2.subset (mem_of_getElem? hversion)
    have hsame := hinv.2.digests read hread bytes hbytes (ensure_eq_ok_iff.mp hverified).2
    subst hsame
    obtain ⟨root, groups, hdenotes⟩ := hinv.1 read hread
    refine (ensures_loadRoot hdenotes).bind fun loaded final hfinal _ hloaded =>
      ensures_pure fun last hlast _ => ⟨groups, ?_⟩
    subst hloaded
    have hholds : HandleHolds services shardId partition later
        ⟨config, loaded, some (services.versionToken version read)⟩ groups :=
      .inr ⟨version, read, hlater.getElem?_eq hversion, rfl, hdenotes⟩
    exact (hholds.later hfinal).later hlast

/-! ## Publishing the last group again -/

section Retry

variable {source : TierGroupSource} {key : Str} {bytes : Bytes} {groupSequence : UInt64}

/-- A stored file is not written again. -/
theorem returns_putFileIfAbsent (hne : key ≠ currentKey shardId partition)
    (hkey : validateObjectKey key = .ok ()) (hbytes : bytes ≠ [])
    (hcontent : store.content key = some bytes) :
    Returns (tierDiscipline services shardId partition) (answer services)
      (objectMetadata services ((store.versions key).length - 1) bytes)
      (putFileIfAbsent key bytes) store := by
  refine returns_request fun before hbefore _ => ?_
  rw [answer, ObjectStore.putFileIfAbsent, hkey, ← hbefore.versions_eq hne hcontent]
  exact (if_neg hbytes).trans (putIfAbsent_of_content (hbefore.content_eq hne hcontent))

/-- Stored bytes are not written again. -/
theorem returns_putBytesIfAbsent (hne : key ≠ currentKey shardId partition)
    (hkey : validateObjectKey key = .ok ()) (hcontent : store.content key = some bytes) :
    Returns (tierDiscipline services shardId partition) (answer services)
      (objectMetadata services ((store.versions key).length - 1) bytes)
      (putBytesIfAbsent key bytes) store := by
  refine returns_request fun before hbefore _ => ?_
  rw [answer, ObjectStore.putBytesIfAbsent, hkey, ← hbefore.versions_eq hne hcontent]
  exact putIfAbsent_of_content (hbefore.content_eq hne hcontent)

/-- A loadable page is loaded. -/
theorem returns_loadPage {reference : CatalogPageRef} {page : CatalogPage}
    (hreference : reference.validate = .ok ())
    (h : Loadable services shardId partition config store reference page) :
    Returns (tierDiscipline services shardId partition) (answer services) page
      (loadPage services shardId partition config reference) store := by
  have hget : Returns (tierDiscipline services shardId partition) (answer services)
      (services.encodePage page) (getObject reference.pageKey config.maxControlObjectBytes)
      store := by
    refine returns_request fun before hbefore _ => ?_
    rw [answer, ObjectStore.get, h.key_valid,
      hbefore.content_eq h.at_key.key_ne h.at_key.content_eq]
    exact congrArg (·, before) (if_neg (Nat.not_lt.mpr h.length_le))
  refine returns_lift_bind hreference (hget.bind fun later _ => ?_)
  exact returns_lift_bind (ensure_of_true ⟨h.bytes_eq, h.checksum_eq⟩ _)
    (returns_lift_bind (services.decodePage_encodePage page)
      (returns_lift_bind h.page_valid (returns_lift_bind (ensure_of_true h.sequence_eq _) rfl)))

/-- A stored artifact is published again. -/
theorem returns_publishArtifact {artifactSource : TierArtifactSource} {artifact : TierArtifact}
    (h : ArtifactStored services shardId partition store groupSequence artifactSource artifact) :
    Returns (tierDiscipline services shardId partition) (answer services) artifact
      (publishArtifact services shardId partition groupSequence artifactSource) store := by
  obtain ⟨bytes, hcontents, hbytes, hkey, hcontent, rfl⟩ := h
  refine returns_lift_bind (okOr_eq_ok_iff.mpr hcontents)
    ((returns_putFileIfAbsent artifactKey_ne_currentKey hkey hbytes hcontent).bind fun _ _ => ?_)
  exact returns_lift_bind (ensure_of_true ⟨rfl, rfl⟩ _) rfl

/-- Stored artifacts are published again. -/
theorem returns_publishArtifacts {sources : List TierArtifactSource} {artifacts : List TierArtifact}
    (h : Forall₂ (ArtifactStored services shardId partition store groupSequence) sources
      artifacts) :
    Returns (tierDiscipline services shardId partition) (answer services) artifacts
      (publishArtifacts services shardId partition groupSequence sources) store := by
  induction sources generalizing store artifacts with
  | nil =>
    cases h
    rfl
  | cons artifactSource rest ih =>
    obtain ⟨artifact, others, hartifact, hothers, rfl⟩ := forall₂_cons_left_iff.mp h
    refine (returns_publishArtifact hartifact).bind fun later hlater => ?_
    exact (ih (hothers.imp fun _ _ h => h.later hlater)).bind fun _ _ => rfl

/-- So is an uploaded group. -/
theorem returns_publishManifest
    (h : Uploaded services shardId partition config store source manifest entry) :
    Returns (tierDiscipline services shardId partition) (answer services) (manifest, entry)
      (publishManifest services shardId partition config source) store := by
  obtain ⟨artifacts, hartifacts, rfl⟩ := h.artifacts
  refine returns_lift_bind h.source_valid ((returns_publishArtifacts hartifacts).bind
    fun later hlater => ?_)
  refine returns_lift_bind h.manifest_valid (returns_lift_bind (ensure_of_true h.length_le _) ?_)
  have h := h.later hlater
  exact (returns_putBytesIfAbsent manifestKey_ne_currentKey h.key_valid h.content_eq).bind
    fun _ _ => returns_lift_bind (h.entry_eq _) rfl

/-- The last group is a retry. -/
theorem returns_isRetry {root : CatalogRoot}
    (hsequence : entry.groupSequence = source.groupSequence)
    (h : EndsWith services shardId partition config store root entry) :
    Returns (tierDiscipline services shardId partition) (answer services) true
      (isRetry services shardId partition config root source entry) store := by
  obtain ⟨reference, page, hlast, hreference, hpage, hentry⟩ := h
  rw [isRetry, hlast]
  refine (returns_loadPage hreference hpage).bind fun later _ => ?_
  refine returns_lift_bind (okOr_eq_ok_iff.mpr hentry) ?_
  rw [if_pos hsequence.symm]
  exact returns_lift_bind (ensure_of_true rfl _) rfl

/-- Publishing the last group again returns its manifest and changes nothing. -/
theorem returns_publishGroup {tier : LogObjectTier}
    (h : Settled services shardId partition tier.config store source manifest tier.root) :
    Returns (tierDiscipline services shardId partition) (answer services) ⟨manifest, none⟩
      (publishGroup services shardId partition tier source) store := by
  obtain ⟨entry, huploaded, hends⟩ := h
  have hprepared : Returns (tierDiscipline services shardId partition) (answer services)
      (manifest, none) (preparePublication services shardId partition tier.config tier.root source)
      store := by
    refine (returns_publishManifest huploaded).bind fun later hlater => ?_
    exact (returns_isRetry huploaded.groupSequence_eq (hends.later hlater)).bind fun _ _ => rfl
  exact hprepared.bind fun _ _ => rfl

end Retry

end ShardLog.Tier
