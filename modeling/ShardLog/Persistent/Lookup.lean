import ShardLog.Persistent.Planners

/-!
# Persistent index - Lookups and intersections

What the lookups of a directory return, in terms of the records of its blocks.  A
constraint of a query is a test of records; the posting list of a block under it
holds the ordinals of the records that pass the test.
-/

namespace ShardLog.Persistent

open ByteReader Utf8 AssocMap Sorted PersistentQueryIndex MessageTrigramFilter List

variable {tables : UnicodeTables} {R : Type} [StructuralRecordView R]
  {directory : PersistentQueryIndex} {blocks : List (SealedBlock tables R)}
  {block : SealedBlock tables R} {literals : List Str}

/-! ## Blocks by ordinal -/

/-- The directory merges the blocks, given in the order of their ordinals. -/
structure Merges (directory : PersistentQueryIndex) (blocks : List (SealedBlock tables R)) :
    Prop where
  sorted : StrictlySorted SealedBlock.ordinal blocks
  entries : MergesEntries directory (blocks.map SealedBlock.entry)
  trigrams : directory.messageTrigrams = blocks.map fun block => block.index.messageTrigrams
  aggregates : (directory.messageTrigramUnion, directory.messageTrigramIntersection) =
    aggregateMessageTrigrams directory.messageTrigrams
  valid : ∀ block ∈ blocks, block.metadata.Valid block.index

/-- The blocks in their order. -/
theorem Merges.metadata (h : Merges directory blocks) :
    directory.blocks = blocks.map SealedBlock.metadata :=
  h.entries.metadata.trans map_map

/-- A directory merges its blocks, ordered by their ordinals. -/
theorem fromBlocks_spec (laws : tables.Lawful)
    (h : fromBlocks (blocks.map SealedBlock.entry) = .ok directory) :
    Merges directory (sortBy SealedBlock.ordinal blocks) := by
  obtain ⟨_, hvalid, hdirectory⟩ := fromBlocks_eq_ok_iff.mp h
  have hentries := mergesEntries_of_fromBlocks h (forall_mem_map.mpr fun block hblock =>
    entryFits_of_build laws block.built (hvalid _ (mem_map_of_mem hblock)))
  have harranged : sortBy (fun block => block.1.blockOrdinal) (blocks.map SealedBlock.entry) =
      (sortBy SealedBlock.ordinal blocks).map SealedBlock.entry :=
    (map_sortBy SealedBlock.entry (fun block => block.1.blockOrdinal) blocks).symm
  rw [harranged] at hentries hdirectory
  subst hdirectory
  have hsorted := hentries.sorted
  rw [StrictlySorted, pairwise_map] at hsorted
  exact
    { sorted := hsorted
      entries := hentries
      trigrams := map_map
      aggregates := rfl
      valid := fun block hblock => hvalid block.entry (mem_map_of_mem (mem_sortBy.mp hblock)) }

/-- A block is found at its place. -/
theorem exists_position (h : Merges directory blocks) (hblock : block ∈ blocks) :
    ∃ position, directory.position block.ordinal = some position ∧
      blocks[position]? = some block := by
  have hsorted : StrictlySorted QueryBlockMetadata.blockOrdinal directory.blocks := by
    rw [h.metadata, StrictlySorted, pairwise_map]
    exact h.sorted
  have hmem : block.metadata ∈ directory.blocks := by
    rw [h.metadata]
    exact mem_map_of_mem hblock
  obtain ⟨position, hposition, hitem⟩ := findBy_of_mem hsorted hmem
  rw [h.metadata, getElem?_map] at hitem
  obtain ⟨other, hother, hmetadata⟩ := Option.map_eq_some_iff.mp hitem
  have hsame : other = block := h.sorted.eq_of_key_eq (mem_of_getElem? hother) hblock
    (congrArg QueryBlockMetadata.blockOrdinal hmetadata)
  exact ⟨position, hposition, hsame ▸ hother⟩

/-- A block is tested by its own filter. -/
theorem messageMightMatch_eq (h : Merges directory blocks) (hblock : block ∈ blocks)
    (slots : List Nat) :
    directory.messageMightMatch block.ordinal slots =
      block.index.messageTrigrams.mightContainAll slots := by
  obtain ⟨position, hposition, hitem⟩ := exists_position h hblock
  rw [messageMightMatch, hposition]
  simp only [h.trigrams, getElem?_map, hitem, Option.map_some, Option.any_some]

/-! ## Trigrams of the required literals -/

/-- The filter of the block reports every trigram of the literals. -/
def SealedBlock.passesTrigrams (block : SealedBlock tables R) (literals : List Str) : Bool :=
  block.index.messageTrigrams.mightContainAll (requiredMessageTrigramSlots tables literals)

section

variable (h : Merges directory blocks)

include h

theorem aggregates_eq :
    directory.messageTrigramUnion = (aggregateMessageTrigrams directory.messageTrigrams).1 ∧
      directory.messageTrigramIntersection =
        (aggregateMessageTrigrams directory.messageTrigrams).2 :=
  ⟨congrArg Prod.fst h.aggregates, congrArg Prod.snd h.aggregates⟩

/-- A literal that the union lacks is in no block. -/
theorem passesTrigrams_of_prepare_none
    (hnone : directory.prepareRequiredMessageTrigrams tables literals = none)
    (hblock : block ∈ blocks) :
    block.passesTrigrams literals = false := by
  rw [prepareRequiredMessageTrigrams] at hnone
  rw [Bool.eq_false_iff]
  intro hpasses
  have hunion : directory.messageTrigramUnion.mightContainAll
      (requiredMessageTrigramSlots tables literals) = true := by
    rw [mightContainAll_iff]
    intro slot hslot
    rw [(aggregates_eq h).1, reports_aggregate_union, h.trigrams]
    exact ⟨_, mem_map_of_mem hblock, mightContainAll_iff.mp hpasses slot hslot⟩
  rw [if_pos hunion] at hnone
  cases hnone

/-- The slots that every block reports need no check. -/
theorem messageMightMatch_prepared {slots : List Nat}
    (hsome : directory.prepareRequiredMessageTrigrams tables literals = some slots)
    (hblock : block ∈ blocks) :
    directory.messageMightMatch block.ordinal slots = block.passesTrigrams literals := by
  rw [prepareRequiredMessageTrigrams] at hsome
  split at hsome
  · cases hsome
    rw [messageMightMatch_eq h hblock, SealedBlock.passesTrigrams, Bool.eq_iff_iff,
      mightContainAll_iff, mightContainAll_iff]
    constructor
    · intro hleft slot hslot
      by_cases hevery : directory.messageTrigramIntersection.mightContainAll [slot] = true
      · have hreports := mightContainAll_iff.mp hevery slot mem_cons_self
        rw [(aggregates_eq h).2] at hreports
        apply reports_of_aggregate_intersection hreports
        rw [h.trigrams]
        exact mem_map_of_mem hblock
      · exact hleft slot (mem_filter.mpr ⟨hslot, by simpa using hevery⟩)
    · intro hall slot hslot
      exact hall slot (mem_filter.mp hslot).1
  · cases hsome

end

/-! ## Tests of records -/

/-- A key is among the keys of a record. -/
def carries {κ : Type} [DecidableEq κ] (keys : R → List κ) (key : κ) (record : R) : Bool :=
  decide (key ∈ keys record)

omit [StructuralRecordView R] in
theorem carries_iff {κ : Type} [DecidableEq κ] {keys : R → List κ} {key : κ} {record : R} :
    carries keys key record = true ↔ key ∈ keys record :=
  decide_eq_true_iff

/-- The record has a term with the index key of the required term. -/
def hasKey (tables : UnicodeTables) (term : Str) : R → Bool :=
  carries (fun record => messageKeys tables (structuralMessage record)) (normalizeTerm tables term)

/-- The record has the field. -/
def hasField (field : Str × Str) : R → Bool := carries recordFields field

/-- The tests of the required terms and fields. -/
def tests (R : Type) [StructuralRecordView R] (tables : UnicodeTables)
    (required : RequiredIndexConstraints) : List (R → Bool) :=
  required.terms.map (hasKey tables) ++ required.fields.map hasField

/-- The ordinals of the records that pass a test. -/
def SealedBlock.accepted (block : SealedBlock tables R) (accept : R → Bool) : List Nat :=
  (List.range block.records.length).filter fun ordinal => block.records[ordinal]?.any accept

variable {accept : R → Bool}

/-- The ordinals of accepted records. -/
theorem mem_accepted {ordinal : Nat} :
    ordinal ∈ block.accepted accept ↔
      ∃ record, block.records[ordinal]? = some record ∧ accept record = true := by
  rw [SealedBlock.accepted, mem_filter, mem_range]
  constructor
  · rintro ⟨_, hany⟩
    exact (Option.any_eq_true _ _).mp hany
  · grind

theorem mem_blocksOf {partition : TopicPartition} {block : SealedBlock tables R} :
    block ∈ blocksOf partition blocks ↔
      block ∈ blocks ∧ block.metadata.topicPartition = partition := by
  rw [blocksOf, mem_filter, decide_eq_true_eq]

/-- The block has a record for every test, not necessarily the same one. -/
def SealedBlock.hasAll (block : SealedBlock tables R) (tests : List (R → Bool)) : Bool :=
  tests.all fun accept => !(block.accepted accept).isEmpty

/-! ## The lists of a block -/

/-- The list holds the ordinals of the records that pass the test, and there are some. -/
def Lists (block : SealedBlock tables R) (accept : R → Bool) (posting : PostingList) : Prop :=
  posting.toVec = block.accepted accept ∧ block.accepted accept ≠ []

section Columns

variable {κ α : Type} [DecidableEq κ] {postings : List (κ × PostingList)} {keys : R → List κ}

/-- A key is a test of records. -/
theorem ordinalsWith_eq_accepted (block : SealedBlock tables R) (key : κ) :
    ordinalsWith (block.records.map keys) key = block.accepted (carries keys key) := by
  rw [ordinalsWith, length_map, SealedBlock.accepted]
  apply filter_congr
  intro ordinal hordinal
  have hlt := mem_range.mp hordinal
  simp [getD_eq_getElem?_getD, hlt, carries]

/-- The lists of a table under some keys, unless no record has one of them. -/
theorem lookupAll_table (htable : PostingTable postings (block.records.map keys))
    (required : List α) (key : α → κ) :
    (lookupAll (fun item => get postings (key item)) required = none ∧
        ∃ accept ∈ required.map fun item => carries keys (key item), block.accepted accept = []) ∨
      ∃ lists, lookupAll (fun item => get postings (key item)) required = some lists ∧
        Forall₂ (Lists block) (required.map fun item => carries keys (key item)) lists := by
  cases hlookup : lookupAll (fun item => get postings (key item)) required with
  | none =>
    obtain ⟨item, hitem, hmissing⟩ := exists_of_lookupAll_eq_none hlookup
    refine .inl ⟨rfl, _, mem_map_of_mem hitem, ?_⟩
    rw [← ordinalsWith_eq_accepted]
    exact htable.get_none _ hmissing
  | some lists =>
    refine .inr ⟨lists, rfl, forall₂_map_left_iff.mpr ?_⟩
    refine (lookupAll_eq_some_iff.mp hlookup).imp fun item posting hget => ?_
    obtain ⟨_, hvec, hne⟩ := htable.get_some _ posting hget
    rw [ordinalsWith_eq_accepted] at hvec hne
    exact ⟨hvec, hne⟩

end Columns

/-- The lists of a block stand for the tests, unless one has no record there. -/
theorem entryLists_spec (laws : tables.Lawful) (block : SealedBlock tables R)
    (required : RequiredIndexConstraints) :
    (entryLists tables required block.index = none ∧
        ∃ accept ∈ tests R tables required, block.accepted accept = []) ∨
      ∃ lists, entryLists tables required block.index = some lists ∧
        Forall₂ (Lists block) (tests R tables required) lists := by
  have hindexes := build_spec laws block.built
  rw [entryLists]
  rcases lookupAll_table hindexes.terms required.terms (normalizeTerm tables) with
    ⟨hnone, accept, haccept, hempty⟩ | ⟨terms, hterms, hterms'⟩
  · exact .inl ⟨by rw [hnone]; rfl, accept, mem_append_left _ haccept, hempty⟩
  · rcases lookupAll_table hindexes.fields required.fields id with
      ⟨hnone, accept, haccept, hempty⟩ | ⟨fields, hfields, hfields'⟩
    · refine .inl ⟨?_, accept, mem_append_right _ haccept, hempty⟩
      rw [hterms, Option.bind_some]
      exact Option.map_eq_none_iff.mpr hnone
    · refine .inr ⟨terms ++ fields, ?_, rel_append hterms' hfields'⟩
      rw [hterms, Option.bind_some]
      exact Option.map_eq_some_iff.mpr ⟨fields, hfields, rfl⟩

/-- A block has a list under every key exactly when it has a record for every test. -/
theorem isSome_entryLists_eq_hasAll (laws : tables.Lawful) (block : SealedBlock tables R)
    (required : RequiredIndexConstraints) :
    (entryLists tables required block.index).isSome = block.hasAll (tests R tables required) := by
  rcases entryLists_spec laws block required with ⟨hnone, accept, haccept, hempty⟩ |
    ⟨lists, hsome, hall⟩
  · rw [hnone, SealedBlock.hasAll]
    exact (all_eq_false.mpr ⟨accept, haccept, by simp [hempty]⟩).symm
  · rw [hsome, SealedBlock.hasAll]
    refine (all_eq_true.mpr fun accept haccept => ?_).symm
    obtain ⟨_, _, _, hne⟩ := forall₂_mem hall haccept
    simpa [List.isEmpty_iff] using hne

/-- An ordinal is in every list exactly when its record passes every test. -/
theorem all_lists_eq {accepts : List (R → Bool)} {lists : List PostingList}
    (h : Forall₂ (Lists block) accepts lists) {ordinal : Nat} {record : R}
    (hrecord : block.records[ordinal]? = some record) :
    (lists.all fun posting => decide (ordinal ∈ posting.toVec)) =
      accepts.all fun accept => accept record := by
  induction h with
  | nil => rfl
  | cons hlists _ ih =>
    rw [all_cons, all_cons, ih, hlists.1, Bool.eq_iff_iff (b := _ && _)]
    simp [mem_accepted, hrecord]

end ShardLog.Persistent
