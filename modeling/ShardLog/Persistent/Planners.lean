import Mathlib.Data.Fintype.Card
import ShardLog.Persistent.Directory
import ShardLog.Persistent.PostingCodec

/-!
# Persistent index - The planners of a directory

Candidate records, candidate blocks and the candidate records of one block are
planned by three functions with their own early exits.  They come to the posting
lists that each block was entered with, whatever records the block has.
-/

namespace ShardLog.Persistent

open List hiding erase get insert

open ByteReader AssocMap Sorted Merge PersistentQueryIndex BlockPosting PostingList

/-! ## Entries that fit their block -/

/-- A map of posting lists of a block. -/
structure PostingsFit {κ : Type} (recordCount : Nat) (entries : List (κ × PostingList)) :
    Prop where
  nodup : (entries.map Prod.fst).Nodup
  fits : ∀ entry ∈ entries, entry.2.Fits recordCount

/-- Postings of documents fit. -/
theorem postingsFit_of_postingTable {κ : Type} [DecidableEq κ] {postings : List (κ × PostingList)}
    {documents : List (List κ)} (h : PostingTable postings documents) :
    PostingsFit documents.length postings := by
  refine ⟨h.nodup, fun entry hentry => ?_⟩
  obtain ⟨hwell, hvec, hne⟩ := h.get_some entry.1 entry.2 ((mem_iff_get h.nodup).mp hentry)
  refine ⟨hwell, hvec ▸ hne, fun ordinal hordinal => ?_⟩
  rw [hvec] at hordinal
  exact (mem_ordinalsWith.mp hordinal).1

/-- The posting lists of an entry name records of its block. -/
structure EntryFits (entry : BlockEntry) : Prop where
  recordCount_lt : entry.1.recordCount < 2 ^ 32
  terms : PostingsFit entry.1.recordCount entry.2.termPostings
  fields : PostingsFit entry.1.recordCount entry.2.fieldPostings

variable {tables : UnicodeTables} {entry : BlockEntry} {directory : PersistentQueryIndex}
  {entries : List BlockEntry} {α : Type} {ordinal : BlockOrdinal} {posting : PostingList}
  {postings : List PostingList} {query : LogQuery} {required : RequiredIndexConstraints}
  {columns : List (List BlockPosting)}

/-- A built index fits its block. -/
theorem entryFits_of_build (laws : tables.Lawful) {R : Type} [StructuralRecordView R]
    {records : List R} (hindex : BlockQueryIndex.build tables records = .ok entry.2)
    (hvalid : entry.1.Valid entry.2) : EntryFits entry := by
  have hindexes := build_spec laws hindex
  have hcount : entry.1.recordCount = records.length := hvalid.1.trans hindexes.recordCount
  have hterms := postingsFit_of_postingTable hindexes.terms
  have hfields := postingsFit_of_postingTable hindexes.fields
  rw [length_map, ← hcount] at hterms hfields
  exact ⟨hcount ▸ hindexes.recordCount_lt, hterms, hfields⟩

/-- The entries of one partition. -/
def entriesOf (partition : TopicPartition) (entries : List BlockEntry) :
    List BlockEntry :=
  entries.filter fun entry => decide (entry.1.topicPartition = partition)

/-- The directory merges entries that fit, given in the order of their ordinals. -/
structure MergesEntries (directory : PersistentQueryIndex)
    (entries : List BlockEntry) : Prop where
  sorted : StrictlySorted (fun entry => entry.1.blockOrdinal) entries
  metadata : directory.blocks = entries.map Prod.fst
  partitions : ∀ partition, get directory.partitionBlocks partition =
    listed ((entriesOf partition entries).map fun entry => entry.1.blockOrdinal)
  terms : ∀ partition key, get directory.termPostings (partition, key) =
    listed (entryColumn BlockQueryIndex.termPostings entries partition key)
  fields : ∀ partition key, get directory.fieldPostings (partition, key) =
    listed (entryColumn BlockQueryIndex.fieldPostings entries partition key)
  fits : ∀ entry ∈ entries, EntryFits entry

/-- What a directory was merged from. -/
theorem mergesEntries_of_fromBlocks (h : fromBlocks entries = .ok directory)
    (hfits : ∀ entry ∈ entries, EntryFits entry) :
    MergesEntries directory (sortBy (fun entry => entry.1.blockOrdinal) entries) := by
  obtain ⟨hsorted, _, rfl⟩ := fromBlocks_eq_ok_iff.mp h
  have hall : ∀ entry ∈ sortBy (fun entry => entry.1.blockOrdinal) entries, EntryFits entry :=
    fun entry hentry => hfits entry (mem_sortBy.mp hentry)
  exact
    { sorted := hsorted
      metadata := rfl
      partitions := fun partition => get_groupBy_partitions _ _
      terms := fun partition key =>
        get_groupBy_blockEntries (fun entry hentry => (hall entry hentry).terms.nodup) _ _
      fields := fun partition key =>
        get_groupBy_blockEntries (fun entry hentry => (hall entry hentry).fields.nodup) _ _
      fits := hall }

/-! ## Lookups -/

theorem listed_eq_some_iff {items result : List α} :
    listed items = some result ↔ items = result ∧ items ≠ [] := by
  cases items with
  | nil => simp [listed]
  | cons item rest => simp [listed]

theorem listed_getD (items : List α) : (listed items).getD [] = items := by
  cases items with
  | nil => rfl
  | cons item rest => rfl

/-- A column is searched by block. -/
theorem postingForBlock_eq_some_iff {postings : List BlockPosting}
    (hsorted : StrictlySorted blockOrdinal postings) :
    postingForBlock postings ordinal = some posting ↔ ⟨ordinal, posting⟩ ∈ postings := by
  unfold postingForBlock
  constructor
  · intro h
    obtain ⟨position, hposition, h⟩ := Option.bind_eq_some_iff.mp h
    obtain ⟨item, hitem, hordinal⟩ := findBy_eq_some hposition
    rw [hitem] at h
    cases h
    subst hordinal
    exact mem_of_getElem? hitem
  · grind [findBy_of_mem]

section Columns

variable {κ : Type} [DecidableEq κ] {postings : BlockQueryIndex → List (κ × PostingList)}
  {partition : TopicPartition} {key : κ}

/-- The column of a key. -/
theorem mem_entryColumn :
    ⟨ordinal, posting⟩ ∈ entryColumn postings entries partition key ↔
      ∃ entry ∈ entries, entry.1.topicPartition = partition ∧ entry.1.blockOrdinal = ordinal ∧
        get (postings entry.2) key = some posting := by
  simp only [entryColumn, mem_filterMap]
  constructor
  · rintro ⟨entry, hentry, h⟩
    split at h
    · rename_i hpartition
      obtain ⟨found, hfound, heq⟩ := Option.map_eq_some_iff.mp h
      cases heq
      exact ⟨entry, hentry, hpartition, rfl, hfound⟩
    · cases h
  · grind

section

variable (hsorted : StrictlySorted (fun entry => entry.1.blockOrdinal) entries)

include hsorted

/-- Columns are sorted by block. -/
theorem strictlySorted_entryColumn (partition : TopicPartition) (key : κ) :
    StrictlySorted blockOrdinal (entryColumn postings entries partition key) := by
  refine Pairwise.filterMap _ ?_ hsorted
  intro left right hlt first hfirst second hsecond
  split at hfirst
  · split at hsecond
    · obtain ⟨_, _, rfl⟩ := Option.map_eq_some_iff.mp hfirst
      obtain ⟨_, _, rfl⟩ := Option.map_eq_some_iff.mp hsecond
      exact hlt
    · cases hsecond
  · cases hfirst

/-- What a column has for a block is what the block was entered with. -/
theorem listed_bind_postingForBlock (hentry : entry ∈ entriesOf partition entries) (key : κ) :
    ((listed (entryColumn postings entries partition key)).bind fun column =>
      postingForBlock column entry.1.blockOrdinal) = get (postings entry.2) key := by
  obtain ⟨hmem, hpartition⟩ := mem_filter.mp hentry
  ext posting
  rw [Option.bind_eq_some_iff]
  constructor
  · rintro ⟨column, hcolumn, hfound⟩
    obtain ⟨rfl, _⟩ := listed_eq_some_iff.mp hcolumn
    rw [postingForBlock_eq_some_iff (strictlySorted_entryColumn hsorted _ _),
      mem_entryColumn] at hfound
    obtain ⟨other, hother, _, hordinal, hget⟩ := hfound
    rwa [hsorted.eq_of_key_eq hother hmem hordinal] at hget
  · intro hget
    have hin : ⟨entry.1.blockOrdinal, posting⟩ ∈ entryColumn postings entries partition key :=
      mem_entryColumn.mpr ⟨entry, hmem, of_decide_eq_true hpartition, rfl, hget⟩
    exact ⟨_, listed_eq_some_iff.mpr ⟨rfl, ne_nil_of_mem hin⟩,
      (postingForBlock_eq_some_iff (strictlySorted_entryColumn hsorted _ _)).mpr hin⟩

end

end Columns

section LookupAll

variable {κ μ ν : Type} {lookup : κ → Option ν} {keys : List κ} {values : List ν}

/-- All keys are found. -/
theorem lookupAll_eq_some_iff :
    lookupAll lookup keys = some values ↔
      Forall₂ (fun key value => lookup key = some value) keys values := by
  induction keys generalizing values with
  | nil => simp [lookupAll, eq_comm]
  | cons key rest ih =>
    simp only [lookupAll, Option.bind_eq_some_iff, Option.map_eq_some_iff, forall₂_cons_left_iff]
    constructor
    · grind
    · grind

theorem forall_mem_of_lookupAll {property : ν → Prop}
    (hlookup : lookupAll lookup keys = some values)
    (h : ∀ key value, lookup key = some value → property value) :
    ∀ value ∈ values, property value := by
  intro value hvalue
  obtain ⟨key, _, hget⟩ := forall₂_mem (lookupAll_eq_some_iff.mp hlookup).flip hvalue
  exact h key value hget

theorem lookupAll_bind (first : κ → Option μ) (second : μ → Option ν) (keys : List κ) :
    lookupAll (fun key => (first key).bind second) keys =
      (lookupAll first keys).bind (lookupAll second) := by
  induction keys with
  | nil => rfl
  | cons key rest ih =>
    simp only [lookupAll, ih]
    cases first key with
    | none => rfl
    | some middle => cases lookupAll first rest <;> simp [lookupAll]

theorem lookupAll_append (lookup : κ → Option ν) (keys more : List κ) :
    lookupAll lookup (keys ++ more) = (lookupAll lookup keys).bind fun values =>
      (lookupAll lookup more).map (values ++ ·) := by
  induction keys with
  | nil => simp [lookupAll]
  | cons key rest ih =>
    simp only [cons_append, lookupAll, ih]
    cases lookup key with
    | none => rfl
    | some value => cases lookupAll lookup rest <;> simp [Function.comp_def]

/-- Every key has to be found. -/
theorem isSome_lookupAll (lookup : κ → Option ν) (keys : List κ) :
    (lookupAll lookup keys).isSome = keys.all fun key => (lookup key).isSome := by
  induction keys with
  | nil => rfl
  | cons key rest ih =>
    rw [lookupAll, all_cons, ← ih]
    cases lookup key with
    | none => rfl
    | some value => simp

/-- Some key is missing. -/
theorem exists_of_lookupAll_eq_none (h : lookupAll lookup keys = none) :
    ∃ key ∈ keys, lookup key = none := by
  have hsome := isSome_lookupAll lookup keys
  simpa [h] using hsome

/-- Looking keys up in another order finds the same values. -/
theorem lookupAll_perm {others : List κ} (hperm : others.Perm keys)
    (h : lookupAll lookup keys = some values) :
    ∃ arranged, lookupAll lookup others = some arranged ∧ arranged.Perm values := by
  obtain ⟨arranged, hall, hsame⟩ := perm_comp_forall₂ hperm (lookupAll_eq_some_iff.mp h)
  exact ⟨arranged, lookupAll_eq_some_iff.mpr hall, hsame⟩

end LookupAll

/-- The lists of one block under the required terms and fields. -/
def entryLists (tables : UnicodeTables) (required : RequiredIndexConstraints)
    (index : BlockQueryIndex) : Option (List PostingList) :=
  (lookupAll (fun term => get index.termPostings (normalizeTerm tables term))
    required.terms).bind fun terms =>
    (lookupAll (get index.fieldPostings) required.fields).map fun fields => terms ++ fields

theorem EntryFits.lists (h : EntryFits entry) {required : RequiredIndexConstraints}
    (hlists : entryLists tables required entry.2 = some postings) :
    ∀ posting ∈ postings, posting.Fits entry.1.recordCount := by
  obtain ⟨terms, hterms, hrest⟩ := Option.bind_eq_some_iff.mp hlists
  obtain ⟨fields, hfields, rfl⟩ := Option.map_eq_some_iff.mp hrest
  exact forall_mem_append.mpr
    ⟨forall_mem_of_lookupAll hterms fun _ _ hget => h.terms.fits _ (mem_of_get hget),
      forall_mem_of_lookupAll hfields fun _ _ hget => h.fields.fits _ (mem_of_get hget)⟩

/-- The lists looked up for a block are those of the columns. -/
theorem blockConstraints_eq_bind :
    directory.blockConstraints tables query required ordinal =
      (directory.constraints tables query required).bind
        (lookupAll fun column => postingForBlock column ordinal) := by
  rw [blockConstraints, constraints, lookupAll_bind, lookupAll_bind]
  cases lookupAll (fun term => get directory.termPostings
      (query.topicPartition, normalizeTerm tables term)) required.terms with
  | none => rfl
  | some terms =>
    cases lookupAll (fun field => get directory.fieldPostings (query.topicPartition, field))
        required.fields with
    | none => simp
    | some fields => simp [lookupAll_append]

section Merged

variable (h : MergesEntries directory entries)

include h

/-- A block is asked for its own postings. -/
theorem blockConstraints_eq (hentry : entry ∈ entriesOf query.topicPartition entries) :
    directory.blockConstraints tables query required entry.1.blockOrdinal =
      entryLists tables required entry.2 := by
  rw [blockConstraints, entryLists]
  simp only [h.terms, h.fields, listed_bind_postingForBlock h.sorted hentry]

/-- Blocks are found by ordinal. -/
theorem MergesEntries.block_eq_some_iff {metadata : QueryBlockMetadata} :
    directory.block ordinal = some metadata ↔
      ∃ index, (metadata, index) ∈ entries ∧ metadata.blockOrdinal = ordinal := by
  have hsorted : StrictlySorted QueryBlockMetadata.blockOrdinal directory.blocks := by
    rw [h.metadata]
    exact pairwise_map.mpr h.sorted
  have hmem : metadata ∈ directory.blocks ↔ ∃ index, (metadata, index) ∈ entries := by
    simp [h.metadata]
  rw [PersistentQueryIndex.block, PersistentQueryIndex.position, findBy_bind_getElem?_iff hsorted,
    hmem, exists_and_right]

/-! ## Blocks common to all columns -/

/-- A column in the order of the ordinals, with blocks of the partition. -/
structure InOrder (entries : List BlockEntry)
    (partition : TopicPartition) (column : List BlockPosting) : Prop where
  sorted : StrictlySorted blockOrdinal column
  entered : ∀ posting ∈ column, ∃ entry ∈ entriesOf partition entries,
    entry.1.blockOrdinal = posting.blockOrdinal

theorem inOrder_of_listed {κ : Type} [DecidableEq κ]
    {postings : BlockQueryIndex → List (κ × PostingList)} {partition : TopicPartition} {key : κ}
    {column : List BlockPosting}
    (hcolumn : listed (entryColumn postings entries partition key) = some column) :
    InOrder entries partition column := by
  obtain ⟨rfl, _⟩ := listed_eq_some_iff.mp hcolumn
  refine ⟨strictlySorted_entryColumn h.sorted _ _, fun posting hposting => ?_⟩
  obtain ⟨entry, hentry, hpartition, hordinal, _⟩ := mem_entryColumn.mp hposting
  exact ⟨entry, mem_filter.mpr ⟨hentry, decide_eq_true hpartition⟩, hordinal⟩

section

variable (hcolumns : directory.constraints tables query required = some columns)

include hcolumns

/-- Columns follow the blocks. -/
theorem inOrder_of_constraints :
    ∀ column ∈ columns, InOrder entries query.topicPartition column := by
  obtain ⟨terms, hterms, hrest⟩ := Option.bind_eq_some_iff.mp hcolumns
  obtain ⟨fields, hfields, rfl⟩ := Option.map_eq_some_iff.mp hrest
  simp only [h.terms] at hterms
  simp only [h.fields] at hfields
  exact forall_mem_append.mpr ⟨forall_mem_of_lookupAll hterms fun _ _ => inOrder_of_listed h,
      forall_mem_of_lookupAll hfields fun _ _ => inOrder_of_listed h⟩

/-- The columns have a list for a block exactly when it was entered with one. -/
theorem isSome_entryLists (hentry : entry ∈ entriesOf query.topicPartition entries) :
    (entryLists tables required entry.2).isSome = columns.all fun column =>
      decide (entry.1.blockOrdinal ∈ column.map blockOrdinal) := by
  rw [← blockConstraints_eq h hentry, blockConstraints_eq_bind, hcolumns, Option.bind_some,
    isSome_lookupAll, Bool.eq_iff_iff, all_eq_true, all_eq_true]
  refine forall₂_congr fun column hcolumn => ?_
  have hsorted := (inOrder_of_constraints h hcolumns column hcolumn).sorted
  rw [Option.isSome_iff_exists, decide_eq_true_eq, mem_map]
  simp only [postingForBlock_eq_some_iff hsorted]
  constructor
  · rintro ⟨posting, hposting⟩
    exact ⟨_, hposting, rfl⟩
  · rintro ⟨posting, hposting, hordinal⟩
    exact ⟨posting.recordOrdinals, hordinal ▸ hposting⟩

/-- The blocks common to the columns are those entered with every key. -/
theorem commonBlocks_of_constraints :
    directory.commonBlocks query columns =
      ((entriesOf query.topicPartition entries).filter fun entry =>
        (entryLists tables required entry.2).isSome).map fun entry => entry.1.blockOrdinal := by
  have horder := inOrder_of_constraints h hcolumns
  have hperm := perm_sortBy List.length columns
  have hkeep := filter_congr fun entry hentry =>
    @isSome_entryLists _ entry _ _ _ _ _ h hcolumns hentry
  rw [commonBlocks, hkeep]
  cases hcase : sortBy List.length columns with
  | nil =>
    -- without columns every block of the partition is common
    rw [hcase] at hperm
    rw [hperm.nil_eq.symm, h.partitions]
    simp [listed_getD]
  | cons first rest =>
    rw [hcase] at hperm
    have hmem : ∀ column, column ∈ columns ↔ column = first ∨ column ∈ rest := fun column =>
      hperm.mem_iff.symm.trans mem_cons
    have hfirst := horder first ((hmem first).mpr (.inl rfl))
    have hstart : (first.map blockOrdinal).Pairwise (· < ·) := pairwise_map.mpr hfirst.sorted
    have hentries : (((entriesOf query.topicPartition entries).filter fun entry =>
        columns.all fun column => decide (entry.1.blockOrdinal ∈ column.map blockOrdinal)).map
            fun entry => entry.1.blockOrdinal).Pairwise (· < ·) :=
      pairwise_map.mpr ((h.sorted.filter _).filter _)
    have hfold : rest.foldl intersectBlockOrdinals (first.map blockOrdinal) =
        (first.map blockOrdinal).filter fun ordinal => rest.all fun column =>
          decide (ordinal ∈ column.map blockOrdinal) := by
      refine foldl_eq_filter_all ?_ hstart
      intro candidates hcandidates column hcolumn
      exact mergeIntersect_eq hcandidates (horder column ((hmem column).mpr (.inr hcolumn))).sorted
    dsimp only
    rw [hfold]
    apply Pairwise.eq_of_mem_iff (hstart.filter _) hentries
    intro ordinal
    simp only [mem_filter, all_eq_true, decide_eq_true_eq, mem_map (f := fun
      entry : BlockEntry => entry.1.blockOrdinal)]
    constructor
    · rintro ⟨hin, hrest⟩
      obtain ⟨posting, hposting, hordinal⟩ := mem_map.mp hin
      obtain ⟨entry, hentry, hsame⟩ := hfirst.entered posting hposting
      refine ⟨entry, ⟨hentry, fun column hcolumn => ?_⟩, hsame.trans hordinal⟩
      rw [hsame.trans hordinal]
      rcases (hmem column).mp hcolumn with rfl | hlater
      · exact hin
      · exact hrest column hlater
    · rintro ⟨entry, ⟨_, hall⟩, rfl⟩
      exact ⟨hall first ((hmem first).mpr (.inl rfl)), fun column hcolumn =>
        hall column ((hmem column).mpr (.inr hcolumn))⟩

end

/-- The query looks into the blocks of its partition that overlap it and pass the
trigram filter. -/
def visitedEntries (directory : PersistentQueryIndex) (query : LogQuery) (slots : List Nat)
    (entries : List BlockEntry) :
    List BlockEntry :=
  (entriesOf query.topicPartition entries).filter fun entry =>
    blockOverlaps query entry.1 && directory.messageMightMatch entry.1.blockOrdinal slots

theorem MergesEntries.block_eq_some (hentry : entry ∈ entries) :
    directory.block entry.1.blockOrdinal = some entry.1 :=
  h.block_eq_some_iff.mpr ⟨entry.2, hentry, rfl⟩

/-- Blocks with every required posting. -/
theorem retainedBlocks_of_constraints
    (hcolumns : directory.constraints tables query required = some columns) (slots : List Nat) :
    directory.retainedBlocks query columns slots =
      ((visitedEntries directory query slots entries).filter fun entry =>
        (entryLists tables required entry.2).isSome).map fun entry => entry.1.blockOrdinal := by
  rw [retainedBlocks, commonBlocks_of_constraints h hcolumns,
    filter_map, visitedEntries, filter_comm]
  congr 2
  apply filter_congr
  intro entry hentry
  rw [Function.comp_apply, h.block_eq_some (mem_filter.mp hentry).1, Option.any_some]

end Merged

/-! ## Records common to all lists of a block -/

/-- The ordinals that every list holds. -/
def commonOrdinals (recordCount : Nat) (postings : List PostingList) : List Nat :=
  (List.range recordCount).filter fun ordinal =>
    postings.all fun posting => decide (ordinal ∈ posting.toVec)

/-- The order of intersection does not matter. -/
theorem commonOrdinals_perm {arranged : List PostingList} (hperm : arranged.Perm postings)
    (recordCount : Nat) :
    commonOrdinals recordCount arranged = commonOrdinals recordCount postings := by
  apply filter_congr
  intro ordinal _
  exact hperm.all_eq

section Records

variable {recordCount : Nat} {postings : List PostingList}

/-- The common ordinals. -/
theorem foldl_intersectPosting (hpostings : ∀ posting ∈ postings, posting.WellFormed)
    {candidates : List Nat} (hcandidates : candidates.Pairwise (· < ·)) :
    postings.foldl intersectPosting candidates = candidates.filter fun ordinal =>
      postings.all fun posting => decide (ordinal ∈ posting.toVec) := by
  refine foldl_eq_filter_all ?_ hcandidates
  intro candidates hcandidates posting hposting
  exact intersectPosting_eq hcandidates (hpostings posting hposting)

variable (hfits : ∀ posting ∈ postings, posting.Fits recordCount)

include hfits

/-- The first list of an arrangement, reduced to what the others hold, is what all
hold. -/
theorem filter_first_eq {first : PostingList} {rest : List PostingList}
    (hperm : (first :: rest).Perm postings) :
    (first.toVec.filter fun ordinal => rest.all fun posting =>
      decide (ordinal ∈ posting.toVec)) = commonOrdinals recordCount postings := by
  have hfirst := hfits first (hperm.mem_iff.mp mem_cons_self)
  rw [← commonOrdinals_perm hperm]
  apply Pairwise.eq_of_mem_iff (hfirst.wellFormed.pairwise.filter _) (pairwise_lt_range.filter _)
  intro ordinal
  simp only [mem_filter, all_cons, Bool.and_eq_true, decide_eq_true_eq, mem_range]
  constructor
  · rintro ⟨hin, hrest⟩
    exact ⟨hfirst.bounded ordinal hin, hin, hrest⟩
  · rintro ⟨_, hin, hrest⟩
    exact ⟨hin, hrest⟩

/-- Every loop returns the first common ordinals. -/
theorem intersectRecords_eq (hne : postings ≠ []) (newestFirst : Bool) {remaining : Nat}
    (hremaining : 0 < remaining) :
    intersectRecords newestFirst remaining postings =
      (orient newestFirst (commonOrdinals recordCount postings)).take remaining := by
  match postings, hne with
  | [only], _ =>
    have honly := filter_first_eq hfits (Perm.refl [only])
    simp only [all_nil, filter_true] at honly
    rw [intersectRecords, takeOrdered_eq _ _ hremaining, honly]
  | one :: two :: more, _ =>
    have hperm := perm_sortBy cardinality (one :: two :: more)
    simp only [intersectRecords]
    cases hcase : sortBy cardinality (one :: two :: more) with
    | nil =>
      rw [hcase] at hperm
      exact absurd hperm.length_eq (by simp)
    | cons first rest =>
      rw [hcase] at hperm
      have hwell : ∀ posting ∈ first :: rest, posting.WellFormed := fun posting hposting =>
        (hfits posting (hperm.mem_iff.mp hposting)).wellFormed
      have hrest := forall_mem_of_forall_mem_cons hwell
      dsimp only
      split
      · rw [intersectPostingsLimited_eq hrest newestFirst hremaining, filter_first_eq hfits hperm]
      · rw [foldl_intersectPosting hrest (hwell first mem_cons_self).pairwise,
          filter_first_eq hfits hperm]

end Records

/-- The query reads from the newest end. -/
def newestFirst (query : LogQuery) : Bool := decide (query.order = .newestFirst)

/-- The candidates of one block by its own lists. -/
def entryHits (tables : UnicodeTables) (query : LogQuery)
    (entry : BlockEntry) : List QueryHit :=
  match entryLists tables query.requiredIndexConstraints entry.2 with
  | none => []
  | some postings => (orient (newestFirst query)
      (commonOrdinals entry.1.recordCount postings)).map (QueryHit.mk entry.1.blockOrdinal)

/-- A block without a required posting has no candidates. -/
theorem entryHits_eq_nil
    (h : (entryLists tables query.requiredIndexConstraints entry.2).isSome = false) :
    entryHits tables query entry = [] := by
  rw [entryHits, Option.isSome_eq_false_iff.mp h |> Option.isNone_iff_eq_none.mp]

theorem length_entryHits_le (entry : BlockEntry) :
    (entryHits tables query entry).length ≤ entry.1.recordCount := by
  rw [entryHits]
  split
  · exact Nat.zero_le _
  · rw [length_map, length_orient, commonOrdinals]
    exact (length_filter_le _ _).trans_eq length_range

/-- The slots that the trigram filters are checked for; none if no block has them. -/
abbrev slotsOf (tables : UnicodeTables) (directory : PersistentQueryIndex) (query : LogQuery) :
    Option (List Nat) :=
  directory.prepareRequiredMessageTrigrams tables query.requiredIndexConstraints.messageLiterals

/-- The query is answered without a look at the blocks. -/
def Vacuous (query : LogQuery) : Prop :=
  query.limit = some 0 ∨ query.hasInvalidRange = true ∨
    query.requiredIndexConstraints.impossible = true

instance (query : LogQuery) : Decidable (Vacuous query) := inferInstanceAs (Decidable (_ ∨ _ ∨ _))

/-- A vacuous query has no plan. -/
theorem plan_of_vacuous (hquery : Vacuous query) : directory.plan tables query = none := by
  rw [plan]
  rcases hquery with hlimit | hrange | himpossible
  · simp [hlimit]
  · simp [hrange]
  · rw [if_pos himpossible]
    split
    · rfl
    · rfl

theorem plan_of_not_vacuous (hquery : ¬Vacuous query) : directory.plan tables query =
    (slotsOf tables directory query).bind fun slots =>
      (directory.constraints tables query query.requiredIndexConstraints).map fun constraints =>
        (slots, constraints) := by
  obtain ⟨hlimit, hrest⟩ := not_or.mp hquery
  obtain ⟨hrange, hpossible⟩ := not_or.mp hrest
  rw [plan, if_neg (by simp [hlimit, hrange]), if_neg hpossible]

/-- Other queries have room for a record. -/
theorem safeLimit_pos (h : ¬Vacuous query) : 0 < safeLimit query := by
  rw [safeLimit]
  split
  · cases hlimit : query.limit with
    | none => exact Nat.lt_of_lt_of_le Nat.one_pos (by decide)
    | some limit =>
      have hne : limit ≠ 0 := by
        rintro rfl
        exact h (.inl hlimit)
      exact Nat.pos_of_ne_zero hne
  · exact Nat.lt_of_lt_of_le Nat.one_pos (by decide)

section Plans

variable {slots : List Nat} (h : MergesEntries directory entries) (hquery : ¬Vacuous query)

include h

/-- The candidates of a block of the columns, up to what remains of the limit. -/
theorem hitsOfBlock_of_constraints (hcolumns : directory.constraints tables query
      query.requiredIndexConstraints = some columns)
    (hentry : entry ∈ entriesOf query.topicPartition entries)
    (hlists : (entryLists tables query.requiredIndexConstraints entry.2).isSome = true)
    {remaining : Nat} (hremaining : 0 < remaining) :
    directory.hitsOfBlock query columns entry.1.blockOrdinal remaining =
      (entryHits tables query entry).take remaining := by
  obtain ⟨postings, hpostings⟩ := Option.isSome_iff_exists.mp hlists
  have hmem := (mem_filter.mp hentry).1
  have hlookup := hpostings
  rw [← blockConstraints_eq h hentry, blockConstraints_eq_bind, hcolumns,
    Option.bind_some] at hlookup
  obtain ⟨arranged, harranged, hperm⟩ := lookupAll_perm (perm_sortBy List.length columns) hlookup
  have hfits : ∀ posting ∈ arranged, posting.Fits entry.1.recordCount := fun posting hposting =>
    (h.fits entry hmem).lists hpostings posting (hperm.mem_iff.mp hposting)
  rw [hitsOfBlock, h.block_eq_some hmem, entryHits, hpostings, ← map_take,
    recordConstraints, harranged, Option.getD_some,
    ← commonOrdinals_perm hperm]
  dsimp only
  congr 1
  have hlength := (lookupAll_eq_some_iff.mp harranged).length_eq
  rw [(perm_sortBy List.length columns).length_eq] at hlength
  cases columns with
  | nil =>
    rw [length_eq_zero_iff.mp hlength.symm, commonOrdinals]
    simp [newestFirst]
  | cons first rest =>
    have hne : arranged ≠ [] := by
      rintro rfl
      cases hlength
    exact intersectRecords_eq hfits hne _ hremaining

/-- The visited entries with a list under every key. -/
def retainedEntries (tables : UnicodeTables) (directory : PersistentQueryIndex) (query : LogQuery)
    (slots : List Nat) (entries : List BlockEntry) :
    List BlockEntry :=
  (visitedEntries directory query slots entries).filter fun entry =>
    (entryLists tables query.requiredIndexConstraints entry.2).isSome

variable (hslots : slotsOf tables directory query = some slots)

include hquery hslots

/-- Without a plan no entry is retained. -/
theorem plan_cases :
    (directory.plan tables query = none ∧
        retainedEntries tables directory query slots entries = []) ∨
      ∃ columns, directory.plan tables query = some (slots, columns) ∧
        directory.constraints tables query query.requiredIndexConstraints = some columns := by
  rw [plan_of_not_vacuous hquery, hslots, Option.bind_some]
  cases hcolumns : directory.constraints tables query query.requiredIndexConstraints with
  | none =>
    left
    refine ⟨rfl, filter_eq_nil_iff.mpr fun entry hentry => ?_⟩
    rw [← blockConstraints_eq h (mem_filter.mp hentry).1, blockConstraints_eq_bind, hcolumns]
    simp
  | some columns => exact .inr ⟨columns, rfl, rfl⟩

/-- The candidate records are those of the retained blocks, cut at the safe limit. -/
theorem candidateHits_of_slots :
    directory.candidateHits tables query =
      ((orient (newestFirst query) (retainedEntries tables directory query slots entries)).flatMap
        (entryHits tables query)).take (safeLimit query) := by
  rw [candidateHits]
  rcases plan_cases h hquery hslots with ⟨hplan, hnone⟩ | ⟨columns, hplan, hcolumns⟩
  · simp [hplan, hnone, orient_nil]
  · have hpiece : ∀ entry ∈ orient (newestFirst query)
        (retainedEntries tables directory query slots entries), ∀ remaining, 0 < remaining →
          (directory.hitsOfBlock query columns entry.1.blockOrdinal remaining).take remaining =
            (entryHits tables query entry).take remaining := by
      intro entry hentry remaining hremaining
      obtain ⟨hvisited, hlists⟩ := mem_filter.mp (mem_orient.mp hentry)
      rw [hitsOfBlock_of_constraints h hcolumns (mem_filter.mp hvisited).1 hlists hremaining,
        take_take, Nat.min_self]
    rw [hplan]
    dsimp only
    rw [retainedBlocks_of_constraints h hcolumns, ← map_orient, gatherLimited_map]
    change gatherLimited _ _ (orient (newestFirst query)
      (retainedEntries tables directory query slots entries)) [] = _
    rw [gatherLimited_eq hpiece (safeLimit_pos hquery), nil_append, length_nil, Nat.sub_zero]

/-- The candidate blocks are the retained ones by first offset. -/
theorem candidateBlocks_of_slots :
    directory.candidateBlocks tables query =
      (orient (newestFirst query) (sortBy (fun entry => entry.1.firstOffset.toNat)
        (retainedEntries tables directory query slots entries))).map
          fun entry => entry.1.blockOrdinal := by
  rw [candidateBlocks]
  rcases plan_cases h hquery hslots with ⟨hplan, hnone⟩ | ⟨columns, hplan, hcolumns⟩
  · have hsorted : sortBy (fun entry : BlockEntry => entry.1.firstOffset.toNat) [] = [] := rfl
    rw [hplan, hnone, hsorted, orient_nil]
    rfl
  · rw [hplan]
    dsimp only
    rw [retainedBlocks_of_constraints h hcolumns, map_orient]
    congr 1
    refine (map_insertionSort _ _ _ _ fun left hleft right hright => ?_).symm
    have hfirst : ∀ entry ∈ retainedEntries tables directory query slots entries,
        directory.firstOffsetOf entry.1.blockOrdinal =
          (entry.1.firstOffset.toNat : WithBot Nat) := by
      intro entry hentry
      have hvisited := (mem_filter.mp (mem_filter.mp hentry).1).1
      rw [firstOffsetOf, h.block_eq_some (mem_filter.mp hvisited).1]
      rfl
    rw [hfirst left hleft, hfirst right hright]
    exact WithBot.coe_le_coe.symm

/-- The candidates of a visited block, planned for it alone. -/
theorem candidateHitsInBlock_of_mem
    (hentry : entry ∈ visitedEntries directory query slots entries) :
    directory.candidateHitsInBlock tables query entry.1.blockOrdinal =
      entryHits tables query entry := by
  obtain ⟨hlimit, hrest⟩ := not_or.mp hquery
  obtain ⟨hrange, hpossible⟩ := not_or.mp hrest
  obtain ⟨hin, hvisited⟩ := mem_filter.mp hentry
  obtain ⟨hmem, hpartition⟩ := mem_filter.mp hin
  obtain ⟨hoverlaps, hmatch⟩ := Bool.and_eq_true_iff.mp hvisited
  rw [candidateHitsInBlock, if_neg (by simp [hlimit, hrange]), h.block_eq_some hmem]
  dsimp only
  rw [if_neg (by simp [of_decide_eq_true hpartition, hoverlaps]), if_neg hpossible,
    ← slotsOf, hslots]
  dsimp only
  rw [if_pos hmatch, blockConstraints_eq h hin, entryHits]
  cases hlists : entryLists tables query.requiredIndexConstraints entry.2 with
  | none => rfl
  | some postings =>
    have hfits := (h.fits entry hmem).lists hlists
    have hperm := perm_sortBy cardinality postings
    change List.map _ (orient (newestFirst query) _) = _
    congr 2
    cases hcase : sortBy cardinality postings with
    | nil =>
      rw [hcase] at hperm
      rw [← commonOrdinals_perm hperm]
      simp [commonOrdinals]
    | cons first rest =>
      rw [hcase] at hperm
      have hwell : ∀ posting ∈ first :: rest, posting.WellFormed := fun posting hposting =>
        (hfits posting (hperm.mem_iff.mp hposting)).wellFormed
      dsimp only
      rw [foldl_intersectPosting (forall_mem_of_forall_mem_cons hwell)
        (hwell first mem_cons_self).pairwise, filter_first_eq hfits hperm]

end Plans

section Agreement

variable (h : MergesEntries directory entries)

include h

/-- A block with candidates of its own is visited. -/
theorem exists_visited (hne : directory.candidateHitsInBlock tables query ordinal ≠ []) :
    ¬Vacuous query ∧ ∃ slots, slotsOf tables directory query = some slots ∧
      ∃ entry ∈ visitedEntries directory query slots entries, entry.1.blockOrdinal = ordinal := by
  unfold candidateHitsInBlock at hne
  split at hne
  · exact absurd rfl hne
  rename_i hquery
  split at hne
  · exact absurd rfl hne
  rename_i metadata hblock
  split at hne
  · exact absurd rfl hne
  rename_i hvisited
  split at hne
  · exact absurd rfl hne
  rename_i hpossible
  split at hne
  · exact absurd rfl hne
  rename_i slots hslots
  split at hne
  · rename_i hmatch
    obtain ⟨index, hentry, rfl⟩ := h.block_eq_some_iff.mp hblock
    refine ⟨fun hvacuous => ?_, slots, hslots, (metadata, index), ?_, rfl⟩
    · unfold Vacuous at hvacuous
      tauto
    · simp only [visitedEntries, entriesOf, mem_filter]
      simp_all
  · exact absurd rfl hne

/-- There are fewer candidates than `usize::MAX`. -/
theorem length_flatMap_entryHits_le {visited : List BlockEntry}
    (hvisited : visited.Subperm entries) :
    (visited.flatMap (entryHits tables query)).length ≤ usizeMax := by
  have hnodup : (entries.map fun entry => entry.1.blockOrdinal).Nodup := by
    rw [Nodup, pairwise_map]
    exact h.sorted.imp fun hlt => hlt.ne
  have hcount : visited.length ≤ 2 ^ 32 := by
    have hle := Nodup.length_le_card hnodup
    rw [length_map, Fintype.card_fin] at hle
    exact hvisited.length_le.trans hle
  have hsum : ∀ visited, visited ⊆ entries →
      (visited.flatMap (entryHits tables query)).length ≤ visited.length * (2 ^ 32 - 1) := by
    intro visited hsubset
    induction visited with
    | nil => simp
    | cons entry rest ih =>
      obtain ⟨hentry, hrest⟩ := cons_subset.mp hsubset
      have hhits := @length_entryHits_le tables query entry
      have hrecords := (h.fits entry hentry).recordCount_lt
      have hlater := ih hrest
      rw [flatMap_cons, length_append, length_cons, Nat.succ_mul]
      omega
  calc (visited.flatMap (entryHits tables query)).length
      ≤ visited.length * (2 ^ 32 - 1) := hsum visited hvisited.subset
    _ ≤ 2 ^ 32 * (2 ^ 32 - 1) := Nat.mul_le_mul_right _ hcount
    _ ≤ usizeMax := by decide

variable {slots : List Nat}

/-- Candidate blocks are the retained ones. -/
theorem mem_candidateBlocks (hquery : ¬Vacuous query)
    (hslots : slotsOf tables directory query = some slots) :
    ordinal ∈ directory.candidateBlocks tables query ↔
      ∃ entry ∈ retainedEntries tables directory query slots entries,
        entry.1.blockOrdinal = ordinal := by
  rw [candidateBlocks_of_slots h hquery hslots, mem_map]
  simp only [mem_orient, mem_sortBy]

/-- Without a limit nothing is cut. -/
theorem mem_candidateHits (hlimit : query.limit = none) (hquery : ¬Vacuous query)
    (hslots : slotsOf tables directory query = some slots) {hit : QueryHit} :
    hit ∈ directory.candidateHits tables query ↔
      ∃ entry ∈ retainedEntries tables directory query slots entries,
        hit ∈ entryHits tables query entry := by
  have hsublist : (retainedEntries tables directory query slots entries).Sublist entries :=
    filter_sublist.trans (filter_sublist.trans filter_sublist)
  have hlimit : safeLimit query = usizeMax := by
    rw [safeLimit, hlimit, Option.getD_none, ite_self]
  rw [candidateHits_of_slots h hquery hslots, hlimit, take_of_length_le
    (length_flatMap_entryHits_le h ((perm_orient _ _).subperm.trans hsublist.subperm)),
    mem_flatMap]
  simp only [mem_orient]

/-- Without a limit the candidate records are those of the candidate blocks, and the
other blocks have none. -/
theorem MergesEntries.planners_agree (hlimit : query.limit = none) :
    (∀ hit, hit ∈ directory.candidateHits tables query ↔
        ∃ ordinal ∈ directory.candidateBlocks tables query,
          hit ∈ directory.candidateHitsInBlock tables query ordinal) ∧
      ∀ ordinal, ordinal ∉ directory.candidateBlocks tables query →
        directory.candidateHitsInBlock tables query ordinal = [] := by
  constructor
  · intro hit
    cases hplan : directory.plan tables query with
    | none => simp [candidateHits, candidateBlocks, hplan]
    | some planned =>
      have hquery : ¬Vacuous query := fun hvacuous => by
        rw [plan_of_vacuous hvacuous] at hplan
        cases hplan
      rw [plan_of_not_vacuous hquery] at hplan
      obtain ⟨slots, hslots, _⟩ := Option.bind_eq_some_iff.mp hplan
      have hown : ∀ entry ∈ retainedEntries tables directory query slots entries,
          directory.candidateHitsInBlock tables query entry.1.blockOrdinal =
            entryHits tables query entry := fun entry hentry =>
        candidateHitsInBlock_of_mem h hquery hslots (mem_filter.mp hentry).1
      simp only [mem_candidateHits h hlimit hquery hslots, mem_candidateBlocks h hquery hslots]
      constructor
      · rintro ⟨entry, hentry, hhit⟩
        exact ⟨_, ⟨entry, hentry, rfl⟩, (hown entry hentry).symm ▸ hhit⟩
      · rintro ⟨_, ⟨entry, hentry, rfl⟩, hhit⟩
        exact ⟨entry, hentry, hown entry hentry ▸ hhit⟩
  · intro ordinal hnot
    by_contra hne
    obtain ⟨hquery, slots, hslots, entry, hentry, rfl⟩ := exists_visited h hne
    rw [candidateHitsInBlock_of_mem h hquery hslots hentry] at hne
    refine hnot ((mem_candidateBlocks h hquery hslots).mpr
      ⟨entry, mem_filter.mpr ⟨hentry, ?_⟩, rfl⟩)
    exact Bool.not_eq_false _ ▸ fun hnone => hne (entryHits_eq_nil hnone)

end Agreement

end ShardLog.Persistent
