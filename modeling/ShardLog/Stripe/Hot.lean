import ShardLog.Stripe.Numbering

/-!
# Stripe - What the hot index holds

How far the records of each partition have been taken (stored, indexed by terms,
indexed by fields, published), and that publishing one record keeps the hot index
exact for the records it covers, whether the program succeeds or fails.
-/

namespace ShardLog.Stripe

open List hiding erase get insert

open Utf8 Stateful AssocMap LogStripe PartitionIndex Triple

/-! ## Progress of a partition -/

/-- How far the records of a partition were taken, and the numbers of their keys. -/
structure Progress where
  stored : List DurableLogRecord := []
  termed : List DurableLogRecord := []
  fielded : List DurableLogRecord := []
  published : List DurableLogRecord := []
  termIds : List (Str × Nat) := []
  fieldIds : List (Str × List (Str × Nat)) := []

/-- Every stored record is indexed and published. -/
structure Progress.Complete (progress : Progress) : Prop where
  termed : progress.termed = progress.stored
  fielded : progress.fielded = progress.stored
  published : progress.published = progress.stored

/-- Offsets of records in the order they were stored. -/
def OffsetsIncrease (records : List DurableLogRecord) : Prop :=
  records.Pairwise fun earlier later => earlier.recordRef.offset < later.recordRef.offset

/-- The record lies beyond all stored ones. -/
def Beyond (stored : List DurableLogRecord) (record : DurableLogRecord) : Prop :=
  ∀ earlier ∈ stored, earlier.recordRef.offset < record.recordRef.offset

/-- A hot index that has taken the records of its partition this far. -/
structure Indexes {Placement : Type} (tables : UnicodeTables) (partition : TopicPartition)
    (progress : Progress) (index : PartitionIndex Placement) : Prop where
  stored : index.records.map (·.record) = progress.stored
  increasing : OffsetsIncrease progress.stored
  home : ∀ record ∈ progress.stored, record.recordRef.topicPartition = partition
  length_le : progress.stored.length ≤ 2 ^ 32
  termIds : index.termIds = progress.termIds
  fieldIds : index.fieldIds = progress.fieldIds
  terms : Inverts (get progress.termIds) index.termPostings
    (progress.termed.map fun record => termKeys tables record.message)
  fields : Inverts (lookupField progress.fieldIds) index.fieldPostings
    (progress.fielded.map fun record => fieldKeys record.fields)
  published : index.indexedThrough = progress.published.getLast?.map (·.recordRef.offset)

/-- What a stripe holds: its shard, its indexed frames and the progress of its
partitions. -/
structure View where
  shard : ShardId
  frames : List (TopicPartition × IndexedFramePartition)
  progress : TopicPartition → Progress

/-- The progress of the partition of a record. -/
abbrev View.progressOf (view : View) (record : DurableLogRecord) : Progress :=
  view.progress record.recordRef.topicPartition

def View.set (view : View) (partition : TopicPartition) (progress : Progress) : View :=
  { view with progress := Function.update view.progress partition progress }

@[simp] theorem View.progress_set_self (view : View) (partition : TopicPartition)
    (progress : Progress) : (view.set partition progress).progress partition = progress :=
  Function.update_self ..

/-- One partition changes. -/
theorem View.progress_set (view : View) (partition other : TopicPartition) (progress : Progress) :
    (view.set partition progress).progress other =
      if other = partition then progress else view.progress other :=
  Function.update_apply ..

@[simp] theorem View.set_set (view : View) (partition : TopicPartition) (first second : Progress) :
    (view.set partition first).set partition second = view.set partition second := by
  simp [View.set]

@[simp] theorem View.set_eq_self (view : View) (partition : TopicPartition) :
    view.set partition (view.progress partition) = view := by
  simp [View.set]

variable {stage : BlockStage} {tables : UnicodeTables}

/-- The stripe holds what the view says, and its caches have the right numbers. -/
structure Holds (tables : UnicodeTables) (view : View) (stripe : LogStripe stage) : Prop where
  shard : stripe.streamShardId = view.shard
  frames : stripe.indexedFramePartitions = view.frames
  indexes : ∀ partition,
    Indexes tables partition (view.progress partition) (stripe.partitionOf partition)
  cachedTerms : ∀ slot cached, stripe.messageTermCache slot = some cached →
    Numbers (get (view.progress cached.topicPartition).termIds)
      (termKeys tables cached.message) cached.termIds
  cachedFields : ∀ slot cached, stripe.fieldCache slot = some cached →
    Numbers (lookupField (view.progress cached.topicPartition).fieldIds)
      (fieldKeys cached.fields) cached.fieldIds

theorem indexes_empty {Placement : Type} (partition : TopicPartition) :
    Indexes tables partition {} ({} : PartitionIndex Placement) where
  stored := rfl
  increasing := Pairwise.nil
  home := by simp
  length_le := Nat.zero_le _
  termIds := rfl
  fieldIds := rfl
  terms := ⟨by simp, by simp, by simp⟩
  fields := ⟨by simp [lookupField], by simp [lookupField], by simp⟩
  published := rfl

/-- A fresh stripe holds nothing. -/
theorem holds_fresh (shard : ShardId) (blocks : stage.State) : Holds tables ⟨shard, [], fun _ => {}⟩
      ({ streamShardId := shard, blocks := blocks } : LogStripe stage) where
  shard := rfl
  frames := rfl
  indexes partition := indexes_empty partition
  cachedTerms := by simp
  cachedFields := by simp

/-- One partition is modified. -/
theorem partitionOf_modifyPartition (stripe : LogStripe stage) (partition other : TopicPartition)
    (f : PartitionIndex stage.Placement → PartitionIndex stage.Placement) :
    (stripe.modifyPartition partition f).partitionOf other =
      if other = partition then f (stripe.partitionOf partition) else stripe.partitionOf other := by
  unfold partitionOf modifyPartition
  rw [get_update]
  split
  · rfl
  · rfl

section Steps

variable {view : View} {stripe : LogStripe stage}
  {f : PartitionIndex stage.Placement → PartitionIndex stage.Placement} {Placement : Type}
  {partition : TopicPartition} {progress : Progress} {index : PartitionIndex Placement}
  {records : List DurableLogRecord} {grown : PartitionIndex Placement}
  {added : List DurableLogRecord}

/-- A change of one partition that keeps the numbers given so far. -/
theorem Holds.modifyPartition (h : Holds tables view stripe) (partition : TopicPartition)
    (progress : Progress)
    (hindexes : Indexes tables partition progress (f (stripe.partitionOf partition)))
    (hterms : Extends (get (view.progress partition).termIds) (get progress.termIds))
    (hfields : Extends (lookupField (view.progress partition).fieldIds)
      (lookupField progress.fieldIds)) :
    Holds tables (view.set partition progress) (stripe.modifyPartition partition f) where
  shard := h.shard
  frames := h.frames
  indexes other := by
    rw [partitionOf_modifyPartition, View.progress_set]
    split
    · rename_i heq
      exact heq ▸ hindexes
    · exact h.indexes other
  cachedTerms slot cached hcached := by
    have hnumbers := h.cachedTerms slot cached hcached
    rw [View.progress_set]
    split
    · rename_i heq
      rw [heq] at hnumbers
      exact hnumbers.mono hterms
    · exact hnumbers
  cachedFields slot cached hcached := by
    have hnumbers := h.cachedFields slot cached hcached
    rw [View.progress_set]
    split
    · rename_i heq
      rw [heq] at hnumbers
      exact hnumbers.mono hfields
    · exact hnumbers

/-- A change of one partition that leaves the numbers alone. -/
theorem Holds.modifyPartition_of_same (h : Holds tables view stripe) (partition : TopicPartition)
    (progress : Progress)
    (hindexes : Indexes tables partition progress (f (stripe.partitionOf partition)))
    (hterms : progress.termIds = (view.progress partition).termIds)
    (hfields : progress.fieldIds = (view.progress partition).fieldIds) :
    Holds tables (view.set partition progress) (stripe.modifyPartition partition f) :=
  h.modifyPartition partition progress hindexes (hterms ▸ Extends.refl) (hfields ▸ Extends.refl)

/-! ## The block stage -/

/-- Blocks do not matter. -/
theorem Holds.setBlocks (h : Holds tables view stripe) (blocks : stage.State) :
    Holds tables view { stripe with blocks := blocks } :=
  ⟨h.shard, h.frames, h.indexes, h.cachedTerms, h.cachedFields⟩

/-- Final placements are no part of what the index holds. -/
theorem Indexes.setFinalPlacement (h : Indexes tables partition progress index)
    (offset : LogicalOffset) (placement : Placement) :
    Indexes tables partition progress (index.setFinalPlacement offset placement) := by
  unfold PartitionIndex.setFinalPlacement
  cases index.position offset with
  | none => exact h
  | some position =>
    refine { h with stored := ?_ }
    rw [← h.stored]
    apply ext_getElem?
    intro ordinal
    simp only [getElem?_map, getElem?_modify]
    split
    · grind
    · rw [id_map']

/-- The outcome of the block stage changes nothing the index holds. -/
theorem Holds.settle (h : Holds tables view stripe)
    (outcome : BlockOutcome stage.State stage.Placement stage.Descriptor) :
    Holds tables view (stripe.settle outcome) := by
  unfold LogStripe.settle
  have hblocks := h.setBlocks outcome.state
  generalize { stripe with blocks := outcome.state } = settled at hblocks
  induction outcome.placed generalizing settled with
  | nil => exact hblocks
  | cons placed rest ih =>
    rw [foldl_cons]
    apply ih
    split
    · have hplaced := hblocks.modifyPartition_of_same placed.1.topicPartition _
        (f := fun index => index.setFinalPlacement placed.1.offset placed.2)
        ((hblocks.indexes placed.1.topicPartition).setFinalPlacement placed.1.offset placed.2)
        rfl rfl
      rwa [View.set_eq_self] at hplaced
    · exact hblocks

/-- Choosing changes nothing hot. -/
theorem triple_chooseTentativePlacement (record : DurableLogRecord) :
    Triple (Holds tables view) (chooseTentativePlacement record : StripeM stage stage.Placement)
      (fun _ => Holds tables view) (Holds tables view) := by
  apply bind fun _ => Holds tables view
  · exact triple_modifyGet fun stripe h => h.setBlocks _
  · intro chosen
    exact triple_liftResult (fun _ _ _ h => h) fun _ h => h

/-! ## Storing a record -/

/-- The last offset is that of the last record. -/
theorem Indexes.lastOffset (h : Indexes tables partition progress index) :
    index.lastOffset = progress.stored.getLast?.map (·.recordRef.offset) := by
  rw [PartitionIndex.lastOffset, ← h.stored, getLast?_map, Option.map_map]
  rfl

theorem get_bind_lastOffset (stripe : LogStripe stage) (partition : TopicPartition) :
    (get stripe.partitions partition).bind lastOffset =
      (stripe.partitionOf partition).lastOffset := by
  unfold partitionOf
  cases get stripe.partitions partition with
  | none => rfl
  | some index => rfl

/-- No offset is larger than the last one. -/
theorem OffsetsIncrease.le_getLast (h : OffsetsIncrease records) {last : DurableLogRecord}
    (hlast : records.getLast? = some last) :
    ∀ record ∈ records, record.recordRef.offset ≤ last.recordRef.offset := by
  obtain ⟨earlier, rfl⟩ := getLast?_eq_some_iff.mp hlast
  refine forall_mem_append.mpr ⟨fun record hearlier => ?_,
    forall_mem_singleton.mpr (UInt64.le_refl _)⟩
  exact UInt64.le_of_lt ((pairwise_append.mp h).2.2 record hearlier last (by simp))

/-- A record beyond the others. -/
theorem OffsetsIncrease.append {records : List DurableLogRecord} (h : OffsetsIncrease records)
    {record : DurableLogRecord}
    (hnew : Beyond records record) :
    OffsetsIncrease (records ++ [record]) := by
  refine pairwise_append.mpr ⟨h, pairwise_singleton _ _, ?_⟩
  intro earlier hearlier later hlater
  rw [mem_singleton.mp hlater]
  exact hnew earlier hearlier

/-- A record with a valid offset lies beyond all stored ones. -/
theorem Holds.lt_of_validateOffset (h : Holds tables view stripe) {record : DurableLogRecord}
    (hvalid : stripe.validateOffset record = .ok ()) :
    Beyond (view.progressOf record).stored record := by
  intro earlier hearlier
  have hindexes := h.indexes record.recordRef.topicPartition
  simp only [validateOffset, get_bind_lastOffset, hindexes.lastOffset] at hvalid
  cases hlast : (view.progressOf record).stored.getLast? with
  | none =>
    rw [getLast?_eq_none_iff.mp hlast] at hearlier
    cases hearlier
  | some last =>
    rw [hlast] at hvalid
    dsimp only [Option.map_some] at hvalid
    split at hvalid
    · exact UInt64.lt_of_le_of_lt (hindexes.increasing.le_getLast hlast earlier hearlier)
        (ensure_eq_ok_iff.mp hvalid)
    · cases hvalid

/-- Progress after storing one more record. -/
def Progress.store (progress : Progress) (record : DurableLogRecord) : Progress :=
  { progress with stored := progress.stored ++ [record] }

def View.store (view : View) (record : DurableLogRecord) : View :=
  view.set record.recordRef.topicPartition ((view.progressOf record).store record)

theorem View.progressOf_store (view : View) (record : DurableLogRecord) :
    (view.store record).progressOf record = (view.progressOf record).store record :=
  View.progress_set_self ..

theorem View.set_store (view : View) (record : DurableLogRecord) (progress : Progress) :
    (view.store record).set record.recordRef.topicPartition progress =
      view.set record.recordRef.topicPartition progress :=
  View.set_set ..

/-- Storing a record. -/
theorem triple_pushRecord (record : DurableLogRecord) (placement : stage.Placement)
    (hnew : Beyond (view.progressOf record).stored record) :
    Triple (Holds tables view) (pushRecord record placement) (fun ordinal stripe =>
        ordinal = (view.progressOf record).stored.length ∧
        Holds tables (view.store record) stripe)
      (Holds tables view) := by
  apply bind fun _ => Holds tables view
  · apply triple_modify
    intro stripe h
    have hsame := h.modifyPartition_of_same record.recordRef.topicPartition _ (f := id)
      (h.indexes record.recordRef.topicPartition) rfl rfl
    rwa [View.set_eq_self] at hsame
  · intro _
    apply triple_get_bind
    intro current hcurrent
    have hindexes := hcurrent.indexes record.recordRef.topicPartition
    have hlength : (current.partitionOf record.recordRef.topicPartition).records.length =
        (view.progressOf record).stored.length := by
      rw [← hindexes.stored, length_map]
    dsimp only
    rw [hlength]
    split
    · rename_i hlt
      apply bind fun _ => Holds tables (view.store record)
      · apply triple_modify
        rintro stripe ⟨rfl, h⟩
        refine h.modifyPartition_of_same _ _ { hindexes with
          stored := ?_, increasing := ?_, home := ?_, length_le := ?_ } rfl rfl
        · simp [Progress.store, hindexes.stored]
        · exact hindexes.increasing.append hnew
        · simp only [Progress.store, mem_append, mem_singleton]
          rintro stored (hold | rfl)
          · exact hindexes.home stored hold
          · rfl
        · simp only [Progress.store, length_append, length_singleton]
          omega
      · intro _
        exact triple_pure fun stripe h => ⟨rfl, h⟩
    · exact triple_throw fun stripe h => h.2

/-- The block stage takes the record, or the record is taken back. -/
theorem triple_admitRecord (record : DurableLogRecord) (placement : stage.Placement) : Triple
      (Holds tables (view.store record))
      (admitRecord record placement)
      (fun _ => Holds tables (view.store record))
      (Holds tables view) := by
  apply bind fun _ => Holds tables (view.store record)
  · exact triple_modifyGet fun stripe h => h.settle _
  · intro result
    cases result with
    | ok _ => exact triple_pure fun stripe h => h
    | error e =>
      apply bind fun _ => Holds tables view
      · apply triple_modify
        intro stripe h
        have hindexes := h.indexes record.recordRef.topicPartition
        rw [← View.progressOf, View.progressOf_store] at hindexes
        have hback := h.modifyPartition_of_same record.recordRef.topicPartition
          (view.progressOf record)
          (f := fun index => { index with records := index.records.dropLast })
          { hindexes with
            stored := ?_, increasing := ?_, home := ?_, length_le := ?_ }
          (by rw [← View.progressOf, View.progressOf_store]; rfl)
          (by rw [← View.progressOf, View.progressOf_store]; rfl)
        · rwa [View.set_store, View.set_eq_self] at hback
        · simp [map_dropLast, hindexes.stored, Progress.store]
        · exact (pairwise_append.mp hindexes.increasing).1
        · intro stored hstored
          exact hindexes.home stored (mem_append_left _ hstored)
        · have hlength := hindexes.length_le
          simp only [Progress.store, length_append, length_singleton] at hlength
          omega
      · intro _
        exact triple_throw fun stripe h => h

/-! ## Indexing a record -/

/-- New term numbers. -/
theorem Indexes.growTerms (h : Indexes tables partition progress index)
    (hgrown : TermsGrown index grown
      (progress.termed.map fun record => termKeys tables record.message)) :
    Indexes tables partition { progress with termIds := grown.termIds } grown := by
  rw [hgrown.others]
  exact { h with termIds := rfl, terms := hgrown.inverts }

/-- New field numbers. -/
theorem Indexes.growFields (h : Indexes tables partition progress index)
    (hgrown : FieldsGrown index grown
      (progress.fielded.map fun record => fieldKeys record.fields)) :
    Indexes tables partition { progress with fieldIds := grown.fieldIds } grown := by
  rw [hgrown.others]
  exact { h with fieldIds := rfl, fields := hgrown.inverts }

section

variable (h : Holds tables view stripe)

include h

/-- A cache slot may take any message with the numbers of its terms. -/
theorem Holds.cacheTerms (slot : Nat) (cached : CachedMessageTerms)
    (hnumbers : Numbers (get (view.progress cached.topicPartition).termIds)
      (termKeys tables cached.message) cached.termIds) :
    Holds tables view { stripe with
      messageTermCache := Function.update stripe.messageTermCache slot (some cached) } := by
  refine ⟨h.shard, h.frames, h.indexes, ?_, h.cachedFields⟩
  intro other found hfound
  dsimp only at hfound
  rw [Function.update_apply] at hfound
  split at hfound
  · cases hfound
    exact hnumbers
  · exact h.cachedTerms other found hfound

/-- A cache slot may take any list of fields with its numbers. -/
theorem Holds.cacheFields (slot : Nat) (cached : CachedFields)
    (hnumbers : Numbers (lookupField (view.progress cached.topicPartition).fieldIds)
      (fieldKeys cached.fields) cached.fieldIds) :
    Holds tables view { stripe with
      fieldCache := Function.update stripe.fieldCache slot (some cached) } := by
  refine ⟨h.shard, h.frames, h.indexes, h.cachedTerms, ?_⟩
  intro other found hfound
  dsimp only at hfound
  rw [Function.update_apply] at hfound
  split at hfound
  · cases hfound
    exact hnumbers
  · exact h.cachedFields other found hfound

/-- The numbers of a record's terms are known after looking them up. -/
theorem Holds.recordTermIds (record : DurableLogRecord) : ∃ termIds,
      Numbers (get termIds) (termKeys tables record.message)
        (stripe.recordTermIds tables record).1 ∧
      Holds tables (view.set record.recordRef.topicPartition
        { view.progressOf record with termIds := termIds })
        (stripe.recordTermIds tables record).2 := by
  have hindexes := h.indexes record.recordRef.topicPartition
  have hinverts := hindexes.terms
  rw [← hindexes.termIds] at hinverts
  obtain ⟨hgrown, hnumbers⟩ := @internTerms_spec _ tables _ _
    (scanMessageTerms tables record.message) [] [] hinverts numbers_nil
  have hlarger := hgrown.larger
  rw [hindexes.termIds] at hlarger
  have hstripe := h.modifyPartition record.recordRef.topicPartition _
    (f := fun _ => (internTerms tables (scanMessageTerms tables record.message) []
      (stripe.partitionOf record.recordRef.topicPartition)).2)
    (hindexes.growTerms hgrown) hlarger Extends.refl
  unfold LogStripe.recordTermIds
  dsimp only
  have hcached := hstripe.cacheTerms
    (messageTermCacheSlot record.recordRef.topicPartition (utf8 record.message))
    ⟨record.recordRef.topicPartition, record.message, _⟩
    (by rw [View.progress_set_self]; exact hnumbers)
  cases hcache : stripe.messageTermCache
      (messageTermCacheSlot record.recordRef.topicPartition (utf8 record.message)) with
  | none => exact ⟨_, hnumbers, hcached⟩
  | some cached =>
    dsimp only
    split
    · rename_i hsame
      have hknown := h.cachedTerms _ _ hcache
      rw [hsame.1, hsame.2] at hknown
      exact ⟨_, hknown, by rw [View.set_eq_self]; exact h⟩
    · exact ⟨_, hnumbers, hcached⟩

/-- The numbers of a record's fields are known after looking them up. -/
theorem Holds.recordFieldIds (address : UInt64) (record : DurableLogRecord) :
    ∃ fieldIds, Numbers (lookupField fieldIds) (fieldKeys record.fields)
        (stripe.recordFieldIds address record).1 ∧
      Holds tables (view.set record.recordRef.topicPartition
        { view.progressOf record with fieldIds := fieldIds })
        (stripe.recordFieldIds address record).2 := by
  have hindexes := h.indexes record.recordRef.topicPartition
  have hinverts := hindexes.fields
  rw [← hindexes.fieldIds] at hinverts
  obtain ⟨hgrown, hnumbers⟩ := @internFields_spec _ _ _ record.fields [] [] hinverts numbers_nil
  have hlarger := hgrown.larger
  rw [hindexes.fieldIds] at hlarger
  have hstripe := h.modifyPartition record.recordRef.topicPartition _
    (f := fun _ => (internFields [] record.fields []
      (stripe.partitionOf record.recordRef.topicPartition)).2)
    (hindexes.growFields hgrown) Extends.refl hlarger
  unfold LogStripe.recordFieldIds
  dsimp only
  have hcached := hstripe.cacheFields (fieldCacheSlot record.recordRef.topicPartition address)
    ⟨record.recordRef.topicPartition, record.fields, _⟩
    (by rw [View.progress_set_self]; exact hnumbers)
  cases hcache : stripe.fieldCache (fieldCacheSlot record.recordRef.topicPartition address) with
  | none => exact ⟨_, hnumbers, hcached⟩
  | some cached =>
    dsimp only
    split
    · rename_i hsame
      have hknown := h.cachedFields _ _ hcache
      rw [hsame.1, hsame.2] at hknown
      exact ⟨_, hknown, by rw [View.set_eq_self]; exact h⟩
    · exact ⟨_, hnumbers, hcached⟩

end

/-- Pushing a range to the posting lists of a document's keys indexes that many
records with these keys. -/
theorem Inverts.appendSame {κ : Type} [DecidableEq κ] {lookup : κ → Option Nat}
    {postings : List HotPostingList} {keys : DurableLogRecord → List κ}
    (h : Inverts lookup postings (records.map keys)) {document : List κ} {ids : List Nat}
    (hnumbers : Numbers lookup document ids) (hadded : added ≠ [])
    (hsame : ∀ record ∈ added, keys record = document) :
    Inverts lookup (pushRangeAll postings ids records.length (records.length + added.length - 1))
      ((records ++ added).map keys) := by
  have hpushed := h.append hnumbers (length_pos_iff.mpr hadded)
  have hcopies : added.map keys = replicate added.length document :=
    eq_replicate_iff.mpr ⟨length_map _, by simpa using hsame⟩
  rw [map_append, hcopies]
  rwa [length_map] at hpushed

/-- Records join the postings of their terms. -/
theorem Indexes.pushTerms (h : Indexes tables partition progress index) {document : List Str}
    {termIds : List Nat} (hnumbers : Numbers (get progress.termIds) document termIds)
    (hadded : added ≠ []) (hsame : ∀ record ∈ added, termKeys tables record.message = document) :
    Indexes tables partition { progress with termed := progress.termed ++ added }
      (index.pushTerms termIds progress.termed.length
        (progress.termed.length + added.length - 1)) :=
  { h with terms := h.terms.appendSame hnumbers hadded hsame }

/-- Records join the postings of their fields. -/
theorem Indexes.pushFields (h : Indexes tables partition progress index)
    {document : List (Str × Str)} {fieldIds : List Nat}
    (hnumbers : Numbers (lookupField progress.fieldIds) document fieldIds) (hadded : added ≠ [])
    (hsame : ∀ record ∈ added, fieldKeys record.fields = document) :
    Indexes tables partition { progress with fielded := progress.fielded ++ added }
      (index.pushFields fieldIds progress.fielded.length
        (progress.fielded.length + added.length - 1)) :=
  { h with fields := h.fields.appendSame hnumbers hadded hsame }

/-- Indexing the terms of a record. -/
theorem Holds.indexTerms (h : Holds tables view stripe) (record : DurableLogRecord) {ordinal : Nat}
    (hordinal : ordinal = (view.progressOf record).termed.length) :
    ∃ termIds, Numbers (get termIds) (termKeys tables record.message)
        (stripe.indexTerms tables record ordinal).1 ∧
      Holds tables (view.set record.recordRef.topicPartition { view.progressOf record with
          termIds := termIds
          termed := (view.progressOf record).termed ++ [record] })
        (stripe.indexTerms tables record ordinal).2 := by
  obtain ⟨termIds, hnumbers, hknown⟩ := h.recordTermIds record
  refine ⟨termIds, hnumbers, ?_⟩
  have hindexes := hknown.indexes record.recordRef.topicPartition
  rw [View.progress_set_self] at hindexes
  have hpushed := hindexes.pushTerms hnumbers (cons_ne_nil record [])
    (fun other hother => by rw [mem_singleton.mp hother])
  have hnext := hknown.modifyPartition_of_same record.recordRef.topicPartition _
    (f := fun index => index.pushTerms (stripe.recordTermIds tables record).1 ordinal ordinal)
    (by rw [hordinal]; exact hpushed) (by simp) (by simp)
  rwa [View.set_set] at hnext

/-- Indexing the fields of a record. -/
theorem Holds.indexFields (h : Holds tables view stripe) (address : UInt64)
    (record : DurableLogRecord) {ordinal : Nat}
    (hordinal : ordinal = (view.progressOf record).fielded.length) :
    ∃ fieldIds, Numbers (lookupField fieldIds) (fieldKeys record.fields)
        (stripe.indexFields address record ordinal).1 ∧
      Holds tables (view.set record.recordRef.topicPartition { view.progressOf record with
          fieldIds := fieldIds
          fielded := (view.progressOf record).fielded ++ [record] })
        (stripe.indexFields address record ordinal).2 := by
  obtain ⟨fieldIds, hnumbers, hknown⟩ := h.recordFieldIds address record
  refine ⟨fieldIds, hnumbers, ?_⟩
  have hindexes := hknown.indexes record.recordRef.topicPartition
  rw [View.progress_set_self] at hindexes
  have hpushed := hindexes.pushFields hnumbers (cons_ne_nil record [])
    (fun other hother => by rw [mem_singleton.mp hother])
  have hnext := hknown.modifyPartition_of_same record.recordRef.topicPartition _
    (f := fun index => index.pushFields (stripe.recordFieldIds address record).1 ordinal ordinal)
    (by rw [hordinal]; exact hpushed) (by simp) (by simp)
  rwa [View.set_set] at hnext

/-! ## One record -/

/-- The steps before a record is indexed: a failure leaves nothing behind, and what
follows finds the record stored. -/
theorem triple_storeRecord {β : Type} (record : DurableLogRecord)
    {next : stage.Placement → Nat → List stage.Descriptor → StripeM stage β}
    {post : β → LogStripe stage → Prop}
    (hnext : ∀ placement sealedBlocks, Triple (Holds tables (view.store record))
        (next placement (view.progressOf record).stored.length sealedBlocks)
        post (Holds tables view)) :
    Triple (Holds tables view) (do
        let stripe ← get
        liftResult (stripe.validateOffset record)
        let placement ← chooseTentativePlacement record
        let recordOrdinal ← pushRecord record placement
        let sealedBlocks ← admitRecord record placement
        next placement recordOrdinal sealedBlocks)
      post (Holds tables view) := by
  apply triple_get_bind
  intro current hcurrent
  by_cases hvalid : current.validateOffset record = .ok ()
  · have hnew := hcurrent.lt_of_validateOffset hvalid
    rw [hvalid]
    apply bind fun _ => Holds tables view
    · exact triple_pure fun _ h => h.2
    intro _
    apply bind fun _ => Holds tables view
    · exact triple_chooseTentativePlacement record
    intro placement
    apply bind _ (triple_pushRecord record placement hnew)
    intro ordinal
    apply bind fun _ stripe =>
      ordinal = (view.progressOf record).stored.length ∧
      Holds tables (view.store record) stripe
    · rintro stripe ⟨hordinal, h⟩
      have hadmitted := triple_admitRecord record placement stripe h
      split at hadmitted
      · exact ⟨hordinal, hadmitted⟩
      · exact hadmitted
    · rintro sealedBlocks stripe ⟨rfl, h⟩
      exact hnext placement sealedBlocks stripe h
  · apply bind fun _ _ => False
    · grind [triple_liftResult]
    · exact fun _ _ h => h.elim

/-- A deferred record is stored. -/
theorem triple_applyDurableNewInner_deferred (address : UInt64) (record : DurableLogRecord) :
    Triple (Holds tables view) (applyDurableNewInner tables address record false :
        StripeM stage (AppliedRecord stage.Placement stage.Descriptor))
      (fun applied stripe =>
        applied.ordinal = (view.progressOf record).stored.length ∧
        Holds tables (view.store record) stripe)
      (Holds tables view) := by
  apply triple_storeRecord
  intro placement sealedBlocks
  exact triple_pure fun stripe h => ⟨rfl, h⟩

/-- Progress of a partition that took one more batch of records to the end. -/
structure Progress.Took (progress : Progress) (added : List DurableLogRecord) (next : Progress) :
    Prop where
  complete : next.Complete
  stored : next.stored = progress.stored ++ added

/-- A record that is not deferred is indexed and published. -/
theorem triple_applyDurableNewInner_indexed (address : UInt64) (record : DurableLogRecord)
    (hcomplete : (view.progressOf record).Complete) :
    Triple (Holds tables view) (applyDurableNewInner tables address record true :
        StripeM stage (AppliedRecord stage.Placement stage.Descriptor))
      (fun applied stripe =>
        applied.ordinal = (view.progressOf record).stored.length ∧
        ∃ progress, (view.progressOf record).Took [record] progress ∧
          Holds tables (view.set record.recordRef.topicPartition progress) stripe ∧
          Numbers (get progress.termIds) (termKeys tables record.message)
            (applied.termIds.getD []) ∧
          Numbers (lookupField progress.fieldIds) (fieldKeys record.fields)
            (applied.fieldIds.getD []))
      (Holds tables view) := by
  apply triple_storeRecord
  intro placement sealedBlocks
  rw [if_pos rfl]
  set progress := view.progressOf record with hprogress
  apply bind fun termIds stripe => ∃ next : Progress,
    next.stored = progress.stored ++ [record] ∧ next.termed = progress.stored ++ [record] ∧
      next.fielded = progress.stored ∧
      Holds tables (view.set record.recordRef.topicPartition next) stripe ∧
      Numbers (get next.termIds) (termKeys tables record.message) termIds
  · apply triple_modifyGet
    intro stripe h
    obtain ⟨termIds, hnumbers, hnext⟩ := @Holds.indexTerms _ _ _ _ h record
      progress.stored.length (by rw [View.progressOf_store]; exact congrArg _ hcomplete.termed.symm)
    rw [View.set_store, View.progressOf_store] at hnext
    refine ⟨_, ?_, ?_, ?_, hnext, hnumbers⟩
    · rfl
    · exact congrArg (· ++ [record]) hcomplete.termed
    · exact hcomplete.fielded
  intro termIds
  apply bind fun fieldIds stripe => ∃ next : Progress,
    next.stored = progress.stored ++ [record] ∧ next.termed = progress.stored ++ [record] ∧
      next.fielded = progress.stored ++ [record] ∧
      Holds tables (view.set record.recordRef.topicPartition next) stripe ∧
      Numbers (get next.termIds) (termKeys tables record.message) termIds ∧
      Numbers (lookupField next.fieldIds) (fieldKeys record.fields) fieldIds
  · apply triple_modifyGet
    rintro stripe ⟨next, hstored, htermed, hfielded, h, htermIds⟩
    obtain ⟨fieldIds, hnumbers, hnext⟩ := @Holds.indexFields _ _ _ _ h address record
      progress.stored.length (by rw [View.progressOf, View.progress_set_self, hfielded])
    rw [View.set_set, View.progressOf, View.progress_set_self] at hnext
    refine ⟨_, ?_, ?_, ?_, hnext, htermIds, hnumbers⟩
    · exact hstored
    · exact htermed
    · exact congrArg (· ++ [record]) hfielded
  intro fieldIds
  apply bind fun _ stripe => ∃ next : Progress, progress.Took [record] next ∧
      Holds tables (view.set record.recordRef.topicPartition next) stripe ∧
      Numbers (get next.termIds) (termKeys tables record.message) termIds ∧
      Numbers (lookupField next.fieldIds) (fieldKeys record.fields) fieldIds
  · apply triple_modify
    rintro stripe ⟨next, hstored, htermed, hfielded, h, htermIds, hfieldIds⟩
    have hindexes := h.indexes record.recordRef.topicPartition
    rw [View.progress_set_self] at hindexes
    have hpublished := h.modifyPartition_of_same record.recordRef.topicPartition
      { next with published := next.stored }
      (f := fun index => { index with indexedThrough := some record.recordRef.offset })
      { hindexes with published := by simp [hstored] } (by simp) (by simp)
    rw [View.set_set] at hpublished
    refine ⟨_, ⟨⟨?_, ?_, ?_⟩, ?_⟩, hpublished, htermIds, hfieldIds⟩
    · exact htermed.trans hstored.symm
    · exact hfielded.trans hstored.symm
    · rfl
    · exact hstored
  · intro _
    exact triple_pure fun stripe h => ⟨rfl, h⟩

/-- The stripe holds what the view says, with further records of one partition
taken to the end. -/
def Grown (tables : UnicodeTables) (view : View) (partition : TopicPartition)
    (added : List DurableLogRecord) (stripe : LogStripe stage) : Prop :=
  ∃ progress, (view.progress partition).Took added progress ∧
    Holds tables (view.set partition progress) stripe

/-- Nothing was added. -/
theorem grown_nil (h : Holds tables view stripe) (hcomplete : (view.progress partition).Complete) :
    Grown tables view partition [] stripe :=
  ⟨view.progress partition, ⟨hcomplete, (append_nil _).symm⟩, by rwa [View.set_eq_self]⟩

/-- A new record. -/
theorem triple_applyDurableNew (address : UInt64) (record : DurableLogRecord)
    (hcomplete : (view.progressOf record).Complete) :
    Triple (Holds tables view) (applyDurableNew tables address record : StripeM stage _)
      (fun _ => Grown tables view record.recordRef.topicPartition [record])
      (Holds tables view) := by
  apply bind _ (triple_applyDurableNewInner_indexed address record hcomplete)
  intro applied
  apply triple_pure
  rintro stripe ⟨_, progress, htook, hholds, _⟩
  exact ⟨progress, htook, hholds⟩

/-- A durable record. -/
theorem triple_applyDurable (address : UInt64) (record : DurableLogRecord)
    (hcomplete : (view.progressOf record).Complete) :
    Triple (Holds tables view) (applyDurable tables address record : StripeM stage _)
      (fun _ => Grown tables view record.recordRef.topicPartition [record])
      (Holds tables view) := by
  apply triple_get_bind
  intro current _
  dsimp only
  split
  · exact triple_throw fun _ h => h.2
  · split
    · exact triple_throw fun _ h => h.2
    · exact (triple_applyDurableNew address record hcomplete).consequence fun _ h => h.2

/-- A record found at an offset is a stored one. -/
theorem Holds.mem_of_existingRecord (h : Holds tables view stripe) {offset : LogicalOffset}
    {existing : IndexedRecord stage.Placement}
    (hexisting : stripe.existingRecord partition offset = some existing) :
    existing.record ∈ (view.progress partition).stored := by
  obtain ⟨index, hindex, hfound⟩ := Option.bind_eq_some_iff.mp hexisting
  obtain ⟨last, hlast, hmatch⟩ := Option.bind_eq_some_iff.mp hfound
  have hpartition : stripe.partitionOf partition = index := by
    rw [partitionOf, hindex, Option.getD_some]
  rw [← (h.indexes partition).stored, hpartition]
  apply mem_map_of_mem
  split at hmatch
  · cases hmatch
  · cases hmatch
    exact mem_of_getLast? hlast
  · obtain ⟨position, _, hat⟩ := Option.bind_eq_some_iff.mp hmatch
    exact mem_of_getElem? hat

/-- A record of a batch is a repetition of a stored one, or is taken. -/
theorem triple_applyDurableIdempotent (address : UInt64) (record : DurableLogRecord)
    (hcomplete : (view.progressOf record).Complete) :
    Triple (Holds tables view) (applyDurableIdempotent tables address record : StripeM stage _)
      (fun _ stripe =>
        (record ∈ (view.progressOf record).stored ∧ Holds tables view stripe) ∨
        Grown tables view record.recordRef.topicPartition [record] stripe)
      (Holds tables view) := by
  apply triple_get_bind
  intro current hcurrent
  dsimp only
  cases hexisting : current.existingRecord record.recordRef.topicPartition
      record.recordRef.offset with
  | none =>
    exact (triple_applyDurableNew address record hcomplete).consequence (fun _ h => h.2)
      fun _ _ h => Or.inr h
  | some existing =>
    have hstored := hcurrent.mem_of_existingRecord hexisting
    dsimp only
    split
    · exact triple_throw fun _ h => h.2
    · grind [triple_pure]

end Steps

end ShardLog.Stripe
