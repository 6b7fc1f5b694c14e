import ShardLog.Stripe.Admission

/-!
# Stripe - Batches by record, and batches again

A batch of new events that is published as one range leaves the stripe as its events
do one by one.  A batch that overlaps the stored records stores only what is new, and
stops at a record that differs from the stored one.

Main results:

- Theorem `applyOtlpEvents_agrees_applyInOrder`: one range and its events in order.
- Theorem `applyOtlpEvents_replay`: a batch that repeats stored records.
-/

namespace ShardLog.Stripe

open Utf8 Stateful Sorted List

variable {stage : BlockStage} {tables : UnicodeTables} {view : View}
  {frames : List (TopicPartition × IndexedFramePartition)} {stripe left right : LogStripe stage}
  {partition : TopicPartition} {firstOffset : LogicalOffset} {events : List OtlpLogEvent}
  {record : DurableLogRecord} {shard : ShardId} {start : Nat} {progress : Progress}
  {adopted : stage.State}

/-! ## Contents of a stripe -/

/-- The ordinals that the posting lists have for the number of a key. -/
def postedOrdinals (id : Option Nat) (postings : List HotPostingList) : List Nat :=
  ((id.bind fun id => postings[id]?).map HotPostingList.ordinals).getD []

def LogStripe.termOrdinals (stripe : LogStripe stage) (partition : TopicPartition) (term : Str) :
    List Nat :=
  postedOrdinals (AssocMap.get (stripe.partitionOf partition).termIds term)
    (stripe.partitionOf partition).termPostings

def LogStripe.fieldOrdinals (stripe : LogStripe stage) (partition : TopicPartition)
    (field : Str × Str) : List Nat :=
  postedOrdinals (lookupField (stripe.partitionOf partition).fieldIds field)
    (stripe.partitionOf partition).fieldPostings

/-- Two stripes with the same records, blocks, posting contents and watermarks. -/
structure SameContents (left right : LogStripe stage) : Prop extends SameRecords left right where
  terms : ∀ partition term, left.termOrdinals partition term = right.termOrdinals partition term
  fields : ∀ partition field, left.fieldOrdinals partition field = right.fieldOrdinals partition field
  watermarks : ∀ partition, left.indexedThrough partition = right.indexedThrough partition

/-- Postings list the documents. -/
theorem Inverts.postedOrdinals_eq {κ : Type} [DecidableEq κ] {lookup : κ → Option Nat}
    {postings : List HotPostingList} {documents : List (List κ)}
    (h : Inverts lookup postings documents) (key : κ) :
    postedOrdinals (lookup key) postings = ordinalsWith documents key := by
  cases hid : lookup key with
  | some id =>
    obtain ⟨list, hlist, _, hordinals⟩ := h.holds hid
    simp [postedOrdinals, hlist, hordinals]
  | none => exact (h.ordinalsWith_eq_nil hid).symm

/-- Equal records. -/
theorem SameRecords.hotRecords_eq (h : SameRecords left right) (partition : TopicPartition) :
    left.hotRecords partition = right.hotRecords partition := by
  rw [LogStripe.hotRecords, LogStripe.hotRecords, h.records]

/-- The contents of an exact hot index are given by its records. -/
theorem SameRecords.sameContents (h : SameRecords left right)
    (hleft : HotExact tables frames left) (hright : HotExact tables frames right) :
    SameContents left right := by
  obtain ⟨view, hcomplete, rfl, hholds⟩ := hleft
  obtain ⟨other, hother, hframes, hothers⟩ := hright
  have hstored : ∀ partition, (view.progress partition).stored =
      (other.progress partition).stored := fun partition => by
    rw [← hholds.hotRecords_eq, ← hothers.hotRecords_eq, h.hotRecords_eq]
  refine { h with terms := ?_, fields := ?_, watermarks := ?_ }
  · intro partition term
    have hindexes := hholds.indexes partition
    have hindexes' := hothers.indexes partition
    rw [LogStripe.termOrdinals, LogStripe.termOrdinals, hindexes.termIds, hindexes'.termIds,
      hindexes.terms.postedOrdinals_eq, hindexes'.terms.postedOrdinals_eq,
      (hcomplete partition).termed, (hother partition).termed, hstored]
  · intro partition field
    have hindexes := hholds.indexes partition
    have hindexes' := hothers.indexes partition
    rw [LogStripe.fieldOrdinals, LogStripe.fieldOrdinals, hindexes.fieldIds, hindexes'.fieldIds,
      hindexes.fields.postedOrdinals_eq, hindexes'.fields.postedOrdinals_eq,
      (hcomplete partition).fielded, (hother partition).fielded, hstored]
  · intro partition
    have hwatermark : ∀ stripe : LogStripe stage,
        (AssocMap.get stripe.partitions partition).bind (·.indexedThrough) =
          (stripe.partitionOf partition).indexedThrough := fun stripe => by
      unfold LogStripe.partitionOf
      cases AssocMap.get stripe.partitions partition <;> rfl
    simp only [LogStripe.indexedThrough, hwatermark, (hholds.indexes partition).published,
      (hothers.indexes partition).published, (hcomplete partition).published,
      (hother partition).published, hstored, hholds.frames, hothers.frames, hframes]

/-! ## One range and its events -/

/-- A batch that is indexed as one range lies beyond all stored records. -/
theorem Holds.precedes_of_canIndexAsHomogeneousRange (h : Holds tables view stripe)
    (hfits : firstOffset.toNat + events.length ≤ 2 ^ 64)
    (hcan : stripe.canIndexAsHomogeneousRange partition firstOffset events = true) :
    (view.progress partition).Precedes firstOffset 0 events.length := by
  have hindexes := h.indexes partition
  refine ⟨fun earlier hearlier => ?_, hfits⟩
  unfold LogStripe.canIndexAsHomogeneousRange at hcan
  split at hcan
  · rw [get_bind_lastOffset, hindexes.lastOffset] at hcan
    cases hlast : (view.progress partition).stored.getLast? with
    | none => simp [getLast?_eq_none_iff.mp hlast] at hearlier
    | some last =>
      have hle := hindexes.increasing.le_getLast hlast earlier hearlier
      simp [hlast] at hcan
      exact UInt64.lt_iff_toNat_lt.mp (UInt64.lt_of_le_of_lt hle hcan.1)
  · cases hcan

theorem Holds.canIndexAsHomogeneousRange_eq (h : Holds tables view left)
    (h' : Holds tables view right) (events : List OtlpLogEvent) :
    left.canIndexAsHomogeneousRange partition firstOffset events =
      right.canIndexAsHomogeneousRange partition firstOffset events := by
  unfold LogStripe.canIndexAsHomogeneousRange
  simp only [get_bind_lastOffset, (h.indexes partition).lastOffset, (h'.indexes partition).lastOffset]

/-- An event with one term and one field. -/
def sampleEvent : OtlpLogEvent := ⟨0, ['a'], [⟨['k'], ['v']⟩], 0⟩

/-- A range leaves the same contents, and returns the same receipts or error, as its events applied
in order. -/
theorem applyOtlpEvents_agrees_applyInOrder (h : HotExact tables frames stripe)
    {events : List OtlpLogEvent} (hfits : firstOffset.toNat + events.length ≤ 2 ^ 64)
    (hcan : stripe.canIndexAsHomogeneousRange partition firstOffset events = true)
    (addresses others : Nat → UInt64) :
    Agree SameContents Eq
      ((applyOtlpEvents tables addresses partition firstOffset events).run stripe)
      ((do
        let _ ← beginAppendBatch
        applyInOrder tables others partition firstOffset events.zipIdx : StripeM stage _).run stripe) := by
  have hexact := (triple_applyOtlpEvents_hotExact addresses partition firstOffset events
    frames).finalState h
  obtain ⟨view, hcomplete, rfl, hholds⟩ := h
  have hprecedes := hholds.precedes_of_canIndexAsHomogeneousRange hfits hcan
  revert hexact
  rw [applyOtlpEvents, EStateM.run_bind, EStateM.run_bind]
  cases hrun : (beginAppendBatch : StripeM stage Bool).run stripe with
  | error e next => exact fun hexact => ⟨rfl, SameRecords.refl.sameContents hexact hexact⟩
  | ok refreshed next =>
    have hnext : Holds tables view next := triple_beginAppendBatch.of_ok hholds hrun
    cases events with
    | nil => cases hcan
    | cons first rest =>
      rw [hholds.canIndexAsHomogeneousRange_eq hnext] at hcan
      dsimp only
      rw [validateBatchOffsetRange_eq hprecedes.fits]
      change HotExact _ _ (finalState ((if _ then _ else _ : StripeM stage _).run next)) →
        Agree _ _ ((if _ then _ else _ : StripeM stage _).run next) _
      rw [if_pos hcan, ← run_applyEvents_eq others hnext (hcomplete partition) hprecedes]
      intro hexact
      have hindices : ∀ event ∈ (first :: rest).zipIdx 0,
          firstOffset.toNat + event.2 < 2 ^ 64 := by grind
      have hothers := ((triple_applyEvents others partition firstOffset (hcomplete partition)
        hindices).consequence (fun _ h => h) (fun _ _ h => h.hotExact hcomplete)
          fun _ h => h.hotExact hcomplete).finalState hnext
      exact (agree_applyHomogeneousEvents addresses others hnext (hcomplete partition)
        hprecedes).mono fun hsame => hsame.sameContents hexact hothers

/-- Two events in a row on a fresh stripe. -/
theorem applyOtlpEvents_agrees_applyInOrder_fresh : Agree SameContents Eq
      ((applyOtlpEvents latinTables (fun _ => 0) samplePartition 0 (List.replicate 2 sampleEvent)).run
        ({ streamShardId := 0, blocks := () } : LogStripe idleStage))
      ((do
        let _ ← beginAppendBatch
        applyInOrder latinTables (fun _ => 1) samplePartition 0
          (List.replicate 2 sampleEvent).zipIdx :
          StripeM idleStage (List (IndexReceipt Unit Unit))).run
        ({ streamShardId := 0, blocks := () } : LogStripe idleStage)) :=
  applyOtlpEvents_agrees_applyInOrder (HotVisited.fresh 0 ()).hotExact (by decide) (by decide)
    (fun _ => 0) fun _ => 1

/-- A block stage that only records whether it has adopted a dictionary. -/
def adoptingStage : BlockStage where
  State := Bool
  Placement := Unit
  Descriptor := Unit
  tentativePlacement adopted _ := (.ok (), adopted)
  accept adopted _ _ := ⟨.ok [], [], adopted⟩
  sealAll adopted := ⟨.ok [], [], adopted⟩
  refresh _ := (.ok true, true)

/-- At the end of the offsets, one range stores nothing; in order, the event that fits
is stored.  And only the range adopts the published dictionaries. -/
theorem applyOtlpEvents_stores_nothing_at_end :
    let stripe : LogStripe idleStage := { streamShardId := 0, blocks := () }
    let events := List.replicate 2 sampleEvent
    (stripe.canIndexAsHomogeneousRange samplePartition 18446744073709551615 events = true ∧
      (finalState ((applyOtlpEvents latinTables (fun _ => 0) samplePartition 18446744073709551615
        events).run stripe)).hotRecords samplePartition = [] ∧
      (finalState ((applyInOrder latinTables (fun _ => 0) samplePartition 18446744073709551615
        events.zipIdx).run stripe)).hotRecords samplePartition =
          [intoDurable sampleEvent 0 samplePartition 18446744073709551615]) ∧
    let other : LogStripe adoptingStage := { streamShardId := 0, blocks := false }
    other.canIndexAsHomogeneousRange samplePartition 0 events = true ∧
      (finalState ((applyOtlpEvents latinTables (fun _ => 0) samplePartition 0
        events).run other)).blocks = (true : Bool) ∧
      (finalState ((applyInOrder latinTables (fun _ => 0) samplePartition 0
        events.zipIdx).run other)).blocks = (false : Bool) := by
  exact ⟨⟨by decide, by decide, by decide⟩, by decide, rfl, rfl⟩

/-! ## Batches that repeat stored records -/

/-- The stored record at an offset is found. -/
theorem Holds.existingRecord_of_mem (h : Holds tables view stripe)
    (hmem : record ∈ (view.progress partition).stored) :
    ∃ existing, stripe.existingRecord partition record.recordRef.offset = some existing ∧
      existing.record = record := by
  have hindexes := h.indexes partition
  rw [← hindexes.stored] at hmem
  obtain ⟨stored, hstored, rfl⟩ := mem_map.mp hmem
  unfold LogStripe.existingRecord
  cases hindex : AssocMap.get stripe.partitions partition with
  | none => simp [LogStripe.partitionOf, hindex] at hstored
  | some index =>
    have hpartition : stripe.partitionOf partition = index := by
      rw [LogStripe.partitionOf, hindex, Option.getD_some]
    rw [hpartition] at hindexes hstored
    have hsorted : StrictlySorted (fun record : IndexedRecord stage.Placement =>
        record.offset.toNat) index.records := by
      have hincreasing := hindexes.increasing
      rw [← hindexes.stored, OffsetsIncrease, pairwise_map] at hincreasing
      exact hincreasing.imp UInt64.lt_iff_toNat_lt.mp
    cases hlast : index.records.getLast? with
    | none => simp [getLast?_eq_none_iff.mp hlast] at hstored
    | some last =>
      have hle : stored.offset ≤ last.offset := hindexes.increasing.le_getLast
        (by rw [← hindexes.stored, getLast?_map, hlast]; rfl) _
        (hindexes.stored ▸ mem_map_of_mem hstored)
      simp only [Option.bind_some, hlast]
      split
      · rename_i hlt
        have hless := orderingOf_lt_iff.mp hlt
        exact absurd (UInt64.le_iff_toNat_le.mp hle) (Nat.not_le.mpr hless)
      · rename_i heq
        refine ⟨last, rfl, congrArg IndexedRecord.record ?_⟩
        exact hsorted.eq_of_key_eq (mem_of_getLast? hlast) hstored (orderingOf_eq_iff.mp heq)
      · obtain ⟨position, hposition, hat⟩ := findBy_of_mem hsorted hstored
        refine ⟨stored, ?_, rfl⟩
        exact Option.bind_eq_some_iff.mpr ⟨position, hposition, hat⟩

/-- A record at the offset of a stored one is the same one, or is refused. -/
theorem Holds.run_applyDurableIdempotent_of_mem (h : Holds tables view stripe) (address : UInt64)
    {earlier : DurableLogRecord}
    (hmem : earlier ∈ (view.progressOf record).stored)
    (hoffset : earlier.recordRef.offset = record.recordRef.offset) :
    ∃ receipt, (applyDurableIdempotent tables address record).run stripe =
      if earlier ≠ record then
        .error (.conflictingRecord record.recordRef.topicPartition record.recordRef.offset) stripe
      else .ok receipt stripe := by
  obtain ⟨existing, hexisting, rfl⟩ := h.existingRecord_of_mem hmem
  rw [hoffset] at hexisting
  refine ⟨⟨record.recordRef, (stripe.indexedThrough record.recordRef.topicPartition).getD
    record.recordRef.offset, existing.tentativePlacement, []⟩, ?_⟩
  rw [applyDurableIdempotent, EStateM.run_bind, EStateM.run_get]
  simp only [hexisting]
  split <;> rfl

/-- Repeated events change nothing: the others run from the same stripe. -/
theorem run_applyEvents_append (hholds : Holds tables view stripe) (addresses : Nat → UInt64)
    {repeated rest : List (OtlpLogEvent × Nat)} :
    (∀ event ∈ repeated, firstOffset.toNat + event.2 < 2 ^ 64) →
    (∀ record ∈ durableEvents view.shard partition firstOffset repeated,
      record ∈ (view.progress partition).stored) →
    ∃ receipts, (applyEvents tables addresses partition firstOffset (repeated ++ rest)).run stripe =
        (do
          let later ← applyEvents tables addresses partition firstOffset rest
          pure (receipts ++ later) : StripeM stage _).run stripe := by
  induction repeated with
  | nil =>
    intro _ _
    refine ⟨[], ?_⟩
    simp
  | cons event repeated ih =>
    intro hfits hstored
    obtain ⟨receipts, hrest⟩ := ih (fun event hevent => hfits event (mem_cons_of_mem _ hevent))
      fun record hrecord => hstored record (mem_cons_of_mem _ hrecord)
    obtain ⟨receipt, hrun⟩ := @Holds.run_applyDurableIdempotent_of_mem stage tables view stripe
      (intoDurable event.1 view.shard partition _) hholds (addresses event.2) _
      (hstored _ mem_cons_self) rfl
    rw [if_neg (not_not.mpr rfl)] at hrun
    refine ⟨receipt :: receipts, ?_⟩
    rw [cons_append, applyEvents, batchOffset_eq (hfits event mem_cons_self)]
    change (applyDurableIdempotent tables (addresses event.2) (intoDurable event.1
      stripe.streamShardId partition _) >>= _ : StripeM stage _).run stripe = _
    rw [hholds.shard, EStateM.run_bind, hrun]
    dsimp only
    rw [EStateM.run_bind, hrest, EStateM.run_bind, EStateM.run_bind]
    cases (applyEvents tables addresses partition firstOffset rest).run stripe <;> rfl

/-- Offsets of a batch that fits. -/
theorem offsets_durableEvents (hfits : firstOffset.toNat + start + events.length ≤ 2 ^ 64) :
    (durableEvents shard partition firstOffset (events.zipIdx start)).map
        (fun record => record.recordRef.offset.toNat) =
      (range' start events.length).map (firstOffset.toNat + ·) := by
  rw [← zipIdx_map_snd start events, map_map, durableEvents, map_map]
  apply map_congr_left
  intro event hevent
  have hlt : event.2 < start + events.length := by grind
  exact toNat_batchOffset (by omega)

/-- New events are not stored. -/
theorem Progress.Precedes.not_mem (h : progress.Precedes firstOffset start events.length) :
    ∀ record ∈ durableEvents shard partition firstOffset (events.zipIdx start),
      record ∉ progress.stored := by
  intro record hrecord hstored
  have hmem := mem_map_of_mem (f := fun record => record.recordRef.offset.toNat) hrecord
  have hbefore := h.before record hstored
  rw [offsets_durableEvents h.fits] at hmem
  grind

/-- New records of a batch are stored in full, each once. -/
theorem Progress.Precedes.grown_of_tookAll
    (h : (view.progress partition).Precedes firstOffset start events.length)
    (htook : TookAll tables view partition
      (durableEvents view.shard partition firstOffset (events.zipIdx start)) stripe) :
    Grown tables view partition
      (durableEvents view.shard partition firstOffset (events.zipIdx start)) stripe := by
  have hoffsets := @offsets_durableEvents partition firstOffset events view.shard start h.fits
  obtain ⟨added, hsublist, hall, hgrown⟩ := htook
  have hsubset := fun record hrecord =>
    (mem_append.mp (hall record hrecord)).resolve_left (h.not_mem record hrecord)
  have hnodup : (durableEvents view.shard partition firstOffset (events.zipIdx start)).Nodup := by
    apply Nodup.of_map fun record => record.recordRef.offset.toNat
    rw [hoffsets]
    exact Nodup.map (fun left right heq => by simpa using heq) nodup_range'
  rwa [← hsublist.eq_of_length_le (subperm_of_subset hnodup hsubset).length_le]

/-- Stored records of a batch come before the new ones. -/
theorem Progress.exists_split {start : Nat}
    (hfits : firstOffset.toNat + start + events.length ≤ 2 ^ 64)
    (hbatch : ∀ record ∈ durableEvents shard partition firstOffset (events.zipIdx start),
      record ∈ progress.stored ∨ ∀ earlier ∈ progress.stored,
      earlier.recordRef.offset < record.recordRef.offset) :
    ∃ repeated fresh, events = repeated ++ fresh ∧
      (∀ record ∈ durableEvents shard partition firstOffset (repeated.zipIdx start),
        record ∈ progress.stored) ∧
      (fresh = [] ∨ progress.Precedes firstOffset (start + repeated.length) fresh.length) := by
  induction events generalizing start with
  | nil => exact ⟨[], [], rfl, by simp [durableEvents], Or.inl rfl⟩
  | cons event rest ih =>
    rw [length_cons] at hfits
    rcases hbatch _ mem_cons_self with hstored | hbeyond
    · obtain ⟨repeated, fresh, rfl, hrepeated, hfresh⟩ := @ih (start + 1) (by omega)
        fun record hrecord => hbatch record (mem_cons_of_mem _ hrecord)
      refine ⟨event :: repeated, fresh, rfl, ?_, ?_⟩
      · rintro record (_ | ⟨_, hrecord⟩)
        · exact hstored
        · exact hrepeated record hrecord
      · rwa [length_cons, Nat.add_comm repeated.length, ← Nat.add_assoc]
    · refine ⟨[], event :: rest, rfl, by simp [durableEvents], Or.inr ⟨?_, hfits⟩⟩
      intro earlier hearlier
      have hlt := UInt64.lt_iff_toNat_lt.mp (hbeyond earlier hearlier)
      exact hlt.trans_eq (toNat_batchOffset (by omega))

theorem run_beginAppendBatch (h : stage.adopts stripe.blocks = some adopted) :
    ∃ refreshed, (beginAppendBatch : StripeM stage Bool).run stripe =
      .ok refreshed { stripe with blocks := adopted } := by
  have hrun : (beginAppendBatch : StripeM stage Bool).run stripe =
      (liftResult (stage.refresh stripe.blocks).1 : StripeM stage Bool).run
        { stripe with blocks := (stage.refresh stripe.blocks).2 } := rfl
  rw [hrun]
  unfold BlockStage.adopts at h
  split at h
  · rename_i refreshed state hrefresh
    cases h
    rw [hrefresh]
    exact ⟨refreshed, rfl⟩
  · cases h

/-- A batch that overlaps the stored records is published event by event. -/
theorem Holds.run_applyOtlpEvents_of_overlap (h : Holds tables view stripe)
    (hfits : firstOffset.toNat + 0 + events.length ≤ 2 ^ 64)
    (hadopts : stage.adopts stripe.blocks = some adopted)
    (hmem : record ∈ (view.progress partition).stored)
    (hoverlap : firstOffset ≤ record.recordRef.offset) (addresses : Nat → UInt64) :
    (applyOtlpEvents tables addresses partition firstOffset events).run stripe =
      (applyEvents tables addresses partition firstOffset events.zipIdx).run
        { stripe with blocks := adopted } := by
  obtain ⟨refreshed, hrun⟩ := run_beginAppendBatch hadopts
  have hnext : Holds tables view { stripe with blocks := adopted } := h.setBlocks adopted
  rw [applyOtlpEvents, EStateM.run_bind, hrun, validateBatchOffsetRange_eq hfits]
  cases events with
  | nil => rfl
  | cons first rest =>
    change (if _ then _ else _ : StripeM stage _).run _ = _
    rw [if_neg]
    intro hcan
    have hprecedes := hnext.precedes_of_canIndexAsHomogeneousRange hfits hcan
    exact absurd (UInt64.le_iff_toNat_le.mp hoverlap) (Nat.not_le.mpr (hprecedes.before _ hmem))

/-- The end of a batch, when its new records lie beyond all stored ones. -/
theorem Holds.exists_run_applyEvents (h : Holds tables view stripe)
    (hcomplete : (view.progress partition).Complete) {fresh : List OtlpLogEvent}
    {blocks : stage.State}
    (hfresh : fresh = [] ∨ (view.progress partition).Precedes firstOffset start fresh.length)
    (hroom : (view.progress partition).stored.length + fresh.length ≤ 2 ^ 32)
    (htakes : stage.takesAll stripe.blocks
      (durableEvents view.shard partition firstOffset (fresh.zipIdx start)) = some blocks)
    (addresses : Nat → UInt64) :
    ∃ receipts final, (applyEvents tables addresses partition firstOffset
        (fresh.zipIdx start)).run stripe = .ok receipts final ∧ final.blocks = blocks ∧
      Grown tables view partition
        (durableEvents view.shard partition firstOffset (fresh.zipIdx start)) final ∧
      (fresh = [] → final = stripe) := by
  by_cases hempty : fresh = []
  · subst hempty
    cases htakes
    exact ⟨[], stripe, rfl, rfl, grown_nil h hcomplete, fun _ => rfl⟩
  · have hprecedes := hfresh.resolve_left hempty
    have hleads := @leads_applyEvents stage tables partition firstOffset fresh addresses start view
      stripe h hcomplete ⟨hprecedes.before, hroom, hprecedes.fits⟩
    rw [htakes] at hleads
    obtain ⟨receipts, final, hrun, hblocks⟩ := hleads.exists_run
    have htook := (triple_applyEvents addresses partition firstOffset hcomplete (by
      have hfits := hprecedes.fits
      grind)).of_ok h hrun
    exact ⟨receipts, final, hrun, hblocks, hprecedes.grown_of_tookAll htook,
      fun hnil => absurd hnil hempty⟩

/-- A batch of stored records and records beyond all stored ones is accepted: only the new ones are
stored, and without new ones only the dictionaries change. If the first record that is not stored
differs from the stored one at its offset, the batch is refused, and only the dictionaries change.
-/
theorem applyOtlpEvents_replay (h : HotExact tables frames stripe) {events : List OtlpLogEvent}
    {adopted : stage.State} (hfits : firstOffset.toNat + events.length ≤ 2 ^ 64)
    (hadopts : stage.adopts stripe.blocks = some adopted) (addresses : Nat → UInt64) :
    let stored := stripe.hotRecords partition
    let batch := durableEvents stripe.streamShardId partition firstOffset events.zipIdx
    let fresh := batch.filter fun record => record ∉ stored
    (∀ blocks, (∀ record ∈ batch, record ∈ stored ∨
        ∀ earlier ∈ stored, earlier.recordRef.offset < record.recordRef.offset) →
      stored.length + fresh.length ≤ 2 ^ 32 → stage.takesAll adopted fresh = some blocks →
      ∃ receipts final, (applyOtlpEvents tables addresses partition firstOffset events).run stripe =
          .ok receipts final ∧
        final.blocks = blocks ∧ HotExact tables frames final ∧
        (∀ other, final.hotRecords other =
          stripe.hotRecords other ++ if other = partition then fresh else []) ∧
        (fresh = [] → final = { stripe with blocks := adopted })) ∧
    ∀ index record earlier, batch[index]? = some record →
      (∀ previous ∈ batch.take index, previous ∈ stored) → earlier ∈ stored →
      earlier.recordRef.offset = record.recordRef.offset → earlier ≠ record →
      (applyOtlpEvents tables addresses partition firstOffset events).run stripe =
        .error (.conflictingRecord partition record.recordRef.offset)
          { stripe with blocks := adopted } := by
  obtain ⟨view, hcomplete, rfl, hholds⟩ := h
  have hnext : Holds tables view { stripe with blocks := adopted } := hholds.setBlocks adopted
  have hindices : ∀ event ∈ events.zipIdx 0, firstOffset.toNat + event.2 < 2 ^ 64 := by grind
  rw [show durableEvents stripe.streamShardId partition firstOffset events.zipIdx =
    durableEvents view.shard partition firstOffset events.zipIdx by rw [hholds.shard]]
  simp only [hholds.hotRecords_eq]
  constructor
  · intro blocks hbatch hroom htakes
    obtain ⟨repeated, fresh, rfl, hrepeated, hfresh⟩ := Progress.exists_split hfits hbatch
    have hparts : durableEvents view.shard partition firstOffset (repeated ++ fresh).zipIdx =
        durableEvents view.shard partition firstOffset repeated.zipIdx ++
          durableEvents view.shard partition firstOffset (fresh.zipIdx (0 + repeated.length)) := by
      rw [List.zipIdx_append]
      exact List.map_append
    have hfilter : (durableEvents view.shard partition firstOffset
        (repeated ++ fresh).zipIdx).filter (fun record => record ∉ (view.progress partition).stored) =
        durableEvents view.shard partition firstOffset (fresh.zipIdx (0 + repeated.length)) := by
      rw [hparts, List.filter_append, List.filter_eq_nil_iff.mpr (by simpa using hrepeated),
        List.nil_append, List.filter_eq_self]
      rcases hfresh with rfl | hprecedes
      · simp [durableEvents]
      · simpa using hprecedes.not_mem
    rw [hfilter] at hroom htakes ⊢
    have hlength : (durableEvents view.shard partition firstOffset
        (fresh.zipIdx (0 + repeated.length))).length = fresh.length := by simp [durableEvents]
    rw [hlength] at hroom
    obtain ⟨receipts, final, hrun, hblocks, ⟨progress, htook, hfinal⟩, hsame⟩ : ∃ receipts final,
          (applyOtlpEvents tables addresses partition firstOffset (repeated ++ fresh)).run stripe =
            .ok receipts final ∧ final.blocks = blocks ∧
          Grown tables view partition (durableEvents view.shard partition firstOffset
            (fresh.zipIdx (0 + repeated.length))) final ∧
          (fresh = [] → final = { stripe with blocks := adopted }) := by
      cases repeated with
      | nil =>
        by_cases hempty : fresh = []
        · subst hempty
          obtain ⟨refreshed, hbegin⟩ := run_beginAppendBatch hadopts
          cases htakes
          refine ⟨[], _, ?_, rfl, grown_nil hnext (hcomplete partition), fun _ => rfl⟩
          rw [applyOtlpEvents, EStateM.run_bind, hbegin]
          rfl
        · have hprecedes := hfresh.resolve_left hempty
          have hleads := leads_applyOtlpEvents addresses hholds (hcomplete partition)
            ⟨hprecedes.before, hroom, hprecedes.fits⟩
          have htakes' : stage.takesAll adopted (durableEvents view.shard partition firstOffset
            fresh.zipIdx) = some blocks := htakes
          rw [hadopts, Option.bind_some, htakes'] at hleads
          obtain ⟨receipts, final, hrun, hblocks⟩ := hleads.exists_run
          have htook := (triple_applyOtlpEvents addresses partition firstOffset fresh
            (hcomplete partition)).of_ok hholds hrun
          exact ⟨receipts, final, hrun, hblocks, hprecedes.grown_of_tookAll htook,
            fun hnil => absurd hnil hempty⟩
      | cons event others =>
        have hmem := hrepeated _ List.mem_cons_self
        have hoverlap : firstOffset ≤ UInt64.ofNat (firstOffset.toNat + 0) := by
          rw [UInt64.le_iff_toNat_le]
          exact (toNat_batchOffset (show firstOffset.toNat + 0 < 2 ^ 64 from
            firstOffset.toNat_lt)).ge
        obtain ⟨receipts, hrest⟩ := run_applyEvents_append hnext addresses
          (fun event hevent => hindices event (by grind)) hrepeated
        obtain ⟨later, final, hrun, hblocks, hgrown, hsame⟩ := hnext.exists_run_applyEvents
          (hcomplete partition) hfresh hroom htakes addresses
        refine ⟨receipts ++ later, final, ?_, hblocks, hgrown, hsame⟩
        rw [hholds.run_applyOtlpEvents_of_overlap hfits hadopts hmem hoverlap, List.zipIdx_append,
          hrest, EStateM.run_bind, hrun]
        rfl
    refine ⟨receipts, final, hrun, hblocks, ⟨_, hcomplete.set htook.complete, rfl, hfinal⟩, ?_, ?_⟩
    · intro other
      rw [hfinal.hotRecords_eq, View.progress_set]
      split
      · rename_i heq
        rw [htook.stored, heq]
      · rw [List.append_nil]
    · intro hnil
      apply hsame
      rwa [← List.length_eq_zero_iff, hlength, List.length_eq_zero_iff] at hnil
  · intro index record earlier hrecord hprevious hearlier hoffset hne
    obtain ⟨event, hevent, rfl⟩ := by
      rw [durableEvents, List.getElem?_map, Option.map_eq_some_iff] at hrecord
      exact hrecord
    obtain ⟨hlt, hat⟩ := List.getElem?_eq_some_iff.mp hevent
    have hmem : event ∈ events.zipIdx 0 := List.mem_of_getElem? hevent
    have hoverlap : firstOffset ≤ earlier.recordRef.offset := by
      rw [hoffset, UInt64.le_iff_toNat_le]
      exact (Nat.le_add_right _ _).trans_eq (toNat_batchOffset (hindices event hmem)).symm
    obtain ⟨receipts, hrepeated⟩ := @run_applyEvents_append stage tables view
      { stripe with blocks := adopted } partition firstOffset hnext addresses
      ((events.zipIdx 0).take index) ((events.zipIdx 0).drop index)
      (fun event hevent => hindices event (List.mem_of_mem_take hevent))
      (by rwa [durableEvents, List.map_take])
    obtain ⟨receipt, hconflict⟩ := @Holds.run_applyDurableIdempotent_of_mem stage tables view
      { stripe with blocks := adopted } (intoDurable event.1 view.shard partition _) hnext
      (addresses event.2) earlier hearlier hoffset
    rw [if_pos hne, ← hholds.shard] at hconflict
    rw [List.take_append_drop, List.drop_eq_getElem_cons hlt, hat, applyEvents,
      batchOffset_eq (hindices event hmem)] at hrepeated
    rw [hholds.run_applyOtlpEvents_of_overlap hfits hadopts hearlier hoverlap, hrepeated]
    change (((applyDurableIdempotent tables (addresses event.2) (intoDurable event.1
      stripe.streamShardId partition _) >>= _) >>= _ : StripeM stage _).run _) = _
    rw [EStateM.run_bind, EStateM.run_bind, hconflict]
    rfl

/-- With one event stored, a batch that repeats it and adds another, and a batch that
differs from it. -/
theorem applyOtlpEvents_replay_sample :
    let stripe : LogStripe idleStage := finalState ((applyOtlpEvents latinTables (fun _ => 0)
      samplePartition 0 [sampleEvent]).run { streamShardId := 0, blocks := () })
    (∃ receipts final, (applyOtlpEvents latinTables (fun _ => 0) samplePartition 0
        [sampleEvent, sampleEvent]).run stripe = .ok receipts final ∧
      final.hotRecords samplePartition = stripe.hotRecords samplePartition ++
        [intoDurable sampleEvent 0 samplePartition 1]) ∧
    (applyOtlpEvents latinTables (fun _ => 0) samplePartition 0
      [{ sampleEvent with message := ['b'] }]).run stripe =
        .error (.conflictingRecord samplePartition 0) stripe := by
  intro stripe
  have hexact : HotExact latinTables [] stripe :=
    (triple_applyOtlpEvents_hotExact _ _ _ _ _).finalState
      (@HotVisited.fresh idleStage latinTables 0 ()).hotExact
  constructor
  · obtain ⟨receipts, final, hrun, _, _, hrecords, _⟩ := (@applyOtlpEvents_replay
      idleStage latinTables [] stripe samplePartition 0 hexact [sampleEvent, sampleEvent] ()
      (by decide) rfl fun _ => 0).1 () (by decide) (by decide) rfl
    exact ⟨receipts, final, hrun, hrecords samplePartition⟩
  · exact (@applyOtlpEvents_replay idleStage latinTables [] stripe samplePartition 0 hexact
      [{ sampleEvent with message := ['b'] }] () (by decide) rfl fun _ => 0).2
      0 _ (intoDurable sampleEvent 0 samplePartition 0) rfl (by decide)
        (by decide) (by decide) (by decide)

/-- Records at the offsets 0 and 2: a batch that repeats both has a record in the gap. -/
theorem applyOtlpEvents_replay_gap : ∃ stripe : LogStripe idleStage, HotVisited latinTables stripe ∧
    (∀ record ∈ durableEvents 0 samplePartition 0 (List.replicate 3 sampleEvent).zipIdx,
      ∀ earlier ∈ stripe.hotRecords samplePartition,
        earlier.recordRef.offset = record.recordRef.offset → earlier = record) ∧
    ∃ final, (applyOtlpEvents latinTables (fun _ => 0) samplePartition 0
      (List.replicate 3 sampleEvent)).run stripe =
        .error (.offsetOutOfOrder samplePartition 3 1) final := by
  have hvisited := ((@HotVisited.fresh idleStage latinTables 0 ()).attempt (.applyDurable 0
    (intoDurable sampleEvent 0 samplePartition 0))).attempt (.applyDurable 0
      (intoDurable sampleEvent 0 samplePartition 2))
  refine ⟨_, hvisited, ?_, _, rfl⟩
  change ∀ record ∈ _, ∀ earlier ∈ [intoDurable sampleEvent 0 samplePartition 0,
    intoDurable sampleEvent 0 samplePartition 2], _
  decide

end ShardLog.Stripe
