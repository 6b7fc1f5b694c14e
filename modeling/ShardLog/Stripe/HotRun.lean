import ShardLog.Stripe.Hot

/-!
# Stripe - Batches and runs of the hot index

Every operation on the hot index of a stripe keeps it exact, also when it fails in
the middle of a batch, and so does every run of operations.

Main results:

- Theorem `HotReachable.hotExact`: the hot index after any run.
- Theorem `hotPostings_exact`: its posting lists, also after failed operations.
-/

namespace ShardLog.Stripe

open ByteReader Utf8 Stateful Triple List

variable {stage : BlockStage} {tables : UnicodeTables} {view : View} {stripe : LogStripe stage}
  {partition : TopicPartition} {firstOffset : LogicalOffset} {progress : Progress}
  {added : List DurableLogRecord} {first : OtlpLogEvent}
  {rest : List OtlpLogEvent} {records : List DurableLogRecord}

/-! ## Batches of events -/

/-- The durable records of the events of a batch. -/
def durableEvents (shard : ShardId) (partition : TopicPartition) (firstOffset : LogicalOffset)
    (events : List (OtlpLogEvent × Nat)) : List DurableLogRecord :=
  events.map fun event =>
    intoDurable event.1 shard partition (UInt64.ofNat (firstOffset.toNat + event.2))

/-- Offsets that fit. -/
theorem batchOffset_eq {index : Nat} (h : firstOffset.toNat + index < 2 ^ 64) :
    batchOffset partition firstOffset index = .ok (UInt64.ofNat (firstOffset.toNat + index)) :=
  if_pos h

/-- Records taken one after the other. -/
theorem Progress.Took.trans {middle final : Progress} {first second : List DurableLogRecord}
    (h : progress.Took first middle) (h' : middle.Took second final) :
    progress.Took (first ++ second) final where
  complete := h'.complete
  stored := by rw [h'.stored, h.stored, append_assoc]

theorem Grown.cons {record : DurableLogRecord}
    (htook : (view.progress partition).Took [record] progress)
    (h : Grown tables (view.set partition progress) partition added stripe) :
    Grown tables view partition (record :: added) stripe := by
  obtain ⟨next, htook', hnext⟩ := h
  rw [View.progress_set_self] at htook'
  rw [View.set_set] at hnext
  exact ⟨next, htook.trans htook', hnext⟩

/-- What a batch leaves behind: some of its records were taken. -/
def TookSome (tables : UnicodeTables) (view : View) (partition : TopicPartition)
    (records : List DurableLogRecord) (stripe : LogStripe stage) : Prop :=
  ∃ added, added.Sublist records ∧ Grown tables view partition added stripe

/-- What an accepted batch leaves behind: each of its records is a repetition or
was taken. -/
def TookAll (tables : UnicodeTables) (view : View) (partition : TopicPartition)
    (records : List DurableLogRecord) (stripe : LogStripe stage) : Prop :=
  ∃ added, added.Sublist records ∧
    (∀ record ∈ records, record ∈ (view.progress partition).stored ++ added) ∧
    Grown tables view partition added stripe

theorem tookSome_of_holds (h : Holds tables view stripe)
    (hcomplete : (view.progress partition).Complete) (records : List DurableLogRecord) :
    TookSome tables view partition records stripe :=
  ⟨[], nil_sublist _, grown_nil h hcomplete⟩

/-- Events published one by one: each is a repetition or is taken; a failure keeps
what was taken before. -/
theorem triple_applyEvents (addresses : Nat → UInt64) (partition : TopicPartition)
    (firstOffset : LogicalOffset) {events : List (OtlpLogEvent × Nat)} {view : View}
    (hcomplete : (view.progress partition).Complete)
    (hbound : ∀ event ∈ events, firstOffset.toNat + event.2 < 2 ^ 64) :
    Triple (Holds tables view)
      (applyEvents tables addresses partition firstOffset events : StripeM stage _)
      (fun _ => TookAll tables view partition
        (durableEvents view.shard partition firstOffset events))
      (TookSome tables view partition (durableEvents view.shard partition firstOffset events)) := by
  induction events generalizing view with
  | nil =>
    exact triple_pure fun stripe h => ⟨[], nil_sublist _, by simp [durableEvents],
      grown_nil h hcomplete⟩
  | cons event rest ih =>
    obtain ⟨event, index⟩ := event
    have hlt := hbound (event, index) mem_cons_self
    have hrest := fun event hevent => hbound event (mem_cons_of_mem _ hevent)
    rw [applyEvents, batchOffset_eq hlt]
    apply triple_ok_bind
    apply triple_get_bind
    intro current hcurrent
    rw [hcurrent.shard]
    set record := intoDurable event view.shard partition
      (UInt64.ofNat (firstOffset.toNat + index)) with hrecord
    apply bind fun _ stripe =>
      (record ∈ (view.progress partition).stored ∧ Holds tables view stripe) ∨
        Grown tables view partition [record] stripe
    · exact (triple_applyDurableIdempotent (addresses index) record hcomplete).consequence
        (fun _ h => h.2) (fun _ _ h => h) fun stripe h => tookSome_of_holds h hcomplete _
    intro receipt
    -- the rest of the batch runs from the old view or from the grown one
    apply bind fun _ => TookAll tables view partition
      (durableEvents view.shard partition firstOffset ((event, index) :: rest))
    · rintro stripe (⟨hmem, h⟩ | ⟨progress, htook, h⟩)
      · have hfinal := ih hcomplete hrest stripe h
        split at hfinal
        · obtain ⟨added, hsublist, hall, hgrown⟩ := hfinal
          exact ⟨added, hsublist.cons _, forall_mem_cons.mpr ⟨mem_append_left _ hmem, hall⟩, hgrown⟩
        · obtain ⟨added, hsublist, hgrown⟩ := hfinal
          exact ⟨added, hsublist.cons _, hgrown⟩
      · have hcomplete' : ((view.set partition progress).progress partition).Complete := by
          rw [View.progress_set_self]
          exact htook.complete
        have hfinal := ih hcomplete' hrest stripe h
        split at hfinal
        · obtain ⟨added, hsublist, hall, hgrown⟩ := hfinal
          rw [View.progress_set_self, htook.stored, append_assoc] at hall
          exact ⟨record :: added, hsublist.cons_cons _, forall_mem_cons.mpr
            ⟨mem_append_right _ mem_cons_self, hall⟩, .cons htook hgrown⟩
        · obtain ⟨added, hsublist, hgrown⟩ := hfinal
          exact ⟨record :: added, hsublist.cons_cons _, .cons htook hgrown⟩
    · intro later
      exact triple_pure fun stripe h => h

/-- Progress with records that are stored and not yet indexed. -/
def Progress.defer (progress : Progress) (deferred : List DurableLogRecord) : Progress :=
  { progress with stored := progress.stored ++ deferred }

/-- The last of the deferred records, by ordinal and offset. -/
def lastDeferredOf (count : Nat) (deferred : List DurableLogRecord) :
    Option (Nat × LogicalOffset) :=
  deferred.getLast?.map fun last => (count + deferred.length - 1, last.recordRef.offset)

section Homogeneous

variable {base : Progress} {message : Str}
  {fields : List MetadataField} {termIds fieldIds : List Nat} {deferred : List DurableLogRecord}

variable (hbase : base.Complete) {firstOrdinal : Nat}
  (hordinal : firstOrdinal + 1 = base.stored.length)
  (hterms : Numbers (AssocMap.get base.termIds) (termKeys tables message) termIds)
  (hfields : Numbers (lookupField base.fieldIds) (fieldKeys fields) fieldIds)

include hbase hordinal hterms hfields

/-- Publishing the deferred records takes them to the end. -/
theorem triple_publishDeferred
    (hsame : ∀ record ∈ deferred, record.message = message ∧ record.fields = fields) :
    Triple (Holds tables (view.set partition (base.defer deferred)))
      (publishDeferred partition firstOrdinal termIds fieldIds
        (lastDeferredOf base.stored.length deferred) : StripeM stage Unit)
      (fun _ stripe => ∃ progress, base.Took deferred progress ∧
        Holds tables (view.set partition progress) stripe)
      (fun _ => False) := by
  cases hlast : deferred.getLast? with
  | none =>
    have hnil := getLast?_eq_none_iff.mp hlast
    subst hnil
    apply triple_pure
    intro stripe h
    exact ⟨base, ⟨hbase, (append_nil _).symm⟩, by simpa [Progress.defer] using h⟩
  | some last =>
    have hne : deferred ≠ [] := by
      rintro rfl
      cases hlast
    rw [lastDeferredOf, hlast, Option.map_some, publishDeferred, hordinal]
    apply triple_modify
    intro stripe h
    have hindexes := h.indexes partition
    rw [View.progress_set_self] at hindexes
    have htermed := hindexes.pushTerms hterms hne
      (fun record hrecord => congrArg _ (hsame record hrecord).1)
    have hfielded := htermed.pushFields hfields hne
      (fun record hrecord => congrArg _ (hsame record hrecord).2)
    dsimp only [Progress.defer] at hfielded
    rw [hbase.termed, hbase.fielded] at hfielded
    have hpublished := h.modifyPartition_of_same partition
      ⟨base.stored ++ deferred, base.stored ++ deferred, base.stored ++ deferred,
        base.stored ++ deferred, base.termIds, base.fieldIds⟩
      (f := fun index => { (index.pushTerms termIds base.stored.length
          (base.stored.length + deferred.length - 1)).pushFields fieldIds base.stored.length
          (base.stored.length + deferred.length - 1) with
        indexedThrough := some last.recordRef.offset })
      { hfielded with published := by simp [getLast?_append, hlast] }
      (by rw [View.progress_set_self]; rfl) (by rw [View.progress_set_self]; rfl)
    rw [View.set_set] at hpublished
    exact ⟨_, ⟨⟨rfl, rfl, rfl⟩, rfl⟩, hpublished⟩

/-- Deferred events are stored one by one; a failure publishes what was stored. -/
theorem triple_applyDeferred (addresses : Nat → UInt64) (firstOffset : LogicalOffset)
    {events : List (OtlpLogEvent × Nat)} {deferred : List DurableLogRecord}
    (hdeferred : ∀ record ∈ deferred, record.message = message ∧ record.fields = fields)
    (hbound : ∀ event ∈ events, firstOffset.toNat + event.2 < 2 ^ 64)
    (hevents : ∀ event ∈ events, event.1.message = message ∧ event.1.fields = fields) :
    Triple (Holds tables (view.set partition (base.defer deferred)))
      (applyDeferred tables addresses partition firstOffset firstOrdinal termIds fieldIds events
        (lastDeferredOf base.stored.length deferred) : StripeM stage _)
      (fun result stripe => result.2 = lastDeferredOf base.stored.length
          (deferred ++ durableEvents view.shard partition firstOffset events) ∧
        Holds tables (view.set partition
          (base.defer (deferred ++ durableEvents view.shard partition firstOffset events))) stripe)
      (fun stripe => ∃ added progress,
        added.Sublist (durableEvents view.shard partition firstOffset events) ∧
        base.Took (deferred ++ added) progress ∧
        Holds tables (view.set partition progress) stripe) := by
  induction events generalizing deferred with
  | nil =>
    apply triple_pure
    intro stripe h
    simp only [durableEvents, map_nil, append_nil]
    exact ⟨trivial, h⟩
  | cons event rest ih =>
    obtain ⟨event, index⟩ := event
    have hlt := hbound (event, index) mem_cons_self
    rw [applyDeferred, batchOffset_eq hlt]
    apply triple_ok_bind
    apply triple_get_bind
    intro current hcurrent
    have hshard : current.streamShardId = view.shard := hcurrent.shard
    rw [hshard]
    set record := intoDurable event view.shard partition
      (UInt64.ofNat (firstOffset.toNat + index)) with hrecord
    have hstored : ∀ other ∈ deferred ++ [record],
        other.message = message ∧ other.fields = fields := by
      rw [forall_mem_append, forall_mem_singleton]
      exact ⟨hdeferred, hevents (event, index) mem_cons_self⟩
    apply attempt_bind (fun applied stripe =>
      applied.ordinal = (base.defer deferred).stored.length ∧
        Holds tables (view.set partition (base.defer (deferred ++ [record]))) stripe)
      (Holds tables (view.set partition (base.defer deferred)))
    · refine (@triple_applyDurableNewInner_deferred stage tables
        (view.set partition (base.defer deferred)) (addresses index) record).consequence
        (fun _ h => h.2) ?_
      rintro applied stripe ⟨happlied, h⟩
      have hview : (view.set partition (base.defer deferred)).progressOf record =
          base.defer deferred := View.progress_set_self view partition _
      rw [hview] at happlied
      have hset : (view.set partition (base.defer deferred)).store record =
          view.set partition (base.defer (deferred ++ [record])) := by
        rw [View.store, hview, show record.recordRef.topicPartition = partition from rfl,
          View.set_set]
        simp [Progress.defer, Progress.store]
      exact ⟨happlied, hset ▸ h⟩
    · intro applied
      have hlast : (applied.ordinal = (base.defer deferred).stored.length) →
          some (applied.ordinal, UInt64.ofNat (firstOffset.toNat + index)) =
            lastDeferredOf base.stored.length (deferred ++ [record]) := by
        intro happlied
        have hoffset : record.recordRef.offset = UInt64.ofNat (firstOffset.toNat + index) := rfl
        rw [lastDeferredOf, getLast?_concat, Option.map_some, happlied, hoffset]
        simp only [Progress.defer, length_append, length_singleton]
        congr 2
      have hsplit : deferred ++ durableEvents view.shard partition firstOffset
          ((event, index) :: rest) = deferred ++ [record] ++
            durableEvents view.shard partition firstOffset rest := by
        simp [durableEvents, hrecord]
      apply triple_of_and
      intro happlied
      dsimp only
      rw [hlast happlied, hsplit]
      have hnext := ih hstored (fun event hevent => hbound event (mem_cons_of_mem _ hevent))
        (fun event hevent => hevents event (mem_cons_of_mem _ hevent))
      apply bind _ (hnext.consequence (fun _ h => h) (fun _ _ h => h) ?_)
      · intro later
        exact triple_pure fun stripe h => h
      · rintro stripe ⟨added, progress, hsublist, htook, h⟩
        exact ⟨record :: added, progress, hsublist.cons_cons _, by rwa [append_assoc] at htook, h⟩
    · intro e
      apply bind fun _ stripe => ∃ progress, base.Took deferred progress ∧
        Holds tables (view.set partition progress) stripe
      · exact (triple_publishDeferred hbase hordinal hterms hfields hdeferred).consequence
          (fun _ h => h) (fun _ _ h => h) (fun _ h => h.elim)
      · intro _
        apply triple_throw
        rintro stripe ⟨progress, htook, h⟩
        exact ⟨[], progress, nil_sublist _, by rwa [append_nil], h⟩

end Homogeneous

/-- Events that are indexed as a range. -/
theorem triple_applyHomogeneousEvents (addresses : Nat → UInt64) (partition : TopicPartition)
    (firstOffset : LogicalOffset) (hcomplete : (view.progress partition).Complete)
    (hbound : ∀ event ∈ rest.zipIdx 1, firstOffset.toNat + event.2 < 2 ^ 64)
    (hsame : ∀ event ∈ rest, event.message = first.message ∧ event.fields = first.fields) :
    Triple (Holds tables view)
      (applyHomogeneousEvents tables addresses partition firstOffset first rest : StripeM stage _)
      (fun _ => TookAll tables view partition
        (durableEvents view.shard partition firstOffset ((first :: rest).zipIdx 0)))
      (TookSome tables view partition
        (durableEvents view.shard partition firstOffset ((first :: rest).zipIdx 0))) := by
  set record := intoDurable first view.shard partition firstOffset with hrecord
  set deferred := durableEvents view.shard partition firstOffset (rest.zipIdx 1) with hdeferred
  have hall : durableEvents view.shard partition firstOffset ((first :: rest).zipIdx 0) =
      record :: deferred := by
    simp [durableEvents, hrecord, hdeferred, zipIdx_cons]
  have hrest : ∀ event ∈ rest.zipIdx 1,
      event.1.message = first.message ∧ event.1.fields = first.fields := by grind
  rw [hall]
  apply triple_get_bind
  intro current hcurrent
  rw [hcurrent.shard]
  apply bind _ ((triple_applyDurableNewInner_indexed (addresses 0) record
    hcomplete).consequence (fun _ h => h.2) (fun _ _ h => h)
    fun stripe h => tookSome_of_holds h hcomplete _)
  intro applied
  apply triple_of_and
  intro hordinal
  rintro stripe ⟨base, hbase, hholds, hterms, hfields⟩
  have hlength : applied.ordinal + 1 = base.stored.length := by
    rw [hordinal, hbase.stored, length_append]
    rfl
  have hsamples : ∀ other ∈ deferred,
      other.message = record.message ∧ other.fields = record.fields := by
    intro other hother
    obtain ⟨event, hevent, rfl⟩ := mem_map.mp hother
    exact hrest event hevent
  -- the deferred records are stored first and published last
  have hstore := @triple_applyDeferred stage tables view partition base record.message record.fields
    (applied.termIds.getD []) (applied.fieldIds.getD []) hbase.complete applied.ordinal hlength
    hterms hfields addresses firstOffset (rest.zipIdx 1) [] (by simp) hbound hrest
  have hpublish := @triple_publishDeferred stage tables view partition base record.message
    record.fields (applied.termIds.getD []) (applied.fieldIds.getD []) deferred hbase.complete
    applied.ordinal hlength hterms hfields hsamples
  refine bind _ (hstore.consequence (fun _ h => h) (fun _ _ h => h) ?_) ?_ stripe ?_
  · rintro stripe ⟨added, progress, hsublist, htook, h⟩
    exact ⟨record :: added, hsublist.cons_cons _, progress, hbase.trans htook, h⟩
  · intro result
    apply triple_of_and
    intro hlast
    rw [hlast, nil_append]
    refine bind _ (hpublish.consequence (fun _ h => h) (fun _ _ h => h) fun _ h => h.elim) ?_
    intro _
    apply triple_pure
    rintro stripe ⟨progress, htook, h⟩
    refine ⟨record :: deferred, Sublist.refl _, ?_, progress, hbase.trans htook, h⟩
    exact fun other hother => mem_append_right _ hother
  · have hstart : base.defer [] = base := by simp [Progress.defer]
    rw [hstart]
    exact hholds

/-- A valid batch has offsets that fit. -/
theorem validateBatchOffsetRange_bound {count : Nat}
    (h : validateBatchOffsetRange partition firstOffset count = .ok ()) :
    ∀ index < count, firstOffset.toNat + index < 2 ^ 64 := by
  cases count with
  | zero => simp
  | succ last =>
    obtain ⟨offset, hoffset, _⟩ := bind_eq_ok_iff.mp h
    intro index hindex
    unfold batchOffset at hoffset
    split at hoffset
    · omega
    · cases hoffset

theorem triple_beginAppendBatch : Triple (Holds tables view) (beginAppendBatch : StripeM stage Bool)
      (fun _ => Holds tables view) (Holds tables view) := by
  apply bind fun _ => Holds tables view
  · exact triple_modifyGet fun stripe h => h.setBlocks _
  · intro refreshed
    exact triple_liftResult (fun _ _ _ h => h) fun _ h => h

/-- A range has one message and one list of fields. -/
theorem same_of_canIndexAsHomogeneousRange
    (h : stripe.canIndexAsHomogeneousRange partition firstOffset (first :: rest) = true) :
    ∀ event ∈ rest, event.message = first.message ∧ event.fields = first.fields := by
  cases rest with
  | nil => simp
  | cons second rest =>
    simp only [LogStripe.canIndexAsHomogeneousRange, Bool.and_eq_true, all_eq_true, beq_iff_eq] at h
    intro event hevent
    exact ⟨(h.2 event hevent).1.symm, (h.2 event hevent).2.symm⟩

/-- A batch of events: an accepted one leaves each record taken or repeated, a
failed one leaves some of them taken. -/
theorem triple_applyOtlpEvents (addresses : Nat → UInt64) (partition : TopicPartition)
    (firstOffset : LogicalOffset) (events : List OtlpLogEvent)
    (hcomplete : (view.progress partition).Complete) :
    Triple (Holds tables view)
      (applyOtlpEvents tables addresses partition firstOffset events : StripeM stage _)
      (fun _ => TookAll tables view partition
        (durableEvents view.shard partition firstOffset (events.zipIdx 0)))
      (TookSome tables view partition
        (durableEvents view.shard partition firstOffset (events.zipIdx 0))) := by
  have hfailed : ∀ stripe : LogStripe stage, Holds tables view stripe →
      TookSome tables view partition
        (durableEvents view.shard partition firstOffset (events.zipIdx 0)) stripe :=
    fun stripe h => tookSome_of_holds h hcomplete _
  apply bind _ (triple_beginAppendBatch.consequence (fun _ h => h) (fun _ _ h => h) hfailed)
  intro _
  refine triple_liftResult_bind hfailed fun _ hvalid => ?_
  have hbound := validateBatchOffsetRange_bound hvalid
  have hindices : ∀ event ∈ events.zipIdx 0, firstOffset.toNat + event.2 < 2 ^ 64 := by grind
  apply triple_get_bind
  intro current hcurrent
  cases events with
  | nil =>
    exact triple_pure fun stripe h =>
      ⟨[], nil_sublist _, by simp [durableEvents], grown_nil h.2 hcomplete⟩
  | cons first rest =>
    dsimp only
    split
    · rename_i hhomogeneous
      apply (triple_applyHomogeneousEvents addresses partition firstOffset hcomplete ?_
        (same_of_canIndexAsHomogeneousRange hhomogeneous)).consequence fun _ h => h.2
      intro event hevent
      apply hindices
      rw [zipIdx_cons]
      exact mem_cons_of_mem _ hevent
    · exact (triple_applyEvents addresses partition firstOffset hcomplete hindices).consequence
        fun _ h => h.2

/-! ## Sealing and ingest packs -/

/-- Sealing changes nothing hot. -/
theorem triple_sealActiveBlocks :
    Triple (Holds tables view) (sealActiveBlocks : StripeM stage (List stage.Descriptor))
      (fun _ => Holds tables view) (Holds tables view) := by
  apply bind fun _ => Holds tables view
  · exact triple_modifyGet fun stripe h => h.settle _
  · intro result
    exact triple_liftResult (fun _ _ _ h => h) fun _ h => h

/-! ## Runs -/

/-- The records of a partition's hot index. -/
def LogStripe.hotRecords (stripe : LogStripe stage) (partition : TopicPartition) :
    List DurableLogRecord :=
  (stripe.partitionOf partition).records.map (·.record)

/-- The records of a view. -/
theorem Holds.hotRecords_eq (h : Holds tables view stripe) (partition : TopicPartition) :
    stripe.hotRecords partition = (view.progress partition).stored :=
  (h.indexes partition).stored

/-- Operations that publish records on the hot index or seal its blocks. -/
inductive HotOperation where
  | applyDurable (address : UInt64) (record : DurableLogRecord)
  | applyOtlpEvents (addresses : Nat → UInt64) (partition : TopicPartition)
      (firstOffset : LogicalOffset) (events : List OtlpLogEvent)
  | sealActiveBlocks

/-- The program of an operation, without its receipts. -/
def HotOperation.program (tables : UnicodeTables) : HotOperation → StripeM stage Unit
  | .applyDurable address record => do
      let _ ← Stripe.applyDurable tables address record
      pure ()
  | .applyOtlpEvents addresses partition firstOffset events => do
      let _ ← Stripe.applyOtlpEvents tables addresses partition firstOffset events
      pure ()
  | .sealActiveBlocks => do
      let _ ← Stripe.sealActiveBlocks
      pure ()

/-- The stripes that successful operations reach from a fresh stripe. -/
inductive HotReachable (tables : UnicodeTables) : LogStripe stage → Prop
  | fresh (shard : ShardId) (blocks : stage.State) :
      HotReachable tables { streamShardId := shard, blocks := blocks }
  | step {stripe final : LogStripe stage} (operation : HotOperation) :
      HotReachable tables stripe → (operation.program tables).run stripe = .ok () final →
      HotReachable tables final

/-- Every stored record of every partition is indexed and published. -/
def View.Complete (view : View) : Prop := ∀ partition, (view.progress partition).Complete

theorem View.Complete.set (h : view.Complete) (hprogress : progress.Complete) :
    (view.set partition progress).Complete := by
  intro other
  rw [View.progress_set]
  split
  · exact hprogress
  · exact h other

/-- A stripe whose hot index is exact for all records it stores. -/
def HotExact (tables : UnicodeTables)
    (frames : List (TopicPartition × IndexedFramePartition)) (stripe : LogStripe stage) : Prop :=
  ∃ view : View, view.Complete ∧ view.frames = frames ∧ Holds tables view stripe

/-- A grown stripe is exact. -/
theorem Grown.hotExact (h : Grown tables view partition added stripe) (hcomplete : view.Complete) :
    HotExact tables view.frames stripe := by
  obtain ⟨progress, htook, hholds⟩ := h
  exact ⟨view.set partition progress, hcomplete.set htook.complete, rfl, hholds⟩

theorem TookSome.hotExact (h : TookSome tables view partition records stripe)
    (hcomplete : view.Complete) :
    HotExact tables view.frames stripe := by
  obtain ⟨added, _, hgrown⟩ := h
  exact hgrown.hotExact hcomplete

theorem TookAll.hotExact (h : TookAll tables view partition records stripe)
    (hcomplete : view.Complete) :
    HotExact tables view.frames stripe := by
  obtain ⟨added, _, _, hgrown⟩ := h
  exact hgrown.hotExact hcomplete

/-- A batch keeps the index exact. -/
theorem triple_applyOtlpEvents_hotExact (addresses : Nat → UInt64) (partition : TopicPartition)
    (firstOffset : LogicalOffset) (events : List OtlpLogEvent)
    (frames : List (TopicPartition × IndexedFramePartition)) :
    Triple (HotExact tables frames)
      (applyOtlpEvents tables addresses partition firstOffset events : StripeM stage _)
      (fun _ => HotExact tables frames) (HotExact tables frames) := by
  rintro stripe ⟨view, hcomplete, rfl, hholds⟩
  exact ((triple_applyOtlpEvents addresses partition firstOffset events
    (hcomplete partition)).consequence (fun _ h => h) (fun _ _ h => h.hotExact hcomplete)
      fun _ h => h.hotExact hcomplete) stripe hholds

/-- No operation makes the hot index wrong, whether it succeeds or fails. -/
theorem triple_hotOperation (operation : HotOperation)
    (frames : List (TopicPartition × IndexedFramePartition)) :
    Triple (HotExact tables frames) (operation.program tables : StripeM stage Unit)
      (fun _ => HotExact tables frames) (HotExact tables frames) := by
  rintro stripe ⟨view, hcomplete, rfl, hholds⟩
  have hfailed : ∀ stripe : LogStripe stage, Holds tables view stripe →
      HotExact tables view.frames stripe := fun stripe h => ⟨view, hcomplete, rfl, h⟩
  cases operation with
  | applyDurable address record =>
    refine bind _ ((triple_applyDurable address record (hcomplete _)).consequence
      (fun _ h => h) (fun _ _ h => h.hotExact hcomplete) hfailed) ?_ stripe hholds
    exact fun _ => triple_pure fun _ h => h
  | applyOtlpEvents addresses partition firstOffset events =>
    refine bind _ (triple_applyOtlpEvents_hotExact addresses partition firstOffset events
      _) ?_ stripe (hfailed stripe hholds)
    exact fun _ => triple_pure fun _ h => h
  | sealActiveBlocks =>
    refine bind _ (triple_sealActiveBlocks.consequence (fun _ h => h) (fun _ => hfailed)
      hfailed) ?_ stripe hholds
    exact fun _ => triple_pure fun _ h => h

/-- The hot index after any run is exact, and no frames were indexed. -/
theorem HotReachable.hotExact (h : HotReachable tables stripe) : HotExact tables [] stripe := by
  induction h with
  | fresh shard blocks =>
    exact ⟨⟨shard, [], fun _ => {}⟩, fun _ => ⟨rfl, rfl, rfl⟩, rfl, holds_fresh shard blocks⟩
  | step operation _ hrun ih => exact (triple_hotOperation operation []).of_ok ih hrun

/-! ## Postings of the hot index -/

/-- The stripes that operations reach from a fresh stripe, whether they succeed or
fail. -/
inductive HotVisited (tables : UnicodeTables) : LogStripe stage → Prop
  | fresh (shard : ShardId) (blocks : stage.State) :
      HotVisited tables { streamShardId := shard, blocks := blocks }
  | attempt {stripe : LogStripe stage} (operation : HotOperation) : HotVisited tables stripe →
      HotVisited tables (finalState ((operation.program tables).run stripe))

/-- So does any history. -/
theorem HotVisited.hotExact (h : HotVisited tables stripe) : HotExact tables [] stripe := by
  induction h with
  | fresh shard blocks =>
    exact ⟨⟨shard, [], fun _ => {}⟩, fun _ => ⟨rfl, rfl, rfl⟩, rfl, holds_fresh shard blocks⟩
  | attempt operation _ ih => exact (triple_hotOperation operation []).finalState ih

/-- A posting list has, in order and counted, the ordinals of the records with a
key. -/
structure ListsRecords (records : List DurableLogRecord) (hasKey : DurableLogRecord → Prop)
    (list : HotPostingList) : Prop where
  increasing : list.ordinals.Pairwise (· < ·)
  mem_iff : ∀ ordinal, ordinal ∈ list.ordinals ↔
    ∃ record, records[ordinal]? = some record ∧ hasKey record
  counted : list.cardinality = list.ordinals.length

/-- A numbered key lists its records. -/
theorem Inverts.listsRecords {κ : Type} [DecidableEq κ] {lookup : κ → Option Nat}
    {postings : List HotPostingList} {keys : DurableLogRecord → List κ}
    (h : Inverts lookup postings (records.map keys)) {key : κ} {id : Nat}
    (hid : lookup key = some id) :
    ∃ list, postings[id]? = some list ∧ ListsRecords records (fun record => key ∈ keys record) list := by
  obtain ⟨list, hlist, hwell, hordinals⟩ := h.holds hid
  refine ⟨list, hlist, HotPostingList.pairwise_ordinals hwell, fun ordinal => ?_, hwell.counted⟩
  rw [hordinals, Sorted.mem_ordinalsWith]
  simp only [length_map, getElem_map]
  constructor
  · grind
  · grind

/-- After any calls, successful or not, every record is visible and the postings of a term or field
are the records with it. -/
theorem hotPostings_exact (h : HotVisited tables stripe) (partition : TopicPartition) :
    (stripe.partitionOf partition).indexedThrough =
        (stripe.hotRecords partition).getLast?.map (·.recordRef.offset) ∧
      (∀ term id, AssocMap.get (stripe.partitionOf partition).termIds term = some id →
        ∃ list, (stripe.partitionOf partition).termPostings[id]? = some list ∧
          ListsRecords (stripe.hotRecords partition)
            (fun record => term ∈ termKeys tables record.message) list) ∧
      ∀ field id, lookupField (stripe.partitionOf partition).fieldIds field = some id →
        ∃ list, (stripe.partitionOf partition).fieldPostings[id]? = some list ∧
          ListsRecords (stripe.hotRecords partition)
            (fun record => field ∈ fieldKeys record.fields) list := by
  obtain ⟨view, hcomplete, _, hholds⟩ := h.hotExact
  have hindexes := hholds.indexes partition
  have hall := hcomplete partition
  have hterms := hindexes.terms
  have hfields := hindexes.fields
  rw [hall.termed, ← hindexes.termIds] at hterms
  rw [hall.fielded, ← hindexes.fieldIds] at hfields
  rw [hholds.hotRecords_eq, hindexes.published, hall.published]
  exact ⟨rfl, fun term id hid => hterms.listsRecords hid, fun field id hid =>
    hfields.listsRecords hid⟩

/-- The second of two equal records is rejected and leaves the postings exact. -/
theorem hotPostings_exact_rejected : ∃ (record : DurableLogRecord) (stripe : LogStripe idleStage),
    HotVisited latinTables stripe ∧ stripe.hotRecords samplePartition = [record] ∧
      ∃ list, (stripe.partitionOf samplePartition).termPostings[0]? = some list ∧
        ListsRecords [record] (fun record => ['a'] ∈ termKeys latinTables record.message) list := by
  have hvisited := (@HotVisited.fresh idleStage latinTables 0 ()).attempt
    (.applyDurable 0 ⟨0, ⟨samplePartition, 0⟩, 0, ['a'], [⟨['k'], ['v']⟩], 0⟩)
  have hrejected := hvisited.attempt
    (.applyDurable 0 ⟨0, ⟨samplePartition, 0⟩, 0, ['a'], [⟨['k'], ['v']⟩], 0⟩)
  exact ⟨_, _, hrejected, rfl, (hotPostings_exact hrejected samplePartition).2.1 ['a'] 0 rfl⟩

end ShardLog.Stripe
