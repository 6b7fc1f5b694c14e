import ShardLog.Stripe.Agreement

/-!
# Stripe - When a publication succeeds

Beyond the offsets and the room for ordinals, only the block stage can refuse a
record.  A batch of new records is published exactly when the block stage takes its
records one after another.
-/

namespace ShardLog.Stripe

open ByteReader Ingest Stateful

/-! ## What the block stage takes -/

section Stage

variable (stage : BlockStage)

/-- Add a placed record: the next state, or nothing when the stage fails. -/
def BlockStage.admits (state : stage.State) (record : DurableLogRecord)
    (placement : stage.Placement) : Option stage.State :=
  match (stage.accept state record placement).result with
  | .ok _ => some (stage.accept state record placement).state
  | .error _ => none

/-- Place and add one record. -/
def BlockStage.takes (state : stage.State) (record : DurableLogRecord) : Option stage.State :=
  match stage.tentativePlacement state record with
  | (.ok placement, chosen) => stage.admits chosen record placement
  | (.error _, _) => none

/-- Place and add records one after another. -/
def BlockStage.takesAll : stage.State → List DurableLogRecord → Option stage.State
  | state, [] => some state
  | state, record :: rest =>
    (stage.takes state record).bind fun state => BlockStage.takesAll state rest

/-- Adopt the published dictionaries. -/
def BlockStage.adopts (state : stage.State) : Option stage.State :=
  match stage.refresh state with
  | (.ok _, adopted) => some adopted
  | (.error _, _) => none

end Stage

/-! ## Programs that follow the block stage -/

variable {stage : BlockStage} {tables : UnicodeTables} {view : View} {stripe : LogStripe stage}
  {α β : Type} {program : StripeM stage α} {outcome : Option stage.State}
  {next : α → StripeM stage β} {record : DurableLogRecord}

/-- The program succeeds with the given state of the block stage, or fails when none
is given. -/
def Leads (program : StripeM stage α) (stripe : LogStripe stage) (outcome : Option stage.State) :
    Prop :=
  match program.run stripe with
  | .ok _ final => outcome = some final.blocks
  | .error _ _ => outcome = none

/-- A program succeeds if it leads to blocks. -/
theorem Leads.exists_ok_iff (h : Leads program stripe outcome) :
    (∃ value final, program.run stripe = .ok value final) ↔ outcome.isSome = true := by
  unfold Leads at h
  cases hrun : program.run stripe with
  | ok value final =>
    rw [hrun] at h
    simp [h]
  | error e final =>
    rw [hrun] at h
    simp [h]

theorem Leads.exists_run {blocks : stage.State} (h : Leads program stripe (some blocks)) :
    ∃ value final, program.run stripe = .ok value final ∧ final.blocks = blocks := by
  unfold Leads at h
  cases hrun : program.run stripe with
  | ok value final =>
    rw [hrun] at h
    exact ⟨value, final, rfl, (Option.some.inj h).symm⟩
  | error e final =>
    rw [hrun] at h
    cases h

/-- Programs in a row. -/
theorem Leads.bind (later : stage.State → Option stage.State) (h : Leads program stripe outcome)
    (hnext : ∀ value final, program.run stripe = .ok value final →
      Leads (next value) final (later final.blocks)) :
    Leads (program >>= next) stripe (outcome.bind later) := by
  unfold Leads at h ⊢
  rw [EStateM.run_bind]
  cases hrun : program.run stripe with
  | ok value final =>
    rw [hrun] at h
    have hlater := hnext value final hrun
    rw [h, Option.bind_some]
    exact hlater
  | error e final =>
    rw [hrun] at h
    rw [h]
    rfl

/-- Programs that store the same records follow the block stage alike. -/
theorem Leads.of_agree {other : StripeM stage β} {start : LogStripe stage} {values : α → β → Prop}
    (h : Leads other start outcome)
    (hagree : Agree SameRecords values (program.run stripe) (other.run start)) :
    Leads program stripe outcome := by
  unfold Leads at h ⊢
  revert h hagree
  cases program.run stripe <;> cases other.run start
  · exact fun h hagree => h.trans (congrArg some hagree.2.blocks.symm)
  · exact fun _ hagree => hagree.elim
  · exact fun _ hagree => hagree.elim
  · exact fun h _ => h

/-- A program that cannot fail and leaves the block stage alone. -/
def KeepsBlocks (program : StripeM stage α) (stripe : LogStripe stage) : Prop :=
  Leads program stripe (some stripe.blocks)

/-- What follows a program that leaves the block stage alone. -/
theorem KeepsBlocks.bind (later : stage.State → Option stage.State) (h : KeepsBlocks program stripe)
    (hnext : ∀ value final, program.run stripe = .ok value final →
      Leads (next value) final (later final.blocks)) :
    Leads (program >>= next) stripe (later stripe.blocks) := Leads.bind later h hnext

/-- A program followed by one that leaves the block stage alone. -/
theorem Leads.bind_keeps (h : Leads program stripe outcome)
    (hnext : ∀ value final, KeepsBlocks (next value) final) :
    Leads (program >>= next) stripe outcome := by
  have hboth := h.bind some fun value final _ => hnext value final
  cases outcome <;> exact hboth

theorem keepsBlocks_pure (value : α) : KeepsBlocks (pure value : StripeM stage α) stripe := rfl

theorem keepsBlocks_modify {f : LogStripe stage → LogStripe stage}
    (h : (f stripe).blocks = stripe.blocks) : KeepsBlocks (modify f) stripe :=
  congrArg some h.symm

theorem keepsBlocks_modifyGet {f : LogStripe stage → α × LogStripe stage}
    (h : (f stripe).2.blocks = stripe.blocks) :
    KeepsBlocks (modifyGet f : StripeM stage α) stripe :=
  congrArg some h.symm

theorem leads_liftResult_bind {result : LogDbResult α} {value : α} (hresult : result = .ok value)
    (h : Leads (next value) stripe outcome) :
    Leads (liftResult result >>= next) stripe outcome := by
  rw [hresult]
  exact h

/-! ## One record -/

theorem blocks_settle (stripe : LogStripe stage)
    (outcome : BlockOutcome stage.State stage.Placement stage.Descriptor) :
    (stripe.settle outcome).blocks = outcome.state := by
  refine List.foldlRecOn (motive := fun settled : LogStripe stage =>
    settled.blocks = outcome.state) _ _ rfl ?_
  intro settled hsettled placed _
  rw [← hsettled]
  split <;> rfl

theorem blocks_recordTermIds (stripe : LogStripe stage) (record : DurableLogRecord) :
    (stripe.recordTermIds tables record).2.blocks = stripe.blocks := by
  unfold LogStripe.recordTermIds
  dsimp only
  split
  · split <;> rfl
  · rfl

theorem blocks_recordFieldIds (stripe : LogStripe stage) (address : UInt64)
    (record : DurableLogRecord) :
    (stripe.recordFieldIds address record).2.blocks = stripe.blocks := by
  unfold LogStripe.recordFieldIds
  dsimp only
  split
  · split <;> rfl
  · rfl

/-- What follows the choice of a placement. -/
theorem leads_chooseTentativePlacement_bind {next : stage.Placement → StripeM stage β}
    (h : ∀ placement chosen, Leads (next placement) { stripe with blocks := chosen }
      (stage.admits chosen record placement)) :
    Leads (chooseTentativePlacement record >>= next) stripe (stage.takes stripe.blocks record) := by
  have hrun : (chooseTentativePlacement record >>= next).run stripe =
      (liftResult (stage.tentativePlacement stripe.blocks record).1 >>= next).run
        { stripe with blocks := (stage.tentativePlacement stripe.blocks record).2 } := rfl
  unfold Leads
  rw [hrun]
  unfold BlockStage.takes
  cases hchosen : stage.tentativePlacement stripe.blocks record with
  | mk result chosen =>
    cases result with
    | ok placement => exact h placement chosen
    | error e => exact rfl

/-- Storing a record leaves the blocks alone. -/
theorem keepsBlocks_pushRecord {placement : stage.Placement}
    (hroom : (stripe.partitionOf record.recordRef.topicPartition).records.length < 2 ^ 32) :
    KeepsBlocks (pushRecord record placement) stripe := by
  have hlength : ((stripe.modifyPartition record.recordRef.topicPartition id).partitionOf
      record.recordRef.topicPartition).records.length < 2 ^ 32 := by
    rw [partitionOf_modifyPartition, if_pos rfl]
    exact hroom
  apply KeepsBlocks.bind some (keepsBlocks_modify rfl)
  intro _ final hfinal
  cases hfinal
  change Leads (if _ then _ else _) _ _
  rw [if_pos hlength]
  exact KeepsBlocks.bind some (keepsBlocks_modify rfl) fun _ _ _ => keepsBlocks_pure _

/-- The block stage takes the record. -/
theorem leads_admitRecord (record : DurableLogRecord) (placement : stage.Placement) :
    Leads (admitRecord record placement) stripe (stage.admits stripe.blocks record placement) := by
  have hblocks := blocks_settle stripe (stage.accept stripe.blocks record placement)
  unfold BlockStage.admits Leads
  rw [run_admitRecord]
  cases (stage.accept stripe.blocks record placement).result with
  | ok _ => exact congrArg some hblocks.symm
  | error e => exact rfl

/-- One new record is published exactly when the block stage takes it. -/
theorem leads_applyDurableNewInner (address : UInt64) (indexRecord : Bool)
    (hvalid : stripe.validateOffset record = .ok ())
    (hroom : (stripe.partitionOf record.recordRef.topicPartition).records.length < 2 ^ 32) :
    Leads (applyDurableNewInner tables address record indexRecord) stripe
      (stage.takes stripe.blocks record) := by
  apply leads_liftResult_bind hvalid
  apply leads_chooseTentativePlacement_bind
  intro placement chosen
  have hpush : KeepsBlocks (pushRecord record placement) { stripe with blocks := chosen } :=
    keepsBlocks_pushRecord hroom
  apply hpush.bind fun state => stage.admits state record placement
  intro ordinal pushed _
  apply (leads_admitRecord record placement).bind_keeps
  intro _ final
  cases indexRecord with
  | false => exact keepsBlocks_pure _
  | true =>
    refine KeepsBlocks.bind some (keepsBlocks_modifyGet (blocks_recordTermIds final record)) ?_
    intro termIds numbered _
    refine KeepsBlocks.bind some
      (keepsBlocks_modifyGet (blocks_recordFieldIds numbered address record)) ?_
    intro fieldIds indexed _
    exact KeepsBlocks.bind some (keepsBlocks_modify rfl) fun _ _ _ => keepsBlocks_pure _

/-! ## Batches of events -/

/-- A record beyond all stored ones is published exactly when the block stage takes it. -/
theorem leads_applyDurableNew (address : UInt64) (h : Holds tables view stripe)
    (hbeyond : Beyond (view.progressOf record).stored record)
    (hroom : (view.progressOf record).stored.length < 2 ^ 32) :
    Leads (applyDurableNew tables address record) stripe (stage.takes stripe.blocks record) := by
  have hinner : Leads (applyDurableNewInner tables address record true) stripe
      (stage.takes stripe.blocks record) :=
    leads_applyDurableNewInner address true (h.validateOffset_of_lt hbeyond)
      (by rwa [h.length_records])
  exact hinner.bind_keeps fun _ _ => keepsBlocks_pure _

/-- A new record is published if the block stage takes it. -/
theorem leads_applyDurable (address : UInt64) (h : Holds tables view stripe)
    (hshard : record.streamShardId = stripe.streamShardId)
    (hbeyond : Beyond (view.progressOf record).stored record)
    (hroom : (view.progressOf record).stored.length < 2 ^ 32) :
    Leads (applyDurable tables address record) stripe (stage.takes stripe.blocks record) := by
  rw [Leads, h.run_applyDurable hshard hbeyond]
  exact leads_applyDurableNew address h hbeyond hroom

/-- The stripe after a new record was published. -/
theorem Holds.grown_of_idempotent (h : Holds tables view stripe) {address : UInt64}
    (hcomplete : (view.progressOf record).Complete)
    (hbeyond : Beyond (view.progressOf record).stored record)
    {receipt : IndexReceipt stage.Placement stage.Descriptor} {final : LogStripe stage}
    (hrun : (applyDurableIdempotent tables address record).run stripe = .ok receipt final) :
    Grown tables view record.recordRef.topicPartition [record] final := by
  rcases (triple_applyDurableIdempotent address record hcomplete).of_ok h hrun with hstored | hgrown
  · exact absurd (hbeyond record hstored.1) (UInt64.lt_irrefl _)
  · exact hgrown

/-- A batch begins if the dictionaries are adopted. -/
theorem leads_beginAppendBatch : Leads beginAppendBatch stripe (stage.adopts stripe.blocks) := by
  have hrun : (beginAppendBatch : StripeM stage Bool).run stripe =
      (liftResult (stage.refresh stripe.blocks).1 : StripeM stage Bool).run
        { stripe with blocks := (stage.refresh stripe.blocks).2 } := rfl
  unfold Leads
  rw [hrun]
  unfold BlockStage.adopts
  cases hrefresh : stage.refresh stripe.blocks with
  | mk result adopted => cases result <;> exact rfl

section Batch

variable {partition : TopicPartition} {firstOffset : LogicalOffset} {events : List OtlpLogEvent}

theorem validateBatchOffsetRange_eq {count : Nat} (h : firstOffset.toNat + 0 + count ≤ 2 ^ 64) :
    validateBatchOffsetRange partition firstOffset count = .ok () := by
  cases count with
  | zero => rfl
  | succ last =>
    have hlast : firstOffset.toNat + last < 2 ^ 64 := by omega
    rw [validateBatchOffsetRange, batchOffset_eq hlast]
    rfl

section

variable (addresses : Nat → UInt64)

include addresses

/-- New events published one by one. -/
theorem leads_applyEvents {start : Nat} {view : View} {stripe : LogStripe stage}
    (h : Holds tables view stripe) (hcomplete : (view.progress partition).Complete)
    (hawaits : (view.progress partition).Awaits firstOffset start events.length) :
    Leads (applyEvents tables addresses partition firstOffset (events.zipIdx start)) stripe
      (stage.takesAll stripe.blocks
        (durableEvents view.shard partition firstOffset (events.zipIdx start))) := by
  induction events generalizing start view stripe with
  | nil => exact rfl
  | cons event rest ih =>
    rw [List.zipIdx_cons, applyEvents]
    apply leads_liftResult_bind (batchOffset_eq hawaits.precedes.offset_lt)
    change Leads (applyDurableIdempotent tables (addresses start) (intoDurable event
      stripe.streamShardId partition (UInt64.ofNat (firstOffset.toNat + start))) >>= _) stripe _
    rw [h.shard]
    set record := intoDurable event view.shard partition
      (UInt64.ofNat (firstOffset.toNat + start)) with hrecord
    have hroom : (view.progress partition).stored.length < 2 ^ 32 :=
      lt_of_lt_of_le (Nat.lt_add_of_pos_right (Nat.succ_pos _)) hawaits.room
    have hbeyond : Beyond (view.progressOf record).stored record := hawaits.precedes.beyond
    have hleads := leads_applyDurableNew (addresses start) h hbeyond hroom
    rw [Leads, ← h.run_applyDurableIdempotent hbeyond] at hleads
    apply Leads.bind (fun state => stage.takesAll state _) hleads
    intro receipt next hrun
    obtain ⟨progress, htook, hnext⟩ :=
      @Holds.grown_of_idempotent stage tables view stripe record h (addresses start) hcomplete
        hbeyond receipt next hrun
    have hlater : ((view.set partition progress).progress partition).Complete := by
      rw [View.progress_set_self]
      exact htook.complete
    have hothers : ((view.set partition progress).progress partition).Awaits firstOffset
        (start + 1) rest.length := by
      rw [View.progress_set_self]
      exact hawaits.next htook.stored
    exact (ih hnext hlater hothers).bind_keeps fun _ _ => keepsBlocks_pure _

/-- New events are published exactly if the block stage adopts the dictionaries and takes the
records. -/
theorem leads_applyOtlpEvents (h : Holds tables view stripe)
    (hcomplete : (view.progress partition).Complete)
    (hawaits : (view.progress partition).Awaits firstOffset 0 events.length) :
    Leads (applyOtlpEvents tables addresses partition firstOffset events) stripe
      ((stage.adopts stripe.blocks).bind fun adopted =>
        stage.takesAll adopted (durableEvents view.shard partition firstOffset events.zipIdx)) := by
  apply Leads.bind (fun adopted => stage.takesAll adopted _) leads_beginAppendBatch
  intro refreshed next hrun
  have hnext : Holds tables view next := triple_beginAppendBatch.of_ok h hrun
  apply leads_liftResult_bind (validateBatchOffsetRange_eq hawaits.fits)
  cases events with
  | nil => exact rfl
  | cons first rest =>
    have hleads := leads_applyEvents addresses hnext hcomplete hawaits
    change Leads (if _ then _ else _) next _
    split
    · exact hleads.of_agree
        (agree_applyHomogeneousEvents addresses addresses hnext hcomplete hawaits.precedes)
    · exact hleads

end

end Batch

end ShardLog.Stripe
