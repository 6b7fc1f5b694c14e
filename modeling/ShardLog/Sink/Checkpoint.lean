import Mathlib.Logic.Relation
import ShardLog.Ingest.NativePack
import ShardLog.Native.Readers
import ShardLog.Sink.Transaction
import ShardLog.Stripe.Admission

/-!
# Sink - Applying transactions from several workers

The workers of the stripes share one map of checkpoints.  A call compares the
checkpoint of its partition with the one it expects, indexes and journals its
appends, and then writes the next checkpoint.  The map is locked for the comparison
and for the write, not in between.

Main results:

- Theorem `checkpoint_compareAndSwap`: if no two calls of one partition are between
  comparison and write at the same time, and every transaction moves the sequence
  forward, an expected sequence is applied once and no checkpoint goes back.
- Theorem `sameExpected_applied_twice`: two workers apply the same expected checkpoint.
-/

namespace ShardLog.Sink

open ByteReader Stateful Native Ingest Stripe

/-! ## Indexing appends -/

def isIngestPack (payload : Bytes) : Bool := ingestPackMagic.isPrefixOf payload

def isNativeLogBatch (payload : Bytes) : Bool := batchMagic.isPrefixOf payload

/-- Reader of an OTLP export request, generated from its protobuf schema. -/
abbrev OtlpLogDecoder := Bytes → LogDbResult (List OtlpLogEvent)

def nativeEvents (payload : Bytes) : LogDbResult (List OtlpLogEvent) :=
  match decodeNativeLogEvents payload with
  | .ok (_, events) => .ok events
  | .error e => .error (.invalidNativePayload e.message)

def decodeLogEvents (codecs : Codecs) (otlp : OtlpLogDecoder) (payload : Bytes) :
    LogDbResult (List OtlpLogEvent) :=
  if isIngestPack payload then decodeIngestPack codecs payload
  else if isNativeLogBatch payload then nativeEvents payload
  else otlp payload

section Index

variable {stage : BlockStage} (codecs : Codecs) (otlp : OtlpLogDecoder)

/-- The events of an append, from a native batch that travels with it or from its
payload. -/
def appendEvents (append : DurableAppend) : LogDbResult (List OtlpLogEvent) :=
  match append.transientContext with
  | some context =>
    if isNativeLogBatch context then nativeEvents context
    else decodeLogEvents codecs otlp append.payload
  | none => decodeLogEvents codecs otlp append.payload

/-- Index one append.  `addresses` are the addresses of the shared fields of its
events. -/
def indexDurableAppend (addresses : Nat → UInt64) (append : DurableAppend) :
    StripeM stage Unit := do
  let stripe ← get
  if append.physicalShardId ≠ stripe.streamShardId then
    throw (.wrongStripe stripe.streamShardId append.physicalShardId)
  else if isIngestPack append.payload then
    applyIndexedIngestPack codecs append.topicPartition append.reservation.firstOffset
      append.reservation.recordCount append.payload append.transientContext
  else do
    let events ← liftResult (appendEvents codecs otlp append)
    liftResult (ensure (events.length < 2 ^ 32)
      (.invalidConfig "log batch contains more than u32 records"))
    liftResult (ensure (events.length = append.reservation.recordCount)
      (.invalidConfig "durable log append record count disagrees with its decoded batch"))
    let _ ← applyOtlpEvents codecs.tables addresses append.topicPartition
      append.reservation.firstOffset events

/-- Index appends in order; `addresses` has one function for each position. -/
def indexDurableAppends (addresses : Nat → Nat → UInt64) :
    List (DurableAppend × Nat) → StripeM stage Unit
  | [] => pure ()
  | (append, position) :: rest => do
      indexDurableAppend codecs otlp (addresses position) append
      indexDurableAppends addresses rest

end Index

/-! ## A call -/

/-- Errors of the stream engine. An error of the database is kept as it is, not as text. -/
inductive EngineError where
  | database (cause : LogDbError)
  | durableSinkCheckpoint (message : String)

abbrev EngineResult := Except EngineError

inductive DurableSinkApply where
  | applied
  | checkpointConflict (actual : DurableSinkCheckpoint)

def checkpointAllowsLaneGap (actual expected : DurableSinkCheckpoint) : Prop :=
  actual.topicPartition = expected.topicPartition ∧
    actual.nextPlacementSequence = expected.nextPlacementSequence ∧
    actual.nextOffset ≤ expected.nextOffset

instance (actual expected : DurableSinkCheckpoint) :
    Decidable (checkpointAllowsLaneGap actual expected) :=
  inferInstanceAs (Decidable (_ ∧ _))

/-- What a call has done so far.  Other calls may run between two phases. -/
inductive SinkPhase where
  | received
  | compared
  | indexed
  | journaled
  | returned (result : EngineResult DurableSinkApply)

/-- The call is between its two accesses to the map. -/
def SinkPhase.isOpen : SinkPhase → Bool
  | .compared | .indexed | .journaled => true
  | .received | .returned _ => false

def SinkPhase.isApplied : SinkPhase → Bool
  | .returned (.ok .applied) => true
  | _ => false

structure SinkCall where
  shardId : ShardId
  transaction : SinkTransaction
  phase : SinkPhase

def SinkCall.partition (call : SinkCall) : TopicPartition :=
  call.transaction.expected.topicPartition

/-- The checkpoints and the stripes, each with its worker. `initial` is what the stream engine gives
a partition without an entry; no step changes it. -/
structure SinkStore (stage : BlockStage) where
  initial : TopicPartition → DurableSinkCheckpoint
  checkpoints : List (TopicPartition × DurableSinkCheckpoint)
  stripes : ShardId → LogStripe stage

section Call

variable {stage : BlockStage}

def SinkStore.checkpoint (store : SinkStore stage) (partition : TopicPartition) :
    DurableSinkCheckpoint :=
  (AssocMap.get store.checkpoints partition).getD (store.initial partition)

def SinkStore.sequence (store : SinkStore stage) (partition : TopicPartition) : UInt64 :=
  (store.checkpoint partition).nextPlacementSequence

variable (codecs : Codecs) (otlp : OtlpLogDecoder)

/-- The next phase of the function. `journal` is the answer of the journal, if there is one. -/
def applyDurableAppends (addresses : Nat → Nat → UInt64) (journal : Option (LogDbResult Unit))
    (call : SinkCall) (store : SinkStore stage) : SinkPhase × SinkStore stage :=
  let expected := call.transaction.expected
  let next := call.transaction.next
  match call.phase with
  | .received =>
    if expected.topicPartition ≠ next.topicPartition then
      (.returned (.error (.durableSinkCheckpoint
        "expected and next checkpoints refer to different partitions")), store)
    else if ∃ append ∈ call.transaction.appends,
        append.topicPartition ≠ expected.topicPartition then
      (.returned (.error (.durableSinkCheckpoint
        "sink transaction contains appends from another partition")), store)
    else
      let actual := store.checkpoint expected.topicPartition
      if checkpointAllowsLaneGap actual expected then (.compared, store)
      else (.returned (.ok (.checkpointConflict actual)), store)
  | .compared =>
    match (indexDurableAppends codecs otlp addresses call.transaction.appends.zipIdx).run
      (store.stripes call.shardId) with
    | .ok _ stripe => (.indexed,
        { store with stripes := Function.update store.stripes call.shardId stripe })
    | .error e stripe => (.returned (.error (.database e)),
        { store with stripes := Function.update store.stripes call.shardId stripe })
  | .indexed =>
    match journal with
    | some (.error e) => (.returned (.error (.database e)), store)
    | _ => (.journaled, store)
  | .journaled => (.returned (.ok .applied),
      { store with checkpoints := AssocMap.insert store.checkpoints next.topicPartition next })
  | .returned result => (.returned result, store)

/-! ## Workers that share the map -/

/-- The shared state and the calls the workers have received. -/
structure SinkSystem (stage : BlockStage) where
  store : SinkStore stage
  calls : Nat → Option SinkCall

def SinkSystem.receive (system : SinkSystem stage) (i : Nat) (shardId : ShardId)
    (transaction : SinkTransaction) : SinkSystem stage :=
  ⟨system.store, Function.update system.calls i (some ⟨shardId, transaction, .received⟩)⟩

@[grind =]
theorem SinkSystem.calls_receive (system : SinkSystem stage) (i j : Nat) (shardId : ShardId)
    (transaction : SinkTransaction) : (system.receive i shardId transaction).calls j =
      if j = i then some ⟨shardId, transaction, .received⟩ else system.calls j :=
  Function.update_apply _ _ _ _

/-- A call goes on to its next phase. -/
def SinkSystem.act (system : SinkSystem stage) (addresses : Nat → Nat → UInt64)
    (journal : Option (LogDbResult Unit)) (i : Nat) (call : SinkCall) : SinkSystem stage :=
  let step := applyDurableAppends codecs otlp addresses journal call system.store
  ⟨step.2, Function.update system.calls i (some ⟨call.shardId, call.transaction, step.1⟩)⟩

/-- An idle worker receives a call, or a call goes on. -/
inductive SinkStep : SinkSystem stage → SinkSystem stage → Prop where
  | receive {system : SinkSystem stage} {i : Nat} {shardId : ShardId}
      (transaction : SinkTransaction) (hnew : system.calls i = none)
      (hidle : ∀ j call, system.calls j = some call → call.shardId = shardId →
        ∃ result, call.phase = .returned result) :
      SinkStep system (system.receive i shardId transaction)
  | act {system : SinkSystem stage} {i : Nat} {call : SinkCall} (hcall : system.calls i = some call)
      (addresses : Nat → Nat → UInt64) (journal : Option (LogDbResult Unit)) :
      SinkStep system (system.act codecs otlp addresses journal i call)

/-- Transactions move the sequence forward, and at most one call of a partition is between its
accesses to the map. -/
structure Exclusive (system : SinkSystem stage) : Prop where
  advances : ∀ i call, system.calls i = some call →
    call.transaction.expected.nextPlacementSequence < call.transaction.next.nextPlacementSequence
  alone : ∀ i j left right, system.calls i = some left → system.calls j = some right →
    left.partition = right.partition → left.phase.isOpen → right.phase.isOpen → i = j

/-- A step into an exclusive state. -/
def GuardedStep (before after : SinkSystem stage) : Prop :=
  SinkStep codecs otlp before after ∧ Exclusive after

end Call

/-! ## What holds of a call -/

section Calls

variable {stage : BlockStage} {codecs : Codecs} {otlp : OtlpLogDecoder}

/-- An open call has compared the present sequence, an applied one an earlier sequence. -/
structure CallHolds (store : SinkStore stage) (call : SinkCall) : Prop where
  compared : call.phase.isOpen → call.transaction.next.topicPartition = call.partition ∧
    store.sequence call.partition = call.transaction.expected.nextPlacementSequence
  applied : call.phase.isApplied →
    call.transaction.expected.nextPlacementSequence < store.sequence call.partition

/-- What a step does to the map: nothing, or an open call writes its next checkpoint. -/
inductive StepHolds (before after : SinkStore stage) (call : SinkCall) (phase : SinkPhase) :
    Prop where
  | quiet (hsame : ∀ partition, after.sequence partition = before.sequence partition)
      (hphase : phase.isApplied → call.phase.isApplied)
  | writes (hopen : call.phase.isOpen)
      (hafter : after.sequence call.partition = call.transaction.next.nextPlacementSequence)
      (hothers : ∀ partition, partition ≠ call.partition →
        after.sequence partition = before.sequence partition)

/-- The next phase of a call, by the present one. -/
theorem CallHolds.step {store : SinkStore stage} {call : SinkCall} (h : CallHolds store call)
    (hadvances : call.transaction.expected.nextPlacementSequence <
      call.transaction.next.nextPlacementSequence)
    (addresses : Nat → Nat → UInt64) (journal : Option (LogDbResult Unit)) :
    let step := applyDurableAppends codecs otlp addresses journal call store
    CallHolds step.2 ⟨call.shardId, call.transaction, step.1⟩ ∧
      StepHolds store step.2 call step.1 := by
  obtain ⟨shardId, transaction, phase⟩ := call
  cases phase with
  | received =>
    dsimp only [applyDurableAppends]
    split_ifs with hpartition happends hallows
    · exact ⟨⟨nofun, nofun⟩, .quiet (fun _ => rfl) nofun⟩
    · exact ⟨⟨nofun, nofun⟩, .quiet (fun _ => rfl) nofun⟩
    · exact ⟨⟨fun _ => ⟨(not_not.mp hpartition).symm, hallows.2.1⟩, nofun⟩, .quiet (fun _ => rfl) nofun⟩
    · exact ⟨⟨nofun, nofun⟩, .quiet (fun _ => rfl) nofun⟩
  | compared =>
    dsimp only [applyDurableAppends]
    split
    · exact ⟨⟨fun _ => h.compared rfl, nofun⟩, .quiet (fun _ => rfl) nofun⟩
    · exact ⟨⟨nofun, nofun⟩, .quiet (fun _ => rfl) nofun⟩
  | indexed =>
    dsimp only [applyDurableAppends]
    split
    · exact ⟨⟨nofun, nofun⟩, .quiet (fun _ => rfl) nofun⟩
    · exact ⟨⟨fun _ => h.compared rfl, nofun⟩, .quiet (fun _ => rfl) nofun⟩
  | journaled =>
    have hpartition := (h.compared rfl).1
    dsimp only [applyDurableAppends]
    have hafter : SinkStore.sequence { store with
        checkpoints := AssocMap.insert store.checkpoints transaction.next.topicPartition
          transaction.next } transaction.expected.topicPartition =
        transaction.next.nextPlacementSequence := by
      rw [SinkStore.sequence, SinkStore.checkpoint, show transaction.expected.topicPartition =
        transaction.next.topicPartition from hpartition.symm]
      simp
    refine ⟨⟨by rintro ⟨⟩, fun _ => hadvances.trans_eq hafter.symm⟩, .writes rfl hafter ?_⟩
    intro partition hne
    simp only [SinkStore.sequence, SinkStore.checkpoint]
    rw [AssocMap.get_insert_of_ne _ _ (hpartition ▸ hne)]
  | returned result => exact ⟨⟨by rintro ⟨⟩, h.applied⟩, .quiet (fun _ => rfl) id⟩

end Calls

/-! ## What holds of a run -/

section Runs

variable {stage : BlockStage} {codecs : Codecs} {otlp : OtlpLogDecoder}
  {before after : SinkSystem stage} {call : SinkCall}

/-- What holds between the steps of a guarded run. -/
structure SinkHolds (system : SinkSystem stage) : Prop where
  exclusive : Exclusive system
  calls : ∀ i call, system.calls i = some call → CallHolds system.store call
  applied_once : ∀ i j left right, system.calls i = some left → system.calls j = some right →
    left.partition = right.partition → left.phase.isApplied → right.phase.isApplied →
    left.transaction.expected.nextPlacementSequence =
      right.transaction.expected.nextPlacementSequence → i = j

theorem SinkHolds.start {system : SinkSystem stage} (h : system.calls = fun _ => none) :
    SinkHolds system := by
  refine ⟨⟨?_, ?_⟩, ?_, ?_⟩ <;> simp [h]

/-- One call changes; the others keep what holds of them. -/
theorem SinkHolds.update {i : Nat} (h : SinkHolds before)
    (hcalls : after.calls = Function.update before.calls i (some call))
    (hexclusive : Exclusive after) (hcall : CallHolds after.store call)
    (hothers : ∀ j other, j ≠ i → before.calls j = some other → CallHolds after.store other ∧
      (other.partition = call.partition → other.phase.isApplied → call.phase.isApplied →
        other.transaction.expected.nextPlacementSequence ≠
          call.transaction.expected.nextPlacementSequence)) : SinkHolds after := by
  have hcases : ∀ j other, after.calls j = some other →
      j = i ∧ other = call ∨ j ≠ i ∧ before.calls j = some other := by
    intro j other hother
    rw [hcalls] at hother
    by_cases hj : j = i
    · subst hj
      exact .inl ⟨rfl, by simpa using hother.symm⟩
    · exact .inr ⟨hj, by simpa [hj] using hother⟩
  refine ⟨hexclusive, fun j other hother => ?_, ?_⟩
  · rcases hcases j other hother with ⟨_, rfl⟩ | ⟨hj, hother⟩
    · exact hcall
    · exact (hothers j other hj hother).1
  · intro j k left right hleft hright hpartition hj hk hsequence
    rcases hcases j left hleft with ⟨rfl, rfl⟩ | ⟨hji, hleft⟩
    · rcases hcases k right hright with ⟨rfl, _⟩ | ⟨hki, hright⟩
      · rfl
      · exact absurd hsequence.symm ((hothers k right hki hright).2 hpartition.symm hk hj)
    · rcases hcases k right hright with ⟨rfl, rfl⟩ | ⟨hki, hright⟩
      · exact absurd hsequence ((hothers j left hji hleft).2 hpartition hj hk)
      · exact h.applied_once j k left right hleft hright hpartition hj hk hsequence

theorem CallHolds.later {before after : SinkStore stage} (h : CallHolds before call)
    (hle : before.sequence call.partition ≤ after.sequence call.partition)
    (hopen : call.phase.isOpen → after.sequence call.partition = before.sequence call.partition) :
    CallHolds after call :=
  ⟨fun hphase => ⟨(h.compared hphase).1, (hopen hphase).trans (h.compared hphase).2⟩,
    fun happlied => UInt64.lt_of_lt_of_le (h.applied happlied) hle⟩

/-- One step keeps the calls right and no checkpoint goes back. -/
theorem SinkHolds.step (h : SinkHolds before) (hstep : GuardedStep codecs otlp before after) :
    SinkHolds after ∧
      ∀ partition, before.store.sequence partition ≤ after.store.sequence partition := by
  obtain ⟨hstep, hexclusive⟩ := hstep
  cases hstep with
  | receive transaction hnew hidle =>
    refine ⟨h.update rfl hexclusive ⟨nofun, nofun⟩ ?_, fun _ => UInt64.le_refl _⟩
    exact fun j other _ hother => ⟨h.calls j other hother, nofun⟩
  | @act i call hcall addresses journal =>
    have hadvances := h.exclusive.advances i call hcall
    obtain ⟨hcallAfter, hmap⟩ := @CallHolds.step stage codecs otlp _ _ (h.calls i call hcall)
      hadvances addresses journal
    cases hmap with
    | quiet hsame hphase =>
      refine ⟨h.update rfl hexclusive hcallAfter fun j other hj hother => ⟨?_, ?_⟩,
        fun partition => UInt64.le_of_eq (hsame partition).symm⟩
      · exact (h.calls j other hother).later (UInt64.le_of_eq (hsame _).symm) fun _ => hsame _
      · intro hpartition hother' hnew hsequence
        exact hj (h.applied_once j i other call hother hcall hpartition hother' (hphase hnew)
          hsequence)
    | writes hopen hafter hothers =>
      have hbefore := ((h.calls i call hcall).compared hopen).2
      have hle : ∀ partition, before.store.sequence partition ≤
          (before.act codecs otlp addresses journal i call).store.sequence partition := by
        intro partition
        by_cases hpartition : partition = call.partition
        · subst hpartition
          exact UInt64.le_of_lt (hbefore ▸ hafter ▸ hadvances)
        · exact UInt64.le_of_eq (hothers partition hpartition).symm
      refine ⟨h.update rfl hexclusive hcallAfter fun j other hj hother => ⟨?_, ?_⟩, hle⟩
      · refine (h.calls j other hother).later (hle _) fun hphase => hothers _ fun heq => ?_
        exact hj (h.exclusive.alone j i other call hother hcall heq hphase hopen)
      · intro (hpartition : other.partition = call.partition) hother' _ hsequence
        have hlt := (h.calls j other hother).applied hother'
        rw [hpartition, hbefore, hsequence] at hlt
        exact UInt64.lt_irrefl _ hlt

/-- So does a run. -/
theorem SinkHolds.run (h : SinkHolds before)
    (hrun : Relation.ReflTransGen (GuardedStep codecs otlp) before after) :
    SinkHolds after ∧
      ∀ partition, before.store.sequence partition ≤ after.store.sequence partition := by
  induction hrun with
  | refl => exact ⟨h, fun _ => UInt64.le_refl _⟩
  | tail _ hstep ih =>
    obtain ⟨hholds, hle⟩ := ih.1.step hstep
    exact ⟨hholds, fun partition => UInt64.le_trans (ih.2 partition) (hle partition)⟩

/-- In a guarded run, calls of a partition that are applied expected different sequences,
and no checkpoint goes back. -/
theorem checkpoint_compareAndSwap {start : SinkSystem stage} (hstart : start.calls = fun _ => none)
    (hbefore : Relation.ReflTransGen (GuardedStep codecs otlp) start before)
    (hafter : Relation.ReflTransGen (GuardedStep codecs otlp) before after) :
    (∀ i j left right, after.calls i = some left → after.calls j = some right →
      left.partition = right.partition → left.phase.isApplied → right.phase.isApplied →
      left.transaction.expected.nextPlacementSequence =
        right.transaction.expected.nextPlacementSequence → i = j) ∧
    ∀ partition, before.store.sequence partition ≤ after.store.sequence partition := by
  obtain ⟨hholds, _⟩ := (SinkHolds.start hstart).run hbefore
  obtain ⟨hfinal, hle⟩ := hholds.run hafter
  exact ⟨hfinal.applied_once, hle⟩

end Runs

/-! ## Three workers of one partition -/

/-- The append of a payload without a transient context. -/
def recoveredAppend (shard : ShardId) (partition : TopicPartition) (firstOffset : LogicalOffset)
    (payload : Bytes) (recordCount : Nat) : DurableAppend :=
  ⟨shard, ⟨partition, firstOffset, recordCount⟩, payload, none⟩

/-- A stripe before its first append. -/
def freshStripe (shard : ShardId) : LogStripe idleStage where
  streamShardId := shard
  blocks := ()

/-- No OTLP payload is accepted. -/
def noOtlp : OtlpLogDecoder := fun _ => .error (.invalidOtlpPayload "not an export request")

/-- One partition has a checkpoint, at sequence 0; the checkpoint of the others is one
that no transaction here expects. -/
def laneSystem : SinkSystem idleStage where
  store := {
    initial := fun partition => ⟨partition, 7, 0⟩
    checkpoints := [(samplePartition, ⟨samplePartition, 0, 0⟩)]
    stripes := freshStripe }
  calls := fun _ => none

/-- A transaction over one append of three records. -/
def laneTransaction (shardId : ShardId) (sequence : UInt64) : SinkTransaction :=
  ⟨⟨samplePartition, sequence, 0⟩, [recoveredAppend shardId samplePartition 0 sampleBatch 3],
    ⟨samplePartition, sequence + 1, 0⟩⟩

/-- A call of a worker without a journal goes on. -/
def SinkSystem.advance (system : SinkSystem idleStage) (i : Nat) : SinkSystem idleStage :=
  match system.calls i with
  | some call => system.act sampleCodecs noOtlp (fun _ _ => 0) none i call
  | none => system

/-- A schedule is a run. -/
theorem run_advance (system : SinkSystem idleStage) (schedule : List Nat) :
    Relation.ReflTransGen (SinkStep sampleCodecs noOtlp) system
      (schedule.foldl SinkSystem.advance system) := by
  induction schedule generalizing system with
  | nil => exact .refl
  | cons i rest ih =>
    refine .trans ?_ (ih _)
    rw [SinkSystem.advance]
    split
    · rename_i hcall
      exact .single (.act hcall _ _)
    · exact .refl

/-- Two workers apply the same expected checkpoint, and the later write takes it back from the
sequence a third one has reached. -/
theorem sameExpected_applied_twice : ∃ before after : SinkSystem idleStage,
    Relation.ReflTransGen (SinkStep sampleCodecs noOtlp) laneSystem before ∧
      Relation.ReflTransGen (SinkStep sampleCodecs noOtlp) before after ∧
      (∃ left ∈ after.calls 0, ∃ right ∈ after.calls 1,
        left.transaction.expected = right.transaction.expected ∧
          left.phase.isApplied ∧ right.phase.isApplied) ∧
      after.store.sequence samplePartition < before.store.sequence samplePartition := by
  let received := ((laneSystem.receive 0 0 (laneTransaction 0 0)).receive 1 1
    (laneTransaction 1 0)).receive 2 2 (laneTransaction 2 1)
  let before := [0, 1, 1, 1, 1, 2, 2, 2, 2].foldl SinkSystem.advance received
  have hreceived : Relation.ReflTransGen (SinkStep sampleCodecs noOtlp) laneSystem received := by
    have hnone : ∀ j, laneSystem.calls j = none := fun _ => rfl
    exact .tail (.tail (.single (.receive _ rfl nofun)) (.receive _ rfl (by grind)))
      (.receive _ rfl (by grind))
  exact ⟨before, [0, 0, 0].foldl SinkSystem.advance before,
    hreceived.trans (run_advance _ _), run_advance _ _, by decide +kernel⟩

/-! ## Two workers of one partition -/

variable {system after : SinkSystem idleStage} {i : Nat}

def SinkSystem.isOpen (system : SinkSystem idleStage) (i : Nat) : Bool :=
  (system.calls i).any fun call => call.phase.isOpen

/-- The first two calls are never open at the same time while the schedule runs. -/
def keepsApart (system : SinkSystem idleStage) : List Nat → Bool
  | [] => true
  | i :: rest =>
    let next := system.advance i
    !(next.isOpen 0 && next.isOpen 1) && keepsApart next rest

/-- There are two calls, and each moves the sequence forward. -/
structure TwoCalls (system : SinkSystem idleStage) : Prop where
  others : ∀ i, 1 < i → system.calls i = none
  advances : ∀ i call, system.calls i = some call →
    call.transaction.expected.nextPlacementSequence < call.transaction.next.nextPlacementSequence

theorem TwoCalls.exclusive (h : TwoCalls system)
    (hapart : (system.isOpen 0 && system.isOpen 1) = false) : Exclusive system := by
  refine ⟨h.advances, fun i j left right hleft hright _ hopenLeft hopenRight => ?_⟩
  have hi : i ≤ 1 := Nat.le_of_not_lt fun hlt => by simp [h.others i hlt] at hleft
  have hj : j ≤ 1 := Nat.le_of_not_lt fun hlt => by simp [h.others j hlt] at hright
  have hopen : ∀ {k : Nat} {call : SinkCall}, system.calls k = some call →
      call.phase.isOpen = true → system.isOpen k = true := by
    intro k call hcall hphase
    rw [SinkSystem.isOpen, hcall]
    exact hphase
  have hleftOpen := hopen hleft hopenLeft
  have hrightOpen := hopen hright hopenRight
  rw [Bool.and_eq_false_iff] at hapart
  grind

/-- One of the two calls changes, or is received. -/
theorem TwoCalls.update (h : TwoCalls system) {shardId : ShardId} {transaction : SinkTransaction}
    {phase : SinkPhase} (hi : i ≤ 1)
    (hcalls : after.calls = Function.update system.calls i (some ⟨shardId, transaction, phase⟩))
    (hadvances : transaction.expected.nextPlacementSequence <
      transaction.next.nextPlacementSequence) : TwoCalls after := by
  constructor
  · intro j hj
    rw [hcalls, Function.update_of_ne (by omega)]
    exact h.others j hj
  · intro j other hother
    rw [hcalls, Function.update_apply] at hother
    split at hother
    · cases hother
      exact hadvances
    · exact h.advances j other hother

/-- The calls stay those of two workers. -/
theorem TwoCalls.advance (h : TwoCalls system) (i : Nat) : TwoCalls (system.advance i) := by
  rw [SinkSystem.advance]
  split
  · rename_i call hcall
    have hi : i ≤ 1 := Nat.le_of_not_lt fun hlt => by simp [h.others i hlt] at hcall
    exact h.update hi rfl (h.advances i call hcall)
  · exact h

/-- A schedule that keeps the calls apart runs in exclusive states. -/
theorem TwoCalls.run (h : TwoCalls system) {schedule : List Nat}
    (hexclusive : Exclusive system) (hapart : keepsApart system schedule = true) :
    Relation.ReflTransGen (GuardedStep sampleCodecs noOtlp) system
      (schedule.foldl SinkSystem.advance system) := by
  induction schedule generalizing system with
  | nil => exact .refl
  | cons i rest ih =>
    rw [keepsApart, Bool.and_eq_true, Bool.not_eq_true'] at hapart
    have hnext := (h.advance i).exclusive hapart.1
    refine .trans ?_ (ih (h.advance i) hnext hapart.2)
    rw [SinkSystem.advance] at hnext ⊢
    split
    · rename_i hcall
      rw [hcall] at hnext
      exact .single ⟨.act hcall _ _, hnext⟩
    · exact .refl

/-- Two workers apply the sequences 0 and 1 of one partition one after the other; the checkpoint
moves from 0 to 2. -/
theorem checkpoint_compareAndSwap_two :
    let received := (laneSystem.receive 0 0 (laneTransaction 0 0)).receive 1 1
      (laneTransaction 1 1)
    let final := [0, 0, 0, 0, 1, 1, 1, 1].foldl SinkSystem.advance received
    (∃ left ∈ final.calls 0, ∃ right ∈ final.calls 1, left.partition = right.partition ∧
      left.phase.isApplied ∧ right.phase.isApplied ∧
      left.transaction.expected ≠ right.transaction.expected) ∧
    received.store.sequence samplePartition ≤ final.store.sequence samplePartition ∧
    final.store.sequence samplePartition = 2 := by
  intro received final
  have hnone : TwoCalls laneSystem := ⟨fun _ _ => rfl, nofun⟩
  have hone : TwoCalls (laneSystem.receive 0 0 (laneTransaction 0 0)) :=
    hnone.update (Nat.zero_le 1) rfl (by decide)
  have htwo : TwoCalls received := hone.update (Nat.le_refl 1) rfl (by decide)
  have hidle : ∀ j, laneSystem.calls j = none := fun _ => rfl
  have hreceived : Relation.ReflTransGen (GuardedStep sampleCodecs noOtlp) laneSystem received :=
    .tail (.single ⟨.receive _ rfl nofun, hone.exclusive rfl⟩)
      ⟨.receive _ rfl (by grind), htwo.exclusive rfl⟩
  have hapart : keepsApart received [0, 0, 0, 0, 1, 1, 1, 1] = true := by decide +kernel
  have hrun := checkpoint_compareAndSwap rfl hreceived (htwo.run (htwo.exclusive rfl) hapart)
  exact ⟨by decide +kernel, hrun.2 samplePartition, by decide +kernel⟩

end ShardLog.Sink
