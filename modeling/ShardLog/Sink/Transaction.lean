import ShardLog.Foundation.Integers
import ShardLog.Types

/-!
# Sink journal - transactions

A sink transaction moves the checkpoint of one partition over a list of durable
appends.  The journal stores it as a payload of fixed-width little-endian numbers
and the payload bytes of the appends.
-/

namespace ShardLog.Sink

open ByteReader Integers

/-! ## Data -/

/-- How far the sink has followed one partition. -/
structure DurableSinkCheckpoint where
  topicPartition : TopicPartition
  nextPlacementSequence : UInt64
  nextOffset : LogicalOffset
deriving DecidableEq, Repr

/-- The address range the stream engine assigned to an append. -/
structure Reservation where
  topicPartition : TopicPartition
  firstOffset : LogicalOffset
  recordCount : Nat
deriving DecidableEq, Repr

/-- One append after it became durable in the stream. -/
structure DurableAppend where
  physicalShardId : ShardId
  reservation : Reservation
  payload : Bytes
  transientContext : Option Bytes
deriving DecidableEq, Repr

def DurableAppend.topicPartition (append : DurableAppend) : TopicPartition :=
  append.reservation.topicPartition

/-- The arguments of one sink apply. -/
structure SinkTransaction where
  expected : DurableSinkCheckpoint
  appends : List DurableAppend
  next : DurableSinkCheckpoint
deriving DecidableEq, Repr

/-- An append read back from the journal. -/
structure RecoveredAppend where
  topicPartition : TopicPartition
  firstOffset : LogicalOffset
  payload : Bytes
deriving DecidableEq, Repr

/-- A transaction read back from the journal. -/
structure RecoveredTransaction where
  expected : DurableSinkCheckpoint
  next : DurableSinkCheckpoint
  appends : List RecoveredAppend
deriving DecidableEq, Repr

/-- What the journal keeps of an append. -/
def DurableAppend.recovered (append : DurableAppend) : RecoveredAppend :=
  ⟨append.topicPartition, append.reservation.firstOffset, append.payload⟩

/-- What the journal keeps of a transaction. -/
def SinkTransaction.recovered (transaction : SinkTransaction) : RecoveredTransaction :=
  ⟨transaction.expected, transaction.next, transaction.appends.map DurableAppend.recovered⟩

/-- Report a malformed journal. -/
abbrev corrupt (message : String) : LogDbError := .corruptSinkJournal message

/-! ## Encoding -/

def maxFrameBytes : Nat := 64 * 1024 * 1024

def encodeCheckpoint (checkpoint : DurableSinkCheckpoint) : Bytes :=
  leBytes 16 checkpoint.topicPartition.topic ++ leBytes 4 checkpoint.topicPartition.partition ++
    leBytes 8 checkpoint.nextPlacementSequence.toNat ++
    leBytes 8 checkpoint.nextOffset.toNat

def encodeAppend (partition : TopicPartition) (append : DurableAppend) : LogDbResult Bytes := do
  ensure (append.topicPartition = partition)
    (corrupt "transaction append belongs to another partition")
  let payloadBytes ← tryU32 append.payload.length
  .ok (leBytes 4 append.physicalShardId ++ leBytes 8 append.reservation.firstOffset.toNat ++
    leBytes 4 payloadBytes ++ append.payload)

def encodeTransaction (transaction : SinkTransaction) : LogDbResult Bytes := do
  let expected := transaction.expected
  let next := transaction.next
  ensure (expected.topicPartition = next.topicPartition)
    (corrupt "transaction checkpoints refer to different partitions")
  let count ← tryU32 transaction.appends.length
  let appends ← encodeAll (encodeAppend expected.topicPartition) transaction.appends
  let encoded := encodeCheckpoint expected ++ encodeCheckpoint next ++ leBytes 4 count ++ appends
  ensure (encoded.length ≤ maxFrameBytes) LogDbError.recordTooLarge
  .ok encoded

/-! ## Decoding -/

/-- Take bytes of a frame.  The sum of cursor and length can only overflow when the
bytes are not there. -/
def takeFrameBytes (truncated : String) (length : Nat) : Reader LogDbError Bytes := fun s =>
  if length ≤ s.rest.length then .ok (s.rest.take length, ⟨s.cursor + length, s.rest.drop length⟩)
  else if 2 ^ 64 ≤ s.cursor + length then .error .recordTooLarge
  else .error (corrupt truncated)

/-- A little-endian number of a fixed width. -/
def readUnsigned (width : Nat) : Reader LogDbError Nat := do
  let bytes ← takeFrameBytes "journal frame is truncated" width
  pure (fromLeBytes bytes)

def readU32 : Reader LogDbError Nat := readUnsigned 4

def readU64 : Reader LogDbError UInt64 := do
  let value ← readUnsigned 8
  pure (UInt64.ofNat value)

def readU128 : Reader LogDbError Nat := readUnsigned 16

def readCheckpoint : Reader LogDbError DurableSinkCheckpoint := do
  let topic ← readU128
  let partition ← readU32
  let nextPlacementSequence ← readU64
  let nextOffset ← readU64
  pure ⟨⟨topic, partition⟩, nextPlacementSequence, nextOffset⟩

def readAppend (shard : ShardId) (partition : TopicPartition) :
    Reader LogDbError RecoveredAppend := do
  let observedShard ← readU32
  require (decide (observedShard = shard))
    (corrupt "journal frame belongs to another physical shard")
  let firstOffset ← readU64
  let payloadBytes ← readU32
  let payload ← takeFrameBytes "append payload is truncated" payloadBytes
  pure ⟨partition, firstOffset, payload⟩

def readTransaction (shard : ShardId) : Reader LogDbError RecoveredTransaction := do
  let expected ← readCheckpoint
  let next ← readCheckpoint
  require (decide (expected.topicPartition = next.topicPartition))
    (corrupt "transaction checkpoints refer to different partitions")
  let count ← readU32
  let appends ← readMany (readAppend shard expected.topicPartition) count
  pure ⟨expected, next, appends⟩

/-- Decode a whole payload. -/
def decodeTransaction (bytes : Bytes) (shard : ShardId) : LogDbResult RecoveredTransaction := do
  let (transaction, final) ← (readTransaction shard).run (.start bytes)
  ensure (final.rest = []) (corrupt "journal frame has trailing bytes")
  .ok transaction

/-! ## Ranges of the machine types -/

/-- A transaction of one physical shard, with identifiers in their ranges. -/
structure SinkTransaction.OfShard (shard : ShardId) (transaction : SinkTransaction) : Prop where
  shard_lt : shard < 2 ^ 32
  inRange : InRange transaction.expected.topicPartition
  appends : ∀ append ∈ transaction.appends, append.physicalShardId = shard

/-! ## Round trip -/

theorem reads_takeFrameBytes (truncated : String) (bytes : Bytes) :
    Reads (takeFrameBytes truncated bytes.length) bytes bytes := by
  intro cursor tail
  simp [takeFrameBytes, StateT.run]

theorem reads_readUnsigned {width value : Nat} (h : value < 256 ^ width) :
    Reads (readUnsigned width) (leBytes width value) value := by
  have htake := reads_takeFrameBytes "journal frame is truncated" (leBytes width value)
  rw [length_leBytes] at htake
  exact htake.bind_pure (by rw [fromLeBytes_leBytes h])

theorem reads_readU32 {value : Nat} (h : value < 2 ^ 32) : Reads readU32 (leBytes 4 value) value :=
  reads_readUnsigned (by simpa using h)

theorem reads_readU64 (value : UInt64) : Reads readU64 (leBytes 8 value.toNat) value := by
  have hvalue : value.toNat < 256 ^ 8 := value.toNat_lt
  exact (reads_readUnsigned hvalue).bind_pure (by rw [UInt64.ofNat_toNat])

/-- A checkpoint is read back. -/
theorem reads_readCheckpoint {checkpoint : DurableSinkCheckpoint}
    (h : InRange checkpoint.topicPartition) :
    Reads readCheckpoint (encodeCheckpoint checkpoint) checkpoint := by
  have htopic : checkpoint.topicPartition.topic < 256 ^ 16 := h.topic
  unfold encodeCheckpoint
  rw [List.append_assoc, List.append_assoc]
  exact (reads_readUnsigned htopic).bind ((reads_readU32 h.partition).bind
    ((reads_readU64 _).bind ((reads_readU64 _).bind_pure rfl)))

variable {shard : ShardId} {bytes : Bytes} {transaction : SinkTransaction}

/-- An append is read back. -/
theorem reads_readAppend (hshard : shard < 2 ^ 32) {partition : TopicPartition}
    {append : DurableAppend} (happend : append.physicalShardId = shard)
    (h : encodeAppend partition append = .ok bytes) :
    Reads (readAppend shard partition) bytes append.recovered := by
  obtain ⟨_, hpartition, h⟩ := bind_eq_ok_iff.mp h
  obtain ⟨payloadBytes, hbytes, h⟩ := bind_eq_ok_iff.mp h
  rw [ensure_eq_ok_iff] at hpartition
  obtain ⟨rfl, hfits⟩ := tryU32_eq_ok_iff.mp hbytes
  cases h
  rw [happend, List.append_assoc, List.append_assoc]
  refine (reads_readU32 hshard).bind (Reads.require_bind (by simp) ?_)
  refine (reads_readU64 _).bind ((reads_readU32 hfits).bind ?_)
  exact (reads_takeFrameBytes _ append.payload).bind_pure
    (by rw [DurableAppend.recovered, hpartition])

/-- What an encoded transaction consists of. -/
theorem encodeTransaction_eq_ok_iff : encodeTransaction transaction = .ok bytes ↔
      ∃ appends, transaction.expected.topicPartition = transaction.next.topicPartition ∧
        transaction.appends.length < 2 ^ 32 ∧
        encodeAll (encodeAppend transaction.expected.topicPartition) transaction.appends =
          .ok appends ∧
        bytes = encodeCheckpoint transaction.expected ++ encodeCheckpoint transaction.next ++
          leBytes 4 transaction.appends.length ++ appends ∧
        bytes.length ≤ maxFrameBytes := by
  unfold encodeTransaction
  simp only [bind_eq_ok_iff, ensure_eq_ok_iff, tryU32_eq_ok_iff]
  constructor
  · grind
  · simp_all

/-- A transaction is read back. -/
theorem reads_readTransaction (hshard : transaction.OfShard shard)
    (h : encodeTransaction transaction = .ok bytes) :
    Reads (readTransaction shard) bytes transaction.recovered := by
  obtain ⟨appends, hpartition, hcount, happends, rfl, _⟩ := encodeTransaction_eq_ok_iff.mp h
  have hnext : InRange transaction.next.topicPartition := hpartition ▸ hshard.inRange
  rw [List.append_assoc, List.append_assoc]
  refine (reads_readCheckpoint hshard.inRange).bind ((reads_readCheckpoint hnext).bind ?_)
  refine Reads.require_bind (by simp [hpartition]) ((reads_readU32 hcount).bind ?_)
  refine (Reads.readMany_encodeAll DurableAppend.recovered ?_ happends).bind_pure rfl
  intro append happend blob hblob
  exact reads_readAppend hshard.shard_lt (hshard.appends append happend) hblob

/-- Decoding an encoded transaction returns what the journal keeps of it. -/
theorem decodeTransaction_encodeTransaction (hshard : transaction.OfShard shard)
    (h : encodeTransaction transaction = .ok bytes) :
    decodeTransaction bytes shard = .ok transaction.recovered := by
  unfold decodeTransaction
  rw [(reads_readTransaction hshard h).run_start]
  rfl

/-- An encoded transaction holds at least its two checkpoints and its count. -/
theorem length_encodeTransaction (h : encodeTransaction transaction = .ok bytes) :
    76 ≤ bytes.length ∧ bytes.length ≤ maxFrameBytes := by
  obtain ⟨appends, _, _, _, rfl, hlength⟩ := encodeTransaction_eq_ok_iff.mp h
  refine ⟨?_, hlength⟩
  simp only [encodeCheckpoint, List.length_append, length_leBytes]
  omega

end ShardLog.Sink
