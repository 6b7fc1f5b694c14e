import ShardLog.Foundation.AssocMap
import ShardLog.Foundation.FramedLog
import ShardLog.Sink.Transaction

/-!
# Sink journal - file

The journal of one physical shard: a magic followed by one checksummed frame per
transaction.  Opening it reads the frames back, repairs a torn tail and checks that
the checkpoints of each partition do not go back.

Main results:

- Theorem `recover_journalBytes`: recovery returns the transactions of the complete
  frames and cuts the rest.
- Theorem `openJournal_truncated`: the same after any sequence of appends, crashes
  that cut the file anywhere after its header, and reopenings.
- Theorem `openJournal_reopened`: what an open leaves opens again with the same result.
-/

namespace ShardLog.Sink

open ByteReader FramedLog Stateful Integers File SinkTransaction List

/-! ## The journal -/

def journalMagic : Bytes := Utf8.utf8 "SLOGSNK1".toList

def checksumBytes : Nat := 32

/-- Error of a file operation on the journal. -/
def journalIo (operation error : String) : LogDbError :=
  .storageIo (operation ++ " sink journal: " ++ error)

/-- An open journal: its file, and the length it takes the file to have. -/
structure SinkJournal where
  maxBytes : Nat
  file : File
  bytes : Nat
deriving DecidableEq, Repr

/-- How the writes of one append end. -/
structure AppendIo where
  length : WriteOutcome := .done
  payload : WriteOutcome := .done
  checksum : WriteOutcome := .done
  sync : Option String := none

/-- How the writes of a newly created journal end. -/
structure OpenIo where
  magic : WriteOutcome := .done
  sync : Option String := none

section Model

variable (blake3 : Bytes → Bytes)

/-! ## Appending -/

def writeFrame (io : AppendIo) (length payload checksum : Bytes) : EStateM String File Unit := do
  writeAll length io.length
  writeAll payload io.payload
  writeAll checksum io.checksum
  syncData io.sync

/-- Run file operations on the file of a journal. -/
def onFile (operation : String) (program : EStateM String File Unit) :
    EStateM LogDbError SinkJournal Unit := fun journal =>
  match program.run journal.file with
  | .ok _ file => .ok () { journal with file := file }
  | .error error file => .error (journalIo operation error) { journal with file := file }

/-- Append one transaction.  An append that fails keeps the recorded length, whatever
it wrote. -/
def append (io : AppendIo) (transaction : SinkTransaction) :
    EStateM LogDbError SinkJournal Unit := do
  let payload ← liftResult (encodeTransaction transaction)
  let journal ← get
  let nextBytes := journal.bytes + (4 + payload.length + checksumBytes)
  liftResult (ensure (nextBytes < 2 ^ 64) LogDbError.recordTooLarge)
  liftResult (ensure (nextBytes ≤ journal.maxBytes)
    (LogDbError.sinkJournalFull nextBytes journal.maxBytes))
  let length ← liftResult (tryU32 payload.length)
  onFile "append transaction" (writeFrame io (leBytes 4 length) payload (blake3 payload))
  modify fun journal => { journal with bytes := nextBytes }

/-! ## Recovery -/

/-- The checkpoints of the partitions after one more transaction. -/
def advanceCheckpoints (checkpoints : List (TopicPartition × DurableSinkCheckpoint))
    (transaction : RecoveredTransaction) : List (TopicPartition × DurableSinkCheckpoint) :=
  AssocMap.insert checkpoints transaction.next.topicPartition transaction.next

/-- A transaction that starts before the checkpoint of its partition. -/
def regressed (checkpoints : List (TopicPartition × DurableSinkCheckpoint))
    (expected : DurableSinkCheckpoint) : Bool :=
  match AssocMap.get checkpoints expected.topicPartition with
  | some actual =>
    decide (actual.nextPlacementSequence > expected.nextPlacementSequence) ||
      decide (actual.nextOffset > expected.nextOffset)
  | none => false

/-- The frame at the front of the bytes that remain. -/
def readFrame (shard : ShardId) (checkpoints : List (TopicPartition × DurableSinkCheckpoint))
    (bytes : Bytes) : Head LogDbError RecoveredTransaction :=
  let length := fromLeBytes (bytes.take 4)
  let body := bytes.drop 4
  let payload := body.take length
  -- A file that ends inside the length, the payload or the checksum is repaired.
  if bytes.length < 4 then .torn
  else if length = 0 ∨ maxFrameBytes < length then
    .corrupt (corrupt "journal frame length is invalid")
  else if body.length < length + checksumBytes then .torn
  else if blake3 payload ≠ (body.drop length).take checksumBytes then
    .corrupt (corrupt "journal frame checksum is invalid")
  else
    match decodeTransaction payload shard with
    | .error e => .corrupt e
    | .ok transaction =>
      if regressed checkpoints transaction.expected then
        .corrupt (corrupt "journal checkpoint sequence or offset regressed")
      else .whole transaction (4 + length + checksumBytes)

/-- Read every frame of the file and cut what follows the last complete one. -/
def recover (shard : ShardId) (maxBytes : Nat) :
    EStateM LogDbError Bytes (List RecoveredTransaction) := do
  let bytes ← get
  liftResult (ensure (bytes.length ≤ maxBytes) (LogDbError.sinkJournalFull bytes.length maxBytes))
  liftResult (ensure (journalMagic.length ≤ bytes.length)
    (journalIo "read header" "failed to fill whole buffer"))
  liftResult (ensure (bytes.take journalMagic.length = journalMagic)
    (corrupt "journal magic is invalid"))
  let scanned ← liftResult (scan (readFrame blake3 shard) advanceCheckpoints bytes.length []
    (bytes.drop journalMagic.length))
  set (bytes.take (journalMagic.length + scanned.2))
  pure scanned.1

/-! ## Opening -/

/-- Write the magic of a file that was just created. -/
def writeMagic (io : OpenIo) : EStateM LogDbError Bytes Unit := fun bytes =>
  if bytes.length = 0 then
    let program := do
      writeAll journalMagic io.magic
      syncData io.sync
    match program.run (atEnd bytes) with
    | .ok _ file => .ok () file.bytes
    | .error error file => .error (journalIo "initialize" error) file.bytes
  else .ok () bytes

/-- Open the journal of a shard.  The state is the content of its file; a file that
does not exist yet is created empty. -/
def openJournal (shard : ShardId) (maxBytes : Nat) (io : OpenIo) :
    EStateM LogDbError Bytes (SinkJournal × List RecoveredTransaction) := do
  liftResult (ensure (journalMagic.length ≤ maxBytes)
    (LogDbError.invalidConfig "sink journal max bytes must fit its header"))
  writeMagic io
  let transactions ← recover blake3 shard maxBytes
  let bytes ← get
  pure (⟨maxBytes, atEnd bytes, bytes.length⟩, transactions)

end Model

@[simp] theorem length_journalMagic : journalMagic.length = 8 := rfl

section Recovery

variable {blake3 : Bytes → Bytes} {shard : ShardId} {maxBytes : Nat} {transaction : SinkTransaction}
  {earlier : List RecoveredTransaction} {payload : Bytes}

/-! ## Frames -/

/-- The frame of a transaction that can be encoded. -/
def frameOf (blake3 : Bytes → Bytes) (transaction : SinkTransaction) : Bytes :=
  match encodeTransaction transaction with
  | .ok payload => leBytes 4 payload.length ++ payload ++ blake3 payload
  | .error _ => []

/-- What recovery reads from the frame of each transaction. -/
def entriesOf (blake3 : Bytes → Bytes) (transactions : List SinkTransaction) :
    List (RecoveredTransaction × Bytes) :=
  transactions.map fun transaction => (transaction.recovered, frameOf blake3 transaction)

/-- The file of a journal with the given transactions. -/
def journalBytes (blake3 : Bytes → Bytes) (transactions : List SinkTransaction) : Bytes :=
  journalMagic ++ contents (entriesOf blake3 transactions)

/-- The checkpoints after a list of transactions. -/
def checkpointsOf (transactions : List RecoveredTransaction) :
    List (TopicPartition × DurableSinkCheckpoint) :=
  transactions.foldl advanceCheckpoints []

/-- The transaction starts at or after the last checkpoint of its partition. -/
def Follows (earlier : List RecoveredTransaction) (transaction : SinkTransaction) : Prop :=
  ∀ actual, AssocMap.get (checkpointsOf earlier) transaction.expected.topicPartition = some actual →
    actual.nextPlacementSequence ≤ transaction.expected.nextPlacementSequence ∧
      actual.nextOffset ≤ transaction.expected.nextOffset

/-- A transaction that follows does not regress. -/
theorem regressed_eq_false (h : Follows earlier transaction) :
    regressed (checkpointsOf earlier) transaction.expected = false := by
  unfold regressed
  cases hactual : AssocMap.get (checkpointsOf earlier) transaction.expected.topicPartition with
  | none => rfl
  | some actual =>
    obtain ⟨hsequence, hoffset⟩ := h actual hactual
    simp [UInt64.not_lt.mpr hsequence, UInt64.not_lt.mpr hoffset]

/-- Length, payload and checksum. -/
theorem frameOf_eq (h : encodeTransaction transaction = .ok payload) :
    frameOf blake3 transaction = leBytes 4 payload.length ++ payload ++ blake3 payload := by
  rw [frameOf, h]

variable (hblake3 : ∀ payload, (blake3 payload).length = checksumBytes)

include hblake3 in
theorem length_frameOf (h : encodeTransaction transaction = .ok payload) :
    (frameOf blake3 transaction).length = 4 + payload.length + checksumBytes := by
  rw [frameOf_eq h, length_append, length_append, length_leBytes, hblake3]

/-- The length at the front of a frame is that of its payload. -/
theorem fromLeBytes_length (h : encodeTransaction transaction = .ok payload) :
    fromLeBytes (leBytes 4 payload.length) = payload.length := by
  have hlength := (length_encodeTransaction h).2
  refine fromLeBytes_leBytes ?_
  have hmax : maxFrameBytes < 256 ^ 4 := by decide
  omega

theorem payload_length_valid (h : encodeTransaction transaction = .ok payload) :
    ¬(payload.length = 0 ∨ maxFrameBytes < payload.length) := by
  have hlength := length_encodeTransaction h
  omega

include hblake3 in
/-- A complete frame is read as its transaction. -/
theorem readFrame_frameOf (hpayload : encodeTransaction transaction = .ok payload)
    (hshard : transaction.OfShard shard) (hfollows : Follows earlier transaction) (tail : Bytes) :
    readFrame blake3 shard (checkpointsOf earlier) (frameOf blake3 transaction ++ tail) =
      .whole transaction.recovered (frameOf blake3 transaction).length := by
  have hforward : regressed (checkpointsOf earlier) transaction.recovered.expected = false :=
    regressed_eq_false hfollows
  have hvalid := payload_length_valid hpayload
  rw [length_eq_zero_iff] at hvalid
  have hchecksum : (blake3 payload ++ tail).take checksumBytes = blake3 payload :=
    take_left' (hblake3 payload)
  unfold readFrame
  rw [length_frameOf hblake3 hpayload, frameOf_eq hpayload]
  simp [fromLeBytes_length hpayload, hvalid, hblake3, hchecksum,
    decodeTransaction_encodeTransaction hshard hpayload, hforward]

include hblake3 in
/-- A part of a frame that is not all of it is recognised as such. -/
theorem readFrame_of_torn (hpayload : encodeTransaction transaction = .ok payload) {torn : Bytes}
    (htorn : Torn (frameOf blake3 transaction) torn)
    (checkpoints : List (TopicPartition × DurableSinkCheckpoint)) :
    readFrame blake3 shard checkpoints torn = .torn := by
  obtain ⟨hpart, hlength⟩ := htorn
  rw [length_frameOf hblake3 hpayload] at hlength
  unfold readFrame
  by_cases hshort : torn.length < 4
  · simp [hshort]
  · have htake : torn.take 4 = leBytes 4 payload.length := by
      obtain ⟨rest, hrest⟩ := hpart
      have hlength4 : (leBytes 4 payload.length).length = 4 := length_leBytes _ _
      have hfirst : (torn ++ rest).take 4 = torn.take 4 := take_append_of_le_length (by omega)
      rw [← hfirst, hrest, frameOf_eq hpayload, append_assoc, take_left' hlength4]
    have hbody : (torn.drop 4).length < payload.length + checksumBytes := by
      rw [length_drop]
      omega
    simp only [htake, fromLeBytes_length hpayload]
    rw [if_neg hshort, if_neg (payload_length_valid hpayload), if_pos hbody]

/-! ## Recovered transactions -/

/-- Every transaction can be encoded, belongs to the shard and does not start before the checkpoint
of its partition. -/
inductive Chain (shard : ShardId) : List SinkTransaction → Prop where
  | nil : Chain shard []
  | append {transactions : List SinkTransaction} {transaction : SinkTransaction}
      (hchain : Chain shard transactions)
      (hencodes : ∃ payload, encodeTransaction transaction = .ok payload)
      (hshard : transaction.OfShard shard)
      (hfollows : Follows (transactions.map recovered) transaction) :
      Chain shard (transactions ++ [transaction])

variable {transactions : List SinkTransaction}

theorem Chain.encodes (h : Chain shard transactions) :
    ∀ transaction ∈ transactions, ∃ payload, encodeTransaction transaction = .ok payload := by
  induction h with
  | nil => exact fun _ hmem => absurd hmem not_mem_nil
  | append _ hencodes _ _ ih => grind

/-- Earlier transactions form a chain. -/
theorem Chain.take (h : Chain shard transactions) :
    ∀ count, Chain shard (transactions.take count) := by
  induction h with
  | nil => exact fun count => by simpa using .nil
  | @append transactions transaction hchain hencodes hshard hfollows ih =>
    intro count
    by_cases hcount : count ≤ transactions.length
    · rw [take_append_of_le_length hcount]
      exact ih count
    · rw [take_of_length_le (by simp; omega)]
      exact .append hchain hencodes hshard hfollows

include hblake3 in
/-- The frames of a chain are read back one after another. -/
theorem Chain.frames (h : Chain shard transactions) :
    Frames (readFrame blake3 shard) advanceCheckpoints [] (entriesOf blake3 transactions)
      (checkpointsOf (transactions.map recovered)) := by
  induction h with
  | nil => exact .nil _
  | @append transactions transaction _ hencodes hshard hfollows ih =>
    obtain ⟨payload, hpayload⟩ := hencodes
    have hsize : frameOf blake3 transaction ≠ [] := by grind [length_frameOf]
    have hlast := Frames.cons hsize (readFrame_frameOf hblake3 hpayload hshard hfollows)
      (.nil (advanceCheckpoints (checkpointsOf (transactions.map SinkTransaction.recovered))
        transaction.recovered))
    have hboth := ih.append hlast
    unfold entriesOf at hboth ⊢
    rw [map_append, map_append, checkpointsOf, foldl_append]
    exact hboth

include hblake3 in
theorem frameOf_ne_nil (h : Chain shard transactions) :
    ∀ entry ∈ entriesOf blake3 transactions, entry.2 ≠ [] := by
  intro entry hentry
  obtain ⟨transaction, hmem, rfl⟩ := mem_map.mp hentry
  obtain ⟨payload, hpayload⟩ := h.encodes transaction hmem
  rw [← length_pos_iff, length_frameOf hblake3 hpayload]
  omega

/-- One more frame. -/
theorem journalBytes_append (transactions : List SinkTransaction) (transaction : SinkTransaction) :
    journalBytes blake3 (transactions ++ [transaction]) =
      journalBytes blake3 transactions ++ frameOf blake3 transaction := by
  simp [journalBytes, entriesOf]

theorem journalBytes_take (transactions : List SinkTransaction) (count : Nat) :
    journalBytes blake3 (transactions.take count) =
      journalMagic ++ contents ((entriesOf blake3 transactions).take count) := by
  rw [journalBytes, entriesOf, entriesOf, map_take]

theorem length_le_journalBytes (blake3 : Bytes → Bytes) (transactions : List SinkTransaction) :
    8 ≤ (journalBytes blake3 transactions).length := by
  rw [journalBytes, length_append, length_journalMagic]
  omega

/-- What stands after the last complete frame: a part of one frame, or nothing. -/
def TornTail (blake3 : Bytes → Bytes) (tail : Bytes) : Prop :=
  tail = [] ∨ ∃ transaction payload, encodeTransaction transaction = .ok payload ∧
    Torn (frameOf blake3 transaction) tail

variable {tail : Bytes}

include hblake3 in
/-- A torn tail is read as such. -/
theorem readFrame_of_tornTail
    (htail : TornTail blake3 tail) (checkpoints : List (TopicPartition × DurableSinkCheckpoint)) :
    readFrame blake3 shard checkpoints tail = .torn := by
  rcases htail with rfl | ⟨transaction, payload, hpayload, htorn⟩
  · simp [readFrame]
  · exact readFrame_of_torn hblake3 hpayload htorn checkpoints

/-- What a recovery checks, reads and leaves. -/
theorem recover_eq_ok_iff {bytes repaired : Bytes} {recovered : List RecoveredTransaction} :
    (recover blake3 shard maxBytes).run bytes = .ok recovered repaired ↔
      bytes.length ≤ maxBytes ∧ journalMagic.length ≤ bytes.length ∧
        bytes.take journalMagic.length = journalMagic ∧
        ∃ size, scan (readFrame blake3 shard) advanceCheckpoints bytes.length []
          (bytes.drop journalMagic.length) = .ok (recovered, size) ∧
          repaired = bytes.take (journalMagic.length + size) := by
  simp only [recover, succeeds_bind_iff, succeeds_liftResult_iff, ensure_eq_ok_iff]
  constructor
  · rintro ⟨_, _, ⟨⟩, _, _, ⟨hfits, rfl⟩, _, _, ⟨hheader, rfl⟩, _, _, ⟨hmagic, rfl⟩, scanned, _,
      ⟨hscan, rfl⟩, _, _, ⟨⟩, ⟨⟩⟩
    exact ⟨hfits, hheader, hmagic, _, hscan, rfl⟩
  · rintro ⟨hfits, hheader, hmagic, size, hscan, rfl⟩
    exact ⟨_, _, rfl, (), _, ⟨hfits, rfl⟩, (), _, ⟨hheader, rfl⟩, (), _, ⟨hmagic, rfl⟩, _, _,
      ⟨hscan, rfl⟩, ⟨⟩, _, rfl, rfl⟩

include hblake3 in
/-- Recovery returns the transactions of the complete frames and cuts the rest. -/
theorem recover_journalBytes (h : Chain shard transactions) (htail : TornTail blake3 tail)
    (hfits : (journalBytes blake3 transactions ++ tail).length ≤ maxBytes) :
    (recover blake3 shard maxBytes).run (journalBytes blake3 transactions ++ tail) =
      .ok (transactions.map recovered) (journalBytes blake3 transactions) := by
  have hscan : scan (readFrame blake3 shard) advanceCheckpoints
      (journalBytes blake3 transactions ++ tail).length []
      (contents (entriesOf blake3 transactions) ++ tail) =
      .ok (transactions.map recovered, (contents (entriesOf blake3 transactions)).length) := by
    have hentries : (entriesOf blake3 transactions).map Prod.fst =
        transactions.map SinkTransaction.recovered := by
      simp [entriesOf]
    rw [← hentries]
    refine scan_frames (h.frames hblake3) (readFrame_of_tornTail hblake3 htail _) ?_
    simp only [journalBytes, length_append]
    omega
  have hheader : journalMagic.length ≤ (journalBytes blake3 transactions ++ tail).length := by
    grind [length_le_journalBytes, length_journalMagic]
  have hmagic : (journalBytes blake3 transactions ++ tail).take journalMagic.length =
      journalMagic := by
    rw [journalBytes, append_assoc, take_left]
  have hframes : (journalBytes blake3 transactions ++ tail).drop journalMagic.length =
      contents (entriesOf blake3 transactions) ++ tail := by
    rw [journalBytes, append_assoc, drop_left]
  have hcut : (journalBytes blake3 transactions ++ tail).take
      (journalMagic.length + (contents (entriesOf blake3 transactions)).length) =
      journalBytes blake3 transactions := by
    rw [← length_append, ← journalBytes, take_left]
  exact recover_eq_ok_iff.mpr ⟨hfits, hheader, hmagic, _, hframes ▸ hscan, hcut.symm⟩

/-- Opening a file with a header writes nothing but the repair. -/
theorem openJournal_of_recover {bytes disk : Bytes} {recovered : List RecoveredTransaction}
    (h : (recover blake3 shard maxBytes).run bytes = .ok recovered disk) (io : OpenIo) :
    (openJournal blake3 shard maxBytes io).run bytes =
      .ok (⟨maxBytes, atEnd disk, disk.length⟩, recovered) disk := by
  obtain ⟨hfits, hheader, _⟩ := recover_eq_ok_iff.mp h
  have hne : bytes.length ≠ 0 := by
    rw [length_journalMagic] at hheader
    omega
  simp only [openJournal, succeeds_bind_iff, succeeds_liftResult_iff, ensure_eq_ok_iff]
  exact ⟨(), _, ⟨hheader.trans hfits, rfl⟩, (), bytes,
    by simp only [EStateM.run, writeMagic, if_neg hne], _, _, h, _, _, rfl, rfl⟩

/-- Opening a new file leaves the header. -/
theorem openJournal_nil (hmax : 8 ≤ maxBytes)
    (hblake3 : ∀ payload, (blake3 payload).length = checksumBytes) :
    (openJournal blake3 shard maxBytes {}).run [] =
      .ok (⟨maxBytes, atEnd journalMagic, 8⟩, []) journalMagic := by
  have hrecovered : (recover blake3 shard maxBytes).run journalMagic = .ok [] journalMagic :=
    recover_journalBytes hblake3 .nil (.inl rfl) hmax
  unfold openJournal
  simp only [succeeds_bind_iff, succeeds_liftResult_iff]
  exact ⟨(), _, ⟨ensure_of_true hmax _, rfl⟩, (), _, rfl, _, _, hrecovered, _, _, rfl, rfl⟩

/-! ## Arbitrary files -/

/-- Bytes with the length of a frame are read alike, whatever follows them. -/
theorem readFrame_append {checkpoints : List (TopicPartition × DurableSinkCheckpoint)}
    {frame : Bytes}
    (h : frame.length = 4 + fromLeBytes (frame.take 4) + checksumBytes) (tail : Bytes) :
    readFrame blake3 shard checkpoints (frame ++ tail) =
      readFrame blake3 shard checkpoints frame := by
  have hhead : (frame ++ tail).take 4 = frame.take 4 := take_append_of_le_length (by omega)
  have hbody : (frame ++ tail).drop 4 = frame.drop 4 ++ tail := drop_append_of_le_length (by omega)
  have hlength : (frame.drop 4).length = fromLeBytes (frame.take 4) + checksumBytes := by
    rw [length_drop]
    omega
  simp only [readFrame, hhead, hbody]
  rw [take_append_of_le_length (by omega), drop_append_of_le_length (by omega),
    take_append_of_le_length (by rw [length_drop]; omega)]
  simp only [length_append, hlength]
  grind

/-- A whole frame is read whatever follows. -/
theorem stable_readFrame : Stable (readFrame blake3 shard) := by
  intro checkpoints bytes transaction size h
  have hsize : size = 4 + fromLeBytes (bytes.take 4) + checksumBytes ∧ size ≤ bytes.length := by
    simp only [readFrame] at h
    grind
  obtain ⟨hsize, hle⟩ := hsize
  have hframe : (bytes.take size).length =
      4 + fromLeBytes ((bytes.take size).take 4) + checksumBytes := by
    rw [take_take, min_eq_left (by omega), length_take_of_le hle, hsize]
  refine ⟨by omega, hle, fun tail => ?_⟩
  rw [readFrame_append hframe, ← readFrame_append hframe (bytes.drop size), take_append_drop, h]

/-- What an open leaves is opened again with the same result, whatever bytes the file had. -/
theorem openJournal_reopened {bytes disk : Bytes} {io : OpenIo}
    {opened : SinkJournal × List RecoveredTransaction}
    (h : (openJournal blake3 shard maxBytes io).run bytes = .ok opened disk) (again : OpenIo) :
    (openJournal blake3 shard maxBytes again).run disk = .ok opened disk := by
  simp only [openJournal, succeeds_bind_iff, succeeds_liftResult_iff, ensure_eq_ok_iff] at h
  obtain ⟨_, _, ⟨_, rfl⟩, _, headed, _, transactions, _, hrecover, _, _, ⟨⟩, ⟨⟩⟩ := h
  obtain ⟨hfits, hheader, hmagic, size, hscan, hdisk⟩ := recover_eq_ok_iff.mp hrecover
  obtain ⟨frames, final, hframes, rfl, hcontents, hsize⟩ :=
    exists_frames_of_scan stable_readFrame hscan
  obtain rfl : disk = journalMagic ++ contents frames := by
    rw [hdisk, take_add, hmagic, hcontents]
  have hagain := @scan_frames _ _ _ _ _ _ [] final hframes [] rfl
    (journalMagic ++ contents frames).length (by simp)
  rw [append_nil] at hagain
  refine openJournal_of_recover (recover_eq_ok_iff.mpr ⟨?_, by simp, take_left, _,
    by rwa [drop_left], ?_⟩) again
  · rw [hdisk]
    exact (length_take_le' _ _).trans hfits
  · rw [← length_append, take_length]

/-- A hash that tells nothing apart. -/
def constantHash (_ : Bytes) : Bytes := List.replicate checksumBytes 0

/-- One append of three payload bytes. -/
def sampleTransaction : SinkTransaction where
  expected := ⟨⟨1, 1⟩, 1, 0⟩
  appends := [⟨0, ⟨⟨1, 1⟩, 0, 1⟩, [1, 2, 3], none⟩]
  next := ⟨⟨1, 1⟩, 2, 1⟩

theorem sampleTransaction_ofShard : sampleTransaction.OfShard 0 where
  shard_lt := by decide
  inRange := ⟨by decide, by decide⟩
  appends := by decide

/-- A journal of one transaction with a part of a further frame opens twice alike. -/
theorem openJournal_reopened_torn : ∃ opened, opened.2 = [sampleTransaction.recovered] ∧
    (openJournal constantHash 0 1024 {}).run (journalBytes constantHash [sampleTransaction] ++
        (frameOf constantHash sampleTransaction).take 20) =
      .ok opened (journalBytes constantHash [sampleTransaction]) ∧
    (openJournal constantHash 0 1024 {}).run (journalBytes constantHash [sampleTransaction]) =
      .ok opened (journalBytes constantHash [sampleTransaction]) := by
  have hfollows : Follows [] sampleTransaction := fun _ hactual => by cases hactual
  have hchain : Chain 0 [sampleTransaction] :=
    .append .nil ⟨_, rfl⟩ sampleTransaction_ofShard hfollows
  have htail : TornTail constantHash ((frameOf constantHash sampleTransaction).take 20) :=
    .inr ⟨sampleTransaction, _, rfl, take_prefix _ _, by decide +kernel⟩
  have hfits : (journalBytes constantHash [sampleTransaction] ++
      (frameOf constantHash sampleTransaction).take 20).length ≤ 1024 := by decide +kernel
  have hopened := openJournal_of_recover
    (recover_journalBytes (fun _ => rfl) hchain htail hfits) {}
  exact ⟨_, rfl, hopened, openJournal_reopened hopened {}⟩

/-! ## Appended frames -/

/-- What a program does to the file, as a step of the journal. -/
theorem triple_onFile (operation : String) {program : EStateM String File Unit} {file : File}
    {post failed : File → Prop}
    (h : Triple (fun current => current = file) program (fun _ => post) failed)
    (maxBytes bytes : Nat) :
    Triple (fun journal => journal = ⟨maxBytes, file, bytes⟩) (onFile operation program)
      (fun _ journal => ∃ file, post file ∧ journal = ⟨maxBytes, file, bytes⟩)
      (fun journal => ∃ file, failed file ∧ journal = ⟨maxBytes, file, bytes⟩) := by
  rintro journal rfl
  have hfile := h file rfl
  simp only [EStateM.run, onFile] at hfile ⊢
  cases hrun : program file with
  | ok value final =>
    simp only [hrun] at hfile ⊢
    exact ⟨final, hfile, rfl⟩
  | error error final =>
    simp only [hrun] at hfile ⊢
    exact ⟨final, hfile, rfl⟩

/-- The three writes append a frame or a part of it. -/
theorem triple_writeFrame (io : AppendIo) (bytes length payload checksum : Bytes) :
    Triple (fun file => file = atEnd bytes) (writeFrame io length payload checksum)
      (fun _ file => file = atEnd (bytes ++ (length ++ payload ++ checksum)))
      (TornAfter bytes (length ++ payload ++ checksum)) := by
  have hsynced := triple_syncData (bytes ++ length ++ payload ++ checksum) io.sync
  have hwritten := triple_writeAll_bind io.length (triple_writeAll_bind io.payload
    (triple_writeAll_bind io.checksum hsynced))
  simp only [append_nil, ← append_assoc] at hwritten ⊢
  exact hwritten

/-- The recorded length leaves room for the frame of the transaction. -/
def HasRoom (blake3 : Bytes → Bytes) (maxBytes bytes : Nat) (transaction : SinkTransaction) : Prop :=
  (∃ payload, encodeTransaction transaction = .ok payload) ∧
    bytes + (frameOf blake3 transaction).length ≤ maxBytes

include hblake3 in
/-- An append adds the frame of its transaction, or it fails with a part of it, and with nothing if
there was no room. -/
theorem triple_append (io : AppendIo)
    (transaction : SinkTransaction) (maxBytes bytes : Nat) (written : Bytes) :
    Triple (fun journal => journal = ⟨maxBytes, atEnd written, bytes⟩)
      (append blake3 io transaction)
      (fun _ journal => HasRoom blake3 maxBytes bytes transaction ∧
        journal = ⟨maxBytes, atEnd (written ++ frameOf blake3 transaction),
          bytes + (frameOf blake3 transaction).length⟩)
      (fun journal => ∃ torn, (torn = [] ∨ HasRoom blake3 maxBytes bytes transaction) ∧
        torn <+: frameOf blake3 transaction ∧
        journal = ⟨maxBytes, atEnd (written ++ torn), bytes⟩) := by
  have huntouched : ∀ journal : SinkJournal, journal = ⟨maxBytes, atEnd written, bytes⟩ →
      ∃ torn, (torn = [] ∨ HasRoom blake3 maxBytes bytes transaction) ∧
        torn <+: frameOf blake3 transaction ∧
        journal = ⟨maxBytes, atEnd (written ++ torn), bytes⟩ := fun journal hjournal =>
    ⟨[], .inl rfl, nil_prefix, by rw [hjournal, append_nil]⟩
  refine triple_liftResult_bind huntouched fun payload hpayload => ?_
  refine triple_get_bind fun journal hjournal => ?_
  subst hjournal
  refine triple_liftResult_bind (fun journal h => huntouched journal h.2) fun _ _ => ?_
  refine triple_liftResult_bind (fun journal h => huntouched journal h.2) fun _ hfits => ?_
  have hroom : HasRoom blake3 maxBytes bytes transaction := by
    refine ⟨⟨payload, hpayload⟩, ?_⟩
    rw [length_frameOf hblake3 hpayload]
    exact ensure_eq_ok_iff.mp hfits
  refine triple_liftResult_bind (fun journal h => huntouched journal h.2) fun length hlength => ?_
  obtain ⟨rfl, _⟩ := tryU32_eq_ok_iff.mp hlength
  have hwritten := triple_onFile "append transaction"
    (triple_writeFrame io written (leBytes 4 payload.length) payload (blake3 payload))
    maxBytes bytes
  rw [← frameOf_eq hpayload] at hwritten
  refine Triple.bind (fun _ journal =>
    journal = ⟨maxBytes, atEnd (written ++ frameOf blake3 transaction), bytes⟩)
    (hwritten.consequence (fun _ hjournal => hjournal.2) ?_ ?_) fun _ => ?_
  · rintro _ journal ⟨file, rfl, rfl⟩
    rfl
  · rintro journal ⟨file, ⟨torn, htorn, rfl⟩, rfl⟩
    exact ⟨torn, .inr hroom, htorn, rfl⟩
  · grind [triple_modify, length_frameOf]

/-! ## Crashes -/

/-- The transactions of a journal that was created, appended to, cut by crashes
anywhere after its header, and reopened. -/
inductive Journaled (blake3 : Bytes → Bytes) (shard : ShardId) (maxBytes : Nat) :
    List SinkTransaction → SinkJournal → Prop where
  | created {journal : SinkJournal} {recovered : List RecoveredTransaction} {disk : Bytes}
      (hopened : (openJournal blake3 shard maxBytes {}).run [] = .ok (journal, recovered) disk) :
      Journaled blake3 shard maxBytes [] journal
  | appended {transactions : List SinkTransaction} {journal later : SinkJournal}
      {transaction : SinkTransaction} {io : AppendIo}
      (hrun : Journaled blake3 shard maxBytes transactions journal)
      (hshard : transaction.OfShard shard)
      (hfollows : Follows (transactions.map recovered) transaction)
      (happended : (append blake3 io transaction).run journal = .ok () later) :
      Journaled blake3 shard maxBytes (transactions ++ [transaction]) later
  | reopened {transactions : List SinkTransaction} {journal later : SinkJournal} {cut : Nat}
      {io : OpenIo} {recovered : List RecoveredTransaction} {disk : Bytes}
      (hrun : Journaled blake3 shard maxBytes transactions journal) (hcut : 8 ≤ cut)
      (hopened : (openJournal blake3 shard maxBytes io).run (journal.file.bytes.take cut) =
        .ok (later, recovered) disk) :
      Journaled blake3 shard maxBytes (transactions.take recovered.length) later

/-- The file holds exactly the frames of the transactions, and its length is known. -/
structure Sound (blake3 : Bytes → Bytes) (shard : ShardId) (maxBytes : Nat)
    (transactions : List SinkTransaction) (journal : SinkJournal) : Prop where
  chain : Chain shard transactions
  fits : (journalBytes blake3 transactions).length ≤ maxBytes
  journal : journal = ⟨maxBytes, atEnd (journalBytes blake3 transactions),
    (journalBytes blake3 transactions).length⟩

variable {journal : SinkJournal}

include hblake3 in
/-- A sound journal cut after its header is opened with the transactions whose frames
are complete. -/
theorem Sound.reopen
    (h : Sound blake3 shard maxBytes transactions journal) {cut : Nat} (hcut : 8 ≤ cut)
    (io : OpenIo) :
    ∃ count later, count ≤ transactions.length ∧ (∀ ended ≤ transactions.length,
        (journalBytes blake3 (transactions.take ended)).length ≤ cut ↔ ended ≤ count) ∧
      (openJournal blake3 shard maxBytes io).run (journal.file.bytes.take cut) =
        .ok (later, (transactions.take count).map recovered)
          (journalBytes blake3 (transactions.take count)) ∧
      Sound blake3 shard maxBytes (transactions.take count) later := by
  obtain ⟨count, torn, hcount, htake, htorn, hended⟩ :=
    exists_take_contents (frameOf_ne_nil hblake3 h.chain) (cut - 8)
  have hentries : (entriesOf blake3 transactions).length = transactions.length := by
    simp [entriesOf]
  rw [hentries] at hcount hended
  have hcutBytes : journal.file.bytes.take cut =
      journalBytes blake3 (transactions.take count) ++ torn := by
    rw [h.journal, journalBytes_take, append_assoc, ← htake]
    change (journalBytes blake3 transactions).take cut = _
    rw [journalBytes, take_append, take_of_length_le (by simpa using hcut), length_journalMagic]
  have htail : TornTail blake3 torn := by
    rcases htorn with rfl | ⟨entry, hentry, htorn⟩
    · exact .inl rfl
    · obtain ⟨transaction, hmem, rfl⟩ := mem_map.mp (mem_of_getElem? hentry)
      obtain ⟨payload, hpayload⟩ := h.chain.encodes transaction hmem
      exact .inr ⟨transaction, payload, hpayload, htorn⟩
  have hshorter : (journalBytes blake3 (transactions.take count) ++ torn).length ≤ maxBytes := by
    have hfits := h.fits
    rw [← hcutBytes, h.journal]
    change ((journalBytes blake3 transactions).take cut).length ≤ maxBytes
    rw [length_take]
    omega
  refine ⟨count, ⟨maxBytes, atEnd (journalBytes blake3 (transactions.take count)),
    (journalBytes blake3 (transactions.take count)).length⟩, hcount, ?_, ?_, ?_⟩
  · grind [journalBytes_take, length_journalMagic]
  · rw [hcutBytes]
    exact openJournal_of_recover
      (recover_journalBytes hblake3 (h.chain.take count) htail hshorter) io
  · rw [length_append] at hshorter
    exact ⟨h.chain.take count, by omega, rfl⟩

include hblake3 in
/-- An append keeps the file and the handle in step. -/
theorem Sound.append {later : SinkJournal} (h : Sound blake3 shard maxBytes transactions journal)
    (hshard : transaction.OfShard shard)
    (hfollows : Follows (transactions.map recovered) transaction) {io : AppendIo}
    (happended : (Sink.append blake3 io transaction).run journal = .ok () later) :
    Sound blake3 shard maxBytes (transactions ++ [transaction]) later := by
  obtain ⟨⟨hencodes, hfits⟩, hlater⟩ :=
    (triple_append hblake3 io transaction maxBytes _ _).of_ok h.journal happended
  refine ⟨.append h.chain hencodes hshard hfollows, ?_, ?_⟩
  · rw [journalBytes_append, length_append]
    exact hfits
  · rw [hlater, journalBytes_append, length_append]

include hblake3 in
/-- Every history leaves a journal of whole frames. -/
theorem Journaled.sound (h : Journaled blake3 shard maxBytes transactions journal) :
    Sound blake3 shard maxBytes transactions journal := by
  induction h with
  | @created journal recovered disk hopened =>
    have hmax : 8 ≤ maxBytes := by
      unfold openJournal at hopened
      simp only [succeeds_bind_iff, succeeds_liftResult_iff] at hopened
      obtain ⟨_, _, ⟨hmax, _⟩, _⟩ := hopened
      exact ensure_eq_ok_iff.mp hmax
    rw [openJournal_nil hmax hblake3] at hopened
    cases hopened
    exact ⟨.nil, hmax, rfl⟩
  | appended _ hshard hfollows happended ih => exact ih.append hblake3 hshard hfollows happended
  | @reopened transactions journal later cut io recovered disk _ hcut hopened ih =>
    obtain ⟨count, other, hcount, _, hrun, hsound⟩ := ih.reopen hblake3 hcut io
    rw [hrun] at hopened
    cases hopened
    have hlength : ((transactions.take count).map recovered).length = count := by
      rw [length_map, length_take]
      omega
    rw [hlength]
    exact hsound

/-- Crash recovery at every byte: a journal cut after its header is opened with the transactions
whose frames are complete, the file ends with the last of them, and later appends are recovered in
turn. -/
theorem openJournal_truncated (hblake3 : ∀ payload, (blake3 payload).length = checksumBytes)
    {transactions : List SinkTransaction} {journal : SinkJournal}
    (h : Journaled blake3 shard maxBytes transactions journal) {cut : Nat} (hcut : 8 ≤ cut)
    (io : OpenIo) :
    journal.file.bytes = journalBytes blake3 transactions ∧
      ∃ count later, count ≤ transactions.length ∧ (∀ ended ≤ transactions.length,
          (journalBytes blake3 (transactions.take ended)).length ≤ cut ↔ ended ≤ count) ∧
        (openJournal blake3 shard maxBytes io).run (journal.file.bytes.take cut) =
          .ok (later, (transactions.take count).map recovered)
            (journalBytes blake3 (transactions.take count)) ∧
        Journaled blake3 shard maxBytes (transactions.take count) later := by
  have hsound := h.sound hblake3
  obtain ⟨count, later, hcount, hended, hrun, _⟩ := hsound.reopen hblake3 hcut io
  refine ⟨by rw [hsound.journal]; rfl, count, later, hcount, hended, hrun, ?_⟩
  have hreopened := h.reopened hcut hrun
  have hlength : ((transactions.take count).map recovered).length = count := by
    rw [List.length_map, List.length_take]
    omega
  rw [hlength] at hreopened
  exact hreopened

end Recovery

theorem exists_journaled_sampleTransaction :
    ∃ journal, Journaled constantHash 0 1024 [sampleTransaction] journal := by
  have hcreated : Journaled constantHash 0 1024 [] ⟨1024, atEnd journalMagic, 8⟩ :=
    .created (openJournal_nil (by decide) fun _ => rfl)
  have hfollows : Follows [] sampleTransaction := fun _ hactual => by cases hactual
  have happended : (append constantHash {} sampleTransaction).run
      ⟨1024, atEnd journalMagic, 8⟩ = .ok () _ := rfl
  exact ⟨_, hcreated.appended sampleTransaction_ofShard hfollows happended⟩

/-- A journal of one transaction that is cut inside its frame opens empty. -/
theorem openJournal_sampleTransaction_cut :
    ∃ journal later, Journaled constantHash 0 1024 [sampleTransaction] journal ∧
      (openJournal constantHash 0 1024 {}).run (journal.file.bytes.take 20) =
        .ok (later, []) journalMagic := by
  obtain ⟨journal, hjournal⟩ := exists_journaled_sampleTransaction
  obtain ⟨_, count, later, _, hended, hrun, _⟩ :=
    openJournal_truncated (fun _ => rfl) hjournal (by decide : 8 ≤ 20) {}
  have hcount : ¬1 ≤ count := by
    rw [← hended 1 (by decide)]
    decide +kernel
  have hzero : count = 0 := by omega
  subst hzero
  exact ⟨journal, later, hjournal, hrun⟩

end ShardLog.Sink
