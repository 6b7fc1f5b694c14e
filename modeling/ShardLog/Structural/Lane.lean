import ShardLog.Foundation.Runs
import ShardLog.Structural.Wire

/-!
# Structural blocks - seekable record lanes

Bodies and fields are stored as lanes: a payload of concatenated records, a
directory with the byte position of every 256th record, and a footer that
points at the directory.  The sequential reader checks every checkpoint it
passes.
-/

namespace ShardLog.Structural

open ByteReader Runs Integers List

/-- Number of records between two checkpoints written by the encoder. -/
def seekCheckpointInterval : Nat := 256

/-- `usize::div_ceil`. -/
def divCeil (value divisor : Nat) : Nat := (value + divisor - 1) / divisor

/-- A decoded lane. -/
structure SeekableRecordLane where
  interval : Nat
  checkpoints : List Nat
  payload : Bytes
deriving DecidableEq, Repr

/-- The payload from one checkpoint to the next. -/
def SeekableRecordLane.checkpointPayload (lane : SeekableRecordLane) (checkpoint : Nat) :
    LogDbResult Bytes :=
  match lane.checkpoints[checkpoint]? with
  | none => .error (invalid "record lane checkpoint is missing")
  | some start =>
    let stop := lane.checkpoints[checkpoint + 1]?.getD lane.payload.length
    if start ≤ stop ∧ stop ≤ lane.payload.length then .ok (slice lane.payload ⟨start, stop⟩)
    else .error (invalid "record lane checkpoint is invalid")

/-! ## Encoding -/

/-- A checkpoint must start at zero and then increase. -/
def checkpointDisordered (index previous checkpoint : Nat) : Bool :=
  (index == 0 && checkpoint != 0) || (decide (0 < index) && decide (checkpoint ≤ previous))

/-- Delta-encode the checkpoints that follow `previous`. -/
def encodeCheckpoints : Nat → Nat → List Nat → LogDbResult Bytes
  | _, _, [] => .ok []
  | index, previous, checkpoint :: rest =>
    if checkpointDisordered index previous checkpoint then
      .error (invalid "record lane checkpoints are not ordered")
    else do
      let delta ← writeCount (checkpoint - previous)
      let encoded ← encodeCheckpoints (index + 1) checkpoint rest
      .ok (delta ++ encoded)

/-- Payload, directory and footer of a lane. -/
def encodeSeekableRecordLane (payload : Bytes) (checkpoints : List Nat) : LogDbResult Bytes := do
  let directoryStart ← tryU32 payload.length
  let interval ← writeCount seekCheckpointInterval
  let count ← writeCount checkpoints.length
  let deltas ← encodeCheckpoints 0 0 checkpoints
  .ok (payload ++ interval ++ count ++ deltas ++ leBytes 4 directoryStart)

/-- Note a checkpoint before every 256th record. -/
def noteCheckpoint (ordinal position : Nat) (checkpoints : List Nat) : List Nat :=
  if ordinal % seekCheckpointInterval = 0 then checkpoints ++ [position] else checkpoints

/-- The loop of a lane encoder: note a checkpoint, encode the record, append it. -/
def encodeLaneFrom {α σ : Type} (record : α → σ → LogDbResult (Bytes × σ)) :
    List α → Nat → σ → Bytes → List Nat → LogDbResult (Bytes × List Nat × σ)
  | [], _, state, payload, checkpoints => .ok (payload, checkpoints, state)
  | item :: items, ordinal, state, payload, checkpoints => do
      let encoded ← record item state
      encodeLaneFrom record items (ordinal + 1) encoded.2 (payload ++ encoded.1)
        (noteCheckpoint ordinal payload.length checkpoints)

/-! ## Decoding -/

/-- The checkpoints of a directory. -/
def readCheckpoints : Nat → Nat → Nat → BlockReader (List Nat)
  | 0, _, _ => pure []
  | count + 1, index, previous => do
      let delta ← readUsize
      let checkpoint := previous + delta
      require (decide (checkpoint < 2 ^ 64)) (invalid "record lane checkpoint overflow")
      require (!checkpointDisordered index previous checkpoint)
        (invalid "record lane checkpoints are not ordered")
      let rest ← readCheckpoints count (index + 1) checkpoint
      pure (checkpoint :: rest)

/-- Interval and checkpoints of a lane of `recordCount` records. -/
def readDirectory (recordCount : Nat) : BlockReader (Nat × List Nat) := do
  let interval ← readUsize
  require (interval != 0) (invalid "record lane checkpoint interval is zero")
  let checkpointCount ← readUsize
  require (checkpointCount == divCeil recordCount interval)
    (invalid "record lane checkpoint count mismatch")
  let checkpoints ← readCheckpoints checkpointCount 0 0
  pure (interval, checkpoints)

/-- Open a lane. -/
def decodeSeekableRecordLane (encoded : Bytes) (recordCount : Nat) :
    LogDbResult SeekableRecordLane := do
  ensure (4 ≤ encoded.length) (invalid "record lane footer is truncated")
  let footerStart := encoded.length - 4
  let directoryStart := fromLeBytes (encoded.drop footerStart)
  ensure (directoryStart ≤ footerStart) (invalid "record lane directory is invalid")
  let payload := encoded.take directoryStart
  let directory ←
    readComponent (readDirectory recordCount) (slice encoded ⟨directoryStart, footerStart⟩)
  ensure ((∀ checkpoint ∈ directory.2.getLast?, checkpoint < payload.length) ∧
      (recordCount = 0 → payload = [])) (invalid "record lane checkpoint exceeds payload")
  .ok ⟨directory.1, directory.2, payload⟩

/-- At a multiple of the interval the cursor must stand on the checkpoint. -/
def validateCheckpointCursor (lane : SeekableRecordLane) (recordOrdinal : Nat) :
    BlockReader Unit := do
  let state ← input
  require (!(recordOrdinal % lane.interval == 0 &&
      lane.checkpoints[recordOrdinal / lane.interval]? != some state.cursor))
    (invalid "record lane checkpoint does not point to a record")

/-! ## The sequential reader of a lane -/

section Sequential

variable {α : Type} {lane : SeekableRecordLane} {ordinal : Nat} {s t : Input}
  {record : BlockReader α} {values : List α}

/-- Read `count` records from `ordinal` on, checking every checkpoint passed. -/
def readLaneFrom (lane : SeekableRecordLane) (record : BlockReader α) :
    Nat → Nat → BlockReader (List α)
  | 0, _ => pure []
  | count + 1, ordinal => do
      validateCheckpointCursor lane ordinal
      let value ← record
      let values ← readLaneFrom lane record count (ordinal + 1)
      pure (value :: values)

/-- Read all records of a lane. -/
def readLane (lane : SeekableRecordLane) (record : BlockReader α) (recordCount : Nat) :
    LogDbResult (List α) :=
  readComponent (readLaneFrom lane record recordCount 0) lane.payload

/-- The payload is the concatenation of `blobs`, each read as its value, and each checkpoint is the
position of its record. -/
structure LaneRecords (lane : SeekableRecordLane) (record : BlockReader α)
    (blobs : List Bytes) (values : List α) : Prop where
  reads : List.Forall₂ (Reads record) blobs values
  payload : lane.payload = blobs.flatten
  checkpoints : ∀ k, k * lane.interval < blobs.length →
    lane.checkpoints[k]? = some (blobs.take (k * lane.interval)).flatten.length

/-- A checkpoint has to be where the reader is. -/
theorem run_validateCheckpointCursor_eq_ok_iff {u : Unit} :
    (validateCheckpointCursor lane ordinal).run s = .ok (u, t) ↔ (ordinal % lane.interval = 0 →
        lane.checkpoints[ordinal / lane.interval]? = some s.cursor) ∧ t = s := by
  unfold validateCheckpointCursor
  rw [run_bind_ok (run_input s), run_require_eq_ok_iff]
  simp [Decidable.imp_iff_not_or]

/-- What a successful run of the sequential reader says about its input. -/
theorem readLaneFrom_eq_ok (hlocal : Local record) {count : Nat}
    (h : (readLaneFrom lane record count ordinal).run s = .ok (values, t)) :
    ∃ blobs, blobs.length = count ∧ Forall₂ (Reads record) blobs values ∧
      s.rest = blobs.flatten ++ t.rest ∧
      ∀ j < count, (ordinal + j) % lane.interval = 0 →
        lane.checkpoints[(ordinal + j) / lane.interval]? =
          some (s.cursor + (blobs.take j).flatten.length) := by
  induction count generalizing ordinal s t values with
  | zero =>
    rcases run_pure_eq_ok_iff.mp h with ⟨rfl, rfl⟩
    exact ⟨[], rfl, .nil, rfl, by simp⟩
  | succ count ih =>
    rw [readLaneFrom, run_bind_eq_ok_iff] at h
    rcases h with ⟨_, _, hcheck, h⟩
    rcases run_validateCheckpointCursor_eq_ok_iff.mp hcheck with ⟨hhere, rfl⟩
    rcases run_bind_eq_ok_iff.mp h with ⟨value, u, hrecord, h⟩
    rcases run_bind_eq_ok_iff.mp h with ⟨rest, v, hrest, h⟩
    rcases run_pure_eq_ok_iff.mp h with ⟨rfl, rfl⟩
    rcases hlocal _ _ _ hrecord with ⟨blob, hblob, hcursor, hreads⟩
    rcases ih hrest with ⟨blobs, hlength, hforall, hrests, hchecks⟩
    refine ⟨blob :: blobs, by simp [hlength], .cons hreads hforall, ?_, ?_⟩
    · rw [hblob, hrests, flatten_cons, append_assoc]
    · intro j hj hmod
      cases j with
      | zero => simpa using hhere (by simpa using hmod)
      | succ j => grind

/-- The sequential reader succeeds on readable records at their checkpoints. -/
theorem run_readLaneFrom {blobs : List Bytes} {values : List α}
    (hreads : Forall₂ (Reads record) blobs values) {ordinal cursor : Nat} {tail : Bytes}
    (hchecks : ∀ j < blobs.length, (ordinal + j) % lane.interval = 0 →
      lane.checkpoints[(ordinal + j) / lane.interval]? =
      some (cursor + (blobs.take j).flatten.length)) :
    (readLaneFrom lane record blobs.length ordinal).run ⟨cursor, blobs.flatten ++ tail⟩ =
      .ok (values, ⟨cursor + blobs.flatten.length, tail⟩) := by
  induction hreads generalizing ordinal cursor tail with
  | nil => rfl
  | @cons blob value blobs values hhead htail ih =>
    have hcheck : (validateCheckpointCursor lane ordinal).run
        ⟨cursor, blob ++ (blobs.flatten ++ tail)⟩ =
          .ok ((), ⟨cursor, blob ++ (blobs.flatten ++ tail)⟩) := by
      rw [run_validateCheckpointCursor_eq_ok_iff]
      refine ⟨fun hmod => ?_, rfl⟩
      simpa using hchecks 0 (by simp) (by simpa using hmod)
    have hrest := @ih (ordinal + 1) (cursor + blob.length) tail (by
        intro j hj hmod
        have hindex : ordinal + (j + 1) = ordinal + 1 + j := by omega
        have h := hchecks (j + 1) (by simpa using hj) (by rwa [hindex])
        rw [hindex, take_succ_cons, flatten_cons, length_append, ← Nat.add_assoc] at h
        exact h)
    rw [flatten_cons, append_assoc, length_cons, readLaneFrom,
      run_bind_ok hcheck, run_bind_ok (hhead cursor _), run_bind_ok hrest]
    simp [Nat.add_assoc]

/-- The sequential reader accepts a lane exactly when it holds readable records
at their checkpoints. -/
theorem readLane_eq_ok_iff (hlocal : Local record) (hinterval : 0 < lane.interval)
    {recordCount : Nat} :
    readLane lane record recordCount = .ok values ↔
      ∃ blobs, blobs.length = recordCount ∧ LaneRecords lane record blobs values := by
  constructor
  · intro h
    rcases readComponent_eq_ok_iff.mp h with ⟨t, hread, hempty⟩
    rcases readLaneFrom_eq_ok hlocal hread with ⟨blobs, hlength, hreads, hrest, hchecks⟩
    refine ⟨blobs, hlength, hreads, ?_, ?_⟩
    · simpa [Input.start, hempty] using hrest
    · intro k hk
      have h := hchecks (k * lane.interval) (by omega) (by simp)
      simpa [Input.start, Nat.mul_div_cancel k hinterval] using h
  · rintro ⟨blobs, rfl, hreads, hpayload, hchecks⟩
    have hrun := @run_readLaneFrom α lane record blobs values hreads 0 0 [] (by
        intro j hj hmod
        have hdiv : j / lane.interval * lane.interval = j := by
          rw [Nat.zero_add] at hmod
          exact Nat.div_mul_cancel (Nat.dvd_of_mod_eq_zero hmod)
        have h := hchecks (j / lane.interval) (by omega)
        rw [hdiv] at h
        simpa using h)
    rw [append_nil, ← hpayload] at hrun
    exact readComponent_eq_ok_iff.mpr ⟨_, hrun, rfl⟩

end Sequential

/-! ## Lanes written by the encoder -/

section Encoded

/-- Positions of every 256th record of a payload. -/
def checkpointsOf (blobs : List Bytes) : List Nat :=
  (List.range (divCeil blobs.length seekCheckpointInterval)).map fun k =>
    (blobs.take (k * seekCheckpointInterval)).flatten.length

/-- Noting a checkpoint before a record keeps the list of checkpoints complete. -/
theorem noteCheckpoint_checkpointsOf (blobs : List Bytes) (blob : Bytes) :
    noteCheckpoint blobs.length blobs.flatten.length (checkpointsOf blobs) =
      checkpointsOf (blobs ++ [blob]) := by
  have hold : ∀ count, (∀ k < count, k * seekCheckpointInterval ≤ blobs.length) →
      (range count).map (fun k =>
          ((blobs ++ [blob]).take (k * seekCheckpointInterval)).flatten.length) =
        (range count).map fun k => (blobs.take (k * seekCheckpointInterval)).flatten.length := by
    intro count hcount
    apply map_congr_left
    intro k hk
    rw [take_append_of_le_length (hcount k (mem_range.mp hk))]
  have hbound : ∀ k < divCeil blobs.length seekCheckpointInterval,
      k * seekCheckpointInterval ≤ blobs.length := by
    intro k hk
    simp only [divCeil, seekCheckpointInterval] at hk ⊢
    omega
  unfold noteCheckpoint checkpointsOf
  split
  · rename_i hmod
    have hcount : divCeil (blobs ++ [blob]).length seekCheckpointInterval =
        divCeil blobs.length seekCheckpointInterval + 1 := by
      simp only [divCeil, seekCheckpointInterval, length_append, length_singleton] at *
      omega
    have hlast : divCeil blobs.length seekCheckpointInterval * seekCheckpointInterval =
        blobs.length := by
      simp only [divCeil, seekCheckpointInterval] at *
      omega
    rw [hcount, range_succ, map_append, hold _ hbound, map_singleton, hlast]
    simp
  · rename_i hmod
    have hcount : divCeil (blobs ++ [blob]).length seekCheckpointInterval =
        divCeil blobs.length seekCheckpointInterval := by
      simp only [divCeil, seekCheckpointInterval, length_append, length_singleton] at *
      omega
    rw [hcount, hold _ hbound]

/-- The encodings of a list of records, threading the state of the encoder. -/
def encodeRecords {α σ : Type} (record : α → σ → LogDbResult (Bytes × σ)) :
    List α → σ → LogDbResult (List Bytes × σ)
  | [], state => .ok ([], state)
  | item :: items, state => do
      let encoded ← record item state
      let rest ← encodeRecords record items encoded.2
      .ok (encoded.1 :: rest.1, rest.2)

/-- The record loop concatenates the encoded records and notes their checkpoints. -/
theorem encodeLaneFrom_eq_ok {α σ : Type} {record : α → σ → LogDbResult (Bytes × σ)}
    {items : List α} {blobs : List Bytes} {state final : σ} {payload : Bytes}
    {checkpoints : List Nat}
    (h : encodeLaneFrom record items blobs.length state blobs.flatten (checkpointsOf blobs) =
      .ok (payload, checkpoints, final)) :
    ∃ more, encodeRecords record items state = .ok (more, final) ∧
      payload = (blobs ++ more).flatten ∧ checkpoints = checkpointsOf (blobs ++ more) := by
  induction items generalizing blobs state final payload checkpoints with
  | nil =>
    cases h
    exact ⟨[], rfl, by simp, by simp⟩
  | cons item items ih =>
    rcases bind_eq_ok_iff.mp h with ⟨⟨blob, next⟩, hrecord, h⟩
    have hflatten : blobs.flatten ++ blob = (blobs ++ [blob]).flatten := by simp
    have hlength : blobs.length + 1 = (blobs ++ [blob]).length := by simp
    rw [noteCheckpoint_checkpointsOf blobs blob, hflatten, hlength] at h
    rcases ih h with ⟨more, hmore, rfl, rfl⟩
    refine ⟨blob :: more, ?_, by simp, by simp⟩
    rw [encodeRecords, hrecord, ok_bind, hmore]
    rfl

variable {checkpoints : List Nat} {encoded : Bytes} {blobs : List Bytes}

/-- Checkpoints that pass the encoder's order check read back from their deltas. -/
theorem reads_readCheckpoints {index previous : Nat} {bytes : Bytes}
    (hbound : ∀ c ∈ checkpoints, c < 2 ^ 64) (hstart : index = 0 → previous = 0)
    (h : encodeCheckpoints index previous checkpoints = .ok bytes) :
    Reads (readCheckpoints checkpoints.length index previous) bytes checkpoints := by
  induction checkpoints generalizing index previous bytes with
  | nil =>
    cases h
    exact reads_pure []
  | cons checkpoint rest ih =>
    rw [encodeCheckpoints] at h
    split at h
    · contradiction
    · rename_i hordered
      rcases bind_eq_ok_iff.mp h with ⟨delta, hdelta, h⟩
      rcases bind_eq_ok_iff.mp h with ⟨encoded, hencoded, h⟩
      cases h
      have hle : previous ≤ checkpoint := by
        simp only [checkpointDisordered, Bool.or_eq_true, Bool.and_eq_true, beq_iff_eq,
          bne_iff_ne, decide_eq_true_eq, not_or, not_and, not_not, not_le] at hordered
        rcases Nat.eq_zero_or_pos index with hzero | hpos
        · rw [hstart hzero]
          exact Nat.zero_le _
        · exact (hordered.2 hpos).le
      have hsum : previous + (checkpoint - previous) = checkpoint := by omega
      have hrest := ih (fun c hc => hbound c (mem_cons_of_mem _ hc))
        (fun hzero => absurd hzero (Nat.succ_ne_zero index)) hencoded
      refine (reads_readUsize_of_writeCount hdelta).bind ?_
      rw [hsum]
      refine Reads.require_bind (decide_eq_true (hbound _ mem_cons_self)) ?_
      refine Reads.require_bind (by simpa using hordered) ?_
      exact hrest.bind_pure rfl

/-- A lane decodes to the payload and the checkpoints it was encoded from. -/
theorem decodeSeekableRecordLane_encode {payload : Bytes} {recordCount : Nat}
    (h : encodeSeekableRecordLane payload checkpoints = .ok encoded)
    (hcount : checkpoints.length = divCeil recordCount seekCheckpointInterval)
    (hinside : ∀ c ∈ checkpoints, c < payload.length) (hempty : recordCount = 0 → payload = []) :
    decodeSeekableRecordLane encoded recordCount =
      .ok ⟨seekCheckpointInterval, checkpoints, payload⟩ := by
  unfold encodeSeekableRecordLane at h
  simp only [bind_eq_ok_iff] at h
  obtain ⟨start, hstart, interval, hinterval, count, hlength, deltas, hdeltas, h⟩ := h
  rcases tryU32_eq_ok_iff.mp hstart with ⟨rfl, hfits⟩
  cases h
  have hcounts : Reads (readDirectory recordCount) (interval ++ (count ++ deltas))
      (seekCheckpointInterval, checkpoints) := by
    refine (reads_readUsize_of_writeCount hinterval).bind ?_
    refine Reads.require_bind (by decide) ?_
    refine (reads_readUsize_of_writeCount hlength).bind ?_
    refine Reads.require_bind (by simp [hcount]) ?_
    refine (reads_readCheckpoints ?_ (fun _ => rfl) hdeltas).bind_pure rfl
    intro c hc
    have := hinside c hc
    omega
  have hbounds : (∀ c ∈ checkpoints.getLast?, c < payload.length) ∧
      (recordCount = 0 → payload = []) :=
    ⟨fun c hc => hinside c (mem_of_getLast? hc), hempty⟩
  have hassoc : payload ++ interval ++ count ++ deltas ++ leBytes 4 payload.length =
      payload ++ (interval ++ (count ++ deltas)) ++ leBytes 4 payload.length := by
    simp only [append_assoc]
  rw [hassoc]
  generalize interval ++ (count ++ deltas) = directory at hcounts
  -- the footer is the last four bytes and holds the length of the payload
  have hfooter : (payload ++ directory ++ leBytes 4 payload.length).length - 4 =
      (payload ++ directory).length := by
    rw [length_append, length_leBytes, Nat.add_sub_cancel]
  have hstart : fromLeBytes (leBytes 4 payload.length) = payload.length :=
    fromLeBytes_leBytes (by simpa using hfits)
  have hdirectory : slice (payload ++ directory ++ leBytes 4 payload.length)
      ⟨payload.length, (payload ++ directory).length⟩ = directory := by simp [slice]
  have htake : (payload ++ directory ++ leBytes 4 payload.length).take payload.length =
      payload := by simp
  have hlong : 4 ≤ (payload ++ directory ++ leBytes 4 payload.length).length := by
    rw [length_append, length_leBytes]
    exact Nat.le_add_left _ _
  have hinner : payload.length ≤ (payload ++ directory).length := by simp
  unfold decodeSeekableRecordLane
  dsimp only
  rw [hfooter, drop_left, hstart, hdirectory, readComponent_of_reads hcounts, htake]
  simp only [ok_bind, ensure_of_true hlong, ensure_of_true hinner, ensure_of_true hbounds]

theorem length_flatten_take_lt (hne : ∀ blob ∈ blobs, blob ≠ []) {count : Nat}
    (hcount : count < blobs.length) :
    (blobs.take count).flatten.length < blobs.flatten.length := by
  have hsplit : blobs.flatten = (blobs.take count).flatten ++ (blobs.drop count).flatten := by
    rw [← flatten_append, take_append_drop]
  rcases exists_cons_of_length_pos (l := blobs.drop count) (by simp; omega) with
    ⟨blob, rest, hdrop⟩
  have hmem : blob ∈ blobs := mem_of_mem_drop (i := count) (by simp [hdrop])
  have hpos := length_pos_iff.mpr (hne blob hmem)
  rw [hsplit, hdrop, flatten_cons, length_append, length_append]
  omega

/-- Checkpoints are positions of records. -/
theorem mem_checkpointsOf {c : Nat} (h : c ∈ checkpointsOf blobs) :
    ∃ k, k * seekCheckpointInterval < blobs.length ∧
      c = (blobs.take (k * seekCheckpointInterval)).flatten.length := by
  rcases mem_map.mp h with ⟨k, hk, rfl⟩
  refine ⟨k, ?_, rfl⟩
  simp only [mem_range, divCeil, seekCheckpointInterval] at hk ⊢
  omega

/-- A lane written for records that are not empty opens, and holds those records at
its checkpoints. -/
theorem exists_lane_of_blobs {α : Type} {record : BlockReader α} {values : List α}
    (hreads : Forall₂ (Reads record) blobs values)
    (hend : (record.run (.start [])).isOk = false)
    (h : encodeSeekableRecordLane blobs.flatten (checkpointsOf blobs) = .ok encoded) :
    ∃ lane blobs, decodeSeekableRecordLane encoded values.length = .ok lane ∧
      0 < lane.interval ∧ blobs.length = values.length ∧
      LaneRecords lane record blobs values := by
  have hne : ∀ blob ∈ blobs, blob ≠ [] := by
    intro blob hblob
    rcases forall₂_mem hreads hblob with ⟨value, _, hread⟩
    exact hread.ne_nil hend
  refine ⟨⟨seekCheckpointInterval, checkpointsOf blobs, blobs.flatten⟩, blobs, ?_,
    Nat.succ_pos 255, hreads.length_eq, ?_⟩
  · rw [← hreads.length_eq]
    apply decodeSeekableRecordLane_encode h
    · simp [checkpointsOf]
    · intro c hc
      rcases mem_checkpointsOf hc with ⟨k, hk, rfl⟩
      exact length_flatten_take_lt hne hk
    · intro hzero
      rw [length_eq_zero_iff.mp hzero]
      rfl
  · refine ⟨hreads, rfl, fun k hk => ?_⟩
    have hindex : k < divCeil blobs.length seekCheckpointInterval := by
      simp only [divCeil, seekCheckpointInterval] at hk ⊢
      omega
    simp [checkpointsOf, hindex]

end Encoded

end ShardLog.Structural
