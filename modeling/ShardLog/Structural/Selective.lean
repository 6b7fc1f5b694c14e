import Mathlib.Data.List.TakeWhile
import ShardLog.Structural.Block

/-!
# Structural blocks - selective decoding

Selected records are read from the checkpoint before them: the records between
are skipped, the selected ones are decoded.  Neighbouring ordinals behind the
same checkpoint share one scan.

Main results:

- Theorem `decodeStructuralRecords_eq_ok`: selective decoding projects the full
  decoding of the same bytes.
-/

namespace ShardLog.Structural

open ByteReader Utf8 Runs Shadows List

/-! ## Seeking in a lane -/

section Lane

variable {α β : Type}

/-- Scan `count` records from `ordinal` on and keep the selected ones.  The scan
ends with the last selected ordinal of its group. -/
def scanSelected (retain : BlockReader α) (skip : BlockReader β) :
    Nat → Nat → List Nat → BlockReader (List α)
  | 0, _, _ => pure []
  | count + 1, ordinal, pending =>
    if pending.head? = some ordinal then do
      let value ← retain
      let values ← scanSelected retain skip count (ordinal + 1) pending.tail
      pure (value :: values)
    else do
      let _ ← skip
      scanSelected retain skip count (ordinal + 1) pending

/-- The record after the last one of a checkpoint. -/
def checkpointEnd (lane : SeekableRecordLane) (recordCount checkpoint : Nat) : Nat :=
  min (min ((checkpoint + 1) * lane.interval) (2 ^ 64 - 1)) recordCount

/-- Read one group of ordinals behind a checkpoint. -/
def readGroup (lane : SeekableRecordLane) (recordCount : Nat) (retain : BlockReader α)
    (skip : BlockReader β) (checkpoint finalOrdinal : Nat) (group : List Nat) :
    BlockReader (List α) := do
  let start := checkpoint * lane.interval
  let values ← scanSelected retain skip (finalOrdinal + 1 - start) start group
  if finalOrdinal + 1 = checkpointEnd lane recordCount checkpoint then do
    requireConsumed
    pure values
  else pure values

/-- The loop over the groups; each group takes at least one ordinal. -/
def decodeSelectedFrom (lane : SeekableRecordLane) (recordCount : Nat) (retain : BlockReader α)
    (skip : BlockReader β) : Nat → List Nat → LogDbResult (List α)
  | fuel + 1, first :: rest => do
      let checkpoint := first / lane.interval
      let more := rest.takeWhile fun ordinal =>
        decide (ordinal < checkpointEnd lane recordCount checkpoint)
      let finalOrdinal := (first :: more).getLast (List.cons_ne_nil _ _)
      let payload ← lane.checkpointPayload checkpoint
      let values ← readAll
        (readGroup lane recordCount retain skip checkpoint finalOrdinal (first :: more)) payload
      let others ← decodeSelectedFrom lane recordCount retain skip fuel (rest.drop more.length)
      .ok (values ++ others)
  | _, _ => .ok []

def decodeSelectedLane (encoded : Bytes) (recordCount : Nat) (retain : BlockReader α)
    (skip : BlockReader β) (selected : List Nat) : LogDbResult (List α) := do
  let lane ← decodeSeekableRecordLane encoded recordCount
  decodeSelectedFrom lane recordCount retain skip selected.length selected

end Lane

/-! ## Skipping bodies and fields -/

def skipTemplateBody (templates : List TemplateEntry) : BlockReader Unit := do
  let templateId ← readUsize
  let literals ← ofResult (templateLiterals templates templateId)
  let _ ← ofResult (firstLiteral literals)
  skipValues literals.tail

/-- Move past one body without reconstructing it. -/
def skipBody (templates : List TemplateEntry) : BlockReader Unit := do
  let bodyKind ← readByte
  if bodyKind = rawBody then do
    let _ ← readBytes
    pure ()
  else if bodyKind = templateBody then skipTemplateBody templates
  else fail (invalid "invalid body kind")

def decodeSelectedBodies (selected : List Nat) (encoded : Bytes) (templates : List TemplateEntry)
    (recordCount : Nat) : LogDbResult (List Str) :=
  decodeSelectedLane encoded recordCount (readBody templates) (skipBody templates) selected

def skipFieldValue (tables : DecodedAttributeTables) (keyId : Nat) : BlockReader Unit := do
  let kind ← readByte
  if kind = directAttributeValue then do
    let _ ← readBytes
    pure ()
  else if kind = dictionaryAttributeValue then do
    let valueId ← readUsize
    let _ ← ofResult (attributeValue tables keyId valueId)
    pure ()
  else fail (invalid "invalid attribute value kind")

def skipField (tables : DecodedAttributeTables) : BlockReader Unit := do
  let keyId ← readUsize
  let _ ← ofResult (attributeKey tables keyId)
  skipFieldValue tables keyId

/-- Move past the fields of one record. -/
def skipFields (tables : DecodedAttributeTables) : BlockReader (List Unit) := do
  let fieldCount ← readUsize
  ensureCountWithin fieldCount "field count"
  readMany (skipField tables) fieldCount

def decodeSelectedFields (selected : List Nat) (encoded : Bytes)
    (tables : DecodedAttributeTables) (recordCount : Nat) :
    LogDbResult (List (List MetadataField)) :=
  decodeSelectedLane encoded recordCount (readFields tables) (skipFields tables) selected

/-! ## Selected records of a block -/

/-- Selected ordinals strictly increase below the record count. -/
def validateSelectedOrdinals (selected : List Nat) (recordCount : Nat) : LogDbResult Unit :=
  ensure (selected.IsChain (· < ·) ∧ ∀ ordinal ∈ selected, ordinal < recordCount)
    (invalid "selected record ordinals are not strictly increasing")

/-- The selected messages and fields with their offsets and timestamps. -/
def BlockParts.selectedRecords (parts : BlockParts) (selected : List Nat) :
    List DecodedStructuralRecord :=
  ((selected.zip parts.messages).zip parts.fields).map fun entry =>
    ⟨parts.offsets.getD entry.1.1 0, parts.timestamps.getD entry.1.1 0, entry.1.2, entry.2⟩

def decodeStructuralRecords (pco : Pco) (encoded : Bytes) (recordOrdinals : List Nat) :
    LogDbResult (List DecodedStructuralRecord) := do
  let parts ← readAll (readBlockParts pco (validateSelectedOrdinals recordOrdinals)
    (decodeSelectedBodies recordOrdinals) (decodeSelectedFields recordOrdinals)) encoded
  .ok (parts.selectedRecords recordOrdinals)

/-! ## Skipping moves past what reading reads -/

theorem shadows_skipValues (literals : List Bytes) (message : Bytes) :
    Shadows (skipValues literals) (appendValues literals message) := by
  intro s a t h
  rw [run_skipValues literals message s, h]
  exact ⟨(), rfl⟩

/-- Skipping a body is like reading it. -/
theorem shadows_skipBody (templates : List TemplateEntry) :
    Shadows (skipBody templates) (readBody templates) := by
  apply bind_same
  intro bodyKind
  by_cases hraw : bodyKind = rawBody
  · rw [if_pos hraw, if_pos hraw]
    intro s a t h
    rcases run_bind_eq_ok_iff.mp h with ⟨bytes, u, hbytes, h⟩
    rcases run_ofResult_eq_ok_iff.mp h with ⟨_, rfl⟩
    exact ⟨(), by rw [run_bind_ok hbytes]; rfl⟩
  · rw [if_neg hraw, if_neg hraw]
    by_cases htemplate : bodyKind = templateBody
    · rw [if_pos htemplate, if_pos htemplate]
      apply bind_same
      intro templateId
      apply bind_same
      intro literals
      apply bind_same
      intro first
      exact (shadows_skipValues literals.tail first).bind_ofResult
    · rw [if_neg htemplate, if_neg htemplate]
      exact fun s a t h => nomatch h

theorem shadows_skipFieldValue (tables : DecodedAttributeTables) (keyId : Nat) :
    Shadows (skipFieldValue tables keyId) (readFieldValue tables keyId) := by
  apply bind_same
  intro kind
  by_cases hdirect : kind = directAttributeValue
  · rw [if_pos hdirect, if_pos hdirect]
    intro s a t h
    rcases run_bind_eq_ok_iff.mp h with ⟨bytes, u, hbytes, h⟩
    rcases run_ofResult_eq_ok_iff.mp h with ⟨_, rfl⟩
    exact ⟨(), by rw [run_bind_ok hbytes]; rfl⟩
  · rw [if_neg hdirect, if_neg hdirect]
    by_cases hdictionary : kind = dictionaryAttributeValue
    · rw [if_pos hdictionary, if_pos hdictionary]
      apply bind_same
      intro valueId s a t h
      rcases run_ofResult_eq_ok_iff.mp h with ⟨hvalue, rfl⟩
      exact ⟨(), by rw [hvalue]; rfl⟩
    · rw [if_neg hdictionary, if_neg hdictionary]
      exact fun s a t h => nomatch h

/-- Skipping fields is like reading them. -/
theorem shadows_skipFields (tables : DecodedAttributeTables) :
    Shadows (skipFields tables) (readFields tables) := by
  have hfield : Shadows (skipField tables) (readField tables) := by
    apply bind_same
    intro keyId
    apply bind_same
    intro key
    exact (shadows_skipFieldValue tables keyId).bind_pure
  apply bind_same
  intro fieldCount
  apply bind_same
  intro _
  exact hfield.readMany fieldCount

/-! ## Seeking delivers the selected records -/

section Seeking

variable {α β : Type} {retain : BlockReader α} {skip : BlockReader β} {pending : List Nat}
  {ordinal : Nat} {blobs : List Bytes} {values : List α} {lane : SeekableRecordLane}
  {checkpoint : Nat} {encoded : Bytes} {recordCount : Nat}

/-- Ordinals past the first record count from the second one on. -/
theorem filterMap_shift (value : α) (values : List α) (h : ∀ o ∈ pending, ordinal < o) :
    pending.filterMap (fun o => (value :: values)[o - ordinal]?) =
      pending.filterMap (fun o => values[o - (ordinal + 1)]?) := by
  apply filterMap_congr
  intro o ho
  have hlt := h o ho
  rw [show o - ordinal = o - (ordinal + 1) + 1 by omega, getElem?_cons_succ]

/-- A scan over whole records delivers the pending ones. -/
theorem reads_scanSelected (hskip : Shadows skip retain)
    (h : Forall₂ (Reads retain) blobs values) (hsorted : pending.Pairwise (· < ·))
    (hle : ∀ o ∈ pending, ordinal ≤ o) :
    Reads (scanSelected retain skip blobs.length ordinal pending) blobs.flatten
      (pending.filterMap fun o => values[o - ordinal]?) := by
  induction h generalizing ordinal pending with
  | nil =>
    have hnone : (pending.filterMap fun o => ([] : List α)[o - ordinal]?) = [] := by simp
    rw [hnone]
    exact reads_pure []
  | @cons blob value blobs values hread _ ih =>
    rw [length_cons, scanSelected, flatten_cons]
    by_cases hhead : pending.head? = some ordinal
    · rcases head?_eq_some_iff.mp hhead with ⟨rest, rfl⟩
      have hlater : ∀ o ∈ rest, ordinal < o := fun o => rel_of_pairwise_cons hsorted
      rw [if_pos hhead, filterMap_cons_some (b := value) (by simp),
        filterMap_shift value values hlater]
      apply hread.bind
      exact (ih (Pairwise.of_cons hsorted) hlater).bind_pure rfl
    · have hlater : ∀ o ∈ pending, ordinal < o := by
        intro o ho
        cases pending with
        | nil => cases ho
        | cons first rest =>
          have hfirst : ordinal ≠ first := fun heq => hhead (by rw [heq]; rfl)
          have hge := hle first mem_cons_self
          rcases mem_cons.mp ho with rfl | ho
          · omega
          · have := rel_of_pairwise_cons hsorted ho
            omega
      rw [if_neg hhead, filterMap_shift value values hlater]
      intro cursor tail
      rcases hskip _ _ _ (hread cursor (blobs.flatten ++ tail)) with ⟨skipped, hskipped⟩
      rw [append_assoc, run_bind_ok hskipped, ih hsorted hlater, length_append, Nat.add_assoc]

/-- Between two checkpoints stand the records between them. -/
theorem LaneRecords.checkpointPayload_eq (hlane : LaneRecords lane retain blobs values)
    (hinterval : 0 < lane.interval)
    (hcount : lane.checkpoints.length = divCeil blobs.length lane.interval)
    (hcheckpoint : checkpoint * lane.interval < blobs.length) :
    lane.checkpointPayload checkpoint = .ok (slice blobs
      ⟨checkpoint * lane.interval, (checkpoint + 1) * lane.interval⟩).flatten := by
  have hle : checkpoint * lane.interval ≤ (checkpoint + 1) * lane.interval :=
    Nat.mul_le_mul_right _ (Nat.le_succ checkpoint)
  -- past the last checkpoint the payload ends where the records end
  have hstop : lane.checkpoints[checkpoint + 1]?.getD lane.payload.length =
      (blobs.take ((checkpoint + 1) * lane.interval)).flatten.length := by
    by_cases hnext : (checkpoint + 1) * lane.interval < blobs.length
    · rw [hlane.checkpoints _ hnext]
      rfl
    · have hnone : lane.checkpoints.length ≤ checkpoint + 1 := by
        rw [hcount, divCeil, ← Nat.lt_succ_iff, Nat.div_lt_iff_lt_mul hinterval, Nat.succ_mul]
        omega
      rw [getElem?_eq_none hnone, take_of_length_le (by omega), hlane.payload]
      rfl
  have hstart : (blobs.take (checkpoint * lane.interval)).flatten.length ≤
      (blobs.take ((checkpoint + 1) * lane.interval)).flatten.length := by
    rw [← take_append_slice blobs hle, flatten_append, length_append]
    exact Nat.le_add_right _ _
  have hend : (blobs.take ((checkpoint + 1) * lane.interval)).flatten.length ≤
      blobs.flatten.length := by
    conv_rhs => rw [← take_append_drop ((checkpoint + 1) * lane.interval) blobs,
      flatten_append, length_append]
    exact Nat.le_add_right _ _
  unfold SeekableRecordLane.checkpointPayload
  rw [hlane.checkpoints checkpoint hcheckpoint]
  dsimp only
  rw [hstop, hlane.payload, if_pos ⟨hstart, hend⟩, slice_flatten blobs hle]

/-- A group of ordinals is read from the records of its checkpoint. -/
theorem readAll_readGroup (hskip : Shadows skip retain)
    (hreads : Forall₂ (Reads retain) blobs values) (hbound : blobs.length < 2 ^ 64)
    {finalOrdinal : Nat} {group : List Nat} (hsorted : group.Pairwise (· < ·))
    (hgroup : ∀ o ∈ group, checkpoint * lane.interval ≤ o ∧ o ≤ finalOrdinal)
    (hstart : checkpoint * lane.interval ≤ finalOrdinal)
    (hfinal : finalOrdinal < checkpointEnd lane blobs.length checkpoint) :
    readAll (readGroup lane blobs.length retain skip checkpoint finalOrdinal group)
      (slice blobs ⟨checkpoint * lane.interval, (checkpoint + 1) * lane.interval⟩).flatten =
        .ok (group.filterMap (values[·]?)) := by
  set start := checkpoint * lane.interval with hstartEq
  set next := (checkpoint + 1) * lane.interval with hnextEq
  have hend : checkpointEnd lane blobs.length checkpoint = min next blobs.length := by
    unfold checkpointEnd
    omega
  -- the records up to the last selected one, and the rest of the checkpoint
  have hsplit : slice blobs ⟨start, next⟩ =
      slice blobs ⟨start, finalOrdinal + 1⟩ ++ slice blobs ⟨finalOrdinal + 1, next⟩ := by
    apply @List.append_cancel_left _ (blobs.take start)
    rw [take_append_slice blobs (by omega), ← append_assoc,
      take_append_slice blobs (by omega), take_append_slice blobs (by omega)]
  have hlength : (slice blobs ⟨start, finalOrdinal + 1⟩).length = finalOrdinal + 1 - start := by
    simp only [slice, length_take, length_drop]
    omega
  have hvalues : ∀ o ∈ group, (slice values ⟨start, finalOrdinal + 1⟩)[o - start]? = values[o]? := by
    intro o ho
    have := hgroup o ho
    rw [slice, getElem?_take_of_lt (by dsimp only; omega), getElem?_drop]
    rw [Nat.add_sub_cancel' this.1]
  have hscan : Reads (scanSelected retain skip (finalOrdinal + 1 - start) start group)
      (slice blobs ⟨start, finalOrdinal + 1⟩).flatten (group.filterMap (values[·]?)) := by
    rw [← hlength, ← filterMap_congr hvalues]
    exact reads_scanSelected hskip (forall₂_take _ (forall₂_drop start hreads)) hsorted
      (fun o ho => (hgroup o ho).1)
  rw [readAll_eq_ok_iff, hsplit, flatten_append]
  unfold readGroup
  rw [Input.start, run_bind_ok (hscan 0 _)]
  by_cases hlast : finalOrdinal + 1 = checkpointEnd lane blobs.length checkpoint
  · have hrest : slice blobs ⟨finalOrdinal + 1, next⟩ = [] := by
      apply eq_nil_of_length_eq_zero
      simp only [slice, length_take, length_drop]
      omega
    rw [if_pos hlast, run_bind_ok (run_requireConsumed_eq_ok_iff (u := ()).mpr
      ⟨by rw [hrest]; rfl, rfl⟩)]
    exact ⟨_, rfl⟩
  · rw [if_neg hlast]
    exact ⟨_, rfl⟩

/-- The groups together deliver all selected records. -/
theorem decodeSelectedFrom_eq_ok (hskip : Shadows skip retain)
    (hlane : LaneRecords lane retain blobs values) (hinterval : 0 < lane.interval)
    (hcount : lane.checkpoints.length = divCeil blobs.length lane.interval)
    (hbound : blobs.length < 2 ^ 64) {fuel : Nat} {selected : List Nat}
    (hfuel : selected.length ≤ fuel) (hsorted : selected.Pairwise (· < ·))
    (hlt : ∀ o ∈ selected, o < blobs.length) :
    decodeSelectedFrom lane blobs.length retain skip fuel selected =
      .ok (selected.filterMap (values[·]?)) := by
  induction fuel generalizing selected with
  | zero =>
    rw [eq_nil_of_length_eq_zero (Nat.le_zero.mp hfuel)]
    rfl
  | succ fuel ih =>
    cases selected with
    | nil => rfl
    | cons first rest =>
      set checkpoint := first / lane.interval with hcheckpoint
      set more := rest.takeWhile fun ordinal =>
        decide (ordinal < checkpointEnd lane blobs.length checkpoint) with hmore
      set finalOrdinal := (first :: more).getLast (cons_ne_nil _ _) with hfinalEq
      have hrest : more ++ rest.drop more.length = rest :=
        prefix_iff_eq_append.mp (List.takeWhile_prefix _)
      have hall : first :: rest = (first :: more) ++ rest.drop more.length := by
        rw [cons_append, hrest]
      rw [hall] at hsorted hlt
      have hgroupSorted := (pairwise_append.mp hsorted).1
      have hstart : checkpoint * lane.interval ≤ first := Nat.div_mul_le_self _ _
      have hnext : first < checkpoint * lane.interval + lane.interval :=
        Nat.lt_div_mul_add hinterval
      have hfirst := hlt first (by simp)
      have hends : ∀ o ∈ first :: more, o < checkpointEnd lane blobs.length checkpoint := by
        intro o ho
        rcases mem_cons.mp ho with rfl | ho
        · unfold checkpointEnd
          rw [Nat.succ_mul]
          omega
        · rw [hmore] at ho
          simpa using mem_takeWhile_imp ho
      have hgroup : ∀ o ∈ first :: more, checkpoint * lane.interval ≤ o ∧ o ≤ finalOrdinal := by
        intro o ho
        refine ⟨?_, (hgroupSorted.imp Nat.le_of_lt).rel_getLast ho⟩
        rcases mem_cons.mp ho with rfl | ho
        · exact hstart
        · exact hstart.trans (Nat.le_of_lt (rel_of_pairwise_cons hgroupSorted ho))
      have hothers := @ih (rest.drop more.length)
        (by simp only [length_cons, length_drop] at hfuel ⊢; omega)
        (pairwise_append.mp hsorted).2.1
        (fun o ho => hlt o (mem_append_right _ ho))
      have hpayload := hlane.checkpointPayload_eq hinterval hcount
        (Nat.lt_of_le_of_lt hstart hfirst)
      rw [decodeSelectedFrom, hpayload, ok_bind,
        readAll_readGroup hskip hlane.reads hbound hgroupSorted hgroup
          (hgroup _ (getLast_mem _)).1 (hends _ (getLast_mem _)),
        ok_bind, hothers, ok_bind, hall, filterMap_append]

theorem length_readCheckpoints {count index previous : Nat} {s t : Input} {checkpoints : List Nat}
    (h : (readCheckpoints count index previous).run s = .ok (checkpoints, t)) :
    checkpoints.length = count := by
  induction count generalizing index previous s checkpoints with
  | zero =>
    rcases run_pure_eq_ok_iff.mp h with ⟨rfl, _⟩
    rfl
  | succ count ih =>
    rcases run_bind_eq_ok_iff.mp h with ⟨_, _, _, h⟩
    rcases run_bind_eq_ok_iff.mp h with ⟨_, _, _, h⟩
    rcases run_bind_eq_ok_iff.mp h with ⟨_, _, _, h⟩
    rcases run_bind_eq_ok_iff.mp h with ⟨rest, _, hrest, h⟩
    rcases run_pure_eq_ok_iff.mp h with ⟨rfl, rfl⟩
    rw [length_cons, ih hrest]

/-- A lane that opens has checkpoints at a positive interval, one for every
interval begun. -/
theorem decodeSeekableRecordLane_eq_ok (h : decodeSeekableRecordLane encoded recordCount = .ok lane) :
    0 < lane.interval ∧ lane.checkpoints.length = divCeil recordCount lane.interval := by
  unfold decodeSeekableRecordLane at h
  simp only [bind_eq_ok_iff] at h
  obtain ⟨_, _, _, _, directory, hdirectory, _, _, h⟩ := h
  cases h
  rcases readComponent_eq_ok_iff.mp hdirectory with ⟨t, hrun, _⟩
  unfold readDirectory at hrun
  simp only [run_bind_eq_ok_iff] at hrun
  obtain ⟨interval, _, _, _, _, hinterval, count, _, _, _, _, hcount, checkpoints, _, hcheckpoints,
    hrun⟩ := hrun
  rcases run_pure_eq_ok_iff.mp hrun with ⟨rfl, _⟩
  have hpositive := (run_require_eq_ok_iff.mp hinterval).1
  have hexpected := (run_require_eq_ok_iff.mp hcount).1
  refine ⟨by simpa [Nat.pos_iff_ne_zero] using hpositive, ?_⟩
  rw [length_readCheckpoints hcheckpoints]
  simpa using hexpected

/-- On a lane the sequential reader accepts, the seeking reader delivers the
records at the selected ordinals. -/
theorem decodeSelectedLane_eq_ok (hlocal : Local retain) (hskip : Shadows skip retain)
    (h : (decodeSeekableRecordLane encoded recordCount >>= fun lane =>
      readLane lane retain recordCount) = .ok values) (hbound : recordCount < 2 ^ 64) :
    values.length = recordCount ∧ ∀ selected : List Nat, selected.Pairwise (· < ·) →
      (∀ o ∈ selected, o < recordCount) →
      decodeSelectedLane encoded recordCount retain skip selected =
        .ok (selected.filterMap (values[·]?)) := by
  rcases bind_eq_ok_iff.mp h with ⟨lane, hlane, hread⟩
  rcases decodeSeekableRecordLane_eq_ok hlane with ⟨hinterval, hcount⟩
  rcases (readLane_eq_ok_iff hlocal hinterval).mp hread with ⟨blobs, rfl, hrecords⟩
  refine ⟨hrecords.reads.length_eq.symm, ?_⟩
  intro selected hsorted hlt
  rw [decodeSelectedLane, hlane, ok_bind]
  exact decodeSelectedFrom_eq_ok hskip hrecords hinterval hcount hbound le_rfl hsorted hlt

end Seeking

/-! ## Exchanging the readers of bodies and fields -/

variable {s t : Input} {offsets : List LogicalOffset} {encoded : Bytes} {recordCount : Nat}
  {pco : Pco} {timestamps : List UInt64} {parts : BlockParts} {messages : List Str}
  {fields : List (List MetadataField)}

theorem run_readSectionAs_eq_ok_iff {α : Type} {decode : Bytes → LogDbResult α} {a : α} :
    (readSectionAs decode).run s = .ok (a, t) ↔
      ∃ bytes, readSection.run s = .ok (bytes, t) ∧ decode bytes = .ok a := by
  unfold readSectionAs
  rw [run_bind_eq_ok_iff]
  constructor
  · simp [run_ofResult_eq_ok_iff]
  · simp_all

theorem length_readOffsetDeltas {count previous : Nat}
    (h : (readOffsetDeltas count previous).run s = .ok (offsets, t)) : offsets.length = count := by
  induction count generalizing previous s offsets with
  | zero =>
    rcases run_pure_eq_ok_iff.mp h with ⟨rfl, _⟩
    rfl
  | succ count ih =>
    rcases run_bind_eq_ok_iff.mp h with ⟨_, _, _, h⟩
    rcases run_bind_eq_ok_iff.mp h with ⟨_, _, _, h⟩
    rcases run_bind_eq_ok_iff.mp h with ⟨rest, _, hrest, h⟩
    rcases run_pure_eq_ok_iff.mp h with ⟨rfl, rfl⟩
    rw [length_cons, ih hrest]

/-- One offset for each record. -/
theorem length_decodeOffsets (h : decodeOffsets encoded recordCount = .ok offsets) :
    offsets.length = recordCount := by
  cases recordCount with
  | zero =>
    rw [decodeOffsets] at h
    split at h
    · cases h
      rfl
    · cases h
  | succ count =>
    rcases readComponent_eq_ok_iff.mp h with ⟨t, hrun, _⟩
    rcases run_bind_eq_ok_iff.mp hrun with ⟨first, _, _, hrun⟩
    rcases run_bind_eq_ok_iff.mp hrun with ⟨rest, _, hrest, hrun⟩
    rcases run_pure_eq_ok_iff.mp hrun with ⟨rfl, _⟩
    rw [length_cons, length_readOffsetDeltas hrest]

/-- One timestamp for each record. -/
theorem length_decodeTimestamps (h : decodeTimestamps pco encoded recordCount = .ok timestamps) :
    timestamps.length = recordCount := by
  unfold decodeTimestamps at h
  by_cases hzero : recordCount = 0
  · grind
  · rw [if_neg hzero] at h
    split at h
    · cases h
    · rename_i result processed finished hresult
      split at h
      · cases h
        exact pco.length_buffer _ _ _ hresult
      · cases h

/-- What the sections of a block that parses hold, whichever way its bodies and
fields are read. -/
structure ParsedSections (pco : Pco) (encoded : Bytes) (recordCount : Nat) (bodies : Bytes)
    (templates : List TemplateEntry) (fieldLists : Bytes) (attributes : DecodedAttributeTables)
    (offsets : List LogicalOffset) (timestamps : List UInt64) : Prop where
  recordCount_lt : recordCount < 2 ^ 64
  length_offsets : offsets.length = recordCount
  length_timestamps : timestamps.length = recordCount
  exchange : ∀ {validate decodeMessages decodeFieldLists messages fields},
    validate recordCount = .ok () → decodeMessages bodies templates recordCount = .ok messages →
    decodeFieldLists fieldLists attributes recordCount = .ok fields →
    readAll (readBlockParts pco validate decodeMessages decodeFieldLists) encoded =
      .ok ⟨offsets, timestamps, messages, fields⟩

/-- What an accepted block consists of. -/
theorem exists_parsedSections {validate : Nat → LogDbResult Unit}
    {decodeMessages : Bytes → List TemplateEntry → Nat → LogDbResult (List Str)}
    {decodeFieldLists : Bytes → DecodedAttributeTables → Nat →
      LogDbResult (List (List MetadataField))}
    (h : readAll (readBlockParts pco validate decodeMessages decodeFieldLists) encoded =
      .ok parts) :
    ∃ recordCount bodies templates fieldLists attributes,
      ParsedSections pco encoded recordCount bodies templates fieldLists attributes
        parts.offsets parts.timestamps ∧
      decodeMessages bodies templates recordCount = .ok parts.messages ∧
      decodeFieldLists fieldLists attributes recordCount = .ok parts.fields := by
  rcases readAll_eq_ok_iff.mp h with ⟨t, hrun⟩
  rcases run_bind_eq_ok_iff.mp hrun with ⟨parsed, sEnd, hsections, hend⟩
  rcases run_bind_eq_ok_iff.mp hsections with ⟨_, s₁, hmagic, h₁⟩
  rcases run_bind_eq_ok_iff.mp h₁ with ⟨recordCount, s₂, hcount, h₂⟩
  rcases run_bind_eq_ok_iff.mp h₂ with ⟨_, s₃, hwithin, h₃⟩
  rcases run_bind_eq_ok_iff.mp h₃ with ⟨_, s₄, hvalidate, h₄⟩
  rcases run_ofResult_eq_ok_iff.mp hvalidate with ⟨_, rfl⟩
  simp only [run_bind_eq_ok_iff] at h₄
  obtain ⟨offsets, s₅, hoffsets, timestamps, s₆, htimestamps, templates, s₇, htemplates, messages,
    s₈, hmessages, attributes, s₉, hattributes, fields, s₁₀, hfields, index, s₁₁, hindex, _, s₁₂,
    hmatch, hparts⟩ := h₄
  rcases run_pure_eq_ok_iff.mp hparts with ⟨rfl, rfl⟩
  rcases run_bind_eq_ok_iff.mp hend with ⟨state, s₁₃, hstate, hend⟩
  rcases run_bind_eq_ok_iff.mp hend with ⟨_, s₁₄, htrailing, hend⟩
  rcases run_pure_eq_ok_iff.mp hend with ⟨rfl, rfl⟩
  rcases run_readSectionAs_eq_ok_iff.mp hoffsets with ⟨offsetBytes, _, hdecodeOffsets⟩
  rcases run_readSectionAs_eq_ok_iff.mp htimestamps with ⟨timestampBytes, _, hdecodeTimestamps⟩
  rcases run_readSectionAs_eq_ok_iff.mp hmessages with ⟨bodies, hbodies, hdecodeMessages⟩
  rcases run_readSectionAs_eq_ok_iff.mp hfields with ⟨fieldLists, hfieldLists, hdecodeFields⟩
  refine ⟨recordCount, bodies, templates, fieldLists, attributes, ⟨readUsize_lt hcount,
    length_decodeOffsets hdecodeOffsets, length_decodeTimestamps hdecodeTimestamps, ?_⟩,
    hdecodeMessages, hdecodeFields⟩
  intro validate' decodeMessages' decodeFieldLists' messages' fields' hvalidate' hmessages' hfields'
  have hsections' : (readBlockSections pco validate' decodeMessages' decodeFieldLists').run
      (.start encoded) = .ok (⟨offsets, timestamps, messages', fields'⟩, sEnd) := by
    unfold readBlockSections
    rw [run_bind_ok hmagic, run_bind_ok hcount, run_bind_ok hwithin,
      run_bind_ok (run_ofResult_eq_ok_iff.mpr ⟨hvalidate', rfl⟩), run_bind_ok hoffsets,
      run_bind_ok htimestamps, run_bind_ok htemplates,
      run_bind_ok (run_readSectionAs_eq_ok_iff.mpr ⟨bodies, hbodies, hmessages'⟩),
      run_bind_ok hattributes,
      run_bind_ok (run_readSectionAs_eq_ok_iff.mpr ⟨fieldLists, hfieldLists, hfields'⟩),
      run_bind_ok hindex, run_bind_ok hmatch]
    rfl
  rw [readAll_eq_ok_iff]
  unfold readBlockParts
  rw [run_bind_ok hsections', run_bind_ok hstate, run_bind_ok htrailing]
  exact ⟨_, rfl⟩

/-! ## Selective decoding is a projection -/

/-- Offsets and timestamps at the selected ordinals meet the selected messages
and fields. -/
theorem selectedRecords_eq (hoffsets : offsets.length = recordCount)
    (htimestamps : timestamps.length = recordCount) (hmessages : messages.length = recordCount)
    (hfields : fields.length = recordCount) {selected : List Nat}
    (h : ∀ o ∈ selected, o < recordCount) :
    BlockParts.selectedRecords ⟨offsets, timestamps, selected.filterMap (messages[·]?),
        selected.filterMap (fields[·]?)⟩ selected =
      selected.filterMap ((BlockParts.records ⟨offsets, timestamps, messages, fields⟩)[·]?) := by
  induction selected with
  | nil => rfl
  | cons o rest ih =>
    have ho : o < recordCount := h o mem_cons_self
    have hrest := ih fun p hp => h p (mem_cons_of_mem o hp)
    have hrecord : (BlockParts.records ⟨offsets, timestamps, messages, fields⟩)[o]? = some
        ⟨offsets.getD o 0, timestamps.getD o 0, messages[o], fields[o]⟩ := by
      simp [BlockParts.records, hoffsets, htimestamps, hmessages, hfields, ho]
    rw [filterMap_cons_some (getElem?_eq_getElem (by omega)),
      filterMap_cons_some (getElem?_eq_getElem (by omega)),
      filterMap_cons_some hrecord, ← hrest]
    rfl

/-- The selective reader on sections the full reader parses. -/
theorem decodeStructuralRecords_of_parts
    (hparts : readAll (readBlockParts pco acceptRecordCount decodeBodies decodeFields) encoded =
      .ok parts) {ordinals : List Nat} (hsorted : ordinals.Pairwise (· < ·))
    (hlt : ∀ o ∈ ordinals, o < parts.records.length) :
    decodeStructuralRecords pco encoded ordinals =
      .ok (ordinals.filterMap (parts.records[·]?)) := by
  rcases exists_parsedSections hparts with
    ⟨recordCount, bodies, templates, fieldLists, attributes, hsections, hbodies, hfields⟩
  rw [decodeBodies_eq_readLane] at hbodies
  rw [decodeFields_eq_readLane] at hfields
  rcases decodeSelectedLane_eq_ok (local_readBody templates) (shadows_skipBody templates) hbodies
    hsections.recordCount_lt with ⟨hmessages, hbodies'⟩
  rcases decodeSelectedLane_eq_ok (local_readFields attributes) (shadows_skipFields attributes)
    hfields hsections.recordCount_lt with ⟨hlength, hfields'⟩
  have hcount : parts.records.length = recordCount := by
    simp [BlockParts.records, hsections.length_offsets, hsections.length_timestamps, hmessages,
      hlength]
  rw [hcount] at hlt
  have hvalid : validateSelectedOrdinals ordinals recordCount = .ok () :=
    ensure_of_true ⟨hsorted.isChain, hlt⟩ _
  unfold decodeStructuralRecords
  rw [hsections.exchange hvalid (hbodies' ordinals hsorted hlt) (hfields' ordinals hsorted hlt),
    ok_bind, selectedRecords_eq hsections.length_offsets hsections.length_timestamps hmessages
      hlength hlt]

/-- Selective decoding delivers the selected records of the full decoding, whatever bytes that
accepts. -/
theorem decodeStructuralRecords_eq_ok {pco : Pco} {encoded : Bytes}
    {records : List DecodedStructuralRecord} {ordinals : List Nat}
    (h : decodeStructuralBlock pco encoded = .ok records) (hsorted : ordinals.Pairwise (· < ·))
    (hlt : ∀ o ∈ ordinals, o < records.length) :
    decodeStructuralRecords pco encoded ordinals = .ok (ordinals.filterMap (records[·]?)) := by
  rcases bind_eq_ok_iff.mp h with ⟨parts, hparts, hrecords⟩
  cases hrecords
  exact decodeStructuralRecords_of_parts hparts hsorted hlt

theorem sampleRecords_roundTrip :
    (encodeIndexedStructuralRecords latinTables wordPco (Placement.byContent sampleRecords) >>=
      fun block => decodeStructuralBlock wordPco block.structural) = .ok sampleRecords := by
  decide +kernel

/-- The second sample record is read past the first. -/
theorem decodeStructuralRecords_sampleRecords : ∃ encoded,
    decodeStructuralBlock wordPco encoded = .ok sampleRecords ∧
    decodeStructuralRecords wordPco encoded [1] = .ok ([1].filterMap (sampleRecords[·]?)) := by
  rcases bind_eq_ok_iff.mp sampleRecords_roundTrip with ⟨block, _, hdecode⟩
  exact ⟨block.structural, hdecode,
    decodeStructuralRecords_eq_ok hdecode (List.pairwise_singleton _ 1) (by decide)⟩

end ShardLog.Structural
