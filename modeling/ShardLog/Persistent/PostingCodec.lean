import ShardLog.Persistent.Posting
import ShardLog.Structural.Wire

/-!
# Persistent index - Encoding of posting lists

A posting list is stored as it is represented: ordinals as differences, runs as
gaps and lengths.
-/

namespace ShardLog.Persistent

open List hiding length

open ByteReader Utf8 OrdinalRun
open Structural (BlockReader invalid writeVarint writeCount writeCount_eq_ok_iff takeExactly
  reads_takeExactly)

/-! ## Primitive readers -/

/-- Errors of the varint reader of the query index. -/
def queryVarintErrors : Integers.VarintErrors LogDbError where
  truncated := invalid "truncated query index"
  overflow := invalid "query index varint overflow"
  tooLong := invalid "query index varint too long"

def readQueryVarint : BlockReader Nat := Integers.readVarint queryVarintErrors

def readQueryByte : BlockReader UInt8 := fun s =>
  match s.rest with
  | [] => .error (invalid "truncated query index")
  | byte :: rest => .ok (byte, ⟨s.cursor + 1, rest⟩)

def readQueryU32 : BlockReader Nat := do
  let value ← readQueryVarint
  require (decide (value < 2 ^ 32)) (invalid "query index value does not fit u32")
  pure value

/-- A varint length; `usize` is 64 bits wide, so the conversion never fails. -/
def readQueryUsize : BlockReader Nat := readQueryVarint

def readQueryBytes : BlockReader Bytes := do
  let length ← readQueryUsize
  takeExactly "query index byte length overflow" "truncated query index bytes" length

def decodeQueryText (bytes : Bytes) : LogDbResult Str :=
  match fromUtf8 bytes with
  | some text => .ok text
  | none => .error (invalid "query index text is not UTF-8")

def readQueryText : BlockReader Str := do
  let bytes ← readQueryBytes
  ofResult (decodeQueryText bytes)

/-- A count of items still to be read cannot exceed the remaining bytes. -/
def ensureQueryCount (count : Nat) : BlockReader Unit :=
  requireRemaining count (invalid "query index count exceeds remaining bytes")

variable {value : Nat}

theorem reads_readQueryVarint (h : value < 2 ^ 64) :
    Reads readQueryVarint (writeVarint value) value :=
  Integers.reads_readVarint queryVarintErrors h

theorem reads_readQueryU32 (h : value < 2 ^ 32) : Reads readQueryU32 (writeVarint value) value := by
  have hread : Reads readQueryVarint (writeVarint value) value := reads_readQueryVarint (by omega)
  exact hread.bind_nil ((reads_pure value).require_bind (decide_eq_true h))

/-- Text is read back. -/
theorem reads_readQueryText {text : Str} {bytes : Bytes}
    (h : Structural.appendBytes (utf8 text) = .ok bytes) : Reads readQueryText bytes text := by
  obtain ⟨rfl, hlt⟩ := Structural.appendBytes_eq_ok_iff.mp h
  have hbytes : Reads readQueryBytes (writeVarint (utf8 text).length ++ utf8 text) (utf8 text) :=
    (reads_readQueryVarint hlt).bind (reads_takeExactly _ _ _)
  refine hbytes.bind_nil (reads_ofResult ?_)
  simp [decodeQueryText]

theorem lt_of_readQueryVarint {s t : Input} (h : readQueryVarint.run s = .ok (value, t)) :
    value < 2 ^ 64 :=
  Integers.readVarint_lt h

theorem lt_of_readQueryU32 {s t : Input} (h : readQueryU32.run s = .ok (value, t)) :
    value < 2 ^ 32 := by
  obtain ⟨_, _, _, h⟩ := run_bind_eq_ok_iff.mp h
  obtain ⟨_, _, hlt, h⟩ := run_bind_eq_ok_iff.mp h
  obtain ⟨rfl, _⟩ := run_pure_eq_ok_iff.mp h
  exact of_decide_eq_true (run_require_eq_ok_iff.mp hlt).1

/-! ## Encoding -/

def deltaPosting : UInt8 := 0

def runPosting : UInt8 := 1

/-- Each ordinal as the difference to the one before it. -/
def encodeDeltas : Option Nat → List Nat → LogDbResult Bytes
  | _, [] => .ok []
  | previous, ordinal :: rest => do
      ensure (previous.all (· < ordinal) = true) (invalid "query posting is not ordered")
      let deltas ← encodeDeltas (some ordinal) rest
      .ok (writeVarint (ordinal - previous.getD 0) ++ deltas)

/-- Each run as the gap to the one before it and its length. -/
def encodeRuns : Nat → List OrdinalRun → Bytes
  | _, [] => []
  | previousEnd, run :: rest =>
    writeVarint (run.start - previousEnd) ++ (writeVarint run.length ++
      encodeRuns (saturatingAddU32 run.start run.length) rest)

def encodePosting : PostingList → LogDbResult Bytes
  | .runs runs _ => do
      ensure (runs ≠ []) (invalid "empty query posting")
      let count ← writeCount runs.length
      .ok (runPosting :: (count ++ encodeRuns 0 runs))
  | .ordinals ordinals => do
      let count ← writeCount ordinals.length
      let deltas ← encodeDeltas none ordinals
      .ok (deltaPosting :: (count ++ deltas))

/-! ## Decoding -/

def readDeltas (recordCount : Nat) : Nat → Option Nat → BlockReader (List Nat)
  | 0, _ => pure []
  | count + 1, previous => do
      let delta ← readQueryU32
      let ordinal := previous.getD 0 + delta
      require (decide (ordinal < 2 ^ 32)) (invalid "query posting delta overflow")
      require (decide (ordinal < recordCount) && previous.all (· < ordinal))
        (invalid "invalid query posting ordinal")
      let rest ← readDeltas recordCount count (some ordinal)
      pure (ordinal :: rest)

/-- Runs lie one after another below the record count, so their summed length
cannot overflow. -/
def readRuns (recordCount : Nat) : Nat → Nat → BlockReader (List OrdinalRun)
  | 0, _ => pure []
  | count + 1, previousEnd => do
      let gap ← readQueryU32
      let start := previousEnd + gap
      require (decide (start < 2 ^ 32)) (invalid "query posting run overflow")
      let length ← readQueryU32
      require (decide (start + length < 2 ^ 32)) (invalid "query posting run overflow")
      require (decide (0 < length) && decide (start + length ≤ recordCount))
        (invalid "invalid query posting run")
      let rest ← readRuns recordCount count (start + length)
      pure (⟨start, length⟩ :: rest)

def decodePosting (recordCount : Nat) : BlockReader PostingList := do
  let encoding ← readQueryByte
  if encoding = deltaPosting then do
    let count ← readQueryUsize
    ensureQueryCount count
    let ordinals ← readDeltas recordCount count none
    require (!ordinals.isEmpty) (invalid "empty query posting")
    pure (.ordinals ordinals)
  else if encoding = runPosting then do
    let runCount ← readQueryUsize
    ensureQueryCount runCount
    let runs ← readRuns recordCount runCount 0
    require (!runs.isEmpty) (invalid "empty query posting")
    pure (.runs runs (runs.map length).sum)
  else fail (invalid "unknown query posting encoding")

/-! ## Posting lists of a block -/

/-- A posting list that names records of a block. -/
structure PostingList.Fits (recordCount : Nat) (posting : PostingList) : Prop where
  wellFormed : posting.WellFormed
  nonempty : posting.toVec ≠ []
  bounded : ∀ ordinal ∈ posting.toVec, ordinal < recordCount

theorem length_flatMap_ordinals (runs : List OrdinalRun) :
    (runs.flatMap ordinals).length = (runs.map length).sum := by
  rw [length_flatMap]
  congr 1
  apply map_congr_left
  intro run _
  exact length_range'

section Deltas

variable {recordCount : Nat} {ordinals : List Nat} {previous : Option Nat}

/-- Ordinals have to increase. -/
theorem encodeDeltas_eq_ok_iff {ordinal : Nat} {bytes : Bytes} :
    encodeDeltas previous (ordinal :: ordinals) = .ok bytes ↔
      previous.all (· < ordinal) = true ∧ ∃ rest, encodeDeltas (some ordinal) ordinals = .ok rest ∧
        bytes = writeVarint (ordinal - previous.getD 0) ++ rest := by
  rw [encodeDeltas, bind_eq_ok_iff]
  constructor
  · grind [bind_eq_ok_iff, ensure_eq_ok_iff]
  · simp_all [ensure_of_true, ok_bind]

theorem getD_le_of_all {ordinal : Nat} (h : previous.all (· < ordinal) = true) :
    previous.getD 0 ≤ ordinal := by
  cases previous with
  | none => exact Nat.zero_le _
  | some last => exact (of_decide_eq_true h).le

/-- Written ordinals are read back. -/
theorem reads_readDeltas (hsmall : recordCount < 2 ^ 32) {bytes : Bytes}
    (hbounded : ∀ ordinal ∈ ordinals, ordinal < recordCount)
    (h : encodeDeltas previous ordinals = .ok bytes) :
    Reads (readDeltas recordCount ordinals.length previous) bytes ordinals := by
  induction ordinals generalizing previous bytes with
  | nil =>
    cases h
    exact reads_pure _
  | cons ordinal ordinals ih =>
    obtain ⟨hordered, rest, hrest, rfl⟩ := encodeDeltas_eq_ok_iff.mp h
    have hlt := hbounded ordinal mem_cons_self
    have hback : previous.getD 0 + (ordinal - previous.getD 0) = ordinal :=
      Nat.add_sub_of_le (getD_le_of_all hordered)
    have hothers := ih (fun other hother => hbounded other (mem_cons_of_mem _ hother)) hrest
    refine (reads_readQueryU32 (lt_of_le_of_lt (Nat.sub_le _ _) (hlt.trans hsmall))).bind ?_
    rw [hback]
    exact Reads.require_bind (decide_eq_true (hlt.trans hsmall))
      (Reads.require_bind (by simp [hlt, hordered]) (hothers.bind_pure rfl))

/-- Increasing ordinals can be written. -/
theorem exists_encodeDeltas : ∀ {previous : Option Nat}, ordinals.Pairwise (· < ·) →
      (∀ ordinal ∈ ordinals, previous.all (· < ordinal) = true) →
      ∃ bytes, encodeDeltas previous ordinals = .ok bytes := by
  induction ordinals with
  | nil => exact fun _ _ => ⟨[], rfl⟩
  | cons ordinal ordinals ih => simp_all [encodeDeltas_eq_ok_iff]

/-- Ordinals read back increase from the one before them and stay below the count. -/
theorem readDeltas_spec {count : Nat} {s t : Input} {ordinals : List Nat}
    (h : (readDeltas recordCount count previous).run s = .ok (ordinals, t)) :
    ordinals.Pairwise (· < ·) ∧ (∀ ordinal ∈ ordinals, previous.all (· < ordinal) = true) ∧
      ∀ ordinal ∈ ordinals, ordinal < recordCount := by
  induction count generalizing previous s t ordinals with
  | zero =>
    obtain ⟨rfl, _⟩ := run_pure_eq_ok_iff.mp h
    simp
  | succ count ih =>
    obtain ⟨delta, _, _, h⟩ := run_bind_eq_ok_iff.mp h
    obtain ⟨_, _, _, h⟩ := run_bind_eq_ok_iff.mp h
    obtain ⟨_, _, hvalid, h⟩ := run_bind_eq_ok_iff.mp h
    obtain ⟨rest, _, hrest, h⟩ := run_bind_eq_ok_iff.mp h
    obtain ⟨rfl, _⟩ := run_pure_eq_ok_iff.mp h
    obtain ⟨hlt, hbeyond⟩ := Bool.and_eq_true_iff.mp (run_require_eq_ok_iff.mp hvalid).1
    obtain ⟨hsorted, hafter, hbounded⟩ := ih hrest
    have hnext : ∀ ordinal ∈ rest, previous.getD 0 + delta < ordinal := fun ordinal hordinal =>
      of_decide_eq_true (hafter ordinal hordinal)
    refine ⟨pairwise_cons.mpr ⟨hnext, hsorted⟩, ?_, ?_⟩
    · intro ordinal hordinal
      rcases mem_cons.mp hordinal with rfl | hin
      · exact hbeyond
      · cases previous with
        | none => rfl
        | some last => exact decide_eq_true ((of_decide_eq_true hbeyond).trans (hnext _ hin))
    · grind

end Deltas

section Runs

variable {recordCount : Nat} {runs : List OrdinalRun} {previousEnd : Nat}

/-- Runs that start at or after an ordinal and end at or before the record count. -/
structure RunsFrom (recordCount previousEnd : Nat) (runs : List OrdinalRun) : Prop where
  separate : SeparateRuns runs
  after : ∀ run ∈ runs, previousEnd ≤ run.start
  stop_le : ∀ run ∈ runs, run.start + run.length ≤ recordCount

section

variable (hsmall : recordCount < 2 ^ 32)

include hsmall

/-- The first run and those after it. -/
theorem runsFrom_cons_iff {run : OrdinalRun} :
    RunsFrom recordCount previousEnd (run :: runs) ↔
      previousEnd ≤ run.start ∧ 0 < run.length ∧ run.start + run.length ≤ recordCount ∧
        RunsFrom recordCount (run.start + run.length) runs := by
  constructor
  · intro h
    obtain ⟨hordered, hrest⟩ := pairwise_cons.mp h.separate.ordered
    refine ⟨h.after run mem_cons_self, h.separate.positive run mem_cons_self,
      h.stop_le run mem_cons_self, ⟨?_, hrest, ?_⟩, hordered, ?_⟩
    · exact fun other hother => h.separate.positive other (mem_cons_of_mem _ hother)
    · exact fun other hother => h.separate.bounded other (mem_cons_of_mem _ hother)
    · exact fun other hother => h.stop_le other (mem_cons_of_mem _ hother)
  · rintro ⟨hafter, hpositive, hstop, hrest⟩
    refine ⟨⟨?_, pairwise_cons.mpr ⟨hrest.after, hrest.separate.ordered⟩, ?_⟩, ?_, ?_⟩
    · exact forall_mem_cons.mpr ⟨hpositive, hrest.separate.positive⟩
    · exact forall_mem_cons.mpr ⟨hstop.trans_lt hsmall, hrest.separate.bounded⟩
    · refine forall_mem_cons.mpr ⟨hafter, fun other hother => ?_⟩
      exact hafter.trans ((Nat.le_add_right _ _).trans (hrest.after other hother))
    · exact forall_mem_cons.mpr ⟨hstop, hrest.stop_le⟩

/-- Written runs are read back. -/
theorem reads_readRuns (h : RunsFrom recordCount previousEnd runs) :
    Reads (readRuns recordCount runs.length previousEnd) (encodeRuns previousEnd runs) runs := by
  induction runs generalizing previousEnd with
  | nil => exact reads_pure _
  | cons run runs ih =>
    obtain ⟨hafter, hpositive, hstop, hrest⟩ := (runsFrom_cons_iff hsmall).mp h
    have hend : saturatingAddU32 run.start run.length = run.start + run.length :=
      min_eq_left (by omega)
    have hback : previousEnd + (run.start - previousEnd) = run.start := Nat.add_sub_of_le hafter
    rw [encodeRuns, hend]
    refine (reads_readQueryU32 (by omega)).bind ?_
    rw [hback]
    refine Reads.require_bind (decide_eq_true (by omega)) ?_
    refine (reads_readQueryU32 (by omega)).bind ?_
    exact Reads.require_bind (decide_eq_true (by omega))
      (Reads.require_bind (by simp [hpositive, hstop]) ((ih hrest).bind_pure rfl))

/-- Runs that are read are in range. -/
theorem runsFrom_of_readRuns {count : Nat} {s t : Input} {runs : List OrdinalRun}
    (h : (readRuns recordCount count previousEnd).run s = .ok (runs, t)) :
    RunsFrom recordCount previousEnd runs := by
  induction count generalizing previousEnd s t runs with
  | zero =>
    obtain ⟨rfl, _⟩ := run_pure_eq_ok_iff.mp h
    exact ⟨⟨by simp, Pairwise.nil, by simp⟩, by simp, by simp⟩
  | succ count ih =>
    obtain ⟨gap, _, _, h⟩ := run_bind_eq_ok_iff.mp h
    obtain ⟨_, _, _, h⟩ := run_bind_eq_ok_iff.mp h
    obtain ⟨length, _, _, h⟩ := run_bind_eq_ok_iff.mp h
    obtain ⟨_, _, _, h⟩ := run_bind_eq_ok_iff.mp h
    obtain ⟨_, _, hvalid, h⟩ := run_bind_eq_ok_iff.mp h
    obtain ⟨rest, _, hrest, h⟩ := run_bind_eq_ok_iff.mp h
    obtain ⟨rfl, _⟩ := run_pure_eq_ok_iff.mp h
    obtain ⟨hpositive, hstop⟩ := Bool.and_eq_true_iff.mp (run_require_eq_ok_iff.mp hvalid).1
    exact (runsFrom_cons_iff hsmall).mpr ⟨Nat.le_add_right _ _, of_decide_eq_true hpositive,
      of_decide_eq_true hstop, ih hrest⟩

end

/-- The runs of a posting list of a block. -/
theorem runsFrom_zero_iff : RunsFrom recordCount 0 runs ↔
      SeparateRuns runs ∧ ∀ ordinal ∈ runs.flatMap ordinals, ordinal < recordCount := by
  constructor
  · intro h
    refine ⟨h.separate, fun ordinal hordinal => ?_⟩
    obtain ⟨run, hrun, hin⟩ := mem_flatMap.mp hordinal
    exact (mem_ordinals.mp hin).2.trans_le (h.stop_le run hrun)
  · rintro ⟨hseparate, hbounded⟩
    refine ⟨hseparate, fun _ _ => Nat.zero_le _, fun run hrun => ?_⟩
    have hpositive := hseparate.positive run hrun
    -- the last ordinal of the run lies below the count
    have hlast := hbounded (run.start + run.length - 1) (mem_flatMap.mpr ⟨run, hrun,
      mem_ordinals.mpr (by omega)⟩)
    omega

end Runs

/-! ## Round trip of a posting list -/

section Postings

variable {recordCount : Nat} {posting : PostingList}

theorem reads_readQueryByte (byte : UInt8) : Reads readQueryByte [byte] byte :=
  fun _ _ => rfl

/-- Increasing ordinals below a bound are at most as many. -/
theorem length_le_of_pairwise {ordinals : List Nat} (hsorted : ordinals.Pairwise (· < ·))
    (hbounded : ∀ ordinal ∈ ordinals, ordinal < recordCount) : ordinals.length ≤ recordCount := by
  have hsubset : ordinals ⊆ range recordCount := fun ordinal hordinal =>
    mem_range.mpr (hbounded ordinal hordinal)
  have hnodup : ordinals.Nodup := hsorted.imp fun hlt => hlt.ne
  simpa using (hnodup.subperm hsubset).length_le

theorem length_writeVarint_pos (value : Nat) : 0 < (writeVarint value).length :=
  length_pos_iff.mpr (Integers.writeVarint_ne_nil value)

/-- An ordinal takes a byte. -/
theorem length_le_encodeDeltas {ordinals : List Nat} :
    ∀ {previous : Option Nat} {bytes : Bytes}, encodeDeltas previous ordinals = .ok bytes →
      ordinals.length ≤ bytes.length := by
  induction ordinals with
  | nil => exact fun _ => Nat.zero_le _
  | cons ordinal ordinals ih => grind [encodeDeltas_eq_ok_iff, length_writeVarint_pos]

/-- A run takes a byte. -/
theorem length_le_encodeRuns {runs : List OrdinalRun} :
    ∀ {previousEnd : Nat}, runs.length ≤ (encodeRuns previousEnd runs).length := by
  induction runs with
  | nil => exact Nat.zero_le _
  | cons run runs ih =>
    intro previousEnd
    have hlength := @ih (saturatingAddU32 run.start run.length)
    have hpositive := length_writeVarint_pos (run.start - previousEnd)
    simp only [encodeRuns, length_cons, length_append]
    omega

/-- Every run holds an ordinal. -/
theorem length_runs_le {runs : List OrdinalRun} (h : SeparateRuns runs) :
    runs.length ≤ (runs.flatMap ordinals).length := by
  rw [length_flatMap_ordinals]
  have hpositive := h.positive
  clear h
  induction runs with
  | nil => exact Nat.zero_le _
  | cons run runs ih => grind

section

variable (hsmall : recordCount < 2 ^ 32)

include hsmall

/-- Every posting list of a block can be encoded. -/
theorem exists_encodePosting (h : posting.Fits recordCount) :
    ∃ bytes, encodePosting posting = .ok bytes := by
  have hlength := length_le_of_pairwise h.wellFormed.pairwise h.bounded
  obtain ⟨hwell, hne, _⟩ := h
  cases hwell with
  | @ordinals ordinals hsorted =>
    obtain ⟨deltas, hdeltas⟩ := @exists_encodeDeltas ordinals none hsorted fun _ _ => rfl
    have hcount : writeCount ordinals.length = .ok (writeVarint ordinals.length) :=
      writeCount_eq_ok_iff.mpr ⟨rfl, lt_of_le_of_lt hlength (by omega)⟩
    refine ⟨deltaPosting :: (writeVarint ordinals.length ++ deltas), ?_⟩
    rw [encodePosting, hcount, ok_bind, hdeltas, ok_bind]
  | @runs runs hseparate =>
    have hruns : runs ≠ [] := by
      rintro rfl
      exact hne rfl
    have hfew : runs.length ≤ recordCount := (length_runs_le hseparate).trans hlength
    have hcount : writeCount runs.length = .ok (writeVarint runs.length) :=
      writeCount_eq_ok_iff.mpr ⟨rfl, lt_of_le_of_lt hfew (by omega)⟩
    refine ⟨runPosting :: (writeVarint runs.length ++ encodeRuns 0 runs), ?_⟩
    rw [encodePosting, ensure_of_true hruns, ok_bind, hcount, ok_bind]

/-- An encoded posting list reads back unchanged. -/
theorem reads_decodePosting (h : posting.Fits recordCount) {bytes : Bytes}
    (hbytes : encodePosting posting = .ok bytes) :
    Reads (decodePosting recordCount) bytes posting := by
  obtain ⟨hwell, hne, hbounded⟩ := h
  cases hwell with
  | @ordinals ordinals hsorted =>
    obtain ⟨count, hcount, hbytes⟩ := bind_eq_ok_iff.mp hbytes
    obtain ⟨deltas, hdeltas, hbytes⟩ := bind_eq_ok_iff.mp hbytes
    cases hbytes
    obtain ⟨rfl, hlt⟩ := writeCount_eq_ok_iff.mp hcount
    refine (reads_readQueryByte deltaPosting).bind ?_
    rw [if_pos rfl]
    refine (reads_readQueryVarint hlt).bind ?_
    refine Reads.requireRemaining_bind (length_le_encodeDeltas hdeltas) ?_
    refine (reads_readDeltas hsmall hbounded hdeltas).bind_nil ?_
    exact (reads_pure _).require_bind (by simpa using hne)
  | @runs runs hseparate =>
    obtain ⟨_, hruns, hbytes⟩ := bind_eq_ok_iff.mp hbytes
    obtain ⟨count, hcount, hbytes⟩ := bind_eq_ok_iff.mp hbytes
    cases hbytes
    obtain ⟨rfl, hlt⟩ := writeCount_eq_ok_iff.mp hcount
    have hfrom : RunsFrom recordCount 0 runs := runsFrom_zero_iff.mpr ⟨hseparate, hbounded⟩
    refine (reads_readQueryByte runPosting).bind ?_
    rw [if_neg (by decide), if_pos rfl]
    refine (reads_readQueryVarint hlt).bind ?_
    refine Reads.requireRemaining_bind length_le_encodeRuns ?_
    refine (reads_readRuns hsmall hfrom).bind_nil ?_
    refine Reads.require_bind (by simpa using ensure_eq_ok_iff.mp hruns) ?_
    rw [length_flatMap_ordinals]
    exact reads_pure _

/-- What is read is a posting list of the block. -/
theorem fits_of_decodePosting {s t : Input}
    (h : (decodePosting recordCount).run s = .ok (posting, t)) : posting.Fits recordCount := by
  obtain ⟨encoding, _, _, h⟩ := run_bind_eq_ok_iff.mp h
  split at h
  · simp only [run_bind_eq_ok_iff] at h
    obtain ⟨count, _, _, _, _, _, ordinals, _, hordinals, _, _, hne, h⟩ := h
    obtain ⟨rfl, _⟩ := run_pure_eq_ok_iff.mp h
    obtain ⟨hsorted, _, hbounded⟩ := readDeltas_spec hordinals
    have hnonempty := (run_require_eq_ok_iff.mp hne).1
    exact ⟨.ordinals hsorted, by simpa [PostingList.toVec] using hnonempty, hbounded⟩
  · split at h
    · simp only [run_bind_eq_ok_iff] at h
      obtain ⟨count, _, _, _, _, _, runs, _, hruns, _, _, hne, h⟩ := h
      obtain ⟨rfl, _⟩ := run_pure_eq_ok_iff.mp h
      have hfrom := runsFrom_of_readRuns hsmall hruns
      obtain ⟨hseparate, hbounded⟩ := runsFrom_zero_iff.mp hfrom
      have hnonempty : runs ≠ [] := by simpa using (run_require_eq_ok_iff.mp hne).1
      have hfew := length_runs_le hseparate
      refine ⟨length_flatMap_ordinals runs ▸ .runs hseparate, ?_, hbounded⟩
      intro hnil
      rw [PostingList.toVec] at hnil
      rw [hnil] at hfew
      exact hnonempty (eq_nil_of_length_eq_zero (Nat.le_zero.mp hfew))
    · cases h

end

end Postings

end ShardLog.Persistent
