import ShardLog.Foundation.BitPack
import ShardLog.Structural.Lane

/-!
# Structural blocks - packed columns and sorted identifiers

The embedded index stores, for every record, the number of its layout and of
its field set in a bit-packed column, and for every term or field the sorted
numbers of the layouts or field sets that contain it.

Main results:

- Theorem `packIds_roundTrip`: a packed column holds the numbers it was built from,
  and an accepted column is the packing of its numbers.
- Theorem `matchingPackedIds_eq_ok`: selecting by numbers selects exactly the
  records that carry one of them.
-/

namespace ShardLog.Structural

open ByteReader BitPack Reads List

/-! ## Packed columns -/

structure PackedIdColumn where
  bitsPerId : Nat
  values : Bytes
deriving DecidableEq, Repr

/-- Bits of the largest number below a dictionary size. -/
def bitsForDictionary (dictionaryCount : Nat) : Nat :=
  if dictionaryCount ≤ 1 then 0 else Nat.log2 (dictionaryCount - 1) + 1

/-- Pack the numbers of a column. -/
def packIds (ids : List Nat) (dictionaryCount : Nat) : LogDbResult PackedIdColumn := do
  ensure (¬((ids = [] ∧ dictionaryCount ≠ 0) ∨
      (ids ≠ [] ∧ (dictionaryCount = 0 ∨ ids.length < dictionaryCount)) ∨
      ∃ id ∈ ids, dictionaryCount ≤ id)) (invalid "invalid packed ID dictionary")
  let bitsPerId := bitsForDictionary dictionaryCount
  if bitsPerId = 0 then .ok ⟨bitsPerId, []⟩
  else do
    ensure (ids.length * bitsPerId < 2 ^ 64) .recordTooLarge
    .ok ⟨bitsPerId, pack bitsPerId ids⟩

/-- The number of one record. -/
def packedId (column : PackedIdColumn) (ordinal : Nat) : Nat :=
  if column.bitsPerId = 0 then 0 else unpack column.bitsPerId column.values ordinal

/-- Mark the selected numbers. -/
def markSelected : List Nat → List Bool → LogDbResult (List Bool)
  | [], marks => .ok marks
  | id :: ids, marks => do
      ensure (id < marks.length) (invalid "embedded locator ID is out of range")
      markSelected ids (marks.set id true)

/-- The records that carry a selected number. -/
def matchingPackedIds (column : PackedIdColumn) (recordCount dictionaryCount : Nat)
    (selected : List Nat) : LogDbResult (List Nat) :=
  if selected = [] ∨ recordCount = 0 then .ok []
  else do
    let selectedIds ← markSelected selected (List.replicate dictionaryCount false)
    .ok ((List.range recordCount).filter fun ordinal =>
      selectedIds.getD (packedId column ordinal) false)

def encodePackedColumn (column : PackedIdColumn) (dictionaryCount : Nat) : LogDbResult Bytes := do
  let values ← appendBytes column.values
  .ok (writeVarint dictionaryCount ++ UInt8.ofNat column.bitsPerId :: values)

/-- The bits after the last number of a column are zero. -/
def paddingIsZero (column : PackedIdColumn) (recordCount : Nat) : Bool :=
  match column.values.getLast? with
  | none => true
  | some last =>
    let usedBits := recordCount * column.bitsPerId % 8
    usedBits == 0 || last.toNat >>> usedBits == 0

/-- The column of `recordCount` records.  The product of a 32-bit count and a
width of at most 32 bits does not overflow. -/
def readPackedColumn (recordCount : Nat) : BlockReader (Nat × PackedIdColumn) := do
  let dictionaryCount ← readU32
  require (!((recordCount == 0 && dictionaryCount != 0) ||
      (recordCount != 0 && (dictionaryCount == 0 || decide (recordCount < dictionaryCount)))))
    (invalid "invalid embedded dictionary count")
  let bitsPerId ← readByte
  require (bitsPerId.toNat == bitsForDictionary dictionaryCount)
    (invalid "noncanonical packed ID width")
  let values ← readBytes
  require (values.length == divCeil (recordCount * bitsPerId.toNat) 8)
    (invalid "packed ID column length mismatch")
  let column : PackedIdColumn := ⟨bitsPerId.toNat, values⟩
  require ((List.range recordCount).all fun ordinal =>
      decide (packedId column ordinal < dictionaryCount))
    (invalid "packed ID exceeds its dictionary")
  require (paddingIsZero column recordCount) (invalid "packed ID padding is nonzero")
  pure (dictionaryCount, column)

/-! ## Sorted identifiers -/

/-- Differences of neighbouring identifiers. -/
def idDeltas : Nat → List Nat → Bytes
  | _, [] => []
  | previous, id :: ids => writeVarint (id - previous) ++ idDeltas id ids

def encodeSortedIds (ids : List Nat) (upperBound : Nat) : LogDbResult Bytes :=
  match ids with
  | [] => .error (invalid "embedded locator IDs are invalid")
  | first :: rest => do
      ensure ((first :: rest).IsChain (· < ·) ∧ ∀ last ∈ (first :: rest).getLast?, last < upperBound)
        (invalid "embedded locator IDs are invalid")
      let count ← writeCount (first :: rest).length
      .ok (count ++ (writeVarint first ++ idDeltas first rest))

def encodeOptionalSortedIds (ids : List Nat) (upperBound : Nat) : LogDbResult Bytes :=
  if ids = [] then .ok (writeVarint 0) else encodeSortedIds ids upperBound

def readIdDeltas (upperBound : Nat) : Nat → Nat → BlockReader (List Nat)
  | 0, _ => pure []
  | count + 1, previous => do
      let delta ← readU32
      require (delta != 0) (invalid "embedded locator IDs are not ordered")
      let next := previous + delta
      require (decide (next < 2 ^ 32 ∧ next < upperBound))
        (invalid "embedded locator ID is out of range")
      let rest ← readIdDeltas upperBound count next
      pure (next :: rest)

def readSortedIdsWithCount (upperBound count : Nat) : BlockReader (List Nat) := do
  require (count != 0) (invalid "invalid embedded locator count")
  requireRemaining count (invalid "invalid embedded locator count")
  let first ← readU32
  require (decide (first < upperBound)) (invalid "embedded locator ID is out of range")
  let rest ← readIdDeltas upperBound (count - 1) first
  pure (first :: rest)

def readSortedIds (upperBound : Nat) : BlockReader (List Nat) := do
  let count ← readUsize
  readSortedIdsWithCount upperBound count

def readOptionalSortedIds (upperBound : Nat) : BlockReader (List Nat) := do
  let count ← readUsize
  if count = 0 then pure [] else readSortedIdsWithCount upperBound count

/-! ## Numbers of a packed column -/

variable {dictionaryCount : Nat} {ids : List Nat} {column : PackedIdColumn} {selected : List Nat}
  {bytes : Bytes} {upperBound : Nat}

/-- The width suffices for the numbers. -/
theorem lt_two_pow_bitsForDictionary {id : Nat} (h : id < dictionaryCount) :
    id < 2 ^ bitsForDictionary dictionaryCount := by
  unfold bitsForDictionary
  by_cases hsmall : dictionaryCount ≤ 1
  · rw [if_pos hsmall, pow_zero]
    omega
  · rw [if_neg hsmall]
    have hlast : dictionaryCount - 1 < 2 ^ (Nat.log2 (dictionaryCount - 1) + 1) := Nat.lt_log2_self
    omega

theorem bitsForDictionary_le (h : dictionaryCount < 2 ^ 32) :
    bitsForDictionary dictionaryCount ≤ 32 := by
  unfold bitsForDictionary
  by_cases hsmall : dictionaryCount ≤ 1
  · rw [if_pos hsmall]
    omega
  · rw [if_neg hsmall]
    have hlog : Nat.log2 (dictionaryCount - 1) < 32 := (Nat.log2_lt (by omega)).mpr (by omega)
    omega

/-- A column packed from these numbers below the dictionary size. -/
structure Packs (column : PackedIdColumn) (dictionaryCount : Nat) (ids : List Nat) : Prop where
  empty : ids = [] → dictionaryCount = 0
  count : dictionaryCount ≤ ids.length
  bounded : ∀ id ∈ ids, id < dictionaryCount
  bits : column.bitsPerId = bitsForDictionary dictionaryCount
  values : column.values = pack column.bitsPerId ids

/-- What packing gives. -/
theorem packs_of_packIds (h : packIds ids dictionaryCount = .ok column) :
    Packs column dictionaryCount ids := by
  rcases bind_eq_ok_iff.mp h with ⟨_, hvalid, h⟩
  have hvalid := ensure_eq_ok_iff.mp hvalid
  have hempty : ids = [] → dictionaryCount = 0 := by
    intro hnil
    by_contra hcount
    exact hvalid (.inl ⟨hnil, hcount⟩)
  have hbounded : ∀ id ∈ ids, id < dictionaryCount := by grind
  have hcount : dictionaryCount ≤ ids.length := by grind
  dsimp only at h
  split at h
  · rename_i hzero
    cases h
    refine ⟨hempty, hcount, hbounded, rfl, ?_⟩
    apply (eq_nil_of_length_eq_zero _).symm
    rw [length_pack, hzero, Nat.mul_zero]
  · rcases bind_eq_ok_iff.mp h with ⟨_, _, h⟩
    cases h
    exact ⟨hempty, hcount, hbounded, rfl, rfl⟩

/-- A packed column holds its numbers. -/
theorem Packs.packedId_eq (h : Packs column dictionaryCount ids) (hcount : dictionaryCount < 2 ^ 32)
    {ordinal : Nat} (hordinal : ordinal < ids.length) : packedId column ordinal = ids[ordinal] := by
  have hbound := h.bounded _ (getElem_mem hordinal)
  unfold packedId
  by_cases hzero : column.bitsPerId = 0
  · rw [if_pos hzero]
    have hlt := lt_two_pow_bitsForDictionary hbound
    rw [← h.bits, hzero, pow_zero] at hlt
    omega
  · rw [if_neg hzero, h.values]
    apply unpack_pack
    · rw [h.bits]
      exact bitsForDictionary_le hcount
    · intro id hid
      rw [h.bits]
      exact lt_two_pow_bitsForDictionary (h.bounded id hid)

/-- Marks are set at the selected numbers. -/
theorem markSelected_eq_ok {marks : List Bool} (hbound : ∀ id ∈ selected, id < marks.length) :
    ∃ result, markSelected selected marks = .ok result ∧
      ∀ id, result.getD id false = (marks.getD id false || decide (id ∈ selected)) := by
  induction selected generalizing marks with
  | nil => exact ⟨marks, rfl, by simp⟩
  | cons first selected ih =>
    have hfirst := hbound first mem_cons_self
    have hrest : ∀ id ∈ selected, id < (marks.set first true).length := by grind
    rcases ih hrest with ⟨result, hresult, hmarks⟩
    refine ⟨result, ?_, ?_⟩
    · rw [markSelected, ensure_of_true hfirst, ok_bind, hresult]
    · grind

/-- Selecting by numbers below the dictionary size selects the records that
carry one of them, in order. -/
theorem matchingPackedIds_eq_ok {recordCount : Nat} (h : ∀ id ∈ selected, id < dictionaryCount) :
    matchingPackedIds column recordCount dictionaryCount selected =
      .ok ((range recordCount).filter fun ordinal =>
        decide (packedId column ordinal ∈ selected)) := by
  unfold matchingPackedIds
  by_cases htrivial : selected = [] ∨ recordCount = 0
  · rw [if_pos htrivial]
    rcases htrivial with rfl | rfl
    · simp
    · simp
  · rw [if_neg htrivial]
    rcases @markSelected_eq_ok selected (replicate dictionaryCount false)
      (by simpa using h) with ⟨marks, hmarks, hget⟩
    rw [hmarks, ok_bind]
    congr 1
    apply filter_congr
    intro ordinal _
    have hunmarked : (replicate dictionaryCount false).getD (packedId column ordinal) false =
        false := by simp
    rw [hget, hunmarked, Bool.false_or]

/-! ## Reading columns back -/

/-- The last byte of a packed column has zeros above its used bits. -/
theorem Packs.paddingIsZero_eq (h : Packs column dictionaryCount ids) :
    paddingIsZero column ids.length = true := by
  unfold paddingIsZero
  cases hlast : column.values.getLast? with
  | none => rfl
  | some last =>
    rcases getLast?_eq_some_iff.mp hlast with ⟨before, hbefore⟩
    rw [h.values] at hbefore
    rw [Bool.or_eq_true, beq_iff_eq, beq_iff_eq]
    by_cases hused : ids.length * column.bitsPerId % 8 = 0
    · exact .inl hused
    · right
      rw [Nat.shiftRight_eq_div_pow]
      apply Nat.div_eq_of_lt
      apply last_lt_of_pack _ hbefore hused
      intro id hid
      rw [h.bits]
      exact lt_two_pow_bitsForDictionary (h.bounded id hid)

/-- A packed column is read back. -/
theorem reads_readPackedColumn (h : Packs column dictionaryCount ids)
    (hcount : dictionaryCount < 2 ^ 32)
    (hbytes : encodePackedColumn column dictionaryCount = .ok bytes) :
    Reads (readPackedColumn ids.length) bytes (dictionaryCount, column) := by
  rcases bind_eq_ok_iff.mp hbytes with ⟨values, hvalues, hbytes⟩
  cases hbytes
  have hbits := bitsForDictionary_le hcount
  rw [← h.bits] at hbits
  have hwidth : (UInt8.ofNat column.bitsPerId).toNat = column.bitsPerId := by
    rw [UInt8.toNat_ofNat']
    omega
  refine (reads_readU32 hcount).bind ?_
  refine require_bind ?_ ?_
  · have hempty : ids.length = 0 → dictionaryCount = 0 := fun hzero =>
      h.empty (eq_nil_of_length_eq_zero hzero)
    have hle := h.count
    have hpos : ids.length ≠ 0 → dictionaryCount ≠ 0 := by
      intro hne hzero
      rcases exists_mem_of_length_pos (Nat.pos_of_ne_zero hne) with ⟨id, hid⟩
      have := h.bounded id hid
      omega
    simp only [Bool.not_eq_true', Bool.or_eq_false_iff, Bool.and_eq_false_iff, beq_eq_false_iff_ne,
      bne_eq_false_iff_eq, decide_eq_false_iff_not, not_lt]
    by_cases hzero : ids.length = 0
    · exact ⟨.inr (hempty hzero), .inl hzero⟩
    · exact ⟨.inl hzero, .inr ⟨hpos hzero, hle⟩⟩
  · refine (reads_readByte _).bind ?_
    rw [hwidth]
    refine require_bind (by simp [h.bits]) ?_
    refine (reads_readBytes hvalues).bind_nil ?_
    refine require_bind ?_ ?_
    · rw [h.values, length_pack, divCeil, beq_iff_eq]
      omega
    · dsimp only
      refine require_bind ?_ (require_bind h.paddingIsZero_eq (reads_pure _))
      rw [all_eq_true]
      intro ordinal hordinal
      have hlt := mem_range.mp hordinal
      rw [decide_eq_true_eq]
      rw [h.packedId_eq hcount hlt]
      exact h.bounded _ (getElem_mem hlt)

/-! ## Columns that are accepted -/

theorem yields_readU32 : Yields readU32 (· < 2 ^ 32) :=
  Yields.bind_any fun _ => Yields.require fun h => yields_pure (of_decide_eq_true h)

/-- Numbers are unpacked one by one. -/
theorem packedId_eq_unpack (h : column.bitsPerId ≤ 32) :
    packedId column = unpack column.bitsPerId column.values := by
  funext ordinal
  unfold packedId
  split
  · rename_i hzero
    rw [unpack_eq h, hzero, pow_zero, Nat.mod_one]
  · rfl

/-- A column that is accepted is packed from the numbers it holds. -/
theorem yields_readPackedColumn (recordCount : Nat) :
    Yields (readPackedColumn recordCount) fun column => column.1 < 2 ^ 32 ∧
      Packs column.2 column.1 ((range recordCount).map (packedId column.2)) := by
  refine yields_readU32.bind fun dictionaryCount hcount => Yields.require fun hsize => ?_
  refine Yields.bind_any fun bits => Yields.require fun hbits => ?_
  refine Yields.bind_any fun values => Yields.require fun hlength => ?_
  refine Yields.require fun hids => Yields.require fun hpadding => yields_pure ⟨hcount, ?_⟩
  have hwidth := bitsForDictionary_le hcount
  rw [← beq_iff_eq.mp hbits] at hwidth
  have hlength := beq_iff_eq.mp hlength
  simp only [Bool.not_eq_true', Bool.or_eq_false_iff, Bool.and_eq_false_iff, beq_eq_false_iff_ne,
    bne_eq_false_iff_eq, decide_eq_false_iff_not, not_lt] at hsize
  refine ⟨?_, ?_, ?_, beq_iff_eq.mp hbits, ?_⟩
  · intro hnil
    have hzero : recordCount = 0 := by simpa using congrArg List.length hnil
    exact hsize.1.resolve_left fun hne => hne hzero
  · rw [length_map, length_range]
    grind
  · intro id hid
    obtain ⟨ordinal, hordinal, rfl⟩ := mem_map.mp hid
    exact of_decide_eq_true (all_eq_true.mp hids ordinal hordinal)
  · rw [packedId_eq_unpack hwidth]
    refine (pack_unpack hwidth (by rw [hlength, divCeil]; omega) ?_).symm
    intro last hlast hused
    rw [paddingIsZero, Option.mem_def.mp hlast, Bool.or_eq_true, beq_iff_eq, beq_iff_eq,
      Nat.shiftRight_eq_div_pow] at hpadding
    exact Nat.lt_of_div_eq_zero (by positivity) (hpadding.resolve_left hused)

/-- An accepted column was packed. -/
theorem packIds_of_packs (h : Packs column dictionaryCount ids) (hcount : dictionaryCount < 2 ^ 32)
    (hlength : ids.length < 2 ^ 32) : packIds ids dictionaryCount = .ok column := by
  have hvalid : ¬((ids = [] ∧ dictionaryCount ≠ 0) ∨
      (ids ≠ [] ∧ (dictionaryCount = 0 ∨ ids.length < dictionaryCount)) ∨
      ∃ id ∈ ids, dictionaryCount ≤ id) := by
    have hempty := h.empty
    have hle := h.count
    have hbounded := h.bounded
    cases ids with
    | nil => simp [hempty]
    | cons id rest =>
      have hfirst := hbounded id mem_cons_self
      grind
  have hwidth := bitsForDictionary_le hcount
  obtain ⟨bits, values⟩ := column
  obtain rfl : bits = bitsForDictionary dictionaryCount := h.bits
  obtain rfl : values = pack (bitsForDictionary dictionaryCount) ids := h.values
  rw [packIds, ensure_of_true hvalid, ok_bind]
  dsimp only
  split
  · rename_i hzero
    have hnil : pack (bitsForDictionary dictionaryCount) ids = [] := by
      apply eq_nil_of_length_eq_zero
      rw [length_pack, hzero, Nat.mul_zero]
    rw [hnil]
  · have hsize := Nat.mul_le_mul hlength.le hwidth
    rw [ensure_of_true (by omega), ok_bind]

/-- A packed column gives back its numbers and reads back; every accepted column was packed from the
numbers it holds. -/
theorem packIds_roundTrip :
    (∀ ids dictionaryCount column, dictionaryCount < 2 ^ 32 →
      packIds ids dictionaryCount = .ok column →
      (∀ ordinal (h : ordinal < ids.length), packedId column ordinal = ids[ordinal]) ∧
      ∀ bytes, encodePackedColumn column dictionaryCount = .ok bytes →
        Reads (readPackedColumn ids.length) bytes (dictionaryCount, column)) ∧
    ∀ recordCount < 2 ^ 32, ∀ s dictionaryCount column t,
      (readPackedColumn recordCount).run s = .ok ((dictionaryCount, column), t) →
      packIds ((List.range recordCount).map (packedId column)) dictionaryCount = .ok column := by
  constructor
  · intro ids dictionaryCount column hcount hpack
    have hpacks := packs_of_packIds hpack
    exact ⟨fun ordinal h => hpacks.packedId_eq hcount h, fun bytes hbytes =>
      reads_readPackedColumn hpacks hcount hbytes⟩
  · intro recordCount hrecords s dictionaryCount column t h
    obtain ⟨hcount, hpacks⟩ := yields_readPackedColumn recordCount s _ t h
    exact packIds_of_packs hpacks hcount (by simpa using hrecords)

/-! ## Reading sorted identifiers back -/

/-- Increasing numbers are read back. -/
theorem reads_readIdDeltas (hupper : upperBound < 2 ^ 32) {previous : Nat}
    (hchain : (previous :: ids).IsChain (· < ·)) (hbound : ∀ id ∈ ids, id < upperBound) :
    Reads (readIdDeltas upperBound ids.length previous) (idDeltas previous ids) ids := by
  induction ids generalizing previous with
  | nil => exact reads_pure []
  | cons id ids ih =>
    have hlt : previous < id := (isChain_cons_cons.mp hchain).1
    have hid := hbound id mem_cons_self
    have hsum : previous + (id - previous) = id := by omega
    refine (reads_readU32 (by omega)).bind ?_
    refine require_bind (by simp; omega) ?_
    rw [hsum]
    refine require_bind (by simp; omega) ?_
    exact (ih (isChain_cons_cons.mp hchain).2 fun other hother =>
      hbound other (mem_cons_of_mem _ hother)).bind_pure rfl

theorem length_le_idDeltas (ids : List Nat) :
    ∀ previous, ids.length ≤ (idDeltas previous ids).length := by
  induction ids with
  | nil => exact fun _ => Nat.zero_le _
  | cons id ids ih =>
    intro previous
    have hrest := ih id
    have hfirst : 0 < (writeVarint (id - previous)).length :=
      length_pos_iff.mpr (Integers.writeVarint_ne_nil _)
    rw [idDeltas, length_append, length_cons]
    omega

/-- In an increasing list a bound on the last item bounds all. -/
theorem lt_of_isChain_of_getLast (hchain : ids.IsChain (· < ·))
    (hlast : ∀ last ∈ ids.getLast?, last < upperBound) : ∀ id ∈ ids, id < upperBound := by
  intro id hid
  cases hend : ids.getLast? with
  | none =>
    rw [getLast?_eq_none_iff.mp hend] at hid
    cases hid
  | some last =>
    have hbound := hlast last hend
    rcases getLast?_eq_some_iff.mp hend with ⟨before, rfl⟩
    have hpairs := (pairwise_append.mp hchain.pairwise).2.2
    rcases mem_append.mp hid with hin | hin
    · exact (hpairs id hin last mem_cons_self).trans hbound
    · rw [mem_singleton.mp hin]
      exact hbound

section

variable (hupper : upperBound < 2 ^ 32)

include hupper

/-- Identifiers that pass the encoder's checks, after their count. -/
theorem encodeSortedIds_eq_ok (h : encodeSortedIds ids upperBound = .ok bytes) :
    ids.length ≠ 0 ∧ ∃ count body, writeCount ids.length = .ok count ∧ bytes = count ++ body ∧
      Reads (readSortedIdsWithCount upperBound ids.length) body ids := by
  cases ids with
  | nil => cases h
  | cons first rest =>
    rcases bind_eq_ok_iff.mp h with ⟨_, hvalid, h⟩
    rcases bind_eq_ok_iff.mp h with ⟨count, hcount, h⟩
    cases h
    rcases ensure_eq_ok_iff.mp hvalid with ⟨hchain, hlast⟩
    refine ⟨Nat.succ_ne_zero _, count, _, hcount, rfl, ?_⟩
    have hbound := lt_of_isChain_of_getLast hchain hlast
    refine require_bind (by simp) ?_
    refine requireRemaining_bind ?_ ?_
    · have hfirst : 0 < (writeVarint first).length :=
        length_pos_iff.mpr (Integers.writeVarint_ne_nil _)
      have hrest := length_le_idDeltas rest first
      rw [length_append, length_cons]
      omega
    · have hfirst := hbound first mem_cons_self
      refine (reads_readU32 (by omega)).bind ?_
      refine require_bind (decide_eq_true hfirst) ?_
      exact (reads_readIdDeltas hupper hchain fun id hid =>
        hbound id (mem_cons_of_mem _ hid)).bind_pure rfl

/-- A nonempty sorted list reads back. -/
theorem reads_readSortedIds (h : encodeSortedIds ids upperBound = .ok bytes) :
    Reads (readSortedIds upperBound) bytes ids := by
  rcases encodeSortedIds_eq_ok hupper h with ⟨_, count, body, hcount, rfl, hbody⟩
  exact (reads_readUsize_of_writeCount hcount).bind hbody

/-- A possibly empty sorted list reads back. -/
theorem reads_readOptionalSortedIds (h : encodeOptionalSortedIds ids upperBound = .ok bytes) :
    Reads (readOptionalSortedIds upperBound) bytes ids := by
  unfold encodeOptionalSortedIds at h
  by_cases hempty : ids = []
  · rw [if_pos hempty] at h
    cases h
    rw [hempty]
    exact (reads_readUsize (by decide)).bind_pure (if_pos rfl)
  · rw [if_neg hempty] at h
    rcases encodeSortedIds_eq_ok hupper h with ⟨hne, count, body, hcount, rfl, hbody⟩
    refine (reads_readUsize_of_writeCount hcount).bind ?_
    rw [if_neg hne]
    exact hbody

end

end ShardLog.Structural
