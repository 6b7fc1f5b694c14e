import ShardLog.Structural.Block

/-!
# Structural blocks - lookups that cannot panic

The lookups of the embedded index once more, with every place where the source would
panic: an index that is out of range, a shift that is too wide, a failed `expect`.
The checks of the decoder rule all of them out, whatever bytes it accepts.

Main results:

- Theorem `embeddedFrameIndex_safe`: round trip and lookups of sections.
-/

namespace ShardLog.Structural

open ByteReader Utf8 Sorted Yields List

/-! ## Lookups with their panics

A lookup without a value stands for a panic. -/

/-- The number of one record, with the shift of its mask and its conversion. -/
def packedIdChecked (column : PackedIdColumn) (ordinal : Nat) : Option Nat :=
  if column.bitsPerId < 64 ∧ packedId column ordinal < 2 ^ 32 then some (packedId column ordinal)
  else none

/-- The loop over the records. -/
def selectOrdinals (column : PackedIdColumn) (selectedIds : List Bool) :
    List Nat → Option (List Nat)
  | [] => some []
  | ordinal :: rest => do
      let id ← packedIdChecked column ordinal
      let isSelected ← selectedIds[id]?
      let ordinals ← selectOrdinals column selectedIds rest
      some (if isSelected then ordinal :: ordinals else ordinals)

/-- The records that carry a selected number, under the `expect` of the lookups. -/
def matchingPackedIdsChecked (column : PackedIdColumn) (recordCount dictionaryCount : Nat)
    (selected : List Nat) : Option (List Nat) :=
  if selected = [] ∨ recordCount = 0 then some []
  else do
    let selectedIds ← (markSelected selected (List.replicate dictionaryCount false)).toOption
    selectOrdinals column selectedIds (List.range recordCount)

def MembershipFilter.mightContainChecked (filter : MembershipFilter) (hash : UInt64) :
    Option Bool := do
  let first ← filter.words[filterBit hash / 64]?
  if first &&& bitMask (filterBit hash) != 0 then
    let second ← filter.words[filterBit (secondHash hash) / 64]?
    some (second &&& bitMask (filterBit (secondHash hash)) != 0)
  else some false

def EmbeddedFrameIndex.locatedLayoutIdsChecked (index : EmbeddedFrameIndex) (normalized : Str) :
    Option (List Nat) :=
  match findBy EmbeddedTermLocator.term index.terms normalized with
  | some position => index.terms[position]?.map EmbeddedTermLocator.layoutIds
  | none => some []

def EmbeddedFrameIndex.termOrdinalsChecked (tables : UnicodeTables) (index : EmbeddedFrameIndex)
    (term : Str) : Option (List Nat) := do
  let normalized := normalizeIndexTerm tables term
  let isMember ← index.termMembership.mightContainChecked (membershipHash (utf8 normalized))
  if isMember then
    let located ← index.locatedLayoutIdsChecked normalized
    matchingPackedIdsChecked index.layoutIds index.recordCount index.layoutCount
      (sortDedup (index.residualLayoutIds ++ located))
  else some []

def EmbeddedFrameIndex.fieldOrdinalsChecked (index : EmbeddedFrameIndex) (key value : Str) :
    Option (List Nat) := do
  let isMember ←
    index.fieldMembership.mightContainChecked (membershipPairHash (utf8 key) (utf8 value))
  if isMember then
    match findBy EmbeddedFieldLocator.name index.fields (toLex (key, value)) with
    | none => some (List.range index.recordCount)
    | some position =>
      index.fields[position]?.bind fun locator => matchingPackedIdsChecked index.fieldSetIds
        index.recordCount index.fieldSetCount locator.fieldSetIds
  else some []

/-- The lookup panics nowhere, returns what the plain lookup returns, and lists
ordinals below the record count. -/
def Answers (recordCount : Nat) (checked : Option (List Nat)) (plain : LogDbResult (List Nat)) :
    Prop :=
  ∃ ordinals, checked = some ordinals ∧ plain = .ok ordinals ∧
    ∀ ordinal ∈ ordinals, ordinal < recordCount

/-! ## Columns and filters -/

/-- What the decoder has checked of a packed column. -/
structure ColumnAccepted (column : PackedIdColumn) (dictionaryCount recordCount : Nat) : Prop where
  count : dictionaryCount < 2 ^ 32
  bits : column.bitsPerId < 64
  ids : ∀ ordinal < recordCount, packedId column ordinal < dictionaryCount

variable {column : PackedIdColumn} {dictionaryCount recordCount : Nat} {selected : List Nat}
  {marks : List Bool}

theorem length_of_markSelected {result : List Bool} (h : markSelected selected marks = .ok result) :
    result.length = marks.length := by
  induction selected generalizing marks with
  | nil =>
    cases h
    rfl
  | cons first rest ih =>
    rcases bind_eq_ok_iff.mp h with ⟨_, _, h⟩
    rw [ih h, length_set]

/-- Marks and numbers are in range, so selecting does not fail. -/
theorem selectOrdinals_eq (h : ColumnAccepted column marks.length recordCount) {ordinals : List Nat}
    (hordinals : ∀ ordinal ∈ ordinals, ordinal < recordCount) :
    selectOrdinals column marks ordinals =
      some (ordinals.filter fun ordinal => marks.getD (packedId column ordinal) false) := by
  induction ordinals with
  | nil => rfl
  | cons ordinal rest ih =>
    obtain ⟨hordinal, hrest⟩ := forall_mem_cons.mp hordinals
    have hid := h.ids ordinal hordinal
    have hread : packedIdChecked column ordinal = some (packedId column ordinal) :=
      if_pos ⟨h.bits, hid.trans h.count⟩
    simp [selectOrdinals, hread, hid, ih hrest, filter_cons]

/-- Over an accepted column a selection of its numbers panics nowhere. -/
theorem ColumnAccepted.matching (h : ColumnAccepted column dictionaryCount recordCount)
    (hselected : ∀ id ∈ selected, id < dictionaryCount) :
    Answers recordCount (matchingPackedIdsChecked column recordCount dictionaryCount selected)
      (matchingPackedIds column recordCount dictionaryCount selected) := by
  have hplain := @matchingPackedIds_eq_ok dictionaryCount column selected recordCount hselected
  refine ⟨_, ?_, hplain, (ordinalsBelow_filter _ _).2⟩
  unfold matchingPackedIds at hplain
  unfold matchingPackedIdsChecked
  split at hplain
  · rename_i htrivial
    rw [if_pos htrivial, Except.ok.inj hplain]
  · rename_i hmore
    rcases bind_eq_ok_iff.mp hplain with ⟨marks, hmarks, hordinals⟩
    have hlength := length_of_markSelected hmarks
    rw [length_replicate] at hlength
    rw [if_neg hmore, hmarks, ← Except.ok.inj hordinals]
    exact selectOrdinals_eq (hlength ▸ h) fun _ => mem_range.mp

/-- Filter words are in range, so a test does not fail. -/
theorem mightContainChecked_eq (filter : MembershipFilter) (hash : UInt64) :
    filter.mightContainChecked hash = some (filter.mightContainHash hash) := by
  have hword : ∀ hash, filter.words[filterBit hash / 64]? =
      some (filter.words[filterBit hash / 64]?.getD 0) := by
    intro hash
    simp [filterBit_lt filter hash]
  unfold MembershipFilter.mightContainChecked MembershipFilter.mightContainHash
  rw [hword hash, hword (secondHash hash)]
  simp only [Option.bind_eq_bind, Option.bind_some, all_cons, all_nil, Bool.and_true, testFilterBit]
  split
  · rename_i hset
    rw [hset, Bool.true_and]
  · rename_i hclear
    rw [Bool.not_eq_true] at hclear
    rw [hclear, Bool.false_and]

/-! ## Lookups in an accepted index -/

/-- What the decoder has checked of an index. -/
structure EmbeddedFrameIndex.Accepted (index : EmbeddedFrameIndex) : Prop where
  layouts : ColumnAccepted index.layoutIds index.layoutCount index.recordCount
  residual : ∀ id ∈ index.residualLayoutIds, id < index.layoutCount
  terms : ∀ locator ∈ index.terms, ∀ id ∈ locator.layoutIds, id < index.layoutCount
  fieldSets : ColumnAccepted index.fieldSetIds index.fieldSetCount index.recordCount
  fields : ∀ locator ∈ index.fields, ∀ id ∈ locator.fieldSetIds, id < index.fieldSetCount

variable {index : EmbeddedFrameIndex} (h : index.Accepted)

include h

/-- Located layouts are in range. -/
theorem EmbeddedFrameIndex.Accepted.located (normalized : Str) :
    index.locatedLayoutIdsChecked normalized = some (index.locatedLayoutIds normalized) ∧
      ∀ id ∈ index.locatedLayoutIds normalized, id < index.layoutCount := by
  unfold EmbeddedFrameIndex.locatedLayoutIdsChecked EmbeddedFrameIndex.locatedLayoutIds
  cases hfind : findBy EmbeddedTermLocator.term index.terms normalized with
  | none => exact ⟨rfl, by simp⟩
  | some position =>
    rcases findBy_eq_some hfind with ⟨locator, hlocator, _⟩
    dsimp only
    rw [hlocator]
    exact ⟨rfl, h.terms locator (mem_of_getElem? hlocator)⟩

/-- Term lookups answer. -/
theorem EmbeddedFrameIndex.Accepted.termOrdinals (tables : UnicodeTables) (term : Str) :
    Answers index.recordCount (index.termOrdinalsChecked tables term)
      (index.termCandidateOrdinals tables term) := by
  obtain ⟨hchecked, hlocated⟩ := h.located (normalizeIndexTerm tables term)
  unfold EmbeddedFrameIndex.termOrdinalsChecked EmbeddedFrameIndex.termCandidateOrdinals
  dsimp only
  rw [mightContainChecked_eq, MembershipFilter.mightContain, hchecked]
  dsimp only [Option.bind_eq_bind, Option.bind_some]
  split
  · apply h.layouts.matching
    intro id hid
    rcases mem_append.mp (mem_sortDedup.mp hid) with hin | hin
    · exact h.residual id hin
    · exact hlocated id hin
  · exact ⟨[], rfl, rfl, by simp⟩

/-- Field lookups answer. -/
theorem EmbeddedFrameIndex.Accepted.fieldOrdinals (key value : Str) :
    Answers index.recordCount (index.fieldOrdinalsChecked key value)
      (index.fieldCandidateOrdinals key value) := by
  unfold EmbeddedFrameIndex.fieldOrdinalsChecked EmbeddedFrameIndex.fieldCandidateOrdinals
  rw [mightContainChecked_eq, MembershipFilter.mightContainPair]
  dsimp only [Option.bind_eq_bind, Option.bind_some]
  split
  · cases hfind : findBy EmbeddedFieldLocator.name index.fields (toLex (key, value)) with
    | none => exact ⟨_, rfl, rfl, (ordinalsBelow_range _).2⟩
    | some position =>
      rcases findBy_eq_some hfind with ⟨locator, hlocator, _⟩
      dsimp only
      rw [hlocator]
      exact h.fieldSets.matching (h.fields locator (mem_of_getElem? hlocator))
  · exact ⟨[], rfl, rfl, by simp⟩

omit h

/-! ## What the decoder checks -/

theorem yields_columnAccepted (recordCount : Nat) :
    Yields (readPackedColumn recordCount) fun column =>
      ColumnAccepted column.2 column.1 recordCount := by
  intro s column t h
  obtain ⟨hcount, hpacks⟩ := yields_readPackedColumn recordCount s column t h
  refine ⟨hcount, ?_, fun ordinal hordinal => hpacks.bounded _ ?_⟩
  · rw [hpacks.bits]
    exact lt_of_le_of_lt (bitsForDictionary_le hcount) (by decide)
  · exact mem_map_of_mem (mem_range.mpr hordinal)

theorem yields_readIdDeltas (upperBound : Nat) :
    ∀ count previous, Yields (readIdDeltas upperBound count previous) fun ids =>
      ∀ id ∈ ids, id < upperBound := by
  intro count
  induction count with
  | zero => exact fun _ => yields_pure (by simp)
  | succ count ih =>
    intro previous
    refine bind_any fun delta => require fun _ => require fun hnext => ?_
    refine (ih _).bind fun rest hrest => yields_pure ?_
    exact forall_mem_cons.mpr ⟨(of_decide_eq_true hnext).2, hrest⟩

/-- Numbers that are read are in range. -/
theorem yields_readSortedIdsWithCount (upperBound count : Nat) :
    Yields (readSortedIdsWithCount upperBound count) fun ids => ∀ id ∈ ids, id < upperBound := by
  refine require fun _ => bind_any fun _ => bind_any fun first => ?_
  refine require fun hfirst => (yields_readIdDeltas _ _ _).bind fun rest hrest => ?_
  exact yields_pure (forall_mem_cons.mpr ⟨of_decide_eq_true hfirst, hrest⟩)

theorem yields_readOrdered {α κ : Type} [LinearOrder κ] {item : BlockReader α} {key : α → κ}
    {disordered : LogDbError} {property : α → Prop} (h : Yields item property) :
    ∀ count previous, Yields (readOrdered item key disordered count previous) fun items =>
      ∀ item ∈ items, property item := by
  intro count
  induction count with
  | zero => exact fun _ => yields_pure (by simp)
  | succ count ih =>
    intro previous
    refine h.bind fun value hvalue => require fun _ => (ih _).bind fun rest hrest => ?_
    exact yields_pure (forall_mem_cons.mpr ⟨hvalue, hrest⟩)

/-- A decoded index is accepted. -/
theorem accepted_of_decode {encoded : Bytes} (h : EmbeddedFrameIndex.decode encoded = .ok index) :
    index.Accepted := by
  obtain ⟨final, hrun, _⟩ := readComponent_eq_ok_iff.mp h
  refine (?_ : Yields _ EmbeddedFrameIndex.Accepted) _ index _ hrun
  refine bind_any fun _ => bind_any fun recordCount => ?_
  refine (yields_columnAccepted recordCount).bind fun layouts hlayouts => ?_
  have hsorted : ∀ bound, Yields (readSortedIds bound) fun ids => ∀ id ∈ ids, id < bound :=
    fun bound => bind_any fun _ => yields_readSortedIdsWithCount bound _
  have hoptional : Yields (readOptionalSortedIds layouts.1) fun ids =>
      ∀ id ∈ ids, id < layouts.1 := by
    refine bind_any fun count => ?_
    split
    · exact yields_pure (by simp)
    · exact yields_readSortedIdsWithCount _ _
  refine hoptional.bind fun residual hresidual => bind_any fun termMembership => ?_
  refine bind_any fun _ => bind_any fun _ => ?_
  have hterm : Yields (readTermLocator layouts.1) fun locator =>
      ∀ id ∈ locator.layoutIds, id < layouts.1 :=
    bind_any fun _ => (hsorted _).bind fun _ hids => yields_pure hids
  refine (yields_readOrdered hterm _ _).bind fun terms hterms => ?_
  refine (yields_columnAccepted recordCount).bind fun fieldSets hfieldSets => ?_
  refine bind_any fun fieldMembership => bind_any fun _ => bind_any fun _ => ?_
  have hfield : Yields (readFieldLocator fieldSets.1) fun locator =>
      ∀ id ∈ locator.fieldSetIds, id < fieldSets.1 :=
    bind_any fun _ => bind_any fun _ => (hsorted _).bind fun _ hids => yields_pure hids
  refine (yields_readOrdered hfield _ _).bind fun fields hfields => yields_pure ?_
  exact ⟨hlayouts, hresidual, hterms, hfieldSets, hfields⟩

/-! ## Sections -/

/-- A built index reads back with the same answers; an index read from any bytes answers without a
panic, with ordinals of its records. -/
theorem embeddedFrameIndex_safe (tables : UnicodeTables) :
    (∀ messages templateIds attributes fields index encoded,
      EmbeddedFrameIndex.build tables messages templateIds attributes fields = .ok index →
      index.encode = .ok encoded →
      ∃ decoded, decodeEmbeddedFrameIndexSection encoded index.recordCount = .ok decoded ∧
        (∀ term, decoded.termOrdinalsChecked tables term = index.termOrdinalsChecked tables term) ∧
        ∀ key value, decoded.fieldOrdinalsChecked key value =
          index.fieldOrdinalsChecked key value) ∧
    ∀ encoded recordCount index, decodeEmbeddedFrameIndexSection encoded recordCount = .ok index →
      (∀ term, Answers recordCount (index.termOrdinalsChecked tables term)
        (index.termCandidateOrdinals tables term)) ∧
      ∀ key value, Answers recordCount (index.fieldOrdinalsChecked key value)
        (index.fieldCandidateOrdinals key value) := by
  constructor
  · intro messages templateIds attributes fields index encoded hbuild hencoded
    rcases build_spec hbuild with ⟨fallbackLayoutId, builder, fieldSets, hindex⟩
    refine ⟨index, ?_, fun _ => rfl, fun _ _ => rfl⟩
    rw [decodeEmbeddedFrameIndexSection, decode_encode hindex.wellFormed hencoded, ok_bind,
      ensure_of_true rfl, ok_bind]
  · intro encoded recordCount index h
    rcases bind_eq_ok_iff.mp h with ⟨decoded, hdecoded, h⟩
    rcases bind_eq_ok_iff.mp h with ⟨_, hcount, h⟩
    cases h
    rw [← ensure_eq_ok_iff.mp hcount]
    have haccepted := accepted_of_decode hdecoded
    exact ⟨haccepted.termOrdinals tables, haccepted.fieldOrdinals⟩

theorem embeddedFrameIndex_safe_sampleRecords : ∃ block encoded decoded,
    encodeIndexedStructuralRecords latinTables wordPco (Placement.byContent sampleRecords) =
      .ok block ∧ block.index.encode = .ok encoded ∧
    decodeEmbeddedFrameIndexSection encoded block.index.recordCount = .ok decoded ∧
    Answers block.index.recordCount (decoded.termOrdinalsChecked latinTables "get".toList)
      (decoded.termCandidateOrdinals latinTables "get".toList) := by
  rcases exists_sampleBlock with ⟨block, hblock⟩
  rcases exists_piecesOf hblock with ⟨pieces, hpieces⟩
  obtain ⟨decoded, hdecoded, _⟩ := (embeddedFrameIndex_safe latinTables).1 _ _ _ _ _ _
    hpieces.index hpieces.indexBytes
  exact ⟨block, _, decoded, hblock, hpieces.indexBytes, hdecoded,
    ((embeddedFrameIndex_safe latinTables).2 _ _ _ hdecoded).1 _⟩

end ShardLog.Structural
