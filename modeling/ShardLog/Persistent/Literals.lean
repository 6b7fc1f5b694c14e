import ShardLog.Persistent.Candidates

/-!
# Persistent index - Message literals and trigram rejection

When the trigram filter keeps a block that holds a message accepted by a literal
text matcher.  Both sides are lowercased before their trigrams are compared, and
the lowercase form of a capital sigma depends on the text around it, so that the
lowercase form of a part need not be a part of the lowercase form.

Main results:

- Theorem `literal_block_kept_iff`: a block with an accepted message is kept,
  whatever else it holds, exactly when the trigrams of the literal are among those
  of the message.
- Theorem `final_sigma_block_rejected`: a block is lost for a case-sensitive literal
  that ends in a capital sigma.
-/

namespace ShardLog.Persistent

open Utf8 Sorted SealedBlock List

variable {tables : UnicodeTables} {message : Str} {matcher : TextMatcher} {literal : Str}

/-! ## Accepted literals occur in the message -/

/-- The search finds parts. -/
theorem containsText_iff {haystack needle : Str} :
    containsText haystack needle = true ↔ needle <:+: haystack := by
  simp only [containsText, any_eq_true, mem_tails, isPrefixOf_iff_prefix, infix_iff_prefix_suffix]
  constructor
  · rintro ⟨rest, hsuffix, hprefix⟩
    exact ⟨rest, hprefix, hsuffix⟩
  · rintro ⟨rest, hprefix, hsuffix⟩
    exact ⟨rest, hsuffix, hprefix⟩

/-- A case-sensitive matcher accepts only messages with the literal as a part. -/
theorem infix_of_sensitive (hcase : matcher.caseSensitivity = .sensitive)
    (h : textMatches tables message matcher = true) : matcher.value <:+: message := by
  cases hkind : matcher.kind with
  | exact =>
    simp only [textMatches, hkind, hcase, textEqual, beq_iff_eq] at h
    rw [h]
  | contains =>
    simp only [textMatches, hkind, hcase, textContains] at h
    split at h
    · grind
    · exact containsText_iff.mp h
  | startsWith =>
    simp only [textMatches, hkind, hcase, textPrefix, isPrefixOf_iff_prefix] at h
    exact h.isInfix
  | endsWith =>
    simp only [textMatches, hkind, hcase, textSuffix, isSuffixOf_iff_suffix] at h
    exact h.isInfix

/-- Parts of ASCII texts equal up to case have the same lowercase form. -/
theorem isInfix_toLowercase_of_window (laws : tables.Lawful) {window : Str}
    (hascii : (isAscii message && isAscii literal) = true) (hwindow : window <:+: message)
    (h : eqIgnoreAsciiCase window literal = true) :
    toLowercase tables literal <:+: toLowercase tables message := by
  rw [Bool.and_eq_true] at hascii
  rw [eqIgnoreAsciiCase, beq_iff_eq] at h
  rw [toLowercase_of_ascii laws hascii.1, toLowercase_of_ascii laws hascii.2, ← h]
  exact hwindow.map toAsciiLower

/-- A case-insensitive matcher accepts only messages whose lowercase form has the
lowercase literal as a part. -/
theorem isInfix_toLowercase_of_insensitive (laws : tables.Lawful)
    (hcase : matcher.caseSensitivity = .insensitive) (h : textMatches tables message matcher = true) :
    toLowercase tables matcher.value <:+: toLowercase tables message := by
  cases hkind : matcher.kind with
  | exact =>
    simp only [textMatches, hkind, hcase] at h
    rw [(textEqual_insensitive_iff laws _ _).mp h]
  | contains =>
    simp only [textMatches, hkind, hcase, textContains] at h
    split at h
    · rename_i hempty
      rw [isEmpty_iff.mp hempty]
      exact nil_infix
    · split at h
      · rename_i hascii
        simp only [anyWindow, any_eq_true, mem_tails, Bool.and_eq_true] at h
        obtain ⟨rest, hsuffix, _, hequal⟩ := h
        exact isInfix_toLowercase_of_window laws hascii
          ((List.take_prefix _ _).isInfix.trans hsuffix.isInfix) hequal
      · exact containsText_iff.mp h
  | startsWith =>
    simp only [textMatches, hkind, hcase, textPrefix] at h
    split at h
    · rename_i hascii
      exact isInfix_toLowercase_of_window laws hascii (List.take_prefix _ _).isInfix
        (Bool.and_eq_true_iff.mp h).2
    · exact (List.isPrefixOf_iff_prefix.mp h).isInfix
  | endsWith =>
    simp only [textMatches, hkind, hcase, textSuffix] at h
    split at h
    · rename_i hascii
      exact isInfix_toLowercase_of_window laws hascii (drop_suffix _ _).isInfix
        (Bool.and_eq_true_iff.mp h).2
    · exact (isSuffixOf_iff_suffix.mp h).isInfix

/-- Away from capital sigmas the lowercase form of a part is a part. -/
theorem isInfix_toLowercase_of_no_sigma (h : literal <:+: message) (hsigma : capitalSigma ∉ message) :
    toLowercase tables literal <:+: toLowercase tables message := by
  obtain ⟨before, after, rfl⟩ := h
  have hliteral : capitalSigma ∉ literal := fun hin => hsigma (by simp [hin])
  rw [toLowercase, toLowercase, toLowercaseFrom_eq_flatMap hliteral,
    toLowercaseFrom_eq_flatMap hsigma, flatMap_append, flatMap_append]
  exact ⟨_, _, rfl⟩

/-- The lowercase literal is a part of the lowercase message unless a case-sensitive, inexact
matcher meets a capital sigma. -/
theorem isInfix_toLowercase (laws : tables.Lawful) (h : textMatches tables message matcher = true)
    (hsafe : matcher.caseSensitivity = .insensitive ∨ matcher.kind = .exact ∨
      capitalSigma ∉ message) :
    toLowercase tables matcher.value <:+: toLowercase tables message := by
  cases hcase : matcher.caseSensitivity with
  | insensitive => exact isInfix_toLowercase_of_insensitive laws hcase h
  | sensitive =>
    rcases hsafe with hinsensitive | hexact | hsigma
    · rw [hcase] at hinsensitive
      cases hinsensitive
    · simp only [textMatches, hexact, hcase, textEqual, beq_iff_eq] at h
      rw [h]
    · exact isInfix_toLowercase_of_no_sigma (infix_of_sensitive hcase h) hsigma

/-- A part of the lowercase text has some of its slots. -/
theorem normalizedTrigramSlots_subset (laws : tables.Lawful)
    (h : toLowercase tables literal <:+: toLowercase tables message) :
    normalizedTrigramSlots tables literal ⊆ normalizedTrigramSlots tables message := by
  rw [normalizedTrigramSlots_eq laws, normalizedTrigramSlots_eq laws]
  intro slot hslot
  obtain ⟨trigram, htrigram, rfl⟩ := mem_map.mp hslot
  refine mem_map_of_mem (mem_trigrams.mpr ((mem_trigrams.mp htrigram).trans ?_))
  obtain ⟨before, after, htext⟩ := h
  rw [← htext, utf8_append, utf8_append]
  exact ⟨_, _, rfl⟩

/-! ## Blocks kept for a literal -/

section Blocks

variable {R : Type} [StructuralRecordView R] {directory : PersistentQueryIndex}
  {blocks : List (SealedBlock tables R)} {block : SealedBlock tables R}

/-- All records of a partition whose message the matcher accepts. -/
def messageQuery (partition : TopicPartition) (matcher : TextMatcher) (order : QueryOrder) :
    LogQuery where
  topicPartition := partition
  predicate := .message matcher
  order := order

/-- The query requires its literal only. -/
theorem requiredIndexConstraints_messageQuery (partition : TopicPartition) (matcher : TextMatcher)
    (order : QueryOrder) :
    (messageQuery partition matcher order).requiredIndexConstraints =
      { terms := [], fields := [], messageLiterals := [matcher.value], impossible := false } := by
  simp [LogQuery.requiredIndexConstraints, messageQuery, collectRequiredConstraints]

theorem not_vacuous_messageQuery (partition : TopicPartition) (matcher : TextMatcher)
    (order : QueryOrder) : ¬Vacuous (messageQuery partition matcher order) := by
  rw [Vacuous, requiredIndexConstraints_messageQuery]
  simp [messageQuery, LogQuery.hasInvalidRange]

/-- The block passes the filter, is a candidate block, and all its records are candidates. -/
structure Keeps (directory : PersistentQueryIndex) (block : SealedBlock tables R)
    (matcher : TextMatcher) : Prop where
  passes : ∃ slots, directory.prepareRequiredMessageTrigrams tables [matcher.value] = some slots ∧
    directory.messageMightMatch block.ordinal slots = true
  candidateBlock : ∀ order, block.ordinal ∈ directory.candidateBlocks tables
    (messageQuery block.metadata.topicPartition matcher order)
  candidateHits : ∀ order, ∀ ordinal < block.records.length,
    (⟨block.ordinal, ordinal⟩ : QueryHit) ∈ directory.candidateHits tables
      (messageQuery block.metadata.topicPartition matcher order)

/-- A block is kept exactly when its filter reports the slots of the literal. -/
theorem keeps_iff (laws : tables.Lawful) (h : Merges directory blocks) (hblock : block ∈ blocks)
    {matcher : TextMatcher} :
    Keeps directory block matcher ↔ block.passesTrigrams [matcher.value] = true := by
  constructor
  · intro hkeeps
    obtain ⟨slots, hslots, hmatch⟩ := hkeeps.passes
    rwa [messageMightMatch_prepared h hslots hblock] at hmatch
  · intro hpasses
    have hvisited : ∀ order, block ∈ visitedBlocks
        (messageQuery block.metadata.topicPartition matcher order) blocks := by
      intro order
      refine mem_filter.mpr ⟨mem_blocksOf.mpr ⟨hblock, rfl⟩, ?_⟩
      rw [requiredIndexConstraints_messageQuery, hpasses]
      rfl
    have htests : ∀ order, tests R tables (messageQuery block.metadata.topicPartition matcher
        order).requiredIndexConstraints = [] := by
      intro order
      rw [requiredIndexConstraints_messageQuery]
      rfl
    refine ⟨?_, fun order => ?_, fun order ordinal hlt => ?_⟩
    · cases hprepare : directory.prepareRequiredMessageTrigrams tables [matcher.value] with
      | none => grind [passesTrigrams_of_prepare_none]
      | some slots =>
        exact ⟨slots, rfl, by rw [messageMightMatch_prepared h hprepare hblock, hpasses]⟩
    · rw [candidateBlocks_eq laws h (not_vacuous_messageQuery _ _ _)]
      refine mem_map_of_mem (mem_orient.mpr (mem_sortBy.mpr (mem_filter.mpr ⟨hvisited order, ?_⟩)))
      rw [htests]
      rfl
    · have hlimit : (if (messageQuery block.metadata.topicPartition matcher
          order).canApplyIndexLimit then (messageQuery block.metadata.topicPartition matcher
          order).limit else none) = none := ite_self none
      rw [candidateHits_eq_truncateTo laws h (not_vacuous_messageQuery _ _ _), hlimit]
      refine mem_flatMap.mpr ⟨block, mem_orient.mpr (hvisited order), ?_⟩
      refine mem_hits (getElem?_eq_getElem hlt) ?_
      rw [isCandidate, htests]
      rfl

/-- The filter has the trigrams of all messages. -/
theorem passesTrigrams_iff {literal : Str} (laws : tables.Lawful) :
    block.passesTrigrams [literal] = true ↔
      ∀ slot ∈ normalizedTrigramSlots tables literal, ∃ record ∈ block.records,
        slot ∈ normalizedTrigramSlots tables (structuralMessage record) := by
  rw [passesTrigrams, MessageTrigramFilter.mightContainAll_iff]
  simp only [requiredMessageTrigramSlots, mem_sortDedup, flatMap_singleton,
    (build_spec laws block.built).trigrams]

end Blocks

/-- A directory keeps every block with an accepted message, whatever else it holds, exactly when
each trigram of the lowercase literal falls into the slot of a trigram of the lowercase message; it
does if the matcher ignores case or is exact, or the message has no capital sigma. -/
theorem literal_block_kept_iff (laws : tables.Lawful) (matcher : TextMatcher) (message : Str)
    (haccepts : textMatches tables message matcher = true) :
    ((∀ (R : Type) [StructuralRecordView R] (blocks : List (SealedBlock tables R))
        (directory : PersistentQueryIndex),
        PersistentQueryIndex.fromBlocks (blocks.map entry) = .ok directory →
        ∀ block ∈ blocks, (∃ record ∈ block.records, structuralMessage record = message) →
          Keeps directory block matcher) ↔
      normalizedTrigramSlots tables matcher.value ⊆ normalizedTrigramSlots tables message) ∧
    (matcher.caseSensitivity = .insensitive ∨ matcher.kind = .exact ∨ capitalSigma ∉ message →
      normalizedTrigramSlots tables matcher.value ⊆ normalizedTrigramSlots tables message) := by
  refine ⟨⟨fun hkept slot hslot => ?_, fun hsubset R _ blocks directory hdirectory block hblock
    hmessage => ?_⟩, fun hsafe => normalizedTrigramSlots_subset laws
      (isInfix_toLowercase laws haccepts hsafe)⟩
  · -- a block of its own shows whether the message alone suffices
    obtain ⟨block, directory, _, hrecords, hdirectory⟩ := exists_singleBlock laws
      (sampleMetadata 0 0 0 1) [sampleRecord 0 message []]
      ⟨rfl, by simp, by decide, by decide⟩
    have hkeeps := hkept _ [block] directory hdirectory block List.mem_cons_self
      ⟨_, by rw [hrecords]; exact List.mem_cons_self, rfl⟩
    have hpasses := (keeps_iff laws (fromBlocks_spec laws hdirectory)
      (mem_sortBy.mpr List.mem_cons_self)).mp hkeeps
    obtain ⟨record, hrecord, hreports⟩ := (passesTrigrams_iff laws).mp hpasses slot hslot
    rw [hrecords, List.mem_singleton] at hrecord
    rwa [hrecord] at hreports
  · obtain ⟨record, hrecord, rfl⟩ := hmessage
    rw [keeps_iff laws (fromBlocks_spec laws hdirectory) (mem_sortBy.mpr hblock),
      passesTrigrams_iff laws]
    exact fun slot hslot => ⟨record, hrecord, hsubset hslot⟩

/-- Letters with a capital sigma that stands inside a word. -/
def sigmaMessage : Str := "AΣA".toList

/-- A case-sensitive part that ends in the capital sigma. -/
def sigmaMatcher : TextMatcher := ⟨"AΣ".toList, .contains, .sensitive⟩

/-- The sigma is final in the literal and not in the message, so the lowercase literal is not a part
of the lowercase message, and the block is lost. -/
theorem final_sigma_block_rejected : textMatches latinTables sigmaMessage sigmaMatcher = true ∧
      ∃ (block : SealedBlock latinTables DecodedStructuralRecord)
        (directory : PersistentQueryIndex),
        block.records = [sampleRecord 0 sigmaMessage []] ∧
        block.metadata.topicPartition = ⟨1, 0⟩ ∧
        PersistentQueryIndex.fromBlocks ([block].map entry) = .ok directory ∧
        directory.candidateBlocks latinTables (messageQuery ⟨1, 0⟩ sigmaMatcher .oldestFirst) = [] ∧
        directory.candidateHits latinTables
          (messageQuery ⟨1, 0⟩ sigmaMatcher .oldestFirst) = [] := by
  refine ⟨by decide +kernel, ?_⟩
  obtain ⟨block, directory, hmetadata, hrecords, hdirectory⟩ := exists_singleBlock
    latinTables_lawful (sampleMetadata 0 0 0 1) [sampleRecord 0 sigmaMessage []] (by decide)
  have hrejected : block.passesTrigrams [sigmaMatcher.value] = false := by
    rw [Bool.eq_false_iff]
    intro hpasses
    have hslots := (passesTrigrams_iff latinTables_lawful).mp hpasses
    rw [hrecords] at hslots
    exact absurd hslots (by decide +kernel)
  have hmerges := fromBlocks_spec latinTables_lawful hdirectory
  have hvisited : visitedBlocks (messageQuery ⟨1, 0⟩ sigmaMatcher .oldestFirst)
      (sortBy ordinal [block]) = [] := by
    refine List.filter_eq_nil_iff.mpr fun other hother => ?_
    have hother := (mem_blocksOf.mp hother).1
    rw [List.mem_singleton.mp (mem_sortBy.mp hother), requiredIndexConstraints_messageQuery,
      hrejected]
    simp
  refine ⟨block, directory, hrecords, by rw [hmetadata]; rfl, hdirectory, ?_, ?_⟩
  · rw [candidateBlocks_eq latinTables_lawful hmerges (not_vacuous_messageQuery _ _ _),
      blocksWithAll, hvisited]
    rfl
  · rw [candidateHits_eq_truncateTo latinTables_lawful hmerges (not_vacuous_messageQuery _ _ _),
      hvisited]
    rfl

/-- A part in another case: the block is kept. -/
theorem insensitive_literal_block_kept : ∃ (block : SealedBlock latinTables DecodedStructuralRecord)
      (directory : PersistentQueryIndex), block.records = [sampleRecord 0 sigmaMessage []] ∧
      PersistentQueryIndex.fromBlocks ([block].map entry) = .ok directory ∧
      Keeps directory block ⟨"aσ".toList, .startsWith, .insensitive⟩ := by
  obtain ⟨block, directory, _, hrecords, hdirectory⟩ := exists_singleBlock
    latinTables_lawful (sampleMetadata 0 0 0 1) [sampleRecord 0 sigmaMessage []] (by decide)
  have hkept := literal_block_kept_iff latinTables_lawful ⟨"aσ".toList, .startsWith, .insensitive⟩
    sigmaMessage (by decide +kernel)
  refine ⟨block, directory, hrecords, hdirectory, ?_⟩
  exact hkept.1.mpr (hkept.2 (Or.inl rfl)) _ [block] directory hdirectory block
    List.mem_cons_self ⟨_, by rw [hrecords]; exact List.mem_cons_self, rfl⟩

end ShardLog.Persistent
