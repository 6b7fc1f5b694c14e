import ShardLog.Structural.Index

/-!
# Structural blocks - candidates of the embedded index

What a finished index was built from, and what its candidate lists contain.
-/

namespace ShardLog.Structural

open List hiding getElem?_eq_some_iff

open ByteReader Utf8 Runs AssocMap Sorted EmbeddedTermLocator EmbeddedFieldLocator EmbeddedFrameIndex

variable {tables : UnicodeTables} {templateIds : List (Option Nat)}

/-! ## What the index was built from -/

/-- An index with the states of the two passes it was built by. -/
structure IndexOf (tables : UnicodeTables) (messages : ParsedMessages)
    (templateIds : List (Option Nat)) (attributes : AttributeTables) (fields : ParsedFieldSets)
    (fallbackLayoutId : Nat) (builder : TermIndexBuilder)
    (fieldSets : List ((Str × Str) × List Nat)) (index : EmbeddedFrameIndex) : Prop where
  wellFormed : index.WellFormed
    (messages.layoutIds.map (indexLayoutId templateIds fallbackLayoutId)) fields.setIds
  layoutCount : index.recordCount ≠ 0 → index.layoutCount = fallbackLayoutId + 1
  templates : ∀ templateId, some templateId ∈ templateIds → templateId < fallbackLayoutId
  fallback : index.recordCount ≠ 0 → fallbackLayoutId ∈ builder.residualLayoutIds
  templateLength : templateIds.length = messages.layouts.length
  termsBounded : builder.Bounded (fallbackLayoutId + 1)
  hasTerm : ∀ entry ∈ messages.layouts.zip templateIds, ∀ range ∈ entry.1.terms,
    builder.HasTerm tables entry range
  residual : index.residualLayoutIds = sortDedup builder.residualLayoutIds
  termMembership : index.termMembership = builder.termMembership
  terms : index.terms = sortBy term
    (builder.termLayouts.map fun entry => ⟨entry.1, sortDedup entry.2⟩)
  fieldSetCount : index.fieldSetCount = fields.sets.length
  fieldsBounded : FieldSetsBounded attributes fields.sets.length fieldSets
  hasPair : ∀ entry ∈ fields.sets.zipIdx, ∀ pair ∈ entry.1,
    HasPair attributes entry.2 fieldSets pair
  fieldMembership : index.fieldMembership = fields.membershipFilter
  fields : index.fields = sortBy name (fieldSets.map fun entry => ⟨entry.1.1, entry.1.2, entry.2⟩)

/-- Template numbers are below the count. -/
theorem lt_templateCountOf (hfits : templateCountOf templateIds < 2 ^ 32) {templateId : Nat}
    (h : some templateId ∈ templateIds) : templateId < templateCountOf templateIds := by
  have hmem : templateId ∈ templateIds.filterMap id := mem_filterMap.mpr ⟨_, h, rfl⟩
  unfold templateCountOf at hfits ⊢
  cases hmax : (templateIds.filterMap id).max? with
  | none =>
    rw [max?_eq_none_iff.mp hmax] at hmem
    cases hmem
  | some maximum =>
    have hle := (max?_eq_some_iff.mp hmax).2 templateId hmem
    rw [hmax] at hfits
    simp only [saturatingAdd] at hfits ⊢
    omega

/-- Field locators are sorted by name. -/
theorem strictlySorted_fieldLocators {fieldSets : List ((Str × Str) × List Nat)}
    (h : (fieldSets.map Prod.fst).Nodup) :
    StrictlySorted name (sortBy name
      (fieldSets.map fun entry => ⟨entry.1.1, entry.1.2, entry.2⟩)) := by
  apply strictlySorted_sortBy
  rw [map_map]
  have hlex : (fieldSets.map fun entry => toLex entry.1).Nodup := by
    have hmap := Nodup.map (f := toLex) toLex.injective h
    rwa [map_map] at hmap
  exact hlex

/-- Building the index runs the two passes over distinct terms and fields. -/
theorem build_spec {messages : ParsedMessages} {attributes : AttributeTables}
    {fields : ParsedFieldSets} {index : EmbeddedFrameIndex}
    (h : build tables messages templateIds attributes fields = .ok index) :
    ∃ fallbackLayoutId builder fieldSets, IndexOf tables messages templateIds attributes fields
      fallbackLayoutId builder fieldSets index := by
  unfold build at h
  simp only [bind_eq_ok_iff] at h
  obtain ⟨recordCount, hrecordCount, _, hlengths, fallbackLayoutId, hfallback, layoutCount,
    hlayoutCount, fieldSetCount, hfieldSetCount, builder, hbuilder, fieldSets, hfieldSets,
    layoutIds, hlayoutIds, fieldSetIds, hfieldSetIds, h⟩ := h
  cases h
  rcases tryU32_eq_ok_iff.mp hrecordCount with ⟨rfl, hrecords⟩
  rcases tryU32_eq_ok_iff.mp hfallback with ⟨rfl, hfits⟩
  rcases tryU32_eq_ok_iff.mp hfieldSetCount with ⟨rfl, hsets⟩
  rcases ensure_eq_ok_iff.mp hlengths with ⟨htemplates, hfields⟩
  have hcount : layoutCount < 2 ^ 32 ∧ (messages.layoutIds.length ≠ 0 →
      layoutCount = templateCountOf templateIds + 1) := by
    unfold layoutCountOf at hlayoutCount
    by_cases hempty : messages.layoutIds.length = 0
    · rw [if_pos hempty] at hlayoutCount
      cases hlayoutCount
      exact ⟨by decide, fun hne => absurd hempty hne⟩
    · grind [tryU32_eq_ok_iff]
  have hbound : ∀ templateId, some templateId ∈ templateIds →
      templateId < templateCountOf templateIds := fun _ => lt_templateCountOf hfits
  set residual := if messages.layoutIds.length = 0 then [] else [templateCountOf templateIds]
    with hresidual
  have hstart : TermIndexBuilder.Bounded (templateCountOf templateIds + 1)
      ⟨[], .new, residual⟩ := by
    refine ⟨nodup_nil, ?_, by simp [Located]⟩
    intro id hid
    by_cases hempty : messages.layoutIds.length = 0
    · simp [hresidual, hempty] at hid
    · grind
  have hentries : ∀ entry ∈ messages.layouts.zip templateIds, ∀ templateId,
      entry.2 = some templateId → templateId < templateCountOf templateIds + 1 := by
    intro entry hentry templateId htemplate
    have hmem := (of_mem_zip (a := entry.1) (b := entry.2) hentry).2
    rw [htemplate] at hmem
    exact (hbound templateId hmem).trans (Nat.lt_succ_self _)
  rcases addLayouts_spec hentries hstart hbuilder with ⟨hbounded, hextends, hterms⟩
  have hsetIds : ∀ entry ∈ fields.sets.zipIdx, entry.2 < fields.sets.length := by grind
  have hnoFields : FieldSetsBounded attributes fields.sets.length [] :=
    ⟨nodup_nil, by simp, by simp [Located]⟩
  rcases addFieldSets_spec hsetIds hnoFields hfieldSets with ⟨hfieldsBounded, hpairs⟩
  refine ⟨templateCountOf templateIds, builder, fieldSets, ?_⟩
  exact {
    wellFormed := {
      recordCount := hrecords
      layoutLength := by rw [length_map]
      fieldSetLength := hfields
      layoutCount := hcount.1
      fieldSetCount := hsets
      layouts := packs_of_packIds hlayoutIds
      fieldSets := packs_of_packIds hfieldSetIds
      terms := by
        apply strictlySorted_sortBy
        rw [map_map]
        exact hbounded.nodup
      fields := strictlySorted_fieldLocators hfieldsBounded.nodup }
    layoutCount := hcount.2
    templates := hbound
    fallback := by
      intro hne
      apply hextends.residual
      simp [hresidual, hne]
    templateLength := htemplates
    termsBounded := hbounded
    hasTerm := hterms
    residual := rfl
    termMembership := rfl
    terms := rfl
    fieldSetCount := rfl
    fieldsBounded := hfieldsBounded
    hasPair := hpairs
    fieldMembership := rfl
    fields := rfl }

/-! ## Candidates -/

/-- A strictly increasing list of ordinals below a count. -/
def OrdinalsBelow (count : Nat) (ordinals : List Nat) : Prop :=
  ordinals.Pairwise (· < ·) ∧ ∀ ordinal ∈ ordinals, ordinal < count

theorem ordinalsBelow_range (count : Nat) : OrdinalsBelow count (range count) :=
  ⟨pairwise_lt_range, fun _ => mem_range.mp⟩

theorem ordinalsBelow_filter (count : Nat) (p : Nat → Bool) :
    OrdinalsBelow count ((range count).filter p) :=
  ⟨pairwise_lt_range.filter p, fun _ h => mem_range.mp (mem_filter.mp h).1⟩

section Candidates

variable {messages : ParsedMessages} {templateIds : List (Option Nat)}
  {attributes : AttributeTables} {parsedFields : ParsedFieldSets} {fallbackLayoutId : Nat}
  {builder : TermIndexBuilder} {fieldSets : List ((Str × Str) × List Nat)}
  {index : EmbeddedFrameIndex} {fields : List (List (Str × Str))} {resolved : ResolvedFields}
  {filter : MembershipFilter}

/-- With distinct keys and values, a field is stored under its one dictionary pair. -/
theorem pair_mem_of_named (hof : AttributesOf fields attributes resolved filter)
    {pairs : List (Nat × Nat)} {own : List (Str × Str)}
    (hindexes : IndexesFields attributes pairs own) {field : Str × Str} (hfield : field ∈ own)
    {pair : Nat × Nat} (hnames : PairNames attributes pair field) : pair ∈ pairs := by
  rcases hindexes field hfield with ⟨keyId, table, entryId, hkey, htable, hentry, hpair⟩
  rcases hnames.value with ⟨other, hother, hdictionary⟩
  have hkeyId : keyId = pair.1 := (getElem?_inj (List.getElem?_eq_some_iff.mp hkey).1
    hof.keysNodup).mp (hkey.trans hnames.key.symm)
  subst hkeyId
  rw [htable] at hother
  cases hother
  have hlen : pair.2 < table.dictionaryLen := by
    have := (List.getElem?_eq_some_iff.mp hdictionary).1
    rw [AttributeValueTable.dictionary, length_take] at this
    omega
  rw [getElem?_dictionary hlen] at hdictionary
  have hentryId : entryId = pair.2 := (getElem?_inj (List.getElem?_eq_some_iff.mp hentry).1
    (hof.valuesNodup table (mem_of_getElem? htable))).mp (hentry.trans hdictionary.symm)
  have hin := hpair (hentryId ▸ hlen)
  rw [hentryId] at hin
  exact hin

variable (h : IndexOf tables messages templateIds attributes parsedFields fallbackLayoutId
  builder fieldSets index)

include h

/-- The located layouts of a term in the finished index. -/
theorem mem_located_iff {term : Str} {id : Nat} :
    id ∈ index.locatedLayoutIds term ↔ Located builder.termLayouts term id := by
  have hmem : ∀ locator, locator ∈ index.terms ↔
      ∃ ids, get builder.termLayouts locator.term = some ids ∧
        locator.layoutIds = sortDedup ids := by
    intro locator
    rw [h.terms, mem_sortBy, mem_map]
    constructor
    · rintro ⟨entry, hentry, rfl⟩
      exact ⟨entry.2, get_of_mem h.termsBounded.nodup hentry, rfl⟩
    · rintro ⟨ids, hget, hids⟩
      refine ⟨(locator.term, ids), mem_of_get hget, ?_⟩
      rw [← hids]
  unfold locatedLayoutIds
  cases hfind : findBy EmbeddedTermLocator.term index.terms term with
  | some position =>
    rcases findBy_eq_some hfind with ⟨locator, hlocator, rfl⟩
    rcases (hmem locator).mp (mem_of_getElem? hlocator) with ⟨ids, hget, hids⟩
    simp [hlocator, hids, mem_sortDedup, Located, hget]
  | none =>
    constructor
    · intro hin
      cases hin
    · rintro ⟨ids, hget, hin⟩
      have hlocator := (hmem ⟨term, sortDedup ids⟩).mpr ⟨ids, hget, rfl⟩
      rcases findBy_of_mem h.wellFormed.terms hlocator with ⟨position, hposition, _⟩
      rw [hfind] at hposition
      cases hposition

variable {layoutId : Nat}

/-- The layout of a record, with its template, has its terms indexed. -/
theorem hasTerm_of_record {layout : ParsedMessage}
    (hlayout : messages.layouts[layoutId]? = some layout) {range : IndexRange}
    (hrange : range ∈ layout.terms) :
    ∃ templateId, templateIds[layoutId]? = some templateId ∧
      builder.HasTerm tables (layout, templateId) range := by
  have hlt := (List.getElem?_eq_some_iff.mp hlayout).1
  rw [← h.templateLength] at hlt
  have htemplate : templateIds[layoutId]? = some templateIds[layoutId] := getElem?_eq_getElem hlt
  refine ⟨_, htemplate, h.hasTerm _ ?_ range hrange⟩
  apply mem_of_getElem? (i := layoutId)
  rw [getElem?_zip_eq_some]
  exact ⟨hlayout, htemplate⟩

/-- A record carries the template of its layout in the packed column. -/
theorem packedId_layoutIds {ordinal : Nat} (hordinal : messages.layoutIds[ordinal]? = some layoutId) :
    packedId index.layoutIds ordinal = indexLayoutId templateIds fallbackLayoutId layoutId := by
  rcases List.getElem?_eq_some_iff.mp hordinal with ⟨hlt, rfl⟩
  rw [h.wellFormed.layouts.packedId_eq h.wellFormed.layoutCount (by simpa using hlt), getElem_map]

/-- Candidates for a term: increasing ordinals of the batch, among them every
record with a term of the same normal form. -/
theorem termCandidateOrdinals_spec (query : Str) :
    ∃ ordinals, index.termCandidateOrdinals tables query = .ok ordinals ∧
      OrdinalsBelow index.recordCount ordinals ∧
      ∀ ordinal layoutId layout range term, messages.layoutIds[ordinal]? = some layoutId →
        messages.layouts[layoutId]? = some layout → range ∈ layout.terms →
        layout.termText range = .ok term →
        normalizeTerm tables query = normalizeTerm tables term → ordinal ∈ ordinals := by
  unfold termCandidateOrdinals
  by_cases hmember : index.termMembership.mightContain (utf8 (normalizeIndexTerm tables query)) =
      true
  · rw [if_pos hmember]
    by_cases hempty : index.recordCount = 0
    · refine ⟨[], if_pos (.inr hempty), ⟨Pairwise.nil, by simp⟩, ?_⟩
      intro ordinal layoutId _ _ _ hordinal
      have hlength := h.wellFormed.layoutLength
      rw [length_map, hempty] at hlength
      rw [eq_nil_of_length_eq_zero hlength] at hordinal
      cases hordinal
    · set selected := sortDedup (index.residualLayoutIds ++
        index.locatedLayoutIds (normalizeIndexTerm tables query)) with hselected
      have hmem : ∀ id, id ∈ selected ↔ id ∈ builder.residualLayoutIds ∨
          Located builder.termLayouts (normalizeIndexTerm tables query) id := by
        intro id
        rw [hselected, mem_sortDedup, mem_append, h.residual, mem_sortDedup, mem_located_iff h]
      have hbound : ∀ id ∈ selected, id < index.layoutCount := by
        intro id hid
        rw [h.layoutCount hempty]
        rcases (hmem id).mp hid with hin | hin
        · exact h.termsBounded.residual id hin
        · exact h.termsBounded.located _ id hin
      refine ⟨_, matchingPackedIds_eq_ok hbound, ordinalsBelow_filter _ _, ?_⟩
      intro ordinal layoutId layout range term hordinal hlayout hrange hterm hnormal
      have hlength := h.wellFormed.layoutLength
      rw [length_map] at hlength
      have hlt := (List.getElem?_eq_some_iff.mp hordinal).1
      rw [mem_filter, mem_range, decide_eq_true_eq, packedId_layoutIds h hordinal, hmem]
      refine ⟨by omega, ?_⟩
      rcases hasTerm_of_record h hlayout hrange with ⟨templateId, htemplate, hhas⟩
      rcases hhas with ⟨found, hfound, _, hlocated⟩
      cases hterm.symm.trans hfound
      unfold indexLayoutId
      rw [getD_eq_getElem?_getD, htemplate, Option.getD_some]
      cases templateId with
      | none => exact .inl (h.fallback hempty)
      | some templateId =>
        -- a template number is below the layout count, so it fits 32 bits
        have hsmall : tryU32 templateId = .ok templateId := by
          have htemplates := h.templates templateId (mem_of_getElem? htemplate)
          have hcount := h.wellFormed.layoutCount
          rw [h.layoutCount hempty] at hcount
          exact tryU32_eq_ok_iff.mpr ⟨rfl, by omega⟩
        rw [Option.bind_some, hsmall]
        change templateId ∈ _ ∨ Located _ (normalizeTerm tables query) templateId
        rw [hnormal]
        exact hlocated templateId rfl
  · rw [if_neg hmember]
    refine ⟨[], rfl, ⟨Pairwise.nil, by simp⟩, ?_⟩
    intro ordinal layoutId layout range term hordinal hlayout hrange hterm hnormal
    rcases hasTerm_of_record h hlayout hrange with ⟨templateId, _, found, hfound, hcontains, _⟩
    cases hterm.symm.trans hfound
    rw [h.termMembership, normalizeIndexTerm, hnormal] at hmember
    exact absurd hcontains hmember

/-- Candidates for a field: increasing ordinals of the batch, among them every
record with that field. -/
theorem fieldCandidateOrdinals_spec (hof : AttributesOf fields attributes resolved filter)
    (hfilter : parsedFields.membershipFilter = filter)
    (hsets : Forall₂ (fun own id => ∃ pairs, parsedFields.sets[id]? = some pairs ∧
      IndexesFields attributes pairs own) fields parsedFields.setIds) (key value : Str) :
    ∃ ordinals, index.fieldCandidateOrdinals key value = .ok ordinals ∧
      OrdinalsBelow index.recordCount ordinals ∧
      ∀ ordinal own, fields[ordinal]? = some own → (key, value) ∈ own → ordinal ∈ ordinals := by
  have hlength : fields.length = index.recordCount :=
    hsets.length_eq.trans h.wellFormed.fieldSetLength
  unfold fieldCandidateOrdinals
  by_cases hmember : index.fieldMembership.mightContainPair (utf8 key) (utf8 value) = true
  · rw [if_pos hmember]
    cases hfind : findBy name index.fields (toLex (key, value)) with
    | none => grind [ordinalsBelow_range]
    | some position =>
      rcases findBy_eq_some hfind with ⟨locator, hlocator, hname⟩
      have hin := mem_of_getElem? hlocator
      rw [h.fields, mem_sortBy, mem_map] at hin
      rcases hin with ⟨⟨text, ids⟩, hentry, rfl⟩
      have hsame : text = (key, value) := toLex.injective hname
      subst hsame
      have hget := get_of_mem h.fieldsBounded.nodup hentry
      have hbound : ∀ id ∈ ids, id < index.fieldSetCount := by
        intro id hid
        rw [h.fieldSetCount]
        exact h.fieldsBounded.located _ id ⟨ids, hget, hid⟩
      dsimp only
      rw [hlocator, Option.map_some, Option.getD_some]
      refine ⟨_, matchingPackedIds_eq_ok hbound, ordinalsBelow_filter _ _, ?_⟩
      intro ordinal own hown hfield
      rcases forall₂_getElem? hsets hown with ⟨setId, hsetId, pairs, hpairs, hindexes⟩
      rcases List.getElem?_eq_some_iff.mp hsetId with ⟨hlt, rfl⟩
      rw [mem_filter, mem_range, decide_eq_true_eq,
        h.wellFormed.fieldSets.packedId_eq h.wellFormed.fieldSetCount hlt]
      refine ⟨h.wellFormed.fieldSetLength ▸ hlt, ?_⟩
      -- the located pair is the one the record's own field set holds
      rcases h.fieldsBounded.named _ (mem_map_of_mem (f := Prod.fst) hentry) with
        ⟨pair, hnames⟩
      have hpair := pair_mem_of_named hof hindexes hfield hnames
      have hset : (pairs, parsedFields.setIds[ordinal]) ∈ parsedFields.sets.zipIdx :=
        mem_zipIdx_iff_getElem?.mpr hpairs
      rcases h.hasPair _ hset pair hpair with ⟨text, hnames', ids', hget', hid⟩
      have htext : text = (key, value) := by
        apply Prod.ext
        · exact utf8_injective (Option.some.inj (hnames'.key.symm.trans hnames.key))
        · rcases hnames.value with ⟨table, htable, hvalue⟩
          rcases hnames'.value with ⟨table', htable', hvalue'⟩
          cases htable.symm.trans htable'
          exact utf8_injective (Option.some.inj (hvalue'.symm.trans hvalue))
      rw [htext] at hget'
      cases hget.symm.trans hget'
      exact hid
  · rw [if_neg hmember]
    refine ⟨[], rfl, ⟨Pairwise.nil, by simp⟩, ?_⟩
    intro ordinal own hown hfield
    rw [h.fieldMembership, hfilter] at hmember
    exact absurd (hof.member (key, value)
      (mem_flatten.mpr ⟨own, mem_of_getElem? hown, hfield⟩)) hmember

end Candidates

end ShardLog.Structural
