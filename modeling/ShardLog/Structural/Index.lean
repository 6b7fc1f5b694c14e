import Mathlib.Data.Prod.Lex
import ShardLog.Foundation.Folds
import ShardLog.Foundation.Sorted
import ShardLog.Structural.Fields
import ShardLog.Structural.Packed

/-!
# Structural blocks - the embedded frame index

Terms that are literal in a template are located by the number of that template;
messages stored raw and templates with values are always candidates.  Repeated
metadata values are located by the field sets that contain them; a value stored
directly makes every record a candidate.  Two membership filters reject terms
and fields that do not occur.
-/

namespace ShardLog.Structural

open ByteReader Utf8 Runs AssocMap Sorted

/-! ## The index -/

structure EmbeddedTermLocator where
  term : Str
  layoutIds : List Nat
deriving DecidableEq, Repr

structure EmbeddedFieldLocator where
  key : Str
  value : Str
  fieldSetIds : List Nat
deriving DecidableEq, Repr

/-- Fields are ordered by key, then by value. -/
def EmbeddedFieldLocator.name (locator : EmbeddedFieldLocator) : Str ×ₗ Str :=
  toLex (locator.key, locator.value)

structure EmbeddedFrameIndex where
  recordCount : Nat
  layoutCount : Nat
  layoutIds : PackedIdColumn
  residualLayoutIds : List Nat
  termMembership : MembershipFilter
  terms : List EmbeddedTermLocator
  fieldSetCount : Nat
  fieldSetIds : PackedIdColumn
  fieldMembership : MembershipFilter
  fields : List EmbeddedFieldLocator

/-- The layouts at which a normalised term is located. -/
def EmbeddedFrameIndex.locatedLayoutIds (index : EmbeddedFrameIndex) (normalized : Str) :
    List Nat :=
  match findBy EmbeddedTermLocator.term index.terms normalized with
  | some position => (index.terms[position]?.map EmbeddedTermLocator.layoutIds).getD []
  | none => []

variable (tables : UnicodeTables)

/-- Same normalisation as the query engine's. -/
def normalizeIndexTerm (term : Str) : Str := normalizeTerm tables term

/-- Candidates for a case-insensitive term.  An error stands for the failed
`expect` on an invalid column. -/
def EmbeddedFrameIndex.termCandidateOrdinals (index : EmbeddedFrameIndex) (term : Str) :
    LogDbResult (List Nat) :=
  let normalized := normalizeIndexTerm tables term
  if index.termMembership.mightContain (utf8 normalized) then
    matchingPackedIds index.layoutIds index.recordCount index.layoutCount
      (sortDedup (index.residualLayoutIds ++ index.locatedLayoutIds normalized))
  else .ok []

/-- Candidates for a metadata field. -/
def EmbeddedFrameIndex.fieldCandidateOrdinals (index : EmbeddedFrameIndex) (key value : Str) :
    LogDbResult (List Nat) :=
  if index.fieldMembership.mightContainPair (utf8 key) (utf8 value) then
    match findBy EmbeddedFieldLocator.name index.fields (toLex (key, value)) with
    | none => .ok (List.range index.recordCount)
    | some position =>
      matchingPackedIds index.fieldSetIds index.recordCount index.fieldSetCount
        ((index.fields[position]?.map EmbeddedFieldLocator.fieldSetIds).getD [])
  else .ok []

/-! ## Building the index -/

/-- Append an identifier unless it is already the last one. -/
def pushDistinct (ids : List Nat) (id : Nat) : List Nat :=
  if ids.getLast? = some id then ids else ids ++ [id]

/-- The state of the pass over the layouts. -/
structure TermIndexBuilder where
  termLayouts : List (Str × List Nat)
  termMembership : MembershipFilter
  residualLayoutIds : List Nat

/-- The text of a term of a parsed message. -/
def ParsedMessage.termText (message : ParsedMessage) (range : IndexRange) : LogDbResult Str :=
  match fromUtf8 (slice message.message range) with
  | some term => .ok term
  | none => .error (invalid "message term is invalid UTF-8")

/-- A term that overlaps a value slot. -/
def ParsedMessage.isDynamic (message : ParsedMessage) (range : IndexRange) : Bool :=
  message.values.any fun value =>
    decide (range.start < value.stop) && decide (value.start < range.stop)

/-- A term of a message stored raw only enters the filter. -/
def TermIndexBuilder.addRawTerm (message : ParsedMessage) (builder : TermIndexBuilder)
    (range : IndexRange) : LogDbResult TermIndexBuilder := do
  let term ← message.termText range
  .ok { builder with
    termMembership := builder.termMembership.insert (utf8 (normalizeIndexTerm tables term)) }

/-- A term of a template enters the filter, and is located unless dynamic. -/
def TermIndexBuilder.addTemplateTerm (message : ParsedMessage) (templateId : Nat)
    (builder : TermIndexBuilder) (range : IndexRange) : LogDbResult TermIndexBuilder := do
  let term ← message.termText range
  let normalized := normalizeIndexTerm tables term
  .ok { builder with
    termMembership := builder.termMembership.insert (utf8 normalized)
    termLayouts :=
      if message.isDynamic range then builder.termLayouts
      else update builder.termLayouts normalized [] fun ids => pushDistinct ids templateId }

/-- The terms of one layout. -/
def TermIndexBuilder.addLayout (builder : TermIndexBuilder)
    (entry : ParsedMessage × Option Nat) : LogDbResult TermIndexBuilder :=
  match entry.2 with
  | none => entry.1.terms.foldlM (TermIndexBuilder.addRawTerm tables entry.1) builder
  | some templateId => do
      let templateId ← tryU32 templateId
      entry.1.terms.foldlM (TermIndexBuilder.addTemplateTerm tables entry.1 templateId)
        { builder with
          residualLayoutIds :=
            if entry.1.values = [] then builder.residualLayoutIds
            else builder.residualLayoutIds ++ [templateId] }

/-- The key and value text of a dictionary pair. -/
def pairText (attributes : AttributeTables) (pair : Nat × Nat) : LogDbResult (Str × Str) :=
  match attributes.keys[pair.1]? with
  | none => .error (invalid "embedded field key ID is out of range")
  | some key =>
    match attributes.values[pair.1]?.bind fun values => values.dictionary[pair.2]? with
    | none => .error (invalid "embedded field value ID is out of range")
    | some value =>
      match fromUtf8 key with
      | none => .error (invalid "field key is invalid UTF-8")
      | some key =>
        match fromUtf8 value with
        | none => .error (invalid "field value is invalid UTF-8")
        | some value => .ok (key, value)

/-- Locate one dictionary pair of a field set. -/
def addFieldPair (attributes : AttributeTables) (fieldSetId : Nat)
    (fieldSets : List ((Str × Str) × List Nat)) (pair : Nat × Nat) :
    LogDbResult (List ((Str × Str) × List Nat)) := do
  let text ← pairText attributes pair
  .ok (update fieldSets text [] fun ids => pushDistinct ids fieldSetId)

/-- Locate the pairs of one field set. -/
def addFieldSet (attributes : AttributeTables) (fieldSets : List ((Str × Str) × List Nat))
    (entry : List (Nat × Nat) × Nat) : LogDbResult (List ((Str × Str) × List Nat)) := do
  let fieldSetId ← tryU32 entry.2
  entry.1.foldlM (addFieldPair attributes fieldSetId) fieldSets

/-- One more than the largest template identifier in use. -/
def templateCountOf (templateIds : List (Option Nat)) : Nat :=
  match (templateIds.filterMap id).max? with
  | some maximum => saturatingAdd maximum 1
  | none => 0

/-- The layout of a record in the index: its template, or the fallback. -/
def indexLayoutId (templateIds : List (Option Nat)) (fallbackLayoutId layoutId : Nat) : Nat :=
  ((templateIds.getD layoutId none).bind fun templateId =>
    (tryU32 templateId).toOption).getD fallbackLayoutId

/-- Templates and the fallback; no layouts without records. -/
def layoutCountOf (recordCount fallbackLayoutId : Nat) : LogDbResult Nat :=
  if recordCount = 0 then .ok 0 else tryU32 (fallbackLayoutId + 1)

def EmbeddedFrameIndex.build (messages : ParsedMessages) (templateIds : List (Option Nat))
    (attributes : AttributeTables) (fields : ParsedFieldSets) : LogDbResult EmbeddedFrameIndex := do
  let recordCount ← tryU32 messages.layoutIds.length
  ensure (templateIds.length = messages.layouts.length ∧
      fields.setIds.length = messages.layoutIds.length)
    (invalid "embedded index column count mismatch")
  let fallbackLayoutId ← tryU32 (templateCountOf templateIds)
  let layoutCount ← layoutCountOf recordCount fallbackLayoutId
  let fieldSetCount ← tryU32 fields.sets.length
  let terms ← (messages.layouts.zip templateIds).foldlM (TermIndexBuilder.addLayout tables)
    ⟨[], .new, if recordCount = 0 then [] else [fallbackLayoutId]⟩
  let fieldSets ← fields.sets.zipIdx.foldlM (addFieldSet attributes) []
  let layoutIds ←
    packIds (messages.layoutIds.map (indexLayoutId templateIds fallbackLayoutId)) layoutCount
  let fieldSetIds ← packIds fields.setIds fieldSetCount
  .ok {
    recordCount := recordCount
    layoutCount := layoutCount
    layoutIds := layoutIds
    residualLayoutIds := sortDedup terms.residualLayoutIds
    termMembership := terms.termMembership
    terms := sortBy EmbeddedTermLocator.term
      (terms.termLayouts.map fun entry => ⟨entry.1, sortDedup entry.2⟩)
    fieldSetCount := fieldSetCount
    fieldSetIds := fieldSetIds
    fieldMembership := fields.membershipFilter
    fields := sortBy EmbeddedFieldLocator.name
      (fieldSets.map fun entry => ⟨entry.1.1, entry.1.2, entry.2⟩) }

/-! ## The section of the index -/

def embeddedIndexMagic : Bytes := utf8 "SLI1".toList

def encodeTermLocator (layoutCount : Nat) (locator : EmbeddedTermLocator) : LogDbResult Bytes := do
  let term ← appendBytes (utf8 locator.term)
  let ids ← encodeSortedIds locator.layoutIds layoutCount
  .ok (term ++ ids)

def encodeFieldLocator (fieldSetCount : Nat) (locator : EmbeddedFieldLocator) :
    LogDbResult Bytes := do
  let key ← appendBytes (utf8 locator.key)
  let value ← appendBytes (utf8 locator.value)
  let ids ← encodeSortedIds locator.fieldSetIds fieldSetCount
  .ok (key ++ (value ++ ids))

def EmbeddedFrameIndex.encode (index : EmbeddedFrameIndex) : LogDbResult Bytes := do
  let layoutIds ← encodePackedColumn index.layoutIds index.layoutCount
  let residual ← encodeOptionalSortedIds index.residualLayoutIds index.layoutCount
  let termCount ← writeCount index.terms.length
  let terms ← encodeAll (encodeTermLocator index.layoutCount) index.terms
  let fieldSetIds ← encodePackedColumn index.fieldSetIds index.fieldSetCount
  let fieldCount ← writeCount index.fields.length
  let fields ← encodeAll (encodeFieldLocator index.fieldSetCount) index.fields
  .ok (embeddedIndexMagic ++ (writeVarint index.recordCount ++ (layoutIds ++ (residual ++
    (encodeMembershipFilter index.termMembership ++ (termCount ++ (terms ++ (fieldSetIds ++
    (encodeMembershipFilter index.fieldMembership ++ (fieldCount ++ fields))))))))))

def readTermLocator (layoutCount : Nat) : BlockReader EmbeddedTermLocator := do
  let term ← readArcStr
  let layoutIds ← readSortedIds layoutCount
  pure ⟨term, layoutIds⟩

def readFieldLocator (fieldSetCount : Nat) : BlockReader EmbeddedFieldLocator := do
  let key ← readArcStr
  let value ← readArcStr
  let fieldSetIds ← readSortedIds fieldSetCount
  pure ⟨key, value, fieldSetIds⟩

/-- Read items whose keys must strictly increase. -/
def readOrdered {α κ : Type} [LinearOrder κ] (item : BlockReader α) (key : α → κ)
    (disordered : LogDbError) : Nat → Option α → BlockReader (List α)
  | 0, _ => pure []
  | count + 1, previous => do
      let value ← item
      require (decide (∀ last ∈ previous, key last < key value)) disordered
      let rest ← readOrdered item key disordered count (some value)
      pure (value :: rest)

def EmbeddedFrameIndex.decode (encoded : Bytes) : LogDbResult EmbeddedFrameIndex :=
  readComponent (do
    expectMagic embeddedIndexMagic (invalid "missing embedded index magic")
    let recordCount ← readU32
    let layouts ← readPackedColumn recordCount
    let residualLayoutIds ← readOptionalSortedIds layouts.1
    let termMembership ← readMembershipFilter
    let termCount ← readUsize
    ensureCountWithin termCount "embedded term count"
    let terms ← readOrdered (readTermLocator layouts.1) EmbeddedTermLocator.term
      (invalid "embedded terms are not ordered") termCount none
    let fieldSets ← readPackedColumn recordCount
    let fieldMembership ← readMembershipFilter
    let fieldCount ← readUsize
    ensureCountWithin fieldCount "embedded field count"
    let fields ← readOrdered (readFieldLocator fieldSets.1) EmbeddedFieldLocator.name
      (invalid "embedded fields are not ordered") fieldCount none
    pure {
      recordCount := recordCount
      layoutCount := layouts.1
      layoutIds := layouts.2
      residualLayoutIds := residualLayoutIds
      termMembership := termMembership
      terms := terms
      fieldSetCount := fieldSets.1
      fieldSetIds := fieldSets.2
      fieldMembership := fieldMembership
      fields := fields }) encoded

/-! ## Locations of a key -/

section Located

variable {κ : Type} [DecidableEq κ] {id : Nat}

/-- The map locates a key at an identifier. -/
def Located (map : List (κ × List Nat)) (key : κ) (id : Nat) : Prop :=
  ∃ ids, get map key = some ids ∧ id ∈ ids

theorem mem_pushDistinct {ids : List Nat} {other : Nat} :
    other ∈ pushDistinct ids id ↔ other ∈ ids ∨ other = id := by
  unfold pushDistinct
  by_cases hlast : ids.getLast? = some id
  · grind
  · rw [if_neg hlast, List.mem_append, List.mem_singleton]

/-- Adding a location adds exactly that location. -/
theorem located_update {map : List (κ × List Nat)} {key other : κ} {otherId : Nat} :
    Located (update map key [] fun ids => pushDistinct ids id) other otherId ↔
      Located map other otherId ∨ other = key ∧ otherId = id := by
  unfold Located
  simp only [get_update]
  by_cases heq : other = key
  · subst heq
    simp only [if_true, Option.some.injEq, exists_eq_left', mem_pushDistinct, true_and]
    cases hget : get map other with
    | none => simp
    | some ids => simp
  · simp [heq]

end Located

/-! ## The pass over the layouts -/

variable {tables}

/-- Nothing that was indexed is lost. -/
structure TermIndexBuilder.Extends (builder next : TermIndexBuilder) : Prop where
  membership : ∀ hash, builder.termMembership.mightContainHash hash = true →
    next.termMembership.mightContainHash hash = true
  residual : ∀ id ∈ builder.residualLayoutIds, id ∈ next.residualLayoutIds
  located : ∀ term id, Located builder.termLayouts term id → Located next.termLayouts term id

theorem TermIndexBuilder.Extends.refl (builder : TermIndexBuilder) : builder.Extends builder :=
  ⟨fun _ h => h, fun _ h => h, fun _ _ h => h⟩

theorem TermIndexBuilder.Extends.trans {first second third : TermIndexBuilder}
    (h : first.Extends second) (h' : second.Extends third) : first.Extends third where
  membership := fun hash hin => h'.membership hash (h.membership hash hin)
  residual := fun id hin => h'.residual id (h.residual id hin)
  located := fun term id hin => h'.located term id (h.located term id hin)

/-- Identifiers are below the layout count, and terms are distinct. -/
structure TermIndexBuilder.Bounded (bound : Nat) (builder : TermIndexBuilder) : Prop where
  nodup : (builder.termLayouts.map Prod.fst).Nodup
  residual : ∀ id ∈ builder.residualLayoutIds, id < bound
  located : ∀ term id, Located builder.termLayouts term id → id < bound

variable (tables) in
/-- A term of a layout is in the filter, and found at its template unless that is always a
candidate. -/
def TermIndexBuilder.HasTerm (entry : ParsedMessage × Option Nat) (builder : TermIndexBuilder)
    (range : IndexRange) : Prop :=
  ∃ term, entry.1.termText range = .ok term ∧
    builder.termMembership.mightContain (utf8 (normalizeIndexTerm tables term)) = true ∧
    ∀ templateId, entry.2 = some templateId → templateId ∈ builder.residualLayoutIds ∨
      Located builder.termLayouts (normalizeIndexTerm tables term) templateId

variable {builder next : TermIndexBuilder} {range : IndexRange} {entry : ParsedMessage × Option Nat}
  {bound : Nat} {message : ParsedMessage} {attributes : AttributeTables} {pair : Nat × Nat}
  {α : Type} {item : BlockReader α} {disordered : LogDbError} {values : List α} {bytes : Bytes}

/-- Later terms keep a term. -/
theorem TermIndexBuilder.HasTerm.mono (hextends : builder.Extends next)
    (h : builder.HasTerm tables entry range) :
    next.HasTerm tables entry range := by
  rcases h with ⟨term, hterm, hmember, hlocated⟩
  refine ⟨term, hterm, hextends.membership _ hmember, fun templateId htemplate => ?_⟩
  rcases hlocated templateId htemplate with hin | hin
  · exact .inl (hextends.residual _ hin)
  · exact .inr (hextends.located _ _ hin)

/-- Adding a term of a raw message. -/
theorem addRawTerm_spec (hbounded : builder.Bounded bound)
    (h : builder.addRawTerm tables message range = .ok next) :
    next.Bounded bound ∧ builder.Extends next ∧ next.HasTerm tables (message, none) range := by
  rcases bind_eq_ok_iff.mp h with ⟨term, hterm, h⟩
  cases h
  refine ⟨⟨hbounded.nodup, hbounded.residual, hbounded.located⟩,
    ⟨fun hash hin => mightContainHash_insertHash_of hin _, fun _ h => h, fun _ _ h => h⟩,
    term, hterm, mightContainHash_insertHash_self _ _, ?_⟩
  intro templateId htemplate
  cases htemplate

/-- Adding a term of a template. -/
theorem addTemplateTerm_spec {templateId : Nat} (hbound : templateId < bound)
    (hbounded : builder.Bounded bound)
    (hresidual : message.values ≠ [] → templateId ∈ builder.residualLayoutIds)
    (h : builder.addTemplateTerm tables message templateId range = .ok next) :
    next.Bounded bound ∧ builder.Extends next ∧
      next.HasTerm tables (message, some templateId) range := by
  rcases bind_eq_ok_iff.mp h with ⟨term, hterm, h⟩
  cases h
  have hlayouts : ∀ other id, Located (if message.isDynamic range then builder.termLayouts
      else update builder.termLayouts (normalizeIndexTerm tables term) [] fun ids =>
        pushDistinct ids templateId) other id ↔ Located builder.termLayouts other id ∨
          message.isDynamic range = false ∧ other = normalizeIndexTerm tables term ∧
            id = templateId := by
    intro other id
    cases hdynamic : message.isDynamic range with
    | true => simp
    | false => simp [located_update]
  refine ⟨⟨?_, hbounded.residual, ?_⟩, ⟨?_, fun _ h => h, ?_⟩, term, hterm,
    mightContainHash_insertHash_self _ _, ?_⟩
  · dsimp only
    split
    · exact hbounded.nodup
    · exact nodup_keys_update hbounded.nodup _ _ _
  · intro other id hlocated
    rcases (hlayouts other id).mp hlocated with hold | ⟨_, _, rfl⟩
    · exact hbounded.located other id hold
    · exact hbound
  · exact fun hash hin => mightContainHash_insertHash_of hin _
  · exact fun other id hold => (hlayouts other id).mpr (.inl hold)
  · intro other hother
    cases hother
    by_cases hvalues : message.values = []
    · have hstatic : message.isDynamic range = false := by
        simp [ParsedMessage.isDynamic, hvalues]
      exact .inr ((hlayouts _ _).mpr (.inr ⟨hstatic, rfl, rfl⟩))
    · exact .inl (hresidual hvalues)

/-- The terms of one layout. -/
theorem addLayout_spec (hbound : ∀ templateId, entry.2 = some templateId → templateId < bound)
    (hbounded : builder.Bounded bound) (h : builder.addLayout tables entry = .ok next) :
    next.Bounded bound ∧ builder.Extends next ∧
      ∀ range ∈ entry.1.terms, next.HasTerm tables entry range := by
  rcases entry with ⟨message, templateId⟩
  cases templateId with
  | none =>
    exact Folds.foldlM_accumulates (TermIndexBuilder.Bounded bound) TermIndexBuilder.Extends
      (TermIndexBuilder.HasTerm tables (message, none)) .refl (fun _ _ _ => .trans)
      (fun _ _ _ hextends => .mono hextends)
      (fun _ _ _ _ hb hstep => addRawTerm_spec hb hstep) hbounded h
  | some templateId =>
    rcases bind_eq_ok_iff.mp h with ⟨id, hid, h⟩
    rcases tryU32_eq_ok_iff.mp hid with ⟨rfl, _⟩
    have hlt := hbound id rfl
    set start : TermIndexBuilder := { builder with
      residualLayoutIds :=
        if message.values = [] then builder.residualLayoutIds
        else builder.residualLayoutIds ++ [id] } with hstart
    have hresidual : ∀ other, other ∈ start.residualLayoutIds ↔
        other ∈ builder.residualLayoutIds ∨ message.values ≠ [] ∧ other = id := by grind
    have hbegin : start.Bounded bound ∧ (message.values ≠ [] → id ∈ start.residualLayoutIds) := by
      refine ⟨⟨hbounded.nodup, ?_, hbounded.located⟩, fun hvalues =>
        (hresidual id).mpr (.inr ⟨hvalues, rfl⟩)⟩
      intro other hin
      rcases (hresidual other).mp hin with hold | ⟨_, rfl⟩
      · exact hbounded.residual other hold
      · exact hlt
    have hextends : builder.Extends start :=
      ⟨fun _ h => h, fun other hin => (hresidual other).mpr (.inl hin), fun _ _ h => h⟩
    rcases Folds.foldlM_accumulates (fun b => TermIndexBuilder.Bounded bound b ∧
        (message.values ≠ [] → id ∈ b.residualLayoutIds))
      TermIndexBuilder.Extends (TermIndexBuilder.HasTerm tables (message, some id)) .refl
      (fun _ _ _ => .trans) (fun _ _ _ hextends => .mono hextends)
      (fun b range b' _ hb hstep => by
        rcases addTemplateTerm_spec hlt hb.1 hb.2 hstep with ⟨hbounded', hextends', hhas⟩
        exact ⟨⟨hbounded', fun hvalues => hextends'.residual _ (hb.2 hvalues)⟩, hextends', hhas⟩)
      hbegin h with ⟨hfinal, hmore, hterms⟩
    exact ⟨hfinal.1, hextends.trans hmore, hterms⟩

/-- The pass over all layouts indexes every term of every layout. -/
theorem addLayouts_spec {entries : List (ParsedMessage × Option Nat)}
    (hbound : ∀ entry ∈ entries, ∀ templateId, entry.2 = some templateId → templateId < bound)
    (hbounded : builder.Bounded bound)
    (h : entries.foldlM (TermIndexBuilder.addLayout tables) builder = .ok next) :
    next.Bounded bound ∧ builder.Extends next ∧
      ∀ entry ∈ entries, ∀ range ∈ entry.1.terms, next.HasTerm tables entry range :=
  Folds.foldlM_accumulates (TermIndexBuilder.Bounded bound) TermIndexBuilder.Extends
    (fun b entry => ∀ range ∈ entry.1.terms, b.HasTerm tables entry range) .refl
    (fun _ _ _ => .trans)
    (fun _ _ _ hextends hterms range hrange => .mono hextends (hterms range hrange))
    (fun _ entry _ hentry hb hstep => addLayout_spec (hbound entry hentry) hb hstep) hbounded h

/-! ## The pass over the field sets -/

/-- A dictionary pair names its key and its value. -/
structure PairNames (attributes : AttributeTables) (pair : Nat × Nat) (text : Str × Str) :
    Prop where
  key : attributes.keys[pair.1]? = some (utf8 text.1)
  value : ∃ table, attributes.values[pair.1]? = some table ∧
    table.dictionary[pair.2]? = some (utf8 text.2)

/-- Texts of a pair name it. -/
theorem pairNames_of_pairText {text : Str × Str} (h : pairText attributes pair = .ok text) :
    PairNames attributes pair text := by
  unfold pairText at h
  cases hkey : attributes.keys[pair.1]? with
  | none =>
    rw [hkey] at h
    cases h
  | some key =>
    rw [hkey] at h
    cases hvalue : attributes.values[pair.1]?.bind fun values => values.dictionary[pair.2]? with
    | none =>
      rw [hvalue] at h
      cases h
    | some value =>
      rw [hvalue] at h
      dsimp only at h
      cases hkeyText : fromUtf8 key with
      | none =>
        rw [hkeyText] at h
        cases h
      | some keyText =>
        rw [hkeyText] at h
        cases hvalueText : fromUtf8 value with
        | none =>
          rw [hvalueText] at h
          cases h
        | some valueText =>
          rw [hvalueText] at h
          cases h
          rcases Option.bind_eq_some_iff.mp hvalue with ⟨table, htable, hentry⟩
          refine ⟨?_, table, htable, ?_⟩
          · rw [hkey, fromUtf8_eq_some_iff.mp hkeyText]
          · rw [hentry, fromUtf8_eq_some_iff.mp hvalueText]

/-- Located pairs are dictionary pairs, at identifiers below the set count. -/
structure FieldSetsBounded (attributes : AttributeTables) (bound : Nat)
    (fieldSets : List ((Str × Str) × List Nat)) : Prop where
  nodup : (fieldSets.map Prod.fst).Nodup
  named : ∀ text ∈ fieldSets.map Prod.fst, ∃ pair, PairNames attributes pair text
  located : ∀ text id, Located fieldSets text id → id < bound

/-- The pair is located at the field set. -/
def HasPair (attributes : AttributeTables) (fieldSetId : Nat)
    (fieldSets : List ((Str × Str) × List Nat)) (pair : Nat × Nat) : Prop :=
  ∃ text, PairNames attributes pair text ∧ Located fieldSets text fieldSetId

/-- Every location is kept. -/
def FieldSetsExtend (fieldSets next : List ((Str × Str) × List Nat)) : Prop :=
  ∀ text id, Located fieldSets text id → Located next text id

variable {fieldSets next : List ((Str × Str) × List Nat)}

/-- Adding a pair of a field set. -/
theorem addFieldPair_spec {fieldSetId : Nat} (hbound : fieldSetId < bound)
    (hbounded : FieldSetsBounded attributes bound fieldSets)
    (h : addFieldPair attributes fieldSetId fieldSets pair = .ok next) :
    FieldSetsBounded attributes bound next ∧ FieldSetsExtend fieldSets next ∧
      HasPair attributes fieldSetId next pair := by
  rcases bind_eq_ok_iff.mp h with ⟨text, htext, h⟩
  cases h
  have hnames := pairNames_of_pairText htext
  refine ⟨⟨nodup_keys_update hbounded.nodup _ _ _, ?_, ?_⟩, ?_, text, hnames, ?_⟩
  · intro other hother
    rcases mem_keys_insert.mp hother with rfl | hold
    · exact ⟨pair, hnames⟩
    · exact hbounded.named other hold
  · intro other id hlocated
    rcases located_update.mp hlocated with hold | ⟨_, rfl⟩
    · exact hbounded.located other id hold
    · exact hbound
  · exact fun other id hold => located_update.mpr (.inl hold)
  · exact located_update.mpr (.inr ⟨rfl, rfl⟩)

/-- The pass over all field sets locates every pair of every set. -/
theorem addFieldSets_spec {entries : List (List (Nat × Nat) × Nat)}
    (hbound : ∀ entry ∈ entries, entry.2 < bound)
    (hbounded : FieldSetsBounded attributes bound fieldSets)
    (h : entries.foldlM (addFieldSet attributes) fieldSets = .ok next) :
    FieldSetsBounded attributes bound next ∧
      ∀ entry ∈ entries, ∀ pair ∈ entry.1, HasPair attributes entry.2 next pair := by
  have hkeep : ∀ (id : Nat) (s t : List ((Str × Str) × List Nat)) (pair : Nat × Nat),
      FieldSetsExtend s t → HasPair attributes id s pair → HasPair attributes id t pair := by
    rintro id s t pair hextends ⟨text, hnames, hlocated⟩
    exact ⟨text, hnames, hextends text id hlocated⟩
  have hset : ∀ (s : List ((Str × Str) × List Nat)) (entry : List (Nat × Nat) × Nat)
      (t : List ((Str × Str) × List Nat)), entry ∈ entries →
      FieldSetsBounded attributes bound s → addFieldSet attributes s entry = .ok t →
      FieldSetsBounded attributes bound t ∧ FieldSetsExtend s t ∧
        ∀ pair ∈ entry.1, HasPair attributes entry.2 t pair := by
    intro s entry t hentry hs hstep
    rcases bind_eq_ok_iff.mp hstep with ⟨id, hid, hstep⟩
    rcases tryU32_eq_ok_iff.mp hid with ⟨rfl, _⟩
    exact Folds.foldlM_accumulates (FieldSetsBounded attributes bound) FieldSetsExtend
      (HasPair attributes entry.2) (fun _ _ _ h => h)
      (fun _ _ _ h h' text id hold => h' text id (h text id hold)) (hkeep entry.2)
      (fun _ _ _ _ hb hpair => addFieldPair_spec (hbound entry hentry) hb hpair) hs hstep
  rcases Folds.foldlM_accumulates (FieldSetsBounded attributes bound) FieldSetsExtend
    (fun s entry => ∀ pair ∈ entry.1, HasPair attributes entry.2 s pair) (fun _ _ _ h => h)
    (fun _ _ _ h h' text id hold => h' text id (h text id hold))
    (fun s t entry hextends hpairs pair hpair =>
      hkeep entry.2 s t pair hextends (hpairs pair hpair))
    hset hbounded h with ⟨hfinal, _, hpairs⟩
  exact ⟨hfinal, hpairs⟩

/-! ## Reading the section back -/

/-- The columns and locators have the form the decoder insists on. -/
structure EmbeddedFrameIndex.WellFormed (index : EmbeddedFrameIndex)
    (layoutIds fieldSetIds : List Nat) : Prop where
  recordCount : index.recordCount < 2 ^ 32
  layoutLength : layoutIds.length = index.recordCount
  fieldSetLength : fieldSetIds.length = index.recordCount
  layoutCount : index.layoutCount < 2 ^ 32
  fieldSetCount : index.fieldSetCount < 2 ^ 32
  layouts : Packs index.layoutIds index.layoutCount layoutIds
  fieldSets : Packs index.fieldSetIds index.fieldSetCount fieldSetIds
  terms : StrictlySorted EmbeddedTermLocator.term index.terms
  fields : StrictlySorted EmbeddedFieldLocator.name index.fields

/-- Ordered items are read back. -/
theorem reads_readOrdered {κ : Type} [LinearOrder κ] {key : α → κ} {blobs : List Bytes}
    (hreads : List.Forall₂ (Reads item) blobs values) {previous : Option α}
    (hsorted : StrictlySorted key (previous.toList ++ values)) :
    Reads (readOrdered item key disordered values.length previous) blobs.flatten values := by
  induction hreads generalizing previous with
  | nil => exact reads_pure []
  | @cons blob value blobs values hhead _ ih =>
    have hpairs := List.pairwise_append.mp hsorted
    refine hhead.bind ?_
    refine Reads.require_bind ?_ ?_
    · simp_all
    · have hrest : StrictlySorted key ((some value).toList ++ values) := hpairs.2.1
      exact (ih hrest).bind_pure rfl

/-- A concatenation of encoded items with increasing keys reads back. -/
theorem reads_readOrdered_encodeAll {κ : Type} [LinearOrder κ] {key : α → κ}
    {encode : α → LogDbResult Bytes} {out : Bytes}
    (hitem : ∀ value bytes, encode value = .ok bytes → Reads item bytes value)
    (hsorted : StrictlySorted key values) (h : encodeAll encode values = .ok out) :
    Reads (readOrdered item key disordered values.length none) out values := by
  rcases encodeAll_eq_ok_iff.mp h with ⟨blobs, hblobs, rfl⟩
  apply reads_readOrdered
  · exact (hblobs.imp fun value bytes hbytes => hitem value bytes hbytes).flip
  · exact hsorted

/-- A term locator is read back. -/
theorem reads_readTermLocator {layoutCount : Nat} (hcount : layoutCount < 2 ^ 32)
    {locator : EmbeddedTermLocator} (h : encodeTermLocator layoutCount locator = .ok bytes) :
    Reads (readTermLocator layoutCount) bytes locator := by
  rcases bind_eq_ok_iff.mp h with ⟨term, hterm, h⟩
  rcases bind_eq_ok_iff.mp h with ⟨ids, hids, h⟩
  cases h
  refine (reads_readArcStr hterm).bind ?_
  exact (reads_readSortedIds hcount hids).bind_pure rfl

/-- A field locator is read back. -/
theorem reads_readFieldLocator {fieldSetCount : Nat} (hcount : fieldSetCount < 2 ^ 32)
    {locator : EmbeddedFieldLocator} (h : encodeFieldLocator fieldSetCount locator = .ok bytes) :
    Reads (readFieldLocator fieldSetCount) bytes locator := by
  unfold encodeFieldLocator at h
  simp only [bind_eq_ok_iff] at h
  obtain ⟨key, hkey, value, hvalue, ids, hids, h⟩ := h
  cases h
  refine (reads_readArcStr hkey).bind ?_
  refine (reads_readArcStr hvalue).bind ?_
  exact (reads_readSortedIds hcount hids).bind_pure rfl

/-- The index reads back from its section. -/
theorem decode_encode {index : EmbeddedFrameIndex} {layoutIds fieldSetIds : List Nat}
    {encoded : Bytes} (hindex : index.WellFormed layoutIds fieldSetIds)
    (h : index.encode = .ok encoded) : EmbeddedFrameIndex.decode encoded = .ok index := by
  unfold EmbeddedFrameIndex.encode at h
  simp only [bind_eq_ok_iff] at h
  obtain ⟨layouts, hlayouts, residual, hresidual, termCount, htermCount, terms, hterms, fieldSets,
    hfieldSets, fieldCount, hfieldCount, fields, hfields, h⟩ := h
  cases h
  have hreadLayouts := reads_readPackedColumn hindex.layouts hindex.layoutCount hlayouts
  have hreadFieldSets := reads_readPackedColumn hindex.fieldSets hindex.fieldSetCount hfieldSets
  rw [hindex.layoutLength] at hreadLayouts
  rw [hindex.fieldSetLength] at hreadFieldSets
  have htermSize : index.terms.length ≤ terms.length := by
    refine length_le_of_encodeAll (fun locator _ bytes hbytes => ?_) hterms
    exact (reads_readTermLocator hindex.layoutCount hbytes).ne_nil rfl
  have hfieldSize : index.fields.length ≤ fields.length := by
    refine length_le_of_encodeAll (fun locator _ bytes hbytes => ?_) hfields
    exact (reads_readFieldLocator hindex.fieldSetCount hbytes).ne_nil rfl
  apply readComponent_of_reads
  refine (reads_expectMagic _ _).bind ?_
  refine (reads_readU32 hindex.recordCount).bind ?_
  refine hreadLayouts.bind ?_
  refine (reads_readOptionalSortedIds hindex.layoutCount hresidual).bind ?_
  refine (reads_readMembershipFilter _).bind ?_
  refine (reads_readUsize_of_writeCount htermCount).bind ?_
  refine Reads.requireRemaining_bind (by simp only [List.length_append]; omega) ?_
  refine (reads_readOrdered_encodeAll (fun _ _ => reads_readTermLocator hindex.layoutCount)
    hindex.terms hterms).bind ?_
  refine hreadFieldSets.bind ?_
  refine (reads_readMembershipFilter _).bind ?_
  refine (reads_readUsize_of_writeCount hfieldCount).bind ?_
  refine Reads.requireRemaining_bind hfieldSize ?_
  exact (reads_readOrdered_encodeAll (fun _ _ => reads_readFieldLocator hindex.fieldSetCount)
    hindex.fields hfields).bind_pure rfl

end ShardLog.Structural
