import ShardLog.Query.Predicate
import ShardLog.Foundation.Sorted
import Mathlib.Data.Prod.Lex

/-!
# Query - Matching, result order and selection

A log query against one partition: which records match, the order in which they
are returned, and the selection of a result from decoded candidates.
-/

namespace ShardLog

open Utf8 Sorted List

/-! ## Queries -/

/-- Result order. -/
inductive QueryOrder where
  | oldestFirst
  | newestFirst
deriving DecidableEq, Repr

/-- Stable sort key of a lookup and its cursor. -/
inductive QuerySort where
  | offset
  | timestamp
deriving DecidableEq, Repr

/-- Position of a record in the result orders; as a cursor, the exclusive
continuation point of a lookup. -/
structure QueryCursor where
  timestampUnixNanos : UInt64
  offset : LogicalOffset
deriving DecidableEq, Repr

/-- Boolean log lookup against one logical partition. -/
structure LogQuery where
  topicPartition : TopicPartition
  terms : List Str := []
  exactFields : List MetadataField := []
  predicate : LogPredicate := .matchAll
  startOffset : Option LogicalOffset := none
  endOffset : Option LogicalOffset := none
  startTimestampUnixNanos : Option UInt64 := none
  endTimestampUnixNanos : Option UInt64 := none
  limit : Option Nat := none
  order : QueryOrder := .oldestFirst
  sort : QuerySort := .offset
  after : Option QueryCursor := none

/-- `Option::is_none_or`. -/
def isNoneOr {α : Type} (bound : Option α) (accept : α → Bool) : Bool :=
  match bound with
  | none => true
  | some value => accept value

/-- Comparison of two positions under a sort key: the offset, or the pair of
timestamp and offset. -/
def QuerySort.comparePositions (sort : QuerySort) (left right : QueryCursor) : Ordering :=
  match sort with
  | .offset => orderingOf left.offset.toNat right.offset.toNat
  | .timestamp =>
    (orderingOf left.timestampUnixNanos.toNat right.timestampUnixNanos.toNat).then
      (orderingOf left.offset.toNat right.offset.toNat)

/-- `Vec::truncate` under an optional limit. -/
def truncateTo {α : Type} (limit : Option Nat) (items : List α) : List α :=
  match limit with
  | none => items
  | some count => items.take count

@[simp] theorem truncateTo_nil {α : Type} (limit : Option Nat) :
    truncateTo limit ([] : List α) = [] := by
  cases limit with
  | none => rfl
  | some count => exact List.take_nil

variable {α β : Type}

theorem truncateTo_map (limit : Option Nat) (f : α → β) (items : List α) :
    truncateTo limit (items.map f) = (truncateTo limit items).map f := by
  cases limit with
  | none => rfl
  | some count => exact map_take.symm

/-- A cut keeps the order. -/
theorem truncateTo_sublist (limit : Option Nat) (items : List α) :
    (truncateTo limit items).Sublist items := by
  cases limit with
  | none => exact Sublist.refl items
  | some count => exact take_sublist count items

/-- Reading commutes with a limit, if each element can be read. -/
theorem filterMap_truncateTo {read : α → Option β} {items : List α} (limit : Option Nat)
    (hread : ∀ element ∈ items, (read element).isSome = true) :
    (truncateTo limit items).filterMap read = truncateTo limit (items.filterMap read) := by
  cases limit with
  | none => rfl
  | some count => exact filterMap_take hread count

namespace LogQuery

variable (query : LogQuery)

def offsetMatches (offset : LogicalOffset) : Bool :=
  isNoneOr query.startOffset (fun start => decide (start ≤ offset)) &&
    isNoneOr query.endOffset (fun stop => decide (offset < stop))

def timestampMatches (timestampUnixNanos : UInt64) : Bool :=
  isNoneOr query.startTimestampUnixNanos (fun start => decide (start ≤ timestampUnixNanos)) &&
    isNoneOr query.endTimestampUnixNanos (fun stop => decide (timestampUnixNanos < stop))

/-- Some range of the query has no element. -/
def hasInvalidRange : Bool :=
  (match query.startOffset, query.endOffset with
    | some start, some stop => decide (stop ≤ start)
    | _, _ => false) ||
  (match query.startTimestampUnixNanos, query.endTimestampUnixNanos with
    | some start, some stop => decide (stop ≤ start)
    | _, _ => false)

/-- Constraints of the listed terms and fields and of the predicate. -/
def requiredIndexConstraints : RequiredIndexConstraints :=
  collectRequiredConstraints query.predicate
    { terms := query.terms
      fields := query.exactFields.map fun field => (field.key, field.value)
      messageLiterals := []
      impossible := false }

/-- The indexes alone do not decide the query. -/
def needsRecordFilter : Bool :=
  query.startTimestampUnixNanos.isSome || query.endTimestampUnixNanos.isSome ||
    query.after.isSome || decide (query.sort = .timestamp) ||
    !predicateIsIndexOnlyConjunction query.predicate

/-- Postings alone answer the query, so that a limit may cut them. -/
def canApplyIndexLimit : Bool :=
  query.startOffset.isNone && query.endOffset.isNone && query.startTimestampUnixNanos.isNone &&
    query.endTimestampUnixNanos.isNone && query.after.isNone && decide (query.sort = .offset) &&
    predicateIsIndexOnlyConjunction query.predicate

section Records

variable (rules : TextRules) {R : Type} [StructuralRecordView R]

/-- The continuation point represented by one result. -/
def cursorFor (record : R) : QueryCursor where
  timestampUnixNanos := structuralTimestampUnixNanos record
  offset := structuralOffset record

/-- The record lies strictly beyond the cursor in the result order. -/
def cursorMatches (record : R) : Bool :=
  match query.after with
  | none => true
  | some cursor =>
    let ordering := query.sort.comparePositions (cursorFor record) cursor
    if query.order = .newestFirst then decide (ordering = .lt) else decide (ordering = .gt)

def legacyTermsMatch (record : R) : Bool :=
  query.terms.all fun expected => hasTerm rules (structuralMessage record) expected

def legacyFieldsMatch (record : R) : Bool := query.exactFields.all (fieldEquals record)

/-- The record satisfies every range, exact constraint, predicate and cursor. -/
def «matches» (record : R) : Bool :=
  query.offsetMatches (structuralOffset record) &&
    query.timestampMatches (structuralTimestampUnixNanos record) &&
    query.cursorMatches record &&
    query.legacyTermsMatch rules record &&
    query.legacyFieldsMatch record &&
    predicateMatches rules record query.predicate

/-- The filters left after the indexes answered the term and field constraints. -/
def matchesIndexCandidate (record : R) : Bool :=
  query.offsetMatches (structuralOffset record) &&
    query.timestampMatches (structuralTimestampUnixNanos record) &&
    query.cursorMatches record &&
    predicateMatches rules record query.predicate

/-- Comparison of two records in the result order. -/
def compare (left right : R) : Ordering :=
  let ordering := query.sort.comparePositions (cursorFor left) (cursorFor right)
  if query.order = .newestFirst then ordering.swap else ordering

/-- Residual filtering, result order and limit over decoded candidates. -/
def select (records : List R) : List R :=
  truncateTo query.limit (sortUnstableBy query.compare (records.filter (query.matches rules)))

end Records

end LogQuery

open LogQuery

/-! ## The result order -/

/-- Rank of a position: comparing positions compares their ranks. -/
def QuerySort.rank (sort : QuerySort) (position : QueryCursor) : Nat ×ₗ Nat :=
  match sort with
  | .offset => toLex (0, position.offset.toNat)
  | .timestamp => toLex (position.timestampUnixNanos.toNat, position.offset.toNat)

/-- Positions compare as their ranks. -/
theorem QuerySort.comparePositions_eq (sort : QuerySort) (left right : QueryCursor) :
    sort.comparePositions left right = orderingOf (sort.rank left) (sort.rank right) := by
  cases sort with
  | offset =>
    simp only [QuerySort.comparePositions, QuerySort.rank, orderingOf, Prod.Lex.toLex_lt_toLex,
      lt_irrefl, false_or, true_and, toLex_inj, Prod.mk.injEq]
  | timestamp =>
    simp only [QuerySort.comparePositions, QuerySort.rank, orderingOf, Prod.Lex.toLex_lt_toLex,
      toLex_inj, Prod.mk.injEq]
    rcases lt_trichotomy left.timestampUnixNanos.toNat right.timestampUnixNanos.toNat with
      hlt | heq | hgt
    · simp [hlt]
    · simp [heq]
    · simp [hgt.not_gt, hgt.ne']

namespace LogQuery

variable (query : LogQuery) {rules : TextRules} {R : Type} [StructuralRecordView R]
  {records : List R} {found : List R}

/-- The order of results in terms of ranks. -/
theorem compare_ne_gt_iff (left right : R) :
    query.compare left right ≠ .gt ↔
      if query.order = .newestFirst then
        query.sort.rank (cursorFor right) ≤ query.sort.rank (cursorFor left)
      else query.sort.rank (cursorFor left) ≤ query.sort.rank (cursorFor right) := by
  unfold compare
  rw [QuerySort.comparePositions_eq]
  by_cases horder : query.order = .newestFirst
  · simp only [if_pos horder, Ne, Ordering.swap_eq_gt, orderingOf_lt_iff, not_lt]
  · simp only [if_neg horder]
    exact orderingOf_ne_gt_iff

/-- The result order ranks any two records and is transitive. -/
theorem totalComparison : TotalComparison (query.compare (R := R)) where
  total left right := by
    simp only [compare_ne_gt_iff]
    split
    · exact le_total _ _
    · exact le_total _ _
  trans first second third := by
    simp only [compare_ne_gt_iff]
    split
    · exact fun h h' => h'.trans h
    · exact fun h h' => h.trans h'

/-- Records that compare equal have the same offset. -/
theorem offset_eq_of_compare {left right : R} (h : query.compare left right ≠ .gt)
    (h' : query.compare right left ≠ .gt) : structuralOffset left = structuralOffset right := by
  have hrank : query.sort.rank (cursorFor left) = query.sort.rank (cursorFor right) := by
    grind [compare_ne_gt_iff]
  apply UInt64.toNat_inj.mp
  cases hsort : query.sort with
  | offset =>
    rw [hsort] at hrank
    exact congrArg (fun rank => (ofLex rank).2) hrank
  | timestamp =>
    rw [hsort] at hrank
    exact congrArg (fun rank => (ofLex rank).2) hrank

/-- Records with distinct offsets never tie. -/
theorem separates_of_nodup (h : (records.map structuralOffset).Nodup) :
    Separates query.compare records := fun _ hleft _ hright hle hge =>
  inj_on_of_nodup_map h hleft hright (query.offset_eq_of_compare hle hge)

/-- Over records with distinct offsets, a selection is determined by its matches. -/
theorem select_eq_of_perm (hoffsets : (records.map structuralOffset).Nodup)
    (hfound : found.Perm (records.filter (query.matches rules))) :
    truncateTo query.limit (sortUnstableBy query.compare found) = query.select rules records := by
  have hseparates : Separates query.compare (records.filter (query.matches rules)) :=
    query.separates_of_nodup ((hoffsets.sublist ((filter_sublist).map _)))
  rw [select, sortUnstableBy_eq_of_perm query.totalComparison hfound hseparates]

/-- A selected record is a match. -/
theorem mem_of_mem_select {record : R} (h : record ∈ query.select rules records) :
    record ∈ records ∧ query.matches rules record = true := by
  have hsorted := (truncateTo_sublist _ _).subset h
  exact mem_filter.mp ((perm_sortUnstableBy _ _).mem_iff.mp hsorted)

/-- A larger value is also beyond a start. -/
theorem isNoneOr_start_mono {bound : Option UInt64} {value upper : UInt64} (hle : value ≤ upper)
    (h : isNoneOr bound (fun start => decide (start ≤ value)) = true) :
    isNoneOr bound (fun start => decide (start ≤ upper)) = true := by
  cases bound with
  | none => rfl
  | some start => exact decide_eq_true (UInt64.le_trans (of_decide_eq_true h) hle)

/-- A smaller value is also before an end. -/
theorem isNoneOr_stop_mono {bound : Option UInt64} {value lower : UInt64} (hle : lower ≤ value)
    (h : isNoneOr bound (fun stop => decide (value < stop)) = true) :
    isNoneOr bound (fun stop => decide (lower < stop)) = true := by
  cases bound with
  | none => rfl
  | some stop => exact decide_eq_true (UInt64.lt_of_le_of_lt hle (of_decide_eq_true h))

/-- An empty range has no values. -/
theorem inRange_eq_false {start stop : Option UInt64}
    (h : (match start, stop with
      | some start, some stop => decide (stop ≤ start)
      | _, _ => false) = true) (value : UInt64) :
    (isNoneOr start (fun start => decide (start ≤ value)) &&
      isNoneOr stop (fun stop => decide (value < stop))) ≠ true := by
  cases start with
  | none => cases h
  | some start =>
    cases stop with
    | none => cases h
    | some stop =>
      simp only [isNoneOr, decide_eq_true_eq, Ne, Bool.and_eq_true, UInt64.le_iff_toNat_le,
        UInt64.lt_iff_toNat_lt] at h ⊢
      omega

/-- A query with an empty range or a limit of zero selects nothing. -/
theorem select_eq_nil (h : query.limit = some 0 ∨ query.hasInvalidRange = true)
    (records : List R) : query.select rules records = [] := by
  rcases h with hlimit | hrange
  · simp [select, hlimit, truncateTo]
  · have hnone : records.filter (query.matches rules) = [] := by
      rw [filter_eq_nil_iff]
      intro record _ hmatch
      simp only [«matches», Bool.and_eq_true] at hmatch
      obtain ⟨⟨⟨⟨⟨hoffset, htimestamp⟩, _⟩, _⟩, _⟩, _⟩ := hmatch
      rcases Bool.or_eq_true _ _ ▸ hrange with hempty | hempty
      · exact inRange_eq_false hempty _ hoffset
      · exact inRange_eq_false hempty _ htimestamp
    rw [select, hnone]
    exact truncateTo_nil query.limit

end LogQuery

/-! ## Index constraints of a query -/

section Constraints

variable {query : LogQuery} {rules : TextRules} {R : Type} [StructuralRecordView R] {record : R}

/-- The listed terms and fields, as constraints. -/
theorem LogQuery.satisfiedBy_legacy_iff {literals : List Str} : RequiredIndexConstraints.SatisfiedBy
        { terms := query.terms
          fields := query.exactFields.map fun field => (field.key, field.value)
          messageLiterals := literals
          impossible := false } rules record ↔
      query.legacyTermsMatch rules record = true ∧ query.legacyFieldsMatch record = true := by
  have hequals : ∀ field, fieldEquals record field = true ↔
      (field.key, field.value) ∈ recordFields record := by simp [fieldEquals]
  simp only [legacyTermsMatch, legacyFieldsMatch, all_eq_true, hequals]
  constructor
  · intro h
    exact ⟨h.terms, fun field hfield => h.fields _ (mem_map_of_mem hfield)⟩
  · rintro ⟨hterms, hfields⟩
    refine ⟨rfl, hterms, ?_⟩
    intro pair hpair
    obtain ⟨field, hfield, rfl⟩ := mem_map.mp hpair
    exact hfields field hfield

/-- A match is an index candidate whose listed terms and fields match. -/
theorem LogQuery.matches_iff :
    query.matches rules record = true ↔ query.matchesIndexCandidate rules record = true ∧
        query.legacyTermsMatch rules record = true ∧ query.legacyFieldsMatch record = true := by
  simp only [LogQuery.matches, LogQuery.matchesIndexCandidate, Bool.and_eq_true]
  tauto

/-- A match satisfies the constraints that the indexes are asked for. -/
theorem LogQuery.satisfiedBy_of_matches (h : query.matches rules record = true) :
    query.requiredIndexConstraints.SatisfiedBy rules record := by
  obtain ⟨hcandidate, hlegacy⟩ := matches_iff.mp h
  simp only [matchesIndexCandidate, Bool.and_eq_true] at hcandidate
  exact satisfiedBy_collectRequiredConstraints (satisfiedBy_legacy_iff.mpr hlegacy) hcandidate.2

/-- A match lies in the range of offsets. -/
theorem LogQuery.offsetMatches_of_matches (h : query.matches rules record = true) :
    query.offsetMatches (structuralOffset record) = true := by
  simp only [LogQuery.matches, Bool.and_eq_true] at h
  exact h.1.1.1.1.1

section

variable (h : query.requiredIndexConstraints.impossible = true)

include h

/-- No record matches a query with impossible constraints. -/
theorem LogQuery.filter_matches_of_impossible (records : List R) :
    records.filter (query.matches rules) = [] := by
  refine filter_eq_nil_iff.mpr fun record _ hmatch => ?_
  have hpossible := (satisfiedBy_of_matches hmatch).possible
  rw [h] at hpossible
  cases hpossible

/-- An impossible query selects nothing. -/
theorem LogQuery.select_eq_nil_of_impossible (records : List R) :
    query.select rules records = [] := by
  rw [select, query.filter_matches_of_impossible h]
  exact truncateTo_nil _

end

/-- The candidates of the indexes that pass the remaining filters are the matches. -/
theorem LogQuery.matches_iff_satisfiedBy :
    query.matches rules record = true ↔ query.requiredIndexConstraints.SatisfiedBy rules record ∧
        query.matchesIndexCandidate rules record = true := by
  constructor
  · intro h
    exact ⟨satisfiedBy_of_matches h, (matches_iff.mp h).1⟩
  · rintro ⟨hsatisfied, hcandidate⟩
    exact matches_iff.mpr ⟨hcandidate,
      satisfiedBy_legacy_iff.mp (satisfiedBy_of_collectRequiredConstraints hsatisfied)⟩

/-- When no record filter is needed, only the offset range is left to check. -/
theorem LogQuery.matchesIndexCandidate_of_satisfiedBy (hfilter : query.needsRecordFilter = false)
    (h : query.requiredIndexConstraints.SatisfiedBy rules record) :
    query.matchesIndexCandidate rules record = query.offsetMatches (structuralOffset record) := by
  simp only [needsRecordFilter, Bool.or_eq_false_iff, Bool.not_eq_false',
    Option.isSome_eq_false_iff, Option.isNone_iff_eq_none] at hfilter
  obtain ⟨⟨⟨⟨hstart, hstop⟩, hafter⟩, _⟩, honly⟩ := hfilter
  have hpredicate := predicateMatches_of_satisfiedBy honly h
  simp [matchesIndexCandidate, timestampMatches, cursorMatches,
    hstart, hstop, hafter, isNoneOr, hpredicate]

end Constraints

end ShardLog
