import ShardLog.Text

/-!
# Query - Predicates and the index constraints they imply

The Boolean predicates of a log query, their evaluation against one record, and
the index constraints that the planner reads off a predicate.
-/

namespace ShardLog

open Utf8

/-! ## Predicates -/

/-- Literal text operations. -/
inductive TextMatchKind where
  | exact
  | contains
  | startsWith
  | endsWith
deriving DecidableEq, Repr

/-- Reusable literal text matcher. -/
structure TextMatcher where
  value : Str
  kind : TextMatchKind
  caseSensitivity : CaseSensitivity
deriving DecidableEq, Repr

/-- A validated regular expression, given by the pattern and the case handling it
was compiled from. -/
structure LogRegex where
  pattern : Str
  caseSensitivity : CaseSensitivity
deriving DecidableEq, Repr

/-- Integer comparison for numeric metadata. -/
inductive NumericComparison where
  | equal
  | notEqual
  | lessThan
  | lessThanOrEqual
  | greaterThan
  | greaterThanOrEqual
deriving DecidableEq, Repr

/-- Exact Boolean predicate evaluated against one normalized log record. -/
inductive LogPredicate where
  | matchAll
  | matchNone
  | term (term : Str)
  | message (matcher : TextMatcher)
  | messageRegex (regex : LogRegex)
  | fieldExists (key : Str)
  | field (key : Str) (matcher : TextMatcher)
  | fieldIn (key : Str) (values : List Str)
  | fieldRegex (key : Str) (regex : LogRegex)
  | fieldNumeric (key : Str) (comparison : NumericComparison) (value : Int)
  | and (predicates : List LogPredicate)
  | or (predicates : List LogPredicate)
  | not (predicate : LogPredicate)
deriving Repr

/-! ## Text operations -/

/-- What the engine is told about text: Unicode tables, the equality of terms, and regular
expressions. -/
structure TextRules where
  tables : UnicodeTables
  termEqual : Str → Str → Bool
  isMatch : LogRegex → Str → Bool

/-- The rules of the source: terms are compared by `text_equal`, ignoring case. -/
def TextRules.source (tables : UnicodeTables) (isMatch : LogRegex → Str → Bool) : TextRules where
  tables := tables
  termEqual term expected := textEqual tables term expected .insensitive
  isMatch := isMatch

/-- The rules under which two terms are equal when the index files them under one
key. -/
def TextRules.normalized (tables : UnicodeTables) (isMatch : LogRegex → Str → Bool) :
    TextRules where
  tables := tables
  termEqual term expected := normalizeTerm tables term == normalizeTerm tables expected
  isMatch := isMatch

/-- `str::contains`. -/
def containsText (haystack needle : Str) : Bool := haystack.tails.any needle.isPrefixOf

/-- Some part of the text of the length of the needle. -/
def anyWindow (haystack needle : Str) (accept : Str → Bool) : Bool :=
  haystack.tails.any fun tail =>
    decide (needle.length ≤ tail.length) && accept (tail.take needle.length)

def textContains (tables : UnicodeTables) (haystack needle : Str)
    (caseSensitivity : CaseSensitivity) : Bool :=
  if needle.isEmpty then true
  else
    match caseSensitivity with
    | .sensitive => containsText haystack needle
    | .insensitive =>
      if isAscii haystack && isAscii needle then
        anyWindow haystack needle fun window => eqIgnoreAsciiCase window needle
      else containsText (toLowercase tables haystack) (toLowercase tables needle)

def textPrefix (tables : UnicodeTables) (observed expected : Str) : CaseSensitivity → Bool
  | .sensitive => expected.isPrefixOf observed
  | .insensitive =>
    if isAscii observed && isAscii expected then
      decide (expected.length ≤ observed.length) &&
        eqIgnoreAsciiCase (observed.take expected.length) expected
    else (toLowercase tables expected).isPrefixOf (toLowercase tables observed)

def textSuffix (tables : UnicodeTables) (observed expected : Str) : CaseSensitivity → Bool
  | .sensitive => expected.isSuffixOf observed
  | .insensitive =>
    if isAscii observed && isAscii expected then
      decide (expected.length ≤ observed.length) &&
        eqIgnoreAsciiCase (observed.drop (observed.length - expected.length)) expected
    else (toLowercase tables expected).isSuffixOf (toLowercase tables observed)

def textMatches (tables : UnicodeTables) (observed : Str) (matcher : TextMatcher) : Bool :=
  match matcher.kind with
  | .exact => textEqual tables observed matcher.value matcher.caseSensitivity
  | .contains => textContains tables observed matcher.value matcher.caseSensitivity
  | .startsWith => textPrefix tables observed matcher.value matcher.caseSensitivity
  | .endsWith => textSuffix tables observed matcher.value matcher.caseSensitivity

/-- The value of a nonempty text of decimal digits. -/
def parseDigits (digits : Str) : Option Nat :=
  if !digits.isEmpty && digits.all Char.isDigit then
    some (digits.foldl (fun value digit => value * 10 + (digit.toNat - 48)) 0)
  else none

/-- `str::parse::<i128>`: an optional sign and decimal digits, in range. -/
def parseI128 : Str → Option Int
  | '-' :: digits => do
      let value ← parseDigits digits
      if value ≤ 2 ^ 127 then some (-(value : Int)) else none
  | '+' :: digits => do
      let value ← parseDigits digits
      if value < 2 ^ 127 then some value else none
  | digits => do
      let value ← parseDigits digits
      if value < 2 ^ 127 then some value else none

def compareNumeric (observed : Int) (comparison : NumericComparison) (expected : Int) : Bool :=
  match comparison with
  | .equal => decide (observed = expected)
  | .notEqual => decide (observed ≠ expected)
  | .lessThan => decide (observed < expected)
  | .lessThanOrEqual => decide (observed ≤ expected)
  | .greaterThan => decide (observed > expected)
  | .greaterThanOrEqual => decide (observed ≥ expected)

/-! ## Evaluation -/

section Evaluation

variable (rules : TextRules) {R : Type} [StructuralRecordView R] (record : R)

/-- Some term of the message equals the expected term. -/
def hasTerm (message expected : Str) : Bool :=
  (analyzeMessageTerms rules.tables message).any fun term => rules.termEqual term expected

/-- Some field of the record has the key and an accepted value. -/
def anyField (key : Str) (accept : Str → Bool) : Bool :=
  (recordFields record).any fun field => field.1 == key && accept field.2

def fieldEquals (expected : MetadataField) : Bool :=
  (recordFields record).any fun field => field.1 == expected.key && field.2 == expected.value

mutual

/-- Whether a record satisfies a predicate. -/
def predicateMatches : LogPredicate → Bool
  | .matchAll => true
  | .matchNone => false
  | .term term => hasTerm rules (structuralMessage record) term
  | .message matcher => textMatches rules.tables (structuralMessage record) matcher
  | .messageRegex regex => rules.isMatch regex (structuralMessage record)
  | .fieldExists key => anyField record key fun _ => true
  | .field key matcher => anyField record key fun value => textMatches rules.tables value matcher
  | .fieldIn key values => anyField record key fun value => values.any fun expected =>
    value == expected
  | .fieldRegex key regex => anyField record key (rules.isMatch regex)
  | .fieldNumeric key comparison value => anyField record key fun observed =>
    match parseI128 observed with
    | some parsed => compareNumeric parsed comparison value
    | none => false
  | .and predicates => allPredicatesMatch predicates
  | .or predicates => anyPredicateMatches predicates
  | .not predicate => !predicateMatches predicate

def allPredicatesMatch : List LogPredicate → Bool
  | [] => true
  | predicate :: rest => predicateMatches predicate && allPredicatesMatch rest

def anyPredicateMatches : List LogPredicate → Bool
  | [] => false
  | predicate :: rest => predicateMatches predicate || anyPredicateMatches rest

end

end Evaluation

/-! ## Index constraints of a predicate -/

/-- What a record has to satisfy, in the terms of the indexes. -/
structure RequiredIndexConstraints where
  terms : List Str
  fields : List (Str × Str)
  messageLiterals : List Str
  impossible : Bool
deriving Repr

/-- A literal text test that an index of exact field values answers. -/
def TextMatcher.isExactSensitive (matcher : TextMatcher) : Bool :=
  decide (matcher.kind = .exact ∧ matcher.caseSensitivity = .sensitive)

mutual

/-- Add the constraints that every match of a predicate satisfies. -/
def collectRequiredConstraints : LogPredicate → RequiredIndexConstraints → RequiredIndexConstraints
  | .matchNone, constraints => { constraints with impossible := true }
  | .term term, constraints => { constraints with terms := constraints.terms ++ [term] }
  | .field key matcher, constraints =>
    if matcher.isExactSensitive then
      { constraints with fields := constraints.fields ++ [(key, matcher.value)] }
    else constraints
  | .and predicates, constraints => collectAllConstraints predicates constraints
  | .message matcher, constraints =>
    { constraints with messageLiterals := constraints.messageLiterals ++ [matcher.value] }
  | .matchAll, constraints | .messageRegex _, constraints | .fieldExists _, constraints
  | .fieldIn _ _, constraints | .fieldRegex _ _, constraints | .fieldNumeric _ _ _, constraints
  | .or _, constraints | .not _, constraints => constraints

def collectAllConstraints : List LogPredicate → RequiredIndexConstraints → RequiredIndexConstraints
  | [], constraints => constraints
  | predicate :: rest, constraints =>
    collectAllConstraints rest (collectRequiredConstraints predicate constraints)

end

mutual

/-- A predicate that the indexes decide without the record. -/
def predicateIsIndexOnlyConjunction : LogPredicate → Bool
  | .matchAll | .matchNone | .term _ => true
  | .field _ matcher => matcher.isExactSensitive
  | .and predicates => allIndexOnly predicates
  | .message _ | .messageRegex _ | .fieldExists _ | .fieldIn _ _ | .fieldRegex _ _
  | .fieldNumeric _ _ _ | .or _ | .not _ => false

def allIndexOnly : List LogPredicate → Bool
  | [] => true
  | predicate :: rest => predicateIsIndexOnlyConjunction predicate && allIndexOnly rest

end

section Constraints

variable {rules : TextRules} {R : Type} [StructuralRecordView R] {record : R}

/-- The record meets every constraint that an index can check. -/
structure RequiredIndexConstraints.SatisfiedBy (constraints : RequiredIndexConstraints)
    (rules : TextRules) (record : R) : Prop where
  possible : constraints.impossible = false
  terms : ∀ term ∈ constraints.terms, hasTerm rules (structuralMessage record) term = true
  fields : ∀ field ∈ constraints.fields, field ∈ recordFields record

/-- An exact case-sensitive field test is membership of the field. -/
theorem predicateMatches_field_iff {key : Str} {matcher : TextMatcher}
    (h : matcher.isExactSensitive = true) :
    predicateMatches rules record (.field key matcher) = true ↔
      (key, matcher.value) ∈ recordFields record := by
  obtain ⟨hkind, hcase⟩ := of_decide_eq_true h
  simp [predicateMatches, anyField, textMatches, hkind, hcase, textEqual]

mutual

/-- A matching record satisfies the constraints collected from the predicate. -/
theorem satisfiedBy_collectRequiredConstraints :
    ∀ {predicate : LogPredicate} {constraints : RequiredIndexConstraints},
      constraints.SatisfiedBy rules record → predicateMatches rules record predicate = true →
      (collectRequiredConstraints predicate constraints).SatisfiedBy rules record
  | .matchNone, _, _, hmatch => by
      cases hmatch
  | .term term, constraints, h, hmatch => by
      rw [collectRequiredConstraints]
      exact ⟨h.possible,
        List.forall_mem_append.mpr ⟨h.terms, List.forall_mem_singleton.mpr hmatch⟩, h.fields⟩
  | .field key matcher, constraints, h, hmatch => by
      rw [collectRequiredConstraints]
      by_cases hexact : matcher.isExactSensitive = true
      · rw [if_pos hexact]
        refine ⟨h.possible, h.terms, ?_⟩
        intro other hother
        rcases List.mem_append.mp hother with hold | hnew
        · exact h.fields other hold
        · grind [predicateMatches_field_iff]
      · rw [if_neg hexact]
        exact h
  | .and predicates, constraints, h, hmatch => by
      rw [collectRequiredConstraints]
      exact satisfiedBy_collectAllConstraints h hmatch
  | .message matcher, constraints, h, _ => by
      rw [collectRequiredConstraints]
      exact ⟨h.possible, h.terms, h.fields⟩
  | .matchAll, _, h, _ | .messageRegex _, _, h, _ | .fieldExists _, _, h, _ | .fieldIn _ _, _, h, _
  | .fieldRegex _ _, _, h, _ | .fieldNumeric _ _ _, _, h, _ | .or _, _, h, _ | .not _, _, h, _ => by
      rwa [collectRequiredConstraints]

/-- A match of all predicates satisfies what is collected. -/
theorem satisfiedBy_collectAllConstraints :
    ∀ {predicates : List LogPredicate} {constraints : RequiredIndexConstraints},
      constraints.SatisfiedBy rules record → allPredicatesMatch rules record predicates = true →
      (collectAllConstraints predicates constraints).SatisfiedBy rules record
  | [], _, h, _ => by rwa [collectAllConstraints]
  | predicate :: rest, _, h, hmatch => by
      rw [allPredicatesMatch, Bool.and_eq_true] at hmatch
      rw [collectAllConstraints]
      exact satisfiedBy_collectAllConstraints
        (satisfiedBy_collectRequiredConstraints h hmatch.1) hmatch.2

end

mutual

/-- Collecting only adds constraints. -/
theorem satisfiedBy_of_collectRequiredConstraints :
    ∀ {predicate : LogPredicate} {constraints : RequiredIndexConstraints},
      (collectRequiredConstraints predicate constraints).SatisfiedBy rules record →
      constraints.SatisfiedBy rules record
  | .matchNone, _, h => by
      cases h.possible
  | .term term, _, h => by
      exact ⟨h.possible, fun other hother => h.terms other (List.mem_append_left _ hother),
        h.fields⟩
  | .field key matcher, _, h => by
      rw [collectRequiredConstraints] at h
      by_cases hexact : matcher.isExactSensitive = true
      · rw [if_pos hexact] at h
        exact ⟨h.possible, h.terms, fun other hother =>
          h.fields other (List.mem_append_left _ hother)⟩
      · rwa [if_neg hexact] at h
  | .and predicates, _, h => by
      exact satisfiedBy_of_collectAllConstraints h
  | .message matcher, _, h => by
      exact ⟨h.possible, h.terms, h.fields⟩
  | .matchAll, _, h | .messageRegex _, _, h | .fieldExists _, _, h | .fieldIn _ _, _, h
  | .fieldRegex _ _, _, h | .fieldNumeric _ _ _, _, h | .or _, _, h | .not _, _, h => by
      rwa [collectRequiredConstraints] at h

/-- Collecting only adds constraints. -/
theorem satisfiedBy_of_collectAllConstraints :
    ∀ {predicates : List LogPredicate} {constraints : RequiredIndexConstraints},
      (collectAllConstraints predicates constraints).SatisfiedBy rules record →
      constraints.SatisfiedBy rules record
  | [], _, h => by rwa [collectAllConstraints] at h
  | predicate :: rest, _, h => by
      exact satisfiedBy_of_collectRequiredConstraints (satisfiedBy_of_collectAllConstraints h)

end

mutual

/-- For a conjunction that the indexes decide, a record that satisfies the
collected constraints matches. -/
theorem predicateMatches_of_satisfiedBy :
    ∀ {predicate : LogPredicate} {constraints : RequiredIndexConstraints},
      predicateIsIndexOnlyConjunction predicate = true →
      (collectRequiredConstraints predicate constraints).SatisfiedBy rules record →
      predicateMatches rules record predicate = true
  | .matchAll, _, _, _ => by rw [predicateMatches]
  | .matchNone, _, _, h => by
      cases h.possible
  | .term term, _, _, h => by
      rw [predicateMatches]
      exact h.terms term (List.mem_append_right _ (List.mem_singleton_self _))
  | .field key matcher, _, honly, h => by
      rw [predicateIsIndexOnlyConjunction] at honly
      rw [collectRequiredConstraints, if_pos honly] at h
      apply (predicateMatches_field_iff honly).mpr
      exact h.fields _ (List.mem_append_right _ (List.mem_singleton_self _))
  | .and predicates, _, honly, h => by
      rw [predicateMatches]
      exact allPredicatesMatch_of_satisfiedBy honly h
  | .message _, _, honly, _ | .messageRegex _, _, honly, _ | .fieldExists _, _, honly, _
  | .fieldIn _ _, _, honly, _ | .fieldRegex _ _, _, honly, _ | .fieldNumeric _ _ _, _, honly, _
  | .or _, _, honly, _ | .not _, _, honly, _ => by
      cases honly

/-- Index-only predicates match where their constraints hold. -/
theorem allPredicatesMatch_of_satisfiedBy :
    ∀ {predicates : List LogPredicate} {constraints : RequiredIndexConstraints},
      allIndexOnly predicates = true →
      (collectAllConstraints predicates constraints).SatisfiedBy rules record →
      allPredicatesMatch rules record predicates = true
  | [], _, _, _ => by rw [allPredicatesMatch]
  | predicate :: rest, _, honly, h => by
      rw [allIndexOnly, Bool.and_eq_true] at honly
      have hfirst := predicateMatches_of_satisfiedBy honly.1
        (satisfiedBy_of_collectAllConstraints h)
      rw [allPredicatesMatch, hfirst, allPredicatesMatch_of_satisfiedBy honly.2 h]
      rfl

end

mutual

/-- A conjunction that the indexes decide asks for no message literal. -/
theorem messageLiterals_collectRequiredConstraints :
    ∀ {predicate : LogPredicate} {constraints : RequiredIndexConstraints},
      predicateIsIndexOnlyConjunction predicate = true →
      (collectRequiredConstraints predicate constraints).messageLiterals =
        constraints.messageLiterals
  | .matchAll, _, _ | .matchNone, _, _ | .term _, _, _ => by rw [collectRequiredConstraints]
  | .field _ _, _, honly => by
      rw [predicateIsIndexOnlyConjunction] at honly
      rw [collectRequiredConstraints, if_pos honly]
  | .and _, _, honly => by
      rw [collectRequiredConstraints]
      exact messageLiterals_collectAllConstraints honly
  | .message _, _, honly | .messageRegex _, _, honly | .fieldExists _, _, honly
  | .fieldIn _ _, _, honly | .fieldRegex _ _, _, honly | .fieldNumeric _ _ _, _, honly
  | .or _, _, honly | .not _, _, honly => by
      cases honly

/-- Index-only predicates add no literals. -/
theorem messageLiterals_collectAllConstraints :
    ∀ {predicates : List LogPredicate} {constraints : RequiredIndexConstraints},
      allIndexOnly predicates = true →
      (collectAllConstraints predicates constraints).messageLiterals = constraints.messageLiterals
  | [], _, _ => by rw [collectAllConstraints]
  | predicate :: rest, _, honly => by
      rw [allIndexOnly, Bool.and_eq_true] at honly
      rw [collectAllConstraints, messageLiterals_collectAllConstraints honly.2,
        messageLiterals_collectRequiredConstraints honly.1]

end

/-- A match needs the collected constraints, and it needs nothing else where the indexes
decide the predicate. -/
theorem collectRequiredConstraints_exact (rules : TextRules) (record : R)
    (predicate : LogPredicate) :
    let constraints := collectRequiredConstraints predicate ⟨[], [], [], false⟩
    (predicateMatches rules record predicate = true → constraints.SatisfiedBy rules record) ∧
      (predicateIsIndexOnlyConjunction predicate = true →
        (predicateMatches rules record predicate = true ↔
          constraints.SatisfiedBy rules record)) := by
  have hnone : RequiredIndexConstraints.SatisfiedBy ⟨[], [], [], false⟩ rules record :=
    ⟨rfl, by simp, by simp⟩
  have hneeded := @satisfiedBy_collectRequiredConstraints rules R _ record predicate _ hnone
  exact ⟨hneeded, fun honly => ⟨hneeded, predicateMatches_of_satisfiedBy honly⟩⟩

end Constraints

end ShardLog
