import ShardLog.Stripe.Apply

/-!
# Stripe - Numbering the keys of a record

Numbering the terms and fields of a record keeps the inverted indexes of its
partition exact, and gives the numbers of the record's keys, each once.
-/

namespace ShardLog.Stripe

open Utf8 AssocMap PartitionIndex

/-! ## Numbering -/

section Interning

variable {Placement : Type} {tables : UnicodeTables} {index : PartitionIndex Placement}
  {documents : List (List Str)} {grown final : PartitionIndex Placement}

/-- The keys a message is indexed under. -/
def termKeys (tables : UnicodeTables) (message : Str) : List Str :=
  (scanMessageTerms tables message).map (normalizeTerm tables)

/-- The keys a list of fields is indexed under. -/
def fieldKeys (fields : List MetadataField) : List (Str × Str) :=
  fields.map fun field => (field.key, field.value)

/-- A table of terms that grew to number more keys, and stayed exact. -/
structure TermsGrown (index grown : PartitionIndex Placement) (documents : List (List Str)) :
    Prop where
  inverts : Inverts (get grown.termIds) grown.termPostings documents
  larger : Extends (get index.termIds) (get grown.termIds)
  others : grown = { index with termIds := grown.termIds, termPostings := grown.termPostings }

/-- Numbering a term. -/
theorem internTerm_spec (h : Inverts (get index.termIds) index.termPostings documents) (key : Str) :
    TermsGrown index (index.internTerm key).2 documents ∧
      get (index.internTerm key).2.termIds key = some (index.internTerm key).1 := by
  unfold internTerm
  cases hget : get index.termIds key with
  | some termId => exact ⟨⟨h, Extends.refl, rfl⟩, hget⟩
  | none =>
    have hlookup : get (insert index.termIds key index.termPostings.length) =
        fun other => if other = key then some index.termPostings.length
          else get index.termIds other := by
      funext other
      exact get_insert _ _ _ _
    refine ⟨⟨?_, ?_, rfl⟩, get_insert_self _ _ _⟩
    · dsimp only
      rw [hlookup]
      exact h.intern hget
    · intro other id hid
      rw [hlookup]
      dsimp only
      rw [if_neg (by rintro rfl; rw [hget] at hid; cases hid), hid]

theorem TermsGrown.trans (h : TermsGrown index grown documents)
    (h' : TermsGrown grown final documents) :
    TermsGrown index final documents where
  inverts := h'.inverts
  larger := h.larger.trans h'.larger
  others := by
    rw [h'.others, h.others]

/-- Numbering the terms of a message keeps the term index exact and gives the
numbers of its keys. -/
theorem internTerms_spec {terms keys : List Str} {termIds : List Nat}
    (h : Inverts (get index.termIds) index.termPostings documents)
    (hnumbers : Numbers (get index.termIds) keys termIds) :
    TermsGrown index (internTerms tables terms termIds index).2 documents ∧
      Numbers (get (internTerms tables terms termIds index).2.termIds)
        (keys ++ terms.map (normalizeTerm tables))
        (internTerms tables terms termIds index).1 := by
  induction terms generalizing index keys termIds with
  | nil =>
    rw [List.map_nil, List.append_nil]
    exact ⟨⟨h, Extends.refl, rfl⟩, hnumbers⟩
  | cons term rest ih =>
    obtain ⟨hgrown, hget⟩ := internTerm_spec h (normalizeTerm tables term)
    have hnext := ih hgrown.inverts ((hnumbers.mono hgrown.larger).append hget)
    simp only [List.append_assoc, List.singleton_append] at hnext
    simp only [internTerms, List.contains_iff_mem, List.map_cons]
    exact ⟨hgrown.trans hnext.1, hnext.2⟩

/-- A table of fields that grew to number more keys, and stayed exact. -/
structure FieldsGrown (index grown : PartitionIndex Placement)
    (documents : List (List (Str × Str))) : Prop where
  inverts : Inverts (lookupField grown.fieldIds) grown.fieldPostings documents
  larger : Extends (lookupField index.fieldIds) (lookupField grown.fieldIds)
  others : grown = { index with fieldIds := grown.fieldIds, fieldPostings := grown.fieldPostings }

/-- The nested map of fields, read as a map of pairs. -/
theorem lookupField_update (fieldIds : List (Str × List (Str × Nat))) (field other : Str × Str)
    (id : Nat) :
    lookupField (update fieldIds field.1 [] fun values =>
      insert values field.2 id) other =
      if other = field then some id else lookupField fieldIds other := by
  unfold lookupField
  rw [get_update]
  by_cases hkey : other.1 = field.1
  · rw [if_pos hkey, Option.bind_some, get_insert, hkey]
    by_cases hvalue : other.2 = field.2
    · rw [if_pos hvalue, if_pos (Prod.ext hkey hvalue)]
    · rw [if_neg hvalue, if_neg (fun heq => hvalue (congrArg Prod.snd heq))]
      cases get fieldIds field.1 with
      | none => rfl
      | some values => rfl
  · rw [if_neg hkey, if_neg (fun heq => hkey (congrArg Prod.fst heq))]

variable {documents : List (List (Str × Str))}

/-- Numbering a field. -/
theorem internField_spec (h : Inverts (lookupField index.fieldIds) index.fieldPostings documents)
    (field : MetadataField) :
    FieldsGrown index (index.internField field).2 documents ∧
      lookupField (index.internField field).2.fieldIds (field.key, field.value) =
        some (index.internField field).1 := by
  unfold internField
  cases hget : lookupField index.fieldIds (field.key, field.value) with
  | some fieldId => exact ⟨⟨h, Extends.refl, rfl⟩, hget⟩
  | none =>
    have hlookup := fun other => lookupField_update index.fieldIds (field.key, field.value) other
      index.fieldPostings.length
    refine ⟨⟨?_, ?_, rfl⟩, ?_⟩
    · dsimp only
      rw [funext hlookup]
      exact h.intern hget
    · intro other id hid
      rw [hlookup, if_neg (by rintro rfl; rw [hget] at hid; cases hid), hid]
    · dsimp only
      rw [hlookup, if_pos rfl]

theorem FieldsGrown.trans (h : FieldsGrown index grown documents)
    (h' : FieldsGrown grown final documents) : FieldsGrown index final documents where
  inverts := h'.inverts
  larger := h.larger.trans h'.larger
  others := by
    rw [h'.others, h.others]

/-- Numbering the fields of a record keeps the field index exact and gives the
numbers of its keys. -/
theorem internFields_spec {fields earlier : List MetadataField}
    {fieldIds : List Nat} (h : Inverts (lookupField index.fieldIds) index.fieldPostings documents)
    (hnumbers : Numbers (lookupField index.fieldIds) (fieldKeys earlier) fieldIds) :
    FieldsGrown index (internFields earlier fields fieldIds index).2 documents ∧
      Numbers (lookupField (internFields earlier fields fieldIds index).2.fieldIds)
        (fieldKeys (earlier ++ fields))
        (internFields earlier fields fieldIds index).1 := by
  induction fields generalizing index earlier fieldIds with
  | nil =>
    rw [List.append_nil]
    exact ⟨⟨h, Extends.refl, rfl⟩, hnumbers⟩
  | cons field rest ih =>
    have hkeys : fieldKeys (earlier ++ [field]) =
        fieldKeys earlier ++ [(field.key, field.value)] := by simp [fieldKeys]
    have hmem : (earlier.any fun existing => existing.key == field.key &&
        existing.value == field.value) = true ↔ (field.key, field.value) ∈ fieldKeys earlier := by
      simp [fieldKeys]
    have hsplit : earlier ++ field :: rest = earlier ++ [field] ++ rest := by simp
    rw [internFields, hsplit]
    by_cases hold : (field.key, field.value) ∈ fieldKeys earlier
    · rw [if_pos (hmem.mpr hold)]
      apply ih h
      rw [hkeys]
      exact hnumbers.append_of_mem hold
    · rw [if_neg (hold ∘ hmem.mp)]
      obtain ⟨hgrown, hget⟩ := internField_spec h field
      have hmono := hnumbers.mono hgrown.larger
      -- the number of a new key is not among the numbers of the earlier ones
      have hnew : (index.internField field).1 ∉ fieldIds := by
        intro hin
        obtain ⟨other, hother, hid⟩ := (hmono.mem_iff _).mp hin
        exact hold (hgrown.inverts.injective hid hget ▸ hother)
      have happend := hmono.append hget
      rw [if_neg hnew, ← hkeys] at happend
      have hnext := ih hgrown.inverts happend
      exact ⟨hgrown.trans hnext.1, hnext.2⟩

end Interning

end ShardLog.Stripe
