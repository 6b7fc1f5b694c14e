import ShardLog.Foundation.Runs
import ShardLog.Types

/-!
# Text comparison and message terms

Case folding, the index normalisation of a term, the comparison used by the
exact filter, and the scanners that split a message into terms.  The Unicode
property tables of the standard library are a parameter.

Main results:

- Theorem `slices_messageTermRanges`: the scanner reports exactly the maximal
  alphanumeric runs of a message.
- Theorem `normalizeTerm_agrees_with_textEqual_iff`: exactly when the index key of
  two texts agrees with their case-insensitive equality.
-/

namespace ShardLog

open Utf8 Runs List

/-! ## Unicode property tables -/

/-- The properties and the lowercase mapping of characters. `isCased` and `isCaseIgnorable` matter
only for a capital sigma. -/
structure UnicodeTables where
  isAlphanumeric : Char → Bool
  isUppercase : Char → Bool
  toLower : Char → List Char
  isCased : Char → Bool
  isCaseIgnorable : Char → Bool

/-- GREEK CAPITAL LETTER SIGMA, whose lowercase form depends on its position. -/
def capitalSigma : Char := Char.ofNat 0x3a3

def finalSigma : Char := Char.ofNat 0x3c2

def smallSigma : Char := Char.ofNat 0x3c3

/-- ASCII lowercase of one character. -/
def toAsciiLower (c : Char) : Char :=
  if 65 ≤ c.toNat ∧ c.toNat ≤ 90 then Char.ofNat (c.toNat + 32) else c

/-- Facts about the Unicode tables: ASCII rows, lowercase forms that are not empty, stay as they are
and have no capital sigma, and the rows of the three sigmas. -/
structure UnicodeTables.Lawful (tables : UnicodeTables) : Prop where
  ascii_isUppercase : ∀ c, c.toNat < 128 →
    tables.isUppercase c = decide (65 ≤ c.toNat ∧ c.toNat ≤ 90)
  ascii_toLower : ∀ c, c.toNat < 128 → tables.toLower c = [toAsciiLower c]
  toLower_ne_nil : ∀ c, tables.toLower c ≠ []
  toLower_stable : ∀ c, ∀ d ∈ tables.toLower c, tables.toLower d = [d]
  toLower_ne_sigma : ∀ c, c ≠ capitalSigma → capitalSigma ∉ tables.toLower c
  sigma_isUppercase : tables.isUppercase capitalSigma = true
  finalSigma_toLower : tables.toLower finalSigma = [finalSigma]
  smallSigma_toLower : tables.toLower smallSigma = [smallSigma]

variable (tables : UnicodeTables)

/-! ## Lowercase text -/

/-- Skip case-ignorable characters and ask whether a cased one follows. -/
def caseIgnorableThenCased : Str → Bool
  | [] => false
  | c :: rest =>
    if tables.isCaseIgnorable c then caseIgnorableThenCased rest else tables.isCased c

/-- The lowercase form of a capital sigma between two contexts, the first of
which is read backwards. -/
def mapUppercaseSigma (before after : Str) : Char :=
  if caseIgnorableThenCased tables before && !caseIgnorableThenCased tables after then finalSigma
  else smallSigma

/-- `str::to_lowercase` with the already visited characters in reverse. -/
def toLowercaseFrom : Str → Str → Str
  | _, [] => []
  | before, c :: rest =>
    (if c = capitalSigma then [mapUppercaseSigma tables before rest] else tables.toLower c) ++
      toLowercaseFrom (c :: before) rest

/-- `str::to_lowercase`. -/
def toLowercase (text : Str) : Str := toLowercaseFrom tables [] text

/-- Index form of a term: lowercase only when some character is uppercase. -/
def normalizeTerm (term : Str) : Str :=
  if term.any tables.isUppercase then toLowercase tables term else term

/-! ## Text equality of the exact filter -/

/-- Case handling for text predicates. -/
inductive CaseSensitivity where
  | sensitive
  | insensitive
deriving DecidableEq, Repr

/-- `str::eq_ignore_ascii_case`. -/
def eqIgnoreAsciiCase (left right : Str) : Bool :=
  left.map toAsciiLower == right.map toAsciiLower

/-- Comparison of two complete texts. -/
def textEqual (left right : Str) : CaseSensitivity → Bool
  | .sensitive => left == right
  | .insensitive =>
    if isAscii left && isAscii right then eqIgnoreAsciiCase left right
    else toLowercase tables left == toLowercase tables right

/-! ## Message terms -/

def isAsciiDigitByte (byte : UInt8) : Bool := 48 ≤ byte.toNat && byte.toNat ≤ 57

/-- `u8::is_ascii_alphanumeric`. -/
def isAsciiAlphanumericByte (byte : UInt8) : Bool :=
  isAsciiDigitByte byte || (65 ≤ byte.toNat && byte.toNat ≤ 90) ||
    (97 ≤ byte.toNat && byte.toNat ≤ 122)

/-- Number of bytes of one character. -/
def charWidth (c : Char) : Nat := (String.utf8EncodeChar c).length

/-- The text inside a byte range.  Every range used here lies on character
boundaries. -/
def strSlice (text : Str) (range : IndexRange) : Str := (fromUtf8 (slice (utf8 text) range)).getD []

/-- Byte ranges of the terms of a message: an ASCII message is scanned by bytes,
any other by characters. -/
def messageTermRanges (message : Str) : List IndexRange :=
  if isAscii message then
    scanRuns isAsciiAlphanumericByte (fun _ => 1) (utf8 message).length (utf8 message)
  else scanRuns tables.isAlphanumeric charWidth (utf8 message).length message

/-- The terms reported by `scan_message_terms`, in order. -/
def scanMessageTerms (message : Str) : List Str :=
  (messageTermRanges tables message).map (strSlice message)

/-- The terms reported by `analyze_message`, which runs the same two scans
beside its fingerprint. -/
def analyzeMessageTerms (message : Str) : List Str := scanMessageTerms tables message

/-- Some term of the message equals the expected text, ignoring case. -/
def messageHasTerm (message expected : Str) : Bool :=
  (analyzeMessageTerms tables message).any fun term => textEqual tables term expected .insensitive

/-! ## The scanners report the maximal runs -/

/-- The maximal alphanumeric runs of a message. -/
def messageTerms (message : Str) : List Str :=
  if isAscii message then runs (isAsciiAlphanumericByte ∘ fun c => UInt8.ofNat c.toNat) message
  else runs tables.isAlphanumeric message

/-- The bytes inside the reported ranges are the bytes of the maximal runs. -/
theorem slices_messageTermRanges (message : Str) :
    (messageTermRanges tables message).map (slice (utf8 message)) =
      (messageTerms tables message).map utf8 := by
  unfold messageTermRanges messageTerms
  split
  · rename_i hascii
    have hbytes := slices_scanRuns (fun byte : UInt8 => [byte]) isAsciiAlphanumericByte
      (utf8 message)
    simp only [flatMap_singleton', length_singleton] at hbytes
    rw [hbytes, utf8_of_ascii hascii, runs_map]
    simp only [map_id']
    apply map_congr_left
    intro run hrun
    -- a run of an ASCII message is ASCII, so its bytes are its characters
    have hsub : isAscii run = true := by
      simp only [isAscii, all_eq_true] at hascii ⊢
      exact fun c hc => hascii c (((mem_runsFrom hrun).2 c hc).resolve_left not_mem_nil)
    exact (utf8_of_ascii hsub).symm
  · exact slices_scanRuns String.utf8EncodeChar tables.isAlphanumeric message

/-- A reported range holds the bytes of its term. -/
theorem utf8_strSlice {message : Str} {range : IndexRange}
    (h : range ∈ messageTermRanges tables message) :
    utf8 (strSlice message range) = slice (utf8 message) range := by
  have hslice := mem_map_of_mem (f := slice (utf8 message)) h
  rw [slices_messageTermRanges] at hslice
  rcases mem_map.mp hslice with ⟨term, _, hterm⟩
  rw [strSlice, ← hterm, fromUtf8_utf8, Option.getD_some]

/-! ## Lowercase text is its own lowercase form -/

section Lowercase

variable {tables} {text : Str} {f : Char → List Char}

/-- Away from capital sigmas, lowercasing is characterwise. -/
theorem toLowercaseFrom_eq_flatMap (h : capitalSigma ∉ text) (before : Str) :
    toLowercaseFrom tables before text = text.flatMap tables.toLower := by
  induction text generalizing before with
  | nil => rfl
  | cons c rest ih =>
    simp only [mem_cons, not_or] at h
    rw [toLowercaseFrom, if_neg (Ne.symm h.1), ih h.2, flatMap_cons]

/-- Every character of a lowercased text is stable, and none is a capital sigma. -/
theorem mem_toLowercaseFrom (laws : tables.Lawful) :
    ∀ {before : Str} {d : Char}, d ∈ toLowercaseFrom tables before text →
      tables.toLower d = [d] ∧ d ≠ capitalSigma := by
  induction text with
  | nil => simp [toLowercaseFrom]
  | cons c rest ih =>
    intro before d hd
    rw [toLowercaseFrom, mem_append] at hd
    rcases hd with hhead | htail
    · split at hhead
    -- a capital sigma becomes one of the two small ones
      · obtain rfl : d = mapUppercaseSigma tables before rest := by simpa using hhead
        unfold mapUppercaseSigma
        split
        · exact ⟨laws.finalSigma_toLower, by decide⟩
        · exact ⟨laws.smallSigma_toLower, by decide⟩
      · rename_i hc
        refine ⟨laws.toLower_stable c d hhead, ?_⟩
        rintro rfl
        exact laws.toLower_ne_sigma c hc hhead
    · exact ih htail

theorem flatMap_eq_self_of_stable (h : ∀ c ∈ text, f c = [c]) : text.flatMap f = text := by
  induction text with
  | nil => rfl
  | cons c rest ih => grind

/-- A lowercase text stays as it is. -/
theorem toLowercase_idempotent (laws : tables.Lawful) (text : Str) :
    toLowercase tables (toLowercase tables text) = toLowercase tables text := by
  have hmem : ∀ d ∈ toLowercase tables text, tables.toLower d = [d] ∧ d ≠ capitalSigma :=
    fun d hd => mem_toLowercaseFrom laws hd
  have hsigma : capitalSigma ∉ toLowercase tables text := fun hin => (hmem _ hin).2 rfl
  calc toLowercase tables (toLowercase tables text)
      = (toLowercase tables text).flatMap tables.toLower := toLowercaseFrom_eq_flatMap hsigma []
    _ = toLowercase tables text := flatMap_eq_self_of_stable fun d hd => (hmem d hd).1

/-- ASCII is lowercased by character. -/
theorem toLowercase_of_ascii (laws : tables.Lawful) (h : isAscii text = true) :
    toLowercase tables text = text.map toAsciiLower := by
  have hlt : ∀ c ∈ text, c.toNat < 128 := by simpa [isAscii] using h
  have hsigma : capitalSigma ∉ text := fun hin => absurd (hlt _ hin) (by decide)
  calc toLowercase tables text = text.flatMap tables.toLower := toLowercaseFrom_eq_flatMap hsigma []
    _ = text.flatMap fun c => [toAsciiLower c] :=
        flatMap_congr fun c hc => laws.ascii_toLower c (hlt c hc)
    _ = text.map toAsciiLower := map_eq_flatMap.symm

/-- The exact filter compares lowercase forms, on its ASCII path too. -/
theorem textEqual_insensitive_iff (laws : tables.Lawful) (left right : Str) :
    textEqual tables left right .insensitive = true ↔
      toLowercase tables left = toLowercase tables right := by
  unfold textEqual
  dsimp only
  split
  · rename_i hascii
    simp only [Bool.and_eq_true] at hascii
    rw [toLowercase_of_ascii laws hascii.1, toLowercase_of_ascii laws hascii.2,
      eqIgnoreAsciiCase, beq_iff_eq]
  · rw [beq_iff_eq]

/-! ## When normalisation lowercases -/

/-- The term has an uppercase character, or no character that lowercasing
changes.  A titlecase letter alone breaks both. -/
def CaseStable (tables : UnicodeTables) (term : Str) : Prop :=
  (∃ c ∈ term, tables.isUppercase c = true) ∨ ∀ c ∈ term, tables.toLower c = [c]

instance (tables : UnicodeTables) (term : Str) : Decidable (CaseStable tables term) :=
  inferInstanceAs (Decidable ((∃ c ∈ term, tables.isUppercase c = true) ∨
    ∀ c ∈ term, tables.toLower c = [c]))

theorem stable_of_flatMap_eq_self (hne : ∀ c, f c ≠ []) (h : text.flatMap f = text) :
    ∀ c ∈ text, f c = [c] := by
  have hlength : ∀ rest : Str, rest.length ≤ (rest.flatMap f).length := by
    intro rest
    induction rest with
    | nil => simp
    | cons c rest ih =>
      have hpos := length_pos_iff.mpr (hne c)
      simp only [flatMap_cons, length_append, length_cons]
      omega
  induction text with
  | nil => simp
  | cons c rest ih =>
    rw [flatMap_cons] at h
    -- the image of the first character can only be one character long
    have hone : (f c).length = 1 := by
      have htotal := congrArg List.length h
      have hpos := length_pos_iff.mpr (hne c)
      have hrest := hlength rest
      simp only [length_append, length_cons] at htotal
      omega
    rcases length_eq_one_iff.mp hone with ⟨d, hd⟩
    rw [hd, singleton_append, cons.injEq] at h
    intro e he
    rcases mem_cons.mp he with rfl | hrest
    · rw [hd, h.1]
    · exact ih h.2 e hrest

/-- Only case-stable terms are normalised to lowercase. -/
theorem normalizeTerm_eq_toLowercase_iff (laws : tables.Lawful) (term : Str) :
    normalizeTerm tables term = toLowercase tables term ↔ CaseStable tables term := by
  unfold normalizeTerm CaseStable
  split
  · rename_i hupper
    simp only [true_iff]
    left
    simpa using hupper
  · rename_i hupper
    have hlower : ∀ c ∈ term, tables.isUppercase c ≠ true := by simpa using hupper
    have hsigma : capitalSigma ∉ term := fun hin => hlower _ hin laws.sigma_isUppercase
    rw [toLowercase, toLowercaseFrom_eq_flatMap hsigma]
    constructor
    · intro h
      exact .inr (stable_of_flatMap_eq_self laws.toLower_ne_nil h.symm)
    · grind [flatMap_eq_self_of_stable]

/-- Normalising keeps the lowercase form. -/
theorem toLowercase_normalizeTerm (laws : tables.Lawful) (term : Str) :
    toLowercase tables (normalizeTerm tables term) = toLowercase tables term := by
  unfold normalizeTerm
  split
  · exact toLowercase_idempotent laws term
  · rfl

/-- Other terms are left alone. -/
theorem normalizeTerm_of_not_caseStable {term : Str} (h : ¬ CaseStable tables term) :
    normalizeTerm tables term = term := by
  unfold CaseStable at h
  push Not at h
  unfold normalizeTerm
  rw [if_neg]
  simpa using h.1

/-- Two different texts with one lowercase form share an index key only when
both are normalised by lowercasing. -/
theorem normalizeTerm_eq_iff (laws : tables.Lawful) (a b : Str) :
    normalizeTerm tables a = normalizeTerm tables b ↔ toLowercase tables a = toLowercase tables b ∧
        (a = b ∨ CaseStable tables a ∧ CaseStable tables b) := by
  constructor
  · intro h
    refine ⟨by rw [← toLowercase_normalizeTerm laws a, h, toLowercase_normalizeTerm laws b], ?_⟩
    by_cases ha : CaseStable tables a
    · by_cases hb : CaseStable tables b
      · exact .inr ⟨ha, hb⟩
      · -- the key of `b` is `b`, the key of `a` is a lowercase text, so `b` is lowercase
        rw [(normalizeTerm_eq_toLowercase_iff laws a).mpr ha,
          normalizeTerm_of_not_caseStable hb] at h
        have hself : normalizeTerm tables b = toLowercase tables b := by
          rw [normalizeTerm_of_not_caseStable hb, ← h, toLowercase_idempotent laws]
        exact absurd ((normalizeTerm_eq_toLowercase_iff laws b).mp hself) hb
    · rw [normalizeTerm_of_not_caseStable ha] at h
      by_cases hb : CaseStable tables b
      · rw [(normalizeTerm_eq_toLowercase_iff laws b).mpr hb] at h
        have hself : normalizeTerm tables a = toLowercase tables a := by
          rw [normalizeTerm_of_not_caseStable ha, h, toLowercase_idempotent laws]
        exact absurd ((normalizeTerm_eq_toLowercase_iff laws a).mp hself) ha
      · rw [normalizeTerm_of_not_caseStable hb] at h
        exact .inl h
  · grind [normalizeTerm_eq_toLowercase_iff]

/-! ## Index keys and the exact filter -/

/-- Index keys agree with case-insensitive equality on two texts exactly if their lowercase forms
differ, or they are one text, or each has an uppercase character or nothing to lowercase; the key of
a query term finds every accepted message exactly if some equal term of it does so. -/
theorem normalizeTerm_agrees_with_textEqual_iff (laws : tables.Lawful) : (∀ a b : Str,
      (normalizeTerm tables a = normalizeTerm tables b ↔ textEqual tables a b .insensitive = true) ↔
        toLowercase tables a ≠ toLowercase tables b ∨ a = b ∨
          CaseStable tables a ∧ CaseStable tables b) ∧
    ∀ message query : Str, (messageHasTerm tables message query = true →
          ∃ term ∈ scanMessageTerms tables message,
            normalizeTerm tables term = normalizeTerm tables query) ↔
        (∀ term ∈ scanMessageTerms tables message,
            toLowercase tables term ≠ toLowercase tables query) ∨
          ∃ term ∈ scanMessageTerms tables message,
            toLowercase tables term = toLowercase tables query ∧
              (term = query ∨ CaseStable tables term ∧ CaseStable tables query) := by
  constructor
  · intro a b
    rw [textEqual_insensitive_iff laws, normalizeTerm_eq_iff laws]
    constructor
    · grind
    · grind
  · intro message query
    have haccept : messageHasTerm tables message query = true ↔
        ∃ term ∈ scanMessageTerms tables message,
          toLowercase tables term = toLowercase tables query := by
      simp only [messageHasTerm, analyzeMessageTerms, List.any_eq_true,
        textEqual_insensitive_iff laws]
    simp only [haccept, normalizeTerm_eq_iff laws]
    constructor
    · grind
    · grind

end Lowercase

/-! ## A table with the Latin digraph rows

The rows of ASCII, of the three sigmas and of U+01C4, U+01C5 and U+01C6 as the
Unicode character database lists them.  U+01C5 is a titlecase letter: it is not
an uppercase character, and its lowercase form is U+01C6. -/

def digraphUpper : Char := Char.ofNat 0x1c4

def digraphTitle : Char := Char.ofNat 0x1c5

def digraphLower : Char := Char.ofNat 0x1c6

/-- Unicode rows of ASCII, the sigmas and the digraph with caron. -/
def latinTables : UnicodeTables where
  isAlphanumeric c := (c.toNat < 128 && isAsciiAlphanumericByte (UInt8.ofNat c.toNat)) ||
      [digraphUpper, digraphTitle, digraphLower, capitalSigma, smallSigma, finalSigma].contains c
  isUppercase c := (65 ≤ c.toNat && c.toNat ≤ 90) || c == digraphUpper || c == capitalSigma
  toLower c :=
    if c = digraphUpper ∨ c = digraphTitle then [digraphLower]
    else if c = capitalSigma then [smallSigma]
    else [toAsciiLower c]
  isCased c := (65 ≤ c.toNat && c.toNat ≤ 90) || (97 ≤ c.toNat && c.toNat ≤ 122) ||
      [digraphUpper, digraphTitle, digraphLower, capitalSigma, smallSigma, finalSigma].contains c
  isCaseIgnorable c := [39, 46, 58, 94, 96].contains c.toNat

theorem toAsciiLower_toNat (c : Char) :
    (toAsciiLower c).toNat = if 65 ≤ c.toNat ∧ c.toNat ≤ 90 then c.toNat + 32 else c.toNat := by
  unfold toAsciiLower
  split
  · rename_i hupper
    have hascii : ∀ n < 128, (Char.ofNat n).toNat = n := by decide
    exact hascii _ (by omega)
  · rfl

theorem toAsciiLower_idempotent (c : Char) : toAsciiLower (toAsciiLower c) = toAsciiLower c := by
  have hnot : ¬ (65 ≤ (toAsciiLower c).toNat ∧ (toAsciiLower c).toNat ≤ 90) := by
    rw [toAsciiLower_toNat]
    split <;> omega
  generalize toAsciiLower c = d at hnot
  unfold toAsciiLower
  rw [if_neg hnot]

/-- ASCII lowercasing leaves the characters beyond ASCII alone. -/
theorem toAsciiLower_eq_iff {c d : Char} (hd : 128 ≤ d.toNat) : toAsciiLower c = d ↔ c = d := by
  constructor
  · intro h
    have hvalue := congrArg Char.toNat h
    rw [toAsciiLower_toNat] at hvalue
    apply Char.toNat_inj.mp
    split at hvalue <;> omega
  · rintro rfl
    unfold toAsciiLower
    rw [if_neg (by omega)]

theorem latinTables_lawful : latinTables.Lawful where
  ascii_isUppercase c hc := by
    have hdigraph : c ≠ digraphUpper := by
      rintro rfl
      exact absurd hc (by decide)
    have hsigma : c ≠ capitalSigma := by
      rintro rfl
      exact absurd hc (by decide)
    simp [latinTables, beq_eq_false_iff_ne.mpr hdigraph, beq_eq_false_iff_ne.mpr hsigma]
  ascii_toLower c hc := by
    have hne : ∀ d : Char, 128 ≤ d.toNat → c ≠ d := by
      rintro d hd rfl
      omega
    simp [latinTables, hne digraphUpper (by decide), hne digraphTitle (by decide),
      hne capitalSigma (by decide)]
  toLower_ne_nil c := by
    simp only [latinTables]
    split
    · simp
    · split <;> simp
  toLower_stable c d hd := by
    simp only [latinTables] at hd
    split at hd
    · obtain rfl : d = digraphLower := by simpa using hd
      decide
    · split at hd
      · obtain rfl : d = smallSigma := by simpa using hd
        decide
      · rename_i hdigraph hsigma
        obtain rfl : d = toAsciiLower c := by simpa using hd
        simp only [latinTables, toAsciiLower_eq_iff (d := digraphUpper) (by decide),
          toAsciiLower_eq_iff (d := digraphTitle) (by decide),
          toAsciiLower_eq_iff (d := capitalSigma) (by decide), if_neg hdigraph, if_neg hsigma,
          toAsciiLower_idempotent]
  toLower_ne_sigma c hc := by
    simp only [latinTables, if_neg hc]
    split
    · decide
    · rw [mem_singleton, eq_comm, toAsciiLower_eq_iff (by decide)]
      exact hc
  sigma_isUppercase := by decide
  finalSigma_toLower := by decide
  smallSigma_toLower := by decide

/-- The characterisation at the Latin rows. -/
theorem latinTables_normalizeTerm_agrees_with_textEqual : latinTables.Lawful ∧ ∀ a b : Str,
      (normalizeTerm latinTables a = normalizeTerm latinTables b ↔
          textEqual latinTables a b .insensitive = true) ↔
        toLowercase latinTables a ≠ toLowercase latinTables b ∨ a = b ∨
          CaseStable latinTables a ∧ CaseStable latinTables b :=
  ⟨latinTables_lawful, (normalizeTerm_agrees_with_textEqual_iff latinTables_lawful).1⟩

/-- A titlecase term equals its lowercase form for the exact filter, yet the
index keeps it under a different key. -/
theorem titlecase_term_not_under_lowercase_key :
    textEqual latinTables [digraphTitle] [digraphLower] .insensitive = true ∧
      normalizeTerm latinTables [digraphTitle] ≠ normalizeTerm latinTables [digraphLower] ∧
      messageHasTerm latinTables [digraphTitle] [digraphLower] = true ∧
      ∀ term ∈ scanMessageTerms latinTables [digraphTitle],
        normalizeTerm latinTables term ≠ normalizeTerm latinTables [digraphLower] := by
  decide

end ShardLog
