import ShardLog.Structural.Template

/-!
# Blocks - Compression locality

Fingerprints of messages, and the scores of the records of a block.  One pass over a
message reports its terms and hashes its runs of token and of separator characters.  One
pass over a membership votes for a shape and counts the weight of every bit of the
signatures; a second one measures the deviations from both.

Main results:

- Theorem `message_scanners_agree`: every scanner reports the maximal alphanumeric runs.
- Theorem `scoreMembership_majority`: a score has the shape with more than half of the
  weight, and the bits with at least half of it.
-/

namespace ShardLog.Blocks

open ByteReader Utf8 Runs Structural

/-! ## Fingerprints -/

def fnvOffset : UInt64 := 0xcbf29ce484222325

def splitmix64 (value : UInt64) : UInt64 :=
  let value := value + 0x9e3779b97f4a7c15
  let value := (value ^^^ (value >>> 30)) * 0xbf58476d1ce4e5b9
  let value := (value ^^^ (value >>> 27)) * 0x94d049bb133111eb
  value ^^^ (value >>> 31)

/-- The word whose bits satisfy a condition. -/
def bitsWhere (accept : Fin 16 → Bool) : BitVec 16 :=
  (BitVec.ofBoolListLE (List.ofFn accept)).setWidth 16

/-- Template shape and SimHash of a message. -/
structure MessageFingerprint where
  shapeHash : UInt64
  localitySignature : BitVec 16
deriving DecidableEq, Repr, Inhabited

def isTemplateTokenCharacter (character : Char) : Bool :=
  character.isAlphanum || ['_', '-', '.', '/', ':'].contains character

def isAsciiHexDigitByte (byte : UInt8) : Bool :=
  isAsciiDigitByte byte || (65 ≤ byte.toNat && byte.toNat ≤ 70) ||
    (97 ≤ byte.toNat && byte.toNat ≤ 102)

/-- Type class of a token with digits. -/
def dynamicClass (run : Bytes) : UInt64 :=
  if run.all isAsciiDigitByte then 1
  else if run.all isAsciiHexDigitByte then 2
  else if run.contains 45 then 3
  else if run.contains 46 || run.contains 58 || run.contains 47 then 4
  else 5

/-- Logarithmic length class. -/
def lengthClass (length : Nat) : UInt64 := UInt64.ofNat (min (Nat.log2 (max length 1)) 15)

/-- Count a feature into the sixteen saturating weights. -/
def addSimhashFeature (weights : Fin 16 → Int) (featureHash : UInt64) (bit : Fin 16) : Int :=
  if (splitmix64 featureHash).toNat.testBit bit then min (weights bit + 1) (2 ^ 15 - 1)
  else max (weights bit - 1) (-2 ^ 15)

/-- What the fingerprint of a message is computed from. -/
structure BodyHashes where
  shapeHash : UInt64 := fnvOffset
  simhash : Fin 16 → Int := fun _ => 0

/-- A token with a digit counts by its classes, any other run by its bytes. -/
def analyzeStructuralRun (run : Bytes) (isToken hasDigit : Bool) (hashes : BodyHashes) :
    BodyHashes :=
  if isToken && hasDigit then
    { shapeHash := fnvBytes hashes.shapeHash [0xd1]
      simhash := addSimhashFeature hashes.simhash (splitmix64 ((0x64796e616d696300 : UInt64) ^^^
        (dynamicClass run <<< 8) ^^^ lengthClass run.length)) }
  else
    { shapeHash := fnvBytes (fnvBytes hashes.shapeHash [0x51]) run
      simhash := addSimhashFeature hashes.simhash
        (fnvBytes (fnvOffset ^^^ 0x6c69746572616c00) run) }

def addField (hashes : BodyHashes) (field : MetadataField) : BodyHashes where
  shapeHash := fnvBytes (fnvBytes hashes.shapeHash [0xf1]) (utf8 field.key)
  simhash := addSimhashFeature hashes.simhash
    (fnvBytes (fnvOffset ^^^ 0x6d6574616b657900) (utf8 field.key))

/-- What the pass over a message accumulates. -/
structure BodyScan where
  hashes : BodyHashes := {}
  structuralStart : Nat := 0
  structuralIsToken : Option Bool := none
  structuralHasDigit : Bool := false
  terms : RunScan := RunScan.empty

/-- Continue the structural run in progress, or close it and start the next one. -/
def BodyScan.observeRun (bytes : Bytes) (scan : BodyScan) (index : Nat)
    (isToken isDigit : Bool) : BodyScan :=
  match scan.structuralIsToken with
  | none =>
    { scan with
      structuralStart := index
      structuralIsToken := some isToken
      structuralHasDigit := isDigit }
  | some current =>
    if current = isToken then
      { scan with structuralHasDigit := scan.structuralHasDigit || isDigit }
    else
      { scan with
        hashes := analyzeStructuralRun (slice bytes ⟨scan.structuralStart, index⟩) current
          scan.structuralHasDigit scan.hashes
        structuralStart := index
        structuralIsToken := some isToken
        structuralHasDigit := isDigit }

/-- The run in progress at the end of a message. -/
def BodyScan.finish (bytes : Bytes) (scan : BodyScan) : BodyHashes :=
  match scan.structuralIsToken with
  | none => scan.hashes
  | some isToken => analyzeStructuralRun (slice bytes ⟨scan.structuralStart, bytes.length⟩)
      isToken scan.structuralHasDigit scan.hashes

/-- How a loop over a message sees its symbols. -/
structure SymbolView (α : Type) where
  encode : α → Bytes
  isTerm : α → Bool
  isToken : α → Bool
  isDigit : α → Bool

/-- The loop over the symbols of a message, from an index into its bytes. -/
def analyzeSymbols {α : Type} (view : SymbolView α) (bytes : Bytes) :
    Nat → BodyScan → List α → BodyScan
  | _, scan, [] => scan
  | index, scan, symbol :: rest =>
    analyzeSymbols view bytes (index + (view.encode symbol).length)
      { scan.observeRun bytes index (view.isToken symbol) (view.isDigit symbol) with
        terms := scan.terms.step index (view.isTerm symbol) } rest

/-- The hashes of a message, and the ranges of its terms. -/
def analyzeBody {α : Type} (view : SymbolView α) (bytes : Bytes) (symbols : List α) :
    BodyHashes × List IndexRange :=
  let scan := analyzeSymbols view bytes 0 {} symbols
  (scan.finish bytes, scan.terms.finish bytes.length)

def asciiView : SymbolView UInt8 :=
  ⟨fun byte => [byte], isAsciiAlphanumericByte, isTemplateTokenByte, isAsciiDigitByte⟩

def analyzeAsciiBody (message : Str) : BodyHashes × List IndexRange :=
  analyzeBody asciiView (utf8 message) (utf8 message)

section Fingerprint

variable (tables : UnicodeTables)

def unicodeView : SymbolView Char :=
  ⟨String.utf8EncodeChar, tables.isAlphanumeric, isTemplateTokenCharacter, Char.isDigit⟩

def analyzeUnicodeBody (message : Str) : BodyHashes × List IndexRange :=
  analyzeBody (unicodeView tables) (utf8 message) message

/-- The fingerprint of a message with fields, and the terms reported on the way. -/
def analyzeMessage (message : Str) (fields : List MetadataField) :
    MessageFingerprint × List Str :=
  let body :=
    if isAscii message then analyzeAsciiBody message else analyzeUnicodeBody tables message
  let hashes := fields.foldl addField body.1
  (⟨hashes.shapeHash, bitsWhere fun bit => decide (0 < hashes.simhash bit)⟩,
    body.2.map (strSlice message))

end Fingerprint

/-! ## Terms -/

section Terms

variable {tables : UnicodeTables} {message : Str} {α : Type}

/-- The loop scans terms beside the structural runs. -/
theorem terms_analyzeSymbols (view : SymbolView α) (bytes : Bytes) (symbols : List α) (index : Nat)
    (scan : BodyScan) : (analyzeSymbols view bytes index scan symbols).terms =
      scanFrom view.isTerm (fun symbol => (view.encode symbol).length) index scan.terms
        symbols := by
  induction symbols generalizing index scan with
  | nil => rfl
  | cons symbol rest ih => exact ih _ _

/-- Analysis finds the terms of the scanner. -/
theorem terms_analyzeMessage (fields : List MetadataField) :
    (analyzeMessage tables message fields).2 = scanMessageTerms tables message := by
  simp only [analyzeMessage, scanMessageTerms, messageTermRanges]
  split
  · rw [analyzeAsciiBody, analyzeBody, terms_analyzeSymbols]
    rfl
  · rw [analyzeUnicodeBody, analyzeBody, terms_analyzeSymbols]
    rfl

/-- The terms of a message are its maximal alphanumeric runs, where the ASCII rows of the
tables are the ASCII ones. -/
theorem scanMessageTerms_eq_runs (message : Str) (hrows : ∀ c : Char, c.toNat < 128 →
      tables.isAlphanumeric c = isAsciiAlphanumericByte (UInt8.ofNat c.toNat)) :
    scanMessageTerms tables message = runs tables.isAlphanumeric message := by
  have hterms : scanMessageTerms tables message = messageTerms tables message := by
    have hslices := congrArg (List.map fun bytes => (fromUtf8 bytes).getD [])
      (slices_messageTermRanges tables message)
    rw [List.map_map, List.map_map] at hslices
    exact hslices.trans (by simp [Function.comp_def])
  rw [hterms, messageTerms]
  split
  · rename_i hascii
    simp only [isAscii, List.all_eq_true, decide_eq_true_eq] at hascii
    exact runsFrom_congr (fun c hc => (hrows c (hascii c hc)).symm) []
  · rfl

/-- The three scanners report the maximal alphanumeric runs of a message. -/
theorem message_scanners_agree (hrows : ∀ c : Char, c.toNat < 128 →
      tables.isAlphanumeric c = isAsciiAlphanumericByte (UInt8.ofNat c.toNat))
    (message : Str) (fields : List MetadataField) :
    scanMessageTerms tables message = runs tables.isAlphanumeric message ∧
      (analyzeMessage tables message fields).2 = runs tables.isAlphanumeric message ∧
      (parseMessage tables (utf8 message)).terms.map (strSlice message) =
        runs tables.isAlphanumeric message := by
  have hscan := scanMessageTerms_eq_runs message hrows
  refine ⟨hscan, ?_, ?_⟩
  · rw [terms_analyzeMessage, hscan]
  · rw [terms_parseMessage, ← hscan, scanMessageTerms]

/-- A term on either side of a separator, the second one beyond ASCII. -/
theorem two_terms_scanned :
    (analyzeMessage latinTables ['a', '-', digraphLower] []).2 = [['a'], [digraphLower]] := by
  have hrows : ∀ c : Char, c.toNat < 128 →
      latinTables.isAlphanumeric c = isAsciiAlphanumericByte (UInt8.ofNat c.toNat) := by
    intro c hc
    have hrow : ∀ code < 128, latinTables.isAlphanumeric (Char.ofNat code) =
        isAsciiAlphanumericByte (UInt8.ofNat code) := by decide
    simpa using hrow c.toNat hc
  exact (message_scanners_agree hrows _ []).2.1.trans (by decide)

end Terms

/-! ## Scores -/

/-- One record presented to block collation. -/
structure CompressionLocalityRecord where
  fingerprint : MessageFingerprint
  sourceBytes : Nat
deriving DecidableEq, Repr, Inhabited

/-- Integer score of some records of a block. -/
structure CompressionBlockScore where
  temperature : BitVec 16
  shapeHash : UInt64
  internalVarianceQ8 : Nat
  maxDeviation : Nat
  sourceBytes : Nat
  recordCount : Nat
deriving DecidableEq, Repr

/-- Hamming distance of two temperatures, and a penalty for different shapes. -/
def localityDistance (leftTemperature : BitVec 16) (leftShapeHash : UInt64)
    (rightTemperature : BitVec 16) (rightShapeHash : UInt64) : Nat :=
  (List.finRange 16).countP (fun bit => (leftTemperature ^^^ rightTemperature).getLsbD bit) +
    if leftShapeHash ≠ rightShapeHash then 4 else 0

def fingerprintDistance (left right : MessageFingerprint) : Nat :=
  localityDistance left.localitySignature left.shapeHash right.localitySignature right.shapeHash

def localityWeight (sourceBytes : Nat) : Nat := min (max sourceBytes 1) (2 ^ 32 - 1)

def centroidFromWeights (oneWeights : Fin 16 → Nat) (totalWeight : Nat) : BitVec 16 :=
  bitsWhere fun bit => decide (max totalWeight 1 ≤ min (oneWeights bit * 2) (2 ^ 64 - 1))

/-- The shape vote after a record: its candidate and the weight that is left. -/
def voteShape (shapeHash : UInt64) (weight : Nat) (vote : UInt64 × Nat) : UInt64 × Nat :=
  if shapeHash = vote.1 then (vote.1, saturatingAdd vote.2 weight)
  else if weight < vote.2 then (vote.1, vote.2 - weight)
  else (shapeHash, weight - vote.2)

/-- What the first pass over the records has seen. -/
structure ScoreProgress where
  seedB : Nat
  seedDistance : Nat := 0
  oneWeights : Fin 16 → Nat := fun _ => 0
  totalWeight : Nat := 0
  sourceBytes : Nat := 0
  recordCount : Nat := 0
  shapeVote : UInt64 × Nat

structure ScoredMembership where
  score : CompressionBlockScore
  seedA : Nat
  seedB : Nat

section Score

variable (records : List CompressionLocalityRecord)

def recordAt (index : Nat) : CompressionLocalityRecord := records.getD index default

def scoreRecord (seedA : Nat) (progress : ScoreProgress) (index : Nat) : ScoreProgress :=
  let record := recordAt records index
  let weight := localityWeight record.sourceBytes
  let distance := fingerprintDistance (recordAt records seedA).fingerprint record.fingerprint
  let farther := progress.seedDistance < distance
  { seedB := if farther then index else progress.seedB
    seedDistance := if farther then distance else progress.seedDistance
    oneWeights := fun bit =>
      if record.fingerprint.localitySignature.getLsbD bit then
        saturatingAdd (progress.oneWeights bit) weight
      else progress.oneWeights bit
    totalWeight := saturatingAdd progress.totalWeight weight
    sourceBytes := saturatingAdd progress.sourceBytes record.sourceBytes
    recordCount := saturatingAdd progress.recordCount 1
    shapeVote := voteShape record.fingerprint.shapeHash weight progress.shapeVote }

/-- The score of the records at the indices of a membership. -/
def scoreMembership (membership : List Nat) : ScoredMembership :=
  let seedA := membership.headD 0
  let progress := membership.foldl (scoreRecord records seedA)
    { seedB := seedA, shapeVote := ((recordAt records seedA).fingerprint.shapeHash, 0) }
  let temperature := centroidFromWeights progress.oneWeights progress.totalWeight
  let distance := fun index =>
    let fingerprint := (recordAt records index).fingerprint
    localityDistance temperature progress.shapeVote.1 fingerprint.localitySignature
      fingerprint.shapeHash
  let squaredDistanceWeight := membership.foldl (fun total index =>
    min (total + distance index * distance index *
      localityWeight (recordAt records index).sourceBytes) (2 ^ 128 - 1)) 0
  { score :=
      { temperature := temperature
        shapeHash := progress.shapeVote.1
        internalVarianceQ8 := min (min (squaredDistanceWeight * 256) (2 ^ 128 - 1) /
          max progress.totalWeight 1) (2 ^ 16 - 1)
        maxDeviation := membership.foldl (fun deviation index => max deviation (distance index)) 0
        sourceBytes := progress.sourceBytes
        recordCount := progress.recordCount }
    seedA := seedA
    seedB := progress.seedB }

/-- The weight of the records whose fingerprints satisfy a condition. -/
def weightWhere (accept : MessageFingerprint → Bool) (membership : List Nat) : Nat :=
  (membership.map fun index => if accept (recordAt records index).fingerprint then
    localityWeight (recordAt records index).sourceBytes else 0).sum

end Score

section Majority

variable {records : List CompressionLocalityRecord} {seen : List Nat} {progress : ScoreProgress}

theorem getLsbD_bitsWhere (accept : Fin 16 → Bool) (bit : Fin 16) :
    (bitsWhere accept).getLsbD bit = accept bit := by
  rw [bitsWhere, BitVec.getLsbD_setWidth, BitVec.getLsbD_ofBoolListLE, List.getD_eq_getElem?_getD,
    List.getElem?_ofFn]
  simp

/-- One more record. -/
theorem weightWhere_append (accept : MessageFingerprint → Bool) (seen : List Nat) (index : Nat) :
    weightWhere records accept (seen ++ [index]) = weightWhere records accept seen +
      if accept (recordAt records index).fingerprint then
        localityWeight (recordAt records index).sourceBytes else 0 := by
  simp [weightWhere]

/-- The candidate exceeds half of the total by at most the weight of the vote, and any other shape
lacks that much. -/
def Leads (vote : UInt64 × Nat) (total : Nat) (weight : UInt64 → Nat) : Prop :=
  vote.2 ≤ total ∧ 2 * weight vote.1 ≤ total + vote.2 ∧
    ∀ shape ≠ vote.1, 2 * weight shape + vote.2 ≤ total

/-- One more vote. -/
theorem Leads.voteShape {vote : UInt64 × Nat} {total added : Nat} {weight : UInt64 → Nat}
    (h : Leads vote total weight) (hfits : total + added < 2 ^ 64) (shape : UInt64) :
    Leads (Blocks.voteShape shape added vote) (total + added)
      (fun other => weight other + if shape = other then added else 0) := by
  obtain ⟨hle, hcandidate, hothers⟩ := h
  have hadd : saturatingAdd vote.2 added = vote.2 + added := by
    unfold saturatingAdd
    omega
  unfold Leads Blocks.voteShape
  split
  · grind
  · split
    · grind
    · grind

/-- The tallies of the first pass. -/
structure Tallies (records : List CompressionLocalityRecord) (seen : List Nat)
    (progress : ScoreProgress) : Prop where
  total : progress.totalWeight = weightWhere records (fun _ => true) seen
  total_le : progress.totalWeight ≤ seen.length * (2 ^ 32 - 1)
  ones : ∀ bit : Fin 16, progress.oneWeights bit =
    weightWhere records (·.localitySignature.getLsbD bit) seen
  ones_le : ∀ bit, progress.oneWeights bit ≤ progress.totalWeight
  leads : Leads progress.shapeVote progress.totalWeight
    fun shape => weightWhere records (·.shapeHash == shape) seen

/-- Fewer than `2 ^ 32` records saturate no weight. -/
theorem Tallies.scoreRecord (h : Tallies records seen progress) {index : Nat}
    (hcount : (seen ++ [index]).length < 2 ^ 32) (seedA : Nat) :
    Tallies records (seen ++ [index]) (Blocks.scoreRecord records seedA progress index) := by
  obtain ⟨htotal, hle, hones, honesLe, hleads⟩ := h
  rw [List.length_append, List.length_singleton] at hcount
  have hweight : localityWeight (recordAt records index).sourceBytes ≤ 2 ^ 32 - 1 :=
    min_le_right _ _
  have hadd : ∀ sum ≤ progress.totalWeight,
      saturatingAdd sum (localityWeight (recordAt records index).sourceBytes) =
        sum + localityWeight (recordAt records index).sourceBytes := by
    intro sum hsum
    unfold saturatingAdd
    omega
  have hnext := hleads.voteShape (show progress.totalWeight +
    localityWeight (recordAt records index).sourceBytes < 2 ^ 64 by omega)
    (recordAt records index).fingerprint.shapeHash
  unfold Blocks.scoreRecord
  refine ⟨?_, ?_, fun bit => ?_, fun bit => ?_, ?_⟩
  · simp [weightWhere_append, hadd, htotal]
  · simp [hadd]
    omega
  · simp only [weightWhere_append, ← hones]
    split
    · exact hadd _ (honesLe bit)
    · rfl
  · have hbit := honesLe bit
    dsimp only
    rw [hadd _ le_rfl]
    split
    · rw [hadd _ hbit]
      omega
    · omega
  · simpa [weightWhere_append, hadd] using hnext

/-- The score has the shape with more than half of the weight, and the bits of the temperature that
at least half of the weight has. -/
theorem scoreMembership_majority (records : List CompressionLocalityRecord)
    {membership : List Nat} (hne : membership ≠ []) (hcount : membership.length < 2 ^ 32) :
    (∀ shape, weightWhere records (fun _ => true) membership <
        2 * weightWhere records (·.shapeHash == shape) membership →
      (scoreMembership records membership).score.shapeHash = shape) ∧
    ∀ bit : Fin 16, (scoreMembership records membership).score.temperature.getLsbD bit = true ↔
      weightWhere records (fun _ => true) membership ≤
        2 * weightWhere records (·.localitySignature.getLsbD bit) membership := by
  have hrun : ∀ (rest seen : List Nat) (progress : ScoreProgress) (seedA : Nat),
      (seen ++ rest).length < 2 ^ 32 → Tallies records seen progress →
      Tallies records (seen ++ rest) (rest.foldl (scoreRecord records seedA) progress) := by
    intro rest
    induction rest with
    | nil => exact fun seen progress seedA _ h => by simpa using h
    | cons index rest ih =>
      intro seen progress seedA hlength h
      rw [List.append_cons] at hlength ⊢
      exact ih _ _ _ hlength (h.scoreRecord (by simp at hlength ⊢; omega) seedA)
  have hfinal := hrun membership [] { seedB := membership.headD 0, shapeVote :=
    ((recordAt records (membership.headD 0)).fingerprint.shapeHash, 0) } (membership.headD 0)
    hcount ⟨rfl, le_rfl, fun _ => rfl, fun _ => le_rfl, le_rfl, le_rfl, fun _ _ => le_rfl⟩
  rw [List.nil_append] at hfinal
  refine ⟨fun shape hshape => ?_, fun bit => ?_⟩
  · by_contra hother
    have hothers := hfinal.leads.2.2 shape (Ne.symm hother)
    rw [hfinal.total] at hothers
    dsimp only at hothers
    omega
  · have htotalLe := hfinal.total_le
    have hpos : 1 ≤ weightWhere records (fun _ => true) membership := by
      obtain ⟨index, rest, rfl⟩ := List.exists_cons_of_ne_nil hne
      simp only [weightWhere, List.map_cons, List.sum_cons, if_true, localityWeight]
      omega
    change (centroidFromWeights _ _).getLsbD bit = true ↔ _
    rw [centroidFromWeights, getLsbD_bitsWhere, decide_eq_true_iff, hfinal.ones]
    rw [hfinal.total] at htotalLe ⊢
    omega

/-- The vote changes its candidate at the second record. -/
theorem second_shape_wins :
    (scoreMembership [⟨⟨9, 2⟩, 2⟩, ⟨⟨7, 1⟩, 3⟩, ⟨⟨7, 1⟩, 1⟩] [0, 1, 2]).score.shapeHash = 7 :=
  (scoreMembership_majority _ (by decide) (by decide)).1 7 (by decide)

end Majority

end ShardLog.Blocks
