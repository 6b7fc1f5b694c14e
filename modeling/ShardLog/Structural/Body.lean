import ShardLog.Structural.Lane
import ShardLog.Structural.Template

/-!
# Structural blocks - the body lane

A body is stored raw, or as the identifier of its template with the values that
go between the literals.  The sequential decoder reuses the previous message
and the text of templates without values; the reuse is invisible.
-/

namespace ShardLog.Structural

open ByteReader Utf8 List

def rawBody : UInt8 := 0

def templateBody : UInt8 := 1

/-! ## Encoding -/

/-- One body: its template and values, or the raw message. -/
def encodeBody (message : ParsedMessage) : Option Nat → LogDbResult Bytes
  | some templateId => do
      let id ← writeCount templateId
      let values ← encodeAll appendBytes message.valueBytes
      .ok (templateBody :: (id ++ values))
  | none => do
      let bytes ← appendBytes message.message
      .ok (rawBody :: bytes)

/-- The body of a layout, encoded once when several records share the layout. -/
def cacheBody (entry : ParsedMessage × Nat × Option Nat) : LogDbResult (Option Bytes) :=
  if entry.2.1 < 2 then .ok none
  else do
    let body ← encodeBody entry.1 entry.2.2
    .ok (some body)

/-- Layouts with their record counts and templates. -/
def layoutEntries (messages : ParsedMessages) (templateIds : List (Option Nat)) :
    List (ParsedMessage × Nat × Option Nat) :=
  messages.layouts.zip (messages.layoutCounts.zip templateIds)

/-- The body of one record: a copy of the cached body, or a fresh encoding. -/
def recordBody (messages : ParsedMessages) (templateIds : List (Option Nat))
    (cachedBodies : List (Option Bytes)) (layoutId : Nat) (_ : Unit) :
    LogDbResult (Bytes × Unit) := do
  match cachedBodies[layoutId]?.getD none with
  | some body => .ok (body, ())
  | none =>
    let body ← encodeBody (messages.layouts[layoutId]?.getD default)
      (templateIds[layoutId]?.getD none)
    .ok (body, ())

/-- The body lane of a batch. -/
def encodeBodies (messages : ParsedMessages) (templateIds : List (Option Nat)) :
    LogDbResult Bytes := do
  let cachedBodies ← collect cacheBody (layoutEntries messages templateIds)
  let lane ← encodeLaneFrom (recordBody messages templateIds cachedBodies) messages.layoutIds 0 ()
    [] []
  encodeSeekableRecordLane lane.1 lane.2.1

/-! ## The plain record reader -/

/-- Read a value before each remaining literal and append both. -/
def appendValues : List Bytes → Bytes → BlockReader Bytes
  | [], message => pure message
  | literal :: literals, message => do
      let value ← readBytes
      appendValues literals (message ++ value ++ literal)

/-- The literals of a template. -/
def templateLiterals (templates : List TemplateEntry) (templateId : Nat) :
    LogDbResult TemplateEntry :=
  match templates[templateId]? with
  | some literals => .ok literals
  | none => .error (invalid "unknown template ID")

/-- The first literal of a template. -/
def firstLiteral (literals : TemplateEntry) : LogDbResult Bytes :=
  match literals.head? with
  | some literal => .ok literal
  | none => .error (invalid "template has no first literal")

/-- The text of a template with the values that follow in the lane. -/
def reconstructBody (literals : TemplateEntry) : BlockReader Str := do
  let first ← ofResult (firstLiteral literals)
  let message ← appendValues literals.tail first
  ofResult (decodeText message)

/-- The template branch of the record reader. -/
def readTemplateBody (templates : List TemplateEntry) : BlockReader Str := do
  let templateId ← readUsize
  let literals ← ofResult (templateLiterals templates templateId)
  reconstructBody literals

/-- The raw branch of the record reader. -/
def readRawBody : BlockReader Str := do
  let bytes ← readBytes
  ofResult (decodeText bytes)

/-- Read one body and reconstruct its text. -/
def readBody (templates : List TemplateEntry) : BlockReader Str := do
  let bodyKind ← readByte
  if bodyKind = rawBody then readRawBody
  else if bodyKind = templateBody then readTemplateBody templates
  else fail (invalid "invalid body kind")

/-! ## The caching decoder -/

/-- What the sequential decoder keeps between records. -/
structure BodyCache where
  previous : Option Str
  previousEncoded : Option Bytes
  exactTemplates : List (Option Str)

/-- Skip the values of a template. -/
def skipValues : List Bytes → BlockReader Unit
  | [] => pure ()
  | _ :: literals => do
      let _ ← readBytes
      skipValues literals

/-- Reconstruct a template body from its first byte. -/
def replayBody (literals : TemplateEntry) : BlockReader Str := do
  let _ ← readByte
  let _ ← readUsize
  reconstructBody literals

/-- The bytes between two positions of one input. -/
def consumedBytes (start stop : Input) : Bytes :=
  start.rest.take (start.rest.length - stop.rest.length)

/-- A raw body, reusing an equal previous message. -/
def cachedRawBody (cache : BodyCache) : BlockReader (Str × List (Option Str)) := do
  let bytes ← readBytes
  if cache.previous.map utf8 = some bytes then
    pure (cache.previous.getD [], cache.exactTemplates)
  else
    let message ← ofResult (decodeText bytes)
    pure (message, cache.exactTemplates)

/-- A template without values: its text is decoded once. -/
def cachedExactBody (cache : BodyCache) (templateId : Nat) (literals : TemplateEntry) :
    BlockReader (Str × List (Option Str)) :=
  match cache.exactTemplates[templateId]?.getD none with
  | some message => pure (message, cache.exactTemplates)
  | none => do
      let first ← ofResult (firstLiteral literals)
      let message ← ofResult (decodeText first)
      pure (message, cache.exactTemplates.set templateId (some message))

/-- The previous message, when its encoding is the given one. -/
def BodyCache.reuse (cache : BodyCache) (encoded : Bytes) : Option Str :=
  if cache.previousEncoded = some encoded then cache.previous else none

/-- A template with values: skip them, then reuse the previous message or replay. -/
def cachedValuesBody (cache : BodyCache) (literals : TemplateEntry) (start : Input) :
    BlockReader (Str × List (Option Str)) := do
  skipValues literals.tail
  let stop ← input
  match cache.reuse (consumedBytes start stop) with
  | some previous => pure (previous, cache.exactTemplates)
  | none =>
    let message ← ofResult (((replayBody literals).run start).map Prod.fst)
    pure (message, cache.exactTemplates)

/-- The template branch of the sequential decoder. -/
def cachedTemplateBody (templates : List TemplateEntry) (cache : BodyCache) (start : Input) :
    BlockReader (Str × List (Option Str)) := do
  let templateId ← readUsize
  let literals ← ofResult (templateLiterals templates templateId)
  if literals.length = 1 then cachedExactBody cache templateId literals
  else cachedValuesBody cache literals start

/-- One iteration of the sequential decoder. -/
def readCachedBody (templates : List TemplateEntry) (cache : BodyCache) :
    BlockReader (Str × BodyCache) := do
  let start ← input
  let bodyKind ← readByte
  let decoded ←
    if bodyKind = rawBody then cachedRawBody cache
    else if bodyKind = templateBody then cachedTemplateBody templates cache start
    else fail (invalid "invalid body kind")
  let stop ← input
  pure (decoded.1, ⟨some decoded.1, some (consumedBytes start stop), decoded.2⟩)

/-- The record loop of the sequential decoder. -/
def decodeBodiesFrom (lane : SeekableRecordLane) (templates : List TemplateEntry) :
    Nat → Nat → BodyCache → BlockReader (List Str)
  | 0, _, _ => pure []
  | count + 1, ordinal, cache => do
      validateCheckpointCursor lane ordinal
      let decoded ← readCachedBody templates cache
      let messages ← decodeBodiesFrom lane templates count (ordinal + 1) decoded.2
      pure (decoded.1 :: messages)

/-- Decode all bodies of a block. -/
def decodeBodies (encoded : Bytes) (templates : List TemplateEntry) (recordCount : Nat) :
    LogDbResult (List Str) := do
  let lane ← decodeSeekableRecordLane encoded recordCount
  readComponent (decodeBodiesFrom lane templates recordCount 0
    ⟨none, none, List.replicate templates.length none⟩) lane.payload

/-! ## Locality of the record reader -/

theorem local_appendValues (literals : List Bytes) :
    ∀ message, Local (appendValues literals message) := by
  induction literals with
  | nil => exact fun message => local_pure message
  | cons literal literals ih => exact fun message => local_readBytes.bind fun value => ih _

theorem local_reconstructBody (literals : TemplateEntry) : Local (reconstructBody literals) :=
  (local_ofResult _).bind fun _ => (local_appendValues _ _).bind fun _ => local_ofResult _

theorem local_readBody (templates : List TemplateEntry) : Local (readBody templates) := by
  refine local_readByte.bind fun bodyKind => ?_
  split
  · exact local_readBytes.bind fun bytes => local_ofResult _
  · split
    · exact local_readUsize.bind fun templateId => (local_ofResult _).bind fun literals =>
        local_reconstructBody literals
    · exact local_fail _

/-- Skipping values moves the cursor as reading them does. -/
theorem run_skipValues (literals : List Bytes) (message : Bytes) (s : Input) :
    (skipValues literals).run s =
      ((appendValues literals message).run s).map fun result => ((), result.2) := by
  induction literals generalizing message s with
  | nil => exact rfl
  | cons literal literals ih =>
    rw [skipValues, appendValues, StateT.run_bind, StateT.run_bind]
    cases readBytes.run s with
    | error e => rfl
    | ok result => exact ih _ _

/-! ## The caches are invisible -/

/-- A cached run returns the value of the plain run with a good cache, or the
same error. -/
def Mirrors {α σ : Type} (good : σ → Prop) (plain : LogDbResult (α × Input))
    (cached : LogDbResult ((α × σ) × Input)) : Prop :=
  match plain with
  | .ok (value, rest) => ∃ state, good state ∧ cached = .ok ((value, state), rest)
  | .error e => cached = .error e

/-- Cached template texts are the decoded text of a template without values. -/
def ExactValid (templates : List TemplateEntry) (exactTemplates : List (Option Str)) : Prop :=
  ∀ (id : Nat) (message : Str), exactTemplates[id]?.getD none = some message →
    ∃ literal, templates[id]? = some [literal] ∧ decodeText literal = .ok message

/-- The previous message is what the previous bytes read as. -/
structure BodyCache.Valid (templates : List TemplateEntry) (cache : BodyCache) : Prop where
  previous : ∀ message encoded, cache.previous = some message →
    cache.previousEncoded = some encoded → Reads (readBody templates) encoded message
  exact : ExactValid templates cache.exactTemplates

variable {templates : List TemplateEntry} {id : Nat} {literal : Bytes} {message : Str} {s : Input}
  {cache : BodyCache} {encoded : Bytes} {start : Input} {α : Type} {literals : TemplateEntry}
  {templateId : Option Nat} {body : Bytes} {tables : UnicodeTables} {messages : ParsedMessages}
  {templateIds : List (Option Nat)}

/-- A decoded literal may be remembered. -/
theorem ExactValid.set {exactTemplates : List (Option Str)}
    (h : ExactValid templates exactTemplates) (htemplate : templates[id]? = some [literal])
    (htext : decodeText literal = .ok message) :
    ExactValid templates (exactTemplates.set id (some message)) := by
  intro other text hother
  rw [getElem?_set] at hother
  split at hother
  · grind
  · exact h other text hother

theorem consumedBytes_append {used : Bytes} {t : Input} (h : s.rest = used ++ t.rest) :
    consumedBytes s t = used := by
  simp [consumedBytes, h]

/-- Raw bodies. -/
theorem mirrors_cachedRawBody (hvalid : cache.Valid templates) (s : Input) :
    Mirrors (ExactValid templates) (readRawBody.run s) ((cachedRawBody cache).run s) := by
  unfold readRawBody cachedRawBody
  rw [StateT.run_bind, StateT.run_bind]
  cases readBytes.run s with
  | error e => rfl
  | ok result =>
    rcases result with ⟨bytes, t⟩
    simp only [ok_bind]
    split
    · rename_i hequal
      rcases Option.map_eq_some_iff.mp hequal with ⟨previous, hprevious, rfl⟩
      rw [decodeText_utf8, hprevious]
      exact ⟨cache.exactTemplates, hvalid.exact, rfl⟩
    · cases decodeText bytes with
      | error e => rfl
      | ok message => exact ⟨cache.exactTemplates, hvalid.exact, rfl⟩

/-- Templates without values. -/
theorem mirrors_cachedExactBody (hvalid : cache.Valid templates)
    (htemplate : templates[id]? = some [literal]) (s : Input) :
    Mirrors (ExactValid templates) ((reconstructBody [literal]).run s)
      ((cachedExactBody cache id [literal]).run s) := by
  have hplain : (reconstructBody [literal]).run s =
      (ofResult (decodeText literal) : BlockReader Str).run s := rfl
  rw [hplain]
  unfold cachedExactBody
  split
  · rename_i message hcached
    rcases hvalid.exact id message hcached with ⟨other, hother, htext⟩
    obtain rfl : literal = other := by simpa [htemplate] using hother
    rw [htext]
    exact ⟨cache.exactTemplates, hvalid.exact, rfl⟩
  · have hfirst : (ofResult (firstLiteral [literal]) : BlockReader Bytes).run s =
        .ok (literal, s) := rfl
    rw [run_bind_ok hfirst]
    cases htext : decodeText literal with
    | error e => rfl
    | ok message =>
      exact ⟨cache.exactTemplates.set id (some message), hvalid.exact.set htemplate htext, rfl⟩

/-- Skipping the values of a template fails as reconstructing does, and stops
where reconstructing stops. -/
theorem run_reconstructBody_of_skipValues (literals : TemplateEntry) (s : Input) :
    match (skipValues literals.tail).run s with
    | .ok (_, t) => ∀ message t', (reconstructBody literals).run s = .ok (message, t') → t' = t
    | .error e => (reconstructBody literals).run s = .error e := by
  cases literals with
  | nil =>
    intro message t' h
    cases h
  | cons first literals =>
    have hplain : (reconstructBody (first :: literals)).run s =
        (do let message ← appendValues literals first
            ofResult (decodeText message) : BlockReader Str).run s := rfl
    rw [tail_cons, run_skipValues literals first, hplain]
    cases happend : (appendValues literals first).run s with
    | error e =>
      rw [StateT.run_bind, happend]
      rfl
    | ok result =>
      intro message t' h
      rw [run_bind_ok happend, run_ofResult_eq_ok_iff] at h
      exact h.2

/-- A reused message is what its bytes encode. -/
theorem BodyCache.Valid.reads_reuse (hvalid : cache.Valid templates)
    (h : cache.reuse encoded = some message) : Reads (readBody templates) encoded message := by
  unfold BodyCache.reuse at h
  split at h
  · rename_i hencoded
    exact hvalid.previous message encoded h hencoded
  · contradiction

/-- A reader run at a position where its encoding stands. -/
theorem run_eq_of_reads {p : BlockReader α} {value : α} {stop : Input}
    (hreads : Reads p encoded value) (hused : start.rest = encoded ++ stop.rest)
    (hcursor : stop.cursor = start.cursor + encoded.length) :
    p.run start = .ok (value, stop) := by
  rcases start with ⟨cursor, rest⟩
  rcases stop with ⟨cursor', rest'⟩
  simp only at hused hcursor
  subst hused hcursor
  exact hreads cursor rest'

theorem local_skipValues (literals : List Bytes) : Local (skipValues literals) := by
  induction literals with
  | nil => exact local_pure ()
  | cons literal literals ih => exact local_readBytes.bind fun _ => ih

/-- Templates with values. -/
theorem mirrors_cachedValuesBody (hvalid : cache.Valid templates) {u : Input}
    (hkind : readByte.run start = .ok (templateBody, s)) (hid : readUsize.run s = .ok (id, u))
    (hwhole : (readBody templates).run start = (reconstructBody literals).run u) :
    Mirrors (ExactValid templates) ((reconstructBody literals).run u)
      ((cachedValuesBody cache literals start).run u) := by
  have hskip := run_reconstructBody_of_skipValues literals u
  have hreplay : (replayBody literals).run start = (reconstructBody literals).run u := by
    unfold replayBody
    rw [run_bind_ok hkind, run_bind_ok hid]
  unfold cachedValuesBody
  cases hstop : (skipValues literals.tail).run u with
  | error e =>
    rw [hstop] at hskip
    rw [StateT.run_bind, hstop, hskip]
    rfl
  | ok result =>
    rcases result with ⟨_, stop⟩
    rw [hstop] at hskip
    rw [run_bind_ok hstop, run_bind_ok (run_input stop), hreplay]
    split
    · rename_i previous hreuse
      -- the record has the bytes of the previous one, so the plain reader returns its message
      rcases local_readByte _ _ _ hkind with ⟨kindBytes, hkindBytes, hcursor, _⟩
      rcases local_readUsize _ _ _ hid with ⟨idBytes, hidBytes, hcursor', _⟩
      rcases local_skipValues _ _ _ _ hstop with ⟨valueBytes, hvalueBytes, hcursor'', _⟩
      have hused : start.rest = (kindBytes ++ idBytes ++ valueBytes) ++ stop.rest := by
        rw [hkindBytes, hidBytes, hvalueBytes]
        simp
      have hreads := hvalid.reads_reuse hreuse
      rw [consumedBytes_append hused] at hreads
      have hrun := run_eq_of_reads hreads hused (by
        rw [hcursor'', hcursor', hcursor]
        simp [Nat.add_assoc])
      rw [← hwhole, hrun]
      exact ⟨cache.exactTemplates, hvalid.exact, rfl⟩
    · cases hplain : (reconstructBody literals).run u with
      | error e => rfl
      | ok result =>
        rcases result with ⟨message, t⟩
        obtain rfl := hskip message t hplain
        exact ⟨cache.exactTemplates, hvalid.exact, rfl⟩

theorem templateLiterals_eq_ok_iff :
    templateLiterals templates id = .ok literals ↔ templates[id]? = some literals := by
  unfold templateLiterals
  cases templates[id]? with
  | none => simp
  | some other => simp

/-- Both kinds of templates. -/
theorem mirrors_cachedTemplateBody (hvalid : cache.Valid templates)
    (hkind : readByte.run start = .ok (templateBody, s)) :
    Mirrors (ExactValid templates) ((readTemplateBody templates).run s)
      ((cachedTemplateBody templates cache start).run s) := by
  have hwhole : (readBody templates).run start = (readTemplateBody templates).run s := by
    unfold readBody
    rw [run_bind_ok hkind, if_neg (by decide), if_pos rfl]
  unfold readTemplateBody at hwhole ⊢
  unfold cachedTemplateBody
  cases hid : readUsize.run s with
  | error e =>
    rw [StateT.run_bind, StateT.run_bind, hid]
    rfl
  | ok result =>
    rcases result with ⟨id, u⟩
    rw [run_bind_ok hid] at hwhole ⊢
    rw [run_bind_ok hid]
    cases hliterals : templateLiterals templates id with
    | error e => rfl
    | ok literals =>
      rw [hliterals, run_bind_ok (run_ofResult_ok literals u)] at hwhole
      rw [run_bind_ok (run_ofResult_ok literals u), run_bind_ok (run_ofResult_ok literals u)]
      split
      · rename_i hone
        rcases length_eq_one_iff.mp hone with ⟨literal, rfl⟩
        exact mirrors_cachedExactBody hvalid (templateLiterals_eq_ok_iff.mp hliterals) u
      · exact mirrors_cachedValuesBody hvalid hkind hid hwhole

/-- One iteration of the sequential decoder mirrors the plain reader and leaves
a valid cache. -/
theorem mirrors_readCachedBody (hvalid : cache.Valid templates) (s : Input) :
    Mirrors (BodyCache.Valid templates) ((readBody templates).run s)
      ((readCachedBody templates cache).run s) := by
  -- the branch after the kind byte decides the value; the cache is rebuilt from the whole read
  have hfinish : ∀ {plain : BlockReader Str} {cached : BlockReader (Str × List (Option Str))}
      {u : Input}, (readBody templates).run s = plain.run u →
      Mirrors (ExactValid templates) (plain.run u) (cached.run u) →
      Mirrors (BodyCache.Valid templates) (plain.run u) ((do
          let decoded ← cached
          let stop ← input
          pure (decoded.1, ⟨some decoded.1, some (consumedBytes s stop), decoded.2⟩) :
            BlockReader (Str × BodyCache)).run u) := by
    intro plain cached u hwhole hmirror
    unfold Mirrors at hmirror ⊢
    cases hplain : plain.run u with
    | error e => simp_all
    | ok result =>
      rcases result with ⟨message, t⟩
      rw [hplain] at hmirror hwhole
      rcases hmirror with ⟨exactTemplates, hexact, hcached⟩
      rcases local_readBody templates _ _ _ hwhole with ⟨used, hused, _, hreads⟩
      refine ⟨⟨some message, some (consumedBytes s t), exactTemplates⟩, ⟨?_, hexact⟩, ?_⟩
      · grind [consumedBytes_append]
      · rw [run_bind_ok hcached]
        rfl
  have hbody : ∀ kind u, readByte.run s = .ok (kind, u) → (readBody templates).run s =
      (if kind = rawBody then readRawBody
        else if kind = templateBody then readTemplateBody templates
        else fail (invalid "invalid body kind") : BlockReader Str).run u := by
    intro kind u hkind
    unfold readBody
    rw [run_bind_ok hkind]
  unfold readCachedBody
  rw [run_bind_ok (run_input s)]
  cases hkind : readByte.run s with
  | error e =>
    unfold readBody
    rw [StateT.run_bind, StateT.run_bind, hkind]
    rfl
  | ok result =>
    rcases result with ⟨kind, u⟩
    have hwhole := hbody kind u hkind
    rw [hwhole, run_bind_ok hkind]
    split at hwhole
    · grind [mirrors_cachedRawBody]
    · rename_i hraw
      rw [if_neg hraw, if_neg hraw]
      split at hwhole
      · grind [mirrors_cachedTemplateBody]
      · rename_i htemplate
        rw [if_neg htemplate, if_neg htemplate]
        rfl

/-- The cache does not show. -/
theorem run_decodeBodiesFrom {lane : SeekableRecordLane} {count : Nat} :
    ∀ {ordinal : Nat} {cache : BodyCache}, cache.Valid templates → ∀ s,
      (decodeBodiesFrom lane templates count ordinal cache).run s =
        (readLaneFrom lane (readBody templates) count ordinal).run s := by
  induction count with
  | zero => exact fun _ _ => rfl
  | succ count ih =>
    intro ordinal cache hvalid s
    rw [decodeBodiesFrom, readLaneFrom, StateT.run_bind, StateT.run_bind]
    cases (validateCheckpointCursor lane ordinal).run s with
    | error e => rfl
    | ok checked =>
      rcases checked with ⟨_, u⟩
      simp only [ok_bind]
      rw [StateT.run_bind, StateT.run_bind]
      have hmirror := mirrors_readCachedBody hvalid u
      unfold Mirrors at hmirror
      cases hplain : (readBody templates).run u with
      | error e => simp_all
      | ok result => grind [ok_bind]

/-- The caching decoder reads what the plain record reader reads. -/
theorem decodeBodies_eq_readLane (encoded : Bytes) (templates : List TemplateEntry)
    (recordCount : Nat) :
    decodeBodies encoded templates recordCount = (do
      let lane ← decodeSeekableRecordLane encoded recordCount
      readLane lane (readBody templates) recordCount) := by
  have hvalid : BodyCache.Valid templates ⟨none, none, replicate templates.length none⟩ := by
    refine ⟨by simp, ?_⟩
    intro id message h
    rw [getElem?_replicate] at h
    split at h <;> simp at h
  unfold decodeBodies
  congr 1
  funext lane
  unfold readLane readComponent readAll
  rw [StateT.run_bind, StateT.run_bind, run_decodeBodiesFrom hvalid]

/-! ## The lane written for a batch -/

/-- Values are read back between the literals. -/
theorem reads_appendValues {literals values : List Bytes} {message bytes : Bytes}
    (hlength : values.length = literals.length) (h : encodeAll appendBytes values = .ok bytes) :
    Reads (appendValues literals message) bytes
      (message ++ (zipWith (· ++ ·) values literals).flatten) := by
  induction literals generalizing values message bytes with
  | nil =>
    obtain rfl : values = [] := by simpa using hlength
    cases h
    simpa [appendValues] using reads_pure message
  | cons literal literals ih =>
    cases values with
    | nil => simp at hlength
    | cons value values =>
      rcases encodeAll_eq_ok_iff.mp h with ⟨blobs, hblobs, rfl⟩
      rcases forall₂_cons_left_iff.mp hblobs with ⟨blob, rest, hblob, hrest, rfl⟩
      have htail := @ih values (message ++ value ++ literal) rest.flatten
        (by simpa using hlength) (encodeAll_eq_ok_iff.mpr ⟨rest, hrest, rfl⟩)
      have hresult : message ++ (zipWith (· ++ ·) (value :: values) (literal :: literals)).flatten =
            message ++ value ++ literal ++ (zipWith (· ++ ·) values literals).flatten := by
        simp
      rw [hresult, flatten_cons, appendValues]
      exact (reads_readBytes hblob).bind htail

/-- The body of a record reads back as its message. -/
theorem reads_readBody {text : Str} (htemplate : ∀ id, templateId = some id →
      templates[id]? = some (parseMessage tables (utf8 text)).literalBytes)
    (h : encodeBody (parseMessage tables (utf8 text)) templateId = .ok body) :
    Reads (readBody templates) body text := by
  cases templateId with
  | none =>
    rcases bind_eq_ok_iff.mp h with ⟨bytes, hbytes, h⟩
    cases h
    refine (reads_readByte rawBody).bind ?_
    rw [if_pos rfl]
    exact (reads_readBytes hbytes).bind_nil (by
      rw [message_parseMessage, decodeText_utf8]
      exact reads_pure text)
  | some id =>
    rcases bind_eq_ok_iff.mp h with ⟨idBytes, hid, h⟩
    rcases bind_eq_ok_iff.mp h with ⟨values, hvalues, h⟩
    cases h
    refine (reads_readByte templateBody).bind ?_
    rw [if_neg (by decide), if_pos rfl]
    refine (reads_readUsize_of_writeCount hid).bind ?_
    refine Reads.ofResult_bind (templateLiterals_eq_ok_iff.mpr (htemplate id rfl)) ?_
    have hrebuild := rebuild_parseMessage tables (utf8 text)
    have hlength := length_literals_parseMessage tables (utf8 text)
    cases hliterals : (parseMessage tables (utf8 text)).literalBytes with
    | nil =>
      have hzero := congrArg List.length hliterals
      simp only [ParsedMessage.literalBytes, length_map, length_nil] at hzero
      omega
    | cons first rest =>
      have hcount : (parseMessage tables (utf8 text)).valueBytes.length = rest.length := by
        have hsize := congrArg List.length hliterals
        simp only [ParsedMessage.literalBytes, ParsedMessage.valueBytes, length_map,
          length_cons] at hsize ⊢
        omega
      rw [hliterals] at hrebuild
      refine Reads.ofResult_bind (a := first) rfl ?_
      refine (reads_appendValues hcount hvalues).bind_nil ?_
      dsimp only [rebuild] at hrebuild
      rw [hrebuild, decodeText_utf8]
      exact reads_pure text

theorem getElem?_layoutEntries {entry : ParsedMessage × Nat × Option Nat}
    (h : (layoutEntries messages templateIds)[id]? = some entry) :
    messages.layouts[id]? = some entry.1 ∧ templateIds[id]? = some entry.2.2 := by
  unfold layoutEntries at h
  rw [getElem?_zip_eq_some, getElem?_zip_eq_some] at h
  exact ⟨h.1, h.2.2⟩

/-- A cached body is the encoding a fresh one would be. -/
theorem encodeBody_of_recordBody {cachedBodies : List (Option Bytes)} {layoutId : Nat}
    {layout : ParsedMessage}
    (hcached : collect cacheBody (layoutEntries messages templateIds) = .ok cachedBodies)
    (hlayout : messages.layouts[layoutId]? = some layout)
    (htemplate : templateIds[layoutId]? = some templateId)
    (h : recordBody messages templateIds cachedBodies layoutId () = .ok (body, ())) :
    encodeBody layout templateId = .ok body := by
  unfold recordBody at h
  split at h
  · rename_i cached hbody
    obtain rfl : cached = body := by simpa using h
    have hentry : cachedBodies[layoutId]? = some (some cached) := by grind
    -- the cached body was produced from the entry at the same position
    rcases forall₂_getElem? (collect_eq_ok_iff.mp hcached).flip hentry with
      ⟨entry, hposition, hmade⟩
    rcases getElem?_layoutEntries hposition with ⟨hfst, hsnd⟩
    unfold cacheBody at hmade
    split at hmade
    · cases hmade
    · grind [bind_eq_ok_iff]
  · grind [bind_eq_ok_iff]

/-- The records of a lane without encoder state. -/
theorem encodeRecords_unit {record : α → Unit → LogDbResult (Bytes × Unit)} {items : List α}
    {blobs : List Bytes} {u : Unit} (h : encodeRecords record items () = .ok (blobs, u)) :
    Forall₂ (fun item blob => record item () = .ok (blob, ())) items blobs := by
  induction items generalizing blobs u with
  | nil =>
    cases h
    exact .nil
  | cons item items ih =>
    rcases bind_eq_ok_iff.mp h with ⟨⟨blob, _⟩, hblob, h⟩
    rcases bind_eq_ok_iff.mp h with ⟨⟨rest, _⟩, hrest, h⟩
    cases h
    exact .cons hblob (ih hrest)

/-- The lane written for a batch holds the messages of its records. -/
theorem bodies_lane {texts : List Str} (hlayouts : LayoutsFor tables (texts.map utf8) messages)
    (htemplates : Forall₂ (fun layout templateId => ∀ id, templateId = some id →
      templates[id]? = some layout.literalBytes) messages.layouts templateIds)
    (h : encodeBodies messages templateIds = .ok encoded) :
    ∃ lane blobs, decodeSeekableRecordLane encoded texts.length = .ok lane ∧ 0 < lane.interval ∧
      blobs.length = texts.length ∧ LaneRecords lane (readBody templates) blobs texts := by
  rcases bind_eq_ok_iff.mp h with ⟨cachedBodies, hcached, h⟩
  rcases bind_eq_ok_iff.mp h with ⟨⟨payload, checkpoints, _⟩, hlane, h⟩
  rcases @encodeLaneFrom_eq_ok _ _ _ _ [] _ _ _ _ hlane with ⟨blobs, hblobs, rfl, rfl⟩
  have hchain := forall₂_chain (forall₂_map_left_iff.mp hlayouts.ids) (encodeRecords_unit hblobs)
  have hbodies : Forall₂ (fun text blob => Reads (readBody templates) blob text) texts blobs := by
    refine hchain.imp ?_
    rintro text blob ⟨id, ⟨hlayout, _⟩, hrecord⟩
    rcases forall₂_getElem? htemplates hlayout with ⟨templateId, htemplate, hliterals⟩
    exact reads_readBody hliterals (encodeBody_of_recordBody hcached hlayout htemplate hrecord)
  exact exists_lane_of_blobs hbodies.flip rfl h

end ShardLog.Structural
