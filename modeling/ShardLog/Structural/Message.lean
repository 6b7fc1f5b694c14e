import ShardLog.Structural.Wire
import ShardLog.Text

/-!
# Structural blocks - parsing messages into layouts

A message is split at its variable tokens into literals and values, and its
terms are scanned on the way.  Equal messages share one parsed layout through a
small direct-mapped cache; a cache miss only repeats a layout.
-/

namespace ShardLog.Structural

open ByteReader Utf8 Runs List

variable (tables : UnicodeTables) {literals values : List Bytes} {message : Bytes}
  {messages : List Bytes} {parsed : ParsedMessages} {parsed' : ParsedMessages}

/-! ## Template tokens -/

def isTemplateTokenByte (byte : UInt8) : Bool :=
  isAsciiAlphanumericByte byte || [95, 45, 46, 47, 58].contains byte

def isVariableToken (token : Bytes) : Bool := token.any isAsciiDigitByte

/-- One parsed message layout. -/
structure ParsedMessage where
  message : Bytes
  signatureHash : UInt64
  literals : List IndexRange
  values : List IndexRange
  terms : List IndexRange
deriving DecidableEq, Repr, Inhabited

/-- The bytes of the literals. -/
def ParsedMessage.literalBytes (parsed : ParsedMessage) : List Bytes :=
  parsed.literals.map (slice parsed.message)

/-- The bytes of the values. -/
def ParsedMessage.valueBytes (parsed : ParsedMessage) : List Bytes :=
  parsed.values.map (slice parsed.message)

/-! ## Hashes -/

/-- One FNV-1a step. -/
def fnvStep (hash : UInt64) (byte : UInt8) : UInt64 :=
  (hash ^^^ byte.toUInt64) * 0x00000100000001b3

/-- FNV-1a over a byte string. -/
def fnvBytes (hash : UInt64) (bytes : Bytes) : UInt64 := bytes.foldl fnvStep hash

/-- `u64::rotate_left`. -/
def rotateLeft (value : UInt64) (bits : UInt64) : UInt64 :=
  (value <<< bits) ||| (value >>> (64 - bits))

/-- Hash of the literals of a template, each preceded by its length. -/
def templateHash (message : Bytes) (literals : List IndexRange) : UInt64 :=
  literals.foldl (fun hash literal =>
    fnvBytes (fnvBytes hash (Integers.leBytes 8 (literal.stop - literal.start)))
      (slice message literal))
    (fnvBytes 0xcbf29ce484222325 (Integers.leBytes 8 literals.length))

/-! ## Parsing one message -/

/-- The inner loop: consume the bytes of one kind, observing terms while the
message is ASCII. -/
def scanTokenRun (ascii token : Bool) : Bytes → Nat → RunScan → Bytes × Nat × RunScan
  | [], cursor, terms => ([], cursor, terms)
  | byte :: rest, cursor, terms =>
    if isTemplateTokenByte byte = token then
      scanTokenRun ascii token rest (cursor + 1)
        (if ascii then terms.step cursor (isAsciiAlphanumericByte byte) else terms)
    else (byte :: rest, cursor, terms)

/-- What the outer loop accumulates. -/
structure ParseState where
  literals : List IndexRange
  values : List IndexRange
  literalStart : Nat
  terms : RunScan
deriving DecidableEq, Repr

def ParseState.empty : ParseState := ⟨[], [], 0, RunScan.empty⟩

/-- A variable token ends the current literal. -/
def ParseState.closeToken (state : ParseState) (message : Bytes) (token : Bool)
    (start stop : Nat) : ParseState :=
  if token && isVariableToken (slice message ⟨start, stop⟩) then
    { state with
      literals := state.literals ++ [⟨state.literalStart, start⟩]
      values := state.values ++ [⟨start, stop⟩]
      literalStart := stop }
  else state

/-- The outer loop over runs of token and separator bytes.  Each iteration
consumes a byte, so the length of the message is enough fuel. -/
def parseTokens (ascii : Bool) (message : Bytes) : Nat → Bytes → Nat → ParseState → ParseState
  | 0, _, _, state => state
  | _ + 1, [], _, state => state
  | fuel + 1, byte :: rest, start, state =>
    let token := isTemplateTokenByte byte
    let run := scanTokenRun ascii token (byte :: rest) start state.terms
    parseTokens ascii message fuel run.1 run.2.1
      ({ state with terms := run.2.2 }.closeToken message token start run.2.1)

/-- Term ranges of a message that is not ASCII. -/
def unicodeTermRanges (message : Bytes) : List IndexRange :=
  match fromUtf8 message with
  | some text => scanRuns tables.isAlphanumeric charWidth message.length text
  -- structural messages originate as UTF-8
  | none => []

/-- Split a message into literals, values and terms. -/
def parseMessage (message : Bytes) : ParsedMessage :=
  let ascii := message.all fun byte => byte.toNat < 128
  let state := parseTokens ascii message message.length message 0 ParseState.empty
  let terms :=
    if ascii then state.terms.finish message.length else unicodeTermRanges tables message
  let literals := state.literals ++ [⟨state.literalStart, message.length⟩]
  { message := message
    signatureHash := templateHash message literals
    literals := literals
    values := state.values
    terms := terms }

/-! ## Parsing a batch -/

/-- Layouts of a batch, the layout of each record, and the number of records
of each layout. -/
structure ParsedMessages where
  layouts : List ParsedMessage
  layoutIds : List Nat
  layoutCounts : List Nat
deriving DecidableEq, Repr

def messageLayoutCacheEntries : Nat := 1024

/-- `u32::MAX` marks an unused slot of a cache. -/
def emptySlot : Nat := 2 ^ 32 - 1

/-- Slot of a message in the layout cache. -/
def messageLayoutCacheSlot (message : Bytes) : Nat :=
  let length := message.length
  if 8 ≤ length then
    let first := UInt64.ofNat (Integers.fromLeBytes (message.take 8))
    let last := UInt64.ofNat (Integers.fromLeBytes (message.drop (length - 8)))
    let hash := first ^^^ rotateLeft last 29 ^^^ (UInt64.ofNat length * 0x9e3779b185ebca87)
    (hash ^^^ (hash >>> 32)).toNat % messageLayoutCacheEntries
  else
    (fnvBytes (UInt64.ofNat length * 0x9e3779b185ebca87) message).toNat % messageLayoutCacheEntries

/-- A slot of a cache after a write. -/
def setSlot (cache : Nat → Nat) (slot value : Nat) : Nat → Nat :=
  fun other => if other = slot then value else cache other

/-- Count one more record of a layout. -/
def ParsedMessages.addRecord (parsed : ParsedMessages) (layoutId : Nat) :
    LogDbResult ParsedMessages := do
  let id ← tryU32 layoutId
  .ok { parsed with
    layoutIds := parsed.layoutIds ++ [id]
    layoutCounts := parsed.layoutCounts.modify layoutId (saturatingAdd · 1) }

/-- The loop over the messages of a batch.  A hit compares bytes; the pointer
shortcut of the source only skips that comparison. -/
def parseMessagesFrom : List Bytes → ParsedMessages → (Nat → Nat) → LogDbResult ParsedMessages
  | [], parsed, _ => .ok parsed
  | message :: messages, parsed, cache => do
      let slot := messageLayoutCacheSlot message
      let cached := cache slot
      if cached ≠ emptySlot ∧ parsed.layouts[cached]?.map ParsedMessage.message = some message then
        let parsed ← parsed.addRecord cached
        parseMessagesFrom messages parsed cache
      else
        let layoutId := parsed.layouts.length
        let entry ← tryU32 layoutId
        let parsed ← { parsed with
          layouts := parsed.layouts ++ [parseMessage tables message]
          layoutCounts := parsed.layoutCounts ++ [0] : ParsedMessages }.addRecord layoutId
        parseMessagesFrom messages parsed (setSlot cache slot entry)

/-- Parse the messages of a batch of records. -/
def parseMessages {R : Type} [StructuralRecordView R] (records : List R) :
    LogDbResult ParsedMessages :=
  parseMessagesFrom tables (records.map fun record => utf8 (structuralMessage record))
    ⟨[], [], []⟩ fun _ => emptySlot

/-! ## Terms of a parsed message -/

/-- The inner loop stops at the first byte of the other kind. -/
theorem scanTokenRun_eq (ascii token : Bool) (bytes : Bytes) (cursor : Nat) (terms : RunScan) :
    scanTokenRun ascii token bytes cursor terms = (bytes.dropWhile (isTemplateTokenByte · = token),
        cursor + (bytes.takeWhile (isTemplateTokenByte · = token)).length,
        if ascii then
          scanFrom isAsciiAlphanumericByte (fun _ => 1) cursor terms
            (bytes.takeWhile (isTemplateTokenByte · = token))
        else terms) := by
  induction bytes generalizing cursor terms with
  | nil => simp [scanTokenRun, scanFrom]
  | cons byte rest ih =>
    by_cases hkind : isTemplateTokenByte byte = token
    · rw [scanTokenRun, if_pos hkind, ih]
      cases ascii <;> simp [hkind, scanFrom] <;> omega
    · simp [scanTokenRun, hkind, scanFrom]

@[simp] theorem closeToken_terms (state : ParseState) (message : Bytes) (token : Bool)
    (start stop : Nat) : (state.closeToken message token start stop).terms = state.terms := by
  unfold ParseState.closeToken
  split <;> rfl

/-- The outer loop observes every byte of an ASCII message exactly once. -/
theorem terms_parseTokens (message : Bytes) {fuel : Nat} {rest : Bytes} {start : Nat}
    {state : ParseState} (hfuel : rest.length ≤ fuel) :
    (parseTokens true message fuel rest start state).terms =
      scanFrom isAsciiAlphanumericByte (fun _ => 1) start state.terms rest := by
  induction fuel generalizing rest start state with
  | zero =>
    obtain rfl : rest = [] := by simpa using hfuel
    rfl
  | succ fuel ih =>
    cases rest with
    | nil => rfl
    | cons byte rest =>
      have hdrop : ((byte :: rest).dropWhile
          (isTemplateTokenByte · = isTemplateTokenByte byte)).length ≤ fuel := by
        have hle := (dropWhile_suffix (l := rest)
          (isTemplateTokenByte · = isTemplateTokenByte byte)).length_le
        simp only [length_cons] at hfuel
        simp only [dropWhile_cons, decide_true, if_true]
        omega
      rw [parseTokens, scanTokenRun_eq, ih hdrop, closeToken_terms]
      have hsplit := scanFrom_append isAsciiAlphanumericByte (fun _ => 1)
        ((byte :: rest).takeWhile (isTemplateTokenByte · = isTemplateTokenByte byte))
        ((byte :: rest).dropWhile (isTemplateTokenByte · = isTemplateTokenByte byte))
        start state.terms
      have hsum : ∀ run : Bytes, (run.map fun _ => 1).sum = run.length := by simp
      rw [takeWhile_append_dropWhile, hsum] at hsplit
      rw [hsplit, if_pos rfl]

/-- The terms of a parsed text are the ranges the message scanner reports. -/
theorem terms_parseMessage (text : Str) :
    (parseMessage tables (utf8 text)).terms = messageTermRanges tables text := by
  have hascii := all_lt_128_utf8_iff text
  unfold messageTermRanges
  cases hcase : isAscii text with
  | true =>
    have hterms := @terms_parseTokens (utf8 text) (utf8 text).length (utf8 text) 0
      ParseState.empty le_rfl
    simp only [parseMessage, hascii, hcase, if_true, hterms]
    rfl
  | false =>
    simp only [parseMessage, hascii, hcase, Bool.false_eq_true, if_false, unicodeTermRanges,
      fromUtf8_utf8]

/-! ## Literals and values tile the message -/

/-- Literals with the values put between them. -/
def rebuild : List Bytes → List Bytes → Bytes
  | [], _ => []
  | first :: rest, values => first ++ (List.zipWith (· ++ ·) values rest).flatten

theorem rebuild_cons_cons {literal value : Bytes} (hne : literals ≠ []) :
    rebuild (literal :: literals) (value :: values) =
      literal ++ value ++ rebuild literals values := by
  cases literals with
  | nil => contradiction
  | cons next rest => simp [rebuild]

theorem rebuild_append_last (last : Bytes) (hlength : literals.length = values.length) :
    rebuild (literals ++ [last]) values = (zipWith (· ++ ·) literals values).flatten ++ last := by
  induction literals generalizing values with
  | nil =>
    obtain rfl : values = [] := by simpa using hlength.symm
    simp [rebuild]
  | cons literal literals ih =>
    cases values with
    | nil => simp at hlength
    | cons value values => simp_all [rebuild_cons_cons]

/-- The closed literals and values cover the message up to the current literal. -/
structure Tiles (message : Bytes) (state : ParseState) (cursor : Nat) : Prop where
  length : state.literals.length = state.values.length
  start_le : state.literalStart ≤ cursor
  content : (List.zipWith (· ++ ·) (state.literals.map (slice message))
    (state.values.map (slice message))).flatten = message.take state.literalStart

/-- A closed token continues the tiling. -/
theorem Tiles.closeToken {state : ParseState} {start stop : Nat} (h : Tiles message state start)
    (token : Bool) (hle : start ≤ stop) :
    Tiles message (state.closeToken message token start stop) stop := by
  rcases h with ⟨hlength, hstart, hcontent⟩
  unfold ParseState.closeToken
  split
  · refine ⟨by simp [hlength], le_rfl, ?_⟩
    simp only [map_append, map_cons, map_nil]
    rw [zipWith_append (by simp [hlength]), flatten_append, hcontent]
    simp only [zipWith_cons_cons, zipWith_nil_right, flatten_cons, flatten_nil, append_nil]
    rw [← append_assoc, take_append_slice message hstart, take_append_slice message hle]
  · exact ⟨hlength, hstart.trans hle, hcontent⟩

/-- All tokens tile the message. -/
theorem tiles_parseTokens (ascii : Bool) (message : Bytes) {fuel : Nat} {rest : Bytes}
    {start : Nat} {state : ParseState} (hlength : start + rest.length = message.length)
    (h : Tiles message state start) :
    Tiles message (parseTokens ascii message fuel rest start state) message.length := by
  induction fuel generalizing rest start state with
  | zero => exact ⟨h.length, by have := h.start_le; simp only [parseTokens]; omega, h.content⟩
  | succ fuel ih =>
    cases rest with
    | nil => exact ⟨h.length, by have := h.start_le; simp only [parseTokens]; omega, h.content⟩
    | cons byte rest =>
      rw [parseTokens, scanTokenRun_eq]
      have hstart : ∀ terms, Tiles message { state with terms := terms } start :=
        fun _ => ⟨h.length, h.start_le, h.content⟩
      refine ih ?_ ((hstart _).closeToken _ (Nat.le_add_right _ _))
      have hparts := congrArg List.length (takeWhile_append_dropWhile
        (p := (isTemplateTokenByte · = isTemplateTokenByte byte)) (l := byte :: rest))
      rw [length_append] at hparts
      dsimp only
      omega

/-- A message is its literals with its values put between them. -/
theorem rebuild_parseMessage (message : Bytes) :
    rebuild (parseMessage tables message).literalBytes (parseMessage tables message).valueBytes =
      message := by
  have h := @tiles_parseTokens (message.all fun byte => byte.toNat < 128) message message.length
    message 0 ParseState.empty (by simp) ⟨rfl, le_rfl, by simp [ParseState.empty]⟩
  simp only [ParsedMessage.literalBytes, ParsedMessage.valueBytes, parseMessage, map_append,
    map_cons, map_nil]
  rw [rebuild_append_last _ (by simpa using h.length), h.content,
    take_append_slice message h.start_le, take_length]

/-- Literals enclose the values. -/
theorem length_literals_parseMessage (message : Bytes) :
    (parseMessage tables message).literals.length =
      (parseMessage tables message).values.length + 1 := by
  have h := @tiles_parseTokens (message.all fun byte => byte.toNat < 128) message message.length
    message 0 ParseState.empty (by simp) ⟨rfl, le_rfl, by simp [ParseState.empty]⟩
  simp [parseMessage, h.length]

/-- The layout keeps its message. -/
@[simp] theorem message_parseMessage (message : Bytes) :
    (parseMessage tables message).message = message :=
  rfl

/-! ## Layouts of a batch -/

/-- Every message of the batch so far points at the layout parsed from it, and
there are no other layouts. -/
structure LayoutsFor (messages : List Bytes) (parsed : ParsedMessages) : Prop where
  ids : List.Forall₂
    (fun message id => parsed.layouts[id]? = some (parseMessage tables message) ∧ id < 2 ^ 32)
    messages parsed.layoutIds
  layouts : ∀ layout ∈ parsed.layouts, ∃ message ∈ messages, layout = parseMessage tables message
  counts : parsed.layoutCounts.length = parsed.layouts.length

variable {tables}

/-- One more record. -/
theorem LayoutsFor.addRecord {layoutId : Nat} (h : LayoutsFor tables messages parsed)
    (hlayout : parsed.layouts[layoutId]? = some (parseMessage tables message))
    (hadd : parsed.addRecord layoutId = .ok parsed') :
    LayoutsFor tables (messages ++ [message]) parsed' := by
  rcases bind_eq_ok_iff.mp hadd with ⟨id, hid, hresult⟩
  rcases tryU32_eq_ok_iff.mp hid with ⟨rfl, hfits⟩
  cases hresult
  refine ⟨?_, ?_, ?_⟩
  · exact rel_append h.ids (.cons ⟨hlayout, hfits⟩ .nil)
  · intro layout hmem
    rcases h.layouts layout hmem with ⟨other, hother, heq⟩
    exact ⟨other, mem_append_left _ hother, heq⟩
  · simpa using h.counts

/-- Pushing the layout of a message keeps the earlier assignments. -/
theorem LayoutsFor.pushLayout (h : LayoutsFor tables messages parsed) (hadd : { parsed with
      layouts := parsed.layouts ++ [parseMessage tables message]
      layoutCounts := parsed.layoutCounts ++ [0] : ParsedMessages }.addRecord
        parsed.layouts.length = .ok parsed') :
    LayoutsFor tables (messages ++ [message]) parsed' := by
  rcases bind_eq_ok_iff.mp hadd with ⟨id, hid, hresult⟩
  rcases tryU32_eq_ok_iff.mp hid with ⟨rfl, hfits⟩
  cases hresult
  refine ⟨?_, ?_, ?_⟩
  · refine rel_append ?_ (.cons ⟨by simp, hfits⟩ .nil)
    refine h.ids.imp fun other id hother => ⟨?_, hother.2⟩
    have hlt : id < parsed.layouts.length := (List.getElem?_eq_some_iff.mp hother.1).1
    rw [getElem?_append_left hlt]
    exact hother.1
  · intro layout hmem
    rcases mem_append.mp hmem with hold | hnew
    · rcases h.layouts layout hold with ⟨other, hother, heq⟩
      exact ⟨other, mem_append_left _ hother, heq⟩
    · exact ⟨message, by simp, by simpa using hnew⟩
  · simp [h.counts]

/-- All records have the layouts of their messages. -/
theorem parseMessagesFrom_spec {before : List Bytes} {parsed : ParsedMessages} {cache : Nat → Nat}
    (h : LayoutsFor tables before parsed)
    (hrun : parseMessagesFrom tables messages parsed cache = .ok parsed') :
    LayoutsFor tables (before ++ messages) parsed' := by
  induction messages generalizing before parsed parsed' cache with
  | nil =>
    cases hrun
    simpa using h
  | cons message messages ih =>
    rw [parseMessagesFrom] at hrun
    have hassoc : before ++ message :: messages = before ++ [message] ++ messages := by simp
    rw [hassoc]
    split at hrun
    · rename_i hhit
      rcases Option.map_eq_some_iff.mp hhit.2 with ⟨layout, hlayout, hbytes⟩
      -- a hit points at a layout parsed from the same bytes
      rcases h.layouts layout (mem_of_getElem? hlayout) with ⟨other, _, rfl⟩
      obtain rfl : other = message := hbytes
      rcases bind_eq_ok_iff.mp hrun with ⟨next, hnext, hrest⟩
      exact ih (h.addRecord hlayout hnext) hrest
    · rcases bind_eq_ok_iff.mp hrun with ⟨entry, _, hrun⟩
      rcases bind_eq_ok_iff.mp hrun with ⟨next, hnext, hrest⟩
      exact ih (h.pushLayout hnext) hrest

/-- Every record is assigned the layout parsed from its own message. -/
theorem parseMessages_spec {R : Type} [StructuralRecordView R] {records : List R}
    (h : parseMessages tables records = .ok parsed) :
    LayoutsFor tables (records.map fun record => utf8 (structuralMessage record)) parsed := by
  have hinit : LayoutsFor tables [] ⟨[], [], []⟩ := ⟨.nil, by simp, rfl⟩
  simpa using parseMessagesFrom_spec hinit h

end ShardLog.Structural
