import ShardLog.Foundation.Sorted
import ShardLog.Structural.Membership

/-!
# Persistent index - Message trigram filters

One bit for each hash of three consecutive bytes of a lowercase message.  A block
whose filter lacks a bit of a literal is passed over.
-/

namespace ShardLog.Persistent

open ByteReader Utf8 Sorted List
open Structural (testFilterBit setFilterBit bitMask bitMask_ne_zero or_and_distrib)

/-! ## Slots -/

def messageTrigramFilterBits : Nat := 65536

def messageTrigramFilterWords : Nat := messageTrigramFilterBits / 64

/-- Three consecutive bytes. -/
structure Trigram where
  first : UInt8
  second : UInt8
  third : UInt8
deriving DecidableEq, Repr

/-- `windows(3)`. -/
def trigrams : Bytes → List Trigram
  | first :: second :: third :: rest => ⟨first, second, third⟩ :: trigrams (second :: third :: rest)
  | _ => []

/-- `u8::to_ascii_lowercase`. -/
def toAsciiLowercase (byte : UInt8) : UInt8 :=
  if 65 ≤ byte.toNat ∧ byte.toNat ≤ 90 then byte + 32 else byte

def Trigram.toAsciiLowercase (trigram : Trigram) : Trigram where
  first := Persistent.toAsciiLowercase trigram.first
  second := Persistent.toAsciiLowercase trigram.second
  third := Persistent.toAsciiLowercase trigram.third

/-- Position of a trigram in a filter. -/
def messageTrigramSlot (trigram : Trigram) : Nat :=
  let hash := trigram.first.toUInt32 ||| (trigram.second.toUInt32 <<< 8) |||
    (trigram.third.toUInt32 <<< 16)
  let hash := (hash ^^^ (hash >>> 16)) * 0x7feb352d
  let hash := (hash ^^^ (hash >>> 15)) * 0x846ca68b
  let hash := hash ^^^ (hash >>> 16)
  hash.toNat % messageTrigramFilterBits

variable (tables : UnicodeTables) {slot : Nat} {bytes : Bytes}

/-- The slots reported by `visit_normalized_trigrams`, in order. -/
def normalizedTrigramSlots (message : Str) : List Nat :=
  if isAscii message then
    (trigrams (utf8 message)).map fun trigram => messageTrigramSlot trigram.toAsciiLowercase
  else (trigrams (utf8 (toLowercase tables message))).map messageTrigramSlot

def requiredMessageTrigramSlots (literals : List Str) : List Nat :=
  sortDedup (literals.flatMap (normalizedTrigramSlots tables))

/-! ## Filters -/

/-- Bits of the trigrams of a set of messages. -/
structure MessageTrigramFilter where
  words : List UInt64
  length_words : words.length = messageTrigramFilterWords
deriving DecidableEq

namespace MessageTrigramFilter

def new : MessageTrigramFilter := ⟨List.replicate messageTrigramFilterWords 0, List.length_replicate⟩

def setBit (filter : MessageTrigramFilter) (slot : Nat) : MessageTrigramFilter where
  words := setFilterBit filter.words slot
  length_words := by simp [setFilterBit, filter.length_words]

def insertMessage (filter : MessageTrigramFilter) (message : Str) : MessageTrigramFilter :=
  (normalizedTrigramSlots tables message).foldl setBit filter

def mightContainAll (filter : MessageTrigramFilter) (slots : List Nat) : Bool :=
  slots.all (testFilterBit filter.words)

/-- Combine two filters word by word. -/
def zipWords (combine : UInt64 → UInt64 → UInt64) (left right : MessageTrigramFilter) :
    MessageTrigramFilter where
  words := List.zipWith combine left.words right.words
  length_words := by simp [left.length_words, right.length_words]

def full : MessageTrigramFilter :=
  ⟨List.replicate messageTrigramFilterWords 0xffffffffffffffff, List.length_replicate⟩

end MessageTrigramFilter

open MessageTrigramFilter

/-- The union and the intersection of the filters of all blocks. -/
def aggregateMessageTrigrams (filters : List MessageTrigramFilter) :
    MessageTrigramFilter × MessageTrigramFilter :=
  if filters.isEmpty then (.new, .new)
  else (filters.foldl (.zipWords (· ||| ·)) .new, filters.foldl (.zipWords (· &&& ·)) .full)

/-! ## Bits -/

theorem bitMask_and_bitMask (bit other : Nat) :
    bitMask bit &&& bitMask other ≠ 0 ↔ bit % 64 = other % 64 := by
  have hall : ∀ shift < 64, ∀ other < 64,
      (1 : UInt64) <<< UInt64.ofNat shift &&& (1 : UInt64) <<< UInt64.ofNat other ≠ 0 ↔
        shift = other := by
    decide +kernel
  exact hall _ (Nat.mod_lt _ (by decide)) _ (Nat.mod_lt _ (by decide))

/-- Setting a bit reports that bit and what was reported before. -/
theorem testFilterBit_setFilterBit {words : List UInt64} {bit : Nat} (h : bit / 64 < words.length)
    (other : Nat) :
    testFilterBit (setFilterBit words bit) other = true ↔
      other = bit ∨ testFilterBit words other = true := by
  simp only [testFilterBit, setFilterBit, getElem?_modify, bne_iff_ne, ne_eq]
  by_cases hword : bit / 64 = other / 64
  · grind [bitMask_and_bitMask, or_and_distrib]
  · grind

/-- Slots are in range. -/
theorem messageTrigramSlot_lt (trigram : Trigram) :
    messageTrigramSlot trigram < messageTrigramFilterBits :=
  Nat.mod_lt _ (by decide)

theorem lt_of_mem_normalizedTrigramSlots {message : Str}
    (h : slot ∈ normalizedTrigramSlots tables message) : slot < messageTrigramFilterBits := by
  unfold normalizedTrigramSlots at h
  split at h
  · obtain ⟨trigram, _, rfl⟩ := mem_map.mp h
    exact messageTrigramSlot_lt _
  · obtain ⟨trigram, _, rfl⟩ := mem_map.mp h
    exact messageTrigramSlot_lt _

namespace MessageTrigramFilter

/-- The filter reports a slot. -/
def Reports (filter : MessageTrigramFilter) (slot : Nat) : Prop :=
  testFilterBit filter.words slot = true

variable {filter : MessageTrigramFilter} {slots : List Nat} {slot : Nat}

/-- All slots are reported. -/
theorem mightContainAll_iff :
    filter.mightContainAll slots = true ↔ ∀ slot ∈ slots, filter.Reports slot :=
  all_eq_true

/-- One more slot is reported. -/
theorem reports_setBit (h : slot < messageTrigramFilterBits) (other : Nat) :
    (filter.setBit slot).Reports other ↔ other = slot ∨ filter.Reports other := by
  apply testFilterBit_setFilterBit
  rw [filter.length_words]
  unfold messageTrigramFilterWords messageTrigramFilterBits at *
  omega

/-- All given slots are reported. -/
theorem reports_foldl_setBit (hslots : ∀ slot ∈ slots, slot < messageTrigramFilterBits)
    (other : Nat) :
    ∀ {filter : MessageTrigramFilter}, (slots.foldl setBit filter).Reports other ↔
      other ∈ slots ∨ filter.Reports other := by
  induction slots with
  | nil => simp
  | cons slot slots ih => grind [reports_setBit]

theorem not_reports_new (slot : Nat) : ¬new.Reports slot := by
  by_cases hlt : slot / 64 < messageTrigramFilterWords
  · simp [Reports, new, testFilterBit, hlt]
  · simp [Reports, new, testFilterBit, hlt]

/-- A combined filter has the combined words. -/
theorem getD_zipWords {combine : UInt64 → UInt64 → UInt64} (hzero : combine 0 0 = 0)
    (left right : MessageTrigramFilter) (word : Nat) :
    (zipWords combine left right).words[word]?.getD 0 =
      combine (left.words[word]?.getD 0) (right.words[word]?.getD 0) := by
  have hlength := left.length_words.trans right.length_words.symm
  by_cases hlt : word < left.words.length
  · simp [zipWords, hlt, hlength ▸ hlt]
  · simp [zipWords, hlt, hlength ▸ hlt, hzero]

/-- A union reports the slots of both. -/
theorem reports_union (left right : MessageTrigramFilter) (slot : Nat) :
    (zipWords (· ||| ·) left right).Reports slot ↔ left.Reports slot ∨ right.Reports slot := by
  simp only [Reports, testFilterBit, getD_zipWords (UInt64.or_self), or_and_distrib, bne_iff_ne,
    ne_eq, UInt64.or_eq_zero_iff, not_and_or]

/-- An intersection reports common slots. -/
theorem reports_of_intersection {left right : MessageTrigramFilter}
    (h : (zipWords (· &&& ·) left right).Reports slot) :
    left.Reports slot ∧ right.Reports slot := by
  simp only [Reports, testFilterBit, getD_zipWords (UInt64.and_self), bne_iff_ne, ne_eq] at h ⊢
  refine ⟨fun hzero => h ?_, fun hzero => h ?_⟩
  · rw [UInt64.and_assoc, UInt64.and_comm (right.words[_]?.getD 0), ← UInt64.and_assoc, hzero,
      UInt64.zero_and]
  · rw [UInt64.and_assoc, hzero, UInt64.and_zero]

end MessageTrigramFilter

/-! ## Aggregates -/

/-- The union reports what some block reports. -/
theorem reports_aggregate_union (filters : List MessageTrigramFilter) (slot : Nat) :
    (aggregateMessageTrigrams filters).1.Reports slot ↔
      ∃ filter ∈ filters, filter.Reports slot := by
  have hfold : ∀ (filters : List MessageTrigramFilter) (start : MessageTrigramFilter),
      (filters.foldl (.zipWords (· ||| ·)) start).Reports slot ↔
        start.Reports slot ∨ ∃ filter ∈ filters, filter.Reports slot := by
    intro filters
    induction filters with
    | nil => simp
    | cons filter filters ih =>
      intro start
      rw [foldl_cons, ih, reports_union, exists_mem_cons_iff, or_assoc]
  unfold aggregateMessageTrigrams
  split
  · rename_i hempty
    rw [List.isEmpty_iff] at hempty
    simp [hempty, not_reports_new]
  · rw [hfold]
    exact or_iff_right (not_reports_new slot)

/-- What the intersection reports, every block reports. -/
theorem reports_of_aggregate_intersection {filters : List MessageTrigramFilter}
    (h : (aggregateMessageTrigrams filters).2.Reports slot) :
    ∀ filter ∈ filters, filter.Reports slot := by
  have hfold : ∀ (filters : List MessageTrigramFilter) (start : MessageTrigramFilter),
      (filters.foldl (.zipWords (· &&& ·)) start).Reports slot →
        start.Reports slot ∧ ∀ filter ∈ filters, filter.Reports slot := by
    intro filters
    induction filters with
    | nil => exact fun start h => ⟨h, by simp⟩
    | cons filter filters ih =>
      intro start h
      obtain ⟨hfirst, hrest⟩ := ih _ h
      obtain ⟨hstart, hfilter⟩ := reports_of_intersection hfirst
      exact ⟨hstart, forall_mem_cons.mpr ⟨hfilter, hrest⟩⟩
  unfold aggregateMessageTrigrams at h
  split at h
  · exact absurd h (not_reports_new slot)
  · exact (hfold filters _ h).2

/-! ## Trigrams of a lowercase text -/

/-- A text of fewer than three bytes has no trigram. -/
theorem trigrams_of_short
    (hshort : ∀ first second third rest, bytes ≠ first :: second :: third :: rest) :
    trigrams bytes = [] ∧ bytes.length < 3 := by
  match bytes, hshort with
  | [], _ => exact ⟨rfl, by simp⟩
  | [_], _ => exact ⟨rfl, by simp⟩
  | [_, _], _ => exact ⟨rfl, by simp⟩
  | first :: second :: third :: rest, hshort => exact absurd rfl (hshort first second third rest)

/-- Three bytes in a row. -/
theorem mem_trigrams {trigram : Trigram} : trigram ∈ trigrams bytes ↔
      [trigram.first, trigram.second, trigram.third] <:+: bytes := by
  obtain ⟨a, b, c⟩ := trigram
  induction bytes using trigrams.induct with
  | case1 first second third rest ih =>
    have hfirst : [a, b, c] <+: first :: second :: third :: rest ↔
        a = first ∧ b = second ∧ c = third := by
      simp [cons_prefix_cons]
    rw [trigrams, mem_cons, ih, Trigram.mk.injEq, ← hfirst]
    exact infix_cons_iff.symm
  | case2 bytes hshort => grind [trigrams_of_short]

/-- Lowercasing goes through trigrams. -/
theorem map_toAsciiLowercase_trigrams (bytes : Bytes) :
    (trigrams bytes).map Trigram.toAsciiLowercase = trigrams (bytes.map toAsciiLowercase) := by
  induction bytes using trigrams.induct with
  | case1 first second third rest ih =>
    rw [trigrams, map_cons, ih]
    rfl
  | case2 bytes hshort =>
    obtain ⟨hnone, hlength⟩ := trigrams_of_short fun first second third rest heq =>
      hshort first second third rest heq
    obtain ⟨hnone', _⟩ := @trigrams_of_short (bytes.map toAsciiLowercase)
      fun first second third rest heq => by
        have hlength' := congrArg List.length heq
        simp only [length_map, length_cons] at hlength'
        omega
    rw [hnone, hnone', map_nil]

/-- Lowercasing ASCII text lowercases its bytes. -/
theorem utf8_map_toAsciiLower {text : Str} (h : isAscii text = true) :
    utf8 (text.map toAsciiLower) = (utf8 text).map toAsciiLowercase := by
  have hlt : ∀ c ∈ text, c.toNat < 128 := by simpa [isAscii] using h
  have hbyte : ∀ code < 128, UInt8.ofNat (toAsciiLower (Char.ofNat code)).toNat =
      toAsciiLowercase (UInt8.ofNat code) ∧ (toAsciiLower (Char.ofNat code)).toNat < 128 := by
    decide
  have hchar : ∀ c ∈ text, UInt8.ofNat (toAsciiLower c).toNat =
      toAsciiLowercase (UInt8.ofNat c.toNat) ∧ (toAsciiLower c).toNat < 128 := by
    intro c hc
    have hcode := hbyte c.toNat (hlt c hc)
    rwa [Char.ofNat_toNat] at hcode
  have hlower : isAscii (text.map toAsciiLower) = true := by
    simp only [isAscii, all_map, all_eq_true, Function.comp_apply, decide_eq_true_eq]
    exact fun c hc => (hchar c hc).2
  rw [utf8_of_ascii hlower, utf8_of_ascii h, map_map, map_map]
  exact map_congr_left fun c hc => (hchar c hc).1

/-- Both scans visit the trigrams of the lowercase text. -/
theorem normalizedTrigramSlots_eq {tables : UnicodeTables} (laws : tables.Lawful) (message : Str) :
    normalizedTrigramSlots tables message =
      (trigrams (utf8 (toLowercase tables message))).map messageTrigramSlot := by
  unfold normalizedTrigramSlots
  split
  · rename_i hascii
    rw [toLowercase_of_ascii laws hascii, utf8_map_toAsciiLower hascii,
      ← map_toAsciiLowercase_trigrams, map_map]
    rfl
  · rfl

end ShardLog.Persistent
