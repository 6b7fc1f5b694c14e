import ShardLog.Structural.Message

/-!
# Structural blocks - membership filters

A fixed-size filter with two bits per inserted value.  A value that was
inserted is always reported; other values may be.
-/

namespace ShardLog.Structural

open ByteReader Runs Integers List

def embeddedMembershipFilterWords : Nat := 128

/-- A filter of 128 words. -/
structure MembershipFilter where
  words : List UInt64
  length_words : words.length = embeddedMembershipFilterWords
deriving DecidableEq

/-! ## Hashes -/

def membershipHash (value : Bytes) : UInt64 := fnvBytes 0xcbf29ce484222325 value

def membershipPairHash (key value : Bytes) : UInt64 :=
  fnvBytes (fnvStep (membershipHash key) 0xff) value

/-- The second position derived from a hash. -/
def secondHash (hash : UInt64) : UInt64 := rotateLeft hash 29 ^^^ 0x9e3779b97f4a7c15

/-! ## Operations -/

def MembershipFilter.new : MembershipFilter := ⟨List.replicate embeddedMembershipFilterWords 0, rfl⟩

/-- Position of a hash in the filter. -/
def filterBit (hash : UInt64) : Nat := hash.toNat % (embeddedMembershipFilterWords * 64)

/-- The single-bit word at a position. -/
def bitMask (bit : Nat) : UInt64 := 1 <<< UInt64.ofNat (bit % 64)

def setFilterBit (words : List UInt64) (bit : Nat) : List UInt64 :=
  words.modify (bit / 64) (· ||| bitMask bit)

def testFilterBit (words : List UInt64) (bit : Nat) : Bool :=
  words[bit / 64]?.getD 0 &&& bitMask bit != 0

def MembershipFilter.insertHash (filter : MembershipFilter) (hash : UInt64) : MembershipFilter where
  words := setFilterBit (setFilterBit filter.words (filterBit hash)) (filterBit (secondHash hash))
  length_words := by simp [setFilterBit, filter.length_words]

def MembershipFilter.insert (filter : MembershipFilter) (value : Bytes) : MembershipFilter :=
  filter.insertHash (membershipHash value)

def MembershipFilter.insertPair (filter : MembershipFilter) (key value : Bytes) :
    MembershipFilter :=
  filter.insertHash (membershipPairHash key value)

def MembershipFilter.mightContainHash (filter : MembershipFilter) (hash : UInt64) : Bool :=
  [hash, secondHash hash].all fun candidate => testFilterBit filter.words (filterBit candidate)

def MembershipFilter.mightContain (filter : MembershipFilter) (value : Bytes) : Bool :=
  filter.mightContainHash (membershipHash value)

def MembershipFilter.mightContainPair (filter : MembershipFilter) (key value : Bytes) : Bool :=
  filter.mightContainHash (membershipPairHash key value)

/-! ## No false negatives -/

theorem bitMask_ne_zero (bit : Nat) : bitMask bit ≠ 0 := by
  have hall : ∀ shift < 64, (1 : UInt64) <<< UInt64.ofNat shift ≠ 0 := by decide
  exact hall _ (Nat.mod_lt _ (by decide))

theorem or_and_distrib (left right mask : UInt64) :
    (left ||| right) &&& mask = (left &&& mask) ||| (right &&& mask) := by
  apply UInt64.toBitVec_inj.mp
  ext i hi
  simp [Bool.and_or_distrib_right]

variable {words : List UInt64} {bit : Nat}

/-- A set bit is found. -/
theorem testFilterBit_setFilterBit_self (h : bit / 64 < words.length) :
    testFilterBit (setFilterBit words bit) bit = true := by
  have hmask := bitMask_ne_zero bit
  simp [testFilterBit, setFilterBit, h, or_and_distrib, hmask]

/-- Other bits stay set. -/
theorem testFilterBit_setFilterBit_of {other : Nat} (h : testFilterBit words bit = true) :
    testFilterBit (setFilterBit words other) bit = true := by
  unfold testFilterBit setFilterBit at *
  rw [getElem?_modify]
  by_cases heq : other / 64 = bit / 64
  · cases hword : words[bit / 64]? with
    | none => simp [hword] at h
    | some word => simp_all [or_and_distrib]
  · simpa [heq] using h

theorem filterBit_lt (filter : MembershipFilter) (hash : UInt64) :
    filterBit hash / 64 < filter.words.length := by
  have hlt : filterBit hash < embeddedMembershipFilterWords * 64 := Nat.mod_lt _ (by decide)
  rw [filter.length_words]
  exact Nat.div_lt_of_lt_mul (by rwa [Nat.mul_comm])

/-- An inserted hash is reported. -/
theorem mightContainHash_insertHash_self (filter : MembershipFilter) (hash : UInt64) :
    (filter.insertHash hash).mightContainHash hash = true := by
  have hfirst := testFilterBit_setFilterBit_self (filterBit_lt filter hash)
  have hlength : filterBit (secondHash hash) / 64 <
      (setFilterBit filter.words (filterBit hash)).length := by
    have := filterBit_lt filter (secondHash hash)
    simpa [setFilterBit] using this
  simp only [MembershipFilter.mightContainHash, MembershipFilter.insertHash, all_cons,
    all_nil, Bool.and_true, Bool.and_eq_true]
  exact ⟨testFilterBit_setFilterBit_of hfirst, testFilterBit_setFilterBit_self hlength⟩

/-- Insertion forgets nothing. -/
theorem mightContainHash_insertHash_of {filter : MembershipFilter} {hash : UInt64}
    (h : filter.mightContainHash hash = true) (other : UInt64) :
    (filter.insertHash other).mightContainHash hash = true := by
  simp only [MembershipFilter.mightContainHash, all_cons, all_nil, Bool.and_true,
    Bool.and_eq_true] at h ⊢
  exact ⟨testFilterBit_setFilterBit_of (testFilterBit_setFilterBit_of h.1),
    testFilterBit_setFilterBit_of (testFilterBit_setFilterBit_of h.2)⟩

/-! ## The filter section -/

def encodeMembershipFilter (filter : MembershipFilter) : Bytes :=
  filter.words.flatMap fun word => leBytes 8 word.toNat

/-- The words of 1024 bytes. -/
def filterWords (bytes : Bytes) : List UInt64 :=
  (List.range embeddedMembershipFilterWords).map fun index =>
    UInt64.ofNat (fromLeBytes (slice bytes ⟨8 * index, 8 * index + 8⟩))

def readMembershipFilter : BlockReader MembershipFilter := do
  let bytes ← takeExactly "membership filter length overflow" "truncated membership filter"
    (embeddedMembershipFilterWords * 8)
  pure ⟨filterWords bytes, by simp [filterWords]⟩

theorem length_flatMap_leBytes (words : List UInt64) :
    (words.flatMap fun word => leBytes 8 word.toNat).length = 8 * words.length := by
  induction words with
  | nil => rfl
  | cons word words ih =>
    rw [flatMap_cons, length_append, ih, length_leBytes, length_cons]
    omega

/-- Each word stands at its own eight bytes. -/
theorem slice_flatMap_leBytes {index : Nat} (h : index < words.length) :
    slice (words.flatMap fun word => leBytes 8 word.toNat)
      ⟨8 * index, 8 * index + 8⟩ = leBytes 8 words[index].toNat := by
  have hsplit : words = words.take index ++ words[index] :: words.drop (index + 1) := by
    rw [← drop_eq_getElem_cons h, take_append_drop]
  have hbefore : ((words.take index).flatMap fun word => leBytes 8 word.toNat).length =
      8 * index := by
    rw [length_flatMap_leBytes, length_take, Nat.min_eq_left h.le]
  have hflat : (words.flatMap fun word => leBytes 8 word.toNat) =
      ((words.take index).flatMap fun word => leBytes 8 word.toNat) ++
        leBytes 8 words[index].toNat ++
        ((words.drop (index + 1)).flatMap fun word => leBytes 8 word.toNat) := by grind
  rw [hflat]
  have hslice := slice_append ((words.take index).flatMap fun word => leBytes 8 word.toNat)
    (leBytes 8 words[index].toNat)
    ((words.drop (index + 1)).flatMap fun word => leBytes 8 word.toNat)
  rw [hbefore, length_leBytes] at hslice
  exact hslice

/-- The words are read back. -/
theorem filterWords_encode (filter : MembershipFilter) :
    filterWords (encodeMembershipFilter filter) = filter.words := by
  apply ext_getElem
  · simp [filterWords, filter.length_words]
  · intro index hleft hright
    simp only [filterWords, getElem_map, getElem_range, encodeMembershipFilter]
    rw [slice_flatMap_leBytes hright, fromLeBytes_leBytes]
    · exact UInt64.ofNat_toNat
    · exact UInt64.toNat_lt _

/-- The filter section round-trips. -/
theorem reads_readMembershipFilter (filter : MembershipFilter) :
    Reads readMembershipFilter (encodeMembershipFilter filter) filter := by
  have hlength : (encodeMembershipFilter filter).length = embeddedMembershipFilterWords * 8 := by
    rw [encodeMembershipFilter, length_flatMap_leBytes, filter.length_words, Nat.mul_comm]
  have htake := reads_takeExactly "membership filter length overflow"
    "truncated membership filter" (encodeMembershipFilter filter)
  rw [hlength] at htake
  refine htake.bind_pure ?_
  simp [filterWords_encode]

end ShardLog.Structural
