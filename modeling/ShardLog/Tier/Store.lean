import ShardLog.Foundation.Interleave
import ShardLog.Tier.CatalogRoot

/-!
# Object tier - The object store

The store is used by any number of catalog handles.  Every operation takes effect
at one point in time, or fails without an effect.  An object remembers the contents
it has had, so that the history of the mutable `CURRENT` object can be talked about.
-/

namespace ShardLog.Tier

open ByteReader Utf8 Interleave

/-! ## Contents -/

/-- The contents every object has had, oldest first. -/
structure ObjectStore where
  versions : Str → List Bytes

namespace ObjectStore

/-- The content of an object, if it exists. -/
def content (store : ObjectStore) (key : Str) : Option Bytes := (store.versions key).getLast?

/-- The object gets a new content. -/
def write (store : ObjectStore) (key : Str) (bytes : Bytes) : ObjectStore where
  versions := Function.update store.versions key (store.versions key ++ [bytes])

end ObjectStore

open ObjectStore

section Operations

variable (services : TierServices)

/-- Metadata of the latest content of an object that was written `version + 1` times. -/
def objectMetadata (version : Nat) (bytes : Bytes) : ObjectMetadata where
  bytes := bytes.length
  versionToken := services.versionToken version bytes
  contentDigest := services.checksumBytes bytes

/-- `metadata_for_path_if_present`. -/
def ObjectStore.metadata (store : ObjectStore) (key : Str) : Option ObjectMetadata :=
  (store.content key).map fun bytes =>
    objectMetadata services ((store.versions key).length - 1) bytes

/-! ## Operations -/

/-- The operations of the store that publication uses.  A file is passed with its
content. -/
inductive StoreOp where
  | putBytesIfAbsent (key : Str) (bytes : Bytes)
  | putFileIfAbsent (key : Str) (bytes : Bytes)
  | get (key : Str) (maxBytes : Nat)
  | head (key : Str)
  | compareAndSwap (key : Str) (expectedVersion : Option Str) (bytes : Bytes)
deriving DecidableEq, Repr

/-- What a successful operation returns. -/
def StoreOp.Value : StoreOp → Type
  | .putBytesIfAbsent _ _ => ObjectMetadata
  | .putFileIfAbsent _ _ => ObjectMetadata
  | .get _ _ => Bytes
  | .head _ => Option ObjectMetadata
  | .compareAndSwap _ _ _ => ObjectMetadata

/-- A program of a catalog handle. -/
abbrev StoreScript := Script LogDbError StoreOp StoreOp.Value

/-- Create the object, or verify an identical retry. -/
def putIfAbsent (store : ObjectStore) (key : Str) (bytes : Bytes) :
    LogDbResult ObjectMetadata × ObjectStore :=
  match store.metadata services key with
  | some observed =>
    if store.content key = some bytes then (.ok observed, store)
    else (.error (.objectStore
      s!"immutable object key {String.ofList key} already contains different bytes"), store)
  | none => (.ok (objectMetadata services (store.versions key).length bytes), store.write key bytes)

namespace ObjectStore

def putBytesIfAbsent (store : ObjectStore) (key : Str) (bytes : Bytes) :
    LogDbResult ObjectMetadata × ObjectStore :=
  match validateObjectKey key with
  | .error e => (.error e, store)
  | .ok _ => putIfAbsent services store key bytes

def putFileIfAbsent (store : ObjectStore) (key : Str) (bytes : Bytes) :
    LogDbResult ObjectMetadata × ObjectStore :=
  match validateObjectKey key with
  | .error e => (.error e, store)
  | .ok _ =>
    if bytes = [] then
      (.error (.objectStore "immutable object source must be a nonempty regular file"), store)
    else putIfAbsent services store key bytes

def get (store : ObjectStore) (key : Str) (maxBytes : Nat) : LogDbResult Bytes :=
  match validateObjectKey key with
  | .error e => .error e
  | .ok _ =>
    match store.content key with
    | none => .error (.objectStore s!"inspect object {String.ofList key}")
    | some bytes =>
      if bytes.length > maxBytes then
        .error (.objectStore (s!"object {String.ofList key} is {bytes.length} bytes, " ++
          s!"exceeding read limit {maxBytes}"))
      else .ok bytes

def head (store : ObjectStore) (key : Str) : LogDbResult (Option ObjectMetadata) :=
  match validateObjectKey key with
  | .error e => .error e
  | .ok _ => .ok (store.metadata services key)

def compareAndSwap (store : ObjectStore) (key : Str) (expectedVersion : Option Str)
    (bytes : Bytes) : LogDbResult ObjectMetadata × ObjectStore :=
  match validateObjectKey key with
  | .error e => (.error e, store)
  | .ok _ =>
    let observed := (store.metadata services key).map ObjectMetadata.versionToken
    if observed = expectedVersion then
      (.ok (objectMetadata services (store.versions key).length bytes), store.write key bytes)
    else (.error (.staleCatalog expectedVersion observed), store)

end ObjectStore

/-- The answer of the store to an operation, and the store afterwards. -/
def answer : (op : StoreOp) → ObjectStore → LogDbResult op.Value × ObjectStore
  | .putBytesIfAbsent key bytes, store => store.putBytesIfAbsent services key bytes
  | .putFileIfAbsent key bytes, store => store.putFileIfAbsent services key bytes
  | .get key maxBytes, store => (store.get key maxBytes, store)
  | .head key, store => (store.head services key, store)
  | .compareAndSwap key expectedVersion bytes, store =>
    store.compareAndSwap services key expectedVersion bytes

/-- The contract of a store: an operation that reports a failure has had no effect.  The
local store keeps it but for a failure of `sync_parent` or `unlock_file` after the rename. -/
def FailsWithoutEffect {op : StoreOp} (before : ObjectStore) (response : LogDbResult op.Value)
    (after : ObjectStore) : Prop :=
  (∃ e, response = .error e) ∧ after = before

/-- An operation is answered, or fails within the contract. -/
def Performs (op : StoreOp) (before : ObjectStore) (response : LogDbResult op.Value)
    (after : ObjectStore) : Prop :=
  answer services op before = (response, after) ∨ FailsWithoutEffect before response after

end Operations

/-! ## How the store changes -/

/-- Objects other than `CURRENT` stay as they are once they exist, and `CURRENT` keeps
its history. -/
def Grows (currentKey : Str) (before after : ObjectStore) : Prop :=
  (∀ key, key ≠ currentKey → before.versions key ≠ [] → after.versions key = before.versions key) ∧
  before.versions currentKey <+: after.versions currentKey

/-- An operation that does not write `CURRENT`. -/
def StoreOp.Plain (currentKey : Str) : StoreOp → Prop
  | .putBytesIfAbsent key _ => key ≠ currentKey
  | .putFileIfAbsent key _ => key ≠ currentKey
  | .get _ _ => True
  | .head _ => True
  | .compareAndSwap _ _ _ => False

section Growth

variable {services : TierServices} {currentKey key : Str} {bytes : Bytes}
  {before after store : ObjectStore}

theorem grows_refl (currentKey : Str) (store : ObjectStore) : Grows currentKey store store :=
  ⟨fun _ _ _ => rfl, List.prefix_refl _⟩

theorem grows_trans {first second third : ObjectStore} (h : Grows currentKey first second)
    (h' : Grows currentKey second third) : Grows currentKey first third := by
  refine ⟨fun key hkey hfirst => ?_, h.2.trans h'.2⟩
  have hsecond := h.1 key hkey hfirst
  rw [h'.1 key hkey (by rwa [hsecond]), hsecond]

section

variable (h : Grows currentKey before after)

include h

/-- An existing object keeps its history. -/
theorem Grows.versions_eq (hkey : key ≠ currentKey) (hcontent : before.content key = some bytes) :
    after.versions key = before.versions key :=
  h.1 key hkey fun hnil => by simp [content, hnil] at hcontent

/-- What was stored stays stored. -/
theorem Grows.content_eq (hkey : key ≠ currentKey) (hcontent : before.content key = some bytes) :
    after.content key = some bytes := by
  rw [content, h.versions_eq hkey hcontent]
  exact hcontent

/-- A version of `CURRENT` keeps its place. -/
theorem Grows.getElem?_eq {version : Nat}
    (hversion : (before.versions currentKey)[version]? = some bytes) :
    (after.versions currentKey)[version]? = some bytes :=
  AssocMap.getElem?_of_isPrefix h.2 hversion

end

theorem content_write_self (store : ObjectStore) (key : Str) (bytes : Bytes) :
    (store.write key bytes).content key = some bytes := by
  simp [content, write]

theorem versions_write_self (store : ObjectStore) (key : Str) (bytes : Bytes) :
    (store.write key bytes).versions key = store.versions key ++ [bytes] := by
  simp [write]

theorem versions_write_of_ne {other : Str} (h : other ≠ key) :
    (store.write key bytes).versions other = store.versions other :=
  Function.update_of_ne h _ _

theorem metadata_of_content (hcontent : store.content key = some bytes) :
    store.metadata services key =
      some (objectMetadata services ((store.versions key).length - 1) bytes) := by
  rw [metadata, hcontent]
  rfl

/-- Creating an object changes no other. -/
theorem grows_write_of_absent (hkey : key ≠ currentKey) (habsent : store.versions key = []) :
    Grows currentKey store (store.write key bytes) := by
  refine ⟨fun other _ hother => versions_write_of_ne fun h => hother (h ▸ habsent), ?_⟩
  simp only [versions_write_of_ne hkey.symm, List.prefix_refl]

/-- A new `CURRENT` changes no other object. -/
theorem grows_write_current : Grows currentKey store (store.write currentKey bytes) := by
  refine ⟨fun key hkey _ => versions_write_of_ne hkey, ?_⟩
  rw [versions_write_self]
  exact List.prefix_append _ _

end Growth

/-! ## What operations do -/

section Performs

variable {services : TierServices} {currentKey key : Str} {bytes : Bytes}
  {before after store : ObjectStore} {metadata : ObjectMetadata}
  {response : LogDbResult ObjectMetadata}

/-- Existing objects are not written. -/
theorem putIfAbsent_of_content (hcontent : store.content key = some bytes) :
    putIfAbsent services store key bytes =
      (.ok (objectMetadata services ((store.versions key).length - 1) bytes), store) := by
  rw [putIfAbsent, metadata_of_content hcontent]
  exact if_pos hcontent

/-- The object has the bytes, which it had before or was created with. -/
structure Stored (services : TierServices) (before after : ObjectStore) (key : Str)
    (bytes : Bytes) (metadata : ObjectMetadata) : Prop where
  key_valid : validateObjectKey key = .ok ()
  bytes_eq : metadata.bytes = bytes.length
  digest_eq : metadata.contentDigest = services.checksumBytes bytes
  effect : before.content key = some bytes ∧ after = before ∨
    before.versions key = [] ∧ after = before.write key bytes

section

variable (h : Stored services before after key bytes metadata)

include h

theorem Stored.content_eq : after.content key = some bytes := by
  rcases h.effect with ⟨hcontent, rfl⟩ | ⟨_, rfl⟩
  · exact hcontent
  · exact content_write_self before key bytes

/-- Storing an object changes no other. -/
theorem Stored.grows (hkey : key ≠ currentKey) : Grows currentKey before after := by
  rcases h.effect with ⟨_, rfl⟩ | ⟨habsent, rfl⟩
  · exact grows_refl currentKey after
  · exact grows_write_of_absent hkey habsent

theorem Stored.current_eq (hkey : key ≠ currentKey) :
    after.versions currentKey = before.versions currentKey := by
  rcases h.effect with ⟨_, rfl⟩ | ⟨_, rfl⟩
  · rfl
  · exact versions_write_of_ne hkey.symm

end

/-- The object is stored, or nothing happens. -/
theorem stored_of_putIfAbsent (hkey : validateObjectKey key = .ok ())
    (h : putIfAbsent services before key bytes = (response, after)) :
    ((∃ e, response = .error e) ∧ after = before) ∨
      ∃ metadata, response = .ok metadata ∧ Stored services before after key bytes metadata := by
  cases hcontent : before.content key with
  | none =>
    rw [putIfAbsent, metadata, hcontent] at h
    cases h
    exact .inr ⟨_, rfl, hkey, rfl, rfl, .inr ⟨List.getLast?_eq_none_iff.mp hcontent, rfl⟩⟩
  | some other =>
    by_cases hother : other = bytes
    · subst hother
      rw [putIfAbsent_of_content hcontent] at h
      cases h
      exact .inr ⟨_, rfl, hkey, rfl, rfl, .inl ⟨hcontent, rfl⟩⟩
    · have hne : before.content key ≠ some bytes := fun hsame =>
        hother (Option.some.inj (hcontent.symm.trans hsame))
      rw [putIfAbsent, metadata_of_content hcontent] at h
      dsimp only at h
      rw [if_neg hne] at h
      cases h
      exact .inl ⟨⟨_, rfl⟩, rfl⟩

/-- Bytes are stored, or nothing happens. -/
theorem performs_putBytes
    (h : Performs services (.putBytesIfAbsent key bytes) before response after) :
    ((∃ e, response = .error e) ∧ after = before) ∨
      ∃ metadata, response = .ok metadata ∧ Stored services before after key bytes metadata := by
  rcases h with h | h
  · replace h : before.putBytesIfAbsent services key bytes = (response, after) := h
    rw [putBytesIfAbsent] at h
    split at h
    · cases h
      exact .inl ⟨⟨_, rfl⟩, rfl⟩
    · rename_i hkey
      exact stored_of_putIfAbsent hkey h
  · exact .inl h

theorem performs_putFile (h : Performs services (.putFileIfAbsent key bytes) before response after) :
    ((∃ e, response = .error e) ∧ after = before) ∨
      ∃ metadata, response = .ok metadata ∧ bytes ≠ [] ∧
        Stored services before after key bytes metadata := by
  rcases h with h | h
  · replace h : before.putFileIfAbsent services key bytes = (response, after) := h
    rw [putFileIfAbsent] at h
    split at h
    · cases h
      exact .inl ⟨⟨_, rfl⟩, rfl⟩
    · grind [stored_of_putIfAbsent]
  · exact .inl h

/-- A read returns what is there. -/
theorem performs_get {maxBytes : Nat} {response : LogDbResult Bytes}
    (h : Performs services (.get key maxBytes) before response after) :
    after = before ∧ ∀ bytes, response = .ok bytes →
      validateObjectKey key = .ok () ∧ before.content key = some bytes ∧
        bytes.length ≤ maxBytes := by
  rcases h with h | ⟨⟨e, rfl⟩, rfl⟩
  · replace h : (before.get key maxBytes, before) = (response, after) := h
    obtain ⟨rfl, rfl⟩ := Prod.mk.inj h
    refine ⟨rfl, fun bytes hbytes => ?_⟩
    rw [ObjectStore.get] at hbytes
    split at hbytes
    · cases hbytes
    · grind
  · simp

/-- So does a look at the metadata. -/
theorem performs_head {response : LogDbResult (Option ObjectMetadata)}
    (h : Performs services (.head key) before response after) :
    after = before ∧ ∀ metadata, response = .ok metadata →
      metadata = before.metadata services key := by
  rcases h with h | ⟨⟨e, rfl⟩, rfl⟩
  · replace h : (before.head services key, before) = (response, after) := h
    obtain ⟨rfl, rfl⟩ := Prod.mk.inj h
    refine ⟨rfl, fun metadata hmetadata => ?_⟩
    rw [head] at hmetadata
    split at hmetadata
    · cases hmetadata
    · cases hmetadata
      rfl
  · simp

/-- A swap succeeds only on the version it expects. -/
theorem performs_swap {expected : Option Str}
    (h : Performs services (.compareAndSwap key expected bytes) before response after) :
    ((∃ e, response = .error e) ∧ after = before) ∨
      (response = .ok (objectMetadata services (before.versions key).length bytes) ∧
        after = before.write key bytes ∧
        (before.metadata services key).map ObjectMetadata.versionToken = expected) := by
  rcases h with h | h
  · replace h : before.compareAndSwap services key expected bytes = (response, after) := h
    rw [compareAndSwap] at h
    split at h
    · cases h
      exact .inl ⟨⟨_, rfl⟩, rfl⟩
    · grind
  · exact .inl h

/-- Only a swap writes `CURRENT`. -/
theorem performs_plain {op : StoreOp} {response : LogDbResult op.Value}
    (hplain : op.Plain currentKey) (h : Performs services op before response after) :
    Grows currentKey before after ∧ after.versions currentKey = before.versions currentKey := by
  cases op with
  | putBytesIfAbsent key bytes =>
    rcases performs_putBytes h with ⟨_, rfl⟩ | ⟨_, _, hstored⟩
    · exact ⟨grows_refl _ _, rfl⟩
    · exact ⟨hstored.grows hplain, hstored.current_eq hplain⟩
  | putFileIfAbsent key bytes =>
    rcases performs_putFile h with ⟨_, rfl⟩ | ⟨_, _, _, hstored⟩
    · exact ⟨grows_refl _ _, rfl⟩
    · exact ⟨hstored.grows hplain, hstored.current_eq hplain⟩
  | get key maxBytes =>
    rw [(performs_get h).1]
    exact ⟨grows_refl _ _, rfl⟩
  | head key =>
    rw [(performs_head h).1]
    exact ⟨grows_refl _ _, rfl⟩
  | compareAndSwap key expected bytes => exact absurd hplain id

/-- A failed operation has no effect. -/
theorem performs_error {op : StoreOp} {e : LogDbError}
    (h : Performs services op before (.error e) after) : after = before := by
  cases op with
  | putBytesIfAbsent key bytes => grind [performs_putBytes]
  | putFileIfAbsent key bytes => grind [performs_putFile]
  | get key maxBytes => exact (performs_get h).1
  | head key => exact (performs_head h).1
  | compareAndSwap key expected bytes =>
    rcases performs_swap h with ⟨_, hsame⟩ | ⟨hok, _⟩
    · exact hsame
    · cases hok

end Performs

end ShardLog.Tier
