import ShardLog.Stripe.Postings

/-!
# Stripe - Inverted indexes

What the term and field tables of a partition are for: a numbering of keys with
one posting list for each number, such that the posting list of a key holds the
ordinals of the documents that contain the key.  The key type is arbitrary; the
hot index uses normalized terms and pairs of field key and value.
-/

namespace ShardLog.Stripe

open List Sorted

variable {κ : Type} {lookup larger : κ → Option Nat} {document : List κ} {ids : List Nat} {key : κ}

/-! ## Numbers of keys -/

/-- `ids` are the numbers of the keys of a document, each once. -/
structure Numbers (lookup : κ → Option Nat) (document : List κ) (ids : List Nat) : Prop where
  nodup : ids.Nodup
  mem_iff : ∀ id, id ∈ ids ↔ ∃ key ∈ document, lookup key = some id
  total : ∀ key ∈ document, ∃ id, lookup key = some id

/-- Every number given so far stays. -/
def Extends (lookup larger : κ → Option Nat) : Prop :=
  ∀ key id, lookup key = some id → larger key = some id

theorem Extends.refl : Extends lookup lookup := fun _ _ h => h

theorem Extends.trans {largest : κ → Option Nat} (h : Extends lookup larger)
    (h' : Extends larger largest) : Extends lookup largest :=
  fun key id hid => h' key id (h key id hid)

/-- The numbers of a document survive new numbers for other keys. -/
theorem Numbers.mono (h : Numbers lookup document ids) (hextends : Extends lookup larger) :
    Numbers larger document ids where
  nodup := h.nodup
  mem_iff id := by
    rw [h.mem_iff]
    constructor
    · rintro ⟨key, hkey, hid⟩
      exact ⟨key, hkey, hextends key id hid⟩
    · rintro ⟨key, hkey, hid⟩
      obtain ⟨old, hold⟩ := h.total key hkey
      have hsame : old = id := Option.some.inj ((hextends key old hold).symm.trans hid)
      exact ⟨key, hkey, hsame ▸ hold⟩
  total key hkey := by
    obtain ⟨id, hid⟩ := h.total key hkey
    exact ⟨id, hextends key id hid⟩

theorem numbers_nil : Numbers lookup [] [] where
  nodup := nodup_nil
  mem_iff := by simp
  total := by simp

/-- A further key with a number: the number joins the list unless it is there. -/
theorem Numbers.append (h : Numbers lookup document ids) {id : Nat} (hid : lookup key = some id) :
    Numbers lookup (document ++ [key]) (if id ∈ ids then ids else ids ++ [id]) where
  nodup := by
    split
    · exact h.nodup
    · rename_i hnew
      exact nodup_append.mpr ⟨h.nodup, nodup_singleton id, by
        rintro other hother _ hsame rfl
        exact hnew (mem_singleton.mp hsame ▸ hother)⟩
  mem_iff other := by
    have hkey : (∃ found ∈ document ++ [key], lookup found = some other) ↔
        other ∈ ids ∨ other = id := by
      simp only [mem_append, mem_singleton, or_and_right, exists_or, exists_eq_left,
        ← h.mem_iff, hid, Option.some.injEq]
      rw [eq_comm (a := id)]
    rw [hkey]
    split
    · grind
    · rw [mem_append, mem_singleton]
  total := forall_mem_append.mpr ⟨h.total, forall_mem_singleton.mpr ⟨id, hid⟩⟩

/-- A key that the document has already changes nothing. -/
theorem Numbers.append_of_mem (h : Numbers lookup document ids) (hkey : key ∈ document) :
    Numbers lookup (document ++ [key]) ids := by
  obtain ⟨id, hid⟩ := h.total key hkey
  have happend := h.append hid
  rwa [if_pos ((h.mem_iff id).mpr ⟨key, hkey, hid⟩)] at happend

/-! ## Exact indexes -/

variable [DecidableEq κ] {postings : List HotPostingList} {documents : List (List κ)}
  {ordinal : Nat}

/-- The posting lists, reached through the numbering of keys, invert the
documents. -/
structure Inverts (lookup : κ → Option Nat) (postings : List HotPostingList)
    (documents : List (List κ)) : Prop where
  injective : ∀ {key other id}, lookup key = some id → lookup other = some id → key = other
  holds : ∀ {key id}, lookup key = some id → ∃ list, postings[id]? = some list ∧
    list.WellFormed ∧ list.ordinals = ordinalsWith documents key
  complete : ∀ document ∈ documents, ∀ key ∈ document, ∃ id, lookup key = some id

/-- Push a range of ordinals to every listed posting list. -/
def pushRangeAll (postings : List HotPostingList) (ids : List Nat) (first last : Nat) :
    List HotPostingList :=
  ids.foldl (fun postings id => postings.modify id fun list => list.pushRange first last) postings

/-! ## Operations -/

/-- What a push to several posting lists leaves at each number. -/
theorem getElem?_pushRangeAll (hnodup : ids.Nodup) (first last id : Nat) :
    (pushRangeAll postings ids first last)[id]? =
      if id ∈ ids then postings[id]?.map fun list => list.pushRange first last
      else postings[id]? := by
  induction ids generalizing postings with
  | nil => simp [pushRangeAll]
  | cons head rest ih =>
    obtain ⟨hhead, hrest⟩ := nodup_cons.mp hnodup
    have hstep : pushRangeAll postings (head :: rest) first last =
        pushRangeAll (postings.modify head fun list => list.pushRange first last) rest first last :=
      rfl
    rw [hstep, ih hrest, getElem?_modify]
    by_cases heq : head = id
    · subst heq
      simp [hhead]
    · simp [heq, Ne.symm heq]

section

variable (h : Inverts lookup postings documents)

include h

/-- A key without a number is in no document. -/
theorem Inverts.not_mem_of_lookup_eq_none (hnone : lookup key = none)
    (hlt : ordinal < documents.length) :
    key ∉ documents[ordinal] := by
  intro hmem
  obtain ⟨id, hid⟩ := h.complete _ (getElem_mem hlt) key hmem
  rw [hnone] at hid
  cases hid

theorem Inverts.ordinalsWith_eq_nil (hnone : lookup key = none) :
    ordinalsWith documents key = [] := by
  rw [eq_nil_iff_forall_not_mem]
  intro ordinal hordinal
  obtain ⟨hlt, hmem⟩ := mem_ordinalsWith.mp hordinal
  exact h.not_mem_of_lookup_eq_none hnone hlt hmem

/-- A new key gets the next number and an empty posting list. -/
theorem Inverts.intern (hnew : lookup key = none) :
    Inverts (fun other => if other = key then some postings.length else lookup other)
      (postings ++ [({} : HotPostingList)]) documents where
  injective := by
    intro first second id hfirst hsecond
    have hbound : ∀ {other}, lookup other = some postings.length → False := by
      intro other hother
      obtain ⟨list, hlist, _⟩ := h.holds hother
      simp at hlist
    split at hfirst <;> split at hsecond
    · simp_all
    · cases hfirst
      exact (hbound hsecond).elim
    · cases hsecond
      exact (hbound hfirst).elim
    · exact h.injective hfirst hsecond
  holds := by
    intro other id hid
    split at hid
    · rename_i heq
      cases hid
      exact ⟨({} : HotPostingList), by simp, HotPostingList.wellFormed_empty,
        (h.ordinalsWith_eq_nil (heq ▸ hnew)).symm⟩
    · obtain ⟨list, hlist, hwell, hordinals⟩ := h.holds hid
      refine ⟨list, ?_, hwell, hordinals⟩
      rw [getElem?_append_left (List.getElem?_eq_some_iff.mp hlist).1, hlist]
  complete := by
    intro document hdocument other hother
    split
    · exact ⟨_, rfl⟩
    · exact h.complete document hdocument other hother

/-- Pushing a range to the posting lists of a document's keys indexes that many
copies of the document. -/
theorem Inverts.append (hids : Numbers lookup document ids) {count : Nat} (hcount : 0 < count) :
    Inverts lookup (pushRangeAll postings ids documents.length (documents.length + count - 1))
      (documents ++ replicate count document) where
  injective := h.injective
  holds := by
    intro key id hid
    obtain ⟨list, hlist, hwell, hordinals⟩ := h.holds hid
    have hmem : id ∈ ids ↔ key ∈ document := by
      rw [hids.mem_iff]
      constructor
      · rintro ⟨other, hother, hsame⟩
        exact h.injective hid hsame ▸ hother
      · intro hkey
        exact ⟨key, hkey, hid⟩
    rw [getElem?_pushRangeAll hids.nodup, ordinalsWith_append_replicate, ← hordinals, hlist]
    by_cases hkey : key ∈ document
    · have hpushed := HotPostingList.ordinals_pushRange hwell
        (show documents.length ≤ documents.length + count - 1 by omega)
        fun ordinal hordinal => (mem_ordinalsWith.mp (hordinals ▸ hordinal)).1
      refine ⟨_, by rw [if_pos (hmem.mpr hkey), Option.map_some], hpushed.1, ?_⟩
      rw [hpushed.2, if_pos hkey]
      congr 2
      omega
    · exact ⟨list, by rw [if_neg (hkey ∘ hmem.mp)], hwell, by rw [if_neg hkey, append_nil]⟩
  complete := by
    intro other hother key hkey
    rcases mem_append.mp hother with hold | hnew
    · exact h.complete other hold key hkey
    · rw [eq_of_mem_replicate hnew] at hkey
      exact hids.total key hkey

end

end ShardLog.Stripe
