import Mathlib.Data.List.Forall2
import Mathlib.Data.List.Perm.Subperm

/-!
# Foundation - Fallible readers over a byte string

A reader consumes bytes from the front of the remaining input and either fails
or returns a value with the input it left.  The input carries the absolute
cursor of the imperative parser, which only error reports and seek tables look
at.

Main results:

- Theorem `run_bind_eq_ok_iff`: a successful run of a composed reader.
- Rules for `Reads`: a reader turns an encoding into its value.
- Rules for `Local`: the result depends only on the bytes consumed.
- Rules for `Shadows`: a reader skips what another one reads.
- Rules for `Lockstep`: two readers accept the same bytes and read related values.
-/

namespace ByteReader

open List

variable {ε α β γ δ : Type} {x : Except ε α} {b : β} {t : Input} {a : α} {condition : Bool}
  {bytes : Bytes} {count : Nat} {items : List α} {results : List β} {contribution : γ → List β}
  {keep : α → Bool} {sources : List γ} {related : α → β → Prop} {encode : α → Except ε Bytes}
  {out : Bytes} {blobs : List Bytes} {property : α → Prop}

/-- Byte strings; a slice is a list of bytes. -/
abbrev Bytes := List UInt8

/-- The state of a parser: how many bytes it has consumed, and what remains. -/
structure Input where
  cursor : Nat
  rest : Bytes
deriving DecidableEq, Repr

/-- The input before the first read. -/
def Input.start (bytes : Bytes) : Input := ⟨0, bytes⟩

/-- A reader over the bytes that remain after the cursor. -/
abbrev Reader (ε : Type) := StateT Input (Except ε)

/-! ## Runs of composed readers -/

@[simp] theorem pure_eq_ok (a : α) : (pure a : Except ε α) = .ok a := rfl

@[simp] theorem ok_bind (a : α) (f : α → Except ε β) : (Except.ok a >>= f) = f a := rfl

@[simp] theorem error_bind (e : ε) (f : α → Except ε β) : (Except.error e >>= f) = Except.error e :=
  rfl

/-- A successful sequence of fallible computations splits at its first part. -/
theorem bind_eq_ok_iff {f : α → Except ε β} : (x >>= f) = .ok b ↔ ∃ a, x = .ok a ∧ f a = .ok b := by
  cases x with
  | error e => simp
  | ok a => simp

/-- Mapping a composition maps its last part. -/
theorem map_bind {γ : Type} (x : Except ε α) (f : α → Except ε β) (g : β → γ) :
    (x >>= f).map g = x >>= fun a => (f a).map g := by
  cases x <;> rfl

/-- A success has a value. -/
theorem exists_of_isOk (h : x.isOk = true) : ∃ a, x = .ok a := by
  cases x with
  | error e => cases h
  | ok a => exact ⟨a, rfl⟩

/-- A mapped result succeeds with the image of a value. -/
theorem map_eq_ok_iff {f : α → β} : f <$> x = .ok b ↔ ∃ a, x = .ok a ∧ f a = b := by
  cases x with
  | error e => simp [Functor.map, Except.map]
  | ok a => simp [Functor.map, Except.map]

variable {p : Reader ε α} {f : α → Reader ε β} {s : Input} {e : ε}

/-- A failing first part fails the composition. -/
theorem run_bind_error (h : p.run s = .error e) : (p >>= f).run s = .error e := by
  rw [StateT.run_bind, h]
  rfl

/-- After a successful first part the second one runs on what it left. -/
theorem run_bind_ok (h : p.run s = .ok (a, t)) : (p >>= f).run s = (f a).run t := by
  rw [StateT.run_bind, h]
  rfl

/-- A composition succeeds through a value of its first part. -/
theorem run_bind_eq_ok_iff : (p >>= f).run s = .ok (b, t) ↔
      ∃ a u, p.run s = .ok (a, u) ∧ (f a).run u = .ok (b, t) := by
  rw [StateT.run_bind, bind_eq_ok_iff]
  constructor
  · rintro ⟨⟨a, u⟩, hp, hf⟩
    exact ⟨a, u, hp, hf⟩
  · rintro ⟨a, u, hp, hf⟩
    exact ⟨(a, u), hp, hf⟩

/-- A pure reader leaves the input as it is. -/
theorem run_pure_eq_ok_iff {b : α} : (pure a : Reader ε α).run s = .ok (b, t) ↔ b = a ∧ t = s := by
  simp [eq_comm]

/-- Abort the whole read with an error. -/
def fail (e : ε) : Reader ε α := fun _ => .error e

@[simp] theorem run_fail (e : ε) (s : Input) : (fail e : Reader ε α).run s = .error e := rfl

/-- The input at the cursor. -/
def input : Reader ε Input := fun s => .ok (s, s)

@[simp] theorem run_input (s : Input) : (input : Reader ε Input).run s = .ok (s, s) := rfl

/-- Run a fallible computation that reads nothing. -/
def ofResult (x : Except ε α) : Reader ε α := fun s => x.map fun a => (a, s)

@[simp] theorem run_ofResult_ok (a : α) (s : Input) :
    (ofResult (.ok a) : Reader ε α).run s = .ok (a, s) :=
  rfl

@[simp] theorem run_ofResult_error (e : ε) (s : Input) :
    (ofResult (.error e) : Reader ε α).run s = .error e :=
  rfl

/-- A given result is returned without reading. -/
theorem run_ofResult_eq_ok_iff : (ofResult x).run s = .ok (a, t) ↔ x = .ok a ∧ t = s := by
  cases x with
  | error e => simp
  | ok b => simp [eq_comm]

/-- Continue only when a condition on already read values holds. -/
def require (condition : Bool) (e : ε) : Reader ε Unit :=
  if condition then pure () else fail e

/-- A requirement passes exactly if it holds. -/
theorem run_require_eq_ok_iff {u : Unit} :
    (require condition e).run s = .ok (u, t) ↔ condition = true ∧ t = s := by
  cases condition with
  | false => simp [require]
  | true => simp [require, eq_comm]

@[simp] theorem run_require_true (e : ε) (s : Input) : (require true e).run s = .ok ((), s) := rfl

/-! ## Reading an encoding back -/

/-- `p` consumes exactly `bytes` and returns `a`, wherever they stand and
whatever follows them. -/
def Reads (p : Reader ε α) (bytes : Bytes) (a : α) : Prop :=
  ∀ cursor tail, p.run ⟨cursor, bytes ++ tail⟩ = .ok (a, ⟨cursor + bytes.length, tail⟩)

/-- A pure value has the empty encoding. -/
theorem reads_pure (a : α) : Reads (pure a : Reader ε α) [] a :=
  fun _ _ => rfl

/-- Two encodings in a row are read one after the other. -/
theorem Reads.bind {first second : Bytes} (hp : Reads p first a) (hf : Reads (f a) second b) :
    Reads (p >>= f) (first ++ second) b := by
  intro cursor tail
  rw [append_assoc, run_bind_ok (hp cursor (second ++ tail)), hf, length_append, Nat.add_assoc]

/-- A continuation that reads nothing leaves the encoding as it is. -/
theorem Reads.bind_nil (hp : Reads p bytes a) (hf : Reads (f a) [] b) :
    Reads (p >>= f) bytes b := by
  have hboth := hp.bind hf
  rwa [append_nil] at hboth

/-- The last reader of a sequence only has to deliver its value. -/
theorem Reads.bind_pure (hp : Reads p bytes a) (hf : f a = pure b) : Reads (p >>= f) bytes b :=
  hp.bind_nil (hf ▸ reads_pure b)

/-- A check that succeeds reads nothing. -/
theorem Reads.require_bind (hcond : condition = true) (hp : Reads p bytes a) :
    Reads (require condition e >>= fun _ => p) bytes a := by
  subst hcond
  exact hp

theorem reads_ofResult (h : x = .ok a) : Reads (ofResult x) [] a := by
  subst h
  exact fun _ _ => rfl

/-- A computation that reads nothing does not move the cursor. -/
theorem Reads.ofResult_bind (hx : x = .ok a) (hf : Reads (f a) bytes b) :
    Reads (ofResult x >>= f) bytes b := by
  subst hx
  exact hf

/-- A complete read of one encoding with nothing after it. -/
theorem Reads.run_start (hp : Reads p bytes a) :
    p.run (.start bytes) = .ok (a, ⟨bytes.length, []⟩) := by
  simpa [Input.start] using hp 0 []

/-- A reader that fails at the end of the input reads no empty encoding. -/
theorem Reads.ne_nil (hp : Reads p bytes a) (hend : (p.run (.start [])).isOk = false) :
    bytes ≠ [] := by
  rintro rfl
  rw [hp.run_start] at hend
  cases hend

/-! ## Bounding a count by the remaining input -/

/-- Continue only when at least `count` bytes remain. -/
def requireRemaining (count : Nat) (e : ε) : Reader ε Unit := do
  let state ← input
  require (decide (count ≤ state.rest.length)) e

/-- The check passes if so many bytes remain. -/
theorem run_requireRemaining_eq_ok_iff {u : Unit} :
    (requireRemaining count e).run s = .ok (u, t) ↔ count ≤ s.rest.length ∧ t = s := by
  unfold requireRemaining
  rw [run_bind_ok (run_input s), run_require_eq_ok_iff, decide_eq_true_eq]

/-- An encoding passes a check of its own length. -/
theorem Reads.requireRemaining_bind (hcount : count ≤ bytes.length) (hp : Reads p bytes a) :
    Reads (requireRemaining count e >>= fun _ => p) bytes a := by
  intro cursor tail
  have hguard : (requireRemaining count e).run ⟨cursor, bytes ++ tail⟩ =
      .ok ((), ⟨cursor, bytes ++ tail⟩) := by grind [run_requireRemaining_eq_ok_iff]
  rw [run_bind_ok hguard]
  exact hp cursor tail

/-! ## Repeated reads -/

/-- Read a fixed number of items in order. -/
def readMany (p : Reader ε α) : Nat → Reader ε (List α)
  | 0 => pure []
  | count + 1 => do
      let item ← p
      let items ← readMany p count
      pure (item :: items)

/-- Apply a fallible function to every item, stopping at the first failure. -/
def collect (f : α → Except ε β) : List α → Except ε (List β)
  | [] => .ok []
  | item :: items => do
      let result ← f item
      let results ← collect f items
      .ok (result :: results)

/-- All items are collected exactly if each of them succeeds. -/
theorem collect_eq_ok_iff {f : α → Except ε β} :
    collect f items = .ok results ↔ Forall₂ (fun item result => f item = .ok result)
      items results := by
  induction items generalizing results with
  | nil => simp [collect, eq_comm]
  | cons item items ih =>
    simp only [collect, bind_eq_ok_iff, forall₂_cons_left_iff]
    constructor
    · grind
    · grind

theorem collect_map (f : β → Except ε γ) (g : α → β) (items : List α) :
    collect f (items.map g) = collect (fun item => f (g item)) items := by
  induction items with
  | nil => rfl
  | cons item items ih => simp only [map_cons, collect, ih]

/-- Collecting looks at the listed items only. -/
theorem collect_congr {f g : α → Except ε β} (h : ∀ item ∈ items, f item = g item) :
    collect f items = collect g items := by
  induction items with
  | nil => rfl
  | cons item items ih =>
    rw [collect, collect, h item mem_cons_self,
      ih fun other hother => h other (mem_cons_of_mem item hother)]

theorem collect_ok (f : α → β) (items : List α) :
    collect (fun item => (.ok (f item) : Except ε β)) items = .ok (items.map f) := by
  induction items with
  | nil => rfl
  | cons item items ih => rw [collect, ih]; rfl

/-- Skipping items that would find nothing loses nothing, up to order. -/
theorem exists_collect_filter {f : α → Except ε (List β)}
    (h : Forall₂ (fun item source => ∃ results, f item = .ok results ∧
      results.Perm (contribution source) ∧ (keep item = false → contribution source = []))
      items sources) :
    ∃ results, collect f (items.filter keep) = .ok results ∧
      results.flatten.Perm (sources.flatMap contribution) := by
  induction h with
  | nil => exact ⟨[], rfl, Perm.refl _⟩
  | @cons item source items sources hitem _ ih =>
    obtain ⟨found, hfound, hperm, hskipped⟩ := hitem
    obtain ⟨results, hresults, hrest⟩ := ih
    by_cases hkept : keep item = true
    · refine ⟨found :: results, ?_, ?_⟩
      · rw [filter_cons_of_pos hkept, collect, hfound, ok_bind, hresults, ok_bind]
      · grind
    · grind

/-- What is collected from some of the items is part of what their sources hold. -/
theorem subperm_of_collect_filter {f : α → Except ε (List β)}
    (h : Forall₂ (fun item source => ∀ results, f item = .ok results →
      results.Subperm (contribution source)) items sources) {results : List (List β)}
    (hresults : collect f (items.filter keep) = .ok results) :
    results.flatten.Subperm (sources.flatMap contribution) := by
  induction h generalizing results with
  | nil =>
    cases hresults
    exact Subperm.refl _
  | @cons item source items sources hitem _ ih =>
    rw [flatMap_cons]
    by_cases hkept : keep item = true
    · rw [filter_cons_of_pos hkept, collect] at hresults
      obtain ⟨found, hfound, hrest⟩ := bind_eq_ok_iff.mp hresults
      obtain ⟨later, hlater, heq⟩ := bind_eq_ok_iff.mp hrest
      cases heq
      rw [flatten_cons]
      exact (hitem found hfound).append (ih hlater)
    · rw [filter_cons_of_neg hkept] at hresults
      exact (ih hresults).trans (sublist_append_right _ _).subperm

/-- Related lists are related place by place. -/
theorem forall₂_getElem? (h : Forall₂ related items results) {index : Nat} {item : α}
    (hitem : items[index]? = some item) :
    ∃ result, results[index]? = some result ∧ related item result := by
  obtain ⟨hlt, rfl⟩ := List.getElem?_eq_some_iff.mp hitem
  have hlt' : index < results.length := h.length_eq ▸ hlt
  exact ⟨results[index], getElem?_eq_getElem hlt', (forall₂_iff_get.mp h).2 index hlt hlt'⟩

/-- Every item of a list is related to an item of the other. -/
theorem forall₂_mem (h : Forall₂ related items results) {item : α} (hitem : item ∈ items) :
    ∃ result ∈ results, related item result := by
  obtain ⟨index, hindex⟩ := mem_iff_getElem?.mp hitem
  obtain ⟨result, hresult, hrelated⟩ := forall₂_getElem? h hindex
  exact ⟨result, mem_of_getElem? hresult, hrelated⟩

/-- Positionwise relations compose. -/
theorem forall₂_chain {R : α → β → Prop} {S : β → γ → Prop} {xs : List α} {ys : List β}
    (hxy : Forall₂ R xs ys) {zs : List γ} (hyz : Forall₂ S ys zs) :
    Forall₂ (fun x z => ∃ y, R x y ∧ S y z) xs zs := by
  induction hxy generalizing zs with
  | nil =>
    cases hyz
    exact .nil
  | @cons x y xs ys hhead _ ih =>
    rcases forall₂_cons_left_iff.mp hyz with ⟨z, rest, hz, hrest, rfl⟩
    exact .cons ⟨y, hhead, hz⟩ (ih hrest)

/-- Concatenate the encodings of a list of items. -/
def encodeAll (encode : α → Except ε Bytes) (items : List α) : Except ε Bytes := do
  let blobs ← collect encode items
  .ok blobs.flatten

/-- The encodings of the items, one after the other. -/
theorem encodeAll_eq_ok_iff : encodeAll encode items = .ok out ↔
      ∃ blobs, Forall₂ (fun item blob => encode item = .ok blob) items blobs ∧
        out = blobs.flatten := by
  unfold encodeAll
  rw [bind_eq_ok_iff]
  constructor
  · grind [collect_eq_ok_iff]
  · grind [collect_eq_ok_iff]

/-- Items that all have encodings can be encoded. -/
theorem exists_encodeAll (h : ∀ item ∈ items, ∃ blob, encode item = .ok blob) :
    ∃ out, encodeAll encode items = .ok out := by
  induction items with
  | nil => exact ⟨_, rfl⟩
  | cons item items ih =>
    obtain ⟨blob, hblob⟩ := h item mem_cons_self
    obtain ⟨_, hrest⟩ := ih fun other hother => h other (mem_cons_of_mem _ hother)
    obtain ⟨blobs, hblobs, _⟩ := encodeAll_eq_ok_iff.mp hrest
    exact ⟨_, encodeAll_eq_ok_iff.mpr ⟨blob :: blobs, .cons hblob hblobs, rfl⟩⟩

/-- Reading a sequence of encodings returns their values in order. -/
theorem Reads.many {values : List α} (h : Forall₂ (Reads p) blobs values) :
    Reads (readMany p values.length) blobs.flatten values := by
  induction h with
  | nil => exact reads_pure []
  | cons hhead _ ih => exact hhead.bind (ih.bind_pure rfl)

/-- Items that are read back one by one are read back from their concatenation. -/
theorem Reads.readMany_encodeAll {δ : Type} {encode : α → Except δ Bytes} {decode : Reader ε β}
    (value : α → β)
    (hitem : ∀ item ∈ items, ∀ bytes, encode item = .ok bytes → Reads decode bytes (value item))
    (hout : encodeAll encode items = .ok out) :
    Reads (readMany decode items.length) out (items.map value) := by
  rcases encodeAll_eq_ok_iff.mp hout with ⟨blobs, hblobs, rfl⟩
  have hreads : Forall₂ (Reads decode) blobs (items.map value) := by
    rw [forall₂_map_right_iff]
    refine Forall₂.flip ?_
    clear hout
    induction hblobs with
    | nil => exact .nil
    | @cons item blob items blobs hhead _ ih =>
      exact .cons (hitem item mem_cons_self blob hhead)
        (ih (fun other hother => hitem other (mem_cons_of_mem _ hother)))
  simpa using Reads.many hreads

/-- Nonempty encodings bound the number of items. -/
theorem length_le_flatten (h : ∀ blob ∈ blobs, blob ≠ []) :
    blobs.length ≤ blobs.flatten.length := by
  induction blobs with
  | nil => exact Nat.zero_le _
  | cons blob blobs ih =>
    have hpos := length_pos_iff.mpr (h blob mem_cons_self)
    have hrest := ih fun other hother => h other (mem_cons_of_mem _ hother)
    simp only [flatten_cons, length_append, length_cons]
    omega

/-- Nonempty encodings take a byte each. -/
theorem length_le_of_encodeAll
    (hitem : ∀ item ∈ items, ∀ bytes, encode item = .ok bytes → bytes ≠ [])
    (hout : encodeAll encode items = .ok out) : items.length ≤ out.length := by
  rcases encodeAll_eq_ok_iff.mp hout with ⟨blobs, hblobs, rfl⟩
  rw [hblobs.length_eq]
  apply length_le_flatten
  intro blob hblob
  obtain ⟨item, hmem, hencoded⟩ := forall₂_mem hblobs.flip hblob
  exact hitem item hmem blob hencoded

/-! ## Readers whose result depends only on the consumed bytes -/

/-- The reader consumes a prefix of its input, advances the cursor by as much,
and answers the same whatever follows that prefix. -/
def Local (p : Reader ε α) : Prop :=
  ∀ s a t, p.run s = .ok (a, t) →
    ∃ used, s.rest = used ++ t.rest ∧ t.cursor = s.cursor + used.length ∧ Reads p used a

theorem local_ofResult (x : Except ε α) : Local (ofResult x) := by
  intro s a t h
  rcases run_ofResult_eq_ok_iff.mp h with ⟨rfl, rfl⟩
  exact ⟨[], rfl, rfl, fun _ _ => rfl⟩

theorem local_pure (a : α) : Local (pure a : Reader ε α) := local_ofResult (.ok a)

theorem local_fail (e : ε) : Local (fail e : Reader ε α) := local_ofResult (.error e)

theorem local_require (condition : Bool) (e : ε) : Local (require condition e) := by
  cases condition with
  | false => exact local_fail e
  | true => exact local_pure ()

/-- Local readers compose. -/
theorem Local.bind (hp : Local p) (hf : ∀ a, Local (f a)) : Local (p >>= f) := by
  intro s b t h
  rcases run_bind_eq_ok_iff.mp h with ⟨a, u, hrun, hcont⟩
  rcases hp s a u hrun with ⟨first, hfirst, hcursor, hreads⟩
  rcases hf a u b t hcont with ⟨second, hsecond, hcursor', hreads'⟩
  refine ⟨first ++ second, ?_, ?_, hreads.bind hreads'⟩
  · rw [hfirst, hsecond, append_assoc]
  · rw [hcursor', hcursor, length_append, Nat.add_assoc]

/-- Repeating a local reader is local. -/
theorem local_readMany (hp : Local p) : ∀ count, Local (readMany p count)
  | 0 => local_pure []
  | count + 1 =>
    hp.bind fun item => (local_readMany hp count).bind fun items => local_pure (item :: items)

/-- Every successful run consumes at least `count` bytes. -/
def Consumes (p : Reader ε α) (count : Nat) : Prop :=
  ∀ s a t, p.run s = .ok (a, t) → t.rest.length + count ≤ s.rest.length

theorem Local.consumes_zero (hp : Local p) : Consumes p 0 := by
  intro s a t h
  rcases hp s a t h with ⟨used, hs, _, _⟩
  simp [hs]

/-- The least consumptions of two parts add up. -/
theorem Consumes.bind {m n : Nat} (hp : Consumes p m) (hf : ∀ a, Consumes (f a) n) :
    Consumes (p >>= f) (m + n) := by
  intro s b t h
  rcases run_bind_eq_ok_iff.mp h with ⟨a, u, hrun, hcont⟩
  have hfirst := hp s a u hrun
  have hsecond := hf a u b t hcont
  omega

/-- A smaller bound holds as well. -/
theorem Consumes.mono {m n : Nat} (h : Consumes p n) (hle : m ≤ n) :
    Consumes p m := fun s a t hrun => Nat.le_trans (Nat.add_le_add_left hle _) (h s a t hrun)

theorem consumes_require (condition : Bool) (e : ε) : Consumes (require condition e) 0 :=
  (local_require condition e).consumes_zero

theorem consumes_pure (a : α) : Consumes (pure a : Reader ε α) 0 := (local_pure a).consumes_zero

/-- Repeated items take at least a byte each. -/
theorem consumes_readMany (hp : Consumes p 1) : ∀ count, Consumes (readMany p count) count
  | 0 => (local_pure []).consumes_zero
  | count + 1 => by
      have hrest : ∀ item, Consumes (readMany p count >>= fun items =>
          (pure (item :: items) : Reader ε (List α))) (count + 0) := fun item =>
        (consumes_readMany hp count).bind fun items => (local_pure _).consumes_zero
      have hall := hp.bind hrest
      rw [Nat.add_comm] at hall
      exact hall

/-- A check for bytes that the reader consumes anyway keeps it local. -/
theorem Local.requireRemaining_bind (hp : Local p) (hsize : Consumes p count) :
    Local (requireRemaining count e >>= fun _ => p) := by
  intro s a t h
  rcases run_bind_eq_ok_iff.mp h with ⟨_, u, hguard, hrun⟩
  rcases run_requireRemaining_eq_ok_iff.mp hguard with ⟨_, rfl⟩
  rcases hp u a t hrun with ⟨used, hused, hcursor, hreads⟩
  have hlen := hsize _ a t hrun
  refine ⟨used, hused, hcursor, hreads.requireRemaining_bind ?_⟩
  rw [hused, length_append] at hlen
  omega

/-! ## Readers that move the cursor alike -/

/-- `skip` succeeds wherever `p` does and stops at the same place. -/
def Shadows (skip : Reader ε β) (p : Reader ε α) : Prop :=
  ∀ s a t, p.run s = .ok (a, t) → ∃ b, skip.run s = .ok (b, t)

/-- Skipping after a common first read. -/
theorem Shadows.bind_same {p : Reader ε γ} {f : γ → Reader ε β} {g : γ → Reader ε α}
    (h : ∀ c, Shadows (f c) (g c)) : Shadows (p >>= f) (p >>= g) := by
  intro s a t hrun
  rcases run_bind_eq_ok_iff.mp hrun with ⟨c, u, hp, hg⟩
  rcases h c u a t hg with ⟨b, hf⟩
  exact ⟨b, by rw [run_bind_ok hp, hf]⟩

variable {skip : Reader ε β}

/-- What is computed after the last read does not move the cursor. -/
theorem Shadows.bind_ofResult {p : Reader ε γ} {f : γ → Except ε α} (h : Shadows skip p) :
    Shadows skip (p >>= fun c => ofResult (f c)) := by
  intro s a t hrun
  rcases run_bind_eq_ok_iff.mp hrun with ⟨c, u, hp, hf⟩
  rcases run_ofResult_eq_ok_iff.mp hf with ⟨_, rfl⟩
  exact h s c _ hp

theorem Shadows.bind_pure {p : Reader ε γ} {f : γ → α} (h : Shadows skip p) :
    Shadows skip (p >>= fun c => pure (f c)) :=
  h.bind_ofResult (f := fun c => .ok (f c))

/-- Skipping item by item shadows reading them. -/
theorem Shadows.readMany (h : Shadows skip p) :
    ∀ count, Shadows (ByteReader.readMany skip count) (ByteReader.readMany p count) := by
  intro count
  induction count with
  | zero =>
    intro s a t hrun
    rcases run_pure_eq_ok_iff.mp hrun with ⟨_, rfl⟩
    exact ⟨[], rfl⟩
  | succ count ih =>
    intro s a t hrun
    rcases run_bind_eq_ok_iff.mp hrun with ⟨first, u, hfirst, hrun⟩
    rcases run_bind_eq_ok_iff.mp hrun with ⟨rest, v, hrest, hrun⟩
    rcases run_pure_eq_ok_iff.mp hrun with ⟨_, rfl⟩
    rcases h s first u hfirst with ⟨skipped, hskipped⟩
    rcases ih u rest _ hrest with ⟨others, hothers⟩
    refine ⟨skipped :: others, ?_⟩
    rw [ByteReader.readMany, run_bind_ok hskipped, run_bind_ok hothers]
    rfl

/-! ## What a reader can return -/

/-- Every value the reader returns has the property. -/
def Yields (p : Reader ε α) (property : α → Prop) : Prop :=
  ∀ s a t, p.run s = .ok (a, t) → property a

/-- A pure value has its properties. -/
theorem yields_pure (h : property a) : Yields (pure a : Reader ε α) property := by
  intro s b t hrun
  obtain ⟨rfl, rfl⟩ := run_pure_eq_ok_iff.mp hrun
  exact h

/-- Properties pass through a composition. -/
theorem Yields.bind {middle : α → Prop} {property : β → Prop} (h : Yields p middle)
    (hnext : ∀ a, middle a → Yields (f a) property) :
    Yields (p >>= f) property := by
  intro s b t hrun
  obtain ⟨a, u, hfirst, hsecond⟩ := run_bind_eq_ok_iff.mp hrun
  exact hnext a (h s a u hfirst) u b t hsecond

/-- Nothing is used of the first value. -/
theorem Yields.bind_any {property : β → Prop} (hnext : ∀ a, Yields (f a) property) :
    Yields (p >>= f) property :=
  Yields.bind (fun _ _ _ _ => trivial) fun a (_ : True) => hnext a

/-- After a requirement its condition is known. -/
theorem Yields.require (h : condition = true → Yields p property) :
    Yields (ByteReader.require condition e >>= fun _ => p) property := by
  cases condition with
  | true => exact h rfl
  | false =>
    intro s a t hrun
    cases hrun

/-- Every repeated item has the property. -/
theorem yields_readMany (h : Yields p property) : ∀ count, Yields (readMany p count) fun items =>
      items.length = count ∧ ∀ item ∈ items, property item
  | 0 => yields_pure ⟨rfl, by simp⟩
  | count + 1 => h.bind fun item hitem => (yields_readMany h count).bind fun items hitems =>
    yields_pure ⟨congrArg (· + 1) hitems.1, forall_mem_cons.mpr ⟨hitem, hitems.2⟩⟩

/-! ## Readers in lockstep -/

/-- From every input both readers fail, or both succeed with related values and
stop at the same place. -/
def Lockstep (related : α → β → Prop) (p : Reader ε α) (q : Reader ε β) : Prop :=
  ∀ s, (∃ a b t, p.run s = .ok (a, t) ∧ q.run s = .ok (b, t) ∧ related a b) ∨
    ∃ e e', p.run s = .error e ∧ q.run s = .error e'

/-- A reader keeps step with itself. -/
theorem lockstep_refl (p : Reader ε α) : Lockstep (· = ·) p p := by
  intro s
  cases h : p.run s with
  | ok result => exact .inl ⟨result.1, result.1, result.2, rfl, rfl, rfl⟩
  | error e => exact .inr ⟨e, e, rfl, rfl⟩

theorem lockstep_pure (h : related a b) : Lockstep related (pure a : Reader ε α) (pure b) :=
  fun s => .inl ⟨a, b, s, rfl, rfl, h⟩

variable {q : Reader ε β}

/-- Readers in step stay so when composed. -/
theorem Lockstep.bind {related' : γ → δ → Prop} {f : α → Reader ε γ} {g : β → Reader ε δ}
    (h : Lockstep related p q) (hnext : ∀ a b, related a b → Lockstep related' (f a) (g b)) :
    Lockstep related' (p >>= f) (q >>= g) := by
  intro s
  rcases h s with ⟨a, b, t, hp, hq, hab⟩ | ⟨e, e', hp, hq⟩
  · rw [run_bind_ok hp, run_bind_ok hq]
    exact hnext a b hab t
  · exact .inr ⟨e, e', run_bind_error hp, run_bind_error hq⟩

/-- Lockstep after the same first read. -/
theorem Lockstep.bind_same {related : γ → δ → Prop} {f : α → Reader ε γ} {g : α → Reader ε δ}
    (h : ∀ a, Lockstep related (f a) (g a)) :
    Lockstep related (p >>= f) (p >>= g) :=
  (lockstep_refl p).bind fun a _ hab => hab ▸ h a

/-- Two checks of the same fact. -/
theorem Lockstep.require {first second : Bool} {e' : ε} (hsame : first = second)
    (h : first = true → Lockstep related p q) :
    Lockstep related (ByteReader.require first e >>= fun _ => p)
      (ByteReader.require second e' >>= fun _ => q) := by
  subst hsame
  cases first with
  | true => exact h rfl
  | false => exact fun s => .inr ⟨e, e', rfl, rfl⟩

/-- The reader fails on every input. -/
def Fails (p : Reader ε α) : Prop := ∀ s, ∃ e, p.run s = .error e

theorem fails_require (e : ε) (f : Unit → Reader ε α) :
    Fails (ByteReader.require false e >>= f) := fun _ => ⟨e, rfl⟩

/-- A reader fails if whatever follows does. -/
theorem Fails.bind (p : Reader ε α) (h : ∀ a, Fails (f a)) : Fails (p >>= f) := by
  intro s
  cases hp : p.run s with
  | error e => exact ⟨e, run_bind_error hp⟩
  | ok result =>
    rw [run_bind_ok hp]
    exact h result.1 result.2

/-- One side checks a fact first, the other side fails somewhere without it. -/
theorem Lockstep.require_first (h : condition = true → Lockstep related p q)
    (hfails : condition = false → Fails q) :
    Lockstep related (ByteReader.require condition e >>= fun _ => p) q := by
  cases condition with
  | true => exact h rfl
  | false =>
    intro s
    obtain ⟨e', hq⟩ := hfails rfl s
    exact .inr ⟨e, e', rfl, hq⟩

section

variable (h : Lockstep related p q)

include h

/-- What one side computes at its end does not move its cursor. -/
theorem Lockstep.bind_pure_right (f : β → γ) :
    Lockstep (fun a c => ∃ b, related a b ∧ c = f b) p (q >>= fun b => pure (f b)) := by
  intro s
  rcases h s with ⟨a, b, t, hp, hq, hab⟩ | ⟨e, e', hp, hq⟩
  · exact .inl ⟨a, f b, t, hp, by rw [run_bind_ok hq]; rfl, b, hab, rfl⟩
  · exact .inr ⟨e, e', hp, run_bind_error hq⟩

/-- Related values may be related more weakly. -/
theorem Lockstep.mono {related' : α → β → Prop} (himp : ∀ a b, related a b → related' a b) :
    Lockstep related' p q := by
  intro s
  rcases h s with ⟨a, b, t, hp, hq, hab⟩ | herror
  · exact .inl ⟨a, b, t, hp, hq, himp a b hab⟩
  · exact .inr herror

/-- Lockstep is symmetric. -/
theorem Lockstep.flip : Lockstep (fun b a => related a b) q p := by
  intro s
  rcases h s with ⟨a, b, t, hp, hq, hab⟩ | ⟨e, e', hp, hq⟩
  · exact .inl ⟨b, a, t, hq, hp, hab⟩
  · exact .inr ⟨e', e, hq, hp⟩

/-- A success of one reader is one of the other. -/
theorem Lockstep.run_eq_ok (hp : p.run s = .ok (a, t)) :
    ∃ b, q.run s = .ok (b, t) ∧ related a b := by
  rcases h s with ⟨a', b, t', hp', hq, hab⟩ | ⟨e, e', hp', _⟩
  · rw [hp'] at hp
    cases hp
    exact ⟨b, hq, hab⟩
  · rw [hp'] at hp
    cases hp

/-- A failure of one reader is one of the other. -/
theorem Lockstep.run_eq_error (hp : p.run s = .error e) : ∃ e', q.run s = .error e' := by
  rcases h s with ⟨_, _, _, hp', _⟩ | ⟨_, e', _, hq⟩
  · rw [hp'] at hp
    cases hp
  · exact ⟨e', hq⟩

end

end ByteReader
