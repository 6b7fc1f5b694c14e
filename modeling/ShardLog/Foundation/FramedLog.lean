import ShardLog.Foundation.ByteReader
import ShardLog.Foundation.Stateful

/-!
# Foundation - Files of framed entries

A log file holds one frame after another.  A writer may be stopped in the middle
of a frame, and a scan from the start returns the entries of the complete frames
and stops at the first frame that is not all there.
-/

namespace FramedLog

open ByteReader Stateful List

/-! ## Files -/

/-- An open file: its bytes and the place of the next write. -/
structure File where
  bytes : Bytes
  position : Nat
  position_le : position ≤ bytes.length
deriving DecidableEq, Repr

/-- A file positioned at its end. -/
def File.atEnd (bytes : Bytes) : File := ⟨bytes, bytes.length, Nat.le_refl _⟩

/-- Write over what stands at the position, and extend the file if need be. -/
def File.write (file : File) (data : Bytes) : File where
  bytes := file.bytes.take file.position ++ data ++ file.bytes.drop (file.position + data.length)
  position := file.position + data.length
  position_le := by
    have hposition := file.position_le
    simp only [List.length_append, List.length_take, List.length_drop]
    omega

/-- Writing at the end appends. -/
@[simp] theorem write_atEnd (bytes data : Bytes) :
    (File.atEnd bytes).write data = File.atEnd (bytes ++ data) := by
  simp [File.write, File.atEnd]

/-- How a write ends: with all its data written, or stopped by an error after some
of it. -/
inductive WriteOutcome where
  | done
  | stopped (written : Nat) (error : String)
deriving DecidableEq, Repr

/-- Write all the data, unless the write is stopped. -/
def writeAll (data : Bytes) : WriteOutcome → EStateM String File Unit
  | .done => modify fun file => file.write data
  | .stopped written error => do
      modify fun file => file.write (data.take written)
      throw error

/-- Flush the file; the outcome is the error, if there is one. -/
def syncData : Option String → EStateM String File Unit
  | none => pure ()
  | some error => throw error

/-- The file ends with a part of the data, from its front, after what it held. -/
def TornAfter (bytes data : Bytes) (file : File) : Prop :=
  ∃ torn, torn <+: data ∧ file = File.atEnd (bytes ++ torn)

variable {bytes first second : Bytes} {file : File} {ε α σ : Type} {frames : List (α × Bytes)}

theorem TornAfter.append_left (h : TornAfter (bytes ++ first) second file) :
    TornAfter bytes (first ++ second) file := by
  obtain ⟨torn, htorn, rfl⟩ := h
  exact ⟨first ++ torn, (prefix_append_right_inj first).mpr htorn, by rw [append_assoc]⟩

theorem TornAfter.append_right (h : TornAfter bytes first file) :
    TornAfter bytes (first ++ second) file := by
  obtain ⟨torn, htorn, rfl⟩ := h
  exact ⟨torn, htorn.trans (prefix_append first second), rfl⟩

/-- A write appends all of its data, or it fails with a part of it. -/
theorem triple_writeAll (bytes data : Bytes) (outcome : WriteOutcome) :
    Triple (fun file => file = File.atEnd bytes) (writeAll data outcome)
      (fun _ file => file = File.atEnd (bytes ++ data)) (TornAfter bytes data) := by
  cases outcome with
  | done =>
    refine triple_modify fun file hfile => ?_
    rw [hfile, write_atEnd]
  | stopped written error =>
    refine Triple.bind (fun _ file => file = File.atEnd (bytes ++ data.take written))
      (triple_modify fun file hfile => ?_) fun _ => triple_throw fun file hfile => ?_
    · rw [hfile, write_atEnd]
    · exact ⟨data.take written, take_prefix written data, hfile⟩

/-- A second write goes on where the first one ended. -/
theorem triple_writeAll_bind (outcome : WriteOutcome) {next : EStateM String File Unit}
    (h : Triple (fun file => file = File.atEnd (bytes ++ first)) next
      (fun _ file => file = File.atEnd (bytes ++ first ++ second)) (TornAfter (bytes ++ first) second)) :
    Triple (fun file => file = File.atEnd bytes) (writeAll first outcome >>= fun _ => next)
      (fun _ file => file = File.atEnd (bytes ++ (first ++ second)))
      (TornAfter bytes (first ++ second)) := by
  refine Triple.bind (fun _ file => file = File.atEnd (bytes ++ first)) ?_ fun _ => ?_
  · exact (triple_writeAll bytes first outcome).consequence (fun _ hfile => hfile)
      (fun _ _ hfile => hfile) fun _ htorn => htorn.append_right
  · refine h.consequence (fun _ hfile => hfile) (fun _ file hfile => ?_) fun _ htorn => htorn.append_left
    rw [hfile, append_assoc]

/-- A flush writes nothing. -/
theorem triple_syncData (bytes : Bytes) (outcome : Option String) :
    Triple (fun file => file = File.atEnd bytes) (syncData outcome)
      (fun _ file => file = File.atEnd (bytes ++ [])) (TornAfter bytes []) := by
  cases outcome with
  | none => exact triple_pure fun file hfile => by rw [hfile, append_nil]
  | some error => exact triple_throw fun file hfile => ⟨[], prefix_rfl, by rw [hfile, append_nil]⟩

/-! ## Scanning frames -/

/-- The front of the remaining bytes: an incomplete frame, no frame, or an entry and its size. -/
inductive Head (ε α : Type) where
  | torn
  | corrupt (error : ε)
  | whole (entry : α) (size : Nat)

/-- Read frames until one is incomplete; returns the entries and the bytes of their frames. The fuel
is the number of bytes. -/
def scan (head : σ → Bytes → Head ε α) (advance : σ → α → σ) :
    Nat → σ → Bytes → Except ε (List α × Nat)
  | 0, _, _ => .ok ([], 0)
  | fuel + 1, state, bytes =>
    match head state bytes with
    | .torn => .ok ([], 0)
    | .corrupt error => .error error
    | .whole entry size => do
        let rest ← scan head advance fuel (advance state entry) (bytes.drop size)
        .ok (entry :: rest.1, size + rest.2)

/-- Entries whose frames are read as such whatever follows, each from the state before it. -/
inductive Frames (head : σ → Bytes → Head ε α) (advance : σ → α → σ) :
    σ → List (α × Bytes) → σ → Prop where
  | nil (state : σ) : Frames head advance state [] state
  | cons {state final : σ} {entry : α} {frame : Bytes} {rest : List (α × Bytes)}
      (hsize : frame ≠ [])
      (hhead : ∀ tail, head state (frame ++ tail) = .whole entry frame.length)
      (hrest : Frames head advance (advance state entry) rest final) :
      Frames head advance state ((entry, frame) :: rest) final

/-- The bytes of a list of framed entries. -/
def contents (frames : List (α × Bytes)) : Bytes := (frames.map Prod.snd).flatten

@[simp] theorem contents_nil : contents ([] : List (α × Bytes)) = [] := rfl

@[simp] theorem contents_cons (frame : α × Bytes) (rest : List (α × Bytes)) :
    contents (frame :: rest) = frame.2 ++ contents rest := rfl

@[simp] theorem contents_append (first second : List (α × Bytes)) :
    contents (first ++ second) = contents first ++ contents second := by
  simp [contents]

variable {head : σ → Bytes → Head ε α} {advance : σ → α → σ} {state final : σ}

/-- A scan returns the whole frames before a torn one. -/
theorem scan_frames (h : Frames head advance state frames final) {tail : Bytes}
    (htail : head final tail = .torn) {fuel : Nat}
    (hfuel : (contents frames ++ tail).length ≤ fuel) :
    scan head advance fuel state (contents frames ++ tail) =
      .ok (frames.map Prod.fst, (contents frames).length) := by
  induction h generalizing fuel with
  | nil state =>
    cases fuel with
    | zero => rfl
    | succ fuel => simp [scan, htail]
  | @cons state final entry frame rest hsize hhead _ ih =>
    have hpositive := length_pos_iff.mpr hsize
    simp only [contents_cons, length_append] at hfuel
    cases fuel with
    | zero => omega
    | succ fuel =>
      have henough : (contents rest ++ tail).length ≤ fuel := by
        rw [length_append]
        omega
      rw [contents_cons, append_assoc, scan, hhead]
      simp [ih htail henough]

/-- Frames follow frames. -/
theorem Frames.append {middle : σ} {first second : List (α × Bytes)}
    (hfirst : Frames head advance state first middle)
    (hsecond : Frames head advance middle second final) :
    Frames head advance state (first ++ second) final := by
  induction hfirst with
  | nil state => exact hsecond
  | cons hsize hhead _ ih => exact .cons hsize hhead (ih hsecond)

/-- A frame that was read is all there, and it is read as its entry whatever follows it. -/
def Stable (head : σ → Bytes → Head ε α) : Prop :=
  ∀ state bytes entry size, head state bytes = .whole entry size →
    0 < size ∧ size ≤ bytes.length ∧
      ∀ tail, head state (bytes.take size ++ tail) = .whole entry size

/-- Whatever the bytes are, a scan accepts a list of frames at their front. -/
theorem exists_frames_of_scan (hstable : Stable head) {fuel size : Nat} {entries : List α}
    (h : scan head advance fuel state bytes = .ok (entries, size)) :
    ∃ frames final, Frames head advance state frames final ∧ frames.map Prod.fst = entries ∧
      contents frames = bytes.take size ∧ (contents frames).length = size := by
  induction fuel generalizing state bytes entries size with
  | zero =>
    cases h
    exact ⟨[], state, .nil _, rfl, rfl, rfl⟩
  | succ fuel ih =>
    rw [scan] at h
    split at h
    · cases h
      exact ⟨[], state, .nil _, rfl, rfl, rfl⟩
    · cases h
    · rename_i entry size hhead
      obtain ⟨⟨rest, restSize⟩, hrest, h⟩ := bind_eq_ok_iff.mp h
      cases h
      obtain ⟨hpositive, hle, htail⟩ := hstable _ _ _ _ hhead
      have hlength : (bytes.take size).length = size := length_take_of_le hle
      obtain ⟨frames, final, hframes, rfl, hcontents, hsize⟩ := ih hrest
      refine ⟨(entry, bytes.take size) :: frames, final,
        .cons ?_ (hlength.symm ▸ htail) hframes, rfl, ?_, ?_⟩
      · rw [← length_pos_iff, hlength]
        exact hpositive
      · rw [contents_cons, hcontents, take_add]
      · rw [contents_cons, length_append, hlength, hsize]

/-! ## Cutting a file -/

/-- A part of a frame, from its front, that is not all of it. -/
def Torn (frame torn : Bytes) : Prop := torn <+: frame ∧ torn.length < frame.length

/-- A cut file has the frames that end before the cut, and a part of the next one. -/
theorem exists_take_contents (hsize : ∀ frame ∈ frames, frame.2 ≠ []) :
    ∀ cut, ∃ count torn, count ≤ frames.length ∧
      (contents frames).take cut = contents (frames.take count) ++ torn ∧
      (torn = [] ∨ ∃ frame, frames[count]? = some frame ∧ Torn frame.2 torn) ∧
      ∀ ended ≤ frames.length, (contents (frames.take ended)).length ≤ cut ↔ ended ≤ count := by
  induction frames with
  | nil => exact fun cut => ⟨0, [], Nat.le_refl _, by simp, .inl rfl, by simp⟩
  | cons first rest ih =>
    intro cut
    have hfirst := length_pos_iff.mpr (hsize first mem_cons_self)
    by_cases hcut : cut < first.2.length
    · refine ⟨0, first.2.take cut, Nat.zero_le _, ?_, ?_, ?_⟩
      · rw [contents_cons, take_append_of_le_length (Nat.le_of_lt hcut)]
        rfl
      · refine .inr ⟨first, rfl, take_prefix _ _, ?_⟩
        rw [length_take]
        omega
      · intro ended _
        cases ended with
        | zero => simp
        | succ ended => grind [contents_cons]
    · obtain ⟨count, torn, hcount, htake, htorn, hended⟩ :=
        ih (fun frame hframe => hsize frame (mem_cons_of_mem _ hframe)) (cut - first.2.length)
      refine ⟨count + 1, torn, Nat.succ_le_succ hcount, ?_, ?_, ?_⟩
      · rw [contents_cons, take_append, take_of_length_le (by omega), htake,
          take_succ_cons, contents_cons, append_assoc]
      · simpa using htorn
      · intro ended hended'
        cases ended with
        | zero => simp
        | succ ended => grind [contents_cons]

end FramedLog
