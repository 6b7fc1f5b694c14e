import ShardLog.Sink.Journal

/-!
# Sink journal - failed writes

Runs of open and append calls in which a write may stop after any part of its data
and a flush may fail.  A failed append returns its error to the caller, and the
journal stays open for the next one.

Main results:

- Theorem `recovers_of_undisturbed`: if all calls find the file they expect, every
  acknowledged transaction is recovered, in order and once.
- Theorem `acknowledged_append_lost`: without that condition an acknowledged
  transaction can be lost, and a journal can become impossible to open.
-/

namespace ShardLog.Sink

open ByteReader FramedLog Stateful List

/-! ## Runs of calls -/

/-- One append call and whether it returned without an error. -/
structure IssuedAppend where
  transaction : SinkTransaction
  acknowledged : Bool
deriving DecidableEq, Repr

/-- The file, the handle on it, the transactions the caller knows to be in it, and the append calls
so far. -/
structure JournalWorld where
  disk : Bytes := []
  journal : Option SinkJournal := none
  known : List RecoveredTransaction := []
  issued : List IssuedAppend := []

inductive JournalCall where
  | openFile (io : OpenIo)
  | append (io : AppendIo) (transaction : SinkTransaction)

section Calls

variable (blake3 : Bytes → Bytes) (shard : ShardId) (maxBytes : Nat)

/-- The effect of one call; an append needs an open journal. -/
def JournalWorld.call (world : JournalWorld) : JournalCall → JournalWorld
  | .openFile io =>
    match (openJournal blake3 shard maxBytes io).run world.disk with
    | .ok (journal, recovered) disk =>
      { world with disk := disk, journal := some journal, known := recovered }
    | .error _ disk => { world with disk := disk, journal := none, known := [] }
  | .append io transaction =>
    match world.journal with
    | none => world
    | some journal =>
      match (append blake3 io transaction).run journal with
      | .ok _ journal =>
        { disk := journal.file.bytes
          journal := some journal
          known := world.known ++ [transaction.recovered]
          issued := world.issued ++ [⟨transaction, true⟩] }
      | .error _ journal =>
        { world with
          disk := journal.file.bytes
          journal := some journal
          issued := world.issued ++ [⟨transaction, false⟩] }

/-- The states reached from a missing file by calls that are allowed where they are
made. -/
inductive CallRun (allowed : JournalWorld → JournalCall → Prop) : JournalWorld → Prop where
  | start : CallRun allowed {}
  | call {world : JournalWorld} {made : JournalCall} (hrun : CallRun allowed world)
      (hallowed : allowed world made) : CallRun allowed (world.call blake3 shard maxBytes made)

/-- The sink issues transactions of its shard that start at or after the checkpoint it
knows for their partition. -/
def Issues (world : JournalWorld) : JournalCall → Prop
  | .openFile _ => True
  | .append _ transaction => transaction.OfShard shard ∧ Follows world.known transaction

/-- An open finds no file or one with its header, and an append finds the file as long as recorded.
-/
def Undisturbed (world : JournalWorld) : JournalCall → Prop
  | .openFile _ => world.disk.length = 0 ∨ 8 ≤ world.disk.length
  | .append _ _ => ∀ journal, world.journal = some journal →
      journal.bytes = journal.file.bytes.length

/-- Opening the file returns the acknowledged transactions in order and without
repeats, with at most some of the others. -/
def Recovers (world : JournalWorld) : Prop :=
  ∃ (kept : List IssuedAppend) (journal : SinkJournal) (disk : Bytes), kept.Sublist world.issued ∧
    kept.filter (·.acknowledged) = world.issued.filter (·.acknowledged) ∧
    (openJournal blake3 shard maxBytes {}).run world.disk =
      .ok (journal, kept.map fun issued => issued.transaction.recovered) disk

end Calls

section Careful

variable {blake3 : Bytes → Bytes} {shard : ShardId} {maxBytes : Nat} {world : JournalWorld}
  {journal : SinkJournal} {transaction : SinkTransaction} {kept : List IssuedAppend} {tail : Bytes}

/-! ## Undisturbed runs -/

/-- The transactions of append calls. -/
def transactionsOf (issued : List IssuedAppend) : List SinkTransaction :=
  issued.map (·.transaction)

theorem transactionsOf_append (issued : List IssuedAppend) (last : IssuedAppend) :
    transactionsOf (issued ++ [last]) = transactionsOf issued ++ [last.transaction] := by
  simp [transactionsOf]

/-- The frames of `kept` and a torn tail; a handle with the right length knows exactly these
transactions. -/
structure Framed (blake3 : Bytes → Bytes) (shard : ShardId) (maxBytes : Nat)
    (world : JournalWorld) (kept : List IssuedAppend) (tail : Bytes) : Prop where
  disk : world.disk = journalBytes blake3 (transactionsOf kept) ++ tail
  torn : TornTail blake3 tail
  chain : Chain shard (transactionsOf kept)
  fits : world.disk.length ≤ maxBytes
  sublist : kept.Sublist world.issued
  acknowledged : kept.filter (·.acknowledged) = world.issued.filter (·.acknowledged)
  journal : ∀ journal, world.journal = some journal →
    journal = ⟨maxBytes, File.atEnd world.disk, journal.bytes⟩ ∧
      (journal.bytes = world.disk.length →
        tail = [] ∧ world.known = (transactionsOf kept).map SinkTransaction.recovered)

/-- Either the header was never completed and no journal was ever open, or the file
is framed. -/
inductive Careful (blake3 : Bytes → Bytes) (shard : ShardId) (maxBytes : Nat)
    (world : JournalWorld) : Prop where
  | headless (hdisk : world.disk.length < 8) (hjournal : world.journal = none)
      (hissued : world.issued = [])
  | framed {kept : List IssuedAppend} {tail : Bytes}
      (hframed : Framed blake3 shard maxBytes world kept tail)

/-- A part of a frame is the whole frame or a torn tail. -/
theorem eq_or_tornTail {payload torn : Bytes}
    (hpayload : encodeTransaction transaction = .ok payload)
    (htorn : torn <+: frameOf blake3 transaction) :
    torn = frameOf blake3 transaction ∨ TornTail blake3 torn := by
  by_cases hwhole : torn.length = (frameOf blake3 transaction).length
  · exact .inl (htorn.eq_of_length hwhole)
  · have hle := htorn.length_le
    exact .inr (.inr ⟨transaction, payload, hpayload, htorn, by omega⟩)

/-- Creating the file writes its header or, when it fails, a part of it. -/
theorem triple_writeMagic_nil (io : OpenIo) :
    Triple (fun disk => disk = []) (writeMagic io) (fun _ disk => disk = journalMagic)
      (fun disk => disk <+: journalMagic) := by
  rintro disk rfl
  have hfile := triple_writeAll_bind io.magic
    (triple_syncData ([] ++ journalMagic) io.sync) (File.atEnd []) rfl
  simp only [EStateM.run, writeMagic, length_nil, if_true] at hfile ⊢
  cases hrun : (writeAll journalMagic io.magic >>= fun _ => syncData io.sync) (File.atEnd []) with
  | ok value file =>
    simp only [hrun] at hfile ⊢
    rw [hfile]
    rfl
  | error error file =>
    simp only [hrun] at hfile ⊢
    obtain ⟨torn, htorn, rfl⟩ := hfile
    simpa [File.atEnd] using htorn

section

variable (hblake3 : ∀ payload, (blake3 payload).length = checksumBytes)

include hblake3

/-- An open drops the torn tail. -/
theorem Framed.open (h : Framed blake3 shard maxBytes world kept tail) (io : OpenIo) :
    (openJournal blake3 shard maxBytes io).run world.disk =
      .ok (⟨maxBytes, File.atEnd (journalBytes blake3 (transactionsOf kept)),
        (journalBytes blake3 (transactionsOf kept)).length⟩,
        (transactionsOf kept).map SinkTransaction.recovered)
        (journalBytes blake3 (transactionsOf kept)) := by
  have hfits := h.fits
  rw [h.disk] at hfits ⊢
  exact openJournal_of_recover (recover_journalBytes hblake3 h.chain h.torn hfits) io

/-- Opening a framed file leaves it framed, with a handle that knows it. -/
theorem Framed.openFile (h : Framed blake3 shard maxBytes world kept tail) (io : OpenIo) :
    Framed blake3 shard maxBytes (world.call blake3 shard maxBytes (.openFile io)) kept [] := by
  have hshorter : (journalBytes blake3 (transactionsOf kept)).length ≤ maxBytes := by
    have hfits := h.fits
    rw [h.disk, length_append] at hfits
    omega
  rw [JournalWorld.call, h.open hblake3 io]
  refine ⟨(append_nil _).symm, .inl rfl, h.chain, hshorter, h.sublist, h.acknowledged, ?_⟩
  intro journal hjournal
  cases hjournal
  exact ⟨rfl, fun _ => ⟨rfl, rfl⟩⟩

/-- An append that finds the recorded length keeps the file framed. -/
theorem Framed.append
    (h : Framed blake3 shard maxBytes world kept tail) (hjournal : world.journal = some journal)
    (hlength : journal.bytes = journal.file.bytes.length) (hshard : transaction.OfShard shard)
    (hfollows : Follows world.known transaction) (io : AppendIo) :
    ∃ kept tail, Framed blake3 shard maxBytes
      (world.call blake3 shard maxBytes (.append io transaction)) kept tail := by
  obtain ⟨hfile, hknown⟩ := h.journal journal hjournal
  have hdiskBytes : journal.file.bytes = world.disk := by
    rw [hfile]
    rfl
  rw [hdiskBytes] at hlength
  obtain ⟨hnoTail, hkept⟩ := hknown hlength
  subst hnoTail
  have hdisk : world.disk = journalBytes blake3 (transactionsOf kept) := by
    rw [h.disk, append_nil]
  have hstart : journal = ⟨maxBytes, File.atEnd world.disk, world.disk.length⟩ := by
    rw [hfile, hlength]
  have houtcome := triple_append hblake3 io transaction maxBytes world.disk.length world.disk
    journal hstart
  rw [hkept] at hfollows
  have hgrown : ∀ payload, encodeTransaction transaction = .ok payload →
      Chain shard (transactionsOf kept ++ [transaction]) := fun payload hpayload =>
    .append h.chain ⟨payload, hpayload⟩ hshard hfollows
  cases hrun : (Sink.append blake3 io transaction).run journal with
  | ok value later =>
    rw [hrun] at houtcome
    simp only [JournalWorld.call, hjournal, hrun]
    obtain ⟨⟨⟨payload, hpayload⟩, hfits⟩, rfl⟩ := houtcome
    refine ⟨kept ++ [⟨transaction, true⟩], [], ?_, .inl rfl, ?_, ?_, ?_, ?_, ?_⟩
    · rw [append_nil, transactionsOf_append, journalBytes_append, ← hdisk]
      rfl
    · rw [transactionsOf_append]
      exact hgrown payload hpayload
    · simpa [File.atEnd] using hfits
    · exact h.sublist.append (Sublist.refl _)
    · simp [h.acknowledged]
    · intro journal hjournal
      cases hjournal
      refine ⟨rfl, fun _ => ⟨rfl, ?_⟩⟩
      rw [transactionsOf_append, map_append, hkept]
      rfl
  | error error later =>
    rw [hrun] at houtcome
    simp only [JournalWorld.call, hjournal, hrun]
    obtain ⟨torn, hroom, htorn, rfl⟩ := houtcome
    have hsublist : kept.Sublist (world.issued ++ [⟨transaction, false⟩]) :=
      h.sublist.trans (sublist_append_left _ _)
    have hacknowledged : kept.filter (·.acknowledged) =
        (world.issued ++ [(⟨transaction, false⟩ : IssuedAppend)]).filter (·.acknowledged) := by
      simp [h.acknowledged]
    rcases hroom with rfl | ⟨⟨payload, hpayload⟩, hfits⟩
    · -- Nothing was written, and the handle is as it was.
      refine ⟨kept, [], ?_, .inl rfl, h.chain, ?_, hsublist, hacknowledged, ?_⟩
      · simp [File.atEnd, hdisk]
      · simpa [File.atEnd] using h.fits
      · grind
    have hshort : (world.disk ++ torn).length ≤ maxBytes := by grind
    rcases eq_or_tornTail hpayload htorn with rfl | htail
    · -- The frame is complete, but its flush failed: the recorded length is behind.
      refine ⟨kept ++ [⟨transaction, false⟩], [], ?_, .inl rfl, ?_, hshort, ?_, ?_, ?_⟩
      · rw [append_nil, transactionsOf_append, journalBytes_append, ← hdisk]
        rfl
      · rw [transactionsOf_append]
        exact hgrown payload hpayload
      · exact h.sublist.append (Sublist.refl _)
      · simp [h.acknowledged]
      · intro journal hjournal
        cases hjournal
        refine ⟨rfl, fun hbehind => absurd hbehind ?_⟩
        have hpositive := length_frameOf hblake3 hpayload
        change world.disk.length ≠ (world.disk ++ frameOf blake3 transaction).length
        rw [length_append]
        omega
    · -- The frame is torn.
      refine ⟨kept, torn, ?_, htail, h.chain, hshort, hsublist, hacknowledged, ?_⟩
      · change world.disk ++ torn = _
        rw [hdisk]
      · intro journal hjournal
        cases hjournal
        refine ⟨rfl, fun hbehind => ?_⟩
        change world.disk.length = (world.disk ++ torn).length at hbehind
        have hempty : torn = [] := by
          rw [length_append] at hbehind
          exact length_eq_zero_iff.mp (by omega)
        exact ⟨hempty, hkept⟩

/-- A new file gets its header or a part of it. -/
theorem triple_openJournal_nil (hmax : 8 ≤ maxBytes) (io : OpenIo) :
    Triple (fun disk => disk = []) (openJournal blake3 shard maxBytes io)
      (fun opened disk => opened = (⟨maxBytes, File.atEnd journalMagic, 8⟩, []) ∧
        disk = journalMagic)
      (fun disk => disk <+: journalMagic) := by
  have hrecovered : (recover blake3 shard maxBytes).run journalMagic = .ok [] journalMagic :=
    recover_journalBytes hblake3 .nil (.inl rfl) hmax
  refine Triple.bind (fun _ disk => disk = []) ?_ fun _ => ?_
  · simp [triple_liftResult]
  refine Triple.bind (fun _ disk => disk = journalMagic) (triple_writeMagic_nil io) fun _ => ?_
  rintro disk rfl
  rw [EStateM.run_bind, hrecovered]
  exact ⟨rfl, rfl⟩

/-- A new file ends with a part of the header, or it holds the whole header. -/
theorem Careful.create
    (hmax : 8 ≤ maxBytes) (hdisk : world.disk = []) (hissued : world.issued = []) (io : OpenIo) :
    Careful blake3 shard maxBytes (world.call blake3 shard maxBytes (.openFile io)) := by
  have hcreated : Triple (fun disk => disk = []) (openJournal blake3 shard maxBytes io) _ _ :=
    triple_openJournal_nil hblake3 hmax io
  have hopened := hcreated world.disk hdisk
  rw [JournalWorld.call]
  cases hrun : (openJournal blake3 shard maxBytes io).run world.disk with
  | ok opened disk =>
    rw [hrun] at hopened
    obtain ⟨rfl, rfl⟩ := hopened
    refine .framed ⟨(append_nil _).symm, .inl rfl, .nil, hmax, nil_sublist _, ?_, ?_⟩
    · simp [hissued]
    · intro journal hjournal
      cases hjournal
      exact ⟨rfl, fun _ => ⟨rfl, rfl⟩⟩
  | error error disk =>
    rw [hrun] at hopened
    have hle := hopened.length_le
    rw [length_journalMagic] at hle
    by_cases hwhole : disk.length = 8
    · obtain rfl := hopened.eq_of_length hwhole
      refine .framed ⟨(append_nil _).symm, .inl rfl, .nil, hmax, nil_sublist _, ?_, ?_⟩
      · simp [hissued]
      · intro journal hjournal
        cases hjournal
    · exact .headless (by dsimp only; omega) rfl hissued

/-- A call that finds the file it expects keeps it in order. -/
theorem careful_call
    (hmax : 8 ≤ maxBytes) (h : Careful blake3 shard maxBytes world) {made : JournalCall}
    (hissued : Issues shard world made) (hfound : Undisturbed world made) :
    Careful blake3 shard maxBytes (world.call blake3 shard maxBytes made) := by
  cases h with
  | headless hdisk hjournal hempty =>
    cases made with
    | openFile io =>
      have hnone : world.disk = [] := length_eq_zero_iff.mp (by
        rcases hfound with hzero | hlong
        · exact hzero
        · omega)
      exact Careful.create hblake3 hmax hnone hempty io
    | append io transaction =>
      rw [JournalWorld.call, hjournal]
      exact .headless hdisk hjournal hempty
  | framed hframed =>
    cases made with
    | openFile io => exact .framed (hframed.openFile hblake3 io)
    | append io transaction =>
      cases hjournal : world.journal with
      | none =>
        rw [JournalWorld.call, hjournal]
        exact .framed hframed
      | some journal =>
        obtain ⟨kept, tail, hlater⟩ := hframed.append hblake3 hjournal
          (hfound journal hjournal) hissued.1 hissued.2 io
        exact .framed hlater

/-- Undisturbed runs keep the file framed. -/
theorem CallRun.careful (hmax : 8 ≤ maxBytes) (h : CallRun blake3 shard maxBytes
      (fun world made => Issues shard world made ∧ Undisturbed world made) world) :
    Careful blake3 shard maxBytes world := by
  induction h with
  | start => exact .headless (by decide) rfl rfl
  | call _ hallowed ih => exact careful_call hblake3 hmax ih hallowed.1 hallowed.2

end

/-- While all calls find the file they expect, every open returns the acknowledged transactions in
order and without repeats, with at most some of those whose append failed. -/
theorem recovers_of_undisturbed (hblake3 : ∀ payload, (blake3 payload).length = checksumBytes)
    (hmax : 8 ≤ maxBytes) {world : JournalWorld}
    (h : CallRun blake3 shard maxBytes
      (fun world made => Issues shard world made ∧ Undisturbed world made) world)
    (hfound : Undisturbed world (.openFile {})) : Recovers blake3 shard maxBytes world := by
  cases h.careful hblake3 hmax with
  | headless hdisk _ hissued =>
    have hnone : world.disk = [] := List.length_eq_zero_iff.mp (by
      rcases hfound with hzero | hlong
      · exact hzero
      · omega)
    have hopened : (openJournal blake3 shard maxBytes {}).run world.disk = _ :=
      hnone ▸ openJournal_nil hmax hblake3
    exact ⟨[], _, _, List.nil_sublist _, by rw [hissued], hopened⟩
  | @framed kept tail hframed =>
    have hopened := hframed.open hblake3 {}
    rw [transactionsOf, List.map_map] at hopened
    exact ⟨kept, _, _, hframed.sublist, hframed.acknowledged, hopened⟩

end Careful

/-! ## Disturbed runs -/

/-- A journal, one append that is stopped after one byte, and the same append again. -/
def tornThenAcknowledged : List JournalCall :=
  [.openFile {}, .append { length := .stopped 1 "disk full" } sampleTransaction,
    .append {} sampleTransaction]

/-- The transactions returned by an open that succeeds. -/
def recoveredFrom : EStateM.Result LogDbError Bytes (SinkJournal × List RecoveredTransaction) →
      Option (List RecoveredTransaction)
  | .ok (_, recovered) _ => some recovered
  | .error _ _ => none

/-- The state after a list of calls. -/
def JournalWorld.calls (blake3 : Bytes → Bytes) (shard : ShardId) (maxBytes : Nat)
    (made : List JournalCall) : JournalWorld :=
  made.foldl (JournalWorld.call blake3 shard maxBytes) {}

theorem issues_sampleTransaction {world : JournalWorld} (h : world.known = []) (io : AppendIo) :
    Issues 0 world (.append io sampleTransaction) := by
  refine ⟨sampleTransaction_ofShard, fun actual hactual => ?_⟩
  rw [h] at hactual
  cases hactual

/-- An acknowledged transaction is lost behind a torn frame, and a torn header makes
the journal impossible to open. -/
theorem acknowledged_append_lost :
    (∃ world, CallRun constantHash 0 1024 (Issues 0) world ∧
      world.issued = [⟨sampleTransaction, false⟩, ⟨sampleTransaction, true⟩] ∧
      ¬Recovers constantHash 0 1024 world) ∧
    (∃ world, CallRun constantHash 0 1024 (Issues 0) world ∧
      ¬Recovers constantHash 0 1024 world) := by
  constructor
  · refine ⟨JournalWorld.calls constantHash 0 1024 tornThenAcknowledged, ?_, rfl, ?_⟩
    · simp only [JournalWorld.calls, tornThenAcknowledged, List.foldl_cons, List.foldl_nil]
      exact .call (.call (.call .start trivial) (issues_sampleTransaction rfl _))
        (issues_sampleTransaction rfl _)
    · rintro ⟨kept, journal, disk, _, hacknowledged, hopened⟩
      have hempty : recoveredFrom ((openJournal constantHash 0 1024 {}).run
          (JournalWorld.calls constantHash 0 1024 tornThenAcknowledged).disk) = some [] := by
        decide +kernel
      rw [hopened, recoveredFrom, Option.some.injEq, List.map_eq_nil_iff] at hempty
      rw [hempty] at hacknowledged
      cases hacknowledged
  · refine ⟨JournalWorld.call constantHash 0 1024 {} (.openFile { magic := .stopped 3 "disk full" }),
      .call .start trivial, ?_⟩
    rintro ⟨kept, journal, disk, _, _, hopened⟩
    cases hopened

/-- After a write that stopped at its first byte the journal goes on. -/
theorem recovers_after_unwritten_append :
    Recovers constantHash 0 1024 (JournalWorld.calls constantHash 0 1024
      [.openFile {}, .append { length := .stopped 0 "disk full" } sampleTransaction,
        .append {} sampleTransaction]) := by
  simp only [JournalWorld.calls, List.foldl_cons, List.foldl_nil]
  refine recovers_of_undisturbed (fun _ => rfl) (by decide) (.call (.call (.call .start ?_) ?_) ?_) ?_
  · exact ⟨trivial, .inl rfl⟩
  · refine ⟨issues_sampleTransaction rfl _, fun journal hjournal => ?_⟩
    cases hjournal
    rfl
  · refine ⟨issues_sampleTransaction rfl _, fun journal hjournal => ?_⟩
    cases hjournal
    rfl
  · exact .inr (by decide +kernel)

end ShardLog.Sink
