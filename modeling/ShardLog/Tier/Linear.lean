import Mathlib.Logic.Equiv.List
import Mathlib.Logic.Relation
import Mathlib.Tactic.DeriveEncodable
import ShardLog.Tier.Publication

/-!
# Object tier - Publication is linear

Any number of handles open and publish into one namespace.  Their store operations
interleave in any order, and a handle may stop for ever between any two of them.

Main results:

- Theorem `SystemHolds.step`: what the handles know stays true, whichever handle
  takes the next step.
- Theorem `publication_linear`: the groups that can be reached from `CURRENT` only
  ever grow, by one group for each publication that is not a retry.
- Theorem `current_groups_uploaded`: each of them has its manifest and its artifacts.
-/

namespace ShardLog.Tier

open ByteReader Utf8 Interleave List

/-! ## Handles that share a store -/

/-- What a handle is doing: the rest of its program, if it is running one. -/
inductive HandleState where
  | closed
  | opening (program : StoreScript LogObjectTier)
  | idle (tier : LogObjectTier)
  | publishing (tier : LogObjectTier) (source : TierGroupSource) (program : StoreScript Publication)

/-- The store and the handles. -/
structure TierSystem where
  store : ObjectStore
  handles : Nat → HandleState

section System

variable (services : TierServices) (shardId : ShardId) (partition : TopicPartition)

/-- One step of a handle: it starts a program, performs the next operation, returns, or
crashes. -/
inductive HandleStep : HandleState → ObjectStore → HandleState → ObjectStore → Prop where
  | opens (config : ObjectTierConfig) (store : ObjectStore) :
      HandleStep .closed store (.opening (openTier services shardId partition config)) store
  | openCall {op : StoreOp} {next : LogDbResult op.Value → StoreScript LogObjectTier}
      {before after : ObjectStore} {response : LogDbResult op.Value} :
      Performs services op before response after →
      HandleStep (.opening (.call op next)) before (.opening (next response)) after
  | opened (tier : LogObjectTier) (store : ObjectStore) :
      HandleStep (.opening (.done (.ok tier))) store (.idle tier) store
  | openFailed (e : LogDbError) (store : ObjectStore) :
      HandleStep (.opening (.done (.error e))) store .closed store
  | publishes (tier : LogObjectTier) (source : TierGroupSource) (store : ObjectStore) :
      HandleStep (.idle tier) store
        (.publishing tier source (publishGroup services shardId partition tier source)) store
  | publishCall {tier : LogObjectTier} {source : TierGroupSource} {op : StoreOp}
      {next : LogDbResult op.Value → StoreScript Publication} {before after : ObjectStore}
      {response : LogDbResult op.Value} :
      Performs services op before response after →
      HandleStep (.publishing tier source (.call op next)) before
        (.publishing tier source (next response)) after
  | published (tier : LogObjectTier) (source : TierGroupSource) (result : LogDbResult Publication)
      (store : ObjectStore) :
      HandleStep (.publishing tier source (.done result)) store (.idle (tier.finish result)) store
  | crashes (state : HandleState) (store : ObjectStore) : HandleStep state store .closed store

/-- Any one of the handles takes a step. -/
def TierStep (before after : TierSystem) : Prop :=
  ∃ i state, HandleStep services shardId partition (before.handles i) before.store state
      after.store ∧
    after.handles = Function.update before.handles i state

/-- A step after which digests and version tokens still tell the contents of `CURRENT`
apart. -/
def TierMove (before after : TierSystem) : Prop :=
  TierStep services shardId partition before after ∧
    Collisionless services shardId partition after.store

/-- The namespace starts without `CURRENT`; the store may have other objects. -/
inductive TierReachable : TierSystem → Prop where
  | start {store : ObjectStore} (h : store.versions (currentKey shardId partition) = []) :
      TierReachable ⟨store, fun _ => .closed⟩
  | step {before after : TierSystem} (h : TierReachable before)
      (hmove : TierMove services shardId partition before after) : TierReachable after

/-! ## What holds between steps -/

/-- What a publication returns with. -/
def PublishedWell (tier : LogObjectTier) (source : TierGroupSource) (publication : Publication)
    (store : ObjectStore) : Prop :=
  Settled services shardId partition tier.config store source publication.manifest
      (tier.finish (.ok publication)).root ∧
    ∃ groups, HandleHolds services shardId partition store (tier.finish (.ok publication)) groups

/-- The root of the handle is one that `CURRENT` selected, and its program keeps to the
discipline. -/
def HandleGood (store : ObjectStore) : HandleState → Prop
  | .closed => True
  | .opening program =>
    Ensures (tierDiscipline services shardId partition) (KeepsCurrent shardId partition)
      (fun tier later => ∃ groups, HandleHolds services shardId partition later tier groups)
      program store
  | .idle tier => ∃ groups, HandleHolds services shardId partition store tier groups
  | .publishing tier source program =>
    (∃ groups, HandleHolds services shardId partition store tier groups) ∧
      Ensures (tierDiscipline services shardId partition)
        (KeepsOrExtends services shardId partition tier.config source)
        (PublishedWell services shardId partition tier source) program store ∧
      (Commits (WritesCurrent shardId partition)
          (fun publication : Publication => publication.advance.isSome) program ∨
        ∃ result, program = .done result)

structure SystemHolds (system : TierSystem) : Prop where
  store : (tierDiscipline services shardId partition).inv system.store
  handles : ∀ i, HandleGood services shardId partition system.store (system.handles i)

/-! ## Linear steps and runs -/

/-- With this step the publication of a source becomes complete, and it is not a retry. -/
def Completes (before after : HandleState) (tier : LogObjectTier) (source : TierGroupSource) :
    Prop :=
  before ≠ after ∧ ∃ publication : Publication,
    after = .publishing tier source (.done (.ok publication)) ∧ publication.advance.isSome

/-- What a step may do to the published groups and to the handles. -/
structure LinearStep (before after : TierSystem) : Prop where
  /-- A publication that is not a retry adds its group at the end. -/
  extends_by : ∀ i tier source, Completes (before.handles i) (after.handles i) tier source →
    ExtendsBy services shardId partition tier.config source before.store after.store
  /-- Nothing else changes `CURRENT`: no failed publication and no retry does. -/
  current_kept : (∀ i tier source, ¬Completes (before.handles i) (after.handles i) tier source) →
    after.store.versions (currentKey shardId partition) =
      before.store.versions (currentKey shardId partition)
  /-- A publication that returns success without a new root is a retry of the last group
  of the handle's root. -/
  retried : ∀ i tier source manifest,
    after.handles i = .publishing tier source (.done (.ok ⟨manifest, none⟩)) →
    Settled services shardId partition tier.config after.store source manifest tier.root
  /-- A failed publication leaves the handle as it was. -/
  handle_kept : ∀ i tier source e, before.handles i = .publishing tier source (.done (.error e)) →
    after.handles i = before.handles i ∨ after.handles i = .idle tier ∨ after.handles i = .closed
  /-- A successful publication hands its root to the handle. -/
  handle_advanced : ∀ i tier source publication,
    before.handles i = .publishing tier source (.done (.ok publication)) →
    after.handles i = before.handles i ∨
      after.handles i = .idle (tier.finish (.ok publication)) ∨ after.handles i = .closed

/-- What holds between a state and any later one. -/
structure LinearRun (before later : TierSystem) : Prop where
  /-- Published groups stay, in their order. -/
  groups_kept : ∃ groups added,
    currentGroups services shardId partition before.store = some groups ∧
    currentGroups services shardId partition later.store = some (groups ++ added) ∧
    (groups ++ added).Pairwise fun left right => left.groupSequence < right.groupSequence
  /-- The objects they consist of stay as they are. -/
  objects_kept : ∀ key bytes, key ≠ currentKey shardId partition →
    before.store.content key = some bytes → later.store.content key = some bytes
  /-- A group that was published can be published again, by any handle with the same limits
  whose root still ends with it: the call returns its manifest and changes nothing. -/
  retry : ∀ i tier source publication,
    before.handles i = .publishing tier source (.done (.ok publication)) →
    ∀ other : LogObjectTier, other.config = tier.config →
      other.root = (tier.finish (.ok publication)).root →
      Returns (tierDiscipline services shardId partition) (answer services)
        ⟨publication.manifest, none⟩ (publishGroup services shardId partition other source)
        later.store

end System

section System

variable {services : TierServices} {shardId : ShardId} {partition : TopicPartition}
  {before after : ObjectStore} {state : HandleState} {next : HandleState} {tier : LogObjectTier}
  {source : TierGroupSource} {store : ObjectStore}

/-! ## Steps of a handle -/

/-- Other handles do no harm. -/
theorem HandleGood.later (h : HandleGood services shardId partition before state)
    (hgrows : Grows (currentKey shardId partition) before after) :
    HandleGood services shardId partition after state := by
  cases state with
  | closed => trivial
  | opening program => exact Ensures.later h hgrows
  | idle tier =>
    obtain ⟨groups, htier⟩ := h
    exact ⟨groups, htier.later hgrows⟩
  | publishing tier source program =>
    obtain ⟨⟨groups, htier⟩, hprogram, hcommits⟩ := h
    exact ⟨⟨groups, htier.later hgrows⟩, hprogram.later hgrows, hcommits⟩

/-- What one step of a handle does to `CURRENT`. -/
def StepsLinearly (services : TierServices) (shardId : ShardId) (partition : TopicPartition)
    (state after : HandleState) (before later : ObjectStore) : Prop :=
  (later.versions (currentKey shardId partition) = before.versions (currentKey shardId partition) ∧
      ∀ tier source, ¬Completes state after tier source) ∨
    ∃ tier source, Completes state after tier source ∧
      ExtendsBy services shardId partition tier.config source before later

theorem not_completes (h : ∀ tier source program, next ≠ .publishing tier source program) :
    ∀ tier source, ¬Completes state next tier source := by
  rintro tier source ⟨_, publication, hnext, _⟩
  exact h tier source _ hnext

theorem not_completes_of_program {program : StoreScript Publication}
    (h : ∀ publication, program = .done (.ok publication) → publication.advance.isSome → False) :
    ∀ other source', ¬Completes state (.publishing tier source program) other source' := by
  rintro other source' ⟨_, publication, hafter, hadvanced⟩
  cases hafter
  exact h publication rfl hadvanced

/-- A step without a store operation. -/
theorem quiet_linear (hgood : HandleGood services shardId partition store next)
    (hinv : (tierDiscipline services shardId partition).inv store)
    (hnot : ∀ tier source, ¬Completes state next tier source) :
    Grows (currentKey shardId partition) store store ∧
      (tierDiscipline services shardId partition).inv store ∧
      HandleGood services shardId partition store next ∧
      StepsLinearly services shardId partition state next store store :=
  ⟨grows_refl _ _, hinv, hgood, .inl ⟨rfl, hnot⟩⟩

/-- One call of a publication. -/
theorem publishCall_linear {op : StoreOp} {next : LogDbResult op.Value → StoreScript Publication}
    {response : LogDbResult op.Value}
    (hinv : (tierDiscipline services shardId partition).inv before)
    (hgood : HandleGood services shardId partition before (.publishing tier source (.call op next)))
    (hperforms : (tierDiscipline services shardId partition).performs op before response after) :
    Grows (currentKey shardId partition) before after ∧
      (tierDiscipline services shardId partition).inv after ∧
      HandleGood services shardId partition after (.publishing tier source (next response)) ∧
      StepsLinearly services shardId partition (.publishing tier source (.call op next))
        (.publishing tier source (next response)) before after := by
  obtain ⟨⟨groups, htier⟩, hprogram, hcommits⟩ := hgood
  obtain ⟨⟨hgrows, hinv', hallowed⟩, hnext⟩ := hprogram.step hinv hperforms
  refine ⟨hgrows, hinv', ?_⟩
  rcases hcommits with (⟨hplain, hrest⟩ | ⟨hwrites, hok, herror⟩) | ⟨_, hdone⟩
  · -- the call does not write `CURRENT`
    refine ⟨⟨⟨groups, htier.later hgrows⟩, hnext, .inl (hrest response)⟩, .inl ⟨?_, ?_⟩⟩
    · exact (performs_plain (not_not.mp hplain) hperforms.1).2
    · refine not_completes_of_program fun publication hdone hadvanced => ?_
      have hrest := hrest response
      rw [hdone] at hrest
      exact hrest publication rfl hadvanced
  · cases response with
    | error e =>
      refine ⟨⟨⟨groups, htier.later hgrows⟩, hnext, .inr ⟨_, herror e⟩⟩, .inl ⟨?_, ?_⟩⟩
      · rw [performs_error hperforms.1]
      · grind [not_completes_of_program]
    | ok metadata =>
      obtain ⟨publication, hdone, hadvanced⟩ := hok metadata
      refine ⟨⟨⟨groups, htier.later hgrows⟩, hnext, .inr ⟨_, hdone⟩⟩,
        .inr ⟨tier, source, ⟨fun h => ?_, publication, by rw [hdone], hadvanced⟩, ?_⟩⟩
      · rw [hdone] at h
        cases h
      · rcases hallowed with ⟨hplain | ⟨e, herror⟩, _⟩ | hextends
        · exact absurd hplain hwrites
        · cases herror
        · exact hextends
  · cases hdone

/-- Whatever a handle does, what it knows and what the others know stays true. -/
theorem HandleStep.linear (hstep : HandleStep services shardId partition state before next after)
    (hinv : (tierDiscipline services shardId partition).inv before)
    (hgood : HandleGood services shardId partition before state)
    (hcollisionless : Collisionless services shardId partition after) :
    Grows (currentKey shardId partition) before after ∧
      (tierDiscipline services shardId partition).inv after ∧
      HandleGood services shardId partition after next ∧
      StepsLinearly services shardId partition state next before after := by
  cases hstep with
  | opens config => exact quiet_linear ensures_openTier hinv (not_completes nofun)
  | openCall hperforms =>
    obtain ⟨⟨hgrows, hinv', hkept⟩, hnext⟩ := Ensures.step hgood hinv ⟨hperforms, hcollisionless⟩
    exact ⟨hgrows, hinv', hnext, .inl ⟨hkept, not_completes nofun⟩⟩
  | opened tier =>
    exact quiet_linear (hgood before (grows_refl _ _) hinv) hinv (not_completes nofun)
  | openFailed e => exact quiet_linear trivial hinv (not_completes nofun)
  | publishes tier source =>
    obtain ⟨groups, htier⟩ := hgood
    refine quiet_linear ⟨⟨groups, htier⟩, ensures_publishGroup htier, .inl commits_publishGroup⟩ hinv
      (not_completes_of_program fun publication hdone hadvanced => ?_)
    have hcommits := @commits_publishGroup services shardId partition source tier
    rw [hdone] at hcommits
    exact hcommits publication rfl hadvanced
  | publishCall hperforms => exact publishCall_linear hinv hgood ⟨hperforms, hcollisionless⟩
  | published tier source result =>
    refine quiet_linear ?_ hinv (not_completes nofun)
    obtain ⟨hbefore, hprogram, _⟩ := hgood
    cases result with
    | ok publication => exact (hprogram before (grows_refl _ _) hinv).2
    | error e => exact hbefore
  | crashes => exact quiet_linear trivial hinv (not_completes nofun)

/-! ## Steps of the system -/

variable {before after : TierSystem}

/-- One step keeps the system right. -/
theorem SystemHolds.step (h : SystemHolds services shardId partition before)
    (hmove : TierMove services shardId partition before after) :
    Grows (currentKey shardId partition) before.store after.store ∧
      SystemHolds services shardId partition after := by
  obtain ⟨⟨i, state, hstep, hhandles⟩, hcollisionless⟩ := hmove
  obtain ⟨hgrows, hinv, hgood, _⟩ := hstep.linear h.store (h.handles i) hcollisionless
  refine ⟨hgrows, hinv, fun j => ?_⟩
  rw [hhandles, Function.update_apply]
  split
  · exact hgood
  · exact (h.handles j).later hgrows

section

variable (h : TierReachable services shardId partition before)

include h

/-- So does a run. -/
theorem systemHolds_of_reachable : SystemHolds services shardId partition before := by
  induction h with
  | start habsent =>
    refine ⟨⟨fun bytes hbytes => ?_, ?_⟩, fun _ => trivial⟩
    · rw [habsent] at hbytes
      cases hbytes
    · constructor <;> simp [habsent]
  | step _ hmove ih => exact (ih.step hmove).2

theorem TierReachable.run
    (hrun : Relation.ReflTransGen (TierMove services shardId partition) before after) :
    TierReachable services shardId partition after := by
  induction hrun with
  | refl => exact h
  | tail _ hmove ih => exact ih.step hmove

end

/-- A publication that is complete is only taken over by its handle, or lost in a crash. -/
theorem handles_of_finished {i : Nat} {result : LogDbResult Publication}
    (hstep : TierStep services shardId partition before after)
    (h : before.handles i = .publishing tier source (.done result)) :
    after.handles i = before.handles i ∨ after.handles i = .idle (tier.finish result) ∨
      after.handles i = .closed := by
  obtain ⟨j, state, hstep, hhandles⟩ := hstep
  rw [hhandles]
  by_cases hij : i = j
  · subst hij
    rw [Function.update_self]
    rw [h] at hstep
    generalize before.store = store, after.store = later at hstep
    cases hstep with
    | published => exact .inr (.inl rfl)
    | crashes => exact .inr (.inr rfl)
  · exact .inl (Function.update_of_ne hij _ _)

/-- The group of a publication that returned is uploaded, and the root ends with it. -/
theorem SystemHolds.settled (h : SystemHolds services shardId partition before) {i : Nat}
    {publication : Publication}
    (hdone : before.handles i = .publishing tier source (.done (.ok publication))) :
    Settled services shardId partition tier.config before.store source publication.manifest
      (tier.finish (.ok publication)).root := by
  have hgood := h.handles i
  rw [hdone] at hgood
  exact (hgood.2.1 before.store (grows_refl _ _) h.store).1

/-- Every step is linear. -/
theorem SystemHolds.linearStep (h : SystemHolds services shardId partition before)
    (hmove : TierMove services shardId partition before after) :
    LinearStep services shardId partition before after := by
  have hafter := (h.step hmove).2
  have hfinished := @handles_of_finished services shardId partition
  obtain ⟨⟨i, state, hstep, hhandles⟩, hcollisionless⟩ := hmove
  obtain ⟨hgrows, hinv, hgood, hlinear⟩ := hstep.linear h.store (h.handles i) hcollisionless
  have hstate : after.handles i = state := by rw [hhandles, Function.update_self]
  refine ⟨fun j tier source hcompletes => ?_, fun hnot => ?_, ?_, ?_, ?_⟩
  · obtain rfl : j = i := by
      by_contra hne
      rw [hhandles, Function.update_of_ne hne] at hcompletes
      exact hcompletes.1 rfl
    rw [hstate] at hcompletes
    rcases hlinear with ⟨_, hnot⟩ | ⟨tier', source', ⟨_, _, hstate', _⟩, hextends⟩
    · exact absurd hcompletes (hnot tier source)
    · obtain ⟨_, _, hsame, _⟩ := hcompletes
      cases hsame.symm.trans hstate'
      exact hextends
  · rcases hlinear with ⟨hkept, _⟩ | ⟨tier, source, hcompletes, _⟩
    · exact hkept
    · grind
  · exact fun j tier source manifest hj => hafter.settled hj
  · intro j tier source e hj
    exact hfinished ⟨i, state, hstep, hhandles⟩ hj
  · intro j tier source publication hj
    exact hfinished ⟨i, state, hstep, hhandles⟩ hj

/-! ## Runs -/

section

variable (h : Consistent services shardId partition store)

include h

/-- `CURRENT` lists increasing groups. -/
theorem exists_currentGroups :
    ∃ groups, currentGroups services shardId partition store = some groups ∧
      groups.Pairwise fun left right => left.groupSequence < right.groupSequence := by
  cases hcontent : store.content (currentKey shardId partition) with
  | none => exact ⟨[], currentGroups_of_absent (getLast?_eq_none_iff.mp hcontent), .nil⟩
  | some bytes =>
    obtain ⟨root, groups, hdenotes⟩ := h bytes (mem_of_getLast? hcontent)
    refine ⟨groups, currentGroups_of_denotes hcontent hdenotes, ?_⟩
    obtain ⟨_, _, _, _, hroot⟩ := hdenotes
    exact hroot.ordered

/-- Groups change with `CURRENT` only. -/
theorem currentGroups_kept {later : ObjectStore}
    (hgrows : Grows (currentKey shardId partition) store later)
    (hkept : later.versions (currentKey shardId partition) =
      store.versions (currentKey shardId partition)) :
    currentGroups services shardId partition later =
      currentGroups services shardId partition store := by
  cases hcontent : store.content (currentKey shardId partition) with
  | none =>
    have habsent := getLast?_eq_none_iff.mp hcontent
    rw [currentGroups_of_absent habsent, currentGroups_of_absent (hkept.trans habsent)]
  | some bytes =>
    obtain ⟨root, groups, hdenotes⟩ := h bytes (mem_of_getLast? hcontent)
    have hlater : later.content (currentKey shardId partition) = some bytes := by
      rw [ObjectStore.content, hkept]
      exact hcontent
    rw [currentGroups_of_denotes hcontent hdenotes,
      currentGroups_of_denotes hlater (hdenotes.later hgrows)]

end

variable {later : TierSystem}

section

variable (h : SystemHolds services shardId partition before)

include h

/-- One step keeps the groups, or adds one that is uploaded. -/
theorem SystemHolds.groups_step (hmove : TierMove services shardId partition before after) :
    ∃ groups added, currentGroups services shardId partition before.store = some groups ∧
      currentGroups services shardId partition after.store = some (groups ++ added) ∧
      ∀ entry ∈ added, ∃ config source manifest,
        Uploaded services shardId partition config after.store source manifest entry := by
  have hlinear := h.linearStep hmove
  by_cases hcompletes : ∃ i tier source, Completes (before.handles i) (after.handles i) tier source
  · obtain ⟨i, tier, source, hcompletes⟩ := hcompletes
    obtain ⟨groups, manifest, entry, hbefore, hafter, _, _, huploaded⟩ :=
      hlinear.extends_by i tier source hcompletes
    exact ⟨groups, [entry], hbefore, hafter, by simpa using ⟨_, _, _, huploaded⟩⟩
  · have hkept := hlinear.current_kept fun i tier source hi => hcompletes ⟨i, tier, source, hi⟩
    obtain ⟨groups, hgroups, _⟩ := exists_currentGroups h.store.1
    refine ⟨groups, [], hgroups, ?_, nofun⟩
    rw [currentGroups_kept h.store.1 (h.step hmove).1 hkept, hgroups, append_nil]

theorem SystemHolds.run
    (hrun : Relation.ReflTransGen (TierMove services shardId partition) before later) :
    SystemHolds services shardId partition later ∧
      Grows (currentKey shardId partition) before.store later.store ∧
      ∃ groups added, currentGroups services shardId partition before.store = some groups ∧
        currentGroups services shardId partition later.store = some (groups ++ added) := by
  induction hrun with
  | refl =>
    obtain ⟨groups, hgroups, _⟩ := exists_currentGroups h.store.1
    exact ⟨h, grows_refl _ _, groups, [], hgroups, by rw [hgroups, append_nil]⟩
  | tail _ hmove ih =>
    obtain ⟨hmiddle, hgrows, groups, added, hbefore, hgroups⟩ := ih
    obtain ⟨groups', more, hgroups', hlater, _⟩ := hmiddle.groups_step hmove
    obtain ⟨hgrows', hholds⟩ := hmiddle.step hmove
    cases hgroups.symm.trans hgroups'
    exact ⟨hholds, grows_trans hgrows hgrows', groups, added ++ more, hbefore,
      by rw [hlater, append_assoc]⟩

/-- Every run is linear. -/
theorem SystemHolds.linearRun
    (hrun : Relation.ReflTransGen (TierMove services shardId partition) before later) :
    LinearRun services shardId partition before later := by
  obtain ⟨hlater, hgrows, groups, added, hbefore, hgroups⟩ := h.run hrun
  refine ⟨⟨groups, added, hbefore, hgroups, ?_⟩, fun key bytes hkey hcontent => ?_, ?_⟩
  · obtain ⟨all, hall, hordered⟩ := exists_currentGroups hlater.store.1
    cases hgroups.symm.trans hall
    exact hordered
  · exact hgrows.content_eq hkey hcontent
  · intro i tier source publication hi other hconfig hroot
    have hsettled := (h.settled hi).later hgrows
    rw [← hconfig, ← hroot] at hsettled
    exact returns_publishGroup hsettled

end

/-- Publication is linear: every step adds at most the group of the publication it completes, and
what was published stays and can be published again. -/
theorem publication_linear (h : TierReachable services shardId partition before) :
    (∀ after, TierMove services shardId partition before after →
      LinearStep services shardId partition before after) ∧
    ∀ later, Relation.ReflTransGen (TierMove services shardId partition) before later →
      LinearRun services shardId partition before later := by
  have hholds := systemHolds_of_reachable h
  exact ⟨fun after hmove => hholds.linearStep hmove, fun later hrun => hholds.linearRun hrun⟩

/-- A reader of `CURRENT` never meets a group whose manifest or artifacts are missing, whatever the
handles did and wherever they crashed. -/
theorem current_groups_uploaded (h : TierReachable services shardId partition before) :
    ∃ groups, currentGroups services shardId partition before.store = some groups ∧
      ∀ entry ∈ groups, ∃ config source manifest,
        Uploaded services shardId partition config before.store source manifest entry := by
  induction h with
  | start habsent => exact ⟨[], currentGroups_of_absent habsent, nofun⟩
  | step h hmove ih =>
    have hholds := systemHolds_of_reachable h
    obtain ⟨groups, added, hbefore, hafter, hadded⟩ := hholds.groups_step hmove
    obtain ⟨_, hgroups, huploaded⟩ := ih
    cases hbefore.symm.trans hgroups
    refine ⟨groups ++ added, hafter, forall_mem_append.mpr ⟨fun entry hentry => ?_, hadded⟩⟩
    obtain ⟨config, source, manifest, hmanifest⟩ := huploaded entry hentry
    exact ⟨config, source, manifest, hmanifest.later (hholds.step hmove).1⟩

end System

/-! ## A first publication -/

section Sample

instance encodableUInt64 : Encodable UInt64 :=
  .ofLeftInverse UInt64.toNat UInt64.ofNat fun _ => UInt64.ofNat_toNat

instance encodableChar : Encodable Char := .ofLeftInverse Char.toNat Char.ofNat Char.ofNat_toNat

deriving instance Encodable for CatalogGroupEntry
deriving instance Encodable for CatalogPage
deriving instance Encodable for CatalogPageRef
deriving instance Encodable for CatalogRoot
deriving instance Encodable for CatalogPointer

/-- An encoding in which one value is short. -/
def toyEncode {α : Type} [Encodable α] [DecidableEq α] (short value : α) : Bytes :=
  if value = short then [0] else List.replicate (Encodable.encode value + 2) 0

def toyDecode {α : Type} [Encodable α] (short : α) (bytes : Bytes) : LogDbResult α :=
  if bytes.length = 1 then .ok short
  else okOr (.corruptTier "unreadable") (Encodable.decode (bytes.length - 2))

theorem toyDecode_toyEncode {α : Type} [Encodable α] [DecidableEq α] (short value : α) :
    toyDecode short (toyEncode short value) = .ok value := by
  unfold toyEncode
  split
  · rename_i h
    rw [h]
    rfl
  · simp [toyDecode, okOr]

def toyDigest (bytes : Bytes) : Str :=
  if bytes = [0] then List.replicate 64 'a' else 'b' :: bytes.map fun byte => Char.ofNat byte.toNat

theorem toyDigest_injective : Function.Injective toyDigest := by
  have hcode : ∀ code < 256, UInt8.ofNat (Char.ofNat code).toNat = UInt8.ofNat code := by
    decide +kernel
  have hbyte : Function.Injective fun byte : UInt8 => Char.ofNat byte.toNat := by
    refine Function.LeftInverse.injective (g := fun c => UInt8.ofNat c.toNat) fun byte => ?_
    exact (hcode byte.toNat byte.toNat_lt).trans UInt8.ofNat_toNat
  intro bytes others h
  unfold toyDigest at h
  split at h <;> split at h
  · rename_i hbytes hothers
    rw [hbytes, hothers]
  · exact absurd (cons.inj h).1 (by decide)
  · exact absurd (cons.inj h).1 (by decide)
  · exact map_injective_iff.mpr hbyte (cons.inj h).2

def samplePartition : TopicPartition := ⟨0, 0⟩

def sampleBlock : TierBlockEntry where
  blockId := 0
  sourceCompressionCohort := 0
  placementId := 0
  dictionaryId := none
  compressionCodec := TierBlockEntry.zstdName
  compressionLevel := 3
  firstOffset := 0
  lastOffset := 0
  recordCount := 1
  sourceBytes := 1
  structuralBytes := 1
  storedBytes := 1
  minTimestampUnixNanos := 0
  maxTimestampUnixNanos := 0
  compressionTemperature := 0
  compressionShapeHash := 0
  compressionTemperatureVarianceQ8 := 0
  maxCompressionTemperatureDeviation := 0
  payloadOffset := 0
  payloadBytes := 1
  payloadChecksum := toyDigest [0]

def sampleSource : TierGroupSource where
  groupSequence := 1
  blocks := [sampleBlock]
  artifacts := [⟨.payloadPack, "blocks".toList, some [0]⟩, ⟨.queryIndex, "index".toList, some [0]⟩]

def sampleEntry : CatalogGroupEntry where
  groupSequence := 1
  manifestKey := manifestKey 0 samplePartition 1 (toyDigest [0])
  manifestBytes := 1
  manifestChecksum := toyDigest [0]
  firstOffset := 0
  lastOffset := 0
  minTimestampUnixNanos := 0
  maxTimestampUnixNanos := 0
  blockCount := 1
  payloadBytes := 1

def samplePage : CatalogPage := singlePage 0 samplePartition 0 sampleEntry

def sampleReference : CatalogPageRef where
  pageSequence := 0
  pageKey := pageKey 0 samplePartition 0 (toyDigest [0])
  pageBytes := 1
  pageChecksum := toyDigest [0]
  firstGroupSequence := 1
  lastGroupSequence := 1
  groupCount := 1
  firstOffset := 0
  lastOffset := 0
  minTimestampUnixNanos := 0
  maxTimestampUnixNanos := 0

def sampleRoot : CatalogRoot := nextRoot (.empty 0 samplePartition) sampleReference false

def samplePointer : CatalogPointer where
  formatVersion := tierFormatVersion
  generation := 1
  rootKey := rootKey 0 samplePartition 1 (toyDigest [0])
  rootBytes := 1
  rootChecksum := toyDigest [0]

/-- Services under which the objects of the first publication have one byte. -/
def toyServices : TierServices where
  checksumBytes := toyDigest
  versionToken _ bytes := toyDigest bytes
  encodeManifest _ := [0]
  encodePage := toyEncode samplePage
  decodePage := toyDecode samplePage
  decodePage_encodePage := toyDecode_toyEncode samplePage
  encodeRoot := toyEncode sampleRoot
  decodeRoot := toyDecode sampleRoot
  decodeRoot_encodeRoot := toyDecode_toyEncode sampleRoot
  encodePointer := toyEncode samplePointer
  decodePointer := toyDecode samplePointer
  decodePointer_encodePointer := toyDecode_toyEncode samplePointer

/-- Toy digests do not collide. -/
theorem collisionless_toy (store : ObjectStore) :
    Collisionless toyServices 0 samplePartition store :=
  ⟨fun _ _ _ _ h => toyDigest_injective h, fun _ _ _ _ _ _ h => toyDigest_injective h⟩

/-- A step of one handle while the others wait. -/
theorem toySystem_move {store after : ObjectStore} {state next : HandleState}
    (handles : Nat → HandleState) (i : Nat)
    (h : HandleStep toyServices 0 samplePartition state store next after) :
    TierMove toyServices 0 samplePartition ⟨store, Function.update handles i state⟩
      ⟨after, Function.update handles i next⟩ :=
  ⟨⟨i, next, by simpa using h, (Function.update_idem ..).symm⟩,
    collisionless_toy after⟩

/-- A handle runs its program to the end while the others wait. -/
theorem toySystem_run {α : Type} {wrap : StoreScript α → HandleState}
    (hwrap : ∀ {op : StoreOp} {next : LogDbResult op.Value → StoreScript α}
      {before after : ObjectStore} {response : LogDbResult op.Value},
      Performs toyServices op before response after →
      HandleStep toyServices 0 samplePartition (wrap (.call op next)) before
        (wrap (next response)) after) (handles : Nat → HandleState) (i : Nat)
    (program : StoreScript α) :
    ∀ store, Relation.ReflTransGen (TierMove toyServices 0 samplePartition)
      ⟨store, Function.update handles i (wrap program)⟩
      ⟨(run (answer toyServices) program store).2, Function.update handles i
        (wrap (.done (run (answer toyServices) program store).1))⟩ := by
  induction program with
  | done result => exact fun store => .refl
  | call op next ih =>
    intro store
    exact .head (toySystem_move handles i (hwrap (.inl rfl))) (ih _ _)

def emptyStore : ObjectStore := ⟨fun _ => []⟩

/-- A handle that has opened the empty catalog. -/
def sampleTier : LogObjectTier := ⟨{}, .empty 0 samplePartition, none⟩

/-- A handle that is about to publish the group. -/
def samplePublishing : HandleState :=
  .publishing sampleTier sampleSource
    (publishGroup toyServices 0 samplePartition sampleTier sampleSource)

/-- Two handles on the empty catalog are about to publish the group. -/
def sampleBefore : TierSystem :=
  ⟨emptyStore, Function.update (Function.update (fun _ => .closed) 1 samplePublishing) 0
    samplePublishing⟩

/-- The result of a publication and the store it leaves. -/
def samplePublication (store : ObjectStore) : LogDbResult Publication × ObjectStore :=
  run (answer toyServices) (publishGroup toyServices 0 samplePartition sampleTier sampleSource)
    store

/-- The handle has published, and the others have waited. -/
def TierSystem.afterPublishing (system : TierSystem) (i : Nat) : TierSystem :=
  ⟨(samplePublication system.store).2, Function.update system.handles i
    (.publishing sampleTier sampleSource (.done (samplePublication system.store).1))⟩

def sampleRun : LogDbResult Publication × ObjectStore := samplePublication emptyStore

/-- The first handle has published. -/
def sampleAfter : TierSystem := sampleBefore.afterPublishing 0

/-- The second handle has tried to publish as well. -/
def sampleLater : TierSystem := sampleAfter.afterPublishing 1

theorem reachable_publishing {handles : Nat → HandleState} {i : Nat} (hclosed : handles i = .closed)
    (h : TierReachable toyServices 0 samplePartition ⟨emptyStore, handles⟩) :
    TierReachable toyServices 0 samplePartition
      ⟨emptyStore, Function.update handles i samplePublishing⟩ := by
  have hopens := toySystem_move handles i (.opens {} emptyStore)
  rw [← hclosed, Function.update_eq_self] at hopens
  have hrun := toySystem_run (fun h => .openCall h) handles i
    (openTier toyServices 0 samplePartition {}) emptyStore
  have hopened := hrun.tail (toySystem_move handles i (.opened sampleTier emptyStore))
  exact (h.step hopens).run
    (hopened.tail (toySystem_move handles i (.publishes sampleTier sampleSource emptyStore)))

theorem sampleBefore_reachable : TierReachable toyServices 0 samplePartition sampleBefore :=
  reachable_publishing rfl (reachable_publishing rfl (.start rfl))

/-- All calls of the publication. -/
theorem afterPublishing_run {system : TierSystem} {i : Nat}
    (h : system.handles i = samplePublishing) :
    Relation.ReflTransGen (TierMove toyServices 0 samplePartition) system
      (system.afterPublishing i) := by
  have hrun : Relation.ReflTransGen (TierMove toyServices 0 samplePartition)
      ⟨system.store, Function.update system.handles i samplePublishing⟩
      (system.afterPublishing i) :=
    toySystem_run (fun h => .publishCall h) system.handles i _ system.store
  rwa [← h, Function.update_eq_self] at hrun

/-- Its last step. -/
theorem afterPublishing_move (system : TierSystem) (i : Nat) :
    TierMove toyServices 0 samplePartition (system.afterPublishing i)
      ⟨(system.afterPublishing i).store, Function.update system.handles i
        (.idle (sampleTier.finish (samplePublication system.store).1))⟩ :=
  toySystem_move system.handles i (.published sampleTier sampleSource _ _)

theorem sampleBefore_run : Relation.ReflTransGen (TierMove toyServices 0 samplePartition)
    sampleBefore sampleAfter :=
  afterPublishing_run rfl

/-- Two handles open an empty catalog and publish the same group: the swap of the second one
is refused, and the catalog has the group once. -/
theorem first_publication_linear : TierReachable toyServices 0 samplePartition sampleBefore ∧
      LinearRun toyServices 0 samplePartition sampleBefore sampleLater ∧
      currentGroups toyServices 0 samplePartition sampleBefore.store = some [] ∧
      currentGroups toyServices 0 samplePartition sampleLater.store = some [sampleEntry] ∧
      (samplePublication sampleAfter.store).1.map (fun _ => ()) =
        .error (.staleCatalog none (some (toyDigest [0]))) ∧
      LinearStep toyServices 0 samplePartition sampleLater ⟨sampleLater.store, Function.update
        sampleAfter.handles 1 (.idle (sampleTier.finish (samplePublication sampleAfter.store).1))⟩ := by
  have hwaits : sampleAfter.handles 1 = samplePublishing := rfl
  have hrun : Relation.ReflTransGen (TierMove toyServices 0 samplePartition) sampleBefore
      sampleLater := sampleBefore_run.trans (afterPublishing_run hwaits)
  exact ⟨sampleBefore_reachable, (publication_linear sampleBefore_reachable).2 sampleLater hrun,
    rfl, by decide +kernel, by decide +kernel,
    (publication_linear (sampleBefore_reachable.run hrun)).1 _ (afterPublishing_move _ 1)⟩

/-- After the publication the reader finds the group complete. -/
theorem first_group_uploaded : ∃ config source manifest, Uploaded toyServices 0 samplePartition
    config sampleAfter.store source manifest sampleEntry := by
  obtain ⟨groups, hgroups, huploaded⟩ :=
    current_groups_uploaded (sampleBefore_reachable.run sampleBefore_run)
  have hcurrent : currentGroups toyServices 0 samplePartition sampleAfter.store =
      some [sampleEntry] := by decide +kernel
  cases hcurrent.symm.trans hgroups
  exact huploaded sampleEntry (mem_singleton_self _)

end Sample

end ShardLog.Tier
