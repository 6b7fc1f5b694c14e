import ShardLog.Foundation.AssocMap
import ShardLog.Structural.Message

/-!
# Structural blocks - template selection

Layouts with the same literals form a group; a group of two records or more
becomes a template.  Groups are found through a hash of the literals and
compared exactly.
-/

namespace ShardLog.Structural

open ByteReader List

/-- The literals of one template. -/
abbrev TemplateEntry := List Bytes

/-! ## Grouping layouts -/

/-- A group of layouts with equal literals. -/
structure TemplateGroup where
  representative : Nat
  count : Nat
  templateId : Option Nat
deriving DecidableEq, Repr

/-- State of the grouping loop. -/
structure TemplateGroups where
  hashGroups : List (UInt64 × List Nat)
  groups : List TemplateGroup
  layoutGroups : List (Option Nat)

def TemplateGroups.empty : TemplateGroups := ⟨[], [], []⟩

/-- Equal literal counts and pairwise equal literals. -/
def sameTemplate (left right : ParsedMessage) : Bool :=
  left.literals.length == right.literals.length &&
    (left.literalBytes.zip right.literalBytes).all fun pair => pair.1 == pair.2

/-- The first candidate group whose representative has the literals of the message. -/
def findGroup (layouts : List ParsedMessage) (groups : List TemplateGroup)
    (candidates : List Nat) (message : ParsedMessage) : Option Nat :=
  candidates.find? fun groupId =>
    (groups[groupId]?.bind fun group => layouts[group.representative]?).any (sameTemplate · message)

/-- Add the records of a layout to a group. -/
def countLayout (groups : List TemplateGroup) (groupId records : Nat) : List TemplateGroup :=
  groups.modify groupId fun group => { group with count := saturatingAdd group.count records }

/-- One iteration of the grouping loop. -/
def TemplateGroups.addLayout (messages : ParsedMessages) (state : TemplateGroups)
    (layoutId : Nat) (message : ParsedMessage) : TemplateGroups :=
  let candidates := (AssocMap.get state.hashGroups message.signatureHash).getD []
  let records := messages.layoutCounts[layoutId]?.getD 0
  match findGroup messages.layouts state.groups candidates message with
  | some groupId =>
    { state with
      groups := countLayout state.groups groupId records
      layoutGroups := state.layoutGroups ++ [some groupId] }
  | none =>
    let groupId := state.groups.length
    { hashGroups := AssocMap.insert state.hashGroups message.signatureHash (candidates ++ [groupId])
      groups := countLayout (state.groups ++ [⟨layoutId, 0, none⟩]) groupId records
      layoutGroups := state.layoutGroups ++ [some groupId] }

/-- The grouping loop. -/
def groupLayouts (messages : ParsedMessages) :
    List ParsedMessage → Nat → TemplateGroups → TemplateGroups
  | [], _, state => state
  | message :: rest, layoutId, state =>
    groupLayouts messages rest (layoutId + 1) (state.addLayout messages layoutId message)

/-- Turn every group of two records or more into a template. -/
def assignTemplateIds (layouts : List ParsedMessage) :
    List TemplateGroup → List TemplateEntry → List TemplateEntry × List TemplateGroup
  | [], entries => (entries, [])
  | group :: groups, entries =>
    if group.count < 2 then
      let rest := assignTemplateIds layouts groups entries
      (rest.1, group :: rest.2)
    else
      let literals := (layouts[group.representative]?.map ParsedMessage.literalBytes).getD []
      let rest := assignTemplateIds layouts groups (entries ++ [literals])
      (rest.1, { group with templateId := some entries.length } :: rest.2)

/-- Templates of a batch and the template of each layout. -/
def selectTemplates (messages : ParsedMessages) :
    LogDbResult (List TemplateEntry × List (Option Nat)) := do
  let state := groupLayouts messages messages.layouts 0 TemplateGroups.empty
  let assigned := assignTemplateIds messages.layouts state.groups []
  ensure (assigned.1.length ≤ 2 ^ 32 - 1) .recordTooLarge
  .ok (assigned.1, state.layoutGroups.map fun groupId =>
    groupId.bind fun groupId => assigned.2[groupId]?.bind TemplateGroup.templateId)

/-! ## What the grouping loop guarantees -/

/-- Layouts are compared by their literals. -/
theorem sameTemplate_iff {left right : ParsedMessage} :
    sameTemplate left right = true ↔ left.literalBytes = right.literalBytes := by
  have hlength : ∀ parsed : ParsedMessage, parsed.literals.length = parsed.literalBytes.length :=
    fun parsed => by simp [ParsedMessage.literalBytes]
  unfold sameTemplate
  rw [hlength left, hlength right]
  generalize left.literalBytes = xs
  generalize right.literalBytes = ys
  induction xs generalizing ys with
  | nil => cases ys <;> simp
  | cons x xs ih =>
    cases ys with
    | nil => simp
    | cons y ys => grind

variable {groups : List TemplateGroup} {layouts : List ParsedMessage} {message : ParsedMessage}
  {messages : ParsedMessages} {templates : List TemplateEntry} {bytes : Bytes}

/-- Counting records changes no representative and no template. -/
theorem countLayout_getElem? {groupId records id : Nat} {group : TemplateGroup}
    (h : groups[id]? = some group) :
    ∃ group', (countLayout groups groupId records)[id]? = some group' ∧
      group'.representative = group.representative ∧ group'.templateId = group.templateId := by
  unfold countLayout
  rw [getElem?_modify, h]
  by_cases heq : groupId = id
  · exact ⟨{ group with count := saturatingAdd group.count records }, by simp [heq], rfl, rfl⟩
  · exact ⟨group, by simp [heq], rfl, rfl⟩

theorem mem_countLayout {groupId records : Nat} {group : TemplateGroup}
    (h : group ∈ countLayout groups groupId records) :
    ∃ old ∈ groups, group.representative = old.representative ∧
      group.templateId = old.templateId := by
  rcases mem_iff_getElem?.mp h with ⟨id, hid⟩
  unfold countLayout at hid
  rw [getElem?_modify] at hid
  rcases Option.map_eq_some_iff.mp hid with ⟨old, hold, heq⟩
  refine ⟨old, mem_of_getElem? hold, ?_⟩
  split at heq <;> simp [← heq]

/-- The literals of the representative of a group. -/
def HasLiterals (layouts : List ParsedMessage) (group : TemplateGroup)
    (literals : List Bytes) : Prop :=
  ∃ representative, layouts[group.representative]? = some representative ∧
    representative.literalBytes = literals

/-- The group of a layout, in a list of groups. -/
def InGroup (layouts : List ParsedMessage) (groups : List TemplateGroup) (message : ParsedMessage)
    (groupId : Option Nat) : Prop :=
  ∃ id group, groupId = some id ∧ groups[id]? = some group ∧
    HasLiterals layouts group message.literalBytes

/-- Every layout seen so far belongs to a group with its literals, and no group
has a template yet. -/
structure GroupsFor (layouts processed : List ParsedMessage) (state : TemplateGroups) : Prop where
  assigned : List.Forall₂ (InGroup layouts state.groups) processed state.layoutGroups
  groups : ∀ group ∈ state.groups, group.templateId = none ∧
    ∃ representative, layouts[group.representative]? = some representative

/-- Counting keeps groups. -/
theorem InGroup.countLayout {groupId : Option Nat} (h : InGroup layouts groups message groupId)
    (counted records : Nat) :
    InGroup layouts (countLayout groups counted records) message groupId := by
  rcases h with ⟨id, group, hid, hgroup, representative, hrep, hliterals⟩
  rcases @countLayout_getElem? groups counted records id group hgroup with
    ⟨group', hgroup', hrep', _⟩
  exact ⟨id, group', hid, hgroup', representative, by rwa [hrep'], hliterals⟩

theorem InGroup.append {groupId : Option Nat} (h : InGroup layouts groups message groupId)
    (group : TemplateGroup) : InGroup layouts (groups ++ [group]) message groupId := by
  rcases h with ⟨id, other, hid, hgroup, hliterals⟩
  have hlt := (List.getElem?_eq_some_iff.mp hgroup).1
  exact ⟨id, other, hid, by rwa [getElem?_append_left hlt], hliterals⟩

/-- One iteration: an existing group was compared with the layout, a new one is represented by it.
-/
theorem GroupsFor.addLayout {processed rest : List ParsedMessage} {state : TemplateGroups}
    (hsplit : messages.layouts = processed ++ message :: rest)
    (h : GroupsFor messages.layouts processed state) :
    GroupsFor messages.layouts (processed ++ [message])
      (state.addLayout messages processed.length message) := by
  unfold TemplateGroups.addLayout
  dsimp only
  split
  · rename_i groupId hfind
    have hfound : InGroup messages.layouts state.groups message (some groupId) := by
      have hsome := find?_some hfind
      rw [Option.any_eq_true] at hsome
      rcases hsome with ⟨representative, hrep, hsame⟩
      rcases Option.bind_eq_some_iff.mp hrep with ⟨group, hgroup, hrep⟩
      exact ⟨groupId, group, rfl, hgroup, representative, hrep, sameTemplate_iff.mp hsame⟩
    refine ⟨?_, ?_⟩
    · refine rel_append (h.assigned.imp fun _ _ hold => hold.countLayout _ _) ?_
      exact .cons (hfound.countLayout _ _) .nil
    · intro group hgroup
      rcases mem_countLayout hgroup with ⟨old, hold, hrep, htemplate⟩
      rw [hrep, htemplate]
      exact h.groups old hold
  · have hself : messages.layouts[processed.length]? = some message := by simp [hsplit]
    have hnew : InGroup messages.layouts (state.groups ++ [⟨processed.length, 0, none⟩]) message
        (some state.groups.length) :=
      ⟨state.groups.length, ⟨processed.length, 0, none⟩, rfl, by simp, message, hself, rfl⟩
    refine ⟨?_, ?_⟩
    · refine rel_append (h.assigned.imp fun _ _ hold => (InGroup.append hold _).countLayout _ _) ?_
      exact .cons (hnew.countLayout _ _) .nil
    · intro group hgroup
      rcases mem_countLayout hgroup with ⟨old, hold, hrep, htemplate⟩
      rw [hrep, htemplate]
      rcases mem_append.mp hold with hprior | hlast
      · exact h.groups old hprior
      · grind

/-- All iterations. -/
theorem groupLayouts_spec {rest processed : List ParsedMessage}
    {state : TemplateGroups} (hsplit : messages.layouts = processed ++ rest)
    (h : GroupsFor messages.layouts processed state) :
    GroupsFor messages.layouts messages.layouts
      (groupLayouts messages rest processed.length state) := by
  induction rest generalizing processed state with
  | nil =>
    rw [append_nil] at hsplit
    rw [groupLayouts]
    rw [hsplit] at h ⊢
    exact h
  | cons message rest ih =>
    have hnext := h.addLayout hsplit
    have hassoc : messages.layouts = processed ++ [message] ++ rest := by simp [hsplit]
    have hlength : processed.length + 1 = (processed ++ [message]).length := by simp
    rw [groupLayouts, hlength]
    exact ih hassoc hnext

/-! ## What template selection guarantees -/

/-- Assigning template ids appends the literals of every chosen group. -/
theorem assignTemplateIds_spec {entries : List TemplateEntry}
    (hgroups : ∀ group ∈ groups, group.templateId = none ∧ ∃ representative,
      layouts[group.representative]? = some representative) :
    entries <+: (assignTemplateIds layouts groups entries).1 ∧
    (∀ entry ∈ (assignTemplateIds layouts groups entries).1,
      entry ∈ entries ∨ ∃ layout ∈ layouts, entry = layout.literalBytes) ∧
    ∀ (id : Nat) (group : TemplateGroup) (literals : List Bytes) (template : Nat),
      groups[id]? = some group → HasLiterals layouts group literals →
      ((assignTemplateIds layouts groups entries).2[id]?.bind TemplateGroup.templateId) =
        some template →
      (assignTemplateIds layouts groups entries).1[template]? = some literals := by
  induction groups generalizing entries with
  | nil => exact ⟨prefix_rfl, fun entry h => .inl h, by simp⟩
  | cons group groups ih =>
    rcases hgroups group mem_cons_self with ⟨hnone, representative, hrep⟩
    have hrest : ∀ other ∈ groups, other.templateId = none ∧
        ∃ representative, layouts[other.representative]? = some representative :=
      fun other hother => hgroups other (mem_cons_of_mem _ hother)
    unfold assignTemplateIds
    split
    · grind
    · simp only [hrep, Option.map_some, Option.getD_some]
      rcases @ih (entries ++ [representative.literalBytes]) hrest with
        ⟨hinitial, hentries, htemplates⟩
      refine ⟨(prefix_append entries _).trans hinitial, ?_, ?_⟩
      · grind
      · intro id other literals template hid hliterals htemplate
        cases id with
        | zero =>
          obtain rfl : group = other := by simpa using hid
          obtain rfl : entries.length = template := by simpa using htemplate
          rcases hliterals with ⟨other, hother, rfl⟩
          obtain rfl : representative = other := by simpa [hrep] using hother
          rcases hinitial with ⟨tail, htail⟩
          rw [← htail]
          simp
        | succ id => grind

/-- A layout with a template has the literals of that template, and every
template is the literals of some layout. -/
theorem selectTemplates_spec {templateIds : List (Option Nat)}
    (h : selectTemplates messages = .ok (templates, templateIds)) :
    Forall₂ (fun layout templateId => ∀ id, templateId = some id →
        templates[id]? = some layout.literalBytes) messages.layouts templateIds ∧
      (∀ template ∈ templates, ∃ layout ∈ messages.layouts, template = layout.literalBytes) ∧
      templates.length < 2 ^ 32 := by
  rcases bind_eq_ok_iff.mp h with ⟨_, hfits, h⟩
  rw [ensure_eq_ok_iff] at hfits
  cases h
  have hgroups : GroupsFor messages.layouts messages.layouts
      (groupLayouts messages messages.layouts 0 TemplateGroups.empty) :=
    @groupLayouts_spec messages messages.layouts [] _ rfl ⟨.nil, by simp [TemplateGroups.empty]⟩
  rcases @assignTemplateIds_spec _ _ [] hgroups.groups with ⟨_, hentries, htemplates⟩
  refine ⟨?_, ?_, by omega⟩
  · rw [forall₂_map_right_iff]
    refine hgroups.assigned.imp ?_
    rintro layout groupId ⟨id, group, rfl, hgroup, hliterals⟩ template htemplate
    exact htemplates id group _ template hgroup hliterals (by simpa using htemplate)
  · grind

/-! ## The template section -/

def encodeTemplate (template : TemplateEntry) : LogDbResult Bytes := do
  let count ← writeCount template.length
  let literals ← encodeAll appendBytes template
  .ok (count ++ literals)

def encodeTemplates (templates : List TemplateEntry) : LogDbResult Bytes := do
  let count ← writeCount templates.length
  let entries ← encodeAll encodeTemplate templates
  .ok (count ++ entries)

def readTemplate : BlockReader TemplateEntry := do
  let literalCount ← readUsize
  require (literalCount != 0) (invalid "template has no literals")
  ensureCountWithin literalCount "template literal count"
  readMany readBytes literalCount

def readTemplates : BlockReader (List TemplateEntry) := do
  let count ← readUsize
  ensureCountWithin count "template count"
  readMany readTemplate count

def decodeTemplates (encoded : Bytes) : LogDbResult (List TemplateEntry) :=
  readComponent readTemplates encoded

/-- A template is read back. -/
theorem reads_readTemplate {template : TemplateEntry} (hne : template ≠ [])
    (h : encodeTemplate template = .ok bytes) : Reads readTemplate bytes template := by
  rcases bind_eq_ok_iff.mp h with ⟨count, hcount, h⟩
  rcases bind_eq_ok_iff.mp h with ⟨literals, hliterals, h⟩
  cases h
  have hread : Reads (readMany readBytes template.length) literals template := by
    simpa using Reads.readMany_encodeAll id
      (fun literal _ bytes hbytes => reads_readBytes hbytes) hliterals
  refine (reads_readUsize_of_writeCount hcount).bind ?_
  refine Reads.require_bind (by simpa using hne) ?_
  exact hread.requireRemaining_bind
    (length_le_of_encodeAll (fun literal _ bytes => appendBytes_ne_nil) hliterals)

/-- The template section round-trips when every template has a literal. -/
theorem decodeTemplates_encodeTemplates (hne : ∀ template ∈ templates, template ≠ [])
    (h : encodeTemplates templates = .ok bytes) :
    decodeTemplates bytes = .ok templates := by
  rcases bind_eq_ok_iff.mp h with ⟨count, hcount, h⟩
  rcases bind_eq_ok_iff.mp h with ⟨entries, hentries, h⟩
  cases h
  have hentry : ∀ template ∈ templates, ∀ bytes, encodeTemplate template = .ok bytes →
      Reads readTemplate bytes template :=
    fun template hmem _ hbytes => reads_readTemplate (hne template hmem) hbytes
  have hread : Reads (readMany readTemplate templates.length) entries templates := by
    simpa using Reads.readMany_encodeAll id hentry hentries
  apply readComponent_of_reads
  refine (reads_readUsize_of_writeCount hcount).bind ?_
  exact hread.requireRemaining_bind (length_le_of_encodeAll
    (fun template hmem bytes hbytes => (hentry template hmem bytes hbytes).ne_nil rfl) hentries)

end ShardLog.Structural
