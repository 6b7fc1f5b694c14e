import ShardLog.Foundation.AssocMap
import ShardLog.Foundation.Sorted
import ShardLog.Types

/-!
# Loki - Delete requests

The catalog of logical delete requests: creating, canceling and replacing the
requests of a tenant.  Writing the catalog to disk is a parameter that may refuse.

Main results:

- Theorem `Catalogued.unique`: while no replicated ID is the largest number, the IDs of
  a tenant are distinct and a new ID is new.
-/

namespace ShardLog.Loki

open ByteReader Utf8 AssocMap Sorted List

/-! ## Hexadecimal numbers -/

def hexValue (digit : Char) : Option Nat :=
  if '0' ≤ digit ∧ digit ≤ '9' then some (digit.toNat - '0'.toNat)
  else if 'a' ≤ digit ∧ digit ≤ 'f' then some (digit.toNat - 'a'.toNat + 10)
  else if 'A' ≤ digit ∧ digit ≤ 'F' then some (digit.toNat - 'A'.toNat + 10)
  else none

/-- One more digit of a 64-bit number. -/
def pushHexDigit (value : Nat) (digit : Char) : Option Nat :=
  (hexValue digit).bind fun digit =>
    if value * 16 + digit < 2 ^ 64 then some (value * 16 + digit) else none

/-- `u64::from_str_radix` with radix 16: an optional plus sign and digits. -/
def parseHex (text : Str) : Option Nat :=
  let digits := if text.head? = some '+' then text.tail else text
  if digits = [] then none else digits.foldlM pushHexDigit 0

def lowerHexDigit (digit : Nat) : Char :=
  if digit < 10 then Char.ofNat ('0'.toNat + digit) else Char.ofNat ('a'.toNat + (digit - 10))

/-- A number in lower-case digits, filled with zeros to a width. -/
def lowerHex : Nat → Nat → Str
  | 0, _ => []
  | width + 1, value => lowerHex width (value / 16) ++ [lowerHexDigit (value % 16)]

/-- Digits are read back. -/
theorem hexValue_lowerHexDigit {digit : Nat} (h : digit < 16) :
    hexValue (lowerHexDigit digit) = some digit :=
  (by decide : ∀ digit < 16, hexValue (lowerHexDigit digit) = some digit) digit h

theorem length_lowerHex (width value : Nat) : (lowerHex width value).length = width := by
  induction width generalizing value with
  | zero => rfl
  | succ width ih => simp [lowerHex, ih]

variable {width value : Nat}

theorem isSome_hexValue_of_mem {digit : Char} (h : digit ∈ lowerHex width value) :
    (hexValue digit).isSome := by
  induction width generalizing value with
  | zero => simp [lowerHex] at h
  | succ width ih =>
    rcases mem_append.mp h with hearlier | hlast
    · exact ih hearlier
    · rw [mem_singleton.mp hlast, hexValue_lowerHexDigit (Nat.mod_lt _ (by decide))]
      rfl

theorem foldlM_lowerHex (hwidth : value < 16 ^ width) (hvalue : value < 2 ^ 64) :
    (lowerHex width value).foldlM pushHexDigit 0 = some value := by
  induction width generalizing value with
  | zero => simp_all [lowerHex]
  | succ width ih =>
    have hquotient : value / 16 < 16 ^ width := by
      rw [Nat.div_lt_iff_lt_mul (by decide), ← Nat.pow_succ]
      exact hwidth
    have hparts : value / 16 * 16 + value % 16 = value := by omega
    rw [lowerHex, foldlM_append, ih hquotient (by omega)]
    simpa [pushHexDigit, hexValue_lowerHexDigit (Nat.mod_lt value (by decide : 0 < 16)), hparts]
      using hvalue

/-- An ID is read back as its number. -/
theorem parseHex_lowerHex (h : value < 2 ^ 64) : parseHex (lowerHex 16 value) = some value := by
  have hsign : (lowerHex 16 value).head? ≠ some '+' := fun hplus =>
    absurd (isSome_hexValue_of_mem (mem_of_head? hplus)) (by decide)
  have hdigits : lowerHex 16 value ≠ [] := by
    rw [← length_pos_iff, length_lowerHex]
    decide
  rw [parseHex, if_neg hsign, if_neg hdigits]
  exact foldlM_lowerHex h h

theorem foldlM_pushHexDigit_lt {digits : List Char} {start : Nat} (hstart : start < 2 ^ 64)
    (h : digits.foldlM pushHexDigit start = some value) : value < 2 ^ 64 := by
  induction digits generalizing start with
  | nil =>
    cases h
    exact hstart
  | cons digit rest ih =>
    obtain ⟨next, hnext, hrest⟩ := Option.bind_eq_some_iff.mp h
    obtain ⟨_, _, hpushed⟩ := Option.bind_eq_some_iff.mp hnext
    split at hpushed
    · cases hpushed
      exact ih ‹_› hrest
    · cases hpushed

/-- IDs are 64-bit numbers. -/
theorem parseHex_lt {text : Str} (h : parseHex text = some value) : value < 2 ^ 64 := by
  rw [parseHex] at h
  generalize (if text.head? = some '+' then text.tail else text) = digits at h
  split at h
  · cases h
  · exact foldlM_pushHexDigit_lt (by decide) h

/-! ## The catalog -/

inductive LokiApiError where
  | badRequest (message : String)
  | internal (message : String)
deriving DecidableEq, Repr

abbrev LokiResult := Except LokiApiError

/-- One logical deletion request. -/
structure DeleteRequest where
  requestId : Str
  startTime : Int
  endTime : Int
  query : Str
  status : Str
  createdAt : Int
deriving DecidableEq, Repr

structure DeleteState where
  nextRequestId : Nat := 1
  tenants : List (Str × List DeleteRequest) := []
deriving DecidableEq, Repr

namespace DeleteState

variable (persist : DeleteState → LokiResult Unit) (state : DeleteState)

def list (tenant : Str) : List DeleteRequest := (get state.tenants tenant).getD []

def create (tenant : Str) (startTime endTime : Int) (query : Str) (createdAt : Int) :
    LokiResult (Str × DeleteState) :=
  if startTime > endTime then
    .error (.badRequest "delete start timestamp must not exceed end timestamp")
  else if state.nextRequestId + 1 < 2 ^ 64 then do
    let requestId := lowerHex 16 state.nextRequestId
    let next : DeleteState :=
      { nextRequestId := state.nextRequestId + 1
        tenants := update state.tenants tenant [] fun requests =>
          requests ++ [⟨requestId, startTime, endTime, query, "received".toList, createdAt⟩] }
    persist next
    .ok (requestId, next)
  else .error (.internal "delete request ID space exhausted")

def cancel (tenant requestId : Str) : LokiResult (Bool × DeleteState) :=
  match get state.tenants tenant with
  | none => .ok (false, state)
  | some requests =>
    let kept := requests.filter fun request => request.requestId ≠ requestId
    if kept.length = requests.length then .ok (false, state)
    else do
      let next := { state with
        tenants :=
          if kept = [] then erase state.tenants tenant else insert state.tenants tenant kept }
      persist next
      .ok (true, next)

end DeleteState

open DeleteState

/-- Some ID stands twice in a row. -/
def hasEqualNeighbours : List Str → Bool
  | first :: second :: rest => first == second || hasEqualNeighbours (second :: rest)
  | _ => false

def DeleteRequest.isInvalid (request : DeleteRequest) : Bool :=
  request.requestId.isEmpty || decide (request.startTime > request.endTime) ||
    !(request.status == "received".toList || request.status == "canceled".toList)

/-- The number behind the largest parsed ID, 1 when there is none in 64 bits. -/
def nextAfter (requests : List DeleteRequest) : Nat :=
  ((requests.filterMap fun request => parseHex request.requestId).max?.bind fun maximum =>
    if maximum + 1 < 2 ^ 64 then some (maximum + 1) else none).getD 1

def DeleteState.replaceTenant (persist : DeleteState → LokiResult Unit) (state : DeleteState)
    (tenant : Str) (requests : List DeleteRequest) : LokiResult DeleteState :=
  let requests := sortBy DeleteRequest.requestId requests
  if tenant = [] then .error (.badRequest "delete tenant must not be empty")
  else if requests.any DeleteRequest.isInvalid ||
      hasEqualNeighbours (requests.map DeleteRequest.requestId) then
    .error (.badRequest "replicated delete requests are invalid or duplicated")
  else do
    let next : DeleteState :=
      { nextRequestId := max state.nextRequestId (nextAfter requests)
        tenants :=
          if requests = [] then erase state.tenants tenant
          else insert state.tenants tenant requests }
    persist next
    .ok next

/-! ## Runs -/

/-- One call on the catalog. -/
inductive DeleteCall where
  | create (tenant : Str) (startTime endTime : Int) (query : Str) (createdAt : Int)
  | cancel (tenant requestId : Str)
  | replaceTenant (tenant : Str) (requests : List DeleteRequest)

/-- The catalog after a call; a refused one leaves it unchanged. -/
def DeleteCall.apply (persist : DeleteState → LokiResult Unit) (state : DeleteState) :
    DeleteCall → DeleteState
  | .create tenant startTime endTime query createdAt =>
    ((state.create persist tenant startTime endTime query createdAt).map Prod.snd).toOption.getD
      state
  | .cancel tenant requestId =>
    ((state.cancel persist tenant requestId).map Prod.snd).toOption.getD state
  | .replaceTenant tenant requests =>
    (state.replaceTenant persist tenant requests).toOption.getD state

/-- No replicated ID is the largest 64-bit number. -/
def DeleteCall.Bounded : DeleteCall → Prop
  | .replaceTenant _ requests => ∀ request ∈ requests, parseHex request.requestId ≠ some (2 ^ 64 - 1)
  | _ => True

/-- The catalogs that calls of a kind reach from the empty one. -/
inductive Catalogued (allowed : DeleteCall → Prop) : DeleteState → Prop
  | empty : Catalogued allowed {}
  | call {state : DeleteState} (persist : DeleteState → LokiResult Unit) (call : DeleteCall) :
      Catalogued allowed state → allowed call → Catalogued allowed (call.apply persist state)

/-- IDs of the requests of a tenant. -/
def DeleteState.ids (state : DeleteState) (tenant : Str) : List Str :=
  (state.list tenant).map DeleteRequest.requestId

/-- The IDs of a tenant are distinct, and the counter is beyond all numbers among them. -/
structure DeleteState.Numbered (state : DeleteState) : Prop where
  nodup : ∀ tenant, (state.ids tenant).Nodup
  below : ∀ tenant, ∀ id ∈ state.ids tenant, ∀ value, parseHex id = some value →
    value < state.nextRequestId
  fits : state.nextRequestId < 2 ^ 64

namespace DeleteState

variable {persist : DeleteState → LokiResult Unit} {state next : DeleteState}
  {tenant requestId query : Str} {startTime endTime createdAt : Int}

/-- The requests of one tenant are replaced; without requests the tenant is removed. -/
theorem list_put (tenants : List (Str × List DeleteRequest)) (tenant other : Str)
    (nextRequestId : Nat) (requests : List DeleteRequest) :
    list ⟨nextRequestId, if requests = [] then erase tenants tenant
        else insert tenants tenant requests⟩ other =
      if other = tenant then requests else list ⟨nextRequestId, tenants⟩ other := by
  unfold list
  split
  · rename_i hnone
    rw [get_erase]
    split <;> simp [hnone]
  · rw [get_insert]
    split <;> rfl

/-- A new ID stands behind the others of its tenant. -/
theorem create_eq_ok
    (h : state.create persist tenant startTime endTime query createdAt = .ok (requestId, next)) :
    state.nextRequestId + 1 < 2 ^ 64 ∧ requestId = lowerHex 16 state.nextRequestId ∧
      next.nextRequestId = state.nextRequestId + 1 ∧
      ∀ other, next.ids other = state.ids other ++ if other = tenant then [requestId] else [] := by
  unfold create at h
  split at h
  · cases h
  split at h
  · rename_i hfits
    obtain ⟨_, _, hok⟩ := bind_eq_ok_iff.mp h
    have hresult := Prod.mk.inj (Except.ok.inj hok)
    rw [← hresult.1, ← hresult.2]
    refine ⟨hfits, rfl, rfl, fun other => ?_⟩
    rw [ids, list, get_update]
    split
    · rename_i heq
      simp [ids, heq, list]
    · simp [ids, list]
  · cases h

/-- A request is canceled, or there is none with the ID. -/
theorem cancel_eq_ok {removed : Bool}
    (h : state.cancel persist tenant requestId = .ok (removed, next)) :
    removed = false ∧ next = state ∨
    removed = true ∧ next.nextRequestId = state.nextRequestId ∧
      (∃ request ∈ state.list tenant, request.requestId = requestId) ∧
      ∀ other, next.list other = if other = tenant then
        (state.list tenant).filter fun request => request.requestId ≠ requestId
        else state.list other := by
  unfold cancel at h
  split at h
  · cases h
    exact Or.inl ⟨rfl, rfl⟩
  · rename_i requests hrequests
    have hlist : state.list tenant = requests := by simp [list, hrequests]
    dsimp only at h
    split at h
    · cases h
      exact Or.inl ⟨rfl, rfl⟩
    · rename_i hlength
      obtain ⟨_, _, hnext⟩ := bind_eq_ok_iff.mp h
      cases hnext
      refine Or.inr ⟨rfl, rfl, ?_, fun other => ?_⟩
      · by_contra hnone
        rw [hlist] at hnone
        exact hlength (congrArg _ (filter_eq_self.mpr (by simpa using hnone)))
      · rw [list_put, hlist]

end DeleteState

/-- Sorted IDs without equal neighbours are distinct. -/
theorem nodup_of_not_hasEqualNeighbours {ids : List Str} (hsorted : ids.Pairwise (· ≤ ·))
    (h : hasEqualNeighbours ids = false) : ids.Nodup := by
  suffices ids.Pairwise (· < ·) from this.imp ne_of_lt
  induction ids using hasEqualNeighbours.induct with
  | case1 first second rest ih =>
    simp only [hasEqualNeighbours, Bool.or_eq_false_iff, beq_eq_false_iff_ne] at h
    have hrest := ih hsorted.tail h.2
    have hlt : first < second := lt_of_le_of_ne (rel_of_pairwise_cons hsorted (by simp)) h.1
    exact hrest.cons_cons_of_trans hlt
  | case2 ids hshort =>
    match ids, hshort with
    | [], _ => exact Pairwise.nil
    | [_], _ => exact pairwise_singleton _ _
    | first :: second :: rest, hshort => exact absurd rfl (hshort first second rest)

theorem nextAfter_lt (requests : List DeleteRequest) : nextAfter requests < 2 ^ 64 := by
  unfold nextAfter
  cases (requests.filterMap fun request => parseHex request.requestId).max? with
  | none => decide
  | some maximum =>
    rw [Option.bind_some]
    split
    · assumption
    · decide

/-- Without the largest number, the counter passes all parsed IDs. -/
theorem lt_nextAfter {requests : List DeleteRequest} {request : DeleteRequest}
    (hbounded : ∀ request ∈ requests, parseHex request.requestId ≠ some (2 ^ 64 - 1))
    (hrequest : request ∈ requests) (hvalue : parseHex request.requestId = some value) :
    value < nextAfter requests := by
  have hmem : value ∈ requests.filterMap fun request => parseHex request.requestId :=
    mem_filterMap.mpr ⟨request, hrequest, hvalue⟩
  unfold nextAfter
  cases hmax : (requests.filterMap fun request => parseHex request.requestId).max? with
  | none => simp [max?_eq_none_iff.mp hmax] at hmem
  | some maximum =>
    obtain ⟨hlargest, hle⟩ := max?_eq_some_iff.mp hmax
    obtain ⟨largest, hin, hparsed⟩ := mem_filterMap.mp hlargest
    have hlt := parseHex_lt hparsed
    have hne : maximum ≠ 2 ^ 64 - 1 := fun heq => hbounded largest hin (heq ▸ hparsed)
    have hfits : maximum + 1 < 2 ^ 64 := by omega
    rw [Option.bind_some, if_pos hfits, Option.getD_some]
    exact Nat.lt_succ_of_le (hle value hmem)

namespace DeleteState

variable {persist : DeleteState → LokiResult Unit} {state next : DeleteState}
  {tenant requestId query : Str} {startTime endTime createdAt : Int}

section

variable (h : state.Numbered)

include h

/-- A new ID is not taken. -/
theorem Numbered.not_mem_of_create
    (hcreate : state.create persist tenant startTime endTime query createdAt =
      .ok (requestId, next)) : requestId ∉ state.ids tenant := by
  intro hmem
  rw [(create_eq_ok hcreate).2.1] at hmem
  exact Nat.lt_irrefl _ (h.below tenant _ hmem _ (parseHex_lowerHex h.fits))

/-- Creation keeps the numbering. -/
theorem Numbered.create (hcreate : state.create persist tenant startTime endTime query createdAt =
      .ok (requestId, next)) : next.Numbered := by
  have hnew := h.not_mem_of_create hcreate
  obtain ⟨hfits, hid, hcounter, hids⟩ := create_eq_ok hcreate
  refine ⟨fun other => ?_, fun other id hmem value hvalue => ?_, hcounter ▸ hfits⟩
  · rw [hids]
    split
    · rename_i heq
      subst heq
      exact (h.nodup other).append (nodup_singleton _) (disjoint_singleton.mpr hnew)
    · simpa using h.nodup other
  · rw [hids] at hmem
    rw [hcounter]
    rcases mem_append.mp hmem with hold | hlast
    · exact Nat.lt_succ_of_lt (h.below other id hold value hvalue)
    · split at hlast
      · rw [mem_singleton.mp hlast, hid, parseHex_lowerHex h.fits] at hvalue
        cases hvalue
        exact Nat.lt_succ_self _
      · cases hlast

/-- Cancellation keeps the numbering. -/
theorem Numbered.cancel {removed : Bool}
    (hcancel : state.cancel persist tenant requestId = .ok (removed, next)) : next.Numbered := by
  rcases cancel_eq_ok hcancel with ⟨_, rfl⟩ | ⟨_, hcounter, _, hlist⟩
  · exact h
  have hsublist : ∀ other, (next.ids other).Sublist (state.ids other) := by
    intro other
    rw [ids, hlist]
    split
    · rename_i heq
      subst heq
      exact (filter_sublist).map _
    · exact Sublist.refl _
  refine ⟨fun other => (h.nodup other).sublist (hsublist other), fun other id hmem => ?_,
    hcounter ▸ h.fits⟩
  rw [hcounter]
  exact h.below other id ((hsublist other).subset hmem)

/-- Replication keeps the numbering, short of the largest ID. -/
theorem Numbered.replaceTenant {requests : List DeleteRequest}
    (hbounded : ∀ request ∈ requests, parseHex request.requestId ≠ some (2 ^ 64 - 1))
    (hreplace : state.replaceTenant persist tenant requests = .ok next) : next.Numbered := by
  unfold DeleteState.replaceTenant at hreplace
  dsimp only at hreplace
  split at hreplace
  · cases hreplace
  split at hreplace
  · cases hreplace
  rename_i hvalid
  obtain ⟨_, _, hnext⟩ := bind_eq_ok_iff.mp hreplace
  cases hnext
  simp only [Bool.or_eq_true, not_or, Bool.not_eq_true] at hvalid
  have hdistinct : ((sortBy DeleteRequest.requestId requests).map DeleteRequest.requestId).Nodup :=
    nodup_of_not_hasEqualNeighbours (pairwise_map.mpr (pairwise_sortBy _ _)) hvalid.2
  have hsorted : ∀ request ∈ sortBy DeleteRequest.requestId requests,
      parseHex request.requestId ≠ some (2 ^ 64 - 1) :=
    fun request hrequest => hbounded request (mem_sortBy.mp hrequest)
  refine ⟨fun other => ?_, fun other id hmem value hvalue => ?_, max_lt h.fits (nextAfter_lt _)⟩
  · rw [ids, list_put]
    split
    · exact hdistinct
    · exact h.nodup other
  · rw [ids, list_put] at hmem
    split at hmem
    · obtain ⟨request, hrequest, rfl⟩ := mem_map.mp hmem
      exact (lt_nextAfter hsorted hrequest hvalue).trans_le (le_max_right _ _)
    · exact (h.below other id hmem value hvalue).trans_le (le_max_left _ _)

end

end DeleteState

/-- The numbering holds over a run. -/
theorem Catalogued.numbered {state : DeleteState} (h : Catalogued DeleteCall.Bounded state) :
    state.Numbered := by
  induction h with
  | empty =>
    refine ⟨fun _ => nodup_nil, fun tenant id hmem => ?_, by decide⟩
    simp [ids, list] at hmem
  | @call state persist call _ hallowed ih =>
    cases call with
    | create tenant startTime endTime query createdAt =>
      rw [DeleteCall.apply]
      cases hcreate : state.create persist tenant startTime endTime query createdAt with
      | error e => exact ih
      | ok created => exact ih.create hcreate
    | cancel tenant requestId =>
      rw [DeleteCall.apply]
      cases hcancel : state.cancel persist tenant requestId with
      | error e => exact ih
      | ok canceled => exact ih.cancel hcancel
    | replaceTenant tenant requests =>
      rw [DeleteCall.apply]
      cases hreplace : state.replaceTenant persist tenant requests with
      | error e => exact ih
      | ok next => exact ih.replaceTenant hallowed hreplace

/-- While the largest ID is not replicated, the IDs of a tenant are distinct, a new one is not among
them, and a cancellation removes one request. -/
theorem Catalogued.unique {state : DeleteState} (h : Catalogued DeleteCall.Bounded state)
    (persist : DeleteState → LokiResult Unit) (tenant : Str) :
    (state.ids tenant).Nodup ∧ (∀ startTime endTime query createdAt requestId next,
        state.create persist tenant startTime endTime query createdAt = .ok (requestId, next) →
        requestId ∉ state.ids tenant) ∧
      ∀ requestId next, state.cancel persist tenant requestId = .ok (true, next) →
        ∃ before request after, state.list tenant = before ++ request :: after ∧
          request.requestId = requestId ∧ next.list tenant = before ++ after := by
  have hnumbered := h.numbered
  refine ⟨hnumbered.nodup tenant, fun _ _ _ _ _ _ hcreate => hnumbered.not_mem_of_create hcreate,
    fun requestId next hcancel => ?_⟩
  rcases cancel_eq_ok hcancel with ⟨habsurd, _⟩ | ⟨_, _, ⟨request, hrequest, rfl⟩, hlist⟩
  · cases habsurd
  obtain ⟨before, after, hsplit⟩ := List.append_of_mem hrequest
  have hdistinct := hnumbered.nodup tenant
  rw [ids, hsplit] at hdistinct
  refine ⟨before, request, after, hsplit, rfl, ?_⟩
  rw [hlist, if_pos rfl, hsplit]
  simp only [List.map_append, List.map_cons, List.nodup_append, List.nodup_cons] at hdistinct
  have hbefore : ∀ other ∈ before, other.requestId ≠ request.requestId := fun other hother =>
    hdistinct.2.2 _ (List.mem_map_of_mem hother) _ List.mem_cons_self
  have hafter : ∀ other ∈ after, other.requestId ≠ request.requestId := fun other hother heq =>
    hdistinct.2.1.1 (heq ▸ List.mem_map_of_mem hother)
  rw [List.filter_append, List.filter_cons_of_neg (by simp),
    List.filter_eq_self.mpr (by simpa using hbefore),
    List.filter_eq_self.mpr (by simpa using hafter)]

/-- The requests of a replicated tenant, by their IDs. -/
def sampleRequests (ids : List String) : List DeleteRequest :=
  ids.map fun id => ⟨id.toList, 0, 1, [], "received".toList, 0⟩

/-- After a replicated ID 9, the next ID is not among the IDs. -/
theorem Catalogued.unique_after_nine :
    let state := (DeleteCall.replaceTenant ['t'] (sampleRequests ["0000000000000009"])).apply
      (fun _ => .ok ()) {}
    ∃ next, state.create (fun _ => .ok ()) ['t'] 0 1 [] 0 = .ok (lowerHex 16 10, next) ∧
      lowerHex 16 10 ∉ state.ids ['t'] := by
  intro state
  have hbounded : ∀ request ∈ sampleRequests ["0000000000000009"],
      parseHex request.requestId ≠ some (2 ^ 64 - 1) := by decide
  have hreached : Catalogued DeleteCall.Bounded state := .call _ _ .empty hbounded
  have hcounter : state.nextRequestId = 10 := by decide
  have hcreate : state.create (fun _ => .ok ()) ['t'] 0 1 [] 0 =
      .ok (lowerHex 16 10, ⟨11, update state.tenants ['t'] [] fun requests =>
        requests ++ [⟨lowerHex 16 10, 0, 1, [], "received".toList, 0⟩]⟩) := by
    rw [create, hcounter]
    rfl
  exact ⟨_, hcreate, (Catalogued.unique hreached _ ['t']).2.1 0 1 [] 0 _ _ hcreate⟩

/-- With the largest ID replicated beside the first one, the first is given again, and a
cancellation removes both requests. -/
theorem create_repeats_replicated_id :
    let state := (DeleteCall.replaceTenant ['t'] (sampleRequests
      ["0000000000000001", "ffffffffffffffff"])).apply (fun _ => .ok ()) {}
    let next := (DeleteCall.create ['t'] 0 1 [] 0).apply (fun _ => .ok ()) state
    (state.create (fun _ => .ok ()) ['t'] 0 1 [] 0).map Prod.fst = .ok "0000000000000001".toList ∧
      "0000000000000001".toList ∈ state.ids ['t'] ∧ ¬ (next.ids ['t']).Nodup ∧
      (((DeleteCall.cancel ['t'] "0000000000000001".toList).apply (fun _ => .ok ()) next).list
        ['t']).length + 2 = (next.list ['t']).length := by
  decide

end ShardLog.Loki
