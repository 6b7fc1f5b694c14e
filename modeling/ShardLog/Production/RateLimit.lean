import Mathlib.Algebra.GroupWithZero.Nat
import Mathlib.Algebra.Order.Ring.Nat
import ShardLog.Production.Lifecycle

/-!
# Production runtime - Rate and concurrency of ingestion

Credit is kept as whole tokens and a remainder in billionths, and it is refilled from the
time that has passed since the last refill.

Main results:

- Theorem `tryAcquire_conforms`: the bytes admitted in a window, and when a call is admitted.
- Theorem `run_spends_permitted`: unless bytes are granted to a call without a permit, the
  credit of a run is that of a limiter which sees the permitted calls only.
-/

namespace ShardLog.Production

open List

/-- The nanoseconds of a second. -/
def second : Nat := 1000000000

structure RateState where
  tokens : Nat
  remainder : Nat
  updated : Nat
deriving DecidableEq, Repr

/-- What a state holds, in billionths of a byte. -/
def RateState.worth (state : RateState) : Nat := state.tokens * second + state.remainder

structure IngestRateLimiter where
  bytesPerSecond : UInt64
  burstBytes : UInt64
  state : RateState
deriving DecidableEq, Repr

namespace IngestRateLimiter

def new (bytesPerSecond burstBytes : UInt64) (now : Nat) : IngestRateLimiter :=
  ⟨bytesPerSecond, burstBytes, burstBytes.toNat, 0, now⟩

/-- The state after the time since its update has been credited. -/
def refill (limiter : IngestRateLimiter) (now : Nat) : RateState :=
  let elapsed := now - limiter.state.updated
  let generated := min (min (elapsed * limiter.bytesPerSecond.toNat) (2 ^ 128 - 1) +
    limiter.state.remainder) (2 ^ 128 - 1)
  let added := generated / second
  { tokens := min (min (limiter.state.tokens + min added (2 ^ 64 - 1)) (2 ^ 64 - 1))
      limiter.burstBytes.toNat
    remainder := generated % second
    updated := now }

/-- The refilled limiter without some of its tokens. -/
def spend (limiter : IngestRateLimiter) (now bytes : Nat) : IngestRateLimiter :=
  { limiter with
    state := { limiter.refill now with tokens := (limiter.refill now).tokens - bytes } }

/-- A length beyond `u64` exceeds every burst. -/
def tryAcquire (limiter : IngestRateLimiter) (now bytes : Nat) : Bool × IngestRateLimiter :=
  if limiter.bytesPerSecond = 0 then (true, limiter)
  else if limiter.burstBytes.toNat < bytes then (false, limiter)
  else if (limiter.refill now).tokens < bytes then (false, limiter.spend now 0)
  else (true, limiter.spend now bytes)

/-! ## One call -/

/-- What the limiter holds at a time, were the bucket unbounded. -/
def credit (limiter : IngestRateLimiter) (now : Nat) : Nat :=
  limiter.state.worth + limiter.bytesPerSecond.toNat * (now - limiter.state.updated)

variable {limiter : IngestRateLimiter} {time now bytes : Nat}

/-- Credit grows with time. -/
theorem credit_add (hclock : limiter.state.updated ≤ time) (htime : time ≤ now) :
    limiter.credit now = limiter.credit time + limiter.bytesPerSecond.toNat * (now - time) := by
  have hpassed : now - limiter.state.updated = time - limiter.state.updated + (now - time) := by
    omega
  rw [credit, credit, hpassed, Nat.mul_add, Nat.add_assoc]

/-- A refill fills the bucket, or it credits exactly the time that has passed. -/
theorem refill_spec (limiter : IngestRateLimiter) (now : Nat) :
    (limiter.refill now).tokens ≤ limiter.burstBytes.toNat ∧
    (limiter.refill now).remainder < second ∧ (limiter.refill now).worth ≤ limiter.credit now ∧
    ((limiter.refill now).tokens = limiter.burstBytes.toNat ∨
      (limiter.refill now).worth = limiter.credit now) := by
  have hburst := limiter.burstBytes.toNat_lt
  simp only [refill, RateState.worth, credit, second, Nat.mul_comm (now - _)]
  generalize limiter.bytesPerSecond.toNat * (now - limiter.state.updated) = generated
  omega

/-- A call is refused as too large, or it refills the bucket and takes its bytes if they
are there. -/
theorem tryAcquire_cases (hrate : limiter.bytesPerSecond ≠ 0) (now bytes : Nat) :
    (limiter.burstBytes.toNat < bytes ∧ limiter.tryAcquire now bytes = (false, limiter)) ∨
    ∃ accepted spent, limiter.tryAcquire now bytes = (accepted, limiter.spend now spent) ∧
      spent ≤ (limiter.refill now).tokens ∧ (accepted = true ∧ spent = bytes ∨
        accepted = false ∧ spent = 0 ∧ (limiter.refill now).tokens < bytes) := by
  rw [tryAcquire, if_neg hrate]
  split
  · exact .inl ⟨‹_›, rfl⟩
  · split
    · exact .inr ⟨_, _, rfl, Nat.zero_le _, .inr ⟨rfl, rfl, ‹_›⟩⟩
    · exact .inr ⟨_, _, rfl, Nat.not_lt.mp ‹_›, .inl ⟨rfl, rfl⟩⟩

/-- Enough tokens are spent. -/
theorem tryAcquire_of_le (hrate : limiter.bytesPerSecond ≠ 0)
    (henough : bytes ≤ (limiter.refill now).tokens) :
    limiter.tryAcquire now bytes = (true, limiter.spend now bytes) := by
  have hburst := henough.trans (limiter.refill_spec now).1
  rw [tryAcquire, if_neg hrate, if_neg (Nat.not_lt.mpr hburst), if_neg (Nat.not_lt.mpr henough)]

/-- Refilling in between makes no difference, as long as nothing saturates. -/
theorem refill_spend_zero (hremainder : limiter.state.remainder < second)
    (hclock : limiter.state.updated ≤ time) (htime : time ≤ now)
    (hfits : limiter.bytesPerSecond.toNat * (now - limiter.state.updated) + second ≤ 2 ^ 128) :
    (limiter.spend time 0).refill now = limiter.refill now := by
  obtain ⟨rate, burst, tokens, remainder, updated⟩ := limiter
  have hburst := burst.toNat_lt
  have hpassed : now - updated = time - updated + (now - time) := by
    simp only at hclock
    omega
  simp only [refill, spend, Nat.mul_comm _ rate.toNat, RateState.mk.injEq, and_true, second] at *
  rw [hpassed, Nat.mul_add] at hfits ⊢
  generalize rate.toNat * (time - updated) = early at *
  generalize rate.toNat * (now - time) = late at *
  have hcapped : ∀ tokens added, min (min (tokens + min added (2 ^ 64 - 1)) (2 ^ 64 - 1))
      burst.toNat = min (tokens + added) burst.toNat := by omega
  rw [hcapped, hcapped, hcapped]
  omega

/-! ## Sequences of calls -/

/-- The calls that are admitted, by time and length. -/
def admitted (limiter : IngestRateLimiter) : List (Nat × Nat) → List (Nat × Nat)
  | [] => []
  | call :: rest =>
    let next := limiter.tryAcquire call.1 call.2
    if next.1 then call :: next.2.admitted rest else next.2.admitted rest

/-- The limiter after some calls. -/
def after (limiter : IngestRateLimiter) (calls : List (Nat × Nat)) : IngestRateLimiter :=
  calls.foldl (fun limiter call => (limiter.tryAcquire call.1 call.2).2) limiter

/-- The bytes admitted from one time to another. -/
def bytesWithin (start stop : Nat) : List (Nat × Nat) → Nat
  | [] => 0
  | call :: rest =>
    (if start ≤ call.1 ∧ call.1 ≤ stop then call.2 else 0) + bytesWithin start stop rest

/-- The clock does not run backward. -/
abbrev Monotone (limiter : IngestRateLimiter) (calls : List (Nat × Nat)) : Prop :=
  (limiter.state.updated :: calls.map Prod.fst).Pairwise (· ≤ ·)

/-- Nothing is admitted after the window. -/
theorem bytesWithin_of_late {start stop : Nat} {calls : List (Nat × Nat)}
    (hrest : (now :: calls.map Prod.fst).Pairwise (· ≤ ·)) (hlate : stop < now) :
    ∀ limiter : IngestRateLimiter, bytesWithin start stop (limiter.admitted calls) = 0 := by
  induction calls with
  | nil => exact fun _ => rfl
  | cons call rest ih =>
    intro limiter
    have hcall : now ≤ call.1 := (pairwise_cons.mp hrest).1 _ mem_cons_self
    have hlater := ih (hrest.sublist (by simp)) (limiter.tryAcquire call.1 call.2).2
    rw [admitted]
    split
    · rw [bytesWithin, if_neg (by omega), hlater]
    · exact hlater

/-- From a refill within the window on, the credit until its end bounds the bytes; before
it, a full bucket does. -/
theorem bytesWithin_admitted_le {start stop : Nat} (calls : List (Nat × Nat))
    {limiter : IngestRateLimiter} (hrate : limiter.bytesPerSecond ≠ 0)
    (hmonotone : limiter.Monotone calls) :
    bytesWithin start stop (limiter.admitted calls) * second ≤
      if start ≤ limiter.state.updated then limiter.credit stop
      else limiter.burstBytes.toNat * second + (second - 1) +
        limiter.bytesPerSecond.toNat * (stop - start) := by
  induction calls generalizing limiter with
  | nil => simp [admitted, bytesWithin]
  | cons call rest ih =>
    obtain ⟨now, bytes⟩ := call
    have hclock : limiter.state.updated ≤ now := (pairwise_cons.mp hmonotone).1 now mem_cons_self
    have hrest := (pairwise_cons.mp hmonotone).2
    obtain ⟨htokens, hremainder, hworth, _⟩ := limiter.refill_spec now
    rw [admitted]
    rcases tryAcquire_cases hrate now bytes with ⟨_, hcall⟩ | ⟨accepted, spent, hcall, hspent, hcase⟩
    · rw [hcall]
      exact ih hrate (hmonotone.sublist (by simp))
    have htotal : bytesWithin start stop (if accepted then
          (now, bytes) :: (limiter.spend now spent).admitted rest
          else (limiter.spend now spent).admitted rest) =
        (if start ≤ now ∧ now ≤ stop then spent else 0) +
          bytesWithin start stop ((limiter.spend now spent).admitted rest) := by
      rcases hcase with ⟨rfl, rfl⟩ | ⟨rfl, rfl, _⟩
      · rfl
      · simp
    rw [hcall, htotal]
    by_cases hstop : stop < now
    · simp [bytesWithin_of_late hrest hstop, Nat.not_le.mpr hstop]
    have hlater := @ih (limiter.spend now spent) hrate hrest
    by_cases hstart : start ≤ now
    · have hbound : _ ≤ ((limiter.refill now).tokens - spent) * second +
          (limiter.refill now).remainder + limiter.bytesPerSecond.toNat * (stop - now) :=
        hlater.trans_eq (if_pos hstart)
      have hcredit := credit_add hclock (Nat.not_lt.mp hstop)
      have hshorter := Nat.mul_le_mul_left limiter.bytesPerSecond.toNat
        (Nat.sub_le_sub_left hstart stop)
      have hspent' := Nat.mul_le_mul_right second hspent
      have htokens' := Nat.mul_le_mul_right second htokens
      rw [if_pos ⟨hstart, Nat.not_lt.mp hstop⟩, Nat.add_mul]
      rw [Nat.sub_mul] at hbound
      rw [RateState.worth] at hworth
      clear hlater ih htotal
      generalize bytesWithin _ _ _ * second = later at hbound ⊢
      split
      · omega
      · omega
    · have hbound := hlater.trans_eq (if_neg hstart)
      rwa [if_neg fun h => hstart h.1, Nat.zero_add, if_neg fun h => hstart (h.trans hclock)]

/-- The bucket is full, or what it holds and the time until `now` suffice for a number of
bytes. -/
def Suffices (limiter : IngestRateLimiter) (now bytes : Nat) : Prop :=
  limiter.state.tokens = limiter.burstBytes.toNat ∨ bytes * second ≤ limiter.credit now

/-- A refill keeps enough. -/
theorem Suffices.refill (h : limiter.Suffices now bytes)
    (hclock : limiter.state.updated ≤ time) (htime : time ≤ now) :
    (limiter.spend time 0).Suffices now bytes := by
  obtain ⟨htokens, hremainder, _, hfull | hexact⟩ := limiter.refill_spec time
  · exact .inl hfull
  · rcases h with hfull | henough
    · left
      change (limiter.refill time).tokens = limiter.burstBytes.toNat
      have hgrown : limiter.state.worth ≤ limiter.credit time := Nat.le_add_right _ _
      simp only [RateState.worth, second] at hexact hremainder hgrown
      omega
    · right
      rw [credit_add hclock htime, ← hexact] at henough
      exact henough

/-- Enough is granted. -/
theorem Suffices.tryAcquire (h : limiter.Suffices now bytes) (hrate : limiter.bytesPerSecond ≠ 0)
    (hclock : limiter.state.updated ≤ now) (hfits : bytes ≤ limiter.burstBytes.toNat) :
    (limiter.tryAcquire now bytes).1 = true := by
  have hremainder := (limiter.refill_spec now).2.1
  have hrefilled : (limiter.refill now).tokens = limiter.burstBytes.toNat ∨ bytes * second ≤
      (limiter.refill now).worth + limiter.bytesPerSecond.toNat * (now - now) :=
    h.refill hclock (Nat.le_refl now)
  rw [Nat.sub_self, Nat.mul_zero, RateState.worth, second] at hrefilled
  rw [second] at hremainder
  rcases tryAcquire_cases hrate now bytes with ⟨hlarge, _⟩ | ⟨_, _, hcall, _, ⟨rfl, _⟩ | hshort⟩
  · omega
  · rw [hcall]
  · omega

/-- Refused calls do not cost any credit. -/
theorem tryAcquire_after (calls : List (Nat × Nat)) {limiter : IngestRateLimiter}
    (hrate : limiter.bytesPerSecond ≠ 0) (hmonotone : limiter.Monotone (calls ++ [(now, bytes)]))
    (h : limiter.Suffices now bytes) (hfits : bytes ≤ limiter.burstBytes.toNat)
    (hquiet : ∀ call ∈ limiter.admitted calls,
      bytes * second ≤ limiter.bytesPerSecond.toNat * (now - call.1)) :
    ((limiter.after calls).tryAcquire now bytes).1 = true := by
  induction calls generalizing limiter with
  | nil => exact h.tryAcquire hrate ((pairwise_cons.mp hmonotone).1 now mem_cons_self) hfits
  | cons call rest ih =>
    obtain ⟨time, length⟩ := call
    have hclock : limiter.state.updated ≤ time := (pairwise_cons.mp hmonotone).1 time mem_cons_self
    have hrest := (pairwise_cons.mp hmonotone).2
    have htime : time ≤ now := (pairwise_cons.mp hrest).1 now (by simp)
    rw [admitted] at hquiet
    rw [after, foldl_cons]
    rcases tryAcquire_cases hrate time length with ⟨_, hcall⟩ |
      ⟨_, spent, hcall, _, ⟨rfl, rfl⟩ | ⟨rfl, rfl, _⟩⟩
    · rw [hcall] at hquiet ⊢
      exact ih hrate (hmonotone.sublist (by simp)) h hfits hquiet
    · rw [hcall] at hquiet ⊢
      apply @ih (limiter.spend time spent) hrate hrest (.inr ?_) hfits
      · exact fun call hcall => hquiet call (mem_cons_of_mem _ hcall)
      · exact (hquiet (time, spent) mem_cons_self).trans (Nat.le_add_left _ _)
    · rw [hcall] at hquiet ⊢
      exact @ih (limiter.spend time 0) hrate hrest (h.refill hclock htime) hfits hquiet

/-- The bytes admitted in a window stay below the burst, what the rate gives in it, and one; a call
that fits the burst is admitted if none was in the time in which the rate gives its bytes, whatever
was refused. -/
theorem tryAcquire_conforms {rate burst : UInt64} (hrate : rate ≠ 0) {created : Nat}
    {calls : List (Nat × Nat)} (hmonotone : (new rate burst created).Monotone calls) :
    (∀ start d, bytesWithin start (start + d) ((new rate burst created).admitted calls) * second <
      burst.toNat * second + rate.toNat * d + second) ∧
    ∀ now bytes, bytes ≤ burst.toNat → (new rate burst created).Monotone (calls ++ [(now, bytes)]) →
      (∀ call ∈ (new rate burst created).admitted calls,
        bytes * second ≤ rate.toNat * (now - call.1)) →
      (((new rate burst created).after calls).tryAcquire now bytes).1 = true := by
  refine ⟨fun start d => ?_, fun now bytes hfits hclock hquiet =>
    tryAcquire_after calls hrate hclock (.inl rfl) hfits hquiet⟩
  have hbound := @bytesWithin_admitted_le start (start + d) calls _ hrate hmonotone
  split at hbound
  · rename_i hstart
    have hshorter := Nat.mul_le_mul_left rate.toNat
      (show start + d - created ≤ d by dsimp only [new] at hstart; omega)
    simp only [new, credit, RateState.worth, second] at hbound ⊢
    omega
  · simp only [new, Nat.add_sub_cancel_left, second] at hbound ⊢
    omega

/-- A bucket of two bytes that gains one in a second, polled ten times a second. -/
theorem tryAcquire_conforms_polled :
    (((new 1 2 0).after ((List.range 10).map fun tick => (tick * (second / 10), 1))).tryAcquire
      (second + second / 10) 1).1 = true :=
  (tryAcquire_conforms (by decide) (by decide)).2 _ _ (by decide) (by decide) (by decide)

end IngestRateLimiter

/-! ## Admission -/

/-- A semaphore of the asynchronous runtime, as documented: a permit is refused exactly if none is
available, and a dropped one is available again. -/
structure Semaphore where
  State : Type
  availablePermits : State → Nat
  tryAcquireOwned : State → Option State
  drop : State → State
  refused_iff : ∀ state, tryAcquireOwned state = none ↔ availablePermits state = 0
  available_acquired : ∀ state next, tryAcquireOwned state = some next →
    availablePermits next + 1 = availablePermits state
  available_dropped : ∀ state, availablePermits (drop state) = availablePermits state + 1

/-- What admission of ingestion uses: the limiter and the semaphore of its permits. -/
structure ProductionRuntime (semaphore : Semaphore) where
  rate : IngestRateLimiter
  ingest : semaphore.State

/-- A call in a state of the lifecycle, with its clock reading, or a dropped permit. -/
inductive IngestEvent where
  | call (state : ServiceState) (now sourceBytes : Nat)
  | release

/-- The clock readings of a run. -/
def readings : List IngestEvent → List Nat
  | [] => []
  | .call _ now _ :: rest => now :: readings rest
  | .release :: rest => readings rest

namespace ProductionRuntime

variable {semaphore : Semaphore}

/-- The call as the lifecycle shows a state. -/
def tryIngest (runtime : ProductionRuntime semaphore) (state : ServiceState)
    (now sourceBytes : Nat) : Bool × ProductionRuntime semaphore :=
  if state.acceptsIngest = false then (false, runtime)
  else
    let acquired := runtime.rate.tryAcquire now sourceBytes
    let charged := { runtime with rate := acquired.2 }
    if acquired.1 = false then (false, charged)
    else
      match semaphore.tryAcquireOwned runtime.ingest with
      | none => (false, charged)
      | some ingest => (true, { charged with ingest := ingest })

/-- A dropped permit is free again. -/
def release (runtime : ProductionRuntime semaphore) : ProductionRuntime semaphore :=
  { runtime with ingest := semaphore.drop runtime.ingest }

/-- The runtime after some calls and releases. -/
def run (runtime : ProductionRuntime semaphore) : List IngestEvent → ProductionRuntime semaphore
  | [] => runtime
  | .call state now sourceBytes :: rest => (runtime.tryIngest state now sourceBytes).2.run rest
  | .release :: rest => runtime.release.run rest

/-- The calls that get a permit, by time and length. -/
def permitted (runtime : ProductionRuntime semaphore) : List IngestEvent → List (Nat × Nat)
  | [] => []
  | .call state now sourceBytes :: rest =>
    let next := runtime.tryIngest state now sourceBytes
    if next.1 then (now, sourceBytes) :: next.2.permitted rest else next.2.permitted rest
  | .release :: rest => runtime.release.permitted rest

/-- The limiter grants some bytes to the call while no permit is available. -/
def Wastes (runtime : ProductionRuntime semaphore) (state : ServiceState)
    (now sourceBytes : Nat) : Prop :=
  state = .ready ∧ 0 < sourceBytes ∧ sourceBytes ≤ (runtime.rate.refill now).tokens ∧
    semaphore.availablePermits runtime.ingest = 0

instance (runtime : ProductionRuntime semaphore) (state : ServiceState) (now sourceBytes : Nat) :
    Decidable (runtime.Wastes state now sourceBytes) :=
  inferInstanceAs (Decidable (_ ∧ _ ∧ _ ∧ _))

/-- No call of the run is granted bytes without a permit. -/
def Thrifty (runtime : ProductionRuntime semaphore) : List IngestEvent → Prop
  | [] => True
  | .call state now sourceBytes :: rest => ¬runtime.Wastes state now sourceBytes ∧
      (runtime.tryIngest state now sourceBytes).2.Thrifty rest
  | .release :: rest => runtime.release.Thrifty rest

instance decidableThrifty (runtime : ProductionRuntime semaphore) :
    ∀ events, Decidable (runtime.Thrifty events)
  | [] => .isTrue trivial
  | .call state now sourceBytes :: rest =>
    have := decidableThrifty (runtime.tryIngest state now sourceBytes).2 rest
    inferInstanceAs (Decidable (_ ∧ _))
  | .release :: rest => decidableThrifty runtime.release rest

variable {runtime : ProductionRuntime semaphore} {state : ServiceState} {now sourceBytes : Nat}

/-- What a call does to the limiter, with and without a permit. -/
inductive Charges (runtime : ProductionRuntime semaphore) (state : ServiceState)
    (now sourceBytes : Nat) (permit : Bool) (after : IngestRateLimiter) : Prop where
  | ignored (hpermit : permit = false) (hafter : after = runtime.rate)
  | refilled (hpermit : permit = false) (hafter : after = runtime.rate.spend now 0)
  | permitted (hpermit : permit = true) (hafter : after = runtime.rate.spend now sourceBytes)
      (henough : sourceBytes ≤ (runtime.rate.refill now).tokens)
  | wasted (hpermit : permit = false) (hafter : after = runtime.rate.spend now sourceBytes)
      (hwastes : runtime.Wastes state now sourceBytes)

/-- Only a call that is granted bytes without a permit wastes credit. -/
theorem charges_tryIngest (runtime : ProductionRuntime semaphore)
    (hrate : runtime.rate.bytesPerSecond ≠ 0) (state : ServiceState) (now sourceBytes : Nat) :
    Charges runtime state now sourceBytes (runtime.tryIngest state now sourceBytes).1
      (runtime.tryIngest state now sourceBytes).2.rate := by
  rw [tryIngest]
  by_cases hready : state = .ready
  · rw [if_neg (by simp [ServiceState.acceptsIngest, hready])]
    rcases IngestRateLimiter.tryAcquire_cases hrate now sourceBytes with ⟨_, hcall⟩ |
      ⟨_, spent, hcall, hspent, ⟨rfl, rfl⟩ | ⟨rfl, rfl, _⟩⟩
    · rw [hcall]
      exact .ignored rfl rfl
    · rw [hcall]
      cases hpermit : semaphore.tryAcquireOwned runtime.ingest with
      | none =>
        by_cases hzero : spent = 0
        · subst hzero
          exact .refilled rfl rfl
        · exact .wasted rfl rfl ⟨hready, Nat.pos_of_ne_zero hzero, hspent,
            (semaphore.refused_iff _).mp hpermit⟩
      | some ingest => exact .permitted rfl rfl hspent
    · rw [hcall]
      exact .refilled rfl rfl
  · rw [if_pos (by simp [ServiceState.acceptsIngest, hready])]
    exact .ignored rfl rfl

/-! ## Runs -/

/-- From `clock` on two limiters of one rate hold the same credit, as long as nothing
saturates. -/
structure Tracks (rate : UInt64) (created clock : Nat) (limiter ideal : IngestRateLimiter) :
    Prop where
  rate_eq : limiter.bytesPerSecond = rate
  ideal_eq : ideal.bytesPerSecond = rate
  burst_eq : ideal.burstBytes = limiter.burstBytes
  remainder : limiter.state.remainder < second
  since : created ≤ limiter.state.updated
  until_clock : limiter.state.updated ≤ clock
  refill_eq : ∀ now, clock ≤ now → rate.toNat * (now - created) + second ≤ 2 ^ 128 →
    ideal.refill now = limiter.refill now

section Tracks

variable {rate : UInt64} {created clock later : Nat} {limiter ideal : IngestRateLimiter}

theorem Tracks.mono (h : Tracks rate created clock limiter ideal) (hle : clock ≤ later) :
    Tracks rate created later limiter ideal :=
  { h with
    until_clock := h.until_clock.trans hle
    refill_eq := fun now hnow => h.refill_eq now (hle.trans hnow) }

/-- A refill of the one limiter keeps them alike. -/
theorem Tracks.refill (h : Tracks rate created clock limiter ideal) (hle : clock ≤ later) :
    Tracks rate created later (limiter.spend later 0) ideal where
  rate_eq := h.rate_eq
  ideal_eq := h.ideal_eq
  burst_eq := h.burst_eq
  remainder := (limiter.refill_spec later).2.1
  since := (h.since.trans h.until_clock).trans hle
  until_clock := Nat.le_refl later
  refill_eq := fun now hnow hfits => by
    have helapsed := Nat.mul_le_mul_left rate.toNat (Nat.sub_le_sub_left h.since now)
    have hunsaturated := (Nat.add_le_add_right helapsed second).trans hfits
    rw [← h.rate_eq] at hunsaturated
    rw [IngestRateLimiter.refill_spend_zero h.remainder (h.until_clock.trans hle) hnow hunsaturated]
    exact h.refill_eq now (hle.trans hnow) hfits

/-- Both take the bytes of a permitted call. -/
theorem Tracks.spend (h : Tracks rate created clock limiter ideal) (hrate : rate ≠ 0)
    (hle : clock ≤ later) (hfits : rate.toNat * (later - created) + second ≤ 2 ^ 128)
    (henough : sourceBytes ≤ (limiter.refill later).tokens) :
    Tracks rate created later (limiter.spend later sourceBytes)
      (ideal.tryAcquire later sourceBytes).2 := by
  have hrefill := h.refill_eq later hle hfits
  have hspend : ideal.spend later sourceBytes = limiter.spend later sourceBytes := by
    rw [IngestRateLimiter.spend, IngestRateLimiter.spend, hrefill, h.ideal_eq, h.rate_eq,
      h.burst_eq]
  rw [IngestRateLimiter.tryAcquire_of_le (h.ideal_eq ▸ hrate) (hrefill ▸ henough), hspend]
  exact ⟨h.rate_eq, h.rate_eq, rfl, (limiter.refill_spec later).2.1,
    (h.since.trans h.until_clock).trans hle, Nat.le_refl later, fun _ _ _ => rfl⟩

/-- The limiter of a run without waste and one that sees the permitted calls only. -/
theorem Tracks.run (hrate : rate ≠ 0) {events : List IngestEvent}
    (hfits : rate.toNat * (now - created) + second ≤ 2 ^ 128)
    {runtime : ProductionRuntime semaphore} (h : Tracks rate created clock runtime.rate ideal)
    (hthrifty : runtime.Thrifty events)
    (hclock : (clock :: readings events ++ [now]).Pairwise (· ≤ ·)) :
    Tracks rate created now (runtime.run events).rate (ideal.after (runtime.permitted events)) := by
  induction events generalizing runtime ideal clock with
  | nil => exact h.mono ((pairwise_cons.mp hclock).1 now (by simp [readings]))
  | cons event rest ih =>
    cases event with
    | release => exact ih h hthrifty hclock
    | call state time sourceBytes =>
      obtain ⟨hspared, hrest⟩ := hthrifty
      have hle : clock ≤ time := (pairwise_cons.mp hclock).1 time (by simp [readings])
      have hclock' := (pairwise_cons.mp hclock).2
      have htime : time ≤ now := (pairwise_cons.mp hclock').1 now (by simp)
      rw [ProductionRuntime.run, ProductionRuntime.permitted]
      cases runtime.charges_tryIngest (h.rate_eq ▸ hrate) state time sourceBytes with
      | ignored hpermit hafter =>
        rw [hpermit, if_neg Bool.false_ne_true]
        exact ih (hafter ▸ h.mono hle) hrest hclock'
      | refilled hpermit hafter =>
        rw [hpermit, if_neg Bool.false_ne_true]
        exact ih (hafter ▸ h.refill hle) hrest hclock'
      | permitted hpermit hafter henough =>
        have hearlier := Nat.mul_le_mul_left rate.toNat (Nat.sub_le_sub_right htime created)
        have hfits' := (Nat.add_le_add_right hearlier second).trans hfits
        rw [hpermit, if_pos rfl]
        exact ih (hafter ▸ h.spend hrate hle hfits' henough) hrest hclock'
      | wasted _ _ hwastes => exact absurd hwastes hspared

end Tracks

end ProductionRuntime

end ShardLog.Production
