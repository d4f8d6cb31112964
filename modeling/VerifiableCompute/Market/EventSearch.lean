import VerifiableCompute.Lib.Windows
import VerifiableCompute.Market.Types

/-! The search of a client for the events of a request. A node answers for a range of blocks at a time, and the search
walks down from the upper bound, range by range, until it has reached the lower bound. -/

namespace VerifiableCompute.Market

open Lib List BitVec

/-- Why a query has no result; the arithmetic of its bounds may also abort it. -/
inductive MarketError
  | requestNotFound (requestId : U256)
  | provider
  | panicked
  deriving DecidableEq

structure EventRetryConfig where
  retries : U32

structure EventQueryConfig where
  blockRange : U64
  maxIterations : U64
  retryConfig : Option EventRetryConfig

inductive EventKind
  | requestLocked
  | requestFulfilled
  | proofDelivered
  | proverSlashed
  deriving DecidableEq

structure EventFilter where
  kind : EventKind
  topic1 : U256
  fromBlock : U64
  toBlock : U64

structure LogMeta where
  blockNumber : Option U64
  transactionHash : Option Bytes32

structure EventData (Event : Type) where
  event : Event
  blockNumber : U64
  txHash : Bytes32
  deriving DecidableEq

/-- The node that a client asks. -/
structure Provider (Event : Type) where
  getLatestBlockNumber : Except MarketError U64
  query : EventFilter → Except MarketError (List (Event × LogMeta))

variable {Event T : Type}

/-- The number of the attempt, and how many are left after it. An abort is not retried. -/
def attempts (queryFn : ℕ → Except MarketError T) : ℕ → ℕ → Except MarketError T
  | attempt, 0 => queryFn attempt
  | attempt, left + 1 =>
    match queryFn attempt with
    | .ok result => .ok result
    | .error .panicked => .error .panicked
    | .error _ => attempts queryFn (attempt + 1) left

def retryQuery (config : EventQueryConfig) (queryFn : ℕ → Except MarketError T) : Except MarketError T :=
  match config.retryConfig with
  | none => queryFn 0
  | some retryConfig => attempts queryFn 0 retryConfig.retries.toNat

structure SearchPlan where
  upperBlock : U64
  startBlock : U64
  iterations : U64

/-- A result out of range aborts a build that checks, and wraps around in one that does not. -/
def mulU64 (checks : Bool) (x y : U64) : Except MarketError U64 := if checks then checkedMul .panicked x y else .ok (x * y)

def subU64 (checks : Bool) (x y : U64) : Except MarketError U64 := if checks then checkedSub .panicked x y else .ok (x - y)

/-- One more, but never more than the largest word. -/
def saturatingSucc (x : U64) : U64 := if x = BitVec.allOnes 64 then x else x + 1

/-- The default of the lower bound is computed also where a bound is given. -/
def searchPlan (checks : Bool) (config : EventQueryConfig) (latestBlock : U64) (lowerBound upperBound : Option U64) :
    Except MarketError SearchPlan := do
  let upperBlock := upperBound.getD latestBlock
  let depth ← mulU64 checks config.blockRange config.maxIterations
  let startBlock := lowerBound.getD (saturatingSub upperBlock depth)
  let iterations ←
    if lowerBound.isSome && upperBound.isSome then do
      let span ← subU64 checks upperBlock startBlock
      require (config.blockRange ≠ 0) .panicked
      pure (saturatingSucc (span / config.blockRange))
    else pure config.maxIterations
  return ⟨upperBlock, startBlock, iterations⟩

section Search

variable (provider : Provider Event) (config : EventQueryConfig) (kind : EventKind) (requestId : U256) (startBlock : U64)

def eventData (log : Event × LogMeta) : EventData Event := ⟨log.1, log.2.blockNumber.getD 0, log.2.transactionHash.getD 0⟩

/-- The iterations that are left, and the upper end of the next range. -/
def findEvent : ℕ → U64 → Except MarketError (EventData Event)
  | 0, _ => .error (.requestNotFound requestId)
  | n + 1, upperBlock =>
    if upperBlock ≤ startBlock then .error (.requestNotFound requestId)
    else do
      let lowerBlock := saturatingSub upperBlock config.blockRange
      let logs ← provider.query ⟨kind, requestId, lowerBlock, upperBlock⟩
      match logs.head? with
      | some log => return eventData log
      | none => findEvent n (saturatingSub lowerBlock 1)

def collectEvents : ℕ → U64 → List (EventData Event) → Except MarketError (List (EventData Event))
  | 0, _, allEvents => .ok allEvents
  | n + 1, upperBlock, allEvents =>
    if upperBlock ≤ startBlock then .ok allEvents
    else do
      let lowerBlock := saturatingSub upperBlock config.blockRange
      let logs ← provider.query ⟨kind, requestId, lowerBlock, upperBlock⟩
      collectEvents n (saturatingSub lowerBlock 1) (allEvents ++ logs.map eventData)

/-- The ranges that a search queries, one after the other, until one of them has a match. -/
def queriedRanges : ℕ → U64 → List (U64 × U64)
  | 0, _ => []
  | n + 1, upperBlock =>
    if upperBlock ≤ startBlock then []
    else
      let lowerBlock := saturatingSub upperBlock config.blockRange
      (lowerBlock, upperBlock) :: queriedRanges n (saturatingSub lowerBlock 1)

end Search

section Queries

variable (checks : Bool) (config : EventQueryConfig) (provider : ℕ → Provider Event) (requestId : U256) (lowerBound upperBound : Option U64)

def queryEvent (kind : EventKind) : Except MarketError (EventData Event) :=
  retryQuery config fun attempt => do
    let latestBlock ← (provider attempt).getLatestBlockNumber
    let plan ← searchPlan checks config latestBlock lowerBound upperBound
    findEvent (provider attempt) config kind requestId plan.startBlock plan.iterations.toNat plan.upperBlock

def queryRequestLockedEvent : Except MarketError (EventData Event) :=
  queryEvent checks config provider requestId lowerBound upperBound .requestLocked

def queryRequestFulfilledEvent : Except MarketError (EventData Event) :=
  queryEvent checks config provider requestId lowerBound upperBound .requestFulfilled

def queryProverSlashedEvent : Except MarketError (EventData Event) :=
  queryEvent checks config provider requestId lowerBound upperBound .proverSlashed

def queryAllProofDeliveredEvents : Except MarketError (List (EventData Event)) :=
  retryQuery config fun attempt => do
    let latestBlock ← (provider attempt).getLatestBlockNumber
    let plan ← searchPlan checks config latestBlock lowerBound upperBound
    collectEvents (provider attempt) config .proofDelivered requestId plan.startBlock plan.iterations.toNat plan.upperBlock []

end Queries

structure Log (Event : Type) where
  kind : EventKind
  topic1 : U256
  blockNumber : U64
  txHash : Bytes32
  event : Event

namespace Log

def answer (l : Log Event) : Event × LogMeta := (l.event, ⟨some l.blockNumber, some l.txHash⟩)

def data (l : Log Event) : EventData Event := ⟨l.event, l.blockNumber, l.txHash⟩

def isOf (kind : EventKind) (requestId : U256) (l : Log Event) : Bool := l.kind = kind ∧ l.topic1 = requestId

def isIn (range : U64 × U64) (l : Log Event) : Bool := range.1 ≤ l.blockNumber ∧ l.blockNumber ≤ range.2

end Log

/-- The node has every block, and answers with the matching logs of a range. -/
structure Provider.Exact (provider : Provider Event) (chain : List (Log Event)) : Prop where
  latest : ∃ latestBlock, provider.getLatestBlockNumber = .ok latestBlock
  logs : ∀ filter, provider.query filter =
    .ok ((chain.filter fun l => l.isOf filter.kind filter.topic1 && l.isIn (filter.fromBlock, filter.toBlock)).map Log.answer)

/-- A search finds an event of the request whenever the interval has one. -/
def Finds (query : (ℕ → Provider Event) → Except MarketError (EventData Event)) (kind : EventKind) (requestId : U256)
    (lower upper : U64) : Prop :=
  ∀ (chain : List (Log Event)) (provider : ℕ → Provider Event), (∀ attempt, (provider attempt).Exact chain) →
    (∃ l ∈ chain, l.isOf kind requestId ∧ l.isIn (lower, upper)) → ∃ l ∈ chain, l.isOf kind requestId ∧ query provider = .ok l.data

/-- The ranges cover the interval, each block once, and so the searches find what is there. -/
structure SearchCovers (Event : Type) (checks : Bool) (config : EventQueryConfig) (requestId : U256) (lower upper : U64) : Prop where
  ranges : ∀ latestBlock, ∃ plan, searchPlan checks config latestBlock (some lower) (some upper) = .ok plan ∧
    ∀ b, lower ≤ b → b ≤ upper →
      (queriedRanges config plan.startBlock plan.iterations.toNat plan.upperBlock).countP (fun r => r.1 ≤ b ∧ b ≤ r.2) = 1
  locked : @Finds Event (queryRequestLockedEvent checks config · requestId (some lower) (some upper)) .requestLocked
    requestId lower upper
  fulfilled : @Finds Event (queryRequestFulfilledEvent checks config · requestId (some lower) (some upper))
    .requestFulfilled requestId lower upper
  slashed : @Finds Event (queryProverSlashedEvent checks config · requestId (some lower) (some upper)) .proverSlashed
    requestId lower upper
  delivered : ∀ (chain : List (Log Event)) (provider : ℕ → Provider Event), (∀ attempt, (provider attempt).Exact chain) →
    ∃ events, queryAllProofDeliveredEvents checks config provider requestId (some lower) (some upper) = .ok events ∧
      (events.filter fun e => lower ≤ e.blockNumber ∧ e.blockNumber ≤ upper).Perm
        ((chain.filter fun l => l.isOf .proofDelivered requestId && l.isIn (lower, upper)).map Log.data)

/-- The default of the lower bound can be computed. -/
def DepthFits (checks : Bool) (config : EventQueryConfig) : Prop :=
  checks = true → config.blockRange.toNat * config.maxIterations.toNat < 2 ^ 64

instance (checks : Bool) (config : EventQueryConfig) : Decidable (DepthFits checks config) :=
  inferInstanceAs (Decidable (_ → _))

section Plan

variable {checks : Bool} {config : EventQueryConfig} {lower upper : U64}

theorem mulU64_ok_iff : (∃ depth, mulU64 checks config.blockRange config.maxIterations = .ok depth) ↔ DepthFits checks config := by
  unfold mulU64 DepthFits
  cases checks with
  | false => simp
  | true =>
    rw [if_pos rfl, checkedMul]
    split_ifs with hfits
    · exact iff_of_true ⟨_, rfl⟩ fun _ => hfits
    · exact iff_of_false (by simp) fun h => hfits (h rfl)

theorem subU64_ok (h : lower ≤ upper) : subU64 checks upper lower = .ok (upper - lower) := by
  unfold subU64 checkedSub
  cases checks
  · rfl
  · simp [h]

theorem toNat_saturatingSucc (x : U64) : (saturatingSucc x).toNat = min (x.toNat + 1) (2 ^ 64 - 1) := by
  have hx := x.isLt
  unfold saturatingSucc
  split_ifs with hmax
  · rw [hmax, toNat_allOnes]
    rfl
  · have hne : x.toNat ≠ 2 ^ 64 - 1 := fun heq => hmax (eq_of_toNat_eq (heq.trans toNat_allOnes.symm))
    have hsum : x.toNat + (1 : U64).toNat < 2 ^ 64 := by
      change x.toNat + 1 < 2 ^ 64
      omega
    rw [toNat_add_of_lt hsum]
    change x.toNat + 1 = _
    omega

theorem searchPlan_ok_iff (h : lower ≤ upper) (hrange : config.blockRange ≠ 0) (latestBlock : U64) (plan : SearchPlan) :
    searchPlan checks config latestBlock (some lower) (some upper) = .ok plan ↔
      DepthFits checks config ∧ plan = ⟨upper, lower, saturatingSucc ((upper - lower) / config.blockRange)⟩ := by
  unfold searchPlan
  simp only [bind_ok_iff, ← mulU64_ok_iff, Option.getD_some, Option.isSome_some, Bool.and_self, if_true, subU64_ok h, require_ok_iff]
  constructor
  · rintro ⟨depth, hdepth, span, hspan, _, hnonzero, iterations, hiterations, hplan⟩
    cases hspan
    cases hiterations
    exact ⟨⟨depth, hdepth⟩, (Except.ok.inj hplan).symm⟩
  · rintro ⟨⟨depth, hdepth⟩, rfl⟩
    exact ⟨depth, hdepth, _, rfl, (), hrange, _, rfl, rfl⟩

/-- There are iterations enough to walk down to the lower bound. -/
theorem iterations_enough (h : lower ≤ upper) (hrange : config.blockRange ≠ 0) :
    (upper.toNat - lower.toNat) / (config.blockRange.toNat + 1) <
      (saturatingSucc ((upper - lower) / config.blockRange)).toNat := by
  have hpos : 0 < config.blockRange.toNat := Nat.pos_of_ne_zero fun hzero => hrange (eq_of_toNat_eq hzero)
  have hupper := upper.isLt
  have hle : (upper.toNat - lower.toNat) / (config.blockRange.toNat + 1) ≤
      (upper.toNat - lower.toNat) / config.blockRange.toNat := Nat.div_le_div_left (Nat.le_succ _) hpos
  have hhalf : (upper.toNat - lower.toNat) / (config.blockRange.toNat + 1) ≤ (upper.toNat - lower.toNat) / 2 :=
    Nat.div_le_div_left (by omega) (by norm_num)
  rw [toNat_saturatingSucc, toNat_udiv, toNat_sub_of_le h]
  omega

end Plan

section Walk

variable (config : EventQueryConfig) (startBlock : U64)

theorem queriedRanges_windows (n : ℕ) (upperBlock : U64) :
    (queriedRanges config startBlock n upperBlock).map (fun r => (r.1.toNat, r.2.toNat)) =
      windows config.blockRange.toNat startBlock.toNat n upperBlock.toNat := by
  induction n generalizing upperBlock with
  | zero => rfl
  | succ n ih =>
    rw [queriedRanges, windows]
    by_cases hdone : upperBlock ≤ startBlock
    · rw [if_pos hdone, if_pos (show upperBlock.toNat ≤ startBlock.toNat from hdone)]
      rfl
    · rw [if_neg hdone, if_neg (show ¬upperBlock.toNat ≤ startBlock.toNat from hdone), map_cons, ih]
      simp

theorem countP_queriedRanges (n : ℕ) (upperBlock b : U64) :
    (queriedRanges config startBlock n upperBlock).countP (fun r => r.1 ≤ b ∧ b ≤ r.2) =
      rangesHolding b.toNat (windows config.blockRange.toNat startBlock.toNat n upperBlock.toNat) := by
  rw [← queriedRanges_windows, rangesHolding, countP_map]
  rfl

variable {config startBlock} {provider : Provider Event} {chain : List (Log Event)} {kind : EventKind} {requestId : U256}

theorem findEvent_eq (h : provider.Exact chain) (n : ℕ) (upperBlock : U64) :
    findEvent provider config kind requestId startBlock n upperBlock =
      match (queriedRanges config startBlock n upperBlock).findSome?
        (fun r => (chain.filter fun l => l.isOf kind requestId && l.isIn r).head?) with
      | some l => .ok l.data
      | none => .error (.requestNotFound requestId) := by
  induction n generalizing upperBlock with
  | zero => rfl
  | succ n ih =>
    rw [findEvent, queriedRanges]
    split_ifs
    · rfl
    · simp only [h.logs, findSome?_cons, bind, Except.bind, head?_map]
      cases (chain.filter fun l => l.isOf kind requestId && l.isIn (saturatingSub upperBlock config.blockRange, upperBlock)).head? with
      | some l => rfl
      | none => exact ih _

theorem collectEvents_eq (h : provider.Exact chain) (n : ℕ) (upperBlock : U64) (allEvents : List (EventData Event)) :
    collectEvents provider config kind requestId startBlock n upperBlock allEvents =
      .ok (allEvents ++ ((queriedRanges config startBlock n upperBlock).flatMap fun r =>
        chain.filter fun l => l.isOf kind requestId && l.isIn r).map Log.data) := by
  induction n generalizing upperBlock allEvents with
  | zero => simp [collectEvents, queriedRanges]
  | succ n ih =>
    rw [collectEvents, queriedRanges]
    split_ifs
    · simp
    · simp only [h.logs, bind, Except.bind, ih, flatMap_cons, map_append, map_map, List.append_assoc]
      rfl

end Walk

theorem retryQuery_ok {config : EventQueryConfig} {queryFn : ℕ → Except MarketError T} {result : T}
    (h : queryFn 0 = .ok result) : retryQuery config queryFn = .ok result := by
  unfold retryQuery
  cases config.retryConfig with
  | none => exact h
  | some retryConfig =>
    cases hretries : retryConfig.retries.toNat with
    | zero => simpa [attempts, hretries] using h
    | succ n => simp [attempts, hretries, h]
section Searches

variable {checks : Bool} {config : EventQueryConfig} {requestId : U256} {lower upper : U64} {plan : SearchPlan}

/-- Each block of the interval is in one range that the plan leads to. -/
def SearchPlan.Covers (config : EventQueryConfig) (lower upper : U64) (plan : SearchPlan) : Prop :=
  ∀ b, lower ≤ b → b ≤ upper →
    (queriedRanges config plan.startBlock plan.iterations.toNat plan.upperBlock).countP (fun r => r.1 ≤ b ∧ b ≤ r.2) = 1

theorem covers_iff (h : lower ≤ upper) (hrange : config.blockRange ≠ 0) :
    SearchPlan.Covers config lower upper ⟨upper, lower, saturatingSucc ((upper - lower) / config.blockRange)⟩ ↔
      ¬config.blockRange.toNat + 1 ∣ upper.toNat - lower.toNat := by
  rw [← windows_cover_iff h (iterations_enough h hrange)]
  simp only [SearchPlan.Covers, countP_queriedRanges]
  constructor
  · intro hall b hlower hupper
    have hb : (BitVec.ofNat 64 b).toNat = b := by
      have := upper.isLt
      rw [toNat_ofNat, Nat.mod_eq_of_lt (by omega)]
    have hone := hall (BitVec.ofNat 64 b) (by rwa [le_def, hb]) (by rwa [le_def, hb])
    rwa [hb] at hone
  · intro hall b hlower hupper
    exact hall b.toNat hlower hupper

/-- A log of the interval is in a range, and so the search finds one of the request. -/
theorem finds_of_covers (kind : EventKind) (hplan : ∀ latestBlock, searchPlan checks config latestBlock (some lower) (some upper) = .ok plan)
    (hcovers : plan.Covers config lower upper) :
    @Finds Event (queryEvent checks config · requestId (some lower) (some upper) kind) kind requestId lower upper := by
  rintro chain provider hexact ⟨l, hl, hof, hin⟩
  obtain ⟨latestBlock, hlatest⟩ := (hexact 0).latest
  obtain ⟨hlower, hupper⟩ : lower ≤ l.blockNumber ∧ l.blockNumber ≤ upper := by simpa [Log.isIn] using hin
  have hrange : 0 < (queriedRanges config plan.startBlock plan.iterations.toNat plan.upperBlock).countP
      (fun r => r.1 ≤ l.blockNumber ∧ l.blockNumber ≤ r.2) := by
    rw [hcovers _ hlower hupper]
    exact Nat.one_pos
  obtain ⟨r, hr, hinside⟩ := countP_pos_iff.mp hrange
  have hfirst : ((queriedRanges config plan.startBlock plan.iterations.toNat plan.upperBlock).findSome? fun r =>
      (chain.filter fun l => l.isOf kind requestId && l.isIn r).head?).isSome := by
    rw [findSome?_isSome_iff]
    refine ⟨r, hr, ?_⟩
    rw [isSome_head?]
    have hinside : l.isIn r := by simpa [Log.isIn] using hinside
    simpa using ⟨l, hl, hof, hinside⟩
  obtain ⟨first, hfirst⟩ := Option.isSome_iff_exists.mp hfirst
  obtain ⟨r', -, hhead⟩ := exists_of_findSome?_eq_some hfirst
  have hmem := mem_filter.mp (mem_of_mem_head? hhead)
  refine ⟨first, hmem.1, (Bool.and_eq_true_iff.mp hmem.2).1, ?_⟩
  apply retryQuery_ok
  simp only [hlatest, hplan, bind, Except.bind, findEvent_eq (hexact 0), hfirst]

theorem delivered_of_covers (hplan : ∀ latestBlock, searchPlan checks config latestBlock (some lower) (some upper) = .ok plan)
    (hcovers : plan.Covers config lower upper) {chain : List (Log Event)} {provider : ℕ → Provider Event}
    (hexact : ∀ attempt, (provider attempt).Exact chain) :
    ∃ events, queryAllProofDeliveredEvents checks config provider requestId (some lower) (some upper) = .ok events ∧
      (events.filter fun e => lower ≤ e.blockNumber ∧ e.blockNumber ≤ upper).Perm
        ((chain.filter fun l => l.isOf .proofDelivered requestId && l.isIn (lower, upper)).map Log.data) := by
  obtain ⟨latestBlock, hlatest⟩ := (hexact 0).latest
  refine ⟨((queriedRanges config plan.startBlock plan.iterations.toNat plan.upperBlock).flatMap fun r =>
    chain.filter fun l => l.isOf .proofDelivered requestId && l.isIn r).map Log.data, ?_, ?_⟩
  · apply retryQuery_ok
    simp only [hlatest, hplan, bind, Except.bind, collectEvents_eq (hexact 0), nil_append]
  · rw [filter_map, filter_flatMap]
    apply List.Perm.map
    have hswap (r : U64 × U64) : (chain.filter fun l => l.isOf .proofDelivered requestId && l.isIn r).filter
          ((fun e : EventData Event => decide (lower ≤ e.blockNumber ∧ e.blockNumber ≤ upper)) ∘ Log.data) =
        (chain.filter fun l => l.isOf .proofDelivered requestId && l.isIn (lower, upper)).filter (Log.isIn r) := by
      rw [filter_filter, filter_filter]
      apply filter_congr
      intro l _
      apply Bool.eq_iff_iff.mpr
      have hdata : decide (lower ≤ l.data.blockNumber ∧ l.data.blockNumber ≤ upper) = true ↔ l.isIn (lower, upper) = true := by
        rw [decide_eq_true_iff, Log.isIn, decide_eq_true_iff]
        rfl
      rw [Function.comp_apply, Bool.and_eq_true, Bool.and_eq_true, Bool.and_eq_true, Bool.and_eq_true, hdata]
      tauto
    simp only [hswap]
    apply perm_flatMap_filter
    intro l hl
    have hin := (Bool.and_eq_true_iff.mp (mem_filter.mp hl).2).2
    obtain ⟨hlower, hupper⟩ : lower ≤ l.blockNumber ∧ l.blockNumber ≤ upper := by simpa [Log.isIn] using hin
    exact hcovers _ hlower hupper

/-- The searches between two bounds cover the blocks exactly if the length of a range does not divide the distance of
the bounds, and the default bound can be computed. -/
theorem searchCovers_iff (Event : Type) (checks : Bool) (config : EventQueryConfig) (requestId : U256) (lower upper : U64)
    (h : lower ≤ upper) (hrange : 1 ≤ config.blockRange) : SearchCovers Event checks config requestId lower upper ↔
      ¬config.blockRange.toNat + 1 ∣ upper.toNat - lower.toNat ∧ DepthFits checks config := by
  have hne : config.blockRange ≠ 0 := fun hzero => absurd (hzero ▸ hrange) (by decide)
  constructor
  · intro hcovers
    obtain ⟨plan, hplan, hall⟩ := hcovers.ranges 0
    obtain ⟨hfits, rfl⟩ := (searchPlan_ok_iff h hne 0 plan).mp hplan
    exact ⟨(covers_iff h hne).mp hall, hfits⟩
  · rintro ⟨hdvd, hfits⟩
    have hplan (latestBlock : U64) := (searchPlan_ok_iff h hne latestBlock _).mpr ⟨hfits, rfl⟩
    have hcovers := (covers_iff h hne).mpr hdvd
    exact ⟨fun latestBlock => ⟨_, hplan latestBlock, hcovers⟩, finds_of_covers .requestLocked hplan hcovers,
      finds_of_covers .requestFulfilled hplan hcovers, finds_of_covers .proverSlashed hplan hcovers,
      fun chain provider hexact => delivered_of_covers hplan hcovers hexact⟩

end Searches

/-- The default of the brokers: ranges of 500 blocks. -/
def defaultForBroker : EventQueryConfig := ⟨499, 100, none⟩

theorem searchCovers_iff_broker : SearchCovers Unit true defaultForBroker 7 1000 2001 ↔
    ¬defaultForBroker.blockRange.toNat + 1 ∣ (2001 : U64).toNat - (1000 : U64).toNat ∧ DepthFits true defaultForBroker :=
  searchCovers_iff Unit true defaultForBroker 7 1000 2001 (by decide) (by decide)

def honestNode (chain : List (Log Event)) : Provider Event where
  getLatestBlockNumber := .ok 2000
  query filter :=
    .ok ((chain.filter fun l => l.isOf filter.kind filter.topic1 && l.isIn (filter.fromBlock, filter.toBlock)).map Log.answer)

def fulfilledOnce : List (Log Unit) := [⟨.requestFulfilled, 7, 1000, 3, ()⟩]

/-- A fulfillment in block 1000 is not found between the blocks 1000 and 2000, nor in block 1000 alone. -/
theorem not_searchCovers_boundary :
    queryRequestFulfilledEvent true defaultForBroker (fun _ => honestNode fulfilledOnce) 7 (some 1000) (some 2000) =
        .error (.requestNotFound 7) ∧
      queryRequestFulfilledEvent true defaultForBroker (fun _ => honestNode fulfilledOnce) 7 (some 1000) (some 1000) =
        .error (.requestNotFound 7) ∧
      ¬SearchCovers Unit true defaultForBroker 7 1000 2000 := by
  refine ⟨by decide, by decide, fun hcovers => ?_⟩
  obtain ⟨l, -, -, hfound⟩ := hcovers.fulfilled fulfilledOnce (fun _ => honestNode fulfilledOnce)
    (fun _ => ⟨⟨2000, rfl⟩, fun _ => rfl⟩) ⟨_, List.mem_singleton_self _, by decide, by decide⟩
  have hnone : queryRequestFulfilledEvent true defaultForBroker (fun _ => honestNode fulfilledOnce) 7 (some 1000) (some 2000) =
      .error (.requestNotFound 7) := by decide
  cases hnone.symm.trans hfound

end VerifiableCompute.Market
