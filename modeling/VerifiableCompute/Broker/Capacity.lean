import VerifiableCompute.Broker.Types

/-! How many orders a broker takes on in one round: the slots that its commitments leave, the gas that its wallet
pays for, and the time that its prover needs at its peak speed. -/

namespace VerifiableCompute.Broker

open Lib Market List

/-- Why a round does not return: one of four ways to abort, or an order that has no estimate. -/
inductive CapacityFailure
  | unwrapNone
  | divideByZero
  | overflow
  | conversion
  | unsupportedSelector
  | gasLimit
  deriving DecidableEq

def CapacityFailure.isPanic : CapacityFailure → Bool
  | unwrapNone | divideByZero | overflow | conversion => true
  | unsupportedSelector | gasLimit => false

/-- Addition of unsigned words of 64 bits. -/
def add64 (a b : ℕ) : Except CapacityFailure ℕ := if a + b < 2 ^ 64 then .ok (a + b) else .error .overflow

/-! ### Slots -/

def MAX_PROVING_BATCH_SIZE : ℕ := 10

inductive Capacity
  | available (capacity : ℕ)
  | unlimited

def Capacity.requestCapacity (request : ℕ) : Capacity → ℕ
  | available capacity =>
    if capacity < request then min capacity MAX_PROVING_BATCH_SIZE else min request MAX_PROVING_BATCH_SIZE
  | unlimited => min MAX_PROVING_BATCH_SIZE request

/-! ### Orders -/

structure OrderMonitorConfig where
  peakProveKhz : Option U64
  maxConcurrentProofs : Option U32
  additionalProofCycles : U64
  batchBufferTimeSecs : U64

structure GasConfig where
  lockinGasEstimate : U64
  fulfillGasEstimate : U64
  groth16VerifyGasEstimate : U64

inductive ProofType
  | any
  | groth16
  | inclusion
  | blake3Groth16

/-- What the monitor reads of an order request. -/
structure Candidate where
  request : ProofRequest
  fulfillmentType : FulfillmentType
  totalCycles : Option U64
  deriving DecidableEq

/-- What the monitor reads of an order that it has committed to. -/
structure CommittedOrder where
  request : ProofRequest
  totalCycles : Option U64
  provingStartedAt : Option U64

def Candidate.toProvingOrder (order : Candidate) (now : U64) : CommittedOrder :=
  ⟨order.request, order.totalCycles, some now⟩

def Candidate.expiry (order : Candidate) : Except CapacityFailure ℕ :=
  match order.fulfillmentType with
  | .lockAndFulfill => add64 order.request.offer.rampUpStart.toNat order.request.offer.lockTimeout.toNat
  | .fulfillAfterLockExpire | .fulfillWithoutLocking =>
    add64 order.request.offer.rampUpStart.toNat order.request.offer.timeout.toNat

/-! ### Gas -/

def ERC1271_MAX_GAS_FOR_CHECK : ℕ := 100000

def estimateGasToLock (gas : GasConfig) (request : ProofRequest) : Except CapacityFailure ℕ :=
  if isSmartContractSigned request.id then add64 gas.lockinGasEstimate.toNat ERC1271_MAX_GAS_FOR_CHECK
  else .ok gas.lockinGasEstimate.toNat

/-- A callback to address zero is none. -/
def callbackGas (request : ProofRequest) : Except CapacityFailure ℕ :=
  if request.requirements.callback.addr = 0 then .ok 0
  else if request.requirements.callback.gasLimit.toNat < 2 ^ 64 then .ok request.requirements.callback.gasLimit.toNat
  else .error .gasLimit

variable (supported : Bytes4 → Option ProofType)

def proofGas (gas : GasConfig) (request : ProofRequest) : Except CapacityFailure ℕ :=
  match supported request.requirements.selector with
  | none => .error .unsupportedSelector
  | some .any | some .inclusion => .ok 0
  | some .groth16 | some .blake3Groth16 => .ok gas.groth16VerifyGasEstimate.toNat

def estimateGasToFulfill (gas : GasConfig) (request : ProofRequest) : Except CapacityFailure ℕ := do
  let estimate ← add64 gas.fulfillGasEstimate.toNat (← callbackGas request)
  add64 estimate (← proofGas supported gas request)

/-- One round of the monitor: what it is configured with, what it reads from the chain and the database, and the
orders that it considers. -/
structure Round where
  config : OrderMonitorConfig
  gas : GasConfig
  gasPrice : BitVec 128
  balance : U256
  now : U64
  committed : List CommittedOrder
  orders : List Candidate

namespace Round

variable (r : Round)

/-- The sum of two words of 64 bits, in a word of 256. -/
def orderGasUnits (order : Candidate) : Except CapacityFailure ℕ :=
  if order.fulfillmentType = .lockAndFulfill then do
    let lock ← estimateGasToLock r.gas order.request
    let fulfill ← estimateGasToFulfill supported r.gas order.request
    return lock + fulfill
  else estimateGasToFulfill supported r.gas order.request

/-- A price of 128 bits times less than `2^65` is in range. -/
def calculateOrderGasCostWei (order : Candidate) : Except CapacityFailure ℕ := do
  let units ← r.orderGasUnits supported order
  return r.gasPrice.toNat * units

def toU32 (n : ℕ) : Except CapacityFailure ℕ := if n < 2 ^ 32 then .ok n else .error .conversion

def getProvingOrderCapacity : Except CapacityFailure Capacity :=
  match r.config.maxConcurrentProofs with
  | none => .ok .unlimited
  | some max => do
    let committed ← toU32 r.committed.length
    return .available (max.toNat - committed)

/-! ### Time -/

/-- The seconds for a number of cycles, both divisions rounded up. -/
def seconds (khz cycles : ℕ) : ℕ := ((cycles + 999) / 1000 + (khz - 1)) / khz

def proofTimeSeconds (khz cycles : ℕ) : Except CapacityFailure ℕ :=
  if khz = 0 then .error .divideByZero else .ok (seconds khz cycles)

def unwrap {α : Type} : Option α → Except CapacityFailure α
  | some x => .ok x
  | none => .error .unwrapNone

def totalCommittedCycles : List CommittedOrder → ℕ → Except CapacityFailure ℕ
  | [], sum => .ok sum
  | order :: rest, sum => do
    let cycles ← unwrap order.totalCycles
    let cycles ← add64 cycles.toNat r.config.additionalProofCycles.toNat
    totalCommittedCycles rest (← add64 sum cycles)

/-- The first start of a proof, or now. -/
def startedProvingAt (committed : List CommittedOrder) : Except CapacityFailure ℕ := do
  let starts ← committed.mapM fun order => unwrap order.provingStartedAt
  return (starts.map BitVec.toNat).min?.getD r.now.toNat

def proverAvailableAt (khz : ℕ) : Except CapacityFailure ℕ := do
  let totalCommitedCycles ← r.totalCommittedCycles r.committed 0
  let startedProvingAt ← r.startedProvingAt r.committed
  let proofTimeSeconds ← proofTimeSeconds khz totalCommitedCycles
  let proverAvailableAt ← add64 startedProvingAt proofTimeSeconds
  return if proverAvailableAt < r.now.toNat then r.now.toNat else proverAvailableAt

/-! ### The loops -/

/-- With a peak speed: until the slots are used up, the orders that the wallet pays for and that are proved in time.
Whether an order that is left out may be taken later is decided from the time it would need by itself. -/
def limitByKhz (khz : ℕ) : ℕ → ℕ → ℕ → List Candidate → Except CapacityFailure (List Candidate)
  | _, _, _, [] => .ok []
  | 0, _, _, _ => .ok []
  | slots + 1, remaining, available, order :: rest => do
    let cost ← r.calculateOrderGasCostWei supported order
    if remaining < cost then limitByKhz khz (slots + 1) remaining available rest
    else
      match order.totalCycles with
      | none => return order :: (← limitByKhz khz slots (remaining - cost) available rest)
      | some cycles => do
        let totalCycles ← add64 cycles.toNat r.config.additionalProofCycles.toNat
        let time ← proofTimeSeconds khz totalCycles
        let completion ← add64 available time
        let expiration ← order.expiry
        let buffered ← add64 completion r.config.batchBufferTimeSecs.toNat
        if expiration < buffered then do
          let _ ← add64 r.now.toNat time
          limitByKhz khz (slots + 1) remaining available rest
        else return order :: (← limitByKhz khz slots (remaining - cost) completion rest)

def limitByGas : ℕ → ℕ → List Candidate → Except CapacityFailure (List Candidate)
  | _, _, [] => .ok []
  | 0, _, _ => .ok []
  | slots + 1, remaining, order :: rest => do
    let cost ← r.calculateOrderGasCostWei supported order
    if remaining < cost then limitByGas (slots + 1) remaining rest
    else return order :: (← limitByGas slots (remaining - cost) rest)

def committedGasUnits : List CommittedOrder → ℕ → Except CapacityFailure ℕ
  | [], sum => .ok sum
  | order :: rest, sum => do
    let units ← estimateGasToFulfill supported r.gas order.request
    committedGasUnits rest (← add64 sum units)

def applyCapacityLimits : Except CapacityFailure (List Candidate) := do
  let capacity ← r.getProvingOrderCapacity
  let numOrders ← toU32 r.orders.length
  let capacityGranted := capacity.requestCapacity numOrders
  let committedCostWei := r.gasPrice.toNat * (← r.committedGasUnits supported r.committed 0)
  if r.balance.toNat < committedCostWei then return []
  let remainingBalanceWei := r.balance.toNat - committedCostWei
  match r.config.peakProveKhz, r.orders with
  | some khz, _ :: _ => do
    let available ← r.proverAvailableAt khz.toNat
    r.limitByKhz supported khz.toNat capacityGranted remainingBalanceWei available r.orders
  | _, _ => r.limitByGas supported capacityGranted remainingBalanceWei r.orders

end Round

/-! ### What a round promises -/

section Purpose

def callbackUnits (request : ProofRequest) : ℕ :=
  if request.requirements.callback.addr = 0 then 0 else request.requirements.callback.gasLimit.toNat

section

variable (gas : GasConfig) (request : ProofRequest)

def proofUnits : ℕ :=
  match supported request.requirements.selector with
  | some .groth16 | some .blake3Groth16 => gas.groth16VerifyGasEstimate.toNat
  | _ => 0

/-- The gas of a fulfilment, with no bound on the sum. -/
def fulfillUnits : ℕ :=
  gas.fulfillGasEstimate.toNat + callbackUnits request + proofUnits supported gas request

def lockUnits : ℕ :=
  gas.lockinGasEstimate.toNat + if isSmartContractSigned request.id then ERC1271_MAX_GAS_FOR_CHECK else 0

end

/-- A request whose selector is supported and whose callback has a gas limit of 64 bits. -/
def Estimable (request : ProofRequest) : Prop :=
  supported request.requirements.selector ≠ none ∧
    (request.requirements.callback.addr = 0 ∨ request.requirements.callback.gasLimit.toNat < 2 ^ 64)

def Candidate.expiresAt (order : Candidate) : ℕ :=
  match order.fulfillmentType with
  | .lockAndFulfill => order.request.offer.rampUpStart.toNat + order.request.offer.lockTimeout.toNat
  | .fulfillAfterLockExpire | .fulfillWithoutLocking =>
    order.request.offer.rampUpStart.toNat + order.request.offer.timeout.toNat

namespace Round

variable (r : Round)

def committedCost : ℕ := r.gasPrice.toNat * (r.committed.map fun order => fulfillUnits supported r.gas order.request).sum

def orderCost (order : Candidate) : ℕ :=
  r.gasPrice.toNat * ((if order.fulfillmentType = .lockAndFulfill then lockUnits r.gas order.request else 0) +
    fulfillUnits supported r.gas order.request)

/-- The cycles that an order takes the prover: its own, where they are known, and those of the proofs around it. -/
def load (totalCycles : Option U64) : ℕ := (totalCycles.map BitVec.toNat).getD 0 + r.config.additionalProofCycles.toNat

def firstStart : ℕ := ((r.committed.filterMap CommittedOrder.provingStartedAt).map BitVec.toNat).min?.getD r.now.toNat

/-- When the prover is through with what is committed. -/
def proverStart (khz : ℕ) : ℕ :=
  max r.now.toNat (r.firstStart + seconds khz (r.committed.map fun order => r.load order.totalCycles).sum)

def completion (khz available : ℕ) (order : Candidate) : ℕ :=
  if order.totalCycles = none then available else available + seconds khz (r.load order.totalCycles)

/-- Proved one after the other, the orders with a cycle count are ready in time. -/
def CompletesFrom (khz : ℕ) : ℕ → List Candidate → Prop
  | _, [] => True
  | available, order :: rest =>
    (order.totalCycles ≠ none → r.completion khz available order + r.config.batchBufferTimeSecs.toNat ≤ order.expiresAt) ∧
      CompletesFrom khz (r.completion khz available order) rest

structure Admissible (taken : List Candidate) : Prop where
  sublist : taken.Sublist r.orders
  slots : ∀ max, r.config.maxConcurrentProofs = some max → taken.length ≤ max.toNat - r.committed.length
  batch : taken.length ≤ MAX_PROVING_BATCH_SIZE
  gas : r.committedCost supported + (taken.map (r.orderCost supported)).sum ≤ r.balance.toNat
  time : ∀ khz, r.config.peakProveKhz = some khz → r.CompletesFrom khz.toNat (r.proverStart khz.toNat) taken

/-- Every cycle count is below `2^63` divided by the number of orders. -/
def CyclesBounded : Prop :=
  ∀ cycles, some cycles ∈ r.orders.map Candidate.totalCycles ++ r.committed.map CommittedOrder.totalCycles →
    cycles.toNat * (r.orders.length + r.committed.length) < 2 ^ 63

/-- The round does not abort, except by an overflow of cycle counts that are out of bounds, and what it takes on is within
the limits. -/
structure WithinLimits : Prop where
  no_panic : ∀ failure, r.applyCapacityLimits supported = .error failure → failure.isPanic = true →
    failure = .overflow ∧ ¬ r.CyclesBounded
  admissible : ∀ taken, r.applyCapacityLimits supported = .ok taken → r.Admissible supported taken

/-- The wallet pays for what is committed, and a round with a peak speed finds one that is not zero and a cycle count on
every order that is committed. -/
def Prepared : Prop :=
  r.committedCost supported ≤ r.balance.toNat ∧
    ∀ khz, r.config.peakProveKhz = some khz → r.orders ≠ [] →
      khz.toNat ≠ 0 ∧ ∀ order ∈ r.committed, order.totalCycles ≠ none

/-- The other numbers of the round leave room in their words. -/
structure Fits : Prop where
  committed_length : r.committed.length < 2 ^ 32
  orders_length : r.orders.length < 2 ^ 32
  lock : ∀ order ∈ r.orders, lockUnits r.gas order.request < 2 ^ 64
  fulfill : ∀ order ∈ r.orders, fulfillUnits supported r.gas order.request < 2 ^ 64
  committed_gas : (r.committed.map fun order => fulfillUnits supported r.gas order.request).sum < 2 ^ 64
  expiry : ∀ order ∈ r.orders, order.expiresAt < 2 ^ 64
  time : ∀ start, start = r.now ∨ some start ∈ r.committed.map CommittedOrder.provingStartedAt →
    start.toNat + (r.orders.length + r.committed.length) * r.config.additionalProofCycles.toNat +
      r.config.batchBufferTimeSecs.toNat ≤ 2 ^ 63

end Round

/-- The orders that rounds of the monitor have committed to, whatever their configurations. -/
inductive Committable : CommittedOrder → Prop
  | accept (r : Round) (now : U64) (hcommitted : ∀ order ∈ r.committed, Committable order) (taken : List Candidate)
      (htaken : r.applyCapacityLimits supported = .ok taken) (order : Candidate) (horder : order ∈ taken) :
      Committable (order.toProvingOrder now)

end Purpose

/-! ### Gas estimates -/

variable {a b units : ℕ} {e : CapacityFailure} {request : ProofRequest} {gas : GasConfig} {order : CommittedOrder}

theorem add64_ok {c : ℕ} : add64 a b = .ok c ↔ c = a + b ∧ a + b < 2 ^ 64 := by
  unfold add64
  split_ifs with h
  · rw [Except.ok.injEq, and_iff_left h, eq_comm]
  · exact ⟨fun hfail => (by cases hfail), fun hsum => (h hsum.2).elim⟩

theorem add64_error : add64 a b = .error e ↔ e = .overflow ∧ 2 ^ 64 ≤ a + b := by
  unfold add64
  split_ifs with h
  · exact ⟨fun hfail => (by cases hfail), fun hsum => (Nat.not_le.mpr h hsum.2).elim⟩
  · rw [Except.error.injEq, and_iff_left (Nat.le_of_not_lt h), eq_comm]

theorem callbackGas_ok (h : callbackGas request = .ok units) : units = callbackUnits request ∧
      (request.requirements.callback.addr = 0 ∨ request.requirements.callback.gasLimit.toNat < 2 ^ 64) := by
  unfold callbackGas at h
  unfold callbackUnits
  split_ifs at h ⊢ with haddr hlimit <;> simp_all

theorem callbackGas_error (h : callbackGas request = .error e) : e.isPanic = false ∧ ¬ Estimable supported request := by
  unfold callbackGas at h
  split_ifs at h with haddr hlimit
  cases h
  exact ⟨rfl, fun hestimable => hestimable.2.elim haddr hlimit⟩

theorem proofGas_ok (h : proofGas supported gas request = .ok units) :
    units = proofUnits supported gas request ∧ supported request.requirements.selector ≠ none := by
  unfold proofGas at h
  unfold proofUnits
  split at h <;> simp_all

theorem proofGas_error
    (h : proofGas supported gas request = .error e) : e.isPanic = false ∧ ¬ Estimable supported request := by
  unfold proofGas at h
  split at h <;> cases h
  exact ⟨rfl, fun hestimable => hestimable.1 ‹_›⟩

theorem estimateGasToFulfill_ok (h : estimateGasToFulfill supported gas request = .ok units) :
    units = fulfillUnits supported gas request ∧ Estimable supported request := by
  simp only [estimateGasToFulfill, bind_ok_iff, add64_ok] at h
  obtain ⟨callback, hcallback, estimate, ⟨rfl, -⟩, proof, hproof, rfl, -⟩ := h
  obtain ⟨rfl, hlimit⟩ := callbackGas_ok hcallback
  obtain ⟨rfl, hselector⟩ := proofGas_ok supported hproof
  exact ⟨rfl, hselector, hlimit⟩

theorem estimateGasToFulfill_error (h : estimateGasToFulfill supported gas request = .error e) :
    e.isPanic = false ∧ ¬ Estimable supported request ∨ e = .overflow ∧ 2 ^ 64 ≤ fulfillUnits supported gas request := by
  simp only [estimateGasToFulfill, bind_error_iff, add64_error, add64_ok] at h
  obtain hcallback | ⟨callback, hcallback, ⟨rfl, hsum⟩ | ⟨estimate, ⟨rfl, -⟩, hproof | ⟨proof, hproof, rfl, hsum⟩⟩⟩ := h
  · exact .inl (callbackGas_error supported hcallback)
  · refine .inr ⟨rfl, hsum.trans ?_⟩
    rw [(callbackGas_ok hcallback).1]
    exact Nat.le_add_right _ _
  · exact .inl (proofGas_error supported hproof)
  · refine .inr ⟨rfl, hsum.trans_eq ?_⟩
    rw [(callbackGas_ok hcallback).1, (proofGas_ok supported hproof).1]
    rfl

theorem estimateGasToLock_ok (h : estimateGasToLock gas request = .ok units) : units = lockUnits gas request := by
  unfold estimateGasToLock at h
  unfold lockUnits
  split_ifs at h ⊢ with hsigned
  · exact (add64_ok.mp h).1
  · cases h
    rfl

theorem estimateGasToLock_error
    (h : estimateGasToLock gas request = .error e) : e = .overflow ∧ 2 ^ 64 ≤ lockUnits gas request := by
  unfold estimateGasToLock at h
  unfold lockUnits
  split_ifs at h ⊢ with hsigned
  exact add64_error.mp h

namespace Round

variable {supported} {r : Round}
variable {order : Candidate} {e : CapacityFailure} {khz cycles time slots remaining available sum : ℕ} {taken orders : List Candidate}
  {committed : List CommittedOrder}

theorem calculateOrderGasCostWei_ok {cost : ℕ} (h : r.calculateOrderGasCostWei supported order = .ok cost) :
    cost = r.orderCost supported order ∧ Estimable supported order.request := by
  simp only [calculateOrderGasCostWei, bind_ok_iff] at h
  obtain ⟨units, hunits, hcost⟩ := h
  cases hcost
  unfold orderGasUnits at hunits
  unfold orderCost
  split_ifs at hunits ⊢ with htype
  · simp only [bind_ok_iff] at hunits
    obtain ⟨lock, hlock, fulfill, hfulfill, hsum⟩ := hunits
    cases hsum
    obtain ⟨rfl, hestimable⟩ := estimateGasToFulfill_ok supported hfulfill
    rw [estimateGasToLock_ok hlock]
    exact ⟨rfl, hestimable⟩
  · obtain ⟨rfl, hestimable⟩ := estimateGasToFulfill_ok supported hunits
    rw [Nat.zero_add]
    exact ⟨rfl, hestimable⟩

theorem calculateOrderGasCostWei_error (h : r.calculateOrderGasCostWei supported order = .error e) :
    e.isPanic = false ∨ e = .overflow ∧
      (2 ^ 64 ≤ lockUnits r.gas order.request ∨ 2 ^ 64 ≤ fulfillUnits supported r.gas order.request) := by
  simp only [calculateOrderGasCostWei, bind_error_iff] at h
  obtain hunits | ⟨units, -, hcost⟩ := h
  · unfold orderGasUnits at hunits
    split_ifs at hunits with htype
    · simp only [bind_error_iff] at hunits
      obtain hlock | ⟨lock, -, hfulfill | ⟨fulfill, -, hsum⟩⟩ := hunits
      · exact .inr ((estimateGasToLock_error hlock).imp_right .inl)
      · exact (estimateGasToFulfill_error supported hfulfill).imp (·.1) (And.imp_right .inr)
      · cases hsum
    · exact (estimateGasToFulfill_error supported hunits).imp (·.1) (And.imp_right .inr)
  · cases hcost

/-! ### The loops -/

theorem seconds_le (hkhz : khz ≠ 0) (cycles : ℕ) : seconds khz cycles ≤ cycles := by
  unfold seconds
  rw [Nat.div_le_iff_le_mul_add_pred (Nat.pos_of_ne_zero hkhz)]
  have hround : (cycles + 999) / 1000 ≤ cycles := by omega
  exact Nat.add_le_add_right (hround.trans (Nat.le_mul_of_pos_left _ (Nat.pos_of_ne_zero hkhz))) _

theorem proofTimeSeconds_ok : proofTimeSeconds khz cycles = .ok time ↔ khz ≠ 0 ∧ time = seconds khz cycles := by
  unfold proofTimeSeconds
  split_ifs with h
  · exact ⟨fun hfail => (by cases hfail), fun hpos => (hpos.1 h).elim⟩
  · rw [Except.ok.injEq, and_iff_right h, eq_comm]

theorem proofTimeSeconds_error : proofTimeSeconds khz cycles = .error e ↔ khz = 0 ∧ e = .divideByZero := by
  unfold proofTimeSeconds
  split_ifs with h
  · rw [Except.error.injEq, and_iff_right h, eq_comm]
  · exact ⟨fun hfail => (by cases hfail), fun hzero => (h hzero.1).elim⟩

theorem expiry_ok (h : order.expiry = .ok time) : time = order.expiresAt := by
  unfold Candidate.expiry at h
  unfold Candidate.expiresAt
  split at h <;> simp_all [add64_ok]

theorem expiry_error (h : order.expiry = .error e) : e = .overflow ∧ 2 ^ 64 ≤ order.expiresAt := by
  unfold Candidate.expiry at h
  unfold Candidate.expiresAt
  split at h <;> simp_all [add64_error]

theorem limitByKhz_cons {rest : List Candidate}
    (h : r.limitByKhz supported khz (slots + 1) remaining available (order :: rest) = .ok taken) :
    r.limitByKhz supported khz (slots + 1) remaining available rest = .ok taken ∨
      ∃ others, taken = order :: others ∧ Estimable supported order.request ∧ r.orderCost supported order ≤ remaining ∧
        (order.totalCycles ≠ none →
          r.completion khz available order + r.config.batchBufferTimeSecs.toNat ≤ order.expiresAt) ∧
        r.limitByKhz supported khz slots (remaining - r.orderCost supported order) (r.completion khz available order) rest =
          .ok others := by
  unfold limitByKhz at h
  rw [bind_ok_iff] at h
  obtain ⟨cost, hcost, h⟩ := h
  obtain ⟨rfl, hestimable⟩ := calculateOrderGasCostWei_ok hcost
  split_ifs at h with hpaid
  · exact .inl h
  have hpaid := Nat.le_of_not_lt hpaid
  cases hcycles : order.totalCycles with
  | none =>
    simp only [hcycles, bind_ok_iff] at h
    obtain ⟨others, hothers, h⟩ := h
    cases h
    refine .inr ⟨others, rfl, hestimable, hpaid, fun hne => (hne rfl).elim, ?_⟩
    rwa [completion, if_pos hcycles]
  | some cycles =>
    simp only [hcycles, bind_ok_iff, add64_ok, proofTimeSeconds_ok] at h
    obtain ⟨total, ⟨rfl, -⟩, time, ⟨-, rfl⟩, completion, ⟨rfl, -⟩, expiration, hexpiry, buffered, ⟨rfl, -⟩, h⟩ := h
    have hcompletion : r.completion khz available order =
        available + seconds khz (cycles.toNat + r.config.additionalProofCycles.toNat) := by
      rw [Round.completion, if_neg (by rw [hcycles]; exact Option.some_ne_none _), hcycles]
      rfl
    split_ifs at h with hlate
    · simp only [bind_ok_iff] at h
      obtain ⟨-, -, h⟩ := h
      exact .inl h
    · simp only [bind_ok_iff] at h
      obtain ⟨others, hothers, h⟩ := h
      cases h
      refine .inr ⟨others, rfl, hestimable, hpaid, fun _ => ?_, ?_⟩
      · rw [hcompletion, ← expiry_ok hexpiry]
        exact Nat.le_of_not_lt hlate
      · rw [hcompletion]
        exact hothers

/-- The orders that a loop takes, their slots, what they cost, and that each has an estimate. -/
structure Takes (supported : Bytes4 → Option ProofType) (r : Round) (slots remaining : ℕ) (orders taken : List Candidate) :
    Prop where
  sublist : taken.Sublist orders
  slots : taken.length ≤ slots
  gas : (taken.map (r.orderCost supported)).sum ≤ remaining
  estimable : ∀ order ∈ taken, Estimable supported order.request

theorem takes_nil (slots remaining : ℕ) (orders : List Candidate) : Takes supported r slots remaining orders [] :=
  ⟨nil_sublist _, Nat.zero_le _, Nat.zero_le _, fun _ hmem => by cases hmem⟩

theorem Takes.skip
    (h : Takes supported r slots remaining orders taken) : Takes supported r slots remaining (order :: orders) taken :=
  ⟨h.sublist.cons _, h.slots, h.gas, h.estimable⟩

theorem Takes.take (hestimable : Estimable supported order.request) (hpaid : r.orderCost supported order ≤ remaining)
    (h : Takes supported r slots (remaining - r.orderCost supported order) orders taken) :
    Takes supported r (slots + 1) remaining (order :: orders) (order :: taken) := by
  refine ⟨h.sublist.cons_cons _, Nat.succ_le_succ h.slots, ?_, ?_⟩
  · have hgas := h.gas
    rw [map_cons, sum_cons]
    omega
  · intro other hmem
    obtain rfl | hmem := mem_cons.mp hmem
    · exact hestimable
    · exact h.estimable other hmem

theorem limitByKhz_takes (h : r.limitByKhz supported khz slots remaining available orders = .ok taken) :
    Takes supported r slots remaining orders taken ∧ r.CompletesFrom khz available taken := by
  induction orders generalizing slots remaining available taken with
  | nil =>
    unfold limitByKhz at h
    cases h
    exact ⟨takes_nil _ _ _, trivial⟩
  | cons order rest ih =>
    cases slots with
    | zero =>
      unfold limitByKhz at h
      cases h
      exact ⟨takes_nil _ _ _, trivial⟩
    | succ slots =>
      obtain hskip | ⟨others, rfl, hestimable, hpaid, hintime, hrest⟩ := limitByKhz_cons h
      · exact (ih hskip).imp_left Takes.skip
      · obtain ⟨htakes, hcompletes⟩ := ih hrest
        exact ⟨htakes.take hestimable hpaid, hintime, hcompletes⟩

theorem limitByGas_takes
    (h : r.limitByGas supported slots remaining orders = .ok taken) : Takes supported r slots remaining orders taken := by
  induction orders generalizing slots remaining taken with
  | nil =>
    unfold limitByGas at h
    cases h
    exact takes_nil _ _ _
  | cons order rest ih =>
    cases slots with
    | zero =>
      unfold limitByGas at h
      cases h
      exact takes_nil _ _ _
    | succ slots =>
      unfold limitByGas at h
      rw [bind_ok_iff] at h
      obtain ⟨cost, hcost, h⟩ := h
      obtain ⟨rfl, hestimable⟩ := calculateOrderGasCostWei_ok hcost
      split_ifs at h with hpaid
      · exact (ih h).skip
      · rw [bind_ok_iff] at h
        obtain ⟨others, hothers, h⟩ := h
        cases h
        exact (ih hothers).take hestimable (Nat.le_of_not_lt hpaid)

/-! ### Aborts -/

/-- The numbers of some orders leave room in their words when the prover is available at a time. -/
structure RoomFor (supported : Bytes4 → Option ProofType) (r : Round) (available : ℕ) (orders : List Candidate) : Prop where
  lock : ∀ order ∈ orders, lockUnits r.gas order.request < 2 ^ 64
  fulfill : ∀ order ∈ orders, fulfillUnits supported r.gas order.request < 2 ^ 64
  expiry : ∀ order ∈ orders, order.expiresAt < 2 ^ 64
  now : r.now.toNat ≤ available
  time : available + (orders.map fun order => r.load order.totalCycles).sum + r.config.batchBufferTimeSecs.toNat < 2 ^ 64

theorem completion_le (hkhz : khz ≠ 0) (available : ℕ) (order : Candidate) :
    r.completion khz available order ≤ available + r.load order.totalCycles := by
  unfold completion
  split_ifs with h
  · exact Nat.le_add_right _ _
  · exact Nat.add_le_add_left (seconds_le hkhz _) _

theorem le_completion (khz available : ℕ) (order : Candidate) : available ≤ r.completion khz available order := by
  unfold completion
  split_ifs with h
  · exact le_rfl
  · exact Nat.le_add_right _ _

theorem RoomFor.skip (h : RoomFor supported r available (order :: orders)) : RoomFor supported r available orders := by
  have htime := h.time
  rw [map_cons, sum_cons] at htime
  exact ⟨fun o hmem => h.lock o (mem_cons_of_mem _ hmem), fun o hmem => h.fulfill o (mem_cons_of_mem _ hmem),
    fun o hmem => h.expiry o (mem_cons_of_mem _ hmem), h.now, by omega⟩

theorem RoomFor.take (hkhz : khz ≠ 0) (h : RoomFor supported r available (order :: orders)) :
    RoomFor supported r (r.completion khz available order) orders := by
  have htime := h.time
  have hcompletion := completion_le (r := r) hkhz available order
  rw [map_cons, sum_cons] at htime
  exact { h.skip with
    now := h.now.trans (le_completion _ _ _)
    time := by omega }

theorem cost_aborts (hpanic : e.isPanic = true) (h : r.calculateOrderGasCostWei supported order = .error e) :
    e = .overflow ∧ ¬ (lockUnits r.gas order.request < 2 ^ 64 ∧ fulfillUnits supported r.gas order.request < 2 ^ 64) := by
  obtain hno | ⟨rfl, hbound⟩ := calculateOrderGasCostWei_error h
  · rw [hno] at hpanic
    cases hpanic
  · exact ⟨rfl, fun hroom => by omega⟩

/-- With a peak speed that is not zero the loop aborts by an overflow only, and where there is no room. -/
theorem limitByKhz_aborts (hkhz : khz ≠ 0) (hpanic : e.isPanic = true)
    (h : r.limitByKhz supported khz slots remaining available orders = .error e) :
    e = .overflow ∧ ¬ RoomFor supported r available orders := by
  induction orders generalizing slots remaining available with
  | nil =>
    unfold limitByKhz at h
    cases h
  | cons order rest ih =>
    cases slots with
    | zero =>
      unfold limitByKhz at h
      cases h
    | succ slots =>
      unfold limitByKhz at h
      rw [bind_error_iff] at h
      obtain hcost | ⟨cost, -, h⟩ := h
      · obtain ⟨rfl, hfull⟩ := cost_aborts hpanic hcost
        exact ⟨rfl, fun hroom => hfull ⟨hroom.lock order mem_cons_self, hroom.fulfill order mem_cons_self⟩⟩
      split_ifs at h with hpaid
      · exact (ih h).imp_right (mt RoomFor.skip)
      cases hcycles : order.totalCycles with
      | none =>
        simp only [hcycles, bind_error_iff] at h
        obtain h | ⟨others, -, h⟩ := h
        · exact (ih h).imp_right (mt RoomFor.skip)
        · cases h
      | some cycles =>
        have hload : r.load order.totalCycles = cycles.toNat + r.config.additionalProofCycles.toNat := by
          rw [hcycles]
          rfl
        have hcompletion : r.completion khz available order = available + seconds khz (r.load order.totalCycles) :=
          if_neg (by rw [hcycles]; exact Option.some_ne_none _)
        have hfast := seconds_le hkhz (r.load order.totalCycles)
        -- every sum of the iteration is at most what the room leaves
        have hroom : RoomFor supported r available (order :: rest) →
            available + r.load order.totalCycles + r.config.batchBufferTimeSecs.toNat < 2 ^ 64 ∧ r.now.toNat ≤ available := by
          intro hroom
          have htime := hroom.time
          rw [map_cons, sum_cons] at htime
          exact ⟨by omega, hroom.now⟩
        simp only [hcycles, bind_error_iff, add64_error, add64_ok, proofTimeSeconds_ok, proofTimeSeconds_error] at h
        rw [← hload] at h
        obtain ⟨rfl, hover⟩ | ⟨total, ⟨rfl, -⟩, ⟨hzero, -⟩ | ⟨time, ⟨-, rfl⟩, ⟨rfl, hover⟩ | ⟨completion, ⟨rfl, -⟩, hexpiry |
          ⟨expiration, -, ⟨rfl, hover⟩ | ⟨buffered, ⟨rfl, -⟩, h⟩⟩⟩⟩⟩ := h
        · exact ⟨rfl, fun h => by have := hroom h; omega⟩
        · exact (hkhz hzero).elim
        · exact ⟨rfl, fun h => by have := hroom h; omega⟩
        · obtain ⟨rfl, hover⟩ := expiry_error hexpiry
          exact ⟨rfl, fun h => Nat.not_le.mpr (h.expiry order mem_cons_self) hover⟩
        · exact ⟨rfl, fun h => by have := hroom h; omega⟩
        split_ifs at h with hlate
        · simp only [bind_error_iff, add64_error] at h
          obtain ⟨rfl, hover⟩ | ⟨-, -, h⟩ := h
          · exact ⟨rfl, fun h => by have := hroom h; omega⟩
          · exact (ih h).imp_right (mt RoomFor.skip)
        · simp only [bind_error_iff] at h
          obtain h | ⟨others, -, h⟩ := h
          · rw [← hcompletion] at h
            exact (ih h).imp_right (mt (RoomFor.take hkhz))
          · cases h

theorem limitByGas_aborts (hpanic : e.isPanic = true) (h : r.limitByGas supported slots remaining orders = .error e) :
    e = .overflow ∧ ¬ ∀ order ∈ orders,
      lockUnits r.gas order.request < 2 ^ 64 ∧ fulfillUnits supported r.gas order.request < 2 ^ 64 := by
  induction orders generalizing slots remaining with
  | nil =>
    unfold limitByGas at h
    cases h
  | cons order rest ih =>
    cases slots with
    | zero =>
      unfold limitByGas at h
      cases h
    | succ slots =>
      have hskip : (∀ other ∈ order :: rest, lockUnits r.gas other.request < 2 ^ 64 ∧
          fulfillUnits supported r.gas other.request < 2 ^ 64) → ∀ other ∈ rest, lockUnits r.gas other.request < 2 ^ 64 ∧
          fulfillUnits supported r.gas other.request < 2 ^ 64 := fun hroom other hmem =>
        hroom other (mem_cons_of_mem _ hmem)
      unfold limitByGas at h
      rw [bind_error_iff] at h
      obtain hcost | ⟨cost, -, h⟩ := h
      · exact (cost_aborts hpanic hcost).imp_right fun hfull hroom => hfull (hroom order mem_cons_self)
      split_ifs at h with hpaid
      · exact (ih h).imp_right (mt hskip)
      · rw [bind_error_iff] at h
        obtain h | ⟨others, -, h⟩ := h
        · exact (ih h).imp_right (mt hskip)
        · cases h

/-! ### What is committed -/

theorem unwrap_ok {α : Type} {o : Option α} {a : α} : unwrap o = .ok a ↔ o = some a := by
  cases o <;> simp [unwrap]

theorem unwrap_error {α : Type} {o : Option α} : unwrap o = .error e ↔ o = none ∧ e = .unwrapNone := by
  cases o <;> simp [unwrap, eq_comm]

theorem totalCommittedCycles_ok {total : ℕ} (h : r.totalCommittedCycles committed sum = .ok total) :
    total = sum + (committed.map fun order => r.load order.totalCycles).sum ∧
      ∀ order ∈ committed, order.totalCycles ≠ none := by
  induction committed generalizing sum with
  | nil =>
    unfold totalCommittedCycles at h
    cases h
    exact ⟨rfl, fun _ hmem => by cases hmem⟩
  | cons order rest ih =>
    simp only [totalCommittedCycles, bind_ok_iff, add64_ok, unwrap_ok] at h
    obtain ⟨cycles, hcycles, loaded, ⟨rfl, -⟩, next, ⟨rfl, -⟩, h⟩ := h
    obtain ⟨rfl, hcounted⟩ := ih h
    have hload : r.load order.totalCycles = cycles.toNat + r.config.additionalProofCycles.toNat := by
      rw [hcycles]
      rfl
    refine ⟨?_, fun other hmem => ?_⟩
    · rw [map_cons, sum_cons, hload, Nat.add_assoc]
    · obtain rfl | hmem := mem_cons.mp hmem
      · rw [hcycles]
        exact Option.some_ne_none _
      · exact hcounted other hmem

theorem totalCommittedCycles_error (h : r.totalCommittedCycles committed sum = .error e) :
    e = .unwrapNone ∧ (∃ order ∈ committed, order.totalCycles = none) ∨
      e = .overflow ∧ 2 ^ 64 ≤ sum + (committed.map fun order => r.load order.totalCycles).sum := by
  induction committed generalizing sum with
  | nil =>
    unfold totalCommittedCycles at h
    cases h
  | cons order rest ih =>
    simp only [totalCommittedCycles, bind_error_iff, add64_ok, add64_error, unwrap_ok, unwrap_error] at h
    rw [map_cons, sum_cons]
    obtain ⟨hnone, rfl⟩ | ⟨cycles, hcycles, h⟩ := h
    · exact .inl ⟨rfl, order, mem_cons_self, hnone⟩
    have hload : r.load order.totalCycles = cycles.toNat + r.config.additionalProofCycles.toNat := by
      rw [hcycles]
      rfl
    obtain ⟨rfl, hover⟩ | ⟨loaded, ⟨rfl, -⟩, ⟨rfl, hover⟩ | ⟨next, ⟨rfl, -⟩, h⟩⟩ := h
    · exact .inr ⟨rfl, by omega⟩
    · exact .inr ⟨rfl, by omega⟩
    · obtain ⟨rfl, other, hmem, hnone⟩ | ⟨rfl, hover⟩ := ih h
      · exact .inl ⟨rfl, other, mem_cons_of_mem _ hmem, hnone⟩
      · exact .inr ⟨rfl, by omega⟩

theorem mapM_unwrap {α β : Type} (f : α → Option β) {l : List α} (h : ∀ a ∈ l, f a ≠ none) :
    (l.mapM fun a => unwrap (f a)) = .ok (l.filterMap f) := by
  induction l with
  | nil => rfl
  | cons a l ih =>
    obtain ⟨b, hb⟩ := Option.ne_none_iff_exists'.mp (h a mem_cons_self)
    rw [mapM_cons, ih fun a hmem => h a (mem_cons_of_mem _ hmem), filterMap_cons_some hb, hb]
    rfl

theorem startedProvingAt_eq (h : ∀ order ∈ r.committed, order.provingStartedAt ≠ none) :
    r.startedProvingAt r.committed = .ok r.firstStart := by
  unfold startedProvingAt
  rw [mapM_unwrap CommittedOrder.provingStartedAt h]
  rfl

theorem proverAvailableAt_ok (hstarted : ∀ order ∈ r.committed, order.provingStartedAt ≠ none)
    (h : r.proverAvailableAt khz = .ok available) :
    available = r.proverStart khz ∧ khz ≠ 0 ∧ ∀ order ∈ r.committed, order.totalCycles ≠ none := by
  simp only [proverAvailableAt, bind_ok_iff, startedProvingAt_eq hstarted, proofTimeSeconds_ok, add64_ok] at h
  obtain ⟨total, htotal, start, hstart, time, ⟨hkhz, rfl⟩, finish, ⟨rfl, -⟩, h⟩ := h
  cases hstart
  cases h
  obtain ⟨rfl, hcounted⟩ := totalCommittedCycles_ok htotal
  refine ⟨?_, hkhz, hcounted⟩
  unfold proverStart
  rw [Nat.zero_add]
  split_ifs with hbehind
  · exact (max_eq_left hbehind.le).symm
  · exact (max_eq_right (Nat.le_of_not_lt hbehind)).symm

theorem proverAvailableAt_error (hstarted : ∀ order ∈ r.committed, order.provingStartedAt ≠ none)
    (h : r.proverAvailableAt khz = .error e) :
    e.isPanic = true ∧ (e ≠ .overflow → khz = 0 ∨ ∃ order ∈ r.committed, order.totalCycles = none) ∧
      (e = .overflow → 2 ^ 64 ≤ r.firstStart + (r.committed.map fun order => r.load order.totalCycles).sum) := by
  simp only [proverAvailableAt, bind_error_iff, startedProvingAt_eq hstarted, proofTimeSeconds_ok, proofTimeSeconds_error,
    add64_ok, add64_error] at h
  obtain htotal | ⟨total, htotal, hstart | ⟨start, hstart, ⟨hzero, rfl⟩ | ⟨time, ⟨hkhz, rfl⟩, ⟨rfl, hover⟩ | ⟨finish, -, h⟩⟩⟩⟩ := h
  · obtain ⟨rfl, hnone⟩ | ⟨rfl, hover⟩ := totalCommittedCycles_error htotal
    · exact ⟨rfl, fun _ => .inr hnone, fun hne => by cases hne⟩
    · exact ⟨rfl, fun hne => (hne rfl).elim, fun _ => by omega⟩
  · cases hstart
  · exact ⟨rfl, fun _ => .inl hzero, fun hne => by cases hne⟩
  · cases hstart
    obtain ⟨rfl, -⟩ := totalCommittedCycles_ok htotal
    refine ⟨rfl, fun hne => (hne rfl).elim, fun _ => ?_⟩
    rw [Nat.zero_add] at hover
    exact hover.trans (Nat.add_le_add_left (seconds_le hkhz _) _)
  · cases h

theorem committedGasUnits_ok {units : ℕ} (h : r.committedGasUnits supported committed sum = .ok units) :
    units = sum + (committed.map fun order => fulfillUnits supported r.gas order.request).sum := by
  induction committed generalizing sum with
  | nil =>
    unfold committedGasUnits at h
    cases h
    rfl
  | cons order rest ih =>
    simp only [committedGasUnits, bind_ok_iff, add64_ok] at h
    obtain ⟨estimate, hestimate, next, ⟨rfl, -⟩, h⟩ := h
    rw [ih h, (estimateGasToFulfill_ok supported hestimate).1, map_cons, sum_cons, Nat.add_assoc]

theorem committedGasUnits_error (hestimable : ∀ order ∈ committed, Estimable supported order.request)
    (h : r.committedGasUnits supported committed sum = .error e) :
    e = .overflow ∧ 2 ^ 64 ≤ sum + (committed.map fun order => fulfillUnits supported r.gas order.request).sum := by
  induction committed generalizing sum with
  | nil =>
    unfold committedGasUnits at h
    cases h
  | cons order rest ih =>
    simp only [committedGasUnits, bind_error_iff, add64_ok, add64_error] at h
    rw [map_cons, sum_cons]
    obtain hestimate | ⟨estimate, hestimate, ⟨rfl, hover⟩ | ⟨next, ⟨rfl, -⟩, h⟩⟩ := h
    · obtain ⟨-, hnot⟩ | ⟨rfl, hover⟩ := estimateGasToFulfill_error supported hestimate
      · exact (hnot (hestimable order mem_cons_self)).elim
      · exact ⟨rfl, by omega⟩
    · rw [(estimateGasToFulfill_ok supported hestimate).1] at hover
      exact ⟨rfl, by omega⟩
    · obtain ⟨rfl, hover⟩ := ih (fun other hmem => hestimable other (mem_cons_of_mem _ hmem)) h
      rw [(estimateGasToFulfill_ok supported hestimate).1] at hover
      exact ⟨rfl, by omega⟩

/-! ### Rounds -/

theorem requestCapacity_le_batch (capacity : Capacity) (request : ℕ) :
    capacity.requestCapacity request ≤ MAX_PROVING_BATCH_SIZE := by
  unfold Capacity.requestCapacity
  split
  · split_ifs <;> exact Nat.min_le_right _ _
  · exact Nat.min_le_left _ _

theorem requestCapacity_le {capacity : Capacity} (h : r.getProvingOrderCapacity = .ok capacity) (request : ℕ) {max : U32}
    (hmax : r.config.maxConcurrentProofs = some max) :
    capacity.requestCapacity request ≤ max.toNat - r.committed.length := by
  simp only [getProvingOrderCapacity, hmax, bind_ok_iff] at h
  obtain ⟨committed, hcommitted, h⟩ := h
  cases h
  unfold toU32 at hcommitted
  split_ifs at hcommitted
  cases hcommitted
  unfold Capacity.requestCapacity
  dsimp only
  split_ifs with hshort
  · exact Nat.min_le_left _ _
  · exact (Nat.min_le_left _ _).trans (Nat.le_of_not_lt hshort)

theorem applyCapacityLimits_ok (hstarted : ∀ order ∈ r.committed, order.provingStartedAt ≠ none)
    (h : r.applyCapacityLimits supported = .ok taken) :
    (r.balance.toNat < r.committedCost supported ∨ r.Prepared supported ∧ r.Admissible supported taken) ∧
      ∀ order ∈ taken, Estimable supported order.request := by
  simp only [applyCapacityLimits, bind_ok_iff] at h
  obtain ⟨capacity, hcapacity, numOrders, -, units, hunits, h⟩ := h
  have hcost : r.gasPrice.toNat * units = r.committedCost supported := by
    rw [committedGasUnits_ok hunits, Nat.zero_add]
    rfl
  rw [hcost] at h
  have hslots (max : U32) (hmax : r.config.maxConcurrentProofs = some max) := requestCapacity_le hcapacity numOrders hmax
  have hbatch := requestCapacity_le_batch capacity numOrders
  split_ifs at h with hpoor
  · cases h
    exact ⟨.inl hpoor, fun _ hmem => by cases hmem⟩
  have hpaid := Nat.le_of_not_lt hpoor
  have hadmissible (htakes : Takes supported r (capacity.requestCapacity numOrders)
      (r.balance.toNat - r.committedCost supported) r.orders taken)
      (htime : ∀ khz, r.config.peakProveKhz = some khz → r.CompletesFrom khz.toNat (r.proverStart khz.toNat) taken) :
      r.Admissible supported taken :=
    ⟨htakes.sublist, fun max hmax => htakes.slots.trans (hslots max hmax), htakes.slots.trans hbatch,
      (Nat.le_sub_iff_add_le' hpaid).mp htakes.gas, htime⟩
  split at h
  next khz first others hkhz horders =>
    rw [bind_ok_iff] at h
    obtain ⟨available, havailable, h⟩ := h
    obtain ⟨rfl, hpos, hcounted⟩ := proverAvailableAt_ok hstarted havailable
    obtain ⟨htakes, hcompletes⟩ := limitByKhz_takes h
    refine ⟨.inr ⟨⟨hpaid, fun khz' hkhz' _ => ?_⟩, hadmissible htakes fun khz' hkhz' => ?_⟩, htakes.estimable⟩
    all_goals
      rw [hkhz, Option.some.injEq] at hkhz'
      subst hkhz'
    · exact ⟨hpos, hcounted⟩
    · exact hcompletes
  next hnot =>
    have htakes := limitByGas_takes h
    have hnil : ∀ khz, r.config.peakProveKhz = some khz → r.orders = [] := fun khz hkhz => by
      cases horders : r.orders with
      | nil => rfl
      | cons first others => exact (hnot khz first others hkhz horders).elim
    refine ⟨.inr ⟨⟨hpaid, fun khz hkhz hne => (hne (hnil khz hkhz)).elim⟩, hadmissible htakes fun khz hkhz => ?_⟩,
      htakes.estimable⟩
    have htaken := htakes.sublist
    rw [hnil khz hkhz, sublist_nil] at htaken
    rw [htaken]
    trivial

theorem sum_lt_of_mul_length_lt {l : List ℕ} {b : ℕ} (hb : 0 < b) (h : ∀ x ∈ l, x * l.length < b) : l.sum < b := by
  obtain hzero | hpos := Nat.eq_zero_or_pos l.length
  · rw [length_eq_zero_iff.mp hzero]
    exact hb
  have hle : ∀ x ∈ l, x ≤ (b - 1) / l.length := fun x hx =>
    (Nat.le_div_iff_mul_le hpos).mpr (Nat.le_sub_one_of_lt (h x hx))
  have hsum := sum_le_card_nsmul l _ hle
  rw [smul_eq_mul] at hsum
  have hdiv := Nat.mul_div_le (b - 1) l.length
  omega

theorem loads_lt (h : r.CyclesBounded) :
    (r.orders.map fun order => r.load order.totalCycles).sum + (r.committed.map fun order => r.load order.totalCycles).sum <
      2 ^ 63 + (r.orders.length + r.committed.length) * r.config.additionalProofCycles.toNat := by
  have hsplit (l : List (Option U64)) : (l.map r.load).sum =
      (l.map fun cycles => (cycles.map BitVec.toNat).getD 0).sum + l.length * r.config.additionalProofCycles.toNat := by
    unfold load
    rw [sum_map_add, map_const', sum_replicate, smul_eq_mul]
  have hcounts := sum_lt_of_mul_length_lt (l := (r.orders.map Candidate.totalCycles ++
    r.committed.map CommittedOrder.totalCycles).map fun cycles => (cycles.map BitVec.toNat).getD 0) (b := 2 ^ 63)
    (by norm_num) fun x hx => by
      obtain ⟨cycles, hmem, rfl⟩ := mem_map.mp hx
      rw [length_map, length_append, length_map, length_map]
      cases cycles with
      | none =>
        rw [Option.map_none, Option.getD_none, Nat.zero_mul]
        norm_num
      | some cycles => exact h cycles hmem
  have horders := hsplit (r.orders.map Candidate.totalCycles)
  have hcommitted := hsplit (r.committed.map CommittedOrder.totalCycles)
  rw [map_map, length_map] at horders hcommitted
  rw [map_append, sum_append] at hcounts
  rw [Nat.add_mul]
  have horders' : (r.orders.map fun order => r.load order.totalCycles).sum = _ := horders
  have hcommitted' : (r.committed.map fun order => r.load order.totalCycles).sum = _ := hcommitted
  omega

theorem firstStart_mem :
    r.firstStart = r.now.toNat ∨ ∃ start, some start ∈ r.committed.map CommittedOrder.provingStartedAt ∧ r.firstStart = start.toNat := by
  unfold firstStart
  cases hmin : ((r.committed.filterMap CommittedOrder.provingStartedAt).map BitVec.toNat).min? with
  | none => exact .inl rfl
  | some first =>
    obtain ⟨start, hstart, rfl⟩ := mem_map.mp (min?_mem hmin)
    obtain ⟨order, horder, hsome⟩ := mem_filterMap.mp hstart
    exact .inr ⟨start, mem_map.mpr ⟨order, horder, hsome⟩, rfl⟩

/-- Where the numbers fit and the cycle counts are bounded, there is room for everything. -/
theorem room_of_fits (hfits : r.Fits supported) (hbounded : r.CyclesBounded) :
    r.firstStart + (r.committed.map fun order => r.load order.totalCycles).sum < 2 ^ 64 ∧
      ∀ khz, khz ≠ 0 → RoomFor supported r (r.proverStart khz) r.orders := by
  have hloads := loads_lt hbounded
  have hnow := hfits.time r.now (.inl rfl)
  have hfirst : r.firstStart + (r.orders.length + r.committed.length) * r.config.additionalProofCycles.toNat +
      r.config.batchBufferTimeSecs.toNat ≤ 2 ^ 63 := by
    obtain heq | ⟨start, hmem, heq⟩ := firstStart_mem (r := r)
    · rw [heq]
      exact hnow
    · rw [heq]
      exact hfits.time start (.inr hmem)
  refine ⟨by omega, fun khz hkhz => ⟨hfits.lock, hfits.fulfill, hfits.expiry, le_max_left _ _, ?_⟩⟩
  have hfast := seconds_le hkhz (r.committed.map fun order => r.load order.totalCycles).sum
  unfold proverStart
  omega

theorem toU32_error {n : ℕ} (h : toU32 n = .error e) : e = .conversion ∧ 2 ^ 32 ≤ n := by
  unfold toU32 at h
  split_ifs at h with hn
  cases h
  exact ⟨rfl, Nat.le_of_not_lt hn⟩

theorem getProvingOrderCapacity_error (h : r.getProvingOrderCapacity = .error e) :
    e = .conversion ∧ 2 ^ 32 ≤ r.committed.length := by
  unfold getProvingOrderCapacity at h
  split at h
  · cases h
  · simp only [bind_error_iff] at h
    obtain h | ⟨committed, -, h⟩ := h
    · exact toU32_error h
    · cases h

variable (hstarted : ∀ order ∈ r.committed, order.provingStartedAt ≠ none) (hestimable : ∀ order ∈ r.committed, Estimable supported order.request)

include hstarted hestimable

/-- A round that is prepared and whose numbers fit does not abort, except where the cycle counts are out of bounds. -/
theorem aborts_of_prepared (hfits : r.Fits supported)
    (hprepared : r.Prepared supported) (h : r.applyCapacityLimits supported = .error e)
    (hpanic : e.isPanic = true) : e = .overflow ∧ ¬ r.CyclesBounded := by
  simp only [applyCapacityLimits, bind_error_iff] at h
  obtain hcapacity | ⟨capacity, -, hnum | ⟨numOrders, -, hunits | ⟨units, -, h⟩⟩⟩ := h
  · exact (Nat.not_le.mpr hfits.committed_length (getProvingOrderCapacity_error hcapacity).2).elim
  · exact (Nat.not_le.mpr hfits.orders_length (toU32_error hnum).2).elim
  · obtain ⟨-, hover⟩ := committedGasUnits_error hestimable hunits
    rw [Nat.zero_add] at hover
    exact (Nat.not_le.mpr hfits.committed_gas hover).elim
  split_ifs at h with hpoor
  · cases h
  split at h
  next khz first others hkhz horders =>
    obtain ⟨hpos, hcounted⟩ := hprepared.2 khz hkhz (by rw [horders]; exact cons_ne_nil _ _)
    rw [bind_error_iff] at h
    obtain havailable | ⟨available, havailable, h⟩ := h
    · obtain ⟨-, hother, hover⟩ := proverAvailableAt_error hstarted havailable
      have hoverflow : e = .overflow := by
        by_contra hne
        obtain hzero | ⟨order, hmem, hnone⟩ := hother hne
        · exact hpos hzero
        · exact hcounted order hmem hnone
      exact ⟨hoverflow, fun hbounded => Nat.not_le.mpr (room_of_fits hfits hbounded).1 (hover hoverflow)⟩
    · rw [(proverAvailableAt_ok hstarted havailable).1] at h
      exact (limitByKhz_aborts hpos hpanic h).imp_right (mt fun hbounded => (room_of_fits hfits hbounded).2 _ hpos)
  next =>
    obtain ⟨-, hfull⟩ := limitByGas_aborts hpanic h
    exact (hfull fun order hmem => ⟨hfits.lock order hmem, hfits.fulfill order hmem⟩).elim

/-- A round that fails without an abort has got to an order, past the checks of what is committed. -/
theorem prepared_of_error
    (h : r.applyCapacityLimits supported = .error e) (hcalm : e.isPanic = false) : r.Prepared supported := by
  simp only [applyCapacityLimits, bind_error_iff] at h
  obtain hcapacity | ⟨capacity, -, hnum | ⟨numOrders, -, hunits | ⟨units, hunits, h⟩⟩⟩ := h
  · rw [(getProvingOrderCapacity_error hcapacity).1] at hcalm
    cases hcalm
  · rw [(toU32_error hnum).1] at hcalm
    cases hcalm
  · rw [(committedGasUnits_error hestimable hunits).1] at hcalm
    cases hcalm
  have hcost : r.gasPrice.toNat * units = r.committedCost supported := by
    rw [committedGasUnits_ok hunits, Nat.zero_add]
    rfl
  rw [hcost] at h
  split_ifs at h with hpoor
  · cases h
  refine ⟨Nat.le_of_not_lt hpoor, fun khz hkhz hne => ?_⟩
  obtain ⟨first, others, horders⟩ := exists_cons_of_ne_nil hne
  rw [hkhz, horders] at h
  dsimp only at h
  rw [bind_error_iff] at h
  obtain havailable | ⟨available, havailable, -⟩ := h
  · rw [(proverAvailableAt_error hstarted havailable).1] at hcalm
    cases hcalm
  · exact (proverAvailableAt_ok hstarted havailable).2

end Round

theorem Committable.startedAt (h : Committable supported order) : order.provingStartedAt ≠ none := by
  obtain ⟨r, now, -, taken, -, order, -⟩ := h
  exact Option.some_ne_none _

theorem Committable.estimable (h : Committable supported order) : Estimable supported order.request := by
  obtain ⟨r, now, hcommitted, taken, htaken, order, horder⟩ := h
  exact (Round.applyCapacityLimits_ok (fun other hmem => (hcommitted other hmem).startedAt) htaken).2 order horder

/-- Next to orders that earlier rounds committed to, a round that is prepared and whose numbers fit is within its limits; and
a round with bounded cycle counts is within its limits only where it is prepared. -/
theorem round_within_limits (r : Round) (hcommitted : ∀ order ∈ r.committed, Committable supported order) :
    (r.Fits supported → r.Prepared supported → r.WithinLimits supported) ∧
      (r.CyclesBounded → r.WithinLimits supported → r.Prepared supported) := by
  have hstarted := fun order hmem => (hcommitted order hmem).startedAt
  have hestimable := fun order hmem => (hcommitted order hmem).estimable
  refine ⟨fun hfits hprepared => ⟨fun e he hpanic => ?_, fun taken htaken => ?_⟩, fun hbounded hwithin => ?_⟩
  · exact Round.aborts_of_prepared hstarted hestimable hfits hprepared he hpanic
  · obtain hpoor | ⟨-, hadmissible⟩ := (Round.applyCapacityLimits_ok hstarted htaken).1
    · exact (Nat.not_le.mpr hpoor hprepared.1).elim
    · exact hadmissible
  · cases hresult : r.applyCapacityLimits supported with
    | ok taken =>
      obtain hpoor | ⟨hprepared, -⟩ := (Round.applyCapacityLimits_ok hstarted hresult).1
      · have hgas := (hwithin.admissible taken hresult).gas
        omega
      · exact hprepared
    | error e =>
      refine Round.prepared_of_error hstarted hestimable hresult ?_
      by_contra hpanic
      exact (hwithin.no_panic e hresult (Bool.eq_true_of_not_eq_false hpanic)).2 hbounded

/-- One order of the market's sample request, a prover at one kilohertz with two slots, and what is committed. -/
def sampleRound (totalCycles : Option U64) (committed : List CommittedOrder) : Round where
  config := ⟨some 1, some 2, 0, 5⟩
  gas := ⟨10, 20, 30⟩
  gasPrice := 1
  balance := 1000
  now := 110
  committed := committed
  orders := [⟨sampleRequest sampleId, .lockAndFulfill, totalCycles⟩]

def sampleCommitted (totalCycles : Option U64) : CommittedOrder := ⟨sampleRequest sampleId, totalCycles, some 110⟩

theorem committable_sample {totalCycles : Option U64}
    (h : (sampleRound totalCycles []).applyCapacityLimits (fun _ => some .any) = .ok (sampleRound totalCycles []).orders) :
    ∀ order ∈ [sampleCommitted totalCycles], Committable (fun _ => some .any) order := by
  intro order horder
  rw [mem_singleton.mp horder]
  exact .accept (sampleRound totalCycles []) 110 (fun _ hmem => by cases hmem) _ h _ mem_cons_self

theorem round_within_limits_second :
    (sampleRound (some 1000) [sampleCommitted (some 1000)]).WithinLimits (fun _ => some .any) := by
  refine (round_within_limits _ _ (committable_sample (by decide))).1
    ⟨by decide, by decide, by decide, by decide, by decide, by decide, ?_⟩ ⟨by decide, fun khz hkhz _ => ?_⟩
  · rintro start (rfl | hstart)
    · decide
    · rw [Option.some.inj (List.mem_singleton.mp hstart)]
      decide
  · cases hkhz
    decide

/-- The first round takes an order that was accepted without a preflight, and the second one finds no cycle count on it. -/
theorem not_withinLimits_second : ¬ ∀ (supported : Bytes4 → Option ProofType) (r : Round),
    (∀ order ∈ r.committed, Committable supported order) → r.WithinLimits supported := by
  intro h
  have hwithin := h (fun _ => some .any) (sampleRound (some 1000) [sampleCommitted none]) (committable_sample (by decide))
  have hoverflow := (hwithin.no_panic .unwrapNone (by decide) rfl).1
  cases hoverflow

end VerifiableCompute.Broker
