import VerifiableCompute.Lib.OrderedMap
import VerifiableCompute.Povw.Accounting

/-! The guest that computes the rewards. It reads the events of the blocks that the
prover chose, chains the updates of each log, checks that the chains are complete
up to the block before the last finalization, and splits the emissions of each
epoch by work, capped for each log. -/

namespace VerifiableCompute.Povw

open Lib WordOrder
open Market (U64 U96 U256 Address Bytes Bytes32)

/-- A fraction of 128 bits. -/
structure FixedPoint where
  raw : ℕ

namespace FixedPoint

def bits : ℕ := 128

def base : ℕ := 2 ^ bits

def zero : FixedPoint := ⟨0⟩

/-- A product or a sum that does not fit 256 bits panics. -/
def fits (n : ℕ) : Option ℕ := if n < 2 ^ 256 then some n else none

/-- Panics when the product overflows, the denominator is zero or the fraction exceeds one. -/
def fraction (num dem : ℕ) : Option FixedPoint := do
  let product ← fits (num * base)
  if dem = 0 then none
  else if product / dem ≤ base then some ⟨product / dem⟩ else none

def add (x y : FixedPoint) : Option FixedPoint := do
  let sum ← fits (x.raw + y.raw)
  return ⟨sum⟩

def mulUnwrap (x : FixedPoint) (y : ℕ) : Option ℕ := do
  let product ← fits (x.raw * y)
  return product / base

end FixedPoint

structure UpdateEvent where
  workLogId : Address
  epochNumber : ℕ
  initialCommit : Bytes32
  updatedCommit : Bytes32
  updateValue : ℕ
  valueRecipient : Address
  deriving DecidableEq

/-- The three contracts that are queried. -/
structure Contracts where
  accounting : Address
  token : Address
  tokenRewards : Address

/-- What can be queried of one block: the events of the accounting contract in the
block, and the commits and the token contracts as the block leaves them. -/
structure Env where
  number : ℕ
  epochFinalized : List (ℕ × ℕ)
  workLogUpdated : List UpdateEvent
  workLogCommit : Address → Bytes32
  getPoVWEmissionsForEpoch : ℕ → ℕ
  getEpochEndTime : ℕ → ℕ
  getPastPoVWRewardCap : Address → ℕ → ℕ

/-- No set means every log. -/
abbrev WorkLogFilter := Option (List Address)

def WorkLogFilter.includes (filter : WorkLogFilter) (logId : Address) : Bool :=
  match filter with
  | none => true
  | some set => logId ∈ set

structure Input where
  povwAccountingAddress : Address
  zkcAddress : Address
  zkcRewardsAddress : Address
  blocks : List ℕ
  workLogFilter : WorkLogFilter

def Input.contracts (input : Input) : Contracts :=
  ⟨input.povwAccountingAddress, input.zkcAddress, input.zkcRewardsAddress⟩

structure MintCalculatorUpdate where
  workLogId : Address
  initialCommit : Bytes32
  updatedCommit : Bytes32

structure MintCalculatorMint where
  recipient : Address
  value : ℕ

structure MintCalculatorJournal where
  mints : List MintCalculatorMint
  updates : List MintCalculatorUpdate
  povwAccountingAddress : Address
  zkcAddress : Address
  zkcRewardsAddress : Address

/-- The total work of every finalized epoch and the last block with a finalization. An
epoch that is finalized twice panics. -/
def collectEpochs : List Env → OrderedMap ℕ ℕ × Option ℕ → Option (OrderedMap ℕ ℕ × Option ℕ)
  | [], acc => some acc
  | env :: envs, acc => do
    let acc ← env.epochFinalized.foldlM (fun acc event =>
      match acc.1.get? event.1 with
      | none => some (acc.1.insert event.1 event.2, some env.number)
      | some _ => none) acc
    collectEpochs envs acc

/-- The event passes the filter and its epoch is finalized in one of the blocks. -/
def processed (filter : WorkLogFilter) (epochs : OrderedMap ℕ ℕ) (event : UpdateEvent) : Bool :=
  filter.includes event.workLogId && (epochs.get? event.epochNumber).isSome

/-- Insert or extend the chain of a log; a gap in the chain panics. -/
def chainUpdate (updates : OrderedMap Address (Bytes32 × Bytes32)) (event : UpdateEvent) :
    Option (OrderedMap Address (Bytes32 × Bytes32)) :=
  match updates.get? event.workLogId with
  | none => some (updates.insert event.workLogId (event.initialCommit, event.updatedCommit))
  | some commits =>
    if commits.2 = event.initialCommit then
      some (updates.insert event.workLogId (commits.1, event.updatedCommit))
    else none

/-- Epoch, work log, recipient and weight. -/
abbrev RewardWeightMap := OrderedMap ℕ (OrderedMap Address (OrderedMap Address FixedPoint))

/-- Zero-valued updates have no weight. -/
def addWeight (epochs : OrderedMap ℕ ℕ) (weights : RewardWeightMap) (event : UpdateEvent) : Option RewardWeightMap :=
  if event.updateValue > 0 then do
    let epochTotalWork ← epochs.get? event.epochNumber
    let byLog := (weights.get? event.epochNumber).getD .empty
    let byRecipient := (byLog.get? event.workLogId).getD .empty
    let weight := (byRecipient.get? event.valueRecipient).getD .zero
    let fraction ← FixedPoint.fraction event.updateValue epochTotalWork
    let weight ← weight.add fraction
    return weights.insert event.epochNumber
      (byLog.insert event.workLogId (byRecipient.insert event.valueRecipient weight))
  else some weights

def collectUpdates (filter : WorkLogFilter) (epochs : OrderedMap ℕ ℕ) :
    List UpdateEvent → OrderedMap Address (Bytes32 × Bytes32) × RewardWeightMap →
    Option (OrderedMap Address (Bytes32 × Bytes32) × RewardWeightMap)
  | [], acc => some acc
  | event :: events, acc =>
    if processed filter epochs event then do
      let updates ← chainUpdate acc.1 event
      let weights ← addWeight epochs acc.2 event
      collectUpdates filter epochs events (updates, weights)
    else collectUpdates filter epochs events acc

/-- A reward of one recipient for the work of one log in one epoch. -/
structure Award where
  epoch : ℕ
  workLogId : Address
  recipient : Address
  reward : ℕ

/-- The recipients of one log share what is left of its cap. -/
def capRewards (epoch : ℕ) (workLogId : Address) (epochEmissions : ℕ) :
    ℕ → List (Address × FixedPoint) → Option (List Award)
  | _, [] => some []
  | rewardCap, (recipient, weight) :: rest => do
    let uncappedReward ← weight.mulUnwrap epochEmissions
    let reward := min uncappedReward rewardCap
    let awards ← capRewards epoch workLogId epochEmissions (rewardCap - reward) rest
    return if reward > 0 then ⟨epoch, workLogId, recipient, reward⟩ :: awards else awards

/-- The logs of one epoch, each with its own cap. -/
def epochRewards (env : Env) (epoch epochEmissions epochEndTime : ℕ) :
    List (Address × OrderedMap Address FixedPoint) → Option (List Award)
  | [] => some []
  | (workLogId, byRecipient) :: rest => do
    let rewardCap := env.getPastPoVWRewardCap workLogId epochEndTime
    let awards ← capRewards epoch workLogId epochEmissions rewardCap byRecipient.entries
    let more ← epochRewards env epoch epochEmissions epochEndTime rest
    return awards ++ more

def allRewards (env : Env) : List (ℕ × OrderedMap Address (OrderedMap Address FixedPoint)) → Option (List Award)
  | [] => some []
  | (epoch, byLog) :: rest => do
    let epochEmissions := env.getPoVWEmissionsForEpoch epoch
    let epochEndTime := env.getEpochEndTime epoch
    let awards ← epochRewards env epoch epochEmissions epochEndTime byLog.entries
    let more ← allRewards env rest
    return awards ++ more

/-- The rewards of each recipient; the sums wrap around. -/
def addRewards (awards : List Award) : OrderedMap Address ℕ :=
  awards.foldl (fun rewards a =>
    rewards.insert a.recipient (((rewards.get? a.recipient).getD 0 + a.reward) % 2 ^ 256)) .empty

/-- The environments of the chosen blocks in increasing order; a block that is given
twice panics. -/
def intoEnv (chain : Contracts → ℕ → Env) (input : Input) : Option (List Env) :=
  if input.blocks.Nodup then some ((input.blocks.insertionSort (· ≤ ·)).map (chain input.contracts)) else none

structure Calculation where
  epochs : OrderedMap ℕ ℕ
  updates : OrderedMap Address (Bytes32 × Bytes32)
  weights : RewardWeightMap
  latestEpochFinalizationBlock : ℕ
  awards : List Award

/-- Everything up to the journal; a failed check panics. -/
def calculate (chain : Contracts → ℕ → Env) (input : Input) : Option Calculation := do
  let envs ← intoEnv chain input
  let (epochs, latest) ← collectEpochs envs (.empty, none)
  let (updates, weights) ← collectUpdates input.workLogFilter epochs (envs.flatMap Env.workLogUpdated) (.empty, .empty)
  let latestEpochFinalizationBlock ← latest
  -- the snapshot of the commits at the end of the last epoch
  let completenessCheckEnv ← if latestEpochFinalizationBlock = 0 then none
    else envs.find? fun env => env.number = latestEpochFinalizationBlock - 1
  let complete := updates.entries.all fun e => completenessCheckEnv.workLogCommit e.1 = e.2.2
  if complete then do
    let finalizationEnv ← envs.find? fun env => env.number = latestEpochFinalizationBlock
    let awards ← allRewards finalizationEnv weights.entries
    return ⟨epochs, updates, weights, latestEpochFinalizationBlock, awards⟩
  else none

def Calculation.journal (calculation : Calculation) (input : Input) : MintCalculatorJournal where
  mints := (addRewards calculation.awards).entries.map fun e => ⟨e.1, e.2⟩
  updates := calculation.updates.entries.map fun e => ⟨e.1, e.2.1, e.2.2⟩
  povwAccountingAddress := input.povwAccountingAddress
  zkcAddress := input.zkcAddress
  zkcRewardsAddress := input.zkcRewardsAddress

def main (chain : Contracts → ℕ → Env) (input : Input) : Option MintCalculatorJournal := do
  let calculation ← calculate chain input
  return calculation.journal input

inductive MintRevert where
  | invalidSteelCommitment
  | incorrectSteelContractAddress (expected received : Address)
  | incorrectInitialUpdateCommit (expected received : Bytes32)

/-- The ratchet of the commits for which a mint has occurred. -/
abbrev MintCommits := Address → Bytes32

def mintUpdates : List MintCalculatorUpdate → MintCommits → Except MintRevert MintCommits
  | [], workLogCommits => .ok workLogCommits
  | update :: updates, workLogCommits => do
    let expectedCommit := readCommit (workLogCommits update.workLogId)
    require (update.initialCommit = expectedCommit)
      (.incorrectInitialUpdateCommit expectedCommit update.initialCommit)
    mintUpdates updates (Function.update workLogCommits update.workLogId update.updatedCommit)

/-- A mint whose proof and Steel commitment are valid: the new ratchet, and the calls of
the token in order. The three addresses of the journal must be those of the contract. -/
def mint (cfg : Contracts) (journal : MintCalculatorJournal) (workLogCommits : MintCommits) :
    Except MintRevert (MintCommits × List MintCalculatorMint) := do
  require (journal.povwAccountingAddress = cfg.accounting)
    (.incorrectSteelContractAddress cfg.accounting journal.povwAccountingAddress)
  require (journal.zkcAddress = cfg.token) (.incorrectSteelContractAddress cfg.token journal.zkcAddress)
  require (journal.zkcRewardsAddress = cfg.tokenRewards)
    (.incorrectSteelContractAddress cfg.tokenRewards journal.zkcRewardsAddress)
  let workLogCommits ← mintUpdates journal.updates workLogCommits
  return (workLogCommits, journal.mints)

structure Minted where
  calculation : Calculation
  mints : List MintCalculatorMint

/-- The guest runs on an input and its journal is presented to the contract. -/
def mintFrom (chain : Contracts → ℕ → Env) (cfg : Contracts) (input : Input) (workLogCommits : MintCommits) :
    Except (Option MintRevert) (MintCommits × Minted) :=
  match calculate chain input with
  | none => .error none
  | some calculation =>
    match mint cfg (calculation.journal input) workLogCommits with
    | .ok (workLogCommits, mints) => .ok (workLogCommits, ⟨calculation, mints⟩)
    | .error e => .error (some e)

end VerifiableCompute.Povw
