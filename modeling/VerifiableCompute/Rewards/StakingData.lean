import VerifiableCompute.Rewards.Positions

/-! The rewards of the stakers, epoch by epoch, on top of their positions, and what each staker has in total. -/

namespace VerifiableCompute.Rewards

open Lib WordOrder List OrderedMap
open Market (U64 U256 Address)

/-- The share of a recipient as a percentage, a float, is left out. -/
structure StakerRewardInfo where
  stakerAddress : Address
  stakingPower : U256
  rewardsEarned : U256

structure EpochStakingData where
  epoch : ℕ
  positionsByStaker : OrderedMap Address StakingPosition
  totalStaked : U256
  numStakers : ℕ
  numWithdrawing : ℕ
  totalStakingEmissions : U256
  totalStakingPower : U256
  rewardsByAddress : OrderedMap Address StakerRewardInfo
  numRewardRecipients : ℕ

structure StakerAggregate where
  stakerAddress : Address
  currentStaked : U256
  isWithdrawing : Bool
  rewardsDelegatedTo : Option Address
  votesDelegatedTo : Option Address
  totalRewardsGenerated : U256
  totalRewardsEarned : U256
  epochsParticipated : ℕ

structure StakingSummary where
  currentTotalStaked : U256
  totalUniqueStakers : ℕ
  currentActiveStakers : ℕ
  currentWithdrawing : ℕ
  totalStakingEmissionsAllTime : U256
  totalUniqueRewardRecipients : ℕ

structure StakingDataResult where
  epochs : List EpochStakingData
  stakerAggregates : OrderedMap Address StakerAggregate
  summary : StakingSummary

inductive StakingDataError
  | noEpochData
  | panicked

/-- What is known of the epochs; the staking powers are the entries of a hash map, in the order in which it iterates. -/
structure EpochInputs where
  stakingEmissionsByEpoch : OrderedMap ℕ U256
  stakingPowerByAddressByEpoch : List ((Address × ℕ) × U256)
  totalStakingPowerByEpoch : OrderedMap ℕ U256

namespace EpochInputs

variable (inputs : EpochInputs)

def stakingEmissions (epoch : ℕ) : U256 := (inputs.stakingEmissionsByEpoch.get? epoch).getD 0

def totalStakingPower (epoch : ℕ) : U256 := (inputs.totalStakingPowerByEpoch.get? epoch).getD 0

/-- The rewards generated by a position, in proportion to its stake. -/
def rewarded (epoch : ℕ) (totalStaked : U256) (position : StakingPosition) : StakingPosition :=
  if 0 < position.stakedAmount then
    { position with rewardsGenerated := position.stakedAmount * inputs.stakingEmissions epoch / totalStaked }
  else position

def positionsByStaker (p : EpochStakingPositions) : OrderedMap Address StakingPosition :=
  if 0 < inputs.stakingEmissions p.epoch ∧ 0 < p.totalStaked then
    p.positions.mapValues fun _ position => inputs.rewarded p.epoch p.totalStaked position
  else p.positions

/-- One entry of the staking powers. -/
def addPower (epoch : ℕ) (rewardsByRecipient : OrderedMap Address StakerRewardInfo) (entry : (Address × ℕ) × U256) :
    OrderedMap Address StakerRewardInfo :=
  if entry.1.2 = epoch ∧ 0 < entry.2 then
    let rewardsToReceive := entry.2 * inputs.stakingEmissions epoch / inputs.totalStakingPower epoch
    let info := (rewardsByRecipient.get? entry.1.1).getD ⟨entry.1.1, 0, 0⟩
    rewardsByRecipient.insert entry.1.1
      { info with stakingPower := info.stakingPower + entry.2, rewardsEarned := info.rewardsEarned + rewardsToReceive }
  else rewardsByRecipient

/-- The share of a power in hundredths of a percent is converted to 64 bits. -/
def ShareFits (epoch : ℕ) (stakingPower : U256) : Prop := (stakingPower * 10000 / inputs.totalStakingPower epoch).toNat < 2 ^ 64

instance (epoch : ℕ) (stakingPower : U256) : Decidable (inputs.ShareFits epoch stakingPower) := Nat.decLt _ _

def rewardsByRecipient (epoch : ℕ) : Except StakingDataError (OrderedMap Address StakerRewardInfo) :=
  if 0 < inputs.stakingEmissions epoch ∧ 0 < inputs.totalStakingPower epoch then
    let rewards := inputs.stakingPowerByAddressByEpoch.foldl (inputs.addPower epoch) .empty
    if ∀ e ∈ rewards.entries, inputs.ShareFits epoch e.2.stakingPower then .ok rewards else .error .panicked
  else .ok .empty

end EpochInputs

def StakerAggregate.new (address : Address) : StakerAggregate where
  stakerAddress := address
  currentStaked := 0
  isWithdrawing := false
  rewardsDelegatedTo := none
  votesDelegatedTo := none
  totalRewardsGenerated := 0
  totalRewardsEarned := 0
  epochsParticipated := 0

abbrev Aggregates := OrderedMap Address StakerAggregate

def Aggregates.entry (aggregates : Aggregates) (address : Address) : StakerAggregate := (aggregates.get? address).getD (.new address)

/-- The latest position stays. -/
def StakerAggregate.withPosition (aggregate : StakerAggregate) (position : StakingPosition) : StakerAggregate :=
  { aggregate with
    currentStaked := position.stakedAmount
    isWithdrawing := position.isWithdrawing
    rewardsDelegatedTo := position.rewardsDelegatedTo
    votesDelegatedTo := position.votesDelegatedTo
    totalRewardsGenerated := aggregate.totalRewardsGenerated + position.rewardsGenerated
    epochsParticipated := aggregate.epochsParticipated + 1 }

def StakerAggregate.withReward (aggregate : StakerAggregate) (info : StakerRewardInfo) : StakerAggregate :=
  { aggregate with totalRewardsEarned := aggregate.totalRewardsEarned + info.rewardsEarned }

def addPosition (aggregates : Aggregates) (e : Address × StakingPosition) : Aggregates :=
  aggregates.insert e.1 ((aggregates.entry e.1).withPosition e.2)

def addReward (aggregates : Aggregates) (e : Address × StakerRewardInfo) : Aggregates :=
  aggregates.insert e.1 ((aggregates.entry e.1).withReward e.2)

structure Accumulated where
  epochs : List EpochStakingData
  stakerAggregates : Aggregates
  allStakersEver : Finset Address
  allRewardRecipientsEver : Finset Address
  totalStakingEmissionsAllTime : U256

def Accumulated.start : Accumulated := ⟨[], .empty, ∅, ∅, 0⟩

def addEpoch (inputs : EpochInputs) (acc : Accumulated) (p : EpochStakingPositions) : Except StakingDataError Accumulated := do
  let positions := inputs.positionsByStaker p
  let rewards ← inputs.rewardsByRecipient p.epoch
  return {
    epochs := acc.epochs ++ [{
      epoch := p.epoch
      positionsByStaker := positions
      totalStaked := p.totalStaked
      numStakers := p.numStakers
      numWithdrawing := p.numWithdrawing
      totalStakingEmissions := inputs.stakingEmissions p.epoch
      totalStakingPower := inputs.totalStakingPower p.epoch
      rewardsByAddress := rewards
      numRewardRecipients := rewards.entries.length }]
    stakerAggregates := rewards.entries.foldl addReward (positions.entries.foldl addPosition acc.stakerAggregates)
    allStakersEver := acc.allStakersEver ∪ (positions.entries.map Prod.fst).toFinset
    allRewardRecipientsEver := acc.allRewardRecipientsEver ∪ (rewards.entries.map Prod.fst).toFinset
    totalStakingEmissionsAllTime := acc.totalStakingEmissionsAllTime + inputs.stakingEmissions p.epoch }

def computeStakingData (events : List TimestampedStakeEvent) (processingEndEpoch : ℕ) (inputs : EpochInputs) :
    Except StakingDataError StakingDataResult := do
  let acc ← (computePositions events processingEndEpoch).foldlM (addEpoch inputs) .start
  match acc.epochs.getLast? with
  | none => .error .noEpochData
  | some latestEpoch => return {
      epochs := acc.epochs
      stakerAggregates := acc.stakerAggregates
      summary := {
        currentTotalStaked := latestEpoch.totalStaked
        totalUniqueStakers := acc.allStakersEver.card
        currentActiveStakers := latestEpoch.numStakers
        currentWithdrawing := latestEpoch.numWithdrawing
        totalStakingEmissionsAllTime := acc.totalStakingEmissionsAllTime
        totalUniqueRewardRecipients := acc.allRewardRecipientsEver.card } }

def generatedRewards (inputs : EpochInputs) (epoch : ℕ) (s : StakingState) (amount : U256) : U256 :=
  let totalStaked := (s.stakes.entries.map Prod.snd).sum
  if (0 < inputs.stakingEmissions epoch ∧ 0 < totalStaked) ∧ 0 < amount then amount * inputs.stakingEmissions epoch / totalStaked else 0

/-- The data shows every epoch, and the totals of a staker count every epoch in which it held a position. -/
structure CompleteData (inputs : EpochInputs) (events : List TimestampedStakeEvent) (processingEndEpoch : ℕ) (result : StakingDataResult) :
    Prop where
  epochs : result.epochs.map (·.epoch) = epochsTo (firstEpoch events) processingEndEpoch
  shows : ∀ d ∈ result.epochs, ∀ address, d.positionsByStaker.get? address =
    ((stateAt events d.epoch).stakes.get? address).map fun amount =>
      { (stateAt events d.epoch).position address amount with
        rewardsGenerated := generatedRewards inputs d.epoch (stateAt events d.epoch) amount }
  participated : ∀ address, (result.stakerAggregates.get? address).elim 0 (·.epochsParticipated) =
    (epochsTo (firstEpoch events) processingEndEpoch).countP fun e => ((stateAt events e).stakes.get? address).isSome
  generated : ∀ address, (result.stakerAggregates.get? address).elim 0 (·.totalRewardsGenerated) =
    ((epochsTo (firstEpoch events) processingEndEpoch).map fun e =>
      ((stateAt events e).stakes.get? address).elim 0 (generatedRewards inputs e (stateAt events e))).sum

def powerOf (inputs : EpochInputs) (epoch : ℕ) (address : Address) : U256 :=
  ((inputs.stakingPowerByAddressByEpoch.filter fun e => e.1 = (address, epoch)).map Prod.snd).sum

/-- In every epoch in which rewards are received, the share of every address can be converted. -/
def SharesFit (inputs : EpochInputs) (first last : ℕ) : Prop :=
  ∀ e, first ≤ e → e ≤ last → 0 < inputs.stakingEmissions e → 0 < inputs.totalStakingPower e → ∀ address, inputs.ShareFits e (powerOf inputs e address)

section Rewards

variable {inputs : EpochInputs} {epoch : ℕ}

theorem foldl_addPower (l : List ((Address × ℕ) × U256)) (rewards : OrderedMap Address StakerRewardInfo) (address : Address) :
    ((l.foldl (inputs.addPower epoch) rewards).get? address).elim 0 (·.stakingPower) =
      (rewards.get? address).elim 0 (·.stakingPower) + ((l.filter fun e => e.1 = (address, epoch)).map Prod.snd).sum := by
  induction l generalizing rewards with
  | nil => simp
  | cons e l ih =>
    rw [foldl_cons, ih, EpochInputs.addPower]
    have hzero (h : ¬0 < e.2) : e.2 = 0 := by
      apply BitVec.eq_of_toNat_eq
      have h : ¬(0 : ℕ) < e.2.toNat := h
      change e.2.toNat = 0
      omega
    by_cases hkey : e.1 = (address, epoch)
    · rw [filter_cons_of_pos (by simpa using hkey), map_cons, sum_cons, ← add_assoc]
      congr 1
      have haddress : e.1.1 = address := congrArg Prod.fst hkey
      have hepoch : e.1.2 = epoch := congrArg Prod.snd hkey
      by_cases hpower : 0 < e.2
      · rw [if_pos ⟨hepoch, hpower⟩, get?_insert, if_pos haddress.symm, haddress]
        cases rewards.get? address <;> rfl
      · rw [if_neg fun h => hpower h.2, hzero hpower]
        exact (BitVec.add_zero _).symm
    · rw [filter_cons_of_neg (by simpa using hkey)]
      congr 1
      split_ifs with hadds
      · rw [get?_insert, if_neg]
        rintro rfl
        exact hkey (Prod.ext rfl hadds.1)
      · rfl

theorem foldl_addPower_powerOf (address : Address) :
    ((inputs.stakingPowerByAddressByEpoch.foldl (inputs.addPower epoch) .empty).get? address).elim 0 (·.stakingPower) =
      powerOf inputs epoch address := by
  rw [foldl_addPower, get?_empty]
  exact BitVec.zero_add _

theorem rewardsByRecipient_ok_iff : (∃ rewards, inputs.rewardsByRecipient epoch = .ok rewards) ↔
    (0 < inputs.stakingEmissions epoch → 0 < inputs.totalStakingPower epoch → ∀ address, inputs.ShareFits epoch (powerOf inputs epoch address)) := by
  unfold EpochInputs.rewardsByRecipient
  by_cases hgives : 0 < inputs.stakingEmissions epoch ∧ 0 < inputs.totalStakingPower epoch
  · rw [if_pos hgives]
    have hshares : (∀ e ∈ (inputs.stakingPowerByAddressByEpoch.foldl (inputs.addPower epoch) .empty).entries,
        inputs.ShareFits epoch e.2.stakingPower) ↔ ∀ address, inputs.ShareFits epoch (powerOf inputs epoch address) := by
      constructor
      · intro hall address
        rw [← foldl_addPower_powerOf]
        cases hget : (inputs.stakingPowerByAddressByEpoch.foldl (inputs.addPower epoch) .empty).get? address with
        | none =>
          change ((0 : U256) * 10000 / inputs.totalStakingPower epoch).toNat < 2 ^ 64
          simp
        | some info => exact hall (address, info) (mem_entries_iff.mpr hget)
      · rintro hall ⟨address, info⟩ hmem
        have hpower := @foldl_addPower_powerOf inputs epoch address
        rw [mem_entries_iff.mp hmem] at hpower
        exact (show info.stakingPower = _ from hpower) ▸ hall address
    by_cases hfits : ∀ e ∈ (inputs.stakingPowerByAddressByEpoch.foldl (inputs.addPower epoch) .empty).entries,
        inputs.ShareFits epoch e.2.stakingPower
    · simp only [if_pos hfits]
      exact iff_of_true ⟨_, rfl⟩ fun _ _ => hshares.mp hfits
    · simp only [if_neg hfits]
      exact iff_of_false (by simp) fun h => hfits (hshares.mpr (h hgives.1 hgives.2))
  · rw [if_neg hgives]
    exact iff_of_true ⟨_, rfl⟩ fun hemissions hpower => absurd ⟨hemissions, hpower⟩ hgives

end Rewards

namespace Aggregates

variable {aggregates : Aggregates}

theorem entry_insert (address : Address) (aggregate : StakerAggregate) (address' : Address) :
    Aggregates.entry (aggregates.insert address aggregate) address' = if address' = address then aggregate else aggregates.entry address' := by
  rw [entry, get?_insert]
  split_ifs <;> rfl

theorem foldl_addPosition_of_notMem {l : List (Address × StakingPosition)} {address : Address} (h : address ∉ l.map Prod.fst) :
    entry (l.foldl addPosition aggregates) address = aggregates.entry address := by
  induction l generalizing aggregates with
  | nil => rfl
  | cons e l ih =>
    rw [map_cons, mem_cons, not_or] at h
    rw [foldl_cons, ih h.2, addPosition, entry_insert, if_neg h.1]

theorem foldl_addPosition (positions : OrderedMap Address StakingPosition) (address : Address) :
    entry (positions.entries.foldl addPosition aggregates) address =
      (positions.get? address).elim (aggregates.entry address) (aggregates.entry address).withPosition := by
  cases hget : positions.get? address with
  | none =>
    apply foldl_addPosition_of_notMem
    intro hmem
    obtain ⟨e, he, rfl⟩ := mem_map.mp hmem
    rw [mem_entries_iff.mp he] at hget
    cases hget
  | some position =>
    obtain ⟨before, after, hsplit⟩ := append_of_mem (mem_entries_iff.mpr hget)
    have hnodup := positions.nodup_keys
    rw [hsplit, map_append, map_cons, nodup_append] at hnodup
    obtain ⟨-, hafter, hbefore⟩ := hnodup
    have hbefore : address ∉ before.map Prod.fst := fun hmem => hbefore _ hmem _ mem_cons_self rfl
    rw [hsplit, foldl_append, foldl_cons, foldl_addPosition_of_notMem (nodup_cons.mp hafter).1, addPosition, entry_insert,
      if_pos rfl, foldl_addPosition_of_notMem hbefore]
    rfl

theorem foldl_addReward (l : List (Address × StakerRewardInfo)) (address : Address) :
    (entry (l.foldl addReward aggregates) address).epochsParticipated = (aggregates.entry address).epochsParticipated ∧
      (entry (l.foldl addReward aggregates) address).totalRewardsGenerated = (aggregates.entry address).totalRewardsGenerated := by
  induction l generalizing aggregates with
  | nil => exact ⟨rfl, rfl⟩
  | cons e l ih =>
    rw [foldl_cons]
    obtain ⟨hparticipated, hgenerated⟩ := @ih (addReward aggregates e)
    rw [hparticipated, hgenerated, addReward, entry_insert]
    split_ifs with haddress
    · rw [haddress]
      exact ⟨rfl, rfl⟩
    · exact ⟨rfl, rfl⟩

theorem elim_get? {α : Type} (f : StakerAggregate → α) (address : Address) :
    (aggregates.get? address).elim (f (.new address)) f = f (aggregates.entry address) := by
  rw [entry]
  cases aggregates.get? address <;> rfl

end Aggregates

section Epochs

variable {inputs : EpochInputs} {ps : List EpochStakingPositions} {acc acc' : Accumulated}

/-- What the epochs of a list add. -/
structure Adds (inputs : EpochInputs) (ps : List EpochStakingPositions) (acc acc' : Accumulated) : Prop where
  epochs : acc'.epochs.map (fun d => (d.epoch, d.positionsByStaker)) =
    acc.epochs.map (fun d => (d.epoch, d.positionsByStaker)) ++ ps.map fun p => (p.epoch, inputs.positionsByStaker p)
  participated : ∀ address, (acc'.stakerAggregates.entry address).epochsParticipated =
    (acc.stakerAggregates.entry address).epochsParticipated + ps.countP fun p => ((inputs.positionsByStaker p).get? address).isSome
  generated : ∀ address, (acc'.stakerAggregates.entry address).totalRewardsGenerated =
    (acc.stakerAggregates.entry address).totalRewardsGenerated +
      (ps.map fun p => ((inputs.positionsByStaker p).get? address).elim 0 (·.rewardsGenerated)).sum

theorem addEpoch_adds {p : EpochStakingPositions} (h : addEpoch inputs acc p = .ok acc') : Adds inputs [p] acc acc' := by
  obtain ⟨rewards, -, hacc⟩ := bind_ok_iff.mp h
  cases hacc
  constructor
  · simp
  · intro address
    rw [(Aggregates.foldl_addReward rewards.entries address).1, Aggregates.foldl_addPosition, countP_singleton]
    cases (inputs.positionsByStaker p).get? address <;> rfl
  · intro address
    rw [(Aggregates.foldl_addReward rewards.entries address).2, Aggregates.foldl_addPosition, map_singleton, sum_singleton]
    cases (inputs.positionsByStaker p).get? address with
    | none => exact (BitVec.add_zero _).symm
    | some position => rfl

theorem foldlM_addEpoch (h : ps.foldlM (addEpoch inputs) acc = .ok acc') : Adds inputs ps acc acc' := by
  induction ps generalizing acc with
  | nil =>
    cases h
    exact ⟨by simp, fun address => rfl, fun address => (BitVec.add_zero _).symm⟩
  | cons p ps ih =>
    rw [foldlM_cons] at h
    obtain ⟨mid, hone, hrest⟩ := bind_ok_iff.mp h
    have hone := addEpoch_adds hone
    have hrest := ih hrest
    constructor
    · rw [hrest.epochs, hone.epochs, append_assoc]
      rfl
    · intro address
      rw [hrest.participated, hone.participated, countP_singleton, countP_cons]
      omega
    · intro address
      rw [hrest.generated, hone.generated, map_singleton, sum_singleton, map_cons, sum_cons, add_assoc]

theorem foldlM_addEpoch_ok_iff : (∃ acc', ps.foldlM (addEpoch inputs) acc = .ok acc') ↔
    ∀ p ∈ ps, ∃ rewards, inputs.rewardsByRecipient p.epoch = .ok rewards := by
  induction ps generalizing acc with
  | nil => exact iff_of_true ⟨acc, rfl⟩ fun p hp => by cases hp
  | cons p ps ih =>
    simp only [foldlM_cons, bind_ok_iff, addEpoch, mem_cons, forall_eq_or_imp]
    constructor
    · rintro ⟨final, mid, ⟨rewards, hrewards, -⟩, hrest⟩
      exact ⟨⟨rewards, hrewards⟩, ih.mp ⟨final, hrest⟩⟩
    · rintro ⟨⟨rewards, hrewards⟩, hrest⟩
      obtain ⟨final, hfinal⟩ := ih.mpr hrest
      exact ⟨final, _, ⟨rewards, hrewards, rfl⟩, hfinal⟩

theorem positionsByStaker_get? {p : EpochStakingPositions} {s : StakingState} (h : p.Shows s) (address : Address) :
    (inputs.positionsByStaker p).get? address = (s.stakes.get? address).map fun amount =>
      { s.position address amount with rewardsGenerated := generatedRewards inputs p.epoch s amount } := by
  unfold EpochInputs.positionsByStaker generatedRewards
  rw [← h.totalStaked]
  split_ifs with hgives
  · rw [get?_mapValues, h.positions, Option.map_map]
    congr 1
    funext amount
    by_cases hamount : 0 < amount
    · simp only [Function.comp_apply, EpochInputs.rewarded, StakingState.position, hamount, hgives, and_self, if_true]
    · simp only [Function.comp_apply, EpochInputs.rewarded, StakingState.position, hamount, and_false, if_false]
  · rw [h.positions]
    congr 1
    funext amount
    simp only [StakingState.position, hgives, false_and, if_false]

end Epochs

/-- The positions and the data of an event history are complete. -/
structure CompleteSnapshots (events : List TimestampedStakeEvent) (processingEndEpoch : ℕ) (inputs : EpochInputs) : Prop where
  positions : CompletePositions events processingEndEpoch (computePositions events processingEndEpoch)
  data : ∃ result, computeStakingData events processingEndEpoch inputs = .ok result ∧ CompleteData inputs events processingEndEpoch result

section Complete

variable {inputs : EpochInputs} {events : List TimestampedStakeEvent} {processingEndEpoch : ℕ}

theorem computeStakingData_ok {result : StakingDataResult} (h : computeStakingData events processingEndEpoch inputs = .ok result) :
    ∃ acc, (computePositions events processingEndEpoch).foldlM (addEpoch inputs) .start = .ok acc ∧
      result.epochs = acc.epochs ∧ result.stakerAggregates = acc.stakerAggregates := by
  obtain ⟨acc, hacc, hresult⟩ := bind_ok_iff.mp h
  refine ⟨acc, hacc, ?_⟩
  cases hlast : acc.epochs.getLast? with
  | none =>
    rw [hlast] at hresult
    cases hresult
  | some latestEpoch =>
    rw [hlast] at hresult
    cases hresult
    exact ⟨rfl, rfl⟩

theorem completeData_of_adds (hcomplete : CompletePositions events processingEndEpoch (computePositions events processingEndEpoch))
    {acc : Accumulated} (hadds : Adds inputs (computePositions events processingEndEpoch) .start acc) {result : StakingDataResult}
    (hepochs : result.epochs = acc.epochs) (haggregates : result.stakerAggregates = acc.stakerAggregates) :
    CompleteData inputs events processingEndEpoch result := by
  have hlist : result.epochs.map (fun d => (d.epoch, d.positionsByStaker)) =
      (computePositions events processingEndEpoch).map fun p => (p.epoch, inputs.positionsByStaker p) := by
    rw [hepochs, hadds.epochs]
    rfl
  have hget (p : EpochStakingPositions) (hp : p ∈ computePositions events processingEndEpoch) :=
    @positionsByStaker_get? inputs _ _ (hcomplete.shows p hp)
  constructor
  · rw [← hcomplete.epochs]
    have hfirst := congrArg (map Prod.fst) hlist
    rwa [map_map, map_map] at hfirst
  · intro d hd address
    have hmem : (d.epoch, d.positionsByStaker) ∈ (computePositions events processingEndEpoch).map fun p => (p.epoch, inputs.positionsByStaker p) :=
      hlist ▸ mem_map_of_mem hd
    obtain ⟨p, hp, heq⟩ := mem_map.mp hmem
    obtain ⟨hepoch, hpositions⟩ := Prod.mk.inj heq
    rw [← hpositions, ← hepoch]
    exact hget p hp address
  · intro address
    rw [haggregates, ← hcomplete.epochs, countP_map]
    refine (Aggregates.elim_get? (·.epochsParticipated) address).trans ((hadds.participated address).trans ?_)
    refine (Nat.zero_add _).trans (countP_congr fun p hp => ?_)
    rw [hget p hp, Option.isSome_map]
    rfl
  · intro address
    rw [haggregates, ← hcomplete.epochs, map_map]
    refine (Aggregates.elim_get? (·.totalRewardsGenerated) address).trans ((hadds.generated address).trans ?_)
    refine (BitVec.zero_add _).trans (congrArg sum (map_congr_left fun p hp => ?_))
    rw [hget p hp]
    change (Option.map _ ((stateAt events p.epoch).stakes.get? address)).elim 0 _ =
      ((stateAt events p.epoch).stakes.get? address).elim 0 (generatedRewards inputs p.epoch (stateAt events p.epoch))
    cases (stateAt events p.epoch).stakes.get? address <;> rfl

/-- The snapshots of a history of events are complete exactly if every epoch from the first event to the last has an
event of its own, and the shares of the recipients can be converted. -/
theorem completeSnapshots_iff (events : List TimestampedStakeEvent) (processingEndEpoch : ℕ) (inputs : EpochInputs)
    (hmono : events.Pairwise (·.epoch ≤ ·.epoch)) (hend : lastEpoch events ≤ processingEndEpoch) :
    CompleteSnapshots events processingEndEpoch inputs ↔ Gapless events ∧ SharesFit inputs (firstEpoch events) processingEndEpoch := by
  have hpositions := completePositions_iff hmono fun x hx => (le_lastEpoch hmono hx).trans hend
  have hloop (hcomplete : CompletePositions events processingEndEpoch (computePositions events processingEndEpoch)) :
      (∃ acc, (computePositions events processingEndEpoch).foldlM (addEpoch inputs) .start = .ok acc) ↔
        SharesFit inputs (firstEpoch events) processingEndEpoch := by
    rw [foldlM_addEpoch_ok_iff]
    simp only [rewardsByRecipient_ok_iff]
    constructor
    · intro hall e hfirst hlast
      have he : e ∈ (computePositions events processingEndEpoch).map (·.epoch) := by
        rw [hcomplete.epochs]
        exact mem_epochsTo.mpr ⟨hfirst, hlast⟩
      obtain ⟨p, hp, rfl⟩ := List.mem_map.mp he
      exact hall p hp
    · intro hfits p hp
      have he : p.epoch ∈ epochsTo (firstEpoch events) processingEndEpoch := hcomplete.epochs ▸ List.mem_map_of_mem hp
      exact hfits p.epoch (mem_epochsTo.mp he).1 (mem_epochsTo.mp he).2
  constructor
  · rintro ⟨hcomplete, result, hresult, -⟩
    obtain ⟨acc, hacc, -⟩ := computeStakingData_ok hresult
    exact ⟨hpositions.mp hcomplete, (hloop hcomplete).mp ⟨acc, hacc⟩⟩
  · rintro ⟨hgapless, hfits⟩
    have hcomplete := hpositions.mpr hgapless
    obtain ⟨acc, hacc⟩ := (hloop hcomplete).mpr hfits
    have hadds := foldlM_addEpoch hacc
    have hsome : ∃ latestEpoch, acc.epochs.getLast? = some latestEpoch := by
      have hlast : processingEndEpoch ∈ (computePositions events processingEndEpoch).map (·.epoch) := by
        rw [(computePositions_snapshots hmono fun x hx => (le_lastEpoch hmono hx).trans hend).epochs]
        exact .inr ⟨hend, le_rfl⟩
      have hne : acc.epochs ≠ [] := by
        intro hnil
        have hlist := hadds.epochs
        rw [hnil] at hlist
        have hzero : computePositions events processingEndEpoch = [] :=
          List.map_eq_nil_iff.mp (List.append_eq_nil_iff.mp hlist.symm).2
        rw [hzero] at hlast
        exact List.not_mem_nil hlast
      exact ⟨_, List.getLast?_eq_some_getLast hne⟩
    obtain ⟨latestEpoch, hlatest⟩ := hsome
    let result : StakingDataResult := ⟨acc.epochs, acc.stakerAggregates, ⟨latestEpoch.totalStaked, acc.allStakersEver.card,
      latestEpoch.numStakers, latestEpoch.numWithdrawing, acc.totalStakingEmissionsAllTime, acc.allRewardRecipientsEver.card⟩⟩
    have hresult : computeStakingData events processingEndEpoch inputs = .ok result := by
      refine bind_ok_iff.mpr ⟨acc, hacc, ?_⟩
      rw [hlatest]
      rfl
    exact ⟨hcomplete, result, hresult, completeData_of_adds hcomplete hadds rfl rfl⟩

end Complete

def noInputs : EpochInputs := ⟨.empty, [], .empty⟩

def steadyEvents : List TimestampedStakeEvent := [⟨1, .created 7 100⟩, ⟨2, .added 7 150⟩]

/-- Two addresses have powers in the first epoch, one in the second, and nothing is given out in the third. -/
def steadyInputs : EpochInputs :=
  ⟨.ofList [(1, 90), (2, 60)], [((7, 1), 100), ((8, 1), 50), ((7, 2), 150)], .ofList [(1, 150), (2, 150)]⟩

theorem completeSnapshots_iff_steady : CompleteSnapshots steadyEvents 3 steadyInputs := by
  refine (completeSnapshots_iff steadyEvents 3 steadyInputs (by decide) (by decide)).mpr ⟨fun e hfirst hlast => ?_, fun e hfirst hlast => ?_⟩
  · change 1 ≤ e at hfirst
    change e < 2 at hlast
    exact ⟨⟨1, .created 7 100⟩, List.mem_cons_self, by dsimp only; omega⟩
  · change 1 ≤ e at hfirst
    have hrewards : ∃ rewards, steadyInputs.rewardsByRecipient e = .ok rewards := by
      interval_cases e <;> exact ⟨_, rfl⟩
    exact rewardsByRecipient_ok_iff.mp hrewards

def gapEvents : List TimestampedStakeEvent := [⟨1, .created 7 100⟩, ⟨4, .added 7 150⟩]

/-- The epochs 2 and 3 have no entry, and the staker took part in two epochs of four. -/
theorem not_completeSnapshots_gap : (computePositions gapEvents 4).map (·.epoch) = [1, 4] ∧
    ¬CompleteSnapshots gapEvents 4 noInputs := by
  refine ⟨by decide, fun h => ?_⟩
  have hepochs := h.positions.epochs
  revert hepochs
  decide

end VerifiableCompute.Rewards
