import VerifiableCompute.Lib.OrderedMap
import VerifiableCompute.Market.Types

/-! The staking positions of every epoch. The events are applied in their order, and a snapshot of an epoch is taken when
an event of another epoch follows; the epochs from the last event on are filled in afterwards. -/

namespace VerifiableCompute.Rewards

open Lib WordOrder List
open Market (U64 U256 Address)

inductive StakeEvent
  | created (owner : Address) (amount : U256)
  | added (owner : Address) (newTotal : U256)
  | unstakeInitiated (owner : Address)
  | unstakeCompleted (owner : Address)
  | rewardDelegateChanged (delegator newDelegate : Address)
  | voteDelegateChanged (delegator newDelegate : Address)

structure TimestampedStakeEvent where
  epoch : ℕ
  event : StakeEvent

/-- What is tracked from event to event. -/
structure StakingState where
  stakes : OrderedMap Address U256
  withdrawing : OrderedMap Address Bool
  voteDelegations : OrderedMap Address Address
  rewardDelegations : OrderedMap Address Address

def StakingState.new : StakingState := ⟨.empty, .empty, .empty, .empty⟩

/-- A delegation to the zero address is the end of one. -/
def delegate (delegator newDelegate : Address) (delegations : OrderedMap Address Address) : OrderedMap Address Address :=
  if newDelegate = 0 then delegations.erase delegator else delegations.insert delegator newDelegate

def StakeEvent.apply (s : StakingState) : StakeEvent → StakingState
  | .created owner amount => { s with stakes := s.stakes.insert owner amount, withdrawing := s.withdrawing.insert owner false }
  | .added owner newTotal => { s with stakes := s.stakes.insert owner newTotal }
  | .unstakeInitiated owner => { s with withdrawing := s.withdrawing.insert owner true }
  | .unstakeCompleted owner =>
    ⟨s.stakes.erase owner, s.withdrawing.erase owner, s.voteDelegations.erase owner, s.rewardDelegations.erase owner⟩
  | .rewardDelegateChanged delegator newDelegate =>
    { s with rewardDelegations := Rewards.delegate delegator newDelegate s.rewardDelegations }
  | .voteDelegateChanged delegator newDelegate =>
    { s with voteDelegations := Rewards.delegate delegator newDelegate s.voteDelegations }

structure StakingPosition where
  stakedAmount : U256
  isWithdrawing : Bool
  rewardsDelegatedTo : Option Address
  votesDelegatedTo : Option Address
  rewardsGenerated : U256

structure EpochStakingPositions where
  epoch : ℕ
  positions : OrderedMap Address StakingPosition
  totalStaked : U256
  numStakers : ℕ
  numWithdrawing : ℕ

/-- The rewards are calculated later. -/
def StakingState.position (s : StakingState) (address : Address) (amount : U256) : StakingPosition where
  stakedAmount := amount
  isWithdrawing := (s.withdrawing.get? address).getD false
  rewardsDelegatedTo := s.rewardDelegations.get? address
  votesDelegatedTo := s.voteDelegations.get? address
  rewardsGenerated := 0

def createEpochSnapshot (epoch : ℕ) (s : StakingState) : EpochStakingPositions :=
  let positions : OrderedMap Address StakingPosition :=
    s.stakes.entries.foldl (fun positions e => positions.insert e.1 (s.position e.1 e.2)) .empty
  { epoch := epoch
    positions := positions
    totalStaked := s.stakes.entries.foldl (fun total e => total + e.2) 0
    numStakers := positions.entries.length
    numWithdrawing := s.stakes.entries.countP fun e => (s.withdrawing.get? e.1).getD false }

/-- The snapshots so far, the state, and the epoch of the last event. -/
structure Processing where
  epochPositions : List EpochStakingPositions
  state : StakingState
  lastProcessedEpoch : Option ℕ

def Processing.start : Processing := ⟨[], .new, none⟩

def processEvent (p : Processing) (event : TimestampedStakeEvent) : Processing where
  epochPositions :=
    match p.lastProcessedEpoch with
    | some prevEpoch =>
      if event.epoch ≠ prevEpoch then p.epochPositions ++ [createEpochSnapshot prevEpoch p.state] else p.epochPositions
    | none => p.epochPositions
  state := event.event.apply p.state
  lastProcessedEpoch := some event.epoch

def fillEpoch (s : StakingState) (epochPositions : List EpochStakingPositions) (epoch : ℕ) : List EpochStakingPositions :=
  if epochPositions.any (·.epoch = epoch) then epochPositions else epochPositions ++ [createEpochSnapshot epoch s]

/-- The epochs of a range that includes its end. -/
def epochsTo (first last : ℕ) : List ℕ := List.range' first (last + 1 - first)

/-- The call never fails. -/
def computePositions (events : List TimestampedStakeEvent) (processingEndEpoch : ℕ) : List EpochStakingPositions :=
  let p := events.foldl processEvent .start
  let epochPositions := (epochsTo (p.lastProcessedEpoch.getD 0) processingEndEpoch).foldl (fillEpoch p.state) p.epochPositions
  epochPositions.insertionSort fun a b => a.epoch ≤ b.epoch

def stateAt (events : List TimestampedStakeEvent) (epoch : ℕ) : StakingState :=
  (events.filter (·.epoch ≤ epoch)).foldl (fun s e => e.event.apply s) .new

/-- A snapshot with the positions, and the counts, of a state. -/
structure EpochStakingPositions.Shows (p : EpochStakingPositions) (s : StakingState) : Prop where
  positions : ∀ address, p.positions.get? address = (s.stakes.get? address).map (s.position address)
  totalStaked : p.totalStaked = (s.stakes.entries.map Prod.snd).sum
  numStakers : p.numStakers = s.stakes.entries.length
  numWithdrawing : p.numWithdrawing = s.stakes.entries.countP fun e => (s.withdrawing.get? e.1).getD false

theorem mem_epochsTo {first last e : ℕ} : e ∈ epochsTo first last ↔ first ≤ e ∧ e ≤ last := by
  rw [epochsTo, mem_range'_1]
  omega

theorem epochsTo_sorted (first last : ℕ) : (epochsTo first last).Pairwise (· < ·) := pairwise_lt_range'

theorem createEpochSnapshot_shows (epoch : ℕ) (s : StakingState) : (createEpochSnapshot epoch s).Shows s where
  positions address := by
    change (s.stakes.entries.foldl (fun (positions : OrderedMap Address StakingPosition) e =>
      positions.insert e.1 (s.position e.1 e.2)) .empty).get? address = _
    rw [OrderedMap.foldl_insert_eq_mapValues s.position]
    exact OrderedMap.get?_mapValues s.position s.stakes address
  totalStaked := by
    rw [sum_eq_foldl, foldl_map]
    rfl
  numStakers := by
    change (s.stakes.entries.foldl (fun (positions : OrderedMap Address StakingPosition) e =>
      positions.insert e.1 (s.position e.1 e.2)) .empty).entries.length = _
    rw [OrderedMap.foldl_insert_eq_mapValues s.position]
    exact length_map _
  numWithdrawing := rfl

section Epochs

variable {events : List TimestampedStakeEvent} {event : TimestampedStakeEvent} {p : Processing} {e processingEndEpoch : ℕ}

theorem stateAt_append_of_lt (h : e < event.epoch) : stateAt (events ++ [event]) e = stateAt events e := by
  rw [stateAt, filter_append, filter_cons_of_neg (by simpa using h), filter_nil, append_nil, stateAt]

theorem stateAt_of_le (h : ∀ x ∈ events, x.epoch ≤ e) : stateAt events e = events.foldl (fun s x => x.event.apply s) .new := by
  rw [stateAt, filter_eq_self.mpr fun x hx => by simpa using h x hx]

/-- After some of the events, of epochs that do not decrease: each epoch before that of the last event has its snapshot. -/
structure Processed (events : List TimestampedStakeEvent) (p : Processing) : Prop where
  state : p.state = events.foldl (fun s x => x.event.apply s) .new
  last : p.lastProcessedEpoch = events.getLast?.map (·.epoch)
  sorted : (p.epochPositions.map (·.epoch)).Pairwise (· < ·)
  epochs : ∀ e, e ∈ p.epochPositions.map (·.epoch) ↔ (∃ x ∈ events, x.epoch = e) ∧ ∀ l, p.lastProcessedEpoch = some l → e < l
  snapshots : ∀ q ∈ p.epochPositions, q = createEpochSnapshot q.epoch (stateAt events q.epoch)

theorem Processed.first (event : TimestampedStakeEvent) : Processed [event] (processEvent .start event) where
  state := rfl
  last := rfl
  sorted := Pairwise.nil
  epochs e := by
    refine iff_of_false (fun hmem => by cases hmem) ?_
    rintro ⟨⟨x, hx, rfl⟩, hlast⟩
    obtain rfl := mem_singleton.mp hx
    exact lt_irrefl _ (hlast _ rfl)
  snapshots q hq := by cases hq

theorem Processed.same (h : Processed events p) (hlast : p.lastProcessedEpoch = some event.epoch) :
    Processed (events ++ [event]) (processEvent p event) := by
  have hkept : (processEvent p event).epochPositions = p.epochPositions := by
    simp only [processEvent, hlast, ne_eq, not_true_eq_false, if_false]
  have hbefore (e : ℕ) (he : e ∈ p.epochPositions.map (·.epoch)) : e < event.epoch := ((h.epochs e).mp he).2 _ hlast
  constructor
  · rw [foldl_append, ← h.state]
    rfl
  · rw [getLast?_concat]
    rfl
  · rw [hkept]
    exact h.sorted
  · intro e
    rw [hkept, h.epochs]
    constructor
    · rintro ⟨⟨x, hx, rfl⟩, hlt⟩
      refine ⟨⟨x, mem_append_left _ hx, rfl⟩, fun l hl => ?_⟩
      cases hl
      exact hlt _ hlast
    · rintro ⟨⟨x, hx, rfl⟩, hlt⟩
      have hx : x ∈ events := by
        obtain hx | hx := mem_append.mp hx
        · exact hx
        · rw [mem_singleton.mp hx] at hlt
          exact absurd (hlt _ rfl) (lt_irrefl _)
      refine ⟨⟨x, hx, rfl⟩, fun l hl => ?_⟩
      obtain rfl := Option.some.inj (hlast.symm.trans hl)
      exact hlt _ rfl
  · intro q hq
    rw [hkept] at hq
    rw [stateAt_append_of_lt (hbefore _ (mem_map_of_mem hq))]
    exact h.snapshots q hq

theorem Processed.next (h : Processed events p) {l : ℕ} (hlast : p.lastProcessedEpoch = some l) (hlt : l < event.epoch)
    (hle : ∀ x ∈ events, x.epoch ≤ l) : Processed (events ++ [event]) (processEvent p event) := by
  have hpushed : (processEvent p event).epochPositions = p.epochPositions ++ [createEpochSnapshot l p.state] := by
    simp only [processEvent, hlast, if_pos hlt.ne']
  have hbefore (e : ℕ) (he : e ∈ p.epochPositions.map (·.epoch)) : e < l := ((h.epochs e).mp he).2 _ hlast
  have hsome : ∃ x ∈ events, x.epoch = l := by
    obtain ⟨x, hx, hepoch⟩ := Option.map_eq_some_iff.mp (h.last.symm.trans hlast)
    exact ⟨x, mem_of_getLast? hx, hepoch⟩
  constructor
  · rw [foldl_append, ← h.state]
    rfl
  · rw [getLast?_concat]
    rfl
  · rw [hpushed, map_append, pairwise_append]
    refine ⟨h.sorted, pairwise_singleton _ _, fun e he x hx => ?_⟩
    rw [map_singleton, mem_singleton] at hx
    rw [hx]
    exact hbefore e he
  · intro e
    rw [hpushed, map_append, mem_append, map_singleton, mem_singleton, h.epochs]
    constructor
    · rintro (⟨⟨x, hx, rfl⟩, hbefore⟩ | rfl)
      · refine ⟨⟨x, mem_append_left _ hx, rfl⟩, fun l' hl' => ?_⟩
        cases hl'
        exact (hbefore _ hlast).trans hlt
      · obtain ⟨x, hx, hepoch⟩ := hsome
        refine ⟨⟨x, mem_append_left _ hx, hepoch⟩, fun l' hl' => ?_⟩
        cases hl'
        exact hlt
    · rintro ⟨⟨x, hx, rfl⟩, hbefore⟩
      obtain hx | hx := mem_append.mp hx
      · by_cases heq : x.epoch = l
        · exact .inr heq
        · refine .inl ⟨⟨x, hx, rfl⟩, fun l' hl' => ?_⟩
          obtain rfl := Option.some.inj (hlast.symm.trans hl')
          exact lt_of_le_of_ne (hle x hx) heq
      · rw [mem_singleton.mp hx] at hbefore
        exact absurd (hbefore _ rfl) (lt_irrefl _)
  · intro q hq
    rw [hpushed] at hq
    obtain hq | hq := mem_append.mp hq
    · rw [stateAt_append_of_lt ((hbefore _ (mem_map_of_mem hq)).trans hlt)]
      exact h.snapshots q hq
    · obtain rfl := mem_singleton.mp hq
      change createEpochSnapshot l p.state = createEpochSnapshot l (stateAt (events ++ [event]) l)
      rw [stateAt_append_of_lt hlt, stateAt_of_le hle, h.state]

theorem processed (events : List TimestampedStakeEvent) (hmono : events.Pairwise (·.epoch ≤ ·.epoch)) (hne : events ≠ []) :
    Processed events (events.foldl processEvent .start) := by
  induction events using reverseRecOn with
  | nil => exact absurd rfl hne
  | append_singleton events event ih =>
    rw [pairwise_append] at hmono
    rw [foldl_append]
    change Processed _ (processEvent (events.foldl processEvent .start) event)
    by_cases hnil : events = []
    · rw [hnil]
      exact .first event
    have h := ih hmono.1 hnil
    obtain ⟨before, x, rfl⟩ := eq_nil_or_concat events |>.resolve_left hnil
    rw [concat_eq_append] at *
    have hlast : ((before ++ [x]).foldl processEvent .start).lastProcessedEpoch = some x.epoch := by
      rw [h.last, getLast?_concat]
      rfl
    have hx : x.epoch ≤ event.epoch := hmono.2.2 x (by simp) event (mem_singleton_self _)
    obtain heq | hlt := hx.eq_or_lt
    · exact h.same (heq ▸ hlast)
    · refine h.next hlast hlt fun y hy => ?_
      obtain hy | hy := mem_append.mp hy
      · exact (pairwise_append.mp hmono.1).2.2 y hy x (mem_singleton_self _)
      · rw [mem_singleton.mp hy]

theorem foldl_fillEpoch {ps : List EpochStakingPositions} {es : List ℕ} (s : StakingState)
    (hsorted : (ps.map (·.epoch) ++ es).Pairwise (· < ·)) : es.foldl (fillEpoch s) ps = ps ++ es.map (createEpochSnapshot · s) := by
  induction es generalizing ps with
  | nil => exact (append_nil ps).symm
  | cons e es ih =>
    have hfresh : ps.any (·.epoch = e) = false := by
      rw [any_eq_false]
      intro q hq heq
      have hlt := (pairwise_append.mp hsorted).2.2 q.epoch (mem_map_of_mem hq) e mem_cons_self
      rw [decide_eq_true_eq] at heq
      omega
    rw [foldl_cons, fillEpoch, hfresh, if_neg Bool.false_ne_true, ih]
    · rw [append_assoc]
      rfl
    · rw [map_append, append_assoc]
      exact hsorted

def firstEpoch (events : List TimestampedStakeEvent) : ℕ := (events.head?.map (·.epoch)).getD 0

def lastEpoch (events : List TimestampedStakeEvent) : ℕ := (events.getLast?.map (·.epoch)).getD 0

/-- The snapshots are in order; they are those of the epochs with an event and of all epochs from the last event on; and
each is of the state at its epoch. -/
structure Snapshots (events : List TimestampedStakeEvent) (processingEndEpoch : ℕ) (result : List EpochStakingPositions) : Prop where
  sorted : (result.map (·.epoch)).Pairwise (· < ·)
  epochs : ∀ e, e ∈ result.map (·.epoch) ↔ (∃ x ∈ events, x.epoch = e) ∨ lastEpoch events ≤ e ∧ e ≤ processingEndEpoch
  shows : ∀ q ∈ result, q.Shows (stateAt events q.epoch)

section

variable (hmono : events.Pairwise (·.epoch ≤ ·.epoch))

include hmono

theorem le_lastEpoch {x : TimestampedStakeEvent} (hx : x ∈ events) : x.epoch ≤ lastEpoch events := by
  obtain hnil | ⟨before, l, rfl⟩ := eq_nil_or_concat events
  · rw [hnil] at hx
    cases hx
  rw [concat_eq_append] at *
  rw [lastEpoch, getLast?_concat]
  obtain hx | hx := mem_append.mp hx
  · exact (pairwise_append.mp hmono).2.2 x hx l (mem_singleton_self _)
  · rw [mem_singleton.mp hx]
    rfl

theorem firstEpoch_le {x : TimestampedStakeEvent} (hx : x ∈ events) : firstEpoch events ≤ x.epoch := by
  cases events with
  | nil => cases hx
  | cons y rest =>
    obtain rfl | hx := mem_cons.mp hx
    · rfl
    · exact (pairwise_cons.mp hmono).1 x hx

theorem computePositions_snapshots (hend : ∀ x ∈ events, x.epoch ≤ processingEndEpoch) :
    Snapshots events processingEndEpoch (computePositions events processingEndEpoch) := by
  -- the snapshots of the first loop, and those that the second one adds
  obtain ⟨ps, hps, hsorted, hepochs, hsnapshots⟩ : ∃ ps,
      computePositions events processingEndEpoch =
        (ps ++ (epochsTo (lastEpoch events) processingEndEpoch).map
          (createEpochSnapshot · (events.foldl (fun s x => x.event.apply s) .new))).insertionSort (fun a b => a.epoch ≤ b.epoch) ∧
      (ps.map (·.epoch) ++ epochsTo (lastEpoch events) processingEndEpoch).Pairwise (· < ·) ∧
      (∀ e, e ∈ ps.map (·.epoch) ↔ (∃ x ∈ events, x.epoch = e) ∧ e < lastEpoch events) ∧
      ∀ q ∈ ps, q = createEpochSnapshot q.epoch (stateAt events q.epoch) := by
    by_cases hnil : events = []
    · refine ⟨[], ?_, epochsTo_sorted _ _, fun e => ?_, fun q hq => by cases hq⟩
      · rw [hnil]
        change ((epochsTo 0 processingEndEpoch).foldl (fillEpoch .new) []).insertionSort _ = _
        rw [foldl_fillEpoch StakingState.new (show (map _ [] ++ epochsTo 0 processingEndEpoch).Pairwise (· < ·) from epochsTo_sorted _ _)]
        rfl
      · rw [hnil]
        exact iff_of_false (fun h => by cases h) fun h => absurd h.2 (Nat.not_lt_zero e)
    have h := processed events hmono hnil
    have hlast : (events.foldl processEvent .start).lastProcessedEpoch = some (lastEpoch events) := by
      rw [h.last, lastEpoch]
      cases hget : events.getLast? with
      | none => exact absurd (getLast?_eq_none_iff.mp hget) hnil
      | some x => rfl
    have hbefore (e : ℕ) : e ∈ (events.foldl processEvent .start).epochPositions.map (·.epoch) ↔
        (∃ x ∈ events, x.epoch = e) ∧ e < lastEpoch events := by
      rw [h.epochs, hlast]
      simp
    have hsorted : ((events.foldl processEvent .start).epochPositions.map (·.epoch) ++
        epochsTo (lastEpoch events) processingEndEpoch).Pairwise (· < ·) := by
      rw [pairwise_append]
      refine ⟨h.sorted, epochsTo_sorted _ _, fun e he e' he' => ?_⟩
      exact lt_of_lt_of_le ((hbefore e).mp he).2 (mem_epochsTo.mp he').1
    refine ⟨_, ?_, hsorted, hbefore, h.snapshots⟩
    rw [computePositions, hlast, Option.getD_some, h.state, foldl_fillEpoch _ hsorted]
  set s := events.foldl (fun s x => x.event.apply s) StakingState.new with hs
  have hmap : (ps ++ (epochsTo (lastEpoch events) processingEndEpoch).map (createEpochSnapshot · s)).map (·.epoch) =
      ps.map (·.epoch) ++ epochsTo (lastEpoch events) processingEndEpoch := by
    rw [map_append, map_map]
    exact congrArg _ (map_id _)
  have hresult : computePositions events processingEndEpoch =
      ps ++ (epochsTo (lastEpoch events) processingEndEpoch).map (createEpochSnapshot · s) := by
    rw [hps]
    apply Pairwise.insertionSort_eq
    rw [← hmap, pairwise_map] at hsorted
    exact hsorted.imp fun hlt => hlt.le
  rw [hresult]
  constructor
  · rw [hmap]
    exact hsorted
  · intro e
    rw [hmap, mem_append, hepochs, mem_epochsTo]
    constructor
    · rintro (⟨hsome, -⟩ | hlate)
      · exact .inl hsome
      · exact .inr hlate
    · rintro (⟨x, hx, rfl⟩ | hlate)
      · by_cases hlt : x.epoch < lastEpoch events
        · exact .inl ⟨⟨x, hx, rfl⟩, hlt⟩
        · exact .inr ⟨not_lt.mp hlt, hend x hx⟩
      · exact .inr hlate
  · intro q hq
    obtain hq | hq := mem_append.mp hq
    · rw [hsnapshots q hq]
      exact createEpochSnapshot_shows q.epoch _
    · obtain ⟨e, he, rfl⟩ := mem_map.mp hq
      change (createEpochSnapshot e s).Shows (stateAt events e)
      rw [stateAt_of_le fun x hx => (le_lastEpoch hmono hx).trans (mem_epochsTo.mp he).1]
      exact createEpochSnapshot_shows e s

end

/-- Every epoch from the first event to the last has an event. -/
def Gapless (events : List TimestampedStakeEvent) : Prop :=
  ∀ e, firstEpoch events ≤ e → e < lastEpoch events → ∃ x ∈ events, x.epoch = e

/-- One entry for every epoch from that of the first event on, each of the state at its epoch. -/
structure CompletePositions (events : List TimestampedStakeEvent) (processingEndEpoch : ℕ) (result : List EpochStakingPositions) :
    Prop where
  epochs : result.map (·.epoch) = epochsTo (firstEpoch events) processingEndEpoch
  shows : ∀ q ∈ result, q.Shows (stateAt events q.epoch)

theorem completePositions_iff (hmono : events.Pairwise (·.epoch ≤ ·.epoch)) (hend : ∀ x ∈ events, x.epoch ≤ processingEndEpoch) :
    CompletePositions events processingEndEpoch (computePositions events processingEndEpoch) ↔ Gapless events := by
  have h := computePositions_snapshots hmono hend
  have hlastEnd : lastEpoch events ≤ processingEndEpoch := by
    obtain rfl | ⟨before, l, rfl⟩ := eq_nil_or_concat events
    · exact Nat.zero_le _
    · rw [concat_eq_append] at *
      rw [lastEpoch, getLast?_concat]
      exact hend l (by simp)
  have hfirstLast : firstEpoch events ≤ lastEpoch events := by
    cases hevents : events with
    | nil => exact le_rfl
    | cons x rest =>
      have hx : x ∈ events := hevents ▸ mem_cons_self
      exact hevents ▸ (firstEpoch_le hmono hx).trans (le_lastEpoch hmono hx)
  constructor
  · intro hcomplete e hfirst hlast
    have hmem : e ∈ (computePositions events processingEndEpoch).map (·.epoch) := by
      rw [hcomplete.epochs, mem_epochsTo]
      exact ⟨hfirst, hlast.le.trans hlastEnd⟩
    obtain hsome | hlate := (h.epochs e).mp hmem
    · exact hsome
    · omega
  · intro hgapless
    refine ⟨h.sorted.eq_of_mem_iff (epochsTo_sorted _ _) fun e => ?_, h.shows⟩
    rw [h.epochs, mem_epochsTo]
    constructor
    · rintro (⟨x, hx, rfl⟩ | ⟨hlate, hle⟩)
      · exact ⟨firstEpoch_le hmono hx, hend x hx⟩
      · exact ⟨hfirstLast.trans hlate, hle⟩
    · rintro ⟨hfirst, hle⟩
      by_cases hlast : e < lastEpoch events
      · exact .inl (hgapless e hfirst hlast)
      · exact .inr ⟨not_lt.mp hlast, hle⟩

end Epochs

end VerifiableCompute.Rewards
