import VerifiableCompute.Povw.MintCalculator

/-! Bounds on the rewards of one calculation. The weight of an epoch is a sum over
the updates that were processed, the rewards of an epoch are at most that fraction
of its emissions, and the rewards of one log in an epoch at most its cap. -/

namespace VerifiableCompute.Povw

open Lib WordOrder FixedPoint List
open Market (U64 U96 U256 Address Bytes Bytes32)

/-- The weights of the selected pairs of an epoch and a log. -/
def weightSum (sel : ℕ → Address → Bool) (weights : RewardWeightMap) : ℕ :=
  weights.total fun epoch byLog => byLog.total fun id byRecipient =>
    if sel epoch id then byRecipient.total fun _ weight => weight.raw else 0

/-- The fraction of the work of its epoch that an update stands for. -/
def UpdateEvent.weight (epochs : OrderedMap ℕ ℕ) (event : UpdateEvent) : ℕ :=
  event.updateValue * FixedPoint.base / (epochs.get? event.epochNumber).getD 0

variable {x : FixedPoint} {epochs : OrderedMap ℕ ℕ} {sel : ℕ → Address → Bool} {awards : List Award} {epoch epochEmissions : ℕ} {env : Env}

theorem fraction_eq_some {num dem : ℕ} (h : fraction num dem = some x) : x.raw = num * base / dem := by
  simp only [fraction, fits, Option.bind_eq_bind, Option.bind_eq_some_iff,
    Option.ite_none_right_eq_some, Option.ite_none_left_eq_some, Option.some.injEq] at h
  obtain ⟨_, ⟨-, rfl⟩, -, -, rfl⟩ := h
  rfl

theorem add_eq_some {y z : FixedPoint} (h : x.add y = some z) : z.raw = x.raw + y.raw := by
  simp only [add, fits, Option.bind_eq_bind, Option.bind_eq_some_iff,
    Option.ite_none_right_eq_some, Option.some.injEq] at h
  obtain ⟨_, ⟨-, rfl⟩, hz⟩ := h
  cases hz
  rfl

theorem mulUnwrap_eq_some {y n : ℕ} (h : x.mulUnwrap y = some n) : n = x.raw * y / base := by
  simp only [mulUnwrap, fits, Option.bind_eq_bind, Option.bind_eq_some_iff,
    Option.ite_none_right_eq_some, Option.some.injEq] at h
  obtain ⟨_, ⟨-, rfl⟩, hn⟩ := h
  cases hn
  rfl

section

variable (sel : ℕ → Address → Bool)

theorem addWeight_eq_some {weights weights' : RewardWeightMap}
    {event : UpdateEvent} (h : addWeight epochs weights event = some weights') :
    weightSum sel weights' = weightSum sel weights +
      if sel event.epochNumber event.workLogId then event.weight epochs else 0 := by
  unfold addWeight at h
  split_ifs at h with hpos
  · simp only [Option.bind_eq_bind, Option.bind_eq_some_iff] at h
    obtain ⟨total, htotal, fraction, hfraction, weight, hweight, h⟩ := h
    cases h
    set byLog := (weights.get? event.epochNumber).getD .empty with hbyLog
    set byRecipient := (byLog.get? event.workLogId).getD .empty with hbyRecipient
    have hraw : weight.raw = ((byRecipient.get? event.valueRecipient).getD .zero).raw + event.weight epochs := by
      rw [UpdateEvent.weight, htotal, Option.getD_some, ← fraction_eq_some hfraction]
      exact add_eq_some hweight
    have hrecipients := OrderedMap.total_update (fun _ (weight : FixedPoint) => weight.raw) event.valueRecipient .zero
      weight byRecipient rfl
    have hlogs := OrderedMap.total_update (fun id (byRecipient : OrderedMap Address FixedPoint) =>
        if sel event.epochNumber id then byRecipient.total fun _ weight => weight.raw else 0)
      event.workLogId .empty (byRecipient.insert event.valueRecipient weight) byLog (ite_self 0)
    have hepochs := OrderedMap.total_update (fun epoch (byLog : OrderedMap Address (OrderedMap Address FixedPoint)) =>
        byLog.total fun id byRecipient => if sel epoch id then byRecipient.total fun _ weight => weight.raw else 0)
      event.epochNumber .empty (byLog.insert event.workLogId (byRecipient.insert event.valueRecipient weight)) weights rfl
    simp only [← hbyLog, ← hbyRecipient] at hrecipients hlogs hepochs
    simp only [weightSum]
    split_ifs at hlogs ⊢ <;> omega
  · cases h
    have hzero : event.weight epochs = 0 := by simp [UpdateEvent.weight, Nat.eq_zero_of_not_pos hpos]
    simp [hzero]

/-- The updates of the selected pairs that were processed. -/
def selected (filter : WorkLogFilter) (epochs : OrderedMap ℕ ℕ) (events : List UpdateEvent) : List UpdateEvent :=
  (events.filter (processed filter epochs)).filter fun event => sel event.epochNumber event.workLogId

theorem collectUpdates_weights {filter : WorkLogFilter}
    {events : List UpdateEvent} {acc r : OrderedMap Address (Bytes32 × Bytes32) × RewardWeightMap}
    (h : collectUpdates filter epochs events acc = some r) : weightSum sel r.2 = weightSum sel acc.2 +
      ((selected sel filter epochs events).map (UpdateEvent.weight epochs)).sum := by
  induction events generalizing acc with
  | nil =>
    cases h
    rfl
  | cons event events ih =>
    unfold collectUpdates at h
    split_ifs at h with hprocessed
    · simp only [Option.bind_eq_bind, Option.bind_eq_some_iff] at h
      obtain ⟨updates, -, weights, hweights, h⟩ := h
      rw [ih h, addWeight_eq_some sel hweights, selected, selected, filter_cons_of_pos hprocessed]
      by_cases hsel : sel event.epochNumber event.workLogId
      · rw [if_pos hsel, filter_cons_of_pos (by exact hsel), map_cons, sum_cons, Nat.add_assoc]
      · rw [if_neg hsel, filter_cons_of_neg (by exact hsel), Nat.add_zero]
    · rw [ih h, selected, selected, filter_cons_of_neg hprocessed]

/-- The rewards of the selected pairs. -/
def awardSum (awards : List Award) : ℕ :=
  ((awards.filter fun a => sel a.epoch a.workLogId).map Award.reward).sum

theorem awardSum_append (awards more : List Award) :
    awardSum sel (awards ++ more) = awardSum sel awards + awardSum sel more := by
  simp [awardSum]

end

theorem awardSum_eq_zero (h : ∀ a ∈ awards, sel a.epoch a.workLogId = false) : awardSum sel awards = 0 := by
  rw [awardSum, filter_eq_nil_iff.mpr fun a ha => by simp [h a ha]]
  rfl

theorem awardSum_le (sel : ℕ → Address → Bool) (awards : List Award) :
    awardSum sel awards ≤ (awards.map Award.reward).sum :=
  (filter_sublist.map _).sum_le_sum fun _ _ => Nat.zero_le _

theorem capRewards_eq_some {rewardCap : ℕ} {id : Address} {byRecipient : List (Address × FixedPoint)}
    (h : capRewards epoch id epochEmissions rewardCap byRecipient = some awards) :
    (∀ a ∈ awards, a.epoch = epoch ∧ a.workLogId = id) ∧ (awards.map Award.reward).sum ≤ rewardCap ∧
      (awards.map Award.reward).sum * base ≤ epochEmissions * (byRecipient.map fun e => e.2.raw).sum := by
  induction byRecipient generalizing rewardCap awards with
  | nil =>
    cases h
    simp
  | cons e rest ih =>
    obtain ⟨recipient, weight⟩ := e
    simp only [capRewards, Option.bind_eq_bind, Option.bind_eq_some_iff] at h
    obtain ⟨uncapped, huncapped, more, hmore, h⟩ := h
    obtain ⟨hpair, hcap, hemissions⟩ := ih hmore
    set reward := min uncapped rewardCap with hreward
    have hfloor : reward * base ≤ epochEmissions * weight.raw := by
      have hle : reward ≤ weight.raw * epochEmissions / base :=
        (min_le_left _ _).trans (mulUnwrap_eq_some huncapped).le
      calc reward * base ≤ weight.raw * epochEmissions / base * base :=
            Nat.mul_le_mul_right _ hle
        _ ≤ weight.raw * epochEmissions := Nat.div_mul_le_self _ _
        _ = epochEmissions * weight.raw := Nat.mul_comm _ _
    have hsum : (awards.map Award.reward).sum = reward + (more.map Award.reward).sum := by
      split_ifs at h with hpos
      · cases h
        simp
      · cases h
        omega
    rw [hsum, map_cons, sum_cons, Nat.add_mul, Nat.mul_add]
    refine ⟨?_, by omega, by dsimp only; omega⟩
    split_ifs at h with hpos
    · cases h
      simpa using hpair
    · cases h
      exact hpair

theorem epochRewards_eq_some {epochEndTime : ℕ} {byLog : List (Address × OrderedMap Address FixedPoint)}
    (h : epochRewards env epoch epochEmissions epochEndTime byLog = some awards) :
    (∀ a ∈ awards, a.epoch = epoch ∧ a.workLogId ∈ byLog.map Prod.fst) ∧
      (∀ sel : ℕ → Address → Bool, awardSum sel awards * base ≤ epochEmissions *
        (byLog.map fun e => if sel epoch e.1 then e.2.total fun _ weight => weight.raw else 0).sum) ∧
      ((byLog.map Prod.fst).Nodup → ∀ (sel : ℕ → Address → Bool) (id : Address),
        (∀ id', sel epoch id' = true → id' = id) → awardSum sel awards ≤ env.getPastPoVWRewardCap id epochEndTime) := by
  induction byLog generalizing awards with
  | nil =>
    cases h
    simp [awardSum]
  | cons e rest ih =>
    obtain ⟨id, byRecipient⟩ := e
    simp only [epochRewards, Option.bind_eq_bind, Option.bind_eq_some_iff] at h
    obtain ⟨first, hfirst, more, hmore, h⟩ := h
    cases h
    obtain ⟨hpair, hemissions, hcap⟩ := ih hmore
    obtain ⟨hpair', hcap', hemissions'⟩ := capRewards_eq_some hfirst
    have hnone {sel : ℕ → Address → Bool} (hsel : ¬ sel epoch id) : awardSum sel first = 0 :=
      awardSum_eq_zero fun a ha => by rw [(hpair' a ha).1, (hpair' a ha).2]; exact Bool.eq_false_iff.mpr hsel
    refine ⟨fun a ha => ?_, fun sel => ?_, fun hnodup sel id' hsel => ?_⟩
    · rcases mem_append.mp ha with ha | ha
      · exact ⟨(hpair' a ha).1, (hpair' a ha).2 ▸ mem_cons_self⟩
      · exact ⟨(hpair a ha).1, mem_cons_of_mem _ (hpair a ha).2⟩
    · rw [awardSum_append, map_cons, sum_cons, Nat.add_mul, Nat.mul_add]
      refine Nat.add_le_add ?_ (hemissions sel)
      dsimp only
      split_ifs with hsel
      · exact (Nat.mul_le_mul_right _ (awardSum_le sel first)).trans hemissions'
      · rw [hnone hsel, Nat.zero_mul]
        exact Nat.zero_le _
    · rw [map_cons, nodup_cons] at hnodup
      rw [awardSum_append]
      by_cases hthis : sel epoch id
      · have hrest : awardSum sel more = 0 := by
          refine awardSum_eq_zero fun a ha => ?_
          rw [(hpair a ha).1]
          refine Bool.eq_false_iff.mpr fun hsel' => hnodup.1 ?_
          rw [show id = a.workLogId from (hsel id hthis).trans (hsel _ hsel').symm]
          exact (hpair a ha).2
        rw [hrest, ← hsel id hthis]
        exact (awardSum_le sel first).trans hcap'
      · rw [hnone hthis, Nat.zero_add]
        exact hcap hnodup.2 sel id' hsel

theorem allRewards_eq_some {weights : List (ℕ × OrderedMap Address (OrderedMap Address FixedPoint))}
    (h : allRewards env weights = some awards) (hnodup : (weights.map Prod.fst).Nodup)
    (hsel : ∀ epoch' id, sel epoch' id = true → epoch' = epoch) : (∀ a ∈ awards, a.epoch ∈ weights.map Prod.fst) ∧
      awardSum sel awards * base ≤ env.getPoVWEmissionsForEpoch epoch *
        (weights.map fun e => e.2.total fun id byRecipient =>
          if sel e.1 id then byRecipient.total fun _ weight => weight.raw else 0).sum ∧
      ∀ id, (∀ id', sel epoch id' = true → id' = id) →
        awardSum sel awards ≤ env.getPastPoVWRewardCap id (env.getEpochEndTime epoch) := by
  induction weights generalizing awards with
  | nil =>
    cases h
    simp [awardSum]
  | cons e rest ih =>
    obtain ⟨epoch', byLog⟩ := e
    simp only [allRewards, Option.bind_eq_bind, Option.bind_eq_some_iff] at h
    obtain ⟨first, hfirst, more, hmore, h⟩ := h
    cases h
    rw [map_cons, nodup_cons] at hnodup
    obtain ⟨hmem, hemissions, hcap⟩ := ih hmore hnodup.2
    obtain ⟨hmem', hemissions', hcap'⟩ := epochRewards_eq_some hfirst
    have hall : ∀ a ∈ first ++ more, a.epoch ∈ epoch' :: rest.map Prod.fst := by
      intro a ha
      rcases mem_append.mp ha with ha | ha
      · exact (hmem' a ha).1 ▸ mem_cons_self
      · exact mem_cons_of_mem _ (hmem a ha)
    simp only [awardSum_append, map_cons, sum_cons, Nat.add_mul, Nat.mul_add]
    by_cases hepoch : epoch' = epoch
    · subst hepoch
      have hrest : awardSum sel more = 0 := by
        refine awardSum_eq_zero fun a ha => Bool.eq_false_iff.mpr fun hsel' => hnodup.1 ?_
        rw [← hsel _ _ hsel']
        exact hmem a ha
      refine ⟨hall, ?_, fun id hid => ?_⟩
      · rw [hrest, Nat.zero_mul, Nat.add_zero]
        exact (hemissions' sel).trans (Nat.le_add_right _ _)
      · rw [hrest, Nat.add_zero]
        exact hcap' byLog.nodup_keys sel id hid
    · have hnone : awardSum sel first = 0 := by
        refine awardSum_eq_zero fun a ha => Bool.eq_false_iff.mpr fun hsel' => hepoch ?_
        rw [← hsel _ _ hsel']
        exact (hmem' a ha).1.symm
      refine ⟨hall, ?_, fun id hid => ?_⟩
      · rw [hnone, Nat.zero_mul, Nat.zero_add]
        exact hemissions.trans (Nat.le_add_left _ _)
      · rw [hnone, Nat.zero_add]
        exact hcap id hid

def awardsOf (recipient : Address) (awards : List Award) : ℕ :=
  ((awards.filter fun a => a.recipient = recipient).map Award.reward).sum

theorem addRewards_get? (awards : List Award) (recipient : Address) :
    ((addRewards awards).get? recipient).getD 0 = awardsOf recipient awards % 2 ^ 256 := by
  unfold addRewards
  induction awards using reverseRecOn with
  | nil => rfl
  | append_singleton awards a ih =>
    rw [foldl_append, foldl_cons, foldl_nil, OrderedMap.get?_insert]
    simp only [awardsOf, filter_append, map_append, sum_append] at ih ⊢
    by_cases hr : recipient = a.recipient
    · subst hr
      rw [if_pos rfl, Option.getD_some, ih, filter_cons_of_pos (by simp)]
      simp
    · rw [if_neg hr, ih, filter_cons_of_neg (by simpa using Ne.symm hr)]
      simp

end VerifiableCompute.Povw
