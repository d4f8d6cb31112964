import VerifiableCompute.Povw.MintHistory

/-! Minting is bounded and at most once. Every update with work contributes to at most
one mint, all updates of a log in an epoch to the same one; what is minted for the
pair is at most the cap of the log, and what is minted for an epoch at most its
emissions. -/

namespace VerifiableCompute.Povw

open Lib WordOrder List FixedPoint UpdateEvent
open Market (U64 U96 U256 Address Bytes Bytes32)

def contributed (chain : Contracts → ℕ → Env) (m : Input × Minted) : List UpdateEvent :=
  contributing chain m.1 m.2.calculation

/-- What a mint awards for one log in one epoch. -/
def mintedFor (epoch : ℕ) (id : Address) (m : Input × Minted) : ℕ :=
  awardSum (fun epoch' id' => epoch' = epoch && id' = id) m.2.calculation.awards

def mintedIn (epoch : ℕ) (m : Input × Minted) : ℕ :=
  awardSum (fun epoch' _ => epoch' = epoch) m.2.calculation.awards

/-- What a mint makes the token pay to a recipient. -/
def paid (recipient : Address) (m : Input × Minted) : ℕ :=
  ((m.2.mints.filter fun x => x.recipient = recipient).map MintCalculatorMint.value).sum

variable {initialEpoch : U256} {s : Accounting} {calls : List Call} {chain : Contracts → ℕ → Env} {cfg : Contracts}
variable {t : List (Input × Minted)} {w : MintCommits} {m : Input × Minted}

section

variable (hread : ReadsRun (chain cfg) s calls) (hchecked : Checked chain m.1 m.2.calculation) (hcfg : m.1.contracts = cfg)

include hread hchecked hcfg

theorem exists_finalized {e total : ℕ} (h : m.2.calculation.epochs.get? e = some total) :
    ∃ b, b ≤ m.2.calculation.latestEpochFinalizationBlock ∧ (b, e, total) ∈ finalizedEvents s calls := by
  have hsorted : (envsOf chain m.1).Pairwise fun x y => x.number ≤ y.number := by
    rw [envsOf, pairwise_map, hcfg]
    simp only [hread.number]
    exact pairwise_insertionSort (· ≤ ·) _
  obtain ⟨hepochs, hlatest⟩ := collectEpochs_eq_some hsorted hchecked.epochs
  rcases hepochs e total h with hold | ⟨env, henv, hmem⟩
  · simp at hold
  · have hle : env.number ≤ m.2.calculation.latestEpochFinalizationBlock := by
      rcases hlatest with ⟨hnone, -⟩ | ⟨latest, -, hnumber, hle⟩
      · cases hnone
      · rw [Option.some.inj hnumber]
        exact hle env henv (ne_nil_of_mem hmem)
    obtain ⟨b, -, rfl⟩ := mem_map.mp henv
    rw [hcfg, hread.number] at hle
    rw [hcfg, hread.epochFinalized] at hmem
    obtain ⟨f, hf, heq⟩ := mem_map.mp hmem
    obtain ⟨hf, hb⟩ := mem_filter.mp hf
    refine ⟨b, hle, ?_⟩
    rw [← heq, ← of_decide_eq_true hb]
    exact hf

theorem latest_mem_blocks : m.2.calculation.latestEpochFinalizationBlock ∈ m.1.blocks ∧
      allRewards (chain cfg m.2.calculation.latestEpochFinalizationBlock) m.2.calculation.weights.entries =
        some m.2.calculation.awards := by
  obtain ⟨env, henv, hnumber, hawards⟩ := hchecked.awards
  obtain ⟨b, hb, rfl⟩ := mem_map.mp henv
  rw [hcfg] at hnumber hawards
  rw [hread.number] at hnumber
  rw [← hnumber]
  exact ⟨(mem_insertionSort _).mp hb, hawards⟩

end

section Chain

variable (hinit : Accounting.init initialEpoch = .ok s) (hepochs : EpochsAscend initialEpoch calls)
  (hblocks : BlocksAscend calls) (hread : ReadsRun (chain cfg) s calls)
  (hret : ∀ id, NoReturn endCommit valued emptyLogRoot (updatesOf id s calls))
include hinit hepochs hblocks hread hret

theorem contributed_nodup (h : Replay (mintFrom chain cfg) (fun _ => 0) t w) :
    (t.flatMap (contributed chain)).Nodup := by
  refine nodup_iff_count_le_one.mpr fun x => ?_
  have hone := nodup_iff_count_le_one.mp
    (replay_nodup hinit hepochs hblocks hread (hret x.workLogId) h) x
  have hfilter : (t.flatMap (contributed chain)).filter (fun y => y.workLogId = x.workLogId) =
      (t.flatMap (acceptedOf s calls x.workLogId)).map Prod.snd := by
    rw [filter_flatMap, map_flatMap]
    refine flatMap_congr fun m hm => ?_
    obtain ⟨hchecked, hcfg, -⟩ := replay_checked h hm
    exact contributing_filter hread hblocks hcfg hchecked.distinct x.workLogId
  rwa [← hfilter, count_filter (by simp)] at hone

/-- An update with work is processed no later than another one of its log and epoch. -/
theorem accepted_before {u : List (Input × Minted)}
    (h : Replay (mintFrom chain cfg) (fun _ => 0) (t ++ m :: u) w) {id : Address} {x y : ℕ × UpdateEvent}
    (hx : x ∈ acceptedOf s calls id m) (hy : y ∈ updatesOf id s calls) (hvalued : valued y)
    (hepoch : y.2.epochNumber = x.2.epochNumber) :
    y ∈ t.flatMap (acceptedOf s calls id) ∨ y ∈ acceptedOf s calls id m := by
  obtain ⟨hchecked, hcfg, -⟩ := replay_checked h (mem_append_right t mem_cons_self)
  have hxmem := mem_filter.mp (mem_of_mem_filter hx)
  have hlog (z : ℕ × UpdateEvent) (hz : z ∈ updatesOf id s calls) : z.2.workLogId = id :=
    of_decide_eq_true (mem_filter.mp hz).2
  simp only [accepts, processed, Bool.and_eq_true] at hxmem
  obtain ⟨hxlog, -, hincludes, hfinal⟩ := hxmem
  obtain ⟨total, htotal⟩ := Option.isSome_iff_exists.mp hfinal
  obtain ⟨b, hb, hfinalized⟩ := exists_finalized hread hchecked hcfg htotal
  rw [← hepoch] at hfinalized hfinal
  have hle := (update_block_le hinit hepochs hblocks (mem_of_mem_filter hy) hfinalized).trans hb
  rcases hle.lt_or_eq with hlt | heq
  · exact replay_complete hinit hepochs hblocks hread (hret id) h (ne_nil_of_mem hx) hy hvalued hlt
  · refine .inr (mem_filter.mpr ⟨mem_filter.mpr ⟨hy, ?_⟩, hvalued⟩)
    simp only [accepts, processed, Bool.and_eq_true, heq, decide_eq_true_eq]
    refine ⟨(latest_mem_blocks hread hchecked hcfg).1, ?_, hfinal⟩
    rwa [hlog y hy, ← hlog x hxlog]

variable {x : UpdateEvent} {sel : ℕ → Address → Bool} {e : ℕ}

theorem contributed_together (h : Replay (mintFrom chain cfg) (fun _ => 0) t w) {y : UpdateEvent}
    (hy : y ∈ (updateEvents s calls).map Prod.snd) (hvalue : 0 < y.updateValue) (hid : y.workLogId = x.workLogId)
    (hepoch : y.epochNumber = x.epochNumber) (hm : m ∈ t) (hx : x ∈ contributed chain m) : y ∈ contributed chain m := by
  have htagged : ∀ m ∈ t, ∀ z, z ∈ contributed chain m ∧ z.workLogId = x.workLogId ↔
      z ∈ (acceptedOf s calls x.workLogId m).map Prod.snd := by
    intro m hm z
    obtain ⟨hchecked, hcfg, -⟩ := replay_checked h hm
    rw [← contributing_filter hread hblocks hcfg hchecked.distinct, mem_filter, decide_eq_true_eq]
    rfl
  obtain ⟨y', hy', rfl⟩ := mem_map.mp hy
  have hylog : y' ∈ updatesOf x.workLogId s calls := mem_filter.mpr ⟨hy', by simpa using hid⟩
  obtain ⟨x', hx', rfl⟩ := mem_map.mp ((htagged m hm x).mp ⟨hx, rfl⟩)
  obtain ⟨before, after, rfl⟩ := append_of_mem hm
  rcases accepted_before hinit hepochs hblocks hread hret h hx' hylog (by simpa [valued] using hvalue) hepoch
    with hearlier | hsame
  · -- the earlier mint that processed `y'` would have processed `x'` too
    obtain ⟨m', hm', hy''⟩ := mem_flatMap.mp hearlier
    obtain ⟨before', between, rfl⟩ := append_of_mem hm'
    rw [append_assoc, cons_append] at h
    have hagain := accepted_before hinit hepochs hblocks hread hret h hy''
      (mem_of_mem_filter (mem_of_mem_filter hx')) (mem_filter.mp hx').2 hepoch.symm
    have hnodup := (replay_nodup hinit hepochs hblocks hread (hret x'.2.workLogId) h).of_map
    rw [← singleton_append, ← append_assoc, flatMap_append, nodup_append] at hnodup
    have hfirst : x' ∈ (before' ++ [m']).flatMap (acceptedOf s calls x'.2.workLogId) := by
      simpa only [flatMap_append, flatMap_singleton, mem_append] using hagain
    have hlater : x' ∈ (between ++ m :: after).flatMap (acceptedOf s calls x'.2.workLogId) :=
      mem_flatMap.mpr ⟨m, mem_append_right _ mem_cons_self, hx'⟩
    exact absurd rfl (hnodup.2.2 x' hfirst x' hlater)
  · exact ((htagged m hm y'.2).mpr (mem_map_of_mem hsame)).1

omit hinit hepochs hret in
theorem mem_contributed (h : Replay (mintFrom chain cfg) (fun _ => 0) t w) (hm : m ∈ t)
    (hx : x ∈ contributed chain m) : x ∈ (updateEvents s calls).map Prod.snd ∧ 0 < x.updateValue ∧
      (m.2.calculation.epochs.get? x.epochNumber).isSome := by
  obtain ⟨hchecked, hcfg, -⟩ := replay_checked h hm
  obtain ⟨hprocessed, hvalue⟩ := mem_filter.mp hx
  rw [processed_eq hread hblocks hcfg hchecked.distinct] at hprocessed
  obtain ⟨e, he, rfl⟩ := mem_map.mp hprocessed
  obtain ⟨he, haccepts⟩ := mem_filter.mp he
  simp only [accepts, processed, Bool.and_eq_true] at haccepts
  exact ⟨mem_map_of_mem he, by simpa using hvalue, haccepts.2.2⟩

omit hinit hepochs hblocks hread hret in
theorem weightSum_contributed (h : Replay (mintFrom chain cfg) (fun _ => 0) t w) (hm : m ∈ t)
    (sel : ℕ → Address → Bool) : weightSum sel m.2.calculation.weights =
      (((contributed chain m).filter fun x => sel x.epochNumber x.workLogId).map
        (weight m.2.calculation.epochs)).sum := by
  obtain ⟨hchecked, -, -⟩ := replay_checked h hm
  have hweights := collectUpdates_weights sel hchecked.updates
  rw [show weightSum sel .empty = 0 from rfl, Nat.zero_add] at hweights
  rw [hweights, selected, contributed, contributing]
  generalize ((envsOf chain m.1).flatMap Env.workLogUpdated).filter
    (processed m.1.workLogFilter m.2.calculation.epochs) = us
  induction us with
  | nil => rfl
  | cons x us ih =>
    by_cases hvalue : x.updateValue > 0
    · rw [filter_cons_of_pos (p := fun event : UpdateEvent => decide (event.updateValue > 0)) (by simpa using hvalue)]
      by_cases hsel : sel x.epochNumber x.workLogId
      · rw [filter_cons_of_pos (by exact hsel), filter_cons_of_pos (by exact hsel), map_cons,
          map_cons, sum_cons, sum_cons, ih]
      · rw [filter_cons_of_neg (by exact hsel), filter_cons_of_neg (by exact hsel), ih]
    · have hzero : x.weight m.2.calculation.epochs = 0 := by simp [weight, Nat.eq_zero_of_not_pos hvalue]
      rw [filter_cons_of_neg (p := fun event : UpdateEvent => decide (event.updateValue > 0)) (by simpa using hvalue),
        ← ih, filter_cons]
      split_ifs
      · rw [map_cons, sum_cons, hzero, Nat.zero_add]
      · rfl

omit hinit hepochs hblocks hret in
theorem awards_le (h : Replay (mintFrom chain cfg) (fun _ => 0) t w) (hm : m ∈ t)
    (hsel : ∀ e' id, sel e' id = true → e' = e) : awardSum sel m.2.calculation.awards * base ≤
        (chain cfg m.2.calculation.latestEpochFinalizationBlock).getPoVWEmissionsForEpoch e *
          weightSum sel m.2.calculation.weights ∧
      ∀ id, (∀ id', sel e id' = true → id' = id) → awardSum sel m.2.calculation.awards ≤
        (chain cfg m.2.calculation.latestEpochFinalizationBlock).getPastPoVWRewardCap id
          ((chain cfg m.2.calculation.latestEpochFinalizationBlock).getEpochEndTime e) := by
  obtain ⟨hchecked, hcfg, -⟩ := replay_checked h hm
  exact (allRewards_eq_some (latest_mem_blocks hread hchecked hcfg).2 m.2.calculation.weights.nodup_keys hsel).2

omit hinit hepochs hblocks hret in
theorem exists_contributed (h : Replay (mintFrom chain cfg) (fun _ => 0) t w) (hm : m ∈ t)
    (hsel : ∀ e' id, sel e' id = true → e' = e) (hpos : awardSum sel m.2.calculation.awards ≠ 0) :
    ∃ x ∈ contributed chain m, sel x.epochNumber x.workLogId := by
  by_contra hnone
  have hempty : ((contributed chain m).filter fun x => sel x.epochNumber x.workLogId) = [] :=
    filter_eq_nil_iff.mpr fun x hx hsel => hnone ⟨x, hx, hsel⟩
  have hle := (awards_le hread h hm hsel).1
  rw [weightSum_contributed h hm sel, hempty, map_nil, sum_nil, Nat.mul_zero] at hle
  have hbase : 0 < base := by decide
  exact hpos ((Nat.mul_eq_zero.mp (Nat.le_zero.mp hle)).resolve_right hbase.ne')

variable {emissions : ℕ → ℕ} {cap : Address → ℕ → ℕ} (hsettled : Settled (chain cfg) s calls emissions cap)
include hsettled

omit hinit hepochs hret in
theorem settled_of_contributed (h : Replay (mintFrom chain cfg) (fun _ => 0) t w) (hm : m ∈ t)
    (hx : x ∈ contributed chain m) :
    (chain cfg m.2.calculation.latestEpochFinalizationBlock).getPoVWEmissionsForEpoch x.epochNumber =
        emissions x.epochNumber ∧
      ∀ id, (chain cfg m.2.calculation.latestEpochFinalizationBlock).getPastPoVWRewardCap id
        ((chain cfg m.2.calculation.latestEpochFinalizationBlock).getEpochEndTime x.epochNumber) =
          cap id x.epochNumber := by
  obtain ⟨hchecked, hcfg, -⟩ := replay_checked h hm
  obtain ⟨-, -, hfinal⟩ := mem_contributed hblocks hread h hm hx
  obtain ⟨total, htotal⟩ := Option.isSome_iff_exists.mp hfinal
  obtain ⟨b, hb, hfinalized⟩ := exists_finalized hread hchecked hcfg htotal
  exact hsettled b x.epochNumber total _ hfinalized hb

theorem mintedFor_le_cap (h : Replay (mintFrom chain cfg) (fun _ => 0) t w) (id : Address) (e : ℕ) :
    (t.map (mintedFor e id)).sum ≤ cap id e := by
  have hsel : ∀ e' id', (decide (e' = e) && decide (id' = id)) = true → e' = e := by simp
  have hx (m : Input × Minted) (hm : m ∈ t) (hpos : mintedFor e id m ≠ 0) :
      ∃ x ∈ contributed chain m, x.epochNumber = e ∧ x.workLogId = id := by
    obtain ⟨x, hx, hpair⟩ := exists_contributed hread h hm hsel hpos
    exact ⟨x, hx, by simpa using hpair⟩
  refine sum_le_of_exclusive ?_ fun m hm => ?_
  · refine (nodup_flatMap.mp (contributed_nodup hinit hepochs hblocks hread hret h)).2.imp_of_mem ?_
    intro m m' hm hm' hdisjoint
    by_contra hboth
    obtain ⟨hpos, hpos'⟩ := not_or.mp hboth
    obtain ⟨x, hxm, hepoch, hid⟩ := hx m hm hpos
    obtain ⟨y, hym, hepoch', hid'⟩ := hx m' hm' hpos'
    obtain ⟨hy, hvalue, -⟩ := mem_contributed hblocks hread h hm' hym
    have hshared := contributed_together hinit hepochs hblocks hread hret h hy hvalue (hid'.trans hid.symm)
      (hepoch'.trans hepoch.symm) hm hxm
    exact hdisjoint hshared hym
  · by_cases hpos : mintedFor e id m = 0
    · rw [hpos]
      exact Nat.zero_le _
    · obtain ⟨x, hxm, rfl, rfl⟩ := hx m hm hpos
      rw [← (settled_of_contributed hblocks hread hsettled h hm hxm).2 x.workLogId]
      exact (awards_le hread h hm hsel).2 x.workLogId (by simp)

omit hinit hepochs hblocks hread hret hsettled in
theorem workIn_eq (e : ℕ) (s : Accounting) (calls : List Call) : workIn e (events s calls) =
    ((((updateEvents s calls).map Prod.snd).filter fun x => x.epochNumber = e).map UpdateEvent.updateValue).sum := by
  rw [events, updateEvents]
  generalize (run s calls).2 = es
  induction es with
  | nil => rfl
  | cons event es ih =>
    obtain ⟨b, event⟩ := event
    rw [map_cons, ← singleton_append, workIn_append, ih]
    cases event with
    | epochFinalized => simp [workIn, Event.workIn, Event.update]
    | workLogUpdated id epochNumber =>
      by_cases hepoch : epochNumber.toNat = e <;> simp [workIn, Event.workIn, Event.update, hepoch]

omit hinit hepochs hblocks hread hret hsettled in
theorem sum_floor_le (us : List UpdateEvent) (b total : ℕ) (h : (us.map UpdateEvent.updateValue).sum ≤ total) :
    (us.map fun x => x.updateValue * b / total).sum ≤ b := by
  have hsum : (us.map fun x => x.updateValue * b / total).sum ≤ (us.map UpdateEvent.updateValue).sum * b / total := by
    clear h
    induction us with
    | nil => simp
    | cons x us ih =>
      rw [map_cons, sum_cons, map_cons, sum_cons, Nat.add_mul]
      exact (Nat.add_le_add_left ih _).trans Nat.div_add_div_le_add_div
  refine hsum.trans (Nat.div_le_of_le_mul ?_)
  exact Nat.mul_le_mul_right b h

omit hret hsettled in
theorem weight_eq (h : Replay (mintFrom chain cfg) (fun _ => 0) t w) (hm : m ∈ t)
    (hx : x ∈ contributed chain m) : x.weight m.2.calculation.epochs =
      x.updateValue * base / workIn x.epochNumber (events s calls) := by
  obtain ⟨hchecked, hcfg, -⟩ := replay_checked h hm
  obtain ⟨-, -, hfinal⟩ := mem_contributed hblocks hread h hm hx
  obtain ⟨total, htotal⟩ := Option.isSome_iff_exists.mp hfinal
  obtain ⟨b, -, hfinalized⟩ := exists_finalized hread hchecked hcfg htotal
  obtain ⟨e, he, hevent⟩ := mem_filterMap.mp hfinalized
  obtain ⟨f, hf, heq⟩ := Option.map_eq_some_iff.mp hevent
  have htotals := (books_run hinit calls hepochs).1.totals e.2 (mem_map_of_mem he) f hf
  rw [(Prod.mk.inj heq).2] at htotals
  rw [weight, htotal, Option.getD_some, ← htotals]

theorem mintedIn_le_emissions (h : Replay (mintFrom chain cfg) (fun _ => 0) t w) (e : ℕ) :
    (t.map (mintedIn e)).sum ≤ emissions e := by
  set share : UpdateEvent → ℕ := fun x => x.updateValue * base / workIn e (events s calls) with hshare
  have hone : ∀ m ∈ t, mintedIn e m * base ≤
      emissions e * (((contributed chain m).filter fun x => x.epochNumber = e).map share).sum := by
    intro m hm
    have hsel : ∀ e' (_ : Address), decide (e' = e) = true → e' = e := by simp
    have hle := (awards_le hread h hm hsel).1
    rw [weightSum_contributed h hm] at hle
    have hweights : ((contributed chain m).filter fun x => x.epochNumber = e).map
        (weight m.2.calculation.epochs) =
        ((contributed chain m).filter fun x => x.epochNumber = e).map share := by
      refine map_congr_left fun x hx => ?_
      obtain ⟨hx, hepoch⟩ := mem_filter.mp hx
      rw [weight_eq hinit hepochs hblocks hread h hm hx, of_decide_eq_true hepoch]
    rw [hweights] at hle
    refine hle.trans ?_
    cases hlist : (contributed chain m).filter fun x => x.epochNumber = e with
    | nil => simp
    | cons x us =>
      obtain ⟨hx, hepoch⟩ := mem_filter.mp (hlist ▸ mem_cons_self)
      have hemissions := (settled_of_contributed hblocks hread hsettled h hm hx).1
      rw [of_decide_eq_true hepoch] at hemissions
      rw [hemissions]
  have hall : (t.map (mintedIn e)).sum * base ≤
      emissions e * (((t.flatMap (contributed chain)).filter fun x => x.epochNumber = e).map share).sum := by
    clear h
    induction t with
    | nil => simp
    | cons m t ih =>
      rw [forall_mem_cons] at hone
      rw [map_cons, sum_cons, Nat.add_mul, flatMap_cons, filter_append, map_append,
        sum_append, Nat.mul_add]
      exact Nat.add_le_add hone.1 (ih hone.2)
  have hwork : (((t.flatMap (contributed chain)).filter fun x => x.epochNumber = e).map UpdateEvent.updateValue).sum ≤
      workIn e (events s calls) := by
    have hnodup := contributed_nodup hinit hepochs hblocks hread hret h
    have hsubset : t.flatMap (contributed chain) ⊆ (updateEvents s calls).map Prod.snd := by
      intro x hx
      obtain ⟨m, hm, hx⟩ := mem_flatMap.mp hx
      exact (mem_contributed hblocks hread h hm hx).1
    obtain ⟨us, hperm, hsublist⟩ := hnodup.subperm hsubset
    rw [workIn_eq, ← ((hperm.filter _).map _).sum_eq]
    exact ((hsublist.filter _).map _).sum_le_sum fun _ _ => Nat.zero_le _
  refine Nat.le_of_mul_le_mul_right (hall.trans ?_) (by decide : 0 < base)
  exact Nat.mul_le_mul_left _ (sum_floor_le _ _ _ hwork)

end Chain

theorem paid_eq (h : Replay (mintFrom chain cfg) (fun _ => 0) t w) (hm : m ∈ t) (recipient : Address) :
    paid recipient m = awardsOf recipient m.2.calculation.awards % 2 ^ 256 := by
  obtain ⟨-, -, hmints⟩ := replay_checked h hm
  rw [paid, hmints, ← addRewards_get?]
  have htotal := OrderedMap.total_single recipient id (addRewards m.2.calculation.awards)
  have hget : (OrderedMap.get? (addRewards m.2.calculation.awards) recipient).getD 0 =
      ((addRewards m.2.calculation.awards).get? recipient).elim 0 id := by
    cases (addRewards m.2.calculation.awards).get? recipient <;> rfl
  rw [hget, ← htotal, OrderedMap.total, Calculation.journal]
  induction (addRewards m.2.calculation.awards).entries with
  | nil => rfl
  | cons e es ih =>
    by_cases he : e.1 = recipient
    · simp only [map_cons, filter_cons, he, decide_true, if_true, sum_cons, ih, id]
    · simp only [map_cons, filter_cons, he, decide_false, if_false, sum_cons, ih, Nat.zero_add,
        Bool.false_eq_true]

/-- Over the blocks of one run of the accounting contract, with logs that do not return to
a commit after an update with work: no update with work contributes twice, those of
a log in an epoch contribute together, and the awards for a log in an epoch and for
an epoch stay within the cap and the emissions. -/
theorem minting_bounded (hinit : Accounting.init initialEpoch = .ok s) (hepochs : EpochsAscend initialEpoch calls)
    (hblocks : BlocksAscend calls) (hread : ReadsRun (chain cfg) s calls) {emissions : ℕ → ℕ} {cap : Address → ℕ → ℕ}
    (hsettled : Settled (chain cfg) s calls emissions cap)
    (hret : ∀ id, NoReturn endCommit valued emptyLogRoot (updatesOf id s calls))
    (h : Replay (mintFrom chain cfg) (fun _ => 0) t w) : (t.flatMap (contributed chain)).Nodup ∧
      (∀ m ∈ t, ∀ x ∈ contributed chain m, ∀ y ∈ (updateEvents s calls).map Prod.snd, 0 < y.updateValue →
        y.workLogId = x.workLogId → y.epochNumber = x.epochNumber → y ∈ contributed chain m) ∧
      (∀ id e, (t.map (mintedFor e id)).sum ≤ cap id e) ∧
      (∀ e, (t.map (mintedIn e)).sum ≤ emissions e) ∧
      ∀ m ∈ t, ∀ recipient, paid recipient m = awardsOf recipient m.2.calculation.awards % 2 ^ 256 :=
  ⟨contributed_nodup hinit hepochs hblocks hread hret h,
    fun _ hm _ hx _ hy hvalue hid hepoch =>
      contributed_together hinit hepochs hblocks hread hret h hy hvalue hid hepoch hm hx,
    mintedFor_le_cap hinit hepochs hblocks hread hret hsettled h,
    mintedIn_le_emissions hinit hepochs hblocks hread hret hsettled h,
    fun _ hm => paid_eq h hm⟩

/-- One update with work, finalized two blocks later. -/
def sampleRun : List Call :=
  [⟨1, 5, fun _ _ => true, .updateWorkLog 7 1 4 8 []⟩, ⟨3, 6, fun _ _ => true, .finalizeEpoch⟩]

/-- The environments of the sample run, with emissions of 100 and a cap of 30. -/
def sampleChain (_ : Contracts) (b : ℕ) : Env where
  number := b
  epochFinalized := ((finalizedEvents sampleAccounting sampleRun).filter fun e => e.1 = b).map Prod.snd
  workLogUpdated := ((updateEvents sampleAccounting sampleRun).filter fun e => e.1 = b).map Prod.snd
  workLogCommit := (run sampleAccounting (sampleRun.filter fun c => c.blockNumber ≤ b)).1.workLogCommit
  getPoVWEmissionsForEpoch := fun _ => 100
  getEpochEndTime := id
  getPastPoVWRewardCap := fun _ _ => 30

def sampleInput : Input := ⟨10, 11, 12, [1, 2, 3], none⟩

theorem sampleRun_noReturn (id : Address) :
    NoReturn endCommit valued emptyLogRoot (updatesOf id sampleAccounting sampleRun) := by
  have hupdates : updateEvents sampleAccounting sampleRun = [(1, ⟨7, 5, emptyLogRoot, 1, 4, 8⟩)] := by decide
  intro a b d hsplit hend u hu
  have hone : (a ++ b ++ d).Sublist [(1, ⟨7, 5, emptyLogRoot, 1, 4, 8⟩)] := by
    rw [← hsplit, updatesOf, hupdates]
    exact filter_sublist
  have hlength := hone.length_le
  have hpos := length_pos_of_mem hu
  simp only [length_append, length_singleton] at hlength
  obtain rfl : a = [] := eq_nil_of_length_eq_zero (by omega)
  obtain rfl : d = [] := eq_nil_of_length_eq_zero (by omega)
  rw [nil_append, append_nil] at hone
  rw [nil_append, hone.eq_of_length (by simp only [length_singleton]; omega)] at hend
  exact absurd hend (by decide)

theorem minting_bounded_sample : ∃ w m, mintFrom sampleChain ⟨10, 11, 12⟩ sampleInput (fun _ => 0) = .ok (w, m) ∧
    mintedFor 5 7 (sampleInput, m) ≤ 30 := by
  cases hmint : mintFrom sampleChain ⟨10, 11, 12⟩ sampleInput (fun _ => 0) with
  | error e =>
    have hok : (mintFrom sampleChain ⟨10, 11, 12⟩ sampleInput (fun _ => 0)).isOk := by decide
    rw [hmint] at hok
    cases hok
  | ok r =>
    obtain ⟨w, m⟩ := r
    have hbounded := minting_bounded (s := sampleAccounting) (show Accounting.init 5 = .ok sampleAccounting from rfl)
      (by unfold EpochsAscend; decide) (by unfold BlocksAscend; decide)
      ⟨fun _ => rfl, fun _ => rfl, fun _ => rfl, fun _ _ => rfl⟩
      (fun _ _ _ _ _ _ => ⟨rfl, fun _ => rfl⟩) sampleRun_noReturn
      ((replay_singleton (fun _ => 0) w sampleInput m).mpr hmint)
    exact ⟨w, m, rfl, by simpa using hbounded.2.2.1 7 5⟩

end VerifiableCompute.Povw
