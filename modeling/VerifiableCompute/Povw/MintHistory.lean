import VerifiableCompute.Povw.Chain
import VerifiableCompute.Povw.Journals

/-! Sequences of accepted mints over the blocks of one run. The ratchet of a work log
always stands at a commit of its log, and the updates with work before it are
those that the mints so far have processed: in order, each once and without a gap. -/

namespace VerifiableCompute.Povw

open Lib WordOrder List
open Market (U64 U96 U256 Address Bytes Bytes32)

/-- The updates with work that a calculation processes. -/
def contributing (chain : Contracts → ℕ → Env) (input : Input) (c : Calculation) : List UpdateEvent :=
  (((envsOf chain input).flatMap Env.workLogUpdated).filter (processed input.workLogFilter c.epochs)).filter
    fun event => event.updateValue > 0

/-- The update is in one of the blocks and is processed. -/
def accepts (input : Input) (c : Calculation) (e : ℕ × UpdateEvent) : Bool :=
  e.1 ∈ input.blocks && processed input.workLogFilter c.epochs e.2

def acceptedOf (s : Accounting) (calls : List Call) (id : Address) (m : Input × Minted) : List (ℕ × UpdateEvent) :=
  ((updatesOf id s calls).filter (accepts m.1 m.2.calculation)).filter valued

variable {initialEpoch : U256} {s : Accounting} {calls : List Call} {chain : Contracts → ℕ → Env} {cfg : Contracts}
variable {input : Input} {c : Calculation}

theorem sorted_blocks (hdistinct : input.blocks.Nodup) : (input.blocks.insertionSort (· ≤ ·)).Pairwise (· < ·) := by
  have hsorted := pairwise_insertionSort (· ≤ ·) input.blocks
  have hnodup := (perm_insertionSort (· ≤ ·) input.blocks).nodup_iff.mpr hdistinct
  exact (hsorted.and hnodup).imp fun h => lt_of_le_of_ne h.1 h.2

section

variable (hread : ReadsRun (chain cfg) s calls) (hblocks : BlocksAscend calls) (hcfg : input.contracts = cfg) (hdistinct : input.blocks.Nodup)

include hread hblocks hcfg hdistinct

theorem processed_eq :
    ((envsOf chain input).flatMap Env.workLogUpdated).filter (processed input.workLogFilter c.epochs) =
      ((updateEvents s calls).filter (accepts input c)).map Prod.snd := by
  have hflat : (envsOf chain input).flatMap Env.workLogUpdated =
      ((updateEvents s calls).filter fun e => e.1 ∈ input.blocks).map Prod.snd := by
    simp only [envsOf, hcfg, flatMap_map, hread.workLogUpdated]
    rw [← map_flatMap, flatMap_filter_eq (updateEvents_blocks hblocks) (sorted_blocks hdistinct)]
    simp only [mem_insertionSort]
  rw [hflat, filter_map, filter_filter]
  refine congrArg _ (filter_congr fun e _ => ?_)
  rw [accepts, Bool.and_comm]
  rfl

theorem processedOf_eq (id : Address) :
    processedOf id input.workLogFilter c.epochs ((envsOf chain input).flatMap Env.workLogUpdated) =
      ((updatesOf id s calls).filter (accepts input c)).map Prod.snd := by
  rw [processedOf, processed_eq hread hblocks hcfg hdistinct, filter_map, filter_filter, updatesOf,
    filter_filter]
  refine congrArg _ (filter_congr fun e _ => ?_)
  rw [Bool.and_comm]
  rfl

theorem contributing_eq :
    contributing chain input c = (((updateEvents s calls).filter (accepts input c)).filter valued).map Prod.snd := by
  rw [contributing, processed_eq hread hblocks hcfg hdistinct, filter_map]
  rfl

end

variable {m : Input × Minted} {d d' : Bytes32} {us : List (ℕ × UpdateEvent)}

theorem contributing_filter (hread : ReadsRun (chain cfg) s calls) (hblocks : BlocksAscend calls)
    (hcfg : m.1.contracts = cfg) (hdistinct : m.1.blocks.Nodup) (id : Address) :
    ((contributing chain m.1 m.2.calculation).filter fun event => event.workLogId = id) =
      (acceptedOf s calls id m).map Prod.snd := by
  rw [contributing_eq hread hblocks hcfg hdistinct, filter_map, acceptedOf, updatesOf, filter_filter,
    filter_filter, filter_filter, filter_filter]
  refine congrArg _ (filter_congr fun e _ => ?_)
  simp only [Function.comp_apply]
  ac_rfl

theorem readCommit_ne_zero (commit : Bytes32) : readCommit commit ≠ 0 := by
  unfold readCommit
  split_ifs with h
  · decide
  · exact h

theorem readCommit_of_ne_zero {commit : Bytes32} (h : commit ≠ 0) : readCommit commit = commit := if_neg h

theorem endOf_ne_zero (us : List (ℕ × UpdateEvent)) : endOf endCommit emptyLogRoot us ≠ 0 := by
  induction us using reverseRecOn with
  | nil => decide
  | append_singleton us e _ =>
    rw [endOf_append]
    exact readCommit_ne_zero _

/-- Where every update starts at a commit that is not zero, a chain that ends at one never
passes zero. -/
theorem linked_endCommit (hfirst : ∀ e ∈ us, e.2.initialCommit ≠ 0) (hend : d' ≠ 0)
    (h : Linked (fun e => e.2.initialCommit) (fun e => e.2.updatedCommit) d us d') :
    d ≠ 0 ∧ Linked (fun e => e.2.initialCommit) endCommit d us d' := by
  induction us generalizing d with
  | nil =>
    obtain rfl : d = d' := h
    exact ⟨hend, rfl⟩
  | cons e us ih =>
    rw [forall_mem_cons] at hfirst
    obtain ⟨hd, h⟩ := h
    obtain ⟨hne, hlinked⟩ := ih hfirst.2 h
    refine ⟨hd ▸ hfirst.1, hd, ?_⟩
    rwa [endCommit, readCommit_of_ne_zero hne]

theorem linked_map (h : Linked UpdateEvent.initialCommit UpdateEvent.updatedCommit d (us.map Prod.snd) d') :
    Linked (fun e => e.2.initialCommit) (fun e => e.2.updatedCommit) d us d' := by
  induction us generalizing d with
  | nil => exact h
  | cons e us ih => exact ⟨h.1, ih h.2⟩

theorem mintFrom_eq_ok {w w' : MintCommits} {m : Minted} (h : mintFrom chain cfg input w = .ok (w', m)) :
    Checked chain input m.calculation ∧ mint cfg (m.calculation.journal input) w = .ok (w', m.mints) := by
  unfold mintFrom at h
  cases hcalc : calculate chain input with
  | none =>
    rw [hcalc] at h
    cases h
  | some calculation =>
    rw [hcalc] at h
    cases hmint : mint cfg (calculation.journal input) w with
    | error e =>
      simp only [hmint] at h
      cases h
    | ok r =>
      simp only [hmint] at h
      cases h
      exact ⟨calculate_eq_some hcalc, hmint⟩

section Mints

variable (hinit : Accounting.init initialEpoch = .ok s) (hepochs : EpochsAscend initialEpoch calls)
  (hblocks : BlocksAscend calls) (hread : ReadsRun (chain cfg) s calls)
include hinit hepochs hblocks hread

variable {id : Address} {w : MintCommits} {t : List (Input × Minted)}

variable (hret : NoReturn endCommit valued emptyLogRoot (updatesOf id s calls))

include hret

/-- A mint moves the ratchet of a log over the updates it processes. When it processes any,
no update before its last finalization is left behind. -/
theorem mintFrom_ratchet
    {w' : MintCommits} {m : Minted} (h : mintFrom chain cfg input w = .ok (w', m)) {a : List (ℕ × UpdateEvent)}
    (ha : a <+: updatesOf id s calls) (hend : endOf endCommit emptyLogRoot a = readCommit (w id)) :
    ∃ a', a' <+: updatesOf id s calls ∧ endOf endCommit emptyLogRoot a' = readCommit (w' id) ∧
      a'.filter valued = a.filter valued ++ acceptedOf s calls id (input, m) ∧
      (acceptedOf s calls id (input, m) ≠ [] → a'.filter valued =
        ((updatesOf id s calls).filter fun e => e.1 < m.calculation.latestEpochFinalizationBlock).filter valued) := by
  obtain ⟨hchecked, hmint⟩ := mintFrom_eq_ok h
  obtain ⟨hcfg, -, hratchet⟩ := mint_eq_ok hmint
  have hstart : ChainOf [] ((.empty : OrderedMap Address (Bytes32 × Bytes32)).get? id) := .none rfl
  have hchain := collectUpdates_chains hchecked.updates hstart
  rw [nil_append, processedOf_eq hread hblocks hcfg hchecked.distinct] at hchain
  have hlinked := updatesOf_linked hinit hepochs id
  have hratchet := hratchet id
  cases hget : m.calculation.updates.get? id with
  | none =>
    rw [hget] at hchain hratchet
    cases hchain with
    | none hempty =>
      have hnone : acceptedOf s calls id (input, m) = [] := by
        rw [acceptedOf, map_eq_nil_iff.mp hempty]
        rfl
      rw [hnone, append_nil]
      exact ⟨a, ha, hend.trans (congrArg readCommit hratchet.symm), rfl, fun hne => absurd rfl hne⟩
  | some commits =>
    obtain ⟨env, henv, hnumber, hcomplete⟩ := hchecked.complete
    have hfinal := hcomplete id commits hget
    obtain ⟨b, -, rfl⟩ := mem_map.mp henv
    rw [hcfg, hread.number] at hnumber
    rw [hcfg, hread.commit_eq hinit hepochs hblocks] at hfinal
    rw [hget] at hchain hratchet
    cases hchain with
    | some initialCommit updatedCommit _ hraw =>
      obtain ⟨hinitial, hupdated⟩ := hratchet
      dsimp only at hinitial hupdated hfinal
      have hne : updatedCommit ≠ 0 := hfinal ▸ endOf_ne_zero _
      have hfirst : ∀ e ∈ (updatesOf id s calls).filter (accepts input m.calculation), e.2.initialCommit ≠ 0 := by
        intro e he
        obtain ⟨p, r, hsplit⟩ := append_of_mem (mem_of_mem_filter he)
        rw [hsplit] at hlinked
        exact hlinked.first_eq ▸ endOf_ne_zero p
      obtain ⟨-, haccept⟩ := linked_endCommit hfirst hne (linked_map hraw)
      rw [hinitial, ← hend] at haccept
      obtain ⟨a', ha', hend', hcount⟩ := NoReturn.ratchet (p := []) hret hlinked ha _ haccept
      refine ⟨a', ha', ?_, hcount, fun _ => ?_⟩
      · rw [hupdated, readCommit_of_ne_zero hne, hend']
      · have hfront := hret.filter_eq ha' (filter_le_front ((updateEvents_blocks hblocks).filter _) b)
          (hend'.trans hfinal.symm)
        rw [hfront]
        refine congrArg _ (filter_congr fun e _ => ?_)
        simp only [decide_eq_decide]
        omega

/-- The ratchet of a log stands behind exactly the updates with work that the mints
processed. -/
theorem replay_ratchet (h : Replay (mintFrom chain cfg) (fun _ => 0) t w) :
    ∃ a, a <+: updatesOf id s calls ∧ endOf endCommit emptyLogRoot a = readCommit (w id) ∧
      a.filter valued = t.flatMap (acceptedOf s calls id) := by
  have hempty : endOf endCommit emptyLogRoot [] = readCommit 0 := by decide
  refine replay_induction (P := fun t w => ∃ a, a <+: updatesOf id s calls ∧
    endOf endCommit emptyLogRoot a = readCommit (w id) ∧ a.filter valued = t.flatMap (acceptedOf s calls id))
    ⟨[], nil_prefix, hempty, rfl⟩ ?_ h
  rintro t r input m r' - ⟨a, ha, hend, hcount⟩ hmint
  obtain ⟨a', ha', hend', hcount', -⟩ := mintFrom_ratchet hinit hepochs hblocks hread hret hmint ha hend
  exact ⟨a', ha', hend', by simp [hcount', hcount]⟩

/-- A mint that processes updates of a log leaves none before its last finalization to
later mints. -/
theorem replay_complete {u : List (Input × Minted)} {m : Input × Minted}
    (h : Replay (mintFrom chain cfg) (fun _ => 0) (t ++ m :: u) w) (hne : acceptedOf s calls id m ≠ [])
    {e : ℕ × UpdateEvent} (he : e ∈ updatesOf id s calls) (hvalued : valued e)
    (hblock : e.1 < m.2.calculation.latestEpochFinalizationBlock) :
    e ∈ t.flatMap (acceptedOf s calls id) ∨ e ∈ acceptedOf s calls id m := by
  obtain ⟨r, r', ht, hmint, -⟩ := replay_split h
  obtain ⟨a, ha, hend, hcount⟩ := replay_ratchet hinit hepochs hblocks hread hret ht
  obtain ⟨a', -, -, hcount', hall⟩ := mintFrom_ratchet hinit hepochs hblocks hread hret hmint ha hend
  have hmem : e ∈ a'.filter valued := by
    rw [hall hne]
    exact mem_filter.mpr ⟨mem_filter.mpr ⟨he, by simpa using hblock⟩, hvalued⟩
  rwa [hcount', hcount, mem_append] at hmem

theorem replay_nodup (h : Replay (mintFrom chain cfg) (fun _ => 0) t w) :
    ((t.flatMap (acceptedOf s calls id)).map Prod.snd).Nodup := by
  obtain ⟨a, ha, -, hcount⟩ := replay_ratchet hinit hepochs hblocks hread hret h
  have hfirst := hret.nodup_first (updatesOf_linked hinit hepochs id)
  rw [← hcount]
  refine Nodup.of_map UpdateEvent.initialCommit ?_
  rw [map_map]
  exact hfirst.sublist ((ha.sublist.filter _).map _)

end Mints

theorem replay_checked {t : List (Input × Minted)} {w : MintCommits}
    (h : Replay (mintFrom chain cfg) (fun _ => 0) t w) (hm : m ∈ t) :
    Checked chain m.1 m.2.calculation ∧ m.1.contracts = cfg ∧
      m.2.mints = (m.2.calculation.journal m.1).mints := by
  obtain ⟨t, u, rfl⟩ := append_of_mem hm
  obtain ⟨r, r', -, hmint, -⟩ := replay_split h
  obtain ⟨hchecked, hmint⟩ := mintFrom_eq_ok hmint
  obtain ⟨hcfg, hmints, -⟩ := mint_eq_ok hmint
  exact ⟨hchecked, hcfg, hmints⟩

end VerifiableCompute.Povw
