import VerifiableCompute.Lib.History
import VerifiableCompute.Povw.Epochs
import VerifiableCompute.Povw.MintCalculator

/-! The blocks of a run of the accounting contract: which events and which commits
an environment of a block shows, and the log of each work log with its blocks. -/

namespace VerifiableCompute.Povw

open Lib List
open Market (U64 U96 U256 Address Bytes Bytes32)

/-- An update as the guest decodes it. -/
def Event.update : Event → Option UpdateEvent
  | .workLogUpdated workLogId epochNumber initialCommit updatedCommit updateValue valueRecipient =>
    some ⟨workLogId, epochNumber.toNat, initialCommit, updatedCommit, updateValue.toNat, valueRecipient⟩
  | .epochFinalized _ _ => none

/-- The updates of a run with their blocks. -/
def updateEvents (s : Accounting) (calls : List Call) : List (ℕ × UpdateEvent) :=
  (run s calls).2.filterMap fun e => e.2.update.map (e.1, ·)

/-- The finalizations of a run with their blocks. -/
def finalizedEvents (s : Accounting) (calls : List Call) : List (ℕ × ℕ × ℕ) :=
  (run s calls).2.filterMap fun e => e.2.finalized.map (e.1, ·)

def BlocksAscend (calls : List Call) : Prop := calls.Pairwise fun c c' => c.blockNumber ≤ c'.blockNumber

/-- The environments show the events of the run, and its state after each block. -/
structure ReadsRun (env : ℕ → Env) (s : Accounting) (calls : List Call) : Prop where
  number : ∀ b, (env b).number = b
  epochFinalized : ∀ b, (env b).epochFinalized = ((finalizedEvents s calls).filter fun e => e.1 = b).map Prod.snd
  workLogUpdated : ∀ b, (env b).workLogUpdated = ((updateEvents s calls).filter fun e => e.1 = b).map Prod.snd
  workLogCommit : ∀ b id, (env b).workLogCommit id =
    (run s (calls.filter fun c => c.blockNumber ≤ b)).1.workLogCommit id

/-- Once an epoch is finalized the tokens answer for it with fixed emissions and caps. -/
def Settled (env : ℕ → Env) (s : Accounting) (calls : List Call) (emissions : ℕ → ℕ) (cap : Address → ℕ → ℕ) : Prop :=
  ∀ b e total b', (b, e, total) ∈ finalizedEvents s calls → b ≤ b' →
    (env b').getPoVWEmissionsForEpoch e = emissions e ∧
      ∀ id, (env b').getPastPoVWRewardCap id ((env b').getEpochEndTime e) = cap id e

variable {s : Accounting} {calls : List Call} {initialEpoch : U256}

theorem exists_call_of_mem {e : ℕ × Event} (h : e ∈ (run s calls).2) : ∃ c ∈ calls, c.blockNumber = e.1 := by
  induction calls generalizing s with
  | nil => simp [run] at h
  | cons c calls ih =>
    rcases mem_append.mp h with h | h
    · obtain ⟨x, -, rfl⟩ := mem_map.mp h
      exact ⟨c, mem_cons_self, rfl⟩
    · obtain ⟨c', hc', hblock⟩ := ih h
      exact ⟨c', mem_cons_of_mem _ hc', hblock⟩

section

variable (h : BlocksAscend calls)

include h

theorem run_blocks : (run s calls).2.Pairwise fun e e' => e.1 ≤ e'.1 := by
  induction calls generalizing s with
  | nil => exact .nil
  | cons c calls ih =>
    obtain ⟨hfirst, hrest⟩ := pairwise_cons.mp h
    refine pairwise_append.mpr ⟨?_, ih hrest, fun e he e' he' => ?_⟩
    · exact pairwise_map.mpr (pairwise_of_forall fun _ _ => le_rfl)
    · obtain ⟨x, -, rfl⟩ := mem_map.mp he
      obtain ⟨c', hc', hblock⟩ := exists_call_of_mem he'
      exact hblock ▸ hfirst c' hc'

theorem run_filter_block (b : ℕ) :
    (run s (calls.filter fun c => c.blockNumber ≤ b)).2 = (run s calls).2.filter fun e => e.1 ≤ b := by
  set early := calls.filter fun c => c.blockNumber ≤ b
  set late := calls.filter fun c => b < c.blockNumber
  have happend : run s calls = run s (early ++ late) := by rw [filter_le_append h]
  have hearly : ∀ e ∈ (run s early).2, decide (e.1 ≤ b) := by
    intro e he
    obtain ⟨c, hc, hblock⟩ := exists_call_of_mem he
    rw [← hblock]
    exact (mem_filter.mp hc).2
  have hlate : ∀ e ∈ (run (run s early).1 late).2, ¬ decide (e.1 ≤ b) := by
    intro e he
    obtain ⟨c, hc, hblock⟩ := exists_call_of_mem he
    have hgt := of_decide_eq_true (mem_filter.mp hc).2
    simpa [← hblock] using hgt
  rw [happend, run_append, filter_append, filter_eq_self.mpr hearly, filter_eq_nil_iff.mpr hlate,
    append_nil]

theorem updateEvents_blocks : (updateEvents s calls).Pairwise fun e e' => e.1 ≤ e'.1 := by
  refine pairwise_filterMap.mpr ((run_blocks h).imp fun {e e'} hle => ?_)
  rintro x hx y hy
  obtain ⟨_, -, rfl⟩ := Option.map_eq_some_iff.mp hx
  obtain ⟨_, -, rfl⟩ := Option.map_eq_some_iff.mp hy
  exact hle

theorem updateEvents_filter_block (b : ℕ) :
    updateEvents s (calls.filter fun c => c.blockNumber ≤ b) = (updateEvents s calls).filter fun e => e.1 ≤ b := by
  rw [updateEvents, run_filter_block h, updateEvents, filterMap_filter, filter_filterMap]
  refine filterMap_congr fun e _ => ?_
  cases e.2.update <;> by_cases he : e.1 ≤ b <;> simp [he, Option.filter]

end

theorem update_block_le (hinit : Accounting.init initialEpoch = .ok s)
    (hepochs : EpochsAscend initialEpoch calls) (hblocks : BlocksAscend calls)
    {x : ℕ × UpdateEvent} (hx : x ∈ updateEvents s calls) {b total : ℕ}
    (hfinal : (b, x.2.epochNumber, total) ∈ finalizedEvents s calls) : x.1 ≤ b := by
  have hlast := (books_run hinit calls hepochs).1.last
  rw [events, pairwise_map, pairwise_iff_getElem] at hlast
  have hsorted := pairwise_iff_getElem.mp (run_blocks (s := s) hblocks)
  obtain ⟨e, he, hupdate⟩ := mem_filterMap.mp hx
  obtain ⟨e', he', hfinalized⟩ := mem_filterMap.mp hfinal
  obtain ⟨u, hu, rfl⟩ := Option.map_eq_some_iff.mp hupdate
  obtain ⟨f, hf, heq⟩ := Option.map_eq_some_iff.mp hfinalized
  obtain ⟨i, hi, rfl⟩ := mem_iff_getElem.mp he
  obtain ⟨j, hj, rfl⟩ := mem_iff_getElem.mp he'
  simp only [Prod.mk.injEq] at heq
  obtain ⟨rfl, rfl⟩ := heq
  have hepoch : (run s calls).2[i].2.updateEpoch = some u.epochNumber := by
    cases hevent : (run s calls).2[i].2 with
    | epochFinalized => simp [hevent, Event.update] at hu
    | workLogUpdated =>
      rw [hevent] at hu
      cases hu
      rfl
  rcases lt_trichotomy i j with hlt | rfl | hgt
  · exact hsorted i j hi hj hlt
  · exact le_rfl
  · exact absurd hepoch (hlast j i hj hi hgt _ hf)

/-- The updates of a work log with their blocks. -/
def updatesOf (id : Address) (s : Accounting) (calls : List Call) : List (ℕ × UpdateEvent) :=
  (updateEvents s calls).filter fun e => e.2.workLogId = id

def endCommit (e : ℕ × UpdateEvent) : Bytes32 := readCommit e.2.updatedCommit

/-- The update adds work. -/
def valued (e : ℕ × UpdateEvent) : Bool := e.2.updateValue > 0

theorem linked_of_chained {c c' : Bytes32} {es : List (ℕ × UpdateEvent)}
    (h : Chained c (es.map fun e => (e.2.initialCommit, e.2.updatedCommit)) c') :
    Linked (fun e => e.2.initialCommit) endCommit c es c' := by
  induction es generalizing c with
  | nil => exact h
  | cons e es ih => exact ⟨h.1, ih h.2⟩

theorem events_commits (id : Address) (s : Accounting) (calls : List Call) :
    (events s calls).filterMap (Event.commits id) =
      (updatesOf id s calls).map fun e => (e.2.initialCommit, e.2.updatedCommit) := by
  rw [events, updatesOf, updateEvents, filterMap_map, filter_filterMap, map_filterMap]
  refine filterMap_congr fun e _ => ?_
  cases hevent : e.2 with
  | epochFinalized => simp [hevent, Event.commits, Event.update]
  | workLogUpdated id' => by_cases hid : id' = id <;> simp [hevent, Event.commits, Event.update, hid]

theorem updatesOf_linked (hinit : Accounting.init initialEpoch = .ok s)
    (hepochs : EpochsAscend initialEpoch calls) (id : Address) :
    Linked (fun e => e.2.initialCommit) endCommit emptyLogRoot (updatesOf id s calls)
      ((run s calls).1.workLogCommit id) :=
  linked_of_chained (events_commits id s calls ▸ (books_run hinit calls hepochs).1.commits id)

theorem ReadsRun.commit_eq {env : ℕ → Env} (h : ReadsRun env s calls) (hinit : Accounting.init initialEpoch = .ok s)
    (hepochs : EpochsAscend initialEpoch calls) (hblocks : BlocksAscend calls) (b : ℕ) (id : Address) :
    (env b).workLogCommit id =
      endOf endCommit emptyLogRoot ((updatesOf id s calls).filter fun e => e.1 ≤ b) := by
  have hfront : EpochsAscend initialEpoch (calls.filter fun c => c.blockNumber ≤ b) := by
    obtain ⟨more, hmore⟩ := filter_le_front hblocks b
    exact EpochsAscend.of_append (hmore ▸ hepochs)
  have hlinked := updatesOf_linked hinit hfront id
  rw [h.workLogCommit, ← hlinked.endOf_eq, updatesOf, updatesOf, updateEvents_filter_block hblocks]
  simp only [filter_filter, Bool.and_comm]

end VerifiableCompute.Povw
