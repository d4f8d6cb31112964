import VerifiableCompute.Povw.Accounting

/-! The books of the accounting contract: what its events say about the state they
led to. The pending epoch is past every finalized epoch and no earlier than any
update, its total is the work of its updates, and the stored commits end the
chains of the logs. -/

namespace VerifiableCompute.Povw

open Lib List
open Market (U64 U96 U256 Address Bytes Bytes32)

/-- Each update starts where the one before it ended, a commit of zero read as the empty
log; the chain leads from `c` to `c'`. -/
def Chained : Bytes32 → List (Bytes32 × Bytes32) → Bytes32 → Prop
  | c, [], c' => c = c'
  | c, u :: us, c' => u.1 = c ∧ Chained (readCommit u.2) us c'

theorem chained_append (c c' : Bytes32) (us vs : List (Bytes32 × Bytes32)) :
    Chained c (us ++ vs) c' ↔ ∃ d, Chained c us d ∧ Chained d vs c' := by
  induction us generalizing c with
  | nil => simp [Chained]
  | cons u us ih =>
    simp only [cons_append, Chained, ih]
    constructor
    · rintro ⟨hu, d, hd, hvs⟩
      exact ⟨d, ⟨hu, hd⟩, hvs⟩
    · rintro ⟨d, ⟨hu, hd⟩, hvs⟩
      exact ⟨hu, d, hd, hvs⟩

/-- The same without reading zero as the empty log. -/
def ChainedRaw : Bytes32 → List (Bytes32 × Bytes32) → Prop
  | _, [] => True
  | c, u :: us => u.1 = c ∧ ChainedRaw u.2 us

def workIn (epoch : ℕ) (past : List Event) : ℕ := (past.map (Event.workIn epoch)).sum

theorem workIn_append (epoch : ℕ) (past more : List Event) :
    workIn epoch (past ++ more) = workIn epoch past + workIn epoch more := by
  simp [workIn]

variable {epoch : ℕ} {currentEpoch : U64} {initialEpoch : U256}

theorem Event.workIn_of_ne {x : Event} (h : x.updateEpoch ≠ some epoch) : x.workIn epoch = 0 := by
  cases x with
  | epochFinalized => rfl
  | workLogUpdated id epochNumber =>
    have hne : epochNumber.toNat ≠ epoch := fun heq => h (congrArg some heq)
    simp [Event.workIn, hne]

theorem workIn_eq_zero {past : List Event} (h : ∀ x ∈ past, x.updateEpoch ≠ some epoch) : workIn epoch past = 0 := by
  refine sum_eq_zero fun n hn => ?_
  obtain ⟨x, hx, rfl⟩ := mem_map.mp hn
  exact Event.workIn_of_ne (h x hx)

/-- The epochs that have been finalized, in order. -/
def finalizedEpochs (past : List Event) : List ℕ := (past.filterMap Event.finalized).map Prod.fst

structure Books (past : List Event) (s : Accounting) : Prop where
  finalized_lt : ∀ x ∈ past, ∀ f, x.finalized = some f → f.1 < s.pendingEpoch.number.toNat
  update_le : ∀ x ∈ past, ∀ e, x.updateEpoch = some e → e ≤ s.pendingEpoch.number.toNat
  once : (finalizedEpochs past).Nodup
  last : past.Pairwise fun x y => ∀ f, x.finalized = some f → y.updateEpoch ≠ some f.1
  totals : ∀ x ∈ past, ∀ f, x.finalized = some f → f.2 = workIn f.1 past
  pending : s.pendingEpoch.totalWork.toNat = workIn s.pendingEpoch.number.toNat past
  commits : ∀ id, Chained emptyLogRoot (past.filterMap (Event.commits id)) (s.workLogCommit id)

theorem books_init {currentEpoch : U256} {s : Accounting} (h : Accounting.init currentEpoch = .ok s) :
    Books [] s ∧ s.pendingEpoch.number.toNat = currentEpoch.toNat := by
  simp only [Accounting.init, bind_ok_iff] at h
  obtain ⟨number, hcast, h⟩ := h
  cases h
  refine ⟨⟨by simp, by simp, .nil, .nil, by simp, rfl, fun id => ?_⟩, safeCast_ok hcast⟩
  change emptyLogRoot = readCommit 0
  rw [readCommit, if_pos rfl]

variable {past : List Event} {s : Accounting}

theorem Books.finalize (h : Books past s) {newEpoch : U64} (hnew : s.pendingEpoch.number < newEpoch) :
    Books (past ++ (s.finalizePendingEpoch newEpoch).2) (s.finalizePendingEpoch newEpoch).1 := by
  have hnumber : s.pendingEpoch.number.toNat < newEpoch.toNat := hnew
  have hevent : Event.finalized (.epochFinalized (s.pendingEpoch.number.setWidth 256)
      (s.pendingEpoch.totalWork.setWidth 256)) =
      some (s.pendingEpoch.number.toNat, s.pendingEpoch.totalWork.toNat) := by
    simp only [Event.finalized, BitVec.toNat_setWidth, Option.some.injEq, Prod.mk.injEq]
    constructor <;> exact Nat.mod_eq_of_lt (by omega)
  have hmem : ∀ x ∈ past ++ (s.finalizePendingEpoch newEpoch).2, ∀ f, x.finalized = some f →
      (x ∈ past ∧ x.finalized = some f) ∨ f = (s.pendingEpoch.number.toNat, s.pendingEpoch.totalWork.toNat) := by
    intro x hx f hf
    rcases mem_append.mp hx with hx | hx
    · exact .inl ⟨hx, hf⟩
    · rw [mem_singleton.mp hx, hevent] at hf
      exact .inr (Option.some.inj hf).symm
  have hsum (e : ℕ) : workIn e (past ++ (s.finalizePendingEpoch newEpoch).2) = workIn e past := by
    rw [workIn_append]
    rfl
  constructor
  · intro x hx f hf
    rcases hmem x hx f hf with ⟨hx, hf⟩ | rfl
    · exact (h.finalized_lt x hx f hf).trans hnumber
    · exact hnumber
  · intro x hx e he
    rcases mem_append.mp hx with hx | hx
    · exact (h.update_le x hx e he).trans hnumber.le
    · rw [mem_singleton.mp hx] at he
      cases he
  · have happend : finalizedEpochs (past ++ (s.finalizePendingEpoch newEpoch).2) =
        finalizedEpochs past ++ [s.pendingEpoch.number.toNat] := by
      rw [finalizedEpochs, filterMap_append, map_append, finalizedEpochs]
      simp only [Accounting.finalizePendingEpoch, filterMap_cons, hevent, filterMap_nil, map_cons,
        map_nil]
    rw [happend, nodup_append]
    refine ⟨h.once, nodup_singleton _, ?_⟩
    rintro e he _ he' rfl
    rw [mem_singleton.mp he'] at he
    obtain ⟨f, hf, heq⟩ := mem_map.mp he
    obtain ⟨x, hx, hxf⟩ := mem_filterMap.mp hf
    have := h.finalized_lt x hx f hxf
    omega
  · refine pairwise_append.mpr ⟨h.last, pairwise_singleton _ _, fun x _ y hy f _ => ?_⟩
    rw [mem_singleton.mp hy]
    intro heq
    cases heq
  · intro x hx f hf
    rw [hsum]
    rcases hmem x hx f hf with ⟨hx, hf⟩ | rfl
    · exact h.totals x hx f hf
    · exact h.pending
  · rw [hsum]
    refine (workIn_eq_zero fun x hx he => ?_).symm
    have := h.update_le x hx _ he
    exact absurd this (not_le.mpr hnumber)
  · intro id
    rw [filterMap_append, show filterMap (Event.commits id) (s.finalizePendingEpoch newEpoch).2 = [] from rfl,
      append_nil]
    exact h.commits id

theorem Books.rollOver (h : Books past s) (hle : s.pendingEpoch.number.toNat ≤ currentEpoch.toNat) :
    Books (past ++ (s.rollOver currentEpoch).2) (s.rollOver currentEpoch).1 ∧
      (s.rollOver currentEpoch).1.pendingEpoch.number.toNat = currentEpoch.toNat := by
  unfold Accounting.rollOver
  split_ifs with hlt
  · exact ⟨h.finalize hlt, rfl⟩
  · have hge : currentEpoch.toNat ≤ s.pendingEpoch.number.toNat := not_lt.mp hlt
    exact ⟨by simpa using h, by dsimp only; omega⟩

theorem Books.update (h : Books past s)
    (hnow : s.pendingEpoch.number.toNat = currentEpoch.toNat) (workLogId : Address) (updatedCommit : Bytes32)
    (updateValue : U64) (valueRecipient : Address) {totalWork : U96}
    (htotal : totalWork.toNat = s.pendingEpoch.totalWork.toNat + updateValue.toNat) :
    Books (past ++ [.workLogUpdated workLogId (currentEpoch.setWidth 256) (s.workLogCommit workLogId) updatedCommit
        (updateValue.setWidth 256) valueRecipient])
      { s with
        workLogCommits := Function.update s.workLogCommits workLogId updatedCommit
        pendingEpoch := { s.pendingEpoch with totalWork := totalWork } } := by
  have hepoch : (currentEpoch.setWidth 256).toNat = s.pendingEpoch.number.toNat := by
    rw [BitVec.toNat_setWidth, hnow]
    exact Nat.mod_eq_of_lt (by omega)
  have hvalue : (updateValue.setWidth 256).toNat = updateValue.toNat := by
    rw [BitVec.toNat_setWidth]
    exact Nat.mod_eq_of_lt (by omega)
  set new : Event := .workLogUpdated workLogId (currentEpoch.setWidth 256) (s.workLogCommit workLogId) updatedCommit
    (updateValue.setWidth 256) valueRecipient with hnew
  have hnewEpoch : new.updateEpoch = some s.pendingEpoch.number.toNat := congrArg some hepoch
  have hold : ∀ x ∈ past ++ [new], ∀ f, x.finalized = some f → x ∈ past := by
    intro x hx f hf
    rcases mem_append.mp hx with hx | hx
    · exact hx
    · rw [mem_singleton.mp hx] at hf
      cases hf
  have hsum (e : ℕ) : workIn e (past ++ [new]) =
      workIn e past + if s.pendingEpoch.number.toNat = e then updateValue.toNat else 0 := by
    rw [workIn_append]
    simp [workIn, Event.workIn, hnew, hepoch, hvalue]
  constructor
  · intro x hx f hf
    exact h.finalized_lt x (hold x hx f hf) f hf
  · intro x hx e he
    rcases mem_append.mp hx with hx | hx
    · exact h.update_le x hx e he
    · rw [mem_singleton.mp hx, hnewEpoch] at he
      exact (Option.some.inj he).symm.le
  · have happend : finalizedEpochs (past ++ [new]) = finalizedEpochs past := by
      rw [finalizedEpochs, filterMap_append, finalizedEpochs]
      simp [hnew, Event.finalized]
    rw [happend]
    exact h.once
  · refine pairwise_append.mpr ⟨h.last, pairwise_singleton _ _, fun x hx y hy f hf => ?_⟩
    rw [mem_singleton.mp hy, hnewEpoch]
    have := h.finalized_lt x hx f hf
    intro heq
    have := Option.some.inj heq
    omega
  · intro x hx f hf
    have hlt := h.finalized_lt x (hold x hx f hf) f hf
    rw [hsum, if_neg (by omega), Nat.add_zero]
    exact h.totals x (hold x hx f hf) f hf
  · rw [hsum, if_pos rfl, htotal, h.pending]
  · intro id
    rw [filterMap_append]
    by_cases hid : workLogId = id
    · subst hid
      refine (chained_append _ _ _ _).mpr ⟨_, h.commits workLogId, ?_⟩
      have hcommits : [new].filterMap (Event.commits workLogId) = [(s.workLogCommit workLogId, updatedCommit)] := by
        simp [hnew, Event.commits]
      rw [hcommits]
      refine ⟨rfl, ?_⟩
      simp [Chained, Accounting.workLogCommit]
    · have hcommits : [new].filterMap (Event.commits id) = [] := by simp [hnew, Event.commits, hid]
      rw [hcommits, append_nil]
      have hsame := h.commits id
      rwa [Accounting.workLogCommit, ← Function.update_of_ne (Ne.symm hid) updatedCommit s.workLogCommits] at hsame

theorem Books.step (h : Books past s) {epoch : ℕ} (hle : s.pendingEpoch.number.toNat ≤ epoch)
    {r : Accounting × List Event} (heffect : StepEffect epoch s r) :
    Books (past ++ r.2) r.1 ∧ r.1.pendingEpoch.number.toNat ≤ epoch := by
  cases heffect with
  | none => exact ⟨by simpa using h, hle⟩
  | finalize newEpoch old now => exact ⟨h.finalize old, now.le⟩
  | update currentEpoch now workLogId updatedCommit updateValue valueRecipient totalWork total =>
    have hcurrent : s.pendingEpoch.number.toNat ≤ currentEpoch.toNat := by omega
    obtain ⟨hrolled, hnumber⟩ := h.rollOver hcurrent
    refine ⟨?_, by dsimp only; omega⟩
    have hupdated := hrolled.update hnumber workLogId updatedCommit updateValue valueRecipient total
    have hcommit : (s.rollOver currentEpoch).1.workLogCommit workLogId = s.workLogCommit workLogId := by
      rw [Accounting.workLogCommit, rollOver_commits, Accounting.workLogCommit]
    rw [rollOver_commits, hcommit, append_assoc] at hupdated
    exact hupdated

/-- The epochs of the token never decrease, from the initialization on. -/
def EpochsAscend (initialEpoch : U256) (calls : List Call) : Prop :=
  (initialEpoch :: calls.map Call.currentEpoch).Pairwise (· ≤ ·)

theorem EpochsAscend.of_append {calls more : List Call}
    (h : EpochsAscend initialEpoch (calls ++ more)) : EpochsAscend initialEpoch calls := by
  rw [EpochsAscend, map_append, ← cons_append] at h
  exact (pairwise_append.mp h).1

theorem books_run (hinit : Accounting.init initialEpoch = .ok s) (calls : List Call)
    (hepochs : EpochsAscend initialEpoch calls) : Books (events s calls) (run s calls).1 ∧
      (run s calls).1.pendingEpoch.number.toNat ≤ ((initialEpoch :: calls.map Call.currentEpoch).getLast
        (cons_ne_nil _ _)).toNat := by
  induction calls using reverseRecOn with
  | nil =>
    obtain ⟨hbooks, hnumber⟩ := books_init hinit
    exact ⟨hbooks, hnumber.le⟩
  | append_singleton calls c ih =>
    obtain ⟨hbooks, hnumber⟩ := ih hepochs.of_append
    have hlast : ((initialEpoch :: calls.map Call.currentEpoch).getLast (cons_ne_nil _ _)) ≤ c.currentEpoch := by
      rw [EpochsAscend, map_append, ← cons_append] at hepochs
      exact (pairwise_append.mp hepochs).2.2 _ (getLast_mem _) _ (by simp)
    obtain ⟨hbooks', hnumber'⟩ := hbooks.step (hnumber.trans hlast) (step_effect c _)
    have hstate : (run s (calls ++ [c])).1 = (c.step (run s calls).1).1 := by
      rw [run_append]
      rfl
    refine ⟨by rwa [events_snoc, hstate], ?_⟩
    rw [hstate]
    simpa using hnumber'

/-- Every epoch is finalized at most once, after its last update and with the sum of
its updates, and the updates of a log form a chain from the empty log, in which
a commit of zero is read as the empty log. -/
theorem accounting_consistent {initialEpoch : U256} (hinit : Accounting.init initialEpoch = .ok s)
    (calls : List Call) (hepochs : EpochsAscend initialEpoch calls) : (finalizedEpochs (events s calls)).Nodup ∧
      (events s calls).Pairwise (fun x y => ∀ f, x.finalized = some f → y.updateEpoch ≠ some f.1) ∧
      (∀ x ∈ events s calls, ∀ f, x.finalized = some f → f.2 = workIn f.1 (events s calls)) ∧
      ∀ id, Chained emptyLogRoot ((events s calls).filterMap (Event.commits id)) ((run s calls).1.workLogCommit id) := by
  obtain ⟨hbooks, -⟩ := books_run hinit calls hepochs
  exact ⟨hbooks.once, hbooks.last, hbooks.totals, hbooks.commits⟩

/-- Two updates of one log in one epoch, the first of them to a commit of zero. -/
def sampleUpdates : List Call :=
  [⟨1, 5, fun _ _ => true, .updateWorkLog 7 0 3 8 []⟩, ⟨2, 5, fun _ _ => true, .updateWorkLog 7 1 4 8 []⟩]

def sampleAccounting : Accounting := ⟨fun _ => 0, ⟨0, 5⟩⟩

theorem accounting_consistent_sample :
    (finalizedEpochs (events sampleAccounting (sampleUpdates ++ [⟨3, 6, fun _ _ => false, .finalizeEpoch⟩]))).Nodup :=
  (accounting_consistent (show Accounting.init 5 = .ok sampleAccounting from rfl) _
    (by unfold EpochsAscend; decide)).1

/-- After an update to zero the next update does not start at the commit of the event
before it. -/
theorem zero_commit_breaks_chain : ¬ ∀ (initialEpoch : U256) (s : Accounting) (calls : List Call),
    Accounting.init initialEpoch = .ok s → EpochsAscend initialEpoch calls →
    ∀ id, ChainedRaw emptyLogRoot ((events s calls).filterMap (Event.commits id)) := by
  intro h
  have hchain := h 5 sampleAccounting sampleUpdates rfl (by unfold EpochsAscend; decide) 7
  have hevents : (events sampleAccounting sampleUpdates).filterMap (Event.commits 7) =
      [(emptyLogRoot, 0), (emptyLogRoot, 1)] := by decide
  rw [hevents] at hchain
  exact absurd hchain.2.1 (by decide)

end VerifiableCompute.Povw
