import VerifiableCompute.Market.Types

/-! The accounting contract of verifiable work. Updates of work logs add to the
pending epoch; the first call after the end of that epoch finalizes it. The
events are what the rewards are computed from: every epoch is finalized at most
once, after its last update and with the sum of its updates. -/

namespace VerifiableCompute.Povw

open Lib
open Market (U64 U96 U256 Address Bytes Bytes32)

def emptyLogRoot : Bytes32 := 0xb26927f749929e8484785e36e7ec93d5eeae4b58182f76f1e760263ab67f540c

structure PendingEpoch where
  totalWork : U96
  number : U64

structure WorkLogUpdate where
  workLogId : Address
  initialCommit : Bytes32
  updatedCommit : Bytes32
  updateValue : U64
  valueRecipient : Address

inductive Event where
  | epochFinalized (epoch totalWork : U256)
  | workLogUpdated (workLogId : Address) (epochNumber : U256) (initialCommit updatedCommit : Bytes32)
      (updateValue : U256) (valueRecipient : Address)

inductive AccountingRevert where
  | pendingEpochHasNotEnded
  | safeCastOverflow
  | arithmeticOverflow
  | verificationFailed

structure Accounting where
  workLogCommits : Address → Bytes32
  pendingEpoch : PendingEpoch

inductive Action where
  | finalizeEpoch
  | updateWorkLog (workLogId : Address) (updatedCommit : Bytes32) (updateValue : U64) (valueRecipient : Address)
      (sealData : Bytes)

/-- One call: its block, the epoch of the token at that time, and the verifier, which
may answer differently at every call. -/
structure Call where
  blockNumber : ℕ
  currentEpoch : U256
  verify : Bytes → WorkLogUpdate → Bool
  action : Action

/-- A stored commit of zero stands for the empty log. -/
def readCommit (commit : Bytes32) : Bytes32 := if commit = 0 then emptyLogRoot else commit

namespace Accounting

/-- The initializer. -/
def init (currentEpoch : U256) : Except AccountingRevert Accounting := do
  let number ← safeCast 64 .safeCastOverflow currentEpoch
  return ⟨fun _ => 0, ⟨0, number⟩⟩

def workLogCommit (s : Accounting) (workLogId : Address) : Bytes32 := readCommit (s.workLogCommits workLogId)

def finalizePendingEpoch (newEpoch : U64) (s : Accounting) : Accounting × List Event :=
  ({ s with pendingEpoch := ⟨0, newEpoch⟩ },
    [.epochFinalized (s.pendingEpoch.number.setWidth 256) (s.pendingEpoch.totalWork.setWidth 256)])

def finalizeEpoch (currentEpoch : U256) (s : Accounting) : Except AccountingRevert (Accounting × List Event) := do
  let newEpoch ← safeCast 64 .safeCastOverflow currentEpoch
  require (s.pendingEpoch.number < newEpoch) .pendingEpochHasNotEnded
  return finalizePendingEpoch newEpoch s

/-- The pending epoch is finalized when it has ended. -/
def rollOver (currentEpoch : U64) (s : Accounting) : Accounting × List Event :=
  if s.pendingEpoch.number < currentEpoch then finalizePendingEpoch currentEpoch s else (s, [])

def updateWorkLog (currentEpoch : U256) (verify : Bytes → WorkLogUpdate → Bool) (workLogId : Address)
    (updatedCommit : Bytes32) (updateValue : U64) (valueRecipient : Address) (sealData : Bytes) (s : Accounting) :
    Except AccountingRevert (Accounting × List Event) := do
  let currentEpoch ← safeCast 64 .safeCastOverflow currentEpoch
  let (s, finalized) := rollOver currentEpoch s
  let initialCommit := s.workLogCommit workLogId
  let update : WorkLogUpdate := ⟨workLogId, initialCommit, updatedCommit, updateValue, valueRecipient⟩
  require (verify sealData update) .verificationFailed
  let totalWork ← checkedAdd .arithmeticOverflow s.pendingEpoch.totalWork (updateValue.setWidth 96)
  return ({ s with
      workLogCommits := Function.update s.workLogCommits workLogId updatedCommit
      pendingEpoch := { s.pendingEpoch with totalWork := totalWork } },
    finalized ++ [.workLogUpdated workLogId (currentEpoch.setWidth 256) update.initialCommit update.updatedCommit
      (updateValue.setWidth 256) update.valueRecipient])

end Accounting

def Call.exec (c : Call) (s : Accounting) : Except AccountingRevert (Accounting × List Event) :=
  match c.action with
  | .finalizeEpoch => s.finalizeEpoch c.currentEpoch
  | .updateWorkLog workLogId updatedCommit updateValue valueRecipient sealData =>
    s.updateWorkLog c.currentEpoch c.verify workLogId updatedCommit updateValue valueRecipient sealData

/-- A reverted call leaves no trace. -/
def Call.step (c : Call) (s : Accounting) : Accounting × List Event :=
  match c.exec s with
  | .ok r => r
  | .error _ => (s, [])

/-- The state after a sequence of calls, and the events with their blocks. -/
def run (s : Accounting) : List Call → Accounting × List (ℕ × Event)
  | [] => (s, [])
  | c :: calls =>
    let (s, events) := c.step s
    let (s, more) := run s calls
    (s, events.map (c.blockNumber, ·) ++ more)

theorem run_append (s : Accounting) (calls more : List Call) :
    run s (calls ++ more) = ((run (run s calls).1 more).1, (run s calls).2 ++ (run (run s calls).1 more).2) := by
  induction calls generalizing s with
  | nil => rfl
  | cons c calls ih => simp only [List.cons_append, run, ih, List.append_assoc]

def events (s : Accounting) (calls : List Call) : List Event := (run s calls).2.map Prod.snd

theorem events_snoc (s : Accounting) (calls : List Call) (c : Call) :
    events s (calls ++ [c]) = events s calls ++ (c.step (run s calls).1).2 := by
  simp [events, run_append, run, Function.comp_def]

def Event.updateEpoch : Event → Option ℕ
  | .workLogUpdated _ epochNumber _ _ _ _ => some epochNumber.toNat
  | .epochFinalized _ _ => none

/-- The epoch of a finalization and its total. -/
def Event.finalized : Event → Option (ℕ × ℕ)
  | .epochFinalized epoch totalWork => some (epoch.toNat, totalWork.toNat)
  | .workLogUpdated _ _ _ _ _ _ => none

def Event.workIn (epoch : ℕ) : Event → ℕ
  | .workLogUpdated _ epochNumber _ _ updateValue _ => if epochNumber.toNat = epoch then updateValue.toNat else 0
  | .epochFinalized _ _ => 0

def Event.commits (workLogId : Address) : Event → Option (Bytes32 × Bytes32)
  | .workLogUpdated id _ initialCommit updatedCommit _ _ =>
    if id = workLogId then some (initialCommit, updatedCommit) else none
  | .epochFinalized _ _ => none

/-- A call does nothing, finalizes the pending epoch, or updates a log in the epoch of
the call, which it may have to roll over to. -/
inductive StepEffect (epoch : ℕ) (s : Accounting) : Accounting × List Event → Prop where
  | none : StepEffect epoch s (s, [])
  | finalize (newEpoch : U64) (old : s.pendingEpoch.number < newEpoch) (now : newEpoch.toNat = epoch) :
      StepEffect epoch s (s.finalizePendingEpoch newEpoch)
  | update (currentEpoch : U64) (now : currentEpoch.toNat = epoch) (workLogId : Address) (updatedCommit : Bytes32)
      (updateValue : U64) (valueRecipient : Address) (totalWork : U96)
      (total : totalWork.toNat = (s.rollOver currentEpoch).1.pendingEpoch.totalWork.toNat + updateValue.toNat) :
      StepEffect epoch s
        ({ (s.rollOver currentEpoch).1 with
            workLogCommits := Function.update s.workLogCommits workLogId updatedCommit
            pendingEpoch := { (s.rollOver currentEpoch).1.pendingEpoch with totalWork := totalWork } },
          (s.rollOver currentEpoch).2 ++ [.workLogUpdated workLogId (currentEpoch.setWidth 256)
            (s.workLogCommit workLogId) updatedCommit (updateValue.setWidth 256) valueRecipient])

theorem rollOver_commits (currentEpoch : U64) (s : Accounting) :
    (s.rollOver currentEpoch).1.workLogCommits = s.workLogCommits := by
  unfold Accounting.rollOver Accounting.finalizePendingEpoch
  split_ifs <;> rfl

theorem step_effect (c : Call) (s : Accounting) : StepEffect c.currentEpoch.toNat s (c.step s) := by
  unfold Call.step
  cases hexec : c.exec s with
  | error e => exact .none
  | ok r =>
    unfold Call.exec at hexec
    cases hact : c.action with
    | finalizeEpoch =>
      simp only [hact, Accounting.finalizeEpoch, bind_ok_iff, require_ok_iff] at hexec
      obtain ⟨newEpoch, hcast, _, hlt, hexec⟩ := hexec
      cases hexec
      exact .finalize newEpoch hlt (safeCast_ok hcast)
    | updateWorkLog workLogId updatedCommit updateValue valueRecipient sealData =>
      simp only [hact, Accounting.updateWorkLog, bind_ok_iff, require_ok_iff] at hexec
      obtain ⟨currentEpoch, hcast, _, -, totalWork, htotal, hexec⟩ := hexec
      have hsum := checkedAdd_ok htotal
      rw [BitVec.toNat_setWidth, Nat.mod_eq_of_lt (by omega)] at hsum
      have heffect := StepEffect.update (s := s) currentEpoch (safeCast_ok hcast) workLogId updatedCommit updateValue
        valueRecipient totalWork hsum
      cases hexec
      simp only [Accounting.workLogCommit, rollOver_commits] at heffect ⊢
      exact heffect

end VerifiableCompute.Povw
