import VerifiableCompute.Market.Calls
import VerifiableCompute.Market.Effects

/-! Invariants of the market's records. Flags are kept under the client and the
index of a request, locks under its full identifier; the invariants tie the two
stores together in every state a run passes through. -/

namespace VerifiableCompute.Market

open Lib

@[simp] theorem raiseFlags_self (client : Address) (idx : U32) (locked fulfilled : Bool) (flags : Flags) :
    raiseFlags client idx locked fulfilled flags client idx =
      ((flags client idx).1 || locked, (flags client idx).2 || fulfilled) := by
  simp [raiseFlags]

theorem raiseFlags_locked (client c : Address) (idx i : U32) (locked fulfilled : Bool) (flags : Flags)
    (h : (flags c i).1 = true) : (raiseFlags client idx locked fulfilled flags c i).1 = true := by
  unfold raiseFlags
  split_ifs <;> simp [h]

theorem raiseFlags_fulfilled (client c : Address) (idx i : U32) (locked fulfilled : Bool) (flags : Flags)
    (h : (flags c i).2 = true) : (raiseFlags client idx locked fulfilled flags c i).2 = true := by
  unfold raiseFlags
  split_ifs <;> simp [h]

theorem raiseFlags_false_locked (client c : Address) (idx i : U32) (fulfilled : Bool) (flags : Flags) :
    (raiseFlags client idx false fulfilled flags c i).1 = (flags c i).1 := by
  unfold raiseFlags
  split_ifs <;> simp

@[simp] theorem rewriteLock_self (id : RequestId) (f : RequestLock → RequestLock) (locks : Locks) :
    rewriteLock id f locks id = f (locks id) := by
  simp [rewriteLock]

theorem rewriteLock_of_ne {id k : RequestId} (h : k ≠ id) (f : RequestLock → RequestLock) (locks : Locks) :
    rewriteLock id f locks k = locks k := by
  simp [rewriteLock, Function.update_of_ne h]

/-- The ways an action writes flags and locks. -/
inductive Rewrites (s s' : State) : Prop
  | same (flags : s'.flags = s.flags) (requestLocks : s'.requestLocks = s.requestLocks)
  | locked (id : RequestId) (client : Address) (idx : U32) (lock : RequestLock)
      (decoded : clientAndIndex id = .ok (client, idx)) (unlocked : s.flags client idx = (false, false))
      (fresh : lock.requestLockFlags = 0) (flags : s'.flags = raiseFlags client idx true false s.flags)
      (requestLocks : s'.requestLocks = rewriteLock id (fun _ => lock) s.requestLocks)
  | fulfilled (client : Address) (idx : U32) (flags : s'.flags = raiseFlags client idx false true s.flags)
      (requestLocks : s'.requestLocks = s.requestLocks)
  | paid (id : RequestId) (client : Address) (idx : U32) (f : RequestLock → RequestLock)
      (decoded : clientAndIndex id = .ok (client, idx)) (locked : (s.flags client idx).1 = true)
      (marks : f = RequestLock.setProverPaidBeforeLockDeadline ∨
        ∃ prover, f = RequestLock.setProverPaidAfterLockDeadline prover)
      (flags : s'.flags = raiseFlags client idx false true s.flags)
      (requestLocks : s'.requestLocks = rewriteLock id f s.requestLocks)
  | slashed (id : RequestId) (client : Address) (idx : U32) (decoded : clientAndIndex id = .ok (client, idx))
      (locked : (s.flags client idx).1 = true) (flags : s'.flags = s.flags)
      (requestLocks : s'.requestLocks = rewriteLock id RequestLock.setSlashed s.requestLocks)

namespace Effect

variable {cfg : Config} {s s' : State} {a : Action} {o : Outcome}

theorem rewrites (h : Effect cfg s s' a o) : Rewrites s s' := by
  cases h with
  | begin timestamp later result => subst result; exact .same rfl rfl
  | money a events value collateral isMoney logged change => exact .same change.flags change.requestLocks
  | price request signature x lockDeadline deadline price valid result => subst result; exact .same rfl rfl
  | lock a request signature client idx lock locks decoded fresh flags change =>
    exact .locked request.id client idx lock decoded flags fresh.requestLockFlags change.flags change.requestLocks
  | fulfill fill prover client idx delivery decoded authentic effect =>
    cases effect with
    | expired change => exact .same change.flags change.requestLocks
    | alreadyPaid locked paid change => exact .same change.flags change.requestLocks
    | lockedOut locked other change => exact .fulfilled client idx change.flags change.requestLocks
    | paidLocked locked inTime unpaid locker digest change credited =>
      exact .paid fill.id client idx _ decoded locked (.inl rfl) change.flags change.requestLocks
    | paidLate error events locked late unpaid logged change =>
      exact .paid fill.id client idx _ decoded locked (.inr ⟨prover, rfl⟩) change.flags change.requestLocks
    | alreadyFulfilled flags change => exact .same change.flags change.requestLocks
    | unfunded flags change => exact .fulfilled client idx change.flags change.requestLocks
    | paidUnlocked flags change => exact .fulfilled client idx change.flags change.requestLocks
  | slash requestId client idx decoded effect =>
    obtain ⟨_, _, _, -, change⟩ := effect.change
    exact .slashed requestId client idx decoded effect.locked change.flags change.requestLocks

theorem timestamp_le (h : Effect cfg s s' a o) : s.timestamp ≤ s'.timestamp := by
  have hsame (h : s'.timestamp = s.timestamp) : s.timestamp ≤ s'.timestamp := h ▸ BitVec.le_refl _
  cases h with
  | begin timestamp later result => subst result; exact later
  | money a events value collateral isMoney logged change => exact hsame change.timestamp
  | price request signature x lockDeadline deadline price valid result => subst result; exact hsame rfl
  | lock a request signature client idx lock locks decoded fresh flags change => exact hsame change.timestamp
  | fulfill fill prover client idx delivery decoded authentic effect =>
    cases effect with
    | expired change | alreadyPaid _ _ change | lockedOut _ _ change | alreadyFulfilled _ change
    | unfunded _ change | paidUnlocked _ change | paidLocked _ _ _ _ _ change _
    | paidLate _ _ _ _ _ _ change => exact hsame change.timestamp
  | slash requestId client idx decoded effect =>
    obtain ⟨_, _, _, -, change⟩ := effect.change
    exact hsame change.timestamp

end Effect

namespace Rewrites

variable {s s' : State} {client : Address} {idx : U32}

theorem locked_mono (h : Rewrites s s') (hl : (s.flags client idx).1 = true) : (s'.flags client idx).1 = true := by
  cases h with
  | same flags | slashed _ _ _ _ _ flags => rw [flags, hl]
  | locked _ _ _ _ _ _ _ flags | fulfilled _ _ flags | paid _ _ _ _ _ _ _ flags =>
    rw [flags]
    exact raiseFlags_locked _ _ _ _ _ _ _ hl

theorem fulfilled_mono (h : Rewrites s s') (hf : (s.flags client idx).2 = true) : (s'.flags client idx).2 = true := by
  cases h with
  | same flags | slashed _ _ _ _ _ flags => rw [flags, hf]
  | locked _ _ _ _ _ _ _ flags | fulfilled _ _ flags | paid _ _ _ _ _ _ _ flags =>
    rw [flags]
    exact raiseFlags_fulfilled _ _ _ _ _ _ _ hf

end Rewrites

theorem initial_flags (client : Address) (idx : U32) : State.initial.flags client idx = (false, false) := by
  simp [State.initial, State.flags, Account.requestFlags, Account.empty, readFlags]

/-- The two stores agree: a lock exists only under a locked index, a slashed lock
holds nothing, and a paid lock lies under a fulfilled index. -/
structure Recorded (s : State) : Prop where
  unlocked_empty : ∀ id, (∀ client idx, clientAndIndex id = .ok (client, idx) → (s.flags client idx).1 = false) →
    s.requestLocks id = .empty
  slashed_cleared : ∀ id, (s.requestLocks id).isSlashed = true →
    (s.requestLocks id).price = 0 ∧ (s.requestLocks id).collateral = 0
  paid_fulfilled : ∀ id client idx, clientAndIndex id = .ok (client, idx) →
    (s.requestLocks id).isProverPaid = true → (s.flags client idx).2 = true

namespace Recorded

variable {s s' : State}

theorem initial : Recorded .initial where
  unlocked_empty _ _ := rfl
  slashed_cleared _ _ := ⟨rfl, rfl⟩
  paid_fulfilled _ _ _ _ h := by
    have hempty : RequestLock.empty.isProverPaid = false := RequestLock.isProverPaid_of_flags_zero rfl
    simp [State.initial, hempty] at h

/-- The lock under an index whose flag is not set was never written. -/
theorem empty_of_unlocked (h : Recorded s) {id : RequestId} {client : Address} {idx : U32}
    (hid : clientAndIndex id = .ok (client, idx)) (hf : (s.flags client idx).1 = false) :
    s.requestLocks id = .empty := by
  refine h.unlocked_empty id fun c i hci => ?_
  cases hid.symm.trans hci
  exact hf

section

variable (h : Recorded s) (hr : Rewrites s s')

include h hr

theorem step_unlocked_empty (id : RequestId)
    (hid : ∀ client idx, clientAndIndex id = .ok (client, idx) → (s'.flags client idx).1 = false) :
    s'.requestLocks id = .empty := by
  have hbefore : ∀ client idx, clientAndIndex id = .ok (client, idx) → (s.flags client idx).1 = false := by
    intro client idx hci
    by_contra hl
    have := hr.locked_mono (by simpa using hl)
    simp [hid client idx hci] at this
  have hempty := h.unlocked_empty id hbefore
  cases hr with
  | same _ locks | fulfilled _ _ _ locks => rw [locks, hempty]
  | locked k client idx lock decoded _ _ flags locks =>
    have hk : id ≠ k := by
      rintro rfl
      have := hid client idx decoded
      simp [flags] at this
    rw [locks, rewriteLock_of_ne hk, hempty]
  | paid k client idx f decoded locked _ _ locks =>
    have hk : id ≠ k := by
      rintro rfl
      simp [hbefore client idx decoded] at locked
    rw [locks, rewriteLock_of_ne hk, hempty]
  | slashed k client idx decoded locked _ locks =>
    have hk : id ≠ k := by
      rintro rfl
      simp [hbefore client idx decoded] at locked
    rw [locks, rewriteLock_of_ne hk, hempty]

theorem step_slashed_cleared (id : RequestId) (hs : (s'.requestLocks id).isSlashed = true) :
    (s'.requestLocks id).price = 0 ∧ (s'.requestLocks id).collateral = 0 := by
  cases hr with
  | same _ locks | fulfilled _ _ _ locks =>
    rw [locks] at hs ⊢
    exact h.slashed_cleared id hs
  | locked k client idx lock decoded unlocked fresh flags locks =>
    rw [locks] at hs ⊢
    by_cases hk : id = k
    · subst hk
      simp [RequestLock.isSlashed_of_flags_zero fresh] at hs
    · rw [rewriteLock_of_ne hk] at hs ⊢
      exact h.slashed_cleared id hs
  | paid k client idx f decoded locked marks flags locks =>
    rw [locks] at hs ⊢
    by_cases hk : id = k
    · subst hk
      rcases marks with rfl | ⟨prover, rfl⟩
      · simp at hs
      · simp only [rewriteLock_self, RequestLock.isSlashed_setPaidAfter] at hs ⊢
        exact h.slashed_cleared id hs
    · rw [rewriteLock_of_ne hk] at hs ⊢
      exact h.slashed_cleared id hs
  | slashed k client idx decoded locked flags locks =>
    rw [locks] at hs ⊢
    by_cases hk : id = k
    · subst hk
      rw [rewriteLock_self]
      exact ⟨rfl, rfl⟩
    · rw [rewriteLock_of_ne hk] at hs ⊢
      exact h.slashed_cleared id hs

theorem step_paid_fulfilled (id : RequestId) (client : Address) (idx : U32)
    (hid : clientAndIndex id = .ok (client, idx)) (hp : (s'.requestLocks id).isProverPaid = true) :
    (s'.flags client idx).2 = true := by
  have hmono (hp : (s.requestLocks id).isProverPaid = true) : (s'.flags client idx).2 = true :=
    hr.fulfilled_mono (h.paid_fulfilled id client idx hid hp)
  cases hr with
  | same _ locks | fulfilled _ _ _ locks =>
    rw [locks] at hp
    exact hmono hp
  | locked k c i lock decoded unlocked fresh flags locks =>
    rw [locks] at hp
    by_cases hk : id = k
    · subst hk
      simp [RequestLock.isProverPaid_of_flags_zero fresh] at hp
    · rw [rewriteLock_of_ne hk] at hp
      exact hmono hp
  | paid k c i f decoded locked marks flags locks =>
    rw [locks] at hp
    by_cases hk : id = k
    · subst hk
      cases decoded.symm.trans hid
      simp [flags]
    · rw [rewriteLock_of_ne hk] at hp
      exact hmono hp
  | slashed k c i decoded locked flags locks =>
    rw [locks] at hp
    by_cases hk : id = k
    · subst hk
      simp only [rewriteLock_self, RequestLock.isProverPaid_setSlashed] at hp
      exact hmono hp
    · rw [rewriteLock_of_ne hk] at hp
      exact hmono hp

theorem step : Recorded s' :=
  ⟨h.step_unlocked_empty hr, h.step_slashed_cleared hr, h.step_paid_fulfilled hr⟩

end

theorem of_replay {cfg : Config} {t : List Step} (h : Replay (act cfg) .initial t s) : Recorded s :=
  replay_invariant initial (fun _ _ _ _ hr ha => hr.step (act_effect ha).rewrites) h

end Recorded

/-- The run passes through the state after its first actions `t`, possibly in the
middle of a transaction. -/
def Passes (cfg : Config) (txs : List Transaction) (t : List Step) (s : State) : Prop :=
  t <+: (run cfg txs).history ∧ Replay (act cfg) .initial t s

theorem passes_final (cfg : Config) (txs : List Transaction) :
    Passes cfg txs (run cfg txs).history (run cfg txs).state :=
  ⟨List.prefix_refl _, run_replay cfg txs⟩

end VerifiableCompute.Market
