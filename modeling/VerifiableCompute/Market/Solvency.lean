import VerifiableCompute.Lib.Keccak
import VerifiableCompute.Market.Invariants

/-! Solvency: in every state of every run the contract holds exactly what it owes,
to accounts and under locks, both in ether and in collateral tokens. -/

namespace VerifiableCompute.Market

open Lib RequestLock

namespace RequestLock

/-- What is still held of the locked price: nothing once it was paid or refunded. -/
def owedPrice (l : RequestLock) : ℕ := if l.isProverPaid || l.isSlashed then 0 else l.price.toNat

/-- What is still held of the locked collateral. -/
def owedCollateral (l : RequestLock) : ℕ :=
  if l.isProverPaidBeforeLockDeadline || l.isSlashed then 0 else l.collateral.toNat

end RequestLock

namespace State

/-- Locked prices that were neither paid out nor refunded. -/
noncomputable def lockedPrices (s : State) : ℕ := total RequestLock.owedPrice s.requestLocks

/-- Locked collateral that was neither returned nor slashed. -/
noncomputable def lockedCollaterals (s : State) : ℕ := total RequestLock.owedCollateral s.requestLocks

end State

structure Solvent (s : State) : Prop where
  eth : s.eth = s.balances + s.lockedPrices
  tokens : s.tokens = s.collaterals + s.lockedCollaterals

namespace RequestLock

variable (l : RequestLock) (prover : Address)

theorem owedPrice_empty : empty.owedPrice = 0 := by decide

theorem owedCollateral_empty : empty.owedCollateral = 0 := by decide

theorem owed_of_flags_zero {l : RequestLock} (h : l.requestLockFlags = 0) :
    l.owedPrice = l.price.toNat ∧ l.owedCollateral = l.collateral.toNat := by
  have hpaid := isProverPaid_of_flags_zero h
  have hbefore : l.isProverPaidBeforeLockDeadline = false := (Bool.or_eq_false_iff.mp hpaid).1
  simp [owedPrice, owedCollateral, hpaid, hbefore, isSlashed_of_flags_zero h]

theorem owedPrice_of_unpaid {l : RequestLock} (hp : l.isProverPaid = false)
    (hs : l.isSlashed = true → l.price = 0 ∧ l.collateral = 0) : l.owedPrice = l.price.toNat := by
  unfold owedPrice
  split_ifs with h
  · rw [hp, Bool.false_or] at h
    simp [(hs h).1]
  · rfl

theorem owedCollateral_of_unpaid {l : RequestLock} (hp : l.isProverPaidBeforeLockDeadline = false)
    (hs : l.isSlashed = true → l.price = 0 ∧ l.collateral = 0) : l.owedCollateral = l.collateral.toNat := by
  unfold owedCollateral
  split_ifs with h
  · rw [hp, Bool.false_or] at h
    simp [(hs h).2]
  · rfl

@[simp] theorem owedPrice_setPaidBefore : l.setProverPaidBeforeLockDeadline.owedPrice = 0 := by
  simp [owedPrice]

@[simp] theorem owedCollateral_setPaidBefore : l.setProverPaidBeforeLockDeadline.owedCollateral = 0 := by
  simp [owedCollateral]

@[simp] theorem owedPrice_setPaidAfter : (l.setProverPaidAfterLockDeadline prover).owedPrice = 0 := by
  simp [owedPrice]

@[simp] theorem owedCollateral_setPaidAfter :
    (l.setProverPaidAfterLockDeadline prover).owedCollateral = l.owedCollateral := by
  have hsame : (l.setProverPaidAfterLockDeadline prover).collateral = l.collateral := rfl
  simp [owedCollateral, hsame]

@[simp] theorem owedCollateral_setSlashed : l.setSlashed.owedCollateral = 0 := by
  simp [owedCollateral]

end RequestLock

namespace Solvent

variable {cfg : Config} {s s' : State}

theorem initial : Solvent .initial := by
  have hb : State.initial.balances = 0 := total_eq_zero _ _ fun _ => rfl
  have hc : State.initial.collaterals = 0 := total_eq_zero _ _ fun _ => rfl
  have hp : State.initial.lockedPrices = 0 := total_eq_zero _ _ fun _ => owedPrice_empty
  have hl : State.initial.lockedCollaterals = 0 := total_eq_zero _ _ fun _ => owedCollateral_empty
  constructor
  · rw [hb, hp]
    rfl
  · rw [hc, hl]
    rfl

variable {F : Flags → Flags} {events : List Event} {client : Address} {idx : U32}

theorem step_rewrite (h : Solvent s) {id : RequestId} {f : RequestLock → RequestLock}
    {b c e t : ℤ} (hc : Change s s' F (rewriteLock id f) events b c e t)
    (heth : e + (s.requestLocks id).owedPrice = b + (f (s.requestLocks id)).owedPrice)
    (htokens : t + (s.requestLocks id).owedCollateral = c + (f (s.requestLocks id)).owedCollateral) : Solvent s' := by
  have hp : s'.lockedPrices + (s.requestLocks id).owedPrice =
      s.lockedPrices + (f (s.requestLocks id)).owedPrice := by
    rw [State.lockedPrices, hc.requestLocks]
    exact total_update _ _ _ _
  have hl : s'.lockedCollaterals + (s.requestLocks id).owedCollateral =
      s.lockedCollaterals + (f (s.requestLocks id)).owedCollateral := by
    rw [State.lockedCollaterals, hc.requestLocks]
    exact total_update _ _ _ _
  obtain ⟨h1, h2⟩ := h
  have := hc.balances
  have := hc.collaterals
  have := hc.eth
  have := hc.tokens
  constructor <;> omega

theorem step_same (h : Solvent s) {b c : ℤ} (hc : Change s s' F id events b c b c) : Solvent s' := by
  have hp : s'.lockedPrices = s.lockedPrices := by rw [State.lockedPrices, hc.requestLocks]; rfl
  have hl : s'.lockedCollaterals = s.lockedCollaterals := by rw [State.lockedCollaterals, hc.requestLocks]; rfl
  obtain ⟨h1, h2⟩ := h
  have := hc.balances
  have := hc.collaterals
  have := hc.eth
  have := hc.tokens
  constructor <;> omega

theorem step_fulfill (hrec : Recorded s) (h : Solvent s) {fill : Fulfillment} {prover : Address}
    {delivery : Delivery} (he : FulfillEffect fill prover client idx s s' delivery) : Solvent s' := by
  cases he with
  | expired change | alreadyPaid _ _ change | lockedOut _ _ change | alreadyFulfilled _ change
  | unfunded _ change | paidUnlocked _ change => exact h.step_same change
  | paidLocked locked inTime unpaid locker digest change credited =>
    have hbefore := (Bool.or_eq_false_iff.mp unpaid).1
    refine h.step_rewrite change ?_ ?_
    · rw [owedPrice_of_unpaid unpaid (hrec.slashed_cleared _)]
      simp
    · rw [owedCollateral_of_unpaid hbefore (hrec.slashed_cleared _)]
      simp
  | paidLate error events locked late unpaid logged change =>
    refine h.step_rewrite change ?_ ?_
    · rw [owedPrice_of_unpaid unpaid (hrec.slashed_cleared _)]
      simp
    · simp

theorem step_slash {requestId : RequestId}
    (h : Solvent s) (he : SlashEffect requestId client idx s s') : Solvent s' := by
  obtain ⟨burn, transfer, recipient, hshares, change⟩ := he.change
  have hcol : (s.requestLocks requestId).owedCollateral = (s.requestLocks requestId).collateral.toNat :=
    owedCollateral_of_unpaid he.unpaid fun hs => by simp [he.unslashed] at hs
  refine h.step_rewrite change ?_ ?_
  · -- the price is refunded exactly when it was still owed
    unfold owedPrice
    simp [isProverPaid, he.unpaid, he.unslashed]
  · rw [hcol, owedCollateral_setSlashed]
    omega

theorem step (hrec : Recorded s) (h : Solvent s) {a : Action} {o : Outcome} (he : Effect cfg s s' a o) :
    Solvent s' := by
  cases he with
  | begin timestamp later result => subst result; exact ⟨h.eth, h.tokens⟩
  | money a events value collateral isMoney logged change => exact h.step_same change
  | price request signature x lockDeadline deadline price valid result => subst result; exact ⟨h.eth, h.tokens⟩
  | lock a request signature client idx lock locks decoded fresh flags change =>
    have hempty := hrec.empty_of_unlocked decoded (by rw [flags])
    obtain ⟨hp, hc⟩ := owed_of_flags_zero fresh.requestLockFlags
    refine h.step_rewrite change ?_ ?_
    · rw [hempty, owedPrice_empty, hp]
      simp
    · rw [hempty, owedCollateral_empty, hc]
      simp
  | fulfill fill prover client idx delivery decoded authentic effect => exact step_fulfill hrec h effect
  | slash requestId client idx decoded effect => exact step_slash h effect

theorem of_replay {t : List Step} (h : Replay (act cfg) .initial t s) : Solvent s :=
  replay_induction (P := fun _ => Solvent) initial
    (fun _ _ _ _ _ ht hs ha => hs.step (.of_replay ht) (act_effect ha)) h

end Solvent

/-- Every state of every run is solvent. -/
theorem solvent_of_passes (cfg : Config) (txs : List Transaction) (t : List Step) (s : State) (h : Passes cfg txs t s) :
    s.eth = s.balances + s.lockedPrices ∧ s.tokens = s.collaterals + s.lockedCollaterals :=
  ⟨(Solvent.of_replay h.2).eth, (Solvent.of_replay h.2).tokens⟩

def sampleConfig : Config where
  this := 0xb0
  keccak256 := keccak256
  domainSeparator := 0
  assessorId := 1
  deprecatedAssessorId := 2
  deprecatedAssessorExpiresAt := 0

/-- Every signature is by account 1 and every proof verifies. -/
def acceptAll : External := ⟨fun _ _ _ => true, fun _ _ => some 1, fun _ _ _ => true, fun _ _ _ => true⟩

/-- Client 1, index 7. -/
def sampleId : RequestId := 0x100000007

/-- Price 3 and collateral 4, lockable until 150 and open until 200. -/
def sampleRequest (id : RequestId) : ProofRequest where
  id := id
  requirements := ⟨⟨0, 0⟩, ⟨.digestMatch, []⟩, 0⟩
  imageUrl := []
  input := ⟨.inline, []⟩
  offer := ⟨3, 3, 100, 0, 50, 100, 4⟩

/-- Client 1 deposits 10, prover 2 deposits 5 and locks the sample request. -/
def sampleLocking : Transaction where
  timestamp := 100
  calls := .cons (.deposit 1 10) (.cons (.depositCollateral 2 5 true)
    (.cons (.lockRequest 2 (sampleRequest sampleId) [] acceptAll) .nil))

theorem solvent_sampleLocking :
    let s := (run sampleConfig [sampleLocking]).state
    (s.requestLocks sampleId).price = 3 ∧ 10 = s.balances + s.lockedPrices ∧
      5 = s.collaterals + s.lockedCollaterals :=
  ⟨by decide, solvent_of_passes sampleConfig [sampleLocking] _ _ (passes_final _ _)⟩

end VerifiableCompute.Market
