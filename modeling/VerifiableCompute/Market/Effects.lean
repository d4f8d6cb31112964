import VerifiableCompute.Market.Actions
import VerifiableCompute.Market.Books

/-! What an action can do. `Effect` lists every way an action takes effect, with
the guards that were passed, and `act_effect` shows that the list is complete;
the invariants of the market are proved over it and unfold no function again. -/

namespace VerifiableCompute.Market

open Lib State

/-- The event of the first fulfilment under a client and an index. -/
def fulfilledEvents (s : State) (client : Address) (idx : U32) (fill : Fulfillment) (prover : Address) : List Event :=
  if (s.flags client idx).2 then [] else [.requestFulfilled fill.id prover fill.requestDigest]

def errorEvents : Option Revert → List Event
  | none => []
  | some e => [.paymentRequirementsFailed e]

/-- The request of the fill was priced in this transaction, or it is the locked
one; in both cases it is known whether it has expired. -/
def Authentic (s : State) (fill : Fulfillment) (locked expired : Bool) : Prop :=
  ((s.loadContext fill.requestDigest).valid = true ∧ expired = (s.loadContext fill.requestDigest).expired) ∨
  ((s.loadContext fill.requestDigest).valid = false ∧ locked = true ∧
    (s.requestLocks fill.id).requestDigest = fill.requestDigest ∧
    ∃ deadline, (s.requestLocks fill.id).deadline = .ok deadline ∧
      expired = decide (deadline.setWidth 256 < s.timestamp))

/-- The prover's two balances grow by exactly these amounts. -/
def Credited (s s' : State) (prover : Address) (price collateral : U96) : Prop :=
  (s'.accounts prover).balance.toNat = (s.accounts prover).balance.toNat + price.toNat ∧
    (s'.accounts prover).collateralBalance.toNat =
      (s.accounts prover).collateralBalance.toNat + collateral.toNat

/-- The ways a fill is processed. -/
inductive FulfillEffect (fill : Fulfillment) (prover client : Address) (idx : U32) (s s' : State) :
    Delivery → Prop
  | expired
      (change : Change s s' id id [.paymentRequirementsFailed (.requestIsExpired fill.id)] 0 0 0 0) :
      FulfillEffect fill prover client idx s s' ⟨some (.requestIsExpired fill.id), true⟩
  /-- The lock was paid before. -/
  | alreadyPaid
      (locked : (s.flags client idx).1 = true)
      (paid : (s.requestLocks fill.id).isProverPaid = true)
      (change : Change s s' id id [.paymentRequirementsFailed (.requestIsFulfilled fill.id),
        .proofDelivered fill.id prover fill] 0 0 0 0) :
      FulfillEffect fill prover client idx s s' ⟨some (.requestIsFulfilled fill.id), false⟩
  /-- The request is locked to another prover, or another request is locked. -/
  | lockedOut
      (locked : (s.flags client idx).1 = true)
      (other : (s.requestLocks fill.id).prover ≠ prover ∨
        (s.requestLocks fill.id).requestDigest ≠ fill.requestDigest)
      (change : Change s s' (raiseFlags client idx false true) id (fulfilledEvents s client idx fill prover ++
        [.paymentRequirementsFailed (.requestIsLocked fill.id), .proofDelivered fill.id prover fill]) 0 0 0 0) :
      FulfillEffect fill prover client idx s s' ⟨some (.requestIsLocked fill.id), false⟩
  /-- The locker is paid the locked price and gets its collateral back. -/
  | paidLocked
      (locked : (s.flags client idx).1 = true)
      (inTime : s.timestamp ≤ (s.requestLocks fill.id).lockDeadline.setWidth 256)
      (unpaid : (s.requestLocks fill.id).isProverPaid = false)
      (locker : (s.requestLocks fill.id).prover = prover)
      (digest : (s.requestLocks fill.id).requestDigest = fill.requestDigest)
      (change : Change s s' (raiseFlags client idx false true)
        (rewriteLock fill.id RequestLock.setProverPaidBeforeLockDeadline)
        (fulfilledEvents s client idx fill prover ++ [.proofDelivered fill.id prover fill])
        (s.requestLocks fill.id).price.toNat (s.requestLocks fill.id).collateral.toNat 0 0)
      (credited : Credited s s' prover (s.requestLocks fill.id).price (s.requestLocks fill.id).collateral) :
      FulfillEffect fill prover client idx s s' ⟨none, false⟩
  /-- After the lock expired; the client's charge and the prover's payment differ
  by the locked price. -/
  | paidLate (error : Option Revert) (events : List Event)
      (locked : (s.flags client idx).1 = true)
      (late : ¬ s.timestamp ≤ (s.requestLocks fill.id).lockDeadline.setWidth 256)
      (unpaid : (s.requestLocks fill.id).isProverPaid = false)
      (logged : (error = none ∧ events = []) ∨
        ∃ price finalPrice, error = some (.partialPayment price finalPrice) ∧
          events = [.paymentRequirementsFailed (.partialPayment price finalPrice)])
      (change : Change s s' (raiseFlags client idx false true)
        (rewriteLock fill.id (RequestLock.setProverPaidAfterLockDeadline prover))
        (fulfilledEvents s client idx fill prover ++ (events ++ [.proofDelivered fill.id prover fill]))
        (s.requestLocks fill.id).price.toNat 0 0 0) :
      FulfillEffect fill prover client idx s s' ⟨error, false⟩
  /-- Never locked, and fulfilled before. -/
  | alreadyFulfilled
      (flags : s.flags client idx = (false, true))
      (change : Change s s' id id [.paymentRequirementsFailed (.requestIsFulfilled fill.id),
        .proofDelivered fill.id prover fill] 0 0 0 0) :
      FulfillEffect fill prover client idx s s' ⟨some (.requestIsFulfilled fill.id), false⟩
  /-- Never locked, and the client cannot pay. -/
  | unfunded
      (flags : s.flags client idx = (false, false))
      (change : Change s s' (raiseFlags client idx false true) id (fulfilledEvents s client idx fill prover ++
        [.paymentRequirementsFailed (.insufficientBalance client), .proofDelivered fill.id prover fill])
        0 0 0 0) :
      FulfillEffect fill prover client idx s s' ⟨some (.insufficientBalance client), false⟩
  /-- Never locked, and paid from the client's balance. -/
  | paidUnlocked
      (flags : s.flags client idx = (false, false))
      (change : Change s s' (raiseFlags client idx false true) id (fulfilledEvents s client idx fill prover ++
        [.proofDelivered fill.id prover fill]) 0 0 0 0) :
      FulfillEffect fill prover client idx s s' ⟨none, false⟩

section Fulfill

variable {cfg : Config} {fill : Fulfillment} {prover client : Address} {idx : U32} {s s' : State}

theorem payout_eq (cfg : Config) (price : U96) (s : State) : payout cfg price s = .ok (price, s) := by
  simp [payout, marketFeeBps]

theorem setRequestFulfilled_balances (h : s.setRequestFulfilled client idx = .ok s') (a : Address) :
    (s'.accounts a).balance = (s.accounts a).balance ∧
      (s'.accounts a).collateralBalance = (s.accounts a).collateralBalance := by
  obtain ⟨account, ha, h⟩ := bind_ok_iff.mp h
  cases h
  by_cases hac : a = client
  · subst hac
    simpa [setAccount] using Account.setRequestFlags_frame ha
  · simp [setAccount, Function.update_of_ne hac]

theorem markFulfilled_spec (h : markFulfilled fill.id client idx fill (s.flags client idx).2 prover s = .ok s') :
    Change s s' (raiseFlags client idx false true) id (fulfilledEvents s client idx fill prover) 0 0 0 0 ∧
      ∀ a, (s'.accounts a).balance = (s.accounts a).balance ∧
        (s'.accounts a).collateralBalance = (s.accounts a).collateralBalance := by
  unfold markFulfilled at h
  split_ifs at h with hf
  · cases h
    have hsame : s.flags = raiseFlags client idx false true s.flags := by
      funext c i
      unfold raiseFlags
      split_ifs with hci
      · obtain ⟨rfl, rfl⟩ := hci
        simp [Prod.ext_iff, hf]
      · rfl
    refine ⟨⟨hsame, rfl, ?_, rfl, rfl, ?_, ?_, ?_, ?_⟩, fun _ => ⟨rfl, rfl⟩⟩ <;> simp [fulfilledEvents, hf]
  · obtain ⟨r, hr, h⟩ := bind_ok_iff.mp h
    cases h
    refine ⟨?_, fun a => setRequestFulfilled_balances hr a⟩
    simpa [fulfilledEvents, hf] using
      (setRequestFulfilled_change hr).trans (emit_change r _)

variable {price : U96} {error : Option Revert} {delivery : Delivery} {r : State}

/-- The client's balance moves by the difference of the prices. -/
theorem settleClient_change {lockPrice finalPrice : U96} {cut : Bool}
    (h : settleClient lockPrice price client s = .ok (s', finalPrice, cut)) :
    Change s s' id id [] (lockPrice.toNat - finalPrice.toNat) 0 0 0 := by
  unfold settleClient at h
  split_ifs at h with hlt
  · obtain ⟨owes, howes, h⟩ := bind_ok_iff.mp h
    have howes := checkedSub_ok howes
    split_ifs at h with hbal
    · obtain ⟨final, hfinal, h⟩ := bind_ok_iff.mp h
      have hfinal := checkedAdd_ok hfinal
      cases h
      have hdebit := debitBalance_change (s := s) (a := client) (BitVec.le_refl _)
      convert hdebit using 1
      omega
    · cases h
      have hdebit := debitBalance_change (s := s) (a := client) (BitVec.not_lt.mp hbal)
      convert hdebit using 1
      omega
  · obtain ⟨owed, howed, h⟩ := bind_ok_iff.mp h
    have howed := checkedSub_ok howed
    obtain ⟨r, hr, h⟩ := bind_ok_iff.mp h
    cases h
    convert (creditBalance_spec hr).1 using 1
    omega

theorem deliver_change (h : deliver fill prover error s = (s', delivery)) :
    delivery = ⟨error, false⟩ ∧ Change s s' id id
      (errorEvents error ++ [.proofDelivered fill.id prover fill]) 0 0 0 0 := by
  unfold deliver at h
  cases error with
  | none =>
    cases h
    exact ⟨rfl, emit_change s _⟩
  | some e =>
    cases h
    exact ⟨rfl, (emit_change s _).trans (emit_change _ _)⟩

theorem fulfillAndPayLocked_effect (hlocked : (s.flags client idx).1 = true)
    (htime : s.timestamp ≤ (s.requestLocks fill.id).lockDeadline.setWidth 256)
    (h : fulfillAndPayLocked cfg (s.requestLocks fill.id) fill.id client idx fill (s.flags client idx).2 prover s
      = .ok (r, error))
    (hd : deliver fill prover error r = (s', delivery)) :
    FulfillEffect fill prover client idx s s' delivery := by
  obtain ⟨rfl, hdeliver⟩ := deliver_change hd
  unfold fulfillAndPayLocked at h
  split at h
  next hpaid =>
    cases h
    exact .alreadyPaid hlocked hpaid hdeliver
  next hpaid =>
    obtain ⟨q, hq, h⟩ := bind_ok_iff.mp h
    obtain ⟨hmark, hframe⟩ := markFulfilled_spec hq
    split_ifs at h with hother
    · cases h
      exact .lockedOut hlocked hother (by simpa [errorEvents] using hmark.trans hdeliver)
    · simp only [payout_eq, bind_ok_iff, Except.ok.injEq, Prod.exists, Prod.mk.injEq] at h
      obtain ⟨_, _, ⟨rfl, rfl⟩, q1, hq1, q2, hq2, h⟩ := h
      cases h
      obtain ⟨hbal, hbal1, hbal2⟩ := creditBalance_spec hq1
      obtain ⟨hcol, hcol1, hcol2⟩ := creditCollateral_spec hq2
      obtain ⟨hprover, hdigest⟩ := not_or.mp hother
      refine .paidLocked hlocked htime (by simpa using hpaid) (not_not.mp hprover) (not_not.mp hdigest) ?_ ?_
      · simpa [errorEvents] using
          (((hmark.trans (modifyLock_change q fill.id _)).trans hbal).trans hcol).trans hdeliver
      · have hacc : s'.accounts = r.accounts := by
          cases hd
          rfl
        refine ⟨?_, ?_⟩
        · rw [hacc, hcol2, hbal1]
          simp [modifyLock, setLock, hframe]
        · rw [hacc, hcol1, hbal2]
          simp [modifyLock, setLock, hframe]

theorem fulfillAndPayWasLocked_effect (hlocked : (s.flags client idx).1 = true)
    (htime : ¬ s.timestamp ≤ (s.requestLocks fill.id).lockDeadline.setWidth 256)
    (h : fulfillAndPayWasLocked cfg (s.requestLocks fill.id) fill.id client idx price fill
      (s.flags client idx).2 prover s = .ok (r, error))
    (hd : deliver fill prover error r = (s', delivery)) :
    FulfillEffect fill prover client idx s s' delivery := by
  obtain ⟨rfl, hdeliver⟩ := deliver_change hd
  unfold fulfillAndPayWasLocked at h
  split at h
  next hpaid =>
    cases h
    exact .alreadyPaid hlocked hpaid hdeliver
  next hpaid =>
    obtain ⟨q, hq, h⟩ := bind_ok_iff.mp h
    obtain ⟨hmark, -⟩ := markFulfilled_spec hq
    simp only [payout_eq, bind_ok_iff, Except.ok.injEq, Prod.exists, Prod.mk.injEq] at h
    obtain ⟨q1, finalPrice, cut, hsettle, _, _, ⟨rfl, rfl⟩, q2, hq2, h⟩ := h
    cases h
    have hpay := ((hmark.trans (settleClient_change hsettle)).trans
      (modifyLock_change q1 fill.id _)).trans (creditBalance_spec hq2).1
    refine .paidLate _ _ hlocked htime (by simpa using hpaid) ?_ (by simpa using hpay.trans hdeliver)
    cases cut
    · exact .inl ⟨rfl, rfl⟩
    · exact .inr ⟨_, _, rfl, rfl⟩

theorem fulfillAndPayNeverLocked_effect (hlocked : (s.flags client idx).1 = false)
    (h : fulfillAndPayNeverLocked cfg fill.id client idx price fill (s.flags client idx).2 prover s
      = .ok (r, error))
    (hd : deliver fill prover error r = (s', delivery)) :
    FulfillEffect fill prover client idx s s' delivery := by
  obtain ⟨rfl, hdeliver⟩ := deliver_change hd
  unfold fulfillAndPayNeverLocked at h
  split at h
  next hful =>
    cases h
    exact .alreadyFulfilled (Prod.ext hlocked hful) hdeliver
  next hful =>
    have hflags : s.flags client idx = (false, false) := Prod.ext hlocked (by simpa using hful)
    obtain ⟨q, hq, h⟩ := bind_ok_iff.mp h
    obtain ⟨hmark, hframe⟩ := markFulfilled_spec (s := s) (by rw [hflags]; exact hq)
    split_ifs at h with hbal
    · cases h
      exact .unfunded hflags (by simpa [errorEvents] using hmark.trans hdeliver)
    · simp only [payout_eq, bind_ok_iff, Except.ok.injEq, Prod.exists, Prod.mk.injEq] at h
      obtain ⟨_, _, ⟨rfl, rfl⟩, q1, hq1, h⟩ := h
      cases h
      have hdebit := debitBalance_change (BitVec.not_lt.mp hbal)
      exact .paidUnlocked hflags
        (by simpa [errorEvents] using ((hmark.trans hdebit).trans (creditBalance_spec hq1).1).trans hdeliver)

theorem authenticate_ok {locked expired : Bool}
    (h : authenticate fill locked (if locked then s.requestLocks fill.id else .empty) s = .ok expired) :
    Authentic s fill locked expired := by
  unfold authenticate at h
  by_cases hvalid : (s.loadContext fill.requestDigest).valid = true
  · rw [if_pos hvalid] at h
    cases h
    exact .inl ⟨hvalid, rfl⟩
  · rw [if_neg hvalid] at h
    cases locked with
    | false => simp at h
    | true =>
      simp only [↓reduceIte, true_and] at h
      split_ifs at h with hdigest
      obtain ⟨deadline, hd, h⟩ := bind_ok_iff.mp h
      cases h
      exact .inr ⟨by simpa using hvalid, rfl, hdigest, deadline, hd, rfl⟩

theorem pay_effect (h : pay cfg fill client idx (s.flags client idx).1 (s.flags client idx).2
      (if (s.flags client idx).1 then s.requestLocks fill.id else .empty) prover s = .ok (r, error))
    (hd : deliver fill prover error r = (s', delivery)) :
    FulfillEffect fill prover client idx s s' delivery := by
  unfold pay at h
  split_ifs at h with hlocked htime
  · exact fulfillAndPayLocked_effect hlocked htime h hd
  · exact fulfillAndPayWasLocked_effect hlocked htime h hd
  · exact fulfillAndPayNeverLocked_effect (by simpa using hlocked) h hd

theorem fulfillAndPay_effect (h : fulfillAndPay cfg fill prover s = .ok (s', delivery)) :
    ∃ client idx, clientAndIndex fill.id = .ok (client, idx) ∧
      Authentic s fill (s.flags client idx).1 delivery.expired ∧
      FulfillEffect fill prover client idx s s' delivery := by
  obtain ⟨⟨client, idx⟩, hid, h⟩ := bind_ok_iff.mp h
  refine ⟨client, idx, hid, ?_⟩
  obtain ⟨locked, hlocked⟩ : ∃ locked, (s.flags client idx).1 = locked := ⟨_, rfl⟩
  obtain ⟨fulfilled, hfulfilled⟩ : ∃ fulfilled, (s.flags client idx).2 = fulfilled := ⟨_, rfl⟩
  have hflags : s.flags client idx = (locked, fulfilled) := Prod.ext hlocked hfulfilled
  simp only [hflags] at h ⊢
  obtain ⟨expired, hexp, h⟩ := bind_ok_iff.mp h
  have hauth := authenticate_ok hexp
  by_cases he : expired = true
  · rw [if_pos he] at h
    cases h
    exact ⟨he ▸ hauth, .expired (emit_change s _)⟩
  · rw [if_neg he] at h
    obtain ⟨⟨r, error⟩, hr, h⟩ := bind_ok_iff.mp h
    have hd : deliver fill prover error r = (s', delivery) := by
      cases h
      rfl
    obtain rfl := (deliver_change hd).1
    rw [← hlocked, ← hfulfilled] at hr
    exact ⟨by simpa [he] using hauth, pay_effect hr hd⟩

end Fulfill

section LockAndSlash

variable {cfg : Config} {s s' : State}

/-- The lock that a request gets: nothing is paid or slashed yet, and its deadline
is the validated deadline of the request. -/
structure FreshLock (cfg : Config) (request : ProofRequest) (timestamp : U256) (lock : RequestLock) : Prop where
  requestLockFlags : lock.requestLockFlags = 0
  requestDigest : lock.requestDigest = requestHash cfg request
  inTime : timestamp ≤ lock.lockDeadline.setWidth 256
  deadline : ∃ deadline, request.validate = .ok (lock.lockDeadline, deadline) ∧ lock.deadline = .ok deadline
  price : ∃ price, request.offer.priceAt (timestamp.setWidth 64) = .ok price ∧ lock.price.toNat = price.toNat
  collateral : lock.collateral.toNat = request.offer.lockCollateral.toNat

variable {lockDeadline deadline : U64} {lock : RequestLock} {transferValue : U96}

/-- The delta kept in the lock restores the deadline. -/
theorem deadline_of_delta {range : U64} {delta : U24}
    (hrange : checkedSub Revert.arithmeticPanic deadline lockDeadline = .ok range)
    (hdelta : toUint24 (range.setWidth 256) = .ok delta)
    (hl : lock.lockDeadline = lockDeadline) (hd : lock.deadlineDelta = delta) : lock.deadline = .ok deadline := by
  have h1 := checkedSub_ok hrange
  have h2 := safeCast_ok hdelta
  have h3 : (delta.setWidth 64).toNat = range.toNat := by
    rw [BitVec.toNat_setWidth, h2, BitVec.toNat_setWidth]
    omega
  have hlt := deadline.isLt
  rw [RequestLock.deadline, hl, hd, checkedAdd_eq_ok (by omega), Except.ok.injEq]
  apply BitVec.eq_of_toNat_eq
  rw [BitVec.toNat_add_of_lt (by omega)]
  omega

theorem lockRequestFor_effect {request : ProofRequest} {signature : Bytes} {client prover : Address} {idx : U32}
    (hvalid : request.validate = .ok (lockDeadline, deadline))
    (h : lockRequestFor request signature (requestHash cfg request) client idx prover lockDeadline deadline s
      = .ok s') :
    ∃ lock, lock.prover = prover ∧ FreshLock cfg request s.timestamp lock ∧
      s.flags client idx = (false, false) ∧
      Change s s' (raiseFlags client idx true false) (rewriteLock request.id fun _ => lock)
        [.requestLocked request.id prover request signature] (-lock.price.toNat) (-lock.collateral.toNat) 0 0 := by
  obtain ⟨locked, hlocked⟩ : ∃ locked, (s.flags client idx).1 = locked := ⟨_, rfl⟩
  obtain ⟨fulfilled, hfulfilled⟩ : ∃ fulfilled, (s.flags client idx).2 = fulfilled := ⟨_, rfl⟩
  have hflags : s.flags client idx = (locked, fulfilled) := Prod.ext hlocked hfulfilled
  simp only [lockRequestFor, hflags, bind_ok_iff, require_ok_iff] at h
  obtain ⟨_, rfl, _, rfl, _, htime, price, hprice, price96, hprice96, _, hbal, _, hcol, collateral, hcollateral,
    range, hrange, delta, hdelta, r, hr, h⟩ := h
  cases h
  have hc : collateral.toNat = request.offer.lockCollateral.toNat := safeCast_ok hcollateral
  have hp : price96.toNat = price.toNat := safeCast_ok hprice96
  refine ⟨⟨prover, lockDeadline, delta, 0, price96, collateral, requestHash cfg request⟩, rfl,
    ⟨rfl, rfl, htime, ⟨deadline, hvalid, deadline_of_delta hrange hdelta rfl rfl⟩, ⟨price, hprice, hp⟩, hc⟩,
    hflags, ?_⟩
  have hdebit := debitBalance_change hbal
  have hcol' : collateral ≤ ((s.debitBalance client price96).accounts prover).collateralBalance := by
    have hsame : ((s.debitBalance client price96).accounts prover).collateralBalance =
        (s.accounts prover).collateralBalance := by
      by_cases hp : prover = client
      · subst hp
        simp [debitBalance, setAccount]
      · simp [debitBalance, setAccount, Function.update_of_ne hp]
    rw [hsame, BitVec.le_def, hc]
    rw [BitVec.le_def, BitVec.toNat_setWidth] at hcol
    omega
  simpa using (((hdebit.trans (debitCollateral_change hcol')).trans
    (modifyLock_change _ request.id fun _ =>
      ⟨prover, lockDeadline, delta, 0, price96, collateral, requestHash cfg request⟩)).trans (setRequestLocked_change hr)).trans
    (emit_change r _)

theorem slashShares_ok {collateral : U96} {burnValue : U256}
    (h : slashShares collateral = .ok (burnValue, transferValue)) :
    burnValue.toNat + transferValue.toNat = collateral.toNat := by
  simp only [slashShares, bind_ok_iff] at h
  obtain ⟨product, -, rest, hrest, transfer, htransfer, h⟩ := h
  cases h
  have h1 := checkedSub_ok hrest
  have h2 := safeCast_ok htransfer
  rw [BitVec.toNat_setWidth] at h1
  omega

/-- A slash marks the lock, burns one share of the collateral and credits the
other; the locked price goes back unless it was paid out. -/
structure SlashEffect (requestId : RequestId) (client : Address) (idx : U32) (s s' : State) : Prop where
  locked : (s.flags client idx).1 = true
  unslashed : (s.requestLocks requestId).isSlashed = false
  unpaid : (s.requestLocks requestId).isProverPaidBeforeLockDeadline = false
  late : ∃ deadline, (s.requestLocks requestId).deadline = .ok deadline ∧ deadline.setWidth 256 < s.timestamp
  change : ∃ (burnValue : U256) (transferValue : U96) (recipient : Address),
    burnValue.toNat + transferValue.toNat = (s.requestLocks requestId).collateral.toNat ∧
    Change s s' id (rewriteLock requestId RequestLock.setSlashed)
      [.proverSlashed requestId burnValue transferValue recipient]
      (if (s.requestLocks requestId).isProverPaidAfterLockDeadline then 0
        else (s.requestLocks requestId).price.toNat) transferValue.toNat 0 (-burnValue.toNat)

theorem creditShare_change {client recipient : Address}
    (h : creditShare cfg lock client transferValue s = .ok (s', recipient)) :
    Change s s' id id [] (if lock.isProverPaidAfterLockDeadline then 0 else lock.price.toNat)
      transferValue.toNat 0 0 := by
  unfold creditShare at h
  split_ifs at h ⊢ with hafter
  · obtain ⟨r, hr, h⟩ := bind_ok_iff.mp h
    cases h
    exact (creditCollateral_spec hr).1
  · simp only [bind_ok_iff] at h
    obtain ⟨r, hr, q, hq, h⟩ := h
    cases h
    simpa using (creditCollateral_spec hr).1.trans (creditBalance_spec hq).1

theorem slash_effect {requestId : RequestId} (h : slash cfg requestId s = .ok s') :
    ∃ client idx, clientAndIndex requestId = .ok (client, idx) ∧ SlashEffect requestId client idx s s' := by
  obtain ⟨⟨client, idx⟩, hid, h⟩ := bind_ok_iff.mp h
  refine ⟨client, idx, hid, ?_⟩
  simp only [bind_ok_iff, require_ok_iff, Prod.exists] at h
  obtain ⟨_, hlocked, _, hslashed, _, hpaid, deadline, hdeadline, _, hlate, burn, transfer, hshares,
    r, recipient, hr, q, hq, h⟩ := h
  cases h
  refine ⟨hlocked, hslashed, hpaid, ⟨deadline, hdeadline, hlate⟩, burn, transfer, recipient,
    slashShares_ok hshares, ?_⟩
  simpa using (((modifyLock_change s requestId RequestLock.setSlashed).trans
    (creditShare_change hr)).trans (transferTokens_change hq)).trans (emit_change q _)

end LockAndSlash

/-- Actions that only move deposits, and events that concern no request. -/
def Action.isMoney : Action → Bool
  | .deposit .. | .depositTo .. | .submitRequest .. | .payOut .. | .logWithdrawal .. | .logCallbackFailed ..
  | .depositCollateral .. | .withdrawCollateral .. => true
  | _ => false

def Event.isMoney : Event → Bool
  | .requestLocked .. | .requestFulfilled .. | .proofDelivered .. | .proverSlashed .. => false
  | _ => true

def Action.locks : Action → Option ProofRequest
  | .lockRequest _ request _ _ => some request
  | .lockRequestWithSignature request _ _ _ => some request
  | _ => none

inductive Effect (cfg : Config) (s s' : State) : Action → Outcome → Prop
  | begin (timestamp : U256) (later : s.timestamp ≤ timestamp)
      (result : s' = { s with timestamp := timestamp, transient := fun _ => 0 }) :
      Effect cfg s s' (.begin timestamp) .done
  /-- What a balance gains, the contract receives. -/
  | money (a : Action) (events : List Event) (value collateral : ℤ) (isMoney : a.isMoney = true)
      (logged : ∀ e ∈ events, e.isMoney = true)
      (change : Change s s' id id events value collateral value collateral) :
      Effect cfg s s' a .done
  | price (request : ProofRequest) (signature : Bytes) (x : External) (lockDeadline deadline : U64)
      (price : U96) (valid : request.validate = .ok (lockDeadline, deadline))
      (result : s' = s.storeContext ⟨true, decide (deadline.setWidth 256 < s.timestamp), price⟩
        (requestHash cfg request)) :
      Effect cfg s s' (.priceRequest request signature x) .done
  | lock (a : Action) (request : ProofRequest) (signature : Bytes) (client : Address) (idx : U32)
      (lock : RequestLock) (locks : a.locks = some request)
      (decoded : clientAndIndex request.id = .ok (client, idx)) (fresh : FreshLock cfg request s.timestamp lock)
      (flags : s.flags client idx = (false, false))
      (change : Change s s' (raiseFlags client idx true false) (rewriteLock request.id fun _ => lock)
        [.requestLocked request.id lock.prover request signature] (-lock.price.toNat)
        (-lock.collateral.toNat) 0 0) :
      Effect cfg s s' a .done
  | fulfill (fill : Fulfillment) (prover client : Address) (idx : U32) (delivery : Delivery)
      (decoded : clientAndIndex fill.id = .ok (client, idx))
      (authentic : Authentic s fill (s.flags client idx).1 delivery.expired)
      (effect : FulfillEffect fill prover client idx s s' delivery) :
      Effect cfg s s' (.fulfillAndPay fill prover) (.delivered delivery)
  | slash (requestId : RequestId) (client : Address) (idx : U32)
      (decoded : clientAndIndex requestId = .ok (client, idx))
      (effect : SlashEffect requestId client idx s s') :
      Effect cfg s s' (.slash requestId) .done

section Act

variable {cfg : Config} {s s' : State}
variable {r : Except Revert State} {o : Outcome} {sender account : Address} {value : U256} {request : ProofRequest} {signature : Bytes}

theorem done_ok (h : done r = .ok (s', o)) : r = .ok s' ∧ o = .done := by
  obtain ⟨q, hq, h⟩ := bind_ok_iff.mp h
  cases h
  exact ⟨hq, rfl⟩

theorem fromOutside_ok (h : fromOutside cfg sender r = .ok s') : r = .ok s' := by
  simp only [fromOutside, bind_ok_iff] at h
  obtain ⟨_, -, h⟩ := h
  exact h

theorem depositTo_change (h : depositTo account value s = .ok s') :
    Change s s' id id [.deposit account value] value.toNat 0 value.toNat 0 := by
  simp only [depositTo, bind_ok_iff] at h
  obtain ⟨amount, hamount, r, hr, h⟩ := h
  cases h
  have hval : amount.toNat = value.toNat := safeCast_ok hamount
  have hin : Change s { s with eth := s.eth + value.toNat } id id [] 0 0 value.toNat 0 := by
    refine ⟨rfl, rfl, ?_, rfl, rfl, ?_, ?_, ?_, ?_⟩ <;> simp [balances, collaterals]
  simpa [hval] using (hin.trans (creditBalance_spec hr).1).trans (emit_change r _)

theorem submitRequest_change (h : submitRequest sender value request signature s = .ok s') :
    ∃ events, (∀ e ∈ events, e.isMoney = true) ∧ ∃ b, Change s s' id id events b 0 b 0 := by
  simp only [submitRequest] at h
  split_ifs at h with hv
  · obtain ⟨r, hr, h⟩ := bind_ok_iff.mp h
    cases h
    refine ⟨[.deposit sender value, .requestSubmitted request.id request signature], by simp [Event.isMoney],
      value.toNat, ?_⟩
    simpa using (depositTo_change hr).trans (emit_change r _)
  · cases h
    exact ⟨_, by simp [Event.isMoney], _, emit_change s _⟩

theorem payOut_change (h : payOut cfg account value s = .ok s') :
    Change s s' id id [] (-value.toNat) 0 (-value.toNat) 0 := by
  simp only [payOut, bind_ok_iff, require_ok_iff] at h
  obtain ⟨amount, hamount, _, hle, _, ⟨-, hheld⟩, h⟩ := h
  cases h
  have hval : amount.toNat = value.toNat := safeCast_ok hamount
  have hout (r : State) (hr : value.toNat ≤ r.eth) :
      Change r { r with eth := r.eth - value.toNat } id id [] 0 0 (-value.toNat) 0 := by
    refine ⟨rfl, rfl, by simp, rfl, rfl, by simp [balances], by simp [collaterals], ?_, by simp⟩
    push_cast [Nat.cast_sub hr]
    ring
  simpa [hval] using (debitBalance_change hle).trans (hout _ hheld)

theorem depositCollateral_change {transferred : Bool} (h : depositCollateral sender value transferred s = .ok s') :
    Change s s' id id [.collateralDeposit sender value] 0 value.toNat 0 value.toNat := by
  simp only [depositCollateral, bind_ok_iff] at h
  obtain ⟨_, -, amount, hamount, r, hr, h⟩ := h
  cases h
  have hval : amount.toNat = value.toNat := safeCast_ok hamount
  have hin : Change s { s with tokens := s.tokens + value.toNat } id id [] 0 0 0 value.toNat := by
    refine ⟨rfl, rfl, ?_, rfl, rfl, ?_, ?_, ?_, ?_⟩ <;> simp [balances, collaterals]
  simpa [hval] using (hin.trans (creditCollateral_spec hr).1).trans (emit_change r _)

theorem withdrawCollateral_change (h : withdrawCollateral sender value s = .ok s') :
    Change s s' id id [.collateralWithdrawal sender value] 0 (-value.toNat) 0 (-value.toNat) := by
  simp only [withdrawCollateral, bind_ok_iff, require_ok_iff] at h
  obtain ⟨amount, hamount, _, hle, r, hr, h⟩ := h
  cases h
  have hval : amount.toNat = value.toNat := safeCast_ok hamount
  simpa [hval] using ((debitCollateral_change hle).trans (transferTokens_change hr)).trans
    (emit_change r _)

theorem verifyClientSignature_ok {x : External} {addr : Address}
    {hash digest : Bytes32} (h : verifyClientSignature cfg x request addr signature = .ok (hash, digest)) :
    hash = requestHash cfg request := by
  simp only [verifyClientSignature] at h
  split_ifs at h <;> obtain ⟨_, -, h⟩ := bind_ok_iff.mp h <;> cases h <;> rfl

theorem act_effect {a : Action} (h : act cfg a s = .ok (s', o)) : Effect cfg s s' a o := by
  cases a with
  | fulfillAndPay fill prover =>
    obtain ⟨⟨r, delivery⟩, hr, h⟩ := bind_ok_iff.mp h
    cases h
    obtain ⟨client, idx, hid, hauth, heffect⟩ := fulfillAndPay_effect hr
    exact .fulfill fill prover client idx delivery hid hauth heffect
  | begin timestamp =>
    obtain ⟨hs, rfl⟩ := done_ok h
    simp only [beginTransaction, bind_ok_iff, require_ok_iff] at hs
    obtain ⟨_, hle, hs⟩ := hs
    cases hs
    exact .begin timestamp hle rfl
  | deposit sender value =>
    obtain ⟨hs, rfl⟩ := done_ok h
    exact .money _ _ _ _ rfl (by simp [Event.isMoney]) (depositTo_change (fromOutside_ok hs))
  | depositTo sender account value =>
    obtain ⟨hs, rfl⟩ := done_ok h
    exact .money _ _ _ _ rfl (by simp [Event.isMoney]) (depositTo_change (fromOutside_ok hs))
  | submitRequest sender value request signature =>
    obtain ⟨hs, rfl⟩ := done_ok h
    obtain ⟨events, hevents, b, hb⟩ := submitRequest_change (fromOutside_ok hs)
    exact .money _ _ _ _ rfl hevents hb
  | lockRequest sender request signature x =>
    obtain ⟨hs, rfl⟩ := done_ok h
    have hs := fromOutside_ok hs
    simp only [lockRequest, bind_ok_iff, Prod.exists] at hs
    obtain ⟨client, idx, hid, hash, digest, hsig, lockDeadline, deadline, hvalid, hs⟩ := hs
    obtain rfl := verifyClientSignature_ok hsig
    obtain ⟨lock, rfl, hfresh, hflags, hchange⟩ := lockRequestFor_effect hvalid hs
    exact .lock _ request signature client idx lock rfl hid hfresh hflags hchange
  | lockRequestWithSignature request signature proverSignature x =>
    obtain ⟨hs, rfl⟩ := done_ok h
    simp only [lockRequestWithSignature, bind_ok_iff, Prod.exists] at hs
    obtain ⟨client, idx, hid, hash, digest, hsig, hs⟩ := hs
    obtain rfl := verifyClientSignature_ok hsig
    split at hs
    next => cases hs
    next prover _ =>
      simp only [bind_ok_iff, Prod.exists] at hs
      obtain ⟨lockDeadline, deadline, hvalid, hs⟩ := hs
      obtain ⟨lock, rfl, hfresh, hflags, hchange⟩ := lockRequestFor_effect hvalid hs
      exact .lock _ request signature client idx lock rfl hid hfresh hflags hchange
  | priceRequest request signature x =>
    obtain ⟨hs, rfl⟩ := done_ok h
    simp only [priceRequest, bind_ok_iff, Prod.exists] at hs
    obtain ⟨hash, digest, hsig, lockDeadline, deadline, hvalid, price, -, price96, -, hs⟩ := hs
    obtain rfl := verifyClientSignature_ok hsig
    cases hs
    exact .price request signature x lockDeadline deadline price96 hvalid rfl
  | slash requestId =>
    obtain ⟨hs, rfl⟩ := done_ok h
    obtain ⟨client, idx, hid, heffect⟩ := slash_effect hs
    exact .slash requestId client idx hid heffect
  | payOut account value =>
    obtain ⟨hs, rfl⟩ := done_ok h
    exact .money _ _ _ _ rfl (by simp) (payOut_change hs)
  | logWithdrawal account value =>
    obtain ⟨hs, rfl⟩ := done_ok h
    cases hs
    exact .money _ _ _ _ rfl (by simp [Event.isMoney]) (emit_change s _)
  | logCallbackFailed requestId callback =>
    obtain ⟨hs, rfl⟩ := done_ok h
    cases hs
    exact .money _ _ _ _ rfl (by simp [Event.isMoney]) (emit_change s _)
  | depositCollateral sender value transferred =>
    obtain ⟨hs, rfl⟩ := done_ok h
    exact .money _ _ _ _ rfl (by simp [Event.isMoney]) (depositCollateral_change (fromOutside_ok hs))
  | withdrawCollateral sender value =>
    obtain ⟨hs, rfl⟩ := done_ok h
    exact .money _ _ _ _ rfl (by simp [Event.isMoney]) (withdrawCollateral_change (fromOutside_ok hs))

end Act

end VerifiableCompute.Market
