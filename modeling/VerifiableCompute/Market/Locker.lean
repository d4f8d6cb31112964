import VerifiableCompute.Market.Solvency

/-! The locker's guarantee. Between the lock and its deadline nothing but the
locker's own fulfilment can touch the lock; that fulfilment is paid in full, and a
paid lock is final. -/

namespace VerifiableCompute.Market

open Lib BitVec

/-- The fulfilment reached its credit to the prover: nothing was wrong, or the
client's balance covered the price only in part. -/
def Delivery.paid (d : Delivery) : Bool :=
  match d.expired, d.paymentError with
  | false, none => true
  | false, some (.partialPayment _ _) => true
  | _, _ => false

/-- The step is a fulfilment that paid a prover for a request with this property. -/
def Step.pays (p : RequestId → Bool) : Step → Bool
  | (.fulfillAndPay fill _, .delivered d) => p fill.id && d.paid
  | _ => false

def Action.prices : Action → Option ProofRequest
  | .priceRequest request _ _ => some request
  | _ => none

theorem loadContext_of_zero (s : State) (digest : Bytes32) (h : s.transient digest = 0) :
    (s.loadContext digest).valid = false := by
  rw [State.loadContext, h]
  exact FulfillmentContext.unpack_zero

theorem loadContext_storeContext (s : State) (context : FulfillmentContext) (digest : Bytes32) :
    (s.storeContext context digest).loadContext digest = context := by
  simp [State.loadContext, State.storeContext, FulfillmentContext.unpack_pack]

theorem loadContext_storeContext_of_ne (s : State) (context : FulfillmentContext) {digest d : Bytes32}
    (h : d ≠ digest) : (s.storeContext context digest).loadContext d = s.loadContext d := by
  simp [State.loadContext, State.storeContext, Function.update_of_ne h]

/-- Valid contexts belong to requests priced before, and know the time. -/
def ContextsPriced (cfg : Config) (t : List Step) (s : State) : Prop :=
  ∀ digest, (s.loadContext digest).valid = true → ∃ step ∈ t, ∃ request lockDeadline deadline,
    step.1.prices = some request ∧ requestHash cfg request = digest ∧
    request.validate = .ok (lockDeadline, deadline) ∧
    (s.loadContext digest).expired = decide (deadline.setWidth 256 < s.timestamp)

section Contexts

variable {cfg : Config} {s s' : State} {a : Action} {o : Outcome}

theorem Effect.contexts (h : Effect cfg s s' a o) : (∀ digest, s'.transient digest = 0) ∨
    (∃ request lockDeadline deadline price, a.prices = some request ∧
      request.validate = .ok (lockDeadline, deadline) ∧
      s' = s.storeContext ⟨true, decide (deadline.setWidth 256 < s.timestamp), price⟩ (requestHash cfg request)) ∨
    (s'.transient = s.transient ∧ s'.timestamp = s.timestamp) := by
  cases h with
  | begin timestamp later result =>
    subst result
    exact .inl fun _ => rfl
  | price request signature x lockDeadline deadline price valid result =>
    exact .inr (.inl ⟨request, lockDeadline, deadline, price, rfl, valid, result⟩)
  | money a events value collateral isMoney logged change => exact .inr (.inr ⟨change.transient, change.timestamp⟩)
  | lock a request signature client idx lock locks decoded fresh flags change =>
    exact .inr (.inr ⟨change.transient, change.timestamp⟩)
  | fulfill fill prover client idx delivery decoded authentic effect =>
    cases effect with
    | expired change | alreadyPaid _ _ change | lockedOut _ _ change | alreadyFulfilled _ change
    | unfunded _ change | paidUnlocked _ change | paidLocked _ _ _ _ _ change _
    | paidLate _ _ _ _ _ _ change => exact .inr (.inr ⟨change.transient, change.timestamp⟩)
  | slash requestId client idx decoded effect =>
    obtain ⟨_, _, _, -, change⟩ := effect.change
    exact .inr (.inr ⟨change.transient, change.timestamp⟩)

theorem contextsPriced_of_replay {t : List Step} (h : Replay (act cfg) .initial t s) : ContextsPriced cfg t s := by
  refine replay_induction (P := ContextsPriced cfg) ?_ ?_ h
  · intro digest hvalid
    simp [loadContext_of_zero .initial digest rfl] at hvalid
  · intro t r a o r' hr ih ha digest hvalid
    rcases (act_effect ha).contexts with hzero | ⟨request, lockDeadline, deadline, price, hp, hv, rfl⟩ | ⟨htr, hts⟩
    · simp [loadContext_of_zero _ _ (hzero digest)] at hvalid
    · by_cases hd : digest = requestHash cfg request
      · subst hd
        refine ⟨(a, o), by simp, request, lockDeadline, deadline, hp, rfl, hv, ?_⟩
        rw [loadContext_storeContext]
        rfl
      · have hsame := loadContext_storeContext_of_ne r
          ⟨true, decide (deadline.setWidth 256 < r.timestamp), price⟩ hd
        rw [hsame] at hvalid
        obtain ⟨step, hstep, q, l, d, h1, h2, h3, h4⟩ := ih digest hvalid
        exact ⟨step, by simp [hstep], q, l, d, h1, h2, h3, by rw [hsame, h4]; rfl⟩
    · have hsame : r'.loadContext digest = r.loadContext digest := by rw [State.loadContext, htr, State.loadContext]
      rw [hsame] at hvalid
      obtain ⟨step, hstep, q, l, d, h1, h2, h3, h4⟩ := ih digest hvalid
      exact ⟨step, by simp [hstep], q, l, d, h1, h2, h3, by rw [hsame, h4, hts]⟩

end Contexts

section Kept

variable {cfg : Config} {s s' : State} {a : Action} {o : Outcome} {id : RequestId} {client : Address} {idx : U32}
  {lock : RequestLock}

theorem Effect.lock_kept (h : Effect cfg s s' a o) (hid : clientAndIndex id = .ok (client, idx))
    (hlocked : (s.flags client idx).1 = true) (htime : s'.timestamp ≤ (s.requestLocks id).lockDeadline.setWidth 256)
    (hdeadline : ∃ deadline, (s.requestLocks id).deadline = .ok deadline ∧ (s.requestLocks id).lockDeadline ≤ deadline)
    (hother : ∀ fill, a = .fulfillAndPay fill (s.requestLocks id).prover → fill.id = id →
      fill.requestDigest ≠ (s.requestLocks id).requestDigest) :
    s'.requestLocks id = s.requestLocks id := by
  have hle := h.timestamp_le
  cases h with
  | begin timestamp later result => subst result; rfl
  | money a events value collateral isMoney logged change => rw [change.requestLocks, id_eq]
  | price request signature x lockDeadline deadline price valid result => subst result; rfl
  | lock a request signature c i lock locks decoded fresh flags change =>
    have hne : id ≠ request.id := by
      rintro rfl
      cases hid.symm.trans decoded
      simp [flags] at hlocked
    rw [change.requestLocks, rewriteLock_of_ne hne]
  | fulfill fill prover c i delivery decoded authentic effect =>
    cases effect with
    | expired change | alreadyPaid _ _ change | lockedOut _ _ change | alreadyFulfilled _ change
    | unfunded _ change | paidUnlocked _ change => rw [change.requestLocks, id_eq]
    | paidLocked locked inTime unpaid locker digest change credited =>
      have hne : id ≠ fill.id := by
        rintro rfl
        subst locker
        exact hother fill rfl rfl digest.symm
      rw [change.requestLocks, rewriteLock_of_ne hne]
    | paidLate error events locked late unpaid logged change =>
      have hne : id ≠ fill.id := by
        rintro rfl
        exact late (BitVec.le_trans hle htime)
      rw [change.requestLocks, rewriteLock_of_ne hne]
  | slash requestId c i decoded effect =>
    obtain ⟨_, _, _, -, change⟩ := effect.change
    have hne : id ≠ requestId := by
      rintro rfl
      obtain ⟨deadline, hd, hdl⟩ := hdeadline
      obtain ⟨d', hd', hlate⟩ := effect.late
      cases hd.symm.trans hd'
      rw [le_def] at hle htime hdl
      rw [lt_def] at hlate
      rw [toNat_setWidth] at htime hlate
      omega
    rw [change.requestLocks, rewriteLock_of_ne hne]

theorem lock_kept_replay {u : List Step} (hid : clientAndIndex id = .ok (client, idx))
    (hlocked : (s.flags client idx).1 = true) (hlock : s.requestLocks id = lock)
    (hdeadline : ∃ deadline, lock.deadline = .ok deadline ∧ lock.lockDeadline ≤ deadline) (h : Replay (act cfg) s u s')
    (hfirst : ∀ fill o, (.fulfillAndPay fill lock.prover, o) ∈ u → fill.id = id →
      fill.requestDigest ≠ lock.requestDigest)
    (htime : s'.timestamp ≤ lock.lockDeadline.setWidth 256) :
    (s'.flags client idx).1 = true ∧ s'.requestLocks id = lock := by
  refine replay_induction (P := fun u s' =>
    (∀ fill o, (.fulfillAndPay fill lock.prover, o) ∈ u → fill.id = id →
      fill.requestDigest ≠ lock.requestDigest) →
    s'.timestamp ≤ lock.lockDeadline.setWidth 256 →
    (s'.flags client idx).1 = true ∧ s'.requestLocks id = lock) ?_ ?_ h hfirst htime
  · exact fun _ _ => ⟨hlocked, hlock⟩
  · intro u r a o r' _ ih ha hfirst htime
    have heffect := act_effect ha
    obtain ⟨hl, hr⟩ := ih (fun fill o hmem => hfirst fill o (by simp [hmem]))
      (BitVec.le_trans heffect.timestamp_le htime)
    refine ⟨heffect.rewrites.locked_mono hl, ?_⟩
    rw [← hr] at hdeadline htime hfirst ⊢
    refine heffect.lock_kept hid hl htime hdeadline fun fill hfill => ?_
    subst hfill
    exact hfirst fill o (by simp)

theorem Effect.paid_final (h : Effect cfg s s' a o) (hid : clientAndIndex id = .ok (client, idx))
    (hlocked : (s.flags client idx).1 = true) (hpaid : (s.requestLocks id).isProverPaidBeforeLockDeadline = true) :
    s'.requestLocks id = s.requestLocks id ∧ Step.pays (· = id) (a, o) = false := by
  have hp : (s.requestLocks id).isProverPaid = true := by simp [RequestLock.isProverPaid, hpaid]
  cases h with
  | begin timestamp later result => subst result; exact ⟨rfl, rfl⟩
  | money a events value collateral isMoney logged change =>
    refine ⟨by rw [change.requestLocks, id_eq], ?_⟩
    cases a <;> simp_all [Action.isMoney, Step.pays]
  | price request signature x lockDeadline deadline price valid result => subst result; exact ⟨rfl, rfl⟩
  | lock a request signature c i lock locks decoded fresh flags change =>
    have hne : id ≠ request.id := by
      rintro rfl
      cases hid.symm.trans decoded
      simp [flags] at hlocked
    refine ⟨by rw [change.requestLocks, rewriteLock_of_ne hne], ?_⟩
    cases a <;> simp_all [Action.locks, Step.pays]
  | fulfill fill prover c i delivery decoded authentic effect =>
    by_cases hfill : fill.id = id
    · subst hfill
      cases hid.symm.trans decoded
      cases effect with
      | expired change | alreadyPaid _ _ change | lockedOut _ _ change | alreadyFulfilled _ change
      | unfunded _ change => exact ⟨by rw [change.requestLocks, id_eq], by simp [Step.pays, Delivery.paid]⟩
      | paidUnlocked flags change => simp [flags] at hlocked
      | paidLocked _ _ unpaid | paidLate _ _ _ _ unpaid => simp [hp] at unpaid
    · refine ⟨?_, by simp [Step.pays, hfill]⟩
      cases effect with
      | expired change | alreadyPaid _ _ change | lockedOut _ _ change | alreadyFulfilled _ change
      | unfunded _ change | paidUnlocked _ change => rw [change.requestLocks, id_eq]
      | paidLocked _ _ _ _ _ change _ | paidLate _ _ _ _ _ _ change =>
        rw [change.requestLocks, rewriteLock_of_ne (Ne.symm hfill)]
  | slash requestId c i decoded effect =>
    obtain ⟨_, _, _, -, change⟩ := effect.change
    have hne : id ≠ requestId := by
      rintro rfl
      simp [effect.unpaid] at hpaid
    exact ⟨by rw [change.requestLocks, rewriteLock_of_ne hne], rfl⟩

theorem paid_final_replay {w : List Step} (hid : clientAndIndex id = .ok (client, idx))
    (hlocked : (s.flags client idx).1 = true)
    (hpaid : (s.requestLocks id).isProverPaidBeforeLockDeadline = true) (h : Replay (act cfg) s w s') :
    (s'.flags client idx).1 = true ∧ (s'.requestLocks id).isProverPaidBeforeLockDeadline = true ∧
      ∀ step ∈ w, Step.pays (· = id) step = false := by
  refine replay_induction (P := fun w s' => (s'.flags client idx).1 = true ∧
    (s'.requestLocks id).isProverPaidBeforeLockDeadline = true ∧
      ∀ step ∈ w, Step.pays (· = id) step = false) ⟨hlocked, hpaid, by simp⟩ ?_ h
  rintro w r a o r' - ⟨hl, hp, hw⟩ ha
  have heffect := act_effect ha
  obtain ⟨hsame, hquiet⟩ := heffect.paid_final hid hl hp
  refine ⟨heffect.rewrites.locked_mono hl, by rw [hsame, hp], fun step hstep => ?_⟩
  rcases List.mem_append.mp hstep with hstep | hstep
  · exact hw step hstep
  · rw [List.mem_singleton.mp hstep, hquiet]

end Kept

section Fulfilment

variable {cfg : Config} {r : State} {fill : Fulfillment} {client : Address} {idx : U32}

/-- The fill is the locked request, in time, by a locker that was not paid yet. -/
structure LockerFill (r : State) (fill : Fulfillment) (client : Address) (idx : U32) : Prop where
  decoded : clientAndIndex fill.id = .ok (client, idx)
  locked : (r.flags client idx).1 = true
  unpaid : (r.requestLocks fill.id).isProverPaid = false
  digest : (r.requestLocks fill.id).requestDigest = fill.requestDigest
  inTime : r.timestamp ≤ (r.requestLocks fill.id).lockDeadline.setWidth 256
  deadline : ∃ deadline, (r.requestLocks fill.id).deadline = .ok deadline ∧
    (r.requestLocks fill.id).lockDeadline ≤ deadline
  /-- If the request was priced in this transaction, then not as expired. -/
  priced : (r.loadContext fill.requestDigest).valid = true → (r.loadContext fill.requestDigest).expired = false

theorem not_expired_of_inTime {timestamp : U256} {lockDeadline deadline : U64}
    (htime : timestamp ≤ lockDeadline.setWidth 256) (hle : lockDeadline ≤ deadline) :
    decide (deadline.setWidth 256 < timestamp) = false := by
  rw [decide_eq_false_iff_not, BitVec.not_lt, le_def]
  rw [le_def] at htime hle
  rw [toNat_setWidth] at htime ⊢
  have := deadline.isLt
  omega

namespace LockerFill

section

variable (h : LockerFill r fill client idx)

include h

theorem not_expired {expired : Bool} (hauth : Authentic r fill (r.flags client idx).1 expired) : expired = false := by
  rcases hauth with ⟨hvalid, rfl⟩ | ⟨-, -, -, d, hd, rfl⟩
  · exact h.priced hvalid
  · obtain ⟨deadline, hdeadline, hle⟩ := h.deadline
    cases hdeadline.symm.trans hd
    exact not_expired_of_inTime h.inTime hle

theorem paid {r' : State} {o : Outcome}
    (ha : act cfg (.fulfillAndPay fill (r.requestLocks fill.id).prover) r = .ok (r', o)) :
    o = .delivered ⟨none, false⟩ ∧
      Credited r r' (r.requestLocks fill.id).prover (r.requestLocks fill.id).price
        (r.requestLocks fill.id).collateral ∧
      (r'.requestLocks fill.id).isProverPaidBeforeLockDeadline = true := by
  cases act_effect ha with
  | money _ _ _ _ isMoney => simp [Action.isMoney] at isMoney
  | lock _ _ _ _ _ _ locks => simp [Action.locks] at locks
  | fulfill _ _ c i delivery decoded authentic effect =>
    cases h.decoded.symm.trans decoded
    have hexp := h.not_expired authentic
    cases effect with
    | expired change => simp at hexp
    | alreadyPaid _ paid => simp [h.unpaid] at paid
    | lockedOut _ other => simp [h.digest] at other
    | paidLocked _ _ _ _ _ change credited =>
      exact ⟨rfl, credited, by rw [change.requestLocks]; simp⟩
    | paidLate _ _ _ late => exact absurd h.inTime late
    | alreadyFulfilled flags | unfunded flags | paidUnlocked flags =>
      have := h.locked
      simp [flags] at this

theorem authenticate_eq : authenticate fill true (r.requestLocks fill.id) r = .ok false := by
  obtain ⟨deadline, hdeadline, hle⟩ := h.deadline
  unfold authenticate
  split_ifs with hvalid hlocked
  · rw [h.priced hvalid]
  · have hno := not_expired_of_inTime h.inTime hle
    simp only [hdeadline, hno, bind, Except.bind]
    rfl
  · exact absurd ⟨rfl, h.digest⟩ hlocked

end

theorem markFulfilled_ok (id : RequestId) (client : Address) (idx : U32) (fill : Fulfillment) (fulfilled : Bool)
    (prover : Address) (s : State) : ∃ q, markFulfilled id client idx fill fulfilled prover s = .ok q ∧
      ∀ a, (q.accounts a).balance = (s.accounts a).balance ∧
        (q.accounts a).collateralBalance = (s.accounts a).collateralBalance := by
  cases fulfilled with
  | true => exact ⟨s, rfl, fun _ => ⟨rfl, rfl⟩⟩
  | false =>
    obtain ⟨account, ha⟩ := (s.accounts client).setRequestFlags_ok idx 2 (by decide)
    have hset : s.setRequestFulfilled client idx = .ok (s.setAccount client account) := by
      simp only [State.setRequestFulfilled, Account.setRequestFulfilled, ha, bind, Except.bind]
      rfl
    refine ⟨(s.setAccount client account).emit (.requestFulfilled id prover fill.requestDigest), ?_,
      fun a => setRequestFulfilled_balances hset a⟩
    simp only [markFulfilled, hset, bind, Except.bind]
    rfl

theorem creditBalance_ok (s : State) (a : Address) (value : U96)
    (h : (s.accounts a).balance.toNat + value.toNat < 2 ^ 96) : ∃ s', s.creditBalance a value = .ok s' := by
  simp only [State.creditBalance, checkedAdd_eq_ok h, bind, Except.bind]
  exact ⟨_, rfl⟩

theorem creditCollateral_ok (s : State) (a : Address) (value : U96)
    (h : (s.accounts a).collateralBalance.toNat + value.toNat < 2 ^ 96) :
    ∃ s', s.creditCollateral a value = .ok s' := by
  simp only [State.creditCollateral, checkedAdd_eq_ok h, bind, Except.bind]
  exact ⟨_, rfl⟩

theorem fulfillAndPay_of {s q : State} {prover : Address} {locked fulfilled : Bool} {error : Option Revert}
    {lock : RequestLock} (hid : clientAndIndex fill.id = .ok (client, idx))
    (hflags : s.flags client idx = (locked, fulfilled))
    (hlock : (if locked then s.requestLocks fill.id else .empty) = lock)
    (hauth : authenticate fill locked lock s = .ok false)
    (hpay : pay cfg fill client idx locked fulfilled lock prover s = .ok (q, error)) :
    fulfillAndPay cfg fill prover s = .ok ((deliver fill prover error q).1, ⟨error, false⟩) := by
  simp only [fulfillAndPay, hid, bind, Except.bind]
  rw [hflags]
  simp only [hlock, hauth, hpay, Bool.false_eq_true, ↓reduceIte]
  rfl

/-- Nothing but an overflow of the locker's balances stops the fulfilment. -/
theorem succeeds (cfg : Config) (h : LockerFill r fill client idx)
    (hbalance : (r.accounts (r.requestLocks fill.id).prover).balance.toNat +
      (r.requestLocks fill.id).price.toNat < 2 ^ 96)
    (hcollateral : (r.accounts (r.requestLocks fill.id).prover).collateralBalance.toNat +
      (r.requestLocks fill.id).collateral.toNat < 2 ^ 96) :
    ∃ r', fulfillAndPay cfg fill (r.requestLocks fill.id).prover r = .ok (r', ⟨none, false⟩) := by
  obtain ⟨q, hq, hsame⟩ := markFulfilled_ok fill.id client idx fill (r.flags client idx).2 (r.requestLocks fill.id).prover r
  obtain ⟨q1, hq1⟩ := creditBalance_ok (q.modifyLock fill.id RequestLock.setProverPaidBeforeLockDeadline)
    (r.requestLocks fill.id).prover (r.requestLocks fill.id).price
    (by simpa [State.modifyLock, State.setLock, hsame] using hbalance)
  obtain ⟨q2, hq2⟩ := creditCollateral_ok q1 (r.requestLocks fill.id).prover (r.requestLocks fill.id).collateral
    (by simpa [(State.creditBalance_spec hq1).2.2, State.modifyLock, State.setLock, hsame] using hcollateral)
  have hpay : fulfillAndPayLocked cfg (r.requestLocks fill.id) fill.id client idx fill (r.flags client idx).2
      (r.requestLocks fill.id).prover r = .ok (q2, none) := by
    have hmine : ¬ ((r.requestLocks fill.id).prover ≠ (r.requestLocks fill.id).prover ∨
        (r.requestLocks fill.id).requestDigest ≠ fill.requestDigest) := by
      simp [h.digest]
    simp only [fulfillAndPayLocked, h.unpaid, Bool.false_eq_true, ↓reduceIte, hq, hmine, payout_eq, hq1, hq2,
      bind, Except.bind]
    rfl
  have hflags : r.flags client idx = (true, (r.flags client idx).2) := Prod.ext h.locked rfl
  have hlocked : pay cfg fill client idx true (r.flags client idx).2 (r.requestLocks fill.id)
      (r.requestLocks fill.id).prover r = .ok (q2, none) := by
    simp only [pay, h.inTime, ↓reduceIte]
    exact hpay
  exact ⟨_, fulfillAndPay_of h.decoded hflags (if_pos rfl) h.authenticate_eq hlocked⟩

end LockerFill

end Fulfilment

section Guarantee

variable {cfg : Config}

theorem act_fulfillAndPay {fill : Fulfillment} {prover : Address} {s s' : State} {d : Delivery}
    (h : fulfillAndPay cfg fill prover s = .ok (s', d)) :
    act cfg (.fulfillAndPay fill prover) s = .ok (s', .delivered d) := by
  simp only [act, h, bind, Except.bind]
  rfl

theorem locked_of_act {s s' : State} {a : Action} {o : Outcome} {request : ProofRequest}
    (ha : act cfg a s = .ok (s', o)) (hlocks : a.locks = some request) :
    ∃ client idx signature, clientAndIndex request.id = .ok (client, idx) ∧
      (s'.flags client idx).1 = true ∧ FreshLock cfg request s'.timestamp (s'.requestLocks request.id) ∧
      s'.logs = s.logs ++ [.requestLocked request.id (s'.requestLocks request.id).prover request signature] := by
  cases act_effect ha with
  | begin | price | fulfill | slash => simp [Action.locks] at hlocks
  | money _ _ _ _ isMoney => cases a <;> simp_all [Action.isMoney, Action.locks]
  | lock _ request' signature client idx lock locks decoded fresh flags change =>
    cases hlocks.symm.trans locks
    refine ⟨client, idx, signature, decoded, by simp [change.flags], ?_, ?_⟩
    · rw [change.requestLocks, change.timestamp, rewriteLock_self]
      exact fresh
    · rw [change.logs, change.requestLocks, rewriteLock_self]

theorem FreshLock.deadline_le {request : ProofRequest} {timestamp : U256} {lock : RequestLock}
    (h : FreshLock cfg request timestamp lock) :
    ∃ deadline, lock.deadline = .ok deadline ∧ lock.lockDeadline ≤ deadline := by
  obtain ⟨deadline, hvalid, hd⟩ := h.deadline
  exact ⟨deadline, hd, (Offer.validate_ok hvalid).1⟩

/-- The locker's first fulfilment of the request it locked, before the lock
deadline, is paid the locked price and returns the collateral; afterwards the lock
can neither be slashed nor paid again. -/
theorem locker_guarantee (cfg : Config) (txs : List Transaction) (t u : List Step) (a : Action)
    (request : ProofRequest) (s r : State) (fill : Fulfillment) (hlocks : a.locks = some request)
    (hs : Passes cfg txs (t ++ [(a, .done)]) s) (hr : Passes cfg txs (t ++ (a, .done) :: u) r)
    (hkeccak : ∀ step ∈ t ++ (a, .done) :: u, ∀ priced, step.1.prices = some priced →
      priced.NoCollision cfg.keccak256 cfg.domainSeparator request)
    (hid : fill.id = request.id)
    (hdigest : fill.requestDigest = (s.requestLocks request.id).requestDigest)
    (htime : r.timestamp ≤ (s.requestLocks request.id).lockDeadline.setWidth 256)
    (hfirst : ∀ f o, (.fulfillAndPay f (s.requestLocks request.id).prover, o) ∈ u → f.id = request.id →
      f.requestDigest ≠ (s.requestLocks request.id).requestDigest) :
    let lock := s.requestLocks request.id
    FreshLock cfg request s.timestamp lock ∧
    (∀ r' o, act cfg (.fulfillAndPay fill lock.prover) r = .ok (r', o) →
      o = .delivered ⟨none, false⟩ ∧ Credited r r' lock.prover lock.price lock.collateral ∧
      ∀ w q, Replay (act cfg) r' w q →
        (∀ q' o', act cfg (.slash request.id) q ≠ .ok (q', o')) ∧
        ∀ step ∈ w, Step.pays (· = request.id) step = false) ∧
    ((r.accounts lock.prover).balance.toNat + lock.price.toNat < 2 ^ 96 →
      (r.accounts lock.prover).collateralBalance.toNat + lock.collateral.toNat < 2 ^ 96 →
      ∃ r', act cfg (.fulfillAndPay fill lock.prover) r = .ok (r', .delivered ⟨none, false⟩)) := by
  intro lock
  obtain ⟨s0, -, ha⟩ := (replay_snoc _ _ t a .done).mp hs.2
  obtain ⟨client, idx, -, hdecoded, hlocked, hfresh, -⟩ := locked_of_act ha hlocks
  -- the lock is untouched between the two states
  have hu : Replay (act cfg) s u r := by
    obtain ⟨s1, hs1, hu⟩ := (replay_append _ _ (t ++ [(a, .done)]) u).mp (by simpa using hr.2)
    rwa [replay_unique hs1 hs.2] at hu
  obtain ⟨hlocked', hkept⟩ := lock_kept_replay hdecoded hlocked rfl hfresh.deadline_le hu hfirst htime
  have hkept' : r.requestLocks fill.id = lock := by rw [hid, hkept]
  have hfill : LockerFill r fill client idx := by
    refine ⟨hid ▸ hdecoded, hlocked', ?_, ?_, ?_, ?_, ?_⟩
    · rw [hkept', RequestLock.isProverPaid_of_flags_zero hfresh.requestLockFlags]
    · rw [hkept', hdigest]
    · rw [hkept']
      exact htime
    · rw [hkept']
      exact hfresh.deadline_le
    · -- a price for this digest is a price of this very request
      intro hvalid
      obtain ⟨step, hstep, priced, l, d, hp, hhash, hv, hexp⟩ := contextsPriced_of_replay hr.2 _ hvalid
      have hsame : priced = request := by
        refine ProofRequest.eq_of_digest_eq (hkeccak step hstep priced hp) ?_
        exact hhash.trans (hdigest.trans hfresh.requestDigest)
      subst hsame
      obtain ⟨deadline, hvalid', -⟩ := hfresh.deadline
      cases hvalid'.symm.trans hv
      rw [hexp]
      exact not_expired_of_inTime htime (Offer.validate_ok hv).1
  refine ⟨hfresh, fun r' o hact => ?_, fun hb hc => ?_⟩
  · rw [← hkept'] at hact ⊢
    obtain ⟨ho, hcredit, hpaid⟩ := hfill.paid hact
    refine ⟨ho, hcredit, fun w q hw => ?_⟩
    have hlocked'' := (act_effect hact).rewrites.locked_mono hlocked'
    rw [hid] at hpaid
    obtain ⟨-, hstill, hquiet⟩ := paid_final_replay hdecoded hlocked'' hpaid hw
    refine ⟨fun q' o' hslash => ?_, hquiet⟩
    cases act_effect hslash with
    | money _ _ _ _ isMoney => simp [Action.isMoney] at isMoney
    | lock _ _ _ _ _ _ locks => simp [Action.locks] at locks
    | slash _ _ _ _ effect =>
      rw [effect.unpaid] at hstill
      cases hstill
  · rw [← hkept'] at hb hc ⊢
    obtain ⟨r', hr'⟩ := hfill.succeeds cfg hb hc
    exact ⟨r', act_fulfillAndPay hr'⟩

end Guarantee

def sampleFill (id : RequestId) (requestDigest : Bytes32) : Fulfillment := ⟨id, requestDigest, 0, .none, [], []⟩

def sampleReceipt (prover : Address) : AssessorReceipt := ⟨[], [], [], prover⟩

/-- One request is priced and its fill delivered, in a transaction of its own. -/
def sampleFulfilment (timestamp : U256) (requests : List ProofRequest) (fill : Fulfillment) (prover : Address) :
    Transaction where
  timestamp := timestamp
  calls := .cons (.priceAndFulfill (.cons fill .nil true true .nil) (sampleReceipt prover) acceptAll requests
    (requests.map fun _ => [])) .nil

section Sample

variable {c : Chain} {fill : Fulfillment} {prover : Address}

/-- The state in which a new transaction starts. -/
def State.begun (s : State) (timestamp : U256) : State :=
  { s with timestamp := timestamp, transient := fun _ => 0 }

variable {s' s : State} {d : Delivery} {cfg : Config}

theorem sampleFulfilment_exec (timestamp : U256) (requests : List ProofRequest) {c1 : Chain}
    (htime : c.state.timestamp ≤ timestamp)
    (hprice : priceRequests sampleConfig acceptAll requests (requests.map fun _ => [])
      ⟨c.state.begun timestamp, c.history ++ [(.begin timestamp, .done)]⟩ = .ok c1)
    (hfill : fulfillAndPay sampleConfig fill prover c1.state = .ok (s', d)) :
    (sampleFulfilment timestamp requests fill prover).exec sampleConfig c =
      ⟨s', c1.history ++ [(.fulfillAndPay fill prover, .delivered d)]⟩ := by
  have hbegin : c.effect sampleConfig (.begin timestamp) =
      .ok ⟨c.state.begun timestamp, c.history ++ [(.begin timestamp, .done)]⟩ := by
    simp only [Chain.effect, Chain.perform, act, done, beginTransaction, require, htime, ↓reduceIte, bind, Except.bind]
    rfl
  have hperform : c1.perform sampleConfig (.fulfillAndPay fill prover) =
      .ok (⟨s', c1.history ++ [(.fulfillAndPay fill prover, .delivered d)]⟩, .delivered d) := by
    simp only [Chain.perform, act, hfill, bind, Except.bind]
    rfl
  have hverify : verifyDelivery sampleConfig acceptAll [fill] (sampleReceipt prover) c1.state = .ok () := rfl
  have hexec : (Call.priceAndFulfill (.cons fill .nil true true .nil) (sampleReceipt prover) acceptAll requests
      (requests.map fun _ => [])).exec sampleConfig
      ⟨c.state.begun timestamp, c.history ++ [(.begin timestamp, .done)]⟩ =
      .ok ⟨s', c1.history ++ [(.fulfillAndPay fill prover, .delivered d)]⟩ := by
    have hprover : (sampleReceipt prover).prover = prover := rfl
    have hcallback : callbackOf (sampleReceipt prover).callbacks 0 = none := rfl
    simp only [Call.priceAndFulfill, Call.exec, Calls.exec, hprice, bind, Except.bind, Fills.calldata, hverify,
      Fills.exec, hprover, hperform, hcallback, Bool.false_eq_true, false_and, ↓reduceIte]
    rfl
  simp only [Transaction.exec, sampleFulfilment, hbegin, Calls.exec, hexec]

theorem balance_le_eth {t : List Step} (h : Replay (act cfg) .initial t s) (a : Address) :
    (s.accounts a).balance.toNat ≤ s.eth ∧ (s.accounts a).collateralBalance.toNat ≤ s.tokens := by
  have hb : (s.accounts a).balance.toNat ≤ s.balances := le_total (fun a : Account => a.balance.toNat) s.accounts a
  have hc : (s.accounts a).collateralBalance.toNat ≤ s.collaterals :=
    le_total (fun a : Account => a.collateralBalance.toNat) s.accounts a
  obtain ⟨heth, htokens⟩ := Solvent.of_replay h
  omega

def sampleLocked : Chain := run sampleConfig [sampleLocking]

def sampleLockedFill : Fulfillment :=
  sampleFill sampleId (sampleLocked.state.requestLocks sampleId).requestDigest

/-- In any state that still holds the sample lock the locker can deliver. -/
theorem sampleLocker_fill (hlocked : (c.state.flags 1 7).1 = true)
    (hlock : c.state.requestLocks sampleId = sampleLocked.state.requestLocks sampleId) :
    LockerFill (c.state.begun 120) sampleLockedFill 1 7 := by
  have hlock' : (c.state.begun 120).requestLocks sampleLockedFill.id = sampleLocked.state.requestLocks sampleId := hlock
  refine ⟨by decide, hlocked, ?_, ?_, ?_, ?_, ?_⟩
  · rw [hlock']
    decide
  · rw [hlock', sampleLockedFill, sampleFill]
  · rw [hlock']
    change 120 ≤ (sampleLocked.state.requestLocks sampleId).lockDeadline.setWidth 256
    decide
  · rw [hlock']
    exact ⟨200, by decide, by decide⟩
  · intro hvalid
    have hnone := loadContext_of_zero (c.state.begun 120) sampleLockedFill.requestDigest rfl
    rw [hnone] at hvalid
    cases hvalid

theorem sampleLocker_paid (h : Replay (act sampleConfig) .initial c.history c.state)
    (hlocked : (c.state.flags 1 7).1 = true)
    (hlock : c.state.requestLocks sampleId = sampleLocked.state.requestLocks sampleId)
    (heth : c.state.eth = 10) (htokens : c.state.tokens = 5) (htime : c.state.timestamp ≤ 120) :
    ∃ s', fulfillAndPay sampleConfig sampleLockedFill 2 (c.state.begun 120) = .ok (s', ⟨none, false⟩) ∧
      (s'.requestLocks sampleId).isProverPaidBeforeLockDeadline = true ∧
      (sampleFulfilment 120 [] sampleLockedFill 2).exec sampleConfig c =
        ⟨s', c.history ++ [(.begin 120, .done), (.fulfillAndPay sampleLockedFill 2, .delivered ⟨none, false⟩)]⟩ := by
  have hfill := sampleLocker_fill hlocked hlock
  have hlock' : (c.state.begun 120).requestLocks sampleLockedFill.id = sampleLocked.state.requestLocks sampleId := hlock
  have hheld := balance_le_eth h 2
  have hprice : (sampleLocked.state.requestLocks sampleId).price.toNat = 3 := by decide
  have hcollateral : (sampleLocked.state.requestLocks sampleId).collateral.toNat = 4 := by decide
  have hprover : (sampleLocked.state.requestLocks sampleId).prover = 2 := by decide
  have haccount : (c.state.begun 120).accounts = c.state.accounts := rfl
  have hok := hfill.succeeds sampleConfig
  rw [hlock', hprice, hcollateral, hprover, haccount] at hok
  clear hprice hcollateral
  obtain ⟨s', hs'⟩ := hok (by omega) (by omega)
  have hact : act sampleConfig (.fulfillAndPay sampleLockedFill
      ((c.state.begun 120).requestLocks sampleLockedFill.id).prover) (c.state.begun 120) =
      .ok (s', .delivered ⟨none, false⟩) := by
    rw [hlock', hprover]
    exact act_fulfillAndPay hs'
  refine ⟨s', hs', (hfill.paid hact).2.2, ?_⟩
  rw [sampleFulfilment_exec 120 [] htime rfl hs', List.append_assoc]
  rfl

def samplePriced (id : RequestId) : State :=
  (sampleLocked.state.begun 110).storeContext ⟨true, false, 3⟩ (requestHash sampleConfig (sampleRequest id))

theorem samplePriced_eq {id : RequestId} (hsig : verifyClientSignature sampleConfig acceptAll (sampleRequest id)
      (client id) [] = .ok (requestHash sampleConfig (sampleRequest id),
        (sampleRequest id).eip712Digest sampleConfig.keccak256)) :
    priceRequest sampleConfig acceptAll (sampleRequest id) [] (sampleLocked.state.begun 110) = .ok (samplePriced id) := by
  have hvalid : (sampleRequest sampleId).validate = .ok (150, 200) := by decide
  have hprice : (sampleRequest sampleId).offer.priceAt
      ((sampleLocked.state.begun 110).timestamp.setWidth 64) = .ok 3 := by decide
  change (sampleRequest id).validate = _ at hvalid
  change (sampleRequest id).offer.priceAt _ = _ at hprice
  change verifyClientSignature sampleConfig acceptAll (sampleRequest id) (client (sampleRequest id).id) [] = _ at hsig
  have hcast : toUint96 3 = .ok 3 := by decide
  simp only [priceRequest, hsig, hvalid, hprice, hcast, bind, Except.bind]
  rfl

theorem samplePriced_context (id : RequestId) :
    (samplePriced id).loadContext (requestHash sampleConfig (sampleRequest id)) = ⟨true, false, 3⟩ :=
  loadContext_storeContext _ _ _

theorem priceRequests_single {x : External} {request : ProofRequest} {signature : Bytes}
    (h : priceRequest cfg x request signature c.state = .ok s') : priceRequests cfg x [request] [signature] c =
      .ok ⟨s', c.history ++ [(.priceRequest request signature x, .done)]⟩ := by
  simp only [priceRequests, Chain.effect, Chain.perform, act, done, h, bind, Except.bind]
  rfl

theorem lockedOut_change (h : fulfillAndPay cfg fill prover s = .ok (s', ⟨some (.requestIsLocked fill.id), false⟩)) :
    ∃ client idx, clientAndIndex fill.id = .ok (client, idx) ∧
      Change s s' (raiseFlags client idx false true) id (fulfilledEvents s client idx fill prover ++
        [.paymentRequirementsFailed (.requestIsLocked fill.id), .proofDelivered fill.id prover fill]) 0 0 0 0 := by
  obtain ⟨client, idx, hid, -, effect⟩ := fulfillAndPay_effect h
  cases effect with
  | lockedOut _ _ change => exact ⟨client, idx, hid, change⟩
  | paidLate _ _ _ _ _ logged => obtain ⟨h, -⟩ | ⟨_, _, h, -⟩ := logged <;> cases h

theorem sampleStranger_delivers : ∃ s', fulfillAndPay sampleConfig sampleLockedFill 3 (samplePriced sampleId) =
    .ok (s', ⟨some (.requestIsLocked sampleId), false⟩) := by
  have hlock : (if true then (samplePriced sampleId).requestLocks sampleLockedFill.id else .empty) =
      sampleLocked.state.requestLocks sampleId := rfl
  have hctx : (samplePriced sampleId).loadContext sampleLockedFill.requestDigest = ⟨true, false, 3⟩ :=
    samplePriced_context sampleId
  obtain ⟨q, hq, -⟩ := LockerFill.markFulfilled_ok sampleId 1 7 sampleLockedFill false 3 (samplePriced sampleId)
  have hauth : authenticate sampleLockedFill true (sampleLocked.state.requestLocks sampleId) (samplePriced sampleId) =
      .ok false := by
    simp only [authenticate, hctx, ↓reduceIte]
  have hpay : pay sampleConfig sampleLockedFill 1 7 true false (sampleLocked.state.requestLocks sampleId) 3
      (samplePriced sampleId) = .ok (q, some (.requestIsLocked sampleId)) := by
    have htime : (samplePriced sampleId).timestamp ≤
        (sampleLocked.state.requestLocks sampleId).lockDeadline.setWidth 256 := by decide
    have hunpaid : (sampleLocked.state.requestLocks sampleId).isProverPaid = false := by decide
    have hother : (sampleLocked.state.requestLocks sampleId).prover ≠ 3 := by decide
    have hid : sampleLockedFill.id = sampleId := rfl
    simp only [pay, htime, fulfillAndPayLocked, hunpaid, hid, hq, hother, ↓reduceIte, Bool.false_eq_true, ne_eq,
      not_false_eq_true, true_or, bind, Except.bind]
    rfl
  exact ⟨_, LockerFill.fulfillAndPay_of (by decide) (by decide) hlock hauth hpay⟩

/-- Account 3 prices and delivers the request that account 2 has locked. -/
def sampleInterleaved : List Transaction :=
  [sampleLocking, sampleFulfilment 110 [sampleRequest sampleId] sampleLockedFill 3]

/-- What happens after the lock. -/
def sampleInterlude : List Step :=
  [(.begin 110, .done), (.priceRequest (sampleRequest sampleId) [] acceptAll, .done),
    (.fulfillAndPay sampleLockedFill 3, .delivered ⟨some (.requestIsLocked sampleId), false⟩)]

theorem sampleInterleaved_run : ∃ s', run sampleConfig sampleInterleaved = ⟨s', sampleLocked.history ++ sampleInterlude⟩ ∧
    Change (samplePriced sampleId) s' (raiseFlags 1 7 false true) id
      [.requestFulfilled sampleId 3 sampleLockedFill.requestDigest, .paymentRequirementsFailed (.requestIsLocked sampleId),
        .proofDelivered sampleId 3 sampleLockedFill] 0 0 0 0 := by
  obtain ⟨s', hs'⟩ := sampleStranger_delivers
  have hsig : verifyClientSignature sampleConfig acceptAll (sampleRequest sampleId) (client sampleId) [] =
      .ok (requestHash sampleConfig (sampleRequest sampleId),
        (sampleRequest sampleId).eip712Digest sampleConfig.keccak256) := rfl
  have hprice := priceRequests_single (c := ⟨sampleLocked.state.begun 110,
    sampleLocked.history ++ [(.begin 110, .done)]⟩) (samplePriced_eq hsig)
  have hsecond := sampleFulfilment_exec (c := sampleLocked) 110 [sampleRequest sampleId] (by decide) hprice hs'
  have htwo := (run_snoc sampleConfig [sampleLocking] _).trans hsecond
  rw [List.append_assoc, List.append_assoc] at htwo
  obtain ⟨client, idx, hid, change⟩ := lockedOut_change hs'
  have hdecoded : clientAndIndex sampleLockedFill.id = .ok (1, 7) := by decide
  cases hdecoded.symm.trans hid
  exact ⟨s', htwo, change⟩

/-- Although another prover priced and delivered the request in between, the sample locker is paid
3 and gets its collateral of 4 back. -/
theorem locker_guarantee_sample :
    let s := (run sampleConfig sampleInterleaved).state
    ∃ s', act sampleConfig (.fulfillAndPay sampleLockedFill 2) s = .ok (s', .delivered ⟨none, false⟩) ∧
      Credited s s' 2 3 4 := by
  obtain ⟨s, hrun, change⟩ := sampleInterleaved_run
  rw [hrun]
  have hlocked : Replay (act sampleConfig) .initial sampleLocked.history sampleLocked.state := run_replay _ _
  have hreplay : Replay (act sampleConfig) .initial (sampleLocked.history ++ sampleInterlude) s := replay_of_run_eq hrun
  have hpasses : Passes sampleConfig sampleInterleaved sampleLocked.history sampleLocked.state :=
    ⟨hrun ▸ List.prefix_append _ _, hlocked⟩
  have hnow : Passes sampleConfig sampleInterleaved (sampleLocked.history ++ sampleInterlude) s :=
    ⟨hrun ▸ List.prefix_refl _, hreplay⟩
  have hkeccak : ∀ step ∈ sampleLocked.history ++ sampleInterlude, ∀ priced, step.1.prices = some priced →
      priced.NoCollision sampleConfig.keccak256 sampleConfig.domainSeparator (sampleRequest sampleId) := by
    have hpriced : (sampleLocked.history ++ sampleInterlude).filterMap (fun step => step.1.prices) =
        [sampleRequest sampleId] := rfl
    intro step hstep priced hprices
    have hmem : priced ∈ [sampleRequest sampleId] := hpriced ▸ List.mem_filterMap.mpr ⟨step, hstep, hprices⟩
    rw [List.mem_singleton.mp hmem]
    exact List.forall₂_same.mpr (fun _ _ _ => rfl)
  have hfirst : ∀ f o, (.fulfillAndPay f (sampleLocked.state.requestLocks sampleId).prover, o) ∈ sampleInterlude →
      f.id = sampleId → f.requestDigest ≠ (sampleLocked.state.requestLocks sampleId).requestDigest := by
    intro f o hmem
    have hprover : (sampleLocked.state.requestLocks sampleId).prover = 2 := by decide
    rw [hprover] at hmem
    simp [sampleInterlude] at hmem
  obtain ⟨-, hpaid, hok⟩ := locker_guarantee sampleConfig sampleInterleaved [(.begin 100, .done), (.deposit 1 10, .done),
      (.depositCollateral 2 5 true, .done)] sampleInterlude (.lockRequest 2 (sampleRequest sampleId) [] acceptAll)
    (sampleRequest sampleId) sampleLocked.state s sampleLockedFill rfl hpasses hnow hkeccak rfl rfl
    (by rw [change.timestamp]; decide) hfirst
  have hheld := balance_le_eth hreplay 2
  have hprice : (sampleLocked.state.requestLocks (sampleRequest sampleId).id).price.toNat = 3 := by decide
  have hcollateral : (sampleLocked.state.requestLocks (sampleRequest sampleId).id).collateral.toNat = 4 := by decide
  have hprover : (sampleLocked.state.requestLocks (sampleRequest sampleId).id).prover = 2 := by decide
  have heth : (s.eth : ℤ) = 10 + 0 := change.eth
  have htokens : (s.tokens : ℤ) = 5 + 0 := change.tokens
  rw [hprover, hprice, hcollateral] at hok
  obtain ⟨s', hs'⟩ := hok (by omega) (by omega)
  exact ⟨s', hs', hprover ▸ (hpaid s' _ (hprover ▸ hs')).2.1⟩

end Sample

end VerifiableCompute.Market
