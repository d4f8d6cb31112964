import VerifiableCompute.Market.Locker

/-! Identifiers that decode to the same client and index. They share their flags
but not their locks, so a fulfilment or a slash of one of them can pass the flag
that another one set. Runs in which this does not happen pay each index once and
slash only what was locked. -/

namespace VerifiableCompute.Market

open Lib List Step

/-- The identifier locked by the step, if it decodes to this client and index. -/
def Step.lockedId (client : Address) (idx : U32) (step : Step) : Option RequestId :=
  step.1.locks.bind fun request =>
    if clientAndIndex request.id = .ok (client, idx) then some request.id else none

def locksOf (t : List Step) (client : Address) (idx : U32) : List RequestId :=
  t.filterMap (Step.lockedId client idx)

variable {t : List Step} {a : Action} {target : Action → Option RequestId}

theorem mem_locksOf {client : Address} {idx : U32} {id : RequestId} :
    id ∈ locksOf t client idx ↔ clientAndIndex id = .ok (client, idx) ∧
      ∃ step ∈ t, ∃ request, step.1.locks = some request ∧ request.id = id := by
  simp only [locksOf, lockedId, mem_filterMap, Option.bind_eq_some_iff]
  constructor
  · rintro ⟨step, hstep, request, hl, h⟩
    split_ifs at h with hd
    cases h
    exact ⟨hd, step, hstep, request, hl, rfl⟩
  · rintro ⟨hd, step, hstep, request, hl, rfl⟩
    exact ⟨step, hstep, request, hl, by simp [hd]⟩

theorem locksOf_append (t u : List Step) (client : Address) (idx : U32) :
    locksOf (t ++ u) client idx = locksOf t client idx ++ locksOf u client idx := filterMap_append

theorem locksOf_of_none (h : a.locks = none) (o : Outcome) (client : Address) (idx : U32) :
    locksOf [(a, o)] client idx = [] := by
  simp [locksOf, lockedId, h]

/-- The identifier that a fulfilment or a slash is about. -/
def Action.fulfills : Action → Option RequestId
  | .fulfillAndPay fill _ => some fill.id
  | _ => none

def Action.slashes : Action → Option RequestId
  | .slash id => some id
  | _ => none

/-- Whenever an action targets an identifier whose index was locked before, it was
locked under that identifier. -/
def Unaliased (target : Action → Option RequestId) (t : List Step) : Prop :=
  ∀ v a o w id client idx, t = v ++ (a, o) :: w → target a = some id → clientAndIndex id = .ok (client, idx) →
    ∀ k ∈ locksOf v client idx, k = id

theorem Unaliased.of_append {u : List Step} (h : Unaliased target (t ++ u)) : Unaliased target t := by
  intro v a o w id client idx ht
  refine h v a o (w ++ u) id client idx ?_
  rw [ht]
  simp

theorem Unaliased.of_last {o : Outcome} (ht : ∀ x ∈ t, target x.1 = none) (ha : ∀ id client idx, target a = some id →
      clientAndIndex id = .ok (client, idx) → ∀ k ∈ locksOf t client idx, k = id) :
    Unaliased target (t ++ [(a, o)]) := by
  intro v b p w id client idx hsplit hb
  rcases eq_nil_or_concat w with rfl | ⟨w, x, rfl⟩
  · obtain ⟨rfl, hlast⟩ := append_inj' hsplit rfl
    cases hlast
    exact ha id client idx hb
  · have hmem : (b, p) ∈ t := by
      rw [concat_eq_append, ← cons_append, ← append_assoc] at hsplit
      rw [(append_inj' hsplit rfl).1]
      simp
    rw [ht _ hmem] at hb
    cases hb

section Locks

variable {cfg : Config} {s s' : State} {a : Action} {o : Outcome}

theorem Effect.lockedId (h : Effect cfg s s' a o) (client : Address) (idx : U32) :
    (lockedId client idx (a, o) = none ∧ (s'.flags client idx).1 = (s.flags client idx).1) ∨
    (∃ id, lockedId client idx (a, o) = some id ∧ clientAndIndex id = .ok (client, idx) ∧
      s.flags client idx = (false, false) ∧ (s'.flags client idx).1 = true) := by
  cases h with
  | begin timestamp later result => subst result; exact .inl ⟨rfl, rfl⟩
  | money a events value collateral isMoney logged change =>
    refine .inl ⟨?_, by rw [change.flags, id_eq]⟩
    cases a <;> simp_all [Action.isMoney, lockedId, Action.locks]
  | price request signature x lockDeadline deadline price valid result => subst result; exact .inl ⟨rfl, rfl⟩
  | lock a request signature c i lock locks decoded fresh flags change =>
    by_cases hci : c = client ∧ i = idx
    · obtain ⟨rfl, rfl⟩ := hci
      exact .inr ⟨request.id, by simp [lockedId, locks, decoded], decoded, flags, by simp [change.flags]⟩
    · refine .inl ⟨?_, ?_⟩
      · simpa [lockedId, locks, decoded] using hci
      · rw [change.flags, raiseFlags, if_neg fun h => hci ⟨h.1.symm, h.2.symm⟩]
  | fulfill fill prover c i delivery decoded authentic effect =>
    refine .inl ⟨rfl, ?_⟩
    cases effect with
    | expired change | alreadyPaid _ _ change | alreadyFulfilled _ change => rw [change.flags, id_eq]
    | lockedOut _ _ change | unfunded _ change | paidUnlocked _ change | paidLocked _ _ _ _ _ change _
    | paidLate _ _ _ _ _ _ change => rw [change.flags, raiseFlags_false_locked]
  | slash requestId c i decoded effect =>
    obtain ⟨_, _, _, -, change⟩ := effect.change
    exact .inl ⟨rfl, by rw [change.flags, id_eq]⟩

variable {t : List Step} {client : Address} {idx : U32}

variable (h : Replay (act cfg) .initial t s)

include h

/-- An index is locked at most once, and its flag tells whether it was. -/
theorem locksOf_length (client : Address) (idx : U32) :
    (locksOf t client idx).length = if (s.flags client idx).1 then 1 else 0 := by
  refine replay_induction (P := fun t s =>
    (locksOf t client idx).length = if (s.flags client idx).1 then 1 else 0) ?_ ?_ h
  · rw [initial_flags]
    rfl
  · intro t r a o r' _ ih ha
    rw [locksOf_append, length_append, ih]
    rcases (act_effect ha).lockedId client idx with ⟨hnone, hsame⟩ | ⟨id, hsome, -, hbefore, hafter⟩
    · simp [locksOf, hnone, hsame]
    · simp [locksOf, hsome, hbefore, hafter]

theorem locked_of_mem_locksOf {id : RequestId} (hid : id ∈ locksOf t client idx) : (s.flags client idx).1 = true := by
  have hlen := locksOf_length h client idx
  have hpos := length_pos_of_mem hid
  split_ifs at hlen with hf
  · exact hf
  · omega

theorem exists_mem_locksOf (hf : (s.flags client idx).1 = true) : ∃ id, locksOf t client idx = [id] := by
  have hlen := locksOf_length h client idx
  rw [if_pos hf] at hlen
  exact length_eq_one_iff.mp hlen

end Locks

section Payments

variable {cfg : Config} {s s' : State} {a : Action} {o : Outcome} {client : Address} {idx : U32}

def decodesTo (client : Address) (idx : U32) (id : RequestId) : Bool :=
  decide (clientAndIndex id = .ok (client, idx))

/-- A payment under an index either takes an unpaid lock and marks it, or is the
first fulfilment of an index that was never locked. -/
theorem Effect.payment (h : Effect cfg s s' a o) (hp : pays (decodesTo client idx) (a, o) = true) :
    ∃ fill prover, a = .fulfillAndPay fill prover ∧ clientAndIndex fill.id = .ok (client, idx) ∧
      (((s.flags client idx).1 = true ∧ (s.requestLocks fill.id).isProverPaid = false ∧
          (s'.requestLocks fill.id).isProverPaid = true) ∨
        (s.flags client idx = (false, false) ∧ s'.flags client idx = (false, true))) := by
  cases h with
  | begin | price | slash => simp [pays] at hp
  | money a _ _ _ isMoney => cases a <;> simp_all [Action.isMoney, pays]
  | lock a _ _ _ _ _ locks => cases a <;> simp_all [Action.locks, pays]
  | fulfill fill prover c i delivery decoded authentic effect =>
    simp only [pays, decodesTo, Bool.and_eq_true, decide_eq_true_iff] at hp
    cases hp.1.symm.trans decoded
    refine ⟨fill, prover, rfl, decoded, ?_⟩
    cases effect with
    | expired | alreadyPaid | lockedOut | alreadyFulfilled | unfunded => simp [Delivery.paid] at hp
    | paidLocked locked _ unpaid _ _ change => exact .inl ⟨locked, unpaid, by simp [change.requestLocks]⟩
    | paidLate _ _ locked _ unpaid _ change => exact .inl ⟨locked, unpaid, by simp [change.requestLocks]⟩
    | paidUnlocked flags change => exact .inr ⟨flags, by simp [change.flags, flags]⟩

/-- Under a locked index no action takes the mark of a paid lock away. -/
theorem Rewrites.isProverPaid_mono (h : Rewrites s s') {id : RequestId}
    (hid : clientAndIndex id = .ok (client, idx)) (hlocked : (s.flags client idx).1 = true)
    (hp : (s.requestLocks id).isProverPaid = true) : (s'.requestLocks id).isProverPaid = true := by
  cases h with
  | same _ locks | fulfilled _ _ _ locks => rw [locks, hp]
  | locked k c i lock decoded unlocked fresh flags locks =>
    have hne : id ≠ k := by
      rintro rfl
      cases hid.symm.trans decoded
      simp [unlocked] at hlocked
    rw [locks, rewriteLock_of_ne hne, hp]
  | paid k c i f decoded locked marks flags locks =>
    by_cases hk : id = k
    · subst hk
      rcases marks with rfl | ⟨prover, rfl⟩ <;> simp [locks]
    · rw [locks, rewriteLock_of_ne hk, hp]
  | slashed k c i decoded locked flags locks =>
    by_cases hk : id = k
    · subst hk
      simp [locks, hp]
    · rw [locks, rewriteLock_of_ne hk, hp]

/-- Payments so far are witnessed by the fulfilled flag while the index is not
locked, and by the paid lock afterwards. -/
structure PaidOnce (t : List Step) (s : State) (client : Address) (idx : U32) : Prop where
  unlocked : (s.flags client idx).1 = false →
    t.countP (Step.pays (decodesTo client idx)) ≤ if (s.flags client idx).2 then 1 else 0
  locked : ∀ id ∈ locksOf t client idx,
    t.countP (Step.pays (decodesTo client idx)) ≤ if (s.requestLocks id).isProverPaid then 1 else 0

variable {t : List Step}

section

variable (ht : Replay (act cfg) .initial t s) (h : PaidOnce t s client idx) (he : Effect cfg s s' a o)

include ht h he

/-- The evidence only grows along steps that do not pay. -/
theorem PaidOnce.step_quiet (hq : pays (decodesTo client idx) (a, o) = false) :
    PaidOnce (t ++ [(a, o)]) s' client idx := by
  have hcount : (t ++ [(a, o)]).countP (pays (decodesTo client idx)) =
      t.countP (pays (decodesTo client idx)) := by
    simp [countP_append, hq]
  refine ⟨fun hunlocked => ?_, fun id hid => ?_⟩
  · rw [hcount]
    have hbefore : (s.flags client idx).1 = false := by
      by_contra hl
      have := he.rewrites.locked_mono (by simpa using hl)
      simp [hunlocked] at this
    refine (h.unlocked hbefore).trans ?_
    cases hf : (s.flags client idx).2 with
    | false => simp
    | true => simp [he.rewrites.fulfilled_mono hf]
  · rw [hcount]
    rw [locksOf_append, mem_append] at hid
    rcases hid with hid | hid
    · refine (h.locked id hid).trans ?_
      cases hp : (s.requestLocks id).isProverPaid with
      | false => simp
      | true =>
        simp [he.rewrites.isProverPaid_mono (mem_locksOf.mp hid).1 (locked_of_mem_locksOf ht hid) hp]
    · -- the index is locked by this step, so nothing was paid before
      rcases he.lockedId client idx with ⟨hnone, -⟩ | ⟨k, -, -, hbefore, -⟩
      · simp [locksOf, hnone] at hid
      · have := h.unlocked (by rw [hbefore])
        simp only [hbefore, Bool.false_eq_true, ↓reduceIte] at this
        omega

/-- A payment uses up the evidence that there was none before. -/
theorem PaidOnce.step_pays (hp : pays (decodesTo client idx) (a, o) = true)
    (hal : Unaliased Action.fulfills (t ++ [(a, o)])) : PaidOnce (t ++ [(a, o)]) s' client idx := by
  have hcount : (t ++ [(a, o)]).countP (pays (decodesTo client idx)) =
      t.countP (pays (decodesTo client idx)) + 1 := by
    simp [countP_append, hp]
  obtain ⟨fill, prover, rfl, hid, ⟨hlocked, hunpaid, hpaid⟩ | ⟨hbefore, hafter⟩⟩ := he.payment hp
  · refine ⟨fun hunlocked => ?_, fun id hmem => ?_⟩
    · have := he.rewrites.locked_mono hlocked
      simp [hunlocked] at this
    · rw [locksOf_append, mem_append] at hmem
      rcases hmem with hmem | hmem
      · obtain rfl := hal t _ o [] fill.id client idx rfl rfl hid id hmem
        have := h.locked _ hmem
        rw [hunpaid] at this
        rw [hcount, hpaid]
        simpa using this
      · simp [locksOf_of_none (a := .fulfillAndPay fill prover) rfl] at hmem
  · refine ⟨fun _ => ?_, fun id hmem => ?_⟩
    · have := h.unlocked (by rw [hbefore])
      rw [hbefore] at this
      rw [hcount, hafter]
      simpa using this
    · rw [locksOf_append, mem_append] at hmem
      rcases hmem with hmem | hmem
      · have := locked_of_mem_locksOf ht hmem
        simp [hbefore] at this
      · simp [locksOf_of_none (a := .fulfillAndPay fill prover) rfl] at hmem

end

theorem paidOnce_of_replay (h : Replay (act cfg) .initial t s)
    (hal : Unaliased Action.fulfills t) (client : Address) (idx : U32) : PaidOnce t s client idx := by
  refine replay_induction (P := fun t s => Unaliased Action.fulfills t → PaidOnce t s client idx) ?_ ?_ h hal
  · exact fun _ => ⟨fun _ => by simp, fun _ hmem => by simp [locksOf] at hmem⟩
  · intro t r a o r' ht ih ha hal
    have hbefore := ih hal.of_append
    cases hp : pays (decodesTo client idx) (a, o) with
    | false => exact hbefore.step_quiet ht (act_effect ha) hp
    | true => exact hbefore.step_pays ht (act_effect ha) hp hal

/-- If every fulfilment under a locked index is for the identifier that was locked,
each index is paid at most once in the whole run. -/
theorem single_payment_of_unaliased (cfg : Config) (txs : List Transaction) (client : Address) (idx : U32)
    (hal : Unaliased Action.fulfills (run cfg txs).history) :
    (run cfg txs).history.countP (Step.pays (decodesTo client idx)) ≤ 1 := by
  have hreplay := run_replay cfg txs
  have hpaid := paidOnce_of_replay hreplay hal client idx
  cases hl : ((run cfg txs).state.flags client idx).1 with
  | false =>
    refine (hpaid.unlocked hl).trans ?_
    split_ifs <;> simp
  | true =>
    obtain ⟨id, hid⟩ := exists_mem_locksOf hreplay hl
    refine (hpaid.locked id (by simp [hid])).trans ?_
    split_ifs <;> simp

end Payments

/-- The same client and index, signed by a smart contract. -/
def sampleAlias : RequestId := smartContractSignatureFlag ||| sampleId

def sampleAliasFill : Fulfillment := sampleFill sampleAlias (requestHash sampleConfig (sampleRequest sampleAlias))

theorem exists_ok_of_result {x : Except Revert (State × Option Revert)} {error : Option Revert}
    (h : x.toOption.map Prod.snd = some error) : ∃ q, x = .ok (q, error) := by
  rcases x with e | ⟨q, error'⟩
  · cases h
  · cases h
    exact ⟨q, rfl⟩

/-- The alias finds the flag of the sample request and no lock of its own: its
prover is paid as if a lock had expired. -/
theorem sampleAlias_paid :
    ∃ s', fulfillAndPay sampleConfig sampleAliasFill 3 (samplePriced sampleAlias) = .ok (s', ⟨none, false⟩) := by
  have hflags : (samplePriced sampleAlias).flags 1 7 = (true, false) := by decide
  have hlock : (if true then (samplePriced sampleAlias).requestLocks sampleAliasFill.id else .empty) = .empty := by decide
  have hctx : (samplePriced sampleAlias).loadContext sampleAliasFill.requestDigest = ⟨true, false, 3⟩ :=
    samplePriced_context sampleAlias
  obtain ⟨q, hq⟩ : ∃ q, fulfillAndPayWasLocked sampleConfig .empty sampleAlias 1 7 3 sampleAliasFill false 3
      (samplePriced sampleAlias) = .ok (q, none) := by
    refine exists_ok_of_result ?_
    decide
  have hid : clientAndIndex sampleAliasFill.id = .ok (1, 7) := by decide
  have hauth : authenticate sampleAliasFill true .empty (samplePriced sampleAlias) = .ok false := by
    simp only [authenticate, hctx, ↓reduceIte]
  have hpay : pay sampleConfig sampleAliasFill 1 7 true false .empty 3 (samplePriced sampleAlias) = .ok (q, none) := by
    have htime : ¬ (samplePriced sampleAlias).timestamp ≤ RequestLock.empty.lockDeadline.setWidth 256 := by decide
    simp only [pay, hctx, htime, ↓reduceIte]
    exact hq
  exact ⟨_, LockerFill.fulfillAndPay_of hid hflags hlock hauth hpay⟩

/-- Account 3 delivers the alias at time 110 and account 2 the locked request at 120. -/
def sampleAliased : List Transaction :=
  [sampleLocking, sampleFulfilment 110 [sampleRequest sampleAlias] sampleAliasFill 3,
    sampleFulfilment 120 [] sampleLockedFill 2]

/-- The sample locker delivers and is paid, once. -/
theorem single_payment_sample :
    (run sampleConfig ([sampleLocking] ++ [sampleFulfilment 120 [] sampleLockedFill 2])).history.countP
      (Step.pays (decodesTo 1 7)) ≤ 1 := by
  refine single_payment_of_unaliased sampleConfig _ 1 7 ?_
  obtain ⟨s', -, -, hpaid⟩ := sampleLocker_paid (c := sampleLocked) (run_replay _ _) (by decide) rfl (by decide)
    (by decide) (by decide)
  rw [run_snoc, ← sampleLocked, hpaid, ← List.singleton_append, ← List.append_assoc]
  have hquiet : (sampleLocked.history ++ [(Action.begin 120, Outcome.done)]).all
      (fun x => (Action.fulfills x.1).isNone) = true := by
    decide
  have hlocks : locksOf (sampleLocked.history ++ [(.begin 120, .done)]) 1 7 = [sampleId] := by decide
  refine .of_last (fun x hx => by simpa using List.all_eq_true.mp hquiet x hx) fun id client idx hid hdecoded => ?_
  have hsame : clientAndIndex sampleLockedFill.id = .ok (1, 7) := by decide
  cases hid
  cases hsame.symm.trans hdecoded
  rw [hlocks]
  simp [sampleLockedFill, sampleFill]

variable {s s' : State} {fill : Fulfillment} {prover : Address} {d : Delivery} {cfg : Config}

/-- A fulfilment leaves the other locks, the holdings and the time. -/
theorem fulfillAndPay_frame (h : fulfillAndPay cfg fill prover s = .ok (s', d)) :
    (∀ k, k ≠ fill.id → s'.requestLocks k = s.requestLocks k) ∧ s'.eth = s.eth ∧ s'.tokens = s.tokens ∧
      s'.timestamp = s.timestamp := by
  have hframe {F : Flags → Flags} {L : Locks → Locks} {events : List Event} {b c : ℤ}
      (hc : Change s s' F L events b c 0 0) (hL : ∀ k, k ≠ fill.id → L s.requestLocks k = s.requestLocks k) :
      (∀ k, k ≠ fill.id → s'.requestLocks k = s.requestLocks k) ∧ s'.eth = s.eth ∧ s'.tokens = s.tokens ∧
        s'.timestamp = s.timestamp := by
    have heth := hc.eth
    have htokens := hc.tokens
    exact ⟨fun k hk => by rw [hc.requestLocks, hL k hk], by omega, by omega, hc.timestamp⟩
  obtain ⟨client, idx, -, -, effect⟩ := fulfillAndPay_effect h
  cases effect with
  | expired change | alreadyPaid _ _ change | lockedOut _ _ change | alreadyFulfilled _ change
  | unfunded _ change | paidUnlocked _ change => exact hframe change fun _ _ => rfl
  | paidLocked _ _ _ _ _ change _ | paidLate _ _ _ _ _ _ change =>
    exact hframe change fun k hk => rewriteLock_of_ne hk _ _

/-- Both deliveries are paid, although the requests share client and index. -/
theorem sampleAliased_pays_twice :
    ¬ (run sampleConfig sampleAliased).history.countP (Step.pays (decodesTo 1 7)) ≤ 1 := by
  obtain ⟨s', hs'⟩ := sampleAlias_paid
  have hsig : verifyClientSignature sampleConfig acceptAll (sampleRequest sampleAlias) (client sampleAlias) [] =
      .ok (requestHash sampleConfig (sampleRequest sampleAlias),
        (sampleRequest sampleAlias).eip712Digest sampleConfig.keccak256) := rfl
  have hprice := priceRequests_single (c := ⟨sampleLocked.state.begun 110,
    sampleLocked.history ++ [(.begin 110, .done)]⟩) (samplePriced_eq hsig)
  have hsecond := sampleFulfilment_exec (c := sampleLocked) 110 [sampleRequest sampleAlias] (by decide)
    hprice hs'
  have htwo := (run_snoc sampleConfig [sampleLocking] _).trans hsecond
  obtain ⟨hlocks, heth, htokens, htime⟩ := fulfillAndPay_frame hs'
  have hlocked : (s'.flags 1 7).1 = true :=
    (act_effect (act_fulfillAndPay hs')).rewrites.locked_mono (by decide)
  obtain ⟨s'', -, -, hthird⟩ := sampleLocker_paid (replay_of_run_eq htwo) hlocked (by rw [hlocks sampleId (by decide)]; rfl)
    (by rw [heth]; decide) (by rw [htokens]; decide) (by rw [htime]; decide)
  have hall : sampleAliased = ([sampleLocking] ++
      [sampleFulfilment 110 [sampleRequest sampleAlias] sampleAliasFill 3]) ++
      [sampleFulfilment 120 [] sampleLockedFill 2] := rfl
  rw [hall, run_snoc, htwo, hthird]
  have hlockedCount : sampleLocked.history.countP (Step.pays (decodesTo 1 7)) = 0 := by decide
  simp only [List.countP_append, List.countP_cons, List.countP_nil, hlockedCount, Step.pays]
  decide

end VerifiableCompute.Market
