import VerifiableCompute.Market.Aliases

/-! Which slashes a run performs. A slash reads the locked flag under the client
and index but the deadline and the amounts under the full identifier, so the slash
of an alias passes against a lock that was never written. Apart from aliases every
slash is of an expired lock that was not paid in time, and happens once. -/

namespace VerifiableCompute.Market

open Lib Event List

def Event.isLockOf (id : RequestId) : Event → Bool
  | .requestLocked k _ _ _ => decide (k = id)
  | _ => false

def Event.isSlashOf (id : RequestId) : Event → Bool
  | .proverSlashed k _ _ _ => decide (k = id)
  | _ => false

/-- The event is neither about a lock nor about a slash. -/
def Event.isQuiet (e : Event) : Prop := ∀ id, e.isLockOf id = false ∧ e.isSlashOf id = false

section Log

variable {cfg : Config} {s s' : State} {a : Action} {o : Outcome}

theorem fulfilledEvents_quiet (s : State) (client : Address) (idx : U32) (fill : Fulfillment) (prover : Address) :
    ∀ e ∈ fulfilledEvents s client idx fill prover, e.isQuiet := by
  unfold fulfilledEvents
  split_ifs <;> simp [isQuiet, isLockOf, isSlashOf]

variable {client : Address} {idx : U32}

theorem FulfillEffect.quiet {fill : Fulfillment} {prover : Address} {d : Delivery}
    (h : FulfillEffect fill prover client idx s s' d) :
    ∃ events, s'.logs = s.logs ++ events ∧ ∀ e ∈ events, e.isQuiet := by
  have hfulfilled := fulfilledEvents_quiet s client idx fill prover
  have happend {events : List Event} (he : ∀ e ∈ events, e.isQuiet) :
      ∀ e ∈ fulfilledEvents s client idx fill prover ++ events, e.isQuiet := by
    intro e hmem
    exact (mem_append.mp hmem).elim (hfulfilled e) (he e)
  cases h with
  | expired change | alreadyPaid _ _ change | alreadyFulfilled _ change =>
    exact ⟨_, change.logs, by simp [isQuiet, isLockOf, isSlashOf]⟩
  | lockedOut _ _ change | unfunded _ change | paidUnlocked _ change | paidLocked _ _ _ _ _ change _ =>
    exact ⟨_, change.logs, happend (by simp [isQuiet, isLockOf, isSlashOf])⟩
  | paidLate error events _ _ _ logged change =>
    refine ⟨_, change.logs, happend ?_⟩
    rcases logged with ⟨-, rfl⟩ | ⟨price, finalPrice, -, rfl⟩ <;>
      simp [isQuiet, isLockOf, isSlashOf]

theorem Effect.log (h : Effect cfg s s' a o) : ∃ events, s'.logs = s.logs ++ events ∧
    ((a.locks = none ∧ ∀ e ∈ events, e.isQuiet) ∨
      (∃ request prover signature, a.locks = some request ∧
        events = [.requestLocked request.id prover request signature]) ∨
      (∃ id burned transferred recipient, a = .slash id ∧
        events = [.proverSlashed id burned transferred recipient])) := by
  cases h with
  | begin timestamp later result => subst result; exact ⟨[], by simp, .inl ⟨rfl, by simp⟩⟩
  | money a events value collateral isMoney logged change =>
    refine ⟨events, change.logs, .inl ⟨?_, fun e he => ?_⟩⟩
    · cases a <;> simp_all [Action.isMoney, Action.locks]
    · have hmoney := logged e he
      cases e <;> simp_all [Event.isMoney, Event.isQuiet, Event.isLockOf, Event.isSlashOf]
  | price request signature x lockDeadline deadline price valid result =>
    subst result
    exact ⟨[], by simp [State.storeContext], .inl ⟨rfl, by simp⟩⟩
  | lock a request signature client idx lock locks decoded fresh flags change =>
    exact ⟨_, change.logs, .inr (.inl ⟨request, lock.prover, signature, locks, rfl⟩)⟩
  | fulfill fill prover client idx delivery decoded authentic effect =>
    obtain ⟨events, hlogs, hquiet⟩ := effect.quiet
    exact ⟨events, hlogs, .inl ⟨rfl, hquiet⟩⟩
  | slash requestId client idx decoded effect =>
    obtain ⟨burned, transferred, recipient, -, change⟩ := effect.change
    exact ⟨_, change.logs, .inr (.inr ⟨requestId, burned, transferred, recipient, rfl, rfl⟩)⟩

theorem lock_events {t : List Step} (h : Replay (act cfg) .initial t s) {id : RequestId}
    (hid : clientAndIndex id = .ok (client, idx)) : s.logs.countP (isLockOf id) = (locksOf t client idx).count id := by
  refine replay_induction (P := fun t s =>
    s.logs.countP (isLockOf id) = (locksOf t client idx).count id) rfl ?_ h
  intro t r a o r' _ ih ha
  obtain ⟨events, hlogs, hcases⟩ := (act_effect ha).log
  rw [hlogs, countP_append, ih, locksOf_append, count_append]
  congr 1
  rcases hcases with ⟨hnone, hquiet⟩ | ⟨request, prover, signature, hsome, rfl⟩ | ⟨k, b, v, q, rfl, rfl⟩
  · have hzero : events.countP (isLockOf id) = 0 := by
      rw [countP_eq_zero]
      intro e he
      simp [(hquiet e he id).1]
    rw [hzero, locksOf_of_none hnone]
    rfl
  · by_cases hk : request.id = id
    · subst hk
      simp [locksOf, Step.lockedId, hsome, hid, isLockOf]
    · have hnot : id ∉ locksOf [(a, o)] client idx := by
        rw [mem_locksOf]
        rintro ⟨-, step, hstep, q, hq, rfl⟩
        rw [mem_singleton.mp hstep] at hq
        cases hsome.symm.trans hq
        exact hk rfl
      rw [count_eq_zero_of_not_mem hnot]
      simp [isLockOf, hk]
  · rw [locksOf_of_none (a := .slash k) rfl]
    simp [isLockOf]

end Log

section Kept

variable {cfg : Config} {s s' : State} {a : Action} {o : Outcome} {id : RequestId} {client : Address} {idx : U32}

theorem Rewrites.deadlines_kept (h : Rewrites s s') (hid : clientAndIndex id = .ok (client, idx))
    (hlocked : (s.flags client idx).1 = true) : (s'.requestLocks id).lockDeadline = (s.requestLocks id).lockDeadline ∧
      (s'.requestLocks id).deadline = (s.requestLocks id).deadline := by
  cases h with
  | same _ locks | fulfilled _ _ _ locks => rw [locks]; exact ⟨rfl, rfl⟩
  | locked k c i lock decoded unlocked fresh flags locks =>
    have hne : id ≠ k := by
      rintro rfl
      cases hid.symm.trans decoded
      simp [unlocked] at hlocked
    rw [locks, rewriteLock_of_ne hne]
    exact ⟨rfl, rfl⟩
  | paid k c i f decoded locked marks flags locks =>
    by_cases hk : id = k
    · subst hk
      rw [locks, rewriteLock_self]
      rcases marks with rfl | ⟨prover, rfl⟩ <;> exact ⟨rfl, rfl⟩
    · rw [locks, rewriteLock_of_ne hk]
      exact ⟨rfl, rfl⟩
  | slashed k c i decoded locked flags locks =>
    by_cases hk : id = k
    · subst hk
      rw [locks, rewriteLock_self]
      exact ⟨rfl, rfl⟩
    · rw [locks, rewriteLock_of_ne hk]
      exact ⟨rfl, rfl⟩

variable {u : List Step}

theorem deadlines_kept_replay (hid : clientAndIndex id = .ok (client, idx))
    (hlocked : (s.flags client idx).1 = true) (h : Replay (act cfg) s u s') :
    (s'.flags client idx).1 = true ∧ (s'.requestLocks id).lockDeadline = (s.requestLocks id).lockDeadline ∧
      (s'.requestLocks id).deadline = (s.requestLocks id).deadline := by
  refine replay_invariant (P := fun r => (r.flags client idx).1 = true ∧
    (r.requestLocks id).lockDeadline = (s.requestLocks id).lockDeadline ∧
      (r.requestLocks id).deadline = (s.requestLocks id).deadline) ⟨hlocked, rfl, rfl⟩ ?_ h
  rintro r a o r' ⟨hl, h1, h2⟩ ha
  have hr := (act_effect ha).rewrites
  obtain ⟨k1, k2⟩ := hr.deadlines_kept hid hl
  exact ⟨hr.locked_mono hl, k1.trans h1, k2.trans h2⟩

/-- Once slashed, a lock cannot be slashed again: the mark stays, or is replaced by
the mark of a payment in time, which excludes a slash as well. -/
theorem Effect.slashed_kept (h : Effect cfg s s' a o) (hid : clientAndIndex id = .ok (client, idx))
    (hlocked : (s.flags client idx).1 = true)
    (hs : (s.requestLocks id).isSlashed = true ∨ (s.requestLocks id).isProverPaidBeforeLockDeadline = true) :
    (s'.requestLocks id).isSlashed = true ∨ (s'.requestLocks id).isProverPaidBeforeLockDeadline = true := by
  rcases hs with hs | hs
  · cases h.rewrites with
    | same _ locks | fulfilled _ _ _ locks => exact .inl (by rw [locks, hs])
    | locked k c i lock decoded unlocked fresh flags locks =>
      have hne : id ≠ k := by
        rintro rfl
        cases hid.symm.trans decoded
        simp [unlocked] at hlocked
      exact .inl (by rw [locks, rewriteLock_of_ne hne, hs])
    | paid k c i f decoded locked marks flags locks =>
      by_cases hk : id = k
      · subst hk
        rcases marks with rfl | ⟨prover, rfl⟩
        · exact .inr (by simp [locks])
        · exact .inl (by simp [locks, hs])
      · exact .inl (by rw [locks, rewriteLock_of_ne hk, hs])
    | slashed k c i decoded locked flags locks =>
      by_cases hk : id = k
      · subst hk
        exact .inl (by simp [locks])
      · exact .inl (by rw [locks, rewriteLock_of_ne hk, hs])
  · exact .inr (by rw [(h.paid_final hid hlocked hs).1, hs])

theorem slashed_kept_replay (hid : clientAndIndex id = .ok (client, idx))
    (hlocked : (s.flags client idx).1 = true) (hs : (s.requestLocks id).isSlashed = true)
    (h : Replay (act cfg) s u s') :
    (s'.requestLocks id).isSlashed = true ∨ (s'.requestLocks id).isProverPaidBeforeLockDeadline = true := by
  refine (replay_invariant (P := fun r => (r.flags client idx).1 = true ∧
    ((r.requestLocks id).isSlashed = true ∨ (r.requestLocks id).isProverPaidBeforeLockDeadline = true))
    ⟨hlocked, .inl hs⟩ ?_ h).2
  rintro r a o r' ⟨hl, hm⟩ ha
  exact ⟨(act_effect ha).rewrites.locked_mono hl, (act_effect ha).slashed_kept hid hl hm⟩

end Kept

/-- The slash of `id` in state `r` after the actions `t` is of a lock of that very
identifier, which has expired, was not paid in time and was not slashed before. -/
structure SlashJustified (cfg : Config) (t : List Step) (r : State) (id : RequestId) : Prop where
  locked : ∃ t1 a request t2 s, t = t1 ++ (a, .done) :: t2 ∧ a.locks = some request ∧ request.id = id ∧
    Replay (act cfg) .initial (t1 ++ [(a, .done)]) s ∧
    (∃ deadline, (s.requestLocks id).deadline = .ok deadline ∧ deadline.setWidth 256 < r.timestamp) ∧
    ∀ v fill prover d w q, t2 = v ++ (.fulfillAndPay fill prover, .delivered d) :: w → fill.id = id →
      d.paid = true → Replay (act cfg) s v q → (s.requestLocks id).lockDeadline.setWidth 256 < q.timestamp
  unslashed : ∀ o, (.slash id, o) ∉ t
  announced : r.logs.countP (Event.isLockOf id) = 1

section Justified

variable {cfg : Config} {s s' r r' : State} {t u : List Step} {id : RequestId} {o : Outcome}

theorem slash_inversion (h : act cfg (.slash id) s = .ok (s', o)) :
    o = .done ∧ ∃ client idx, clientAndIndex id = .ok (client, idx) ∧ SlashEffect id client idx s s' := by
  cases act_effect h with
  | money _ _ _ _ isMoney => simp [Action.isMoney] at isMoney
  | lock _ _ _ _ _ _ locks => simp [Action.locks] at locks
  | slash _ client idx decoded effect => exact ⟨rfl, client, idx, decoded, effect⟩

variable {client : Address} {idx : U32}

/-- A payment before the lock deadline leaves its mark. -/
theorem marked_of_paid_inTime {fill : Fulfillment} {prover : Address} {d : Delivery}
    (hid : clientAndIndex fill.id = .ok (client, idx)) (hlocked : (s.flags client idx).1 = true)
    (htime : s.timestamp ≤ (s.requestLocks fill.id).lockDeadline.setWidth 256) (hpaid : d.paid = true)
    (h : act cfg (.fulfillAndPay fill prover) s = .ok (s', .delivered d)) :
    (s'.requestLocks fill.id).isProverPaidBeforeLockDeadline = true := by
  cases act_effect h with
  | fulfill _ _ c i _ decoded authentic effect =>
    cases hid.symm.trans decoded
    cases effect with
    | expired | alreadyPaid | lockedOut | alreadyFulfilled | unfunded => simp [Delivery.paid] at hpaid
    | paidLocked _ _ _ _ _ change => simp [change.requestLocks]
    | paidLate _ _ _ late => exact absurd htime late
    | paidUnlocked flags => simp [flags] at hlocked

theorem late_of_slash (hid : clientAndIndex id = .ok (client, idx))
    (hlocked : (s.flags client idx).1 = true) (hu : Replay (act cfg) s u r)
    (hslash : (r.requestLocks id).isProverPaidBeforeLockDeadline = false)
    (v : List Step) (fill : Fulfillment) (prover : Address) (d : Delivery) (w : List Step) (q : State)
    (hsplit : u = v ++ (.fulfillAndPay fill prover, .delivered d) :: w) (hfill : fill.id = id)
    (hpaid : d.paid = true) (hq : Replay (act cfg) s v q) :
    (s.requestLocks id).lockDeadline.setWidth 256 < q.timestamp := by
  subst hsplit hfill
  obtain ⟨q0, q1, hv, ha, hw⟩ := replay_split hu
  cases replay_unique hv hq
  obtain ⟨hlocked', hdeadline, -⟩ := deadlines_kept_replay hid hlocked hq
  by_contra hlate
  rw [← hdeadline] at hlate
  have hmark := marked_of_paid_inTime hid hlocked' (BitVec.not_lt.mp hlate) hpaid ha
  obtain ⟨-, hstill, -⟩ := paid_final_replay hid ((act_effect ha).rewrites.locked_mono hlocked') hmark hw
  rw [hslash] at hstill
  cases hstill

section

variable (ht : Replay (act cfg) .initial t r) (h : act cfg (.slash id) r = .ok (r', o))

include ht h

theorem not_slashed_before (p : Outcome) : (.slash id, p) ∉ t := by
  intro hmem
  obtain ⟨-, client, idx, hid, heffect⟩ := slash_inversion h
  obtain ⟨t1, t2, rfl⟩ := append_of_mem hmem
  obtain ⟨q, q', -, ha, hrest⟩ := replay_split ht
  obtain ⟨-, c, i, hid', hfirst⟩ := slash_inversion ha
  cases hid.symm.trans hid'
  obtain ⟨_, _, _, -, change⟩ := hfirst.change
  have hmark : (q'.requestLocks id).isSlashed = true := by simp [change.requestLocks]
  rcases slashed_kept_replay hid ((act_effect ha).rewrites.locked_mono hfirst.locked) hmark hrest with hs | hs
  · simp [heffect.unslashed] at hs
  · simp [heffect.unpaid] at hs

theorem slashJustified_of_mem (hmem : id ∈ locksOf t client idx) : SlashJustified cfg t r id := by
  obtain ⟨hid, ⟨a, p⟩, hstep, request, hlocks, hreq⟩ := mem_locksOf.mp hmem
  obtain ⟨-, c, i, hid', heffect⟩ := slash_inversion h
  cases hid.symm.trans hid'
  have hone := locksOf_length ht client idx
  rw [if_pos heffect.locked] at hone
  obtain ⟨t1, t2, rfl⟩ := append_of_mem hstep
  obtain ⟨s0, s, hs0, ha, hrest⟩ := replay_split ht
  obtain rfl : p = .done := by
    cases act_effect ha with
    | fulfill => simp [Action.locks] at hlocks
    | begin | price | slash | money | lock => rfl
  obtain ⟨c, i, -, hdecoded, hlocked, hfresh, -⟩ := locked_of_act ha hlocks
  rw [hreq] at hdecoded
  cases hid.symm.trans hdecoded
  obtain ⟨-, -, hdeadline⟩ := deadlines_kept_replay hid hlocked hrest
  refine ⟨⟨t1, a, request, t2, s, rfl, hlocks, hreq, (replay_snoc _ _ _ _ _).mpr ⟨s0, hs0, ha⟩, ?_, ?_⟩,
    not_slashed_before ht h, ?_⟩
  · obtain ⟨deadline, hd, hlate⟩ := heffect.late
    exact ⟨deadline, hdeadline.symm.trans hd, hlate⟩
  · exact late_of_slash hid hlocked hrest heffect.unpaid
  · obtain ⟨k, hk⟩ := length_eq_one_iff.mp hone
    rw [hk, mem_singleton] at hmem
    rw [lock_events ht hid, hk, hmem]
    simp

theorem mem_locksOf_of_unaliased (hal : Unaliased Action.slashes (t ++ (.slash id, o) :: u)) :
    ∃ client idx, id ∈ locksOf t client idx := by
  obtain ⟨-, client, idx, hid, heffect⟩ := slash_inversion h
  obtain ⟨k, hk⟩ := exists_mem_locksOf ht heffect.locked
  obtain rfl := hal t _ o u id client idx rfl rfl hid k (by simp [hk])
  exact ⟨client, idx, by simp [hk]⟩

end

/-- Every logged slash comes after exactly one logged lock of its identifier. -/
theorem slash_events (h : Replay (act cfg) .initial t s) (hal : Unaliased Action.slashes t)
    (l1 : List Event) (e : Event) (l2 : List Event) (id : RequestId) (hsplit : s.logs = l1 ++ e :: l2)
    (he : e.isSlashOf id = true) : l1.countP (isLockOf id) = 1 := by
  refine replay_induction (P := fun t s => Unaliased Action.slashes t → ∀ l1 e l2 id, s.logs = l1 ++ e :: l2 →
    e.isSlashOf id = true → l1.countP (isLockOf id) = 1) ?_ ?_ h hal l1 e l2 id hsplit he
  · intro _ l1 e l2 id hsplit
    simp [State.initial] at hsplit
  · intro t r a o r' ht ih ha hal l1 e l2 id hsplit he
    obtain ⟨events, hlogs, hcases⟩ := (act_effect ha).log
    have hsingle {x : Event} {m : List Event} (h : [x] = m ++ e :: l2) : m = [] ∧ e = x := by
      cases m <;> simp_all
    -- the only new event about a slash is the last one, logged by the slash itself
    have hnew : ∀ m, l1 = r.logs ++ m → events = m ++ e :: l2 → l1.countP (isLockOf id) = 1 := by
      rintro m rfl hevents
      rcases hcases with ⟨-, hquiet⟩ | ⟨request, prover, signature, -, rfl⟩ | ⟨k, b, v, q, rfl, rfl⟩
      · have := (hquiet e (by simp [hevents]) id).2
        simp [he] at this
      · obtain ⟨rfl, rfl⟩ := hsingle hevents
        simp [isSlashOf] at he
      · obtain ⟨rfl, rfl⟩ := hsingle hevents
        obtain rfl : k = id := by simpa [isSlashOf] using he
        obtain ⟨client, idx, hmem⟩ := mem_locksOf_of_unaliased ht ha hal
        rw [append_nil]
        exact (slashJustified_of_mem ht ha hmem).announced
    rw [hlogs] at hsplit
    rcases append_eq_append_iff.mp hsplit with ⟨m, hl1, hevents⟩ | ⟨m, hold, hevents⟩
    · exact hnew m hl1 hevents
    · rcases m with _ | ⟨x, m⟩
      · exact hnew [] (by simpa using hold.symm) (by simpa using hevents.symm)
      · cases hevents
        exact ih hal.of_append l1 e m id hold he

/-- The slashes of a run are all justified exactly when no slash targets an alias
of the identifier that was locked. -/
theorem slashes_justified_iff (cfg : Config) (txs : List Transaction) :
    ((∀ t u id r, (run cfg txs).history = t ++ (.slash id, .done) :: u → Replay (act cfg) .initial t r →
        SlashJustified cfg t r id) ∧
      (∀ l1 e l2 id, (run cfg txs).state.logs = l1 ++ e :: l2 → e.isSlashOf id = true →
        l1.countP (Event.isLockOf id) = 1)) ↔
    Unaliased Action.slashes (run cfg txs).history := by
  have hrun := run_replay cfg txs
  constructor
  · rintro ⟨hjust, -⟩ v a o w id client idx hsplit htarget hid k hk
    obtain rfl : a = .slash id := by
      cases a <;> simp_all [Action.slashes]
    rw [hsplit] at hrun
    obtain ⟨r, r', hv, ha, -⟩ := replay_split hrun
    obtain ⟨rfl, c, i, hid', heffect⟩ := slash_inversion ha
    cases hid.symm.trans hid'
    obtain ⟨t1, b, request, t2, s, ht, hlocks, hreq, -⟩ := (hjust v w id r hsplit hv).locked
    have hmem : id ∈ locksOf v client idx :=
      mem_locksOf.mpr ⟨hid, (b, .done), by simp [ht], request, hlocks, hreq⟩
    obtain ⟨n, hn⟩ := exists_mem_locksOf hv heffect.locked
    rw [hn, List.mem_singleton] at hmem hk
    rw [hk, hmem]
  · intro hal
    refine ⟨fun t u id r hsplit ht => ?_, slash_events hrun hal⟩
    rw [hsplit] at hrun hal
    obtain ⟨q, q', hq, ha, -⟩ := replay_split hrun
    cases replay_unique hq ht
    obtain ⟨client, idx, hmem⟩ := mem_locksOf_of_unaliased ht ha hal
    exact slashJustified_of_mem ht ha hmem

end Justified

/-- Long after the sample lock expired its alias is slashed, which was never locked. -/
def sampleSlashing : Transaction where
  timestamp := 210
  calls := .cons (.slash sampleAlias) .nil

theorem sampleSlashing_unjustified :
    ¬ ∀ t u id r, (run sampleConfig [sampleLocking, sampleSlashing]).history = t ++ (.slash id, .done) :: u →
      Replay (act sampleConfig) .initial t r → SlashJustified sampleConfig t r id := by
  intro h
  have hsplit : (run sampleConfig [sampleLocking, sampleSlashing]).history =
      (sampleLocked.history ++ [(.begin 210, .done)]) ++ (.slash sampleAlias, .done) :: [] := rfl
  have hreplay := run_replay sampleConfig [sampleLocking, sampleSlashing]
  rw [hsplit] at hreplay
  obtain ⟨r, _, hr, -⟩ := replay_split hreplay
  obtain ⟨t1, a, request, t2, s, ht, hlocks, hreq, -⟩ := (h _ _ _ r hsplit hr).locked
  have hmem : sampleAlias ∈ locksOf (sampleLocked.history ++ [(.begin 210, .done)]) 1 7 :=
    mem_locksOf.mpr ⟨by decide, (a, .done), by rw [ht]; simp, request, hlocks, hreq⟩
  have hlocksOf : locksOf (sampleLocked.history ++ [(.begin 210, .done)]) 1 7 = [sampleId] := by decide
  rw [hlocksOf, List.mem_singleton] at hmem
  exact absurd hmem (by decide)

end VerifiableCompute.Market
