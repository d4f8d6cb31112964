import VerifiableCompute.Market.Locker

/-! The fulfilled flag and the events. A proof is only delivered under a fulfilled
index, and the first fulfilment under an index is the one that is announced. -/

namespace VerifiableCompute.Market

open Lib List

/-- The event announces the fulfilment of a request with this client and index. -/
def Event.fulfills (client : Address) (idx : U32) : Event → Bool
  | .requestFulfilled id _ _ => decide (clientAndIndex id = .ok (client, idx))
  | _ => false

/-- One when the fulfilled flag goes up between the states, else zero. -/
def raised (s s' : State) (client : Address) (idx : U32) : ℕ :=
  if (s.flags client idx).2 = false ∧ (s'.flags client idx).2 = true then 1 else 0

theorem raised_of_flags_eq {s s' : State} (h : s'.flags = s.flags) (client : Address) (idx : U32) :
    raised s s' client idx = 0 := by
  unfold raised
  rw [h]
  cases (s.flags client idx).2 <;> simp

/-- The events of one action: fulfilments are announced exactly when the flag goes
up, and proofs are delivered under a fulfilled index only. -/
structure Announces (s s' : State) (events : List Event) : Prop where
  logs : s'.logs = s.logs ++ events
  fulfills : ∀ client idx, events.countP (Event.fulfills client idx) = raised s s' client idx
  delivered : ∀ id prover fill, .proofDelivered id prover fill ∈ events →
    ∃ client idx, clientAndIndex id = .ok (client, idx) ∧ (s'.flags client idx).2 = true

namespace Announces

variable {s s' : State} {fill : Fulfillment} {prover client : Address} {idx : U32}
variable {L : Locks → Locks} {b c e t : ℤ}

theorem of_quiet {F : Flags → Flags} {events : List Event}
    (hc : Change s s' F L events b c e t) (hF : ∀ client idx, raised s s' client idx = 0)
    (hq : ∀ e ∈ events, (∀ client idx, e.fulfills client idx = false) ∧
      ∀ id prover fill, e ≠ .proofDelivered id prover fill) : Announces s s' events where
  logs := hc.logs
  fulfills client idx := by
    rw [hF client idx, countP_eq_zero]
    intro e he
    simp [(hq e he).1 client idx]
  delivered id prover fill hmem := absurd rfl ((hq _ hmem).2 id prover fill)

/-- A fill that finds the flag set, or sets it now. -/
theorem of_delivered (error : List Event)
    (hid : clientAndIndex fill.id = .ok (client, idx)) (herror : ∀ e ∈ error, ∃ r, e = .paymentRequirementsFailed r)
    (hc : Change s s' (raiseFlags client idx false true) L
      (fulfilledEvents s client idx fill prover ++ (error ++ [.proofDelivered fill.id prover fill])) b c e t) :
    Announces s s' (fulfilledEvents s client idx fill prover ++ (error ++ [.proofDelivered fill.id prover fill])) where
  logs := hc.logs
  fulfills c i := by
    have hquiet : error.countP (Event.fulfills c i) = 0 := by
      rw [countP_eq_zero]
      intro e he
      obtain ⟨r, rfl⟩ := herror e he
      simp [Event.fulfills]
    have hdelivered : countP (Event.fulfills c i) [.proofDelivered fill.id prover fill] = 0 := by
      simp [Event.fulfills]
    rw [countP_append, countP_append, hquiet, hdelivered, raised, hc.flags]
    by_cases hci : c = client ∧ i = idx
    · obtain ⟨rfl, rfl⟩ := hci
      cases hf : (s.flags c i).2 <;> simp [fulfilledEvents, hf, Event.fulfills, hid]
    · have hne : ¬ clientAndIndex fill.id = .ok (c, i) := by
        rw [hid]
        rintro ⟨⟩
        exact hci ⟨rfl, rfl⟩
      have hsame : raiseFlags client idx false true s.flags c i = s.flags c i := by simp [raiseFlags, hci]
      rw [hsame]
      cases hf : (s.flags client idx).2 <;> cases (s.flags c i).2 <;>
        simp [fulfilledEvents, hf, Event.fulfills, hne]
  delivered id p f hmem := by
    have hid' : id = fill.id := by
      rcases mem_append.mp hmem with h | h
      · unfold fulfilledEvents at h
        split_ifs at h <;> simp at h
      · rcases mem_append.mp h with h | h
        · obtain ⟨r, hr⟩ := herror _ h
          cases hr
        · simp only [mem_singleton, Event.proofDelivered.injEq] at h
          exact h.1
    subst hid'
    exact ⟨client, idx, hid, by simp [hc.flags]⟩

theorem of_redelivered {error : Revert}
    (hid : clientAndIndex fill.id = .ok (client, idx)) (hf : (s.flags client idx).2 = true)
    (hc : Change s s' id id [.paymentRequirementsFailed error, .proofDelivered fill.id prover fill] b c e t) :
    Announces s s' [.paymentRequirementsFailed error, .proofDelivered fill.id prover fill] where
  logs := hc.logs
  fulfills c i := by
    rw [raised_of_flags_eq hc.flags]
    simp [Event.fulfills]
  delivered id p f hmem := by
    simp only [mem_cons, reduceCtorEq, Event.proofDelivered.injEq, not_mem_nil, or_false, false_or] at hmem
    exact ⟨client, idx, hmem.1 ▸ hid, by rw [hc.flags]; exact hf⟩

theorem of_fulfill (hrec : Recorded s) {delivery : Delivery} (hid : clientAndIndex fill.id = .ok (client, idx))
    (h : FulfillEffect fill prover client idx s s' delivery) : ∃ events, Announces s s' events := by
  cases h with
  | expired change =>
    exact ⟨_, .of_quiet change (raised_of_flags_eq change.flags) (by simp [Event.fulfills])⟩
  | alreadyPaid locked paid change =>
    exact ⟨_, .of_redelivered hid (hrec.paid_fulfilled fill.id client idx hid paid) change⟩
  | lockedOut locked other change => exact ⟨_, .of_delivered [_] hid (by simp) change⟩
  | paidLocked locked inTime unpaid locker digest change credited =>
    exact ⟨_, .of_delivered [] hid (by simp) change⟩
  | paidLate error events locked late unpaid logged change =>
    refine ⟨_, .of_delivered events hid ?_ change⟩
    rcases logged with ⟨-, rfl⟩ | ⟨price, finalPrice, -, rfl⟩ <;> simp
  | alreadyFulfilled flags change => exact ⟨_, .of_redelivered hid (by rw [flags]) change⟩
  | unfunded flags change => exact ⟨_, .of_delivered [_] hid (by simp) change⟩
  | paidUnlocked flags change => exact ⟨_, .of_delivered [] hid (by simp) change⟩

/-- Every action announces what it does to the fulfilled flags. -/
theorem of_effect {cfg : Config} {a : Action} {o : Outcome} (hrec : Recorded s) (h : Effect cfg s s' a o) :
    ∃ events, Announces s s' events := by
  cases h with
  | begin timestamp later result =>
    subst result
    exact ⟨[], by simp, fun client idx => (raised_of_flags_eq rfl client idx).symm, by simp⟩
  | money a events value collateral isMoney logged change =>
    refine ⟨_, .of_quiet change (raised_of_flags_eq change.flags) fun e he => ?_⟩
    have := logged e he
    cases e <;> simp_all [Event.isMoney, Event.fulfills]
  | price request signature x lockDeadline deadline price valid result =>
    subst result
    exact ⟨[], by simp [State.storeContext], fun client idx => (raised_of_flags_eq rfl client idx).symm, by simp⟩
  | lock a request signature client idx lock locks decoded fresh flags change =>
    refine ⟨_, .of_quiet change (fun c i => ?_) (by simp [Event.fulfills])⟩
    have hsame : (s'.flags c i).2 = (s.flags c i).2 := by
      rw [change.flags, raiseFlags]
      split_ifs <;> simp
    rw [raised, hsame]
    cases (s.flags c i).2 <;> simp
  | fulfill fill prover client idx delivery decoded authentic effect => exact of_fulfill hrec decoded effect
  | slash requestId client idx decoded effect =>
    obtain ⟨_, _, _, -, change⟩ := effect.change
    exact ⟨_, .of_quiet change (raised_of_flags_eq change.flags) (by simp [Event.fulfills])⟩

end Announces

section Runs

variable {cfg : Config} {s s' : State}
variable {t : List Step}

theorem fulfilled_replay {client : Address} {idx : U32} (h : Replay (act cfg) s t s')
    (hf : (s.flags client idx).2 = true) : (s'.flags client idx).2 = true :=
  replay_invariant (P := fun r => (r.flags client idx).2 = true) hf
    (fun _ _ _ _ hr ha => (act_effect ha).rewrites.fulfilled_mono hr) h

/-- The log agrees with the flags: one announcement for each raised flag, and
deliveries under raised flags only. -/
theorem logs_agree (h : Replay (act cfg) .initial t s) :
    (∀ client idx, s.logs.countP (Event.fulfills client idx) = if (s.flags client idx).2 then 1 else 0) ∧
      ∀ id prover fill, .proofDelivered id prover fill ∈ s.logs →
        ∃ client idx, clientAndIndex id = .ok (client, idx) ∧ (s.flags client idx).2 = true := by
  refine replay_induction (P := fun _ s =>
    (∀ client idx, s.logs.countP (Event.fulfills client idx) = if (s.flags client idx).2 then 1 else 0) ∧
      ∀ id prover fill, .proofDelivered id prover fill ∈ s.logs →
        ∃ client idx, clientAndIndex id = .ok (client, idx) ∧ (s.flags client idx).2 = true) ?_ ?_ h
  · refine ⟨fun client idx => ?_, by simp [State.initial]⟩
    rw [initial_flags]
    rfl
  · rintro t r a o r' hr ⟨hcount, hdelivered⟩ ha
    have heffect := act_effect ha
    obtain ⟨events, hlogs, hfulfills, hnew⟩ := Announces.of_effect (.of_replay hr) heffect
    refine ⟨fun client idx => ?_, fun id prover fill hmem => ?_⟩
    · have hmono : (r.flags client idx).2 = true → (r'.flags client idx).2 = true :=
        heffect.rewrites.fulfilled_mono
      rw [hlogs, countP_append, hcount, hfulfills, raised]
      cases h1 : (r.flags client idx).2 <;> cases h2 : (r'.flags client idx).2 <;> simp_all
    · rw [hlogs, mem_append] at hmem
      rcases hmem with hmem | hmem
      · obtain ⟨client, idx, hid, hf⟩ := hdelivered id prover fill hmem
        exact ⟨client, idx, hid, heffect.rewrites.fulfilled_mono hf⟩
      · exact hnew id prover fill hmem

/-- In every state a run passes through: a delivered proof has its index flagged
from then on, the next action announces exactly the flags it raises and no index
was announced twice, and paid locks lie under flagged indices. -/
theorem fulfilled_flag_agrees (cfg : Config) (txs : List Transaction) (t : List Step) (s : State)
    (h : Passes cfg txs t s) : (∀ id prover fill, .proofDelivered id prover fill ∈ s.logs →
      ∃ client idx, clientAndIndex id = .ok (client, idx) ∧
        ∀ u s', Passes cfg txs (t ++ u) s' → (s'.flags client idx).2 = true) ∧
    (∀ a o s', Passes cfg txs (t ++ [(a, o)]) s' → ∃ events, s'.logs = s.logs ++ events ∧
      ∀ client idx, events.countP (Event.fulfills client idx) =
        if (s.flags client idx).2 = false ∧ (s'.flags client idx).2 = true then 1 else 0) ∧
    (∀ client idx, s.logs.countP (Event.fulfills client idx) ≤ 1) ∧
    (∀ id client idx, clientAndIndex id = .ok (client, idx) →
      ((s.requestLocks id).isProverPaidBeforeLockDeadline = true ∨
        (s.requestLocks id).isProverPaidAfterLockDeadline = true) → (s.flags client idx).2 = true) := by
  obtain ⟨hcount, hdelivered⟩ := logs_agree h.2
  refine ⟨?_, ?_, ?_, ?_⟩
  · intro id prover fill hmem
    obtain ⟨client, idx, hid, hf⟩ := hdelivered id prover fill hmem
    refine ⟨client, idx, hid, fun u s' hs' => ?_⟩
    obtain ⟨r, hr, hu⟩ := (replay_append _ _ t u).mp hs'.2
    rw [replay_unique hr h.2] at hu
    exact fulfilled_replay hu hf
  · intro a o s' hs'
    obtain ⟨r, hr, ha⟩ := (replay_snoc _ _ t a o).mp hs'.2
    rw [replay_unique hr h.2] at ha
    obtain ⟨events, hlogs, hfulfills, -⟩ := Announces.of_effect (.of_replay h.2) (act_effect ha)
    exact ⟨events, hlogs, hfulfills⟩
  · intro client idx
    rw [hcount]
    split_ifs <;> simp
  · intro id client idx hid hpaid
    exact (Recorded.of_replay h.2).paid_fulfilled id client idx hid (Bool.or_eq_true_iff.mpr hpaid)

end Runs

theorem proofDelivered_mem {cfg : Config} {fill : Fulfillment} {prover : Address} {s s' : State} {error : Option Revert}
    (h : fulfillAndPay cfg fill prover s = .ok (s', ⟨error, false⟩)) : .proofDelivered fill.id prover fill ∈ s'.logs := by
  obtain ⟨client, idx, -, -, effect⟩ := fulfillAndPay_effect h
  cases effect with
  | alreadyPaid _ _ change | lockedOut _ _ change | alreadyFulfilled _ change | unfunded _ change | paidUnlocked _ change
  | paidLocked _ _ _ _ _ change _ | paidLate _ _ _ _ _ _ change =>
    rw [change.logs]
    simp

/-- Another prover delivers the locked request first, which raises the flag and is announced; the
locker is paid later, which announces nothing. -/
theorem fulfilled_flag_sample :
    let s := (run sampleConfig sampleInterleaved).state
    let s' := (run sampleConfig (sampleInterleaved ++ [sampleFulfilment 120 [] sampleLockedFill 2])).state
    .proofDelivered sampleId 3 sampleLockedFill ∈ s.logs ∧ (s'.flags 1 7).2 = true ∧
      s'.logs.countP (Event.fulfills 1 7) = 1 ∧
      (∃ events, s'.logs = s.logs ++ events ∧ events.countP (Event.fulfills 1 7) = 0 ∧
        .proofDelivered sampleId 2 sampleLockedFill ∈ s'.logs) ∧
      (s'.requestLocks sampleId).isProverPaidBeforeLockDeadline = true := by
  obtain ⟨s, hrun, change⟩ := sampleInterleaved_run
  have hflags : s.flags 1 7 = (true, true) := by
    rw [change.flags]
    decide
  have hdelivered : .proofDelivered sampleId 3 sampleLockedFill ∈ s.logs := by
    rw [change.logs]
    simp
  have hannounced : .requestFulfilled sampleId 3 sampleLockedFill.requestDigest ∈ s.logs := by
    rw [change.logs]
    simp
  have heth : (s.eth : ℤ) = (10 : ℕ) + 0 := change.eth
  have htokens : (s.tokens : ℤ) = (5 : ℕ) + 0 := change.tokens
  obtain ⟨s', hfill, hpaid, hexec⟩ := sampleLocker_paid (replay_of_run_eq hrun) (congrArg Prod.fst hflags)
    (by rw [change.requestLocks]; rfl) (Int.ofNat_inj.mp heth) (Int.ofNat_inj.mp htokens)
    (by rw [change.timestamp]; decide)
  have hrun' := run_snoc sampleConfig sampleInterleaved (sampleFulfilment 120 [] sampleLockedFill 2)
  rw [hrun, hexec] at hrun'
  have hreplay := replay_of_run_eq hrun'
  have hbegun : act sampleConfig (.begin 120) s = .ok (s.begun 120, .done) := by
    have htime : s.timestamp ≤ 120 := by
      rw [change.timestamp]
      decide
    simp only [act, done, beginTransaction, require, htime, ↓reduceIte, bind, Except.bind]
    rfl
  have hpasses {t : List Step} {r : State} (ht : t <+: sampleLocked.history ++ sampleInterlude ++
      [(.begin 120, .done), (.fulfillAndPay sampleLockedFill 2, .delivered ⟨none, false⟩)])
      (hr : Replay (act sampleConfig) .initial t r) :
      Passes sampleConfig (sampleInterleaved ++ [sampleFulfilment 120 [] sampleLockedFill 2]) t r :=
    ⟨hrun' ▸ ht, hr⟩
  have hfirst := hpasses (List.prefix_append _ _) (replay_of_run_eq hrun)
  have hlast := hpasses (List.prefix_refl _) hreplay
  have hmid := hpasses ⟨[(.fulfillAndPay sampleLockedFill 2, .delivered ⟨none, false⟩)], by simp⟩
    ((replay_snoc _ _ _ _ _).mpr ⟨s, replay_of_run_eq hrun, hbegun⟩)
  obtain ⟨hforever, -, -, -⟩ := fulfilled_flag_agrees _ _ _ _ hfirst
  obtain ⟨-, hexact, -, -⟩ := fulfilled_flag_agrees _ _ _ _ hmid
  obtain ⟨-, -, honce, -⟩ := fulfilled_flag_agrees _ _ _ _ hlast
  obtain ⟨client, idx, hid, hset⟩ := hforever sampleId 3 sampleLockedFill hdelivered
  cases (show clientAndIndex sampleId = .ok (1, 7) by decide).symm.trans hid
  obtain ⟨events, hlogs, hcount⟩ := hexact (.fulfillAndPay sampleLockedFill 2) (.delivered ⟨none, false⟩) s'
    (by simpa using hlast)
  have hraise : events.countP (Event.fulfills 1 7) = 0 := by
    rw [hcount, if_neg]
    rintro ⟨hunset, -⟩
    cases hunset.symm.trans (congrArg Prod.snd hflags)
  have hsome : 0 < s'.logs.countP (Event.fulfills 1 7) := by
    refine List.countP_pos_iff.mpr ⟨_, ?_, (show Event.fulfills 1 7 (.requestFulfilled sampleId 3
      sampleLockedFill.requestDigest) = true by decide)⟩
    rw [hlogs]
    exact List.mem_append_left _ hannounced
  rw [hrun, hrun']
  exact ⟨hdelivered, hset _ _ hlast, le_antisymm (honce 1 7) hsome, ⟨events, hlogs, hraise, proofDelivered_mem hfill⟩, hpaid⟩

end VerifiableCompute.Market
