import VerifiableCompute.Lib.History
import VerifiableCompute.Market.Actions

/-! External calls of the market. A call may hand control to other contracts: to
the receiver of ether, to the callback of a delivered proof, to the verifier a
root is submitted to. What these do before they return is any sequence of further
calls, which is part of the call's description. A call that reverts leaves no
trace; the history of a chain lists the atomic actions that took effect. -/

namespace VerifiableCompute.Market

open Lib

abbrev Step := Action × Outcome

/-- The market on chain: its state, and the actions that led to it. -/
structure Chain where
  state : State
  history : List Step

def Chain.genesis : Chain := ⟨.initial, []⟩

def Chain.perform (cfg : Config) (a : Action) (c : Chain) : Except Revert (Chain × Outcome) := do
  let (s, o) ← act cfg a c.state
  return (⟨s, c.history ++ [(a, o)]⟩, o)

/-- An action of which only the effect matters. -/
def Chain.effect (cfg : Config) (a : Action) (c : Chain) : Except Revert Chain := do
  let (c, _) ← c.perform cfg a
  return c

/-- The callback recorded for a fill; a later entry for the same fill replaces an
earlier one. -/
def callbackOf (callbacks : List AssessorCallback) (i : ℕ) : Option AssessorCallback :=
  callbacks.reverse.find? fun c => c.index.toNat = i

mutual

/-- One external call, with what the contracts it calls do. -/
inductive Call where
  | deposit (sender : Address) (value : U256)
  | depositTo (sender account : Address) (value : U256)
  | submitRequest (sender : Address) (value : U256) (request : ProofRequest) (clientSignature : Bytes)
  | lockRequest (sender : Address) (request : ProofRequest) (clientSignature : Bytes) (x : External)
  | lockRequestWithSignature (request : ProofRequest) (clientSignature proverSignature : Bytes) (x : External)
  | priceRequest (request : ProofRequest) (clientSignature : Bytes) (x : External)
  | slash (requestId : RequestId)
  | depositCollateral (sender : Address) (value : U256) (transferred : Bool)
  | withdrawCollateral (sender : Address) (value : U256)
  /-- `receive` runs in the receiving account; `sent` is whether it accepts. -/
  | withdraw (sender : Address) (value : U256) (receive : Calls) (sent : Bool)
  /-- The entry points that fulfil a batch. First the submitted root's verifier
  runs, then the requests are priced, then the batch is fulfilled, and finally the
  prover's balance is paid out if `withdraw` holds. -/
  | fulfillment (setVerifier : Calls) (requests : List ProofRequest) (clientSignatures : List Bytes)
      (fills : Fills) (assessorReceipt : AssessorReceipt) (withdraw : Bool) (receive : Calls) (sent : Bool)
      (x : External)
  /-- `submitRoot`: the market only forwards to the given verifier. -/
  | submitRoot (setVerifier : Calls)

inductive Calls where
  | nil
  | cons (call : Call) (rest : Calls)

/-- The fills of a batch. With each fill comes what its callback does if one is
called: the calls it makes, whether it returns, and whether enough gas is left. -/
inductive Fills where
  | nil
  | cons (fill : Fulfillment) (handleProof : Calls) (returns enoughGas : Bool) (rest : Fills)

end

def Fills.calldata : Fills → List Fulfillment
  | .nil => []
  | .cons fill _ _ _ rest => fill :: rest.calldata

def priceRequests (cfg : Config) (x : External) : List ProofRequest → List Bytes → Chain → Except Revert Chain
  | [], _, c => .ok c
  | _ :: _, [], _ => .error .indexOutOfBounds
  | request :: requests, signature :: signatures, c => do
    let c ← c.effect cfg (.priceRequest request signature x)
    priceRequests cfg x requests signatures c

mutual

def Call.exec (cfg : Config) : Call → Chain → Except Revert Chain
  | .deposit sender value, c => c.effect cfg (.deposit sender value)
  | .depositTo sender account value, c => c.effect cfg (.depositTo sender account value)
  | .submitRequest sender value request signature, c =>
    c.effect cfg (.submitRequest sender value request signature)
  | .lockRequest sender request signature x, c => c.effect cfg (.lockRequest sender request signature x)
  | .lockRequestWithSignature request signature proverSignature x, c =>
    c.effect cfg (.lockRequestWithSignature request signature proverSignature x)
  | .priceRequest request signature x, c => c.effect cfg (.priceRequest request signature x)
  | .slash requestId, c => c.effect cfg (.slash requestId)
  | .depositCollateral sender value transferred, c =>
    c.effect cfg (.depositCollateral sender value transferred)
  | .withdrawCollateral sender value, c => c.effect cfg (.withdrawCollateral sender value)
  | .withdraw sender value receive sent, c => do
    let c ← c.effect cfg (.payOut sender value)
    let c := receive.exec cfg c
    require (sent = true) .transferFailed
    c.effect cfg (.logWithdrawal sender value)
  | .fulfillment setVerifier requests clientSignatures fills receipt withdraw receive sent x, c => do
    let c := setVerifier.exec cfg c
    let c ← priceRequests cfg x requests clientSignatures c
    verifyDelivery cfg x fills.calldata receipt c.state
    require (∀ callback ∈ receipt.callbacks, callback.index.toNat < fills.calldata.length) .indexOutOfBounds
    let c ← fills.exec cfg receipt 0 c
    let balance : U256 := (c.state.accounts receipt.prover).balance.setWidth 256
    if withdraw ∧ 0 < balance then do
      let c ← c.effect cfg (.payOut receipt.prover balance)
      let c := receive.exec cfg c
      require (sent = true) .transferFailed
      c.effect cfg (.logWithdrawal receipt.prover balance)
    else .ok c
  | .submitRoot setVerifier, c => .ok (setVerifier.exec cfg c)

/-- A sequence of calls; the ones that revert have no effect. -/
def Calls.exec (cfg : Config) : Calls → Chain → Chain
  | .nil, c => c
  | .cons call rest, c =>
    match call.exec cfg c with
    | .ok c' => rest.exec cfg c'
    | .error _ => rest.exec cfg c

/-- The loop of `fulfill` from the `i`-th fill on. A callback that fails is logged
and its effects are undone; a delivery that had expired is not called back. -/
def Fills.exec (cfg : Config) (receipt : AssessorReceipt) : ℕ → Fills → Chain → Except Revert Chain
  | _, .nil, c => .ok c
  | i, .cons fill handleProof returns enoughGas rest, c => do
    let (c, outcome) ← c.perform cfg (.fulfillAndPay fill receipt.prover)
    match outcome, callbackOf receipt.callbacks i with
    | .delivered ⟨_, false⟩, some callback =>
      if fill.fulfillmentDataType = .imageIdAndJournal then do
        require (enoughGas = true) .insufficientGas
        if returns then
          rest.exec cfg receipt (i + 1) (handleProof.exec cfg c)
        else do
          let c ← c.effect cfg (.logCallbackFailed fill.id callback.addr)
          rest.exec cfg receipt (i + 1) c
      else .error .unfulfillableCallback
    | _, _ => rest.exec cfg receipt (i + 1) c

end

namespace Call

variable (fills : Fills) (receipt : AssessorReceipt) (x : External)

def fulfill : Call := .fulfillment .nil [] [] fills receipt false .nil true x

def fulfillAndWithdraw (receive : Calls) (sent : Bool) : Call :=
  .fulfillment .nil [] [] fills receipt true receive sent x

variable (requests : List ProofRequest) (clientSignatures : List Bytes)

def priceAndFulfill : Call :=
  .fulfillment .nil requests clientSignatures fills receipt false .nil true x

def priceAndFulfillAndWithdraw (receive : Calls) (sent : Bool) : Call :=
  .fulfillment .nil requests clientSignatures fills receipt true receive sent x

variable (setVerifier : Calls)

def submitRootAndFulfill : Call :=
  .fulfillment setVerifier [] [] fills receipt false .nil true x

def submitRootAndFulfillAndWithdraw (receive : Calls) (sent : Bool) : Call :=
  .fulfillment setVerifier [] [] fills receipt true receive sent x

def submitRootAndPriceAndFulfill : Call :=
  .fulfillment setVerifier requests clientSignatures fills receipt false .nil true x

def submitRootAndPriceAndFulfillAndWithdraw (receive : Calls) (sent : Bool) : Call :=
  .fulfillment setVerifier requests clientSignatures fills receipt true receive sent x

end Call

/-- A transaction reaches the market through any number of calls, made directly or
by contracts; the calls of one transaction share its transient storage. -/
structure Transaction where
  timestamp : U256
  calls : Calls

def Transaction.exec (cfg : Config) (tx : Transaction) (c : Chain) : Chain :=
  match c.effect cfg (.begin tx.timestamp) with
  | .ok c' => tx.calls.exec cfg c'
  | .error _ => c

/-- The chain after a list of transactions; a transaction that would be earlier
than its predecessor is not included. -/
def run (cfg : Config) (txs : List Transaction) : Chain :=
  txs.foldl (fun c tx => tx.exec cfg c) .genesis

theorem run_snoc (cfg : Config) (txs : List Transaction) (tx : Transaction) :
    run cfg (txs ++ [tx]) = tx.exec cfg (run cfg txs) := by
  simp [run, List.foldl_append]

/-- The second chain continues the history of the first. -/
def Chain.Extends (cfg : Config) (c c' : Chain) : Prop :=
  ∃ t, c'.history = c.history ++ t ∧ Replay (act cfg) c.state t c'.state

namespace Chain.Extends

variable {cfg : Config} {c c' c'' : Chain}

theorem refl (c : Chain) : Extends cfg c c := ⟨[], by simp, rfl⟩

theorem trans (h : Extends cfg c c') (h' : Extends cfg c' c'') : Extends cfg c c'' := by
  obtain ⟨t, ht, hr⟩ := h
  obtain ⟨u, hu, hs⟩ := h'
  exact ⟨t ++ u, by rw [hu, ht, List.append_assoc], (replay_append _ _ t u).mpr ⟨_, hr, hs⟩⟩

theorem of_perform {a : Action} {o : Outcome} (h : c.perform cfg a = .ok (c', o)) : Extends cfg c c' := by
  obtain ⟨⟨s, o'⟩, hs, h⟩ := bind_ok_iff.mp h
  cases h
  exact ⟨[(a, o)], rfl, (replay_singleton _ _ _ _).mpr hs⟩

theorem of_effect {a : Action} (h : c.effect cfg a = .ok c') : Extends cfg c c' := by
  obtain ⟨⟨d, o⟩, hd, h⟩ := bind_ok_iff.mp h
  cases h
  exact of_perform hd

end Chain.Extends

theorem priceRequests_extends {cfg : Config} {x : External} : ∀ {requests : List ProofRequest}
    {signatures : List Bytes} {c c' : Chain}, priceRequests cfg x requests signatures c = .ok c' →
    Chain.Extends cfg c c'
  | [], _, c, _, h => by cases h; exact .refl c
  | _ :: _, [], _, _, h => by cases h
  | _ :: _, _ :: _, _, _, h => by
    obtain ⟨d, hd, h⟩ := bind_ok_iff.mp h
    exact (Chain.Extends.of_effect hd).trans (priceRequests_extends h)

mutual

theorem Call.exec_extends {cfg : Config} : ∀ (call : Call) {c c' : Chain}, call.exec cfg c = .ok c' →
    Chain.Extends cfg c c'
  | .deposit .., _, _, h => .of_effect h
  | .depositTo .., _, _, h => .of_effect h
  | .submitRequest .., _, _, h => .of_effect h
  | .lockRequest .., _, _, h => .of_effect h
  | .lockRequestWithSignature .., _, _, h => .of_effect h
  | .priceRequest .., _, _, h => .of_effect h
  | .slash _, _, _, h => .of_effect h
  | .depositCollateral .., _, _, h => .of_effect h
  | .withdrawCollateral .., _, _, h => .of_effect h
  | .withdraw sender value receive sent, c, c', h => by
    simp only [Call.exec, bind_ok_iff] at h
    obtain ⟨d, hd, _, -, h⟩ := h
    exact ((Chain.Extends.of_effect hd).trans (receive.exec_extends d)).trans (.of_effect h)
  | .fulfillment setVerifier requests signatures fills receipt withdraw receive sent x, c, c', h => by
    simp only [Call.exec, bind_ok_iff] at h
    obtain ⟨d, hd, _, -, _, -, e, he, h⟩ := h
    have hbatch := ((setVerifier.exec_extends c).trans (priceRequests_extends hd)).trans
      (fills.exec_extends receipt 0 he)
    by_cases hw : withdraw = true ∧ 0 < (e.state.accounts receipt.prover).balance.setWidth 256
    · simp only [hw, and_self, ↓reduceIte, bind_ok_iff] at h
      obtain ⟨f, hf, _, -, h⟩ := h
      exact ((hbatch.trans (.of_effect hf)).trans (receive.exec_extends f)).trans (.of_effect h)
    · simp only [hw, ↓reduceIte, Except.ok.injEq] at h
      exact h ▸ hbatch
  | .submitRoot setVerifier, c, c', h => by
    cases h
    exact setVerifier.exec_extends c

theorem Calls.exec_extends {cfg : Config} : ∀ (calls : Calls) (c : Chain), Chain.Extends cfg c (calls.exec cfg c)
  | .nil, c => .refl c
  | .cons call rest, c => by
    rw [Calls.exec]
    split
    next d hd => exact (call.exec_extends hd).trans (rest.exec_extends d)
    next => exact rest.exec_extends c

theorem Fills.exec_extends {cfg : Config} (receipt : AssessorReceipt) : ∀ (fills : Fills) (i : ℕ) {c c' : Chain},
    fills.exec cfg receipt i c = .ok c' → Chain.Extends cfg c c'
  | .nil, _, c, _, h => by cases h; exact .refl c
  | .cons fill handleProof returns enoughGas rest, i, c, c', h => by
    simp only [Fills.exec, bind_ok_iff] at h
    obtain ⟨⟨d, o⟩, hd, h⟩ := h
    refine (Chain.Extends.of_perform hd).trans ?_
    split at h
    next callback _ _ =>
      split_ifs at h <;> simp only [bind_ok_iff] at h
      · obtain ⟨_, -, h⟩ := h
        exact (handleProof.exec_extends d).trans (rest.exec_extends receipt (i + 1) h)
      · obtain ⟨_, -, e, he, h⟩ := h
        exact (Chain.Extends.of_effect he).trans (rest.exec_extends receipt (i + 1) h)
    next => exact rest.exec_extends receipt (i + 1) h

end

theorem Transaction.exec_extends (cfg : Config) (tx : Transaction) (c : Chain) :
    Chain.Extends cfg c (tx.exec cfg c) := by
  unfold Transaction.exec
  split
  next d hd => exact (Chain.Extends.of_effect hd).trans (tx.calls.exec_extends d)
  next => exact .refl c

/-- Replaying the recorded history from the deployed contract gives the state. -/
theorem run_replay (cfg : Config) (txs : List Transaction) :
    Replay (act cfg) .initial (run cfg txs).history (run cfg txs).state := by
  have hext : Chain.Extends cfg .genesis (run cfg txs) := by
    induction txs using List.reverseRecOn with
    | nil => exact .refl _
    | append_singleton txs tx ih =>
      rw [run_snoc]
      exact ih.trans (tx.exec_extends cfg _)
  obtain ⟨t, ht, hr⟩ := hext
  rw [ht]
  exact hr

theorem replay_of_run_eq {cfg : Config} {txs : List Transaction} {c : Chain} (h : run cfg txs = c) :
    Replay (act cfg) .initial c.history c.state := h ▸ run_replay cfg txs

end VerifiableCompute.Market
