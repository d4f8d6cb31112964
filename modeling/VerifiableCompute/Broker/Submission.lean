import VerifiableCompute.Broker.Coverage
import VerifiableCompute.Market.Requirements

/-! The submission of a batch. Its orders are prepared one by one, and one that cannot be prepared is left
out; what is sent then fits the assessor's proof if and only if none was left out. -/

namespace VerifiableCompute.Broker

open Lib Market List Option

inductive SubmitterErr
  | allRequestsExpiredBeforeSubmission (orders : List OrderId)
  | txnConfirmationError
  | marketError
  | unexpectedErr (msg : String)
  | panicked

/-- Why an order is not prepared; a failure is logged, and a panic ends the call. -/
inductive PrepareErr
  | failed (msg : String)
  | panicked

/-- What the database and the provers answer for one order; a call that fails gives none. -/
structure Answers where
  db : Db
  readable : Bool
  hasJournal : Bool
  fetchEncodeG16 : ProofId → Option Bytes
  fetchEncodeB3G16 : ProofId → Option Bytes
  encodeInclusion : List Digest → ℕ → Option Bytes
  hasDomain : Bool

/-- What is told to the call besides. -/
structure Call where
  /-- The database when the orders are checked for expired ones. -/
  db : Db
  now : BitVec 64
  /-- The root that the set builder ended with, if it has. -/
  finalizedRoot : Option Digest
  batchSeal : Option Bytes
  /-- The journal of the assessor's receipt. -/
  assessorJournal : Option AssessorJournal
  answers : ℕ → Answers
  assessorSeal : Option Bytes
  singleTxnFulfill : Bool
  withdraw : Bool
  /-- The root is on the chain, or a call of its own puts it there. -/
  submitMerkleRoot : Except SubmitterErr Unit

structure UnlockedRequest where
  request : ProofRequest
  clientSig : Bytes

structure FulfillmentTx where
  root : Option (Digest × Bytes)
  unlockedRequests : List UnlockedRequest
  fulfillments : List Fulfillment
  assessorReceipt : AssessorReceipt
  withdraw : Bool

/-- What a submitter is set up with. -/
structure Submitting where
  proofs : Proofs
  sha256 : Binfmt.Sha256
  merkleRoot : List Digest → Digest
  keccak256 : Bytes → Bytes32
  domainSeparator : Bytes32
  proverAddress : Address

/-- A call of a prover or of the database with the text of its error. -/
def orFail {α : Type} (x : Option α) (msg : String) : Except PrepareErr α :=
  match x with
  | some a => .ok a
  | none => .error (.failed msg)

namespace Submitting

variable (e : Submitting)

/-- The row of an order, with its image. -/
def readOrder (a : Answers) (id : OrderId) : Except PrepareErr (SubmissionOrder × Digest) := do
  require a.readable (.failed "Failed to get order from DB for submission, order NOT finalized")
  let order ← orFail (a.db.getSubmissionOrder id).toOption "Failed to get order from DB for submission, order NOT finalized"
  let imageId ← orFail (fromHex order.imageId) "Failed to decode order image ID"
  return (order, imageId)

def requestToPrice (order : SubmissionOrder) : List UnlockedRequest :=
  if order.fulfillmentType = .fulfillAfterLockExpire then [⟨order.request, order.clientSig⟩] else []

def orderClaimDigest (order : SubmissionOrder) (imageId : Digest) : Digest := okClaimDigest e.sha256 imageId (e.proofs.journal order.proofId)

section

variable (a : Answers) (claimDigests : List Digest)

/-- A compressed proof has a seal of its own; otherwise the claim is looked for among those of the batch. -/
def orderSeal (id : OrderId) (order : SubmissionOrder) (orderClaimDigest : Digest) : Except PrepareErr Bytes :=
  if isGroth16Selector order.request.requirements.selector then do
    let proofId ← orFail (a.db.getOrderCompressedProofId id).toOption "Failed to get order compressed proof ID from DB for submission"
    orFail (a.fetchEncodeG16 proofId) "Failed to fetch and encode g16 proof"
  else if isBlake3Groth16Selector order.request.requirements.selector then do
    let proofId ← orFail (a.db.getOrderCompressedProofId id).toOption "Failed to get order compressed proof ID from DB for submission"
    orFail (a.fetchEncodeB3G16 proofId) "Failed to fetch and encode blake3 groth16 proof"
  else do
    let i ← orFail (claimDigests.findIdx? (· == orderClaimDigest)) "Failed to find order claim in aggregated claims"
    orFail (a.encodeInclusion claimDigests i) "Failed to encode seal"

/-- A claim that is asked for is sent as it is, and no data with it. -/
def prepareFill (id : OrderId) (order : SubmissionOrder) (imageId : Digest) : Except PrepareErr Fulfillment := do
  require a.hasJournal (.failed "Order proof Journal missing")
  let orderClaimDigest := e.orderClaimDigest order imageId
  let sealData ← orderSeal a claimDigests id order orderClaimDigest
  require a.hasDomain (.failed "Failed to get the domain of the market")
  let request := order.request
  let requestDigest := hashTypedDataV4 e.keccak256 e.domainSeparator (request.eip712Digest e.keccak256)
  match request.requirements.predicate.predicateType with
  | .claimDigestMatch => do
    require (request.requirements.predicate.data.length = 32) .panicked
    return ⟨request.id, requestDigest, BitVec.ofNat 256 (beNat request.requirements.predicate.data), .none, [], sealData⟩
  | .prefixMatch | .digestMatch =>
    return ⟨request.id, requestDigest, orderClaimDigest, .imageIdAndJournal,
      abiEncodeImageIdAndJournal imageId (e.proofs.journal order.proofId), sealData⟩

/-- What comes of one order. A request stays among those to price when its order is left out. -/
def submitOrder (id : OrderId) : Except SubmitterErr (List UnlockedRequest × Option Fulfillment) :=
  match readOrder a id with
  | .error _ => .ok ([], none)
  | .ok (order, imageId) =>
    match e.prepareFill a claimDigests id order imageId with
    | .ok fill => .ok (requestToPrice order, some fill)
    | .error (.failed _) => .ok (requestToPrice order, none)
    | .error .panicked => .error .panicked

def submitOrders (answers : ℕ → Answers) (claimDigests : List Digest) : ℕ → List OrderId →
    Except SubmitterErr (List UnlockedRequest × List Fulfillment)
  | _, [] => .ok ([], [])
  | i, id :: rest => do
    let (request, fill) ← e.submitOrder (answers i) claimDigests id
    let (requests, fills) ← submitOrders answers claimDigests (i + 1) rest
    return (request ++ requests, fill.toList ++ fills)

def checkExpired (c : Call) (batch : Batch) : Except SubmitterErr Unit := do
  let orders := c.db.getOrders batch.orders
  require (∀ o ∈ orders, o.2.expireTimestamp.isSome) .panicked
  let expired := orders.filter fun o => o.2.expireTimestamp.any (· < c.now)
  require (expired.length ≠ orders.length) (.allRequestsExpiredBeforeSubmission (orders.map Prod.fst))

scoped instance instLawfulBEqDigest : LawfulBEq Digest := inferInstance

def orUnexpected {α : Type} (x : Option α) (msg : String) : Except SubmitterErr α :=
  match x with
  | some a => .ok a
  | none => .error (.unexpectedErr msg)

def submitBatch (c : Call) (batch : Batch) : Except SubmitterErr FulfillmentTx := do
  let state ← orUnexpected batch.aggregationState "Cannot submit batch with no recorded aggregation state"
  let _ ← orUnexpected state.groth16ProofId "Cannot submit batch with no recorded Groth16 proof ID"
  require (state.claimDigests ≠ []) (.unexpectedErr "Cannot submit batch with no claim digests")
  let assessorProofId ← orUnexpected batch.assessorProofId "Cannot submit batch with no assessor receipt"
  let finalizedRoot ← orUnexpected c.finalizedRoot "Cannot submit guest state that is not finalized"
  checkExpired c batch
  let batchSeal ← orUnexpected c.batchSeal "Failed to fetch g16 receipt"
  let root := e.merkleRoot state.claimDigests
  require (finalizedRoot = root) (.unexpectedErr "Guest state finalized root is inconsistent with claim digests")
  let assessorJournal ← orUnexpected c.assessorJournal "Failed to get assessor receipt"
  let (unlockedRequests, fulfillments) ← e.submitOrders c.answers state.claimDigests 0 batch.orders
  require (e.proofs.claimDigest assessorProofId ∈ state.claimDigests)
    (.unexpectedErr "Failed to find order claim assessor claim in aggregated claims")
  let assessorSeal ← orUnexpected c.assessorSeal "ABI encode assessor set inclusion receipt"
  let assessorReceipt : AssessorReceipt := ⟨assessorSeal, assessorJournal.callbacks, assessorJournal.selectors, e.proverAddress⟩
  if c.singleTxnFulfill then
    return ⟨some (root, batchSeal), unlockedRequests, fulfillments, assessorReceipt, c.withdraw⟩
  else do
    c.submitMerkleRoot
    return ⟨none, unlockedRequests, fulfillments, assessorReceipt, c.withdraw⟩

def HasSeal (order : Order) (orderClaimDigest : Digest) : Prop :=
  match order.compressionType with
  | .groth16 => ∃ proofId, order.compressedProofId = some proofId ∧ (a.fetchEncodeG16 proofId).isSome
  | .blake3Groth16 => ∃ proofId, order.compressedProofId = some proofId ∧ (a.fetchEncodeB3G16 proofId).isSome
  | .none => orderClaimDigest ∈ claimDigests ∧ (a.encodeInclusion claimDigests (claimDigests.idxOf orderClaimDigest)).isSome

end

/-- Nothing that an order needs fails. -/
structure Prepares (a : Answers) (claimDigests : List Digest) (id : OrderId) (order : Order) (proofId : ProofId) (imageId : Digest) : Prop where
  readable : a.readable = true
  row : a.db.orders.get? id = some order
  proven : order.proofId = some proofId
  image : order.imageId.bind fromHex = some imageId
  lockPrice : order.lockPrice.isSome
  hasJournal : a.hasJournal = true
  hasSeal : HasSeal a claimDigests order (okClaimDigest e.sha256 imageId (e.proofs.journal proofId))
  hasDomain : a.hasDomain = true

def Prepared (a : Answers) (claimDigests : List Digest) (id : OrderId) : Prop :=
  ∃ order proofId imageId, e.Prepares a claimDigests id order proofId imageId

structure FillOf (order : Order) (imageId : Digest) (journal : Bytes) (fill : Fulfillment) : Prop where
  id : fill.id = order.request.id
  requestDigest : fill.requestDigest = hashTypedDataV4 e.keccak256 e.domainSeparator (order.request.eip712Digest e.keccak256)
  claim : order.request.requirements.predicate.predicateType = .claimDigestMatch →
    fill.claimDigest = BitVec.ofNat 256 (beNat order.request.requirements.predicate.data) ∧
      (fill.fulfillmentDataType, fill.fulfillmentData) = FulfillmentData.none.typeAndData
  data : order.request.requirements.predicate.predicateType ≠ .claimDigestMatch →
    fill.claimDigest = okClaimDigest e.sha256 imageId journal ∧
      (fill.fulfillmentDataType, fill.fulfillmentData) = (FulfillmentData.imageIdAndJournal imageId journal).typeAndData

variable {e : Submitting} {a : Answers} {claimDigests : List Digest} {id : OrderId}

@[simp] theorem orFail_ok_iff {α : Type} (x : Option α) (msg : String) (y : α) : orFail x msg = .ok y ↔ x = some y := by
  cases x <;> simp [orFail]

@[simp] theorem orUnexpected_ok_iff {α : Type} (x : Option α) (msg : String) (y : α) : orUnexpected x msg = .ok y ↔ x = some y := by
  cases x <;> simp [orUnexpected]

variable {order : Order} {o : SubmissionOrder} {imageId : Digest} {requests : List UnlockedRequest}

theorem getOrderCompressedProofId_toOption (hget : a.db.orders.get? id = some order) :
    (a.db.getOrderCompressedProofId id).toOption = order.compressedProofId := by
  simp only [Db.getOrderCompressedProofId, hget]
  split
  next h => rw [h]; rfl
  next h => rw [h]; rfl

theorem getSubmissionOrder_ok : (a.db.getSubmissionOrder id).toOption = some o ↔
    ∃ order, a.db.orders.get? id = some order ∧ order.proofId = some o.proofId ∧ order.imageId = some o.imageId ∧
      order.lockPrice = some o.lockPrice ∧ o.request = order.request ∧ o.clientSig = order.clientSig ∧
        o.fulfillmentType = order.fulfillmentType := by
  unfold Db.getSubmissionOrder
  split
  next hnone => simp [hnone, Except.toOption]
  next order hsome =>
    split
    next proofId imageId lockPrice hp hi hl =>
      constructor
      · intro h
        cases h
        exact ⟨order, hsome, hp, hi, hl, rfl, rfl, rfl⟩
      · rintro ⟨order', hget, hp', hi', hl', hr, hc, hf⟩
        obtain rfl := Option.some.inj (hsome.symm.trans hget)
        obtain ⟨request, clientSig, p, i, l, f⟩ := o
        obtain rfl := Option.some.inj (hp.symm.trans hp')
        obtain rfl := Option.some.inj (hi.symm.trans hi')
        obtain rfl := Option.some.inj (hl.symm.trans hl')
        subst hr hc hf
        rfl
    all_goals
      constructor
      · intro h
        cases h
      · rintro ⟨order', hget, hp', hi', hl', -⟩
        obtain rfl := Option.some.inj (hsome.symm.trans hget)
        simp_all

theorem orderSeal_ok_iff (hget : a.db.orders.get? id = some order) (hrequest : o.request = order.request)
    (claim : Digest) : (∃ sealData, orderSeal a claimDigests id o claim = .ok sealData) ↔ HasSeal a claimDigests order claim := by
  unfold orderSeal HasSeal Order.compressionType
  rw [hrequest]
  split_ifs with hgroth16 hblake3
  · simp only [bind_ok_iff, orFail_ok_iff, getOrderCompressedProofId_toOption hget, isSome_iff_exists]
    exact exists_comm.trans (exists_congr fun _ => exists_and_left)
  · simp only [bind_ok_iff, orFail_ok_iff, getOrderCompressedProofId_toOption hget, isSome_iff_exists]
    exact exists_comm.trans (exists_congr fun _ => exists_and_left)
  · simp only [bind_ok_iff, orFail_ok_iff, isSome_iff_exists]
    constructor
    · rintro ⟨sealData, i, hi, hs⟩
      obtain ⟨hlt, hclaim, -⟩ := findIdx?_eq_some_iff_getElem.mp hi
      have hmem : claim ∈ claimDigests := eq_of_beq hclaim ▸ getElem_mem hlt
      have hidx : claimDigests.idxOf claim = i := (findIdx?_eq_some_iff_findIdx_eq.mp hi).2
      exact ⟨hmem, sealData, hidx ▸ hs⟩
    · rintro ⟨hmem, sealData, hs⟩
      exact ⟨sealData, claimDigests.idxOf claim, findIdx?_eq_some_iff_findIdx_eq.mpr ⟨idxOf_lt_length_iff.mpr hmem, rfl⟩, hs⟩

theorem readOrder_ok_iff : readOrder a id = .ok (o, imageId) ↔
    a.readable = true ∧ (a.db.getSubmissionOrder id).toOption = some o ∧ fromHex o.imageId = some imageId := by
  simp only [readOrder, bind_ok_iff, require_ok_iff, orFail_ok_iff, exists_const]
  constructor
  · rintro ⟨hreadable, order, horder, image, himage, h⟩
    obtain ⟨rfl, rfl⟩ := Prod.mk.inj (Except.ok.inj h)
    exact ⟨hreadable, horder, himage⟩
  · rintro ⟨hreadable, horder, himage⟩
    exact ⟨hreadable, o, horder, imageId, himage, rfl⟩

theorem prepareFill_ok {fill : Fulfillment} (h : e.prepareFill a claimDigests id o imageId = .ok fill) :
    a.hasJournal = true ∧ a.hasDomain = true ∧ (∃ sealData, orderSeal a claimDigests id o (e.orderClaimDigest o imageId) = .ok sealData) ∧
      ∀ order : Order, o.request = order.request → e.FillOf order imageId (e.proofs.journal o.proofId) fill := by
  simp only [prepareFill, bind_ok_iff, require_ok_iff, exists_const] at h
  obtain ⟨hjournal, sealData, hseal, hdomain, h⟩ := h
  refine ⟨hjournal, hdomain, ⟨sealData, hseal⟩, fun order hrequest => ?_⟩
  split at h
  next htype =>
    simp only [bind_ok_iff, require_ok_iff, exists_const] at h
    obtain ⟨-, h⟩ := h
    cases h
    rw [hrequest] at htype
    exact ⟨by rw [hrequest], by rw [hrequest], fun _ => ⟨by rw [hrequest], rfl⟩, fun hne => absurd htype hne⟩
  all_goals
    rename_i htype
    cases h
    rw [hrequest] at htype
    refine ⟨by rw [hrequest], by rw [hrequest], fun heq => ?_, fun _ => ⟨rfl, rfl⟩⟩
    rw [htype] at heq
    cases heq

theorem prepareFill_failed {msg : String} (h : e.prepareFill a claimDigests id o imageId = .error (.failed msg)) :
    ¬(a.hasJournal = true ∧ a.hasDomain = true ∧ ∃ sealData, orderSeal a claimDigests id o (e.orderClaimDigest o imageId) = .ok sealData) := by
  rintro ⟨hjournal, hdomain, sealData, hseal⟩
  simp only [prepareFill, require, hjournal, hdomain, hseal, if_true, bind, Except.bind] at h
  split at h
  next =>
    split_ifs at h
    · cases h
    · cases h
  all_goals cases h

theorem submitOrder_ok {out : Option Fulfillment} (h : e.submitOrder a claimDigests id = .ok (requests, out)) :
    (out.isSome ↔ e.Prepared a claimDigests id) ∧
      ∀ fill, out = some fill → ∃ order proofId imageId, e.Prepares a claimDigests id order proofId imageId ∧
        e.FillOf order imageId (e.proofs.journal proofId) fill := by
  -- An order that is prepared is read.
  have hread {order : Order} {proofId : ProofId} {imageId : Digest} (hp : e.Prepares a claimDigests id order proofId imageId) :
      ∃ o, readOrder a id = .ok (o, imageId) ∧ o.proofId = proofId ∧ o.request = order.request := by
    obtain ⟨digits, hdigits, himage⟩ := bind_eq_some_iff.mp hp.image
    obtain ⟨lockPrice, hlock⟩ := isSome_iff_exists.mp hp.lockPrice
    exact ⟨⟨order.request, order.clientSig, proofId, digits, lockPrice, order.fulfillmentType⟩,
      readOrder_ok_iff.mpr ⟨hp.readable, getSubmissionOrder_ok.mpr ⟨order, hp.row, hp.proven, hdigits, hlock, rfl, rfl, rfl⟩, himage⟩, rfl, rfl⟩
  unfold submitOrder at h
  split at h
  next err herr =>
    obtain ⟨rfl, rfl⟩ := Prod.mk.inj (Except.ok.inj h)
    refine ⟨⟨nofun, fun ⟨order, proofId, imageId, hp⟩ => ?_⟩, nofun⟩
    obtain ⟨o, hok, -⟩ := hread hp
    cases herr.symm.trans hok
  next o imageId hok =>
    obtain ⟨hreadable, horder, himage⟩ := readOrder_ok_iff.mp hok
    obtain ⟨order, hget, hproof, hdigits, hlock, hrequest, -⟩ := getSubmissionOrder_ok.mp horder
    have hprepares (hjournal : a.hasJournal = true) (hdomain : a.hasDomain = true)
        (hseal : ∃ sealData, orderSeal a claimDigests id o (e.orderClaimDigest o imageId) = .ok sealData) :
        e.Prepares a claimDigests id order o.proofId imageId :=
      ⟨hreadable, hget, hproof, by rw [hdigits, bind_some, himage], by rw [hlock]; rfl, hjournal, (orderSeal_ok_iff hget hrequest _).mp hseal, hdomain⟩
    split at h
    next fill hfill =>
      obtain ⟨rfl, rfl⟩ := Prod.mk.inj (Except.ok.inj h)
      obtain ⟨hjournal, hdomain, hseal, hof⟩ := prepareFill_ok hfill
      refine ⟨⟨fun _ => ⟨order, _, imageId, hprepares hjournal hdomain hseal⟩, fun _ => rfl⟩, fun fill' heq => ?_⟩
      cases heq
      exact ⟨order, _, imageId, hprepares hjournal hdomain hseal, hof order hrequest⟩
    next msg hfailed =>
      obtain ⟨rfl, rfl⟩ := Prod.mk.inj (Except.ok.inj h)
      refine ⟨⟨nofun, fun ⟨order', proofId, imageId', hp⟩ => ?_⟩, nofun⟩
      obtain ⟨o', hok', rfl, -⟩ := hread hp
      obtain ⟨rfl, rfl⟩ := Prod.mk.inj (Except.ok.inj (hok.symm.trans hok'))
      obtain rfl := Option.some.inj (hget.symm.trans hp.row)
      exact absurd ⟨hp.hasJournal, hp.hasDomain, (orderSeal_ok_iff hget hrequest _).mpr hp.hasSeal⟩ (prepareFill_failed hfailed)
    next => cases h

/-- All orders are prepared if and only if none is left out, and then each fill is in its place. -/
theorem submitOrders_ok {answers : ℕ → Answers} {n : ℕ} {ids : List OrderId} {fills : List Fulfillment}
    (h : e.submitOrders answers claimDigests n ids = .ok (requests, fills)) :
    fills.length ≤ ids.length ∧ (fills.length = ids.length ↔ ∀ i id, ids[i]? = some id → e.Prepared (answers (n + i)) claimDigests id) ∧
      (fills.length = ids.length → ∀ i id fill, ids[i]? = some id → fills[i]? = some fill → ∃ order proofId imageId,
        e.Prepares (answers (n + i)) claimDigests id order proofId imageId ∧ e.FillOf order imageId (e.proofs.journal proofId) fill) := by
  induction ids generalizing n requests fills with
  | nil =>
    obtain ⟨rfl, rfl⟩ := Prod.mk.inj (Except.ok.inj h)
    simp
  | cons id ids ih =>
    simp only [submitOrders, bind_ok_iff, Prod.exists] at h
    obtain ⟨request, out, hone, requests', fills', hrest, h⟩ := h
    obtain ⟨rfl, rfl⟩ := Prod.mk.inj (Except.ok.inj h)
    obtain ⟨hprepared, hfill⟩ := submitOrder_ok hone
    obtain ⟨hle, hall, hat⟩ := ih hrest
    have hshift (i : ℕ) : n + (i + 1) = n + 1 + i := by ring
    cases out with
    | none =>
      have hlt : fills'.length < (id :: ids).length := Nat.lt_succ_of_le hle
      refine ⟨hlt.le, ⟨fun heq => absurd heq hlt.ne, fun hp => ?_⟩, fun heq => absurd heq hlt.ne⟩
      exact absurd (hprepared.mpr (hp 0 id rfl)) (by decide)
    | some fill =>
      have hlength : (fill :: fills').length = (id :: ids).length ↔ fills'.length = ids.length := Nat.succ_inj
      refine ⟨Nat.succ_le_succ hle, ?_, fun heq i id' fill' hid hf => ?_⟩
      · rw [show (some fill).toList ++ fills' = fill :: fills' from rfl, hlength, hall]
        constructor
        · rintro hp (_ | i) id' hid
          · cases hid
            exact hprepared.mp rfl
          · rw [hshift]
            exact hp i id' hid
        · intro hp i id' hid
          rw [← hshift]
          exact hp (i + 1) id' hid
      · cases i with
        | zero =>
          cases hid
          cases hf
          exact hfill _ rfl
        | succ i =>
          rw [hshift]
          exact hat (hlength.mp heq) i id' fill' hid hf

theorem submitBatch_ok {c : Call} {batch : Batch} {tx : FulfillmentTx} (h : e.submitBatch c batch = .ok tx) :
    (∃ requests, e.submitOrders c.answers batch.claimDigests 0 batch.orders = .ok (requests, tx.fulfillments)) ∧
      ∃ journal, c.assessorJournal = some journal ∧ tx.assessorReceipt.selectors = journal.selectors ∧
        tx.assessorReceipt.callbacks = journal.callbacks := by
  simp only [submitBatch, bind_ok_iff, require_ok_iff, orUnexpected_ok_iff, Prod.exists, exists_const] at h
  obtain ⟨state, hstate, -, -, -, proofId, -, root, -, -, -, batchSeal, -, -, journal, hjournal, requests, fills, hfills, -, assessorSeal, -, h⟩ := h
  have hdigests : batch.claimDigests = state.claimDigests := by rw [Batch.claimDigests, hstate]; rfl
  refine ⟨⟨requests, ?_⟩, journal, hjournal, ?_⟩
  · rw [hdigests, hfills]
    split_ifs at h
    · cases h
      rfl
    · obtain ⟨_, -, h⟩ := bind_ok_iff.mp h
      cases h
      rfl
  · split_ifs at h
    · cases h
      exact ⟨rfl, rfl⟩
    · obtain ⟨_, -, h⟩ := bind_ok_iff.mp h
      cases h
      exact ⟨rfl, rfl⟩

/-- The assessor that the submitter's batches are proven with. -/
def guest (e : Submitting) (validRequest : ProofRequest → Bool) (recover : Bytes32 → Bytes → Option Address) : Guest :=
  assessorGuest e.sha256 e.keccak256 e.domainSeparator validRequest recover

end Submitting

/-- The transaction has the fills that the assessor committed to, one by one and in order, so that the contract arrives at the same
root, and what the journal says of a position is about the fill that is there. -/
structure FulfillmentTx.Matches (g : Guest) (input : AssessorInput) (journal : AssessorJournal) (tx : FulfillmentTx) : Prop where
  commitments : batchCommitments g.keccak256 tx.fulfillments = g.commitments input
  root : batchRoot g.keccak256 tx.fulfillments = .ok journal.root
  selectors : ∀ selector ∈ tx.assessorReceipt.selectors, ∃ fill assessed, tx.fulfillments[selector.index.toNat]? = some fill ∧
    input.fills[selector.index.toNat]? = some assessed ∧ fill.id = assessed.request.id ∧
      g.requestDigest assessed = some fill.requestDigest ∧ selector.value = assessed.request.requirements.selector
  callbacks : ∀ callback ∈ tx.assessorReceipt.callbacks, ∃ fill assessed, tx.fulfillments[callback.index.toNat]? = some fill ∧
    input.fills[callback.index.toNat]? = some assessed ∧ fill.id = assessed.request.id ∧
      g.requestDigest assessed = some fill.requestDigest ∧ callback.addr = assessed.request.requirements.callback.addr ∧
        callback.gasLimit = assessed.request.requirements.callback.gasLimit

section Matching

variable {g : Guest} {input : AssessorInput} {journal : AssessorJournal} {tx : FulfillmentTx}

theorem FulfillmentTx.matches_of_commitments (hguest : g.main input = some journal) (hselectors : tx.assessorReceipt.selectors = journal.selectors)
    (hcallbacks : tx.assessorReceipt.callbacks = journal.callbacks)
    (hcommitments : batchCommitments g.keccak256 tx.fulfillments = g.commitments input) : tx.Matches g input journal := by
  obtain ⟨hlength, hne, hat, hroot⟩ := Guest.main_some hguest
  obtain ⟨hlimit, -, -, -⟩ := Guest.main_names hguest
  have hfills : tx.fulfillments.length = input.fills.length := by
    rw [← hlength, ← hcommitments, batchCommitments, length_mapIdx]
  have hfill (i : ℕ) (assessed : AssessorFill) (hget : input.fills[i]? = some assessed) :
      ∃ fill, tx.fulfillments[i]? = some fill ∧ fill.id = assessed.request.id ∧ g.requestDigest assessed = some fill.requestDigest := by
    obtain ⟨hi, rfl⟩ := List.getElem?_eq_some_iff.mp hget
    obtain ⟨-, hid, hdigest, -⟩ := Guest.commitment_some (hat i hi (by omega))
    have hsame : (g.commitments input).get ⟨i, by omega⟩ = (tx.fulfillments.get ⟨i, by omega⟩).commitment g.keccak256 i := by
      simp only [← hcommitments, batchCommitments, get_eq_getElem, getElem_mapIdx]
    rw [hsame] at hid hdigest
    exact ⟨tx.fulfillments.get ⟨i, by omega⟩, getElem?_eq_getElem (by omega), hid, hdigest⟩
  refine ⟨hcommitments, ?_, fun selector hmem => ?_, fun callback hmem => ?_⟩
  · have hleaves : tx.fulfillments.mapIdx (fun i f => (f.commitment g.keccak256 i).eip712Digest g.keccak256) =
        (g.commitments input).map (AssessorCommitment.eip712Digest g.keccak256) := by
      rw [← hcommitments]
      apply ext_getElem <;> simp [batchCommitments]
    obtain ⟨root, hok, href⟩ := processTree_eq g.keccak256 ((g.commitments input).map (AssessorCommitment.eip712Digest g.keccak256)) (by
      rw [ne_eq, map_eq_nil_iff]
      intro hnil
      rw [hnil] at hlength
      exact hne (eq_nil_of_length_eq_zero hlength.symm))
    obtain rfl := Option.some.inj (href.symm.trans hroot)
    rw [batchRoot, hleaves, hok, require, if_pos (by omega)]
    rfl
  · rw [hselectors] at hmem
    obtain ⟨assessed, hget, hvalue⟩ := Guest.main_selector hguest hmem
    obtain ⟨fill, hfill, hid, hdigest⟩ := hfill _ _ hget
    exact ⟨fill, assessed, hfill, hget, hid, hdigest, hvalue⟩
  · rw [hcallbacks] at hmem
    obtain ⟨assessed, hget, haddr, hgas, -⟩ := Guest.main_callback hguest hmem
    obtain ⟨fill, hfill, hid, hdigest⟩ := hfill _ _ hget
    exact ⟨fill, assessed, hfill, hget, hid, hdigest, haddr, hgas⟩

end Matching

/-- What a system can become. -/
def System.Later (proofs : Proofs) : System → System → Prop :=
  Relation.ReflTransGen fun s s' => ∃ event, s.step proofs event = some s'

def System.assessed (s : System) (batch : Batch) : Option (List (OrderId × AssessorFill)) := batch.assessorProofId.bind fun proofId => s.assessors.lookup proofId

theorem System.Later.follows {proofs : Proofs} {s s' : System} (hknown : s.Known) (hlater : s.Later proofs s') :
    s'.Known ∧ ∀ id order, s.db.orders.get? id = some order → order.status ≠ .skipped →
      ∃ order', s'.db.orders.get? id = some order' ∧ order'.Follows order := by
  induction hlater with
  | refl => exact ⟨hknown, fun id order hget _ => ⟨order, hget, .refl order⟩⟩
  | tail _ hstep ih =>
    obtain ⟨hmid, hrows⟩ := ih
    obtain ⟨event, hstep⟩ := hstep
    obtain ⟨he, hknown'⟩ := hmid.event hstep
    refine ⟨hknown', fun id order hget hne => ?_⟩
    obtain ⟨order', hget', hfollows⟩ := hrows id order hget hne
    obtain ⟨order'', hget'', hfollows'⟩ := he.rows id order' hget' (hfollows.accepted hne)
    exact ⟨order'', hget'', hfollows'.toFollows.trans hfollows⟩

namespace Submitting

variable {e : Submitting} {validRequest : ProofRequest → Bool} {recover : Bytes32 → Bytes → Option Address}

theorem commitment_eq {order : Order} {proofId : ProofId} {imageId : Digest} {fill : Fulfillment} {assessed : AssessorFill} {i : ℕ}
    {c : AssessorCommitment} (hproof : order.proofId = some proofId) (himage : order.imageId.bind fromHex = some imageId)
    (hfill : e.FillOf order imageId (e.proofs.journal proofId) fill) (hassessed : order.fill e.proofs = some assessed)
    (hcommitment : (e.guest validRequest recover).commitment i assessed = some c) : fill.commitment e.keccak256 i = c := by
  obtain ⟨hindex, hid, hdigest, hclaim, hdata⟩ := Guest.commitment_some hcommitment
  obtain ⟨proofId', hproof', hassessed⟩ := bind_eq_some_iff.mp hassessed
  obtain rfl := Option.some.inj (hproof.symm.trans hproof')
  obtain ⟨data, hdata', hassessed⟩ := bind_eq_some_iff.mp hassessed
  cases hassessed
  have hrequest : fill.requestDigest = c.requestDigest := hfill.requestDigest.trans (Guest.requestDigest_some hdigest).symm
  have hsame : fill.claimDigest = c.claimDigest ∧ (fill.fulfillmentDataType, fill.fulfillmentData) = data.typeAndData := by
    unfold Order.fulfillmentData at hdata'
    split_ifs at hdata' with htype
    · cases hdata'
      obtain ⟨hclaim', htypeAndData⟩ := hfill.claim htype
      exact ⟨hclaim'.trans (evaluateRequirements_none hclaim).2.symm, htypeAndData⟩
    · rw [himage, map_some] at hdata'
      cases hdata'
      obtain ⟨hclaim', htypeAndData⟩ := hfill.data htype
      exact ⟨hclaim'.trans (evaluateRequirements_imageIdAndJournal hclaim).symm, htypeAndData⟩
  obtain ⟨hclaim', htypeAndData⟩ := hsame
  have hfillData : fill.fulfillmentDataDigest e.keccak256 = c.fulfillmentDataDigest := by
    obtain ⟨htype, hbytes⟩ := Prod.ext_iff.mp htypeAndData
    rw [hdata, Fulfillment.fulfillmentDataDigest, FulfillmentData.digest, ← htype, ← hbytes]
    rfl
  rw [Fulfillment.commitment, ← hindex, hfill.id, ← hid, hrequest, hclaim', hfillData]

end Submitting

/-- What is sent matches the proof of the assessor if and only if no order was left out. -/
theorem submitted_matches_iff (e : Submitting) (validRequest : ProofRequest → Bool) (recover : Bytes32 → Bytes → Option Address)
    (s : System) (hrun : System.Run e.proofs (fun _ _ => True) s) (batchId : BatchId) (batch : Batch)
    (hsubmitting : s.submitter = .submitting batchId batch) (c : Call) (hlater : ∀ i, ∃ s', s.Later e.proofs s' ∧ (c.answers i).db = s'.db)
    (fills : List (OrderId × AssessorFill)) (hfills : s.assessed batch = some fills) (journal : AssessorJournal)
    (hjournal : c.assessorJournal = some journal) (hguest : (e.guest validRequest recover).main ⟨fills.map Prod.snd, e.proverAddress⟩ = some journal)
    (tx : FulfillmentTx) (hsend : e.submitBatch c batch = .ok tx) :
    tx.Matches (e.guest validRequest recover) ⟨fills.map Prod.snd, e.proverAddress⟩ journal ↔
      ∀ i id, batch.orders[i]? = some id → e.Prepared (c.answers i) batch.claimDigests id := by
  have hknown := hrun.known
  obtain ⟨hlength, hne, hat, -⟩ := Guest.main_some hguest
  obtain ⟨⟨requests, horders⟩, journal', hjournal', hselectors, hcallbacks⟩ := Submitting.submitBatch_ok hsend
  obtain rfl := Option.some.inj (hjournal.symm.trans hjournal')
  obtain ⟨hle, hall, hfill⟩ := Submitting.submitOrders_ok horders
  -- The submitter's copy of the batch is as good as the row.
  have hsubmitter := hknown.submitter
  rw [hsubmitting] at hsubmitter
  obtain ⟨row, hrow, hclosed, hcopy⟩ := hsubmitter
  have hcovering : s.Covering e.proofs False := hrun.covering fun _ _ _ h => h.elim
  obtain ⟨proofId, fills', hproof, -, hassessed⟩ := hcovering.assessors row (List.mem_of_getElem? hrow) (Db.not_active_iff.mp hclosed).1
  have hsame : fills' = fills := by
    rw [System.assessed, hcopy.assessorProofId, hproof, Option.bind_some, hassessed.recorded] at hfills
    exact Option.some.inj hfills
  subst hsame
  have hids : fills'.map Prod.fst = batch.orders := hassessed.orders.trans hcopy.orders.symm
  have hlen : fills'.length = batch.orders.length := by rw [← hids, List.length_map]
  simp only [Nat.zero_add] at hall hfill
  rw [← hall]
  constructor
  · intro hmatches
    have := congrArg List.length hmatches.commitments
    rw [batchCommitments, List.length_mapIdx, hlength, List.length_map] at this
    omega
  · intro heq
    refine FulfillmentTx.matches_of_commitments hguest hselectors hcallbacks (List.ext_getElem ?_ fun i h₁ h₂ => ?_)
    · rw [batchCommitments, List.length_mapIdx, hlength, List.length_map]
      omega
    · rw [batchCommitments, List.length_mapIdx] at h₁
      have hi : i < fills'.length := by omega
      obtain ⟨order, hget, haccepted, horder⟩ := hassessed.fills fills'[i] (List.getElem_mem hi)
      have hid : batch.orders[i]? = some fills'[i].1 := by rw [← hids, List.getElem?_map, List.getElem?_eq_getElem hi]; rfl
      obtain ⟨order', proofId', imageId, hprepares, hof⟩ := hfill heq i _ _ hid (List.getElem?_eq_getElem h₁)
      obtain ⟨s', hlater', hdb⟩ := hlater i
      obtain ⟨-, hrows⟩ := hlater'.follows hknown
      obtain ⟨order'', hget', hfollows⟩ := hrows _ _ hget haccepted
      have hrow' := hprepares.row
      rw [hdb] at hrow'
      obtain rfl := Option.some.inj (hrow'.symm.trans hget')
      have hcommitment : (e.guest validRequest recover).commitment i fills'[i].2 =
          some ((e.guest validRequest recover).commitments ⟨fills'.map Prod.snd, e.proverAddress⟩)[i] := by
        simpa using hat i (by simpa using hi) h₂
      simp only [batchCommitments, List.getElem_mapIdx]
      exact Submitting.commitment_eq hprepares.proven hprepares.image hof (hfollows.fill horder) hcommitment

section Sample

/-- A submitter whose hashes say nothing, and whose proofs have no journals. -/
def sampleSubmitting : Submitting where
  proofs := ⟨fun _ => 0, fun _ => []⟩
  sha256 := fun _ => .replicate 32 0
  merkleRoot := fun _ => 0
  keccak256 := fun _ => 0
  domainSeparator := 0
  proverAddress := 2

def otherOrder : OrderRequest := { sampleOrder with request := { sampleOrder.request with id := sampleOrder.request.id + 1 } }

/-- A batch of two orders is closed and handed out. -/
def submittingEvents : List Broker.Event :=
  [.accept 0 sampleOrder 1, .accept 1 otherOrder 1, .findActiveProofs [], .recoverNext, .takeProvingOrder 0, .takeProvingOrder 1,
    .createStarkSession 0 6, .createStarkSession 1 7, .finishProof 0, .finishProof 0, .currentBatch, .readBatch 0, .collectProofs [0, 1],
    .collectGroth16Proofs [], .filterExpired, .filterExpired, .filterExpired, .checkFinalize true, .proveAssessor 9,
    .proveSetBuilder (fun _ => true) 8 false, .updateBatch, .completeBatch 5, .takeCompleteBatch 0]

/-- The database when the batch is handed out. -/
def submittedSystem : System := ((System.start.follow sampleSubmitting.proofs (fun _ _ => True) submittingEvents).getD .start)

theorem submittedSystem_follow :
    System.start.follow sampleSubmitting.proofs (fun _ _ => True) submittingEvents = some submittedSystem := by
  have hsome : (System.start.follow sampleSubmitting.proofs (fun _ _ => True) submittingEvents).isSome = true := by decide
  obtain ⟨s, hs⟩ := isSome_iff_exists.mp hsome
  rw [submittedSystem, hs, getD_some]

theorem submittedSystem_run : System.Run sampleSubmitting.proofs (fun _ _ => True) submittedSystem := System.Run.start.follow submittedSystem_follow

/-- The journals of the orders are there or not. -/
def sampleCall (hasJournal : ℕ → Bool) : Call where
  db := submittedSystem.db
  now := 0
  finalizedRoot := some 0
  batchSeal := some []
  assessorJournal := some ⟨[], [], 0, 2⟩
  answers := fun i => ⟨submittedSystem.db, true, hasJournal i, fun _ => some [], fun _ => some [], fun _ _ => some [], true⟩
  assessorSeal := some []
  singleTxnFulfill := true
  withdraw := false
  submitMerkleRoot := .ok ()

def submittedBatch : Batch :=
  ⟨.pendingSubmission, [0, 1], some 9, some ⟨false, 8, [0, 0, 0], some 5⟩, some 10, 2, none⟩

def sampleSubmitted : Guest := sampleSubmitting.guest (fun _ => true) fun _ _ => some 1

theorem submittedSystem_submitter : submittedSystem.submitter = .submitting 0 submittedBatch := by decide

theorem submittedSystem_assessed : ∃ fills, submittedSystem.assessed submittedBatch = some fills ∧ fills.length = 2 ∧
    sampleSubmitted.main ⟨fills.map Prod.snd, 2⟩ = some ⟨[], [], 0, 2⟩ := by
  have hmain : (submittedSystem.assessed submittedBatch).map (fun fills => (fills.length, sampleSubmitted.main ⟨fills.map Prod.snd, 2⟩)) =
      some (2, some ⟨[], [], 0, 2⟩) := by with_unfolding_all (set_option maxRecDepth 100000 in decide)
  obtain ⟨fills, hfills, hmain⟩ := map_eq_some_iff.mp hmain
  exact ⟨fills, hfills, congrArg Prod.fst hmain, congrArg Prod.snd hmain⟩

theorem sampleCall_later (hasJournal : ℕ → Bool) (i : ℕ) :
    ∃ s', submittedSystem.Later sampleSubmitting.proofs s' ∧ ((sampleCall hasJournal).answers i).db = s'.db :=
  ⟨submittedSystem, .refl, rfl⟩

theorem sampleCall_sends (hasJournal : ℕ → Bool) (n : ℕ)
    (h : (sampleSubmitting.submitBatch (sampleCall hasJournal) submittedBatch).toOption.map (fun tx => tx.fulfillments.length) = some n) :
    ∃ tx, sampleSubmitting.submitBatch (sampleCall hasJournal) submittedBatch = .ok tx ∧ tx.fulfillments.length = n := by
  obtain ⟨tx, htx, hlength⟩ := map_eq_some_iff.mp h
  refine ⟨tx, ?_, hlength⟩
  cases hsend : sampleSubmitting.submitBatch (sampleCall hasJournal) submittedBatch with
  | error => rw [hsend] at htx; cases htx
  | ok tx' => rw [hsend] at htx; exact congrArg Except.ok (Option.some.inj htx)

/-- Both orders are prepared. -/
theorem submitted_matches_two_orders : ∃ fills tx, sampleSubmitting.submitBatch (sampleCall fun _ => true) submittedBatch = .ok tx ∧
    tx.fulfillments.length = 2 ∧ tx.Matches sampleSubmitted ⟨fills, 2⟩ ⟨[], [], 0, 2⟩ := by
  obtain ⟨fills, hfills, hlength, hmain⟩ := submittedSystem_assessed
  obtain ⟨tx, hsend, htwo⟩ := sampleCall_sends (fun _ => true) 2 (by decide)
  have hiff := submitted_matches_iff sampleSubmitting (fun _ => true) (fun _ _ => some 1) submittedSystem submittedSystem_run 0 submittedBatch
    submittedSystem_submitter (sampleCall fun _ => true) (sampleCall_later _) fills hfills ⟨[], [], 0, 2⟩ rfl hmain tx hsend
  obtain ⟨⟨requests, horders⟩, -⟩ := Submitting.submitBatch_ok hsend
  have hprepared := (Submitting.submitOrders_ok horders).2.1.mp htwo
  simp only [Nat.zero_add] at hprepared
  exact ⟨fills.map Prod.snd, tx, hsend, htwo, hiff.mpr hprepared⟩

/-- The journal of the first order is missing, and the second is sent in its place. -/
theorem fulfillment_left_out : ¬∀ (e : Submitting) (validRequest : ProofRequest → Bool) (recover : Bytes32 → Bytes → Option Address)
    (s : System), System.Run e.proofs (fun _ _ => True) s → ∀ (batchId : BatchId) (batch : Batch), s.submitter = .submitting batchId batch →
      ∀ c : Call, (∀ i, ∃ s', s.Later e.proofs s' ∧ (c.answers i).db = s'.db) →
        ∀ fills : List (OrderId × AssessorFill), s.assessed batch = some fills → ∀ journal : AssessorJournal, c.assessorJournal = some journal →
          (e.guest validRequest recover).main ⟨fills.map Prod.snd, e.proverAddress⟩ = some journal →
            ∀ tx : FulfillmentTx, e.submitBatch c batch = .ok tx →
              tx.Matches (e.guest validRequest recover) ⟨fills.map Prod.snd, e.proverAddress⟩ journal := by
  intro hall
  obtain ⟨fills, hfills, hlength, hmain⟩ := submittedSystem_assessed
  obtain ⟨tx, hsend, hone⟩ := sampleCall_sends (fun i => i ≠ 0) 1 (by decide)
  have hmatches := hall sampleSubmitting (fun _ => true) (fun _ _ => some 1) submittedSystem submittedSystem_run 0 submittedBatch
    submittedSystem_submitter (sampleCall fun i => i ≠ 0) (sampleCall_later _) fills hfills ⟨[], [], 0, 2⟩ rfl hmain tx hsend
  obtain ⟨hcommitted, -⟩ := Guest.main_some hmain
  have hcommitments := congrArg List.length hmatches.commitments
  rw [batchCommitments, List.length_mapIdx, hone] at hcommitments
  have htwo : 1 = (fills.map Prod.snd).length := hcommitments.trans hcommitted
  rw [List.length_map, hlength] at htwo
  exact absurd htwo (by decide)

end Sample

end VerifiableCompute.Broker
