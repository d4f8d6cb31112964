import VerifiableCompute.Indexer.Types

/-! The statuses of requests. A batch of blocks recomputes those of the requests that it touches: by an
event, by new cycle counts, or because they expired since the block before. -/

namespace VerifiableCompute.Indexer

open Lib Market

inductive RequestStatusType
  | submitted
  | locked
  | fulfilled
  | expired
  deriving DecidableEq

inductive SlashedStatus
  | notApplicable
  | pending
  | slashed
  deriving DecidableEq

structure RequestComprehensive where
  requestDigest : Bytes32
  requestId : RequestId
  expiresAt : ℕ
  lockEnd : ℕ
  lockedAt : Option ℕ
  lockProverDeliveredProofAt : Option ℕ
  fulfilledAt : Option ℕ
  slashedAt : Option ℕ
  deriving DecidableEq

structure RequestStatus where
  requestDigest : Bytes32
  requestStatus : RequestStatusType
  slashedStatus : SlashedStatus
  updatedAt : ℕ

namespace RequestComprehensive

variable (req : RequestComprehensive) (currentTimestamp : ℕ)

/-- When a lock is over and nobody locked, no prover has an incentive any more. -/
def requestStatus : RequestStatusType :=
  if req.fulfilledAt.isSome then .fulfilled
  else if req.expiresAt < currentTimestamp ∨ (req.lockEnd < currentTimestamp ∧ req.lockedAt = none) then .expired
  else if req.lockedAt.isSome then .locked
  else .submitted

/-- The locker delivered no proof, or too late. -/
def late : Bool := req.lockProverDeliveredProofAt.all fun delivered => req.lockEnd < delivered

def slashedStatus : SlashedStatus :=
  if req.slashedAt.isSome then .slashed
  else if req.lockedAt.isSome ∧ req.lockEnd < currentTimestamp ∧ req.late then .pending
  else .notApplicable

def computeRequestStatus : RequestStatus where
  requestDigest := req.requestDigest
  requestStatus := req.requestStatus currentTimestamp
  slashedStatus := req.slashedStatus currentTimestamp
  updatedAt := currentTimestamp

end RequestComprehensive

def RequestStatus.statuses (s : RequestStatus) : RequestStatusType × SlashedStatus := (s.requestStatus, s.slashedStatus)

namespace EventTables

variable (t : EventTables)

/-- `MIN`. -/
def earliest : List ℕ → Option ℕ
  | [] => none
  | t :: ts =>
    match earliest ts with
    | none => some t
    | some m => if asI64 m < asI64 t then some m else some t

/-- The first of the proofs that a prover delivered. -/
def deliveredAt (digest : Bytes32) (prover : Address) : Option ℕ :=
  earliest ((t.delivered.filter fun d => d.requestDigest = digest ∧ d.prover = prover).map ProverRow.blockTimestamp)

def comprehensive (digest : Bytes32) : Option RequestComprehensive :=
  (findRow ProofRequestRow.requestDigest t.proofRequests digest).map fun pr =>
    { requestDigest := pr.requestDigest
      requestId := pr.requestId
      expiresAt := pr.expiresAt
      lockEnd := pr.lockEnd
      lockedAt := (findRow ProverRow.requestDigest t.locked digest).map ProverRow.blockTimestamp
      lockProverDeliveredProofAt := (findRow ProverRow.requestDigest t.locked digest).bind fun l => t.deliveredAt digest l.prover
      fulfilledAt := (findRow ProverRow.requestDigest t.fulfilled digest).map ProverRow.blockTimestamp
      slashedAt := (findRow SlashedRow.requestId t.slashed pr.requestId).map SlashedRow.blockTimestamp }

def requestDigestsByRequestIds (requestIds : List RequestId) : List Bytes32 :=
  (t.proofRequests.filter fun pr => pr.requestId ∈ requestIds).map ProofRequestRow.requestDigest

/-- Requests whose timeout is the later time are not expired yet. -/
def findNewlyExpiredRequests (fromTimestamp toTimestamp : ℕ) : List Bytes32 :=
  (t.proofRequests.filter fun pr => asI64 fromTimestamp ≤ asI64 pr.expiresAt ∧ asI64 pr.expiresAt < asI64 toTimestamp ∧
    ¬∃ f ∈ t.fulfilled, f.requestDigest = pr.requestDigest).map ProofRequestRow.requestDigest

end EventTables

structure Db where
  tables : EventTables
  requestStatus : List RequestStatus
  lastBlock : Option ℕ

/-- The cycle counts, with the times of their updates. Other tasks write them. -/
abbrev CycleCounts := List (Bytes32 × ℕ)

namespace Db

variable (c : Chain) (counts : CycleCounts) (fromBlock toBlock : ℕ) (db : Db)

def empty : Db := ⟨.empty, [], none⟩

/-- Where the next batch begins. -/
def nextBlock (startingBlock : ℕ) : ℕ :=
  match db.lastBlock with
  | some last => last + 1
  | none => startingBlock

def processEvents : Db := { db with tables := db.tables.insert (c.rows (c.fetchLogs fromBlock (toBlock + 1))) }

def processCycleCounts : List Bytes32 :=
  let fromTimestamp := match db.lastBlock with
    | some last => c.blockTimestamp last + 1
    | none => 0
  (counts.filter fun e => asI64 fromTimestamp ≤ asI64 e.2 ∧ asI64 e.2 ≤ asI64 (c.blockTimestamp toBlock)).map Prod.fst

/-- The requests that an event of the batch is about. -/
def touchedByEvents : List Bytes32 :=
  let logs := c.fetchLogs fromBlock (toBlock + 1)
  let rows := c.rows logs
  rows.submitted.map SubmittedRow.requestDigest ++ rows.locked.map ProverRow.requestDigest ++ rows.delivered.map ProverRow.requestDigest ++
    rows.fulfilled.map ProverRow.requestDigest ++ db.tables.requestDigestsByRequestIds (logs.filterMap TxLog.callbackFailedId) ++
    db.tables.requestDigestsByRequestIds (rows.slashed.map SlashedRow.requestId)

/-- The block before the batch is looked at too. -/
def getNewlyExpiredRequests : List Bytes32 :=
  db.tables.findNewlyExpiredRequests (c.blockTimestamp (fromBlock - 1)) (c.blockTimestamp toBlock)

/-- Everything of a request that the batch updates when its events are stored. -/
def touchedRequests : List Bytes32 :=
  (db.touchedByEvents c fromBlock toBlock ++ db.getNewlyExpiredRequests c fromBlock toBlock ++ db.processCycleCounts c counts toBlock).dedup

def updateRequestStatuses (digests : List Bytes32) (currentTimestamp : ℕ) : Db :=
  { db with
    requestStatus := ((digests.filterMap db.tables.comprehensive).map fun req => req.computeRequestStatus currentTimestamp).foldl
      (upsert RequestStatus.requestDigest) db.requestStatus }

/-- A batch of which only the last block may not have been recorded. -/
def processed : Db :=
  let db := db.processEvents c fromBlock toBlock
  db.updateRequestStatuses (db.touchedRequests c counts fromBlock toBlock) (c.blockTimestamp toBlock)

def processBlocks : Db := { db.processed c counts fromBlock toBlock with lastBlock := some toBlock }

def status (digest : Bytes32) : Option (RequestStatusType × SlashedStatus) :=
  (findRow RequestStatus.requestDigest db.requestStatus digest).map RequestStatus.statuses

end Db

/-- The databases that are reached from a starting block on, with the block up to which logs were fetched. A batch
that fails leaves some of the rows, or all of them and the statuses, and begins at the same block again. -/
inductive Run (c : Chain) (start : ℕ) (allowed : ℕ → CycleCounts → ℕ → Db → Prop) : ℕ → Db → Prop
  | start : Run c start allowed start .empty
  | interrupted {reach : ℕ} {db : Db} (toBlock : ℕ) (rows : EventTables) (hrun : Run c start allowed reach db) (hnext : db.nextBlock start ≤ toBlock)
      (hto : toBlock ≤ c.height) (hrows : rows.IsPrefix (c.rows (c.fetchLogs (db.nextBlock start) (toBlock + 1)))) :
      Run c start allowed (max reach (toBlock + 1)) { db with tables := db.tables.insert rows }
  | unrecorded {reach : ℕ} {db : Db} (counts : CycleCounts) (toBlock : ℕ) (hrun : Run c start allowed reach db) (hnext : db.nextBlock start ≤ toBlock)
      (hto : toBlock ≤ c.height) : Run c start allowed (max reach (toBlock + 1)) (db.processed c counts (db.nextBlock start) toBlock)
  | processed {reach : ℕ} {db : Db} (counts : CycleCounts) (toBlock : ℕ) (hrun : Run c start allowed reach db) (hnext : db.nextBlock start ≤ toBlock)
      (hto : toBlock ≤ c.height) (hallowed : allowed reach counts toBlock db) :
      Run c start allowed (max reach (toBlock + 1)) (db.processBlocks c counts (db.nextBlock start) toBlock)

/-- A batch up to this block has just succeeded. -/
def After (c : Chain) (start : ℕ) (allowed : ℕ → CycleCounts → ℕ → Db → Prop) (toBlock : ℕ) (db : Db) : Prop :=
  ∃ reach before counts, Run c start allowed reach before ∧ before.nextBlock start ≤ toBlock ∧ toBlock ≤ c.height ∧ allowed reach counts toBlock before ∧
    db = before.processBlocks c counts (before.nextBlock start) toBlock

/-- The statuses that are stored are those of the events at the time of the block. -/
def Fresh (c : Chain) (toBlock : ℕ) (db : Db) : Prop :=
  ∀ digest req, db.tables.comprehensive digest = some req →
    db.status digest = some (req.computeRequestStatus (c.blockTimestamp toBlock)).statuses

/-- The deadline is over at the later time only. -/
def Passes (deadline t₀ t₁ : ℕ) : Prop := t₀ ≤ deadline ∧ deadline < t₁

instance (deadline t₀ t₁ : ℕ) : Decidable (Passes deadline t₀ t₁) := inferInstanceAs (Decidable (_ ∧ _))

/-- The end of a lock that passes makes no difference: to a request that nobody locked when it is fulfilled or has expired at the later
time, and to a locked one when it is slashed, its prover delivered, or it expires unfulfilled in the meantime. -/
structure RequestComprehensive.Unmoved (req : RequestComprehensive) (t₀ t₁ : ℕ) : Prop where
  unlocked : req.fulfilledAt = none → req.lockedAt = none → Passes req.lockEnd t₀ t₁ → req.expiresAt < t₁
  locked : req.slashedAt = none → req.lockedAt.isSome → req.late → Passes req.lockEnd t₀ t₁ →
    req.fulfilledAt = none ∧ Passes req.expiresAt t₀ t₁

namespace RequestComprehensive

variable {req : RequestComprehensive} {t₀ t t₁ : ℕ}

variable (h : req.Unmoved t₀ t₁) (h₀ : t₀ ≤ t) (h₁ : t ≤ t₁) (hexpiry : req.fulfilledAt = none → ¬Passes req.expiresAt t₀ t₁)

include h h₀ h₁ hexpiry

theorem Unmoved.requestStatus : req.requestStatus t = req.requestStatus t₁ := by
  unfold RequestComprehensive.requestStatus
  by_cases hfulfilled : req.fulfilledAt.isSome
  · rw [if_pos hfulfilled, if_pos hfulfilled]
  · rw [if_neg hfulfilled, if_neg hfulfilled]
    have hnone : req.fulfilledAt = none := by simpa using hfulfilled
    have hunexpired := hexpiry hnone
    have hunlocked := h.unlocked hnone
    have hiff : (req.expiresAt < t ∨ req.lockEnd < t ∧ req.lockedAt = none) ↔ (req.expiresAt < t₁ ∨ req.lockEnd < t₁ ∧ req.lockedAt = none) := by
      unfold Passes at hunexpired hunlocked
      by_cases hlocked : req.lockedAt = none
      · have hend := hunlocked hlocked
        simp only [hlocked, and_true]
        omega
      · simp only [hlocked, and_false, or_false]
        omega
    simp only [hiff]

theorem Unmoved.slashedStatus : req.slashedStatus t = req.slashedStatus t₁ := by
  unfold RequestComprehensive.slashedStatus
  by_cases hslashed : req.slashedAt.isSome
  · rw [if_pos hslashed, if_pos hslashed]
  · rw [if_neg hslashed, if_neg hslashed]
    have hlock := h.locked (by simpa using hslashed)
    have hiff : (req.lockedAt.isSome ∧ req.lockEnd < t ∧ req.late) ↔ (req.lockedAt.isSome ∧ req.lockEnd < t₁ ∧ req.late) := by
      constructor
      · rintro ⟨hlocked, hend, hlate⟩
        exact ⟨hlocked, by omega, hlate⟩
      · rintro ⟨hlocked, hend, hlate⟩
        have hpasses : ¬Passes req.lockEnd t₀ t₁ := fun hend => hexpiry (hlock hlocked hlate hend).1 (hlock hlocked hlate hend).2
        unfold Passes at hpasses
        exact ⟨hlocked, by omega, hlate⟩
    simp only [hiff]

/-- While no end of a lock makes a difference, and there is no expiry, the statuses stay. -/
theorem Unmoved.statuses : (req.computeRequestStatus t).statuses = (req.computeRequestStatus t₁).statuses :=
  Prod.ext (h.requestStatus h₀ h₁ hexpiry) (h.slashedStatus h₀ h₁ hexpiry)

end RequestComprehensive

end VerifiableCompute.Indexer
