import VerifiableCompute.Lib.Table
import VerifiableCompute.Market.State

/-! What the indexer stores of the events of the market contract. The logs of a range of blocks are
sorted by event into one table each, in which the first row under a key stays. -/

namespace VerifiableCompute.Indexer

open Lib Market List

/-- An unsigned value as it is compared in a column of signed integers. -/
def asI64 (n : ℕ) : ℤ := if n < 2 ^ 63 then n else n - 2 ^ 64

theorem asI64_of_lt {n : ℕ} (h : n < 2 ^ 63) : asI64 n = n := if_pos h

theorem asI64_of_le {n : ℕ} (h : 2 ^ 63 ≤ n) (hn : n < 2 ^ 64) : asI64 n < 0 := by
  rw [asI64, if_neg (by omega)]
  omega

/-- An event in a transaction. -/
structure Log where
  event : Event
  txHash : Bytes32

/-- The logs of the market contract up to the latest block. -/
structure Chain where
  blockTimestamp : ℕ → ℕ
  logs : ℕ → List Log
  signingHash : ProofRequest → Bytes32
  height : ℕ
  strict : ∀ {a b}, a < b → b ≤ height → blockTimestamp a < blockTimestamp b
  timestamp_lt : blockTimestamp height < 2 ^ 64

namespace Chain

variable (c : Chain)

theorem timestamp_le {a b : ℕ} (h : a ≤ b) (hb : b ≤ c.height) : c.blockTimestamp a ≤ c.blockTimestamp b := by
  obtain rfl | hlt := Nat.eq_or_lt_of_le h
  · exact le_rfl
  · exact (c.strict hlt hb).le

theorem timestamp_lt_of_le {b : ℕ} (hb : b ≤ c.height) : c.blockTimestamp b < 2 ^ 64 := (c.timestamp_le hb le_rfl).trans_lt c.timestamp_lt

end Chain

structure TxLog where
  event : Event
  txHash : Bytes32
  blockTimestamp : ℕ

structure ProofRequestRow where
  requestDigest : Bytes32
  requestId : RequestId
  expiresAt : ℕ
  lockEnd : ℕ
  deriving DecidableEq

structure SubmittedRow where
  requestDigest : Bytes32
  blockTimestamp : ℕ
  deriving DecidableEq

/-- A lock, a delivery or a fulfillment. -/
structure ProverRow where
  requestDigest : Bytes32
  prover : Address
  txHash : Bytes32
  blockTimestamp : ℕ
  deriving DecidableEq

structure SlashedRow where
  requestId : RequestId
  blockTimestamp : ℕ
  deriving DecidableEq

/-- Rows for each of the tables that are filled from logs. -/
structure EventTables where
  proofRequests : List ProofRequestRow
  submitted : List SubmittedRow
  locked : List ProverRow
  delivered : List ProverRow
  fulfilled : List ProverRow
  slashed : List SlashedRow
  deriving DecidableEq

namespace EventTables

def empty : EventTables := ⟨[], [], [], [], [], []⟩

/-- The first row under a key stays. A request may be delivered once in each transaction. -/
def insert (tables rows : EventTables) : EventTables where
  proofRequests := insertAll ProofRequestRow.requestDigest tables.proofRequests rows.proofRequests
  submitted := insertAll SubmittedRow.requestDigest tables.submitted rows.submitted
  locked := insertAll ProverRow.requestDigest tables.locked rows.locked
  delivered := insertAll (fun r => (r.requestDigest, r.txHash)) tables.delivered rows.delivered
  fulfilled := insertAll ProverRow.requestDigest tables.fulfilled rows.fulfilled
  slashed := insertAll SlashedRow.requestId tables.slashed rows.slashed

/-- The first rows of each table. -/
structure IsPrefix (rows all : EventTables) : Prop where
  proofRequests : rows.proofRequests <+: all.proofRequests
  submitted : rows.submitted <+: all.submitted
  locked : rows.locked <+: all.locked
  delivered : rows.delivered <+: all.delivered
  fulfilled : rows.fulfilled <+: all.fulfilled
  slashed : rows.slashed <+: all.slashed

theorem IsPrefix.refl (rows : EventTables) : rows.IsPrefix rows :=
  ⟨prefix_refl _, prefix_refl _, prefix_refl _, prefix_refl _, prefix_refl _, prefix_refl _⟩

end EventTables

namespace TxLog

variable (c : Chain) (log : TxLog)

/-- The sums of 64 bits wrap. -/
def proofRequestRow : Option ProofRequestRow :=
  match log.event with
  | .requestSubmitted _ request _ => some
    { requestDigest := c.signingHash request
      requestId := request.id
      expiresAt := (request.offer.rampUpStart + request.offer.timeout.setWidth 64).toNat
      lockEnd := (request.offer.rampUpStart + request.offer.lockTimeout.setWidth 64).toNat }
  | _ => none

def submittedRow : Option SubmittedRow :=
  match log.event with
  | .requestSubmitted _ request _ => some ⟨c.signingHash request, log.blockTimestamp⟩
  | _ => none

def lockedRow : Option ProverRow :=
  match log.event with
  | .requestLocked _ prover request _ => some ⟨c.signingHash request, prover, log.txHash, log.blockTimestamp⟩
  | _ => none

def deliveredRow : Option ProverRow :=
  match log.event with
  | .proofDelivered _ prover fulfillment => some ⟨fulfillment.requestDigest, prover, log.txHash, log.blockTimestamp⟩
  | _ => none

def fulfilledRow : Option ProverRow :=
  match log.event with
  | .requestFulfilled _ prover requestDigest => some ⟨requestDigest, prover, log.txHash, log.blockTimestamp⟩
  | _ => none

def slashedRow : Option SlashedRow :=
  match log.event with
  | .proverSlashed requestId _ _ _ => some ⟨requestId, log.blockTimestamp⟩
  | _ => none

def callbackFailedId : Option RequestId :=
  match log.event with
  | .callbackFailed requestId _ => some requestId
  | _ => none

end TxLog

namespace Chain

variable (c : Chain)

def txLogs (block : ℕ) : List TxLog := (c.logs block).map fun log => ⟨log.event, log.txHash, c.blockTimestamp block⟩

def fetchLogs (start stop : ℕ) : List TxLog := between c.txLogs start stop

def rows (logs : List TxLog) : EventTables where
  proofRequests := logs.filterMap fun log => log.proofRequestRow c
  submitted := logs.filterMap fun log => log.submittedRow c
  locked := logs.filterMap fun log => log.lockedRow c
  delivered := logs.filterMap TxLog.deliveredRow
  fulfilled := logs.filterMap TxLog.fulfilledRow
  slashed := logs.filterMap TxLog.slashedRow

theorem mem_fetchLogs {start stop : ℕ} {log : TxLog} (h : log ∈ c.fetchLogs start stop) :
    ∃ b, start ≤ b ∧ b < stop ∧ log ∈ c.txLogs b ∧ log.blockTimestamp = c.blockTimestamp b := by
  obtain ⟨b, hstart, hstop, hlog⟩ := mem_between.mp h
  obtain ⟨_, -, rfl⟩ := mem_map.mp hlog
  exact ⟨b, hstart, hstop, hlog, rfl⟩

end Chain

/-- All rows of the logs before `next`, and for each table some of the first rows from there up to `reach`. -/
structure EventTables.Holds (c : Chain) (start next reach : ℕ) (t : EventTables) : Prop where
  proofRequests : Lib.Holds ProofRequestRow.requestDigest (fun b => (c.txLogs b).filterMap fun log => log.proofRequestRow c) start next reach t.proofRequests
  submitted : Lib.Holds SubmittedRow.requestDigest (fun b => (c.txLogs b).filterMap fun log => log.submittedRow c) start next reach t.submitted
  locked : Lib.Holds ProverRow.requestDigest (fun b => (c.txLogs b).filterMap fun log => log.lockedRow c) start next reach t.locked
  delivered : Lib.Holds (fun r => (r.requestDigest, r.txHash)) (fun b => (c.txLogs b).filterMap TxLog.deliveredRow) start next reach t.delivered
  fulfilled : Lib.Holds ProverRow.requestDigest (fun b => (c.txLogs b).filterMap TxLog.fulfilledRow) start next reach t.fulfilled
  slashed : Lib.Holds SlashedRow.requestId (fun b => (c.txLogs b).filterMap TxLog.slashedRow) start next reach t.slashed

namespace EventTables

variable {c : Chain} {start next reach stop : ℕ} {t rows : EventTables}

theorem filterMap_fetchLogs {ρ : Type} (row : TxLog → Option ρ) (start stop : ℕ) :
    (c.fetchLogs start stop).filterMap row = between (fun b => (c.txLogs b).filterMap row) start stop :=
  filterMap_flatMap

theorem Holds.empty : Holds c start start start .empty := ⟨.empty, .empty, .empty, .empty, .empty, .empty⟩

section Table

variable {ρ κ : Type} [DecidableEq κ] {key : ρ → κ} {row : TxLog → Option ρ} {table found : List ρ}

variable (h : Lib.Holds key (fun b => (c.txLogs b).filterMap row) start next reach table)

include h

theorem holds_attempt (hstop : next ≤ stop) (hreach : next ≤ reach)
    (hfound : found <+: (c.fetchLogs next stop).filterMap row) :
    Lib.Holds key (fun b => (c.txLogs b).filterMap row) start next (max reach stop) (insertAll key table found) := by
  rw [filterMap_fetchLogs] at hfound
  exact h.attempt hstop hreach hfound

theorem holds_all (hstart : start ≤ next) (hstop : next ≤ stop) (hreach : reach ≤ stop) :
    Lib.Holds key (fun b => (c.txLogs b).filterMap row) start stop stop (insertAll key table ((c.fetchLogs next stop).filterMap row)) := by
  rw [filterMap_fetchLogs]
  exact h.all hstart hstop hreach

end Table

theorem Holds.attempt (h : Holds c start next reach t) (hstop : next ≤ stop) (hreach : next ≤ reach)
    (hrows : rows.IsPrefix (c.rows (c.fetchLogs next stop))) : Holds c start next (max reach stop) (t.insert rows) where
  proofRequests := holds_attempt h.proofRequests hstop hreach hrows.proofRequests
  submitted := holds_attempt h.submitted hstop hreach hrows.submitted
  locked := holds_attempt h.locked hstop hreach hrows.locked
  delivered := holds_attempt h.delivered hstop hreach hrows.delivered
  fulfilled := holds_attempt h.fulfilled hstop hreach hrows.fulfilled
  slashed := holds_attempt h.slashed hstop hreach hrows.slashed

theorem Holds.all (h : Holds c start next reach t) (hstart : start ≤ next) (hstop : next ≤ stop) (hreach : reach ≤ stop) :
    Holds c start stop stop (t.insert (c.rows (c.fetchLogs next stop))) where
  proofRequests := holds_all h.proofRequests hstart hstop hreach
  submitted := holds_all h.submitted hstart hstop hreach
  locked := holds_all h.locked hstart hstop hreach
  delivered := holds_all h.delivered hstart hstop hreach
  fulfilled := holds_all h.fulfilled hstart hstop hreach
  slashed := holds_all h.slashed hstart hstop hreach

/-- Tables into which nothing was inserted ahead are determined by the logs. -/
theorem Holds.unique {t' : EventTables} (h : Holds c start stop stop t) (h' : Holds c start stop stop t') : t = t' := by
  obtain ⟨h1, h2, h3, h4, h5, h6⟩ := h
  obtain ⟨h1', h2', h3', h4', h5', h6'⟩ := h'
  cases t
  cases t'
  simp only [EventTables.mk.injEq]
  exact ⟨h1.eq.trans h1'.eq.symm, h2.eq.trans h2'.eq.symm, h3.eq.trans h3'.eq.symm, h4.eq.trans h4'.eq.symm, h5.eq.trans h5'.eq.symm,
    h6.eq.trans h6'.eq.symm⟩

end EventTables

end VerifiableCompute.Indexer
