import VerifiableCompute.Indexer.Statuses

/-! When the stored statuses are up to date. A request that a batch does not touch keeps its status,
which is right only while the end of its lock makes no difference for it; its expiry is looked for. -/

namespace VerifiableCompute.Indexer

open Lib Market List

namespace EventTables

inductive Concerns (rows : EventTables) (digest : Bytes32) (requestId : RequestId) : Prop
  | proofRequest {r : ProofRequestRow} (h : r ∈ rows.proofRequests) (hr : r.requestDigest = digest)
  | locked {r : ProverRow} (h : r ∈ rows.locked) (hr : r.requestDigest = digest)
  | delivered {r : ProverRow} (h : r ∈ rows.delivered) (hr : r.requestDigest = digest)
  | fulfilled {r : ProverRow} (h : r ∈ rows.fulfilled) (hr : r.requestDigest = digest)
  | slashed {r : SlashedRow} (h : r ∈ rows.slashed) (hr : r.requestId = requestId)

variable {t rows all : EventTables} {digest : Bytes32} {requestId : RequestId} {req : RequestComprehensive}

theorem Concerns.of_prefix (h : rows.Concerns digest requestId) (hearlier : rows.IsPrefix all) : all.Concerns digest requestId := by
  cases h with
  | proofRequest h hr => exact .proofRequest (hearlier.proofRequests.subset h) hr
  | locked h hr => exact .locked (hearlier.locked.subset h) hr
  | delivered h hr => exact .delivered (hearlier.delivered.subset h) hr
  | fulfilled h hr => exact .fulfilled (hearlier.fulfilled.subset h) hr
  | slashed h hr => exact .slashed (hearlier.slashed.subset h) hr

variable {logs logs' : List TxLog}

theorem mem_filterMap_of_subset {ρ : Type} {row : TxLog → Option ρ} {r : ρ} (h : r ∈ logs.filterMap row) (hlogs : logs ⊆ logs') :
    r ∈ logs'.filterMap row := by
  obtain ⟨log, hlog, hrow⟩ := mem_filterMap.mp h
  exact mem_filterMap.mpr ⟨log, hlogs hlog, hrow⟩

theorem Concerns.of_logs {c : Chain} (h : (c.rows logs).Concerns digest requestId) (hlogs : logs ⊆ logs') :
    (c.rows logs').Concerns digest requestId := by
  cases h with
  | proofRequest h hr => exact .proofRequest (mem_filterMap_of_subset h hlogs) hr
  | locked h hr => exact .locked (mem_filterMap_of_subset h hlogs) hr
  | delivered h hr => exact .delivered (mem_filterMap_of_subset h hlogs) hr
  | fulfilled h hr => exact .fulfilled (mem_filterMap_of_subset h hlogs) hr
  | slashed h hr => exact .slashed (mem_filterMap_of_subset h hlogs) hr

theorem comprehensive_eq_some (h : t.comprehensive digest = some req) :
    ∃ pr, findRow ProofRequestRow.requestDigest t.proofRequests digest = some pr ∧ pr.requestId = req.requestId ∧ req.requestDigest = digest := by
  obtain ⟨pr, hpr, rfl⟩ := Option.map_eq_some_iff.mp h
  exact ⟨pr, hpr, rfl, (findRow_mem hpr).2⟩

theorem comprehensive_of_insert (h : (t.insert rows).comprehensive digest = some req) (hrows : ¬rows.Concerns digest req.requestId) :
    t.comprehensive digest = some req := by
  obtain ⟨pr, hpr, hid, -⟩ := comprehensive_eq_some h
  have hrequest : findRow ProofRequestRow.requestDigest (t.insert rows).proofRequests digest = findRow ProofRequestRow.requestDigest t.proofRequests digest :=
    findRow_insertAll fun _ hr hkey => hrows (.proofRequest hr hkey)
  have hlocked : findRow ProverRow.requestDigest (t.insert rows).locked digest = findRow ProverRow.requestDigest t.locked digest :=
    findRow_insertAll fun _ hr hkey => hrows (.locked hr hkey)
  have hfulfilled : findRow ProverRow.requestDigest (t.insert rows).fulfilled digest = findRow ProverRow.requestDigest t.fulfilled digest :=
    findRow_insertAll fun _ hr hkey => hrows (.fulfilled hr hkey)
  have hslashed : findRow SlashedRow.requestId (t.insert rows).slashed pr.requestId = findRow SlashedRow.requestId t.slashed pr.requestId :=
    findRow_insertAll fun _ hr hkey => hrows (.slashed hr (hkey.trans hid))
  have hdelivered (prover : Address) : (t.insert rows).deliveredAt digest prover = t.deliveredAt digest prover := by
    obtain ⟨new, hnew, hmem⟩ := @insertAll_eq_append ProverRow _ _ (fun r => (r.requestDigest, r.txHash)) t.delivered rows.delivered
    have hnone : new.filter (fun d => d.requestDigest = digest ∧ d.prover = prover) = [] :=
      filter_eq_nil_iff.mpr fun r hr hkeep => hrows (.delivered (hmem r hr) (of_decide_eq_true hkeep).1)
    rw [deliveredAt, deliveredAt, insert, hnew, filter_append, hnone, append_nil]
  rw [comprehensive, hpr, Option.map_some, hlocked, hfulfilled, hslashed] at h
  rw [hrequest] at hpr
  rw [comprehensive, hpr, Option.map_some, ← h]
  simp only [hdelivered]

end EventTables

namespace Db

variable {c : Chain} {db : Db} {digest : Bytes32} {req : RequestComprehensive}

theorem submittedRow_of_proofRequestRow {log : TxLog} {r : ProofRequestRow} (h : log.proofRequestRow c = some r) :
    ∃ s, log.submittedRow c = some s ∧ s.requestDigest = r.requestDigest := by
  unfold TxLog.proofRequestRow at h
  unfold TxLog.submittedRow
  split at h
  next requestId request signature hevent =>
    rw [← Option.some.inj h]
    exact ⟨_, rfl, rfl⟩
  next => cases h

def Concerned (c : Chain) (fromBlock toBlock : ℕ) (digest : Bytes32) (requestId : RequestId) : Prop :=
  (c.rows (c.fetchLogs fromBlock (toBlock + 1))).Concerns digest requestId ∨
    requestId ∈ (c.fetchLogs fromBlock (toBlock + 1)).filterMap TxLog.callbackFailedId

/-- The cycle counts of the request were updated since the last batch. -/
def Recounted (c : Chain) (counts : CycleCounts) (toBlock : ℕ) (db : Db) (digest : Bytes32) : Prop :=
  ∃ time, (digest, time) ∈ counts ∧ (∀ last, db.lastBlock = some last → c.blockTimestamp last < time) ∧ time ≤ c.blockTimestamp toBlock

variable {fromBlock toBlock now : ℕ} {counts : CycleCounts} {digests : List Bytes32}

section

variable (h : db.tables.comprehensive digest = some req)

include h

theorem mem_requestDigests {requestIds : List RequestId} (hid : req.requestId ∈ requestIds) :
    digest ∈ db.tables.requestDigestsByRequestIds requestIds := by
  obtain ⟨pr, hpr, hsame, -⟩ := EventTables.comprehensive_eq_some h
  obtain ⟨hpr, hdigest⟩ := findRow_mem hpr
  exact List.mem_map.mpr ⟨pr, mem_filter.mpr ⟨hpr, decide_eq_true (hsame ▸ hid)⟩, hdigest⟩

theorem mem_touchedByEvents (hevent : Concerned c fromBlock toBlock digest req.requestId) : digest ∈ db.touchedByEvents c fromBlock toBlock := by
  simp only [touchedByEvents, mem_append]
  obtain hrows | hfailed := hevent
  swap
  · exact .inl (.inr (mem_requestDigests h hfailed))
  cases hrows with
  | proofRequest hmem hr =>
    obtain ⟨log, hlog, hrow⟩ := mem_filterMap.mp hmem
    obtain ⟨s, hs, hdigest⟩ := submittedRow_of_proofRequestRow hrow
    have hsubmitted : s ∈ (c.rows (c.fetchLogs fromBlock (toBlock + 1))).submitted := mem_filterMap.mpr ⟨log, hlog, hs⟩
    exact .inl (.inl (.inl (.inl (.inl (List.mem_map.mpr ⟨s, hsubmitted, hdigest.trans hr⟩)))))
  | locked hmem hr => exact .inl (.inl (.inl (.inl (.inr (List.mem_map.mpr ⟨_, hmem, hr⟩)))))
  | delivered hmem hr => exact .inl (.inl (.inl (.inr (List.mem_map.mpr ⟨_, hmem, hr⟩))))
  | fulfilled hmem hr => exact .inl (.inl (.inr (List.mem_map.mpr ⟨_, hmem, hr⟩)))
  | slashed hmem hr => exact .inr (mem_requestDigests h (List.mem_map.mpr ⟨_, hmem, hr⟩))

theorem touched_of_event (hevent : Concerned c fromBlock toBlock digest req.requestId) : digest ∈ db.touchedRequests c counts fromBlock toBlock :=
  mem_dedup.mpr (mem_append_left _ (mem_append_left _ (mem_touchedByEvents h hevent)))

theorem touched_of_expiry (hfulfilled : req.fulfilledAt = none)
    (hpasses : Passes req.expiresAt (c.blockTimestamp (fromBlock - 1)) (c.blockTimestamp toBlock)) (htime : c.blockTimestamp toBlock < 2 ^ 63) :
    digest ∈ db.touchedRequests c counts fromBlock toBlock := by
  obtain ⟨pr, hpr, rfl⟩ := Option.map_eq_some_iff.mp h
  obtain ⟨hmem, hkey⟩ := findRow_mem hpr
  obtain ⟨hle, hlt⟩ : _ ≤ pr.expiresAt ∧ pr.expiresAt < _ := hpasses
  have hsigned : asI64 pr.expiresAt = pr.expiresAt := asI64_of_lt (hlt.trans htime)
  refine mem_dedup.mpr (mem_append_left _ (mem_append_right _ (List.mem_map.mpr ⟨pr, mem_filter.mpr ⟨hmem, decide_eq_true ⟨?_, ?_, ?_⟩⟩, hkey⟩)))
  · rw [hsigned, asI64_of_lt (hle.trans_lt (hlt.trans htime))]
    exact_mod_cast hle
  · rw [hsigned, asI64_of_lt htime]
    exact_mod_cast hlt
  · rintro ⟨f, hf, hsame⟩
    exact find?_eq_none.mp (Option.map_eq_none_iff.mp hfulfilled) f hf (decide_eq_true (hsame.trans hkey))

end

theorem touched_of_counts (hcounts : db.Recounted c counts toBlock digest) (htime : c.blockTimestamp toBlock < 2 ^ 63) :
    digest ∈ (db.processEvents c fromBlock toBlock).touchedRequests c counts fromBlock toBlock := by
  obtain ⟨time, hmem, hafter, hle⟩ := hcounts
  have hsigned : asI64 time = time := asI64_of_lt (hle.trans_lt htime)
  have hlastBlock : (db.processEvents c fromBlock toBlock).lastBlock = db.lastBlock := rfl
  refine mem_dedup.mpr (mem_append_right _ ?_)
  unfold processCycleCounts
  refine List.mem_map.mpr ⟨_, mem_filter.mpr ⟨hmem, decide_eq_true ⟨?_, ?_⟩⟩, rfl⟩
  · rw [hlastBlock]
    cases hlast : db.lastBlock with
    | none =>
      rw [hsigned]
      exact Int.natCast_nonneg time
    | some last =>
      have hlt := hafter last hlast
      show asI64 (c.blockTimestamp last + 1) ≤ _
      rw [hsigned, asI64_of_lt (by omega)]
      exact_mod_cast hlt
  · rw [hsigned, asI64_of_lt htime]
    exact_mod_cast hle

theorem mem_computed {s : RequestStatus}
    (h : s ∈ (digests.filterMap db.tables.comprehensive).map fun req => req.computeRequestStatus now) :
    s.requestDigest ∈ digests ∧ ∃ req, db.tables.comprehensive s.requestDigest = some req ∧ s = req.computeRequestStatus now := by
  obtain ⟨req, hreq, rfl⟩ := List.mem_map.mp h
  obtain ⟨digest, hdigest, hreq⟩ := mem_filterMap.mp hreq
  obtain ⟨-, -, -, hkey⟩ := EventTables.comprehensive_eq_some hreq
  have hsame : (req.computeRequestStatus now).requestDigest = digest := hkey
  rw [hsame]
  exact ⟨hdigest, req, hreq, rfl⟩

theorem status_update (h : db.tables.comprehensive digest = some req) (hmem : digest ∈ digests) :
    (db.updateRequestStatuses digests now).status digest = some (req.computeRequestStatus now).statuses := by
  obtain ⟨-, -, -, hkey⟩ := EventTables.comprehensive_eq_some h
  have hrow : req.computeRequestStatus now ∈ (digests.filterMap db.tables.comprehensive).map fun req => req.computeRequestStatus now :=
    List.mem_map.mpr ⟨req, mem_filterMap.mpr ⟨digest, hmem, h⟩, rfl⟩
  have hfind := @findRow_upsertAll _ _ _ RequestStatus.requestDigest db.requestStatus _ _ hrow fun s hs hsame => by
    obtain ⟨-, req', hreq', rfl⟩ := mem_computed hs
    rw [hsame, show (req.computeRequestStatus now).requestDigest = digest from hkey, h] at hreq'
    rw [Option.some.inj hreq']
  rw [show (req.computeRequestStatus now).requestDigest = digest from hkey] at hfind
  rw [status, updateRequestStatuses, hfind, Option.map_some]

theorem status_update_of_notMem (hmem : digest ∉ digests) :
    (db.updateRequestStatuses digests now).status digest = db.status digest := by
  have hfind := @findRow_upsertAll_of_ne _ _ _ RequestStatus.requestDigest db.requestStatus
    ((digests.filterMap db.tables.comprehensive).map fun req => req.computeRequestStatus now) digest fun s hs hkey => by
      obtain ⟨hdigest, -⟩ := mem_computed hs
      rw [hkey] at hdigest
      exact hmem hdigest
  rw [status, updateRequestStatuses, hfind, status]

theorem status_processBlocks :
    (db.processBlocks c counts fromBlock toBlock).status digest = (db.processed c counts fromBlock toBlock).status digest := rfl

end Db

/-- The batch reaches as far as the attempts before it, up to a time of 63 bits, and the end of a lock makes no difference to a request
that no event of the batch is about and whose cycle counts stay. -/
def Quiet (c : Chain) (start reach : ℕ) (counts : CycleCounts) (toBlock : ℕ) (db : Db) : Prop :=
  reach ≤ toBlock + 1 ∧ c.blockTimestamp toBlock < 2 ^ 63 ∧ ∀ digest req, db.tables.comprehensive digest = some req →
    ¬Db.Concerned c (db.nextBlock start) toBlock digest req.requestId → ¬db.Recounted c counts toBlock digest →
      req.Unmoved (c.blockTimestamp (db.nextBlock start - 1)) (c.blockTimestamp toBlock)

/-- A row about the request will be found again, or its status is one of the time since the last batch. -/
def Settled (c : Chain) (start reach : ℕ) (db : Db) (digest : Bytes32) (req : RequestComprehensive) : Prop :=
  (c.rows (c.fetchLogs (db.nextBlock start) reach)).Concerns digest req.requestId ∨
    ∃ t, c.blockTimestamp (db.nextBlock start - 1) ≤ t ∧ t ≤ c.blockTimestamp (reach - 1) ∧
      db.status digest = some (req.computeRequestStatus t).statuses

structure Known (c : Chain) (start reach : ℕ) (db : Db) : Prop where
  start_le : start ≤ db.nextBlock start
  next_le : db.nextBlock start ≤ reach
  reach_le : reach ≤ max start (c.height + 1)
  tables : db.tables.Holds c start (db.nextBlock start) reach
  settled : ∀ digest req, db.tables.comprehensive digest = some req → Settled c start reach db digest req

section Run

variable {c : Chain} {start reach toBlock : ℕ} {db : Db} {counts : CycleCounts}

theorem fetchLogs_subset {a b stop : ℕ} (h : b ≤ stop) : c.fetchLogs a b ⊆ c.fetchLogs a stop := by
  intro log hlog
  obtain ⟨block, ha, hb, hlog⟩ := mem_between.mp hlog
  exact mem_between.mpr ⟨block, ha, by omega, hlog⟩

theorem Known.empty : Known c start start .empty where
  start_le := le_rfl
  next_le := le_rfl
  reach_le := le_max_left _ _
  tables := .empty
  settled := fun _ _ h => by cases h

namespace Known

variable (h : Known c start reach db) (hnext : db.nextBlock start ≤ toBlock) (hto : toBlock ≤ c.height)
include h hnext hto

theorem reach_le_max : max reach (toBlock + 1) ≤ c.height + 1 := by
  have hreach := h.reach_le
  have hstart := h.start_le
  omega

variable {rows : EventTables}

section

variable (hrows : rows.IsPrefix (c.rows (c.fetchLogs (db.nextBlock start) (toBlock + 1))))

include hrows

theorem settled_of_insert {digest : Bytes32}
    {req : RequestComprehensive} (hreq : (db.tables.insert rows).comprehensive digest = some req) :
    (c.rows (c.fetchLogs (db.nextBlock start) (max reach (toBlock + 1)))).Concerns digest req.requestId ∨
      db.tables.comprehensive digest = some req ∧ ∃ t, c.blockTimestamp (db.nextBlock start - 1) ≤ t ∧
        t ≤ c.blockTimestamp (max reach (toBlock + 1) - 1) ∧ db.status digest = some (req.computeRequestStatus t).statuses := by
  by_cases hconcerns : rows.Concerns digest req.requestId
  · exact .inl ((hconcerns.of_prefix hrows).of_logs (fetchLogs_subset (le_max_right _ _)))
  · have hold := EventTables.comprehensive_of_insert hreq hconcerns
    obtain hagain | ⟨t, ht0, ht1, hstatus⟩ := h.settled digest req hold
    · exact .inl (hagain.of_logs (fetchLogs_subset (le_max_left _ _)))
    · have hmax := h.reach_le_max hnext hto
      exact .inr ⟨hold, t, ht0, ht1.trans (c.timestamp_le (by omega) (by omega)), hstatus⟩

theorem interrupted : Known c start (max reach (toBlock + 1)) { db with tables := db.tables.insert rows } where
  start_le := h.start_le
  next_le := h.next_le.trans (le_max_left _ _)
  reach_le := (h.reach_le_max hnext hto).trans (le_max_right _ _)
  tables := h.tables.attempt (hnext.trans (Nat.le_succ _)) h.next_le hrows
  settled := fun _ _ hreq => (h.settled_of_insert hnext hto hrows hreq).imp_right fun hold => hold.2

end

theorem unrecorded : Known c start (max reach (toBlock + 1)) (db.processed c counts (db.nextBlock start) toBlock) where
  start_le := h.start_le
  next_le := h.next_le.trans (le_max_left _ _)
  reach_le := (h.reach_le_max hnext hto).trans (le_max_right _ _)
  tables := h.tables.attempt (hnext.trans (Nat.le_succ _)) h.next_le (.refl _)
  settled := by
    intro digest req hreq
    refine (h.settled_of_insert hnext hto (.refl _) hreq).imp_right fun hold => ?_
    by_cases hmem : digest ∈ (db.processEvents c (db.nextBlock start) toBlock).touchedRequests c counts (db.nextBlock start) toBlock
    · have hmax := h.reach_le_max hnext hto
      have hbefore : db.nextBlock start - 1 ≤ toBlock := by omega
      exact ⟨c.blockTimestamp toBlock, c.timestamp_le hbefore hto, c.timestamp_le (by omega) (by omega), Db.status_update hreq hmem⟩
    · obtain ⟨-, t, ht0, ht1, hstatus⟩ := hold
      exact ⟨t, ht0, ht1, (Db.status_update_of_notMem hmem).trans hstatus⟩

/-- A batch that meets the condition leaves statuses that are up to date. -/
theorem fresh (hquiet : Quiet c start reach counts toBlock db) : Fresh c toBlock (db.processBlocks c counts (db.nextBlock start) toBlock) := by
  obtain ⟨hreach, htime, hunmoved⟩ := hquiet
  intro digest req hreq
  replace hreq : (db.processEvents c (db.nextBlock start) toBlock).tables.comprehensive digest = some req := hreq
  rw [Db.status_processBlocks]
  by_cases hmem : digest ∈ (db.processEvents c (db.nextBlock start) toBlock).touchedRequests c counts (db.nextBlock start) toBlock
  · exact Db.status_update hreq hmem
  · obtain hagain | ⟨hold, t, ht0, ht1, hstatus⟩ := h.settled_of_insert hnext hto (.refl _) hreq
    · rw [max_eq_right hreach] at hagain
      exact absurd (Db.touched_of_event hreq (.inl hagain)) hmem
    · rw [max_eq_right hreach, Nat.add_sub_cancel] at ht1
      have hunmoved := hunmoved digest req hold (fun hevent => hmem (Db.touched_of_event hreq hevent))
        fun hcounts => hmem (Db.touched_of_counts hcounts htime)
      rw [← hunmoved.statuses ht0 ht1 fun hfulfilled hpasses => hmem (Db.touched_of_expiry hreq hfulfilled hpasses htime)]
      exact (Db.status_update_of_notMem hmem).trans hstatus

theorem processed (hquiet : Quiet c start reach counts toBlock db) :
    Known c start (max reach (toBlock + 1)) (db.processBlocks c counts (db.nextBlock start) toBlock) where
  start_le := by
    have hstart := h.start_le
    change start ≤ toBlock + 1
    omega
  next_le := le_max_right _ _
  reach_le := (h.reach_le_max hnext hto).trans (le_max_right _ _)
  tables := by
    rw [max_eq_right hquiet.1]
    exact h.tables.all h.start_le (hnext.trans (Nat.le_succ _)) hquiet.1
  settled := by
    intro digest req hreq
    rw [max_eq_right hquiet.1]
    exact .inr ⟨c.blockTimestamp toBlock, le_rfl, le_rfl, h.fresh hnext hto hquiet digest req hreq⟩

end Known

theorem Run.known (hrun : Run c start (Quiet c start) reach db) : Known c start reach db := by
  induction hrun with
  | start => exact .empty
  | interrupted toBlock rows _ hnext hto hrows ih => exact ih.interrupted hnext hto hrows
  | unrecorded counts toBlock _ hnext hto ih => exact ih.unrecorded hnext hto
  | processed counts toBlock _ hnext hto hallowed ih => exact ih.processed hnext hto hallowed

theorem After.holds (h : After c start (Quiet c start) toBlock db) : db.tables.Holds c start (toBlock + 1) (toBlock + 1) := by
  obtain ⟨reach, before, counts, hrun, hnext, -, hquiet, rfl⟩ := h
  exact hrun.known.tables.all hrun.known.start_le (hnext.trans (Nat.le_succ _)) hquiet.1

theorem After.fresh (h : After c start (Quiet c start) toBlock db) : Fresh c toBlock db := by
  obtain ⟨reach, before, counts, hrun, hnext, hto, hquiet, rfl⟩ := h
  exact hrun.known.fresh hnext hto hquiet

end Run

/-- When the end of a lock makes a difference only to requests that the batch's events are about or whose cycle counts it finds, the
statuses after every batch are those of the events at its last block, in whatever batches the blocks came. -/
theorem statuses_fresh (c : Chain) (start toBlock : ℕ) (db : Db) (h : After c start (Quiet c start) toBlock db) :
    Fresh c toBlock db ∧ ∀ db', After c start (Quiet c start) toBlock db' →
      db'.tables = db.tables ∧ ∀ digest, (db.tables.comprehensive digest).isSome → db'.status digest = db.status digest := by
  refine ⟨h.fresh, fun db' h' => ?_⟩
  have htables : db'.tables = db.tables := h'.holds.unique h.holds
  refine ⟨htables, fun digest hindexed => ?_⟩
  obtain ⟨req, hreq⟩ := Option.isSome_iff_exists.mp hindexed
  rw [h.fresh digest req hreq, h'.fresh digest req (htables ▸ hreq)]

section Sample

def timedRequest (lockTimeout timeout : BitVec 32) : ProofRequest where
  id := 0
  requirements := ⟨⟨0, 0⟩, ⟨.prefixMatch, []⟩, 0⟩
  imageUrl := []
  input := ⟨.inline, []⟩
  offer := ⟨0, 0, 0, 0, lockTimeout, timeout, 0⟩

/-- The request is submitted at 40, and nothing happens at 80 and 120. -/
def timedChain (lockTimeout timeout : BitVec 32) : Chain where
  blockTimestamp := fun b => 40 * b
  logs := fun b => if b = 1 then [⟨.requestSubmitted 0 (timedRequest lockTimeout timeout) [], 0⟩] else []
  signingHash := fun request => request.id
  height := 3
  strict := fun h _ => Nat.mul_lt_mul_of_pos_left h (Nat.succ_pos 39)
  timestamp_lt := of_decide_eq_true rfl

/-- The request expires at 70, when its lock ends. -/
def expiryChain : Chain := timedChain 70 70

def expirySubmitted : Db := Db.empty.processBlocks expiryChain [] 1 1

/-- The second batch fails before its block is recorded, and comes again after a restart. -/
def expiryRestarted : Db := (expirySubmitted.processed expiryChain [] 2 2).processBlocks expiryChain [] 2 2

theorem expiry_quiet {db : Db} {reach toBlock : ℕ} (htables : db.tables = expirySubmitted.tables) (hreach : reach ≤ toBlock + 1)
    (hto : toBlock = 2 ∧ db.nextBlock 1 = 2 ∨ toBlock = 3 ∧ db.nextBlock 1 = 3) : Quiet expiryChain 1 reach [] toBlock db := by
  refine ⟨hreach, ?_, fun digest req hreq _ _ => ?_⟩
  · obtain ⟨rfl, -⟩ | ⟨rfl, -⟩ := hto <;> decide
  · rw [htables] at hreq
    obtain ⟨pr, hpr, -, -⟩ := EventTables.comprehensive_eq_some hreq
    obtain ⟨hmem, rfl⟩ := findRow_mem hpr
    cases List.mem_singleton.mp (show pr ∈ [⟨0, 0, 70, 70⟩] from hmem)
    cases (show expirySubmitted.tables.comprehensive 0 = some ⟨0, 0, 70, 70, none, none, none, none⟩ by decide).symm.trans hreq
    obtain ⟨rfl, hnext⟩ | ⟨rfl, hnext⟩ := hto
    · exact ⟨fun _ _ _ => by decide, fun _ h => by cases h⟩
    · rw [hnext]
      exact ⟨fun _ _ h => absurd h (by decide), fun _ h => by cases h⟩

theorem statuses_fresh_restart :
    let db := expiryRestarted.processBlocks expiryChain [] 3 3
    Fresh expiryChain 3 db ∧ db.status 0 = some (.expired, .notApplicable) ∧
      (Db.empty.processBlocks expiryChain [] 1 3).status 0 = db.status 0 := by
  have hempty (toBlock : ℕ) (hto : 40 * toBlock < 2 ^ 63) : Quiet expiryChain 1 1 [] toBlock .empty :=
    ⟨by omega, hto, fun digest req h => by cases h⟩
  have hsubmitted : Run expiryChain 1 (Quiet expiryChain 1) 2 expirySubmitted :=
    .processed [] 1 .start (by decide) (by decide) (hempty 1 (by decide))
  have hfailed : Run expiryChain 1 (Quiet expiryChain 1) 3 (expirySubmitted.processed expiryChain [] 2 2) :=
    .unrecorded [] 2 hsubmitted (by decide) (by decide)
  have hrestarted : Run expiryChain 1 (Quiet expiryChain 1) 3 expiryRestarted :=
    .processed [] 2 hfailed (by decide) (by decide) (expiry_quiet (by decide) (by decide) (.inl ⟨rfl, by decide⟩))
  obtain ⟨hfresh, hbatches⟩ := statuses_fresh expiryChain 1 3 _
    ⟨_, _, [], hrestarted, by decide, by decide, expiry_quiet (by decide) (by decide) (.inr ⟨rfl, by decide⟩), rfl⟩
  obtain ⟨-, hsame⟩ := hbatches (Db.empty.processBlocks expiryChain [] 1 3)
    ⟨1, .empty, [], .start, by decide, by decide, hempty 3 (by decide), rfl⟩
  exact ⟨hfresh, by decide, hsame 0 (by decide)⟩

/-- The lock of the request ends at 50, and it expires at 1000. -/
def lockChain : Chain := timedChain 50 1000

/-- In batches of a block each, the request stays submitted when it has expired. -/
theorem lock_end_missed : ¬∀ (c : Chain) (start toBlock : ℕ) (db : Db), After c start (fun _ _ _ _ => True) toBlock db → Fresh c toBlock db := by
  intro hall
  have hrun : Run lockChain 1 (fun _ _ _ _ => True) (max 1 (1 + 1)) (Db.empty.processBlocks lockChain [] 1 1) :=
    .processed [] 1 .start (by decide) (by decide) trivial
  have hfresh := hall lockChain 1 2 _ ⟨_, _, [], hrun, by decide, by decide, trivial, rfl⟩
  have hexpired := hfresh 0 ⟨0, 0, 1000, 50, none, none, none, none⟩ (by decide)
  have hstored : ((Db.empty.processBlocks lockChain [] 1 1).processBlocks lockChain [] 2 2).status 0 = some (.submitted, .notApplicable) := by decide
  exact absurd (hstored.symm.trans hexpired) (by decide)

end Sample

end VerifiableCompute.Indexer
