import VerifiableCompute.WorkTree.LogBuilder

/-! The prover of updates to a work log. It adds the jobs of the receipts to its log while it collects their
openings, and only then runs the log builder; what fails after the first job leaves the job in the log. -/

namespace VerifiableCompute.WorkTree

open Lib Binfmt Claim WordOrder WorkLog

namespace WorkLog

def isEmpty (log : WorkLog) : Bool := log.jobs.entries.all fun e => e.2.isEmpty

def proveAdd (sha : Sha256) (id : BitVec 64) (job : Job) (log : WorkLog) : Except TreeError (JobOpening × WorkLog) := do
  let noninclusionProof ← log.proveJobOpening sha id.toNat
  let log ← log.add id job
  return (noninclusionProof, log)

end WorkLog

variable {C R : Type} [Digestible C]

/-- A receipt, by its claim and by whether it can stand for an assumption. -/
structure WorkReceipt (C : Type) where
  claim : MaybePruned (WorkClaim C)
  toAssumption : Bool

/-- Failures before a proof is there. -/
inductive ProveFailure
  | encode
  | build
  | prove

inductive UpdateError
  | missingContinuation
  | continuationAssumption
  | claimPruned (e : PrunedValueError)
  | workPruned (e : PrunedValueError)
  | nonceMinLog (log logId : PovwLogId)
  | nonceMaxLog (log logId : PovwLogId)
  | nonceJobs (min max : BitVec 64)
  | segmentNotZero
  | addJob (e : TreeError)
  | addAssumption
  | prove (e : ProveFailure)
  | decodeJournal

def orFail {ε α : Type} (error : ε → UpdateError) : Except ε α → Except UpdateError α
  | .ok a => .ok a
  | .error e => .error (error e)

def intoUnknown (sha : Sha256) (self : WorkClaim C) : WorkClaim Unknown := ⟨.pruned (digest sha self.claim), self.work⟩

def checkReceipt (logId : PovwLogId) (receipt : WorkReceipt C) : Except UpdateError (WorkClaim C × Work) := do
  let workClaim ← orFail .claimPruned receipt.claim.asValue
  let work ← orFail .workPruned workClaim.work.asValue
  require (logId = work.nonceMin.log) (.nonceMinLog work.nonceMin.log logId)
  require (logId = work.nonceMax.log) (.nonceMaxLog work.nonceMax.log logId)
  require (work.nonceMin.job = work.nonceMax.job) (.nonceJobs work.nonceMin.job work.nonceMax.job)
  require (work.nonceMin.segment = 0) .segmentNotZero
  return (workClaim, work)

/-- The updates for the receipts, and the log as it is left. -/
def addReceipts (sha : Sha256) (logId : PovwLogId) (log : WorkLog) :
    List (WorkReceipt C) → Except UpdateError (List WorkLogUpdate) × WorkLog
  | [] => (.ok [], log)
  | receipt :: receipts =>
    match checkReceipt logId receipt with
    | .error e => (.error e, log)
    | .ok (workClaim, work) =>
      match log.proveAdd sha work.nonceMin.job (Job.new work.nonceMax.segment) with
      | .error e => (.error (.addJob e), log)
      | .ok (noninclusionProof, log) =>
        if receipt.toAssumption then
          let rest := addReceipts sha logId log receipts
          (rest.1.map (⟨intoUnknown sha workClaim, noninclusionProof⟩ :: ·), rest.2)
        else (.error .addAssumption, log)

structure WorkLogUpdateProver (R : Type) where
  logId : PovwLogId
  workLog : WorkLog
  continuation : Option (Journal × R)
  logBuilderId : Digest

/-- A call, with what the conversion of receipts, the underlying prover and the decoding of its journal will give. -/
structure UpdateCall (C R : Type) where
  workReceipts : List (WorkReceipt C)
  toAssumption : R → Bool
  prove : Input → Except ProveFailure R
  decodeJournal : R → Option Journal

namespace WorkLogUpdateProver

/-- What the log builder starts from. -/
def inputState (self : WorkLogUpdateProver R) (call : UpdateCall C R) : Except UpdateError State :=
  if self.workLog.isEmpty then .ok (.initial self.logId)
  else match self.continuation with
    | none => .error .missingContinuation
    | some (journal, receipt) => if call.toAssumption receipt then .ok (.continuation journal) else .error .continuationAssumption

def proveUpdate (sha : Sha256) (self : WorkLogUpdateProver R) (call : UpdateCall C R) : Except UpdateError R × WorkLogUpdateProver R :=
  match self.inputState call with
  | .error e => (.error e, self)
  | .ok state =>
    let added := addReceipts sha self.logId self.workLog call.workReceipts
    let self := { self with workLog := added.2 }
    match added.1 with
    | .error e => (.error e, self)
    | .ok updates =>
      match call.prove { selfImageId := self.logBuilderId, state, updates } with
      | .error e => (.error (.prove e), self)
      | .ok receipt =>
        match call.decodeJournal receipt with
        | none => (.error .decodeJournal, self)
        | some journal => (.ok receipt, { self with continuation := some (journal, receipt) })

end WorkLogUpdateProver

section Adding

variable {sha : Sha256} {logId : PovwLogId} {log : WorkLog}
variable (sha) in
theorem proveAdd_of_vacant (id : BitVec 64) (job : Job) (h : log.jobs.get? id = none) : ∃ opening,
    log.proveAdd sha id job = .ok (opening, log.withJob id job) ∧
      opening.root sha (referenceRoot sha job.contains Job.treeHeight 0) (LogBuilder.jobIndex id) =
        referenceRoot sha (log.withJob id job).contains treeHeight 0 := by
  obtain ⟨opening, hopening, hroot⟩ := @proveJobOpening_root sha log id
  refine ⟨opening, ?_, hroot job⟩
  rw [proveAdd, hopening, add, h]
  rfl

variable {id : BitVec 64} {receipt : WorkReceipt C} {receipts : List (WorkReceipt C)}

theorem proveAdd_of_occupied {old : Job} (job : Job) (h : log.jobs.get? id = some old) :
    log.proveAdd sha id job = .error (.jobIdOccupied id) := by
  obtain ⟨opening, hopening, -⟩ := @proveJobOpening_root sha log id
  rw [proveAdd, hopening, add, h]
  rfl

omit [Digestible C] in
theorem checkReceipt_work {workClaim : WorkClaim C} {work : Work} (h : checkReceipt logId receipt = .ok (workClaim, work)) :
    workClaim.work = .value work := by
  simp only [checkReceipt, bind_ok_iff, require_ok_iff] at h
  obtain ⟨claim, -, w, hw, _, -, _, -, _, -, _, -, hres⟩ := h
  obtain ⟨rfl, rfl⟩ := Prod.mk.inj (Except.ok.inj hres)
  cases hvalue : claim.work with
  | value v =>
    rw [hvalue] at hw
    rw [Except.ok.inj hw]
  | pruned digest =>
    rw [hvalue] at hw
    cases hw

/-- The receipt does not pass its checks, or there is a job of its number. -/
def WorkReceipt.Refused (logId : PovwLogId) (log : WorkLog) (receipt : WorkReceipt C) : Prop :=
  (∃ e, checkReceipt logId receipt = .error e) ∨ ∃ workClaim work, checkReceipt logId receipt = .ok (workClaim, work) ∧
    ∃ job, log.jobs.get? work.nonceMin.job = some job

/-- Each receipt passes its checks, finds no job of its number in the log with the jobs of those before it, and can
stand for an assumption. -/
def Accepted (logId : PovwLogId) (log : WorkLog) : List (WorkReceipt C) → Prop
  | [] => True
  | receipt :: receipts => ∃ workClaim work, checkReceipt logId receipt = .ok (workClaim, work) ∧ log.jobs.get? work.nonceMin.job = none ∧
    receipt.toAssumption = true ∧ Accepted logId (log.withJob work.nonceMin.job (Job.new work.nonceMax.segment)) receipts

variable (sha) in
theorem addReceipts_of_refused (receipts : List (WorkReceipt C)) (h : receipt.Refused logId log) :
    ∃ e, addReceipts sha logId log (receipt :: receipts) = (.error e, log) := by
  rw [addReceipts]
  obtain ⟨e, he⟩ | ⟨workClaim, work, hchecked, job, hjob⟩ := h
  · exact ⟨e, by rw [he]⟩
  · exact ⟨_, by rw [hchecked]; simp only [proveAdd_of_occupied _ hjob]; rfl⟩

variable (sha) in
theorem addReceipts_of_not_refused (receipts : List (WorkReceipt C)) (h : ¬receipt.Refused logId log) :
    ∃ workClaim work opening, checkReceipt logId receipt = .ok (workClaim, work) ∧ log.jobs.get? work.nonceMin.job = none ∧
      opening.root sha (referenceRoot sha (Job.new work.nonceMax.segment).contains Job.treeHeight 0) (LogBuilder.jobIndex work.nonceMin.job) =
        referenceRoot sha (log.withJob work.nonceMin.job (Job.new work.nonceMax.segment)).contains treeHeight 0 ∧
      addReceipts sha logId log (receipt :: receipts) =
        if receipt.toAssumption then
          ((addReceipts sha logId (log.withJob work.nonceMin.job (Job.new work.nonceMax.segment)) receipts).1.map
              (⟨intoUnknown sha workClaim, opening⟩ :: ·),
            (addReceipts sha logId (log.withJob work.nonceMin.job (Job.new work.nonceMax.segment)) receipts).2)
        else (.error .addAssumption, log.withJob work.nonceMin.job (Job.new work.nonceMax.segment)) := by
  obtain ⟨hpasses, hvacant⟩ := not_or.mp h
  cases hchecked : checkReceipt logId receipt with
  | error e => exact absurd ⟨e, hchecked⟩ hpasses
  | ok admitted =>
    obtain ⟨workClaim, work⟩ := admitted
    have hnone : log.jobs.get? work.nonceMin.job = none := by
      cases hjob : log.jobs.get? work.nonceMin.job with
      | none => rfl
      | some job => exact absurd ⟨workClaim, work, hchecked, job, hjob⟩ hvacant
    obtain ⟨opening, hadd, hroot⟩ := proveAdd_of_vacant sha work.nonceMin.job (Job.new work.nonceMax.segment) hnone
    refine ⟨workClaim, work, opening, rfl, hnone, hroot, ?_⟩
    rw [addReceipts, hchecked]
    simp only [hadd]

theorem addReceipts_keeps {job : Job} (h : log.jobs.get? id = some job) :
    (addReceipts sha logId log receipts).2.jobs.get? id = some job := by
  induction receipts generalizing log with
  | nil => exact h
  | cons receipt receipts ih =>
    by_cases hrefused : receipt.Refused logId log
    · obtain ⟨e, he⟩ := addReceipts_of_refused sha receipts hrefused
      rw [he]
      exact h
    · obtain ⟨workClaim, work, opening, -, hnone, -, heq⟩ := addReceipts_of_not_refused sha receipts hrefused
      have hkept : (log.withJob work.nonceMin.job (Job.new work.nonceMax.segment)).jobs.get? id = some job := by
        rw [withJob_jobs, if_neg fun hid => by rw [hid, hnone] at h; cases h]
        exact h
      rw [heq]
      split_ifs
      · exact ih hkept
      · exact hkept

theorem addReceipts_ok_iff :
    (∃ updates, (addReceipts sha logId log receipts).1 = .ok updates) ↔ Accepted logId log receipts := by
  induction receipts generalizing log with
  | nil => exact iff_of_true ⟨[], rfl⟩ trivial
  | cons receipt receipts ih =>
    by_cases hrefused : receipt.Refused logId log
    · obtain ⟨e, he⟩ := addReceipts_of_refused sha receipts hrefused
      refine iff_of_false (fun hok => ?_) fun haccepted => ?_
      · obtain ⟨updates, hupdates⟩ := hok
        rw [he] at hupdates
        cases hupdates
      · obtain ⟨workClaim, work, hchecked, hnone, -, -⟩ := haccepted
        obtain ⟨e, he⟩ | ⟨_, work', hchecked', job, hjob⟩ := hrefused
        · rw [hchecked] at he
          cases he
        · rw [hchecked] at hchecked'
          obtain ⟨-, rfl⟩ := Prod.mk.inj (Except.ok.inj hchecked')
          rw [hnone] at hjob
          cases hjob
    · obtain ⟨workClaim, work, opening, hchecked, hnone, -, heq⟩ := addReceipts_of_not_refused sha receipts hrefused
      have hrest := @ih (log.withJob work.nonceMin.job (Job.new work.nonceMax.segment))
      rw [heq, Accepted]
      constructor
      · rintro ⟨updates, hupdates⟩
        split_ifs at hupdates with hassumption
        cases hstep : (addReceipts sha logId (log.withJob work.nonceMin.job (Job.new work.nonceMax.segment)) receipts).1 with
        | error e =>
          rw [hstep] at hupdates
          cases hupdates
        | ok rest => exact ⟨workClaim, work, hchecked, hnone, hassumption, hrest.mp ⟨rest, hstep⟩⟩
      · rintro ⟨_, work', hchecked', -, hassumption, haccepted⟩
        rw [hchecked] at hchecked'
        obtain ⟨-, rfl⟩ := Prod.mk.inj (Except.ok.inj hchecked')
        obtain ⟨rest, hok⟩ := hrest.mpr haccepted
        rw [if_pos hassumption, hok]
        exact ⟨_, rfl⟩

/-- The log builder comes from the commit of the log to that of the log with the jobs of the receipts. -/
theorem addReceipts_commit {updates : List WorkLogUpdate} {host : GuestHost} {workLogId : PovwLogId}
    {acc acc' : Digest × BitVec 64} (hadded : (addReceipts sha logId log receipts).1 = .ok updates)
    (hfold : updates.foldlM (LogBuilder.update sha host workLogId) acc = .ok acc')
    (hacc : acc.1 = referenceRoot sha log.contains treeHeight 0) :
    acc'.1 = referenceRoot sha (addReceipts sha logId log receipts).2.contains treeHeight 0 := by
  induction receipts generalizing log updates acc with
  | nil =>
    cases hadded
    cases hfold
    exact hacc
  | cons receipt receipts ih =>
    by_cases hrefused : receipt.Refused logId log
    · obtain ⟨e, he⟩ := addReceipts_of_refused sha receipts hrefused
      rw [he] at hadded
      cases hadded
    · obtain ⟨workClaim, work, opening, hchecked, hnone, hroot, heq⟩ := addReceipts_of_not_refused sha receipts hrefused
      rw [heq] at hadded ⊢
      split_ifs at hadded ⊢ with hassumption
      cases hrest : (addReceipts sha logId (log.withJob work.nonceMin.job (Job.new work.nonceMax.segment)) receipts).1 with
      | error e =>
        rw [hrest] at hadded
        cases hadded
      | ok rest =>
        rw [hrest] at hadded
        cases hadded
        rw [List.foldlM_cons, bind_ok_iff] at hfold
        obtain ⟨acc₁, hupdate, hfold⟩ := hfold
        obtain ⟨work', hupdates⟩ := LogBuilder.updates_of_update hupdate
        have hwork : workClaim.work = .value work := checkReceipt_work hchecked
        obtain rfl : work = work' := MaybePruned.value.inj (hwork.symm.trans hupdates.claim)
        obtain ⟨jobCommit, hcommit, hacc1⟩ := hupdates.root
        rw [Job.commit_eq] at hcommit
        cases hcommit
        exact ih hrest hfold (hacc1.trans hroot)

end Adding

namespace WorkLogUpdateProver

variable (sha : Sha256)

/-- The commit of the log is that of the continuation. -/
def Consistent (self : WorkLogUpdateProver R) : Prop :=
  self.workLog.commit sha = match self.continuation with
    | none => WorkLog.EMPTY.commit sha
    | some (journal, _) => .ok journal.updatedCommit

variable {sha} {self : WorkLogUpdateProver R} {call : UpdateCall C R}
variable (sha) in
/-- The call reaches its end: all receipts are accepted, the proof is made and its journal is read. -/
def Finishes (self : WorkLogUpdateProver R) (call : UpdateCall C R) : Prop :=
  Accepted self.logId self.workLog call.workReceipts ∧ ∃ state updates receipt journal, self.inputState call = .ok state ∧
    (addReceipts sha self.logId self.workLog call.workReceipts).1 = .ok updates ∧
      call.prove { selfImageId := self.logBuilderId, state, updates } = .ok receipt ∧ call.decodeJournal receipt = some journal

variable (sha) in
/-- The call fails before it adds a job, or it has no jobs to add, or it does not fail. -/
def Clean (self : WorkLogUpdateProver R) (call : UpdateCall C R) : Prop :=
  (∃ e, self.inputState call = .error e) ∨ call.workReceipts = [] ∨
    (∃ receipt receipts, call.workReceipts = receipt :: receipts ∧ receipt.Refused self.logId self.workLog) ∨ Finishes sha self call

variable (sha) in
/-- How a call ends that gets to adding receipts. -/
theorem proveUpdate_cases {state : State} (hstate : self.inputState call = .ok state) :
    (∃ updates receipt journal, (addReceipts sha self.logId self.workLog call.workReceipts).1 = .ok updates ∧
        call.prove { selfImageId := self.logBuilderId, state, updates } = .ok receipt ∧ call.decodeJournal receipt = some journal ∧
        self.proveUpdate sha call = (.ok receipt, { self with
          workLog := (addReceipts sha self.logId self.workLog call.workReceipts).2, continuation := some (journal, receipt) })) ∨
      ¬Finishes sha self call ∧ ∃ e, self.proveUpdate sha call =
        (.error e, { self with workLog := (addReceipts sha self.logId self.workLog call.workReceipts).2 }) := by
  unfold proveUpdate
  rw [hstate]
  dsimp only
  cases hadded : (addReceipts sha self.logId self.workLog call.workReceipts).1 with
  | error e =>
    refine .inr ⟨fun hfinishes => ?_, e, rfl⟩
    obtain ⟨-, _, updates, _, _, -, hupdates, -⟩ := hfinishes
    rw [hadded] at hupdates
    cases hupdates
  | ok updates =>
    dsimp only
    cases hprove : call.prove { selfImageId := self.logBuilderId, state, updates } with
    | error e =>
      refine .inr ⟨fun hfinishes => ?_, _, rfl⟩
      obtain ⟨-, state', updates', _, _, hstate', hupdates', hprove', -⟩ := hfinishes
      rw [hstate] at hstate'
      rw [hadded] at hupdates'
      cases hstate'
      cases hupdates'
      rw [hprove] at hprove'
      cases hprove'
    | ok receipt =>
      dsimp only
      cases hdecode : call.decodeJournal receipt with
      | none =>
        refine .inr ⟨fun hfinishes => ?_, _, rfl⟩
        obtain ⟨-, state', updates', receipt', _, hstate', hupdates', hprove', hdecode'⟩ := hfinishes
        rw [hstate] at hstate'
        rw [hadded] at hupdates'
        cases hstate'
        cases hupdates'
        rw [hprove] at hprove'
        cases hprove'
        rw [hdecode] at hdecode'
        cases hdecode'
      | some journal => exact .inl ⟨updates, receipt, journal, rfl, hprove, hdecode, rfl⟩

theorem restores_iff_clean : (∀ e, (self.proveUpdate sha call).1 = .error e → (self.proveUpdate sha call).2 = self) ↔ Clean sha self call := by
  cases hstate : self.inputState call with
  | error e =>
    have hcall : self.proveUpdate sha call = (.error e, self) := by rw [proveUpdate, hstate]
    rw [hcall]
    exact iff_of_true (fun _ _ => rfl) (.inl ⟨e, hstate⟩)
  | ok state =>
    obtain ⟨updates, receipt, journal, hadded, hprove, hdecode, hcall⟩ | ⟨hfinishes, e, hcall⟩ := proveUpdate_cases sha hstate
    · rw [hcall]
      refine iff_of_true (fun e he => by cases he) (.inr (.inr (.inr ⟨?_, state, updates, receipt, journal, hstate, hadded, hprove, hdecode⟩)))
      exact addReceipts_ok_iff.mp ⟨updates, hadded⟩
    · rw [hcall]
      cases hreceipts : call.workReceipts with
      | nil =>
        refine iff_of_true (fun _ _ => ?_) (.inr (.inl hreceipts))
        rfl
      | cons receipt receipts =>
        by_cases hrefused : receipt.Refused self.logId self.workLog
        · obtain ⟨e', he'⟩ := addReceipts_of_refused sha receipts hrefused
          rw [he']
          exact iff_of_true (fun _ _ => rfl) (.inr (.inr (.inl ⟨receipt, receipts, hreceipts, hrefused⟩)))
        · obtain ⟨workClaim, work, opening, -, hnone, -, heq⟩ := addReceipts_of_not_refused sha receipts hrefused
          have hjob : (addReceipts sha self.logId self.workLog (receipt :: receipts)).2.jobs.get? work.nonceMin.job =
              some (Job.new work.nonceMax.segment) := by
            have hinserted : (self.workLog.withJob work.nonceMin.job (Job.new work.nonceMax.segment)).jobs.get? work.nonceMin.job =
                some (Job.new work.nonceMax.segment) := by rw [withJob_jobs, if_pos rfl]
            rw [heq]
            split_ifs
            · exact addReceipts_keeps hinserted
            · exact hinserted
          refine iff_of_false (fun hrestores => ?_) fun hclean => ?_
          · have hsame := congrArg (fun p : WorkLogUpdateProver R => p.workLog.jobs.get? work.nonceMin.job) (hrestores e rfl)
            dsimp only at hsame
            rw [hjob, hnone] at hsame
            cases hsame
          · obtain ⟨e', he'⟩ | hnil | ⟨receipt', receipts', hcons, hrefused'⟩ | hfinishes' := hclean
            · rw [hstate] at he'
              cases he'
            · rw [hreceipts] at hnil
              cases hnil
            · rw [hreceipts] at hcons
              obtain ⟨rfl, rfl⟩ := List.cons.inj hcons
              exact hrefused hrefused'
            · exact hfinishes hfinishes'

variable (sha) in
/-- What comes back from the underlying prover proves an execution of the log builder on the input. -/
def Sound (call : UpdateCall C R) : Prop := ∀ input receipt, call.prove input = .ok receipt →
  ∃ host journal, LogBuilder.main sha host input = .ok journal ∧ call.decodeJournal receipt = some journal

theorem referenceRoot_isEmpty {log : WorkLog} (h : log.isEmpty = true) :
    referenceRoot sha log.contains treeHeight 0 = referenceRoot sha EMPTY.contains treeHeight 0 := by
  apply referenceRoot_congr
  intro y _
  have hempty : ∀ id job, log.jobs.get? id = some job → job.isEmpty = true := fun id job hjob =>
    List.all_eq_true.mp h _ (OrderedMap.mem_entries_iff.mpr hjob)
  rw [log.blocks y, EMPTY.blocks y]
  cases hjob : log.jobs.get? (.ofNat 64 (y / 2 ^ (Job.treeHeight + 8))) with
  | none => rfl
  | some job => exact Job.contains_of_isEmpty (hempty _ _ hjob) _

omit [Digestible C] in
theorem start_commit (hself : self.Consistent sha) {host : GuestHost} {input : Input} {workLogId : PovwLogId} {initialCommit : Digest}
    (hstate : self.inputState call = .ok input.state) (hstart : LogBuilder.start sha host input = .ok (workLogId, initialCommit)) :
    initialCommit = referenceRoot sha self.workLog.contains treeHeight 0 := by
  have hlog := self.workLog.commit_eq sha
  unfold inputState at hstate
  obtain ⟨hinitial, hcommit⟩ | ⟨journal, hcontinuation, -, -, -, rfl⟩ := LogBuilder.start_ok hstart
  · rw [hinitial] at hstate
    split_ifs at hstate with hempty
    · rw [commit_eq] at hcommit
      rw [referenceRoot_isEmpty hempty]
      exact (Except.ok.inj hcommit).symm
    · split at hstate
      · cases hstate
      · split_ifs at hstate
        cases hstate
  · rw [hcontinuation] at hstate
    split_ifs at hstate
    · cases hstate
    · split at hstate
      · cases hstate
      · next journal' receipt hcontinuation' =>
        split_ifs at hstate
        obtain rfl := State.continuation.inj (Except.ok.inj hstate)
        rw [Consistent, hcontinuation', hlog] at hself
        exact (Except.ok.inj hself).symm

/-- A clean call keeps the commit of the log and that of the continuation together. -/
theorem consistent_proveUpdate (hself : self.Consistent sha) (hsound : Sound sha call) (hclean : Clean sha self call) :
    (self.proveUpdate sha call).2.Consistent sha := by
  cases hresult : (self.proveUpdate sha call).1 with
  | error e =>
    rw [restores_iff_clean.mpr hclean e hresult]
    exact hself
  | ok result =>
    cases hstate : self.inputState call with
    | error e =>
      rw [proveUpdate, hstate] at hresult
      cases hresult
    | ok state =>
      obtain ⟨updates, receipt, journal, hadded, hprove, hdecode, hcall⟩ | ⟨-, e, hcall⟩ := proveUpdate_cases sha hstate
      · obtain ⟨host, journal', hmain, hdecode'⟩ := hsound _ _ hprove
        obtain rfl : journal = journal' := Option.some.inj (hdecode.symm.trans hdecode')
        obtain ⟨hstart, -, hfold⟩ := LogBuilder.main_ok hmain
        have hinitial := start_commit hself hstate hstart
        have hcommit := addReceipts_commit hadded hfold hinitial
        rw [hcall, Consistent, commit_eq, ← hcommit]
      · rw [hcall] at hresult
        cases hresult

variable (sha)

/-- In all states of the run the commits agree, and a call that fails leaves the state as it was. -/
def Restores : WorkLogUpdateProver R → List (UpdateCall C R) → Prop
  | self, [] => self.Consistent sha
  | self, call :: calls => self.Consistent sha ∧
    (∀ e, (self.proveUpdate sha call).1 = .error e → (self.proveUpdate sha call).2 = self) ∧ Restores (self.proveUpdate sha call).2 calls

/-- Every call of the run is clean where it is made. -/
def CleanRun : WorkLogUpdateProver R → List (UpdateCall C R) → Prop
  | _, [] => True
  | self, call :: calls => Clean sha self call ∧ CleanRun (self.proveUpdate sha call).2 calls

/-- Failed updates leave the prover usable exactly if no call fails with a job already added. -/
theorem failed_updates_restore_iff (self : WorkLogUpdateProver R) (calls : List (UpdateCall C R)) (hself : self.Consistent sha)
    (hsound : ∀ call ∈ calls, Sound sha call) : Restores sha self calls ↔ CleanRun sha self calls := by
  induction calls generalizing self with
  | nil => exact iff_of_true hself trivial
  | cons call calls ih =>
    have hrest : ∀ call' ∈ calls, Sound sha call' := fun call' hmem => hsound call' (List.mem_cons_of_mem _ hmem)
    constructor
    · rintro ⟨-, hrestores, hlater⟩
      have hclean := restores_iff_clean.mp hrestores
      have hnext := consistent_proveUpdate hself (hsound call List.mem_cons_self) hclean
      exact ⟨hclean, (ih _ hnext hrest).mp hlater⟩
    · rintro ⟨hclean, hlater⟩
      have hnext := consistent_proveUpdate hself (hsound call List.mem_cons_self) hclean
      exact ⟨hself, restores_iff_clean.mpr hclean, (ih _ hnext hrest).mpr hlater⟩

def newProver : WorkLogUpdateProver Journal := ⟨7, .EMPTY, none, .zero⟩

def jobReceipt (job : BitVec 64) : WorkReceipt ReceiptClaim := ⟨.value ⟨.pruned .zero, .value ⟨⟨7, job, 0⟩, ⟨7, job, 3⟩, 10⟩⟩, true⟩

/-- A call whose proof is an execution of the log builder. -/
def honestCall (workReceipts : List (WorkReceipt ReceiptClaim)) : UpdateCall ReceiptClaim Journal where
  workReceipts
  toAssumption _ := true
  prove input := (LogBuilder.main sha ⟨fun _ _ => true, fun _ => true, true⟩ input).mapError fun _ => .prove
  decodeJournal := some

theorem honestCall_sound (workReceipts : List (WorkReceipt ReceiptClaim)) : Sound sha (honestCall sha workReceipts) := by
  intro input receipt hprove
  refine ⟨⟨fun _ _ => true, fun _ => true, true⟩, receipt, ?_, rfl⟩
  dsimp only [honestCall] at hprove
  cases hmain : LogBuilder.main sha ⟨fun _ _ => true, fun _ => true, true⟩ input with
  | error e =>
    rw [hmain] at hprove
    cases hprove
  | ok journal =>
    rw [hmain] at hprove
    rw [← Except.ok.inj hprove]

theorem failed_updates_restore_iff_two :
    Restores sha256 newProver [honestCall sha256 [jobReceipt 1], honestCall sha256 [jobReceipt 2, jobReceipt 3]] ↔
      CleanRun sha256 newProver [honestCall sha256 [jobReceipt 1], honestCall sha256 [jobReceipt 2, jobReceipt 3]] := by
  refine failed_updates_restore_iff sha256 newProver _ rfl fun call hmem => ?_
  obtain rfl | rfl : call = honestCall sha256 [jobReceipt 1] ∨ call = honestCall sha256 [jobReceipt 2, jobReceipt 3] := by
    simpa using hmem
  · exact honestCall_sound _ _
  · exact honestCall_sound _ _

/-- A second receipt for the same job fails the call, and the job of the first stays in the log. -/
theorem duplicate_job_not_restored : newProver.Consistent sha256 ∧
    Sound sha256 (honestCall sha256 [jobReceipt 1, jobReceipt 1]) ∧ ∃ e, newProver.proveUpdate sha256 (honestCall sha256 [jobReceipt 1, jobReceipt 1]) =
      (.error e, { newProver with workLog := WorkLog.EMPTY.withJob 1 (Job.new 3) }) ∧
    ¬Restores sha256 newProver [honestCall sha256 [jobReceipt 1, jobReceipt 1]] := by
  have hchecked : checkReceipt 7 (jobReceipt 1) = .ok (⟨.pruned .zero, .value ⟨⟨7, 1, 0⟩, ⟨7, 1, 3⟩, 10⟩⟩, ⟨⟨7, 1, 0⟩, ⟨7, 1, 3⟩, 10⟩) := rfl
  have hvacant : WorkLog.EMPTY.jobs.get? 1 = none := rfl
  have hoccupied : (WorkLog.EMPTY.withJob 1 (Job.new 3)).jobs.get? 1 = some (Job.new 3) := by rw [WorkLog.withJob_jobs, if_pos rfl]
  obtain ⟨opening, hadd, -⟩ := proveAdd_of_vacant sha256 1 (Job.new 3) hvacant
  have hadded : addReceipts sha256 7 WorkLog.EMPTY [jobReceipt 1, jobReceipt 1] =
      (.error (.addJob (.jobIdOccupied 1)), WorkLog.EMPTY.withJob 1 (Job.new 3)) := by
    have hsecond : addReceipts sha256 7 (WorkLog.EMPTY.withJob 1 (Job.new 3)) [jobReceipt 1] =
        (.error (.addJob (.jobIdOccupied 1)), WorkLog.EMPTY.withJob 1 (Job.new 3)) := by
      rw [addReceipts, hchecked]
      simp only [proveAdd_of_occupied _ hoccupied]
    rw [addReceipts, hchecked]
    simp only [hadd, hsecond]
    rfl
  have hstate : newProver.inputState (honestCall sha256 [jobReceipt 1, jobReceipt 1]) = .ok (.initial 7) := rfl
  obtain ⟨e, hcall⟩ : ∃ e, newProver.proveUpdate sha256 (honestCall sha256 [jobReceipt 1, jobReceipt 1]) =
      (.error e, { newProver with workLog := WorkLog.EMPTY.withJob 1 (Job.new 3) }) := by
    obtain ⟨updates, _, _, hupdates, -⟩ | ⟨-, e, hcall⟩ := proveUpdate_cases sha256 hstate
    · cases (congrArg Prod.fst hadded).symm.trans hupdates
    · have hlog : (addReceipts sha256 newProver.logId newProver.workLog
          (honestCall sha256 [jobReceipt 1, jobReceipt 1]).workReceipts).2 = WorkLog.EMPTY.withJob 1 (Job.new 3) :=
        congrArg Prod.snd hadded
      rw [hlog] at hcall
      exact ⟨e, hcall⟩
  refine ⟨rfl, honestCall_sound _ _, e, hcall, fun hrestores => ?_⟩
  have hsame := hrestores.2.1 e (congrArg Prod.fst hcall)
  rw [hcall] at hsame
  have hjobs := congrArg (fun p : WorkLogUpdateProver Journal => p.workLog.jobs.get? 1) hsame
  dsimp only [newProver] at hjobs
  rw [hoccupied, hvacant] at hjobs
  cases hjobs

end WorkLogUpdateProver

end VerifiableCompute.WorkTree
