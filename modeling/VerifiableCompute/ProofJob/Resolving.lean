import VerifiableCompute.ProofJob.Phases

/-! The end of a job. Once all segments are joined and the root of the keccak receipts is there, the
assumptions are resolved one after the other, and the job is finished. -/

namespace VerifiableCompute.ProofJob

open Lib List

def AssumptionReceipt.receipt (root : Option UnknownReceipt) : AssumptionReceipt → Option UnknownReceipt
  | .proven (.succinct receipt) => some receipt
  | .proven _ => none
  | .unresolved .. => root

namespace Job

def keccakRoot (job : Job) : Option UnknownReceipt := mountainRoot .union .keccak job.keccaks

/-- What the assumptions are resolved with in their order. -/
def resolutions (job : Job) : List UnknownReceipt := job.session.assumptions.filterMap (·.receipt job.keccakRoot)

def rootReceipt (job : Job) (t : ClaimReceipt) : ClaimReceipt := if job.devMode then .withClaim t job.session.receiptClaim else t

def resolved (job : Job) (t : ClaimReceipt) (assumptions : List UnknownReceipt) : ClaimReceipt :=
  assumptions.foldl .resolve (job.rootReceipt t)

def resolveTasks (job : Job) (t : ClaimReceipt) (assumptions : List UnknownReceipt) : List Task :=
  foldTasks (fun conditional assumption => .resolve conditional assumption job.devMode) .resolve (job.rootReceipt t) assumptions

/-- Each assumption has a succinct receipt or is the keccak root, the execution has a journal, and
the job may run in its mode. -/
structure Provable (devModeDisabled : Bool) (digest : UnknownReceipt → Digest) (job : Job) : Prop where
  allowed : ¬ (job.devMode ∧ devModeDisabled)
  segments : 0 < job.session.segments
  journal : job.session.journal ≠ none
  assumptions : ∀ assumption ∈ job.session.assumptions, (∃ receipt, assumption = .proven (.succinct receipt)) ∨
    ∃ root controlRoot, job.keccakRoot = some root ∧ assumption = .unresolved (digest root) controlRoot

end Job

variable {devModeDisabled : Bool} {digest : UnknownReceipt → Digest} {job : Job} {a : JobActor} {t : ClaimReceipt}
  {work : Multiset Task} {log : List Task}

/-- All segments are joined, and the root of the keccak receipts is there. -/
structure Joined (job : Job) (a : JobActor) (t : ClaimReceipt) : Prop where
  session : a.session = some job.session
  phase : a.keccakPhase = .done
  root : rootOf job.session.segments a.joins = some t

/-- How far the resolving is, with the tasks of workers and the tasks so far. -/
inductive Resolving (job : Job) (a : JobActor) (work : Multiset Task) (log : List Task) : Prop
  | waiting (final : a.finalReceipt = none) (assumptions : a.assumptions = none) (stops : a.stops = 0) (work : work = 0) (log : log = [])
  | resolving {t : ClaimReceipt} {before rest : List UnknownReceipt} {next : UnknownReceipt} (joined : Joined job a t)
      (split : job.resolutions = before ++ next :: rest) (final : a.finalReceipt = some (job.resolved t before))
      (assumptions : a.assumptions = some rest) (stops : a.stops = 0)
      (work : work = {.resolve (job.resolved t before) next job.devMode}) (log : log = job.resolveTasks t (before ++ [next]))
  | finished {t : ClaimReceipt} {receipt : Receipt} (joined : Joined job a t) (final : a.finalReceipt = some (job.resolved t job.resolutions))
      (stops : a.stops = 1) (work : work = 0) (log : log = job.resolveTasks t job.resolutions)
      (status : a.status = .succeeded job.session receipt) (journal : job.session.journal = some receipt.journal)
      (inner : receipt.inner = if job.devMode then .fake (job.resolved t job.resolutions) else .succinct (job.resolved t job.resolutions))

/-- Some assumptions are resolved, and the next one is due. -/
structure Due (job : Job) (a : JobActor) (t : ClaimReceipt) (before rest : List UnknownReceipt) (log : List Task) : Prop where
  split : job.resolutions = before ++ rest
  final : a.finalReceipt.getD (job.rootReceipt t) = job.resolved t before
  assumptions : a.assumptions = some rest ∨ a.assumptions = none ∧ before = []
  stops : a.stops = 0
  log : log = job.resolveTasks t before

theorem resolveTasks_nodup (t : ClaimReceipt) (assumptions : List UnknownReceipt) : (job.resolveTasks t assumptions).Nodup := by
  refine foldTasks_nodup sizeOf (fun c x => ?_) (fun c x c' x' heq => ?_) _ assumptions
  · rw [ClaimReceipt.resolve.sizeOf_spec]
    omega
  · injection heq

theorem resolved_concat (t : ClaimReceipt) (before : List UnknownReceipt) (next : UnknownReceipt) :
    job.resolved t (before ++ [next]) = .resolve (job.resolved t before) next := by
  rw [Job.resolved, foldl_append, foldl_cons, foldl_nil]
  rfl

theorem collectAssumptions_ok (hp : job.Provable devModeDisabled digest) (hroot : a.keccakRoot = job.keccakRoot)
    (hnone : a.assumptions = none) : a.collectAssumptions digest job.session = .ok job.resolutions := by
  rw [JobActor.collectAssumptions, hnone, Job.resolutions]
  dsimp only
  have hall := hp.assumptions
  generalize job.session.assumptions = l at hall ⊢
  induction l with
  | nil => rfl
  | cons assumption l ih =>
    obtain ⟨hhead, htail⟩ := forall_mem_cons.mp hall
    obtain ⟨receipt, hreceipt, hcollect⟩ : ∃ receipt, assumption.receipt job.keccakRoot = some receipt ∧
        a.collectAssumption digest assumption = .ok receipt := by
      obtain ⟨receipt, rfl⟩ | ⟨root, controlRoot, hjob, rfl⟩ := hhead
      · exact ⟨receipt, rfl, rfl⟩
      · refine ⟨root, hjob, ?_⟩
        rw [JobActor.collectAssumption, hroot, hjob]
        exact if_pos rfl
    rw [mapM_cons, filterMap_cons_some hreceipt]
    exact bind_ok_iff.mpr ⟨receipt, hcollect, bind_ok_iff.mpr ⟨_, ih htail, rfl⟩⟩

theorem collectAssumptions_eq {assumptions : List UnknownReceipt} (hroot : a.keccakRoot = job.keccakRoot) (hnone : a.assumptions = none)
    (h : a.collectAssumptions digest job.session = .ok assumptions) : assumptions = job.resolutions := by
  rw [JobActor.collectAssumptions, hnone] at h
  rw [Job.resolutions]
  generalize job.session.assumptions = l at h ⊢
  induction l generalizing assumptions with
  | nil =>
    cases h
    rfl
  | cons assumption l ih =>
    dsimp only at h
    rw [mapM_cons] at h
    obtain ⟨receipt, hcollect, hrest⟩ := bind_ok_iff.mp h
    obtain ⟨receipts, htail, hcons⟩ := bind_ok_iff.mp hrest
    cases hcons
    have hreceipt : assumption.receipt job.keccakRoot = some receipt := by
      cases assumption with
      | proven inner =>
        cases inner with
        | succinct r =>
          cases hcollect
          rfl
        | composite => cases hcollect
        | groth16 => cases hcollect
        | fake => cases hcollect
      | unresolved claim controlRoot =>
        rw [JobActor.collectAssumption, hroot] at hcollect
        cases hjob : job.keccakRoot with
        | none =>
          rw [hjob] at hcollect
          cases hcollect
        | some root =>
          rw [hjob] at hcollect
          dsimp only at hcollect
          split at hcollect
          · cases hcollect
            rfl
          · cases hcollect
    rw [filterMap_cons_some hreceipt, ih htail]

def JobActor.withEnd (finalReceipt : ClaimReceipt) (assumptions : List UnknownReceipt) (status : JobStatus) (stops : ℕ) (new : List Task)
    (a : JobActor) : JobActor :=
  { a with finalReceipt := some finalReceipt, assumptions := some assumptions, status := status, stops := stops, outbox := a.outbox ++ new }

/-- The next assumption is given to a worker, or the job is finished, or it cannot be proved. -/
theorem Due.finishFrom {before rest : List UnknownReceipt} (hdue : Due job a t before rest log) (hallowed : ¬ (job.devMode ∧ devModeDisabled))
    (hdev : a.devMode = some job.devMode) (hroot : a.keccakRoot = job.keccakRoot) (hjoined : Joined job a t) :
    (∃ assumptions status stops new,
      a.finishFrom devModeDisabled digest job.session (job.rootReceipt t) = .ok (a.withEnd (job.resolved t before) assumptions status stops new) ∧
      (∀ x ∈ new, x.kind = .resolve) ∧
      Resolving job (a.withEnd (job.resolved t before) assumptions status stops new) (new : Multiset Task) (log ++ new)) ∨
    (∃ e, a.finishFrom devModeDisabled digest job.session (job.rootReceipt t) = .error e) ∧ ¬ job.Provable devModeDisabled digest := by
  have hcheck (a' : JobActor) (hsame : a'.devMode = a.devMode) : a'.checkDevMode devModeDisabled = .ok job.devMode :=
    checkDevMode_ok (hsame.trans hdev) hallowed
  have hjoined' {a' : JobActor} (hsession : a'.session = a.session) (hphase : a'.keccakPhase = a.keccakPhase) (hjoins : a'.joins = a.joins) :
      Joined job a' t := ⟨hsession.trans hjoined.session, hphase.trans hjoined.phase, by rw [hjoins]; exact hjoined.root⟩
  rw [JobActor.finishFrom, hdue.final]
  cases hcollect : JobActor.collectAssumptions digest job.session { a with finalReceipt := some (job.resolved t before) } with
  | error e =>
    refine .inr ⟨⟨e, ?_⟩, fun hp => ?_⟩
    · rw [JobActor.resolveAssumptions]
      dsimp only
      rw [hcollect]
      rfl
    · obtain hsome | ⟨hnone, -⟩ := hdue.assumptions
      · rw [JobActor.collectAssumptions, hsome] at hcollect
        cases hcollect
      · have hok : JobActor.collectAssumptions digest job.session { a with finalReceipt := some (job.resolved t before) } =
            .ok job.resolutions := collectAssumptions_ok hp hroot hnone
        rw [hok] at hcollect
        cases hcollect
  | ok collected =>
    obtain rfl : collected = rest := by
      obtain hsome | ⟨hnone, rfl⟩ := hdue.assumptions
      · rw [JobActor.collectAssumptions, hsome] at hcollect
        exact (Except.ok.inj hcollect).symm
      · rw [collectAssumptions_eq hroot hnone hcollect, hdue.split, nil_append]
    cases collected with
    | nil =>
      have hresolve : JobActor.resolveAssumptions devModeDisabled digest job.session (job.resolved t before)
          { a with finalReceipt := some (job.resolved t before) } =
            .ok ({ a with finalReceipt := some (job.resolved t before), assumptions := some [] }, true) :=
        bind_ok_iff.mpr ⟨[], hcollect, rfl⟩
      have hsplit : job.resolutions = before := hdue.split.trans (append_nil before)
      cases hjournal : job.session.journal with
      | none =>
        refine .inr ⟨⟨.missingJournal, ?_⟩, fun hp => hp.journal hjournal⟩
        dsimp only
        rw [hresolve]
        dsimp only [bind, Except.bind]
        rw [if_pos rfl, JobActor.finish, hjournal]
        rfl
      | some journal =>
        refine .inl ⟨[], .succeeded job.session ⟨if job.devMode then .fake (job.resolved t before) else .succinct (job.resolved t before), journal⟩,
          a.stops + 1, [], ?_, fun x hx => absurd hx not_mem_nil, ?_⟩
        · refine bind_ok_iff.mpr ⟨_, hresolve, ?_⟩
          refine bind_ok_iff.mpr ⟨journal, by rw [hjournal]; rfl, bind_ok_iff.mpr ⟨job.devMode, hcheck _ rfl, ?_⟩⟩
          rw [JobActor.withEnd, append_nil]
          rfl
        · rw [← hsplit]
          refine .finished (hjoined' rfl rfl rfl) rfl ?_ rfl ?_ rfl hjournal rfl
          · change a.stops + 1 = 1
            rw [hdue.stops]
          · rw [append_nil, hdue.log, hsplit]
    | cons next rest =>
      refine .inl ⟨rest, a.status, a.stops, [.resolve (job.resolved t before) next job.devMode], ?_, fun x hx => ?_, ?_⟩
      · refine bind_ok_iff.mpr ⟨(_, false), bind_ok_iff.mpr ⟨next :: rest, hcollect,
          bind_ok_iff.mpr ⟨job.devMode, hcheck _ rfl, rfl⟩⟩, rfl⟩
      · rw [mem_singleton.mp hx]
        rfl
      · refine .resolving (hjoined' rfl rfl rfl) hdue.split rfl rfl hdue.stops rfl ?_
        rw [hdue.log, Job.resolveTasks, Job.resolveTasks, foldTasks_concat]
        rfl

theorem joinRoot_ok (hdev : a.devMode = some job.devMode) (hallowed : ¬ (job.devMode ∧ devModeDisabled)) :
    a.joinRoot devModeDisabled job.session = .ok ((rootOf job.session.segments a.joins).map job.rootReceipt) := by
  rw [JobActor.joinRoot, rootOf]
  cases a.joins.entries.head? with
  | none => rfl
  | some e =>
    obtain ⟨range, root⟩ := e
    dsimp only
    by_cases hrange : range.start = 0 ∧ range.stop = job.session.segments
    · rw [if_pos hrange, if_pos hrange]
      refine bind_ok_iff.mpr ⟨job.devMode, checkDevMode_ok hdev hallowed, ?_⟩
      rw [Option.map_some, Job.rootReceipt]
      rfl
    · rw [if_neg hrange, if_neg hrange]
      rfl

end VerifiableCompute.ProofJob
