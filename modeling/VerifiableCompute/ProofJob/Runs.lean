import VerifiableCompute.ProofJob.Resolving

/-! Proof jobs under any order of completions. One invariant holds over the tasks of each kind, those
of workers and those so far; every handler keeps it and returns no error. -/

namespace VerifiableCompute.ProofJob

open Lib

section

variable (kind : TaskKind)

def ofKind (tasks : Multiset Task) : Multiset Task := tasks.filter fun x => x.kind = kind

def listOfKind (tasks : List Task) : List Task := tasks.filter fun x => x.kind = kind

theorem ofKind_coe (tasks : List Task) : ofKind kind tasks = (listOfKind kind tasks : Multiset Task) := by
  simp [ofKind, listOfKind, Multiset.filter_coe]

theorem ofKind_add (s t : Multiset Task) : ofKind kind (s + t) = ofKind kind s + ofKind kind t := Multiset.filter_add _ _ _

theorem ofKind_cons (task : Task) (s : Multiset Task) :
    ofKind kind (task ::ₘ s) = if task.kind = kind then task ::ₘ ofKind kind s else ofKind kind s := by
  by_cases h : task.kind = kind
  · rw [if_pos h]
    exact Multiset.filter_cons_of_pos s h
  · rw [if_neg h]
    exact Multiset.filter_cons_of_neg s h

end

variable {kind : TaskKind} {new : List Task} {devMode : Bool} {work : Multiset Task} {t : ClaimReceipt} {result : Except JobError JobActor}
  {task : Task} {i : ℕ} {s : System}

section

variable (h : ∀ x ∈ new, x.kind = kind) (kind' : TaskKind)

include h kind'

theorem listOfKind_of_forall : listOfKind kind' new = if kind = kind' then new else [] := by
  rw [listOfKind]
  split
  next heq => exact List.filter_eq_self.mpr fun x hx => by rw [h x hx, heq]; exact decide_eq_true rfl
  next hne => exact List.filter_eq_nil_iff.mpr fun x hx => by rw [h x hx, decide_eq_true_eq]; exact hne

theorem ofKind_of_forall : ofKind kind' new = if kind = kind' then (new : Multiset Task) else 0 := by
  rw [ofKind_coe, listOfKind_of_forall h]
  split <;> rfl

theorem ofKind_add_of (s : Multiset Task) :
    ofKind kind' (s + (new : Multiset Task)) = if kind = kind' then ofKind kind' s + (new : Multiset Task) else ofKind kind' s := by
  rw [ofKind_add, ofKind_of_forall h]
  split
  · rfl
  · rw [add_zero]

theorem listOfKind_append_of (l : List Task) :
    listOfKind kind' (l ++ new) = if kind = kind' then listOfKind kind' l ++ new else listOfKind kind' l := by
  have happend : listOfKind kind' (l ++ new) = listOfKind kind' l ++ listOfKind kind' new := List.filter_append ..
  rw [happend, listOfKind_of_forall h]
  split
  · rfl
  · rw [List.append_nil]

theorem ofKind_coe_append_of (l : List Task) : ofKind kind' ((l ++ new : List Task) : Multiset Task) =
      if kind = kind' then ofKind kind' (l : Multiset Task) + (new : Multiset Task) else ofKind kind' (l : Multiset Task) := by
  rw [← Multiset.coe_add, ofKind_add_of h]

end

/-- The execution goes on, or its session is there and all that it reported. -/
inductive Executing (job : Job) (a : JobActor) (work : Multiset Task) (segmentsLeft : Multiset ℕ) (keccaksLeft : ℕ) : Prop
  | running (session : a.session = none) (phase : a.keccakPhase = .build) (work : work = {.execute job.devMode})
  | ended (session : a.session = some job.session) (layers : a.requiredKeccakLayers = mmrLayers job.keccaks) (work : work = 0)
      (segments : segmentsLeft = 0) (keccaks : keccaksLeft = 0)

/-- What holds of an actor, the tasks of workers, the tasks so far, and what the execution has still to report,
but for the resolving. -/
structure Progress (job : Job) (a : JobActor) (flying : Multiset Task) (log : List Task) (segmentsLeft : Multiset ℕ) (keccaksLeft : ℕ) :
    Prop where
  devMode : a.devMode = some job.devMode
  executing : Executing job a (ofKind .execute flying) segmentsLeft keccaksLeft
  executed : listOfKind .execute log = [.execute job.devMode]
  parts : Parts job.session.segments job.devMode segmentsLeft a.joins (ofKind .part flying) (ofKind .part log)
  apart : Apart a.joins
  keccaks : Keccaks job.devMode a (ofKind .keccak flying) (ofKind .keccak log)
  count : a.keccakCount + keccaksLeft = job.keccaks

structure Inv (job : Job) (a : JobActor) (flying : Multiset Task) (log : List Task) (segmentsLeft : Multiset ℕ) (keccaksLeft : ℕ) : Prop
    extends Progress job a flying log segmentsLeft keccaksLeft where
  resolving : Resolving job a (ofKind .resolve flying) (listOfKind .resolve log)

/-- The actor has looked whether it is done since anything changed. -/
structure Settled (job : Job) (a : JobActor) : Prop where
  trees : a.session ≠ none → a.keccakPhase = .build → ¬ Full a.keccakCount a.unions
  root : a.session ≠ none → a.keccakPhase = .done → a.finalReceipt = none → rootOf job.session.segments a.joins = none

variable {devModeDisabled : Bool} {digest : UnknownReceipt → Digest} {job : Job} {a a' : JobActor} {flying rest : Multiset Task}
  {log : List Task} {segmentsLeft : Multiset ℕ} {keccaksLeft : ℕ}

/-- A handler keeps the invariant, or it returns an error and the job cannot be proved. -/
def Handled (devModeDisabled : Bool) (digest : UnknownReceipt → Digest) (job : Job) (a : JobActor) (flying : Multiset Task) (log : List Task)
    (segmentsLeft : Multiset ℕ) (keccaksLeft : ℕ) (result : Except JobError JobActor) : Prop :=
  (∃ a' new, result = .ok a' ∧ a'.outbox = a.outbox ++ new ∧
    Inv job a' (flying + (new : Multiset Task)) (log ++ new) segmentsLeft keccaksLeft ∧ Settled job a') ∨
  (∃ e, result = .error e) ∧ ¬ job.Provable devModeDisabled digest

theorem Keccaks.frame {log : Multiset Task} (h : Keccaks devMode a work log) (hphase : a'.keccakPhase = a.keccakPhase)
    (hcount : a'.keccakCount = a.keccakCount) (hunions : a'.unions = a.unions) (hpending : a'.pendingKeccakPeaks = a.pendingKeccakPeaks)
    (hroot : a'.keccakRoot = a.keccakRoot) : Keccaks devMode a' work log := by
  cases h with
  | build phase root pending building =>
    refine .build (hphase.trans phase) (hroot.trans root) (hpending.trans pending) ?_
    rw [hcount, hunions]
    exact building
  | mergePeaks phase root peaks hwork hlog =>
    refine .mergePeaks (hphase.trans phase) (hroot.trans root) ?_ hwork ?_
    · rw [hcount, hpending]
      exact peaks
    · rw [hcount]
      exact hlog
  | done phase root hwork hlog =>
    refine .done (hphase.trans phase) ?_ hwork ?_
    · rw [hroot, hcount]
      exact root
    · rw [hcount]
      exact hlog

theorem Executing.frame (h : Executing job a work segmentsLeft keccaksLeft) (hsession : a'.session = a.session)
    (hphase : a.keccakPhase = .build → a'.session = none → a'.keccakPhase = .build) (hlayers : a'.requiredKeccakLayers = a.requiredKeccakLayers) :
    Executing job a' work segmentsLeft keccaksLeft := by
  cases h with
  | running session phase hwork => exact .running (hsession.trans session) (hphase phase (hsession.trans session)) hwork
  | ended session layers hwork segments keccaks => exact .ended (hsession.trans session) (hlayers.trans layers) hwork segments keccaks

section

variable (h : Progress job a flying log segmentsLeft keccaksLeft)

include h

theorem Progress.frame (hdev : a'.devMode = a.devMode)
    (hsession : a'.session = a.session) (hlayers : a'.requiredKeccakLayers = a.requiredKeccakLayers) (hjoins : a'.joins = a.joins)
    (hphase : a'.keccakPhase = a.keccakPhase) (hcount : a'.keccakCount = a.keccakCount) (hunions : a'.unions = a.unions)
    (hpending : a'.pendingKeccakPeaks = a.pendingKeccakPeaks) (hroot : a'.keccakRoot = a.keccakRoot) :
    Progress job a' flying log segmentsLeft keccaksLeft where
  devMode := hdev.trans h.devMode
  executing := h.executing.frame hsession (fun hbuild _ => hphase.trans hbuild) hlayers
  executed := h.executed
  parts := hjoins ▸ h.parts
  apart := hjoins ▸ h.apart
  keccaks := h.keccaks.frame hphase hcount hunions hpending hroot
  count := hcount ▸ h.count

theorem Progress.add (hnew : ∀ x ∈ new, x.kind = .resolve) :
    Progress job a (flying + (new : Multiset Task)) (log ++ new) segmentsLeft keccaksLeft where
  devMode := h.devMode
  executing := by
    rw [ofKind_add_of hnew, if_neg (by decide)]
    exact h.executing
  executed := by
    rw [listOfKind_append_of hnew, if_neg (by decide)]
    exact h.executed
  parts := by
    rw [ofKind_add_of hnew, ofKind_coe_append_of hnew, if_neg (by decide), if_neg (by decide)]
    exact h.parts
  apart := h.apart
  keccaks := by
    rw [ofKind_add_of hnew, ofKind_coe_append_of hnew, if_neg (by decide), if_neg (by decide)]
    exact h.keccaks
  count := h.count

theorem Progress.only_resolve (hjoined : Joined job a t) : ∀ task ∈ flying, task.kind = .resolve := by
  intro task htask
  have hkind (kind : TaskKind) (hnone : ofKind kind flying = 0) : task.kind ≠ kind := fun heq => by
    have hmem : task ∈ ofKind kind flying := Multiset.mem_filter.mpr ⟨htask, heq⟩
    rw [hnone] at hmem
    exact Multiset.notMem_zero task hmem
  have hexecute : ofKind .execute flying = 0 := by
    cases h.executing with
    | running session =>
      rw [hjoined.session] at session
      cases session
    | ended _ _ hwork => exact hwork
  have hkeccak : ofKind .keccak flying = 0 := by
    cases h.keccaks with
    | build phase =>
      rw [hjoined.phase] at phase
      cases phase
    | mergePeaks phase =>
      rw [hjoined.phase] at phase
      cases phase
    | done _ _ hwork => exact hwork
  have hpart := (h.parts.idle_of_root hjoined.root).2.1
  cases hk : task.kind with
  | execute => exact absurd hk (hkind _ hexecute)
  | part => exact absurd hk (hkind _ hpart)
  | keccak => exact absurd hk (hkind _ hkeccak)
  | resolve => rfl

end

theorem Handled.after
    (h : Handled devModeDisabled digest job a' (flying + (new : Multiset Task)) (log ++ new) segmentsLeft keccaksLeft result)
    (houtbox : a'.outbox = a.outbox ++ new) : Handled devModeDisabled digest job a flying log segmentsLeft keccaksLeft result := by
  obtain ⟨b, more, hresult, hmore, hinv, hsettled⟩ | herror := h
  · refine .inl ⟨b, new ++ more, hresult, ?_, ?_, hsettled⟩
    · rw [hmore, houtbox, List.append_assoc]
    · rw [← Multiset.coe_add, ← add_assoc, ← List.append_assoc]
      exact hinv
  · exact .inr herror

/-- Nothing is resolved yet. -/
structure Waiting (a : JobActor) (flying : Multiset Task) (log : List Task) : Prop where
  final : a.finalReceipt = none
  assumptions : a.assumptions = none
  stops : a.stops = 0
  work : ofKind .resolve flying = 0
  log : listOfKind .resolve log = []

theorem Progress.keccakRoot_eq (h : Progress job a flying log segmentsLeft keccaksLeft) (hphase : a.keccakPhase = .done) :
    a.keccakRoot = job.keccakRoot := by
  cases h.keccaks with
  | build phase =>
    rw [hphase] at phase
    cases phase
  | mergePeaks phase =>
    rw [hphase] at phase
    cases phase
  | done _ root =>
    cases h.executing with
    | running _ phase =>
      rw [hphase] at phase
      cases phase
    | ended _ _ _ _ keccaks =>
      have hcount := h.count
      rw [keccaks, Nat.add_zero] at hcount
      rw [root, hcount]
      rfl

variable (digest) in
theorem Progress.finishFrom (h : Progress job a flying log segmentsLeft keccaksLeft) (hallowed : ¬ (job.devMode ∧ devModeDisabled))
    {before rest : List UnknownReceipt} (hjoined : Joined job a t) (hwork : ofKind .resolve flying = 0)
    (hdue : Due job a t before rest (listOfKind .resolve log)) :
    Handled devModeDisabled digest job a flying log segmentsLeft keccaksLeft (a.finishFrom devModeDisabled digest job.session (job.rootReceipt t)) := by
  have hroot := h.keccakRoot_eq hjoined.phase
  obtain ⟨assumptions, status, stops, new, hfinish, hkind, hresolving⟩ | herror := hdue.finishFrom hallowed h.devMode hroot hjoined
  case inr => exact .inr herror
  refine .inl ⟨_, new, hfinish, rfl, ⟨(h.add hkind).frame rfl rfl rfl rfl rfl rfl rfl rfl rfl, ?_⟩, fun _ hphase => ?_, fun _ _ hnone => ?_⟩
  · rw [ofKind_add_of hkind, listOfKind_append_of hkind, if_pos rfl, if_pos rfl, hwork, zero_add]
    exact hresolving
  · rw [show (a.withEnd (job.resolved t before) assumptions status stops new).keccakPhase = .done from hjoined.phase] at hphase
    cases hphase
  · cases hnone

variable (digest) in
theorem Progress.maybeFinish (h : Progress job a flying log segmentsLeft keccaksLeft) (hallowed : ¬ (job.devMode ∧ devModeDisabled))
    (hwaiting : Waiting a flying log) :
    Handled devModeDisabled digest job a flying log segmentsLeft keccaksLeft (a.maybeFinish devModeDisabled digest) := by
  have hwait : Resolving job a (ofKind .resolve flying) (listOfKind .resolve log) :=
    .waiting hwaiting.final hwaiting.assumptions hwaiting.stops hwaiting.work hwaiting.log
  cases hexecuting : h.executing with
  | running session phase hwork =>
    refine .inl ⟨a, [], ?_, (List.append_nil _).symm, ?_, fun hne => absurd session hne, fun hne => absurd session hne⟩
    · rw [JobActor.maybeFinish, session]
    · rw [Multiset.coe_nil, add_zero, List.append_nil]
      exact ⟨h, hwait⟩
  | ended session layers hwork segments keccaks =>
    have hcount := h.count
    rw [keccaks, Nat.add_zero] at hcount
    obtain ⟨phase, pending, root, new, done, hmmr, hkind, hkeccaks, hdone, hfull⟩ :=
      h.keccaks.maybeFinish (layers.trans (by rw [hcount])) h.devMode hallowed
    have hprogress : Progress job (a.withKeccaks a.unions phase pending root new) (flying + (new : Multiset Task)) (log ++ new)
        segmentsLeft keccaksLeft := by
      refine ⟨h.devMode, ?_, ?_, ?_, h.apart, ?_, h.count⟩
      · rw [ofKind_add_of hkind, if_neg (by decide)]
        exact .ended session layers hwork segments keccaks
      · rw [listOfKind_append_of hkind, if_neg (by decide)]
        exact h.executed
      · rw [ofKind_add_of hkind, ofKind_coe_append_of hkind, if_neg (by decide), if_neg (by decide)]
        exact h.parts
      · rw [ofKind_add_of hkind, ofKind_coe_append_of hkind, if_pos rfl, if_pos rfl]
        exact hkeccaks
    have hwork' : ofKind .resolve (flying + (new : Multiset Task)) = 0 := by
      rw [ofKind_add_of hkind, if_neg (by decide)]
      exact hwaiting.work
    have hlog : listOfKind .resolve (log ++ new) = [] := by
      rw [listOfKind_append_of hkind, if_neg (by decide)]
      exact hwaiting.log
    have hinv : Inv job (a.withKeccaks a.unions phase pending root new) (flying + (new : Multiset Task)) (log ++ new)
        segmentsLeft keccaksLeft :=
      ⟨hprogress, .waiting hwaiting.final hwaiting.assumptions hwaiting.stops hwork' hlog⟩
    rw [JobActor.maybeFinish, session]
    cases done with
    | false =>
      refine .inl ⟨_, new, bind_ok_iff.mpr ⟨_, hmmr, rfl⟩, rfl, hinv, fun _ => hfull, fun _ hphase => ?_⟩
      exact absurd (hdone.mpr hphase) Bool.false_ne_true
    | true =>
      have hphase := hdone.mp rfl
      subst hphase
      have hjoinRoot := @joinRoot_ok devModeDisabled job (a.withKeccaks a.unions .done pending root new) h.devMode hallowed
      cases hroot : rootOf job.session.segments a.joins with
      | none =>
        rw [show rootOf job.session.segments (a.withKeccaks a.unions .done pending root new).joins = none from hroot] at hjoinRoot
        refine .inl ⟨_, new, ?_, rfl, hinv, fun _ hbuild => (by cases hbuild), fun _ _ _ => hroot⟩
        exact bind_ok_iff.mpr ⟨_, hmmr, bind_ok_iff.mpr ⟨_, hjoinRoot, rfl⟩⟩
      | some t =>
        rw [show rootOf job.session.segments (a.withKeccaks a.unions .done pending root new).joins = some t from hroot] at hjoinRoot
        have hdue : Due job (a.withKeccaks a.unions .done pending root new) t [] job.resolutions (listOfKind .resolve (log ++ new)) := by
          refine ⟨rfl, ?_, .inr ⟨hwaiting.assumptions, rfl⟩, hwaiting.stops, hlog⟩
          rw [show (a.withKeccaks a.unions .done pending root new).finalReceipt = none from hwaiting.final]
          rfl
        have hcontinue := hprogress.finishFrom digest hallowed ⟨session, rfl, hroot⟩ hwork' hdue
        rw [hmmr]
        dsimp only [bind, Except.bind]
        rw [if_pos rfl, hjoinRoot]
        exact hcontinue.after rfl

theorem Inv.waiting (h : Inv job a flying log segmentsLeft keccaksLeft) (htask : task ∈ flying) (hkind : task.kind ≠ .resolve) :
    Waiting a flying log := by
  cases h.resolving with
  | waiting final assumptions stops hwork hlog => exact ⟨final, assumptions, stops, hwork, hlog⟩
  | resolving joined => exact absurd (h.only_resolve joined task htask) hkind
  | finished joined => exact absurd (h.only_resolve joined task htask) hkind

theorem Resolving.frame {log : List Task} (h : Resolving job a work log) (hfinal : a'.finalReceipt = a.finalReceipt)
    (hassumptions : a'.assumptions = a.assumptions) (hstops : a'.stops = a.stops) (hstatus : a'.status = a.status)
    (hsession : a'.session = a.session) (hphase : a'.keccakPhase = a.keccakPhase) (hjoins : a'.joins = a.joins) :
    Resolving job a' work log := by
  have hjoined {t : ClaimReceipt} (joined : Joined job a t) : Joined job a' t :=
    ⟨hsession.trans joined.session, hphase.trans joined.phase, hjoins ▸ joined.root⟩
  cases h with
  | waiting final assumptions stops hwork hlog =>
    exact .waiting (hfinal.trans final) (hassumptions.trans assumptions) (hstops.trans stops) hwork hlog
  | resolving joined split final assumptions stops hwork hlog =>
    exact .resolving (hjoined joined) split (hfinal.trans final) (hassumptions.trans assumptions) (hstops.trans stops) hwork hlog
  | finished joined final stops hwork hlog status journal inner =>
    exact .finished (hjoined joined) (hfinal.trans final) (hstops.trans stops) hwork hlog (hstatus.trans status) journal inner

theorem Inv.session_none (h : Inv job a flying log segmentsLeft keccaksLeft) (htask : .execute devMode ∈ flying) :
    a.session = none ∧ a.keccakPhase = .build ∧ devMode = job.devMode ∧ ofKind .execute flying = {.execute job.devMode} := by
  have hmem : .execute devMode ∈ ofKind .execute flying := Multiset.mem_filter.mpr ⟨htask, rfl⟩
  cases h.executing with
  | running session phase hwork =>
    rw [hwork, Multiset.mem_singleton] at hmem
    cases hmem
    exact ⟨session, phase, rfl, hwork⟩
  | ended _ _ hwork =>
    rw [hwork] at hmem
    exact absurd hmem (Multiset.notMem_zero _)

theorem settled_of_session_none (hsession : a.session = none) : Settled job a :=
  ⟨fun hne => absurd hsession hne, fun hne => absurd hsession hne⟩

section

variable (h : Inv job a flying log segmentsLeft keccaksLeft) (hallowed : ¬ (job.devMode ∧ devModeDisabled)) (htask : .execute devMode ∈ flying)

include h hallowed htask

theorem Inv.segment (hi : i ∈ segmentsLeft) :
    Handled devModeDisabled digest job a flying log (segmentsLeft.erase i) keccaksLeft (a.handleTaskUpdate devModeDisabled (.segment i)) := by
  obtain ⟨hsession, hphase, rfl, hwork⟩ := h.session_none htask
  have hkind : ∀ x ∈ [Task.proveSegment i job.devMode], x.kind = .part := fun x hx => by
    rw [List.mem_singleton.mp hx]
    rfl
  refine .inl ⟨a.submitTask (.proveSegment i job.devMode), [.proveSegment i job.devMode],
    bind_ok_iff.mpr ⟨job.devMode, checkDevMode_ok h.devMode hallowed, rfl⟩, rfl,
    ⟨⟨h.devMode, ?_, ?_, ?_, h.apart, ?_, h.count⟩, ?_⟩, settled_of_session_none hsession⟩
  · rw [ofKind_add_of hkind, if_neg (by decide)]
    exact .running hsession hphase hwork
  · rw [listOfKind_append_of hkind, if_neg (by decide)]
    exact h.executed
  · rw [ofKind_add_of hkind, ofKind_coe_append_of hkind, if_pos rfl, if_pos rfl, Multiset.coe_singleton, add_comm,
      add_comm (ofKind .part (log : Multiset Task))]
    exact h.parts.segment hi
  · rw [ofKind_add_of hkind, ofKind_coe_append_of hkind, if_neg (by decide), if_neg (by decide)]
    exact h.keccaks.frame rfl rfl rfl rfl rfl
  · rw [ofKind_add_of hkind, listOfKind_append_of hkind, if_neg (by decide), if_neg (by decide)]
    exact h.resolving.frame rfl rfl rfl rfl rfl rfl rfl

theorem Inv.keccak (hleft : 0 < keccaksLeft) :
    Handled devModeDisabled digest job a flying log segmentsLeft (keccaksLeft - 1) (a.handleTaskUpdate devModeDisabled .keccak) := by
  obtain ⟨hsession, hphase, rfl, hwork⟩ := h.session_none htask
  have hkind : ∀ x ∈ [Task.proveKeccak a.keccakCount job.devMode], x.kind = .keccak := fun x hx => by
    rw [List.mem_singleton.mp hx]
    rfl
  refine .inl ⟨JobActor.submitTask (.proveKeccak a.keccakCount job.devMode) { a with keccakCount := a.keccakCount + 1 },
    [.proveKeccak a.keccakCount job.devMode], bind_ok_iff.mpr ⟨job.devMode, checkDevMode_ok h.devMode hallowed, rfl⟩, rfl,
    ⟨⟨h.devMode, ?_, ?_, ?_, h.apart, ?_, ?_⟩, ?_⟩, settled_of_session_none hsession⟩
  · rw [ofKind_add_of hkind, if_neg (by decide)]
    exact .running hsession hphase hwork
  · rw [listOfKind_append_of hkind, if_neg (by decide)]
    exact h.executed
  · rw [ofKind_add_of hkind, ofKind_coe_append_of hkind, if_neg (by decide), if_neg (by decide)]
    exact h.parts
  · rw [ofKind_add_of hkind, ofKind_coe_append_of hkind, if_pos rfl, if_pos rfl, Multiset.coe_singleton,
      add_comm (ofKind .keccak flying), add_comm (ofKind .keccak (log : Multiset Task))]
    cases h.keccaks with
    | build _ root pending building => exact .build hphase root pending building.report
    | mergePeaks phase =>
      rw [hphase] at phase
      cases phase
    | done phase =>
      rw [hphase] at phase
      cases phase
  · have hcount := h.count
    change a.keccakCount + 1 + (keccaksLeft - 1) = job.keccaks
    omega
  · rw [ofKind_add_of hkind, listOfKind_append_of hkind, if_neg (by decide), if_neg (by decide)]
    exact h.resolving.frame rfl rfl rfl rfl rfl rfl rfl

end

theorem ofKind_cons_self (h : task.kind = kind) (s : Multiset Task) :
    ofKind kind (task ::ₘ s) = task ::ₘ ofKind kind s := by
  rw [ofKind_cons, if_pos h]

theorem ofKind_cons_of_ne (h : task.kind ≠ kind) (s : Multiset Task) : ofKind kind (task ::ₘ s) = ofKind kind s := by
  rw [ofKind_cons, if_neg h]

theorem Waiting.tail (h : Waiting a (task ::ₘ rest) log) (hkind : task.kind ≠ .resolve) : Waiting a rest log := by
  have hwork := h.work
  rw [ofKind_cons_of_ne hkind] at hwork
  exact ⟨h.final, h.assumptions, h.stops, hwork, h.log⟩

theorem Inv.session (h : Inv job a (.execute job.devMode ::ₘ rest) log 0 0) (hallowed : ¬ (job.devMode ∧ devModeDisabled)) :
    Handled devModeDisabled digest job a rest log 0 0 (a.sessionDone devModeDisabled digest job.session) := by
  have hne (kind : TaskKind) (hkind : TaskKind.execute ≠ kind) : (Task.execute job.devMode).kind ≠ kind := hkind
  have hself : (Task.execute job.devMode).kind = .execute := rfl
  obtain ⟨-, hphase, -, hwork⟩ := h.session_none (Multiset.mem_cons_self _ rest)
  have hwaiting := (h.waiting (Multiset.mem_cons_self _ rest) (hne _ (by decide))).tail (hne _ (by decide))
  have hcount := h.count
  rw [Nat.add_zero] at hcount
  refine Progress.maybeFinish (a := { a with session := some job.session, requiredKeccakLayers := mmrLayers a.keccakCount }) digest
    ⟨h.devMode, ?_, h.executed, ?_, h.apart, ?_, h.count⟩ hallowed ⟨hwaiting.final, hwaiting.assumptions, hwaiting.stops, hwaiting.work, hwaiting.log⟩
  · refine .ended rfl (by rw [← hcount]) ?_ rfl rfl
    rw [ofKind_cons_self hself, ← Multiset.cons_zero] at hwork
    exact (Multiset.cons_inj_right _).mp hwork
  · have hparts := h.parts
    rw [ofKind_cons_of_ne (hne _ (by decide))] at hparts
    exact hparts
  · have hkeccaks := h.keccaks
    rw [ofKind_cons_of_ne (hne _ (by decide))] at hkeccaks
    exact hkeccaks.frame rfl rfl rfl rfl rfl

/-- When a task on a part ends, parts may be joined and tasks on parts submitted. -/
theorem Inv.partDone {joins : OrderedMap SegmentRange ClaimReceipt} {new : List Task} (h : Inv job a (task ::ₘ rest) log segmentsLeft keccaksLeft)
    (htask : task.kind = .part) (hkind : ∀ x ∈ new, x.kind = .part)
    (hparts : Parts job.session.segments job.devMode segmentsLeft joins (ofKind .part rest + (new : Multiset Task))
      (ofKind .part (log : Multiset Task) + (new : Multiset Task))) (hapart : Apart joins) :
    Progress job { a with joins := joins, outbox := a.outbox ++ new } (rest + (new : Multiset Task)) (log ++ new) segmentsLeft keccaksLeft := by
  have hne (kind : TaskKind) (hkind : TaskKind.part ≠ kind) : task.kind ≠ kind := by rwa [htask]
  refine ⟨h.devMode, ?_, ?_, ?_, hapart, ?_, h.count⟩
  · rw [ofKind_add_of hkind, if_neg (by decide)]
    have hexecuting := h.executing
    rw [ofKind_cons_of_ne (hne _ (by decide))] at hexecuting
    exact hexecuting.frame rfl (fun hbuild _ => hbuild) rfl
  · rw [listOfKind_append_of hkind, if_neg (by decide)]
    exact h.executed
  · rw [ofKind_add_of hkind, ofKind_coe_append_of hkind, if_pos rfl, if_pos rfl]
    exact hparts
  · rw [ofKind_add_of hkind, ofKind_coe_append_of hkind, if_neg (by decide), if_neg (by decide)]
    have hkeccaks := h.keccaks
    rw [ofKind_cons_of_ne (hne _ (by decide))] at hkeccaks
    exact hkeccaks.frame rfl rfl rfl rfl rfl

theorem Inv.proveSegment (h : Inv job a (.proveSegment i devMode ::ₘ rest) log segmentsLeft keccaksLeft)
    (hsettled : Settled job a) (hallowed : ¬ (job.devMode ∧ devModeDisabled)) :
    Handled devModeDisabled digest job a rest log segmentsLeft keccaksLeft (a.proveSegmentDone devModeDisabled i) := by
  have hne (kind : TaskKind) (hkind : TaskKind.part ≠ kind) : (Task.proveSegment i devMode).kind ≠ kind := hkind
  have hself : (Task.proveSegment i devMode).kind = .part := rfl
  have hparts := h.parts
  rw [ofKind_cons_self hself] at hparts
  obtain rfl : devMode = job.devMode := (hparts.tasks _ (Multiset.mem_cons_self _ _)).2
  have hkind : ∀ x ∈ [Task.lift i job.devMode], x.kind = .part := fun x hx => by
    rw [List.mem_singleton.mp hx]
    rfl
  refine .inl ⟨a.submitTask (.lift i job.devMode), [.lift i job.devMode],
    bind_ok_iff.mpr ⟨job.devMode, checkDevMode_ok h.devMode hallowed, rfl⟩, rfl,
    ⟨h.partDone hself hkind ?_ h.apart, ?_⟩, hsettled.trees, hsettled.root⟩
  · rw [Multiset.coe_singleton, add_comm, add_comm (ofKind .part (log : Multiset Task))]
    exact hparts.lift
  · rw [ofKind_add_of hkind, listOfKind_append_of hkind, if_neg (by decide), if_neg (by decide)]
    have hresolving := h.resolving
    rw [ofKind_cons_of_ne (hne _ (by decide))] at hresolving
    exact hresolving.frame rfl rfl rfl rfl rfl rfl rfl

theorem Inv.node {range : SegmentRange} (h : Inv job a (task ::ₘ rest) log segmentsLeft keccaksLeft)
    (hallowed : ¬ (job.devMode ∧ devModeDisabled)) (htask : task.kind = .part) (hspans : task.part.Spans range)
    (hhistory : task.history = task.part.makings job.devMode) :
    Handled devModeDisabled digest job a rest log segmentsLeft keccaksLeft (a.nodeDone devModeDisabled digest ⟨range, task.part⟩) := by
  have hne (kind : TaskKind) (hkind : TaskKind.part ≠ kind) : task.kind ≠ kind := by rwa [htask]
  have hparts := h.parts
  rw [ofKind_cons_self htask] at hparts
  have hwaiting := (h.waiting (Multiset.mem_cons_self _ rest) (hne _ (by decide))).tail (hne _ (by decide))
  obtain ⟨joins, new, hjoin, hparts', hapart, hkind⟩ := maybeJoin_ok
    (a := { a with joins := a.joins.insert range task.part }) hparts h.apart hspans hhistory rfl (checkDevMode_ok h.devMode hallowed)
  have hcontinue := (h.partDone htask hkind hparts' hapart).maybeFinish digest hallowed (by
    refine ⟨hwaiting.final, hwaiting.assumptions, hwaiting.stops, ?_, ?_⟩
    · rw [ofKind_add_of hkind, if_neg (by decide)]
      exact hwaiting.work
    · rw [listOfKind_append_of hkind, if_neg (by decide)]
      exact hwaiting.log)
  rw [JobActor.nodeDone, hjoin]
  exact hcontinue.after rfl

theorem Inv.keccakDone (h : Inv job a (task ::ₘ rest) log segmentsLeft keccaksLeft) (hallowed : ¬ (job.devMode ∧ devModeDisabled))
    (htask : task.kind = .keccak) :
    Handled devModeDisabled digest job a rest log segmentsLeft keccaksLeft (a.handleTaskDone devModeDisabled digest (task.result job.session)) := by
  have hne (kind : TaskKind) (hkind : TaskKind.keccak ≠ kind) : task.kind ≠ kind := by rwa [htask]
  have hwaiting := (h.waiting (Multiset.mem_cons_self _ rest) (hne _ (by decide))).tail (hne _ (by decide))
  have hkeccaks := h.keccaks
  rw [ofKind_cons_self htask] at hkeccaks
  have hexecuting := h.executing
  rw [ofKind_cons_of_ne (hne _ (by decide))] at hexecuting
  have hparts := h.parts
  rw [ofKind_cons_of_ne (hne _ (by decide))] at hparts
  obtain ⟨unions, phase, pending, root, hphase, ⟨next, hdone, hkind, hopen, hkeccaks', hfull⟩ | ⟨hdone, hkeccaks'⟩⟩ :=
    hkeccaks.step digest h.devMode hallowed job.session
  · have hnew : ∀ x ∈ [next], x.kind = .keccak := fun x hx => by rwa [List.mem_singleton.mp hx]
    refine .inl ⟨_, [next], hdone, rfl, ⟨⟨h.devMode, ?_, ?_, ?_, h.apart, ?_, h.count⟩, ?_⟩, fun _ => hfull, fun _ hend => absurd hend hopen⟩
    · rw [ofKind_add_of hnew, if_neg (by decide)]
      exact hexecuting.frame rfl (fun hbuild _ => hphase.mpr hbuild) rfl
    · rw [listOfKind_append_of hnew, if_neg (by decide)]
      exact h.executed
    · rw [ofKind_add_of hnew, ofKind_coe_append_of hnew, if_neg (by decide), if_neg (by decide)]
      exact hparts
    · rw [ofKind_add_of hnew, ofKind_coe_append_of hnew, if_pos rfl, if_pos rfl, Multiset.coe_singleton, add_comm,
        add_comm (ofKind .keccak (log : Multiset Task))]
      exact hkeccaks'
    · rw [ofKind_add_of hnew, listOfKind_append_of hnew, if_neg (by decide), if_neg (by decide)]
      exact .waiting hwaiting.final hwaiting.assumptions hwaiting.stops hwaiting.work hwaiting.log
  · have hprogress : Progress job (a.withKeccaks unions phase pending root []) rest log segmentsLeft keccaksLeft :=
      ⟨h.devMode, hexecuting.frame rfl (fun hbuild _ => hphase.mpr hbuild) rfl, h.executed, hparts, h.apart, hkeccaks', h.count⟩
    have hcontinue := hprogress.maybeFinish digest hallowed
      ⟨hwaiting.final, hwaiting.assumptions, hwaiting.stops, hwaiting.work, hwaiting.log⟩
    rw [hdone]
    rw [← add_zero rest, ← Multiset.coe_nil, ← List.append_nil log] at hcontinue
    exact hcontinue.after rfl

theorem maybeFinish_joined {session : Session} {root : ClaimReceipt} (hsession : a.session = some session)
    (hmmr : a.maybeFinishKeccakMmr devModeDisabled = .ok (a', true)) (hroot : a'.joinRoot devModeDisabled session = .ok (some root)) :
    a.maybeFinish devModeDisabled digest = a'.finishFrom devModeDisabled digest session root := by
  rw [JobActor.maybeFinish, hsession]
  dsimp only
  rw [hmmr]
  dsimp only [bind, Except.bind]
  rw [if_pos rfl, hroot]

theorem Inv.resolveDone (h : Inv job a (task ::ₘ rest) log segmentsLeft keccaksLeft) (hallowed : ¬ (job.devMode ∧ devModeDisabled))
    (htask : task.kind = .resolve) :
    Handled devModeDisabled digest job a rest log segmentsLeft keccaksLeft (a.handleTaskDone devModeDisabled digest (task.result job.session)) := by
  have hne (kind : TaskKind) (hkind : TaskKind.resolve ≠ kind) : task.kind ≠ kind := by rwa [htask]
  have hresolving := h.resolving
  rw [ofKind_cons_self htask] at hresolving
  cases hresolving with
  | waiting _ _ _ hwork => exact absurd hwork (Multiset.cons_ne_zero)
  | finished _ _ _ hwork => exact absurd hwork (Multiset.cons_ne_zero)
  | @resolving t before after next joined split final assumptions stops hwork hlog =>
    obtain ⟨rfl, hnone⟩ : task = .resolve (job.resolved t before) next job.devMode ∧ ofKind .resolve rest = 0 := by
      have hcard := congrArg Multiset.card hwork
      rw [Multiset.card_cons, Multiset.card_singleton] at hcard
      have hzero := Multiset.card_eq_zero.mp (Nat.succ.inj hcard)
      rw [hzero, Multiset.cons_zero, Multiset.singleton_inj] at hwork
      exact ⟨hwork, hzero⟩
    have hprogress : Progress job { a with finalReceipt := some (job.resolved t (before ++ [next])), keccakPhase := .done } rest log
        segmentsLeft keccaksLeft := by
      have hexecuting := h.executing
      rw [ofKind_cons_of_ne (hne _ (by decide))] at hexecuting
      have hparts := h.parts
      rw [ofKind_cons_of_ne (hne _ (by decide))] at hparts
      have hkeccaks := h.keccaks
      rw [ofKind_cons_of_ne (hne _ (by decide))] at hkeccaks
      refine ⟨h.devMode, hexecuting.frame rfl (fun hbuild _ => ?_) rfl, h.executed, hparts, h.apart,
        hkeccaks.frame joined.phase.symm rfl rfl rfl rfl, h.count⟩
      rw [joined.phase] at hbuild
      cases hbuild
    have hdue : Due job { a with finalReceipt := some (job.resolved t (before ++ [next])), keccakPhase := .done } t (before ++ [next]) after
        (listOfKind .resolve log) := ⟨by rw [split, List.append_assoc]; rfl, rfl, .inl assumptions, stops, hlog⟩
    have hcontinue := hprogress.finishFrom digest hallowed ⟨joined.session, rfl, joined.root⟩ hnone hdue
    have hhandle : a.handleTaskDone devModeDisabled digest ((Task.resolve (job.resolved t before) next job.devMode).result job.session) =
        JobActor.maybeFinish devModeDisabled digest { a with finalReceipt := some (job.resolved t (before ++ [next])) } := by
      rw [resolved_concat]
      rfl
    have hmmr : JobActor.maybeFinishKeccakMmr devModeDisabled { a with finalReceipt := some (job.resolved t (before ++ [next])) } =
        .ok ({ a with finalReceipt := some (job.resolved t (before ++ [next])), keccakPhase := .done }, true) := by
      rw [JobActor.maybeFinishKeccakMmr, if_pos (.inr joined.phase)]
    have hjoinRoot := @joinRoot_ok devModeDisabled job
      { a with finalReceipt := some (job.resolved t (before ++ [next])), keccakPhase := .done } h.devMode hallowed
    have hroot : rootOf job.session.segments
        { a with finalReceipt := some (job.resolved t (before ++ [next])), keccakPhase := .done }.joins = some t := joined.root
    rw [hroot] at hjoinRoot
    have hjoined := @maybeFinish_joined devModeDisabled digest _ _ _ _
      (show { a with finalReceipt := some (job.resolved t (before ++ [next])) }.session = some job.session from joined.session) hmmr hjoinRoot
    rw [hhandle, hjoined]
    exact hcontinue

variable (digest) in
theorem Inv.taskDone (h : Inv job a (task ::ₘ rest) log segmentsLeft keccaksLeft) (hsettled : Settled job a)
    (hallowed : ¬ (job.devMode ∧ devModeDisabled)) (henabled : (∃ devMode, task = .execute devMode) → segmentsLeft = 0 ∧ keccaksLeft = 0) :
    Handled devModeDisabled digest job a rest log segmentsLeft keccaksLeft (a.handleTaskDone devModeDisabled digest (task.result job.session)) := by
  have hpart (htask : task.kind = .part) : task.PartOk job.devMode := by
    have hparts := h.parts
    rw [ofKind_cons_self htask] at hparts
    exact (hparts.tasks _ (Multiset.mem_cons_self _ _)).2
  cases task with
  | execute devMode =>
    obtain ⟨rfl, rfl⟩ := henabled ⟨devMode, rfl⟩
    obtain ⟨-, -, rfl, -⟩ := h.session_none (Multiset.mem_cons_self _ rest)
    exact h.session hallowed
  | proveSegment i devMode => exact h.proveSegment hsettled hallowed
  | proveKeccak i devMode => exact h.keccakDone hallowed rfl
  | lift i devMode =>
    obtain rfl : devMode = job.devMode := hpart rfl
    exact h.node hallowed rfl (ClaimReceipt.spans_lift i) rfl
  | join range left right devMode =>
    obtain ⟨rfl, hspans⟩ := hpart rfl
    exact h.node hallowed rfl hspans rfl
  | union height pos lhs rhs devMode => exact h.keccakDone hallowed rfl
  | resolve conditional assumption devMode => exact h.resolveDone hallowed rfl

structure SystemInv (job : Job) (s : System) : Prop where
  inv : Inv job s.actor s.inFlight s.submitted s.segmentsLeft s.keccaksLeft
  settled : Settled job s.actor
  outbox : s.actor.outbox = []

theorem Inv.flush (h : Inv job a (flying + (a.outbox : Multiset Task)) (log ++ a.outbox) segmentsLeft keccaksLeft) (hsettled : Settled job a) :
    SystemInv job (System.flush ⟨a, flying, log, segmentsLeft, keccaksLeft⟩) :=
  ⟨⟨h.toProgress.frame rfl rfl rfl rfl rfl rfl rfl rfl rfl, h.resolving.frame rfl rfl rfl rfl rfl rfl rfl⟩, ⟨hsettled.trees, hsettled.root⟩, rfl⟩

theorem Handled.system
    (h : Handled devModeDisabled digest job a flying log segmentsLeft keccaksLeft result) (houtbox : a.outbox = []) :
    (∃ s, (do return System.flush ⟨← result, flying, log, segmentsLeft, keccaksLeft⟩) = Except.ok s ∧ SystemInv job s) ∨
      (∃ e, (do return System.flush ⟨← result, flying, log, segmentsLeft, keccaksLeft⟩) = Except.error e) ∧
        ¬ job.Provable devModeDisabled digest := by
  obtain ⟨a', new, rfl, hnew, hinv, hsettled⟩ | ⟨⟨e, rfl⟩, hp⟩ := h
  · rw [houtbox, List.nil_append] at hnew
    rw [← hnew] at hinv
    exact .inl ⟨_, rfl, hinv.flush hsettled⟩
  · exact .inr ⟨⟨e, rfl⟩, hp⟩

theorem apart_empty : Apart .empty := fun _ _ _ _ h => by cases h

theorem System.start_inv {sender : Option ReplySender} (h : System.start job sender = .ok s) : SystemInv job s := by
  obtain ⟨a, hhandle, hflush⟩ := bind_ok_iff.mp h
  cases hhandle
  cases hflush
  refine Inv.flush (a := JobActor.submitTask (.execute job.devMode) { JobActor.new with replySender := sender, devMode := some job.devMode })
    ⟨⟨rfl, .running rfl rfl rfl, rfl, ?_, apart_empty, ?_, ?_⟩, .waiting rfl rfl rfl rfl rfl⟩ (settled_of_session_none rfl)
  · exact parts_start job.session.segments job.devMode
  · exact .build rfl rfl rfl (Building.start job.devMode)
  · exact Nat.zero_add job.keccaks

variable (digest) in
/-- Every event is handled and the invariant is kept, or there is an error and the job cannot be proved. -/
theorem SystemInv.step {s : System} (h : SystemInv job s) (hallowed : ¬ (job.devMode ∧ devModeDisabled)) {event : Event}
    (henabled : s.Enabled event) : (∃ s', s.step devModeDisabled digest job event = .ok s' ∧ SystemInv job s') ∨
      (∃ e, s.step devModeDisabled digest job event = .error e) ∧ ¬ job.Provable devModeDisabled digest := by
  obtain ⟨a, flying, log, segmentsLeft, keccaksLeft⟩ := s
  obtain ⟨hinv, hsettled, houtbox⟩ := h
  cases event with
  | segment i =>
    obtain ⟨⟨devMode, htask⟩, hi⟩ := henabled
    exact (hinv.segment hallowed htask hi).system houtbox
  | keccak =>
    obtain ⟨⟨devMode, htask⟩, hleft⟩ := henabled
    exact (hinv.keccak hallowed htask hleft).system houtbox
  | done task =>
    obtain ⟨htask, hlast⟩ := henabled
    obtain ⟨rest, rfl⟩ : ∃ rest, flying = task ::ₘ rest := Multiset.exists_cons_of_mem htask
    have hdone := (hinv.taskDone digest hsettled hallowed hlast).system houtbox
    rw [← Multiset.erase_cons_head task rest] at hdone
    exact hdone

theorem System.Reachable.inv (h : System.Reachable devModeDisabled digest job s) (hallowed : ¬ (job.devMode ∧ devModeDisabled)) :
    SystemInv job s := by
  induction h with
  | start hstart => exact System.start_inv hstart
  | step _ henabled hstep ih =>
    obtain ⟨s', hok, hinv⟩ | ⟨⟨e, herror⟩, -⟩ := ih.step digest hallowed henabled
    · rw [hok] at hstep
      cases hstep
      exact hinv
    · rw [herror] at hstep
      cases hstep

/-- No task is there twice: each kind of tasks is apart, and in each kind a task is there once. -/
theorem Inv.nodup (h : Inv job a flying log segmentsLeft keccaksLeft) : log.Nodup := by
  have hparts := h.parts.nodup
  have hkeccaks : (ofKind .keccak (log : Multiset Task)).Nodup := by
    cases h.keccaks with
    | build _ _ _ building => exact building.logNodup
    | mergePeaks _ _ _ _ hlog => exact hlog.nodup
    | done _ _ _ hlog => exact hlog.nodup
  have hresolve : (listOfKind .resolve log).Nodup := by
    cases h.resolving with
    | waiting _ _ _ _ hlog =>
      rw [hlog]
      exact List.nodup_nil
    | resolving _ _ _ _ _ _ hlog =>
      rw [hlog]
      exact resolveTasks_nodup _ _
    | finished _ _ _ _ hlog =>
      rw [hlog]
      exact resolveTasks_nodup _ _
  have hkind (kind : TaskKind) : (listOfKind kind log).Nodup := by
    cases kind with
    | execute =>
      rw [h.executed]
      exact List.nodup_singleton _
    | part =>
      rw [ofKind_coe] at hparts
      exact hparts
    | keccak =>
      rw [ofKind_coe] at hkeccaks
      exact hkeccaks
    | resolve => exact hresolve
  rw [List.nodup_iff_count_le_one]
  intro x
  have hcount := List.nodup_iff_count_le_one.mp (hkind x.kind) x
  rwa [listOfKind, List.count_filter (by exact decide_eq_true rfl)] at hcount

theorem Inv.resolve_le_one (h : Inv job a flying log segmentsLeft keccaksLeft) : (ofKind .resolve flying).card ≤ 1 := by
  cases h.resolving with
  | waiting _ _ _ hwork =>
    rw [hwork, Multiset.card_zero]
    exact Nat.zero_le 1
  | resolving _ _ _ _ _ hwork => rw [hwork, Multiset.card_singleton]
  | finished _ _ _ hwork =>
    rw [hwork, Multiset.card_zero]
    exact Nat.zero_le 1

def UnknownReceipt.batches : UnknownReceipt → List ℕ
  | keccak index => [index]
  | union lhs rhs => lhs.batches ++ rhs.batches
  | given _ => []

theorem Job.keccakRoot_batches {root : UnknownReceipt} (h : job.keccakRoot = some root) : root.batches = List.range job.keccaks := by
  obtain hzero | hpos := Nat.eq_zero_or_pos job.keccaks
  · rw [Job.keccakRoot, hzero, mountainRoot, mountain_zero] at h
    cases h
  · have hmap : (mountainRoot UnknownReceipt.union UnknownReceipt.keccak job.keccaks).map UnknownReceipt.batches =
        mountainRoot (· ++ ·) (fun i => [i]) job.keccaks := mountainRoot_map (fun _ _ => rfl) job.keccaks
    have hroot : mountainRoot UnknownReceipt.union UnknownReceipt.keccak job.keccaks = some root := h
    rw [hroot, Option.map_some] at hmap
    exact Option.some.inj (hmap.trans (mountainRoot_append hpos))

theorem SystemInv.finished {s : System} (h : SystemInv job s) (hsegments : 0 < job.session.segments) (hidle : s.inFlight = 0) :
    s.actor.stops = 1 ∧ ∃ t, t.Spans ⟨0, job.session.segments⟩ ∧ (listOfKind .part s.submitted).Perm (t.makings job.devMode) ∧
      Logged job.devMode job.keccaks (rootTasks job.devMode job.keccaks) (listOfKind .keccak s.submitted : Multiset Task) ∧
      s.actor.keccakRoot = job.keccakRoot ∧ listOfKind .resolve s.submitted = job.resolveTasks t job.resolutions ∧
      ∃ receipt, s.actor.status = .succeeded job.session receipt ∧ job.session.journal = some receipt.journal ∧
        receipt.inner = if job.devMode then .fake (job.resolved t job.resolutions) else .succinct (job.resolved t job.resolutions) := by
  obtain ⟨hinv, hsettled, -⟩ := h
  rw [hidle] at hinv
  have hnone (kind : TaskKind) : ofKind kind 0 = 0 := rfl
  have hparts := hinv.parts
  have hkeccaks := hinv.keccaks
  rw [hnone] at hparts hkeccaks
  cases hinv.executing with
  | running _ _ hwork => exact absurd hwork.symm (Multiset.singleton_ne_zero _)
  | ended session layers hwork segments keccaks =>
    have hopen : s.actor.session ≠ none := by
      rw [session]
      exact Option.some_ne_none _
    have hcount := hinv.count
    rw [keccaks, Nat.add_zero] at hcount
    rw [segments] at hparts
    cases hkeccaks with
    | build phase _ _ building => exact absurd building.full_of_idle (hsettled.trees hopen phase)
    | mergePeaks _ _ _ hwork => exact absurd hwork.symm (Multiset.singleton_ne_zero _)
    | done phase root _ hlog =>
      rw [hcount] at hlog root
      obtain ⟨t, hroot⟩ := hparts.root_of_idle hinv.apart hsegments
      cases hinv.resolving with
      | waiting final =>
        rw [hsettled.root hopen phase final] at hroot
        cases hroot
      | resolving _ _ _ _ _ hwork => exact absurd hwork.symm (Multiset.singleton_ne_zero _)
      | @finished t' receipt joined final stops _ hlog' status journal inner =>
        obtain rfl : t' = t := Option.some.inj (joined.root.symm.trans hroot)
        obtain ⟨-, -, hspans, hcountLog⟩ := hparts.idle_of_root hroot
        refine ⟨stops, t', hspans, ?_, ?_, root, hlog', receipt, status, journal, inner⟩
        · rw [List.perm_iff_count]
          intro x
          rw [← hcountLog x, ofKind_coe, Multiset.coe_count]
        · rw [← ofKind_coe]
          exact hlog

end VerifiableCompute.ProofJob
