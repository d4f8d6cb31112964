import VerifiableCompute.ProofJob.Runs

/-! Proof jobs are completed in any order of completions. -/

namespace VerifiableCompute.ProofJob

open Lib Multiset

variable {devModeDisabled : Bool} {digest : UnknownReceipt → Digest} {job : Job}

theorem System.start_ok (job : Job) (sender : Option ReplySender) : ∃ s, System.start job sender = .ok s := ⟨_, rfl⟩

/-- The execution can report what is left, and any other task can end. -/
theorem System.enabled_of_inFlight {s : System} (h : s.inFlight ≠ 0) : ∃ event, s.Enabled event := by
  obtain ⟨task, htask⟩ := exists_mem_of_ne_zero h
  by_cases hexecute : ∃ devMode, task = .execute devMode
  · obtain ⟨devMode, rfl⟩ := hexecute
    by_cases hsegments : s.segmentsLeft = 0
    · obtain hzero | hpos := Nat.eq_zero_or_pos s.keccaksLeft
      · exact ⟨.done (.execute devMode), htask, fun _ => ⟨hsegments, hzero⟩⟩
      · exact ⟨.keccak, ⟨devMode, htask⟩, hpos⟩
    · obtain ⟨i, hi⟩ := exists_mem_of_ne_zero hsegments
      exact ⟨.segment i, ⟨devMode, htask⟩, hi⟩
  · exact ⟨.done task, htask, fun h => absurd h hexecute⟩

theorem Inv.stops_eq_zero {a : JobActor} {flying : Multiset Task} {log : List Task} {segmentsLeft : Multiset ℕ} {keccaksLeft : ℕ}
    (h : Inv job a flying log segmentsLeft keccaksLeft) (hflying : flying ≠ 0) : a.stops = 0 := by
  cases h.resolving with
  | waiting _ _ stops => exact stops
  | resolving _ _ _ _ stops => exact stops
  | finished joined _ _ hwork =>
    obtain ⟨task, htask⟩ := exists_mem_of_ne_zero hflying
    have hmem : task ∈ ofKind .resolve flying := mem_filter.mpr ⟨htask, h.only_resolve joined task htask⟩
    rw [hwork] at hmem
    exact absurd hmem (notMem_zero task)

/-- Handlers return no errors, no task is given away twice, and at the end the segments are joined in order, the
batches are united in a tree that their number determines, the assumptions are resolved in order, and the job is
finished once. -/
theorem jobs_complete (hp : job.Provable devModeDisabled digest) : (∀ sender, ∃ s, System.start job sender = .ok s) ∧
    ∀ s, System.Reachable devModeDisabled digest job s →
      (∀ event, s.Enabled event → ∃ s', s.step devModeDisabled digest job event = .ok s') ∧
      (s.inFlight ≠ 0 → (∃ event, s.Enabled event) ∧ s.actor.stops = 0) ∧
      s.submitted.Nodup ∧ (ofKind .resolve s.inFlight).card ≤ 1 ∧
      (s.inFlight = 0 → s.actor.stops = 1 ∧
        ∃ t : ClaimReceipt, t.Joined ∧ t.segments = List.range job.session.segments ∧
          (listOfKind .part s.submitted).Perm (t.makings job.devMode) ∧
          listOfKind .resolve s.submitted = job.resolveTasks t job.resolutions ∧
          (∀ x, x ∈ listOfKind .keccak s.submitted ↔ IsBuild job.devMode job.keccaks x ∨ x ∈ rootTasks job.devMode job.keccaks) ∧
          s.actor.keccakRoot = job.keccakRoot ∧
          (∀ root, job.keccakRoot = some root → root.batches = List.range job.keccaks) ∧
          ∃ receipt, s.actor.status = .succeeded job.session receipt ∧ job.session.journal = some receipt.journal ∧
            receipt.inner = if job.devMode then .fake (job.resolved t job.resolutions) else .succinct (job.resolved t job.resolutions)) := by
  refine ⟨System.start_ok job, fun s hrun => ?_⟩
  have hsystem := hrun.inv hp.allowed
  refine ⟨fun event henabled => ?_, fun hflying => ⟨System.enabled_of_inFlight hflying, hsystem.inv.stops_eq_zero hflying⟩,
    hsystem.inv.nodup, hsystem.inv.resolve_le_one, fun hidle => ?_⟩
  · obtain ⟨s', hstep, -⟩ | ⟨-, hno⟩ := hsystem.step digest hp.allowed henabled
    · exact ⟨s', hstep⟩
    · exact absurd hp hno
  · obtain ⟨hstops, t, hspans, hparts, hkeccaks, hroot, hresolve, hstatus⟩ := hsystem.finished hp.segments hidle
    refine ⟨hstops, t, hspans.joined, ?_, hparts, hresolve, fun x => ?_, hroot, fun root h => Job.keccakRoot_batches h, hstatus⟩
    · have hsegments := hspans.segments
      rw [Nat.sub_zero, ← List.range_eq_range'] at hsegments
      exact hsegments
    · exact hkeccaks.mem x

namespace System

instance (s : System) : ∀ event, Decidable (s.Enabled event)
  | .segment _ => inferInstanceAs (Decidable (_ ∧ _))
  | .keccak => inferInstanceAs (Decidable (_ ∧ _))
  | .done _ => inferInstanceAs (Decidable (_ ∧ _))

/-- The state after these events, if each of them can happen. -/
def follow (devModeDisabled : Bool) (digest : UnknownReceipt → Digest) (job : Job) : List Event → System → Option System
  | [], s => some s
  | event :: rest, s =>
    if s.Enabled event then (s.step devModeDisabled digest job event).toOption.bind (follow devModeDisabled digest job rest)
    else none

theorem Reachable.follow {events : List Event} {s s' : System} (hrun : Reachable devModeDisabled digest job s)
    (h : System.follow devModeDisabled digest job events s = some s') : Reachable devModeDisabled digest job s' := by
  induction events generalizing s with
  | nil => exact Option.some.inj h ▸ hrun
  | cons event rest ih =>
    rw [System.follow] at h
    split_ifs at h with henabled
    obtain ⟨r, hr, h⟩ := Option.bind_eq_some_iff.mp h
    cases hstep : s.step devModeDisabled digest job event with
    | error => simp [hstep, Except.toOption] at hr
    | ok => exact ih (hrun.step henabled (by simpa [hstep, Except.toOption] using hr)) h

end System

def sampleRoot : UnknownReceipt := .union (.union (.keccak 0) (.keccak 1)) (.keccak 2)

def sampleDigest (receipt : UnknownReceipt) : Digest := if receipt = sampleRoot then 9 else 0

/-- One assumption is proven, the other is the root of the batches. -/
def sampleJob : Job := ⟨false, ⟨3, some [1], [.proven (.succinct (.given 5)), .unresolved 9 0], 0⟩, 3⟩

def sampleJoined : ClaimReceipt := .join (.join (.lift 0) (.lift 1)) (.lift 2)

/-- Parts, batches and the session arrive in a mixed order. -/
def sampleEvents : List Event :=
  [.segment 1, .keccak, .done (.proveSegment 1 false), .keccak, .segment 0, .keccak, .done (.proveKeccak 2 false),
    .done (.lift 1 false), .done (.proveSegment 0 false), .segment 2, .done (.lift 0 false), .done (.execute false),
    .done (.proveKeccak 1 false), .done (.proveSegment 2 false), .done (.lift 2 false), .done (.proveKeccak 0 false),
    .done (.join ⟨0, 2⟩ (.lift 0) (.lift 1) false), .done (.union 1 0 (.keccak 0) (.keccak 1) false),
    .done (.union 0 0 (.union (.keccak 0) (.keccak 1)) (.keccak 2) false),
    .done (.join ⟨0, 3⟩ (.join (.lift 0) (.lift 1)) (.lift 2) false), .done (.resolve sampleJoined (.given 5) false),
    .done (.resolve (.resolve sampleJoined (.given 5)) sampleRoot false)]

/-- The run ends with everything joined, united and resolved. -/
theorem jobs_complete_sample :
    ∃ s, System.Reachable true sampleDigest sampleJob s ∧ s.submitted.Nodup ∧ s.actor.stops = 1 ∧
      (∃ t : ClaimReceipt, t.segments = [0, 1, 2] ∧ (listOfKind .part s.submitted).Perm (t.makings false) ∧
        listOfKind .resolve s.submitted = [.resolve t (.given 5) false, .resolve (.resolve t (.given 5)) sampleRoot false]) ∧
      s.actor.keccakRoot = some sampleRoot ∧ sampleRoot.batches = [0, 1, 2] := by
  have hroot : sampleJob.keccakRoot = some sampleRoot := by with_unfolding_all decide
  have hp : sampleJob.Provable true sampleDigest := by
    refine ⟨fun h => absurd h.1 Bool.false_ne_true, by decide, Option.some_ne_none _, fun assumption hmem => ?_⟩
    obtain rfl | hmem := List.mem_cons.mp hmem
    · exact .inl ⟨_, rfl⟩
    · rw [List.mem_singleton.mp hmem]
      exact .inr ⟨sampleRoot, 0, hroot, rfl⟩
  have hany : ((System.start sampleJob none).toOption.bind (System.follow true sampleDigest sampleJob sampleEvents)).any
      (fun s => s.inFlight = 0) = true := by
    with_unfolding_all (set_option maxRecDepth 100000 in decide)
  obtain ⟨s, hend, hidle⟩ := (Option.any_eq_true _ _).mp hany
  have hrun : System.Reachable true sampleDigest sampleJob s := by
    obtain ⟨s0', hstart'⟩ := System.start_ok sampleJob none
    exact System.Reachable.follow (.start hstart') (by simpa [hstart', Except.toOption] using hend)
  obtain ⟨-, hruns⟩ := jobs_complete hp
  obtain ⟨-, -, hnodup, -, hfinished⟩ := hruns s hrun
  obtain ⟨hstops, t, -, hsegments, hparts, hresolve, -, hkeccakRoot, hbatches, -⟩ := hfinished (of_decide_eq_true hidle)
  have hresolutions : sampleJob.resolutions = [.given 5, sampleRoot] := by
    rw [Job.resolutions, hroot]
    rfl
  rw [hresolutions] at hresolve
  exact ⟨s, hrun, hnodup, hstops, ⟨t, hsegments, hparts, hresolve⟩, hkeccakRoot.trans hroot, hbatches _ hroot⟩

def oneSegment (devMode : Bool) (journal : Option (List (BitVec 8))) (assumptions : List AssumptionReceipt) : Job :=
  ⟨devMode, ⟨1, journal, assumptions, 0⟩, 0⟩

def lifting (journal : Option (List (BitVec 8))) (assumptions : List AssumptionReceipt) : System where
  actor :=
    { JobActor.new with
      session := some (oneSegment false journal assumptions).session
      keccakPhase := .done
      requiredKeccakLayers := mmrLayers 0
      devMode := some false }
  inFlight := {.lift 0 false}
  submitted := [.execute false, .proveSegment 0 false, .lift 0 false]
  segmentsLeft := 0
  keccaksLeft := 0

theorem lifting_reachable (journal : Option (List (BitVec 8))) (assumptions : List AssumptionReceipt) :
    System.Reachable true (fun _ => 0) (oneSegment false journal assumptions) (lifting journal assumptions) := by
  have hstart : System.Reachable true (fun _ => 0) (oneSegment false journal assumptions) _ :=
    .start (show System.start _ none = .ok _ from rfl)
  have hsegment := hstart.step
    (show System.Enabled _ (.segment 0) from ⟨⟨false, mem_singleton_self _⟩, mem_singleton_self 0⟩) rfl
  have hexecute := hsegment.step (show System.Enabled _ (.done (.execute false)) from
    ⟨mem_cons_self _ {Task.proveSegment 0 false}, fun _ => ⟨rfl, rfl⟩⟩) rfl
  exact hexecute.step (show System.Enabled _ (.done (.proveSegment 0 false)) from ⟨mem_singleton_self _, fun ⟨_, h⟩ => by cases h⟩) rfl

/-- A job stops at a proven assumption whose receipt is not succinct, at a session without a journal, and in a dev mode
that is disabled. -/
theorem jobs_stop :
    (System.Reachable true (fun _ => 0) (oneSegment false (some []) [.proven (.composite 0)]) (lifting (some []) [.proven (.composite 0)]) ∧
      (lifting (some []) [.proven (.composite 0)]).Enabled (.done (.lift 0 false)) ∧
      (lifting (some []) [.proven (.composite 0)]).step true (fun _ => 0) (oneSegment false (some []) [.proven (.composite 0)])
        (.done (.lift 0 false)) = .error .notSuccinct) ∧
    (System.Reachable true (fun _ => 0) (oneSegment false none []) (lifting none []) ∧ (lifting none []).Enabled (.done (.lift 0 false)) ∧
      (lifting none []).step true (fun _ => 0) (oneSegment false none []) (.done (.lift 0 false)) = .error .missingJournal) ∧
    ∃ s, System.Reachable true (fun _ => 0) (oneSegment true (some []) []) s ∧ s.Enabled (.segment 0) ∧
      s.step true (fun _ => 0) (oneSegment true (some []) []) (.segment 0) = .error .devModeDisabled := by
  have henabled (journal : Option (List (BitVec 8))) (assumptions : List AssumptionReceipt) :
      (lifting journal assumptions).Enabled (.done (.lift 0 false)) := ⟨Multiset.mem_singleton_self _, fun ⟨_, h⟩ => by cases h⟩
  refine ⟨⟨lifting_reachable _ _, henabled _ _, rfl⟩, ⟨lifting_reachable _ _, henabled _ _, rfl⟩, ?_⟩
  have hstart : System.Reachable true (fun _ => 0) (oneSegment true (some []) []) _ := .start (show System.start _ none = .ok _ from rfl)
  exact ⟨_, hstart, ⟨⟨true, Multiset.mem_singleton_self _⟩, Multiset.mem_singleton_self 0⟩, rfl⟩

end VerifiableCompute.ProofJob
