import VerifiableCompute.Guest.Batcher

/-! The guest's environment, and the sessions of a run. A session ends when the guest pauses or
exits; a resumed guest finds its memory as it was, a resumed host keeps its receipts only. -/

namespace VerifiableCompute.Guest

open Lib Binfmt Claim KeccakClaim List Host KeccakBatcher

/-- The guest's statics. Two of them are cells that are set and taken. -/
structure GuestEnv where
  hasher : Option (List Byte)
  assumptionsDigest : MaybePruned Assumptions
  keccakBatcher : Option KeccakBatcher

def GuestEnv.loaded : GuestEnv := ⟨none, .pruned .zero, none⟩

/-- Before the program's main, and after each pause. -/
def GuestEnv.init (g : GuestEnv) : Except Abort GuestEnv := do
  require (g.hasher.isNone = true) .alreadySet
  require (g.keccakBatcher.isNone = true) .alreadySet
  return { g with hasher := some [], keccakBatcher := some .new }

structure Machine where
  guest : GuestEnv
  host : Host

def unwrap {α : Type} : Option α → Except Abort α
  | some a => .ok a
  | none => .error .unwrapNone

section

variable (S : Sha256) (mix : Cells → Cells)

def finalize (m : Machine) : Except Abort (Digest × Machine) := do
  let batcher ← unwrap m.guest.keccakBatcher
  let (assumptionsDigest, host) ← batcher.finalize S m.guest.assumptionsDigest m.host
  let hasher ← unwrap m.guest.hasher
  let output : Output := { journal := .pruned (S hasher), assumptions := .pruned (digest S assumptionsDigest) }
  return (digest S output, ⟨⟨none, assumptionsDigest, none⟩, host⟩)

/-- The calls of a guest between two ends of a session. -/
inductive GuestCall
  | verify (imageId : Digest) (journal : List Byte)
  | verifyIntegrity (claim : ReceiptClaim)
  | verifyAssumption (claim controlRoot : Digest)
  | commit (bytes : List Byte)
  | keccakUpdate (state : KeccakState)

def verifyAssumption (claim controlRoot : Digest) (m : Machine) : Except Abort Machine := do
  let host ← callHost (m.host.sysVerify claim controlRoot)
  let assumptionsDigest := MaybePruned.addAssumption S (.value ⟨claim, controlRoot⟩) m.guest.assumptionsDigest
  return ⟨{ m.guest with assumptionsDigest := assumptionsDigest }, host⟩

/-- The claim's output is there, and lists no assumptions. -/
def unconditional (claim : ReceiptClaim) : Bool :=
  match claim.output with
  | .value none => true
  | .value (some output) => Assumptions.isEmpty output.assumptions
  | .pruned _ => false

def runCall (call : GuestCall) (m : Machine) : Except Abort Machine :=
  match call with
  | .verify imageId journal =>
    let claimDigest := digest S (ReceiptClaim.ok imageId (.pruned (S journal)))
    verifyAssumption S claimDigest .zero m
  | .verifyIntegrity claim =>
    -- otherwise the caller gets an error and goes on
    if unconditional claim then verifyAssumption S (digest S claim) .zero m else .ok m
  | .verifyAssumption claim controlRoot => verifyAssumption S claim controlRoot m
  | .commit bytes => do
    let host ← callHost (m.host.sysWrite bytes)
    let hasher ← unwrap m.guest.hasher
    return ⟨{ m.guest with hasher := some (hasher ++ bytes) }, host⟩
  | .keccakUpdate state => do
    let batcher ← unwrap m.guest.keccakBatcher
    let (_, batcher, host) ← batcher.update S mix state m.host
    return ⟨{ m.guest with keccakBatcher := some batcher }, host⟩

/-- The digest that the guest ends a session with, and the output that the host builds for it. -/
structure SessionEnd where
  outputDigest : Digest
  output : MaybePruned (Option Output)

/-- The output of the last segment: the host's is merged into the guest's digest. -/
def SessionEnd.segmentOutput (e : SessionEnd) : Except MergeInequalityError (MaybePruned (Option Output)) :=
  let output : MaybePruned (Option Output) := .pruned e.outputDigest
  if output.isNone then .ok output else merge S output e.output

def runSession (calls : List GuestCall) (m : Machine) : Except Abort (SessionEnd × Machine) := do
  let guest ← m.guest.init
  let m ← calls.foldlM (fun m call => runCall S mix call m) { m with guest := guest }
  let (outputDigest, m) ← finalize S m
  return (⟨outputDigest, m.host.finalSegmentOutput outputDigest⟩, { m with host := m.host.finalizeSession })

/-- The sessions of a run. All but the last end in a pause. -/
def runSessions : List (List GuestCall) → Machine → Except Abort (List SessionEnd)
  | [], _ => .ok []
  | calls :: sessions, m => do
    let (sessionEnd, m) ← runSession S mix calls m
    let ends ← runSessions sessions m
    return sessionEnd :: ends

def Machine.start (maxPo2 : Option KeccakPo2) (assumptions : List AssumptionReceipt) : Machine :=
  ⟨.loaded, .withDetails maxPo2 assumptions⟩

/-- Guest and host agree on the output, and the host's merges into the segment. -/
def SessionEnd.Agrees (e : SessionEnd) : Prop :=
  digest S e.output = e.outputDigest ∧ (e.segmentOutput S).isOk = true

end

/-- Calls that add no assumption: those that only write, and verifications that are refused. -/
def GuestCall.AddsNothing : GuestCall → Prop
  | .commit _ => True
  | .verifyIntegrity claim => unconditional claim = false
  | _ => False

/-! The outputs that guest and host have at the end of a session. The guest's assumptions go on
from one session to the next, the host's start again with each. -/

variable {S : Sha256} {mix : Cells → Cells}

def listDigest (S : Sha256) (base : Digest) (used : List (Assumption × AssumptionReceipt)) : Digest :=
  used.foldr (fun u tail => taggedListCons S "risc0.Assumptions" (digest S u.1) tail) base

theorem listDigest_zero (used : List (Assumption × AssumptionReceipt)) :
    listDigest S .zero used = digest S (⟨used.map fun u => .value u.1⟩ : Assumptions) := by
  induction used with
  | nil => rfl
  | cons u used ih =>
    rw [listDigest, foldr_cons, ← listDigest, ih]
    rfl

/-- The guest's assumptions are those that the host has marked, on top of a digest. -/
def Marked (S : Sha256) (base : Digest) (assumptionsDigest : MaybePruned Assumptions) (h : Host) : Prop :=
  assumptionsDigest = .pruned (listDigest S base h.assumptionsUsed)

/-- The guest's side and the host's within a session. -/
structure Synced (S : Sha256) (base : Digest) (m : Machine) : Prop where
  hasher : m.guest.hasher = some m.host.journal
  marked : Marked S base m.guest.assumptionsDigest m.host

variable {claimDigest controlRoot base outputDigest : Digest} {h h' : Host} {assumptionsDigest : MaybePruned Assumptions}
  {b b' : KeccakBatcher} {m m' : Machine} {call : GuestCall} {calls : List GuestCall} {e : SessionEnd} {sessions : List (List GuestCall)}
  {ends : List SessionEnd}

theorem findAssumption_some {receipts : List AssumptionReceipt} {found : Assumption × AssumptionReceipt}
    (h : findAssumption claimDigest controlRoot receipts = .ok (some found)) : found.1 = ⟨claimDigest, controlRoot⟩ := by
  induction receipts with
  | nil => cases h
  | cons receipt receipts ih =>
    rw [findAssumption] at h
    obtain ⟨cached, -, h⟩ := bind_ok_iff.mp h
    split at h
    · exact ih h
    · split at h
      · obtain ⟨root, -, h⟩ := bind_ok_iff.mp h
        split at h
        · exact ih h
        · cases h
          rfl
      · cases h
        rfl

theorem callHost_ok {α : Type} {x : Except HostError α} {a : α} (h : callHost x = .ok a) : x = .ok a := by
  cases x with
  | ok _ =>
    cases h
    rfl
  | error _ => cases h

theorem sysVerify_ok (hverify : h.sysVerify claimDigest controlRoot = .ok h') :
    ∃ receipt, h' = { h with assumptionsUsed := (⟨claimDigest, controlRoot⟩, receipt) :: h.assumptionsUsed } := by
  rw [sysVerify] at hverify
  obtain ⟨found, hfound, hverify⟩ := bind_ok_iff.mp hverify
  cases found with
  | none => cases hverify
  | some found =>
    obtain ⟨assumption, receipt⟩ := found
    have hassumption : assumption = ⟨claimDigest, controlRoot⟩ := findAssumption_some hfound
    subst hassumption
    cases hverify
    exact ⟨receipt, rfl⟩

theorem Marked.add (hm : Marked S base assumptionsDigest h)
    (assumption : Assumption) (hused : ∃ receipt, h'.assumptionsUsed = (assumption, receipt) :: h.assumptionsUsed) :
    Marked S base (MaybePruned.addAssumption S (.value assumption) assumptionsDigest) h' := by
  obtain ⟨receipt, hused⟩ := hused
  rw [Marked, hm, hused]
  rfl

/-- What the batcher's calls leave of the host. -/
structure SameOutput (h h' : Host) : Prop where
  journal : h'.journal = h.journal
  used : h'.assumptionsUsed = h.assumptionsUsed
  maxPo2 : h'.maxPo2 = h.maxPo2

theorem flush_same (hflush : b.flush S h = .ok (b', h')) : SameOutput h h' := by
  rw [flush] at hflush
  split at hflush
  · cases hflush
    exact ⟨rfl, rfl, rfl⟩
  · obtain ⟨mmr, -, hflush⟩ := bind_ok_iff.mp hflush
    cases hflush
    exact ⟨rfl, rfl, rfl⟩

theorem update_same {state state' : KeccakState}
    (hupdate : b.update S mix state h = .ok (state', b', h')) : SameOutput h h' := by
  rw [update] at hupdate
  obtain ⟨⟨h1, permuted, full⟩, hpermute, hupdate⟩ := bind_ok_iff.mp hupdate
  have hpermuted : SameOutput h h1 := by
    have hok := callHost_ok hpermute
    rw [keccakPermute] at hok
    split at hok
    · cases hok
    · simp only [Except.ok.injEq, Prod.mk.injEq] at hok
      obtain ⟨rfl, -, -⟩ := hok
      exact ⟨rfl, rfl, rfl⟩
  cases full with
  | true =>
    obtain ⟨⟨b2, h2⟩, hflush, hupdate⟩ := bind_ok_iff.mp hupdate
    have hflushed := flush_same hflush
    cases hupdate
    exact ⟨hflushed.journal.trans hpermuted.journal, hflushed.used.trans hpermuted.used, hflushed.maxPo2.trans hpermuted.maxPo2⟩
  | false =>
    cases hupdate
    exact hpermuted

theorem verifyAssumption_synced (hm : Synced S base m) {claim : Digest}
    (hverify : verifyAssumption S claim controlRoot m = .ok m') : Synced S base m' := by
  rw [verifyAssumption] at hverify
  obtain ⟨host, hhost, hverify⟩ := bind_ok_iff.mp hverify
  obtain ⟨receipt, rfl⟩ := sysVerify_ok (callHost_ok hhost)
  cases hverify
  exact ⟨hm.hasher, hm.marked.add ⟨claim, controlRoot⟩ ⟨receipt, rfl⟩⟩

theorem runCall_synced (hm : Synced S base m) (hcall : runCall S mix call m = .ok m') : Synced S base m' := by
  cases call with
  | verify imageId journal => exact verifyAssumption_synced hm hcall
  | verifyIntegrity claim =>
    rw [runCall] at hcall
    split at hcall
    · exact verifyAssumption_synced hm hcall
    · cases hcall
      exact hm
  | verifyAssumption claim controlRoot => exact verifyAssumption_synced hm hcall
  | commit bytes =>
    obtain ⟨host, hhost, hcall⟩ := bind_ok_iff.mp hcall
    have hwrite := callHost_ok hhost
    rw [sysWrite] at hwrite
    split at hwrite
    · cases hwrite
    · cases hwrite
      rw [hm.hasher] at hcall
      cases hcall
      exact ⟨rfl, hm.marked⟩
  | keccakUpdate state =>
    obtain ⟨batcher, -, hcall⟩ := bind_ok_iff.mp hcall
    obtain ⟨⟨state', batcher', host⟩, hupdate, hcall⟩ := bind_ok_iff.mp hcall
    have hsame := update_same hupdate
    cases hcall
    refine ⟨?_, ?_⟩
    · show m.guest.hasher = some host.journal
      rw [hsame.journal, hm.hasher]
    · show Marked S base m.guest.assumptionsDigest host
      rw [Marked, hsame.used]
      exact hm.marked

theorem runCalls_synced (hm : Synced S base m)
    (hcalls : calls.foldlM (fun m call => runCall S mix call m) m = .ok m') : Synced S base m' := by
  induction calls generalizing m with
  | nil =>
    cases hcalls
    exact hm
  | cons call calls ih =>
    rw [foldlM_cons] at hcalls
    obtain ⟨m1, hcall, hcalls⟩ := bind_ok_iff.mp hcalls
    exact ih (runCall_synced hm hcall) hcalls

theorem addRoot_marked (hm : Marked S base assumptionsDigest h)
    (b : KeccakBatcher) : Marked S base (b.addRoot S assumptionsDigest h).1 (b.addRoot S assumptionsDigest h).2 := by
  rw [addRoot]
  cases b.mmr.root (GuestPeak.mergeItem S) with
  | ok root => exact hm.add _ ⟨_, rfl⟩
  | error _ => exact hm

theorem addRoot_journal (b : KeccakBatcher) (assumptionsDigest : MaybePruned Assumptions) (h : Host) :
    (b.addRoot S assumptionsDigest h).2.journal = h.journal := by
  rw [addRoot]
  cases b.mmr.root (GuestPeak.mergeItem S) <;> rfl

theorem finalize_synced (hm : Synced S base m) (hfinalize : finalize S m = .ok (outputDigest, m')) :
    outputDigest = taggedStruct S "risc0.Output" [S m'.host.journal, listDigest S base m'.host.assumptionsUsed] [] ∧
      m'.guest = ⟨none, .pruned (listDigest S base m'.host.assumptionsUsed), none⟩ := by
  rw [finalize] at hfinalize
  obtain ⟨batcher, -, hfinalize⟩ := bind_ok_iff.mp hfinalize
  obtain ⟨⟨assumptionsDigest, host⟩, hbatcher, hfinalize⟩ := bind_ok_iff.mp hfinalize
  obtain ⟨hasher, hhasher, hfinalize⟩ := bind_ok_iff.mp hfinalize
  rw [KeccakBatcher.finalize] at hbatcher
  obtain ⟨⟨b1, h1⟩, hflush, hroot⟩ := bind_ok_iff.mp hbatcher
  have hsame := flush_same hflush
  have hmarked : Marked S base m.guest.assumptionsDigest h1 := by
    rw [Marked, hsame.used]
    exact hm.marked
  have hpair : b1.addRoot S m.guest.assumptionsDigest h1 = (assumptionsDigest, host) := Except.ok.inj hroot
  have hadded := addRoot_marked hmarked b1
  have hjournal := addRoot_journal (S := S) b1 m.guest.assumptionsDigest h1
  rw [hpair] at hadded hjournal
  have hbytes : hasher = host.journal := by
    rw [hm.hasher] at hhasher
    rw [hjournal, hsame.journal]
    exact (Except.ok.inj hhasher).symm
  have hdigest : assumptionsDigest = .pruned (listDigest S base host.assumptionsUsed) := hadded
  simp only [pure, Except.pure, Except.ok.injEq, Prod.mk.injEq] at hfinalize
  obtain ⟨rfl, rfl⟩ := hfinalize
  rw [hdigest, hbytes]
  exact ⟨rfl, rfl⟩

/-- Nothing is marked, and no permutation waits for its proof. -/
structure Quiet (m : Machine) : Prop where
  used : m.host.assumptionsUsed = []
  batcher : m.guest.keccakBatcher = some .new

theorem runCall_quiet (hm : Quiet m) (hnothing : call.AddsNothing)
    (hcall : runCall S mix call m = .ok m') : Quiet m' := by
  cases call with
  | verify imageId journal => cases hnothing
  | verifyIntegrity claim =>
    have hfalse : unconditional claim = false := hnothing
    rw [runCall, hfalse, if_neg (by decide)] at hcall
    cases hcall
    exact hm
  | verifyAssumption claim controlRoot => cases hnothing
  | commit bytes =>
    obtain ⟨host, hhost, hcall⟩ := bind_ok_iff.mp hcall
    obtain ⟨hasher, -, hcall⟩ := bind_ok_iff.mp hcall
    have hwrite := callHost_ok hhost
    rw [sysWrite] at hwrite
    split at hwrite
    · cases hwrite
    · cases hwrite
      cases hcall
      exact ⟨hm.used, hm.batcher⟩
  | keccakUpdate state => cases hnothing

theorem runCalls_quiet (hm : Quiet m) (hnothing : ∀ call ∈ calls, call.AddsNothing)
    (hcalls : calls.foldlM (fun m call => runCall S mix call m) m = .ok m') : Quiet m' := by
  induction calls generalizing m with
  | nil =>
    cases hcalls
    exact hm
  | cons call calls ih =>
    rw [foldlM_cons] at hcalls
    obtain ⟨m1, hcall, hcalls⟩ := bind_ok_iff.mp hcalls
    exact ih (runCall_quiet hm (hnothing call mem_cons_self) hcall) (fun c hc => hnothing c (mem_cons_of_mem _ hc)) hcalls

theorem finalize_quiet (hm : Quiet m) (hfinalize : finalize S m = .ok (outputDigest, m')) :
    m'.host.assumptionsUsed = [] := by
  have hnew : new.finalize S m.guest.assumptionsDigest m.host = .ok (m.guest.assumptionsDigest, m.host) := rfl
  rw [finalize, hm.batcher] at hfinalize
  obtain ⟨batcher, hbatcher, hfinalize⟩ := bind_ok_iff.mp hfinalize
  cases hbatcher
  rw [hnew] at hfinalize
  obtain ⟨⟨assumptionsDigest, host⟩, hpair, hfinalize⟩ := bind_ok_iff.mp hfinalize
  cases hpair
  obtain ⟨hasher, -, hfinalize⟩ := bind_ok_iff.mp hfinalize
  simp only [pure, Except.pure, Except.ok.injEq, Prod.mk.injEq] at hfinalize
  obtain ⟨-, rfl⟩ := hfinalize
  exact hm.used

/-- A machine between two sessions. -/
structure Resting (base : Digest) (m : Machine) : Prop where
  marked : m.guest.assumptionsDigest = .pruned base
  journal : m.host.journal = []
  used : m.host.assumptionsUsed = []

theorem Resting.synced (hm : Resting base m) {guest : GuestEnv} (hinit : m.guest.init = .ok guest) :
    Synced S base { m with guest := guest } ∧ guest.keccakBatcher = some .new := by
  rw [GuestEnv.init] at hinit
  obtain ⟨-, -, hinit⟩ := bind_ok_iff.mp hinit
  obtain ⟨-, -, hinit⟩ := bind_ok_iff.mp hinit
  cases hinit
  refine ⟨⟨?_, ?_⟩, rfl⟩
  · rw [hm.journal]
  · show Marked S base m.guest.assumptionsDigest m.host
    rw [Marked, hm.used]
    exact hm.marked

/-- The end of a session, by what the host has then. -/
structure EndsWith (S : Sha256) (base : Digest) (e : SessionEnd) (h : Host) : Prop where
  digest : e.outputDigest = taggedStruct S "risc0.Output" [S h.journal, listDigest S base h.assumptionsUsed] []
  output : e.output = h.finalSegmentOutput e.outputDigest

theorem runSession_ok (hrun : runSession S mix calls m = .ok (e, m')) : ∃ guest m1 m2, m.guest.init = .ok guest ∧
      calls.foldlM (fun m call => runCall S mix call m) { m with guest := guest } = .ok m1 ∧
      finalize S m1 = .ok (e.outputDigest, m2) ∧ e.output = m2.host.finalSegmentOutput e.outputDigest ∧
      m' = { m2 with host := m2.host.finalizeSession } := by
  rw [runSession] at hrun
  obtain ⟨guest, hinit, hrun⟩ := bind_ok_iff.mp hrun
  obtain ⟨m1, hcalls, hrun⟩ := bind_ok_iff.mp hrun
  obtain ⟨⟨outputDigest, m2⟩, hfinalize, hrun⟩ := bind_ok_iff.mp hrun
  simp only [pure, Except.pure, Except.ok.injEq, Prod.mk.injEq] at hrun
  obtain ⟨rfl, rfl⟩ := hrun
  exact ⟨guest, m1, m2, hinit, hcalls, hfinalize, rfl, rfl⟩

theorem runSession_ends (hm : Resting base m) (hrun : runSession S mix calls m = .ok (e, m')) :
    ∃ h, EndsWith S base e h ∧ Resting (listDigest S base h.assumptionsUsed) m' ∧
      ((∀ call ∈ calls, call.AddsNothing) → h.assumptionsUsed = []) := by
  obtain ⟨guest, m1, m2, hinit, hcalls, hfinalize, houtput, rfl⟩ := runSession_ok hrun
  obtain ⟨hsynced, hbatcher⟩ := hm.synced (S := S) hinit
  obtain ⟨hdigest, hguest⟩ := finalize_synced (runCalls_synced hsynced hcalls) hfinalize
  refine ⟨m2.host, ⟨hdigest, houtput⟩, ⟨?_, rfl, rfl⟩, fun hnothing => ?_⟩
  · rw [hguest]
  · exact finalize_quiet (runCalls_quiet (m := { m with guest := guest }) ⟨hm.used, hbatcher⟩ hnothing hcalls) hfinalize

theorem merge_pruned_value {T : Type} [Merge T] {d : Digest} {v : T} (h : Claim.digest S v = d) :
    merge S (MaybePruned.pruned d) (.value v) = .ok (.value v) := by
  have heq : Claim.digest S (MaybePruned.pruned d : MaybePruned T) = Claim.digest S (MaybePruned.value v) := h.symm
  show (do
    (if Claim.digest S (MaybePruned.pruned d : MaybePruned T) ≠ Claim.digest S (MaybePruned.value v) then
      Except.error (inequality S (MaybePruned.pruned d : MaybePruned T) (.value v)) else .ok ())
    return MaybePruned.value v) = _
  rw [if_neg (not_not.mpr heq)]
  rfl

/-- Without assumptions of an earlier session both have the same output. -/
theorem EndsWith.agrees (hend : EndsWith S .zero e h) : e.Agrees S := by
  have hdigest : Claim.digest S e.output = e.outputDigest := by
    rw [hend.output, finalSegmentOutput]
    split
    · rename_i hzero
      exact hzero.symm
    · rw [hend.digest, listDigest_zero]
      rfl
  refine ⟨hdigest, ?_⟩
  rw [SessionEnd.segmentOutput]
  split
  · rfl
  · rename_i hsome
    have hvalue : ∃ v, e.output = .value v := by
      rw [hend.output, finalSegmentOutput]
      split
      · exact ⟨none, rfl⟩
      · exact ⟨some _, rfl⟩
    obtain ⟨v, hv⟩ := hvalue
    rw [hv] at hdigest ⊢
    rw [merge_pruned_value (show Claim.digest S v = e.outputDigest from hdigest)]
    rfl

theorem runSessions_agree (hm : Resting .zero m)
    (hrun : runSessions S mix sessions m = .ok ends) (hnothing : ∀ calls ∈ sessions.dropLast, ∀ call ∈ calls, call.AddsNothing) :
    ∀ e ∈ ends, e.Agrees S := by
  induction sessions generalizing m ends with
  | nil =>
    cases hrun
    exact fun e he => absurd he not_mem_nil
  | cons calls sessions ih =>
    rw [runSessions] at hrun
    obtain ⟨⟨e, m'⟩, hsession, hrun⟩ := bind_ok_iff.mp hrun
    obtain ⟨later, hlater, hrun⟩ := bind_ok_iff.mp hrun
    cases hrun
    obtain ⟨h, hend, hresting, hquiet⟩ := runSession_ends hm hsession
    have hrest : ∀ e ∈ later, e.Agrees S := by
      cases sessions with
      | nil =>
        cases hlater
        exact fun e he => absurd he not_mem_nil
      | cons next sessions =>
        rw [dropLast_cons_cons] at hnothing
        rw [hquiet (hnothing calls mem_cons_self)] at hresting
        exact ih hresting hlater fun c hc => hnothing c (mem_cons_of_mem _ hc)
    intro e' he'
    rcases mem_cons.mp he' with rfl | hlate
    · exact hend.agrees
    · exact hrest e' hlate

/-- A hash that keeps its inputs apart where a run needs it. -/
def mixingHash : Sha256 := fun bytes =>
  let value := bytes.foldl (fun acc b => (acc * 257 + b.toNat + 1) % (2 ^ 256 - 189)) 1
  .ofFn fun i => BitVec.ofNat 8 (value >>> (8 * i.val))

/-- In a run whose paused sessions add no assumption, guest and host agree on the output at the
end of every session. -/
theorem outputs_agree (S : Sha256) (mix : Cells → Cells) (maxPo2 : Option KeccakPo2) (assumptions : List AssumptionReceipt)
    (sessions : List (List GuestCall)) (ends : List SessionEnd)
    (hnothing : ∀ calls ∈ sessions.dropLast, ∀ call ∈ calls, call.AddsNothing)
    (hrun : runSessions S mix sessions (.start maxPo2 assumptions) = .ok ends) : ∀ e ∈ ends, e.Agrees S :=
  runSessions_agree ⟨rfl, rfl, rfl⟩ hrun hnothing

theorem findAssumption_self (claimDigest : Digest) :
    findAssumption claimDigest .zero [.proven (some claimDigest) none] = .ok (some (⟨claimDigest, .zero⟩, .proven (some claimDigest) none)) := by
  have h : findAssumption claimDigest .zero [.proven (some claimDigest) none] =
      if claimDigest ≠ claimDigest then .ok none
      else if (Digest.zero : Digest) ≠ .zero then .ok none
      else .ok (some (⟨claimDigest, .zero⟩, .proven (some claimDigest) none)) := rfl
  rw [h, if_neg (not_not.mpr rfl), if_neg (not_not.mpr rfl)]

/-- The receipt that the host was given is found in the session after a pause. -/
theorem runSessions_commit_verify (S : Sha256) (image : Digest) (journal : List Byte) :
    ∃ ends, runSessions S id [[.commit [1, 2]], [.verify image journal, .commit [3]]]
        (.start none [.proven (some (digest S (ReceiptClaim.ok image (.pruned (S journal))))) none]) = .ok ends ∧ ends.length = 2 := by
  generalize hreceipt : AssumptionReceipt.proven (some (digest S (ReceiptClaim.ok image (.pruned (S journal))))) none = receipt
  let assumption : Assumption := ⟨digest S (ReceiptClaim.ok image (.pruned (S journal))), .zero⟩
  let verified (guest : GuestEnv) : GuestEnv :=
    { guest with assumptionsDigest := MaybePruned.addAssumption S (.value assumption) guest.assumptionsDigest }
  have hverify : ∀ guest, runCall S id (.verify image journal) ⟨guest, .withDetails none [receipt]⟩ =
      .ok ⟨verified guest, { withDetails none [receipt] with assumptionsUsed := [(assumption, receipt)] }⟩ := by
    intro guest
    subst hreceipt
    have hfind := findAssumption_self (digest S (ReceiptClaim.ok image (.pruned (S journal))))
    rw [runCall, verifyAssumption, sysVerify, withDetails, hfind]
    rfl
  have hsecond : ∃ e m, runSession S id [.verify image journal, .commit [3]] ⟨.loaded, .withDetails none [receipt]⟩ = .ok (e, m) := by
    refine ⟨_, _, bind_ok_iff.mpr ⟨_, rfl, bind_ok_iff.mpr ⟨_, bind_ok_iff.mpr ⟨_, hverify _, rfl⟩, rfl⟩⟩⟩
  obtain ⟨e, m, hsecond⟩ := hsecond
  exact ⟨_, bind_ok_iff.mpr ⟨_, rfl, bind_ok_iff.mpr ⟨_, bind_ok_iff.mpr ⟨_, hsecond, rfl⟩, rfl⟩⟩, rfl⟩

/-- A session that only commits to the journal, a pause, and a session that verifies a receipt. -/
theorem outputs_agree_two :
    let image : Digest := .replicate 32 5
    let claimDigest := digest mixingHash (ReceiptClaim.ok image (.pruned (mixingHash [1])))
    ∃ ends, runSessions mixingHash id [[.commit [1, 2]], [.verify image [1], .commit [3]]]
        (.start none [.proven (some claimDigest) none]) = .ok ends ∧
      ends.length = 2 ∧ ∀ e ∈ ends, e.Agrees mixingHash := by
  intro image claimDigest
  obtain ⟨ends, hrun, hlength⟩ := runSessions_commit_verify mixingHash image [1]
  have hnothing : ∀ calls ∈ [[GuestCall.commit [1, 2]]], ∀ call ∈ calls, call.AddsNothing := by
    intro calls hcalls call hcall
    rw [List.mem_singleton.mp hcalls] at hcall
    rw [List.mem_singleton.mp hcall]
    trivial
  exact ⟨ends, hrun, hlength, outputs_agree mixingHash id none [.proven (some claimDigest) none]
    [[.commit [1, 2]], [.verify image [1], .commit [3]]] ends hnothing hrun⟩

/-- What one session verifies, the guest counts in the next and the host does not. -/
theorem assumptions_carried_over :
    ¬ ∀ (S : Sha256) (mix : Cells → Cells) (maxPo2 : Option KeccakPo2) (assumptions : List AssumptionReceipt)
      (sessions : List (List GuestCall)) (ends : List SessionEnd),
      runSessions S mix sessions (.start maxPo2 assumptions) = .ok ends → ∀ e ∈ ends, e.Agrees S := by
  intro h
  let S : Sha256 := fun bytes => .replicate 32 (bytes.getD 32 1 + bytes.getD 64 1)
  let image : Digest := .replicate 32 5
  let claimDigest := digest S (ReceiptClaim.ok image (.pruned (S [1])))
  let run := runSessions S id [[.verify image [1]], [.commit [1, 2]]] (.start none [.proven (some claimDigest) none])
  have hdiffer : (run.toOption.map fun ends => ends.all fun e => decide (digest S e.output = e.outputDigest)) = some false := by
    decide
  cases hrun : run with
  | error _ =>
    rw [hrun] at hdiffer
    cases hdiffer
  | ok ends =>
    rw [hrun] at hdiffer
    have hall : (ends.all fun e => decide (digest S e.output = e.outputDigest)) = true :=
      List.all_eq_true.mpr fun e he => decide_eq_true (h S id none _ _ ends hrun e he).1
    exact Bool.false_ne_true ((Option.some.inj hdiffer).symm.trans hall)

end VerifiableCompute.Guest
