import VerifiableCompute.Claim.Recursion

/-! Receipts of many segments and of the assumptions that they made. What verification
accepts is what recursive proofs make of the same claims. -/

namespace VerifiableCompute.Claim

open Lib Binfmt List

/-- The sixteen bytes that name a proof system or a circuit. -/
abbrev ProtocolInfo := List Byte

def PROOF_SYSTEM_INFO : ProtocolInfo := asciiBytes "RISC0_STARK:v1__"

def CIRCUIT_INFO : ProtocolInfo := asciiBytes "RECURSION:rev1v1"

structure SegmentReceiptVerifierParameters where
  controlIds : List Digest
  proofSystemInfo : ProtocolInfo
  circuitInfo : ProtocolInfo

structure SuccinctReceiptVerifierParameters where
  controlRoot : Digest
  innerControlRoot : Option Digest
  proofSystemInfo : ProtocolInfo
  circuitInfo : ProtocolInfo

variable {HashSuite Groth16Params Proof : Type}

/-- What verification takes besides the receipt. -/
structure VerifierContext (HashSuite Groth16Params : Type) where
  suites : String → Option HashSuite
  segmentVerifierParameters : Option SegmentReceiptVerifierParameters
  succinctVerifierParameters : Option SuccinctReceiptVerifierParameters
  groth16VerifierParameters : Option Groth16Params
  devMode : Bool

namespace VerifierContext

def empty : VerifierContext HashSuite Groth16Params := ⟨fun _ => none, none, none, none, false⟩

variable (ctx : VerifierContext HashSuite Groth16Params)

def withDevMode (devMode : Bool) : VerifierContext HashSuite Groth16Params :=
  { ctx with devMode }

def withSuites (suites : String → Option HashSuite) : VerifierContext HashSuite Groth16Params := { ctx with suites }

def withSuccinctVerifierParameters (params : SuccinctReceiptVerifierParameters) :
    VerifierContext HashSuite Groth16Params := { ctx with succinctVerifierParameters := some params }

end VerifierContext

inductive VerificationError
  | receiptFormatError
  | controlVerificationError (controlId : Digest)
  | imageVerificationError
  | merkleQueryOutOfRange (idx rows : ℕ)
  | invalidProof
  | journalDigestMismatch
  | claimDigestMismatch (expected received : Digest)
  | unexpectedExitCode
  | invalidHashSuite
  | verifierParametersMissing
  | verifierParametersMismatch (expected received : Digest)
  | proofSystemInfoMismatch (expected received : ProtocolInfo)
  | circuitInfoMismatch (expected received : ProtocolInfo)
  | unresolvedAssumption (digest : Digest)
  deriving DecidableEq

/-- What proves a claim is its seal with the names and digests of what it was made with. -/
structure SegmentReceipt (Proof : Type) where
  proof : Proof
  claim : ReceiptClaim

inductive InnerAssumptionReceipt (Proof : Type)
  | groth16 (proof : Proof) (claim : MaybePruned Unknown)
  | succinct (proof : Proof) (claim : MaybePruned Unknown)
  | fake (claim : MaybePruned Unknown)

def InnerAssumptionReceipt.claim : InnerAssumptionReceipt Proof → MaybePruned Unknown
  | .groth16 _ claim => claim
  | .succinct _ claim => claim
  | .fake claim => claim

def InnerAssumptionReceipt.claimDigest (S : Sha256) (receipt : InnerAssumptionReceipt Proof) : Except VerificationError Digest :=
  .ok (digest S receipt.claim)

structure ReceiptVerifier (HashSuite Groth16Params Proof : Type) where
  segment : VerifierContext HashSuite Groth16Params → SegmentReceipt Proof → Except VerificationError Unit
  assumption : VerifierContext HashSuite Groth16Params → InnerAssumptionReceipt Proof → Except VerificationError Unit

structure CompositeReceipt (Proof : Type) where
  segments : List (SegmentReceipt Proof)
  assumptionReceipts : List (InnerAssumptionReceipt Proof)
  verifierParameters : Digest

namespace CompositeReceipt

variable (S : Sha256) (V : ReceiptVerifier HashSuite Groth16Params Proof) (ctx : VerifierContext HashSuite Groth16Params)

/-- The state that the segment before a segment ended in is the one it starts from. -/
def checkPre (expected : Option Digest) (claim : ReceiptClaim) : Except VerificationError Unit :=
  match expected with
  | some id => require (id = digest S claim.pre) .imageVerificationError
  | none => .ok ()

/-- A segment that is not the last, and the state in which the next one starts. -/
def verifySegment (expected : Option Digest) (receipt : SegmentReceipt Proof) : Except VerificationError (Option Digest) := do
  V.segment ctx receipt
  checkPre S expected receipt.claim
  require (receipt.claim.exitCode = .systemSplit) .unexpectedExitCode
  require (receipt.claim.output.isNone) .receiptFormatError
  let post ← context (fun _ => .receiptFormatError) receipt.claim.post.asValue
  return some (digest S post)

def assumptionContext (controlRoot : Digest) : VerifierContext HashSuite Groth16Params :=
  if controlRoot = .zero then ctx
  else ((VerifierContext.empty.withDevMode ctx.devMode).withSuites ctx.suites).withSuccinctVerifierParameters
    { controlRoot, innerControlRoot := none, proofSystemInfo := PROOF_SYSTEM_INFO, circuitInfo := CIRCUIT_INFO }

def verifyAssumption (assumption : Assumption) (receipt : InnerAssumptionReceipt Proof) : Except VerificationError Unit := do
  V.assumption (assumptionContext ctx assumption.controlRoot) receipt
  let claimDigest ← receipt.claimDigest S
  require (claimDigest = assumption.claim) (.claimDigestMismatch assumption.claim claimDigest)

/-- The assumptions in the output of a claim; of an output with none of them, none. -/
def assumptionsOf (claim : ReceiptClaim) : Except VerificationError (List Assumption) := do
  match ← context (fun _ => .receiptFormatError) claim.output.asValue with
  | none => return []
  | some output =>
    if Assumptions.isEmpty output.assumptions then return []
    else
      let assumptions ← context (fun _ => .receiptFormatError) output.assumptions.asValue
      assumptions.list.mapM fun a => context (fun _ => .receiptFormatError) a.asValue

def assumptions (receipt : CompositeReceipt Proof) : Except VerificationError (List Assumption) := do
  match receipt.segments.getLast? with
  | none => throw .receiptFormatError
  | some last => assumptionsOf last.claim

def verifyIntegrityWithContext (receipt : CompositeReceipt Proof) : Except VerificationError Unit := do
  match receipt.segments.getLast? with
  | none => throw .receiptFormatError
  | some finalReceipt =>
    let expected ← receipt.segments.dropLast.foldlM (verifySegment S V ctx) none
    V.segment ctx finalReceipt
    checkPre S expected finalReceipt.claim
    let assumptions ← receipt.assumptions
    require (assumptions.length = receipt.assumptionReceipts.length) .receiptFormatError
    (assumptions.zip receipt.assumptionReceipts).forM fun pair => verifyAssumption S V ctx pair.1 pair.2

/-- The claim without the assumptions, whose receipts come with it. -/
def claim (receipt : CompositeReceipt Proof) : Except VerificationError ReceiptClaim := do
  match receipt.segments.head?, receipt.segments.getLast? with
  | some first, some last =>
    let output ← context (fun _ => VerificationError.receiptFormatError) last.claim.output.asValue
    return {
      pre := first.claim.pre
      post := last.claim.post
      exitCode := last.claim.exitCode
      input := first.claim.input
      output := .value (output.map fun output => { journal := output.journal, assumptions := .value ⟨[]⟩ }) }
  | _, _ => throw .receiptFormatError

end CompositeReceipt

/-! A receipt that verifies has the claim that recursion gives: its segments join, its
assumptions resolve, and nothing is left open. -/

variable {HashSuite Groth16Params Proof : Type} {S : Sha256} {V : ReceiptVerifier HashSuite Groth16Params Proof}
  {ctx : VerifierContext HashSuite Groth16Params}

theorem context_ok_iff {Error Error' T : Type} {wrap : Error → Error'} {x : Except Error T} {v : T} :
    context wrap x = .ok v ↔ x = .ok v := by
  cases x <;> simp [context]

theorem MaybePruned.asValue_ok_iff {T : Type} {x : MaybePruned T} {v : T} : x.asValue = .ok v ↔ x = .value v := by
  cases x <;> simp [asValue]

/-- A segment that runs on in the next one. -/
structure Continues (S : Sha256) (claim next : ReceiptClaim) : Prop where
  exitCode : claim.exitCode = .systemSplit
  output : claim.output.isNone
  state : digest S claim.post = digest S next.pre

namespace CompositeReceipt

variable {expected : Option Digest} {claim : ReceiptClaim} {assumptions : List Assumption} {receipts : List (InnerAssumptionReceipt Proof)}

theorem checkPre_ok (h : checkPre S expected claim = .ok ()) : ∀ id, expected = some id → id = digest S claim.pre := by
  rintro id rfl
  exact require_ok_iff.mp h

theorem verifySegment_ok {result : Option Digest} {receipt : SegmentReceipt Proof}
    (h : verifySegment S V ctx expected receipt = .ok result) : V.segment ctx receipt = .ok () ∧
      checkPre S expected receipt.claim = .ok () ∧ receipt.claim.exitCode = .systemSplit ∧ receipt.claim.output.isNone ∧
      result = some (digest S receipt.claim.post) := by
  obtain ⟨_, hverified, h1⟩ := bind_ok_iff.mp h
  obtain ⟨_, hpre, h2⟩ := bind_ok_iff.mp h1
  obtain ⟨_, hexit, h3⟩ := bind_ok_iff.mp h2
  obtain ⟨_, houtput, h4⟩ := bind_ok_iff.mp h3
  obtain ⟨post, hpost, h5⟩ := bind_ok_iff.mp h4
  rw [context_ok_iff, MaybePruned.asValue_ok_iff] at hpost
  refine ⟨hverified, hpre, require_ok_iff.mp hexit, require_ok_iff.mp houtput, ?_⟩
  rw [hpost]
  exact (Except.ok.inj h5).symm

theorem segments_ok {segments : List (SegmentReceipt Proof)} {finalReceipt : SegmentReceipt Proof} {expected' : Option Digest}
    (h : segments.foldlM (verifySegment S V ctx) expected = .ok expected')
    (hfinal : checkPre S expected' finalReceipt.claim = .ok ()) :
    (∀ receipt ∈ segments, V.segment ctx receipt = .ok ()) ∧
      List.IsChain (Continues S) ((segments ++ [finalReceipt]).map (·.claim)) ∧
      ∀ first ∈ (segments ++ [finalReceipt]).head?, checkPre S expected first.claim = .ok () := by
  induction segments generalizing expected with
  | nil =>
    cases h
    refine ⟨fun _ hmem => absurd hmem not_mem_nil, isChain_singleton _, ?_⟩
    rintro first ⟨⟩
    exact hfinal
  | cons receipt segments ih =>
    rw [foldlM_cons] at h
    obtain ⟨result, hsegment, hrest⟩ := bind_ok_iff.mp h
    obtain ⟨hverified, hpre, hexit, houtput, rfl⟩ := verifySegment_ok hsegment
    obtain ⟨hall, hchain, hhead⟩ := ih hrest
    refine ⟨forall_mem_cons.mpr ⟨hverified, hall⟩, ?_, ?_⟩
    · rw [cons_append, map_cons, isChain_cons]
      refine ⟨fun next hnext => ⟨hexit, houtput, ?_⟩, hchain⟩
      rw [head?_map, Option.mem_def, Option.map_eq_some_iff] at hnext
      obtain ⟨first, hfirst, rfl⟩ := hnext
      exact checkPre_ok (hhead first hfirst) _ rfl
    · rintro first ⟨⟩
      exact hpre

theorem mapM_asValue_ok {list : List (MaybePruned Assumption)}
    (h : (list.mapM fun a => context (fun _ => VerificationError.receiptFormatError) a.asValue) = .ok assumptions) :
    list = assumptions.map .value := by
  induction list generalizing assumptions with
  | nil =>
    cases h
    rfl
  | cons a list ih =>
    rw [mapM_cons] at h
    obtain ⟨v, hv, h1⟩ := bind_ok_iff.mp h
    obtain ⟨vs, hvs, h2⟩ := bind_ok_iff.mp h1
    cases h2
    rw [context_ok_iff, MaybePruned.asValue_ok_iff] at hv
    rw [hv, ih hvs, map_cons]

/-- The assumptions that a claim's output commits to, in order. -/
def CommitsTo (claim : ReceiptClaim) (assumptions : List Assumption) : Prop :=
  claim.output = .value none ∧ assumptions = [] ∨ ∃ output, claim.output = .value (some output) ∧
    (output.assumptions = .value ⟨assumptions.map .value⟩ ∨ output.assumptions = .pruned .zero ∧ assumptions = [])

theorem assumptionsOf_ok (h : assumptionsOf claim = .ok assumptions) : CommitsTo claim assumptions := by
  obtain ⟨value, hvalue, h1⟩ := bind_ok_iff.mp h
  rw [context_ok_iff, MaybePruned.asValue_ok_iff] at hvalue
  cases value with
  | none =>
    cases h1
    exact .inl ⟨hvalue, rfl⟩
  | some output =>
    refine .inr ⟨output, hvalue, ?_⟩
    by_cases hempty : Assumptions.isEmpty output.assumptions
    · simp only [if_pos hempty] at h1
      cases h1
      cases hlist : output.assumptions with
      | value list =>
        rw [hlist] at hempty
        exact .inl (congrArg (fun l => MaybePruned.value (⟨l⟩ : Assumptions)) (List.isEmpty_iff.mp hempty))
      | pruned digest =>
        rw [hlist] at hempty
        exact .inr ⟨congrArg MaybePruned.pruned (of_decide_eq_true hempty), rfl⟩
    · simp only [if_neg hempty] at h1
      obtain ⟨list, hlist, h2⟩ := bind_ok_iff.mp h1
      rw [context_ok_iff, MaybePruned.asValue_ok_iff] at hlist
      left
      rw [hlist, ← mapM_asValue_ok h2]

/-- The receipt of an assumption verifies under the control root of the assumption, where zero
stands for that of the whole receipt, and has its claim. -/
def Discharges (S : Sha256) (V : ReceiptVerifier HashSuite Groth16Params Proof) (ctx : VerifierContext HashSuite Groth16Params)
    (assumption : Assumption) (receipt : InnerAssumptionReceipt Proof) : Prop :=
  digest S receipt.claim = assumption.claim ∧
    (assumption.controlRoot = .zero ∧ V.assumption ctx receipt = .ok () ∨
      assumption.controlRoot ≠ .zero ∧ ∃ ctx' params, V.assumption ctx' receipt = .ok () ∧
        ctx'.succinctVerifierParameters = some params ∧ params.controlRoot = assumption.controlRoot ∧
        params.innerControlRoot = none ∧ ctx'.segmentVerifierParameters = none ∧ ctx'.groth16VerifierParameters = none ∧
        ctx'.suites = ctx.suites ∧ ctx'.devMode = ctx.devMode)

theorem verifyAssumption_ok {assumption : Assumption} {receipt : InnerAssumptionReceipt Proof}
    (h : verifyAssumption S V ctx assumption receipt = .ok ()) : Discharges S V ctx assumption receipt := by
  obtain ⟨_, hverified, h1⟩ := bind_ok_iff.mp h
  obtain ⟨claimDigest, hclaim, h2⟩ := bind_ok_iff.mp h1
  cases hclaim
  refine ⟨require_ok_iff.mp h2, ?_⟩
  unfold assumptionContext at hverified
  split at hverified
  next hzero => exact .inl ⟨hzero, hverified⟩
  next hne => exact .inr ⟨hne, _, _, hverified, rfl, rfl, rfl, rfl, rfl, rfl, rfl⟩

theorem zip_ok (hlength : assumptions.length = receipts.length)
    (h : ((assumptions.zip receipts).forM fun pair => verifyAssumption S V ctx pair.1 pair.2) = .ok ()) :
    List.Forall₂ (Discharges S V ctx) assumptions receipts := by
  induction assumptions generalizing receipts with
  | nil =>
    obtain rfl := length_eq_zero_iff.mp hlength.symm
    exact .nil
  | cons assumption assumptions ih =>
    obtain ⟨receipt, receipts, rfl⟩ := exists_cons_of_length_eq_add_one hlength.symm
    rw [zip_cons_cons, forM_eq_forM, forM_cons] at h
    obtain ⟨_, hhead, htail⟩ := bind_ok_iff.mp h
    exact .cons (verifyAssumption_ok hhead) (ih (Nat.succ.inj hlength) htail)

/-- What recursion leaves open after the receipts of the assumptions. -/
def NothingOpen (claim : ReceiptClaim) : Prop :=
  ∀ output, claim.output = .value (some output) → Assumptions.isEmpty output.assumptions

theorem resolve_ok
    (hcommits : CommitsTo claim assumptions) (hdischarge : List.Forall₂ (Discharges S V ctx) assumptions receipts) :
    ∃ resolved value, claim.resolveAll S (receipts.map (·.claim)) = .ok resolved ∧ NothingOpen resolved ∧
      claim.output = .value value ∧
      digest S { claim with output := MaybePruned.value (value.map fun output : Output =>
        { journal := output.journal, assumptions := .value ⟨[]⟩ }) } = digest S resolved := by
  obtain ⟨houtput, rfl⟩ | ⟨output, houtput, hlist | ⟨hpruned, rfl⟩⟩ := hcommits
  · cases hdischarge
    refine ⟨claim, none, rfl, fun output hsome => ?_, houtput, ?_⟩
    · rw [houtput] at hsome
      cases hsome
    · rw [Option.map_none, ← houtput]
  · have hclaims : List.Forall₂ (fun a c => digest S c = a.claim) assumptions (receipts.map (·.claim)) := by
      rw [forall₂_map_right_iff]
      exact hdischarge.imp fun _ _ h => h.1
    refine ⟨_, some output, ReceiptClaim.resolveAll_eq houtput hlist hclaims, fun output hsome => ?_, houtput, rfl⟩
    cases hsome
    rfl
  · cases hdischarge
    refine ⟨claim, some output, rfl, fun output' hsome => ?_, houtput, ?_⟩
    · rw [houtput] at hsome
      cases hsome
      rw [hpruned]
      rw [Assumptions.isEmpty, decide_eq_true_iff]
    · cases claim
      cases output
      cases houtput
      cases hpruned
      rfl

/-- Where a receipt verifies, its claim is that of the recursive proof, up to pruning. -/
theorem composite_claim_is_recursive {receipt : CompositeReceipt Proof}
    (hverify : receipt.verifyIntegrityWithContext S V ctx = .ok ()) :
    ∃ first rest last assumptions, receipt.segments = first :: rest ∧ receipt.segments.getLast? = some last ∧
      (∃ claim resolved, receipt.claim = .ok claim ∧
        ((first.claim.joinAll (rest.map (·.claim))).resolveAll S (receipt.assumptionReceipts.map (·.claim))) = .ok resolved ∧
        NothingOpen resolved ∧ digest S claim = digest S resolved) ∧
      List.IsChain (Continues S) (receipt.segments.map (·.claim)) ∧
      (∀ segment ∈ receipt.segments, V.segment ctx segment = .ok ()) ∧
      CommitsTo last.claim assumptions ∧ List.Forall₂ (Discharges S V ctx) assumptions receipt.assumptionReceipts := by
  obtain ⟨segments, receipts, params⟩ := receipt
  cases segments with
  | nil => cases hverify
  | cons first rest =>
    obtain ⟨init, last, hsplit⟩ : ∃ init last, first :: rest = init ++ [last] :=
      ⟨(first :: rest).dropLast, _, (List.dropLast_append_getLast (List.cons_ne_nil first rest)).symm⟩
    have hlast : (first :: rest).getLast? = some last := by
      rw [hsplit, List.getLast?_concat]
    have hinit : (first :: rest).dropLast = init := by
      rw [hsplit, List.dropLast_concat]
    unfold verifyIntegrityWithContext at hverify
    simp only [hlast, hinit] at hverify
    obtain ⟨expected, hsegments, h₁⟩ := bind_ok_iff.mp hverify
    obtain ⟨_, hfinal, h₂⟩ := bind_ok_iff.mp h₁
    obtain ⟨_, hpre, h₃⟩ := bind_ok_iff.mp h₂
    obtain ⟨assumptions, hassumptions, h₄⟩ := bind_ok_iff.mp h₃
    obtain ⟨_, hlength, h₅⟩ := bind_ok_iff.mp h₄
    rw [require_ok_iff] at hlength
    unfold CompositeReceipt.assumptions at hassumptions
    simp only [hlast] at hassumptions
    have hcommits := assumptionsOf_ok hassumptions
    have hdischarge := zip_ok hlength h₅
    obtain ⟨hverified, hchain, -⟩ := segments_ok hsegments hpre
    have hclaims : (first.claim :: rest.map (·.claim)).getLast? = some last.claim := by
      rw [← List.map_cons, List.getLast?_map, hlast, Option.map_some]
    have hjoin := ReceiptClaim.joinAll_eq first.claim (rest.map (·.claim)) last.claim hclaims
    have hjoined : CommitsTo (first.claim.joinAll (rest.map (·.claim))) assumptions := by
      rw [hjoin]
      exact hcommits
    obtain ⟨resolved, value, hresolved, hopen, houtput, hdigest⟩ := resolve_ok hjoined hdischarge
    refine ⟨first, rest, last, assumptions, rfl, hlast, ⟨_, resolved, ?_, hresolved, hopen, hdigest⟩, ?_, ?_, hcommits, hdischarge⟩
    · rw [hjoin] at houtput ⊢
      unfold CompositeReceipt.claim
      simp only [List.head?_cons, hlast]
      exact bind_ok_iff.mpr ⟨value, context_ok_iff.mpr (MaybePruned.asValue_ok_iff.mpr houtput), rfl⟩
    · rw [hsplit]
      exact hchain
    · rw [hsplit]
      intro segment hmem
      obtain hmem | hmem := List.mem_append.mp hmem
      · exact hverified segment hmem
      · rw [List.mem_singleton.mp hmem]
        exact hfinal

def sampleRoot : Digest := Digest.zero.set 0 7

/-- Receipts of assumptions verify under one control root. -/
def sampleVerifier : ReceiptVerifier Unit Unit Unit where
  segment _ _ := .ok ()
  assumption ctx _ :=
    match ctx.succinctVerifierParameters with
    | some params => require (params.controlRoot = sampleRoot) (.controlVerificationError params.controlRoot)
    | none => .error .verifierParametersMissing

def sampleSegments : List (SegmentReceipt Unit) :=
  [⟨(), ⟨.value ⟨4, .zero⟩, .value ⟨8, .zero⟩, .systemSplit, .pruned .zero, .value none⟩⟩,
    ⟨(), ⟨.pruned .zero, .pruned sampleRoot, .halted 0, .pruned .zero,
      .value (some ⟨.value [1, 2], .value ⟨[.value ⟨.zero, sampleRoot⟩]⟩⟩)⟩⟩]

def sampleReceipt : CompositeReceipt Unit := ⟨sampleSegments, [.succinct () (.pruned .zero)], .zero⟩

theorem composite_claim_sample : ∃ claim resolved first rest, sampleReceipt.segments = first :: rest ∧
    sampleReceipt.claim = .ok claim ∧ ((first.claim.joinAll (rest.map (·.claim))).resolveAll (fun _ => Digest.zero)
      (sampleReceipt.assumptionReceipts.map (·.claim))) = .ok resolved ∧
    digest (fun _ => Digest.zero) claim = digest (fun _ => Digest.zero) resolved := by
  have hverify : sampleReceipt.verifyIntegrityWithContext (fun _ => Digest.zero) sampleVerifier .empty = .ok () := by
    decide
  obtain ⟨first, rest, _, _, hsegments, -, ⟨claim, resolved, hclaim, hresolved, -, hdigest⟩, -⟩ :=
    composite_claim_is_recursive hverify
  exact ⟨claim, resolved, first, rest, hsegments, hclaim, hresolved, hdigest⟩

end CompositeReceipt

end VerifiableCompute.Claim
