import VerifiableCompute.Lib.OrderedMap
import VerifiableCompute.Lib.Checked

/-! A proof job runs one execution and turns what it reports into one receipt. Receipts are known
by how they were made. -/

namespace VerifiableCompute.ProofJob

open Lib

/-- Claims are known by their digests. -/
abbrev Digest := BitVec 256

/-- A succinct receipt of a keccak batch, of a union, or one that came with the request. -/
inductive UnknownReceipt
  | keccak (index : ℕ)
  | union (lhs rhs : UnknownReceipt)
  | given (claim : Digest)
  deriving DecidableEq

/-- A succinct receipt of a part of the execution. -/
inductive ClaimReceipt
  | lift (segment : ℕ)
  | join (left right : ClaimReceipt)
  | resolve (conditional : ClaimReceipt) (assumption : UnknownReceipt)
  | withClaim (receipt : ClaimReceipt) (claim : Digest)
  deriving DecidableEq

inductive InnerAssumptionReceipt
  | composite (claim : Digest)
  | succinct (receipt : UnknownReceipt)
  | groth16 (claim : Digest)
  | fake (claim : Digest)

inductive AssumptionReceipt
  | proven (inner : InnerAssumptionReceipt)
  | unresolved (claim controlRoot : Digest)

inductive InnerReceipt
  | succinct (receipt : ClaimReceipt)
  | fake (receipt : ClaimReceipt)

structure Receipt where
  inner : InnerReceipt
  journal : List (BitVec 8)

structure SegmentRange where
  start : ℕ
  stop : ℕ
  deriving DecidableEq

instance : LinearOrder SegmentRange :=
  LinearOrder.lift' (fun r : SegmentRange => toLex (r.start, r.stop)) fun a b h => by
    cases a
    cases b
    cases h
    rfl

theorem SegmentRange.lt_iff {a b : SegmentRange} : a < b ↔ a.start < b.start ∨ a.start = b.start ∧ a.stop < b.stop :=
  Prod.Lex.toLex_lt_toLex

inductive Task
  | execute (devMode : Bool)
  | proveSegment (segment : ℕ) (devMode : Bool)
  | proveKeccak (index : ℕ) (devMode : Bool)
  | lift (segment : ℕ) (devMode : Bool)
  | join (range : SegmentRange) (left right : ClaimReceipt) (devMode : Bool)
  | union (height pos : ℕ) (lhs rhs : UnknownReceipt) (devMode : Bool)
  | resolve (conditional : ClaimReceipt) (assumption : UnknownReceipt) (devMode : Bool)
  deriving DecidableEq

/-- What an execution reports at its end. -/
structure Session where
  segments : ℕ
  journal : Option (List (BitVec 8))
  assumptions : List AssumptionReceipt
  receiptClaim : Digest

inductive TaskUpdate
  | start
  | segment (index : ℕ)
  | keccak

structure JoinNode where
  range : SegmentRange
  receipt : ClaimReceipt

inductive TaskDone
  | session (session : Session)
  | proveSegment (index : ℕ)
  | proveKeccak (index : ℕ) (receipt : UnknownReceipt)
  | lift (node : JoinNode)
  | join (node : JoinNode)
  | union (height pos : ℕ) (receipt : UnknownReceipt)
  | resolve (receipt : ClaimReceipt)
  | shrinkWrap

/-- What a worker makes of a task of an execution that reports a session. -/
def Task.result (session : Session) : Task → TaskDone
  | .execute _ => .session session
  | .proveSegment segment _ => .proveSegment segment
  | .proveKeccak index _ => .proveKeccak index (.keccak index)
  | .lift segment _ => .lift ⟨⟨segment, segment + 1⟩, .lift segment⟩
  | .join range left right _ => .join ⟨range, .join left right⟩
  | .union height pos lhs rhs _ => .union height pos (.union lhs rhs)
  | .resolve conditional assumption _ => .resolve (.resolve conditional assumption)

inductive KeccakPhase
  | build
  | mergePeaks
  | done
  deriving DecidableEq

inductive JobError
  | devModeDisabled
  | proofRequestFirst
  | duplicateProofRequest
  | unexpectedUnion
  | unexpectedShrinkWrap
  | unionBadHeight
  | unionBadPos
  | unionWrongLength
  | unionEmptyLayer
  | unionMissingReceipt
  | keccakRootTwice
  | notSuccinct
  | missingAssumption (claim controlRoot : Digest)
  | missingJournal
  | assertion

inductive JobStatus
  | running
  | succeeded (session : Session) (receipt : Receipt)

abbrev ReplySender := ℕ

/-- The actor of a job. Its tasks for the factory are in `outbox`, and `stops` counts the times that
it asked itself to stop. -/
structure JobActor where
  joins : OrderedMap SegmentRange ClaimReceipt
  session : Option Session
  replySender : Option ReplySender
  status : JobStatus
  unions : List (List (Option UnknownReceipt))
  keccakPhase : KeccakPhase
  keccakCount : ℕ
  requiredKeccakLayers : List ℕ
  pendingKeccakPeaks : List UnknownReceipt
  keccakRoot : Option UnknownReceipt
  assumptions : Option (List UnknownReceipt)
  finalReceipt : Option ClaimReceipt
  devMode : Option Bool
  outbox : List Task
  stops : ℕ

def JobActor.new : JobActor := ⟨.empty, none, none, .running, [], .build, 0, [], [], none, none, none, none, [], 0⟩

/-! The handlers of a proof job. Parts of the execution are joined as soon as neighbours are
there, keccak receipts are united layer by layer, and what the session assumes is resolved
one assumption after the other. -/

/-- The value, or the error where there is none. -/
def okOr {α : Type} (e : JobError) : Option α → Except JobError α
  | some a => .ok a
  | none => .error e

/-- The numbers of receipts in the layers over some leaves. -/
def mmrLayers (count : ℕ) : List ℕ :=
  count :: if 1 < count then mmrLayers (count / 2) else []
termination_by count
decreasing_by omega

/-- The layers with an odd number of receipts, from the highest. -/
def mmrPeaks (layers : List ℕ) : List ℕ := (layers.zipIdx.reverse.filter fun e => e.1 % 2 = 1).map Prod.snd

def InnerAssumptionReceipt.intoSuccinct : InnerAssumptionReceipt → Except JobError UnknownReceipt
  | .succinct receipt => .ok receipt
  | _ => .error .notSuccinct

/-- The first two neighbours. -/
def firstAdjacent : List (SegmentRange × ClaimReceipt) → Option ((SegmentRange × ClaimReceipt) × (SegmentRange × ClaimReceipt))
  | [] => none
  | [_] => none
  | x :: y :: rest => if x.1.stop = y.1.start then some (x, y) else firstAdjacent (y :: rest)

/-- A list of at least some length. -/
def resized {α : Type} (length : ℕ) (fill : α) (l : List α) : List α := l ++ List.replicate (length - l.length) fill

namespace JobActor

variable (devModeDisabled : Bool) (digest : UnknownReceipt → Digest)

def checkDevMode (a : JobActor) : Except JobError Bool := do
  let devMode ← okOr .proofRequestFirst a.devMode
  require (¬ (devMode ∧ devModeDisabled)) .devModeDisabled
  return devMode

def submitTask (task : Task) (a : JobActor) : JobActor := { a with outbox := a.outbox ++ [task] }

def proveSegment (segment : ℕ) (a : JobActor) : Except JobError JobActor := do
  return a.submitTask (.proveSegment segment (← a.checkDevMode devModeDisabled))

def proveKeccak (a : JobActor) : Except JobError JobActor := do
  let index := a.keccakCount
  let a := { a with keccakCount := a.keccakCount + 1 }
  return a.submitTask (.proveKeccak index (← a.checkDevMode devModeDisabled))

def proveSegmentDone (segment : ℕ) (a : JobActor) : Except JobError JobActor := do
  return a.submitTask (.lift segment (← a.checkDevMode devModeDisabled))

def union (height pos : ℕ) (lhs rhs : UnknownReceipt) (a : JobActor) : Except JobError JobActor := do
  return a.submitTask (.union height pos lhs rhs (← a.checkDevMode devModeDisabled))

def maybeJoin (a : JobActor) : Except JobError JobActor :=
  match firstAdjacent a.joins.entries with
  | none => .ok a
  | some (x, y) => do
    let a := { a with joins := (a.joins.erase x.1).erase y.1 }
    return a.submitTask (.join ⟨x.1.start, y.1.stop⟩ x.2 y.2 (← a.checkDevMode devModeDisabled))

/-- Every layer is as long as it has to be. -/
def layersComplete (a : JobActor) : Bool :=
  !a.unions.isEmpty && (a.unions.headD []).length = a.keccakCount && a.requiredKeccakLayers.length = a.unions.length &&
    (a.requiredKeccakLayers.zip (a.unions.map List.length)).all fun e => e.1 = e.2

def layerPeak (a : JobActor) (layer : ℕ) : Except JobError UnknownReceipt := do
  let layer ← okOr .unionWrongLength a.unions[layer]?
  let slot ← okOr .unionEmptyLayer layer.getLast?
  okOr .unionMissingReceipt slot

/-- The first step from the peaks to the root. -/
def startMerge (peaks : List UnknownReceipt) (a : JobActor) : Except JobError (JobActor × Bool) :=
  match peaks with
  | [] => .ok (a, true)
  | [root] => do
    require (a.keccakRoot = none) .keccakRootTwice
    return ({ a with keccakRoot := some root, pendingKeccakPeaks := [], keccakPhase := .done }, true)
  | lhs :: rhs :: rest => do
    let a ← union devModeDisabled 0 0 lhs rhs { a with pendingKeccakPeaks := rest }
    return ({ a with keccakPhase := .mergePeaks }, false)

def maybeFinishKeccakMmr (a : JobActor) : Except JobError (JobActor × Bool) :=
  if a.keccakCount = 0 ∨ a.keccakPhase = .done then .ok ({ a with keccakPhase := .done }, true)
  else if a.keccakPhase = .mergePeaks then .ok (a, false)
  else if a.layersComplete then do
    let peaks ← (mmrPeaks a.requiredKeccakLayers).mapM a.layerPeak
    a.startMerge devModeDisabled (a.pendingKeccakPeaks ++ peaks)
  else .ok (a, false)

/-- The receipt over all segments. In dev mode it has the claim of the session. -/
def joinRoot (session : Session) (a : JobActor) : Except JobError (Option ClaimReceipt) :=
  match a.joins.entries.head? with
  | none => .ok none
  | some (range, root) =>
    if range.start = 0 ∧ range.stop = session.segments then do
      return some (if ← a.checkDevMode devModeDisabled then .withClaim root session.receiptClaim else root)
    else .ok none

def collectAssumption (a : JobActor) : AssumptionReceipt → Except JobError UnknownReceipt
  | .proven inner => inner.intoSuccinct
  | .unresolved claim controlRoot =>
    match a.keccakRoot with
    | some root => if digest root = claim then .ok root else .error (.missingAssumption claim controlRoot)
    | none => .error (.missingAssumption claim controlRoot)

def collectAssumptions (session : Session) (a : JobActor) : Except JobError (List UnknownReceipt) :=
  match a.assumptions with
  | some assumptions => .ok assumptions
  | none => session.assumptions.mapM (a.collectAssumption digest)

def resolveAssumptions (session : Session) (finalReceipt : ClaimReceipt) (a : JobActor) : Except JobError (JobActor × Bool) := do
  match ← a.collectAssumptions digest session with
  | [] => return ({ a with assumptions := some [] }, true)
  | assumption :: rest =>
    let a := { a with assumptions := some rest }
    return (a.submitTask (.resolve finalReceipt assumption (← a.checkDevMode devModeDisabled)), false)

def finish (session : Session) (finalReceipt : ClaimReceipt) (a : JobActor) : Except JobError JobActor := do
  let journal ← okOr .missingJournal session.journal
  let devMode ← a.checkDevMode devModeDisabled
  let receipt : Receipt := ⟨if devMode then .fake finalReceipt else .succinct finalReceipt, journal⟩
  return { a with status := .succeeded session receipt, stops := a.stops + 1 }

/-- All segments are joined: resolve, and finish where nothing is left to resolve. -/
def finishFrom (session : Session) (joinRoot : ClaimReceipt) (a : JobActor) : Except JobError JobActor := do
  let finalReceipt := a.finalReceipt.getD joinRoot
  let (a, resolved) ← resolveAssumptions devModeDisabled digest session finalReceipt { a with finalReceipt := some finalReceipt }
  if resolved then a.finish devModeDisabled session finalReceipt
  else return a

def maybeFinish (a : JobActor) : Except JobError JobActor :=
  match a.session with
  | none => .ok a
  | some session => do
    let (a, keccakDone) ← a.maybeFinishKeccakMmr devModeDisabled
    if keccakDone then
      match ← a.joinRoot devModeDisabled session with
      | none => return a
      | some joinRoot => a.finishFrom devModeDisabled digest session joinRoot
    else return a

/-- The slots with one more receipt. -/
def placeUnion (pos height : ℕ) (receipt : UnknownReceipt) (unions : List (List (Option UnknownReceipt))) :
    Except JobError (List (List (Option UnknownReceipt)) × List (Option UnknownReceipt)) := do
  let unions := resized (height + 1) [] unions
  let layer ← okOr .unionBadHeight unions[height]?
  let layer := resized (pos + 1) none layer
  require (pos < layer.length) .unionBadPos
  let layer := layer.set pos (some receipt)
  return (unions.set height layer, layer)

def processUnion (pos height : ℕ) (receipt : UnknownReceipt) (a : JobActor) : Except JobError JobActor := do
  let (unions, layer) ← placeUnion pos height receipt a.unions
  let a := { a with unions }
  let (lhsPos, rhsPos) := if pos % 2 = 0 then (pos, pos + 1) else (pos - 1, pos)
  match layer[lhsPos]?, layer[rhsPos]? with
  | some (some lhs), some (some rhs) => a.union devModeDisabled (height + 1) (pos / 2) lhs rhs
  | _, _ => a.maybeFinish devModeDisabled digest

def unionDone (height pos : ℕ) (receipt : UnknownReceipt) (a : JobActor) : Except JobError JobActor :=
  match a.keccakPhase with
  | .build => a.processUnion devModeDisabled digest pos height receipt
  | .mergePeaks =>
    match a.pendingKeccakPeaks with
    | rhs :: rest => union devModeDisabled 0 0 receipt rhs { a with pendingKeccakPeaks := rest }
    | [] => do
      require (a.keccakRoot = none) .assertion
      maybeFinish devModeDisabled digest { a with keccakRoot := some receipt, keccakPhase := .done }
  | .done => .error .unexpectedUnion

def sessionDone (session : Session) (a : JobActor) : Except JobError JobActor :=
  maybeFinish devModeDisabled digest { a with session := some session, requiredKeccakLayers := mmrLayers a.keccakCount }

/-- A part of the execution is there, by lifting or by joining. -/
def nodeDone (node : JoinNode) (a : JobActor) : Except JobError JobActor := do
  let a ← maybeJoin devModeDisabled { a with joins := a.joins.insert node.range node.receipt }
  a.maybeFinish devModeDisabled digest

def liftDone := nodeDone devModeDisabled digest

def joinDone := nodeDone devModeDisabled digest

def resolveDone (receipt : ClaimReceipt) (a : JobActor) : Except JobError JobActor :=
  maybeFinish devModeDisabled digest { a with finalReceipt := some receipt }

/-- The request that starts the job. -/
def handleProof (sender : Option ReplySender) (devMode : Bool) (a : JobActor) : Except JobError JobActor := do
  require (a.replySender = none) .duplicateProofRequest
  return submitTask (.execute devMode) { a with replySender := sender, devMode := some devMode }

def handleTaskUpdate (update : TaskUpdate) (a : JobActor) : Except JobError JobActor :=
  match update with
  | .start => .ok a
  | .segment index => a.proveSegment devModeDisabled index
  | .keccak => a.proveKeccak devModeDisabled

def handleTaskDone (done : TaskDone) (a : JobActor) : Except JobError JobActor :=
  match done with
  | .session session => a.sessionDone devModeDisabled digest session
  | .proveSegment index => a.proveSegmentDone devModeDisabled index
  | .proveKeccak index receipt => a.processUnion devModeDisabled digest index 0 receipt
  | .lift node => a.liftDone devModeDisabled digest node
  | .join node => a.joinDone devModeDisabled digest node
  | .union height pos receipt => a.unionDone devModeDisabled digest height pos receipt
  | .resolve receipt => a.resolveDone devModeDisabled digest receipt
  | .shrinkWrap => .error .unexpectedShrinkWrap

end JobActor

/-- A job, the tasks that workers have, all tasks so far, and what the execution has still to report. -/
structure System where
  actor : JobActor
  inFlight : Multiset Task
  submitted : List Task
  segmentsLeft : Multiset ℕ
  keccaksLeft : ℕ

/-- A request, and what its execution will report. -/
structure Job where
  devMode : Bool
  session : Session
  keccaks : ℕ

inductive Event
  | segment (index : ℕ)
  | keccak
  | done (task : Task)

namespace System

/-- The factory gets the tasks of the actor. -/
def flush (s : System) : System :=
  { s with
    actor := { s.actor with outbox := [] }
    inFlight := s.inFlight + s.actor.outbox
    submitted := s.submitted ++ s.actor.outbox }

def start (job : Job) (sender : Option ReplySender) : Except JobError System := do
  let actor ← JobActor.new.handleProof sender job.devMode
  return flush ⟨actor, 0, [], Multiset.range job.session.segments, job.keccaks⟩

/-- The execution reports what is left, and its session at the end; any other task ends at any time. -/
def Enabled (s : System) : Event → Prop
  | .segment index => (∃ devMode, .execute devMode ∈ s.inFlight) ∧ index ∈ s.segmentsLeft
  | .keccak => (∃ devMode, .execute devMode ∈ s.inFlight) ∧ 0 < s.keccaksLeft
  | .done task => task ∈ s.inFlight ∧ ((∃ devMode, task = .execute devMode) → s.segmentsLeft = 0 ∧ s.keccaksLeft = 0)

variable (devModeDisabled : Bool) (digest : UnknownReceipt → Digest)

def step (job : Job) (s : System) : Event → Except JobError System
  | .segment index => do
    let actor ← s.actor.handleTaskUpdate devModeDisabled (.segment index)
    return flush { s with actor, segmentsLeft := s.segmentsLeft.erase index }
  | .keccak => do
    let actor ← s.actor.handleTaskUpdate devModeDisabled .keccak
    return flush { s with actor, keccaksLeft := s.keccaksLeft - 1 }
  | .done task => do
    let actor ← s.actor.handleTaskDone devModeDisabled digest (task.result job.session)
    return flush { s with actor, inFlight := s.inFlight.erase task }

/-- The states after any events in any order. -/
inductive Reachable (job : Job) : System → Prop
  | start {sender : Option ReplySender} {s : System} (h : start job sender = .ok s) : Reachable job s
  | step {s s' : System} {event : Event} (run : Reachable job s) (enabled : s.Enabled event)
      (step : s.step devModeDisabled digest job event = .ok s') : Reachable job s'

end System

end VerifiableCompute.ProofJob
