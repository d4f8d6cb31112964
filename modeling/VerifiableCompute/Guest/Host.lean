import VerifiableCompute.Claim.Types
import VerifiableCompute.KeccakClaim.Digest

/-! The host's side of a session: the journal, the receipts it holds for assumptions, those that
the guest has used, and the batches of permutations that it is asked to prove. -/

namespace VerifiableCompute.Guest

open Lib Binfmt Claim KeccakClaim

/-- Why an execution is abandoned by the host. -/
inductive HostError
  | claimDigest
  | controlRoot
  | notFound (claimDigest controlRoot : Digest)
  | keccakBatchFull
  | journalLimitReached

/-- A receipt for an assumption, by what a lookup reads of it. Either reading may fail, and only
a succinct receipt has a control root. -/
inductive AssumptionReceipt
  | proven (claimDigest : Option Digest) (succinct : Option (Option Digest))
  | unresolved (assumption : Assumption)

namespace AssumptionReceipt

def claimDigest : AssumptionReceipt → Except HostError Digest
  | .proven (some digest) _ => .ok digest
  | .proven none _ => .error .claimDigest
  | .unresolved assumption => .ok assumption.claim

def cachedControlRoot : AssumptionReceipt → Except HostError (Option Digest)
  | .proven _ none => .ok none
  | .proven _ (some none) => .error .controlRoot
  | .proven _ (some (some root)) => .ok (some root)
  | .unresolved assumption => .ok (some assumption.controlRoot)

end AssumptionReceipt

/-- The first receipt for the claim. A control root other than zero has to be its own. -/
def findAssumption (claimDigest controlRoot : Digest) :
    List AssumptionReceipt → Except HostError (Option (Assumption × AssumptionReceipt))
  | [] => .ok none
  | receipt :: receipts => do
    let cachedClaimDigest ← receipt.claimDigest
    if cachedClaimDigest ≠ claimDigest then
      findAssumption claimDigest controlRoot receipts
    else if controlRoot ≠ .zero then
      let cachedControlRoot ← receipt.cachedControlRoot
      if cachedControlRoot ≠ some controlRoot then
        findAssumption claimDigest controlRoot receipts
      else .ok (some (⟨claimDigest, controlRoot⟩, receipt))
    else .ok (some (⟨claimDigest, controlRoot⟩, receipt))

/-- The size of a keccak proof, in the range that the prover has programs for. -/
abbrev KeccakPo2 := { po2 : ℕ // InKeccakPo2Range po2 }

def KeccakPo2.default : KeccakPo2 := ⟨KECCAK_DEFAULT_PO2, of_decide_eq_true rfl⟩

structure ProveKeccakRequest where
  claimDigest : DigestWords
  controlRoot : Digest
  po2 : ℕ
  input : List KeccakState

structure SysKeccak where
  inputs : List KeccakState
  maxPo2 : ℕ
  maxInputs : ℕ

namespace SysKeccak

def new (maxPo2 : Option KeccakPo2) : SysKeccak :=
  let maxPo2 := (maxPo2.getD .default).val
  { inputs := [], maxPo2 := maxPo2, maxInputs := maxKeccakInputs maxPo2 }

def isFull (k : SysKeccak) : Bool := decide (k.maxInputs ≤ k.inputs.length)

end SysKeccak

/-- The executor with the parts of its environment that outlive a session: the size of keccak
proofs and the receipts. -/
structure Host where
  maxPo2 : Option KeccakPo2
  assumptions : List AssumptionReceipt
  journal : List Byte
  assumptionsUsed : List (Assumption × AssumptionReceipt)
  pendingKeccaks : List ProveKeccakRequest
  keccak : SysKeccak

def MAX_JOURNAL_SIZE : ℕ := 100 * 2 ^ 20

namespace Host

/-- An executor for an environment, with a new journal and new syscall handlers. -/
def withDetails (maxPo2 : Option KeccakPo2) (assumptions : List AssumptionReceipt) : Host where
  maxPo2 := maxPo2
  assumptions := assumptions
  journal := []
  assumptionsUsed := []
  pendingKeccaks := []
  keccak := .new maxPo2

def sysVerify (claimDigest controlRoot : Digest) (h : Host) : Except HostError Host := do
  let found ← findAssumption claimDigest controlRoot h.assumptions
  match found with
  | none => .error (.notFound claimDigest controlRoot)
  | some assumption => .ok { h with assumptionsUsed := assumption :: h.assumptionsUsed }

/-- The assumption is made on the spot, unresolved. -/
def sysVerify2 (claimDigest controlRoot : Digest) (h : Host) : Host :=
  let assumption : Assumption := ⟨claimDigest, controlRoot⟩
  let receipt := AssumptionReceipt.unresolved assumption
  { h with
    assumptions := h.assumptions ++ [receipt]
    assumptionsUsed := (assumption, receipt) :: h.assumptionsUsed }

/-- The permuted state, and whether the batch is full now. -/
def keccakPermute (fromGuest : KeccakState) (h : Host) : Except HostError (Host × KeccakState × Bool) :=
  if h.keccak.isFull then .error .keccakBatchFull
  else
    let keccak := { h.keccak with inputs := h.keccak.inputs ++ [fromGuest] }
    .ok ({ h with keccak := keccak }, f1600 fromGuest, keccak.isFull)

def keccakProve (claim : DigestWords) (controlRoot : Digest) (h : Host) : Host :=
  let request := { claimDigest := claim, controlRoot := controlRoot, po2 := h.keccak.maxPo2, input := h.keccak.inputs }
  { h with
    pendingKeccaks := h.pendingKeccaks ++ [request]
    keccak := { h.keccak with inputs := [] } }

/-- A write to the journal's file descriptor. -/
def sysWrite (bytes : List Byte) (h : Host) : Except HostError Host :=
  if bytes.length + h.journal.length > MAX_JOURNAL_SIZE then .error .journalLimitReached
  else .ok { h with journal := h.journal ++ bytes }

/-- The output that the host expects of a session that ended with this digest. -/
def finalSegmentOutput (outputDigest : Digest) (h : Host) : MaybePruned (Option Output) :=
  if outputDigest = .zero then .value none
  else
    .value (some {
      journal := .value h.journal
      assumptions := .value ⟨h.assumptionsUsed.map fun used => .value used.1⟩ })

/-- The end of a session: a resumed executor keeps the receipts only. -/
def finalizeSession (h : Host) : Host := withDetails h.maxPo2 h.assumptions

end Host

end VerifiableCompute.Guest
