import VerifiableCompute.Lib.Bits
import VerifiableCompute.Lib.Checked

/-! The value types of the market contract and the libraries attached to them:
request identifiers, request locks and the fulfilment context that a
transaction keeps in transient storage. Every integer has the width the
contract declares for it. -/

namespace VerifiableCompute.Market

open Lib

abbrev U8 := BitVec 8
abbrev U16 := BitVec 16
abbrev U24 := BitVec 24
abbrev U32 := BitVec 32
abbrev U64 := BitVec 64
abbrev U96 := BitVec 96
abbrev U256 := BitVec 256
abbrev Address := BitVec 160
abbrev Bytes := List (BitVec 8)
abbrev Bytes32 := BitVec 256
abbrev Bytes4 := BitVec 32

abbrev RequestId := U256

/-- Why a call reverts: the custom errors of the market, and the failures the
compiler or a library raises. Payment errors are values of the same type. -/
inductive Revert where
  | requestIsLocked (requestId : RequestId)
  | requestLockIsExpired (requestId : RequestId) (lockDeadline : U64)
  | requestIsFulfilled (requestId : RequestId)
  | requestIsSlashed (requestId : RequestId)
  | requestIsNotLocked (requestId : RequestId)
  | requestIsNotLockedOrPriced (requestId : RequestId)
  | requestIsExpired (requestId : RequestId)
  | requestIsNotExpired (requestId : RequestId) (deadline : U64)
  | partialPayment (price finalPrice : U96)
  | insufficientBalance (account : Address)
  | insufficientGas
  | invalidRequest
  | invalidSignature
  | transferFailed
  | batchSizeExceedsLimit (batchSize limit : ℕ)
  | selectorMismatch (expected received : Bytes4)
  | unfulfillableCallback
  | verificationFailed
  | arithmeticPanic
  | indexOutOfBounds
  | castOverflow
  | tokenFailure
  | timeTravel
  deriving DecidableEq

def toUint96 (x : U256) : Except Revert U96 := safeCast 96 .castOverflow x

def toUint24 (x : U256) : Except Revert U24 := safeCast 24 .castOverflow x

def smartContractSignatureFlag : U256 := (1 : U256) <<< 192

/-- The client address and the index. Bits above the signature flag are refused. -/
def clientAndIndex (id : RequestId) : Except Revert (Address × U32) :=
  if id &&& (BitVec.allOnes 256 <<< 193) ≠ 0 then .error .invalidRequest
  else .ok ((id >>> 32).setWidth 160, id.setWidth 32)

def client (id : RequestId) : Address := (id >>> 32).setWidth 160

def isSmartContractSigned (id : RequestId) : Bool :=
  id &&& smartContractSignatureFlag ≠ 0

structure RequestLock where
  /-- The locker, or the prover that fulfilled after the lock expired. -/
  prover : Address
  lockDeadline : U64
  deadlineDelta : U24
  requestLockFlags : U8
  price : U96
  collateral : U96
  requestDigest : Bytes32
  deriving DecidableEq

/-- A storage slot that was never written. -/
def RequestLock.empty : RequestLock := ⟨0, 0, 0, 0, 0, 0, 0⟩

namespace RequestLock

def proverPaidDuringLockFlag : U8 := (1 : U8) <<< 0

def proverPaidAfterLockFlag : U8 := (1 : U8) <<< 1

def slashedFlag : U8 := (1 : U8) <<< 2

section

variable (l : RequestLock)

def deadline : Except Revert U64 :=
  checkedAdd .arithmeticPanic l.lockDeadline (l.deadlineDelta.setWidth 64)

/-- Slot 1 holds the price and the collateral; one store zeroes both. -/
def clearSlot1 : RequestLock := { l with price := 0, collateral := 0 }

def setProverPaidBeforeLockDeadline : RequestLock :=
  clearSlot1 { l with requestLockFlags := proverPaidDuringLockFlag }

def setProverPaidAfterLockDeadline (prover : Address) (l : RequestLock) : RequestLock :=
  { l with prover := prover, requestLockFlags := l.requestLockFlags ||| proverPaidAfterLockFlag }

def setSlashed : RequestLock :=
  clearSlot1 { l with requestLockFlags := l.requestLockFlags ||| slashedFlag }

def isProverPaidBeforeLockDeadline : Bool :=
  l.requestLockFlags &&& proverPaidDuringLockFlag ≠ 0

def isProverPaidAfterLockDeadline : Bool :=
  l.requestLockFlags &&& proverPaidAfterLockFlag ≠ 0

def isProverPaid : Bool :=
  l.isProverPaidBeforeLockDeadline || l.isProverPaidAfterLockDeadline

def isSlashed : Bool :=
  l.requestLockFlags &&& slashedFlag ≠ 0

end

variable (l : RequestLock) (prover : Address)

theorem paidBefore_eq : l.isProverPaidBeforeLockDeadline = l.requestLockFlags.getLsbD 0 := by
  rw [Bool.eq_iff_iff, isProverPaidBeforeLockDeadline, decide_eq_true_iff, proverPaidDuringLockFlag,
    and_one_shiftLeft_ne_zero _ 0 (by norm_num)]

theorem paidAfter_eq : l.isProverPaidAfterLockDeadline = l.requestLockFlags.getLsbD 1 := by
  rw [Bool.eq_iff_iff, isProverPaidAfterLockDeadline, decide_eq_true_iff, proverPaidAfterLockFlag,
    and_one_shiftLeft_ne_zero _ 1 (by norm_num)]

theorem isSlashed_eq : l.isSlashed = l.requestLockFlags.getLsbD 2 := by
  rw [Bool.eq_iff_iff, isSlashed, decide_eq_true_iff, slashedFlag, and_one_shiftLeft_ne_zero _ 2 (by norm_num)]

@[simp] theorem paidBefore_setPaidBefore : l.setProverPaidBeforeLockDeadline.isProverPaidBeforeLockDeadline = true := by
  simp [paidBefore_eq, setProverPaidBeforeLockDeadline, clearSlot1, proverPaidDuringLockFlag]

@[simp] theorem isSlashed_setPaidBefore : l.setProverPaidBeforeLockDeadline.isSlashed = false := by
  simp [isSlashed_eq, setProverPaidBeforeLockDeadline, clearSlot1, proverPaidDuringLockFlag]

@[simp] theorem paidBefore_setPaidAfter : (l.setProverPaidAfterLockDeadline prover).isProverPaidBeforeLockDeadline =
      l.isProverPaidBeforeLockDeadline := by
  simp [paidBefore_eq, setProverPaidAfterLockDeadline, proverPaidAfterLockFlag]

@[simp] theorem paidAfter_setPaidAfter :
    (l.setProverPaidAfterLockDeadline prover).isProverPaidAfterLockDeadline = true := by
  simp [paidAfter_eq, setProverPaidAfterLockDeadline, proverPaidAfterLockFlag]

@[simp] theorem isSlashed_setPaidAfter : (l.setProverPaidAfterLockDeadline prover).isSlashed = l.isSlashed := by
  simp [isSlashed_eq, setProverPaidAfterLockDeadline, proverPaidAfterLockFlag]

@[simp] theorem isSlashed_setSlashed : l.setSlashed.isSlashed = true := by
  simp [isSlashed_eq, setSlashed, clearSlot1, slashedFlag]

@[simp] theorem paidBefore_setSlashed :
    l.setSlashed.isProverPaidBeforeLockDeadline = l.isProverPaidBeforeLockDeadline := by
  simp [paidBefore_eq, setSlashed, clearSlot1, slashedFlag]

@[simp] theorem paidAfter_setSlashed :
    l.setSlashed.isProverPaidAfterLockDeadline = l.isProverPaidAfterLockDeadline := by
  simp [paidAfter_eq, setSlashed, clearSlot1, slashedFlag]

@[simp] theorem isProverPaid_setPaidBefore : l.setProverPaidBeforeLockDeadline.isProverPaid = true := by
  simp [isProverPaid]

@[simp] theorem isProverPaid_setPaidAfter : (l.setProverPaidAfterLockDeadline prover).isProverPaid = true := by
  simp [isProverPaid]

@[simp] theorem isProverPaid_setSlashed : l.setSlashed.isProverPaid = l.isProverPaid := by
  simp [isProverPaid]

theorem isProverPaid_of_flags_zero {l : RequestLock} (h : l.requestLockFlags = 0) : l.isProverPaid = false := by
  simp [isProverPaid, paidBefore_eq, paidAfter_eq, h]

theorem isSlashed_of_flags_zero {l : RequestLock} (h : l.requestLockFlags = 0) : l.isSlashed = false := by
  simp [isSlashed_eq, h]

end RequestLock

structure FulfillmentContext where
  valid : Bool
  expired : Bool
  price : U96

namespace FulfillmentContext

def validMask : U256 := (1 : U256) <<< 127

def expiredMask : U256 := (1 : U256) <<< 126

def priceMask : U256 := ((1 : U256) <<< 96) - 1

/-- One word: the two flags and the price. -/
def pack (x : FulfillmentContext) : U256 :=
  (if x.valid then validMask else 0) ||| (if x.expired then expiredMask else 0) ||| x.price.setWidth 256

def unpack (packed : U256) : FulfillmentContext where
  valid := packed &&& validMask ≠ 0
  expired := packed &&& expiredMask ≠ 0
  price := (packed &&& priceMask).setWidth 96

theorem unpack_pack (x : FulfillmentContext) : unpack x.pack = x := by
  obtain ⟨valid, expired, price⟩ := x
  have hvalid : (pack ⟨valid, expired, price⟩).getLsbD 127 = valid := by
    cases valid <;> cases expired <;> simp [pack, validMask, expiredMask]
  have hexpired : (pack ⟨valid, expired, price⟩).getLsbD 126 = expired := by
    cases valid <;> cases expired <;> simp [pack, validMask, expiredMask]
  have hprice : (pack ⟨valid, expired, price⟩ &&& priceMask).setWidth 96 = price := by
    have hmask : priceMask.setWidth 96 = BitVec.allOnes 96 := by decide
    have hlow : (pack ⟨valid, expired, price⟩).setWidth 96 = price := by
      cases valid <;> cases expired <;> simp [pack, validMask, expiredMask]
    rw [BitVec.setWidth_and, hmask, hlow, BitVec.and_allOnes]
  simp only [unpack, hprice, mk.injEq, and_true]
  constructor
  · rw [Bool.eq_iff_iff, decide_eq_true_iff, validMask, and_one_shiftLeft_ne_zero _ 127 (by norm_num), hvalid]
  · rw [Bool.eq_iff_iff, decide_eq_true_iff, expiredMask, and_one_shiftLeft_ne_zero _ 126 (by norm_num), hexpired]

theorem unpack_zero : (unpack 0).valid = false := by decide

end FulfillmentContext

end VerifiableCompute.Market
