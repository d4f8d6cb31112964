import VerifiableCompute.Lib.CompleteTree
import VerifiableCompute.Lib.Checked

/-! What the proof system takes from a hash function: the hash of two digests, the hash of a
row of field elements, and which digests it takes. -/

namespace VerifiableCompute.Zkp

open Lib

/-- A digest is its eight words. -/
abbrev Digest := Vector (BitVec 32) 8

def Digest.zero : Digest := .replicate 8 0

/-- The order of arrays of words. -/
def Digest.le (a b : Digest) : Bool := decide (a.toList ≤ b.toList)

/-- A hash function. Its digests are valid, and so is zero; `pair` is what `hash_pair`
gives for valid digests. -/
structure HashFn (Elem : Type) where
  isDigestValid : Digest → Bool
  pair : Digest → Digest → Digest
  hashElemSlice : List Elem → Digest
  valid_zero : isDigestValid .zero
  valid_pair : ∀ {a b}, isDigestValid a → isDigestValid b → isDigestValid (pair a b)
  valid_hashElemSlice : ∀ row, isDigestValid (hashElemSlice row)

variable {Elem : Type}

/-- A digest that is not valid panics. -/
def HashFn.hashPair {Error : Type} (panic : Error) (H : HashFn Elem) (a b : Digest) : Except Error Digest :=
  if H.isDigestValid a ∧ H.isDigestValid b then .ok (H.pair a b) else .error panic

variable {Error : Type} {panic : Error} {H : HashFn Elem} {a b digest : Digest}

theorem hashPair_of_valid (ha : H.isDigestValid a) (hb : H.isDigestValid b) : H.hashPair panic a b = .ok (H.pair a b) :=
  if_pos ⟨ha, hb⟩

theorem hashPair_ok (h : H.hashPair panic a b = .ok digest) :
    H.isDigestValid a ∧ H.isDigestValid b ∧ digest = H.pair a b := by
  unfold HashFn.hashPair at h
  split at h
  next hvalid => exact ⟨hvalid.1, hvalid.2, (Except.ok.inj h).symm⟩
  next => cases h

theorem valid_subtree {leaf : ℕ → Digest} (hleaf : ∀ x, H.isDigestValid (leaf x)) (h n : ℕ) : H.isDigestValid (subtree H.pair leaf h n) := by
  induction h generalizing n with
  | zero => exact hleaf n
  | succ h ih => exact H.valid_pair (ih _) (ih _)

theorem valid_climbPairs {index : ℕ} {digest : Digest} {digests : List Digest} (hdigest : H.isDigestValid digest)
    (hdigests : ∀ sibling ∈ digests, H.isDigestValid sibling) :
    ∀ pair ∈ climbPairs H.pair index digest digests, H.isDigestValid pair.1 ∧ H.isDigestValid pair.2 := by
  induction digests generalizing index digest with
  | nil => exact fun _ hmem => absurd hmem List.not_mem_nil
  | cons sibling digests ih =>
    obtain ⟨hsibling, hrest⟩ := List.forall_mem_cons.mp hdigests
    have hpair : ∀ pair, pair = (if index % 2 = 1 then (sibling, digest) else (digest, sibling)) →
        H.isDigestValid pair.1 ∧ H.isDigestValid pair.2 := by
      rintro pair rfl
      split
      · exact ⟨hsibling, hdigest⟩
      · exact ⟨hdigest, hsibling⟩
    have hup : H.isDigestValid (if index % 2 = 1 then H.pair sibling digest else H.pair digest sibling) := by
      split
      · exact H.valid_pair hsibling hdigest
      · exact H.valid_pair hdigest hsibling
    rw [climbPairs]
    exact List.forall_mem_cons.mpr ⟨hpair _ rfl, ih hup hrest⟩

/-! The group of control ids that recursion programs are checked against: a tree of a fixed
depth over sorted leaves, filled up with zero digests. -/

variable {Elem : Type} (H : HashFn Elem)

def ALLOWED_CODE_MERKLE_DEPTH : ℕ := 8

inductive MerkleError
  | tooManyLeaves
  | notInGroup
  | verifyFailed
  | panic

structure MerkleGroup where
  depth : ℕ
  leaves : List Digest

structure MerkleProof where
  index : BitVec 32
  digests : List Digest

/-- One level up: the low bit of the index tells the side. -/
def hashUp (cur : Digest) (curIndex : ℕ) (sibling : Digest) : Except MerkleError Digest :=
  if curIndex &&& 1 = 0 then H.hashPair .panic cur sibling else H.hashPair .panic sibling cur

namespace MerkleGroup

def new (leaves : List Digest) : Except MerkleError MerkleGroup :=
  if leaves.length < 1 <<< ALLOWED_CODE_MERKLE_DEPTH then .ok ⟨ALLOWED_CODE_MERKLE_DEPTH, leaves.mergeSort Digest.le⟩
  else .error .tooManyLeaves

def leafOrEmpty (group : MerkleGroup) (index : ℕ) : Digest := group.leaves[index]?.getD .zero

def calcRangeRoot (group : MerkleGroup) (start stop : ℕ) : Except MerkleError Digest :=
  if ¬ start < stop then .error .panic
  else if start + 1 = stop then .ok (group.leafOrEmpty start)
  else
    let mid := (start + stop) / 2
    if mid - start ≠ stop - mid then .error .panic
    else do
      let left ← group.calcRangeRoot start mid
      let right ← group.calcRangeRoot mid stop
      H.hashPair .panic left right
termination_by stop - start

def calcRoot (group : MerkleGroup) : Except MerkleError Digest := group.calcRangeRoot H 0 (1 <<< group.depth)

/-- The siblings from the level `i` on, for `count` levels. -/
def proofDigests (group : MerkleGroup) (i : ℕ) (cur : Digest) (curIndex : ℕ) :
    (count : ℕ) → Except MerkleError (List Digest)
  | 0 => .ok []
  | count + 1 => do
    let siblingStart := (curIndex ^^^ 1) <<< i
    let siblingEnd := siblingStart + (1 <<< i)
    let sibling ← group.calcRangeRoot H siblingStart siblingEnd
    let cur ← hashUp H cur curIndex sibling
    return sibling :: (← group.proofDigests (i + 1) cur (curIndex >>> 1) count)

def getProofByIndex (group : MerkleGroup) (index : ℕ) : Except MerkleError MerkleProof :=
  match group.leaves[index]? with
  | none => .error .panic
  | some cur => do return ⟨.ofNat 32 index, ← group.proofDigests H 0 cur index group.depth⟩

def getProof (group : MerkleGroup) (controlId : Digest) : Except MerkleError MerkleProof :=
  match group.leaves.findIdx? (· == controlId) with
  | none => .error .notInGroup
  | some index => group.getProofByIndex H index

end MerkleGroup

namespace MerkleProof

/-- Hashing from a leaf up along siblings. -/
def rootFrom : Digest → ℕ → List Digest → Except MerkleError Digest
  | cur, _, [] => .ok cur
  | cur, curIndex, sibling :: digests => do
    rootFrom (← hashUp H cur curIndex sibling) (curIndex >>> 1) digests

def root (proof : MerkleProof) (leaf : Digest) : Except MerkleError Digest :=
  rootFrom H leaf proof.index.toNat proof.digests

def verify (proof : MerkleProof) (leaf root : Digest) : Except MerkleError Unit := do
  if (← proof.root H leaf) ≠ root then throw .verifyFailed

end MerkleProof

end VerifiableCompute.Zkp
