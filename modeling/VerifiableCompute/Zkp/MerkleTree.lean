import VerifiableCompute.Zkp.Iop

/-! Commitments to matrices: the tree of the prover is a heap over the hashes of the columns,
the verifier keeps a top layer of it and the layers above. -/

namespace VerifiableCompute.Zkp

open Lib ElemWords

variable {Elem σ : Type} [ElemWords Elem] (H : HashFn Elem)

/-- The logarithm of the low 32 bits; of zero there is none, and the subtraction overflows. -/
def toPo2 (x : ℕ) : Except VerificationError ℕ :=
  if x % 2 ^ 32 = 0 then .error .panic else .ok (Nat.log2 (x % 2 ^ 32))

structure MerkleTreeParams where
  rowSize : ℕ
  colSize : ℕ
  layers : ℕ
  topSize : ℕ

/-- The last layer before the first that has more nodes than there are queries. -/
def topLayer (queries : ℕ) : List ℕ → ℕ → ℕ
  | [], top => top
  | i :: layers, top => if 1 <<< i > queries then top else topLayer queries layers i

def MerkleTreeParams.new (rowSize colSize queries : ℕ) : Except VerificationError MerkleTreeParams := do
  let layers ← toPo2 rowSize
  require (1 <<< layers = rowSize) .panic
  return ⟨rowSize, colSize, layers, 1 <<< topLayer queries (List.range' 1 (layers - 1)) 0⟩

structure MerkleTreeProver (Elem : Type) where
  params : MerkleTreeParams
  matrix : List Elem
  nodes : ℕ → Digest
  root : Digest

/-- A column of the matrix, whose `rows` values of one column of the buffer are next to each other. -/
def columnOf [Inhabited Elem] (matrix : List Elem) (rows cols idx : ℕ) : List Elem :=
  (List.range cols).map fun i => matrix.getD (i * rows + idx) default

def hashRows [Inhabited Elem] (matrix : List Elem) (rows : ℕ) (nodes : ℕ → Digest) : ℕ → Digest := fun k =>
  if rows ≤ k ∧ k < rows + rows then H.hashElemSlice (columnOf matrix rows (matrix.length / rows) (k - rows)) else nodes k

/-- One layer from the layer below it. Hashes are valid, so that none of them panics. -/
def hashFold (inputSize outputSize : ℕ) (nodes : ℕ → Digest) : ℕ → Digest := fun k =>
  if outputSize ≤ k ∧ k < outputSize + outputSize then
    H.pair (nodes (inputSize + 2 * (k - outputSize))) (nodes (inputSize + (2 * (k - outputSize) + 1)))
  else nodes k

namespace MerkleTreeProver

def new [Inhabited Elem] (matrix : List Elem) (rows cols queries : ℕ) : Except VerificationError (MerkleTreeProver Elem) := do
  require (matrix.length = rows * cols) .panic
  let params ← MerkleTreeParams.new rows cols queries
  let nodes := hashRows H matrix rows fun _ => .zero
  let nodes := (List.range params.layers).reverse.foldl (fun nodes i => hashFold H (1 <<< i * 2) (1 <<< i) nodes) nodes
  return ⟨params, matrix, nodes, nodes 1⟩

def top (tree : MerkleTreeProver Elem) : List Digest := (List.range tree.params.topSize).map fun i => tree.nodes (tree.params.topSize + i)

def commit (rng : Rng σ) (tree : MerkleTreeProver Elem) (iop : WriteIOP σ) : WriteIOP σ :=
  (iop.writePodSlice tree.top).commit rng tree.root

def getColumn [Inhabited Elem] (tree : MerkleTreeProver Elem) (idx : ℕ) : Except VerificationError (List Elem) := do
  require (idx < tree.params.rowSize) .panic
  return columnOf tree.matrix tree.params.rowSize tree.params.colSize idx

/-- The other children on the way up to the top layer, which is not empty. -/
def digestsUp (nodes : ℕ → Digest) (topSize idx : ℕ) : List Digest :=
  if 0 < topSize ∧ 2 * topSize ≤ idx then
    nodes (2 * (idx / 2) + (1 - idx % 2)) :: digestsUp nodes topSize (idx / 2)
  else []
termination_by idx

def getDigests (tree : MerkleTreeProver Elem) (idx : ℕ) : Except VerificationError (List Digest) := do
  require (idx < tree.params.rowSize) .panic
  return digestsUp tree.nodes tree.params.topSize (idx + tree.params.rowSize)

def prove [Inhabited Elem] (tree : MerkleTreeProver Elem) (idx : ℕ) (iop : WriteIOP σ) :
    Except VerificationError (List Elem × WriteIOP σ) := do
  let out ← tree.getColumn idx
  let digests ← tree.getDigests idx
  return (out, (iop.writeFieldElemSlice out).writePodSlice digests)

end MerkleTreeProver

structure MerkleTreeVerifier where
  params : MerkleTreeParams
  top : List Digest
  rest : List Digest

namespace MerkleTreeVerifier

def idxToTop (params : MerkleTreeParams) (idx : ℕ) : ℕ := idx - params.topSize

def idxToRest (idx : ℕ) : ℕ := idx - 1

/-- Reading a slot of the buffer that was not written is an error of its own. -/
def readSlot (fillRest : List (Option Digest)) (i : ℕ) : Except VerificationError Digest :=
  match fillRest[i]? with
  | some (some digest) => .ok digest
  | some none => .error .uninitialized
  | none => .error .panic

def writeSlot (i : ℕ) (digest : Digest) (fillRest : List (Option Digest)) : Except VerificationError (List (Option Digest)) :=
  if i < fillRest.length then .ok (fillRest.set i (some digest)) else .error .panic

def readTop (top : List Digest) (i : ℕ) : Except VerificationError Digest :=
  match top[i]? with
  | some digest => .ok digest
  | none => .error .panic

/-- The layer above the top one. -/
def fillFromTop (params : MerkleTreeParams) (top : List Digest) (fillRest : List (Option Digest)) (i : ℕ) :
    Except VerificationError (List (Option Digest)) := do
  let topIdx := idxToTop params (2 * i)
  let left ← readTop top topIdx
  let right ← readTop top (topIdx + 1)
  require (H.isDigestValid left ∧ H.isDigestValid right) .receiptFormatError
  writeSlot (idxToRest i) (← H.hashPair .panic left right) fillRest

/-- The layers above that one. -/
def fillFromRest (fillRest : List (Option Digest)) (i : ℕ) : Except VerificationError (List (Option Digest)) := do
  let upperRestIdx := idxToRest (i * 2)
  let left ← readSlot fillRest upperRestIdx
  let right ← readSlot fillRest (upperRestIdx + 1)
  writeSlot (idxToRest i) (← H.hashPair .panic left right) fillRest

/-- The buffer taken for initialised. -/
def setLen : List (Option Digest) → Except VerificationError (List Digest)
  | [] => .ok []
  | some digest :: slots => do return digest :: (← setLen slots)
  | none :: _ => .error .uninitialized

/-- All nodes above the top layer. `Vec::with_capacity` may reserve more slots than it is asked for; here the
spare capacity is exactly what was asked for. -/
def fill (params : MerkleTreeParams) (top : List Digest) : Except VerificationError (List Digest) := do
  let fillRest := List.replicate (params.topSize - 1) none
  let aboveTop := if fillRest ≠ [] then
    (List.range' (params.topSize / 2) (params.topSize - params.topSize / 2)).reverse else []
  let fillRest ← aboveTop.foldlM (fillFromTop H params top) fillRest
  let fillRest ← (List.range' 1 (params.topSize / 2 - 1)).reverse.foldlM (fillFromRest H) fillRest
  setLen fillRest

def root (verifier : MerkleTreeVerifier) : Except VerificationError Digest :=
  if verifier.rest = [] then readTop verifier.top (idxToTop verifier.params 1)
  else readTop verifier.rest (idxToRest 1)

def new (rng : Rng σ) (rowSize colSize queries : ℕ) : Read σ MerkleTreeVerifier := do
  let params ← MerkleTreeParams.new rowSize colSize queries
  let top ← readPodSlice params.topSize
  let rest ← fill H params top
  let verifier : MerkleTreeVerifier := ⟨params, top, rest⟩
  ReadIOP.commit rng (← verifier.root)
  return verifier

/-- The low bit tells whether the node is the right or the left child. -/
def hashBeside (lowBit : ℕ) (other cur : Digest) : Except VerificationError Digest :=
  if lowBit = 1 then H.hashPair .panic other cur else H.hashPair .panic cur other

/-- Hashing up from a node to the top layer, which is not empty. -/
def hashToTop (topSize : ℕ) (cur : Digest) (idx : ℕ) : Read σ (Digest × ℕ) :=
  if 0 < topSize ∧ 2 * topSize ≤ idx then do
    let lowBit := idx % 2
    let other := (← readPodSlice 1).headD .zero
    require (H.isDigestValid other) VerificationError.receiptFormatError
    let cur ← hashBeside H lowBit other cur
    hashToTop topSize cur (idx / 2)
  else return (cur, idx)
termination_by idx

def presentHash (verifier : MerkleTreeVerifier) (idx : ℕ) : Except VerificationError Digest :=
  if idx ≥ verifier.params.topSize then readTop verifier.top (idxToTop verifier.params idx)
  else readTop verifier.rest (idxToRest idx)

def verify (verifier : MerkleTreeVerifier) (idx : ℕ) : Read σ (List Elem) := do
  require (idx < verifier.params.rowSize) (VerificationError.merkleQueryOutOfRange idx verifier.params.rowSize)
  let out ← readFieldElemSlice Elem verifier.params.colSize
  let (cur, idx) ← hashToTop H verifier.params.topSize (H.hashElemSlice out) (idx + verifier.params.rowSize)
  let presentHash ← verifier.presentHash idx
  require (presentHash = cur) VerificationError.invalidProof
  return out

end MerkleTreeVerifier

end VerifiableCompute.Zkp
