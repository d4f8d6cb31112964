import VerifiableCompute.Binfmt.Hash
import VerifiableCompute.Lib.CompleteTree
import VerifiableCompute.Lib.OrderedMap

/-! Trees of used nonces. A job uses a range of segments, a work log holds jobs by number
and a work set holds logs by id; each commits to its nonces by the root of a complete
binary tree whose leaves are bitmaps of 256 positions. -/

namespace VerifiableCompute.WorkTree

open Lib Binfmt WordOrder

abbrev Bitmap := BitVec 256

/-- A shift by the whole width gives zero. -/
def Bitmap.fromBitRange (min max : ℕ) : Bitmap := ((1#256 <<< max) - 1#256) <<< min

inductive TreeError
  | logIdOccupied (id : PovwLogId)
  | jobIdOccupied (id : BitVec 64)
  | bitmapNonInclusion
  | bitmapInclusion
  | pathRootMismatch
  | panic

variable (sha : Sha256)

def join (left right : Digest) : Digest := sha (left.toList ++ right.toList)

def leafBytes (leaf : Bitmap) : List Byte := asciiBytes "POVWLEAF" ++ leBytes 32 leaf.toNat

def hashLeaf (leaf : Bitmap) : Digest := sha (leafBytes leaf)

/-- The table of constants, by the recurrence that it is checked against. -/
def emptySubtreeRoots : ℕ → Digest
  | 0 => hashLeaf sha 0
  | i + 1 => join sha (emptySubtreeRoots i) (emptySubtreeRoots i)

def fullSubtreeRoots : ℕ → Digest
  | 0 => hashLeaf sha (BitVec.allOnes 256)
  | i + 1 => join sha (fullSubtreeRoots i) (fullSubtreeRoots i)

/-- The level above: each key once, with the empty root where a child is missing. -/
def nextLevel (i : ℕ) (level : OrderedMap ℕ Digest) : OrderedMap ℕ Digest :=
  (level.entries.map fun e => e.1 >>> 1).foldl (fun next idx =>
    next.insert idx (join sha ((level.get? (idx <<< 1)).getD (emptySubtreeRoots sha i))
      ((level.get? ((idx <<< 1) ^^^ 1)).getD (emptySubtreeRoots sha i)))) .empty

/-- The roots of the trees that are under a node some levels above them. -/
def startLevel {w : ℕ} {V : Type} (commit : V → Except TreeError Digest) (heightOffset index : ℕ)
    (trees : OrderedMap (BitVec w) V) : Except TreeError (OrderedMap ℕ Digest) := do
  let level ← (trees.entries.filter fun e => e.1.toNat >>> heightOffset = index).mapM fun e => do
    return (e.1.toNat, ← commit e.2)
  return .ofList level

def levelRoot (base height : ℕ) (level : OrderedMap ℕ Digest) : Except TreeError Digest :=
  if level.entries = [] then .ok (emptySubtreeRoots sha height)
  else
    let top := (List.range' base (height - base)).foldl (fun level i => nextLevel sha i level) level
    match top.entries with
    | [e] => .ok e.2
    | _ => .error .panic

/-- The segments up to the largest one are used. -/
structure Job where
  indexMax : Option (BitVec 32)

namespace Job

def treeHeight : ℕ := 24

def EMPTY : Job := ⟨none⟩

def new (indexMax : BitVec 32) : Job := ⟨some indexMax⟩

def isEmpty (job : Job) : Bool := job.indexMax.isNone

def contains (job : Job) (index : ℕ) : Bool :=
  match job.indexMax with
  | none => false
  | some max => index ≤ max.toNat

def bitmapAt (job : Job) (index : ℕ) : Bitmap :=
  match job.indexMax with
  | none => 0
  | some max =>
    let bitmapIndex := index >>> 8
    let bitmapIndexMax := max.toNat >>> 8
    if bitmapIndex < bitmapIndexMax then .allOnes 256
    else if bitmapIndex = bitmapIndexMax then .fromBitRange 0 ((max.toNat &&& 0xff) + 1)
    else 0

/-- The root over the largest segment at a height, and what is left of its index. All to
the left is full, all to the right empty. -/
def boundarySubtree (job : Job) (max : BitVec 32) : ℕ → Digest × ℕ
  | 0 => (hashLeaf sha (job.bitmapAt max.toNat), max.toNat >>> 8)
  | i + 1 =>
    let (node, index) := boundarySubtree job max i
    let node := if index &&& 1 = 1 then join sha (fullSubtreeRoots sha i) node else join sha node (emptySubtreeRoots sha i)
    (node, index >>> 1)

/-- A shift by the whole width or more gives zero, as for unbounded numbers here. -/
def subtreeRoot (job : Job) (height index : ℕ) : Except TreeError Digest :=
  if treeHeight < height then .error .panic
  else if ¬ index < 1 <<< (treeHeight - height) then .error .panic
  else if height = 0 then .ok (hashLeaf sha (job.bitmapAt (index <<< 8)))
  else match job.indexMax with
    | none => .ok (emptySubtreeRoots sha height)
    | some max =>
      let boundaryLevelIndex := max.toNat >>> (8 + height)
      if index < boundaryLevelIndex then .ok (fullSubtreeRoots sha height)
      else if index = boundaryLevelIndex then .ok (boundarySubtree sha job max height).1
      else .ok (emptySubtreeRoots sha height)

def commit (job : Job) : Except TreeError Digest := job.subtreeRoot sha treeHeight 0

end Job

structure WorkLog where
  jobs : OrderedMap (BitVec 64) Job

namespace WorkLog

def treeHeight : ℕ := Job.treeHeight + 64

def EMPTY : WorkLog := ⟨.empty⟩

def add (id : BitVec 64) (job : Job) (log : WorkLog) : Except TreeError WorkLog :=
  match log.jobs.get? id with
  | none => .ok ⟨log.jobs.insert id job⟩
  | some _ => .error (.jobIdOccupied id)

def job (log : WorkLog) (id : BitVec 64) : Job := (log.jobs.get? id).getD .EMPTY

def contains (log : WorkLog) (seq : ℕ) : Bool :=
  match log.jobs.get? (.ofNat 64 (seq >>> 32)) with
  | none => false
  | some job => job.contains (seq % 2 ^ 32)

def bitmapAt (log : WorkLog) (index : ℕ) : Bitmap := (log.job (.ofNat 64 (index >>> 32))).bitmapAt (index % 2 ^ 32)

def subtreeRoot (log : WorkLog) (height index : ℕ) : Except TreeError Digest :=
  if treeHeight < height then .error .panic
  else if ¬ index < 1 <<< (treeHeight - height) then .error .panic
  else if height ≤ Job.treeHeight then
    let subjobIndexBits := Job.treeHeight - height
    let subjobIndex := index &&& ((1 <<< subjobIndexBits) - 1)
    let jobIndex := index >>> subjobIndexBits
    (log.job (.ofNat 64 jobIndex)).subtreeRoot sha height subjobIndex
  else do
    let heightOffset := height - Job.treeHeight
    levelRoot sha Job.treeHeight height (← startLevel (·.commit sha) heightOffset index log.jobs)

def commit (log : WorkLog) : Except TreeError Digest := log.subtreeRoot sha treeHeight 0

end WorkLog

structure WorkSet where
  logs : OrderedMap PovwLogId WorkLog

namespace WorkSet

def treeHeight : ℕ := WorkLog.treeHeight + 160

def log (set : WorkSet) (id : PovwLogId) : WorkLog := (set.logs.get? id).getD .EMPTY

def contains (set : WorkSet) (nonce : ℕ) : Bool :=
  match set.logs.get? (.ofNat 160 (nonce >>> 96)) with
  | none => false
  | some log => log.contains (nonce % 2 ^ 96)

def bitmapAt (set : WorkSet) (index : ℕ) : Bitmap := (set.log (.ofNat 160 (index >>> 96))).bitmapAt (index % 2 ^ 96)

def subtreeRoot (set : WorkSet) (height index : ℕ) : Except TreeError Digest :=
  if treeHeight < height then .error .panic
  else if ¬ index < 1 <<< (treeHeight - height) then .error .panic
  else if height < WorkLog.treeHeight then
    let sublogIndexBits := WorkLog.treeHeight - height
    let sublogIndex := index &&& ((1 <<< sublogIndexBits) - 1)
    let logIndex := index >>> sublogIndexBits
    (set.log (.ofNat 160 logIndex)).subtreeRoot sha height sublogIndex
  else do
    let heightOffset := height - WorkLog.treeHeight
    levelRoot sha WorkLog.treeHeight height (← startLevel (·.commit sha) heightOffset index set.logs)

def commit (set : WorkSet) : Except TreeError Digest := set.subtreeRoot sha treeHeight 0

end WorkSet

/-- The siblings of the subtree roots on the way up, for `count` levels from the height `i`. -/
def siblings (subtreeRoot : ℕ → ℕ → Except TreeError Digest) :
    ℕ → ℕ → (count : ℕ) → Except TreeError (List.Vector Digest count)
  | _, _, 0 => .ok .nil
  | i, index, count + 1 => do
    let sibling ← subtreeRoot i (index ^^^ 1)
    return sibling ::ᵥ (← siblings subtreeRoot (i + 1) (index >>> 1) count)

/-- The node over a path, and what is left of the index. -/
def pathRoot : Digest → ℕ → List Digest → Digest × ℕ
  | node, index, [] => (node, index)
  | node, index, pathNode :: path =>
    pathRoot (if index &&& 1 = 1 then join sha pathNode node else join sha node pathNode) (index >>> 1) path

structure Opening (height : ℕ) where
  bitmap : Bitmap
  path : List.Vector Digest height

namespace Opening

variable {height : ℕ}

def root (opening : Opening height) (index : ℕ) : Except TreeError Digest :=
  let (node, index) := pathRoot sha (hashLeaf sha opening.bitmap) (index >>> 8) opening.path.toList
  if index = 0 then .ok node else .error .panic

def verifyInclusion (opening : Opening height) (commit : Digest) (index : ℕ) : Except TreeError Unit := do
  if ¬ opening.bitmap.getLsbD (index &&& 0xff) then throw .bitmapNonInclusion
  if (← opening.root sha index) ≠ commit then throw .pathRootMismatch

def verifyNoninclusion (opening : Opening height) (commit : Digest) (index : ℕ) : Except TreeError Unit := do
  if opening.bitmap.getLsbD (index &&& 0xff) then throw .bitmapInclusion
  if (← opening.root sha index) ≠ commit then throw .pathRootMismatch

end Opening

/-- An opening at a level, which leaves out the subtree below it. -/
structure SubtreeOpening (height level : ℕ) where
  path : List.Vector Digest (height - level)

namespace SubtreeOpening

variable {height level : ℕ}

def root (opening : SubtreeOpening height level) (subtreeRoot : Digest) (index : ℕ) : Digest :=
  (pathRoot sha subtreeRoot (index >>> (level + 8)) opening.path.toList).1

def verifyEmpty (opening : SubtreeOpening height level) (commit : Digest) (index : ℕ) : Except TreeError Unit :=
  if opening.root sha (emptySubtreeRoots sha level) index ≠ commit then .error .pathRootMismatch else .ok ()

end SubtreeOpening

def proveOpening (bitmapAt : ℕ → Bitmap) (subtreeRoot : ℕ → ℕ → Except TreeError Digest) (height index : ℕ) :
    Except TreeError (Opening height) := do
  return ⟨bitmapAt index, ← siblings subtreeRoot 0 (index >>> 8) height⟩

def Job.proveOpening (job : Job) (index : ℕ) : Except TreeError (Opening Job.treeHeight) :=
  WorkTree.proveOpening job.bitmapAt (job.subtreeRoot sha) Job.treeHeight index

def WorkLog.proveOpening (log : WorkLog) (seq : ℕ) : Except TreeError (Opening WorkLog.treeHeight) :=
  WorkTree.proveOpening log.bitmapAt (log.subtreeRoot sha) WorkLog.treeHeight seq

def WorkLog.proveJobOpening (log : WorkLog) (jobId : ℕ) :
    Except TreeError (SubtreeOpening WorkLog.treeHeight Job.treeHeight) := do
  return ⟨← siblings (log.subtreeRoot sha) Job.treeHeight jobId (WorkLog.treeHeight - Job.treeHeight)⟩

def WorkSet.proveOpening (set : WorkSet) (nonce : ℕ) : Except TreeError (Opening WorkSet.treeHeight) :=
  WorkTree.proveOpening set.bitmapAt (set.subtreeRoot sha) WorkSet.treeHeight nonce

end VerifiableCompute.WorkTree
