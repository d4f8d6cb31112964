import VerifiableCompute.Binfmt.Hash

/-! The claims about an execution. They are structs whose fields may be pruned: a
pruned field holds the digest of its value in place of the value. -/

namespace VerifiableCompute.Claim

open Lib Binfmt

/-- Either a value or its digest. -/
inductive MaybePruned (T : Type)
  | value (v : T)
  | pruned (digest : Digest)

/-- Types with a digest, for each hash of byte strings. -/
class Digestible (T : Type) where
  digest : Sha256 → T → Digest

export Digestible (digest)

structure SystemState where
  pc : BitVec 32
  merkleRoot : Digest
  deriving DecidableEq

inductive ExitCode
  | halted (userExit : BitVec 32)
  | paused (userExit : BitVec 32)
  | systemSplit
  | sessionLimit
  deriving DecidableEq

def ExitCode.intoPair : ExitCode → BitVec 32 × BitVec 32
  | .halted userExit => (0, userExit)
  | .paused userExit => (1, userExit)
  | .systemSplit => (2, 0)
  | .sessionLimit => (2, 2)

/-- No input can be constructed; only its digest is accessible. -/
inductive Input

structure Assumption where
  claim : Digest
  controlRoot : Digest
  deriving DecidableEq

structure Assumptions where
  list : List (MaybePruned Assumption)

structure Output where
  journal : MaybePruned (List Byte)
  assumptions : MaybePruned Assumptions

structure ReceiptClaim where
  pre : MaybePruned SystemState
  post : MaybePruned SystemState
  exitCode : ExitCode
  input : MaybePruned (Option Input)
  output : MaybePruned (Option Output)

structure Work where
  nonceMin : PovwNonce
  nonceMax : PovwNonce
  value : BitVec 64
  deriving DecidableEq

structure WorkClaim (C : Type) where
  claim : MaybePruned C
  work : MaybePruned Work

/-- An execution that ended normally, with an image and a journal. -/
def ReceiptClaim.ok (imageId : Digest) (journal : MaybePruned (List Byte)) : ReceiptClaim where
  pre := .pruned imageId
  post := .value ⟨0, .zero⟩
  exitCode := .halted 0
  input := .value none
  output := .value (some ⟨journal, .pruned .zero⟩)

variable {T C : Type}

instance [Digestible T] : Digestible (MaybePruned T) where
  digest S
    | .value v => digest S v
    | .pruned digest => digest

instance [Digestible T] : Digestible (Option T) where
  digest S
    | some v => digest S v
    | none => .zero

instance : Digestible (List Byte) where
  digest S bytes := S bytes

instance : Digestible SystemState where
  digest S s := taggedStruct S "risc0.SystemState" [s.merkleRoot] [s.pc]

instance : Digestible Input where
  digest _ x := nomatch x

instance : Digestible Assumption where
  digest S a := taggedStruct S "risc0.Assumption" [a.claim, a.controlRoot] []

instance : Digestible Assumptions where
  digest S as := taggedList S "risc0.Assumptions" (as.list.map (digest S))

instance : Digestible Output where
  digest S o := taggedStruct S "risc0.Output" [digest S o.journal, digest S o.assumptions] []

instance : Digestible ReceiptClaim where
  digest S c :=
    let (sysExit, userExit) := c.exitCode.intoPair
    taggedStruct S "risc0.ReceiptClaim" [digest S c.input, digest S c.pre, digest S c.post, digest S c.output]
      [sysExit, userExit]

def u64ToU16s (x : BitVec 64) : List (BitVec 16) := (List.range 4).map fun i => (x >>> (16 * i)).setWidth 16

def Work.encodeToSeal (w : Work) : List (BitVec 32) :=
  w.nonceMin.encodeToSeal ++ w.nonceMax.encodeToSeal ++ (u64ToU16s w.value).map (·.setWidth 32)

instance : Digestible Work where
  digest S w := taggedStruct S "risc0.Work" [] w.encodeToSeal

instance [Digestible C] : Digestible (WorkClaim C) where
  digest S w := taggedStruct S "risc0.WorkClaim" [digest S w.claim, digest S w.work] []

/-! Merging of two claims: the fields populated in either are populated in the
result. -/

/-- The digests of the two values that are not digest equal. -/
structure MergeInequalityError where
  left : Digest
  right : Digest

class Merge (T : Type) extends Digestible T where
  merge : Sha256 → T → T → Except MergeInequalityError T

export Merge (merge)

variable {T C : Type} (S : Sha256)

/-- The call's result, and the value that `self` is left with. -/
def mergeWith [Merge T] (self other : T) : Except MergeInequalityError Unit × T :=
  match merge S self other with
  | .ok r => (.ok (), r)
  | .error e => (.error e, self)

def inequality [Digestible T] (left right : T) : MergeInequalityError := ⟨digest S left, digest S right⟩

/-- Values without pruned fields merge when they are equal. -/
def mergeLeaf [Digestible T] [DecidableEq T] (self other : T) : Except MergeInequalityError T :=
  if self ≠ other then .error (inequality S self other) else .ok self

instance : Merge SystemState where
  merge S := mergeLeaf S

instance : Merge Assumption where
  merge S := mergeLeaf S

instance : Merge Work where
  merge S := mergeLeaf S

instance : Merge (List Byte) where
  merge S := mergeLeaf S

instance [Merge T] : Merge (MaybePruned T) where
  merge S self other :=
    let checkEq : Except MergeInequalityError Unit :=
      if digest S self ≠ digest S other then .error (inequality S self other) else .ok ()
    match self, other with
    | .value left, .value right => do
      return .value (← merge S left right)
    | .value _, .pruned _ => do
      checkEq
      return self
    | .pruned _, .value _ => do
      checkEq
      return other
    | .pruned _, .pruned _ => do
      checkEq
      return self

instance [Merge T] : Merge (Option T) where
  merge S self other :=
    match self, other with
    | some left, some right => do
      return some (← merge S left right)
    | none, none => .ok none
    | _, _ => .error (inequality S self other)

instance : Merge Assumptions where
  merge S self other :=
    if self.list.length ≠ other.list.length then
      .error (inequality S self other)
    else do
      return ⟨← (self.list.zip other.list).mapM fun p => merge S p.1 p.2⟩

instance : Merge Input where
  merge _ self _ := nomatch self

instance : Merge Output where
  merge S self other := do
    return { journal := ← merge S self.journal other.journal
             assumptions := ← merge S self.assumptions other.assumptions }

instance : Merge ReceiptClaim where
  merge S self other :=
    if self.exitCode ≠ other.exitCode then
      .error (inequality S self other)
    else do
      return { pre := ← merge S self.pre other.pre
               post := ← merge S self.post other.post
               exitCode := self.exitCode
               input := ← merge S self.input other.input
               output := ← merge S self.output other.output }

instance [Merge C] : Merge (WorkClaim C) where
  merge S self other := do
    return { claim := ← merge S self.claim other.claim
             work := ← merge S self.work other.work }

end VerifiableCompute.Claim
