import VerifiableCompute.Binfmt.Hash
import VerifiableCompute.Lib.OrderedMap

/-! Memory images: the pages of a memory and the digests of the binary tree over them.
Digests are cached by node, created when they are first needed and marked dirty along
the path to the root by every change. The node numbers are those of a heap, with the
root at 1. -/

namespace VerifiableCompute.Binfmt

open Lib

def pageBytes : ℕ := 1024

def wordSize : ℕ := 4

def pageWords : ℕ := pageBytes / wordSize

abbrev Page := Vector Byte pageBytes

def Page.zero : Page := .replicate pageBytes 0

def Page.write (offset : ℕ) (bytes : List Byte) (page : Page) : Page :=
  .ofFn fun i => if offset ≤ i.val ∧ i.val < offset + bytes.length then bytes.getD (i - offset) 0 else page.get i

/-- Only the subaddress counts. -/
def Page.store (addr : ℕ) (word : BitVec 32) (page : Page) : Page :=
  page.write (addr % pageWords * wordSize) (leBytes wordSize word.toNat)

def memoryPages : ℕ := 2 ^ 22

def merkleTreeDepth : ℕ := 22

/-- The digest of a page and that of a pair of digests. -/
structure TreeHash where
  page : Page → Digest
  pair : Digest → Digest → Digest

/-- Digests that stand for the hashes where an input is fixed. -/
def TreeHash.sample : TreeHash := ⟨fun page => .replicate 32 page[0], fun lhs rhs => lhs.zipWith (· + 2 * ·) rhs⟩

/-- The digest of a subtree of zero pages, by its height. -/
def TreeHash.zero (H : TreeHash) : ℕ → Digest
  | 0 => H.page .zero
  | height + 1 => H.pair (H.zero height) (H.zero height)

/-- The cached digests of the zero subtrees, by their depth. -/
def zeroCache (H : TreeHash) (depth : ℕ) : Digest := H.zero (merkleTreeDepth - depth)

inductive Fault
  | unavailablePage (pageIdx : ℕ)
  | digestMarkedDirty (digestIdx : ℕ)
  | unavailableDigest (digestIdx : ℕ)
  | panic

/-- An error where none is expected. -/
def unwrap {α : Type} : Except Fault α → Except Fault α
  | .ok a => .ok a
  | .error _ => .error .panic

structure MemoryImage where
  pages : OrderedMap ℕ Page
  digests : OrderedMap ℕ Digest
  dirty : Finset ℕ

namespace MemoryImage

variable (H : TreeHash)

/-- The root digest is populated from the zero cache. -/
def default : MemoryImage := ⟨.empty, OrderedMap.empty.insert 1 (zeroCache H 0), ∅⟩

/-- Go up until a node is populated or the root is passed. -/
def nearest (m : MemoryImage) (digestIdx depth : ℕ) : ℕ × ℕ :=
  if digestIdx = 0 ∨ (m.digests.get? digestIdx).isSome then (digestIdx, depth)
  else nearest m (digestIdx / 2) (depth - 1)
termination_by digestIdx
decreasing_by omega

def isZero (digestIdx : ℕ) (m : MemoryImage) : Except Fault Bool :=
  if digestIdx = 0 then .error .panic
  else
    let (digestIdx, depth) := m.nearest digestIdx digestIdx.log2
    match m.digests.get? digestIdx with
    | none => .error .panic
    | some digest => .ok (digest = zeroCache H depth ∨ digestIdx ∈ m.dirty)

def markDirty (digestIdx : ℕ) (m : MemoryImage) : MemoryImage :=
  if digestIdx = 0 then m
  else if digestIdx ∈ m.dirty then m
  else markDirty (digestIdx / 2) { m with dirty := insert digestIdx m.dirty }
termination_by digestIdx
decreasing_by omega

def getPage (pageIdx : ℕ) (m : MemoryImage) : Except Fault Page :=
  match m.pages.get? pageIdx with
  | some page => .ok page
  | none => do
    if ← m.isZero H (memoryPages + pageIdx) then
      return .zero
    else throw (.unavailablePage pageIdx)

def setPage (pageIdx : ℕ) (page : Page) (m : MemoryImage) : MemoryImage :=
  { m with pages := m.pages.insert pageIdx page }.markDirty (memoryPages + pageIdx)

/-- The page that may be written, which is in the map from now on. -/
def getPageMut (pageIdx : ℕ) (m : MemoryImage) : Except Fault (Page × MemoryImage) :=
  match m.pages.get? pageIdx with
  | some page => .ok (page, m.markDirty (memoryPages + pageIdx))
  | none => do
    if ← m.isZero H (memoryPages + pageIdx) then
      let m := m.markDirty (memoryPages + pageIdx)
      return (.zero, { m with pages := m.pages.insert pageIdx .zero })
    else throw (.unavailablePage pageIdx)

def setWord (addr : ℕ) (word : BitVec 32) (m : MemoryImage) : Except Fault MemoryImage := do
  let (page, m) ← m.getPageMut H (addr / pageWords)
  return { m with pages := m.pages.insert (addr / pageWords) (page.store addr word) }

/-- A sum of a byte address, which builds with overflow checks do not let wrap. -/
def addAssign (overflowChecks : Bool) (pos len : ℕ) : Except Fault ℕ :=
  if overflowChecks ∧ 2 ^ 32 ≤ pos + len then .error .panic else .ok ((pos + len) % 2 ^ 32)

def setRegion (overflowChecks : Bool) (pos : ℕ) (data : List Byte) (m : MemoryImage) : Except Fault MemoryImage :=
  if _h : data = [] then .ok m
  else do
    let (page, m) ← m.getPageMut H (pos / pageBytes)
    let copyLen := min (pageBytes - pos % pageBytes) data.length
    let page := page.write (pos % pageBytes) (data.take copyLen)
    let m := { m with pages := m.pages.insert (pos / pageBytes) page }
    let next ← addAssign overflowChecks pos copyLen
    setRegion overflowChecks next (data.drop copyLen) m
termination_by data.length
decreasing_by
  have hlength := List.length_pos_of_ne_nil _h
  have hsub : pos % pageBytes < pageBytes := Nat.mod_lt _ (by decide)
  rw [List.length_drop]
  omega

def setPageWithDigest (pageIdx : ℕ) (page : Page) (digest : Digest) (m : MemoryImage) : MemoryImage :=
  let digestIdx := memoryPages + pageIdx
  { m with
    digests := m.digests.insert digestIdx digest
    pages := m.pages.insert pageIdx page }.markDirty (digestIdx / 2)

def setDigest (digestIdx : ℕ) (digest : Digest) (m : MemoryImage) : MemoryImage :=
  { m with digests := m.digests.insert digestIdx digest }.markDirty (digestIdx / 2)

def getDigest (digestIdx : ℕ) (m : MemoryImage) : Except Fault Digest :=
  if digestIdx ∈ m.dirty then throw (.digestMarkedDirty digestIdx)
  else
    match m.digests.get? digestIdx with
    | some digest => .ok digest
    | none => do
      if ← m.isZero H digestIdx then
        return zeroCache H digestIdx.log2
      else throw (.unavailableDigest digestIdx)

/-- The digest of a child, which is set to that of zero pages if it is not populated. -/
def populate (digestIdx childDepth : ℕ) (m : MemoryImage) : Digest × MemoryImage :=
  match m.digests.get? digestIdx with
  | some digest => (digest, m)
  | none => (zeroCache H childDepth, { m with digests := m.digests.insert digestIdx (zeroCache H childDepth) })

def updateInnerDigest (digestIdx : ℕ) (m : MemoryImage) : Except Fault MemoryImage :=
  if digestIdx = 0 ∨ memoryPages ≤ digestIdx then .error .panic
  else
    let childDepth := digestIdx.log2 + 1
    let (lhs, m) := m.populate H (digestIdx * 2) childDepth
    let (rhs, m) := m.populate H (digestIdx * 2 + 1) childDepth
    .ok { m with digests := m.digests.insert digestIdx (H.pair lhs rhs) }

def updatePageDigest (digestIdx : ℕ) (m : MemoryImage) : Except Fault MemoryImage :=
  if digestIdx < memoryPages then .error .panic
  else
    match m.pages.get? (digestIdx - memoryPages) with
    | none => .error .panic
    | some page => .ok { m with digests := m.digests.insert digestIdx (H.page page) }

def updateDirtyDigest (digestIdx : ℕ) (m : MemoryImage) : Except Fault MemoryImage :=
  if digestIdx < memoryPages then m.updateInnerDigest H digestIdx else m.updatePageDigest H digestIdx

/-- All dirty digests, children before their parents. -/
def updateDigests (m : MemoryImage) : Except Fault MemoryImage :=
  (m.dirty.sort (· ≥ ·)).foldlM (fun m idx => m.updateDirtyDigest H idx) { m with dirty := ∅ }

/-- The digest of a node and of its dirty descendants; `levels` bounds the depth of the
recursion by that of the tree. -/
def updateSubtreeDigests : ℕ → ℕ → MemoryImage → Except Fault MemoryImage
  | 0, _, _ => .error .panic
  | levels + 1, digestIdx, m => do
    if digestIdx ∉ m.dirty then
      return m
    else
      let m := { m with dirty := m.dirty.erase digestIdx }
      let m ← if digestIdx < memoryPages then do
          let m ← updateSubtreeDigests levels (digestIdx * 2) m
          updateSubtreeDigests levels (digestIdx * 2 + 1) m
        else pure m
      m.updateDirtyDigest H digestIdx

def getOrUpdateDigest (digestIdx : ℕ) (m : MemoryImage) : Except Fault (Digest × MemoryImage) := do
  let m ← m.updateSubtreeDigests H (merkleTreeDepth + 1) digestIdx
  return (← m.getDigest H digestIdx, m)

def imageId (m : MemoryImage) : Except Fault (Digest × MemoryImage) := do
  let m ← m.updateDigests H
  return (← unwrap (m.getDigest H 1), m)

def userId (m : MemoryImage) : Except Fault (Digest × MemoryImage) := unwrap (m.getOrUpdateDigest H 2)

def kernelId (m : MemoryImage) : Except Fault (Digest × MemoryImage) := unwrap (m.getOrUpdateDigest H 3)

end MemoryImage

end VerifiableCompute.Binfmt
