import VerifiableCompute.Lib.OrderedMap
import VerifiableCompute.Rv32im.Platform

/-! The paged memory of the executor. Pages are copied from the image into a cache
when they are first used in a segment. A table tagged with an epoch finds them there,
a vector of two bits a node of the page tree says which of them were written, and
the registers are kept apart until the segment is committed. `none` is a panic. -/

namespace VerifiableCompute.Rv32im

open Lib

abbrev Page := Fin 256 → Word

namespace Page

def zero : Page := fun _ => 0

def load (page : Page) (addr : ℕ) : Word := page (Fin.ofNat 256 addr)

def store (addr : ℕ) (word : Word) (page : Page) : Page := Function.update page (Fin.ofNat 256 addr) word

end Page

inductive PageState where
  | unloaded
  | loaded
  | dirty
  deriving DecidableEq

/-- The order of the states. -/
def PageState.rank : PageState → ℕ
  | .unloaded => 0
  | .loaded => 1
  | .dirty => 2

structure PageStates where
  states : ℕ → Bool
  indexes : List ℕ

namespace PageStates

def new : PageStates := ⟨fun _ => false, []⟩

def get (index : ℕ) (s : PageStates) : PageState :=
  if s.states (index * 2) then .dirty else if s.states (index * 2 + 1) then .loaded else .unloaded

def set (index : ℕ) (value : PageState) (s : PageStates) : Option PageStates := do
  let setBefore := s.get index ≠ .unloaded
  let states ← match value with
    | .unloaded => none
    | .loaded => some (Function.update (Function.update s.states (index * 2) false) (index * 2 + 1) true)
    | .dirty => some (Function.update s.states (index * 2) true)
  return ⟨states, if setBefore then s.indexes else s.indexes ++ [index]⟩

def clear (_ : PageStates) : PageStates := ⟨fun _ => false, []⟩

end PageStates

structure PageTable where
  epoch : ℕ
  table : ℕ → BitVec 32

namespace PageTable

def cacheIndexBits : ℕ := 22

def cacheIndexMax : ℕ := 2 ^ cacheIndexBits - 1

def cacheIndexMask : BitVec 32 := BitVec.ofNat 32 cacheIndexMax

def epochBits : ℕ := 32 - cacheIndexBits

def epochMax : ℕ := 2 ^ epochBits - 1

def epochMask : BitVec 32 := BitVec.ofNat 32 (epochMax <<< cacheIndexBits)

/-- The epoch starts from 1 such that all entries are invalid. -/
def new : PageTable := ⟨1, fun _ => 0⟩

def unpackValue (value : BitVec 32) : ℕ × ℕ :=
  (((value &&& epochMask) >>> cacheIndexBits).toNat, (value &&& cacheIndexMask).toNat)

def packValue (epoch cacheIdx : ℕ) : BitVec 32 :=
  BitVec.ofNat 32 epoch <<< cacheIndexBits ||| BitVec.ofNat 32 cacheIdx

def get (index : ℕ) (t : PageTable) : Option ℕ :=
  let (epoch, cacheIdx) := unpackValue (t.table index)
  if epoch = t.epoch then some cacheIdx else none

def set (index cacheIdx : ℕ) (t : PageTable) : Option PageTable :=
  if cacheIdx ≤ cacheIndexMax then some { t with table := Function.update t.table index (packValue t.epoch cacheIdx) }
  else none

/-- The next epoch, or a new table when there is none. -/
def clear (t : PageTable) : PageTable :=
  if t.epoch < epochMax then { t with epoch := t.epoch + 1 } else ⟨1, fun _ => 0⟩

end PageTable

abbrev WorkingImage := OrderedMap ℕ Page

/-- A missing page is inserted as zeros. -/
def WorkingImage.getPage (pageIdx : ℕ) (image : WorkingImage) : Page × WorkingImage :=
  match image.get? pageIdx with
  | some page => (page, image)
  | none => (.zero, image.insert pageIdx .zero)

/-- The pages that are present, and the other pages that the digests show to be zero. -/
structure MemoryImage where
  pages : OrderedMap ℕ Page
  isZero : ℕ → Bool

def MemoryImage.getPage (pageIdx : ℕ) (image : MemoryImage) : Option Page :=
  match image.pages.get? pageIdx with
  | some page => some page
  | none => if image.isZero pageIdx then some .zero else none

def pageCycles : ℕ := 322
def nodeCycles : ℕ := 13
def reservedPagingCycles : ℕ := 10

inductive PageTraceEvent where
  | pageIn (cycles : ℕ)
  | pageOut (cycles : ℕ)

inductive MemoryError where
  | invalidPeekAddress (addr : ℕ)
  | invalidLoadAddress (addr : ℕ)
  | invalidStoreAddress (addr : ℕ)

structure PagedMemory where
  image : WorkingImage
  pageTable : PageTable
  pageCache : List Page
  pageStates : PageStates
  cycles : ℕ
  userRegisters : Fin 32 → Word
  machineRegisters : Fin 32 → Word
  tracingEnabled : Bool
  traceEvents : List PageTraceEvent

def nodeIdx (pageIdx : ℕ) : ℕ := memoryPages + pageIdx

namespace PagedMemory

def new (image : MemoryImage) (tracingEnabled : Bool) : Option PagedMemory := do
  let page ← image.getPage regsPage
  return {
    image := image.pages
    pageTable := .new
    pageCache := []
    pageStates := .new
    cycles := reservedPagingCycles
    userRegisters := fun idx => page.load (userRegs + idx)
    machineRegisters := fun idx => page.load (machineRegs + idx)
    tracingEnabled := tracingEnabled
    traceEvents := [] }

def reset (m : PagedMemory) : PagedMemory :=
  { m with
    pageTable := m.pageTable.clear
    pageCache := []
    pageStates := m.pageStates.clear
    cycles := reservedPagingCycles }

section

variable (addr : ℕ) (m : PagedMemory)

def tryLoadRegister : Option Word :=
  if userRegs ≤ addr ∧ addr < userRegs + regMax then some (m.userRegisters (Fin.ofNat 32 (addr - userRegs)))
  else if machineRegs ≤ addr ∧ addr < machineRegs + regMax then
    some (m.machineRegisters (Fin.ofNat 32 (addr - machineRegs)))
  else none

/-- `none` when the address is not that of a register. -/
def tryStoreRegister (addr : ℕ) (word : Word) (m : PagedMemory) : Option PagedMemory :=
  if userRegs ≤ addr ∧ addr < userRegs + regMax then
    some { m with userRegisters := Function.update m.userRegisters (Fin.ofNat 32 (addr - userRegs)) word }
  else if machineRegs ≤ addr ∧ addr < machineRegs + regMax then
    some { m with machineRegisters := Function.update m.machineRegisters (Fin.ofNat 32 (addr - machineRegs)) word }
  else none

/-- Add cycles, and an event for them when tracing is on. -/
def charge (event : ℕ → PageTraceEvent) (cycles : ℕ) (m : PagedMemory) : PagedMemory :=
  { m with
    cycles := m.cycles + cycles
    traceEvents := if m.tracingEnabled then m.traceEvents ++ [event cycles] else m.traceEvents }

/-- The cost of a node that goes from a state to a higher one; pages are paid for apart. -/
def payNode (node : ℕ) (state goal : PageState) (m : PagedMemory) : PagedMemory :=
  if node < memoryPages then
    let m := if state = .unloaded then m.charge .pageIn nodeCycles else m
    if goal = .dirty then m.charge .pageOut nodeCycles else m
  else m

/-- Raise a node and its ancestors to a state. -/
def fixupCosts (node : ℕ) (goal : PageState) (m : PagedMemory) : Option PagedMemory :=
  if node = 0 then some m
  else do
    let state := m.pageStates.get node
    let m ← if state.rank < goal.rank then do
        let m := m.payNode node state goal
        let pageStates ← m.pageStates.set node goal
        pure { m with pageStates := pageStates }
      else pure m
    fixupCosts (node / 2) goal m
termination_by node

def pageIn (pageIdx : ℕ) (m : PagedMemory) : Option PagedMemory := do
  let (page, image) := m.image.getPage pageIdx
  let pageTable ← m.pageTable.set pageIdx m.pageCache.length
  let m : PagedMemory := { m with
    image := image
    pageTable := pageTable
    pageCache := m.pageCache ++ [page] }
  fixupCosts (nodeIdx pageIdx) .loaded (m.charge .pageIn pageCycles)

def peekRam : Option (Word × PagedMemory) :=
  match m.pageTable.get (pageIdx addr) with
  | some cacheIdx => do
    let page ← m.pageCache[cacheIdx]?
    return (page.load addr, m)
  | none =>
    let (page, image) := m.image.getPage (pageIdx addr)
    some (page.load addr, { m with image := image })

def peek : Option (Except MemoryError Word × PagedMemory) :=
  if memoryEndAddr ≤ addr then some (.error (.invalidPeekAddress addr), m)
  else match m.tryLoadRegister addr with
    | some word => some (.ok word, m)
    | none => do
      let (word, m) ← m.peekRam addr
      return (.ok word, m)

def loadRam : Option (Word × PagedMemory) := do
  let (cacheIdx, m) ← match m.pageTable.get (pageIdx addr) with
    | some cacheIdx => some (cacheIdx, m)
    | none => do
      let m ← m.pageIn (pageIdx addr)
      let cacheIdx ← m.pageTable.get (pageIdx addr)
      pure (cacheIdx, m)
  let page ← m.pageCache[cacheIdx]?
  return (page.load addr, m)

def load : Option (Except MemoryError Word × PagedMemory) :=
  if memoryEndAddr ≤ addr then some (.error (.invalidLoadAddress addr), m)
  else match m.tryLoadRegister addr with
    | some word => some (.ok word, m)
    | none => do
      let (word, m) ← m.loadRam addr
      return (.ok word, m)

end

def loadRegister (base : ℕ) (idx : Fin 32) (m : PagedMemory) : Option Word :=
  if base = userRegs then some (m.userRegisters idx)
  else if base = machineRegs then some (m.machineRegisters idx)
  else none

/-- The state of a page that is about to be written; an unloaded page is loaded first. -/
def loadForWriting (pageIdx : ℕ) (m : PagedMemory) : Option (PageState × PagedMemory) :=
  if m.pageStates.get (nodeIdx pageIdx) = .unloaded then do
    let m ← m.pageIn pageIdx
    return (.loaded, m)
  else some (m.pageStates.get (nodeIdx pageIdx), m)

/-- A loaded page becomes dirty, with its ancestors. -/
def markForWriting (node : ℕ) (state : PageState) (m : PagedMemory) : Option PagedMemory :=
  if state = .loaded then do
    let m ← (m.charge .pageOut pageCycles).fixupCosts node .dirty
    let pageStates ← m.pageStates.set node .dirty
    return { m with pageStates := pageStates }
  else some m

/-- The index in the cache of a page that is dirty from now on. -/
def pageForWriting (pageIdx : ℕ) (m : PagedMemory) : Option (ℕ × PagedMemory) := do
  let (state, m) ← m.loadForWriting pageIdx
  let m ← m.markForWriting (nodeIdx pageIdx) state
  let cacheIdx ← m.pageTable.get pageIdx
  if cacheIdx < m.pageCache.length then some (cacheIdx, m) else none

def storeRam (addr : ℕ) (word : Word) (m : PagedMemory) : Option PagedMemory := do
  let (cacheIdx, m) ← m.pageForWriting (pageIdx addr)
  return { m with pageCache := m.pageCache.modify cacheIdx (Page.store addr word) }

def store (addr : ℕ) (word : Word) (m : PagedMemory) : Option (Except MemoryError Unit × PagedMemory) :=
  if memoryEndAddr ≤ addr then some (.error (.invalidStoreAddress addr), m)
  else match m.tryStoreRegister addr word with
    | some m => some (.ok (), m)
    | none => do
      let m ← m.storeRam addr word
      return (.ok (), m)

def storeRegister (base : ℕ) (idx : Fin 32) (word : Word) (m : PagedMemory) : Option PagedMemory :=
  if base = userRegs then some { m with userRegisters := Function.update m.userRegisters idx word }
  else if base = machineRegs then some { m with machineRegisters := Function.update m.machineRegisters idx word }
  else none

/-- Both register files stored into their page. -/
def registersPage (m : PagedMemory) (page : Page) : Page :=
  (List.finRange 32).foldl (fun (page : Page) (idx : Fin 32) =>
    (page.store (machineRegs + idx) (m.machineRegisters idx)).store (userRegs + idx) (m.userRegisters idx)) page

def writeRegisters (m : PagedMemory) : Option PagedMemory := do
  let (cacheIdx, m) ← m.pageForWriting regsPage
  return { m with pageCache := m.pageCache.modify cacheIdx m.registersPage }

/-- Copy the dirty pages among the nodes to the image and to the partial image. -/
def commitNodes (m : PagedMemory) : List ℕ → WorkingImage × WorkingImage → Option (WorkingImage × WorkingImage)
  | [], images => some images
  | node :: nodes, images =>
    if node < memoryPages ∨ m.pageStates.get node ≠ .dirty then commitNodes m nodes images
    else do
      let pageIdx := node - memoryPages
      let cacheIdx ← m.pageTable.get pageIdx
      let page ← m.pageCache[cacheIdx]?
      commitNodes m nodes (images.1.insert pageIdx page, images.2.insert pageIdx page)

def commit (m : PagedMemory) : Option (WorkingImage × PagedMemory) := do
  let m ← m.writeRegisters
  let sortedKeys := m.pageStates.indexes.insertionSort (· ≤ ·)
  let (image, partialImage) ← m.commitNodes sortedKeys (m.image, .empty)
  return (partialImage, { m with image := image })

end PagedMemory

end VerifiableCompute.Rv32im
