import VerifiableCompute.Lib.RingBuffer
import VerifiableCompute.Lib.Sha256
import VerifiableCompute.Rv32im.HostRead

/-! The hashing call. It keeps none of the eight working variables: it reads them from
ring buffers by their distance, across the borders of blocks, and stores the state
from its last word to its first. -/

namespace VerifiableCompute.Rv32im

open Lib PagedMemory MachineView

/-- On a little-endian host. -/
def toBe (word : Word) : Word := fromLeBytes (toLeBytes word).reverse

namespace Sha2

open Executor Risc0Machine

def maxShaCount : Word := 10

def blockWords : ℕ := 16

def loadStateCycles : ℕ := 4

def loadDataCycles : ℕ := blockWords

def mixCycles : ℕ := 48

def storeCycles : ℕ := 4

def sha2Back : ℕ := loadStateCycles + loadDataCycles + mixCycles

scoped instance instNeZeroSha2Back : NeZero sha2Back := ⟨by decide⟩

scoped instance instNeZeroBlockWords : NeZero blockWords := ⟨by decide⟩

structure Sha2State where
  stateInAddr : ℕ
  stateOutAddr : ℕ
  dataAddr : ℕ
  count : ℕ
  kAddr : ℕ
  oldA : RingBuffer Word sha2Back
  oldE : RingBuffer Word sha2Back
  oldW : RingBuffer Word blockWords

def onSha2Cycle : Exec Unit := incUserCycles 1

def ch (x y z : Word) : Word := (x &&& y) ^^^ (~~~x &&& z)

def maj (x y z : Word) : Word := (x &&& y) ^^^ (x &&& z) ^^^ (y &&& z)

def epsilon0 (x : Word) : Word := x.rotateRight 2 ^^^ x.rotateRight 13 ^^^ x.rotateRight 22

def epsilon1 (x : Word) : Word := x.rotateRight 6 ^^^ x.rotateRight 11 ^^^ x.rotateRight 25

def sigma0 (x : Word) : Word := x.rotateRight 7 ^^^ x.rotateRight 18 ^^^ x >>> 3

def sigma1 (x : Word) : Word := x.rotateRight 17 ^^^ x.rotateRight 19 ^^^ x >>> 10

def computeAe (oldA oldE : RingBuffer Word sha2Back) (k w : Word) : Word × Word :=
  let a := oldA.back 1
  let b := oldA.back 2
  let c := oldA.back 3
  let d := oldA.back 4
  let e := oldE.back 1
  let f := oldE.back 2
  let g := oldE.back 3
  let h := oldE.back 4
  let t₁ := h + epsilon1 e + ch e f g + k + w
  let t₂ := epsilon0 a + maj a b c
  (t₁ + t₂, d + t₁)

def computeW (oldW : RingBuffer Word blockWords) : Word :=
  sigma1 (oldW.back 2) + oldW.back 7 + sigma0 (oldW.back 15) + oldW.back 16

def Sha2State.mixed (k w : Word) (r : Sha2State) : Sha2State :=
  let ae := computeAe r.oldA r.oldE k w
  { r with oldW := r.oldW.push w, oldA := r.oldA.push ae.1, oldE := r.oldE.push ae.2 }

section

variable (r : Sha2State) (i : ℕ)

def loadState : Exec Sha2State := do
  onSha2Cycle
  let a ← loadU32 .record (r.stateInAddr + 3 - i)
  let e ← loadU32 .record (r.stateInAddr + 7 - i)
  storeU32 (r.stateOutAddr + 3 - i) a
  storeU32 (r.stateOutAddr + 7 - i) e
  return { r with oldA := r.oldA.push (toBe a), oldE := r.oldE.push (toBe e) }

def loadData : Exec Sha2State := do
  onSha2Cycle
  let k ← loadU32 .record (r.kAddr + i)
  let word ← loadU32 .record r.dataAddr
  return { r with dataAddr := r.dataAddr + 1 }.mixed k (toBe word)

def mix : Exec Sha2State := do
  onSha2Cycle
  let k ← loadU32 .record (r.kAddr + blockWords + i)
  return r.mixed k (computeW r.oldW)

def storeState : Exec Sha2State := do
  onSha2Cycle
  let a := r.oldA.back 4 + r.oldA.back sha2Back
  let e := r.oldE.back 4 + r.oldE.back sha2Back
  storeU32 (r.stateOutAddr + 3 - i) (toBe a)
  storeU32 (r.stateOutAddr + 7 - i) (toBe e)
  return { r with
    count := if i = 3 then r.count - 1 else r.count
    oldA := r.oldA.push a
    oldE := r.oldE.push e }

end

def hashBlock (r : Sha2State) : Exec Sha2State := do
  let r ← (List.range loadDataCycles).foldlM loadData r
  let r ← (List.range mixCycles).foldlM mix r
  (List.range storeCycles).foldlM storeState r

def loadAddr (idx : Fin 32) : Exec ℕ := do
  let word ← Executor.loadRegister machineRegs idx
  let addr ← guestAddr word
  return waddr addr

def ecall : Exec Unit := do
  let stateInAddr ← loadAddr regA0
  let stateOutAddr ← loadAddr regA1
  let dataAddr ← loadAddr regA2
  let word ← Executor.loadRegister machineRegs regA3
  let count := word &&& 0xffff#32
  let kAddr ← loadAddr regA4
  if count > maxShaCount then fault (.bail s!"Invalid count (too big) in sha2 ecall: {count.toNat}")
  else
    let r ← (List.range loadStateCycles).foldlM loadState
      ⟨stateInAddr, stateOutAddr, dataAddr, count.toNat, kAddr, .new 0, .new 0, .new 0⟩
    let _ ← whileLoop .panicked (fun r => r.count ≠ 0) hashBlock r.count r
    onSha2Cycle

end Sha2

/-! The hashing call computes the compression function. At the border of two blocks the
ring buffers hold the state of the first, and after each round the two sequences that
its working variables come from. -/

def bigEndian (word : Word) : Word := BitVec.ofNat 32 (beNat (toLeBytes word))

theorem toBe_eq (word : Word) : toBe word = bigEndian word := by
  rw [toBe, fromLeBytes, leNat, List.reverse_reverse, bigEndian]

theorem bigEndian_toBe (word : Word) : bigEndian (toBe word) = word := by
  have hlen : (toLeBytes word).reverse.length = 4 := by rw [List.length_reverse, toLeBytes_length]
  have hnat : beNat (toLeBytes word).reverse = word.toNat := by
    show leNat (leBytes 4 word.toNat) = _
    rw [leNat_leBytes]
    exact Nat.mod_eq_of_lt word.isLt
  rw [bigEndian, toBe, toLeBytes_fromLeBytes hlen, hnat, BitVec.ofNat_toNat, BitVec.setWidth_eq]

namespace Sha2

open Executor Risc0Machine Lib.Sha256 RingBuffer

/-- The eight words at an address. -/
def hashAt (words : ℕ → Word) (addr : ℕ) : Hash where
  a := bigEndian (words addr)
  b := bigEndian (words (addr + 1))
  c := bigEndian (words (addr + 2))
  d := bigEndian (words (addr + 3))
  e := bigEndian (words (addr + 4))
  f := bigEndian (words (addr + 5))
  g := bigEndian (words (addr + 6))
  h := bigEndian (words (addr + 7))

/-- What a call is about, and the memory that it finds. -/
structure Call where
  stateIn : ℕ
  stateOut : ℕ
  data : ℕ
  k : ℕ
  count : ℕ
  words : ℕ → Word

namespace Call

variable (c : Call)

def constants (t : ℕ) : Word := c.words (c.k + t)

def message (t : ℕ) : Word := bigEndian (c.words (c.data + t))

def start : Hash := hashAt c.words c.stateIn

def state (n : ℕ) : Hash := compressBlocks c.constants c.message c.start n

def block (n t : ℕ) : Word := c.message (16 * n + t)

def aBlock (n : ℕ) : ℕ → Word := aSeq c.constants (schedule (c.block n)) (c.state n)

def eBlock (n : ℕ) : ℕ → Word := eSeq c.constants (schedule (c.block n)) (c.state n)

/-- What is written overlaps what is read only when it is the state itself. -/
structure Separate : Prop where
  data : c.stateOut + 8 ≤ c.data ∨ c.data + 16 * c.count ≤ c.stateOut
  k : c.stateOut + 8 ≤ c.k ∨ c.k + 64 ≤ c.stateOut
  state : c.stateOut = c.stateIn ∨ c.stateOut + 8 ≤ c.stateIn ∨ c.stateIn + 8 ≤ c.stateOut

/-- Everything is in memory. -/
structure Fits : Prop where
  stateIn : c.stateIn + 8 ≤ memoryEndAddr
  stateOut : c.stateOut + 8 ≤ memoryEndAddr
  data : c.data + 16 * c.count ≤ memoryEndAddr
  k : 0 < c.count → c.k + 64 ≤ memoryEndAddr

theorem state_succ (n : ℕ) : c.state (n + 1) = compress c.constants (c.block n) (c.state n) := rfl

theorem aBlock_succ (n : ℕ) {i : ℕ} (hi : i < 4) : c.aBlock (n + 1) i = c.aBlock n i + c.aBlock n (64 + i) := by
  rw [aBlock, state_succ, aSeq_compress _ _ _ _ hi]
  rfl

theorem eBlock_succ (n : ℕ) {i : ℕ} (hi : i < 4) : c.eBlock (n + 1) i = c.eBlock n i + c.eBlock n (64 + i) := by
  rw [eBlock, state_succ, eSeq_compress _ _ _ _ hi]
  rfl

theorem aBlock_four (n t : ℕ) : c.aBlock n (t + 4) =
    (round (c.constants t) (schedule (c.block n) t) (rounds c.constants (schedule (c.block n)) (c.state n) t)).a := rfl

theorem eBlock_four (n t : ℕ) : c.eBlock n (t + 4) =
    (round (c.constants t) (schedule (c.block n) t) (rounds c.constants (schedule (c.block n)) (c.state n) t)).e := rfl

end Call

variable {c : Call} {p : Prop} {v₀ v : MachineView} {r : Sha2State} {n t i : ℕ}

/-- The addresses stay, and no word is written but those of the state. -/
structure Frame (c : Call) (v₀ : MachineView) (r : Sha2State) (v : MachineView) : Prop where
  stateInAddr : r.stateInAddr = c.stateIn
  stateOutAddr : r.stateOutAddr = c.stateOut
  kAddr : r.kAddr = c.k
  pc : v.pc = v₀.pc
  userPc : v.userPc = v₀.userPc
  mode : v.mode = v₀.mode
  kept : ∀ addr, addr < c.stateOut ∨ c.stateOut + 8 ≤ addr → v.words addr = c.words addr

theorem Frame.registers {c : Call} {v₀ : MachineView} {r : Sha2State} {v : MachineView} (h : Frame c v₀ r v) :
    ∃ dataAddr count oldA oldE oldW, r = ⟨c.stateIn, c.stateOut, dataAddr, count, c.k, oldA, oldE, oldW⟩ :=
  ⟨_, _, _, _, _, by rw [← h.stateInAddr, ← h.stateOutAddr, ← h.kAddr]⟩

/-- The state has been written from its last word of each half on. -/
structure Written (c : Call) (a e : ℕ → Word) (i : ℕ) (v : MachineView) : Prop where
  first : ∀ j < i, bigEndian (v.words (c.stateOut + 3 - j)) = a j
  second : ∀ j < i, bigEndian (v.words (c.stateOut + 7 - j)) = e j

theorem Written.store {a e : ℕ → Word} (h : Written c a e i v) (hi : i < 4) {x y : Word} (hx : bigEndian x = a i)
    (hy : bigEndian y = e i) :
    Written c a e (i + 1) ((v.store (c.stateOut + 3 - i) x).store (c.stateOut + 7 - i) y) := by
  constructor
  · intro j hj
    rw [store_words_of_ne _ _ (by omega), store_words]
    obtain rfl | hlt := Nat.lt_succ_iff_lt_or_eq.mp hj |>.symm
    · rw [if_pos rfl, hx]
    · rw [if_neg (by omega), h.first j hlt]
  · intro j hj
    rw [store_words]
    obtain rfl | hlt := Nat.lt_succ_iff_lt_or_eq.mp hj |>.symm
    · rw [if_pos rfl, hy]
    · rw [if_neg (by omega), store_words_of_ne _ _ (by omega), h.second j hlt]

theorem Frame.store (h : Frame c v₀ r v) (hi : i < 4) (x y : Word) {r' : Sha2State} (hin : r'.stateInAddr = r.stateInAddr)
    (hout : r'.stateOutAddr = r.stateOutAddr) (hk : r'.kAddr = r.kAddr) :
    Frame c v₀ r' ((v.store (c.stateOut + 3 - i) x).store (c.stateOut + 7 - i) y) where
  stateInAddr := hin.trans h.stateInAddr
  stateOutAddr := hout.trans h.stateOutAddr
  kAddr := hk.trans h.kAddr
  pc := h.pc
  userPc := h.userPc
  mode := h.mode
  kept addr haddr := by
    rw [store_words_of_ne _ _ (by omega), store_words_of_ne _ _ (by omega), h.kept addr haddr]

/-- The two stores of a step, of which both are in memory when the last word is. -/
theorem stores_run (hfits : p → c.stateOut + 8 ≤ memoryEndAddr) (hi : i < 4) (v : MachineView) (x y : Word)
    {β : Type} {k : Exec β} {b : β} {v' : MachineView}
    (hk : RunsIf p Shows k ((v.store (c.stateOut + 3 - i) x).store (c.stateOut + 7 - i) y) b v') :
    RunsIf p Shows (storeU32 (c.stateOut + 3 - i) x >>= fun _ => storeU32 (c.stateOut + 7 - i) y >>= fun _ => k) v b v' := by
  have hlt (hp : p) : ¬ memoryEndAddr ≤ c.stateOut + 3 - i ∧ ¬ memoryEndAddr ≤ c.stateOut + 7 - i := by
    have := hfits hp
    omega
  exact (storeU32_runs v (fun hp => (hlt hp).1) x).bind ((storeU32_runs _ (fun hp => (hlt hp).2) y).bind hk)

/-- After `i` steps of the first loop. -/
structure Loading (c : Call) (v₀ : MachineView) (i : ℕ) (r : Sha2State) (v : MachineView) : Prop where
  frame : Frame c v₀ r v
  dataAddr : r.dataAddr = c.data
  count : r.count = c.count
  oldA : r.oldA.Holds (c.aBlock 0) i
  oldE : r.oldE.Holds (c.eBlock 0) i
  input : ∀ j < 8, v.words (c.stateIn + j) = c.words (c.stateIn + j)
  written : Written c (c.aBlock 0) (c.eBlock 0) i v

theorem aBlock_zero (hi : i < 4) : bigEndian (c.words (c.stateIn + 3 - i)) = c.aBlock 0 i := by
  interval_cases i <;> rfl

theorem eBlock_zero (hi : i < 4) : bigEndian (c.words (c.stateIn + 7 - i)) = c.eBlock 0 i := by
  interval_cases i <;> rfl

/-- The state that is read is not changed by writing its words to where it goes. -/
theorem Loading.input_store (h : Loading c v₀ i r v) (hsep : c.Separate) (hi : i < 4) {j : ℕ} (hj : j < 8) :
    ((v.store (c.stateOut + 3 - i) (c.words (c.stateIn + 3 - i))).store (c.stateOut + 7 - i)
      (c.words (c.stateIn + 7 - i))).words (c.stateIn + j) = c.words (c.stateIn + j) := by
  rw [store_words, store_words]
  have hstate := hsep.state
  split_ifs with hsecond hfirst
  · congr 1
    omega
  · congr 1
    omega
  · exact h.input j hj

theorem loadState_runs (hsep : c.Separate) (hfits : p → c.Fits) (hi : i < loadStateCycles) (h : Loading c v₀ i r v) :
    ∃ r' v', RunsIf p Shows (loadState r i) v r' v' ∧ Loading c v₀ (i + 1) r' v' := by
  obtain ⟨dataAddr, count, oldA, oldE, oldW, rfl⟩ := h.frame.registers
  replace hi : i < 4 := hi
  have hthree : c.stateIn + 3 - i = c.stateIn + (3 - i) := by omega
  have hseven : c.stateIn + 7 - i = c.stateIn + (7 - i) := by omega
  have ha : v.words (c.stateIn + 3 - i) = c.words (c.stateIn + 3 - i) := by rw [hthree, h.input _ (by omega)]
  have he : v.words (c.stateIn + 7 - i) = c.words (c.stateIn + 7 - i) := by rw [hseven, h.input _ (by omega)]
  have hend (hp : p) : ¬ memoryEndAddr ≤ c.stateIn + 3 - i ∧ ¬ memoryEndAddr ≤ c.stateIn + 7 - i := by
    have := (hfits hp).stateIn
    omega
  refine ⟨⟨c.stateIn, c.stateOut, dataAddr, count, c.k, oldA.push (toBe (c.words (c.stateIn + 3 - i))),
    oldE.push (toBe (c.words (c.stateIn + 7 - i))), oldW⟩, _, ?_, h.frame.store hi (c.words (c.stateIn + 3 - i))
    (c.words (c.stateIn + 7 - i)) rfl rfl rfl, h.dataAddr, h.count, ?_, ?_, fun j hj => h.input_store hsep hi hj, h.written.store hi (aBlock_zero hi) (eBlock_zero hi)⟩
  · refine (incUserCycles_runs v 1).bind ((loadU32_runs .record v fun hp => (hend hp).1).bind
      ((loadU32_runs .record v fun hp => (hend hp).2).bind ?_))
    rw [ha, he]
    exact stores_run (fun hp => (hfits hp).stateOut) hi v _ _ (runs_pure _ _)
  · dsimp only
    rw [toBe_eq, aBlock_zero hi]
    exact h.oldA.push
  · dsimp only
    rw [toBe_eq, eBlock_zero hi]
    exact h.oldE.push

/-- After `t` rounds of a block. -/
structure InBlock (c : Call) (v₀ : MachineView) (n t : ℕ) (r : Sha2State) (v : MachineView) : Prop where
  frame : Frame c v₀ r v
  dataAddr : r.dataAddr = c.data + (16 * n + min t 16)
  count : r.count + n = c.count
  more : n < c.count
  oldA : r.oldA.Holds (c.aBlock n) (t + 4)
  oldE : r.oldE.Holds (c.eBlock n) (t + 4)
  oldW : r.oldW.Holds (schedule (c.block n)) t

section

variable (h : InBlock c v₀ n t r v)

include h

/-- The ring buffers give the eight working variables. -/
theorem InBlock.computeAe :
    computeAe r.oldA r.oldE (c.constants t) (schedule (c.block n) t) = (c.aBlock n (t + 4), c.eBlock n (t + 4)) := by
  have hsize (j : ℕ) (hj : j ≤ 4) : j ≤ sha2Back := hj.trans (by decide)
  have ha (j : ℕ) (hpos : 1 ≤ j) (hj : j ≤ 4) : r.oldA.back j = c.aBlock n (t + 4 - j) :=
    h.oldA j hpos (hsize j hj) (by omega)
  have he (j : ℕ) (hpos : 1 ≤ j) (hj : j ≤ 4) : r.oldE.back j = c.eBlock n (t + 4 - j) :=
    h.oldE j hpos (hsize j hj) (by omega)
  rw [c.aBlock_four, c.eBlock_four, rounds_eq, Sha2.computeAe, ha 1 (by omega) (by omega), ha 2 (by omega) (by omega),
    ha 3 (by omega) (by omega), ha 4 (by omega) (by omega), he 1 (by omega) (by omega), he 2 (by omega) (by omega),
    he 3 (by omega) (by omega), he 4 (by omega) (by omega)]
  rfl

theorem InBlock.computeW (ht : 16 ≤ t) : computeW r.oldW = schedule (c.block n) t := by
  have hw (j : ℕ) (hpos : 1 ≤ j) (hj : j ≤ 16) : r.oldW.back j = schedule (c.block n) (t - j) :=
    h.oldW j hpos hj (by omega)
  rw [schedule_of_le _ ht, Sha2.computeW, hw 2 (by omega) (by omega), hw 7 (by omega) (by omega),
    hw 15 (by omega) (by omega), hw 16 (by omega) (by omega)]
  rfl

theorem InBlock.mixed (dataAddr : ℕ) (hdata : dataAddr = c.data + (16 * n + min (t + 1) 16)) :
    InBlock c v₀ n (t + 1) ({ r with dataAddr := dataAddr }.mixed (c.constants t) (schedule (c.block n) t)) v := by
  have hmixed : ({ r with dataAddr := dataAddr } : Sha2State).mixed (c.constants t) (schedule (c.block n) t) =
      { r with
        dataAddr := dataAddr
        oldW := r.oldW.push (schedule (c.block n) t)
        oldA := r.oldA.push (c.aBlock n (t + 4))
        oldE := r.oldE.push (c.eBlock n (t + 4)) } := by
    unfold Sha2State.mixed
    dsimp only
    rw [h.computeAe]
  rw [hmixed]
  exact ⟨⟨h.frame.stateInAddr, h.frame.stateOutAddr, h.frame.kAddr, h.frame.pc, h.frame.userPc, h.frame.mode, h.frame.kept⟩,
    hdata, h.count, h.more, h.oldA.push, h.oldE.push, h.oldW.push⟩

theorem InBlock.constant (hsep : c.Separate) (ht : t < 64) : v.words (c.k + t) = c.constants t :=
  h.frame.kept _ (by have := hsep.k; omega)

end

theorem loadData_runs (hsep : c.Separate) (hfits : p → c.Fits) (ht : t < loadDataCycles) (h : InBlock c v₀ n t r v) :
    ∃ r' v', RunsIf p Shows (loadData r t) v r' v' ∧ InBlock c v₀ n (t + 1) r' v' := by
  obtain ⟨dataAddr, count, oldA, oldE, oldW, rfl⟩ := h.frame.registers
  replace ht : t < 16 := ht
  have hmore := h.more
  have hword : v.words (c.data + (16 * n + t)) = c.words (c.data + (16 * n + t)) :=
    h.frame.kept _ (by have := hsep.data; omega)
  have hend (hp : p) : ¬ memoryEndAddr ≤ c.k + t ∧ ¬ memoryEndAddr ≤ c.data + (16 * n + t) := by
    have := (hfits hp).k (by omega)
    have := (hfits hp).data
    omega
  obtain rfl : dataAddr = c.data + (16 * n + t) := by
    have hdata := h.dataAddr
    rwa [Nat.min_eq_left ht.le] at hdata
  have hmixed := h.mixed (c.data + (16 * n + t) + 1) (by omega)
  refine ⟨_, v, ?_, hmixed⟩
  refine (incUserCycles_runs v 1).bind ((loadU32_runs .record v fun hp => (hend hp).1).bind
    ((loadU32_runs .record v fun hp => (hend hp).2).bind ?_))
  rw [h.constant hsep (by omega), hword, toBe_eq, schedule_of_lt _ ht]
  exact runs_pure v _

theorem mix_runs (hsep : c.Separate) (hfits : p → c.Fits) (hi : i < mixCycles) (h : InBlock c v₀ n (16 + i) r v) :
    ∃ r' v', RunsIf p Shows (mix r i) v r' v' ∧ InBlock c v₀ n (16 + (i + 1)) r' v' := by
  obtain ⟨dataAddr, count, oldA, oldE, oldW, rfl⟩ := h.frame.registers
  replace hi : i < 48 := hi
  have hmore := h.more
  have haddr : c.k + blockWords + i = c.k + (16 + i) := Nat.add_assoc _ _ _
  have hend (hp : p) : ¬ memoryEndAddr ≤ c.k + (16 + i) := by
    have := (hfits hp).k (by omega)
    omega
  have hdata : dataAddr = c.data + (16 * n + min (16 + i + 1) 16) := by
    have hdata := h.dataAddr
    dsimp only at hdata
    omega
  refine ⟨_, v, ?_, h.mixed dataAddr hdata⟩
  refine (incUserCycles_runs v 1).bind ((loadU32_runs .record v (haddr ▸ hend)).bind ?_)
  rw [haddr, h.constant hsep (by omega), h.computeW (by omega)]
  exact runs_pure v _

/-- One sequence goes on where the other has ended. -/
def continued (f g : ℕ → Word) (m : ℕ) : Word := if m < 68 then f m else g (m - 68)

/-- After `i` steps of the last loop. -/
structure Storing (c : Call) (v₀ : MachineView) (n i : ℕ) (r : Sha2State) (v : MachineView) : Prop where
  frame : Frame c v₀ r v
  dataAddr : r.dataAddr = c.data + 16 * (n + 1)
  count : r.count + (if i < 4 then n else n + 1) = c.count
  more : n < c.count
  oldA : r.oldA.Holds (continued (c.aBlock n) (c.aBlock (n + 1))) (68 + i)
  oldE : r.oldE.Holds (continued (c.eBlock n) (c.eBlock (n + 1))) (68 + i)
  written : Written c (c.aBlock (n + 1)) (c.eBlock (n + 1)) i v

theorem continued_push {f g : ℕ → Word} {b : RingBuffer Word sha2Back} (hi : i < 4) (hg : g i = f i + f (64 + i))
    (h : b.Holds (continued f g) (68 + i)) : b.back 4 + b.back sha2Back = g i ∧ continued f g (68 + i) = g i := by
  have hfour : b.back 4 = f (64 + i) := by
    rw [h 4 (by omega) (by decide) (by omega), continued, if_pos (by omega)]
    congr 1
    omega
  have hback : b.back sha2Back = f i := by
    have hsize : sha2Back = 68 := rfl
    rw [h sha2Back (by decide) le_rfl (by omega), continued, if_pos (by omega)]
    congr 1
    omega
  constructor
  · rw [hfour, hback, hg, BitVec.add_comm]
  · rw [continued, if_neg (by omega), Nat.add_sub_cancel_left]

theorem storeState_runs (hfits : p → c.Fits) (hi : i < storeCycles) (h : Storing c v₀ n i r v) :
    ∃ r' v', RunsIf p Shows (storeState r i) v r' v' ∧ Storing c v₀ n (i + 1) r' v' := by
  obtain ⟨dataAddr, count, oldA, oldE, oldW, rfl⟩ := h.frame.registers
  replace hi : i < 4 := hi
  obtain ⟨ha, hnextA⟩ := continued_push hi (c.aBlock_succ n hi) h.oldA
  obtain ⟨he, hnextE⟩ := continued_push hi (c.eBlock_succ n hi) h.oldE
  have hcount := h.count
  have hmore := h.more
  rw [if_pos hi] at hcount
  refine ⟨⟨c.stateIn, c.stateOut, dataAddr, if i = 3 then count - 1 else count, c.k, oldA.push (c.aBlock (n + 1) i),
    oldE.push (c.eBlock (n + 1) i), oldW⟩, _, ?_, h.frame.store hi (toBe (c.aBlock (n + 1) i))
    (toBe (c.eBlock (n + 1) i)) rfl rfl rfl, h.dataAddr, ?_, h.more, ?_, ?_, h.written.store hi (bigEndian_toBe _) (bigEndian_toBe _)⟩
  · dsimp only at ha he
    unfold storeState
    dsimp only
    rw [ha, he]
    exact (incUserCycles_runs v 1).bind (stores_run (fun hp => (hfits hp).stateOut) hi v _ _ (runs_pure _ _))
  · dsimp only at hcount ⊢
    split_ifs <;> omega
  · rw [← hnextA]
    exact h.oldA.push
  · rw [← hnextE]
    exact h.oldE.push

/-- Between two blocks, with as many to come as are counted. -/
structure AtBlock (c : Call) (v₀ : MachineView) (r : Sha2State) (v : MachineView) : Prop where
  frame : Frame c v₀ r v
  count : r.count ≤ c.count
  dataAddr : r.dataAddr = c.data + 16 * (c.count - r.count)
  oldA : r.oldA.Holds (c.aBlock (c.count - r.count)) 4
  oldE : r.oldE.Holds (c.eBlock (c.count - r.count)) 4
  state : hashAt v.words c.stateOut = c.state (c.count - r.count)

theorem Written.hash (h : Written c (c.aBlock n) (c.eBlock n) 4 v) : hashAt v.words c.stateOut = c.state n := by
  have ha (j : ℕ) (hj : j < 4) : bigEndian (v.words (c.stateOut + (3 - j))) = c.aBlock n j := by
    rw [← h.first j hj]
    congr 2
    omega
  have he (j : ℕ) (hj : j < 4) : bigEndian (v.words (c.stateOut + (7 - j))) = c.eBlock n j := by
    rw [← h.second j hj]
    congr 2
    omega
  exact Hash.ext (ha 3 (by decide)) (ha 2 (by decide)) (ha 1 (by decide)) (ha 0 (by decide)) (he 3 (by decide))
    (he 2 (by decide)) (he 1 (by decide)) (he 0 (by decide))

theorem Storing.atBlock (h : Storing c v₀ n 4 r v) : AtBlock c v₀ r v := by
  have hcount := h.count
  rw [if_neg (lt_irrefl 4)] at hcount
  obtain rfl : n = c.count - r.count - 1 := by omega
  have hn : c.count - r.count - 1 + 1 = c.count - r.count := by omega
  have hdata := h.dataAddr
  have hwritten := h.written
  have holdA := h.oldA
  have holdE := h.oldE
  rw [hn] at hdata hwritten holdA holdE
  have hcontinued (f g : ℕ → Word) (j : ℕ) (hpos : 1 ≤ j) (hj : j ≤ 4) : continued f g (68 + 4 - j) = g (4 - j) := by
    rw [continued, if_neg (by omega)]
    congr 1
    omega
  exact ⟨h.frame, by omega, hdata, holdA.congr (fun j hpos hj => hcontinued _ _ j hpos hj) (by omega),
    holdE.congr (fun j hpos hj => hcontinued _ _ j hpos hj) (by omega), hwritten.hash⟩

theorem hashBlock_runs (hsep : c.Separate) (hfits : p → c.Fits) (h : AtBlock c v₀ r v) (hmore : r.count ≠ 0) :
    ∃ r' v', RunsIf p Shows (hashBlock r) v r' v' ∧ AtBlock c v₀ r' v' ∧ r'.count < r.count := by
  have hle := h.count
  have hstart : InBlock c v₀ (c.count - r.count) 0 r v :=
    ⟨h.frame, h.dataAddr, by omega, by omega, h.oldA, h.oldE, holds_zero _ _⟩
  obtain ⟨r₁, v₁, hrun1, h1⟩ := runs_range (InBlock c v₀ (c.count - r.count))
    (fun t ht r v => loadData_runs (r := r) (v := v) hsep hfits ht) hstart
  obtain ⟨r₂, v₂, hrun2, h2⟩ := runs_range (fun i => InBlock c v₀ (c.count - r.count) (16 + i))
    (fun i hi r v => mix_runs (r := r) (v := v) hsep hfits hi) h1
  have hcontinued (f g : ℕ → Word) (j : ℕ) (hpos : 1 ≤ j) : f (68 - j) = continued f g (68 - j) :=
    (if_pos (show 68 - j < 68 by omega)).symm
  have hstoring : Storing c v₀ (c.count - r.count) 0 r₂ v₂ :=
    ⟨h2.frame, h2.dataAddr, h2.count, h2.more, h2.oldA.congr (fun j hpos _ => hcontinued _ _ j hpos) le_rfl,
      h2.oldE.congr (fun j hpos _ => hcontinued _ _ j hpos) le_rfl,
      ⟨fun j hj => absurd hj (Nat.not_lt_zero j), fun j hj => absurd hj (Nat.not_lt_zero j)⟩⟩
  obtain ⟨r₃, v₃, hrun3, h3⟩ := runs_range (Storing c v₀ (c.count - r.count))
    (fun i hi r v => storeState_runs (r := r) (v := v) hfits hi) hstoring
  have hcount := h3.count
  rw [if_neg (by decide)] at hcount
  exact ⟨r₃, v₃, hrun1.bind (hrun2.bind hrun3), h3.atBlock, by omega⟩

/-- What the registers of the kernel ask for. -/
def callOf (v : MachineView) : Call where
  stateIn := waddr (v.words (machineRegs + regA0))
  stateOut := waddr (v.words (machineRegs + regA1))
  data := waddr (v.words (machineRegs + regA2))
  k := waddr (v.words (machineRegs + regA4))
  count := (v.words (machineRegs + regA3) &&& 0xffff#32).toNat
  words := v.words

/-- The addresses are ones of the guest, and everything is in memory. -/
structure Allowed (v : MachineView) : Prop where
  guest : ∀ idx ∈ [regA0, regA1, regA2, regA4], ¬ v.words (machineRegs + idx) < zeroPageEndAddr
  fits : (callOf v).Fits

/-- The state is that of all the blocks, and no other word has changed. -/
structure Hashed (v v' : MachineView) : Prop where
  pc : v'.pc = v.pc
  userPc : v'.userPc = v.userPc
  mode : v'.mode = v.mode
  state : hashAt v'.words (callOf v).stateOut = compressBlocks (fun t => v.words ((callOf v).k + t))
    (fun t => bigEndian (v.words ((callOf v).data + t))) (hashAt v.words (callOf v).stateIn) (callOf v).count
  kept : ∀ addr, addr < (callOf v).stateOut ∨ (callOf v).stateOut + 8 ≤ addr → v'.words addr = v.words addr

theorem loadAddr_runs {idx : Fin 32} (h : p → ¬ v.words (machineRegs + idx) < zeroPageEndAddr) :
    RunsIf p Shows (loadAddr idx) v (waddr (v.words (machineRegs + idx))) v := by
  refine (Executor.loadRegister_runs v (.inr rfl) idx).bind ?_
  unfold guestAddr
  split_ifs with hzero
  · exact runs_of_fails (fun hp => h hp hzero) fun s _ => ⟨_, rfl⟩
  · exact (runs_pure v _).bind (runs_pure v _)

theorem ecall_runs (hcount : (callOf v).count ≤ maxShaCount.toNat) (hsep : (callOf v).Separate) :
    ∃ v', RunsIf (Allowed v) Shows ecall v () v' ∧ Hashed v v' := by
  have hstart : Loading (callOf v) v 0 ⟨(callOf v).stateIn, (callOf v).stateOut, (callOf v).data, (callOf v).count,
      (callOf v).k, .new 0, .new 0, .new 0⟩ v :=
    ⟨⟨rfl, rfl, rfl, rfl, rfl, rfl, fun _ _ => rfl⟩, rfl, rfl, holds_zero _ _, holds_zero _ _, fun _ _ => rfl,
      ⟨fun j hj => absurd hj (Nat.not_lt_zero j), fun j hj => absurd hj (Nat.not_lt_zero j)⟩⟩
  obtain ⟨r₁, v₁, hrun1, h1⟩ := runs_range (Loading (callOf v) v)
    (fun i hi r v => loadState_runs (r := r) (v := v) hsep Allowed.fits hi) hstart
  have hzero : (callOf v).count - r₁.count = 0 := by rw [h1.count, Nat.sub_self]
  have hblock : AtBlock (callOf v) v r₁ v₁ := by
    refine ⟨h1.frame, h1.count.le, ?_, ?_, ?_, ?_⟩ <;> rw [hzero]
    · exact h1.dataAddr
    · exact h1.oldA
    · exact h1.oldE
    · exact h1.written.hash
  obtain ⟨r₂, v₂, hrun2, h2, hend⟩ := runs_while (AtBlock (callOf v) v) Sha2State.count Fault.panicked
    (fun r => r.count ≠ 0) (fun r v h hmore => hashBlock_runs hsep Allowed.fits h (of_decide_eq_true hmore))
    hblock le_rfl
  have hdone : r₂.count = 0 := by simpa using hend
  refine ⟨v₂, ?_, h2.frame.pc, h2.frame.userPc, h2.frame.mode, ?_, h2.frame.kept⟩
  · have hguest (idx : Fin 32) (hidx : idx ∈ [regA0, regA1, regA2, regA4]) :
        RunsIf (Allowed v) Shows (loadAddr idx) v (waddr (v.words (machineRegs + idx))) v :=
      loadAddr_runs fun h => h.guest idx hidx
    refine (hguest regA0 (by decide)).bind ((hguest regA1 (by decide)).bind ((hguest regA2 (by decide)).bind
      ((Executor.loadRegister_runs v (.inr rfl) regA3).bind ((hguest regA4 (by decide)).bind ?_))))
    have hshort : ¬ v.words (machineRegs + regA3) &&& 0xffff#32 > maxShaCount := not_lt.mpr hcount
    rw [if_neg hshort]
    exact hrun1.bind (hrun2.bind (incUserCycles_runs v₂ 1))
  · have hstate := h2.state
    rw [hdone, Nat.sub_zero] at hstate
    exact hstate

/-- The hashing call leaves the state of all the blocks where it is asked for and changes
nothing else, and it returns when the addresses and the regions are within bounds. -/
theorem sha2_ecall (s : Executor) (hs : s.Sound) (hcount : (callOf s.machineView).count ≤ maxShaCount.toNat)
    (hsep : (callOf s.machineView).Separate) :
    (∀ s', ecall s = .ok ((), s') → s'.Sound ∧ Hashed s.machineView s'.machineView) ∧
      (Allowed s.machineView → ∃ s', ecall s = .ok ((), s')) := by
  obtain ⟨v', hrun, hhashed⟩ := ecall_runs hcount hsep
  constructor
  · intro s' hs'
    obtain ⟨-, hshows⟩ := hrun.ends (shows_machineView hs) hs'
    exact ⟨hshows.sound, by rw [hshows.machineView_eq]; exact hhashed⟩
  · intro hallowed
    obtain ⟨s', hs', -⟩ := hrun.total hallowed (shows_machineView hs)
    exact ⟨s', hs'⟩

/-- Asks for two blocks, with the state written over the one that is read. -/
def shaImage : MemoryImage where
  pages := OrderedMap.empty.insert regsPage
    (((((Page.zero.store (machineRegs + regA0) 0x10000).store (machineRegs + regA1) 0x10000).store
      (machineRegs + regA2) 0x10020).store (machineRegs + regA3) 2).store (machineRegs + regA4) 0x10100)
  isZero := fun _ => true

theorem sha2_ecall_sample : ∃ m s', PagedMemory.new shaImage false = some m ∧
    ecall ⟨0xc0000000, 0, 1, 0, m⟩ = .ok ((), s') ∧ s'.Sound ∧
      Hashed (machineView ⟨0xc0000000, 0, 1, 0, m⟩) s'.machineView := by
  have hregs : ((PagedMemory.new shaImage false).map fun m =>
      [m.word (machineRegs + regA0), m.word (machineRegs + regA1), m.word (machineRegs + regA2),
        m.word (machineRegs + regA3), m.word (machineRegs + regA4)]) =
        some [0x10000, 0x10000, 0x10020, 2, 0x10100] := by
    decide
  obtain ⟨m, hm, hregs⟩ := Option.map_eq_some_iff.mp hregs
  rw [List.cons.injEq, List.cons.injEq, List.cons.injEq, List.cons.injEq, List.cons.injEq] at hregs
  obtain ⟨h0, h1, h2, h3, h4, -⟩ := hregs
  have hsound : Sound ⟨0xc0000000, 0, 1, 0, m⟩ := sound_of_run hm (List.forall_mem_nil MemoryOp.Valid) rfl rfl
  have hcall : callOf (machineView ⟨0xc0000000, 0, 1, 0, m⟩) = ⟨0x4000, 0x4000, 0x4008, 0x4040, 2, m.word⟩ := by
    unfold callOf machineView
    dsimp only
    rw [h0, h1, h2, h3, h4]
    rfl
  obtain ⟨hends, hreturns⟩ := sha2_ecall ⟨0xc0000000, 0, 1, 0, m⟩ hsound
    (by rw [hcall]; exact show 2 ≤ maxShaCount.toNat by decide)
    (by
      rw [hcall]
      exact ⟨.inl (show 0x4000 + 8 ≤ 0x4008 by decide), .inl (show 0x4000 + 8 ≤ 0x4040 by decide), .inl rfl⟩)
  have hguest : ∀ idx ∈ [regA0, regA1, regA2, regA4], ¬ m.word (machineRegs + idx) < zeroPageEndAddr := by
    rw [List.forall_mem_cons, List.forall_mem_cons, List.forall_mem_cons, List.forall_mem_cons, h0, h1, h2, h4]
    exact ⟨by decide, by decide, by decide, by decide, List.forall_mem_nil _⟩
  have hfits : (callOf (machineView ⟨0xc0000000, 0, 1, 0, m⟩)).Fits := by
    rw [hcall]
    exact ⟨show 0x4000 + 8 ≤ memoryEndAddr by decide, show 0x4000 + 8 ≤ memoryEndAddr by decide,
      show 0x4008 + 16 * 2 ≤ memoryEndAddr by decide, fun _ => show 0x4040 + 64 ≤ memoryEndAddr by decide⟩
  obtain ⟨s', hs'⟩ := hreturns ⟨hguest, hfits⟩
  exact ⟨m, s', hm, hs', hends s' hs'⟩

end Sha2

end VerifiableCompute.Rv32im
