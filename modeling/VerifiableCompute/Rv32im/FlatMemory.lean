import VerifiableCompute.Lib.Program
import VerifiableCompute.Rv32im.Residency

/-! The paged memory refines a flat one. A flat memory is a word at every address,
with the registers at theirs, and the addresses stored to since the last commit;
the paged memory answers as it does, whatever is resident. -/

namespace VerifiableCompute.Rv32im

open Lib

/-- A commit is followed by a reset. -/
inductive MemoryOp where
  | load (addr : ℕ)
  | peek (addr : ℕ)
  | store (addr : ℕ) (word : Word)
  | loadRegister (base : ℕ) (idx : Fin 32)
  | storeRegister (base : ℕ) (idx : Fin 32) (word : Word)
  | commit

/-- Registers are in one of the two files. -/
def MemoryOp.Valid : MemoryOp → Prop
  | .loadRegister base _ => base = userRegs ∨ base = machineRegs
  | .storeRegister base _ _ => base = userRegs ∨ base = machineRegs
  | _ => True

inductive MemoryAnswer where
  | word (word : Word)
  | done
  | error (error : MemoryError)
  | committed (partialImage image : WorkingImage)

def MemoryAnswer.ofLoad : Except MemoryError Word → MemoryAnswer
  | .ok w => .word w
  | .error e => .error e

def MemoryAnswer.ofStore : Except MemoryError Unit → MemoryAnswer
  | .ok _ => .done
  | .error e => .error e

def MemoryOp.exec (op : MemoryOp) (m : PagedMemory) : Option (MemoryAnswer × PagedMemory) :=
  match op with
  | .load addr => (m.load addr).map fun r => (.ofLoad r.1, r.2)
  | .peek addr => (m.peek addr).map fun r => (.ofLoad r.1, r.2)
  | .store addr word => (m.store addr word).map fun r => (.ofStore r.1, r.2)
  | .loadRegister base idx => (m.loadRegister base idx).map fun word => (.word word, m)
  | .storeRegister base idx word => (m.storeRegister base idx word).map fun m => (.done, m)
  | .commit => m.commit.map fun r => (.committed r.1 r.2.image, r.2.reset)

structure FlatMemory where
  words : ℕ → Word
  stored : List ℕ

inductive FlatAnswer where
  | word (word : Word)
  | done
  | error (error : MemoryError)
  | committed (pages : ℕ → Option Page) (words : ℕ → Word)

def FlatMemory.page (f : FlatMemory) (p : ℕ) : Page := fun i => f.words (pageWords * p + i)

def FlatMemory.store (addr : ℕ) (word : Word) (f : FlatMemory) : FlatMemory :=
  ⟨Function.update f.words addr word, addr :: f.stored⟩

/-- A commit yields the pages stored to since the last one, and that of the registers. -/
def MemoryOp.flat (op : MemoryOp) (f : FlatMemory) : FlatAnswer × FlatMemory :=
  match op with
  | .load addr => if memoryEndAddr ≤ addr then (.error (.invalidLoadAddress addr), f) else (.word (f.words addr), f)
  | .peek addr => if memoryEndAddr ≤ addr then (.error (.invalidPeekAddress addr), f) else (.word (f.words addr), f)
  | .store addr word =>
    if memoryEndAddr ≤ addr then (.error (.invalidStoreAddress addr), f) else (.done, f.store addr word)
  | .loadRegister base idx => (.word (f.words (base + idx)), f)
  | .storeRegister base idx word => (.done, f.store (base + idx) word)
  | .commit =>
    (.committed (fun p => if p = regsPage ∨ p ∈ f.stored.map pageIdx then some (f.page p) else none) f.words,
      ⟨f.words, []⟩)

def MemoryAnswer.flat : MemoryAnswer → FlatAnswer
  | .word w => .word w
  | .done => .done
  | .error e => .error e
  | .committed partialImage image =>
    .committed partialImage.get? fun addr => (imagePage image (pageIdx addr)).load addr

theorem Page.load_store (addr addr' : ℕ) (word : Word) (page : Page) :
    (page.store addr word).load addr' = if addr' % 256 = addr % 256 then word else page.load addr' := by
  unfold Page.load Page.store
  rw [Function.update_apply]
  have hiff : Fin.ofNat 256 addr' = Fin.ofNat 256 addr ↔ addr' % 256 = addr % 256 := Fin.ext_iff
  simp only [hiff]

theorem Page.load_add (page : Page) (p : ℕ) (i : Fin 256) : page.load (pageWords * p + i) = page i := by
  unfold Page.load pageWords
  congr 1
  apply Fin.ext
  show (256 * p + i) % 256 = i
  have := i.isLt
  omega

namespace PagedMemory

variable {m : PagedMemory}

def word (m : PagedMemory) (addr : ℕ) : Word :=
  (m.tryLoadRegister addr).getD ((m.page (pageIdx addr)).load addr)

theorem user_register (i : Fin 32) : (userRegs ≤ userRegs + i ∧ userRegs + i < userRegs + regMax) ∧
    Fin.ofNat 32 (userRegs + i - userRegs) = i := by
  have hi := i.isLt
  refine ⟨⟨Nat.le_add_right _ _, by unfold regMax; omega⟩, ?_⟩
  rw [Nat.add_sub_cancel_left, Fin.ofNat_val_eq_self]

theorem machine_register (i : Fin 32) : ¬(userRegs ≤ machineRegs + i ∧ machineRegs + i < userRegs + regMax) ∧
    (machineRegs ≤ machineRegs + i ∧ machineRegs + i < machineRegs + regMax) ∧ Fin.ofNat 32 (machineRegs + i - machineRegs) = i := by
  have hi := i.isLt
  refine ⟨?_, ⟨Nat.le_add_right _ _, by unfold regMax; omega⟩, ?_⟩
  · rw [userRegs_eq, machineRegs_eq]
    omega
  · rw [Nat.add_sub_cancel_left, Fin.ofNat_val_eq_self]

theorem tryLoadRegister_user (m : PagedMemory) (i : Fin 32) : m.tryLoadRegister (userRegs + i) = some (m.userRegisters i) := by
  obtain ⟨huser, hidx⟩ := user_register i
  rw [tryLoadRegister, if_pos huser, hidx]

theorem tryLoadRegister_machine (m : PagedMemory) (i : Fin 32) :
    m.tryLoadRegister (machineRegs + i) = some (m.machineRegisters i) := by
  obtain ⟨huser, hmachine, hidx⟩ := machine_register i
  rw [tryLoadRegister, if_neg huser, if_pos hmachine, hidx]

theorem register_cases (addr : ℕ) : (∃ i : Fin 32, addr = userRegs + i) ∨ (∃ i : Fin 32, addr = machineRegs + i) ∨
    ∀ m : PagedMemory, m.tryLoadRegister addr = none ∧ ∀ word, m.tryStoreRegister addr word = none := by
  by_cases huser : userRegs ≤ addr ∧ addr < userRegs + regMax
  · exact .inl ⟨⟨addr - userRegs, by unfold regMax at huser; omega⟩, (Nat.add_sub_cancel' huser.1).symm⟩
  · by_cases hmachine : machineRegs ≤ addr ∧ addr < machineRegs + regMax
    · exact .inr (.inl ⟨⟨addr - machineRegs, by unfold regMax at hmachine; omega⟩,
        (Nat.add_sub_cancel' hmachine.1).symm⟩)
    · refine .inr (.inr fun m => ⟨?_, fun word => ?_⟩)
      · rw [tryLoadRegister, if_neg huser, if_neg hmachine]
      · rw [tryStoreRegister, if_neg huser, if_neg hmachine]

end PagedMemory

end VerifiableCompute.Rv32im
