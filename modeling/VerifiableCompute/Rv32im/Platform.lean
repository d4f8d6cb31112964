import Mathlib

/-! The memory map of the machine. Byte addresses and words have 32 bits; word
addresses are numbers, since no arithmetic on them wraps. -/

namespace VerifiableCompute.Rv32im

abbrev Word := BitVec 32

abbrev ByteAddr := BitVec 32

/-- The word that a byte address lies in. -/
def waddr (addr : ByteAddr) : ℕ := addr.toNat / 4

def pageWords : ℕ := 256

def pageIdx (addr : ℕ) : ℕ := addr / pageWords

def memoryPages : ℕ := 2 ^ 22

def zeroPageEndAddr : ByteAddr := 0x00010000
def userStartAddr : ByteAddr := zeroPageEndAddr
def userEndAddr : ByteAddr := 0xc0000000
def kernelStartAddr : ByteAddr := userEndAddr
def kernelEndAddr : ByteAddr := 0xff000000
def machineRegsAddr : ByteAddr := 0xffff0000
def userRegsAddr : ByteAddr := 0xffff0080
def safeWriteAddr : ByteAddr := 0xffff0100
def mepcAddr : ByteAddr := 0xffff0200
def ecallDispatchAddr : ByteAddr := 0xffff1000
def trapDispatchAddr : ByteAddr := 0xffff2000

def memoryEndAddr : ℕ := 0x40000000

def regMax : ℕ := 32

scoped instance instNeZeroRegMax : NeZero 32 := ⟨by decide⟩

/-- The word addresses of the two register files. -/
def userRegs : ℕ := waddr userRegsAddr

def machineRegs : ℕ := waddr machineRegsAddr

theorem userRegs_eq : userRegs = 0x3fffc020 := rfl

theorem machineRegs_eq : machineRegs = 0x3fffc000 := rfl

/-- The page that both register files lie in. -/
def regsPage : ℕ := pageIdx machineRegs

theorem pageIdx_userRegs_add (i : Fin 32) : pageIdx (userRegs + i) = regsPage := by
  have := i.isLt
  unfold regsPage pageIdx pageWords
  rw [userRegs_eq, machineRegs_eq]
  omega

theorem pageIdx_machineRegs_add (i : Fin 32) : pageIdx (machineRegs + i) = regsPage := by
  have := i.isLt
  unfold regsPage pageIdx pageWords
  rw [machineRegs_eq]
  omega

end VerifiableCompute.Rv32im
