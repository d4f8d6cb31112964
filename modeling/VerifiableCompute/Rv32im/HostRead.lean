import VerifiableCompute.Lib.Bytes
import VerifiableCompute.Rv32im.MachineView

/-! The call by which the kernel reads from the host. The bytes are copied in three
loops, of bytes up to a word boundary, of groups of up to four words, and of the
bytes that are left; each counts on where the one before has stopped. -/

namespace VerifiableCompute.Rv32im

open Lib PagedMemory MachineView

def maxIoBytes : Word := 1024

def maxIoWords : ℕ := 4

def regA0 : Fin 32 := 10
def regA1 : Fin 32 := 11
def regA2 : Fin 32 := 12
def regA3 : Fin 32 := 13
def regA4 : Fin 32 := 14

def toLeBytes (word : Word) : List Byte := leBytes 4 word.toNat

def fromLeBytes (bytes : List Byte) : Word := BitVec.ofNat 32 (leNat bytes)

/-- Answers with how many bytes it has put in the buffer, and with the buffer. -/
abbrev HostReader := Word → (len : ℕ) → Except Fault (Word × Vector Byte len)

namespace Risc0Machine

open Executor

def nextPc : Exec Unit := do
  let pc ← getPc
  setPc (pc + wordSize)

def onEcallCycle : Exec Unit := incUserCycles 1

def storeU8 (addr : ByteAddr) (byte : Byte) : Exec Unit := do
  let word ← loadU32 .record (waddr addr)
  storeU32 (waddr addr) (fromLeBytes ((toLeBytes word).set (addr.toNat % 4) byte))

/-- An access that panics when it is out of range. -/
def index {α : Type} : Option α → Exec α
  | none => fault .panicked
  | some a => pure a

/-- What is recorded of a read is the part of the buffer that it has filled. -/
def hostRead (handler : HostReader) (fd : Word) (len : ℕ) : Exec (Word × List Byte) :=
  match handler fd len with
  | .error f => fault f
  | .ok (rlen, buf) => if len < rlen.toNat then fault .panicked else pure (rlen, buf.toList)

/-- The pointer, the index into the buffer, and how many bytes are left. -/
structure HostReadState where
  ptr : ByteAddr
  i : ℕ
  rlen : ℕ

def endRead (r : HostReadState) : Exec Unit := do
  if r.rlen = 0 then nextPc
  onEcallCycle

section

variable (bytes : List Byte)

def readByte (r : HostReadState) : Exec HostReadState := do
  let byte ← index bytes[r.i]?
  storeU8 r.ptr byte
  let r' : HostReadState := ⟨r.ptr + 1, r.i + 1, r.rlen - 1⟩
  endRead r'
  return r'

def wordAt (i : ℕ) : Option Word :=
  if i + 4 ≤ bytes.length then some (fromLeBytes ((bytes.drop i).take 4)) else none

/-- One of the words of a group; those that it has no more of go to a null address. -/
def readWord (words : ℕ) (r : HostReadState) (j : ℕ) : Exec HostReadState :=
  if j < words then do
    let word ← index (wordAt bytes r.i)
    storeMemory (waddr r.ptr) word
    return ⟨r.ptr + wordSize, r.i + 4, r.rlen - 4⟩
  else do
    storeMemory (waddr safeWriteAddr + j) 0
    return r

def readWords (r : HostReadState) : Exec HostReadState := do
  let r' ← (List.range maxIoWords).foldlM (readWord bytes (min (r.rlen / maxIoWords) maxIoWords)) r
  endRead r'
  return r'

/-- Every iteration uses up some of the bytes. -/
def readAll (r : HostReadState) : Exec HostReadState := do
  let r ← whileLoop .panicked (fun r => r.rlen > 0 && !isAligned r.ptr) (readByte bytes) r.rlen r
  let r ← whileLoop .panicked (fun r => r.rlen ≥ maxIoWords) (readWords bytes) r.rlen r
  whileLoop .panicked (fun r => r.rlen > 0) (readByte bytes) r.rlen r

end

/-- Only the start of a range is checked, and only when there is one. -/
def checkStart (ptr len : Word) : Exec Unit :=
  if len > 0 then do
    let _ ← guestAddr ptr
  else pure ()

def ecallRead (handler : HostReader) : Exec Bool := do
  onEcallCycle
  let fd ← loadRegister regA0
  let ptr ← loadRegister regA1
  let len ← loadRegister regA2
  if ptr + len < ptr then fault (.bail s!"Invalid length in host read: {len.toNat}")
  else if len > maxIoBytes then fault (.bail s!"Invalid length (too big) in host read: {len.toNat}")
  else
    checkStart ptr len
    let (rlen, bytes) ← hostRead handler fd len.toNat
    storeRegister regA0 rlen
    let r : HostReadState := ⟨ptr, 0, rlen.toNat⟩
    endRead r
    let _ ← readAll bytes r
    return false

end Risc0Machine

theorem toLeBytes_length (word : Word) : (toLeBytes word).length = 4 := leBytes_length 4 _

theorem toLeBytes_fromLeBytes {bytes : List Byte} (h : bytes.length = 4) : toLeBytes (fromLeBytes bytes) = bytes := by
  have hlt : leNat bytes < 2 ^ 32 := by
    have := leNat_lt bytes
    rwa [h] at this
  rw [toLeBytes, fromLeBytes, BitVec.toNat_ofNat, Nat.mod_eq_of_lt hlt, ← h, leBytes_leNat]

namespace MachineView

def byte (v : MachineView) (addr : ℕ) : Byte := (toLeBytes (v.words (addr / 4))).getD (addr % 4) 0

variable {v : MachineView}

theorem byte_store {addr : ℕ} {bytes : List Byte} (h : bytes.length = 4) (a : ℕ) :
    (v.store addr (fromLeBytes bytes)).byte a = if a / 4 = addr then bytes.getD (a % 4) 0 else v.byte a := by
  unfold byte
  rw [store_words]
  split_ifs
  · rw [toLeBytes_fromLeBytes h]
  · rfl

theorem byte_store_of_ne {addr a : ℕ} (word : Word) (h : a / 4 ≠ addr) : (v.store addr word).byte a = v.byte a := by
  unfold byte
  rw [store_words_of_ne v word h]

theorem byte_replace (addr : ℕ) (b : Byte) (a : ℕ) :
    (v.store (addr / 4) (fromLeBytes ((toLeBytes (v.words (addr / 4))).set (addr % 4) b))).byte a =
      if a = addr then b else v.byte a := by
  have hlen : ((toLeBytes (v.words (addr / 4))).set (addr % 4) b).length = 4 := by
    rw [List.length_set, toLeBytes_length]
  rw [byte_store hlen]
  by_cases hword : a / 4 = addr / 4
  · rw [if_pos hword]
    by_cases ha : a = addr
    · subst ha
      have hlt : a % 4 < (toLeBytes (v.words (a / 4))).length := by
        rw [toLeBytes_length]
        omega
      rw [if_pos rfl, List.getD_eq_getElem?_getD, List.getElem?_set_self hlt, Option.getD_some]
    · have hne : addr % 4 ≠ a % 4 := by omega
      rw [if_neg ha, List.getD_eq_getElem?_getD, List.getElem?_set_ne hne, byte, hword, List.getD_eq_getElem?_getD]
  · have ha : a ≠ addr := fun ha => hword (by rw [ha])
    rw [if_neg hword, if_neg ha]

end MachineView

namespace Risc0Machine

open Executor

def IsSafeWord (addr : ℕ) : Prop := waddr safeWriteAddr ≤ addr ∧ addr < waddr safeWriteAddr + maxIoWords

theorem pageIdx_of_isSafeWord {addr : ℕ} (h : IsSafeWord addr) : pageIdx addr = regsPage := by
  have hsafe : waddr safeWriteAddr = 0x3fffc040 := by decide
  have hpage : regsPage = 0x3fffc0 := by decide
  unfold IsSafeWord maxIoWords at h
  unfold pageIdx pageWords
  omega

/-- What is written to, and with what. -/
structure Target where
  ptr : ℕ
  bytes : List Byte
  total : ℕ
  total_le : total ≤ bytes.length
  fits : ptr + total < 2 ^ 32
  notRegs : ∀ k < total, pageIdx ((ptr + k) / 4) ≠ regsPage

/-- The first bytes are at their places, and every other one is as before, but for the
words that may be zero. -/
structure Copied (t : Target) (v₀ : MachineView) (r : HostReadState) (v : MachineView) : Prop where
  count : r.i + r.rlen = t.total
  ptr : r.ptr.toNat = t.ptr + r.i
  userPc : v.userPc = v₀.userPc
  mode : v.mode = v₀.mode
  copied : ∀ k < r.i, some (v.byte (t.ptr + k)) = t.bytes[k]?
  kept : ∀ addr, addr < t.ptr ∨ t.ptr + r.i ≤ addr → ¬ IsSafeWord (addr / 4) → v.byte addr = v₀.byte addr
  safe : ∀ addr, IsSafeWord addr → v.words addr = v₀.words addr ∨ v.words addr = 0

/-- The program counter moves when no bytes are left. -/
def Stepped (v₀ : MachineView) (r : HostReadState) (v : MachineView) : Prop :=
  v.pc = if r.rlen = 0 then v₀.pc + wordSize else v₀.pc

variable {t : Target} {v₀ v : MachineView} {r : HostReadState}

namespace Copied

variable (h : Copied t v₀ r v)

include h

theorem jump (pc : ByteAddr) : Copied t v₀ r (v.jump pc) :=
  ⟨h.count, h.ptr, h.userPc, h.mode, h.copied, h.kept, h.safe⟩

theorem waddr_ptr : waddr r.ptr = (t.ptr + r.i) / 4 := by
  rw [waddr, h.ptr]

theorem not_safe (hrlen : 0 < r.rlen) : ¬ IsSafeWord (waddr r.ptr) := by
  intro hsafe
  refine t.notRegs r.i ?_ ?_
  · have := h.count
    omega
  · rw [← h.waddr_ptr]
    exact pageIdx_of_isSafeWord hsafe

theorem ptr_add {n : ℕ} (hn : n ≤ r.rlen) : (r.ptr + BitVec.ofNat 32 n).toNat = t.ptr + (r.i + n) := by
  have hcount := h.count
  have hfits := t.fits
  rw [BitVec.toNat_add, BitVec.toNat_ofNat, h.ptr]
  omega

theorem stored {n : ℕ} (hpos : 0 < n) (hn : n ≤ r.rlen) {word : Word}
    (hin : ∀ k < n, some ((v.store (waddr r.ptr) word).byte (t.ptr + (r.i + k))) = t.bytes[r.i + k]?)
    (hout : ∀ addr, addr < t.ptr + r.i ∨ t.ptr + (r.i + n) ≤ addr →
      (v.store (waddr r.ptr) word).byte addr = v.byte addr) :
    Copied t v₀ ⟨r.ptr + BitVec.ofNat 32 n, r.i + n, r.rlen - n⟩ (v.store (waddr r.ptr) word) where
  count := by
    have := h.count
    dsimp only
    omega
  ptr := h.ptr_add hn
  userPc := h.userPc
  mode := h.mode
  copied k hk := by
    by_cases hlt : k < r.i
    · rw [hout _ (.inl (by omega)), h.copied k hlt]
    · obtain ⟨j, rfl⟩ := Nat.exists_eq_add_of_le (not_lt.mp hlt)
      exact hin j (by dsimp only at hk; omega)
  kept addr haddr hnot := by
    have hout' : addr < t.ptr + r.i ∨ t.ptr + (r.i + n) ≤ addr := by
      dsimp only at haddr
      omega
    rw [hout addr hout']
    exact h.kept addr (by dsimp only at haddr; omega) hnot
  safe addr haddr := by
    have hne : addr ≠ waddr r.ptr := by
      rintro rfl
      exact h.not_safe (by omega) haddr
    rw [store_words_of_ne v word hne]
    exact h.safe addr haddr

theorem byte (hrlen : 0 < r.rlen) {b : Byte} (hb : t.bytes[r.i]? = some b) :
    Copied t v₀ ⟨r.ptr + 1, r.i + 1, r.rlen - 1⟩
      (v.store (waddr r.ptr) (fromLeBytes ((toLeBytes (v.words (waddr r.ptr))).set (r.ptr.toNat % 4) b))) := by
  have hbyte (a : ℕ) : (v.store (waddr r.ptr)
      (fromLeBytes ((toLeBytes (v.words (waddr r.ptr))).set (r.ptr.toNat % 4) b))).byte a =
      if a = t.ptr + r.i then b else v.byte a := by
    rw [← h.ptr]
    exact byte_replace r.ptr.toNat b a
  refine h.stored Nat.one_pos hrlen (fun k hk => ?_) fun addr haddr => ?_
  · obtain rfl : k = 0 := by omega
    rw [hbyte, Nat.add_zero, if_pos rfl]
    exact hb.symm
  · rw [hbyte, if_neg (by omega)]

theorem word (hrlen : 4 ≤ r.rlen) (haligned : r.ptr.toNat % 4 = 0) : Copied t v₀ ⟨r.ptr + wordSize, r.i + 4, r.rlen - 4⟩
      (v.store (waddr r.ptr) (fromLeBytes ((t.bytes.drop r.i).take 4))) := by
  have hcount := h.count
  have htotal := t.total_le
  have hlen : ((t.bytes.drop r.i).take 4).length = 4 := by
    rw [List.length_take, List.length_drop]
    omega
  have hptr := h.ptr
  have hbyte (a : ℕ) : (v.store (waddr r.ptr) (fromLeBytes ((t.bytes.drop r.i).take 4))).byte a =
      if a / 4 = (t.ptr + r.i) / 4 then ((t.bytes.drop r.i).take 4).getD (a % 4) 0 else v.byte a := by
    rw [byte_store hlen, h.waddr_ptr]
  refine h.stored (n := 4) (by decide) hrlen (fun k hk => ?_) fun addr haddr => ?_
  · have hmod : (t.ptr + (r.i + k)) % 4 = k := by omega
    have hlt : r.i + k < t.bytes.length := by omega
    rw [hbyte, if_pos (by omega), hmod, List.getD_eq_getElem?_getD, List.getElem?_take_of_lt hk, List.getElem?_drop,
      List.getElem?_eq_getElem hlt, Option.getD_some]
  · rw [hbyte, if_neg (by omega)]

theorem zeroed {addr : ℕ} (haddr : IsSafeWord addr) : Copied t v₀ r (v.store addr 0) where
  count := h.count
  ptr := h.ptr
  userPc := h.userPc
  mode := h.mode
  copied k hk := by
    have hne : (t.ptr + k) / 4 ≠ addr := by
      intro heq
      have hcount := h.count
      exact t.notRegs k (by omega) (heq ▸ pageIdx_of_isSafeWord haddr)
    rw [byte_store_of_ne 0 hne]
    exact h.copied k hk
  kept a ha hnot := by
    have hne : a / 4 ≠ addr := fun heq => hnot (heq ▸ haddr)
    rw [byte_store_of_ne 0 hne]
    exact h.kept a ha hnot
  safe a ha := by
    rw [store_words]
    split_ifs
    · exact .inr rfl
    · exact h.safe a ha

end Copied

theorem waddr_lt (addr : ByteAddr) : ¬ memoryEndAddr ≤ waddr addr := by
  have := addr.isLt
  unfold waddr memoryEndAddr
  omega

theorem nextPc_runs (v : MachineView) : Runs Shows nextPc v () (v.jump (v.pc + wordSize)) :=
  (getPc_runs v).bind (setPc_runs v (v.pc + wordSize))

theorem storeU8_runs (v : MachineView) (addr : ByteAddr) (b : Byte) : Runs Shows (storeU8 addr b) v ()
    (v.store (waddr addr) (fromLeBytes ((toLeBytes (v.words (waddr addr))).set (addr.toNat % 4) b))) :=
  (loadU32_runs .record v fun _ => waddr_lt addr).bind (storeU32_runs v (fun _ => waddr_lt addr) _)

/-- The end of an iteration before which the program counter has not moved. -/
theorem endRead_runs (h : Copied t v₀ r v) (hpc : v.pc = v₀.pc) :
    ∃ v', Runs Shows (endRead r) v () v' ∧ Copied t v₀ r v' ∧ Stepped v₀ r v' := by
  unfold endRead Stepped
  split_ifs with hdone
  · refine ⟨v.jump (v.pc + wordSize), (nextPc_runs v).bind (incUserCycles_runs _ 1), h.jump _, ?_⟩
    rw [jump_pc, hpc]
  · exact ⟨v, incUserCycles_runs v 1, h, hpc⟩

theorem Stepped.pc (h : Stepped v₀ r v) (hrlen : 0 < r.rlen) : v.pc = v₀.pc := by
  rwa [Stepped, if_neg (by omega)] at h

theorem readByte_runs (h : Copied t v₀ r v) (hstepped : Stepped v₀ r v) (hrlen : 0 < r.rlen) :
    ∃ v', Runs Shows (readByte t.bytes r) v ⟨r.ptr + 1, r.i + 1, r.rlen - 1⟩ v' ∧
      Copied t v₀ ⟨r.ptr + 1, r.i + 1, r.rlen - 1⟩ v' ∧ Stepped v₀ ⟨r.ptr + 1, r.i + 1, r.rlen - 1⟩ v' := by
  have hlt : r.i < t.bytes.length := by
    have hcount := h.count
    have htotal := t.total_le
    omega
  have hbyte := List.getElem?_eq_getElem hlt
  obtain ⟨v', hend, hcopied, hstep⟩ := endRead_runs (h.byte hrlen hbyte) (hstepped.pc hrlen)
  refine ⟨v', ?_, hcopied, hstep⟩
  unfold readByte
  rw [hbyte]
  exact (runs_pure v _).bind ((storeU8_runs v r.ptr _).bind (hend.bind (runs_pure v' _)))

/-- Within a group, after `j` of its words. -/
structure InGroup (t : Target) (v₀ : MachineView) (r₀ : HostReadState) (words j : ℕ) (r : HostReadState) (v : MachineView) :
    Prop where
  copied : Copied t v₀ r v
  pc : v.pc = v₀.pc
  aligned : r.ptr.toNat % 4 = 0
  left : r.rlen + 4 * min j words = r₀.rlen

theorem readWord_runs {r₀ : HostReadState} {words j : ℕ} (hwords : 4 * words ≤ r₀.rlen) (hj : j < maxIoWords)
    (h : InGroup t v₀ r₀ words j r v) :
    ∃ r' v', Runs Shows (readWord t.bytes words r j) v r' v' ∧ InGroup t v₀ r₀ words (j + 1) r' v' := by
  have hleft := h.left
  unfold readWord
  split_ifs with hlt
  · have hrlen : 4 ≤ r.rlen := by omega
    have hcopied := h.copied.word hrlen h.aligned
    have hcount := h.copied.count
    have htotal := t.total_le
    have hptr := h.copied.ptr
    have hptr' := hcopied.ptr
    refine ⟨⟨r.ptr + wordSize, r.i + 4, r.rlen - 4⟩, _, ?_, hcopied, h.pc, ?_, ?_⟩
    · rw [wordAt, if_pos (by omega)]
      exact (runs_pure v _).bind ((storeU32_runs v (fun _ => waddr_lt r.ptr) _).bind (runs_pure _ _))
    · have haligned := h.aligned
      dsimp only at hptr' ⊢
      omega
    · dsimp only
      omega
  · have hsafe : IsSafeWord (waddr safeWriteAddr + j) := ⟨Nat.le_add_right _ _, Nat.add_lt_add_left hj _⟩
    have hend : ¬ memoryEndAddr ≤ waddr safeWriteAddr + j := by
      have heq : waddr safeWriteAddr = 0x3fffc040 := by decide
      unfold maxIoWords at hj
      unfold memoryEndAddr
      omega
    exact ⟨r, _, (storeU32_runs v (fun _ => hend) 0).bind (runs_pure _ r), h.copied.zeroed hsafe, h.pc, h.aligned, by omega⟩

/-- What a loop over words keeps. -/
def AtWord (t : Target) (v₀ : MachineView) (r : HostReadState) (v : MachineView) : Prop :=
  Copied t v₀ r v ∧ Stepped v₀ r v ∧ (r.rlen = 0 ∨ r.ptr.toNat % 4 = 0)

theorem readWords_runs (h : AtWord t v₀ r v) (hrlen : maxIoWords ≤ r.rlen) :
    ∃ r' v', Runs Shows (readWords t.bytes r) v r' v' ∧ AtWord t v₀ r' v' ∧ r'.rlen < r.rlen := by
  obtain ⟨hcopied, hstepped, haligned⟩ := h
  unfold maxIoWords at hrlen
  have hstart : InGroup t v₀ r (min (r.rlen / maxIoWords) maxIoWords) 0 r v :=
    ⟨hcopied, hstepped.pc (by omega), haligned.resolve_left (by omega), by omega⟩
  obtain ⟨r', v', hrun, hgroup⟩ := runs_range (InGroup t v₀ r (min (r.rlen / maxIoWords) maxIoWords))
    (fun j hj r' v' => readWord_runs (by unfold maxIoWords; omega) hj) hstart
  obtain ⟨v'', hend, hcopied', hstepped'⟩ := endRead_runs hgroup.copied hgroup.pc
  have hleft := hgroup.left
  unfold maxIoWords at hleft
  exact ⟨r', v'', hrun.bind (hend.bind (runs_pure v'' r')), ⟨hcopied', hstepped', .inr hgroup.aligned⟩, by omega⟩

theorem readAll_runs (h : Copied t v₀ r v) (hstepped : Stepped v₀ r v) :
    ∃ r' v', Runs Shows (readAll t.bytes r) v r' v' ∧ Copied t v₀ r' v' ∧ Stepped v₀ r' v' ∧ r'.rlen = 0 := by
  have hbyte (r : HostReadState) (v : MachineView) (h : Copied t v₀ r v ∧ Stepped v₀ r v) (hrlen : 0 < r.rlen) :
      ∃ r' v', Runs Shows (readByte t.bytes r) v r' v' ∧ (Copied t v₀ r' v' ∧ Stepped v₀ r' v') ∧ r'.rlen < r.rlen := by
    obtain ⟨v', hrun, hcopied, hstepped⟩ := readByte_runs h.1 h.2 hrlen
    exact ⟨_, v', hrun, ⟨hcopied, hstepped⟩, by dsimp only; omega⟩
  obtain ⟨r₁, v₁, hrun1, hI1, hend1⟩ := runs_while (fun r v => Copied t v₀ r v ∧ Stepped v₀ r v) HostReadState.rlen
    Fault.panicked (fun r => r.rlen > 0 && !isAligned r.ptr) (fun r v hI hcond => hbyte r v hI (by
      rw [Bool.and_eq_true] at hcond
      exact of_decide_eq_true hcond.1)) ⟨h, hstepped⟩ le_rfl
  have haligned : r₁.rlen = 0 ∨ r₁.ptr.toNat % 4 = 0 := by
    rw [Bool.and_eq_false_iff, Bool.not_eq_false'] at hend1
    exact hend1.imp (fun hzero => by simpa using hzero) fun haligned => of_decide_eq_true haligned
  obtain ⟨r₂, v₂, hrun2, hI2, -⟩ := runs_while (AtWord t v₀) HostReadState.rlen Fault.panicked
    (fun r => r.rlen ≥ maxIoWords) (fun r v hI hcond => readWords_runs hI (of_decide_eq_true hcond))
    (⟨hI1.1, hI1.2, haligned⟩ : AtWord t v₀ r₁ v₁) le_rfl
  obtain ⟨r₃, v₃, hrun3, hI3, hend3⟩ := runs_while (fun r v => Copied t v₀ r v ∧ Stepped v₀ r v) HostReadState.rlen
    Fault.panicked (fun r => r.rlen > 0) (fun r v hI hcond => hbyte r v hI (of_decide_eq_true hcond))
    ⟨hI2.1, hI2.2.1⟩ le_rfl
  refine ⟨r₃, v₃, hrun1.bind (hrun2.bind hrun3), hI3.1, hI3.2, ?_⟩
  simpa using hend3

/-- The checks that are made before the host is asked. -/
structure HostReadAllowed (ptr len : Word) : Prop where
  noWrap : ¬ ptr + len < ptr
  short : ¬ len > maxIoBytes
  guest : len > 0 → ¬ ptr < zeroPageEndAddr

/-- The bytes are where they were asked for, and their number is in its register; the
rest is as before, but for the words that may be zero. -/
structure HostReadDone (ptr : ByteAddr) (rlen : Word) (bytes : List Byte) (v v' : MachineView) : Prop where
  pc : v'.pc = v.pc + wordSize
  userPc : v'.userPc = v.userPc
  mode : v'.mode = v.mode
  copied : ∀ k < rlen.toNat, some (v'.byte (ptr.toNat + k)) = bytes[k]?
  count : v'.words (machineRegs + regA0) = rlen
  kept : ∀ addr, addr < ptr.toNat ∨ ptr.toNat + rlen.toNat ≤ addr → addr / 4 ≠ machineRegs + regA0 →
    ¬ IsSafeWord (addr / 4) → v'.byte addr = v.byte addr
  safe : ∀ addr, IsSafeWord addr → v'.words addr = v.words addr ∨ v'.words addr = 0

theorem HostReadAllowed.fits {ptr len : Word} (h : HostReadAllowed ptr len) : ptr.toNat + len.toNat < 2 ^ 32 := by
  have hwrap := h.noWrap
  have hshort := h.short
  have hptr := ptr.isLt
  have hmax : maxIoBytes.toNat = 1024 := by decide
  rw [BitVec.not_lt, BitVec.le_def] at hwrap hshort
  rw [BitVec.toNat_add] at hwrap
  omega

theorem word_of_bytes {v v' : MachineView} {addr : ℕ} (h : ∀ k < 4, v'.byte (4 * addr + k) = v.byte (4 * addr + k)) :
    v'.words addr = v.words addr := by
  have hbytes : toLeBytes (v'.words addr) = toLeBytes (v.words addr) := by
    refine List.ext_getElem (by rw [toLeBytes_length, toLeBytes_length]) fun k hk hk' => ?_
    rw [toLeBytes_length] at hk
    have hbyte := h k hk
    have hdiv : (4 * addr + k) / 4 = addr := by omega
    have hmod : (4 * addr + k) % 4 = k := by omega
    rw [byte, byte, hdiv, hmod, List.getD_eq_getElem, List.getD_eq_getElem] at hbyte
    exact hbyte
  have hnat := congrArg leNat hbytes
  have hlt (w : Word) : w.toNat < 256 ^ 4 := w.isLt
  rw [toLeBytes, toLeBytes, leNat_leBytes, leNat_leBytes, Nat.mod_eq_of_lt (hlt _), Nat.mod_eq_of_lt (hlt _)] at hnat
  exact BitVec.eq_of_toNat_eq hnat

theorem pageIdx_reg (idx : Fin 32) : pageIdx (machineRegs + idx) = regsPage := pageIdx_machineRegs_add idx

theorem ecallRead_runs {handler : HostReader} (hmode : v.mode ≠ 0)
    (hallowed : HostReadAllowed (v.words (machineRegs + regA1)) (v.words (machineRegs + regA2))) {rlen : Word}
    {bytes : Vector Byte (v.words (machineRegs + regA2)).toNat}
    (hread : handler (v.words (machineRegs + regA0)) (v.words (machineRegs + regA2)).toNat = .ok (rlen, bytes))
    (hrlen : rlen.toNat ≤ (v.words (machineRegs + regA2)).toNat)
    (htarget : ∀ k < rlen.toNat, pageIdx (((v.words (machineRegs + regA1)).toNat + k) / 4) ≠ regsPage) :
    ∃ v', Runs Shows (ecallRead handler) v false v' ∧
      HostReadDone (v.words (machineRegs + regA1)) rlen bytes.toList v v' := by
  have hregs : v.regs = machineRegs := if_pos hmode
  have hfits := hallowed.fits
  generalize hptr : v.words (machineRegs + regA1) = ptr at *
  generalize hlen : v.words (machineRegs + regA2) = len at *
  have hload (idx : Fin 32) : Runs Shows (loadRegister idx) v (v.words (machineRegs + idx)) v :=
    hregs ▸ loadRegister_runs v idx
  have hstore : Runs Shows (storeRegister regA0 rlen) v () (v.store (machineRegs + regA0) rlen) := by
    have hrun := storeRegister_runs (c := True) v regA0 rlen
    rwa [writeAddr, if_neg (by decide), hregs] at hrun
  let t : Target := ⟨ptr.toNat, bytes.toList, rlen.toNat, by rw [Vector.length_toList]; exact hrlen, by omega, htarget⟩
  have hstart : Copied t (v.store (machineRegs + regA0) rlen) ⟨ptr, 0, rlen.toNat⟩ (v.store (machineRegs + regA0) rlen) :=
    ⟨Nat.zero_add _, rfl, rfl, rfl, fun k hk => absurd hk (Nat.not_lt_zero k), fun _ _ _ => rfl, fun _ _ => .inl rfl⟩
  obtain ⟨v₁, hend, hcopied1, hstepped1⟩ := endRead_runs hstart rfl
  obtain ⟨r', v', hall, hcopied, hstepped, hdone⟩ := readAll_runs hcopied1 hstepped1
  have hi : r'.i = rlen.toNat := by
    have := hcopied.count
    rw [hdone] at this
    exact this
  refine ⟨v', ?_, ?_, hcopied.userPc, hcopied.mode, ?_, ?_, fun addr haddr hne hnot => ?_, fun addr haddr => ?_⟩
  · have hguest : Runs Shows (checkStart ptr len) v PUnit.unit v := by
      refine runs_ite (fun hpos => ?_) fun _ => runs_pure v _
      rw [guestAddr, if_neg (hallowed.guest hpos)]
      exact (runs_pure v ptr).bind (runs_pure v _)
    have hhost : Runs Shows (hostRead handler (v.words (machineRegs + regA0)) len.toNat) v (rlen, bytes.toList) v := by
      rw [hostRead, hread]
      dsimp only
      rw [if_neg (by omega)]
      exact runs_pure v _
    refine (incUserCycles_runs v 1).bind ((hload regA0).bind ((hload regA1).bind ((hload regA2).bind ?_)))
    rw [hptr, hlen, if_neg hallowed.noWrap, if_neg hallowed.short]
    exact hguest.bind (hhost.bind (hstore.bind (hend.bind (hall.bind (runs_pure v' false)))))
  · rwa [Stepped, if_pos hdone] at hstepped
  · intro k hk
    exact hcopied.copied k (hi ▸ hk)
  · have hnot : ¬ IsSafeWord (machineRegs + regA0) := by
      intro hsafe
      exact absurd hsafe.1 (by decide)
    have hword : v'.words (machineRegs + regA0) = (v.store (machineRegs + regA0) rlen).words (machineRegs + regA0) := by
      refine word_of_bytes fun k hk => hcopied.kept _ ?_ ?_
      · by_contra hin
        rw [not_or, not_lt, not_le] at hin
        refine htarget (4 * (machineRegs + regA0) + k - ptr.toNat) ?_ ?_
        · have := hin.1
          have := hin.2
          show _ - t.ptr < _
          omega
        · have hdiv : (ptr.toNat + (4 * (machineRegs + regA0) + k - ptr.toNat)) / 4 = machineRegs + regA0 := by
            have : t.ptr = ptr.toNat := rfl
            omega
          rw [hdiv]
          exact pageIdx_reg regA0
      · have hdiv : (4 * (machineRegs + regA0) + k) / 4 = machineRegs + regA0 := by omega
        rwa [hdiv]
    rw [hword, store_words_self]
  · rw [hcopied.kept addr (by rw [hi]; exact haddr) hnot, byte_store_of_ne rlen hne]
  · have hne : addr ≠ machineRegs + regA0 := by
      rintro rfl
      exact absurd haddr.1 (by decide)
    have hsafe := hcopied.safe addr haddr
    rwa [store_words_of_ne v rlen hne] at hsafe

/-- A host read that passes its checks copies what the host has answered with, and goes
on at the next instruction. -/
theorem host_read (handler : HostReader) (s : Executor) (hs : s.Sound) (hmode : s.machineMode ≠ 0)
    (hallowed : HostReadAllowed (s.pager.word (machineRegs + regA1)) (s.pager.word (machineRegs + regA2))) {rlen : Word}
    {bytes : Vector Byte (s.pager.word (machineRegs + regA2)).toNat}
    (hread : handler (s.pager.word (machineRegs + regA0)) (s.pager.word (machineRegs + regA2)).toNat = .ok (rlen, bytes))
    (hrlen : rlen.toNat ≤ (s.pager.word (machineRegs + regA2)).toNat)
    (htarget : ∀ k < rlen.toNat, pageIdx (((s.pager.word (machineRegs + regA1)).toNat + k) / 4) ≠ regsPage) :
    ∃ s', ecallRead handler s = .ok (false, s') ∧ s'.Sound ∧
      HostReadDone (s.pager.word (machineRegs + regA1)) rlen bytes.toList s.machineView s'.machineView := by
  obtain ⟨v', hrun, hdone⟩ := ecallRead_runs (v := s.machineView) hmode hallowed hread hrlen htarget
  obtain ⟨s', hs', hshows⟩ := hrun.total trivial (shows_machineView hs)
  exact ⟨s', hs', hshows.sound, by rw [hshows.machineView_eq]; exact hdone⟩

/-- Asks for six bytes at an odd address. -/
def readImage : MemoryImage where
  pages := OrderedMap.empty.insert regsPage
    ((Page.zero.store (machineRegs + regA1) 0x10003).store (machineRegs + regA2) 6)
  isZero := fun _ => true

def fillSeven : HostReader := fun _ len => .ok (BitVec.ofNat 32 len, Vector.replicate len 7)

theorem host_read_sample : ∃ m s', PagedMemory.new readImage false = some m ∧
    ecallRead fillSeven ⟨0xc0000000, 0, 1, 0, m⟩ = .ok (false, s') ∧ s'.Sound ∧
      HostReadDone 0x10003 6 [7, 7, 7, 7, 7, 7] (machineView ⟨0xc0000000, 0, 1, 0, m⟩) s'.machineView := by
  have hregs : ((PagedMemory.new readImage false).map fun m =>
      (m.word (machineRegs + regA0), m.word (machineRegs + regA1), m.word (machineRegs + regA2))) =
        some (0, 0x10003, 6) := by
    decide
  obtain ⟨m, hm, hregs⟩ := Option.map_eq_some_iff.mp hregs
  obtain ⟨-, hregs⟩ := Prod.ext_iff.mp hregs
  obtain ⟨hptr, hlen⟩ := Prod.ext_iff.mp hregs
  have hsound : Sound ⟨0xc0000000, 0, 1, 0, m⟩ := sound_of_run hm (List.forall_mem_nil MemoryOp.Valid) rfl rfl
  dsimp only at hptr hlen
  have hread := host_read fillSeven ⟨0xc0000000, 0, 1, 0, m⟩ hsound (show (1 : Word) ≠ 0 by decide)
  dsimp only at hread
  rw [hptr, hlen] at hread
  obtain ⟨s', hrun, hs', hdone⟩ := hread ⟨by decide, by decide, by decide⟩ rfl (by decide) (by decide)
  exact ⟨m, s', hm, hrun, hs', hdone⟩

end Risc0Machine

end VerifiableCompute.Rv32im
