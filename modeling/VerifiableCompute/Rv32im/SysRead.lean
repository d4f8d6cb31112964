import VerifiableCompute.Lib.Reader
import VerifiableCompute.Rv32im.HostRead

/-! Reading from a file descriptor of the host. The kernel cuts the buffer of the user into chunks; for each it asks the
host once for the whole words of the chunk and once for the count and for the bytes of a last, partial word. -/

namespace VerifiableCompute.Rv32im

open Lib Executor Risc0Machine MachineView Nat BitVec Function Vector

/-! ### The host -/

/-- The readers by file descriptor, and what the last call has returned in registers. -/
structure Host (σ : Type) where
  reader : Reader Byte σ
  readFds : Word → Option σ
  returnCache : Word × Word

/-- The host's buffers are filled with zeros. -/
def buffer (len : ℕ) (bytes : List Byte) : Vector Byte len := .ofFn fun i => bytes.getD i 0

def sysReadName : List Byte := asciiBytes "risc0_zkvm_platform::syscall::nr::SYS_READ"

def byteOf (words : ℕ → Word) (addr : ℕ) : Byte := (toLeBytes (words (addr / 4))).getD (addr % 4) 0

/-- The string that ends at the first zero byte, if there is one in as many bytes as there are addresses. -/
def peekString (words : ℕ → Word) : ℕ → ByteAddr → Option (List Byte)
  | 0, _ => none
  | n + 1, addr =>
    let byte := byteOf words addr.toNat
    if byte = 0 then some [] else (peekString words n (addr + 1)).map (byte :: ·)

namespace Host

variable {σ : Type}

/-- The count and the last word, what goes to the guest, and the reader behind it. -/
structure SysReadAnswer (σ : Type) where
  returned : Word × Word
  toGuest : List Byte
  state : σ

variable (host : Host σ) (words : ℕ → Word)

/-- The registers of the user name the descriptor and the number of bytes. -/
def sysRead (toGuestWords : ℕ) : Except Fault (SysReadAnswer σ) :=
  let fd := words (userRegs + regA3)
  let nbytes := (words (userRegs + regA4)).toNat
  if nbytes < toGuestWords * 4 then .error .panicked
  else
    match host.readFds fd with
    | none => .error (.bail s!"Bad read file descriptor {fd.toNat}")
    | some s =>
      let main := host.reader.readFull (toGuestWords * 4) s
      let nreadMain := main.1.length
      let unalignedEnd := if nbytes - nreadMain ≤ 4 then nbytes - nreadMain else 0
      let last := host.reader.readFull unalignedEnd main.2
      let nreadTotal := nreadMain + last.1.length
      .ok ⟨(BitVec.ofNat 32 nreadTotal, fromLeBytes (buffer 4 last.1).toList), main.1, last.2⟩

/-- What the guest's read from the host comes to: the two words of the last call, or the call that is named in memory. Of
the calls only the one that reads is followed. -/
def hostRead (fd : Word) (len : ℕ) : Except Fault ((Word × Vector Byte len) × Host σ) :=
  if fd = 0 then
    if len % 4 ≠ 0 ∨ len < 8 then .error .panicked
    else .ok ((8, buffer len (toLeBytes host.returnCache.1 ++ toLeBytes host.returnCache.2)), host)
  else
    match peekString words (2 ^ 32) fd with
    | none => .error (.bail "invalid string")
    | some name =>
      if name = sysReadName then
        (host.sysRead words ((len + 3) / 4)).map fun answer =>
          ((BitVec.ofNat 32 len, buffer len answer.toGuest),
            { host with
              readFds := Function.update host.readFds (words (userRegs + regA3)) (some answer.state)
              returnCache := answer.returned })
      else .error (.bail "Unknown syscall")

/-- What the machine gets of the answer. -/
def handler : HostReader := fun fd len => (host.hostRead words fd len).map (·.1)

/-- The host behind the answer. -/
def after (fd : Word) (len : ℕ) : Host σ :=
  ((host.hostRead words fd len).map (·.2)).toOption.getD host

end Host

/-! ### The kernel -/

/-- The kernel runs on the machine, and its calls are answered by the host. -/
abbrev Sys (σ : Type) := StateT (Host σ) Exec

namespace Sys

variable {σ : Type}

def getUreg (idx : Fin 32) : Sys σ Word := (loadU32 .load (userRegs + idx) : Exec Word)

def setUreg (idx : Fin 32) (word : Word) : Sys σ Unit := (storeU32 (userRegs + idx) word : Exec Unit)

/-- What the host sees of memory. -/
def peekWords : Exec (ℕ → Word) := fun s => .ok (s.pager.word, s)

/-- The call of the kernel: its registers are set, and the machine reads from the host. -/
def hostEcallRead (fd ptr nbytes : Word) : Sys σ Word := fun host => do
  Risc0Machine.storeRegister regA0 fd
  Risc0Machine.storeRegister regA1 ptr
  Risc0Machine.storeRegister regA2 nbytes
  let words ← peekWords
  let _ ← Risc0Machine.ecallRead (host.handler words)
  let rlen ← Risc0Machine.loadRegister regA0
  return (rlen, host.after words fd nbytes.toNat)

def readA0A1 (stackBuf : ByteAddr) : Sys σ (Word × Word) := do
  let _ ← hostEcallRead 0 stackBuf 8
  let a0 ← (loadU32 .load (waddr stackBuf) : Exec Word)
  let a1 ← (loadU32 .load (waddr stackBuf + 1) : Exec Word)
  return (a0, a1)

def illegalInstruction {α : Type} : Sys σ α := (fault .illegalTrap : Exec α)

def maxIo : ℕ := 1024

/-- The chunks of a buffer, each with its length. -/
def chunksMut (ptr : ByteAddr) (nbytes : ℕ) : List (ByteAddr × ℕ) :=
  (List.range ((nbytes + 1023) / maxIo)).map fun i => (ptr + BitVec.ofNat 32 (maxIo * i), min maxIo (nbytes - maxIo * i))

/-- The bytes of the last word go behind the whole words of the chunk. -/
def copyFinal (ptr : ByteAddr) (bytes : List Byte) : Sys σ Unit :=
  ((List.range bytes.length).forM fun i => Risc0Machine.storeU8 (ptr + BitVec.ofNat 32 i) (bytes.getD i 0) : Exec PUnit)

/-- The whole words of a chunk, and then what the host has returned. -/
def readMain (stackBuf : ByteAddr) (fd : Word) (ptr : ByteAddr) (nbytes : ℕ) : Sys σ (Word × Word) := do
  setUreg regA4 (BitVec.ofNat 32 nbytes)
  let nbytesMain := nbytes / 4 * 4
  let _ ← hostEcallRead fd ptr (BitVec.ofNat 32 nbytesMain)
  readA0A1 stackBuf

def readChunk (stackBuf : ByteAddr) (fd : Word) (chunk : ByteAddr × ℕ) : Sys σ ℕ := do
  let nbytes := chunk.2
  let nbytesMain := nbytes / 4 * 4
  let answer ← readMain stackBuf fd chunk.1 nbytes
  let nreadBytes := answer.1.toNat
  if nreadBytes > nbytes then illegalInstruction
  else if nreadBytes > nbytesMain then do
    copyFinal (chunk.1 + BitVec.ofNat 32 nbytesMain) ((toLeBytes answer.2).take (nreadBytes - nbytesMain))
    return nreadBytes
  else return nreadBytes

/-- A short read is the last one. -/
def readChunks (stackBuf : ByteAddr) (fd : Word) : List (ByteAddr × ℕ) → Word → Sys σ Word
  | [], totalBytes => pure totalBytes
  | chunk :: chunks, totalBytes => do
    let nreadBytes ← readChunk stackBuf fd chunk
    let totalBytes := totalBytes + BitVec.ofNat 32 nreadBytes
    if nreadBytes < chunk.2 then return totalBytes
    else readChunks stackBuf fd chunks totalBytes

def assertUserRawSlice (ptr : ByteAddr) (nbytes : Word) : Sys σ Unit :=
  if nbytes > 0 ∧ min (ptr.toNat + nbytes.toNat) (2 ^ 32 - 1) > userEndAddr.toNat then illegalInstruction else pure ()

def sysRead (stackBuf : ByteAddr) (fd : Word) (buf : ByteAddr) (nbytes : Word) : Sys σ Unit := do
  assertUserRawSlice buf nbytes
  let userNbytes ← getUreg regA4
  let totalBytes ← readChunks stackBuf fd (chunksMut buf nbytes.toNat) 0
  setUreg regA0 totalBytes
  setUreg regA4 userNbytes

end Sys

/-! ### Bytes that the host call does not touch -/

/-- All bytes but those of the kernel's own registers and what lies behind the register files. -/
def Tracked (a : ℕ) : Prop := a < 0xffff0000 ∨ (0xffff0080 ≤ a ∧ a < 0xffff0100)

namespace Sys

variable {σ α β : Type} {host host' : Host σ} {v v' v'' : MachineView}

/-- From a view and a host to a view and a host. -/
def Ends (x : Sys σ α) (v : MachineView) (host : Host σ) (a : α) (v' : MachineView) (host' : Host σ) : Prop :=
  Runs Shows (x host) v (a, host') v'

theorem Ends.bind {x : Sys σ α} {k : α → Sys σ β} {a : α} {b : β} (hx : Ends x v host a v' host')
    (hk : Ends (k a) v' host' b v'' host'') : Ends (x >>= k) v host b v'' host'' := by
  have hbind : (x >>= k) host = (x host >>= fun p => k p.1 p.2) := rfl
  unfold Ends
  rw [hbind]
  exact RunsIf.bind hx hk

theorem ends_pure (a : α) : Ends (pure a : Sys σ α) v host a v host := runs_pure v (a, host)

theorem ends_lift {x : Exec α} {a : α} (hx : Runs Shows x v a v') : Ends (x : Sys σ α) v host a v' host := by
  have hlift : (x : Sys σ α) host = (x >>= fun a => pure (a, host)) := rfl
  unfold Ends
  rw [hlift]
  exact RunsIf.bind hx (runs_pure v' (a, host))

theorem peekWords_runs (v : MachineView) : Runs Shows peekWords v v.words v :=
  runs_of_total fun s hs => ⟨s, by rw [peekWords, funext hs.words], hs⟩

def calling (v : MachineView) (fd ptr nbytes : Word) : MachineView :=
  ((v.store (machineRegs + regA0) fd).store (machineRegs + regA1) ptr).store (machineRegs + regA2) nbytes

variable {a : ℕ} {fd ptr nbytes : Word}

theorem tracked_ne_machineRegs (h : Tracked a) (idx : Fin 32) : a / 4 ≠ machineRegs + idx := by
  have hidx := idx.isLt
  have hregs : machineRegs = 0x3fffc000 := rfl
  unfold Tracked at h
  omega

theorem tracked_not_safe (h : Tracked a) : ¬IsSafeWord (a / 4) := by
  have hsafe : waddr safeWriteAddr = 0x3fffc040 := rfl
  rintro ⟨hlow, hhigh⟩
  unfold maxIoWords at hhigh
  unfold Tracked at h
  omega

theorem calling_byte (h : Tracked a) : (calling v fd ptr nbytes).byte a = v.byte a := by
  unfold calling
  rw [byte_store_of_ne _ (tracked_ne_machineRegs h _), byte_store_of_ne _ (tracked_ne_machineRegs h _),
    byte_store_of_ne _ (tracked_ne_machineRegs h _)]

/-- What the call has done: the bytes that the host answered are at the pointer, and no other tracked byte has changed. -/
structure Read (ptr : ByteAddr) (bytes : List Byte) (v v' : MachineView) : Prop where
  mode : v'.mode = v.mode
  copied : ∀ k < bytes.length, v'.byte (ptr.toNat + k) = bytes.getD k 0
  kept : ∀ a, Tracked a → a < ptr.toNat ∨ ptr.toNat + bytes.length ≤ a → v'.byte a = v.byte a

theorem ecallRead_at {handler : HostReader} {len rlen : Word} {bytes : Vector Byte len.toNat} (hmode : v.mode ≠ 0)
    (hfd : v.words (machineRegs + regA0) = fd) (hptr : v.words (machineRegs + regA1) = ptr)
    (hlen : v.words (machineRegs + regA2) = len) (hallowed : HostReadAllowed ptr len)
    (hread : handler fd len.toNat = .ok (rlen, bytes)) (hrlen : rlen.toNat ≤ len.toNat)
    (htarget : ∀ k < rlen.toNat, pageIdx ((ptr.toNat + k) / 4) ≠ regsPage) :
    ∃ v', Runs Shows (ecallRead handler) v false v' ∧
      HostReadDone ptr rlen bytes.toList v v' := by
  subst hfd hptr hlen
  exact ecallRead_runs hmode hallowed hread hrlen htarget

theorem pageIdx_ne_regsPage (h : a < 0xffff0000) : pageIdx (a / 4) ≠ regsPage := by
  have hpage : regsPage = 0x3fffc0 := rfl
  unfold pageIdx pageWords
  omega

theorem hostEcallRead_ends (hmode : v.mode ≠ 0) (hallowed : HostReadAllowed ptr nbytes)
    {bytes : Vector Byte nbytes.toNat} (hend : ptr.toNat + nbytes.toNat ≤ 0xffff0000)
    (hread : host.hostRead (calling v fd ptr nbytes).words fd nbytes.toNat = .ok ((nbytes, bytes), host')) :
    ∃ v', Ends (hostEcallRead fd ptr nbytes) v host nbytes v' host' ∧ Read ptr bytes.toList v v' := by
  have hregs {w : MachineView} (hw : w.mode = v.mode) : w.regs = machineRegs := if_pos (by rwa [hw])
  have hcall (idx : Fin 32) (hidx : idx ≠ 0) {w : MachineView} (hw : w.mode = v.mode) (word : Word) :
      Runs Shows (storeRegister idx word) w () (w.store (machineRegs + idx) word) := by
    have hrun := storeRegister_runs (c := True) w idx word
    rwa [writeAddr, if_neg hidx, hregs hw] at hrun
  have hlength : bytes.toList.length = nbytes.toNat := length_toList ..
  have hfd : (calling v fd ptr nbytes).words (machineRegs + regA0) = fd := rfl
  have hptr : (calling v fd ptr nbytes).words (machineRegs + regA1) = ptr := rfl
  have hlen : (calling v fd ptr nbytes).words (machineRegs + regA2) = nbytes := rfl
  have hanswer : host.handler (calling v fd ptr nbytes).words fd nbytes.toNat = .ok (nbytes, bytes) := by
    rw [Host.handler, hread]
    rfl
  have hafter : host.after (calling v fd ptr nbytes).words fd nbytes.toNat = host' := by
    rw [Host.after, hread]
    rfl
  obtain ⟨v', hrun, hdone⟩ := ecallRead_at (v := calling v fd ptr nbytes) hmode hfd hptr hlen hallowed hanswer le_rfl
    fun k hk => pageIdx_ne_regsPage (by omega)
  have hload : Runs Shows (loadRegister regA0) v' nbytes v' := by
    have hrun := loadRegister_runs (c := True) v' regA0
    rwa [hregs hdone.mode, hdone.count] at hrun
  refine ⟨v', ?_, hdone.mode, fun k hk => ?_, fun a ha hout => ?_⟩
  · have hreturn : Runs Shows (pure (nbytes, host.after (calling v fd ptr nbytes).words fd nbytes.toNat) : Exec (Word × Host σ))
        v' (nbytes, host') v' := by
      rw [hafter]
      exact runs_pure v' _
    refine (hcall regA0 (by decide) (by rfl) fd).bind ?_
    refine (hcall regA1 (by decide) (by rfl) ptr).bind ?_
    refine (hcall regA2 (by decide) (by rfl) nbytes).bind ?_
    refine (peekWords_runs (calling v fd ptr nbytes)).bind ?_
    exact hrun.bind (hload.bind hreturn)
  · have hcopied := hdone.copied k (hlength ▸ hk)
    rw [List.getD_eq_getElem?_getD, ← hcopied, Option.getD_some]
  · rw [hdone.kept a (by rwa [hlength] at hout) (tracked_ne_machineRegs ha _) (tracked_not_safe ha), calling_byte ha]

theorem buffer_toList {len : ℕ} {bytes : List Byte} (h : bytes.length = len) : (buffer len bytes).toList = bytes := by
  refine List.ext_getElem (by rw [length_toList, h]) fun k hk hk' => ?_
  rw [getElem_toList]
  exact (getElem_ofFn ..).trans (List.getD_eq_getElem _ _ hk')

theorem words_of_leBytes {addr : ℕ} {word : Word} (h : ∀ k < 4, v.byte (4 * addr + k) = (toLeBytes word).getD k 0) :
    v.words addr = word := by
  have hstored : v.words addr = (v.store addr word).words addr := by
    refine word_of_bytes fun k hk => ?_
    have hdiv : (4 * addr + k) / 4 = addr := by omega
    have hmod : (4 * addr + k) % 4 = k := by omega
    rw [h k hk, byte, hdiv, hmod, store_words_self]
  rw [hstored, store_words_self]

/-- A place for two words on the stack of the kernel, which lies above the memory of the user and below the registers. -/
structure KernelPair (addr : ByteAddr) : Prop where
  aligned : addr.toNat % 4 = 0
  kernel : kernelStartAddr.toNat ≤ addr.toNat
  fits : addr.toNat + 8 ≤ machineRegsAddr.toNat

theorem readA0A1_ends {stackBuf : ByteAddr} (hmode : v.mode ≠ 0) (hstack : KernelPair stackBuf) :
    ∃ v', Ends (readA0A1 stackBuf) v host host.returnCache v' host ∧ v'.mode = v.mode ∧
      ∀ a, Tracked a → a < kernelStartAddr.toNat ∨ machineRegsAddr.toNat ≤ a → v'.byte a = v.byte a := by
  have haligned := hstack.aligned
  have hkernel := hstack.kernel
  have hfits := hstack.fits
  have hstart : kernelStartAddr.toNat = 0xc0000000 := rfl
  have hend : machineRegsAddr.toNat = 0xffff0000 := rfl
  obtain ⟨cache, hcache⟩ : ∃ cache, host.returnCache = cache := ⟨_, rfl⟩
  obtain ⟨a0, a1⟩ := cache
  have hlength : (toLeBytes a0 ++ toLeBytes a1).length = 8 := by rw [List.length_append, toLeBytes_length, toLeBytes_length]
  have hread : host.hostRead (calling v 0 stackBuf 8).words 0 (8 : Word).toNat =
      .ok ((8, buffer 8 (toLeBytes a0 ++ toLeBytes a1)), host) := by
    rw [Host.hostRead, hcache]
    rfl
  have hallowed : HostReadAllowed stackBuf 8 := by
    refine ⟨?_, by decide, fun _ => ?_⟩
    · have height : (8 : Word).toNat = 8 := rfl
      rw [lt_def, toNat_add]
      omega
    · have hzero : zeroPageEndAddr.toNat = 0x10000 := rfl
      rw [lt_def]
      omega
  obtain ⟨v', hrun, hdone⟩ := hostEcallRead_ends hmode hallowed hfits hread
  rw [buffer_toList hlength] at hdone
  have hbyte (k : ℕ) (hk : k < 8) : v'.byte (stackBuf.toNat + k) = (toLeBytes a0 ++ toLeBytes a1).getD k 0 :=
    hdone.copied k (hlength ▸ hk)
  have hfirst : v'.words (waddr stackBuf) = a0 := by
    refine words_of_leBytes fun k hk => ?_
    have haddr : 4 * waddr stackBuf + k = stackBuf.toNat + k := by
      unfold waddr
      omega
    rw [haddr, hbyte k (by omega), List.getD_append _ _ _ _ (by rw [toLeBytes_length]; exact hk)]
  have hsecond : v'.words (waddr stackBuf + 1) = a1 := by
    refine words_of_leBytes fun k hk => ?_
    have haddr : 4 * (waddr stackBuf + 1) + k = stackBuf.toNat + (4 + k) := by
      unfold waddr
      omega
    rw [haddr, hbyte (4 + k) (by omega), List.getD_append_right _ _ _ _ (by rw [toLeBytes_length]; omega), toLeBytes_length,
      Nat.add_sub_cancel_left]
  have hload (addr : ℕ) (haddr : addr ≤ waddr stackBuf + 1) : Runs Shows (loadU32 .load addr) v' (v'.words addr) v' := by
    refine loadU32_runs .load v' fun _ => ?_
    unfold waddr at haddr
    unfold memoryEndAddr
    omega
  refine ⟨v', ?_, hdone.mode, fun a ha hout => hdone.kept a ha ?_⟩
  · have hload0 := hload _ (le_succ _)
    have hload1 := hload _ le_rfl
    rw [hfirst] at hload0
    rw [hsecond] at hload1
    rw [hcache]
    refine hrun.bind ?_
    refine Ends.bind (ends_lift hload0) ?_
    refine Ends.bind (ends_lift hload1) ?_
    exact ends_pure (a0, a1)
  · rw [hlength]
    omega

end Sys

/-! ### What the host answers -/

/-- A string in memory, with the zero byte behind it. -/
structure Named (words : ℕ → Word) (addr : ByteAddr) (name : List Byte) : Prop where
  fits : addr.toNat + name.length < 2 ^ 32
  chars : ∀ k < name.length, byteOf words (addr.toNat + k) = name.getD k 0
  ends : byteOf words (addr.toNat + name.length) = 0

variable {words : ℕ → Word} {addr : ByteAddr} {name : List Byte} {a k : ℕ}

theorem Named.tail {b : Byte} (h : Named words addr (b :: name)) :
    (addr + 1).toNat = addr.toNat + 1 ∧ Named words (addr + 1) name := by
  have hfits := h.fits
  rw [List.length_cons] at hfits
  have hnext : (addr + 1).toNat = addr.toNat + 1 := by
    have hone : (1 : ByteAddr).toNat = 1 := rfl
    rw [toNat_add, hone, mod_eq_of_lt (by omega)]
  refine ⟨hnext, by omega, fun k hk => ?_, ?_⟩
  · have hchar := h.chars (k + 1) (succ_lt_succ hk)
    rw [hnext, Nat.add_right_comm]
    exact hchar
  · have hend := h.ends
    rw [hnext, Nat.add_right_comm]
    exact hend

theorem peekString_named (h : Named words addr name)
    (hchars : ∀ b ∈ name, b ≠ 0) {n : ℕ} (hn : name.length < n) : peekString words n addr = some name := by
  induction name generalizing addr n with
  | nil =>
    obtain ⟨n, rfl⟩ := exists_eq_succ_of_ne_zero (Nat.ne_of_gt hn)
    have hend : byteOf words addr.toNat = 0 := h.ends
    rw [peekString, if_pos hend]
  | cons b name ih =>
    obtain ⟨n, rfl⟩ := exists_eq_succ_of_ne_zero (Nat.ne_of_gt (zero_lt_of_lt hn))
    obtain ⟨hb, hname⟩ := List.forall_mem_cons.mp hchars
    have hchar : byteOf words addr.toNat = b := h.chars 0 (succ_pos _)
    rw [peekString, hchar, if_neg hb, ih h.tail.2 hname (lt_of_succ_lt_succ hn)]
    rfl

theorem sysReadName_ne_zero : ∀ b ∈ sysReadName, b ≠ 0 := by
  have hall : sysReadName.all (fun b => b.toNat != 0) = true := by rfl
  rintro b hb rfl
  exact absurd (List.all_eq_true.mp hall 0 hb) (by decide)

theorem toLeBytes_buffer {bytes : List Byte} (h : bytes.length ≤ 4) :
    (toLeBytes (fromLeBytes (buffer 4 bytes).toList)).take bytes.length = bytes := by
  rw [toLeBytes_fromLeBytes (length_toList ..)]
  refine List.ext_getElem (by rw [List.length_take, length_toList]; omega) fun k hk hk' => ?_
  rw [List.getElem_take, getElem_toList]
  exact (getElem_ofFn ..).trans (List.getD_eq_getElem _ _ hk')

namespace Host

variable {σ : Type} {host : Host σ} {rest : σ → List Byte} {s : σ}

/-- What the host has answered to a call for a chunk, of which so many bytes are whole words. -/
structure Answered (rest : σ → List Byte) (s : σ) (nbytes main : ℕ) (answer : SysReadAnswer σ) : Prop where
  count : answer.returned.1 = BitVec.ofNat 32 (min nbytes (rest s).length)
  words : answer.toGuest = (rest s).take main
  last : (toLeBytes answer.returned.2).take (min nbytes (rest s).length - main) = ((rest s).drop main).take (nbytes - main)
  state : rest answer.state = (rest s).drop nbytes

variable {words : ℕ → Word} {nbytes : ℕ}

theorem sysRead_answered (hreader : host.reader.Delivers rest) {toGuestWords : ℕ}
    (hnbytes : (words (userRegs + regA4)).toNat = nbytes) (hmain : toGuestWords = nbytes / 4)
    (hfd : host.readFds (words (userRegs + regA3)) = some s) :
    ∃ answer, host.sysRead words toGuestWords = .ok answer ∧ Answered rest s nbytes (toGuestWords * 4) answer := by
  obtain ⟨hread, hleft⟩ := hreader.readFull (toGuestWords * 4) s
  have hcount : (host.reader.readFull (toGuestWords * 4) s).1.length = min (toGuestWords * 4) (rest s).length := by
    rw [hread, List.length_take]
  unfold sysRead
  rw [hnbytes, if_neg (by omega), hfd]
  dsimp only
  rw [hcount]
  generalize hend : (if nbytes - min (toGuestWords * 4) (rest s).length ≤ 4 then
    nbytes - min (toGuestWords * 4) (rest s).length else 0) = unalignedEnd
  obtain ⟨hread', hleft'⟩ := hreader.readFull unalignedEnd (host.reader.readFull (toGuestWords * 4) s).2
  rw [hleft] at hread' hleft'
  -- a short first read has left nothing for the second, and after a full one what is left fits in a word
  have hlast : ((rest s).drop (toGuestWords * 4)).take unalignedEnd = ((rest s).drop (toGuestWords * 4)).take
      (nbytes - toGuestWords * 4) ∧ ((rest s).drop (toGuestWords * 4)).drop unalignedEnd = (rest s).drop nbytes := by
    by_cases hshort : (rest s).length ≤ toGuestWords * 4
    · rw [List.drop_of_length_le hshort, List.take_nil, List.take_nil, List.drop_nil, List.drop_of_length_le (by omega)]
      exact ⟨rfl, rfl⟩
    · have hunaligned : unalignedEnd = nbytes - toGuestWords * 4 := by
        rw [← hend, if_pos (by omega)]
        omega
      rw [hunaligned, List.drop_drop]
      exact ⟨rfl, by congr 1; omega⟩
  rw [hlast.1] at hread'
  rw [hlast.2] at hleft'
  have hlength : (host.reader.readFull unalignedEnd (host.reader.readFull (toGuestWords * 4) s).2).1.length =
      min nbytes (rest s).length - toGuestWords * 4 := by
    rw [hread', List.length_take, List.length_drop]
    omega
  refine ⟨_, rfl, ⟨?_, hread, ?_, hleft'⟩⟩
  · dsimp only
    rw [hlength]
    congr 1
    omega
  · dsimp only
    rw [← hlength, toLeBytes_buffer (by rw [hlength]; omega), hread']

theorem hostRead_answered (hreader : host.reader.Delivers rest) {fd main : Word} (hfd : fd ≠ 0)
    (hname : Named words fd sysReadName) (hnbytes : (words (userRegs + regA4)).toNat = nbytes)
    (hmain : main.toNat = nbytes / 4 * 4) (hopened : host.readFds (words (userRegs + regA3)) = some s) :
    ∃ answer, Answered rest s nbytes main.toNat answer ∧ host.hostRead words fd main.toNat =
      .ok ((main, buffer main.toNat answer.toGuest), { host with
        readFds := update host.readFds (words (userRegs + regA3)) (some answer.state)
        returnCache := answer.returned }) := by
  have hwords : (main.toNat + 3) / 4 = nbytes / 4 := by omega
  have hpeek : peekString words (2 ^ 32) fd = some sysReadName := peekString_named hname sysReadName_ne_zero (by
    have := hname.fits
    omega)
  obtain ⟨answer, hanswer, hanswered⟩ := sysRead_answered hreader hnbytes hwords hopened
  rw [hwords, ← hmain] at hanswered
  refine ⟨answer, hanswered, ?_⟩
  rw [hostRead, if_neg hfd, hpeek]
  dsimp only
  rw [if_pos rfl, hanswer, ofNat_toNat, setWidth_eq]
  rfl

end Host

namespace Sys

variable {σ : Type} {host host' host'' : Host σ} {v v' v'' : MachineView}

theorem storeByte_runs (v : MachineView) (addr : ByteAddr) (b : Byte) :
    ∃ v', Runs Shows (storeU8 addr b) v () v' ∧ v'.mode = v.mode ∧
      ∀ a, v'.byte a = if a = addr.toNat then b else v.byte a :=
  ⟨_, storeU8_runs v addr b, rfl, byte_replace addr.toNat b⟩

theorem storeBytes_runs (v : MachineView) (addr : ByteAddr) (bytes : ℕ → Byte) {n : ℕ} (hfits : addr.toNat + n < 2 ^ 32) :
    ∃ v', Runs Shows ((List.range n).forM fun i => storeU8 (addr + BitVec.ofNat 32 i) (bytes i)) v PUnit.unit v' ∧
      v'.mode = v.mode ∧
      ∀ a, v'.byte a = if addr.toNat ≤ a ∧ a < addr.toNat + n then bytes (a - addr.toNat) else v.byte a := by
  induction n with
  | zero => exact ⟨v, runs_pure v PUnit.unit, rfl, fun a => (if_neg (by omega)).symm⟩
  | succ n ih =>
    obtain ⟨v', hrun, hmode, hbytes⟩ := ih (by omega)
    have haddr : (addr + BitVec.ofNat 32 n).toNat = addr.toNat + n := by
      rw [toNat_add, toNat_ofNat, mod_eq_of_lt (by omega : n < 2 ^ 32), mod_eq_of_lt (by omega)]
    obtain ⟨v'', hstore, hmode', hbytes'⟩ := storeByte_runs v' (addr + BitVec.ofNat 32 n) (bytes n)
    refine ⟨v'', ?_, hmode'.trans hmode, fun a => ?_⟩
    · rw [List.range_succ, List.forM_eq_forM, List.forM_append]
      exact hrun.bind (hstore.bind (runs_pure v'' PUnit.unit))
    · rw [hbytes', hbytes, haddr]
      by_cases ha : a = addr.toNat + n
      · rw [if_pos ha, if_pos (by omega), ha, Nat.add_sub_cancel_left]
      · rw [if_neg ha]
        congr 1
        exact propext (by omega)

end Sys

/-! ### Chunks -/

/-- What belongs to the user: its memory and its registers, but for the one that the kernel sets for the host. -/
def UserByte (a : ℕ) : Prop :=
  a < userEndAddr.toNat ∨ (4 * userRegs ≤ a ∧ a < 4 * (userRegs + 32) ∧ a / 4 ≠ userRegs + regA4)

/-- The first of these bytes are where the buffer starts, as many as it takes or as there are; the rest of the user is as
before. -/
structure Delivered (ptr len : ℕ) (bytes : List Byte) (v v' : MachineView) : Prop where
  mode : v'.mode = v.mode
  copied : ∀ k < min len bytes.length, v'.byte (ptr + k) = bytes.getD k 0
  kept : ∀ a, UserByte a → a < ptr ∨ ptr + len ≤ a → v'.byte a = v.byte a

/-- The user has called to read from a stream: the call is named in its memory, outside of the buffer. -/
structure Calls {σ : Type} (rest : σ → List Byte) (fd a3 : Word) (v : MachineView) (host : Host σ) (s : σ) : Prop where
  mode : v.mode ≠ 0
  named : Named v.words fd sysReadName
  descriptor : v.words (userRegs + regA3) = a3
  delivers : host.reader.Delivers rest
  opened : host.readFds a3 = some s

/-- The name is in the memory of the user, and the buffer is somewhere else. -/
structure NameApart (fd : Word) (ptr len : ℕ) : Prop where
  ne_zero : fd ≠ 0
  user : fd.toNat + sysReadName.length < userEndAddr.toNat
  apart : len = 0 ∨ fd.toNat + sysReadName.length < ptr ∨ ptr + len ≤ fd.toNat

theorem UserByte.tracked (h : UserByte a) : Tracked a := by
  have hregs : userRegs = 0x3fffc020 := rfl
  have hend : userEndAddr.toNat = 0xc0000000 := rfl
  unfold UserByte at h
  unfold Tracked
  omega

theorem UserByte.ne_a4 (h : UserByte a) : a / 4 ≠ userRegs + regA4 := by
  have hregs : userRegs = 0x3fffc020 := rfl
  have huser : userEndAddr.toNat = 0xc0000000 := rfl
  obtain h | h := h
  · omega
  · exact h.2.2

theorem userByte_register {idx : Fin 32} (h : idx ≠ regA4) (hk : k < 4) : UserByte (4 * (userRegs + idx) + k) := by
  have hidx := idx.isLt
  have hne : (idx : ℕ) ≠ (regA4 : Fin 32) := fun heq => h (Fin.ext heq)
  right
  omega

namespace Delivered

variable {ptr len : ℕ} {bytes : List Byte} {v v' v'' : MachineView}

theorem register (h : Delivered ptr len bytes v v') (hend : len = 0 ∨ ptr + len ≤ userEndAddr.toNat) {idx : Fin 32} (hidx : idx ≠ regA4) :
    v'.words (userRegs + idx) = v.words (userRegs + idx) := by
  have hregs : userRegs = 0x3fffc020 := rfl
  have huser : userEndAddr.toNat = 0xc0000000 := rfl
  exact word_of_bytes fun k hk => h.kept _ (userByte_register hidx hk) (by omega)

theorem named (h : Delivered ptr len bytes v v') {fd : Word} (hname : NameApart fd ptr len) (hnamed : Named v.words fd sysReadName) :
    Named v'.words fd sysReadName := by
  have huser := hname.user
  have hapart := hname.apart
  have hkept (k : ℕ) (hk : k ≤ sysReadName.length) : byteOf v'.words (fd.toNat + k) = byteOf v.words (fd.toNat + k) :=
    h.kept _ (.inl (by omega)) (by omega)
  refine ⟨hnamed.fits, fun k hk => ?_, ?_⟩
  · rw [hkept k (Nat.le_of_lt hk), hnamed.chars k hk]
  · rw [hkept _ le_rfl, hnamed.ends]

theorem trans {m : ℕ} (hm : m ≤ len) (h : Delivered ptr m bytes v v') (h' : Delivered (ptr + m) (len - m) (bytes.drop m) v' v'')
    (hend : ptr + len ≤ userEndAddr.toNat) : Delivered ptr len bytes v v'' where
  mode := h'.mode.trans h.mode
  copied k hk := by
    by_cases hlt : k < m
    · rw [h'.kept _ (.inl (by omega)) (.inl (by omega))]
      exact h.copied k (by omega)
    · obtain ⟨j, rfl⟩ := Nat.exists_eq_add_of_le (not_lt.mp hlt)
      have hlength : (bytes.drop m).length = bytes.length - m := List.length_drop ..
      have hcopied := h'.copied j (by omega)
      rw [Nat.add_assoc] at hcopied
      rw [hcopied, List.getD_eq_getElem?_getD, List.getD_eq_getElem?_getD, List.getElem?_drop]
  kept a ha hout := by
    rw [h'.kept a ha (by omega), h.kept a ha (by omega)]

end Delivered

theorem buffer_getD {len : ℕ} (bytes : List Byte) (hk : k < len) : (buffer len bytes).toList.getD k 0 = bytes.getD k 0 := by
  rw [List.getD_eq_getElem _ _ (by rwa [length_toList]), getElem_toList]
  exact getElem_ofFn ..

namespace Sys

variable {σ : Type} {host host' : Host σ} {v v' : MachineView} {rest : σ → List Byte} {s : σ} {stackBuf : ByteAddr} {fd a3 : Word}
variable {ptr : ByteAddr} {nbytes : ℕ}

section

variable (hstack : KernelPair stackBuf) (hlen : nbytes ≤ maxIo) (hlow : zeroPageEndAddr.toNat ≤ ptr.toNat) (hend : ptr.toNat + nbytes ≤ userEndAddr.toNat) (hname : NameApart fd ptr.toNat nbytes) (h : Calls rest fd a3 v host s)

include hstack hlen hlow hend hname h

/-- The whole words of a chunk and the two words that tell of its end. -/
theorem readMain_ends : ∃ v' host' s', Ends (readMain stackBuf fd ptr nbytes) v host host'.returnCache v' host' ∧
      Delivered ptr.toNat nbytes ((rest s).take (nbytes / 4 * 4)) v v' ∧ Calls rest fd a3 v' host' s' ∧
      rest s' = (rest s).drop nbytes ∧ host'.readFds = update host.readFds a3 (some s') ∧
      host'.returnCache.1 = BitVec.ofNat 32 (min nbytes (rest s).length) ∧
      (toLeBytes host'.returnCache.2).take (min nbytes (rest s).length - nbytes / 4 * 4) =
        ((rest s).drop (nbytes / 4 * 4)).take (nbytes - nbytes / 4 * 4) := by
  have hstart : zeroPageEndAddr.toNat = 0x10000 := rfl
  have huser : userEndAddr.toNat = 0xc0000000 := rfl
  have hkernel : kernelStartAddr.toNat = 0xc0000000 := rfl
  have hkernelEnd : machineRegsAddr.toNat = 0xffff0000 := rfl
  have hregs : userRegs = 0x3fffc020 := rfl
  unfold maxIo at hlen
  have hnbytes : (BitVec.ofNat 32 nbytes).toNat = nbytes := by rw [toNat_ofNat, mod_eq_of_lt (by omega)]
  obtain ⟨main, hmain⟩ : ∃ main : Word, main = BitVec.ofNat 32 (nbytes / 4 * 4) := ⟨_, rfl⟩
  have hmainNat : main.toNat = nbytes / 4 * 4 := by rw [hmain, toNat_ofNat, mod_eq_of_lt (by omega)]
  obtain ⟨v₁, hv1⟩ : ∃ v₁, v₁ = v.store (userRegs + regA4) (BitVec.ofNat 32 nbytes) := ⟨_, rfl⟩
  have hbyte1 (a : ℕ) (ha : UserByte a) : v₁.byte a = v.byte a := by
    rw [hv1, byte_store_of_ne _ ha.ne_a4]
  have hset : Ends (setUreg regA4 (BitVec.ofNat 32 nbytes)) v host () v₁ host := by
    rw [hv1]
    exact ends_lift (storeU32_runs v (fun _ => by decide) _)
  have hmode1 : v₁.mode = v.mode := by rw [hv1, store_mode]
  have hcalled : Delivered ptr.toNat nbytes [] v (calling v₁ fd ptr main) :=
    ⟨hmode1, fun k hk => absurd hk (by rw [List.length_nil]; omega), fun a ha _ => by rw [calling_byte ha.tracked, hbyte1 a ha]⟩
  have hcount : ((calling v₁ fd ptr main).words (userRegs + regA4)).toNat = nbytes := by
    have hword : (calling v₁ fd ptr main).words (userRegs + regA4) = BitVec.ofNat 32 nbytes := by
      rw [hv1]
      rfl
    rw [hword, hnbytes]
  have hdescriptor : (calling v₁ fd ptr main).words (userRegs + regA3) = a3 :=
    (hcalled.register (.inr hend) (by decide)).trans h.descriptor
  obtain ⟨answer, hanswered, hread⟩ := Host.hostRead_answered h.delivers hname.ne_zero (hcalled.named hname h.named) hcount hmainNat
    (by rw [hdescriptor]; exact h.opened)
  rw [hdescriptor] at hread
  have hallowed : HostReadAllowed ptr main := by
    refine ⟨?_, ?_, fun _ => ?_⟩
    · rw [lt_def, toNat_add]
      omega
    · have hmax : maxIoBytes.toNat = 1024 := rfl
      rw [gt_iff_lt, lt_def]
      omega
    · rw [lt_def]
      omega
  obtain ⟨v₂, hrun2, hread2⟩ := hostEcallRead_ends (by rw [hmode1]; exact h.mode) hallowed (by omega) hread
  obtain ⟨v', hrun, hmode, hkept⟩ := readA0A1_ends (by rw [hread2.mode, hmode1]; exact h.mode) hstack
  have hlength : (buffer main.toNat answer.toGuest).toList.length = main.toNat := length_toList ..
  have hdelivered : Delivered ptr.toNat nbytes ((rest s).take (nbytes / 4 * 4)) v v' := by
    refine ⟨by rw [hmode, hread2.mode, hmode1], fun k hk => ?_, fun a ha hout => ?_⟩
    · rw [List.length_take] at hk
      have huserbyte : UserByte (ptr.toNat + k) := .inl (by omega)
      rw [hkept _ huserbyte.tracked (.inl (by omega)), hread2.copied k (by rw [hlength]; omega), buffer_getD _ (by omega),
        hanswered.words, hmainNat]
    · have houtside : a < kernelStartAddr.toNat ∨ machineRegsAddr.toNat ≤ a := by
        unfold UserByte at ha
        omega
      rw [hkept a ha.tracked houtside, hread2.kept a ha.tracked (by rw [hlength]; omega), hbyte1 a ha]
  refine ⟨v', { host with readFds := update host.readFds a3 (some answer.state), returnCache := answer.returned },
    answer.state, ?_, hdelivered, ?_, hanswered.state, rfl, hanswered.count, ?_⟩
  · subst hmain
    exact hset.bind (hrun2.bind hrun)
  · exact ⟨by rw [hdelivered.mode]; exact h.mode, hdelivered.named hname h.named,
      (hdelivered.register (.inr hend) (by decide)).trans h.descriptor, h.delivers, update_self ..⟩
  · have hlast := hanswered.last
    rwa [hmainNat] at hlast

theorem readChunk_ends :
    ∃ v' host' s', Ends (readChunk stackBuf fd (ptr, nbytes)) v host (min nbytes (rest s).length) v' host' ∧
      Delivered ptr.toNat nbytes (rest s) v v' ∧ Calls rest fd a3 v' host' s' ∧ rest s' = (rest s).drop nbytes ∧
      host'.readFds = update host.readFds a3 (some s') := by
  have huser : userEndAddr.toNat = 0xc0000000 := rfl
  obtain ⟨v₁, host', s', hrun, hmain, hcalls, hrest, hfds, hcount, hlast⟩ := readMain_ends hstack hlen hlow hend hname h
  unfold maxIo at hlen
  obtain ⟨n, hn⟩ : ∃ n, n = min nbytes (rest s).length := ⟨_, rfl⟩
  rw [← hn] at hcount hlast ⊢
  have hnread : host'.returnCache.1.toNat = n := by rw [hcount, toNat_ofNat, mod_eq_of_lt (by omega)]
  -- what the last bytes come to, whether there are any or not
  obtain ⟨final, hfinal⟩ : ∃ final, final = ((toLeBytes host'.returnCache.2).take (n - nbytes / 4 * 4)) := ⟨_, rfl⟩
  rw [← hfinal] at hlast
  have hdelivered {v' : MachineView} (hmode : v'.mode = v₁.mode) (hbytes : ∀ a, v'.byte a =
      if ptr.toNat + nbytes / 4 * 4 ≤ a ∧ a < ptr.toNat + n then final.getD (a - (ptr.toNat + nbytes / 4 * 4)) 0
      else v₁.byte a) : Delivered ptr.toNat nbytes (rest s) v v' := by
    refine ⟨hmode.trans hmain.mode, fun k hk => ?_, fun a ha hout => ?_⟩
    · rw [hbytes]
      by_cases hlt : k < nbytes / 4 * 4
      · rw [if_neg (by omega), hmain.copied k (by rw [List.length_take]; omega), List.getD_eq_getElem?_getD,
          List.getElem?_take_of_lt hlt, List.getD_eq_getElem?_getD]
      · obtain ⟨j, rfl⟩ := Nat.exists_eq_add_of_le (not_lt.mp hlt)
        rw [if_pos (by omega), ← Nat.add_assoc, Nat.add_sub_cancel_left, hlast, List.getD_eq_getElem?_getD,
          List.getElem?_take_of_lt (by omega), List.getElem?_drop, List.getD_eq_getElem?_getD]
    · rw [hbytes, if_neg (by omega), hmain.kept a ha hout]
  have hend' {v' : MachineView} (hd : Delivered ptr.toNat nbytes (rest s) v v') : Calls rest fd a3 v' host' s' :=
    ⟨by rw [hd.mode]; exact h.mode, hd.named hname h.named, (hd.register (.inr hend) (by decide)).trans h.descriptor,
      hcalls.delivers, hcalls.opened⟩
  have hvalid : ¬ host'.returnCache.1.toNat > nbytes := by omega
  by_cases hmore : n > nbytes / 4 * 4
  · have haddr : (ptr + BitVec.ofNat 32 (nbytes / 4 * 4)).toNat = ptr.toNat + nbytes / 4 * 4 := by
      rw [toNat_add, toNat_ofNat, mod_eq_of_lt (by omega : nbytes / 4 * 4 < 2 ^ 32), mod_eq_of_lt (by omega)]
    have hlength : final.length = n - nbytes / 4 * 4 := by
      rw [hfinal, List.length_take, toLeBytes_length]
      omega
    obtain ⟨v', hcopy, hmode, hbytes⟩ := storeBytes_runs v₁ (ptr + BitVec.ofNat 32 (nbytes / 4 * 4)) (fun i => final.getD i 0)
      (n := final.length) (by omega)
    have hd := hdelivered hmode fun a => by
      rw [hbytes, haddr, hlength]
      congr 1
      exact propext (by omega)
    refine ⟨v', host', s', ?_, hd, hend' hd, hrest, hfds⟩
    refine hrun.bind ?_
    dsimp only
    rw [if_neg hvalid, hnread, if_pos hmore, ← hfinal]
    exact Ends.bind (ends_lift hcopy) (ends_pure n)
  · have hd := hdelivered rfl fun a => (if_neg (by omega)).symm
    refine ⟨v₁, host', s', ?_, hd, hend' hd, hrest, hfds⟩
    refine hrun.bind ?_
    dsimp only
    rw [if_neg hvalid, hnread, if_neg hmore]
    exact ends_pure n

end

/-- Chunks that lie one behind the other. -/
def Covers : ℕ → ℕ → List (ByteAddr × ℕ) → Prop
  | _, len, [] => len = 0
  | ptr, len, chunk :: chunks =>
    chunk.1.toNat = ptr ∧ 0 < chunk.2 ∧ chunk.2 ≤ maxIo ∧ chunk.2 ≤ len ∧ Covers (ptr + chunk.2) (len - chunk.2) chunks

theorem chunksMut_cons (ptr : ByteAddr) (h : 0 < nbytes) :
    chunksMut ptr nbytes = (ptr, min maxIo nbytes) :: chunksMut (ptr + BitVec.ofNat 32 maxIo) (nbytes - maxIo) := by
  have hcount : (nbytes + 1023) / maxIo = (nbytes - maxIo + 1023) / maxIo + 1 := by
    unfold maxIo
    omega
  rw [chunksMut, hcount, List.range_succ_eq_map, List.map_cons, List.map_map, chunksMut]
  refine congrArg₂ List.cons ?_ ?_
  · rw [Nat.mul_zero, Nat.sub_zero, BitVec.add_zero]
  · refine List.map_congr_left fun i _ => ?_
    have hnext : maxIo * (i + 1) = maxIo + maxIo * i := by rw [Nat.mul_succ, Nat.add_comm]
    rw [comp_apply, succ_eq_add_one, hnext, ofNat_add, BitVec.add_assoc, sub_add_eq]

theorem chunksMut_covers (hfits : ptr.toNat + nbytes ≤ userEndAddr.toNat) :
    Covers ptr.toNat nbytes (chunksMut ptr nbytes) := by
  induction nbytes using Nat.strong_induction_on generalizing ptr with
  | h nbytes ih =>
    obtain rfl | hpos := Nat.eq_zero_or_pos nbytes
    · exact rfl
    · have huser : userEndAddr.toNat = 0xc0000000 := rfl
      have hmax : maxIo = 1024 := rfl
      rw [chunksMut_cons ptr hpos]
      refine ⟨rfl, by omega, min_le_left _ _, min_le_right _ _, ?_⟩
      dsimp only
      by_cases hshort : nbytes ≤ maxIo
      · rw [min_eq_right hshort, Nat.sub_eq_zero_of_le hshort, Nat.sub_self]
        exact rfl
      · have hnext : (ptr + BitVec.ofNat 32 maxIo).toNat = ptr.toNat + maxIo := by
          rw [toNat_add, toNat_ofNat, mod_eq_of_lt (by omega : maxIo < 2 ^ 32), mod_eq_of_lt (by omega)]
        rw [min_eq_left (by omega), ← hnext]
        exact ih (nbytes - maxIo) (by omega) (by omega)

/-- The memory that is asked for is the user's, if any is. -/
def UserBuffer (ptr len : ℕ) : Prop := len = 0 ∨ (userStartAddr.toNat ≤ ptr ∧ ptr + len ≤ userEndAddr.toNat)

theorem readChunks_ends (hstack : KernelPair stackBuf) {chunks : List (ByteAddr × ℕ)} {ptr len : ℕ} (hcovers : Covers ptr len chunks)
    (hbuf : UserBuffer ptr len) (hname : NameApart fd ptr len) (h : Calls rest fd a3 v host s) (total : Word) :
    ∃ v' host' s', Ends (readChunks stackBuf fd chunks total) v host (total + BitVec.ofNat 32 (min len (rest s).length)) v' host' ∧
      Delivered ptr len (rest s) v v' ∧ Calls rest fd a3 v' host' s' ∧ rest s' = (rest s).drop len ∧
      host'.readFds = update host.readFds a3 (some s') := by
  induction chunks generalizing ptr len v host s total with
  | nil =>
    obtain rfl : len = 0 := hcovers
    refine ⟨v, host, s, ?_, ⟨rfl, fun k hk => absurd hk (by omega), fun _ _ _ => rfl⟩, h, rfl, ?_⟩
    · rw [Nat.zero_min, BitVec.add_zero]
      exact ends_pure total
    · rw [← h.opened, update_eq_self]
  | cons chunk chunks ih =>
    obtain ⟨rfl, hpos, hmax, hle, hcovers⟩ := hcovers
    obtain ⟨ptr, m⟩ := chunk
    dsimp only at *
    obtain ⟨hlow, hend⟩ := hbuf.resolve_left (by omega)
    have hstart : zeroPageEndAddr.toNat = userStartAddr.toNat := rfl
    have hapart := hname.apart
    obtain ⟨v₁, host1, s₁, hrun, hdelivered, hcalls, hrest, hfds⟩ := readChunk_ends hstack hmax (hstart ▸ hlow) (by omega)
      ⟨hname.ne_zero, hname.user, by omega⟩ h
    by_cases hshort : (rest s).length < m
    · have hdrop : (rest s).drop m = (rest s).drop len := by
        rw [List.drop_of_length_le (Nat.le_of_lt hshort), List.drop_of_length_le (by omega)]
      have hmin : min m (rest s).length = min len (rest s).length := by omega
      refine ⟨v₁, host1, s₁, hrun.bind ?_, ⟨hdelivered.mode, fun k hk => hdelivered.copied k (by omega),
        fun a ha hout => hdelivered.kept a ha (by omega)⟩, hcalls, hrest.trans hdrop, hfds⟩
      dsimp only
      rw [if_pos (by omega), hmin]
      exact ends_pure _
    · obtain ⟨v', host', s', hrun', hdelivered', hcalls', hrest', hfds'⟩ := ih hcovers (by unfold UserBuffer; omega)
        ⟨hname.ne_zero, hname.user, by omega⟩ hcalls (total + BitVec.ofNat 32 (min m (rest s).length))
      rw [hrest] at hrun' hdelivered' hrest'
      have hcount : total + BitVec.ofNat 32 (min m (rest s).length) + BitVec.ofNat 32 (min (len - m) ((rest s).drop m).length) =
          total + BitVec.ofNat 32 (min len (rest s).length) := by
        rw [BitVec.add_assoc, ← ofNat_add, List.length_drop]
        congr 2
        omega
      refine ⟨v', host', s', hrun.bind ?_, hdelivered.trans hle hdelivered' hend, hcalls', ?_, ?_⟩
      · dsimp only
        rw [if_neg (by omega), ← hcount]
        exact hrun'
      · rw [hrest', List.drop_drop]
        congr 1
        omega
      · rw [hfds', hfds, update_idem]

/-! ### The call of the user -/

/-- The buffer starts with the next bytes of the stream, as many as it takes or as there are, which are gone from the stream;
their number is in its register, and the rest of the user is as before. -/
structure SysReadDone (rest : σ → List Byte) (buf len : ℕ) (st st' : σ) (words words' : ℕ → Word) : Prop where
  delivered : ∀ k < min len (rest st).length, byteOf words' (buf + k) = (rest st).getD k 0
  memory : ∀ a, a < userEndAddr.toNat → a < buf ∨ buf + len ≤ a → byteOf words' a = byteOf words a
  count : words' (userRegs + regA0) = BitVec.ofNat 32 (min len (rest st).length)
  registers : ∀ idx, idx ≠ regA0 → words' (userRegs + idx) = words (userRegs + idx)
  stream : rest st' = (rest st).drop (min len (rest st).length)

theorem sysRead_ends {buf : ByteAddr} {nbytes : Word} (hstack : KernelPair stackBuf) (hbuf : UserBuffer buf.toNat nbytes.toNat)
    (hname : NameApart fd buf.toNat nbytes.toNat) (h : Calls rest fd a3 v host s) :
    ∃ v' host' s', Ends (sysRead stackBuf fd buf nbytes) v host () v' host' ∧ v'.mode = v.mode ∧
      SysReadDone rest buf.toNat nbytes.toNat s s' v.words v'.words ∧
      host'.readFds = update host.readFds a3 (some s') := by
  have huser : userEndAddr.toNat = 0xc0000000 := rfl
  have hregs : userRegs = 0x3fffc020 := rfl
  have hcovers : Covers buf.toNat nbytes.toNat (chunksMut buf nbytes.toNat) := by
    obtain hzero | ⟨-, hend⟩ := hbuf
    · rw [hzero]
      exact rfl
    · exact chunksMut_covers hend
  obtain ⟨v₁, host', s', hrun, hdelivered, -, hrest, hfds⟩ := readChunks_ends hstack hcovers hbuf hname h 0
  have hslice : Ends (assertUserRawSlice buf nbytes : Sys σ Unit) v host () v host := by
    have hvalid : ¬ (nbytes > 0 ∧ min (buf.toNat + nbytes.toNat) (2 ^ 32 - 1) > userEndAddr.toNat) := by
      rintro ⟨hpos, hend⟩
      have hzero : (0 : Word).toNat = 0 := rfl
      rw [gt_iff_lt, lt_def] at hpos
      obtain hbuf | ⟨-, hbuf⟩ := hbuf <;> omega
    rw [assertUserRawSlice, if_neg hvalid]
    exact ends_pure ()
  have hload : Ends (getUreg regA4 : Sys σ Word) v host (v.words (userRegs + regA4)) v host :=
    ends_lift (loadU32_runs .load v fun _ => by decide)
  have hset (idx : Fin 32) (w : MachineView) (word : Word) :
      Ends (setUreg idx word : Sys σ Unit) w host' () (w.store (userRegs + idx) word) host' := by
    refine ends_lift (storeU32_runs w (fun _ => ?_) word)
    have hidx := idx.isLt
    unfold memoryEndAddr
    omega
  have hregister (idx : Fin 32) (hidx : idx ≠ regA4) : v₁.words (userRegs + idx) = v.words (userRegs + idx) :=
    hdelivered.register (hbuf.imp_right And.right) hidx
  have hne {idx idx' : Fin 32} (hidx : idx ≠ idx') : userRegs + (idx : ℕ) ≠ userRegs + idx' :=
    fun heq => hidx (Fin.ext (Nat.add_left_cancel heq))
  have hbyte {a : ℕ} (ha : a < userEndAddr.toNat) (w : MachineView) (idx : Fin 32) (word : Word) :
      (w.store (userRegs + idx) word).byte a = w.byte a := byte_store_of_ne word (by omega)
  refine ⟨_, host', s', hslice.bind (hload.bind (hrun.bind ((hset regA0 v₁ _).bind (hset regA4 _ _)))), hdelivered.mode,
    ⟨fun k hk => ?_, fun a ha hout => ?_, ?_, fun idx hidx => ?_, ?_⟩, hfds⟩
  · have hin : buf.toNat + k < userEndAddr.toNat := by
      obtain hbuf | ⟨-, hbuf⟩ := hbuf <;> omega
    exact (hbyte hin _ _ _).trans ((hbyte hin _ _ _).trans (hdelivered.copied k hk))
  · exact (hbyte ha _ _ _).trans ((hbyte ha _ _ _).trans (hdelivered.kept a (.inl ha) hout))
  · rw [store_words_of_ne _ _ (hne (by decide)), store_words_self]
    exact BitVec.zero_add _
  · by_cases hidx' : idx = regA4
    · rw [hidx', store_words_self]
    · rw [store_words_of_ne _ _ (hne hidx'), store_words_of_ne _ _ (hne hidx), hregister idx hidx']
  · rw [hrest]
    by_cases hlong : nbytes.toNat ≤ (rest s).length
    · rw [min_eq_left hlong]
    · rw [min_eq_right (by omega), List.drop_of_length_le (by omega), List.drop_length]

/-- A read of the user is answered with what is left of the stream, whatever parts the reader gives it in. -/
theorem sys_read_delivers {buf : ByteAddr} {nbytes : Word} (hreader : host.reader.Delivers rest) (machine : Executor)
    (hsound : machine.Sound) (hmode : machine.machineMode ≠ 0) (hstack : KernelPair stackBuf)
    (hopened : host.readFds (machine.pager.word (userRegs + regA3)) = some s) (hbuf : UserBuffer buf.toNat nbytes.toNat)
    (hnamed : Named machine.pager.word fd sysReadName) (hname : NameApart fd buf.toNat nbytes.toNat) :
    ∃ machine' host' s', sysRead stackBuf fd buf nbytes host machine = .ok (((), host'), machine') ∧ machine'.Sound ∧
      SysReadDone rest buf.toNat nbytes.toNat s s' machine.pager.word machine'.pager.word ∧
      host'.readFds = Function.update host.readFds (machine.pager.word (userRegs + regA3)) (some s') := by
  obtain ⟨v', host', s', hrun, -, hdone, hfds⟩ := sysRead_ends (v := machine.machineView) hstack hbuf hname
    ⟨hmode, hnamed, rfl, hreader, hopened⟩
  obtain ⟨machine', hmachine, hshows⟩ := hrun.total trivial (shows_machineView hsound)
  refine ⟨machine', host', s', hmachine, hshows.sound, ?_, hfds⟩
  rw [funext hshows.words]
  exact hdone

theorem take_three_le (len : ℕ) (bytes : List Byte) : (bytes.take (min len 3)).length ≤ len :=
  (List.length_take_le _ _).trans (min_le_left _ _)

/-- Gives three bytes at a time. -/
def shortReader : Reader Byte (List Byte) := ⟨fun len s => (⟨s.take (min len 3), take_three_le len s⟩, s.drop (min len 3))⟩

theorem shortReader_delivers : shortReader.Delivers id where
  splits len s := (List.take_append_drop (min len 3) s).symm
  progress len s hlen hs := by
    intro hnil
    obtain hzero | hempty := List.take_eq_nil_iff.mp hnil
    · omega
    · exact hs hempty

def shortHost : Host (List Byte) := ⟨shortReader, fun _ => some (List.replicate 2000 7), (0, 0)⟩

/-- The name of the call is in a page of the user. -/
def namedImage : MemoryImage where
  pages := OrderedMap.empty.insert (pageIdx 0x8000) ((List.range 11).foldl (fun page i =>
    page.store (0x8000 + i) (fromLeBytes (buffer 4 ((sysReadName.drop (4 * i)).take 4)).toList)) Page.zero)
  isZero := fun _ => true

theorem sys_read_delivers_short : ∃ m machine' host' s', PagedMemory.new namedImage false = some m ∧
    sysRead 0xffeffff8 0x20000 0x10001 1030 shortHost ⟨0xc0000000, 0, 1, 0, m⟩ = .ok (((), host'), machine') ∧
    SysReadDone id 0x10001 1030 (List.replicate 2000 7) s' m.word machine'.pager.word := by
  have hbytes : ((PagedMemory.new namedImage false).map fun m =>
      decide (∀ k < sysReadName.length + 1, byteOf m.word (0x20000 + k) = sysReadName.getD k 0)) = some true := by
    decide
  obtain ⟨m, hm, hbytes⟩ := Option.map_eq_some_iff.mp hbytes
  have hname := of_decide_eq_true hbytes
  have hsound : Sound ⟨0xc0000000, 0, 1, 0, m⟩ := sound_of_run hm (List.forall_mem_nil MemoryOp.Valid) rfl rfl
  have hnamed : Named m.word 0x20000 sysReadName :=
    ⟨by decide, fun k hk => hname k (Nat.lt_succ_of_lt hk), hname _ (Nat.lt_succ_self _)⟩
  have hreader : shortHost.reader.Delivers id := shortReader_delivers
  have hstack : KernelPair 0xffeffff8 := ⟨by decide, by decide, by decide⟩
  have hbuf : UserBuffer (0x10001 : ByteAddr).toNat (1030 : Word).toNat := .inr ⟨by decide, by decide⟩
  obtain ⟨machine', host', s', hrun, -, hdone, -⟩ := sys_read_delivers hreader ⟨0xc0000000, 0, 1, 0, m⟩ hsound
    (show (1 : Word) ≠ 0 by decide) hstack rfl hbuf hnamed ⟨by decide, by decide, by decide⟩
  exact ⟨m, machine', host', s', hm, hrun, hdone⟩

end Sys

end VerifiableCompute.Rv32im
