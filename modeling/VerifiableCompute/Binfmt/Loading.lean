import VerifiableCompute.Binfmt.Calls

/-! Programs loaded from ELF files. The parser of the file is given; what it returns is
checked, and the file contents of the loadable segments are copied into an image. -/

namespace VerifiableCompute.Binfmt

open Lib List

inductive Class where
  | elf32
  | elf64
  deriving DecidableEq

structure ProgramHeader where
  pType : ℕ
  pOffset : ℕ
  pVaddr : ℕ
  pFilesz : ℕ
  pMemsz : ℕ

structure ElfFile where
  ehdrClass : Class
  eMachine : ℕ
  eType : ℕ
  eEntry : ℕ
  segments : Option (List ProgramHeader)

def emRiscv : ℕ := 243

def etExec : ℕ := 2

def ptLoad : ℕ := 1

inductive LoadError where
  | elfParse
  | bail (message : String)
  | unaligned (vaddr : ℕ)
  | exceedsMaximum (programEnd maxMem : ℕ)
  | fileszGreater (fileSize memSize : ℕ)
  | image (fault : Fault)

/-- The error that is none: a step of the image that panics. -/
def LoadError.panic : LoadError := .image .panic

/-- A number that has to fit a word. -/
def tryU32 (message : String) (x : ℕ) : Except LoadError ℕ :=
  if x < 2 ^ 32 then .ok x else .error (.bail message)

/-- The part of the file from `start` to `stop`, where the file has it. -/
def slice (input : List Byte) (start stop : ℕ) : Except LoadError (List Byte) :=
  if start ≤ stop ∧ stop ≤ input.length then .ok ((input.drop start).take (stop - start))
  else .error (.bail "Invalid segment size")

structure Program where
  entry : BitVec 32
  image : MemoryImage

variable (H : TreeHash) (overflowChecks : Bool)

/-- One segment into the image, if the checks let it. The end of the segment is compared
with the largest address that can be written, and the end of its contents in the file
saturates. -/
def loadSegment (input : List Byte) (maxMem : BitVec 32) (image : MemoryImage) (segment : ProgramHeader) :
    Except LoadError MemoryImage := do
  let maxSize := maxMem.toNat + 1
  let fileSize ← tryU32 "filesize was larger than 32 bits." segment.pFilesz
  if maxSize < fileSize then throw (.bail "Invalid segment file_size")
  let memSize ← tryU32 "mem_size was larger than 32 bits" segment.pMemsz
  if maxSize < memSize then throw (.bail "Invalid segment mem_size")
  let vaddr ← tryU32 "vaddr is larger than 32 bits." segment.pVaddr
  if vaddr % wordSize ≠ 0 then throw (.unaligned vaddr)
  let inputOffset ← tryU32 "offset is larger than 32 bits." segment.pOffset
  let programEnd := vaddr + memSize - 1
  if maxMem.toNat < programEnd then throw (.exceedsMaximum programEnd maxMem.toNat)
  if memSize < fileSize then throw (.fileszGreater fileSize memSize)
  let inputBuf ← slice input inputOffset (min (inputOffset + fileSize) (2 ^ 32 - 1))
  (image.setRegion H overflowChecks vaddr inputBuf).mapError .image

def loads (segments : List ProgramHeader) : List ProgramHeader := segments.filter fun s => s.pType = ptLoad

def loadElf (minimalParse : List Byte → Option ElfFile) (input : List Byte) (maxMem : BitVec 32) :
    Except LoadError Program :=
  match minimalParse input with
  | none => .error .elfParse
  | some elf => do
    if elf.ehdrClass ≠ .elf32 then throw (.bail "Not a 32-bit ELF")
    if elf.eMachine ≠ emRiscv then throw (.bail "Invalid machine type, must be RISC-V")
    if elf.eType ≠ etExec then throw (.bail "Invalid ELF type, must be executable")
    let entry ← tryU32 "e_entry was larger than 32 bits." elf.eEntry
    if maxMem.toNat < entry ∨ entry % wordSize ≠ 0 then throw (.bail "Invalid entrypoint")
    match elf.segments with
    | none => throw (.bail "Missing segment table")
    | some segments => do
      if 256 < segments.length then throw (.bail "Too many program headers")
      let image ← (loads segments).foldlM (loadSegment H overflowChecks input maxMem) (MemoryImage.default H)
      return ⟨BitVec.ofNat 32 entry, image⟩

def userStartAddr : ℕ := 0x00010000

def suspendPcAddr : ℕ := 0xffff0210

def suspendModeAddr : ℕ := 0xffff0214

namespace Program

def prepareUser (program : Program) : Except Fault Program := do
  let image ← unwrap (program.image.setWord H (userStartAddr / wordSize) program.entry)
  return { program with image }

/-- The pages of the user program, if there is one, replace those of the kernel. -/
def prepareKernel (user : Option Program) (program : Program) : Except Fault Program := do
  let image := (user.elim [] fun user => user.image.pages.entries).foldl (fun m e => m.setPage e.1 e.2) program.image
  let image ← unwrap (image.setWord H (suspendPcAddr / wordSize) program.entry)
  let image ← unwrap (image.setWord H (suspendModeAddr / wordSize) 1)
  return { program with image }

end Program

namespace MemoryImage

def newUser (program : Program) : Except Fault MemoryImage := do
  return (← program.prepareUser H).image

def newKernel (program : Program) : Except Fault MemoryImage := do
  return (← program.prepareKernel H none).image

end MemoryImage

/-! What loading a program leaves in memory: the file contents of the last loadable segment
that has them for an address, and zero elsewhere. -/

namespace ProgramHeader

/-- The address lies in the memory range of the segment. -/
def Covers (addr : ℕ) (s : ProgramHeader) : Prop := s.pVaddr ≤ addr ∧ addr < s.pVaddr + s.pMemsz

/-- The segment has file contents for the address, up to the position at which the end of
the contents saturates. -/
def Places (addr : ℕ) (s : ProgramHeader) : Prop :=
  s.pVaddr ≤ addr ∧ addr < s.pVaddr + s.pFilesz ∧ s.pOffset + (addr - s.pVaddr) < 2 ^ 32 - 1

instance (addr : ℕ) (s : ProgramHeader) : Decidable (s.Places addr) := inferInstanceAs (Decidable (_ ∧ _ ∧ _))

def fileByte (input : List Byte) (addr : ℕ) (s : ProgramHeader) : Byte := input.getD (s.pOffset + (addr - s.pVaddr)) 0

section

variable (input : List Byte) (s : ProgramHeader)

/-- The bytes that are copied. -/
def fileContents : List Byte :=
  (input.drop s.pOffset).take (min (s.pOffset + s.pFilesz) (2 ^ 32 - 1) - s.pOffset)

/-- The file contents end with the last byte of the address space. -/
def EndsAtTop : Prop := s.pVaddr + (s.fileContents input).length = 2 ^ 32

instance : Decidable (s.EndsAtTop input) := inferInstanceAs (Decidable (_ = _))

end

structure Accepted (input : List Byte) (maxMem : BitVec 32) (s : ProgramHeader) : Prop where
  memsz : s.pMemsz < 2 ^ 32
  filesz : s.pFilesz ≤ s.pMemsz
  vaddr : s.pVaddr < 2 ^ 32
  aligned : s.pVaddr % wordSize = 0
  offset : s.pOffset < 2 ^ 32
  fits : s.pVaddr + s.pMemsz ≤ maxMem.toNat + 1
  inFile : min (s.pOffset + s.pFilesz) (2 ^ 32 - 1) ≤ input.length

end ProgramHeader

variable {H : TreeHash} {overflowChecks : Bool} {input : List Byte} {maxMem : BitVec 32} {s : ProgramHeader}
  {segments : List ProgramHeader} {image image' : MemoryImage} {mem : ℕ → Byte}

open ProgramHeader

theorem tryU32_of_lt (message : String) {x : ℕ} (h : x < 2 ^ 32) : tryU32 message x = .ok x := if_pos h

theorem loadSegment_of_accepted (h : s.Accepted input maxMem) : loadSegment H overflowChecks input maxMem image s =
      (image.setRegion H overflowChecks s.pVaddr (s.fileContents input)).mapError .image := by
  have hmemsz := h.memsz
  have hfilesz := h.filesz
  have hfits := h.fits
  have haligned := h.aligned
  have hoffset := h.offset
  have hslice : slice input s.pOffset (min (s.pOffset + s.pFilesz) (2 ^ 32 - 1)) = .ok (s.fileContents input) :=
    if_pos ⟨by omega, h.inFile⟩
  simp only [loadSegment, tryU32_of_lt _ (show s.pFilesz < 2 ^ 32 by omega), tryU32_of_lt _ hmemsz, tryU32_of_lt _ h.vaddr,
    tryU32_of_lt _ hoffset, bind, Except.bind, haligned, ne_eq, not_true_eq_false, if_false,
    if_neg (show ¬ maxMem.toNat + 1 < s.pFilesz by omega), if_neg (show ¬ maxMem.toNat + 1 < s.pMemsz by omega),
    if_neg (show ¬ maxMem.toNat < s.pVaddr + s.pMemsz - 1 by omega), if_neg (show ¬ s.pMemsz < s.pFilesz by omega), hslice]

/-- Not refused by a check. -/
def Survives {α : Type} (x : Except LoadError α) : Prop := (∃ a, x = .ok a) ∨ x = .error .panic

theorem survives_of_tryU32 {α : Type} {message : String} {x : ℕ} {k : ℕ → Except LoadError α}
    (h : Survives (tryU32 message x >>= k)) : x < 2 ^ 32 ∧ Survives (k x) := by
  by_cases hx : x < 2 ^ 32
  · rw [tryU32_of_lt message hx] at h
    exact ⟨hx, h⟩
  · rw [tryU32, if_neg hx] at h
    rcases h with ⟨a, h⟩ | h <;> cases h

theorem survives_of_guard {α β : Type} {p : Prop} [Decidable p] {e : LoadError} {k : α → Except LoadError β}
    {y : Except LoadError β} (h : Survives (if p then throw e >>= k else y)) (he : e ≠ .panic) : ¬ p ∧ Survives y := by
  by_cases hp : p
  · rw [if_pos hp] at h
    rcases h with ⟨a, h⟩ | h
    · cases h
    · exact absurd (Except.error.inj h) he
  · rw [if_neg hp] at h
    exact ⟨hp, h⟩

theorem survives_of_slice {α : Type} {start stop : ℕ} {k : List Byte → Except LoadError α}
    (h : Survives (slice input start stop >>= k)) : stop ≤ input.length := by
  by_cases hslice : start ≤ stop ∧ stop ≤ input.length
  · exact hslice.2
  · rw [slice, if_neg hslice] at h
    rcases h with ⟨a, h⟩ | h <;> cases h

theorem accepted_of_survives (h : Survives (loadSegment H overflowChecks input maxMem image s)) : s.Accepted input maxMem := by
  obtain ⟨-, h⟩ := survives_of_tryU32 h
  obtain ⟨-, h⟩ := survives_of_guard h (fun he => LoadError.noConfusion he)
  obtain ⟨hmemsz, h⟩ := survives_of_tryU32 h
  obtain ⟨hmem, h⟩ := survives_of_guard h (fun he => LoadError.noConfusion he)
  obtain ⟨hvaddr, h⟩ := survives_of_tryU32 h
  obtain ⟨haligned, h⟩ := survives_of_guard h (fun he => LoadError.noConfusion he)
  obtain ⟨hoffset, h⟩ := survives_of_tryU32 h
  obtain ⟨hend, h⟩ := survives_of_guard h (fun he => LoadError.noConfusion he)
  obtain ⟨hfilesz, h⟩ := survives_of_guard h (fun he => LoadError.noConfusion he)
  have hinFile := survives_of_slice h
  exact ⟨hmemsz, by omega, hvaddr, by omega, hoffset, by omega, hinFile⟩

theorem length_fileContents (h : s.Accepted input maxMem) :
    (s.fileContents input).length = min (s.pOffset + s.pFilesz) (2 ^ 32 - 1) - s.pOffset := by
  have := h.inFile
  rw [fileContents, length_take, length_drop]
  omega

theorem loadSegment_spec (overflowChecks : Bool) (h : image.Holds H mem) (hs : s.Accepted input maxMem) :
    if overflowChecks ∧ s.EndsAtTop input then loadSegment H overflowChecks input maxMem image s = .error .panic
    else ∃ image', loadSegment H overflowChecks input maxMem image s = .ok image' ∧
      image'.Holds H (overwrite s.pVaddr (s.fileContents input) mem) := by
  have hlength := length_fileContents hs
  have hend : s.pVaddr + (s.fileContents input).length ≤ 2 ^ 32 := by
    have := hs.filesz
    have := hs.fits
    omega
  have hregion := h.setRegion overflowChecks hs.vaddr hend
  rw [loadSegment_of_accepted hs]
  by_cases htop : overflowChecks ∧ s.EndsAtTop input
  · rw [if_pos htop]
    rw [EndsAtTop] at htop
    rw [if_pos htop] at hregion
    rw [hregion]
    rfl
  · rw [if_neg htop]
    rw [EndsAtTop] at htop
    rw [if_neg htop] at hregion
    obtain ⟨image', hregion, hholds⟩ := hregion
    rw [hregion]
    exact ⟨image', rfl, hholds⟩

/-- The memory with the file contents of the segments copied into it in turn. -/
def placed (input : List Byte) (segments : List ProgramHeader) (mem : ℕ → Byte) : ℕ → Byte :=
  segments.foldl (fun mem s => overwrite s.pVaddr (s.fileContents input) mem) mem

theorem loadSegments_spec (h : image.Holds H mem)
    (hload : segments.foldlM (loadSegment H overflowChecks input maxMem) image = .ok image') :
    (∀ s ∈ segments, s.Accepted input maxMem) ∧ image'.Holds H (placed input segments mem) := by
  induction segments generalizing image mem with
  | nil =>
    cases hload
    exact ⟨by simp, h⟩
  | cons s segments ih =>
    rw [foldlM_cons] at hload
    cases hstep : loadSegment H overflowChecks input maxMem image s with
    | error e =>
      rw [hstep] at hload
      cases hload
    | ok next =>
      rw [hstep] at hload
      have hs : s.Accepted input maxMem := accepted_of_survives (.inl ⟨next, hstep⟩)
      have hspec := loadSegment_spec overflowChecks h hs
      rw [hstep] at hspec
      split_ifs at hspec with htop
      obtain ⟨_, heq, hholds⟩ := hspec
      cases heq
      obtain ⟨haccepted, hholds⟩ := ih hholds hload
      exact ⟨forall_mem_cons.mpr ⟨hs, haccepted⟩, hholds⟩

theorem loadSegments_panic (h : image.Holds H mem)
    (hload : segments.foldlM (loadSegment H overflowChecks input maxMem) image = .error .panic) :
    overflowChecks ∧ ∃ s ∈ segments, s.EndsAtTop input := by
  induction segments generalizing image mem with
  | nil => cases hload
  | cons s segments ih =>
    rw [foldlM_cons] at hload
    by_cases htop : overflowChecks ∧ s.EndsAtTop input
    · exact ⟨htop.1, s, mem_cons_self, htop.2⟩
    · have hs : s.Accepted input maxMem := by
        apply @accepted_of_survives H overflowChecks input maxMem s image
        cases hstep : loadSegment H overflowChecks input maxMem image s with
        | error e =>
          rw [hstep] at hload
          exact .inr (congrArg Except.error (Except.error.inj hload))
        | ok next => exact .inl ⟨next, rfl⟩
      have hspec := loadSegment_spec overflowChecks h hs
      rw [if_neg htop] at hspec
      obtain ⟨next, hstep, hholds⟩ := hspec
      rw [hstep] at hload
      obtain ⟨hchecks, t, ht, htop'⟩ := ih hholds hload
      exact ⟨hchecks, t, mem_cons_of_mem _ ht, htop'⟩

theorem loadSegments_ok (h : image.Holds H mem) (haccepted : ∀ s ∈ segments, s.Accepted input maxMem)
    (htop : ∀ s ∈ segments, ¬ (overflowChecks ∧ s.EndsAtTop input)) :
    ∃ image', segments.foldlM (loadSegment H overflowChecks input maxMem) image = .ok image' := by
  induction segments generalizing image mem with
  | nil => exact ⟨image, rfl⟩
  | cons s segments ih =>
    have hspec := loadSegment_spec overflowChecks h (haccepted s mem_cons_self)
    rw [if_neg (htop s mem_cons_self)] at hspec
    obtain ⟨next, hstep, hholds⟩ := hspec
    rw [foldlM_cons, hstep]
    exact ih hholds (fun t ht => haccepted t (mem_cons_of_mem _ ht)) fun t ht => htop t (mem_cons_of_mem _ ht)

/-- The file contents of the last segment that has them for the address, zero if there is
none. -/
def loadedByte (input : List Byte) (segments : List ProgramHeader) (addr : ℕ) : Byte :=
  (segments.filter fun s => s.Places addr).getLast?.elim 0 fun s => s.fileByte input addr

theorem overwrite_fileContents (h : s.Accepted input maxMem) (addr : ℕ) :
    overwrite s.pVaddr (s.fileContents input) mem addr = if s.Places addr then s.fileByte input addr else mem addr := by
  have hlength := length_fileContents h
  rw [overwrite]
  by_cases hplaces : s.Places addr
  · obtain ⟨hlow, hhigh, hposition⟩ := hplaces
    rw [if_pos ⟨hlow, by omega⟩, if_pos ⟨hlow, hhigh, hposition⟩, fileByte, fileContents,
      getD_eq_getElem?_getD, getD_eq_getElem?_getD, getElem?_take_of_lt (by omega), getElem?_drop]
  · have hout : ¬ (s.pVaddr ≤ addr ∧ addr < s.pVaddr + (s.fileContents input).length) := by
      rintro ⟨hlow, hhigh⟩
      exact hplaces ⟨hlow, by omega, by omega⟩
    rw [if_neg hout, if_neg hplaces]

theorem loadedByte_append_singleton (addr : ℕ) : loadedByte input (segments ++ [s]) addr =
    if s.Places addr then s.fileByte input addr else loadedByte input segments addr := by
  rw [loadedByte, filter_append]
  by_cases hplaces : s.Places addr
  · rw [if_pos hplaces, filter_cons_of_pos (by simpa using hplaces), filter_nil, getLast?_concat]
    rfl
  · rw [if_neg hplaces, filter_cons_of_neg (by simpa using hplaces), filter_nil, append_nil, loadedByte]

theorem placed_eq_loadedByte (h : ∀ s ∈ segments, s.Accepted input maxMem) :
    placed input segments (fun _ => 0) = loadedByte input segments := by
  funext addr
  induction segments using reverseRecOn with
  | nil => rfl
  | append_singleton segments s ih =>
    have hs : s.Accepted input maxMem := h s (by simp)
    rw [loadedByte_append_singleton, ← ih fun t ht => h t (by simp [ht]), placed, foldl_append]
    exact overwrite_fileContents hs addr

theorem loadedByte_append (before : List ProgramHeader) {after : List ProgramHeader} {addr : ℕ}
    (h : ∀ t ∈ after, ¬ t.Places addr) : loadedByte input (before ++ after) addr = loadedByte input before addr := by
  have hnone : after.filter (fun t => t.Places addr) = [] := filter_eq_nil_iff.mpr (by simpa using h)
  rw [loadedByte, filter_append, hnone, append_nil, loadedByte]

namespace MemoryImage

def Reads (H : TreeHash) (m : MemoryImage) (mem : ℕ → Byte) : Prop :=
  ∀ p < memoryPages, m.getPage H p = .ok (pageOf mem p)

theorem Holds.reads (h : image.Holds H mem) : image.Reads H mem := by
  intro p hp
  rw [getPage_spec h.wellFormed (h.complete p hp), h.contents hp]

def userMemory (entry : BitVec 32) (mem : ℕ → Byte) : ℕ → Byte :=
  overwrite userStartAddr (leBytes wordSize entry.toNat) mem

def kernelMemory (entry : BitVec 32) (mem : ℕ → Byte) : ℕ → Byte :=
  overwrite suspendModeAddr (leBytes wordSize 1) (overwrite suspendPcAddr (leBytes wordSize entry.toNat) mem)

def overlay (pages : List (ℕ × Page)) (mem : ℕ → Byte) : ℕ → Byte :=
  pages.foldl (fun mem e => overwrite (e.1 * pageBytes) e.2.toList mem) mem

variable {program : Program}

theorem Holds.setPages (h : image.Holds H mem) {pages : List (ℕ × Page)} (hpages : ∀ e ∈ pages, e.1 < memoryPages) :
    (pages.foldl (fun m e => m.setPage e.1 e.2) image).Holds H (overlay pages mem) := by
  induction pages generalizing image mem with
  | nil => exact h
  | cons e pages ih => exact ih (h.setPage (hpages e mem_cons_self) e.2) fun e he => hpages e (mem_cons_of_mem _ he)

variable (h : program.image.Holds H mem)

include h

theorem Holds.prepareUser :
    ∃ image, program.prepareUser H = .ok ⟨program.entry, image⟩ ∧ image.Holds H (userMemory program.entry mem) := by
  have haddr : userStartAddr / wordSize < memoryPages * pageWords := by decide
  obtain ⟨image, heq, hholds⟩ := h.setWord haddr program.entry
  refine ⟨image, ?_, hholds⟩
  rw [Program.prepareUser, heq]
  rfl

theorem Holds.prepareKernel (user : Option Program)
    (huser : ∀ u ∈ user, ∀ e ∈ u.image.pages.entries, e.1 < memoryPages) :
    ∃ image, program.prepareKernel H user = .ok ⟨program.entry, image⟩ ∧
      image.Holds H (kernelMemory program.entry (overlay (user.elim [] fun u => u.image.pages.entries) mem)) := by
  have hpages : ∀ e ∈ user.elim [] fun u => u.image.pages.entries, e.1 < memoryPages := by
    cases user with
    | none => simp
    | some u => exact huser u rfl
  have hpc : suspendPcAddr / wordSize < memoryPages * pageWords := by decide
  have hmode : suspendModeAddr / wordSize < memoryPages * pageWords := by decide
  obtain ⟨image₁, heq1, hholds1⟩ := (h.setPages hpages).setWord hpc program.entry
  obtain ⟨image₂, heq2, hholds2⟩ := hholds1.setWord hmode 1
  refine ⟨image₂, ?_, hholds2⟩
  simp only [Program.prepareKernel, heq1, unwrap, bind, Except.bind, heq2]
  rfl

theorem Holds.newUser : ∃ image, newUser H program = .ok image ∧ image.Holds H (userMemory program.entry mem) := by
  obtain ⟨image, heq, hholds⟩ := h.prepareUser
  refine ⟨image, ?_, hholds⟩
  rw [MemoryImage.newUser, heq]
  rfl

theorem Holds.newKernel :
    ∃ image, newKernel H program = .ok image ∧ image.Holds H (kernelMemory program.entry mem) := by
  obtain ⟨image, heq, hholds⟩ := h.prepareKernel none (by simp)
  refine ⟨image, ?_, hholds⟩
  rw [MemoryImage.newKernel, heq]
  rfl

end MemoryImage

variable {minimalParse : List Byte → Option ElfFile} {program : Program}

theorem loadElf_of_valid {elf : ElfFile} (hparse : minimalParse input = some elf) (hclass : elf.ehdrClass = .elf32)
    (hmachine : elf.eMachine = emRiscv) (htype : elf.eType = etExec) (hentry : elf.eEntry ≤ maxMem.toNat)
    (haligned : elf.eEntry % wordSize = 0) (hsegments : elf.segments = some segments) (hmany : segments.length ≤ 256) :
    loadElf H overflowChecks minimalParse input maxMem =
      (loads segments).foldlM (loadSegment H overflowChecks input maxMem) (MemoryImage.default H) >>=
        fun image => .ok ⟨BitVec.ofNat 32 elf.eEntry, image⟩ := by
  have hvalid : ¬ (maxMem.toNat < elf.eEntry ∨ elf.eEntry % wordSize ≠ 0) := by omega
  have hok (k : ℕ → Except LoadError Program) : (.ok elf.eEntry >>= k) = k elf.eEntry := rfl
  simp only [loadElf, hparse, if_neg (not_not.mpr hclass), if_neg (not_not.mpr hmachine), if_neg (not_not.mpr htype),
    tryU32_of_lt _ (show elf.eEntry < 2 ^ 32 by omega), hok, if_neg hvalid, hsegments, if_neg (show ¬ 256 < segments.length by omega)]
  rfl

theorem loadElf_segments (h : Survives (loadElf H overflowChecks minimalParse input maxMem)) :
    ∃ elf segments, minimalParse input = some elf ∧ elf.segments = some segments ∧
      loadElf H overflowChecks minimalParse input maxMem =
        (loads segments).foldlM (loadSegment H overflowChecks input maxMem) (MemoryImage.default H) >>=
          fun image => .ok ⟨BitVec.ofNat 32 elf.eEntry, image⟩ := by
  unfold loadElf at h
  cases hparse : minimalParse input with
  | none =>
    rw [hparse] at h
    rcases h with ⟨a, h⟩ | h <;> cases h
  | some elf =>
    rw [hparse] at h
    obtain ⟨hclass, h⟩ := survives_of_guard h (fun he => LoadError.noConfusion he)
    obtain ⟨hmachine, h⟩ := survives_of_guard h (fun he => LoadError.noConfusion he)
    obtain ⟨htype, h⟩ := survives_of_guard h (fun he => LoadError.noConfusion he)
    obtain ⟨hentry, h⟩ := survives_of_tryU32 h
    obtain ⟨hvalid, h⟩ := survives_of_guard h (fun he => LoadError.noConfusion he)
    cases hsegments : elf.segments with
    | none =>
      rw [hsegments] at h
      rcases h with ⟨a, h⟩ | h <;> cases h
    | some segments =>
      rw [hsegments] at h
      obtain ⟨hmany, -⟩ := survives_of_guard h (fun he => LoadError.noConfusion he)
      exact ⟨elf, segments, rfl, hsegments, loadElf_of_valid hparse (not_not.mp hclass) (not_not.mp hmachine) (not_not.mp htype)
        (by omega) (by omega) hsegments (by omega)⟩

theorem loadElf_panic (h : loadElf H overflowChecks minimalParse input maxMem = .error .panic) :
    ∃ elf segments, minimalParse input = some elf ∧ elf.segments = some segments ∧
      overflowChecks ∧ ∃ s ∈ loads segments, s.EndsAtTop input := by
  obtain ⟨elf, segments, hparse, hsegments, heq⟩ := loadElf_segments (.inr h)
  refine ⟨elf, segments, hparse, hsegments, ?_⟩
  cases hfold : (loads segments).foldlM (loadSegment H overflowChecks input maxMem) (MemoryImage.default H) with
  | ok image =>
    rw [heq, hfold] at h
    cases h
  | error e =>
    rw [heq, hfold] at h
    cases h
    exact loadSegments_panic MemoryImage.holds_default hfold

theorem loadElf_ok (h : loadElf H overflowChecks minimalParse input maxMem = .ok program) :
    ∃ elf segments, minimalParse input = some elf ∧ elf.segments = some segments ∧
      (∀ s ∈ loads segments, s.Accepted input maxMem) ∧ program.image.Holds H (loadedByte input (loads segments)) := by
  obtain ⟨elf, segments, hparse, hsegments, heq⟩ := loadElf_segments (.inl ⟨program, h⟩)
  refine ⟨elf, segments, hparse, hsegments, ?_⟩
  cases hfold : (loads segments).foldlM (loadSegment H overflowChecks input maxMem) (MemoryImage.default H) with
  | error e =>
    rw [heq, hfold] at h
    cases h
  | ok image =>
    rw [heq, hfold] at h
    cases h
    obtain ⟨haccepted, hholds⟩ := loadSegments_spec MemoryImage.holds_default hfold
    rw [placed_eq_loadedByte haccepted] at hholds
    exact ⟨haccepted, hholds⟩

/-- Loading panics only where sums are checked and the contents of a segment end with the
address space. Otherwise every byte is that of the last loadable segment with file
contents for it, and no segment goes above the maximum. -/
theorem load_elf_contents (H : TreeHash) (overflowChecks : Bool) (minimalParse : List Byte → Option ElfFile) (input : List Byte)
    (maxMem : BitVec 32) : (loadElf H overflowChecks minimalParse input maxMem = .error .panic →
      ∃ elf segments, minimalParse input = some elf ∧ elf.segments = some segments ∧
        overflowChecks ∧ ∃ s ∈ loads segments, s.EndsAtTop input) ∧
    ∀ program, loadElf H overflowChecks minimalParse input maxMem = .ok program →
      ∃ elf segments, minimalParse input = some elf ∧ elf.segments = some segments ∧
        program.image.Reads H (loadedByte input (loads segments)) ∧
        (∀ s ∈ loads segments, ∀ addr, s.Covers addr → addr ≤ maxMem.toNat) ∧
        (∀ s ∈ loads segments, ∀ addr, s.Places addr → s.pOffset + (addr - s.pVaddr) < input.length) ∧
        (∀ addr, (∀ s ∈ loads segments, ¬ s.Covers addr) → loadedByte input (loads segments) addr = 0) ∧
        (∀ before s after addr, loads segments = before ++ s :: after → s.Covers addr → (∀ t ∈ after, ¬ t.Covers addr) →
          loadedByte input (loads segments) addr =
            if s.Places addr then s.fileByte input addr else loadedByte input before addr) ∧
        (∃ image, MemoryImage.newUser H program = .ok image ∧
          image.Reads H (MemoryImage.userMemory program.entry (loadedByte input (loads segments)))) ∧
        ∃ image, MemoryImage.newKernel H program = .ok image ∧
          image.Reads H (MemoryImage.kernelMemory program.entry (loadedByte input (loads segments))) := by
  refine ⟨loadElf_panic, fun program h => ?_⟩
  obtain ⟨elf, segments, hparse, hsegments, haccepted, hholds⟩ := loadElf_ok h
  have hcovers : ∀ s ∈ loads segments, ∀ addr, s.Places addr → s.Covers addr := fun s hs addr hplaces =>
    ⟨hplaces.1, hplaces.2.1.trans_le (Nat.add_le_add_left (haccepted s hs).filesz _)⟩
  refine ⟨elf, segments, hparse, hsegments, hholds.reads, fun s hs addr hcover => ?_, fun s hs addr hplaces => ?_,
    fun addr hnone => ?_, fun before s after addr hsplit hcover hafter => ?_, ?_, ?_⟩
  · have := (haccepted s hs).fits
    have := hcover.2
    omega
  · have := (haccepted s hs).inFile
    have := hplaces.1
    have := hplaces.2.1
    have := hplaces.2.2
    omega
  · exact loadedByte_append [] fun t ht hplaces => hnone t ht (hcovers t ht addr hplaces)
  · have hafter' : ∀ t ∈ after, ¬ t.Places addr := fun t ht hplaces =>
      hafter t ht (hcovers t (by simp [hsplit, ht]) addr hplaces)
    rw [hsplit, List.append_cons, loadedByte_append _ hafter', loadedByte_append_singleton]
  · obtain ⟨image, heq, hholds'⟩ := hholds.newUser
    exact ⟨image, heq, hholds'.reads⟩
  · obtain ⟨image, heq, hholds'⟩ := hholds.newKernel
    exact ⟨image, heq, hholds'.reads⟩

/-- A file with two segments for one word, of which only the first has contents. -/
def sampleFile : List Byte :=
  [0x7f, 0x45, 0x4c, 0x46, 1, 1, 1, 0, 0, 0, 0, 0, 0, 0, 0, 0] ++ leBytes 2 etExec ++ leBytes 2 emRiscv ++ leBytes 4 1 ++
    leBytes 4 0x10000 ++ leBytes 4 52 ++ leBytes 4 0 ++ leBytes 4 0 ++ leBytes 2 52 ++ leBytes 2 32 ++ leBytes 2 2 ++
    leBytes 6 0 ++ [ptLoad, 116, 0x10000, 0x10000, 4, 4, 6, 4].flatMap (leBytes 4) ++
    [ptLoad, 120, 0x10000, 0x10000, 0, 4, 6, 4].flatMap (leBytes 4) ++ [1, 2, 3, 4]

def sampleSegments : List ProgramHeader := [⟨ptLoad, 116, 0x10000, 4, 4⟩, ⟨ptLoad, 120, 0x10000, 0, 4⟩]

def sampleParse (input : List Byte) : Option ElfFile :=
  if input = sampleFile then some ⟨.elf32, emRiscv, etExec, 0x10000, some sampleSegments⟩ else none

theorem sampleFile_length : sampleFile.length = 120 := by
  simp [sampleFile]

theorem loadElf_sampleFile : ∃ program, loadElf .sample true sampleParse sampleFile 0x10003 = .ok program := by
  have hlength := sampleFile_length
  have haccepted : ∀ s ∈ loads sampleSegments, s.Accepted sampleFile 0x10003 := by
    intro s hs
    rcases mem_pair.mp hs with rfl | rfl
    · exact ⟨by decide, by decide, by decide, by decide, by decide, by decide, by rw [hlength]; decide⟩
    · exact ⟨by decide, by decide, by decide, by decide, by decide, by decide, by rw [hlength]; decide⟩
  have htop : ∀ s ∈ loads sampleSegments, ¬ (true ∧ s.EndsAtTop sampleFile) := by
    intro s hs
    have hvaddr : s.pVaddr = 0x10000 := by rcases mem_pair.mp hs with rfl | rfl <;> rfl
    have hsize : (s.fileContents sampleFile).length ≤ 120 := by
      rw [fileContents, length_take, length_drop]
      omega
    rw [EndsAtTop, hvaddr]
    omega
  obtain ⟨image, himage⟩ := loadSegments_ok (H := .sample) MemoryImage.holds_default haccepted htop
  have hparse : sampleParse sampleFile = some ⟨.elf32, emRiscv, etExec, 0x10000, some sampleSegments⟩ := if_pos rfl
  refine ⟨⟨0x10000, image⟩, ?_⟩
  rw [loadElf_of_valid hparse rfl rfl rfl (by decide) (by decide) rfl (by decide), himage]
  rfl

theorem load_elf_contents_sample : ∃ program, loadElf .sample true sampleParse sampleFile 0x10003 = .ok program ∧
    program.image.Reads .sample (loadedByte sampleFile (loads sampleSegments)) := by
  have hparse : sampleParse sampleFile = some ⟨.elf32, emRiscv, etExec, 0x10000, some sampleSegments⟩ := if_pos rfl
  obtain ⟨program, h⟩ := loadElf_sampleFile
  obtain ⟨elf, segments, hparse', hsegments, hreads, -⟩ := (load_elf_contents .sample true sampleParse sampleFile 0x10003).2 program h
  rw [hparse] at hparse'
  cases hparse'
  cases hsegments
  exact ⟨program, h, hreads⟩

/-- The byte at the maximum is placed, and the bytes of the last segment that covers the
word are not zero. -/
theorem load_elf_overlap : ∃ program page, loadElf .sample true sampleParse sampleFile 0x10003 = .ok program ∧
    program.image.getPage .sample (0x10003 / pageBytes) = .ok page ∧ page.toList[0]? = some 1 ∧ page.toList[3]? = some 4 ∧
    (loads sampleSegments).getLast?.map (fun s => (s.pVaddr, s.pFilesz, s.pMemsz)) = some (0x10000, 0, 4) := by
  have hparse : sampleParse sampleFile = some ⟨.elf32, emRiscv, etExec, 0x10000, some sampleSegments⟩ := if_pos rfl
  obtain ⟨program, h⟩ := loadElf_sampleFile
  obtain ⟨elf, segments, hparse', hsegments, -, hholds⟩ := loadElf_ok h
  rw [hparse] at hparse'
  cases hparse'
  cases hsegments
  have hpage : 0x10003 / pageBytes < memoryPages := by decide
  have hfirst : loadedByte sampleFile (loads sampleSegments) 0x10000 = 1 := by decide
  have hlast : loadedByte sampleFile (loads sampleSegments) 0x10003 = 4 := by decide
  refine ⟨program, _, h, hholds.reads _ hpage, ?_, ?_, rfl⟩
  · rw [Vector.getElem?_toList, Vector.getElem?_eq_getElem (by decide), pageOf, Vector.getElem_ofFn]
    exact congrArg some hfirst
  · rw [Vector.getElem?_toList, Vector.getElem?_eq_getElem (by decide), pageOf, Vector.getElem_ofFn]
    exact congrArg some hlast

end VerifiableCompute.Binfmt
