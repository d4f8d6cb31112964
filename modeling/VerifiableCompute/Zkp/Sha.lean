import VerifiableCompute.Lib.Sha256

/-! The ways to a SHA-256 digest: the guest's, which pads by hand and hands whole blocks to the machine, the one of the
host, and a streaming wrapper over either. All three count the bits of a message in words of 32 bits, or leave it to a
library. -/

namespace VerifiableCompute.Zkp.Sha

open Lib Lib.Sha256 List Option

abbrev Word := BitVec 32

/-- Memory is little-endian. -/
def littleEndianWord (memory : List Byte) (t : ℕ) : Word :=
  memory.getD (4 * t + 3) 0 ++ memory.getD (4 * t + 2) 0 ++ memory.getD (4 * t + 1) 0 ++ memory.getD (4 * t) 0

def wordMemory (w : Word) : List Byte := [w.extractLsb' 0 8, w.extractLsb' 8 8, w.extractLsb' 16 8, w.extractLsb' 24 8]

/-- The word in the other byte order. -/
def toBe (w : Word) : Word := w.extractLsb' 0 8 ++ w.extractLsb' 8 8 ++ w.extractLsb' 16 8 ++ w.extractLsb' 24 8

/-- A digest, or a state: eight words as memory holds them. -/
abbrev Digest := Hash

def Digest.toBe (d : Digest) : Digest :=
  ⟨Sha.toBe d.a, Sha.toBe d.b, Sha.toBe d.c, Sha.toBe d.d, Sha.toBe d.e, Sha.toBe d.f, Sha.toBe d.g, Sha.toBe d.h⟩

def Digest.asBytes (d : Digest) : List Byte := [d.a, d.b, d.c, d.d, d.e, d.f, d.g, d.h].flatMap wordMemory

def SHA256_INIT : Digest :=
  ⟨toBe 0x6a09e667, toBe 0xbb67ae85, toBe 0x3c6ef372, toBe 0xa54ff53a, toBe 0x510e527f, toBe 0x9b05688c, toBe 0x1f83d9ab,
    toBe 0x5be0cd19⟩

def WORD_SIZE : ℕ := 4

def BLOCK_WORDS : ℕ := 16

def BLOCK_BYTES : ℕ := 64

/-- A sum that leaves its word aborts a build that checks, and wraps in one that does not. -/
def addU32 (checks : Bool) (x y : Word) : Option Word := if checks && decide (2 ^ 32 ≤ x.toNat + y.toNat) then none else some (x + y)

def mulU32 (checks : Bool) (x y : Word) : Option Word := if checks && decide (2 ^ 32 ≤ x.toNat * y.toNat) then none else some (x * y)

namespace Guest

/-- The machine compresses blocks that lie in memory, each word taken most significant byte first. -/
def sysShaBuffer (inState : Digest) (memory : List Byte) (count : ℕ) : Digest :=
  Digest.toBe (compressBlocks (roundConstants.getD · 0) (fun t => toBe (littleEndianWord memory t)) (Digest.toBe inState) count)

/-- The machine compresses one block whose halves lie in two places. -/
def sysShaCompress (inState : Digest) (blockHalf1 blockHalf2 : List Byte) : Digest :=
  sysShaBuffer inState (blockHalf1 ++ blockHalf2) 1

inductive Trailer
  | withTrailer (totalBits : Word)
  | withoutTrailer

def alignUp (addr align : ℕ) : ℕ := (addr + (align - 1)) / align * align

def computeU32sNeeded (lenBytes : ℕ) : Trailer → ℕ
  | .withoutTrailer => alignUp lenBytes (WORD_SIZE * BLOCK_WORDS) / WORD_SIZE
  | .withTrailer _ => alignUp (alignUp (lenBytes + 1) WORD_SIZE / WORD_SIZE + 2) BLOCK_WORDS

/-- The bytes of the padded copy, before the number of bits is stored. -/
def padBytes (bytes : List Byte) (padlen : ℕ) : Trailer → List Byte
  | .withTrailer _ => bytes ++ 0x80#8 :: List.replicate (padlen * WORD_SIZE - bytes.length - 1) 0#8
  | .withoutTrailer => bytes ++ List.replicate (padlen * WORD_SIZE - bytes.length) 0#8

def storeWord (memory : List Byte) (i : ℕ) (w : Word) : List Byte :=
  memory.take (WORD_SIZE * i) ++ wordMemory w ++ memory.drop (WORD_SIZE * i + WORD_SIZE)

def updateBlocks (inState : Digest) (memory : List Byte) (count : ℕ) : Digest :=
  if count ≠ 0 then sysShaBuffer inState memory count else inState

/-- The copy holds at most `2^31 - 1` bytes, which keeps every length of it in its word. -/
def copyAndUpdate (inState : Digest) (bytes : List Byte) (trailer : Trailer) : Option Digest :=
  let padlen := computeU32sNeeded bytes.length trailer
  let padbuf := padBytes bytes padlen trailer
  if 2 ^ 31 ≤ padlen * WORD_SIZE ∨ padlen * WORD_SIZE < bytes.length ∨ padlen % BLOCK_WORDS ≠ 0 then none
  else
    match trailer with
    | .withTrailer totalBits =>
      if littleEndianWord padbuf (padlen - 1) ≠ 0 then none
      else some (updateBlocks inState (storeWord padbuf (padlen - 1) (toBe totalBits)) (padlen / BLOCK_WORDS))
    | .withoutTrailer => some (updateBlocks inState padbuf (padlen / BLOCK_WORDS))

/-- Bytes that start at a word: whole blocks are compressed where they lie, and the rest is copied. Others are copied as a
whole. -/
def updateU8 (aligned : Bool) (inState : Digest) (bytes : List Byte) (trailer : Trailer) : Option Digest :=
  if aligned then
    let blocks := bytes.length / BLOCK_BYTES
    copyAndUpdate (updateBlocks inState bytes blocks) (bytes.drop (BLOCK_BYTES * blocks)) trailer
  else copyAndUpdate inState bytes trailer

def updateU32 (inState : Digest) (words : List Word) (trailer : Trailer) : Option Digest :=
  let blocks := words.length / BLOCK_WORDS
  copyAndUpdate (updateBlocks inState (words.flatMap wordMemory) blocks)
    ((words.drop (BLOCK_WORDS * blocks)).flatMap wordMemory) trailer

def hashBytes (checks aligned : Bool) (bytes : List Byte) : Option Digest := do
  let totalBits ← mulU32 checks (BitVec.ofNat 32 bytes.length) 8
  updateU8 aligned SHA256_INIT bytes (.withTrailer totalBits)

def hashWords (checks : Bool) (words : List Word) : Option Digest := do
  let totalBits ← mulU32 checks (BitVec.ofNat 32 words.length) 32
  updateU32 SHA256_INIT words (.withTrailer totalBits)

def hashRawDataSlice (words : List Word) : Option Digest := updateU32 SHA256_INIT words .withoutTrailer

def compress (state : Digest) (blockHalf1 blockHalf2 : List Byte) : Digest := sysShaCompress state blockHalf1 blockHalf2

def compressSlice (state : Digest) (blocks : List Byte) (count : ℕ) : Digest := sysShaBuffer state blocks count

end Guest

namespace Cpu

/-- Blocks of bytes into a state of numbers, as the library for the standard does it. -/
def compress256 (state : Hash) (blocks : List Byte) (count : ℕ) : Hash := blocksState state blocks count

def ofBytes (bytes : List Byte) : Digest :=
  ⟨littleEndianWord bytes 0, littleEndianWord bytes 1, littleEndianWord bytes 2, littleEndianWord bytes 3,
    littleEndianWord bytes 4, littleEndianWord bytes 5, littleEndianWord bytes 6, littleEndianWord bytes 7⟩

/-- The library gives the digest of the standard. -/
def hashBytes (bytes : List Byte) : Digest := ofBytes (digest bytes)

def hashWords (words : List Word) : Digest := hashBytes (words.flatMap wordMemory)

def hashRawDataSlice (words : List Word) : Digest :=
  let u8s := words.flatMap wordMemory
  let blocks := u8s.length / BLOCK_BYTES
  let state := compress256 (Digest.toBe SHA256_INIT) u8s blocks
  let remainder := u8s.drop (BLOCK_BYTES * blocks)
  let state := if remainder ≠ [] then
      compress256 state (remainder ++ List.replicate (BLOCK_BYTES - remainder.length) 0#8) 1
    else state
  Digest.toBe state

def compress (origState : Digest) (blockHalf1 blockHalf2 : List Byte) : Digest :=
  Digest.toBe (compress256 (Digest.toBe origState) (blockHalf1 ++ blockHalf2) 1)

def compressSlice (origState : Digest) (blocks : List Byte) (count : ℕ) : Digest :=
  Digest.toBe (compress256 (Digest.toBe origState) blocks count)

end Cpu

/-- What the wrapper asks of an implementation. -/
structure Impl where
  compress : Digest → List Byte → List Byte → Digest
  compressSlice : Digest → List Byte → ℕ → Digest

def guestImpl : Impl := ⟨Guest.compress, Guest.compressSlice⟩

def cpuImpl : Impl := ⟨Cpu.compress, Cpu.compressSlice⟩

/-- The library's buffer of less than a block: the blocks that it hands on for an input, the bytes that it keeps, and the
blocks that it ends with. -/
structure BlockBuffer where
  digestBlocks : List Byte → List Byte → List (List Byte) × List Byte
  len64PaddingBe : List Byte → BitVec 64 → List (List Byte)
  digestBlocks_bytes : ∀ pending input, pending.length < BLOCK_BYTES →
    (digestBlocks pending input).1.flatten ++ (digestBlocks pending input).2 = pending ++ input
  digestBlocks_whole : ∀ pending input, ∀ blocks ∈ (digestBlocks pending input).1, blocks.length % BLOCK_BYTES = 0
  digestBlocks_pending : ∀ pending input, (digestBlocks pending input).2.length < BLOCK_BYTES
  len64PaddingBe_bytes : ∀ pending bits, pending.length < BLOCK_BYTES →
    (len64PaddingBe pending bits).flatten = padWith pending bits.toNat
  len64PaddingBe_block : ∀ pending bits, pending.length < BLOCK_BYTES →
    ∀ block ∈ len64PaddingBe pending bits, block.length = BLOCK_BYTES

structure Sha256VarCore where
  state : Option Digest
  blockLen : Word

/-- The hasher: the core and the bytes in its buffer. -/
structure Hasher where
  core : Sha256VarCore
  pending : List Byte

def Hasher.new : Hasher := ⟨⟨none, 0⟩, []⟩

section Wrapper

variable (checks : Bool) (S : Impl) (B : BlockBuffer)

/-- Aligned or copied, the blocks are the same. -/
def updateBlocks (core : Sha256VarCore) (blocks : List Byte) : Option Sha256VarCore :=
  let count := blocks.length / BLOCK_BYTES
  if 2 ^ 32 ≤ count then none
  else do
    let blockLen ← addU32 checks core.blockLen (BitVec.ofNat 32 count)
    return ⟨some (S.compressSlice (core.state.getD SHA256_INIT) blocks count), blockLen⟩

def update (hasher : Hasher) (input : List Byte) : Option Hasher := do
  let core ← (B.digestBlocks hasher.pending input).1.foldlM (updateBlocks checks S) hasher.core
  return ⟨core, (B.digestBlocks hasher.pending input).2⟩

def bitLen (hasher : Hasher) : Option Word := do
  let hashed ← mulU32 checks (BitVec.ofNat 32 BLOCK_BYTES) hasher.core.blockLen
  let bytes ← addU32 checks (BitVec.ofNat 32 hasher.pending.length) hashed
  mulU32 checks 8 bytes

def finalizeVariableCore (hasher : Hasher) : Option (List Byte) := do
  let bits ← bitLen checks hasher
  let state := (B.len64PaddingBe hasher.pending (bits.setWidth 64)).foldl
    (fun state block => some (S.compress (state.getD SHA256_INIT) (block.take 32) (block.drop 32))) hasher.core.state
  return Digest.asBytes (← state)

/-- The parts of a message, one update for each. -/
def digestParts (parts : List (List Byte)) : Option (List Byte) := do
  let hasher ← parts.foldlM (update checks S B) .new
  finalizeVariableCore checks S B hasher

end Wrapper

theorem toNat_append_byte {n : ℕ} (x : BitVec n) (b : Byte) : (x ++ b).toNat = 256 * x.toNat + b.toNat := by
  rw [BitVec.toNat_append, ← Nat.shiftLeft_add_eq_or_of_lt b.isLt, Nat.shiftLeft_eq, Nat.mul_comm]

theorem toNat_bytes (a b c d : Byte) :
    (a ++ b ++ c ++ d : Word).toNat = 256 * (256 * (256 * a.toNat + b.toNat) + c.toNat) + d.toNat := by
  rw [← toNat_append_byte a b, ← toNat_append_byte (a ++ b) c]
  exact toNat_append_byte (a ++ b ++ c) d

theorem extract_bytes (a b c d : Byte) :
    (a ++ b ++ c ++ d : Word).extractLsb' 0 8 = d ∧ (a ++ b ++ c ++ d : Word).extractLsb' 8 8 = c ∧
      (a ++ b ++ c ++ d : Word).extractLsb' 16 8 = b ∧ (a ++ b ++ c ++ d : Word).extractLsb' 24 8 = a := by
  have ha := a.isLt
  have hb := b.isLt
  have hc := c.isLt
  have hd := d.isLt
  refine ⟨?_, ?_, ?_, ?_⟩
  all_goals
    apply BitVec.eq_of_toNat_eq
    rw [BitVec.extractLsb'_toNat, Nat.shiftRight_eq_div_pow, toNat_bytes]
    omega

theorem bytes_extract (w : Word) :
    (w.extractLsb' 24 8 ++ w.extractLsb' 16 8 ++ w.extractLsb' 8 8 ++ w.extractLsb' 0 8 : Word) = w := by
  have hw := w.isLt
  apply BitVec.eq_of_toNat_eq
  rw [toNat_bytes]
  simp only [BitVec.extractLsb'_toNat, Nat.shiftRight_eq_div_pow]
  omega

theorem toBe_append (a b c d : Byte) : toBe (a ++ b ++ c ++ d : Word) = d ++ c ++ b ++ a := by
  obtain ⟨h0, h1, h2, h3⟩ := extract_bytes a b c d
  rw [toBe, h0, h1, h2, h3]

@[simp] theorem toBe_toBe (w : Word) : toBe (toBe w) = w := by
  unfold toBe
  rw [← toBe]
  exact (toBe_append _ _ _ _).trans (bytes_extract w)

theorem wordMemory_toBe (w : Word) : wordMemory (toBe w) = beBytes 4 w.toNat := by
  obtain ⟨h0, h1, h2, h3⟩ := extract_bytes (w.extractLsb' 0 8) (w.extractLsb' 8 8) (w.extractLsb' 16 8) (w.extractLsb' 24 8)
  rw [wordMemory, toBe, h0, h1, h2, h3]
  have hbyte (i : ℕ) : w.extractLsb' (8 * i) 8 = BitVec.ofNat 8 (w.toNat / 256 ^ i) := by
    apply BitVec.eq_of_toNat_eq
    rw [BitVec.extractLsb'_toNat, BitVec.toNat_ofNat, Nat.shiftRight_eq_div_pow, pow_mul]
    norm_num
  simp only [beBytes, cons.injEq, and_true]
  exact ⟨hbyte 3, hbyte 2, hbyte 1, hbyte 0⟩

theorem toBe_littleEndianWord (memory : List Byte) (t : ℕ) : toBe (littleEndianWord memory t) = bigEndianWord memory t :=
  toBe_append _ _ _ _

@[simp] theorem Digest.toBe_toBe (d : Digest) : Digest.toBe (Digest.toBe d) = d := by
  simp only [Digest.toBe, Sha.toBe_toBe]

theorem toBe_init : Digest.toBe SHA256_INIT = initial := by
  simp only [Digest.toBe, SHA256_INIT, Sha.toBe_toBe, initial]

theorem asBytes_toBe (s : Hash) : Digest.asBytes (Digest.toBe s) = Lib.Sha256.hashBytes s := by
  simp only [Digest.asBytes, Digest.toBe, Lib.Sha256.hashBytes, flatMap_cons, flatMap_nil, wordMemory_toBe]

theorem ofBytes_hashBytes (s : Hash) : Cpu.ofBytes (Lib.Sha256.hashBytes s) = Digest.toBe s := by
  rw [← asBytes_toBe]
  have hword (w : Word) : w.extractLsb' 24 8 ++ w.extractLsb' 16 8 ++ w.extractLsb' 8 8 ++ w.extractLsb' 0 8 = w := bytes_extract w
  ext1 <;> exact hword _

def paddedDigest (message : List Byte) (bits : ℕ) : Digest :=
  Digest.toBe (blocksState initial (padWith message bits) ((padWith message bits).length / 64))

theorem cpu_hashBytes (bytes : List Byte) : Cpu.hashBytes bytes = paddedDigest bytes (8 * bytes.length) := ofBytes_hashBytes _

theorem asBytes_paddedDigest (message : List Byte) (bits : ℕ) :
    Digest.asBytes (paddedDigest message bits) = hashPadded (padWith message bits) := asBytes_toBe _

namespace Guest

variable (s : Digest)

theorem sysShaBuffer_eq (memory : List Byte) (count : ℕ) :
    sysShaBuffer s memory count = Digest.toBe (blocksState (Digest.toBe s) memory count) := by
  simp only [sysShaBuffer, toBe_littleEndianWord]
  rfl

theorem updateBlocks_eq (memory : List Byte) (count : ℕ) :
    updateBlocks s memory count = Digest.toBe (blocksState (Digest.toBe s) memory count) := by
  unfold updateBlocks
  split_ifs with h
  · exact sysShaBuffer_eq s memory count
  · rw [not_not.mp h]
    exact (Digest.toBe_toBe s).symm

theorem computeU32sNeeded_withTrailer (n : ℕ) (totalBits : Word) :
    computeU32sNeeded n (.withTrailer totalBits) = 16 * ((n + 72) / 64) := by
  simp only [computeU32sNeeded, alignUp, WORD_SIZE, BLOCK_WORDS]
  omega

theorem computeU32sNeeded_withoutTrailer (n : ℕ) : computeU32sNeeded n .withoutTrailer = 16 * ((n + 63) / 64) := by
  simp only [computeU32sNeeded, alignUp, WORD_SIZE, BLOCK_WORDS]
  omega

theorem beBytes_eight {bits : ℕ} (hbits : bits < 2 ^ 32) : beBytes 8 bits = replicate 4 0#8 ++ beBytes 4 bits := by
  have hzero {i : ℕ} (hi : 4 ≤ i) : bits / 256 ^ i = 0 := by
    refine Nat.div_eq_of_lt (hbits.trans_le ?_)
    calc 2 ^ 32 = 256 ^ 4 := by norm_num
      _ ≤ 256 ^ i := Nat.pow_le_pow_right (by norm_num) hi
  simp only [beBytes, hzero (show 4 ≤ 7 by norm_num), hzero (show 4 ≤ 6 by norm_num), hzero (show 4 ≤ 5 by norm_num),
    hzero (show 4 ≤ 4 by norm_num)]
  rfl

theorem copyAndUpdate_withTrailer (bytes : List Byte) (totalBits : Word) :
    copyAndUpdate s bytes (.withTrailer totalBits) =
      if 2 ^ 31 ≤ (padWith bytes totalBits.toNat).length then none
      else some (Digest.toBe (blocksState (Digest.toBe s) (padWith bytes totalBits.toNat)
        ((padWith bytes totalBits.toNat).length / 64))) := by
  have hlength := length_padWith bytes totalBits.toNat
  have hcount : 1 ≤ (bytes.length + 72) / 64 := by omega
  -- all but the last word, which the number of bits goes to
  obtain ⟨front, hfront⟩ : ∃ front, front = bytes ++ 0x80#8 :: (replicate (paddingZeros bytes.length) 0#8 ++
    replicate 4 0#8) := ⟨_, rfl⟩
  have hpad : padBytes bytes (16 * ((bytes.length + 72) / 64)) (.withTrailer totalBits) = front ++ replicate 4 0#8 := by
    have hzeros : 16 * ((bytes.length + 72) / 64) * 4 - bytes.length - 1 = paddingZeros bytes.length + (4 + 4) := by
      unfold paddingZeros
      omega
    rw [padBytes, WORD_SIZE, hzeros, replicate_add, replicate_add, hfront, append_assoc, cons_append,
      append_assoc]
  have hfrontLength : front.length = 4 * (16 * ((bytes.length + 72) / 64) - 1) := by
    rw [hfront]
    simp only [length_append, length_cons, length_replicate, paddingZeros]
    omega
  have hlast : littleEndianWord (front ++ replicate 4 0#8) (16 * ((bytes.length + 72) / 64) - 1) = 0 := by
    have hword := bigEndianWord_append_right (replicate 4 0#8) hfrontLength 0
    rw [Nat.add_zero, ← toBe_littleEndianWord] at hword
    rw [← toBe_toBe (littleEndianWord _ _), hword]
    rfl
  have hstore : storeWord (front ++ replicate 4 0#8) (16 * ((bytes.length + 72) / 64) - 1) (toBe totalBits) =
      padWith bytes totalBits.toNat := by
    have hend : (front ++ replicate 4 0#8).drop (4 * (16 * ((bytes.length + 72) / 64) - 1) + 4) = [] := by
      rw [drop_eq_nil_iff, length_append, hfrontLength, length_replicate]
    rw [storeWord, WORD_SIZE, take_left' hfrontLength, hend, append_nil, wordMemory_toBe, hfront, padWith,
      beBytes_eight totalBits.isLt, append_assoc, cons_append, append_assoc]
  have hwords : 16 * ((bytes.length + 72) / 64) * WORD_SIZE = (padWith bytes totalBits.toNat).length := by
    rw [hlength, WORD_SIZE]
    omega
  have hblocks : 16 * ((bytes.length + 72) / 64) / BLOCK_WORDS = (padWith bytes totalBits.toNat).length / 64 := by
    rw [hlength, BLOCK_WORDS]
    omega
  have hfits : ¬ ((padWith bytes totalBits.toNat).length < bytes.length ∨ 16 * ((bytes.length + 72) / 64) % BLOCK_WORDS ≠ 0) := by
    rw [hlength, BLOCK_WORDS]
    omega
  unfold copyAndUpdate
  simp only [computeU32sNeeded_withTrailer, hpad, hlast, hstore, hwords, hblocks, updateBlocks_eq, or_iff_left hfits, ne_eq,
    not_true_eq_false, if_false]

theorem copyAndUpdate_withoutTrailer {bytes : List Byte} (h : bytes.length < 64) :
    copyAndUpdate s bytes .withoutTrailer = some (Digest.toBe (blocksState (Digest.toBe s)
      (bytes ++ replicate (64 * ((bytes.length + 63) / 64) - bytes.length) 0#8) ((bytes.length + 63) / 64))) := by
  have hwords : 16 * ((bytes.length + 63) / 64) * WORD_SIZE = 64 * ((bytes.length + 63) / 64) := by
    rw [WORD_SIZE]
    omega
  have hblocks : 16 * ((bytes.length + 63) / 64) / BLOCK_WORDS = (bytes.length + 63) / 64 := by
    rw [BLOCK_WORDS]
    omega
  have hfits : ¬ (2 ^ 31 ≤ 64 * ((bytes.length + 63) / 64) ∨ 64 * ((bytes.length + 63) / 64) < bytes.length ∨
      16 * ((bytes.length + 63) / 64) % BLOCK_WORDS ≠ 0) := by
    rw [BLOCK_WORDS]
    omega
  unfold copyAndUpdate padBytes
  simp only [computeU32sNeeded_withoutTrailer, hwords, hblocks, updateBlocks_eq, if_neg hfits]

theorem updateU8_aligned (bytes : List Byte) (totalBits : Word) :
    updateU8 true s bytes (.withTrailer totalBits) = some (Digest.toBe (blocksState (Digest.toBe s)
      (padWith bytes totalBits.toNat) ((padWith bytes totalBits.toNat).length / 64))) := by
  have hfirst : (bytes.take (64 * (bytes.length / 64))).length = 64 * (bytes.length / 64) := by
    rw [length_take]
    omega
  have hrest : (bytes.drop (64 * (bytes.length / 64))).length = bytes.length % 64 := by
    rw [length_drop]
    omega
  have hsplit := take_append_drop (64 * (bytes.length / 64)) bytes
  have hpad : padWith bytes totalBits.toNat = bytes.take (64 * (bytes.length / 64)) ++
      padWith (bytes.drop (64 * (bytes.length / 64))) totalBits.toNat := by
    conv_lhs => rw [← hsplit]
    exact padWith_append hfirst _ _
  have hlast : ¬ 2 ^ 31 ≤ (padWith (bytes.drop (64 * (bytes.length / 64))) totalBits.toNat).length := by
    rw [length_padWith, hrest]
    omega
  have hcount : (padWith bytes totalBits.toNat).length / 64 = bytes.length / 64 +
      (padWith (bytes.drop (64 * (bytes.length / 64))) totalBits.toNat).length / 64 := by
    rw [hpad, length_append, hfirst, Nat.mul_add_div (by norm_num)]
  have hstate : blocksState (Digest.toBe s) bytes (bytes.length / 64) =
      blocksState (Digest.toBe s) (bytes.take (64 * (bytes.length / 64))) (bytes.length / 64) := by
    rw [← blocksState_append_left hfirst (Digest.toBe s) (bytes.drop (64 * (bytes.length / 64))), hsplit]
  rw [updateU8, if_pos rfl]
  simp only [BLOCK_BYTES]
  rw [copyAndUpdate_withTrailer, if_neg hlast, updateBlocks_eq, Digest.toBe_toBe, hstate, hcount, ← blocksState_append hfirst,
    ← hpad]

theorem length_wordMemory (words : List Word) : (words.flatMap wordMemory).length = 4 * words.length := by
  induction words with
  | nil => rfl
  | cons w words ih =>
    rw [flatMap_cons, length_append, ih, length_cons]
    exact Nat.add_comm 4 _

theorem drop_wordMemory (words : List Word) (n : ℕ) :
    (words.drop n).flatMap wordMemory = (words.flatMap wordMemory).drop (4 * n) := by
  conv_rhs => rw [← take_append_drop n words, flatMap_append]
  obtain hle | hlt := Nat.le_total n words.length
  · rw [drop_left']
    rw [length_wordMemory, length_take, Nat.min_eq_left hle]
  · rw [drop_eq_nil_of_le hlt, flatMap_nil, append_nil, drop_eq_nil_of_le]
    rw [length_wordMemory, length_take]
    omega

theorem updateU32_eq (words : List Word) (trailer : Trailer) :
    updateU32 s words trailer = updateU8 true s (words.flatMap wordMemory) trailer := by
  have hblocks : (words.flatMap wordMemory).length / BLOCK_BYTES = words.length / BLOCK_WORDS := by
    rw [length_wordMemory, BLOCK_BYTES, BLOCK_WORDS]
    omega
  have hbytes : 4 * (BLOCK_WORDS * (words.length / BLOCK_WORDS)) = BLOCK_BYTES * (words.length / BLOCK_WORDS) := by
    rw [BLOCK_BYTES, BLOCK_WORDS]
    omega
  rw [updateU32, updateU8, if_pos rfl]
  dsimp only
  rw [hblocks, drop_wordMemory, hbytes]

end Guest

theorem hashRawDataSlice_eq (words : List Word) : Guest.hashRawDataSlice words = some (Cpu.hashRawDataSlice words) := by
  rw [Guest.hashRawDataSlice, Guest.updateU32_eq, Guest.updateU8, if_pos rfl, Cpu.hashRawDataSlice]
  dsimp only
  obtain ⟨memory, hmemory⟩ : ∃ memory, memory = words.flatMap wordMemory := ⟨_, rfl⟩
  rw [← hmemory]
  have hrest : (memory.drop (BLOCK_BYTES * (memory.length / BLOCK_BYTES))).length < 64 := by
    rw [length_drop, BLOCK_BYTES]
    omega
  rw [Guest.copyAndUpdate_withoutTrailer _ hrest, Guest.updateBlocks_eq, Digest.toBe_toBe]
  obtain ⟨rest, hrest'⟩ : ∃ rest, rest = memory.drop (BLOCK_BYTES * (memory.length / BLOCK_BYTES)) := ⟨_, rfl⟩
  rw [← hrest'] at hrest ⊢
  split_ifs with hnil
  · have hpos := length_pos_iff.mpr hnil
    have hone : (rest.length + 63) / 64 = 1 := by omega
    rw [hone]
    rfl
  · rw [not_not.mp hnil]
    rfl

/-- A number of bits is the one asked for in 32 bits, which a build that checks gives for less than `2^29` bytes only. -/
def Counts (checks : Bool) (bits : Option Word) (n : ℕ) : Prop :=
  bits = some (BitVec.ofNat 32 (8 * n)) ∧ (checks = true → n < 2 ^ 29) ∨ bits = none ∧ 2 ^ 29 ≤ n

variable {x y : Word} {checks : Bool} {message : List Byte} {result : Option Digest}

theorem mulU32_eq (checks : Bool) :
    mulU32 checks x y = some (BitVec.ofNat 32 (x.toNat * y.toNat)) ∧ (checks = true → x.toNat * y.toNat < 2 ^ 32) ∨
      mulU32 checks x y = none ∧ 2 ^ 32 ≤ x.toNat * y.toNat := by
  unfold mulU32
  split_ifs with h
  · exact .inr ⟨rfl, of_decide_eq_true (Bool.and_eq_true_iff.mp h).2⟩
  · refine .inl ⟨congrArg some (BitVec.eq_of_toNat_eq (by rw [BitVec.toNat_mul, BitVec.toNat_ofNat])), fun hchecks => ?_⟩
    rw [hchecks, Bool.true_and, decide_eq_true_eq] at h
    exact Nat.lt_of_not_le h

theorem addU32_eq (checks : Bool) :
    addU32 checks x y = some (BitVec.ofNat 32 (x.toNat + y.toNat)) ∧ (checks = true → x.toNat + y.toNat < 2 ^ 32) ∨
      addU32 checks x y = none ∧ 2 ^ 32 ≤ x.toNat + y.toNat := by
  unfold addU32
  split_ifs with h
  · exact .inr ⟨rfl, of_decide_eq_true (Bool.and_eq_true_iff.mp h).2⟩
  · refine .inl ⟨congrArg some (BitVec.eq_of_toNat_eq (by rw [BitVec.toNat_add, BitVec.toNat_ofNat])), fun hchecks => ?_⟩
    rw [hchecks, Bool.true_and, decide_eq_true_eq] at h
    exact Nat.lt_of_not_le h

/-- A message is hashed with its number of bits cut to 32 bits, which a build that checks does for less than `2^29` bytes
only, or it has `2^29` bytes and the call aborts. -/
def Hashes (checks : Bool) (result : Option (List Byte)) (message : List Byte) : Prop :=
  result = some (hashPadded (padWith message (8 * message.length % 2 ^ 32))) ∧ (checks = true → message.length < 2 ^ 29) ∨
    result = none ∧ 2 ^ 29 ≤ message.length

/-- Two different paddings of a message have one digest. -/
def Collision (message : List Byte) : Prop :=
  padWith message (8 * message.length % 2 ^ 32) ≠ padWith message (8 * message.length) ∧
    hashPadded (padWith message (8 * message.length % 2 ^ 32)) = digest message

/-- Below `2^29` bytes the result is the digest, and beyond it is only by a collision, in a build that does not check. -/
def AgreesBelow (checks : Bool) (result : Option (List Byte)) (message : List Byte) : Prop :=
  (message.length < 2 ^ 29 → result = some (digest message)) ∧
    (result = some (digest message) → message.length < 2 ^ 29 ∨ checks = false ∧ Collision message)

theorem Hashes.agreesBelow {result : Option (List Byte)} (hlength : message.length < 2 ^ 61)
    (h : Hashes checks result message) : AgreesBelow checks result message := by
  obtain ⟨rfl, hchecked⟩ | ⟨rfl, hlong⟩ := h
  · refine ⟨fun hshort => ?_, fun hsame => ?_⟩
    · rw [digest, Nat.mod_eq_of_lt (by omega)]
    · by_cases hshort : message.length < 2 ^ 29
      · exact .inl hshort
      · refine .inr ⟨Bool.eq_false_of_not_eq_true (mt hchecked hshort), fun hpad => ?_, Option.some.inj hsame⟩
        have hbits := padWith_bits_inj (by omega) (by omega) hpad
        omega
  · exact ⟨fun hshort => absurd hlong (Nat.not_le.mpr hshort), fun hsome => by cases hsome⟩

namespace Guest

/-- From a number of bits on, only the copy of a very long message that starts off a word aborts. -/
theorem updateU8_withTrailer (aligned : Bool) (bytes : List Byte) (totalBits : Word) :
    updateU8 aligned SHA256_INIT bytes (.withTrailer totalBits) = some (paddedDigest bytes totalBits.toNat) ∨
      updateU8 aligned SHA256_INIT bytes (.withTrailer totalBits) = none ∧ 2 ^ 29 ≤ bytes.length := by
  cases aligned with
  | true =>
    left
    rw [updateU8_aligned, toBe_init]
    rfl
  | false =>
    rw [updateU8, if_neg Bool.false_ne_true, copyAndUpdate_withTrailer, toBe_init]
    split_ifs with hlong
    · rw [length_padWith] at hlong
      exact .inr ⟨rfl, by omega⟩
    · exact .inl rfl

/-- The digest for the number of bits in 32 bits, or an abort for a message of `2^29` bytes. -/
theorem hashBytes_eq (checks aligned : Bool) {bytes : List Byte} (hlength : bytes.length < 2 ^ 32) :
    hashBytes checks aligned bytes = some (paddedDigest bytes (8 * bytes.length % 2 ^ 32)) ∧
        (checks = true → bytes.length < 2 ^ 29) ∨
      hashBytes checks aligned bytes = none ∧ 2 ^ 29 ≤ bytes.length := by
  have hnat : (BitVec.ofNat 32 bytes.length).toNat * (8 : Word).toNat = 8 * bytes.length := by
    rw [BitVec.toNat_ofNat, Nat.mod_eq_of_lt hlength, Nat.mul_comm]
    rfl
  unfold hashBytes
  obtain ⟨hbits, hchecked⟩ | ⟨hbits, hlong⟩ := mulU32_eq checks (x := BitVec.ofNat 32 bytes.length) (y := 8)
  · rw [hnat] at hbits hchecked
    rw [hbits]
    have hupdate := updateU8_withTrailer aligned bytes (BitVec.ofNat 32 (8 * bytes.length))
    rw [BitVec.toNat_ofNat] at hupdate
    exact hupdate.imp_left fun hsome => ⟨hsome, fun hchecks => by have := hchecked hchecks; omega⟩
  · rw [hnat] at hlong
    rw [hbits]
    exact .inr ⟨rfl, by omega⟩

theorem hashWords_eq (checks : Bool) {words : List Word} (hlength : 4 * words.length < 2 ^ 32) :
    hashWords checks words = some (paddedDigest (words.flatMap wordMemory) (8 * (words.flatMap wordMemory).length % 2 ^ 32)) ∧
        (checks = true → (words.flatMap wordMemory).length < 2 ^ 29) ∨
      hashWords checks words = none ∧ 2 ^ 29 ≤ (words.flatMap wordMemory).length := by
  have hnat : (BitVec.ofNat 32 words.length).toNat * (32 : Word).toNat = 8 * (words.flatMap wordMemory).length := by
    rw [BitVec.toNat_ofNat, Nat.mod_eq_of_lt (by omega), length_wordMemory, ← Nat.mul_assoc, Nat.mul_comm]
    rfl
  unfold hashWords
  obtain ⟨hbits, hchecked⟩ | ⟨hbits, hlong⟩ := mulU32_eq checks (x := BitVec.ofNat 32 words.length) (y := 32)
  · rw [hnat] at hbits hchecked
    rw [hbits]
    have hupdate := updateU8_withTrailer true (words.flatMap wordMemory) (BitVec.ofNat 32 (8 * (words.flatMap wordMemory).length))
    rw [BitVec.toNat_ofNat] at hupdate
    simp only [bind_eq_bind, bind_some, updateU32_eq]
    exact hupdate.imp_left fun hsome => ⟨hsome, fun hchecks => by have := hchecked hchecks; omega⟩
  · rw [hnat] at hlong
    rw [hbits]
    exact .inr ⟨rfl, by omega⟩

end Guest

theorem hashes_of_digest
    (h : result = some (paddedDigest message (8 * message.length % 2 ^ 32)) ∧ (checks = true → message.length < 2 ^ 29) ∨
      result = none ∧ 2 ^ 29 ≤ message.length) : Hashes checks (result.map Digest.asBytes) message := by
  obtain ⟨rfl, hchecked⟩ | ⟨rfl, hlong⟩ := h
  · exact .inl ⟨congrArg some (asBytes_paddedDigest _ _), hchecked⟩
  · exact .inr ⟨rfl, hlong⟩

/-- A digest for the number of bits in 32 bits is the one that the host gives for a short message. -/
theorem eq_cpu_hashBytes (hshort : message.length < 2 ^ 29)
    (h : result = some (paddedDigest message (8 * message.length % 2 ^ 32)) ∧ (checks = true → message.length < 2 ^ 29) ∨
      result = none ∧ 2 ^ 29 ≤ message.length) : result = some (Cpu.hashBytes message) := by
  obtain ⟨rfl, -⟩ | ⟨-, hlong⟩ := h
  · rw [cpu_hashBytes, Nat.mod_eq_of_lt (by omega)]
  · omega

/-- Both implementations compress whole blocks, in one piece or in halves. -/
structure Impl.Compresses (S : Impl) : Prop where
  compress : ∀ state half₁ half₂, S.compress state half₁ half₂ = Digest.toBe (blocksState (Digest.toBe state) (half₁ ++ half₂) 1)
  compressSlice : ∀ state blocks count, S.compressSlice state blocks count = Digest.toBe (blocksState (Digest.toBe state) blocks count)

theorem guestImpl_compresses : guestImpl.Compresses :=
  ⟨fun state half1 half2 => Guest.sysShaBuffer_eq state (half1 ++ half2) 1, Guest.sysShaBuffer_eq⟩

theorem cpuImpl_compresses : cpuImpl.Compresses := ⟨fun _ _ _ => rfl, fun _ _ _ => rfl⟩

structure Sha256VarCore.Compressed (core : Sha256VarCore) (first : List Byte) (k : ℕ) : Prop where
  length : first.length = 64 * k
  state : Digest.toBe (core.state.getD SHA256_INIT) = blocksState initial first k
  blockLen : core.blockLen.toNat = k

def Hasher.Holds (hasher : Hasher) (message : List Byte) : Prop :=
  ∃ first k, hasher.core.Compressed first k ∧ message = first ++ hasher.pending ∧ hasher.pending.length < 64

theorem hasher_new_holds : Hasher.new.Holds [] := ⟨[], 0, ⟨rfl, toBe_init, rfl⟩, rfl, by decide⟩

section Wrapper

variable (checks : Bool) {S : Impl} (B : BlockBuffer)
variable {core : Sha256VarCore} {first message : List Byte} {k : ℕ} {hasher : Hasher} {parts : List (List Byte)}

theorem updateBlocks_compressed (hS : S.Compresses) (h : core.Compressed first k)
    {blocks : List Byte} (hwhole : blocks.length % 64 = 0) (hlimit : (first ++ blocks).length < 2 ^ 38) :
    ∃ core', updateBlocks checks S core blocks = some core' ∧ core'.Compressed (first ++ blocks) (k + blocks.length / 64) := by
  rw [length_append, h.length] at hlimit
  have hcount : ¬ 2 ^ 32 ≤ blocks.length / BLOCK_BYTES := by
    rw [BLOCK_BYTES]
    omega
  have hnat : core.blockLen.toNat + (BitVec.ofNat 32 (blocks.length / 64)).toNat = k + blocks.length / 64 := by
    rw [h.blockLen, BitVec.toNat_ofNat, Nat.mod_eq_of_lt (by omega)]
  obtain ⟨hadd, -⟩ | ⟨-, hover⟩ := addU32_eq checks (x := core.blockLen) (y := BitVec.ofNat 32 (blocks.length / 64))
  · rw [hnat] at hadd
    refine ⟨⟨some (S.compressSlice (core.state.getD SHA256_INIT) blocks (blocks.length / 64)),
      BitVec.ofNat 32 (k + blocks.length / 64)⟩, ?_, ?_, ?_, ?_⟩
    · rw [updateBlocks, if_neg hcount, BLOCK_BYTES, hadd]
      rfl
    · rw [length_append, h.length]
      omega
    · rw [getD_some, hS.compressSlice, Digest.toBe_toBe, h.state, blocksState_append h.length]
    · rw [BitVec.toNat_ofNat, Nat.mod_eq_of_lt (by omega)]
  · rw [hnat] at hover
    omega

theorem foldlM_updateBlocks (hS : S.Compresses) {calls : List (List Byte)}
    (h : core.Compressed first k) (hwhole : ∀ blocks ∈ calls, blocks.length % 64 = 0)
    (hlimit : (first ++ calls.flatten).length < 2 ^ 38) :
    ∃ core' k', calls.foldlM (updateBlocks checks S) core = some core' ∧ core'.Compressed (first ++ calls.flatten) k' := by
  induction calls generalizing core first k with
  | nil =>
    rw [flatten_nil, append_nil]
    exact ⟨core, k, rfl, h⟩
  | cons blocks calls ih =>
    rw [flatten_cons, ← append_assoc] at hlimit ⊢
    obtain ⟨mid, hmid, hcompressed⟩ := updateBlocks_compressed checks hS h (hwhole blocks mem_cons_self) (by
      rw [length_append] at hlimit
      omega)
    obtain ⟨core', k', hcore', hlast⟩ := ih hcompressed (fun blocks hmem => hwhole blocks (mem_cons_of_mem _ hmem)) hlimit
    refine ⟨core', k', ?_, hlast⟩
    rw [foldlM_cons, hmid]
    exact hcore'

theorem update_holds (hS : S.Compresses) (h : hasher.Holds message) (input : List Byte)
    (hlimit : (message ++ input).length < 2 ^ 38) :
    ∃ hasher', update checks S B hasher input = some hasher' ∧ hasher'.Holds (message ++ input) := by
  obtain ⟨first, k, hcompressed, rfl, hpending⟩ := h
  have hbytes := B.digestBlocks_bytes hasher.pending input hpending
  have hall : first ++ hasher.pending ++ input = first ++ (B.digestBlocks hasher.pending input).1.flatten ++
      (B.digestBlocks hasher.pending input).2 := by
    rw [append_assoc, ← hbytes, append_assoc]
  rw [hall] at hlimit ⊢
  obtain ⟨core', k', hcore', hlast⟩ := foldlM_updateBlocks checks hS hcompressed
    (B.digestBlocks_whole hasher.pending input) (by
      rw [length_append] at hlimit
      omega)
  refine ⟨⟨core', (B.digestBlocks hasher.pending input).2⟩, ?_, _, k', hlast, rfl, B.digestBlocks_pending _ _⟩
  rw [update, hcore']
  rfl

theorem foldlM_update (hS : S.Compresses)
    (h : hasher.Holds message) (hlimit : (message ++ parts.flatten).length < 2 ^ 38) :
    ∃ hasher', parts.foldlM (update checks S B) hasher = some hasher' ∧ hasher'.Holds (message ++ parts.flatten) := by
  induction parts generalizing hasher message with
  | nil =>
    rw [flatten_nil, append_nil]
    exact ⟨hasher, rfl, h⟩
  | cons input parts ih =>
    rw [flatten_cons, ← append_assoc] at hlimit ⊢
    obtain ⟨mid, hmid, hholds⟩ := update_holds checks B hS h input (by
      rw [length_append] at hlimit
      omega)
    obtain ⟨hasher', hhasher', hlast⟩ := ih hholds hlimit
    refine ⟨hasher', ?_, hlast⟩
    rw [foldlM_cons, hmid]
    exact hhasher'

theorem bitLen_counts (h : hasher.Holds message) : Counts checks (bitLen checks hasher) message.length := by
  obtain ⟨first, k, hcompressed, rfl, hpending⟩ := h
  have hlength : (first ++ hasher.pending).length = 64 * k + hasher.pending.length := by
    rw [length_append, hcompressed.length]
  have hblock : (BitVec.ofNat 32 BLOCK_BYTES).toNat = 64 := rfl
  have height : (8 : Word).toNat = 8 := rfl
  rw [hlength, bitLen]
  obtain ⟨hhashed, hsmall⟩ | ⟨hhashed, hlong⟩ := mulU32_eq checks (x := BitVec.ofNat 32 BLOCK_BYTES) (y := hasher.core.blockLen)
  · rw [hblock, hcompressed.blockLen] at hhashed hsmall
    obtain ⟨hbytes, hsum⟩ | ⟨hbytes, hlong⟩ := addU32_eq checks (x := BitVec.ofNat 32 hasher.pending.length) (y := BitVec.ofNat 32 (64 * k))
    · obtain ⟨hbits, hproduct⟩ | ⟨hbits, hlong⟩ := mulU32_eq checks (x := 8)
        (y := BitVec.ofNat 32 ((BitVec.ofNat 32 hasher.pending.length).toNat + (BitVec.ofNat 32 (64 * k)).toNat))
      · simp only [height, BitVec.toNat_ofNat] at hsum hproduct
        refine .inl ⟨?_, fun hchecks => ?_⟩
        · simp only [hhashed, hbytes, bind_eq_bind, bind_some]
          rw [hbits]
          refine congrArg some (BitVec.eq_of_toNat_eq ?_)
          simp only [height, BitVec.toNat_ofNat]
          omega
        · have hsmall := hsmall hchecks
          have hsum := hsum hchecks
          have hproduct := hproduct hchecks
          omega
      · refine .inr ⟨?_, ?_⟩
        · simp only [hhashed, hbytes, bind_eq_bind, bind_some]
          exact hbits
        · simp only [height, BitVec.toNat_ofNat] at hlong
          omega
    · refine .inr ⟨?_, ?_⟩
      · simp only [hhashed, bind_eq_bind, bind_some, hbytes, bind_none]
      · simp only [BitVec.toNat_ofNat] at hlong
        omega
  · rw [hblock, hcompressed.blockLen] at hlong
    refine .inr ⟨?_, by omega⟩
    simp only [hhashed, bind_eq_bind, bind_none]

theorem foldl_compress (hS : S.Compresses) {blocks : List (List Byte)} (hblocks : ∀ block ∈ blocks, block.length = 64)
    (state : Option Digest) :
    ∃ state', blocks.foldl (fun state block => some (S.compress (state.getD SHA256_INIT) (block.take 32) (block.drop 32))) state =
      state' ∧ (blocks ≠ [] → state'.isSome) ∧ blocks.flatten.length = 64 * blocks.length ∧
      Digest.toBe (state'.getD SHA256_INIT) =
        blocksState (Digest.toBe (state.getD SHA256_INIT)) blocks.flatten blocks.length := by
  induction blocks using reverseRecOn with
  | nil => exact ⟨state, rfl, fun hne => absurd rfl hne, rfl, rfl⟩
  | append_singleton blocks block ih =>
    obtain ⟨mid, hmid, -, hlength, hstate⟩ := ih fun block hmem => hblocks block (mem_append_left _ hmem)
    have hblock := hblocks block (mem_append_right _ mem_cons_self)
    refine ⟨some (S.compress (mid.getD SHA256_INIT) (block.take 32) (block.drop 32)), ?_, fun _ => rfl, ?_, ?_⟩
    · rw [foldl_append, hmid]
      rfl
    · rw [flatten_append, length_append, hlength, flatten_singleton, hblock, length_append,
        length_singleton, Nat.mul_add]
    · rw [getD_some, hS.compress, Digest.toBe_toBe, hstate, take_append_drop, flatten_append,
        flatten_singleton, length_append, length_singleton, blocksState_append hlength]

theorem finalize_hashes (hS : S.Compresses) (h : hasher.Holds message) :
    Hashes checks (finalizeVariableCore checks S B hasher) message := by
  obtain ⟨hbits, hchecked⟩ | ⟨hbits, hlong⟩ := bitLen_counts checks h
  · refine .inl ⟨?_, hchecked⟩
    obtain ⟨first, k, hcompressed, rfl, hpending⟩ := h
    obtain ⟨bits, hbitsEq⟩ : ∃ bits, bits = 8 * (first ++ hasher.pending).length % 2 ^ 32 := ⟨_, rfl⟩
    have hwide : ((BitVec.ofNat 32 (8 * (first ++ hasher.pending).length)).setWidth 64).toNat = bits := by
      rw [BitVec.toNat_setWidth_of_le (by norm_num), BitVec.toNat_ofNat, hbitsEq]
    have hpadded := B.len64PaddingBe_bytes hasher.pending
      ((BitVec.ofNat 32 (8 * (first ++ hasher.pending).length)).setWidth 64) hpending
    rw [hwide] at hpadded
    obtain ⟨state, hfold, hsome, hlength, hstate⟩ := foldl_compress hS (B.len64PaddingBe_block hasher.pending
      ((BitVec.ofNat 32 (8 * (first ++ hasher.pending).length)).setWidth 64) hpending) hasher.core.state
    rw [hpadded] at hlength hstate
    obtain ⟨d, rfl⟩ : ∃ d, state = some d := isSome_iff_exists.mp (hsome fun hnil => by
      rw [hnil, length_padWith] at hlength
      simp only [length_nil] at hlength
      omega)
    have hpad := padWith_append hcompressed.length hasher.pending bits
    have hcount : (padWith (first ++ hasher.pending) bits).length / 64 = k + (padWith hasher.pending bits).length / 64 := by
      rw [hpad, length_append, hcompressed.length, Nat.mul_add_div (by norm_num)]
    rw [finalizeVariableCore, hbits]
    simp only [bind_eq_bind, bind_some, hfold]
    refine congrArg some ?_
    rw [← hbitsEq, hashPadded, hcount, hpad, blocksState_append hcompressed.length, ← asBytes_toBe, ← hcompressed.state]
    have hblocks := Nat.mul_div_cancel_left (B.len64PaddingBe hasher.pending
      ((BitVec.ofNat 32 (8 * (first ++ hasher.pending).length)).setWidth 64)).length (show 0 < 64 by norm_num)
    rw [hlength, hblocks, ← hstate, getD_some, Digest.toBe_toBe]
  · refine .inr ⟨?_, hlong⟩
    rw [finalizeVariableCore, hbits]
    rfl

theorem digestParts_hashes (hS : S.Compresses) (hlimit : parts.flatten.length < 2 ^ 38) :
    Hashes checks (digestParts checks S B parts) parts.flatten := by
  obtain ⟨hasher, hhasher, hholds⟩ := foldlM_update checks B hS hasher_new_holds hlimit
  rw [nil_append] at hholds
  rw [digestParts, hhasher]
  exact finalize_hashes checks B hS hholds

end Wrapper

/-- The guest, the host and the wrapper over either give the digest of a message below `2^29` bytes, and raw data is hashed
alike. From there on a build that checks its arithmetic gives none, and another one is right by a collision only. -/
theorem front_ends_agree (checks : Bool) : (∀ (aligned : Bool) (bytes : List Byte), bytes.length < 2 ^ 32 →
      AgreesBelow checks ((Guest.hashBytes checks aligned bytes).map Digest.asBytes) bytes ∧
        (bytes.length < 2 ^ 29 → Guest.hashBytes checks aligned bytes = some (Cpu.hashBytes bytes))) ∧
    (∀ words : List Word, 4 * words.length < 2 ^ 32 →
      AgreesBelow checks ((Guest.hashWords checks words).map Digest.asBytes) (words.flatMap wordMemory) ∧
        (4 * words.length < 2 ^ 29 → Guest.hashWords checks words = some (Cpu.hashWords words))) ∧
    (∀ words : List Word, Guest.hashRawDataSlice words = some (Cpu.hashRawDataSlice words)) ∧
    ∀ S : Impl, S = guestImpl ∨ S = cpuImpl → ∀ (B : BlockBuffer) (parts : List (List Byte)), parts.flatten.length < 2 ^ 38 →
      AgreesBelow checks (digestParts checks S B parts) parts.flatten := by
  refine ⟨fun aligned bytes hlength => ?_, fun words hlength => ?_, hashRawDataSlice_eq, fun S hS B parts hlimit => ?_⟩
  · have heq := Guest.hashBytes_eq checks aligned hlength
    exact ⟨(hashes_of_digest heq).agreesBelow (by omega), fun hshort => eq_cpu_hashBytes hshort heq⟩
  · have heq := Guest.hashWords_eq checks hlength
    have hmemory := Guest.length_wordMemory words
    exact ⟨(hashes_of_digest heq).agreesBelow (by omega), fun hshort => eq_cpu_hashBytes (by omega) heq⟩
  · refine (digestParts_hashes checks B ?_ hlimit).agreesBelow (by omega)
    obtain rfl | rfl := hS
    · exact guestImpl_compresses
    · exact cpuImpl_compresses

/-- All whole blocks are handed on at once. -/
def eagerDigestBlocks (pending input : List Byte) : List (List Byte) × List Byte :=
  let whole := 64 * ((pending ++ input).length / 64)
  (if whole = 0 then [] else [(pending ++ input).take whole], (pending ++ input).drop whole)

/-- The padding takes one block, or two where the number of bits does not fit in the first. -/
def eagerPadding (pending : List Byte) (bits : BitVec 64) : List (List Byte) :=
  if pending.length < 56 then [padWith pending bits.toNat]
  else [(padWith pending bits.toNat).take 64, (padWith pending bits.toNat).drop 64]

variable (pending input : List Byte)

theorem eagerDigestBlocks_bytes (_ : pending.length < BLOCK_BYTES) :
    (eagerDigestBlocks pending input).1.flatten ++ (eagerDigestBlocks pending input).2 = pending ++ input := by
  unfold eagerDigestBlocks
  dsimp only
  split_ifs with hzero
  · rw [hzero]
    rfl
  · rw [flatten_singleton]
    exact take_append_drop _ _

theorem eagerDigestBlocks_whole : ∀ blocks ∈ (eagerDigestBlocks pending input).1, blocks.length % BLOCK_BYTES = 0 := by
  intro blocks hmem
  unfold eagerDigestBlocks at hmem
  dsimp only at hmem
  split_ifs at hmem with hzero
  · cases hmem
  · rw [mem_singleton.mp hmem, length_take, BLOCK_BYTES]
    omega

theorem eagerDigestBlocks_pending : (eagerDigestBlocks pending input).2.length < BLOCK_BYTES := by
  unfold eagerDigestBlocks
  dsimp only
  rw [length_drop, BLOCK_BYTES]
  omega

theorem eagerPadding_bytes (pending : List Byte) (bits : BitVec 64) (_ : pending.length < BLOCK_BYTES) :
    (eagerPadding pending bits).flatten = padWith pending bits.toNat := by
  unfold eagerPadding
  split_ifs with hshort
  · exact flatten_singleton
  · rw [flatten_cons, flatten_singleton]
    exact take_append_drop _ _

theorem eagerPadding_block (pending : List Byte) (bits : BitVec 64) (hpending : pending.length < BLOCK_BYTES) :
    ∀ block ∈ eagerPadding pending bits, block.length = BLOCK_BYTES := by
  intro block hmem
  have hlength := length_padWith pending bits.toNat
  rw [BLOCK_BYTES] at hpending ⊢
  unfold eagerPadding at hmem
  split_ifs at hmem with hshort
  · rw [mem_singleton.mp hmem]
    omega
  · obtain rfl | hmem := mem_cons.mp hmem
    · rw [length_take]
      omega
    · rw [mem_singleton.mp hmem, length_drop]
      omega

def eagerBuffer : BlockBuffer where
  digestBlocks := eagerDigestBlocks
  len64PaddingBe := eagerPadding
  digestBlocks_bytes := eagerDigestBlocks_bytes
  digestBlocks_whole := eagerDigestBlocks_whole
  digestBlocks_pending := eagerDigestBlocks_pending
  len64PaddingBe_bytes := eagerPadding_bytes
  len64PaddingBe_block := eagerPadding_block

theorem front_ends_agree_abc : Guest.hashBytes true false [0x61, 0x62, 0x63] = some (Cpu.hashBytes [0x61, 0x62, 0x63]) ∧
    digestParts true guestImpl eagerBuffer [[0x61], [0x62, 0x63]] = some (digest [0x61, 0x62, 0x63]) :=
  ⟨((front_ends_agree true).1 false [0x61, 0x62, 0x63] (by decide)).2 (by decide),
    ((front_ends_agree true).2.2.2 guestImpl (.inl rfl) eagerBuffer [[0x61], [0x62, 0x63]] (by decide)).1 (by decide)⟩

/-- A build that checks its arithmetic aborts on a message of `2^29` bytes. -/
theorem not_agree_beyond : (¬ ∀ (checks aligned : Bool) (bytes : List Byte), bytes.length < 2 ^ 32 →
      Guest.hashBytes checks aligned bytes = some (Cpu.hashBytes bytes)) ∧
    ¬ ∀ (checks : Bool) (B : BlockBuffer) (parts : List (List Byte)), parts.flatten.length < 2 ^ 38 →
      digestParts checks cpuImpl B parts = some (digest parts.flatten) := by
  have hlength : (List.replicate (2 ^ 29) (0 : Byte)).length = 2 ^ 29 := List.length_replicate
  refine ⟨fun h => ?_, fun h => ?_⟩
  · have hsome := h true true _ (hlength.trans_lt (by norm_num))
    obtain ⟨-, hchecked⟩ | ⟨hnone, -⟩ := Guest.hashBytes_eq true true
      (hlength.trans_lt (by norm_num))
    · exact absurd (hchecked rfl) (by rw [hlength]; exact lt_irrefl _)
    · rw [hnone] at hsome
      cases hsome
  · have hflatten : ([List.replicate (2 ^ 29) (0 : Byte)] : List (List Byte)).flatten = List.replicate (2 ^ 29) 0 :=
      List.flatten_singleton
    have hlimit : ([List.replicate (2 ^ 29) (0 : Byte)] : List (List Byte)).flatten.length < 2 ^ 38 := by
      rw [hflatten, hlength]
      norm_num
    have hsome := h true eagerBuffer _ hlimit
    obtain ⟨-, hchecked⟩ | ⟨hnone, -⟩ := digestParts_hashes true eagerBuffer cpuImpl_compresses hlimit
    · have hshort := hchecked rfl
      rw [hflatten, hlength] at hshort
      exact absurd hshort (lt_irrefl _)
    · rw [hnone] at hsome
      cases hsome

end VerifiableCompute.Zkp.Sha
