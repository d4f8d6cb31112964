import VerifiableCompute.Lib.Bytes

/-! Digests and the hashing of structures and lists, over any hash of byte strings. -/

namespace VerifiableCompute.Binfmt

open Lib BitVec

/-- A digest is its 32 bytes. -/
abbrev Digest := Vector Byte 32

/-- What code takes from its hash function: the digest of a byte string. -/
abbrev Sha256 := List Byte → Digest

def Digest.zero : Digest := .replicate 32 0

/-- The bytes of a string, which the code takes as they are. -/
def utf8Bytes (s : String) : List Byte := s.toByteArray.data.toList.map (·.toBitVec)

def u32LeBytes (word : BitVec 32) : List Byte := leBytes 4 word.toNat

/-- The count of digests is written in 16 bits; a struct with more of them panics. -/
def taggedStruct (hashBytes : Sha256) (tag : String) (down : List Digest) (data : List (BitVec 32)) : Digest :=
  let tagDigest := hashBytes (utf8Bytes tag)
  hashBytes (tagDigest.toList ++ down.flatMap (·.toList) ++ data.flatMap u32LeBytes ++ leBytes 2 down.length)

def taggedListCons (hashBytes : Sha256) (tag : String) (head tail : Digest) : Digest :=
  taggedStruct hashBytes tag [head, tail] []

def taggedList (hashBytes : Sha256) (tag : String) (list : List Digest) : Digest :=
  list.foldr (taggedListCons hashBytes tag) .zero

/-! Nonces of verifiable work: a log, a job of the log and a segment of the job. -/

abbrev PovwLogId := BitVec 160

structure PovwNonce where
  log : PovwLogId
  job : BitVec 64
  segment : BitVec 32
  deriving DecidableEq

namespace PovwNonce

def toU256 (n : PovwNonce) : BitVec 256 :=
  n.log.setWidth 256 <<< 96 ||| n.job.setWidth 256 <<< 32 ||| n.segment.setWidth 256

/-- The 16-bit limbs of a number, least significant first. -/
def toU16s (n : PovwNonce) : List (BitVec 16) := (List.range 16).map fun i => (n.toU256 >>> (16 * i)).setWidth 16

def encodeToSeal (n : PovwNonce) : List (BitVec 32) := n.toU16s.map (·.setWidth 32)

theorem toU256_toNat (n : PovwNonce) : n.toU256.toNat = 2 ^ 96 * n.log.toNat + (2 ^ 32 * n.job.toNat + n.segment.toNat) := by
  have hsegment := n.segment.isLt
  have hlow : 2 ^ 32 * n.job.toNat + n.segment.toNat < 2 ^ 96 := by omega
  rw [Nat.two_pow_add_eq_or_of_lt hlow, Nat.two_pow_add_eq_or_of_lt hsegment, ← Nat.or_assoc]
  simp only [toU256, toNat_or, toNat_shiftLeft, toNat_setWidth, Nat.shiftLeft_eq, Nat.mul_comm _ (2 ^ _)]
  rw [Nat.mod_eq_of_lt (by omega : n.log.toNat < 2 ^ 256), Nat.mod_eq_of_lt (by omega : n.job.toNat < 2 ^ 256),
    Nat.mod_eq_of_lt (by omega : n.segment.toNat < 2 ^ 256), Nat.mod_eq_of_lt (by omega : 2 ^ 96 * n.log.toNat < 2 ^ 256),
    Nat.mod_eq_of_lt (by omega : 2 ^ 32 * n.job.toNat < 2 ^ 256)]

theorem toU256_injective : Function.Injective toU256 := by
  rintro ⟨log, job, segment⟩ ⟨log', job', segment'⟩ h
  have hsum := congrArg BitVec.toNat h
  rw [toU256_toNat, toU256_toNat] at hsum
  dsimp only at hsum
  obtain rfl : log = log' := eq_of_toNat_eq (by omega)
  obtain rfl : job = job' := eq_of_toNat_eq (by omega)
  obtain rfl : segment = segment' := eq_of_toNat_eq (by omega)
  rfl

end PovwNonce

end VerifiableCompute.Binfmt
