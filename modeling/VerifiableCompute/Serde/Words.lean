import VerifiableCompute.Lib.Bytes
import VerifiableCompute.Lib.Codec

/-! Streams of words and the bytes padded into them. `WordWrite` is the one of
`Vec<u32>` and `WordRead` the one of `&[u32]`, both on a little-endian machine. -/

namespace VerifiableCompute.Serde

open Lib List

abbrev Word := BitVec 32

def wordSize : ℕ := 4

inductive Error
  | custom (msg : String)
  | deserializeBadBool
  | deserializeBadChar
  | deserializeBadOption
  | deserializeBadUtf8
  | deserializeUnexpectedEnd
  | notSupported
  | serializeBufferFull

/-- How a call can fail: with an error of the crate, or by a panic. -/
inductive Failure
  | error (e : Error)
  | panic

/-- A call on a serializer or a deserializer, over the words of its stream. -/
abbrev Call := Codec Word Failure

/-- Words are read and written in the byte order of the machine. -/
def wordOfLeBytes (bytes : List Byte) : Word := .ofNat 32 (leNat bytes)

def wordToLeBytes (word : Word) : List Byte := leBytes wordSize word.toNat

def alignUp (addr align : BitVec 64) : BitVec 64 :=
  let mask := align - 1
  (addr + mask) &&& ~~~mask

def chunksExact : List Byte → List (List Byte)
  | b₀ :: b₁ :: b₂ :: b₃ :: bytes => [b₀, b₁, b₂, b₃] :: chunksExact bytes
  | _ => []

/-- The bytes after the last full word. -/
def remainder : List Byte → List Byte
  | _ :: _ :: _ :: _ :: bytes => remainder bytes
  | bytes => bytes

def writeWords (words : List Word) : Call Unit := modify (· ++ words)

def writePaddedBytes (bytes : List Byte) : Call Unit := do
  let lastWord := remainder bytes
  modify (· ++ (chunksExact bytes).map wordOfLeBytes)
  if lastWord ≠ [] then
    let lastWordBytes := lastWord ++ List.replicate (wordSize - lastWord.length) 0
    modify (· ++ [wordOfLeBytes lastWordBytes])

def readWords (len : ℕ) : Call (List Word) := do
  let self ← get
  if len > self.length then
    throw (.error .deserializeUnexpectedEnd)
  else
    set (self.drop len)
    return self.take len

/-- `split_at` panics past the end of the slice. -/
def readPaddedBytes (len : ℕ) : Call (List Byte) := do
  let self ← get
  let bytes := self.flatMap wordToLeBytes
  if len > bytes.length then
    throw (.error .deserializeUnexpectedEnd)
  else
    let mid := (alignUp (.ofNat 64 len) (.ofNat 64 wordSize)).toNat / wordSize
    if mid > self.length then
      throw .panic
    else
      set (self.drop mid)
      return bytes.take len

theorem words_round_trip (words : List Word) : (writeWords words).RoundTrip (readWords words.length) words := by
  refine ⟨words, fun _ => rfl, fun rest => ?_⟩
  have henough : ¬ words.length > (words ++ rest).length := by
    rw [length_append]
    omega
  show (if _ then _ else _ : Call _) (words ++ rest) = _
  rw [if_neg henough, drop_left, take_left]
  rfl

def paddedWords (bytes : List Byte) : List Word :=
  (chunksExact bytes).map wordOfLeBytes ++
    if remainder bytes = [] then []
    else [wordOfLeBytes (remainder bytes ++ List.replicate (wordSize - (remainder bytes).length) 0)]

theorem wordToLeBytes_wordOfLeBytes {bytes : List Byte} (h : bytes.length = wordSize) :
    wordToLeBytes (wordOfLeBytes bytes) = bytes := by
  have hlt : leNat bytes < 2 ^ 32 := by
    have := leNat_lt bytes
    rwa [h] at this
  rw [wordToLeBytes, wordOfLeBytes, BitVec.toNat_ofNat, Nat.mod_eq_of_lt hlt, ← h, leBytes_leNat]

theorem wordToLeBytes_length (word : Word) : (wordToLeBytes word).length = wordSize := leBytes_length _ _

variable (bytes : List Byte)

theorem remainder_length_lt : (remainder bytes).length < wordSize := by
  fun_induction remainder bytes with
  | case1 b₀ b₁ b₂ b₃ bytes ih => exact ih
  | case2 bytes h =>
    rcases bytes with _ | ⟨b₀, _ | ⟨b₁, _ | ⟨b₂, _ | ⟨b₃, bytes⟩⟩⟩⟩
    · decide
    · show 1 < 4
      omega
    · show 2 < 4
      omega
    · show 3 < 4
      omega
    · exact absurd rfl (h b₀ b₁ b₂ b₃ bytes)

theorem chunksExact_flatMap :
    ((chunksExact bytes).map wordOfLeBytes).flatMap wordToLeBytes ++ remainder bytes = bytes := by
  fun_induction chunksExact bytes with
  | case1 b₀ b₁ b₂ b₃ bytes ih =>
    rw [map_cons, flatMap_cons, wordToLeBytes_wordOfLeBytes rfl, append_assoc]
    exact congrArg (b₀ :: b₁ :: b₂ :: b₃ :: ·) ih
  | case2 bytes h => rw [remainder.eq_2 bytes h, map_nil, flatMap_nil, nil_append]

theorem paddedWords_bytes :
    ∃ padding, (paddedWords bytes).flatMap wordToLeBytes = bytes ++ padding ∧ padding.length < wordSize := by
  have hchunks := chunksExact_flatMap bytes
  have hlt := remainder_length_lt bytes
  unfold paddedWords
  by_cases hlast : remainder bytes = []
  · refine ⟨[], ?_, by decide⟩
    rw [if_pos hlast, append_nil, append_nil]
    rwa [hlast, append_nil] at hchunks
  · refine ⟨replicate (wordSize - (remainder bytes).length) 0, ?_, ?_⟩
    · rw [if_neg hlast, flatMap_append, flatMap_singleton, wordToLeBytes_wordOfLeBytes, ← append_assoc,
        hchunks]
      rw [length_append, length_replicate]
      omega
    · have := length_pos_of_ne_nil hlast
      rw [length_replicate]
      omega

theorem flatMap_wordToLeBytes_length (words : List Word) :
    (words.flatMap wordToLeBytes).length = wordSize * words.length := by
  induction words with
  | nil => rfl
  | cons word words ih =>
    rw [flatMap_cons, length_append, wordToLeBytes_length, ih, length_cons]
    ring

/-- Clearing the two low bits rounds down to a multiple of four. -/
theorem and_not_three (x : BitVec 64) : (x &&& ~~~3#64).toNat = x.toNat / 4 * 4 := by
  have hbits : x &&& ~~~3#64 = x >>> 2 <<< 2 := by
    apply BitVec.eq_of_getLsbD_eq
    intro i hi
    have hthree : (3#64).getLsbD i = decide (i < 2) := by
      rcases i with _ | _ | i
      · rfl
      · rfl
      · rw [BitVec.getLsbD_ofNat, Nat.testBit_lt_two_pow (i := i + 2)]
        · simp
        · calc 3 < 2 ^ 2 := by norm_num
            _ ≤ 2 ^ (i + 2) := Nat.pow_le_pow_right (by omega) (by omega)
    rw [BitVec.getLsbD_and, BitVec.getLsbD_not, hthree, BitVec.getLsbD_shiftLeft, BitVec.getLsbD_ushiftRight]
    by_cases h : i < 2
    · simp [h]
    · simp [h, hi, show 2 + (i - 2) = i by omega]
  have hlt := x.isLt
  rw [hbits, BitVec.toNat_shiftLeft, BitVec.toNat_ushiftRight, Nat.shiftRight_eq_div_pow, Nat.shiftLeft_eq]
  exact Nat.mod_eq_of_lt (by omega)

/-- The word count that the reader computes from the length of the byte string. -/
theorem alignUp_toNat {len : ℕ} (h : len < 2 ^ 32) :
    (alignUp (.ofNat 64 len) (.ofNat 64 wordSize)).toNat / wordSize = (len + 3) / wordSize := by
  have hmask : BitVec.ofNat 64 wordSize - 1 = 3#64 := rfl
  have hsum : (BitVec.ofNat 64 len + 3#64).toNat = len + 3 := by
    rw [BitVec.toNat_add, BitVec.toNat_ofNat, BitVec.toNat_ofNat]
    omega
  rw [alignUp, hmask, and_not_three, hsum]
  exact Nat.mul_div_cancel _ (by decide)

theorem writes_paddedWords : (writePaddedBytes bytes).Writes (paddedWords bytes) := by
  intro stream
  unfold writePaddedBytes paddedWords
  by_cases h : remainder bytes = []
  · rw [if_pos h, append_nil]
    simp only [h, ne_eq, not_true_eq_false, if_false]
    rfl
  · rw [if_neg h, ← append_assoc]
    simp only [ne_eq, h, not_false_eq_true, if_true]
    rfl

theorem reads_paddedWords {bytes : List Byte} (h : bytes.length < 2 ^ 32) :
    (readPaddedBytes bytes.length).Reads (paddedWords bytes) bytes := by
  intro rest
  obtain ⟨padding, hbytes, hpadding⟩ := paddedWords_bytes bytes
  have hlength : bytes.length + padding.length = wordSize * (paddedWords bytes).length := by
    rw [← length_append, ← hbytes, flatMap_wordToLeBytes_length]
  have hall : (paddedWords bytes ++ rest).flatMap wordToLeBytes = bytes ++ (padding ++ rest.flatMap wordToLeBytes) := by
    rw [flatMap_append, hbytes, append_assoc]
  have hmid : (bytes.length + 3) / wordSize = (paddedWords bytes).length := by
    unfold wordSize at *
    omega
  have henough : ¬ bytes.length > ((paddedWords bytes ++ rest).flatMap wordToLeBytes).length := by
    rw [hall, length_append]
    omega
  have hsplit : ¬ (paddedWords bytes).length > (paddedWords bytes ++ rest).length := by
    rw [length_append]
    omega
  show (if _ then _ else _ : Call _) (paddedWords bytes ++ rest) = _
  rw [if_neg henough, alignUp_toNat h, hmid, if_neg hsplit, hall, drop_left, take_left]
  rfl

theorem paddedBytes_round_trip {bytes : List Byte} (h : bytes.length < 2 ^ 32) :
    (writePaddedBytes bytes).RoundTrip (readPaddedBytes bytes.length) bytes :=
  ⟨_, writes_paddedWords bytes, reads_paddedWords h⟩

end VerifiableCompute.Serde
