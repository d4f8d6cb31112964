import VerifiableCompute.Lib.Codec
import VerifiableCompute.Binfmt.Hash

/-! The words of a seal. Digests and nonces are written by half-words, other words by bytes, each in a word of its
own, on a little-endian machine. -/

namespace VerifiableCompute.Binfmt

open Lib Codec List Nat

abbrev Word := BitVec 32

inductive DecodeError
  | endOfStream
  | outOfRange

/-- A buffer that is written. -/
def push {ε : Type} (words : List Word) : Codec Word ε Unit := modify (· ++ words)

/-- The next words of a buffer. -/
def drain (n : ℕ) : Codec Word DecodeError (List Word) := fun flat =>
  if flat.length < n then .error .endOfStream else .ok (flat.take n, flat.drop n)

theorem push_writes {ε : Type} (words : List Word) : Writes (push words : Codec Word ε Unit) words := fun _ => rfl

theorem drain_reads {n : ℕ} {words : List Word} (h : words.length = n) : Reads (drain n) words words := by
  intro rest
  subst h
  rw [drain, if_neg (by rw [length_append]; omega), take_left, drop_left]

theorem drain_map_reads {α : Type} {n : ℕ} {words : List Word} {f : List Word → Except DecodeError α} {a : α} (hlength : words.length = n)
    (hf : f words = .ok a) : Reads (do StateT.lift (f (← drain n))) words a := by
  have h : Reads (do StateT.lift (f (← drain n))) (words ++ []) a := (drain_reads hlength).bind (.lift hf)
  rwa [append_nil] at h

/-- The words that bytes are cast to. -/
def asWords : List Byte → List Word
  | b₀ :: b₁ :: b₂ :: b₃ :: bytes => BitVec.ofNat 32 (leNat [b₀, b₁, b₂, b₃]) :: asWords bytes
  | _ => []

def halves (x : Word) : List Word := [x &&& 0xffff, x >>> 16]

def writeShaHalfs (digest : Digest) : List Word := (asWords digest.toList).flatMap halves

def halfBytes (half : Word) : Except DecodeError (List Byte) :=
  if (half >>> 8).toNat < 256 then .ok [(half &&& 0xff).setWidth 8, (half >>> 8).setWidth 8] else .error .outOfRange

def toDigest (bytes : List Byte) : Digest := .ofFn fun i => bytes.getD i 0

def digestOfHalfs (halfs : List Word) : Except DecodeError Digest := do
  let bytes ← halfs.mapM halfBytes
  return toDigest bytes.flatten

def readShaHalfs : Codec Word DecodeError Digest := do StateT.lift (digestOfHalfs (← drain 16))

theorem leNat_four (b₀ b₁ b₂ b₃ : Byte) :
    leNat [b₀, b₁, b₂, b₃] = b₀.toNat + 2 ^ 8 * b₁.toNat + 2 ^ 16 * (b₂.toNat + 2 ^ 8 * b₃.toNat) := by
  simp only [leNat, reverse_cons, reverse_nil, nil_append, cons_append, beNat_cons, length_cons,
    length_nil]
  change _ + (_ + (_ + (_ + 0))) = _
  ring

theorem halfBytes_of_toNat {half : Word} {low high : Byte} (h : half.toNat = low.toNat + 2 ^ 8 * high.toNat) :
    halfBytes half = .ok [low, high] := by
  have hlow := low.isLt
  have hhigh := high.isLt
  have hshift : (half >>> 8).toNat = high.toNat := by
    rw [BitVec.toNat_ushiftRight, shiftRight_eq_div_pow]
    omega
  have hmask : (half &&& 0xff).toNat = low.toNat := by
    rw [BitVec.toNat_and, show (0xff : Word).toNat = 2 ^ 8 - 1 from rfl, and_two_pow_sub_one_eq_mod]
    omega
  rw [halfBytes, hshift, if_pos (by omega)]
  congr 3
  · exact BitVec.eq_of_toNat_eq (by rw [BitVec.toNat_setWidth, hmask, mod_eq_of_lt hlow])
  · exact BitVec.eq_of_toNat_eq (by rw [BitVec.toNat_setWidth, hshift, mod_eq_of_lt hhigh])

theorem mapM_halfBytes : ∀ bytes : List Byte, 4 ∣ bytes.length → ∃ pairs,
    ((asWords bytes).flatMap halves).mapM halfBytes = .ok pairs ∧ pairs.flatten = bytes
  | [], _ => ⟨[], rfl, rfl⟩
  | [_], h | [_, _], h | [_, _, _], h => absurd h (by simp)
  | b₀ :: b₁ :: b₂ :: b₃ :: bytes, h => by
    have hrest : 4 ∣ bytes.length := by simpa using h
    obtain ⟨pairs, hpairs, hflatten⟩ := mapM_halfBytes bytes hrest
    have hword : (BitVec.ofNat 32 (leNat [b₀, b₁, b₂, b₃])).toNat =
        b₀.toNat + 2 ^ 8 * b₁.toNat + 2 ^ 16 * (b₂.toNat + 2 ^ 8 * b₃.toNat) := by
      rw [BitVec.toNat_ofNat, leNat_four]
      omega
    have hlow : (BitVec.ofNat 32 (leNat [b₀, b₁, b₂, b₃]) &&& 0xffff).toNat = b₀.toNat + 2 ^ 8 * b₁.toNat := by
      rw [BitVec.toNat_and, hword, show (0xffff : Word).toNat = 2 ^ 16 - 1 from rfl, and_two_pow_sub_one_eq_mod]
      omega
    have hhigh : (BitVec.ofNat 32 (leNat [b₀, b₁, b₂, b₃]) >>> 16).toNat = b₂.toNat + 2 ^ 8 * b₃.toNat := by
      rw [BitVec.toNat_ushiftRight, hword, shiftRight_eq_div_pow]
      omega
    refine ⟨[b₀, b₁] :: [b₂, b₃] :: pairs, ?_, by simp [hflatten]⟩
    simp only [asWords, halves, flatMap_cons, cons_append, nil_append, mapM_cons, halfBytes_of_toNat hlow,
      halfBytes_of_toNat hhigh, hpairs]
    rfl

theorem toDigest_toList (digest : Digest) : toDigest digest.toList = digest := by
  ext i hi
  simp [toDigest, getD_eq_getElem?_getD]

theorem asWords_length : ∀ bytes : List Byte, (asWords bytes).length = bytes.length / 4
  | [] | [_] | [_, _] | [_, _, _] => by simp [asWords]
  | _ :: _ :: _ :: _ :: bytes => by
    rw [asWords, length_cons, asWords_length bytes]
    simp only [length_cons]
    omega

theorem writeShaHalfs_length (digest : Digest) : (writeShaHalfs digest).length = 16 := by
  simp [writeShaHalfs, halves, length_flatMap, asWords_length]

theorem readShaHalfs_reads (digest : Digest) : Reads readShaHalfs (writeShaHalfs digest) digest := by
  obtain ⟨pairs, hpairs, hflatten⟩ := mapM_halfBytes digest.toList (by simp)
  refine drain_map_reads (writeShaHalfs_length digest) ?_
  rw [digestOfHalfs, writeShaHalfs, hpairs]
  change Except.ok (toDigest pairs.flatten) = _
  rw [hflatten, toDigest_toList]

def writeU32Bytes (word : Word) : List Word := (u32LeBytes word).map (·.setWidth 32)

def readU32Bytes : Codec Word DecodeError Word := do
  StateT.lift (.ok (BitVec.ofNat 32 (leNat ((← drain 4).map (·.setWidth 8)))))

theorem readU32Bytes_reads (word : Word) : Reads readU32Bytes (writeU32Bytes word) word := by
  refine drain_map_reads (f := fun words => .ok (BitVec.ofNat 32 (leNat (words.map (·.setWidth 8))))) ?_ ?_
  · rw [writeU32Bytes, length_map, u32LeBytes, leBytes_length]
  · have hnarrow (b : Byte) : (b.setWidth 32).setWidth 8 = b := by
      rw [BitVec.setWidth_setWidth_of_le b (by norm_num), BitVec.setWidth_eq]
    have hlt : word.toNat < 256 ^ 4 := word.isLt
    simp only [writeU32Bytes, map_map, Function.comp_def, hnarrow, map_id_fun', id]
    rw [u32LeBytes, leNat_leBytes, mod_eq_of_lt hlt, BitVec.ofNat_toNat, BitVec.setWidth_eq]

def u16FromU32 (x : Word) : Except DecodeError (BitVec 16) := if x.toNat < 2 ^ 16 then .ok (x.setWidth 16) else .error .outOfRange

/-- The number with these limbs, least significant first. -/
def ofU16s (limbs : List (BitVec 16)) : ℕ := Nat.ofDigits (2 ^ 16) (limbs.map BitVec.toNat)

theorem mapM_u16FromU32 (limbs : List (BitVec 16)) : (limbs.map (·.setWidth 32)).mapM u16FromU32 = .ok limbs := by
  induction limbs with
  | nil => rfl
  | cons limb limbs ih =>
    have hlimb := limb.isLt
    have hwide : (limb.setWidth 32).toNat = limb.toNat := by rw [BitVec.toNat_setWidth, mod_eq_of_lt (by omega)]
    have hread : u16FromU32 (limb.setWidth 32) = .ok limb := by
      rw [u16FromU32, hwide, if_pos hlimb, BitVec.setWidth_setWidth_of_le limb (by norm_num), BitVec.setWidth_eq]
    rw [map_cons, mapM_cons, hread, ih]
    rfl

theorem ofU16s_range {w : ℕ} (x : BitVec w) (n : ℕ) :
    ofU16s ((range n).map fun i => (x >>> (16 * i)).setWidth 16) = x.toNat % (2 ^ 16) ^ n := by
  induction n with
  | zero => simp [ofU16s, mod_one]
  | succ n ih =>
    have hlimb : ((x >>> (16 * n)).setWidth 16).toNat = x.toNat / (2 ^ 16) ^ n % 2 ^ 16 := by
      rw [BitVec.toNat_setWidth, BitVec.toNat_ushiftRight, shiftRight_eq_div_pow, pow_mul]
    rw [ofU16s] at ih ⊢
    rw [range_succ, map_append, map_append, ofDigits_append, ih, map_singleton, map_singleton,
      ofDigits_singleton, hlimb, length_map, length_map, length_range, mod_pow_succ (b := 2 ^ 16)]

namespace PovwNonce

def ofU256 (value : BitVec 256) : PovwNonce where
  log := (value >>> 96).setWidth 160
  job := (value >>> 32 &&& BitVec.ofNat 256 (2 ^ 64 - 1)).setWidth 64
  segment := (value &&& BitVec.ofNat 256 (2 ^ 32 - 1)).setWidth 32

def fromU16s (u16s : List (BitVec 16)) : PovwNonce := ofU256 (BitVec.ofNat 256 (ofU16s u16s))

def decodeFromSeal : Codec Word DecodeError PovwNonce := do
  StateT.lift ((← drain 16).mapM u16FromU32 >>= fun u16s => .ok (fromU16s u16s))

theorem ofU256_toU256 (n : PovwNonce) : ofU256 n.toU256 = n := by
  obtain ⟨log, job, segment⟩ := n
  have hvalue := toU256_toNat ⟨log, job, segment⟩
  dsimp only at hvalue
  rw [ofU256, mk.injEq]
  refine ⟨BitVec.eq_of_toNat_eq ?_, BitVec.eq_of_toNat_eq ?_, BitVec.eq_of_toNat_eq ?_⟩
  · rw [BitVec.toNat_setWidth, BitVec.toNat_ushiftRight, hvalue, shiftRight_eq_div_pow]
    omega
  · rw [BitVec.toNat_setWidth, BitVec.toNat_and, BitVec.toNat_ushiftRight, hvalue, shiftRight_eq_div_pow,
      show (BitVec.ofNat 256 (2 ^ 64 - 1)).toNat = 2 ^ 64 - 1 from rfl, and_two_pow_sub_one_eq_mod]
    omega
  · rw [BitVec.toNat_setWidth, BitVec.toNat_and, hvalue, show (BitVec.ofNat 256 (2 ^ 32 - 1)).toNat = 2 ^ 32 - 1 from rfl,
      and_two_pow_sub_one_eq_mod]
    omega

theorem decodeFromSeal_reads (n : PovwNonce) : Reads decodeFromSeal n.encodeToSeal n := by
  refine drain_map_reads (f := fun words => words.mapM u16FromU32 >>= fun u16s => .ok (fromU16s u16s)) ?_ ?_
  · simp [encodeToSeal, toU16s]
  · have hlt : n.toU256.toNat < (2 ^ 16) ^ 16 := n.toU256.isLt
    rw [encodeToSeal, mapM_u16FromU32]
    change Except.ok (fromU16s n.toU16s) = _
    rw [fromU16s, toU16s, ofU16s_range, mod_eq_of_lt hlt, BitVec.ofNat_toNat, BitVec.setWidth_eq, ofU256_toU256]

end PovwNonce

end VerifiableCompute.Binfmt
