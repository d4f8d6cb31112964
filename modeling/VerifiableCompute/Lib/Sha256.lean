import VerifiableCompute.Lib.Bytes

/-! The compression function of SHA-256 over any round constants, and the digests of
messages. The eight working variables are the last four values of two sequences,
which is how an implementation can do without them. -/

namespace VerifiableCompute.Lib.Sha256

open List

abbrev Word := BitVec 32

def choice (x y z : Word) : Word := (x &&& y) ^^^ (~~~x &&& z)

def majority (x y z : Word) : Word := (x &&& y) ^^^ (x &&& z) ^^^ (y &&& z)

def upperSigma0 (x : Word) : Word := x.rotateRight 2 ^^^ x.rotateRight 13 ^^^ x.rotateRight 22

def upperSigma1 (x : Word) : Word := x.rotateRight 6 ^^^ x.rotateRight 11 ^^^ x.rotateRight 25

def lowerSigma0 (x : Word) : Word := x.rotateRight 7 ^^^ x.rotateRight 18 ^^^ x >>> 3

def lowerSigma1 (x : Word) : Word := x.rotateRight 17 ^^^ x.rotateRight 19 ^^^ x >>> 10

@[ext] structure Hash where
  a : Word
  b : Word
  c : Word
  d : Word
  e : Word
  f : Word
  g : Word
  h : Word

def schedule (block : ℕ → Word) (t : ℕ) : Word :=
  if t < 16 then block t
  else lowerSigma1 (schedule block (t - 2)) + schedule block (t - 7) + lowerSigma0 (schedule block (t - 15)) +
    schedule block (t - 16)
termination_by t

def round (k w : Word) (s : Hash) : Hash :=
  let t₁ := s.h + upperSigma1 s.e + choice s.e s.f s.g + k + w
  let t₂ := upperSigma0 s.a + majority s.a s.b s.c
  ⟨t₁ + t₂, s.a, s.b, s.c, s.d + t₁, s.e, s.f, s.g⟩

def rounds (k w : ℕ → Word) (s : Hash) : ℕ → Hash
  | 0 => s
  | t + 1 => round (k t) (w t) (rounds k w s t)

def compress (k block : ℕ → Word) (s : Hash) : Hash :=
  let r := rounds k (schedule block) s 64
  ⟨s.a + r.a, s.b + r.b, s.c + r.c, s.d + r.d, s.e + r.e, s.f + r.f, s.g + r.g, s.h + r.h⟩

def compressBlocks (k data : ℕ → Word) (s : Hash) : ℕ → Hash
  | 0 => s
  | n + 1 => compress k (fun t => data (16 * n + t)) (compressBlocks k data s n)

variable (k w : ℕ → Word) (s : Hash)

def aSeq : ℕ → Word
  | 0 => s.d
  | 1 => s.c
  | 2 => s.b
  | 3 => s.a
  | t + 4 => (rounds k w s (t + 1)).a

def eSeq : ℕ → Word
  | 0 => s.h
  | 1 => s.g
  | 2 => s.f
  | 3 => s.e
  | t + 4 => (rounds k w s (t + 1)).e

theorem rounds_eq (t : ℕ) : rounds k w s t = ⟨aSeq k w s (t + 3), aSeq k w s (t + 2), aSeq k w s (t + 1), aSeq k w s t,
      eSeq k w s (t + 3), eSeq k w s (t + 2), eSeq k w s (t + 1), eSeq k w s t⟩ := by
  induction t with
  | zero => rfl
  | succ t ih =>
    have ha : aSeq k w s (t + 1 + 3) = (rounds k w s (t + 1)).a := rfl
    have he : eSeq k w s (t + 1 + 3) = (rounds k w s (t + 1)).e := rfl
    rw [ha, he, rounds, ih]
    rfl

variable {t i n m : ℕ} {first : List Byte}
variable (block : ℕ → Word)

theorem schedule_of_lt (ht : t < 16) : schedule block t = block t := by
  rw [schedule, if_pos ht]

theorem schedule_of_le (ht : 16 ≤ t) : schedule block t =
    lowerSigma1 (schedule block (t - 2)) + schedule block (t - 7) + lowerSigma0 (schedule block (t - 15)) +
      schedule block (t - 16) := by
  rw [schedule, if_neg (by omega)]

/-- The words of the next state, the last first in each half. -/
theorem aSeq_compress (hi : i < 4) :
    aSeq k w (compress k block s) i = aSeq k (schedule block) s i + aSeq k (schedule block) s (64 + i) := by
  have hlast : (compress k block s) = _ := congrArg (fun r : Hash => (⟨s.a + r.a, s.b + r.b, s.c + r.c, s.d + r.d, s.e + r.e,
    s.f + r.f, s.g + r.g, s.h + r.h⟩ : Hash)) (rounds_eq k (schedule block) s 64)
  rw [hlast]
  interval_cases i <;> rfl

theorem eSeq_compress (hi : i < 4) :
    eSeq k w (compress k block s) i = eSeq k (schedule block) s i + eSeq k (schedule block) s (64 + i) := by
  have hlast : (compress k block s) = _ := congrArg (fun r : Hash => (⟨s.a + r.a, s.b + r.b, s.c + r.c, s.d + r.d, s.e + r.e,
    s.f + r.f, s.g + r.g, s.h + r.h⟩ : Hash)) (rounds_eq k (schedule block) s 64)
  rw [hlast]
  interval_cases i <;> rfl

/-- The first 32 bits of the fractional parts of the cube roots of the first 64 primes. -/
def roundConstants : List Word :=
  [0x428a2f98, 0x71374491, 0xb5c0fbcf, 0xe9b5dba5, 0x3956c25b, 0x59f111f1, 0x923f82a4, 0xab1c5ed5,
    0xd807aa98, 0x12835b01, 0x243185be, 0x550c7dc3, 0x72be5d74, 0x80deb1fe, 0x9bdc06a7, 0xc19bf174,
    0xe49b69c1, 0xefbe4786, 0x0fc19dc6, 0x240ca1cc, 0x2de92c6f, 0x4a7484aa, 0x5cb0a9dc, 0x76f988da,
    0x983e5152, 0xa831c66d, 0xb00327c8, 0xbf597fc7, 0xc6e00bf3, 0xd5a79147, 0x06ca6351, 0x14292967,
    0x27b70a85, 0x2e1b2138, 0x4d2c6dfc, 0x53380d13, 0x650a7354, 0x766a0abb, 0x81c2c92e, 0x92722c85,
    0xa2bfe8a1, 0xa81a664b, 0xc24b8b70, 0xc76c51a3, 0xd192e819, 0xd6990624, 0xf40e3585, 0x106aa070,
    0x19a4c116, 0x1e376c08, 0x2748774c, 0x34b0bcb5, 0x391c0cb3, 0x4ed8aa4a, 0x5b9cca4f, 0x682e6ff3,
    0x748f82ee, 0x78a5636f, 0x84c87814, 0x8cc70208, 0x90befffa, 0xa4506ceb, 0xbef9a3f7, 0xc67178f2]

def initial : Hash :=
  ⟨0x6a09e667, 0xbb67ae85, 0x3c6ef372, 0xa54ff53a, 0x510e527f, 0x9b05688c, 0x1f83d9ab, 0x5be0cd19⟩

/-- A word of a byte string, most significant byte first. -/
def bigEndianWord (bytes : List Byte) (t : ℕ) : Word :=
  bytes.getD (4 * t) 0 ++ bytes.getD (4 * t + 1) 0 ++ bytes.getD (4 * t + 2) 0 ++ bytes.getD (4 * t + 3) 0

def blocksState (s : Hash) (bytes : List Byte) (n : ℕ) : Hash :=
  compressBlocks (roundConstants.getD · 0) (bigEndianWord bytes) s n

/-- As few zeros as fill the last block up to the length. -/
def paddingZeros (n : ℕ) : ℕ := (119 - n % 64) % 64

/-- A message with a one bit, zeros, and a number of bits in eight bytes. -/
def padWith (message : List Byte) (bits : ℕ) : List Byte :=
  message ++ 0x80#8 :: (List.replicate (paddingZeros message.length) 0#8 ++ beBytes 8 bits)

def hashBytes (s : Hash) : List Byte := [s.a, s.b, s.c, s.d, s.e, s.f, s.g, s.h].flatMap fun w => beBytes 4 w.toNat

def hashPadded (padded : List Byte) : List Byte := hashBytes (blocksState initial padded (padded.length / 64))

def digest (message : List Byte) : List Byte := hashPadded (padWith message (8 * message.length))

theorem length_padWith (message : List Byte) (bits : ℕ) :
    (padWith message bits).length = 64 * ((message.length + 72) / 64) := by
  simp only [padWith, length_append, length_cons, length_replicate, beBytes_length, paddingZeros]
  omega

/-- Whole blocks at the front of a message are not padded. -/
theorem padWith_append {k : ℕ} (hfirst : first.length = 64 * k) (rest : List Byte) (bits : ℕ) :
    padWith (first ++ rest) bits = first ++ padWith rest bits := by
  have hzeros : paddingZeros (first ++ rest).length = paddingZeros rest.length := by
    rw [paddingZeros, paddingZeros, length_append, hfirst, Nat.mul_add_mod]
  rw [padWith, padWith, hzeros, append_assoc]

/-- Padded messages are the same only if they were padded with the same length. -/
theorem padWith_bits_inj {message : List Byte} {bits bits' : ℕ} (hbits : bits < 2 ^ 64) (hbits' : bits' < 2 ^ 64)
    (h : padWith message bits = padWith message bits') : bits = bits' := by
  have htail := append_cancel_left (List.cons.inj (append_cancel_left h)).2
  have hnat := congrArg beNat htail
  have hwidth : (256 : ℕ) ^ 8 = 2 ^ 64 := by norm_num
  rwa [beNat_beBytes, beNat_beBytes, hwidth, Nat.mod_eq_of_lt hbits, Nat.mod_eq_of_lt hbits'] at hnat

theorem compress_congr {block block' : ℕ → Word} (h : ∀ t < 16, block t = block' t) (s : Hash) :
    compress k block s = compress k block' s := by
  have hschedule : schedule block = schedule block' := by
    funext t
    induction t using Nat.strong_induction_on with
    | _ t ih =>
      by_cases ht : t < 16
      · rw [schedule_of_lt _ ht, schedule_of_lt _ ht, h t ht]
      · rw [schedule_of_le block (by omega), schedule_of_le block' (by omega), ih (t - 2) (by omega), ih (t - 7) (by omega),
          ih (t - 15) (by omega), ih (t - 16) (by omega)]
  rw [compress, compress, hschedule]

theorem compressBlocks_congr {data data' : ℕ → Word} (h : ∀ t < 16 * n, data t = data' t) (s : Hash) :
    compressBlocks k data s n = compressBlocks k data' s n := by
  induction n with
  | zero => rfl
  | succ n ih =>
    rw [compressBlocks, compressBlocks, ih fun t ht => h t (by omega)]
    exact compress_congr k (fun t ht => h (16 * n + t) (by omega)) _

theorem compressBlocks_add (data : ℕ → Word) (s : Hash) (m n : ℕ) :
    compressBlocks k data s (m + n) = compressBlocks k (fun t => data (16 * m + t)) (compressBlocks k data s m) n := by
  induction n with
  | zero => rfl
  | succ n ih =>
    rw [← Nat.add_assoc, compressBlocks, compressBlocks, ih]
    simp only [Nat.mul_add, Nat.add_assoc]

theorem bigEndianWord_append_left (rest : List Byte) (ht : 4 * t + 4 ≤ first.length) :
    bigEndianWord (first ++ rest) t = bigEndianWord first t := by
  unfold bigEndianWord
  rw [getD_append _ _ _ _ (by omega), getD_append _ _ _ _ (by omega), getD_append _ _ _ _ (by omega),
    getD_append _ _ _ _ (by omega)]

theorem bigEndianWord_append_right (rest : List Byte) (hm : first.length = 4 * m) (t : ℕ) :
    bigEndianWord (first ++ rest) (m + t) = bigEndianWord rest t := by
  have hget (i : ℕ) : (first ++ rest).getD (4 * (m + t) + i) 0 = rest.getD (4 * t + i) 0 := by
    rw [getD_append_right _ _ _ _ (by omega), hm]
    congr 1
    omega
  unfold bigEndianWord
  rw [hget 1, hget 2, hget 3]
  exact congrArg (· ++ _ ++ _ ++ _) (hget 0)

theorem blocksState_append_left (hfirst : first.length = 64 * n) (s : Hash) (rest : List Byte) :
    blocksState s (first ++ rest) n = blocksState s first n :=
  compressBlocks_congr _ (fun t ht => bigEndianWord_append_left rest (by omega)) s

theorem blocksState_append (hfirst : first.length = 64 * m) (s : Hash) (rest : List Byte) (n : ℕ) :
    blocksState s (first ++ rest) (m + n) = blocksState (blocksState s first m) rest n := by
  rw [← blocksState_append_left hfirst s rest, blocksState, compressBlocks_add]
  exact compressBlocks_congr _ (fun t _ => bigEndianWord_append_right rest (by omega) t) _

end VerifiableCompute.Lib.Sha256
