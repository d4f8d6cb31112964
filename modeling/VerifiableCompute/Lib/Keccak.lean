import Mathlib

/-! Keccak-256: the permutation Keccak-f[1600] on 25 lanes of 64 bits, and the
sponge with rate 136 bytes and the original padding. Lanes are naturals below
`2 ^ 64`; lane `x + 5 * y` has coordinates `(x, y)`. -/

namespace VerifiableCompute.Lib.Keccak

abbrev Lanes := List ℕ

def rotl (x n : ℕ) : ℕ := (x <<< n ||| x >>> (64 - n)) % 2 ^ 64

def lane (a : Lanes) (x y : ℕ) : ℕ := a.getD (x % 5 + 5 * (y % 5)) 0

/-- Lanes from a function of the coordinates. -/
def ofLanes (f : ℕ → ℕ → ℕ) : Lanes := (List.range 25).map fun i => f (i % 5) (i / 5)

def theta (a : Lanes) : Lanes :=
  let c := (List.range 5).map fun x =>
    lane a x 0 ^^^ lane a x 1 ^^^ lane a x 2 ^^^ lane a x 3 ^^^ lane a x 4
  let d := (List.range 5).map fun x => c.getD ((x + 4) % 5) 0 ^^^ rotl (c.getD ((x + 1) % 5) 0) 1
  ofLanes fun x y => lane a x y ^^^ d.getD x 0

def rotationOffsets : List ℕ :=
  [0, 1, 62, 28, 27, 36, 44, 6, 55, 20, 3, 10, 43, 25, 39, 41, 45, 15, 21, 8, 18, 2, 61, 56, 14]

/-- Rotation of every lane, then the lane permutation `(x, y) ↦ (y, 2 x + 3 y)`. -/
def rhoPi (a : Lanes) : Lanes :=
  ofLanes fun x y => rotl (lane a (x + 3 * y) x) (lane rotationOffsets (x + 3 * y) x)

def chi (a : Lanes) : Lanes :=
  ofLanes fun x y => lane a x y ^^^ ((2 ^ 64 - 1 - lane a (x + 1) y) &&& lane a (x + 2) y)

def iota (rc : ℕ) (a : Lanes) : Lanes := a.modify 0 (· ^^^ rc)

def roundConstants : List ℕ :=
  [0x0000000000000001, 0x0000000000008082, 0x800000000000808A, 0x8000000080008000,
   0x000000000000808B, 0x0000000080000001, 0x8000000080008081, 0x8000000000008009,
   0x000000000000008A, 0x0000000000000088, 0x0000000080008009, 0x000000008000000A,
   0x000000008000808B, 0x800000000000008B, 0x8000000000008089, 0x8000000000008003,
   0x8000000000008002, 0x8000000000000080, 0x000000000000800A, 0x800000008000000A,
   0x8000000080008081, 0x8000000000008080, 0x0000000080000001, 0x8000000080008008]

def permutation (a : Lanes) : Lanes :=
  roundConstants.foldl (fun a rc => iota rc (chi (rhoPi (theta a)))) a

def rate : ℕ := 136

/-- Padding to a whole number of blocks: a one bit first and a one bit last. -/
def pad (message : List (BitVec 8)) : List (BitVec 8) :=
  let n := rate - message.length % rate
  if n = 1 then message ++ [0x81] else message ++ 0x01 :: List.replicate (n - 2) 0x00 ++ [0x80]

def littleEndian (bytes : List (BitVec 8)) : ℕ :=
  bytes.foldr (fun b acc => b.toNat + 256 * acc) 0

def absorbBlock (a : Lanes) (block : List (BitVec 8)) : Lanes :=
  permutation ((List.range 25).map fun i =>
    a.getD i 0 ^^^ littleEndian ((block.drop (8 * i)).take 8))

def absorb : ℕ → Lanes → List (BitVec 8) → Lanes
  | 0, a, _ => a
  | n + 1, a, bytes => absorb n (absorbBlock a (bytes.take rate)) (bytes.drop rate)

def laneBytes (x : ℕ) : List (BitVec 8) :=
  (List.range 8).map fun i => BitVec.ofNat 8 (x >>> (8 * i))

/-- The first 32 bytes of the sponge's output. -/
def digest (message : List (BitVec 8)) : List (BitVec 8) :=
  let padded := pad message
  ((absorb (padded.length / rate) (List.replicate 25 0) padded).take 4).flatMap laneBytes

end VerifiableCompute.Lib.Keccak

/-- Keccak-256 as a big-endian word. -/
def VerifiableCompute.Lib.keccak256 (message : List (BitVec 8)) : BitVec 256 :=
  BitVec.ofNat 256 ((Keccak.digest message).foldl (fun acc b => 256 * acc + b.toNat) 0)
