import VerifiableCompute.Circuit.Words
import VerifiableCompute.Rv32im.Instructions

/-! The multiplier. Words are expanded to bytes, and the product is the sum of the products of bytes, taken sixteen
bits at a time with a carry. All totals stay below the modulus, so they are totals of numbers. -/

namespace VerifiableCompute.Circuit

open Lib Rv32im Nat BitVec

/-- The byte `(val >> 8 * i) & 0xff`. -/
def byte (val : Word) (i : ℕ) : ℕ := val.toNat / 2 ^ (8 * i) % 0x100

theorem byte_lt (val : Word) (i : ℕ) : byte val i < 0x100 := mod_lt _ (by norm_num)

theorem lowHalf_eq_bytes (val : Word) : lowHalf val = byte val 0 + byte val 1 * 0x100 := by
  unfold lowHalf byte
  omega

theorem highHalf_eq_bytes (val : Word) : highHalf val = byte val 2 + byte val 3 * 0x100 := by
  have := val.isLt
  unfold highHalf byte
  omega

theorem byte_mul_le (a b : Word) (i j : ℕ) : byte a i * byte b j ≤ 0xff * 0xff :=
  Nat.mul_le_mul (le_of_lt_succ (byte_lt a i)) (le_of_lt_succ (byte_lt b j))

@[ext] structure ExpandU32 where
  b0 : RegU8
  b1 : RegU8
  b2 : RegU8
  b3 : RegU8
  topBit : BitReg
  b3Low7times2 : RegU8
  deriving Inhabited

/-- Bytes in two limbs are told apart by the half word that they make. -/
theorem bytes_unique {x x' y y' : Fp} (hx : RegU8.verify x) (hx' : RegU8.verify x') (hy : RegU8.verify y) (hy' : RegU8.verify y')
    (h : x + y * 0x100 = x' + y' * 0x100) : x = x' ∧ y = y' :=
  limbs_unique hx hx' hy hy' (by norm_num) h

namespace ExpandU32

def set (val : Word) : ExpandU32 where
  b0 := byte val 0
  b1 := byte val 1
  b2 := byte val 2
  b3 := byte val 3
  topBit := (val.toNat / 2 ^ 31 : ℕ)
  b3Low7times2 := (val.toNat / 2 ^ 24 % 0x80 * 2 : ℕ)

def get (x : ExpandU32) : ValU32 := ⟨x.b0 + x.b1 * 0x100, x.b2 + x.b3 * 0x100⟩

def verify (x : ExpandU32) : Prop := x.b3 = x.topBit * 128 + x.b3Low7times2 * 2⁻¹

structure Satisfied (x : ExpandU32) : Prop where
  b0 : RegU8.verify x.b0
  b1 : RegU8.verify x.b1
  b2 : RegU8.verify x.b2
  b3 : RegU8.verify x.b3
  topBit : BitReg.verify x.topBit
  b3Low7times2 : RegU8.verify x.b3Low7times2
  verify : x.verify

theorem unique {x y : ExpandU32} (hx : x.Satisfied) (hy : y.Satisfied) (h : x.get = y.get) : x = y := by
  obtain ⟨h0, h1⟩ := bytes_unique hx.b0 hy.b0 hx.b1 hy.b1 (congrArg ValU32.low h)
  obtain ⟨h2, h3⟩ := bytes_unique hx.b2 hy.b2 hx.b3 hy.b3 (congrArg ValU32.high h)
  have hsum : x.b3Low7times2 + x.topBit * 0x100 = y.b3Low7times2 + y.topBit * 0x100 := by
    have hsame : x.topBit * 128 + x.b3Low7times2 * 2⁻¹ = y.topBit * 128 + y.b3Low7times2 * 2⁻¹ :=
      hx.verify.symm.trans (h3.trans hy.verify)
    linear_combination 2 * hsame + (y.b3Low7times2 - x.b3Low7times2) * two_mul_inv_two
  obtain ⟨hlow, htop⟩ := bytes_unique hx.b3Low7times2 hy.b3Low7times2 (hx.topBit.below.mono (by norm_num))
    (hy.topBit.below.mono (by norm_num)) hsum
  exact ExpandU32.ext h0 h1 h2 h3 htop hlow

theorem set_satisfied (val : Word) : (set val).Satisfied := by
  have hlt := val.isLt
  have htop : byte val 3 = val.toNat / 2 ^ 31 * 128 + val.toNat / 2 ^ 24 % 0x80 := by
    unfold byte
    omega
  refine ⟨below_natCast (byte_lt val 0) (by norm_num), below_natCast (byte_lt val 1) (by norm_num),
    below_natCast (byte_lt val 2) (by norm_num), below_natCast (byte_lt val 3) (by norm_num), isBit_natCast (by omega),
    below_natCast (by omega) (by norm_num), ?_⟩
  have hcast := congrArg (Nat.cast (R := Fp)) htop
  push_cast at hcast
  simp only [verify, set]
  push_cast
  linear_combination hcast - (val.toNat / 2 ^ 24 % 0x80 : ℕ) * two_mul_inv_two

theorem get_set (val : Word) : (set val).get = .of val := by
  rw [ValU32.of, lowHalf_eq_bytes, highHalf_eq_bytes]
  simp only [get, set, cast_add, cast_mul, Nat.cast_ofNat]

theorem topBit_set (val : Word) : (set val).topBit = val.msb.toNat := by rw [GetSign.msb_toNat, set]

end ExpandU32

@[ext] structure SplitTotal where
  out : RegU16
  carryByte : RegU8
  carryBit0 : BitReg
  carryBit1 : BitReg
  deriving Inhabited

namespace SplitTotal

def set (val : ℕ) : SplitTotal :=
  ⟨(val % 0x10000 : ℕ), (val / 2 ^ 16 % 0x100 : ℕ), (val / 2 ^ 24 % 2 : ℕ), (val / 2 ^ 25 % 2 : ℕ)⟩

def carry (x : SplitTotal) : Fp := x.carryByte + x.carryBit0 * 0x100 + x.carryBit1 * 0x200

def verify (x : SplitTotal) (val : Fp) : Prop :=
  val = x.out + x.carryByte * 0x10000 + x.carryBit0 * 0x1000000 + x.carryBit1 * 0x2000000

structure Satisfied (x : SplitTotal) (val : Fp) : Prop where
  out : RegU16.verify x.out
  carryByte : RegU8.verify x.carryByte
  carryBit0 : BitReg.verify x.carryBit0
  carryBit1 : BitReg.verify x.carryBit1
  verify : x.verify val

theorem unique {x y : SplitTotal} {val : Fp} (hx : x.Satisfied val) (hy : y.Satisfied val) : x = y := by
  have hsame := hx.verify.symm.trans hy.verify
  have hlow {x : SplitTotal} (h : x.Satisfied val) : Limb 0x1000000 (x.out + x.carryByte * 0x10000) :=
    h.out.add_mul h.carryByte (by norm_num)
  have hmid {x : SplitTotal} (h : x.Satisfied val) : Limb 0x2000000 (x.out + x.carryByte * 0x10000 + x.carryBit0 * 0x1000000) :=
    (hlow h).add_mul h.carryBit0.below (by norm_num)
  obtain ⟨hsame, hbit1⟩ := limbs_unique (hmid hx) (hmid hy) hx.carryBit1.below hy.carryBit1.below (by norm_num) hsame
  obtain ⟨hsame, hbit0⟩ := limbs_unique (hlow hx) (hlow hy) hx.carryBit0.below hy.carryBit0.below (by norm_num) hsame
  obtain ⟨hout, hbyte⟩ := limbs_unique hx.out hy.out hx.carryByte hy.carryByte (by norm_num) hsame
  exact SplitTotal.ext hout hbyte hbit0 hbit1

theorem set_satisfied {val : ℕ} (h : val < 2 ^ 26) : (set val).Satisfied val := by
  refine ⟨below_natCast (by omega) (by norm_num), below_natCast (by omega) (by norm_num), isBit_natCast (by omega),
    isBit_natCast (by omega), ?_⟩
  have hsum : val = val % 0x10000 + val / 2 ^ 16 % 0x100 * 0x10000 + val / 2 ^ 24 % 2 * 0x1000000 + val / 2 ^ 25 % 2 * 0x2000000 := by
    omega
  have hcast := congrArg (Nat.cast (R := Fp)) hsum
  push_cast only [cast_add, cast_mul, Nat.cast_ofNat] at hcast
  exact hcast

theorem carry_set {val : ℕ} (h : val < 2 ^ 26) : (set val).carry = (val / 0x10000 : ℕ) := by
  have hsum : val / 2 ^ 16 % 0x100 + val / 2 ^ 24 % 2 * 0x100 + val / 2 ^ 25 % 2 * 0x200 = val / 0x10000 := by omega
  rw [← hsum]
  simp only [carry, set, cast_add, cast_mul, Nat.cast_ofNat]

end SplitTotal

@[ext] structure Multiply where
  signA : BitReg
  signB : BitReg
  ax : ExpandU32
  bx : ExpandU32
  s0 : SplitTotal
  s1 : SplitTotal
  s2 : SplitTotal
  s3Out : RegU16
  s3Carry : RegU8
  deriving Inhabited

namespace Multiply

section

variable (x : Multiply)

/-- The partial products that reach the first sixteen bits. -/
def valS0 : Fp := x.ax.b0 * x.bx.b0 + 0x100 * (x.ax.b0 * x.bx.b1 + x.ax.b1 * x.bx.b0)

/-- Those of the second sixteen bits, with the carry. -/
def valS1 : Fp :=
  x.s0.carry + x.ax.b0 * x.bx.b2 + x.ax.b1 * x.bx.b1 + x.ax.b2 * x.bx.b0 +
    0x100 * (x.ax.b0 * x.bx.b3 + x.ax.b1 * x.bx.b2 + x.ax.b2 * x.bx.b1 + x.ax.b3 * x.bx.b0)

/-- Those of the third sixteen bits, with the carry and the corrections for signs. -/
def valS2 : Fp :=
  let aNeg := x.signA * x.ax.topBit
  let bNeg := x.signB * x.bx.topBit
  x.s1.carry + 0x20000 - (x.ax.b0 + x.ax.b1 * 0x100) * bNeg - (x.bx.b0 + x.bx.b1 * 0x100) * aNeg +
    x.ax.b1 * x.bx.b3 + x.ax.b2 * x.bx.b2 + x.ax.b3 * x.bx.b1 + 0x100 * (x.ax.b2 * x.bx.b3 + x.ax.b3 * x.bx.b2)

/-- Those of the last sixteen bits, with the carry and the corrections for signs. -/
def valS3 : Fp :=
  let aNeg := x.signA * x.ax.topBit
  let bNeg := x.signB * x.bx.topBit
  x.s2.carry + 0x1fffe - (x.ax.b2 + x.ax.b3 * 0x100) * bNeg - (x.bx.b2 + x.bx.b3 * 0x100) * aNeg + x.ax.b3 * x.bx.b3

def set (a b : Word) (signA signB : Bool) : Multiply :=
  let x : Multiply := { (default : Multiply) with
    signA := (signA.toNat : ℕ), signB := (signB.toNat : ℕ), ax := ExpandU32.set a, bx := ExpandU32.set b }
  let x := { x with s0 := SplitTotal.set x.valS0.val }
  let x := { x with s1 := SplitTotal.set x.valS1.val }
  let x := { x with s2 := SplitTotal.set x.valS2.val }
  { x with s3Out := (x.valS3.val % 0x10000 : ℕ), s3Carry := (x.valS3.val / 0x10000 : ℕ) }

def getA : ValU32 := x.ax.get
def getB : ValU32 := x.bx.get
def getOutLow : ValU32 := ⟨x.s0.out, x.s1.out⟩
def getOutHigh : ValU32 := ⟨x.s2.out, x.s3Out⟩

def verify : Prop := x.s3Out + 0x10000 * x.s3Carry = x.valS3

end

structure Satisfied (x : Multiply) : Prop where
  signA : BitReg.verify x.signA
  signB : BitReg.verify x.signB
  ax : x.ax.Satisfied
  bx : x.bx.Satisfied
  s0 : x.s0.Satisfied x.valS0
  s1 : x.s1.Satisfied x.valS1
  s2 : x.s2.Satisfied x.valS2
  s3Out : RegU16.verify x.s3Out
  s3Carry : RegU8.verify x.s3Carry
  verify : x.verify

theorem unique {x y : Multiply} (hx : x.Satisfied) (hy : y.Satisfied) (hsignA : x.signA = y.signA) (hsignB : x.signB = y.signB)
    (hA : x.getA = y.getA) (hB : x.getB = y.getB) : x = y := by
  have hax := ExpandU32.unique hx.ax hy.ax hA
  have hbx := ExpandU32.unique hx.bx hy.bx hB
  have hvalS0 : x.valS0 = y.valS0 := by rw [valS0, valS0, hax, hbx]
  have hs0 : x.s0 = y.s0 := SplitTotal.unique hx.s0 (by rw [hvalS0]; exact hy.s0)
  have hvalS1 : x.valS1 = y.valS1 := by rw [valS1, valS1, hax, hbx, hs0]
  have hs1 : x.s1 = y.s1 := SplitTotal.unique hx.s1 (by rw [hvalS1]; exact hy.s1)
  have hvalS2 : x.valS2 = y.valS2 := by rw [valS2, valS2, hax, hbx, hs1, hsignA, hsignB]
  have hs2 : x.s2 = y.s2 := SplitTotal.unique hx.s2 (by rw [hvalS2]; exact hy.s2)
  have hvalS3 : x.valS3 = y.valS3 := by rw [valS3, valS3, hax, hbx, hs2, hsignA, hsignB]
  have hsum : x.s3Out + x.s3Carry * 0x10000 = y.s3Out + y.s3Carry * 0x10000 := by
    linear_combination hx.verify.trans (hvalS3.trans hy.verify.symm)
  obtain ⟨hs3Out, hs3Carry⟩ := limbs_unique hx.s3Out hy.s3Out hx.s3Carry hy.s3Carry (by norm_num) hsum
  exact Multiply.ext hsignA hsignB hax hbx hs0 hs1 hs2 hs3Out hs3Carry

section Totals

variable (a b : Word) (aNeg bNeg : Bool)

def total0 : ℕ := byte a 0 * byte b 0 + 0x100 * (byte a 0 * byte b 1 + byte a 1 * byte b 0)

def total1 : ℕ :=
  total0 a b / 0x10000 + byte a 0 * byte b 2 + byte a 1 * byte b 1 + byte a 2 * byte b 0 +
    0x100 * (byte a 0 * byte b 3 + byte a 1 * byte b 2 + byte a 2 * byte b 1 + byte a 3 * byte b 0)

def total2 : ℕ :=
  total1 a b / 0x10000 + (0x20000 - lowHalf a * bNeg.toNat - lowHalf b * aNeg.toNat) +
    byte a 1 * byte b 3 + byte a 2 * byte b 2 + byte a 3 * byte b 1 + 0x100 * (byte a 2 * byte b 3 + byte a 3 * byte b 2)

def total3 : ℕ :=
  total2 a b aNeg bNeg / 0x10000 + (0x1fffe - highHalf a * bNeg.toNat - highHalf b * aNeg.toNat) + byte a 3 * byte b 3

theorem total0_lt : total0 a b < 2 ^ 26 := by
  have h00 := byte_mul_le a b 0 0
  have h01 := byte_mul_le a b 0 1
  have h10 := byte_mul_le a b 1 0
  unfold total0
  omega

theorem total1_lt : total1 a b < 2 ^ 26 := by
  have h00 := byte_mul_le a b 0 0
  have h01 := byte_mul_le a b 0 1
  have h10 := byte_mul_le a b 1 0
  have h02 := byte_mul_le a b 0 2
  have h11 := byte_mul_le a b 1 1
  have h20 := byte_mul_le a b 2 0
  have h03 := byte_mul_le a b 0 3
  have h12 := byte_mul_le a b 1 2
  have h21 := byte_mul_le a b 2 1
  have h30 := byte_mul_le a b 3 0
  unfold total1 total0
  omega

theorem total2_lt : total2 a b aNeg bNeg < 2 ^ 26 := by
  have hcarry := total1_lt a b
  have h13 := byte_mul_le a b 1 3
  have h22 := byte_mul_le a b 2 2
  have h31 := byte_mul_le a b 3 1
  have h23 := byte_mul_le a b 2 3
  have h32 := byte_mul_le a b 3 2
  unfold total2
  omega

theorem total3_lt : total3 a b aNeg bNeg < 2 ^ 24 := by
  have hcarry := total2_lt a b aNeg bNeg
  have h33 := byte_mul_le a b 3 3
  unfold total3
  omega

theorem correction (x y : ℕ) (hx : x < 0x10000) (hy : y < 0x10000) (offset : ℕ) (h : 0x1fffe ≤ offset) :
    x * bNeg.toNat + y * aNeg.toNat ≤ offset := by
  have hbNeg : x * bNeg.toNat ≤ x * 1 := Nat.mul_le_mul_left x (Bool.toNat_le bNeg)
  have haNeg : y * aNeg.toNat ≤ y * 1 := Nat.mul_le_mul_left y (Bool.toNat_le aNeg)
  omega

/-- The sixteen-bit parts of the totals are those of the product with its corrections, up to a multiple of `2 ^ 64`. -/
theorem totals_eq : ((total0 a b % 0x10000 + total1 a b % 0x10000 * 2 ^ 16 + total2 a b aNeg bNeg % 0x10000 * 2 ^ 32 +
      total3 a b aNeg bNeg % 0x10000 * 2 ^ 48 : ℕ) : ℤ) =
    a.toNat * b.toNat - 2 ^ 32 * (a.toNat * bNeg.toNat + b.toNat * aNeg.toNat) +
      2 ^ 64 * (2 - total3 a b aNeg bNeg / 0x10000) := by
  have hlow := correction aNeg bNeg (lowHalf a) (lowHalf b) (lowHalf_lt a) (lowHalf_lt b) 0x20000 (by norm_num)
  have hhigh := correction aNeg bNeg (highHalf a) (highHalf b) (highHalf_lt a) (highHalf_lt b) 0x1fffe (by norm_num)
  have ha : (a.toNat : ℤ) = byte a 0 + byte a 1 * 0x100 + (byte a 2 + byte a 3 * 0x100) * 0x10000 := by
    rw [← halves_eq a, lowHalf_eq_bytes, highHalf_eq_bytes]
    push_cast
    ring
  have hb : (b.toNat : ℤ) = byte b 0 + byte b 1 * 0x100 + (byte b 2 + byte b 3 * 0x100) * 0x10000 := by
    rw [← halves_eq b, lowHalf_eq_bytes, highHalf_eq_bytes]
    push_cast
    ring
  have h0 : (total0 a b : ℤ) = byte a 0 * byte b 0 + 0x100 * (byte a 0 * byte b 1 + byte a 1 * byte b 0) := by
    unfold total0
    push_cast
    ring
  have h1 : (total1 a b : ℤ) = (total0 a b / 0x10000 : ℕ) + byte a 0 * byte b 2 + byte a 1 * byte b 1 + byte a 2 * byte b 0 +
      0x100 * (byte a 0 * byte b 3 + byte a 1 * byte b 2 + byte a 2 * byte b 1 + byte a 3 * byte b 0) := by
    unfold total1
    push_cast
    ring
  have h2 : (total2 a b aNeg bNeg : ℤ) = (total1 a b / 0x10000 : ℕ) + 0x20000 - (byte a 0 + byte a 1 * 0x100) * bNeg.toNat -
      (byte b 0 + byte b 1 * 0x100) * aNeg.toNat + byte a 1 * byte b 3 + byte a 2 * byte b 2 + byte a 3 * byte b 1 +
      0x100 * (byte a 2 * byte b 3 + byte a 3 * byte b 2) := by
    unfold total2
    rw [lowHalf_eq_bytes, lowHalf_eq_bytes] at hlow ⊢
    rw [Nat.sub_sub]
    push_cast [cast_sub hlow]
    ring
  have h3 : (total3 a b aNeg bNeg : ℤ) = (total2 a b aNeg bNeg / 0x10000 : ℕ) + 0x1fffe - (byte a 2 + byte a 3 * 0x100) * bNeg.toNat -
      (byte b 2 + byte b 3 * 0x100) * aNeg.toNat + byte a 3 * byte b 3 := by
    unfold total3
    rw [highHalf_eq_bytes, highHalf_eq_bytes] at hhigh ⊢
    rw [Nat.sub_sub]
    push_cast [cast_sub hhigh]
    ring
  have hdiv (n : ℕ) : (n : ℤ) = (n % 0x10000 : ℕ) + (n / 0x10000 : ℕ) * 0x10000 := by omega
  have hd0 := hdiv (total0 a b)
  have hd1 := hdiv (total1 a b)
  have hd2 := hdiv (total2 a b aNeg bNeg)
  have hd3 := hdiv (total3 a b aNeg bNeg)
  push_cast at *
  rw [ha, hb]
  linear_combination h0 - hd0 + (h1 - hd1) * 2 ^ 16 + (h2 - hd2) * 2 ^ 32 + (h3 - hd3) * 2 ^ 48

end Totals

section Written

variable {a b : Word} {signA signB : Bool} {x : Multiply}

theorem valS0_eq (hax : x.ax = .set a) (hbx : x.bx = .set b) : x.valS0 = (total0 a b : ℕ) := by
  rw [valS0, hax, hbx, total0]
  push_cast
  rfl

theorem valS1_eq (hax : x.ax = .set a) (hbx : x.bx = .set b) (hs0 : x.s0 = .set (total0 a b)) : x.valS1 = (total1 a b : ℕ) := by
  rw [valS1, hs0, SplitTotal.carry_set (total0_lt a b), hax, hbx, total1]
  push_cast
  rfl

theorem neg_eq (sign : Bool) (val : Word) : ((sign.toNat : ℕ) : Fp) * (ExpandU32.set val).topBit = ((sign && val.msb).toNat : ℕ) := by
  rw [ExpandU32.topBit_set, ← cast_mul]
  cases sign
  · simp
  · simp

section

variable (hax : x.ax = .set a) (hbx : x.bx = .set b) (hsignA : x.signA = (signA.toNat : ℕ)) (hsignB : x.signB = (signB.toNat : ℕ))

include hax hbx hsignA hsignB

theorem valS2_eq (hs1 : x.s1 = .set (total1 a b)) : x.valS2 = (total2 a b (signA && a.msb) (signB && b.msb) : ℕ) := by
  have hle := correction (signA && a.msb) (signB && b.msb) (lowHalf a) (lowHalf b) (lowHalf_lt a) (lowHalf_lt b) 0x20000 (by norm_num)
  rw [valS2, hs1, SplitTotal.carry_set (total1_lt a b), hax, hbx, hsignA, hsignB, neg_eq, neg_eq, total2, Nat.sub_sub]
  rw [lowHalf_eq_bytes, lowHalf_eq_bytes] at hle ⊢
  push_cast [cast_sub hle]
  simp only [ExpandU32.set]
  ring

theorem valS3_eq (hs2 : x.s2 = .set (total2 a b (signA && a.msb) (signB && b.msb))) :
    x.valS3 = (total3 a b (signA && a.msb) (signB && b.msb) : ℕ) := by
  have hle := correction (signA && a.msb) (signB && b.msb) (highHalf a) (highHalf b) (highHalf_lt a) (highHalf_lt b) 0x1fffe (by norm_num)
  rw [valS3, hs2, SplitTotal.carry_set (total2_lt a b _ _), hax, hbx, hsignA, hsignB, neg_eq, neg_eq, total3, Nat.sub_sub]
  rw [highHalf_eq_bytes, highHalf_eq_bytes] at hle ⊢
  push_cast [cast_sub hle]
  simp only [ExpandU32.set]
  ring

end

variable (a b signA signB)

theorem set_eq : set a b signA signB = {
    signA := (signA.toNat : ℕ), signB := (signB.toNat : ℕ), ax := .set a, bx := .set b
    s0 := .set (total0 a b)
    s1 := .set (total1 a b)
    s2 := .set (total2 a b (signA && a.msb) (signB && b.msb))
    s3Out := (total3 a b (signA && a.msb) (signB && b.msb) % 0x10000 : ℕ)
    s3Carry := (total3 a b (signA && a.msb) (signB && b.msb) / 0x10000 : ℕ) } := by
  have h0 := total0_lt a b
  have h1 := total1_lt a b
  have h2 := total2_lt a b (signA && a.msb) (signB && b.msb)
  have h3 := total3_lt a b (signA && a.msb) (signB && b.msb)
  unfold set
  simp only
  rw [valS0_eq rfl rfl, ZMod.val_natCast_of_lt (by omega)]
  rw [valS1_eq rfl rfl rfl, ZMod.val_natCast_of_lt (by omega)]
  rw [valS2_eq rfl rfl rfl rfl rfl, ZMod.val_natCast_of_lt (by omega)]
  rw [valS3_eq rfl rfl rfl rfl rfl, ZMod.val_natCast_of_lt (by omega)]

theorem set_satisfied : (set a b signA signB).Satisfied := by
  have h3 := total3_lt a b (signA && a.msb) (signB && b.msb)
  have hsum := congrArg (Nat.cast (R := Fp)) (mod_add_div (total3 a b (signA && a.msb) (signB && b.msb)) 0x10000)
  push_cast only [cast_add, cast_mul, Nat.cast_ofNat] at hsum
  rw [set_eq]
  constructor
  · exact isBit_natCast (Bool.toNat_lt signA)
  · exact isBit_natCast (Bool.toNat_lt signB)
  · exact ExpandU32.set_satisfied a
  · exact ExpandU32.set_satisfied b
  · rw [valS0_eq rfl rfl]
    exact SplitTotal.set_satisfied (total0_lt a b)
  · rw [valS1_eq rfl rfl rfl]
    exact SplitTotal.set_satisfied (total1_lt a b)
  · rw [valS2_eq rfl rfl rfl rfl rfl]
    exact SplitTotal.set_satisfied (total2_lt a b _ _)
  · exact below_natCast (mod_lt _ (by norm_num)) (by norm_num)
  · exact below_natCast (by omega) (by norm_num)
  · rw [verify, valS3_eq rfl rfl rfl rfl rfl]
    exact hsum

theorem getA_set : (set a b signA signB).getA = .of a := by
  rw [set_eq]
  exact ExpandU32.get_set a

theorem getB_set : (set a b signA signB).getB = .of b := by
  rw [set_eq]
  exact ExpandU32.get_set b

end Written

/-- A factor in 64 bits. -/
def extend (sign : Bool) (val : Word) : BitVec 64 := if sign then val.signExtend 64 else val.setWidth 64

theorem extend_toNat (sign : Bool) (val : Word) :
    ((extend sign val).toNat : ℤ) = val.toNat + (sign && val.msb).toNat * (2 ^ 64 - 2 ^ 32) := by
  have hlt := val.isLt
  have hzero : (val.setWidth 64).toNat = val.toNat := by
    rw [toNat_setWidth]
    omega
  cases sign with
  | false => simp [extend, hzero]
  | true =>
    rw [extend, if_pos rfl, toNat_signExtend, hzero]
    cases val.msb <;> simp

theorem extend_setWidth (sign : Bool) (val : Word) : (extend sign val).setWidth 32 = val := by
  have hlt := val.isLt
  have hextend := extend_toNat sign val
  have hbit := Bool.toNat_le (sign && val.msb)
  apply eq_of_toNat_eq
  rw [toNat_setWidth]
  generalize (sign && val.msb).toNat = neg at hextend hbit
  omega

variable (a b : Word) (signA signB : Bool)

theorem product_setWidth : (extend signA a * extend signB b).setWidth 32 = a * b := by
  rw [setWidth_mul _ _ (by norm_num), extend_setWidth, extend_setWidth]

theorem product_toNat : (extend signA a * extend signB b).toNat =
    total0 a b % 0x10000 + total1 a b % 0x10000 * 2 ^ 16 + total2 a b (signA && a.msb) (signB && b.msb) % 0x10000 * 2 ^ 32 +
      total3 a b (signA && a.msb) (signB && b.msb) % 0x10000 * 2 ^ 48 := by
  have hparts := totals_eq a b (signA && a.msb) (signB && b.msb)
  have hA := extend_toNat signA a
  have hB := extend_toNat signB b
  generalize (signA && a.msb) = aNeg at *
  generalize (signB && b.msb) = bNeg at *
  have hproduct : (((extend signA a).toNat * (extend signB b).toNat : ℕ) : ℤ) =
      ((total0 a b % 0x10000 + total1 a b % 0x10000 * 2 ^ 16 + total2 a b aNeg bNeg % 0x10000 * 2 ^ 32 +
        total3 a b aNeg bNeg % 0x10000 * 2 ^ 48 : ℕ) : ℤ) +
      2 ^ 64 * (a.toNat * bNeg.toNat + b.toNat * aNeg.toNat + aNeg.toNat * bNeg.toNat * (2 ^ 64 - 2 ^ 33 + 1) -
        (2 - total3 a b aNeg bNeg / 0x10000)) := by
    push_cast only [cast_mul]
    rw [hparts, hA, hB]
    ring
  rw [toNat_mul]
  generalize (extend signA a).toNat * (extend signB b).toNat = product at *
  generalize (a.toNat * bNeg.toNat + b.toNat * aNeg.toNat + aNeg.toNat * bNeg.toNat * (2 ^ 64 - 2 ^ 33 + 1) -
    (2 - total3 a b aNeg bNeg / 0x10000) : ℤ) = k at *
  omega

theorem getOutLow_set : (set a b signA signB).getOutLow = .of ((extend signA a * extend signB b).setWidth 32) := by
  have hproduct := product_toNat a b signA signB
  rw [set_eq, ValU32.of, lowHalf, highHalf, toNat_setWidth, hproduct]
  simp only [getOutLow, SplitTotal.set, ValU32.mk.injEq]
  constructor
  · congr 1
    omega
  · congr 1
    omega

theorem getOutHigh_set : (set a b signA signB).getOutHigh = .of (upper (extend signA a * extend signB b)) := by
  have hproduct := product_toNat a b signA signB
  rw [set_eq, ValU32.of, lowHalf, highHalf, upper, toNat_setWidth, toNat_ushiftRight, shiftRight_eq_div_pow, hproduct]
  simp only [getOutHigh, SplitTotal.set, ValU32.mk.injEq]
  constructor
  · congr 1
    omega
  · congr 1
    omega

end Multiply

end VerifiableCompute.Circuit
