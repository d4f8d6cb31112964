import VerifiableCompute.Circuit.Registers

/-! Words in two columns of sixteen bits, and the components that add and negate them. Each component is told by
its parameters: of two satisfying assignments with the same parameters both are the same. The columns that `set`
writes satisfy the constraints. Together these determine every satisfying assignment. -/

namespace VerifiableCompute.Circuit

open Lib Rv32im Nat BitVec

/-- The halves of a word, `val & 0xffff` and `val >> 16`. -/
def lowHalf (val : Word) : ℕ := val.toNat % 0x10000

def highHalf (val : Word) : ℕ := val.toNat / 0x10000

variable (val : Word)

theorem lowHalf_lt : lowHalf val < 0x10000 := mod_lt _ (by norm_num)

theorem highHalf_lt : highHalf val < 0x10000 := by
  have := val.isLt
  unfold highHalf
  omega

theorem halves_eq : lowHalf val + highHalf val * 0x10000 = val.toNat := by
  unfold lowHalf highHalf
  omega

theorem lowHalf_not : lowHalf (~~~val) = 0xffff - lowHalf val := by
  have := val.isLt
  rw [lowHalf, toNat_not, lowHalf]
  omega

theorem highHalf_not : highHalf (~~~val) = 0xffff - highHalf val := by
  have := val.isLt
  rw [highHalf, toNat_not, highHalf]
  omega

def ofHalves (low high : ℕ) : Word := BitVec.ofNat 32 (low + high * 0x10000)

theorem lowHalf_ofHalves {low high : ℕ} (hlow : low < 0x10000) : lowHalf (ofHalves low high) = low := by
  rw [lowHalf, ofHalves, toNat_ofNat]
  omega

theorem highHalf_ofHalves {low high : ℕ} (hlow : low < 0x10000) (hhigh : high < 0x10000) : highHalf (ofHalves low high) = high := by
  rw [highHalf, ofHalves, toNat_ofNat]
  omega

@[ext] structure ValU32 where
  low : Fp
  high : Fp
  deriving DecidableEq

namespace ValU32

/-- The halves of a word as field elements. -/
def of (val : Word) : ValU32 := ⟨lowHalf val, highHalf val⟩

theorem of_injective {a b : Word} (h : of a = of b) : a = b := by
  have hlow := natCast_inj_of_lt (by have := lowHalf_lt a; omega) (by have := lowHalf_lt b; omega) (congrArg low h)
  have hhigh := natCast_inj_of_lt (by have := highHalf_lt a; omega) (by have := highHalf_lt b; omega) (congrArg high h)
  apply eq_of_toNat_eq
  rw [← halves_eq a, ← halves_eq b, hlow, hhigh]

theorem of_zero : of 0 = ⟨0, 0⟩ := by
  apply ValU32.ext
  · exact cast_zero
  · exact cast_zero

theorem of_low_verify (val : Word) : RegU16.verify (of val).low := below_natCast (lowHalf_lt val) (by norm_num)

theorem of_high_verify (val : Word) : RegU16.verify (of val).high := below_natCast (highHalf_lt val) (by norm_num)

theorem exists_of {x : ValU32} (hlow : RegU16.verify x.low) (hhigh : RegU16.verify x.high) : ∃ val, x = of val := by
  obtain ⟨j, hj, hlow⟩ := hlow.exists_natCast
  obtain ⟨k, hk, hhigh⟩ := hhigh.exists_natCast
  refine ⟨ofHalves j k, ValU32.ext ?_ ?_⟩
  · rw [hlow, of, lowHalf_ofHalves hj]
  · rw [hhigh, of, highHalf_ofHalves hj hk]

end ValU32

/-- The halves of `a` if `c`, those of `b` if not. -/
def condU32 (c : Fp) (a b : ValU32) : ValU32 := ⟨cond c a.low b.low, cond c a.high b.high⟩

@[simp] theorem condU32_zero (a b : ValU32) : condU32 0 a b = b := by rw [condU32, cond_zero, cond_zero]

@[simp] theorem condU32_one (a b : ValU32) : condU32 1 a b = a := by rw [condU32, cond_one, cond_one]

@[ext] structure RegU32 where
  low : Reg
  high : Reg

namespace RegU32

def set (val : Word) : RegU32 := ⟨lowHalf val, highHalf val⟩

def get (x : RegU32) : ValU32 := ⟨x.low, x.high⟩

theorem get_injective {x y : RegU32} (h : x.get = y.get) : x = y := RegU32.ext (congrArg ValU32.low h) (congrArg ValU32.high h)

end RegU32

theorem carry_unique {x x' y y' : Fp} (hx : RegU16.verify x) (hx' : RegU16.verify x') (hy : BitReg.verify y) (hy' : BitReg.verify y')
    (h : x + y * 0x10000 = x' + y' * 0x10000) : x = x' ∧ y = y' :=
  limbs_unique hx hx' hy.below hy'.below (by norm_num) h

@[ext] structure AddU32 where
  low : RegU16
  carryLow : BitReg
  high : RegU16
  carryHigh : BitReg

namespace AddU32

def set (a b : Word) (carryIn : Bool) : AddU32 :=
  let low17 := lowHalf a + lowHalf b + carryIn.toNat
  let high17 := highHalf a + highHalf b + low17 / 0x10000
  ⟨(low17 % 0x10000 : ℕ), (low17 / 0x10000 : ℕ), (high17 % 0x10000 : ℕ), (high17 / 0x10000 : ℕ)⟩

def get (x : AddU32) : ValU32 := ⟨x.low, x.high⟩

structure verify (x : AddU32) (a b : ValU32) : Prop where
  low : x.low + x.carryLow * 0x10000 = a.low + b.low
  high : x.high + x.carryHigh * 0x10000 = a.high + b.high + x.carryLow

structure Satisfied (x : AddU32) (a b : ValU32) : Prop where
  low : RegU16.verify x.low
  carryLow : BitReg.verify x.carryLow
  high : RegU16.verify x.high
  carryHigh : BitReg.verify x.carryHigh
  verify : x.verify a b

theorem unique {x y : AddU32} {a b : ValU32} (hx : x.Satisfied a b) (hy : y.Satisfied a b) : x = y := by
  obtain ⟨hlow, hcarryLow⟩ := carry_unique hx.low hy.low hx.carryLow hy.carryLow (hx.verify.low.trans hy.verify.low.symm)
  have hsum : x.high + x.carryHigh * 0x10000 = y.high + y.carryHigh * 0x10000 := by
    rw [hx.verify.high, hy.verify.high, hcarryLow]
  obtain ⟨hhigh, hcarryHigh⟩ := carry_unique hx.high hy.high hx.carryHigh hy.carryHigh hsum
  exact AddU32.ext hlow hcarryLow hhigh hcarryHigh

theorem set_satisfied (a b : Word) (carryIn : Bool) :
    (set a b carryIn).Satisfied (.of a) ⟨((lowHalf b + carryIn.toNat : ℕ) : Fp), highHalf b⟩ := by
  have ha := lowHalf_lt a
  have hb := lowHalf_lt b
  have ha' := highHalf_lt a
  have hb' := highHalf_lt b
  have hin : carryIn.toNat ≤ 1 := Bool.toNat_le carryIn
  refine ⟨below_natCast (mod_lt _ (by norm_num)) (by norm_num), isBit_natCast (by omega),
    below_natCast (mod_lt _ (by norm_num)) (by norm_num), isBit_natCast (by omega), ?_, ?_⟩
  · have hsum : (lowHalf a + lowHalf b + carryIn.toNat) % 0x10000 + (lowHalf a + lowHalf b + carryIn.toNat) / 0x10000 * 0x10000 =
        lowHalf a + (lowHalf b + carryIn.toNat) := by omega
    simpa only [set, ValU32.of, cast_add, cast_mul, Nat.cast_ofNat] using congrArg (Nat.cast (R := Fp)) hsum
  · have hsum : (highHalf a + highHalf b + (lowHalf a + lowHalf b + carryIn.toNat) / 0x10000) % 0x10000 +
        (highHalf a + highHalf b + (lowHalf a + lowHalf b + carryIn.toNat) / 0x10000) / 0x10000 * 0x10000 =
        highHalf a + highHalf b + (lowHalf a + lowHalf b + carryIn.toNat) / 0x10000 := by omega
    simpa only [set, ValU32.of, cast_add, cast_mul, Nat.cast_ofNat] using congrArg (Nat.cast (R := Fp)) hsum

theorem get_set (a b : Word) (carryIn : Bool) : (set a b carryIn).get = .of (a + b + BitVec.ofNat 32 carryIn.toNat) := by
  have hin : carryIn.toNat ≤ 1 := Bool.toNat_le carryIn
  have hsum : (a + b + BitVec.ofNat 32 carryIn.toNat).toNat = (a.toNat + b.toNat + carryIn.toNat) % 2 ^ 32 := by
    rw [toNat_add, toNat_add, toNat_ofNat]
    omega
  rw [← halves_eq a, ← halves_eq b] at hsum
  rw [ValU32.of, lowHalf.eq_def (a + b + _), highHalf.eq_def (a + b + _), hsum]
  simp only [get, set, ValU32.mk.injEq]
  constructor
  · congr 1
    omega
  · congr 1
    omega

theorem Satisfied.eq_set {x : AddU32} {a b : Word} (h : x.Satisfied (.of a) (.of b)) : x = set a b false :=
  unique h (set_satisfied a b false)

theorem Satisfied.get_eq {x : AddU32} {a b : Word} (h : x.Satisfied (.of a) (.of b)) : x.get = .of (a + b) := by
  rw [h.eq_set, get_set]
  simp

theorem carryHigh_set (a b : Word) (carryIn : Bool) :
    (set a b carryIn).carryHigh = ((a.toNat + b.toNat + carryIn.toNat) / 2 ^ 32 : ℕ) := by
  have ha := halves_eq a
  have hb := halves_eq b
  simp only [set]
  congr 1
  omega

end AddU32

theorem ValU32.of_not : .of (~~~val) = (⟨0xffff - (ValU32.of val).low, 0xffff - (ValU32.of val).high⟩ : ValU32) := by
  have hlow := lowHalf_lt val
  have hhigh := highHalf_lt val
  apply ValU32.ext
  · simp only [ValU32.of]
    rw [lowHalf_not, cast_sub (by omega), Nat.cast_ofNat]
  · simp only [ValU32.of]
    rw [highHalf_not, cast_sub (by omega), Nat.cast_ofNat]

/-- Two's complement negation; the low half is not normalized. -/
def negate (val : ValU32) : ValU32 := ⟨0xffff - val.low + 1, 0xffff - val.high⟩

theorem negate_of : negate (.of val) = ⟨((lowHalf (~~~val) + 1 : ℕ) : Fp), highHalf (~~~val)⟩ := by
  have hnot := ValU32.of_not val
  rw [negate, cast_add, cast_one]
  exact ValU32.ext (congrArg (· + 1) (congrArg ValU32.low hnot).symm) (congrArg ValU32.high hnot).symm

@[ext] structure GetSign where
  sign : BitReg
  signVerify : RegU16

namespace GetSign

def set (val : Word) : GetSign := ⟨(val.toNat / 2 ^ 31 : ℕ), (highHalf val % 0x8000 * 2 : ℕ)⟩

def verify (x : GetSign) (inHigh : Fp) : Prop := inHigh = x.signVerify * 2⁻¹ + x.sign * 0x8000

instance instDecidableVerify (x : GetSign) (inHigh : Fp) : Decidable (x.verify inHigh) := inferInstanceAs (Decidable (_ = _))

structure Satisfied (x : GetSign) (inHigh : Fp) : Prop where
  sign : BitReg.verify x.sign
  signVerify : RegU16.verify x.signVerify
  verify : x.verify inHigh

theorem unique {x y : GetSign} {inHigh : Fp} (hx : x.Satisfied inHigh) (hy : y.Satisfied inHigh) : x = y := by
  have hsum : x.signVerify + x.sign * 0x10000 = y.signVerify + y.sign * 0x10000 := by
    linear_combination 2 * (hx.verify.symm.trans hy.verify) + (y.signVerify - x.signVerify) * two_mul_inv_two
  obtain ⟨hsignVerify, hsign⟩ := carry_unique hx.signVerify hy.signVerify hx.sign hy.sign hsum
  exact GetSign.ext hsign hsignVerify

theorem set_satisfied (val : Word) : (set val).Satisfied (highHalf val) := by
  have hlt := val.isLt
  have hhalf : highHalf val = highHalf val % 0x8000 + val.toNat / 2 ^ 31 * 0x8000 := by
    unfold highHalf
    omega
  refine ⟨isBit_natCast (by omega), below_natCast (by omega) (by norm_num), ?_⟩
  have hcast := congrArg (Nat.cast (R := Fp)) hhalf
  push_cast at hcast
  simp only [verify, set]
  push_cast
  linear_combination hcast - (highHalf val % 0x8000 : ℕ) * two_mul_inv_two

theorem msb_toNat (val : Word) : val.msb.toNat = val.toNat / 2 ^ 31 := by
  have hlt := val.isLt
  rw [msb_eq_decide]
  by_cases h : 2 ^ 31 ≤ val.toNat
  · rw [decide_eq_true h, Bool.toNat_true]
    omega
  · rw [decide_eq_false h, Bool.toNat_false]
    omega

theorem sign_set (val : Word) : (set val).sign = val.msb.toNat := by rw [msb_toNat, set]

end GetSign

@[ext] structure NegU32 where
  carryLow : BitReg
  carryHigh : BitReg
  outLow : RegU16
  outHigh : RegU16

namespace NegU32

def set (val : Word) (neg : Bool) : NegU32 :=
  if neg then
    let lowSum := 0xffff - lowHalf val + 1
    let highSum := 0xffff - highHalf val + lowSum / 0x10000
    ⟨(lowSum / 0x10000 : ℕ), (highSum / 0x10000 : ℕ), (lowSum % 0x10000 : ℕ), (highSum % 0x10000 : ℕ)⟩
  else ⟨0, 0, lowHalf val, highHalf val⟩

def get (x : NegU32) : ValU32 := ⟨x.outLow, x.outHigh⟩

structure verify (x : NegU32) (val : ValU32) (neg : Fp) : Prop where
  carryLow : (1 - neg) * x.carryLow = 0
  carryHigh : (1 - neg) * x.carryHigh = 0
  low : neg * (0xffff - val.low + 1 - 0x10000 * x.carryLow - x.outLow) + (1 - neg) * (x.outLow - val.low) = 0
  high : neg * (0xffff - val.high + x.carryLow - 0x10000 * x.carryHigh - x.outHigh) + (1 - neg) * (x.outHigh - val.high) = 0

structure Satisfied (x : NegU32) (val : ValU32) (neg : Fp) : Prop where
  carryLow : BitReg.verify x.carryLow
  carryHigh : BitReg.verify x.carryHigh
  outLow : RegU16.verify x.outLow
  outHigh : RegU16.verify x.outHigh
  verify : x.verify val neg

theorem unique {x y : NegU32} {val : ValU32} {neg : Fp} (hneg : BitReg.verify neg) (hx : x.Satisfied val neg) (hy : y.Satisfied val neg) :
    x = y := by
  obtain ⟨hxc, hxd, hxl, hxh⟩ := hx.verify
  obtain ⟨hyc, hyd, hyl, hyh⟩ := hy.verify
  obtain rfl | rfl := isBit_iff.mp hneg
  · apply NegU32.ext
    · linear_combination hxc - hyc
    · linear_combination hxd - hyd
    · linear_combination hxl - hyl
    · linear_combination hxh - hyh
  · have hlow : x.outLow + x.carryLow * 0x10000 = y.outLow + y.carryLow * 0x10000 := by linear_combination hyl - hxl
    obtain ⟨hlow, hcarryLow⟩ := carry_unique hx.outLow hy.outLow hx.carryLow hy.carryLow hlow
    have hhigh : x.outHigh + x.carryHigh * 0x10000 = y.outHigh + y.carryHigh * 0x10000 := by
      linear_combination hyh - hxh + hcarryLow
    obtain ⟨hhigh, hcarryHigh⟩ := carry_unique hx.outHigh hy.outHigh hx.carryHigh hy.carryHigh hhigh
    exact NegU32.ext hcarryLow hcarryHigh hlow hhigh

theorem set_satisfied (val : Word) (neg : Bool) : (set val neg).Satisfied (.of val) (neg.toNat : ℕ) := by
  have hlow := lowHalf_lt val
  have hhigh := highHalf_lt val
  cases neg with
  | false =>
    refine ⟨isBit_zero, isBit_zero, ValU32.of_low_verify val, ValU32.of_high_verify val, ?_, ?_, ?_, ?_⟩ <;>
      simp [set, ValU32.of]
  | true =>
    have hsumLow : (0xffff - lowHalf val + 1) % 0x10000 + (0xffff - lowHalf val + 1) / 0x10000 * 0x10000 + lowHalf val = 0xffff + 1 := by
      omega
    have hsumHigh : (0xffff - highHalf val + (0xffff - lowHalf val + 1) / 0x10000) % 0x10000 +
        (0xffff - highHalf val + (0xffff - lowHalf val + 1) / 0x10000) / 0x10000 * 0x10000 + highHalf val =
        0xffff + (0xffff - lowHalf val + 1) / 0x10000 := by omega
    have hcastLow := congrArg (Nat.cast (R := Fp)) hsumLow
    have hcastHigh := congrArg (Nat.cast (R := Fp)) hsumHigh
    push_cast only [cast_add, cast_mul, Nat.cast_ofNat, cast_one] at hcastLow hcastHigh
    refine ⟨isBit_natCast (by omega), isBit_natCast (by omega), below_natCast (mod_lt _ (by norm_num)) (by norm_num),
      below_natCast (mod_lt _ (by norm_num)) (by norm_num), ?_, ?_, ?_, ?_⟩
    · simp
    · simp
    · simp only [set, ValU32.of, if_true, Bool.toNat_true, cast_one]
      linear_combination -hcastLow
    · simp only [set, ValU32.of, if_true, Bool.toNat_true, cast_one]
      linear_combination -hcastHigh

theorem get_set (val : Word) (neg : Bool) : (set val neg).get = .of (if neg then -val else val) := by
  cases neg with
  | false => rfl
  | true =>
    have hlt := val.isLt
    have hneg : (-val).toNat = (2 ^ 32 - val.toNat) % 2 ^ 32 := toNat_neg val
    have hval := halves_eq val
    have hlow := lowHalf_lt val
    simp only [get, set, if_true, ValU32.of, ValU32.mk.injEq]
    rw [lowHalf.eq_def (-val), highHalf.eq_def (-val), hneg, ← hval]
    constructor
    · congr 1
      omega
    · congr 1
      omega

end NegU32

/-- The `input` must be constrained elsewhere to be normalized. -/
@[ext] structure AbsU32 where
  input : RegU32
  neg : BitReg
  sign : BitReg
  signVerify : RegU16
  carryLow : BitReg
  carryHigh : BitReg
  absLow : RegU16
  absHigh : RegU16

namespace AbsU32

def set (val : Word) (isSigned : Bool) : AbsU32 :=
  let negVal := val.msb && isSigned
  let lowSum := 0xffff - lowHalf val + 1
  let highSum := 0xffff - highHalf val + lowSum / 0x10000
  { input := .set val
    neg := (negVal.toNat : ℕ)
    sign := (val.toNat / 2 ^ 31 : ℕ)
    signVerify := (highHalf val % 0x8000 * 2 : ℕ)
    carryLow := if negVal then (lowSum / 0x10000 : ℕ) else 0
    carryHigh := if negVal then (highSum / 0x10000 : ℕ) else 0
    absLow := if negVal then (lowSum % 0x10000 : ℕ) else lowHalf val
    absHigh := if negVal then (highSum % 0x10000 : ℕ) else highHalf val }

def getIn (x : AbsU32) : ValU32 := x.input.get

def getAbs (x : AbsU32) : ValU32 := ⟨x.absLow, x.absHigh⟩

structure verify (x : AbsU32) (isSigned : Fp) : Prop where
  sign : x.signVerify * 2⁻¹ + x.sign * 0x8000 = x.input.high
  neg : x.neg = x.sign * isSigned
  carryLow : (1 - x.neg) * x.carryLow = 0
  carryHigh : (1 - x.neg) * x.carryHigh = 0
  low : x.neg * (0xffff - x.input.low + 1 - 0x10000 * x.carryLow - x.absLow) + (1 - x.neg) * (x.absLow - x.input.low) = 0
  high : x.neg * (0xffff - x.input.high + x.carryLow - 0x10000 * x.carryHigh - x.absHigh) +
    (1 - x.neg) * (x.absHigh - x.input.high) = 0

structure Satisfied (x : AbsU32) (isSigned : Fp) : Prop where
  neg : BitReg.verify x.neg
  sign : BitReg.verify x.sign
  signVerify : RegU16.verify x.signVerify
  carryLow : BitReg.verify x.carryLow
  carryHigh : BitReg.verify x.carryHigh
  absLow : RegU16.verify x.absLow
  absHigh : RegU16.verify x.absHigh
  verify : x.verify isSigned

def toSign (x : AbsU32) : GetSign := ⟨x.sign, x.signVerify⟩

/-- The absolute value is taken as by `NegU32`. -/
def toNeg (x : AbsU32) : NegU32 := ⟨x.carryLow, x.carryHigh, x.absLow, x.absHigh⟩

theorem satisfied_iff {x : AbsU32} {isSigned : Fp} : x.Satisfied isSigned ↔
    BitReg.verify x.neg ∧ x.toSign.Satisfied x.input.high ∧ x.neg = x.sign * isSigned ∧ x.toNeg.Satisfied x.getIn x.neg := by
  constructor
  · intro h
    exact ⟨h.neg, ⟨h.sign, h.signVerify, h.verify.sign.symm⟩, h.verify.neg, ⟨h.carryLow, h.carryHigh, h.absLow, h.absHigh,
      ⟨h.verify.carryLow, h.verify.carryHigh, h.verify.low, h.verify.high⟩⟩⟩
  · rintro ⟨hneg, ⟨hsign, hsignVerify, hverify⟩, hproduct, ⟨hcarryLow, hcarryHigh, hlow, hhigh, ⟨h0, h1, h2, h3⟩⟩⟩
    exact ⟨hneg, hsign, hsignVerify, hcarryLow, hcarryHigh, hlow, hhigh, ⟨hverify.symm, hproduct, h0, h1, h2, h3⟩⟩

variable (val : Word)

theorem toSign_set (isSigned : Bool) : (set val isSigned).toSign = .set val := rfl

theorem toNeg_set (isSigned : Bool) : (set val isSigned).toNeg = .set val (val.msb && isSigned) := by
  rw [toNeg, set, NegU32.set]
  cases val.msb && isSigned <;> rfl

theorem set_satisfied (isSigned : Bool) : (set val isSigned).Satisfied (isSigned.toNat : ℕ) := by
  rw [satisfied_iff, toSign_set, toNeg_set]
  refine ⟨isBit_natCast (Bool.toNat_lt _), GetSign.set_satisfied val, ?_, NegU32.set_satisfied val _⟩
  change (((val.msb && isSigned).toNat : ℕ) : Fp) = ((val.toNat / 2 ^ 31 : ℕ) : Fp) * (isSigned.toNat : ℕ)
  rw [← GetSign.msb_toNat, ← cast_mul]
  cases val.msb <;> cases isSigned <;> rfl

theorem Satisfied.eq_set {x : AbsU32} {val : Word} {isSigned : Bool} (h : x.Satisfied (isSigned.toNat : ℕ)) (hval : x.getIn = .of val) :
    x = set val isSigned := by
  have hset := set_satisfied val isSigned
  rw [satisfied_iff] at h hset
  have hinput : x.input = (set val isSigned).input := RegU32.get_injective hval
  have hsign : x.toSign = (set val isSigned).toSign := GetSign.unique (hinput ▸ h.2.1) hset.2.1
  have hneg : x.neg = (set val isSigned).neg := by
    rw [h.2.2.1, hset.2.2.1, show x.sign = (set val isSigned).sign from congrArg GetSign.sign hsign]
  have habs : x.toNeg = (set val isSigned).toNeg := by
    apply NegU32.unique hset.1 _ hset.2.2.2
    rw [← hneg, ← show x.getIn = (set val isSigned).getIn from hval]
    exact h.2.2.2
  exact AbsU32.ext hinput hneg (congrArg GetSign.sign hsign) (congrArg GetSign.signVerify hsign) (congrArg NegU32.carryLow habs)
    (congrArg NegU32.carryHigh habs) (congrArg NegU32.outLow habs) (congrArg NegU32.outHigh habs)

theorem getAbs_set (isSigned : Bool) : (set val isSigned).getAbs = .of (if val.msb && isSigned then -val else val) := by
  rw [← NegU32.get_set, ← toNeg_set]
  rfl

end AbsU32

end VerifiableCompute.Circuit
