import VerifiableCompute.Circuit.Units

/-! The units that divide and shift. A quotient and a remainder are guessed and checked by a multiplication that
another unit does. The check takes the sum of the product and the remainder modulo `2 ^ 32`, and it leaves the
quotient by zero open: these are the two ways in which a satisfying assignment can be wrong. -/

namespace VerifiableCompute.Circuit

open Lib Rv32im UnitOp ValU32 Nat

/-! ### Signed division by absolute values -/

def DivKind.isSigned : DivKind → Bool
  | .u => false
  | .s => true

def negateIf (neg : Bool) (val : Word) : Word := if neg then -val else val

theorem negateIf_injective (neg : Bool) {v w : Word} (h : negateIf neg v = negateIf neg w) : v = w := by
  cases neg with
  | false => exact h
  | true => exact neg_injective h

theorem negateIf_negateIf (neg : Bool) (val : Word) : negateIf neg (negateIf neg val) = val := by
  cases neg with
  | false => rfl
  | true => exact neg_neg val

/-- The absolute value of an operand. -/
def absOf (kind : DivKind) (val : Word) : Word := negateIf (val.msb && kind.isSigned) val

variable (kind : DivKind)

theorem absOf_zero : absOf kind 0 = 0 := by cases kind <;> rfl

theorem absOf_ne_zero {val : Word} (h : val ≠ 0) : absOf kind val ≠ 0 := by
  unfold absOf negateIf
  split_ifs
  · exact neg_ne_zero.mpr h
  · exact h

variable {b : Word}

theorem out0_div (a : Word) (hb : b ≠ 0) : (div kind).out0 a b =
    negateIf ((a.msb && kind.isSigned) ^^ (b.msb && kind.isSigned)) (absOf kind a / absOf kind b) := by
  cases kind with
  | u =>
    simp only [absOf, negateIf, DivKind.isSigned, Bool.and_false, Bool.xor_false, Bool.false_eq_true, if_false]
    exact if_neg hb
  | s =>
    simp only [out0, hb, if_false, absOf, negateIf, DivKind.isSigned, Bool.and_true, BitVec.sdiv_eq]
    cases a.msb <;> cases b.msb <;> rfl

theorem out1_div (a : Word) (hb : b ≠ 0) :
    (div kind).out1 a b = negateIf (a.msb && kind.isSigned) (absOf kind a % absOf kind b) := by
  cases kind with
  | u =>
    simp only [absOf, negateIf, DivKind.isSigned, Bool.and_false, Bool.false_eq_true, if_false]
    exact if_neg hb
  | s =>
    simp only [out1, hb, if_false, absOf, negateIf, DivKind.isSigned, Bool.and_true, BitVec.srem_eq]
    cases a.msb <;> cases b.msb <;> rfl

theorem out0_div_zero (a : Word) : (div kind).out0 a 0 = 0xffffffff#32 := by cases kind <;> rfl

theorem out1_div_zero (a : Word) : (div kind).out1 a 0 = a := by cases kind <;> rfl

/-! ### Division -/

@[ext] structure UnitDivBlock where
  count : Reg
  isSigned : BitReg
  numer : AbsU32
  denom : AbsU32
  absQuot : RegU32
  total : RegU32
  absRemLow : RegU16
  absRemHigh : RegU16
  addTotRem : AddU32
  denomZero : IsZero
  verifyRem : AddU32
  negQuot : BitReg
  flipQuot : NegU32
  flipRem : NegU32

namespace UnitDivBlock

/-- Whether an operand of the division is negated. -/
def isNeg (val : ℕ) (operand : Word) : Bool := decide (val % 2 = 1) && operand.msb

def absOperand (val : ℕ) (operand : Word) : Word := if isNeg val operand then ~~~operand + 1 else operand

/-- The quotient and the remainder of absolute values, with all ones for a zero denominator. -/
def quotOf (absNumer absDenom : Word) : Word := if absDenom = 0 then 0xffffffff#32 else absNumer / absDenom

def remOf (absNumer absDenom : Word) : Word := if absDenom = 0 then absNumer else absNumer % absDenom

def negQuotOf (absDenom : Word) (negNumer negDenom : Bool) : Bool := if absDenom = 0 then false else negDenom ^^ negNumer

def set (wit : UnitWitness) : UnitDivBlock :=
  let val := wit.popUnitKind
  let negNumer := isNeg val wit.a
  let absNumer := absOperand val wit.a
  let negDenom := isNeg val wit.b
  let absDenom := absOperand val wit.b
  let absQuot := quotOf absNumer absDenom
  let absRem := remOf absNumer absDenom
  let total := absQuot * absDenom
  let negQuot := negQuotOf absDenom negNumer negDenom
  { count := wit.count.toNat
    isSigned := val
    numer := .set wit.a (val ≠ 0)
    denom := .set wit.b (val ≠ 0)
    absQuot := .set absQuot
    total := .set total
    absRemLow := lowHalf absRem
    absRemHigh := highHalf absRem
    addTotRem := .set total absRem false
    denomZero := .set (lowHalf wit.b + highHalf wit.b : ℕ)
    verifyRem := .set absDenom (~~~absRem) false
    negQuot := (negQuot.toNat : ℕ)
    flipQuot := .set absQuot negQuot
    flipRem := .set absRem negNumer }

def absRem (x : UnitDivBlock) : ValU32 := ⟨x.absRemLow, x.absRemHigh⟩

/-- One unless the denominator is zero. -/
def nz (x : UnitDivBlock) : Fp := 1 - x.denomZero.isZero

structure verify (x : UnitDivBlock) : Prop where
  negQuot : x.negQuot = x.nz * (x.denom.neg * (1 - x.numer.neg) + (1 - x.denom.neg) * x.numer.neg)
  low : x.addTotRem.get.low = x.numer.absLow
  high : x.addTotRem.get.high = x.numer.absHigh
  rem : x.nz * (1 - x.verifyRem.carryHigh) = 0

structure Satisfied (x : UnitDivBlock) : Prop where
  isSigned : BitReg.verify x.isSigned
  numer : x.numer.Satisfied x.isSigned
  denom : x.denom.Satisfied x.isSigned
  absRemLow : RegU16.verify x.absRemLow
  absRemHigh : RegU16.verify x.absRemHigh
  addTotRem : x.addTotRem.Satisfied x.total.get x.absRem
  denomZero : x.denomZero.Satisfied (x.denom.input.low + x.denom.input.high)
  verifyRem : x.verifyRem.Satisfied x.denom.getAbs ⟨0xffff - x.absRemLow, 0xffff - x.absRemHigh⟩
  negQuot : BitReg.verify x.negQuot
  flipQuot : x.flipQuot.Satisfied x.absQuot.get x.negQuot
  flipRem : x.flipRem.Satisfied x.absRem x.numer.neg
  verify : x.verify

def argument (x : UnitDivBlock) : UnitArgument where
  opts := x.isSigned * unitKinds + 4
  aLow := x.numer.input.low
  aHigh := x.numer.input.high
  bLow := x.denom.input.low
  bHigh := x.denom.input.high
  out0Low := x.flipQuot.outLow
  out0High := x.flipQuot.outHigh
  out1Low := x.flipRem.outLow
  out1High := x.flipRem.outHigh

/-- The multiplication that is required. -/
def pulled (x : UnitDivBlock) : UnitArgument where
  opts := 2 * unitKinds + 3
  aLow := x.absQuot.low
  aHigh := x.absQuot.high
  bLow := x.denom.absLow
  bHigh := x.denom.absHigh
  out0Low := x.total.low
  out0High := x.total.high
  out1Low := 0
  out1High := 0

/-- What an assignment guesses: a quotient and a remainder, whose total with the product is the numerator up to a
carry. -/
structure Guess (x : UnitDivBlock) (kind : DivKind) (a b q r : Word) : Prop where
  opts : x.argument.opts = (UnitOp.div kind).opts
  absQuot : x.absQuot.get = .of q
  total : q.toNat * (absOf kind b).toNat < 2 ^ 32
  sum : (q.toNat * (absOf kind b).toNat + r.toNat) % 2 ^ 32 = (absOf kind a).toNat
  carry : x.addTotRem.carryHigh = ((q.toNat * (absOf kind b).toNat + r.toNat) / 2 ^ 32 : ℕ)
  rem : b ≠ 0 → r.toNat < (absOf kind b).toNat
  out0 : x.argument.out0 = .of (negateIf (decide (b ≠ 0) && ((a.msb && kind.isSigned) ^^ (b.msb && kind.isSigned))) q)
  out1 : x.argument.out1 = .of (negateIf (a.msb && kind.isSigned) r)

theorem exists_kind {c : Fp} (h : BitReg.verify c) : ∃ kind : DivKind, c = (kind.isSigned.toNat : ℕ) := by
  obtain rfl | rfl := isBit_iff.mp h
  · exact ⟨.u, cast_zero.symm⟩
  · exact ⟨.s, cast_one.symm⟩

variable {x : UnitDivBlock} {b q d a : Word}

theorem nz_eq (h : x.denomZero.Satisfied (x.denom.input.low + x.denom.input.high))
    (hb : x.denom.getIn = .of b) : x.nz = ((decide (b ≠ 0)).toNat : ℕ) := by
  have hzero := IsZero.satisfied_iff.mp h
  have hlow := lowHalf_lt b
  have hhalves := halves_eq b
  have hsum : x.denom.input.low + x.denom.input.high = ((lowHalf b + highHalf b : ℕ) : Fp) := by
    rw [cast_add]
    exact congrArg₂ (· + ·) (congrArg low hb) (congrArg high hb)
  rw [nz, hzero, hsum, IsZero.set]
  by_cases h : b = 0
  · rw [h]
    decide
  · have hne : ((lowHalf b + highHalf b : ℕ) : Fp) ≠ 0 := by
      intro heq
      have hnat := natCast_inj_of_lt (by omega) (by omega) (heq.trans cast_zero.symm)
      apply h
      apply BitVec.eq_of_toNat_eq
      change b.toNat = 0
      omega
    rw [if_neg hne, decide_eq_true h, sub_zero, Bool.toNat_true, cast_one]

/-- The quotient is negative if the signs differ, unless the denominator is zero. -/
theorem negQuot_eq (c n d : Bool) : (((c && (n ^^ d)).toNat : ℕ) : Fp) =
    (c.toNat : ℕ) * ((d.toNat : ℕ) * (1 - (n.toNat : ℕ)) + (1 - (d.toNat : ℕ)) * (n.toNat : ℕ)) := by
  revert c n d
  decide

theorem upper_eq_zero (h : upper (q.setWidth 64 * d.setWidth 64) = 0) : q.toNat * d.toNat < 2 ^ 32 := by
  have hlt : q.toNat * d.toNat < 2 ^ 32 * 2 ^ 32 := Nat.mul_lt_mul'' q.isLt d.isLt
  have hwide (w : Word) : (w.setWidth 64).toNat = w.toNat := by
    rw [BitVec.toNat_setWidth]
    omega
  have hupper : (upper (q.setWidth 64 * d.setWidth 64)).toNat = 0 := congrArg BitVec.toNat h
  rw [upper, BitVec.toNat_setWidth, BitVec.toNat_ushiftRight, BitVec.toNat_mul, hwide, hwide, shiftRight_eq_div_pow] at hupper
  omega

theorem Satisfied.exists_guess (hx : x.Satisfied) (hpulled : x.pulled.Correct)
    (ha : x.numer.getIn = .of a) (hb : x.denom.getIn = .of b) : ∃ kind q r, x.Guess kind a b q r := by
  obtain ⟨kind, hkind⟩ := exists_kind hx.isSigned
  have hnumer : x.numer = .set a kind.isSigned := AbsU32.Satisfied.eq_set (hkind ▸ hx.numer) ha
  have hdenom : x.denom = .set b kind.isSigned := AbsU32.Satisfied.eq_set (hkind ▸ hx.denom) hb
  have hopts : x.pulled.opts = (mul .uu).opts := by
    change (2 * ((unitKinds : ℕ) : Fp) + 3) = _
    decide
  obtain ⟨q, d, hmul⟩ := hpulled.of_opts hopts
  have hquot : x.absQuot.get = .of q := congrArg UnitArgument.a hmul
  have habs : x.denom.getAbs = .of d := congrArg UnitArgument.b hmul
  have htotal : x.total.get = .of (q * d) := congrArg UnitArgument.out0 hmul
  have hzero : ValU32.of 0 = .of (upper (q.setWidth 64 * d.setWidth 64)) := ValU32.of_zero.trans (congrArg UnitArgument.out1 hmul)
  have hlt := upper_eq_zero (ValU32.of_injective hzero).symm
  obtain rfl : d = absOf kind b := by
    rw [hdenom, AbsU32.getAbs_set] at habs
    exact (ValU32.of_injective habs).symm
  obtain ⟨r, hr⟩ : ∃ r, x.absRem = .of r := ValU32.exists_of hx.absRemLow hx.absRemHigh
  have hadd : x.addTotRem = .set (q * absOf kind b) r false := by
    apply AddU32.Satisfied.eq_set
    rw [← htotal, ← hr]
    exact hx.addTotRem
  have hproduct : (q * absOf kind b).toNat = q.toNat * (absOf kind b).toNat := by
    rw [BitVec.toNat_mul, mod_eq_of_lt hlt]
  have hsum : q * absOf kind b + r = absOf kind a := by
    apply ValU32.of_injective
    calc ValU32.of (q * absOf kind b + r) = x.addTotRem.get := by rw [hadd, AddU32.get_set]; simp
      _ = x.numer.getAbs := ValU32.ext hx.verify.low hx.verify.high
      _ = .of (absOf kind a) := by rw [hnumer, AbsU32.getAbs_set]; rfl
  have hverifyRem : x.verifyRem = .set (absOf kind b) (~~~r) false := by
    apply AddU32.Satisfied.eq_set
    rw [← habs, ValU32.of_not, ← hr]
    exact hx.verifyRem
  have hnz := nz_eq hx.denomZero hb
  have hnumerNeg : x.numer.neg = ((a.msb && kind.isSigned).toNat : ℕ) := by rw [hnumer]; rfl
  have hdenomNeg : x.denom.neg = ((b.msb && kind.isSigned).toNat : ℕ) := by rw [hdenom]; rfl
  have hnegQuot : x.negQuot = ((decide (b ≠ 0) && ((a.msb && kind.isSigned) ^^ (b.msb && kind.isSigned))).toNat : ℕ) := by
    rw [hx.verify.negQuot, hnz, hnumerNeg, hdenomNeg, negQuot_eq]
  refine ⟨kind, q, r, ⟨?_, hquot, hlt, ?_, ?_, ?_, ?_, ?_⟩⟩
  · change x.isSigned * ((unitKinds : ℕ) : Fp) + 4 = _
    rw [hkind]
    cases kind <;> decide
  · rw [← hsum, BitVec.toNat_add, hproduct]
  · rw [hadd, AddU32.carryHigh_set, hproduct]
    rfl
  · intro hne
    have hcarry : x.verifyRem.carryHigh = (1 : ℕ) := by
      have hrem := hx.verify.rem
      rw [hnz, decide_eq_true hne, Bool.toNat_true, cast_one, one_mul, sub_eq_zero] at hrem
      exact hrem.symm.trans cast_one.symm
    rw [hverifyRem, AddU32.carryHigh_set, BitVec.toNat_not, Bool.toNat_false] at hcarry
    have hnat := natCast_inj_of_lt (by have := (absOf kind b).isLt; omega) (by norm_num) hcarry
    omega
  · have hflip := NegU32.unique hx.negQuot hx.flipQuot (by rw [hnegQuot, hquot]; exact NegU32.set_satisfied q _)
    change x.flipQuot.get = _
    rw [hflip, NegU32.get_set]
    rfl
  · have hflip := NegU32.unique hx.numer.neg hx.flipRem (by rw [hnumerNeg, hr]; exact NegU32.set_satisfied r _)
    change x.flipRem.get = _
    rw [hflip, NegU32.get_set]
    rfl

/-- With the options and operands of an operation, a correct argument is that of the operation. -/
theorem correct_iff_eq {arg : UnitArgument} {op : UnitOp} (hopts : arg.opts = op.opts) (ha : arg.a = .of a)
    (hb : arg.b = .of b) : arg.Correct ↔ arg.out0 = .of (op.out0 a b) ∧ arg.out1 = .of (op.out1 a b) := by
  constructor
  · intro h
    obtain ⟨a', b', rfl⟩ := h.of_opts hopts
    obtain rfl : a' = a := of_injective ha
    obtain rfl : b' = b := of_injective hb
    exact ⟨rfl, rfl⟩
  · rintro ⟨h0, h1⟩
    exact ⟨op, a, b, UnitArgument.ext_words hopts ha hb h0 h1⟩

/-- A guess is right exactly if nothing is carried out of its sum and its quotient by zero is all ones. -/
theorem Guess.correct_iff {kind : DivKind} {r : Word} (h : x.Guess kind a b q r)
    (ha : x.argument.a = .of a) (hb : x.argument.b = .of b) :
    x.argument.Correct ↔ x.addTotRem.carryHigh = 0 ∧ (b = 0 → x.absQuot.get = .of 0xffffffff#32) := by
  have hR := r.isLt
  have htotal := h.total
  have hsum := h.sum
  have hcarry : x.addTotRem.carryHigh = 0 ↔ q.toNat * (absOf kind b).toNat + r.toNat < 2 ^ 32 := by
    rw [h.carry]
    constructor
    · intro hzero
      have := natCast_inj_of_lt (by omega) (by norm_num) (hzero.trans cast_zero.symm)
      omega
    · intro hlt
      rw [div_eq_of_lt hlt, cast_zero]
  rw [correct_iff_eq h.opts ha hb, h.out0, h.out1, h.absQuot, hcarry]
  by_cases hzero : b = 0
  · subst hzero
    have hzeroNat : (absOf kind 0).toNat = 0 := by rw [absOf_zero]; rfl
    rw [hzeroNat, Nat.mul_zero, Nat.zero_add] at hsum ⊢
    have hr : r = absOf kind a := by
      apply BitVec.eq_of_toNat_eq
      rw [← hsum, mod_eq_of_lt hR]
    have hout1 : of (negateIf (a.msb && kind.isSigned) r) = .of ((div kind).out1 a 0) := by
      rw [out1_div_zero, hr, absOf, negateIf_negateIf]
    rw [out0_div_zero]
    exact ⟨fun hout => ⟨hR, fun _ => hout.1⟩, fun hquot => ⟨hquot.2 rfl, hout1⟩⟩
  · have hrem := h.rem hzero
    have hne := absOf_ne_zero kind hzero
    rw [out0_div kind a hzero, out1_div kind a hzero, decide_eq_true hzero, Bool.true_and]
    constructor
    · rintro ⟨hout0, -⟩
      refine ⟨?_, fun habs => absurd habs hzero⟩
      have hquot : q.toNat = (absOf kind a).toNat / (absOf kind b).toNat := by
        rw [negateIf_injective _ (of_injective hout0), BitVec.toNat_udiv]
      have hle : q.toNat * (absOf kind b).toNat ≤ (absOf kind a).toNat := hquot ▸ div_mul_le_self _ _
      omega
    · rintro ⟨hlt, -⟩
      rw [mod_eq_of_lt hlt, Nat.mul_comm] at hsum
      rw [BitVec.udiv_eq_of_mul_add_toNat ((BitVec.pos_iff_ne_zero _).mpr hne) hrem hsum, BitVec.umod_eq_of_mul_add_toNat hrem hsum]
      exact ⟨rfl, rfl⟩

theorem correct_iff (hx : x.Satisfied) (hpulled : x.pulled.Correct) (ha : x.argument.a = .of a)
    (hb : x.argument.b = .of b) :
    x.argument.Correct ↔ x.addTotRem.carryHigh = 0 ∧ (b = 0 → x.absQuot.get = .of 0xffffffff#32) := by
  obtain ⟨kind, q, r, h⟩ := hx.exists_guess hpulled ha hb
  exact h.correct_iff ha hb

/-! ### Columns for a claimed quotient -/

section Columns

variable (kind : DivKind) (count a b q r : Word)

/-- Whether the quotient is negated. -/
def negQuotient : Bool := decide (b ≠ 0) && ((a.msb && kind.isSigned) ^^ (b.msb && kind.isSigned))

/-- The columns in which `q` and `r` are claimed to be the quotient and the remainder of the absolute values. -/
def columns : UnitDivBlock where
  count := count.toNat
  isSigned := (kind.isSigned.toNat : ℕ)
  numer := .set a kind.isSigned
  denom := .set b kind.isSigned
  absQuot := .set q
  total := .set (q * absOf kind b)
  absRemLow := lowHalf r
  absRemHigh := highHalf r
  addTotRem := .set (q * absOf kind b) r false
  denomZero := .set (lowHalf b + highHalf b : ℕ)
  verifyRem := .set (absOf kind b) (~~~r) false
  negQuot := ((negQuotient kind a b).toNat : ℕ)
  flipQuot := .set q (negQuotient kind a b)
  flipRem := .set r (a.msb && kind.isSigned)

variable {kind count a b q r}

theorem columns_satisfied (hsum : q * absOf kind b + r = absOf kind a) (hrem : b ≠ 0 → r.toNat < (absOf kind b).toNat) :
    (columns kind count a b q r).Satisfied := by
  have hdenom := AbsU32.getAbs_set b kind.isSigned
  have hnumer := AbsU32.getAbs_set a kind.isSigned
  have hget : (AddU32.set (q * absOf kind b) r false).get = .of (absOf kind a) := by
    rw [AddU32.get_set, hsum]
    simp
  have hverifyRem : (AddU32.set (absOf kind b) (~~~r) false).Satisfied (AbsU32.set b kind.isSigned).getAbs
      ⟨0xffff - (lowHalf r : ℕ), 0xffff - (highHalf r : ℕ)⟩ := by
    have hnot := of_not r
    rw [of, of] at hnot
    rw [hdenom, ← hnot]
    exact AddU32.set_satisfied (absOf kind b) (~~~r) false
  have hzero : (IsZero.set (lowHalf b + highHalf b : ℕ)).Satisfied ((lowHalf b : ℕ) + (highHalf b : ℕ)) := by
    rw [IsZero.satisfied_iff, cast_add]
  have hnz : (columns kind count a b q r).nz = ((decide (b ≠ 0)).toNat : ℕ) := nz_eq hzero rfl
  refine ⟨isBit_natCast (Bool.toNat_lt _), AbsU32.set_satisfied a _, AbsU32.set_satisfied b _, of_low_verify _, of_high_verify _,
    AddU32.set_satisfied _ _ _, hzero, hverifyRem, isBit_natCast (Bool.toNat_lt _), NegU32.set_satisfied _ _, NegU32.set_satisfied _ _, ?_⟩
  refine ⟨?_, ?_, ?_, ?_⟩
  · rw [hnz]
    exact negQuot_eq _ _ _
  · exact congrArg low (hget.trans hnumer.symm)
  · exact congrArg high (hget.trans hnumer.symm)
  · rw [hnz]
    by_cases h : b = 0
    · rw [decide_eq_false (not_not.mpr h), Bool.toNat_false, cast_zero, zero_mul]
    · have hlt := hrem h
      have hcarry : ((absOf kind b).toNat + (~~~r).toNat + false.toNat) / 2 ^ 32 = 1 := by
        rw [BitVec.toNat_not, Bool.toNat_false]
        omega
      change _ * (1 - (AddU32.set (absOf kind b) (~~~r) false).carryHigh) = 0
      rw [AddU32.carryHigh_set, hcarry, cast_one, sub_self, mul_zero]

theorem upper_eq_zero_of_lt {q d : Word} (h : q.toNat * d.toNat < 2 ^ 32) : upper (q.setWidth 64 * d.setWidth 64) = 0 := by
  have hwide (w : Word) : (w.setWidth 64).toNat = w.toNat := by
    rw [BitVec.toNat_setWidth]
    omega
  apply BitVec.eq_of_toNat_eq
  rw [upper, BitVec.toNat_setWidth, BitVec.toNat_ushiftRight, BitVec.toNat_mul, hwide, hwide, shiftRight_eq_div_pow]
  change _ = 0
  omega

/-- The required multiplication is that of the claimed quotient and the denominator. -/
theorem pulled_columns (h : q.toNat * (absOf kind b).toNat < 2 ^ 32) :
    (columns kind count a b q r).pulled = (mul .uu).argument q (absOf kind b) := by
  apply UnitArgument.ext_words
  · change (2 * ((unitKinds : ℕ) : Fp) + 3) = ((mul .uu).opts : ℕ)
    decide
  · rfl
  · exact AbsU32.getAbs_set b kind.isSigned
  · rfl
  · change ⟨0, 0⟩ = of (upper _)
    rw [upper_eq_zero_of_lt h, of_zero]

theorem opts_columns : (columns kind count a b q r).argument.opts = (div kind).opts := by
  change ((kind.isSigned.toNat : ℕ) : Fp) * ((unitKinds : ℕ) : Fp) + 4 = _
  cases kind <;> decide

end Columns

/-! ### The written division -/

theorem quotOf_mul_add (n d : Word) : (quotOf n d).toNat * d.toNat + (remOf n d).toNat = n.toNat := by
  unfold quotOf remOf
  split_ifs with h
  · rw [h]
    exact Nat.zero_add _
  · rw [BitVec.toNat_udiv, BitVec.toNat_umod]
    exact div_add_mod' _ _

theorem quotOf_mul (n d : Word) : (quotOf n d * d).toNat = (quotOf n d).toNat * d.toNat := by
  have hsum := quotOf_mul_add n d
  rw [BitVec.toNat_mul, mod_eq_of_lt (by omega)]

theorem quotOf_mul_add_remOf (n d : Word) : quotOf n d * d + remOf n d = n := by
  apply BitVec.eq_of_toNat_eq
  rw [BitVec.toNat_add, quotOf_mul, quotOf_mul_add, mod_eq_of_lt n.isLt]

theorem remOf_lt (n : Word) (hd : d ≠ 0) : (remOf n d).toNat < d.toNat := by
  rw [remOf, if_neg hd, BitVec.toNat_umod]
  exact mod_lt _ (BitVec.toNat_pos_of_ne_zero hd)

section Written

variable (kind : DivKind) (count a b : Word)

theorem absOf_eq_zero_iff : absOf kind b = 0 ↔ b = 0 := by
  constructor
  · exact fun h => by_contra fun hne => absOf_ne_zero kind hne h
  · rintro rfl
    exact absOf_zero kind

/-- What is written claims the quotient and the remainder of the absolute values. -/
theorem set_eq : set ((div kind).witness count a b) =
    columns kind count a b (quotOf (absOf kind a) (absOf kind b)) (remOf (absOf kind a) (absOf kind b)) := by
  have hisNeg (val : Word) : isNeg (div kind).val val = (val.msb && kind.isSigned) := by
    rw [isNeg, Bool.and_comm]
    cases kind <;> rfl
  have habs (val : Word) : absOperand (div kind).val val = absOf kind val := by
    have hnot : ~~~val + 1 = -val := (BitVec.neg_eq_not_add val).symm
    rw [absOperand, hisNeg, hnot]
    rfl
  have hneg : negQuotOf (absOf kind b) (a.msb && kind.isSigned) (b.msb && kind.isSigned) = negQuotient kind a b := by
    rw [negQuotOf, negQuotient, Bool.xor_comm]
    by_cases h : b = 0
    · rw [if_pos ((absOf_eq_zero_iff kind b).mpr h), decide_eq_false (not_not.mpr h), Bool.false_and]
    · rw [if_neg (mt (absOf_eq_zero_iff kind b).mp h), decide_eq_true h, Bool.true_and]
  have hval : decide ((div kind).val ≠ 0) = kind.isSigned := by cases kind <;> rfl
  have hval' : (div kind).val = kind.isSigned.toNat := by cases kind <;> rfl
  unfold set columns
  simp only [popUnitKind_witness, hval]
  simp only [witness, hisNeg, habs, hneg]
  rw [hval']

theorem set_satisfied : (set ((div kind).witness count a b)).Satisfied := by
  rw [set_eq]
  exact columns_satisfied (quotOf_mul_add_remOf _ _) fun h => remOf_lt _ (absOf_ne_zero kind h)

theorem pulled_set_correct : (set ((div kind).witness count a b)).pulled.Correct := by
  have hsum := quotOf_mul_add (absOf kind a) (absOf kind b)
  rw [set_eq]
  exact ⟨_, _, _, pulled_columns (by omega)⟩

theorem argument_set : (set ((div kind).witness count a b)).argument = (div kind).argument a b := by
  have hsum := quotOf_mul_add (absOf kind a) (absOf kind b)
  have hlt := (absOf kind a).isLt
  have hsatisfied := set_satisfied kind count a b
  have hpulled := pulled_set_correct kind count a b
  rw [set_eq] at hsatisfied hpulled ⊢
  have hcorrect : (columns kind count a b (quotOf (absOf kind a) (absOf kind b)) (remOf (absOf kind a) (absOf kind b))).argument.Correct := by
    rw [correct_iff hsatisfied hpulled rfl rfl]
    constructor
    · change (AddU32.set _ _ false).carryHigh = 0
      rw [AddU32.carryHigh_set, quotOf_mul, Bool.toNat_false, Nat.add_zero, hsum, div_eq_of_lt hlt, cast_zero]
    · rintro rfl
      rw [quotOf, if_pos (absOf_zero kind)]
      rfl
  obtain ⟨h0, h1⟩ := (correct_iff_eq opts_columns rfl rfl).mp hcorrect
  exact UnitArgument.ext_words opts_columns rfl rfl h0 h1

end Written

/-- Two assignments that satisfy the constraints: `7` divided by `0` is `0`, and `0` divided by `3` is `0x55555555` with
the remainder `1`. -/
theorem forged_divisions :
    (columns .u 1 7 0 0 7).Satisfied ∧ (columns .u 1 7 0 0 7).pulled.Correct ∧ ¬(columns .u 1 7 0 0 7).argument.Correct ∧
      (columns .u 1 0 3 0x55555555 1).Satisfied ∧ (columns .u 1 0 3 0x55555555 1).pulled.Correct ∧
        ¬(columns .u 1 0 3 0x55555555 1).argument.Correct := by
  have hzero : (columns .u 1 7 0 0 7).Satisfied := columns_satisfied rfl fun h => absurd rfl h
  have hzero' : (columns .u 1 7 0 0 7).pulled.Correct := ⟨_, _, _, pulled_columns (by decide)⟩
  have hwrap : (columns .u 1 0 3 0x55555555 1).Satisfied := columns_satisfied (by decide) fun _ => by decide
  have hwrap' : (columns .u 1 0 3 0x55555555 1).pulled.Correct := ⟨_, _, _, pulled_columns (by decide)⟩
  refine ⟨hzero, hzero', ?_, hwrap, hwrap', ?_⟩
  · rw [correct_iff hzero hzero' rfl rfl]
    rintro ⟨-, hquot⟩
    exact absurd (ValU32.of_injective (hquot rfl)) (by decide)
  · rw [correct_iff hwrap hwrap' rfl rfl]
    rintro ⟨hcarry, -⟩
    change (AddU32.set _ _ false).carryHigh = 0 at hcarry
    rw [AddU32.carryHigh_set] at hcarry
    exact absurd (natCast_inj_of_lt (by decide) (by decide) (hcarry.trans Nat.cast_zero.symm)) (by decide)

end UnitDivBlock

/-! ### Shifts -/

@[ext] structure UnitShiftBlock where
  count : Reg
  a : RegU32
  b : RegU32
  opt : OneHot 3
  bits : Fin 8 → BitReg
  byte1 : RegU8
  po2First3 : Reg
  po2 : RegU32
  signA : GetSign
  neg : BitReg
  maybeNegA : RegU32
  maybeNegOut : RegU32
  out : RegU32
  out2 : RegU32

open UnitShiftBlock

def complementIf (neg : Bool) (val : Word) : Word := if neg then ~~~val else val

namespace UnitShiftBlock

/-- A left shift multiplies by a power of two, a right shift divides by it. -/
def maybeNegOutOf (val : ℕ) (mna po2 : Word) : Word :=
  if val = 0 then (mna.setWidth 64 * po2.setWidth 64).setWidth 32 else mna / po2

def outOf (val : ℕ) (neg : Bool) (mna po2 : Word) : Word :=
  if val = 0 then (mna.setWidth 64 * po2.setWidth 64).setWidth 32 else complementIf neg (mna / po2)

def out2Of (val : ℕ) (mna po2 : Word) : Word := if val = 0 then upper (mna.setWidth 64 * po2.setWidth 64) else mna % po2

def set (wit : UnitWitness) : UnitShiftBlock :=
  let val := wit.popUnitKind
  let po2 := 1#32 <<< (wit.b &&& 31#32)
  let neg := decide (val = 2) && wit.a.msb
  let mna := complementIf neg wit.a
  { count := wit.count.toNat
    a := .set wit.a
    b := .set wit.b
    opt := .set 3 val
    bits := fun i => (wit.b.toNat >>> (i : ℕ) % 2 : ℕ)
    byte1 := (wit.b.toNat / 2 ^ 8 % 0x100 : ℕ)
    po2First3 := (1#32 <<< (wit.b &&& 7#32)).toNat
    po2 := .set po2
    signA := .set wit.a
    neg := (neg.toNat : ℕ)
    maybeNegA := .set mna
    maybeNegOut := .set (maybeNegOutOf val mna po2)
    out := .set (outOf val neg mna po2)
    out2 := .set (out2Of val mna po2) }

/-- The power of two that the three lowest bits stand for. -/
def first3 (x : UnitShiftBlock) : Fp := cond (x.bits 0) 2 1 * cond (x.bits 1) 4 1 * cond (x.bits 2) 16 1

structure verify (x : UnitShiftBlock) : Prop where
  low : x.byte1 * 256 + ofBits 8 (fun i => x.bits (Fin.ofNat 8 i)) = x.b.low
  po2First3 : x.first3 = x.po2First3
  po2Low : x.po2.low = (1 - x.bits 4) * (x.po2First3 * cond (x.bits 3) 256 1)
  po2High : x.po2.high = x.bits 4 * (x.po2First3 * cond (x.bits 3) 256 1)
  neg : x.neg = x.opt.bits 2 * x.signA.sign
  maybeNegALow : x.maybeNegA.low = cond x.neg (0xffff - x.a.low) x.a.low
  maybeNegAHigh : x.maybeNegA.high = cond x.neg (0xffff - x.a.high) x.a.high
  maybeNegOutLow : x.maybeNegOut.low = cond x.neg (0xffff - x.out.low) x.out.low
  maybeNegOutHigh : x.maybeNegOut.high = cond x.neg (0xffff - x.out.high) x.out.high

structure Satisfied (x : UnitShiftBlock) : Prop where
  opt : x.opt.Satisfied
  bits (i : Fin 8) : BitReg.verify (x.bits i)
  byte1 : RegU8.verify x.byte1
  signA : x.signA.Satisfied x.a.get.high
  neg : BitReg.verify x.neg
  verify : x.verify

def argument (x : UnitShiftBlock) : UnitArgument where
  opts := x.opt.get * unitKinds + 5
  aLow := x.a.low
  aHigh := x.a.high
  bLow := x.b.low
  bHigh := x.b.high
  out0Low := x.out.low
  out0High := x.out.high
  out1Low := 0
  out1High := 0

/-- The multiplication or the division that is required. -/
def pulled (x : UnitShiftBlock) : UnitArgument where
  opts := x.opt.bits 0 * (2 * unitKinds + 3) + x.opt.bits 1 * (0 * unitKinds + 4) + x.opt.bits 2 * (0 * unitKinds + 4)
  aLow := x.maybeNegA.low
  aHigh := x.maybeNegA.high
  bLow := x.po2.low
  bHigh := x.po2.high
  out0Low := x.maybeNegOut.low
  out0High := x.maybeNegOut.high
  out1Low := x.out2.low
  out1High := x.out2.high

/-! ### Powers of two -/

theorem mod_eq_bits (b : Word) : b.toNat % 32 = (b.getLsbD 0).toNat + 2 * (b.getLsbD 1).toNat + 4 * (b.getLsbD 2).toNat +
    8 * (b.getLsbD 3).toNat + 16 * (b.getLsbD 4).toNat := by
  have hbit (i : ℕ) : (b.getLsbD i).toNat = b.toNat / 2 ^ i % 2 := by rw [← BitVec.testBit_toNat, toNat_testBit]
  rw [hbit, hbit, hbit, hbit, hbit]
  omega

theorem first3_eq (c0 c1 c2 : Bool) :
    cond ((c0.toNat : ℕ) : Fp) 2 1 * cond ((c1.toNat : ℕ) : Fp) 4 1 * cond ((c2.toNat : ℕ) : Fp) 16 1 =
      (1#32 <<< (c0.toNat + 2 * c1.toNat + 4 * c2.toNat)).toNat := by
  revert c0 c1 c2
  decide

theorem po2_eq (c0 c1 c2 c3 c4 : Bool) :
    (⟨(1 - ((c4.toNat : ℕ) : Fp)) * (((1#32 <<< (c0.toNat + 2 * c1.toNat + 4 * c2.toNat)).toNat : Fp) * cond ((c3.toNat : ℕ) : Fp) 256 1),
      ((c4.toNat : ℕ) : Fp) * (((1#32 <<< (c0.toNat + 2 * c1.toNat + 4 * c2.toNat)).toNat : Fp) * cond ((c3.toNat : ℕ) : Fp) 256 1)⟩ : ValU32) =
      .of (1#32 <<< (c0.toNat + 2 * c1.toNat + 4 * c2.toNat + 8 * c3.toNat + 16 * c4.toNat)) := by
  revert c0 c1 c2 c3 c4
  decide

theorem and_31_toNat (b : Word) : (b &&& 0x1f#32).toNat = b.toNat % 32 := by
  rw [BitVec.toNat_and]
  exact and_two_pow_sub_one_eq_mod b.toNat 5

def powerOf (b : Word) : Word := 1#32 <<< (b.toNat % 32)

variable {x : UnitShiftBlock} {b a : Word} {kind : ShiftKind}

theorem Satisfied.bits_eq (hx : x.Satisfied) (hb : x.b.get = .of b) :
    x.bits = fun i : Fin 8 => (((b.getLsbD i).toNat : ℕ) : Fp) := by
  have hlow : ofBits 8 (fun i => x.bits (Fin.ofNat 8 i)) + x.byte1 * ((0x100 : ℕ) : Fp) =
      ((b.toNat % 2 ^ 8 : ℕ) : Fp) + ((b.toNat / 2 ^ 8 % 0x100 : ℕ) : Fp) * ((0x100 : ℕ) : Fp) := by
    have hhalf : lowHalf b = b.toNat % 2 ^ 8 + b.toNat / 2 ^ 8 % 0x100 * 0x100 := by
      unfold lowHalf
      omega
    rw [← cast_mul, ← cast_add, ← hhalf]
    calc ofBits 8 (fun i => x.bits (Fin.ofNat 8 i)) + x.byte1 * ((0x100 : ℕ) : Fp) =
        x.byte1 * 256 + ofBits 8 (fun i => x.bits (Fin.ofNat 8 i)) := by push_cast; ring
      _ = x.b.low := hx.verify.low
      _ = lowHalf b := congrArg low hb
  have hbelow : Limb 0x100 (ofBits 8 fun i => x.bits (Fin.ofNat 8 i)) := ofBits_below (fun i _ => hx.bits _) (by norm_num)
  obtain ⟨hbits, -⟩ := limbs_unique hbelow (below_natCast (mod_lt _ (by norm_num)) (by norm_num)) hx.byte1
    (below_natCast (mod_lt _ (by norm_num)) (by norm_num)) (by norm_num) hlow
  have hsame := ofBits_unique (fun i _ => hx.bits _) (fun i _ => isBit_natCast (mod_lt _ Nat.zero_lt_two)) (by norm_num)
    (hbits.trans (ofBits_natCast 8 b.toNat).symm)
  funext i
  have hi := hsame i i.isLt
  rwa [Fin.ofNat_val_eq_self, UnitBitBlock.bit_eq] at hi

theorem powerOf_eq (b : Word) : powerOf b = 1#32 <<< ((b.getLsbD 0).toNat + 2 * (b.getLsbD 1).toNat + 4 * (b.getLsbD 2).toNat +
    8 * (b.getLsbD 3).toNat + 16 * (b.getLsbD 4).toNat) := by
  rw [powerOf, mod_eq_bits]

theorem Satisfied.po2_eq (hx : x.Satisfied) (hb : x.b.get = .of b) : x.po2.get = .of (powerOf b) := by
  have hfirst3 := hx.verify.po2First3
  have hlow := hx.verify.po2Low
  have hhigh := hx.verify.po2High
  rw [first3, hx.bits_eq hb] at hfirst3
  rw [hx.bits_eq hb, ← hfirst3] at hlow hhigh
  rw [powerOf_eq, ← UnitShiftBlock.po2_eq, ← first3_eq]
  exact ValU32.ext hlow hhigh

/-! ### Shifts by multiplication and division -/

def complemented (kind : ShiftKind) (a : Word) : Bool := decide (kind = .ra) && a.msb

/-- The operation that does the work. -/
def required : ShiftKind → UnitOp
  | .ll => .mul .uu
  | .rl => .div .u
  | .ra => .div .u

theorem complementIf_complementIf (neg : Bool) (val : Word) : complementIf neg (complementIf neg val) = val := by
  cases neg with
  | false => rfl
  | true => exact BitVec.not_not

theorem powerOf_ne_zero (b : Word) : powerOf b ≠ 0 := by
  intro h
  have hpow : 2 ^ (b.toNat % 32) < 2 ^ 32 := Nat.pow_lt_pow_right Nat.one_lt_two (mod_lt _ (by norm_num))
  have hzero : (powerOf b).toNat = 0 := congrArg BitVec.toNat h
  rw [powerOf, BitVec.toNat_shiftLeft, Nat.shiftLeft_eq, BitVec.toNat_ofNat, one_mod, Nat.one_mul, mod_eq_of_lt hpow] at hzero
  exact absurd hzero (Nat.two_pow_pos _).ne'

theorem div_powerOf (a b : Word) : a / powerOf b = a >>> (b.toNat % 32) := by
  apply BitVec.udiv_twoPow_eq_of_lt
  exact mod_lt _ (by norm_num)

theorem out0_shift (kind : ShiftKind) (a b : Word) : (shift kind).out0 a b =
    complementIf (complemented kind a) ((required kind).out0 (complementIf (complemented kind a) a) (powerOf b)) := by
  have hmod := and_31_toNat b
  cases kind with
  | ll =>
    change a <<< (b &&& 0x1f#32).toNat = a * powerOf b
    rw [hmod, BitVec.shiftLeft_eq_mul_twoPow]
    rfl
  | rl =>
    change a >>> (b &&& 0x1f#32).toNat = if powerOf b = 0 then _ else a / powerOf b
    rw [hmod, if_neg (powerOf_ne_zero b), div_powerOf]
  | ra =>
    change a.sshiftRight (b &&& 0x1f#32).toNat =
      complementIf a.msb (if powerOf b = 0 then _ else complementIf a.msb a / powerOf b)
    rw [hmod, if_neg (powerOf_ne_zero b), div_powerOf]
    cases hmsb : a.msb with
    | false => exact BitVec.sshiftRight_eq_of_msb_false hmsb
    | true => exact BitVec.sshiftRight_eq_of_msb_true hmsb

theorem exists_shiftKind {opt : OneHot 3} (h : opt.Satisfied) : ∃ kind : ShiftKind, opt = .set 3 (shift kind).val := by
  obtain ⟨val, hval, rfl⟩ := h.exists_set (by norm_num)
  obtain rfl | rfl | rfl : val = 0 ∨ val = 1 ∨ val = 2 := by omega
  · exact ⟨.ll, rfl⟩
  · exact ⟨.rl, rfl⟩
  · exact ⟨.ra, rfl⟩

theorem pulled_opts (h : x.opt = .set 3 (shift kind).val) : x.pulled.opts = (required kind).opts := by
  change x.opt.bits 0 * (2 * ((unitKinds : ℕ) : Fp) + 3) + x.opt.bits 1 * (0 * ((unitKinds : ℕ) : Fp) + 4) +
    x.opt.bits 2 * (0 * ((unitKinds : ℕ) : Fp) + 4) = _
  rw [h]
  cases kind <;> decide

theorem argument_opts (h : x.opt = .set 3 (shift kind).val) : x.argument.opts = (shift kind).opts := by
  change x.opt.get * ((unitKinds : ℕ) : Fp) + 5 = _
  rw [h]
  cases kind <;> decide

theorem cond_of_not (neg : Bool) (val : ValU32) (w : Word) (h : val = .of w) :
    (⟨cond ((neg.toNat : ℕ) : Fp) (0xffff - val.low) val.low, cond ((neg.toNat : ℕ) : Fp) (0xffff - val.high) val.high⟩ : ValU32) =
      .of (complementIf neg w) := by
  rw [h]
  cases neg with
  | false =>
    rw [Bool.toNat_false, cast_zero, cond_zero, cond_zero]
    rfl
  | true =>
    rw [Bool.toNat_true, cast_one, cond_one, cond_one]
    exact (of_not w).symm

theorem Satisfied.neg_eq (hx : x.Satisfied) (hkind : x.opt = .set 3 (shift kind).val)
    (ha : x.a.get = .of a) : x.neg = ((complemented kind a).toNat : ℕ) := by
  have hhigh : x.a.get.high = highHalf a := congrArg high ha
  have hsign : x.signA = .set a := GetSign.unique (hhigh ▸ hx.signA) (GetSign.set_satisfied a)
  rw [hx.verify.neg, hkind, hsign, GetSign.sign_set, complemented]
  cases kind <;> cases a.msb <;> decide

/-- The columns with the complement stand for a word exactly if the others stand for its complement. -/
theorem eq_complement {neg : Bool} {c v : ValU32} (hlow : c.low = cond ((neg.toNat : ℕ) : Fp) (0xffff - v.low) v.low)
    (hhigh : c.high = cond ((neg.toNat : ℕ) : Fp) (0xffff - v.high) v.high) {w : Word} (h : c = .of w) :
    v = .of (complementIf neg w) := by
  subst h
  cases neg with
  | false =>
    rw [Bool.toNat_false, cast_zero, cond_zero] at hlow hhigh
    exact ValU32.ext hlow.symm hhigh.symm
  | true =>
    rw [Bool.toNat_true, cast_one, cond_one] at hlow hhigh
    refine Eq.trans ?_ (ValU32.of_not w).symm
    rw [hlow, hhigh, sub_sub_cancel, sub_sub_cancel]

/-- A satisfying assignment whose multiplication or division is correct is right. -/
theorem sound (hx : x.Satisfied) (hpulled : x.pulled.Correct) (ha : x.argument.a = .of a)
    (hb : x.argument.b = .of b) : ∃ kind, x.argument = (shift kind).argument a b := by
  obtain ⟨kind, hkind⟩ := exists_shiftKind hx.opt
  obtain ⟨m, p, hop⟩ := hpulled.of_opts (pulled_opts hkind)
  have hneg := hx.neg_eq hkind ha
  have hm : x.maybeNegA.get = .of (complementIf (complemented kind a) a) := by
    rw [← cond_of_not _ _ a ha, ← hneg]
    exact ValU32.ext hx.verify.maybeNegALow hx.verify.maybeNegAHigh
  obtain rfl : m = complementIf (complemented kind a) a := ValU32.of_injective ((congrArg UnitArgument.a hop).symm.trans hm)
  obtain rfl : p = powerOf b := ValU32.of_injective ((congrArg UnitArgument.b hop).symm.trans (hx.po2_eq hb))
  have hout := hx.verify.maybeNegOutLow
  have hout' := hx.verify.maybeNegOutHigh
  rw [hneg] at hout hout'
  refine ⟨kind, UnitArgument.ext_words (argument_opts hkind) ha hb ?_ ValU32.of_zero.symm⟩
  change x.out.get = .of ((shift kind).out0 a b)
  rw [out0_shift]
  exact eq_complement hout hout' (congrArg UnitArgument.out0 hop)

/-! ### The written shift -/

section Written

variable (kind : ShiftKind) (count a b : Word)

def columns : UnitShiftBlock where
  count := count.toNat
  a := .set a
  b := .set b
  opt := .set 3 (UnitOp.shift kind).val
  bits i := (b.toNat >>> (i : ℕ) % 2 : ℕ)
  byte1 := (b.toNat / 2 ^ 8 % 0x100 : ℕ)
  po2First3 := (1#32 <<< (b &&& 7#32)).toNat
  po2 := .set (powerOf b)
  signA := .set a
  neg := ((complemented kind a).toNat : ℕ)
  maybeNegA := .set (complementIf (complemented kind a) a)
  maybeNegOut := .set ((required kind).out0 (complementIf (complemented kind a) a) (powerOf b))
  out := .set ((UnitOp.shift kind).out0 a b)
  out2 := .set ((required kind).out1 (complementIf (complemented kind a) a) (powerOf b))

theorem set_eq : set ((shift kind).witness count a b) = columns kind count a b := by
  have hpo2 : 1#32 <<< (b &&& 31#32) = powerOf b := by
    rw [powerOf, ← and_31_toNat]
    rfl
  have hneg : (decide ((shift kind).val = 2) && a.msb) = complemented kind a := by cases kind <;> rfl
  have hout : maybeNegOutOf (shift kind).val (complementIf (complemented kind a) a) (powerOf b) =
      (required kind).out0 (complementIf (complemented kind a) a) (powerOf b) := by
    cases kind with
    | ll => exact Multiply.product_setWidth _ _ false false
    | rl => exact (if_neg (powerOf_ne_zero b)).symm
    | ra => exact (if_neg (powerOf_ne_zero b)).symm
  have hout' : outOf (shift kind).val (complemented kind a) (complementIf (complemented kind a) a) (powerOf b) =
      (shift kind).out0 a b := by
    rw [out0_shift, ← hout]
    cases kind <;> rfl
  have hout2 : out2Of (shift kind).val (complementIf (complemented kind a) a) (powerOf b) =
      (required kind).out1 (complementIf (complemented kind a) a) (powerOf b) := by
    cases kind with
    | ll => rfl
    | rl => exact (if_neg (powerOf_ne_zero b)).symm
    | ra => exact (if_neg (powerOf_ne_zero b)).symm
  unfold set columns
  simp only [popUnitKind_witness]
  simp only [witness, hpo2, hneg, hout, hout', hout2]

theorem columns_satisfied : (columns kind count a b).Satisfied := by
  have hbits : (columns kind count a b).bits = fun i : Fin 8 => (((b.getLsbD i).toNat : ℕ) : Fp) :=
    funext fun i => UnitBitBlock.bit_eq b i
  have hfirst3 : (columns kind count a b).first3 = (columns kind count a b).po2First3 := by
    have hand : (b &&& 7#32).toNat = (b.getLsbD 0).toNat + 2 * (b.getLsbD 1).toNat + 4 * (b.getLsbD 2).toNat := by
      have hmod := mod_eq_bits b
      have hlt : (b.getLsbD 0).toNat < 2 ∧ (b.getLsbD 1).toNat < 2 ∧ (b.getLsbD 2).toNat < 2 :=
        ⟨Bool.toNat_lt _, Bool.toNat_lt _, Bool.toNat_lt _⟩
      rw [BitVec.toNat_and, show (7#32).toNat = 2 ^ 3 - 1 from rfl, and_two_pow_sub_one_eq_mod]
      omega
    rw [first3, hbits, first3_eq]
    exact congrArg (fun n : ℕ => ((1#32 <<< n).toNat : Fp)) hand.symm
  have hpo2 : (columns kind count a b).po2.get =
      ⟨(1 - (columns kind count a b).bits 4) * ((columns kind count a b).po2First3 * cond ((columns kind count a b).bits 3) 256 1),
        (columns kind count a b).bits 4 * ((columns kind count a b).po2First3 * cond ((columns kind count a b).bits 3) 256 1)⟩ := by
    rw [← hfirst3, first3, hbits, first3_eq, po2_eq]
    exact congrArg of (powerOf_eq b)
  have hmaybeNegA := cond_of_not (complemented kind a) _ a rfl
  have hmaybeNegOut := cond_of_not (complemented kind a) _ ((shift kind).out0 a b) rfl
  rw [out0_shift, complementIf_complementIf, ← out0_shift] at hmaybeNegOut
  refine ⟨OneHot.set_satisfied (lt_succ_of_le (val_le _)), fun i => isBit_natCast (mod_lt _ Nat.zero_lt_two),
    below_natCast (mod_lt _ (by norm_num)) (by norm_num), GetSign.set_satisfied a, isBit_natCast (Bool.toNat_lt _), ?_⟩
  refine ⟨?_, hfirst3, congrArg low hpo2, congrArg high hpo2, ?_, (congrArg low hmaybeNegA).symm,
    (congrArg high hmaybeNegA).symm, (congrArg low hmaybeNegOut).symm, (congrArg high hmaybeNegOut).symm⟩
  · have hbyte : ofBits 8 (fun i => (columns kind count a b).bits (Fin.ofNat 8 i)) = ((b.toNat % 2 ^ 8 : ℕ) : Fp) := by
      refine Eq.trans ?_ (ofBits_natCast 8 b.toNat)
      apply ofBits_congr
      intro i hi
      change ((b.toNat >>> ((Fin.ofNat 8 i : Fin 8) : ℕ) % 2 : ℕ) : Fp) = _
      rw [Fin.val_ofNat, mod_eq_of_lt hi]
    have hhalf : b.toNat / 2 ^ 8 % 0x100 * 256 + b.toNat % 2 ^ 8 = lowHalf b := by
      unfold lowHalf
      omega
    rw [hbyte]
    change ((b.toNat / 2 ^ 8 % 0x100 : ℕ) : Fp) * 256 + _ = (lowHalf b : Fp)
    rw [← hhalf]
    push_cast
    rfl
  · change (((complemented kind a).toNat : ℕ) : Fp) = (OneHot.set 3 (shift kind).val).bits 2 * (GetSign.set a).sign
    rw [GetSign.sign_set, complemented]
    cases kind <;> cases a.msb <;> decide

theorem pulled_columns : (columns kind count a b).pulled =
    (required kind).argument (complementIf (complemented kind a) a) (powerOf b) :=
  UnitArgument.ext_words (pulled_opts rfl) rfl rfl rfl rfl

theorem argument_columns : (columns kind count a b).argument = (shift kind).argument a b :=
  UnitArgument.ext_words (argument_opts rfl) rfl rfl rfl of_zero.symm

end Written

end UnitShiftBlock

/-! ### The two units -/

/-- A satisfying assignment for a division, with a correct multiplication, is right exactly if nothing is carried out of
the sum of product and remainder and the guessed quotient by zero is all ones. -/
def UnitDivBlock.RightUpTo (x : UnitDivBlock) : Prop :=
  x.Satisfied → x.pulled.Correct → ∀ a b : Word, x.argument.a = .of a → x.argument.b = .of b →
    ((∃ kind, x.argument = (UnitOp.div kind).argument a b) ↔
      x.addTotRem.carryHigh = 0 ∧ (b = 0 → x.absQuot.get = .of 0xffffffff#32))

/-- A satisfying assignment for a shift, with a correct multiplication or division, is right. -/
def UnitShiftBlock.Right (x : UnitShiftBlock) : Prop :=
  x.Satisfied → x.pulled.Correct → ∀ a b : Word, x.argument.a = .of a → x.argument.b = .of b →
    ∃ kind, x.argument = (UnitOp.shift kind).argument a b

theorem UnitDivBlock.correct_iff_exists {x : UnitDivBlock} (hx : x.Satisfied) {a : Word} (ha : x.argument.a = .of a)
    (hb : x.argument.b = .of b) : x.argument.Correct ↔ ∃ kind, x.argument = (div kind).argument a b := by
  obtain ⟨kind, hkind⟩ := exists_kind hx.isSigned
  have hopts : x.argument.opts = (div kind).opts := by
    change x.isSigned * ((unitKinds : ℕ) : Fp) + 4 = _
    rw [hkind]
    cases kind <;> decide
  constructor
  · intro h
    obtain ⟨h0, h1⟩ := (correct_iff_eq hopts ha hb).mp h
    exact ⟨kind, UnitArgument.ext_words hopts ha hb h0 h1⟩
  · rintro ⟨kind, h⟩
    exact ⟨_, a, b, h⟩

/-- Divisions are right up to a carry and the quotient by zero, shifts are right, and what is written for an operation
satisfies the constraints, is right and requires what is right. -/
theorem divisions_and_shifts (x : UnitDivBlock) (y : UnitShiftBlock) : x.RightUpTo ∧ y.Right ∧
    Complete UnitDivBlock.Satisfied UnitDivBlock.argument UnitDivBlock.set (Set.range .div) ∧
    Complete UnitShiftBlock.Satisfied UnitShiftBlock.argument UnitShiftBlock.set (Set.range .shift) ∧
    (∀ kind count a b, (UnitDivBlock.set ((UnitOp.div kind).witness count a b)).pulled.Correct) ∧
    ∀ kind count a b, (UnitShiftBlock.set ((UnitOp.shift kind).witness count a b)).pulled.Correct := by
  refine ⟨?_, fun hy hpulled a b ha hb => UnitShiftBlock.sound hy hpulled ha hb, ?_, ?_, UnitDivBlock.pulled_set_correct, ?_⟩
  · intro hx hpulled a b ha hb
    rw [← UnitDivBlock.correct_iff_exists hx ha hb]
    exact UnitDivBlock.correct_iff hx hpulled ha hb
  · rintro _ ⟨kind, rfl⟩ count a b
    exact ⟨UnitDivBlock.set_satisfied kind count a b, UnitDivBlock.argument_set kind count a b⟩
  · rintro _ ⟨kind, rfl⟩ count a b
    rw [UnitShiftBlock.set_eq]
    exact ⟨UnitShiftBlock.columns_satisfied kind count a b, UnitShiftBlock.argument_columns kind count a b⟩
  · intro kind count a b
    rw [UnitShiftBlock.set_eq]
    exact ⟨_, _, _, UnitShiftBlock.pulled_columns kind count a b⟩

/-- With `7` and `2` the unit makes `3` and `1`. -/
theorem divisions_and_shifts_seven : ∃ kind, (UnitDivBlock.set ((UnitOp.div .u).witness 1 7 2)).argument =
    (UnitOp.div kind).argument 7 2 := by
  refine ((divisions_and_shifts _ (UnitShiftBlock.set ((UnitOp.shift .ll).witness 1 7 2))).1 (UnitDivBlock.set_satisfied .u 1 7 2)
    (UnitDivBlock.pulled_set_correct .u 1 7 2) 7 2 rfl rfl).mpr ⟨?_, ?_⟩
  · decide
  · exact fun h => absurd h (by decide)

end VerifiableCompute.Circuit
