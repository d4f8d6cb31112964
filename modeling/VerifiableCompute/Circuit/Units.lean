import VerifiableCompute.Circuit.Multiply
import VerifiableCompute.Circuit.UnitArgument

/-! The units that add, combine bits, multiply and compare. Each is a function of its options and operands, and
computes what the executor does. -/

namespace VerifiableCompute.Circuit

open Lib Rv32im UnitOp BitVec GetSign Multiply

@[ext] structure UnitAddSubBlock where
  count : Reg
  doSub : BitReg
  a : RegU32
  b : RegU32
  out : AddU32

namespace UnitAddSubBlock

def set (wit : UnitWitness) : UnitAddSubBlock where
  count := wit.count.toNat
  doSub := wit.popUnitKind
  a := .set wit.a
  b := .set wit.b
  out := .set wit.a (if wit.popUnitKind ≠ 0 then ~~~wit.b else wit.b) (wit.popUnitKind ≠ 0)

structure Satisfied (x : UnitAddSubBlock) : Prop where
  doSub : BitReg.verify x.doSub
  out : x.out.Satisfied x.a.get (condU32 x.doSub (negate x.b.get) x.b.get)

def argument (x : UnitAddSubBlock) : UnitArgument where
  opts := x.doSub * unitKinds + 0
  aLow := x.a.low
  aHigh := x.a.high
  bLow := x.b.low
  bHigh := x.b.high
  out0Low := x.out.get.low
  out0High := x.out.get.high
  out1Low := 0
  out1High := 0

theorem deterministic : Deterministic Satisfied argument := by
  intro x y hx hy hopts ha hb
  have hdoSub : x.doSub = y.doSub := by
    have hsix : ((unitKinds : ℕ) : Fp) ≠ 0 := by decide
    exact mul_right_cancel₀ hsix (add_right_cancel hopts)
  have ha : x.a.get = y.a.get := ha
  have hb : x.b.get = y.b.get := hb
  have hout : x.out = y.out := by
    apply AddU32.unique hx.out
    rw [ha, hb, hdoSub]
    exact hy.out
  apply UnitArgument.ext_words hopts ha hb
  · exact congrArg AddU32.get hout
  · rfl

theorem complete : Complete Satisfied argument set (Set.range .addSub) := by
  rintro _ ⟨kind, rfl⟩ count a b
  have hset : set ((UnitOp.addSub kind).witness count a b) = ⟨count.toNat, (UnitOp.addSub kind).val, .set a, .set b,
      .set a (if (UnitOp.addSub kind).val ≠ 0 then ~~~b else b) ((UnitOp.addSub kind).val ≠ 0)⟩ := by
    rw [set, UnitOp.popUnitKind_witness]
    rfl
  rw [hset]
  cases kind with
  | add =>
    have hadd := AddU32.set_satisfied a b false
    have hget := AddU32.get_set a b false
    refine ⟨⟨isBit_zero, ?_⟩, UnitArgument.ext_words ?_ rfl rfl ?_ ?_⟩
    · change (AddU32.set a b false).Satisfied (.of a) (condU32 ((0 : ℕ) : Fp) _ _)
      rw [Nat.cast_zero, condU32_zero]
      exact hadd
    · simp [argument, UnitOp.argument, UnitArgument.of, UnitOp.opts, UnitOp.kind]
    · change (AddU32.set a b false).get = .of (a + b)
      simpa using hget
    · exact ValU32.of_zero.symm
  | sub =>
    have hsub := AddU32.set_satisfied a (~~~b) true
    have hget := AddU32.get_set a (~~~b) true
    refine ⟨⟨isBit_natCast (by decide), ?_⟩, UnitArgument.ext_words ?_ rfl rfl ?_ ?_⟩
    · change (AddU32.set a (~~~b) true).Satisfied (.of a) (condU32 ((1 : ℕ) : Fp) (negate (.of b)) _)
      rw [Nat.cast_one, condU32_one, negate_of]
      exact hsub
    · simp [argument, UnitOp.argument, UnitArgument.of, UnitOp.opts, UnitOp.kind]
    · change (AddU32.set a (~~~b) true).get = .of (a - b)
      rw [hget, sub_eq_add_neg, neg_eq_not_add, add_assoc]
      rfl
    · exact ValU32.of_zero.symm

theorem opts_eq (x : UnitAddSubBlock) (hx : x.Satisfied) : ∃ op ∈ Set.range addSub, x.argument.opts = op.opts := by
  obtain h | h := isBit_iff.mp hx.doSub
  · refine ⟨_, ⟨.add, rfl⟩, ?_⟩
    simp [argument, h, opts, val, kind]
  · refine ⟨_, ⟨.sub, rfl⟩, ?_⟩
    simp [argument, h, opts, val, kind]

theorem sound : Sound Satisfied argument (Set.range .addSub) := sound_of_complete deterministic complete opts_eq

end UnitAddSubBlock

@[ext] structure UnitBitBlock where
  count : Reg
  op : OneHot 3
  a : RegU32
  b : RegU32
  out : RegU32
  aBits : Fin 32 → BitReg
  bBits : Fin 32 → BitReg

namespace UnitBitBlock

def set (wit : UnitWitness) : UnitBitBlock where
  count := wit.count.toNat
  op := .set 3 wit.popUnitKind
  a := .set wit.a
  b := .set wit.b
  out := .set wit.out0
  aBits i := (wit.a.toNat >>> (i : ℕ) % 2 : ℕ)
  bBits i := (wit.b.toNat >>> (i : ℕ) % 2 : ℕ)

/-- The half word that sixteen of the bits make. -/
def part (p : ℕ) (bits : Fin 32 → Fp) : Fp := ofBits 16 fun i => bits (Fin.ofNat 32 (16 * p + i))

section

variable (x : UnitBitBlock)

def aParts (p : ℕ) : Fp := part p x.aBits
def bParts (p : ℕ) : Fp := part p x.bBits
def andParts (p : ℕ) : Fp := part p fun i => x.aBits i * x.bBits i

/-- The result is `c1` times the sum and `c2` times the conjunction. -/
def c1 : Fp := x.op.bits 0 + x.op.bits 1

def c2 : Fp := x.op.bits 0 * -2 + x.op.bits 1 * -1 + x.op.bits 2

end

structure verify (x : UnitBitBlock) : Prop where
  aLow : x.aParts 0 = x.a.low
  aHigh : x.aParts 1 = x.a.high
  bLow : x.bParts 0 = x.b.low
  bHigh : x.bParts 1 = x.b.high
  outLow : x.c1 * (x.aParts 0 + x.bParts 0) + x.c2 * x.andParts 0 = x.out.low
  outHigh : x.c1 * (x.aParts 1 + x.bParts 1) + x.c2 * x.andParts 1 = x.out.high

structure Satisfied (x : UnitBitBlock) : Prop where
  op : x.op.Satisfied
  aBits (i : Fin 32) : BitReg.verify (x.aBits i)
  bBits (i : Fin 32) : BitReg.verify (x.bBits i)
  verify : x.verify

def argument (x : UnitBitBlock) : UnitArgument where
  opts := x.op.get * unitKinds + 1
  aLow := x.a.low
  aHigh := x.a.high
  bLow := x.b.low
  bHigh := x.b.high
  out0Low := x.out.low
  out0High := x.out.high
  out1Low := 0
  out1High := 0

theorem parts_unique {bits bits' : Fin 32 → Fp} (h : ∀ i, IsBit (bits i)) (h' : ∀ i, IsBit (bits' i))
    (h0 : part 0 bits = part 0 bits') (h1 : part 1 bits = part 1 bits') : bits = bits' := by
  have hlow := ofBits_unique (fun i _ => h _) (fun i _ => h' _) (by norm_num) h0
  have hhigh := ofBits_unique (fun i _ => h _) (fun i _ => h' _) (by norm_num) h1
  funext i
  by_cases hi : (i : ℕ) < 16
  · have hi' : Fin.ofNat 32 (16 * 0 + i) = i := by ext; simp
    have := hlow i hi
    rwa [hi'] at this
  · have hi' : Fin.ofNat 32 (16 * 1 + (i - 16)) = i := by
      ext
      simp only [Fin.val_ofNat]
      omega
    have := hhigh (i - 16) (by omega)
    rwa [hi'] at this

theorem deterministic : Deterministic Satisfied argument := by
  intro x y hx hy hopts ha hb
  have hop : x.op = y.op := by
    have hsix : ((unitKinds : ℕ) : Fp) ≠ 0 := by decide
    exact OneHot.unique hx.op hy.op (by norm_num) (mul_right_cancel₀ hsix (add_right_cancel hopts))
  obtain ⟨hxaLow, hxaHigh, hxbLow, hxbHigh, hxLow, hxHigh⟩ := hx.verify
  obtain ⟨hyaLow, hyaHigh, hybLow, hybHigh, hyLow, hyHigh⟩ := hy.verify
  have haBits : x.aBits = y.aBits := parts_unique hx.aBits hy.aBits
    (hxaLow.trans ((congrArg ValU32.low ha).trans hyaLow.symm)) (hxaHigh.trans ((congrArg ValU32.high ha).trans hyaHigh.symm))
  have hbBits : x.bBits = y.bBits := parts_unique hx.bBits hy.bBits
    (hxbLow.trans ((congrArg ValU32.low hb).trans hybLow.symm)) (hxbHigh.trans ((congrArg ValU32.high hb).trans hybHigh.symm))
  apply UnitArgument.ext_words hopts ha hb
  · apply ValU32.ext
    · change x.out.low = y.out.low
      rw [← hxLow, ← hyLow, c1, c1, c2, c2, aParts, aParts, bParts, bParts, andParts, andParts, hop, haBits, hbBits]
    · change x.out.high = y.out.high
      rw [← hxHigh, ← hyHigh, c1, c1, c2, c2, aParts, aParts, bParts, bParts, andParts, andParts, hop, haBits, hbBits]
  · rfl

theorem bit_eq (val : Word) (i : ℕ) : ((val.toNat >>> i % 2 : ℕ) : Fp) = (val.getLsbD i).toNat := by
  rw [← testBit_toNat, Nat.toNat_testBit, Nat.shiftRight_eq_div_pow]

theorem part_bits (val : Word) {p : ℕ} (hp : p < 2) :
    part p (fun i => ((val.toNat >>> (i : ℕ) % 2 : ℕ) : Fp)) = (val.toNat >>> (16 * p) % 0x10000 : ℕ) := by
  refine Eq.trans ?_ (ofBits_natCast 16 (val.toNat >>> (16 * p)))
  apply ofBits_congr
  intro i hi
  have hindex : ((Fin.ofNat 32 (16 * p + i) : Fin 32) : ℕ) = 16 * p + i := by
    simp only [Fin.val_ofNat]
    omega
  simp only [hindex, Nat.shiftRight_add]

theorem part_bits_low (val : Word) : part 0 (fun i => ((val.toNat >>> (i : ℕ) % 2 : ℕ) : Fp)) = lowHalf val := by
  rw [part_bits val (by norm_num)]
  rfl

theorem part_bits_high (val : Word) : part 1 (fun i => ((val.toNat >>> (i : ℕ) % 2 : ℕ) : Fp)) = highHalf val := by
  have hlt := val.isLt
  rw [part_bits val (by norm_num), Nat.shiftRight_eq_div_pow, highHalf]
  congr 1
  omega

theorem part_combine {c d : Fp} {a b out : Word} (p : ℕ)
    (h : ∀ i, c * ((a.getLsbD i).toNat + (b.getLsbD i).toNat : Fp) + d * ((a.getLsbD i).toNat * (b.getLsbD i).toNat : Fp) =
      (out.getLsbD i).toNat) :
    c * (part p (fun i => ((a.toNat >>> (i : ℕ) % 2 : ℕ) : Fp)) + part p (fun i => ((b.toNat >>> (i : ℕ) % 2 : ℕ) : Fp))) +
        d * part p (fun i => ((a.toNat >>> (i : ℕ) % 2 : ℕ) : Fp) * ((b.toNat >>> (i : ℕ) % 2 : ℕ) : Fp)) =
      part p (fun i => ((out.toNat >>> (i : ℕ) % 2 : ℕ) : Fp)) := by
  unfold part
  rw [ofBits_combine]
  apply ofBits_congr
  intro i _
  simp only [bit_eq]
  exact h _

theorem complete : Complete Satisfied argument set (Set.range .bit) := by
  rintro _ ⟨kind, rfl⟩ count a b
  have hcolumns : (set ((bit kind).witness count a b)).op = .set 3 (bit kind).val := by
    rw [set, popUnitKind_witness]
  have hcombine (i : ℕ) : (set ((bit kind).witness count a b)).c1 * ((a.getLsbD i).toNat + (b.getLsbD i).toNat : Fp) +
      (set ((bit kind).witness count a b)).c2 * ((a.getLsbD i).toNat * (b.getLsbD i).toNat : Fp) =
      (((bit kind).out0 a b).getLsbD i).toNat := by
    rw [c1, c2, hcolumns]
    cases kind with
    | xor =>
      simp only [out0, getLsbD_xor]
      cases a.getLsbD i <;> cases b.getLsbD i <;> decide
    | or =>
      simp only [out0, getLsbD_or]
      cases a.getLsbD i <;> cases b.getLsbD i <;> decide
    | and =>
      simp only [out0, getLsbD_and]
      cases a.getLsbD i <;> cases b.getLsbD i <;> decide
  have hval : (bit kind).val < 3 := Nat.lt_succ_of_le (val_le _)
  refine ⟨⟨?_, fun i => isBit_natCast (Nat.mod_lt _ Nat.zero_lt_two), fun i => isBit_natCast (Nat.mod_lt _ Nat.zero_lt_two), ?_⟩, ?_⟩
  · rw [hcolumns]
    exact OneHot.set_satisfied hval
  · refine ⟨part_bits_low a, part_bits_high a, part_bits_low b, part_bits_high b, ?_, ?_⟩
    · exact (part_combine 0 hcombine).trans (part_bits_low _)
    · exact (part_combine 1 hcombine).trans (part_bits_high _)
  · refine UnitArgument.ext_words ?_ rfl rfl rfl ValU32.of_zero.symm
    change (set ((bit kind).witness count a b)).op.get * ((unitKinds : ℕ) : Fp) + 1 = (bit kind).opts
    rw [hcolumns, OneHot.get_set hval, opts]
    push_cast
    rfl

theorem opts_eq (x : UnitBitBlock) (hx : x.Satisfied) : ∃ op ∈ Set.range bit, x.argument.opts = op.opts := by
  obtain ⟨val, hval, hop⟩ := hx.op.exists_set (by norm_num)
  obtain ⟨kind, rfl⟩ : ∃ kind, (bit kind).val = val := by
    obtain rfl | rfl | rfl : val = 0 ∨ val = 1 ∨ val = 2 := by omega
    · exact ⟨.xor, rfl⟩
    · exact ⟨.or, rfl⟩
    · exact ⟨.and, rfl⟩
  refine ⟨_, ⟨kind, rfl⟩, ?_⟩
  rw [argument, hop, OneHot.get_set hval, opts]
  push_cast
  rfl

theorem sound : Sound Satisfied argument (Set.range .bit) := sound_of_complete deterministic complete opts_eq

end UnitBitBlock

@[ext] structure UnitMulBlock where
  count : Reg
  mul : Multiply

namespace MulKind

/-- Whether the factors are signed. -/
def signA : MulKind → Bool
  | ss => true
  | su => true
  | uu => false

def signB : MulKind → Bool
  | ss => true
  | su => false
  | uu => false

def ofVal (val : ℕ) : MulKind := if val % 3 = 0 then ss else if val % 3 = 1 then su else uu

@[simp] theorem ofVal_val (kind : MulKind) : ofVal (mul kind).val = kind := by cases kind <;> rfl

end MulKind

namespace UnitMulBlock

def set (wit : UnitWitness) : UnitMulBlock where
  count := wit.count.toNat
  mul := .set wit.a wit.b (MulKind.ofVal wit.popUnitKind).signA (MulKind.ofVal wit.popUnitKind).signB

/-- An unsigned first factor with a signed second one is not allowed. -/
def verify (x : UnitMulBlock) : Prop := (1 - x.mul.signA) * x.mul.signB = 0

structure Satisfied (x : UnitMulBlock) : Prop where
  mul : x.mul.Satisfied
  verify : x.verify

def argument (x : UnitMulBlock) : UnitArgument where
  opts := (2 - x.mul.signA - x.mul.signB) * unitKinds + 3
  aLow := x.mul.getA.low
  aHigh := x.mul.getA.high
  bLow := x.mul.getB.low
  bHigh := x.mul.getB.high
  out0Low := x.mul.getOutLow.low
  out0High := x.mul.getOutLow.high
  out1Low := x.mul.getOutHigh.low
  out1High := x.mul.getOutHigh.high

theorem signs {x : UnitMulBlock} (hx : x.Satisfied) :
    ∃ kind : MulKind, x.mul.signA = (kind.signA.toNat : ℕ) ∧ x.mul.signB = (kind.signB.toNat : ℕ) := by
  have hverify : (1 - x.mul.signA) * x.mul.signB = 0 := hx.verify
  obtain hA | hA := isBit_iff.mp hx.mul.signA
  · rw [hA, sub_zero, one_mul] at hverify
    exact ⟨.uu, hA.trans Nat.cast_zero.symm, hverify.trans Nat.cast_zero.symm⟩
  · obtain hB | hB := isBit_iff.mp hx.mul.signB
    · exact ⟨.su, hA.trans Nat.cast_one.symm, hB.trans Nat.cast_zero.symm⟩
    · exact ⟨.ss, hA.trans Nat.cast_one.symm, hB.trans Nat.cast_one.symm⟩

theorem opts_of_signs {x : UnitMulBlock} {kind : MulKind} (hA : x.mul.signA = (kind.signA.toNat : ℕ))
    (hB : x.mul.signB = (kind.signB.toNat : ℕ)) : x.argument.opts = (UnitOp.mul kind).opts := by
  simp only [argument]
  rw [hA, hB]
  cases kind <;> decide

theorem deterministic : Deterministic Satisfied argument := by
  intro x y hx hy hopts ha hb
  obtain ⟨kind, hxA, hxB⟩ := signs hx
  obtain ⟨kind', hyA, hyB⟩ := signs hy
  have hkind : UnitOp.mul kind = UnitOp.mul kind' := by
    apply UnitOp.eq_of_opts
    rw [← opts_of_signs hxA hxB, hopts, opts_of_signs hyA hyB]
  obtain rfl : kind = kind' := UnitOp.mul.inj hkind
  have hmul : x.mul = y.mul := Multiply.unique hx.mul hy.mul (hxA.trans hyA.symm) (hxB.trans hyB.symm) ha hb
  rw [argument, argument, hmul]

theorem complete : Complete Satisfied argument set (Set.range .mul) := by
  rintro _ ⟨kind, rfl⟩ count a b
  have hset : set ((UnitOp.mul kind).witness count a b) = ⟨count.toNat, .set a b kind.signA kind.signB⟩ := by
    rw [set, UnitOp.popUnitKind_witness, MulKind.ofVal_val]
    rfl
  have hsignA : (Multiply.set a b kind.signA kind.signB).signA = (kind.signA.toNat : ℕ) := rfl
  have hsignB : (Multiply.set a b kind.signA kind.signB).signB = (kind.signB.toNat : ℕ) := rfl
  rw [hset]
  refine ⟨⟨Multiply.set_satisfied a b _ _, ?_⟩, ?_⟩
  · rw [verify, hsignA, hsignB]
    cases kind <;> decide
  · apply UnitArgument.ext_words
    · exact opts_of_signs hsignA hsignB
    · exact getA_set a b _ _
    · exact getB_set a b _ _
    · refine (getOutLow_set a b _ _).trans ?_
      rw [product_setWidth]
      rfl
    · refine (getOutHigh_set a b _ _).trans ?_
      cases kind <;> rfl

theorem opts_eq (x : UnitMulBlock) (hx : x.Satisfied) : ∃ op ∈ Set.range UnitOp.mul, x.argument.opts = op.opts := by
  obtain ⟨kind, hA, hB⟩ := signs hx
  exact ⟨_, ⟨kind, rfl⟩, opts_of_signs hA hB⟩

theorem sound : Sound Satisfied argument (Set.range .mul) := sound_of_complete deterministic complete opts_eq

end UnitMulBlock

@[ext] structure UnitLtBlock where
  count : Reg
  a : RegU32
  b : RegU32
  diff : AddU32
  signA : GetSign
  signB : GetSign
  signDiff : GetSign
  overflow : BitReg
  isLt : BitReg

namespace UnitLtBlock

def computeOverflow (x : UnitLtBlock) : Fp :=
  let s1 := x.signA.sign
  let s2 := x.signB.sign
  let s3 := x.signDiff.sign
  s1 * (1 - s2) * (1 - s3) + (1 - s1) * s2 * s3

def computeLt (x : UnitLtBlock) : Fp :=
  let s3 := x.signDiff.sign
  x.overflow + s3 - 2 * x.overflow * s3

def set (wit : UnitWitness) : UnitLtBlock :=
  let x : UnitLtBlock := {
    count := wit.count.toNat, a := .set wit.a, b := .set wit.b, diff := .set wit.a (~~~wit.b) true
    signA := .set wit.a, signB := .set wit.b, signDiff := .set (wit.a - wit.b), overflow := 0, isLt := 0 }
  let x := { x with overflow := x.computeOverflow }
  { x with isLt := x.computeLt }

structure verify (x : UnitLtBlock) : Prop where
  overflow : x.overflow = x.computeOverflow
  isLt : x.isLt = x.computeLt

structure Satisfied (x : UnitLtBlock) : Prop where
  diff : x.diff.Satisfied x.a.get (negate x.b.get)
  signA : x.signA.Satisfied x.a.high
  signB : x.signB.Satisfied x.b.high
  signDiff : x.signDiff.Satisfied x.diff.get.high
  overflow : BitReg.verify x.overflow
  isLt : BitReg.verify x.isLt
  verify : x.verify

def argument (x : UnitLtBlock) : UnitArgument where
  opts := 2
  aLow := x.a.low
  aHigh := x.a.high
  bLow := x.b.low
  bHigh := x.b.high
  out0Low := x.isLt
  out0High := 0
  out1Low := 1 - x.diff.carryHigh
  out1High := 0

theorem deterministic : Deterministic Satisfied argument := by
  intro x y hx hy hopts ha hb
  have ha : x.a.get = y.a.get := ha
  have hb : x.b.get = y.b.get := hb
  have hdiff : x.diff = y.diff := by
    apply AddU32.unique hx.diff
    rw [ha, hb]
    exact hy.diff
  have hsignA : x.signA = y.signA := by
    apply GetSign.unique hx.signA
    rw [show x.a.high = y.a.high from congrArg ValU32.high ha]
    exact hy.signA
  have hsignB : x.signB = y.signB := by
    apply GetSign.unique hx.signB
    rw [show x.b.high = y.b.high from congrArg ValU32.high hb]
    exact hy.signB
  have hsignDiff : x.signDiff = y.signDiff := by
    apply GetSign.unique hx.signDiff
    rw [hdiff]
    exact hy.signDiff
  have hoverflow : x.overflow = y.overflow := by
    rw [hx.verify.overflow, hy.verify.overflow, computeOverflow, computeOverflow, hsignA, hsignB, hsignDiff]
  have hisLt : x.isLt = y.isLt := by
    rw [hx.verify.isLt, hy.verify.isLt, computeLt, computeLt, hoverflow, hsignDiff]
  apply UnitArgument.ext_words hopts ha hb
  · exact ValU32.ext hisLt rfl
  · exact ValU32.ext (congrArg (1 - ·) (congrArg AddU32.carryHigh hdiff)) rfl

/-- Whether a signed difference overflows, by the signs. -/
def overflows (s1 s2 s3 : Bool) : Bool := s1 && !s2 && !s3 || !s1 && s2 && s3

theorem computeOverflow_eq {x : UnitLtBlock} {s1 s2 s3 : Bool} (h1 : x.signA.sign = (s1.toNat : ℕ)) (h2 : x.signB.sign = (s2.toNat : ℕ))
    (h3 : x.signDiff.sign = (s3.toNat : ℕ)) : x.computeOverflow = ((overflows s1 s2 s3).toNat : ℕ) := by
  simp only [computeOverflow]
  rw [h1, h2, h3]
  cases s1 <;> cases s2 <;> cases s3 <;> decide

theorem computeLt_eq {x : UnitLtBlock} {s3 overflow : Bool} (h3 : x.signDiff.sign = (s3.toNat : ℕ)) (h : x.overflow = (overflow.toNat : ℕ)) :
    x.computeLt = ((overflow ^^ s3).toNat : ℕ) := by
  simp only [computeLt]
  rw [h3, h]
  cases s3 <;> cases overflow <;> decide

theorem overflows_xor (s1 s2 s3 : Bool) : (overflows s1 s2 s3 ^^ s3) = true ↔ s1 = true ∧ ¬s2 = true ∨ (s1 = true ↔ s2 = true) ∧ s3 = true := by
  revert s1 s2 s3
  decide

/-- The sign of a difference that does not overflow, and the opposite of one that does, says which number is less. -/
theorem slt_eq (a b : Word) : a.slt b = (overflows a.msb b.msb (a - b).msb ^^ (a - b).msb) := by
  have ha := a.isLt
  have hb := b.isLt
  have hmsb (w : Word) : w.msb = true ↔ 2 ^ 31 ≤ w.toNat := by rw [msb_eq_decide, decide_eq_true_iff]
  have hsub : (a - b).toNat = (2 ^ 32 - b.toNat + a.toNat) % 2 ^ 32 := toNat_sub a b
  rw [Bool.eq_iff_iff, overflows_xor, hmsb, hmsb, hmsb, hsub, slt_iff_toInt_lt, toInt_eq_toNat_cond, toInt_eq_toNat_cond]
  split_ifs <;> omega

theorem ult_eq (a b : Word) : 1 - (AddU32.set a (~~~b) true).carryHigh = ((a.ult b).toNat : ℕ) := by
  have ha := a.isLt
  have hb := b.isLt
  rw [AddU32.carryHigh_set, toNat_not, ult_eq_decide]
  by_cases h : a.toNat < b.toNat
  · have hcarry : (a.toNat + (2 ^ 32 - 1 - b.toNat) + true.toNat) / 2 ^ 32 = 0 := by
      rw [Bool.toNat_true]
      omega
    rw [hcarry, decide_eq_true h, Nat.cast_zero, sub_zero, Bool.toNat_true, Nat.cast_one]
  · have hcarry : (a.toNat + (2 ^ 32 - 1 - b.toNat) + true.toNat) / 2 ^ 32 = 1 := by
      rw [Bool.toNat_true]
      omega
    rw [hcarry, decide_eq_false h, Nat.cast_one, sub_self, Bool.toNat_false, Nat.cast_zero]

theorem of_ofCond (c : Bool) : ValU32.of (ofCond c) = ⟨(c.toNat : ℕ), 0⟩ := by
  cases c
  · exact ValU32.of_zero
  · apply ValU32.ext <;> rfl

theorem set_eq (wit : UnitWitness) : set wit = {
    count := wit.count.toNat, a := .set wit.a, b := .set wit.b, diff := .set wit.a (~~~wit.b) true
    signA := .set wit.a, signB := .set wit.b, signDiff := .set (wit.a - wit.b)
    overflow := ((overflows wit.a.msb wit.b.msb (wit.a - wit.b).msb).toNat : ℕ)
    isLt := ((wit.a.slt wit.b).toNat : ℕ) } := by
  unfold set
  simp only
  rw [computeOverflow_eq (sign_set _) (sign_set _) (sign_set _), computeLt_eq (sign_set _) rfl, slt_eq]

theorem complete : Complete Satisfied argument set {.lt} := by
  rintro _ rfl count a b
  have hdiff : (AddU32.set a (~~~b) true).Satisfied (.of a) (negate (.of b)) := by
    rw [negate_of]
    exact AddU32.set_satisfied a (~~~b) true
  have hget : (AddU32.set a (~~~b) true).get = .of (a - b) := by
    rw [AddU32.get_set, sub_eq_add_neg, neg_eq_not_add, add_assoc]
    rfl
  rw [set_eq]
  refine ⟨⟨hdiff, GetSign.set_satisfied a, GetSign.set_satisfied b, ?_, isBit_natCast (Bool.toNat_lt _), isBit_natCast (Bool.toNat_lt _), ?_, ?_⟩, ?_⟩
  · change (GetSign.set (a - b)).Satisfied (AddU32.set a (~~~b) true).get.high
    rw [hget]
    exact GetSign.set_satisfied (a - b)
  · exact (computeOverflow_eq (sign_set _) (sign_set _) (sign_set _)).symm
  · refine Eq.trans ?_ (computeLt_eq (sign_set _) rfl).symm
    exact congrArg (fun c : Bool => ((c.toNat : ℕ) : Fp)) (slt_eq a b)
  · refine UnitArgument.ext_words ?_ rfl rfl ?_ ?_
    · exact (Nat.cast_ofNat (R := Fp) (n := 2)).symm
    · exact (of_ofCond (a.slt b)).symm
    · refine Eq.trans ?_ (of_ofCond (a.ult b)).symm
      exact ValU32.ext (ult_eq a b) rfl

theorem sound : Sound Satisfied argument {.lt} :=
  sound_of_complete deterministic complete fun _ _ => ⟨.lt, rfl, (Nat.cast_ofNat (R := Fp) (n := 2)).symm⟩

end UnitLtBlock

/-- A block whose satisfying assignments are a function of options and operands, and whose written columns satisfy. -/
structure Functional {B : Type} (satisfied : B → Prop) (argument : B → UnitArgument) (set : UnitWitness → B) (ops : Set UnitOp) : Prop where
  sound : Sound satisfied argument ops
  deterministic : Deterministic satisfied argument
  complete : Complete satisfied argument set ops

/-- The units compute what their options say, nothing else satisfies their constraints, and what is written for an
operation does. -/
theorem units_functional :
    Functional UnitAddSubBlock.Satisfied UnitAddSubBlock.argument UnitAddSubBlock.set (Set.range .addSub) ∧
      Functional UnitBitBlock.Satisfied UnitBitBlock.argument UnitBitBlock.set (Set.range .bit) ∧
      Functional UnitMulBlock.Satisfied UnitMulBlock.argument UnitMulBlock.set (Set.range .mul) ∧
      Functional UnitLtBlock.Satisfied UnitLtBlock.argument UnitLtBlock.set {.lt} :=
  ⟨⟨UnitAddSubBlock.sound, UnitAddSubBlock.deterministic, UnitAddSubBlock.complete⟩,
    ⟨UnitBitBlock.sound, UnitBitBlock.deterministic, UnitBitBlock.complete⟩,
    ⟨UnitMulBlock.sound, UnitMulBlock.deterministic, UnitMulBlock.complete⟩,
    ⟨UnitLtBlock.sound, UnitLtBlock.deterministic, UnitLtBlock.complete⟩⟩

end VerifiableCompute.Circuit
