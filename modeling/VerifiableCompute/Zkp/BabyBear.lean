import VerifiableCompute.Circuit.Registers

/-! The Baby Bear field as the provers compute in it: words in Montgomery form, and the extension
of degree four over them. -/

namespace VerifiableCompute.Zkp.BabyBear

open Circuit

abbrev U32 := BitVec 32
abbrev U64 := BitVec 64

def M : U32 := 0x88000001#32
def R2 : U32 := 1172168163#32

/-- The modulus of the field. -/
def P : U32 := 15#32 * (1#32 <<< 27) + 1#32

def P_U64 : U64 := P.setWidth 64

def add (lhs rhs : U32) : U32 :=
  let x := lhs + rhs
  if P ≤ x then x - P else x

def sub (lhs rhs : U32) : U32 :=
  let x := lhs - rhs
  if P < x then x + P else x

/-- The product and the multiple of the modulus that clears its low word. -/
def mulTerms (lhs rhs : U32) : U64 × U64 :=
  let o64 := lhs.setWidth 64 * rhs.setWidth 64
  let low := 0#32 - o64.setWidth 32
  let red := M * low
  (o64, red.setWidth 64 * P_U64)

def mul (lhs rhs : U32) : U32 :=
  let o64 := (mulTerms lhs rhs).1 + (mulTerms lhs rhs).2
  let ret := (o64 >>> 32).setWidth 32
  if P ≤ ret then ret - P else ret

def encode (a : U32) : U32 := mul R2 a

def decode (a : U32) : U32 := mul 1#32 a

section Words

variable {a b : U32}

theorem toNat_P : P.toNat = 2013265921 := by decide

theorem toNat_M : M.toNat = 2281701377 := by decide

theorem toNat_R2 : R2.toNat = 1172168163 := by decide

theorem toNat_add (ha : a < P) (hb : b < P) : (add a b).toNat = (a.toNat + b.toNat) % 2013265921 := by
  rw [BitVec.lt_def, toNat_P] at ha hb
  have hsum : (a + b).toNat = a.toNat + b.toNat := by rw [BitVec.toNat_add]; omega
  dsimp only [add]
  split
  · rename_i h
    rw [BitVec.le_def, toNat_P, hsum] at h
    rw [BitVec.toNat_sub, toNat_P, hsum]
    omega
  · rename_i h
    rw [BitVec.le_def, toNat_P, hsum] at h
    rw [hsum]
    omega

theorem toNat_sub (ha : a < P) (hb : b < P) : (sub a b).toNat = (a.toNat + (2013265921 - b.toNat)) % 2013265921 := by
  rw [BitVec.lt_def, toNat_P] at ha hb
  have hdiff : (a - b).toNat = (4294967296 - b.toNat + a.toNat) % 4294967296 := BitVec.toNat_sub a b
  dsimp only [sub]
  split
  · rename_i h
    rw [BitVec.lt_def, toNat_P, hdiff] at h
    rw [BitVec.toNat_add, toNat_P, hdiff]
    omega
  · rename_i h
    rw [BitVec.lt_def, toNat_P, hdiff] at h
    rw [hdiff]
    omega

theorem toNat_mulTerms_fst (a b : U32) : (mulTerms a b).1.toNat = a.toNat * b.toNat := by
  have hlt : a.toNat * b.toNat < 2 ^ 64 := lt_of_lt_of_eq (Nat.mul_lt_mul'' a.isLt b.isLt) (by decide)
  rw [mulTerms, BitVec.toNat_mul, BitVec.toNat_setWidth, BitVec.toNat_setWidth,
    Nat.mod_eq_of_lt (lt_trans a.isLt (by decide)), Nat.mod_eq_of_lt (lt_trans b.isLt (by decide)), Nat.mod_eq_of_lt hlt]

/-- The multiplier of the modulus is below a word and clears the low word of the sum. -/
theorem toNat_mulTerms_snd (a b : U32) : ∃ red < 2 ^ 32, (mulTerms a b).2.toNat = red * 2013265921 ∧
      (a.toNat * b.toNat + red * 2013265921) % 2 ^ 32 = 0 := by
  have hfst := toNat_mulTerms_fst a b
  refine ⟨(M * (0#32 - (mulTerms a b).1.setWidth 32)).toNat, BitVec.isLt _, ?_, ?_⟩
  · have hred := (M * (0#32 - (mulTerms a b).1.setWidth 32)).isLt
    change ((M * (0#32 - (mulTerms a b).1.setWidth 32)).setWidth 64 * P_U64).toNat = _
    rw [BitVec.toNat_mul, BitVec.toNat_setWidth, Nat.mod_eq_of_lt (lt_trans hred (by decide)), P_U64, BitVec.toNat_setWidth,
      toNat_P]
    omega
  · rw [BitVec.toNat_mul, BitVec.toNat_sub, BitVec.toNat_setWidth, hfst, toNat_M]
    generalize a.toNat * b.toNat = o
    have h0 : (0#32).toNat = 0 := rfl
    rw [h0]
    omega

theorem mulTerms_lt (a : U32) (hb : b.toNat ≤ 2013265921) :
    (mulTerms a b).1.toNat + (mulTerms a b).2.toNat < 2 ^ 64 := by
  obtain ⟨red, hred, hsnd, -⟩ := toNat_mulTerms_snd a b
  have hle : a.toNat * b.toNat ≤ 4294967295 * 2013265921 := Nat.mul_le_mul (by have := a.isLt; omega) hb
  rw [toNat_mulTerms_fst, hsnd]
  omega

theorem mulTerms_comm (a b : U32) : mulTerms a b = mulTerms b a := by
  rw [mulTerms, mulTerms, BitVec.mul_comm (a.setWidth 64)]

theorem toNat_mul {o : ℕ} (ho : a.toNat * b.toNat = o) (h : o < 2013265921 * 2 ^ 32) :
    (mul a b).toNat < 2013265921 ∧ ((mul a b).toNat * 2 ^ 32) % 2013265921 = o % 2013265921 := by
  obtain ⟨red, hred, hsnd, hlow⟩ := toNat_mulTerms_snd a b
  have hfst := toNat_mulTerms_fst a b
  rw [ho] at hfst hlow
  have hret : (((mulTerms a b).1 + (mulTerms a b).2) >>> 32).setWidth 32 =
      BitVec.ofNat 32 ((o + red * 2013265921) / 2 ^ 32) := by
    apply BitVec.eq_of_toNat_eq
    rw [BitVec.toNat_setWidth, BitVec.toNat_ushiftRight, Nat.shiftRight_eq_div_pow, BitVec.toNat_add, hfst, hsnd,
      BitVec.toNat_ofNat]
    omega
  have hdiv : (BitVec.ofNat 32 ((o + red * 2013265921) / 2 ^ 32)).toNat = (o + red * 2013265921) / 2 ^ 32 := by
    rw [BitVec.toNat_ofNat]
    omega
  dsimp only [mul]
  rw [hret]
  split
  · rename_i hge
    rw [BitVec.le_def, toNat_P, hdiv] at hge
    have hval : (BitVec.ofNat 32 ((o + red * 2013265921) / 2 ^ 32) - P).toNat =
        (o + red * 2013265921) / 2 ^ 32 - 2013265921 := by
      rw [BitVec.toNat_sub, toNat_P, hdiv]
      omega
    rw [hval]
    have hsum : ((o + red * 2013265921) / 2 ^ 32 - 2013265921) * 2 ^ 32 + 2 ^ 32 * 2013265921 = o + red * 2013265921 := by
      omega
    refine ⟨by omega, ?_⟩
    calc ((o + red * 2013265921) / 2 ^ 32 - 2013265921) * 2 ^ 32 % 2013265921
        = (((o + red * 2013265921) / 2 ^ 32 - 2013265921) * 2 ^ 32 + 2 ^ 32 * 2013265921) % 2013265921 :=
          (Nat.add_mul_mod_self_right _ _ _).symm
      _ = (o + red * 2013265921) % 2013265921 := by rw [hsum]
      _ = o % 2013265921 := Nat.add_mul_mod_self_right _ _ _
  · rename_i hge
    rw [BitVec.le_def, toNat_P, hdiv] at hge
    rw [hdiv]
    have hsum : (o + red * 2013265921) / 2 ^ 32 * 2 ^ 32 = o + red * 2013265921 := by omega
    refine ⟨by omega, ?_⟩
    calc (o + red * 2013265921) / 2 ^ 32 * 2 ^ 32 % 2013265921
        = (o + red * 2013265921) % 2013265921 := by rw [hsum]
      _ = o % 2013265921 := Nat.add_mul_mod_self_right _ _ _

/-- In the field, multiplication divides by `2 ^ 32`. -/
theorem cast_mul (h : a.toNat * b.toNat < 2013265921 * 2 ^ 32) :
    ((mul a b).toNat : Fp) * 2 ^ 32 = (a.toNat : Fp) * b.toNat := by
  have hmod := (toNat_mul rfl h).2
  exact_mod_cast (ZMod.natCast_eq_natCast_iff' _ _ _).mpr hmod

theorem two_pow_ne_zero : (2 : Fp) ^ 32 ≠ 0 := pow_ne_zero 32 (by decide)

theorem mul_lt (h : a.toNat * b.toNat < 2013265921 * 2 ^ 32) : mul a b < P := by
  rw [BitVec.lt_def, toNat_P]
  exact (toNat_mul rfl h).1

theorem encode_fits (a : U32) : R2.toNat * a.toNat < 2013265921 * 2 ^ 32 := by
  have := a.isLt
  rw [toNat_R2]
  omega

theorem decode_fits (a : U32) : (1#32).toNat * a.toNat < 2013265921 * 2 ^ 32 := by
  have := a.isLt
  rw [BitVec.toNat_ofNat]
  omega

theorem mul_fits (ha : a < P) (hb : b < P) : a.toNat * b.toNat < 2013265921 * 2 ^ 32 := by
  rw [BitVec.lt_def, toNat_P] at ha hb
  exact lt_of_lt_of_le (Nat.mul_lt_mul'' ha hb) (by decide)

theorem cast_encode (a : U32) : ((encode a).toNat : Fp) = 2 ^ 32 * a.toNat := by
  apply mul_right_cancel₀ two_pow_ne_zero
  have hr2 : ((1172168163 : ℕ) : Fp) = 2 ^ 32 * 2 ^ 32 := by decide
  rw [encode, cast_mul (encode_fits a), toNat_R2, hr2]
  ring

theorem cast_decode (a : U32) : ((decode a).toNat : Fp) * 2 ^ 32 = a.toNat := by
  rw [decode, cast_mul (decode_fits a), BitVec.toNat_ofNat, Nat.mod_eq_of_lt (by decide), Nat.cast_one, one_mul]

theorem toNat_decode_lt (a : U32) : (decode a).toNat < 2013265921 := (toNat_mul rfl (decode_fits a)).1

theorem decode_encode (a : U32) : (decode (encode a)).toNat = a.toNat % 2013265921 := by
  have hcast : ((decode (encode a)).toNat : Fp) = (a.toNat : Fp) := by
    apply mul_right_cancel₀ two_pow_ne_zero
    rw [cast_decode, cast_encode, mul_comm]
  rw [ZMod.natCast_eq_natCast_iff', Nat.mod_eq_of_lt (toNat_decode_lt _)] at hcast
  exact hcast

end Words

section Pow

variable {α β : Type} [Mul α]

def powLoop (n : ℕ) (tot x : α) : α :=
  if n = 0 then tot else powLoop (n / 2) (if n % 2 = 1 then tot * x else tot) (x * x)
termination_by n
decreasing_by omega

theorem map_powLoop [Monoid β] (f : α → β) (hf : ∀ a b, f (a * b) = f a * f b) (n : ℕ) (tot x : α) :
    f (powLoop n tot x) = f tot * f x ^ n := by
  fun_induction powLoop n tot x with
  | case1 tot x => rw [pow_zero, mul_one]
  | case2 n tot x hn ih =>
    rw [dite_eq_ite] at ih
    rw [ih, hf, ← pow_two, ← pow_mul]
    by_cases hodd : n % 2 = 1
    · rw [if_pos hodd, hf, mul_assoc, ← pow_succ']
      congr 2
      omega
    · rw [if_neg hodd]
      congr 2
      omega

end Pow

/-- A word in Montgomery form, below the modulus. -/
structure Elem where
  val : U32
  reduced : val < P
  deriving DecidableEq

open Elem

namespace Elem

/-- A word of any value, reduced and encoded. -/
def new (x : U32) : Elem := ⟨encode (x % P), mul_lt (encode_fits _)⟩

def asU32 (x : Elem) : U32 := decode x.val

end Elem

theorem add_lt {a b : U32} (ha : a < P) (hb : b < P) : add a b < P := by
  rw [BitVec.lt_def, toNat_add ha hb, toNat_P]
  exact Nat.mod_lt _ (by decide)

theorem sub_lt {a b : U32} (ha : a < P) (hb : b < P) : sub a b < P := by
  rw [BitVec.lt_def, toNat_sub ha hb, toNat_P]
  exact Nat.mod_lt _ (by decide)

theorem zero_lt_P : 0#32 < P := by decide

theorem npowRec_eq_zpowRec {R : Type} [One R] [Mul R] [Inv R] (n : ℕ) (x : R) :
    npowRec (n + 1) x = zpowRec npowRec ((n + 1 : ℕ) : ℤ) x := rfl

namespace Elem

instance : Zero Elem := ⟨new 0#32⟩
instance : One Elem := ⟨new 1#32⟩
instance : Add Elem := ⟨fun lhs rhs => ⟨add lhs.val rhs.val, add_lt lhs.reduced rhs.reduced⟩⟩
instance : Sub Elem := ⟨fun lhs rhs => ⟨sub lhs.val rhs.val, sub_lt lhs.reduced rhs.reduced⟩⟩
instance : Mul Elem := ⟨fun lhs rhs => ⟨mul lhs.val rhs.val, mul_lt (mul_fits lhs.reduced rhs.reduced)⟩⟩
instance : Neg Elem := ⟨fun x => ⟨0#32, zero_lt_P⟩ - x⟩

def pow (x : Elem) (exp : ℕ) : Elem := powLoop exp 1 x

def inv (x : Elem) : Elem := x.pow (P - 2#32).toNat

/-- The integer modulo the prime that an element stands for. -/
def toField (x : Elem) : Fp := (x.asU32.toNat : Fp)

variable {x y : Elem}

theorem cast_val (x : Elem) : (x.val.toNat : Fp) = x.toField * 2 ^ 32 := (cast_decode x.val).symm

theorem val_lt (x : Elem) : x.val.toNat < 2013265921 := by
  have h := x.reduced
  rwa [BitVec.lt_def, toNat_P] at h

theorem toField_injective : Function.Injective toField := by
  intro x y h
  have hval : (x.val.toNat : Fp) = y.val.toNat := by rw [cast_val, cast_val, h]
  rw [ZMod.natCast_eq_natCast_iff', Nat.mod_eq_of_lt x.val_lt, Nat.mod_eq_of_lt y.val_lt] at hval
  cases x
  cases y
  congr 1
  exact BitVec.eq_of_toNat_eq hval

theorem toField_eq {a : Fp} (h : (x.val.toNat : Fp) = a * 2 ^ 32) : x.toField = a :=
  mul_right_cancel₀ two_pow_ne_zero ((cast_val x).symm.trans h)

@[simp] theorem toField_new (x : U32) : (new x).toField = (x.toNat : Fp) := by
  apply toField_eq
  rw [new, cast_encode, BitVec.toNat_umod, toNat_P, ZMod.natCast_mod, mul_comm]

@[simp] theorem toField_zero : (0 : Elem).toField = 0 := (toField_new 0#32).trans Nat.cast_zero

@[simp] theorem toField_one : (1 : Elem).toField = 1 := (toField_new 1#32).trans Nat.cast_one

@[simp] theorem toField_add (x y : Elem) : (x + y).toField = x.toField + y.toField := by
  apply toField_eq
  change ((add x.val y.val).toNat : Fp) = _
  rw [toNat_add x.reduced y.reduced, ZMod.natCast_mod, Nat.cast_add, cast_val, cast_val, add_mul]

@[simp] theorem toField_sub (x y : Elem) : (x - y).toField = x.toField - y.toField := by
  apply toField_eq
  change ((sub x.val y.val).toNat : Fp) = _
  rw [toNat_sub x.reduced y.reduced, ZMod.natCast_mod, Nat.cast_add, Nat.cast_sub y.val_lt.le, ZMod.natCast_self, cast_val,
    cast_val]
  ring

@[simp] theorem toField_mul (x y : Elem) : (x * y).toField = x.toField * y.toField := by
  apply toField_eq
  apply mul_right_cancel₀ two_pow_ne_zero
  change ((mul x.val y.val).toNat : Fp) * 2 ^ 32 = _
  rw [cast_mul (mul_fits x.reduced y.reduced), cast_val, cast_val]
  ring

@[simp] theorem toField_neg (x : Elem) : (-x).toField = -x.toField := by
  have hzero : (⟨0#32, zero_lt_P⟩ : Elem).toField = 0 := toField_eq (by rw [zero_mul]; exact Nat.cast_zero)
  change ((⟨0#32, zero_lt_P⟩ : Elem) - x).toField = _
  rw [toField_sub, hzero, zero_sub]

theorem toField_pow (x : Elem) (exp : ℕ) : (x.pow exp).toField = x.toField ^ exp := by
  rw [pow, map_powLoop toField toField_mul, toField_one, one_mul]

@[simp] theorem toField_inv (x : Elem) : x.inv.toField = x.toField⁻¹ := by
  have hexp : (P - 2#32).toNat = 2013265921 - 2 := by decide
  rw [inv, toField_pow, hexp]
  by_cases h : x.toField = 0
  · rw [h, inv_zero, zero_pow (by decide)]
  · apply eq_inv_of_mul_eq_one_left
    rw [← pow_succ]
    exact ZMod.pow_card_sub_one_eq_one h

theorem toField_eq_zero : x.toField = 0 ↔ x = 0 := by
  rw [← toField_zero]
  exact toField_injective.eq_iff

theorem inv_zero : (0 : Elem).inv = 0 := by
  apply toField_injective
  rw [toField_inv, toField_zero, GroupWithZero.inv_zero]

theorem inv_mul_cancel (hx : x ≠ 0) : x.inv * x = 1 := by
  apply toField_injective
  rw [toField_mul, toField_inv, toField_one]
  exact inv_mul_cancel₀ (fun h => hx (toField_eq_zero.mp h))

theorem toField_surjective : Function.Surjective toField := by
  intro a
  refine ⟨new (BitVec.ofNat 32 a.val), ?_⟩
  have ha : a.val < 2013265921 := ZMod.val_lt a
  rw [toField_new, BitVec.toNat_ofNat, Nat.mod_eq_of_lt (lt_trans ha (by decide)), ZMod.natCast_zmod_val]

/-! The words are a field under the provers' own operations. -/

instance : NatCast Elem := ⟨fun val => new (BitVec.ofNat 32 (val % 2013265921))⟩
instance : IntCast Elem := ⟨fun val => new (BitVec.ofNat 32 (val % 2013265921).toNat)⟩
instance : SMul ℕ Elem := ⟨fun n x => (n : Elem) * x⟩
instance : SMul ℤ Elem := ⟨fun n x => (n : Elem) * x⟩
instance : Pow Elem ℕ := ⟨fun x n => npowRec n x⟩
instance : Inv Elem := ⟨inv⟩

@[simp] theorem toField_natCast (val : ℕ) : (val : Elem).toField = (val : Fp) := by
  have hlt : val % 2013265921 < 2013265921 := Nat.mod_lt _ (by decide)
  refine (toField_new _).trans ?_
  rw [BitVec.toNat_ofNat, Nat.mod_eq_of_lt (lt_trans hlt (by decide)), ZMod.natCast_mod]

theorem toField_intCast (val : ℤ) : (val : Elem).toField = (val : Fp) := by
  have hnonneg : 0 ≤ val % 2013265921 := Int.emod_nonneg val (by decide)
  have hlt : (val % 2013265921).toNat < 2013265921 := by
    have := Int.emod_lt_of_pos val (show (0 : ℤ) < 2013265921 by decide)
    omega
  refine (toField_new _).trans ?_
  rw [BitVec.toNat_ofNat, Nat.mod_eq_of_lt (lt_trans hlt (by decide)), ← Int.cast_natCast, Int.toNat_of_nonneg hnonneg]
  exact ZMod.intCast_mod val 2013265921

theorem toField_npow (x : Elem) (n : ℕ) : (x ^ n).toField = x.toField ^ n := by
  induction n with
  | zero => exact toField_one.trans (pow_zero x.toField).symm
  | succ n ih => exact (toField_mul (npowRec n x) x).trans ((congrArg (· * x.toField) ih).trans (pow_succ x.toField n).symm)

theorem zero_ne_one : (0 : Elem) ≠ 1 := by
  intro h
  have hfield : (0 : Elem).toField = (1 : Elem).toField := congrArg toField h
  rw [toField_zero, toField_one] at hfield
  exact absurd hfield (by decide)

instance instCommRing : CommRing Elem :=
  toField_injective.commRing toField toField_zero toField_one toField_add toField_mul toField_neg toField_sub
    (fun n x => (toField_mul _ _).trans (by rw [toField_natCast, nsmul_eq_mul]))
    (fun n x => (toField_mul _ _).trans (by rw [toField_intCast, zsmul_eq_mul])) toField_npow toField_natCast toField_intCast

instance instField : Field Elem where
  inv := inv
  zpow := zpowRec npowRec
  zpow_neg' := fun n x => congrArg inv (npowRec_eq_zpowRec n x)
  exists_pair_ne := ⟨0, 1, zero_ne_one⟩
  mul_inv_cancel := fun x hx => (mul_comm x x.inv).trans (inv_mul_cancel hx)
  inv_zero := inv_zero
  nnqsmul := _
  nnqsmul_def := fun _ _ => rfl
  qsmul := _
  qsmul_def := fun _ _ => rfl

instance : Finite Elem := Finite.of_injective toField toField_injective

theorem new_eq_cast (x : U32) : new x = (x.toNat : Elem) := by
  apply toField_injective
  rw [toField_new, toField_natCast]

theorem pow_modulus_sub_one (hx : x ≠ 0) : x ^ 2013265920 = 1 := by
  apply toField_injective
  rw [toField_npow, toField_one]
  exact ZMod.pow_card_sub_one_eq_one (fun h => hx (toField_eq_zero.mp h))

end Elem

def BETA : Elem := .new 11#32
def NBETA : Elem := .new (P - 11#32)

/-- An element of the extension, by its coefficients. -/
structure ExtElem where
  e0 : Elem
  e1 : Elem
  e2 : Elem
  e3 : Elem
  deriving DecidableEq

namespace ExtElem

instance : Zero ExtElem := ⟨⟨0, 0, 0, 0⟩⟩
instance : One ExtElem := ⟨⟨1, 0, 0, 0⟩⟩
instance : Add ExtElem := ⟨fun a b => ⟨a.e0 + b.e0, a.e1 + b.e1, a.e2 + b.e2, a.e3 + b.e3⟩⟩
instance : Sub ExtElem := ⟨fun a b => ⟨a.e0 - b.e0, a.e1 - b.e1, a.e2 - b.e2, a.e3 - b.e3⟩⟩
instance : Mul ExtElem := ⟨fun a b =>
  ⟨a.e0 * b.e0 + NBETA * (a.e1 * b.e3 + a.e2 * b.e2 + a.e3 * b.e1),
    a.e0 * b.e1 + a.e1 * b.e0 + NBETA * (a.e2 * b.e3 + a.e3 * b.e2),
    a.e0 * b.e2 + a.e1 * b.e1 + a.e2 * b.e0 + NBETA * (a.e3 * b.e3),
    a.e0 * b.e3 + a.e1 * b.e2 + a.e2 * b.e1 + a.e3 * b.e0⟩⟩

def pow (x : ExtElem) (n : ℕ) : ExtElem := powLoop n 1 x

def inv (a : ExtElem) : ExtElem :=
  let b0 := a.e0 * a.e0 + BETA * (a.e1 * (a.e3 + a.e3) - a.e2 * a.e2)
  let b2 := a.e0 * (a.e2 + a.e2) - a.e1 * a.e1 + BETA * (a.e3 * a.e3)
  let c := b0 * b0 + BETA * b2 * b2
  let ic := c.inv
  let b0 := b0 * ic
  let b2 := b2 * ic
  ⟨a.e0 * b0 + BETA * a.e2 * b2, -a.e1 * b0 + NBETA * a.e3 * b2, -a.e0 * b2 + a.e2 * b0, a.e1 * b2 - a.e3 * b0⟩

end ExtElem

@[simp] theorem toField_BETA : BETA.toField = 11 := toField_new 11#32

@[simp] theorem toField_NBETA : NBETA.toField = -11 := by
  rw [NBETA, toField_new]
  decide

open Polynomial

/-- The polynomial that the extension is taken modulo. -/
noncomputable def modulus : Fp[X] := X ^ 4 + C 11

noncomputable abbrev Quotient := AdjoinRoot modulus

namespace ExtElem

noncomputable def toPoly (x : ExtElem) : Fp[X] :=
  C x.e0.toField + C x.e1.toField * X + C x.e2.toField * X ^ 2 + C x.e3.toField * X ^ 3

noncomputable def toQuotient (x : ExtElem) : Quotient := AdjoinRoot.mk modulus x.toPoly

variable {x y : ExtElem}

theorem coeffs_injective (h0 : x.e0.toField = y.e0.toField) (h1 : x.e1.toField = y.e1.toField)
    (h2 : x.e2.toField = y.e2.toField) (h3 : x.e3.toField = y.e3.toField) : x = y := by
  cases x
  cases y
  rw [mk.injEq]
  exact ⟨toField_injective h0, toField_injective h1, toField_injective h2, toField_injective h3⟩

theorem monic_modulus : modulus.Monic := monic_X_pow_add_C 11 (by decide)

theorem degree_modulus : modulus.degree = 4 := degree_X_pow_add_C (by decide) 11

theorem natDegree_modulus : modulus.natDegree = 4 := natDegree_X_pow_add_C

theorem modulus_ne_one : modulus ≠ 1 := by
  intro h
  have hdeg := natDegree_modulus
  rw [h, natDegree_one] at hdeg
  exact absurd hdeg (by decide)

theorem mk_X_pow : (AdjoinRoot.mk modulus X) ^ 4 = -11 := by
  rw [← map_pow, eq_neg_iff_add_eq_zero]
  exact AdjoinRoot.mk_self

theorem coeff_toPoly (x : ExtElem) :
    x.toPoly.coeff 0 = x.e0.toField ∧ x.toPoly.coeff 1 = x.e1.toField ∧ x.toPoly.coeff 2 = x.e2.toField ∧
      x.toPoly.coeff 3 = x.e3.toField := by
  refine ⟨?_, ?_, ?_, ?_⟩ <;> simp [toPoly, coeff_X, coeff_C, coeff_X_pow]

theorem degree_toPoly (x : ExtElem) : x.toPoly.degree < 4 := by
  rw [toPoly]
  compute_degree!

theorem toQuotient_injective : Function.Injective toQuotient := by
  intro x y h
  have hdvd : modulus ∣ x.toPoly - y.toPoly := by
    rw [← AdjoinRoot.mk_eq_zero, map_sub, sub_eq_zero]
    exact h
  have hdeg : (x.toPoly - y.toPoly).degree < modulus.degree := by
    rw [degree_modulus]
    exact lt_of_le_of_lt (degree_sub_le _ _) (max_lt x.degree_toPoly y.degree_toPoly)
  have hpoly : x.toPoly = y.toPoly := sub_eq_zero.mp (eq_zero_of_dvd_of_degree_lt hdvd hdeg)
  obtain ⟨hx0, hx1, hx2, hx3⟩ := x.coeff_toPoly
  obtain ⟨hy0, hy1, hy2, hy3⟩ := y.coeff_toPoly
  apply coeffs_injective
  · rw [← hx0, ← hy0, hpoly]
  · rw [← hx1, ← hy1, hpoly]
  · rw [← hx2, ← hy2, hpoly]
  · rw [← hx3, ← hy3, hpoly]

theorem toQuotient_surjective : Function.Surjective toQuotient := by
  intro z
  obtain ⟨p, rfl⟩ := AdjoinRoot.mk_surjective z
  obtain ⟨e0, h0⟩ := toField_surjective ((p %ₘ modulus).coeff 0)
  obtain ⟨e1, h1⟩ := toField_surjective ((p %ₘ modulus).coeff 1)
  obtain ⟨e2, h2⟩ := toField_surjective ((p %ₘ modulus).coeff 2)
  obtain ⟨e3, h3⟩ := toField_surjective ((p %ₘ modulus).coeff 3)
  have hpoly : (⟨e0, e1, e2, e3⟩ : ExtElem).toPoly = p %ₘ modulus := by
    rw [toPoly, h0, h1, h2, h3]
    have hnat : (p %ₘ modulus).natDegree < 4 :=
      (natDegree_modByMonic_lt p monic_modulus modulus_ne_one).trans_eq natDegree_modulus
    conv_rhs => rw [as_sum_range_C_mul_X_pow' (p %ₘ modulus) hnat]
    simp only [Finset.sum_range_succ, Finset.sum_range_zero, pow_zero, pow_one, mul_one, zero_add]
  refine ⟨⟨e0, e1, e2, e3⟩, ?_⟩
  rw [toQuotient, hpoly, AdjoinRoot.mk_eq_mk]
  refine ⟨-(p /ₘ modulus), ?_⟩
  rw [modByMonic_eq_sub_mul_div]
  ring

theorem toQuotient_eq (x : ExtElem) :
    x.toQuotient = AdjoinRoot.of modulus x.e0.toField + AdjoinRoot.of modulus x.e1.toField * AdjoinRoot.mk modulus X +
      AdjoinRoot.of modulus x.e2.toField * AdjoinRoot.mk modulus X ^ 2 +
      AdjoinRoot.of modulus x.e3.toField * AdjoinRoot.mk modulus X ^ 3 := by
  rw [toQuotient, toPoly]
  simp only [map_add, map_mul, map_pow, AdjoinRoot.mk_C]

theorem toQuotient_zero : (0 : ExtElem).toQuotient = 0 := by
  rw [toQuotient_eq]
  change AdjoinRoot.of modulus (0 : Elem).toField + AdjoinRoot.of modulus (0 : Elem).toField * _ +
    AdjoinRoot.of modulus (0 : Elem).toField * _ + AdjoinRoot.of modulus (0 : Elem).toField * _ = 0
  rw [toField_zero, map_zero]
  ring

theorem toQuotient_one : (1 : ExtElem).toQuotient = 1 := by
  rw [toQuotient_eq]
  change AdjoinRoot.of modulus (1 : Elem).toField + AdjoinRoot.of modulus (0 : Elem).toField * _ +
    AdjoinRoot.of modulus (0 : Elem).toField * _ + AdjoinRoot.of modulus (0 : Elem).toField * _ = 1
  rw [toField_zero, toField_one, map_zero, map_one]
  ring

theorem toQuotient_add (x y : ExtElem) : (x + y).toQuotient = x.toQuotient + y.toQuotient := by
  rw [toQuotient_eq, toQuotient_eq, toQuotient_eq]
  change AdjoinRoot.of modulus (x.e0 + y.e0).toField + AdjoinRoot.of modulus (x.e1 + y.e1).toField * _ +
    AdjoinRoot.of modulus (x.e2 + y.e2).toField * _ + AdjoinRoot.of modulus (x.e3 + y.e3).toField * _ = _
  simp only [toField_add, map_add]
  ring

theorem toQuotient_sub (x y : ExtElem) : (x - y).toQuotient = x.toQuotient - y.toQuotient := by
  rw [toQuotient_eq, toQuotient_eq, toQuotient_eq]
  change AdjoinRoot.of modulus (x.e0 - y.e0).toField + AdjoinRoot.of modulus (x.e1 - y.e1).toField * _ +
    AdjoinRoot.of modulus (x.e2 - y.e2).toField * _ + AdjoinRoot.of modulus (x.e3 - y.e3).toField * _ = _
  simp only [toField_sub, map_sub]
  ring

theorem mul_def (a b : ExtElem) : a * b = ⟨a.e0 * b.e0 + NBETA * (a.e1 * b.e3 + a.e2 * b.e2 + a.e3 * b.e1),
      a.e0 * b.e1 + a.e1 * b.e0 + NBETA * (a.e2 * b.e3 + a.e3 * b.e2),
      a.e0 * b.e2 + a.e1 * b.e1 + a.e2 * b.e0 + NBETA * (a.e3 * b.e3),
      a.e0 * b.e3 + a.e1 * b.e2 + a.e2 * b.e1 + a.e3 * b.e0⟩ := rfl

theorem toQuotient_mul (x y : ExtElem) : (x * y).toQuotient = x.toQuotient * y.toQuotient := by
  rw [toQuotient_eq, toQuotient_eq, toQuotient_eq, mul_def]
  simp only [toField_add, toField_mul, toField_NBETA, map_add, map_mul, map_neg, map_ofNat]
  linear_combination
    -(AdjoinRoot.of modulus x.e1.toField * AdjoinRoot.of modulus y.e3.toField +
        AdjoinRoot.of modulus x.e2.toField * AdjoinRoot.of modulus y.e2.toField +
        AdjoinRoot.of modulus x.e3.toField * AdjoinRoot.of modulus y.e1.toField +
        (AdjoinRoot.of modulus x.e2.toField * AdjoinRoot.of modulus y.e3.toField +
          AdjoinRoot.of modulus x.e3.toField * AdjoinRoot.of modulus y.e2.toField) * AdjoinRoot.mk modulus X +
        AdjoinRoot.of modulus x.e3.toField * AdjoinRoot.of modulus y.e3.toField * AdjoinRoot.mk modulus X ^ 2) *
      mk_X_pow

theorem toQuotient_pow (x : ExtElem) (n : ℕ) : (x.pow n).toQuotient = x.toQuotient ^ n := by
  rw [pow, map_powLoop toQuotient toQuotient_mul, toQuotient_one, one_mul]

/-- Neither `11` nor `-11` is a square. -/
theorem not_isSquare_eleven : ¬ IsSquare (11 : Fp) := by
  rw [ZMod.euler_criterion 2013265921 (by decide)]
  norm_num1
  reduce_mod_char
  decide

theorem not_isSquare_neg_eleven : ¬ IsSquare (-11 : Fp) := by
  rw [ZMod.euler_criterion 2013265921 (by decide)]
  norm_num1
  reduce_mod_char
  decide

theorem eq_zero_of_norm {a b : Fp} (h : a * a + 11 * b * b = 0) : a = 0 ∧ b = 0 := by
  by_cases hb : b = 0
  · refine ⟨?_, hb⟩
    rw [hb] at h
    exact mul_self_eq_zero.mp (by linear_combination h)
  · refine absurd ⟨a / b, ?_⟩ not_isSquare_neg_eleven
    field_simp
    linear_combination -h

theorem eq_zero_of_conj {a0 a1 a2 a3 : Fp} (h0 : a0 * a0 + 11 * (a1 * (a3 + a3) - a2 * a2) = 0)
    (h2 : a0 * (a2 + a2) - a1 * a1 + 11 * (a3 * a3) = 0) : a0 = 0 ∧ a1 = 0 ∧ a2 = 0 ∧ a3 = 0 := by
  have hsquares : (a0 ^ 2 + 11 * a2 ^ 2) ^ 2 = 11 * (a1 ^ 2 + 11 * a3 ^ 2) ^ 2 := by
    linear_combination (a0 ^ 2 - 11 * a2 ^ 2 - 22 * a1 * a3) * h0 + 11 * (2 * a0 * a2 + a1 ^ 2 - 11 * a3 ^ 2) * h2
  by_cases hnorm : a1 * a1 + 11 * a3 * a3 = 0
  · have hzero : (a0 * a0 + 11 * a2 * a2) * (a0 * a0 + 11 * a2 * a2) = 0 := by
      linear_combination hsquares + 11 * (a1 * a1 + 11 * a3 * a3) * hnorm
    obtain ⟨ha1, ha3⟩ := eq_zero_of_norm hnorm
    obtain ⟨ha0, ha2⟩ := eq_zero_of_norm (mul_self_eq_zero.mp hzero)
    exact ⟨ha0, ha1, ha2, ha3⟩
  · refine absurd ⟨(a0 * a0 + 11 * a2 * a2) / (a1 * a1 + 11 * a3 * a3), ?_⟩ not_isSquare_eleven
    rw [div_mul_div_comm, eq_div_iff (mul_ne_zero hnorm hnorm)]
    linear_combination -hsquares

/-- The element whose inverse gives the inverse of `a`. -/
def norm (a : ExtElem) : Elem :=
  let b0 := a.e0 * a.e0 + BETA * (a.e1 * (a.e3 + a.e3) - a.e2 * a.e2)
  let b2 := a.e0 * (a.e2 + a.e2) - a.e1 * a.e1 + BETA * (a.e3 * a.e3)
  b0 * b0 + BETA * b2 * b2

theorem toField_norm_ne_zero (hx : x ≠ 0) : x.norm.toField ≠ 0 := by
  intro h
  simp only [norm, toField_add, toField_sub, toField_mul, toField_BETA] at h
  obtain ⟨hb0, hb2⟩ := eq_zero_of_norm h
  obtain ⟨h0, h1, h2, h3⟩ := eq_zero_of_conj hb0 hb2
  refine hx (coeffs_injective ?_ ?_ ?_ ?_)
  · exact h0.trans toField_zero.symm
  · exact h1.trans toField_zero.symm
  · exact h2.trans toField_zero.symm
  · exact h3.trans toField_zero.symm

theorem inv_eq (a : ExtElem) : a.inv =
      ⟨a.e0 * ((a.e0 * a.e0 + BETA * (a.e1 * (a.e3 + a.e3) - a.e2 * a.e2)) * a.norm.inv) +
          BETA * a.e2 * ((a.e0 * (a.e2 + a.e2) - a.e1 * a.e1 + BETA * (a.e3 * a.e3)) * a.norm.inv),
        -a.e1 * ((a.e0 * a.e0 + BETA * (a.e1 * (a.e3 + a.e3) - a.e2 * a.e2)) * a.norm.inv) +
          NBETA * a.e3 * ((a.e0 * (a.e2 + a.e2) - a.e1 * a.e1 + BETA * (a.e3 * a.e3)) * a.norm.inv),
        -a.e0 * ((a.e0 * (a.e2 + a.e2) - a.e1 * a.e1 + BETA * (a.e3 * a.e3)) * a.norm.inv) +
          a.e2 * ((a.e0 * a.e0 + BETA * (a.e1 * (a.e3 + a.e3) - a.e2 * a.e2)) * a.norm.inv),
        a.e1 * ((a.e0 * (a.e2 + a.e2) - a.e1 * a.e1 + BETA * (a.e3 * a.e3)) * a.norm.inv) -
          a.e3 * ((a.e0 * a.e0 + BETA * (a.e1 * (a.e3 + a.e3) - a.e2 * a.e2)) * a.norm.inv)⟩ := rfl

theorem inv_mul_cancel (hx : x ≠ 0) : x.inv * x = 1 := by
  have hic := mul_inv_cancel₀ (toField_norm_ne_zero hx)
  rw [← toField_inv] at hic
  rw [inv_eq, mul_def]
  generalize x.norm.inv = ic at hic ⊢
  simp only [norm, toField_add, toField_sub, toField_mul, toField_BETA] at hic
  refine coeffs_injective ?_ ?_ ?_ ?_ <;>
  simp only [toField_add, toField_sub, toField_mul, toField_neg, toField_BETA, toField_NBETA]
  · rw [show (1 : ExtElem).e0.toField = 1 from toField_one]
    linear_combination hic
  · rw [show (1 : ExtElem).e1.toField = 0 from toField_zero]
    ring
  · rw [show (1 : ExtElem).e2.toField = 0 from toField_zero]
    ring
  · rw [show (1 : ExtElem).e3.toField = 0 from toField_zero]
    ring

theorem inv_zero : (0 : ExtElem).inv = 0 := by
  have hnorm : (0 : ExtElem).norm = 0 := by decide
  rw [inv_eq, hnorm, Elem.inv_zero]
  decide

/-! The extension is a field over the words. -/

/-- An element of the subfield. -/
def ofElem (x : Elem) : ExtElem := ⟨x, 0, 0, 0⟩

theorem toQuotient_ofElem (x : Elem) : (ofElem x).toQuotient = AdjoinRoot.of modulus x.toField := by
  rw [toQuotient_eq]
  change AdjoinRoot.of modulus x.toField + AdjoinRoot.of modulus (0 : Elem).toField * _ +
    AdjoinRoot.of modulus (0 : Elem).toField * _ + AdjoinRoot.of modulus (0 : Elem).toField * _ = _
  rw [toField_zero, map_zero]
  ring

instance : Neg ExtElem := ⟨fun x => 0 - x⟩
instance : NatCast ExtElem := ⟨fun val => ofElem val⟩
instance : IntCast ExtElem := ⟨fun val => ofElem val⟩
instance : SMul ℕ ExtElem := ⟨fun n x => (n : ExtElem) * x⟩
instance : SMul ℤ ExtElem := ⟨fun n x => (n : ExtElem) * x⟩
instance : Pow ExtElem ℕ := ⟨fun x n => npowRec n x⟩
instance : Inv ExtElem := ⟨inv⟩

theorem toQuotient_neg (x : ExtElem) : (-x).toQuotient = -x.toQuotient :=
  (toQuotient_sub 0 x).trans (by rw [toQuotient_zero, zero_sub])

theorem toQuotient_natCast (val : ℕ) : (val : ExtElem).toQuotient = (val : Quotient) :=
  (toQuotient_ofElem val).trans (by rw [toField_natCast, map_natCast])

theorem toQuotient_intCast (val : ℤ) : (val : ExtElem).toQuotient = (val : Quotient) :=
  (toQuotient_ofElem val).trans (by rw [toField_intCast, map_intCast])

theorem toQuotient_npow (x : ExtElem) (n : ℕ) : (x ^ n).toQuotient = x.toQuotient ^ n := by
  induction n with
  | zero => exact toQuotient_one.trans (pow_zero x.toQuotient).symm
  | succ n ih =>
    exact (toQuotient_mul (npowRec n x) x).trans
      ((congrArg (· * x.toQuotient) ih).trans (pow_succ x.toQuotient n).symm)

theorem zero_ne_one : (0 : ExtElem) ≠ 1 := fun h => Elem.zero_ne_one (congrArg e0 h)

noncomputable instance instCommRing : CommRing ExtElem :=
  toQuotient_injective.commRing toQuotient toQuotient_zero toQuotient_one toQuotient_add toQuotient_mul toQuotient_neg
    toQuotient_sub (fun n x => (toQuotient_mul _ _).trans (by rw [toQuotient_natCast, nsmul_eq_mul]))
    (fun n x => (toQuotient_mul _ _).trans (by rw [toQuotient_intCast, zsmul_eq_mul])) toQuotient_npow toQuotient_natCast
    toQuotient_intCast

noncomputable instance instField : Field ExtElem where
  inv := inv
  zpow := zpowRec npowRec
  zpow_neg' := fun n x => congrArg inv (npowRec_eq_zpowRec n x)
  exists_pair_ne := ⟨0, 1, zero_ne_one⟩
  mul_inv_cancel := fun x hx => (mul_comm x x.inv).trans (inv_mul_cancel hx)
  inv_zero := inv_zero
  nnqsmul := _
  nnqsmul_def := fun _ _ => rfl
  qsmul := _
  qsmul_def := fun _ _ => rfl

noncomputable def ofElemHom : Elem →+* ExtElem where
  toFun := ofElem
  map_one' := rfl
  map_zero' := rfl
  map_mul' := fun x y => toQuotient_injective
    ((toQuotient_ofElem _).trans (by rw [Elem.toField_mul, map_mul, toQuotient_mul, toQuotient_ofElem, toQuotient_ofElem]))
  map_add' := fun x y => toQuotient_injective
    ((toQuotient_ofElem _).trans (by rw [Elem.toField_add, map_add, toQuotient_add, toQuotient_ofElem, toQuotient_ofElem]))

noncomputable instance instAlgebra : Algebra Elem ExtElem := ofElemHom.toAlgebra

end ExtElem

/-- The words stay below the modulus and the double words do not overflow; decoding takes the words
to the integers modulo the prime, and the coefficients are those of the quotient. -/
theorem arithmetic_correct :
    (∀ a b : U32, a < P → b < P → add a b < P ∧ sub a b < P ∧ mul a b < P ∧ encode a < P ∧ decode a < P ∧
      (mulTerms a b).1.toNat + (mulTerms a b).2.toNat < 2 ^ 64) ∧
    (∀ x : U32, (decode (encode x)).toNat = x.toNat % P.toNat ∧
      (mulTerms R2 x).1.toNat + (mulTerms R2 x).2.toNat < 2 ^ 64 ∧
      (mulTerms 1#32 x).1.toNat + (mulTerms 1#32 x).2.toNat < 2 ^ 64) ∧
    Function.Bijective Elem.toField ∧
    (∀ x y : Elem, (x + y).toField = x.toField + y.toField ∧ (x - y).toField = x.toField - y.toField ∧
      (x * y).toField = x.toField * y.toField) ∧
    (∀ (x : Elem) (n : ℕ), (x.pow n).toField = x.toField ^ n) ∧
    (∀ x : Elem, x ≠ 0 → x.inv * x = 1) ∧ (0 : Elem).inv = 0 ∧
    Function.Bijective ExtElem.toQuotient ∧
    (∀ x y : ExtElem, (x + y).toQuotient = x.toQuotient + y.toQuotient ∧
      (x - y).toQuotient = x.toQuotient - y.toQuotient ∧ (x * y).toQuotient = x.toQuotient * y.toQuotient) ∧
    (∀ (x : ExtElem) (n : ℕ), (x.pow n).toQuotient = x.toQuotient ^ n) ∧
    (∀ x : ExtElem, x ≠ 0 → x.inv * x = 1) ∧ (0 : ExtElem).inv = 0 := by
  refine ⟨?_, ?_, ⟨Elem.toField_injective, Elem.toField_surjective⟩, ?_, Elem.toField_pow, fun _ => Elem.inv_mul_cancel,
    Elem.inv_zero, ⟨ExtElem.toQuotient_injective, ExtElem.toQuotient_surjective⟩, ?_, ExtElem.toQuotient_pow,
    fun _ => ExtElem.inv_mul_cancel, ExtElem.inv_zero⟩
  · intro a b ha hb
    have hb' : b.toNat ≤ 2013265921 := by
      rw [BitVec.lt_def, toNat_P] at hb
      exact hb.le
    exact ⟨add_lt ha hb, sub_lt ha hb, mul_lt (mul_fits ha hb), mul_lt (encode_fits a), mul_lt (decode_fits a),
      mulTerms_lt a hb'⟩
  · intro x
    rw [toNat_P, mulTerms_comm R2, mulTerms_comm 1#32]
    exact ⟨decode_encode x, mulTerms_lt x (by decide), mulTerms_lt x (by decide)⟩
  · exact fun x y => ⟨Elem.toField_add x y, Elem.toField_sub x y, Elem.toField_mul x y⟩
  · exact fun x y => ⟨ExtElem.toQuotient_add x y, ExtElem.toQuotient_sub x y, ExtElem.toQuotient_mul x y⟩

theorem arithmetic_correct_sample :
    mul 5#32 7#32 < P ∧ (⟨.new 2#32, 0, 1, 0⟩ : ExtElem).inv * ⟨.new 2#32, 0, 1, 0⟩ = 1 :=
  ⟨(arithmetic_correct.1 5#32 7#32 (by decide) (by decide)).2.2.1,
    arithmetic_correct.2.2.2.2.2.2.2.2.2.2.1 ⟨.new 2#32, 0, 1, 0⟩ (by decide)⟩

end VerifiableCompute.Zkp.BabyBear
