import VerifiableCompute.Lib.Bits
import VerifiableCompute.Zkp.BabyBear

/-! The number-theoretic transform in place: butterflies over halves, down to the level at which
the values of an expanded buffer start. -/

namespace VerifiableCompute.Zkp.Ntt

open Lib Finset Option Function

/-- Roots of unity for each power of two. -/
class RootsOfUnity (B : Type) where
  MAX_ROU_PO2 : ℕ
  ROU_FWD : List B
  ROU_REV : List B

open RootsOfUnity

def bitRev32 (x : BitVec 32) : BitVec 32 :=
  let x := ((x &&& 0xaaaaaaaa#32) >>> 1) ||| ((x &&& 0x55555555#32) <<< 1)
  let x := ((x &&& 0xcccccccc#32) >>> 2) ||| ((x &&& 0x33333333#32) <<< 2)
  let x := ((x &&& 0xf0f0f0f0#32) >>> 4) ||| ((x &&& 0x0f0f0f0f#32) <<< 4)
  let x := ((x &&& 0xff00ff00#32) >>> 8) ||| ((x &&& 0x00ff00ff#32) <<< 8)
  x.rotateLeft 16

def log2CeilFrom (value : ℕ) : ℕ → ℕ → ℕ
  | 0, result => result
  | fuel + 1, result => if 2 ^ result < value then log2CeilFrom value fuel (result + 1) else result

/-- The loop stops before the power of two that the value is below. -/
def log2Ceil (value : ℕ) : ℕ := log2CeilFrom value value 0

variable {T : Type}

/-- An index out of range panics. -/
def swap (io : List T) (i j : ℕ) : Option (List T) := do
  let a ← io[i]?
  let b ← io[j]?
  return (io.set i b).set j a

/-- The shift by `32 - n` overflows for `n = 0`. Without overflow checks it is taken modulo 32. -/
def revIdx (checks : Bool) (n i : ℕ) : Option ℕ :=
  if checks = true ∧ ¬(0 < n ∧ n ≤ 32) then none
  else some (bitRev32 (BitVec.ofNat 32 i) >>> ((32 - n % 32) % 32)).toNat

def bitReverseStep (checks : Bool) (n : ℕ) (io : List T) (i : ℕ) : Option (List T) := do
  let rev ← revIdx checks n i
  if i < rev then swap io i rev else some io

def bitReverse (checks : Bool) (io : List T) : Option (List T) :=
  let n := log2Ceil io.length
  if 2 ^ n = io.length then (List.range io.length).foldlM (bitReverseStep checks n) io else none

section Butterflies

variable {B : Type} [Field B] [RootsOfUnity B] [AddCommGroup T] [Module B T]

/-- The loop of the forward butterfly over the two halves. -/
def fwdLoop (step : B) : B → List T → List T → List T × List T
  | cur, a :: as, b :: bs =>
    let rest := fwdLoop step (cur * step) as bs
    ((a + cur • b) :: rest.1, (a - cur • b) :: rest.2)
  | _, _, _ => ([], [])

def fwdButterfly (B : Type) [Field B] [RootsOfUnity B] [Module B T] (expandBits : ℕ) : ℕ → List T → Option (List T)
  | 0, io => some io
  | n + 1, io =>
    if n + 1 = expandBits then some io
    else do
      let lo ← fwdButterfly B expandBits n (io.take (2 ^ n))
      let hi ← fwdButterfly B expandBits n (io.drop (2 ^ n))
      let step : B ← ROU_FWD[n + 1]?
      let out := fwdLoop step 1 lo hi
      return out.1 ++ out.2

/-- The loop of the reverse butterfly. -/
def revLoop (step : B) : B → List T → List T → List T × List T
  | cur, a :: as, b :: bs =>
    let rest := revLoop step (cur * step) as bs
    ((a + b) :: rest.1, cur • (a - b) :: rest.2)
  | _, _, _ => ([], [])

def revButterfly (B : Type) [Field B] [RootsOfUnity B] [Module B T] : ℕ → List T → Option (List T)
  | 0, io => some io
  | n + 1, io => do
    let step : B ← ROU_REV[n + 1]?
    let out := revLoop step 1 (io.take (2 ^ n)) (io.drop (2 ^ n))
    let lo ← revButterfly B n out.1
    let hi ← revButterfly B n out.2
    return lo ++ hi

/-- The butterflies are there for up to `32` bits. -/
def interpolateNtt (B : Type) [Field B] [RootsOfUnity B] [Module B T] (io : List T) : Option (List T) := do
  let n := log2Ceil io.length
  if 2 ^ n = io.length ∧ n ≤ 32 then
    let out ← revButterfly B n io
    let norm : B := (io.length : B)⁻¹
    return out.map (norm • ·)
  else none

def evaluateNtt (B : Type) [Field B] [RootsOfUnity B] [Module B T] (io : List T) (expandBits : ℕ) : Option (List T) :=
  let n := log2Ceil io.length
  if 2 ^ n = io.length ∧ n ≤ 32 then fwdButterfly B expandBits n io else none

end Butterflies

/-- The expanded buffer, of `input.len() * (1 << expand_bits)` elements. -/
def expand [Zero T] (input : List T) (expandBits : ℕ) : List T :=
  (List.range (input.length * 2 ^ expandBits)).map fun i => input.getD (i >>> expandBits) 0

section Reversal

variable {checks : Bool} {n i : ℕ} {io : List T}

theorem bitRev32_eq (x : BitVec 32) : bitRev32 x = x.reverse := by
  apply BitVec.eq_of_getLsbD_eq
  intro i hi
  unfold bitRev32
  rw [BitVec.getLsbD_reverse, BitVec.getMsbD_eq_getLsbD]
  interval_cases i <;> simp

theorem revIdx_eq (hn : 0 < n) (hn32 : n ≤ 32) (hi : i < 2 ^ n) : revIdx checks n i = some (bitRev n i) := by
  have hshift : (32 - n % 32) % 32 = 32 - n := by omega
  rw [revIdx, if_neg fun h => h.2 ⟨hn, hn32⟩, hshift]
  congr 1
  apply Nat.eq_of_testBit_eq
  intro j
  have hi32 : i < 2 ^ 32 := lt_of_lt_of_le hi (Nat.pow_le_pow_right two_pos hn32)
  rw [BitVec.toNat_ushiftRight, Nat.testBit_shiftRight, BitVec.testBit_toNat, bitRev32_eq, BitVec.getLsbD_reverse,
    BitVec.getMsbD_eq_getLsbD, BitVec.getLsbD_ofNat]
  by_cases hj : j < n
  · rw [testBit_bitRev hi hj, decide_eq_true (by omega), decide_eq_true (by omega), Bool.true_and, Bool.true_and]
    congr 1
    omega
  · have hpow : 2 ^ n ≤ 2 ^ j := Nat.pow_le_pow_right two_pos (Nat.le_of_not_lt hj)
    rw [decide_eq_false (by omega), Bool.false_and, Nat.testBit_lt_two_pow (lt_of_lt_of_le (bitRev_lt hi) hpow)]

/-- The pairs that begin below `m` are exchanged. -/
structure Swapped (n m : ℕ) (io l : List T) : Prop where
  length : l.length = io.length
  at_eq : ∀ j < 2 ^ n, l[j]? = if min j (bitRev n j) < m then io[bitRev n j]? else io[j]?

theorem getElem?_set_set {l : List T} {j k : ℕ} {a b : T} (hi : i < l.length) (hj : j < l.length) :
    ((l.set i b).set j a)[k]? = if j = k then some a else if i = k then some b else l[k]? := by
  rw [List.getElem?_set, List.length_set, List.getElem?_set]
  simp only [hi, hj, if_true]

theorem Swapped.step {m : ℕ} {l : List T} (hn : 0 < n) (hn32 : n ≤ 32) (hlen : io.length = 2 ^ n) (hm : m < 2 ^ n)
    (hl : Swapped n m io l) : ∃ l', bitReverseStep checks n l m = some l' ∧ Swapped n (m + 1) io l' := by
  have hrev := bitRev_lt hm
  have hback := bitRev_bitRev hm
  rw [bitReverseStep, revIdx_eq hn hn32 hm, bind_eq_bind, bind_some]
  by_cases hlt : m < bitRev n m
  · have hma : l[m]? = io[m]? := (hl.at_eq m hm).trans (if_neg (by omega))
    have hmb : l[bitRev n m]? = io[bitRev n m]? := (hl.at_eq _ hrev).trans (if_neg (by rw [hback]; omega))
    have hmlen : m < io.length := hlen ▸ hm
    have hrlen : bitRev n m < io.length := hlen ▸ hrev
    rw [if_pos hlt, swap, hma, hmb, List.getElem?_eq_getElem hmlen, List.getElem?_eq_getElem hrlen]
    refine ⟨_, rfl, ?_, fun j hj => ?_⟩
    · rw [List.length_set, List.length_set, hl.length]
    · rw [getElem?_set_set (hl.length ▸ hmlen) (hl.length ▸ hrlen)]
      by_cases hjr : bitRev n m = j
      · rw [if_pos hjr, if_pos (by rw [← hjr, hback]; omega), ← hjr, hback, List.getElem?_eq_getElem hmlen]
      · rw [if_neg hjr]
        by_cases hjm : m = j
        · rw [if_pos hjm, if_pos (by omega), ← hjm, List.getElem?_eq_getElem hrlen]
        · rw [if_neg hjm, hl.at_eq j hj]
          have hjback := bitRev_bitRev hj
          have hother : bitRev n j ≠ m := fun h => hjr (by rw [← h, hjback])
          congr 1
          exact propext ⟨fun h => by omega, fun h => by omega⟩
  · rw [if_neg hlt]
    refine ⟨l, rfl, hl.length, fun j hj => ?_⟩
    rw [hl.at_eq j hj]
    by_cases hmin : min j (bitRev n j) = m
    · have hfix : bitRev n j = j := by
        have hjback := bitRev_bitRev hj
        obtain hjm | hjm : j = m ∨ bitRev n j = m := by omega
        · subst hjm
          omega
        · rw [← hjm, hjback] at hlt
          omega
      rw [hfix, ite_self, ite_self]
    · congr 1
      exact propext ⟨fun h => by omega, fun h => by omega⟩

theorem log2CeilFrom_two_pow {fuel result : ℕ} (hle : result ≤ n) (hfuel : n ≤ result + fuel) :
    log2CeilFrom (2 ^ n) fuel result = n := by
  induction fuel generalizing result with
  | zero => exact le_antisymm hle hfuel
  | succ fuel ih =>
    rw [log2CeilFrom]
    by_cases hlt : result < n
    · rw [if_pos (Nat.pow_lt_pow_right one_lt_two hlt)]
      exact ih hlt (by omega)
    · rw [if_neg (fun h => hlt ((Nat.pow_lt_pow_iff_right one_lt_two).mp h))]
      omega

theorem log2Ceil_two_pow (n : ℕ) : log2Ceil (2 ^ n) = n :=
  log2CeilFrom_two_pow (Nat.zero_le n) (by have := @Nat.lt_two_pow_self n; omega)

theorem exists_bitReverse (hn : 0 < n) (hn32 : n ≤ 32) (hlen : io.length = 2 ^ n) :
    ∃ out, bitReverse checks io = some out ∧ out.length = 2 ^ n ∧ ∀ j < 2 ^ n, out[j]? = io[bitRev n j]? := by
  have hloop : ∀ m ≤ 2 ^ n, ∃ l, (List.range m).foldlM (bitReverseStep checks n) io = some l ∧ Swapped n m io l := by
    intro m
    induction m with
    | zero => exact fun _ => ⟨io, rfl, rfl, fun j _ => (if_neg (Nat.not_lt_zero _)).symm⟩
    | succ m ih =>
      intro hm
      obtain ⟨l, hl, hswapped⟩ := ih (by omega)
      obtain ⟨l', hl', hswapped'⟩ := hswapped.step hn hn32 hlen (by omega)
      refine ⟨l', ?_, hswapped'⟩
      rw [List.range_succ, List.foldlM_append, hl, bind_eq_bind, bind_some, List.foldlM_cons, hl']
      rfl
  obtain ⟨out, hout, hswapped⟩ := hloop (2 ^ n) (Nat.le_refl _)
  refine ⟨out, ?_, hswapped.length.trans hlen, fun j hj => ?_⟩
  · rw [bitReverse, hlen, log2Ceil_two_pow, if_pos rfl, hout]
  · rw [hswapped.at_eq j hj, if_pos (by omega)]

/-- A buffer of one element shifts by a whole word; without overflow checks it stays as it is. -/
theorem bitReverse_single (x : T) : bitReverse checks [x] = if checks then none else some [x] := by
  cases checks with
  | true => rfl
  | false =>
    have hrev : revIdx false 0 0 = some 0 := by decide
    have hstep : bitReverseStep false 0 [x] 0 = some [x] := by
      rw [bitReverseStep, hrev]
      rfl
    rw [bitReverse, show log2Ceil [x].length = 0 from rfl, if_pos (by rfl), show List.range [x].length = [0] from rfl,
      List.foldlM_cons, hstep]
    rfl

theorem exists_bitReverse_bitReverse (hn : 0 < n) (hn32 : n ≤ 32) (hlen : io.length = 2 ^ n) :
    ∃ out, bitReverse checks io = some out ∧ bitReverse checks out = some io := by
  obtain ⟨out, hout, houtlen, hat⟩ := exists_bitReverse hn hn32 hlen
  obtain ⟨back, hback, hbacklen, hbackat⟩ := exists_bitReverse hn hn32 houtlen
  refine ⟨out, hout, hback.trans (congrArg some (List.ext_getElem? fun j => ?_))⟩
  by_cases hj : j < 2 ^ n
  · rw [hbackat j hj, hat _ (bitRev_lt hj), bitRev_bitRev hj]
  · rw [List.getElem?_eq_none (by omega), List.getElem?_eq_none (by omega)]

end Reversal

theorem list_eq_map_range [Zero T] (io : List T) : io = (List.range io.length).map fun i => io.getD i 0 := by
  apply List.ext_getElem
  · rw [List.length_map, List.length_range]
  · intro i hi hi'
    rw [List.getElem_map, List.getElem_range, List.getD_eq_getElem]

theorem take_map_range (f : ℕ → T) (m : ℕ) : ((List.range (m + m)).map f).take m = (List.range m).map f := by
  rw [← List.map_take, List.take_range, Nat.min_eq_left (Nat.le_add_left m m)]

theorem drop_map_range (f : ℕ → T) (m : ℕ) :
    ((List.range (m + m)).map f).drop m = (List.range m).map fun i => f (m + i) := by
  rw [List.range_add, List.map_append, List.drop_left' (by rw [List.length_map, List.length_range]), List.map_map]
  rfl

theorem map_range_append (f g : ℕ → T) (m : ℕ) (h : ∀ i < m, f (m + i) = g i) :
    (List.range m).map f ++ (List.range m).map g = (List.range (m + m)).map f := by
  rw [List.range_add, List.map_append, List.map_map]
  congr 1
  exact List.map_congr_left (fun i hi => (h i (List.mem_range.mp hi)).symm)

section Evaluation

variable {B : Type} [Field B] [AddCommGroup T] [Module B T]

/-- The value at `x` of the polynomial with `N` coefficients. -/
def evalPoly (N : ℕ) (a : ℕ → T) (x : B) : T := ∑ k ∈ range N, x ^ k • a k

theorem evalPoly_double (N : ℕ) (a : ℕ → T) (x : B) :
    evalPoly (2 * N) a x = evalPoly N (fun k => a (2 * k)) (x * x) + x • evalPoly N (fun k => a (2 * k + 1)) (x * x) := by
  induction N with
  | zero => simp [evalPoly]
  | succ N ih =>
    rw [evalPoly] at ih
    rw [evalPoly, Nat.mul_succ, sum_range_succ, sum_range_succ, ih, evalPoly, evalPoly, evalPoly, evalPoly, sum_range_succ,
      sum_range_succ, smul_add, smul_smul, ← pow_two, ← pow_mul, ← pow_succ']
    abel

theorem fwdLoop_map (step cur : B) (f g : ℕ → T) (m : ℕ) :
    fwdLoop step cur ((List.range m).map f) ((List.range m).map g) =
      ((List.range m).map fun i => f i + (cur * step ^ i) • g i, (List.range m).map fun i => f i - (cur * step ^ i) • g i) := by
  induction m generalizing cur f g with
  | zero => rfl
  | succ m ih =>
    have hpow (i : ℕ) : cur * step * step ^ i = cur * step ^ (i + 1) := by rw [pow_succ', mul_assoc]
    simp only [List.range_succ_eq_map, List.map_cons, List.map_map, fwdLoop]
    rw [show (f ∘ Nat.succ) = fun i => f (i + 1) from rfl, show (g ∘ Nat.succ) = fun i => g (i + 1) from rfl, ih]
    simp only [hpow, pow_zero, mul_one]
    rfl

theorem revLoop_map (step cur : B) (f g : ℕ → T) (m : ℕ) :
    revLoop step cur ((List.range m).map f) ((List.range m).map g) =
      ((List.range m).map fun i => f i + g i, (List.range m).map fun i => (cur * step ^ i) • (f i - g i)) := by
  induction m generalizing cur f g with
  | zero => rfl
  | succ m ih =>
    have hpow (i : ℕ) : cur * step * step ^ i = cur * step ^ (i + 1) := by rw [pow_succ', mul_assoc]
    simp only [List.range_succ_eq_map, List.map_cons, List.map_map, revLoop]
    rw [show (f ∘ Nat.succ) = fun i => f (i + 1) from rfl, show (g ∘ Nat.succ) = fun i => g (i + 1) from rfl, ih]
    simp only [hpow, pow_zero, mul_one]
    rfl

theorem fwdLoop_smul (c step cur : B) (as bs : List T) : fwdLoop step cur (as.map (c • ·)) (bs.map (c • ·)) =
      ((fwdLoop step cur as bs).1.map (c • ·), (fwdLoop step cur as bs).2.map (c • ·)) := by
  induction as generalizing cur bs with
  | nil => rfl
  | cons a as ih =>
    cases bs with
    | nil => rfl
    | cons b bs => simp only [List.map_cons, fwdLoop, ih, smul_add, smul_sub, smul_comm c cur b]

theorem revLoop_smul (c step cur : B) (as bs : List T) : revLoop step cur (as.map (c • ·)) (bs.map (c • ·)) =
      ((revLoop step cur as bs).1.map (c • ·), (revLoop step cur as bs).2.map (c • ·)) := by
  induction as generalizing cur bs with
  | nil => rfl
  | cons a as ih =>
    cases bs with
    | nil => rfl
    | cons b bs => simp only [List.map_cons, revLoop, ih, smul_add, ← smul_sub, smul_comm c cur (a - b)]

theorem map_norm (htwo : (2 : B) ≠ 0) (n : ℕ) (io : List T) :
    (io.map ((2 : B) ^ n • ·)).map (((2 : B) ^ n)⁻¹ • ·) = io := by
  rw [List.map_map]
  refine (List.map_congr_left fun x _ => ?_).trans (List.map_id io)
  rw [comp_apply, smul_smul, inv_mul_cancel₀ (pow_ne_zero n htwo), one_smul, id_eq]

/-- The roots of each level square to those of the level below, and the first is minus one. -/
structure Roots (B : Type) [Field B] [RootsOfUnity B] (limit : ℕ) (fwd rev : ℕ → B) : Prop where
  fwd_at : ∀ n ≤ limit, (ROU_FWD[n]? : Option B) = some (fwd n)
  rev_at : ∀ n ≤ limit, (ROU_REV[n]? : Option B) = some (rev n)
  fwd_one : fwd 1 = -1
  fwd_sq : ∀ n < limit, fwd (n + 1) * fwd (n + 1) = fwd n
  fwd_rev : ∀ n ≤ limit, fwd n * rev n = 1

variable [RootsOfUnity B] {limit : ℕ} {fwd rev : ℕ → B} {n m : ℕ}

theorem Roots.half (h : Roots B limit fwd rev) (hm : m < limit) : fwd (m + 1) ^ 2 ^ m = -1 := by
  induction m with
  | zero => rw [pow_zero, pow_one, h.fwd_one]
  | succ m ih => rw [pow_succ', pow_mul, pow_two, h.fwd_sq (m + 1) hm, ih (by omega)]

/-- The lower half of a level evaluates at the powers of the root, the upper half at their opposites. -/
theorem Roots.evalPoly_level (h : Roots B limit fwd rev) (hm : m < limit) (N : ℕ) (a : ℕ → T) (i : ℕ) :
    evalPoly (2 * N) a (fwd (m + 1) ^ i) =
        evalPoly N (fun k => a (2 * k)) (fwd m ^ i) + fwd (m + 1) ^ i • evalPoly N (fun k => a (2 * k + 1)) (fwd m ^ i) ∧
      evalPoly (2 * N) a (fwd (m + 1) ^ (2 ^ m + i)) =
        evalPoly N (fun k => a (2 * k)) (fwd m ^ i) - fwd (m + 1) ^ i • evalPoly N (fun k => a (2 * k + 1)) (fwd m ^ i) := by
  have hsq : fwd (m + 1) ^ i * fwd (m + 1) ^ i = fwd m ^ i := by rw [← mul_pow, h.fwd_sq m hm]
  constructor
  · rw [evalPoly_double, hsq]
  · rw [evalPoly_double, pow_add, h.half hm, neg_one_mul, neg_mul_neg, hsq, neg_smul, ← sub_eq_add_neg]

variable {io lo hi out : List T}

theorem Roots.fwdButterfly_succ (h : Roots B limit fwd rev) {e : ℕ} (hn : n < limit) (he : n + 1 ≠ e)
    (hlo : fwdButterfly B e n (io.take (2 ^ n)) = some lo) (hhi : fwdButterfly B e n (io.drop (2 ^ n)) = some hi) :
    fwdButterfly B e (n + 1) io = some ((fwdLoop (fwd (n + 1)) 1 lo hi).1 ++ (fwdLoop (fwd (n + 1)) 1 lo hi).2) := by
  rw [fwdButterfly, if_neg he, hlo, hhi, h.fwd_at (n + 1) hn]
  rfl

theorem Roots.revButterfly_succ (h : Roots B limit fwd rev) (hn : n < limit)
    (hlo : revButterfly B n (revLoop (rev (n + 1)) 1 (io.take (2 ^ n)) (io.drop (2 ^ n))).1 = some lo)
    (hhi : revButterfly B n (revLoop (rev (n + 1)) 1 (io.take (2 ^ n)) (io.drop (2 ^ n))).2 = some hi) :
    revButterfly B (n + 1) io = some (lo ++ hi) := by
  rw [revButterfly, h.rev_at (n + 1) hn]
  simp only [bind_eq_bind, bind_some, hlo, hhi]
  rfl

/-- Blocks of `2 ^ e` copies of the coefficients, in reversed order, are taken to the values. -/
theorem Roots.fwdButterfly_expand (h : Roots B limit fwd rev) (e : ℕ) (a : ℕ → T) (hn : n + e ≤ limit) :
    fwdButterfly B e (n + e) ((List.range (2 ^ (n + e))).map fun i => a (bitRev n (i >>> e))) =
      some ((List.range (2 ^ (n + e))).map fun i => evalPoly (2 ^ n) a (fwd (n + e) ^ i)) := by
  induction n generalizing a with
  | zero =>
    have hconst (x : B) : evalPoly (2 ^ 0) a x = a 0 := by
      rw [evalPoly, pow_zero, sum_range_one, pow_zero, one_smul]
    simp only [bitRev, hconst]
    cases e with
    | zero => rfl
    | succ e => rw [Nat.zero_add, fwdButterfly, if_pos rfl]
  | succ n ih =>
    have hlevel : n + 1 + e = n + e + 1 := Nat.add_right_comm n 1 e
    have hshift {i : ℕ} (hi : i < 2 ^ (n + e)) : i >>> e < 2 ^ n := by
      rw [Nat.shiftRight_eq_div_pow]
      exact Nat.div_lt_of_lt_mul (by rwa [← pow_add, Nat.add_comm])
    have hlo : ((List.range (2 ^ (n + e))).map fun i => a (bitRev (n + 1) (i >>> e))) =
        (List.range (2 ^ (n + e))).map fun i => a (2 * bitRev n (i >>> e)) :=
      List.map_congr_left (fun i hi => by rw [bitRev_lower (hshift (List.mem_range.mp hi))])
    have hhi : ((List.range (2 ^ (n + e))).map fun i => a (bitRev (n + 1) ((2 ^ (n + e) + i) >>> e))) =
        (List.range (2 ^ (n + e))).map fun i => a (2 * bitRev n (i >>> e) + 1) := by
      refine List.map_congr_left (fun i hi => ?_)
      have hsum : (2 ^ (n + e) + i) >>> e = 2 ^ n + i >>> e := by
        rw [Nat.shiftRight_eq_div_pow, Nat.shiftRight_eq_div_pow, pow_add, Nat.mul_comm,
          Nat.mul_add_div (Nat.two_pow_pos e)]
      rw [hsum, bitRev_upper (hshift (List.mem_range.mp hi))]
    have hsize : 2 ^ (n + e + 1) = 2 ^ (n + e) + 2 ^ (n + e) := by rw [pow_succ, Nat.mul_two]
    rw [hlevel, hsize, h.fwdButterfly_succ (by omega) (by omega)
      (by rw [take_map_range, hlo]; exact ih (fun k => a (2 * k)) (by omega))
      (by rw [drop_map_range, hhi]; exact ih (fun k => a (2 * k + 1)) (by omega)), fwdLoop_map]
    have heval := h.evalPoly_level (m := n + e) (by omega) (2 ^ n) a
    have hdouble : 2 * 2 ^ n = 2 ^ (n + 1) := by rw [pow_succ, Nat.mul_comm]
    rw [hdouble] at heval
    simp only [one_mul, ← (heval _).1, ← (heval _).2]
    exact congrArg some (map_range_append _ _ _ (fun i _ => rfl))

theorem exists_halves (hlen : io.length = 2 ^ (n + 1)) :
    ∃ f g : ℕ → T, io.take (2 ^ n) = (List.range (2 ^ n)).map f ∧ io.drop (2 ^ n) = (List.range (2 ^ n)).map g := by
  have hsize : 2 ^ (n + 1) = 2 ^ n + 2 ^ n := by rw [pow_succ, Nat.mul_two]
  refine ⟨fun i => io.getD i 0, fun i => io.getD (2 ^ n + i) 0, ?_, ?_⟩
  · apply List.ext_getElem
    · rw [List.length_take, List.length_map, List.length_range, hlen, hsize, Nat.min_eq_left (Nat.le_add_left _ _)]
    · intro i hi hi'
      rw [List.getElem_take, List.getElem_map, List.getElem_range, List.getD_eq_getElem]
  · apply List.ext_getElem
    · rw [List.length_drop, List.length_map, List.length_range, hlen, hsize, Nat.add_sub_cancel]
    · intro i hi hi'
      rw [List.getElem_drop, List.getElem_map, List.getElem_range, List.getD_eq_getElem]

section

variable (h : Roots B limit fwd rev)

include h

theorem Roots.fwdButterfly_smul (c : B) (e : ℕ) (hn : n ≤ limit)
    (hout : fwdButterfly B e n io = some out) : fwdButterfly B e n (io.map (c • ·)) = some (out.map (c • ·)) := by
  induction n generalizing io out with
  | zero =>
    rw [fwdButterfly] at hout ⊢
    rw [Option.some.inj hout]
  | succ n ih =>
    by_cases he : n + 1 = e
    · rw [fwdButterfly, if_pos he] at hout ⊢
      rw [Option.some.inj hout]
    · rw [fwdButterfly, if_neg he] at hout
      obtain ⟨lo, hlo, hout⟩ := bind_eq_some_iff.mp hout
      obtain ⟨hi, hhi, hout⟩ := bind_eq_some_iff.mp hout
      rw [h.fwd_at (n + 1) hn] at hout
      rw [h.fwdButterfly_succ hn he (by rw [← List.map_take]; exact ih (by omega) hlo)
        (by rw [← List.map_drop]; exact ih (by omega) hhi), fwdLoop_smul, ← Option.some.inj hout, List.map_append]

theorem Roots.revButterfly_smul (c : B) (hn : n ≤ limit)
    (hout : revButterfly B n io = some out) : revButterfly B n (io.map (c • ·)) = some (out.map (c • ·)) := by
  induction n generalizing io out with
  | zero =>
    rw [revButterfly] at hout ⊢
    rw [Option.some.inj hout]
  | succ n ih =>
    rw [revButterfly, h.rev_at (n + 1) hn, bind_eq_bind, bind_some] at hout
    obtain ⟨lo, hlo, hout⟩ := bind_eq_some_iff.mp hout
    obtain ⟨hi, hhi, hout⟩ := bind_eq_some_iff.mp hout
    rw [h.revButterfly_succ hn (by rw [← List.map_take, ← List.map_drop, revLoop_smul]; exact ih (by omega) hlo)
      (by rw [← List.map_take, ← List.map_drop, revLoop_smul]; exact ih (by omega) hhi), ← Option.some.inj hout,
      List.map_append]

theorem Roots.pow_mul_pow (hn : n ≤ limit) (i : ℕ) : fwd n ^ i * rev n ^ i = 1 := by
  rw [← mul_pow, h.fwd_rev n hn, one_pow]

theorem Roots.exists_revButterfly (hn : n ≤ limit) (hlen : io.length = 2 ^ n) :
    ∃ out, revButterfly B n io = some out ∧ out.length = 2 ^ n ∧
      fwdButterfly B 0 n out = some (io.map ((2 : B) ^ n • ·)) := by
  induction n generalizing io with
  | zero =>
    refine ⟨io, rfl, hlen, ?_⟩
    simp only [fwdButterfly, pow_zero, one_smul, List.map_id']
  | succ n ih =>
    obtain ⟨f, g, htake, hdrop⟩ := exists_halves hlen
    have hio : io = (List.range (2 ^ n)).map f ++ (List.range (2 ^ n)).map g := by
      rw [← htake, ← hdrop, List.take_append_drop]
    obtain ⟨lo, hlo, hlolen, hfwdlo⟩ := @ih ((List.range (2 ^ n)).map fun i => f i + g i) (by omega) (by simp)
    obtain ⟨hi, hhi, hhilen, hfwdhi⟩ :=
      @ih ((List.range (2 ^ n)).map fun i => (1 * rev (n + 1) ^ i) • (f i - g i)) (by omega) (by simp)
    refine ⟨lo ++ hi, ?_, ?_, ?_⟩
    · exact h.revButterfly_succ hn (by rw [htake, hdrop, revLoop_map]; exact hlo)
        (by rw [htake, hdrop, revLoop_map]; exact hhi)
    · rw [List.length_append, hlolen, hhilen, pow_succ, Nat.mul_two]
    · rw [h.fwdButterfly_succ hn (Nat.succ_ne_zero n) (by rw [List.take_left' hlolen]; exact hfwdlo)
        (by rw [List.drop_left' hlolen]; exact hfwdhi), List.map_map, List.map_map, fwdLoop_map, hio, List.map_append,
        List.map_map, List.map_map]
      refine congrArg some (congrArg₂ _ (List.map_congr_left fun i _ => ?_) (List.map_congr_left fun i _ => ?_))
      · simp only [comp_apply, one_mul, smul_comm ((2 : B) ^ n) (rev (n + 1) ^ i), smul_smul,
          ← mul_assoc, h.pow_mul_pow hn, one_mul, ← smul_add]
        rw [add_add_sub_cancel, ← two_smul B, smul_smul, pow_succ]
      · simp only [comp_apply, one_mul, smul_comm ((2 : B) ^ n) (rev (n + 1) ^ i), smul_smul,
          ← mul_assoc, h.pow_mul_pow hn, one_mul, ← smul_sub]
        rw [add_sub_sub_cancel, ← two_smul B, smul_smul, pow_succ]

theorem Roots.exists_fwdButterfly (hn : n ≤ limit) (hlen : io.length = 2 ^ n) :
    ∃ out, fwdButterfly B 0 n io = some out ∧ out.length = 2 ^ n ∧
      revButterfly B n out = some (io.map ((2 : B) ^ n • ·)) := by
  induction n generalizing io with
  | zero =>
    refine ⟨io, rfl, hlen, ?_⟩
    simp only [revButterfly, pow_zero, one_smul, List.map_id']
  | succ n ih =>
    have hsize : 2 ^ (n + 1) = 2 ^ n + 2 ^ n := by rw [pow_succ, Nat.mul_two]
    obtain ⟨lo, hlo, hlolen, hrevlo⟩ := @ih (io.take (2 ^ n)) (by omega)
      (by rw [List.length_take, hlen, hsize, Nat.min_eq_left (Nat.le_add_left _ _)])
    obtain ⟨hi, hhi, hhilen, hrevhi⟩ := @ih (io.drop (2 ^ n)) (by omega)
      (by rw [List.length_drop, hlen, hsize, Nat.add_sub_cancel])
    have hlo' := list_eq_map_range lo
    have hhi' := list_eq_map_range hi
    rw [hlolen] at hlo'
    rw [hhilen] at hhi'
    refine ⟨_, h.fwdButterfly_succ hn (Nat.succ_ne_zero n) hlo hhi, ?_, ?_⟩
    · rw [hlo', hhi', fwdLoop_map]
      simp [hsize]
    · have hloops : revLoop (rev (n + 1)) 1 (fwdLoop (fwd (n + 1)) 1 lo hi).1 (fwdLoop (fwd (n + 1)) 1 lo hi).2 =
          (lo.map ((2 : B) • ·), hi.map ((2 : B) • ·)) := by
        rw [hlo', hhi', fwdLoop_map, revLoop_map, List.map_map, List.map_map]
        refine congrArg₂ Prod.mk (List.map_congr_left fun i _ => ?_) (List.map_congr_left fun i _ => ?_)
        · simp only [comp_apply, add_add_sub_cancel, two_smul]
        · simp only [comp_apply, add_sub_sub_cancel, one_mul, ← two_smul B (fwd (n + 1) ^ i • _), smul_smul]
          rw [mul_comm, mul_assoc, h.pow_mul_pow hn, mul_one]
      have hfstlen : (fwdLoop (fwd (n + 1)) 1 lo hi).1.length = 2 ^ n := by
        rw [hlo', hhi', fwdLoop_map, List.length_map, List.length_range]
      rw [h.revButterfly_succ hn
        (by rw [List.take_left' hfstlen, List.drop_left' hfstlen, hloops]; exact h.revButterfly_smul 2 (by omega) hrevlo)
        (by rw [List.take_left' hfstlen, List.drop_left' hfstlen, hloops]; exact h.revButterfly_smul 2 (by omega) hrevhi),
        ← List.map_append, ← List.map_append, List.take_append_drop, List.map_map]
      refine congrArg some (List.map_congr_left fun x _ => ?_)
      rw [comp_apply, smul_smul, pow_succ']

end

variable (hsmall : limit ≤ 32) (htwo : (2 : B) ≠ 0)

include hsmall in
theorem evaluateNtt_eq (e : ℕ) (hn : n ≤ limit) (hlen : io.length = 2 ^ n) :
    evaluateNtt B io e = fwdButterfly B e n io := by
  rw [evaluateNtt, hlen, log2Ceil_two_pow, if_pos ⟨rfl, hn.trans hsmall⟩]

include hsmall in
theorem interpolateNtt_eq (hn : n ≤ limit) (hlen : io.length = 2 ^ n)
    (hout : revButterfly B n io = some out) : interpolateNtt B io = some (out.map (((2 : B) ^ n)⁻¹ • ·)) := by
  rw [interpolateNtt, hlen, log2Ceil_two_pow, if_pos ⟨rfl, hn.trans hsmall⟩, hout, Nat.cast_pow, Nat.cast_ofNat]
  rfl

include hsmall htwo in
theorem Roots.evaluate_interpolate (h : Roots B limit fwd rev) (hn : n ≤ limit) (hlen : io.length = 2 ^ n) :
    ∃ c, interpolateNtt B io = some c ∧ c.length = 2 ^ n ∧ evaluateNtt B c 0 = some io := by
  obtain ⟨out, hout, houtlen, hfwd⟩ := h.exists_revButterfly hn hlen
  have hclen : (out.map (((2 : B) ^ n)⁻¹ • ·)).length = 2 ^ n := by rw [List.length_map, houtlen]
  refine ⟨_, interpolateNtt_eq hsmall hn hlen hout, hclen, ?_⟩
  rw [evaluateNtt_eq hsmall 0 hn hclen, h.fwdButterfly_smul _ 0 hn hfwd, map_norm htwo]

include hsmall htwo in
theorem Roots.interpolate_evaluate (h : Roots B limit fwd rev) (hn : n ≤ limit) (hlen : io.length = 2 ^ n) :
    ∃ v, evaluateNtt B io 0 = some v ∧ interpolateNtt B v = some io := by
  obtain ⟨out, hout, houtlen, hrev⟩ := h.exists_fwdButterfly hn hlen
  refine ⟨out, (evaluateNtt_eq hsmall 0 hn hlen).trans hout, ?_⟩
  rw [interpolateNtt_eq hsmall hn houtlen hrev, map_norm htwo]

include hsmall in
theorem Roots.evaluate_expand (h : Roots B limit fwd rev) {a : ℕ → T} (e : ℕ) (hn : n + e ≤ limit)
    (hlen : io.length = 2 ^ n) (ha : ∀ i < 2 ^ n, io.getD i 0 = a (bitRev n i)) : evaluateNtt B (expand io e) e =
      some ((List.range (2 ^ (n + e))).map fun i => evalPoly (2 ^ n) a (fwd (n + e) ^ i)) := by
  have hexpand : expand io e = (List.range (2 ^ (n + e))).map fun i => a (bitRev n (i >>> e)) := by
    rw [expand, hlen, ← pow_add]
    refine List.map_congr_left (fun i hi => ha _ ?_)
    rw [Nat.shiftRight_eq_div_pow]
    exact Nat.div_lt_of_lt_mul (by rw [← pow_add, Nat.add_comm]; exact List.mem_range.mp hi)
  rw [evaluateNtt_eq hsmall e hn (by rw [hexpand, List.length_map, List.length_range]), hexpand,
    h.fwdButterfly_expand e a hn]

theorem expand_zero (io : List T) : expand io 0 = io := by
  rw [expand, pow_zero, Nat.mul_one]
  exact (list_eq_map_range io).symm

end Evaluation

section BabyBear

open BabyBear

instance instRootsOfUnityElem : RootsOfUnity Elem where
  MAX_ROU_PO2 := 27
  ROU_FWD :=
    [1, 2013265920, 284861408, 1801542727, 567209306, 740045640, 918899846, 1881002012, 1453957774, 65325759, 1538055801,
      515192888, 483885487, 157393079, 1695124103, 2005211659, 1540072241, 88064245, 1542985445, 1269900459, 1461624142,
      825701067, 682402162, 1311873874, 1164520853, 352275361, 18769, 137].map Elem.new
  ROU_REV :=
    [1, 2013265920, 1728404513, 1592366214, 196396260, 1253260071, 72041623, 1091445674, 145223211, 1446820157, 1030796471,
      2010749425, 1827366325, 1239938613, 246299276, 596347512, 1893145354, 246074437, 1525739923, 1194341128, 1463599021,
      704606912, 95395244, 15672543, 647517488, 584175179, 137728885, 749463956].map Elem.new

def rouFwd (n : ℕ) : Elem := ROU_FWD.getD n 0

def rouRev (n : ℕ) : Elem := ROU_REV.getD n 0

theorem roots_babyBear : Roots Elem (MAX_ROU_PO2 Elem) rouFwd rouRev := by
  have hsq : ∀ n : Fin 27, rouFwd (n + 1) * rouFwd (n + 1) = rouFwd n := by decide
  have hrev : ∀ n : Fin 28, rouFwd n * rouRev n = 1 := by decide
  refine ⟨?_, ?_, ?_, ?_, ?_⟩
  · intro n hn
    have hlen : n < (ROU_FWD (B := Elem)).length := Nat.lt_succ_of_le hn
    rw [rouFwd, List.getElem?_eq_getElem hlen, List.getD_eq_getElem _ _ hlen]
  · intro n hn
    have hlen : n < (ROU_REV (B := Elem)).length := Nat.lt_succ_of_le hn
    rw [rouRev, List.getElem?_eq_getElem hlen, List.getD_eq_getElem _ _ hlen]
  · decide
  · exact fun n hn => hsq ⟨n, hn⟩
  · exact fun n hn => hrev ⟨n, Nat.lt_succ_of_le hn⟩

theorem two_ne_zero_elem : (2 : Elem) ≠ 0 := by decide

variable [AddCommGroup T] [Module Elem T] {n : ℕ} {io : List T}

/-- What the transforms do on a buffer of `2 ^ n` elements, in a build with overflow checks and in one without. -/
structure NttCorrect (n : ℕ) (io : List T) : Prop where
  evaluates : ∀ checks, ∃ reversed, bitReverse checks io = some reversed ∧
    evaluateNtt Elem reversed 0 =
      some ((List.range (2 ^ n)).map fun i => evalPoly (2 ^ n) (fun k => io.getD k 0) (rouFwd n ^ i))
  evaluate_interpolate : ∃ c, interpolateNtt Elem io = some c ∧ evaluateNtt Elem c 0 = some io
  interpolate_evaluate : ∃ v, evaluateNtt Elem io 0 = some v ∧ interpolateNtt Elem v = some io
  involution : ∀ checks, ∃ reversed, bitReverse checks io = some reversed ∧ bitReverse checks reversed = some io
  expands : ∀ e, n + e ≤ 27 → ∃ (c : List T) (a : ℕ → T), interpolateNtt Elem io = some c ∧
    (∀ i < 2 ^ n, evalPoly (2 ^ n) a (rouFwd n ^ i) = io.getD i 0) ∧
    evaluateNtt Elem (expand c e) e =
      some ((List.range (2 ^ (n + e))).map fun i => evalPoly (2 ^ n) a (rouFwd (n + e) ^ i))

/-- The transforms are right on every buffer of more than one element; on one of one element the
reversal overflows. -/
theorem nttCorrect_iff (hn : n ≤ 27) (hlen : io.length = 2 ^ n) : NttCorrect n io ↔ n ≠ 0 := by
  have hsmall : MAX_ROU_PO2 Elem ≤ 32 := by decide
  constructor
  · rintro h rfl
    obtain ⟨reversed, hreversed, -⟩ := h.involution true
    obtain ⟨x, rfl⟩ := List.length_eq_one_iff.mp hlen
    rw [bitReverse_single, if_pos rfl] at hreversed
    exact Option.some_ne_none reversed hreversed.symm
  · intro hpos
    have hn32 : n ≤ 32 := hn.trans (by decide)
    obtain ⟨c, hc, hclen, hback⟩ := roots_babyBear.evaluate_interpolate hsmall two_ne_zero_elem hn hlen
    refine ⟨fun checks => ?_, ⟨c, hc, hback⟩,
      roots_babyBear.interpolate_evaluate hsmall two_ne_zero_elem hn hlen,
      fun checks => exists_bitReverse_bitReverse (Nat.pos_of_ne_zero hpos) hn32 hlen, fun e he => ?_⟩
    · obtain ⟨reversed, hreversed, hrevlen, hat⟩ := @exists_bitReverse _ checks _ _ (Nat.pos_of_ne_zero hpos) hn32 hlen
      refine ⟨reversed, hreversed, ?_⟩
      have heval := roots_babyBear.evaluate_expand hsmall (a := fun k => io.getD k 0) 0 hn hrevlen
        (fun i hi => by rw [List.getD_eq_getElem?_getD, List.getD_eq_getElem?_getD, hat i hi])
      rwa [expand_zero] at heval
    · obtain ⟨a, ha⟩ : ∃ a : ℕ → T, ∀ i < 2 ^ n, c.getD i 0 = a (bitRev n i) :=
        ⟨fun k => c.getD (bitRev n k) 0, fun i hi => congrArg (c.getD · 0) (bitRev_bitRev hi).symm⟩
      refine ⟨c, a, hc, fun i hi => ?_, roots_babyBear.evaluate_expand hsmall e he hclen ha⟩
      have heval := roots_babyBear.evaluate_expand hsmall 0 hn hclen ha
      rw [expand_zero, hback] at heval
      rw [Option.some.inj heval, List.getD_eq_getElem _ _ (by rwa [List.length_map, List.length_range]), List.getElem_map,
        List.getElem_range]
      rfl

theorem nttCorrect_iff_pair : ([⟨1, 0, 0, 2⟩, ⟨0, 3, 0, 1⟩] : List ExtElem).length = 2 ^ 1 ∧
      (NttCorrect 1 ([⟨1, 0, 0, 2⟩, ⟨0, 3, 0, 1⟩] : List ExtElem) ↔ 1 ≠ 0) :=
  ⟨rfl, nttCorrect_iff (by decide) rfl⟩

theorem not_nttCorrect_single : ¬ ∀ (n : ℕ) (io : List Elem), n ≤ 27 → io.length = 2 ^ n → NttCorrect n io := by
  intro h
  obtain ⟨reversed, hreversed, -⟩ := (h 0 [1] (Nat.zero_le 27) rfl).involution true
  rw [bitReverse_single, if_pos rfl] at hreversed
  exact Option.some_ne_none reversed hreversed.symm

end BabyBear

end VerifiableCompute.Zkp.Ntt
