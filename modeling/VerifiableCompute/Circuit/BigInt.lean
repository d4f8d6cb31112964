import VerifiableCompute.Circuit.Registers
import VerifiableCompute.Lib.Checked
import VerifiableCompute.Lib.Coefficients

/-! The check of big integers. A program of polynomial operations builds up a total, whose value at 256 is to be zero; the preflight finds
the carries of the total and hands them out in three bytes each, and the accumulator columns hold the polynomials at a random point. -/

namespace VerifiableCompute.Circuit.BigInt

open Lib List

abbrev Word := BitVec 32

/-! ### Coefficients of 32 bits -/

/-- A step that is refused, and an operation that overflows. -/
inductive Fault
  | bail (message : String)
  | overflow

def InI32 (x : ℤ) : Prop := -2147483648 ≤ x ∧ x < 2147483648

instance instDecidableInI32 (x : ℤ) : Decidable (InI32 x) := inferInstanceAs (Decidable (_ ∧ _))

def i32 (x : ℤ) : Except Fault ℤ := if InI32 x then .ok x else .error .overflow

theorem i32_eq_ok {x y : ℤ} : i32 x = .ok y ↔ InI32 x ∧ y = x := by
  unfold i32
  split
  · next h => exact ⟨fun heq => ⟨h, (Except.ok.inj heq).symm⟩, fun heq => by rw [heq.2]⟩
  · next h =>
    constructor
    · intro heq
      cases heq
    · intro heq
      exact absurd heq.1 h

theorem mapM_i32 {α : Type} {f : α → ℤ} {l : List α} {ys : List ℤ} :
    (l.mapM fun a => i32 (f a)) = .ok ys ↔ (∀ a ∈ l, InI32 (f a)) ∧ ys = l.map f := by
  induction l generalizing ys with
  | nil => exact ⟨fun h => ⟨fun a ha => absurd ha not_mem_nil, (Except.ok.inj h).symm⟩, fun h => by rw [h.2]; rfl⟩
  | cons a l ih =>
    rw [mapM_cons, bind_ok_iff, forall_mem_cons, map_cons]
    constructor
    · rintro ⟨y, hy, h⟩
      obtain ⟨hin, rfl⟩ := i32_eq_ok.mp hy
      obtain ⟨ys', hys', h⟩ := bind_ok_iff.mp h
      obtain ⟨hall, rfl⟩ := ih.mp hys'
      exact ⟨⟨hin, hall⟩, (Except.ok.inj h).symm⟩
    · rintro ⟨⟨hin, hall⟩, rfl⟩
      exact ⟨f a, i32_eq_ok.mpr ⟨hin, rfl⟩, bind_ok_iff.mpr ⟨l.map f, ih.mpr ⟨hall, rfl⟩, rfl⟩⟩

/-- The coefficients, the lowest first. None is the list of none. -/
abbrev BytePolynomial := List ℤ

namespace BytePolynomial

def zero : BytePolynomial := [0]

def one : BytePolynomial := [1]

def negPoly : BytePolynomial := List.replicate 16 (-128)

def basisPoint : BytePolynomial := [-256, 1]

def shift (p : BytePolynomial) : BytePolynomial := List.replicate 16 0 ++ p

def scale (p : BytePolynomial) (rhs : ℤ) : Except Fault BytePolynomial := p.mapM fun c => i32 (c * rhs)

def add (p q : BytePolynomial) : Except Fault BytePolynomial :=
  (List.range (max p.length q.length)).mapM fun i => i32 (p.getD i 0 + q.getD i 0)

/-- `ret[i + j] += a * q[j]`. -/
def addProduct (a : ℤ) (q : BytePolynomial) (i : ℕ) (ret : BytePolynomial) (j : ℕ) : Except Fault BytePolynomial := do
  let product ← i32 (a * q.getD j 0)
  let sum ← i32 (ret.getD (i + j) 0 + product)
  .ok (ret.set (i + j) sum)

def addRow (p q : BytePolynomial) (ret : BytePolynomial) (i : ℕ) : Except Fault BytePolynomial :=
  (List.range q.length).foldlM (addProduct (p.getD i 0) q i) ret

def mul (p q : BytePolynomial) : Except Fault BytePolynomial :=
  (List.range p.length).foldlM (addRow p q) (List.replicate (p.length + q.length - 1) 0)

def propagateFrom (carry : ℤ) : BytePolynomial → Except Fault BytePolynomial
  | [] => .ok []
  | c :: cs => do
    let sum ← i32 (c + carry)
    if sum.tmod 256 ≠ 0 then .error (.bail "Bad carry")
    else do
      let rest ← propagateFrom (sum.tdiv 256) cs
      .ok (sum.tdiv 256 :: rest)

def propagateCarry (p : BytePolynomial) : Except Fault BytePolynomial := propagateFrom 0 p

variable {p q r : BytePolynomial}

open Polynomial in
theorem polyOf_shift (p : BytePolynomial) : polyOf (shift p) = X ^ 16 * polyOf p := by
  have hzeros (n : ℕ) : polyOf (replicate n 0 ++ p) = X ^ n * polyOf p := by
    induction n with
    | zero => rw [replicate_zero, nil_append, pow_zero, one_mul]
    | succ n ih => rw [replicate_succ, cons_append, polyOf_cons, ih, C_0, zero_add, pow_succ', mul_assoc]
  exact hzeros 16

open Polynomial in
theorem polyOf_scale {rhs : ℤ} (h : scale p rhs = .ok r) : polyOf r = polyOf p * C rhs := by
  obtain ⟨-, rfl⟩ := mapM_i32.mp h
  induction p with
  | nil => rw [map_nil, polyOf_nil, zero_mul]
  | cons c cs ih =>
    rw [scale, mapM_i32] at h ih
    rw [map_cons, polyOf_cons, polyOf_cons, ih ⟨fun a ha => h.1 a (mem_cons_of_mem _ ha), rfl⟩, C_mul]
    ring

theorem getD_map_range (f : ℕ → ℤ) (n k : ℕ) : ((range n).map f).getD k 0 = if k < n then f k else 0 := by
  rw [getD_eq_getElem?_getD, getElem?_map]
  split
  · next h => rw [getElem?_range h, Option.map_some, Option.getD_some]
  · next h => rw [getElem?_eq_none (by rw [length_range]; omega), Option.map_none, Option.getD_none]

theorem getD_of_length_le {k : ℕ} (h : p.length ≤ k) : p.getD k 0 = 0 := by
  rw [getD_eq_getElem?_getD, getElem?_eq_none h, Option.getD_none]

theorem add_eq_ok : add p q = .ok r ↔ (∀ i < max p.length q.length, InI32 (p.getD i 0 + q.getD i 0)) ∧
    r = (range (max p.length q.length)).map fun i => p.getD i 0 + q.getD i 0 := by
  rw [add, mapM_i32]
  simp only [mem_range]

theorem getD_add (h : add p q = .ok r) (k : ℕ) : r.getD k 0 = p.getD k 0 + q.getD k 0 := by
  obtain ⟨-, rfl⟩ := add_eq_ok.mp h
  rw [getD_map_range]
  split
  · rfl
  · next hk =>
    rw [Nat.not_lt, Nat.max_le] at hk
    rw [getD_of_length_le hk.1, getD_of_length_le hk.2, add_zero]

open Polynomial in
theorem polyOf_add (h : add p q = .ok r) : polyOf r = polyOf p + polyOf q := by
  ext k
  rw [coeff_add, coeff_polyOf, coeff_polyOf, coeff_polyOf, getD_add h]

variable {a : ℤ} {i n : ℕ} {ret : BytePolynomial}

theorem addProduct_eq_ok {j : ℕ} {ret' : BytePolynomial} : addProduct a q i ret j = .ok ret' ↔
    InI32 (a * q.getD j 0) ∧ InI32 (ret.getD (i + j) 0 + a * q.getD j 0) ∧ ret' = ret.set (i + j) (ret.getD (i + j) 0 + a * q.getD j 0) := by
  unfold addProduct
  constructor
  · intro h
    obtain ⟨product, hproduct, h⟩ := bind_ok_iff.mp h
    obtain ⟨hin, rfl⟩ := i32_eq_ok.mp hproduct
    obtain ⟨sum, hsum, h⟩ := bind_ok_iff.mp h
    obtain ⟨hin', rfl⟩ := i32_eq_ok.mp hsum
    exact ⟨hin, hin', (Except.ok.inj h).symm⟩
  · rintro ⟨hin, hin', rfl⟩
    exact bind_ok_iff.mpr ⟨_, i32_eq_ok.mpr ⟨hin, rfl⟩, bind_ok_iff.mpr ⟨_, i32_eq_ok.mpr ⟨hin', rfl⟩, rfl⟩⟩

open Polynomial in
theorem polyOf_addProducts (hroom : i + q.length ≤ ret.length) (hn : n ≤ q.length)
    (h : (range n).foldlM (addProduct a q i) ret = .ok r) :
    r.length = ret.length ∧ polyOf r = polyOf ret + C a * X ^ i * polyOf (q.take n) := by
  induction n generalizing r with
  | zero =>
    cases h
    refine ⟨rfl, ?_⟩
    rw [take_zero, polyOf_nil, mul_zero, add_zero]
  | succ n ih =>
    rw [range_succ, foldlM_append, bind_ok_iff] at h
    obtain ⟨mid, hmid, h⟩ := h
    obtain ⟨hlength, hpoly⟩ := ih (by omega) hmid
    rw [foldlM_cons, bind_ok_iff] at h
    obtain ⟨r', hr', h⟩ := h
    obtain ⟨-, -, rfl⟩ := addProduct_eq_ok.mp hr'
    cases h
    refine ⟨by rw [length_set, hlength], ?_⟩
    rw [polyOf_set (by omega), hpoly, polyOf_take_succ, add_sub_cancel_left, C_mul, pow_add]
    ring

open Polynomial in
theorem polyOf_addRow (hroom : i + q.length ≤ ret.length) (h : addRow p q ret i = .ok r) :
    r.length = ret.length ∧ polyOf r = polyOf ret + C (p.getD i 0) * X ^ i * polyOf q := by
  have := polyOf_addProducts hroom (Nat.le_refl _) h
  rwa [take_length] at this

open Polynomial in
theorem polyOf_mul (h : mul p q = .ok r) : polyOf r = polyOf p * polyOf q := by
  have hrows (n : ℕ) (hn : n ≤ p.length) (r : BytePolynomial)
      (h : (range n).foldlM (addRow p q) (replicate (p.length + q.length - 1) 0) = .ok r) :
      r.length = p.length + q.length - 1 ∧ polyOf r = polyOf (p.take n) * polyOf q := by
    induction n generalizing r with
    | zero =>
      cases h
      refine ⟨length_replicate, ?_⟩
      rw [take_zero, polyOf_nil, zero_mul]
      ext k
      rw [coeff_polyOf, getD_eq_getElem?_getD, getElem?_replicate]
      split
      · rfl
      · rfl
    | succ n ih =>
      rw [range_succ, foldlM_append, bind_ok_iff] at h
      obtain ⟨mid, hmid, h⟩ := h
      obtain ⟨hlength, hpoly⟩ := ih (by omega) mid hmid
      rw [foldlM_cons, bind_ok_iff] at h
      obtain ⟨r', hr', h⟩ := h
      cases h
      obtain ⟨hlength', hpoly'⟩ := polyOf_addRow (by omega) hr'
      refine ⟨by rw [hlength', hlength], ?_⟩
      rw [hpoly', hpoly, polyOf_take_succ, add_mul]
  have := (hrows p.length (Nat.le_refl _) r h).2
  rwa [take_length] at this

/-- All coefficients are in a range. -/
def Within (b : ℤ) (p : BytePolynomial) : Prop := ∀ k, |p.getD k 0| ≤ b

theorem addProducts_ok (hroom : i + q.length ≤ ret.length) (hn : n ≤ q.length)
    (hfits : ∀ j < n, InI32 (a * q.getD j 0) ∧ InI32 (ret.getD (i + j) 0 + a * q.getD j 0)) :
    ∃ r, (range n).foldlM (addProduct a q i) ret = .ok r ∧ r.length = ret.length ∧
      ∀ k, r.getD k 0 = ret.getD k 0 + if i ≤ k ∧ k < i + n then a * q.getD (k - i) 0 else 0 := by
  induction n with
  | zero =>
    refine ⟨ret, rfl, rfl, fun k => ?_⟩
    rw [if_neg (by omega), add_zero]
  | succ n ih =>
    obtain ⟨mid, hmid, hlength, hget⟩ := ih (by omega) fun j hj => hfits j (by omega)
    have hold : mid.getD (i + n) 0 = ret.getD (i + n) 0 := by
      rw [hget, if_neg (by omega), add_zero]
    obtain ⟨hin, hin'⟩ := hfits n (Nat.lt_succ_self n)
    rw [← hold] at hin'
    refine ⟨mid.set (i + n) (mid.getD (i + n) 0 + a * q.getD n 0), ?_, ?_, fun k => ?_⟩
    · rw [range_succ, foldlM_append, bind_ok_iff]
      exact ⟨mid, hmid, bind_ok_iff.mpr ⟨_, addProduct_eq_ok.mpr ⟨hin, hin', rfl⟩, rfl⟩⟩
    · rw [length_set, hlength]
    · rw [getD_set (by omega), hold]
      by_cases hk : i + n = k
      · rw [if_pos hk, if_pos (by omega), ← hk, Nat.add_sub_cancel_left]
      · rw [if_neg hk, hget]
        congr 1
        exact if_congr (by omega) rfl rfl

theorem basisPoint_mul_ok {b : ℤ} (hq : Within b q) (hb : 257 * b < 2147483648) : ∃ r, mul basisPoint q = .ok r := by
  generalize hstart : replicate (basisPoint.length + q.length - 1) (0 : ℤ) = start
  have hlength : start.length = 1 + q.length := by
    rw [← hstart, length_replicate, basisPoint, length_cons, length_singleton]
    omega
  have hzero (k : ℕ) : start.getD k 0 = 0 := by
    rw [← hstart, getD_eq_getElem?_getD, getElem?_replicate]
    split
    · rfl
    · rfl
  have hfits (j : ℕ) (_ : j < q.length) : InI32 (-256 * q.getD j 0) ∧ InI32 (start.getD (0 + j) 0 + -256 * q.getD j 0) := by
    have hj := abs_le.mp (hq j)
    rw [hzero, InI32, InI32]
    omega
  obtain ⟨low, hlow, hlowLength, hget⟩ := addProducts_ok (by omega) (Nat.le_refl q.length) hfits
  have hfits' (j : ℕ) (_ : j < q.length) : InI32 (1 * q.getD j 0) ∧ InI32 (low.getD (1 + j) 0 + 1 * q.getD j 0) := by
    have hj := abs_le.mp (hq j)
    have hj' := abs_le.mp (hq (1 + j))
    rw [hget, hzero, InI32, InI32, Nat.sub_zero]
    split
    · omega
    · omega
  obtain ⟨high, hhigh, -, -⟩ := addProducts_ok (by omega) (Nat.le_refl q.length) hfits'
  refine ⟨high, bind_ok_iff.mpr ⟨low, ?_, bind_ok_iff.mpr ⟨high, hhigh, rfl⟩⟩⟩
  rw [hstart]
  exact hlow

end BytePolynomial

/-! ### The preflight -/

structure BigIntInstruction where
  polyOp : Word
  memOp : Word
  coeff : Word
  reg : Word
  offset : Word

def decode (insn : Word) : BigIntInstruction where
  polyOp := (insn >>> 24) &&& 0x0F
  memOp := (insn >>> 28) &&& 0x0F
  coeff := (insn >>> 21) &&& 0x07
  reg := (insn >>> 16) &&& 0x1F
  offset := insn &&& 0xFFFF

def memoryOpCheck : Word := 2

inductive PolyOp
  | nop | shift | setTerm | addTotal | carry1 | carry2 | eqz
  deriving DecidableEq

namespace PolyOp

/-- In the order of their numbers. -/
def all : List PolyOp := [nop, shift, setTerm, addTotal, carry1, carry2, eqz]

def num (op : PolyOp) : ℕ := all.idxOf op

def tryFrom (v : Word) : Except Fault PolyOp :=
  all[v.toNat]?.elim (.error (.bail s!"Invalid polyOp value: {v.toNat}")) .ok

theorem num_lt (op : PolyOp) : op.num < 7 := by cases op <;> decide

theorem all_num (op : PolyOp) : all[op.num]? = some op := by cases op <;> rfl

theorem num_injective {op op' : PolyOp} (h : op.num = op'.num) : op = op' := by
  have hall := all_num op
  rw [h, all_num op'] at hall
  exact (Option.some.inj hall).symm

theorem tryFrom_eq_ok {v : Word} {op : PolyOp} : tryFrom v = .ok op ↔ v.toNat = op.num := by
  unfold tryFrom
  constructor
  · intro h
    cases hv : all[v.toNat]? with
    | none =>
      rw [hv] at h
      cases h
    | some op' =>
      rw [hv] at h
      cases h
      obtain ⟨hlt, rfl⟩ := List.getElem?_eq_some_iff.mp hv
      exact (List.Nodup.idxOf_getElem (by decide) _ hlt).symm
  · intro h
    rw [h]
    cases op <;> rfl

end PolyOp

/-- The four words of a chunk of 16 bytes. -/
abbrev Data := Fin 4 → Word

def dataByte (data : Data) (i j : Fin 4) : ℕ := ((data i >>> (8 * j.val)) &&& 0xFF).toNat

def dataBytes (data : Data) : List ℕ := (List.finRange 4).flatMap fun i => (List.finRange 4).map fun j => dataByte data i j

def fromData (data : Data) : BytePolynomial := (dataBytes data).map Nat.cast

def toData (ret : List (BitVec 8)) : Data := fun i =>
  (List.range 4).foldl (fun val j => val ||| (ret.getD (i.val * 4 + j) 0).setWidth 32 <<< (8 * j)) 0

structure BigIntPreflight where
  poly : BytePolynomial
  term : BytePolynomial
  total : BytePolynomial
  inCarry : Bool
  totCarry : BytePolynomial

open BigIntPreflight

namespace BigIntPreflight

open BytePolynomial

def new : BigIntPreflight := ⟨zero, one, zero, false, zero⟩

/-- The carries are found when they are first asked for. -/
def transition (s : BigIntPreflight) : Except Fault BigIntPreflight :=
  if s.inCarry then .ok s
  else do
    let totCarry ← s.total.propagateCarry
    .ok { s with totCarry := totCarry, inCarry := true }

def basePoint : ℤ := 128 * 256 * 64

/-- `(val >> 14) & 0xFF`, `(val >> 8) & 0x3F` and `val & 0xFF`. -/
def cut (val : ℤ) : PolyOp → Except Fault (BitVec 8)
  | .carry1 => .ok (.ofInt 8 (val / 16384 % 256))
  | .carry2 => .ok (.ofInt 8 (val / 256 % 64))
  | .shift => .ok (.ofInt 8 (val % 256))
  | .eqz => .ok (.ofInt 8 (val % 256))
  | _ => .error (.bail "Invalid polyOp with MemoryOp_Check")

def checkByte (inst : BigIntInstruction) (totCarry : BytePolynomial) (i : ℕ) : Except Fault (BitVec 8) := do
  let val ← i32 (totCarry.getD (inst.offset.toNat * 16 + i) 0 + basePoint)
  let op ← PolyOp.tryFrom inst.polyOp
  cut val op

variable (s : BigIntPreflight)

def memCheckAndNotPolyOpNop (inst : BigIntInstruction) : Except Fault (BigIntPreflight × Data) := do
  let s ← s.transition
  let ret ← (List.range 16).mapM (checkByte inst s.totCarry)
  .ok (s, toData ret)

def reset : BigIntPreflight := { s with poly := zero, term := one, total := zero, inCarry := false }

def apply (coeff : ℤ) (bytes newPoly : BytePolynomial) : PolyOp → Except Fault BigIntPreflight
  | .nop => .ok s.reset
  | .shift => .ok { s with poly := shift newPoly }
  | .setTerm => .ok { s with poly := zero, term := newPoly }
  | .addTotal => do
    let product ← mul newPoly s.term
    let product ← scale product coeff
    let total ← add s.total product
    .ok { s with total := total, term := one, poly := zero }
  | .carry1 => do
    let carry ← add bytes negPoly
    let carry ← scale carry 64
    let carry ← scale carry 256
    let poly ← add s.poly carry
    .ok { s with poly := poly }
  | .carry2 => do
    let carry ← scale bytes 256
    let poly ← add s.poly carry
    .ok { s with poly := poly }
  | .eqz => do
    let product ← mul basisPoint newPoly
    let total ← add s.total product
    if total.all (· = 0) then .ok s.reset else .error (.bail "INVALI_EQZ")

/-- The polynomial operation, on the bytes that are there. -/
def update (inst : BigIntInstruction) (data : Data) : Except Fault (BigIntPreflight × Data) := do
  let newPoly ← add s.poly (fromData data)
  let op ← PolyOp.tryFrom inst.polyOp
  let s ← s.apply (inst.coeff - 4).toInt (fromData data) newPoly op
  .ok (s, data)

def step (inst : BigIntInstruction) (data : Data) : Except Fault (BigIntPreflight × Data) :=
  if inst.polyOp ≠ 0 ∧ inst.memOp = memoryOpCheck then do
    let r ← s.memCheckAndNotPolyOpNop inst
    r.1.update inst r.2
  else s.update inst data

end BigIntPreflight

/-- The steps of a program, each an instruction with the bytes that are read or written, and the bytes that they are done on. -/
def run (s : BigIntPreflight) : List (Word × Data) → Except Fault (BigIntPreflight × List (Word × Data))
  | [] => .ok (s, [])
  | p :: ps => do
    let r ← s.step (decode p.1) p.2
    let rest ← run r.1 ps
    .ok (rest.1, (p.1, r.2) :: rest.2)

/-! ### Polynomials at a point -/

section Values

variable {K : Type} [CommRing K]

noncomputable def valueAt (z : K) (p : BytePolynomial) : K := Polynomial.aeval z (polyOf p)

open BytePolynomial Polynomial

variable (z : K) {p q r : BytePolynomial}

theorem valueAt_cons (c : ℤ) (cs : BytePolynomial) : valueAt z (c :: cs) = c + z * valueAt z cs := by
  rw [valueAt, polyOf_cons, map_add, map_mul, aeval_C, aeval_X, algebraMap_int_eq, eq_intCast]
  rfl

theorem valueAt_zero : valueAt z zero = 0 := by
  rw [zero, valueAt_cons, Int.cast_zero, zero_add, valueAt, polyOf_nil, map_zero, mul_zero]

theorem valueAt_one : valueAt z one = 1 := by
  rw [one, valueAt_cons, Int.cast_one, valueAt, polyOf_nil, map_zero, mul_zero, add_zero]

theorem valueAt_basisPoint : valueAt z basisPoint = z - (256 : ℤ) := by
  rw [basisPoint, valueAt_cons, ← one, valueAt_one, mul_one, Int.cast_neg]
  ring

theorem valueAt_shift (p : BytePolynomial) : valueAt z (shift p) = valueAt z p * z ^ 16 := by
  rw [valueAt, polyOf_shift, map_mul, map_pow, aeval_X, mul_comm]
  rfl

theorem valueAt_add (h : add p q = .ok r) : valueAt z r = valueAt z p + valueAt z q := by
  rw [valueAt, polyOf_add h, map_add]
  rfl

theorem valueAt_scale {rhs : ℤ} (h : scale p rhs = .ok r) : valueAt z r = valueAt z p * rhs := by
  rw [valueAt, polyOf_scale h, map_mul, aeval_C, algebraMap_int_eq, eq_intCast]
  rfl

theorem valueAt_mul (h : mul p q = .ok r) : valueAt z r = valueAt z p * valueAt z q := by
  rw [valueAt, polyOf_mul h, map_mul]
  rfl

theorem valueAt_of_all_zero (h : p.all (· = 0)) : valueAt z p = 0 := by
  induction p with
  | nil => rw [valueAt, polyOf_nil, map_zero]
  | cons c cs ih =>
    rw [all_cons, Bool.and_eq_true, decide_eq_true_eq] at h
    rw [valueAt_cons, h.1, ih h.2, Int.cast_zero, mul_zero, add_zero]

theorem valueAt_replicate_neg (n : ℕ) (c : ℤ) : valueAt z (replicate n (-c)) = -valueAt z (replicate n c) := by
  induction n with
  | zero => rw [replicate_zero, replicate_zero, valueAt, polyOf_nil, map_zero, neg_zero]
  | succ n ih =>
    rw [replicate_succ, replicate_succ, valueAt_cons, valueAt_cons, ih, Int.cast_neg]
    ring

end Values

/-! ### The accumulator columns -/

/-- The columns of a block that the accumulator reads. -/
structure BigIntBlock where
  polyOp : OneHot 7
  coeffBits : Fin 3 → BitReg
  bytes : List RegU8

namespace BigIntBlock

def set (inst : Word) (data : Data) : BigIntBlock where
  polyOp := .set 7 ((inst >>> 24) &&& 0x0f).toNat
  coeffBits i := ((inst >>> (21 + i.val)) &&& 1).toNat
  bytes := (dataBytes data).map Nat.cast

def getCoeff (x : BigIntBlock) : Fp := ∑ i, x.coeffBits i * ((2 ^ i.val : ℕ) : Fp)

end BigIntBlock

section Accumulator

variable {K : Type} [CommRing K] [Algebra Fp K]

@[ext] structure AccumTop (K : Type) where
  polyOp : OneHot 7
  localSum : K
  poly : K
  term : K
  total : K

/-- The values of the bytes and of as many bytes of 128 at `z`, and the power of `z` that is next. -/
def powers (z : K) (bytes : List RegU8) : K × K × K :=
  bytes.foldl (fun s b => (s.1 + s.2.2 * algebraMap Fp K b, s.2.1 + s.2.2 * algebraMap Fp K (128 : ℕ), s.2.2 * z)) (0, 0, 1)

namespace AccumTop

/-- The columns that the row alone gives. -/
def setPhase1 (block : BigIntBlock) (z : K) : AccumTop K :=
  ⟨.set 7 block.polyOp.get.val, (powers z block.bytes).1, 0, 1, 0⟩

/-- Those that the row before it gives, too. In a simple row they stay as they are. -/
def setPhase2 (row : AccumTop K) (block : BigIntBlock) (prev : AccumTop K) (z16 neg : K) : Option PolyOp → AccumTop K
  | some .shift => { row with poly := (prev.poly + row.localSum) * z16, term := prev.term, total := prev.total }
  | some .setTerm => { row with poly := 0, term := prev.poly + row.localSum, total := prev.total }
  | some .addTotal => { row with
      poly := 0
      term := 1
      total := prev.total + prev.term * (prev.poly + row.localSum) * algebraMap Fp K (block.getCoeff - (4 : ℕ)) }
  | some .carry1 => { row with
      poly := prev.poly + (row.localSum - neg) * algebraMap Fp K (16384 : ℕ), term := prev.term, total := prev.total }
  | some .carry2 => { row with poly := prev.poly + row.localSum * algebraMap Fp K (256 : ℕ), term := prev.term, total := prev.total }
  | _ => row

def set (block : BigIntBlock) (prev : AccumTop K) (z : K) : AccumTop K :=
  (setPhase1 block z).setPhase2 block prev (powers z block.bytes).2.2 (powers z block.bytes).2.1 PolyOp.all[block.polyOp.get.val]?

/-- What is to be equal where an operation is selected. -/
def branches (row : AccumTop K) (block : BigIntBlock) (prev : AccumTop K) (z : K) : PolyOp → List (K × K)
  | .nop => [(row.poly, 0), (row.term, 1), (row.total, 0)]
  | .shift => [(row.poly, (prev.poly + row.localSum) * (powers z block.bytes).2.2), (row.term, prev.term), (row.total, prev.total)]
  | .setTerm => [(row.poly, 0), (row.term, prev.poly + row.localSum), (row.total, prev.total)]
  | .addTotal => [(row.poly, 0), (row.term, 1),
      (row.total, prev.total + prev.term * (prev.poly + row.localSum) * algebraMap Fp K (block.getCoeff - (4 : ℕ)))]
  | .carry1 => [(row.poly, prev.poly + (row.localSum - (powers z block.bytes).2.1) * algebraMap Fp K (16384 : ℕ)), (row.term, prev.term),
      (row.total, prev.total)]
  | .carry2 => [(row.poly, prev.poly + row.localSum * algebraMap Fp K (256 : ℕ)), (row.term, prev.term), (row.total, prev.total)]
  | .eqz => [(row.poly, 0), (row.term, 1), (row.total, 0),
      (prev.total, (prev.poly + row.localSum) * (algebraMap Fp K (256 : ℕ) - z))]

/-- `isBigInt` is the product of the two selectors of the row. -/
structure Verified (row : AccumTop K) (isBigInt : Fp) (block : BigIntBlock) (prev : AccumTop K) (z : K) : Prop where
  polyOp : row.polyOp.get = isBigInt * block.polyOp.get
  localSum : (powers z block.bytes).1 * algebraMap Fp K isBigInt - row.localSum = 0
  branches (op : PolyOp) (e : K × K) (he : e ∈ row.branches block prev z op) (i : Fin 7) (hi : i.val = op.num) :
    (e.1 - e.2) * algebraMap Fp K (row.polyOp.bits i) = 0

/-- The row before a program: that of another block, or of an operation that does nothing. -/
def simple : AccumTop K := ⟨.set 7 0, 0, 0, 1, 0⟩

end AccumTop

def rows (z : K) (prev : AccumTop K) : List BigIntBlock → List (BigIntBlock × AccumTop K)
  | [] => []
  | block :: blocks => (block, .set block prev z) :: rows z (.set block prev z) blocks

def RowsVerified (z : K) (prev : AccumTop K) : List (BigIntBlock × AccumTop K) → Prop
  | [] => True
  | (block, row) :: rest => row.Verified 1 block prev z ∧ RowsVerified z row rest

section Rows

variable (z : K)

theorem powers_natCast (bytes : List ℕ) : powers z (bytes.map Nat.cast) =
    (valueAt z (bytes.map Nat.cast), valueAt z (replicate bytes.length 128), z ^ bytes.length) := by
  have hfrom (start : K × K × K) : (bytes.map Nat.cast).foldl
      (fun s b => (s.1 + s.2.2 * algebraMap Fp K b, s.2.1 + s.2.2 * algebraMap Fp K (128 : ℕ), s.2.2 * z)) start =
      (start.1 + start.2.2 * valueAt z (bytes.map Nat.cast), start.2.1 + start.2.2 * valueAt z (replicate bytes.length 128),
        start.2.2 * z ^ bytes.length) := by
    induction bytes generalizing start with
    | nil =>
      simp only [map_nil, foldl_nil, length_nil, replicate_zero, valueAt, polyOf_nil, map_zero, mul_zero, add_zero,
        pow_zero, mul_one]
    | cons b bytes ih =>
      rw [map_cons, foldl_cons, ih, map_cons, valueAt_cons, length_cons, replicate_succ, valueAt_cons]
      simp only [map_natCast, Int.cast_natCast, Int.cast_ofNat, Nat.cast_ofNat, map_ofNat, Prod.mk.injEq]
      exact ⟨by ring, by ring, by ring⟩
  rw [powers, hfrom]
  simp only [zero_add, one_mul]

theorem length_dataBytes (data : Data) : (dataBytes data).length = 16 := by
  rw [dataBytes, length_flatMap]
  simp

theorem powers_set (inst : Word) (data : Data) : powers z (BigIntBlock.set inst data).bytes =
    (valueAt z (fromData data), -valueAt z BytePolynomial.negPoly, z ^ 16) := by
  rw [BigIntBlock.set, powers_natCast, length_dataBytes, BytePolynomial.negPoly, valueAt_replicate_neg, neg_neg]
  rfl

/-- The columns hold the polynomials of a state. -/
structure Shows (s : BigIntPreflight) (row : AccumTop K) : Prop where
  poly : row.poly = valueAt z s.poly
  term : row.term = valueAt z s.term
  total : row.total = valueAt z s.total

variable {z} {inst : Word} {data : Data} {op : PolyOp} {prev : AccumTop K}

section

variable (hop : (decode inst).polyOp.toNat = op.num)

include hop

theorem polyOp_set : (BigIntBlock.set inst data).polyOp = .set 7 op.num := by
  rw [← hop]
  rfl

theorem polyOp_get_val : (BigIntBlock.set inst data).polyOp.get.val = op.num := by
  rw [polyOp_set hop, OneHot.get_set op.num_lt, ZMod.val_natCast_of_lt (lt_trans op.num_lt (by norm_num))]

theorem set_eq : AccumTop.set (BigIntBlock.set inst data) prev z =
    AccumTop.setPhase2 ⟨.set 7 op.num, valueAt z (fromData data), 0, 1, 0⟩ (BigIntBlock.set inst data) prev (z ^ 16)
      (-valueAt z BytePolynomial.negPoly) (some op) := by
  rw [AccumTop.set, AccumTop.setPhase1, polyOp_get_val hop, PolyOp.all_num, powers_set]

end

theorem verified_of {row : AccumTop K} (hop : (decode inst).polyOp.toNat = op.num) (hpolyOp : row.polyOp = .set 7 op.num)
    (hlocal : row.localSum = valueAt z (fromData data)) (hbranch : ∀ e ∈ row.branches (BigIntBlock.set inst data) prev z op, e.1 = e.2) :
    row.Verified 1 (BigIntBlock.set inst data) prev z := by
  refine ⟨?_, ?_, fun op' e he i hi => ?_⟩
  · rw [hpolyOp, polyOp_set hop, one_mul]
  · rw [powers_set, hlocal, map_one, mul_one, sub_self]
  · by_cases heq : op' = op
    · subst heq
      rw [hbranch e he, sub_self, zero_mul]
    · have hne : i.val ≠ op.num := by
        intro hi'
        have hall := PolyOp.all_num op
        rw [← hi', hi, PolyOp.all_num] at hall
        exact heq (Option.some.inj hall)
      have hbit : row.polyOp.bits i = 0 := by
        rw [hpolyOp]
        exact if_neg hne
      rw [hbit, map_zero, mul_zero]

theorem getCoeff_set (inst : Word) (data : Data) : (BigIntBlock.set inst data).getCoeff = (((decode inst).coeff.toNat : ℕ) : Fp) := by
  have hbit (k : ℕ) : ((inst >>> (21 + k)) &&& 1).toNat = inst.toNat / 2 ^ 21 / 2 ^ k % 2 := by
    rw [BitVec.toNat_and, BitVec.toNat_ushiftRight, Nat.shiftRight_eq_div_pow, pow_add, ← Nat.div_div_eq_div_mul]
    exact Nat.and_one_is_mod _
  have hcoeff : (decode inst).coeff.toNat = inst.toNat / 2 ^ 21 % 8 := by
    rw [decode, BitVec.toNat_and, BitVec.toNat_ushiftRight, Nat.shiftRight_eq_div_pow]
    exact Nat.and_two_pow_sub_one_eq_mod _ 3
  have hsum : inst.toNat / 2 ^ 21 % 8 = inst.toNat / 2 ^ 21 / 2 ^ 0 % 2 * 2 ^ 0 + inst.toNat / 2 ^ 21 / 2 ^ 1 % 2 * 2 ^ 1 +
      inst.toNat / 2 ^ 21 / 2 ^ 2 % 2 * 2 ^ 2 := by
    omega
  rw [hcoeff, hsum, BigIntBlock.getCoeff, Fin.sum_univ_three]
  simp only [BigIntBlock.set, hbit]
  push_cast
  rfl

theorem toInt_coeff (inst : Word) : ((decode inst).coeff - 4).toInt = ((decode inst).coeff.toNat : ℤ) - 4 := by
  have hlt : (decode inst).coeff.toNat < 8 := by
    rw [decode, BitVec.toNat_and]
    exact lt_of_le_of_lt Nat.and_le_right (by decide)
  generalize (decode inst).coeff = c at hlt
  have hc : c = BitVec.ofNat 32 c.toNat := by rw [BitVec.ofNat_toNat, BitVec.setWidth_eq]
  generalize c.toNat = n at hlt hc
  subst hc
  interval_cases n <;> rfl

theorem algebraMap_coeff (inst : Word) (data : Data) :
    algebraMap Fp K ((BigIntBlock.set inst data).getCoeff - (4 : ℕ)) = (((decode inst).coeff - 4).toInt : K) := by
  rw [getCoeff_set, toInt_coeff, map_sub, map_natCast, map_natCast]
  push_cast
  rfl

variable {s s' : BigIntPreflight}

open BytePolynomial in
/-- A step that is done is what the columns of its row say, at every point. -/
theorem Shows.apply {newPoly : BytePolynomial} (h : Shows z s prev) (hop : (decode inst).polyOp.toNat = op.num)
    (hnew : add s.poly (fromData data) = .ok newPoly)
    (hs' : s.apply ((decode inst).coeff - 4).toInt (fromData data) newPoly op = .ok s') :
    Shows z s' (.set (BigIntBlock.set inst data) prev z) ∧
      (AccumTop.set (BigIntBlock.set inst data) prev z).Verified 1 (BigIntBlock.set inst data) prev z := by
  have hpoly : prev.poly + valueAt z (fromData data) = valueAt z newPoly := by rw [valueAt_add z hnew, h.poly]
  rw [set_eq hop]
  cases op with
  | nop =>
    cases hs'
    refine ⟨⟨(valueAt_zero z).symm, (valueAt_one z).symm, (valueAt_zero z).symm⟩, verified_of hop rfl rfl ?_⟩
    simp only [AccumTop.branches, AccumTop.setPhase2, forall_mem_cons, not_mem_nil, false_implies, implies_true, and_self]
  | shift =>
    cases hs'
    refine ⟨⟨?_, h.term, h.total⟩, verified_of hop rfl rfl ?_⟩
    · exact (congrArg (· * z ^ 16) hpoly).trans (valueAt_shift z newPoly).symm
    · simp only [AccumTop.branches, AccumTop.setPhase2, powers_set, forall_mem_cons, not_mem_nil, false_implies, implies_true,
        and_self]
  | setTerm =>
    cases hs'
    refine ⟨⟨(valueAt_zero z).symm, hpoly, h.total⟩, verified_of hop rfl rfl ?_⟩
    simp only [AccumTop.branches, AccumTop.setPhase2, forall_mem_cons, not_mem_nil, false_implies, implies_true, and_self]
  | addTotal =>
    obtain ⟨product, hproduct, hs'⟩ := bind_ok_iff.mp hs'
    obtain ⟨scaled, hscaled, hs'⟩ := bind_ok_iff.mp hs'
    obtain ⟨total, htotal, hs'⟩ := bind_ok_iff.mp hs'
    cases hs'
    refine ⟨⟨(valueAt_zero z).symm, (valueAt_one z).symm, ?_⟩, verified_of hop rfl rfl ?_⟩
    · rw [valueAt_add z htotal, valueAt_scale z hscaled, valueAt_mul z hproduct, ← hpoly, ← h.total, ← h.term, ← algebraMap_coeff inst data]
      dsimp only [AccumTop.setPhase2]
      ring
    · simp only [AccumTop.branches, AccumTop.setPhase2, forall_mem_cons, not_mem_nil, false_implies, implies_true, and_self]
  | carry1 =>
    obtain ⟨biased, hbiased, hs'⟩ := bind_ok_iff.mp hs'
    obtain ⟨scaled, hscaled, hs'⟩ := bind_ok_iff.mp hs'
    obtain ⟨scaled', hscaled', hs'⟩ := bind_ok_iff.mp hs'
    obtain ⟨poly, hcarry, hs'⟩ := bind_ok_iff.mp hs'
    cases hs'
    refine ⟨⟨?_, h.term, h.total⟩, verified_of hop rfl rfl ?_⟩
    · rw [valueAt_add z hcarry, valueAt_scale z hscaled', valueAt_scale z hscaled, valueAt_add z hbiased, ← h.poly]
      dsimp only [AccumTop.setPhase2]
      simp only [Nat.cast_ofNat, Int.cast_ofNat, map_ofNat]
      ring
    · simp only [AccumTop.branches, AccumTop.setPhase2, powers_set, forall_mem_cons, not_mem_nil, false_implies, implies_true,
        and_self]
  | carry2 =>
    obtain ⟨scaled, hscaled, hs'⟩ := bind_ok_iff.mp hs'
    obtain ⟨poly, hcarry, hs'⟩ := bind_ok_iff.mp hs'
    cases hs'
    refine ⟨⟨?_, h.term, h.total⟩, verified_of hop rfl rfl ?_⟩
    · rw [valueAt_add z hcarry, valueAt_scale z hscaled, ← h.poly]
      dsimp only [AccumTop.setPhase2]
      simp only [Nat.cast_ofNat, Int.cast_ofNat, map_ofNat]
    · simp only [AccumTop.branches, AccumTop.setPhase2, forall_mem_cons, not_mem_nil, false_implies, implies_true, and_self]
  | eqz =>
    obtain ⟨product, hproduct, hs'⟩ := bind_ok_iff.mp hs'
    obtain ⟨total, htotal, hs'⟩ := bind_ok_iff.mp hs'
    split at hs'
    · next hzero =>
      cases hs'
      refine ⟨⟨(valueAt_zero z).symm, (valueAt_one z).symm, (valueAt_zero z).symm⟩, verified_of hop rfl rfl ?_⟩
      have hsum := valueAt_add z htotal
      rw [valueAt_of_all_zero z hzero, valueAt_mul z hproduct, valueAt_basisPoint] at hsum
      simp only [AccumTop.branches, AccumTop.setPhase2, forall_mem_cons, not_mem_nil, false_implies, implies_true, and_true, true_and]
      rw [h.total, hpoly]
      simp only [Nat.cast_ofNat, Int.cast_ofNat, map_ofNat] at hsum ⊢
      linear_combination -hsum
    · cases hs'

theorem Shows.update {r : BigIntPreflight × Data} (h : Shows z s prev) (hr : s.update (decode inst) data = .ok r) :
    Shows z r.1 (.set (BigIntBlock.set inst r.2) prev z) ∧
      (AccumTop.set (BigIntBlock.set inst r.2) prev z).Verified 1 (BigIntBlock.set inst r.2) prev z := by
  obtain ⟨newPoly, hnew, hr⟩ := bind_ok_iff.mp hr
  obtain ⟨op, hop, hr⟩ := bind_ok_iff.mp hr
  obtain ⟨s', hs', hr⟩ := bind_ok_iff.mp hr
  cases hr
  exact h.apply (PolyOp.tryFrom_eq_ok.mp hop) hnew hs'

omit [Algebra Fp K] in
/-- Finding the carries changes nothing that the columns hold. -/
theorem Shows.transition (h : Shows z s prev) (hs' : s.transition = .ok s') : Shows z s' prev := by
  unfold BigIntPreflight.transition at hs'
  split at hs'
  · cases hs'
    exact h
  · obtain ⟨totCarry, -, hs'⟩ := bind_ok_iff.mp hs'
    cases hs'
    exact ⟨h.poly, h.term, h.total⟩

theorem Shows.step {s : BigIntPreflight} {r : BigIntPreflight × Data} (h : Shows z s prev) (hr : s.step (decode inst) data = .ok r) :
    Shows z r.1 (.set (BigIntBlock.set inst r.2) prev z) ∧
      (AccumTop.set (BigIntBlock.set inst r.2) prev z).Verified 1 (BigIntBlock.set inst r.2) prev z := by
  unfold BigIntPreflight.step at hr
  split at hr
  · obtain ⟨checked, hchecked, hr⟩ := bind_ok_iff.mp hr
    obtain ⟨s', hs', hchecked⟩ := bind_ok_iff.mp hchecked
    obtain ⟨ret, -, hchecked⟩ := bind_ok_iff.mp hchecked
    cases hchecked
    exact (h.transition hs').update hr
  · exact h.update hr

/-- Whatever is done without an error satisfies the constraints. -/
theorem Shows.run {steps outs : List (Word × Data)} (h : Shows z s prev) (hrun : run s steps = .ok (s', outs)) :
    RowsVerified z prev (rows z prev (outs.map fun p => .set p.1 p.2)) := by
  induction steps generalizing s outs prev with
  | nil =>
    cases hrun
    trivial
  | cons p steps ih =>
    obtain ⟨r, hr, hrun⟩ := bind_ok_iff.mp hrun
    obtain ⟨rest, hrest, hrun⟩ := bind_ok_iff.mp hrun
    cases hrun
    obtain ⟨hshows, hverified⟩ := h.step hr
    exact ⟨hverified, ih hshows hrest⟩

omit [Algebra Fp K] in
theorem shows_new (z : K) : Shows z new .simple :=
  ⟨(valueAt_zero z).symm, (valueAt_one z).symm, (valueAt_zero z).symm⟩

end Rows

end Accumulator

/-! ### A total that is not zero -/

def value (p : BytePolynomial) : ℤ := p.foldr (fun c v => c + 256 * v) 0

theorem value_eq (p : BytePolynomial) : value p = valueAt (256 : ℤ) p := by
  induction p with
  | nil => rw [valueAt, polyOf_nil, map_zero]; rfl
  | cons c cs ih =>
    rw [valueAt_cons, ← ih]
    rfl

variable {s s' : BigIntPreflight} {coeff : ℤ} {bytes newPoly p t : BytePolynomial} {op : PolyOp} {inst : BigIntInstruction} {data : Data}
  {steps outs : List (Word × Data)}

theorem apply_total (hnop : op ≠ .nop) (hadd : op ≠ .addTotal) (h : s.apply coeff bytes newPoly op = .ok s') :
    (op = .eqz ∧ value s.total = 0) ∨ (op ≠ .eqz ∧ s'.total = s.total) := by
  cases op with
  | nop => exact absurd rfl hnop
  | shift =>
    cases h
    exact .inr ⟨by decide, rfl⟩
  | setTerm =>
    cases h
    exact .inr ⟨by decide, rfl⟩
  | addTotal => exact absurd rfl hadd
  | carry1 =>
    obtain ⟨_, -, h⟩ := bind_ok_iff.mp h
    obtain ⟨_, -, h⟩ := bind_ok_iff.mp h
    obtain ⟨_, -, h⟩ := bind_ok_iff.mp h
    obtain ⟨_, -, h⟩ := bind_ok_iff.mp h
    cases h
    exact .inr ⟨by decide, rfl⟩
  | carry2 =>
    obtain ⟨_, -, h⟩ := bind_ok_iff.mp h
    obtain ⟨_, -, h⟩ := bind_ok_iff.mp h
    cases h
    exact .inr ⟨by decide, rfl⟩
  | eqz =>
    obtain ⟨product, hproduct, h⟩ := bind_ok_iff.mp h
    obtain ⟨total, htotal, h⟩ := bind_ok_iff.mp h
    split at h
    · next hzero =>
      have hsum := valueAt_add (256 : ℤ) htotal
      rw [valueAt_of_all_zero (256 : ℤ) hzero, valueAt_mul (256 : ℤ) hproduct, valueAt_basisPoint, Int.cast_id, sub_self, zero_mul, add_zero,
        ← value_eq] at hsum
      exact .inl ⟨rfl, hsum.symm⟩
    · cases h

theorem transition_total (h : s.transition = .ok s') : s'.total = s.total := by
  unfold transition at h
  split at h
  · cases h
    rfl
  · obtain ⟨_, -, h⟩ := bind_ok_iff.mp h
    cases h
    rfl

/-- Only an operation that adds to the total, or that resets it, changes it. -/
theorem step_total {r : BigIntPreflight × Data}
    (hnop : inst.polyOp.toNat ≠ PolyOp.nop.num) (hadd : inst.polyOp.toNat ≠ PolyOp.addTotal.num) (h : s.step inst data = .ok r) :
    (inst.polyOp.toNat = PolyOp.eqz.num ∧ value s.total = 0) ∨ (inst.polyOp.toNat ≠ PolyOp.eqz.num ∧ r.1.total = s.total) := by
  have hupdate {s : BigIntPreflight} {data : Data} (h : s.update inst data = .ok r) :
      (inst.polyOp.toNat = PolyOp.eqz.num ∧ value s.total = 0) ∨ (inst.polyOp.toNat ≠ PolyOp.eqz.num ∧ r.1.total = s.total) := by
    obtain ⟨newPoly, -, h⟩ := bind_ok_iff.mp h
    obtain ⟨op, hop, h⟩ := bind_ok_iff.mp h
    obtain ⟨s', hs', h⟩ := bind_ok_iff.mp h
    cases h
    rw [PolyOp.tryFrom_eq_ok] at hop
    rw [hop] at hnop hadd ⊢
    obtain ⟨rfl, hzero⟩ | ⟨hne, htotal⟩ := apply_total (fun heq => hnop (congrArg _ heq)) (fun heq => hadd (congrArg _ heq)) hs'
    · exact .inl ⟨rfl, hzero⟩
    · exact .inr ⟨fun heq => hne (PolyOp.num_injective heq), htotal⟩
  unfold step at h
  split at h
  · obtain ⟨checked, hchecked, h⟩ := bind_ok_iff.mp h
    obtain ⟨s', hs', hchecked⟩ := bind_ok_iff.mp hchecked
    obtain ⟨ret, -, hchecked⟩ := bind_ok_iff.mp hchecked
    cases hchecked
    have := hupdate h
    rwa [transition_total hs'] at this
  · exact hupdate h

theorem run_ne_ok (hvalue : value s.total ≠ 0)
    (hsteps : ∀ p ∈ steps, (decode p.1).polyOp.toNat ≠ PolyOp.nop.num ∧ (decode p.1).polyOp.toNat ≠ PolyOp.addTotal.num)
    (heqz : ∃ p ∈ steps, (decode p.1).polyOp.toNat = PolyOp.eqz.num) (r : BigIntPreflight × List (Word × Data)) : run s steps ≠ .ok r := by
  intro hrun
  induction steps generalizing s r with
  | nil =>
    obtain ⟨p, hp, -⟩ := heqz
    exact absurd hp not_mem_nil
  | cons p steps ih =>
    rw [forall_mem_cons] at hsteps
    obtain ⟨r', hstep, hrun⟩ := bind_ok_iff.mp hrun
    obtain ⟨rest, hrest, -⟩ := bind_ok_iff.mp hrun
    obtain ⟨-, hzero⟩ | ⟨hne, htotal⟩ := step_total hsteps.1.1 hsteps.1.2 hstep
    · exact hvalue hzero
    · obtain ⟨p', hp', heq⟩ := heqz
      rcases mem_cons.mp hp' with rfl | hp'
      · exact hne heq
      · exact ih (htotal ▸ hvalue) hsteps.2 ⟨p', hp', heq⟩ rest hrest

/-! ### Carries -/

/-- What is carried out of the coefficients up to `i`. -/
def carry (p : BytePolynomial) (i : ℕ) : ℤ := value (p.take (i + 1)) / 256 ^ (i + 1)

/-- The carries of a polynomial that is zero at 256, each from the coefficients above it. -/
def carries : BytePolynomial → BytePolynomial
  | [] => []
  | _ :: cs => -value cs :: carries cs

theorem value_take_add_drop (p : BytePolynomial) (i : ℕ) : value p = value (p.take i) + 256 ^ i * value (p.drop i) := by
  induction p generalizing i with
  | nil => simp [value]
  | cons c cs ih =>
    cases i with
    | zero => simp [value]
    | succ i =>
      have := ih i
      simp only [value, take_succ_cons, drop_succ_cons, foldr_cons] at this ⊢
      rw [this]
      ring

theorem getD_carries (p : BytePolynomial) (i : ℕ) : (carries p).getD i 0 = if i < p.length then -value (p.drop (i + 1)) else 0 := by
  induction p generalizing i with
  | nil => rfl
  | cons c cs ih =>
    cases i with
    | zero => rfl
    | succ i =>
      rw [carries, getD_cons_succ, ih, drop_succ_cons]
      simp only [length_cons, Nat.add_lt_add_iff_right]

theorem getD_carries_eq_carry (hp : value p = 0) {i : ℕ} (hi : i < p.length) : (carries p).getD i 0 = carry p i := by
  have hsplit := value_take_add_drop p (i + 1)
  rw [hp] at hsplit
  have htake : value (p.take (i + 1)) = 256 ^ (i + 1) * -value (p.drop (i + 1)) := by linear_combination -hsplit
  rw [getD_carries, if_pos hi, carry, htake, Int.mul_ediv_cancel_left _ (by positivity)]

theorem length_carries (p : BytePolynomial) : (carries p).length = p.length := by
  induction p with
  | nil => rfl
  | cons c cs ih => rw [carries, length_cons, ih, length_cons]

open Polynomial in
theorem polyOf_eq_carries (p : BytePolynomial) : polyOf p = C (value p) + (C 256 - X) * polyOf (carries p) := by
  induction p with
  | nil =>
    rw [carries, polyOf_nil, mul_zero, add_zero]
    exact C_0.symm
  | cons c cs ih =>
    have hvalue : value (c :: cs) = c + 256 * value cs := rfl
    rw [carries, polyOf_cons, polyOf_cons, ih, hvalue, C_add, C_mul, C_neg]
    ring

open BytePolynomial in
theorem propagateFrom_ok {c : ℤ} (hp : c + value p = 0) (hfits : ∀ i, InI32 (256 * (carries p).getD i 0)) :
    propagateFrom c p = .ok (carries p) := by
  induction p generalizing c with
  | nil => rfl
  | cons a cs ih =>
    have hsum : a + c = 256 * -value cs := by
      simp only [value, foldr_cons] at hp ⊢
      linear_combination hp
    have hin : InI32 (256 * -value cs) := hfits 0
    rw [propagateFrom, hsum, i32_eq_ok.mpr ⟨hin, rfl⟩]
    have hrest := ih (c := -value cs) (by ring) fun i => hfits (i + 1)
    simp only [bind, Except.bind, Int.mul_tmod_right, ne_eq, not_true_eq_false, if_false, Int.mul_tdiv_cancel_left _ (show (256 : ℤ) ≠ 0 by decide), hrest]
    rfl

section Sums

open BytePolynomial

variable {p q : BytePolynomial}

theorem add_ok (h : ∀ k, InI32 (p.getD k 0 + q.getD k 0)) : ∃ r, add p q = .ok r ∧ ∀ k, r.getD k 0 = p.getD k 0 + q.getD k 0 := by
  have hr := add_eq_ok.mpr ⟨fun i _ => h i, rfl⟩
  exact ⟨_, hr, getD_add hr⟩

theorem scale_ok {c : ℤ} (h : ∀ k, InI32 (p.getD k 0 * c)) : ∃ r, scale p c = .ok r ∧ ∀ k, r.getD k 0 = p.getD k 0 * c := by
  refine ⟨p.map fun a => a * c, mapM_i32.mpr ⟨fun a ha => ?_, rfl⟩, fun k => ?_⟩
  · obtain ⟨k, hk, rfl⟩ := mem_iff_getElem.mp ha
    have := h k
    rwa [getD_eq_getElem _ _ hk] at this
  · rw [getD_eq_getElem?_getD, getD_eq_getElem?_getD, getElem?_map]
    cases p[k]? with
    | none => exact (zero_mul c).symm
    | some a => rfl

theorem getD_negPoly (k : ℕ) : negPoly.getD k 0 = if k < 16 then -128 else 0 := by
  rw [negPoly, getD_eq_getElem?_getD, getElem?_replicate]
  split
  · rfl
  · rfl

theorem getD_shift (k : ℕ) : (shift p).getD k 0 = if k < 16 then 0 else p.getD (k - 16) 0 := by
  rw [shift, getD_eq_getElem?_getD, getElem?_append, length_replicate]
  split
  · next hk => rw [getElem?_replicate, if_pos hk, Option.getD_some]
  · rw [getD_eq_getElem?_getD]

end Sums

/-! ### Bytes of the carries -/

theorem byte_of_word (b : Fin 4 → BitVec 8) (j : Fin 4) : ((((0#32 ||| (b 0).setWidth 32 <<< 0) ||| (b 1).setWidth 32 <<< 8 |||
    (b 2).setWidth 32 <<< 16 ||| (b 3).setWidth 32 <<< 24) >>> (8 * j.val)) &&& 0xFF#32) = (b j).setWidth 32 := by
  apply BitVec.eq_of_getLsbD_eq
  intro i hi
  have hmask : (0xFF#32).getLsbD i = decide (i < 8) := by interval_cases i <;> rfl
  simp only [BitVec.getLsbD_and, BitVec.getLsbD_ushiftRight, BitVec.getLsbD_or, BitVec.getLsbD_shiftLeft, BitVec.getLsbD_setWidth, hmask,
    BitVec.getLsbD_zero]
  by_cases hbyte : i < 8
  · fin_cases j <;> simp [hbyte] <;> grind
  · have habove := BitVec.getLsbD_of_ge (b j) i (by omega)
    simp [hbyte, habove]

theorem dataByte_toData (ret : List (BitVec 8)) (i j : Fin 4) : dataByte (toData ret) i j = (ret.getD (i.val * 4 + j.val) 0).toNat := by
  have hword := byte_of_word (fun j => ret.getD (i.val * 4 + j.val) 0) j
  have hwidth : ((ret.getD (i.val * 4 + j.val) 0).setWidth 32).toNat = (ret.getD (i.val * 4 + j.val) 0).toNat :=
    BitVec.toNat_setWidth_of_le (by norm_num)
  rw [← hwidth, ← hword]
  rfl

/-- The bytes of a chunk that was put together are those that it was put together from. -/
theorem getD_fromData_toData {ret : List (BitVec 8)} (hret : ret.length = 16) (k : ℕ) :
    (fromData (toData ret)).getD k 0 = ((ret.getD k 0).toNat : ℤ) := by
  have hbytes : fromData (toData ret) = (range 16).map fun k => ((ret.getD k 0).toNat : ℤ) := by
    simp only [fromData, dataBytes, dataByte_toData]
    rfl
  rw [hbytes, BytePolynomial.getD_map_range]
  split
  · rfl
  · next hk =>
    rw [getD_eq_getElem?_getD, getElem?_eq_none (by omega)]
    rfl

/-- The part of a carry that goes into a byte. -/
def part (val : ℤ) : PolyOp → ℤ
  | .carry1 => val / 16384 % 256
  | .carry2 => val / 256 % 64
  | _ => val % 256

def Checks (op : PolyOp) : Prop := op = .carry1 ∨ op = .carry2 ∨ op = .shift ∨ op = .eqz

theorem cut_ok (hop : Checks op) (val : ℤ) : ∃ b, cut val op = .ok b ∧ (b.toNat : ℤ) = part val op := by
  have hbyte (x : ℤ) (hx : 0 ≤ x ∧ x < 256) : ((BitVec.ofInt 8 x).toNat : ℤ) = x := by
    rw [BitVec.toNat_ofInt]
    omega
  rcases hop with rfl | rfl | rfl | rfl
  · exact ⟨_, rfl, hbyte _ (by omega)⟩
  · exact ⟨_, rfl, hbyte _ (by omega)⟩
  · exact ⟨_, rfl, hbyte _ (by omega)⟩
  · exact ⟨_, rfl, hbyte _ (by omega)⟩

theorem mapM_ok {ε α β : Type} {f : α → Except ε β} {g : β → ℤ} {h : α → ℤ} {l : List α} (hf : ∀ a ∈ l, ∃ b, f a = .ok b ∧ g b = h a) :
    ∃ bs, l.mapM f = .ok bs ∧ bs.map g = l.map h := by
  induction l with
  | nil => exact ⟨[], rfl, rfl⟩
  | cons a l ih =>
    rw [forall_mem_cons] at hf
    obtain ⟨⟨b, hb, hg⟩, hl⟩ := hf
    obtain ⟨bs, hbs, hmap⟩ := ih hl
    refine ⟨b :: bs, ?_, by rw [map_cons, map_cons, hg, hmap]⟩
    rw [mapM_cons, hb, hbs]
    rfl

/-- An instruction of a check. -/
structure Encodes (w : Word) (e : PolyOp × ℕ) : Prop where
  polyOp : (decode w).polyOp.toNat = e.1.num
  memOp : (decode w).memOp = memoryOpCheck
  offset : (decode w).offset.toNat = e.2

/-- The carries are small enough to be cut into their bytes. -/
def Small (q : BytePolynomial) : Prop := ∀ i, -2097152 ≤ q.getD i 0 ∧ q.getD i 0 < 2097152

theorem check_step {q : BytePolynomial} (hs : s.transition = .ok { s with totCarry := q, inCarry := true })
    (hq : Small q) {w : Word} {op : PolyOp} {k : ℕ} (hop : Checks op) (hw : Encodes w (op, k)) (data : Data) :
    ∃ data', s.step (decode w) data = update { s with totCarry := q, inCarry := true } (decode w) data' ∧
      ∀ j, (fromData data').getD j 0 = if j < 16 then part (q.getD (k * 16 + j) 0 + 2097152) op else 0 := by
  have hne : (decode w).polyOp ≠ 0 := by
    intro hzero
    have hnum : op.num = 0 := by
      rw [← hw.polyOp, hzero]
      rfl
    rcases hop with rfl | rfl | rfl | rfl
    all_goals exact absurd hnum (by decide)
  have hbyte (i : ℕ) (_ : i ∈ range 16) : ∃ b, checkByte (decode w) q i = .ok b ∧
      (b.toNat : ℤ) = part (q.getD (k * 16 + i) 0 + 2097152) op := by
    obtain ⟨b, hb, hpart⟩ := cut_ok hop (q.getD (k * 16 + i) 0 + 2097152)
    refine ⟨b, ?_, hpart⟩
    have hin : InI32 (q.getD (k * 16 + i) 0 + 2097152) := by
      have := hq (k * 16 + i)
      rw [InI32]
      omega
    rw [checkByte, hw.offset]
    exact bind_ok_iff.mpr ⟨_, i32_eq_ok.mpr ⟨hin, rfl⟩, bind_ok_iff.mpr ⟨op, PolyOp.tryFrom_eq_ok.mpr hw.polyOp, hb⟩⟩
  obtain ⟨ret, hret, hmap⟩ := mapM_ok hbyte
  have hlength : ret.length = 16 := by
    have := congrArg length hmap
    rwa [length_map, length_map, length_range] at this
  refine ⟨toData ret, ?_, fun j => ?_⟩
  · rw [step, if_pos ⟨hne, hw.memOp⟩, memCheckAndNotPolyOpNop, hs]
    change (((range 16).mapM (checkByte (decode w) q)) >>= _) >>= _ = _
    rw [hret]
    rfl
  · have hget := congrArg (fun l => l.getD j 0) hmap
    rw [BytePolynomial.getD_map_range] at hget
    rw [getD_fromData_toData hlength, ← hget, getD_eq_getElem?_getD, getD_eq_getElem?_getD, getElem?_map]
    cases ret[j]? with
    | none => rfl
    | some b => rfl

theorem update_ok (hop : inst.polyOp.toNat = op.num) (hnew : BytePolynomial.add s.poly (fromData data) = .ok newPoly)
    (happly : s.apply (inst.coeff - 4).toInt (fromData data) newPoly op = .ok s') : s.update inst data = .ok (s', data) :=
  bind_ok_iff.mpr ⟨newPoly, hnew, bind_ok_iff.mpr ⟨op, PolyOp.tryFrom_eq_ok.mpr hop,
    bind_ok_iff.mpr ⟨s', happly, rfl⟩⟩⟩

/-! ### A chunk -/

/-- A state of a check, with the coefficients that it has come to. -/
structure During (t q : BytePolynomial) (f : ℕ → ℤ) (s : BigIntPreflight) : Prop where
  total : s.total = t
  transition : s.transition = .ok { s with totCarry := q, inCarry := true }
  poly (j : ℕ) : s.poly.getD j 0 = f j

section

variable (q : BytePolynomial) (k j : ℕ)

/-- The carry `j` of the chunks from `k` on, as it is cut into its parts. -/
def biasedCarry : ℤ := q.getD (k * 16 + j) 0 + 2097152

/-- The carries above the chunk `k`. -/
def above : ℤ := if j < 16 then 0 else q.getD (k * 16 + j) 0

/-- With the upper parts of those of the chunk. -/
def withUpper : ℤ :=
  if j < 16 then (part (biasedCarry q k j) .carry1 - 128) * 64 * 256 else q.getD (k * 16 + j) 0

/-- With the middle parts, too. -/
def withMiddle : ℤ :=
  if j < 16 then (part (biasedCarry q k j) .carry1 - 128) * 64 * 256 + part (biasedCarry q k j) .carry2 * 256 else q.getD (k * 16 + j) 0

end

section Chunk

open BytePolynomial

variable {t q : BytePolynomial} {k : ℕ} {s : BigIntPreflight} {w : Word}

theorem During.carry1 (h : During t q (above q k) s) (hq : Small q) (hw : Encodes w (.carry1, k)) (data : Data) :
    ∃ s' out, s.step (decode w) data = .ok (s', out) ∧ During t q (withUpper q k) s' := by
  obtain ⟨out, hstep, hbytes⟩ := check_step h.transition hq (.inl rfl) hw data
  have hcarry (j : ℕ) := hq (k * 16 + j)
  have hbyte (j : ℕ) : 0 ≤ (fromData out).getD j 0 ∧ (fromData out).getD j 0 < 256 := by
    rw [hbytes, part]
    split <;> omega
  obtain ⟨newPoly, hnew, -⟩ := add_ok (p := s.poly) (q := fromData out) fun j => by
    have := hbyte j
    have := hcarry j
    rw [h.poly, above, InI32]
    split <;> omega
  obtain ⟨biased, hbiased, hbiasedGet⟩ := add_ok (p := fromData out) (q := negPoly) fun j => by
    have := hbyte j
    rw [getD_negPoly, InI32]
    split <;> omega
  have hrange (j : ℕ) : -128 ≤ biased.getD j 0 ∧ biased.getD j 0 < 256 := by
    have := hbyte j
    rw [hbiasedGet, getD_negPoly]
    split <;> omega
  obtain ⟨scaled, hscaled, hscaledGet⟩ := scale_ok (p := biased) (c := 64) fun j => by
    have := hrange j
    rw [InI32]
    omega
  obtain ⟨shifted, hshifted, hshiftedGet⟩ := scale_ok (p := scaled) (c := 256) fun j => by
    have := hrange j
    rw [hscaledGet, InI32]
    omega
  have hsum (j : ℕ) : s.poly.getD j 0 + shifted.getD j 0 = withUpper q k j := by
    rw [h.poly, hshiftedGet, hscaledGet, hbiasedGet, getD_negPoly, hbytes, above, withUpper, biasedCarry]
    split <;> ring
  obtain ⟨poly, hpoly, hpolyGet⟩ := add_ok (p := s.poly) (q := shifted) fun j => by
    have := hcarry j
    rw [hsum, InI32, withUpper, part]
    split <;> omega
  refine ⟨{ s with poly := poly, totCarry := q, inCarry := true }, out, ?_, h.total, rfl, fun j => (hpolyGet j).trans (hsum j)⟩
  rw [hstep]
  exact update_ok hw.polyOp hnew (bind_ok_iff.mpr ⟨biased, hbiased, bind_ok_iff.mpr ⟨scaled, hscaled,
    bind_ok_iff.mpr ⟨shifted, hshifted, bind_ok_iff.mpr ⟨poly, hpoly, rfl⟩⟩⟩⟩)

theorem During.carry2 (h : During t q (withUpper q k) s) (hq : Small q) (hw : Encodes w (.carry2, k)) (data : Data) :
    ∃ s' out, s.step (decode w) data = .ok (s', out) ∧ During t q (withMiddle q k) s' := by
  obtain ⟨out, hstep, hbytes⟩ := check_step h.transition hq (.inr (.inl rfl)) hw data
  have hcarry (j : ℕ) := hq (k * 16 + j)
  have hbyte (j : ℕ) : 0 ≤ (fromData out).getD j 0 ∧ (fromData out).getD j 0 < 64 := by
    rw [hbytes, part]
    split <;> omega
  obtain ⟨newPoly, hnew, -⟩ := add_ok (p := s.poly) (q := fromData out) fun j => by
    have := hbyte j
    have := hcarry j
    rw [h.poly, withUpper, part, biasedCarry, InI32]
    split <;> omega
  obtain ⟨scaled, hscaled, hscaledGet⟩ := scale_ok (p := fromData out) (c := 256) fun j => by
    have := hbyte j
    rw [InI32]
    omega
  have hsum (j : ℕ) : s.poly.getD j 0 + scaled.getD j 0 = withMiddle q k j := by
    rw [h.poly, hscaledGet, hbytes, withUpper, withMiddle, biasedCarry]
    split <;> ring
  obtain ⟨poly, hpoly, hpolyGet⟩ := add_ok (p := s.poly) (q := scaled) fun j => by
    have := hcarry j
    rw [hsum, withMiddle, part, part, biasedCarry, InI32]
    split <;> omega
  refine ⟨{ s with poly := poly, totCarry := q, inCarry := true }, out, ?_, h.total, rfl, fun j => (hpolyGet j).trans (hsum j)⟩
  rw [hstep]
  exact update_ok hw.polyOp hnew (bind_ok_iff.mpr ⟨scaled, hscaled, bind_ok_iff.mpr ⟨poly, hpoly, rfl⟩⟩)

theorem During.whole (h : During t q (withMiddle q k) s) (hq : Small q) {op : PolyOp} (hop : op = .shift ∨ op = .eqz)
    (hw : Encodes w (op, k)) (data : Data) : ∃ out newPoly,
      s.step (decode w) data = update { s with totCarry := q, inCarry := true } (decode w) out ∧
      add s.poly (fromData out) = .ok newPoly ∧ ∀ j, newPoly.getD j 0 = q.getD (k * 16 + j) 0 := by
  obtain ⟨out, hstep, hbytes⟩ := check_step h.transition hq (.inr (.inr hop)) hw data
  have hlower (j : ℕ) : part (biasedCarry q k j) op = biasedCarry q k j % 256 := by
    rcases hop with rfl | rfl
    · rfl
    · rfl
  have hsum (j : ℕ) : s.poly.getD j 0 + (fromData out).getD j 0 = q.getD (k * 16 + j) 0 := by
    have hcarry := hq (k * 16 + j)
    have hpart := hlower j
    rw [biasedCarry] at hpart
    rw [h.poly, hbytes, withMiddle, hpart, biasedCarry, part, part]
    split <;> omega
  obtain ⟨newPoly, hnew, hget⟩ := add_ok (p := s.poly) (q := fromData out) fun j => by
    have := hq (k * 16 + j)
    rw [hsum, InI32]
    omega
  exact ⟨out, newPoly, hstep, hnew, fun j => (hget j).trans (hsum j)⟩

theorem During.shift (h : During t q (withMiddle q (k + 1)) s) (hq : Small q) (hw : Encodes w (.shift, k + 1)) (data : Data) :
    ∃ s' out, s.step (decode w) data = .ok (s', out) ∧ During t q (above q k) s' := by
  obtain ⟨out, newPoly, hstep, hnew, hget⟩ := h.whole hq (.inl rfl) hw data
  refine ⟨{ s with poly := BytePolynomial.shift newPoly, totCarry := q, inCarry := true }, out, ?_, h.total, rfl, fun j => ?_⟩
  · rw [hstep]
    exact update_ok hw.polyOp hnew rfl
  · rw [getD_shift, above]
    split
    · rfl
    · rw [hget]
      congr 1
      omega

open Polynomial in
theorem During.eqz (h : During t (carries t) (withMiddle (carries t) 0) s) (ht : value t = 0) (hq : Small (carries t))
    (hw : Encodes w (.eqz, 0)) (data : Data) :
    ∃ out, s.step (decode w) data = .ok (reset { s with totCarry := carries t }, out) := by
  obtain ⟨out, newPoly, hstep, hnew, hget⟩ := h.whole hq (.inr rfl) hw data
  have hwithin : Within 2097152 newPoly := by
    intro j
    have := hq (0 * 16 + j)
    rw [hget, abs_le]
    omega
  obtain ⟨product, hproduct⟩ := basisPoint_mul_ok hwithin (by norm_num)
  have hpoly : polyOf newPoly = polyOf (carries t) := polyOf_ext fun j => by rw [hget, Nat.zero_mul, Nat.zero_add]
  have hzero : polyOf t + polyOf product = 0 := by
    rw [polyOf_mul hproduct, hpoly, polyOf_eq_carries t, ht, basisPoint, polyOf_cons, polyOf_cons, polyOf_nil, C_0, C_neg, C_1]
    ring
  have hsum (j : ℕ) : s.total.getD j 0 + product.getD j 0 = 0 := by
    rw [h.total, ← coeff_polyOf, ← coeff_polyOf, ← coeff_add, hzero, coeff_zero]
  obtain ⟨total, htotal, htotalGet⟩ := add_ok (p := s.total) (q := product) fun j => by
    rw [hsum, InI32]
    omega
  have hall : total.all (· = 0) = true := by
    rw [all_eq_true]
    intro c hc
    obtain ⟨j, hj, rfl⟩ := mem_iff_getElem.mp hc
    rw [decide_eq_true_eq, ← getD_eq_getElem _ 0 hj, htotalGet, hsum]
  refine ⟨out, ?_⟩
  rw [hstep]
  exact update_ok hw.polyOp hnew (bind_ok_iff.mpr ⟨product, hproduct, bind_ok_iff.mpr ⟨total, htotal, if_pos hall⟩⟩)

end Chunk

/-! ### The check sequence -/

/-- The chunks from `k` down to the one after the first. -/
def upperChecks : ℕ → List (PolyOp × ℕ)
  | 0 => []
  | k + 1 => (.carry1, k + 1) :: (.carry2, k + 1) :: (.shift, k + 1) :: upperChecks k

/-- The operations of a check of `m` chunks, with their offsets. -/
def checkSequence (m : ℕ) : List (PolyOp × ℕ) := upperChecks (m - 1) ++ [(.carry1, 0), (.carry2, 0), (.eqz, 0)]

def IsCheck (m : ℕ) (steps : List (Word × Data)) : Prop := List.Forall₂ (fun p e => Encodes p.1 e) steps (checkSequence m)

theorem run_cons {p : Word × Data} {out : Data} {r : BigIntPreflight × List (Word × Data)}
    (hstep : s.step (decode p.1) p.2 = .ok (s', out)) (hrun : run s' steps = .ok r) : run s (p :: steps) = .ok (r.1, (p.1, out) :: r.2) :=
  bind_ok_iff.mpr ⟨(s', out), hstep, bind_ok_iff.mpr ⟨r, hrun, rfl⟩⟩

open BytePolynomial in
theorem During.run_last (h : During t (carries t) (above (carries t) 0) s) (ht : value t = 0) (hq : Small (carries t))
    (hsteps : Forall₂ (fun p e => Encodes p.1 e) steps [(.carry1, 0), (.carry2, 0), (.eqz, 0)]) :
    ∃ outs, run s steps = .ok (⟨zero, one, zero, false, carries t⟩, outs) := by
  obtain _ | ⟨hw1, hsteps⟩ := hsteps
  obtain _ | ⟨hw2, hsteps⟩ := hsteps
  obtain _ | ⟨hw3, hsteps⟩ := hsteps
  cases hsteps
  obtain ⟨s₁, out₁, hstep1, h1⟩ := h.carry1 hq hw1 _
  obtain ⟨s₂, out₂, hstep2, h2⟩ := h1.carry2 hq hw2 _
  obtain ⟨out₃, hstep3⟩ := h2.eqz ht hq hw3 _
  exact ⟨_, run_cons hstep1 (run_cons hstep2 (run_cons (r := (⟨zero, one, zero, false, carries t⟩, [])) hstep3 rfl))⟩

open BytePolynomial in
theorem During.run_check {k : ℕ} (h : During t (carries t) (above (carries t) k) s)
    (ht : value t = 0) (hq : Small (carries t))
    (hsteps : Forall₂ (fun p e => Encodes p.1 e) steps (upperChecks k ++ [(.carry1, 0), (.carry2, 0), (.eqz, 0)])) :
    ∃ outs, run s steps = .ok (⟨zero, one, zero, false, carries t⟩, outs) := by
  induction k generalizing s steps with
  | zero => exact h.run_last ht hq hsteps
  | succ k ih =>
    obtain _ | ⟨hw1, hsteps⟩ := hsteps
    obtain _ | ⟨hw2, hsteps⟩ := hsteps
    obtain _ | ⟨hw3, hsteps⟩ := hsteps
    obtain ⟨s₁, out₁, hstep1, h1⟩ := h.carry1 hq hw1 _
    obtain ⟨s₂, out₂, hstep2, h2⟩ := h1.carry2 hq hw2 _
    obtain ⟨s₃, out₃, hstep3, h3⟩ := h2.shift hq hw3 _
    obtain ⟨outs, hrest⟩ := ih h3 hsteps
    exact ⟨_, run_cons hstep1 (run_cons hstep2 (run_cons hstep3 hrest))⟩

/-- The carries that a check can cut into bytes. -/
def CarriesInRange (t : BytePolynomial) : Prop := ∀ i < t.length, -2 ^ 21 ≤ carry t i ∧ carry t i < 2 ^ 21

theorem small_of_carriesInRange (ht : value t = 0) (h : CarriesInRange t) : Small (carries t) := by
  intro i
  by_cases hi : i < t.length
  · rw [getD_carries_eq_carry ht hi]
    exact h i hi
  · rw [getD_carries, if_neg hi]
    decide

/-- Before a check nothing is pending, and the carries have not been found. -/
theorem during_of_ready {m : ℕ} (hlength : s.total.length ≤ 16 * m) (hvalue : value s.total = 0)
    (hsmall : Small (carries s.total)) (hcarry : s.inCarry = false) (hpoly : ∀ c ∈ s.poly, c = 0) :
    During s.total (carries s.total) (above (carries s.total) (m - 1)) s := by
  have hpropagate : s.total.propagateCarry = .ok (carries s.total) := by
    refine propagateFrom_ok (by rw [zero_add, hvalue]) fun i => ?_
    have := hsmall i
    rw [InI32]
    omega
  refine ⟨rfl, ?_, fun j => ?_⟩
  · rw [transition, hcarry, hpropagate]
    rfl
  · have hzero : s.poly.getD j 0 = 0 := by
      rw [getD_eq_getElem?_getD]
      cases hj : s.poly[j]? with
      | none => rfl
      | some c => exact hpoly c (mem_of_getElem? hj)
    rw [hzero, above]
    split
    · rfl
    · rw [BytePolynomial.getD_of_length_le]
      rw [length_carries]
      omega

/-- The carries are not found where nothing is checked. -/
theorem apply_inCarry (h : s.inCarry = false) (hs' : s.apply coeff bytes newPoly op = .ok s') : s'.inCarry = false := by
  cases op with
  | nop =>
    cases hs'
    rfl
  | shift =>
    cases hs'
    exact h
  | setTerm =>
    cases hs'
    exact h
  | addTotal =>
    obtain ⟨_, -, hs'⟩ := bind_ok_iff.mp hs'
    obtain ⟨_, -, hs'⟩ := bind_ok_iff.mp hs'
    obtain ⟨_, -, hs'⟩ := bind_ok_iff.mp hs'
    cases hs'
    exact h
  | carry1 =>
    obtain ⟨_, -, hs'⟩ := bind_ok_iff.mp hs'
    obtain ⟨_, -, hs'⟩ := bind_ok_iff.mp hs'
    obtain ⟨_, -, hs'⟩ := bind_ok_iff.mp hs'
    obtain ⟨_, -, hs'⟩ := bind_ok_iff.mp hs'
    cases hs'
    exact h
  | carry2 =>
    obtain ⟨_, -, hs'⟩ := bind_ok_iff.mp hs'
    obtain ⟨_, -, hs'⟩ := bind_ok_iff.mp hs'
    cases hs'
    exact h
  | eqz =>
    obtain ⟨_, -, hs'⟩ := bind_ok_iff.mp hs'
    obtain ⟨_, -, hs'⟩ := bind_ok_iff.mp hs'
    split at hs'
    · cases hs'
      rfl
    · cases hs'

theorem run_inCarry (h : s.inCarry = false)
    (hsteps : ∀ p ∈ steps, (decode p.1).memOp ≠ memoryOpCheck) (hrun : run s steps = .ok (s', outs)) : s'.inCarry = false := by
  induction steps generalizing s outs with
  | nil =>
    cases hrun
    exact h
  | cons p steps ih =>
    rw [forall_mem_cons] at hsteps
    obtain ⟨r, hstep, hrun⟩ := bind_ok_iff.mp hrun
    obtain ⟨rest, hrest, hrun⟩ := bind_ok_iff.mp hrun
    cases hrun
    rw [step, if_neg fun hcheck => hsteps.1 hcheck.2] at hstep
    obtain ⟨_, -, hstep⟩ := bind_ok_iff.mp hstep
    obtain ⟨_, -, hstep⟩ := bind_ok_iff.mp hstep
    obtain ⟨_, happly, hstep⟩ := bind_ok_iff.mp hstep
    cases hstep
    exact ih (apply_inCarry h happly) hsteps.2 hrest

theorem run_append {s₁ s₂ : BigIntPreflight} {steps' outs' : List (Word × Data)} (h : run s steps = .ok (s₁, outs))
    (h' : run s₁ steps' = .ok (s₂, outs')) : run s (steps ++ steps') = .ok (s₂, outs ++ outs') := by
  induction steps generalizing s outs with
  | nil =>
    cases h
    exact h'
  | cons p steps ih =>
    obtain ⟨r, hstep, h⟩ := bind_ok_iff.mp h
    obtain ⟨rest, hrest, h⟩ := bind_ok_iff.mp h
    cases h
    exact run_cons hstep (ih hrest)

open BytePolynomial in
/-- A total that is zero at 256, with carries in range, is found to be zero by every check of as many chunks as it has, and the bytes of
the carries satisfy the constraints of the rows at every point; one that is not zero is never found to be. -/
theorem check_of_total {built outs : List (Word × Data)} {s : BigIntPreflight} (hmemOp : ∀ p ∈ built, (decode p.1).memOp ≠ memoryOpCheck)
    (hrun : run .new built = .ok (s, outs)) :
    (∀ (m : ℕ) (steps : List (Word × Data)), (∀ c ∈ s.poly, c = 0) → s.total.length ≤ 16 * m → value s.total = 0 →
      CarriesInRange s.total → IsCheck m steps → ∃ checked, run s steps = .ok (⟨zero, one, zero, false, carries s.total⟩, checked) ∧
        ∀ (K : Type) [CommRing K] [Algebra Fp K] (z : K),
          RowsVerified z .simple (rows z .simple ((outs ++ checked).map fun p => .set p.1 p.2))) ∧
    (value s.total ≠ 0 → ∀ steps : List (Word × Data),
      (∀ p ∈ steps, (decode p.1).polyOp.toNat ≠ PolyOp.nop.num ∧ (decode p.1).polyOp.toNat ≠ PolyOp.addTotal.num) →
      (∃ p ∈ steps, (decode p.1).polyOp.toNat = PolyOp.eqz.num) → ∀ r, run s steps ≠ .ok r) := by
  refine ⟨fun m steps hpoly hlength hvalue hcarries hsteps => ?_, fun hvalue steps hkeep heqz => run_ne_ok hvalue hkeep heqz⟩
  have hsmall := small_of_carriesInRange hvalue hcarries
  have hduring := during_of_ready hlength hvalue hsmall (run_inCarry rfl hmemOp hrun) hpoly
  obtain ⟨checked, hcheck⟩ := hduring.run_check hvalue hsmall hsteps
  exact ⟨checked, hcheck, fun K _ _ z => (shows_new z).run (run_append hrun hcheck)⟩

/-! ### A total of two terms -/

def chunk (w : Word) : Data := fun i => if i.val = 0 then w else 0

/-- The total is `X ^ 16 - 256 * X ^ 15`, with one term in each of two chunks. -/
def wideProgram : List (Word × Data) :=
  [(0x01000000, chunk 1), (0x03a00000, chunk 0), (0x03400000, fun i => if i.val = 3 then 0x80000000 else 0)]

def wideTotal : BytePolynomial := replicate 15 0 ++ -256 :: 1 :: replicate 15 0

def smallCheck : List (Word × Data) := [(0x24000000, chunk 0), (0x25000000, chunk 0), (0x26000000, chunk 0)]

theorem smallCheck_isCheck : IsCheck 1 smallCheck :=
  .cons ⟨rfl, rfl, rfl⟩ (.cons ⟨rfl, rfl, rfl⟩ (.cons ⟨rfl, rfl, rfl⟩ .nil))

def wideCheck : List (Word × Data) := (0x24000001, chunk 0) :: (0x25000001, chunk 0) :: (0x21000001, chunk 0) :: smallCheck

theorem wideCheck_isCheck : IsCheck 2 wideCheck :=
  .cons ⟨rfl, rfl, rfl⟩ (.cons ⟨rfl, rfl, rfl⟩ (.cons ⟨rfl, rfl, rfl⟩ smallCheck_isCheck))

theorem run_wideProgram : ((run .new wideProgram).toOption.map fun r => (r.1.poly, r.1.total)) = some ([0], wideTotal) := by decide

theorem wideProgram_memOp : ∀ p ∈ wideProgram, (decode p.1).memOp ≠ memoryOpCheck := by
  simp [wideProgram, decode, memoryOpCheck]

theorem toOption_eq_some {ε α : Type} {x : Except ε α} {a : α} (h : x.toOption = some a) : x = .ok a := by
  cases x with
  | error e => cases h
  | ok b =>
    cases h
    rfl

open BytePolynomial in
theorem check_of_total_two_chunks : ∃ s outs, run .new wideProgram = .ok (s, outs) ∧ s.total = wideTotal ∧
    ∃ checked, run s wideCheck = .ok (⟨zero, one, zero, false, carries s.total⟩, checked) ∧
      ∀ (K : Type) [CommRing K] [Algebra Fp K] (z : K),
        RowsVerified z .simple (rows z .simple ((outs ++ checked).map fun p => .set p.1 p.2)) := by
  obtain ⟨⟨s, outs⟩, hrun, hstate⟩ := Option.map_eq_some_iff.mp run_wideProgram
  have hpoly : s.poly = [0] := congrArg Prod.fst hstate
  have htotal : s.total = wideTotal := congrArg Prod.snd hstate
  refine ⟨s, outs, toOption_eq_some hrun, htotal, ?_⟩
  refine (check_of_total wideProgram_memOp (toOption_eq_some hrun)).1 2 wideCheck ?_ ?_ ?_ ?_ wideCheck_isCheck
  · rw [hpoly]
    decide
  · rw [htotal]
    decide
  · rw [htotal]
    decide
  · rw [htotal]
    unfold CarriesInRange
    decide

/-! ### A polynomial that is pending -/

/-- What a last shift leaves is compared with the total, too. -/
theorem not_check_of_total : ¬ ∀ (built outs : List (Word × Data)) (s : BigIntPreflight) (m : ℕ) (steps : List (Word × Data)),
    (∀ p ∈ built, (decode p.1).polyOp.toNat = PolyOp.shift.num ∨ (decode p.1).polyOp.toNat = PolyOp.setTerm.num ∨
      (decode p.1).polyOp.toNat = PolyOp.addTotal.num) →
    run .new built = .ok (s, outs) → s.total.length ≤ 16 * m → value s.total = 0 → CarriesInRange s.total → IsCheck m steps →
    ∃ r, run s steps = .ok r := by
  intro hall
  have hsome : ((run .new [(0x01000000, chunk 1)]).toOption.bind fun r => if (run r.1 smallCheck).toOption.isNone then some r.1.total else none) =
      some [0] := by decide
  obtain ⟨⟨s, outs⟩, hrun, hstate⟩ := Option.bind_eq_some_iff.mp hsome
  split at hstate
  · next hnone =>
    have htotal : s.total = [0] := Option.some.inj hstate
    obtain ⟨r, hr⟩ := hall [(0x01000000, chunk 1)] outs s 1 smallCheck (by simp [decode, PolyOp.num, PolyOp.all]) (toOption_eq_some hrun) (by rw [htotal]; decide)
      (by rw [htotal]; decide) (by rw [htotal]; unfold CarriesInRange; decide) smallCheck_isCheck
    rw [hr] at hnone
    exact absurd hnone Bool.false_ne_true
  · cases hstate

end VerifiableCompute.Circuit.BigInt
