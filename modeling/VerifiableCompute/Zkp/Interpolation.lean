import VerifiableCompute.Lib.Coefficients
import VerifiableCompute.Zkp.BabyBear

/-! Interpolation, and division by linear factors. The product of all factors is built in place, a factor at a time; each point
takes its own factor out again. -/

namespace VerifiableCompute.Zkp

open Lib Polynomial List

variable {E : Type} [Field E]

/-- Evaluates a polynomial at a point. -/
def polyEval (coeffs : List E) (x : E) : E :=
  (coeffs.foldl (fun s coeff => (s.1 * x, s.2 + coeff * s.1)) ((1 : E), (0 : E))).2

/-- Divides by `X - z`. The loop runs down from the last coefficient; what it leaves in place of a coefficient is what it has
carried to it. -/
def polyDivide (p : List E) (z : E) : List E × E := p.foldr (fun c s => (s.2 :: s.1, z * s.2 + c)) ([], 0)

/-- A write to a slice, which has to have the index. -/
def write (out : List E) (i : ℕ) (val : E) : Option (List E) := if i < out.length then some (out.set i val) else none

/-- The inner loop at `j`. -/
def timesStep (x : E) (ft : List E) (j : ℕ) : List E :=
  let value := ft.getD j 0
  let ft := ft.set (j + 1) (ft.getD (j + 1) 0 + value)
  ft.set j (ft.getD j 0 * -x)

def timesFactor (ft : List E) (i : ℕ) (x : E) : List E := (List.range (i + 1)).reverse.foldl (timesStep x) ft

/-- The loop over the points from the `i`th on. -/
def productFrom : List E → ℕ → List E → List E
  | [], _, ft => ft
  | x :: xs, i, ft => productFrom xs (i + 1) (timesFactor ft i x)

def factorProduct (x : List E) (size : ℕ) : List E := productFrom (x.take size) 0 (1 :: List.replicate size 0)

def addMultiple (mul : E) (fr : List E) (size : ℕ) (out : List E) : Option (List E) :=
  (List.range size).foldlM (fun out j => write out j (out.getD j 0 + mul * fr.getD j 0)) out

def addPoint (ft x fx : List E) (size : ℕ) (out : List E) (i : ℕ) : Option (List E) := do
  let xi ← x[i]?
  let fr := (polyDivide ft xi).1
  let fi ← fx[i]?
  addMultiple (fi * (polyEval fr xi)⁻¹) fr size out

/-- The coefficients of a polynomial with given values at given points. An index that a slice does not have is a panic. -/
def polyInterpolate (out x fx : List E) (size : ℕ) : Option (List E) :=
  if size = 1 then do
    let f0 ← fx[0]?
    write out 0 f0
  else if size = 2 then do
    let f0 ← fx[0]?
    let f1 ← fx[1]?
    let x0 ← x[0]?
    let x1 ← x[1]?
    let out ← write out 1 ((f1 - f0) * (x1 - x0)⁻¹)
    write out 0 (f0 - out.getD 1 0 * x0)
  else
    (List.range size).foldlM (addPoint (factorProduct x size) x fx size) (out.map fun _ => 0)

/-- The remainders of successive divisions, each of what the one before it leaves. -/
def remainders (p : List E) : List E → List E
  | [] => []
  | z :: zs => (polyDivide p z).2 :: remainders (polyDivide p z).1 zs

theorem polyEval_eq (coeffs : List E) (x : E) : polyEval coeffs x = (polyOf coeffs).eval x := by
  have hloop (cs : List E) (mul tot : E) :
      (cs.foldl (fun s coeff => (s.1 * x, s.2 + coeff * s.1)) (mul, tot)).2 = tot + mul * (polyOf cs).eval x := by
    induction cs generalizing mul tot with
    | nil => simp
    | cons c cs ih =>
      rw [foldl_cons, ih]
      simp only [polyOf_cons, eval_add, eval_C, eval_mul, eval_X]
      ring
  rw [polyEval, hloop, zero_add, one_mul]

theorem polyDivide_eq (p : List E) (z : E) : polyOf p = (X - C z) * polyOf (polyDivide p z).1 + C (polyDivide p z).2 := by
  induction p with
  | nil => simp [polyDivide]
  | cons c p ih =>
    have hstep : polyDivide (c :: p) z = ((polyDivide p z).2 :: (polyDivide p z).1, z * (polyDivide p z).2 + c) := rfl
    rw [hstep]
    simp only [polyOf_cons, C_add, C_mul]
    rw [ih]
    ring

theorem length_polyDivide (p : List E) (z : E) : (polyDivide p z).1.length = p.length := by
  induction p with
  | nil => rfl
  | cons c p ih => exact congrArg (· + 1) ih

theorem remainder_eq (p : List E) (z : E) : (polyDivide p z).2 = (polyOf p).eval z := by
  rw [polyDivide_eq p z]
  simp

theorem polyDivide_of_root {p : List E} {z : E} (h : (polyOf p).eval z = 0) : polyOf p = (X - C z) * polyOf (polyDivide p z).1 := by
  have hdivide := polyDivide_eq p z
  rwa [remainder_eq, h, C_0, add_zero] at hdivide

/-- Nothing remains of the successive divisions exactly if the product of the factors divides. -/
theorem remainders_eq_zero_iff (p zs : List E) :
    (∀ r ∈ remainders p zs, r = 0) ↔ ((zs : Multiset E).map fun z => X - C z).prod ∣ polyOf p := by
  induction zs generalizing p with
  | nil => simp [remainders]
  | cons z zs ih =>
    rw [remainders, forall_mem_cons, ih, ← Multiset.cons_coe, Multiset.map_cons, Multiset.prod_cons]
    constructor
    · rintro ⟨hzero, hdvd⟩
      rw [remainder_eq] at hzero
      rw [polyDivide_of_root hzero]
      exact mul_dvd_mul_left _ hdvd
    · intro hdvd
      have hroot : (polyOf p).eval z = 0 := dvd_iff_isRoot.mp (dvd_of_mul_right_dvd hdvd)
      refine ⟨(remainder_eq p z).trans hroot, ?_⟩
      rw [polyDivide_of_root hroot] at hdvd
      exact (mul_dvd_mul_iff_left (X_sub_C_ne_zero z)).mp hdvd

@[simp] theorem length_timesStep (x : E) (ft : List E) (j : ℕ) : (timesStep x ft j).length = ft.length := by
  rw [timesStep, length_set, length_set]

variable {ft xs out : List E} {i size : ℕ} {y : E}

theorem polyOf_timesStep (x : E) {j : ℕ} (hj : j + 1 < ft.length) :
    polyOf (timesStep x ft j) = polyOf ft + (X - C x - 1) * (C (ft.getD j 0) * X ^ j) := by
  have hne : j + 1 ≠ j := Nat.succ_ne_self j
  rw [timesStep, polyOf_set (by rw [length_set]; omega), polyOf_set hj, getD_set hj, if_neg hne]
  simp only [C_sub, C_add, C_mul, C_neg, pow_succ]
  ring

theorem take_timesStep (x : E) (ft : List E) (j : ℕ) : (timesStep x ft j).take j = ft.take j := by
  rw [timesStep, take_set_of_le (Nat.le_refl j), take_set_of_le (Nat.le_succ j)]

/-- The loop from `n` down: the coefficients below `n` are as they were. -/
theorem polyOf_timesLoop (x : E) (n : ℕ) (hn : n < ft.length) :
    polyOf ((range n).reverse.foldl (timesStep x) ft) = polyOf ft + (X - C x - 1) * polyOf (ft.take n) ∧
      ((range n).reverse.foldl (timesStep x) ft).length = ft.length := by
  induction n generalizing ft with
  | zero => simp
  | succ n ih =>
    have hlength := length_timesStep x ft n
    obtain ⟨hpoly, hlength'⟩ := @ih (timesStep x ft n) (by omega)
    rw [range_succ, reverse_append, reverse_singleton, singleton_append, foldl_cons, hpoly, hlength', hlength,
      polyOf_timesStep x hn, take_timesStep, polyOf_take_succ]
    refine ⟨?_, rfl⟩
    ring

theorem polyOf_timesFactor (x : E) (hi : i + 1 < ft.length) (hdegree : (polyOf ft).degree < (i + 1 : ℕ)) :
    polyOf (timesFactor ft i x) = polyOf ft * (X - C x) ∧ (timesFactor ft i x).length = ft.length := by
  obtain ⟨hpoly, hlength⟩ := polyOf_timesLoop x (i + 1) hi
  refine ⟨?_, hlength⟩
  rw [timesFactor, hpoly, polyOf_take hdegree]
  ring

theorem degree_factors (xs : List E) : ((xs.map fun x => X - C x).prod).degree = (xs.length : WithBot ℕ) := by
  induction xs with
  | nil => exact degree_one
  | cons x xs ih =>
    rw [map_cons, prod_cons, degree_mul, ih, degree_X_sub_C, length_cons]
    push_cast
    exact add_comm _ _

theorem polyOf_productFrom (xs : List E) (i : ℕ) (hi : i + xs.length < ft.length) (hdegree : (polyOf ft).degree = i) :
    polyOf (productFrom xs i ft) = polyOf ft * (xs.map fun x => X - C x).prod ∧ (productFrom xs i ft).length = ft.length := by
  induction xs generalizing i ft with
  | nil => exact ⟨(mul_one _).symm, rfl⟩
  | cons x xs ih =>
    rw [length_cons] at hi
    obtain ⟨hpoly, hlength⟩ := polyOf_timesFactor x (show i + 1 < ft.length by omega) (by
      rw [hdegree]
      exact Nat.cast_lt.mpr (Nat.lt_succ_self i))
    have hdegree' : (polyOf (timesFactor ft i x)).degree = (i + 1 : ℕ) := by
      rw [hpoly, degree_mul, hdegree, degree_X_sub_C]
      push_cast
      rfl
    obtain ⟨hrest, hlength'⟩ := ih (i + 1) (by omega) hdegree'
    rw [productFrom, hrest, hpoly, hlength', hlength, map_cons, prod_cons, mul_assoc]
    exact ⟨rfl, rfl⟩

theorem polyOf_factorProduct (x : List E) (hx : size ≤ x.length) :
    polyOf (factorProduct x size) = ((x.take size).map fun x => X - C x).prod ∧ (factorProduct x size).length = size + 1 := by
  have hone : polyOf (1 :: replicate size (0 : E)) = 1 := by
    have hzero : polyOf (replicate size (0 : E)) = 0 := by
      ext k
      rw [coeff_polyOf, coeff_zero, getD_eq_getElem?_getD, getElem?_replicate]
      split
      · rfl
      · rfl
    rw [polyOf_cons, hzero, C_1, mul_zero, add_zero]
  obtain ⟨hpoly, hlength⟩ := polyOf_productFrom (x.take size) 0
    (show 0 + (x.take size).length < (1 :: replicate size (0 : E)).length by
      rw [length_take, length_cons, length_replicate]
      omega) (by rw [hone]; exact degree_one)
  rw [factorProduct, hpoly, hlength, hone, one_mul, length_cons, length_replicate]
  exact ⟨rfl, rfl⟩

theorem eval_factors (xs : List E) (y : E) : ((xs.map fun x => X - C x).prod).eval y = (xs.map fun x => y - x).prod := by
  induction xs with
  | nil => exact eval_one
  | cons x xs ih => simp [ih]

theorem eval_factors_ne_zero (hy : y ∉ xs) : ((xs.map fun x => X - C x).prod).eval y ≠ 0 := by
  rw [eval_factors]
  apply prod_ne_zero
  intro hmem
  obtain ⟨x, hx, heq⟩ := mem_map.mp hmem
  rw [sub_eq_zero] at heq
  exact hy (heq ▸ hx)

theorem eval_factors_of_mem (hy : y ∈ xs) : ((xs.map fun x => X - C x).prod).eval y = 0 := by
  rw [eval_factors]
  exact prod_eq_zero (mem_map.mpr ⟨y, hy, sub_self y⟩)

/-- Without the factor of a point the product is zero at all others and not at the point. -/
theorem exists_others (hnodup : xs.Nodup) {x : E} (hx : x ∈ xs) : ∃ q : E[X],
    (xs.map fun x => X - C x).prod = (X - C x) * q ∧ q.eval x ≠ 0 ∧ (∀ y ∈ xs, y ≠ x → q.eval y = 0) ∧ q.degree < xs.length := by
  obtain ⟨as, bs, rfl⟩ := append_of_mem hx
  rw [nodup_append, nodup_cons] at hnodup
  obtain ⟨-, ⟨hbs, -⟩, has⟩ := hnodup
  refine ⟨(as.map fun x => X - C x).prod * (bs.map fun x => X - C x).prod, ?_, ?_, ?_, ?_⟩
  · rw [map_append, map_cons, prod_append, prod_cons]
    ring
  · rw [eval_mul]
    exact mul_ne_zero (eval_factors_ne_zero fun h => has x h x mem_cons_self rfl) (eval_factors_ne_zero hbs)
  · intro y hy hne
    rw [eval_mul]
    rcases mem_append.mp hy with h | h
    · rw [eval_factors_of_mem h, zero_mul]
    · rw [eval_factors_of_mem ((mem_cons.mp h).resolve_left hne), mul_zero]
  · rw [degree_mul, degree_factors, degree_factors, length_append, length_cons, ← Nat.cast_add]
    exact Nat.cast_lt.mpr (by omega)

omit [Field E] in
theorem write_eq (h : i < out.length) (val : E) : write out i val = some (out.set i val) := if_pos h

theorem addMultiple_eq (mul : E) (fr : List E) (hout : size ≤ out.length) :
    ∃ out', addMultiple mul fr size out = some out' ∧ out'.length = out.length ∧
      polyOf out' = polyOf out + C mul * polyOf (fr.take size) := by
  unfold addMultiple
  induction size with
  | zero => exact ⟨out, rfl, rfl, by simp⟩
  | succ n ih =>
    obtain ⟨out', heq, hlength, hpoly⟩ := ih (by omega)
    have hn : n < out'.length := by omega
    refine ⟨out'.set n (out'.getD n 0 + mul * fr.getD n 0), ?_, ?_, ?_⟩
    · rw [range_succ, foldlM_append, heq]
      simp [write_eq hn]
    · rw [length_set, hlength]
    · rw [polyOf_set hn, hpoly, polyOf_take_succ, add_sub_cancel_left, C_mul]
      ring

/-- Has the values at the points, is of lower degree than there are points, and is the only one. -/
structure Interpolates (p : E[X]) (size : ℕ) (x fx : List E) : Prop where
  degree : p.degree < size
  values : ∀ i < size, p.eval (x.getD i 0) = fx.getD i 0
  unique : ∀ q : E[X], q.degree < size → (∀ i < size, q.eval (x.getD i 0) = fx.getD i 0) → q = p

section Points

variable {x fx : List E} {size : ℕ}
variable {i : ℕ} {out : List E}

section

variable (hx : size ≤ x.length)

include hx

theorem point_mem (hi : i < size) : x[i]? = some (x.getD i 0) ∧ x.getD i 0 ∈ x.take size := by
  have hlt : i < x.length := by omega
  rw [getD_eq_getElem _ _ hlt, getElem?_eq_getElem hlt]
  refine ⟨rfl, mem_take_iff_getElem.mpr ⟨i, by omega, rfl⟩⟩

theorem point_inj (hdistinct : (x.take size).Nodup) {j : ℕ} (hi : i < size) (hj : j < size)
    (h : x.getD i 0 = x.getD j 0) : i = j := by
  have hi' : i < (x.take size).length := by rw [length_take]; omega
  have hj' : j < (x.take size).length := by rw [length_take]; omega
  rw [getD_eq_getElem _ _ (by omega), getD_eq_getElem _ _ (by omega)] at h
  have heq : (x.take size).get ⟨i, hi'⟩ = (x.take size).get ⟨j, hj'⟩ := by
    rw [get_eq_getElem, get_eq_getElem, getElem_take, getElem_take]
    exact h
  exact congrArg Fin.val (nodup_iff_injective_get.mp hdistinct heq)

theorem Interpolates.of_values (hdistinct : (x.take size).Nodup) {p : E[X]} (hdegree : p.degree < size)
    (hvalues : ∀ i < size, p.eval (x.getD i 0) = fx.getD i 0) : Interpolates p size x fx := by
  refine ⟨hdegree, hvalues, fun q hq hq' => ?_⟩
  have hinj : Set.InjOn (fun i => x.getD i 0) (Finset.range size) := by
    intro i hi j hj h
    exact point_inj hx hdistinct (Finset.mem_range.mp hi) (Finset.mem_range.mp hj) h
  have hcard : ((Finset.range size).card : WithBot ℕ) = size := by rw [Finset.card_range]
  refine eq_of_degrees_lt_of_eval_index_eq (Finset.range size) hinj (hcard ▸ hq) (hcard ▸ hdegree) fun i hi => ?_
  rw [Finset.mem_range] at hi
  rw [hq' i hi, hvalues i hi]

variable (hfx : size ≤ fx.length) (hdistinct : (x.take size).Nodup) (hout : size ≤ out.length)

include hfx hdistinct hout

theorem addPoint_eq (hi : i < size) : ∃ out' : List E, ∃ q : E[X], addPoint (factorProduct x size) x fx size out i = some out' ∧
      out'.length = out.length ∧ polyOf out' = polyOf out + q ∧ q.degree < size ∧
      ∀ j < size, q.eval (x.getD j 0) = if j = i then fx.getD i 0 else 0 := by
  obtain ⟨hpoint, hmem⟩ := point_mem hx hi
  obtain ⟨hvalue, -⟩ := point_mem hfx hi
  obtain ⟨hproduct, -⟩ := polyOf_factorProduct x hx
  obtain ⟨q, hq, hself, hothers, hdegree⟩ := exists_others hdistinct hmem
  rw [length_take, Nat.min_eq_left hx] at hdegree
  have hroot : (polyOf (factorProduct x size)).eval (x.getD i 0) = 0 := by
    rw [hproduct]
    exact eval_factors_of_mem hmem
  have hfr : polyOf (polyDivide (factorProduct x size) (x.getD i 0)).1 = q := by
    have hdivide := polyDivide_of_root hroot
    rw [hproduct, hq] at hdivide
    exact (mul_left_cancel₀ (X_sub_C_ne_zero _) hdivide).symm
  obtain ⟨out', heq, hlength, hpoly⟩ := addMultiple_eq
    (fx.getD i 0 * (polyEval (polyDivide (factorProduct x size) (x.getD i 0)).1 (x.getD i 0))⁻¹)
    (polyDivide (factorProduct x size) (x.getD i 0)).1 hout
  rw [polyOf_take (hfr ▸ hdegree), hfr, polyEval_eq, hfr] at hpoly
  refine ⟨out', C (fx.getD i 0 * (q.eval (x.getD i 0))⁻¹) * q, ?_, hlength, hpoly, ?_, ?_⟩
  · rw [addPoint, hpoint, hvalue]
    exact heq
  · rw [← smul_eq_C_mul]
    exact lt_of_le_of_lt (degree_smul_le _ _) hdegree
  · intro j hj
    rw [eval_mul, eval_C]
    by_cases hji : j = i
    · rw [if_pos hji, hji, mul_assoc, inv_mul_cancel₀ hself, mul_one]
    · have hne : x.getD j 0 ≠ x.getD i 0 := fun h => hji (point_inj hx hdistinct hj hi h)
      rw [if_neg hji, hothers _ (point_mem hx hj).2 hne, mul_zero]

/-- The loop over the points: after `n` of them the values of these are taken. -/
theorem addPoints_eq (hzero : polyOf out = 0) {n : ℕ} (hn : n ≤ size) :
    ∃ out', (range n).foldlM (addPoint (factorProduct x size) x fx size) out = some out' ∧ out'.length = out.length ∧
      (polyOf out').degree < size ∧ ∀ j < size, (polyOf out').eval (x.getD j 0) = if j < n then fx.getD j 0 else 0 := by
  induction n with
  | zero =>
    refine ⟨out, rfl, rfl, ?_, ?_⟩
    · rw [hzero, degree_zero]
      exact WithBot.bot_lt_coe size
    · intro j _
      rw [hzero, eval_zero, if_neg (Nat.not_lt_zero j)]
  | succ n ih =>
    obtain ⟨out', heq, hlength, hdegree, hvalues⟩ := ih (by omega)
    obtain ⟨out'', q, heq', hlength', hpoly, hdegree', hvalues'⟩ := addPoint_eq hx hfx hdistinct (show size ≤ out'.length by omega)
      (show n < size by omega)
    refine ⟨out'', ?_, by omega, ?_, ?_⟩
    · rw [range_succ, foldlM_append, heq]
      simp [heq']
    · rw [hpoly]
      exact lt_of_le_of_lt (degree_add_le _ _) (max_lt hdegree hdegree')
    · intro j hj
      rw [hpoly, eval_add, hvalues j hj, hvalues' j hj]
      by_cases hjn : j = n
      · rw [hjn, if_neg (Nat.lt_irrefl n), if_pos rfl, if_pos (Nat.lt_succ_self n), zero_add]
      · have hiff : j < n + 1 ↔ j < n := by omega
        rw [if_neg hjn, add_zero, if_congr hiff rfl rfl]

end

/-- The coefficients that are written are those of the polynomial with the values. -/
theorem polyInterpolate_eq (hsize : 1 ≤ size) (hout : size ≤ out.length) (hx : size ≤ x.length) (hfx : size ≤ fx.length)
    (hdistinct : (x.take size).Nodup) : ∃ out', polyInterpolate out x fx size = some out' ∧ out'.length = out.length ∧
      Interpolates (polyOf (out'.take size)) size x fx := by
  have hlt (cs : List E) (h : size ≤ cs.length) : (polyOf (cs.take size)).degree < size := by
    have hdegree := degree_polyOf_lt (cs.take size)
    rwa [length_take, Nat.min_eq_left h] at hdegree
  by_cases h1 : size = 1
  · subst h1
    have hf0 := (point_mem hfx Nat.one_pos).1
    refine ⟨out.set 0 (fx.getD 0 0), ?_, length_set, ?_⟩
    · rw [polyInterpolate, if_pos rfl, hf0]
      exact write_eq (by omega) _
    · refine .of_values hx hdistinct (hlt _ (by rwa [length_set])) fun i hi => ?_
      obtain rfl : i = 0 := by omega
      cases out with
      | nil => exact absurd hout (by simp)
      | cons o rest => simp
  · by_cases h2 : size = 2
    · subst h2
      have hf0 := (point_mem hfx (show 0 < 2 by omega)).1
      have hf1 := (point_mem hfx (show 1 < 2 by omega)).1
      have hx0 := (point_mem hx (show 0 < 2 by omega)).1
      have hx1 := (point_mem hx (show 1 < 2 by omega)).1
      have hne : x.getD 1 0 - x.getD 0 0 ≠ 0 := by
        intro h
        have := point_inj hx hdistinct (show 1 < 2 by omega) (show 0 < 2 by omega) (sub_eq_zero.mp h)
        omega
      obtain ⟨o0, o1, rest, rfl⟩ : ∃ o0 o1 rest, out = o0 :: o1 :: rest := by
        cases out with
        | nil => exact absurd hout (by simp)
        | cons o0 rest =>
          cases rest with
          | nil => exact absurd hout (by simp)
          | cons o1 rest => exact ⟨o0, o1, rest, rfl⟩
      have hslope (m : E) (hm : m = (fx.getD 1 0 - fx.getD 0 0) * (x.getD 1 0 - x.getD 0 0)⁻¹) :
          m * (x.getD 1 0 - x.getD 0 0) = fx.getD 1 0 - fx.getD 0 0 := by
        rw [hm, mul_assoc, inv_mul_cancel₀ hne, mul_one]
      refine ⟨(fx.getD 0 0 - (fx.getD 1 0 - fx.getD 0 0) * (x.getD 1 0 - x.getD 0 0)⁻¹ * x.getD 0 0) ::
        ((fx.getD 1 0 - fx.getD 0 0) * (x.getD 1 0 - x.getD 0 0)⁻¹) :: rest, ?_, rfl, ?_⟩
      · rw [polyInterpolate, if_neg h1, if_pos rfl, hf0, hf1, hx0, hx1]
        rfl
      · generalize hm : (fx.getD 1 0 - fx.getD 0 0) * (x.getD 1 0 - x.getD 0 0)⁻¹ = m
        have hslope' := hslope m hm.symm
        refine .of_values hx hdistinct (hlt _ hout) fun i hi => ?_
        obtain rfl | rfl : i = 0 ∨ i = 1 := by omega
        · simp only [take_succ_cons, take_zero, polyOf_cons, polyOf_nil, eval_add, eval_C, eval_mul, eval_X, mul_zero, add_zero]
          ring
        · simp only [take_succ_cons, take_zero, polyOf_cons, polyOf_nil, eval_add, eval_C, eval_mul, eval_X, mul_zero, add_zero]
          linear_combination hslope'
    · have hzero : polyOf (out.map fun _ => (0 : E)) = 0 := by
        ext k
        rw [coeff_polyOf, coeff_zero, map_const', getD_eq_getElem?_getD, getElem?_replicate]
        split
        · rfl
        · rfl
      obtain ⟨out', heq, hlength, hdegree, hvalues⟩ := addPoints_eq hx hfx hdistinct
        (show size ≤ (out.map fun _ => (0 : E)).length by rwa [length_map]) hzero (Nat.le_refl size)
      refine ⟨out', ?_, by rw [hlength, length_map], ?_⟩
      · rw [polyInterpolate, if_neg h1, if_neg h2]
        exact heq
      · rw [polyOf_take hdegree]
        exact .of_values hx hdistinct hdegree fun i hi => by rw [hvalues i hi, if_pos hi]

end Points

/-- Interpolation writes the one polynomial of lower degree with the values, division by `X - z` leaves a quotient and a remainder,
and successive divisions leave no remainders exactly if the points are among the roots, each as often. -/
theorem interpolation_and_division :
    (∀ (out x fx : List E) (size : ℕ), 1 ≤ size → size ≤ out.length → size ≤ x.length → size ≤ fx.length → (x.take size).Nodup →
      ∃ out', polyInterpolate out x fx size = some out' ∧ out'.length = out.length ∧
        Interpolates (polyOf (out'.take size)) size x fx) ∧
    (∀ (p : List E) (z : E), (polyDivide p z).1.length = p.length ∧
      polyOf p = (X - C z) * polyOf (polyDivide p z).1 + C (polyDivide p z).2) ∧
    ∀ p zs : List E, (∀ r ∈ remainders p zs, r = 0) ↔ polyOf p = 0 ∨ (zs : Multiset E) ≤ (polyOf p).roots := by
  refine ⟨fun out x fx size hsize hout hx hfx hdistinct => polyInterpolate_eq hsize hout hx hfx hdistinct,
    fun p z => ⟨length_polyDivide p z, polyDivide_eq p z⟩, fun p zs => ?_⟩
  rw [remainders_eq_zero_iff]
  by_cases hp : polyOf p = 0
  · rw [hp]
    exact ⟨fun _ => .inl rfl, fun _ => dvd_zero _⟩
  · rw [Multiset.prod_X_sub_C_dvd_iff_le_roots hp]
    exact ⟨.inr, fun h => h.resolve_left hp⟩

/-- Three values at three points of the field of the circuit. -/
theorem interpolation_of_three : ∃ out', polyInterpolate [0, 0, 0] [(0 : Circuit.Fp), 1, -1] [1, 1, 0] 3 = some out' ∧
    out'.length = 3 ∧ Interpolates (polyOf (out'.take 3)) 3 [0, 1, -1] [1, 1, 0] :=
  interpolation_and_division.1 [0, 0, 0] [0, 1, -1] [1, 1, 0] 3 (by decide) (by decide) (by decide) (by decide) (by decide)

end VerifiableCompute.Zkp
