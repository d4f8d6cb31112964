import Mathlib

/-! Fallible computations and checked fixed-width arithmetic. A computation
either returns or fails with an error; a failed computation has no result. The
word operations are those of a language whose default arithmetic aborts on
overflow and whose explicit wrap-around arithmetic is that of `BitVec`; where a
result is to stay in range instead, it stops at the end of the range. -/

namespace VerifiableCompute.Lib

open BitVec List Nat

variable {ε α β : Type} {w v : ℕ}

/-- A sequence returns exactly when both of its parts do. -/
theorem bind_ok_iff {x : Except ε α} {f : α → Except ε β} {b : β} :
    x >>= f = Except.ok b ↔ ∃ a, x = Except.ok a ∧ f a = Except.ok b := by
  rcases x with e | a <;> simp [bind, Except.bind]

theorem bind_error_iff (x : Except ε α) (f : α → Except ε β) (e : ε) :
    x >>= f = Except.error e ↔ x = Except.error e ∨ ∃ a, x = Except.ok a ∧ f a = Except.error e := by
  rcases x with e' | a <;> simp [bind, Except.bind]

theorem mapM_eq_map {f : α → Option β} {g : α → β} {l : List α} (h : ∀ a ∈ l, f a = some (g a)) : l.mapM f = some (l.map g) := by
  induction l with
  | nil => rfl
  | cons a l ih =>
    rw [forall_mem_cons] at h
    rw [mapM_cons, h.1, ih h.2]
    rfl

variable {e : ε} {x y z : BitVec w}

/-- A loop that counts down keeps an invariant, or stops with an error where there is a reason. -/
theorem foldlM_countdown {f : α → ℕ → Except ε α} {P : ℕ → α → Prop} {reason : Prop} (start n : ℕ) {a : α}
    (hstep : ∀ i, start ≤ i → i < start + n → ∀ a, P (i + 1) a → f a i = .error e ∧ reason ∨ ∃ a', f a i = .ok a' ∧ P i a')
    (h : P (start + n) a) : (range' start n).reverse.foldlM f a = .error e ∧ reason ∨
      ∃ a', (range' start n).reverse.foldlM f a = .ok a' ∧ P start a' := by
  induction n generalizing a with
  | zero => exact .inr ⟨a, rfl, h⟩
  | succ n ih =>
    rw [range'_1_concat, List.reverse_append, reverse_singleton, singleton_append, foldlM_cons]
    obtain ⟨hf, hreason⟩ | ⟨a', hf, ha'⟩ := hstep (start + n) (by omega) (by omega) a h
    · rw [hf]
      exact .inl ⟨rfl, hreason⟩
    · rw [hf]
      exact ih (fun i hle hlt => hstep i hle (by omega)) ha'

/-- Continue exactly when the condition holds. -/
def require (c : Prop) [Decidable c] (e : ε) : Except ε Unit :=
  if c then .ok () else .error e

theorem require_ok_iff {c : Prop} [Decidable c] {u : Unit} : require c e = Except.ok u ↔ c := by
  unfold require
  split_ifs with h <;> simp [h]

/-- Addition that fails when the exact sum does not fit the width. -/
def checkedAdd (e : ε) (x y : BitVec w) : Except ε (BitVec w) :=
  if x.toNat + y.toNat < 2 ^ w then .ok (x + y) else .error e

/-- Subtraction that fails when the exact difference is negative. -/
def checkedSub (e : ε) (x y : BitVec w) : Except ε (BitVec w) :=
  if y ≤ x then .ok (x - y) else .error e

/-- Multiplication that fails when the exact product does not fit the width. -/
def checkedMul (e : ε) (x y : BitVec w) : Except ε (BitVec w) :=
  if x.toNat * y.toNat < 2 ^ w then .ok (x * y) else .error e

/-- Narrowing that fails when the value does not fit the target width. -/
def safeCast (v : ℕ) (e : ε) (x : BitVec w) : Except ε (BitVec v) :=
  if x.toNat < 2 ^ v then .ok (x.setWidth v) else .error e

theorem checkedAdd_ok (h : checkedAdd e x y = .ok z) : z.toNat = x.toNat + y.toNat := by
  unfold checkedAdd at h
  split at h
  · cases h
    exact toNat_add_of_lt ‹_›
  · cases h

theorem checkedAdd_eq_ok (h : x.toNat + y.toNat < 2 ^ w) : checkedAdd e x y = .ok (x + y) := by
  simp [checkedAdd, h]

theorem checkedSub_ok (h : checkedSub e x y = .ok z) : z.toNat + y.toNat = x.toNat := by
  unfold checkedSub at h
  split at h
  next hle =>
    cases h
    rw [toNat_sub_of_le hle]
    exact Nat.sub_add_cancel hle
  next => cases h

theorem safeCast_ok {z : BitVec v} (h : safeCast v e x = .ok z) : z.toNat = x.toNat := by
  unfold safeCast at h
  split at h
  next hlt =>
    cases h
    rw [toNat_setWidth, mod_eq_of_lt hlt]
  next => cases h

/-- Wrap-around subtraction under the guard its callers check. -/
theorem sub_add_toNat (h : y ≤ x) : (x - y).toNat + y.toNat = x.toNat := by
  rw [toNat_sub_of_le h]
  exact Nat.sub_add_cancel h

/-- Subtraction that stops at zero. -/
def saturatingSub (x y : BitVec w) : BitVec w :=
  if y ≤ x then x - y else 0#w

/-- Multiplication that stops at the largest word. -/
def saturatingMul (x y : BitVec w) : BitVec w :=
  if x.toNat * y.toNat < 2 ^ w then x * y else BitVec.allOnes w

/-- Division that counts a remainder as one more. -/
def divCeil (x y : BitVec w) : BitVec w :=
  if x % y = 0#w then x / y else x / y + 1#w

/-- Narrowing that stops at the largest word. -/
def saturatingCast (v : ℕ) (x : BitVec w) : BitVec v :=
  if x.toNat < 2 ^ v then x.setWidth v else BitVec.allOnes v

@[simp] theorem toNat_saturatingSub (x y : BitVec w) : (saturatingSub x y).toNat = x.toNat - y.toNat := by
  unfold saturatingSub
  split_ifs with h
  · exact toNat_sub_of_le h
  · rw [le_def] at h
    rw [toNat_ofNat, zero_mod]
    omega

@[simp] theorem toNat_saturatingMul (x y : BitVec w) : (saturatingMul x y).toNat = min (x.toNat * y.toNat) (2 ^ w - 1) := by
  unfold saturatingMul
  split_ifs with h
  · rw [toNat_mul, mod_eq_of_lt h]
    omega
  · rw [toNat_allOnes]
    omega

@[simp] theorem toNat_saturatingCast (x : BitVec w) : (saturatingCast v x).toNat = min x.toNat (2 ^ v - 1) := by
  unfold saturatingCast
  split_ifs with h
  · rw [toNat_setWidth, mod_eq_of_lt h]
    omega
  · rw [toNat_allOnes]
    omega

theorem toNat_divCeil (x : BitVec w) (hy : 0 < y.toNat) : (divCeil x y).toNat = x.toNat ⌈/⌉ y.toNat := by
  have hmod : x % y = 0#w ↔ x.toNat % y.toNat = 0 := by
    rw [← toNat_inj, toNat_umod, toNat_ofNat, zero_mod]
  have hdiv := div_add_mod x.toNat y.toNat
  rw [ceilDiv_eq_add_pred_div]
  unfold divCeil
  split_ifs with h
  · have hexact : x.toNat + y.toNat - 1 = y.toNat * (x.toNat / y.toNat) + (y.toNat - 1) := by
      rw [hmod] at h
      omega
    rw [toNat_udiv, hexact, mul_add_div hy,
      div_eq_of_lt (show y.toNat - 1 < y.toNat by omega), Nat.add_zero]
  · have hpos : 0 < x.toNat % y.toNat := Nat.pos_of_ne_zero fun hzero => h (hmod.mpr hzero)
    have hlt : x.toNat % y.toNat < y.toNat := mod_lt _ hy
    have hbig : 2 * (x.toNat / y.toNat) ≤ y.toNat * (x.toNat / y.toNat) := Nat.mul_le_mul_right _ (by omega)
    have hfits : (x / y).toNat + (1#w).toNat < 2 ^ w := by
      have hx := x.isLt
      have hone : (1#w).toNat ≤ 1 := by
        rw [toNat_ofNat]
        exact mod_le _ _
      rw [toNat_udiv]
      omega
    have hone : (1#w).toNat = 1 := by
      have hx := x.isLt
      rw [toNat_ofNat]
      exact mod_eq_of_lt (by omega)
    have hsplit : x.toNat + y.toNat - 1 = y.toNat * (x.toNat / y.toNat + 1) + (x.toNat % y.toNat - 1) := by
      rw [Nat.mul_add]
      omega
    rw [toNat_add_of_lt hfits, hone, toNat_udiv, hsplit, mul_add_div hy,
      div_eq_of_lt (show x.toNat % y.toNat - 1 < y.toNat by omega), Nat.add_zero]

/-! A line through the origin on a grid of naturals. Its values are rounded down, the arguments at which it
reaches a level are rounded up, and the two are adjoint. -/

/-- How far a line that rises by `rise` over `run` has risen after `d`. -/
def ramp (rise run d : ℕ) : ℕ := d * rise / run

/-- The first argument at which the line has risen by `level`. -/
def rampInverse (rise run level : ℕ) : ℕ := level * run ⌈/⌉ rise

variable {rise run level d d' : ℕ}

theorem ramp_mono (h : d ≤ d') : ramp rise run d ≤ ramp rise run d' :=
  Nat.div_le_div_right (Nat.mul_le_mul_right rise h)

theorem ramp_le (h : d ≤ run) : ramp rise run d ≤ rise := by
  rcases Nat.eq_zero_or_pos run with hrun | hrun
  · rw [ramp, hrun, Nat.div_zero]
    exact Nat.zero_le rise
  · rw [ramp]
    exact Nat.div_le_of_le_mul (Nat.mul_le_mul_right rise h)

/-- Rounding up the arguments inverts rounding down the values. -/
theorem le_ramp_iff (hrise : 0 < rise) (hrun : 0 < run) : level ≤ ramp rise run d ↔ rampInverse rise run level ≤ d := by
  rw [ramp, rampInverse, Nat.le_div_iff_mul_le hrun, ceilDiv_le_iff_le_mul hrise, Nat.mul_comm d]

theorem rampInverse_le (hrise : 0 < rise) (h : level ≤ rise) : rampInverse rise run level ≤ run := by
  rw [rampInverse, ceilDiv_le_iff_le_mul hrise]
  exact Nat.mul_le_mul_right run h

theorem rampInverse_pos (hrise : 0 < rise) (hrun : 0 < run) (hlevel : 0 < level) : 0 < rampInverse rise run level := by
  rw [← not_le, ← le_ramp_iff hrise hrun, ramp, Nat.zero_mul, Nat.zero_div]
  omega

end VerifiableCompute.Lib

/-! Brackets around a partial binary operation. Where the operation is associative, with one side defined exactly
when the other is, only the order of the operands matters. -/

namespace VerifiableCompute.Lib

open List

variable {α : Type}

/-- A way to combine a list of operands, two at a time. -/
inductive Bracketing (α : Type)
  | leaf (a : α)
  | join (left right : Bracketing α)

namespace Bracketing

def leaves : Bracketing α → List α
  | leaf a => [a]
  | join left right => left.leaves ++ right.leaves

def run {m : Type → Type} [Monad m] (op : α → α → m α) : Bracketing α → m α
  | leaf a => pure a
  | join left right => do
    let x ← left.run op
    let y ← right.run op
    op x y

theorem leaves_ne_nil : ∀ t : Bracketing α, t.leaves ≠ []
  | leaf _ => cons_ne_nil _ _
  | join left _ => append_ne_nil_of_left_ne_nil left.leaves_ne_nil _

def PartialAssoc (op : α → α → Option α) : Prop := ∀ a b c, (op a b).bind (op · c) = (op b c).bind (op a ·)

section Assoc

variable {op : α → α → Option α} (h : PartialAssoc op)
include h

theorem bind_foldlM (x a : α) (rest : List α) : (rest.foldlM op a).bind (op x ·) = (op x a).bind fun y => rest.foldlM op y := by
  induction rest generalizing a with
  | nil => exact (Option.bind_fun_some (op x a)).symm
  | cons b rest ih =>
    calc ((op a b).bind fun y => rest.foldlM op y).bind (op x ·)
        = (op a b).bind fun y => (rest.foldlM op y).bind (op x ·) := Option.bind_assoc ..
      _ = (op a b).bind fun y => (op x y).bind fun z => rest.foldlM op z := by simp only [ih]
      _ = ((op a b).bind (op x ·)).bind fun z => rest.foldlM op z := (Option.bind_assoc ..).symm
      _ = ((op x a).bind (op · b)).bind fun z => rest.foldlM op z := by rw [h x a b]
      _ = (op x a).bind fun y => (op y b).bind fun z => rest.foldlM op z := Option.bind_assoc ..

theorem run_eq_foldlM {t : Bracketing α} {a : α} {rest : List α} (ht : t.leaves = a :: rest) : t.run op = rest.foldlM op a := by
  induction t generalizing a rest with
  | leaf b =>
    obtain ⟨rfl, rfl⟩ := List.cons.inj ht
    rfl
  | join left right ihl ihr =>
    obtain ⟨b, x, hleft⟩ := exists_cons_of_ne_nil left.leaves_ne_nil
    obtain ⟨c, y, hright⟩ := exists_cons_of_ne_nil right.leaves_ne_nil
    rw [leaves, hleft, hright, cons_append] at ht
    obtain ⟨rfl, rfl⟩ := List.cons.inj ht
    calc (left.run op).bind (fun u => (right.run op).bind (op u ·))
        = (x.foldlM op b).bind (fun u => (y.foldlM op c).bind (op u ·)) := by rw [ihl hleft, ihr hright]
      _ = (x.foldlM op b).bind (fun u => (op u c).bind fun v => y.foldlM op v) := by simp only [bind_foldlM h]
      _ = (x ++ c :: y).foldlM op b := by
        rw [foldlM_append]
        rfl

theorem run_eq_of_leaves_eq {t t' : Bracketing α} (hleaves : t'.leaves = t.leaves) : t'.run op = t.run op := by
  obtain ⟨a, rest, ht⟩ := exists_cons_of_ne_nil t.leaves_ne_nil
  rw [run_eq_foldlM h ht, run_eq_foldlM h (hleaves.trans ht)]

end Assoc

/-- Forgetting the errors commutes with combining. -/
theorem toOption_run {ε : Type} (op : α → α → Except ε α) : ∀ t : Bracketing α, (t.run op).toOption = t.run fun a b => (op a b).toOption
  | leaf _ => rfl
  | join left right => by
    have hleft := left.toOption_run op
    have hright := right.toOption_run op
    simp only [run, ← hleft, ← hright]
    cases left.run op with
    | error e => rfl
    | ok x => cases right.run op <;> rfl

end Bracketing

end VerifiableCompute.Lib
