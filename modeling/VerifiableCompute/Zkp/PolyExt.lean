import VerifiableCompute.Zkp.BabyBear

/-! The interpreter of constraint programs. A program computes field values and chains of
constraints over them; a chain is mixed into one value with the powers of a challenge, a
conditional block is mixed on its own and spliced into the chain that encloses it. -/

namespace VerifiableCompute.Zkp

open Finset Polynomial

/-- How an element of the extension is built from its four parts. -/
class FromSubelems (F K : Type) where
  fromSubelems : F → F → F → F → K

structure MixState (K : Type) where
  tot : K
  mul : K

open MixState

abbrev Arg := ℕ
abbrev Var := ℕ

inductive PolyExtStep
  | const (value : BitVec 32)
  | constExt (x0 x1 x2 x3 : BitVec 32)
  | get (tap : ℕ)
  | getGlobal (base : Arg) (offset : ℕ)
  | add (x1 x2 : Var)
  | sub (x1 x2 : Var)
  | mul (x1 x2 : Var)
  | true
  | andEqz (chain inner : Var)
  | andCond (chain cond inner : Var)

structure PolyExtStepDef where
  block : List PolyExtStep
  ret : Var

/-- Whether a step makes a chain; the others make a value. -/
def PolyExtStep.isMix : PolyExtStep → Bool
  | .true | .andEqz _ _ | .andCond _ _ _ => Bool.true
  | _ => false

section Executor

variable {F K : Type} [Field F] [Field K] [Algebra F K] [FromSubelems F K]

/-- The value that a step makes from those before it; `none` is an index out of range, which
panics. -/
def PolyExtStep.value (u : List K) (args : List (List F)) (fpVars : List K) : PolyExtStep → Option K
  | .const value => some (algebraMap F K value.toNat)
  | .constExt x0 x1 x2 x3 =>
    some (FromSubelems.fromSubelems (x0.toNat : F) (x1.toNat : F) (x2.toNat : F) (x3.toNat : F))
  | .get tap => u[tap]?
  | .getGlobal base offset => do
    let arg ← args[base]?
    return algebraMap F K (← arg[offset]?)
  | .add x1 x2 => do return (← fpVars[x1]?) + (← fpVars[x2]?)
  | .sub x1 x2 => do return (← fpVars[x1]?) - (← fpVars[x2]?)
  | .mul x1 x2 => do return (← fpVars[x1]?) * (← fpVars[x2]?)
  | _ => none

structure PolyExtExecutor (K : Type) where
  fpExpected : ℕ
  mixExpected : ℕ
  fpVars : List K
  mixVars : List (MixState K)

namespace PolyExtExecutor

/-- The subtraction underflows, or asks for too much memory, when there are not enough steps. -/
def new (stepDef : PolyExtStepDef) : Option (PolyExtExecutor K) :=
  if stepDef.ret + 1 ≤ stepDef.block.length then
    some ⟨stepDef.block.length - (stepDef.ret + 1), stepDef.ret + 1, [], []⟩
  else none

def pushFp (s : PolyExtExecutor K) (val : K) : PolyExtExecutor K := { s with fpVars := s.fpVars ++ [val] }

def pushMix (s : PolyExtExecutor K) (mix : MixState K) : PolyExtExecutor K := { s with mixVars := s.mixVars ++ [mix] }

def step (mix : K) (u : List K) (args : List (List F)) (s : PolyExtExecutor K) :
    PolyExtStep → Option (PolyExtExecutor K)
  | .true => some (s.pushMix ⟨0, 1⟩)
  | .andEqz chain inner => do
    let chain ← s.mixVars[chain]?
    let inner ← s.fpVars[inner]?
    return s.pushMix ⟨chain.tot + chain.mul * inner, chain.mul * mix⟩
  | .andCond chain cond inner => do
    let chain ← s.mixVars[chain]?
    let cond ← s.fpVars[cond]?
    let inner ← s.mixVars[inner]?
    return s.pushMix ⟨chain.tot + cond * inner.tot * chain.mul, chain.mul * inner.mul⟩
  | op => do return s.pushFp (← op.value u args s.fpVars)

def run (stepDef : PolyExtStepDef) (mix : K) (u : List K) (args : List (List F)) (s : PolyExtExecutor K) :
    Option (MixState K) := do
  let s ← stepDef.block.foldlM (step mix u args) s
  if s.fpVars.length = s.fpExpected ∧ s.mixVars.length = s.mixExpected then s.mixVars[stepDef.ret]? else none

end PolyExtExecutor

def PolyExtStepDef.step (stepDef : PolyExtStepDef) (mix : K) (u : List K) (args : List (List F)) :
    Option (MixState K) := do
  (← PolyExtExecutor.new stepDef).run stepDef mix u args

end Executor

/-- The arguments are among the `fp` values and `mix` chains so far. -/
def PolyExtStep.Earlier (fp mix : ℕ) : PolyExtStep → Prop
  | .add x1 x2 | .sub x1 x2 | .mul x1 x2 => x1 < fp ∧ x2 < fp
  | .andEqz chain inner => chain < mix ∧ inner < fp
  | .andCond chain cond inner => chain < mix ∧ cond < fp ∧ inner < mix
  | _ => True

instance instDecidableEarlier (fp mix : ℕ) : (op : PolyExtStep) → Decidable (op.Earlier fp mix)
  | .add _ _ | .sub _ _ | .mul _ _ | .andEqz _ _ => inferInstanceAs (Decidable (_ ∧ _))
  | .andCond _ _ _ => inferInstanceAs (Decidable (_ ∧ _ ∧ _))
  | .const _ | .constExt _ _ _ _ | .get _ | .getGlobal _ _ | .true => inferInstanceAs (Decidable True)

/-- Every step of the rest of a program refers to results before it. -/
def EarlierFrom : ℕ → ℕ → List PolyExtStep → Prop
  | _, _, [] => True
  | fp, mix, op :: rest =>
    op.Earlier fp mix ∧ if op.isMix then EarlierFrom fp (mix + 1) rest else EarlierFrom (fp + 1) mix rest

def decidableEarlierFrom : (fp mix : ℕ) → (ops : List PolyExtStep) → Decidable (EarlierFrom fp mix ops)
  | _, _, [] => inferInstanceAs (Decidable True)
  | fp, mix, op :: rest =>
    have := decidableEarlierFrom fp (mix + 1) rest
    have := decidableEarlierFrom (fp + 1) mix rest
    inferInstanceAs (Decidable (_ ∧ if op.isMix then EarlierFrom fp (mix + 1) rest else EarlierFrom (fp + 1) mix rest))

instance instDecidableEarlierFrom (fp mix : ℕ) (ops : List PolyExtStep) : Decidable (EarlierFrom fp mix ops) :=
  decidableEarlierFrom fp mix ops

/-- The steps that make chains, in order: variable `v` is the one at `v`. -/
def PolyExtStepDef.chains (stepDef : PolyExtStepDef) : List PolyExtStep := stepDef.block.filter (·.isMix)

/-- The arguments refer to earlier results, and the chain returned is the last one. -/
def PolyExtStepDef.WellFormed (stepDef : PolyExtStepDef) : Prop :=
  EarlierFrom 0 0 stepDef.block ∧ stepDef.chains.length = stepDef.ret + 1

instance (stepDef : PolyExtStepDef) : Decidable stepDef.WellFormed := inferInstanceAs (Decidable (_ ∧ _))

/-- The taps and globals that a step reads are given. -/
def PolyExtStep.Reads {F K : Type} (u : List K) (args : List (List F)) : PolyExtStep → Prop
  | .get tap => tap < u.length
  | .getGlobal base offset => offset < (args.getD base []).length
  | _ => True

/-- The evaluation gives every tap and global that the program reads. -/
def PolyExtStepDef.Reads {F K : Type} (stepDef : PolyExtStepDef) (u : List K) (args : List (List F)) : Prop :=
  ∀ op ∈ stepDef.block, op.Reads u args

/-- A constraint with the conditions that enclose it. -/
structure Guarded (K : Type) where
  conds : List K
  value : K

namespace Guarded

variable {K : Type} [Field K]

def under (cond : K) (g : Guarded K) : Guarded K := { g with conds := cond :: g.conds }

def weighted (g : Guarded K) : K := g.conds.prod * g.value

@[simp] theorem weighted_under (cond : K) (g : Guarded K) : (g.under cond).weighted = cond * g.weighted := by
  rw [weighted, under, List.prod_cons, mul_assoc, weighted]

/-- The constraint holds or lies under a zero condition. -/
def Satisfied (g : Guarded K) : Prop := g.value = 0 ∨ 0 ∈ g.conds

theorem weighted_eq_zero (g : Guarded K) : g.weighted = 0 ↔ g.Satisfied := by
  rw [weighted, mul_eq_zero, List.prod_eq_zero_iff, Satisfied, or_comm]

end Guarded

/-- The constraints met when following chain `v`, with the values of the program's variables. -/
def met {K : Type} [Field K] (chains : List PolyExtStep) (fpVars : List K) (v : Var) : List (Guarded K) :=
  match chains[v]? with
  | some (.andEqz chain inner) =>
    if _h : chain < v then met chains fpVars chain ++ [⟨[], fpVars.getD inner 0⟩] else []
  | some (.andCond chain cond inner) =>
    if _h : chain < v ∧ inner < v then
      met chains fpVars chain ++ (met chains fpVars inner).map (Guarded.under (fpVars.getD cond 0))
    else []
  | _ => []
termination_by v
decreasing_by
  all_goals first | exact _h | exact _h.1 | exact _h.2

/-- The values that the rest of a program makes. -/
def valuesFrom {F K : Type} [Field F] [Field K] [Algebra F K] [FromSubelems F K] (u : List K) (args : List (List F)) :
    List K → List PolyExtStep → List K
  | fpVars, [] => fpVars
  | fpVars, op :: rest =>
    if op.isMix then valuesFrom u args fpVars rest
    else valuesFrom u args (fpVars ++ [(op.value u args fpVars).getD 0]) rest

def PolyExtStepDef.constraints {F K : Type} [Field F] [Field K] [Algebra F K] [FromSubelems F K]
    (stepDef : PolyExtStepDef) (u : List K) (args : List (List F)) : List (Guarded K) :=
  met stepDef.chains (valuesFrom u args [] stepDef.block) stepDef.ret

section PowerSum

variable {R : Type} [CommRing R]

def powerSum (x : R) (cs : List R) : R := ∑ k ∈ range cs.length, x ^ k * cs.getD k 0

@[simp] theorem powerSum_nil (x : R) : powerSum x [] = 0 := sum_range_zero _

theorem powerSum_singleton (x c : R) : powerSum x [c] = c := by
  rw [powerSum, List.length_singleton, sum_range_one, pow_zero, one_mul, List.getD_cons_zero]

theorem powerSum_append (x : R) (as bs : List R) :
    powerSum x (as ++ bs) = powerSum x as + x ^ as.length * powerSum x bs := by
  rw [powerSum, List.length_append, sum_range_add, powerSum, powerSum, mul_sum]
  congr 1
  · apply sum_congr rfl
    intro k hk
    rw [List.getD_append as bs 0 k (mem_range.mp hk)]
  · apply sum_congr rfl
    intro k _
    rw [List.getD_append_right as bs 0 _ (Nat.le_add_right _ _), Nat.add_sub_cancel_left, pow_add, mul_assoc]

theorem powerSum_map_mul (x c : R) (as : List R) : powerSum x (as.map (c * ·)) = c * powerSum x as := by
  rw [powerSum, List.length_map, powerSum, mul_sum]
  apply sum_congr rfl
  intro k hk
  have hk : k < as.length := mem_range.mp hk
  rw [List.getD_eq_getElem _ _ (by rwa [List.length_map]), List.getElem_map, List.getD_eq_getElem _ _ hk, mul_left_comm]

/-- The sum as a polynomial in the challenge. -/
noncomputable def mixPoly (cs : List R) : R[X] := ∑ k ∈ range cs.length, C (cs.getD k 0) * X ^ k

theorem eval_mixPoly (x : R) (cs : List R) : (mixPoly cs).eval x = powerSum x cs := by
  rw [mixPoly, eval_finsetSum, powerSum]
  apply sum_congr rfl
  intro k _
  rw [eval_mul, eval_C, eval_pow, eval_X, mul_comm]

theorem coeff_mixPoly (cs : List R) (n : ℕ) : (mixPoly cs).coeff n = cs.getD n 0 := by
  rw [mixPoly, finsetSum_coeff]
  simp only [coeff_C_mul_X_pow]
  rw [sum_ite_eq]
  by_cases hn : n < cs.length
  · rw [if_pos (mem_range.mpr hn)]
  · rw [if_neg (fun h => hn (mem_range.mp h)), List.getD_eq_default _ _ (Nat.le_of_not_lt hn)]

theorem mixPoly_eq_zero (cs : List R) : mixPoly cs = 0 ↔ ∀ c ∈ cs, c = 0 := by
  constructor
  · intro h c hc
    obtain ⟨n, hn, rfl⟩ := List.mem_iff_getElem.mp hc
    rw [← List.getD_eq_getElem cs 0 hn, ← coeff_mixPoly, h, coeff_zero]
  · intro h
    ext n
    rw [coeff_mixPoly, coeff_zero]
    by_cases hn : n < cs.length
    · rw [List.getD_eq_getElem cs 0 hn]
      exact h _ (List.getElem_mem hn)
    · exact List.getD_eq_default _ _ (Nat.le_of_not_lt hn)

end PowerSum

section Soundness

variable {F K : Type} [Field F] [Field K] [Algebra F K] [FromSubelems F K]
  {u : List K} {args : List (List F)} {mix : K} {s : PolyExtExecutor K} {op : PolyExtStep}
  {chains rest : List PolyExtStep} {fpVars : List K} {v chain cond inner : ℕ}

def MixState.of (mix : K) (gs : List (Guarded K)) : MixState K :=
  ⟨powerSum mix (gs.map Guarded.weighted), mix ^ gs.length⟩

theorem met_true (h : chains[v]? = some .true) : met chains fpVars v = [] := by
  rw [met, h]

theorem met_andEqz (h : chains[v]? = some (.andEqz chain inner)) (hchain : chain < v) :
    met chains fpVars v = met chains fpVars chain ++ [⟨[], fpVars.getD inner 0⟩] := by
  rw [met, h]
  exact dif_pos hchain

theorem met_andCond (h : chains[v]? = some (.andCond chain cond inner)) (hchain : chain < v) (hinner : inner < v) :
    met chains fpVars v =
      met chains fpVars chain ++ (met chains fpVars inner).map (Guarded.under (fpVars.getD cond 0)) := by
  rw [met, h]
  exact dif_pos ⟨hchain, hinner⟩

theorem MixState.of_nil : of mix [] = ⟨0, 1⟩ := by
  rw [of, List.map_nil, powerSum_nil, List.length_nil, pow_zero]

/-- A constraint takes the next power of the challenge. -/
theorem MixState.of_eqz (gs : List (Guarded K)) (x : K) : of mix (gs ++ [⟨[], x⟩]) =
      ⟨(of mix gs).tot + (of mix gs).mul * x, (of mix gs).mul * mix⟩ := by
  have hweighted : Guarded.weighted (⟨[], x⟩ : Guarded K) = x := by rw [Guarded.weighted, List.prod_nil, one_mul]
  simp only [of, List.map_append, List.map_cons, List.map_nil, hweighted, powerSum_append, powerSum_singleton,
    List.length_map, List.length_append, List.length_singleton, pow_succ]

/-- A block takes as many powers as it has constraints. -/
theorem MixState.of_cond (gs hs : List (Guarded K)) (c : K) : of mix (gs ++ hs.map (Guarded.under c)) =
      ⟨(of mix gs).tot + c * (of mix hs).tot * (of mix gs).mul,
        (of mix gs).mul * (of mix hs).mul⟩ := by
  have hmap : (hs.map (Guarded.under c)).map Guarded.weighted = (hs.map Guarded.weighted).map (c * ·) := by
    rw [List.map_map, List.map_map]
    exact List.map_congr_left (fun g _ => Guarded.weighted_under c g)
  simp only [of, List.map_append, hmap, powerSum_append, powerSum_map_mul, List.length_map, List.length_append,
    pow_add]
  rw [mul_comm (mix ^ gs.length)]

theorem exists_value {mixes : ℕ} (hearlier : op.Earlier fpVars.length mixes) (hreads : op.Reads u args)
    (hmix : op.isMix = false) : ∃ x, op.value u args fpVars = some x := by
  cases op with
  | const value => exact ⟨_, rfl⟩
  | constExt x0 x1 x2 x3 => exact ⟨_, rfl⟩
  | get tap => exact ⟨_, List.getElem?_eq_getElem hreads⟩
  | getGlobal base offset =>
    have hoffset : offset < (args.getD base []).length := hreads
    have hbase : base < args.length := by
      by_contra h
      rw [List.getD_eq_default _ _ (Nat.le_of_not_lt h)] at hoffset
      exact Nat.not_lt_zero _ hoffset
    rw [List.getD_eq_getElem _ _ hbase] at hoffset
    refine ⟨algebraMap F K args[base][offset], ?_⟩
    rw [PolyExtStep.value, List.getElem?_eq_getElem hbase]
    simp only [Option.bind_eq_bind, Option.bind_some, List.getElem?_eq_getElem hoffset]
    rfl
  | add x1 x2 =>
    obtain ⟨hx1, hx2⟩ : x1 < fpVars.length ∧ x2 < fpVars.length := hearlier
    refine ⟨fpVars[x1] + fpVars[x2], ?_⟩
    rw [PolyExtStep.value, List.getElem?_eq_getElem hx1, List.getElem?_eq_getElem hx2]
    rfl
  | sub x1 x2 =>
    obtain ⟨hx1, hx2⟩ : x1 < fpVars.length ∧ x2 < fpVars.length := hearlier
    refine ⟨fpVars[x1] - fpVars[x2], ?_⟩
    rw [PolyExtStep.value, List.getElem?_eq_getElem hx1, List.getElem?_eq_getElem hx2]
    rfl
  | mul x1 x2 =>
    obtain ⟨hx1, hx2⟩ : x1 < fpVars.length ∧ x2 < fpVars.length := hearlier
    refine ⟨fpVars[x1] * fpVars[x2], ?_⟩
    rw [PolyExtStep.value, List.getElem?_eq_getElem hx1, List.getElem?_eq_getElem hx2]
    rfl
  | «true» | andEqz _ _ | andCond _ _ _ => exact absurd hmix Bool.true_eq_false.mp

/-- The chains so far are mixed from the constraints met in them. -/
structure PolyExtExecutor.Mixing (mix : K) (chains : List PolyExtStep) (fpVars : List K) (s : PolyExtExecutor K) :
    Prop where
  values : s.fpVars <+: fpVars
  mixed : ∀ v < s.mixVars.length, s.mixVars[v]? = some (MixState.of mix (met chains fpVars v))

namespace PolyExtExecutor

section

variable (hs : s.Mixing mix chains fpVars)

include hs

theorem Mixing.value_eq (hv : v < s.fpVars.length) : s.fpVars[v]? = some (fpVars.getD v 0) := by
  obtain ⟨later, rfl⟩ := hs.values
  rw [List.getElem?_eq_getElem hv, List.getD_append _ _ _ _ hv, List.getD_eq_getElem _ _ hv]

theorem Mixing.pushMix : (s.pushMix (of mix (met chains fpVars s.mixVars.length))).Mixing mix chains fpVars := by
  refine ⟨hs.values, fun v hv => ?_⟩
  have hv : v < s.mixVars.length + 1 := by rwa [PolyExtExecutor.pushMix, List.length_append, List.length_singleton] at hv
  obtain hlt | rfl := Nat.lt_succ_iff_lt_or_eq.mp hv
  · rw [PolyExtExecutor.pushMix, List.getElem?_append_left hlt]
    exact hs.mixed v hlt
  · exact List.getElem?_concat_length

theorem Mixing.step_mix (hop : chains[s.mixVars.length]? = some op)
    (hearlier : op.Earlier s.fpVars.length s.mixVars.length) (hmix : op.isMix) :
    s.step mix u args op = some (s.pushMix (of mix (met chains fpVars s.mixVars.length))) := by
  cases op with
  | «true» => rw [met_true hop, of_nil, step]
  | andEqz chain inner =>
    obtain ⟨hchain, hinner⟩ : chain < s.mixVars.length ∧ inner < s.fpVars.length := hearlier
    rw [met_andEqz hop hchain, of_eqz, step, hs.mixed chain hchain, hs.value_eq hinner]
    rfl
  | andCond chain cond inner =>
    obtain ⟨hchain, hcond, hinner⟩ : chain < s.mixVars.length ∧ cond < s.fpVars.length ∧ inner < s.mixVars.length :=
      hearlier
    rw [met_andCond hop hchain hinner, of_cond, step, hs.mixed chain hchain, hs.value_eq hcond,
      hs.mixed inner hinner]
    rfl
  | const _ | constExt _ _ _ _ | get _ | getGlobal _ _ | add _ _ | sub _ _ | mul _ _ => exact absurd hmix Bool.false_ne_true

end

theorem step_value {x : K} (hvalue : op.value u args s.fpVars = some x) (hmix : op.isMix = false) :
    s.step mix u args op = some (s.pushFp x) := by
  cases op with
  | «true» | andEqz _ _ | andCond _ _ _ => exact absurd hmix Bool.true_eq_false.mp
  | const _ | constExt _ _ _ _ | get _ | getGlobal _ _ | add _ _ | sub _ _ | mul _ _ =>
    change (PolyExtStep.value u args s.fpVars _ >>= fun val => some (s.pushFp val)) = _
    rw [hvalue]
    rfl

end PolyExtExecutor

theorem prefix_valuesFrom (fpVars : List K) (ops : List PolyExtStep) : fpVars <+: valuesFrom u args fpVars ops := by
  induction ops generalizing fpVars with
  | nil => exact List.prefix_refl fpVars
  | cons op rest ih =>
    rw [valuesFrom]
    by_cases hop : op.isMix
    · rw [if_pos hop]
      exact ih fpVars
    · rw [if_neg hop]
      exact (List.prefix_append fpVars _).trans (ih _)

theorem length_valuesFrom (u : List K) (args : List (List F)) (fpVars : List K) (ops : List PolyExtStep) :
    (valuesFrom u args fpVars ops).length + (ops.filter (·.isMix)).length = fpVars.length + ops.length := by
  induction ops generalizing fpVars with
  | nil => rfl
  | cons op rest ih =>
    rw [valuesFrom, List.filter_cons, List.length_cons]
    by_cases hop : op.isMix
    · rw [if_pos hop, if_pos hop, List.length_cons, ← Nat.add_assoc, ih]
      rfl
    · rw [if_neg hop, if_neg hop, ih, List.length_append, List.length_singleton, Nat.add_assoc, Nat.add_comm 1]

/-- Over the rest of the program: the chains `done` are there already. -/
theorem exists_foldlM (mix : K) (chains done : List PolyExtStep) (hdone : done.length = s.mixVars.length)
    (hchains : chains = done ++ rest.filter (·.isMix))
    (hearlier : EarlierFrom s.fpVars.length s.mixVars.length rest) (hreads : ∀ op ∈ rest, op.Reads u args)
    (hs : s.Mixing mix chains (valuesFrom u args s.fpVars rest)) :
    ∃ s', rest.foldlM (PolyExtExecutor.step mix u args) s = some s' ∧
      s'.fpVars = valuesFrom u args s.fpVars rest ∧ s'.mixVars.length = chains.length ∧
      s'.fpExpected = s.fpExpected ∧ s'.mixExpected = s.mixExpected ∧
      s'.Mixing mix chains (valuesFrom u args s.fpVars rest) := by
  induction rest generalizing s done with
  | nil =>
    refine ⟨s, rfl, rfl, ?_, rfl, rfl, hs⟩
    rw [hchains, List.filter_nil, List.append_nil, hdone]
  | cons op rest ih =>
    obtain ⟨hop, hrest⟩ := hearlier
    have hreads' : ∀ op ∈ rest, op.Reads u args := fun op' hop' => hreads op' (List.mem_cons_of_mem op hop')
    cases hmix : op.isMix with
    | true =>
      have hvalues : valuesFrom u args s.fpVars (op :: rest) = valuesFrom u args s.fpVars rest := by
        rw [valuesFrom, if_pos hmix]
      rw [hvalues] at hs ⊢
      rw [if_pos hmix] at hrest
      rw [List.filter_cons_of_pos hmix] at hchains
      have hat : chains[s.mixVars.length]? = some op := by
        rw [hchains, ← hdone, List.getElem?_append_right (Nat.le_refl _), Nat.sub_self]
        rfl
      rw [List.foldlM_cons, hs.step_mix hat hop hmix]
      refine ih (done ++ [op]) ?_ ?_ ?_ hreads' hs.pushMix
      · rw [List.length_append, hdone, PolyExtExecutor.pushMix, List.length_append]
        rfl
      · rw [hchains, List.append_assoc]
        rfl
      · rw [PolyExtExecutor.pushMix, List.length_append]
        exact hrest
    | false =>
      have hnot : ¬ op.isMix = true := by rw [hmix]; exact Bool.false_ne_true
      obtain ⟨x, hx⟩ := exists_value hop (hreads op List.mem_cons_self) hmix
      have hvalues : valuesFrom u args s.fpVars (op :: rest) = valuesFrom u args (s.fpVars ++ [x]) rest := by
        rw [valuesFrom, if_neg hnot, hx, Option.getD_some]
      rw [hvalues] at hs ⊢
      rw [if_neg hnot] at hrest
      rw [List.filter_cons_of_neg hnot] at hchains
      rw [List.foldlM_cons, PolyExtExecutor.step_value hx hmix]
      refine ih (s := s.pushFp x) done hdone hchains ?_ hreads' ⟨prefix_valuesFrom _ _, hs.mixed⟩
      rw [PolyExtExecutor.pushFp, List.length_append]
      exact hrest

/-- The constraints are mixed with distinct powers of the challenge, so that the total vanishes as
a polynomial in the challenge exactly if each holds or lies under a zero condition. -/
theorem step_mixes {stepDef : PolyExtStepDef} (hwf : stepDef.WellFormed) (hreads : stepDef.Reads u args) :
    (∀ mix : K, ∃ state, stepDef.step mix u args = some state ∧
      state.tot = ∑ k ∈ range (stepDef.constraints u args).length,
        mix ^ k * ((stepDef.constraints u args).map Guarded.weighted).getD k 0 ∧
      state.tot = (mixPoly ((stepDef.constraints u args).map Guarded.weighted)).eval mix ∧
      state.mul = mix ^ (stepDef.constraints u args).length) ∧
    (mixPoly ((stepDef.constraints u args).map Guarded.weighted) = 0 ↔
      ∀ g ∈ stepDef.constraints u args, g.Satisfied) := by
  obtain ⟨hearlier, hret⟩ := hwf
  constructor
  · intro mix
    have hlen := length_valuesFrom u args [] stepDef.block
    rw [List.length_nil, Nat.zero_add] at hlen
    have hroom : stepDef.ret + 1 ≤ stepDef.block.length := by
      rw [← hret]
      exact List.length_filter_le _ _
    have hnew : PolyExtExecutor.new stepDef =
        some (⟨stepDef.block.length - (stepDef.ret + 1), stepDef.ret + 1, [], []⟩ : PolyExtExecutor K) :=
      if_pos hroom
    obtain ⟨s, hs, hfp, hmixes, hfpExpected, hmixExpected, hmixing⟩ :=
      exists_foldlM (s := ⟨stepDef.block.length - (stepDef.ret + 1), stepDef.ret + 1, [], []⟩) mix stepDef.chains [] rfl
        rfl hearlier hreads ⟨List.nil_prefix, fun v hv => absurd hv (Nat.not_lt_zero v)⟩
    refine ⟨MixState.of mix (stepDef.constraints u args), ?_, ?_, ?_, rfl⟩
    · have hcounts : s.fpVars.length = s.fpExpected ∧ s.mixVars.length = s.mixExpected := by
        rw [hfpExpected, hmixExpected, hmixes, hfp]
        have hchains : (stepDef.block.filter (·.isMix)).length = stepDef.ret + 1 := hret
        refine ⟨?_, hret⟩
        change (valuesFrom u args [] stepDef.block).length = stepDef.block.length - (stepDef.ret + 1)
        omega
      rw [PolyExtStepDef.step, hnew, Option.bind_eq_bind, Option.bind_some, PolyExtExecutor.run, hs, Option.bind_eq_bind,
        Option.bind_some, if_pos hcounts]
      exact hmixing.mixed stepDef.ret (by omega)
    · rw [MixState.of, powerSum, List.length_map]
    · rw [eval_mixPoly, MixState.of]
  · rw [mixPoly_eq_zero, List.forall_mem_map]
    exact forall₂_congr (fun g _ => g.weighted_eq_zero)

end Soundness

open BabyBear in
instance : FromSubelems Elem ExtElem := ⟨ExtElem.mk⟩

/-- Two constraints, the second of them in a block under the global. -/
def blockDef : PolyExtStepDef :=
  ⟨[.true, .get 0, .getGlobal 0 0, .andEqz 0 0, .constExt 1 0 0 2, .sub 2 0, .andEqz 0 3, .andCond 1 1 2], 3⟩

def blockTaps : List BabyBear.ExtElem := [⟨.new 3, 0, 1, 0⟩]

def blockArgs : List (List BabyBear.Elem) := [[.new 2]]

theorem step_mixes_block : (∀ mix : BabyBear.ExtElem, ∃ state, blockDef.step mix blockTaps blockArgs = some state ∧
      state.tot = ∑ k ∈ range (blockDef.constraints blockTaps blockArgs).length,
        mix ^ k * ((blockDef.constraints blockTaps blockArgs).map Guarded.weighted).getD k 0 ∧
      state.tot = (mixPoly ((blockDef.constraints blockTaps blockArgs).map Guarded.weighted)).eval mix ∧
      state.mul = mix ^ (blockDef.constraints blockTaps blockArgs).length) ∧
    (mixPoly ((blockDef.constraints blockTaps blockArgs).map Guarded.weighted) = 0 ↔
      ∀ g ∈ blockDef.constraints blockTaps blockArgs, g.Satisfied) := by
  refine step_mixes (by decide) ?_
  intro op hop
  fin_cases hop <;> simp [PolyExtStep.Reads, blockTaps, blockArgs]

end VerifiableCompute.Zkp
