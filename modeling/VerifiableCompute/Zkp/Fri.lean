import VerifiableCompute.Zkp.Iop
import VerifiableCompute.Zkp.Interpolation
import VerifiableCompute.Zkp.Ntt

/-! The folding of the low-degree proof. Each round evaluates its polynomial over a domain of four
times as many points, opens rows of sixteen values, and folds sixteen slices into one. Columns of
base field elements are lists of extension elements here, and a tree opens the row it commits to. -/

namespace VerifiableCompute.Zkp.Fri

open Lib Finset Ntt BabyBear RootsOfUnity

def INV_RATE : ℕ := 4
def FRI_FOLD_PO2 : ℕ := 4
def FRI_FOLD : ℕ := 2 ^ FRI_FOLD_PO2
def FRI_MIN_DEGREE : ℕ := 256

variable {E : Type} [Field E]

def foldSlice (input : List E) (count idx : ℕ) (mix : E) (s : E × E) (i : ℕ) : Option (E × E) := do
  -- a shift by 28 overflows in no build
  let revI ← revIdx true (log2Ceil FRI_FOLD) i
  let factor ← input[revI * count + idx]?
  return (s.1 + s.2 * factor, s.2 * mix)

def friFold (count : ℕ) (input : List E) (mix : E) : Option (List E) :=
  if input.length = count * FRI_FOLD then
    (List.range count).mapM fun idx => do
      return (← (List.range FRI_FOLD).foldlM (foldSlice input count idx mix) (0, 1)).1
  else none

variable {α : Type} {overflowChecks : Bool}

/-- Coefficients in the order of the buffers. -/
def reversed (n : ℕ) (a : ℕ → α) : List α := (List.range (2 ^ n)).map fun k => a (bitRev n k)

@[simp] theorem length_reversed (n : ℕ) (a : ℕ → α) : (reversed n a).length = 2 ^ n := by simp [reversed]

theorem reversed_getElem? {n k : ℕ} (hk : k < 2 ^ n) (a : ℕ → α) : (reversed n a)[k]? = some (a (bitRev n k)) := by
  simp [reversed, hk]

theorem bitReverse_reversed {n : ℕ} (hn : 0 < n) (hn32 : n ≤ 32) (a : ℕ → α) :
    bitReverse overflowChecks (reversed n a) = some ((List.range (2 ^ n)).map a) := by
  obtain ⟨out, hout, hlen, hat⟩ := exists_bitReverse hn hn32 (length_reversed n a)
  refine hout.trans (congrArg some (List.ext_getElem? fun j => ?_))
  by_cases hj : j < 2 ^ n
  · rw [hat j hj, reversed_getElem? (bitRev_lt hj), bitRev_bitRev hj]
    simp [hj]
  · rw [List.getElem?_eq_none (by omega), List.getElem?_eq_none (by simpa using hj)]

theorem bitRev_slice {m n i l : ℕ} (hi : i < 2 ^ m) (hl : l < 2 ^ n) :
    bitRev (n + m) (2 ^ m * l + i) = bitRev m i * 2 ^ n + bitRev n l := by
  induction n generalizing l with
  | zero =>
    rw [Nat.lt_one_iff.mp hl, Nat.mul_zero, Nat.zero_add, Nat.zero_add, pow_zero, Nat.mul_one]
    rfl
  | succ n ih =>
    have hsplit : 2 ^ m * l + i = 2 ^ (n + m) * (l / 2 ^ n) + (2 ^ m * (l % 2 ^ n) + i) := by
      conv_lhs => rw [← Nat.div_add_mod l (2 ^ n)]
      ring
    have hlow : 2 ^ m * (l % 2 ^ n) + i < 2 ^ (n + m) := by
      have := Nat.mul_le_mul_left (2 ^ m) (Nat.mod_lt l (Nat.two_pow_pos n))
      rw [Nat.add_comm n, pow_add]
      linarith
    rw [show n + 1 + m = n + m + 1 by omega, bitRev, bitRev, hsplit, Nat.mul_add_mod, Nat.mod_eq_of_lt hlow,
      Nat.mul_add_div (Nat.two_pow_pos _), Nat.div_eq_of_lt hlow, ih (Nat.mod_lt l (Nat.two_pow_pos n))]
    ring

def folded (mix : E) (a : ℕ → E) (l : ℕ) : E := ∑ i ∈ range FRI_FOLD, mix ^ i * a (FRI_FOLD * l + i)

theorem foldSlices_eq {n idx : ℕ} (hidx : idx < 2 ^ n) (a : ℕ → E) (mix : E) : ∀ k ≤ FRI_FOLD,
    (List.range k).foldlM (foldSlice (reversed (n + 4) a) (2 ^ n) idx mix) (0, 1) =
      some (∑ i ∈ range k, mix ^ i * a (FRI_FOLD * bitRev n idx + i), mix ^ k) := by
  intro k hk
  induction k with
  | zero => simp
  | succ k ih =>
    have hk4 : k < 2 ^ 4 := hk
    have hat : bitRev 4 k * 2 ^ n + idx = bitRev (n + 4) (2 ^ 4 * bitRev n idx + k) := by
      rw [bitRev_slice hk4 (bitRev_lt hidx), bitRev_bitRev hidx]
    have hlt : 2 ^ 4 * bitRev n idx + k < 2 ^ (n + 4) := by
      have := bitRev_lt hidx
      rw [pow_add]
      omega
    have hrev : revIdx true (log2Ceil FRI_FOLD) k = some (bitRev 4 k) := by
      rw [FRI_FOLD, log2Ceil_two_pow]
      exact revIdx_eq (by decide) (by decide) hk4
    rw [List.range_succ, List.foldlM_append, ih (Nat.le_of_succ_le hk), sum_range_succ]
    simp only [Option.bind_eq_bind, Option.bind_some, List.foldlM_cons, List.foldlM_nil, foldSlice, hrev, hat,
      reversed_getElem? (bitRev_lt hlt), bitRev_bitRev hlt, ← pow_succ]
    rfl

theorem friFold_reversed (n : ℕ) (a : ℕ → E) (mix : E) :
    friFold (2 ^ n) (reversed (n + 4) a) mix = some (reversed n (folded mix a)) := by
  rw [friFold, if_pos (by rw [length_reversed, pow_add]; rfl)]
  refine mapM_eq_map fun idx hidx => ?_
  rw [foldSlices_eq (List.mem_range.mp hidx) a mix FRI_FOLD (Nat.le_refl _)]
  rfl

theorem polyEval_map (b : ℕ → E) (x : E) (m : ℕ) : polyEval ((List.range m).map b) x = ∑ j ∈ range m, b j * x ^ j := by
  have hloop : ((List.range m).map b).foldl (fun s coeff => (s.1 * x, s.2 + coeff * s.1)) ((1 : E), (0 : E)) =
      (x ^ m, ∑ j ∈ range m, b j * x ^ j) := by
    induction m with
    | zero => simp
    | succ m ih =>
      rw [List.range_succ, List.map_append, List.foldl_append, ih, sum_range_succ]
      simp only [List.map_cons, List.map_nil, List.foldl_cons, List.foldl_nil, pow_succ]
  rw [polyEval, hloop]

variable [Algebra Elem E]

structure ProveRoundInfo (E : Type) where
  domain : ℕ
  coeffs : List E
  /-- What the tree of the round commits to. -/
  evaluated : List E
  mix : E

def ProveRoundInfo.new (coeffs : List E) (foldMix : E) : Option (ProveRoundInfo E) := do
  let size := coeffs.length
  let evaluated ← evaluateNtt Elem (expand coeffs (log2Ceil INV_RATE)) (log2Ceil INV_RATE)
  let outCoeffs ← friFold (size / FRI_FOLD) coeffs foldMix
  return ⟨size * INV_RATE, outCoeffs, evaluated, foldMix⟩

/-- The rounds from the `k`th on, at most `fuel` of them, with the mix that is drawn for each. -/
def proveRounds (mix : ℕ → E) : ℕ → ℕ → List E → Option (List (ProveRoundInfo E) × List E)
  | 0, _, _ => none
  | fuel + 1, k, coeffs =>
    if FRI_MIN_DEGREE < coeffs.length then do
      let round ← ProveRoundInfo.new coeffs (mix k)
      let (rounds, finalCoeffs) ← proveRounds mix fuel (k + 1) round.coeffs
      return (round :: rounds, finalCoeffs)
    else some ([], coeffs)

/-- The rounds, and the final coefficients in natural order. -/
def friProve (overflowChecks : Bool) (mix : ℕ → E) (coeffs : List E) : Option (List (ProveRoundInfo E) × List E) := do
  let (rounds, coeffs) ← proveRounds mix coeffs.length 0 coeffs
  return (rounds, ← bitReverse overflowChecks coeffs)

/-- What the verifier has of a round: the mix, and the rows that open against the commitment. -/
structure Commitment (E : Type) where
  mix : E
  rows : ℕ → List E

/-- A row has the values whose positions agree up to the size of the next domain. -/
def ProveRoundInfo.commitment (round : ProveRoundInfo E) : Commitment E where
  mix := round.mix
  rows group := (List.range FRI_FOLD).map fun i => round.evaluated.getD (i * (round.domain / FRI_FOLD) + group) 0

structure VerifyRoundInfo (E : Type) where
  domain : ℕ
  commitment : Commitment E

def orPanic : Option α → Except VerificationError α
  | some a => .ok a
  | none => .error .panic

section Verifier

variable [DecidableEq E]

/-- The position in the next domain, and the value that the next polynomial should have there. -/
def verifyQuery (round : VerifyRoundInfo E) (pos : ℕ) (goal : E) : Except VerificationError (ℕ × E) := do
  let quot := pos / round.domain
  let group := pos % round.domain
  let data := round.commitment.rows group
  let value ← orPanic data[quot]?
  require (value = goal) .invalidProof
  let root : Elem ← orPanic ROU_REV[log2Ceil (FRI_FOLD * round.domain)]?
  let data ← orPanic (interpolateNtt Elem data)
  let data ← orPanic (bitReverse true data)
  return (group, polyEval data (round.commitment.mix * algebraMap Elem E (root ^ group)))

/-- The rounds that the degree asks for, and the domain and the degree that they end with. -/
def verifyRounds : List (Commitment E) → ℕ → ℕ → Except VerificationError (List (VerifyRoundInfo E) × ℕ × ℕ)
  | [], domain, degree => if FRI_MIN_DEGREE < degree then .error .receiptFormatError else .ok ([], domain, degree)
  | c :: cs, domain, degree =>
    if FRI_MIN_DEGREE < degree then do
      let (rounds, last) ← verifyRounds cs (domain / FRI_FOLD) (degree / FRI_FOLD)
      return (⟨domain / FRI_FOLD, c⟩ :: rounds, last)
    else .ok ([], domain, degree)

/-- One query through all rounds, down to the final polynomial. -/
def verifyPosition (rounds : List (VerifyRoundInfo E)) (gen : Elem) (finalCoeffs : List E) (pos : ℕ) (goal : E) :
    Except VerificationError Unit := do
  let (pos, goal) ← rounds.foldlM (fun s round => verifyQuery round s.1 s.2) (pos, goal)
  require (polyEval finalCoeffs (algebraMap Elem E (gen ^ pos)) = goal) .invalidProof

def friVerify (commitments : List (Commitment E)) (finalCoeffs : List E) (positions : List ℕ)
    (inner : ℕ → Except VerificationError E) (totCycles : ℕ) : Except VerificationError Unit := do
  let roundsCapacity := log2Ceil (totCycles ⌈/⌉ FRI_FOLD ⌈/⌉ FRI_FOLD_PO2)
  let (rounds, domain, degree) ← verifyRounds commitments (INV_RATE * totCycles) totCycles
  require (rounds.length ≤ roundsCapacity) .panic
  require (finalCoeffs.length = degree) .receiptFormatError
  let gen : Elem ← orPanic ROU_FWD[log2Ceil domain]?
  positions.forM fun pos => do verifyPosition rounds gen finalCoeffs pos (← inner pos)

end Verifier

theorem evalPoly_slices (m N : ℕ) (a : ℕ → E) (x : Elem) :
    evalPoly (m * N) a x = ∑ i ∈ range m, x ^ i • evalPoly N (fun l => a (m * l + i)) (x ^ m) := by
  induction N with
  | zero => simp [evalPoly]
  | succ N ih =>
    have hlast : ∑ i ∈ range m, x ^ (m * N + i) • a (m * N + i) = ∑ i ∈ range m, x ^ i • (x ^ m) ^ N • a (m * N + i) :=
      sum_congr rfl fun i _ => by rw [smul_smul, ← pow_mul, ← pow_add, Nat.add_comm i]
    rw [evalPoly, Nat.mul_succ, sum_range_add, ← evalPoly, ih, hlast, ← sum_add_distrib]
    refine sum_congr rfl fun i _ => ?_
    rw [← smul_add, evalPoly, evalPoly, sum_range_succ]

theorem evalPoly_folded (mix : E) (N : ℕ) (a : ℕ → E) (y : Elem) :
    evalPoly N (folded mix a) y = ∑ i ∈ range FRI_FOLD, mix ^ i * evalPoly N (fun l => a (FRI_FOLD * l + i)) y := by
  simp only [evalPoly, folded, smul_sum, mul_sum, mul_smul_comm]
  exact sum_comm

/-- The positions of a domain of `2 ^ (n + 2)` points, and the values there. -/
def valueAt (n : ℕ) (a : ℕ → E) (pos : ℕ) : E := evalPoly (2 ^ n) a (rouFwd (n + 2) ^ pos)

theorem proveRound_eq (n : ℕ) (hn : n + 6 ≤ 27) (a : ℕ → E) (mix : E) :
    ProveRoundInfo.new (reversed (n + 4) a) mix = some
      ⟨2 ^ (n + 6), reversed n (folded mix a), (List.range (2 ^ (n + 6))).map (valueAt (n + 4) a), mix⟩ := by
  have hrate : log2Ceil INV_RATE = 2 := by decide
  have heval := roots_babyBear.evaluate_expand (by decide) (a := a) 2 hn (length_reversed (n + 4) a) fun i hi => by
    rw [List.getD_eq_getElem?_getD, reversed_getElem? hi, Option.getD_some]
  have hcount : 2 ^ (n + 4) / FRI_FOLD = 2 ^ n := by
    rw [pow_add]
    exact Nat.mul_div_cancel _ (by decide)
  rw [ProveRoundInfo.new, hrate, heval, length_reversed, hcount, friFold_reversed]
  exact congrArg (fun size => some (ProveRoundInfo.mk size _ _ mix)) (by rw [INV_RATE]; ring)

theorem rouFwd_pow (n m : ℕ) (h : n + m ≤ 27) : rouFwd (n + m) ^ 2 ^ m = rouFwd n := by
  induction m with
  | zero => rw [Nat.add_zero, pow_zero, pow_one]
  | succ m ih => rw [pow_succ', pow_mul, sq, ← Nat.add_assoc, roots_babyBear.fwd_sq (n + m) h, ih (by omega)]

theorem rouFwd_order {n : ℕ} (h : n ≤ 27) : rouFwd n ^ 2 ^ n = 1 := by
  have hpow := rouFwd_pow 0 n (by omega)
  rw [Nat.zero_add] at hpow
  rw [hpow]
  decide

/-- What a row interpolates to: the slices at the point of the next domain, each with a power of the point of the group. -/
def rowCoeff (n : ℕ) (a : ℕ → E) (group j : ℕ) : E :=
  (rouFwd (n + 6) ^ group) ^ j • evalPoly (2 ^ n) (fun l => a (FRI_FOLD * l + j)) (rouFwd (n + 2) ^ group)

theorem valueAt_row (n : ℕ) (hn : n + 6 ≤ 27) (a : ℕ → E) (group i : ℕ) :
    valueAt (n + 4) a (i * 2 ^ (n + 2) + group) = evalPoly (2 ^ 4) (rowCoeff n a group) (rouFwd 4 ^ i) := by
  have hpoint : rouFwd (n + 6) ^ 2 ^ (n + 2) = rouFwd 4 := by
    rw [show n + 6 = 4 + (n + 2) by omega]
    exact rouFwd_pow 4 (n + 2) (by omega)
  have hnext : rouFwd (n + 6) ^ FRI_FOLD = rouFwd (n + 2) := rouFwd_pow (n + 2) 4 hn
  have hsize : 2 ^ (n + 4) = FRI_FOLD * 2 ^ n := by rw [pow_add, Nat.mul_comm, FRI_FOLD, FRI_FOLD_PO2]
  rw [valueAt, hsize, evalPoly_slices, evalPoly]
  refine sum_congr rfl fun j _ => ?_
  rw [rowCoeff, smul_smul]
  congr 1
  · rw [pow_add, mul_pow, Nat.mul_comm i, pow_mul, hpoint]
  · rw [← pow_mul, Nat.mul_comm _ FRI_FOLD, pow_mul, hnext, pow_add, Nat.mul_comm i, pow_mul, rouFwd_order (by omega),
      one_pow, one_mul]

theorem polyEval_row (n : ℕ) (hn : n + 6 ≤ 27) (a : ℕ → E) (mix : E) (group : ℕ) :
    polyEval ((List.range (2 ^ 4)).map (rowCoeff n a group)) (mix * algebraMap Elem E (rouRev (n + 6) ^ group)) =
      valueAt n (folded mix a) group := by
  rw [polyEval_map, valueAt, evalPoly_folded]
  refine sum_congr rfl fun j _ => ?_
  have hcancel : (rouFwd (n + 6) ^ group) ^ j * (rouRev (n + 6) ^ group) ^ j = 1 := by
    rw [← mul_pow, roots_babyBear.pow_mul_pow hn, one_pow]
  rw [rowCoeff, mul_pow, ← map_pow, Algebra.smul_def, mul_comm (mix ^ j), mul_mul_mul_comm, ← map_mul, hcancel, map_one,
    one_mul, mul_comm]

theorem interpolate_row (n : ℕ) (hn : n + 6 ≤ 27) (a : ℕ → E) (group : ℕ) :
    interpolateNtt Elem ((List.range FRI_FOLD).map fun i => valueAt (n + 4) a (i * 2 ^ (n + 2) + group)) =
      some (reversed 4 (rowCoeff n a group)) := by
  have hlen := length_reversed 4 (rowCoeff n a group)
  have heval := roots_babyBear.evaluate_expand (by decide) (a := rowCoeff n a group) 0 (by decide) hlen fun i hi => by
    rw [List.getD_eq_getElem?_getD, reversed_getElem? hi, Option.getD_some]
  obtain ⟨v, hv, hback⟩ := roots_babyBear.interpolate_evaluate (by decide) two_ne_zero_elem (by decide) hlen
  rw [expand_zero, hv] at heval
  rw [← hback, Option.some.inj heval]
  exact congrArg (interpolateNtt Elem) (List.map_congr_left fun i _ => valueAt_row n hn a group i)

theorem domain_eq (n : ℕ) : 2 ^ (n + 6) = FRI_FOLD * 2 ^ (n + 2) := by
  rw [show n + 6 = 4 + (n + 2) by omega, pow_add]
  rfl

theorem commitment_rows (n : ℕ) (a : ℕ → E) (coeffs : List E) (mix : E) {group : ℕ} (hgroup : group < 2 ^ (n + 2)) :
    (ProveRoundInfo.mk (2 ^ (n + 6)) coeffs ((List.range (2 ^ (n + 6))).map (valueAt (n + 4) a)) mix).commitment.rows group =
      (List.range FRI_FOLD).map fun i => valueAt (n + 4) a (i * 2 ^ (n + 2) + group) := by
  have hnext : 2 ^ (n + 6) / FRI_FOLD = 2 ^ (n + 2) := by
    rw [domain_eq]
    exact Nat.mul_div_cancel_left _ (by decide)
  refine List.map_congr_left fun i hi => ?_
  have hlt : i * 2 ^ (n + 2) + group < 2 ^ (n + 6) := by
    have := Nat.mul_le_mul_right (2 ^ (n + 2)) (List.mem_range.mp hi)
    rw [domain_eq]
    linarith
  simp only [hnext, List.getD_eq_getElem?_getD, List.getElem?_map, List.getElem?_range hlt, Option.map_some, Option.getD_some]

variable [DecidableEq E]

/-- A query of an honest round passes exactly with the value at the position, and goes on with the
value of the folded polynomial. -/
theorem verifyQuery_eq (n : ℕ) (hn : n + 6 ≤ 27) (a : ℕ → E) (coeffs : List E) (mix goal : E) {pos : ℕ} (hpos : pos < 2 ^ (n + 6)) :
    verifyQuery ⟨2 ^ (n + 2),
        (ProveRoundInfo.mk (2 ^ (n + 6)) coeffs ((List.range (2 ^ (n + 6))).map (valueAt (n + 4) a)) mix).commitment⟩ pos goal =
      if valueAt (n + 4) a pos = goal then .ok (pos % 2 ^ (n + 2), valueAt n (folded mix a) (pos % 2 ^ (n + 2)))
      else .error .invalidProof := by
  have hgroup : pos % 2 ^ (n + 2) < 2 ^ (n + 2) := Nat.mod_lt pos (Nat.two_pow_pos (n + 2))
  have hquot : pos / 2 ^ (n + 2) < FRI_FOLD := by
    rw [Nat.div_lt_iff_lt_mul (Nat.two_pow_pos _), ← domain_eq]
    exact hpos
  have hvalue : ((List.range FRI_FOLD).map fun i => valueAt (n + 4) a (i * 2 ^ (n + 2) + pos % 2 ^ (n + 2)))[pos / 2 ^ (n + 2)]? =
      some (valueAt (n + 4) a pos) := by
    rw [List.getElem?_map, List.getElem?_range hquot, Option.map_some, Nat.div_add_mod']
  have hroot : (ROU_REV[log2Ceil (FRI_FOLD * 2 ^ (n + 2))]? : Option Elem) = some (rouRev (n + 6)) := by
    rw [← domain_eq, log2Ceil_two_pow]
    exact roots_babyBear.rev_at (n + 6) hn
  unfold verifyQuery
  simp only [commitment_rows n a coeffs mix hgroup, hvalue]
  by_cases hgoal : valueAt (n + 4) a pos = goal
  · rw [if_pos hgoal]
    refine bind_ok_iff.mpr ⟨_, rfl, bind_ok_iff.mpr ⟨(), require_ok_iff.mpr hgoal, bind_ok_iff.mpr ⟨_, congrArg orPanic hroot,
      bind_ok_iff.mpr ⟨_, congrArg orPanic (interpolate_row n hn a _), bind_ok_iff.mpr ⟨_, congrArg orPanic
        (bitReverse_reversed (by decide) (by decide) _), ?_⟩⟩⟩⟩⟩
    exact congrArg (fun value => Except.ok (_, value)) (polyEval_row n hn a mix _)
  · rw [if_neg hgoal]
    exact (bind_error_iff _ _ _).mpr (.inr ⟨_, rfl, (bind_error_iff _ _ _).mpr (.inl (if_neg hgoal))⟩)

theorem verifyPosition_cons (round : VerifyRoundInfo E) (rounds : List (VerifyRoundInfo E)) (gen : Elem) (finalCoeffs : List E)
    (pos : ℕ) (goal : E) : verifyPosition (round :: rounds) gen finalCoeffs pos goal =
      verifyQuery round pos goal >>= fun s => verifyPosition rounds gen finalCoeffs s.1 s.2 := by
  simp only [verifyPosition, List.foldlM_cons, bind_assoc]

theorem verifyPosition_nil (n : ℕ) (a : ℕ → E) (pos : ℕ) (goal : E) :
    verifyPosition [] (rouFwd (n + 2)) ((List.range (2 ^ n)).map a) pos goal =
      if valueAt n a pos = goal then .ok () else .error .invalidProof := by
  have hfinal : polyEval ((List.range (2 ^ n)).map a) (algebraMap Elem E (rouFwd (n + 2) ^ pos)) = valueAt n a pos := by
    rw [polyEval_map, valueAt, evalPoly]
    exact sum_congr rfl fun j _ => by rw [Algebra.smul_def, map_pow _ _ j, mul_comm]
  change require (polyEval _ _ = goal) _ = _
  rw [hfinal, require]

/-- What the rounds of a polynomial of `2 ^ n` coefficients come to: a final polynomial of `2 ^ m`,
and queries that pass exactly with the values of the first one. -/
structure Rounds (n : ℕ) (a : ℕ → E) (rounds : List (ProveRoundInfo E)) (checks : List (VerifyRoundInfo E)) (m : ℕ) (b : ℕ → E) :
    Prop where
  verify : verifyRounds (rounds.map (·.commitment)) (2 ^ (n + 2)) (2 ^ n) = .ok (checks, 2 ^ (m + 2), 2 ^ m)
  le : m ≤ n
  pos : 0 < n → 0 < m
  few : checks.length ≤ (n - 5) / 4
  query : ∀ pos < 2 ^ (n + 2), ∀ goal, verifyPosition checks (rouFwd (m + 2)) ((List.range (2 ^ m)).map b) pos goal =
    if valueAt n a pos = goal then .ok () else .error .invalidProof

theorem Rounds.nil (n : ℕ) (a : ℕ → E) (hn : 2 ^ n ≤ FRI_MIN_DEGREE) : Rounds n a [] [] n a where
  verify := if_neg (Nat.not_lt.mpr hn)
  le := Nat.le_refl n
  pos := id
  few := Nat.zero_le _
  query pos _ goal := verifyPosition_nil n a pos goal

/-- A round in front folds to the polynomial that the others start from. -/
theorem Rounds.cons {n m : ℕ} {a b : ℕ → E} {mix : E} {rounds : List (ProveRoundInfo E)} {checks : List (VerifyRoundInfo E)}
    (h : Rounds n (folded mix a) rounds checks m b) (hmin : 5 ≤ n) (hn : n + 6 ≤ 27) {round : ProveRoundInfo E}
    (hround : round = ⟨2 ^ (n + 6), reversed n (folded mix a), (List.range (2 ^ (n + 6))).map (valueAt (n + 4) a), mix⟩) :
    Rounds (n + 4) a (round :: rounds) (⟨2 ^ (n + 2), round.commitment⟩ :: checks) m b where
  verify := by
    have hmore : FRI_MIN_DEGREE < 2 ^ (n + 4) := Nat.pow_lt_pow_right one_lt_two (show 8 < n + 4 by omega)
    have hdiv (k : ℕ) : 2 ^ (k + 4) / FRI_FOLD = 2 ^ k := by
      rw [pow_add]
      exact Nat.mul_div_cancel _ (by decide)
    rw [List.map_cons, verifyRounds, if_pos hmore, show n + 4 + 2 = n + 2 + 4 by omega, hdiv, hdiv, h.verify]
    rfl
  le := h.le.trans (Nat.le_add_right n 4)
  pos _ := h.pos (by omega)
  few := by
    have := h.few
    rw [List.length_cons]
    omega
  query pos hpos goal := by
    rw [verifyPosition_cons, hround, verifyQuery_eq n hn a _ mix goal hpos]
    by_cases hgoal : valueAt (n + 4) a pos = goal
    · rw [if_pos hgoal, if_pos hgoal]
      exact (h.query _ (Nat.mod_lt pos (Nat.two_pow_pos _)) _).trans (if_pos rfl)
    · rw [if_neg hgoal, if_neg hgoal]
      rfl

theorem proveRounds_eq (mix : ℕ → E) (n : ℕ) (hn : n ≤ 25) (a : ℕ → E) (k fuel : ℕ) (hfuel : n < fuel) :
    ∃ rounds checks m b, proveRounds mix fuel k (reversed n a) = some (rounds, reversed m b) ∧ Rounds n a rounds checks m b := by
  induction fuel generalizing n a k with
  | zero => omega
  | succ fuel ih =>
    rw [proveRounds, length_reversed]
    by_cases hmore : FRI_MIN_DEGREE < 2 ^ n
    · obtain ⟨n, rfl⟩ : ∃ d, n = d + 4 := ⟨n - 4, by
        have := (Nat.pow_lt_pow_iff_right one_lt_two).mp (show 2 ^ 8 < 2 ^ n from hmore)
        omega⟩
      have hmin := (Nat.pow_lt_pow_iff_right one_lt_two).mp (show 2 ^ 8 < 2 ^ (n + 4) from hmore)
      obtain ⟨rounds, checks, m, b, hrounds, h⟩ := ih n (by omega) (folded (mix k) a) (k + 1) (by omega)
      refine ⟨_, _, m, b, ?_, h.cons (by omega) (by omega) rfl⟩
      rw [if_pos hmore, proveRound_eq n (by omega), Option.bind_eq_bind, Option.bind_some, hrounds]
      rfl
    · rw [if_neg hmore]
      exact ⟨[], [], n, a, rfl, .nil n a (Nat.le_of_not_lt hmore)⟩

theorem forM_ok_iff {ε α : Type} {f : α → Except ε Unit} {l : List α} : l.forM f = .ok () ↔ ∀ a ∈ l, f a = .ok () := by
  induction l with
  | nil => simp [pure, Except.pure]
  | cons a l ih =>
    change (f a >>= fun _ => l.forM f) = _ ↔ _
    rw [bind_ok_iff, List.forall_mem_cons, ← ih]
    exact ⟨fun ⟨(), h⟩ => h, fun h => ⟨(), h⟩⟩

/-- The prover never panics, and against its rounds the verifier accepts exactly the values of the
polynomial that was folded. -/
theorem fri_complete (overflowChecks : Bool) (mix : ℕ → E) (n : ℕ) (hpos : 0 < n) (hn : n ≤ 25) (coeffs : List E) (hlen : coeffs.length = 2 ^ n) :
    ∃ rounds finalCoeffs, friProve overflowChecks mix coeffs = some (rounds, finalCoeffs) ∧
      ∀ (positions : List ℕ) (inner : ℕ → Except VerificationError E), (∀ pos ∈ positions, pos < INV_RATE * 2 ^ n) →
        (friVerify (rounds.map (·.commitment)) finalCoeffs positions inner (2 ^ n) = .ok () ↔
          ∀ pos ∈ positions, inner pos = .ok (valueAt n (fun k => coeffs.getD (bitRev n k) 0) pos)) := by
  have hcoeffs : coeffs = reversed n fun k => coeffs.getD (bitRev n k) 0 := by
    refine (list_eq_map_range coeffs).trans ?_
    rw [hlen]
    exact List.map_congr_left fun i hi => (congrArg (coeffs.getD · 0) (bitRev_bitRev (List.mem_range.mp hi))).symm
  generalize (fun k => coeffs.getD (bitRev n k) 0) = a at hcoeffs ⊢
  subst hcoeffs
  obtain ⟨rounds, checks, m, b, hrounds, h⟩ := proveRounds_eq mix n hn a 0 (2 ^ n) Nat.lt_two_pow_self
  have hm := h.le
  refine ⟨rounds, (List.range (2 ^ m)).map b, ?_, fun positions inner hpositions => ?_⟩
  · rw [friProve, length_reversed, hrounds]
    change (bitReverse overflowChecks (reversed m b)).bind _ = _
    rw [bitReverse_reversed (h.pos hpos) (by omega)]
    rfl
  · have hcapacity : checks.length ≤ log2Ceil (2 ^ n ⌈/⌉ FRI_FOLD ⌈/⌉ FRI_FOLD_PO2) := by
      by_cases hsix : 6 ≤ n
      · obtain ⟨d, rfl⟩ := Nat.exists_eq_add_of_le' hsix
        have hceil (k j : ℕ) : 2 ^ (k + j) ⌈/⌉ 2 ^ j = 2 ^ k := by
          rw [pow_add, Nat.mul_comm]
          exact smul_ceilDiv (Nat.two_pow_pos j) (2 ^ k)
        have hfold : 2 ^ (d + 6) ⌈/⌉ FRI_FOLD = 2 ^ (d + 2) := hceil (d + 2) 4
        have hpo2 : 2 ^ (d + 2) ⌈/⌉ FRI_FOLD_PO2 = 2 ^ d := hceil d 2
        rw [hfold, hpo2, log2Ceil_two_pow]
        exact h.few.trans (by omega)
      · exact h.few.trans (by omega)
    have hgen : (ROU_FWD[log2Ceil (2 ^ (m + 2))]? : Option Elem) = some (rouFwd (m + 2)) := by
      rw [log2Ceil_two_pow]
      exact roots_babyBear.fwd_at (m + 2) (show m + 2 ≤ 27 by omega)
    have hdomain : INV_RATE * 2 ^ n = 2 ^ (n + 2) := by
      rw [pow_add, Nat.mul_comm]
      rfl
    have hverify : friVerify (rounds.map (·.commitment)) ((List.range (2 ^ m)).map b) positions inner (2 ^ n) =
        positions.forM fun pos => inner pos >>= verifyPosition checks (rouFwd (m + 2)) ((List.range (2 ^ m)).map b) pos := by
      rw [friVerify, hdomain, h.verify]
      change (require _ _ >>= fun _ => require _ _ >>= fun _ => orPanic _ >>= _) = _
      rw [hgen, require, if_pos hcapacity, require, if_pos (by simp)]
      rfl
    rw [hverify, forM_ok_iff]
    refine forall₂_congr fun pos hmem => ?_
    have hquery := h.query pos (hdomain ▸ hpositions pos hmem)
    rw [bind_ok_iff]
    constructor
    · rintro ⟨goal, hgoal, hok⟩
      rw [hquery] at hok
      by_cases heq : valueAt n a pos = goal
      · rw [hgoal, heq]
      · rw [if_neg heq] at hok
        cases hok
    · exact fun hgoal => ⟨_, hgoal, (hquery _).trans (if_pos rfl)⟩

/-- A polynomial that is folded once, with one query of its value. -/
theorem fri_complete_512 : ∃ rounds finalCoeffs, friProve true (fun _ => (2 : ExtElem)) (List.replicate 512 1) = some (rounds, finalCoeffs) ∧
    friVerify (rounds.map (·.commitment)) finalCoeffs [7]
      (fun pos => .ok (valueAt 9 (fun k => (List.replicate 512 1).getD (bitRev 9 k) 0) pos)) 512 = .ok () := by
  obtain ⟨rounds, finalCoeffs, hprove, hverify⟩ :=
    fri_complete true (fun _ => (2 : ExtElem)) 9 (by norm_num) (by norm_num) (List.replicate 512 1) List.length_replicate
  exact ⟨rounds, finalCoeffs, hprove, (hverify [7] _ (by decide)).mpr fun _ _ => rfl⟩

end VerifiableCompute.Zkp.Fri
