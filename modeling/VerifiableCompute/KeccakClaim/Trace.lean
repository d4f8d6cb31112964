import VerifiableCompute.KeccakClaim.Preflight

/-! The size of a generated trace, and the cells that its last row shows. -/

namespace VerifiableCompute.KeccakClaim

open PreflightTrace List

variable {Key : Type} {keyForCycle : ControlState → Key} {mix : Cells → Cells}

/-- Nothing was scattered into a row that is still to come. -/
def PreflightTrace.Rows (t : PreflightTrace Key) : Prop := ∀ e ∈ t.scatter, e.row < t.cycle

/-- What a step of the generator adds: cycles, and words at the end of the data. -/
structure Adds (t t' : PreflightTrace Key) (cycles words : ℕ) : Prop where
  cycle : t'.cycle = t.cycle + cycles
  data : t.data <+: t'.data
  length : t'.data.length = t.data.length + words
  rows : t.Rows → t'.Rows

theorem Adds.refl (t : PreflightTrace Key) : Adds t t 0 0 := ⟨rfl, prefix_refl _, rfl, id⟩

variable {c w po2 : ℕ} {s : Sponge Key} {st : Sponge Key × ℕ} {inputs : List KeccakState}

theorem Adds.trans {t t' t'' : PreflightTrace Key} {c' w' : ℕ} (h : Adds t t' c w) (h' : Adds t' t'' c' w') :
    Adds t t'' (c + c') (w + w') where
  cycle := by rw [h'.cycle, h.cycle, Nat.add_assoc]
  data := h.data.trans h'.data
  length := by rw [h'.length, h.length, Nat.add_assoc]
  rows hrows := h'.rows (h.rows hrows)

theorem append_adds (words : List (BitVec 32)) (t : PreflightTrace Key) : Adds t (t.append words).1 0 words.length where
  cycle := rfl
  data := prefix_append ..
  length := length_append
  rows := id

theorem foldl_adds {State Item : Type} {step : State → Item → State} (trace : State → PreflightTrace Key)
    (hstep : ∀ s item, Adds (trace s) (trace (step s item)) c w) (items : List Item) (s : State) :
    Adds (trace s) (trace (items.foldl step s)) (items.length * c) (items.length * w) := by
  induction items generalizing s with
  | nil => simpa using Adds.refl (trace s)
  | cons item items ih =>
    have h := (hstep s item).trans (ih (step s item))
    rw [length_cons, Nat.succ_mul, Nat.succ_mul, Nat.add_comm _ c, Nat.add_comm _ w]
    exact h

theorem writeKeccak_adds (state : KeccakState) (high : Bool) (t : PreflightTrace Key) : Adds t (writeKeccak state high t).1 0 25 := by
  have h := append_adds (state.toList.map fun (x : BitVec 64) => if high then (x >>> 32).setWidth 32 else x.setWidth 32) t
  rw [length_map, Vector.length_toList] at h
  exact h

theorem writeTheta_adds (theta : ThetaB) (t : PreflightTrace Key) : Adds t (writeTheta theta t).1 0 30 := by
  have h := append_adds (theta.toList.flatMap laneWords ++ replicate 20 0) t
  have hlength : (theta.toList.flatMap laneWords ++ replicate 20 0).length = 30 := by
    simp [laneWords]
  rw [hlength] at h
  exact h

theorem writeKflat_adds (state : KeccakState) (t : PreflightTrace Key) : Adds t (writeKflat state t).1 0 50 := by
  have h := append_adds (stateWords state) t
  rw [stateWords_length] at h
  exact h

variable [DecidableEq Key]

theorem addCycle_adds (ctrl : Control) (bits kflat pflat idx : ℕ) (t : PreflightTrace Key) :
    Adds t (t.addCycle keyForCycle ctrl bits kflat pflat idx) 1 2 where
  cycle := rfl
  data := prefix_append ..
  length := by simp [addCycle]
  rows hrows e he := by
    rcases mem_append.mp he with hold | hnew
    · exact Nat.lt_succ_of_lt (hrows e hold)
    · have hrow : e.row = t.cycle := by
        simp only [mem_cons, not_mem_nil, or_false] at hnew
        rcases hnew with rfl | rfl | rfl | rfl | rfl <;> rfl
      exact hrow ▸ Nat.lt_succ_self _

theorem cellWords_length (cells : Cells) : (cellWords cells).length = 24 := by
  simp [cellWords]

theorem poseidonRound_adds (data : List (BitVec 32)) (kflat idx : ℕ) (isIn : Bool) (s : Sponge Key) (round : ℕ) :
    Adds s.trace (poseidonRound keyForCycle mix data kflat idx isIn s round).trace 1 26 := by
  have happend := append_adds (cellWords (mix (s.cells.withRate (halfWord (data.drop (8 * round)))))) s.trace
  rw [cellWords_length] at happend
  exact happend.trans (addCycle_adds ..)

theorem writePoseidon_adds (data : List (BitVec 32)) (kflat idx : ℕ) (isIn : Bool) (s : Sponge Key) :
    Adds s.trace (writePoseidon keyForCycle mix data kflat idx isIn s).trace 7 182 :=
  foldl_adds Sponge.trace (poseidonRound_adds data kflat idx isIn) (range 7) s

theorem hashState_adds (isIn : Bool) (cycleIdx curIdx : ℕ) (kstate : KeccakState) (s : Sponge Key) :
    Adds s.trace (hashState keyForCycle mix isIn cycleIdx curIdx kstate s).1.trace 8 234 := by
  have hread : Adds s.trace ((writeKflat kstate s.trace).1.addCycle keyForCycle (if isIn then Control.read else .write) 0
      s.trace.data.length s.pflat cycleIdx) 1 52 :=
    (writeKflat_adds kstate s.trace).trans (addCycle_adds ..)
  exact hread.trans (writePoseidon_adds _ _ _ _ ⟨_, s.cells, s.pflat⟩)

theorem traceRound_adds (kflat pflat idx : ℕ) (st : PreflightTrace Key × KeccakState) (round : ℕ) :
    Adds st.1 (traceRound keyForCycle kflat pflat idx st round).1 5 140 :=
  (writeTheta_adds ..).trans (addCycle_adds ..)
    |>.trans (writeKeccak_adds ..) |>.trans (addCycle_adds ..)
    |>.trans (writeKeccak_adds ..) |>.trans (addCycle_adds ..)
    |>.trans (writeKeccak_adds ..) |>.trans (addCycle_adds ..)
    |>.trans (writeKeccak_adds ..) |>.trans (addCycle_adds ..)

variable (kflat pflat idx : ℕ)

theorem expandState_adds (kstate : KeccakState) (t : PreflightTrace Key) :
    Adds t (expandState keyForCycle kflat pflat idx kstate t) 2 54 :=
  (writeKeccak_adds ..).trans (addCycle_adds ..) |>.trans (writeKeccak_adds ..) |>.trans (addCycle_adds ..)

theorem traceRounds_adds (st : PreflightTrace Key × KeccakState) :
    Adds st.1 (traceRounds keyForCycle kflat pflat idx st).1 (24 * 5) (24 * 140) := by
  have h := foldl_adds Prod.fst (@traceRound_adds _ keyForCycle _ kflat pflat idx) (range 24) st
  rwa [length_range] at h

theorem shutdown_adds (pflat idx n : ℕ) (t : PreflightTrace Key) : Adds t (shutdown keyForCycle pflat idx n t) n (2 * n) := by
  induction n generalizing t with
  | zero => exact .refl t
  | succ n ih =>
    have hcycle : Adds t (t.addCycle keyForCycle .shutdown 0 0 pflat idx) 1 2 := addCycle_adds ..
    have h := hcycle.trans (ih _)
    rw [Nat.add_comm 1 n, Nat.add_comm 2 (2 * n)] at h
    exact h

def PreflightTrace.wordsAt (t : PreflightTrace Key) (row col : ℕ) : List (BitVec 32) :=
  (t.scatter.filter fun e => e.row = row ∧ e.col = col ∧ e.bits = 32).flatMap fun e => (t.data.drop e.offset).take e.count

/-- The data holds the cells at the sponge's offset, and the last row shows them. -/
structure Shown (s : Sponge Key) : Prop where
  started : 0 < s.trace.cycle
  rows : s.trace.Rows
  holds : (s.trace.data.drop s.pflat).take 24 = cellWords s.cells
  last : s.trace.wordsAt (s.trace.cycle - 1) pflatCol = cellWords s.cells

omit [DecidableEq Key] in
theorem slice_append {data words : List (BitVec 32)} {offset n : ℕ} (h : (data.drop offset).take n = words) (hlength : words.length = n)
    (more : List (BitVec 32)) : ((data ++ more).drop offset).take n = words := by
  have hinside : n ≤ (data.drop offset).length := by
    rw [← hlength, ← h, length_take]
    exact Nat.min_le_right ..
  by_cases hoffset : offset ≤ data.length
  · rw [drop_append_of_le_length hoffset, take_append_of_le_length hinside, h]
  · rw [drop_eq_nil_of_le (by omega)] at hinside
    have hzero : n = 0 := Nat.le_zero.mp hinside
    subst hzero
    rw [take_zero, eq_nil_of_length_eq_zero hlength]

theorem addCycle_shown (ctrl : Control) (bits kflat idx : ℕ) (hrows : s.trace.Rows)
    (hholds : (s.trace.data.drop s.pflat).take 24 = cellWords s.cells) :
    Shown { s with trace := s.trace.addCycle keyForCycle ctrl bits kflat s.pflat idx } where
  started := Nat.succ_pos _
  rows := (addCycle_adds ..).rows hrows
  holds := slice_append hholds (cellWords_length s.cells) _
  last := by
    have hold : (s.trace.scatter.filter fun e => e.row = s.trace.cycle ∧ e.col = pflatCol ∧ e.bits = 32) = [] := by
      apply filter_eq_nil_iff.mpr
      intro e he
      have hrow := hrows e he
      simp only [decide_eq_true_eq]
      omega
    rw [wordsAt]
    simp only [addCycle, Nat.add_sub_cancel, filter_append, hold]
    simp [pflatCol, cycleTypeCol, cycleMuxCol, bitsCol, kflatCol]
    exact slice_append hholds (cellWords_length s.cells) _

theorem poseidonRound_shown (data : List (BitVec 32)) (kflat idx : ℕ) (isIn : Bool) (hrows : s.trace.Rows) (round : ℕ) :
    Shown (poseidonRound keyForCycle mix data kflat idx isIn s round) := by
  let cells := mix (s.cells.withRate (halfWord (data.drop (8 * round))))
  have hholds : ((s.trace.data ++ cellWords cells).drop s.trace.data.length).take 24 = cellWords cells := by
    rw [drop_left, take_of_length_le (cellWords_length cells).le]
  exact addCycle_shown _ _ _ _ (s := ⟨(writePflat cells s.trace).1, cells, s.trace.data.length⟩) ((append_adds ..).rows hrows) hholds

theorem writePoseidon_shown (data : List (BitVec 32)) (kflat idx : ℕ) (isIn : Bool) (hrows : s.trace.Rows) :
    Shown (writePoseidon keyForCycle mix data kflat idx isIn s) := by
  have hsix := (foldl_adds Sponge.trace (@poseidonRound_adds _ keyForCycle mix _ data kflat idx isIn) (range 6) s).rows hrows
  rw [writePoseidon, range_succ, foldl_append, foldl_cons, foldl_nil]
  exact poseidonRound_shown data kflat idx isIn hsix 6

theorem hashState_shown (isIn : Bool) (cycleIdx curIdx : ℕ) (kstate : KeccakState) (hrows : s.trace.Rows) :
    Shown (hashState keyForCycle mix isIn cycleIdx curIdx kstate s).1 :=
  writePoseidon_shown _ _ _ _ (((writeKflat_adds kstate s.trace).trans (addCycle_adds ..)).rows hrows)

theorem writePoseidon_cells (kstate : KeccakState) (kflat idx : ℕ) (isIn : Bool) (s : Sponge Key) :
    (writePoseidon keyForCycle mix (stateWords kstate ++ replicate 6 0) kflat idx isIn s).cells = absorbState mix s.cells kstate := by
  have h : ∀ n, ((range n).foldl (poseidonRound keyForCycle mix (stateWords kstate ++ replicate 6 0) kflat idx isIn) s).cells =
      absorbBlocks mix n s.cells kstate := by
    intro n
    induction n with
    | zero => rfl
    | succ n ih =>
      rw [range_succ, foldl_append, foldl_cons, foldl_nil, absorbBlocks_succ, ← ih, ← halfWord_drop]
      rfl
  exact h 7

theorem hashState_cells (isIn : Bool) (cycleIdx curIdx : ℕ) (kstate : KeccakState) (s : Sponge Key) :
    (hashState keyForCycle mix isIn cycleIdx curIdx kstate s).1.cells = absorbState mix s.cells kstate := by
  rw [hashState]
  exact writePoseidon_cells kstate _ curIdx isIn { s with trace := _ }

theorem traceRound_state (st : PreflightTrace Key × KeccakState) (round : ℕ) :
    (traceRound keyForCycle kflat pflat idx st round).2 = keccakRound st.2 round := rfl

theorem traceRounds_state (st : PreflightTrace Key × KeccakState) :
    (traceRounds keyForCycle kflat pflat idx st).2 = f1600 st.2 := by
  rw [← rounds_eq_f1600, traceRounds]
  generalize range 24 = rounds
  induction rounds generalizing st with
  | nil => rfl
  | cons round rounds ih => rw [foldl_cons, foldl_cons, ih, traceRound_state]

attribute [local irreducible] hashState expandState traceRounds

section

variable (st : Sponge Key × ℕ) (kstate : KeccakState)

theorem tracePermutation_adds : Adds st.1.trace (tracePermutation keyForCycle mix st kstate).1.trace 130 3648 := by
  let read := hashState keyForCycle mix true st.2 (st.2 + 1) kstate st.1
  let t := expandState keyForCycle read.2 read.1.pflat (st.2 + 1) kstate read.1.trace
  let rounds := traceRounds keyForCycle read.2 read.1.pflat (st.2 + 1) (t, kstate)
  have hread : Adds st.1.trace read.1.trace 8 234 := hashState_adds ..
  have hexpand : Adds read.1.trace t 2 54 := expandState_adds ..
  have hrounds : Adds t rounds.1 (24 * 5) (24 * 140) := traceRounds_adds _ _ _ (t, kstate)
  rw [tracePermutation]
  exact hread.trans hexpand |>.trans hrounds

theorem traceInput_adds : Adds st.1.trace (traceInput keyForCycle mix st kstate).1.trace 138 3882 := by
  let permuted := tracePermutation keyForCycle mix st kstate
  have hwritten : Adds permuted.1.trace (hashState keyForCycle mix false (st.2 + 1) (st.2 + 1) permuted.2 permuted.1).1.trace 8 234 :=
    hashState_adds ..
  rw [traceInput]
  exact (tracePermutation_adds st kstate).trans hwritten

theorem tracePermutation_cells :
    (tracePermutation keyForCycle mix st kstate).1.cells = absorbState mix st.1.cells kstate := by
  rw [tracePermutation]
  exact hashState_cells ..

theorem tracePermutation_state : (tracePermutation keyForCycle mix st kstate).2 = f1600 kstate := by
  rw [tracePermutation]
  exact traceRounds_state ..

/-- A permutation's input and output are hashed as the digest has them. -/
theorem traceInput_cells : (traceInput keyForCycle mix st kstate).1.cells = absorbPair mix st.1.cells kstate := by
  let permuted := tracePermutation keyForCycle mix st kstate
  have hwritten : (hashState keyForCycle mix false (st.2 + 1) (st.2 + 1) permuted.2 permuted.1).1.cells =
      absorbState mix permuted.1.cells permuted.2 := hashState_cells ..
  have hcells : permuted.1.cells = absorbState mix st.1.cells kstate := tracePermutation_cells ..
  have hstate : permuted.2 = f1600 kstate := tracePermutation_state ..
  rw [absorbPair, ← hcells, ← hstate, ← hwritten, traceInput]

end

theorem traceInputs_cells (inputs : List KeccakState) (st : Sponge Key × ℕ) :
    (inputs.foldl (traceInput keyForCycle mix) st).1.cells = inputs.foldl (absorbPair mix) st.1.cells := by
  induction inputs generalizing st with
  | nil => rfl
  | cons input inputs ih => rw [foldl_cons, foldl_cons, ih, traceInput_cells]

theorem traceInput_shown (h : st.1.trace.Rows) (kstate : KeccakState) :
    Shown (traceInput keyForCycle mix st kstate).1 := by
  rw [traceInput]
  exact hashState_shown _ _ _ _ ((tracePermutation_adds st kstate).rows h)

theorem traceInputs_shown (inputs : List KeccakState) (h : Shown st.1) :
    Shown (inputs.foldl (traceInput keyForCycle mix) st).1 := by
  induction inputs generalizing st with
  | nil => exact h
  | cons input inputs ih => exact ih (traceInput_shown h.rows input)

theorem shutdown_shown (idx n : ℕ) (h : Shown s) :
    Shown { s with trace := shutdown keyForCycle s.pflat idx n s.trace } := by
  induction n generalizing s with
  | zero => exact h
  | succ n ih => exact ih (addCycle_shown .shutdown 0 0 idx h.rows h.holds)

section

variable (inputs : List KeccakState)

theorem traceInit_shown : Shown (traceInit keyForCycle inputs) := by
  let t : PreflightTrace Key := { cycle := 0, preimages := inputs, data := replicate 100 0, scatter := [], cycles := fun _ => [] }
  have hrows : t.Rows := fun e he => absurd he not_mem_nil
  have hholds : ((t.data ++ cellWords .zero).drop t.data.length).take 24 = cellWords .zero := by
    rw [drop_left, take_of_length_le (cellWords_length _).le]
  exact addCycle_shown .init 0 0 0 (s := ⟨(writePflat .zero t).1, .zero, t.data.length⟩) ((append_adds _ t).rows hrows) hholds

theorem traceInputs_adds :
    Adds (traceInit keyForCycle inputs).trace (traceInputs keyForCycle mix inputs).1.trace (inputs.length * 138) (inputs.length * 3882) :=
  foldl_adds (fun st : Sponge Key × ℕ => st.1.trace) traceInput_adds inputs (traceInit keyForCycle inputs, 0)

theorem traceInit_length : (traceInit keyForCycle inputs).trace.data.length = 126 := by
  simp [traceInit, addCycle, writePflat, append, cellWords]

theorem traceInputs_cycle : (traceInputs keyForCycle mix inputs).1.trace.cycle = 1 + inputs.length * 138 :=
  (traceInputs_adds inputs).cycle

end

/-- A batch that fits takes at most the cycles it is given. -/
theorem traceInputs_cycle_le (h : inputs.length ≤ maxKeccakInputs po2) :
    (traceInputs keyForCycle mix inputs).1.trace.cycle ≤ 2 ^ po2 := by
  have hpos : 0 < 2 ^ po2 := Nat.two_pow_pos po2
  have hfit : inputs.length * 200 ≤ 2 ^ po2 := (Nat.le_div_iff_mul_le (by decide)).mp h
  rw [traceInputs_cycle]
  omega

theorem new_adds (inputs : List KeccakState) (cycles : ℕ) :
    Adds (traceInputs keyForCycle mix inputs).1.trace (new keyForCycle mix inputs cycles)
      (cycles - (traceInputs keyForCycle mix inputs).1.trace.cycle)
      (2 * (cycles - (traceInputs keyForCycle mix inputs).1.trace.cycle)) :=
  shutdown_adds ..

theorem new_cycle (h : inputs.length ≤ maxKeccakInputs po2) :
    (new keyForCycle mix inputs (2 ^ po2)).cycle = 2 ^ po2 := by
  rw [(new_adds inputs (2 ^ po2)).cycle, Nat.add_sub_cancel' (traceInputs_cycle_le h)]

theorem new_data_length (hpo2 : InKeccakPo2Range po2) (h : inputs.length ≤ maxKeccakInputs po2) :
    (new keyForCycle mix inputs (2 ^ po2)).data.length < 2 ^ 32 := by
  have hfit : inputs.length * 200 ≤ 2 ^ po2 := (Nat.le_div_iff_mul_le (by decide)).mp h
  have hpow : 2 ^ po2 ≤ 2 ^ 18 := Nat.pow_le_pow_right (by decide) hpo2.2
  rw [(new_adds inputs (2 ^ po2)).length, (traceInputs_adds inputs).length, traceInit_length]
  omega

theorem cellWords_drop (cells : Cells) : (cellWords cells).drop 16 = cells.capacity.toList := by
  apply ext_getElem
  · simp [cellWords, Cells.capacity]
  · intro i hi hi'
    simp [cellWords, Cells.capacity, Vector.get]

theorem new_capacity (h : inputs.length ≤ maxKeccakInputs po2) :
    ((new keyForCycle mix inputs (2 ^ po2)).wordsAt (2 ^ po2 - 1) pflatCol).drop 16 = (computeKeccakDigest mix inputs).toList := by
  have hinputs : Shown (traceInputs keyForCycle mix inputs).1 := traceInputs_shown inputs (traceInit_shown inputs)
  have hcells : (traceInputs keyForCycle mix inputs).1.cells = inputs.foldl (absorbPair mix) .zero := traceInputs_cells inputs _
  have hlast : (new keyForCycle mix inputs (2 ^ po2)).wordsAt
      ((new keyForCycle mix inputs (2 ^ po2)).cycle - 1) pflatCol = cellWords (traceInputs keyForCycle mix inputs).1.cells :=
    (shutdown_shown _ _ hinputs).last
  rw [new_cycle h] at hlast
  rw [hlast, hcells, cellWords_drop, computeKeccakDigest_eq]

end VerifiableCompute.KeccakClaim
