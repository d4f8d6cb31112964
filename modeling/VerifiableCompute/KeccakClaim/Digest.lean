import VerifiableCompute.KeccakClaim.Types

/-! The digest of a batch of permutations, as the guest and as the host compute it. Each state
is hashed in seven blocks before and in seven blocks after its permutation. -/

namespace VerifiableCompute.KeccakClaim

open List

variable (mix : Cells → Cells)

def laneWords (x : BitVec 64) : List (BitVec 32) := [x.setWidth 32, (x >>> 32).setWidth 32]

/-- A state in memory: the low word of each lane first. -/
def stateWords (s : KeccakState) : List (BitVec 32) := s.toList.flatMap laneWords

/-- The half at position `k` of a block of eight words. -/
def halfWord (words : List (BitVec 32)) (k : ℕ) : BitVec 32 :=
  if k % 2 = 0 then words.getD (k / 2) 0 &&& 0xffff else words.getD (k / 2) 0 >>> 16

/-- The guest's call: blocks of eight words are absorbed into a stored capacity. -/
def sysPoseidon2 (state : DigestWords) (bufIn : List (BitVec 32)) (count : ℕ) : DigestWords :=
  ((List.range count).foldl (fun cells i => mix (cells.withRate (halfWord (bufIn.drop (8 * i))))) (.ofCapacity state)).capacity

def commitSingleKeccak (claimState : DigestWords) (keccakState : KeccakState) : DigestWords :=
  let keccakStateU32 := stateWords keccakState
  let claimState := sysPoseidon2 mix claimState keccakStateU32 6
  let lastWords := [keccakStateU32.getD 48 0, keccakStateU32.getD 49 0, 0, 0, 0, 0, 0, 0]
  sysPoseidon2 mix claimState lastWords 1

def dataLanes (s : KeccakState) : List (BitVec 64) := s.toList ++ [0, 0, 0]

/-- The quarter at position `k` of a block of four lanes. -/
def quarterLane (lanes : List (BitVec 64)) (k : ℕ) : BitVec 32 :=
  (lanes.getD (k / 4) 0 >>> (k % 4 * 16) &&& 0xffff).setWidth 32

def mixChunks : Cells → List (BitVec 64) → Cells
  | cells, x0 :: x1 :: x2 :: x3 :: transcript =>
    mixChunks (mix (cells.withRate (quarterLane [x0, x1, x2, x3]))) transcript
  | cells, _ => cells

def transcript (inputs : List KeccakState) : List (BitVec 64) :=
  inputs.flatMap fun input => dataLanes input ++ dataLanes (f1600 input)

def computeKeccakDigest (inputs : List KeccakState) : DigestWords :=
  (mixChunks mix .zero (transcript inputs)).capacity

/-- The sponge after the first blocks of a state. -/
def absorbBlocks (n : ℕ) (cells : Cells) (s : KeccakState) : Cells :=
  (List.range n).foldl (fun cells i => mix (cells.withRate (quarterLane ((dataLanes s).drop (4 * i))))) cells

def absorbState (cells : Cells) (s : KeccakState) : Cells := absorbBlocks mix 7 cells s

/-- The sponge after a state and its permutation. -/
def absorbPair (cells : Cells) (input : KeccakState) : Cells :=
  absorbState mix (absorbState mix cells input) (f1600 input)

theorem Cells.withRate_of_rate {cells : Cells} {rate rate' : ℕ → BitVec 32} (h : ∀ k < 16, rate k = rate' k) :
    cells.withRate rate = cells.withRate rate' := by
  apply Vector.ext
  intro i hi
  simp only [withRate, Vector.getElem_ofFn]
  split
  · rename_i hlt
    rw [h i hlt]
  · rfl

theorem laneWords_getD (lanes : List (BitVec 64)) (n : ℕ) :
    (lanes.flatMap laneWords).getD (2 * n) 0 = (lanes.getD n 0).setWidth 32 ∧
      (lanes.flatMap laneWords).getD (2 * n + 1) 0 = (lanes.getD n 0 >>> 32).setWidth 32 := by
  induction lanes generalizing n with
  | nil => simp
  | cons x lanes ih =>
    cases n with
    | zero => exact ⟨rfl, rfl⟩
    | succ n => exact ih n

theorem toNat_and_ffff {w : ℕ} (x : BitVec w) (h : 16 ≤ w) : (x &&& BitVec.ofNat w 0xffff).toNat = x.toNat % 65536 := by
  have hpow : 2 ^ 16 ≤ 2 ^ w := Nat.pow_le_pow_right (by decide) h
  rw [BitVec.toNat_and, BitVec.toNat_ofNat, Nat.mod_eq_of_lt (by omega)]
  exact Nat.and_two_pow_sub_one_eq_mod x.toNat 16

theorem quarterLane_toNat (lanes : List (BitVec 64)) (k : ℕ) :
    (quarterLane lanes k).toNat = (lanes.getD (k / 4) 0).toNat / 2 ^ (k % 4 * 16) % 65536 := by
  rw [quarterLane, BitVec.toNat_setWidth, show (0xffff : BitVec 64) = BitVec.ofNat 64 0xffff from rfl, toNat_and_ffff _ (by decide),
    BitVec.toNat_ushiftRight, Nat.shiftRight_eq_div_pow]
  omega

theorem halfWord_laneWords (lanes : List (BitVec 64)) (k : ℕ) : halfWord (lanes.flatMap laneWords) k = quarterLane lanes k := by
  obtain ⟨hlow, hhigh⟩ := laneWords_getD lanes (k / 4)
  have hx := (lanes.getD (k / 4) 0).isLt
  apply BitVec.eq_of_toNat_eq
  rw [quarterLane_toNat, halfWord]
  have hk : k % 4 = 0 ∨ k % 4 = 1 ∨ k % 4 = 2 ∨ k % 4 = 3 := by omega
  rcases hk with hr | hr | hr | hr
  · rw [if_pos (by omega), show k / 2 = 2 * (k / 4) by omega, hlow, hr,
      show (0xffff : BitVec 32) = BitVec.ofNat 32 0xffff from rfl, toNat_and_ffff _ (by decide), BitVec.toNat_setWidth]
    omega
  · rw [if_neg (by omega), show k / 2 = 2 * (k / 4) by omega, hlow, hr, BitVec.toNat_ushiftRight,
      Nat.shiftRight_eq_div_pow, BitVec.toNat_setWidth]
    omega
  · rw [if_pos (by omega), show k / 2 = 2 * (k / 4) + 1 by omega, hhigh, hr,
      show (0xffff : BitVec 32) = BitVec.ofNat 32 0xffff from rfl, toNat_and_ffff _ (by decide), BitVec.toNat_setWidth,
      BitVec.toNat_ushiftRight, Nat.shiftRight_eq_div_pow]
    omega
  · rw [if_neg (by omega), show k / 2 = 2 * (k / 4) + 1 by omega, hhigh, hr, BitVec.toNat_ushiftRight,
      Nat.shiftRight_eq_div_pow, BitVec.toNat_setWidth, BitVec.toNat_ushiftRight, Nat.shiftRight_eq_div_pow]
    omega

theorem drop_laneWords (lanes : List (BitVec 64)) (n : ℕ) : (lanes.flatMap laneWords).drop (2 * n) = (lanes.drop n).flatMap laneWords := by
  induction lanes generalizing n with
  | nil => simp
  | cons x lanes ih =>
    cases n with
    | zero => rfl
    | succ n => exact ih n

theorem mixChunks_append (cells : Cells) {lanes : List (BitVec 64)} (rest : List (BitVec 64)) {m : ℕ} (h : lanes.length = 4 * m) :
    mixChunks mix cells (lanes ++ rest) =
      mixChunks mix ((range m).foldl (fun cells i => mix (cells.withRate (quarterLane (lanes.drop (4 * i))))) cells) rest := by
  induction m generalizing cells lanes with
  | zero =>
    rw [eq_nil_of_length_eq_zero h]
    rfl
  | succ m ih =>
    rcases lanes with _ | ⟨x0, _ | ⟨x1, _ | ⟨x2, _ | ⟨x3, lanes⟩⟩⟩⟩
    · simp at h
    · simp at h
      omega
    · simp at h
      omega
    · simp at h
      omega
    · have hrate : ∀ k < 16, quarterLane [x0, x1, x2, x3] k = quarterLane (x0 :: x1 :: x2 :: x3 :: lanes) k := by
        intro k hk
        have hget : ([x0, x1, x2, x3] : List (BitVec 64)).getD (k / 4) 0 = (x0 :: x1 :: x2 :: x3 :: lanes).getD (k / 4) 0 := by
          rw [getD_eq_getElem _ _ (show k / 4 < [x0, x1, x2, x3].length by simp; omega),
            getD_eq_getElem _ _ (by simp; omega)]
          exact (getElem_append_left (show k / 4 < [x0, x1, x2, x3].length by simp; omega)).symm
        rw [quarterLane, quarterLane, hget]
      have hdrop : ∀ i, (x0 :: x1 :: x2 :: x3 :: lanes).drop (4 * Nat.succ i) = lanes.drop (4 * i) := fun _ => rfl
      rw [range_succ_eq_map, foldl_cons, foldl_map]
      simp only [hdrop]
      rw [Nat.mul_zero, drop_zero, ← Cells.withRate_of_rate hrate, cons_append, cons_append, cons_append,
        cons_append, mixChunks]
      have hlength : lanes.length = 4 * m := by
        simp only [length_cons] at h
        omega
      exact ih _ hlength

variable (s : KeccakState)

theorem dataLanes_length : (dataLanes s).length = 4 * 7 := by
  simp [dataLanes]

theorem mixChunks_transcript (cells : Cells) (inputs : List KeccakState) :
    mixChunks mix cells (transcript inputs) = inputs.foldl (absorbPair mix) cells := by
  induction inputs generalizing cells with
  | nil => rfl
  | cons input inputs ih =>
    rw [transcript, flatMap_cons, append_assoc, mixChunks_append mix cells _ (dataLanes_length input),
      mixChunks_append mix _ _ (dataLanes_length (f1600 input))]
    exact ih _

theorem computeKeccakDigest_eq (inputs : List KeccakState) :
    computeKeccakDigest mix inputs = (inputs.foldl (absorbPair mix) .zero).capacity := by
  rw [computeKeccakDigest, mixChunks_transcript]

theorem dataLanes_laneWords : (dataLanes s).flatMap laneWords = stateWords s ++ replicate 6 0 := by
  rw [dataLanes, flatMap_append]
  rfl

theorem stateWords_length : (stateWords s).length = 50 := by
  rw [stateWords, length_flatMap]
  simp [laneWords]

theorem halfWord_drop (i : ℕ) :
    halfWord ((stateWords s ++ replicate 6 0).drop (8 * i)) = quarterLane ((dataLanes s).drop (4 * i)) := by
  funext k
  rw [← dataLanes_laneWords, show 8 * i = 2 * (4 * i) by omega, drop_laneWords, halfWord_laneWords]

theorem foldl_withRate_congr {cells cells' : Cells} (h : cells.capacity = cells'.capacity) (rate : ℕ → ℕ → BitVec 32) (n : ℕ) :
    ((range n).foldl (fun cells i => mix (cells.withRate (rate i))) cells).capacity =
      ((range n).foldl (fun cells i => mix (cells.withRate (rate i))) cells').capacity := by
  cases n with
  | zero => exact h
  | succ n => rw [range_succ_eq_map, foldl_cons, foldl_cons, Cells.withRate_congr h]

theorem halfWord_unpadded {i k : ℕ} (hi : i < 6) (hk : k < 16) :
    halfWord ((stateWords s).drop (8 * i)) k = quarterLane ((dataLanes s).drop (4 * i)) k := by
  have hlength := stateWords_length s
  have hinside : k / 2 < ((stateWords s).drop (8 * i)).length := by
    rw [length_drop]
    omega
  rw [← halfWord_drop, drop_append_of_le_length (by omega), halfWord, halfWord, getD_append _ _ _ _ hinside]

theorem lastWords_eq :
    [(stateWords s).getD 48 0, (stateWords s).getD 49 0, 0, 0, 0, 0, 0, 0] = (stateWords s ++ replicate 6 0).drop (8 * 6) := by
  have hlength := stateWords_length s
  rw [drop_append_of_le_length (by omega), drop_eq_getElem_cons (by omega), drop_eq_getElem_cons (by omega),
    drop_of_length_le (by omega), getD_eq_getElem _ _ (by omega), getD_eq_getElem _ _ (by omega)]
  rfl

theorem absorbBlocks_succ (n : ℕ) (cells : Cells) (s : KeccakState) :
    absorbBlocks mix (n + 1) cells s = mix ((absorbBlocks mix n cells s).withRate (quarterLane ((dataLanes s).drop (4 * n)))) := by
  rw [absorbBlocks, range_succ, foldl_append, foldl_cons, foldl_nil]
  rfl

theorem sysPoseidon2_six (cells : Cells) (s : KeccakState) :
    sysPoseidon2 mix cells.capacity (stateWords s) 6 = (absorbBlocks mix 6 cells s).capacity := by
  have hrate : ∀ (cells' : Cells), ∀ i ∈ range 6,
      mix (cells'.withRate (halfWord ((stateWords s).drop (8 * i)))) = mix (cells'.withRate (quarterLane ((dataLanes s).drop (4 * i)))) := by
    intro cells' i hi
    rw [Cells.withRate_of_rate fun k hk => halfWord_unpadded s (mem_range.mp hi) hk]
  rw [sysPoseidon2, foldl_ext _ _ _ hrate]
  exact foldl_withRate_congr mix (Cells.capacity_ofCapacity cells) (fun i => quarterLane ((dataLanes s).drop (4 * i))) 6

theorem sysPoseidon2_one (cells : Cells) (bufIn : List (BitVec 32)) :
    sysPoseidon2 mix cells.capacity bufIn 1 = (mix (cells.withRate (halfWord bufIn))).capacity := by
  rw [sysPoseidon2, range_one, foldl_cons, foldl_nil, Nat.mul_zero, drop_zero,
    Cells.withRate_congr (Cells.capacity_ofCapacity cells)]

theorem commitSingleKeccak_capacity (cells : Cells) (s : KeccakState) :
    commitSingleKeccak mix cells.capacity s = (absorbState mix cells s).capacity := by
  rw [commitSingleKeccak, sysPoseidon2_six, lastWords_eq, sysPoseidon2_one, halfWord_drop, absorbState, absorbBlocks_succ mix 6]

/-- What the guest commits around each permutation is what the host computes from the inputs. -/
theorem commit_eq_computeKeccakDigest (inputs : List KeccakState) :
    inputs.foldl (fun claim input => commitSingleKeccak mix (commitSingleKeccak mix claim input) (f1600 input)) .zero =
      computeKeccakDigest mix inputs := by
  suffices h : ∀ cells : Cells,
      inputs.foldl (fun claim input => commitSingleKeccak mix (commitSingleKeccak mix claim input) (f1600 input)) cells.capacity =
        (inputs.foldl (absorbPair mix) cells).capacity by
    rw [computeKeccakDigest_eq, ← h, Cells.capacity_zero]
  intro cells
  induction inputs generalizing cells with
  | nil => rfl
  | cons input inputs ih =>
    rw [foldl_cons, foldl_cons, commitSingleKeccak_capacity, commitSingleKeccak_capacity]
    exact ih _

end VerifiableCompute.KeccakClaim
