import VerifiableCompute.KeccakClaim.Types

/-! The rounds of the permutation as the trace generator steps through them: columns' parities,
the lanes moved in place along one cycle, the rows. After 24 rounds they are Keccak-f[1600]. -/

namespace VerifiableCompute.KeccakClaim

open Lib Keccak Nat

abbrev ThetaB := Vector (BitVec 64) 5

def KECCAK_IOTA : List (BitVec 64) :=
  [0x0000000000000001, 0x0000000000008082, 0x800000000000808a, 0x8000000080008000,
   0x000000000000808b, 0x0000000080000001, 0x8000000080008081, 0x8000000000008009,
   0x000000000000008a, 0x0000000000000088, 0x0000000080008009, 0x000000008000000a,
   0x000000008000808b, 0x800000000000008b, 0x8000000000008089, 0x8000000000008003,
   0x8000000000008002, 0x8000000000000080, 0x000000000000800a, 0x800000008000000a,
   0x8000000080008081, 0x8000000000008080, 0x0000000080000001, 0x8000000080008008]

def KECCAK_RHO : List ℕ :=
  [1, 3, 6, 10, 15, 21, 28, 36, 45, 55, 2, 14, 27, 41, 56, 8, 25, 43, 62, 18, 39, 61, 20, 44]

def KECCAK_PI : List (Fin 25) :=
  [10, 7, 11, 17, 18, 3, 5, 16, 8, 21, 24, 4, 15, 23, 19, 13, 12, 2, 20, 14, 22, 9, 6, 1]

section

variable (s : KeccakState)

def laneAt (k : ℕ) : BitVec 64 := s.get (Fin.ofNat 25 k)

def thetaP1 : ThetaB :=
  .ofFn fun i => laneAt s i ^^^ laneAt s (i + 5) ^^^ laneAt s (i + 10) ^^^ laneAt s (i + 15) ^^^ laneAt s (i + 20)

/-- The parities of two columns, xored into each lane of the column between them. -/
def thetaP2 (bc : ThetaB) : KeccakState :=
  .ofFn fun k =>
    let i := k.val % 5
    s.get k ^^^ (bc.get (Fin.ofNat 5 (i + 4)) ^^^ (bc.get (Fin.ofNat 5 (i + 1))).rotateLeft 1)

/-- Each lane is rotated into the next place of a cycle. The lane to place is `t1`. -/
def rotateCycle : List (Fin 25 × ℕ) → KeccakState → BitVec 64 → KeccakState
  | [], s, _ => s
  | (pi, rho) :: cycle, s, t1 =>
    let t2 := s.get pi
    rotateCycle cycle (s.set pi (t1.rotateLeft rho) pi.isLt) t2

def rhoPi : KeccakState := rotateCycle (KECCAK_PI.zip KECCAK_RHO) s (laneAt s 1)

def thetaP2RhoPi (bc : ThetaB) : KeccakState := rhoPi (thetaP2 s bc)

/-- Each lane against the next two of its row. -/
def chiRows : KeccakState :=
  .ofFn fun k =>
    let j := k.val / 5 * 5
    s.get k ^^^ (~~~ laneAt s (j + (k + 1) % 5) &&& laneAt s (j + (k + 2) % 5))

def chiIota (round : ℕ) : KeccakState :=
  let s := chiRows s
  s.set 0 (laneAt s 0 ^^^ KECCAK_IOTA.getD round 0) (Nat.succ_pos 24)

def keccakRound (round : ℕ) : KeccakState := chiIota (thetaP2RhoPi s (thetaP1 s)) round

def toLanes : Keccak.Lanes := s.toList.map (·.toNat)

end

variable {k n : ℕ} {cycle : List (Fin 25 × ℕ)}
variable (s : KeccakState)

theorem laneAt_eq (hk : k < 25) : laneAt s k = s[k] := by
  have hindex : Fin.ofNat 25 k = ⟨k, hk⟩ := Fin.ext (mod_eq_of_lt hk)
  rw [laneAt, hindex]
  rfl

theorem toLanes_length : (toLanes s).length = 25 := by
  simp [toLanes]

theorem toLanes_getElem (hk : k < (toLanes s).length) : (toLanes s)[k] = (laneAt s k).toNat := by
  have hlt : k < 25 := toLanes_length s ▸ hk
  rw [laneAt_eq s hlt]
  simp [toLanes]

theorem lane_toLanes (x y : ℕ) : lane (toLanes s) x y = (laneAt s (x % 5 + 5 * (y % 5))).toNat := by
  rw [lane, List.getD_eq_getElem _ _ (by rw [toLanes_length]; omega), toLanes_getElem]

theorem ofLanes_eq_toLanes {f : ℕ → ℕ → ℕ} {s : KeccakState} (h : ∀ k < 25, f (k % 5) (k / 5) = (laneAt s k).toNat) :
    ofLanes f = toLanes s := by
  apply List.ext_getElem
  · rw [toLanes_length]
    simp [ofLanes]
  · intro k hk hk'
    rw [toLanes_getElem, ← h k (toLanes_length s ▸ hk')]
    simp [ofLanes]

theorem rotl_toNat (x : BitVec 64) (hn : n < 64) : rotl x.toNat n = (x.rotateLeft n).toNat := by
  have hsmall : x.toNat >>> (64 - n) < 2 ^ 64 := by
    rw [shiftRight_eq_div_pow]
    exact lt_of_le_of_lt (Nat.div_le_self ..) x.isLt
  rw [rotl, BitVec.toNat_rotateLeft, mod_eq_of_lt hn, or_mod_two_pow, mod_eq_of_lt hsmall]

theorem rotateLeft_zero (x : BitVec 64) : x.rotateLeft 0 = x := by
  apply BitVec.eq_of_toNat_eq
  rw [BitVec.toNat_rotateLeft, shiftRight_eq_div_pow, zero_mod, Nat.sub_zero, div_eq_of_lt x.isLt, Nat.or_zero,
    Nat.shiftLeft_zero, mod_eq_of_lt x.isLt]

/-- Where the lane at place `k` comes from after a cycle that starts with the lane at `from`. -/
def cycleSource : List (Fin 25 × ℕ) → Fin 25 → Fin 25 → Option (Fin 25 × ℕ)
  | [], _, _ => none
  | (pi, rho) :: cycle, start, k => if k = pi then some (start, rho) else cycleSource cycle pi k

theorem cycleSource_of_not_mem {k : Fin 25} (h : k ∉ cycle.map Prod.fst) (start : Fin 25) :
    cycleSource cycle start k = none := by
  induction cycle generalizing start with
  | nil => rfl
  | cons head cycle ih =>
    rw [List.map_cons, List.mem_cons, not_or] at h
    rw [cycleSource, if_neg h.1, ih h.2]

theorem rotateCycle_get (hnodup : (cycle.map Prod.fst).Nodup) {s' : KeccakState}
    (hsame : ∀ p ∈ cycle.map Prod.fst, s'.get p = s.get p) (start k : Fin 25) :
    (rotateCycle cycle s' (s.get start)).get k =
      (cycleSource cycle start k).elim (s'.get k) fun source => (s.get source.1).rotateLeft source.2 := by
  induction cycle generalizing s' start with
  | nil => rfl
  | cons head cycle ih =>
    obtain ⟨pi, rho⟩ := head
    obtain ⟨hfresh, hnodup⟩ := List.nodup_cons.mp hnodup
    have hpi : s'.get pi = s.get pi := hsame pi List.mem_cons_self
    have hrest : ∀ p ∈ cycle.map Prod.fst, (s'.set pi ((s.get start).rotateLeft rho) pi.isLt).get p = s.get p := by
      intro p hp
      have hne : pi ≠ p := fun heq => hfresh (heq ▸ hp)
      rw [← hsame p (List.mem_cons_of_mem _ hp)]
      exact Vector.getElem_set_ne pi.isLt p.isLt fun heq => hne (Fin.ext heq)
    rw [rotateCycle, hpi, ih hnodup hrest, cycleSource]
    by_cases hk : k = pi
    · rw [if_pos hk, hk, cycleSource_of_not_mem hfresh]
      exact Vector.getElem_set_self pi.isLt
    · rw [if_neg hk]
      congr 1
      exact Vector.getElem_set_ne pi.isLt k.isLt fun heq => hk (Fin.ext heq.symm)

/-- The lane that the step moves to place `k`. -/
def piSource (k : ℕ) : ℕ := (k % 5 + 3 * (k / 5)) % 5 + 5 * (k % 5)

def rhoOffset (k : ℕ) : ℕ := Keccak.rotationOffsets.getD (piSource k) 0

/-- The cycle passes every place but the first, with the offsets of the specification. -/
theorem cycleSource_eq : ∀ k : Fin 25, cycleSource (KECCAK_PI.zip KECCAK_RHO) 1 k =
    if k = 0 then none else some (Fin.ofNat 25 (piSource k), rhoOffset k) := by
  decide

theorem rhoPi_get (hk : k < 25) : laneAt (rhoPi s) k = (laneAt s (piSource k)).rotateLeft (rhoOffset k) := by
  have hget := rotateCycle_get s (by decide : ((KECCAK_PI.zip KECCAK_RHO).map Prod.fst).Nodup) (fun _ _ => rfl) 1 (Fin.ofNat 25 k)
  rw [cycleSource_eq] at hget
  rw [laneAt, rhoPi, show laneAt s 1 = s.get 1 from rfl, hget]
  split
  · rename_i hzero
    have hk0 : k = 0 := by
      have := congrArg Fin.val hzero
      simpa [mod_eq_of_lt hk] using this
    subst hk0
    exact (rotateLeft_zero _).symm
  · rw [Fin.val_ofNat, mod_eq_of_lt hk]
    rfl

theorem rhoPi_toLanes : Keccak.rhoPi (toLanes s) = toLanes (rhoPi s) := by
  apply ofLanes_eq_toLanes
  intro k hk
  have hsource : (k % 5 + 3 * (k / 5)) % 5 + 5 * (k % 5 % 5) = piSource k := by
    rw [piSource, mod_mod]
  have hoffset : rhoOffset k < 64 := by
    interval_cases k <;> decide
  rw [rhoPi_get s hk, lane_toLanes, Keccak.lane, hsource]
  exact rotl_toNat _ hoffset

theorem getD_map_range {f : ℕ → ℕ} (h : k < n) : ((List.range n).map f).getD k 0 = f k := by
  simp [h]

theorem column_toLanes {x : ℕ} (hx : x < 5) :
    lane (toLanes s) x 0 ^^^ lane (toLanes s) x 1 ^^^ lane (toLanes s) x 2 ^^^ lane (toLanes s) x 3 ^^^
      lane (toLanes s) x 4 = ((thetaP1 s).get ⟨x, hx⟩).toNat := by
  simp only [lane_toLanes, ← BitVec.toNat_xor, mod_eq_of_lt hx]
  have h : (thetaP1 s).get ⟨x, hx⟩ = laneAt s x ^^^ laneAt s (x + 5) ^^^ laneAt s (x + 10) ^^^ laneAt s (x + 15) ^^^ laneAt s (x + 20) :=
    Vector.getElem_ofFn ..
  rw [h]
  rfl

theorem theta_toLanes : theta (toLanes s) = toLanes (thetaP2 s (thetaP1 s)) := by
  rw [theta]
  apply ofLanes_eq_toLanes
  intro k hk
  have hnext : (k % 5 + 4) % 5 < 5 := mod_lt _ (by decide)
  have hprev : (k % 5 + 1) % 5 < 5 := mod_lt _ (by decide)
  have hlane : laneAt (thetaP2 s (thetaP1 s)) k = laneAt s k ^^^
      ((thetaP1 s).get ⟨_, hnext⟩ ^^^ ((thetaP1 s).get ⟨_, hprev⟩).rotateLeft 1) := by
    rw [laneAt_eq _ hk, laneAt_eq _ hk]
    exact Vector.getElem_ofFn ..
  rw [getD_map_range (by omega), getD_map_range hnext, getD_map_range hprev, column_toLanes s hnext, column_toLanes s hprev,
    rotl_toNat _ (by decide), lane_toLanes, hlane, BitVec.toNat_xor, BitVec.toNat_xor, show k % 5 % 5 + 5 * (k / 5 % 5) = k by omega]

theorem toNat_not_and (a b : BitVec 64) : (2 ^ 64 - 1 - a.toNat) &&& b.toNat = (~~~ a &&& b).toNat := by
  rw [BitVec.toNat_and, BitVec.toNat_not]

theorem chi_toLanes : chi (toLanes s) = toLanes (chiRows s) := by
  apply ofLanes_eq_toLanes
  intro k hk
  have hlane : laneAt (chiRows s) k = laneAt s k ^^^ (~~~ laneAt s (k / 5 * 5 + (k + 1) % 5) &&& laneAt s (k / 5 * 5 + (k + 2) % 5)) := by
    rw [laneAt_eq _ hk, laneAt_eq _ hk]
    exact Vector.getElem_ofFn ..
  rw [lane_toLanes, lane_toLanes, lane_toLanes, toNat_not_and, hlane, BitVec.toNat_xor,
    show k % 5 % 5 + 5 * (k / 5 % 5) = k by omega, show (k % 5 + 1) % 5 + 5 * (k / 5 % 5) = k / 5 * 5 + (k + 1) % 5 by omega,
    show (k % 5 + 2) % 5 + 5 * (k / 5 % 5) = k / 5 * 5 + (k + 2) % 5 by omega]

theorem iota_toLanes (rc : BitVec 64) :
    iota rc.toNat (toLanes s) = toLanes (s.set 0 (laneAt s 0 ^^^ rc) (Nat.succ_pos 24)) := by
  apply List.ext_getElem
  · simp [iota, toLanes]
  · intro k hk hk'
    rw [toLanes_getElem, laneAt_eq _ (toLanes_length _ ▸ hk')]
    by_cases hzero : k = 0
    · subst hzero
      simp [iota, toLanes_getElem]
    · simp [iota, toLanes_getElem, laneAt_eq _ (toLanes_length _ ▸ hk'), Ne.symm hzero]

theorem round_toLanes (round : ℕ) :
    Keccak.iota (KECCAK_IOTA.getD round 0).toNat (Keccak.chi (Keccak.rhoPi (Keccak.theta (toLanes s)))) = toLanes (keccakRound s round) := by
  rw [theta_toLanes, rhoPi_toLanes, chi_toLanes, iota_toLanes]
  rfl

theorem roundConstants_eq : roundConstants = (List.range 24).map fun round => (KECCAK_IOTA.getD round 0).toNat := by
  decide

theorem permutation_toLanes : Keccak.permutation (toLanes s) = toLanes ((List.range 24).foldl keccakRound s) := by
  rw [Keccak.permutation, roundConstants_eq, List.foldl_map]
  generalize List.range 24 = rounds
  induction rounds generalizing s with
  | nil => rfl
  | cons round rounds ih =>
    rw [List.foldl_cons, List.foldl_cons, round_toLanes]
    exact ih _

theorem rounds_eq_f1600 : (List.range 24).foldl keccakRound s = f1600 s := by
  apply Vector.ext
  intro i hi
  rw [f1600]
  simp only [Vector.getElem_ofFn]
  rw [← toLanes, permutation_toLanes, List.getD_eq_getElem _ _ (by rw [toLanes_length]; exact hi), toLanes_getElem,
    laneAt_eq _ hi, BitVec.ofNat_toNat, BitVec.setWidth_eq]

end VerifiableCompute.KeccakClaim
