import VerifiableCompute.WorkTree.Tree

/-! The reference tree over a set of positions, and that of a job. -/

namespace VerifiableCompute.WorkTree

open Lib Binfmt Nat BitVec

/-- The leaf `x` of a tree over these positions: bit `i` is the position `256 * x + i`. -/
def positionBitmap (position : ℕ → Bool) (x : ℕ) : Bitmap := BitVec.ofFnLE fun i : Fin 256 => position (256 * x + i)

variable (sha : Sha256)

/-- The root of the complete tree over these positions, for a node of it. -/
def referenceRoot (position : ℕ → Bool) (height index : ℕ) : Digest :=
  subtree (join sha) (fun x => hashLeaf sha (positionBitmap position x)) height index

variable {position position' : ℕ → Bool}
variable {x i height index : ℕ}

theorem positionBitmap_congr {y : ℕ} (h : ∀ i < 256, position (256 * x + i) = position' (256 * y + i)) :
    positionBitmap position x = positionBitmap position' y := by
  unfold positionBitmap
  congr 1
  funext i
  exact h i i.isLt

theorem getLsbD_positionBitmap (position : ℕ → Bool) (x : ℕ) (hi : i < 256) :
    (positionBitmap position x).getLsbD i = position (256 * x + i) := by
  rw [positionBitmap, getLsbD_ofFnLE, dif_pos hi]

theorem eq_positionBitmap {bitmap : Bitmap} (h : ∀ i < 256, bitmap.getLsbD i = position (256 * x + i)) :
    bitmap = positionBitmap position x := by
  apply eq_of_getLsbD_eq
  intro i hi
  rw [h i hi, getLsbD_positionBitmap position x hi]

theorem position_div (hi : i < 256) : (256 * x + i) / 2 ^ (height + 8) = x / 2 ^ height := by
  have hx : (256 * x + i) / 2 ^ 8 = x := by omega
  rw [Nat.add_comm height 8, pow_add, ← Nat.div_div_eq_div_mul, hx]

variable {sha}

theorem referenceRoot_eq_empty (h : ∀ y, y / 2 ^ (height + 8) = index → position y = false) :
    referenceRoot sha position height index = emptySubtreeRoots sha height := by
  apply subtree_of_leaves fun k _ => rfl
  intro x hx
  have hzero : (0 : Bitmap) = positionBitmap position x := by
    apply eq_positionBitmap
    intro i hi
    rw [h (256 * x + i) ((position_div hi).trans hx)]
    simp
  rw [← hzero, emptySubtreeRoots]

theorem referenceRoot_eq_full (h : ∀ y, y / 2 ^ (height + 8) = index → position y = true) :
    referenceRoot sha position height index = fullSubtreeRoots sha height := by
  apply subtree_of_leaves fun k _ => rfl
  intro x hx
  have hones : allOnes 256 = positionBitmap position x := by
    apply eq_positionBitmap
    intro i hi
    rw [h (256 * x + i) ((position_div hi).trans hx), getLsbD_allOnes]
    simp [hi]
  rw [← hones, fullSubtreeRoots]

theorem referenceRoot_succ (position : ℕ → Bool) (height index : ℕ) : referenceRoot sha position (height + 1) index =
      join sha (referenceRoot sha position height (2 * index)) (referenceRoot sha position height (2 * index + 1)) := rfl

theorem fromBitRange_getLsbD {k : ℕ} (hk : k ≤ 256) (hi : i < 256) :
    (Bitmap.fromBitRange 0 k).getLsbD i = decide (i < k) := by
  have hnat : Bitmap.fromBitRange 0 k = BitVec.ofNat 256 (2 ^ k - 1) := by
    have hpow : 2 ^ k ≤ 2 ^ 256 := Nat.pow_le_pow_right (by decide) hk
    have hpos : 0 < 2 ^ k := by positivity
    apply eq_of_toNat_eq
    rw [Bitmap.fromBitRange, BitVec.shiftLeft_zero, toNat_sub, toNat_shiftLeft, toNat_ofNat,
      toNat_ofNat, Nat.shiftLeft_eq]
    rcases Nat.lt_or_ge (2 ^ k) (2 ^ 256) with hlt | hge
    · rw [one_mod_eq_one.mpr (by decide), Nat.one_mul, mod_eq_of_lt hlt]
      omega
    · rw [one_mod_eq_one.mpr (by decide), Nat.one_mul, le_antisymm hpow hge, mod_self, Nat.add_zero]
  rw [hnat, getLsbD_ofNat, testBit_two_pow_sub_one]
  simp [hi]

namespace Job

theorem bitmapAt_eq (job : Job) (index : ℕ) : job.bitmapAt index = positionBitmap job.contains (index / 256) := by
  apply eq_positionBitmap
  intro i hi
  unfold bitmapAt contains
  cases job.indexMax with
  | none => simp
  | some max =>
    have hand : max.toNat &&& 0xff = max.toNat % 256 := and_two_pow_sub_one_eq_mod max.toNat 8
    simp only [shiftRight_eq_div_pow, hand]
    by_cases hlt : index / 2 ^ 8 < max.toNat / 2 ^ 8
    · rw [if_pos hlt, getLsbD_allOnes, decide_eq_true hi]
      symm
      apply decide_eq_true
      omega
    · rw [if_neg hlt]
      by_cases heq : index / 2 ^ 8 = max.toNat / 2 ^ 8
      · rw [if_pos heq, fromBitRange_getLsbD (by omega) hi]
        apply decide_eq_decide.mpr
        omega
      · rw [if_neg heq, ofNat_eq_ofNat, getLsbD_zero]
        symm
        apply decide_eq_false
        omega

variable {job : Job} {max : BitVec 32} {height index : ℕ}

theorem referenceRoot_full (sha : Sha256) (hjob : job.indexMax = some max)
    (h : index < max.toNat / 2 ^ (height + 8)) : referenceRoot sha job.contains height index = fullSubtreeRoots sha height := by
  apply referenceRoot_eq_full
  intro y hy
  rw [contains, hjob]
  apply decide_eq_true
  by_contra hlt
  have := Nat.div_le_div_right (c := 2 ^ (height + 8)) (not_le.mp hlt).le
  omega

theorem referenceRoot_empty (sha : Sha256) (hjob : job.indexMax = some max)
    (h : max.toNat / 2 ^ (height + 8) < index) : referenceRoot sha job.contains height index = emptySubtreeRoots sha height := by
  apply referenceRoot_eq_empty
  intro y hy
  rw [contains, hjob]
  apply decide_eq_false
  intro hle
  have := Nat.div_le_div_right (c := 2 ^ (height + 8)) hle
  omega

theorem boundarySubtree_eq (sha : Sha256) (hjob : job.indexMax = some max) (height : ℕ) :
    job.boundarySubtree sha max height =
      (referenceRoot sha job.contains height (max.toNat / 2 ^ (height + 8)), max.toNat / 2 ^ (height + 8)) := by
  induction height with
  | zero => rw [boundarySubtree, bitmapAt_eq, shiftRight_eq_div_pow]; rfl
  | succ i ih =>
    obtain ⟨n, hn⟩ : ∃ n, n = max.toNat / 2 ^ (i + 8) := ⟨_, rfl⟩
    have hhalf : max.toNat / 2 ^ (i + 1 + 8) = n / 2 := by
      rw [hn, Nat.div_div_eq_div_mul, ← pow_succ, Nat.add_right_comm]
    rw [boundarySubtree, ih, ← hn, hhalf]
    simp only [and_one_is_mod, shiftRight_one, Prod.mk.injEq, and_true]
    rw [referenceRoot_succ]
    by_cases hodd : n % 2 = 1
    · have hself : n = 2 * (n / 2) + 1 := by omega
      have hleft : 2 * (n / 2) < max.toNat / 2 ^ (i + 8) := by omega
      rw [if_pos hodd, referenceRoot_full sha hjob hleft, ← hself]
    · have hself : n = 2 * (n / 2) := by omega
      have hright : max.toNat / 2 ^ (i + 8) < 2 * (n / 2) + 1 := by omega
      rw [if_neg hodd, referenceRoot_empty sha hjob hright, ← hself]

theorem subtreeRoot_eq (sha : Sha256) (job : Job) (hheight : height ≤ treeHeight)
    (hindex : index < 2 ^ (treeHeight - height)) :
    job.subtreeRoot sha height index = .ok (referenceRoot sha job.contains height index) := by
  have hindex' : ¬ ¬ index < 1 <<< (treeHeight - height) := by
    rw [one_shiftLeft]
    exact not_not.mpr hindex
  rw [subtreeRoot, if_neg (not_lt.mpr hheight), if_neg hindex']
  by_cases hzero : height = 0
  · have hleaf : index <<< 8 / 256 = index := by
      rw [Nat.shiftLeft_eq]
      omega
    rw [if_pos hzero, hzero, bitmapAt_eq, hleaf]
    rfl
  · rw [if_neg hzero]
    cases hjob : job.indexMax with
    | none =>
      have hnone : ∀ y, y / 2 ^ (height + 8) = index → job.contains y = false := by
        intro y _
        rw [contains, hjob]
      rw [referenceRoot_eq_empty hnone]
    | some max =>
      have hshift : max.toNat >>> (8 + height) = max.toNat / 2 ^ (height + 8) := by
        rw [shiftRight_eq_div_pow, Nat.add_comm]
      simp only [hshift, boundarySubtree_eq sha hjob]
      by_cases hlt : index < max.toNat / 2 ^ (height + 8)
      · rw [if_pos hlt, referenceRoot_full sha hjob hlt]
      · rw [if_neg hlt]
        by_cases heq : index = max.toNat / 2 ^ (height + 8)
        · rw [if_pos heq, heq]
        · rw [if_neg heq, referenceRoot_empty sha hjob (by omega)]

theorem commit_eq (sha : Sha256) (job : Job) : job.commit sha = .ok (referenceRoot sha job.contains treeHeight 0) :=
  job.subtreeRoot_eq sha le_rfl (by decide)

end Job

end VerifiableCompute.WorkTree
