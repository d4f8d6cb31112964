import VerifiableCompute.WorkTree.Reference

/-! Sparse levels. A level holds the roots of some subtrees under a node; those it leaves
out are empty. Going up keeps this, and the last level holds the root alone. -/

namespace VerifiableCompute.WorkTree

open Lib Binfmt List OrderedMap

variable {sha : Sha256} {position : ℕ → Bool} {level : OrderedMap ℕ Digest}

/-- The level at height `i` holds roots of subtrees under the node `index`, which is `up`
levels higher, and every root there that is not the empty one. -/
structure Holds (sha : Sha256) (position : ℕ → Bool) (i up index : ℕ) (level : OrderedMap ℕ Digest) : Prop where
  root : ∀ {k digest}, level.get? k = some digest → digest = referenceRoot sha position i k
  under : ∀ {k digest}, level.get? k = some digest → k / 2 ^ up = index
  missing : ∀ {k}, k / 2 ^ up = index → level.get? k = none → referenceRoot sha position i k = emptySubtreeRoots sha i
  nonempty : ∃ k digest, level.get? k = some digest

namespace Holds

variable {i up index : ℕ}
variable {k : ℕ}

theorem getD (h : Holds sha position i up index level) (hk : k / 2 ^ up = index) :
    (level.get? k).getD (emptySubtreeRoots sha i) = referenceRoot sha position i k := by
  cases hget : level.get? k with
  | some digest => exact h.root hget
  | none => exact (h.missing hk hget).symm

theorem nextLevel_get? (level : OrderedMap ℕ Digest) (k : ℕ) : (nextLevel sha i level).get? k =
      if k ∈ level.entries.map (fun e => e.1 >>> 1) then
        some (join sha ((level.get? (k <<< 1)).getD (emptySubtreeRoots sha i))
          ((level.get? ((k <<< 1) ^^^ 1)).getD (emptySubtreeRoots sha i)))
      else none := by
  rw [nextLevel, get?_foldl_insert_fun, get?_empty]

theorem mem_nextKeys : k ∈ level.entries.map (fun e => e.1 >>> 1) ↔ ∃ k' digest, level.get? k' = some digest ∧ k' / 2 = k := by
  simp only [mem_map, Prod.exists, mem_entries_iff, Nat.shiftRight_one]

theorem next (h : Holds sha position i (up + 1) index level) : Holds sha position (i + 1) up index (nextLevel sha i level) := by
  have hunder (k c : ℕ) (hc : c / 2 = k) (hk : k / 2 ^ up = index) : c / 2 ^ (up + 1) = index := by
    rw [pow_succ', ← Nat.div_div_eq_div_mul, hc, hk]
  have hup (k : ℕ) (hk : k ∈ level.entries.map fun e => e.1 >>> 1) : k / 2 ^ up = index := by
    obtain ⟨k', digest, hget, rfl⟩ := mem_nextKeys.mp hk
    rw [Nat.div_div_eq_div_mul, ← pow_succ', h.under hget]
  have hleft (k : ℕ) : k <<< 1 = 2 * k := by
    rw [Nat.shiftLeft_eq]
    omega
  have hright (k : ℕ) : 2 * k ^^^ 1 = 2 * k + 1 := Nat.xor_one_of_even (even_two_mul k)
  constructor
  · intro k digest hget
    rw [nextLevel_get?] at hget
    by_cases hk : k ∈ level.entries.map fun e => e.1 >>> 1
    · have hunder := hunder k
      rw [if_pos hk, hleft, hright, h.getD (hunder (2 * k) (by omega) (hup k hk)),
        h.getD (hunder (2 * k + 1) (by omega) (hup k hk)), ← referenceRoot_succ] at hget
      exact (Option.some.inj hget).symm
    · rw [if_neg hk] at hget
      cases hget
  · intro k digest hget
    rw [nextLevel_get?] at hget
    by_cases hk : k ∈ level.entries.map fun e => e.1 >>> 1
    · exact hup k hk
    · rw [if_neg hk] at hget
      cases hget
  · intro k hk hget
    rw [nextLevel_get?] at hget
    have hnot : k ∉ level.entries.map fun e => e.1 >>> 1 := by
      intro hmem
      rw [if_pos hmem] at hget
      cases hget
    have hchild (c : ℕ) (hc : c / 2 = k) : referenceRoot sha position i c = emptySubtreeRoots sha i := by
      apply h.missing (hunder k c hc hk)
      cases hget : level.get? c with
      | none => rfl
      | some digest => exact absurd (mem_nextKeys.mpr ⟨c, digest, hget, hc⟩) hnot
    rw [referenceRoot_succ, emptySubtreeRoots, hchild (2 * k) (by omega), hchild (2 * k + 1) (by omega)]
  · obtain ⟨k, digest, hget⟩ := h.nonempty
    exact ⟨k / 2, _, (nextLevel_get? level (k / 2)).trans (if_pos (mem_nextKeys.mpr ⟨k, digest, hget, rfl⟩))⟩

theorem climb (h : Holds sha position i up index level) :
    Holds sha position (i + up) 0 index ((range' i up).foldl (fun level i => nextLevel sha i level) level) := by
  induction up generalizing i level with
  | zero => exact h
  | succ up ih =>
    rw [range'_succ, foldl_cons, Nat.add_succ, ← Nat.succ_add]
    exact ih h.next

theorem entries_eq (h : Holds sha position i 0 index level) : level.entries = [(index, referenceRoot sha position i index)] := by
  have hentry : ∀ e ∈ level.entries, e = (index, referenceRoot sha position i index) := by
    rintro ⟨k, digest⟩ he
    rw [mem_entries_iff] at he
    have hk : k = index := by
      have := h.under he
      rwa [pow_zero, Nat.div_one] at this
    rw [h.root he, hk]
  have hnodup := level.nodup_keys
  match hentries : level.entries with
  | [] =>
    obtain ⟨k, digest, hget⟩ := h.nonempty
    rw [← mem_entries_iff, hentries] at hget
    cases hget
  | [e] => rw [hentry e (by rw [hentries]; simp)]
  | e :: e' :: l =>
    rw [hentries] at hnodup hentry
    rw [hentry e (by simp), hentry e' (by simp)] at hnodup
    simp at hnodup

end Holds

variable {base up index : ℕ}

theorem referenceRoot_of_missing
    (h : ∀ k, k / 2 ^ up = index → referenceRoot sha position base k = emptySubtreeRoots sha base) :
    referenceRoot sha position (base + up) index = emptySubtreeRoots sha (base + up) := by
  rw [Nat.add_comm base up, referenceRoot, subtree_add]
  apply subtree_of_leaves (z := fun i => emptySubtreeRoots sha (i + base))
  · intro k _
    rw [Nat.succ_add, emptySubtreeRoots]
  · intro x hx
    rw [Nat.zero_add]
    exact h x hx

theorem levelRoot_eq
    (hroot : ∀ {k digest}, level.get? k = some digest → digest = referenceRoot sha position base k ∧ k / 2 ^ up = index)
    (hmissing : ∀ {k}, k / 2 ^ up = index → level.get? k = none →
      referenceRoot sha position base k = emptySubtreeRoots sha base) :
    levelRoot sha base (base + up) level = .ok (referenceRoot sha position (base + up) index) := by
  rw [levelRoot]
  by_cases hnil : level.entries = []
  · rw [if_pos hnil, referenceRoot_of_missing fun k hk => hmissing hk ?_]
    rw [get?, hnil]
    rfl
  · obtain ⟨⟨k, digest⟩, hmem⟩ := exists_mem_of_ne_nil _ hnil
    have hholds : Holds sha position base up index level :=
      ⟨fun hget => (hroot hget).1, fun hget => (hroot hget).2, hmissing, ⟨k, digest, mem_entries_iff.mp hmem⟩⟩
    rw [if_neg hnil, Nat.add_sub_cancel_left]
    simp only [hholds.climb.entries_eq]

/-! The roots of work logs and work sets. A tree over a map from numbers to trees of one
height agrees with them below that height and goes up by levels above it. -/

open WordOrder

variable {sha : Sha256} {position : ℕ → Bool}

section Blocks

variable {w k : ℕ} {V : Type} {m : OrderedMap (BitVec w) V} {empty : V} {inner : V → ℕ → Bool}

def Blocks (k : ℕ) (m : OrderedMap (BitVec w) V) (empty : V) (inner : V → ℕ → Bool) (position : ℕ → Bool) : Prop :=
  ∀ y, position y = inner ((m.get? (.ofNat w (y / 2 ^ (k + 8)))).getD empty) (y % 2 ^ (k + 8))

theorem position_mod {x i : ℕ} (hi : i < 256) : (256 * x + i) % 2 ^ (k + 8) = 256 * (x % 2 ^ k) + i := by
  have hmod : (256 * x + i) % 2 ^ 8 = i := by omega
  have hdiv : (256 * x + i) / 2 ^ 8 = x := by omega
  rw [Nat.add_comm k 8, pow_add, Nat.mod_mul, hmod, hdiv]
  omega

section

variable (h : Blocks k m empty inner position)

include h

theorem Blocks.positionBitmap (x : ℕ) : positionBitmap position x =
    WorkTree.positionBitmap (inner ((m.get? (.ofNat w (x / 2 ^ k))).getD empty)) (x % 2 ^ k) := by
  apply positionBitmap_congr
  intro i hi
  rw [h, position_div hi, position_mod hi]

theorem Blocks.bitmapAt (index : ℕ) :
    WorkTree.positionBitmap (inner ((m.get? (.ofNat w (index >>> (k + 8)))).getD empty)) (index % 2 ^ (k + 8) / 256) =
      WorkTree.positionBitmap position (index / 256) := by
  have hbits : 256 = 2 ^ 8 := rfl
  have hdiv : index >>> (k + 8) = index / 256 / 2 ^ k := by
    rw [hbits, Nat.shiftRight_eq_div_pow, Nat.div_div_eq_div_mul, Nat.add_comm, pow_add]
  have hmod : index % 2 ^ (k + 8) / 256 = index / 256 % 2 ^ k := by
    rw [hbits, Nat.add_comm, pow_add, Nat.mod_mul_right_div_self]
  rw [h.positionBitmap, hdiv, hmod]

theorem Blocks.referenceRoot {height : ℕ} (hle : height ≤ k) (index : ℕ) : referenceRoot sha position height index =
      WorkTree.referenceRoot sha (inner ((m.get? (.ofNat w (index / 2 ^ (k - height)))).getD empty)) height
        (index % 2 ^ (k - height)) := by
  rw [WorkTree.referenceRoot, funext fun x => congrArg (hashLeaf sha) (h.positionBitmap x)]
  exact subtree_split (fun b x => hashLeaf sha (WorkTree.positionBitmap (inner ((m.get? (.ofNat w b)).getD empty)) x)) hle index

end

theorem mapM_ok {A B : Type} (f : A → Except TreeError B) (g : A → B) (l : List A) (h : ∀ a, f a = .ok (g a)) :
    l.mapM f = .ok (l.map g) := by
  induction l with
  | nil => rfl
  | cons a l ih =>
    rw [mapM_cons, h a, ih]
    rfl

variable {commit : V → Except TreeError Digest}

theorem startLevel_get? {root : V → Digest} (hcommit : ∀ v, commit v = .ok (root v))
    (up index : ℕ) (m : OrderedMap (BitVec w) V) :
    ∃ level, startLevel commit up index m = .ok level ∧ ∀ n digest, level.get? n = some digest ↔
      ∃ id v, m.get? id = some v ∧ id.toNat / 2 ^ up = index ∧ id.toNat = n ∧ root v = digest := by
  obtain ⟨l, hl⟩ : ∃ l, l = m.entries.filter fun e => e.1.toNat >>> up = index := ⟨_, rfl⟩
  have hmap : (l.mapM fun e : BitVec w × V => (do return (e.1.toNat, ← commit e.2) : Except TreeError (ℕ × Digest))) =
      .ok (l.map fun e => (e.1.toNat, root e.2)) :=
    mapM_ok _ _ l fun e => by rw [hcommit]; rfl
  have hnodup : ((l.map fun e => (e.1.toNat, root e.2)).map Prod.fst).Nodup := by
    have hkeys : (l.map Prod.fst).Nodup := hl ▸ (filter_sublist.map _).nodup m.nodup_keys
    rw [map_map]
    have hnat := hkeys.map (f := BitVec.toNat) fun _ _ => BitVec.eq_of_toNat_eq
    rwa [map_map] at hnat
  refine ⟨.ofList (l.map fun e => (e.1.toNat, root e.2)), ?_, fun n digest => ?_⟩
  · rw [startLevel, ← hl, hmap]
    rfl
  · rw [get?_ofList hnodup, hl]
    simp only [mem_map, mem_filter, Prod.exists, mem_entries_iff, Prod.mk.injEq,
      Nat.shiftRight_eq_div_pow, decide_eq_true_eq, and_assoc]

/-- Up to the height of the blocks a root is that of its block. -/
theorem Blocks.subtreeRoot (h : Blocks k m empty inner position) {subtreeRoot : V → ℕ → ℕ → Except TreeError Digest} {height index : ℕ}
    (hlow : height ≤ k) (hroot : ∀ v {index}, index < 2 ^ (k - height) →
      subtreeRoot v height index = .ok (WorkTree.referenceRoot sha (inner v) height index)) :
    subtreeRoot ((m.get? (.ofNat w (index >>> (k - height)))).getD empty) height (index &&& (1 <<< (k - height) - 1)) =
      .ok (WorkTree.referenceRoot sha position height index) := by
  rw [h.referenceRoot hlow, Nat.one_shiftLeft, Nat.and_two_pow_sub_one_eq_mod, Nat.shiftRight_eq_div_pow]
  exact hroot _ (Nat.mod_lt _ (by positivity))

theorem Blocks.levelRoot (h : Blocks k m empty inner position)
    (hcommit : ∀ v, commit v = .ok (WorkTree.referenceRoot sha (inner v) k 0)) (hempty : ∀ y, inner empty y = false)
    {height index : ℕ} (hlow : k ≤ height) (hheight : height ≤ k + w) (hindex : index < 2 ^ (k + w - height)) :
    (startLevel commit (height - k) index m >>= WorkTree.levelRoot sha k height) =
      .ok (WorkTree.referenceRoot sha position height index) := by
  obtain ⟨up, rfl⟩ := Nat.exists_eq_add_of_le hlow
  have hup : up ≤ w := Nat.le_of_add_le_add_left hheight
  rw [Nat.add_sub_add_left] at hindex
  rw [Nat.add_sub_cancel_left]
  have hblock (n : ℕ) : WorkTree.referenceRoot sha position k n =
      WorkTree.referenceRoot sha (inner ((m.get? (.ofNat w n)).getD empty)) k 0 := by
    rw [h.referenceRoot le_rfl, Nat.sub_self, pow_zero, Nat.div_one, Nat.mod_one]
  obtain ⟨level, heq, hget⟩ := startLevel_get? hcommit up index m
  rw [heq]
  apply levelRoot_eq
  · intro n digest hn
    obtain ⟨id, v, hv, hid, rfl, rfl⟩ := (hget n digest).mp hn
    refine ⟨?_, hid⟩
    rw [hblock, BitVec.ofNat_toNat, BitVec.setWidth_eq, hv]
    rfl
  · intro n hn hnone
    have hlt : n < 2 ^ w := by
      have hpow : 2 ^ (w - up) * 2 ^ up = 2 ^ w := by rw [← pow_add, Nat.sub_add_cancel hup]
      rw [← hpow]
      exact (Nat.div_lt_iff_lt_mul (by positivity)).mp (hn ▸ hindex)
    have hid : (BitVec.ofNat w n).toNat = n := by rw [BitVec.toNat_ofNat, Nat.mod_eq_of_lt hlt]
    rw [hblock]
    cases hv : m.get? (.ofNat w n) with
    | none => exact referenceRoot_eq_empty fun y _ => hempty y
    | some v =>
      have hsome := (hget n _).mpr ⟨.ofNat w n, v, hv, by rw [hid, hn], hid, rfl⟩
      rw [hnone] at hsome
      cases hsome

end Blocks

namespace WorkLog

theorem blocks (log : WorkLog) : Blocks Job.treeHeight log.jobs .EMPTY Job.contains log.contains := by
  intro y
  rw [contains, Nat.shiftRight_eq_div_pow]
  change _ = ((log.jobs.get? (.ofNat 64 (y / 2 ^ 32))).getD .EMPTY).contains (y % 2 ^ 32)
  cases log.jobs.get? (.ofNat 64 (y / 2 ^ 32)) <;> rfl

theorem subtreeRoot_eq (sha : Sha256) (log : WorkLog) {height index : ℕ} (hheight : height ≤ treeHeight)
    (hindex : index < 2 ^ (treeHeight - height)) :
    log.subtreeRoot sha height index = .ok (referenceRoot sha log.contains height index) := by
  have hindex' : ¬ ¬ index < 1 <<< (treeHeight - height) := by
    rw [Nat.one_shiftLeft]
    exact not_not.mpr hindex
  rw [subtreeRoot, if_neg (not_lt.mpr hheight), if_neg hindex']
  by_cases hlow : height ≤ Job.treeHeight
  · rw [if_pos hlow]
    exact log.blocks.subtreeRoot hlow fun job => Job.subtreeRoot_eq sha job hlow
  · rw [if_neg hlow]
    exact log.blocks.levelRoot (Job.commit_eq sha) (fun _ => rfl) (not_le.mp hlow).le hheight hindex

theorem commit_eq (sha : Sha256) (log : WorkLog) : log.commit sha = .ok (referenceRoot sha log.contains treeHeight 0) :=
  log.subtreeRoot_eq sha le_rfl (by decide)

end WorkLog

namespace WorkSet

theorem blocks (set : WorkSet) : Blocks WorkLog.treeHeight set.logs .EMPTY WorkLog.contains set.contains := by
  intro y
  rw [contains, Nat.shiftRight_eq_div_pow]
  change _ = ((set.logs.get? (.ofNat 160 (y / 2 ^ 96))).getD .EMPTY).contains (y % 2 ^ 96)
  cases set.logs.get? (.ofNat 160 (y / 2 ^ 96)) <;> rfl

theorem subtreeRoot_eq (sha : Sha256) (set : WorkSet) {height index : ℕ} (hheight : height ≤ treeHeight)
    (hindex : index < 2 ^ (treeHeight - height)) :
    set.subtreeRoot sha height index = .ok (referenceRoot sha set.contains height index) := by
  have hindex' : ¬ ¬ index < 1 <<< (treeHeight - height) := by
    rw [Nat.one_shiftLeft]
    exact not_not.mpr hindex
  rw [subtreeRoot, if_neg (not_lt.mpr hheight), if_neg hindex']
  by_cases hlow : height < WorkLog.treeHeight
  · rw [if_pos hlow]
    exact set.blocks.subtreeRoot hlow.le fun log => WorkLog.subtreeRoot_eq sha log hlow.le
  · rw [if_neg hlow]
    exact set.blocks.levelRoot (WorkLog.commit_eq sha) (fun _ => rfl) (not_lt.mp hlow) hheight hindex

theorem commit_eq (sha : Sha256) (set : WorkSet) : set.commit sha = .ok (referenceRoot sha set.contains treeHeight 0) :=
  set.subtreeRoot_eq sha le_rfl (by decide)

end WorkSet

end VerifiableCompute.WorkTree
