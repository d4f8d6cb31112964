import Mathlib

/-! Roots of complete binary trees over numbered leaves, the ancestors of a node in the
numbering of a heap, and the paths of siblings that lead from a node to a root. -/

namespace VerifiableCompute.Lib

open List Function

variable {D : Type} (join : D → D → D)

/-- The root of the subtree of height `h` that covers the leaves `x` with `x / 2 ^ h = n`. -/
def subtree (leaf : ℕ → D) : ℕ → ℕ → D
  | 0, n => leaf n
  | h + 1, n => join (subtree leaf h (2 * n)) (subtree leaf h (2 * n + 1))

variable {join}
variable {leaf' : ℕ → D} {h n x j m a b : ℕ} {node : D}

theorem subtree_congr {leaf : ℕ → D} (heq : ∀ x, x / 2 ^ h = n → leaf x = leaf' x) :
    subtree join leaf h n = subtree join leaf' h n := by
  induction h generalizing n with
  | zero => exact heq n (by simp)
  | succ h ih =>
    have hchild (c x : ℕ) (hc : c / 2 = n) (hx : x / 2 ^ h = c) : leaf x = leaf' x := by
      apply heq
      rw [pow_succ, ← Nat.div_div_eq_div_mul, hx, hc]
    rw [subtree, subtree, ih fun x => hchild _ x (by omega), ih fun x => hchild _ x (by omega)]

theorem subtree_of_leaves {leaf : ℕ → D} {z : ℕ → D} (hz : ∀ k < h, z (k + 1) = join (z k) (z k))
    (hleaf : ∀ x, x / 2 ^ h = n → leaf x = z 0) : subtree join leaf h n = z h := by
  induction h generalizing n with
  | zero => exact hleaf n (by simp)
  | succ h ih =>
    have hchild (c x : ℕ) (hc : c / 2 = n) (hx : x / 2 ^ h = c) : leaf x = z 0 := by
      apply hleaf
      rw [pow_succ, ← Nat.div_div_eq_div_mul, hx, hc]
    rw [subtree, ih (fun k hk => hz k (by omega)) fun x => hchild _ x (by omega),
      ih (fun k hk => hz k (by omega)) fun x => hchild _ x (by omega), hz h (by omega)]

theorem subtree_add (leaf : ℕ → D) (h k n : ℕ) :
    subtree join leaf (h + k) n = subtree join (subtree join leaf k) h n := by
  induction h generalizing n with
  | zero => rw [Nat.zero_add, subtree]
  | succ h ih => rw [Nat.succ_add, subtree, subtree, ih, ih]

/-- A tree over blocks of `2 ^ k` leaves each, below the height of a block. -/
theorem subtree_split (f : ℕ → ℕ → D) {k : ℕ} (hk : h ≤ k) (n : ℕ) :
    subtree join (fun x => f (x / 2 ^ k) (x % 2 ^ k)) h n = subtree join (f (n / 2 ^ (k - h))) h (n % 2 ^ (k - h)) := by
  induction h generalizing n with
  | zero => rw [subtree, subtree, Nat.sub_zero]
  | succ h ih =>
    obtain ⟨j, hj⟩ : ∃ j, k - h = j + 1 := ⟨k - h - 1, by omega⟩
    have hj' : k - (h + 1) = j := by omega
    have hdiv (b : ℕ) (hb : b < 2) : (2 * n + b) / 2 ^ (j + 1) = n / 2 ^ j := by
      rw [pow_succ', ← Nat.div_div_eq_div_mul]
      congr 1
      omega
    have hmod (b : ℕ) (hb : b < 2) : (2 * n + b) % 2 ^ (j + 1) = 2 * (n % 2 ^ j) + b := by
      rw [pow_succ', Nat.mod_mul]
      have h1 : (2 * n + b) / 2 = n := by omega
      have h2 : (2 * n + b) % 2 = b := by omega
      rw [h1, h2, Nat.add_comm]
    have hdiv0 : 2 * n / 2 ^ (j + 1) = n / 2 ^ j := hdiv 0 (by omega)
    have hmod0 : 2 * n % 2 ^ (j + 1) = 2 * (n % 2 ^ j) := hmod 0 (by omega)
    rw [subtree, subtree, ih (by omega), ih (by omega), hj, hj', hdiv0, hmod0, hdiv 1 (by omega), hmod 1 (by omega)]

variable (join) in
/-- The root over a node and the siblings on the way up; the bits of its number tell the sides. -/
def climb : ℕ → D → List D → D
  | _, node, [] => node
  | n, node, sibling :: path => climb (n / 2) (if n % 2 = 1 then join sibling node else join node sibling) path

/-- A number and its sibling are the children of its half. -/
theorem xor_one_cases (n : ℕ) : n % 2 = 1 ∧ n ^^^ 1 = 2 * (n / 2) ∧ n = 2 * (n / 2) + 1 ∨
    n % 2 = 0 ∧ n ^^^ 1 = 2 * (n / 2) + 1 ∧ n = 2 * (n / 2) := by
  rcases Nat.mod_two_eq_zero_or_one n with hn | hn
  · right
    rw [Nat.xor_one_of_even (Nat.even_iff.mpr hn)]
    omega
  · left
    rw [Nat.xor_one_of_odd (Nat.odd_iff.mpr hn)]
    omega

theorem join_sibling (leaf : ℕ → D) (h n : ℕ) :
    (if n % 2 = 1 then join (subtree join leaf h (n ^^^ 1)) (subtree join leaf h n)
      else join (subtree join leaf h n) (subtree join leaf h (n ^^^ 1))) = subtree join leaf (h + 1) (n / 2) := by
  rw [subtree]
  obtain ⟨hodd, hsibling, hself⟩ | ⟨heven, hsibling, hself⟩ := xor_one_cases n
  · rw [if_pos hodd, hsibling, ← hself]
  · rw [if_neg (by omega), hsibling, ← hself]

/-- Two trees with one root and different leaves join different pairs to one node somewhere. -/
theorem subtree_collision {leaf : ℕ → D} (hroot : subtree join leaf h n = subtree join leaf' h n)
    (hx : x / 2 ^ h = n) (hne : leaf x ≠ leaf' x) : ∃ i < h, ∃ k, k / 2 ^ (h - i - 1) = n ∧
      (subtree join leaf i (2 * k), subtree join leaf i (2 * k + 1)) ≠
        (subtree join leaf' i (2 * k), subtree join leaf' i (2 * k + 1)) ∧
      subtree join leaf (i + 1) k = subtree join leaf' (i + 1) k := by
  induction h generalizing n with
  | zero =>
    rw [pow_zero, Nat.div_one] at hx
    subst hx
    exact absurd hroot hne
  | succ h ih =>
    by_cases hpair : (subtree join leaf h (2 * n), subtree join leaf h (2 * n + 1)) =
        (subtree join leaf' h (2 * n), subtree join leaf' h (2 * n + 1))
    · obtain ⟨hleft, hright⟩ := Prod.mk.inj hpair
      have hchild : ∃ c, c / 2 = n ∧ x / 2 ^ h = c ∧ subtree join leaf h c = subtree join leaf' h c := by
        rw [pow_succ, ← Nat.div_div_eq_div_mul] at hx
        rcases Nat.mod_two_eq_zero_or_one (x / 2 ^ h) with hm | hm
        · exact ⟨2 * n, by omega, by omega, hleft⟩
        · exact ⟨2 * n + 1, by omega, by omega, hright⟩
      obtain ⟨c, hc, hxc, hsame⟩ := hchild
      obtain ⟨i, hi, k, hk, hne⟩ := ih hsame hxc
      refine ⟨i, by omega, k, ?_, hne⟩
      have hsub : h + 1 - i - 1 = h - i - 1 + 1 := by omega
      rw [hsub, pow_succ, ← Nat.div_div_eq_div_mul, hk, hc]
    · refine ⟨h, by omega, n, ?_, hpair, hroot⟩
      rw [Nat.add_sub_cancel_left, Nat.sub_self, pow_zero, Nat.div_one]

variable (join) in
/-- The pairs that are joined on the way up. -/
def climbPairs : ℕ → D → List D → List (D × D)
  | _, _, [] => []
  | n, node, sibling :: path => (if n % 2 = 1 then (sibling, node) else (node, sibling)) ::
      climbPairs (n / 2) (if n % 2 = 1 then join sibling node else join node sibling) path

variable (join) in
/-- The pairs that are joined in the tree under a node. -/
def TreePair (leaf : ℕ → D) (h n : ℕ) (pair : D × D) : Prop :=
  ∃ i < h, ∃ k, k / 2 ^ (h - i - 1) = n ∧ pair = (subtree join leaf i (2 * k), subtree join leaf i (2 * k + 1))

theorem subtree_above (leaf : ℕ → D) (h n : ℕ) :
    subtree join leaf (h + 1) n = subtree join (fun k => join (leaf (2 * k)) (leaf (2 * k + 1))) h n :=
  subtree_add leaf h 1 n

theorem join_update (leaf : ℕ → D) (n : ℕ) (node : D) :
    (fun k => join (update leaf n node (2 * k)) (update leaf n node (2 * k + 1))) =
      update (fun k => join (leaf (2 * k)) (leaf (2 * k + 1))) (n / 2)
        (if n % 2 = 1 then join (leaf (n ^^^ 1)) node else join node (leaf (n ^^^ 1))) := by
  funext k
  by_cases hk : k = n / 2
  · rw [hk, update_self]
    obtain ⟨hodd, hsibling, hself⟩ | ⟨heven, hsibling, hself⟩ := xor_one_cases n
    · have hright : update leaf n node (2 * (n / 2) + 1) = node := by rw [← hself, update_self]
      rw [if_pos hodd, hsibling, hright, update_of_ne (by omega)]
    · have hleft : update leaf n node (2 * (n / 2)) = node := by rw [← hself, update_self]
      rw [if_neg (by omega), hsibling, hleft, update_of_ne (by omega)]
  · rw [update_of_ne hk, update_of_ne (by omega), update_of_ne (by omega)]

/-- If joining does not merge pairs, a path that leads to the root of a tree is the tree's
own: its start is the leaf, and any other start leads to the tree with that leaf. -/
theorem climb_eq_subtree {leaf : ℕ → D} {path : List D}
    (hinj : ∀ p ∈ climbPairs join n node path, ∀ q, TreePair join leaf path.length (n / 2 ^ path.length) q →
      join p.1 p.2 = join q.1 q.2 → p = q)
    (hroot : climb join n node path = subtree join leaf path.length (n / 2 ^ path.length)) :
    node = leaf n ∧ ∀ node', climb join n node' path =
      subtree join (update leaf n node') path.length (n / 2 ^ path.length) := by
  induction path generalizing leaf n node with
  | nil =>
    rw [length_nil, pow_zero, Nat.div_one, climb, subtree] at hroot
    refine ⟨hroot, fun node' => ?_⟩
    rw [length_nil, pow_zero, Nat.div_one, climb, subtree, update_self]
  | cons sibling path ih =>
    have hdiv : n / 2 ^ (path.length + 1) = n / 2 / 2 ^ path.length := by
      rw [pow_succ', Nat.div_div_eq_div_mul]
    rw [length_cons, hdiv] at hinj
    rw [climb, length_cons, hdiv, subtree_above] at hroot
    have hup : ∀ p ∈ climbPairs join (n / 2) (if n % 2 = 1 then join sibling node else join node sibling) path,
        ∀ q, TreePair join (fun k => join (leaf (2 * k)) (leaf (2 * k + 1))) path.length (n / 2 / 2 ^ path.length) q →
          join p.1 p.2 = join q.1 q.2 → p = q := by
      rintro p hp q ⟨i, hi, k, hk, hq⟩
      refine hinj p (mem_cons_of_mem _ hp) q ⟨i + 1, by omega, k, ?_, ?_⟩
      · have hsub : path.length + 1 - (i + 1) - 1 = path.length - i - 1 := by omega
        rw [hsub, hk]
      · rw [hq, subtree_above, subtree_above]
    obtain ⟨hparent, hothers⟩ := ih hup hroot
    have hpair : (if n % 2 = 1 then (sibling, node) else (node, sibling)) = (leaf (2 * (n / 2)), leaf (2 * (n / 2) + 1)) := by
      refine hinj _ mem_cons_self _ ⟨0, by omega, n / 2, by rw [Nat.sub_zero, Nat.add_sub_cancel], rfl⟩ ?_
      rw [← hparent]
      split <;> rfl
    have hself : node = leaf n ∧ sibling = leaf (n ^^^ 1) := by
      obtain ⟨hodd, hsibling, hself⟩ | ⟨heven, hsibling, hself⟩ := xor_one_cases n
      · rw [if_pos hodd, ← hself, ← hsibling] at hpair
        exact (Prod.mk.inj hpair).symm
      · rw [if_neg (by omega), ← hsibling, ← hself] at hpair
        exact Prod.mk.inj hpair
    refine ⟨hself.1, fun node' => ?_⟩
    rw [climb, length_cons, hdiv, subtree_above, join_update, hself.2]
    exact hothers _

theorem climb_append (n : ℕ) (node : D) (path path' : List D) :
    climb join n node (path ++ path') = climb join (n / 2 ^ path.length) (climb join n node path) path' := by
  induction path generalizing n node with
  | nil => rw [nil_append, length_nil, pow_zero, Nat.div_one, climb]
  | cons sibling path ih =>
    rw [cons_append, climb, climb, ih, length_cons, pow_succ', Nat.div_div_eq_div_mul]

theorem climbPairs_append (n : ℕ) (node : D) (path path' : List D) : climbPairs join n node (path ++ path') =
      climbPairs join n node path ++ climbPairs join (n / 2 ^ path.length) (climb join n node path) path' := by
  induction path generalizing n node with
  | nil => rw [nil_append, length_nil, pow_zero, Nat.div_one, climb, climbPairs, nil_append]
  | cons sibling path ih =>
    rw [cons_append, climbPairs, climbPairs, climb, ih, length_cons, pow_succ', Nat.div_div_eq_div_mul,
      cons_append]

/-- A path sees as many bits of the number as it has siblings. -/
theorem climb_mod (n : ℕ) (node : D) (path : List D) : climb join (n % 2 ^ path.length) node path = climb join n node path ∧
    climbPairs join (n % 2 ^ path.length) node path = climbPairs join n node path := by
  induction path generalizing n node with
  | nil => exact ⟨rfl, rfl⟩
  | cons sibling path ih =>
    have hbit : n % 2 ^ (path.length + 1) % 2 = n % 2 := Nat.mod_mod_of_dvd n (dvd_pow_self 2 (by omega))
    have hhalf : n % 2 ^ (path.length + 1) / 2 = n / 2 % 2 ^ path.length := by
      rw [pow_succ', Nat.mod_mul_right_div_self]
    rw [length_cons, climb, climb, climbPairs, climbPairs, hbit, hhalf, (ih ..).1, (ih ..).2]
    exact ⟨rfl, rfl⟩

variable (join) in
/-- The siblings on the way up from a node, for a number of levels. -/
def siblingPath (leaf : ℕ → D) : ℕ → ℕ → (count : ℕ) → List D
  | _, _, 0 => []
  | i, n, count + 1 => subtree join leaf i (n ^^^ 1) :: siblingPath leaf (i + 1) (n / 2) count

variable {leaf : ℕ → D}

theorem length_siblingPath (i n count : ℕ) : (siblingPath join leaf i n count).length = count := by
  induction count generalizing i n with
  | zero => rfl
  | succ count ih => rw [siblingPath, length_cons, ih]

theorem mem_siblingPath {i count : ℕ} (h : node ∈ siblingPath join leaf i n count) :
    ∃ j k, node = subtree join leaf j k := by
  induction count generalizing i n with
  | zero => cases h
  | succ count ih =>
    rcases mem_cons.mp h with rfl | h
    · exact ⟨_, _, rfl⟩
    · exact ih h

theorem climb_siblingPath (i n count : ℕ) :
    climb join n (subtree join leaf i n) (siblingPath join leaf i n count) = subtree join leaf (i + count) (n / 2 ^ count) := by
  induction count generalizing i n with
  | zero => rw [siblingPath, climb, pow_zero, Nat.div_one, Nat.add_zero]
  | succ count ih =>
    rw [siblingPath, climb, join_sibling, ih, Nat.div_div_eq_div_mul, ← pow_succ', Nat.add_right_comm, Nat.add_assoc]

theorem treePair_of_mem {i n count : ℕ} {pair : D × D}
    (h : pair ∈ climbPairs join n (subtree join leaf i n) (siblingPath join leaf i n count)) :
    TreePair join leaf (i + count) (n / 2 ^ count) pair := by
  induction count generalizing i n with
  | zero => cases h
  | succ count ih =>
    rw [siblingPath, climbPairs, join_sibling] at h
    rcases mem_cons.mp h with rfl | h
    · refine ⟨i, by omega, n / 2, ?_, ?_⟩
      · have hsub : i + (count + 1) - i - 1 = count := by omega
        rw [hsub, Nat.div_div_eq_div_mul, ← pow_succ']
      · obtain ⟨hodd, hsibling, hself⟩ | ⟨heven, hsibling, hself⟩ := xor_one_cases n
        · rw [if_pos hodd, hsibling, ← hself]
        · rw [if_neg (by omega), hsibling, ← hself]
    · have hup := ih h
      rwa [Nat.div_div_eq_div_mul, ← pow_succ', Nat.add_right_comm, Nat.add_assoc] at hup

/-- Injective on the pairs of two trees, joining gives them one root for the same leaves only. -/
theorem leaf_eq_of_root {pairs : Set (D × D)} (hinj : Set.InjOn (fun p => join p.1 p.2) pairs)
    (htree : ∀ p, TreePair join leaf h n p → p ∈ pairs) (htree' : ∀ p, TreePair join leaf' h n p → p ∈ pairs)
    (hroot : subtree join leaf h n = subtree join leaf' h n) (hx : x / 2 ^ h = n) : leaf x = leaf' x := by
  by_contra hne
  obtain ⟨i, hi, k, hk, hpair, heq⟩ := subtree_collision hroot hx hne
  exact hpair (hinj (htree _ ⟨i, hi, k, hk, rfl⟩) (htree' _ ⟨i, hi, k, hk, rfl⟩) heq)

variable (join) in
/-- A heap over leaves: the children of the node `i` are `2 * i` and `2 * i + 1`. -/
structure IsHeap (leaf : ℕ → D) (size : ℕ) (node : ℕ → D) : Prop where
  leaf : ∀ m < size, node (size + m) = leaf m
  inner : ∀ i, 0 < i → i < size → node i = join (node (2 * i)) (node (2 * i + 1))

theorem IsHeap.eq_subtree {node : ℕ → D} {L : ℕ} (h : IsHeap join leaf (2 ^ L) node) {d : ℕ} (hj : j + d = L)
    (hm : m < 2 ^ j) : node (2 ^ j + m) = subtree join leaf d m := by
  induction d generalizing j m with
  | zero =>
    obtain rfl : j = L := hj
    exact h.leaf m hm
  | succ d ih =>
    have hlt : 2 ^ j + m < 2 ^ L := by
      have hle : 2 ^ (j + 1) ≤ 2 ^ L := Nat.pow_le_pow_right (by decide) (by omega)
      rw [pow_succ] at hle
      omega
    have hleft : 2 * (2 ^ j + m) = 2 ^ (j + 1) + 2 * m := by ring
    have hchild : 2 * m + 1 < 2 ^ (j + 1) := by
      rw [pow_succ]
      omega
    rw [h.inner _ (by positivity) hlt, hleft, Nat.add_assoc, ih (by omega) (by omega), ih (by omega) hchild, subtree]

variable (join) in
/-- The nodes of a heap from its leaves. -/
def heapOf (leaf : ℕ → D) (t i : ℕ) : D := subtree join leaf (t - Nat.log2 i) (i - 2 ^ Nat.log2 i)

theorem heapOf_eq (leaf : ℕ → D) {t : ℕ} (hm : m < 2 ^ j) :
    heapOf join leaf t (2 ^ j + m) = subtree join leaf (t - j) m := by
  have hlog : Nat.log2 (2 ^ j + m) = j := by
    rw [Nat.log2_eq_iff (by positivity), pow_succ]
    omega
  rw [heapOf, hlog, Nat.add_sub_cancel_left]

theorem heapOf_isHeap (leaf : ℕ → D) (t : ℕ) : IsHeap join leaf (2 ^ t) (heapOf join leaf t) where
  leaf m hm := by
    rw [heapOf_eq leaf hm, Nat.sub_self, subtree]
  inner i hi hlt := by
    obtain ⟨j, m, hm, rfl⟩ : ∃ j m, m < 2 ^ j ∧ i = 2 ^ j + m := by
      have hlog := (Nat.log2_eq_iff (by omega : i ≠ 0)).mp rfl
      rw [pow_succ] at hlog
      exact ⟨Nat.log2 i, i - 2 ^ Nat.log2 i, by omega, by omega⟩
    have hj : j < t := by
      by_contra hge
      have hle : 2 ^ t ≤ 2 ^ j := Nat.pow_le_pow_right (by decide) (by omega)
      omega
    have hleft : 2 * (2 ^ j + m) = 2 ^ (j + 1) + 2 * m := by ring
    have hchild : 2 * m + 1 < 2 ^ (j + 1) := by
      rw [pow_succ]
      omega
    have hsub : t - j = t - (j + 1) + 1 := by omega
    rw [hleft, Nat.add_assoc, heapOf_eq leaf hm, heapOf_eq leaf (by omega), heapOf_eq leaf hchild, hsub, subtree]

/-- `x` is `a` or a descendant of it: the parent of `x` is `x / 2`. -/
def Below (a x : ℕ) : Prop := ∃ k, x / 2 ^ k = a

theorem Below.refl (x : ℕ) : Below x x := ⟨0, by simp⟩

theorem Below.trans (h : Below a b) (h' : Below b x) : Below a x := by
  obtain ⟨k, rfl⟩ := h
  obtain ⟨j, rfl⟩ := h'
  exact ⟨j + k, by rw [pow_add, ← Nat.div_div_eq_div_mul]⟩

theorem below_half (x : ℕ) : Below (x / 2) x := ⟨1, by simp⟩

theorem Below.le (h : Below a x) : a ≤ x := by
  obtain ⟨k, rfl⟩ := h
  exact Nat.div_le_self _ _

theorem Below.antisymm (h : Below a x) (h' : Below x a) : a = x := le_antisymm h.le h'.le

/-- A proper ancestor is the parent or an ancestor of it. -/
theorem Below.of_ne (h : Below a x) (hne : a ≠ x) : Below a (x / 2) := by
  obtain ⟨k, rfl⟩ := h
  cases k with
  | zero => simp at hne
  | succ k => exact ⟨k, by rw [pow_succ', Nat.div_div_eq_div_mul]⟩

theorem below_one (hx : 0 < x) : Below 1 x := by
  induction x using Nat.strong_induction_on with
  | _ x ih =>
    by_cases h : x = 1
    · exact h ▸ .refl 1
    · exact (ih (x / 2) (by omega) (by omega)).trans (below_half x)

theorem Below.total (h : Below a x) (h' : Below b x) : Below a b ∨ Below b a := by
  obtain ⟨k, rfl⟩ := h
  obtain ⟨j, rfl⟩ := h'
  rcases Nat.le_total k j with hkj | hjk
  · exact .inr ⟨j - k, by rw [Nat.div_div_eq_div_mul, ← pow_add, Nat.add_sub_cancel' hkj]⟩
  · exact .inl ⟨k - j, by rw [Nat.div_div_eq_div_mul, ← pow_add, Nat.add_sub_cancel' hjk]⟩

theorem Below.child (h : Below a x) (hne : a ≠ x) : Below (2 * a) x ∨ Below (2 * a + 1) x := by
  obtain ⟨k, hk⟩ := h
  cases k with
  | zero => exact absurd (by simpa using hk.symm) hne
  | succ k =>
    rw [pow_succ, ← Nat.div_div_eq_div_mul] at hk
    rcases Nat.mod_two_eq_zero_or_one (x / 2 ^ k) with hm | hm
    · exact .inl ⟨k, by omega⟩
    · exact .inr ⟨k, by omega⟩

theorem below_left (a : ℕ) : Below a (2 * a) := ⟨1, by omega⟩

theorem below_right (a : ℕ) : Below a (2 * a + 1) := ⟨1, by omega⟩

/-- What passes from every other node to its parent passes from a node to its ancestors. -/
theorem Below.induct {P : ℕ → Prop} (h : Below a x) (hx : P x)
    (hstep : ∀ y, Below a y → Below y x → y ≠ a → P y → P (y / 2)) : P a := by
  induction x using Nat.strong_induction_on with
  | _ x ih =>
    by_cases hne : a = x
    · exact hne ▸ hx
    · have hup := h.of_ne hne
      have hpos : x / 2 < x := by
        have := h.le
        omega
      exact ih (x / 2) hpos hup (hstep x h (.refl x) (Ne.symm hne) hx) fun y hy hy' => hstep y hy (hy'.trans (below_half x))

/-! Ancestors in a binary tree that is numbered like a heap: the root is `1`, and the
parent of a node is half of it. -/

/-- A node is an ancestor of itself. -/
def IsAncestor (a n : ℕ) : Prop := a ≠ 0 ∧ ∃ k, n / 2 ^ k = a

variable {n a : ℕ}

theorem IsAncestor.refl (hn : n ≠ 0) : IsAncestor n n := ⟨hn, 0, by rw [pow_zero, Nat.div_one]⟩

theorem IsAncestor.trans {b : ℕ} (hab : IsAncestor a b) (hbn : IsAncestor b n) : IsAncestor a n := by
  obtain ⟨ha, k, rfl⟩ := hab
  obtain ⟨-, l, rfl⟩ := hbn
  exact ⟨ha, l + k, by rw [pow_add, Nat.div_div_eq_div_mul]⟩

theorem IsAncestor.le (h : IsAncestor a n) : a ≤ n := by
  obtain ⟨-, k, rfl⟩ := h
  exact Nat.div_le_self n (2 ^ k)

theorem not_isAncestor_zero (a : ℕ) : ¬ IsAncestor a 0 := by
  rintro ⟨ha, k, hk⟩
  exact ha (hk.symm.trans (Nat.zero_div _))

theorem isAncestor_iff (hn : n ≠ 0) : IsAncestor a n ↔ a = n ∨ IsAncestor a (n / 2) := by
  constructor
  · rintro ⟨ha, k, hk⟩
    cases k with
    | zero => exact .inl (by rw [← hk, pow_zero, Nat.div_one])
    | succ k => exact .inr ⟨ha, k, by rw [← hk, pow_succ', Nat.div_div_eq_div_mul]⟩
  · rintro (rfl | h)
    · exact .refl hn
    · have hhalf : n / 2 ≠ 0 := fun h0 => h.1 (Nat.le_zero.mp (h0 ▸ h.le))
      exact h.trans ⟨hhalf, 1, by rw [pow_one]⟩

/-- In a tree with this many leaves a leaf has no ancestor among the leaves but itself. -/
theorem isAncestor_leaf {leaves : ℕ} (ha : leaves ≤ a) (hn : leaves ≤ n) (hlt : n < 2 * leaves) : IsAncestor a n ↔ a = n := by
  rw [isAncestor_iff (by omega)]
  constructor
  · rintro (h | h)
    · exact h
    · have := h.le
      omega
  · exact .inl

end VerifiableCompute.Lib
