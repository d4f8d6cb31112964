import Mathlib

/-! Roots of unbalanced binary trees over a list: pair adjacent entries, promote
an odd last entry, and repeat until one entry is left. The reference computes
each level as a new list; the array form overwrites the front of one array while
it still reads from it. Both give the same root, and the root is the fold of one
binary tree whose leaves are the list. -/

namespace VerifiableCompute.Lib

open List

variable {α β : Type*}

/-- One level: adjacent entries combined, an odd last entry kept. -/
def pairLevel (f : α → α → α) : List α → List α
  | a :: b :: rest => f a b :: pairLevel f rest
  | [a] => [a]
  | [] => []

theorem pairLevel_length (f : α → α → α) : ∀ l : List α, (pairLevel f l).length = (l.length + 1) / 2
  | a :: b :: rest => by
    rw [pairLevel, length_cons, pairLevel_length f rest]
    simp only [length_cons]
    omega
  | [a] => by simp [pairLevel]
  | [] => by simp [pairLevel]

/-- Levels until a single entry is left. -/
def pairRoot (f : α → α → α) (l : List α) : Option α :=
  if l.length ≤ 1 then l.head? else pairRoot f (pairLevel f l)
termination_by l.length
decreasing_by
  rw [pairLevel_length]
  omega

theorem pairLevel_map (f : α → α → α) (g : β → β → β) (h : α → β)
    (hh : ∀ a b, h (f a b) = g (h a) (h b)) : ∀ l : List α, pairLevel g (l.map h) = (pairLevel f l).map h
  | a :: b :: rest => by
    rw [map_cons, map_cons, pairLevel, pairLevel, map_cons, hh, pairLevel_map f g h hh rest]
  | [a] => rfl
  | [] => rfl

theorem pairRoot_map (f : α → α → α) (g : β → β → β) (h : α → β) (hh : ∀ a b, h (f a b) = g (h a) (h b)) (l : List α) :
    pairRoot g (l.map h) = (pairRoot f l).map h := by
  induction l using pairRoot.induct f with
  | case1 l hl =>
    rw [pairRoot, if_pos (by simpa using hl), head?_map]
    conv_rhs => rw [pairRoot, if_pos hl]
  | case2 l hl ih =>
    rw [pairRoot, if_neg (by simpa using hl), pairLevel_map f g h hh, ih]
    conv_rhs => rw [pairRoot, if_neg hl]

section InPlace

variable [Inhabited α]

/-- `leaves[i] = f(leaves[2 i], leaves[2 i + 1])` for `i` from `0` below `k`. -/
def overwritePairs (f : α → α → α) (k : ℕ) (leaves : List α) : List α :=
  (List.range k).foldl (fun l i => l.set i (f (l.getD (2 * i) default) (l.getD (2 * i + 1) default))) leaves

/-- One pass over the first `n` cells; an odd last cell moves down unhashed. -/
def levelInPlace (f : α → α → α) (n : ℕ) (leaves : List α) : List α :=
  let leaves := overwritePairs f (n / 2) leaves
  if n % 2 = 1 then leaves.set ((n + 1) / 2 - 1) (leaves.getD (n - 1) default) else leaves

/-- `while n > 1`: one pass, then the upper half is forgotten. -/
def collapseInPlace (f : α → α → α) (n : ℕ) (leaves : List α) : List α :=
  if 1 < n then collapseInPlace f ((n + 1) / 2) (levelInPlace f n leaves) else leaves
termination_by n
decreasing_by omega

theorem overwritePairs_succ (f : α → α → α) (k : ℕ) (leaves : List α) : overwritePairs f (k + 1) leaves =
      (overwritePairs f k leaves).set k (f ((overwritePairs f k leaves).getD (2 * k) default)
        ((overwritePairs f k leaves).getD (2 * k + 1) default)) := by
  rw [overwritePairs, range_succ, foldl_append]
  rfl

@[simp] theorem overwritePairs_length (f : α → α → α) (k : ℕ) (leaves : List α) :
    (overwritePairs f k leaves).length = leaves.length := by
  induction k with
  | zero => rfl
  | succ k ih => rw [overwritePairs_succ, length_set, ih]

@[simp] theorem levelInPlace_length (f : α → α → α) (n : ℕ) (leaves : List α) :
    (levelInPlace f n leaves).length = leaves.length := by
  unfold levelInPlace
  split_ifs <;> simp

/-- A cell is read before it is overwritten: after `k` iterations the front holds
the hashed pairs of the original cells and everything else is untouched. -/
theorem overwritePairs_getD (f : α → α → α) (leaves : List α) (k : ℕ) (hk : 2 * k ≤ leaves.length) (j : ℕ) :
    (overwritePairs f k leaves).getD j default =
      if j < k then f (leaves.getD (2 * j) default) (leaves.getD (2 * j + 1) default)
      else leaves.getD j default := by
  induction k generalizing j with
  | zero => rfl
  | succ k ih =>
    have ih' := ih (by omega)
    rw [overwritePairs_succ, ih' (2 * k), ih' (2 * k + 1), if_neg (by omega), if_neg (by omega)]
    by_cases hj : j = k
    · subst hj
      have hlt : j < (overwritePairs f j leaves).length := by
        rw [overwritePairs_length]
        omega
      rw [if_pos (by omega), getD_eq_getElem _ _ (by rwa [length_set]), getElem_set_self]
    · have hset : ((overwritePairs f k leaves).set k
          (f (leaves.getD (2 * k) default) (leaves.getD (2 * k + 1) default))).getD j default =
          (overwritePairs f k leaves).getD j default := by
        simp only [getD_eq_getElem?_getD, getElem?_set_ne (Ne.symm hj)]
      rw [hset, ih' j]
      by_cases hjk : j < k
      · rw [if_pos hjk, if_pos (by omega)]
      · rw [if_neg hjk, if_neg (by omega)]

theorem pairLevel_getD (f : α → α → α) : ∀ (l : List α) (j : ℕ), j < (l.length + 1) / 2 →
    (pairLevel f l).getD j default =
      if 2 * j + 1 < l.length then f (l.getD (2 * j) default) (l.getD (2 * j + 1) default)
      else l.getD (2 * j) default
  | a :: b :: rest, 0, _ => by simp [pairLevel]
  | a :: b :: rest, j + 1, h => by
    have hj : j < (rest.length + 1) / 2 := by
      simp only [length_cons] at h
      omega
    have e : 2 * (j + 1) = 2 * j + 1 + 1 := by ring
    rw [pairLevel, getD_cons_succ, pairLevel_getD f rest j hj, e]
    simp only [getD_cons_succ, length_cons]
    by_cases hlt : 2 * j + 1 < rest.length
    · rw [if_pos hlt, if_pos (by omega)]
    · rw [if_neg hlt, if_neg (by omega)]
  | [a], 0, _ => by simp [pairLevel]
  | [a], j + 1, h => by simp only [length_singleton] at h; omega
  | [], j, h => by simp only [length_nil] at h; omega

/-- The front of the array after one pass is the next level of the front before it. -/
theorem levelInPlace_take (f : α → α → α) (n : ℕ) (leaves : List α) (hn : n ≤ leaves.length) :
    (levelInPlace f n leaves).take ((n + 1) / 2) = pairLevel f (leaves.take n) := by
  have hlen : (leaves.take n).length = n := by rw [length_take]; omega
  apply ext_getElem
  · rw [length_take, levelInPlace_length, pairLevel_length, hlen]
    omega
  intro j h1 h2
  have hj : j < (n + 1) / 2 := by
    rw [length_take] at h1
    omega
  have htake (i : ℕ) (hi : i < n) : (leaves.take n).getD i default = leaves.getD i default := by
    rw [getD_eq_getElem?_getD, getD_eq_getElem?_getD, getElem?_take_of_lt hi]
  rw [getElem_take, ← getD_eq_getElem _ default, ← getD_eq_getElem _ default,
    pairLevel_getD f _ j (by rwa [hlen]), hlen, htake (2 * j) (by omega)]
  have hpairs := overwritePairs_getD f leaves (n / 2) (by omega)
  unfold levelInPlace
  split_ifs with hodd hlt hlt
  · -- a pair in a level of odd length: the promotion wrote another cell
    rw [getD_eq_getElem?_getD, getElem?_set_ne (by omega), ← getD_eq_getElem?_getD,
      hpairs j, if_pos (by omega), htake (2 * j + 1) hlt]
  · -- the promoted cell
    have hjn : j = (n + 1) / 2 - 1 := by omega
    have hset : j < ((overwritePairs f (n / 2) leaves).set ((n + 1) / 2 - 1)
        ((overwritePairs f (n / 2) leaves).getD (n - 1) default)).length := by
      rw [length_set, overwritePairs_length]
      omega
    rw [getD_eq_getElem _ _ hset, getElem_set, if_pos hjn.symm, hpairs (n - 1), if_neg (by omega)]
    congr 1
    omega
  · rw [hpairs j, if_pos (by omega), htake (2 * j + 1) hlt]
  · omega

theorem collapseInPlace_head (f : α → α → α) (n : ℕ) (leaves : List α) (h0 : 0 < n) (hn : n ≤ leaves.length) :
    some ((collapseInPlace f n leaves).getD 0 default) = pairRoot f (leaves.take n) := by
  induction n, leaves using collapseInPlace.induct f with
  | case1 n leaves h1 ih =>
    have hlen : (leaves.take n).length = n := by rw [length_take]; omega
    rw [collapseInPlace, if_pos h1, ih (by omega) (by rw [levelInPlace_length]; omega),
      levelInPlace_take f n leaves hn]
    conv_rhs => rw [pairRoot, hlen, if_neg (by omega)]
  | case2 n leaves h1 =>
    obtain rfl : n = 1 := by omega
    rw [collapseInPlace, if_neg h1, pairRoot, if_pos (by rw [length_take]; omega)]
    rcases leaves with _ | ⟨a, rest⟩
    · simp at hn
    · simp

end InPlace

inductive PairTree (α : Type*) where
  | leaf (a : α)
  | node (left right : PairTree α)

open PairTree

namespace PairTree

/-- The leaves from left to right. -/
def leaves : PairTree α → List α
  | leaf a => [a]
  | node l r => l.leaves ++ r.leaves

/-- The value at the root when inner nodes combine by `f`. -/
def fold (f : α → α → α) : PairTree α → α
  | leaf a => a
  | node l r => f (l.fold f) (r.fold f)

/-- The pairs combined on the way to the root. -/
def pairs (f : α → α → α) : PairTree α → List (α × α)
  | leaf _ => []
  | node l r => (l.fold f, r.fold f) :: (l.pairs f ++ r.pairs f)

end PairTree

theorem flatMap_leaves_pairLevel : ∀ ts : List (PairTree α), (pairLevel node ts).flatMap leaves = ts.flatMap leaves
  | a :: b :: rest => by
    simp only [pairLevel, flatMap_cons, leaves, append_assoc]
    rw [flatMap_leaves_pairLevel rest]
  | [a] => rfl
  | [] => rfl

theorem pairRoot_leaves (ts : List (PairTree α)) (h : ts ≠ []) :
    ∃ t, pairRoot node ts = some t ∧ t.leaves = ts.flatMap leaves := by
  induction ts using pairRoot.induct node with
  | case1 ts hl =>
    rcases ts with _ | ⟨t, _ | ⟨u, rest⟩⟩
    · exact absurd rfl h
    · exact ⟨t, by rw [pairRoot, if_pos hl]; rfl, by simp⟩
    · simp at hl
  | case2 ts hl ih =>
    have hne : pairLevel node ts ≠ [] := by
      intro h0
      have := congrArg length h0
      rw [pairLevel_length, length_nil] at this
      omega
    obtain ⟨t, ht, hleaves⟩ := ih hne
    exact ⟨t, by rw [pairRoot, if_neg hl, ht], by rw [hleaves, flatMap_leaves_pairLevel]⟩

theorem exists_pairTree (f : α → α → α) (l : List α) (h : l ≠ []) :
    ∃ t : PairTree α, pairRoot node (l.map leaf) = some t ∧ t.leaves = l ∧
      pairRoot f l = some (t.fold f) := by
  obtain ⟨t, ht, hleaves⟩ := pairRoot_leaves (l.map leaf) (by simpa using h)
  refine ⟨t, ht, ?_, ?_⟩
  · rw [hleaves, flatMap_map]
    simp [leaves]
  · have hmap := pairRoot_map node f (fold f) (fun _ _ => rfl) (l.map leaf)
    rw [ht, map_map] at hmap
    simpa [Function.comp_def, fold] using hmap

/-- If combined pairs determine their two parts up to order and no leaf is the
value of a combined pair, equal roots have equal leaves up to order. Only the
pairs that the two trees combine matter. -/
theorem PairTree.leaves_perm (f : α → α → α) (leafSet : Set α) (pairSet : Set (α × α))
    (hsplit : ∀ p ∈ pairSet, ∀ q ∈ pairSet, f p.1 p.2 = f q.1 q.2 → p = q ∨ p = q.swap)
    (hleaf : ∀ a ∈ leafSet, ∀ p ∈ pairSet, a ≠ f p.1 p.2) (t u : PairTree α)
    (ht : ∀ a ∈ t.leaves, a ∈ leafSet) (hu : ∀ a ∈ u.leaves, a ∈ leafSet)
    (htp : ∀ p ∈ t.pairs f, p ∈ pairSet) (hup : ∀ p ∈ u.pairs f, p ∈ pairSet)
    (h : t.fold f = u.fold f) : t.leaves.Perm u.leaves := by
  induction t generalizing u with
  | leaf a =>
    cases u with
    | leaf b => exact (show a = b from h) ▸ Perm.refl _
    | node l r =>
      exact absurd h (hleaf a (ht a (by simp [leaves])) _ (hup (l.fold f, r.fold f) (by simp [pairs])))
  | node l r ihl ihr =>
    cases u with
    | leaf b =>
      exact absurd h.symm (hleaf b (hu b (by simp [leaves])) _ (htp (l.fold f, r.fold f) (by simp [pairs])))
    | node l' r' =>
      simp only [leaves, mem_append, pairs, mem_cons] at ht hu htp hup ⊢
      have left (v : PairTree α) := ihl v (fun a ha => ht a (.inl ha))
      have right (v : PairTree α) := ihr v (fun a ha => ht a (.inr ha))
      have hl' := fun a ha => hu a (.inl ha)
      have hr' := fun a ha => hu a (.inr ha)
      have pl' := fun p hp => hup p (.inr (.inl hp))
      have pr' := fun p hp => hup p (.inr (.inr hp))
      have pl := fun p hp => htp p (.inr (.inl hp))
      have pr := fun p hp => htp p (.inr (.inr hp))
      rcases hsplit _ (htp _ (.inl rfl)) _ (hup _ (.inl rfl)) h with heq | heq
      · obtain ⟨h1, h2⟩ := Prod.mk.inj heq
        exact (left l' hl' pl pl' h1).append (right r' hr' pr pr' h2)
      · obtain ⟨h1, h2⟩ := Prod.mk.inj heq
        exact ((left r' hr' pl pr' h1).append (right l' hl' pr pl' h2)).trans perm_append_comm

end VerifiableCompute.Lib
