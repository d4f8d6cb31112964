import Mathlib

/-! Finite maps as lists of entries in strictly increasing key order, as a B-tree
map iterates over them. An insertion exchanges one term of a sum over the
entries, and every key occurs once. -/

namespace VerifiableCompute.Lib

open List

namespace WordOrder

/-- Machine words in their numeric order. -/
scoped instance instLinearOrderBitVec (w : ℕ) : LinearOrder (BitVec w) where
  le_refl x := Nat.le_refl x.toNat
  le_trans _ _ _ h h' := Nat.le_trans h h'
  lt_iff_le_not_ge _ _ := Nat.lt_iff_le_and_not_ge
  le_antisymm _ _ h h' := BitVec.eq_of_toNat_eq (Nat.le_antisymm h h')
  le_total x y := Nat.le_total x.toNat y.toNat
  toDecidableLE := inferInstance

end WordOrder

structure OrderedMap (K V : Type) [LinearOrder K] where
  entries : List (K × V)
  sorted : (entries.map Prod.fst).Pairwise (· < ·)

namespace OrderedMap

variable {K V : Type} [LinearOrder K]

def empty : OrderedMap K V := ⟨[], .nil⟩

instance : Inhabited (OrderedMap K V) := ⟨empty⟩

def insertEntry (k : K) (v : V) : List (K × V) → List (K × V)
  | [] => [(k, v)]
  | e :: l => if k < e.1 then (k, v) :: e :: l else if k = e.1 then (k, v) :: l else e :: insertEntry k v l

variable {k : K} {v : V} {l : List (K × V)} {m : OrderedMap K V}

theorem mem_keys_insertEntry {x : K} : x ∈ (insertEntry k v l).map Prod.fst → x = k ∨ x ∈ l.map Prod.fst := by
  induction l with
  | nil => simp [insertEntry]
  | cons e l ih =>
    rw [insertEntry]
    split_ifs with hlt heq
    · simp
    · simp only [map_cons, mem_cons]
      tauto
    · simp only [map_cons, mem_cons]
      rintro (h | h)
      · exact .inr (.inl h)
      · rcases ih h with h | h
        · exact .inl h
        · exact .inr (.inr h)

theorem sorted_insertEntry (k : K) (v : V) (h : (l.map Prod.fst).Pairwise (· < ·)) :
    ((insertEntry k v l).map Prod.fst).Pairwise (· < ·) := by
  induction l with
  | nil => exact pairwise_singleton _ _
  | cons e l ih =>
    rw [map_cons, pairwise_cons] at h
    rw [insertEntry]
    split_ifs with hlt heq
    · refine pairwise_cons.mpr ⟨fun x hx => ?_, pairwise_cons.mpr h⟩
      rcases mem_cons.mp hx with rfl | hx
      · exact hlt
      · exact hlt.trans (h.1 x hx)
    · exact pairwise_cons.mpr ⟨fun x hx => heq ▸ h.1 x hx, h.2⟩
    · refine pairwise_cons.mpr ⟨fun x hx => ?_, ih h.2⟩
      rcases mem_keys_insertEntry hx with rfl | hx
      · exact lt_of_le_of_ne (not_lt.mp hlt) (Ne.symm heq)
      · exact h.1 x hx

/-- The map with the key set to the value. -/
def insert (k : K) (v : V) (m : OrderedMap K V) : OrderedMap K V :=
  ⟨insertEntry k v m.entries, sorted_insertEntry k v m.sorted⟩

def get? (m : OrderedMap K V) (k : K) : Option V := (m.entries.find? fun e => e.1 = k).map Prod.snd

@[simp] theorem get?_empty (k : K) : (empty : OrderedMap K V).get? k = none := rfl

theorem find?_insertEntry (k : K) (v : V) (h : (l.map Prod.fst).Pairwise (· < ·)) (k' : K) :
    (insertEntry k v l).find? (fun e => e.1 = k') = if k' = k then some (k, v) else l.find? fun e => e.1 = k' := by
  induction l with
  | nil => by_cases hk : k' = k <;> simp [insertEntry, hk, eq_comm]
  | cons e l ih =>
    rw [map_cons, pairwise_cons] at h
    rw [insertEntry]
    by_cases hk : k' = k
    · subst hk
      rw [if_pos rfl] at ih ⊢
      split_ifs with hlt heq
      · simp
      · simp
      · rw [find?_cons_of_neg (by simpa using Ne.symm heq), ih h.2]
    · rw [if_neg hk] at ih ⊢
      split_ifs with hlt heq
      · rw [find?_cons_of_neg (by simpa using Ne.symm hk)]
      · rw [find?_cons_of_neg (by simpa using Ne.symm hk),
          find?_cons_of_neg (by simpa [← heq] using Ne.symm hk)]
      · rw [find?_cons, find?_cons, ih h.2]

theorem get?_insert (k : K) (v : V) (m : OrderedMap K V) (k' : K) :
    (m.insert k v).get? k' = if k' = k then some v else m.get? k' := by
  rw [get?, insert, find?_insertEntry k v m.sorted, get?]
  split_ifs <;> rfl

/-- The map of a list of entries; of two with one key the later stays. -/
def ofList (l : List (K × V)) : OrderedMap K V := l.foldl (fun m e => m.insert e.1 e.2) empty

theorem get?_foldl_insert (l : List (K × V)) (hnodup : (l.map Prod.fst).Nodup) (m : OrderedMap K V) (k : K) (v : V) :
    (l.foldl (fun m e => m.insert e.1 e.2) m).get? k = some v ↔
      (k, v) ∈ l ∨ k ∉ l.map Prod.fst ∧ m.get? k = some v := by
  induction l generalizing m with
  | nil => simp
  | cons e l ih =>
    rw [map_cons, nodup_cons] at hnodup
    rw [foldl_cons, ih hnodup.2, get?_insert, map_cons, mem_cons, mem_cons, not_or]
    by_cases hk : k = e.1
    · rw [if_pos hk]
      have hnot : k ∉ l.map Prod.fst := hk ▸ hnodup.1
      have hnot' : (k, v) ∉ l := fun h => hnot (mem_map_of_mem h)
      constructor
      · rintro (h | ⟨-, h⟩)
        · exact absurd h hnot'
        · exact .inl (.inl (Prod.ext hk (Option.some.inj h).symm))
      · rintro ((h | h) | ⟨⟨h, -⟩, -⟩)
        · exact .inr ⟨hnot, congrArg some (congrArg Prod.snd h).symm⟩
        · exact absurd h hnot'
        · exact absurd hk h
    · rw [if_neg hk]
      have hne : (k, v) ≠ e := fun h => hk (congrArg Prod.fst h)
      tauto

theorem get?_ofList (hnodup : (l.map Prod.fst).Nodup) : (ofList l).get? k = some v ↔ (k, v) ∈ l := by
  rw [ofList, get?_foldl_insert l hnodup, get?_empty]
  simp

theorem get?_foldl_insert_fun (l : List K) (f : K → V) (m : OrderedMap K V) (k : K) :
    (l.foldl (fun m k => m.insert k (f k)) m).get? k = if k ∈ l then some (f k) else m.get? k := by
  induction l generalizing m with
  | nil => simp
  | cons k' l ih =>
    rw [foldl_cons, ih, get?_insert]
    by_cases hk : k = k'
    · subst hk
      simp
    · simp [hk]

theorem nodup_keys (m : OrderedMap K V) : (m.entries.map Prod.fst).Nodup := m.sorted.imp ne_of_lt

theorem mem_entries_iff : (k, v) ∈ m.entries ↔ m.get? k = some v := by
  have hnodup := m.nodup_keys
  rw [get?]
  constructor
  · intro hmem
    cases hfind : m.entries.find? fun e => e.1 = k with
    | none => exact absurd (find?_eq_none.mp hfind _ hmem) (by simp)
    | some e =>
      have hk : e.1 = k := by simpa using find?_some hfind
      have heq : e = (k, v) := inj_on_of_nodup_map hnodup (mem_of_find?_eq_some hfind) hmem hk
      rw [heq]
      rfl
  · intro h
    obtain ⟨e, hfind, rfl⟩ := Option.map_eq_some_iff.mp h
    have hk : e.1 = k := by simpa using find?_some hfind
    have := mem_of_find?_eq_some hfind
    rwa [← hk]

theorem insert_get? (h : m.get? k = some v) : m.insert k v = m := by
  have hentries (l : List (K × V)) (hsorted : (l.map Prod.fst).Pairwise (· < ·)) (hmem : (k, v) ∈ l) : insertEntry k v l = l := by
    induction l with
    | nil => exact absurd hmem not_mem_nil
    | cons e l ih =>
      rw [map_cons, pairwise_cons] at hsorted
      rw [insertEntry]
      obtain rfl | hmem := mem_cons.mp hmem
      · rw [if_neg (lt_irrefl _), if_pos rfl]
      · have hlt := hsorted.1 k (mem_map_of_mem hmem)
        rw [if_neg hlt.asymm, if_neg hlt.ne', ih hsorted.2 hmem]
  obtain ⟨entries, hsorted⟩ := m
  simp only [insert, hentries entries hsorted (mem_entries_iff.mpr h)]

/-- The sum of a quantity over the entries. -/
def total (q : K → V → ℕ) (m : OrderedMap K V) : ℕ := (m.entries.map fun e => q e.1 e.2).sum

variable (q : K → V → ℕ)

theorem total_insertEntry (k : K) (v : V) (h : (l.map Prod.fst).Pairwise (· < ·)) :
    ((insertEntry k v l).map fun e => q e.1 e.2).sum + ((l.find? fun e => e.1 = k).elim 0 fun e => q e.1 e.2) =
      (l.map fun e => q e.1 e.2).sum + q k v := by
  induction l with
  | nil => simp [insertEntry]
  | cons e l ih =>
    rw [map_cons, pairwise_cons] at h
    rw [insertEntry]
    split_ifs with hlt heq
    · have hnone : (e :: l).find? (fun e => e.1 = k) = none := by
        refine find?_eq_none.mpr fun x hx hxk => ?_
        have hxk : x.1 = k := by simpa using hxk
        rcases mem_cons.mp hx with rfl | hx
        · exact absurd hlt (by rw [hxk]; exact lt_irrefl k)
        · exact absurd (hlt.trans (h.1 x.1 (mem_map_of_mem hx))) (by rw [hxk]; exact lt_irrefl k)
      rw [hnone]
      simp only [map_cons, sum_cons, Option.elim_none]
      omega
    · rw [find?_cons_of_pos (by simp [heq])]
      simp only [map_cons, sum_cons, Option.elim_some]
      omega
    · rw [find?_cons_of_neg (by simpa using Ne.symm heq)]
      have := ih h.2
      simp only [map_cons, sum_cons]
      omega

theorem total_insert (k : K) (v : V) (m : OrderedMap K V) :
    (m.insert k v).total q + (m.get? k).elim 0 (q k) = m.total q + q k v := by
  have h := total_insertEntry q k v m.sorted
  rw [total, insert, total, get?, ← h]
  congr 1
  cases hfind : m.entries.find? fun e => e.1 = k with
  | none => rfl
  | some e =>
    have hk : e.1 = k := by simpa using find?_some hfind
    simp [hk]

/-- Changing the value at a key, where a missing value counts as a default of no
weight, adds what the new value weighs more. -/
theorem total_update (k : K) (default v : V) (m : OrderedMap K V) (h : q k default = 0) :
    (m.insert k v).total q + q k ((m.get? k).getD default) = m.total q + q k v := by
  rw [← total_insert q k v m]
  cases m.get? k with
  | none => rw [Option.getD_none, h, Option.elim_none]
  | some v' => rfl

theorem total_single (k : K) (f : V → ℕ) (m : OrderedMap K V) :
    m.total (fun k' v => if k' = k then f v else 0) = (m.get? k).elim 0 f := by
  obtain ⟨l, h⟩ := m
  rw [total, get?]
  induction l with
  | nil => rfl
  | cons e l ih =>
    rw [map_cons, pairwise_cons] at h
    rw [map_cons, sum_cons, ih h.2]
    by_cases hk : e.1 = k
    · have hnone : l.find? (fun x => x.1 = k) = none := by
        refine find?_eq_none.mpr fun x hx hxk => ?_
        have hxk : x.1 = k := by simpa using hxk
        exact (h.1 x.1 (mem_map_of_mem hx)).ne (hk.trans hxk.symm)
      rw [hnone, find?_cons_of_pos (by simpa using hk), if_pos hk]
      rfl
    · rw [find?_cons_of_neg (by simpa using hk), if_neg hk, Nat.zero_add]

theorem le_total {q : K → V → ℕ} {m : OrderedMap K V} {k : K} {v : V} (h : m.get? k = some v) : q k v ≤ m.total q :=
  single_le_sum (fun _ _ => Nat.zero_le _) _ (mem_map_of_mem (mem_entries_iff.mpr h))

theorem total_eq_zero {q : K → V → ℕ} (h : ∀ k v, m.get? k = some v → q k v = 0) : m.total q = 0 := by
  refine sum_eq_zero fun x hx => ?_
  obtain ⟨e, he, rfl⟩ := mem_map.mp hx
  exact h e.1 e.2 (mem_entries_iff.mp he)

section

variable (test : K → V → Bool) (m : OrderedMap K V)

/-- The entries that satisfy the test. -/
def retain : OrderedMap K V :=
  ⟨m.entries.filter fun e => test e.1 e.2, m.sorted.sublist (List.filter_sublist.map Prod.fst)⟩

/-- The map without the key. -/
def erase (k : K) (m : OrderedMap K V) : OrderedMap K V := m.retain fun k' _ => k' ≠ k

theorem get?_retain (k : K) : (m.retain test).get? k = (m.get? k).filter (test k) := by
  apply Option.ext
  intro v
  rw [← mem_entries_iff, Option.filter_eq_some_iff, ← mem_entries_iff]
  exact mem_filter

theorem get?_erase (k : K) (m : OrderedMap K V) (k' : K) : (m.erase k).get? k' = if k' = k then none else m.get? k' := by
  rw [erase, get?_retain]
  by_cases hk : k' = k
  · simp [hk]
  · cases m.get? k' <;> simp [hk]

theorem total_retain_eq :
    (m.retain test).total q = ((m.entries.filter fun e => test e.1 e.2).map fun e => q e.1 e.2).sum := rfl

theorem total_retain : (m.retain test).total q + (m.retain fun k v => !test k v).total q = m.total q := by
  rw [total_retain_eq, total_retain_eq, total]
  induction m.entries with
  | nil => rfl
  | cons e l ih =>
    rw [filter_cons, filter_cons, map_cons, sum_cons]
    cases test e.1 e.2 with
    | true =>
      simp only [Bool.not_true, Bool.false_eq_true, if_true, if_false, map_cons, sum_cons]
      omega
    | false =>
      simp only [Bool.not_false, Bool.false_eq_true, if_true, if_false, map_cons, sum_cons]
      omega

end

theorem total_erase (k : K) (m : OrderedMap K V) : (m.erase k).total q + (m.get? k).elim 0 (q k) = m.total q := by
  have hsplit := total_retain q (fun k' _ => k' ≠ k) m
  have hothers : (m.retain fun k' _ => !decide (k' ≠ k)).total q = (m.get? k).elim 0 (q k) := by
    rw [← total_single k (q k) m, total_retain_eq, total]
    induction m.entries with
    | nil => rfl
    | cons e l ih =>
      rw [filter_cons, map_cons, sum_cons]
      by_cases hk : e.1 = k
      · rw [if_pos (by simpa using hk), map_cons, sum_cons, ih, if_pos hk, hk]
      · rw [if_neg (by simpa using hk), ih, if_neg hk, Nat.zero_add]
  rw [hothers] at hsplit
  exact hsplit

section Values

variable {W : Type}

def mapValues (f : K → V → W) (m : OrderedMap K V) : OrderedMap K W :=
  ⟨m.entries.map fun e => (e.1, f e.1 e.2), by rw [List.map_map]; exact m.sorted⟩

theorem get?_mapValues (f : K → V → W) (m : OrderedMap K V) (k : K) : (m.mapValues f).get? k = (m.get? k).map (f k) := by
  change ((m.entries.map fun e => (e.1, f e.1 e.2)).find? fun e => e.1 = k).map Prod.snd =
    ((m.entries.find? fun e => e.1 = k).map Prod.snd).map (f k)
  induction m.entries with
  | nil => rfl
  | cons e l ih =>
    rw [map_cons]
    by_cases he : e.1 = k
    · rw [find?_cons_of_pos (by simpa using he), find?_cons_of_pos (by simpa using he), ← he]
      rfl
    · rw [find?_cons_of_neg (by simpa using he), find?_cons_of_neg (by simpa using he), ih]

theorem insertEntry_of_lt {k : K} {v : V} {l : List (K × V)} (h : ∀ x ∈ l.map Prod.fst, x < k) :
    insertEntry k v l = l ++ [(k, v)] := by
  induction l with
  | nil => rfl
  | cons e l ih =>
    have he : e.1 < k := h e.1 mem_cons_self
    rw [insertEntry, if_neg he.le.not_gt, if_neg he.ne', ih fun x hx => h x (mem_cons_of_mem _ hx)]
    rfl

theorem foldl_insert_eq_mapValues (f : K → V → W) (m : OrderedMap K V) :
    m.entries.foldl (fun (m' : OrderedMap K W) e => m'.insert e.1 (f e.1 e.2)) empty = m.mapValues f := by
  have hentries : (m.entries.foldl (fun (m' : OrderedMap K W) e => m'.insert e.1 (f e.1 e.2)) empty).entries =
      m.entries.map fun e => (e.1, f e.1 e.2) := by
    obtain ⟨l, hsorted⟩ := m
    change (l.foldl (fun (m' : OrderedMap K W) e => m'.insert e.1 (f e.1 e.2)) empty).entries = l.map fun e => (e.1, f e.1 e.2)
    induction l using reverseRecOn with
    | nil => rfl
    | append_singleton l e ih =>
      rw [map_append, pairwise_append] at hsorted
      rw [foldl_append, map_append]
      change insertEntry e.1 (f e.1 e.2) _ = _
      rw [ih hsorted.1, insertEntry_of_lt]
      · rfl
      · rw [map_map]
        exact fun x hx => hsorted.2.2 x hx e.1 (mem_singleton_self _)
  cases hm : m.entries.foldl (fun (m' : OrderedMap K W) e => m'.insert e.1 (f e.1 e.2)) empty with
  | mk entries sorted =>
    rw [hm] at hentries
    simp only [mapValues, ← hentries]

end Values

end OrderedMap

end VerifiableCompute.Lib
