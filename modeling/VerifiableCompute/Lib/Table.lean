import Mathlib

/-! Keyed tables that take rows from a stream. A row whose key is taken is ignored by one statement
and replaces the row that is there by another. What a table holds of a stream depends neither on how
the stream was cut nor on the parts that were inserted twice. -/

namespace VerifiableCompute.Lib

open List

variable {ρ κ : Type} [DecidableEq κ] (key : ρ → κ)

/-- `INSERT … ON CONFLICT DO NOTHING`. -/
def insertNew (table : List ρ) (row : ρ) : List ρ := if ∃ r ∈ table, key r = key row then table else table ++ [row]

def insertAll (table rows : List ρ) : List ρ := rows.foldl (insertNew key) table

/-- `INSERT … ON CONFLICT DO UPDATE`. -/
def upsert (table : List ρ) (row : ρ) : List ρ := row :: table.filter fun r => key r ≠ key row

def findRow (table : List ρ) (k : κ) : Option ρ := table.find? fun r => key r = k

variable {key} {table rows : List ρ}

theorem insertAll_append (rows' : List ρ) : insertAll key table (rows ++ rows') = insertAll key (insertAll key table rows) rows' :=
  foldl_append

theorem insertAll_of_taken (h : ∀ row ∈ rows, ∃ r ∈ table, key r = key row) : insertAll key table rows = table := by
  induction rows with
  | nil => rfl
  | cons row rows ih =>
    have hfirst : insertNew key table row = table := if_pos (h row mem_cons_self)
    rw [insertAll, foldl_cons, hfirst]
    exact ih fun r hr => h r (mem_cons_of_mem _ hr)

theorem insertAll_eq_append (table rows : List ρ) : ∃ new, insertAll key table rows = table ++ new ∧ ∀ r ∈ new, r ∈ rows := by
  induction rows generalizing table with
  | nil => exact ⟨[], (append_nil table).symm, fun _ h => h⟩
  | cons row rows ih =>
    rw [insertAll, foldl_cons, insertNew]
    split_ifs
    · obtain ⟨new, hnew, hmem⟩ := ih table
      exact ⟨new, hnew, fun r hr => mem_cons_of_mem _ (hmem r hr)⟩
    · obtain ⟨new, hnew, hmem⟩ := ih (table ++ [row])
      refine ⟨row :: new, hnew.trans (append_cons table row new).symm, fun r hr => ?_⟩
      obtain rfl | hr := mem_cons.mp hr
      · exact mem_cons_self
      · exact mem_cons_of_mem _ (hmem r hr)

theorem mem_insertAll_of_mem {r : ρ} (h : r ∈ table) : r ∈ insertAll key table rows := by
  obtain ⟨new, hnew, -⟩ := @insertAll_eq_append ρ κ _ key table rows
  exact hnew ▸ mem_append_left _ h

theorem taken_insertAll (table rows : List ρ) : ∀ row ∈ rows, ∃ r ∈ insertAll key table rows, key r = key row := by
  induction rows generalizing table with
  | nil => exact fun row h => absurd h not_mem_nil
  | cons row rows ih =>
    intro row' hrow'
    obtain rfl | hrow' := mem_cons.mp hrow'
    · have hfirst : ∃ r ∈ insertNew key table row', key r = key row' := by
        rw [insertNew]
        split_ifs with htaken
        · exact htaken
        · exact ⟨row', mem_append_right _ (mem_singleton.mpr rfl), rfl⟩
      obtain ⟨r, hr, hkey⟩ := hfirst
      exact ⟨r, @mem_insertAll_of_mem ρ κ _ key (insertNew key table row') rows r hr, hkey⟩
    · exact ih (insertNew key table row) row' hrow'

variable {k : κ} {r row : ρ}

theorem findRow_mem (h : findRow key table k = some r) : r ∈ table ∧ key r = k :=
  ⟨mem_of_find?_eq_some h, of_decide_eq_true (find?_some (p := fun r => decide (key r = k)) h)⟩

theorem findRow_insertAll (h : ∀ row ∈ rows, key row ≠ k) : findRow key (insertAll key table rows) k = findRow key table k := by
  obtain ⟨new, hnew, hmem⟩ := @insertAll_eq_append ρ κ _ key table rows
  have hnone : findRow key new k = none := find?_eq_none.mpr fun r hr => by simpa using h r (hmem r hr)
  rw [hnew, findRow, find?_append]
  change (findRow key table k).or (findRow key new k) = _
  rw [hnone, Option.or_none]

theorem findRow_upsert_self (table : List ρ) (row : ρ) : findRow key (upsert key table row) (key row) = some row := by
  rw [findRow, upsert, find?_cons_of_pos]
  exact decide_eq_true rfl

theorem findRow_upsert_of_ne (h : k ≠ key row) : findRow key (upsert key table row) k = findRow key table k := by
  rw [findRow, upsert, find?_cons_of_neg (by simpa using h.symm), find?_filter]
  congr 1
  funext r
  by_cases hr : key r = k
  · simp [hr, h]
  · simp [hr]

theorem findRow_upsertAll_of_ne {k : κ} (h : ∀ row ∈ rows, key row ≠ k) : findRow key (rows.foldl (upsert key) table) k = findRow key table k := by
  induction rows generalizing table with
  | nil => rfl
  | cons row rows ih =>
    rw [foldl_cons, ih fun r hr => h r (mem_cons_of_mem _ hr)]
    exact findRow_upsert_of_ne (h row mem_cons_self).symm

theorem findRow_upsertAll {row : ρ} (hrow : row ∈ rows) (hsame : ∀ r ∈ rows, key r = key row → r = row) :
    findRow key (rows.foldl (upsert key) table) (key row) = some row := by
  induction rows using reverseRecOn with
  | nil => exact absurd hrow not_mem_nil
  | append_singleton rows last ih =>
    rw [foldl_append, foldl_cons, foldl_nil]
    by_cases hkey : key last = key row
    · rw [hsame last (mem_append_right _ (mem_singleton.mpr rfl)) hkey]
      exact findRow_upsert_self _ row
    · have hbefore : row ∈ rows := by
        obtain hrow | hrow := mem_append.mp hrow
        · exact hrow
        · exact absurd (mem_singleton.mp hrow ▸ rfl) hkey
      rw [findRow_upsert_of_ne (Ne.symm hkey)]
      exact ih hbefore fun r hr => hsame r (mem_append_left _ hr)

theorem mem_upsert (h : r ∈ upsert key table row) : r = row ∨ r ∈ table :=
  (mem_cons.mp h).imp_right mem_of_mem_filter

theorem key_mem_upsert {row r : ρ} (h : r ∈ table) : ∃ r' ∈ upsert key table row, key r' = key r := by
  by_cases heq : key r = key row
  · exact ⟨row, mem_cons_self, heq.symm⟩
  · exact ⟨r, mem_cons_of_mem _ (mem_filter.mpr ⟨h, by simpa using heq⟩), rfl⟩

/-- What a stream brings from one position up to another. -/
def between (stream : ℕ → List ρ) (start stop : ℕ) : List ρ := (List.range' start (stop - start)).flatMap stream

variable {stream : ℕ → List ρ} {start next reach stop : ℕ}

theorem mem_between : r ∈ between stream start stop ↔ ∃ b, start ≤ b ∧ b < stop ∧ r ∈ stream b := by
  simp only [between, mem_flatMap, mem_range'_1]
  constructor
  · rintro ⟨b, ⟨hb, hlt⟩, hr⟩
    exact ⟨b, hb, by omega, hr⟩
  · rintro ⟨b, hb, hlt, hr⟩
    exact ⟨b, ⟨hb, by omega⟩, hr⟩

theorem between_append (hnext : start ≤ next) (hstop : next ≤ stop) : between stream start next ++ between stream next stop = between stream start stop := by
  have hrange : range' start (next - start) ++ range' next (stop - next) = range' start (stop - start) := by
    obtain ⟨m, rfl⟩ := Nat.exists_eq_add_of_le hnext
    obtain ⟨n, rfl⟩ := Nat.exists_eq_add_of_le hstop
    have hall : start + m + n - start = m + n := by omega
    rw [Nat.add_sub_cancel_left, Nat.add_sub_cancel_left, hall]
    simp
  rw [between, between, between, ← hrange, flatMap_append]

theorem between_isPrefix (hstop : next ≤ stop) (h : start ≤ next) : between stream start next <+: between stream start stop :=
  ⟨_, between_append h hstop⟩

variable (key) in
/-- The rows before `next` were all inserted, and some of the first rows from there up to `reach`. -/
def Holds (stream : ℕ → List ρ) (start next reach : ℕ) (table : List ρ) : Prop :=
  ∃ rest, rest <+: between stream next reach ∧ table = insertAll key [] (between stream start next ++ rest)

theorem Holds.empty : Holds key stream start start start [] := ⟨[], nil_prefix, by simp [between, insertAll]⟩

theorem insertAll_again {rest rows' : List ρ} (h : rest <+: rows') : insertAll key (insertAll key table rest) rows' = insertAll key table rows' := by
  obtain ⟨more, rfl⟩ := h
  rw [insertAll_append, insertAll_of_taken (taken_insertAll table rest), insertAll_append]

theorem Holds.attempt (h : Holds key stream start next reach table) (hstop : next ≤ stop) (hreach : next ≤ reach) (hrows : rows <+: between stream next stop) :
    Holds key stream start next (max reach stop) (insertAll key table rows) := by
  obtain ⟨rest, hrest, rfl⟩ := h
  have hrest' : rest <+: between stream next (max reach stop) := hrest.trans (between_isPrefix (le_max_left _ _) hreach)
  have hrows' : rows <+: between stream next (max reach stop) := hrows.trans (between_isPrefix (le_max_right _ _) hstop)
  obtain hle | hle := prefix_or_prefix_of_prefix hrest' hrows'
  · exact ⟨rows, hrows', by rw [insertAll_append, insertAll_again hle, insertAll_append]⟩
  · refine ⟨rest, hrest', insertAll_of_taken fun row hrow => ?_⟩
    rw [insertAll_append]
    exact taken_insertAll _ rest row (hle.subset hrow)

theorem Holds.all (h : Holds key stream start next reach table) (hstart : start ≤ next) (hstop : next ≤ stop) (hreach : reach ≤ stop) :
    Holds key stream start stop stop (insertAll key table (between stream next stop)) := by
  obtain ⟨rest, hrest, rfl⟩ := h
  have hrest' : rest <+: between stream next stop := by
    by_cases hle : next ≤ reach
    · exact hrest.trans (between_isPrefix hreach hle)
    · have hnone : rest = [] := by
        rw [between, Nat.sub_eq_zero_of_le (by omega)] at hrest
        exact prefix_nil.mp hrest
      exact hnone ▸ nil_prefix
  refine ⟨[], nil_prefix, ?_⟩
  rw [insertAll_append, insertAll_again hrest', ← insertAll_append, append_nil, between_append hstart hstop]

/-- When nothing was inserted ahead, the table is determined by the stream. -/
theorem Holds.eq (h : Holds key stream start stop stop table) : table = insertAll key [] (between stream start stop) := by
  obtain ⟨rest, hrest, rfl⟩ := h
  have hnone : rest = [] := by
    rw [between, Nat.sub_self] at hrest
    exact prefix_nil.mp hrest
  rw [hnone, append_nil]

/-! Tables as lists of rows. A statement rewrites the rows that meet a condition
and shows every pair of old and new row to a row trigger. A counter that a
trigger moves by the difference of each pair, never below zero, stays equal to
the number of rows it counts. -/

variable {ρ κ : Type}

def updateWhere (p : ρ → Bool) (f : ρ → ρ) (rows : List ρ) : List ρ :=
  rows.map fun r => if p r then f r else r

/-- What a row trigger sees of an update, in row order. -/
def changedRows (p : ρ → Bool) (f : ρ → ρ) (rows : List ρ) : List (ρ × ρ) :=
  (rows.filter p).map fun r => (r, f r)

/-- The rows in the order in which a planner happens to deliver them. -/
def scan (rank : κ → ℕ) (key : ρ → κ) (rows : List ρ) : List ρ :=
  rows.insertionSort fun a b => rank (key a) ≤ rank (key b)

/-- `ORDER BY … LIMIT 1`: the first row delivered that no other row precedes. -/
def firstBy (before : ρ → ρ → Bool) (rows : List ρ) : Option ρ :=
  rows.find? fun r => rows.all fun r' => !before r' r

/-- `LEFT JOIN`: a row without a match is kept once, with a null partner. -/
def leftJoin {σ : Type} (partners : ρ → List σ) (rows : List ρ) : List (ρ × Option σ) :=
  rows.flatMap fun r =>
    match partners r with
    | [] => [(r, none)]
    | s :: ss => (s :: ss).map fun s => (r, some s)

variable {rows : List ρ} {r : ρ}

theorem mem_scan {rank : κ → ℕ} {key : ρ → κ} : r ∈ scan rank key rows ↔ r ∈ rows :=
  mem_insertionSort _

theorem firstBy_mem {before : ρ → ρ → Bool} (h : firstBy before rows = some r) : r ∈ rows :=
  mem_of_find?_eq_some h

theorem exists_mem_leftJoin {σ : Type} (partners : ρ → List σ) (h : r ∈ rows) :
    ∃ o, (r, o) ∈ leftJoin partners rows ∧ ∀ s, o = some s → s ∈ partners r := by
  cases hp : partners r with
  | nil => exact ⟨none, mem_flatMap.mpr ⟨r, h, by simp [hp]⟩, by simp⟩
  | cons s ss => exact ⟨some s, mem_flatMap.mpr ⟨r, h, by simp [hp]⟩, by simp⟩

section

variable (p : ρ → Bool) (f : ρ → ρ) (rows : List ρ)

theorem mem_updateWhere (r : ρ) : r ∈ updateWhere p f rows ↔ ∃ r₀ ∈ rows, r = if p r₀ then f r₀ else r₀ := by
  simp only [updateWhere, mem_map, eq_comm]

/-- A statement that leaves a column alone leaves the column of the whole table. -/
theorem map_updateWhere (col : ρ → κ)
    (hcol : ∀ r ∈ rows, p r → col (f r) = col r) : (updateWhere p f rows).map col = rows.map col := by
  rw [updateWhere, map_map]
  refine map_congr_left fun r hr => ?_
  by_cases hp : p r <;> simp [hp, hcol r hr]

/-- A statement whose condition no row meets changes nothing. -/
theorem updateWhere_of_none (h : ∀ r ∈ rows, ¬ p r) : updateWhere p f rows = rows := by
  rw [updateWhere]
  conv_rhs => rw [← map_id rows]
  refine map_congr_left fun r hr => ?_
  simp [h r hr]

theorem changedRows_of_none (h : ∀ r ∈ rows, ¬ p r) : changedRows p f rows = [] := by
  rw [changedRows, filter_eq_nil_iff.mpr h, map_nil]

end

/-- One when the row is counted. -/
def indicator (q : ρ → Bool) (r : ρ) : ℤ := if q r then 1 else 0

/-- The counter after one pair of rows. -/
def moveCounter (q : ρ → Bool) (c : ℤ) (x : ρ × ρ) : ℤ := max (c + (indicator q x.2 - indicator q x.1)) 0

theorem countP_cons_indicator (q : ρ → Bool) (r : ρ) (rows : List ρ) :
    ((r :: rows).countP q : ℤ) = indicator q r + rows.countP q := by
  rw [countP_cons, indicator]
  split <;> push_cast <;> ring

theorem indicator_nonneg (q : ρ → Bool) (r : ρ) : 0 ≤ indicator q r := by
  unfold indicator
  split <;> omega

/-- A counter that is exact before a statement is exact after its triggers; `b`
counts the rows that were handled before. -/
theorem foldl_moveCounter (q p : ρ → Bool) (f : ρ → ρ) (rows : List ρ) (b : ℤ) (hb : 0 ≤ b) :
    (changedRows p f rows).foldl (moveCounter q) (b + rows.countP q) =
      b + (updateWhere p f rows).countP q := by
  induction rows generalizing b with
  | nil => rfl
  | cons r rows ih =>
    have hr := indicator_nonneg q r
    have hfr := indicator_nonneg q (f r)
    by_cases hp : p r
    · have hstep : moveCounter q (b + (r :: rows).countP q) (r, f r) =
          b + indicator q (f r) + rows.countP q := by
        have hrest : (0 : ℤ) ≤ rows.countP q := Int.natCast_nonneg _
        rw [countP_cons_indicator]
        change max (_ + (indicator q (f r) - indicator q r)) 0 = _
        omega
      have hchanged : changedRows p f (r :: rows) = (r, f r) :: changedRows p f rows := by
        simp [changedRows, hp]
      have hupdated : updateWhere p f (r :: rows) = f r :: updateWhere p f rows := by
        simp [updateWhere, hp]
      rw [hchanged, foldl_cons, hstep, ih _ (by omega), hupdated, countP_cons_indicator]
      ring
    · have hchanged : changedRows p f (r :: rows) = changedRows p f rows := by
        simp [changedRows, hp]
      have hupdated : updateWhere p f (r :: rows) = r :: updateWhere p f rows := by
        simp [updateWhere, hp]
      rw [hchanged, countP_cons_indicator, ← add_assoc, ih _ (by omega), hupdated, countP_cons_indicator]
      ring

/-- Triggers that act on every element of a second table on its own. -/
theorem foldl_map_comm {σ τ : Type} (g : τ → σ → σ) (xs : List τ) (l : List σ) :
    xs.foldl (fun l x => l.map (g x)) l = l.map fun s => xs.foldl (fun s x => g x s) s := by
  induction xs generalizing l with
  | nil => simp
  | cons x xs ih => rw [foldl_cons, ih, map_map]; rfl

section SortByKey

variable {ρ : Type} {key : ρ → ℕ}

theorem eq_of_filter_eq {as bs : List ρ} (has : as.Pairwise fun a b => key a ≤ key b) (hbs : bs.Pairwise fun a b => key a ≤ key b)
    (h : ∀ k, (as.filter fun a => key a = k) = bs.filter fun b => key b = k) : as = bs := by
  induction as generalizing bs with
  | nil =>
    cases bs with
    | nil => rfl
    | cons b bs => exact absurd (h (key b)) (by simp)
  | cons a as ih =>
    have hmem {c : ρ} : c ∈ a :: as ↔ c ∈ bs := by
      have := congrArg (c ∈ ·) (h (key c))
      simpa using this
    cases bs with
    | nil => exact absurd (hmem.mp mem_cons_self) not_mem_nil
    | cons b bs =>
      rw [pairwise_cons] at has hbs
      have hab : key a = key b := by
        apply le_antisymm
        · rcases mem_cons.mp (hmem.mpr mem_cons_self) with heq | hb
          · rw [heq]
          · exact has.1 b hb
        · rcases mem_cons.mp (hmem.mp mem_cons_self) with heq | ha
          · rw [heq]
          · exact hbs.1 a ha
      have hfirst := h (key a)
      rw [filter_cons_of_pos (by simp), filter_cons_of_pos (by simp [hab])] at hfirst
      obtain ⟨rfl, -⟩ := cons.inj hfirst
      rw [ih has.2 hbs.2 fun k => ?_]
      have hk := h k
      by_cases hak : key a = k
      · rw [filter_cons_of_pos (by simpa using hak), filter_cons_of_pos (by simpa using hak)] at hk
        exact (cons.inj hk).2
      · rwa [filter_cons_of_neg (by simpa using hak), filter_cons_of_neg (by simpa using hak)] at hk

theorem filter_insertionSort (rows : List ρ) (k : ℕ) :
    (rows.insertionSort fun a b => key a ≤ key b).filter (fun a => key a = k) = rows.filter fun a => key a = k := by
  have hpairwise : (rows.filter fun a => key a = k).Pairwise fun a b => key a ≤ key b := by
    refine pairwise_of_forall_mem_list fun a ha b hb => ?_
    rw [mem_filter, decide_eq_true_eq] at ha hb
    exact (ha.2.trans hb.2.symm).le
  have hsublist := (sublist_insertionSort hpairwise filter_sublist).filter fun a => key a = k
  simp only [filter_filter, Bool.and_self] at hsublist
  exact (hsublist.eq_of_length ((perm_insertionSort _ rows).filter _).length_eq.symm).symm

/-- A stable sort puts the rows of each key together and leaves them in their order. -/
theorem insertionSort_eq_groups {keys : List ℕ} (hkeys : keys.Pairwise (· < ·)) {rows : List ρ} (hrows : ∀ a ∈ rows, key a ∈ keys) :
    (rows.insertionSort fun a b => key a ≤ key b) = keys.flatMap fun k => rows.filter fun a => key a = k := by
  apply eq_of_filter_eq
  · exact pairwise_insertionSort _ rows
  · rw [pairwise_flatMap]
    refine ⟨fun k _ => ?_, hkeys.imp fun {k l} hlt a ha b hb => ?_⟩
    · refine pairwise_of_forall_mem_list fun a ha b hb => ?_
      rw [mem_filter, decide_eq_true_eq] at ha hb
      exact (ha.2.trans hb.2.symm).le
    · rw [mem_filter, decide_eq_true_eq] at ha hb
      omega
  · intro k
    rw [filter_insertionSort, filter_flatMap]
    have hgroup (l : ℕ) : (rows.filter fun a => key a = l).filter (fun a => key a = k) = if l = k then rows.filter fun a => key a = k else [] := by
      by_cases hlk : l = k
      · rw [if_pos hlk, hlk, filter_filter]
        simp
      · rw [if_neg hlk, filter_filter, filter_eq_nil_iff]
        intro a _
        simp only [Bool.and_eq_true, decide_eq_true_eq]
        omega
    simp only [hgroup]
    by_cases hk : k ∈ keys
    · obtain ⟨before, after, rfl⟩ := append_of_mem hk
      have hnodup := hkeys.imp fun {a b} h => Nat.ne_of_lt h
      rw [pairwise_append, pairwise_cons] at hnodup
      have hbefore : (before.flatMap fun l => if l = k then rows.filter fun a => key a = k else []) = [] := by
        rw [flatMap_eq_nil_iff]
        intro l hl
        exact if_neg (hnodup.2.2 l hl k mem_cons_self)
      have hafter : (after.flatMap fun l => if l = k then rows.filter fun a => key a = k else []) = [] := by
        rw [flatMap_eq_nil_iff]
        intro l hl
        exact if_neg (Ne.symm (hnodup.2.1.1 l hl))
      rw [flatMap_append, flatMap_cons, if_pos rfl, hbefore, hafter, nil_append, append_nil]
    · have hnone : (rows.filter fun a => key a = k) = [] := by
        rw [filter_eq_nil_iff]
        intro a ha
        rw [decide_eq_true_eq]
        rintro rfl
        exact hk (hrows a ha)
      rw [hnone, eq_comm, flatMap_eq_nil_iff]
      intro l _
      split
      · rfl
      · rfl

end SortByKey

end VerifiableCompute.Lib
