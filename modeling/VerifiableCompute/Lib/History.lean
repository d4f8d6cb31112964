import Mathlib

/-! Runs of a system of atomic actions. An action either fails, leaving no
trace, or moves the state and returns an outcome. A history lists the actions
that took effect with their outcomes, oldest first; the rules below turn a
statement about one action into a statement about every history. -/

namespace VerifiableCompute.Lib

open List

variable {S A O E : Type}

/-- The history leads from the first state to the last. -/
def Replay (act : A → S → Except E (S × O)) : S → List (A × O) → S → Prop
  | s, [], s' => s = s'
  | s, (a, o) :: t, s' => ∃ r, act a s = .ok (r, o) ∧ Replay act r t s'

variable {act : A → S → Except E (S × O)}

theorem replay_append (s s' : S) (t u : List (A × O)) :
    Replay act s (t ++ u) s' ↔ ∃ r, Replay act s t r ∧ Replay act r u s' := by
  induction t generalizing s with
  | nil => simp [Replay]
  | cons x t ih =>
    obtain ⟨a, o⟩ := x
    simp only [cons_append, Replay, ih]
    constructor
    · rintro ⟨r, hr, q, hq, hu⟩
      exact ⟨q, ⟨r, hr, hq⟩, hu⟩
    · rintro ⟨q, ⟨r, hr, hq⟩, hu⟩
      exact ⟨r, hr, q, hq, hu⟩

theorem replay_singleton (s s' : S) (a : A) (o : O) : Replay act s [(a, o)] s' ↔ act a s = .ok (s', o) := by
  simp [Replay]

theorem replay_snoc (s s' : S) (t : List (A × O)) (a : A) (o : O) :
    Replay act s (t ++ [(a, o)]) s' ↔ ∃ r, Replay act s t r ∧ act a r = .ok (s', o) := by
  simp only [replay_append, replay_singleton]

variable {s s' : S} {t : List (A × O)}

theorem replay_unique {r r' : S} (h : Replay act s t r) (h' : Replay act s t r') : r = r' := by
  induction t generalizing s with
  | nil => exact h.symm.trans h'
  | cons x t ih =>
    obtain ⟨q, hq, h⟩ := h
    obtain ⟨q', hq', h'⟩ := h'
    obtain rfl : q = q' := by
      have := hq.symm.trans hq'
      simp only [Except.ok.injEq, Prod.mk.injEq] at this
      exact this.1
    exact ih h h'

/-- A property of the history and its last state that every action preserves
holds after every history. -/
theorem replay_induction {P : List (A × O) → S → Prop} (h0 : P [] s)
    (hstep : ∀ t r a o r', Replay act s t r → P t r → act a r = .ok (r', o) → P (t ++ [(a, o)]) r')
    (h : Replay act s t s') : P t s' := by
  induction t using reverseRecOn generalizing s' with
  | nil =>
    obtain rfl : s = s' := h
    exact h0
  | append_singleton t x ih =>
    obtain ⟨a, o⟩ := x
    obtain ⟨r, ht, ha⟩ := (replay_snoc s s' t a o).mp h
    exact hstep t r a o s' ht (ih ht) ha

theorem replay_invariant {P : S → Prop} (h0 : P s)
    (hstep : ∀ r a o r', P r → act a r = .ok (r', o) → P r') (h : Replay act s t s') : P s' :=
  replay_induction (P := fun _ => P) h0 (fun _ r a o r' _ hp ha => hstep r a o r' hp ha) h

theorem replay_split {u : List (A × O)} {a : A} {o : O} (h : Replay act s (t ++ (a, o) :: u) s') :
    ∃ r r', Replay act s t r ∧ act a r = .ok (r', o) ∧ Replay act r' u s' := by
  obtain ⟨r, ht, r', ha, hu⟩ := (replay_append s s' t ((a, o) :: u)).mp h
  exact ⟨r, r', ht, ha, hu⟩

/-! Records in the order of a clock. The records up to a time are a prefix, those of
an increasing list of times are a part of the timeline in its order, and a
quantity that at most one of several parties has is bounded by its bound for one. -/

variable {α : Type} {time : α → ℕ}
variable {l : List α}

section

variable (hl : l.Pairwise fun x y => time x ≤ time y)

include hl

/-- Everything that meets `p` comes before everything that meets `q`. -/
theorem filter_append_filter {p q : α → Bool}
    (h : ∀ x y, p x → q y → time x < time y) : l.filter p ++ l.filter q = l.filter fun x => p x || q x := by
  induction l with
  | nil => rfl
  | cons x l ih =>
    rw [pairwise_cons] at hl
    have hrest := ih hl.2
    by_cases hp : p x
    · rw [filter_cons_of_pos hp, filter_cons_of_neg fun hq => (h x x hp hq).false,
        filter_cons_of_pos (by simp [hp]), cons_append, hrest]
    · by_cases hq : q x
      · have hnone : l.filter p = [] :=
          filter_eq_nil_iff.mpr fun y hy hpy => absurd (h y x hpy hq) (not_lt.mpr (hl.1 y hy))
        rw [hnone, nil_append] at hrest
        rw [filter_cons_of_neg hp, hnone, nil_append, filter_cons_of_pos hq,
          filter_cons_of_pos (by simp [hq]), hrest]
      · rw [filter_cons_of_neg hp, filter_cons_of_neg hq, filter_cons_of_neg (by simp [hp, hq]), hrest]

theorem filter_le_append (t : ℕ) : l.filter (fun x => time x ≤ t) ++ l.filter (fun x => t < time x) = l := by
  rw [filter_append_filter hl fun x y hx hy => (of_decide_eq_true hx).trans_lt (of_decide_eq_true hy)]
  refine filter_eq_self.mpr fun x _ => ?_
  simpa using le_or_gt (time x) t

theorem filter_le_front (t : ℕ) : l.filter (fun x => time x ≤ t) <+: l :=
  ⟨_, filter_le_append hl t⟩

/-- The records of some times, taken time by time. -/
theorem flatMap_filter_eq {ts : List ℕ} (hts : ts.Pairwise (· < ·)) :
    (ts.flatMap fun t => l.filter fun x => time x = t) = l.filter fun x => time x ∈ ts := by
  induction ts with
  | nil => simp
  | cons t ts ih =>
    rw [pairwise_cons] at hts
    rw [flatMap_cons, ih hts.2, filter_append_filter hl fun x y hx hy => ?_]
    · simp
    · rw [of_decide_eq_true hx]
      exact hts.1 _ (of_decide_eq_true hy)

end

theorem sum_le_of_exclusive {share : α → ℕ} {bound : ℕ}
    (hl : l.Pairwise fun x y => share x = 0 ∨ share y = 0) (h : ∀ x ∈ l, share x ≤ bound) :
    (l.map share).sum ≤ bound := by
  induction l with
  | nil => exact Nat.zero_le _
  | cons x l ih =>
    rw [pairwise_cons] at hl
    rw [forall_mem_cons] at h
    rw [map_cons, sum_cons]
    by_cases hx : share x = 0
    · rw [hx, Nat.zero_add]
      exact ih hl.2 h.2
    · have hrest : (l.map share).sum = 0 := by
        refine sum_eq_zero fun n hn => ?_
        obtain ⟨y, hy, rfl⟩ := mem_map.mp hn
        exact (hl.1 y hy).resolve_left hx
      rw [hrest, Nat.add_zero]
      exact h.1

/-! Logs of updates and ratchets over them. Each update of a log leads from one
commit to the next. A ratchet knows only a commit, and accepts updates that lead
on from it, taken from anywhere in the log. When the log does not return to a
commit after an update that counts, the updates that count are accepted in the
order of the log, each once and without a gap. -/

variable {U C : Type} {first last : U → C} {counts : U → Bool}

/-- The commit after some updates. -/
def endOf (last : U → C) (c : C) (us : List U) : C := us.foldl (fun _ u => last u) c

/-- Each update starts where the one before it ended; together they lead from `c` to `c'`. -/
def Linked (first last : U → C) : C → List U → C → Prop
  | c, [], c' => c = c'
  | c, u :: us, c' => first u = c ∧ Linked first last (last u) us c'

theorem endOf_append (c : C) (us vs : List U) : endOf last c (us ++ vs) = endOf last (endOf last c us) vs :=
  foldl_append

variable {c c' : C} {us es a b : List U}

theorem Linked.endOf_eq (h : Linked first last c us c') : endOf last c us = c' := by
  induction us generalizing c with
  | nil => exact h
  | cons u us ih => exact ih h.2

theorem linked_append (c c' : C) (us vs : List U) :
    Linked first last c (us ++ vs) c' ↔ Linked first last c us (endOf last c us) ∧
      Linked first last (endOf last c us) vs c' := by
  induction us generalizing c with
  | nil => simp [Linked, endOf]
  | cons u us ih =>
    simp only [cons_append, Linked, ih, and_assoc]
    rfl

/-- An update inside a log starts at the commit of the updates before it. -/
theorem Linked.first_eq {vs : List U} {u : U} (h : Linked first last c (us ++ u :: vs) c') :
    first u = endOf last c us :=
  ((linked_append _ _ _ _).mp h).2.1

/-- Between two places of the log with the same commit no update counts. -/
def NoReturn (last : U → C) (counts : U → Bool) (c : C) (es : List U) : Prop :=
  ∀ a b d, es = a ++ b ++ d → endOf last c a = endOf last c (a ++ b) → ∀ u ∈ b, counts u = false

theorem NoReturn.filter_append (h : NoReturn last counts c es) (hab : a ++ b <+: es)
    (heq : endOf last c a = endOf last c (a ++ b)) : a.filter counts = (a ++ b).filter counts := by
  obtain ⟨d, hd⟩ := hab
  have hb : b.filter counts = [] := by
    refine List.filter_eq_nil_iff.mpr fun u hu => ?_
    rw [h a b d hd.symm heq u hu]
    exact Bool.false_ne_true
  rw [List.filter_append, hb, List.append_nil]

theorem NoReturn.filter_eq (h : NoReturn last counts c es) (ha : a <+: es) (hb : b <+: es)
    (heq : endOf last c a = endOf last c b) : a.filter counts = b.filter counts := by
  rcases prefix_or_prefix_of_prefix ha hb with ⟨x, rfl⟩ | ⟨x, rfl⟩
  · exact h.filter_append hb heq
  · exact (h.filter_append ha heq.symm).symm

theorem NoReturn.nodup_first (h : NoReturn last counts c es)
    (hlinked : Linked first last c es c') : ((es.filter counts).map first).Nodup := by
  rw [Nodup, pairwise_map, pairwise_filter, pairwise_iff_getElem]
  intro i j hi hj hij hcount _ heq
  have hsplit (k : ℕ) (hk : k < es.length) : first es[k] = endOf last c (es.take k) := by
    have hwhole : Linked first last c (es.take k ++ es[k] :: es.drop (k + 1)) c' := by
      rwa [← drop_eq_getElem_cons hk, take_append_drop]
    exact hwhole.first_eq
  have hbetween : es.take i ++ (es.take j).drop i = es.take j := by
    conv_rhs => rw [← take_append_drop i (es.take j)]
    rw [take_take, min_eq_left hij.le]
  have hmem : es[i] ∈ (es.take j).drop i := by
    rw [drop_eq_getElem_cons (by rw [length_take]; omega), getElem_take]
    exact mem_cons_self
  have hnot := h (es.take i) ((es.take j).drop i) (es.drop j) (by rw [hbetween, take_append_drop])
    (by rw [hbetween, ← hsplit i hi, ← hsplit j hj, heq]) _ hmem
  rw [hcount] at hnot
  exact absurd hnot Bool.noConfusion

/-- A ratchet at the commit of `a` accepts some of the updates of `r`: it ends at a commit
of the log, and the updates that count before it are those before the old commit and
those it accepted. -/
theorem NoReturn.ratchet {d : C} {p r : List U} (h : NoReturn last counts c (p ++ r))
    (hlinked : Linked first last c (p ++ r) c') (ha : a <+: p ++ r) (accepted : U → Bool)
    (haccept : Linked first last (endOf last c a) (r.filter accepted) d) : ∃ a', a' <+: p ++ r ∧ endOf last c a' = d ∧
      a'.filter counts = a.filter counts ++ (r.filter accepted).filter counts := by
  induction r generalizing p a with
  | nil => exact ⟨a, ha, haccept, by simp⟩
  | cons u r ih =>
    have happend : p ++ u :: r = (p ++ [u]) ++ r := by simp
    by_cases hu : accepted u
    · rw [List.filter_cons_of_pos hu] at haccept ⊢
      obtain ⟨hfirst, haccept⟩ := haccept
      have hsame : a.filter counts = p.filter counts :=
        h.filter_eq ha (List.prefix_append _ _) (by rw [← hfirst, hlinked.first_eq])
      have hend : endOf last c (p ++ [u]) = last u := by
        rw [endOf_append]
        rfl
      rw [happend] at h hlinked ⊢
      obtain ⟨a', ha', hd, hcount⟩ := ih h hlinked (List.prefix_append (p ++ [u]) r) (by rwa [hend])
      refine ⟨a', ha', hd, ?_⟩
      rw [hcount, List.filter_append, hsame, List.append_assoc, ← List.filter_append]
      rfl
    · rw [List.filter_cons_of_neg hu] at haccept ⊢
      rw [happend] at h hlinked ha ⊢
      exact ih h hlinked ha haccept

end VerifiableCompute.Lib
