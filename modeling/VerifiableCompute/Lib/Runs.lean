import Mathlib

/-! Computations over a state of which a view is seen. A computation runs from one view
to another when it takes every state with the first to one with the second, and fails
only where a condition does not hold; a loop runs as far as its invariant and its
measure tell. -/

namespace VerifiableCompute.Lib

variable {σ ε V α β γ ρ : Type}

/-- From every state with the view `v` the computation answers `a` and leaves the view
`v'`, or fails, which it does only without the condition. -/
def RunsIf (c : Prop) (sees : V → σ → Prop) (x : StateT σ (Except ε) α) (v : V) (a : α) (v' : V) : Prop :=
  ∀ s, sees v s → (∃ s', x s = .ok (a, s') ∧ sees v' s') ∨ (¬ c ∧ ∃ e, x s = .error e)

/-- Without fail. -/
abbrev Runs (sees : V → σ → Prop) (x : StateT σ (Except ε) α) (v : V) (a : α) (v' : V) : Prop :=
  RunsIf True sees x v a v'

/-- A loop with a bound on its iterations, at which it faults. -/
def whileLoop (stuck : ε) (cond : ρ → Bool) (body : ρ → StateT σ (Except ε) ρ) : ℕ → ρ → StateT σ (Except ε) ρ
  | 0, r => if cond r then throw stuck else pure r
  | n + 1, r => if cond r then body r >>= whileLoop stuck cond body n else pure r

variable {c : Prop} {sees : V → σ → Prop} {x : StateT σ (Except ε) α} {k : α → StateT σ (Except ε) β} {v v' v'' : V} {a : α} {b : β}

theorem runs_of_total (h : ∀ s, sees v s → ∃ s', x s = .ok (a, s') ∧ sees v' s') : RunsIf c sees x v a v' :=
  fun s hs => .inl (h s hs)

theorem runs_of_fails (hc : ¬ c) (h : ∀ s, sees v s → ∃ e, x s = .error e) : RunsIf c sees x v a v' :=
  fun s hs => .inr ⟨hc, h s hs⟩

theorem RunsIf.total (h : RunsIf c sees x v a v') (hc : c) {s : σ} (hs : sees v s) :
    ∃ s', x s = .ok (a, s') ∧ sees v' s' :=
  (h s hs).resolve_right fun hfails => hfails.1 hc

theorem RunsIf.ends (h : RunsIf c sees x v a v') {s s' : σ} (hs : sees v s) {b : α} (hrun : x s = .ok (b, s')) :
    b = a ∧ sees v' s' := by
  obtain ⟨s'', hrun', hs''⟩ | ⟨-, e, herror⟩ := h s hs
  · rw [hrun] at hrun'
    cases hrun'
    exact ⟨rfl, hs''⟩
  · rw [hrun] at herror
    cases herror

theorem runs_pure (v : V) (a : α) : RunsIf c sees (pure a : StateT σ (Except ε) α) v a v :=
  runs_of_total fun s hs => ⟨s, rfl, hs⟩

theorem RunsIf.bind (hx : RunsIf c sees x v a v') (hk : RunsIf c sees (k a) v' b v'') :
    RunsIf c sees (x >>= k) v b v'' := by
  intro s hs
  have hbind : (x >>= k) s = (x s).bind fun r => k r.1 r.2 := rfl
  obtain ⟨s', hrun, hs'⟩ | ⟨hc, e, herror⟩ := hx s hs
  · rw [hbind, hrun]
    exact hk s' hs'
  · rw [hbind, herror]
    exact .inr ⟨hc, e, rfl⟩

theorem runs_ite {p : Prop} [Decidable p] {y : StateT σ (Except ε) α} (hx : p → RunsIf c sees x v a v')
    (hy : ¬ p → RunsIf c sees y v a v') : RunsIf c sees (if p then x else y) v a v' := by
  split_ifs with hp
  · exact hx hp
  · exact hy hp

theorem bind_eq_ok {s : σ} {r : β × σ} : (x >>= k) s = .ok r ↔ ∃ a s', x s = .ok (a, s') ∧ k a s' = .ok r := by
  have hbind : (x >>= k) s = (x s).bind fun r => k r.1 r.2 := rfl
  rw [hbind]
  cases hx : x s with
  | error e =>
    refine ⟨fun h => ?_, fun ⟨a, s', h, _⟩ => ?_⟩ <;> cases h
  | ok p =>
    refine ⟨fun h => ⟨p.1, p.2, rfl, h⟩, fun ⟨a, s', h, hk⟩ => ?_⟩
    cases h
    exact hk

theorem bind_eq_error {s : σ} {e : ε} :
    (x >>= k) s = .error e ↔ x s = .error e ∨ ∃ a s', x s = .ok (a, s') ∧ k a s' = .error e := by
  have hbind : (x >>= k) s = (x s).bind fun r => k r.1 r.2 := rfl
  rw [hbind]
  cases hx : x s with
  | error e' =>
    constructor
    · intro h
      cases h
      exact .inl rfl
    · rintro (h | ⟨a, s', h, -⟩) <;> cases h
      rfl
  | ok p =>
    refine ⟨fun h => .inr ⟨p.1, p.2, rfl, h⟩, ?_⟩
    rintro (h | ⟨a, s', h, hk⟩)
    · cases h
    · cases h
      exact hk

theorem runs_mapM {f : γ → StateT σ (Except ε) α} {g : γ → α} (l : List γ) (v : V)
    (h : ∀ x ∈ l, RunsIf c sees (f x) v (g x) v) : RunsIf c sees (l.mapM f) v (l.map g) v := by
  induction l with
  | nil => exact runs_pure v []
  | cons x l ih =>
    rw [List.forall_mem_cons] at h
    rw [List.mapM_cons]
    exact h.1.bind ((ih h.2).bind (runs_pure v _))

/-- An invariant that every iteration over a range keeps holds at its end. -/
theorem runs_range (I : ℕ → ρ → V → Prop) {body : ρ → ℕ → StateT σ (Except ε) ρ} {n : ℕ}
    (hbody : ∀ i < n, ∀ r v, I i r v → ∃ r' v', RunsIf c sees (body r i) v r' v' ∧ I (i + 1) r' v') {r : ρ} {v : V}
    (h : I 0 r v) : ∃ r' v', RunsIf c sees ((List.range n).foldlM body r) v r' v' ∧ I n r' v' := by
  induction n with
  | zero => exact ⟨r, v, runs_pure v r, h⟩
  | succ n ih =>
    obtain ⟨r', v', hrun, hI⟩ := ih fun i hi => hbody i (Nat.lt_succ_of_lt hi)
    obtain ⟨r'', v'', hlast, hI'⟩ := hbody n (Nat.lt_succ_self n) r' v' hI
    refine ⟨r'', v'', ?_, hI'⟩
    rw [List.range_succ, List.foldlM_append]
    exact hrun.bind (hlast.bind (runs_pure v'' r''))

/-- A loop whose body keeps the invariant and decreases the measure ends with the
invariant, its condition false. -/
theorem runs_while (I : ρ → V → Prop) (measure : ρ → ℕ) (stuck : ε) (cond : ρ → Bool) {body : ρ → StateT σ (Except ε) ρ}
    (hbody : ∀ r v, I r v → cond r → ∃ r' v', RunsIf c sees (body r) v r' v' ∧ I r' v' ∧ measure r' < measure r)
    {fuel : ℕ} {r : ρ} {v : V} (h : I r v) (hfuel : measure r ≤ fuel) :
    ∃ r' v', RunsIf c sees (whileLoop stuck cond body fuel r) v r' v' ∧ I r' v' ∧ cond r' = false := by
  induction fuel generalizing r v with
  | zero =>
    by_cases hcond : cond r
    · obtain ⟨r', v', -, -, hlt⟩ := hbody r v h hcond
      exact absurd hlt (by omega)
    · rw [whileLoop, if_neg hcond]
      exact ⟨r, v, runs_pure v r, h, Bool.not_eq_true _ ▸ hcond⟩
  | succ fuel ih =>
    rw [whileLoop]
    by_cases hcond : cond r
    · obtain ⟨r', v', hrun, hI, hlt⟩ := hbody r v h hcond
      obtain ⟨r'', v'', hrest, hI', hend⟩ := ih hI (by omega)
      rw [if_pos hcond]
      exact ⟨r'', v'', hrun.bind hrest, hI', hend⟩
    · rw [if_neg hcond]
      exact ⟨r, v, runs_pure v r, h, Bool.not_eq_true _ ▸ hcond⟩

end VerifiableCompute.Lib
