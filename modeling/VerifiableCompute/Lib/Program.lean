import Mathlib

/-! Programs over an interface. A program is a tree of operations, each followed by what
is done with its answer; it runs against any handler of the operations. What every
operation keeps, every program keeps, and two handlers that answer alike run it alike. -/

namespace VerifiableCompute.Lib

structure Interface where
  Op : Type
  Answer : Op → Type

inductive Program (I : Interface) (α : Type) where
  | pure (a : α)
  | op (o : I.Op) (k : I.Answer o → Program I α)

namespace Program

variable {I : Interface} {α β σ ε : Type}

def perform (o : I.Op) : Program I (I.Answer o) := .op o .pure

/-- What answers the operations, with a state; an error ends the run. -/
abbrev Handler (I : Interface) (σ ε : Type) := (o : I.Op) → σ → Except ε (I.Answer o × σ)

def run (handle : Handler I σ ε) : Program I α → σ → Except ε (α × σ)
  | .pure a, s => .ok (a, s)
  | .op o k, s => do
    let (answer, s) ← handle o s
    run handle (k answer) s

variable {handle : Handler I σ ε} {s s' : σ} {a : α}

theorem run_op_inv {o : I.Op} {k : I.Answer o → Program I α} (h : run handle (.op o k) s = .ok (a, s')) :
    ∃ answer t, handle o s = .ok (answer, t) ∧ run handle (k answer) t = .ok (a, s') := by
  rw [run] at h
  cases hop : handle o s with
  | error e =>
    rw [hop] at h
    cases h
  | ok r =>
    rw [hop] at h
    exact ⟨r.1, r.2, rfl, h⟩

/-- What relates the states around every operation relates those around every run. -/
theorem run_keeps (Q : σ → σ → Prop) (hrefl : ∀ s, Q s s) (htrans : ∀ {s t u}, Q s t → Q t u → Q s u)
    (hop : ∀ o s answer s', handle o s = .ok (answer, s') → Q s s') (x : Program I α)
    (h : run handle x s = .ok (a, s')) : Q s s' := by
  induction x generalizing s with
  | pure b =>
    cases h
    exact hrefl _
  | op o k ih =>
    obtain ⟨answer, t, hhandle, hrun⟩ := run_op_inv h
    exact htrans (hop o s answer t hhandle) (ih answer hrun)

end Program

/-! Forward simulation between two deterministic machines that perform the same
operations. The concrete one may get stuck; when one step of it answers as the
abstract one does and keeps the relation, whole runs do, and none gets stuck. -/

variable {Op C A O P : Type}

/-- A run of a machine that may get stuck, with its answers. -/
def runOps (step : Op → C → Option (O × C)) : List Op → C → Option (List O × C)
  | [], c => some ([], c)
  | op :: ops, c => do
    let (o, c) ← step op c
    let (os, c) ← runOps step ops c
    return (o :: os, c)

variable {step : Op → C → Option (O × C)}

theorem runOps_append {ops ops' : List Op} {c c' c'' : C} {os os' : List O}
    (h : runOps step ops c = some (os, c')) (h' : runOps step ops' c' = some (os', c'')) :
    runOps step (ops ++ ops') c = some (os ++ os', c'') := by
  induction ops generalizing c os with
  | nil =>
    cases h
    exact h'
  | cons op ops ih =>
    obtain ⟨⟨o, d⟩, hstep, h⟩ := Option.bind_eq_some_iff.mp h
    obtain ⟨⟨os, d'⟩, hrun, h⟩ := Option.bind_eq_some_iff.mp h
    cases h
    show (step op c).bind _ = _
    rw [hstep]
    show (runOps step (ops ++ ops') d).bind _ = _
    rw [ih hrun]
    rfl

/-- A run of a machine that always answers. -/
def answers (step : Op → A → P × A) : List Op → A → List P × A
  | [], a => ([], a)
  | op :: ops, a => ((step op a).1 :: (answers step ops (step op a).2).1, (answers step ops (step op a).2).2)

theorem simulate {astep : Op → A → P × A} (view : O → P) (rel : C → A → Prop)
    (valid : Op → Prop) (h : ∀ op c a, valid op → rel c a → ∃ o c', step op c = some (o, c') ∧
      view o = (astep op a).1 ∧ rel c' (astep op a).2)
    (ops : List Op) (hops : ∀ op ∈ ops, valid op) (c : C) (a : A) (hrel : rel c a) :
    ∃ os c', runOps step ops c = some (os, c') ∧ os.map view = (answers astep ops a).1 ∧
      rel c' (answers astep ops a).2 := by
  induction ops generalizing c a with
  | nil => exact ⟨[], c, rfl, rfl, hrel⟩
  | cons op ops ih =>
    rw [List.forall_mem_cons] at hops
    obtain ⟨o, c', hstep, hview, hrel'⟩ := h op c a hops.1 hrel
    obtain ⟨os, c'', hrun, hviews, hrel''⟩ := ih hops.2 c' _ hrel'
    refine ⟨o :: os, c'', ?_, ?_, hrel''⟩
    · show (step op c).bind _ = _
      rw [hstep]
      show (runOps step ops c').bind _ = _
      rw [hrun]
      rfl
    · rw [List.map_cons, hview, hviews]
      rfl

/-! Computations over a state of which only a view is seen. What a computation does is
determined by the view when every state with that view gives the same fault, or the
same answer and the same update; such computations are closed under reading and under
what changes nothing that counts. Two runs from one view then agree. -/

/-- Which states have a view, which changes do not count, and what an update does. -/
structure Observation (σ V U : Type) where
  sees : σ → V → Prop
  keeps : σ → σ → Prop
  applies : U → σ → σ → Prop
  keeps_refl : ∀ s, keeps s s
  keeps_trans : ∀ {s s' s''}, keeps s s' → keeps s' s'' → keeps s s''
  sees_of_keeps : ∀ {s s' v}, keeps s s' → sees s v → sees s' v
  applies_of_keeps : ∀ {s s' s'' u}, keeps s s' → applies u s' s'' → applies u s s''
  keeps_of_applies : ∀ {s s' s'' u}, applies u s s' → keeps s' s'' → applies u s s''

namespace Observation

variable {σ V U ε α β : Type} (O : Observation σ V U)

section

variable (x : StateT σ (Except ε) α)

/-- Every state with the view gives this value, and changes nothing that counts. -/
def Reads (v : V) (a : α) : Prop :=
  ∀ s, O.sees s v → ∃ s', x s = .ok (a, s') ∧ O.keeps s s'

def Fails (v : V) (e : ε) : Prop := ∀ s, O.sees s v → x s = .error e

def Updates (v : V) (a : α) (u : U) : Prop :=
  ∀ s, O.sees s v → ∃ s', x s = .ok (a, s') ∧ O.applies u s s'

/-- Returns from every state, and changes nothing that counts. -/
def Silent : Prop := ∃ a, ∀ s, ∃ s', x s = .ok (a, s') ∧ O.keeps s s'

end

/-- The view determines what the computation does, and allows it. -/
inductive Determined (allowed : V → U → Prop) (x : StateT σ (Except ε) α) (v : V) : Prop
  | fails (e : ε) (h : O.Fails x v e)
  | updates (a : α) (u : U) (h : O.Updates x v a u) (hu : allowed v u)

variable {O} {x : StateT σ (Except ε) α} {k : α → StateT σ (Except ε) β} {v : V} {a : α} {b : β} {u : U}
variable {s s' : σ} {e : ε}

theorem bind_ok (h : x s = .ok (a, s')) : (x >>= k) s = k a s' := by
  show (x s).bind _ = _
  rw [h]
  rfl

theorem bind_error (h : x s = .error e) : (x >>= k) s = .error e := by
  show (x s).bind _ = _
  rw [h]
  rfl

theorem reads_pure (v : V) (a : α) : O.Reads (pure a : StateT σ (Except ε) α) v a :=
  fun s _ => ⟨s, rfl, O.keeps_refl s⟩

theorem Reads.bind_reads (hx : O.Reads x v a) (hk : O.Reads (k a) v b) : O.Reads (x >>= k) v b := by
  intro s hs
  obtain ⟨s', hrun, hkeeps⟩ := hx s hs
  obtain ⟨s'', hrun', hkeeps'⟩ := hk s' (O.sees_of_keeps hkeeps hs)
  exact ⟨s'', by rw [bind_ok hrun, hrun'], O.keeps_trans hkeeps hkeeps'⟩

theorem reads_forM {γ : Type} {f : γ → StateT σ (Except ε) PUnit} (v : V) (l : List γ)
    (h : ∀ c ∈ l, O.Reads (f c) v PUnit.unit) : O.Reads (l.forM f) v PUnit.unit := by
  induction l with
  | nil => exact reads_pure v PUnit.unit
  | cons c l ih =>
    rw [List.forall_mem_cons] at h
    exact h.1.bind_reads (ih h.2)

theorem silent_pure (a : α) : O.Silent (pure a : StateT σ (Except ε) α) :=
  ⟨a, fun s => ⟨s, rfl, O.keeps_refl s⟩⟩

theorem Reads.bind_fails (hx : O.Reads x v a) (hk : O.Fails (k a) v e) : O.Fails (x >>= k) v e := by
  intro s hs
  obtain ⟨s', hrun, hkeeps⟩ := hx s hs
  rw [bind_ok hrun, hk s' (O.sees_of_keeps hkeeps hs)]

theorem Reads.bind_updates (hx : O.Reads x v a) (hk : O.Updates (k a) v b u) : O.Updates (x >>= k) v b u := by
  intro s hs
  obtain ⟨s', hrun, hkeeps⟩ := hx s hs
  obtain ⟨s'', hrun', happlies⟩ := hk s' (O.sees_of_keeps hkeeps hs)
  exact ⟨s'', by rw [bind_ok hrun, hrun'], O.applies_of_keeps hkeeps happlies⟩

variable {allowed : V → U → Prop}

theorem Reads.bind (hx : O.Reads x v a) (hk : O.Determined allowed (k a) v) : O.Determined allowed (x >>= k) v := by
  cases hk with
  | fails e h => exact .fails e (hx.bind_fails h)
  | updates b u h hu => exact .updates b u (hx.bind_updates h) hu

theorem Fails.bind (hx : O.Fails x v e) : O.Fails (x >>= k) v e :=
  fun s hs => bind_error (hx s hs)

theorem Determined.bind (hx : O.Determined allowed x v) (hk : ∀ a, O.Silent (k a)) :
    O.Determined allowed (x >>= k) v := by
  cases hx with
  | fails e h => exact .fails e h.bind
  | updates a u h hu =>
    obtain ⟨b, hb⟩ := hk a
    refine .updates b u (fun s hs => ?_) hu
    obtain ⟨s', hrun, happlies⟩ := h s hs
    obtain ⟨s'', hrun', hkeeps⟩ := hb s'
    exact ⟨s'', by rw [bind_ok hrun, hrun'], O.keeps_of_applies happlies hkeeps⟩

theorem Determined.confined (hx : O.Determined allowed x v) (hs : O.sees s v) (hrun : x s = .ok (a, s')) :
    ∃ u, allowed v u ∧ O.applies u s s' := by
  cases hx with
  | fails e h =>
    rw [h s hs] at hrun
    cases hrun
  | updates b u h hu =>
    obtain ⟨s'', hrun', happlies⟩ := h s hs
    rw [hrun'] at hrun
    cases hrun
    exact ⟨u, hu, happlies⟩

/-- Two runs from one view end with one fault, or with one answer and one update. -/
theorem Determined.agree (hx : O.Determined allowed x v) {s₁ s₂ : σ} (h1 : O.sees s₁ v) (h2 : O.sees s₂ v) :
    (∃ e, x s₁ = .error e ∧ x s₂ = .error e) ∨
      ∃ a u s₁' s₂', allowed v u ∧ x s₁ = .ok (a, s₁') ∧ O.applies u s₁ s₁' ∧ x s₂ = .ok (a, s₂') ∧ O.applies u s₂ s₂' := by
  cases hx with
  | fails e h => exact .inl ⟨e, h s₁ h1, h s₂ h2⟩
  | updates a u h hu =>
    obtain ⟨s₁', hrun1, happlies1⟩ := h s₁ h1
    obtain ⟨s₂', hrun2, happlies2⟩ := h s₂ h2
    exact .inr ⟨a, u, s₁', s₂', hu, hrun1, happlies1, hrun2, happlies2⟩

end Observation

end VerifiableCompute.Lib
