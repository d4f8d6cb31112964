import VerifiableCompute.Lib.History

/-! Balanced arguments. A row takes one token and gives another; all that is given is taken. Where every row gives a token of
smaller rank than the one it takes, the rows are cut into chains, each from what is given at a start to what is taken at an end. -/

namespace VerifiableCompute.Lib

open Multiset

variable {T X ι κ α β : Type}

/-- Elements with the same images can be paired with one another. -/
theorem exists_pairing (f : α → T) (g : β → T) {s : Multiset α} {t : Multiset β} (h : s.map f = t.map g) :
    ∃ pairs : Multiset (α × β), pairs.map Prod.fst = s ∧ pairs.map Prod.snd = t ∧ ∀ p ∈ pairs, f p.1 = g p.2 := by
  induction s using Multiset.induction_on generalizing t with
  | empty =>
    rw [Multiset.map_zero, eq_comm, Multiset.map_eq_zero] at h
    subst h
    exact ⟨0, rfl, rfl, fun p hp => absurd hp (Multiset.notMem_zero p)⟩
  | cons a s ih =>
    have hmem : f a ∈ t.map g := by
      rw [← h, Multiset.map_cons]
      exact Multiset.mem_cons_self _ _
    obtain ⟨b, hb, heq⟩ := Multiset.mem_map.mp hmem
    obtain ⟨t, rfl⟩ := Multiset.exists_cons_of_mem hb
    rw [Multiset.map_cons, Multiset.map_cons, heq, Multiset.cons_inj_right] at h
    obtain ⟨pairs, hfst, hsnd, hpairs⟩ := ih h
    refine ⟨(a, b) ::ₘ pairs, ?_, ?_, ?_⟩
    · rw [Multiset.map_cons, hfst]
    · rw [Multiset.map_cons, hsnd]
    · intro p hp
      rw [Multiset.mem_cons] at hp
      rcases hp with rfl | hp
      · exact heq.symm
      · exact hpairs p hp

variable {steps : Multiset X} {start final : T} {l : List α}

section

variable (pull push : X → T) (rank : T → ℕ)

/-- A row whose token nothing but a start gives. -/
theorem exists_first {starts finals : Multiset T} (hne : steps ≠ 0)
    (hrank : ∀ x ∈ steps, rank (push x) < rank (pull x)) (hbalance : starts + steps.map push = finals + steps.map pull) :
    ∃ x ∈ steps, pull x ∈ starts := by
  obtain ⟨a, ha⟩ := exists_mem_of_ne_zero hne
  obtain ⟨x, hx, hmax⟩ := Set.exists_max_image {x | x ∈ steps} (fun x => rank (pull x)) (finite_toSet steps) ⟨a, ha⟩
  refine ⟨x, hx, ?_⟩
  have hmem : pull x ∈ starts + steps.map push := by
    rw [hbalance]
    exact mem_add.mpr (.inr (mem_map_of_mem pull hx))
  rcases mem_add.mp hmem with hmem | hmem
  · exact hmem
  · obtain ⟨y, hy, heq⟩ := mem_map.mp hmem
    have hlt := hrank y hy
    have hle := hmax y hy
    rw [heq] at hlt
    omega

theorem exists_chains (token : κ → T) (finals : Multiset κ) (steps : Multiset X)
    (starts : Multiset (ι × T)) (hrank : ∀ x ∈ steps, rank (push x) < rank (pull x))
    (hbalance : starts.map Prod.snd + steps.map push = finals.map token + steps.map pull) :
    ∃ chains : Multiset ((ι × T) × List X × κ), chains.map (fun c => c.1) = starts ∧ chains.map (fun c => c.2.2) = finals ∧
      (chains.map fun c => (c.2.1 : Multiset X)).sum = steps ∧ ∀ c ∈ chains, Linked pull push c.1.2 c.2.1 (token c.2.2) := by
  induction hcard : steps.card generalizing starts steps with
  | zero =>
    rw [card_eq_zero] at hcard
    subst hcard
    rw [map_zero, map_zero, add_zero, add_zero] at hbalance
    obtain ⟨pairs, hfst, hsnd, hpairs⟩ := exists_pairing Prod.snd token hbalance
    refine ⟨pairs.map fun p => (p.1, [], p.2), ?_, ?_, ?_, ?_⟩
    · rw [map_map, ← hfst]
      rfl
    · rw [map_map, ← hsnd]
      rfl
    · rw [map_map]
      apply sum_eq_zero
      intro s hs
      obtain ⟨p, -, rfl⟩ := mem_map.mp hs
      rfl
    · intro c hc
      obtain ⟨p, hp, rfl⟩ := mem_map.mp hc
      exact hpairs p hp
  | succ n ih =>
    have hne : steps ≠ 0 := by
      rintro rfl
      cases hcard
    obtain ⟨x, hx, hmem⟩ := exists_first pull push rank hne hrank hbalance
    obtain ⟨a, ha, hpull⟩ := mem_map.mp hmem
    obtain ⟨steps, rfl⟩ := exists_cons_of_mem hx
    obtain ⟨starts, rfl⟩ := exists_cons_of_mem ha
    -- the start goes on at what the row gives
    have hbalance' : ((a.1, push x) ::ₘ starts).map Prod.snd + steps.map push = finals.map token + steps.map pull := by
      simp only [map_cons, hpull, cons_add, add_cons] at hbalance ⊢
      rw [cons_swap, cons_inj_right] at hbalance
      exact hbalance
    obtain ⟨chains, hstarts, hfinals, hsteps, hlinked⟩ := ih steps ((a.1, push x) ::ₘ starts)
      (fun y hy => hrank y (mem_cons_of_mem hy)) hbalance' (by rw [card_cons] at hcard; omega)
    have hfirst : (a.1, push x) ∈ chains.map fun c => c.1 := by
      rw [hstarts]
      exact mem_cons_self _ _
    obtain ⟨c, hc, hstart⟩ := mem_map.mp hfirst
    obtain ⟨chains, rfl⟩ := exists_cons_of_mem hc
    simp only [map_cons, sum_cons, hstart, cons_inj_right] at hstarts hfinals hsteps
    refine ⟨(a, x :: c.2.1, c.2.2) ::ₘ chains, ?_, ?_, ?_, ?_⟩
    · rw [map_cons, hstarts]
    · rw [map_cons, hfinals]
    · rw [map_cons, sum_cons, ← hsteps, ← cons_coe, cons_add]
    · intro d hd
      rw [mem_cons] at hd
      rcases hd with rfl | hd
      · have hrest := hlinked c (mem_cons_self _ _)
        rw [hstart] at hrest
        exact ⟨hpull.symm, hrest⟩
      · exact hlinked d (mem_cons_of_mem hd)

theorem exists_chain
    (hrank : ∀ x ∈ steps, rank (push x) < rank (pull x)) (hbalance : start ::ₘ steps.map push = final ::ₘ steps.map pull) :
    ∃ chain : List X, (chain : Multiset X) = steps ∧ Linked pull push start chain final := by
  obtain ⟨chains, hstarts, -, hsteps, hlinked⟩ := exists_chains pull push rank (fun _ : Unit => final) {()} steps {((), start)} hrank
    (by simpa using hbalance)
  obtain ⟨c, rfl, hc⟩ := map_eq_singleton.mp hstarts
  rw [map_singleton, sum_singleton] at hsteps
  have hchain := hlinked c (mem_singleton_self c)
  rw [hc] at hchain
  exact ⟨c.2.1, hsteps, hchain⟩

end

/-- Intervals that lie one behind the other, and pairs of them that do not lead back: each is paired with itself. -/
theorem paired_with_self (first last : α → ℕ) (hforward : ∀ a ∈ l, first a ≤ last a)
    (hordered : l.Pairwise fun a b => last a < first b) {pairs : Multiset (α × α)} (hfst : pairs.map Prod.fst = l)
    (hsnd : pairs.map Prod.snd = l) (hpairs : ∀ p ∈ pairs, first p.1 ≤ last p.2) : ∀ p ∈ pairs, p.1 = p.2 := by
  induction l generalizing pairs with
  | nil =>
    rw [coe_nil, map_eq_zero] at hfst
    intro p hp
    rw [hfst] at hp
    exact absurd hp (notMem_zero p)
  | cons a l ih =>
    rw [List.pairwise_cons] at hordered
    rw [List.forall_mem_cons] at hforward
    have hmem : a ∈ pairs.map Prod.snd := by
      rw [hsnd]
      exact mem_coe.mpr List.mem_cons_self
    obtain ⟨p, hp, hpa⟩ := mem_map.mp hmem
    -- what ends with the first one cannot have started behind it
    have hfirst : p.1 = a := by
      have hin : p.1 ∈ a :: l := by
        rw [← mem_coe, ← hfst]
        exact mem_map_of_mem _ hp
      rcases List.mem_cons.mp hin with heq | hin
      · exact heq
      · have hlt := hordered.1 p.1 hin
        have hle := hpairs p hp
        rw [hpa] at hle
        omega
    obtain ⟨pairs, rfl⟩ := exists_cons_of_mem hp
    rw [map_cons, hfirst, ← cons_coe, cons_inj_right] at hfst
    rw [map_cons, hpa, ← cons_coe, cons_inj_right] at hsnd
    intro q hq
    rw [mem_cons] at hq
    rcases hq with rfl | hq
    · rw [hfirst, hpa]
    · exact ih hforward.2 hordered.2 hfst hsnd (fun r hr => hpairs r (mem_cons_of_mem hr)) q hq

/-- Rows that go on in time lie one behind the other, within what they lead from and to. -/
theorem Linked.ordered {pull push : X → T} (time : T → ℕ) {l : List X} (hforward : ∀ x ∈ l, time (pull x) < time (push x))
    (h : Linked pull push start l final) :
    l.Pairwise (fun x y => time (push x) ≤ time (pull y)) ∧ time start ≤ time final ∧
      ∀ x ∈ l, time start ≤ time (pull x) ∧ time (push x) ≤ time final := by
  induction l generalizing start with
  | nil =>
    have heq : start = final := h
    rw [heq]
    exact ⟨List.Pairwise.nil, le_rfl, fun x hx => absurd hx List.not_mem_nil⟩
  | cons x l ih =>
    rw [List.forall_mem_cons] at hforward
    obtain ⟨rfl, h⟩ := h
    obtain ⟨hordered, hle, hwithin⟩ := ih hforward.2 h
    refine ⟨List.pairwise_cons.mpr ⟨fun y hy => (hwithin y hy).1, hordered⟩, by omega, ?_⟩
    intro y hy
    rcases List.mem_cons.mp hy with rfl | hy
    · exact ⟨le_rfl, hle⟩
    · have := hwithin y hy
      exact ⟨by omega, this.2⟩

/-- Of two members of an ordered list one is before the other. -/
theorem pairwise_or {R : α → α → Prop} (h : l.Pairwise R) {a b : α} (ha : a ∈ l) (hb : b ∈ l) : a = b ∨ R a b ∨ R b a := by
  induction l with
  | nil => exact absurd ha List.not_mem_nil
  | cons c l ih =>
    rw [List.pairwise_cons] at h
    rw [List.mem_cons] at ha hb
    rcases ha with ha | ha
    · rcases hb with hb | hb
      · exact .inl (ha.trans hb.symm)
      · exact .inr (.inl (ha ▸ h.1 b hb))
    · rcases hb with hb | hb
      · exact .inr (.inr (hb ▸ h.1 a ha))
      · exact ih h.2 ha hb

end VerifiableCompute.Lib
