import VerifiableCompute.Lib.CompleteTree
import VerifiableCompute.Rv32im.PagedRuns

/-! The cost of paging. The state of every node of the page tree is determined by the
pages that were accessed and those that were stored to, and the cycles are the sum of
what the states of the pages and of the nodes above them cost, in whatever order they
were raised. -/

namespace VerifiableCompute.Rv32im

open Lib PagedMemory Finset Option

/-- What the inner nodes have cost so far, in loads and stores of a node. -/
def PageStates.weight (s : PageStates) : ℕ := ∑ k ∈ Finset.range memoryPages, (s.get k).rank

theorem PageStates.weight_raise {s s' : PageStates} {n : ℕ} {goal : PageState}
    (hget : ∀ k, s'.get k = if k = n then goal else s.get k) (hraise : (s.get n).rank < goal.rank) :
    s'.weight = s.weight + if n < memoryPages then goal.rank - (s.get n).rank else 0 := by
  have hrank (k : ℕ) : (s'.get k).rank = (s.get k).rank + if k = n then goal.rank - (s.get n).rank else 0 := by
    rw [hget]
    split_ifs with hk
    · subst hk
      omega
    · rfl
  unfold PageStates.weight
  simp only [hrank, sum_add_distrib, sum_ite_eq', mem_range]

namespace PagedMemory

variable {m : PagedMemory}
variable {goal : PageState}

theorem payNode_cycles (node : ℕ) {state : PageState} (hraise : state.rank < goal.rank) (m : PagedMemory) :
    (m.payNode node state goal).cycles = m.cycles + nodeCycles * if node < memoryPages then goal.rank - state.rank else 0 := by
  unfold payNode
  by_cases hnode : node < memoryPages
  · rw [if_pos hnode, if_pos hnode]
    cases state <;> cases goal <;>
      first
        | exact absurd hraise (by decide)
        | rfl
  · rw [if_neg hnode, if_neg hnode]
    rfl

/-- All ancestors of a node are raised, and the inner ones are paid for. -/
theorem fixupCosts_costs (hgoal : goal ≠ .unloaded) (node : ℕ) (m : PagedMemory) (hlisted : m.pageStates.Listed) :
    ∃ m', m.fixupCosts node goal = some m' ∧
      (∀ k, (IsAncestor k node → m'.pageStates.get k = raised goal (m.pageStates.get k)) ∧
        (¬ IsAncestor k node → m'.pageStates.get k = m.pageStates.get k)) ∧
      m'.cycles + nodeCycles * m.pageStates.weight = m.cycles + nodeCycles * m'.pageStates.weight := by
  induction node using Nat.strongRecOn generalizing m with
  | ind node ih =>
    rw [fixupCosts]
    split_ifs with hzero
    · subst hzero
      exact ⟨m, rfl, fun k => ⟨fun hk => absurd hk (not_isAncestor_zero k), fun _ => rfl⟩, rfl⟩
    · have hself (k : ℕ) (hk : IsAncestor k (node / 2)) : k ≠ node := by
        have := hk.le
        omega
      by_cases hraise : (m.pageStates.get node).rank < goal.rank
      · obtain ⟨-, hstates⟩ := payNode_same node (m.pageStates.get node) goal m
        obtain ⟨pageStates, hset, hlisted', hget⟩ := hlisted.set hgoal node
        obtain ⟨m', hm', hget', hcycles⟩ := ih (node / 2) (by omega)
          { m.payNode node (m.pageStates.get node) goal with pageStates := pageStates } hlisted'
        refine ⟨m', ?_, fun k => ?_, ?_⟩
        · simp only [hraise, if_true, hstates, hset, bind_eq_bind, bind_some]
          exact hm'
        · rw [isAncestor_iff hzero]
          obtain ⟨habove, hother⟩ := hget' k
          refine ⟨?_, fun hk => ?_⟩
          · rintro (rfl | hk)
            · have hnot : ¬ IsAncestor k (k / 2) := fun h => hself k h rfl
              rw [hother hnot, hget, if_pos rfl, raised, if_pos hraise]
            · rw [habove hk, hget, if_neg (hself k hk)]
          · rw [not_or] at hk
            rw [hother hk.2, hget, if_neg hk.1]
        · have hweight := PageStates.weight_raise hget hraise
          have hpay := payNode_cycles node hraise m
          dsimp only at hcycles
          rw [hweight, hpay] at hcycles
          generalize (if node < memoryPages then goal.rank - (m.pageStates.get node).rank else 0) = cost at hcycles
          rw [Nat.mul_add] at hcycles
          omega
      · obtain ⟨m', hm', hget', hcycles⟩ := ih (node / 2) (by omega) m hlisted
        refine ⟨m', ?_, fun k => ?_, hcycles⟩
        · simp only [hraise, if_false, bind_eq_bind]
          exact hm'
        · rw [isAncestor_iff hzero]
          obtain ⟨habove, hother⟩ := hget' k
          refine ⟨?_, fun hk => ?_⟩
          · rintro (rfl | hk)
            · have hnot : ¬ IsAncestor k (k / 2) := fun h => hself k h rfl
              rw [hother hnot, raised, if_neg hraise]
            · exact habove hk
          · rw [not_or] at hk
            exact hother hk.2

end PagedMemory

def Above (pages : Finset ℕ) (k : ℕ) : Prop := ∃ p ∈ pages, IsAncestor k (nodeIdx p)

variable {pages : Finset ℕ} {k addr : ℕ}

theorem above_insert {p : ℕ} : Above (insert p pages) k ↔ IsAncestor k (nodeIdx p) ∨ Above pages k := by
  unfold Above
  simp only [mem_insert, or_and_right, exists_or, exists_eq_left]

theorem Above.mono {pages' : Finset ℕ} (h : Above pages k) (hsub : pages ⊆ pages') : Above pages' k :=
  h.imp fun _ hp => ⟨hsub hp.1, hp.2⟩

theorem Above.ancestor {a : ℕ} (h : Above pages k) (ha : IsAncestor a k) : Above pages a :=
  h.imp fun _ hp => ⟨hp.1, ha.trans hp.2⟩

theorem above_nodeIdx (hpages : ∀ q ∈ pages, q < memoryPages) (p : ℕ) : Above pages (nodeIdx p) ↔ p ∈ pages := by
  have hleaf (q : ℕ) (hq : q ∈ pages) : IsAncestor (nodeIdx p) (nodeIdx q) ↔ p = q := by
    have := hpages q hq
    have hle (q : ℕ) : memoryPages ≤ nodeIdx q := by
      unfold nodeIdx
      omega
    rw [isAncestor_leaf (hle p) (hle q) (by unfold nodeIdx; omega), nodeIdx_inj]
  constructor
  · rintro ⟨q, hq, h⟩
    exact (hleaf q hq).mp h ▸ hq
  · exact fun hp => ⟨p, hp, (hleaf p hp).mpr rfl⟩

open Classical in
/-- The state of a node after some pages were accessed, and some of them stored to. -/
noncomputable def stateOf (loaded stored : Finset ℕ) (k : ℕ) : PageState :=
  if Above stored k then .dirty else if Above loaded k then .loaded else .unloaded

section StateOf

variable {loaded stored : Finset ℕ} {p k : ℕ}

theorem stateOf_ne_unloaded (hsub : stored ⊆ loaded) : stateOf loaded stored k ≠ .unloaded ↔ Above loaded k := by
  unfold stateOf
  split_ifs with hstored hloaded
  · simp [hstored.mono hsub]
  · simp [hloaded]
  · simp [hloaded]

theorem stateOf_load (hk : IsAncestor k (nodeIdx p)) :
    stateOf (insert p loaded) stored k = raised .loaded (stateOf loaded stored k) := by
  unfold stateOf
  rw [if_pos (above_insert.mpr (.inl hk)) (c := Above (insert p loaded) k)]
  split_ifs <;> rfl

theorem stateOf_load_other (hk : ¬ IsAncestor k (nodeIdx p)) :
    stateOf (insert p loaded) stored k = stateOf loaded stored k := by
  have habove : Above (insert p loaded) k = Above loaded k := by rw [above_insert, or_iff_right hk]
  unfold stateOf
  rw [habove]

theorem stateOf_store (hk : IsAncestor k (nodeIdx p)) :
    stateOf loaded (insert p stored) k = raised .dirty (stateOf loaded stored k) := by
  have hraised (state : PageState) : raised .dirty state = .dirty := by cases state <;> rfl
  rw [hraised, stateOf, if_pos (above_insert.mpr (.inl hk))]

theorem stateOf_store_other (hk : ¬ IsAncestor k (nodeIdx p)) :
    stateOf loaded (insert p stored) k = stateOf loaded stored k := by
  have habove : Above (insert p stored) k = Above stored k := by rw [above_insert, or_iff_right hk]
  unfold stateOf
  rw [habove]

end StateOf

/-- Some pages were accessed since the segment started and some of them stored to; this is what it did to the nodes
and what it cost. -/
structure Charged (m : PagedMemory) (loaded stored : Finset ℕ) : Prop where
  resident : ∃ pages, Resident m pages
  lt : ∀ p ∈ loaded, p < memoryPages
  sub : stored ⊆ loaded
  states : ∀ k, m.pageStates.get k = stateOf loaded stored k
  cycles : m.cycles = reservedPagingCycles + pageCycles * (loaded.card + stored.card) + nodeCycles * m.pageStates.weight

namespace Charged

variable {m m' : PagedMemory} {loaded stored : Finset ℕ} {p : ℕ}

section

variable (h : Charged m loaded stored)

include h

theorem mem_iff (p : ℕ) : m.pageStates.get (nodeIdx p) ≠ .unloaded ↔ p ∈ loaded := by
  rw [h.states, stateOf_ne_unloaded h.sub, above_nodeIdx h.lt]

theorem dirty_iff (p : ℕ) : m.pageStates.get (nodeIdx p) = .dirty ↔ p ∈ stored := by
  rw [h.states, ← above_nodeIdx fun q hq => h.lt q (h.sub hq)]
  unfold stateOf
  split_ifs with hstored hloaded <;> simp [hstored]

theorem table_iff (p : ℕ) : m.pageTable.get p = none ↔ p ∉ loaded := by
  obtain ⟨pages, hresident⟩ := h.resident
  rw [← h.mem_iff, hresident.states]
  refine ⟨fun hnone hmem => ?_, hresident.get_none⟩
  obtain ⟨c, hc⟩ := List.getElem?_of_mem hmem
  rw [(hresident.get_iff p c).mpr hc] at hnone
  cases hnone

theorem congr (hresident : ∃ pages, Resident m' pages) (hstates : m'.pageStates = m.pageStates)
    (hcycles : m'.cycles = m.cycles) : Charged m' loaded stored :=
  ⟨hresident, h.lt, h.sub, fun k => hstates ▸ h.states k, by rw [hstates, hcycles, h.cycles]⟩

theorem pageIn (hp : p < memoryPages) (hnot : p ∉ loaded) :
    ∃ m', m.pageIn p = some m' ∧ Charged m' (insert p loaded) stored := by
  obtain ⟨pages, hresident⟩ := h.resident
  have hnew : p ∉ pages := fun hmem => hnot ((h.mem_iff p).mp ((hresident.states p).mpr hmem))
  obtain ⟨m', hin, hresident', -, -⟩ := pageIn_spec hresident hp hnew
  obtain ⟨t, ht, hfix⟩ := bind_eq_some_iff.mp hin
  obtain ⟨m'', hm'', hstates, hcycles⟩ := fixupCosts_costs (show PageState.loaded ≠ .unloaded by decide) (nodeIdx p)
    (({ m with
      image := (WorkingImage.getPage p m.image).2
      pageTable := t
      pageCache := m.pageCache ++ [(WorkingImage.getPage p m.image).1] } : PagedMemory).charge .pageIn pageCycles)
    hresident.listed
  cases hm''.symm.trans hfix
  refine ⟨m', hin, ⟨_, hresident'⟩, fun q hq => ?_, h.sub.trans (subset_insert p loaded), fun k => ?_, ?_⟩
  · obtain rfl | hq := mem_insert.mp hq
    · exact hp
    · exact h.lt q hq
  · by_cases hk : IsAncestor k (nodeIdx p)
    · rw [(hstates k).1 hk, stateOf_load hk, ← h.states]
      rfl
    · rw [(hstates k).2 hk, stateOf_load_other hk, ← h.states]
      rfl
  · have hcharged : m'.cycles + nodeCycles * m.pageStates.weight = m.cycles + pageCycles + nodeCycles * m'.pageStates.weight := hcycles
    rw [h.cycles] at hcharged
    rw [card_insert_of_notMem hnot, Nat.add_right_comm loaded.card, Nat.mul_succ]
    omega

theorem markForWriting (hp : p ∈ loaded) {state : PageState} (hstate : state = m.pageStates.get (nodeIdx p)) :
    ∃ m', m.markForWriting (nodeIdx p) state = some m' ∧ Charged m' loaded (insert p stored) := by
  obtain ⟨pages, hresident⟩ := h.resident
  have hmem : p ∈ pages := (hresident.states p).mp ((h.mem_iff p).mpr hp)
  by_cases hstored : p ∈ stored
  · have hdirty := (h.dirty_iff p).mpr hstored
    refine ⟨m, ?_, (insert_eq_of_mem hstored).symm ▸ h⟩
    rw [PagedMemory.markForWriting, if_neg]
    rw [hstate, hdirty]
    decide
  · have hloaded : m.pageStates.get (nodeIdx p) = .loaded := by
      have hne := (h.mem_iff p).mpr hp
      have hclean := mt (h.dirty_iff p).mp hstored
      cases hget : m.pageStates.get (nodeIdx p)
      · exact absurd hget hne
      · rfl
      · exact absurd hget hclean
    have hspec := markForWriting_spec hresident hmem (.inl (rfl : PageState.loaded = .loaded))
    obtain ⟨m', hmark, -, hresident', -⟩ := hspec
    rw [hstate, hloaded]
    have hparts := hmark
    rw [PagedMemory.markForWriting, if_pos rfl] at hparts
    obtain ⟨m₁, hfix, hparts⟩ := bind_eq_some_iff.mp hparts
    obtain ⟨pageStates, hset, hparts⟩ := bind_eq_some_iff.mp hparts
    cases hparts
    obtain ⟨m₂, hm2, hstates, hcycles⟩ := fixupCosts_costs (show PageState.dirty ≠ .unloaded by decide) (nodeIdx p)
      (m.charge .pageOut pageCycles) hresident.listed
    cases hm2.symm.trans hfix
    have hself : m₁.pageStates.get (nodeIdx p) = .dirty := by
      rw [(hstates _).1 (.refl (by unfold nodeIdx memoryPages; omega))]
      show raised .dirty (m.pageStates.get (nodeIdx p)) = .dirty
      rw [hloaded]
      rfl
    obtain ⟨s, hs, hget, -⟩ := PageStates.get_set (s := m₁.pageStates) (show PageState.dirty ≠ .unloaded by decide) (nodeIdx p)
    cases hs.symm.trans hset
    have hsame (k : ℕ) : pageStates.get k = m₁.pageStates.get k := by
      rw [hget]
      split_ifs with hk
      · rw [hk, hself]
      · rfl
    have hweight : pageStates.weight = m₁.pageStates.weight := by
      unfold PageStates.weight
      simp only [hsame]
    refine ⟨_, hmark, ⟨_, hresident'⟩, h.lt, insert_subset hp h.sub, fun k => ?_, ?_⟩
    · show pageStates.get k = _
      rw [hsame]
      by_cases hk : IsAncestor k (nodeIdx p)
      · rw [(hstates k).1 hk, stateOf_store hk, ← h.states]
        rfl
      · rw [(hstates k).2 hk, stateOf_store_other hk, ← h.states]
        rfl
    · show m₁.cycles = _ + nodeCycles * pageStates.weight
      have hcharged : m₁.cycles + nodeCycles * m.pageStates.weight = m.cycles + pageCycles + nodeCycles * m₁.pageStates.weight := hcycles
      rw [h.cycles] at hcharged
      rw [hweight, card_insert_of_notMem hstored, ← Nat.add_assoc, Nat.mul_succ]
      omega

theorem loadForWriting (hp : p < memoryPages) :
    ∃ m', m.loadForWriting p = some (m'.pageStates.get (nodeIdx p), m') ∧ Charged m' (insert p loaded) stored := by
  unfold PagedMemory.loadForWriting
  split_ifs with hunloaded
  · have hnot : p ∉ loaded := fun hmem => (h.mem_iff p).mpr hmem hunloaded
    obtain ⟨m', hin, hcharged⟩ := h.pageIn hp hnot
    have hloaded : m'.pageStates.get (nodeIdx p) = .loaded := by
      have hne := (hcharged.mem_iff p).mpr (mem_insert_self p loaded)
      have hclean := mt (hcharged.dirty_iff p).mp fun hmem => hnot (h.sub hmem)
      cases hget : m'.pageStates.get (nodeIdx p)
      · exact absurd hget hne
      · rfl
      · exact absurd hget hclean
    refine ⟨m', ?_, hcharged⟩
    rw [hin, hloaded]
    rfl
  · exact ⟨m, rfl, (insert_eq_of_mem ((h.mem_iff p).mp hunloaded)).symm ▸ h⟩

end

variable {addr : ℕ}

variable (h : Charged m loaded stored)

include h

theorem loadRam (haddr : pageIdx addr < memoryPages) :
    ∃ word m', m.loadRam addr = some (word, m') ∧ Charged m' (insert (pageIdx addr) loaded) stored := by
  obtain ⟨pages, hresident⟩ := h.resident
  obtain ⟨m', pages', hload, hresident', -⟩ := loadRam_spec hresident haddr
  refine ⟨_, m', hload, ?_⟩
  unfold PagedMemory.loadRam at hload
  cases hget : m.pageTable.get (pageIdx addr) with
  | some c =>
    rw [hget] at hload
    obtain ⟨_, hc, hload⟩ := bind_eq_some_iff.mp hload
    cases hc
    obtain ⟨page, -, hload⟩ := bind_eq_some_iff.mp hload
    obtain rfl : m = m' := congrArg Prod.snd (Option.some.inj hload)
    have hmem : pageIdx addr ∈ loaded := by
      by_contra hnot
      rw [(h.table_iff _).mpr hnot] at hget
      cases hget
    exact (insert_eq_of_mem hmem).symm ▸ h
  | none =>
    obtain ⟨m₁, hin, hcharged⟩ := h.pageIn haddr ((h.table_iff _).mp hget)
    rw [hget] at hload
    simp only [bind_eq_bind, hin, bind_some, bind_eq_some_iff] at hload
    obtain ⟨c, -, _, hfound, page, -, hload⟩ := hload
    cases hfound
    obtain rfl : m₁ = m' := congrArg Prod.snd (Option.some.inj hload)
    exact hcharged

theorem storeRam (haddr : pageIdx addr < memoryPages) (word : Word) :
    ∃ m', m.storeRam addr word = some m' ∧ Charged m' (insert (pageIdx addr) loaded) (insert (pageIdx addr) stored) := by
  obtain ⟨m₁, hload, h1⟩ := h.loadForWriting haddr
  obtain ⟨m₂, hmark, h2⟩ := h1.markForWriting (mem_insert_self _ _) rfl
  obtain ⟨pages, hresident⟩ := h.resident
  obtain ⟨c, m', pages', hwrite, hresident', hc, -, hdirty, -, -⟩ := pageForWriting_spec hresident haddr
  have hsame : m' = m₂ := by
    simp only [pageForWriting, bind_eq_bind, hload, hmark, bind_some] at hwrite
    obtain ⟨c', -, hwrite⟩ := bind_eq_some_iff.mp hwrite
    obtain ⟨-, hwrite⟩ := ite_none_right_eq_some.mp hwrite
    cases hwrite
    rfl
  subst hsame
  obtain ⟨hmodified, -⟩ := hresident'.modify hc ((hdirty _).mpr (.inl rfl)) (Page.store addr word)
  refine ⟨_, by rw [PagedMemory.storeRam, hwrite]; rfl, h2.congr ⟨_, hmodified⟩ rfl rfl⟩

theorem peekRam (addr : ℕ) : ∃ word m', m.peekRam addr = some (word, m') ∧ Charged m' loaded stored := by
  obtain ⟨pages, hresident⟩ := h.resident
  obtain ⟨m', hpeek, hresident', -⟩ := peekRam_spec hresident addr
  refine ⟨_, m', hpeek, ?_⟩
  unfold PagedMemory.peekRam at hpeek
  split at hpeek
  · obtain ⟨page, -, hpeek⟩ := bind_eq_some_iff.mp hpeek
    obtain rfl : m = m' := congrArg Prod.snd (Option.some.inj hpeek)
    exact h
  · obtain rfl : { m with image := _ } = m' := congrArg Prod.snd (Option.some.inj hpeek)
    exact h.congr ⟨_, hresident'⟩ rfl rfl

theorem setRegisters (user machine : Fin 32 → Word) :
    Charged { m with userRegisters := user, machineRegisters := machine } loaded stored := by
  obtain ⟨pages, hr⟩ := h.resident
  exact h.congr ⟨pages, ⟨hr.table, hr.nodup, hr.lt, hr.length, hr.get_iff, hr.states, hr.listed, hr.clean⟩⟩ rfl rfl

end Charged

def IsRegister (addr : ℕ) : Prop :=
  (userRegs ≤ addr ∧ addr < userRegs + regMax) ∨ machineRegs ≤ addr ∧ addr < machineRegs + regMax

instance (addr : ℕ) : Decidable (IsRegister addr) := inferInstanceAs (Decidable (_ ∨ _))

/-- The page that an address is in, unless it is that of a register or past the end of memory. -/
def ramPage (addr : ℕ) : Finset ℕ := if memoryEndAddr ≤ addr ∨ IsRegister addr then ∅ else {pageIdx addr}

namespace MemoryOp

def accesses : MemoryOp → Finset ℕ
  | .load addr => ramPage addr
  | .store addr _ => ramPage addr
  | _ => ∅

def stores : MemoryOp → Finset ℕ
  | .store addr _ => ramPage addr
  | _ => ∅

def allAccesses (ops : List MemoryOp) : Finset ℕ := ops.foldr (fun op pages => op.accesses ∪ pages) ∅

/-- The distinct pages that some operations store to. -/
def allStores (ops : List MemoryOp) : Finset ℕ := ops.foldr (fun op pages => op.stores ∪ pages) ∅

end MemoryOp

theorem ramPage_end (haddr : memoryEndAddr ≤ addr) : ramPage addr = ∅ := if_pos (.inl haddr)

theorem ramPage_user (i : Fin 32) : ramPage (userRegs + i) = ∅ :=
  if_pos (.inr (.inl ⟨Nat.le_add_right .., Nat.add_lt_add_left i.isLt _⟩))

theorem ramPage_machine (i : Fin 32) : ramPage (machineRegs + i) = ∅ :=
  if_pos (.inr (.inr ⟨Nat.le_add_right .., Nat.add_lt_add_left i.isLt _⟩))

theorem ramPage_other (haddr : ¬ memoryEndAddr ≤ addr) (m : PagedMemory) (hreg : m.tryLoadRegister addr = none) :
    ramPage addr = {pageIdx addr} := by
  refine if_neg ?_
  rw [not_or, IsRegister, not_or]
  unfold tryLoadRegister at hreg
  split_ifs at hreg with huser hmachine
  exact ⟨haddr, huser, hmachine⟩

namespace Charged

variable {m m' : PagedMemory} {loaded stored : Finset ℕ}

theorem load (h : Charged m loaded stored) (addr : ℕ) :
    ∃ r m', m.load addr = some (r, m') ∧ Charged m' (ramPage addr ∪ loaded) stored := by
  unfold PagedMemory.load
  split_ifs with haddr
  · rw [ramPage_end haddr, empty_union]
    exact ⟨_, m, rfl, h⟩
  · obtain ⟨i, rfl⟩ | ⟨i, rfl⟩ | hnone := register_cases addr
    · rw [tryLoadRegister_user, ramPage_user, empty_union]
      exact ⟨_, m, rfl, h⟩
    · rw [tryLoadRegister_machine, ramPage_machine, empty_union]
      exact ⟨_, m, rfl, h⟩
    · obtain ⟨word, m', hload, hcharged⟩ := h.loadRam (pageIdx_lt haddr)
      rw [(hnone m).1, ramPage_other haddr m (hnone m).1]
      dsimp only
      rw [hload]
      exact ⟨_, m', rfl, hcharged⟩

theorem store (h : Charged m loaded stored) (addr : ℕ) (word : Word) :
    ∃ r m', m.store addr word = some (r, m') ∧ Charged m' (ramPage addr ∪ loaded) (ramPage addr ∪ stored) := by
  unfold PagedMemory.store
  split_ifs with haddr
  · rw [ramPage_end haddr, empty_union, empty_union]
    exact ⟨_, m, rfl, h⟩
  · obtain ⟨i, rfl⟩ | ⟨i, rfl⟩ | hnone := register_cases addr
    · rw [tryStoreRegister_user, ramPage_user, empty_union, empty_union]
      exact ⟨_, _, rfl, h.setRegisters _ _⟩
    · rw [tryStoreRegister_machine, ramPage_machine, empty_union, empty_union]
      exact ⟨_, _, rfl, h.setRegisters _ _⟩
    · obtain ⟨m', hstore, hcharged⟩ := h.storeRam (pageIdx_lt haddr) word
      rw [(hnone m).2, ramPage_other haddr m (hnone m).1]
      dsimp only
      rw [hstore]
      exact ⟨_, m', rfl, hcharged⟩

theorem peek (h : Charged m loaded stored) (addr : ℕ) :
    ∃ r m', m.peek addr = some (r, m') ∧ Charged m' loaded stored := by
  unfold PagedMemory.peek
  split_ifs with haddr
  · exact ⟨_, m, rfl, h⟩
  · cases m.tryLoadRegister addr with
    | some word => exact ⟨_, m, rfl, h⟩
    | none =>
      obtain ⟨word, m', hpeek, hcharged⟩ := h.peekRam addr
      dsimp only
      rw [hpeek]
      exact ⟨_, m', rfl, hcharged⟩

variable {base : ℕ}

section

variable (h : Charged m loaded stored) (hbase : base = userRegs ∨ base = machineRegs) (idx : Fin 32)

include h hbase idx

theorem loadRegister : ∃ r m', (MemoryOp.loadRegister base idx).exec m = some (r, m') ∧ Charged m' loaded stored := by
  obtain rfl | rfl := hbase
  · exact ⟨_, m, by rw [MemoryOp.exec, PagedMemory.loadRegister, if_pos rfl]; rfl, h⟩
  · have hne : machineRegs ≠ userRegs := by decide
    exact ⟨_, m, by rw [MemoryOp.exec, PagedMemory.loadRegister, if_neg hne, if_pos rfl]; rfl, h⟩

theorem storeRegister
    (word : Word) : ∃ r m', (MemoryOp.storeRegister base idx word).exec m = some (r, m') ∧ Charged m' loaded stored := by
  obtain rfl | rfl := hbase
  · exact ⟨_, _, by rw [MemoryOp.exec, PagedMemory.storeRegister, if_pos rfl]; rfl, h.setRegisters _ _⟩
  · have hne : machineRegs ≠ userRegs := by decide
    exact ⟨_, _, by rw [MemoryOp.exec, PagedMemory.storeRegister, if_neg hne, if_pos rfl]; rfl, h.setRegisters _ _⟩

end

theorem exec (h : Charged m loaded stored) (op : MemoryOp) (hop : op.Valid) (hne : op ≠ .commit) :
    ∃ r m', op.exec m = some (r, m') ∧ Charged m' (op.accesses ∪ loaded) (op.stores ∪ stored) := by
  cases op with
  | load addr =>
    obtain ⟨r, m', hload, hcharged⟩ := h.load addr
    exact ⟨_, m', by rw [MemoryOp.exec, hload]; rfl, (empty_union stored).symm ▸ hcharged⟩
  | store addr word =>
    obtain ⟨r, m', hstore, hcharged⟩ := h.store addr word
    exact ⟨_, m', by rw [MemoryOp.exec, hstore]; rfl, hcharged⟩
  | peek addr =>
    obtain ⟨r, m', hpeek, hcharged⟩ := h.peek addr
    exact ⟨_, m', by rw [MemoryOp.exec, hpeek]; rfl,
      (empty_union loaded).symm ▸ (empty_union stored).symm ▸ hcharged⟩
  | loadRegister base idx =>
    obtain ⟨r, m', hload, hcharged⟩ := h.loadRegister hop idx
    exact ⟨r, m', hload, (empty_union loaded).symm ▸ (empty_union stored).symm ▸ hcharged⟩
  | storeRegister base idx word =>
    obtain ⟨r, m', hstore, hcharged⟩ := h.storeRegister hop idx word
    exact ⟨r, m', hstore, (empty_union loaded).symm ▸ (empty_union stored).symm ▸ hcharged⟩
  | commit => exact absurd rfl hne

theorem runOps (ops : List MemoryOp) (hops : ∀ op ∈ ops, op.Valid ∧ op ≠ .commit) {m : PagedMemory} {loaded stored : Finset ℕ}
    (h : Charged m loaded stored) : ∃ os m', Lib.runOps MemoryOp.exec ops m = some (os, m') ∧
      Charged m' (MemoryOp.allAccesses ops ∪ loaded) (MemoryOp.allStores ops ∪ stored) := by
  induction ops generalizing m loaded stored with
  | nil => exact ⟨[], m, rfl, (empty_union loaded).symm ▸ (empty_union stored).symm ▸ h⟩
  | cons op ops ih =>
    rw [List.forall_mem_cons] at hops
    obtain ⟨r, m₁, hexec, h1⟩ := h.exec op hops.1.1 hops.1.2
    obtain ⟨os, m', hrun, h'⟩ := ih hops.2 h1
    refine ⟨r :: os, m', ?_, ?_⟩
    · show (op.exec m).bind _ = _
      rw [hexec]
      show (Lib.runOps MemoryOp.exec ops m₁).bind _ = _
      rw [hrun]
      rfl
    · rw [← union_assoc, ← union_assoc, union_comm _ op.accesses, union_comm _ op.stores] at h'
      exact h'

end Charged

open Classical in
noncomputable def innerNodes (pages : Finset ℕ) : Finset ℕ := (Finset.range memoryPages).filter (Above pages)

theorem rank_stateOf {loaded stored : Finset ℕ} (hsub : stored ⊆ loaded) (k : ℕ) [Decidable (Above loaded k)]
    [Decidable (Above stored k)] :
    (stateOf loaded stored k).rank = (if Above loaded k then 1 else 0) + if Above stored k then 1 else 0 := by
  unfold stateOf
  by_cases hstored : Above stored k
  · rw [if_pos hstored, if_pos hstored, if_pos (hstored.mono hsub)]
    rfl
  · by_cases hloaded : Above loaded k
    · rw [if_neg hstored, if_neg hstored, if_pos hloaded, if_pos hloaded]
      rfl
    · rw [if_neg hstored, if_neg hstored, if_neg hloaded, if_neg hloaded]
      rfl

theorem card_innerNodes_le (pages : Finset ℕ) : (innerNodes pages).card ≤ memoryPages := by
  classical
  exact (card_filter_le _ _).trans (card_range memoryPages).le

/-- The node indices that are not unloaded. -/
def PagedMemory.pageIndexes (m : PagedMemory) : Finset ℕ := m.pageStates.indexes.toFinset

/-- What a segment with some operations has cost, and what it leaves in the nodes. -/
structure Paid (m : PagedMemory) (loaded stored : Finset ℕ) : Prop where
  cycles : m.cycles = reservedPagingCycles + pageCycles * (loaded.card + stored.card) +
    nodeCycles * ((innerNodes loaded).card + (innerNodes stored).card)
  fits : m.cycles < 2 ^ 32
  indexes : ∀ k, k ∈ m.pageIndexes ↔ Above loaded k
  ordered : ∀ a k, IsAncestor a k → (m.pageStates.get k).rank ≤ (m.pageStates.get a).rank

namespace Charged

variable {m : PagedMemory} {loaded stored : Finset ℕ}

theorem weight_eq (h : Charged m loaded stored) :
    m.pageStates.weight = (innerNodes loaded).card + (innerNodes stored).card := by
  classical
  unfold PageStates.weight innerNodes
  rw [card_filter, card_filter, ← sum_add_distrib]
  exact sum_congr rfl fun k _ => by rw [h.states, rank_stateOf h.sub]

theorem card_le (h : Charged m loaded stored) : loaded.card ≤ memoryPages ∧ stored.card ≤ memoryPages := by
  have hloaded : loaded ⊆ range memoryPages := fun p hp => mem_range.mpr (h.lt p hp)
  exact ⟨(card_le_card hloaded).trans (card_range _).le,
    (card_le_card (h.sub.trans hloaded)).trans (card_range _).le⟩

theorem paid (h : Charged m loaded stored) : Paid m loaded stored := by
  classical
  have hcycles := h.cycles
  rw [h.weight_eq] at hcycles
  refine ⟨hcycles, ?_, fun k => ?_, fun a k ha => ?_⟩
  · obtain ⟨hloaded, hstored⟩ := h.card_le
    have hinner := card_innerNodes_le loaded
    have hinner' := card_innerNodes_le stored
    have hpages : pageCycles * (loaded.card + stored.card) ≤ pageCycles * (memoryPages + memoryPages) :=
      Nat.mul_le_mul_left _ (Nat.add_le_add hloaded hstored)
    have hnodes : nodeCycles * ((innerNodes loaded).card + (innerNodes stored).card) ≤ nodeCycles * (memoryPages + memoryPages) :=
      Nat.mul_le_mul_left _ (Nat.add_le_add hinner hinner')
    calc m.cycles ≤ reservedPagingCycles + pageCycles * (memoryPages + memoryPages) + nodeCycles * (memoryPages + memoryPages) := by
          rw [hcycles]
          omega
      _ < 2 ^ 32 := by decide
  · obtain ⟨pages, hresident⟩ := h.resident
    rw [PagedMemory.pageIndexes, List.mem_toFinset, hresident.listed.mem_iff, h.states, stateOf_ne_unloaded h.sub]
  · rw [h.states, h.states, rank_stateOf h.sub, rank_stateOf h.sub]
    have hloaded := fun habove : Above loaded k => habove.ancestor ha
    have hstored := fun habove : Above stored k => habove.ancestor ha
    split_ifs <;> simp_all

theorem start (hresident : ∃ pages, Resident m pages) (hstates : m.pageStates = .new) (hcycles : m.cycles = reservedPagingCycles) :
    Charged m ∅ ∅ := by
  have hget (k : ℕ) : m.pageStates.get k = .unloaded := by
    rw [hstates]
    rfl
  have hnone (k : ℕ) : ¬ Above ∅ k := fun ⟨p, hp, _⟩ => notMem_empty p hp
  refine ⟨hresident, fun p hp => absurd hp (notMem_empty p), subset_rfl, fun k => ?_, ?_⟩
  · rw [hget, stateOf, if_neg (hnone k), if_neg (hnone k)]
  · have hweight : m.pageStates.weight = 0 := sum_eq_zero fun k _ => by rw [hget]; rfl
    rw [hcycles, hweight]
    rfl

end Charged

/-- A segment starts with the image, or after a commit. -/
def StartsSegment (before : List MemoryOp) : Prop := before = [] ∨ ∃ earlier, before = earlier ++ [.commit]

theorem charged_of_start {image : MemoryImage} {tracingEnabled : Bool} {m : PagedMemory}
    (h : PagedMemory.new image tracingEnabled = some m) {before : List MemoryOp} (hbefore : ∀ op ∈ before, op.Valid)
    (hstart : StartsSegment before) : ∃ os m', runOps MemoryOp.exec before m = some (os, m') ∧ Charged m' ∅ ∅ := by
  have hnew := new_spec h
  obtain rfl | ⟨earlier, rfl⟩ := hstart
  · obtain ⟨page, -, heq⟩ := bind_eq_some_iff.mp h
    cases heq
    exact ⟨[], _, rfl, .start hnew.resident rfl rfl⟩
  · obtain ⟨os, m₁, hrun, -, hrefines⟩ := simulate MemoryAnswer.flat Refines MemoryOp.Valid exec_spec earlier
      (fun op hop => hbefore op (List.mem_append_left _ hop)) m _ hnew
    obtain ⟨partialImage, m₂, hcommit, -, hrefines⟩ := hrefines.commit
    have hlast : runOps MemoryOp.exec [.commit] m₁ = some ([.committed partialImage m₂.image], m₂.reset) := by
      show (MemoryOp.commit.exec m₁).bind _ = _
      rw [MemoryOp.exec, hcommit]
      rfl
    exact ⟨_, m₂.reset, runOps_append hrun hlast, .start hrefines.resident rfl rfl⟩

/-- Whatever the order of the operations of a segment, it costs what the distinct pages that it accesses and stores to
cost, and the nodes above them. -/
theorem paging_cost {image : MemoryImage} {tracingEnabled : Bool} {m : PagedMemory}
    (h : PagedMemory.new image tracingEnabled = some m) (before ops : List MemoryOp) (hbefore : ∀ op ∈ before, op.Valid)
    (hstart : StartsSegment before) (hops : ∀ op ∈ ops, op.Valid ∧ op ≠ .commit) :
    ∃ os m', runOps MemoryOp.exec (before ++ ops) m = some (os, m') ∧
      Paid m' (MemoryOp.allAccesses ops) (MemoryOp.allStores ops) := by
  obtain ⟨os, m₁, hrun, hcharged⟩ := charged_of_start h hbefore hstart
  obtain ⟨os', m', hrun', hcharged'⟩ := hcharged.runOps ops hops
  rw [Finset.union_empty, Finset.union_empty] at hcharged'
  exact ⟨_, m', runOps_append hrun hrun', hcharged'.paid⟩

/-- Two loads and two stores in two pages of a second segment. -/
theorem paging_cost_second : ∃ m os m', PagedMemory.new ⟨.empty, fun _ => true⟩ false = some m ∧
      runOps MemoryOp.exec ([.load 0x4000, .commit] ++ [.store 0x8000 1, .load 0x8001, .load 0x4000, .store 0x8002 2]) m =
        some (os, m') ∧ Paid m' {0x80, 0x40} {0x80} := by
  have hnew : PagedMemory.new ⟨.empty, fun _ => true⟩ false = some _ := rfl
  obtain ⟨os, m', hrun, hpaid⟩ := paging_cost hnew [.load 0x4000, .commit]
    [.store 0x8000 1, .load 0x8001, .load 0x4000, .store 0x8002 2] (by simp [MemoryOp.Valid]) (.inr ⟨[.load 0x4000], rfl⟩)
    (by simp [MemoryOp.Valid])
  have hloaded : MemoryOp.allAccesses [.store 0x8000 1, .load 0x8001, .load 0x4000, .store 0x8002 2] = {0x80, 0x40} := by decide
  have hstored : MemoryOp.allStores [.store 0x8000 1, .load 0x8001, .load 0x4000, .store 0x8002 2] = {0x80} := by decide
  rw [hloaded, hstored] at hpaid
  exact ⟨_, os, m', rfl, hrun, hpaid⟩

end VerifiableCompute.Rv32im
