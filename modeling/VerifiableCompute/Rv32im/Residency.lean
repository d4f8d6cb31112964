import VerifiableCompute.Rv32im.Pager

/-! Which pages are in the cache, and where. The table, the cache and the states of
the nodes agree on a list of resident pages; a page that is not dirty is the page of
the image. -/

namespace VerifiableCompute.Rv32im

open Lib WorkingImage List Nat Option BitVec

namespace PageTable

theorem unpackValue_packValue {epoch cacheIdx : ℕ} (he : epoch ≤ epochMax) (hc : cacheIdx ≤ cacheIndexMax) :
    unpackValue (packValue epoch cacheIdx) = (epoch, cacheIdx) := by
  have he' : epoch < 2 ^ 10 := Nat.lt_of_le_of_lt he (by decide)
  have hc' : cacheIdx < 2 ^ 22 := Nat.lt_of_le_of_lt hc (by decide)
  have hvalue : (packValue epoch cacheIdx).toNat = epoch * 2 ^ 22 + cacheIdx := by
    have hlow : cacheIdx < 2 ^ 32 := by omega
    have hhigh : epoch < 2 ^ 32 := by omega
    have hshift : epoch <<< 22 < 2 ^ 32 := by
      rw [Nat.shiftLeft_eq]
      omega
    rw [packValue, toNat_or, toNat_shiftLeft, toNat_ofNat, toNat_ofNat,
      mod_eq_of_lt hlow, mod_eq_of_lt hhigh, cacheIndexBits, mod_eq_of_lt hshift,
      ← shiftLeft_add_eq_or_of_lt hc', Nat.shiftLeft_eq]
  have hepoch : ((packValue epoch cacheIdx &&& epochMask) >>> cacheIndexBits).toNat = epoch := by
    rw [toNat_ushiftRight, toNat_and, hvalue, shiftRight_and_distrib,
      show epochMask.toNat >>> cacheIndexBits = 2 ^ 10 - 1 from by decide, and_two_pow_sub_one_eq_mod,
      shiftRight_eq_div_pow, cacheIndexBits]
    omega
  have hcache : (packValue epoch cacheIdx &&& cacheIndexMask).toNat = cacheIdx := by
    rw [toNat_and, hvalue, show cacheIndexMask.toNat = 2 ^ 22 - 1 from by decide,
      and_two_pow_sub_one_eq_mod]
    omega
  rw [unpackValue, hepoch, hcache]

/-- No entry is of a later epoch. -/
structure Current (t : PageTable) : Prop where
  pos : 1 ≤ t.epoch
  le : t.epoch ≤ epochMax
  stale : ∀ p, (unpackValue (t.table p)).1 ≤ t.epoch

theorem unpackValue_zero : unpackValue 0#32 = (0, 0) := by decide

theorem current_new : new.Current := ⟨le_rfl, by decide, fun p => by simp [new, unpackValue_zero]⟩

theorem get_new (p : ℕ) : new.get p = none := by
  simp [get, new, unpackValue_zero]

variable {t t' : PageTable} {p c : ℕ}

theorem Current.get_set (h : t.Current) (hset : t.set p c = some t') (q : ℕ) :
    t'.get q = if q = p then some c else t.get q := by
  obtain ⟨hc, hset⟩ := ite_none_right_eq_some.mp hset
  cases hset
  by_cases hq : q = p
  · subst hq
    simp [get, unpackValue_packValue h.le hc]
  · simp [get, hq]

theorem Current.set (h : t.Current) (hset : t.set p c = some t') : t'.Current := by
  obtain ⟨hc, hset⟩ := ite_none_right_eq_some.mp hset
  cases hset
  refine ⟨h.pos, h.le, fun q => ?_⟩
  by_cases hq : q = p
  · subst hq
    simp [unpackValue_packValue h.le hc]
  · simpa [hq] using h.stale q

/-- After a clear no entry is valid, also when the epochs start again. -/
theorem Current.clear (h : t.Current) : t.clear.Current ∧ ∀ p, t.clear.get p = none := by
  unfold PageTable.clear
  split_ifs with hlt
  · refine ⟨⟨Nat.le_add_left _ _, hlt, fun p => (h.stale p).trans (le_succ _)⟩, fun p => ?_⟩
    have := h.stale p
    simp only [get]
    rw [if_neg (by omega)]
  · exact ⟨current_new, get_new⟩

end PageTable

namespace PageStates

/-- The listed nodes are those that are not unloaded. -/
structure Listed (s : PageStates) : Prop where
  nodup : s.indexes.Nodup
  mem_iff : ∀ n, n ∈ s.indexes ↔ s.get n ≠ .unloaded

theorem listed_empty : (⟨fun _ => false, []⟩ : PageStates).Listed :=
  ⟨.nil, fun n => by simp [get]⟩

variable {s : PageStates}

theorem get_set {value : PageState} (hv : value ≠ .unloaded) (n : ℕ) :
    ∃ s', s.set n value = some s' ∧ (∀ k, s'.get k = if k = n then value else s.get k) ∧
      s'.indexes = if s.get n ≠ .unloaded then s.indexes else s.indexes ++ [n] := by
  cases value with
  | unloaded => exact absurd rfl hv
  | loaded =>
    refine ⟨_, rfl, fun k => ?_, rfl⟩
    by_cases hk : k = n
    · subst hk
      simp [get]
    · have hodd : ¬ k * 2 = n * 2 + 1 := by omega
      have heven : ¬ k * 2 + 1 = n * 2 := by omega
      simp [get, hk, hodd, heven]
  | dirty =>
    refine ⟨_, rfl, fun k => ?_, rfl⟩
    by_cases hk : k = n
    · subst hk
      simp [get]
    · have heven : ¬ k * 2 + 1 = n * 2 := by omega
      simp [get, hk, heven]

theorem Listed.set (h : s.Listed) {value : PageState} (hv : value ≠ .unloaded) (n : ℕ) :
    ∃ s', s.set n value = some s' ∧ s'.Listed ∧ ∀ k, s'.get k = if k = n then value else s.get k := by
  obtain ⟨s', hset, hget, hindexes⟩ := get_set (s := s) hv n
  refine ⟨s', hset, ?_, hget⟩
  by_cases hn : s.get n = .unloaded
  · rw [if_neg (by simpa using hn)] at hindexes
    refine ⟨?_, fun k => ?_⟩
    · rw [hindexes]
      have hnot : n ∉ s.indexes := fun hmem => (h.mem_iff n).mp hmem hn
      exact nodup_append.mpr ⟨h.nodup, nodup_singleton n, fun a ha b hb heq =>
        hnot (mem_singleton.mp hb ▸ heq ▸ ha)⟩
    · rw [hindexes, hget, mem_append, mem_singleton, h.mem_iff]
      by_cases hk : k = n <;> simp [hk, hv]
  · rw [if_pos hn] at hindexes
    refine ⟨hindexes ▸ h.nodup, fun k => ?_⟩
    rw [hindexes, hget, h.mem_iff]
    by_cases hk : k = n
    · simp [hk, hn, hv]
    · simp [hk]

end PageStates

/-- Only costs and states of nodes differ. -/
structure SameContents (m m' : PagedMemory) : Prop where
  image : m'.image = m.image
  pageTable : m'.pageTable = m.pageTable
  pageCache : m'.pageCache = m.pageCache
  userRegisters : m'.userRegisters = m.userRegisters
  machineRegisters : m'.machineRegisters = m.machineRegisters

namespace SameContents

theorem refl (m : PagedMemory) : SameContents m m := ⟨rfl, rfl, rfl, rfl, rfl⟩

theorem trans {m m' m'' : PagedMemory} (h : SameContents m m') (h' : SameContents m' m'') : SameContents m m'' :=
  ⟨h'.image.trans h.image, h'.pageTable.trans h.pageTable, h'.pageCache.trans h.pageCache,
    h'.userRegisters.trans h.userRegisters, h'.machineRegisters.trans h.machineRegisters⟩

end SameContents

namespace PagedMemory

variable {m : PagedMemory}

theorem payNode_same (node : ℕ) (state goal : PageState) (m : PagedMemory) :
    SameContents m (m.payNode node state goal) ∧ (m.payNode node state goal).pageStates = m.pageStates := by
  unfold payNode
  dsimp only
  split_ifs <;> exact ⟨⟨rfl, rfl, rfl, rfl, rfl⟩, rfl⟩

/-- The higher of two states. -/
def raised (goal state : PageState) : PageState := if state.rank < goal.rank then goal else state

/-- The ancestors of a node are at most half of it, so only the node itself is raised above. -/
theorem fixupCosts_spec {goal : PageState} (hgoal : goal ≠ .unloaded) (node : ℕ) (m : PagedMemory)
    (hlisted : m.pageStates.Listed) :
    ∃ m', m.fixupCosts node goal = some m' ∧ SameContents m m' ∧ m'.pageStates.Listed ∧
      ∀ k, node / 2 < k → m'.pageStates.get k =
        if k = node then raised goal (m.pageStates.get k) else m.pageStates.get k := by
  induction node using Nat.strongRecOn generalizing m with
  | ind node ih =>
    rw [fixupCosts]
    split_ifs with hzero
    · refine ⟨m, rfl, .refl m, hlisted, fun k hk => ?_⟩
      rw [if_neg (by omega)]
    · have hhalf : node / 2 < node := by omega
      by_cases hraise : (m.pageStates.get node).rank < goal.rank
      · obtain ⟨hsame, hstates⟩ := payNode_same node (m.pageStates.get node) goal m
        obtain ⟨pageStates, hset, hlisted', hget⟩ := hlisted.set hgoal node
        obtain ⟨m', hm', hsame', hlisted'', hget'⟩ := ih (node / 2) hhalf
          { m.payNode node (m.pageStates.get node) goal with pageStates := pageStates } hlisted'
        refine ⟨m', ?_, hsame.trans ⟨hsame'.image, hsame'.pageTable, hsame'.pageCache, hsame'.userRegisters,
          hsame'.machineRegisters⟩, hlisted'', fun k hk => ?_⟩
        · simp only [hraise, if_true, hstates, hset, bind_eq_bind, bind_some]
          exact hm'
        · rw [hget' k (by omega), if_neg (by omega), hget]
          by_cases hk' : k = node
          · subst hk'
            rw [if_pos rfl, if_pos rfl, raised, if_pos hraise]
          · rw [if_neg hk', if_neg hk']
      · obtain ⟨m', hm', hsame, hlisted', hget⟩ := ih (node / 2) hhalf m hlisted
        refine ⟨m', ?_, hsame, hlisted', fun k hk => ?_⟩
        · simp only [hraise, if_false, bind_eq_bind]
          exact hm'
        · rw [hget k (by omega), if_neg (by omega)]
          by_cases hk' : k = node
          · subst hk'
            rw [if_pos rfl, raised, if_neg hraise]
          · rw [if_neg hk']

end PagedMemory

/-- A missing page of the image is zero. -/
def imagePage (image : WorkingImage) (p : ℕ) : Page := (image.get? p).getD .zero

theorem getPage_eq (p : ℕ) (image : WorkingImage) : (getPage p image).1 = imagePage image p ∧
    ∀ q, imagePage (getPage p image).2 q = imagePage image q := by
  unfold getPage imagePage
  cases hp : image.get? p with
  | some page => exact ⟨rfl, fun q => rfl⟩
  | none =>
    refine ⟨rfl, fun q => ?_⟩
    rw [OrderedMap.get?_insert]
    split_ifs with hq
    · rw [hq, hp]
      rfl
    · rfl

namespace PagedMemory

/-- The current contents of a page, apart from the registers. -/
def page (m : PagedMemory) (p : ℕ) : Page :=
  match m.pageTable.get p with
  | some c => (m.pageCache[c]?).getD .zero
  | none => imagePage m.image p

def dirty (m : PagedMemory) (p : ℕ) : Prop := m.pageStates.get (nodeIdx p) = .dirty

/-- The cache holds these pages in this order. -/
structure Resident (m : PagedMemory) (pages : List ℕ) : Prop where
  table : m.pageTable.Current
  nodup : pages.Nodup
  lt : ∀ p ∈ pages, p < memoryPages
  length : pages.length = m.pageCache.length
  get_iff : ∀ p c : ℕ, m.pageTable.get p = some c ↔ pages[c]? = some p
  states : ∀ p, m.pageStates.get (nodeIdx p) ≠ .unloaded ↔ p ∈ pages
  listed : m.pageStates.Listed
  clean : ∀ p c : ℕ, pages[c]? = some p → ¬ m.dirty p → m.pageCache[c]? = some (imagePage m.image p)

/-- What a page is, which pages are dirty and the registers stay. -/
structure Keeps (m m' : PagedMemory) : Prop where
  page : ∀ p, m'.page p = m.page p
  dirty : ∀ p, m'.dirty p ↔ m.dirty p
  userRegisters : m'.userRegisters = m.userRegisters
  machineRegisters : m'.machineRegisters = m.machineRegisters

variable {m : PagedMemory} {pages : List ℕ} {p : ℕ}

section

variable (h : Resident m pages)

include h

theorem Resident.page_of_get {c : ℕ} (hc : pages[c]? = some p) :
    ∃ page, m.pageCache[c]? = some page ∧ m.page p = page := by
  have hlt : c < m.pageCache.length := h.length ▸ (List.getElem?_eq_some_iff.mp hc).1
  refine ⟨_, List.getElem?_eq_getElem hlt, ?_⟩
  rw [PagedMemory.page, (h.get_iff p c).mpr hc]
  simp [hlt]

theorem Resident.get_none (hp : p ∉ pages) : m.pageTable.get p = none := by
  by_contra hget
  obtain ⟨c, hc⟩ := ne_none_iff_exists'.mp hget
  exact hp (mem_of_getElem? ((h.get_iff p c).mp hc))

theorem Resident.page_of_not_dirty (hp : ¬ m.dirty p) : m.page p = imagePage m.image p := by
  cases hget : m.pageTable.get p with
  | none => rw [PagedMemory.page, hget]
  | some c =>
    obtain ⟨page, hpage, heq⟩ := h.page_of_get ((h.get_iff p c).mp hget)
    rw [h.clean p c ((h.get_iff p c).mp hget) hp] at hpage
    rw [heq, ← Option.some.inj hpage]

/-- The pages are different, so there is room for one that is not among them. -/
theorem Resident.length_lt (hp : p < memoryPages) (hnot : p ∉ pages) :
    m.pageCache.length ≤ PageTable.cacheIndexMax := by
  have hsub : (p :: pages).Subperm (range memoryPages) := by
    refine (nodup_cons.mpr ⟨hnot, h.nodup⟩).subperm fun q hq => mem_range.mpr ?_
    rcases mem_cons.mp hq with rfl | hq
    · exact hp
    · exact h.lt q hq
  have hle := hsub.length_le
  rw [length_cons, length_range, h.length] at hle
  have hmax : PageTable.cacheIndexMax + 1 = memoryPages := by decide
  omega

end

theorem nodeIdx_half {p : ℕ} (hp : p < memoryPages) (q : ℕ) : nodeIdx p / 2 < nodeIdx q := by
  unfold nodeIdx
  omega

theorem nodeIdx_inj {p q : ℕ} : nodeIdx p = nodeIdx q ↔ p = q := by
  unfold nodeIdx
  omega

/-- A page that was not loaded is put behind the others in the cache. -/
structure PagesIn (m : PagedMemory) (p : ℕ) (m' : PagedMemory) : Prop where
  table : m'.pageTable.Current
  get : ∀ q, m'.pageTable.get q = if q = p then some m.pageCache.length else m.pageTable.get q
  cache : m'.pageCache = m.pageCache ++ [imagePage m.image p]
  image : ∀ q, imagePage m'.image q = imagePage m.image q
  states : ∀ q, m'.pageStates.get (nodeIdx q) = if q = p then .loaded else m.pageStates.get (nodeIdx q)
  listed : m'.pageStates.Listed
  userRegisters : m'.userRegisters = m.userRegisters
  machineRegisters : m'.machineRegisters = m.machineRegisters

theorem Resident.unloaded (h : Resident m pages) (hnot : p ∉ pages) : m.pageStates.get (nodeIdx p) = .unloaded := by
  by_contra hne
  exact hnot ((h.states p).mp hne)

theorem exists_pagesIn (h : Resident m pages) (hp : p < memoryPages) (hnot : p ∉ pages) :
    ∃ m', m.pageIn p = some m' ∧ PagesIn m p m' := by
  obtain ⟨hpage, himage⟩ := getPage_eq p m.image
  have hunloaded := h.unloaded hnot
  obtain ⟨t, ht⟩ : ∃ t, m.pageTable.set p m.pageCache.length = some t :=
    ⟨_, if_pos (h.length_lt hp hnot)⟩
  obtain ⟨m', hm', hsame, hlisted, hstates⟩ := fixupCosts_spec (show PageState.loaded ≠ .unloaded by decide) (nodeIdx p)
    ({ m with
      image := (getPage p m.image).2
      pageTable := t
      pageCache := m.pageCache ++ [(getPage p m.image).1] }.charge .pageIn pageCycles) h.listed
  have htable : m'.pageTable = t := hsame.pageTable
  refine ⟨m', ?_, htable ▸ h.table.set ht, fun q => ?_, hpage ▸ hsame.pageCache, fun q => ?_, fun q => ?_, hlisted,
    hsame.userRegisters, hsame.machineRegisters⟩
  · rw [pageIn]
    simp only [bind_eq_bind, ht, bind_some]
    exact hm'
  · rw [htable, h.table.get_set ht]
  · rw [hsame.image]
    exact himage q
  · rw [hstates _ (nodeIdx_half hp q)]
    show (if nodeIdx q = nodeIdx p then raised .loaded (m.pageStates.get (nodeIdx q)) else _) = _
    by_cases hq : q = p
    · subst hq
      rw [if_pos rfl, if_pos rfl, hunloaded]
      rfl
    · rw [if_neg fun heq => hq (nodeIdx_inj.mp heq), if_neg hq]
      rfl

/-- The last place is that of the new page. -/
theorem getElem?_append_new (hnot : p ∉ pages) {q c : ℕ} :
    (if q = p then some pages.length = some c else pages[c]? = some q) ↔ (pages ++ [p])[c]? = some q := by
  rcases Nat.lt_trichotomy c pages.length with hlt | rfl | hgt
  · rw [getElem?_append_left hlt]
    split_ifs with hq
    · subst hq
      exact iff_of_false (fun heq => hlt.ne' (Option.some.inj heq)) fun hc => hnot (mem_of_getElem? hc)
    · rfl
  · rw [getElem?_append_right le_rfl, Nat.sub_self]
    split_ifs with hq
    · exact iff_of_true rfl (congrArg some hq.symm)
    · refine iff_of_false (fun hc => ?_) fun heq => hq (Option.some.inj heq).symm
      exact absurd (List.getElem?_eq_some_iff.mp hc).1 (lt_irrefl _)
  · rw [List.getElem?_eq_none hgt.le, List.getElem?_eq_none (by rw [length_append]; exact hgt)]
    split_ifs with hq
    · exact iff_of_false (fun heq => hgt.ne (Option.some.inj heq)) nofun
    · rfl

namespace PagesIn

variable {m' : PagedMemory}

variable (h : PagesIn m p m') (hresident : Resident m pages) (hnot : p ∉ pages)

include h hresident hnot

theorem dirty_iff (q : ℕ) : m'.dirty q ↔ m.dirty q := by
  unfold dirty
  rw [h.states]
  by_cases hq : q = p
  · subst hq
    simp [hresident.unloaded hnot]
  · rw [if_neg hq]

theorem resident (hp : p < memoryPages) : Resident m' (pages ++ [p]) where
  table := h.table
  nodup := nodup_append.mpr ⟨hresident.nodup, nodup_singleton p, fun _ ha _ hb heq => hnot (mem_singleton.mp hb ▸ heq ▸ ha)⟩
  lt := by
    intro q hq
    rcases mem_append.mp hq with hq | hq
    · exact hresident.lt q hq
    · exact mem_singleton.mp hq ▸ hp
  length := by
    rw [h.cache, length_append, length_append, hresident.length]
    rfl
  get_iff := by
    intro q c
    rw [h.get, ← hresident.length, ← getElem?_append_new hnot]
    split_ifs
    · rfl
    · exact hresident.get_iff q c
  states := by
    intro q
    rw [h.states, mem_append, mem_singleton, ← hresident.states q]
    by_cases hq : q = p
    · simp [hq]
    · simp [hq]
  listed := h.listed
  clean := by
    intro q c hc hclean
    rw [h.cache, h.image]
    rcases Nat.lt_or_ge c pages.length with hlt | hge
    · rw [getElem?_append_left hlt] at hc
      rw [getElem?_append_left (hresident.length ▸ hlt)]
      exact hresident.clean q c hc fun hd => hclean ((h.dirty_iff hresident hnot q).mpr hd)
    · rw [getElem?_append_right hge, getElem?_singleton] at hc
      split_ifs at hc with hzero
      rw [getElem?_append_right (hresident.length ▸ hge), ← hresident.length, hzero, ← Option.some.inj hc]
      rfl

theorem page_eq (q : ℕ) : m'.page q = m.page q := by
  rw [PagedMemory.page, h.get]
  by_cases hq : q = p
  · subst hq
    rw [if_pos rfl, PagedMemory.page, hresident.get_none hnot, h.cache]
    simp
  · rw [if_neg hq, PagedMemory.page]
    cases hget : m.pageTable.get q with
    | none => exact h.image q
    | some c =>
      have hlt : c < m.pageCache.length := by
        rw [← hresident.length]
        exact (List.getElem?_eq_some_iff.mp ((hresident.get_iff q c).mp hget)).1
      show (m'.pageCache[c]?).getD .zero = _
      rw [h.cache, getElem?_append_left hlt]

end PagesIn

theorem pageIn_spec (h : Resident m pages) (hp : p < memoryPages) (hnot : p ∉ pages) :
    ∃ m', m.pageIn p = some m' ∧ Resident m' (pages ++ [p]) ∧ Keeps m m' ∧ ¬ m'.dirty p := by
  obtain ⟨m', hm', hin⟩ := exists_pagesIn h hp hnot
  refine ⟨m', hm', hin.resident h hnot hp, ⟨hin.page_eq h hnot, hin.dirty_iff h hnot, hin.userRegisters, hin.machineRegisters⟩, ?_⟩
  rw [dirty, hin.states, if_pos rfl]
  decide

theorem Keeps.refl (m : PagedMemory) : Keeps m m := ⟨fun _ => rfl, fun _ => .rfl, rfl, rfl⟩

theorem peekRam_spec (h : Resident m pages) (addr : ℕ) :
    ∃ m', m.peekRam addr = some ((m.page (pageIdx addr)).load addr, m') ∧ Resident m' pages ∧ Keeps m m' := by
  unfold peekRam
  cases hget : m.pageTable.get (pageIdx addr) with
  | some c =>
    obtain ⟨page, hpage, heq⟩ := h.page_of_get ((h.get_iff _ c).mp hget)
    refine ⟨m, ?_, h, .refl m⟩
    simp only [hpage, heq, bind_eq_bind, bind_some]
    rfl
  | none =>
    obtain ⟨hpage, himage⟩ := getPage_eq (pageIdx addr) m.image
    refine ⟨{ m with image := (getPage (pageIdx addr) m.image).2 }, ?_,
      ⟨h.table, h.nodup, h.lt, h.length, h.get_iff, h.states, h.listed, fun q c hc hclean => ?_⟩,
      ⟨fun q => ?_, fun _ => .rfl, rfl, rfl⟩⟩
    · rw [PagedMemory.page, hget, ← hpage]
    · show m.pageCache[c]? = some (imagePage (getPage (pageIdx addr) m.image).2 q)
      rw [himage]
      exact h.clean q c hc hclean
    · simp only [PagedMemory.page, himage]

theorem loadRam_spec (h : Resident m pages) {addr : ℕ} (haddr : pageIdx addr < memoryPages) :
    ∃ m' pages', m.loadRam addr = some ((m.page (pageIdx addr)).load addr, m') ∧ Resident m' pages' ∧ Keeps m m' := by
  unfold loadRam
  cases hget : m.pageTable.get (pageIdx addr) with
  | some c =>
    obtain ⟨page, hpage, heq⟩ := h.page_of_get ((h.get_iff _ c).mp hget)
    refine ⟨m, pages, ?_, h, .refl m⟩
    simp only [hpage, heq, bind_eq_bind, bind_some]
    rfl
  | none =>
    have hnot : pageIdx addr ∉ pages := by
      intro hmem
      obtain ⟨c, hc⟩ := getElem?_of_mem hmem
      rw [(h.get_iff _ c).mpr hc] at hget
      cases hget
    obtain ⟨m', hin, hresident, hkeeps, -⟩ := pageIn_spec h haddr hnot
    obtain ⟨c, hc⟩ := getElem?_of_mem (mem_append_right pages (mem_singleton_self (pageIdx addr)))
    obtain ⟨page, hpage, heq⟩ := hresident.page_of_get hc
    refine ⟨m', _, ?_, hresident, hkeeps⟩
    simp only [bind_eq_bind, hin, bind_some, (hresident.get_iff _ c).mpr hc, Option.pure_def]
    rw [hpage, ← hkeeps.page, heq]
    rfl

theorem Resident.mark {m' : PagedMemory} (h : Resident m pages) (hp : p ∈ pages) (hsame : SameContents m m')
    (hlisted : m'.pageStates.Listed)
    (hstates : ∀ q, m'.pageStates.get (nodeIdx q) = if q = p then .dirty else m.pageStates.get (nodeIdx q)) :
    Resident m' pages := by
  constructor
  · exact hsame.pageTable ▸ h.table
  · exact h.nodup
  · exact h.lt
  · exact hsame.pageCache ▸ h.length
  · exact hsame.pageTable ▸ h.get_iff
  · intro q
    rw [hstates, ← h.states q]
    by_cases hq' : q = p
    · subst hq'
      simp [(h.states q).mpr hp]
    · rw [if_neg hq']
  · exact hlisted
  · intro q c hc hclean
    rw [hsame.pageCache, hsame.image]
    rw [dirty, hstates] at hclean
    split_ifs at hclean with hq
    · exact absurd rfl hclean
    · exact h.clean q c hc hclean

theorem page_of_same {m' : PagedMemory} (h : SameContents m m') (q : ℕ) : m'.page q = m.page q := by
  rw [PagedMemory.page, h.pageTable, h.pageCache, h.image]
  rfl

variable (h : Resident m pages)

include h

theorem loadForWriting_spec (hp : p < memoryPages) :
    ∃ state m' pages', m.loadForWriting p = some (state, m') ∧ Resident m' pages' ∧ Keeps m m' ∧ p ∈ pages' ∧
      (state = .loaded ∨ state = .dirty ∧ m'.dirty p) := by
  unfold loadForWriting
  split_ifs with hunloaded
  · have hnot : p ∉ pages := fun hmem => (h.states p).mpr hmem hunloaded
    obtain ⟨m', hin, hresident, hkeeps, -⟩ := pageIn_spec h hp hnot
    refine ⟨.loaded, m', _, ?_, hresident, hkeeps, mem_append_right _ (mem_singleton_self p), .inl rfl⟩
    rw [hin]
    rfl
  · refine ⟨_, m, pages, rfl, h, .refl m, (h.states p).mp hunloaded, ?_⟩
    cases hget : m.pageStates.get (nodeIdx p) with
    | unloaded => exact absurd hget hunloaded
    | loaded => exact .inl rfl
    | dirty => exact .inr ⟨rfl, hget⟩

theorem markForWriting_spec (hp : p ∈ pages) {state : PageState}
    (hstate : state = .loaded ∨ state = .dirty ∧ m.dirty p) :
    ∃ m', m.markForWriting (nodeIdx p) state = some m' ∧ SameContents m m' ∧ Resident m' pages ∧
      ∀ q, m'.dirty q ↔ q = p ∨ m.dirty q := by
  rcases hstate with rfl | ⟨rfl, hdirty⟩
  · obtain ⟨m', hfix, hsame, hlisted, hget⟩ := fixupCosts_spec (show PageState.dirty ≠ .unloaded by decide)
      (nodeIdx p) (m.charge .pageOut pageCycles) h.listed
    obtain ⟨pageStates, hset, hlisted', hget'⟩ := hlisted.set (show PageState.dirty ≠ .unloaded by decide) (nodeIdx p)
    have hstates (q : ℕ) : pageStates.get (nodeIdx q) = if q = p then .dirty else m.pageStates.get (nodeIdx q) := by
      rw [hget', hget _ (nodeIdx_half (h.lt p hp) q)]
      by_cases hq : q = p
      · subst hq
        rw [if_pos rfl, if_pos rfl]
      · have hq' : nodeIdx q ≠ nodeIdx p := fun heq => hq (nodeIdx_inj.mp heq)
        rw [if_neg hq', if_neg hq', if_neg hq]
        rfl
    have hsame' : SameContents m { m' with pageStates := pageStates } :=
      ⟨hsame.image, hsame.pageTable, hsame.pageCache, hsame.userRegisters, hsame.machineRegisters⟩
    refine ⟨{ m' with pageStates := pageStates }, ?_, hsame', h.mark hp hsame' hlisted' hstates, fun q => ?_⟩
    · rw [markForWriting, if_pos rfl, hfix]
      simp only [bind_eq_bind, bind_some, hset]
      rfl
    · show pageStates.get (nodeIdx q) = .dirty ↔ _
      rw [hstates]
      by_cases hq : q = p
      · simp [hq]
      · simp [hq, dirty]
  · refine ⟨m, if_neg (by decide), .refl m, h, fun q => ⟨.inr, ?_⟩⟩
    rintro (rfl | hq)
    · exact hdirty
    · exact hq

theorem pageForWriting_spec (hp : p < memoryPages) :
    ∃ c m' pages', m.pageForWriting p = some (c, m') ∧ Resident m' pages' ∧ pages'[c]? = some p ∧
      (∀ q, m'.page q = m.page q) ∧ (∀ q, m'.dirty q ↔ q = p ∨ m.dirty q) ∧
      m'.userRegisters = m.userRegisters ∧ m'.machineRegisters = m.machineRegisters := by
  obtain ⟨state, m₁, pages₁, hload, hresident1, hkeeps, hmem, hstate⟩ := loadForWriting_spec h hp
  obtain ⟨m₂, hmark, hsame, hresident, hdirty⟩ := markForWriting_spec hresident1 hmem hstate
  obtain ⟨c, hc⟩ := getElem?_of_mem hmem
  have hlt : c < m₂.pageCache.length := hresident.length ▸ (List.getElem?_eq_some_iff.mp hc).1
  refine ⟨c, m₂, pages₁, ?_, hresident, hc, fun q => ?_, fun q => ?_, ?_, ?_⟩
  · rw [pageForWriting]
    simp only [bind_eq_bind, hload, hmark, (hresident.get_iff p c).mpr hc, bind_some, if_pos hlt]
  · rw [page_of_same hsame, hkeeps.page]
  · rw [hdirty, hkeeps.dirty q]
  · rw [hsame.userRegisters, hkeeps.userRegisters]
  · rw [hsame.machineRegisters, hkeeps.machineRegisters]

theorem Resident.modify {c : ℕ} (hc : pages[c]? = some p) (hdirty : m.dirty p) (f : Page → Page) :
    Resident { m with pageCache := m.pageCache.modify c f } pages ∧
      ∀ q, ({ m with pageCache := m.pageCache.modify c f } : PagedMemory).page q =
        if q = p then f (m.page p) else m.page q := by
  refine ⟨⟨h.table, h.nodup, h.lt, ?_, h.get_iff, h.states, h.listed, fun q d hd hclean => ?_⟩, fun q => ?_⟩
  · simpa using h.length
  · have hne : c ≠ d := by
      rintro rfl
      rw [hc] at hd
      exact hclean (Option.some.inj hd ▸ hdirty)
    show (m.pageCache.modify c f)[d]? = _
    rw [getElem?_modify_ne _ _ hne]
    exact h.clean q d hd hclean
  · obtain ⟨page, hpage, heq⟩ := h.page_of_get hc
    by_cases hq : q = p
    · subst hq
      rw [if_pos rfl, heq, PagedMemory.page]
      dsimp only
      rw [(h.get_iff q c).mpr hc]
      simp [hpage]
    · rw [if_neg hq, PagedMemory.page, PagedMemory.page]
      dsimp only
      cases hget : m.pageTable.get q with
      | none => rfl
      | some d =>
        have hne : c ≠ d := by
          rintro rfl
          have hq' := (h.get_iff q c).mp hget
          rw [hc] at hq'
          exact hq (Option.some.inj hq').symm
        simp [hne]

end PagedMemory

end VerifiableCompute.Rv32im
