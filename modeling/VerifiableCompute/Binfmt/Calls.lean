import VerifiableCompute.Binfmt.Contents

/-! Runs of calls on a memory image. Every reply is the one that the flat memory and the
tree over its pages give, and the invariants of the image hold after every call, unless
the address sum of a region is checked and steps over the end of the address space. -/

namespace VerifiableCompute.Binfmt

open Lib

inductive Op
  | setPage (pageIdx : ℕ) (page : Page)
  | setWord (addr : ℕ) (word : BitVec 32)
  | setRegion (start : ℕ) (data : List Byte)
  | getPage (pageIdx : ℕ)
  | getDigest (digestIdx : ℕ)
  | getOrUpdateDigest (digestIdx : ℕ)
  | updateDigests
  | imageId
  | userId
  | kernelId

inductive Reply
  | done
  | page (page : Page)
  | digest (digest : Digest)

variable (H : TreeHash)

namespace MemoryImage

/-- The reply and the image it leaves. Reads leave the image as it was; what a write leaves
when it fails is not followed. -/
def settle (m : MemoryImage) : Except Fault (Reply × MemoryImage) → Except Fault Reply × MemoryImage
  | .ok (reply, m') => (.ok reply, m')
  | .error fault => (.error fault, m)

def call (overflowChecks : Bool) (op : Op) (m : MemoryImage) : Except Fault Reply × MemoryImage :=
  m.settle <| match op with
    | .setPage pageIdx page => .ok (.done, m.setPage pageIdx page)
    | .setWord addr word => do return (.done, ← m.setWord H addr word)
    | .setRegion start data => do return (.done, ← m.setRegion H overflowChecks start data)
    | .getPage pageIdx => do return (.page (← m.getPage H pageIdx), m)
    | .getDigest digestIdx => do return (.digest (← m.getDigest H digestIdx), m)
    | .getOrUpdateDigest digestIdx => do
      let (digest, m) ← m.getOrUpdateDigest H digestIdx
      return (.digest digest, m)
    | .updateDigests => do return (.done, ← m.updateDigests H)
    | .imageId => do
      let (digest, m) ← m.imageId H
      return (.digest digest, m)
    | .userId => do
      let (digest, m) ← m.userId H
      return (.digest digest, m)
    | .kernelId => do
      let (digest, m) ← m.kernelId H
      return (.digest digest, m)

end MemoryImage

namespace Op

/-- The pages, words, bytes and nodes named are those of the memory and its tree. -/
def InRange : Op → Prop
  | .setPage pageIdx _ => pageIdx < memoryPages
  | .setWord addr _ => addr < memoryPages * pageWords
  | .setRegion start data => start < 2 ^ 32 ∧ start + data.length ≤ 2 ^ 32
  | .getPage pageIdx => pageIdx < memoryPages
  | .getDigest digestIdx => Node digestIdx
  | .getOrUpdateDigest digestIdx => Node digestIdx
  | _ => True

/-- The region ends with the last byte of the address space. -/
def EndsAtTop : Op → Prop
  | .setRegion start data => start + data.length = 2 ^ 32
  | _ => False

def effect : Op → (ℕ → Byte) → ℕ → Byte
  | .setPage pageIdx page, mem => overwrite (pageIdx * pageBytes) page.toList mem
  | .setWord addr word, mem => overwrite (addr * wordSize) (leBytes wordSize word.toNat) mem
  | .setRegion start data, mem => overwrite start data mem
  | _, mem => mem

/-- The reply by the flat memory and the tree over its pages. Which digests are dirty is
the image's own. -/
def expected (mem : ℕ → Byte) (dirty : Finset ℕ) : Op → Except Fault Reply
  | .getPage pageIdx => .ok (.page (pageOf mem pageIdx))
  | .getDigest digestIdx =>
    if digestIdx ∈ dirty then .error (.digestMarkedDirty digestIdx)
    else .ok (.digest (reference H (leaves H mem) digestIdx))
  | .getOrUpdateDigest digestIdx => .ok (.digest (reference H (leaves H mem) digestIdx))
  | .imageId => .ok (.digest (reference H (leaves H mem) 1))
  | .userId => .ok (.digest (reference H (leaves H mem) 2))
  | .kernelId => .ok (.digest (reference H (leaves H mem) 3))
  | _ => .ok .done

end Op

namespace MemoryImage

/-- No digest and no page of the subtree is populated. -/
def Unpopulated (m : MemoryImage) (n : ℕ) : Prop :=
  (∀ x, Below n x → ¬ m.Populated x) ∧ ∀ p, Below n (memoryPages + p) → ¬ m.Loaded p

/-- The invariants stated above the struct. -/
structure Invariants (m : MemoryImage) (mem : ℕ → Byte) : Prop where
  ancestors_dirty : ∀ n ∈ m.dirty, ∀ a ≠ 0, Below a n → a ∈ m.dirty
  root_populated : m.Populated 1
  zero_pages : ∀ n, n / 2 ∈ m.dirty → m.Unpopulated n →
    ∀ p, p < memoryPages → Below n (memoryPages + p) → pageOf mem p = .zero

/-- Every call of the run gets the expected reply and leaves the invariants. -/
def RunsCorrectly (overflowChecks : Bool) : List Op → MemoryImage → (ℕ → Byte) → Prop
  | [], m, mem => m.Invariants mem
  | op :: ops, m, mem =>
    m.Invariants mem ∧ (m.call H overflowChecks op).1 = op.expected H mem m.dirty ∧
      RunsCorrectly overflowChecks ops (m.call H overflowChecks op).2 (op.effect mem)

variable {H} {m : MemoryImage} {mem : ℕ → Byte}

theorem Holds.invariants (h : m.Holds H mem) : m.Invariants mem where
  ancestors_dirty _ hn _ ha hb := h.wellFormed.dirty_above ha hb hn
  root_populated := h.wellFormed.root
  zero_pages n _ hun p hp hb := by
    have hnone : m.pages.get? p = none := by
      cases hget : m.pages.get? p with
      | none => rfl
      | some page => exact absurd ⟨page, hget⟩ (hun.2 p hb)
    rw [← h.contents hp, MemoryImage.contents, hnone]
    rfl

theorem pageOf_zero (p : ℕ) : pageOf (fun _ => 0) p = .zero := by
  apply Vector.ext
  intro i hi
  rw [pageOf, Vector.getElem_ofFn, Page.zero, Vector.getElem_replicate]

theorem holds_default : (default H).Holds H fun _ => 0 where
  wellFormed := default_wellFormed
  tracks := default_tracks fun _ _ => congrArg H.page (pageOf_zero _)
  complete := default_complete
  contents _ := (pageOf_zero _).symm

theorem Holds.getOrUpdateDigest (h : m.Holds H mem) {n : ℕ} (hn : Node n) :
    ∃ m', m.getOrUpdateDigest H n = .ok (reference H (leaves H mem) n, m') ∧ m'.Holds H mem := by
  obtain ⟨m', heq, hupdates⟩ := getOrUpdateDigest_spec h.wellFormed h.tracks hn (h.complete.readable h.wellFormed hn)
  exact ⟨m', heq, h.refresh hupdates.refreshes⟩

theorem Holds.call (h : m.Holds H mem) (overflowChecks : Bool) (op : Op) (hrange : op.InRange)
    (htop : ¬ (overflowChecks ∧ op.EndsAtTop)) :
    (m.call H overflowChecks op).1 = op.expected H mem m.dirty ∧ (m.call H overflowChecks op).2.Holds H (op.effect mem) := by
  cases op with
  | setPage pageIdx page => exact ⟨rfl, h.setPage hrange page⟩
  | setWord addr word =>
    obtain ⟨m', heq, hholds⟩ := h.setWord hrange word
    simp only [MemoryImage.call, heq]
    exact ⟨rfl, hholds⟩
  | setRegion start data =>
    have hset := h.setRegion overflowChecks hrange.1 hrange.2
    have htop : ¬ (overflowChecks ∧ start + data.length = 2 ^ 32) := htop
    rw [if_neg htop] at hset
    obtain ⟨m', heq, hholds⟩ := hset
    simp only [MemoryImage.call, heq]
    exact ⟨rfl, hholds⟩
  | getPage pageIdx =>
    simp only [MemoryImage.call, getPage_spec h.wellFormed (h.complete _ hrange), h.contents hrange]
    exact ⟨rfl, h⟩
  | getDigest digestIdx =>
    by_cases hdirty : digestIdx ∈ m.dirty
    · simp only [MemoryImage.call, getDigest, if_pos hdirty, Op.expected]
      exact ⟨rfl, h⟩
    · have hread := h.complete.readable h.wellFormed hrange hdirty
      simp only [MemoryImage.call, getDigest_spec h.wellFormed h.tracks hrange hdirty hread, Op.expected, if_neg hdirty]
      exact ⟨rfl, h⟩
  | getOrUpdateDigest digestIdx =>
    obtain ⟨m', heq, hholds⟩ := h.getOrUpdateDigest hrange
    simp only [MemoryImage.call, heq]
    exact ⟨rfl, hholds⟩
  | updateDigests =>
    obtain ⟨m', heq, -, hrefresh⟩ := updateDigests_spec h.wellFormed h.tracks
    simp only [MemoryImage.call, heq]
    exact ⟨rfl, h.refresh hrefresh⟩
  | imageId =>
    obtain ⟨m', heq, -, hrefresh⟩ := imageId_spec h.wellFormed h.tracks
    simp only [MemoryImage.call, heq]
    exact ⟨rfl, h.refresh hrefresh⟩
  | userId =>
    obtain ⟨m', heq, hholds⟩ := h.getOrUpdateDigest (n := 2) ⟨by decide, by decide⟩
    simp only [MemoryImage.call, MemoryImage.userId, heq]
    exact ⟨rfl, hholds⟩
  | kernelId =>
    obtain ⟨m', heq, hholds⟩ := h.getOrUpdateDigest (n := 3) ⟨by decide, by decide⟩
    simp only [MemoryImage.call, MemoryImage.kernelId, heq]
    exact ⟨rfl, hholds⟩

theorem Holds.runsCorrectly (overflowChecks : Bool) (ops : List Op) (hrange : ∀ op ∈ ops, op.InRange)
    (htop : ∀ op ∈ ops, ¬ (overflowChecks ∧ op.EndsAtTop)) (h : m.Holds H mem) :
    RunsCorrectly H overflowChecks ops m mem := by
  induction ops generalizing m mem with
  | nil => exact h.invariants
  | cons op ops ih =>
    obtain ⟨hreply, hholds⟩ := h.call overflowChecks op (hrange op (by simp)) (htop op (by simp))
    exact ⟨h.invariants, hreply, ih (fun o ho => hrange o (by simp [ho])) (fun o ho => htop o (by simp [ho])) hholds⟩

theorem Holds.not_endsAtTop {overflowChecks : Bool} {ops : List Op} (hrange : ∀ op ∈ ops, op.InRange)
    (h : m.Holds H mem) (hrun : RunsCorrectly H overflowChecks ops m mem) :
    ∀ op ∈ ops, ¬ (overflowChecks ∧ op.EndsAtTop) := by
  induction ops generalizing m mem with
  | nil => simp
  | cons op ops ih =>
    obtain ⟨-, hreply, hrest⟩ := hrun
    have hop := hrange op (by simp)
    have htop : ¬ (overflowChecks ∧ op.EndsAtTop) := by
      intro htop
      cases op with
      | setRegion start data =>
        have hset := h.setRegion overflowChecks hop.1 hop.2
        have htop : overflowChecks ∧ start + data.length = 2 ^ 32 := htop
        rw [if_pos htop] at hset
        simp only [MemoryImage.call, hset] at hreply
        cases hreply
      | _ => exact htop.2
    have hholds := (h.call overflowChecks op hop htop).2
    intro o ho
    rcases List.mem_cons.mp ho with rfl | ho
    · exact htop
    · exact ih (fun o ho => hrange o (by simp [ho])) hholds hrest o ho

/-- Runs of calls in range that start from the default image are correct, except that a
region written up to the last byte of the address space panics where sums are checked. -/
theorem image_correct (H : TreeHash) (overflowChecks : Bool) (ops : List Op) (hrange : ∀ op ∈ ops, op.InRange) :
    RunsCorrectly H overflowChecks ops (default H) (fun _ => 0) ↔ ∀ op ∈ ops, ¬ (overflowChecks ∧ op.EndsAtTop) :=
  ⟨holds_default.not_endsAtTop hrange, fun htop => holds_default.runsCorrectly overflowChecks ops hrange htop⟩

theorem image_correct_sample : RunsCorrectly .sample true
      [.setWord 255 7, .getDigest 1, .setRegion 1022 [1, 2, 3, 4], .getPage 1, .userId, .getDigest 2, .imageId]
      (default .sample) (fun _ => 0) := by
  apply (image_correct .sample true _ ?_).mpr
  · simp [Op.EndsAtTop]
  · simp [Op.InRange, Node, memoryPages, pageWords, pageBytes, wordSize]

theorem image_top_of_memory : Op.InRange (.setRegion 0xfffffffc [1, 2, 3, 4]) ∧
      ¬ RunsCorrectly .sample true [.setRegion 0xfffffffc [1, 2, 3, 4]] (default .sample) (fun _ => 0) := by
  have hrange : ∀ op ∈ [Op.setRegion 0xfffffffc [1, 2, 3, 4]], op.InRange := by
    intro op hop
    rw [List.mem_singleton.mp hop]
    exact ⟨by decide, by decide⟩
  refine ⟨hrange _ (by simp), fun hrun => ?_⟩
  exact holds_default.not_endsAtTop hrange hrun _ (List.mem_singleton.mpr rfl) ⟨rfl, rfl⟩

end MemoryImage

end VerifiableCompute.Binfmt
