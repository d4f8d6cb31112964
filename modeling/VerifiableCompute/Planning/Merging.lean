import VerifiableCompute.Planning.Trees

/-! The two loops of the planner. Merging turns the last two peaks into one while
their heights agree, which keeps the heights strictly decreasing; collapsing does
the same without looking at heights. Neither loop can panic. -/

namespace VerifiableCompute.Planning

open Lib List

/-- What the two families have in common. -/
structure Family.Lawful (fam : Family) : Prop where
  leafCommand : fam.leafCommand.isLeaf
  nodeCommand : ¬ fam.nodeCommand.isLeaf
  leaf : ∀ n, (fam.newLeaf n).taskNumber = n ∧ (fam.newLeaf n).taskHeight = 0 ∧
    (fam.newLeaf n).command = fam.leafCommand ∧ (fam.newLeaf n).deps = []
  node : ∀ n h a b, (fam.newNode n h a b).taskNumber = n ∧ (fam.newNode n h a b).taskHeight = h ∧
    (fam.newNode n h a b).command = fam.nodeCommand ∧ (fam.newNode n h a b).deps = [a, b] ∧
    fam.children (fam.newNode n h a b) = [a, b]

theorem Family.Lawful.commands {fam : Family} (h : fam.Lawful) : fam.leafCommand ≠ fam.nodeCommand :=
  fun heq => h.nodeCommand (heq ▸ h.leafCommand)

theorem lawful_joins : joins.Lawful :=
  ⟨.inl rfl, by simp [Command.isLeaf, joins], fun _ => ⟨rfl, rfl, rfl, rfl⟩, fun _ _ _ _ => ⟨rfl, rfl, rfl, rfl, rfl⟩⟩

theorem lawful_unions : unions.Lawful :=
  ⟨.inr rfl, by simp [Command.isLeaf, unions], fun _ => ⟨rfl, rfl, rfl, rfl⟩, fun _ _ _ _ => ⟨rfl, rfl, rfl, rfl, rfl⟩⟩

variable {fam : Family} {tasks : List Task} {others : List ℕ}

/-- The peaks `ps` of one family, read as `l`, next to the peaks of the other. -/
structure Merging (fam : Family) (tasks : List Task) (ps others l : List ℕ) : Prop where
  placed : Placed tasks (ps ++ others)
  forest : Forest fam tasks ps l

variable {ps l : List ℕ} {a b : ℕ}

theorem Merging.lt_length (h : Merging fam tasks ps others l) {p : ℕ} (hp : p ∈ ps) :
    p < tasks.length := h.placed.lt_length (mem_append_left _ hp)

theorem getTask_ok {n : ℕ} (h : n < tasks.length) : ∃ t, getTask tasks n = .ok t ∧ t.taskHeight = heightAt tasks n := by
  refine ⟨tasks[n], ?_, ?_⟩
  · rw [getTask, getElem?_eq_getElem h]
  · rw [heightAt, getElem?_eq_getElem h, Option.map_some, Option.getD_some]

/-- The task that joins two peaks. -/
def pairTask (fam : Family) (tasks : List Task) (a b : ℕ) : Task :=
  fam.newNode tasks.length (1 + max (heightAt tasks a) (heightAt tasks b)) a b

theorem enqueuePair_ok (ha : a < tasks.length) (hb : b < tasks.length) :
    enqueuePair fam a b tasks = .ok (tasks.length, tasks ++ [pairTask fam tasks a b]) := by
  obtain ⟨l, hl, hlh⟩ := getTask_ok ha
  obtain ⟨r, hr, hrh⟩ := getTask_ok hb
  rw [enqueuePair, hl, hr, pairTask, ← hlh, ← hrh]
  rfl

/-- Joining the last two peaks keeps the reading. -/
theorem Merging.pair (hfam : fam.Lawful) (h : Merging fam tasks (ps ++ [a, b]) others l) :
    Merging fam (tasks ++ [pairTask fam tasks a b]) (ps ++ [tasks.length]) others l := by
  obtain ⟨hnumber, hheight, hcommand, hdeps, hchildren⟩ := hfam.node tasks.length
    (1 + max (heightAt tasks a) (heightAt tasks b)) a b
  constructor
  · have hperm : (ps ++ [a, b] ++ others).Perm ([a, b] ++ (ps ++ others)) := by
      rw [← append_assoc]
      exact Perm.append_right _ perm_append_comm
    have hadded := h.placed.add hdeps hperm hnumber (by simp [hcommand, hfam.nodeCommand])
      (by rw [hheight]; simp)
    refine hadded.perm ?_
    rw [append_assoc]
    exact perm_middle.symm
  · obtain ⟨l₁, l₂, rfl, h1, h2⟩ := h.forest.split
    cases h2 with
    | cons ha rest =>
      have hb := rest.reads_of_singleton
      refine (h1.append_tasks _).append (.singleton ?_)
      exact .node (by simp [pairTask]) hcommand hchildren (ha.append _) (hb.append _)

theorem Merging.heightAt_pair (hfam : fam.Lawful) (a b : ℕ) :
    heightAt (tasks ++ [pairTask fam tasks a b]) tasks.length = 1 + max (heightAt tasks a) (heightAt tasks b) := by
  rw [heightAt_length]
  exact (hfam.node _ _ _ _).2.1

/-- Heights grow from the back of the stack to its front. -/
def Rising (tasks : List Task) (ps : List ℕ) : Prop := ps.Pairwise fun a b => heightAt tasks a < heightAt tasks b

theorem Rising.append_tasks (h : Rising tasks ps) (hlt : ∀ p ∈ ps, p < tasks.length)
    (more : List Task) : Rising (tasks ++ more) ps := by
  refine Pairwise.imp_of_mem (fun {a b} ha hb hab => ?_) h
  rw [heightAt_append more (hlt a ha), heightAt_append more (hlt b hb)]
  exact hab

/-- The merging loop, by induction on the peaks from the back. The new peak is never
higher than the smallest peak, so the last branch is not reached. -/
theorem mergePeaks_ok (hfam : fam.Lawful) : ∀ (peaks : List ℕ) (newPeak : ℕ) (tasks : List Task),
    Merging fam tasks (peaks.reverse ++ [newPeak]) others l → Rising tasks peaks →
    (∀ p ∈ peaks.head?, heightAt tasks newPeak ≤ heightAt tasks p) →
    ∃ rest top more, mergePeaks (enqueuePair fam) peaks newPeak tasks = .ok (rest, top, tasks ++ more) ∧
      (∀ t ∈ more, t.command = fam.nodeCommand) ∧
      Merging fam (tasks ++ more) (rest.reverse ++ [top]) others l ∧ Rising (tasks ++ more) (top :: rest)
  | [], newPeak, tasks, hm, _, _ => by
    refine ⟨[], newPeak, [], by simp [mergePeaks], by simp, by simpa using hm, ?_⟩
    exact pairwise_singleton _ _
  | smallest :: peaks, newPeak, tasks, hm, hrising, hle => by
    have hnew : newPeak < tasks.length := hm.lt_length (by simp)
    have hsmall : smallest < tasks.length := hm.lt_length (by simp)
    obtain ⟨new, hgetNew, hnewHeight⟩ := getTask_ok hnew
    obtain ⟨small, hgetSmall, hsmallHeight⟩ := getTask_ok hsmall
    have hle' : heightAt tasks newPeak ≤ heightAt tasks smallest := hle smallest rfl
    obtain ⟨hbelow, hpeaks⟩ := pairwise_cons.mp hrising
    rcases hle'.lt_or_eq with hlt | heq
    · have hstop : mergePeaks (enqueuePair fam) (smallest :: peaks) newPeak tasks =
          .ok (smallest :: peaks, newPeak, tasks) := by
        rw [mergePeaks, hgetNew, hgetSmall]
        simp only [bind, Except.bind]
        rw [hnewHeight, hsmallHeight, compare_lt_iff_lt.mpr hlt]
        rfl
      rw [hstop]
      refine ⟨smallest :: peaks, newPeak, [], by simp, by simp, by simpa using hm, ?_⟩
      rw [append_nil]
      refine pairwise_cons.mpr ⟨fun p hp => ?_, hrising⟩
      rcases mem_cons.mp hp with rfl | hp
      · exact hlt
      · exact hlt.trans (hbelow p hp)
    · have hmerge : mergePeaks (enqueuePair fam) (smallest :: peaks) newPeak tasks =
          mergePeaks (enqueuePair fam) peaks tasks.length (tasks ++ [pairTask fam tasks smallest newPeak]) := by
        rw [mergePeaks, hgetNew, hgetSmall]
        simp only [bind, Except.bind]
        rw [hnewHeight, hsmallHeight, compare_eq_iff_eq.mpr heq, enqueuePair_ok hsmall hnew]
      rw [hmerge]
      have hm' : Merging fam tasks (peaks.reverse ++ [smallest, newPeak]) others l := by
        rw [reverse_cons, append_assoc] at hm
        exact hm
      have hpeaksLt : ∀ p ∈ peaks, p < tasks.length := fun p hp => hm'.lt_length (by simp [hp])
      obtain ⟨rest, top, more, hok, hnode, hmerged, htop⟩ := mergePeaks_ok hfam peaks tasks.length
        (tasks ++ [pairTask fam tasks smallest newPeak]) (hm'.pair hfam) (Rising.append_tasks hpeaks hpeaksLt _)
        (fun p hp => by
          have hmem : p ∈ peaks := mem_of_mem_head? hp
          have := hbelow p hmem
          rw [Merging.heightAt_pair hfam, heightAt_append _ (hpeaksLt p hmem)]
          omega)
      rw [append_assoc] at hok hmerged htop
      refine ⟨rest, top, pairTask fam tasks smallest newPeak :: more, hok, fun t ht => ?_, hmerged, htop⟩
      rcases mem_cons.mp ht with rfl | ht
      · exact (hfam.node _ _ _ _).2.2.1
      · exact hnode t ht

/-- The collapsing loop leaves one peak with the same reading. -/
theorem collapse_ok (hfam : fam.Lawful) : ∀ (rest : List ℕ) (top : ℕ) (tasks : List Task),
    Merging fam tasks (rest.reverse ++ [top]) others l →
    ∃ root more, collapse (enqueuePair fam) top rest tasks = .ok (root, tasks ++ more) ∧
      (∀ t ∈ more, t.command = fam.nodeCommand) ∧ Merging fam (tasks ++ more) [root] others l
  | [], top, tasks, hm => ⟨top, [], by simp [collapse], by simp, by simpa using hm⟩
  | next :: rest, top, tasks, hm => by
    have htop : top < tasks.length := hm.lt_length (by simp)
    have hnext : next < tasks.length := hm.lt_length (by simp)
    have hm' : Merging fam tasks (rest.reverse ++ [next, top]) others l := by
      rw [reverse_cons, append_assoc] at hm
      exact hm
    obtain ⟨root, more, hok, hnode, hmerged⟩ := collapse_ok hfam rest tasks.length
      (tasks ++ [pairTask fam tasks next top]) (hm'.pair hfam)
    rw [append_assoc] at hok hmerged
    refine ⟨root, pairTask fam tasks next top :: more, ?_, fun t ht => ?_, hmerged⟩
    · rw [collapse, enqueuePair_ok hnext htop]
      exact hok
    · rcases mem_cons.mp ht with rfl | ht
      · exact (hfam.node _ _ _ _).2.2.1
      · exact hnode t ht

/-- The peaks of a family, highest first, read the leaves in order. -/
structure Tower (fam : Family) (tasks : List Task) (ps : List ℕ) : Prop where
  forest : Forest fam tasks ps (leaves fam tasks)
  rising : Rising tasks ps.reverse

theorem Tower.append_tasks (h : Tower fam tasks ps) (hlt : ∀ p ∈ ps, p < tasks.length)
    {more : List Task} (hmore : ∀ t ∈ more, t.command ≠ fam.leafCommand) : Tower fam (tasks ++ more) ps := by
  constructor
  · rw [leaves_append_of_ne fam tasks more hmore]
    exact h.forest.append_tasks more
  · exact h.rising.append_tasks (fun p hp => hlt p (mem_reverse.mp hp)) more

theorem enqueueLeaf_ok (hfam : fam.Lawful) (hplaced : Placed tasks (ps ++ others)) (htower : Tower fam tasks ps) :
    ∃ ps' more, enqueueLeaf fam (enqueuePair fam) ps tasks =
        .ok (ps', tasks ++ fam.newLeaf tasks.length :: more) ∧
      (∀ t ∈ more, t.command = fam.nodeCommand) ∧
      Placed (tasks ++ fam.newLeaf tasks.length :: more) (ps' ++ others) ∧
      Tower fam (tasks ++ fam.newLeaf tasks.length :: more) ps' ∧ ps' ≠ [] := by
  obtain ⟨hnumber, hheight, hcommand, hdeps⟩ := hfam.leaf tasks.length
  have hlt : ∀ p ∈ ps, p < tasks.length := fun p hp => hplaced.lt_length (mem_append_left _ hp)
  have hadded : Placed (tasks ++ [fam.newLeaf tasks.length]) (ps ++ [tasks.length] ++ others) := by
    refine (hplaced.add hdeps (.refl _) hnumber (by simp [hcommand, hfam.leafCommand])
      (by rw [hheight]; rfl)).perm ?_
    rw [append_assoc]
    exact perm_middle.symm
  have hforest : Forest fam (tasks ++ [fam.newLeaf tasks.length]) (ps ++ [tasks.length])
      (leaves fam (tasks ++ [fam.newLeaf tasks.length])) := by
    rw [leaves_append, if_pos hcommand]
    exact (htower.forest.append_tasks _).append (.singleton (.leaf (by simp) hcommand))
  have hrising := htower.rising.append_tasks (fun p hp => hlt p (mem_reverse.mp hp)) [fam.newLeaf tasks.length]
  obtain ⟨rest, top, more, hok, hnode, hmerged, htop⟩ := mergePeaks_ok hfam ps.reverse tasks.length _
    ⟨by rwa [reverse_reverse], by rwa [reverse_reverse]⟩ hrising
    (fun p _ => by rw [heightAt_length, hheight]; exact Nat.zero_le _)
  rw [append_assoc, singleton_append] at hok hmerged htop
  refine ⟨rest.reverse ++ [top], more, ?_, hnode, hmerged.placed, ⟨?_, ?_⟩, by simp⟩
  · rw [enqueueLeaf, hok]
    rfl
  · have hleaves : leaves fam (tasks ++ fam.newLeaf tasks.length :: more) =
        leaves fam (tasks ++ [fam.newLeaf tasks.length]) := by
      rw [← singleton_append, ← append_assoc]
      exact leaves_append_of_ne fam _ more fun t ht h => hfam.commands (h.symm.trans (hnode t ht))
    rw [hleaves]
    exact hmerged.forest
  · rw [reverse_append, reverse_reverse]
    exact htop

end VerifiableCompute.Planning
