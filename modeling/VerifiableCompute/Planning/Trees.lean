import VerifiableCompute.Planning.Plan

/-! The trees of a plan. Tasks only refer to earlier tasks, each by at most one
other; the peaks are the tasks that nothing refers to yet. Merging keeps the
leaves below the segment peaks in order, whatever the two families do to each
other's positions in the task list. -/

namespace VerifiableCompute.Planning

open Lib List

/-- Everything a task waits on. -/
def Task.deps (t : Task) : List ℕ := t.dependsOn ++ t.keccakDependsOn

def heightAt (tasks : List Task) (i : ℕ) : ℕ := (tasks[i]?.map Task.taskHeight).getD 0

def uses (tasks : List Task) (i : ℕ) : ℕ := (tasks.flatMap Task.deps).count i

def Command.isLeaf (c : Command) : Prop := c = .segment ∨ c = .keccak

/-- A task at its own number, above the tasks it waits on; leaves wait on none. -/
structure Task.WellPlaced (tasks : List Task) (i : ℕ) (t : Task) : Prop where
  number : t.taskNumber = i
  earlier : ∀ d ∈ t.deps, d < i
  leaf : t.deps = [] ↔ t.command.isLeaf
  height : t.taskHeight = if t.deps = [] then 0 else 1 + (t.deps.map (heightAt tasks)).foldr max 0

/-- Each task is in its place and is used once, the peaks once less. -/
structure Placed (tasks : List Task) (peaks : List ℕ) : Prop where
  placed : ∀ (i : ℕ) (t : Task), tasks[i]? = some t → t.WellPlaced tasks i
  used : ∀ i, uses tasks i + peaks.count i = if i < tasks.length then 1 else 0

theorem getElem?_append_of_some {tasks : List Task} {i : ℕ} {t : Task} (more : List Task) (h : tasks[i]? = some t) :
    (tasks ++ more)[i]? = some t := by
  rw [List.getElem?_append_left (List.getElem?_eq_some_iff.mp h).1, h]

theorem heightAt_append {tasks : List Task} (more : List Task) {i : ℕ} (h : i < tasks.length) :
    heightAt (tasks ++ more) i = heightAt tasks i := by
  rw [heightAt, getElem?_append_left h, heightAt]

theorem heightAt_length (tasks : List Task) (t : Task) : heightAt (tasks ++ [t]) tasks.length = t.taskHeight := by
  simp [heightAt]

theorem Task.WellPlaced.append {tasks : List Task} {i : ℕ} {t : Task} (h : t.WellPlaced tasks i)
    (hi : i < tasks.length) (more : List Task) : t.WellPlaced (tasks ++ more) i := by
  refine ⟨h.number, h.earlier, h.leaf, ?_⟩
  have hsame : t.deps.map (heightAt (tasks ++ more)) = t.deps.map (heightAt tasks) :=
    map_congr_left fun d hd => heightAt_append more ((h.earlier d hd).trans hi)
  rw [hsame]
  exact h.height

theorem uses_append (tasks : List Task) (t : Task) (i : ℕ) : uses (tasks ++ [t]) i = uses tasks i + t.deps.count i := by
  simp [uses, flatMap_append, count_append]

namespace Placed

variable {tasks : List Task} {peaks : List ℕ}

theorem empty : Placed [] [] := ⟨by simp, by simp [uses]⟩

theorem perm (h : Placed tasks peaks) {peaks' : List ℕ} (hperm : peaks.Perm peaks') : Placed tasks peaks' :=
  ⟨h.placed, fun i => by rw [← hperm.count_eq i]; exact h.used i⟩

theorem lt_length (h : Placed tasks peaks) {p : ℕ} (hp : p ∈ peaks) : p < tasks.length := by
  have hused := h.used p
  have hcount := count_pos_iff.mpr hp
  split_ifs at hused with hlt
  · exact hlt
  · omega

theorem add (h : Placed tasks peaks) {t : Task} {deps rest : List ℕ} (hdeps : t.deps = deps)
    (hperm : peaks.Perm (deps ++ rest)) (hnumber : t.taskNumber = tasks.length) (hleaf : deps = [] ↔ t.command.isLeaf)
    (hheight : t.taskHeight = if deps = [] then 0 else 1 + (deps.map (heightAt tasks)).foldr max 0) :
    Placed (tasks ++ [t]) (tasks.length :: rest) := by
  have hlt : ∀ d ∈ deps, d < tasks.length := fun d hd =>
    h.lt_length (hperm.mem_iff.mpr (List.mem_append_left _ hd))
  refine ⟨fun i u hu => ?_, fun i => ?_⟩
  · by_cases hi : i < tasks.length
    · rw [List.getElem?_append_left hi] at hu
      exact (h.placed i u hu).append hi [t]
    · obtain ⟨hi', hu'⟩ := List.getElem?_eq_some_iff.mp hu
      have heq : i = tasks.length := by
        rw [List.length_append, List.length_singleton] at hi'
        omega
      subst heq
      rw [List.getElem_append_right le_rfl] at hu'
      simp only [Nat.sub_self, List.getElem_cons_zero] at hu'
      subst hu'
      refine ⟨hnumber, by rwa [hdeps], by rwa [hdeps], ?_⟩
      rw [hdeps, hheight]
      refine if_congr Iff.rfl rfl ?_
      rw [List.map_congr_left fun d hd => heightAt_append [t] (hlt d hd)]
  · have hused := h.used i
    rw [hperm.count_eq i, List.count_append] at hused
    rw [uses_append, hdeps, List.count_cons, List.length_append, List.length_singleton]
    by_cases hi : i = tasks.length
    · subst hi
      simp only [lt_irrefl, if_false] at hused
      simp only [beq_self_eq_true, if_true]
      rw [if_pos (Nat.lt_succ_self _)]
      omega
    · have hne : (tasks.length == i) = false := by simpa using fun h => hi h.symm
      simp only [hne, Bool.false_eq_true, if_false]
      have hiff : i < tasks.length + 1 ↔ i < tasks.length := by omega
      simp only [hiff]
      omega

end Placed

/-- Reading the tree below a task from left to right. -/
inductive Reads (fam : Family) (tasks : List Task) : ℕ → List ℕ → Prop
  | leaf {n t} (found : tasks[n]? = some t) (command : t.command = fam.leafCommand) : Reads fam tasks n [n]
  | node {n t a b l r} (found : tasks[n]? = some t) (command : t.command = fam.nodeCommand)
      (children : fam.children t = [a, b]) (left : Reads fam tasks a l) (right : Reads fam tasks b r) :
      Reads fam tasks n (l ++ r)

/-- The trees below a list of peaks, one after the other. -/
inductive Forest (fam : Family) (tasks : List Task) : List ℕ → List ℕ → Prop
  | nil : Forest fam tasks [] []
  | cons {p ps l ls} (tree : Reads fam tasks p l) (rest : Forest fam tasks ps ls) : Forest fam tasks (p :: ps) (l ++ ls)

variable {fam : Family} {tasks : List Task}

theorem Reads.append {n : ℕ} {l : List ℕ} (h : Reads fam tasks n l) (more : List Task) :
    Reads fam (tasks ++ more) n l := by
  induction h with
  | leaf found command => exact .leaf (getElem?_append_of_some more found) command
  | node found command children left right ihl ihr =>
    exact .node (getElem?_append_of_some more found) command children ihl ihr

/-- The tree below a task can be read in one way only. -/
theorem Reads.unique (hcommands : fam.leafCommand ≠ fam.nodeCommand) {n : ℕ} {l l' : List ℕ}
    (h : Reads fam tasks n l) (h' : Reads fam tasks n l') : l = l' := by
  induction h generalizing l' with
  | leaf found command =>
    cases h' with
    | leaf => rfl
    | node found' command' =>
      rw [found] at found'
      cases found'
      exact absurd (command.symm.trans command') hcommands
  | node found command children left right ihl ihr =>
    cases h' with
    | leaf found' command' =>
      rw [found] at found'
      cases found'
      exact absurd (command'.symm.trans command) hcommands
    | node found' command' children' left' right' =>
      rw [found] at found'
      cases found'
      rw [children] at children'
      cases children'
      rw [ihl left', ihr right']

namespace Forest

theorem append_tasks {ps l : List ℕ} (h : Forest fam tasks ps l) (more : List Task) :
    Forest fam (tasks ++ more) ps l := by
  induction h with
  | nil => exact .nil
  | cons tree _ ih => exact .cons (tree.append more) ih

theorem append {ps qs l m : List ℕ} (h : Forest fam tasks ps l) (h' : Forest fam tasks qs m) :
    Forest fam tasks (ps ++ qs) (l ++ m) := by
  induction h with
  | nil => exact h'
  | cons tree _ ih =>
    rw [cons_append, append_assoc]
    exact .cons tree ih

theorem singleton {p : ℕ} {l : List ℕ} (h : Reads fam tasks p l) : Forest fam tasks [p] l := by
  have := Forest.cons h .nil
  rwa [append_nil] at this

theorem split {ps qs l : List ℕ} (h : Forest fam tasks (ps ++ qs) l) :
    ∃ l₁ l₂, l = l₁ ++ l₂ ∧ Forest fam tasks ps l₁ ∧ Forest fam tasks qs l₂ := by
  induction ps generalizing l with
  | nil => exact ⟨[], l, rfl, .nil, h⟩
  | cons p ps ih =>
    cases h with
    | cons tree rest =>
      obtain ⟨l₁, l₂, rfl, h1, h2⟩ := ih rest
      exact ⟨_ ++ l₁, l₂, (append_assoc _ _ _).symm, .cons tree h1, h2⟩

/-- In another order the peaks read the same leaves. -/
theorem perm {ps ps' l : List ℕ} (hperm : ps.Perm ps') (h : Forest fam tasks ps l) :
    ∃ l', Forest fam tasks ps' l' ∧ l'.Perm l := by
  induction hperm generalizing l with
  | nil => exact ⟨l, h, .refl l⟩
  | cons p _ ih =>
    cases h with
    | cons tree rest =>
      obtain ⟨l', h', hl'⟩ := ih rest
      exact ⟨_, .cons tree h', Perm.append_left _ hl'⟩
  | swap p q ps =>
    cases h with
    | cons tree rest =>
      cases rest with
      | cons tree' rest =>
        refine ⟨_, .cons tree' (.cons tree rest), ?_⟩
        rw [← append_assoc, ← append_assoc]
        exact Perm.append_right _ perm_append_comm
  | trans _ _ ih ih' =>
    obtain ⟨l', h', hl'⟩ := ih h
    obtain ⟨l'', h'', hl''⟩ := ih' h'
    exact ⟨l'', h'', hl''.trans hl'⟩

theorem reads_of_singleton {p : ℕ} {l : List ℕ} (h : Forest fam tasks [p] l) : Reads fam tasks p l := by
  cases h with
  | cons tree rest =>
    cases rest
    rwa [append_nil]

end Forest

/-- The leaves of a family in the order in which they were enqueued. -/
def leaves (fam : Family) (tasks : List Task) : List ℕ :=
  (List.range tasks.length).filter fun i => tasks[i]?.map Task.command = some fam.leafCommand

theorem leaves_append (fam : Family) (tasks : List Task) (t : Task) :
    leaves fam (tasks ++ [t]) = leaves fam tasks ++ if t.command = fam.leafCommand then [tasks.length] else [] := by
  rw [leaves, length_append, length_singleton, range_succ, filter_append, leaves]
  congr 1
  · refine filter_congr fun i hi => ?_
    rw [getElem?_append_left (mem_range.mp hi)]
  · simp only [getElem?_append_right le_rfl, Nat.sub_self, getElem?_cons_zero, Option.map_some,
      Option.some.injEq, filter_singleton]
    split_ifs <;> simp_all

theorem leaves_append_of_ne (fam : Family) (tasks more : List Task)
    (h : ∀ t ∈ more, t.command ≠ fam.leafCommand) : leaves fam (tasks ++ more) = leaves fam tasks := by
  induction more using reverseRecOn with
  | nil => rw [append_nil]
  | append_singleton more t ih =>
    rw [← append_assoc, leaves_append, if_neg (h t (by simp)), append_nil,
      ih fun u hu => h u (mem_append_left _ hu)]

end VerifiableCompute.Planning
