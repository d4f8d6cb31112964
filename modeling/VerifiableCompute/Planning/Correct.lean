import VerifiableCompute.Planning.Merging

/-! The plan as a whole. Every sequence of calls with a segment in it leads to a
plan whose final task sits on one tree of joins over the segments in order and,
when there are keccak batches, on one tree of unions over these. -/

namespace VerifiableCompute.Planning

open Lib List

/-- The state between two calls, after that many segments and keccak batches. -/
structure Planner.Good (p : Planner) (segments keccaks : ℕ) : Prop where
  placed : Placed p.tasks (p.peaks ++ p.keccakPeaks)
  joins : Tower joins p.tasks p.peaks
  unions : Tower unions p.tasks p.keccakPeaks
  unfinished : p.lastTask = none
  commands : ∀ t ∈ p.tasks, t.command ≠ .finalize
  segments_eq : (leaves Planning.joins p.tasks).length = segments
  keccaks_eq : (leaves Planning.unions p.tasks).length = keccaks
  started : 0 < segments → p.peaks ≠ []
  keccakStarted : 0 < keccaks ↔ p.keccakPeaks ≠ []

theorem good_default : Planner.Good .default 0 0 where
  placed := Placed.empty
  joins := ⟨.nil, .nil⟩
  unions := ⟨.nil, .nil⟩
  unfinished := rfl
  commands := by simp [Planner.default]
  segments_eq := rfl
  keccaks_eq := rfl
  started := by simp
  keccakStarted := by simp [Planner.default]

theorem leaves_newLeaf (fam fam' : Family) (tasks : List Task) {t : Task} {more : List Task}
    (hmore : ∀ u ∈ more, u.command = fam'.nodeCommand) (hnode : fam'.nodeCommand ≠ fam.leafCommand) :
    leaves fam (tasks ++ t :: more) = leaves fam tasks ++ if t.command = fam.leafCommand then [tasks.length] else [] := by
  rw [← leaves_append, ← singleton_append, ← append_assoc]
  exact leaves_append_of_ne fam _ more fun u hu h => hnode ((hmore u hu).symm.trans h)

variable {p : Planner} {segments keccaks : ℕ}

theorem enqueueSegment_ok (h : p.Good segments keccaks) :
    ∃ n p', enqueueSegment p = .ok (n, p') ∧ p'.Good (segments + 1) keccaks := by
  obtain ⟨peaks, more, hok, hmore, hplaced, htower, hne⟩ := enqueueLeaf_ok lawful_joins h.placed h.joins
  have hnew : ∀ t ∈ joins.newLeaf p.tasks.length :: more, t.command = .segment ∨ t.command = .join := by
    intro t ht
    rcases mem_cons.mp ht with rfl | ht
    · exact .inl rfl
    · exact .inr (hmore t ht)
  refine ⟨p.tasks.length, { p with peaks := peaks, tasks := p.tasks ++ joins.newLeaf p.tasks.length :: more }, ?_, ?_⟩
  · rw [enqueueSegment, h.unfinished, enqueueJoin, hok]
    rfl
  · constructor
    · exact hplaced
    · exact htower
    · refine h.unions.append_tasks (fun q hq => h.placed.lt_length (mem_append_right _ hq)) fun t ht => ?_
      rcases hnew t ht with h | h <;> simp [h, unions]
    · exact h.unfinished
    · intro t ht
      rcases mem_append.mp ht with ht | ht
      · exact h.commands t ht
      · rcases hnew t ht with h | h <;> simp [h]
    · rw [leaves_newLeaf joins joins _ hmore (by decide), if_pos (lawful_joins.leaf _).2.2.1, length_append, h.segments_eq]
      rfl
    · rw [leaves_newLeaf unions joins _ hmore (by decide), if_neg (by simp [joins, unions, Task.newSegment]),
        append_nil]
      exact h.keccaks_eq
    · exact fun _ => hne
    · exact h.keccakStarted

theorem enqueueKeccak_ok (h : p.Good segments keccaks) :
    ∃ n p', enqueueKeccak p = .ok (n, p') ∧ p'.Good segments (keccaks + 1) := by
  obtain ⟨peaks, more, hok, hmore, hplaced, htower, hne⟩ :=
    enqueueLeaf_ok lawful_unions (h.placed.perm perm_append_comm) h.unions
  have hnew : ∀ t ∈ unions.newLeaf p.tasks.length :: more, t.command = .keccak ∨ t.command = .union := by
    intro t ht
    rcases mem_cons.mp ht with rfl | ht
    · exact .inl rfl
    · exact .inr (hmore t ht)
  refine ⟨p.tasks.length,
    { p with keccakPeaks := peaks, tasks := p.tasks ++ unions.newLeaf p.tasks.length :: more }, ?_, ?_⟩
  · rw [enqueueKeccak, h.unfinished, enqueueUnion, hok]
    rfl
  · constructor
    · exact hplaced.perm perm_append_comm
    · refine h.joins.append_tasks (fun q hq => h.placed.lt_length (mem_append_left _ hq)) fun t ht => ?_
      rcases hnew t ht with h | h <;> simp [h, joins]
    · exact htower
    · exact h.unfinished
    · intro t ht
      rcases mem_append.mp ht with ht | ht
      · exact h.commands t ht
      · rcases hnew t ht with h | h <;> simp [h]
    · rw [leaves_newLeaf joins unions _ hmore (by decide), if_neg (by simp [joins, unions, Task.newKeccak]),
        append_nil]
      exact h.segments_eq
    · rw [leaves_newLeaf unions unions _ hmore (by decide), if_pos (lawful_unions.leaf _).2.2.1, length_append, h.keccaks_eq]
      rfl
    · exact h.started
    · exact ⟨fun _ => hne, fun _ => Nat.succ_pos _⟩

theorem enqueueAll_ok (calls : List Enqueue) (p : Planner) (segments keccaks : ℕ) (h : p.Good segments keccaks) :
    ∃ p', enqueueAll calls p = .ok p' ∧
      p'.Good (segments + calls.count .segment) (keccaks + calls.count .keccak) := by
  induction calls generalizing p segments keccaks with
  | nil => exact ⟨p, rfl, h⟩
  | cons call calls ih =>
    cases call with
    | segment =>
      obtain ⟨n, q, hq, hgood⟩ := enqueueSegment_ok h
      obtain ⟨p', hp', hgood'⟩ := ih q _ _ hgood
      refine ⟨p', by rw [enqueueAll, Enqueue.call, hq]; exact hp', ?_⟩
      simpa [Nat.add_assoc, Nat.add_comm 1] using hgood'
    | keccak =>
      obtain ⟨n, q, hq, hgood⟩ := enqueueKeccak_ok h
      obtain ⟨p', hp', hgood'⟩ := ih q _ _ hgood
      refine ⟨p', by rw [enqueueAll, Enqueue.call, hq]; exact hp', ?_⟩
      simpa [Nat.add_assoc, Nat.add_comm 1] using hgood'

/-- The unions end in one tree over all keccak batches, in some order; without any
there is no tree. -/
theorem finishUnions_ok (h : p.Good segments keccaks) : ∃ keccakDependsOn keccakPeaks more, finishUnions p =
        .ok (keccakDependsOn, { p with keccakPeaks := keccakPeaks, tasks := p.tasks ++ more }) ∧
      keccakDependsOn.getD [] = keccakPeaks ∧ (∀ t ∈ more, t.command = .union) ∧
      Placed (p.tasks ++ more) (p.peaks ++ keccakPeaks) ∧
      (keccakDependsOn = none ∧ keccaks = 0 ∨ ∃ root l, keccakDependsOn = some [root] ∧ 0 < keccaks ∧
        Reads unions (p.tasks ++ more) root l ∧ l.Perm (leaves unions (p.tasks ++ more))) := by
  unfold finishUnions
  cases hpeaks : p.keccakPeaks with
  | nil =>
    refine ⟨none, [], [], by simp [← hpeaks], rfl, by simp, ?_, .inl ⟨rfl, ?_⟩⟩
    · simpa [hpeaks] using h.placed
    · by_contra hne
      exact h.keccakStarted.mp (Nat.pos_of_ne_zero hne) hpeaks
  | cons front rest =>
    have hperm : p.keccakPeaks.Perm (rest.reverse ++ [front]) := by
      rw [hpeaks]
      exact (perm_append_singleton front rest).symm.trans (List.Perm.append_right _ rest.reverse_perm.symm)
    obtain ⟨l, hforest, hl⟩ := h.unions.forest.perm hperm
    have hplaced : Placed p.tasks (rest.reverse ++ [front] ++ p.peaks) :=
      h.placed.perm (perm_append_comm.trans (List.Perm.append_right _ hperm))
    obtain ⟨root, more, hok, hmore, hmerged⟩ := collapse_ok lawful_unions rest front p.tasks ⟨hplaced, hforest⟩
    refine ⟨some [root], [root], more, ?_, rfl, hmore, hmerged.placed.perm perm_append_comm, .inr
      ⟨root, l, rfl, h.keccakStarted.mpr (by simp [hpeaks]), hmerged.forest.reads_of_singleton, ?_⟩⟩
    · simp only [enqueueUnion, hok]
      rfl
    · rw [leaves_append_of_ne unions _ _ fun t ht => by rw [hmore t ht]; decide]
      exact hl

/-- The final task stands above the root of the joins and the roots of the unions. -/
theorem enqueueFinalize_ok {tasks : List Task} {root : ℕ} {keccakDependsOn : Option (List ℕ)}
    (hplaced : Placed tasks (root :: keccakDependsOn.getD []))
    (hshort : keccakDependsOn = none ∨ ∃ k, keccakDependsOn = some [k]) :
    ∃ final, enqueueFinalize root keccakDependsOn tasks = .ok (tasks.length, tasks ++ [final]) ∧
      final.command = .finalize ∧ final.dependsOn = [root] ∧ final.keccakDependsOn = keccakDependsOn.getD [] ∧
      Placed (tasks ++ [final]) [tasks.length] := by
  obtain ⟨t, ht, hth⟩ := getTask_ok (hplaced.lt_length mem_cons_self)
  rcases hshort with rfl | ⟨k, rfl⟩
  · refine ⟨.newFinalize tasks.length (1 + t.taskHeight) root none, ?_, rfl, rfl, rfl, ?_⟩
    · rw [enqueueFinalize, ht]
      rfl
    · refine hplaced.add (show Task.deps _ = [root] from rfl) (.refl _) rfl (by simp [Task.newFinalize, Command.isLeaf]) ?_
      simp [Task.newFinalize, hth]
  · obtain ⟨u, hu, huh⟩ := getTask_ok (hplaced.lt_length (mem_cons_of_mem _ mem_cons_self))
    refine ⟨.newFinalize tasks.length (max (1 + t.taskHeight) (1 + u.taskHeight)) root (some [k]), ?_, rfl, rfl, rfl, ?_⟩
    · rw [enqueueFinalize, ht]
      simp only [Option.bind_some, max?_singleton, hu]
      rfl
    · refine hplaced.add (show Task.deps _ = [root, k] from rfl) (.refl _) rfl (by simp [Task.newFinalize, Command.isLeaf]) ?_
      simp only [Task.newFinalize, cons_ne_nil, if_false, map_cons, map_nil, foldr_cons,
        foldr_nil, hth, huh]
      omega

/-- Every plan of at least one segment is complete and correct. -/
theorem plan_correct (calls : List Enqueue) (h : .segment ∈ calls) :
    ∃ last p final root, plan calls = .ok (last, p) ∧ p.tasks[last]? = some final ∧
      (∀ (i : ℕ) t, p.tasks[i]? = some t → t.WellPlaced p.tasks i ∧ (t.command = .finalize ↔ i = last)) ∧
      (final.dependsOn = [root] ∧ (∀ l, Reads joins p.tasks root l ↔ l = leaves joins p.tasks) ∧
        (leaves joins p.tasks).length = calls.count .segment) ∧
      ((leaves unions p.tasks).length = calls.count .keccak ∧
        (final.keccakDependsOn = [] ∧ calls.count .keccak = 0 ∨ ∃ k l, final.keccakDependsOn = [k] ∧
          0 < calls.count .keccak ∧ Reads unions p.tasks k l ∧ l.Perm (leaves unions p.tasks))) ∧
      ∀ i < p.tasks.length, i ≠ last → uses p.tasks i = 1 := by
  obtain ⟨p, hp, hgood⟩ := enqueueAll_ok calls .default 0 0 good_default
  rw [Nat.zero_add, Nat.zero_add] at hgood
  obtain ⟨keccakDependsOn, keccakPeaks, more, hunions, hroots, hmore, hplaced, hkeccak⟩ := finishUnions_ok hgood
  have hne : p.peaks ≠ [] := hgood.started (List.count_pos_iff.mpr h)
  -- the peaks of the segments, popped from the back
  obtain ⟨back, rest, hback⟩ : ∃ back rest, p.peaks.reverse = back :: rest :=
    List.exists_cons_of_ne_nil (by simpa using hne)
  have hpeaks : rest.reverse ++ [back] = p.peaks := by
    rw [← List.reverse_cons, ← hback, List.reverse_reverse]
  have hother : ∀ t ∈ more, t.command ≠ joins.leafCommand :=
    fun t ht => by rw [hmore t ht]; decide
  have htower := hgood.joins.append_tasks
    (fun q hq => hgood.placed.lt_length (List.mem_append_left _ hq)) hother
  have hmerging : Merging joins (p.tasks ++ more) (rest.reverse ++ [back]) keccakPeaks (leaves joins (p.tasks ++ more)) :=
    ⟨by rw [hpeaks]; exact hplaced, by rw [hpeaks]; exact htower.forest⟩
  obtain ⟨root, more', hcollapse, hmore', hmerged⟩ := collapse_ok lawful_joins rest back (p.tasks ++ more) hmerging
  have hlast : Placed (p.tasks ++ more ++ more') (root :: keccakDependsOn.getD []) := by
    rw [hroots]
    exact hmerged.placed
  obtain ⟨final, hfinal, hcommand, hdepends, hkeccakDepends, hfinalPlaced⟩ := enqueueFinalize_ok hlast
    (by rcases hkeccak with ⟨h, -⟩ | ⟨k, l, h, -⟩
        · exact .inl h
        · exact .inr ⟨k, h⟩)
  have hnotLeaf : ∀ fam : Family, fam.leafCommand.isLeaf → final.command ≠ fam.leafCommand := by
    intro fam hleaf hc
    rw [← hc, hcommand] at hleaf
    rcases hleaf with h | h <;> cases h
  have hleavesJoins : leaves joins (p.tasks ++ more ++ more' ++ [final]) = leaves joins (p.tasks ++ more) := by
    rw [leaves_append, if_neg (hnotLeaf joins (.inl rfl)), List.append_nil]
    exact leaves_append_of_ne joins _ _ fun t ht => by rw [hmore' t ht]; decide
  have hleavesUnions : leaves unions (p.tasks ++ more ++ more' ++ [final]) = leaves unions (p.tasks ++ more) := by
    rw [leaves_append, if_neg (hnotLeaf unions (.inr rfl)), List.append_nil]
    exact leaves_append_of_ne unions _ _ fun t ht => by rw [hmore' t ht]; decide
  refine ⟨(p.tasks ++ more ++ more').length, ⟨p.tasks ++ more ++ more' ++ [final], [root], keccakPeaks,
    some (p.tasks ++ more ++ more').length⟩, final, root, ?_, by simp, ?_, ⟨hdepends, ?_, ?_⟩, ⟨?_, ?_⟩, ?_⟩
  · have hplan : plan calls = finish p := by
      rw [plan, hp]
      rfl
    rw [hplan, finish, if_neg hne, hunions]
    simp only [bind, Except.bind, hgood.unfinished, hback, enqueueJoin, hcollapse, hfinal]
    rfl
  · intro i t ht
    refine ⟨hfinalPlaced.placed i t ht, ?_⟩
    by_cases hi : i < (p.tasks ++ more ++ more').length
    · rw [List.getElem?_append_left hi] at ht
      have hne : t.command ≠ .finalize := by
        have hmem := List.mem_of_getElem? ht
        rw [List.append_assoc, List.mem_append, List.mem_append] at hmem
        rcases hmem with hmem | hmem | hmem
        · exact hgood.commands t hmem
        · simp [hmore t hmem]
        · simp [hmore' t hmem, joins]
      exact ⟨fun h => absurd h hne, fun h => absurd hi (by omega)⟩
    · obtain ⟨hi', heq⟩ := List.getElem?_eq_some_iff.mp ht
      have hlast : i = (p.tasks ++ more ++ more').length := by
        have hlength : (p.tasks ++ more ++ more' ++ [final]).length = (p.tasks ++ more ++ more').length + 1 :=
          List.length_append
        dsimp only at hi'
        omega
      subst hlast
      rw [List.getElem_append_right le_rfl] at heq
      simp only [Nat.sub_self, List.getElem_cons_zero] at heq
      rw [← heq]
      exact ⟨fun _ => rfl, fun _ => hcommand⟩
  · intro l
    rw [hleavesJoins]
    have hread := hmerged.forest.reads_of_singleton.append [final]
    exact ⟨fun hl => hl.unique lawful_joins.commands hread, fun hl => hl ▸ hread⟩
  · rw [hleavesJoins, leaves_append_of_ne joins _ _ fun t ht => by rw [hmore t ht]; decide]
    exact hgood.segments_eq
  · rw [hleavesUnions, leaves_append_of_ne unions _ _ fun t ht => by rw [hmore t ht]; decide]
    exact hgood.keccaks_eq
  · rw [hleavesUnions, hkeccakDepends]
    rcases hkeccak with ⟨hnone, hzero⟩ | ⟨k, l, hsome, hpos, hread, hperm⟩
    · exact .inl ⟨by rw [hnone]; rfl, hzero⟩
    · exact .inr ⟨k, l, by rw [hsome]; rfl, hpos, (hread.append more').append [final], hperm⟩
  · intro i hi hlast
    have hused := hfinalPlaced.used i
    rw [if_pos hi, List.count_eq_zero.mpr (by simpa using hlast)] at hused
    exact hused

theorem plan_correct_sample : ∃ last p final root, plan [.keccak, .segment, .segment] = .ok (last, p) ∧
    p.tasks[last]? = some final ∧ final.dependsOn = [root] ∧ Reads joins p.tasks root (leaves joins p.tasks) := by
  obtain ⟨last, p, final, root, hplan, hfinal, -, ⟨hroot, hread, -⟩, -⟩ :=
    plan_correct [.keccak, .segment, .segment] (by decide)
  exact ⟨last, p, final, root, hplan, hfinal, hroot, (hread _).mpr rfl⟩

end VerifiableCompute.Planning
