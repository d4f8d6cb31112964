import VerifiableCompute.TaskDb.Effects

/-! Readiness by counting. A row condition relates the prerequisites of a task,
its state and its counter to the set of names that are done in its job. A
condition that a row keeps through each transition holds of every row in every
run; the two conditions here bound the counter from below when prerequisites may
repeat, and determine it when they do not. -/

namespace VerifiableCompute.TaskDb

open Lib Relation List

def unfinished (done : String → Bool) (names : List String) : ℕ := names.countP fun p => !done p

/-- One more name is done. -/
def finish (done : String → Bool) (k : String) : String → Bool := fun p => done p || p = k

theorem unfinished_eq_zero {done : String → Bool} {names : List String} :
    unfinished done names = 0 ↔ ∀ p ∈ names, done p := by
  simp [unfinished, countP_eq_zero]

theorem unfinished_finish_of_notMem (done : String → Bool) {k : String} {names : List String} (hk : k ∉ names) :
    unfinished (finish done k) names = unfinished done names := by
  refine countP_congr fun p hp => ?_
  have hne : p ≠ k := fun h => hk (h ▸ hp)
  simp [finish, hne]

/-- Without repeats the completion of a listed name is counted once. -/
theorem unfinished_finish {done : String → Bool} {k : String} {names : List String} (hnodup : names.Nodup)
    (hk : k ∈ names) (hdone : ¬ done k) : unfinished (finish done k) names + 1 = unfinished done names := by
  obtain ⟨before, after, rfl⟩ := append_of_mem hk
  obtain ⟨-, hafter, hdisjoint⟩ := nodup_append.mp hnodup
  have hb : k ∉ before := fun h => hdisjoint k h k mem_cons_self rfl
  have ha : k ∉ after := (nodup_cons.mp hafter).1
  have hkdone : finish done k k := by simp [finish]
  have happend (d : String → Bool) : unfinished d (before ++ k :: after) =
      unfinished d before + (unfinished d after + if d k then 0 else 1) := by
    simp only [unfinished, countP_append, countP_cons]
    cases d k <;> rfl
  rw [happend, happend, unfinished_finish_of_notMem done hb, unfinished_finish_of_notMem done ha, if_pos hkdone,
    if_neg hdone]
  rfl

/-- A condition on the names that are done, and on the prerequisites, the state and
the counter of a row, that every transition of the row keeps. -/
structure Stable (ok : (String → Bool) → List String → TaskState → ℤ → Prop) : Prop where
  start : ∀ done pre st w st', ok done pre st w → st = .ready ∨ st = .running → st' = .ready ∨ st' = .running →
    ok done pre st' w
  fail : ∀ done pre st w, ok done pre st w → ok done pre .failed w
  repair : ∀ done pre st w, ok done pre st w → (∀ p ∈ pre, done p) → ok done pre .ready 0
  /-- The row completes. -/
  complete : ∀ done pre st w k, ok done pre st w → st = .ready ∨ st = .running → k ∉ pre → ok (finish done k) pre .done w
  /-- Another row completes that this one does not wait on. -/
  other : ∀ done pre st w k, ok done pre st w → k ∉ pre → ok (finish done k) pre st w
  /-- Another row completes and this one has failed. -/
  failed : ∀ done pre w k, ok done pre .failed w → ok (finish done k) pre .failed w
  /-- A row that waits on an unfinished prerequisite is pending. -/
  waits : ∀ done pre st w k, ok done pre st w → k ∈ pre → ¬ done k → st ≠ .failed → st = .pending
  release : ∀ done pre w k, ok done pre .pending w → k ∈ pre → ¬ done k →
    ok (finish done k) pre (if w - 1 ≤ 0 then .ready else .pending) (w - 1)

variable {R : Type} {db db' : Db R} {ok : (String → Bool) → List String → TaskState → ℤ → Prop}

section

variable (ok : (String → Bool) → List String → TaskState → ℤ → Prop)

/-- Every row meets the condition. -/
def Scheduled (db : Db R) : Prop :=
  ∀ t ∈ db.tasks, ok (db.isDone t.jobId) t.prerequisites t.state t.waitingOn

/-- A created row that counts its unfinished prerequisites meets the condition. -/
def Admits (pre : List String) : Prop :=
  ∀ done, ok done pre (if unfinished done pre = 0 then .ready else .pending) (unfinished done pre)

end

theorem Scheduled.of_sameTasks (h : Scheduled ok db) (hsame : db.SameTasks db') : Scheduled ok db' := by
  intro t ht
  rw [hsame.isDone]
  rw [hsame.tasks] at ht
  exact h t ht

/-- A statement that neither completes a row nor reopens one. -/
theorem isDone_updateTasks {p : Task R → Bool} {f : Task R → Task R}
    (hopen : ∀ t ∈ db.tasks, p t → t.state ≠ .done ∧ (f t).state ≠ .done) : (db.updateTasks p f).isDone = db.isDone := by
  funext jobId taskId
  rw [Bool.eq_iff_iff, Db.isDone_iff, Db.isDone_iff]
  constructor
  · rintro ⟨t', ht', his, hdone⟩
    obtain ⟨t, ht, rfl⟩ := (mem_updateWhere p f db.tasks t').mp ht'
    by_cases hp : p t
    · rw [if_pos hp] at hdone
      exact absurd hdone (hopen t ht hp).2
    · rw [if_neg hp] at his hdone
      exact ⟨t, ht, his, hdone⟩
  · rintro ⟨t, ht, his, hdone⟩
    refine ⟨t, (mem_updateWhere p f db.tasks t).mpr ⟨t, ht, ?_⟩, his, hdone⟩
    rw [if_neg fun hp => (hopen t ht hp).1 hdone]

theorem RowMove.open {done : String → Bool} {t t' : Task R} (h : RowMove done t t') :
    t.state ≠ .done ∧ t'.state ≠ .done := by
  cases h with
  | live old new counter =>
    rw [Task.isLive_iff] at old new
    constructor
    · rcases old with h | h <;> simp [h]
    · rcases new with h | h <;> simp [h]
  | fail old new counter => exact ⟨old, by simp [new]⟩
  | repair old ready new counter => exact ⟨by simp [old], by simp [new]⟩

theorem Scheduled.move (hok : Stable ok) (h : Scheduled ok db) (hmove : Move db db') : Scheduled ok db' := by
  obtain ⟨p, f, hf, hrow, hsame⟩ := hmove
  refine Scheduled.of_sameTasks (fun t' ht' => ?_) hsame
  rw [isDone_updateTasks fun t ht hp => (hrow t ht hp).open]
  obtain ⟨t, ht, rfl⟩ := (mem_updateWhere p f db.tasks t').mp ht'
  by_cases hp : p t
  · rw [if_pos hp, hf.jobId, hf.prerequisites]
    cases hrow t ht hp with
    | live old new counter =>
      rw [counter]
      exact hok.start _ _ _ _ _ (h t ht) (Task.isLive_iff.mp old) (Task.isLive_iff.mp new)
    | fail old new counter =>
      rw [counter, new]
      exact hok.fail _ _ _ _ (h t ht)
    | repair old ready new counter =>
      rw [counter, new]
      exact hok.repair _ _ _ _ (h t ht) ready
  · rw [if_neg hp]
    exact h t ht

section Completion

variable {jobId : Uuid} {taskId : String} {f : Task R → Task R}

theorem not_isDone_of_completedRow (hlinked : Linked db) {u : Task R} (hu : u ∈ db.tasks)
    (hlive : completedRow jobId taskId u) : ¬ db.isDone jobId taskId := by
  obtain ⟨hui, hul⟩ := of_decide_eq_true hlive
  intro hdone
  obtain ⟨v, hv, hvi, hvdone⟩ := Db.isDone_iff.mp hdone
  obtain rfl := hlinked.eq_of_is hu hv hui hvi
  rw [Task.isLive_iff, hvdone] at hul
  rcases hul with h | h <;> cases h

theorem isDone_completed (hf : KeepsDefinition f) (hdone : ∀ t, (f t).state = .done) {u : Task R}
    (hu : u ∈ db.tasks) (hlive : completedRow jobId taskId u) (j : Uuid) :
    (db.updateTasks (completedRow jobId taskId) f).isDone j =
      if j = jobId then finish (db.isDone j) taskId else db.isDone j := by
  funext name
  have hiff : (db.updateTasks (completedRow jobId taskId) f).isDone j name ↔
      db.isDone j name ∨ j = jobId ∧ name = taskId := by
    rw [Db.isDone_iff, Db.isDone_iff]
    constructor
    · rintro ⟨t', ht', his, hstate⟩
      obtain ⟨t, ht, rfl⟩ := (mem_updateWhere _ f db.tasks t').mp ht'
      by_cases hp : completedRow jobId taskId t
      · rw [if_pos hp, hf.is, Task.is_iff] at his
        obtain ⟨hj, hk⟩ := Task.is_iff.mp (of_decide_eq_true hp).1
        exact .inr ⟨his.1.symm.trans hj, his.2.symm.trans hk⟩
      · rw [if_neg hp] at his hstate
        exact .inl ⟨t, ht, his, hstate⟩
    · rintro (⟨t, ht, his, hstate⟩ | ⟨rfl, rfl⟩)
      · refine ⟨t, (mem_updateWhere _ f db.tasks t).mpr ⟨t, ht, (if_neg fun hp => ?_).symm⟩, his, hstate⟩
        have hlive := (of_decide_eq_true hp).2
        rw [Task.isLive_iff, hstate] at hlive
        rcases hlive with h | h <;> cases h
      · refine ⟨f u, (mem_updateWhere _ f db.tasks _).mpr ⟨u, hu, (if_pos hlive).symm⟩, ?_, hdone u⟩
        rw [hf.is]
        exact (of_decide_eq_true hlive).1
  rw [Bool.eq_iff_iff, hiff]
  by_cases hj : j = jobId <;> simp [hj, finish]

theorem Scheduled.completes (hok : Stable ok) (hlinked : Linked db) (h : Scheduled ok db) (hf : KeepsDefinition f)
    (hdone : ∀ t, (f t).state = .done) (hcounter : ∀ t, (f t).waitingOn = t.waitingOn)
    (hlive : ∃ u ∈ db.tasks, completedRow jobId taskId u) :
    Scheduled ok ((db.updateTasks (completedRow jobId taskId) f).updateTasks (waitingRow jobId taskId) released) := by
  obtain ⟨u, hu, hul⟩ := hlive
  have hopen := not_isDone_of_completedRow hlinked hu hul
  have hmid := isDone_completed hf hdone hu hul
  -- whoever waits on the completing task is pending
  have hpending : ∀ t ∈ db.tasks, waitingRow jobId taskId t → t.state = .pending := by
    intro t ht hw
    obtain ⟨hj, hfailed, hk⟩ := of_decide_eq_true hw
    refine hok.waits _ _ _ _ _ (h t ht) hk ?_ hfailed
    rw [hj]
    exact hopen
  have hself : ∀ t ∈ db.tasks, completedRow jobId taskId t → taskId ∉ t.prerequisites := by
    intro t ht hp hk
    obtain ⟨his, hl⟩ := of_decide_eq_true hp
    have hw : waitingRow jobId taskId t := by
      refine decide_eq_true ⟨(Task.is_iff.mp his).1, fun hfail => ?_, hk⟩
      rw [Task.isLive_iff, hfail] at hl
      rcases hl with h | h <;> cases h
    rw [Task.isLive_iff, hpending t ht hw] at hl
    rcases hl with h | h <;> cases h
  have hrow : ∀ t ∈ (db.updateTasks (completedRow jobId taskId) f).tasks, waitingRow jobId taskId t →
      t ∈ db.tasks ∧ t.state = .pending := by
    intro t' ht' hw
    obtain ⟨t, ht, rfl⟩ := (mem_updateWhere _ f db.tasks t').mp ht'
    by_cases hp : completedRow jobId taskId t
    · rw [if_pos hp] at hw
      have hk := (of_decide_eq_true hw).2.2
      rw [hf.prerequisites] at hk
      exact absurd hk (hself t ht hp)
    · rw [if_neg hp] at hw ⊢
      exact ⟨ht, hpending t ht hw⟩
  have hfinal : ((db.updateTasks (completedRow jobId taskId) f).updateTasks (waitingRow jobId taskId) released).isDone =
      (db.updateTasks (completedRow jobId taskId) f).isDone := by
    refine isDone_updateTasks fun t ht hw => ⟨by simp [(hrow t ht hw).2], ?_⟩
    simp only [released]
    split_ifs <;> simp
  intro t' ht'
  obtain ⟨m, hm, rfl⟩ := (mem_updateWhere _ released _ t').mp ht'
  rw [hfinal]
  by_cases hw : waitingRow jobId taskId m
  · obtain ⟨hmem, hstate⟩ := hrow m hm hw
    obtain ⟨hj, -, hk⟩ := of_decide_eq_true hw
    rw [if_pos hw, keepsDefinition_released.jobId, keepsDefinition_released.prerequisites, hmid, if_pos hj]
    refine hok.release _ _ _ _ ?_ hk (by rw [hj]; exact hopen)
    have := h m hmem
    rwa [hstate] at this
  · rw [if_neg hw]
    obtain ⟨t, ht, rfl⟩ := (mem_updateWhere _ f db.tasks m).mp hm
    by_cases hp : completedRow jobId taskId t
    · obtain ⟨his, hl⟩ := of_decide_eq_true hp
      rw [if_pos hp, hf.jobId, hf.prerequisites, hdone, hcounter, hmid, if_pos (Task.is_iff.mp his).1]
      exact hok.complete _ _ _ _ _ (h t ht) (Task.isLive_iff.mp hl) (hself t ht hp)
    · rw [if_neg hp] at hw ⊢
      rw [hmid]
      split_ifs with hj
      · by_cases hk : taskId ∈ t.prerequisites
        · have hfailed : t.state = .failed := by
            by_contra hne
            exact hw (decide_eq_true ⟨hj, hne, hk⟩)
          have hrowOk := h t ht
          rw [hfailed] at hrowOk ⊢
          exact hok.failed _ _ _ _ hrowOk
        · exact hok.other _ _ _ _ _ (h t ht) hk
      · exact h t ht

end Completion

theorem isDone_withTask {t : Task R} (hopen : t.state ≠ .done) : (db.withTask t).isDone = db.isDone := by
  funext jobId taskId
  rw [Db.isDone, Db.withTask, any_append, Db.isDone]
  simp [hopen]

theorem Scheduled.withTask (h : Scheduled ok db) {t : Task R} (hopen : t.state ≠ .done)
    (hrow : ok (db.isDone t.jobId) t.prerequisites t.state t.waitingOn) : Scheduled ok (db.withTask t) := by
  intro u hu
  rw [isDone_withTask hopen]
  rcases mem_append.mp hu with hu | hu
  · exact h u hu
  · rw [mem_singleton.mp hu]
    exact hrow

/-- A name selects one row, so the join counts a prerequisite once for each mention. -/
theorem countP_not_done (hlinked : Linked db) {jobId : Uuid} {p : String} (hexists : ∃ u ∈ db.tasks, u.is jobId p) :
    db.tasks.countP (fun t => t.is jobId p ∧ t.state ≠ .done) = if db.isDone jobId p then 0 else 1 := by
  obtain ⟨u, hu, hui⟩ := hexists
  split_ifs with hdone
  · refine countP_eq_zero.mpr fun t ht hp => ?_
    obtain ⟨hti, hstate⟩ := of_decide_eq_true hp
    obtain ⟨v, hv, hvi, hvdone⟩ := Db.isDone_iff.mp hdone
    rw [hlinked.eq_of_is ht hv hti hvi] at hstate
    exact hstate hvdone
  · have hle : db.tasks.countP (fun t => t.is jobId p ∧ t.state ≠ .done) ≤ 1 := by
      have hcount : (db.tasks.map Task.key).count (jobId, p) ≤ 1 := nodup_iff_count_le_one.mp hlinked.keys _
      rw [count_eq_countP, countP_map] at hcount
      refine le_trans (countP_mono_left fun t _ hp => ?_) hcount
      have his := Task.is_iff.mp (of_decide_eq_true hp).1
      simp [Task.key, his]
    have hpos : 0 < db.tasks.countP (fun t => t.is jobId p ∧ t.state ≠ .done) :=
      countP_pos_iff.mpr ⟨u, hu, decide_eq_true ⟨hui, fun hstate =>
        hdone (Db.isDone_iff.mpr ⟨u, hu, hui, hstate⟩)⟩⟩
    omega

theorem sum_map_unfinished (done : String → Bool) (names : List String) :
    (names.map fun p => if done p then 0 else 1).sum = unfinished done names := by
  induction names with
  | nil => rfl
  | cons p names ih =>
    rw [map_cons, sum_cons, ih, unfinished, unfinished, countP_cons]
    cases done p <;> simp [Nat.add_comm]

theorem notDoneCount_eq (hlinked : Linked db) {t : Task R} (ht : t ∈ db.tasks)
    (hexist : ∀ p ∈ t.prerequisites, ∃ u ∈ db.tasks, u.is t.jobId p) :
    db.notDoneCount t.jobId t.taskId = unfinished (db.isDone t.jobId) t.prerequisites := by
  rw [← sum_map_unfinished, Db.notDoneCount, ← hlinked.deps t ht, List.map_map]
  refine congrArg List.sum (List.map_congr_left fun d hd => ?_)
  refine countP_not_done hlinked (hexist _ ?_)
  rw [← hlinked.deps t ht]
  exact List.mem_map_of_mem hd

theorem Scheduled.addTask (hlinked : Linked db) (h : Scheduled ok db) {t : Task R} (hinsert : Insertable t db)
    (hpending : t.state = .pending) (hadmits : Admits ok t.prerequisites)
    (hexist : ∀ p ∈ t.prerequisites, ∃ u ∈ (db.withTask t).tasks, u.is t.jobId p) :
    Scheduled ok (Db.updateTasks (Task.is t.jobId t.taskId)
        (settled (Db.notDoneCount t.jobId t.taskId { db.withTask t with taskDeps := db.taskDeps ++ newDeps t }))
        { db.withTask t with taskDeps := db.taskDeps ++ newDeps t }) := by
  have hlinked' := hlinked.insert hinsert
  have hopen : t.state ≠ .done := by simp [hpending]
  have hmem : t ∈ (db.withTask t).tasks := mem_append_right _ (mem_singleton_self t)
  have hdone : Db.isDone { db.withTask t with taskDeps := db.taskDeps ++ newDeps t } = db.isDone :=
    isDone_withTask hopen
  have hself : ∀ u ∈ (db.withTask t).tasks, u.is t.jobId t.taskId → u = t := fun u hu hui =>
    hlinked'.eq_of_is hu hmem hui (Task.is_iff.mpr ⟨rfl, rfl⟩)
  rw [notDoneCount_eq hlinked' hmem hexist, hdone]
  intro u' hu'
  rw [isDone_updateTasks, hdone]
  · obtain ⟨u, hu, rfl⟩ := (mem_updateWhere _ _ _ u').mp hu'
    by_cases hui : u.is t.jobId t.taskId
    · obtain rfl := hself u hu hui
      rw [if_pos hui, (keepsDefinition_settled _).jobId, (keepsDefinition_settled _).prerequisites]
      have := hadmits (db.isDone u.jobId)
      simpa only [settled] using this
    · rw [if_neg hui]
      rcases mem_append.mp hu with hu | hu
      · exact h u hu
      · rw [mem_singleton.mp hu] at hui
        exact absurd (Task.is_iff.mpr ⟨rfl, rfl⟩) hui
  · intro u hu hui
    obtain rfl := hself u hu hui
    refine ⟨hopen, ?_⟩
    simp only [settled]
    split_ifs <;> simp

theorem Scheduled.delete (h : Scheduled ok db) (gone : Uuid → Bool) (streams : List (Stream R)) :
    Scheduled ok { db.deleteTasks gone with streams := streams } := by
  intro t ht
  obtain ⟨ht, hkept⟩ := mem_filter.mp ht
  have hdone : Db.isDone { db.deleteTasks gone with streams := streams } t.jobId = db.isDone t.jobId := by
    funext taskId
    rw [Bool.eq_iff_iff, Db.isDone_iff, Db.isDone_iff]
    constructor
    · rintro ⟨u, hu, h⟩
      exact ⟨u, (mem_filter.mp hu).1, h⟩
    · rintro ⟨u, hu, hui, hstate⟩
      refine ⟨u, mem_filter.mpr ⟨hu, ?_⟩, hui, hstate⟩
      rw [(Task.is_iff.mp hui).1]
      exact hkept
  rw [hdone]
  exact h t ht

theorem Scheduled.effect (hok : Stable ok) (hlinked : Linked db) (h : Scheduled ok db) {op : Op R}
    (hnone : Admits ok []) (hadmits : Admits ok op.prerequisites) (heffect : Effect db op db') : Scheduled ok db' := by
  cases heffect with
  | addStream s fresh idle same =>
    have hadded : Scheduled ok { db with streams := db.streams ++ [s] } := h
    exact hadded.of_sameTasks same
  | addJob t insertable none ready counter same =>
    refine (h.withTask (by simp [ready]) ?_).of_sameTasks same
    rw [none, ready, counter]
    exact hnone (db.isDone t.jobId)
  | addTask t insertable prerequisites pending exist same =>
    exact (h.addTask hlinked insertable pending (by rwa [prerequisites]) exist).of_sameTasks same
  | moves chain =>
    induction chain with
    | refl => exact h
    | tail _ hmove ih => exact ih.move hok hmove
  | completes jobId taskId f keeps done counter exists_live same =>
    exact (h.completes hok hlinked keeps done counter exists_live).of_sameTasks same
  | deletes keep kept drops same => exact (h.delete _ _).of_sameTasks same

theorem scheduled_run [SqlReal R] (hok : Stable ok) {history : List (Op R × Outcome)} (hrun : Run history db)
    (hnone : Admits ok []) (hadmits : ∀ x ∈ history, Admits ok x.1.prerequisites) : Scheduled ok db := by
  refine replay_induction
    (P := fun history db => (∀ x ∈ history, Admits ok x.1.prerequisites) → Scheduled ok db) ?_ ?_ hrun hadmits
  · intro _ t ht
    cases ht
  · intro past r op o r' hpast ih hact hadmits
    have hlinked := linked_run hpast
    refine Scheduled.effect hok hlinked (ih fun x hx => ?_) hnone ?_ (act_effect hlinked hact)
    · exact hadmits x (mem_append_left _ hx)
    · exact hadmits (op, o) (mem_append_right _ (mem_singleton_self _))

end VerifiableCompute.TaskDb
