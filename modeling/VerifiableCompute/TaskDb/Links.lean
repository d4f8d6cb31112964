import VerifiableCompute.TaskDb.Operations

/-! The links between the tables. Task names are unique in a job, every task
refers to a stream that exists, and the dependency rows of a task are its
prerequisites. Updates, insertions and deletions of whole jobs keep the links. -/

namespace VerifiableCompute.TaskDb

open Lib List

variable {R : Type}

variable {t : Task R} {f : Task R → Task R} {db db' : Db R}

theorem Task.is_iff {jobId : Uuid} {taskId : String} : t.is jobId taskId ↔ t.jobId = jobId ∧ t.taskId = taskId := by
  simp [Task.is]

theorem Task.isLive_iff : t.isLive ↔ t.state = .ready ∨ t.state = .running := by
  simp [Task.isLive]

/-- The columns of a task that no update changes. -/
structure KeepsDefinition (f : Task R → Task R) : Prop where
  jobId : ∀ t, (f t).jobId = t.jobId
  taskId : ∀ t, (f t).taskId = t.taskId
  streamId : ∀ t, (f t).streamId = t.streamId
  prerequisites : ∀ t, (f t).prerequisites = t.prerequisites

theorem KeepsDefinition.ite (hf : KeepsDefinition f) (p : Task R → Bool) :
    KeepsDefinition fun t => if p t then f t else t where
  jobId t := by split_ifs <;> simp [hf.jobId]
  taskId t := by split_ifs <;> simp [hf.taskId]
  streamId t := by split_ifs <;> simp [hf.streamId]
  prerequisites t := by split_ifs <;> simp [hf.prerequisites]

theorem KeepsDefinition.is (hf : KeepsDefinition f) (jobId : Uuid) (taskId : String)
    (t : Task R) : (f t).is jobId taskId = t.is jobId taskId := by
  simp only [Task.is, hf.jobId, hf.taskId]

namespace Db

def isDone (db : Db R) (jobId : Uuid) (taskId : String) : Bool :=
  db.tasks.any fun t => t.is jobId taskId ∧ t.state = .done

theorem isDone_iff {db : Db R} {jobId : Uuid} {taskId : String} :
    db.isDone jobId taskId ↔ ∃ t ∈ db.tasks, t.is jobId taskId ∧ t.state = .done := by
  simp [isDone]

/-- The same tables, jobs aside. -/
structure SameTasks (db db' : Db R) : Prop where
  streams : db'.streams = db.streams
  tasks : db'.tasks = db.tasks
  taskDeps : db'.taskDeps = db.taskDeps

theorem SameTasks.isDone {db db' : Db R} (h : SameTasks db db') : db'.isDone = db.isDone := by
  funext jobId taskId
  simp only [Db.isDone, h.tasks]

theorem sameTasks_updateJobs (p : Job → Bool) (f : Job → Job) (db : Db R) : SameTasks db (db.updateJobs p f) :=
  ⟨rfl, rfl, rfl⟩

end Db

/-- Task names are unique in a job, tasks refer to streams that exist, and the
dependencies are the prerequisites of the tasks that exist. -/
structure Linked (db : Db R) : Prop where
  keys : (db.tasks.map Task.key).Nodup
  stream : ∀ t ∈ db.tasks, ∃ s ∈ db.streams, s.id = t.streamId
  post : ∀ d ∈ db.taskDeps, ∃ t ∈ db.tasks, t.is d.jobId d.postTaskId
  deps : ∀ t ∈ db.tasks, (db.depsOf t.jobId t.taskId).map TaskDep.preTaskId = t.prerequisites

theorem linked_initial : Linked (Db.initial R) := by
  refine ⟨nodup_nil, ?_, ?_, ?_⟩ <;> intro _ h <;> cases h

theorem Linked.of_sameTasks (h : Linked db) (hsame : db.SameTasks db') : Linked db' := by
  obtain ⟨hs, ht, hd⟩ := hsame
  refine ⟨?_, ?_, ?_, ?_⟩
  · rw [ht]
    exact h.keys
  · rw [ht, hs]
    exact h.stream
  · rw [ht, hd]
    exact h.post
  · rw [ht]
    intro t htm
    have := h.deps t htm
    rwa [Db.depsOf, ← hd] at this

theorem maintStreams_ids (old new : Option (Task R)) (streams : List (Stream R)) :
    (maintStreams old new streams).map Stream.id = streams.map Stream.id := by
  unfold maintStreams
  dsimp only
  split_ifs
  · exact map_updateWhere _ _ _ _ fun _ _ _ => rfl
  · rfl

theorem foldl_maintStreams_ids (xs : List (Task R × Task R)) (streams : List (Stream R)) :
    (xs.foldl (fun streams x => maintStreams (some x.1) (some x.2) streams) streams).map Stream.id =
      streams.map Stream.id := by
  induction xs generalizing streams with
  | nil => rfl
  | cons x xs ih => rw [foldl_cons, ih, maintStreams_ids]

theorem exists_stream_of_ids {l l' : List (Stream R)} (h : l'.map Stream.id = l.map Stream.id) {x : Uuid}
    (hx : ∃ s ∈ l, s.id = x) : ∃ s ∈ l', s.id = x := by
  have hmem : x ∈ l'.map Stream.id := by
    rw [h]
    exact mem_map.mpr hx
  exact mem_map.mp hmem

namespace Linked

variable {db : Db R}

theorem updateTasks (h : Linked db) (p : Task R → Bool) {f : Task R → Task R} (hf : KeepsDefinition f) :
    Linked (db.updateTasks p f) := by
  have hite := hf.ite p
  have hrow : ∀ t' ∈ (db.updateTasks p f).tasks, ∃ t ∈ db.tasks, t' = if p t then f t else t :=
    fun t' ht' => (mem_updateWhere p f db.tasks t').mp ht'
  refine ⟨?_, ?_, ?_, ?_⟩
  · have hcol : (db.updateTasks p f).tasks.map Task.key = db.tasks.map Task.key :=
      map_updateWhere p f db.tasks Task.key fun t _ _ => by simp only [Task.key, hf.jobId, hf.taskId]
    rw [hcol]
    exact h.keys
  · intro t ht
    obtain ⟨a, ha, rfl⟩ := hrow t ht
    rw [hite.streamId]
    exact exists_stream_of_ids (foldl_maintStreams_ids _ _) (h.stream a ha)
  · intro d hd
    obtain ⟨t, ht, his⟩ := h.post d hd
    refine ⟨_, (mem_updateWhere p f db.tasks _).mpr ⟨t, ht, rfl⟩, ?_⟩
    rw [hite.is]
    exact his
  · intro t ht
    obtain ⟨a, ha, rfl⟩ := hrow t ht
    rw [hite.jobId, hite.taskId, hite.prerequisites]
    exact h.deps a ha

theorem eq_of_is (h : Linked db) {t u : Task R} (ht : t ∈ db.tasks) (hu : u ∈ db.tasks) {jobId : Uuid}
    {taskId : String} (hti : t.is jobId taskId) (hui : u.is jobId taskId) : t = u := by
  refine inj_on_of_nodup_map h.keys ht hu ?_
  rw [Task.is_iff] at hti hui
  simp only [Task.key, hti, hui]

theorem mem_prerequisites (h : Linked db) {t : Task R} (ht : t ∈ db.tasks) (taskId : String) :
    taskId ∈ t.prerequisites ↔
      ∃ d ∈ db.taskDeps, d.jobId = t.jobId ∧ d.postTaskId = t.taskId ∧ d.preTaskId = taskId := by
  rw [← h.deps t ht, mem_map]
  simp only [Db.depsOf, mem_filter, decide_eq_true_eq, Bool.decide_and, Bool.and_eq_true]
  constructor
  · rintro ⟨d, ⟨hd, hj, hp⟩, rfl⟩
    exact ⟨d, hd, hj, hp, rfl⟩
  · rintro ⟨d, hd, hj, hp, rfl⟩
    exact ⟨d, ⟨hd, hj, hp⟩, rfl⟩

end Linked

/-- The database after the insertion of a row. -/
def Db.withTask (t : Task R) (db : Db R) : Db R :=
  { db with tasks := db.tasks ++ [t], streams := maintStreams none (some t) db.streams }

/-- The row is new and its stream exists. -/
structure Insertable (t : Task R) (db : Db R) : Prop where
  fresh : ∀ u ∈ db.tasks, ¬ u.is t.jobId t.taskId
  stream : ∃ s ∈ db.streams, s.id = t.streamId

theorem insertTask_ok (h : db.insertTask t = .ok db') : Insertable t db ∧ db' = db.withTask t := by
  unfold Db.insertTask at h
  split_ifs at h with hkey hrefs
  · cases h
    simp only [Bool.not_eq_true, any_eq_false] at hkey
    simp only [any_eq_true, decide_eq_true_eq] at hrefs
    exact ⟨⟨fun u hu => ne_true_of_eq_false (hkey u hu), hrefs.2⟩, rfl⟩

theorem insertDeps_ok {deps : List TaskDep} (h : db.insertDeps deps = .ok db') :
    (∀ d ∈ deps, ∃ u ∈ db.tasks, u.is d.jobId d.preTaskId) ∧ db' = { db with taskDeps := db.taskDeps ++ deps } := by
  unfold Db.insertDeps at h
  split_ifs at h with hrefs
  · cases h
    refine ⟨fun d hd => ?_, rfl⟩
    have := all_eq_true.mp hrefs d hd
    simp only [any_eq_true, decide_eq_true_eq] at this
    exact this.2.1

/-- The dependencies of the task being created. -/
def newDeps (t : Task R) : List TaskDep := t.prerequisites.map fun value => ⟨t.jobId, value, t.taskId⟩

namespace Linked

variable {db : Db R}
variable {t : Task R}

theorem depsOf_of_fresh (h : Linked db) (ht : Insertable t db) : db.depsOf t.jobId t.taskId = [] := by
  rw [Db.depsOf, filter_eq_nil_iff]
  intro d hd hmatch
  obtain ⟨hj, hp⟩ := of_decide_eq_true hmatch
  obtain ⟨u, hu, hui⟩ := h.post d hd
  rw [hj, hp] at hui
  exact ht.fresh u hu hui

theorem insert (h : Linked db) (ht : Insertable t db) :
    Linked { db.withTask t with taskDeps := db.taskDeps ++ newDeps t } := by
  have hnew : ∀ d ∈ newDeps t, d.jobId = t.jobId ∧ d.postTaskId = t.taskId := by
    intro d hd
    obtain ⟨value, -, rfl⟩ := mem_map.mp hd
    exact ⟨rfl, rfl⟩
  refine ⟨?_, ?_, ?_, ?_⟩
  · change ((db.tasks ++ [t]).map Task.key).Nodup
    rw [map_append, map_singleton, nodup_append]
    refine ⟨h.keys, nodup_singleton _, ?_⟩
    rintro a ha b hb rfl
    rw [mem_singleton] at hb
    obtain ⟨u, hu, hkey⟩ := mem_map.mp ha
    refine ht.fresh u hu ?_
    rw [hb, Task.key, Task.key, Prod.mk.injEq] at hkey
    exact Task.is_iff.mpr hkey
  · intro u hu
    refine exists_stream_of_ids (maintStreams_ids none (some t) db.streams) ?_
    rcases mem_append.mp hu with hu | hu
    · exact h.stream u hu
    · rw [mem_singleton.mp hu]
      exact ht.stream
  · intro d hd
    rcases mem_append.mp hd with hd | hd
    · obtain ⟨u, hu, hui⟩ := h.post d hd
      exact ⟨u, mem_append_left _ hu, hui⟩
    · exact ⟨t, mem_append_right _ (mem_singleton_self t), Task.is_iff.mpr
        ⟨(hnew d hd).1.symm, (hnew d hd).2.symm⟩⟩
  · intro u hu
    have hsplit : Db.depsOf u.jobId u.taskId { db.withTask t with taskDeps := db.taskDeps ++ newDeps t } =
        db.depsOf u.jobId u.taskId ++
          (newDeps t).filter fun d => d.jobId = u.jobId ∧ d.postTaskId = u.taskId := filter_append _ _
    rw [hsplit, map_append]
    rcases mem_append.mp hu with hu | hu
    · have hnone : ((newDeps t).filter fun d => d.jobId = u.jobId ∧ d.postTaskId = u.taskId) = [] := by
        rw [filter_eq_nil_iff]
        intro d hd hmatch
        obtain ⟨hj, hp⟩ := of_decide_eq_true hmatch
        rw [(hnew d hd).1] at hj
        rw [(hnew d hd).2] at hp
        exact ht.fresh u hu (Task.is_iff.mpr ⟨hj.symm, hp.symm⟩)
      rw [hnone, map_nil, append_nil]
      exact h.deps u hu
    · rw [mem_singleton.mp hu, h.depsOf_of_fresh ht, map_nil, nil_append,
        filter_eq_self.mpr fun d hd => decide_eq_true (hnew d hd), newDeps, map_map]
      exact map_id _

theorem delete (h : Linked db) (gone : Uuid → Bool) {streams : List (Stream R)}
    (hstreams : ∀ t ∈ db.tasks, ¬ gone t.jobId → ∃ s ∈ streams, s.id = t.streamId) :
    Linked { db.deleteTasks gone with streams := streams } := by
  have hkept : ∀ t ∈ (db.deleteTasks gone).tasks, t ∈ db.tasks ∧ ¬ gone t.jobId := by
    intro t ht
    simpa [Db.deleteTasks] using ht
  refine ⟨?_, ?_, ?_, ?_⟩
  · exact h.keys.sublist (Sublist.map _ filter_sublist)
  · intro t ht
    exact hstreams t (hkept t ht).1 (hkept t ht).2
  · intro d hd
    obtain ⟨hd, hj⟩ := mem_filter.mp hd
    obtain ⟨u, hu, hui⟩ := h.post d hd
    refine ⟨u, mem_filter.mpr ⟨hu, ?_⟩, hui⟩
    rw [(Task.is_iff.mp hui).1]
    exact hj
  · intro t ht
    obtain ⟨ht, hj⟩ := hkept t ht
    rw [← h.deps t ht]
    change map _ (filter _ (filter _ db.taskDeps)) = _
    rw [filter_filter, Db.depsOf]
    refine congrArg _ (filter_congr fun d _ => ?_)
    by_cases hd : d.jobId = t.jobId
    · simp [hd, hj]
    · simp [hd]

end Linked

end VerifiableCompute.TaskDb
