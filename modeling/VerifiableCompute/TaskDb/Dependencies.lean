import VerifiableCompute.TaskDb.Counters
import VerifiableCompute.TaskDb.Schedule

/-! No task starts before its prerequisites are done, and without repeated
prerequisites no task is stuck: its counter is the number of prerequisites that
are not done, and it is pending exactly while that number is positive. -/

namespace VerifiableCompute.TaskDb

open Lib

/-- Started rows have nothing left to wait on, and the counter of a pending row is at
least the number of different names that it waits on. -/
def Safe (done : String → Bool) (pre : List String) (st : TaskState) (w : ℤ) : Prop :=
  (st = .ready ∨ st = .running ∨ st = .done → ∀ p ∈ pre, done p) ∧
    (st = .pending → (unfinished done pre.dedup : ℤ) ≤ w)

/-- The counter is the number of prerequisites that are not done. -/
def Exact (done : String → Bool) (pre : List String) (st : TaskState) (w : ℤ) : Prop :=
  pre.Nodup ∧ (st ≠ .failed → w = unfinished done pre ∧ (st = .pending ↔ 0 < w))

variable {done : String → Bool} {pre : List String}

theorem finish_of_notMem {k : String} (hk : k ∉ pre) {p : String} (hp : p ∈ pre) : finish done k p = done p := by
  have hne : p ≠ k := fun h => hk (h ▸ hp)
  simp [finish, hne]

theorem unfinished_dedup_eq_zero : unfinished done pre.dedup = 0 ↔ ∀ p ∈ pre, done p := by
  simp only [unfinished_eq_zero, List.mem_dedup]

theorem stable_safe : Stable Safe where
  start := by
    rintro done pre st w st' ⟨hready, -⟩ hst hst'
    refine ⟨fun _ => hready (by tauto), fun h => ?_⟩
    rcases hst' with rfl | rfl <;> cases h
  fail := by
    intro done pre st w _
    exact ⟨fun h => by simp at h, fun h => by cases h⟩
  repair := by
    intro done pre st w _ hall
    exact ⟨fun _ => hall, fun h => by cases h⟩
  complete := by
    rintro done pre st w k ⟨hready, -⟩ hst hk
    refine ⟨fun _ p hp => ?_, fun h => by cases h⟩
    rw [finish_of_notMem hk hp]
    exact hready (by tauto) p hp
  other := by
    rintro done pre st w k ⟨hready, hpending⟩ hk
    refine ⟨fun hst p hp => ?_, fun hst => ?_⟩
    · rw [finish_of_notMem hk hp]
      exact hready hst p hp
    · rw [unfinished_finish_of_notMem done (by rwa [List.mem_dedup])]
      exact hpending hst
  failed := by
    intro done pre w k _
    exact ⟨fun h => by simp at h, fun h => by cases h⟩
  waits := by
    rintro done pre st w k ⟨hready, -⟩ hk hdone hfailed
    cases st with
    | pending => rfl
    | ready => exact absurd (hready (.inl rfl) k hk) hdone
    | running => exact absurd (hready (.inr (.inl rfl)) k hk) hdone
    | done => exact absurd (hready (.inr (.inr rfl)) k hk) hdone
    | failed => exact absurd rfl hfailed
  release := by
    rintro done pre w k ⟨-, hpending⟩ hk hdone
    have hle := hpending rfl
    have hcount := unfinished_finish pre.nodup_dedup (List.mem_dedup.mpr hk) hdone
    split_ifs with hw
    · refine ⟨fun _ => unfinished_dedup_eq_zero.mp ?_, fun h => by cases h⟩
      omega
    · exact ⟨fun h => by simp at h, fun _ => by omega⟩

theorem admits_safe (pre : List String) : Admits Safe pre := by
  intro done
  split_ifs with hzero
  · exact ⟨fun _ => unfinished_eq_zero.mp hzero, fun h => by cases h⟩
  · refine ⟨fun h => by simp at h, fun _ => ?_⟩
    exact_mod_cast (List.Sublist.countP_le (p := fun p => !done p) pre.dedup_sublist)

theorem stable_exact : Stable Exact where
  start := by
    rintro done pre st w st' ⟨hnodup, hexact⟩ hst hst'
    refine ⟨hnodup, fun _ => ?_⟩
    have hst1 : st ≠ .failed ∧ st ≠ .pending := by rcases hst with rfl | rfl <;> simp
    have hst2 : st' ≠ .pending := by rcases hst' with rfl | rfl <;> simp
    obtain ⟨hw, hpending⟩ := hexact hst1.1
    exact ⟨hw, by simpa [hst1.2, hst2] using hpending⟩
  fail := by
    rintro done pre st w ⟨hnodup, -⟩
    exact ⟨hnodup, fun h => absurd rfl h⟩
  repair := by
    rintro done pre st w ⟨hnodup, -⟩ hall
    refine ⟨hnodup, fun _ => ⟨?_, by simp⟩⟩
    rw [unfinished_eq_zero.mpr hall]
    rfl
  complete := by
    rintro done pre st w k ⟨hnodup, hexact⟩ hst hk
    refine ⟨hnodup, fun _ => ?_⟩
    have hst' : st ≠ .failed ∧ st ≠ .pending := by rcases hst with rfl | rfl <;> simp
    obtain ⟨hw, hpending⟩ := hexact hst'.1
    rw [unfinished_finish_of_notMem done hk]
    exact ⟨hw, by simpa [hst'.2] using hpending⟩
  other := by
    rintro done pre st w k ⟨hnodup, hexact⟩ hk
    rw [Exact, unfinished_finish_of_notMem done hk]
    exact ⟨hnodup, hexact⟩
  failed := by
    rintro done pre w k ⟨hnodup, -⟩
    exact ⟨hnodup, fun h => absurd rfl h⟩
  waits := by
    rintro done pre st w k ⟨-, hexact⟩ hk hdone hfailed
    obtain ⟨hw, hpending⟩ := hexact hfailed
    have hpos : unfinished done pre ≠ 0 := fun h => hdone (unfinished_eq_zero.mp h k hk)
    exact hpending.mpr (by omega)
  release := by
    rintro done pre w k ⟨hnodup, hexact⟩ hk hdone
    obtain ⟨hw, -⟩ := hexact (by simp)
    have hcount := unfinished_finish hnodup hk hdone
    refine ⟨hnodup, fun _ => ⟨by omega, ?_⟩⟩
    split_ifs with hle
    · simp only [false_iff]
      omega
    · simp only [true_iff]
      omega

theorem admits_exact (hnodup : pre.Nodup) : Admits Exact pre := by
  intro done
  refine ⟨hnodup, fun _ => ⟨rfl, ?_⟩⟩
  split_ifs with hzero
  · simp [hzero]
  · simp only [true_iff]
    omega

variable {R : Type} [SqlReal R] {db : Db R}

/-- The prerequisites of a task are tasks of its job that are done. -/
def Db.PrerequisitesDone (db : Db R) (t : Task R) : Prop :=
  ∀ p ∈ t.prerequisites, ∃ u ∈ db.tasks, u.jobId = t.jobId ∧ u.taskId = p ∧ u.state = .done

omit [SqlReal R] in
theorem prerequisitesDone_iff (t : Task R) : db.PrerequisitesDone t ↔ ∀ p ∈ t.prerequisites, db.isDone t.jobId p := by
  simp only [Db.PrerequisitesDone, Db.isDone_iff, Task.is_iff, and_assoc]

/-- In every run a task that is ready, running or done has its prerequisites done, and
so does the task that is handed out next. -/
theorem dependency_safety {history : List (Op R × Outcome)} (hrun : Run history db) :
    (∀ t ∈ db.tasks, t.state = .ready ∨ t.state = .running ∨ t.state = .done → db.PrerequisitesDone t) ∧
      ∀ workerType streamRank taskRank now db' work,
        requestWork workerType streamRank taskRank now db = (db', some work) →
        ∃ t ∈ db.tasks, t.jobId = work.jobId ∧ t.taskId = work.taskId ∧ db.PrerequisitesDone t := by
  have hsafe : Scheduled Safe db := scheduled_run stable_safe hrun (admits_safe []) fun _ _ => admits_safe _
  have hdone : ∀ t ∈ db.tasks, t.state = .ready ∨ t.state = .running ∨ t.state = .done → db.PrerequisitesDone t :=
    fun t ht hst => (prerequisitesDone_iff t).mpr ((hsafe t ht).1 hst)
  refine ⟨hdone, fun workerType streamRank taskRank now db' work h => ?_⟩
  unfold requestWork at h
  split at h
  · cases h
  · next selected hsel =>
    cases h
    obtain ⟨hmem, hready⟩ := selectWork_some hsel
    exact ⟨selected, hmem, rfl, rfl, hdone selected hmem (.inl hready)⟩

/-- In every run without repeated prerequisites the counters are exact, pending rows
are those that wait, and the maintenance finds nothing to repair. -/
theorem no_stuck_task {history : List (Op R × Outcome)} (hrun : Run history db)
    (hnodup : ∀ x ∈ history, x.1.prerequisites.Nodup) : (∀ t ∈ db.tasks, t.state ≠ .failed →
      t.waitingOn = t.prerequisites.countP (fun p => !db.isDone t.jobId p) ∧
      (t.state = .pending ↔ 0 < t.waitingOn)) ∧
    checkStuckPendingTasks db = [] ∧ ∀ now, fixStuckPendingTasks now db = (db, 0) := by
  have hexact : Scheduled Exact db :=
    scheduled_run stable_exact hrun (admits_exact List.nodup_nil) fun x hx => admits_exact (hnodup x hx)
  have hnone : checkStuckPendingTasks db = [] := by
    refine List.filter_eq_nil_iff.mpr fun st hst hready => ?_
    obtain ⟨t, ht, rfl⟩ := List.mem_map.mp hst
    obtain ⟨ht, hpending⟩ := List.mem_filter.mp ht
    have hstate := of_decide_eq_true hpending
    have hall := isDone_of_shouldBeReady (linked_run hrun) ht hready
    obtain ⟨hw, hiff⟩ := (hexact t ht).2 (by simp [hstate])
    have hzero := unfinished_eq_zero.mpr hall
    have hpos := hiff.mp hstate
    omega
  refine ⟨fun t ht hfailed => (hexact t ht).2 hfailed, hnone, fun now => ?_⟩
  have hp : ∀ t ∈ db.tasks, ¬ decide (t.state = .pending ∧
      (checkStuckPendingTasks db).any fun st => t.is st.jobId st.taskId) := by
    intro t _ h
    rw [hnone] at h
    simp at h
  rw [fixStuckPendingTasks, Db.updateTasks, updateWhere_of_none _ _ _ hp, changedRows_of_none _ _ _ hp,
    List.countP_eq_zero.mpr hp]
  rfl

/-- The first task of the sample job runs and completes, then the second is handed out. -/
def sampleWork : List (Op (WithTop ℚ) × Outcome) :=
  sampleJob ++
    [(.createTask 2 "prove" 1 "" [initTask] 0 100 1, .done),
     (.updateTaskDone 2 initTask "" 2, .updated true)]

def sampleWorkDb : Db (WithTop ℚ) :=
  (updateTaskDone 2 initTask "" 2
    { sampleJobDb with
      tasks := sampleJobDb.tasks ++
        [{ newTask 2 "prove" 1 "" [initTask] 0 100 .pending 1 with waitingOn := 1 }]
      taskDeps := [⟨2, initTask, "prove"⟩] }).1

theorem sampleWork_run : Run sampleWork sampleWorkDb := by
  refine (replay_append _ _ _ _).mpr ⟨sampleJobDb, sampleJob_run, _, rfl, _, rfl, rfl⟩

theorem dependency_safety_sample :
    ∃ t ∈ sampleWorkDb.tasks, t.taskId = "prove" ∧ t.state = .ready ∧ sampleWorkDb.PrerequisitesDone t := by
  have hready : ∃ t ∈ sampleWorkDb.tasks, t.taskId = "prove" ∧ t.state = .ready := by decide
  obtain ⟨t, ht, hid, hstate⟩ := hready
  exact ⟨t, ht, hid, hstate, (dependency_safety sampleWork_run).1 t ht (.inl hstate)⟩

theorem no_stuck_task_sample : fixStuckPendingTasks 3 sampleWorkDb = (sampleWorkDb, 0) :=
  (no_stuck_task sampleWork_run (by decide)).2.2 3

end VerifiableCompute.TaskDb
