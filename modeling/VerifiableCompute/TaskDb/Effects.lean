import VerifiableCompute.Lib.Checked
import VerifiableCompute.Lib.History
import VerifiableCompute.TaskDb.Links

/-! What one operation can do to the tables: it adds a stream or a task, deletes
whole jobs, completes one task, or moves single rows. Every invariant of the
database is derived from this. -/

namespace VerifiableCompute.TaskDb

open Lib Relation List

variable {R : Type}

/-- What a statement outside a completion does to a row. -/
inductive RowMove (done : String → Bool) (t t' : Task R) : Prop where
  | live (old : t.isLive) (new : t'.isLive) (counter : t'.waitingOn = t.waitingOn)
  | fail (old : t.state ≠ .done) (new : t'.state = .failed) (counter : t'.waitingOn = t.waitingOn)
  | repair (old : t.state = .pending) (ready : ∀ p ∈ t.prerequisites, done p) (new : t'.state = .ready)
      (counter : t'.waitingOn = 0)

/-- One statement that moves rows; the jobs may change with it. -/
structure Move (db db' : Db R) : Prop where
  intro ::
  moved : ∃ (p : Task R → Bool) (f : Task R → Task R), KeepsDefinition f ∧
    (∀ t ∈ db.tasks, p t → RowMove (db.isDone t.jobId) t (f t)) ∧ (db.updateTasks p f).SameTasks db'

def completedRow (jobId : Uuid) (taskId : String) (t : Task R) : Bool := t.is jobId taskId ∧ t.isLive

def waitingRow (jobId : Uuid) (taskId : String) (t : Task R) : Bool :=
  t.jobId = jobId ∧ t.state ≠ .failed ∧ taskId ∈ t.prerequisites

/-- A row that one of its prerequisites has left. -/
def released (t : Task R) : Task R :=
  { t with waitingOn := t.waitingOn - 1, state := if t.waitingOn - 1 ≤ 0 then .ready else .pending }

/-- The row of a created task once its prerequisites are counted. -/
def settled (n : ℕ) (t : Task R) : Task R :=
  { t with waitingOn := n, state := if n = 0 then .ready else .pending }

theorem keepsDefinition_released : KeepsDefinition (released (R := R)) :=
  ⟨fun _ => rfl, fun _ => rfl, fun _ => rfl, fun _ => rfl⟩

theorem keepsDefinition_settled (n : ℕ) : KeepsDefinition (settled (R := R) n) :=
  ⟨fun _ => rfl, fun _ => rfl, fun _ => rfl, fun _ => rfl⟩

/-- The prerequisites of a task that is being created. -/
def Op.prerequisites : Op R → List String
  | .createTask _ _ _ _ prerequisites _ _ _ => prerequisites
  | _ => []

def Op.deletes (db : Db R) : Op R → Uuid → Bool
  | .clearCompletedJobs => db.isDoneJob
  | .deleteJob jobId => fun j => j = jobId
  | _ => fun _ => false

/-- The streams that a clearing drops, as no task is left on them. -/
def Op.dropsStream (db : Db R) : Op R → Uuid → Prop
  | .clearCompletedJobs => fun streamId => ∀ t ∈ db.tasks, ¬ db.isDoneJob t.jobId → t.streamId ≠ streamId
  | _ => fun _ => False

inductive Effect (db : Db R) (op : Op R) (db' : Db R) : Prop where
  | addStream (s : Stream R) (fresh : ∀ s' ∈ db.streams, s'.id ≠ s.id) (idle : s.ready = 0 ∧ s.running = 0)
      (same : Db.SameTasks { db with streams := db.streams ++ [s] } db')
  | addJob (t : Task R) (insertable : Insertable t db) (none : t.prerequisites = [])
      (ready : t.state = .ready) (counter : t.waitingOn = 0) (same : (db.withTask t).SameTasks db')
  | addTask (t : Task R) (insertable : Insertable t db) (prerequisites : t.prerequisites = op.prerequisites)
      (pending : t.state = .pending) (exist : ∀ p ∈ t.prerequisites, ∃ u ∈ (db.withTask t).tasks, u.is t.jobId p)
      (same : (Db.updateTasks (Task.is t.jobId t.taskId)
        (settled (Db.notDoneCount t.jobId t.taskId { db.withTask t with taskDeps := db.taskDeps ++ newDeps t }))
        { db.withTask t with taskDeps := db.taskDeps ++ newDeps t }).SameTasks db')
  | moves (chain : ReflTransGen Move db db')
  | completes (jobId : Uuid) (taskId : String) (f : Task R → Task R) (keeps : KeepsDefinition f)
      (done : ∀ t, (f t).state = .done) (counter : ∀ t, (f t).waitingOn = t.waitingOn)
      (exists_live : ∃ u ∈ db.tasks, completedRow jobId taskId u)
      (same : ((db.updateTasks (completedRow jobId taskId) f).updateTasks (waitingRow jobId taskId)
        released).SameTasks db')
  | deletes (keep : Stream R → Bool)
      (kept : ∀ t ∈ db.tasks, ¬ op.deletes db t.jobId → ∀ s ∈ db.streams, s.id = t.streamId → keep s)
      (drops : ∀ s ∈ db.streams, keep s → ¬ op.dropsStream db s.id)
      (same : Db.SameTasks { db.deleteTasks (op.deletes db) with streams := db.streams.filter keep } db')

theorem Db.SameTasks.refl (db : Db R) : db.SameTasks db := ⟨rfl, rfl, rfl⟩

/-- Statements agree when they agree on the rows of the table. -/
theorem updateTasks_congr {db : Db R} {p p' : Task R → Bool} {f f' : Task R → Task R}
    (hp : ∀ t ∈ db.tasks, p t = p' t) (hf : ∀ t ∈ db.tasks, p t → f t = f' t) :
    db.updateTasks p f = db.updateTasks p' f' := by
  have hrows : updateWhere p f db.tasks = updateWhere p' f' db.tasks := by
    refine map_congr_left fun t ht => ?_
    rw [← hp t ht]
    by_cases h : p t
    · simp only [h, if_true, hf t ht h]
    · simp only [h, Bool.false_eq_true, if_false]
  have hchanged : changedRows p f db.tasks = changedRows p' f' db.tasks := by
    unfold changedRows
    rw [← filter_congr hp]
    refine map_congr_left fun t ht => ?_
    obtain ⟨ht, h⟩ := mem_filter.mp ht
    rw [hf t ht h]
  rw [Db.updateTasks, Db.updateTasks, hrows, hchanged]

/-- The rows that the join selects are the waiting rows, each with its own counter. -/
theorem releaseChildren_eq {db : Db R} (h : Linked db) (jobId : Uuid) (taskId : String) :
    db.releaseChildren jobId taskId = db.updateTasks (waitingRow jobId taskId) released := by
  have hchild : ∀ t ∈ db.tasks, ∀ c, (db.childTasks jobId taskId).find? (fun c => c.is t.jobId t.taskId) = some c →
      c = t ∧ c ∈ db.childTasks jobId taskId := by
    intro t ht c hc
    have hmem := mem_of_find?_eq_some hc
    have hcm : c ∈ db.tasks := by
      simp only [Db.childTasks, mem_flatMap, mem_map, mem_filter] at hmem
      obtain ⟨t', ⟨ht', -⟩, d, -, rfl⟩ := hmem
      exact ht'
    have his : c.is t.jobId t.taskId := by simpa using find?_some hc
    exact ⟨h.eq_of_is hcm ht his (Task.is_iff.mpr ⟨rfl, rfl⟩), hmem⟩
  have hmem : ∀ t ∈ db.tasks, t ∈ db.childTasks jobId taskId ↔ waitingRow jobId taskId t := by
    intro t ht
    simp only [waitingRow, h.mem_prerequisites ht, Db.childTasks, mem_flatMap, mem_map, mem_filter,
      decide_eq_true_eq]
    constructor
    · rintro ⟨t', ⟨-, hj, hs⟩, d, ⟨hd, hdj, hdp, -, hpre⟩, rfl⟩
      exact ⟨hj, hs, d, hd, hdj, hdp, hpre⟩
    · rintro ⟨hj, hs, d, hd, hdj, hdp, hpre⟩
      exact ⟨t, ⟨ht, hj, hs⟩, d, ⟨hd, hdj, hdp, hdj.trans hj, hpre⟩, rfl⟩
  refine updateTasks_congr ?_ ?_
  · intro t ht
    rw [Bool.eq_iff_iff, ← hmem t ht, Option.isSome_iff_exists]
    constructor
    · rintro ⟨c, hc⟩
      obtain ⟨rfl, hcm⟩ := hchild t ht c hc
      exact hcm
    · intro htm
      exact Option.isSome_iff_exists.mp (find?_isSome.mpr ⟨t, htm, Task.is_iff.mpr ⟨rfl, rfl⟩⟩)
  · intro t ht hsome
    obtain ⟨c, hc⟩ := Option.isSome_iff_exists.mp hsome
    simp only [hc]
    rw [(hchild t ht c hc).1, released]

theorem move_updateTasks {db : Db R} {p : Task R → Bool} {f : Task R → Task R} (hf : KeepsDefinition f)
    (hrow : ∀ t ∈ db.tasks, p t → RowMove (db.isDone t.jobId) t (f t)) : Move db (db.updateTasks p f) :=
  ⟨p, f, hf, hrow, .refl _⟩

theorem Move.updateJobs {db db' : Db R} (h : Move db db') (p : Job → Bool) (f : Job → Job) :
    Move db (db'.updateJobs p f) := by
  obtain ⟨q, g, hg, hrow, hs, ht, hd⟩ := h
  exact ⟨q, g, hg, hrow, hs, ht, hd⟩

variable {workerType userId : String} {t : Task R} {now : Timestamp} {newId streamId : Uuid} {taskDef : Jsonb} {maxRetries timeoutSecs : ℤ}
  {op : Op R}

theorem selectWork_some [SqlReal R] {streamRank : Uuid → ℕ} {taskRank : Uuid × String → ℕ}
    {db : Db R} (h : selectWork workerType streamRank taskRank db = some t) : t ∈ db.tasks ∧ t.state = .ready := by
  unfold selectWork at h
  split at h
  · cases h
  · have hmem := mem_filter.mp (mem_scan.mp (firstBy_mem h))
    exact ⟨hmem.1, (of_decide_eq_true hmem.2).2⟩

theorem move_requestWork [SqlReal R] {db : Db R} (h : Linked db) (workerType : String) (streamRank : Uuid → ℕ)
    (taskRank : Uuid × String → ℕ) (now : Timestamp) :
    ReflTransGen Move db (requestWork workerType streamRank taskRank now db).1 := by
  unfold requestWork
  split
  · exact .refl
  · next selected hsel =>
    obtain ⟨hmem, hready⟩ := selectWork_some hsel
    refine .single (move_updateTasks ?_ fun t ht his => ?_)
    · exact ⟨fun _ => rfl, fun _ => rfl, fun _ => rfl, fun _ => rfl⟩
    obtain rfl := h.eq_of_is ht hmem his (Task.is_iff.mpr ⟨rfl, rfl⟩)
    exact .live (Task.isLive_iff.mpr (.inl hready)) rfl rfl

section

variable [SqlReal R] (db : Db R) (jobId : Uuid)

theorem move_updateTaskFailed (taskId error : String) (now : Timestamp) :
    Move db (updateTaskFailed jobId taskId error now db).1 := by
  have hfailed : Move db (db.updateTasks (fun t => t.is jobId taskId ∧ (t.isLive ∨ t.state = .pending)) fun t =>
      { t with state := .failed, error := some error, progress := SqlReal.ofInt 1, updatedAt := some now }) := by
    refine move_updateTasks ?_ fun t _ hp => .fail ?_ rfl rfl
    · exact ⟨fun _ => rfl, fun _ => rfl, fun _ => rfl, fun _ => rfl⟩
    intro hdone
    have hstate := (of_decide_eq_true hp).2
    rw [Task.isLive_iff, hdone] at hstate
    rcases hstate with (h | h) | h <;> cases h
  unfold updateTaskFailed
  dsimp only
  split_ifs
  · exact hfailed.updateJobs _ _
  · exact hfailed

theorem move_updateTaskProgress (taskId : String) (progress : R)
    (now : Timestamp) : Move db (updateTaskProgress jobId taskId progress now db).1 := by
  refine move_updateTasks ?_ fun t _ hp => ?_
  · exact ⟨fun _ => rfl, fun _ => rfl, fun _ => rfl, fun _ => rfl⟩
  have hlive := (of_decide_eq_true hp).2
  exact .live hlive hlive rfl

theorem moves_updateTaskRetry (taskId : String) (now : Timestamp) :
    ReflTransGen Move db (updateTaskRetry jobId taskId now db).1 := by
  have hretried : Move db (db.updateTasks (fun t => t.is jobId taskId ∧ t.state = .running) fun t =>
      { t with
        updatedAt := some now, retries := t.retries + 1, progress := SqlReal.ofInt 0, state := .ready,
        error := some "" }) := by
    refine move_updateTasks ?_ fun t _ hp => .live ?_ rfl rfl
    · exact ⟨fun _ => rfl, fun _ => rfl, fun _ => rfl, fun _ => rfl⟩
    · exact Task.isLive_iff.mpr (.inr (of_decide_eq_true hp).2)
  unfold updateTaskRetry
  dsimp only
  split
  · exact .single hretried
  · split_ifs
    · exact (ReflTransGen.single hretried).tail (move_updateTaskFailed _ _ _ _ _)
    · exact .single hretried

end

theorem moves_requeueTasks [SqlReal R] {limit : ℤ} {rank : Uuid × String → ℕ} {db db' : Db R}
    {n : ℕ} (h : requeueTasks limit rank now db = .ok (db', n)) : ReflTransGen Move db db' := by
  have hfold (elms : List (Task R)) (db : Db R) : ReflTransGen Move db
      (elms.foldl (fun db elm => (updateTaskRetry elm.jobId elm.taskId now db).1) db) := by
    induction elms generalizing db with
    | nil => exact .refl
    | cons elm elms ih => exact (moves_updateTaskRetry db elm.jobId elm.taskId now).trans (ih _)
  unfold requeueTasks at h
  split_ifs at h
  cases h
  exact hfold _ db

theorem isDone_of_shouldBeReady {db : Db R} (h : Linked db) (ht : t ∈ db.tasks)
    (hready : (db.stuckTaskInfo t).shouldBeReady) : ∀ p ∈ t.prerequisites, db.isDone t.jobId p := by
  intro p hp
  obtain ⟨d, hd, hj, hpost, rfl⟩ := (h.mem_prerequisites ht p).mp hp
  have hdeps : d ∈ db.depsOf t.jobId t.taskId := mem_filter.mpr ⟨hd, decide_eq_true ⟨hj, hpost⟩⟩
  obtain ⟨o, ho, hpartner⟩ := exists_mem_leftJoin (fun d => db.tasks.filter (Task.is d.jobId d.preTaskId)) hdeps
  have hall : o.map Task.state = some .done := by
    rcases of_decide_eq_true hready with hzero | hcount
    · rw [length_eq_zero_iff.mp hzero] at ho
      cases ho
    · exact of_decide_eq_true (countP_eq_length.mp hcount.symm _ ho)
  obtain ⟨u, rfl, hstate⟩ := Option.map_eq_some_iff.mp hall
  obtain ⟨hu, hui⟩ := mem_filter.mp (hpartner u rfl)
  rw [hj] at hui
  exact Db.isDone_iff.mpr ⟨u, hu, hui, hstate⟩

theorem move_fixStuckPendingTasks {db : Db R} (h : Linked db) (now : Timestamp) :
    Move db (fixStuckPendingTasks now db).1 := by
  refine move_updateTasks ?_ fun t ht hp => ?_
  · exact ⟨fun _ => rfl, fun _ => rfl, fun _ => rfl, fun _ => rfl⟩
  obtain ⟨hpending, hany⟩ := of_decide_eq_true hp
  refine .repair hpending ?_ rfl rfl
  obtain ⟨st, hst, his⟩ := any_eq_true.mp hany
  obtain ⟨hst, hready⟩ := mem_filter.mp hst
  obtain ⟨u, hu, rfl⟩ := mem_map.mp hst
  obtain rfl := h.eq_of_is ht (mem_filter.mp hu).1 his (Task.is_iff.mpr ⟨rfl, rfl⟩)
  exact isDone_of_shouldBeReady h ht hready

variable [SqlReal R] {db db' : Db R}

theorem effect_updateTaskDone (h : Linked db) (jobId : Uuid) (taskId : String) (output : Jsonb) (now : Timestamp)
    (op : Op R) : Effect db op (updateTaskDone jobId taskId output now db).1 := by
  unfold updateTaskDone
  dsimp only
  split_ifs with hany hunresolved
  all_goals
    have hkeeps : KeepsDefinition fun t : Task R =>
        { t with state := .done, output := some output, updatedAt := some now, progress := SqlReal.ofInt 1 } :=
      ⟨fun _ => rfl, fun _ => rfl, fun _ => rfl, fun _ => rfl⟩
  · rw [releaseChildren_eq (h.updateTasks _ hkeeps)]
    exact .completes jobId taskId _ hkeeps (fun _ => rfl) (fun _ => rfl) (any_eq_true.mp hany)
      (Db.sameTasks_updateJobs _ _ _)
  · rw [releaseChildren_eq (h.updateTasks _ hkeeps)]
    exact .completes jobId taskId _ hkeeps (fun _ => rfl) (fun _ => rfl) (any_eq_true.mp hany) (.refl _)
  · refine .moves (.single (move_updateTasks hkeeps fun t ht hp => ?_))
    exact absurd (any_eq_true.mpr ⟨t, ht, hp⟩) hany

theorem effect_createStream {reserved : ℤ} {beMult : R}
    (hok : createStream newId workerType reserved beMult userId db = .ok db') (op : Op R) : Effect db op db' := by
  unfold createStream at hok
  split_ifs at hok with _ hfresh
  cases hok
  refine .addStream ⟨newId, workerType, reserved, beMult, userId, 0, 0⟩ ?_ ⟨rfl, rfl⟩ (.refl _)
  intro s hs hid
  exact hfresh (any_eq_true.mpr ⟨s, hs, decide_eq_true hid⟩)

theorem effect_createJob (hok : createJob newId streamId taskDef maxRetries timeoutSecs userId now db = .ok db')
    (op : Op R) : Effect db op db' := by
  unfold createJob at hok
  split_ifs at hok
  obtain ⟨hinsert, rfl⟩ := insertTask_ok hok
  exact .addJob _ ⟨hinsert.fresh, hinsert.stream⟩ rfl rfl rfl ⟨rfl, rfl, rfl⟩

theorem effect_createTask {jobId : Uuid} {taskId : String} {prerequisites : List String}
    (hok : createTask jobId taskId streamId taskDef prerequisites maxRetries timeoutSecs now db = .ok db') :
    Effect db (.createTask jobId taskId streamId taskDef prerequisites maxRetries timeoutSecs now) db' := by
  simp only [createTask, bind_ok_iff] at hok
  obtain ⟨mid, hmid, deps, hdeps, hok⟩ := hok
  obtain ⟨hinsert, rfl⟩ := insertTask_ok hmid
  obtain ⟨hexist, rfl⟩ := insertDeps_ok hdeps
  cases hok
  refine .addTask _ hinsert rfl rfl (fun p hp => ?_) ⟨rfl, rfl, rfl⟩
  exact hexist ⟨jobId, p, taskId⟩ (mem_map.mpr ⟨p, hp, rfl⟩)

omit [SqlReal R] in
theorem effect_clearCompletedJobs : Effect db .clearCompletedJobs (clearCompletedJobs db).1 := by
  refine .deletes (fun s => s.id ∈ (db.deleteTasks db.isDoneJob).tasks.map Task.streamId) ?_ ?_ ⟨rfl, rfl, rfl⟩
  · intro t ht hgone s _ hs
    refine decide_eq_true (mem_map.mpr ⟨t, mem_filter.mpr ⟨ht, ?_⟩, hs.symm⟩)
    simpa [Op.deletes] using hgone
  · intro s _ hkeep hdrop
    obtain ⟨t, ht, hid⟩ := mem_map.mp (of_decide_eq_true hkeep)
    obtain ⟨ht, hgone⟩ := mem_filter.mp ht
    exact hdrop t ht (by simpa using hgone) hid

omit [SqlReal R] in
theorem effect_deleteJob (jobId : Uuid) : Effect db (.deleteJob jobId) (deleteJob jobId db) :=
  .deletes (fun _ => true) (fun _ _ _ _ _ _ => rfl) (fun _ _ _ h => h)
    ⟨(filter_eq_self.mpr fun _ _ => rfl).symm, rfl, rfl⟩

theorem act_effect (h : Linked db) {o : Outcome} (hok : act op db = .ok (db', o)) : Effect db op db' := by
  cases op with
  | createStream newId workerType reserved beMult userId =>
    simp only [act, bind_ok_iff] at hok
    obtain ⟨_, hok', hok⟩ := hok
    cases hok
    exact effect_createStream hok' _
  | createJob newId streamId taskDef maxRetries timeoutSecs userId now =>
    simp only [act, bind_ok_iff] at hok
    obtain ⟨_, hok', hok⟩ := hok
    cases hok
    exact effect_createJob hok' _
  | createTask jobId taskId streamId taskDef prerequisites maxRetries timeoutSecs now =>
    simp only [act, bind_ok_iff] at hok
    obtain ⟨_, hok', hok⟩ := hok
    cases hok
    exact effect_createTask hok'
  | requestWork workerType streamRank taskRank now =>
    cases hok
    exact .moves (move_requestWork h workerType streamRank taskRank now)
  | updateTaskDone jobId taskId output now =>
    cases hok
    exact effect_updateTaskDone h jobId taskId output now _
  | updateTaskFailed jobId taskId error now =>
    cases hok
    exact .moves (.single (move_updateTaskFailed db jobId taskId error now))
  | updateTaskProgress jobId taskId progress now =>
    cases hok
    exact .moves (.single (move_updateTaskProgress db jobId taskId progress now))
  | updateTaskRetry jobId taskId now =>
    cases hok
    exact .moves (moves_updateTaskRetry db jobId taskId now)
  | requeueTasks limit rank now =>
    simp only [act, bind_ok_iff, Prod.exists] at hok
    obtain ⟨_, n, hok', hok⟩ := hok
    cases hok
    exact .moves (moves_requeueTasks hok')
  | fixStuckPendingTasks now =>
    cases hok
    exact .moves (.single (move_fixStuckPendingTasks h now))
  | clearCompletedJobs =>
    cases hok
    exact effect_clearCompletedJobs
  | deleteJob jobId =>
    cases hok
    exact effect_deleteJob jobId

omit [SqlReal R] in
theorem Linked.move (h : Linked db) (hmove : Move db db') : Linked db' := by
  obtain ⟨p, f, hf, -, hsame⟩ := hmove
  exact (h.updateTasks p hf).of_sameTasks hsame

omit [SqlReal R] in
theorem Linked.effect (h : Linked db) (heffect : Effect db op db') : Linked db' := by
  cases heffect with
  | addStream s fresh idle same =>
    have hadded : Linked { db with streams := db.streams ++ [s] } := by
      refine ⟨h.keys, fun t ht => ?_, h.post, h.deps⟩
      obtain ⟨s', hs', hid⟩ := h.stream t ht
      exact ⟨s', mem_append_left _ hs', hid⟩
    exact hadded.of_sameTasks same
  | addJob t insertable none ready counter same =>
    have hdeps : newDeps t = [] := by rw [newDeps, none, map_nil]
    refine (h.insert insertable).of_sameTasks (Db.SameTasks.mk same.streams same.tasks ?_)
    rw [same.taskDeps, hdeps]
    exact (append_nil _).symm
  | addTask t insertable prerequisites pending exist same =>
    exact ((h.insert insertable).updateTasks _ (keepsDefinition_settled _)).of_sameTasks same
  | moves chain =>
    induction chain with
    | refl => exact h
    | tail _ hmove ih => exact ih.move hmove
  | completes jobId taskId f keeps done counter exists_live same =>
    exact ((h.updateTasks _ keeps).updateTasks _ keepsDefinition_released).of_sameTasks same
  | deletes keep kept drops same =>
    refine (h.delete _ fun t ht hgone => ?_).of_sameTasks same
    obtain ⟨s, hs, hid⟩ := h.stream t ht
    exact ⟨s, mem_filter.mpr ⟨hs, kept t ht hgone s hs hid⟩, hid⟩

/-- A run: the operations that were not rolled back, with their results. -/
abbrev Run (history : List (Op R × Outcome)) (db : Db R) : Prop := Replay act (Db.initial R) history db

theorem linked_run {history : List (Op R × Outcome)} (h : Run history db) : Linked db :=
  replay_invariant linked_initial (fun _ _ _ _ hl hok => hl.effect (act_effect hl hok)) h

end VerifiableCompute.TaskDb
