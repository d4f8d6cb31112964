import VerifiableCompute.Lib.Table

/-! The tables of the task database: streams, jobs, tasks and the dependencies
between tasks, and the row trigger that maintains the counters of a stream. -/

namespace VerifiableCompute.TaskDb

open Lib

abbrev Uuid := ℕ

/-- A JSON value by its text. -/
abbrev Jsonb := String

/-- Microseconds. -/
abbrev Timestamp := ℤ

/-- What the database needs of its single-precision numbers. -/
class SqlReal (R : Type) extends LinearOrder R where
  infinity : R
  ofInt : ℤ → R
  mul : R → R → R
  div : R → R → R

inductive JobState where
  | running
  | done
  | failed
  deriving DecidableEq

inductive TaskState where
  | pending
  | ready
  | running
  | done
  | failed
  deriving DecidableEq

structure Stream (R : Type) where
  id : Uuid
  workerType : String
  reserved : ℤ
  beMult : R
  userId : String
  running : ℤ
  ready : ℤ

structure Job where
  id : Uuid
  state : JobState
  error : Option String
  userId : String
  reported : Bool

structure Task (R : Type) where
  jobId : Uuid
  taskId : String
  streamId : Uuid
  taskDef : Jsonb
  prerequisites : List String
  state : TaskState
  createdAt : Timestamp
  startedAt : Option Timestamp
  updatedAt : Option Timestamp
  waitingOn : ℤ
  progress : R
  retries : ℤ
  maxRetries : ℤ
  timeoutSecs : ℤ
  output : Option Jsonb
  error : Option String

structure TaskDep where
  jobId : Uuid
  preTaskId : String
  postTaskId : String

structure Db (R : Type) where
  streams : List (Stream R)
  jobs : List Job
  tasks : List (Task R)
  taskDeps : List TaskDep

def Db.initial (R : Type) : Db R := ⟨[], [], [], []⟩

variable {R : Type}

/-- The generated column: infinite without ready tasks, negative within the reserve. -/
def Stream.priority [SqlReal R] (s : Stream R) : R :=
  if s.ready = 0 then SqlReal.infinity
  else if s.running ≥ s.reserved then SqlReal.div (SqlReal.ofInt (s.running - s.reserved)) s.beMult
  else SqlReal.div (SqlReal.mul (SqlReal.ofInt (s.running - s.reserved)) (SqlReal.ofInt 1)) (SqlReal.ofInt s.reserved)

def Task.key (t : Task R) : Uuid × String := (t.jobId, t.taskId)

def Task.is (jobId : Uuid) (taskId : String) (t : Task R) : Bool := t.jobId = jobId ∧ t.taskId = taskId

def Task.isLive (t : Task R) : Bool := t.state = .ready ∨ t.state = .running

/-- The change of one counter by a row that was `old` and is `new`. -/
def stateDelta (st : TaskState) (old new : Option (Task R)) : ℤ :=
  (if old.map Task.state = some st then -1 else 0) + (if new.map Task.state = some st then 1 else 0)

/-- The trigger after the insertion or the update of one row. -/
def maintStreams (old new : Option (Task R)) (streams : List (Stream R)) : List (Stream R) :=
  let streamId := (new <|> old).map Task.streamId
  let deltaReady := stateDelta .ready old new
  let deltaRunning := stateDelta .running old new
  if deltaReady ≠ 0 ∨ deltaRunning ≠ 0 then
    updateWhere (fun s => some s.id = streamId)
      (fun s => { s with ready := max (s.ready + deltaReady) 0, running := max (s.running + deltaRunning) 0 }) streams
  else streams

namespace Db

/-- `UPDATE tasks`: the rows change first, then the trigger fires for each of them. -/
def updateTasks (p : Task R → Bool) (f : Task R → Task R) (db : Db R) : Db R :=
  { db with
    tasks := updateWhere p f db.tasks
    streams := (changedRows p f db.tasks).foldl (fun streams x => maintStreams (some x.1) (some x.2) streams) db.streams }

/-- `UPDATE jobs`. No trigger watches the jobs. -/
def updateJobs (p : Job → Bool) (f : Job → Job) (db : Db R) : Db R :=
  { db with jobs := updateWhere p f db.jobs }

end Db

/-- Why a call is rolled back. -/
inductive TaskDbErr where
  | invalidBeMult
  | uniqueViolation
  | foreignKeyViolation
  | negativeLimit

/-- `INSERT INTO tasks`, with its primary key and its foreign keys. -/
def Db.insertTask (t : Task R) (db : Db R) : Except TaskDbErr (Db R) :=
  if db.tasks.any (Task.is t.jobId t.taskId) then .error .uniqueViolation
  else if (db.jobs.any fun j => j.id = t.jobId) ∧ (db.streams.any fun s => s.id = t.streamId) then
    .ok { db with tasks := db.tasks ++ [t], streams := maintStreams none (some t) db.streams }
  else .error .foreignKeyViolation

/-! The operations of the task database, as the last migration leaves them. Each
runs as one transaction: it returns a new database and a result, or it is rolled
back with an error. What the database takes from its surroundings is an argument:
the clock, fresh identifiers, and the order in which rows are delivered where a
query leaves it open. -/

structure ReadyTask where
  jobId : Uuid
  taskId : String
  taskDef : Jsonb
  prereqs : Jsonb
  maxRetries : ℤ

structure StuckTaskInfo where
  jobId : Uuid
  taskId : String
  waitingOn : ℤ
  actualDeps : ℕ
  completedDeps : ℕ
  shouldBeReady : Bool

variable {R : Type}

def createStream [SqlReal R] (newId : Uuid) (workerType : String) (reserved : ℤ) (beMult : R) (userId : String)
    (db : Db R) : Except TaskDbErr (Db R) :=
  if beMult = SqlReal.ofInt 0 then .error .invalidBeMult
  else if db.streams.any fun s => s.id = newId then .error .uniqueViolation
  else .ok { db with streams := db.streams ++ [⟨newId, workerType, reserved, beMult, userId, 0, 0⟩] }

/-- A row with the defaults of the table. -/
def newTask [SqlReal R] (jobId : Uuid) (taskId : String) (streamId : Uuid) (taskDef : Jsonb)
    (prerequisites : List String) (maxRetries timeoutSecs : ℤ) (state : TaskState) (now : Timestamp) : Task R where
  jobId := jobId
  taskId := taskId
  streamId := streamId
  taskDef := taskDef
  prerequisites := prerequisites
  state := state
  createdAt := now
  startedAt := none
  updatedAt := none
  waitingOn := 0
  progress := SqlReal.ofInt 0
  retries := 0
  maxRetries := maxRetries
  timeoutSecs := timeoutSecs
  output := none
  error := none

def initTask : String := "init"

def createJob [SqlReal R] (newId streamId : Uuid) (taskDef : Jsonb) (maxRetries timeoutSecs : ℤ) (userId : String)
    (now : Timestamp) (db : Db R) : Except TaskDbErr (Db R) :=
  if db.jobs.any fun j => j.id = newId then .error .uniqueViolation
  else Db.insertTask (newTask newId initTask streamId taskDef [] maxRetries timeoutSecs .ready now)
    { db with jobs := db.jobs ++ [⟨newId, .running, none, userId, false⟩] }

def Db.insertDeps (deps : List TaskDep) (db : Db R) : Except TaskDbErr (Db R) :=
  if deps.all fun d => (db.jobs.any fun j => j.id = d.jobId) ∧ db.tasks.any (Task.is d.jobId d.preTaskId) ∧
      db.tasks.any (Task.is d.jobId d.postTaskId) then
    .ok { db with taskDeps := db.taskDeps ++ deps }
  else .error .foreignKeyViolation

/-- The dependencies that one task waits on. -/
def Db.depsOf (jobId : Uuid) (taskId : String) (db : Db R) : List TaskDep :=
  db.taskDeps.filter fun d => d.jobId = jobId ∧ d.postTaskId = taskId

/-- The rows of the join of dependencies and tasks that are not done. -/
def Db.notDoneCount (jobId : Uuid) (taskId : String) (db : Db R) : ℕ :=
  ((db.depsOf jobId taskId).map fun d =>
    db.tasks.countP fun t => t.is jobId d.preTaskId ∧ t.state ≠ .done).sum

def createTask [SqlReal R] (jobId : Uuid) (taskId : String) (streamId : Uuid) (taskDef : Jsonb)
    (prerequisites : List String) (maxRetries timeoutSecs : ℤ) (now : Timestamp) (db : Db R) :
    Except TaskDbErr (Db R) := do
  let db ← db.insertTask
    (newTask jobId taskId streamId taskDef prerequisites maxRetries timeoutSecs .pending now)
  let db ← db.insertDeps (prerequisites.map fun value => ⟨jobId, value, taskId⟩)
  let notDoneCount := db.notDoneCount jobId taskId
  return db.updateTasks (Task.is jobId taskId) fun t =>
    { t with waitingOn := notDoneCount, state := if notDoneCount = 0 then .ready else .pending }

/-- `ORDER BY priority, reserved DESC`. -/
def Stream.before [SqlReal R] (s s' : Stream R) : Bool :=
  s.priority < s'.priority ∨ s.priority = s'.priority ∧ s.reserved > s'.reserved

section

variable [SqlReal R] (workerType : String) (streamRank : Uuid → ℕ) (taskRank : Uuid × String → ℕ)

/-- The stream to serve and the task to start on it. -/
def selectWork (db : Db R) : Option (Task R) :=
  match firstBy Stream.before
    (scan streamRank Stream.id (db.streams.filter fun s => s.workerType = workerType)) with
  | none => none
  | some stream => firstBy (fun t t' => t.createdAt < t'.createdAt)
      (scan taskRank Task.key (db.tasks.filter fun t => t.streamId = stream.id ∧ t.state = .ready))

def requestWork (now : Timestamp) (db : Db R) : Db R × Option ReadyTask :=
  match selectWork workerType streamRank taskRank db with
  | none => (db, none)
  | some selected =>
    (db.updateTasks (Task.is selected.jobId selected.taskId)
      fun t => { t with state := .running, startedAt := some now },
      some ⟨selected.jobId, selected.taskId, selected.taskDef, "[]", selected.maxRetries⟩)

end

/-- The unfinished rows that a completion of the task concerns, once for every
dependency, as they stand before any of them is rewritten. -/
def Db.childTasks (jobId : Uuid) (taskId : String) (db : Db R) : List (Task R) :=
  (db.tasks.filter fun t => t.jobId = jobId ∧ t.state ≠ .failed).flatMap fun t =>
    (db.taskDeps.filter fun d => d.jobId = t.jobId ∧ d.postTaskId = t.taskId ∧ d.jobId = jobId ∧
      d.preTaskId = taskId).map fun _ => t

/-- A row that joins several source rows is rewritten once, by one of them. -/
def Db.releaseChildren (jobId : Uuid) (taskId : String) (db : Db R) : Db R :=
  let child (t : Task R) := (db.childTasks jobId taskId).find? fun c => c.is t.jobId t.taskId
  db.updateTasks (fun t => (child t).isSome) fun t =>
    match child t with
    | none => t
    | some c => { t with waitingOn := c.waitingOn - 1, state := if c.waitingOn - 1 ≤ 0 then .ready else .pending }

section

variable [SqlReal R] (jobId : Uuid) (taskId : String)

def updateTaskDone (output : Jsonb) (now : Timestamp) (db : Db R) : Db R × Bool :=
  let p (t : Task R) : Bool := t.is jobId taskId ∧ t.isLive
  let finished := db.updateTasks p fun t =>
    { t with state := .done, output := some output, updatedAt := some now, progress := SqlReal.ofInt 1 }
  if db.tasks.any p then
    let released := finished.releaseChildren jobId taskId
    let unresolved := released.tasks.countP fun t => t.jobId = jobId ∧ t.state ≠ .done
    (if unresolved = 0 then released.updateJobs (fun j => j.id = jobId) fun j => { j with state := .done }
      else released, true)
  else (finished, false)

def updateTaskFailed (error : String) (now : Timestamp) (db : Db R) : Db R × Bool :=
  let p (t : Task R) : Bool := t.is jobId taskId ∧ (t.isLive ∨ t.state = .pending)
  let failed := db.updateTasks p fun t =>
    { t with state := .failed, error := some error, progress := SqlReal.ofInt 1, updatedAt := some now }
  if db.tasks.any p then
    (failed.updateJobs (fun j => j.id = jobId ∧ j.state ≠ .failed)
      fun j => { j with state := .failed, error := some error }, true)
  else (failed, false)

def updateTaskProgress (progress : R) (now : Timestamp) (db : Db R) : Db R × Bool :=
  let p (t : Task R) : Bool := t.is jobId taskId ∧ t.isLive
  (db.updateTasks p fun t => { t with updatedAt := some now, progress := max t.progress progress }, db.tasks.any p)

def updateTaskRetry (now : Timestamp) (db : Db R) : Db R × Bool :=
  let p (t : Task R) : Bool := t.is jobId taskId ∧ t.state = .running
  let retried := db.updateTasks p fun t =>
    { t with
      updatedAt := some now, retries := t.retries + 1, progress := SqlReal.ofInt 0, state := .ready, error := some "" }
  match db.tasks.find? p with
  | none => (retried, false)
  | some t =>
    if t.retries + 1 > t.maxRetries then
      ((updateTaskFailed jobId taskId "retry max hit" now retried).1, false)
    else (retried, true)

end

/-- `GREATEST` passes over nulls. -/
def greatest : Option Timestamp → Option Timestamp → Option Timestamp
  | some a, some b => some (max a b)
  | none, b => b
  | a, none => a

def Task.isTimedOut (now : Timestamp) (t : Task R) : Bool :=
  t.state = .running ∧
    (greatest t.startedAt t.updatedAt).any fun last => t.timeoutSecs * 1000000 < now - last

def requeueTasks [SqlReal R] (limit : ℤ) (rank : Uuid × String → ℕ) (now : Timestamp) (db : Db R) :
    Except TaskDbErr (Db R × ℕ) :=
  if limit < 0 then .error .negativeLimit
  else
    let timedOut := (scan rank Task.key (db.tasks.filter (Task.isTimedOut now))).take limit.toNat
    .ok (timedOut.foldl (fun db elm => (updateTaskRetry elm.jobId elm.taskId now db).1) db, timedOut.length)

def Db.stuckTaskInfo (db : Db R) (t : Task R) : StuckTaskInfo :=
  let joined := leftJoin (fun d => db.tasks.filter (Task.is d.jobId d.preTaskId)) (db.depsOf t.jobId t.taskId)
  let actualDeps := joined.length
  let completedDeps := joined.countP fun x => x.2.map Task.state = some .done
  ⟨t.jobId, t.taskId, t.waitingOn, actualDeps, completedDeps, actualDeps = 0 ∨ actualDeps = completedDeps⟩

def checkStuckPendingTasks (db : Db R) : List StuckTaskInfo :=
  ((db.tasks.filter fun t => t.state = .pending).map db.stuckTaskInfo).filter StuckTaskInfo.shouldBeReady

def fixStuckPendingTasks (now : Timestamp) (db : Db R) : Db R × ℕ :=
  let p (t : Task R) : Bool := t.state = .pending ∧
    (checkStuckPendingTasks db).any fun st => t.is st.jobId st.taskId
  (db.updateTasks p fun t => { t with state := .ready, waitingOn := 0, updatedAt := some now }, db.tasks.countP p)

/-- Removes the dependencies and the tasks of the jobs. No trigger watches deletions. -/
def Db.deleteTasks (gone : Uuid → Bool) (db : Db R) : Db R :=
  { db with
    taskDeps := db.taskDeps.filter fun d => !gone d.jobId
    tasks := db.tasks.filter fun t => !gone t.jobId }

def Db.isDoneJob (db : Db R) (jobId : Uuid) : Bool := db.jobs.any fun j => j.id = jobId ∧ j.state = .done

def clearCompletedJobs (db : Db R) : Db R × ℕ :=
  let totalCleared := db.jobs.countP fun j => j.state = .done
  let cleared := db.deleteTasks db.isDoneJob
  ({ cleared with
     streams := cleared.streams.filter fun s => s.id ∈ cleared.tasks.map Task.streamId
     jobs := cleared.jobs.filter fun j => j.state ≠ .done }, totalCleared)

def deleteJob (jobId : Uuid) (db : Db R) : Db R :=
  let deleted := db.deleteTasks fun j => j = jobId
  { deleted with jobs := deleted.jobs.filter fun j => j.id ≠ jobId }

inductive Op (R : Type) where
  | createStream (newId : Uuid) (workerType : String) (reserved : ℤ) (beMult : R) (userId : String)
  | createJob (newId streamId : Uuid) (taskDef : Jsonb) (maxRetries timeoutSecs : ℤ) (userId : String)
      (now : Timestamp)
  | createTask (jobId : Uuid) (taskId : String) (streamId : Uuid) (taskDef : Jsonb) (prerequisites : List String)
      (maxRetries timeoutSecs : ℤ) (now : Timestamp)
  | requestWork (workerType : String) (streamRank : Uuid → ℕ) (taskRank : Uuid × String → ℕ) (now : Timestamp)
  | updateTaskDone (jobId : Uuid) (taskId : String) (output : Jsonb) (now : Timestamp)
  | updateTaskFailed (jobId : Uuid) (taskId : String) (error : String) (now : Timestamp)
  | updateTaskProgress (jobId : Uuid) (taskId : String) (progress : R) (now : Timestamp)
  | updateTaskRetry (jobId : Uuid) (taskId : String) (now : Timestamp)
  | requeueTasks (limit : ℤ) (rank : Uuid × String → ℕ) (now : Timestamp)
  | fixStuckPendingTasks (now : Timestamp)
  | clearCompletedJobs
  | deleteJob (jobId : Uuid)

inductive Outcome where
  | done
  | created (id : Uuid)
  | work (task : Option ReadyTask)
  | updated (found : Bool)
  | count (n : ℕ)

def act [SqlReal R] : Op R → Db R → Except TaskDbErr (Db R × Outcome)
  | .createStream newId workerType reserved beMult userId, db => do
    return (← createStream newId workerType reserved beMult userId db, .created newId)
  | .createJob newId streamId taskDef maxRetries timeoutSecs userId now, db => do
    return (← createJob newId streamId taskDef maxRetries timeoutSecs userId now db, .created newId)
  | .createTask jobId taskId streamId taskDef prerequisites maxRetries timeoutSecs now, db => do
    return (← createTask jobId taskId streamId taskDef prerequisites maxRetries timeoutSecs now db, .done)
  | .requestWork workerType streamRank taskRank now, db =>
    let (db, task) := requestWork workerType streamRank taskRank now db
    .ok (db, .work task)
  | .updateTaskDone jobId taskId output now, db =>
    let (db, found) := updateTaskDone jobId taskId output now db
    .ok (db, .updated found)
  | .updateTaskFailed jobId taskId error now, db =>
    let (db, found) := updateTaskFailed jobId taskId error now db
    .ok (db, .updated found)
  | .updateTaskProgress jobId taskId progress now, db =>
    let (db, found) := updateTaskProgress jobId taskId progress now db
    .ok (db, .updated found)
  | .updateTaskRetry jobId taskId now, db =>
    let (db, found) := updateTaskRetry jobId taskId now db
    .ok (db, .updated found)
  | .requeueTasks limit rank now, db => do
    let (db, n) ← requeueTasks limit rank now db
    return (db, .count n)
  | .fixStuckPendingTasks now, db =>
    let (db, n) := fixStuckPendingTasks now db
    .ok (db, .count n)
  | .clearCompletedJobs, db =>
    let (db, n) := clearCompletedJobs db
    .ok (db, .count n)
  | .deleteJob jobId, db => .ok (deleteJob jobId db, .done)

end VerifiableCompute.TaskDb
