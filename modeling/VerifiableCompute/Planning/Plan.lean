import VerifiableCompute.Lib.Checked

/-! The planner of proof tasks. Segments and keccak batches arrive one by one; two
stacks of peaks are merged like binary counters, and `finish` collapses each stack
to one root under a final task. Heights are natural numbers: one that needs more
than 32 bits would need more tasks than a machine word can count. -/

namespace VerifiableCompute.Planning

open Lib

inductive Command where
  | keccak
  | finalize
  | join
  | segment
  | union
  deriving DecidableEq

structure Task where
  taskNumber : ℕ
  taskHeight : ℕ
  command : Command
  dependsOn : List ℕ
  keccakDependsOn : List ℕ

namespace Task

def newKeccak (taskNumber : ℕ) : Task := ⟨taskNumber, 0, .keccak, [], []⟩

def newSegment (taskNumber : ℕ) : Task := ⟨taskNumber, 0, .segment, [], []⟩

def newJoin (taskNumber taskHeight left right : ℕ) : Task := ⟨taskNumber, taskHeight, .join, [left, right], []⟩

def newUnion (taskNumber taskHeight left right : ℕ) : Task := ⟨taskNumber, taskHeight, .union, [], [left, right]⟩

def newFinalize (taskNumber taskHeight dependsOn : ℕ) (keccakDependsOn : Option (List ℕ)) : Task :=
  ⟨taskNumber, taskHeight, .finalize, [dependsOn], keccakDependsOn.getD []⟩

end Task

/-- A call returns an error of the planner, or it panics. -/
inductive Fault where
  | planNotStarted
  | planFinalized
  | panic
  deriving DecidableEq

/-- `peaks` and `keccakPeaks` run from the front to the back. -/
structure Planner where
  tasks : List Task
  peaks : List ℕ
  keccakPeaks : List ℕ
  lastTask : Option ℕ

def Planner.default : Planner := ⟨[], [], [], none⟩

/-- What sets the tree of joins apart from the tree of unions. -/
structure Family where
  leafCommand : Command
  nodeCommand : Command
  newLeaf : ℕ → Task
  newNode : ℕ → ℕ → ℕ → ℕ → Task
  children : Task → List ℕ

def joins : Family := ⟨.segment, .join, .newSegment, .newJoin, Task.dependsOn⟩

def unions : Family := ⟨.keccak, .union, .newKeccak, .newUnion, Task.keccakDependsOn⟩

def getTask (tasks : List Task) (taskNumber : ℕ) : Except Fault Task :=
  match tasks[taskNumber]? with
  | some task => .ok task
  | none => .error .panic

def enqueuePair (fam : Family) (left right : ℕ) (tasks : List Task) : Except Fault (ℕ × List Task) := do
  let l ← getTask tasks left
  let r ← getTask tasks right
  return (tasks.length, tasks ++ [fam.newNode tasks.length (1 + max l.taskHeight r.taskHeight) left right])

def enqueueJoin := enqueuePair joins

def enqueueUnion := enqueuePair unions

/-- The merging loop. The peaks are listed from the back. -/
def mergePeaks (enqueue : ℕ → ℕ → List Task → Except Fault (ℕ × List Task)) :
    List ℕ → ℕ → List Task → Except Fault (List ℕ × ℕ × List Task)
  | [], newPeak, tasks => .ok ([], newPeak, tasks)
  | smallestPeak :: peaks, newPeak, tasks => do
    let new ← getTask tasks newPeak
    let smallest ← getTask tasks smallestPeak
    match compare new.taskHeight smallest.taskHeight with
    | .lt => return (smallestPeak :: peaks, newPeak, tasks)
    | .eq => do
      let (newPeak, tasks) ← enqueue smallestPeak newPeak tasks
      mergePeaks enqueue peaks newPeak tasks
    | .gt => .error .panic

def enqueueLeaf (fam : Family) (enqueue : ℕ → ℕ → List Task → Except Fault (ℕ × List Task)) (peaks : List ℕ)
    (tasks : List Task) : Except Fault (List ℕ × List Task) := do
  let (rest, newPeak, tasks) ← mergePeaks enqueue peaks.reverse tasks.length (tasks ++ [fam.newLeaf tasks.length])
  return (rest.reverse ++ [newPeak], tasks)

def enqueueSegment (p : Planner) : Except Fault (ℕ × Planner) :=
  if p.lastTask.isSome then .error .planFinalized
  else do
    let (peaks, tasks) ← enqueueLeaf joins enqueueJoin p.peaks p.tasks
    return (p.tasks.length, { p with peaks := peaks, tasks := tasks })

def enqueueKeccak (p : Planner) : Except Fault (ℕ × Planner) :=
  if p.lastTask.isSome then .error .planFinalized
  else do
    let (keccakPeaks, tasks) ← enqueueLeaf unions enqueueUnion p.keccakPeaks p.tasks
    return (p.tasks.length, { p with keccakPeaks := keccakPeaks, tasks := tasks })

/-- The collapsing loop: the end that is popped first stays on top. -/
def collapse (enqueue : ℕ → ℕ → List Task → Except Fault (ℕ × List Task)) :
    ℕ → List ℕ → List Task → Except Fault (ℕ × List Task)
  | top, [], tasks => .ok (top, tasks)
  | top, next :: rest, tasks => do
    let (top, tasks) ← enqueue next top tasks
    collapse enqueue top rest tasks

/-- Keccak peaks are popped from the front. -/
def finishUnions (p : Planner) : Except Fault (Option (List ℕ) × Planner) :=
  match p.keccakPeaks with
  | [] => .ok (none, p)
  | front :: rest => do
    let (peak, tasks) ← collapse enqueueUnion front rest p.tasks
    return (some [peak], { p with keccakPeaks := [peak], tasks := tasks })

def enqueueFinalize (dependsOn : ℕ) (keccakDependsOn : Option (List ℕ)) (tasks : List Task) :
    Except Fault (ℕ × List Task) := do
  let segments ← getTask tasks dependsOn
  let highestPeak := keccakDependsOn.bind List.max?
  let taskHeight ← match highestPeak with
    | none => pure (1 + segments.taskHeight)
    | some peak => do
      let keccaks ← getTask tasks peak
      pure (max (1 + segments.taskHeight) (1 + keccaks.taskHeight))
  return (tasks.length, tasks ++ [.newFinalize tasks.length taskHeight dependsOn keccakDependsOn])

/-- Segment peaks are popped from the back. -/
def finish (p : Planner) : Except Fault (ℕ × Planner) :=
  if p.peaks = [] then .error .planNotStarted
  else do
    let (keccakDependsOn, p) ← finishUnions p
    match p.lastTask, p.peaks.reverse with
    | some last, _ => return (last, p)
    | none, [] => .error .panic
    | none, back :: rest => do
      let (peak, tasks) ← collapse enqueueJoin back rest p.tasks
      let (last, tasks) ← enqueueFinalize peak keccakDependsOn tasks
      return (last, { p with peaks := [peak], tasks := tasks, lastTask := some last })

inductive Enqueue where
  | segment
  | keccak
  deriving DecidableEq

def Enqueue.call : Enqueue → Planner → Except Fault (ℕ × Planner)
  | .segment => enqueueSegment
  | .keccak => enqueueKeccak

/-- The calls in order. -/
def enqueueAll : List Enqueue → Planner → Except Fault Planner
  | [], p => .ok p
  | call :: calls, p => do
    let (_, p) ← call.call p
    enqueueAll calls p

/-- A whole plan: the number of the final task and the tasks. -/
def plan (calls : List Enqueue) : Except Fault (ℕ × Planner) := do
  let p ← enqueueAll calls .default
  finish p

/-- Three keccak batches and a segment, as the tests of the planner have them. -/
example : (plan [.keccak, .keccak, .keccak, .segment]).map (fun x => x.2.tasks.map fun t => (t.command, t.taskHeight)) =
    .ok [(.keccak, 0), (.keccak, 0), (.union, 1), (.keccak, 0), (.segment, 0), (.union, 2), (.finalize, 3)] := by
  decide

end VerifiableCompute.Planning
