import VerifiableCompute.TaskDb.Effects

/-! The counters of a stream. The trigger moves them with every inserted and every
updated row, so they count the ready and the running tasks as long as only rows
that are in neither state are deleted; deletions are not watched, and a deleted
ready task is counted for ever. -/

namespace VerifiableCompute.TaskDb

open Lib Relation List

variable {R : Type} {db db' : Db R}

def counted (streamId : Uuid) (st : TaskState) (t : Task R) : Bool := t.streamId = streamId ∧ t.state = st

/-- Every stream knows how many of its tasks are ready and how many are running. -/
def Db.Counts (db : Db R) : Prop :=
  ∀ s ∈ db.streams, s.ready = db.tasks.countP (counted s.id .ready) ∧
    s.running = db.tasks.countP (counted s.id .running)

/-- The trigger acts on one stream. -/
def touchStream (old new : Option (Task R)) (s : Stream R) : Stream R :=
  if stateDelta .ready old new ≠ 0 ∨ stateDelta .running old new ≠ 0 then
    if some s.id = (new <|> old).map Task.streamId then
      { s with
        ready := max (s.ready + stateDelta .ready old new) 0
        running := max (s.running + stateDelta .running old new) 0 }
    else s
  else s

theorem maintStreams_eq (old new : Option (Task R)) (streams : List (Stream R)) :
    maintStreams old new streams = streams.map (touchStream old new) := by
  unfold maintStreams touchStream updateWhere
  dsimp only
  split_ifs with h
  · refine map_congr_left fun s _ => ?_
    simp only [decide_eq_true_eq]
  · exact (List.map_id _).symm

@[simp] theorem touchStream_id (old new : Option (Task R)) (s : Stream R) : (touchStream old new s).id = s.id := by
  unfold touchStream
  split_ifs <;> rfl

theorem stateDelta_update (st : TaskState) (a b : Task R) (streamId : Uuid) (ha : a.streamId = streamId)
    (hb : b.streamId = streamId) :
    stateDelta st (some a) (some b) = indicator (counted streamId st) b - indicator (counted streamId st) a := by
  simp only [stateDelta, indicator, counted, ha, hb, Option.map_some, Option.some.injEq, true_and,
    decide_eq_true_eq]
  split_ifs <;> rfl

theorem touchStream_update (a b : Task R) (hstream : b.streamId = a.streamId) (s : Stream R) (hready : 0 ≤ s.ready)
    (hrunning : 0 ≤ s.running) :
    (touchStream (some a) (some b) s).ready = moveCounter (counted s.id .ready) s.ready (a, b) ∧
      (touchStream (some a) (some b) s).running = moveCounter (counted s.id .running) s.running (a, b) := by
  by_cases hs : s.id = b.streamId
  · have hdelta (st : TaskState) := stateDelta_update st a b s.id (hstream.symm.trans hs.symm) hs.symm
    have htarget : some s.id = ((some b <|> some a).map Task.streamId) := congrArg some hs
    unfold touchStream moveCounter
    rw [if_pos htarget, hdelta, hdelta]
    split_ifs with hmove
    · exact ⟨rfl, rfl⟩
    · dsimp only
      omega
  · have hzero (st : TaskState) : indicator (counted s.id st) b - indicator (counted s.id st) a = 0 := by
      have ha : ¬ a.streamId = s.id := fun h => hs (h.symm.trans hstream.symm)
      have hb : ¬ b.streamId = s.id := fun h => hs h.symm
      simp [indicator, counted, ha, hb]
    have htarget : ¬ some s.id = ((some b <|> some a).map Task.streamId) := fun h => hs (Option.some.inj h)
    unfold touchStream moveCounter
    rw [if_neg htarget, ite_self]
    dsimp only
    rw [hzero, hzero]
    omega

theorem foldl_touchStream (xs : List (Task R × Task R)) (hstream : ∀ x ∈ xs, x.2.streamId = x.1.streamId)
    (s : Stream R) (hready : 0 ≤ s.ready) (hrunning : 0 ≤ s.running) :
    let s' := xs.foldl (fun s x => touchStream (some x.1) (some x.2) s) s
    s'.id = s.id ∧ s'.ready = xs.foldl (moveCounter (counted s.id .ready)) s.ready ∧
      s'.running = xs.foldl (moveCounter (counted s.id .running)) s.running := by
  induction xs generalizing s with
  | nil => exact ⟨rfl, rfl, rfl⟩
  | cons x xs ih =>
    obtain ⟨hr, hn⟩ := touchStream_update x.1 x.2 (hstream x mem_cons_self) s hready hrunning
    obtain ⟨hid, hready', hrunning'⟩ := ih (fun y hy => hstream y (mem_cons_of_mem _ hy))
      (touchStream (some x.1) (some x.2) s) (by rw [hr]; exact le_max_right _ _) (by rw [hn]; exact le_max_right _ _)
    rw [touchStream_id, hr] at hready'
    rw [touchStream_id, hn] at hrunning'
    exact ⟨hid.trans (touchStream_id _ _ _), hready', hrunning'⟩

theorem Db.Counts.of_sameTasks (h : db.Counts) (hsame : db.SameTasks db') : db'.Counts := by
  intro s hs
  rw [hsame.streams] at hs
  rw [hsame.tasks]
  exact h s hs

theorem Db.Counts.updateTasks (h : db.Counts) (p : Task R → Bool) {f : Task R → Task R} (hf : KeepsDefinition f) :
    (db.updateTasks p f).Counts := by
  intro s' hs'
  simp only [Db.updateTasks, maintStreams_eq, foldl_map_comm] at hs'
  obtain ⟨s, hs, rfl⟩ := List.mem_map.mp hs'
  obtain ⟨hready, hrunning⟩ := h s hs
  have hstream : ∀ x ∈ changedRows p f db.tasks, x.2.streamId = x.1.streamId := by
    intro x hx
    obtain ⟨t, -, rfl⟩ := List.mem_map.mp hx
    exact hf.streamId t
  obtain ⟨hid, hready', hrunning'⟩ := foldl_touchStream (changedRows p f db.tasks) hstream s (by omega) (by omega)
  have hcount (st : TaskState) := foldl_moveCounter (counted s.id st) p f db.tasks 0 le_rfl
  simp only [zero_add] at hcount
  rw [hready, hcount] at hready'
  rw [hrunning, hcount] at hrunning'
  rw [hid, hready', hrunning']
  exact ⟨rfl, rfl⟩

theorem Db.Counts.withTask (h : db.Counts) (t : Task R) : (db.withTask t).Counts := by
  intro s' hs'
  simp only [Db.withTask, maintStreams_eq] at hs'
  obtain ⟨s, hs, rfl⟩ := List.mem_map.mp hs'
  obtain ⟨hready, hrunning⟩ := h s hs
  have hcount (st : TaskState) : ((db.withTask t).tasks.countP (counted s.id st) : ℤ) =
      db.tasks.countP (counted s.id st) + if s.id = t.streamId then stateDelta st none (some t) else 0 := by
    rw [Db.withTask, countP_append, countP_singleton, Nat.cast_add]
    congr 1
    simp only [counted, stateDelta, Option.map_none, Option.map_some, Option.some.injEq, decide_eq_true_eq,
      eq_comm (a := t.streamId)]
    split_ifs <;> simp_all
  rw [touchStream_id, hcount, hcount, ← hready, ← hrunning]
  have hdelta (st : TaskState) : 0 ≤ stateDelta st none (some t) := by
    simp only [stateDelta, Option.map_none]
    split_ifs <;> simp_all
  have hr := hdelta .ready
  have hn := hdelta .running
  unfold touchStream
  simp only [Option.some.injEq, Option.map_some, show ((some t <|> none : Option (Task R)) = some t) from rfl]
  split_ifs
  · dsimp only
    omega
  all_goals omega

/-- The deletion removes no ready and no running task of a stream that is left. -/
def Harmless (db : Db R) (op : Op R) : Prop :=
  ∀ t ∈ db.tasks, op.deletes db t.jobId → t.isLive → op.dropsStream db t.streamId

theorem Db.Counts.delete (h : db.Counts) {op : Op R} (hharmless : Harmless db op) (keep : Stream R → Bool)
    (hdrops : ∀ s ∈ db.streams, keep s → ¬ op.dropsStream db s.id) :
    Db.Counts { db.deleteTasks (op.deletes db) with streams := db.streams.filter keep } := by
  intro s hs
  obtain ⟨hs, hkeep⟩ := mem_filter.mp hs
  have hcount (st : TaskState) (hst : st = .ready ∨ st = .running) :
      (db.deleteTasks (op.deletes db)).tasks.countP (counted s.id st) = db.tasks.countP (counted s.id st) := by
    rw [Db.deleteTasks, countP_filter]
    refine countP_congr fun t ht => ?_
    simp only [counted, Bool.and_eq_true, decide_eq_true_eq, Bool.not_eq_true']
    refine ⟨fun h => h.1, fun hc => ⟨hc, ?_⟩⟩
    by_contra hgone
    refine hdrops s hs hkeep (hc.1 ▸ hharmless t ht (by simpa using hgone) (Task.isLive_iff.mpr ?_))
    rw [hc.2]
    exact hst
  rw [hcount _ (.inl rfl), hcount _ (.inr rfl)]
  exact h s hs

theorem Db.Counts.effect (h : db.Counts) (hlinked : Linked db) {op : Op R} (hharmless : Harmless db op)
    (heffect : Effect db op db') : db'.Counts := by
  cases heffect with
  | addStream s fresh idle same =>
    refine Db.Counts.of_sameTasks (fun s' hs' => ?_) same
    rcases mem_append.mp hs' with hs' | hs'
    · exact h s' hs'
    · obtain rfl := mem_singleton.mp hs'
      -- no task refers to a stream that did not exist
      have hnone (st : TaskState) : db.tasks.countP (counted s'.id st) = 0 := by
        refine countP_eq_zero.mpr fun t ht hc => ?_
        obtain ⟨u, hu, hid⟩ := hlinked.stream t ht
        exact fresh u hu (hid.trans (of_decide_eq_true hc).1)
      rw [idle.1, idle.2, hnone, hnone]
      exact ⟨rfl, rfl⟩
  | addJob t insertable none ready counter same => exact (h.withTask t).of_sameTasks same
  | addTask t insertable prerequisites pending exist same =>
    have hinserted : Db.Counts { db.withTask t with taskDeps := db.taskDeps ++ newDeps t } := h.withTask t
    exact (hinserted.updateTasks _ (keepsDefinition_settled _)).of_sameTasks same
  | moves chain =>
    induction chain with
    | refl => exact h
    | tail _ hmove ih =>
      obtain ⟨p, f, hf, -, hsame⟩ := hmove
      exact (ih.updateTasks p hf).of_sameTasks hsame
  | completes jobId taskId f keeps done counter exists_live same =>
    exact ((h.updateTasks _ keeps).updateTasks _ keepsDefinition_released).of_sameTasks same
  | deletes keep kept drops same => exact (h.delete hharmless keep drops).of_sameTasks same

def HarmlessRun [SqlReal R] (history : List (Op R × Outcome)) : Prop :=
  ∀ past op o rest r, history = past ++ (op, o) :: rest → Run past r → Harmless r op

/-- The counters are exact in every run that deletes no ready or running task of a
stream that it leaves. -/
theorem counters_exact [SqlReal R] {history : List (Op R × Outcome)} (hrun : Run history db)
    (hharmless : HarmlessRun history) : db.Counts := by
  refine replay_induction (P := fun history db => HarmlessRun history → db.Counts) ?_ ?_ hrun hharmless
  · intro _ s hs
    cases hs
  · intro past r op o r' hpast ih hok hharmless
    have hlinked := linked_run hpast
    refine Db.Counts.effect (ih ?_) hlinked (hharmless past op o [] r rfl hpast) (act_effect hlinked hok)
    intro past' op' o' rest r'' heq hrun'
    exact hharmless past' op' o' (rest ++ [(op, o)]) r'' (by rw [heq]; simp) hrun'

/-- Rational numbers with an infinity. -/
instance sampleReal : SqlReal (WithTop ℚ) where
  infinity := ⊤
  ofInt n := ((n : ℚ) : WithTop ℚ)
  mul := Option.map₂ (· * ·)
  div := Option.map₂ (· / ·)

/-- A stream and a job on it; the job's first task is ready. -/
def sampleJob : List (Op (WithTop ℚ) × Outcome) :=
  [(.createStream 1 "CPU" 1 (1 : ℚ) "user", .created 1), (.createJob 2 1 "" 0 100 "user" 0, .created 2)]

def sampleJobDb : Db (WithTop ℚ) where
  streams := [⟨1, "CPU", 1, (1 : ℚ), "user", 0, 1⟩]
  jobs := [⟨2, .running, none, "user", false⟩]
  tasks := [newTask 2 initTask 1 "" [] 0 100 .ready 0]
  taskDeps := []

theorem sampleJob_run : Run sampleJob sampleJobDb := ⟨_, rfl, _, rfl, rfl⟩

theorem harmlessRun_snoc [SqlReal R] {history : List (Op R × Outcome)} {op : Op R} {o : Outcome} (h : HarmlessRun history)
    (hop : ∀ r, Run history r → Harmless r op) : HarmlessRun (history ++ [(op, o)]) := by
  intro past op' o' rest r heq hrun
  obtain rfl | ⟨rest, last, rfl⟩ := rest.eq_nil_or_concat'
  · obtain ⟨rfl, hlast⟩ := List.append_inj' heq rfl
    cases hlast
    exact hop r hrun
  · rw [← List.cons_append, ← List.append_assoc] at heq
    obtain ⟨hhistory, -⟩ := List.append_inj' heq rfl
    exact h past op' o' rest r hhistory hrun

/-- A second job is created, and the first one is finished. -/
def finishedJob : List (Op (WithTop ℚ) × Outcome) :=
  sampleJob ++ [(.createJob 3 1 "" 0 100 "user" 1, .created 3)] ++ [(.updateTaskDone 2 initTask "" 2, .updated true)]

def finishedJobDb : Db (WithTop ℚ) where
  streams := [⟨1, "CPU", 1, (1 : ℚ), "user", 0, 1⟩]
  jobs := [⟨2, .done, none, "user", false⟩, ⟨3, .running, none, "user", false⟩]
  tasks := [{ (newTask 2 initTask 1 "" [] 0 100 .done 0 : Task (WithTop ℚ)) with updatedAt := some 2, progress := (1 : ℚ), output := some "" },
    newTask 3 initTask 1 "" [] 0 100 .ready 1]
  taskDeps := []

theorem finishedJob_run : Run finishedJob finishedJobDb := ⟨_, rfl, _, rfl, _, rfl, _, rfl, rfl⟩

theorem finishedJob_harmless : HarmlessRun finishedJob := by
  have hkeeps {op : Op (WithTop ℚ)} (hop : ∀ (db : Db (WithTop ℚ)) (jobId : Uuid), op.deletes db jobId = false) (db : Db (WithTop ℚ)) :
      Harmless db op := fun t _ hdeletes => absurd hdeletes (by rw [hop]; exact Bool.false_ne_true)
  have hnil : HarmlessRun ([] : List (Op (WithTop ℚ) × Outcome)) := fun past op o rest r heq => by simp at heq
  have hcreations : HarmlessRun sampleJob := by
    refine harmlessRun_snoc (harmlessRun_snoc hnil fun r _ => ?_) fun r _ => ?_ <;> exact hkeeps (fun _ _ => rfl) r
  refine harmlessRun_snoc (harmlessRun_snoc hcreations fun r _ => ?_) fun r _ => ?_ <;> exact hkeeps (fun _ _ => rfl) r

/-- The finished job is deleted, and the task of the second one is counted. -/
theorem counters_exact_sample : ∃ db, Run (finishedJob ++ [(.deleteJob 2, .done)]) db ∧ db.jobs.map (·.id) = [3] ∧
    db.streams.map (·.ready) = [1] ∧ db.Counts := by
  have hrun : Run (finishedJob ++ [(.deleteJob 2, .done)]) (deleteJob 2 finishedJobDb) :=
    (replay_snoc _ _ _ _ _).mpr ⟨_, finishedJob_run, rfl⟩
  refine ⟨_, hrun, rfl, rfl, counters_exact hrun (harmlessRun_snoc finishedJob_harmless fun r hr t ht hdeletes hlive => ?_)⟩
  obtain rfl := replay_unique hr finishedJob_run
  -- the task of job 2 is done, and the deletion takes no other
  obtain rfl | rfl := mem_pair.mp ht
  · cases hlive
  · cases hdeletes

/-- A deleted job leaves its ready task in the counter. -/
theorem deleted_job_stays_counted : ¬ ∀ (history : List (Op (WithTop ℚ) × Outcome)) (db : Db (WithTop ℚ)),
    Run history db → db.Counts := by
  intro h
  have hrun : Run (sampleJob ++ [(.deleteJob 2, .done)]) (deleteJob 2 sampleJobDb) :=
    (replay_snoc _ _ _ _ _).mpr ⟨sampleJobDb, sampleJob_run, rfl⟩
  have hcount := (h _ _ hrun _ List.mem_cons_self).1
  exact absurd hcount (by decide)

end VerifiableCompute.TaskDb
