import VerifiableCompute.ProofJob.Keccaks

/-! The phases of the keccak receipts: trees are built, peaks are folded, and the root is there. -/

namespace VerifiableCompute.ProofJob

open Lib JobActor

/-- What the tasks on keccak receipts are at in each phase. -/
inductive Keccaks (devMode : Bool) (a : JobActor) (work log : Multiset Task) : Prop
  | build (phase : a.keccakPhase = .build) (root : a.keccakRoot = none) (pending : a.pendingKeccakPeaks = [])
      (building : Building devMode a.keccakCount a.unions work log)
  | mergePeaks {peak next : UnknownReceipt} {before : List UnknownReceipt} (phase : a.keccakPhase = .mergePeaks)
      (root : a.keccakRoot = none) (peaks : peaksOf a.keccakCount = peak :: (before ++ next :: a.pendingKeccakPeaks))
      (work : work = {.union 0 0 (before.foldl .union peak) next devMode})
      (log : Logged devMode a.keccakCount (mergeTasks devMode peak (before ++ [next])) log)
  | done (phase : a.keccakPhase = .done) (root : a.keccakRoot = mountainRoot .union .keccak a.keccakCount) (work : work = 0)
      (log : Logged devMode a.keccakCount (rootTasks devMode a.keccakCount) log)

/-- The actor with other keccak data, and more tasks. -/
def JobActor.withKeccaks (unions : List (List (Option UnknownReceipt))) (phase : KeccakPhase) (pending : List UnknownReceipt)
    (root : Option UnknownReceipt) (new : List Task) (a : JobActor) : JobActor :=
  { a with unions, keccakPhase := phase, pendingKeccakPeaks := pending, keccakRoot := root, outbox := a.outbox ++ new }

variable {devModeDisabled devMode : Bool} {digest : UnknownReceipt → Digest} {a : JobActor} {work log : Multiset Task}

theorem checkDevMode_ok (hdev : a.devMode = some devMode) (hallowed : ¬ (devMode ∧ devModeDisabled)) :
    a.checkDevMode devModeDisabled = .ok devMode := by
  refine bind_ok_iff.mpr ⟨devMode, ?_, bind_ok_iff.mpr ⟨(), require_ok_iff.mpr hallowed, rfl⟩⟩
  rw [hdev]
  rfl

theorem union_ok (height pos : ℕ) (lhs rhs : UnknownReceipt) (hdev : a.devMode = some devMode) (hallowed : ¬ (devMode ∧ devModeDisabled)) :
    a.union devModeDisabled height pos lhs rhs = .ok (a.submitTask (.union height pos lhs rhs devMode)) :=
  bind_ok_iff.mpr ⟨devMode, checkDevMode_ok hdev hallowed, rfl⟩

theorem layersComplete_iff_full (hfilling : Filling a.keccakCount a.unions) (hcount : 0 < a.keccakCount)
    (hrequired : a.requiredKeccakLayers = mmrLayers a.keccakCount) : a.layersComplete = true ↔ Full a.keccakCount a.unions := by
  rw [layersComplete_iff, ← hfilling.complete_iff hcount, hrequired]
  refine ⟨fun h => h.2.2, fun hlengths => ?_⟩
  have hhead : mmrLayers a.keccakCount = a.keccakCount :: (mmrLayers a.keccakCount).tail := by
    rw [mmrLayers]
    rfl
  rw [hhead] at hlengths
  cases hunions : a.unions with
  | nil =>
    rw [hunions] at hlengths
    cases hlengths
  | cons layer unions =>
    rw [hunions, List.map_cons] at hlengths
    obtain ⟨hlength, -⟩ := List.cons.inj hlengths
    refine ⟨List.cons_ne_nil _ _, hlength.symm, ?_⟩
    rw [hhead, List.map_cons, hlengths]

/-- The last step of building. Where not all is there, nothing changes. -/
theorem Keccaks.maybeFinish (h : Keccaks devMode a work log) (hrequired : a.requiredKeccakLayers = mmrLayers a.keccakCount)
    (hdev : a.devMode = some devMode) (hallowed : ¬ (devMode ∧ devModeDisabled)) :
    ∃ phase pending root new done, a.maybeFinishKeccakMmr devModeDisabled = .ok (a.withKeccaks a.unions phase pending root new, done) ∧
      (∀ x ∈ new, x.kind = .keccak) ∧ Keccaks devMode (a.withKeccaks a.unions phase pending root new) (work + new) (log + new) ∧
      (done = true ↔ phase = .done) ∧ (phase = .build → ¬ Full a.keccakCount a.unions) := by
  have hkeep (phase : KeccakPhase) : { a with keccakPhase := phase } = a.withKeccaks a.unions phase a.pendingKeccakPeaks a.keccakRoot [] := by
    rw [withKeccaks, List.append_nil]
  have hsame : a = a.withKeccaks a.unions a.keccakPhase a.pendingKeccakPeaks a.keccakRoot [] := hkeep a.keccakPhase
  have hnil : ∀ x ∈ ([] : List Task), x.kind = .keccak := fun x hx => absurd hx List.not_mem_nil
  have hall (s : Multiset Task) : s + (([] : List Task) : Multiset Task) = s := add_zero s
  cases h with
  | build phase root pending building =>
    obtain hzero | hcount := Nat.eq_zero_or_pos a.keccakCount
    · have hfull : Full a.keccakCount a.unions := fun h p hrange => by
        have hpos : 0 < (p + 1) * 2 ^ h := Nat.mul_pos (Nat.succ_pos p) (Nat.two_pow_pos h)
        omega
      refine ⟨.done, a.pendingKeccakPeaks, a.keccakRoot, [], true, ?_, hnil, ?_, iff_of_true rfl rfl, fun heq => by cases heq⟩
      · rw [maybeFinishKeccakMmr, if_pos (.inl hzero), hkeep]
      · rw [hall, hall]
        refine .done rfl ?_ (building.idle_of_full hfull) ?_
        · have hnone : mountainRoot UnknownReceipt.union UnknownReceipt.keccak 0 = none := by rw [mountainRoot, mountain_zero]; rfl
          change a.keccakRoot = mountainRoot .union .keccak a.keccakCount
          rw [root, hzero, hnone]
        · have hlogged := building.logged hfull
          change Logged devMode a.keccakCount (rootTasks devMode a.keccakCount) log
          have hnone : rootTasks devMode a.keccakCount = [] := by rw [rootTasks, hzero, peaksOf_zero]
          rwa [hnone]
    · have hskip : ¬ (a.keccakCount = 0 ∨ a.keccakPhase = .done) := by
        rw [phase]
        rintro (hzero | hdone)
        · omega
        · cases hdone
      have hnotMerge : a.keccakPhase ≠ .mergePeaks := by
        rw [phase]
        exact fun heq => by cases heq
      rw [maybeFinishKeccakMmr, if_neg hskip, if_neg hnotMerge]
      by_cases hfull : Full a.keccakCount a.unions
      · rw [if_pos ((layersComplete_iff_full building.filling hcount hrequired).mpr hfull)]
        have hidle := building.idle_of_full hfull
        have hlogged := building.logged hfull
        have hpeaks := building.filling.layerPeaks hfull rfl hrequired
        cases hlist : peaksOf a.keccakCount with
        | nil => exact absurd hlist (peaksOf_ne_nil hcount)
        | cons lhs peaks =>
          rw [hlist] at hpeaks
          cases peaks with
          | nil =>
            refine ⟨.done, [], some lhs, [], true, ?_, hnil, ?_, iff_of_true rfl rfl, fun heq => by cases heq⟩
            · refine bind_ok_iff.mpr ⟨[lhs], hpeaks, ?_⟩
              rw [pending, List.nil_append, withKeccaks, List.append_nil]
              exact bind_ok_iff.mpr ⟨(), require_ok_iff.mpr root, rfl⟩
            · rw [hall, hall]
              refine .done rfl (mountainRoot_of_peaks hlist).symm hidle ?_
              change Logged devMode a.keccakCount (rootTasks devMode a.keccakCount) log
              rw [rootTasks_of_peaks hlist]
              exact hlogged
          | cons rhs rest =>
            refine ⟨.mergePeaks, rest, none, [.union 0 0 lhs rhs devMode], false, ?_, ?_, ?_, iff_of_false (by decide) (by decide),
              fun heq => by cases heq⟩
            · refine bind_ok_iff.mpr ⟨lhs :: rhs :: rest, hpeaks, ?_⟩
              rw [pending, List.nil_append, withKeccaks]
              refine bind_ok_iff.mpr ⟨_, union_ok (a := { a with pendingKeccakPeaks := rest }) 0 0 lhs rhs hdev hallowed, ?_⟩
              rw [← root]
              rfl
            · exact fun x hx => by rw [List.mem_singleton.mp hx]; rfl
            · rw [Multiset.coe_singleton, hidle, zero_add, add_comm]
              have hfirst : Logged devMode a.keccakCount (mergeTasks devMode lhs []) log := hlogged
              exact @Keccaks.mergePeaks devMode _ _ _ lhs rhs [] rfl rfl hlist rfl hfirst.merge
      · have hopen : ¬ a.layersComplete = true := fun hcomplete =>
          hfull ((layersComplete_iff_full building.filling hcount hrequired).mp hcomplete)
        rw [if_neg hopen]
        refine ⟨a.keccakPhase, a.pendingKeccakPeaks, a.keccakRoot, [], false, by rw [← hsame], hnil, ?_, ?_, fun _ => hfull⟩
        · rw [hall, hall, ← hsame]
          exact .build phase root pending building
        · rw [phase]
          exact iff_of_false (by decide) (by decide)
  | mergePeaks phase root peaks hwork hlog =>
    have hskip : ¬ (a.keccakCount = 0 ∨ a.keccakPhase = .done) := by
      rw [phase]
      rintro (hzero | hdone)
      · rw [hzero, peaksOf_zero] at peaks
        cases peaks
      · cases hdone
    rw [maybeFinishKeccakMmr, if_neg hskip, if_pos phase]
    refine ⟨a.keccakPhase, a.pendingKeccakPeaks, a.keccakRoot, [], false, by rw [← hsame], hnil, ?_, ?_, ?_⟩
    · rw [hall, hall, ← hsame]
      exact .mergePeaks phase root peaks hwork hlog
    · rw [phase]
      exact iff_of_false (by decide) (by decide)
    · rw [phase]
      exact fun heq => by cases heq
  | done phase root hwork hlog =>
    rw [maybeFinishKeccakMmr, if_pos (.inr phase)]
    refine ⟨.done, a.pendingKeccakPeaks, a.keccakRoot, [], true, by rw [hkeep], hnil, ?_, iff_of_true rfl rfl, fun heq => by cases heq⟩
    rw [hall, hall, ← hkeep]
    exact .done rfl root hwork hlog

section

variable {unions : List (List (Option UnknownReceipt))} {layer : List (Option UnknownReceipt)}

theorem unionAt_of_layer {height : ℕ}
    (hlayer : unions[height]? = some layer) (pos : ℕ) : unionAt unions height pos = (layer[pos]?).join := by
  rw [unionAt, hlayer, Option.bind_some]

/-- Both children are there, or the actor looks whether it is done. -/
theorem processUnion_eq {height pos : ℕ}
    {receipt : UnknownReceipt} (hplace : placeUnion pos height receipt a.unions = .ok (unions, layer))
    (hlayer : unions[height]? = some layer) :
    (∀ lhs rhs, unionAt unions height (2 * (pos / 2)) = some lhs → unionAt unions height (2 * (pos / 2) + 1) = some rhs →
      a.processUnion devModeDisabled digest pos height receipt =
        union devModeDisabled (height + 1) (pos / 2) lhs rhs { a with unions := unions }) ∧
    (¬ (unionAt unions height (2 * (pos / 2)) ≠ none ∧ unionAt unions height (2 * (pos / 2) + 1) ≠ none) →
      a.processUnion devModeDisabled digest pos height receipt = maybeFinish devModeDisabled digest { a with unions := unions }) := by
  have hpair : (if pos % 2 = 0 then (pos, pos + 1) else (pos - 1, pos)) = (2 * (pos / 2), 2 * (pos / 2) + 1) := by
    split
    · rw [show 2 * (pos / 2) = pos by omega]
    · rw [show 2 * (pos / 2) = pos - 1 by omega, show pos - 1 + 1 = pos by omega]
  rw [unionAt_of_layer hlayer, unionAt_of_layer hlayer, processUnion, hplace]
  dsimp only [bind, Except.bind]
  rw [hpair]
  dsimp only
  constructor
  · intro lhs rhs hlhs hrhs
    rw [Option.join_eq_some_iff.mp hlhs, Option.join_eq_some_iff.mp hrhs]
  · intro hmissing
    split
    next lhs rhs hlhs hrhs =>
      refine absurd ⟨?_, ?_⟩ hmissing
      · rw [hlhs]
        exact Option.some_ne_none lhs
      · rw [hrhs]
        exact Option.some_ne_none rhs
    next => rfl

end

variable (digest) in
/-- A tree that a worker made is placed. Its parent is given away, or the actor looks whether it is done. -/
theorem Building.done {h p : ℕ} (hb : Building devMode a.keccakCount a.unions (nodeTask devMode h p ::ₘ work) log)
    (hphase : a.keccakPhase = .build) (hdev : a.devMode = some devMode) (hallowed : ¬ (devMode ∧ devModeDisabled)) (session : Session) :
    ∃ unions, (∃ task, a.handleTaskDone devModeDisabled digest ((nodeTask devMode h p).result session) =
        .ok (a.withKeccaks unions a.keccakPhase a.pendingKeccakPeaks a.keccakRoot [task]) ∧ task.kind = .keccak ∧
        Building devMode a.keccakCount unions (task ::ₘ work) (task ::ₘ log) ∧ ¬ Full a.keccakCount unions) ∨
      (a.handleTaskDone devModeDisabled digest ((nodeTask devMode h p).result session) =
        maybeFinish devModeDisabled digest { a with unions := unions } ∧ Building devMode a.keccakCount unions work log) := by
  have hhandle : a.handleTaskDone devModeDisabled digest ((nodeTask devMode h p).result session) =
      a.processUnion devModeDisabled digest p h (node h p) := by
    cases h with
    | zero => rfl
    | succ h =>
      change a.unionDone devModeDisabled digest (h + 1) p (node (h + 1) p) = _
      rw [unionDone, hphase]
  obtain ⟨unions, layer, hplace, hlayer, hfilling, -, hboth, hopen⟩ := hb.place
  obtain ⟨hunion, hfinish⟩ := @processUnion_eq devModeDisabled digest a unions layer h p _ hplace hlayer
  refine ⟨unions, ?_⟩
  rw [hhandle]
  by_cases hready : Ready a.keccakCount unions (h + 1) (p / 2)
  · obtain ⟨hnotFull, hbuilding⟩ := hboth hready
    obtain ⟨lhs, hlhs⟩ := Option.ne_none_iff_exists'.mp hready.1
    obtain ⟨rhs, hrhs⟩ := Option.ne_none_iff_exists'.mp hready.2
    obtain ⟨rfl, -⟩ := hfilling.value _ _ _ hlhs
    obtain ⟨rfl, -⟩ := hfilling.value _ _ _ hrhs
    refine .inl ⟨nodeTask devMode (h + 1) (p / 2), ?_, rfl, hbuilding, hnotFull⟩
    rw [hunion _ _ hlhs hrhs]
    exact union_ok _ _ _ _ hdev hallowed
  · exact .inr ⟨hfinish hready, hopen hready⟩

theorem unionDone_next {rhs : UnknownReceipt} {rest : List UnknownReceipt} (hphase : a.keccakPhase = .mergePeaks)
    (hpending : a.pendingKeccakPeaks = rhs :: rest) (height pos : ℕ) (receipt : UnknownReceipt) :
    a.unionDone devModeDisabled digest height pos receipt =
      union devModeDisabled 0 0 receipt rhs { a with pendingKeccakPeaks := rest } := by
  rw [unionDone, hphase, hpending]

theorem unionDone_root (hphase : a.keccakPhase = .mergePeaks) (hpending : a.pendingKeccakPeaks = []) (hroot : a.keccakRoot = none)
    (height pos : ℕ) (receipt : UnknownReceipt) : a.unionDone devModeDisabled digest height pos receipt =
      maybeFinish devModeDisabled digest (a.withKeccaks a.unions .done [] (some receipt) []) := by
  have hassert : require (a.keccakRoot = none) JobError.assertion = .ok () := require_ok_iff.mpr hroot
  rw [unionDone, hphase, hpending]
  dsimp only
  rw [hassert, withKeccaks, List.append_nil, ← hpending]
  rfl

variable (digest) in
/-- The end of a task on keccak receipts: there is more to do, or the actor looks whether it is done. -/
theorem Keccaks.step {task : Task} (h : Keccaks devMode a (task ::ₘ work) log) (hdev : a.devMode = some devMode)
    (hallowed : ¬ (devMode ∧ devModeDisabled)) (session : Session) :
    ∃ unions phase pending root, (phase = .build ↔ a.keccakPhase = .build) ∧
      ((∃ next, a.handleTaskDone devModeDisabled digest (task.result session) = .ok (a.withKeccaks unions phase pending root [next]) ∧
        next.kind = .keccak ∧ phase ≠ .done ∧ Keccaks devMode (a.withKeccaks unions phase pending root [next]) (next ::ₘ work) (next ::ₘ log) ∧
        (phase = .build → ¬ Full a.keccakCount unions)) ∨
      (a.handleTaskDone devModeDisabled digest (task.result session) =
        JobActor.maybeFinish devModeDisabled digest (a.withKeccaks unions phase pending root []) ∧
        Keccaks devMode (a.withKeccaks unions phase pending root []) work log)) := by
  cases h with
  | build phase root pending building =>
    obtain ⟨h, p, rfl, -, -⟩ := (building.work _).mp (Multiset.mem_cons_self _ _)
    obtain ⟨unions, ⟨next, hdone, hkind, hbuilding, hopen⟩ | ⟨hdone, hbuilding⟩⟩ := building.done digest phase hdev hallowed session
    · refine ⟨unions, a.keccakPhase, a.pendingKeccakPeaks, a.keccakRoot, Iff.rfl,
        .inl ⟨next, hdone, hkind, ?_, .build phase root pending hbuilding, fun _ => hopen⟩⟩
      rw [phase]
      exact fun heq => by cases heq
    · refine ⟨unions, a.keccakPhase, a.pendingKeccakPeaks, a.keccakRoot, Iff.rfl, .inr ⟨?_, .build phase root pending hbuilding⟩⟩
      rw [hdone, JobActor.withKeccaks, List.append_nil]
  | @mergePeaks peak next before phase root peaks hwork hlog =>
    obtain ⟨rfl, rfl⟩ : task = .union 0 0 (before.foldl .union peak) next devMode ∧ work = 0 := by
      rw [← Multiset.cons_zero] at hwork
      have hcard := congrArg Multiset.card hwork
      rw [Multiset.card_cons, Multiset.card_cons, Multiset.card_zero] at hcard
      have hzero := Multiset.card_eq_zero.mp (Nat.succ.inj hcard)
      rw [hzero] at hwork
      exact ⟨(Multiset.cons_eq_cons.mp hwork).elim And.left fun h => by simp at h, hzero⟩
    have hfold (next : UnknownReceipt) : (before ++ [next]).foldl UnknownReceipt.union peak = .union (before.foldl .union peak) next := by
      rw [List.foldl_append, List.foldl_cons, List.foldl_nil]
    have hphase (phase' : KeccakPhase) (hne : phase' ≠ .build) : phase' = .build ↔ a.keccakPhase = .build := by
      refine iff_of_false hne ?_
      rw [phase]
      exact fun heq => by cases heq
    have hhandle : a.handleTaskDone devModeDisabled digest ((Task.union 0 0 (before.foldl .union peak) next devMode).result session) =
        a.unionDone devModeDisabled digest 0 0 (.union (before.foldl .union peak) next) := rfl
    cases hpending : a.pendingKeccakPeaks with
    | cons rhs rest =>
      rw [hpending] at peaks
      refine ⟨a.unions, .mergePeaks, rest, a.keccakRoot, hphase .mergePeaks (by decide),
        .inl ⟨.union 0 0 (.union (before.foldl .union peak) next) rhs devMode, ?_, rfl, by decide, ?_, fun heq => by cases heq⟩⟩
      · rw [hhandle, unionDone_next phase hpending]
        refine (union_ok (a := { a with pendingKeccakPeaks := rest }) _ _ _ _ hdev hallowed).trans ?_
        rw [JobActor.withKeccaks, ← phase]
        rfl
      · rw [Multiset.cons_zero, ← hfold]
        refine @Keccaks.mergePeaks devMode _ _ _ peak rhs (before ++ [next]) rfl root ?_ rfl hlog.merge
        rw [List.append_assoc]
        exact peaks
    | nil =>
      rw [hpending] at peaks
      refine ⟨a.unions, .done, [], some (.union (before.foldl .union peak) next), hphase .done (by decide), .inr ⟨?_, .done rfl ?_ rfl ?_⟩⟩
      · rw [hhandle, unionDone_root phase hpending root]
      · rw [← hfold]
        exact (mountainRoot_of_peaks peaks).symm
      · change Logged devMode a.keccakCount (rootTasks devMode a.keccakCount) log
        rw [rootTasks_of_peaks peaks]
        exact hlog
  | done phase root hwork hlog => exact absurd hwork (Multiset.cons_ne_zero)

end VerifiableCompute.ProofJob
