import VerifiableCompute.ProofJob.Joins
import VerifiableCompute.ProofJob.Unions

/-! The tasks on keccak receipts. Complete trees are made from below in any order; once all are there
the peaks are folded from the largest. -/

namespace VerifiableCompute.ProofJob

open Lib Multiset

/-- The task that makes a complete tree. -/
def nodeTask (devMode : Bool) : ℕ → ℕ → Task
  | 0, pos => .proveKeccak pos devMode
  | height + 1, pos => .union (height + 1) pos (node height (2 * pos)) (node height (2 * pos + 1)) devMode

/-- What a complete tree is made from is there. -/
def Ready (count : ℕ) (unions : List (List (Option UnknownReceipt))) : ℕ → ℕ → Prop
  | 0, pos => pos < count
  | height + 1, pos => unionAt unions height (2 * pos) ≠ none ∧ unionAt unions height (2 * pos + 1) ≠ none

/-- Workers have the trees that can be made and are not there. -/
structure Building (devMode : Bool) (count : ℕ) (unions : List (List (Option UnknownReceipt))) (work log : Multiset Task) : Prop where
  filling : Filling count unions
  workNodup : work.Nodup
  work : ∀ x, x ∈ work ↔ ∃ h p, x = nodeTask devMode h p ∧ Ready count unions h p ∧ unionAt unions h p = none
  logNodup : log.Nodup
  log : ∀ x, x ∈ log ↔ ∃ h p, x = nodeTask devMode h p ∧ Ready count unions h p

variable {count : ℕ} {unions : List (List (Option UnknownReceipt))} {devMode : Bool} {work log : Multiset Task}
variable {h p : ℕ} {peaks : List UnknownReceipt} {peak : UnknownReceipt}

theorem nodeTask_inj {h' p' : ℕ} (heq : nodeTask devMode h p = nodeTask devMode h' p') : h = h' ∧ p = p' := by
  cases h with
  | zero =>
    cases h' with
    | zero =>
      cases heq
      exact ⟨rfl, rfl⟩
    | succ => cases heq
  | succ h =>
    cases h' with
    | zero => cases heq
    | succ h' =>
      rw [nodeTask, nodeTask] at heq
      injection heq with hheight hpos
      exact ⟨hheight, hpos⟩

theorem Filling.range_of_ready (hf : Filling count unions) (hready : Ready count unions h p) : (p + 1) * 2 ^ h ≤ count := by
  cases h with
  | zero =>
    rw [pow_zero, Nat.mul_one]
    exact hready
  | succ h =>
    obtain ⟨t, ht⟩ := Option.ne_none_iff_exists'.mp hready.2
    have hrange := (hf.value _ _ _ ht).2
    rw [pow_succ']
    calc (p + 1) * (2 * 2 ^ h) = (2 * p + 1 + 1) * 2 ^ h := by ring
      _ ≤ count := hrange

theorem Filling.ready_of_filled (hf : Filling count unions) (hfilled : unionAt unions h p ≠ none) : Ready count unions h p := by
  cases h with
  | zero =>
    obtain ⟨t, ht⟩ := Option.ne_none_iff_exists'.mp hfilled
    have hrange := (hf.value _ _ _ ht).2
    rw [pow_zero, Nat.mul_one] at hrange
    exact hrange
  | succ h => exact hf.children h p hfilled

/-- Once all trees are there, those that could be made are the complete ones. -/
theorem Filling.ready_iff_of_full (hf : Filling count unions) (hfull : Full count unions) (h p : ℕ) :
    Ready count unions h p ↔ (p + 1) * 2 ^ h ≤ count :=
  ⟨hf.range_of_ready, fun hrange => hf.ready_of_filled (hfull h p hrange)⟩

namespace Building

theorem start (devMode : Bool) : Building devMode 0 [] 0 0 := by
  have hready (h p : ℕ) : ¬ Ready 0 [] h p := by
    cases h with
    | zero => exact Nat.not_lt_zero p
    | succ h => exact fun hready => hready.1 rfl
  refine ⟨filling_nil 0, nodup_zero, fun x => ?_, nodup_zero, fun x => ?_⟩
  · exact iff_of_false (notMem_zero x) fun ⟨h, p, _, hr, _⟩ => hready h p hr
  · exact iff_of_false (notMem_zero x) fun ⟨h, p, _, hr⟩ => hready h p hr

/-- One more tree can be made, and a worker gets it. -/
theorem give {count' : ℕ} {unions' : List (List (Option UnknownReceipt))} (hfilling : Filling count' unions') (hworkNodup : work.Nodup)
    (hwork : ∀ x, x ∈ work ↔ ∃ k q, x = nodeTask devMode k q ∧ Ready count unions k q ∧ unionAt unions' k q = none) (hlogNodup : log.Nodup)
    (hlog : ∀ x, x ∈ log ↔ ∃ k q, x = nodeTask devMode k q ∧ Ready count unions k q)
    (hready : ∀ k q, Ready count' unions' k q ↔ (k = h ∧ q = p) ∨ Ready count unions k q) (hnew : ¬ Ready count unions h p)
    (hempty : unionAt unions' h p = none) :
    Building devMode count' unions' (nodeTask devMode h p ::ₘ work) (nodeTask devMode h p ::ₘ log) := by
  have hfresh : ¬ ∃ k q, nodeTask devMode h p = nodeTask devMode k q ∧ Ready count unions k q := by
    rintro ⟨k, q, heq, hr⟩
    obtain ⟨rfl, rfl⟩ := nodeTask_inj heq
    exact hnew hr
  refine ⟨hfilling, nodup_cons.mpr ⟨fun hmem => ?_, hworkNodup⟩, fun x => ?_,
    nodup_cons.mpr ⟨fun hmem => hfresh ((hlog _).mp hmem), hlogNodup⟩, fun x => ?_⟩
  · obtain ⟨k, q, heq, hr, -⟩ := (hwork _).mp hmem
    exact hfresh ⟨k, q, heq, hr⟩
  · rw [mem_cons, hwork]
    constructor
    · rintro (rfl | ⟨k, q, heq, hr, hnone⟩)
      · exact ⟨h, p, rfl, (hready h p).mpr (.inl ⟨rfl, rfl⟩), hempty⟩
      · exact ⟨k, q, heq, (hready k q).mpr (.inr hr), hnone⟩
    · rintro ⟨k, q, heq, hr, hnone⟩
      obtain ⟨rfl, rfl⟩ | hr := (hready k q).mp hr
      · exact .inl heq
      · exact .inr ⟨k, q, heq, hr, hnone⟩
  · rw [mem_cons, hlog]
    constructor
    · rintro (rfl | ⟨k, q, heq, hr⟩)
      · exact ⟨h, p, rfl, (hready h p).mpr (.inl ⟨rfl, rfl⟩)⟩
      · exact ⟨k, q, heq, (hready k q).mpr (.inr hr)⟩
    · rintro ⟨k, q, heq, hr⟩
      obtain ⟨rfl, rfl⟩ | hr := (hready k q).mp hr
      · exact .inl heq
      · exact .inr ⟨k, q, heq, hr⟩

theorem report (h : Building devMode count unions work log) :
    Building devMode (count + 1) unions (.proveKeccak count devMode ::ₘ work) (.proveKeccak count devMode ::ₘ log) := by
  have hready (k p : ℕ) : Ready (count + 1) unions k p ↔ (k = 0 ∧ p = count) ∨ Ready count unions k p := by
    cases k with
    | zero => exact Nat.lt_succ_iff_lt_or_eq.trans (by simp [Ready, or_comm])
    | succ k => simp [Ready]
  have hnew : ¬ Ready count unions 0 count := Nat.lt_irrefl count
  have hempty : unionAt unions 0 count = none := by
    by_contra hfilled
    exact hnew (h.filling.ready_of_filled hfilled)
  exact give (h.filling.mono (Nat.le_succ count)) h.workNodup h.work h.logNodup h.log hready hnew hempty

/-! A tree that a worker made is placed. Only its parent can be new then. -/

section Place

variable {unions' : List (List (Option UnknownReceipt))} (hb : Building devMode count unions (nodeTask devMode h p ::ₘ work) log)

include hb

theorem placed : Ready count unions h p ∧ unionAt unions h p = none := by
  obtain ⟨h', p', heq, hready, hempty⟩ := (hb.work _).mp (mem_cons_self _ work)
  obtain ⟨rfl, rfl⟩ := nodeTask_inj heq
  exact ⟨hready, hempty⟩

theorem parent_not_ready : ¬ Ready count unions (h + 1) (p / 2) := by
  obtain ⟨-, hempty⟩ := hb.placed
  intro hboth
  obtain heven | hodd := Nat.mod_two_eq_zero_or_one p
  · have hleft := hboth.1
    rw [show 2 * (p / 2) = p by omega] at hleft
    exact hleft hempty
  · have hright := hboth.2
    rw [show 2 * (p / 2) + 1 = p by omega] at hright
    exact hright hempty

variable (hunionAt : ∀ k q, unionAt unions' k q = if k = h ∧ q = p then some (node h p) else unionAt unions k q)

include hunionAt

theorem parent_empty : unionAt unions' (h + 1) (p / 2) = none := by
  rw [hunionAt, if_neg fun heq => Nat.succ_ne_self h heq.1]
  by_contra hne
  exact hb.parent_not_ready (hb.filling.ready_of_filled hne)

theorem ready_place_iff (k q : ℕ) :
    Ready count unions' k q ↔ (k = h + 1 ∧ q = p / 2 ∧ Ready count unions' (h + 1) (p / 2)) ∨ Ready count unions k q := by
  cases k with
  | zero => simp [Ready]
  | succ k =>
    by_cases heq : k = h ∧ q = p / 2
    · obtain ⟨rfl, rfl⟩ := heq
      simp [hb.parent_not_ready]
    · have hleft : unionAt unions' k (2 * q) = unionAt unions k (2 * q) := by
        rw [hunionAt, if_neg]
        rintro ⟨rfl, hq⟩
        exact heq ⟨rfl, by omega⟩
      have hright : unionAt unions' k (2 * q + 1) = unionAt unions k (2 * q + 1) := by
        rw [hunionAt, if_neg]
        rintro ⟨rfl, hq⟩
        exact heq ⟨rfl, by omega⟩
      rw [Ready, Ready, hleft, hright]
      constructor
      · exact .inr
      · rintro (⟨hk, hq, -⟩ | hr)
        · exact absurd ⟨Nat.succ.inj hk, hq⟩ heq
        · exact hr

theorem work_place (x : Task) : x ∈ work ↔ ∃ k q, x = nodeTask devMode k q ∧ Ready count unions k q ∧ unionAt unions' k q = none := by
  obtain ⟨hrest, -⟩ := nodup_cons.mp hb.workNodup
  have hold := hb.work x
  rw [mem_cons] at hold
  constructor
  · intro hx
    obtain ⟨k, q, rfl, hr, hnone⟩ := hold.mp (.inr hx)
    refine ⟨k, q, rfl, hr, ?_⟩
    rw [hunionAt, if_neg]
    · exact hnone
    · rintro ⟨rfl, rfl⟩
      exact hrest hx
  · rintro ⟨k, q, rfl, hr, hnone⟩
    rw [hunionAt] at hnone
    split at hnone
    · cases hnone
    next hne =>
      obtain heq | hx := hold.mpr ⟨k, q, rfl, hr, hnone⟩
      · exact absurd (nodeTask_inj heq) hne
      · exact hx

/-- Where its sibling is there, the parent is given away. -/
theorem place_both (hfilling : Filling count unions') (hboth : Ready count unions' (h + 1) (p / 2)) :
    Building devMode count unions' (nodeTask devMode (h + 1) (p / 2) ::ₘ work) (nodeTask devMode (h + 1) (p / 2) ::ₘ log) := by
  refine give hfilling (nodup_cons.mp hb.workNodup).2 (hb.work_place hunionAt) hb.logNodup hb.log (fun k q => ?_) hb.parent_not_ready
    (hb.parent_empty hunionAt)
  rw [hb.ready_place_iff hunionAt]
  exact or_congr_left ⟨fun hnew => ⟨hnew.1, hnew.2.1⟩, fun hnew => ⟨hnew.1, hnew.2, hboth⟩⟩

theorem place_one (hfilling : Filling count unions') (hone : ¬ Ready count unions' (h + 1) (p / 2)) :
    Building devMode count unions' work log := by
  have hready (k q : ℕ) : Ready count unions' k q ↔ Ready count unions k q :=
    (hb.ready_place_iff hunionAt k q).trans (or_iff_right fun hnew => hone hnew.2.2)
  refine ⟨hfilling, (nodup_cons.mp hb.workNodup).2, fun x => ?_, hb.logNodup, fun x => ?_⟩
  · simp only [hready]
    exact hb.work_place hunionAt x
  · simp only [hready]
    exact hb.log x

end Place

/-- A tree that a worker made is placed, and its parent is given away where its sibling is there. -/
theorem place {h p : ℕ} (hb : Building devMode count unions (nodeTask devMode h p ::ₘ work) log) :
    ∃ unions' layer, JobActor.placeUnion p h (node h p) unions = .ok (unions', layer) ∧ unions'[h]? = some layer ∧
      Filling count unions' ∧ unionAt unions' h p ≠ none ∧
      (Ready count unions' (h + 1) (p / 2) → ¬ Full count unions' ∧
        Building devMode count unions' (nodeTask devMode (h + 1) (p / 2) ::ₘ work) (nodeTask devMode (h + 1) (p / 2) ::ₘ log)) ∧
      (¬ Ready count unions' (h + 1) (p / 2) → Building devMode count unions' work log) := by
  obtain ⟨hready, -⟩ := hb.placed
  obtain ⟨unions', layer, hplace, hlayer, hfilling, hunionAt⟩ :=
    hb.filling.place (hb.filling.range_of_ready hready) fun k hk => by
      subst hk
      exact hready
  have hfilled : unionAt unions' h p ≠ none := by
    rw [hunionAt, if_pos ⟨rfl, rfl⟩]
    exact Option.some_ne_none _
  refine ⟨unions', layer, hplace, hlayer, hfilling, hfilled, fun hboth => ⟨fun hfull => ?_, hb.place_both hunionAt hfilling hboth⟩,
    hb.place_one hunionAt hfilling⟩
  exact hfull (h + 1) (p / 2) (hfilling.range_of_ready hboth) (hb.parent_empty hunionAt)

theorem full_of_idle (h : Building devMode count unions 0 log) : Full count unions := by
  intro k
  induction k with
  | zero =>
    intro p hrange hempty
    rw [pow_zero, Nat.mul_one] at hrange
    exact notMem_zero _ ((h.work _).mpr ⟨0, p, rfl, hrange, hempty⟩)
  | succ k ih =>
    intro p hrange hempty
    have hright : (2 * p + 1 + 1) * 2 ^ k ≤ count := by
      rw [pow_succ'] at hrange
      calc (2 * p + 1 + 1) * 2 ^ k = (p + 1) * (2 * 2 ^ k) := by ring
        _ ≤ count := hrange
    have hleft : (2 * p + 1) * 2 ^ k ≤ count := le_trans (Nat.mul_le_mul_right _ (Nat.le_succ _)) hright
    exact notMem_zero _ ((h.work _).mpr ⟨k + 1, p, rfl, ⟨ih _ hleft, ih _ hright⟩, hempty⟩)

theorem idle_of_full (h : Building devMode count unions work log) (hfull : Full count unions) : work = 0 := by
  refine eq_zero_of_forall_notMem fun x hx => ?_
  obtain ⟨k, p, -, hready, hempty⟩ := (h.work x).mp hx
  exact hfull k p (h.filling.range_of_ready hready) hempty

end Building

def foldTasks {α β : Type} (task : β → α → Task) (f : β → α → β) : β → List α → List Task
  | _, [] => []
  | start, x :: l => task start x :: foldTasks task f (f start x) l

section Folds

variable {α β : Type} {task : β → α → Task} {f : β → α → β}

theorem foldTasks_concat (start : β) (l : List α) (x : α) :
    foldTasks task f start (l ++ [x]) = foldTasks task f start l ++ [task (l.foldl f start) x] := by
  induction l generalizing start with
  | nil => rfl
  | cons y l ih => exact congrArg (List.cons _) (ih _)

theorem mem_foldTasks (size : β → ℕ) (hsize : ∀ b a, size b < size (f b a)) {start : β} {l : List α} {x : Task}
    (h : x ∈ foldTasks task f start l) : ∃ b a, x = task b a ∧ size start ≤ size b := by
  induction l generalizing start with
  | nil => exact absurd h List.not_mem_nil
  | cons y l ih =>
    obtain rfl | hrest := List.mem_cons.mp h
    · exact ⟨start, y, rfl, le_refl _⟩
    · obtain ⟨b, a, rfl, hle⟩ := ih hrest
      exact ⟨b, a, rfl, (hsize start y).le.trans hle⟩

theorem foldTasks_nodup (size : β → ℕ) (hsize : ∀ b a, size b < size (f b a))
    (hinj : ∀ b a b' a', task b a = task b' a' → b = b') (start : β) (l : List α) : (foldTasks task f start l).Nodup := by
  induction l generalizing start with
  | nil => exact List.nodup_nil
  | cons y l ih =>
    refine List.nodup_cons.mpr ⟨fun hmem => ?_, ih _⟩
    obtain ⟨b, a, heq, hle⟩ := mem_foldTasks size hsize hmem
    have hgrows := hsize start y
    rw [hinj _ _ _ _ heq] at hgrows hle
    exact absurd hle hgrows.not_ge

end Folds

/-- A task on a complete tree. -/
def IsBuild (devMode : Bool) (count : ℕ) (x : Task) : Prop := ∃ h p, x = nodeTask devMode h p ∧ (p + 1) * 2 ^ h ≤ count

/-- The tasks that fold peaks. -/
def mergeTasks (devMode : Bool) : UnknownReceipt → List UnknownReceipt → List Task :=
  foldTasks (fun lhs rhs => .union 0 0 lhs rhs devMode) .union

/-- The tasks that fold all peaks. -/
def rootTasks (devMode : Bool) (count : ℕ) : List Task :=
  match peaksOf count with
  | [] => []
  | peak :: peaks => mergeTasks devMode peak peaks

/-- The tasks so far are those on complete trees and some that fold peaks. -/
structure Logged (devMode : Bool) (count : ℕ) (merges : List Task) (log : Multiset Task) : Prop where
  nodup : log.Nodup
  mem : ∀ x, x ∈ log ↔ IsBuild devMode count x ∨ x ∈ merges

theorem mergeTasks_nodup (lhs : UnknownReceipt) (peaks : List UnknownReceipt) : (mergeTasks devMode lhs peaks).Nodup := by
  refine foldTasks_nodup sizeOf (fun l r => ?_) (fun l r l' r' heq => ?_) lhs peaks
  · rw [UnknownReceipt.union.sizeOf_spec]
    omega
  · injection heq

theorem not_isBuild_merge (lhs rhs : UnknownReceipt) : ¬ IsBuild devMode count (.union 0 0 lhs rhs devMode) := by
  rintro ⟨h, p, heq, -⟩
  cases h with
  | zero => cases heq
  | succ h => cases heq

theorem Logged.merge {lhs next : UnknownReceipt} (h : Logged devMode count (mergeTasks devMode lhs peaks) log) :
    Logged devMode count (mergeTasks devMode lhs (peaks ++ [next])) (.union 0 0 (peaks.foldl .union lhs) next devMode ::ₘ log) := by
  have hnodup : (mergeTasks devMode lhs (peaks ++ [next])).Nodup := mergeTasks_nodup lhs _
  rw [mergeTasks, foldTasks_concat] at hnodup ⊢
  refine ⟨nodup_cons.mpr ⟨fun hmem => ?_, h.nodup⟩, fun x => ?_⟩
  · obtain hbuild | hmerge := (h.mem _).mp hmem
    · exact not_isBuild_merge _ _ hbuild
    · exact (List.disjoint_of_nodup_append hnodup) hmerge List.mem_cons_self
  · rw [mem_cons, h.mem, List.mem_append, List.mem_singleton]
    tauto

theorem Building.logged (h : Building devMode count unions work log) (hfull : Full count unions) : Logged devMode count [] log := by
  refine ⟨h.logNodup, fun x => ?_⟩
  rw [h.log, IsBuild]
  simp only [h.filling.ready_iff_of_full hfull, List.not_mem_nil, or_false]

theorem peaksOf_zero : peaksOf 0 = [] := by
  rw [peaksOf, mountain_zero]
  rfl

theorem peaksOf_ne_nil (hcount : 0 < count) : peaksOf count ≠ [] := by
  rw [peaksOf, Ne, List.reverse_eq_nil_iff, List.map_eq_nil_iff]
  exact mountain_ne_nil hcount

theorem mountainRoot_of_peaks (h : peaksOf count = peak :: peaks) :
    mountainRoot .union .keccak count = some (peaks.foldl .union peak) := by
  rw [peaksOf] at h
  rw [mountainRoot, h]

theorem rootTasks_of_peaks (h : peaksOf count = peak :: peaks) :
    rootTasks devMode count = mergeTasks devMode peak peaks := by
  rw [rootTasks, h]

end VerifiableCompute.ProofJob
