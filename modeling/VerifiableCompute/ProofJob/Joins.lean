import VerifiableCompute.ProofJob.Actor

/-! The parts of an execution. Each segment is at every time in one part, the parts of workers and
those of the actor, and the tasks so far are those that made the parts. -/

namespace VerifiableCompute.ProofJob

open Lib OrderedMap ClaimReceipt

namespace ClaimReceipt

def segments : ClaimReceipt → List ℕ
  | lift segment => [segment]
  | join left right => left.segments ++ right.segments
  | resolve .. => []
  | withClaim .. => []

/-- Only lifts and joins. -/
def Joined : ClaimReceipt → Prop
  | lift _ => True
  | join left right => left.Joined ∧ right.Joined
  | resolve .. => False
  | withClaim .. => False

def range (t : ClaimReceipt) : SegmentRange := ⟨t.segments.headD 0, t.segments.headD 0 + t.segments.length⟩

def makings (devMode : Bool) : ClaimReceipt → List Task
  | lift segment => [.proveSegment segment devMode, .lift segment devMode]
  | join left right =>
    .join ⟨left.range.start, right.range.stop⟩ left right devMode :: (left.makings devMode ++ right.makings devMode)
  | resolve .. => []
  | withClaim .. => []

structure Spans (t : ClaimReceipt) (r : SegmentRange) : Prop where
  joined : t.Joined
  segments : t.segments = List.range' r.start (r.stop - r.start)
  lt : r.start < r.stop

variable {t left right : ClaimReceipt} {r : SegmentRange} {devMode : Bool}

theorem Spans.range_eq (h : t.Spans r) : t.range = r := by
  have hlt := h.lt
  have hhead : t.segments.headD 0 = r.start := by
    rw [h.segments, show r.stop - r.start = (r.stop - r.start - 1) + 1 by omega, List.range'_succ]
    rfl
  have hlength : t.segments.length = r.stop - r.start := by rw [h.segments, List.length_range']
  rw [range, hhead, hlength, Nat.add_sub_cancel' hlt.le]

theorem Spans.count (h : t.Spans r) (i : ℕ) : t.segments.count i = if r.start ≤ i ∧ i < r.stop then 1 else 0 := by
  have hlt := h.lt
  rw [h.segments]
  split
  next hi => exact List.count_eq_one_of_mem List.nodup_range' (List.mem_range'_1.mpr (by omega))
  next hi => exact List.count_eq_zero.mpr fun hmem => hi (by have := List.mem_range'_1.mp hmem; omega)

theorem spans_lift (segment : ℕ) : (lift segment).Spans ⟨segment, segment + 1⟩ := by
  refine ⟨trivial, ?_, Nat.lt_succ_self segment⟩
  simp [segments]

theorem Spans.join {r' : SegmentRange} (h : left.Spans r) (h' : right.Spans r') (hnext : r.stop = r'.start) :
    (join left right).Spans ⟨r.start, r'.stop⟩ := by
  have hlt := h.lt
  have hlt' := h'.lt
  refine ⟨⟨h.joined, h'.joined⟩, ?_, by dsimp only; omega⟩
  have hstart : r'.start = r.start + (r.stop - r.start) := by omega
  have hlength : r'.stop - r.start = (r.stop - r.start) + (r'.stop - r'.start) := by omega
  rw [ClaimReceipt.segments, h.segments, h'.segments, hstart, List.range'_append_1, ← hstart]
  dsimp only
  rw [hlength]

/-- The first segment that a task is about. -/
def pivot : Task → ℕ
  | .proveSegment segment _ => segment
  | .lift segment _ => segment
  | .join _ left _ _ => left.segments.headD 0
  | _ => 0

theorem Joined.segments_ne_nil (h : t.Joined) : t.segments ≠ [] := by
  induction t with
  | lift segment => exact List.cons_ne_nil _ _
  | join left right ihl _ =>
    have hne := ihl h.1
    simp [segments, hne]
  | resolve => exact absurd h fun hfalse => hfalse
  | withClaim => exact absurd h fun hfalse => hfalse

theorem size_of_mem_makings {range : SegmentRange} {devMode' : Bool} (h : .join range left right devMode' ∈ t.makings devMode) :
    sizeOf (join left right) ≤ sizeOf t := by
  induction t with
  | lift segment => simp [makings] at h
  | join l r ihl ihr =>
    rw [makings, List.mem_cons, List.mem_append] at h
    obtain h | h | h := h
    · cases h
      exact le_refl _
    · have := ihl h
      simp only [join.sizeOf_spec] at this ⊢
      omega
    · have := ihr h
      simp only [join.sizeOf_spec] at this ⊢
      omega
  | resolve => exact absurd h List.not_mem_nil
  | withClaim => exact absurd h List.not_mem_nil

theorem Joined.count_makings_le (h : t.Joined) (x : Task) : (t.makings devMode).count x ≤ t.segments.count (pivot x) := by
  induction t with
  | lift segment =>
    by_cases hprove : x = .proveSegment segment devMode
    · subst hprove
      simp [makings, segments, pivot]
    · by_cases hlift : x = .lift segment devMode
      · subst hlift
        simp [makings, segments, pivot]
      · simp [makings, Ne.symm hprove, Ne.symm hlift]
  | join l r ihl ihr =>
    rw [makings, List.count_cons, List.count_append, segments, List.count_append]
    by_cases hx : x = .join ⟨l.range.start, r.range.stop⟩ l r devMode
    · have hl : x ∉ l.makings devMode := fun hmem => by
        rw [hx] at hmem
        have := size_of_mem_makings hmem
        simp only [join.sizeOf_spec] at this
        omega
      have hr : x ∉ r.makings devMode := fun hmem => by
        rw [hx] at hmem
        have := size_of_mem_makings hmem
        simp only [join.sizeOf_spec] at this
        omega
      have hfirst : 0 < l.segments.count (pivot x) := by
        obtain ⟨i, rest, hsegments⟩ := List.exists_cons_of_ne_nil h.1.segments_ne_nil
        rw [hx, pivot, hsegments]
        simp
      rw [List.count_eq_zero.mpr hl, List.count_eq_zero.mpr hr, hx]
      simp only [BEq.rfl, if_true]
      rw [hx] at hfirst
      omega
    · have := ihl h.1
      have := ihr h.2
      have hne : (Task.join ⟨l.range.start, r.range.stop⟩ l r devMode == x) = false := beq_eq_false_iff_ne.mpr (Ne.symm hx)
      rw [hne]
      simp only [Bool.false_eq_true, if_false]
      omega
  | resolve => exact absurd h fun hfalse => hfalse
  | withClaim => exact absurd h fun hfalse => hfalse

end ClaimReceipt

inductive TaskKind
  | execute
  | part
  | keccak
  | resolve
  deriving DecidableEq

namespace Task

def kind : Task → TaskKind
  | execute .. => .execute
  | proveSegment .. => .part
  | proveKeccak .. => .keccak
  | lift .. => .part
  | join .. => .part
  | union .. => .keccak
  | resolve .. => .resolve

def part : Task → ClaimReceipt
  | proveSegment segment _ => .lift segment
  | lift segment _ => .lift segment
  | join _ left right _ => .join left right
  | _ => .resolve (.lift 0) (.keccak 0)

def history : Task → List Task
  | proveSegment segment devMode => [.proveSegment segment devMode]
  | lift segment devMode => [.proveSegment segment devMode, .lift segment devMode]
  | join _ left right devMode => (ClaimReceipt.join left right).makings devMode
  | _ => []

/-- A task as the actor submits them. -/
def PartOk (devMode : Bool) : Task → Prop
  | proveSegment _ d => d = devMode
  | lift _ d => d = devMode
  | join range left right d => d = devMode ∧ (ClaimReceipt.join left right).Spans range
  | _ => True

end Task

open ClaimReceipt

theorem count_task_cons (x y : Task) (l : List Task) : (y :: l).count x = l.count x + if x = y then 1 else 0 := by
  by_cases h : x = y
  · subst h
    simp
  · rw [List.count_cons_of_ne (Ne.symm h), if_neg h, Nat.add_zero]

/-- The segments that the execution has not reported, the tasks of workers, and the parts of the actor. -/
structure Parts (n : ℕ) (devMode : Bool) (left : Multiset ℕ) (joins : OrderedMap SegmentRange ClaimReceipt) (work : Multiset Task)
    (log : Multiset Task) : Prop where
  cover : ∀ i, left.count i + (work.map fun task => task.part.segments.count i).sum + joins.total (fun _ t => t.segments.count i) =
    if i < n then 1 else 0
  spans : ∀ r t, joins.get? r = some t → t.Spans r
  tasks : ∀ task ∈ work, task.kind = .part ∧ task.PartOk devMode
  log : ∀ x, log.count x = (work.map fun task => task.history.count x).sum + joins.total (fun _ t => (t.makings devMode).count x)

/-- No two parts of the actor are neighbours. -/
def Apart (joins : OrderedMap SegmentRange ClaimReceipt) : Prop :=
  ∀ r r' t t', joins.get? r = some t → joins.get? r' = some t' → r.stop ≠ r'.start

variable {n : ℕ} {devMode : Bool} {left : Multiset ℕ} {joins : OrderedMap SegmentRange ClaimReceipt} {work log : Multiset Task}

theorem parts_start (n : ℕ) (devMode : Bool) : Parts n devMode (Multiset.range n) .empty 0 0 where
  cover i := by
    have htotal : (empty : OrderedMap SegmentRange ClaimReceipt).total (fun _ t => t.segments.count i) = 0 := rfl
    rw [htotal, Multiset.map_zero, Multiset.sum_zero]
    simp only [Nat.add_zero]
    split
    next hi => exact Multiset.count_eq_one_of_mem (Multiset.nodup_range n) (Multiset.mem_range.mpr hi)
    next hi => exact Multiset.count_eq_zero.mpr fun hmem => hi (Multiset.mem_range.mp hmem)
  spans r t h := by cases h
  tasks task h := absurd h (Multiset.notMem_zero task)
  log x := by
    rw [Multiset.map_zero, Multiset.sum_zero, Multiset.count_zero]
    rfl

namespace Parts

variable {i : ℕ} {r : SegmentRange}

theorem segment (h : Parts n devMode left joins work log) (hi : i ∈ left) :
    Parts n devMode (left.erase i) joins (.proveSegment i devMode ::ₘ work) (.proveSegment i devMode ::ₘ log) where
  cover j := by
    have hcover := h.cover j
    rw [Multiset.map_cons, Multiset.sum_cons]
    by_cases hj : j = i
    · subst hj
      have hpos := Multiset.count_pos.mpr hi
      have hone : (Task.proveSegment j devMode).part.segments.count j = 1 := List.count_singleton_self
      rw [Multiset.count_erase_self]
      omega
    · rw [Multiset.count_erase_of_ne hj]
      have hzero : (Task.proveSegment i devMode).part.segments.count j = 0 := by
        simp [Task.part, segments, Ne.symm hj]
      omega
  spans := h.spans
  tasks := by
    simp only [Multiset.mem_cons, forall_eq_or_imp]
    exact ⟨⟨rfl, rfl⟩, h.tasks⟩
  log x := by
    have hlog := h.log x
    rw [Multiset.count_cons, Multiset.map_cons, Multiset.sum_cons, hlog]
    have hhead : (Task.proveSegment i devMode).history.count x = if x = .proveSegment i devMode then 1 else 0 := by
      rw [Task.history, count_task_cons, List.count_nil, Nat.zero_add]
    rw [hhead]
    omega

theorem lift (h : Parts n devMode left joins (.proveSegment i devMode ::ₘ work) log) :
    Parts n devMode left joins (.lift i devMode ::ₘ work) (.lift i devMode ::ₘ log) where
  cover j := by
    have hcover := h.cover j
    rw [Multiset.map_cons, Multiset.sum_cons] at hcover ⊢
    exact hcover
  spans := h.spans
  tasks := by
    have htasks := h.tasks
    simp only [Multiset.mem_cons, forall_eq_or_imp] at htasks ⊢
    exact ⟨⟨rfl, rfl⟩, htasks.2⟩
  log x := by
    have hlog := h.log x
    rw [Multiset.map_cons, Multiset.sum_cons] at hlog ⊢
    rw [Multiset.count_cons, hlog]
    have hhead : (Task.lift i devMode).history.count x = (Task.proveSegment i devMode).history.count x + if x = .lift i devMode then 1 else 0 := by
      simp only [Task.history, count_task_cons, List.count_nil]
      omega
    rw [hhead]
    omega

theorem get?_eq_none (h : Parts n devMode left joins work log) (r' : SegmentRange) {t : ClaimReceipt}
    (hget : joins.get? r = some t) (hi : r.start ≤ i ∧ i < r.stop) (hi' : r'.start ≤ i ∧ i < r'.stop) (hne : r ≠ r') : joins.get? r' = none := by
  cases hget' : joins.get? r' with
  | none => rfl
  | some t' =>
    have hcover := h.cover i
    have hsplit := total_erase (fun _ (t : ClaimReceipt) => t.segments.count i) r joins
    rw [hget, Option.elim_some] at hsplit
    have herase : (joins.erase r).get? r' = some t' := by rw [get?_erase, if_neg (Ne.symm hne), hget']
    have hle := @le_total _ _ _ (fun _ (t : ClaimReceipt) => t.segments.count i) _ _ _ herase
    rw [(h.spans r t hget).count, if_pos hi] at hsplit
    rw [(h.spans r' t' hget').count, if_pos hi'] at hle
    split at hcover <;> omega

theorem insert {task : Task} (h : Parts n devMode left joins (task ::ₘ work) log) (hspans : task.part.Spans r)
    (hhistory : task.history = task.part.makings devMode) :
    joins.get? r = none ∧ Parts n devMode left (joins.insert r task.part) work log := by
  have hnone : joins.get? r = none := by
    cases hget : joins.get? r with
    | none => rfl
    | some t =>
      have hcover := h.cover r.start
      have hlt := hspans.lt
      have hle := @le_total _ _ _ (fun _ (t : ClaimReceipt) => t.segments.count r.start) _ _ _ hget
      rw [(h.spans r t hget).count, if_pos ⟨le_refl _, hlt⟩] at hle
      rw [Multiset.map_cons, Multiset.sum_cons, hspans.count, if_pos ⟨le_refl _, hlt⟩] at hcover
      split at hcover <;> omega
  refine ⟨hnone, fun i => ?_, fun r' t' hget => ?_, fun task' htask' => h.tasks task' (Multiset.mem_cons_of_mem htask'), fun x => ?_⟩
  · have hcover := h.cover i
    have htotal := total_insert (fun _ (t : ClaimReceipt) => t.segments.count i) r task.part joins
    rw [hnone, Option.elim_none, Nat.add_zero] at htotal
    rw [Multiset.map_cons, Multiset.sum_cons] at hcover
    omega
  · rw [get?_insert] at hget
    split at hget
    next heq =>
      cases hget
      rw [heq]
      exact hspans
    next => exact h.spans r' t' hget
  · have hlog := h.log x
    have htotal := total_insert (fun _ (t : ClaimReceipt) => (t.makings devMode).count x) r task.part joins
    rw [hnone, Option.elim_none, Nat.add_zero] at htotal
    rw [Multiset.map_cons, Multiset.sum_cons, hhistory] at hlog
    omega

theorem join (h : Parts n devMode left joins work log) {r' : SegmentRange} {t t' : ClaimReceipt} (hget : joins.get? r = some t)
    (hget' : joins.get? r' = some t') (hnext : r.stop = r'.start) :
    Parts n devMode left ((joins.erase r).erase r') (.join ⟨r.start, r'.stop⟩ t t' devMode ::ₘ work)
      (.join ⟨r.start, r'.stop⟩ t t' devMode ::ₘ log) := by
  have hspans := h.spans r t hget
  have hspans' := h.spans r' t' hget'
  have hne : r' ≠ r := fun heq => by
    have := hspans.lt
    rw [heq] at hnext
    omega
  have hsplit (q : SegmentRange → ClaimReceipt → ℕ) : ((joins.erase r).erase r').total q + q r' t' + q r t = joins.total q := by
    have hfirst := total_erase q r joins
    have hsecond := total_erase q r' (joins.erase r)
    rw [hget, Option.elim_some] at hfirst
    rw [get?_erase, if_neg hne, hget', Option.elim_some] at hsecond
    omega
  refine ⟨fun i => ?_, fun k u hk => ?_, ?_, fun x => ?_⟩
  · have hcover := h.cover i
    have htotal := hsplit fun _ t => t.segments.count i
    have hpart : (Task.join ⟨r.start, r'.stop⟩ t t' devMode).part.segments.count i = t.segments.count i + t'.segments.count i :=
      List.count_append
    rw [Multiset.map_cons, Multiset.sum_cons, hpart]
    omega
  · rw [get?_erase, get?_erase] at hk
    split at hk
    · cases hk
    · split at hk
      · cases hk
      · exact h.spans k u hk
  · simp only [Multiset.mem_cons, forall_eq_or_imp]
    exact ⟨⟨rfl, rfl, hspans.join hspans' hnext⟩, h.tasks⟩
  · have hlog := h.log x
    have htotal := hsplit fun _ t => (t.makings devMode).count x
    have hpart : (Task.join ⟨r.start, r'.stop⟩ t t' devMode).history.count x =
        (t.makings devMode).count x + (t'.makings devMode).count x + if x = .join ⟨r.start, r'.stop⟩ t t' devMode then 1 else 0 := by
      rw [Task.history, makings, hspans.range_eq, hspans'.range_eq, count_task_cons, List.count_append]
    rw [Multiset.count_cons, Multiset.map_cons, Multiset.sum_cons, hpart, hlog]
    omega

theorem nodup (h : Parts n devMode left joins work log) : log.Nodup := by
  have htask (task : Task) (htask : task ∈ work) (x : Task) : task.history.count x ≤ task.part.segments.count (pivot x) := by
    obtain ⟨hpart, hok⟩ := h.tasks task htask
    cases task with
    | proveSegment i d =>
      rw [Task.history, Task.part, segments, count_task_cons]
      split
      next heq =>
        subst heq
        simp [pivot]
      next => simp
    | lift i d =>
      obtain rfl : d = devMode := hok
      exact @Joined.count_makings_le (.lift i) d trivial x
    | join r t t' d =>
      obtain ⟨rfl, hspans⟩ := hok
      exact hspans.joined.count_makings_le x
    | execute => cases hpart
    | proveKeccak => cases hpart
    | union => cases hpart
    | resolve => cases hpart
  rw [Multiset.nodup_iff_count_le_one]
  intro x
  have hcover := h.cover (pivot x)
  have hwork : (work.map fun task => task.history.count x).sum ≤ (work.map fun task => task.part.segments.count (pivot x)).sum :=
    Multiset.sum_map_le_sum_map _ _ fun task hmem => htask task hmem x
  have hjoins : joins.total (fun _ t => (t.makings devMode).count x) ≤ joins.total fun _ t => t.segments.count (pivot x) := by
    refine List.sum_le_sum fun e he => ?_
    exact (h.spans e.1 e.2 (mem_entries_iff.mp he)).joined.count_makings_le x
  rw [h.log x]
  split at hcover <;> omega

end Parts

variable {l : List (SegmentRange × ClaimReceipt)}

theorem firstAdjacent_some {x y : SegmentRange × ClaimReceipt} (h : firstAdjacent l = some (x, y)) :
    x ∈ l ∧ y ∈ l ∧ x.1.stop = y.1.start := by
  induction l using firstAdjacent.induct with
  | case1 => cases h
  | case2 => cases h
  | case3 a b rest hnext =>
    rw [firstAdjacent, if_pos hnext] at h
    cases h
    exact ⟨List.mem_cons_self, List.mem_cons_of_mem _ List.mem_cons_self, hnext⟩
  | case4 a b rest hnext ih =>
    rw [firstAdjacent, if_neg hnext] at h
    obtain ⟨hx, hy, hadjacent⟩ := ih h
    exact ⟨List.mem_cons_of_mem _ hx, List.mem_cons_of_mem _ hy, hadjacent⟩

/-- Where neighbours are next to each other in the order, there are none if none are found. -/
theorem firstAdjacent_none (h : firstAdjacent l = none) (hsorted : (l.map Prod.fst).Pairwise (· < ·))
    (hbetween : ∀ x ∈ l, ∀ y ∈ l, ∀ z ∈ l, x.1.stop = y.1.start → x.1 < z.1 → z.1 < y.1 → False) :
    ∀ x ∈ l, ∀ y ∈ l, x.1 < y.1 → x.1.stop ≠ y.1.start := by
  induction l using firstAdjacent.induct with
  | case1 => exact fun x hx => absurd hx List.not_mem_nil
  | case2 e =>
    intro x hx y hy hlt
    rw [List.mem_singleton.mp hx, List.mem_singleton.mp hy] at hlt
    exact absurd hlt (lt_irrefl _)
  | case3 a b rest hnext =>
    rw [firstAdjacent, if_pos hnext] at h
    cases h
  | case4 a b rest hnext ih =>
    rw [firstAdjacent, if_neg hnext] at h
    rw [List.map_cons, List.pairwise_cons] at hsorted
    have htail := ih h hsorted.2 fun x hx y hy z hz =>
      hbetween x (List.mem_cons_of_mem _ hx) y (List.mem_cons_of_mem _ hy) z (List.mem_cons_of_mem _ hz)
    intro x hx y hy hlt hadjacent
    obtain rfl | hx' := List.mem_cons.mp hx
    · obtain rfl | hy' := List.mem_cons.mp hy
      · exact lt_irrefl _ hlt
      · obtain rfl | hy'' := List.mem_cons.mp hy'
        · exact hnext hadjacent
        · have hfirst := hsorted.1 b.1 List.mem_cons_self
          have hsecond : b.1 < y.1 := by
            have htail := hsorted.2
            rw [List.map_cons, List.pairwise_cons] at htail
            exact htail.1 y.1 (List.mem_map_of_mem hy'')
          exact hbetween x List.mem_cons_self y hy b (List.mem_cons_of_mem _ List.mem_cons_self)
            hadjacent hfirst hsecond
    · obtain rfl | hy' := List.mem_cons.mp hy
      · exact lt_asymm hlt (hsorted.1 x.1 (List.mem_map_of_mem hx'))
      · exact htail x hx' y hy' hlt hadjacent

theorem Parts.apart (h : Parts n devMode left joins work log) (hnone : firstAdjacent joins.entries = none) : Apart joins := by
  have hget {e : SegmentRange × ClaimReceipt} (he : e ∈ joins.entries) : joins.get? e.1 = some e.2 := mem_entries_iff.mp he
  have hpairs := firstAdjacent_none hnone joins.sorted fun x hx y hy z hz hnext hxz hzy => by
    have hxlt := (h.spans x.1 x.2 (hget hx)).lt
    have hylt := (h.spans y.1 y.2 (hget hy)).lt
    have hzlt := (h.spans z.1 z.2 (hget hz)).lt
    rw [SegmentRange.lt_iff] at hxz hzy
    by_cases hstart : z.1.start < x.1.stop
    · have := h.get?_eq_none x.1 (hget hz) ⟨le_refl _, hzlt⟩ (by omega) fun heq => by
        rw [heq] at hxz
        omega
      rw [hget hx] at this
      cases this
    · have := h.get?_eq_none y.1 (hget hz) ⟨le_refl _, hzlt⟩ (by omega) fun heq => by
        rw [heq] at hzy
        omega
      rw [hget hy] at this
      cases this
  intro r r' t t' hr hr' hnext
  have hlt := (h.spans r t hr).lt
  refine hpairs (r, t) (mem_entries_iff.mpr hr) (r', t') (mem_entries_iff.mpr hr') ?_ hnext
  exact SegmentRange.lt_iff.mpr (.inl (by dsimp only; omega))

def rootOf (n : ℕ) (joins : OrderedMap SegmentRange ClaimReceipt) : Option ClaimReceipt :=
  match joins.entries.head? with
  | none => none
  | some (range, root) => if range.start = 0 ∧ range.stop = n then some root else none

theorem rootOf_some {t : ClaimReceipt} (h : rootOf n joins = some t) : joins.get? ⟨0, n⟩ = some t := by
  unfold rootOf at h
  cases hhead : joins.entries.head? with
  | none =>
    rw [hhead] at h
    cases h
  | some e =>
    obtain ⟨⟨start, stop⟩, root⟩ := e
    rw [hhead] at h
    change (if start = 0 ∧ stop = n then some root else none) = some t at h
    by_cases hrange : start = 0 ∧ stop = n
    · rw [if_pos hrange] at h
      cases h
      obtain ⟨rfl, rfl⟩ := hrange
      exact mem_entries_iff.mp (List.mem_of_mem_head? hhead)
    · rw [if_neg hrange] at h
      cases h

namespace Parts

theorem idle_of_root (h : Parts n devMode left joins work log) {t : ClaimReceipt} (hroot : rootOf n joins = some t) :
    left = 0 ∧ work = 0 ∧ t.Spans ⟨0, n⟩ ∧ ∀ x, log.count x = (t.makings devMode).count x := by
  have hget := rootOf_some hroot
  have hspans := h.spans _ t hget
  have hfull (i : ℕ) : left.count i + (work.map fun task => task.part.segments.count i).sum = 0 := by
    have hcover := h.cover i
    have hle := @le_total _ _ _ (fun _ (t : ClaimReceipt) => t.segments.count i) _ _ _ hget
    rw [hspans.count] at hle
    simp only [Nat.zero_le, true_and] at hle
    omega
  have hleft : left = 0 := Multiset.eq_zero_of_forall_notMem fun i hi => by
    have := hfull i
    have := Multiset.count_pos.mpr hi
    omega
  have hwork : work = 0 := by
    refine Multiset.eq_zero_of_forall_notMem fun task htask => ?_
    obtain ⟨rest, rfl⟩ := Multiset.exists_cons_of_mem htask
    have hnonempty : task.part.segments ≠ [] := by
      obtain ⟨hpart, hok⟩ := h.tasks task htask
      cases task with
      | proveSegment => exact List.cons_ne_nil _ _
      | lift => exact List.cons_ne_nil _ _
      | join => exact hok.2.joined.segments_ne_nil
      | execute => cases hpart
      | proveKeccak => cases hpart
      | union => cases hpart
      | resolve => cases hpart
    obtain ⟨i, hi⟩ := List.exists_mem_of_ne_nil _ hnonempty
    have hzero := hfull i
    have hpos := List.count_pos_iff.mpr hi
    rw [Multiset.map_cons, Multiset.sum_cons] at hzero
    omega
  have honly : ∀ e ∈ joins.entries, e.1 = ⟨0, n⟩ := by
    intro e he
    by_contra hne
    have hgetE := mem_entries_iff.mp he
    have hspansE := h.spans e.1 e.2 hgetE
    have hlt := hspansE.lt
    have hbound : e.1.start < n := by
      have hcover := h.cover e.1.start
      have hle := @le_total _ _ _ (fun _ (t : ClaimReceipt) => t.segments.count e.1.start) _ _ _ hgetE
      rw [hspansE.count, if_pos ⟨le_refl _, hlt⟩] at hle
      by_contra hge
      rw [if_neg hge] at hcover
      omega
    have := h.get?_eq_none e.1 hget ⟨Nat.zero_le _, hbound⟩ ⟨le_refl _, hlt⟩ (Ne.symm hne)
    rw [hgetE] at this
    cases this
  refine ⟨hleft, hwork, hspans, fun x => ?_⟩
  have hsingle := total_single ⟨0, n⟩ (fun t : ClaimReceipt => (t.makings devMode).count x) joins
  rw [hget, Option.elim_some] at hsingle
  rw [h.log x, hwork, Multiset.map_zero, Multiset.sum_zero, Nat.zero_add]
  refine Eq.trans (congrArg List.sum (List.map_congr_left fun e he => ?_)) hsingle
  exact (if_pos (honly e he)).symm

theorem root_of_idle (h : Parts n devMode 0 joins 0 log) (hapart : Apart joins) (hn : 0 < n) : ∃ t, rootOf n joins = some t := by
  have hcover (i : ℕ) (hi : i < n) : ∃ r t, joins.get? r = some t ∧ r.start ≤ i ∧ i < r.stop := by
    have hcount := h.cover i
    rw [Multiset.count_zero, Multiset.map_zero, Multiset.sum_zero, if_pos hi] at hcount
    by_contra hnone
    have hzero : joins.total (fun _ t => t.segments.count i) = 0 := by
      refine total_eq_zero fun r t hget => ?_
      rw [(h.spans r t hget).count, if_neg fun hi => hnone ⟨r, t, hget, hi⟩]
    omega
  have hbound (r : SegmentRange) (t : ClaimReceipt) (hget : joins.get? r = some t) : r.stop ≤ n := by
    have hspans := h.spans r t hget
    have hlt := hspans.lt
    have hcount := h.cover (r.stop - 1)
    have hle := @le_total _ _ _ (fun _ (t : ClaimReceipt) => t.segments.count (r.stop - 1)) _ _ _ hget
    rw [hspans.count, if_pos (by omega)] at hle
    by_contra hgt
    rw [if_neg (by omega)] at hcount
    omega
  obtain ⟨r, t, hget, hstart, hstop⟩ := hcover 0 hn
  have hend : r.stop = n := by
    obtain heq | hlt := (hbound r t hget).eq_or_lt
    · exact heq
    · -- The next part starts where this one ends.
      obtain ⟨r', t', hget', hle, hlt'⟩ := hcover r.stop hlt
      have hne : r'.start ≠ r.stop := fun heq => hapart r r' t t' hget hget' heq.symm
      have := h.get?_eq_none r' hget (i := r'.start) ⟨by omega, by omega⟩ ⟨le_refl _, by omega⟩ fun heq => by
        rw [heq] at hlt'
        exact lt_irrefl _ hlt'
      rw [hget'] at this
      cases this
  have hmem := mem_entries_iff.mpr hget
  unfold rootOf
  cases hentries : joins.entries with
  | nil =>
    rw [hentries] at hmem
    exact absurd hmem List.not_mem_nil
  | cons e rest =>
    rw [hentries] at hmem
    have hfirst : e.1 = r := by
      obtain heq | hrest := List.mem_cons.mp hmem
      · rw [← heq]
      · have hsorted := joins.sorted
        rw [hentries, List.map_cons, List.pairwise_cons] at hsorted
        have hlt := hsorted.1 r (List.mem_map_of_mem hrest)
        have hgetE : joins.get? e.1 = some e.2 := mem_entries_iff.mp (by rw [hentries]; exact List.mem_cons_self)
        have hltE := (h.spans e.1 e.2 hgetE).lt
        rw [SegmentRange.lt_iff] at hlt
        have := h.get?_eq_none e.1 hget (i := 0) ⟨hstart, hstop⟩ ⟨by omega, by omega⟩ fun heq => by
          rw [heq] at hlt
          omega
        rw [hgetE] at this
        cases this
    refine ⟨e.2, ?_⟩
    rw [List.head?_cons]
    exact if_pos ⟨by rw [hfirst]; omega, by rw [hfirst, hend]⟩

end Parts

theorem maybeJoin_ok {devModeDisabled : Bool} {task : Task} {r : SegmentRange} (h : Parts n devMode left joins (task ::ₘ work) log)
    (hapart : Apart joins) (hspans : task.part.Spans r) (hhistory : task.history = task.part.makings devMode) {a : JobActor}
    (hjoins : a.joins = joins.insert r task.part) (hdev : a.checkDevMode devModeDisabled = .ok devMode) :
    ∃ joins' new, a.maybeJoin devModeDisabled = .ok { a with joins := joins', outbox := a.outbox ++ new } ∧
      Parts n devMode left joins' (work + (new : List Task)) (log + (new : List Task)) ∧ Apart joins' ∧ ∀ x ∈ new, x.kind = .part := by
  obtain ⟨hnone, hparts⟩ := h.insert hspans hhistory
  have hget (k : SegmentRange) : (joins.insert r task.part).get? k = if k = r then some task.part else joins.get? k := by
    rw [get?_insert]
    split <;> rfl
  unfold JobActor.maybeJoin
  rw [hjoins]
  cases hadjacent : firstAdjacent (joins.insert r task.part).entries with
  | none =>
    refine ⟨joins.insert r task.part, [], ?_, ?_, hparts.apart hadjacent, fun x hx => absurd hx List.not_mem_nil⟩
    · simp only [List.append_nil]
      rw [← hjoins]
    · rw [Multiset.coe_nil, add_zero, add_zero]
      exact hparts
  | some pair =>
    obtain ⟨x, y⟩ := pair
    obtain ⟨hx, hy, hnext⟩ := firstAdjacent_some hadjacent
    have hx := mem_entries_iff.mp hx
    have hy := mem_entries_iff.mp hy
    refine ⟨((joins.insert r task.part).erase x.1).erase y.1, [.join ⟨x.1.start, y.1.stop⟩ x.2 y.2 devMode], ?_, ?_,
      fun k k' t t' hk hk' hclose => ?_, ?_⟩
    · exact bind_ok_iff.mpr ⟨devMode, hdev, rfl⟩
    · rw [Multiset.coe_singleton, add_comm, add_comm log]
      exact hparts.join hx hy hnext
    · -- One of the neighbours is the new part, so what is left was there before.
      have hold {k : SegmentRange} {t : ClaimReceipt}
          (hk : (((joins.insert r task.part).erase x.1).erase y.1).get? k = some t) : joins.get? k = some t := by
        rw [get?_erase, get?_erase] at hk
        split at hk
        next => cases hk
        next hky =>
          split at hk
          next => cases hk
          next hkx =>
            rw [hget] at hk
            split at hk
            next hkr =>
              rw [hget] at hx hy
              rw [if_neg fun heq => hkx (hkr.trans heq.symm)] at hx
              rw [if_neg fun heq => hky (hkr.trans heq.symm)] at hy
              exact absurd hnext (hapart x.1 y.1 x.2 y.2 hx hy)
            next => exact hk
      exact hapart k k' t t' (hold hk) (hold hk') hclose
    · intro z hz
      rw [List.mem_singleton.mp hz]
      rfl

end VerifiableCompute.ProofJob
