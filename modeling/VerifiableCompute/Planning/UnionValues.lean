import VerifiableCompute.Lib.Mountain
import VerifiableCompute.Planning.Correct

/-! The value of a tree of unions: its leaves are the keccak batches in the order of their
calls, and its root is the root of the mountain over them. -/

namespace VerifiableCompute.Planning

open Lib List

variable {D : Type} (join : D → D → D) (leaf : ℕ → D)

def keccaksBefore (tasks : List Task) (n : ℕ) : ℕ := (tasks.take n).countP fun t => t.command = .keccak

def unionValue (tasks : List Task) (n : ℕ) : Option D :=
  match tasks[n]? with
  | none => none
  | some t =>
    match t.command, t.keccakDependsOn with
    | .keccak, _ => some (leaf (keccaksBefore tasks n))
    | .union, [left, right] =>
      if _ : left < n ∧ right < n then do
        let l ← unionValue tasks left
        let r ← unionValue tasks right
        return join l r
      else none
    | _, _ => none
termination_by n

variable {join leaf} {tasks : List Task}
variable {n a b top : ℕ} {tree : ℕ × D} {trees : List (ℕ × D)} {rest : List ℕ}

theorem keccaksBefore_append (hn : n ≤ tasks.length) (more : List Task) :
    keccaksBefore (tasks ++ more) n = keccaksBefore tasks n := by
  rw [keccaksBefore, take_append_of_le_length hn, keccaksBefore]

theorem unionValue_append (hn : n < tasks.length) (more : List Task) :
    unionValue join leaf (tasks ++ more) n = unionValue join leaf tasks n := by
  induction n using Nat.strong_induction_on with
  | _ n ih =>
    have htask : (tasks ++ more)[n]? = tasks[n]? := getElem?_append_left hn
    rw [unionValue, unionValue, htask, keccaksBefore_append hn.le]
    split
    · rfl
    · split
      · rfl
      · split
        next h => rw [ih _ h.1 (by omega), ih _ h.2 (by omega)]
        next => rfl
      · rfl

theorem unionValue_keccak (tasks : List Task) (t : Task) (h : t.command = .keccak) :
    unionValue join leaf (tasks ++ [t]) tasks.length = some (leaf (tasks.countP fun t => t.command = .keccak)) := by
  rw [unionValue, getElem?_concat_length]
  simp only [h]
  rw [keccaksBefore_append le_rfl, keccaksBefore, take_length]

theorem unionValue_union {x y : D} (ha : a < tasks.length) (hb : b < tasks.length)
    (hx : unionValue join leaf tasks a = some x) (hy : unionValue join leaf tasks b = some y) :
    unionValue join leaf (tasks ++ [pairTask unions tasks a b]) tasks.length = some (join x y) := by
  rw [unionValue, getElem?_concat_length]
  show (if h : a < tasks.length ∧ b < tasks.length then _ else none : Option D) = _
  rw [dif_pos ⟨ha, hb⟩, unionValue_append ha, unionValue_append hb, hx, hy]
  rfl

variable (join leaf) in
structure PeakOf (tasks : List Task) (p : ℕ) (tree : ℕ × D) : Prop where
  lt_length : p < tasks.length
  height : heightAt tasks p = tree.1
  value : unionValue join leaf tasks p = some tree.2

theorem PeakOf.append {p : ℕ} (h : PeakOf join leaf tasks p tree) (more : List Task) :
    PeakOf join leaf (tasks ++ more) p tree := by
  refine ⟨?_, ?_, ?_⟩
  · have := h.lt_length
    rw [length_append]
    omega
  · rw [heightAt_append more h.lt_length, h.height]
  · rw [unionValue_append h.lt_length, h.value]

theorem peaksOf_append {ps : List ℕ} (h : Forall₂ (PeakOf join leaf tasks) ps trees) (more : List Task) :
    Forall₂ (PeakOf join leaf (tasks ++ more)) ps trees := by
  induction h with
  | nil => exact .nil
  | cons hpeak _ ih => exact .cons (hpeak.append more) ih

theorem PeakOf.pair {x y : ℕ × D} (ha : PeakOf join leaf tasks a x) (hb : PeakOf join leaf tasks b y) :
    PeakOf join leaf (tasks ++ [pairTask unions tasks a b]) tasks.length (1 + max x.1 y.1, join x.2 y.2) := by
  refine ⟨by simp, ?_, ?_⟩
  · rw [Merging.heightAt_pair lawful_unions, ha.height, hb.height]
  · exact unionValue_union ha.lt_length hb.lt_length ha.value hb.value

theorem mergePeaks_value {peaks : List ℕ} {newPeak : ℕ}
    (h : Forall₂ (PeakOf join leaf tasks) peaks trees) (hnew : PeakOf join leaf tasks newPeak tree)
    (hle : ∀ p ∈ trees, tree.1 ≤ p.1) (hsorted : trees.Pairwise fun a b => a.1 < b.1) :
    ∃ rest top more, mergePeaks (enqueuePair unions) peaks newPeak tasks = .ok (rest, top, tasks ++ more) ∧
      (∀ t ∈ more, t.command = .union) ∧
      Forall₂ (PeakOf join leaf (tasks ++ more)) (top :: rest) (carry join tree.1 tree.2 trees) := by
  induction peaks generalizing newPeak tree tasks trees with
  | nil =>
    cases h
    refine ⟨[], newPeak, [], by simp [mergePeaks], by simp, ?_⟩
    rw [append_nil]
    exact .cons hnew .nil
  | cons smallest peaks ih =>
    obtain ⟨small, trees, hpeak, hpeaks, rfl⟩ := forall₂_cons_left_iff.mp h
    obtain ⟨newTask, hgetNew, hnewHeight⟩ := getTask_ok hnew.lt_length
    obtain ⟨smallTask, hgetSmall, hsmallHeight⟩ := getTask_ok hpeak.lt_length
    obtain ⟨hbelow, hrest⟩ := pairwise_cons.mp hsorted
    obtain heq | hlt := (hle small mem_cons_self).eq_or_lt
    · have hmerge : mergePeaks (enqueuePair unions) (smallest :: peaks) newPeak tasks =
          mergePeaks (enqueuePair unions) peaks tasks.length (tasks ++ [pairTask unions tasks smallest newPeak]) := by
        rw [mergePeaks, hgetNew, hgetSmall]
        simp only [bind, Except.bind]
        rw [hnewHeight, hsmallHeight, hnew.height, hpeak.height, compare_eq_iff_eq.mpr heq, enqueuePair_ok hpeak.lt_length hnew.lt_length]
      have hpair := hpeak.pair hnew
      rw [heq, max_self, Nat.add_comm] at hpair
      obtain ⟨rest, top, more, hok, hunion, hvalues⟩ := ih (peaksOf_append hpeaks [pairTask unions tasks smallest newPeak]) hpair
        (fun p hp => hbelow p hp) hrest
      rw [append_assoc] at hok hvalues
      refine ⟨rest, top, pairTask unions tasks smallest newPeak :: more, hmerge.trans hok, fun t ht => ?_, ?_⟩
      · obtain rfl | ht := mem_cons.mp ht
        · rfl
        · exact hunion t ht
      · rw [carry, if_pos heq, heq]
        exact hvalues
    · have hstop : mergePeaks (enqueuePair unions) (smallest :: peaks) newPeak tasks = .ok (smallest :: peaks, newPeak, tasks) := by
        rw [mergePeaks, hgetNew, hgetSmall]
        simp only [bind, Except.bind]
        rw [hnewHeight, hsmallHeight, hnew.height, hpeak.height, compare_lt_iff_lt.mpr hlt]
        rfl
      refine ⟨smallest :: peaks, newPeak, [], by rw [hstop, append_nil], by simp, ?_⟩
      rw [carry, if_neg hlt.ne, append_nil]
      exact .cons hnew (.cons hpeak hpeaks)

theorem collapse_value (hcomm : ∀ a b, join a b = join b a)
    (h : Forall₂ (PeakOf join leaf tasks) rest trees) (htop : PeakOf join leaf tasks top tree) :
    ∃ root more, collapse (enqueuePair unions) top rest tasks = .ok (root, tasks ++ more) ∧ (∀ t ∈ more, t.command = .union) ∧
      root < (tasks ++ more).length ∧
      unionValue join leaf (tasks ++ more) root = some ((trees.map Prod.snd).foldl join tree.2) := by
  induction rest generalizing top tree tasks trees with
  | nil =>
    cases h
    refine ⟨top, [], by simp [collapse], by simp, ?_⟩
    rw [append_nil]
    exact ⟨htop.lt_length, htop.value⟩
  | cons next rest ih =>
    obtain ⟨nextTree, trees, hnext, hrest, rfl⟩ := forall₂_cons_left_iff.mp h
    obtain ⟨root, more, hok, hunion, hlt, hvalue⟩ := ih (peaksOf_append hrest [pairTask unions tasks next top]) (hnext.pair htop)
    rw [append_assoc] at hok hlt hvalue
    refine ⟨root, pairTask unions tasks next top :: more, ?_, fun t ht => ?_, hlt, ?_⟩
    · rw [collapse, enqueuePair_ok hnext.lt_length htop.lt_length]
      exact hok
    · obtain rfl | ht := mem_cons.mp ht
      · rfl
      · exact hunion t ht
    · rw [map_cons, foldl_cons, hcomm tree.2]
      exact hvalue

variable (join leaf) in
/-- The keccak peaks are the trees over the batches so far. -/
structure Mountainous (p : Planner) (keccaks : ℕ) : Prop where
  peaks : List.Forall₂ (PeakOf join leaf p.tasks) p.keccakPeaks.reverse (mountain join leaf 0 keccaks)
  count : (p.tasks.countP fun t => t.command = .keccak) = keccaks

variable {p p' : Planner} {segments keccaks : ℕ}

theorem countP_append_of_ne {more : List Task} (h : ∀ t ∈ more, t.command ≠ .keccak) :
    ((tasks ++ more).countP fun t => t.command = .keccak) = tasks.countP fun t => t.command = .keccak := by
  have hnone : (more.countP fun t => t.command = .keccak) = 0 := countP_eq_zero.mpr fun t ht => by simpa using h t ht
  rw [countP_append, hnone, Nat.add_zero]

theorem Mountainous.enqueueSegment (h : Mountainous join leaf p keccaks) (hgood : p.Good segments keccaks)
    (hok : enqueueSegment p = .ok (n, p')) : Mountainous join leaf p' keccaks := by
  obtain ⟨peaks, more, hleaf, hmore, -⟩ := enqueueLeaf_ok lawful_joins hgood.placed hgood.joins
  rw [Planning.enqueueSegment, hgood.unfinished, enqueueJoin, hleaf] at hok
  cases hok
  refine ⟨peaksOf_append h.peaks _, ?_⟩
  rw [countP_append_of_ne, h.count]
  intro t ht
  obtain rfl | ht := mem_cons.mp ht
  · exact Command.noConfusion
  · rw [hmore t ht]
    decide

theorem Mountainous.enqueueKeccak (h : Mountainous join leaf p keccaks) (hgood : p.Good segments keccaks)
    (hok : enqueueKeccak p = .ok (n, p')) : Mountainous join leaf p' (keccaks + 1) := by
  have hnew : PeakOf join leaf (p.tasks ++ [.newKeccak p.tasks.length]) p.tasks.length (0, leaf keccaks) := by
    refine ⟨by simp, heightAt_length _ _, ?_⟩
    rw [unionValue_keccak _ _ rfl, h.count]
  obtain ⟨rest, top, more, hmerge, hunion, hpeaks⟩ := mergePeaks_value (peaksOf_append h.peaks [.newKeccak p.tasks.length]) hnew
    (fun _ _ => Nat.zero_le _) (mountain_sorted 0 keccaks)
  have hcarry := @carry_mountain D join leaf 0 keccaks
  rw [subtree] at hcarry
  have hleaf : enqueueLeaf unions enqueueUnion p.keccakPeaks p.tasks =
      .ok (rest.reverse ++ [top], p.tasks ++ [.newKeccak p.tasks.length] ++ more) := by
    rw [enqueueLeaf]
    exact bind_ok_iff.mpr ⟨_, hmerge, rfl⟩
  rw [Planning.enqueueKeccak, hgood.unfinished, hleaf] at hok
  cases hok
  refine ⟨?_, ?_⟩
  · show Forall₂ _ (rest.reverse ++ [top]).reverse _
    rw [reverse_append, reverse_reverse, ← hcarry]
    exact hpeaks
  · show ((p.tasks ++ [Task.newKeccak p.tasks.length] ++ more).countP _) = _
    rw [countP_append_of_ne fun t ht => by rw [hunion t ht]; decide, countP_append, h.count]
    rfl

theorem enqueueAll_mountainous {calls : List Enqueue} (h : Mountainous join leaf p keccaks) (hgood : p.Good segments keccaks)
    (hok : enqueueAll calls p = .ok p') : Mountainous join leaf p' (keccaks + calls.count .keccak) := by
  induction calls generalizing p segments keccaks with
  | nil =>
    cases hok
    exact h
  | cons call calls ih =>
    obtain ⟨⟨n, q⟩, hcall, hrest⟩ := bind_ok_iff.mp hok
    cases call with
    | segment =>
      obtain ⟨n', q', hq, hgood'⟩ := enqueueSegment_ok hgood
      obtain ⟨rfl, rfl⟩ : n = n' ∧ q = q' := by simpa using hcall.symm.trans hq
      simpa using ih (h.enqueueSegment hgood hq) hgood' hrest
    | keccak =>
      obtain ⟨n', q', hq, hgood'⟩ := enqueueKeccak_ok hgood
      obtain ⟨rfl, rfl⟩ : n = n' ∧ q = q' := by simpa using hcall.symm.trans hq
      simpa [Nat.add_assoc, Nat.add_comm 1] using ih (h.enqueueKeccak hgood hq) hgood' hrest

theorem collapse_appends {fam : Family} {root : ℕ} {tasks' : List Task}
    (h : collapse (enqueuePair fam) top rest tasks = .ok (root, tasks')) : ∃ more, tasks' = tasks ++ more := by
  induction rest generalizing top tasks with
  | nil =>
    cases h
    exact ⟨[], (append_nil _).symm⟩
  | cons next rest ih =>
    obtain ⟨⟨top', tasks₁⟩, hpair, hrest⟩ := bind_ok_iff.mp h
    obtain ⟨l, -, h1⟩ := bind_ok_iff.mp hpair
    obtain ⟨r, -, h2⟩ := bind_ok_iff.mp h1
    cases h2
    obtain ⟨more, rfl⟩ := ih hrest
    exact ⟨_, append_assoc ..⟩

theorem plan_keccakRoot (hcomm : ∀ a b, join a b = join b a) {calls : List Enqueue} (hkeccak : 0 < calls.count .keccak) {last : ℕ}
    (hplan : plan calls = .ok (last, p)) : ∃ final root, p.tasks[last]? = some final ∧ final.keccakDependsOn = [root] ∧
      unionValue join leaf p.tasks root = mountainRoot join leaf (calls.count .keccak) := by
  obtain ⟨q, hcalls, hfinish⟩ := bind_ok_iff.mp hplan
  obtain ⟨q', hq', hgood⟩ := enqueueAll_ok calls .default 0 0 good_default
  rw [hcalls] at hq'
  cases hq'
  have hmountain := @enqueueAll_mountainous D join leaf .default q 0 0 calls ⟨by rw [mountain_zero]; exact .nil, rfl⟩ good_default hcalls
  rw [Nat.zero_add] at hmountain
  have hpeaks := forall₂_reverse_iff.mpr hmountain.peaks
  rw [reverse_reverse] at hpeaks
  unfold finish at hfinish
  split at hfinish
  · cases hfinish
  · obtain ⟨⟨keccakDependsOn, q₁⟩, hunions, h1⟩ := bind_ok_iff.mp hfinish
    unfold finishUnions at hunions
    cases hlist : (mountain join leaf 0 (calls.count .keccak)).reverse with
    | nil =>
      rw [reverse_eq_nil_iff] at hlist
      exact absurd hlist (mountain_ne_nil hkeccak)
    | cons tree trees =>
      rw [hlist] at hpeaks
      cases hkeccakPeaks : q.keccakPeaks with
      | nil =>
        rw [hkeccakPeaks] at hpeaks
        cases hpeaks
      | cons front rest =>
        rw [hkeccakPeaks] at hpeaks hunions
        obtain ⟨hfront, hrest⟩ := forall₂_cons.mp hpeaks
        obtain ⟨root, more, hcollapse, -, hlt, hvalue⟩ := collapse_value hcomm hrest hfront
        obtain ⟨⟨peak, tasks⟩, hcollapse', h2⟩ := bind_ok_iff.mp hunions
        rw [enqueueUnion, hcollapse] at hcollapse'
        cases hcollapse'
        cases h2
        have hroot : mountainRoot join leaf (calls.count .keccak) = some ((trees.map Prod.snd).foldl join tree.2) := by
          rw [mountainRoot, ← map_reverse, hlist]
          rfl
        simp only [hgood.unfinished] at h1
        split at h1
        next hlast => cases hlast
        next => cases h1
        next back rest' _ _ =>
          obtain ⟨⟨peak, tasks⟩, hjoins, h3⟩ := bind_ok_iff.mp h1
          obtain ⟨more', rfl⟩ := collapse_appends hjoins
          obtain ⟨⟨final, tasks'⟩, hfinalize, h4⟩ := bind_ok_iff.mp h3
          cases h4
          obtain ⟨segmentTask, -, h5⟩ := bind_ok_iff.mp hfinalize
          obtain ⟨height, -, h6⟩ := bind_ok_iff.mp h5
          cases h6
          refine ⟨_, root, getElem?_concat_length, rfl, ?_⟩
          show unionValue join leaf (q.tasks ++ more ++ more' ++ _) root = _
          rw [append_assoc, unionValue_append hlt, hvalue, hroot]

end VerifiableCompute.Planning
