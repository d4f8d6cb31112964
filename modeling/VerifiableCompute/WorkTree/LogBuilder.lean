import VerifiableCompute.Claim.Recursion
import VerifiableCompute.Lib.Sha256
import VerifiableCompute.WorkTree.Openings

/-! The guest that extends the commit of a work log by the jobs of work claims. It sees no log: the opening of each
job shows that the job was empty, and over the same path it computes the root with the job. -/

namespace VerifiableCompute.WorkTree

open Lib Binfmt Claim WordOrder List

structure Journal where
  workLogId : PovwLogId
  initialCommit : Digest
  updatedCommit : Digest
  updateValue : BitVec 64
  selfImageId : Digest

inductive State
  | initial (workLogId : PovwLogId)
  | continuation (journal : Journal)

abbrev JobOpening := SubtreeOpening WorkLog.treeHeight Job.treeHeight

structure WorkLogUpdate where
  claim : WorkClaim Unknown
  noninclusionProof : JobOpening

structure Input where
  selfImageId : Digest
  state : State
  updates : List WorkLogUpdate

inductive GuestPanic
  | verify
  | selfImageId
  | verifyAssumption
  | workPruned
  | nonceMinLog
  | nonceMaxLog
  | nonceJobs
  | noninclusion (e : TreeError)
  | segmentNotZero
  | jobCommit (e : TreeError)
  | overflow

/-- What the host answers, and how the guest was built. -/
structure GuestHost where
  verify : Digest → Journal → Bool
  verifyAssumption : Digest → Bool
  overflowChecks : Bool

def unwrapTree {α : Type} (panic : TreeError → GuestPanic) : Except TreeError α → Except GuestPanic α
  | .ok a => .ok a
  | .error e => .error (panic e)

namespace LogBuilder

variable (sha : Sha256) (host : GuestHost)

def addValue (x y : BitVec 64) : Except GuestPanic (BitVec 64) :=
  if host.overflowChecks then checkedAdd .overflow x y else .ok (x + y)

/-- The work log and its commit before the updates. -/
def start (input : Input) : Except GuestPanic (PovwLogId × Digest) :=
  match input.state with
  | .initial workLogId => do
    let initialCommit ← unwrapTree .jobCommit (WorkLog.EMPTY.commit sha)
    return (workLogId, initialCommit)
  | .continuation journal => do
    require (host.verify input.selfImageId journal) .verify
    require (input.selfImageId = journal.selfImageId) .selfImageId
    return (journal.workLogId, journal.updatedCommit)

def workOf (claim : WorkClaim Unknown) : Except GuestPanic Work :=
  match claim.work with
  | .value work => .ok work
  | .pruned _ => .error .workPruned

/-- The index of the first position of a job. -/
def jobIndex (jobNumber : BitVec 64) : ℕ := jobNumber.toNat <<< 32

/-- The root and the value after one update. -/
def update (workLogId : PovwLogId) (acc : Digest × BitVec 64) (u : WorkLogUpdate) : Except GuestPanic (Digest × BitVec 64) := do
  require (host.verifyAssumption (digest sha u.claim)) .verifyAssumption
  let work ← workOf u.claim
  require (work.nonceMin.log = workLogId) .nonceMinLog
  require (work.nonceMax.log = workLogId) .nonceMaxLog
  require (work.nonceMin.job = work.nonceMax.job) .nonceJobs
  unwrapTree .noninclusion (u.noninclusionProof.verifyEmpty sha acc.1 (jobIndex work.nonceMin.job))
  require (work.nonceMin.segment = 0) .segmentNotZero
  let jobCommit ← unwrapTree .jobCommit ((Job.new work.nonceMax.segment).commit sha)
  let updateValue ← addValue host acc.2 work.value
  return (u.noninclusionProof.root sha jobCommit (jobIndex work.nonceMin.job), updateValue)

def main (input : Input) : Except GuestPanic Journal := do
  let (workLogId, initialCommit) ← start sha host input
  let (root, updateValue) ← input.updates.foldlM (update sha host workLogId) (initialCommit, 0)
  return { workLogId, initialCommit, updatedCommit := root, updateValue, selfImageId := input.selfImageId }

end LogBuilder

namespace LogBuilder

variable {sha : Sha256} {host : GuestHost}

theorem unwrapTree_ok_iff {α : Type} {panic : TreeError → GuestPanic} {x : Except TreeError α} {a : α} :
    unwrapTree panic x = .ok a ↔ x = .ok a := by
  cases x <;> simp [unwrapTree]

/-- The checks of one update, and what it gives. -/
structure Updates (sha : Sha256) (host : GuestHost) (workLogId : PovwLogId) (acc acc' : Digest × BitVec 64) (u : WorkLogUpdate)
    (work : Work) : Prop where
  claim : u.claim.work = .value work
  assumption : host.verifyAssumption (digest sha u.claim) = true
  nonceMinLog : work.nonceMin.log = workLogId
  nonceMaxLog : work.nonceMax.log = workLogId
  nonceJobs : work.nonceMin.job = work.nonceMax.job
  segment : work.nonceMin.segment = 0
  noninclusion : u.noninclusionProof.verifyEmpty sha acc.1 (jobIndex work.nonceMin.job) = .ok ()
  root : ∃ jobCommit, (Job.new work.nonceMax.segment).commit sha = .ok jobCommit ∧
    acc'.1 = u.noninclusionProof.root sha jobCommit (jobIndex work.nonceMin.job)
  value : addValue host acc.2 work.value = .ok acc'.2

theorem updates_of_update {workLogId : PovwLogId} {acc acc' : Digest × BitVec 64} {u : WorkLogUpdate}
    (h : update sha host workLogId acc u = .ok acc') : ∃ work, Updates sha host workLogId acc acc' u work := by
  simp only [update, bind_ok_iff, require_ok_iff, unwrapTree_ok_iff] at h
  obtain ⟨_, hassumption, work, hwork, _, hmin, _, hmax, _, hjobs, _, hempty, _, hsegment, jobCommit, hcommit, value, hvalue, hres⟩ := h
  have hclaim : u.claim.work = .value work := by
    unfold workOf at hwork
    split at hwork
    · next heq => rw [heq, Except.ok.inj hwork]
    · cases hwork
  cases hres
  exact ⟨work, hclaim, hassumption, hmin, hmax, hjobs, hsegment, hempty, ⟨jobCommit, hcommit, rfl⟩, hvalue⟩

theorem start_ok {input : Input} {workLogId : PovwLogId} {initialCommit : Digest} (h : start sha host input = .ok (workLogId, initialCommit)) :
    (input.state = .initial workLogId ∧ WorkLog.EMPTY.commit sha = .ok initialCommit) ∨
      ∃ journal, input.state = .continuation journal ∧ host.verify input.selfImageId journal = true ∧
        input.selfImageId = journal.selfImageId ∧ workLogId = journal.workLogId ∧ initialCommit = journal.updatedCommit := by
  unfold start at h
  split at h
  · next id hstate =>
    simp only [bind_ok_iff, unwrapTree_ok_iff] at h
    obtain ⟨commit, hcommit, hres⟩ := h
    obtain ⟨rfl, rfl⟩ := Prod.mk.inj (Except.ok.inj hres)
    exact .inl ⟨hstate, hcommit⟩
  · next journal hstate =>
    simp only [bind_ok_iff, require_ok_iff] at h
    obtain ⟨_, hverify, _, hself, hres⟩ := h
    obtain ⟨rfl, rfl⟩ := Prod.mk.inj (Except.ok.inj hres)
    exact .inr ⟨journal, hstate, hverify, hself, rfl, rfl⟩

theorem main_ok {input : Input} {journal : Journal} (h : main sha host input = .ok journal) :
    start sha host input = .ok (journal.workLogId, journal.initialCommit) ∧ journal.selfImageId = input.selfImageId ∧
      input.updates.foldlM (update sha host journal.workLogId) (journal.initialCommit, 0) = .ok (journal.updatedCommit, journal.updateValue) := by
  simp only [main, bind_ok_iff, Prod.exists] at h
  obtain ⟨workLogId, initialCommit, hstart, root, updateValue, hfold, hres⟩ := h
  cases hres
  exact ⟨hstart, rfl, hfold⟩

end LogBuilder

namespace WorkLog

variable {sha : Sha256}

def withJob (log : WorkLog) (id : BitVec 64) (job : Job) : WorkLog := ⟨log.jobs.insert id job⟩

variable (log : WorkLog)

section

variable (id : BitVec 64) (job : Job)

@[simp] theorem withJob_jobs (id' : BitVec 64) :
    (log.withJob id job).jobs.get? id' = if id' = id then some job else log.jobs.get? id' := by
  rw [withJob, OrderedMap.get?_insert]
  by_cases h : id' = id
  · rw [if_pos h, if_pos h]
  · rw [if_neg h, if_neg h]

theorem job_withJob (id' : BitVec 64) : (log.withJob id job).job id' = if id' = id then job else log.job id' := by
  rw [WorkLog.job, withJob_jobs]
  split_ifs <;> rfl

/-- The positions of a log, with others in place of those of a job. -/
def replacing (log : WorkLog) (id : BitVec 64) (inner : ℕ → Bool) (y : ℕ) : Bool :=
  if y / 2 ^ 32 = id.toNat then inner (y % 2 ^ 32) else log.contains y

theorem contains_withJob {y : ℕ} (hy : y / 2 ^ 32 < 2 ^ 64) :
    (log.withJob id job).contains y = log.replacing id job.contains y := by
  rw [replacing, contains_job _ (BitVec.ofNat 64 (y / 2 ^ 32)) (by rw [BitVec.toNat_ofNat, Nat.mod_eq_of_lt hy]), job_withJob]
  by_cases hid : y / 2 ^ 32 = id.toNat
  · rw [if_pos hid, if_pos (by rw [hid, BitVec.ofNat_toNat, BitVec.setWidth_eq])]
  · rw [if_neg hid, if_neg fun heq => hid (by rw [← heq, BitVec.toNat_ofNat, Nat.mod_eq_of_lt hy]),
      contains_job log (BitVec.ofNat 64 (y / 2 ^ 32)) (by rw [BitVec.toNat_ofNat, Nat.mod_eq_of_lt hy])]

theorem referenceRoot_withJob :
    referenceRoot sha (log.withJob id job).contains treeHeight 0 = referenceRoot sha (log.replacing id job.contains) treeHeight 0 := by
  apply referenceRoot_congr
  intro y hy
  apply contains_withJob
  have hlt : y < 2 ^ (treeHeight + 8) := Nat.lt_of_div_eq_zero (by positivity) hy
  unfold treeHeight Job.treeHeight at hlt
  omega

theorem referenceRoot_job :
    referenceRoot sha (log.replacing id job.contains) Job.treeHeight id.toNat = referenceRoot sha job.contains Job.treeHeight 0 := by
  have hid := id.isLt
  have hsame : referenceRoot sha (log.replacing id job.contains) Job.treeHeight id.toNat =
      referenceRoot sha (log.withJob id job).contains Job.treeHeight id.toNat := by
    apply referenceRoot_congr
    intro y hy
    exact (contains_withJob log id job (by rw [show y / 2 ^ 32 = id.toNat from hy]; exact hid)).symm
  rw [hsame, (log.withJob id job).blocks.referenceRoot le_rfl, withJob_jobs, Nat.sub_self, pow_zero, Nat.div_one, Nat.mod_one,
    BitVec.ofNat_toNat, BitVec.setWidth_eq, if_pos rfl]
  rfl

end

theorem proveJobOpening_root (log : WorkLog) (id : BitVec 64) : ∃ opening, log.proveJobOpening sha id.toNat = .ok opening ∧
    ∀ job : Job, opening.root sha (referenceRoot sha job.contains Job.treeHeight 0) (LogBuilder.jobIndex id) =
      referenceRoot sha (log.withJob id job).contains treeHeight 0 := by
  have hindex : id.toNat < 2 ^ (treeHeight - Job.treeHeight) := id.isLt
  obtain ⟨path, hpath, hclimb⟩ := siblings_spec (log.subtreeRoot_eq sha) (treeHeight - Job.treeHeight) le_rfl hindex
  refine ⟨⟨path⟩, by rw [proveJobOpening, hpath]; rfl, fun job => ?_⟩
  have hshift : LogBuilder.jobIndex id >>> (Job.treeHeight + 8) = id.toNat := Nat.shiftLeft_shiftRight ..
  have htop : Job.treeHeight + (treeHeight - Job.treeHeight) = treeHeight := rfl
  have hroot := hclimb (log.replacing id job.contains) fun y hy => if_neg hy
  rw [referenceRoot_job, Nat.div_eq_of_lt hindex, htop] at hroot
  rw [SubtreeOpening.root, hshift, hroot, referenceRoot_withJob]

end WorkLog

section Forged

variable {sha : Sha256} {log : WorkLog} {id : BitVec 64} {opening : JobOpening}

theorem pathRoot_eq (node : Digest) (index : ℕ) (path : List Digest) :
    pathRoot sha node index path = (climb (join sha) index node path, index / 2 ^ path.length) := by
  induction path generalizing node index with
  | nil =>
    rw [length_nil, pow_zero, Nat.div_one]
    rfl
  | cons sibling path ih =>
    rw [pathRoot, ih, climb, Nat.and_one_is_mod, Nat.shiftRight_one, length_cons, pow_succ', Nat.div_div_eq_div_mul]

theorem referenceRoot_withJob_update (log : WorkLog) (id : BitVec 64) (job : Job) :
    referenceRoot sha (log.withJob id job).contains WorkLog.treeHeight 0 =
      subtree (join sha) (Function.update (referenceRoot sha log.contains Job.treeHeight) id.toNat
        (referenceRoot sha job.contains Job.treeHeight 0)) 64 0 := by
  have hheight : WorkLog.treeHeight = 64 + Job.treeHeight := rfl
  rw [WorkLog.referenceRoot_withJob, referenceRoot, hheight, subtree_add]
  apply subtree_congr
  intro k _
  by_cases hk : k = id.toNat
  · rw [hk, Function.update_self]
    exact log.referenceRoot_job id job
  · rw [Function.update_of_ne hk]
    exact referenceRoot_congr fun y hy => if_neg fun h => hk (hy.symm.trans h)

/-- On the way from the empty root of a job to the commit, two digests are hashed as two others of the tree of the log are,
or the tree hashes something else than an empty job to the empty root. -/
def Forged (sha : Sha256) (log : WorkLog) (opening : JobOpening) (id : BitVec 64) : Prop :=
  (∃ p ∈ climbPairs (join sha) id.toNat (emptySubtreeRoots sha Job.treeHeight) opening.path.toList,
    ∃ q, TreePair (join sha) (referenceRoot sha log.contains Job.treeHeight) 64 0 q ∧ p ≠ q ∧ join sha p.1 p.2 = join sha q.1 q.2) ∨
  Collision sha (fun _ => false) log.contains Job.treeHeight id.toNat

theorem verifyEmpty_sound
    (h : opening.verifyEmpty sha (referenceRoot sha log.contains WorkLog.treeHeight 0) (LogBuilder.jobIndex id) = .ok ()) :
    ((log.job id).isEmpty ∧ ∀ job : Job, opening.root sha (referenceRoot sha job.contains Job.treeHeight 0) (LogBuilder.jobIndex id) =
      referenceRoot sha (log.withJob id job).contains WorkLog.treeHeight 0) ∨ Forged sha log opening id := by
  by_cases hforged : Forged sha log opening id
  · exact .inr hforged
  have hlength : opening.path.toList.length = 64 := opening.path.toList_length
  have htop : id.toNat / 2 ^ 64 = 0 := Nat.div_eq_of_lt id.isLt
  have hclimb (node : Digest) : opening.root sha node (LogBuilder.jobIndex id) = climb (join sha) id.toNat node opening.path.toList := by
    have hshift : LogBuilder.jobIndex id >>> (Job.treeHeight + 8) = id.toNat := Nat.shiftLeft_shiftRight ..
    rw [SubtreeOpening.root, hshift, pathRoot_eq]
  have hroot : climb (join sha) id.toNat (emptySubtreeRoots sha Job.treeHeight) opening.path.toList =
      subtree (join sha) (referenceRoot sha log.contains Job.treeHeight) opening.path.toList.length
        (id.toNat / 2 ^ opening.path.toList.length) := by
    unfold SubtreeOpening.verifyEmpty at h
    split_ifs at h with hne
    rw [hlength, htop, ← hclimb, not_not.mp hne]
    exact subtree_add _ 64 Job.treeHeight 0
  obtain ⟨hempty, hothers⟩ := climb_eq_subtree (fun p hp q hq heq => by
    rw [hlength, htop] at hq
    exact by_contra fun hne => hforged (.inl ⟨p, hp, q, hq, hne, heq⟩)) hroot
  refine .inl ⟨?_, fun job => ?_⟩
  · by_contra hjob
    have hcontains : log.contains (id.toNat * 2 ^ 32) = true := by
      rw [log.contains_job id (Nat.mul_div_cancel _ (by norm_num)), Nat.mul_mod_left, Job.contains_zero]
      simpa using hjob
    refine hforged (.inr (collision_of_root ?_ (y := id.toNat * 2 ^ 32) (Nat.mul_div_cancel _ (by norm_num)) ?_))
    · rw [referenceRoot_eq_empty fun _ _ => rfl, hempty]
    · rw [hcontains]
      decide
  · rw [hclimb, hothers, hlength, htop, referenceRoot_withJob_update]

end Forged

/-- A log grows by the jobs of works, each of which was empty before. -/
inductive Extends (log : WorkLog) : List Work → WorkLog → Prop
  | refl : Extends log [] log
  | add {works : List Work} {log' : WorkLog} {work : Work} (before : Extends log works log')
      (empty : (log'.job work.nonceMin.job).isEmpty) (oneJob : work.nonceMin.job = work.nonceMax.job) (first : work.nonceMin.segment = 0) :
      Extends log (works ++ [work]) (log'.withJob work.nonceMin.job (.new work.nonceMax.segment))

variable {log log' : WorkLog} {works works' : List Work}

theorem Extends.trans {log'' : WorkLog} (h : Extends log works log') (h' : Extends log' works' log'') : Extends log (works ++ works') log'' := by
  induction h' with
  | refl => rwa [append_nil]
  | add _ empty oneJob first ih =>
    rw [← append_assoc]
    exact ih.add empty oneJob first

theorem Extends.jobs (h : Extends log works log') : (works.map (·.nonceMin.job)).Nodup ∧
    (∀ w ∈ works, (log.job w.nonceMin.job).isEmpty ∧ log'.job w.nonceMin.job = .new w.nonceMax.segment) ∧
    ∀ id ∉ works.map (·.nonceMin.job), log'.job id = log.job id := by
  induction h with
  | refl => exact ⟨.nil, fun w hw => absurd hw not_mem_nil, fun _ _ => rfl⟩
  | @add works log' work _ empty _ _ ih =>
    obtain ⟨hnodup, hadded, hkept⟩ := ih
    have hnew : work.nonceMin.job ∉ works.map (·.nonceMin.job) := by
      intro hmem
      obtain ⟨w, hw, hjob⟩ := mem_map.mp hmem
      rw [← hjob, (hadded w hw).2] at empty
      cases empty
    rw [map_append]
    refine ⟨hnodup.append (nodup_singleton _) (by simpa using hnew), fun w hw => ?_, fun id hid => ?_⟩
    · rw [WorkLog.job_withJob]
      rcases mem_append.mp hw with hw | hw
      · have hne : w.nonceMin.job ≠ work.nonceMin.job := fun heq => hnew (heq ▸ mem_map_of_mem hw)
        rw [if_neg hne]
        exact hadded w hw
      · cases mem_singleton.mp hw
        rw [if_pos rfl, ← hkept _ hnew]
        exact ⟨empty, rfl⟩
    · rw [mem_append, not_or] at hid
      rw [WorkLog.job_withJob, if_neg (ne_of_not_mem_cons hid.2), hkept id hid.1]

structure Adds (workLogId : PovwLogId) (u : WorkLogUpdate) (work : Work) : Prop where
  claim : u.claim.work = .value work
  nonceMin : work.nonceMin.log = workLogId
  nonceMax : work.nonceMax.log = workLogId

/-- After the first updates have added their works, the opening of the next one is forged. -/
def Breaks (sha : Sha256) (workLogId : PovwLogId) (log : WorkLog) (us : List WorkLogUpdate) : Prop :=
  ∃ first u rest works log' work, us = first ++ u :: rest ∧ Extends log works log' ∧ List.Forall₂ (Adds workLogId) first works ∧
    Adds workLogId u work ∧ Forged sha log' u.noninclusionProof work.nonceMin.job

variable {sha : Sha256} {host : GuestHost} {workLogId : PovwLogId} {us us' : List WorkLogUpdate}

theorem Breaks.append (h : Breaks sha workLogId log us) : Breaks sha workLogId log (us ++ us') := by
  obtain ⟨first, u, rest, works, log', work, rfl, h⟩ := h
  exact ⟨first, u, rest ++ us', works, log', work, by rw [append_assoc, cons_append], h⟩

theorem Breaks.after (h : Extends log works log') (hus : Forall₂ (Adds workLogId) us works) (hbreaks : Breaks sha workLogId log' us') :
    Breaks sha workLogId log (us ++ us') := by
  obtain ⟨first, u, rest, works', log'', work, rfl, hextends, hadds, hforged⟩ := hbreaks
  exact ⟨us ++ first, u, rest, _, log'', work, (append_assoc ..).symm, h.trans hextends, rel_append hus hadds, hforged⟩

theorem addValue_ok {x y z : BitVec 64} (h : LogBuilder.addValue host x y = .ok z) : z = x + y := by
  unfold LogBuilder.addValue checkedAdd at h
  split_ifs at h <;> exact (Except.ok.inj h).symm

theorem updates_sound {acc acc' : Digest × BitVec 64} (hacc : acc.1 = referenceRoot sha log.contains WorkLog.treeHeight 0)
    (h : us.foldlM (LogBuilder.update sha host workLogId) acc = .ok acc') :
    (∃ works log', Extends log works log' ∧ Forall₂ (Adds workLogId) us works ∧
      acc'.1 = referenceRoot sha log'.contains WorkLog.treeHeight 0 ∧ acc'.2 = acc.2 + (works.map Work.value).sum) ∨
    Breaks sha workLogId log us := by
  induction us generalizing log acc with
  | nil =>
    cases h
    exact .inl ⟨[], log, .refl, .nil, hacc, by simp⟩
  | cons u us ih =>
    rw [foldlM_cons] at h
    obtain ⟨acc₁, hupdate, h⟩ := bind_ok_iff.mp h
    obtain ⟨work, hu⟩ := LogBuilder.updates_of_update hupdate
    have hadds : Adds workLogId u work := ⟨hu.claim, hu.nonceMinLog, hu.nonceMaxLog⟩
    have hverify := hu.noninclusion
    rw [hacc] at hverify
    rcases verifyEmpty_sound hverify with ⟨hempty, hroot⟩ | hforged
    · obtain ⟨jobCommit, hcommit, hroot1⟩ := hu.root
      rw [Job.commit_eq] at hcommit
      rw [← Except.ok.inj hcommit, hroot] at hroot1
      have hextends := Extends.refl.add hempty hu.nonceJobs hu.segment
      rcases ih hroot1 h with ⟨works, log', hmore, hworks, hcommit', hvalue⟩ | hbreaks
      · refine .inl ⟨_, log', hextends.trans hmore, hworks.cons hadds, hcommit', ?_⟩
        rw [hvalue, addValue_ok hu.value]
        simp [add_assoc]
      · have hafter : Breaks sha workLogId log ([u] ++ us) := hbreaks.after hextends (.cons hadds .nil)
        exact .inr hafter
    · exact .inr ⟨[], u, us, [], log, work, rfl, .refl, .nil, hadds, hforged⟩

/-- The journals of runs that start a log or continue the journal of such a run, with the updates of all of them: a journal
is verified only if a run wrote it. -/
inductive RunChain (sha : Sha256) : Journal → List WorkLogUpdate → List WorkLogUpdate → Prop
  | initial {host : GuestHost} {input : Input} {journal : Journal} {workLogId : PovwLogId} (state : input.state = .initial workLogId)
      (run : LogBuilder.main sha host input = .ok journal) : RunChain sha journal [] input.updates
  | continuation {host : GuestHost} {input : Input} {prev journal : Journal} {us us' : List WorkLogUpdate} (before : RunChain sha prev us us')
      (state : input.state = .continuation prev) (run : LogBuilder.main sha host input = .ok journal) :
      RunChain sha journal (us ++ us') input.updates

/-- The updates before the last run lead to the log of its initial commit, and its own ones to that of the updated commit. -/
structure ChainSound (sha : Sha256) (journal : Journal) (us us' : List WorkLogUpdate) (works works' : List Work) (log log' : WorkLog) : Prop where
  before : Extends .EMPTY works log
  added : Extends log works' log'
  adds : List.Forall₂ (Adds journal.workLogId) us works
  adds' : List.Forall₂ (Adds journal.workLogId) us' works'
  initialCommit : log.commit sha = .ok journal.initialCommit
  updatedCommit : log'.commit sha = .ok journal.updatedCommit
  updateValue : journal.updateValue = (works'.map Work.value).sum
  distinct : ((works ++ works').map (·.nonceMin.job)).Nodup

theorem sound_of_run {input : Input} {journal : Journal} (hrun : LogBuilder.main sha host input = .ok journal)
    (hbefore : Extends .EMPTY works log) (hadds : Forall₂ (Adds journal.workLogId) us works)
    (hcommit : log.commit sha = .ok journal.initialCommit) :
    (∃ works' log', ChainSound sha journal us input.updates works works' log log') ∨ Breaks sha journal.workLogId .EMPTY (us ++ input.updates) := by
  obtain ⟨-, -, hfold⟩ := LogBuilder.main_ok hrun
  have hinitial := Except.ok.inj ((log.commit_eq sha).symm.trans hcommit)
  rcases updates_sound hinitial.symm hfold with ⟨works', log', hextends, hadds', hroot, hvalue⟩ | hbreaks
  · refine .inl ⟨works', log', hbefore, hextends, hadds, hadds', hcommit, ?_, ?_, (hbefore.trans hextends).jobs.1⟩
    · rw [log'.commit_eq, ← hroot]
    · exact hvalue.trans (BitVec.zero_add _)
  · exact .inr (hbreaks.after hbefore hadds)

/-- Whatever openings and claims the log builder is given, over a chain of accepted runs the commits are those of one growing
log, no job is counted twice and the values add up, unless the opening of some update is forged. -/
theorem log_builder_sound (sha : Sha256) (journal : Journal) (us us' : List WorkLogUpdate) (h : RunChain sha journal us us') :
    (∃ works works' log log', ChainSound sha journal us us' works works' log log') ∨ Breaks sha journal.workLogId .EMPTY (us ++ us') := by
  induction h with
  | initial state run =>
    obtain ⟨hstate, hcommit⟩ | ⟨_, hstate, -⟩ := LogBuilder.start_ok (LogBuilder.main_ok run).1
    · rcases sound_of_run run .refl .nil hcommit with ⟨works', log', hsound⟩ | hbreaks
      · exact .inl ⟨[], works', .EMPTY, log', hsound⟩
      · exact .inr hbreaks
    · cases state.symm.trans hstate
  | @continuation _ input prev journal us us' _ state run ih =>
    obtain ⟨hstate, -⟩ | ⟨j, hstate, -, -, hid, hcommit⟩ := LogBuilder.start_ok (LogBuilder.main_ok run).1
    · cases state.symm.trans hstate
    · cases state.symm.trans hstate
      rw [hid]
      rcases ih with ⟨works, works', log, log', hsound⟩ | hbreaks
      · rcases sound_of_run run (hsound.before.trans hsound.added) (hid ▸ rel_append hsound.adds hsound.adds')
          (hcommit ▸ hsound.updatedCommit) with ⟨works'', log'', hsound'⟩ | hbreaks
        · exact .inl ⟨_, works'', log', log'', hsound'⟩
        · exact .inr (hid ▸ hbreaks)
      · exact .inr hbreaks.append

/-- The hash that the guests call. -/
def sha256 : Sha256 := fun bytes => .ofFn fun i => (Lib.Sha256.digest bytes).getD i 0

/-- A host that verifies everything. -/
def sampleHost : GuestHost := ⟨fun _ _ => true, fun _ => true, true⟩

/-- A job of four segments in the log 7. -/
def sampleUpdate (id : BitVec 64) (opening : JobOpening) : WorkLogUpdate :=
  ⟨⟨.pruned .zero, .value ⟨⟨7, id, 0⟩, ⟨7, id, 3⟩, 10⟩⟩, opening⟩

/-- The log builder takes the opening that a log proves for a job that it does not have. -/
theorem exists_update (sha : Sha256) (log : WorkLog) (id : BitVec 64) (hempty : (log.job id).isEmpty) : ∃ opening,
    LogBuilder.update sha sampleHost 7 (referenceRoot sha log.contains WorkLog.treeHeight 0, 0) (sampleUpdate id opening) =
      .ok (referenceRoot sha (log.withJob id (.new 3)).contains WorkLog.treeHeight 0, 10) := by
  obtain ⟨opening, hopening, hroot⟩ := @WorkLog.proveJobOpening_root sha log id
  obtain ⟨opening', commit, hopening', hcommit, hverify, -⟩ := WorkLog.verifyEmpty_spec sha log id
  cases hopening.symm.trans hopening'
  cases (log.commit_eq sha).symm.trans hcommit
  refine ⟨opening, ?_⟩
  rw [← hroot]
  exact bind_ok_iff.mpr ⟨(), rfl, bind_ok_iff.mpr ⟨_, rfl, bind_ok_iff.mpr ⟨(), require_ok_iff.mpr rfl, bind_ok_iff.mpr
    ⟨(), require_ok_iff.mpr rfl, bind_ok_iff.mpr ⟨(), require_ok_iff.mpr rfl, bind_ok_iff.mpr
      ⟨(), LogBuilder.unwrapTree_ok_iff.mpr (hverify hempty), bind_ok_iff.mpr ⟨(), require_ok_iff.mpr rfl, bind_ok_iff.mpr
        ⟨_, LogBuilder.unwrapTree_ok_iff.mpr (Job.commit_eq sha (.new 3)), bind_ok_iff.mpr ⟨10, rfl, rfl⟩⟩⟩⟩⟩⟩⟩⟩⟩

/-- A run starts a log with a job, and a second run continues its journal with another job. -/
theorem exists_runChain (sha : Sha256) : ∃ journal u u', RunChain sha journal [u] [u'] := by
  obtain ⟨opening, hfirst⟩ := exists_update sha .EMPTY 5 rfl
  obtain ⟨opening', hsecond⟩ := exists_update sha (WorkLog.EMPTY.withJob 5 (.new 3)) 6 (by rw [WorkLog.job_withJob]; rfl)
  let commit (log : WorkLog) : Digest := referenceRoot sha log.contains WorkLog.treeHeight 0
  let journal : Journal := ⟨7, commit .EMPTY, commit (WorkLog.EMPTY.withJob 5 (.new 3)), 10, .zero⟩
  have hstart : LogBuilder.start sha sampleHost ⟨.zero, .initial 7, [sampleUpdate 5 opening]⟩ = .ok (7, commit .EMPTY) :=
    bind_ok_iff.mpr ⟨_, LogBuilder.unwrapTree_ok_iff.mpr (WorkLog.commit_eq sha .EMPTY), rfl⟩
  have hrun : LogBuilder.main sha sampleHost ⟨.zero, .initial 7, [sampleUpdate 5 opening]⟩ = .ok journal :=
    bind_ok_iff.mpr ⟨_, hstart, bind_ok_iff.mpr ⟨_, bind_ok_iff.mpr ⟨_, hfirst, rfl⟩, rfl⟩⟩
  have hcontinued : LogBuilder.main sha sampleHost ⟨.zero, .continuation journal, [sampleUpdate 6 opening']⟩ = .ok _ :=
    bind_ok_iff.mpr ⟨(7, journal.updatedCommit), rfl, bind_ok_iff.mpr ⟨_, bind_ok_iff.mpr ⟨_, hsecond, rfl⟩, rfl⟩⟩
  exact ⟨_, _, _, RunChain.continuation (.initial rfl hrun) rfl hcontinued⟩

theorem log_builder_sound_continued : ∃ journal u u', RunChain sha256 journal [u] [u'] ∧
    ((∃ works works' log log', ChainSound sha256 journal [u] [u'] works works' log log') ∨
      Breaks sha256 journal.workLogId .EMPTY [u, u']) := by
  obtain ⟨journal, u, u', hchain⟩ := exists_runChain sha256
  exact ⟨journal, u, u', hchain, log_builder_sound sha256 journal [u] [u'] hchain⟩

end VerifiableCompute.WorkTree
