import VerifiableCompute.WorkTree.Roots

/-! Openings. The siblings that a tree gives for a node lead to the root of every tree that
differs from it at most under that node. So an opening verifies what the tree contains, and
the opening of a job verifies as empty where the job is. -/

namespace VerifiableCompute.WorkTree

open Lib Binfmt WordOrder

variable {sha : Sha256} {position position' : ℕ → Bool}

variable {height index H y : ℕ} {subtreeRoot : ℕ → ℕ → Except TreeError Digest}

theorem referenceRoot_congr (h : ∀ y, y / 2 ^ (height + 8) = index → position y = position' y) :
    referenceRoot sha position height index = referenceRoot sha position' height index := by
  apply subtree_congr
  intro x hx
  have hbitmap : positionBitmap position x = positionBitmap position' x :=
    positionBitmap_congr fun i hi => h _ ((position_div hi).trans hx)
  rw [hbitmap]

/-- The siblings given by a tree, from the node `index` at height `i`. -/
theorem siblings_spec
    (hroot : ∀ {h n}, h ≤ H → n < 2 ^ (H - h) → subtreeRoot h n = .ok (referenceRoot sha position h n)) (count : ℕ) {i : ℕ}
    (hi : i + count ≤ H) (hindex : index < 2 ^ (H - i)) :
    ∃ path, siblings subtreeRoot i index count = .ok path ∧ ∀ position' : ℕ → Bool,
      (∀ y, y / 2 ^ (i + 8) ≠ index → position' y = position y) →
      pathRoot sha (referenceRoot sha position' i index) index path.toList =
        (referenceRoot sha position' (i + count) (index / 2 ^ count), index / 2 ^ count) := by
  induction count generalizing i index with
  | zero =>
    refine ⟨.nil, rfl, fun position' _ => ?_⟩
    rw [pow_zero, Nat.div_one]
    rfl
  | succ count ih =>
    have hsub : H - i = H - (i + 1) + 1 := by omega
    have hsibling : index ^^^ 1 < 2 ^ (H - i) := Nat.xor_lt_two_pow hindex (Nat.one_lt_two_pow (by omega))
    have hhalf : index / 2 < 2 ^ (H - (i + 1)) := by
      rw [hsub, pow_succ] at hindex
      omega
    obtain ⟨path, hpath, hclimb⟩ := ih (by omega) hhalf
    refine ⟨referenceRoot sha position i (index ^^^ 1) ::ᵥ path, ?_, fun position' hsame => ?_⟩
    · rw [siblings, hroot (by omega) hsibling, Nat.shiftRight_one, hpath]
      rfl
    · have hbeside : referenceRoot sha position i (index ^^^ 1) = referenceRoot sha position' i (index ^^^ 1) := by
        apply referenceRoot_congr
        intro y hy
        refine (hsame y fun heq => ?_).symm
        rw [heq] at hy
        have := congrArg (· % 2) hy
        simp [Nat.xor_mod_two_eq] at this
        omega
      have hup : ∀ y, y / 2 ^ (i + 1 + 8) ≠ index / 2 → position' y = position y := by
        intro y hy
        apply hsame
        rintro rfl
        apply hy
        rw [Nat.div_div_eq_div_mul, ← pow_succ, Nat.add_right_comm]
      have hjoin := @join_sibling _ (join sha) (fun x => hashLeaf sha (positionBitmap position' x)) i index
      rw [List.Vector.toList_cons, pathRoot, Nat.and_one_is_mod, Nat.shiftRight_one, hbeside]
      unfold referenceRoot at hclimb ⊢
      rw [hjoin, hclimb position' hup, Nat.div_div_eq_div_mul, ← pow_succ', Nat.add_right_comm, Nat.add_assoc]

/-- A structure commits to the positions it contains and opens each of them. -/
structure Commits (sha : Sha256) (contains : ℕ → Bool) (H : ℕ) (subtreeRoot : ℕ → ℕ → Except TreeError Digest)
    (commit : Except TreeError Digest) (prove : ℕ → Except TreeError (Opening H)) : Prop where
  subtree : ∀ {h n}, h ≤ H → n < 2 ^ (H - h) → subtreeRoot h n = .ok (referenceRoot sha contains h n)
  root : commit = .ok (referenceRoot sha contains H 0)
  opening : ∀ index < 2 ^ (H + 8), ∃ opening, prove index = .ok opening ∧
    (opening.verifyInclusion sha (referenceRoot sha contains H 0) index = .ok () ↔ contains index = true) ∧
    (opening.verifyNoninclusion sha (referenceRoot sha contains H 0) index = .ok () ↔ contains index = false)

theorem getLsbD_index (position : ℕ → Bool) (index : ℕ) :
    (positionBitmap position (index / 256)).getLsbD (index &&& 0xff) = position index := by
  have hand : index &&& 0xff = index % 256 := Nat.and_two_pow_sub_one_eq_mod index 8
  rw [hand, getLsbD_positionBitmap position _ (Nat.mod_lt _ (by decide)), Nat.div_add_mod]

theorem Opening.verify_spec {opening : Opening H} (hbitmap : opening.bitmap = positionBitmap position (index / 256))
    (hroot : opening.root sha index = .ok (referenceRoot sha position H 0)) :
    (opening.verifyInclusion sha (referenceRoot sha position H 0) index = .ok () ↔ position index = true) ∧
      (opening.verifyNoninclusion sha (referenceRoot sha position H 0) index = .ok () ↔ position index = false) := by
  rw [verifyInclusion, verifyNoninclusion, hbitmap, getLsbD_index, hroot]
  cases position index <;> simp [bind, Except.bind, throw, throwThe, MonadExceptOf.throw, pure, Except.pure]

theorem proveOpening_spec {bitmapAt : ℕ → Bitmap}
    (hbitmap : ∀ index, bitmapAt index = positionBitmap position (index / 256))
    (hroot : ∀ {h n}, h ≤ H → n < 2 ^ (H - h) → subtreeRoot h n = .ok (referenceRoot sha position h n))
    (hindex : index < 2 ^ (H + 8)) : ∃ opening, proveOpening bitmapAt subtreeRoot H index = .ok opening ∧
      (opening.verifyInclusion sha (referenceRoot sha position H 0) index = .ok () ↔ position index = true) ∧
      (opening.verifyNoninclusion sha (referenceRoot sha position H 0) index = .ok () ↔ position index = false) := by
  have hleaf : index >>> 8 = index / 256 := Nat.shiftRight_eq_div_pow index 8
  have hlt : index / 256 < 2 ^ (H - 0) := by
    rw [Nat.sub_zero]
    rw [pow_add] at hindex
    omega
  obtain ⟨path, hpath, hclimb⟩ := siblings_spec hroot H (by omega) hlt
  refine ⟨⟨bitmapAt index, path⟩, ?_, Opening.verify_spec (hbitmap index) ?_⟩
  · rw [proveOpening, hleaf, hpath]
    rfl
  · have hzero : index / 256 / 2 ^ H = 0 := Nat.div_eq_of_lt (by rwa [Nat.sub_zero] at hlt)
    have hpathRoot := hclimb position fun _ _ => rfl
    rw [Nat.zero_add, hzero] at hpathRoot
    have hstart : hashLeaf sha (positionBitmap position (index / 256)) = referenceRoot sha position 0 (index / 256) := rfl
    simp only [Opening.root, hbitmap, hleaf, hstart, hpathRoot, if_true]

theorem Job.commits (sha : Sha256) (job : Job) :
    Commits sha job.contains Job.treeHeight (job.subtreeRoot sha) (job.commit sha) (job.proveOpening sha) :=
  ⟨job.subtreeRoot_eq sha, job.commit_eq sha, fun _ => proveOpening_spec job.bitmapAt_eq (job.subtreeRoot_eq sha)⟩

theorem WorkLog.bitmapAt_eq (log : WorkLog) (index : ℕ) :
    log.bitmapAt index = positionBitmap log.contains (index / 256) := by
  rw [bitmapAt, Job.bitmapAt_eq]
  exact Blocks.bitmapAt log.blocks index

theorem WorkLog.commits (sha : Sha256) (log : WorkLog) :
    Commits sha log.contains WorkLog.treeHeight (log.subtreeRoot sha) (log.commit sha) (log.proveOpening sha) :=
  ⟨log.subtreeRoot_eq sha, log.commit_eq sha, fun _ => proveOpening_spec log.bitmapAt_eq (log.subtreeRoot_eq sha)⟩

theorem WorkSet.bitmapAt_eq (set : WorkSet) (index : ℕ) :
    set.bitmapAt index = positionBitmap set.contains (index / 256) := by
  rw [bitmapAt, WorkLog.bitmapAt_eq]
  exact Blocks.bitmapAt set.blocks index

theorem WorkSet.commits (sha : Sha256) (set : WorkSet) :
    Commits sha set.contains WorkSet.treeHeight (set.subtreeRoot sha) (set.commit sha) (set.proveOpening sha) :=
  ⟨set.subtreeRoot_eq sha, set.commit_eq sha, fun _ => proveOpening_spec set.bitmapAt_eq (set.subtreeRoot_eq sha)⟩

/-- What is hashed for a node above two others. -/
def pairBytes (sha : Sha256) (position : ℕ → Bool) (height index : ℕ) : List Byte :=
  (referenceRoot sha position height (2 * index)).toList ++ (referenceRoot sha position height (2 * index + 1)).toList

/-- At one place in the trees over two sets of positions, different bytes are hashed to one
digest; the place is under the node `index` at the height of the trees. -/
def Collision (sha : Sha256) (position position' : ℕ → Bool) (height index : ℕ) : Prop :=
  (∃ x, x / 2 ^ height = index ∧ leafBytes (positionBitmap position x) ≠ leafBytes (positionBitmap position' x) ∧
    hashLeaf sha (positionBitmap position x) = hashLeaf sha (positionBitmap position' x)) ∨
  ∃ h < height, ∃ n, n / 2 ^ (height - h - 1) = index ∧ pairBytes sha position h n ≠ pairBytes sha position' h n ∧
    sha (pairBytes sha position h n) = sha (pairBytes sha position' h n)

theorem leafBytes_inj {b b' : Bitmap} (h : leafBytes b = leafBytes b') : b = b' := by
  have hbytes : leBytes 32 b.toNat = leBytes 32 b'.toNat := List.append_cancel_left h
  have hnat := congrArg leNat hbytes
  have hsize : 256 ^ 32 = 2 ^ 256 := by decide
  rw [leNat_leBytes, leNat_leBytes, hsize, Nat.mod_eq_of_lt b.isLt, Nat.mod_eq_of_lt b'.isLt] at hnat
  exact BitVec.eq_of_toNat_eq hnat

theorem pairBytes_inj {a b a' b' : Digest} (h : a.toList ++ b.toList = a'.toList ++ b'.toList) : a = a' ∧ b = b' := by
  obtain ⟨ha, hb⟩ := List.append_inj h (by rw [Vector.length_toList, Vector.length_toList])
  exact ⟨Vector.toList_inj.mp ha, Vector.toList_inj.mp hb⟩

/-- Two trees with one root contain the same positions, or there is a collision. -/
theorem collision_of_root (hroot : referenceRoot sha position height index = referenceRoot sha position' height index)
    (hy : y / 2 ^ (height + 8) = index) (hne : position y ≠ position' y) : Collision sha position position' height index := by
  have hbits : 256 = 2 ^ 8 := rfl
  have hleaf : y / 256 / 2 ^ height = index := by
    rw [← hy, hbits, Nat.div_div_eq_div_mul, Nat.add_comm, pow_add]
  by_cases hhash : hashLeaf sha (positionBitmap position (y / 256)) = hashLeaf sha (positionBitmap position' (y / 256))
  · refine .inl ⟨y / 256, hleaf, fun hbytes => hne ?_, hhash⟩
    rw [← getLsbD_index position y, leafBytes_inj hbytes, getLsbD_index]
  · obtain ⟨i, hi, n, hn, hpair, hroot⟩ := subtree_collision hroot hleaf hhash
    refine .inr ⟨i, hi, n, hn, fun hbytes => hpair ?_, hroot⟩
    obtain ⟨hleft, hright⟩ := pairBytes_inj hbytes
    exact Prod.ext hleft hright

def WorkLog.without (log : WorkLog) (jobId : BitVec 64) (seq : ℕ) : Bool :=
  if seq / 2 ^ 32 = jobId.toNat then false else log.contains seq

theorem WorkLog.proveJobOpening_spec (log : WorkLog) (jobId : BitVec 64) :
    ∃ opening, log.proveJobOpening sha jobId.toNat = .ok opening ∧
      (opening.verifyEmpty sha (referenceRoot sha log.contains treeHeight 0) (jobId.toNat <<< 32) = .ok () ↔
        referenceRoot sha (log.without jobId) treeHeight 0 = referenceRoot sha log.contains treeHeight 0) := by
  have hindex : jobId.toNat < 2 ^ (treeHeight - Job.treeHeight) := jobId.isLt
  obtain ⟨path, hpath, hclimb⟩ := siblings_spec (log.subtreeRoot_eq sha) (treeHeight - Job.treeHeight) le_rfl hindex
  refine ⟨⟨path⟩, by rw [proveJobOpening, hpath]; rfl, ?_⟩
  have hempty : referenceRoot sha (log.without jobId) Job.treeHeight jobId.toNat = emptySubtreeRoots sha Job.treeHeight :=
    referenceRoot_eq_empty fun y hy => if_pos hy
  have hshift : jobId.toNat <<< 32 >>> (Job.treeHeight + 8) = jobId.toNat := Nat.shiftLeft_shiftRight ..
  have htop : Job.treeHeight + (treeHeight - Job.treeHeight) = treeHeight := rfl
  have hroot := hclimb (log.without jobId) fun y hy => if_neg hy
  rw [hempty, Nat.div_eq_of_lt hindex, htop] at hroot
  rw [SubtreeOpening.verifyEmpty, SubtreeOpening.root, hshift, hroot]
  simp

theorem Job.contains_zero (job : Job) : job.contains 0 = !job.isEmpty := by
  unfold contains isEmpty
  cases job.indexMax <;> simp

theorem Job.contains_of_isEmpty {job : Job} (h : job.isEmpty) (index : ℕ) : job.contains index = false := by
  unfold isEmpty at h
  rw [contains, Option.isNone_iff_eq_none.mp h]

theorem WorkLog.contains_job (log : WorkLog) (jobId : BitVec 64) (hy : y / 2 ^ 32 = jobId.toNat) :
    log.contains y = (log.job jobId).contains (y % 2 ^ 32) := by
  have hblocks := log.blocks y
  have hid : BitVec.ofNat 64 (y / 2 ^ (Job.treeHeight + 8)) = jobId := by
    rw [Job.treeHeight, hy, BitVec.ofNat_toNat, BitVec.setWidth_eq]
  rwa [hid] at hblocks

/-- The opening of a job verifies as empty if the job is, and otherwise there is a collision. -/
theorem WorkLog.verifyEmpty_spec (sha : Sha256) (log : WorkLog) (jobId : BitVec 64) : ∃ opening commit,
    log.proveJobOpening sha jobId.toNat = .ok opening ∧ log.commit sha = .ok commit ∧
      ((log.job jobId).isEmpty → opening.verifyEmpty sha commit (jobId.toNat <<< 32) = .ok ()) ∧
      (opening.verifyEmpty sha commit (jobId.toNat <<< 32) = .ok () →
        (log.job jobId).isEmpty ∨ Collision sha (log.without jobId) log.contains treeHeight 0) := by
  obtain ⟨opening, hopening, hverify⟩ := @WorkLog.proveJobOpening_spec sha log jobId
  refine ⟨opening, _, hopening, log.commit_eq sha, fun hempty => ?_, fun hok => ?_⟩
  · rw [hverify]
    apply referenceRoot_congr
    intro y _
    rw [without]
    by_cases hy : y / 2 ^ 32 = jobId.toNat
    · rw [if_pos hy, log.contains_job jobId hy, Job.contains_of_isEmpty hempty]
    · rw [if_neg hy]
  · rw [hverify] at hok
    by_cases hempty : (log.job jobId).isEmpty
    · exact .inl hempty
    · right
      have hy : jobId.toNat * 2 ^ 32 / 2 ^ 32 = jobId.toNat := Nat.mul_div_cancel _ (by decide)
      have htop : jobId.toNat * 2 ^ 32 / 2 ^ (treeHeight + 8) = 0 := by
        apply Nat.div_eq_of_lt
        have := jobId.isLt
        unfold treeHeight Job.treeHeight
        omega
      apply collision_of_root hok htop
      rw [without, if_pos hy, log.contains_job jobId hy, Nat.mul_mod_left, Job.contains_zero]
      simpa using hempty

/-- The trees of jobs, work logs and work sets, and the openings that they prove. -/
theorem work_trees_commit (sha : Sha256) :
    (∀ job : Job, Commits sha job.contains Job.treeHeight (job.subtreeRoot sha) (job.commit sha) (job.proveOpening sha)) ∧
    (∀ log : WorkLog,
      Commits sha log.contains WorkLog.treeHeight (log.subtreeRoot sha) (log.commit sha) (log.proveOpening sha)) ∧
    (∀ set : WorkSet,
      Commits sha set.contains WorkSet.treeHeight (set.subtreeRoot sha) (set.commit sha) (set.proveOpening sha)) ∧
    ∀ (log : WorkLog) (jobId : BitVec 64), ∃ opening commit,
      log.proveJobOpening sha jobId.toNat = .ok opening ∧ log.commit sha = .ok commit ∧
      ((log.job jobId).isEmpty → opening.verifyEmpty sha commit (jobId.toNat <<< 32) = .ok ()) ∧
      (opening.verifyEmpty sha commit (jobId.toNat <<< 32) = .ok () →
        (log.job jobId).isEmpty ∨ Collision sha (log.without jobId) log.contains WorkLog.treeHeight 0) :=
  ⟨Job.commits sha, WorkLog.commits sha, WorkSet.commits sha, WorkLog.verifyEmpty_spec sha⟩

def emptyJobLog : WorkLog := ⟨.insert 5 .EMPTY .empty⟩

/-- The entry is there, and its opening verifies as empty. -/
theorem empty_job_opening : emptyJobLog.jobs.get? 5 = some .EMPTY ∧ ∀ sha : Sha256, ∃ opening commit,
    emptyJobLog.proveJobOpening sha 5 = .ok opening ∧ emptyJobLog.commit sha = .ok commit ∧
      opening.verifyEmpty sha commit (5 <<< 32) = .ok () := by
  have hget : emptyJobLog.jobs.get? 5 = some .EMPTY := by
    rw [emptyJobLog, OrderedMap.get?_insert, if_pos rfl]
  refine ⟨hget, fun sha => ?_⟩
  obtain ⟨opening, commit, hopening, hcommit, hempty, -⟩ := emptyJobLog.verifyEmpty_spec sha 5
  refine ⟨opening, commit, hopening, hcommit, hempty ?_⟩
  rw [WorkLog.job, hget]
  rfl

end VerifiableCompute.WorkTree
