import VerifiableCompute.Rv32im.Session

/-! The counters of a session. Every operation counts user cycles for the segment and
for the session alike, every split adds up what the segment counted, and the result of
a session reads the sums. It reads one segment more than was sent to the callback. -/

namespace VerifiableCompute.Rv32im

open Lib List

/-- The count of user cycles stays. -/
def KeepsUserCycles {α : Type} (x : Exec α) : Prop :=
  ∀ s a s', x s = .ok (a, s') → s'.userCycles = s.userCycles

namespace KeepsUserCycles

variable {α β : Type}

theorem pure (a : α) : KeepsUserCycles (Pure.pure a : Exec α) := by
  intro s b s' h
  cases h
  rfl

theorem bind {x : Exec α} {f : α → Exec β} (hx : KeepsUserCycles x) (hf : ∀ a, KeepsUserCycles (f a)) :
    KeepsUserCycles (x >>= f) := by
  intro s b s' h
  have h : (x s).bind (fun r => f r.1 r.2) = .ok (b, s') := h
  cases hrun : x s with
  | error e =>
    rw [hrun] at h
    cases h
  | ok r =>
    rw [hrun] at h
    exact (hf r.1 r.2 b s' h).trans (hx s r.1 r.2 hrun)

theorem mapM {γ : Type} {f : γ → Exec α} (hf : ∀ c, KeepsUserCycles (f c)) (l : List γ) :
    KeepsUserCycles (l.mapM f) := by
  induction l with
  | nil => exact pure []
  | cons c l ih =>
    rw [mapM_cons]
    exact (hf c).bind fun a => ih.bind fun as => pure (a :: as)

theorem forM {γ : Type} {f : γ → Exec PUnit} (hf : ∀ c, KeepsUserCycles (f c)) (l : List γ) :
    KeepsUserCycles (l.forM f) := by
  induction l with
  | nil => exact pure _
  | cons c l ih => exact (hf c).bind fun _ => ih

theorem ofMemory {g : Executor → Option (Except MemoryError α × PagedMemory)} :
    KeepsUserCycles fun s => s.ofMemory (g s) := by
  intro s a s' h
  have h : s.ofMemory (g s) = .ok (a, s') := h
  unfold Executor.ofMemory at h
  split at h
  · cases h
  · cases h
  · cases h
    rfl

theorem loadU32 (op : LoadOp) (addr : ℕ) : KeepsUserCycles (Executor.loadU32 op addr) := by
  cases op <;> exact ofMemory

theorem storeU32 (addr : ℕ) (word : Word) : KeepsUserCycles (Executor.storeU32 addr word) := ofMemory

theorem loadRegister (base : ℕ) (idx : Fin 32) : KeepsUserCycles (Executor.loadRegister base idx) := ofMemory

theorem storeRegister (base : ℕ) (idx : Fin 32) (word : Word) : KeepsUserCycles (Executor.storeRegister base idx word) :=
  ofMemory

theorem peekDigest (addr : ℕ) : KeepsUserCycles (Session.peekDigest addr) :=
  (mapM (fun _ => loadU32 .peek _) _).bind fun _ => pure _

theorem guestAddr (word : Word) : KeepsUserCycles (Risc0Machine.guestAddr word) := by
  unfold Risc0Machine.guestAddr
  split_ifs
  · intro s a s' h
    cases h
  · exact pure word

theorem setPc (addr : ByteAddr) : KeepsUserCycles (Executor.setPc addr) := by
  intro s a s' h
  cases h
  rfl

theorem setMachineMode (mode : Word) : KeepsUserCycles (Executor.setMachineMode mode) := by
  intro s a s' h
  cases h
  rfl

theorem resumeProgram (circuitVersion : ℕ) (inputDigest : Digest) :
    KeepsUserCycles (Session.resumeProgram circuitVersion inputDigest) := by
  refine (loadU32 _ _).bind fun word => (guestAddr word).bind fun pc => (loadU32 _ _).bind fun mode => ?_
  have hrest : KeepsUserCycles (do
      Executor.setPc pc
      Executor.setMachineMode mode
      (finRange 8).forM fun (i : Fin 8) =>
        Executor.storeU32 (waddr Session.globalInputAddr + i) (inputDigest i)) :=
    (setPc pc).bind fun _ => (setMachineMode mode).bind fun _ => forM (fun _ => storeU32 _ _) _
  split_ifs
  · exact (storeU32 _ _).bind fun _ => hrest
  · exact hrest

theorem suspendProgram (s : Executor) : KeepsUserCycles (Session.suspendProgram s) :=
  (storeU32 _ _).bind fun _ => storeU32 _ _

end KeepsUserCycles

namespace Session

variable {H B : Type} {s s' : Session H B}

/-- The two counts of user cycles grow alike, and the other counters stay. -/
structure Counts (s s' : Session H B) : Prop where
  user : s'.cycles.user + s.exec.userCycles = s.cycles.user + s'.exec.userCycles
  total : s'.cycles.total = s.cycles.total
  paging : s'.cycles.paging = s.cycles.paging
  segmentCounter : s'.segmentCounter = s.segmentCounter
  povwJobId : s'.povwJobId = s.povwJobId

theorem Counts.refl (s : Session H B) : Counts s s := ⟨rfl, rfl, rfl, rfl, rfl⟩

theorem Counts.trans {s'' : Session H B} (h : Counts s s') (h' : Counts s' s'') : Counts s s'' := by
  refine ⟨?_, h'.total.trans h.total, h'.paging.trans h.paging, h'.segmentCounter.trans h.segmentCounter,
    h'.povwJobId.trans h.povwJobId⟩
  have := h.user
  have := h'.user
  omega

theorem counts_onExec {α : Type} {x : Exec α} (hx : KeepsUserCycles x) {a : α} (h : s.onExec x = .ok (a, s')) :
    Counts s s' := by
  unfold onExec at h
  split at h
  · cases h
  · next hrun =>
    cases h
    exact ⟨congrArg _ (hx _ _ _ hrun).symm, rfl, rfl, rfl, rfl⟩

theorem counts_incUserCycles (count : ℕ) (ecall : Option EcallKind) (s : Session H B) :
    Counts s (s.incUserCycles count ecall) := by
  refine ⟨?_, rfl, rfl, rfl, rfl⟩
  show s.cycles.user + count + s.exec.userCycles = s.cycles.user + (s.exec.userCycles + count)
  omega

variable {syscall : Syscall H} {fd : Word} {buf : List UInt8} {fuel : ℕ} {u : SegmentUpdate}

theorem counts_hostRead {r : List UInt8 × ℕ} (h : s.hostRead syscall fd buf = .ok (r, s')) : Counts s s' := by
  unfold hostRead at h
  split at h
  · cases h
  · split at h
    · cases h
    · cases h
      exact ⟨rfl, rfl, rfl, rfl, rfl⟩

theorem counts_hostWrite {rlen : ℕ} (h : s.hostWrite syscall fd buf = .ok (rlen, s')) : Counts s s' := by
  unfold hostWrite at h
  split at h
  · cases h
  · cases h
    exact ⟨rfl, rfl, rfl, rfl, rfl⟩

theorem counts_onTerminate {tracker : BlockTracker B} {a0 a1 : Word} {r : Unit}
    (h : s.onTerminate tracker a0 a1 = .ok (r, s')) : Counts s s' := by
  unfold onTerminate at h
  cases hrun : ({ s with terminateState := some ⟨a0, a1⟩ } : Session H B).onExec
      (peekDigest (waddr globalOutputAddr)) with
  | error e =>
    simp only [hrun] at h
    cases h
  | ok r =>
    have hcounts := counts_onExec (.peekDigest _) hrun
    simp only [hrun] at h
    cases h
    exact ⟨hcounts.user, hcounts.total, hcounts.paging, hcounts.segmentCounter, hcounts.povwJobId⟩

theorem counts_handle (syscall : Syscall H) (tracker : BlockTracker B) (o : ContextOp) (s : Session H B)
    (answer : context.Answer o) (s' : Session H B) (h : handle syscall tracker o s = .ok (answer, s')) : Counts s s' := by
  cases o with
  | getPc | getMachineMode =>
    cases h
    exact .refl s
  | setPc | setUserPc | setMachineMode | track | onInsnStart =>
    cases h
    exact ⟨rfl, rfl, rfl, rfl, rfl⟩
  | loadU32 op addr => exact counts_onExec (.loadU32 op addr) h
  | loadRegister base idx => exact counts_onExec (.loadRegister base idx) h
  | storeU32 addr word => exact counts_onExec (.storeU32 addr word) h
  | storeRegister base idx word => exact counts_onExec (.storeRegister base idx word) h
  | hostRead fd buf => exact counts_hostRead h
  | hostWrite fd buf => exact counts_hostWrite h
  | onTerminate a0 a1 => exact counts_onTerminate h
  | onInsnEnd kind =>
    cases h
    refine Counts.trans ?_ (counts_incUserCycles 1 none _)
    exact ⟨rfl, rfl, rfl, rfl, rfl⟩
  | onEcallStart kind =>
    cases h
    refine Counts.trans ?_ (counts_incUserCycles 1 (some kind) _)
    exact ⟨rfl, rfl, rfl, rfl, rfl⟩
  | incUserCycles count ecall =>
    cases h
    exact counts_incUserCycles count ecall s
  | fail fault => cases h

variable {setup : Setup H B} {limit : ExecutionLimit}

theorem counts_step (h : s.step setup = .ok s') : Counts s s' := by
  unfold step at h
  cases hrun : setup.step.run (handle setup.syscall setup.tracker) s with
  | error e =>
    rw [hrun] at h
    cases h
  | ok r =>
    rw [hrun] at h
    cases h
    have hcounts := Program.run_keeps Counts Counts.refl Counts.trans (counts_handle setup.syscall setup.tracker)
      setup.step hrun
    exact ⟨hcounts.user, hcounts.total, hcounts.paging, hcounts.segmentCounter, hcounts.povwJobId⟩

theorem counts_loop (h : s.loop setup limit fuel = some (.ok s')) : Counts s s' := by
  induction fuel generalizing s with
  | zero => cases h
  | succ fuel ih =>
    rw [loop] at h
    cases hcontrol : s.control setup limit with
    | stop =>
      rw [hcontrol] at h
      cases h
      exact .refl _
    | fail e =>
      rw [hcontrol] at h
      cases h
    | go =>
      rw [hcontrol] at h
      cases hstep : s.step setup with
      | error e =>
        rw [hstep] at h
        cases h
      | ok t =>
        rw [hstep] at h
        exact (counts_step hstep).trans (ih h)

/-- What a segment adds to the counters of the session. -/
structure AddsUpdate (u : SegmentUpdate) (s s' : Session H B) : Prop where
  index : u.index = s.segmentCounter.toNat
  nonce : u.povwNonce = s.povwNonce s.segmentCounter
  segmentCounter : s'.segmentCounter.toNat = s.segmentCounter.toNat + 1
  user : s'.cycles.user = s.cycles.user + u.userCycles
  total : s'.cycles.total = s.cycles.total + 2 ^ u.po2
  paging : s'.cycles.paging = s.cycles.paging + u.pagerCycles
  povwJobId : s'.povwJobId = s.povwJobId
  userCycles : s'.exec.userCycles = 0

theorem splitSegment_spec {po2 threshold : ℕ} (h : s.splitSegment setup po2 threshold = .ok (u, s')) :
    u.index = s.segmentCounter.toNat ∧ u.povwNonce = s.povwNonce s.segmentCounter ∧
      s'.segmentCounter.toNat = s.segmentCounter.toNat + 1 ∧ u.userCycles = s.exec.userCycles ∧
      s'.cycles.user = s.cycles.user ∧ s'.cycles.total = s.cycles.total + 2 ^ u.po2 ∧
      s'.cycles.paging = s.cycles.paging + u.pagerCycles ∧ s'.povwJobId = s.povwJobId ∧ s'.exec.userCycles = 0 := by
  unfold splitSegment at h
  split at h
  · cases h
  · split_ifs at h with hmax
    cases h
    refine ⟨rfl, rfl, ?_, rfl, rfl, rfl, rfl, rfl, rfl⟩
    have hne : s.segmentCounter.toNat ≠ 2 ^ 32 - 1 := fun heq => hmax (BitVec.eq_of_toNat_eq (by simpa using heq))
    have hlt := s.segmentCounter.isLt
    show (s.segmentCounter + 1).toNat = _
    rw [BitVec.toNat_add]
    exact Nat.mod_eq_of_lt (by simp; omega)

theorem finishSegment_spec {s₀ : Session H B} (hcounts : Counts s₀ s) (hzero : s₀.exec.userCycles = 0)
    (h : s.finishSegment setup limit = .ok (u, s')) : AddsUpdate u s₀ s' := by
  unfold finishSegment at h
  cases hsuspend : s.suspend with
  | error e =>
    rw [hsuspend] at h
    cases h
  | ok r =>
    rw [hsuspend] at h
    have hcounts := hcounts.trans (counts_onExec (.suspendProgram _) hsuspend)
    obtain ⟨hindex, hnonce, hcounter, hcycles, huser, htotal, hpaging, hjob, hend⟩ := splitSegment_spec h
    have hsum := hcounts.user
    refine ⟨?_, ?_, ?_, ?_, ?_, ?_, ?_, hend⟩
    · rw [hindex, hcounts.segmentCounter]
    · rw [hnonce, hcounts.segmentCounter, povwNonce, povwNonce, hcounts.povwJobId]
    · rw [hcounter, hcounts.segmentCounter]
    · omega
    · rw [htotal, hcounts.total]
    · rw [hpaging, hcounts.paging]
    · rw [hjob, hcounts.povwJobId]

theorem runSegment_spec {u : Option SegmentUpdate} (hzero : s.exec.userCycles = 0)
    (h : s.runSegment setup limit fuel = some (.ok (u, s'))) :
    (u = none ∧ s' = s) ∨ ∃ update, u = some update ∧ AddsUpdate update s s' := by
  unfold runSegment at h
  split_ifs at h with hfinished
  · cases h
    exact .inl ⟨rfl, rfl⟩
  · right
    cases hresume : s.resume setup with
    | error e =>
      simp only [hresume] at h
      cases h
    | ok r =>
      obtain ⟨⟨⟩, t⟩ := r
      simp only [hresume] at h
      have hcounts := counts_onExec (.resumeProgram _ _) hresume
      split at h
      · cases h
      · cases h
      · next t' hloop =>
        have hcounts := hcounts.trans (counts_loop hloop)
        cases hfinish : t'.finishSegment setup limit with
        | error e =>
          rw [hfinish] at h
          cases h
        | ok r =>
          rw [hfinish] at h
          cases h
          exact ⟨r.1, rfl, finishSegment_spec hcounts hzero hfinish⟩

/-- The counters of a session against its updates, from a state on. -/
structure Totals (updates : List SegmentUpdate) (s s' : Session H B) : Prop where
  index : ∀ i (h : i < updates.length), updates[i].index = s.segmentCounter.toNat + i
  nonce : ∀ i (h : i < updates.length), updates[i].povwNonce =
    s.povwNonce (BitVec.ofNat 32 (s.segmentCounter.toNat + i))
  segmentCounter : s'.segmentCounter.toNat = s.segmentCounter.toNat + updates.length
  user : s'.cycles.user = s.cycles.user + (updates.map SegmentUpdate.userCycles).sum
  total : s'.cycles.total = s.cycles.total + (updates.map fun u => 2 ^ u.po2).sum
  paging : s'.cycles.paging = s.cycles.paging + (updates.map SegmentUpdate.pagerCycles).sum

theorem Totals.cons {u : SegmentUpdate} {updates : List SegmentUpdate} {s'' : Session H B} (h : AddsUpdate u s s')
    (hrest : Totals updates s' s'') : Totals (u :: updates) s s'' := by
  constructor
  · intro i hi
    cases i with
    | zero => exact h.index
    | succ i =>
      rw [getElem_cons_succ, hrest.index, h.segmentCounter]
      omega
  · intro i hi
    cases i with
    | zero =>
      rw [getElem_cons_zero, h.nonce, Nat.add_zero, BitVec.ofNat_toNat, BitVec.setWidth_eq]
    | succ i =>
      rw [getElem_cons_succ, hrest.nonce, h.segmentCounter, povwNonce, povwNonce, h.povwJobId, Nat.add_assoc,
        Nat.add_comm 1 i]
  · rw [hrest.segmentCounter, h.segmentCounter, length_cons]
    omega
  · rw [hrest.user, h.user, map_cons, sum_cons, Nat.add_assoc]
  · rw [hrest.total, h.total, map_cons, sum_cons, Nat.add_assoc]
  · rw [hrest.paging, h.paging, map_cons, sum_cons, Nat.add_assoc]

theorem runSegments_spec {updates : List SegmentUpdate} (hzero : s.exec.userCycles = 0)
    (h : s.runSegments setup limit fuel = some (.ok (updates, s'))) : Totals updates s s' := by
  induction fuel generalizing s updates with
  | zero => cases h
  | succ fuel ih =>
    rw [runSegments] at h
    split at h
    · cases h
    · cases h
    · next t hrun =>
      cases h
      rcases runSegment_spec hzero hrun with ⟨-, rfl⟩ | ⟨update, hupdate, -⟩
      · exact ⟨fun i hi => absurd hi (Nat.not_lt_zero i), fun i hi => absurd hi (Nat.not_lt_zero i), rfl, rfl, rfl, rfl⟩
      · cases hupdate
    · next update t hrun =>
      rcases runSegment_spec hzero hrun with ⟨hnone, -⟩ | ⟨update', hupdate, hadds⟩
      · cases hnone
      · cases hupdate
        split at h
        · next updates' t' hrest =>
          cases h
          exact .cons hadds (ih hadds.userCycles hrest)
        · next r hr =>
          exact absurd h (hr _ _)

/-- What a result says of the updates, apart from their number. -/
structure SumsUpdates (povwJobId : Option PovwJobId) (updates : List SegmentUpdate) (result : ExecutorResult) : Prop where
  index : ∀ i (h : i < updates.length), updates[i].index = i
  user : result.userCycles = (updates.map SegmentUpdate.userCycles).sum
  paging : result.pagingCycles = (updates.map SegmentUpdate.pagerCycles).sum
  total : result.totalCycles = (updates.map fun u => 2 ^ u.po2).sum
  nonce : ∀ job, povwJobId = some job →
    (∀ i (h : i < updates.length), updates[i].povwNonce = some (job.nonce (BitVec.ofNat 32 i))) ∧
      (updates.map SegmentUpdate.povwNonce).Nodup

/-- A result that also counts the updates. -/
def Accounted (povwJobId : Option PovwJobId) (updates : List SegmentUpdate) (result : ExecutorResult) : Prop :=
  SumsUpdates povwJobId updates result ∧ result.segments = updates.length

/-- The cycles, indexes and nonces of every session add up, and its result counts one
segment more than there are updates. -/
theorem session_accounting {image : MemoryImage} {handler : H} {inputDigest : Digest} {povwJobId : Option PovwJobId}
    (hnew : Session.new setup image handler inputDigest povwJobId = some s) {fuel : ℕ} {updates : List SegmentUpdate}
    (hrun : s.runSegments setup limit fuel = some (.ok (updates, s'))) (po2 : ℕ) :
    SumsUpdates povwJobId updates (s'.state po2) ∧ (s'.state po2).segments = updates.length + 1 ∧
      ¬ Accounted povwJobId updates (s'.state po2) := by
  obtain ⟨pager, hpager, heq⟩ := Option.bind_eq_some_iff.mp hnew
  cases heq
  have htotals := runSegments_spec rfl hrun
  have hcounter : s'.segmentCounter.toNat = updates.length := htotals.segmentCounter.trans (Nat.zero_add _)
  have hsegments : (s'.state po2).segments = updates.length + 1 := congrArg Nat.succ hcounter
  refine ⟨⟨fun i hi => (htotals.index i hi).trans (Nat.zero_add i), htotals.user.trans (Nat.zero_add _),
    htotals.paging.trans (Nat.zero_add _), htotals.total.trans (Nat.zero_add _), ?_⟩, hsegments, fun h => ?_⟩
  · rintro job rfl
    have hnonce (i : ℕ) (hi : i < updates.length) :
        updates[i].povwNonce = some (job.nonce (BitVec.ofNat 32 i)) := by
      rw [htotals.nonce i hi]
      show some (job.nonce (BitVec.ofNat 32 (0 + i))) = _
      rw [Nat.zero_add]
    refine ⟨hnonce, List.nodup_iff_injective_getElem.mpr fun i j hij => ?_⟩
    have hi : (i : ℕ) < updates.length := by simpa using i.isLt
    have hj : (j : ℕ) < updates.length := by simpa using j.isLt
    have hlt := s'.segmentCounter.isLt
    simp only [List.getElem_map, hnonce i hi, hnonce j hj, PovwJobId.nonce, Option.some.injEq, PovwNonce.mk.injEq,
      true_and] at hij
    have hij := congrArg BitVec.toNat hij
    rw [BitVec.toNat_ofNat, BitVec.toNat_ofNat, Nat.mod_eq_of_lt (by omega), Nat.mod_eq_of_lt (by omega)] at hij
    exact Fin.ext hij
  · have := h.2
    omega

/-- An image that starts in user memory, and a machine that terminates at once. -/
def startImage : MemoryImage where
  pages := OrderedMap.empty.insert (pageIdx (waddr suspendPcAddr)) (Page.zero.store (waddr suspendPcAddr) userStartAddr)
  isZero := fun _ => true

def terminating : Setup Unit Unit where
  syscall := ⟨fun _ _ _ _ => none, fun _ _ _ _ => none⟩
  tracker := ⟨(), fun _ _ => (), fun _ _ _ => 4⟩
  step := Program.perform (I := context) (ContextOp.onTerminate 0 0)
  circuitVersion := m3CircuitVersion

def noLimit : ExecutionLimit := ⟨20, none, .none⟩

theorem terminating_run : ∃ s updates s', Session.new terminating startImage () (fun _ => 0) none = some s ∧
    s.runSegments terminating noLimit 3 = some (.ok (updates, s')) ∧ updates.length = 1 := by
  have hlength : ((Session.new terminating startImage () (fun _ => 0) none).bind fun s =>
      (s.runSegments terminating noLimit 3).bind fun r => r.toOption.map fun r => r.1.length) = some 1 := by
    decide +kernel
  obtain ⟨s, hs, hlength⟩ := Option.bind_eq_some_iff.mp hlength
  obtain ⟨r, hr, hlength⟩ := Option.bind_eq_some_iff.mp hlength
  obtain ⟨⟨updates, s'⟩, hok, hlength⟩ := Option.map_eq_some_iff.mp hlength
  cases r with
  | error e => cases hok
  | ok r =>
    cases hok
    exact ⟨s, updates, s', hs, hr, Option.some.inj hlength⟩

theorem session_accounting_sample : ∃ s updates s', Session.new terminating startImage () (fun _ => 0) none = some s ∧
    s.runSegments terminating noLimit 3 = some (.ok (updates, s')) ∧ SumsUpdates none updates (s'.state 20) := by
  obtain ⟨s, updates, s', hs, hrun, -⟩ := terminating_run
  exact ⟨s, updates, s', hs, hrun, (session_accounting hs hrun 20).1⟩

/-- One update was sent and two segments are counted. -/
theorem session_not_accounted : ∃ s updates s', Session.new terminating startImage () (fun _ => 0) none = some s ∧
    s.runSegments terminating noLimit 3 = some (.ok (updates, s')) ∧ updates.length = 1 ∧
      (s'.state 20).segments = 2 ∧ ¬ Accounted none updates (s'.state 20) := by
  obtain ⟨s, updates, s', hs, hrun, hlength⟩ := terminating_run
  have hcount := (session_accounting hs hrun 20).2
  exact ⟨s, updates, s', hs, hrun, hlength, hcount.1.trans (congrArg Nat.succ hlength), hcount.2⟩

end Session

end VerifiableCompute.Rv32im
