import VerifiableCompute.Claim.AssumptionLists
import VerifiableCompute.Guest.Host
import VerifiableCompute.Mmr.Accumulator

/-! The batching of permutations in the guest. Each is committed to the claim of the batch before
and after the host permutes it; a full batch becomes a proof request. -/

namespace VerifiableCompute.Guest

open Lib Binfmt Claim KeccakClaim Mmr List

/-- Why an execution is abandoned: by the host, or by a panic of the guest. -/
inductive Abort
  | host (e : HostError)
  | mmr (e : MmrError)
  | unwrapNone
  | alreadySet

def callHost {α : Type} : Except HostError α → Except Abort α
  | .ok a => .ok a
  | .error e => .error (.host e)

def unwrapMmr {α : Type} : Except MmrError α → Except Abort α
  | .ok a => .ok a
  | .error e => .error (.mmr e)

def ALLOWED_CONTROL_ROOT : Digest :=
  #v[0xb1, 0xf6, 0x40, 0x13, 0xf7, 0x0b, 0xbb, 0x38, 0x6a, 0x8b, 0x3a, 0x3d, 0x63, 0x55, 0x2c, 0x5c,
     0xb5, 0xea, 0x4a, 0x54, 0x9e, 0xc7, 0xfb, 0x1e, 0xcc, 0x2a, 0x03, 0x1d, 0xbf, 0x48, 0x81, 0x67]

/-- Digests compare by their words. -/
def digestWords (digest : Digest) : List ℕ := (List.range 8).map fun i => leNat ((digest.toList.drop (4 * i)).take 4)

/-- The assumption of a node over two, the lesser digest on the left. -/
def GuestPeak.mergeItem (S : Sha256) (a b : Assumption) : Assumption :=
  let aAssumption := Claim.digest S a
  let bAssumption := Claim.digest S b
  let children := if digestWords aAssumption ≤ digestWords bAssumption then [aAssumption, bAssumption] else [bAssumption, aAssumption]
  { claim := taggedStruct S "risc0.UnionClaim" children []
    controlRoot := ALLOWED_CONTROL_ROOT }

structure KeccakBatcher where
  claimState : DigestWords
  mmr : MerkleMountainAccumulator Assumption
  proofCount : BitVec 32

namespace KeccakBatcher

variable (S : Sha256) (mix : Cells → Cells)

def new : KeccakBatcher := ⟨.zero, .new, 0⟩

def inputExists (b : KeccakBatcher) : Bool := decide (b.claimState ≠ .zero)

def flush (b : KeccakBatcher) (h : Host) : Except Abort (KeccakBatcher × Host) :=
  if b.inputExists = false then .ok (b, h)
  else do
    let h := h.keccakProve b.claimState KECCAK_CONTROL_ROOT
    let mmr ← unwrapMmr (b.mmr.insert (GuestPeak.mergeItem S) ⟨b.claimState.toDigest, KECCAK_CONTROL_ROOT⟩)
    return ({ claimState := .zero, mmr := mmr, proofCount := b.proofCount + 1 }, h)

/-- The permuted state is the one that the caller goes on with. -/
def update (keccakState : KeccakState) (b : KeccakBatcher) (h : Host) : Except Abort (KeccakState × KeccakBatcher × Host) := do
  let claimState := commitSingleKeccak mix b.claimState keccakState
  let (h, keccakState, full) ← callHost (h.keccakPermute keccakState)
  let b := { b with claimState := commitSingleKeccak mix claimState keccakState }
  if full then
    let (b, h) ← b.flush S h
    return (keccakState, b, h)
  else
    return (keccakState, b, h)

end KeccakBatcher

def verifyAssumption2 (S : Sha256) (claim controlRoot : Digest) (assumptionsDigest : MaybePruned Assumptions) (h : Host) :
    MaybePruned Assumptions × Host :=
  (MaybePruned.addAssumption S (.value ⟨claim, controlRoot⟩) assumptionsDigest, h.sysVerify2 claim controlRoot)

section

variable (S : Sha256) (b : KeccakBatcher) (assumptionsDigest : MaybePruned Assumptions) (h : Host)

/-- The root over all batches becomes an assumption. Without a batch there is none. -/
def KeccakBatcher.addRoot : MaybePruned Assumptions × Host :=
  match b.mmr.root (GuestPeak.mergeItem S) with
  | .ok root =>
    let controlRoot := if b.proofCount = 1 then KECCAK_CONTROL_ROOT else ALLOWED_CONTROL_ROOT
    verifyAssumption2 S root.claim controlRoot assumptionsDigest h
  | .error _ => (assumptionsDigest, h)

def KeccakBatcher.finalize : Except Abort (MaybePruned Assumptions × Host) := do
  let (b, h) ← b.flush S h
  return b.addRoot S assumptionsDigest h

end

theorem insertLoop_ok {Item : Type} (mergeItem : Item → Item → Item) (toAdd : Peak Item) (peaks : List (Peak Item)) :
    ∃ result, MerkleMountainAccumulator.insertLoop mergeItem toAdd peaks = .ok result := by
  induction peaks generalizing toAdd with
  | nil => exact ⟨_, rfl⟩
  | cons back peaks ih =>
    rw [MerkleMountainAccumulator.insertLoop]
    by_cases h : toAdd.height = back.height
    · obtain ⟨result, hresult⟩ := ih ⟨mergeItem toAdd.item back.item, toAdd.height + 1⟩
      have hmerge : Peak.merge mergeItem toAdd back = .ok ⟨mergeItem toAdd.item back.item, toAdd.height + 1⟩ :=
        bind_ok_iff.mpr ⟨(), require_ok_iff.mpr h, rfl⟩
      rw [if_pos h, hmerge]
      exact ⟨result, hresult⟩
    · rw [if_neg h]
      exact ⟨_, rfl⟩

theorem insert_ok {Item : Type} (mergeItem : Item → Item → Item) (item : Item) (mmr : MerkleMountainAccumulator Item) :
    ∃ result, mmr.insert mergeItem item = .ok result := by
  obtain ⟨peaks, hpeaks⟩ := insertLoop_ok mergeItem (.new item) mmr.peaks.reverse
  exact ⟨⟨peaks.reverse⟩, bind_ok_iff.mpr ⟨peaks, hpeaks, rfl⟩⟩

variable {S : Sha256} {mix : Cells → Cells}

/-- A request for a batch that fits, with the digest of its inputs as its claim. -/
structure ProveKeccakRequest.Valid (mix : Cells → Cells) (r : ProveKeccakRequest) : Prop where
  range : InKeccakPo2Range r.po2
  fits : r.input.length ≤ maxKeccakInputs r.po2
  claim : r.claimDigest = computeKeccakDigest mix r.input

/-- What guest and host have of the states so far. -/
structure Batched (mix : Cells → Cells) (done : List KeccakState) (b : KeccakBatcher) (h : Host) : Prop where
  inputs : (h.pendingKeccaks.flatMap fun r => r.input) ++ h.keccak.inputs = done
  valid : ∀ r ∈ h.pendingKeccaks, r.Valid mix
  range : InKeccakPo2Range h.keccak.maxPo2
  maxInputs : h.keccak.maxInputs = maxKeccakInputs h.keccak.maxPo2
  notFull : h.keccak.inputs.length < h.keccak.maxInputs
  claim : b.claimState = computeKeccakDigest mix h.keccak.inputs

theorem withDetails_batched (maxPo2 : Option KeccakPo2) (assumptions : List AssumptionReceipt) :
    Batched mix [] .new (.withDetails maxPo2 assumptions) where
  inputs := rfl
  valid _ hr := absurd hr not_mem_nil
  range := (maxPo2.getD .default).property
  maxInputs := rfl
  notFull := maxKeccakInputs_pos (maxPo2.getD .default).property
  claim := (Cells.capacity_zero).symm

variable {done : List KeccakState} {b : KeccakBatcher} {h : Host}

theorem flush_batched (hinputs : (h.pendingKeccaks.flatMap fun r => r.input) ++ h.keccak.inputs = done)
    (hvalid : ∀ r ∈ h.pendingKeccaks, r.Valid mix) (hrange : InKeccakPo2Range h.keccak.maxPo2)
    (hmax : h.keccak.maxInputs = maxKeccakInputs h.keccak.maxPo2) (hfits : h.keccak.inputs.length ≤ h.keccak.maxInputs)
    (hclaim : b.claimState = computeKeccakDigest mix h.keccak.inputs) (hnonzero : b.claimState ≠ .zero) :
    ∃ b' h', b.flush S h = .ok (b', h') ∧ Batched mix done b' h' ∧ h'.keccak.inputs = [] := by
  obtain ⟨mmr, hmmr⟩ := insert_ok (GuestPeak.mergeItem S) ⟨b.claimState.toDigest, KECCAK_CONTROL_ROOT⟩ b.mmr
  have hexists : b.inputExists = true := decide_eq_true hnonzero
  refine ⟨{ claimState := .zero, mmr := mmr, proofCount := b.proofCount + 1 }, h.keccakProve b.claimState KECCAK_CONTROL_ROOT, ?_, ?_, rfl⟩
  · rw [KeccakBatcher.flush, hexists, if_neg (by decide), hmmr]
    rfl
  · constructor
    · rw [← hinputs]
      simp [Host.keccakProve]
    · intro r hr
      rcases mem_append.mp hr with hold | hnew
      · exact hvalid r hold
      · rw [mem_singleton.mp hnew]
        exact ⟨hrange, hmax ▸ hfits, hclaim⟩
    · exact hrange
    · exact hmax
    · exact lt_of_lt_of_eq (maxKeccakInputs_pos hrange) hmax.symm
    · exact Cells.capacity_zero.symm

theorem computeKeccakDigest_append (inputs : List KeccakState) (state : KeccakState) :
    computeKeccakDigest mix (inputs ++ [state]) =
      commitSingleKeccak mix (commitSingleKeccak mix (computeKeccakDigest mix inputs) state) (f1600 state) := by
  rw [← commit_eq_computeKeccakDigest, ← commit_eq_computeKeccakDigest, foldl_append]
  rfl

theorem update_batched (hb : Batched mix done b h) (state : KeccakState)
    (hnonzero : computeKeccakDigest mix (h.keccak.inputs ++ [state]) ≠ .zero) :
    ∃ b' h', b.update S mix state h = .ok (f1600 state, b', h') ∧ Batched mix (done ++ [state]) b' h' := by
  let keccak := { h.keccak with inputs := h.keccak.inputs ++ [state] }
  let h1 := { h with keccak := keccak }
  let b1 := { b with claimState := commitSingleKeccak mix (commitSingleKeccak mix b.claimState state) (f1600 state) }
  have hpermute : h.keccakPermute state = .ok (h1, f1600 state, keccak.isFull) := by
    have hfull : h.keccak.isFull = false := decide_eq_false (Nat.not_le.mpr hb.notFull)
    rw [Host.keccakPermute, hfull, if_neg (by decide)]
  have hclaim : b1.claimState = computeKeccakDigest mix keccak.inputs := by
    rw [computeKeccakDigest_append, ← hb.claim]
  have hinputs : (h1.pendingKeccaks.flatMap fun r => r.input) ++ h1.keccak.inputs = done ++ [state] := by
    rw [← hb.inputs, append_assoc]
  have hlength : keccak.inputs.length = h.keccak.inputs.length + 1 := length_append
  cases hfull : keccak.isFull with
  | true =>
    obtain ⟨b', h', hflush, hbatched, -⟩ := flush_batched (S := S) (b := b1) (h := h1) hinputs hb.valid hb.range hb.maxInputs
      (by rw [hlength]; exact hb.notFull) hclaim (hclaim ▸ hnonzero)
    refine ⟨b', h', ?_, hbatched⟩
    rw [KeccakBatcher.update, hpermute, hfull]
    exact bind_ok_iff.mpr ⟨(h1, f1600 state, true), rfl, bind_ok_iff.mpr ⟨(b', h'), hflush, rfl⟩⟩
  | false =>
    refine ⟨b1, h1, ?_, hinputs, hb.valid, hb.range, hb.maxInputs, Nat.not_le.mp (of_decide_eq_false hfull), hclaim⟩
    rw [KeccakBatcher.update, hpermute, hfull]
    rfl

def updateAll (S : Sha256) (mix : Cells → Cells) (states : List KeccakState) (b : KeccakBatcher) (h : Host) :
    Except Abort (KeccakBatcher × Host) :=
  states.foldlM (fun st state => do
    let (_, st) ← st.1.update S mix state st.2
    return st) (b, h)

theorem updateAll_batched {states : List KeccakState} (hb : Batched mix done b h)
    (hnonzero : ∀ batch, batch ≠ [] → batch <:+: done ++ states → computeKeccakDigest mix batch ≠ .zero) :
    ∃ b' h', updateAll S mix states b h = .ok (b', h') ∧ Batched mix (done ++ states) b' h' := by
  induction states generalizing done b h with
  | nil => exact ⟨b, h, rfl, by rwa [append_nil]⟩
  | cons state states ih =>
    have hinfix : h.keccak.inputs ++ [state] <:+: done ++ state :: states :=
      ⟨h.pendingKeccaks.flatMap fun r => r.input, states, by simp [← hb.inputs]⟩
    obtain ⟨b1, h1, hupdate, hb1⟩ := update_batched (S := S) hb state (hnonzero _ (by simp) hinfix)
    have hsplit : done ++ state :: states = (done ++ [state]) ++ states := append_cons ..
    rw [hsplit] at hnonzero ⊢
    obtain ⟨b', h', hrest, hb'⟩ := ih hb1 hnonzero
    refine ⟨b', h', ?_, hb'⟩
    rw [updateAll, foldlM_cons]
    exact bind_ok_iff.mpr ⟨(b1, h1), bind_ok_iff.mpr ⟨_, hupdate, rfl⟩, hrest⟩

theorem addRoot_pending (b : KeccakBatcher) (assumptionsDigest : MaybePruned Assumptions) (h : Host) :
    (b.addRoot S assumptionsDigest h).2.pendingKeccaks = h.pendingKeccaks := by
  rw [KeccakBatcher.addRoot]
  cases b.mmr.root (GuestPeak.mergeItem S) <;> rfl

theorem finalize_batched (hb : Batched mix done b h)
    (hnonzero : h.keccak.inputs ≠ [] → computeKeccakDigest mix h.keccak.inputs ≠ .zero) (assumptionsDigest : MaybePruned Assumptions) :
    ∃ assumptionsDigest' h', b.finalize S assumptionsDigest h = .ok (assumptionsDigest', h') ∧
      (h'.pendingKeccaks.flatMap fun r => r.input) = done ∧ ∀ r ∈ h'.pendingKeccaks, r.Valid mix := by
  obtain ⟨b1, h1, hflush, hb1, hempty⟩ : ∃ b1 h1, b.flush S h = .ok (b1, h1) ∧ Batched mix done b1 h1 ∧ h1.keccak.inputs = [] := by
    by_cases hinputs : h.keccak.inputs = []
    · have hzero : b.claimState = .zero := by
        rw [hb.claim, hinputs]
        exact Cells.capacity_zero
      have hexists : b.inputExists = false := decide_eq_false (not_not.mpr hzero)
      exact ⟨b, h, by rw [KeccakBatcher.flush, if_pos hexists], hb, hinputs⟩
    · exact flush_batched hb.inputs hb.valid hb.range hb.maxInputs hb.notFull.le hb.claim (hb.claim ▸ hnonzero hinputs)
  have hinputs : (h1.pendingKeccaks.flatMap fun r => r.input) = done := by
    rw [← hb1.inputs, hempty, append_nil]
  refine ⟨(b1.addRoot S assumptionsDigest h1).1, (b1.addRoot S assumptionsDigest h1).2, bind_ok_iff.mpr ⟨(b1, h1), hflush, rfl⟩, ?_⟩
  rw [addRoot_pending]
  exact ⟨hinputs, hb1.valid⟩

end VerifiableCompute.Guest
