import VerifiableCompute.Guest.Batcher
import VerifiableCompute.KeccakClaim.Trace
import VerifiableCompute.Zkp.Poseidon2

/-! The mixing function of the sponge: the optimised Poseidon2 of the provers. -/

namespace VerifiableCompute.KeccakClaim

/-- The mixing of the sponge, on elements in Montgomery form. -/
def poseidon2Mix (cells : Cells) : Cells :=
  (Zkp.Poseidon2.poseidon2Mix (cells.map fun e => .new e.asU32)).map fun e => .new e.asU32

end VerifiableCompute.KeccakClaim

/-! The claims over permutations, from the guest that makes them to the prover. Each request's
claim is the digest of its inputs, and the trace that is generated for them ends on it. -/

namespace VerifiableCompute.Guest

open Lib Binfmt Claim KeccakClaim

/-- The permutations of a session and its end. -/
def keccakSession (S : Sha256) (mix : Cells → Cells) (states : List KeccakState) (assumptionsDigest : MaybePruned Assumptions) (h : Host) :
    Except Abort (MaybePruned Assumptions × Host) := do
  let (b, h) ← updateAll S mix states .new h
  b.finalize S assumptionsDigest h

theorem keccakSession_batched {S : Sha256} {mix : Cells → Cells} {states : List KeccakState}
    (hnonzero : ∀ batch, batch ≠ [] → batch <:+: states → computeKeccakDigest mix batch ≠ .zero)
    (maxPo2 : Option KeccakPo2) (assumptions : List AssumptionReceipt) (assumptionsDigest : MaybePruned Assumptions) :
    ∃ assumptionsDigest' h', keccakSession S mix states assumptionsDigest (.withDetails maxPo2 assumptions) = .ok (assumptionsDigest', h') ∧
      (h'.pendingKeccaks.flatMap fun r => r.input) = states ∧ ∀ r ∈ h'.pendingKeccaks, r.Valid mix := by
  obtain ⟨b, h, hupdates, hb⟩ := updateAll_batched (S := S) (withDetails_batched maxPo2 assumptions) hnonzero
  rw [List.nil_append] at hb
  have hlast : h.keccak.inputs ≠ [] → computeKeccakDigest mix h.keccak.inputs ≠ .zero := fun hne =>
    hnonzero _ hne ⟨h.pendingKeccaks.flatMap fun r => r.input, [], by rw [hb.inputs, List.append_nil]⟩
  obtain ⟨assumptionsDigest', h', hfinalize, hend⟩ := finalize_batched (S := S) hb hlast assumptionsDigest
  exact ⟨assumptionsDigest', h', bind_ok_iff.mpr ⟨(b, h), hupdates, hfinalize⟩, hend⟩

/-- What a request's inputs lead to in the prover. -/
structure TraceShows {Key : Type} [DecidableEq Key] (keyForCycle : ControlState → Key) (mix : Cells → Cells) (r : ProveKeccakRequest) : Prop where
  cycles : (traceInputs keyForCycle mix r.input).1.trace.cycle ≤ 2 ^ r.po2
  total : (PreflightTrace.new keyForCycle mix r.input (2 ^ r.po2)).cycle = 2 ^ r.po2
  offsets : (PreflightTrace.new keyForCycle mix r.input (2 ^ r.po2)).data.length < 2 ^ 32
  capacity : ((PreflightTrace.new keyForCycle mix r.input (2 ^ r.po2)).wordsAt (2 ^ r.po2 - 1) pflatCol).drop 16 = r.claimDigest.toList
  rounds : ∀ kflat pflat idx t, ∀ s ∈ r.input, (traceRounds keyForCycle kflat pflat idx (t, s)).2 = f1600 s

theorem ProveKeccakRequest.Valid.traceShows {Key : Type} [DecidableEq Key] (keyForCycle : ControlState → Key) {mix : Cells → Cells}
    {r : ProveKeccakRequest} (h : r.Valid mix) : TraceShows keyForCycle mix r where
  cycles := traceInputs_cycle_le h.fits
  total := new_cycle h.fits
  offsets := new_data_length h.range h.fits
  capacity := h.claim ▸ new_capacity h.fits
  rounds _ _ _ _ _ _ := traceRounds_state ..

/-- Unless some consecutive states hash to zero, which stands for an empty batch in the guest:
the host takes every call, its requests cut the states into consecutive pieces that fit, and the
claim of each is what the host computes and what the trace ends on. -/
theorem keccak_claims_agree {Key : Type} [DecidableEq Key] (keyForCycle : ControlState → Key) (S : Sha256)
    (maxPo2 : Option KeccakPo2) (assumptions : List AssumptionReceipt) (assumptionsDigest : MaybePruned Assumptions)
    (states : List KeccakState) :
    (∃ batch, batch ≠ [] ∧ batch <:+: states ∧ computeKeccakDigest poseidon2Mix batch = .zero) ∨
      ∃ assumptionsDigest' h',
        keccakSession S poseidon2Mix states assumptionsDigest (.withDetails maxPo2 assumptions) = .ok (assumptionsDigest', h') ∧
          (h'.pendingKeccaks.flatMap fun r => r.input) = states ∧
          ∀ r ∈ h'.pendingKeccaks, r.input.length ≤ maxKeccakInputs r.po2 ∧
            r.claimDigest = computeKeccakDigest poseidon2Mix r.input ∧ TraceShows keyForCycle poseidon2Mix r := by
  by_cases hzero : ∃ batch, batch ≠ [] ∧ batch <:+: states ∧ computeKeccakDigest poseidon2Mix batch = .zero
  · exact .inl hzero
  · have hnonzero : ∀ batch, batch ≠ [] → batch <:+: states → computeKeccakDigest poseidon2Mix batch ≠ .zero :=
      fun batch hne hinfix heq => hzero ⟨batch, hne, hinfix, heq⟩
    obtain ⟨assumptionsDigest', h', hsession, hinputs, hvalid⟩ := keccakSession_batched (S := S) hnonzero maxPo2 assumptions assumptionsDigest
    exact .inr ⟨assumptionsDigest', h', hsession, hinputs, fun r hr =>
      ⟨(hvalid r hr).fits, (hvalid r hr).claim, (hvalid r hr).traceShows keyForCycle⟩⟩

end VerifiableCompute.Guest
