import VerifiableCompute.Binfmt.Seal
import VerifiableCompute.Claim.Recursion

/-! Claims as the words of a seal. What was encoded is read back with the digest that it had, except for an exit code
that has the system part of another. -/

namespace VerifiableCompute.Claim

open Lib Codec Binfmt ReceiptClaim

namespace SystemState

def encode (s : SystemState) : List Word := writeU32Bytes s.pc ++ writeShaHalfs s.merkleRoot

def decode : Codec Word Binfmt.DecodeError SystemState := do
  let pc ← readU32Bytes
  let merkleRoot ← readShaHalfs
  return ⟨pc, merkleRoot⟩

end SystemState

/-- A pair that is not an exit code. -/
structure InvalidExitCodeError where
  sysExit : Word
  userExit : Word

inductive DecodeError
  | invalidExitCode (e : InvalidExitCodeError)
  | decode (e : Binfmt.DecodeError)

def ExitCode.fromPair (sysExit userExit : Word) : Except InvalidExitCodeError ExitCode :=
  if sysExit = 0 then .ok (.halted userExit)
  else if sysExit = 1 then .ok (.paused userExit)
  else if sysExit = 2 then .ok .systemSplit
  else .error ⟨sysExit, userExit⟩

def popFront : Codec Word Binfmt.DecodeError Word
  | [] => .error .endOfStream
  | x :: flat => .ok (x, flat)

namespace ReceiptClaim

def encode (S : Sha256) (self : ReceiptClaim) : Codec Word PrunedValueError Unit := do
  push (writeShaHalfs (digest S self.input))
  push (← StateT.lift self.pre.asValue).encode
  push (← StateT.lift self.post.asValue).encode
  let (sysExit, userExit) := self.exitCode.intoPair
  push [sysExit]
  push [userExit]
  push (writeShaHalfs (digest S self.output))

def decode : Codec Word DecodeError ReceiptClaim := do
  let input ← readShaHalfs.mapError .decode
  let pre ← SystemState.decode.mapError .decode
  let post ← SystemState.decode.mapError .decode
  let sysExit ← popFront.mapError .decode
  let userExit ← popFront.mapError .decode
  let exitCode ← StateT.lift ((ExitCode.fromPair sysExit userExit).mapError .invalidExitCode)
  let output ← readShaHalfs.mapError .decode
  return { input := .pruned input, pre := .value pre, post := .value post, exitCode, output := .pruned output }

end ReceiptClaim

def u64FromU16s (u16s : List (BitVec 16)) : BitVec 64 := BitVec.ofNat 64 (ofU16s u16s)

def decodeWorkValueFromSeal : Codec Word Binfmt.DecodeError (BitVec 64) := do
  StateT.lift ((← drain 4).mapM u16FromU32 >>= fun u16s => .ok (u64FromU16s u16s))

def Work.decodeFromSeal : Codec Word Binfmt.DecodeError Work := do
  let nonceMin ← PovwNonce.decodeFromSeal
  let nonceMax ← PovwNonce.decodeFromSeal
  let value ← decodeWorkValueFromSeal
  return ⟨nonceMin, nonceMax, value⟩

namespace WorkClaim

def encodeToSeal (S : Sha256) (self : WorkClaim ReceiptClaim) : Codec Word PrunedValueError Unit := do
  let claim ← StateT.lift self.claim.asValue
  claim.encode S
  let work ← StateT.lift self.work.asValue
  push work.encodeToSeal

def decodeFromSeal : Codec Word DecodeError (WorkClaim ReceiptClaim) := do
  let claim ← ReceiptClaim.decode
  let work ← Work.decodeFromSeal.mapError .decode
  return ⟨.value claim, .value work⟩

end WorkClaim

theorem SystemState.decode_reads (s : SystemState) : Reads decode s.encode s :=
  (readU32Bytes_reads s.pc).bind ((readShaHalfs_reads s.merkleRoot).map (SystemState.mk s.pc))

theorem popFront_reads (x : Word) : Reads popFront [x] x := fun _ => rfl

def ExitCode.readBack : ExitCode → ExitCode
  | .sessionLimit => .systemSplit
  | exitCode => exitCode

theorem ExitCode.fromPair_intoPair (e : ExitCode) : fromPair e.intoPair.1 e.intoPair.2 = .ok e.readBack := by
  cases e <;> rfl

theorem ExitCode.readBack_eq_iff (e : ExitCode) : e.readBack = e ↔ e ≠ .sessionLimit := by
  cases e <;> simp [readBack]

theorem decodeWorkValueFromSeal_reads (value : BitVec 64) :
    Reads decodeWorkValueFromSeal ((u64ToU16s value).map (·.setWidth 32)) value := by
  refine drain_map_reads (f := fun words => words.mapM u16FromU32 >>= fun u16s => .ok (u64FromU16s u16s)) ?_ ?_
  · simp [u64ToU16s]
  · have hlt : value.toNat < (2 ^ 16) ^ 4 := value.isLt
    rw [mapM_u16FromU32]
    change Except.ok (u64FromU16s (u64ToU16s value)) = _
    rw [u64FromU16s, u64ToU16s, ofU16s_range, Nat.mod_eq_of_lt hlt, BitVec.ofNat_toNat, BitVec.setWidth_eq]

theorem Work.decodeFromSeal_reads (w : Work) : Reads decodeFromSeal w.encodeToSeal w := by
  rw [encodeToSeal, List.append_assoc]
  exact w.nonceMin.decodeFromSeal_reads.bind
    (w.nonceMax.decodeFromSeal_reads.bind ((decodeWorkValueFromSeal_reads w.value).map (Work.mk w.nonceMin w.nonceMax)))

section RoundTrip

variable (S : Sha256)

def ReceiptClaim.words (c : ReceiptClaim) (pre post : SystemState) : List Word :=
  writeShaHalfs (digest S c.input) ++ (pre.encode ++ (post.encode ++
    ([c.exitCode.intoPair.1] ++ ([c.exitCode.intoPair.2] ++ writeShaHalfs (digest S c.output)))))

/-- What is read of a claim: its input and output are pruned. -/
def ReceiptClaim.readBack (c : ReceiptClaim) : ReceiptClaim :=
  { c with input := .pruned (digest S c.input), exitCode := c.exitCode.readBack, output := .pruned (digest S c.output) }

variable {S} {c : ReceiptClaim} {pre post : SystemState}

theorem ReceiptClaim.encode_writes (hpre : c.pre = .value pre) (hpost : c.post = .value post) :
    Writes (c.encode S) (c.words S pre post) := by
  have hprePruned : c.pre.asValue = .ok pre := by rw [hpre]; rfl
  have hpostPruned : c.post.asValue = .ok post := by rw [hpost]; rfl
  exact (push_writes _).bind (.lift hprePruned ((push_writes _).bind (.lift hpostPruned ((push_writes _).bind
    ((push_writes _).bind ((push_writes _).bind (push_writes _)))))))

theorem ReceiptClaim.decode_reads (hpre : c.pre = .value pre) (hpost : c.post = .value post) :
    Reads decode (c.words S pre post) (c.readBack S) := by
  have hexit : (ExitCode.fromPair c.exitCode.intoPair.1 c.exitCode.intoPair.2).mapError DecodeError.invalidExitCode =
      .ok c.exitCode.readBack := by rw [c.exitCode.fromPair_intoPair]; rfl
  have houtput := ((readShaHalfs_reads (digest S c.output)).mapError DecodeError.decode).map fun output =>
    ({ input := .pruned (digest S c.input), pre := .value pre, post := .value post, exitCode := c.exitCode.readBack,
       output := .pruned output } : ReceiptClaim)
  rw [readBack, hpre, hpost]
  exact ((readShaHalfs_reads _).mapError _).bind (((SystemState.decode_reads pre).mapError _).bind
    (((SystemState.decode_reads post).mapError _).bind (((popFront_reads _).mapError _).bind (((popFront_reads _).mapError _).bind
      ((Reads.lift hexit).bind houtput)))))

variable {w : Work}

theorem WorkClaim.encodeToSeal_writes (hpre : c.pre = .value pre) (hpost : c.post = .value post) :
    Writes (encodeToSeal S ⟨.value c, .value w⟩) (c.words S pre post ++ w.encodeToSeal) :=
  Writes.lift rfl ((encode_writes hpre hpost).bind (.lift rfl (push_writes _)))

theorem WorkClaim.decodeFromSeal_reads (hpre : c.pre = .value pre) (hpost : c.post = .value post) :
    Reads decodeFromSeal (c.words S pre post ++ w.encodeToSeal) ⟨.value (c.readBack S), .value w⟩ :=
  (decode_reads hpre hpost).bind
    ((w.decodeFromSeal_reads.mapError DecodeError.decode).map fun work => (⟨.value (c.readBack S), .value work⟩ : WorkClaim ReceiptClaim))

variable (S) in
/-- What is encoded is decoded, whatever follows it, and the claim that comes out has the same digest. -/
def SealRoundTrip {C : Type} [Digestible C] (encode : Codec Word PrunedValueError Unit) (decode : Codec Word DecodeError C) (claim : C) : Prop :=
  ∃ words claim', Writes encode words ∧ Reads decode words claim' ∧ digest S claim' = digest S claim

theorem sealRoundTrip_iff {C : Type} [Digestible C] {encode : Codec Word PrunedValueError Unit} {decode : Codec Word DecodeError C}
    {claim claim' : C} {words : List Word} (hwrites : Writes encode words) (hreads : Reads decode words claim') :
    SealRoundTrip S encode decode claim ↔ digest S claim' = digest S claim := by
  constructor
  · rintro ⟨words', claim'', hwrites', hreads', hdigest⟩
    have hwritten := (hwrites []).symm.trans (hwrites' [])
    simp only [List.nil_append, Except.ok.injEq, Prod.mk.injEq, true_and] at hwritten
    have hsame : words ++ [] = words' ++ [] := congrArg (· ++ []) hwritten
    obtain rfl := (hreads.prefix_free hreads' hsame).1
    exact hdigest
  · exact fun hdigest => ⟨words, claim', hwrites, hreads, hdigest⟩

variable (S) in
def ReceiptClaim.hashed (c : ReceiptClaim) : List Byte :=
  (S (utf8Bytes "risc0.ReceiptClaim")).toList ++
    [digest S c.input, digest S c.pre, digest S c.post, digest S c.output].flatMap (·.toList) ++
      [c.exitCode.intoPair.1, c.exitCode.intoPair.2].flatMap u32LeBytes ++ leBytes 2 4

theorem ReceiptClaim.hashed_readBack_iff (c : ReceiptClaim) : (c.readBack S).hashed S = c.hashed S ↔ c.exitCode ≠ .sessionLimit := by
  rw [← c.exitCode.readBack_eq_iff]
  constructor
  · intro h
    have hpair : [c.exitCode.readBack.intoPair.1, c.exitCode.readBack.intoPair.2].flatMap u32LeBytes =
        [c.exitCode.intoPair.1, c.exitCode.intoPair.2].flatMap u32LeBytes :=
      List.append_cancel_left (List.append_cancel_right h)
    cases hexit : c.exitCode with
    | sessionLimit =>
      rw [hexit] at hpair
      exact absurd hpair (by decide)
    | _ => rfl
  · intro h
    simp only [hashed, readBack, h]
    rfl

/-- Claims and work claims survive the seal, unless the claim has the exit code of a session limit: the pair of that code
is read as a system split. -/
theorem seal_round_trip_iff (hpre : c.pre = .value pre) (hpost : c.post = .value post) (w : Work)
    (hcollision : S ((c.readBack S).hashed S) = S (c.hashed S) → (c.readBack S).hashed S = c.hashed S) :
    (SealRoundTrip S (c.encode S) ReceiptClaim.decode c ∧
        SealRoundTrip S (WorkClaim.encodeToSeal S ⟨.value c, .value w⟩) WorkClaim.decodeFromSeal ⟨.value c, .value w⟩) ↔
      c.exitCode ≠ .sessionLimit := by
  have hclaim : SealRoundTrip S (c.encode S) ReceiptClaim.decode c ↔ digest S (c.readBack S) = digest S c :=
    sealRoundTrip_iff (ReceiptClaim.encode_writes hpre hpost) (ReceiptClaim.decode_reads hpre hpost)
  have hwork : SealRoundTrip S (WorkClaim.encodeToSeal S ⟨.value c, .value w⟩) WorkClaim.decodeFromSeal ⟨.value c, .value w⟩ ↔
      digest S (⟨.value (c.readBack S), .value w⟩ : WorkClaim ReceiptClaim) = digest S (⟨.value c, .value w⟩ : WorkClaim ReceiptClaim) :=
    sealRoundTrip_iff (WorkClaim.encodeToSeal_writes hpre hpost) (WorkClaim.decodeFromSeal_reads hpre hpost)
  rw [hclaim, hwork, ← c.hashed_readBack_iff (S := S)]
  constructor
  · exact fun h => hcollision h.1
  · intro h
    have hdigest : digest S (c.readBack S) = digest S c := congrArg S h
    refine ⟨hdigest, ?_⟩
    exact congrArg (fun d => taggedStruct S "risc0.WorkClaim" [d, digest S (.value w : MaybePruned Work)] []) hdigest

end RoundTrip

def exitClaim (exitCode : ExitCode) : ReceiptClaim where
  pre := .value ⟨0, .zero⟩
  post := .value ⟨0, .zero⟩
  exitCode
  input := .value none
  output := .value none

/-- The sum of the bytes, in place of a hash. -/
def sumOfBytes : Sha256 := fun bytes => .replicate 32 bytes.sum

theorem seal_round_trip_iff_halted :
    (SealRoundTrip sumOfBytes ((exitClaim (.halted 3)).encode sumOfBytes) ReceiptClaim.decode (exitClaim (.halted 3)) ∧
        SealRoundTrip sumOfBytes (WorkClaim.encodeToSeal sumOfBytes ⟨.value (exitClaim (.halted 3)), .value ⟨⟨7, 1, 0⟩, ⟨7, 1, 4⟩, 9⟩⟩)
          WorkClaim.decodeFromSeal ⟨.value (exitClaim (.halted 3)), .value ⟨⟨7, 1, 0⟩, ⟨7, 1, 4⟩, 9⟩⟩) ↔
      (exitClaim (.halted 3)).exitCode ≠ .sessionLimit :=
  seal_round_trip_iff rfl rfl ⟨⟨7, 1, 0⟩, ⟨7, 1, 4⟩, 9⟩ fun _ => rfl

/-- A claim at its session limit comes back as a claim at a system split. -/
theorem seal_round_trip_session_limit :
    ¬SealRoundTrip sumOfBytes ((exitClaim .sessionLimit).encode sumOfBytes) ReceiptClaim.decode (exitClaim .sessionLimit) := by
  rw [sealRoundTrip_iff (ReceiptClaim.encode_writes rfl rfl) (ReceiptClaim.decode_reads rfl rfl)]
  with_unfolding_all (set_option maxRecDepth 100000 in decide)

end VerifiableCompute.Claim
