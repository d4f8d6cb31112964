import VerifiableCompute.Lib.Calldata
import VerifiableCompute.Market.Requirements

/-! The data that is delivered with a proof. The contract reads it without any checks; that it reads the data
which the assessor has seen follows from the digest of the data in the assessor's journal. -/

namespace VerifiableCompute.Market

open Lib List BitVec

/-- An image and a slice of the data of the call. -/
structure DecodedData where
  imageId : Bytes32
  journalOffset : U256
  journalLength : U256

/-- Positions wrap around, and nothing is checked. -/
def decodePackedImageIdAndJournal (data : CalldataSlice) : DecodedData :=
  let offset : U256 := BitVec.ofNat 256 data.offset
  let calldataload (p : U256) : U256 := readWord data.calldata p.toNat
  let imageId := calldataload (offset + 0x20)
  let journalOffset := calldataload (offset + 0x40)
  let journalPtr := offset + (0x20 + journalOffset)
  ⟨imageId, journalPtr + 0x20, calldataload journalPtr⟩

def DecodedData.journal (d : DecodedData) (calldata : Bytes) : Bytes := readBytes calldata d.journalOffset.toNat d.journalLength.toNat

def decodeReads (data : CalldataSlice) : List (U256 × ℕ) :=
  let offset : U256 := BitVec.ofNat 256 data.offset
  let decoded := decodePackedImageIdAndJournal data
  [(offset + 0x20, 32), (offset + 0x40, 32), (decoded.journalOffset - 0x20, 32), (decoded.journalOffset, decoded.journalLength.toNat)]

/-- The decoder gives the image and the journal, and reads only the data. -/
structure Decodes (data : CalldataSlice) (imageId : Bytes32) (journal : Bytes) : Prop where
  imageId : (decodePackedImageIdAndJournal data).imageId = imageId
  journal : (decodePackedImageIdAndJournal data).journal data.calldata = journal
  inside : ∀ read ∈ decodeReads data, data.offset ≤ read.1.toNat ∧ read.1.toNat + read.2 ≤ data.offset + data.length

/-- What a pointer to bytes can point to. -/
structure Slice where
  bytes : Bytes
  bounded : bytes.length < 2 ^ 63

inductive FulfillmentDataError
  | malformed

/-- A word that is there. -/
def wordAt (data : Bytes) (p : ℕ) : Option U256 := if p + 32 ≤ data.length then some (readWord data p) else none

/-- The struct as it is encoded: behind an offset, with another to the string. -/
def abiDecodeImageIdAndJournal (data : Bytes) : Option (Bytes32 × Bytes) := do
  let start ← wordAt data 0
  let imageId ← wordAt data start.toNat
  let journalOffset ← wordAt data (start.toNat + 32)
  let journalPtr := start.toNat + journalOffset.toNat
  let journalLength ← wordAt data journalPtr
  if journalPtr + 32 + journalLength.toNat ≤ data.length then
    return (imageId, readBytes data (journalPtr + 32) journalLength.toNat)
  else none

def FulfillmentData.decodeWithType (fillType : FulfillmentDataType) (data : Slice) : Except FulfillmentDataError FulfillmentData :=
  match fillType with
  | .none => if data.bytes = [] then .ok .none else .error .malformed
  | .imageIdAndJournal =>
    match abiDecodeImageIdAndJournal data.bytes with
    | some (imageId, journal) => .ok (.imageIdAndJournal imageId journal)
    | .none => .error .malformed

section Encoding

variable (imageId : Bytes32) (journal : Bytes)

theorem abiEncode_eq : abiEncodeImageIdAndJournal imageId journal =
    encodeWords [0x20, imageId, 0x40, BitVec.ofNat 256 journal.length] ++
      (journal ++ List.replicate ((32 - journal.length % 32) % 32) 0) := by
  rw [abiEncodeImageIdAndJournal, List.append_assoc]

theorem abiEncode_length : 128 + journal.length ≤ (abiEncodeImageIdAndJournal imageId journal).length := by
  rw [abiEncode_eq, length_append, encodeWords_length, length_append]
  simp

variable {imageId journal}

theorem readWord_abiEncode (before after : Bytes) {i : ℕ} {x : U256}
    (h : [(0x20 : U256), imageId, 0x40, BitVec.ofNat 256 journal.length][i]? = some x) :
    readWord (before ++ (abiEncodeImageIdAndJournal imageId journal ++ after)) (before.length + 32 * i) = x := by
  rw [abiEncode_eq, List.append_assoc]
  exact readWord_encodeWords before _ _ h

theorem readBytes_abiEncode (before after : Bytes) :
    readBytes (before ++ (abiEncodeImageIdAndJournal imageId journal ++ after)) (before.length + 128) journal.length = journal := by
  have hsplit : before ++ (abiEncodeImageIdAndJournal imageId journal ++ after) =
      (before ++ encodeWords [0x20, imageId, 0x40, BitVec.ofNat 256 journal.length]) ++
        (journal ++ (List.replicate ((32 - journal.length % 32) % 32) 0 ++ after)) := by
    simp only [abiEncode_eq, List.append_assoc]
  have hlength : before.length + 128 = (before ++ encodeWords [0x20, imageId, 0x40, BitVec.ofNat 256 journal.length]).length := by
    rw [length_append, encodeWords_length]
    rfl
  rw [hsplit, hlength]
  exact readBytes_append _ _ _

theorem decodes_of_bytes_eq {data : CalldataSlice} (h : data.bytes = abiEncodeImageIdAndJournal imageId journal) : Decodes data imageId journal := by
  obtain ⟨before, after, hbefore, hcalldata⟩ := data.calldata_eq
  rw [h] at hcalldata
  have hinside := data.inside
  have hbounded := data.bounded
  have hlength := abiEncode_length imageId journal
  rw [← h, data.bytes_length] at hlength
  have hsmall (n : ℕ) (hn : data.offset + n < 2 ^ 256) : (BitVec.ofNat 256 data.offset + BitVec.ofNat 256 n).toNat = data.offset + n := by
    rw [toNat_add, toNat_ofNat, toNat_ofNat, Nat.mod_eq_of_lt (by omega : data.offset < 2 ^ 256),
      Nat.mod_eq_of_lt (by omega : n < 2 ^ 256), Nat.mod_eq_of_lt hn]
  have hword {i : ℕ} {x : U256} (hi : [(0x20 : U256), imageId, 0x40, BitVec.ofNat 256 journal.length][i]? = some x) :
      readWord data.calldata (data.offset + 32 * i) = x := by
    rw [hcalldata, ← hbefore]
    exact readWord_abiEncode before after hi
  have h20 : (BitVec.ofNat 256 data.offset + 0x20).toNat = data.offset + 32 := hsmall 32 (by omega)
  have h40 : (BitVec.ofNat 256 data.offset + 0x40).toNat = data.offset + 64 := hsmall 64 (by omega)
  have h60 : (BitVec.ofNat 256 data.offset + (0x20 + 0x40)).toNat = data.offset + 96 := hsmall 96 (by omega)
  have h80 : (BitVec.ofNat 256 data.offset + (0x20 + 0x40) + 0x20).toNat = data.offset + 128 := by
    rw [BitVec.add_assoc]
    exact hsmall 128 (by omega)
  have himage : readWord data.calldata (data.offset + 32) = imageId := hword (i := 1) rfl
  have hoffset : readWord data.calldata (data.offset + 64) = 0x40 := hword (i := 2) rfl
  have hlen : readWord data.calldata (data.offset + 96) = BitVec.ofNat 256 journal.length := hword (i := 3) rfl
  have hjournal : (BitVec.ofNat 256 journal.length).toNat = journal.length := by
    rw [toNat_ofNat, Nat.mod_eq_of_lt (by omega)]
  have hdecoded : decodePackedImageIdAndJournal data =
      ⟨imageId, BitVec.ofNat 256 data.offset + (0x20 + 0x40) + 0x20, BitVec.ofNat 256 journal.length⟩ := by
    simp only [decodePackedImageIdAndJournal, h20, h40, himage, hoffset, h60, hlen]
  refine ⟨by rw [hdecoded], ?_, ?_⟩
  · rw [hdecoded, DecodedData.journal, h80, hjournal, hcalldata, ← hbefore]
    exact readBytes_abiEncode before after
  · intro read hread
    simp only [decodeReads, hdecoded, BitVec.add_sub_cancel, mem_cons, not_mem_nil, or_false] at hread
    obtain rfl | rfl | rfl | rfl := hread
    · rw [h20]; omega
    · rw [h40]; omega
    · rw [h60]; omega
    · rw [h80, hjournal]; omega

theorem decodeWithType_typeAndData (d : FulfillmentData) {data : Slice} (h : data.bytes = d.typeAndData.2) :
    FulfillmentData.decodeWithType d.typeAndData.1 data = .ok d := by
  cases d with
  | none => exact if_pos h
  | imageIdAndJournal imageId journal =>
    have hbounded := data.bounded
    have hlength := abiEncode_length imageId journal
    have hbytes : data.bytes = [] ++ (abiEncodeImageIdAndJournal imageId journal ++ []) := by rw [h]; simp [FulfillmentData.typeAndData]
    have hlength' : 128 + journal.length ≤ data.bytes.length := by rw [h]; exact hlength
    have hword {i : ℕ} {x : U256} (hi : [(0x20 : U256), imageId, 0x40, BitVec.ofNat 256 journal.length][i]? = some x) (hlt : i < 4) :
        wordAt data.bytes (32 * i) = some x := by
      rw [wordAt, if_pos (by omega), hbytes]
      simpa using readWord_abiEncode [] [] hi
    have hjournal : (BitVec.ofNat 256 journal.length).toNat = journal.length := by
      rw [toNat_ofNat, Nat.mod_eq_of_lt (by omega)]
    have hstring : readBytes data.bytes 128 journal.length = journal := by
      rw [hbytes]
      simpa using @readBytes_abiEncode imageId journal [] []
    have hdecode : abiDecodeImageIdAndJournal data.bytes = some (imageId, journal) := by
      have h0 : wordAt data.bytes 0 = some (0x20 : U256) := hword (i := 0) rfl (by decide)
      have h1 : wordAt data.bytes 32 = some imageId := hword (i := 1) rfl (by decide)
      have h2 : wordAt data.bytes 64 = some (0x40 : U256) := hword (i := 2) rfl (by decide)
      have h3 : wordAt data.bytes 96 = some (BitVec.ofNat 256 journal.length) := hword (i := 3) rfl (by decide)
      have hfits : 96 + 32 + journal.length ≤ data.bytes.length := by omega
      have hstart : (0x20 : U256).toNat = 32 := rfl
      have hptr : (0x40 : U256).toNat = 64 := rfl
      simp only [abiDecodeImageIdAndJournal, h0, Option.bind_eq_bind, Option.bind_some, hstart, h1, h2, hptr, h3, hjournal, Nat.reduceAdd]
      rw [if_pos hfits, hstring]
      rfl
    simp only [FulfillmentData.decodeWithType, FulfillmentData.typeAndData, hdecode]

end Encoding

/-- A call of `handleProof`. -/
structure Invocation where
  addr : Address
  gasLimit : U96
  imageId : Bytes32
  journal : Bytes
  sealData : Bytes

/-- The fill was delivered, and its request had not expired. -/
def Outcome.inTime : Outcome → Bool
  | .delivered ⟨_, false⟩ => true
  | _ => false

def invocationOf (receipt : AssessorReceipt) (locate : ℕ → CalldataSlice) (i : ℕ) (fill : Fulfillment) : Option Invocation :=
  (callbackOf receipt.callbacks i).map fun callback =>
    let decoded := decodePackedImageIdAndJournal (locate i)
    ⟨callback.addr, callback.gasLimit, decoded.imageId, decoded.journal (locate i).calldata, fill.sealData⟩

/-- The loop of `fulfill` with the callbacks that it makes, one entry for each fill. The data of each fill lies
somewhere in the data of the call. -/
def Fills.execCallbacks (cfg : Config) (receipt : AssessorReceipt) (locate : ℕ → CalldataSlice) :
    ℕ → Fills → Chain → Except Revert (Chain × List (Outcome × Option Invocation))
  | _, .nil, c => .ok (c, [])
  | i, .cons fill handleProof returns enoughGas rest, c => do
    let (c, outcome) ← c.perform cfg (.fulfillAndPay fill receipt.prover)
    match outcome.inTime, callbackOf receipt.callbacks i with
    | true, some callback =>
      if fill.fulfillmentDataType = .imageIdAndJournal then do
        require (enoughGas = true) .insufficientGas
        if returns then do
          let (c, entries) ← execCallbacks cfg receipt locate (i + 1) rest (handleProof.exec cfg c)
          return (c, (outcome, invocationOf receipt locate i fill) :: entries)
        else do
          let c ← c.effect cfg (.logCallbackFailed fill.id callback.addr)
          let (c, entries) ← execCallbacks cfg receipt locate (i + 1) rest c
          return (c, (outcome, invocationOf receipt locate i fill) :: entries)
      else .error .unfulfillableCallback
    | _, _ => do
      let (c, entries) ← execCallbacks cfg receipt locate (i + 1) rest c
      return (c, (outcome, none) :: entries)

section Callbacks

variable {cfg : Config} {receipt : AssessorReceipt} {locate : ℕ → CalldataSlice}

/-- The loop is that of every entry point that fulfills; the entries are kept beside what it does. -/
theorem Fills.execCallbacks_exec : ∀ (fills : Fills) (n : ℕ) (c : Chain),
    (fills.execCallbacks cfg receipt locate n c).map Prod.fst = fills.exec cfg receipt n c
  | .nil, _, _ => rfl
  | .cons fill handleProof returns enoughGas rest, n, c => by
    have hrest (d : Chain) (entry : Outcome × Option Invocation) : (rest.execCallbacks cfg receipt locate (n + 1) d >>= fun p =>
        (Except.ok (p.1, entry :: p.2) : Except Revert _)).map Prod.fst = rest.exec cfg receipt (n + 1) d := by
      rw [← Fills.execCallbacks_exec rest (n + 1) d]
      cases rest.execCallbacks cfg receipt locate (n + 1) d <;> rfl
    rw [Fills.execCallbacks, Fills.exec]
    cases c.perform cfg (.fulfillAndPay fill receipt.prover) with
    | error e => rfl
    | ok r =>
      obtain ⟨d, outcome⟩ := r
      cases callbackOf receipt.callbacks n with
      | none => obtain _ | ⟨error, _ | _⟩ := outcome <;> exact hrest d _
      | some callback =>
        obtain _ | ⟨error, _ | _⟩ := outcome
        · exact hrest d _
        · show Except.map Prod.fst (if _ then _ else _) = if _ then _ else _
          cases enoughGas with
          | false => split_ifs <;> rfl
          | true =>
            split_ifs with htype hreturns
            · exact hrest (handleProof.exec cfg d) _
            · cases d.effect cfg (.logCallbackFailed fill.id callback.addr) with
              | error e => rfl
              | ok d' => exact hrest d' _
            · rfl
        · exact hrest d _

def CalledBack (receipt : AssessorReceipt) (locate : ℕ → CalldataSlice) (i : ℕ) (fill : Fulfillment) (entry : Outcome × Option Invocation) : Prop :=
  entry.2 = (if entry.1.inTime then invocationOf receipt locate i fill else none) ∧
    (entry.2.isSome → fill.fulfillmentDataType = .imageIdAndJournal)

theorem Fills.execCallbacks_ok : ∀ (fills : Fills) (n : ℕ) {c c' : Chain} {entries : List (Outcome × Option Invocation)},
    fills.execCallbacks cfg receipt locate n c = .ok (c', entries) →
      List.Forall₂ (fun (p : ℕ × Fulfillment) entry => CalledBack receipt locate (n + p.1) p.2 entry)
        (fills.calldata.mapIdx fun i fill => (i, fill)) entries
  | .nil, n, c, c', entries, h => by
    obtain ⟨-, rfl⟩ := Prod.mk.inj (Except.ok.inj h)
    exact .nil
  | .cons fill handleProof returns enoughGas rest, n, c, c', entries, h => by
    rw [Fills.execCallbacks] at h
    simp only [bind_ok_iff, Prod.exists] at h
    obtain ⟨d, outcome, -, h⟩ := h
    have hstep {d' : Chain} {entry : Outcome × Option Invocation} (hentry : CalledBack receipt locate n fill entry)
        (h : (rest.execCallbacks cfg receipt locate (n + 1) d' >>= fun p => Except.ok (p.1, entry :: p.2)) = .ok (c', entries)) :
        List.Forall₂ (fun (p : ℕ × Fulfillment) entry => CalledBack receipt locate (n + p.1) p.2 entry)
          ((Fills.cons fill handleProof returns enoughGas rest).calldata.mapIdx fun i fill => (i, fill)) entries := by
      obtain ⟨⟨e, more⟩, hrest, h⟩ := bind_ok_iff.mp h
      obtain ⟨-, rfl⟩ := Prod.mk.inj (Except.ok.inj h)
      have ih := Fills.execCallbacks_ok rest (n + 1) hrest
      rw [Fills.calldata, mapIdx_cons]
      refine .cons hentry ?_
      rw [forall₂_iff_get] at ih ⊢
      obtain ⟨hlength, hall⟩ := ih
      refine ⟨by simpa using hlength, fun i h1 h2 => ?_⟩
      have := hall i (by simpa using h1) h2
      simp only [get_eq_getElem, getElem_mapIdx] at this ⊢
      rwa [show n + (i + 1) = n + 1 + i by ring]
    split at h
    next callback htime hcallback =>
      split_ifs at h with htype hreturns
      · obtain ⟨_, -, h⟩ := bind_ok_iff.mp h
        exact hstep ⟨by rw [if_pos htime], fun _ => htype⟩ h
      · obtain ⟨_, -, h⟩ := bind_ok_iff.mp h
        obtain ⟨d', -, h⟩ := bind_ok_iff.mp h
        exact hstep ⟨by rw [if_pos htime], fun _ => htype⟩ h
    next hnot =>
      refine @hstep d (outcome, none) ⟨?_, fun hsome => by cases hsome⟩ h
      dsimp only
      split_ifs with htime
      · cases hcallback : callbackOf receipt.callbacks n with
        | none => rw [invocationOf, hcallback, Option.map_none]
        | some callback => exact (hnot callback htime hcallback).elim
      · rfl

end Callbacks

/-- The data that was delivered for a fill, and its request, are those that the assessor has seen. -/
structure DeliveredAs (S : Binfmt.Sha256) (g : Guest) (fill : Fulfillment) (assessed : AssessorFill) : Prop where
  id : fill.id = assessed.request.id
  requestDigest : g.requestDigest assessed = some fill.requestDigest
  request : ∀ request : ProofRequest, request.NoCollision g.keccak256 g.domainSeparator assessed.request →
    hashTypedDataV4 g.keccak256 g.domainSeparator (request.eip712Digest g.keccak256) = fill.requestDigest → request = assessed.request
  data : fill.fulfillmentDataType = .imageIdAndJournal → ∃ imageId journal, assessed.fulfillmentData = .imageIdAndJournal imageId journal ∧
    g.evaluateRequirements assessed.request (.imageIdAndJournal imageId journal) = some fill.claimDigest ∧
      fill.claimDigest = okClaimDigest S imageId journal ∧ ∀ data : CalldataSlice, data.bytes = fill.fulfillmentData → Decodes data imageId journal

/-- The callback is that of the request, with the data that was assessed, and there is none otherwise. -/
structure CalledBackAs (fill : Fulfillment) (assessed : AssessorFill) (entry : Outcome × Option Invocation) : Prop where
  called : entry.1.inTime = true → assessed.request.requirements.callback.addr ≠ 0 → ∃ imageId journal,
    assessed.fulfillmentData = .imageIdAndJournal imageId journal ∧ entry.2 = some ⟨assessed.request.requirements.callback.addr,
      assessed.request.requirements.callback.gasLimit, imageId, journal, fill.sealData⟩
  silent : entry.1.inTime = false ∨ assessed.request.requirements.callback.addr = 0 → entry.2 = none

def Fulfillment.hashedData (f : Fulfillment) : Bytes := f.fulfillmentDataType.code :: f.fulfillmentData

def FulfillmentData.hashedData (d : FulfillmentData) : Bytes := d.typeAndData.1.code :: d.typeAndData.2

def hashedDelivery (g : Guest) (fills : List Fulfillment) (input : AssessorInput) : Set Bytes :=
  (hashedBatch g.keccak256 (batchCommitments g.keccak256 fills) ∪ hashedBatch g.keccak256 (g.commitments input)) ∪
    ({b | ∃ f ∈ fills, b = f.hashedData} ∪ {b | ∃ a ∈ input.fills, b = a.fulfillmentData.hashedData})

section Delivered

variable {g : Guest} {input : AssessorInput} {journal : AssessorJournal}

theorem callbackOf_main (h : g.main input = some journal) {i : ℕ} {assessed : AssessorFill} (hget : input.fills[i]? = some assessed) :
    callbackOf journal.callbacks i = if assessed.request.requirements.callback.addr = 0 then none else
      some ⟨BitVec.ofNat 16 i, assessed.request.requirements.callback.addr, assessed.request.requirements.callback.gasLimit⟩ := by
  obtain ⟨hlimit, hcallbacks, -, -⟩ := Guest.main_names h
  obtain ⟨hi, rfl⟩ := List.getElem?_eq_some_iff.mp hget
  have hindex : (BitVec.ofNat 16 i).toNat = i := by rw [toNat_ofNat, Nat.mod_eq_of_lt (by omega)]
  cases hfind : callbackOf journal.callbacks i with
  | none =>
    rw [callbackOf, find?_eq_none] at hfind
    split_ifs with haddr
    · rfl
    · refine absurd ?_ (hfind ⟨BitVec.ofNat 16 i, input.fills[i].request.requirements.callback.addr,
        input.fills[i].request.requirements.callback.gasLimit⟩ ?_)
      · simpa using hindex
      · rw [mem_reverse, hcallbacks, mem_flatten]
        exact ⟨_, mem_mapIdx.mpr ⟨i, hi, rfl⟩, by rw [Guest.callbackEntry, if_neg haddr]; exact mem_singleton.mpr rfl⟩
  | some callback =>
    rw [callbackOf] at hfind
    have hat : callback.index.toNat = i := by simpa using find?_some hfind
    obtain ⟨fill, hfill, haddr, hgas, hne⟩ := Guest.main_callback h (mem_reverse.mp (mem_of_find?_eq_some hfind))
    rw [hat, hget] at hfill
    cases hfill
    have hbits : callback.index = BitVec.ofNat 16 i := eq_of_toNat_eq (hat.trans hindex.symm)
    rw [if_neg (haddr ▸ hne), ← hbits, ← haddr, ← hgas]

theorem FulfillmentDataType.code_injective : Function.Injective FulfillmentDataType.code := by
  intro a b h
  cases a <;> cases b <;> first | rfl | simp [FulfillmentDataType.code] at h

theorem delivered_data {fills : List Fulfillment} (hinj : Set.InjOn g.keccak256 (hashedDelivery g fills input)) {fill : Fulfillment}
    (hfill : fill ∈ fills) {assessed : AssessorFill} (hassessed : assessed ∈ input.fills)
    (h : fill.fulfillmentDataDigest g.keccak256 = assessed.fulfillmentData.digest g.keccak256) :
    (fill.fulfillmentDataType, fill.fulfillmentData) = assessed.fulfillmentData.typeAndData := by
  have hbytes : fill.hashedData = assessed.fulfillmentData.hashedData :=
    hinj (.inr (.inl ⟨fill, hfill, rfl⟩)) (.inr (.inr ⟨assessed, hassessed, rfl⟩)) h
  obtain ⟨hcode, hdata⟩ := List.cons.inj hbytes
  exact Prod.ext (FulfillmentDataType.code_injective hcode) hdata

end Delivered

theorem verifyDelivery_ok {cfg : Config} {x : External} {fills : List Fulfillment} {receipt : AssessorReceipt} {s : State}
    (h : verifyDelivery cfg x fills receipt s = .ok ()) : ∃ root, batchRoot cfg.keccak256 fills = .ok root ∧
      ∃ assessorId, (assessorId = cfg.assessorId ∨ assessorId = cfg.deprecatedAssessorId) ∧
        x.verify receipt.sealData assessorId ⟨receipt.callbacks, receipt.selectors, root, receipt.prover⟩ = true := by
  simp only [verifyDelivery, bind_ok_iff] at h
  obtain ⟨_, -, _, -, _, -, root, hroot, h⟩ := h
  refine ⟨root, hroot, ?_⟩
  split_ifs at h with hverify
  · exact ⟨_, .inl rfl, hverify⟩
  · obtain ⟨_, -, h⟩ := bind_ok_iff.mp h
    exact ⟨_, .inr rfl, require_ok_iff.mp h⟩

/-- In an accepted batch every fill is delivered as it was assessed, and called back as its request says; and
both decoders give back what was encoded. The journal that is verified comes from the guest's run on an input. -/
theorem delivered_data_assessed (S : Binfmt.Sha256) (cfg : Config) (separator : Bytes32) (validRequest : ProofRequest → Bool)
    (recover : Bytes32 → Bytes → Option Address) (x : External) (fills : Fills) (receipt : AssessorReceipt) (s : State) (input : AssessorInput)
    (hdelivery : verifyDelivery cfg x fills.calldata receipt s = .ok ())
    (hsound : ∀ assessorId root, assessorId = cfg.assessorId ∨ assessorId = cfg.deprecatedAssessorId →
      batchRoot cfg.keccak256 fills.calldata = .ok root →
        x.verify receipt.sealData assessorId ⟨receipt.callbacks, receipt.selectors, root, receipt.prover⟩ = true →
          (assessorGuest S cfg.keccak256 separator validRequest recover).main input =
            some ⟨receipt.callbacks, receipt.selectors, root, receipt.prover⟩)
    (hinj : Set.InjOn cfg.keccak256 (hashedDelivery (assessorGuest S cfg.keccak256 separator validRequest recover) fills.calldata input)) :
    fills.calldata.length = input.fills.length ∧
      (∀ (i : ℕ) (fill : Fulfillment) (assessed : AssessorFill), fills.calldata[i]? = some fill → input.fills[i]? = some assessed →
        DeliveredAs S (assessorGuest S cfg.keccak256 separator validRequest recover) fill assessed) ∧
      (∀ locate : ℕ → CalldataSlice, (∀ (i : ℕ) (fill : Fulfillment), fills.calldata[i]? = some fill → (locate i).bytes = fill.fulfillmentData) →
        ∀ c : Chain, (fills.execCallbacks cfg receipt locate 0 c).map Prod.fst = fills.exec cfg receipt 0 c ∧
        ∀ (c' : Chain) (entries : List (Outcome × Option Invocation)), fills.execCallbacks cfg receipt locate 0 c = .ok (c', entries) → entries.length = fills.calldata.length ∧
          ∀ (i : ℕ) (fill : Fulfillment) (assessed : AssessorFill) (entry : Outcome × Option Invocation), fills.calldata[i]? = some fill →
            input.fills[i]? = some assessed → entries[i]? = some entry → CalledBackAs fill assessed entry) ∧
      (∀ (d : FulfillmentData) (data : Slice), data.bytes = d.typeAndData.2 → FulfillmentData.decodeWithType d.typeAndData.1 data = .ok d) ∧
      ∀ (imageId : Bytes32) (journal : Bytes) (data : CalldataSlice),
        data.bytes = (FulfillmentData.imageIdAndJournal imageId journal).typeAndData.2 → Decodes data imageId journal := by
  obtain ⟨root, hroot, assessorId, hid, hverify⟩ := verifyDelivery_ok hdelivery
  have hguest := hsound assessorId root hid hroot hverify
  obtain ⟨hlength, hcommitment⟩ := delivered_commitment (g := assessorGuest S cfg.keccak256 separator validRequest recover) hroot hguest rfl
    (hinj.mono Set.subset_union_left)
  have hdelivered (i : ℕ) (fill : Fulfillment) (assessed : AssessorFill) (hfill : fills.calldata[i]? = some fill)
      (hassessed : input.fills[i]? = some assessed) :
      DeliveredAs S (assessorGuest S cfg.keccak256 separator validRequest recover) fill assessed ∧
        (fill.fulfillmentDataType, fill.fulfillmentData) = assessed.fulfillmentData.typeAndData := by
    obtain ⟨-, hfillId, hdigest, hclaim, hdata⟩ := Guest.commitment_some (hcommitment i fill assessed hfill hassessed)
    have htypeAndData := delivered_data hinj (List.mem_of_getElem? hfill) (List.mem_of_getElem? hassessed) hdata
    refine ⟨⟨hfillId, hdigest, fun request hcollision heq => ?_, fun htype => ?_⟩, htypeAndData⟩
    · exact ProofRequest.eq_of_digest_eq hcollision (heq.trans (Guest.requestDigest_some hdigest))
    · cases hfulfillmentData : assessed.fulfillmentData with
      | none =>
        rw [hfulfillmentData] at htypeAndData
        exact absurd (htype.symm.trans (congrArg Prod.fst htypeAndData)) (by decide)
      | imageIdAndJournal imageId journal =>
        rw [hfulfillmentData] at htypeAndData hclaim
        refine ⟨imageId, journal, rfl, hclaim, evaluateRequirements_imageIdAndJournal hclaim, fun data hbytes => ?_⟩
        exact decodes_of_bytes_eq (hbytes.trans (congrArg Prod.snd htypeAndData))
  refine ⟨hlength, fun i fill assessed hfill hassessed => (hdelivered i fill assessed hfill hassessed).1, fun locate hlocate c => ⟨fills.execCallbacks_exec 0 c, fun c' entries hexec => ?_⟩,
    fun d data => decodeWithType_typeAndData d, fun imageId journal data => decodes_of_bytes_eq⟩
  have hentries := Fills.execCallbacks_ok fills 0 hexec
  rw [List.forall₂_iff_get] at hentries
  obtain ⟨hentries, hall⟩ := hentries
  rw [List.length_mapIdx] at hentries
  refine ⟨hentries.symm, fun i fill assessed entry hfill hassessed hentry => ?_⟩
  obtain ⟨hi, rfl⟩ := List.getElem?_eq_some_iff.mp hentry
  obtain ⟨hi', rfl⟩ := List.getElem?_eq_some_iff.mp hfill
  obtain ⟨hcalled, htype⟩ := hall i (by simpa using hi') hi
  simp only [List.get_eq_getElem, List.getElem_mapIdx, Nat.zero_add] at hcalled htype
  obtain ⟨hdeliveredAs, htypeAndData⟩ := hdelivered i _ assessed hfill hassessed
  have hcallback := callbackOf_main hguest hassessed
  have hinvocation : invocationOf receipt locate i fills.calldata[i] = (if assessed.request.requirements.callback.addr = 0 then none else
      some ⟨assessed.request.requirements.callback.addr, assessed.request.requirements.callback.gasLimit,
        (decodePackedImageIdAndJournal (locate i)).imageId, (decodePackedImageIdAndJournal (locate i)).journal (locate i).calldata,
          fills.calldata[i].sealData⟩) := by
    unfold invocationOf
    rw [hcallback]
    split_ifs <;> rfl
  rw [hinvocation] at hcalled
  refine ⟨fun htime haddr => ?_, fun hsilent => ?_⟩
  · rw [htime, if_pos rfl, if_neg haddr] at hcalled
    obtain ⟨imageId, journal, hdata, -, -, hdecodes⟩ := hdeliveredAs.data (htype (by rw [hcalled]; rfl))
    obtain ⟨himage, hjournal, -⟩ := hdecodes (locate i) (hlocate i _ hfill)
    exact ⟨imageId, journal, hdata, by rw [hcalled, himage, hjournal]⟩
  · obtain htime | haddr := hsilent
    · rw [hcalled, htime, if_neg Bool.false_ne_true]
    · rw [hcalled, if_pos haddr, ite_self]

section Sample

/-- A digest that tells strings apart as the sample hash does. -/
def sampleSha : Binfmt.Sha256 := fun bytes => toDigest (sampleHash bytes)

def callbackConfig : Config := { sampleConfig with keccak256 := sampleHash }

def callbackGuest : Guest := assessorGuest sampleSha sampleHash 0 (fun _ => true) fun _ _ => some 1

/-- A request for any journal of an image, which is called back at an account. -/
def callbackRequest (id : RequestId) (addr : Address) (imageId : Bytes32) : ProofRequest :=
  { sampleRequest id with requirements := ⟨⟨addr, 100⟩, ⟨.prefixMatch, wordBytes imageId⟩, 0⟩ }

def callbackFill (request : ProofRequest) (imageId : Bytes32) (journal : Bytes) : Fulfillment where
  id := request.id
  requestDigest := hashTypedDataV4 sampleHash 0 (request.eip712Digest sampleHash)
  claimDigest := okClaimDigest sampleSha imageId journal
  fulfillmentDataType := .imageIdAndJournal
  fulfillmentData := abiEncodeImageIdAndJournal imageId journal
  sealData := [9]

/-- One request that is called back at account 7, and one that is not. -/
def callbackRequests : List ProofRequest := [callbackRequest sampleId 7 0x500, callbackRequest sampleNext 0 0x600]

def callbackInput : AssessorInput :=
  ⟨[⟨callbackRequest sampleId 7 0x500, [], .imageIdAndJournal 0x500 [1, 2, 3]⟩,
    ⟨callbackRequest sampleNext 0 0x600, [], .imageIdAndJournal 0x600 [4]⟩], 2⟩

def callbackFirst : Fulfillment := callbackFill (callbackRequest sampleId 7 0x500) 0x500 [1, 2, 3]

def callbackSecond : Fulfillment := callbackFill (callbackRequest sampleNext 0 0x600) 0x600 [4]

def callbackFills : Fills := .cons callbackFirst (.cons (.deposit 7 1) .nil) true true (.cons callbackSecond .nil true true .nil)

def callbackReceipt : AssessorReceipt := ⟨[], [⟨0, 7, 100⟩], [], 2⟩

/-- The chain in which both requests are priced, and their client can pay. -/
def callbackPriced : Option Chain := do
  let begun ← (Chain.genesis.effect callbackConfig (.begin 100)).toOption
  let deposited ← (begun.effect callbackConfig (.deposit 1 10)).toOption
  (priceRequests callbackConfig acceptAll callbackRequests [[], []] deposited).toOption

/-- The data of the call, with a selector and the data of both fills. -/
def callbackCalldata : Bytes := [0, 1, 2, 3] ++ (callbackFills.calldata.map Fulfillment.fulfillmentData).flatten

theorem callbackCalldata_length : callbackCalldata.length = 324 := by with_unfolding_all (set_option maxRecDepth 100000 in decide)

/-- Where the data of a fill lies. -/
def callbackLocate (i : ℕ) : CalldataSlice where
  calldata := callbackCalldata
  offset := if i = 0 then 4 else 164
  length := 160
  inside := by
    rw [callbackCalldata_length]
    split_ifs <;> decide
  bounded := by
    rw [callbackCalldata_length]
    norm_num

theorem callbackFills_run : ∃ c c' first second, callbackPriced = some c ∧
    callbackFills.execCallbacks callbackConfig callbackReceipt callbackLocate 0 c = .ok (c', [first, second]) ∧
      first.1.inTime = true ∧ second.1.inTime = true := by
  have hrun : (callbackPriced.bind fun c => (callbackFills.execCallbacks callbackConfig callbackReceipt callbackLocate 0 c).toOption.map
      fun r => r.2.map fun entry => entry.1.inTime) = some [true, true] := by with_unfolding_all (set_option maxRecDepth 100000 in decide)
  obtain ⟨c, hpriced, hrun⟩ := Option.bind_eq_some_iff.mp hrun
  obtain ⟨r, hexec, htimes⟩ := Option.map_eq_some_iff.mp hrun
  obtain ⟨first, rest, hentries, hfirst, hrest⟩ := map_eq_cons_iff.mp htimes
  obtain ⟨second, last, rfl, hsecond, hlast⟩ := map_eq_cons_iff.mp hrest
  rw [map_eq_nil_iff.mp hlast] at hentries
  refine ⟨c, r.1, first, second, hpriced, ?_, hfirst, hsecond⟩
  rw [← hentries]
  cases h : callbackFills.execCallbacks callbackConfig callbackReceipt callbackLocate 0 c with
  | error e =>
    rw [h] at hexec
    cases hexec
  | ok r' =>
    rw [h] at hexec
    exact congrArg _ (Option.some.inj hexec)

theorem callbackFills_data {i : ℕ} {fill : Fulfillment} (h : callbackFills.calldata[i]? = some fill) :
    (callbackLocate i).bytes = fill.fulfillmentData := by
  have hall : ∀ i < 2, ((callbackFills.calldata[i]?).map Fulfillment.fulfillmentData) = some (callbackLocate i).bytes := by
    with_unfolding_all (set_option maxRecDepth 100000 in decide)
  obtain ⟨hlt, -⟩ := List.getElem?_eq_some_iff.mp h
  have heq := hall i hlt
  rw [h] at heq
  exact (Option.some.inj heq).symm

/-- The strings hashed for two fills: two leaves, a node, and the data. -/
def callbackStrings : List Bytes :=
  let first := callbackFirst.commitment sampleHash 0
  let second := callbackSecond.commitment sampleHash 1
  [first.encode sampleHash, second.encode sampleHash, nodeBytes (first.eip712Digest sampleHash, second.eip712Digest sampleHash)] ++
    callbackFills.calldata.map Fulfillment.hashedData

theorem mem_callbackStrings {b : Bytes} (h : b ∈ hashedDelivery callbackGuest callbackFills.calldata callbackInput) : b ∈ callbackStrings := by
  have hcommitments : callbackGuest.commitments callbackInput = batchCommitments sampleHash callbackFills.calldata := by
    with_unfolding_all (set_option maxRecDepth 100000 in decide)
  have hdata : callbackFills.calldata.map Fulfillment.hashedData = callbackInput.fills.map fun a => a.fulfillmentData.hashedData := rfl
  obtain (h | h) | ⟨f, hf, rfl⟩ | ⟨a, ha, rfl⟩ := h
  · exact mem_append_left _ (mem_hashedBatch_pair h)
  · rw [hcommitments] at h
    exact mem_append_left _ (mem_hashedBatch_pair h)
  · exact mem_append_right _ (mem_map_of_mem hf)
  · rw [callbackStrings, hdata]
    exact mem_append_right _ (mem_map_of_mem ha)

/-- Two fills are delivered, and the first alone is called back, with the data that was assessed. -/
theorem delivered_data_assessed_callback : ∃ c c' first second, callbackPriced = some c ∧
    callbackFills.exec callbackConfig callbackReceipt 0 c = .ok c' ∧
    callbackFills.execCallbacks callbackConfig callbackReceipt callbackLocate 0 c = .ok (c', [first, second]) ∧
      first.2 = some ⟨7, 100, 0x500, [1, 2, 3], [9]⟩ ∧ second.2 = none := by
  obtain ⟨c, c', first, second, hpriced, hexec, hfirst, hsecond⟩ := callbackFills_run
  have hroot : batchRoot sampleHash callbackFills.calldata = .ok 12582976 := by
    with_unfolding_all (set_option maxRecDepth 100000 in decide)
  have hguest : callbackGuest.main callbackInput = some ⟨[⟨0, 7, 100⟩], [], 12582976, 2⟩ := by
    with_unfolding_all (set_option maxRecDepth 100000 in decide)
  have hverified : verifyDelivery callbackConfig acceptAll callbackFills.calldata callbackReceipt c.state = .ok () := by with_unfolding_all rfl
  have hinj : Set.InjOn sampleHash (hashedDelivery callbackGuest callbackFills.calldata callbackInput) := by
    refine fun a ha b hb => inj_on_of_nodup_map ?_ (mem_callbackStrings ha) (mem_callbackStrings hb)
    with_unfolding_all (set_option maxRecDepth 100000 in decide)
  obtain ⟨-, -, hcalls, -, -⟩ := delivered_data_assessed sampleSha callbackConfig 0 (fun _ => true) (fun _ _ => some 1) acceptAll
    callbackFills callbackReceipt c.state callbackInput hverified (fun assessorId root _ h _ => by
      cases hroot.symm.trans h
      exact hguest) hinj
  obtain ⟨hloop, hentries⟩ := hcalls callbackLocate (fun i fill h => callbackFills_data h) c
  obtain ⟨-, hentries⟩ := hentries c' [first, second] hexec
  rw [hexec] at hloop
  obtain ⟨imageId, journal, hdata, hcalled⟩ := (hentries 0 _ _ first rfl rfl rfl).called hfirst (by decide)
  cases hdata
  exact ⟨c, c', first, second, hpriced, hloop.symm, hexec, hcalled, (hentries 1 _ _ second rfl rfl rfl).silent (.inr rfl)⟩

end Sample

end VerifiableCompute.Market
