import VerifiableCompute.Lib.Bytes
import VerifiableCompute.Market.Types

/-! Proof requests: the offer with its reverse Dutch auction, and the typed-data
digest that identifies a signed request. The hash function is a parameter, so
every result holds for whichever function the machine provides. -/

namespace VerifiableCompute.Market

open Lib BitVec

structure Offer where
  minPrice : U256
  maxPrice : U256
  rampUpStart : U64
  rampUpPeriod : U32
  lockTimeout : U32
  timeout : U32
  lockCollateral : U256
  deriving DecidableEq

namespace Offer

def deadline (o : Offer) : Except Revert U64 :=
  checkedAdd .arithmeticPanic o.rampUpStart (o.timeout.setWidth 64)

def lockDeadline (o : Offer) : Except Revert U64 :=
  checkedAdd .arithmeticPanic o.rampUpStart (o.lockTimeout.setWidth 64)

/-- The lock deadline and the deadline of a consistent offer. -/
def validate (o : Offer) : Except Revert (U64 × U64) := do
  require (o.minPrice ≤ o.maxPrice) .invalidRequest
  require (o.rampUpPeriod ≤ o.lockTimeout) .invalidRequest
  require (o.lockTimeout ≤ o.timeout) .invalidRequest
  let lockDeadline1 ← o.lockDeadline
  let deadline1 ← o.deadline
  let range ← checkedSub .arithmeticPanic deadline1 lockDeadline1
  require (range.toNat < 2 ^ 24) .invalidRequest
  return (lockDeadline1, deadline1)

/-- The price rises linearly over the ramp-up period, stays at its maximum until
the lock deadline and is zero afterwards. -/
def priceAt (o : Offer) (timestamp : U64) : Except Revert U256 :=
  if timestamp ≤ o.rampUpStart then .ok o.minPrice
  else do
    let lockDeadline1 ← o.lockDeadline
    if lockDeadline1 < timestamp then return 0
    let rampUpEnd ← checkedAdd .arithmeticPanic o.rampUpStart (o.rampUpPeriod.setWidth 64)
    if timestamp ≤ rampUpEnd then
      let rise ← checkedSub .arithmeticPanic o.maxPrice o.minPrice
      let run : U256 := o.rampUpPeriod.setWidth 256
      let delta ← checkedSub .arithmeticPanic (timestamp.setWidth 256) (o.rampUpStart.setWidth 256)
      let product ← checkedMul .arithmeticPanic delta rise
      require (run ≠ 0) .arithmeticPanic
      checkedAdd .arithmeticPanic o.minPrice (product / run)
    else return o.maxPrice

end Offer

structure Callback where
  addr : Address
  gasLimit : U96
  deriving DecidableEq

inductive PredicateType where
  | digestMatch | prefixMatch | claimDigestMatch
  deriving DecidableEq

structure Predicate where
  predicateType : PredicateType
  data : Bytes
  deriving DecidableEq

structure Requirements where
  callback : Callback
  predicate : Predicate
  selector : Bytes4
  deriving DecidableEq

inductive InputType where
  | inline | url
  deriving DecidableEq

structure Input where
  inputType : InputType
  data : Bytes
  deriving DecidableEq

structure ProofRequest where
  id : RequestId
  requirements : Requirements
  imageUrl : Bytes
  input : Input
  offer : Offer
  deriving DecidableEq

/-- The lock deadline and the deadline of the request. -/
def ProofRequest.validate (r : ProofRequest) : Except Revert (U64 × U64) := r.offer.validate

def callbackType : String := "Callback(address addr,uint96 gasLimit)"

def inputTypeString : String := "Input(uint8 inputType,bytes data)"

def offerType : String :=
  "Offer(uint256 minPrice,uint256 maxPrice,uint64 rampUpStart,uint32 rampUpPeriod," ++
    "uint32 lockTimeout,uint32 timeout,uint256 lockCollateral)"

def predicateTypeString : String := "Predicate(uint8 predicateType,bytes data)"

def requirementsType : String :=
  "Requirements(Callback callback,Predicate predicate,bytes4 selector)"

def proofRequestType : String :=
  "ProofRequest(uint256 id,Requirements requirements,string imageUrl,Input input,Offer offer)"

def lockRequestType : String := "LockRequest(ProofRequest request)"

def PredicateType.code : PredicateType → U256
  | .digestMatch => 0
  | .prefixMatch => 1
  | .claimDigestMatch => 2

def InputType.code : InputType → U256
  | .inline => 0
  | .url => 1

section Digest

variable (keccak256 : Bytes → Bytes32)

/-! Each struct is hashed as the words of its type hash and its members. -/

def Callback.encode (c : Callback) : Bytes :=
  encodeWords [keccak256 (asciiBytes callbackType), c.addr.setWidth 256, c.gasLimit.setWidth 256]

def Callback.eip712Digest (c : Callback) : Bytes32 := keccak256 (c.encode keccak256)

def Predicate.encode (p : Predicate) : Bytes :=
  encodeWords [keccak256 (asciiBytes predicateTypeString), p.predicateType.code, keccak256 p.data]

def Predicate.eip712Digest (p : Predicate) : Bytes32 := keccak256 (p.encode keccak256)

/-- A selector is left aligned in its word. -/
def Requirements.encode (r : Requirements) : Bytes :=
  encodeWords [keccak256 (asciiBytes (requirementsType ++ callbackType ++ predicateTypeString)),
    r.callback.eip712Digest keccak256, r.predicate.eip712Digest keccak256, r.selector.setWidth 256 <<< 224]

def Requirements.eip712Digest (r : Requirements) : Bytes32 := keccak256 (r.encode keccak256)

def Input.encode (i : Input) : Bytes :=
  encodeWords [keccak256 (asciiBytes inputTypeString), i.inputType.code, keccak256 i.data]

def Input.eip712Digest (i : Input) : Bytes32 := keccak256 (i.encode keccak256)

def Offer.encode (o : Offer) : Bytes :=
  encodeWords [keccak256 (asciiBytes offerType), o.minPrice, o.maxPrice,
    o.rampUpStart.setWidth 256, o.rampUpPeriod.setWidth 256, o.lockTimeout.setWidth 256,
    o.timeout.setWidth 256, o.lockCollateral]

def Offer.eip712Digest (o : Offer) : Bytes32 := keccak256 (o.encode keccak256)

def ProofRequest.encode (r : ProofRequest) : Bytes :=
  encodeWords [keccak256 (asciiBytes (proofRequestType ++ callbackType ++ inputTypeString ++ offerType ++
      predicateTypeString ++ requirementsType)),
    r.id, r.requirements.eip712Digest keccak256, keccak256 r.imageUrl,
    r.input.eip712Digest keccak256, r.offer.eip712Digest keccak256]

def ProofRequest.eip712Digest (r : ProofRequest) : Bytes32 := keccak256 (r.encode keccak256)

/-- The digest a prover signs to lock a request, from the request's digest. -/
def lockRequestDigest (proofRequestEip712Digest : Bytes32) : Bytes32 :=
  keccak256 (encodeWords
    [keccak256 (asciiBytes (lockRequestType ++ callbackType ++ inputTypeString ++ offerType ++
        predicateTypeString ++ proofRequestType ++ requirementsType)),
      proofRequestEip712Digest])

def encodeTypedData (domainSeparator structHash : Bytes32) : Bytes :=
  0x19 :: 0x01 :: encodeWords [domainSeparator, structHash]

/-- A struct digest bound to the domain of one deployed contract. -/
def hashTypedDataV4 (domainSeparator structHash : Bytes32) : Bytes32 :=
  keccak256 (encodeTypedData domainSeparator structHash)

end Digest

section Binding

variable (keccak256 : Bytes → Bytes32)

/-- The strings hashed for the digest of a request, apart from the type strings,
which are the same for all requests. -/
def ProofRequest.hashed (domainSeparator : Bytes32) (r : ProofRequest) : List Bytes :=
  [encodeTypedData domainSeparator (r.eip712Digest keccak256), r.encode keccak256,
    r.requirements.encode keccak256, r.requirements.callback.encode keccak256,
    r.requirements.predicate.encode keccak256, r.requirements.predicate.data, r.imageUrl,
    r.input.encode keccak256, r.input.data, r.offer.encode keccak256]

theorem setWidth_injective {v w : ℕ} (h : v ≤ w) : Function.Injective (setWidth w : BitVec v → BitVec w) := by
  intro x y hxy
  have hback := congrArg (setWidth v) hxy
  simpa [setWidth_setWidth_of_le, h] using hback

theorem PredicateType.code_injective : Function.Injective PredicateType.code := by
  intro a b h
  cases a <;> cases b <;> first | rfl | simp [PredicateType.code] at h

theorem InputType.code_injective : Function.Injective InputType.code := by
  intro a b h
  cases a <;> cases b <;> first | rfl | simp [InputType.code] at h

theorem Callback.encode_injective : Function.Injective (Callback.encode keccak256) := by
  rintro ⟨a, g⟩ ⟨a', g'⟩ h
  have hw := encodeWords_injective h
  simp only [List.cons.injEq, and_true, true_and] at hw
  rw [setWidth_injective (by norm_num) hw.1, setWidth_injective (by norm_num) hw.2]

theorem Offer.encode_injective : Function.Injective (Offer.encode keccak256) := by
  rintro ⟨o1, o2, o3, o4, o5, o6, o7⟩ ⟨o1', o2', o3', o4', o5', o6', o7'⟩ h
  have hw := encodeWords_injective h
  simp only [List.cons.injEq, and_true, true_and] at hw
  obtain ⟨rfl, rfl, h3, h4, h5, h6, rfl⟩ := hw
  rw [setWidth_injective (by norm_num) h3, setWidth_injective (by norm_num) h4,
    setWidth_injective (by norm_num) h5, setWidth_injective (by norm_num) h6]

theorem selector_injective {a b : Bytes4}
    (h : (a.setWidth 256 : U256) <<< 224 = (b.setWidth 256 : U256) <<< 224) : a = b := by
  have hback := congrArg (fun x : U256 => (x >>> 224).setWidth 32) h
  have hshift (c : Bytes4) : (((c.setWidth 256 : U256) <<< 224) >>> 224).setWidth 32 = c := by
    apply eq_of_toNat_eq
    have hlt := c.isLt
    simp only [toNat_setWidth, toNat_ushiftRight, toNat_shiftLeft, Nat.shiftLeft_eq,
      Nat.shiftRight_eq_div_pow]
    omega
  simpa [hshift] using hback

/-- No hashed string of one request collides with the string in its place of the other. -/
def ProofRequest.NoCollision (domainSeparator : Bytes32) (r r' : ProofRequest) : Prop :=
  List.Forall₂ (fun b b' => keccak256 b = keccak256 b' → b = b')
    (r.hashed keccak256 domainSeparator) (r'.hashed keccak256 domainSeparator)

variable {keccak256} {domainSeparator : Bytes32}

theorem ProofRequest.eq_of_digest_eq {r r' : ProofRequest} (hc : r.NoCollision keccak256 domainSeparator r')
    (h : hashTypedDataV4 keccak256 domainSeparator (r.eip712Digest keccak256) =
      hashTypedDataV4 keccak256 domainSeparator (r'.eip712Digest keccak256)) : r = r' := by
  simp only [NoCollision, ProofRequest.hashed, List.forall₂_cons] at hc
  obtain ⟨c0, c1, c2, c3, c4, c5, c6, c7, c8, c9, -⟩ := hc
  obtain ⟨id, ⟨callback, ⟨predicateType, predicateData⟩, selector⟩, imageUrl, ⟨inputType, inputData⟩, offer⟩ := r
  obtain ⟨id', ⟨callback', ⟨predicateType', predicateData'⟩, selector'⟩, imageUrl', ⟨inputType', inputData'⟩,
    offer'⟩ := r'
  have hdata := c0 h
  simp only [encodeTypedData, List.cons.injEq, true_and] at hdata
  have hstruct := encodeWords_injective hdata
  simp only [List.cons.injEq, and_true, true_and] at hstruct
  have hrequest := encodeWords_injective (c1 hstruct)
  simp only [List.cons.injEq, and_true, true_and] at hrequest
  obtain ⟨rfl, hreq, himage, hinput, hoffer⟩ := hrequest
  have hrequirements := encodeWords_injective (c2 hreq)
  simp only [List.cons.injEq, and_true, true_and] at hrequirements
  obtain ⟨hcallback, hpredicate, hselector⟩ := hrequirements
  have hpred := encodeWords_injective (c4 hpredicate)
  have hinp := encodeWords_injective (c7 hinput)
  simp only [List.cons.injEq, and_true, true_and] at hpred hinp
  obtain rfl : callback = callback' := Callback.encode_injective keccak256 (c3 hcallback)
  obtain rfl : predicateType = predicateType' := PredicateType.code_injective hpred.1
  obtain rfl : predicateData = predicateData' := c5 hpred.2
  obtain rfl : selector = selector' := selector_injective hselector
  obtain rfl : imageUrl = imageUrl' := c6 himage
  obtain rfl : inputType = inputType' := InputType.code_injective hinp.1
  obtain rfl : inputData = inputData' := c8 hinp.2
  obtain rfl : offer = offer' := Offer.encode_injective keccak256 (c9 hoffer)
  rfl

end Binding

theorem Offer.validate_ok {o : Offer} {lockDeadline deadline : U64} (h : o.validate = .ok (lockDeadline, deadline)) :
    lockDeadline ≤ deadline ∧ (deadline - lockDeadline).toNat < 2 ^ 24 := by
  simp only [validate, bind_ok_iff, require_ok_iff] at h
  obtain ⟨_, -, _, -, _, -, l, -, d, -, range, hrange, _, hlt, hres⟩ := h
  cases hres
  unfold checkedSub at hrange
  split_ifs at hrange with hle
  cases hrange
  exact ⟨hle, hlt⟩

end VerifiableCompute.Market
