import VerifiableCompute.Lib.Calldata
import VerifiableCompute.Claim.Seal
import VerifiableCompute.Market.Requirements

/-! Predicates as the contract evaluates them, next to the evaluation by the assessor. The contract hashes the
journal as it encodes it for a call, which the assessor does not. -/

namespace VerifiableCompute.Market

open Lib Claim Guest.Predicate List Option

/-- A string as the only argument of a call: its offset, its length, and the string padded to whole words. -/
def abiEncodeBytes (journal : Bytes) : Bytes :=
  encodeWords [0x20, BitVec.ofNat 256 journal.length] ++ journal ++ List.replicate ((32 - journal.length % 32) % 32) 0

/-- The first word of a string. -/
def bytes32 (data : Bytes) : Bytes32 := readWord data 0

/-- The hash functions of the machine, and the digest of a claim that an image ended normally with a journal. -/
structure PredicateHashes where
  sha256 : Bytes → Bytes32
  keccak256 : Bytes → Bytes32
  okDigest : Bytes32 → Bytes32 → Bytes32

namespace PredicateLibrary

/-- The first bytes of the journal are copied to a new string, which is compared with the other by its hash. -/
def startsWith (keccak256 : Bytes → Bytes32) (m : ScratchMemory) (journalPtr journalLength start startLength : ℕ) : Bool :=
  if journalLength < startLength then false
  else if startLength = 0 then true
  else
    let slice := m.alloc (List.replicate startLength 0)
    let copied := slice.1.copyWords (slice.2 + 32) (journalPtr + 32) startLength
    keccak256 (copied.load (slice.2 + 32) startLength) = keccak256 (copied.load (start + 32) startLength)

/-- The evaluation, in a memory that the caller has left. -/
def eval (h : PredicateHashes) (m : ScratchMemory) (predicate : Predicate) (imageId : Bytes32) (journal : Bytes) : Except String Bool :=
  match predicate.predicateType with
  | .digestMatch => do
    require (predicate.data.length = 64) "Invalid DigestMatch data length"
    let dataJournal := predicate.data.drop 32
    return bytes32 dataJournal = h.sha256 (abiEncodeBytes journal) ∧ bytes32 predicate.data = imageId
  | .prefixMatch => do
    require (32 ≤ predicate.data.length) "Invalid PrefixMatch data length"
    let dataJournal := predicate.data.drop 32
    let journalHeld := m.alloc journal
    let dataHeld := journalHeld.1.alloc predicate.data
    let dataJournalHeld := dataHeld.1.alloc dataJournal
    return startsWith h.keccak256 dataJournalHeld.1 journalHeld.2 journal.length dataJournalHeld.2 dataJournal.length ∧
      bytes32 predicate.data = imageId
  | .claimDigestMatch => do
    require (predicate.data.length = 32) "Invalid ClaimDigestMatch data length"
    return bytes32 predicate.data = h.okDigest imageId (h.sha256 (abiEncodeBytes journal))

/-- The comparison is that of the strings, where the hash tells the compared strings from each other. -/
theorem startsWith_iff {keccak256 : Bytes → Bytes32} {m : ScratchMemory} {journalPtr start : ℕ} {journal startBytes : Bytes}
    (hjournal : m.Holds journalPtr journal) (hstart : m.Holds start startBytes)
    (hcollision : keccak256 (journal.take startBytes.length) = keccak256 startBytes → journal.take startBytes.length = startBytes) :
    startsWith keccak256 m journalPtr journal.length start startBytes.length = true ↔ startBytes <+: journal := by
  unfold startsWith
  split_ifs with hshort hempty
  · exact iff_of_false not_false fun hle => absurd hle.length_le (by omega)
  · rw [length_eq_zero_iff.mp hempty]
    exact iff_of_true rfl nil_prefix
  · have hjournal' := hjournal.alloc (replicate startBytes.length 0)
    have hstart' := hstart.alloc (replicate startBytes.length 0)
    have hbelow := hjournal.below
    have hbelow' := hstart.below
    have hptr : (m.alloc (replicate startBytes.length 0)).2 = m.free := rfl
    dsimp only
    rw [hptr, ScratchMemory.copyWords_load (by omega), ScratchMemory.copyWords_load_below (by omega) (by omega), hstart'.contents,
      ← ScratchMemory.load_take (not_lt.mp hshort), hjournal'.contents, decide_eq_true_iff, prefix_iff_eq_take]
    exact ⟨fun heq => (hcollision heq).symm, fun heq => congrArg keccak256 heq.symm⟩

end PredicateLibrary

variable {data : Bytes}

theorem wordBytes_bytes32 (h : 32 ≤ data.length) : wordBytes (bytes32 data) = data.take 32 := by
  have hread : readBytes data 0 32 = data.take 32 := by
    rw [readBytes, drop_zero, takeD_eq_take _ h]
  have hlength : (data.take 32).length = 32 := by
    rw [length_take]
    omega
  have hlt : beNat (data.take 32) < 2 ^ 256 := by
    have hbytes := beNat_lt (data.take 32)
    rwa [hlength] at hbytes
  have hback := beBytes_beNat (data.take 32)
  rw [hlength] at hback
  rw [bytes32, readWord, hread, wordBytes, BitVec.toNat_ofNat, Nat.mod_eq_of_lt hlt, hback]

theorem bytes32_eq_iff {x : Bytes32} (h : 32 ≤ data.length) : bytes32 data = x ↔ data.take 32 = wordBytes x := by
  rw [← wordBytes_bytes32 h]
  exact wordBytes_injective.eq_iff.symm

theorem wordBytes_ofDigest (d : Binfmt.Digest) : wordBytes (ofDigest d) = d.toList := by
  have hlength : d.toList.length = 32 := by simp
  have hlt : beNat d.toList < 2 ^ 256 := by
    have hbytes := beNat_lt d.toList
    rwa [hlength] at hbytes
  have hback := beBytes_beNat d.toList
  rw [hlength] at hback
  rw [ofDigest, wordBytes, BitVec.toNat_ofNat, Nat.mod_eq_of_lt hlt, hback]

theorem digestOfBytes_eq_some_iff {bytes : Bytes} {d : Binfmt.Digest} : digestOfBytes bytes = some d ↔ d.toList = bytes := by
  constructor
  · exact fun h => (digestOfBytes_some h).2
  · rintro rfl
    unfold digestOfBytes
    rw [dif_pos (by simp)]
    rfl

theorem abiEncodeBytes_ne (journal : Bytes) : abiEncodeBytes journal ≠ journal := by
  intro h
  have hlength := congrArg length h
  rw [abiEncodeBytes, length_append, length_append, encodeWords_length] at hlength
  simp only [length_cons] at hlength
  omega

section Claims

variable (S : Binfmt.Sha256)

/-- The digest of the claim that the image ended normally with a journal of this digest. -/
def okClaim (imageId journal : Binfmt.Digest) : Binfmt.Digest := digest S (ReceiptClaim.ok imageId (.pruned journal))

/-- What is hashed for the output of such a claim, and for the claim. -/
def okHashed (imageId journal : Binfmt.Digest) : List Bytes :=
  [(S (Binfmt.utf8Bytes "risc0.Output")).toList ++ [journal, .zero].flatMap (·.toList) ++ leBytes 2 2,
    (ReceiptClaim.ok imageId (.pruned journal)).hashed S]

/-- The hash tells from each other what is hashed for two claims. -/
def OkNoCollision (imageId journal imageId' journal' : Binfmt.Digest) : Prop :=
  List.Forall₂ (fun b b' => S b = S b' → b = b') (okHashed S imageId journal) (okHashed S imageId' journal')

variable {S} {imageId journal imageId' journal' : Binfmt.Digest}

theorem toList_append_inj {d d' : Binfmt.Digest} {l l' : Bytes} (h : d.toList ++ l = d'.toList ++ l') : d = d' ∧ l = l' := by
  obtain ⟨hd, hl⟩ := append_inj h (by simp)
  exact ⟨Vector.toList_inj.mp hd, hl⟩

theorem okClaim_inj (hno : OkNoCollision S imageId journal imageId' journal') (h : okClaim S imageId journal = okClaim S imageId' journal') :
    imageId = imageId' ∧ journal = journal' := by
  simp only [OkNoCollision, okHashed, forall₂_cons] at hno
  obtain ⟨houtput, hclaim, -⟩ := hno
  have hbytes := hclaim h
  simp only [ReceiptClaim.hashed, append_assoc] at hbytes
  have hfields := (toList_append_inj hbytes).2
  simp only [ReceiptClaim.ok, flatMap_cons, append_assoc] at hfields
  obtain ⟨-, hfields⟩ := toList_append_inj hfields
  obtain ⟨himage, hfields⟩ := toList_append_inj hfields
  obtain ⟨-, hfields⟩ := toList_append_inj hfields
  obtain ⟨houtputDigest, -⟩ := toList_append_inj hfields
  have houtputBytes := houtput (by
    simpa [digest, Binfmt.taggedStruct, flatMap_cons] using houtputDigest)
  simp only [append_assoc] at houtputBytes
  have hjournal := (toList_append_inj houtputBytes).2
  simp only [flatMap_cons, append_assoc] at hjournal
  exact ⟨himage, (toList_append_inj hjournal).1⟩

end Claims

section Acceptance

variable {S : Binfmt.Sha256} {keccak256 : Bytes → Bytes32} {m : ScratchMemory} {p : Predicate} {imageId : Bytes32} {journal : Bytes}
variable (S keccak256) in
/-- The functions of the machine, with the claim digest that the contract's library computes from an image and a journal digest. -/
def machineHashes (okDigest : Bytes32 → Bytes32 → Bytes32) : PredicateHashes where
  sha256 bytes := ofDigest (S bytes)
  keccak256
  okDigest

variable {okDigest : Bytes32 → Bytes32 → Bytes32}

def assessorAccepts (S : Binfmt.Sha256) (p : Predicate) (imageId : Bytes32) (journal : Bytes) : Prop :=
  ∃ q d, Guest.Predicate.tryFrom p = some q ∧ q.eval S (.imageIdAndJournal imageId journal) = some d

variable {data a b : Bytes} {q : Guest.Predicate}

theorem take_append_drop_eq_iff (ha : a.length = 32) : data = a ++ b ↔ data.take 32 = a ∧ data.drop 32 = b := by
  constructor
  · rintro rfl
    exact ⟨take_left' ha, drop_left' ha⟩
  · rintro ⟨rfl, rfl⟩
    exact (take_append_drop 32 data).symm

theorem eval_digestMatch_iff (hp : p.predicateType = .digestMatch) :
    PredicateLibrary.eval (machineHashes S keccak256 okDigest) m p imageId journal = .ok true ↔
      p.data = wordBytes imageId ++ (S (abiEncodeBytes journal)).toList := by
  simp only [PredicateLibrary.eval, hp, bind_ok_iff, require_ok_iff, take_append_drop_eq_iff (wordBytes_length imageId)]
  constructor
  · rintro ⟨_, hlength, hres⟩
    obtain ⟨hjournal, himage⟩ := of_decide_eq_true (Except.ok.inj hres)
    rw [bytes32_eq_iff (by omega)] at himage
    rw [bytes32_eq_iff (by rw [length_drop]; omega), machineHashes, wordBytes_ofDigest,
      take_of_length_le (by rw [length_drop]; omega)] at hjournal
    exact ⟨himage, hjournal⟩
  · rintro ⟨himage, hjournal⟩
    have hlength : p.data.length = 64 := by
      have htake := congrArg length himage
      have hdrop := congrArg length hjournal
      rw [length_take, wordBytes_length] at htake
      rw [length_drop, Vector.length_toList] at hdrop
      omega
    refine ⟨(), hlength, congrArg Except.ok (decide_eq_true ⟨?_, (bytes32_eq_iff (by omega)).mpr himage⟩)⟩
    rw [bytes32_eq_iff (by rw [length_drop]; omega), machineHashes, wordBytes_ofDigest, hjournal]
    exact take_of_length_le (by simp)

theorem eval_claimDigestMatch_iff (hp : p.predicateType = .claimDigestMatch)
    (hok : ∀ i j, okDigest i j = ofDigest (okClaim S (toDigest i) (toDigest j))) :
    PredicateLibrary.eval (machineHashes S keccak256 okDigest) m p imageId journal = .ok true ↔
      p.data = (okClaim S (toDigest imageId) (S (abiEncodeBytes journal))).toList := by
  have hsha : toDigest (ofDigest (S (abiEncodeBytes journal))) = S (abiEncodeBytes journal) :=
    Vector.toList_inj.mp (wordBytes_ofDigest _)
  simp only [PredicateLibrary.eval, hp, bind_ok_iff, require_ok_iff, machineHashes, hok, hsha]
  constructor
  · rintro ⟨_, hlength, hres⟩
    have hclaim := of_decide_eq_true (Except.ok.inj hres)
    rw [bytes32_eq_iff (by omega), wordBytes_ofDigest, take_of_length_le (by omega)] at hclaim
    exact hclaim
  · intro hdata
    have hlength : p.data.length = 32 := by rw [hdata, Vector.length_toList]
    refine ⟨(), hlength, congrArg Except.ok (decide_eq_true ?_)⟩
    rw [bytes32_eq_iff (by omega), wordBytes_ofDigest, take_of_length_le (by omega), hdata]

theorem eval_prefixMatch_iff (hp : p.predicateType = .prefixMatch)
    (hcollision : keccak256 (journal.take (p.data.drop 32).length) = keccak256 (p.data.drop 32) →
      journal.take (p.data.drop 32).length = p.data.drop 32) :
    PredicateLibrary.eval (machineHashes S keccak256 okDigest) m p imageId journal = .ok true ↔
      p.data.take 32 = wordBytes imageId ∧ p.data.drop 32 <+: journal := by
  have hjournal := ((m.alloc_holds journal).alloc p.data).alloc (p.data.drop 32)
  have hstart := ((m.alloc journal).1.alloc p.data).1.alloc_holds (p.data.drop 32)
  have hmatches := PredicateLibrary.startsWith_iff hjournal hstart hcollision
  simp only [PredicateLibrary.eval, hp, bind_ok_iff, require_ok_iff]
  constructor
  · rintro ⟨_, hlength, hres⟩
    obtain ⟨hstarts, himage⟩ := of_decide_eq_true (Except.ok.inj hres)
    exact ⟨(bytes32_eq_iff hlength).mp himage, hmatches.mp hstarts⟩
  · rintro ⟨himage, hstarts⟩
    have hlength : 32 ≤ p.data.length := by
      have htake := congrArg length himage
      rw [length_take, wordBytes_length] at htake
      omega
    exact ⟨(), hlength, congrArg Except.ok (decide_eq_true ⟨hmatches.mpr hstarts, (bytes32_eq_iff hlength).mpr himage⟩)⟩

/-! What the assessor reads of the data, type by type. -/

theorem tryFrom_digestMatch_iff (hp : p.predicateType = .digestMatch) : tryFrom p = some q ↔
    ∃ image journalDigest : Binfmt.Digest, p.data = image.toList ++ journalDigest.toList ∧ q = .digestMatch image journalDigest := by
  simp only [tryFrom, hp]
  constructor
  · intro h
    split_ifs at h
    obtain ⟨image, himage, h⟩ := bind_eq_some_iff.mp h
    obtain ⟨journalDigest, hjournal, h⟩ := bind_eq_some_iff.mp h
    rw [digestOfBytes_eq_some_iff] at himage hjournal
    refine ⟨image, journalDigest, ?_, (Option.some.inj h).symm⟩
    rw [himage, hjournal, take_append_drop]
  · rintro ⟨image, journalDigest, hdata, rfl⟩
    obtain ⟨himage, hjournal⟩ := (take_append_drop_eq_iff (by simp)).mp hdata
    have hlength : 32 ≤ p.data.length := by rw [hdata]; simp
    rw [if_pos hlength, digestOfBytes_eq_some_iff.mpr himage.symm, digestOfBytes_eq_some_iff.mpr hjournal.symm]
    rfl

theorem tryFrom_prefixMatch_iff (hp : p.predicateType = .prefixMatch) : tryFrom p = some q ↔
    ∃ image : Binfmt.Digest, p.data.take 32 = image.toList ∧ q = .prefixMatch image (p.data.drop 32) := by
  simp only [tryFrom, hp]
  constructor
  · intro h
    split_ifs at h
    obtain ⟨image, himage, h⟩ := bind_eq_some_iff.mp h
    exact ⟨image, (digestOfBytes_eq_some_iff.mp himage).symm, (Option.some.inj h).symm⟩
  · rintro ⟨image, himage, rfl⟩
    have hlength : 32 ≤ p.data.length := by
      have htake := congrArg length himage
      rw [length_take, Vector.length_toList] at htake
      omega
    rw [if_pos hlength, digestOfBytes_eq_some_iff.mpr himage.symm]
    rfl

theorem tryFrom_claimDigestMatch_iff (hp : p.predicateType = .claimDigestMatch) : tryFrom p = some q ↔
    ∃ claim : Binfmt.Digest, p.data = claim.toList ∧ q = .claimDigestMatch claim := by
  simp only [tryFrom, hp]
  constructor
  · intro h
    obtain ⟨claim, hclaim, h⟩ := bind_eq_some_iff.mp h
    exact ⟨claim, (digestOfBytes_eq_some_iff.mp hclaim).symm, (Option.some.inj h).symm⟩
  · rintro ⟨claim, hdata, rfl⟩
    rw [digestOfBytes_eq_some_iff.mpr hdata.symm]
    rfl

theorem assessorAccepts_digestMatch_iff (hp : p.predicateType = .digestMatch)
    (hno : ∀ image journalDigest : Binfmt.Digest, p.data = image.toList ++ journalDigest.toList →
      OkNoCollision S image journalDigest (toDigest imageId) (S journal)) :
    assessorAccepts S p imageId journal ↔ p.data = wordBytes imageId ++ (S journal).toList := by
  constructor
  · rintro ⟨q, d, hq, heval⟩
    obtain ⟨image, journalDigest, hdata, rfl⟩ := (tryFrom_digestMatch_iff hp).mp hq
    change (if okClaim S image journalDigest = okClaim S (toDigest imageId) (S journal) then _ else none) = some d at heval
    split_ifs at heval with hclaims
    obtain ⟨rfl, rfl⟩ := okClaim_inj (hno image journalDigest hdata) hclaims
    exact hdata
  · intro hdata
    refine ⟨.digestMatch (toDigest imageId) (S journal), okClaim S (toDigest imageId) (S journal),
      (tryFrom_digestMatch_iff hp).mpr ⟨toDigest imageId, S journal, hdata, rfl⟩, ?_⟩
    exact if_pos rfl

theorem assessorAccepts_prefixMatch_iff (hp : p.predicateType = .prefixMatch) :
    assessorAccepts S p imageId journal ↔ p.data.take 32 = wordBytes imageId ∧ p.data.drop 32 <+: journal := by
  constructor
  · rintro ⟨q, d, hq, heval⟩
    obtain ⟨image, himage, rfl⟩ := (tryFrom_prefixMatch_iff hp).mp hq
    obtain ⟨claim, hclaim, -⟩ := bind_eq_some_iff.mp heval
    simp only [claimDigest] at hclaim
    split_ifs at hclaim with hmatches
    obtain ⟨rfl, hstarts⟩ := hmatches
    exact ⟨himage, hstarts⟩
  · rintro ⟨himage, hstarts⟩
    refine ⟨.prefixMatch (toDigest imageId) (p.data.drop 32), okClaim S (toDigest imageId) (S journal),
      (tryFrom_prefixMatch_iff hp).mpr ⟨toDigest imageId, himage, rfl⟩, ?_⟩
    simp only [eval, claimDigest, true_and, if_pos hstarts]
    rfl

theorem assessorAccepts_claimDigestMatch_iff (hp : p.predicateType = .claimDigestMatch) :
    assessorAccepts S p imageId journal ↔ p.data = (okClaim S (toDigest imageId) (S journal)).toList := by
  constructor
  · rintro ⟨q, d, hq, heval⟩
    obtain ⟨claim, hdata, rfl⟩ := (tryFrom_claimDigestMatch_iff hp).mp hq
    change (if claim = okClaim S (toDigest imageId) (S journal) then _ else none) = some d at heval
    split_ifs at heval with hclaims
    rw [hdata, hclaims]
  · intro hdata
    exact ⟨.claimDigestMatch (okClaim S (toDigest imageId) (S journal)), _, (tryFrom_claimDigestMatch_iff hp).mpr ⟨_, hdata, rfl⟩, if_pos rfl⟩

/-- Data of a length that its type asks for. -/
def Predicate.WellFormed (p : Predicate) : Prop :=
  match p.predicateType with
  | .digestMatch => p.data.length = 64
  | .prefixMatch => 32 ≤ p.data.length
  | .claimDigestMatch => p.data.length = 32

theorem eval_error_iff : (∃ e, PredicateLibrary.eval (machineHashes S keccak256 okDigest) m p imageId journal = .error e) ↔ ¬p.WellFormed := by
  unfold PredicateLibrary.eval Predicate.WellFormed
  cases p.predicateType <;> simp only [require] <;> split_ifs with hlength <;> simp [hlength, bind, Except.bind, pure, Except.pure]

theorem tryFrom_eq_none_iff : tryFrom p = none ↔ ¬p.WellFormed := by
  have hdigest (bytes : Bytes) : (∃ d : Binfmt.Digest, d.toList = bytes) ↔ bytes.length = 32 := by
    constructor
    · rintro ⟨d, rfl⟩
      simp
    · exact fun h => ⟨⟨bytes.toArray, by simpa using h⟩, rfl⟩
  rw [← not_isSome_iff_eq_none, isSome_iff_exists, not_iff_not, Predicate.WellFormed]
  cases hp : p.predicateType with
  | digestMatch =>
    simp only [tryFrom_digestMatch_iff hp]
    constructor
    · rintro ⟨_, image, journalDigest, hdata, -⟩
      rw [hdata]
      simp
    · intro hlength
      obtain ⟨image, himage⟩ := (hdigest (p.data.take 32)).mpr (by rw [length_take]; omega)
      obtain ⟨journalDigest, hjournal⟩ := (hdigest (p.data.drop 32)).mpr (by rw [length_drop]; omega)
      exact ⟨_, image, journalDigest, by rw [himage, hjournal, take_append_drop], rfl⟩
  | prefixMatch =>
    simp only [tryFrom_prefixMatch_iff hp]
    constructor
    · rintro ⟨_, image, himage, -⟩
      have htake := congrArg length himage
      rw [length_take, Vector.length_toList] at htake
      omega
    · intro hlength
      obtain ⟨image, himage⟩ := (hdigest (p.data.take 32)).mpr (by rw [length_take]; omega)
      exact ⟨_, image, himage.symm, rfl⟩
  | claimDigestMatch =>
    simp only [tryFrom_claimDigestMatch_iff hp]
    constructor
    · rintro ⟨_, claim, hdata, -⟩
      rw [hdata]
      simp
    · intro hlength
      obtain ⟨claim, hclaim⟩ := (hdigest p.data).mpr hlength
      exact ⟨_, claim, hclaim.symm, rfl⟩

variable (S keccak256 okDigest m p imageId journal) in
/-- The contract reverts where the assessor cannot read the data, and accepts what the assessor accepts. -/
structure PredicateAgreement : Prop where
  reverts : (∃ e, PredicateLibrary.eval (machineHashes S keccak256 okDigest) m p imageId journal = .error e) ↔ Guest.Predicate.tryFrom p = none
  accepts : PredicateLibrary.eval (machineHashes S keccak256 okDigest) m p imageId journal = .ok true ↔ assessorAccepts S p imageId journal

variable (S keccak256 p imageId journal) in
/-- The hashes tell from each other what is hashed for the two evaluations. -/
def PredicateNoCollision : Prop :=
  match p.predicateType with
  | .digestMatch => (S (abiEncodeBytes journal) = S journal → abiEncodeBytes journal = journal) ∧
      ∀ image journalDigest : Binfmt.Digest, p.data = image.toList ++ journalDigest.toList →
        OkNoCollision S image journalDigest (toDigest imageId) (S journal)
  | .prefixMatch => keccak256 (journal.take (p.data.drop 32).length) = keccak256 (p.data.drop 32) →
      journal.take (p.data.drop 32).length = p.data.drop 32
  | .claimDigestMatch => (S (abiEncodeBytes journal) = S journal → abiEncodeBytes journal = journal) ∧
      OkNoCollision S (toDigest imageId) (S (abiEncodeBytes journal)) (toDigest imageId) (S journal)

variable (S p imageId journal) in
/-- The data asks for this image and journal, under the digest of the journal or under that of its encoding. -/
def AsksForJournal : Prop :=
  match p.predicateType with
  | .digestMatch => p.data = wordBytes imageId ++ (S journal).toList ∨ p.data = wordBytes imageId ++ (S (abiEncodeBytes journal)).toList
  | .prefixMatch => False
  | .claimDigestMatch => p.data = (okClaim S (toDigest imageId) (S journal)).toList ∨
      p.data = (okClaim S (toDigest imageId) (S (abiEncodeBytes journal))).toList

theorem eq_iff_eq_iff_of_ne (h : a ≠ b) : (data = a ↔ data = b) ↔ ¬(data = b ∨ data = a) := by
  constructor
  · rintro hiff (rfl | rfl)
    · exact h (hiff.mpr rfl).symm
    · exact h (hiff.mp rfl)
  · exact fun hnone => iff_of_false (fun ha => hnone (.inr ha)) (fun hb => hnone (.inl hb))

/-- The two evaluations agree exactly if the data does not ask for the journal by its digest or by that of its claim:
the contract hashes an encoding of the journal, the assessor the journal. -/
theorem predicate_agreement_iff (S : Binfmt.Sha256) (keccak256 : Bytes → Bytes32) (okDigest : Bytes32 → Bytes32 → Bytes32) (m : ScratchMemory)
    (p : Predicate) (imageId : Bytes32) (journal : Bytes) (hok : ∀ i j, okDigest i j = ofDigest (okClaim S (toDigest i) (toDigest j)))
    (hno : PredicateNoCollision S keccak256 p imageId journal) :
    PredicateAgreement S keccak256 m p imageId journal okDigest ↔ ¬AsksForJournal S p imageId journal := by
  have hreverts : (∃ e, PredicateLibrary.eval (machineHashes S keccak256 okDigest) m p imageId journal = .error e) ↔
      Guest.Predicate.tryFrom p = none := eval_error_iff.trans tryFrom_eq_none_iff.symm
  have hagreement : PredicateAgreement S keccak256 m p imageId journal okDigest ↔
      (PredicateLibrary.eval (machineHashes S keccak256 okDigest) m p imageId journal = .ok true ↔ assessorAccepts S p imageId journal) :=
    ⟨fun h => h.accepts, fun h => ⟨hreverts, h⟩⟩
  have hencoded (hjournals : S (abiEncodeBytes journal) = S journal → abiEncodeBytes journal = journal) : S (abiEncodeBytes journal) ≠ S journal :=
    fun heq => abiEncodeBytes_ne journal (hjournals heq)
  rw [hagreement, AsksForJournal]
  unfold PredicateNoCollision at hno
  cases hp : p.predicateType with
  | digestMatch =>
    rw [hp] at hno
    rw [eval_digestMatch_iff hp, assessorAccepts_digestMatch_iff hp hno.2]
    exact eq_iff_eq_iff_of_ne fun heq => hencoded hno.1 (Vector.toList_inj.mp (List.append_cancel_left heq))
  | prefixMatch =>
    rw [hp] at hno
    rw [eval_prefixMatch_iff hp hno, assessorAccepts_prefixMatch_iff hp]
    exact iff_of_true Iff.rfl not_false
  | claimDigestMatch =>
    rw [hp] at hno
    rw [eval_claimDigestMatch_iff hp hok, assessorAccepts_claimDigestMatch_iff hp]
    exact eq_iff_eq_iff_of_ne fun heq => hencoded hno.1 (okClaim_inj hno.2 (Vector.toList_inj.mp heq)).2

end Acceptance

/-- The journal 1, 2, 3 of image 5, by the digest of the journal. -/
def digestPredicate : Predicate := ⟨.digestMatch, wordBytes 5 ++ (sumOfBytes [1, 2, 3]).toList⟩

def emptyMemory : ScratchMemory := ⟨fun _ => 0, 0x80⟩

def sumOkDigest (imageId journal : Bytes32) : Bytes32 := ofDigest (okClaim sumOfBytes (toDigest imageId) (toDigest journal))

theorem digestPredicate_noCollision : PredicateNoCollision sumOfBytes 0 digestPredicate 5 [1, 2, 3] := by
  refine ⟨fun h => absurd h (by with_unfolding_all (set_option maxRecDepth 100000 in decide)), fun image journalDigest hdata => ?_⟩
  have hsplit : (toDigest 5).toList ++ (sumOfBytes [1, 2, 3]).toList = image.toList ++ journalDigest.toList := hdata
  obtain ⟨rfl, hjournal⟩ := toList_append_inj hsplit
  obtain rfl := Vector.toList_inj.mp hjournal
  exact forall₂_same.mpr fun _ _ _ => rfl

theorem predicate_agreement_iff_digest : PredicateAgreement sumOfBytes 0 emptyMemory digestPredicate 5 [1, 2, 3] sumOkDigest ↔
    ¬AsksForJournal sumOfBytes digestPredicate 5 [1, 2, 3] :=
  predicate_agreement_iff sumOfBytes 0 sumOkDigest emptyMemory digestPredicate 5 [1, 2, 3] (fun _ _ => rfl) digestPredicate_noCollision

/-- The assessor accepts the journal, the contract does not. -/
theorem digestPredicate_disagreement : PredicateNoCollision sumOfBytes 0 digestPredicate 5 [1, 2, 3] ∧
    assessorAccepts sumOfBytes digestPredicate 5 [1, 2, 3] ∧
      PredicateLibrary.eval (machineHashes sumOfBytes 0 sumOkDigest) emptyMemory digestPredicate 5 [1, 2, 3] ≠ .ok true ∧
        ¬PredicateAgreement sumOfBytes 0 emptyMemory digestPredicate 5 [1, 2, 3] sumOkDigest := by
  have haccepts : assessorAccepts sumOfBytes digestPredicate 5 [1, 2, 3] :=
    (assessorAccepts_digestMatch_iff rfl digestPredicate_noCollision.2).mpr rfl
  have hcontract : PredicateLibrary.eval (machineHashes sumOfBytes 0 sumOkDigest) emptyMemory digestPredicate 5 [1, 2, 3] ≠ .ok true := by
    rw [ne_eq, eval_digestMatch_iff rfl]
    with_unfolding_all (set_option maxRecDepth 100000 in decide)
  exact ⟨digestPredicate_noCollision, haccepts, hcontract, fun h => hcontract (h.accepts.mpr haccepts)⟩

end VerifiableCompute.Market
