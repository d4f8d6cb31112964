import VerifiableCompute.Lib.Bytes

/-! The binary format of programs: magic, version, a header of length-prefixed attributes,
and the user and kernel files. Attributes that cannot be decoded are skipped, and no blob
makes the decoder panic. -/

namespace VerifiableCompute.Binfmt.Binary

open Lib List

/-- An error with its contexts, outermost first, or a panic. -/
inductive Stop where
  | bail (messages : List String)
  | panic

variable {α β V : Type}

def context (message : String) : Except Stop α → Except Stop α
  | .error (.bail messages) => .error (.bail (message :: messages))
  | x => x

def ensure (p : Prop) [Decidable p] (message : String) : Except Stop Unit :=
  if p then .ok () else .error (.bail [message])

section

variable (n : ℕ) (bytes : List Byte)

/-- `bytes[..n]`. -/
def sliceTo : Except Stop (List Byte) :=
  if n ≤ bytes.length then .ok (bytes.take n) else .error .panic

/-- `bytes[n..]`. -/
def sliceFrom : Except Stop (List Byte) :=
  if n ≤ bytes.length then .ok (bytes.drop n) else .error .panic

def splitAt : Except Stop (List Byte × List Byte) :=
  if n ≤ bytes.length then .ok (bytes.splitAt n) else .error .panic

/-- The bytes as an array of that length. -/
def tryInto : Except Stop (List Byte) :=
  if bytes.length = n then .ok bytes else .error .panic

end

def u32Size : ℕ := 4

def readU32 (bytes : List Byte) : Except Stop (ℕ × List Byte) :=
  if bytes.length < u32Size then .error (.bail ["unexpected end of file"])
  else do
    let value := leNat (← tryInto u32Size (← sliceTo u32Size bytes))
    return (value, ← sliceFrom u32Size bytes)

def readSlice (len : ℕ) (bytes : List Byte) : Except Stop (List Byte × List Byte) :=
  if bytes.length < len then .error (.bail ["unexpected end of file"]) else splitAt len bytes

/-- The low word of a number, as it is written. -/
def writeU32 (value : ℕ) : List Byte := leBytes u32Size value

inductive AbiKind where
  | v1Compat
  | linux
  deriving DecidableEq

/-- The header, over the versions there are. -/
structure Header (V : Type) where
  abiKind : AbiKind
  abiVersion : V

open Header

/-- How an attribute is written and read. -/
structure Postcard (V : Type) where
  toAllocvec : AbiKind × V → List Byte
  fromBytes : List Byte → Option (AbiKind × V)

def Postcard.RoundTrips (postcard : Postcard V) : Prop := ∀ v, postcard.fromBytes (postcard.toAllocvec v) = some v

variable (postcard : Postcard V)

namespace Header

/-- That many attributes, without those that cannot be decoded. -/
def readAttributes : ℕ → List Byte → Except Stop (List (AbiKind × V) × List Byte)
  | 0, bytes => .ok ([], bytes)
  | n + 1, bytes => do
    let (kvPairLen, bytes) ← context "Malformed ProgramBinaryHeader" (readU32 bytes)
    let (kvBytes, bytes) ← context "Malformed ProgramBinaryHeader" (readSlice kvPairLen bytes)
    let (kvPairs, bytes) ← readAttributes n bytes
    return ((postcard.fromBytes kvBytes).toList ++ kvPairs, bytes)

/-- The header that the attributes make. -/
def ofAttributes (kvPairs : List (AbiKind × V)) : Except Stop (Header V) :=
  if kvPairs.length ≠ 1 then .error (.bail ["Malformed ProgramBinaryHeader: duplicate attributes"])
  else
    match kvPairs with
    | [] => .error (.bail ["ProgramBinary header missing AbiVersion"])
    | (abiKind, abiVersion) :: _ => .ok ⟨abiKind, abiVersion⟩

def decode (bytes : List Byte) : Except Stop (Header V) := do
  let (numKvPairs, bytes) ← context "Malformed ProgramBinaryHeader" (readU32 bytes)
  let (kvPairs, bytes) ← readAttributes postcard numKvPairs bytes
  ensure (bytes = []) "Malformed ProgramBinaryHeader: trailing bytes"
  ofAttributes kvPairs

def writeAttribute (kvBytes : List Byte) : List Byte := writeU32 kvBytes.length ++ kvBytes

def encodeAttributes (kvPairs : List (List Byte)) : List Byte := writeU32 kvPairs.length ++ kvPairs.flatMap writeAttribute

def abiVersionAttribute (header : Header V) : List Byte := postcard.toAllocvec (header.abiKind, header.abiVersion)

def encode (header : Header V) : List Byte := encodeAttributes [header.abiVersionAttribute postcard]

end Header

def magic : List Byte := asciiBytes "R0BF"

def binaryFormatVersion : ℕ := 1

structure ProgramBinary (V : Type) where
  header : Header V
  userElf : List Byte
  kernelElf : List Byte

namespace ProgramBinary

/-- The two files behind the header. -/
def readElfs (blob : List Byte) : Except Stop (List Byte × List Byte) := do
  let (userLen, blob) ← context "Malformed ProgramBinary" (readU32 blob)
  let (userElf, blob) ← context "Malformed ProgramBinary" (readSlice userLen blob)
  ensure (userElf ≠ []) "Malformed ProgramBinary"
  let kernelElf := blob
  ensure (kernelElf ≠ []) "Malformed ProgramBinary"
  return (userElf, kernelElf)

def decode (blob : List Byte) : Except Stop (ProgramBinary V) := do
  let (magicBytes, blob) ← context "Malformed ProgramBinary" (readSlice magic.length blob)
  ensure (magicBytes = magic) "Malformed ProgramBinary"
  let (formatVersion, blob) ← context "Malformed ProgramBinary" (readU32 blob)
  ensure (formatVersion = binaryFormatVersion) "ProgramBinary binary format version mismatch"
  let (headerLen, blob) ← context "Malformed ProgramBinary" (readU32 blob)
  let (headerBytes, blob) ← context "Malformed ProgramBinary" (readSlice headerLen blob)
  let header ← Header.decode postcard headerBytes
  let (userElf, kernelElf) ← readElfs blob
  return ⟨header, userElf, kernelElf⟩

/-- Magic, version and the header with its length in front of the rest. -/
def frame (headerBytes rest : List Byte) : List Byte :=
  magic ++ writeU32 binaryFormatVersion ++ writeU32 headerBytes.length ++ headerBytes ++ rest

def encodeElfs (p : ProgramBinary V) : List Byte := writeU32 p.userElf.length ++ p.userElf ++ p.kernelElf

def encode (p : ProgramBinary V) : List Byte := frame (Header.encode postcard p.header) p.encodeElfs

end ProgramBinary

def NoPanic (x : Except Stop α) : Prop := x ≠ .error .panic

theorem NoPanic.ok (a : α) : NoPanic (.ok a) := by
  intro h
  cases h

theorem NoPanic.bail (messages : List String) : NoPanic (.error (.bail messages) : Except Stop α) := by
  intro h
  cases h

variable {x : Except Stop α} {k : α → Except Stop β} {bytes : List Byte} {len : ℕ} {kvPairs : List (List Byte)}

theorem NoPanic.bind (hx : NoPanic x) (hk : ∀ a, NoPanic (k a)) : NoPanic (x >>= k) := by
  cases x with
  | ok a => exact hk a
  | error e =>
    intro h
    cases h
    exact hx rfl

theorem NoPanic.context (message : String) (hx : NoPanic x) : NoPanic (context message x) := by
  cases x with
  | ok a => exact .ok a
  | error e =>
    cases e with
    | bail messages => exact .bail _
    | panic => exact absurd rfl hx

theorem noPanic_ensure (p : Prop) [Decidable p] (message : String) : NoPanic (ensure p message) := by
  rw [ensure]
  split_ifs
  · exact .ok _
  · exact .bail _

theorem readU32_of_length (h : u32Size ≤ bytes.length) :
    readU32 bytes = .ok (leNat (bytes.take u32Size), bytes.drop u32Size) := by
  have htake : (bytes.take u32Size).length = u32Size := length_take_of_le h
  rw [readU32, if_neg (by omega), sliceTo, if_pos h, sliceFrom, if_pos h]
  show (tryInto u32Size (bytes.take u32Size) >>= fun value => .ok (leNat value, bytes.drop u32Size)) = _
  rw [tryInto, if_pos htake]
  rfl

theorem readSlice_of_length (h : len ≤ bytes.length) : readSlice len bytes = .ok (bytes.take len, bytes.drop len) := by
  rw [readSlice, if_neg (by omega), splitAt, if_pos h, splitAt_eq]

theorem noPanic_readU32 (bytes : List Byte) : NoPanic (readU32 bytes) := by
  by_cases h : u32Size ≤ bytes.length
  · rw [readU32_of_length h]
    exact .ok _
  · rw [readU32, if_pos (by omega)]
    exact .bail _

theorem noPanic_readSlice (len : ℕ) (bytes : List Byte) : NoPanic (readSlice len bytes) := by
  by_cases h : len ≤ bytes.length
  · rw [readSlice_of_length h]
    exact .ok _
  · rw [readSlice, if_pos (by omega)]
    exact .bail _

theorem noPanic_readAttributes (n : ℕ) (bytes : List Byte) : NoPanic (readAttributes postcard n bytes) := by
  induction n generalizing bytes with
  | zero => exact .ok _
  | succ n ih =>
    apply ((noPanic_readU32 _).context _).bind
    intro r
    apply ((noPanic_readSlice _ _).context _).bind
    intro r'
    apply (ih _).bind
    intro r''
    exact .ok _

theorem noPanic_ofAttributes (kvPairs : List (AbiKind × V)) : NoPanic (ofAttributes kvPairs) := by
  unfold ofAttributes
  split_ifs with hone
  · exact .bail _
  · cases kvPairs with
    | nil => exact .bail _
    | cons pair kvPairs => exact .ok _

theorem noPanic_decodeHeader (bytes : List Byte) : NoPanic (decode postcard bytes) := by
  apply ((noPanic_readU32 _).context _).bind
  intro r
  apply (noPanic_readAttributes _ _ _).bind
  intro r'
  apply (noPanic_ensure _ _).bind
  intro _
  exact noPanic_ofAttributes _

theorem noPanic_readElfs (blob : List Byte) : NoPanic (ProgramBinary.readElfs blob) := by
  apply ((noPanic_readU32 _).context _).bind
  intro r
  apply ((noPanic_readSlice _ _).context _).bind
  intro r'
  apply (noPanic_ensure _ _).bind
  intro _
  apply (noPanic_ensure _ _).bind
  intro _
  exact .ok _

theorem noPanic_decode (blob : List Byte) : NoPanic (ProgramBinary.decode postcard blob) := by
  apply ((noPanic_readSlice _ _).context _).bind
  intro r₁
  apply (noPanic_ensure _ _).bind
  intro _
  apply ((noPanic_readU32 _).context _).bind
  intro r₂
  apply (noPanic_ensure _ _).bind
  intro _
  apply ((noPanic_readU32 _).context _).bind
  intro r₃
  apply ((noPanic_readSlice _ _).context _).bind
  intro r₄
  apply (noPanic_decodeHeader _ _).bind
  intro header
  apply (noPanic_readElfs _).bind
  intro elfs
  exact .ok _

variable {postcard : Postcard V}

theorem ok_bind (a : α) (k : α → Except Stop β) : (.ok a >>= k) = k a := rfl

theorem context_ok (message : String) (a : α) : context message (.ok a) = .ok a := rfl

theorem ensure_of {p : Prop} [Decidable p] (message : String) (hp : p) : ensure p message = .ok () := if_pos hp

@[simp] theorem length_writeU32 (value : ℕ) : (writeU32 value).length = u32Size := leBytes_length _ _

theorem readU32_writeU32 (value : ℕ) (rest : List Byte) :
    readU32 (writeU32 value ++ rest) = .ok (value % 2 ^ 32, rest) := by
  have hlength : (writeU32 value).length = u32Size := length_writeU32 value
  have hvalue : leNat (writeU32 value) = value % 2 ^ 32 := leNat_leBytes u32Size value
  rw [readU32_of_length (by rw [length_append]; omega), ← hlength, take_left, drop_left, hvalue]

theorem readSlice_append (bytes rest : List Byte) : readSlice bytes.length (bytes ++ rest) = .ok (bytes, rest) := by
  rw [readSlice_of_length (by rw [length_append]; omega), take_left, drop_left]

/-- Attributes of lengths that fit are read back, but for those that cannot be decoded. -/
theorem readAttributes_flatMap (hfit : ∀ kvBytes ∈ kvPairs, kvBytes.length < 2 ^ 32) (rest : List Byte) :
    readAttributes postcard kvPairs.length (kvPairs.flatMap writeAttribute ++ rest) =
      .ok (kvPairs.filterMap postcard.fromBytes, rest) := by
  induction kvPairs with
  | nil => rfl
  | cons kvBytes kvPairs ih =>
    have hlength : kvBytes.length % 2 ^ 32 = kvBytes.length := Nat.mod_eq_of_lt (hfit kvBytes mem_cons_self)
    have hrest := ih fun kvBytes h => hfit kvBytes (mem_cons_of_mem _ h)
    simp only [length_cons, flatMap_cons, writeAttribute, append_assoc, readAttributes, readU32_writeU32, hlength,
      context_ok, ok_bind, readSlice_append, hrest, filterMap_cons]
    cases postcard.fromBytes kvBytes with
    | none => rfl
    | some kvPair => rfl

theorem length_le_of_mem {kvBytes : List Byte} (h : kvBytes ∈ kvPairs) :
    kvBytes.length ≤ (kvPairs.flatMap writeAttribute).length := by
  have hsub := (sublist_flatten_of_mem (mem_map_of_mem h : writeAttribute kvBytes ∈ _)).length_le
  rw [writeAttribute, length_append] at hsub
  exact (Nat.le_add_left _ _).trans hsub

theorem length_le_flatMap (kvPairs : List (List Byte)) : kvPairs.length ≤ (kvPairs.flatMap writeAttribute).length := by
  induction kvPairs with
  | nil => exact le_rfl
  | cons kvBytes kvPairs ih =>
    rw [length_cons, flatMap_cons, length_append, writeAttribute, length_append, length_writeU32, u32Size]
    omega

theorem decode_encodeAttributes (hfit : (encodeAttributes kvPairs).length < 2 ^ 32) :
    decode postcard (encodeAttributes kvPairs) = ofAttributes (kvPairs.filterMap postcard.fromBytes) := by
  rw [encodeAttributes, length_append] at hfit
  have hnumber : kvPairs.length % 2 ^ 32 = kvPairs.length := Nat.mod_eq_of_lt ((length_le_flatMap kvPairs).trans_lt (by omega))
  have hlengths : ∀ kvBytes ∈ kvPairs, kvBytes.length < 2 ^ 32 := fun kvBytes h => (length_le_of_mem h).trans_lt (by omega)
  have hattributes : readAttributes postcard kvPairs.length (kvPairs.flatMap writeAttribute ++ []) = _ :=
    readAttributes_flatMap hlengths []
  rw [append_nil] at hattributes
  simp only [decode, encodeAttributes, readU32_writeU32, hnumber, context_ok, ok_bind, hattributes,
    ensure_of _ trivial]

namespace ProgramBinary

theorem decode_frame (headerBytes rest : List Byte) : decode postcard (frame headerBytes rest) = do
    let (headerBytes, blob) ← context "Malformed ProgramBinary" (readSlice (headerBytes.length % 2 ^ 32) (headerBytes ++ rest))
    let header ← Header.decode postcard headerBytes
    let (userElf, kernelElf) ← readElfs blob
    return ⟨header, userElf, kernelElf⟩ := by
  have hversion : binaryFormatVersion % 2 ^ 32 = binaryFormatVersion := rfl
  simp only [decode, frame, append_assoc, readSlice_append, readU32_writeU32, hversion, context_ok, ok_bind,
    ensure_of _ trivial]

theorem readElfs_encodeElfs {p : ProgramBinary V} (huser : p.userElf ≠ []) (hkernel : p.kernelElf ≠ [])
    (hlength : p.userElf.length < 2 ^ 32) : readElfs p.encodeElfs = .ok (p.userElf, p.kernelElf) := by
  simp only [readElfs, encodeElfs, append_assoc, readU32_writeU32, Nat.mod_eq_of_lt hlength, context_ok, ok_bind,
    readSlice_append, ensure_of _ huser, ensure_of _ hkernel]
  rfl

end ProgramBinary

theorem bind_eq_ok {b : β} (h : (x >>= k) = .ok b) : ∃ a, x = .ok a ∧ k a = .ok b := by
  cases x with
  | error e => cases h
  | ok a => exact ⟨a, rfl, h⟩

theorem context_eq_ok {message : String} {a : α} (h : context message x = .ok a) : x = .ok a := by
  cases x with
  | ok a' => exact h
  | error e => cases e <;> cases h

theorem length_of_readU32 {r : ℕ × List Byte} (h : readU32 bytes = .ok r) : bytes.length = u32Size + r.2.length := by
  by_cases hlength : u32Size ≤ bytes.length
  · rw [readU32_of_length hlength] at h
    cases h
    rw [length_drop]
    omega
  · rw [readU32, if_pos (by omega)] at h
    cases h

theorem length_of_readSlice {r : List Byte × List Byte} (h : readSlice len bytes = .ok r) :
    bytes.length = len + r.2.length ∧ r.1.length = len := by
  by_cases hlength : len ≤ bytes.length
  · rw [readSlice_of_length hlength] at h
    cases h
    rw [length_drop, length_take]
    omega
  · rw [readSlice, if_pos (by omega)] at h
    cases h

namespace ProgramBinary

theorem length_of_readElfs {blob : List Byte} {elfs : List Byte × List Byte} (h : readElfs blob = .ok elfs) :
    blob.length = u32Size + elfs.1.length + elfs.2.length := by
  obtain ⟨r, hread, h⟩ := bind_eq_ok h
  obtain ⟨r', hslice, h⟩ := bind_eq_ok h
  obtain ⟨-, -, h⟩ := bind_eq_ok h
  obtain ⟨-, -, h⟩ := bind_eq_ok h
  cases h
  have hrest := length_of_readU32 (context_eq_ok hread)
  obtain ⟨huser, hlen⟩ := length_of_readSlice (context_eq_ok hslice)
  show blob.length = u32Size + r'.1.length + r'.2.length
  omega

variable {headerBytes : List Byte} {p : ProgramBinary V}

theorem length_of_decode_frame {rest : List Byte} (h : decode postcard (frame headerBytes rest) = .ok p) :
    (headerBytes ++ rest).length = headerBytes.length % 2 ^ 32 + (u32Size + p.userElf.length + p.kernelElf.length) := by
  rw [decode_frame] at h
  obtain ⟨r, hslice, h⟩ := bind_eq_ok h
  obtain ⟨header, -, h⟩ := bind_eq_ok h
  obtain ⟨elfs, helfs, h⟩ := bind_eq_ok h
  cases h
  rw [(length_of_readSlice (context_eq_ok hslice)).1, length_of_readElfs helfs]

theorem length_encodeElfs (p : ProgramBinary V) :
    p.encodeElfs.length = u32Size + p.userElf.length + p.kernelElf.length := by
  rw [encodeElfs, length_append, length_append, length_writeU32]

theorem length_encodeHeader (header : Header V) :
    (Header.encode postcard header).length = (header.abiVersionAttribute postcard).length + 8 := by
  rw [Header.encode, Header.encodeAttributes, flatMap_singleton, Header.writeAttribute, length_append, length_append,
    length_writeU32, length_writeU32, u32Size]
  omega

theorem decode_frame_of_fits (hfit : headerBytes.length < 2 ^ 32) (rest : List Byte) :
    decode postcard (frame headerBytes rest) = do
      let header ← Header.decode postcard headerBytes
      let (userElf, kernelElf) ← readElfs rest
      return ⟨header, userElf, kernelElf⟩ := by
  rw [decode_frame, Nat.mod_eq_of_lt hfit, readSlice_append, context_ok, ok_bind]

theorem decode_append_unknown {kvPairs extras : List (List Byte)} (hextras : ∀ kvBytes ∈ extras, postcard.fromBytes kvBytes = none)
    (hfit : (Header.encodeAttributes (kvPairs ++ extras)).length < 2 ^ 32) (rest : List Byte) :
    decode postcard (frame (Header.encodeAttributes (kvPairs ++ extras)) rest) =
      decode postcard (frame (Header.encodeAttributes kvPairs) rest) := by
  have hshorter : (Header.encodeAttributes kvPairs).length ≤ (Header.encodeAttributes (kvPairs ++ extras)).length := by
    simp only [Header.encodeAttributes, flatMap_append, length_append, length_writeU32]
    omega
  have hnone : extras.filterMap postcard.fromBytes = [] := filterMap_eq_nil_iff.mpr hextras
  rw [decode_frame_of_fits hfit, decode_frame_of_fits (hshorter.trans_lt hfit), decode_encodeAttributes hfit,
    decode_encodeAttributes (hshorter.trans_lt hfit), filterMap_append, hnone, append_nil]

theorem decode_encode (hround : postcard.RoundTrips) (huser : p.userElf ≠ []) (hkernel : p.kernelElf ≠ [])
    (hlength : p.userElf.length < 2 ^ 32) (hfit : (Header.encode postcard p.header).length < 2 ^ 32) :
    decode postcard (encode postcard p) = .ok p := by
  have hattribute : [p.header.abiVersionAttribute postcard].filterMap postcard.fromBytes =
      [(p.header.abiKind, p.header.abiVersion)] := by
    rw [Header.abiVersionAttribute, filterMap_cons_some (hround _), filterMap_nil]
  rw [encode, decode_frame_of_fits hfit, readElfs_encodeElfs huser hkernel hlength, Header.encode, decode_encodeAttributes hfit,
    hattribute]
  rfl

theorem fits_of_decode_encode (h : decode postcard (encode postcard p) = .ok p) :
    (Header.encode postcard p.header).length < 2 ^ 32 := by
  have hlength := length_of_decode_frame h
  rw [length_append, length_encodeElfs] at hlength
  omega

/-- Binaries are read back as they were, with any attributes of unknown kind added to the
header, and no blob makes the decoder panic, if and only if the attribute with the version
leaves room for its number and length in a header whose length fits a word. -/
theorem program_binary_iff (postcard : Postcard V) (hround : postcard.RoundTrips) (p : ProgramBinary V) (huser : p.userElf ≠ [])
    (hkernel : p.kernelElf ≠ []) (hlength : p.userElf.length < 2 ^ 32) : (decode postcard (encode postcard p) = .ok p ∧
      (∀ extras : List (List Byte), (∀ kvBytes ∈ extras, postcard.fromBytes kvBytes = none) →
        (Header.encodeAttributes (p.header.abiVersionAttribute postcard :: extras)).length < 2 ^ 32 →
        decode postcard (frame (Header.encodeAttributes (p.header.abiVersionAttribute postcard :: extras)) p.encodeElfs) = .ok p) ∧
      ∀ blob, decode postcard blob ≠ .error .panic) ↔
    (p.header.abiVersionAttribute postcard).length < 2 ^ 32 - 8 := by
  constructor
  · rintro ⟨h, -, -⟩
    have hfit := fits_of_decode_encode h
    rw [length_encodeHeader] at hfit
    omega
  · intro hshort
    have hfit : (Header.encode postcard p.header).length < 2 ^ 32 := by
      rw [length_encodeHeader]
      omega
    have hdecode := decode_encode hround huser hkernel hlength hfit
    refine ⟨hdecode, fun extras hextras hextended => ?_, noPanic_decode postcard⟩
    rw [← List.singleton_append] at hextended ⊢
    rw [decode_append_unknown hextras hextended]
    exact hdecode

/-- A number in groups of seven bits, lowest first. -/
def varint (n : ℕ) : List Byte :=
  if n < 128 then [BitVec.ofNat 8 n] else BitVec.ofNat 8 (n % 128 + 128) :: varint (n / 128)
termination_by n
decreasing_by omega

def readVarint : List Byte → Option (ℕ × List Byte)
  | [] => none
  | b :: rest =>
    if b.toNat < 128 then some (b.toNat, rest)
    else (readVarint rest).map fun r => (b.toNat - 128 + 128 * r.1, r.2)

theorem readVarint_varint (n : ℕ) (rest : List Byte) : readVarint (varint n ++ rest) = some (n, rest) := by
  induction n using Nat.strong_induction_on with
  | _ n ih =>
    rw [varint]
    split_ifs with hsmall
    · have hbyte : (BitVec.ofNat 8 n).toNat = n := by
        rw [BitVec.toNat_ofNat]
        omega
      rw [singleton_append, readVarint, hbyte, if_pos hsmall]
    · have hbyte : (BitVec.ofNat 8 (n % 128 + 128)).toNat = n % 128 + 128 := by
        rw [BitVec.toNat_ofNat]
        omega
      rw [cons_append, readVarint, hbyte, if_neg (by omega), ih (n / 128) (by omega)]
      show some (n % 128 + 128 - 128 + 128 * (n / 128), rest) = some (n, rest)
      rw [Nat.add_sub_cancel, Nat.mod_add_div]

/-- Versions as they are written, by their text: the index of the variant, that of the kind
and the text with its length. -/
def postcardText : Postcard (List Byte) where
  toAllocvec v := 0 :: (if v.1 = .v1Compat then 0 else 1) :: (varint v.2.length ++ v.2)
  fromBytes
    | 0 :: kind :: bytes =>
      if kind.toNat < 2 then
        (readVarint bytes).bind fun r =>
          if r.1 ≤ r.2.length then some (if kind = 0 then .v1Compat else .linux, r.2.take r.1) else none
      else none
    | _ => none

theorem postcardText_roundTrips : postcardText.RoundTrips := by
  intro ⟨kind, text⟩
  have hread := readVarint_varint text.length text
  cases kind with
  | v1Compat => simp [postcardText, hread]
  | linux => simp [postcardText, hread]

theorem length_toAllocvec (kind : AbiKind) (text : List Byte) :
    (postcardText.toAllocvec (kind, text)).length = (varint text.length).length + text.length + 2 := by
  show ((varint text.length ++ text).length + 1) + 1 = _
  rw [length_append]

theorem program_binary_sample :
    decode postcardText (encode postcardText ⟨⟨.v1Compat, asciiBytes "1.0.0"⟩, [1, 2, 3, 4], [5, 6, 7, 8]⟩) =
      .ok ⟨⟨.v1Compat, asciiBytes "1.0.0"⟩, [1, 2, 3, 4], [5, 6, 7, 8]⟩ := by
  have hshort : ((⟨.v1Compat, asciiBytes "1.0.0"⟩ : Header (List Byte)).abiVersionAttribute postcardText).length < 2 ^ 32 - 8 := by
    have hvarint : varint 5 = [BitVec.ofNat 8 5] := by rw [varint, if_pos (by decide)]
    have htext : (asciiBytes "1.0.0").length = 5 := rfl
    rw [Header.abiVersionAttribute, length_toAllocvec, htext, hvarint]
    decide
  exact ((program_binary_iff postcardText postcardText_roundTrips ⟨⟨.v1Compat, asciiBytes "1.0.0"⟩, [1, 2, 3, 4], [5, 6, 7, 8]⟩
    (by simp) (by simp) (by simp)).mpr hshort).1

theorem decode_encode_long {text : List Byte} (h : 2 ^ 32 ≤ text.length) (userElf kernelElf : List Byte) :
    decode postcardText (encode postcardText ⟨⟨.v1Compat, text⟩, userElf, kernelElf⟩) ≠
      .ok ⟨⟨.v1Compat, text⟩, userElf, kernelElf⟩ := by
  intro hdecode
  have hfit := fits_of_decode_encode hdecode
  have hattribute := length_toAllocvec .v1Compat text
  rw [length_encodeHeader, Header.abiVersionAttribute, hattribute] at hfit
  omega

/-- A version with a pre-release of four gibibytes. -/
theorem program_binary_long_version : ∃ pre : List Byte, pre = List.replicate (2 ^ 32) 0x61 ∧
    decode postcardText (encode postcardText ⟨⟨.v1Compat, asciiBytes "1.0.0-" ++ pre⟩, [1, 2, 3, 4], [5, 6, 7, 8]⟩) ≠
      .ok ⟨⟨.v1Compat, asciiBytes "1.0.0-" ++ pre⟩, [1, 2, 3, 4], [5, 6, 7, 8]⟩ := by
  refine ⟨_, rfl, decode_encode_long ?_ _ _⟩
  rw [List.length_append, List.length_replicate]
  omega

end ProgramBinary

end VerifiableCompute.Binfmt.Binary
