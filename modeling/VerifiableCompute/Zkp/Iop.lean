import VerifiableCompute.Zkp.MerkleGroup

/-! The transcript of a proof: words that the prover writes and the verifier reads, and the
generator of random challenges that both feed with commitments. -/

namespace VerifiableCompute.Zkp

open Lib Vector

abbrev Word := BitVec 32

/-- How many words an element takes, and how it is laid out. -/
class ElemWords (Elem : Type) where
  WORDS : ℕ
  toWords : Elem → List Word
  ofWords : List Word → Option Elem
  length_toWords : ∀ elem, (toWords elem).length = WORDS
  ofWords_toWords : ∀ elem, ofWords (toWords elem) = some elem

open ElemWords

/-- The state that challenges are drawn from takes in what is committed to. -/
structure Rng (σ : Type) where
  mix : Digest → σ → σ

inductive VerificationError
  | receiptFormatError
  | merkleQueryOutOfRange (idx rows : ℕ)
  | invalidProof
  | panic
  | uninitialized

structure ReadIOP (σ : Type) where
  proof : List Word
  rng : σ

structure WriteIOP (σ : Type) where
  proof : List Word
  rng : σ

abbrev Read (σ : Type) := StateT (ReadIOP σ) (Except VerificationError)

variable {Elem σ α β : Type} [ElemWords Elem]

def wordsOfElems (elems : List Elem) : List Word := elems.flatMap toWords

def elemsOfWords : ℕ → List Word → Option (List Elem)
  | 0, _ => some []
  | n + 1, words => do
    let elem ← ofWords (words.take (WORDS Elem))
    return elem :: (← elemsOfWords n (words.drop (WORDS Elem)))

def wordsOfDigests (digests : List Digest) : List Word := digests.flatMap (·.toList)

def digestsOfWords : ℕ → List Word → List Digest
  | 0, _ => []
  | n + 1, words => .ofFn (fun i => words.getD i 0) :: digestsOfWords n (words.drop 8)

theorem length_wordsOfElems (elems : List Elem) : (wordsOfElems elems).length = elems.length * WORDS Elem := by
  induction elems with
  | nil => exact (Nat.zero_mul _).symm
  | cons elem elems ih =>
    rw [wordsOfElems, List.flatMap_cons, List.length_append, length_toWords, List.length_cons, Nat.succ_mul, Nat.add_comm]
    exact congrArg (· + WORDS Elem) ih

theorem elemsOfWords_wordsOfElems (elems : List Elem) : elemsOfWords elems.length (wordsOfElems elems) = some elems := by
  induction elems with
  | nil => rfl
  | cons elem elems ih =>
    rw [wordsOfElems, List.flatMap_cons, List.length_cons, elemsOfWords, List.take_left' (length_toWords elem),
      List.drop_left' (length_toWords elem), ofWords_toWords]
    show (do return elem :: (← elemsOfWords elems.length (wordsOfElems elems))) = _
    rw [ih]
    rfl

theorem length_wordsOfDigests (digests : List Digest) : (wordsOfDigests digests).length = digests.length * 8 := by
  induction digests with
  | nil => rfl
  | cons digest digests ih =>
    rw [wordsOfDigests, List.flatMap_cons, List.length_append, length_toList, List.length_cons, Nat.succ_mul,
      Nat.add_comm]
    exact congrArg (· + 8) ih

theorem digestsOfWords_wordsOfDigests (digests : List Digest) :
    digestsOfWords digests.length (wordsOfDigests digests) = digests := by
  induction digests with
  | nil => rfl
  | cons digest digests ih =>
    rw [wordsOfDigests, List.flatMap_cons, List.length_cons, digestsOfWords, List.drop_left' (length_toList ..)]
    congr 1
    apply Vector.ext
    intro i hi
    rw [getElem_ofFn, List.getD_append _ _ _ _ (by rwa [length_toList]),
      List.getD_eq_getElem _ _ (by rwa [length_toList]), getElem_toList]

theorem length_digestsOfWords (n : ℕ) (words : List Word) : (digestsOfWords n words).length = n := by
  induction n generalizing words with
  | zero => rfl
  | succ n ih => rw [digestsOfWords, List.length_cons, ih]

def readU32s (n : ℕ) : Read σ (List Word) := fun iop =>
  if n ≤ iop.proof.length then .ok (iop.proof.take n, ⟨iop.proof.drop n, iop.rng⟩) else .error .receiptFormatError

def readFieldElemSlice (Elem : Type) [ElemWords Elem] (n : ℕ) : Read σ (List Elem) := do
  match elemsOfWords n (← readU32s (n * WORDS Elem)) with
  | some elems => return elems
  | none => throw .receiptFormatError

def readPodSlice (n : ℕ) : Read σ (List Digest) := do return digestsOfWords n (← readU32s (n * 8))

def ReadIOP.commit (rng : Rng σ) (digest : Digest) : Read σ Unit := fun iop =>
  .ok ((), ⟨iop.proof, rng.mix digest iop.rng⟩)

variable {r : Read σ α} {f : α → Read σ β} {x : Except VerificationError α} {a : α} {s s' s'' : σ} {words : List Word} {b : β}

theorem Read.bind_ok_iff {iop : ReadIOP σ} {result : β × ReadIOP σ} :
    (r >>= f) iop = .ok result ↔ ∃ a iop', r iop = .ok (a, iop') ∧ f a iop' = .ok result := by
  show (r iop >>= fun p => f p.1 p.2) = _ ↔ _
  rw [Lib.bind_ok_iff, Prod.exists]

theorem Read.lift_ok_iff {iop iop' : ReadIOP σ} :
    (liftM x : Read σ α) iop = .ok (a, iop') ↔ x = .ok a ∧ iop' = iop := by
  show (x >>= fun a => .ok (a, iop)) = _ ↔ _
  cases x <;> simp [bind, Except.bind, eq_comm]

/-- Reading takes exactly these words, from one state of the generator to another. -/
def Reads (r : Read σ α) (s : σ) (words : List Word) (a : α) (s' : σ) : Prop :=
  ∀ rest, r ⟨words ++ rest, s⟩ = .ok (a, ⟨rest, s'⟩)

theorem Reads.pure (a : α) (s : σ) : Reads (pure a) s [] a s := fun _ => rfl

theorem Reads.lift (h : x = .ok a) (s : σ) : Reads (liftM x) s [] a s :=
  fun _ => Read.lift_ok_iff.mpr ⟨h, rfl⟩

theorem Reads.bind {words' : List Word}
    (h : Reads r s words a s') (h' : Reads (f a) s' words' b s'') : Reads (r >>= f) s (words ++ words') b s'' := by
  intro rest
  rw [Read.bind_ok_iff, List.append_assoc]
  exact ⟨a, ⟨words' ++ rest, s'⟩, h _, h' rest⟩

theorem Reads.then
    (h : Reads r s [] a s') (h' : Reads (f a) s' words b s'') : Reads (r >>= f) s words b s'' := h.bind h'

/-- The last of the words are taken before a step that takes none. -/
theorem Reads.finally (h : Reads r s words a s') (h' : Reads (f a) s' [] b s'') : Reads (r >>= f) s words b s'' :=
  List.append_nil words ▸ h.bind h'

theorem reads_u32s (words : List Word) (s : σ) : Reads (readU32s words.length) s words words s := by
  intro rest
  rw [readU32s, if_pos (by rw [List.length_append]; omega), List.take_left, List.drop_left]

theorem reads_fieldElemSlice (elems : List Elem) (s : σ) :
    Reads (readFieldElemSlice Elem elems.length) s (wordsOfElems elems) elems s := by
  rw [readFieldElemSlice, ← length_wordsOfElems]
  refine (reads_u32s _ s).finally ?_
  rw [elemsOfWords_wordsOfElems]
  exact .pure elems s

theorem reads_podSlice (digests : List Digest) (s : σ) : Reads (readPodSlice digests.length) s (wordsOfDigests digests) digests s := by
  rw [readPodSlice, ← length_wordsOfDigests]
  refine (reads_u32s _ s).finally ?_
  rw [digestsOfWords_wordsOfDigests]
  exact .pure digests s

def WriteIOP.writeFieldElemSlice (elems : List Elem) (iop : WriteIOP σ) : WriteIOP σ := ⟨iop.proof ++ wordsOfElems elems, iop.rng⟩

def WriteIOP.writePodSlice (digests : List Digest) (iop : WriteIOP σ) : WriteIOP σ := ⟨iop.proof ++ wordsOfDigests digests, iop.rng⟩

def WriteIOP.commit (rng : Rng σ) (digest : Digest) (iop : WriteIOP σ) : WriteIOP σ := ⟨iop.proof, rng.mix digest iop.rng⟩

end VerifiableCompute.Zkp
