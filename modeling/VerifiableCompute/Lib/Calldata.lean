import VerifiableCompute.Lib.Bytes

/-! Reads from the data of a call. They are not checked; what lies past the end is zero. -/

namespace VerifiableCompute.Lib

open List

/-- So many bytes from a position on. -/
def readBytes (data : List Byte) (p n : ℕ) : List Byte := (data.drop p).takeD n 0

def readWord (data : List Byte) (p : ℕ) : BitVec 256 := BitVec.ofNat 256 (beNat (readBytes data p 32))

theorem readBytes_append (a b c : List Byte) : readBytes (a ++ (b ++ c)) a.length b.length = b := by
  rw [readBytes, drop_left, takeD_eq_take _ (by simp), take_left]

theorem readWord_append (a : List Byte) (x : BitVec 256) (c : List Byte) : readWord (a ++ (wordBytes x ++ c)) a.length = x := by
  have hbytes : readBytes (a ++ (wordBytes x ++ c)) a.length 32 = wordBytes x := by
    have h := readBytes_append a (wordBytes x) c
    rwa [wordBytes_length] at h
  have hnat : beNat (wordBytes x) = x.toNat := (beNat_beBytes 32 x.toNat).trans (Nat.mod_eq_of_lt x.isLt)
  rw [readWord, hbytes, hnat, BitVec.ofNat_toNat, BitVec.setWidth_eq]

theorem readWord_encodeWords (a : List Byte) (words : List (BitVec 256)) (c : List Byte) {i : ℕ} {x : BitVec 256} (h : words[i]? = some x) :
    readWord (a ++ (encodeWords words ++ c)) (a.length + 32 * i) = x := by
  induction words generalizing a i with
  | nil => cases h
  | cons y words ih =>
    have hsplit : a ++ (encodeWords (y :: words) ++ c) = a ++ (wordBytes y ++ (encodeWords words ++ c)) := by
      rw [encodeWords, flatMap_cons, append_assoc]
      rfl
    cases i with
    | zero =>
      obtain rfl := Option.some.inj h
      rw [hsplit]
      exact readWord_append a y _
    | succ i =>
      have hlength : a.length + 32 * (i + 1) = (a ++ wordBytes y).length + 32 * i := by
        rw [length_append, wordBytes_length]
        ring
      rw [hsplit, ← append_assoc, hlength]
      exact ih (a ++ wordBytes y) h

/-- A string inside the data of a call. -/
structure CalldataSlice where
  calldata : List Byte
  offset : ℕ
  length : ℕ
  inside : offset + length ≤ calldata.length
  bounded : calldata.length < 2 ^ 256

namespace CalldataSlice

variable (d : CalldataSlice)

def bytes : List Byte := (d.calldata.drop d.offset).take d.length

theorem bytes_length : d.bytes.length = d.length := by
  have := d.inside
  rw [bytes, length_take, length_drop]
  omega

theorem calldata_eq : ∃ before after, before.length = d.offset ∧ d.calldata = before ++ (d.bytes ++ after) := by
  have := d.inside
  refine ⟨d.calldata.take d.offset, (d.calldata.drop d.offset).drop d.length, ?_, ?_⟩
  · rw [length_take]
    omega
  · rw [bytes, take_append_drop, take_append_drop]

end CalldataSlice

/-! Byte memory with a pointer to where it is free. Strings are laid out one after another, each behind a word for
its length, and are copied by whole words. -/

structure ScratchMemory where
  byte : ℕ → Byte
  free : ℕ

namespace ScratchMemory

/-- The bytes from an address on. -/
def load (m : ScratchMemory) (p n : ℕ) : List Byte := (List.range n).map fun i => m.byte (p + i)

def store (m : ScratchMemory) (p : ℕ) (bytes : List Byte) : ScratchMemory :=
  { m with byte := fun q => if p ≤ q ∧ q < p + bytes.length then bytes.getD (q - p) 0 else m.byte q }

/-- A new string; its bytes start a word behind its pointer, and it takes up whole words. -/
def alloc (m : ScratchMemory) (bytes : List Byte) : ScratchMemory × ℕ :=
  ({ m.store (m.free + 32) bytes with free := m.free + 32 + 32 * ((bytes.length + 31) / 32) }, m.free)

/-- Word by word, until `n` bytes are copied. -/
def copyWords (m : ScratchMemory) (dest src n : ℕ) : ScratchMemory :=
  (List.range ((n + 31) / 32)).foldl (fun m j => m.store (dest + 32 * j) (m.load (src + 32 * j) 32)) m

variable {m : ScratchMemory}

@[simp] theorem load_length (p n : ℕ) : (m.load p n).length = n := by simp [load]

variable {i p n k dest src : ℕ}

theorem load_getElem (p n : ℕ) (hi : i < (m.load p n).length) : (m.load p n)[i] = m.byte (p + i) := by
  simp only [load, getElem_map, getElem_range]

theorem load_congr {m' : ScratchMemory} {p' : ℕ} (h : ∀ i < n, m'.byte (p' + i) = m.byte (p + i)) : m'.load p' n = m.load p n :=
  map_congr_left fun i hi => h i (mem_range.mp hi)

theorem load_take (h : k ≤ n) : (m.load p n).take k = m.load p k := by
  rw [load, load, ← map_take, take_range, Nat.min_eq_left h]

theorem store_byte_inside (p : ℕ) (bytes : List Byte) (hi : i < bytes.length) : (m.store p bytes).byte (p + i) = bytes[i] := by
  change (if p ≤ p + i ∧ p + i < p + bytes.length then bytes.getD (p + i - p) 0 else m.byte (p + i)) = _
  rw [if_pos ⟨Nat.le_add_right p i, Nat.add_lt_add_left hi p⟩, Nat.add_sub_cancel_left, getD_eq_getElem _ _ hi]

theorem store_byte_outside (p : ℕ) (bytes : List Byte) {q : ℕ} (hq : ¬(p ≤ q ∧ q < p + bytes.length)) : (m.store p bytes).byte q = m.byte q :=
  if_neg hq

/-- The string that a pointer points to. -/
structure Holds (m : ScratchMemory) (ptr : ℕ) (bytes : List Byte) : Prop where
  contents : m.load (ptr + 32) bytes.length = bytes
  below : ptr + 32 + bytes.length ≤ m.free

theorem alloc_holds (m : ScratchMemory) (bytes : List Byte) : (m.alloc bytes).1.Holds (m.alloc bytes).2 bytes where
  contents := by
    apply ext_getElem (load_length _ _)
    intro i _ hi
    rw [load_getElem]
    exact store_byte_inside (m.free + 32) bytes hi
  below := by
    dsimp only [alloc]
    omega

theorem Holds.alloc {ptr : ℕ} {bytes : List Byte} (h : m.Holds ptr bytes) (new : List Byte) : (m.alloc new).1.Holds ptr bytes where
  contents := by
    have hbelow := h.below
    refine (load_congr fun i hi => ?_).trans h.contents
    exact store_byte_outside _ _ (by omega)
  below := by
    have hbelow := h.below
    dsimp only [ScratchMemory.alloc]
    omega

/-- Nothing below the destination changes, and from there on are the first bytes of the source below it. -/
theorem copyWords_bytes (h : src + n ≤ dest) (j : ℕ) :
    let m' := (range j).foldl (fun m j => m.store (dest + 32 * j) (m.load (src + 32 * j) 32)) m
    (∀ q < dest, m'.byte q = m.byte q) ∧ ∀ k < n, k < 32 * j → m'.byte (dest + k) = m.byte (src + k) := by
  induction j with
  | zero => exact ⟨fun _ _ => rfl, fun k _ hk => absurd hk (by omega)⟩
  | succ j ih =>
    dsimp only at ih ⊢
    rw [range_succ, foldl_append, foldl_cons, foldl_nil]
    obtain ⟨hbelow, hcopied⟩ := ih
    refine ⟨fun q hq => ?_, fun k hkn hk => ?_⟩
    · rw [store_byte_outside _ _ (by omega), hbelow q hq]
    · by_cases hearlier : k < 32 * j
      · rw [store_byte_outside _ _ (by omega), hcopied k hkn hearlier]
      · obtain ⟨i, rfl⟩ := Nat.exists_eq_add_of_le (not_lt.mp hearlier)
        rw [← Nat.add_assoc, store_byte_inside _ _ (by rw [load_length]; omega), load_getElem, hbelow _ (by omega), Nat.add_assoc]

theorem copyWords_load (h : src + n ≤ dest) : (m.copyWords dest src n).load dest n = m.load src n :=
  load_congr fun k hk => (copyWords_bytes h _).2 k hk (by omega)

theorem copyWords_load_below (h : src + n ≤ dest) (hp : p + k ≤ dest) : (m.copyWords dest src n).load p k = m.load p k :=
  load_congr fun i hi => (copyWords_bytes h _).1 _ (by omega)

end ScratchMemory

end VerifiableCompute.Lib
