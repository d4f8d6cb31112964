import VerifiableCompute.Binfmt.Hash
import VerifiableCompute.Lib.Keccak

/-! The states of the keccak accelerator and the cells of the sponge that hashes them. The
sponge's mixing function is a parameter throughout. -/

namespace VerifiableCompute.KeccakClaim

open Lib Binfmt

abbrev KeccakState := Vector (BitVec 64) 25

/-- The elements of the field BabyBear. -/
abbrev BabyBearElem := Fin 2013265921

instance babyBear_neZero : NeZero 2013265921 := ⟨Nat.succ_ne_zero 2013265920⟩

namespace BabyBearElem

def new (x : BitVec 32) : BabyBearElem := Fin.ofNat 2013265921 x.toNat

def asU32 (e : BabyBearElem) : BitVec 32 := BitVec.ofNat 32 e.val

@[simp] theorem new_asU32 (e : BabyBearElem) : new (asU32 e) = e := by
  apply Fin.ext
  have h := e.isLt
  simp only [new, asU32, Fin.ofNat, BitVec.toNat_ofNat]
  omega

end BabyBearElem

/-- The sponge's state: sixteen cells of rate, then eight of capacity. -/
abbrev Cells := Vector BabyBearElem 24

abbrev DigestWords := Vector (BitVec 32) 8

def DigestWords.zero : DigestWords := .replicate 8 0

/-- A digest's bytes, the low byte of each word first. -/
def DigestWords.toDigest (words : DigestWords) : Digest :=
  .ofFn fun i => ((words.toList.getD (i / 4) 0) >>> (8 * (i.val % 4))).setWidth 8

def Cells.zero : Cells := .replicate 24 0

def Cells.withRate (cells : Cells) (rate : ℕ → BitVec 32) : Cells :=
  .ofFn fun i => if i.val < 16 then .new (rate i) else cells.get i

def Cells.capacity (cells : Cells) : DigestWords :=
  .ofFn fun i => (cells.get (i.natAdd 16)).asU32

/-- The cells of a stored capacity, and a rate of zeros. -/
def Cells.ofCapacity (words : DigestWords) : Cells :=
  .ofFn fun i => if i.val < 16 then 0 else .new (words.toList.getD (i - 16) 0)

theorem Cells.withRate_congr {cells cells' : Cells} (h : cells.capacity = cells'.capacity) (rate : ℕ → BitVec 32) :
    cells.withRate rate = cells'.withRate rate := by
  apply Vector.ext
  intro i hi
  simp only [withRate, Vector.getElem_ofFn]
  split
  · rfl
  · rename_i hge
    have hlow : i - 16 < 8 := by omega
    have hcell : cells.capacity[i - 16] = cells'.capacity[i - 16] := by rw [h]
    simp only [capacity, Vector.getElem_ofFn] at hcell
    have hback := congrArg BabyBearElem.new hcell
    rw [BabyBearElem.new_asU32, BabyBearElem.new_asU32] at hback
    have hindex : (Fin.natAdd 16 (⟨i - 16, by omega⟩ : Fin 8) : Fin 24) = ⟨i, hi⟩ := Fin.ext (by simp; omega)
    rw [hindex] at hback
    exact hback

@[simp] theorem Cells.capacity_ofCapacity (cells : Cells) : (ofCapacity cells.capacity).capacity = cells.capacity := by
  apply Vector.ext
  intro i hi
  simp [capacity, ofCapacity]

@[simp] theorem Cells.capacity_zero : zero.capacity = DigestWords.zero := by decide

def KECCAK_DEFAULT_PO2 : ℕ := 17

def KECCAK_PERMUTE_CYCLES : ℕ := 200

def maxKeccakInputs (po2 : ℕ) : ℕ := 2 ^ po2 / KECCAK_PERMUTE_CYCLES

def KECCAK_CONTROL_ROOT : Digest :=
  #v[0xde, 0x5b, 0x02, 0x3a, 0x90, 0xa1, 0x12, 0x1f, 0x26, 0x23, 0x9e, 0x25, 0x30, 0xd1, 0x23, 0x00,
     0xea, 0x03, 0x19, 0x0c, 0x24, 0x01, 0x43, 0x6f, 0x9f, 0x31, 0x21, 0x36, 0x8a, 0x4f, 0x22, 0x0a]

/-- What the prover accepts as the size of a batch's proof. -/
def InKeccakPo2Range (po2 : ℕ) : Prop := 14 ≤ po2 ∧ po2 ≤ 18

instance (po2 : ℕ) : Decidable (InKeccakPo2Range po2) := inferInstanceAs (Decidable (_ ∧ _))

def f1600 (s : KeccakState) : KeccakState :=
  let lanes := Keccak.permutation (s.toList.map (·.toNat))
  .ofFn fun i => BitVec.ofNat 64 (lanes.getD i 0)

theorem maxKeccakInputs_pos {po2 : ℕ} (h : InKeccakPo2Range po2) : 0 < maxKeccakInputs po2 := by
  have hpow : 2 ^ 14 ≤ 2 ^ po2 := Nat.pow_le_pow_right (by omega) h.1
  exact Nat.div_pos (by simp only [KECCAK_PERMUTE_CYCLES]; omega) (by decide)

end VerifiableCompute.KeccakClaim
