import VerifiableCompute.Lib.Rounds
import VerifiableCompute.Zkp.BabyBear

/-! The Poseidon2 permutation, with its linear layers computed by sums, and the permutation of the
specification, with them as matrices. -/

namespace VerifiableCompute.Zkp.Poseidon2

open Lib BabyBear Matrix Function

def babyBearArray (xs : List U32) : List Elem := xs.map .new

abbrev CELLS : ℕ := 24

def ROUNDS_HALF_FULL : ℕ := 4

def ROUNDS_PARTIAL : ℕ := 21

def ROUND_CONSTANTS : List Elem := babyBearArray
  [0x0FA20C37, 0x0795BB97, 0x12C60B9C, 0x0EABD88E, 0x096485CA, 0x07093527, 0x1B1D4E50, 0x30A01ACE,
   0x3BD86F5A, 0x69AF7C28, 0x3F94775F, 0x731560E8, 0x465A0ECD, 0x574EF807, 0x62FD4870, 0x52CCFE44,
   0x14772B14, 0x4DEDF371, 0x260ACD7C, 0x1F51DC58, 0x75125532, 0x686A4D7B, 0x54BAC179, 0x31947706,
   0x29799D3B, 0x6E01AE90, 0x203A7A64, 0x4F7E25BE, 0x72503F77, 0x45BD3B69, 0x769BD6B4, 0x5A867F08,
   0x4FDBA082, 0x251C4318, 0x28F06201, 0x6788C43A, 0x4C6D6A99, 0x357784A8, 0x2ABAF051, 0x770F7DE6,
   0x1794B784, 0x4796C57A, 0x724B7A10, 0x449989A7, 0x64935CF1, 0x59E14AAC, 0x0E620BB8, 0x3AF5A33B,
   0x4465CC0E, 0x019DF68F, 0x4AF8D068, 0x08784F82, 0x0CEFDEAE, 0x6337A467, 0x32FA7A16, 0x486F62D6,
   0x386A7480, 0x20F17C4A, 0x54E50DA8, 0x2012CF03, 0x5FE52950, 0x09AFB6CD, 0x2523044E, 0x5C54D0EF,
   0x71C01F3C, 0x60B2C4FB, 0x4050B379, 0x5E6A70A5, 0x418543F5, 0x71DEBE56, 0x1AAD2994, 0x3368A483,
   0x07A86F3A, 0x5EA43FF1, 0x2443780E, 0x4CE444F7, 0x146F9882, 0x3132B089, 0x197EA856, 0x667030C3,
   0x2317D5DC, 0x0C2C48A7, 0x56B2DF66, 0x67BD81E9, 0x4FCDFB19, 0x4BAAEF32, 0x0328D30A, 0x6235760D,
   0x12432912, 0x0A49E258, 0x030E1B70, 0x48CAEB03, 0x49E4D9E9, 0x1051B5C6, 0x6A36DBBE, 0x4CFF27A5,
   0x1DA78EC2, 0, 0, 0, 0, 0, 0, 0, 0, 0, 0, 0, 0, 0, 0, 0, 0, 0, 0, 0, 0, 0, 0, 0,
   0x730B0924, 0, 0, 0, 0, 0, 0, 0, 0, 0, 0, 0, 0, 0, 0, 0, 0, 0, 0, 0, 0, 0, 0, 0,
   0x3EB56CF3, 0, 0, 0, 0, 0, 0, 0, 0, 0, 0, 0, 0, 0, 0, 0, 0, 0, 0, 0, 0, 0, 0, 0,
   0x5BD93073, 0, 0, 0, 0, 0, 0, 0, 0, 0, 0, 0, 0, 0, 0, 0, 0, 0, 0, 0, 0, 0, 0, 0,
   0x37204C97, 0, 0, 0, 0, 0, 0, 0, 0, 0, 0, 0, 0, 0, 0, 0, 0, 0, 0, 0, 0, 0, 0, 0,
   0x51642D89, 0, 0, 0, 0, 0, 0, 0, 0, 0, 0, 0, 0, 0, 0, 0, 0, 0, 0, 0, 0, 0, 0, 0,
   0x66E943E8, 0, 0, 0, 0, 0, 0, 0, 0, 0, 0, 0, 0, 0, 0, 0, 0, 0, 0, 0, 0, 0, 0, 0,
   0x1A3E72DE, 0, 0, 0, 0, 0, 0, 0, 0, 0, 0, 0, 0, 0, 0, 0, 0, 0, 0, 0, 0, 0, 0, 0,
   0x70BEB1E9, 0, 0, 0, 0, 0, 0, 0, 0, 0, 0, 0, 0, 0, 0, 0, 0, 0, 0, 0, 0, 0, 0, 0,
   0x30FF3B3F, 0, 0, 0, 0, 0, 0, 0, 0, 0, 0, 0, 0, 0, 0, 0, 0, 0, 0, 0, 0, 0, 0, 0,
   0x4240D1C4, 0, 0, 0, 0, 0, 0, 0, 0, 0, 0, 0, 0, 0, 0, 0, 0, 0, 0, 0, 0, 0, 0, 0,
   0x12647B8D, 0, 0, 0, 0, 0, 0, 0, 0, 0, 0, 0, 0, 0, 0, 0, 0, 0, 0, 0, 0, 0, 0, 0,
   0x65D86965, 0, 0, 0, 0, 0, 0, 0, 0, 0, 0, 0, 0, 0, 0, 0, 0, 0, 0, 0, 0, 0, 0, 0,
   0x49EF4D7C, 0, 0, 0, 0, 0, 0, 0, 0, 0, 0, 0, 0, 0, 0, 0, 0, 0, 0, 0, 0, 0, 0, 0,
   0x47785697, 0, 0, 0, 0, 0, 0, 0, 0, 0, 0, 0, 0, 0, 0, 0, 0, 0, 0, 0, 0, 0, 0, 0,
   0x46B3969F, 0, 0, 0, 0, 0, 0, 0, 0, 0, 0, 0, 0, 0, 0, 0, 0, 0, 0, 0, 0, 0, 0, 0,
   0x5C7B7A0E, 0, 0, 0, 0, 0, 0, 0, 0, 0, 0, 0, 0, 0, 0, 0, 0, 0, 0, 0, 0, 0, 0, 0,
   0x7078FC60, 0, 0, 0, 0, 0, 0, 0, 0, 0, 0, 0, 0, 0, 0, 0, 0, 0, 0, 0, 0, 0, 0, 0,
   0x4F22D482, 0, 0, 0, 0, 0, 0, 0, 0, 0, 0, 0, 0, 0, 0, 0, 0, 0, 0, 0, 0, 0, 0, 0,
   0x482A9AEE, 0, 0, 0, 0, 0, 0, 0, 0, 0, 0, 0, 0, 0, 0, 0, 0, 0, 0, 0, 0, 0, 0, 0,
   0x6BEB839D, 0, 0, 0, 0, 0, 0, 0, 0, 0, 0, 0, 0, 0, 0, 0, 0, 0, 0, 0, 0, 0, 0, 0,
   0x032959AD, 0x2B18AF6A, 0x55D3DC8C, 0x43BD26C8, 0x0C41595F, 0x7048D2E2, 0x00DB8983, 0x2AF563D7,
   0x6E84758F, 0x611D64E1, 0x1F9977E2, 0x64163A0A, 0x5C5FC27B, 0x02E22561, 0x3A2D75DB, 0x1BA7B71A,
   0x34343F64, 0x7406B35D, 0x19DF8299, 0x6FF4480A, 0x514A81C8, 0x57AB52CE, 0x6AD69F52, 0x3E0C0E0D,
   0x48126114, 0x2A9D62CC, 0x17441F23, 0x485762BB, 0x2F218674, 0x06FDC64A, 0x0861B7F2, 0x3B36EEE6,
   0x70A11040, 0x04B31737, 0x3722A872, 0x2A351C63, 0x623560DC, 0x62584AB2, 0x382C7C04, 0x3BF9EDC7,
   0x0E38FE51, 0x376F3B10, 0x5381E178, 0x3AFC61C7, 0x5C1BCB4D, 0x6643CE1F, 0x2D0AF1C1, 0x08F583CC,
   0x5D6FF60F, 0x6324C1E5, 0x74412FB7, 0x70C0192E, 0x0B72F141, 0x4067A111, 0x57388C4F, 0x351009EC,
   0x0974C159, 0x539A58B3, 0x038C0CFF, 0x476C0392, 0x3F7BC15F, 0x4491DD2C, 0x4D1FEF55, 0x04936AE3,
   0x58214DD4, 0x683C6AAD, 0x1B42F16B, 0x6DC79135, 0x2D4E71EC, 0x3E2946EA, 0x59DCE8DB, 0x6CEE892A,
   0x47F07350, 0x7106CE93, 0x3BD4A7A9, 0x2BFE636A, 0x430011E9, 0x001CD66A, 0x307FAF5B, 0x0D9EF3FE,
   0x6D40043A, 0x2E8F470C, 0x1B6865E8, 0x0C0E6C01, 0x4D41981F, 0x423B9D3D, 0x410408CC, 0x263F0884,
   0x5311BBD0, 0x4DAE58D8, 0x30401CEA, 0x09AFA575, 0x4B3D5B42, 0x63AC0B37, 0x5FE5BB14, 0x5244E9D4]

def extEntries : List U32 :=
  [10, 14, 2, 6, 5, 7, 1, 3, 5, 7, 1, 3, 5, 7, 1, 3, 5, 7, 1, 3, 5, 7, 1, 3, 8, 12, 2, 2, 4, 6, 1, 1, 4, 6, 1,
   1, 4, 6, 1, 1, 4, 6, 1, 1, 4, 6, 1, 1, 2, 6, 10, 14, 1, 3, 5, 7, 1, 3, 5, 7, 1, 3, 5, 7, 1, 3, 5, 7, 1, 3,
   5, 7, 2, 2, 8, 12, 1, 1, 4, 6, 1, 1, 4, 6, 1, 1, 4, 6, 1, 1, 4, 6, 1, 1, 4, 6, 5, 7, 1, 3, 10, 14, 2, 6, 5,
   7, 1, 3, 5, 7, 1, 3, 5, 7, 1, 3, 5, 7, 1, 3, 4, 6, 1, 1, 8, 12, 2, 2, 4, 6, 1, 1, 4, 6, 1, 1, 4, 6, 1, 1,
   4, 6, 1, 1, 1, 3, 5, 7, 2, 6, 10, 14, 1, 3, 5, 7, 1, 3, 5, 7, 1, 3, 5, 7, 1, 3, 5, 7, 1, 1, 4, 6, 2, 2, 8,
   12, 1, 1, 4, 6, 1, 1, 4, 6, 1, 1, 4, 6, 1, 1, 4, 6, 5, 7, 1, 3, 5, 7, 1, 3, 10, 14, 2, 6, 5, 7, 1, 3, 5, 7,
   1, 3, 5, 7, 1, 3, 4, 6, 1, 1, 4, 6, 1, 1, 8, 12, 2, 2, 4, 6, 1, 1, 4, 6, 1, 1, 4, 6, 1, 1, 1, 3, 5, 7, 1,
   3, 5, 7, 2, 6, 10, 14, 1, 3, 5, 7, 1, 3, 5, 7, 1, 3, 5, 7, 1, 1, 4, 6, 1, 1, 4, 6, 2, 2, 8, 12, 1, 1, 4, 6,
   1, 1, 4, 6, 1, 1, 4, 6, 5, 7, 1, 3, 5, 7, 1, 3, 5, 7, 1, 3, 10, 14, 2, 6, 5, 7, 1, 3, 5, 7, 1, 3, 4, 6, 1,
   1, 4, 6, 1, 1, 4, 6, 1, 1, 8, 12, 2, 2, 4, 6, 1, 1, 4, 6, 1, 1, 1, 3, 5, 7, 1, 3, 5, 7, 1, 3, 5, 7, 2, 6,
   10, 14, 1, 3, 5, 7, 1, 3, 5, 7, 1, 1, 4, 6, 1, 1, 4, 6, 1, 1, 4, 6, 2, 2, 8, 12, 1, 1, 4, 6, 1, 1, 4, 6, 5,
   7, 1, 3, 5, 7, 1, 3, 5, 7, 1, 3, 5, 7, 1, 3, 10, 14, 2, 6, 5, 7, 1, 3, 4, 6, 1, 1, 4, 6, 1, 1, 4, 6, 1, 1,
   4, 6, 1, 1, 8, 12, 2, 2, 4, 6, 1, 1, 1, 3, 5, 7, 1, 3, 5, 7, 1, 3, 5, 7, 1, 3, 5, 7, 2, 6, 10, 14, 1, 3, 5,
   7, 1, 1, 4, 6, 1, 1, 4, 6, 1, 1, 4, 6, 1, 1, 4, 6, 2, 2, 8, 12, 1, 1, 4, 6, 5, 7, 1, 3, 5, 7, 1, 3, 5, 7,
   1, 3, 5, 7, 1, 3, 5, 7, 1, 3, 10, 14, 2, 6, 4, 6, 1, 1, 4, 6, 1, 1, 4, 6, 1, 1, 4, 6, 1, 1, 4, 6, 1, 1, 8,
   12, 2, 2, 1, 3, 5, 7, 1, 3, 5, 7, 1, 3, 5, 7, 1, 3, 5, 7, 1, 3, 5, 7, 2, 6, 10, 14, 1, 1, 4, 6, 1, 1, 4, 6,
   1, 1, 4, 6, 1, 1, 4, 6, 1, 1, 4, 6, 2, 2, 8, 12]

def M_EXT : List Elem := babyBearArray extEntries

def M_INT_DIAG_HZN : List Elem := babyBearArray
  [0x409133f0, 0x1667a8a1, 0x06a6c7b6, 0x6f53160e, 0x273b11d1, 0x03176c5d, 0x72f9bbf9, 0x73ceba91, 0x5cdef81d,
   0x01393285, 0x46daee06, 0x065d7ba6, 0x52d72d6f, 0x05dd05e0, 0x3bab4b63, 0x6ada3842, 0x2fc5fbec, 0x770d61b0,
   0x5715aae9, 0x03ef0e90, 0x75b6c770, 0x242adf5f, 0x00d0ca4c, 0x36c0e388]

scoped instance instNeZeroCells : NeZero CELLS := ⟨by decide⟩
scoped instance instAtLeastTwoTwo : Nat.AtLeastTwo 2 := ⟨by norm_num⟩
scoped instance instAtLeastTwoThree : Nat.AtLeastTwo 3 := ⟨by norm_num⟩
scoped instance instAtLeastTwoFour : Nat.AtLeastTwo 4 := ⟨by norm_num⟩
scoped instance instAtLeastTwoFive : Nat.AtLeastTwo 5 := ⟨by norm_num⟩
scoped instance instAtLeastTwoSix : Nat.AtLeastTwo 6 := ⟨by norm_num⟩
scoped instance instAtLeastTwoSeven : Nat.AtLeastTwo 7 := ⟨by norm_num⟩

abbrev Cells := Vector Elem CELLS

section

variable (cells : Cells)

def addRoundConstantsFull (round : ℕ) : Cells :=
  .ofFn fun i => cells.get i + ROUND_CONSTANTS.getD (round * CELLS + i) 0

def addRoundConstantsPartial (round : ℕ) : Cells :=
  .ofFn fun i => if i = 0 then cells.get i + ROUND_CONSTANTS.getD (round * CELLS) 0 else cells.get i

def sbox (x : Elem) : Elem :=
  let x2 := x * x
  let x4 := x2 * x2
  let x6 := x4 * x2
  x6 * x

def doFullSboxes : Cells := cells.map sbox

def doPartialSboxes : Cells := .ofFn fun i => if i = 0 then sbox (cells.get i) else cells.get i

def multiplyByMInt : Cells :=
  let sum := (List.finRange CELLS).foldl (fun acc i => acc + cells.get i) 0
  .ofFn fun i => sum + M_INT_DIAG_HZN.getD i 0 * cells.get i

def multiplyBy4x4Circulant (x : Vector Elem 4) : Vector Elem 4 :=
  let t0 := x.get 0 + x.get 1
  let t1 := x.get 2 + x.get 3
  let t2 := .new 2#32 * x.get 1 + t1
  let t3 := .new 2#32 * x.get 3 + t0
  let t4 := .new 4#32 * t1 + t3
  let t5 := .new 4#32 * t0 + t2
  let t6 := t3 + t5
  let t7 := t2 + t4
  #v[t6, t5, t7, t4]

theorem cellAt_lt (i : Fin 6) (j : Fin 4) : i.val * 4 + j.val < 24 := by omega

theorem chunkOf_lt (k : Fin 24) : k.val / 4 < 6 := by omega

def cellAt (i : Fin 6) (j : Fin 4) : Fin CELLS := ⟨i * 4 + j, cellAt_lt i j⟩

def chunkOf (k : Fin CELLS) : Fin 6 := ⟨k / 4, chunkOf_lt k⟩

def slotOf (k : Fin CELLS) : Fin 4 := ⟨k % 4, Nat.mod_lt k four_pos⟩

/-- What the circulant makes of chunk `i`. -/
def chunkOut (i : Fin 6) : Vector Elem 4 :=
  multiplyBy4x4Circulant (.ofFn fun j => cells.get (cellAt i j))

/-- The loop over the chunks adds each to the sums and to its own cells. -/
def addChunk (old : Cells) (s : Vector Elem 4 × Cells) (i : Fin 6) : Vector Elem 4 × Cells :=
  (.ofFn fun j => s.1.get j + (chunkOut old i).get j,
    .ofFn fun k => if chunkOf k = i then s.2.get k + (chunkOut old i).get (slotOf k) else s.2.get k)

def multiplyByMExt : Cells :=
  let s := (List.finRange 6).foldl (addChunk cells) (.replicate 4 0, .replicate CELLS 0)
  .ofFn fun k => s.2.get k + s.1.get (slotOf k)

def fullRound (round : ℕ) : Cells := multiplyByMExt (doFullSboxes (addRoundConstantsFull cells round))

def partialRound (round : ℕ) : Cells :=
  multiplyByMInt (doPartialSboxes (addRoundConstantsPartial cells round))

/-- The raw sponge mixing function. -/
def poseidon2Mix : Cells :=
  schedule fullRound partialRound ROUNDS_HALF_FULL ROUNDS_PARTIAL (multiplyByMExt cells)

end

abbrev State := Fin CELLS → Elem

def mExt : Matrix (Fin CELLS) (Fin CELLS) Elem := .of fun i j => M_EXT.getD (i * CELLS + j) 0

def mInt : Matrix (Fin CELLS) (Fin CELLS) Elem := .of (fun _ _ => 1) + .diagonal fun i => M_INT_DIAG_HZN.getD i 0

def specFullRound (x : State) (round : ℕ) : State :=
  mExt.mulVec fun i => (x i + ROUND_CONSTANTS.getD (round * CELLS + i) 0) ^ 7

def specPartialRound (x : State) (round : ℕ) : State :=
  mInt.mulVec (Function.update x 0 ((x 0 + ROUND_CONSTANTS.getD (round * CELLS) 0) ^ 7))

/-- The first linear layer, four full rounds, twenty-one partial ones and four full ones. -/
def permutation (x : State) : State :=
  (List.range' 25 4).foldl specFullRound
    ((List.range' 4 21).foldl specPartialRound ((List.range' 0 4).foldl specFullRound (mExt.mulVec x)))

section Layers

variable {cells : Cells}

theorem new_two : Elem.new 2#32 = 2 := (Elem.new_eq_cast 2#32).trans (Nat.cast_ofNat (R := Elem))

theorem new_four : Elem.new 4#32 = 4 := (Elem.new_eq_cast 4#32).trans (Nat.cast_ofNat (R := Elem))

/-- The cells by chunk and slot. -/
def cellEquiv : Fin 6 × Fin 4 ≃ Fin CELLS where
  toFun p := cellAt p.1 p.2
  invFun k := (chunkOf k, slotOf k)
  left_inv := by
    rintro ⟨i, j⟩
    have hi : chunkOf (cellAt i j) = i := Fin.ext (show (i.val * 4 + j.val) / 4 = i.val by omega)
    have hj : slotOf (cellAt i j) = j := Fin.ext (show (i.val * 4 + j.val) % 4 = j.val by omega)
    exact Prod.ext hi hj
  right_inv := fun k => Fin.ext (Nat.div_add_mod' k 4)

@[simp] theorem chunkOf_cellAt (i : Fin 6) (j : Fin 4) : chunkOf (cellAt i j) = i :=
  congrArg Prod.fst (cellEquiv.left_inv (i, j))

@[simp] theorem slotOf_cellAt (i : Fin 6) (j : Fin 4) : slotOf (cellAt i j) = j :=
  congrArg Prod.snd (cellEquiv.left_inv (i, j))

theorem sum_cells (f : Fin CELLS → Elem) : ∑ k, f k = ∑ i, ∑ j, f (cellAt i j) := by
  rw [← cellEquiv.sum_comp, Fintype.sum_prod_type]
  rfl

def circulant : Matrix (Fin 4) (Fin 4) Elem := !![5, 7, 1, 3; 4, 6, 1, 1; 1, 3, 5, 7; 1, 1, 4, 6]

theorem multiplyBy4x4Circulant_get (x : Vector Elem 4) (r : Fin 4) :
    (multiplyBy4x4Circulant x).get r = ∑ c, circulant r c * x.get c := by
  rw [Fin.sum_univ_four]
  have h2 := new_two
  have h4 := new_four
  fin_cases r
  · change .new 2#32 * x.get 3 + (x.get 0 + x.get 1) + (.new 4#32 * (x.get 0 + x.get 1) + (.new 2#32 * x.get 1 + (x.get 2 + x.get 3))) =
      5 * x.get 0 + 7 * x.get 1 + 1 * x.get 2 + 3 * x.get 3
    rw [h2, h4]
    ring
  · change .new 4#32 * (x.get 0 + x.get 1) + (.new 2#32 * x.get 1 + (x.get 2 + x.get 3)) =
      4 * x.get 0 + 6 * x.get 1 + 1 * x.get 2 + 1 * x.get 3
    rw [h2, h4]
    ring
  · change .new 2#32 * x.get 1 + (x.get 2 + x.get 3) + (.new 4#32 * (x.get 2 + x.get 3) + (.new 2#32 * x.get 3 + (x.get 0 + x.get 1))) =
      1 * x.get 0 + 3 * x.get 1 + 5 * x.get 2 + 7 * x.get 3
    rw [h2, h4]
    ring
  · change .new 4#32 * (x.get 2 + x.get 3) + (.new 2#32 * x.get 3 + (x.get 0 + x.get 1)) =
      1 * x.get 0 + 1 * x.get 1 + 4 * x.get 2 + 6 * x.get 3
    rw [h2, h4]
    ring

theorem chunkOut_get (cells : Cells) (i : Fin 6) (r : Fin 4) :
    (chunkOut cells i).get r = ∑ c, circulant r c * cells.get (cellAt i c) := by
  rw [chunkOut, multiplyBy4x4Circulant_get]
  simp only [Vector.get_ofFn]

theorem foldl_addChunk_fst (s : Vector Elem 4 × Cells) (l : List (Fin 6)) (r : Fin 4) :
    (l.foldl (addChunk cells) s).1.get r = s.1.get r + (l.map fun i => (chunkOut cells i).get r).sum := by
  induction l generalizing s with
  | nil => exact (add_zero _).symm
  | cons i rest ih =>
    rw [List.foldl_cons, ih, addChunk, Vector.get_ofFn, List.map_cons, List.sum_cons, add_assoc]

theorem foldl_addChunk_snd (s : Vector Elem 4 × Cells) {l : List (Fin 6)} (hl : l.Nodup) (k : Fin CELLS) :
    (l.foldl (addChunk cells) s).2.get k =
      s.2.get k + if chunkOf k ∈ l then (chunkOut cells (chunkOf k)).get (slotOf k) else 0 := by
  induction l generalizing s with
  | nil => exact (add_zero _).symm
  | cons i rest ih =>
    obtain ⟨hi, hrest⟩ := List.nodup_cons.mp hl
    rw [List.foldl_cons, ih _ hrest, addChunk, Vector.get_ofFn]
    by_cases hk : chunkOf k = i
    · rw [if_pos hk, if_neg (fun h => hi (hk ▸ h)), if_pos (hk ▸ List.mem_cons_self), hk, add_zero]
    · rw [if_neg hk]
      simp only [List.mem_cons, hk, false_or]

theorem multiplyByMExt_get (cells : Cells) (i : Fin 6) (r : Fin 4) :
    (multiplyByMExt cells).get (cellAt i r) = (chunkOut cells i).get r + ∑ i', (chunkOut cells i').get r := by
  rw [multiplyByMExt, Vector.get_ofFn, foldl_addChunk_fst, foldl_addChunk_snd _ (List.nodup_finRange 6), chunkOf_cellAt,
    slotOf_cellAt, if_pos (List.mem_finRange i), Fin.sum_univ_def]
  simp

/-! The matrices. -/

theorem getD_flatMap_map {α : Type} (f : ℕ → ℕ → α) (d : α) (m : ℕ) {n i j : ℕ} (hi : i < n) (hj : j < m) :
    ((List.range n).flatMap fun i => (List.range m).map fun j => f i j).getD (i * m + j) d = f i j := by
  induction n with
  | zero => exact absurd hi (Nat.not_lt_zero i)
  | succ n ih =>
    have hlen : ((List.range n).flatMap fun i => (List.range m).map fun j => f i j).length = n * m := by
      simp [List.length_flatMap]
    rw [List.range_succ, List.flatMap_append, List.flatMap_singleton]
    obtain hlt | rfl := Nat.lt_succ_iff_lt_or_eq.mp hi
    · have hpos : i * m + j < n * m := by nlinarith
      rw [List.getD_append _ _ _ _ (hlen ▸ hpos)]
      exact ih hlt
    · rw [List.getD_append_right _ _ _ _ (by rw [hlen]; exact Nat.le_add_right _ _), hlen, Nat.add_sub_cancel_left,
        List.getD_eq_getElem _ _ (by simpa using hj), List.getElem_map, List.getElem_range]

def circulantEntry (r c : ℕ) : U32 := [5, 7, 1, 3, 4, 6, 1, 1, 1, 3, 5, 7, 1, 1, 4, 6].getD (r * 4 + c) 0

/-- An entry of the matrix: two circulants on the diagonal of chunks, one elsewhere. -/
def extEntry (i j : ℕ) : U32 := if i / 4 = j / 4 then 2 * circulantEntry (i % 4) (j % 4) else circulantEntry (i % 4) (j % 4)

set_option maxRecDepth 20000 in
theorem extEntries_eq : extEntries = (List.range 24).flatMap fun i => (List.range 24).map fun j => extEntry i j := by
  rfl

theorem getD_babyBearArray (xs : List U32) (n : ℕ) : (babyBearArray xs).getD n 0 = .new (xs.getD n 0) := by
  rw [babyBearArray, show (0 : Elem) = .new 0 from rfl, List.getD_map]

theorem new_circulantEntry (r c : Fin 4) : Elem.new (circulantEntry r c) = circulant r c := by
  have h : ∀ r c : Fin 4, Elem.new (circulantEntry r c) = 1 * circulant r c := by decide
  rw [h, one_mul]

theorem new_two_circulantEntry : ∀ r c : Fin 4, Elem.new (2 * circulantEntry r c) = 2 * circulant r c := by decide

theorem new_extEntry (i i' : Fin 6) (r c : Fin 4) :
    Elem.new (extEntry (cellAt i r) (cellAt i' c)) = (if i = i' then 2 else 1) * circulant r c := by
  have hi : (cellAt i r).val / 4 = i.val := congrArg Fin.val (chunkOf_cellAt i r)
  have hi' : (cellAt i' c).val / 4 = i'.val := congrArg Fin.val (chunkOf_cellAt i' c)
  have hr : (cellAt i r).val % 4 = r.val := congrArg Fin.val (slotOf_cellAt i r)
  have hc : (cellAt i' c).val % 4 = c.val := congrArg Fin.val (slotOf_cellAt i' c)
  rw [extEntry, hi, hi', hr, hc]
  by_cases h : i = i'
  · rw [if_pos (congrArg Fin.val h), if_pos h, new_two_circulantEntry]
  · rw [if_neg (fun hv => h (Fin.ext hv)), if_neg h, one_mul, new_circulantEntry]

theorem mExt_cellAt (i i' : Fin 6) (r c : Fin 4) :
    mExt (cellAt i r) (cellAt i' c) = (if i = i' then 2 else 1) * circulant r c := by
  rw [mExt, of_apply, M_EXT, getD_babyBearArray, extEntries_eq,
    getD_flatMap_map extEntry 0 24 (cellAt i r).isLt (cellAt i' c).isLt, new_extEntry]

theorem multiplyByMExt_eq (cells : Cells) : (multiplyByMExt cells).get = mExt.mulVec cells.get := by
  funext k
  obtain ⟨⟨i, r⟩, rfl⟩ := cellEquiv.surjective k
  change (multiplyByMExt cells).get (cellAt i r) = ∑ k, mExt (cellAt i r) k * cells.get k
  rw [multiplyByMExt_get, sum_cells]
  have hchunk (i' : Fin 6) : ∑ c, mExt (cellAt i r) (cellAt i' c) * cells.get (cellAt i' c) =
      (if i = i' then (chunkOut cells i').get r else 0) + (chunkOut cells i').get r := by
    rw [chunkOut_get]
    by_cases h : i = i'
    · simp only [mExt_cellAt, if_pos h, mul_assoc, ← Finset.mul_sum]
      exact two_mul _
    · simp only [mExt_cellAt, if_neg h, one_mul]
      exact (zero_add _).symm
  simp only [hchunk]
  rw [Finset.sum_add_distrib, Finset.sum_ite_eq, if_pos (Finset.mem_univ i)]

theorem foldl_add {α : Type} (f : α → Elem) (l : List α) (a : Elem) :
    l.foldl (fun acc i => acc + f i) a = a + (l.map f).sum := by
  induction l generalizing a with
  | nil => exact (add_zero a).symm
  | cons i rest ih => rw [List.foldl_cons, ih, List.map_cons, List.sum_cons, add_assoc]

theorem multiplyByMInt_eq (cells : Cells) : (multiplyByMInt cells).get = mInt.mulVec cells.get := by
  funext k
  have hones : (of fun _ _ => (1 : Elem)).mulVec cells.get k = ∑ i, cells.get i := by
    simp only [mulVec, dotProduct, of_apply, one_mul]
  rw [multiplyByMInt, Vector.get_ofFn, foldl_add, zero_add, ← Fin.sum_univ_def, mInt, add_mulVec, Pi.add_apply,
    mulVec_diagonal, hones]

end Layers

theorem sbox_eq (x : Elem) : sbox x = x ^ 7 := by
  dsimp only [sbox]
  ring

theorem fullRound_eq (cells : Cells) (round : ℕ) : (fullRound cells round).get = specFullRound cells.get round := by
  rw [fullRound, multiplyByMExt_eq, specFullRound]
  refine congrArg mExt.mulVec (funext fun i => ?_)
  rw [doFullSboxes, Vector.get_map, addRoundConstantsFull, Vector.get_ofFn, sbox_eq]

theorem partialRound_eq (cells : Cells) (round : ℕ) :
    (partialRound cells round).get = specPartialRound cells.get round := by
  rw [partialRound, multiplyByMInt_eq, specPartialRound]
  refine congrArg mInt.mulVec (funext fun i => ?_)
  rw [doPartialSboxes, Vector.get_ofFn, addRoundConstantsPartial, Vector.get_ofFn]
  by_cases hi : i = 0
  · rw [if_pos hi, if_pos hi, sbox_eq, hi, update_self]
  · rw [if_neg hi, if_neg hi, update_of_ne hi]

theorem poseidon2Mix_eq (cells : Cells) : (poseidon2Mix cells).get = permutation cells.get := by
  rw [poseidon2Mix, schedule_eq, permutation, ← multiplyByMExt_eq]
  have hfull (l : List ℕ) (cells : Cells) : (l.foldl fullRound cells).get = l.foldl specFullRound cells.get :=
    (List.foldl_hom Vector.get (fun cells round => (fullRound_eq cells round).symm)).symm
  have hpartial (l : List ℕ) (cells : Cells) : (l.foldl partialRound cells).get = l.foldl specPartialRound cells.get :=
    (List.foldl_hom Vector.get (fun cells round => (partialRound_eq cells round).symm)).symm
  rw [hfull, hpartial, hfull, List.range_eq_range']
  rfl

theorem sbox_injective : Function.Injective (fun x : Elem => x ^ 7) := by
  have hinv (x : Elem) : (x ^ 7) ^ 1725656503 = x := by
    by_cases hx : x = 0
    · rw [hx, zero_pow (by decide), zero_pow (by decide)]
    · rw [← pow_mul, show 7 * 1725656503 = 2013265920 * 6 + 1 from rfl, pow_succ, pow_mul, Elem.pow_modulus_sub_one hx,
        one_pow, one_mul]
  exact Function.LeftInverse.injective (g := fun y => y ^ 1725656503) hinv

theorem ne_zero_of_natCast {n : ℕ} (h : n % 2013265921 ≠ 0) : (n : Elem) ≠ 0 := by
  intro hzero
  have hfield : ((n : Elem)).toField = (0 : Elem).toField := congrArg Elem.toField hzero
  rw [Elem.toField_natCast, Elem.toField_zero, ZMod.natCast_eq_zero_iff] at hfield
  exact h (Nat.mod_eq_zero_of_dvd hfield)

theorem circulant_injective {w : Fin 4 → Elem} (h : circulant.mulVec w = 0) : w = 0 := by
  have h0 := congrFun h 0
  have h1 := congrFun h 1
  have h2 := congrFun h 2
  have h3 := congrFun h 3
  simp only [circulant, mulVec, dotProduct, of_apply, cons_val', cons_val_fin_one,
    cons_val_zero, cons_val_one, cons_val, Fin.sum_univ_four, one_mul, Pi.zero_apply] at h0 h1 h2 h3
  have hw0 : 64 * w 0 = 0 := by linear_combination -8 * h0 + 24 * h1 - 48 * h2 + 56 * h3
  have hw1 : 64 * w 1 = 0 := by linear_combination 8 * h0 - 8 * h1 + 32 * h2 - 40 * h3
  have hw2 : 64 * w 2 = 0 := by linear_combination -48 * h0 + 56 * h1 - 8 * h2 + 24 * h3
  have hw3 : 64 * w 3 = 0 := by linear_combination 32 * h0 - 40 * h1 + 8 * h2 - 8 * h3
  have h64 : (64 : Elem) ≠ 0 := ne_zero_of_natCast (n := 64) (by decide)
  funext c
  refine (mul_eq_zero.mp ?_).resolve_left h64
  fin_cases c
  · exact hw0
  · exact hw1
  · exact hw2
  · exact hw3

/-- The sums of the chunks are an eighth part of all of it, and determine them. -/
theorem mExt_injective : Function.Injective mExt.mulVec := by
  intro x y hxy
  have hzero : mExt.mulVec (x - y) = 0 := by rw [mulVec_sub, hxy, sub_self]
  suffices hw : x - y = 0 from sub_eq_zero.mp hw
  generalize x - y = w at hzero ⊢
  have hcells : (Vector.ofFn w : Cells).get = w := funext fun k => Vector.get_ofFn _ k
  have hout (i : Fin 6) (r : Fin 4) :
      (chunkOut (.ofFn w) i).get r + ∑ i', (chunkOut (.ofFn w) i').get r = 0 := by
    rw [← multiplyByMExt_get, multiplyByMExt_eq, hcells, hzero]
    rfl
  have hsum (r : Fin 4) : ∑ i', (chunkOut (.ofFn w) i').get r = 0 := by
    have htotal : ∑ i : Fin 6, ((chunkOut (.ofFn w) i).get r + ∑ i', (chunkOut (.ofFn w) i').get r) = 0 :=
      Finset.sum_eq_zero (fun i _ => hout i r)
    rw [Finset.sum_add_distrib, Finset.sum_const, Finset.card_univ, Fintype.card_fin, ← succ_nsmul', nsmul_eq_mul] at htotal
    exact (mul_eq_zero.mp htotal).resolve_left (ne_zero_of_natCast (by decide))
  funext k
  obtain ⟨⟨i, r⟩, rfl⟩ := cellEquiv.surjective k
  have hcirc : circulant.mulVec (fun c => w (cellAt i c)) = 0 := by
    funext r
    have hr := hout i r
    rw [hsum, add_zero, chunkOut_get, hcells] at hr
    exact hr
  exact congrFun (circulant_injective hcirc) r

/-! The inverses of the diagonal of the inner matrix. -/

def diagInverses : List Elem := babyBearArray
  [43705162, 924797003, 990482726, 1694794586, 23444731, 1886478229, 1081791061, 563932331, 414848917, 11468505,
   494775741, 1605169737, 171321002, 837375491, 1366335515, 103669254, 1737042853, 928767156, 1505013840, 269273777,
   1505843032, 100101, 1973520354, 317103186]

theorem mul_diagInverses : ∀ k : Fin CELLS, diagInverses.getD k 0 * M_INT_DIAG_HZN.getD k 0 = 1 := by decide

set_option maxRecDepth 8000 in
theorem one_add_sum_diagInverses : 1 + ∑ k : Fin CELLS, diagInverses.getD k 0 ≠ 0 := by
  rw [Fin.sum_univ_def]
  decide

theorem mInt_injective : Function.Injective mInt.mulVec := by
  intro x y hxy
  have hzero : mInt.mulVec (x - y) = 0 := by rw [mulVec_sub, hxy, sub_self]
  suffices hw : x - y = 0 from sub_eq_zero.mp hw
  generalize x - y = w at hzero ⊢
  have hcells : (Vector.ofFn w : Cells).get = w := funext fun k => Vector.get_ofFn _ k
  have hcell (k : Fin CELLS) : ∑ i, w i + M_INT_DIAG_HZN.getD k 0 * w k = 0 := by
    have hk := congrFun hzero k
    rw [← hcells, ← multiplyByMInt_eq, multiplyByMInt, Vector.get_ofFn, foldl_add, zero_add, ← Fin.sum_univ_def,
      hcells] at hk
    exact hk
  have hw (k : Fin CELLS) : w k = -(diagInverses.getD k 0 * ∑ i, w i) := by
    linear_combination diagInverses.getD k 0 * hcell k - w k * mul_diagInverses k
  have htotal : (1 + ∑ k : Fin CELLS, diagInverses.getD k 0) * ∑ i, w i = 0 := by
    have hsum : ∑ i, w i = -∑ k : Fin CELLS, diagInverses.getD k 0 * ∑ i, w i := by
      rw [← Finset.sum_neg_distrib]
      exact Finset.sum_congr rfl (fun k _ => hw k)
    rw [← Finset.sum_mul] at hsum
    linear_combination hsum
  have hzero : ∑ i, w i = 0 := (mul_eq_zero.mp htotal).resolve_left one_add_sum_diagInverses
  funext k
  rw [hw k, hzero, mul_zero, neg_zero]
  rfl

theorem permutation_injective : Function.Injective permutation := by
  have hfull : ∀ k, Function.Injective (fun x => specFullRound x k) := by
    intro k x y hxy
    have hcells := mExt_injective hxy
    funext i
    exact add_right_cancel (sbox_injective (congrFun hcells i))
  have hpartial : ∀ k, Function.Injective (fun x => specPartialRound x k) := by
    intro k x y hxy
    have hcells := mInt_injective hxy
    generalize ROUND_CONSTANTS.getD (k * CELLS) 0 = c at hcells
    funext i
    have hi := congrFun hcells i
    by_cases h0 : i = 0
    · rw [h0, update_self, update_self] at hi
      rw [h0]
      exact add_right_cancel (sbox_injective hi)
    · rwa [update_of_ne h0, update_of_ne h0] at hi
  intro x y hxy
  rw [permutation, permutation] at hxy
  have hlast := foldl_injective (fun k _ => hfull k) hxy
  have hmid := foldl_injective (fun k _ => hpartial k) hlast
  exact mExt_injective (foldl_injective (fun k _ => hfull k) hmid)

/-- The optimised mixing is the permutation of the specification, and one to one on the states. -/
theorem poseidon2Mix_permutes :
    (∀ cells : Cells, (poseidon2Mix cells).get = permutation cells.get) ∧ Function.Bijective poseidon2Mix := by
  refine ⟨poseidon2Mix_eq, ?_⟩
  have hget : Function.Injective (Vector.get : Cells → State) := by
    intro x y hxy
    exact Vector.ext (fun i hi => congrFun hxy ⟨i, hi⟩)
  have : Finite Cells := Finite.of_injective Vector.get hget
  refine Finite.injective_iff_bijective.mp ?_
  intro x y hxy
  apply hget
  apply permutation_injective
  rw [← poseidon2Mix_eq, ← poseidon2Mix_eq, hxy]

end VerifiableCompute.Zkp.Poseidon2
