import VerifiableCompute.Market.Types

/-! Accounts of the market: two balances, and two flag bits for each of the
`2 ^ 32` request indices of the account. The flags of the first 32 indices share
the account's first word; the others are packed 128 to a word. -/

namespace VerifiableCompute.Market

open Lib BitVec

def requestFlagsBitwidth : ℕ := 2

def requestFlagsInitialBits : ℕ := 64

structure Account where
  balance : U96
  collateralBalance : U96
  requestFlagsInitial : U64
  /-- A fixed array of `2 ^ 25` words; no index reaches past its end. -/
  requestFlagsExtended : ℕ → U256

def Account.empty : Account := ⟨0, 0, 0, fun _ => 0⟩

/-- The two flag bits at an offset of a packed word. -/
def readFlags {w : ℕ} (word : BitVec w) (shift : ℕ) : Bool × Bool :=
  let masked := (word &&& (((1 : BitVec w) <<< requestFlagsBitwidth) - 1) <<< shift) >>> shift
  (decide (masked &&& 1 ≠ 0), decide (masked &&& 2 ≠ 0))

namespace Account

variable (a : Account) (idx : U32)

/-- Whether the request with this index is locked, and whether it is fulfilled. -/
def requestFlags : Bool × Bool :=
  if idx.toNat < requestFlagsInitialBits / requestFlagsBitwidth then
    readFlags a.requestFlagsInitial (idx.toNat * requestFlagsBitwidth)
  else
    let idxShifted := idx.toNat - requestFlagsInitialBits / requestFlagsBitwidth
    readFlags (a.requestFlagsExtended (idxShifted * requestFlagsBitwidth / 256))
      (idxShifted * requestFlagsBitwidth % 256)

def setRequestFlags (flags : U8) : Except Revert Account := do
  require (flags.toNat < 2 ^ requestFlagsBitwidth) .arithmeticPanic
  if idx.toNat < requestFlagsInitialBits / requestFlagsBitwidth then
    let mask := flags.setWidth 64 <<< (idx.toNat * requestFlagsBitwidth)
    .ok { a with requestFlagsInitial := a.requestFlagsInitial ||| mask }
  else
    let idxShifted := idx.toNat - requestFlagsInitialBits / requestFlagsBitwidth
    let mask := flags.setWidth 256 <<< (idxShifted * requestFlagsBitwidth % 256)
    let word := idxShifted * requestFlagsBitwidth / 256
    .ok { a with requestFlagsExtended :=
      Function.update a.requestFlagsExtended word (a.requestFlagsExtended word ||| mask) }

def setRequestLocked : Except Revert Account := a.setRequestFlags idx 1

def setRequestFulfilled : Except Revert Account := a.setRequestFlags idx 2

end Account

theorem flagMask_eq (w : ℕ) : ((1 : BitVec w) <<< requestFlagsBitwidth) - 1 = BitVec.ofNat w 3 := by
  have h4 : (1 : BitVec w) <<< requestFlagsBitwidth = BitVec.ofNat w 3 + BitVec.ofNat w 1 := by
    rw [← ofNat_add]
    apply eq_of_toNat_eq
    simp [requestFlagsBitwidth, Nat.shiftLeft_eq]
  rw [h4]
  exact add_sub_cancel_right _ _

theorem readFlags_eq {w : ℕ} (word : BitVec w) (shift : ℕ) (h : shift + 1 < w) :
    readFlags word shift = (word.getLsbD shift, word.getLsbD (shift + 1)) := by
  have hthree (i : ℕ) : Nat.testBit 3 i = decide (i < 2) := by
    rw [show 3 = 2 ^ 2 - 1 by norm_num, Nat.testBit_two_pow_sub_one]
  have hmasked (i : ℕ) (hi : i < 2) :
      ((word &&& (((1 : BitVec w) <<< requestFlagsBitwidth) - 1) <<< shift) >>> shift).getLsbD i =
        word.getLsbD (shift + i) := by
    have hlt : shift + i < w := by omega
    have hiw : i < w := by omega
    rw [flagMask_eq, getLsbD_ushiftRight, getLsbD_and, getLsbD_shiftLeft,
      getLsbD_ofNat]
    simp [hlt, hiw, hi, hthree]
  have h1 : (1 : BitVec w) = (1 : BitVec w) <<< 0 := (BitVec.shiftLeft_zero _).symm
  have h2 : (2 : BitVec w) = (1 : BitVec w) <<< 1 := by
    apply eq_of_toNat_eq
    simp [Nat.shiftLeft_eq]
  refine Prod.ext (Bool.eq_iff_iff.mpr ?_) (Bool.eq_iff_iff.mpr ?_)
  · rw [readFlags, decide_eq_true_iff]
    conv_lhs => enter [1, 2]; rw [h1]
    rw [and_one_shiftLeft_ne_zero _ 0 (by omega), hmasked 0 (by omega), Nat.add_zero]
  · rw [readFlags, decide_eq_true_iff, h2, and_one_shiftLeft_ne_zero _ 1 (by omega),
      hmasked 1 (by omega)]

/-- Setting flags at one even offset changes no other even offset. -/
theorem readFlags_or {w : ℕ} (word : BitVec w) (flags : U8) (s t : ℕ) (hf : flags.toNat < 4)
    (hs : 2 * s + 1 < w) (ht : 2 * t + 1 < w) : readFlags (word ||| flags.setWidth w <<< (2 * s)) (2 * t) =
      if t = s then ((readFlags word (2 * s)).1 || flags.getLsbD 0,
        (readFlags word (2 * s)).2 || flags.getLsbD 1)
      else readFlags word (2 * t) := by
  have hhigh (i : ℕ) (hi : 2 ≤ i) : flags.getLsbD i = false := by
    apply Nat.testBit_lt_two_pow
    calc flags.toNat < 2 ^ 2 := hf
      _ ≤ 2 ^ i := Nat.pow_le_pow_right (by norm_num) hi
  have hbit (j : ℕ) (hj : j < w) : (word ||| flags.setWidth w <<< (2 * s)).getLsbD j =
      (word.getLsbD j || (decide (2 * s ≤ j) && flags.getLsbD (j - 2 * s))) := by
    have hjw : j - 2 * s < w := by omega
    rw [getLsbD_or, getLsbD_shiftLeft, getLsbD_setWidth]
    by_cases hle : 2 * s ≤ j
    · simp [hj, hjw, hle, Nat.not_lt.mpr hle]
    · simp [hle, Nat.lt_of_not_le hle]
  rw [readFlags_eq _ _ ht, hbit _ (by omega), hbit _ ht]
  split_ifs with hts
  · subst hts
    simp [readFlags_eq word _ ht]
  · rw [readFlags_eq word _ ht]
    rcases Nat.lt_or_gt_of_ne hts with h | h
    · have h1 : ¬ 2 * s ≤ 2 * t := by omega
      have h2 : ¬ 2 * s ≤ 2 * t + 1 := by omega
      simp [h1, h2]
    · rw [hhigh (2 * t - 2 * s) (by omega), hhigh (2 * t + 1 - 2 * s) (by omega)]
      simp

namespace Account

section

variable {a b : Account} {idx : U32} {flags : U8} (h : a.setRequestFlags idx flags = .ok b)

include a b idx flags h

theorem requestFlags_setRequestFlags (j : U32) :
    b.requestFlags j = if j = idx then ((a.requestFlags idx).1 || flags.getLsbD 0,
      (a.requestFlags idx).2 || flags.getLsbD 1) else a.requestFlags j := by
  obtain ⟨_, hf, h⟩ := bind_ok_iff.mp h
  rw [require_ok_iff] at hf
  have hne (i : U32) : i = idx ↔ i.toNat = idx.toNat := toNat_inj.symm
  simp only [requestFlagsInitialBits, requestFlagsBitwidth, Nat.reduceDiv, Nat.mul_comm _ 2] at h
  split_ifs at h with hidx <;> cases h <;>
    simp only [requestFlags, requestFlagsInitialBits, requestFlagsBitwidth, Nat.reduceDiv,
      Nat.mul_comm _ 2, hidx, ↓reduceIte, hne]
  · -- the flags of `idx` live in the first word
    split_ifs with hj hij hij <;> try omega
    · rw [hij, readFlags_or _ _ _ _ hf (by omega) (by omega), if_pos rfl]
    · rw [readFlags_or _ _ _ _ hf (by omega) (by omega), if_neg hij]
    · rfl
  · -- the flags of `idx` live in the extended array
    have hmod (x : ℕ) : 2 * x % 256 = 2 * (x % 128) := Nat.mul_mod_mul_left 2 x 128
    have hdiv (x : ℕ) : 2 * x / 256 = x / 128 := Nat.mul_div_mul_left x 128 (by norm_num)
    simp only [hmod, hdiv]
    split_ifs with hj hij hij <;> try omega
    · rfl
    · rw [hij, Function.update_self, readFlags_or _ _ _ _ hf (by omega) (by omega), if_pos rfl]
    · by_cases hword : (j.toNat - 32) / 128 = (idx.toNat - 32) / 128
      · rw [hword, Function.update_self, readFlags_or _ _ _ _ hf (by omega) (by omega),
          if_neg (by omega)]
      · rw [Function.update_of_ne hword]

theorem setRequestFlags_frame : b.balance = a.balance ∧ b.collateralBalance = a.collateralBalance := by
  obtain ⟨_, -, h⟩ := bind_ok_iff.mp h
  split_ifs at h <;> cases h <;> exact ⟨rfl, rfl⟩

end

theorem setRequestFlags_ok (a : Account) (idx : U32) (flags : U8) (hf : flags.toNat < 4) :
    ∃ b, a.setRequestFlags idx flags = .ok b := by
  have hreq : require (flags.toNat < 2 ^ requestFlagsBitwidth) Revert.arithmeticPanic = .ok () :=
    require_ok_iff.mpr hf
  unfold setRequestFlags
  rw [hreq]
  split_ifs <;> exact ⟨_, rfl⟩

end Account

/-! The flag store of an account over a sequence of calls. The flags of every request
accumulate by bitwise or, whatever the other requests of the sequence are, and no
index reaches past the end of the array. -/

/-- The number of words of the array. -/
def requestFlagsExtendedLength : ℕ := 2 ^ 32 * requestFlagsBitwidth / 256

/-- The word of the array that holds the flags of a request. -/
def extendedIndex (idx : U32) : ℕ :=
  (idx.toNat - requestFlagsInitialBits / requestFlagsBitwidth) * requestFlagsBitwidth / 256

theorem extendedIndex_lt (idx : U32) : extendedIndex idx < requestFlagsExtendedLength := by
  unfold extendedIndex requestFlagsExtendedLength requestFlagsInitialBits requestFlagsBitwidth
  omega

structure FlagCall where
  idx : U32
  flags : U8

def flagsFor (idx : U32) : List FlagCall → U8
  | [] => 0
  | c :: calls => (if c.idx = idx then c.flags else 0) ||| flagsFor idx calls

namespace Account

variable {a b : Account}

/-- A call that fails makes the whole sequence fail. -/
def setAll (a : Account) : List FlagCall → Except Revert Account
  | [] => .ok a
  | c :: calls => do
    let b ← a.setRequestFlags c.idx c.flags
    b.setAll calls

theorem setRequestFlags_beyond {idx : U32} {flags : U8} (h : a.setRequestFlags idx flags = .ok b) {word : ℕ}
    (hword : requestFlagsExtendedLength ≤ word) : b.requestFlagsExtended word = a.requestFlagsExtended word := by
  obtain ⟨_, -, h⟩ := bind_ok_iff.mp h
  have hne : word ≠ extendedIndex idx := by
    have := extendedIndex_lt idx
    omega
  split_ifs at h <;> cases h
  · rfl
  · exact Function.update_of_ne hne _ _

structure FlagsSet (a b : Account) (calls : List FlagCall) : Prop where
  flags : ∀ idx, b.requestFlags idx =
    ((a.requestFlags idx).1 || (flagsFor idx calls).getLsbD 0, (a.requestFlags idx).2 || (flagsFor idx calls).getLsbD 1)
  balance : b.balance = a.balance
  collateralBalance : b.collateralBalance = a.collateralBalance
  beyond : ∀ word, requestFlagsExtendedLength ≤ word → b.requestFlagsExtended word = a.requestFlagsExtended word

theorem FlagsSet.nil (a : Account) : FlagsSet a a [] :=
  ⟨fun idx => by simp [flagsFor], rfl, rfl, fun _ _ => rfl⟩

theorem FlagsSet.cons {c : FlagCall} {calls : List FlagCall} {d : Account} (hcall : a.setRequestFlags c.idx c.flags = .ok b)
    (h : FlagsSet b d calls) : FlagsSet a d (c :: calls) := by
  obtain ⟨hbalance, hcollateral⟩ := setRequestFlags_frame hcall
  refine ⟨fun idx => ?_, h.balance.trans hbalance, h.collateralBalance.trans hcollateral, fun word hword => ?_⟩
  · rw [h.flags idx, requestFlags_setRequestFlags hcall idx, flagsFor]
    by_cases hidx : idx = c.idx
    · subst hidx
      simp [Bool.or_assoc]
    · simp [hidx, Ne.symm hidx]
  · rw [h.beyond word hword, setRequestFlags_beyond hcall hword]

theorem flagsSet_of_setAll (calls : List FlagCall) : ∀ {a b : Account}, a.setAll calls = .ok b → FlagsSet a b calls := by
  induction calls with
  | nil =>
    intro a b h
    cases h
    exact .nil a
  | cons c calls ih =>
    intro a b h
    obtain ⟨d, hcall, h⟩ := bind_ok_iff.mp h
    exact .cons hcall (ih h)

/-- A sequence fails only by flags that do not fit into two bits. -/
theorem setAll_ok_iff (calls : List FlagCall) : ∀ a : Account,
    (∃ b, a.setAll calls = .ok b) ↔ ∀ c ∈ calls, c.flags.toNat < 2 ^ requestFlagsBitwidth := by
  induction calls with
  | nil => exact fun a => ⟨fun _ _ hc => absurd hc List.not_mem_nil, fun _ => ⟨a, rfl⟩⟩
  | cons c calls ih =>
    intro a
    rw [List.forall_mem_cons]
    constructor
    · rintro ⟨d, h⟩
      obtain ⟨b, hcall, h⟩ := bind_ok_iff.mp h
      obtain ⟨_, hflags, -⟩ := bind_ok_iff.mp hcall
      exact ⟨require_ok_iff.mp hflags, (ih b).mp ⟨d, h⟩⟩
    · rintro ⟨hflags, hcalls⟩
      obtain ⟨b, hcall⟩ := a.setRequestFlags_ok c.idx c.flags hflags
      obtain ⟨d, h⟩ := (ih b).mpr hcalls
      exact ⟨d, bind_ok_iff.mpr ⟨b, hcall, h⟩⟩

/-- After any calls that do not fail, the flags of every request are its first flags or what was set for it. -/
theorem request_flags_accumulate (a : Account) (calls : List FlagCall) :
    ((∃ b, a.setAll calls = .ok b) ↔ ∀ c ∈ calls, c.flags.toNat < 2 ^ requestFlagsBitwidth) ∧
      (∀ b, a.setAll calls = .ok b → FlagsSet a b calls) ∧
      ∀ idx, extendedIndex idx < requestFlagsExtendedLength :=
  ⟨setAll_ok_iff calls a, fun _ h => flagsSet_of_setAll calls h, extendedIndex_lt⟩

end Account

end VerifiableCompute.Market
